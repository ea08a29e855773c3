import Xv6.Fs.Inode

/-!
# `Fs.Dir` — directories and path names (`kernel/fs.c`, "Directories" and "Paths"; `kernel/sysfile.c`)

A directory is a file of 16-byte entries: a `ushort` inode number, 0 when the entry is free, and up to
`DIRSIZ` bytes of name. A path or a name is the list of its bytes before the terminating NUL.
-/

namespace Xv6

open Bytes Hoare

/-! ## Names and entries -/

/-- `strncmp` on NUL-terminated strings; past its last byte a list reads as NUL. -/
def strncmp (p q : List UInt8) : Nat → Int
  | 0 => 0
  | n + 1 =>
    if p.headD 0 ≠ 0 ∧ p.headD 0 = q.headD 0 then strncmp p.tail q.tail n
    else (p.headD 0).toNat - (q.headD 0).toNat

/-- Compare two names by their first `DIRSIZ` bytes. -/
def namecmp (s t : List UInt8) : Int := strncmp s t DIRSIZ

/-- `de->name` of the entry at byte `o`, all `DIRSIZ` bytes of it. -/
def direntName (d : Arr) (o : Nat) : List UInt8 := (List.range DIRSIZ).map fun i => d (o + 2 + i)

/-- `de->inum` of the entry at byte `o`. -/
def direntInum (d : Arr) (o : Nat) : Nat := u16 d o

/-- The bytes of an entry whose name was set with `strncpy(de.name, name, DIRSIZ)`. -/
def direntBytes (inum : Nat) (name : List UInt8) : Arr :=
  fun i => if i < 2 then byteOf inum i else name.getD (i - 2) 0

/-- The bytes a `readi` into a local variable stored there. -/
def localBytes (bytes : List UInt8) : Arr := fun i => bytes.getD i 0

/-- The inner loop of `dirlookup`: the first used entry of a block whose name matches. -/
def findEntry (bp : Arr) (name : List UInt8) : Option Nat :=
  (List.range 32).find? fun k =>
    direntInum bp (16 * k) ≠ 0 ∧ namecmp name (direntName bp (16 * k)) = 0

/-- The outer loop of `dirlookup`, with the number of blocks still to scan. -/
def dirlookupFrom (dp : Slot) (name : List UInt8) : Nat → Nat → FsM (Option (Slot × Nat))
  | 0, _ => return none
  | k + 1, off => do
    let addr ← bmap dp (off / BSIZE)
    let i ← inode dp
    let bp ← bread i.dev addr
    match findEntry bp name with
    | some e =>
      let ip ← iget i.dev (direntInum bp (16 * e))
      return some (ip, off + 16 * e)
    | none => dirlookupFrom dp name k (off + BSIZE)

/-- Look for a directory entry in a directory; returns the inode and the entry's byte offset (`*poff`). -/
def dirlookup (dp : Slot) (name : List UInt8) : FsM (Option (Slot × Nat)) := do
  let i ← inode dp
  if i.type ≠ T_DIR then panic "dirlookup not DIR"
  else dirlookupFrom dp name ((i.size + BSIZE - 1) / BSIZE) 0

/-- The loop of `dirlink`: the offset of the first empty entry, or the size. -/
def emptyEntry (dp : Slot) : Nat → Nat → FsM Nat
  | 0, off => return off
  | fuel + 1, off => do
    let i ← inode dp
    if off < i.size then
      let (r, bytes) ← readi dp .kernel off 16
      if r ≠ 16 then panic "dirlink read"
      else if direntInum (localBytes bytes) 0 = 0 then return off
      else emptyEntry dp fuel (off + 16)
    else return off

/-- Write a new directory entry (name, inum) into the directory `dp`. -/
def dirlink (dp : Slot) (name : List UInt8) (inum : Nat) : FsM Int := do
  match ← dirlookup dp name with
  | some (ip, _) =>
    iput ip
    return -1
  | none =>
    let i ← inode dp
    let off ← emptyEntry dp ((i.size + 15) / 16) 0
    let r ← writei dp (.kernel (direntBytes inum name)) off 16
    if r ≠ 16 then panic "dirlink"
    else return 0

/-! ## Paths -/

/-- The byte `'/'`. -/
@[simp] abbrev slash : UInt8 := 47

/-- Copy the next path element from `path` into `name`; return it with the path after it, which has no
    leading slashes. `none` if there is no name to remove. -/
def skipelem (path : List UInt8) : Option (List UInt8 × List UInt8) :=
  match path.dropWhile (· = slash) with
  | [] => none
  | s => some ((s.takeWhile (· ≠ slash)).take DIRSIZ,
      (s.dropWhile (· ≠ slash)).dropWhile (· = slash))

/-- How an iteration of the loop of `namex` ends: the call returns, or the walk goes on at another inode. -/
inductive Walk where
  | done (r : Option Slot)
  | next (ip : Slot)

/-- One iteration of the loop of `namex` at inode `ip`, with `path` the rest of the path after `name`. -/
def namexElem (nameiparent : Bool) (ip : Slot) (name path : List UInt8) : FsM Walk := do
  ilock ip
  let i ← inode ip
  if i.type ≠ T_DIR then
    iunlockput ip
    return .done none
  else if nameiparent ∧ path = [] then
    -- stop one level early
    iunlock ip
    return .done (some ip)
  else
    match ← dirlookup ip name with
    | none =>
      iunlockput ip
      return .done none
    | some (next, _) =>
      iunlockput ip
      return .next next

/-- The loop of `namex` from inode `ip` and what follows it; `fuel` is more than the length of `path`. -/
def namexFrom (nameiparent : Bool) : Nat → Slot → List UInt8 → List UInt8 → FsM (Option (Slot × List UInt8))
  | 0, ip, _, name => return some (ip, name)
  | fuel + 1, ip, path, name =>
    match skipelem path with
    | none =>
      if nameiparent then do
        iput ip
        return none
      else return some (ip, name)
    | some (name, path) => do
      match ← namexElem nameiparent ip name path with
      | .done r => return r.map (·, name)
      | .next next => namexFrom nameiparent fuel next path name

/-- Where the lookup of `path` starts. -/
def namexStart (cwd : Slot) (path : List UInt8) : FsM Slot :=
  if path.head? = some slash then iget ROOTDEV ROOTINO else idup cwd

/-- Look up the inode for a path name; with `nameiparent`, the inode of the parent and the final element. -/
def namex (cwd : Slot) (path : List UInt8) (nameiparent : Bool) :
    FsM (Option (Slot × List UInt8)) := do
  let ip ← namexStart cwd path
  namexFrom nameiparent (path.length + 1) ip path []

def namei (cwd : Slot) (path : List UInt8) : FsM (Option Slot) := do
  return (← namex cwd path false).map Prod.fst

def nameiparent (cwd : Slot) (path : List UInt8) : FsM (Option (Slot × List UInt8)) :=
  namex cwd path true

/-! ## System calls on names (`kernel/sysfile.c`), after their arguments are fetched -/

/-- The names `"."` and `".."`. -/
@[simp] abbrev dot : List UInt8 := [46]
@[simp] abbrev dotdot : List UInt8 := [46, 46]

/-- `ip->nlink += k` with the wrap-around of a `short`. -/
def addLink (ip : Slot) (k : Int) : FsM Unit := do
  modInode ip fun i => { i with nlink := short (i.nlink + k) }
  iupdate ip

/-- The error exit of `sysLink`. -/
def linkBad (ip : Slot) : FsM Int := do
  ilock ip
  addLink ip (-1)
  iunlockput ip
  return -1

/-- Create the path `new` as a link to the same inode as `old`. -/
def sysLink (cwd : Slot) (old new : List UInt8) : FsM Int := do
  match ← namei cwd old with
  | none => return -1
  | some ip =>
    ilock ip
    let i ← inode ip
    if i.type = T_DIR then
      iunlockput ip
      return -1
    else
      addLink ip 1
      iunlock ip
      match ← nameiparent cwd new with
      | none => linkBad ip
      | some (dp, name) =>
        ilock dp
        let d ← inode dp
        let r ← if d.dev ≠ i.dev then pure (-1) else dirlink dp name i.inum
        if r < 0 then
          iunlockput dp
          linkBad ip
        else
          iunlockput dp
          iput ip
          return 0

/-- The loop of `isdirempty`. -/
def isdiremptyFrom (dp : Slot) : Nat → Nat → FsM Bool
  | 0, _ => return true
  | fuel + 1, off => do
    let i ← inode dp
    if off < i.size then
      let (r, bytes) ← readi dp .kernel off 16
      if r ≠ 16 then panic "isdirempty: readi"
      else if direntInum (localBytes bytes) 0 ≠ 0 then return false
      else isdiremptyFrom dp fuel (off + 16)
    else return true

/-- Is the directory `dp` empty except for "." and ".." ? -/
def isdirempty (dp : Slot) : FsM Bool := do
  let i ← inode dp
  isdiremptyFrom dp ((i.size + 15) / 16) 32

/-- Remove the directory entry `path`. -/
def sysUnlink (cwd : Slot) (path : List UInt8) : FsM Int := do
  match ← nameiparent cwd path with
  | none => return -1
  | some (dp, name) =>
    ilock dp
    -- cannot unlink "." or ".."
    if namecmp name dot = 0 ∨ namecmp name dotdot = 0 then
      iunlockput dp
      return -1
    else
      match ← dirlookup dp name with
      | none =>
        iunlockput dp
        return -1
      | some (ip, off) =>
        ilock ip
        let i ← inode ip
        if i.nlink < 1 then panic "unlink: nlink < 1"
        else
          let empty ← if i.type = T_DIR then isdirempty ip else pure true
          if empty = false then
            iunlockput ip
            iunlockput dp
            return -1
          else
            let r ← writei dp (.kernel fun _ => 0) off 16
            if r ≠ 16 then panic "unlink: writei"
            else
              if i.type = T_DIR then addLink dp (-1) else pure ()
              iunlockput dp
              addLink ip (-1)
              iunlockput ip
              return 0

/-- Create a file, directory or device; returns it locked. -/
def create (cwd : Slot) (path : List UInt8) (type major minor : Int) : FsM (Option Slot) := do
  match ← nameiparent cwd path with
  | none => return none
  | some (dp, name) =>
    ilock dp
    match ← dirlookup dp name with
    | some (ip, _) =>
      iunlockput dp
      ilock ip
      let i ← inode ip
      if type = T_FILE ∧ i.type = T_FILE then return some ip
      else
        iunlockput ip
        return none
    | none =>
      let d ← inode dp
      let ip ← ialloc d.dev type
      ilock ip
      modInode ip fun i => { i with major := short major, minor := short minor, nlink := 1 }
      iupdate ip
      let i ← inode ip
      if type = T_DIR then
        addLink dp 1
        if (← dirlink ip dot i.inum) < 0 then panic "create dots"
        else if (← dirlink ip dotdot d.inum) < 0 then panic "create dots"
        else pure ()
      else pure ()
      if (← dirlink dp name i.inum) < 0 then panic "create: dirlink"
      else
        iunlockput dp
        return some ip

end Xv6
