import Xv6.Fs.Dir

/-!
# `Tools.Mkfs` — the image builder (`tools/mkfs.c`)

`mkfs` runs on the host. It truncates the image file, writes its sectors, and then copies a directory of the host
into it: inodes and blocks are handed out in order, and the bitmap is written last. The host's directory is what
`readdir_r`, `open`, `fstat` and `read` return, one after the other. Integers are stored in Intel byte order on
either side (`xshort`, `xint`), which is the order of the fields in `Fs.Layout`.
-/

namespace Xv6.Mkfs

open Bytes Hoare

/-! ## The host -/

/-- What the stream of a host directory delivers. `fail` stands for a `readdir_r`, `open`, `fstat` or `fchdir`
    that fails, `closed` for a subdirectory whose `fdopendir` returns `NULL`. A name is the array `d_name`, with the
    string up to its first NUL; the `reads` of a file are the bytes its successive `read`s return, up to the first
    that returns none. -/
inductive Listing where
  | done
  | fail
  | file (name : List UInt8) (reads : List (List UInt8)) (rest : Listing)
  | dir (name : List UInt8) (sub rest : Listing)
  | closed (name : List UInt8) (rest : Listing)
  deriving DecidableEq

/-! ## State -/

/-- How the program ends before its last line: `exit(status)`, or a failed `assert`. -/
inductive MkStop where
  | exit (status : Nat)
  | abort
  deriving DecidableEq

/-- The image file, of `sectors` sectors, and the counters. `written` is history: the sectors that `winode`
    wrote, latest first. -/
structure Mk where
  disk : Nat → Arr
  sectors : Nat
  freeblock : Nat
  usedblocks : Nat
  freeinode : Nat
  written : List Nat

abbrev MkM := Prog Mk MkStop

/-- After `open(argv[1], O_RDWR|O_CREAT|O_TRUNC)`. -/
def Mk.init : Mk where
  disk _ _ := 0
  sectors := 0
  freeblock := 0
  usedblocks := 0
  freeinode := 1
  written := []

/-- `assert(c)`. -/
def require (c : Prop) [Decidable c] : MkM Unit := if c then pure () else throw .abort

/-! ## Sectors -/

/-- A `read` past the end of the image file returns too few bytes. -/
def rsect (sec : Nat) : MkM Arr := do
  let s ← get
  if sec < s.sectors then return s.disk sec else throw (.exit 1)

/-- A `write` past the end makes the image file longer. -/
def wsect (sec : Nat) (buf : Arr) : MkM Unit :=
  modify fun s => { s with disk := Function.update s.disk sec buf, sectors := max s.sectors (sec + 1) }

/-- `freeblock++`, and the block is in use. -/
def takeBlock : MkM Nat := do
  let s ← get
  set { s with freeblock := s.freeblock + 1, usedblocks := s.usedblocks + 1 }
  return s.freeblock

/-! ## Inodes -/

def i2b (inum : Nat) : Nat := inum / IPB + 2

/-- `*dip = *ip`, all 64 bytes. -/
def putDinode (buf : Arr) (o : Nat) (din : Dinode) : Arr := put32 (putMeta buf o din.toMeta) (o + 60) din.tags

def winode (inum : Nat) (din : Dinode) : MkM Unit := do
  let buf ← rsect (i2b inum)
  wsect (i2b inum) (putDinode buf (inodeOff inum) din)
  modify fun s => { s with written := i2b inum :: s.written }

def rinode (inum : Nat) : MkM Dinode := do
  let buf ← rsect (i2b inum)
  return getDinode buf (inodeOff inum)

/-- A new inode: all zero but its type and one link. -/
def newDinode (type : Int) : Dinode where
  type := type
  major := 0
  minor := 0
  nlink := 1
  size := 0
  addrs _ := 0
  tags := 0

def ialloc (type : Int) : MkM Nat := do
  let s ← get
  set { s with freeinode := s.freeinode + 1 }
  winode s.freeinode (newDinode type)
  return s.freeinode

/-- `din.addrs[k]`, set to a new block if it is 0. -/
def addrFor (din : Dinode) (k : Nat) : MkM (Dinode × Nat) := do
  if din.addrs k = 0 then
    let b ← takeBlock
    return ({ din with addrs := Function.update din.addrs k b }, b)
  else
    return (din, din.addrs k)

/-- The block of `iappend`'s file that holds its block number `fbn`. -/
def blockFor (din : Dinode) (fbn : Nat) : MkM (Dinode × Nat) := do
  if fbn < NDIRECT then
    addrFor din fbn
  else
    let (din, ind) ← addrFor din NDIRECT
    let indirect ← rsect ind
    if u32 indirect (4 * (fbn - NDIRECT)) = 0 then
      let b ← takeBlock
      wsect ind (put32 indirect (4 * (fbn - NDIRECT)) b)
      return (din, b)
    else
      return (din, u32 indirect (4 * (fbn - NDIRECT)))

/-- The loop of `iappend`: the bytes `p` go to the file from `off` on. -/
def iappendLoop : Nat → Dinode → Nat → List UInt8 → MkM (Dinode × Nat)
  | 0, din, off, _ => return (din, off)
  | fuel + 1, din, off, p => do
    if p = [] then return (din, off)
    else
      let fbn := off / 512
      require (fbn < MAXFILE)
      let (din, x) ← blockFor din fbn
      let n1 := min p.length ((fbn + 1) * 512 - off)
      let buf ← rsect x
      wsect x (blit buf (off - fbn * 512) n1 (localBytes p))
      iappendLoop fuel din (off + n1) (p.drop n1)

def iappend (inum : Nat) (p : List UInt8) : MkM Unit := do
  let din ← rinode inum
  let (din, off) ← iappendLoop p.length din din.size p
  winode inum { din with size := off }

/-! ## The tree -/

/-- The 16 bytes of an entry. -/
def dirent (inum : Nat) (name : List UInt8) : List UInt8 := (List.range 16).map (direntBytes inum name)

/-- The entries `add_dir` starts with. -/
def addDots (curInode parentInode : Nat) : MkM Unit := do
  iappend curInode (dirent curInode dot)
  iappend curInode (dirent parentInode dotdot)

/-- Fix the size of a directory. -/
def fixSize (curInode : Nat) : MkM Unit := do
  let din ← rinode curInode
  winode curInode { din with size := (din.size / BSIZE + 1) * BSIZE }

/-- The string in an array. -/
def cstr (name : List UInt8) : List UInt8 := name.takeWhile (· ≠ 0)

/-- `strcmp(entry->d_name, ".") == 0 || strcmp(entry->d_name, "..") == 0`. -/
def Skipped (name : List UInt8) : Prop := cstr name = dot ∨ cstr name = dotdot

instance (name : List UInt8) : Decidable (Skipped name) := inferInstanceAs (Decidable (_ ∨ _))

/-- The loop of `add_dir`. Every caller passes a return value of -1 up to `main`, which then exits. -/
def addEntries (curInode : Nat) : Listing → MkM Unit
  | .done => pure ()
  | .fail => throw (.exit 1)
  | .file name reads rest => do
    if Skipped name then addEntries curInode rest
    else
      let childInode ← ialloc T_FILE
      reads.forM (iappend childInode)
      iappend curInode (dirent childInode (cstr name))
      addEntries curInode rest
  | .dir name sub rest => do
    if Skipped name then addEntries curInode rest
    else
      let childInode ← ialloc T_DIR
      -- `add_dir` on the subdirectory
      addDots childInode curInode
      addEntries childInode sub
      fixSize childInode
      iappend curInode (dirent childInode (cstr name))
      addEntries curInode rest
  | .closed name rest => do
    if Skipped name then addEntries curInode rest
    else
      let childInode ← ialloc T_DIR
      addDots childInode curInode
      iappend curInode (dirent childInode (cstr name))
      addEntries curInode rest

/-- `add_dir`; the directory is `none` when it could not be opened. -/
def addDir (curDir : Option Listing) (curInode parentInode : Nat) : MkM Unit := do
  addDots curInode parentInode
  match curDir with
  | none => pure ()
  | some entries =>
    addEntries curInode entries
    fixSize curInode

@[simp] abbrev nblocks : Nat := 995
@[simp] abbrev ninodes : Nat := 200
@[simp] abbrev size : Nat := 1024

/-- The bitmap with the first `used` bits set. -/
def bitmap (used : Nat) : Arr := (List.range used).foldl setBit fun _ => 0

def balloc (used : Nat) : MkM Unit := do
  require (used < 512 * 8)
  wsect (ninodes / IPB + 3) (bitmap used)

/-- The sectors of an empty image. -/
@[irreducible] def mkfs (nblocks ninodes size : Nat) : MkM Unit := do
  let usedblocks := ninodes / IPB + 3 + (size / (512 * 8) + 1)
  modify fun s => { s with usedblocks := usedblocks, freeblock := usedblocks }
  require (nblocks + usedblocks = size)
  (List.range (nblocks + usedblocks)).forM fun i => wsect i fun _ => 0
  wsect 1 (put32 (put32 (put32 (fun _ => 0) 0 size) 4 nblocks) 8 ninodes)

/-- `main`, from the truncated image file to `exit(0)`. -/
@[irreducible] def main (rootDir : Option Listing) : MkM Unit := do
  mkfs nblocks ninodes size
  let rootInode ← ialloc T_DIR
  require (rootInode = ROOTINO)
  addDir rootDir rootInode rootInode
  balloc (← get).usedblocks

end Xv6.Mkfs
