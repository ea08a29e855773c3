import Xv6.Sys.File

/-!
# `Sys.Tag` — file tags (`kernel/fs.c`, `searchKey` to `getFilesByTag`)

A file's tags live in one block of 16 slots of 32 bytes: a NUL-terminated key in the first 10 bytes and a
value of 18 bytes padded with zeroes, the last 4 bytes unused. A slot whose first byte is 0 is free. The
number of the block is kept in the `tags` field of the cached inode.

Keys and values are passed as user addresses. Strings are read in place; copies to or from `value`,
`buffer`, `keys` and `results` go through the access log.
-/

namespace Xv6

open Bytes Hoare

/-- The loop of `strlen` from index `n`, over a 32-bit address space. -/
def strlenFrom (s : Arr) (n : Nat) : Nat :=
  if n < 4294967296 ∧ s n ≠ 0 then strlenFrom s (n + 1) else n
termination_by 4294967296 - n

/-- Length of a NUL-terminated string. -/
def strlen (s : Arr) : Nat := strlenFrom s 0

/-! ## Searching a tag block -/

/-- The inner loop of `searchKey` from index `j`, `fuel` steps below 10. -/
def keyAt (key str : Arr) (keyLength i : Nat) : Nat → Nat → Bool
  | 0, _ => false
  | fuel + 1, j =>
    if i + j < BSIZE ∧ key j = str (i + j) then
      if j = keyLength ∧ key j = 0 ∧ str (i + j) = 0 then true
      else keyAt key str keyLength i fuel (j + 1)
    else false

/-- Byte offsets of the slots, in the order both searches visit them. -/
def slots : List Nat := (List.range 16).map (32 * ·)

/-- Search for the given key in a tag block; the offset of its slot, or -1. -/
def searchKey (key str : Arr) : Int :=
  match slots.find? fun i => keyAt key str (strlen key) i 10 0 with
  | some i => i
  | none => -1

/-- Search for the first free slot of a tag block; its offset, or -1. -/
def searchEnd (str : Arr) : Int :=
  match slots.find? fun i => str i = 0 with
  | some i => i
  | none => -1

/-! ## Tagging -/

/-- The tag block with a new slot at `o`. -/
def newSlot (str : Arr) (o : Nat) (key : Arr) (keyLength : Nat) (value : Arr) (n : Nat) : Arr :=
  blit (blit (fill str o 28 0) o keyLength key) (o + 10) n value

/-- The tag block with the value of the slot at `o` replaced. -/
def newValue (str : Arr) (o : Nat) (value : Arr) (n : Nat) : Arr :=
  blit (fill str (o + 10) 18 0) (o + 10) n value

/-- A file open on an inode, as the tag calls check it. -/
def tagInode (x : File) (mode : Bool) : Option Slot :=
  if x.type = .FD_INODE ∧ mode then x.ip else none

/-- The string at a user address. -/
def userStr (a : Nat) : FsM Arr := do
  let s ← get
  return fun j => s.mem (a + j)

/-- `ip->tags`, allocating a block for it if there is none. -/
def tagBlock (ip : Slot) : FsM Nat := do
  let i ← inode ip
  if i.tags = 0 then
    let b ← balloc i.dev
    modInode ip fun i => { i with tags := b }
    return b
  else
    return i.tags

/-- The part of `tagFile` after its argument checks. -/
def tagFileLocked (ip : Slot) (key value n : Nat) : FsM Int := do
  ilock ip
  let tags ← tagBlock ip
  let i ← inode ip
  let str ← bread i.dev tags
  let k ← userStr key
  let keyPosition := searchKey k str
  let endPosition := searchEnd str
  if keyPosition < 0 then
    if endPosition < 0 then
      -- no more space to put tags
      iunlock ip
      return -1
    else
      let v ← loadUser value n
      bwrite i.dev tags (newSlot str endPosition.toNat k (strlen k) v n)
      iunlock ip
      return 1
  else
    let v ← loadUser value n
    bwrite i.dev tags (newValue str keyPosition.toNat v n)
    iunlock ip
    return 1

def tagFile (p : Pid) (fd : Int) (key value : Nat) (valueLength : Int) : KM Int := do
  match fdFile (← proc p) fd with
  | none => return -1
  | some (_, f) =>
    let x ← file f
    match tagInode x x.writable with
    | none => return -1
    | some ip =>
      let k ← onFs (userStr key)
      if key = 0 ∨ strlen k < 1 ∨ 9 < strlen k then return -1
      else if value = 0 ∨ valueLength < 0 ∨ 18 < valueLength then return -1
      else onFs (tagFileLocked ip key value valueLength.toNat)

/-- The part of `removeFileTag` after its argument checks. -/
def removeFileTagLocked (ip : Slot) (key : Nat) : FsM Int := do
  ilock ip
  let i ← inode ip
  let str ← bread i.dev i.tags
  let k ← userStr key
  let keyPosition := searchKey k str
  if keyPosition < 0 then
    iunlock ip
    return -1
  else
    bwrite i.dev i.tags (fill str keyPosition.toNat 28 0)
    iunlock ip
    return 1

def removeFileTag (p : Pid) (fd : Int) (key : Nat) : KM Int := do
  match fdFile (← proc p) fd with
  | none => return -1
  | some (_, f) =>
    let x ← file f
    match tagInode x x.writable with
    | none => return -1
    | some ip =>
      let i ← onFs (inode ip)
      let k ← onFs (userStr key)
      if i.tags = 0 then return -1
      else if key = 0 ∨ strlen k < 1 ∨ 9 < strlen k then return -1
      else onFs (removeFileTagLocked ip key)

/-! ## Reading tags -/

/-- The length loop of `getFileTag` from index `i`, `fuel` steps below 18. -/
def tagLength (v : Arr) (length : Int) : Nat → Nat → Nat
  | 0, i => i
  | fuel + 1, i => if (i : Int) < length ∨ v i ≠ 0 then tagLength v length fuel (i + 1) else i

/-- The part of `getFileTag` after its argument checks. -/
def getFileTagLocked (ip : Slot) (key buffer : Nat) (length : Int) : FsM Int := do
  ilock ip
  let i ← inode ip
  if i.tags = 0 then
    iunlock ip
    return -1
  else
    let str ← bread i.dev i.tags
    let k ← userStr key
    let keyPosition := searchKey k str
    if keyPosition < 0 then
      iunlock ip
      return -1
    else
      let v : Arr := fun j => str (keyPosition.toNat + 10 + j)
      let n := tagLength v length 18 0
      if length < n then
        iunlock ip
        return n
      else
        storeUser buffer n v
        iunlock ip
        return n

def getFileTag (p : Pid) (fd : Int) (key buffer : Nat) (length : Int) : KM Int := do
  match fdFile (← proc p) fd with
  | none => return -1
  | some (_, f) =>
    let x ← file f
    match tagInode x x.writable with
    | none => return -1
    | some ip =>
      let k ← onFs (userStr key)
      if key = 0 ∨ strlen k < 1 ∨ 9 < strlen k then return -1
      else onFs (getFileTagLocked ip key buffer length)

/-- The copy loop of `getAllTags` over the slots still to visit; `struct Key` is 10 bytes. -/
def copyKeys (str : Arr) (keys : Nat) (maxTag : Int) : List Nat → Nat → FsM Int
  | [], tagCount => return tagCount
  | i :: rest, tagCount =>
    if str i ≠ 0 then
      if maxTag ≤ tagCount then return -1
      else do
        let k : Arr := fun j => str (i + j)
        storeUser (keys + 10 * tagCount) (strlen k + 1) k
        copyKeys str keys maxTag rest (tagCount + 1)
    else copyKeys str keys maxTag rest tagCount

/-- The part of `getAllTags` after its argument checks. -/
def getAllTagsLocked (ip : Slot) (keys : Nat) (maxTag : Int) : FsM Int := do
  ilock ip
  let tags ← tagBlock ip
  let i ← inode ip
  let str ← bread i.dev tags
  iunlock ip
  copyKeys str keys maxTag slots 0

def getAllTags (p : Pid) (fd : Int) (keys : Nat) (maxTag : Int) : KM Int := do
  match fdFile (← proc p) fd with
  | none => return -1
  | some (_, f) =>
    let x ← file f
    match tagInode x x.readable with
    | none => return -1
    | some ip =>
      if keys = 0 then return -1
      else if maxTag < 0 then return -1
      else onFs (getAllTagsLocked ip keys maxTag)

/-! ## Finding files by tag -/

/-- `while (k >= 0 && !results[k]) k--; k++` from `k = n - 1`. -/
def resultsEnd (results : Nat) : Nat → FsM Nat
  | 0 => return 0
  | n + 1 => do
    let b ← loadUser (results + n) 1
    if b 0 ≠ 0 then return n + 1 else resultsEnd results n

/-- Stored length of a value: the index after its last non-zero byte, from `n`. -/
def valueLen (v : Arr) : Nat → Nat
  | 0 => 0
  | n + 1 => if v n ≠ 0 then n + 1 else valueLen v n

/-- Whether a tag block carries `key` with the value `value[0 .. valueLength]`. -/
def tagMatches (str key value : Arr) (valueLength : Int) : Bool :=
  let pos := searchKey key str
  let v : Arr := fun j => str (pos.toNat + 10 + j)
  0 ≤ pos ∧ (valueLen v 18 : Int) = valueLength ∧
    (List.range (valueLen v 18)).all fun j => v j = value j

/-- Append a file name to `results`; `false` when there is not enough room. -/
def appendName (results : Nat) (resultsLength : Int) (name : Arr) : FsM Bool := do
  let k ← resultsEnd results resultsLength.toNat
  let k := if k ≠ 0 then k + 1 else k
  let len := strlen name
  if (len : Int) ≤ resultsLength - k then
    storeUser (results + k) (len + 1) name
    storeUser (results + k + len) 1 fun _ => 0
    return true
  else
    return false

/-- One directory entry in the loop of `getFilesByTag`: `none` ends the call with -1. -/
def tagEntry (dev : Nat) (bp : Arr) (key value : Nat) (valueLength : Int) (results : Nat)
    (resultsLength : Int) (e count : Nat) : FsM (Option Nat) := do
  if direntInum bp (16 * e) = 0 then return some count
  else
    let each ← iget dev (direntInum bp (16 * e))
    let i ← inode each
    if i.tags = 0 then return some count
    else
      let str ← bread dev i.tags
      let k ← userStr key
      let v ← userStr value
      if tagMatches str k v valueLength then
        if ← appendName results resultsLength fun j => bp (16 * e + 2 + j) then
          return some (count + 1)
        else return none
      else return some count

/-- The entries of one directory block still to visit. -/
def tagEntries (dev : Nat) (bp : Arr) (key value : Nat) (valueLength : Int) (results : Nat)
    (resultsLength : Int) : List Nat → Nat → FsM (Option Nat)
  | [], count => return some count
  | e :: rest, count => do
    match ← tagEntry dev bp key value valueLength results resultsLength e count with
    | none => return none
    | some count => tagEntries dev bp key value valueLength results resultsLength rest count

/-- The outer loop of `getFilesByTag`, with the blocks of the root directory still to scan. -/
def tagBlocks (root : Slot) (key value : Nat) (valueLength : Int) (results : Nat)
    (resultsLength : Int) : Nat → Nat → Nat → FsM Int
  | 0, _, count => return count
  | k + 1, off, count => do
    let addr ← bmap root (off / BSIZE)
    let i ← inode root
    let bp ← bread i.dev addr
    match ← tagEntries i.dev bp key value valueLength results resultsLength (List.range 32) count with
    | none => return -1
    | some count =>
      tagBlocks root key value valueLength results resultsLength k (off + BSIZE) count

def getFilesByTag (key value : Nat) (valueLength : Int) (results : Nat) (resultsLength : Int) :
    FsM Int := do
  let root ← iget ROOTDEV ROOTINO
  let i ← inode root
  tagBlocks root key value valueLength results resultsLength ((i.size + BSIZE - 1) / BSIZE) 0 0

end Xv6
