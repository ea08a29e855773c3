import Xv6.Fs.Block

/-!
# `Fs.Inode` — inodes and their contents (`kernel/fs.c`, "Inodes" and "Inode contents")

The inode cache keeps a copy of each referenced inode; `iupdate` writes the copy back and `ilock` loads it,
both without the `tags` field. A cache slot is given away as soon as its `ref` is 0, and `iget` does not
touch the fields of the previous occupant.
-/

namespace Xv6

open Bytes Hoare

/-! ## The inode cache -/

/-- Copy inode, which has changed, from memory to disk. -/
def iupdate (ip : Slot) : FsM Unit := do
  let i ← inode ip
  let bp ← bread i.dev (IBLOCK i.inum)
  bwrite i.dev (IBLOCK i.inum) (putMeta bp (inodeOff i.inum) i.toMeta)

/-- The slot that caches `(dev, inum)`, if any. -/
def Fs.cached (s : Fs) (dev inum : Nat) : Option Slot :=
  (List.finRange NINODE).find? fun ip =>
    0 < (s.icache ip).ref ∧ (s.icache ip).dev = dev ∧ (s.icache ip).inum = inum

/-- The first empty slot. -/
def Fs.emptySlot (s : Fs) : Option Slot :=
  (List.finRange NINODE).find? fun ip => (s.icache ip).ref = 0

/-- Find the inode with number `inum` on device `dev` and return the in-memory copy. -/
def iget (dev inum : Nat) : FsM Slot := do
  let s ← get
  match s.cached dev inum with
  | some ip =>
    modInode ip fun i => { i with ref := i.ref + 1 }
    return ip
  | none =>
    match s.emptySlot with
    | some ip =>
      modInode ip fun i => { i with dev, inum, ref := 1, busy := false, valid := false }
      return ip
    | none => panic "iget: no inodes"

/-- The loop of `ialloc` over the inode numbers still to try. -/
def iallocFrom (dev : Nat) (type : Int) : List Nat → FsM Slot
  | [] => panic "ialloc: no inodes"
  | inum :: rest => do
    let bp ← bread dev (IBLOCK inum)
    if (getDinode bp (inodeOff inum)).type = 0 then
      bwrite dev (IBLOCK inum) (putI16 (fill bp (inodeOff inum) 64 0) (inodeOff inum) type)
      iget dev inum
    else
      iallocFrom dev type rest

/-- Allocate a new inode with the given type on device `dev`. -/
def ialloc (dev : Nat) (type : Int) : FsM Slot := do
  let sb ← readsb dev
  iallocFrom dev type (List.range' 1 (sb.ninodes - 1))

/-- Increment reference count for `ip`. -/
def idup (ip : Slot) : FsM Slot := do
  modInode ip fun i => { i with ref := i.ref + 1 }
  return ip

/-- Lock the given inode, loading it if it is not yet valid. -/
def ilock (ip : Slot) : FsM Unit := do
  let i ← inode ip
  if i.ref < 1 then panic "ilock"
  else if i.busy then throw .sleep
  else
    modInode ip fun i => { i with busy := true }
    if i.valid then pure ()
    else
      let bp ← bread i.dev (IBLOCK i.inum)
      let dip := getDinode bp (inodeOff i.inum)
      modInode ip fun i => { i with toMeta := dip.toMeta, valid := true }
      if dip.type = 0 then panic "ilock: no type" else pure ()

/-- Unlock the given inode. -/
def iunlock (ip : Slot) : FsM Unit := do
  let i ← inode ip
  if i.busy = false ∨ i.ref < 1 then panic "iunlock"
  else modInode ip fun i => { i with busy := false }

/-- Locking a loaded inode only sets `I_BUSY`. -/
theorem wp_ilock_valid {s : Fs} {ip : Slot} {Q : Unit → Fs → Prop} {E : Stop → Fs → Prop}
    (href : 1 ≤ (s.icache ip).ref) (hbusy : (s.icache ip).busy = false)
    (hvalid : (s.icache ip).valid = true) :
    wp (ilock ip) Q E s ↔ Q () (s.setInode ip { s.icache ip with busy := true }) := by
  have hfree : ¬((s.icache ip).busy = true) := by rw [hbusy]; exact Bool.false_ne_true
  simp only [ilock, wp_bind, wp_inode]
  rw [if_neg (Int.not_lt.mpr href), if_neg hfree, wp_bind, wp_modInode, if_pos hvalid, wp_pure]

/-- Unlocking a locked inode only clears `I_BUSY`. -/
theorem wp_iunlock_busy {s : Fs} {ip : Slot} {Q : Unit → Fs → Prop} {E : Stop → Fs → Prop}
    (href : 1 ≤ (s.icache ip).ref) (hbusy : (s.icache ip).busy = true) :
    wp (iunlock ip) Q E s ↔ Q () (s.setInode ip { s.icache ip with busy := false }) := by
  simp [iunlock, href, hbusy]

/-! ## Block addresses -/

/-- `ip->addrs[k] = addr`. -/
def setAddr (ip : Slot) (k addr : Nat) : FsM Unit :=
  modInode ip fun i => { i with addrs := Function.update i.addrs k addr }

/-- `ip->addrs[k]`, allocating a block for it if there is none. -/
def addrAlloc (ip : Slot) (k : Nat) : FsM Nat := do
  let i ← inode ip
  if i.addrs k = 0 then
    let addr ← balloc i.dev
    setAddr ip k addr
    return addr
  else
    return i.addrs k

/-- Return the disk block address of the nth block in inode `ip`, allocating one if there is none. -/
def bmap (ip : Slot) (bn : Nat) : FsM Nat := do
  if bn < NDIRECT then
    addrAlloc ip bn
  else if bn - NDIRECT < NINDIRECT then
    let ind ← addrAlloc ip NDIRECT
    let i ← inode ip
    let bp ← bread i.dev ind
    let addr := u32 bp (4 * (bn - NDIRECT))
    if addr = 0 then
      let addr ← balloc i.dev
      bwrite i.dev ind (put32 bp (4 * (bn - NDIRECT)) addr)
      return addr
    else
      return addr
  else
    panic "bmap: out of range"

/-- One iteration of the direct loop of `itrunc`. -/
def truncDirect (ip : Slot) (k : Nat) : FsM Unit := do
  let i ← inode ip
  if i.addrs k ≠ 0 then
    bfree i.dev (i.addrs k)
    setAddr ip k 0
  else
    pure ()

/-- One iteration of the indirect loop of `itrunc`, over the held indirect block `bp`. -/
def truncIndirect (dev : Nat) (bp : Arr) (j : Nat) : FsM Unit := do
  if u32 bp (4 * j) ≠ 0 then bfree dev (u32 bp (4 * j)) else pure ()

/-- Truncate inode (discard contents). -/
def itrunc (ip : Slot) : FsM Unit := do
  (List.range NDIRECT).forM (truncDirect ip)
  let i ← inode ip
  if i.addrs NDIRECT ≠ 0 then
    let bp ← bread i.dev (i.addrs NDIRECT)
    (List.range NINDIRECT).forM (truncIndirect i.dev bp)
    bfree i.dev (i.addrs NDIRECT)
    setAddr ip NDIRECT 0
  else
    pure ()
  modInode ip fun i => { i with size := 0 }
  iupdate ip

/-- Caller holds reference to unlocked `ip`.  Drop reference. -/
def iput (ip : Slot) : FsM Unit := do
  let i ← inode ip
  if i.ref = 1 ∧ i.valid = true ∧ i.nlink = 0 then
    -- inode is no longer used: truncate and free inode
    if i.busy then panic "iput busy"
    else
      modInode ip fun i => { i with busy := true }
      itrunc ip
      modInode ip fun i => { i with type := 0 }
      iupdate ip
      modInode ip fun i => { i with busy := false, valid := false }
  else
    pure ()
  modInode ip fun i => { i with ref := i.ref - 1 }

/-- Common idiom: unlock, then put. -/
def iunlockput (ip : Slot) : FsM Unit := do
  iunlock ip
  iput ip

/-! ## The console device (`kernel/console.c`), the only entry of `devsw` -/

/-- The loop of `consoleread`: `some n` bytes still missing when it ends, `none` when killed, and the
    bytes copied to `dst`. -/
def consolereadLoop (dst : Dst) (target : Nat) : Nat → FsM (Option Nat × List UInt8)
  | 0 => return (some 0, [])
  | n + 1 => do
    let s ← get
    match s.tty 0 with
    | none => return (none, [])
    | some c =>
      if c = 4 then
        -- ^D is kept for the next call unless it comes first
        if n + 1 < target then return (some (n + 1), [])
        else
          set { s with tty := fun k => s.tty (k + 1) }
          return (some (n + 1), [])
      else
        set { s with tty := fun k => s.tty (k + 1) }
        copyOut dst (target - (n + 1)) 1 fun _ => c
        if c = 10 then return (some n, [c])
        else
          let (left, bytes) ← consolereadLoop dst target n
          return (left, c :: bytes)

/-- Read from the console: the value returned, and the bytes copied to `dst`. -/
def consoleread (ip : Slot) (dst : Dst) (n : Int) : FsM (Int × List UInt8) := do
  iunlock ip
  let (left, bytes) ← consolereadLoop dst n.toNat n.toNat
  ilock ip
  match left with
  | none => return (-1, bytes)
  | some k => return (n.toNat - k, bytes)

/-- Write to the console. -/
def consolewrite (ip : Slot) (src : Src) (n : Int) : FsM Int := do
  iunlock ip
  let _ ← copyIn src 0 n.toNat
  ilock ip
  return n

/-! ## Reading and writing -/

/-- The value of a `uint` converted to `int`. -/
def toInt (n : Nat) : Int := (n + 2147483648 : Int) % 4294967296 - 2147483648

/-- The loop of `readi`: `left` bytes from `off`, of which `tot` are done. -/
def readiLoop (ip : Slot) (dst : Dst) : Nat → Nat → Nat → Nat → FsM (List UInt8)
  | 0, _, _, _ => return []
  | fuel + 1, tot, off, left => do
    if left = 0 then return []
    else
      let addr ← bmap ip (off / BSIZE)
      let i ← inode ip
      let bp ← bread i.dev addr
      let m := min left (BSIZE - off % BSIZE)
      copyOut dst tot m fun k => bp (off % BSIZE + k)
      let rest ← readiLoop ip dst fuel (tot + m) (off + m) (left - m)
      return (List.range m).map (fun k => bp (off % BSIZE + k)) ++ rest

/-- Read data from inode: the value returned, and the bytes copied to `dst`. -/
def readi (ip : Slot) (dst : Dst) (off n : Nat) : FsM (Int × List UInt8) := do
  let i ← inode ip
  if i.type = T_DEV then
    if i.major < 0 ∨ NDEV ≤ i.major ∨ i.major ≠ CONSOLE then return (-1, [])
    else consoleread ip dst (toInt n)
  else if i.size < off ∨ (off + n) % 4294967296 < off then return (-1, [])
  else
    let n := if i.size < off + n then i.size - off else n
    let bytes ← readiLoop ip dst n 0 off n
    return (n, bytes)

/-- The loop of `writei`; returns the final `off`. -/
def writeiLoop (ip : Slot) (src : Src) : Nat → Nat → Nat → Nat → FsM Nat
  | 0, _, off, _ => return off
  | fuel + 1, tot, off, left => do
    if left = 0 then return off
    else
      let addr ← bmap ip (off / BSIZE)
      let i ← inode ip
      let bp ← bread i.dev addr
      let m := min left (BSIZE - off % BSIZE)
      let d ← copyIn src tot m
      bwrite i.dev addr (blit bp (off % BSIZE) m d)
      writeiLoop ip src fuel (tot + m) (off + m) (left - m)

/-- Write data to inode. -/
def writei (ip : Slot) (src : Src) (off n : Nat) : FsM Int := do
  let i ← inode ip
  if i.type = T_DEV then
    if i.major < 0 ∨ NDEV ≤ i.major ∨ i.major ≠ CONSOLE then return -1
    else consolewrite ip src (toInt n)
  else if i.size < off ∨ (off + n) % 4294967296 < off then return -1
  else
    let n := if MAXFILE * BSIZE < off + n then (MAXFILE * BSIZE + 4294967296 - off) % 4294967296 else n
    let off ← writeiLoop ip src n 0 off n
    let i ← inode ip
    if 0 < n ∧ i.size < off then
      modInode ip fun i => { i with size := off }
      iupdate ip
    else
      pure ()
    return n

end Xv6
