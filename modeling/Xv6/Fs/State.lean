import Xv6.Lib.Hoare
import Xv6.Fs.Layout
import Mathlib.Data.List.FinRange

/-!
# `Fs.State` — the state the file system code runs on, and its primitive accesses

A system call runs here without interference from other processors, so spinlocks are left out and a
sector is read and written in place: `bread`/`bwrite` stand for the buffer cache and the IDE driver, whose
buffers are written through before they are released. The inode lock `I_BUSY` is kept, because taking it
twice in one call would sleep forever.

User memory is part of the state together with a log of the bytes the kernel touches through user
pointers while it copies data in or out.
-/

namespace Xv6

open Bytes Hoare

/-- Why a call did not return: `panic(msg)`, or a sleep that nothing in this call can end. -/
inductive Stop where
  | panic (msg : String)
  | sleep
  deriving DecidableEq

/-- In-core copy of an inode (`struct inode`); `busy` and `valid` are the flags `I_BUSY`, `I_VALID`. -/
structure Inode extends Meta where
  dev : Nat
  inum : Nat
  ref : Int
  busy : Bool
  valid : Bool
  tags : Nat

/-- A `struct inode *` into the inode cache. -/
abbrev Slot := Fin NINODE

instance neZeroNinode : NeZero NINODE := ⟨by decide⟩

/-- One byte of user memory touched by the kernel. -/
structure Access where
  write : Bool
  addr : Nat
  deriving DecidableEq

/-- The file system's state: sectors of each device, the inode cache, what the console will deliver next
    (`none`: the reader is killed while it waits), user memory and the log of its use. -/
structure Fs where
  disk : Nat → Nat → Arr
  icache : Slot → Inode
  tty : Nat → Option UInt8
  mem : Arr
  acc : List Access

/-- File system code. -/
abbrev FsM := Prog Fs Stop

/-- `panic(msg)`. -/
def panic {α : Type} (msg : String) : FsM α := throw (.panic msg)

/-! ## Sectors -/

/-- `bread`: the contents of a sector. -/
def bread (dev sector : Nat) : FsM Arr := do
  return (← get).disk dev sector

/-- Replace a sector. -/
def Fs.setSector (s : Fs) (dev sector : Nat) (b : Arr) : Fs :=
  { s with disk := Function.update s.disk dev (Function.update (s.disk dev) sector b) }

/-- `bwrite`, then `brelse`. -/
def bwrite (dev sector : Nat) (b : Arr) : FsM Unit :=
  modify fun s => s.setSector dev sector b

/-! ## Cached inodes -/

/-- `*ip`. -/
def inode (ip : Slot) : FsM Inode := do
  return (← get).icache ip

/-- Replace `*ip`. -/
def Fs.setInode (s : Fs) (ip : Slot) (i : Inode) : Fs :=
  { s with icache := Function.update s.icache ip i }

/-- Update fields of `*ip`. -/
def modInode (ip : Slot) (f : Inode → Inode) : FsM Unit :=
  modify fun s => s.setInode ip (f (s.icache ip))

/-! ## Copies to and from the caller's buffer -/

/-- Where `readi` copies to: a user address, or a variable of the kernel function that called it. -/
inductive Dst where
  | user (a : Nat)
  | kernel

/-- Where `writei` copies from. -/
inductive Src where
  | user (a : Nat)
  | kernel (d : Arr)

/-- The log entries of touching `n` bytes from `a`. -/
def touch (write : Bool) (a n : Nat) : List Access :=
  (List.range n).map fun i => ⟨write, a + i⟩

/-- Store `n` bytes at user address `a`. -/
def storeUser (a n : Nat) (src : Arr) : FsM Unit :=
  modify fun s => { s with mem := blit s.mem a n src, acc := s.acc ++ touch true a n }

/-- Load `n` bytes from user address `a`. -/
def loadUser (a n : Nat) : FsM Arr := do
  let s ← get
  set { s with acc := s.acc ++ touch false a n }
  return fun i => s.mem (a + i)

/-- `memmove(dst + tot, src, m)`. -/
def copyOut (dst : Dst) (tot m : Nat) (src : Arr) : FsM Unit :=
  match dst with
  | .user a => storeUser (a + tot) m src
  | .kernel => pure ()

/-- The bytes `src[tot .. tot+m]`. -/
def copyIn (src : Src) (tot m : Nat) : FsM Arr :=
  match src with
  | .user a => loadUser (a + tot) m
  | .kernel d => pure fun i => d (tot + i)

/-! ## Rules for the primitives -/

section Rules
variable {s : Fs} {E : Stop → Fs → Prop}

@[simp] theorem wp_panic {α : Type} {Q : α → Fs → Prop} {msg : String} :
    wp (panic msg : FsM α) Q E s ↔ E (.panic msg) s := Iff.rfl

@[simp] theorem wp_bread {Q : Arr → Fs → Prop} {dev sector : Nat} :
    wp (bread dev sector) Q E s ↔ Q (s.disk dev sector) s := Iff.rfl

@[simp] theorem wp_bwrite {Q : Unit → Fs → Prop} {dev sector : Nat} {b : Arr} :
    wp (bwrite dev sector b) Q E s ↔ Q () (s.setSector dev sector b) := Iff.rfl

@[simp] theorem wp_inode {Q : Inode → Fs → Prop} {ip : Slot} :
    wp (inode ip) Q E s ↔ Q (s.icache ip) s := Iff.rfl

@[simp] theorem wp_modInode {Q : Unit → Fs → Prop} {ip : Slot} {f : Inode → Inode} :
    wp (modInode ip f) Q E s ↔ Q () (s.setInode ip (f (s.icache ip))) := Iff.rfl

@[simp] theorem wp_storeUser {Q : Unit → Fs → Prop} {a n : Nat} {src : Arr} :
    wp (storeUser a n src) Q E s ↔
      Q () { s with mem := blit s.mem a n src, acc := s.acc ++ touch true a n } := Iff.rfl

@[simp] theorem wp_loadUser {Q : Arr → Fs → Prop} {a n : Nat} :
    wp (loadUser a n) Q E s ↔
      Q (fun i => s.mem (a + i)) { s with acc := s.acc ++ touch false a n } := Iff.rfl

end Rules

@[simp] theorem setSector_icache (s : Fs) (dev b : Nat) (d : Arr) :
    (s.setSector dev b d).icache = s.icache := rfl

@[simp] theorem setSector_disk (s : Fs) (dev b : Nat) (d : Arr) :
    (s.setSector dev b d).disk dev = Function.update (s.disk dev) b d := by
  simp [Fs.setSector]

@[simp] theorem setInode_disk (s : Fs) (ip : Slot) (i : Inode) :
    (s.setInode ip i).disk = s.disk := rfl

@[simp] theorem setInode_icache (s : Fs) (ip : Slot) (i : Inode) :
    (s.setInode ip i).icache = Function.update s.icache ip i := rfl

/-- Setting and clearing `I_BUSY` of an unlocked inode restores the cache. -/
theorem update_busy {c : Slot → Inode} {ip : Slot} (h : (c ip).busy = false) :
    Function.update (Function.update c ip { c ip with busy := true }) ip { c ip with busy := false } = c := by
  rw [Function.update_idem, ← h]
  exact Function.update_eq_self ip c

end Xv6
