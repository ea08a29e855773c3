import Xv6.Fs.Dir

/-!
# `Sys.File` — processes, open files and the calls on them (`kernel/file.c`, `pipe.c`, `sysfile.c`)

The kernel state adds to the file system the table of open files, the pipes and, for each process, its
descriptors, its current directory, the size of its memory and the user stack pointer at its system call.
A call made by process `p` runs alone; user memory is that of the process making the call.
-/

namespace Xv6

open Bytes Hoare

@[simp] abbrev NPROC : Nat := 64
@[simp] abbrev NOFILE : Nat := 16
@[simp] abbrev NFILE : Nat := 100
@[simp] abbrev PIPESIZE : Nat := 512

instance neZeroNproc : NeZero NPROC := ⟨by decide⟩

instance neZeroNofile : NeZero NOFILE := ⟨by decide⟩

instance neZeroNfile : NeZero NFILE := ⟨by decide⟩

@[simp] abbrev O_RDONLY : Nat := 0x000
@[simp] abbrev O_WRONLY : Nat := 0x001
@[simp] abbrev O_RDWR : Nat := 0x002
@[simp] abbrev O_CREATE : Nat := 0x200

inductive FileType where
  | FD_NONE
  | FD_PIPE
  | FD_INODE
  deriving DecidableEq

/-- `struct file`; `pipe` is the address of the pipe's page. -/
structure File where
  type : FileType
  ref : Int
  readable : Bool
  writable : Bool
  pipe : Nat
  ip : Option Slot
  off : Nat

/-- `struct pipe`. -/
structure Pipe where
  data : Arr
  nread : Nat
  nwrite : Nat
  readopen : Bool
  writeopen : Bool

/-- A `struct file *` into the file table. -/
abbrev FilePtr := Fin NFILE

/-- A file descriptor that passed the range check. -/
abbrev Fd := Fin NOFILE

/-- The fields of `struct proc` that these calls use, with two of its trap frame; the name is the string in the
    array. -/
structure Proc where
  sz : Nat
  esp : Nat
  eip : Nat
  killed : Bool
  ofile : Fd → Option FilePtr
  cwd : Option Slot
  name : List UInt8

/-- The string that `safestrcpy(s, t, n)` leaves in `s`. -/
def safestrcpy (t : List UInt8) (n : Nat) : List UInt8 := t.take (n - 1)

abbrev Pid := Fin NPROC

structure Kern where
  fs : Fs
  ftable : FilePtr → File
  pipes : Nat → Option Pipe
  procs : Pid → Proc

abbrev KM := Prog Kern Stop

/-- Run file system code. -/
def onFs {α : Type} (m : FsM α) : KM α := zoom Kern.fs (fun fs k => { k with fs }) m

/-! ## Accesses -/

def file (f : FilePtr) : KM File := do return (← get).ftable f

def Kern.setFile (k : Kern) (f : FilePtr) (x : File) : Kern :=
  { k with ftable := Function.update k.ftable f x }

def modFile (f : FilePtr) (g : File → File) : KM Unit := modify fun k => k.setFile f (g (k.ftable f))

def proc (p : Pid) : KM Proc := do return (← get).procs p

def Kern.setProc (k : Kern) (p : Pid) (x : Proc) : Kern :=
  { k with procs := Function.update k.procs p x }

def modProc (p : Pid) (g : Proc → Proc) : KM Unit := modify fun k => k.setProc p (g (k.procs p))

/-- `proc->cwd`; a running process has one. -/
def curdir (p : Pid) : KM Slot := do
  match (← proc p).cwd with
  | some ip => return ip
  | none => throw (.panic "trap")

/-! ## Pipes -/

/-- Close one end of the pipe at `a`; the page is freed when both are closed. -/
def pipeclose (a : Nat) (writable : Bool) : KM Unit := do
  match (← get).pipes a with
  | none => throw (.panic "trap")
  | some q =>
    let q := if writable then { q with writeopen := false } else { q with readopen := false }
    let q' := if q.readopen = false ∧ q.writeopen = false then none else some q
    modify fun k => { k with pipes := Function.update k.pipes a q' }

/-- The loop of `pipewrite` from byte `i`; a full pipe with a reader puts the writer to sleep. -/
def pipewriteFrom (p : Pid) (a addr : Nat) (n : Int) : Nat → Nat → KM Int
  | 0, _ => return n
  | left + 1, i => do
    match (← get).pipes a with
    | none => throw (.panic "trap")
    | some q =>
      if q.nwrite = (q.nread + PIPESIZE) % 4294967296 then
        if q.readopen = false ∨ (← proc p).killed then return -1 else throw .sleep
      else
        let d ← onFs (loadUser (addr + i) 1)
        let q' := { q with
          data := Function.update q.data (q.nwrite % PIPESIZE) (d 0)
          nwrite := (q.nwrite + 1) % 4294967296 }
        modify fun k => { k with pipes := Function.update k.pipes a (some q') }
        pipewriteFrom p a addr n left (i + 1)

def pipewrite (p : Pid) (a addr : Nat) (n : Int) : KM Int := pipewriteFrom p a addr n n.toNat 0

/-- The copy loop of `piperead` from byte `i`. -/
def pipereadFrom (a addr : Nat) : Nat → Nat → KM Int
  | 0, i => return i
  | left + 1, i => do
    match (← get).pipes a with
    | none => throw (.panic "trap")
    | some q =>
      if q.nread = q.nwrite then return i
      else
        onFs (storeUser (addr + i) 1 fun _ => q.data (q.nread % PIPESIZE))
        let q' := { q with nread := (q.nread + 1) % 4294967296 }
        modify fun k => { k with pipes := Function.update k.pipes a (some q') }
        pipereadFrom a addr left (i + 1)

/-- Read from a pipe; an empty pipe with a writer puts the reader to sleep. -/
def piperead (p : Pid) (a addr : Nat) (n : Int) : KM Int := do
  match (← get).pipes a with
  | none => throw (.panic "trap")
  | some q =>
    if q.nread = q.nwrite ∧ q.writeopen then
      if (← proc p).killed then return -1 else throw .sleep
    else pipereadFrom a addr n.toNat 0

/-! ## The file table -/

/-- Allocate a file structure. -/
def filealloc : KM (Option FilePtr) := do
  let k ← get
  match (List.finRange NFILE).find? fun f => (k.ftable f).ref = 0 with
  | some f =>
    modFile f fun x => { x with ref := 1 }
    return some f
  | none => return none

/-- Increment ref count for file `f`. -/
def filedup (f : FilePtr) : KM Unit := do
  if (← file f).ref < 1 then throw (.panic "filedup")
  else modFile f fun x => { x with ref := x.ref + 1 }

/-- `iput(ff.ip)`, `ilock(f->ip)`, …: use of a file's inode pointer. -/
def fileInode (x : File) : KM Slot :=
  match x.ip with
  | some ip => pure ip
  | none => throw (.panic "trap")

/-- Close file `f`.  (Decrement ref count, close when reaches 0.) -/
def fileclose (f : FilePtr) : KM Unit := do
  let ff ← file f
  if ff.ref < 1 then throw (.panic "fileclose")
  else if 0 < ff.ref - 1 then modFile f fun x => { x with ref := x.ref - 1 }
  else
    modFile f fun x => { x with ref := 0, type := .FD_NONE }
    match ff.type with
    | .FD_PIPE => pipeclose ff.pipe ff.writable
    | .FD_INODE => do
      let ip ← fileInode ff
      onFs (iput ip)
    | .FD_NONE => pure ()

/-- The value of an `int` converted to `uint`. -/
def toUint (n : Int) : Nat := (n % 4294967296).toNat

/-- Read from file `f`. -/
def fileread (p : Pid) (f : FilePtr) (addr : Nat) (n : Int) : KM Int := do
  let x ← file f
  if x.readable = false then return -1
  else
    match x.type with
    | .FD_PIPE => piperead p x.pipe addr n
    | .FD_INODE => do
      let ip ← fileInode x
      onFs (ilock ip)
      let (r, _) ← onFs (readi ip (.user addr) x.off (toUint n))
      if 0 < r then modFile f fun x => { x with off := (x.off + r.toNat) % 4294967296 } else pure ()
      onFs (iunlock ip)
      return r
    | .FD_NONE => throw (.panic "fileread")

/-- Write to file `f`. -/
def filewrite (p : Pid) (f : FilePtr) (addr : Nat) (n : Int) : KM Int := do
  let x ← file f
  if x.writable = false then return -1
  else
    match x.type with
    | .FD_PIPE => pipewrite p x.pipe addr n
    | .FD_INODE => do
      let ip ← fileInode x
      onFs (ilock ip)
      let r ← onFs (writei ip (.user addr) x.off (toUint n))
      if 0 < r then modFile f fun x => { x with off := (x.off + r.toNat) % 4294967296 } else pure ()
      onFs (iunlock ip)
      return r
    | .FD_NONE => throw (.panic "filewrite")

/-! ## System calls (`kernel/sysfile.c`), after their arguments are fetched -/

/-- Allocate a file descriptor for the given file. -/
def fdalloc (p : Pid) (f : FilePtr) : KM (Option Fd) := do
  let k ← get
  match (List.finRange NOFILE).find? fun fd => (k.procs p).ofile fd = none with
  | some fd =>
    modProc p fun x => { x with ofile := Function.update x.ofile fd (some f) }
    return some fd
  | none => return none

/-- The descriptor check of `argfd`: `fd < 0 || fd >= NOFILE || (f=proc->ofile[fd]) == 0`. -/
def fdFile (x : Proc) (fd : Int) : Option (Fd × FilePtr) :=
  if h : 0 ≤ fd ∧ fd < NOFILE then
    (x.ofile ⟨fd.toNat, by simp only [NOFILE] at h ⊢; omega⟩).map fun f =>
      (⟨fd.toNat, by simp only [NOFILE] at h ⊢; omega⟩, f)
  else none

def sysDup (p : Pid) (fd : Int) : KM Int := do
  match fdFile (← proc p) fd with
  | none => return -1
  | some (_, f) =>
    match ← fdalloc p f with
    | none => return -1
    | some fd' =>
      filedup f
      return fd'.val

def sysClose (p : Pid) (fd : Int) : KM Int := do
  match fdFile (← proc p) fd with
  | none => return -1
  | some (d, f) =>
    modProc p fun x => { x with ofile := Function.update x.ofile d none }
    fileclose f
    return 0

/-- The two ways `sys_open` finds its inode; the inode is returned locked. -/
def openInode (cwd : Slot) (path : List UInt8) (omode : Nat) : FsM (Option Slot) := do
  if omode &&& O_CREATE ≠ 0 then create cwd path T_FILE 0 0
  else
    match ← namei cwd path with
    | none => return none
    | some ip =>
      ilock ip
      let i ← inode ip
      if i.type = T_DIR ∧ omode ≠ O_RDONLY then
        iunlockput ip
        return none
      else return some ip

def sysOpen (p : Pid) (path : List UInt8) (omode : Nat) : KM Int := do
  let cwd ← curdir p
  match ← onFs (openInode cwd path omode) with
  | none => return -1
  | some ip =>
    match ← filealloc with
    | none =>
      onFs (iunlockput ip)
      return -1
    | some f =>
      match ← fdalloc p f with
      | none =>
        fileclose f
        onFs (iunlockput ip)
        return -1
      | some fd =>
        onFs (iunlock ip)
        modFile f fun x => { x with
          type := .FD_INODE
          ip := some ip
          off := 0
          readable := omode &&& O_WRONLY = 0
          writable := omode &&& O_WRONLY ≠ 0 ∨ omode &&& O_RDWR ≠ 0 }
        return fd.val

def sysMkdir (p : Pid) (path : List UInt8) : KM Int := do
  let cwd ← curdir p
  match ← onFs (create cwd path T_DIR 0 0) with
  | none => return -1
  | some ip =>
    onFs (iunlockput ip)
    return 0

def sysMknod (p : Pid) (path : List UInt8) (major minor : Int) : KM Int := do
  let cwd ← curdir p
  match ← onFs (create cwd path T_DEV major minor) with
  | none => return -1
  | some ip =>
    onFs (iunlockput ip)
    return 0

def sysChdir (p : Pid) (path : List UInt8) : KM Int := do
  let cwd ← curdir p
  match ← onFs (namei cwd path) with
  | none => return -1
  | some ip =>
    onFs (ilock ip)
    let i ← onFs (inode ip)
    if i.type ≠ T_DIR then
      onFs (iunlockput ip)
      return -1
    else
      onFs (iunlock ip)
      onFs (iput cwd)
      modProc p fun x => { x with cwd := some ip }
      return 0

end Xv6
