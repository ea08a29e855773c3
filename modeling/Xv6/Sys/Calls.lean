import Xv6.Lib.Machine
import Xv6.Sys.Exec
import Xv6.Proc.Pipe
import Xv6.Proc.Table

/-!
# `Sys.Calls` — every call on files, and runs of them by all processes (`kernel/sysfile.c`, `pipe.c`, `proc.c`)

The calls on descriptors that `Sys.File` leaves out, the file side of `fork` and `exit`, and the machine that
runs calls one after another. What the rest of the kernel answers is part of the event: whether memory is left,
which page `kalloc` returns, what `exec` meets in memory. A page that `kalloc` returns is in no use.

A `read` or `write` that sleeps on a pipe leaves the state it reached; when the process is woken it tests the
same condition again, which is a new `read` or `write` of the bytes left. Any other call that does not return
ends the run.
-/

namespace Xv6

open Bytes Hoare Machine

/-! ## Pipes -/

/-- Two files for the ends of a new pipe in the page `page` that `kalloc` returns. -/
def pipealloc (page : Option Nat) : KM (Option (FilePtr × FilePtr)) := do
  match ← filealloc with
  | none => return none
  | some f0 =>
    match ← filealloc with
    | none =>
      fileclose f0
      return none
    | some f1 =>
      match page with
      | none =>
        fileclose f0
        fileclose f1
        return none
      | some a =>
        -- the page is filled with what `kfree` left in it
        modify fun k => { k with pipes := Function.update k.pipes a (some (newPipe fun _ => 1)) }
        modFile f0 fun x => { x with type := .FD_PIPE, readable := true, writable := false, pipe := a }
        modFile f1 fun x => { x with type := .FD_PIPE, readable := false, writable := true, pipe := a }
        return some (f0, f1)

/-- `sys_pipe` with the descriptors stored at user address `fd`. -/
def sysPipe (p : Pid) (fd : Nat) (page : Option Nat) : KM Int := do
  match ← pipealloc page with
  | none => return -1
  | some (rf, wf) =>
    match ← fdalloc p rf with
    | none =>
      fileclose rf
      fileclose wf
      return -1
    | some fd0 =>
      match ← fdalloc p wf with
      | none =>
        modProc p fun x => { x with ofile := Function.update x.ofile fd0 none }
        fileclose rf
        fileclose wf
        return -1
      | some fd1 =>
        onFs (storeUser fd 4 (byteOf fd0.val))
        onFs (storeUser (fd + 4) 4 (byteOf fd1.val))
        return 0

/-! ## Calls on a descriptor -/

def sysRead (p : Pid) (fd : Int) (addr : Nat) (n : Int) : KM Int := do
  match fdFile (← proc p) fd with
  | none => return -1
  | some (_, f) => fileread p f addr n

def sysWrite (p : Pid) (fd : Int) (addr : Nat) (n : Int) : KM Int := do
  match fdFile (← proc p) fd with
  | none => return -1
  | some (_, f) => filewrite p f addr n

/-- Copy stat information from inode to the `struct stat` at user address `st`. -/
def stati (ip : Slot) (st : Nat) : FsM Unit := do
  let i ← inode ip
  storeUser (st + 4) 4 (byteOf i.dev)
  storeUser (st + 8) 4 (byteOf i.inum)
  storeUser st 2 (byteOf (ushort i.type))
  storeUser (st + 12) 2 (byteOf (ushort i.nlink))
  storeUser (st + 16) 4 (byteOf i.size)

/-- Get metadata about file `f`. -/
def filestat (f : FilePtr) (st : Nat) : KM Int := do
  let x ← file f
  if x.type = .FD_INODE then
    let ip ← fileInode x
    onFs (ilock ip)
    onFs (stati ip st)
    onFs (iunlock ip)
    return 0
  else return -1

def sysFstat (p : Pid) (fd : Int) (st : Nat) : KM Int := do
  match fdFile (← proc p) fd with
  | none => return -1
  | some (_, f) => filestat f st

/-! ## Processes -/

/-- The part of `fork` after `allocproc` and `copyuvm` gave the child `np`. -/
def fork (p np : Pid) : KM Unit := do
  let x ← proc p
  modProc np fun y => { y with sz := x.sz, esp := x.esp, eip := x.eip }
  (List.finRange NOFILE).forM fun fd => do
    match x.ofile fd with
    | some f =>
      filedup f
      modProc np fun y => { y with ofile := Function.update y.ofile fd (some f) }
    | none => pure ()
  let cwd ← curdir p
  let ip ← onFs (idup cwd)
  modProc np fun y => { y with cwd := some ip }
  modProc np fun y => { y with name := safestrcpy x.name 16 }

/-- The part of `exit` before it takes `ptable.lock`. -/
def exit (p : Pid) : KM Unit := do
  if p = initproc then throw (.panic "init exiting")
  else
    (List.finRange NOFILE).forM fun fd => do
      match (← proc p).ofile fd with
      | some f =>
        fileclose f
        modProc p fun x => { x with ofile := Function.update x.ofile fd none }
      | none => pure ()
    let cwd ← curdir p
    onFs (iput cwd)
    modProc p fun x => { x with cwd := none }

/-- The part of `userinit` that gives the first process its directory. -/
def userinit : KM Unit := do
  -- the path starts at the root, so no current directory is used
  let ip ← onFs (namei 0 [slash])
  modProc initproc fun x => { x with cwd := ip }

/-! ## The machine -/

/-- A call that returns to its caller. `V` is the state of the memory that `exec` meets. -/
inductive Call (V : Type) where
  | open (path : List UInt8) (omode : Nat)
  | close (fd : Int)
  | dup (fd : Int)
  | pipe (fd : Nat) (page : Option Nat)
  | chdir (path : List UInt8)
  | exec (mem : Uvm V) (v : V) (stack : Arr) (path : List UInt8) (argv : List (List UInt8))
  | link (old new : List UInt8)
  | unlink (path : List UInt8)
  | mkdir (path : List UInt8)
  | mknod (path : List UInt8) (major minor : Int)
  | read (fd : Int) (addr : Nat) (n : Int)
  | write (fd : Int) (addr : Nat) (n : Int)
  | fstat (fd : Int) (st : Nat)

/-- A call that may sleep on a pipe. -/
def Call.Waits {V : Type} : Call V → Prop
  | .read .. => True
  | .write .. => True
  | _ => False

instance {V : Type} (c : Call V) : Decidable c.Waits := by cases c <;> unfold Call.Waits <;> infer_instance

/-- A page from `kalloc` is in no use. -/
def Call.Fresh {V : Type} (k : Kern) : Call V → Prop
  | .pipe _ (some a) => k.pipes a = none
  | _ => True

instance {V : Type} (k : Kern) (c : Call V) : Decidable (c.Fresh k) := by
  unfold Call.Fresh
  split <;> infer_instance

/-- The kernel code of a call by process `p`. -/
def Call.run {V : Type} (p : Pid) : Call V → KM Int
  | .open path omode => sysOpen p path omode
  | .close fd => sysClose p fd
  | .dup fd => sysDup p fd
  | .pipe fd page => sysPipe p fd page
  | .chdir path => sysChdir p path
  | .exec mem v stack path argv => ExceptT.mk fun k =>
    let r := Hoare.exec (sysExec mem stack p path argv) (k, v)
    (r.1, r.2.1)
  | .link old new => do
    let cwd ← curdir p
    onFs (sysLink cwd old new)
  | .unlink path => do
    let cwd ← curdir p
    onFs (sysUnlink cwd path)
  | .mkdir path => sysMkdir p path
  | .mknod path major minor => sysMknod p path major minor
  | .read fd addr n => sysRead p fd addr n
  | .write fd addr n => sysWrite p fd addr n
  | .fstat fd st => sysFstat p fd st

/-- The kernel and the states of the processes. -/
structure CallSys where
  kern : Kern
  state : Pid → ProcState

/-- A process that is neither free nor dead. -/
def CallSys.Live (s : CallSys) (p : Pid) : Prop := s.state p ≠ .UNUSED ∧ s.state p ≠ .ZOMBIE

instance (s : CallSys) (p : Pid) : Decidable (s.Live p) := by unfold CallSys.Live; infer_instance

inductive CallEvent (V : Type) where
  | call (p : Pid) (c : Call V)
  /-- `fork`: is there memory for the kernel stack and for the copy of the image? -/
  | fork (p : Pid) (memory : Bool)
  | exit (p : Pid)
  /-- `wait` of some process finds the zombie `q`. -/
  | wait (q : Pid)
  /-- User code runs, the console gets input, a process is killed. -/
  | outside (mem : Arr) (tty : Nat → Option UInt8) (killed : Pid → Bool)

/-- The slot that `allocproc` takes. -/
def CallSys.unused (s : CallSys) : Option Pid := (List.finRange NPROC).find? fun q => s.state q = .UNUSED

/-- The kernel code that an event runs, if it can happen. -/
def CallEvent.code {V : Type} (s : CallSys) : CallEvent V → Option (KM Unit)
  | .call p c => if s.Live p ∧ c.Fresh s.kern then some (do let _ ← c.run p) else none
  | .fork p memory =>
    if s.Live p then
      match s.unused, memory with
      | some np, true => some (Xv6.fork p np)
      | _, _ => some (pure ())
    else none
  | .exit p => if s.Live p then some (Xv6.exit p) else none
  | .wait q => if s.state q = .ZOMBIE then some (modProc q fun x => { x with killed := false }) else none
  | .outside mem tty killed => some (modify fun k => { k with
      fs := { k.fs with mem, tty }
      procs := fun p => { k.procs p with killed := killed p } })

/-- The process states after an event. -/
def CallEvent.states {V : Type} (s : CallSys) : CallEvent V → Pid → ProcState
  | .fork _ memory =>
    match s.unused, memory with
    | some np, true => Function.update s.state np .RUNNABLE
    | _, _ => s.state
  | .exit p => Function.update s.state p .ZOMBIE
  | .wait q => Function.update s.state q .UNUSED
  | _ => s.state

def CallEvent.Waits {V : Type} : CallEvent V → Prop
  | .call _ c => c.Waits
  | _ => False

instance {V : Type} (e : CallEvent V) : Decidable e.Waits := by cases e <;> unfold CallEvent.Waits <;> infer_instance

def callStep {V : Type} (s : CallSys) (e : CallEvent V) : Option CallSys := do
  let m ← e.code s
  match Hoare.exec m s.kern with
  | (.ok _, kern) => some ⟨kern, e.states s⟩
  | (.error .sleep, kern) => if e.Waits then some ⟨kern, s.state⟩ else none
  | (.error (.panic _), _) => none

/-! ## Booting -/

/-- A kernel whose tables are all zero, on a disk of any contents. -/
def Kern.zero (disk : Nat → Nat → Arr) (mem : Arr) (tty : Nat → Option UInt8) : Kern where
  fs := {
    disk, mem, tty
    icache := fun _ => {
      type := 0, major := 0, minor := 0, nlink := 0, size := 0, addrs := fun _ => 0
      dev := 0, inum := 0, ref := 0, busy := false, valid := false, tags := 0 }
    acc := [] }
  ftable := fun _ => ⟨.FD_NONE, 0, false, false, 0, none, 0⟩
  pipes := fun _ => none
  procs := fun _ => ⟨0, 0, 0, false, fun _ => none, none, []⟩

/-- The first process is about to run. -/
def CallSys.boot (disk : Nat → Nat → Arr) (mem : Arr) (tty : Nat → Option UInt8) : CallSys where
  kern := (Hoare.exec userinit (Kern.zero disk mem tty)).2
  state := Function.update (fun _ => .UNUSED) initproc .RUNNABLE

end Xv6
