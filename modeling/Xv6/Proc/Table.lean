import Xv6.Lib.Machine
import Xv6.Proc.Sleep
import Xv6.Sys.File
import Mathlib.Data.List.FinRange

/-!
# `Proc.Table` — the process table (`kernel/proc.c`)

`ptable.proc` and the CPUs that run it. A step is one section of code under `ptable.lock`, from `acquire` to
`release` or to the switch to a scheduler, or one step of code that runs without the lock: `fork` fills in the
child's slot and `exit` closes files while other CPUs are in their sections. The scheduler keeps the lock
across the context switch; the process it switches to releases it.

## Contents
- **The table.** `ProcSys`, with one function per field of `struct proc`; `Task`, what a process does outside
  the lock, and `Ctx`, where it goes on when it is switched to.
- **Sections.** `allocproc`, `wakeup1`, `kill`, `yield`, `sleep`, `waitScan`, `exitLast`.
- **The machine.** `procStep`.
-/

namespace Xv6

open Machine

/-! ## The table -/

/-- A slot of `ptable.proc`. -/
abbrev ProcSlot := Fin NPROC

/-- `initproc`: the first process takes the first slot. -/
def initproc : ProcSlot := ⟨0, by decide⟩

/-- A sleep channel: the address of a process, where only `wait` sleeps, or some other address. -/
inductive WaitChan where
  | proc (p : ProcSlot)
  | other (k : Nat)
  deriving DecidableEq

/-- Where a process goes on when it is switched to, with `ptable.lock` held. -/
inductive Ctx where
  /-- `forkret`. -/
  | forkret
  /-- In `yield`, after `sched`. -/
  | yield
  /-- In `sleep` on some other lock, after `sched`. -/
  | sleep
  /-- In the `sleep` of `wait`, after `sched`. -/
  | wait
  /-- In `exit`, after `sched`: `panic("zombie exit")`. -/
  | dead
  deriving DecidableEq

/-- What a process does while it does not hold `ptable.lock`. -/
inductive Task where
  | user
  /-- `fork`: `kalloc` of the child's kernel stack is next. -/
  | forkStack (np : ProcSlot)
  /-- `fork`: `copyuvm` is next. -/
  | forkCopy (np : ProcSlot)
  /-- `fork`: the descriptors, from `i` on. -/
  | forkFile (np : ProcSlot) (i : Nat)
  | forkCwd (np : ProcSlot)
  /-- `fork`: `np->state = RUNNABLE` is next. -/
  | forkReady (np : ProcSlot)
  /-- `exit`: the descriptors, from `i` on. -/
  | exitFile (i : Nat)
  | exitCwd
  /-- `exit`: `acquire(&ptable.lock)` is next. -/
  | exitLock
  deriving DecidableEq

/-- What the history of a run records. A process is known by its number among all processes ever allocated. -/
inductive ProcLog where
  | exited (k : Nat)
  /-- `wait` of process `parent` returned `pid` for process `k`. -/
  | reaped (k : Nat) (pid : UInt32) (parent : Nat)
  deriving DecidableEq

/-- `ptable`, `nextpid` and the CPUs. `cur c` is `cpu->proc`, `scan c` the loop variable of `scheduler`, and `lock`
    the CPU that holds `ptable.lock`.

    The rest is history: how many processes were allocated (`born`), the number of the one in a slot (`serial`), of
    the process that forked it (`creator`), whether it was the target of a `kill` or took a fatal trap since it
    was allocated (`hit`), and the exits and waits, latest first (`log`). -/
structure ProcSys (Cpu : Type) where
  state : ProcSlot → ProcState
  pid : ProcSlot → UInt32
  parent : ProcSlot → Option ProcSlot
  chan : ProcSlot → Option WaitChan
  killed : ProcSlot → Bool
  ofile : ProcSlot → Fd → Option Nat
  cwd : ProcSlot → Option Nat
  ctx : ProcSlot → Ctx
  task : ProcSlot → Task
  nextpid : UInt32
  cur : Cpu → Option ProcSlot
  scan : Cpu → Nat
  lock : Option Cpu
  born : Nat
  serial : ProcSlot → Nat
  creator : Nat → Nat
  hit : ProcSlot → Bool
  log : List ProcLog

/-- The first slot that satisfies a test, as the loops over `ptable.proc` find it. -/
def firstSlot (f : ProcSlot → Bool) : Option ProcSlot := (List.finRange NPROC).find? f

theorem firstSlot_some {f : ProcSlot → Bool} {p : ProcSlot} (h : firstSlot f = some p) : f p = true :=
  List.find?_some h

theorem firstSlot_none {f : ProcSlot → Bool} : firstSlot f = none ↔ ∀ p, f p = false := by
  simp [firstSlot]

/-! ## Sections -/

namespace ProcSys

variable {Cpu : Type} [DecidableEq Cpu]

/-- `allocproc` up to `release(&ptable.lock)`, called by process `p`; the new process's context is `forkret`. -/
def allocproc (s : ProcSys Cpu) (p : ProcSlot) : Option (ProcSlot × ProcSys Cpu) :=
  match firstSlot fun q => s.state q = .UNUSED with
  | none => none
  | some np => some (np,
    { s with
      state := Function.update s.state np .EMBRYO
      pid := Function.update s.pid np s.nextpid
      nextpid := s.nextpid + 1
      ctx := Function.update s.ctx np .forkret
      task := Function.update s.task np .user
      born := s.born + 1
      serial := Function.update s.serial np (s.born + 1)
      creator := Function.update s.creator (s.born + 1) (s.serial p)
      hit := Function.update s.hit np false })

/-- `wakeup1`. -/
def wakeup1 (s : ProcSys Cpu) (c : Option WaitChan) : ProcSys Cpu :=
  { s with state := fun p => if s.state p = .SLEEPING ∧ s.chan p = c then .RUNNABLE else s.state p }

/-- `kill`: what it returns and the table after it. -/
def kill (s : ProcSys Cpu) (pid : UInt32) : Int × ProcSys Cpu :=
  let s' := { s with hit := fun q => s.hit q || decide (s.state q ≠ .UNUSED ∧ s.pid q = pid) }
  match firstSlot fun p => s.pid p = pid with
  | none => (-1, s')
  | some p => (0,
    { s' with
      killed := Function.update s.killed p true
      state := Function.update s.state p (if s.state p = .SLEEPING then .RUNNABLE else s.state p) })

/-- `sched` on CPU `c`: back to the scheduler, which holds the lock and sets `proc = 0`. -/
def sched (s : ProcSys Cpu) (c : Cpu) : ProcSys Cpu :=
  { s with cur := Function.update s.cur c none, lock := some c }

/-- `yield` up to the switch. -/
def yield (s : ProcSys Cpu) (c : Cpu) (p : ProcSlot) : ProcSys Cpu :=
  { s with state := Function.update s.state p .RUNNABLE, ctx := Function.update s.ctx p .yield }.sched c

/-- `sleep` up to the switch. -/
def sleep (s : ProcSys Cpu) (c : Cpu) (p : ProcSlot) (chan : WaitChan) (ctx : Ctx) : ProcSys Cpu :=
  { s with
    chan := Function.update s.chan p (some chan)
    state := Function.update s.state p .SLEEPING
    ctx := Function.update s.ctx p ctx }.sched c

/-- The loop of `wait` with the lock held: take a zombie child away, give up, or sleep. -/
def waitScan (s : ProcSys Cpu) (c : Cpu) (p : ProcSlot) : ProcSys Cpu :=
  match firstSlot fun q => s.parent q = some p ∧ s.state q = .ZOMBIE with
  | some q =>
    { s with
      state := Function.update s.state q .UNUSED
      pid := Function.update s.pid q 0
      parent := Function.update s.parent q none
      killed := Function.update s.killed q false
      lock := none
      log := .reaped (s.serial q) (s.pid q) (s.serial p) :: s.log }
  | none =>
    if (∀ q, s.parent q ≠ some p) ∨ s.killed p = true then { s with lock := none }
    else s.sleep c p (.proc p) .wait

/-- One turn of the loop of `exit` that passes abandoned children to init. -/
def adopt (p : ProcSlot) (s : ProcSys Cpu) (q : ProcSlot) : ProcSys Cpu :=
  if s.parent q = some p then
    let s' := { s with parent := Function.update s.parent q (some initproc) }
    if s.state q = .ZOMBIE then s'.wakeup1 (some (.proc initproc)) else s'
  else s

/-- The locked part of `exit`. -/
def exitLast (s : ProcSys Cpu) (c : Cpu) (p : ProcSlot) : ProcSys Cpu :=
  let s := s.wakeup1 ((s.parent p).map .proc)
  let s := (List.finRange NPROC).foldl (adopt p) s
  { s with
    state := Function.update s.state p .ZOMBIE
    ctx := Function.update s.ctx p .dead
    task := Function.update s.task p .user
    log := .exited (s.serial p) :: s.log }.sched c

/-- The process that runs on CPU `c` without `ptable.lock`. -/
def running (s : ProcSys Cpu) (c : Cpu) : Option ProcSlot := if s.lock = some c then none else s.cur c

/-- The next step of `fork` by process `p` outside the lock; `ok` says whether memory can be had. -/
def forkNext (s : ProcSys Cpu) (p : ProcSlot) (ok : Bool) : Option (ProcSys Cpu) :=
  match s.task p with
  | .forkStack np =>
    if ok then some { s with task := Function.update s.task p (.forkCopy np) }
    else some { s with state := Function.update s.state np .UNUSED, task := Function.update s.task p .user }
  | .forkCopy np =>
    if ok then some
      { s with parent := Function.update s.parent np (some p), task := Function.update s.task p (.forkFile np 0) }
    else some { s with state := Function.update s.state np .UNUSED, task := Function.update s.task p .user }
  | .forkFile np i =>
    if i < NOFILE then some
      { s with
        ofile := fun q fd => if q = np ∧ fd.val = i ∧ s.ofile p fd ≠ none then s.ofile p fd else s.ofile q fd
        task := Function.update s.task p (.forkFile np (i + 1)) }
    else some { s with task := Function.update s.task p (.forkCwd np) }
  | .forkCwd np =>
    some { s with cwd := Function.update s.cwd np (s.cwd p), task := Function.update s.task p (.forkReady np) }
  | .forkReady np =>
    some { s with state := Function.update s.state np .RUNNABLE, task := Function.update s.task p .user }
  | _ => none

/-- The next step of `exit` by process `p` on CPU `c`. -/
def exitNext (s : ProcSys Cpu) (c : Cpu) (p : ProcSlot) : Option (ProcSys Cpu) :=
  match s.task p with
  | .exitFile i =>
    if i < NOFILE then some
      { s with
        ofile := fun q fd => if q = p ∧ fd.val = i then none else s.ofile q fd
        task := Function.update s.task p (.exitFile (i + 1)) }
    else some { s with task := Function.update s.task p .exitCwd }
  | .exitCwd => some { s with cwd := Function.update s.cwd p none, task := Function.update s.task p .exitLock }
  | .exitLock => if s.lock = none then some (s.exitLast c p) else none
  | _ => none

/-- A process goes on where it left off when it was switched out. -/
def resume (s : ProcSys Cpu) (c : Cpu) (p : ProcSlot) : Option (ProcSys Cpu) :=
  match s.ctx p with
  | .forkret | .yield => some { s with lock := none }
  | .sleep => some { s with chan := Function.update s.chan p none, lock := none }
  | .wait => some (waitScan { s with chan := Function.update s.chan p none } c p)
  | .dead => none

/-- One turn of the scheduler's loop over the table. -/
def schedScan (s : ProcSys Cpu) (c : Cpu) (p : ProcSlot) : ProcSys Cpu :=
  let s := { s with scan := Function.update s.scan c (s.scan c + 1) }
  if s.state p = .RUNNABLE then
    { s with cur := Function.update s.cur c (some p), state := Function.update s.state p .RUNNING }
  else s

end ProcSys

/-! ## The machine -/

/-- What happens next, and on which CPU. -/
inductive ProcEvent (Cpu : Type) where
  | schedAcquire (c : Cpu)
  | schedScan (c : Cpu)
  | schedRelease (c : Cpu)
  | resume (c : Cpu)
  | yield (c : Cpu)
  | sleep (c : Cpu) (k : Nat)
  | wakeup (k : Nat)
  | kill (c : Cpu) (pid : UInt32)
  | trap (c : Cpu)
  | setFile (c : Cpu) (fd : Fd) (f : Option Nat)
  | chdir (c : Cpu) (ip : Nat)
  | fork (c : Cpu)
  | forkNext (c : Cpu) (ok : Bool)
  | exit (c : Cpu)
  | exitNext (c : Cpu)
  | wait (c : Cpu)
  deriving DecidableEq

variable {Cpu : Type} [DecidableEq Cpu]

/-- One step of the machine. -/
def procStep (s : ProcSys Cpu) : ProcEvent Cpu → Option (ProcSys Cpu)
  -- the scheduler of CPU `c`
  | .schedAcquire c =>
    if s.cur c = none ∧ s.lock = none then some { s with lock := some c, scan := Function.update s.scan c 0 }
    else none
  | .schedScan c =>
    if h : s.scan c < NPROC then
      if s.cur c = none ∧ s.lock = some c then some (s.schedScan c ⟨s.scan c, h⟩) else none
    else none
  | .schedRelease c =>
    if s.cur c = none ∧ s.lock = some c ∧ s.scan c = NPROC then some { s with lock := none } else none
  -- the process it has just switched to
  | .resume c => if s.lock = some c then (s.cur c).bind (s.resume c) else none
  -- sections of the process on CPU `c`; `wakeup` is also called by interrupt handlers
  | .yield c => if s.lock = none then (s.cur c).map (s.yield c) else none
  | .sleep c k => if s.lock = none then (s.cur c).map (s.sleep c · (.other k) .sleep) else none
  | .wakeup k => if s.lock = none then some (s.wakeup1 (some (.other k))) else none
  | .kill c pid => if s.lock = none ∧ (s.cur c).map s.task = some .user then some (s.kill pid).2 else none
  | .fork c =>
    if s.lock = none then (s.cur c).bind fun p =>
      if s.task p = .user then
        match s.allocproc p with
        | some (np, s') => some { s' with task := Function.update s'.task p (.forkStack np) }
        | none => some s
      else none
    else none
  | .wait c =>
    if s.lock = none then (s.cur c).bind fun p => if s.task p = .user then some (s.waitScan c p) else none
    else none
  -- code without the lock
  | .trap c => (s.running c).bind fun p =>
    if s.task p = .user then
      some { s with killed := Function.update s.killed p true, hit := Function.update s.hit p true }
    else none
  | .setFile c fd f => (s.running c).bind fun p =>
    if s.task p = .user then
      some { s with ofile := fun q fd' => if q = p ∧ fd' = fd then f else s.ofile q fd' }
    else none
  | .chdir c ip => (s.running c).bind fun p =>
    if s.task p = .user then some { s with cwd := Function.update s.cwd p (some ip) } else none
  | .forkNext c ok => (s.running c).bind fun p => s.forkNext p ok
  | .exit c => (s.running c).bind fun p =>
    -- `panic("init exiting")` otherwise
    if s.task p = .user ∧ p ≠ initproc then some { s with task := Function.update s.task p (.exitFile 0) }
    else none
  | .exitNext c => (s.running c).bind fun p => s.exitNext c p

/-- After `userinit`: init is the only process, ready to run in the root directory `root`. -/
def ProcSys.boot (root : Nat) : ProcSys Cpu where
  state := Function.update (fun _ => .UNUSED) initproc .RUNNABLE
  pid := Function.update (fun _ => 0) initproc 1
  parent _ := none
  chan _ := none
  killed _ := false
  ofile _ _ := none
  cwd := Function.update (fun _ => none) initproc (some root)
  ctx _ := .forkret
  task _ := .user
  nextpid := 2
  cur _ := none
  scan _ := 0
  lock := none
  born := 1
  serial _ := 1
  creator _ := 0
  hit _ := false
  log := []

/-! ## What a step can do -/

namespace ProcSys

omit [DecidableEq Cpu] in
/-- The loop of `exit` over the slots `l`, in one go. -/
theorem foldl_adopt (p : ProcSlot) (l : List ProcSlot) (s : ProcSys Cpu) :
    l.foldl (adopt p) s =
      { s with
        parent := fun q => if q ∈ l ∧ s.parent q = some p then some initproc else s.parent q
        state := fun q =>
          if s.state q = .SLEEPING ∧ s.chan q = some (.proc initproc) ∧
            (∃ r ∈ l, s.parent r = some p ∧ s.state r = .ZOMBIE) then .RUNNABLE else s.state q } := by
  induction l generalizing s with
  | nil => simp
  | cons r l ih =>
    rw [List.foldl_cons, ih, adopt]
    split_ifs with hr hz
    · have hex : ∃ t ∈ r :: l, s.parent t = some p ∧ s.state t = .ZOMBIE := ⟨r, List.mem_cons_self, hr, hz⟩
      congr 1
      · funext q
        simp only [wakeup1, hex, and_true]
        by_cases hq : s.state q = .SLEEPING ∧ s.chan q = some (.proc initproc)
        · simp [hq]
        · rw [if_neg hq, if_neg fun h => hq ⟨h.1, h.2.1⟩]
      · funext q
        simp only [wakeup1, Function.update_apply]
        grind
    · congr 1
      · funext q
        have hex : (∃ t ∈ l, Function.update s.parent r (some initproc) t = some p ∧ s.state t = .ZOMBIE) ↔
            ∃ t ∈ r :: l, s.parent t = some p ∧ s.state t = .ZOMBIE := by
          refine exists_congr fun t => ?_
          simp only [Function.update_apply, List.mem_cons]
          grind
        simp only [hex]
      · funext q
        simp only [Function.update_apply]
        grind
    · congr 1
      · funext q
        have hex : (∃ t ∈ l, s.parent t = some p ∧ s.state t = .ZOMBIE) ↔
            ∃ t ∈ r :: l, s.parent t = some p ∧ s.state t = .ZOMBIE := by
          refine exists_congr fun t => ?_
          simp only [List.mem_cons]
          grind
        simp only [hex]
      · funext q
        grind

omit [DecidableEq Cpu] in
/-- `kill` in one go: only the first slot with that pid is marked. -/
theorem kill_eq (s : ProcSys Cpu) (pid : UInt32) : (s.kill pid).2 =
    { s with
      killed := fun q => if firstSlot (fun p => s.pid p = pid) = some q then true else s.killed q
      state := fun q => if firstSlot (fun p => s.pid p = pid) = some q ∧ s.state q = .SLEEPING then .RUNNABLE
        else s.state q
      hit := fun q => s.hit q || decide (s.state q ≠ .UNUSED ∧ s.pid q = pid) } := by
  rw [kill]
  cases firstSlot fun p => decide (s.pid p = pid) with
  | none => simp
  | some p =>
    simp only [Option.some.injEq]
    congr 1
    · funext q
      simp only [Function.update_apply]
      grind
    · funext q
      simp only [Function.update_apply]
      grind

/-- `exitLast` in one go: who is woken, who becomes init's child. -/
theorem exitLast_eq (s : ProcSys Cpu) (c : Cpu) (p : ProcSlot) : s.exitLast c p =
    { s with
      state := fun q => if q = p then .ZOMBIE
        else if s.state q = .SLEEPING ∧ (s.chan q = (s.parent p).map .proc ∨ s.chan q = some (.proc initproc) ∧
          ∃ r, s.parent r = some p ∧ s.state r = .ZOMBIE) then .RUNNABLE else s.state q
      parent := fun q => if s.parent q = some p then some initproc else s.parent q
      ctx := Function.update s.ctx p .dead
      task := Function.update s.task p .user
      log := .exited (s.serial p) :: s.log
      cur := Function.update s.cur c none
      lock := some c } := by
  have hzombie : ∀ q, (s.wakeup1 ((s.parent p).map .proc)).state q = .ZOMBIE ↔ s.state q = .ZOMBIE := by
    intro q
    simp only [wakeup1]
    split_ifs with h
    · simp [h.1]
    · rfl
  rw [exitLast, foldl_adopt]
  simp only [List.mem_finRange, true_and, hzombie, sched]
  congr 1
  funext q
  simp only [wakeup1, Function.update_apply]
  grind

end ProcSys

/-- **What a step can do** on event `e`. -/
inductive ProcMove (e : ProcEvent Cpu) (s : ProcSys Cpu) : ProcSys Cpu → Prop
  /-- The lock or a scheduler's loop variable changes and nothing else. -/
  | lock (l : Option Cpu) (sc : Cpu → Nat) : ProcMove e s { s with lock := l, scan := sc }
  | dispatch (c : Cpu) (p : ProcSlot) (sc : Cpu → Nat) (hc : s.cur c = none) (hp : s.state p = .RUNNABLE) :
    ProcMove e s
      { s with cur := Function.update s.cur c (some p), state := Function.update s.state p .RUNNING, scan := sc }
  | tidy (c : Cpu) (p : ProcSlot) (l : Option Cpu) (hc : s.cur c = some p) :
    ProcMove e s { s with chan := Function.update s.chan p none, lock := l }
  | yield (c : Cpu) (p : ProcSlot) (hc : s.cur c = some p) : ProcMove e s (s.yield c p)
  | sleep (c : Cpu) (p : ProcSlot) (chan : WaitChan) (ctx : Ctx) (hc : s.cur c = some p)
    (hw : ctx = .wait → chan = .proc p ∧ ∀ q, s.parent q = some p → s.state q ≠ .ZOMBIE) :
    ProcMove e s (s.sleep c p chan ctx)
  | wakeup (chan : Option WaitChan) : ProcMove e s (s.wakeup1 chan)
  | kill (c : Cpu) (pid : UInt32) (he : e = .kill c pid) :
    ProcMove e s
      { s with
        killed := fun q => if firstSlot (fun p => s.pid p = pid) = some q then true else s.killed q
        state := fun q => if firstSlot (fun p => s.pid p = pid) = some q ∧ s.state q = .SLEEPING then .RUNNABLE
          else s.state q
        hit := fun q => s.hit q || decide (s.state q ≠ .UNUSED ∧ s.pid q = pid) }
  | reap (c : Cpu) (p q : ProcSlot) (hc : s.cur c = some p) (hq : s.parent q = some p) (hz : s.state q = .ZOMBIE) :
    ProcMove e s
      { s with
        state := Function.update s.state q .UNUSED
        pid := Function.update s.pid q 0
        parent := Function.update s.parent q none
        killed := Function.update s.killed q false
        lock := none
        log := .reaped (s.serial q) (s.pid q) (s.serial p) :: s.log }
  | trap (c : Cpu) (p : ProcSlot) (hc : s.cur c = some p) :
    ProcMove e s { s with killed := Function.update s.killed p true, hit := Function.update s.hit p true }
  | setFile (c : Cpu) (p : ProcSlot) (fd : Fd) (f : Option Nat) (hc : s.cur c = some p) (ht : s.task p = .user) :
    ProcMove e s { s with ofile := fun q fd' => if q = p ∧ fd' = fd then f else s.ofile q fd' }
  | chdir (c : Cpu) (p : ProcSlot) (ip : Nat) (hc : s.cur c = some p) (ht : s.task p = .user) :
    ProcMove e s { s with cwd := Function.update s.cwd p (some ip) }
  | alloc (c : Cpu) (p np : ProcSlot) (hc : s.cur c = some p) (ht : s.task p = .user) (hnp : s.state np = .UNUSED) :
    ProcMove e s
      { s with
        state := Function.update s.state np .EMBRYO
        pid := Function.update s.pid np s.nextpid
        nextpid := s.nextpid + 1
        ctx := Function.update s.ctx np .forkret
        task := Function.update (Function.update s.task np .user) p (.forkStack np)
        born := s.born + 1
        serial := Function.update s.serial np (s.born + 1)
        creator := Function.update s.creator (s.born + 1) (s.serial p)
        hit := Function.update s.hit np false }
  | forkFail (c : Cpu) (p np : ProcSlot) (hc : s.cur c = some p) (he : e = .forkNext c false)
    (ht : s.task p = .forkStack np ∨ s.task p = .forkCopy np) :
    ProcMove e s { s with state := Function.update s.state np .UNUSED, task := Function.update s.task p .user }
  | forkStack (c : Cpu) (p np : ProcSlot) (hc : s.cur c = some p) (ht : s.task p = .forkStack np) :
    ProcMove e s { s with task := Function.update s.task p (.forkCopy np) }
  | forkCopy (c : Cpu) (p np : ProcSlot) (hc : s.cur c = some p) (ht : s.task p = .forkCopy np) :
    ProcMove e s
      { s with parent := Function.update s.parent np (some p), task := Function.update s.task p (.forkFile np 0) }
  | forkFile (c : Cpu) (p np : ProcSlot) (i : Nat) (hc : s.cur c = some p) (ht : s.task p = .forkFile np i) :
    ProcMove e s
      { s with
        ofile := fun q fd => if q = np ∧ fd.val = i ∧ s.ofile p fd ≠ none then s.ofile p fd else s.ofile q fd
        task := Function.update s.task p (.forkFile np (i + 1)) }
  | forkFiles (c : Cpu) (p np : ProcSlot) (i : Nat) (hc : s.cur c = some p) (ht : s.task p = .forkFile np i) :
    ProcMove e s { s with task := Function.update s.task p (.forkCwd np) }
  | forkCwd (c : Cpu) (p np : ProcSlot) (hc : s.cur c = some p) (ht : s.task p = .forkCwd np) :
    ProcMove e s
      { s with cwd := Function.update s.cwd np (s.cwd p), task := Function.update s.task p (.forkReady np) }
  | forkReady (c : Cpu) (p np : ProcSlot) (hc : s.cur c = some p) (ht : s.task p = .forkReady np) :
    ProcMove e s { s with state := Function.update s.state np .RUNNABLE, task := Function.update s.task p .user }
  | exit (c : Cpu) (p : ProcSlot) (hc : s.cur c = some p) (ht : s.task p = .user) (hp : p ≠ initproc) :
    ProcMove e s { s with task := Function.update s.task p (.exitFile 0) }
  | exitFile (c : Cpu) (p : ProcSlot) (i : Nat) (hc : s.cur c = some p) (ht : s.task p = .exitFile i) :
    ProcMove e s
      { s with
        ofile := fun q fd => if q = p ∧ fd.val = i then none else s.ofile q fd
        task := Function.update s.task p (.exitFile (i + 1)) }
  | exitFiles (c : Cpu) (p : ProcSlot) (i : Nat) (hc : s.cur c = some p) (ht : s.task p = .exitFile i)
    (hi : NOFILE ≤ i) : ProcMove e s { s with task := Function.update s.task p .exitCwd }
  | exitCwd (c : Cpu) (p : ProcSlot) (hc : s.cur c = some p) (ht : s.task p = .exitCwd) :
    ProcMove e s { s with cwd := Function.update s.cwd p none, task := Function.update s.task p .exitLock }
  | exitLast (c : Cpu) (p : ProcSlot) (hc : s.cur c = some p) (ht : s.task p = .exitLock) :
    ProcMove e s
      { s with
        state := fun q => if q = p then .ZOMBIE
          else if s.state q = .SLEEPING ∧ (s.chan q = (s.parent p).map .proc ∨ s.chan q = some (.proc initproc) ∧
            ∃ r, s.parent r = some p ∧ s.state r = .ZOMBIE) then .RUNNABLE else s.state q
        parent := fun q => if s.parent q = some p then some initproc else s.parent q
        ctx := Function.update s.ctx p .dead
        task := Function.update s.task p .user
        log := .exited (s.serial p) :: s.log
        cur := Function.update s.cur c none
        lock := some c }

theorem waitScan_move {e : ProcEvent Cpu} {s : ProcSys Cpu} {c : Cpu} {p : ProcSlot} (hc : s.cur c = some p) :
    ProcMove e s (s.waitScan c p) := by
  rw [ProcSys.waitScan]
  split
  · rename_i q hq
    have hq := firstSlot_some hq
    simp only [decide_eq_true_eq] at hq
    exact .reap c p q hc hq.1 hq.2
  · rename_i hnone
    split_ifs with hgive
    · exact .lock none s.scan
    · refine .sleep c p _ _ hc fun _ => ⟨rfl, fun q hq hz => ?_⟩
      have := firstSlot_none.mp hnone q
      simp [hq, hz] at this

theorem ProcSys.running_eq_some {s : ProcSys Cpu} {c : Cpu} {p : ProcSlot} (h : s.running c = some p) :
    s.cur c = some p := by
  rw [ProcSys.running] at h
  split_ifs at h
  exact h

theorem forkNext_move {s s' : ProcSys Cpu} {c : Cpu} {p : ProcSlot} {ok : Bool} (hc : s.cur c = some p)
    (h : s.forkNext p ok = some s') : ProcMove (.forkNext c ok) s s' := by
  simp only [ProcSys.forkNext] at h
  split at h
  · rename_i np ht
    split_ifs at h <;> cases h
    · exact .forkStack c p np hc ht
    · exact .forkFail c p np hc (by simp_all) (.inl ht)
  · rename_i np ht
    split_ifs at h <;> cases h
    · exact .forkCopy c p np hc ht
    · exact .forkFail c p np hc (by simp_all) (.inr ht)
  · rename_i np i ht
    split_ifs at h <;> cases h
    · exact .forkFile c p np i hc ht
    · exact .forkFiles c p np i hc ht
  · rename_i np ht
    cases h
    exact .forkCwd c p np hc ht
  · rename_i np ht
    cases h
    exact .forkReady c p np hc ht
  · cases h

theorem exitNext_move {e : ProcEvent Cpu} {s s' : ProcSys Cpu} {c : Cpu} {p : ProcSlot} (hc : s.cur c = some p)
    (h : s.exitNext c p = some s') : ProcMove e s s' := by
  simp only [ProcSys.exitNext] at h
  split at h
  · rename_i i ht
    split_ifs at h with hi <;> cases h
    · exact .exitFile c p i hc ht
    · exact .exitFiles c p i hc ht (Nat.le_of_not_lt hi)
  · rename_i ht
    cases h
    exact .exitCwd c p hc ht
  · rename_i ht
    split_ifs at h
    cases h
    rw [ProcSys.exitLast_eq]
    exact .exitLast c p hc ht
  · cases h

/-- **Every step is one of the moves**, or two: a process that comes back to `wait` tidies up first. -/
theorem procStep_moves {s s' : ProcSys Cpu} {e : ProcEvent Cpu} (h : procStep s e = some s') :
    Relation.ReflTransGen (ProcMove e) s s' := by
  cases e with
  | schedAcquire c =>
    simp only [procStep, Option.ite_none_right_eq_some, Option.some.injEq] at h
    obtain ⟨-, rfl⟩ := h
    exact .single (.lock (some c) _)
  | schedScan c =>
    simp only [procStep, Option.dite_none_right_eq_some, Option.ite_none_right_eq_some, Option.some.injEq] at h
    obtain ⟨hlt, ⟨hc, -⟩, rfl⟩ := h
    rw [ProcSys.schedScan]
    split_ifs with hp
    · exact .single (.dispatch c _ _ hc hp)
    · exact .single (.lock s.lock _)
  | schedRelease c =>
    simp only [procStep, Option.ite_none_right_eq_some, Option.some.injEq] at h
    obtain ⟨-, rfl⟩ := h
    exact .single (.lock none s.scan)
  | resume c =>
    simp only [procStep, Option.ite_none_right_eq_some, Option.bind_eq_some_iff] at h
    obtain ⟨-, p, hc, h⟩ := h
    rw [ProcSys.resume] at h
    split at h <;> cases h
    · exact .single (.lock none s.scan)
    · exact .single (.lock none s.scan)
    · exact .single (.tidy c p none hc)
    · exact .tail (.single (.tidy c p s.lock hc)) (waitScan_move hc)
  | yield c =>
    simp only [procStep, Option.ite_none_right_eq_some, Option.map_eq_some_iff] at h
    obtain ⟨-, p, hc, rfl⟩ := h
    exact .single (.yield c p hc)
  | sleep c k =>
    simp only [procStep, Option.ite_none_right_eq_some, Option.map_eq_some_iff] at h
    obtain ⟨-, p, hc, rfl⟩ := h
    exact .single (.sleep c p _ _ hc nofun)
  | wakeup k =>
    simp only [procStep, Option.ite_none_right_eq_some, Option.some.injEq] at h
    obtain ⟨-, rfl⟩ := h
    exact .single (.wakeup _)
  | kill c pid =>
    simp only [procStep, Option.ite_none_right_eq_some, Option.some.injEq] at h
    obtain ⟨-, rfl⟩ := h
    rw [ProcSys.kill_eq]
    exact .single (.kill c pid rfl)
  | trap c =>
    simp only [procStep, Option.ite_none_right_eq_some, Option.some.injEq, Option.bind_eq_some_iff] at h
    obtain ⟨p, hp, -, rfl⟩ := h
    exact .single (.trap c p (ProcSys.running_eq_some hp))
  | setFile c fd f =>
    simp only [procStep, Option.ite_none_right_eq_some, Option.some.injEq, Option.bind_eq_some_iff] at h
    obtain ⟨p, hp, ht, rfl⟩ := h
    exact .single (.setFile c p fd f (ProcSys.running_eq_some hp) ht)
  | chdir c ip =>
    simp only [procStep, Option.ite_none_right_eq_some, Option.some.injEq, Option.bind_eq_some_iff] at h
    obtain ⟨p, hp, ht, rfl⟩ := h
    exact .single (.chdir c p ip (ProcSys.running_eq_some hp) ht)
  | fork c =>
    simp only [procStep, Option.ite_none_right_eq_some, Option.bind_eq_some_iff] at h
    obtain ⟨-, p, hc, ht, h⟩ := h
    rw [ProcSys.allocproc] at h
    cases hnp : firstSlot fun q => decide (s.state q = .UNUSED) with
    | none =>
      simp only [hnp] at h
      cases h
      exact .refl
    | some np =>
      simp only [hnp] at h
      cases h
      exact .single (.alloc c p np hc ht (of_decide_eq_true (firstSlot_some hnp)))
  | forkNext c ok =>
    simp only [procStep, Option.bind_eq_some_iff] at h
    obtain ⟨p, hp, h⟩ := h
    exact .single (forkNext_move (ProcSys.running_eq_some hp) h)
  | exit c =>
    simp only [procStep, Option.ite_none_right_eq_some, Option.some.injEq, Option.bind_eq_some_iff] at h
    obtain ⟨p, hp, ⟨ht, hi⟩, rfl⟩ := h
    exact .single (.exit c p (ProcSys.running_eq_some hp) ht hi)
  | exitNext c =>
    simp only [procStep, Option.bind_eq_some_iff] at h
    obtain ⟨p, hp, h⟩ := h
    exact .single (exitNext_move (ProcSys.running_eq_some hp) h)
  | wait c =>
    simp only [procStep, Option.ite_none_right_eq_some, Option.some.injEq, Option.bind_eq_some_iff] at h
    obtain ⟨-, p, hc, -, rfl⟩ := h
    exact .single (waitScan_move hc)

/-- **Invariants of the machine.** What holds at boot and survives every move holds in every state. -/
theorem proc_invariant {I : ProcSys Cpu → Prop} {root : Nat} (h0 : I (ProcSys.boot root))
    (hmove : ∀ e t u, I t → ProcMove e t u → I u) {es : List (ProcEvent Cpu)} {s : ProcSys Cpu}
    (h : run procStep (ProcSys.boot root) es = some s) : I s := by
  refine run_invariant h0 (fun t e u ht hu => ?_) h
  have hmoves := procStep_moves hu
  clear hu
  induction hmoves with
  | refl => exact ht
  | tail _ hm ih => exact hmove _ _ _ ih hm

end Xv6
