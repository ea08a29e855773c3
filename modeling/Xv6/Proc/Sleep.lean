import Xv6.Lib.Machine
import Mathlib.Logic.Function.Basic

/-!
# `Proc.Sleep` — `sleep` and `wakeup` lose no wakeup (`kernel/proc.c`)

Any number of processes share data guarded by a lock `lk`. Some wait for a condition on it with
`while(!condition) sleep(chan, lk)`; whoever makes the condition true calls `wakeup(chan)` before it releases
`lk`. Taking and releasing a lock, testing the condition, setting `chan` and setting the state are separate
steps. The lock may be `ptable.lock` itself, in which case `sleep` takes and releases nothing and the waker
calls `wakeup1`.

Other code runs too: it takes `ptable.lock` to wake any channel, to kill, to yield and to sleep on any channel,
the same one included, for reasons of its own.

## Contents
- **The machine.** `Pc`, where a process is; `sleepStep`, one event per step.
- **Locks.** `Pc.holds`: which locks a process holds follows from where it is.
- **No lost wakeup.** `SleepSys.Inv`, and `sleep_loses_no_wakeup`.
-/

namespace Xv6

open Machine

/-- `enum procstate`. -/
inductive ProcState where
  | UNUSED
  | EMBRYO
  | SLEEPING
  | RUNNABLE
  | RUNNING
  | ZOMBIE
  deriving DecidableEq

/-! ## The machine -/

/-- `ptable.lock`, or some other lock. -/
inductive LockId where
  | ptable
  | own
  deriving DecidableEq

/-- Who holds a lock: a process, or the scheduler of some CPU. -/
inductive Holder (P : Type) where
  | proc (p : P)
  | sched
  deriving DecidableEq

/-- Where a process is. -/
inductive Pc where
  /-- Holds nothing. -/
  | out
  /-- Holds `lk`. -/
  | crit
  /-- Holds `lk` and found the condition false. -/
  | tested
  /-- In `sleep`, with both locks. -/
  | gotTable
  /-- In `sleep`, about to set `chan`. -/
  | dropped
  /-- In `sleep`, about to set `state`. -/
  | chanSet
  /-- In `sleep`, about to call `sched`. -/
  | marked
  /-- In `sleep`, switched out. -/
  | off
  /-- In `sleep`, running again, about to clear `chan`. -/
  | back
  /-- In `sleep`, about to take `lk` again. -/
  | tidied
  /-- In `sleep`, waiting for `lk`. -/
  | want
  /-- In `wakeup`, with both locks; whether it was called between the test and `sleep`. -/
  | wakeHold (tested : Bool)
  /-- In `wakeup`, after the loop of `wakeup1`. -/
  | wakeDone (tested : Bool)
  /-- Holds `ptable.lock` for another reason. -/
  | table
  /-- Switched out for another reason. -/
  | tableOff
  deriving DecidableEq

/-- The guarded data, the locks and the processes. `made` and `woke` say what the holder of `lk` did since it took
    it: made the condition true, called `wakeup(chan)`. -/
structure SleepSys (P V C : Type) where
  data : V
  lock : LockId → Option (Holder P)
  state : P → ProcState
  chan : P → Option C
  pc : P → Pc
  made : P → Bool
  woke : P → Bool

/-- What happens next; `p` is the process that moves. -/
inductive SleepEvent (P V C : Type) where
  | acquire (p : P)
  | change (p : P) (v : V)
  | test (p : P)
  | leave (p : P)
  | release (p : P)
  | sleep (p : P)
  | drop (p : P)
  | setChan (p : P)
  | setState (p : P)
  | sched (p : P)
  | schedIn
  | run (p : P)
  | schedOut
  | tidy (p : P)
  | retake (p : P)
  | wake (p : P)
  | wakeup1 (p : P) (c : C)
  | wakeEnd (p : P)
  | table (p : P)
  | untable (p : P)
  | kill (p q : P)
  | yield (p : P)
  | sleepOther (p : P) (c : C)

section Machine
variable {P V C : Type} [DecidableEq P] [DecidableEq C]

/-- Where code that holds `ptable.lock` for another reason is: holding it is holding `lk` if they are the same. -/
def tablePc (L : LockId) : Pc := if L = .ptable then .crit else .table

/-- Where a process is once its loop of `wakeup1` is over. -/
def Pc.woken : Pc → Pc
  | .wakeHold t => .wakeDone t
  | pc => pc

namespace SleepSys

/-- Move process `p`. -/
@[simp] def goto (s : SleepSys P V C) (p : P) (pc : Pc) : SleepSys P V C :=
  { s with pc := Function.update s.pc p pc }

/-- Set the holder of a lock. -/
@[simp] def setLock (s : SleepSys P V C) (k : LockId) (h : Option (Holder P)) : SleepSys P V C :=
  { s with lock := Function.update s.lock k h }

/-- Set `p->state`. -/
@[simp] def setState (s : SleepSys P V C) (p : P) (st : ProcState) : SleepSys P V C :=
  { s with state := Function.update s.state p st }

/-- Set `p->chan`. -/
@[simp] def setChan (s : SleepSys P V C) (p : P) (c : Option C) : SleepSys P V C :=
  { s with chan := Function.update s.chan p c }

/-- A new holder of `lk` has done nothing yet. -/
@[simp] def fresh (s : SleepSys P V C) (p : P) : SleepSys P V C :=
  { s with made := Function.update s.made p false, woke := Function.update s.woke p false }

/-- The loop of `wakeup1`. -/
@[simp] def wakeChan (s : SleepSys P V C) (c : C) : SleepSys P V C :=
  { s with state := fun q => if s.state q = .SLEEPING ∧ s.chan q = some c then .RUNNABLE else s.state q }

/-- Giving up `lk` in `sched` needs what releasing it needs. -/
def Paid (s : SleepSys P V C) (p : P) : Prop := s.made p = true → s.woke p = true

instance (s : SleepSys P V C) (p : P) : Decidable (s.Paid p) := by unfold Paid; infer_instance

end SleepSys

variable (L : LockId) (c₀ : C) (cond : V → Bool)

/-- When an event can happen. -/
def SleepSys.Enabled (s : SleepSys P V C) : SleepEvent P V C → Prop
  -- code that holds `lk`: it may change the data, find the condition false, and release once it has paid
  | .acquire p => (s.pc p = .out ∨ s.pc p = .want) ∧ s.lock L = none
  | .change p _ => s.pc p = .crit
  | .test p => s.pc p = .crit ∧ cond s.data = false
  | .leave p => s.pc p = .tested
  | .release p => s.pc p = .crit ∧ s.Paid p
  -- `sleep(chan, lk)`, line by line; `if(lk != &ptable.lock)` guards `acquire(&ptable.lock)` and `release(lk)`
  | .sleep p => s.pc p = .tested ∧ (L = .ptable ∨ s.lock .ptable = none)
  | .drop p => L = .own ∧ s.pc p = .gotTable
  | .setChan p => s.pc p = .dropped
  | .setState p => s.pc p = .chanSet
  | .sched p => s.pc p = .marked
  -- a scheduler takes `ptable.lock` and hands it to the process it switches to
  | .schedIn => s.lock .ptable = none
  | .run p =>
    s.lock .ptable = some .sched ∧ s.state p = .RUNNABLE ∧ (s.pc p = .off ∨ s.pc p = .tableOff)
  | .schedOut => s.lock .ptable = some .sched
  | .tidy p => s.pc p = .back
  | .retake p => s.pc p = .tidied
  -- `wakeup(chan)`, and `wakeup1` alone where `ptable.lock` is held already
  | .wake p => L = .own ∧ s.lock .ptable = none ∧ (s.pc p = .crit ∨ s.pc p = .tested)
  | .wakeup1 p _ =>
    s.pc p = .wakeHold true ∨ s.pc p = .wakeHold false ∨ s.pc p = tablePc L ∨ L = .ptable ∧ s.pc p = .tested
  | .wakeEnd p => L = .own ∧ (s.pc p = .wakeDone true ∨ s.pc p = .wakeDone false)
  -- other code, under `ptable.lock`
  | .table p => L = .own ∧ s.pc p = .out ∧ s.lock .ptable = none
  | .untable p => L = .own ∧ s.pc p = .table
  | .kill p _ => s.pc p = tablePc L
  | .yield p => s.pc p = tablePc L ∧ (L = .ptable → s.Paid p)
  | .sleepOther p _ => s.pc p = tablePc L ∧ (L = .ptable → s.Paid p)

instance (s : SleepSys P V C) (e : SleepEvent P V C) : Decidable (s.Enabled L cond e) := by
  cases e <;> unfold SleepSys.Enabled <;> infer_instance

/-- What it does. -/
def SleepSys.next (s : SleepSys P V C) : SleepEvent P V C → SleepSys P V C
  | .acquire p => ((s.setLock L (some (.proc p))).goto p .crit).fresh p
  | .change p v => { s with data := v, made := Function.update s.made p (s.made p || (!cond s.data && cond v)) }
  | .test p => s.goto p .tested
  | .leave p => s.goto p .crit
  | .release p => (s.setLock L none).goto p .out
  | .sleep p =>
    if L = .ptable then s.goto p .dropped
    else (s.setLock .ptable (some (.proc p))).goto p .gotTable
  | .drop p => (s.setLock L none).goto p .dropped
  | .setChan p => (s.setChan p (some c₀)).goto p .chanSet
  | .setState p => (s.setState p .SLEEPING).goto p .marked
  | .sched p => (s.setLock .ptable (some .sched)).goto p .off
  | .schedIn => s.setLock .ptable (some .sched)
  | .run p =>
    let s' := ((s.setLock .ptable (some (.proc p))).setState p .RUNNING).fresh p
    if s.pc p = .off then s'.goto p .back else (s'.setChan p none).goto p (tablePc L)
  | .schedOut => s.setLock .ptable none
  | .tidy p => (s.setChan p none).goto p .tidied
  | .retake p => if L = .ptable then s.goto p .crit else (s.setLock .ptable none).goto p .want
  | .wake p => (s.setLock .ptable (some (.proc p))).goto p (.wakeHold (s.pc p = .tested))
  | .wakeup1 p c =>
    { s.wakeChan c with woke := Function.update s.woke p (s.woke p || decide (c = c₀)) }.goto p (s.pc p).woken
  | .wakeEnd p => (s.setLock .ptable none).goto p (if s.pc p = .wakeDone true then .tested else .crit)
  | .table p => (s.setLock .ptable (some (.proc p))).goto p .table
  | .untable p => (s.setLock .ptable none).goto p .out
  | .kill _ q => if s.state q = .SLEEPING then s.setState q .RUNNABLE else s
  | .yield p => ((s.setLock .ptable (some .sched)).setState p .RUNNABLE).goto p .tableOff
  | .sleepOther p c =>
    (((s.setLock .ptable (some .sched)).setState p .SLEEPING).setChan p (some c)).goto p .tableOff

/-- One step, for the condition `cond` on the data guarded by lock `L` and the channel `c₀`. -/
def sleepStep (s : SleepSys P V C) (e : SleepEvent P V C) : Option (SleepSys P V C) :=
  if s.Enabled L cond e then some (s.next L c₀ cond e) else none

/-- Nobody has started. -/
def SleepSys.init (v : V) : SleepSys P V C where
  data := v
  lock _ := none
  state _ := .RUNNING
  chan _ := none
  pc _ := .out
  made _ := false
  woke _ := false

/-! ## Locks -/

/-- The locks held at `pc`. -/
def Pc.holds (L : LockId) : Pc → LockId → Bool
  | .crit, k | .tested, k => k = L
  | .gotTable, k | .wakeHold _, k | .wakeDone _, k => k = L || k = .ptable
  | .dropped, k | .chanSet, k | .marked, k | .back, k | .tidied, k | .table, k => k = .ptable
  | .out, _ | .off, _ | .want, _ | .tableOff, _ => false

/-- Between the test of the condition and the loss of `lk`: the condition is known to be false. -/
def Pc.Believes (L : LockId) (pc : Pc) : Prop :=
  pc = .tested ∨ pc = .gotTable ∨ pc = .wakeHold true ∨ pc = .wakeDone true ∨
    L = .ptable ∧ (pc = .dropped ∨ pc = .chanSet ∨ pc = .marked)

/-- Going to sleep on `c₀` for the condition, or asleep there. -/
def SleepSys.Bound (s : SleepSys P V C) (p : P) : Prop :=
  s.pc p = .dropped ∨ s.pc p = .chanSet ∨ s.pc p = .marked ∨ s.pc p = .off ∧ s.state p = .SLEEPING

/-- Who holds each lock is told by where the processes are. -/
def SleepSys.Locks (s : SleepSys P V C) : Prop :=
  ∀ p k, s.lock k = some (.proc p) ↔ (s.pc p).holds L k = true

variable {L c₀ cond} {s s' : SleepSys P V C} {e : SleepEvent P V C}

theorem sleepStep_eq_some :
    sleepStep L c₀ cond s e = some s' ↔ s.Enabled L cond e ∧ s.next L c₀ cond e = s' := by
  simp only [sleepStep, Option.ite_none_right_eq_some, Option.some.injEq]

omit [DecidableEq P] [DecidableEq C] in
/-- **One holder.** Two processes never hold the same lock. -/
theorem SleepSys.Locks.unique (h : s.Locks L) {p q : P} {k : LockId}
    (hp : (s.pc p).holds L k = true) (hq : (s.pc q).holds L k = true) : p = q := by
  have hpq := ((h p k).2 hp).symm.trans ((h q k).2 hq)
  simpa using hpq

omit [DecidableEq P] [DecidableEq C] in
theorem SleepSys.Locks.only (h : s.Locks L) {p : P} {k : LockId} (hp : (s.pc p).holds L k = true) (q : P)
    (hq : s.lock k = some (.proc q)) : q = p :=
  h.unique ((h q k).1 hq) hp

omit [DecidableEq C] in
/-- A move of `p` that takes or gives up lock `k`, which no other process holds before or after. -/
theorem SleepSys.Locks.switch (h : s.Locks L) {p : P} {k : LockId} {pc : Pc} {holder : Option (Holder P)}
    (hlock : s'.lock = Function.update s.lock k holder) (hpc : s'.pc = Function.update s.pc p pc)
    (hbefore : ∀ q, s.lock k = some (.proc q) → q = p) (hafter : ∀ q, holder = some (.proc q) → q = p)
    (hk : pc.holds L k = true ↔ holder = some (.proc p))
    (hrest : ∀ j, j ≠ k → pc.holds L j = (s.pc p).holds L j) : s'.Locks L := by
  intro q j
  rw [hlock, hpc]
  by_cases hj : j = k
  · subst hj
    by_cases hq : q = p
    · subst hq
      simp only [Function.update_self]
      exact hk.symm
    · -- nobody but `p` has the lock, so `q` has it neither before nor after
      simp only [Function.update_self, Function.update_of_ne hq, ← h q j]
      exact ⟨fun hh => absurd (hafter q hh) hq, fun hh => absurd (hbefore q hh) hq⟩
  · rw [Function.update_of_ne hj, h q j]
    by_cases hq : q = p
    · subst hq
      rw [Function.update_self, hrest j hj]
    · rw [Function.update_of_ne hq]

omit [DecidableEq C] in
/-- A move of `p` that takes and gives up nothing. -/
theorem SleepSys.Locks.stay (h : s.Locks L) {p : P} {pc : Pc}
    (hlock : s'.lock = s.lock) (hpc : s'.pc = Function.update s.pc p pc)
    (hsame : ∀ j, pc.holds L j = (s.pc p).holds L j) : s'.Locks L := by
  intro q j
  rw [hlock, hpc, h q j]
  by_cases hq : q = p
  · subst hq
    rw [Function.update_self, hsame j]
  · rw [Function.update_of_ne hq]

omit [DecidableEq P] [DecidableEq C] in
/-- The scheduler takes `ptable.lock` or gives it up. -/
theorem SleepSys.Locks.sched (h : s.Locks L) {k : LockId} {holder : Option (Holder P)}
    (hlock : s'.lock = Function.update s.lock k holder) (hpc : s'.pc = s.pc)
    (hbefore : ∀ q, s.lock k ≠ some (.proc q)) (hafter : ∀ q, holder ≠ some (.proc q)) : s'.Locks L := by
  intro q j
  rw [hlock, hpc, ← h q j]
  by_cases hj : j = k
  · subst hj
    rw [Function.update_self]
    exact iff_of_false (hafter q) (hbefore q)
  · rw [Function.update_of_ne hj]

omit [DecidableEq C] in
/-- Code that holds `ptable.lock` for another reason switches to the scheduler. -/
theorem SleepSys.Locks.offTable (h : s.Locks L) {p : P}
    (hlock : s'.lock = Function.update s.lock .ptable (some .sched))
    (hpc : s'.pc = Function.update s.pc p .tableOff) (hp : s.pc p = tablePc L) : s'.Locks L := by
  refine h.switch hlock hpc (h.only ?_) (by simp) (by simp [Pc.holds]) ?_ <;>
    cases L <;> simp +contextual [hp, tablePc, Pc.holds]

/-- Every step keeps the locks in agreement with the program counters. -/
theorem SleepSys.Locks.next (h : s.Locks L) (he : s.Enabled L cond e) : (s.next L c₀ cond e).Locks L := by
  cases e with
  | acquire p =>
    obtain ⟨hpc, hfree⟩ := he
    refine h.switch (p := p) (k := L) rfl rfl (by simp [hfree]) (by simp) (by simp [Pc.holds]) ?_
    rcases hpc with hpc | hpc <;> simp [hpc, Pc.holds]
  | change p v => exact h
  | test p => exact h.stay rfl rfl (by simp [he.1, Pc.holds])
  | leave p => exact h.stay rfl rfl (by simp [show s.pc p = _ from he, Pc.holds])
  | release p =>
    exact h.switch (p := p) (k := L) rfl rfl (h.only (by simp [he.1, Pc.holds])) (by simp)
      (by simp [Pc.holds]) (by simp [he.1, Pc.holds])
  | sleep p =>
    obtain ⟨hpc, hfree⟩ := he
    rw [SleepSys.next]
    split_ifs with hL
    · exact h.stay rfl rfl (by simp [hpc, hL, Pc.holds])
    · have hfree := hfree.resolve_left hL
      exact h.switch (p := p) (k := .ptable) rfl rfl (by simp [hfree]) (by simp) (by simp [Pc.holds])
        (by simp +contextual [hpc, Pc.holds])
  | drop p =>
    obtain ⟨rfl, hpc⟩ := he
    exact h.switch (p := p) (k := .own) rfl rfl (h.only (by simp [hpc, Pc.holds])) (by simp)
      (by simp [Pc.holds]) (by simp +contextual [hpc, Pc.holds])
  | setChan p => exact h.stay rfl rfl (by simp [show s.pc p = _ from he, Pc.holds])
  | setState p => exact h.stay rfl rfl (by simp [show s.pc p = _ from he, Pc.holds])
  | sched p =>
    have hpc : s.pc p = .marked := he
    exact h.switch (p := p) (k := .ptable) rfl rfl (h.only (by simp [hpc, Pc.holds])) (by simp)
      (by simp [Pc.holds]) (by simp +contextual [hpc, Pc.holds])
  | schedIn =>
    have hfree : s.lock .ptable = none := he
    exact h.sched rfl rfl (by simp [hfree]) (by simp)
  | run p =>
    obtain ⟨hsched, -, hpc⟩ := he
    rw [SleepSys.next]
    split_ifs with hoff
    · exact h.switch (p := p) (k := .ptable) rfl rfl (by simp [hsched]) (by simp) (by simp [Pc.holds])
        (by simp +contextual [hoff, Pc.holds])
    · have hpc := hpc.resolve_left hoff
      refine h.switch (p := p) (k := .ptable) rfl rfl (by simp [hsched]) (by simp) ?_ ?_ <;>
        cases L <;> simp +contextual [hpc, tablePc, Pc.holds]
  | schedOut =>
    have hsched : s.lock .ptable = some .sched := he
    exact h.sched rfl rfl (by simp [hsched]) (by simp)
  | tidy p => exact h.stay rfl rfl (by simp [show s.pc p = _ from he, Pc.holds])
  | retake p =>
    have hpc : s.pc p = .tidied := he
    rw [SleepSys.next]
    split_ifs with hL
    · exact h.stay rfl rfl (by simp [hpc, hL, Pc.holds])
    · exact h.switch (p := p) (k := .ptable) rfl rfl (h.only (by simp [hpc, Pc.holds])) (by simp)
        (by simp [Pc.holds]) (by simp +contextual [hpc, Pc.holds])
  | wake p =>
    obtain ⟨hL, hfree, hpc⟩ := he
    refine h.switch (p := p) (k := .ptable) rfl rfl (by simp [hfree]) (by simp) (by simp [Pc.holds]) ?_
    rcases hpc with hpc | hpc <;> simp +contextual [hpc, Pc.holds]
  | wakeup1 p c =>
    refine h.stay rfl rfl fun j => ?_
    cases hpc : s.pc p <;> simp [Pc.woken, Pc.holds]
  | wakeEnd p =>
    obtain ⟨rfl, hpc⟩ := he
    rcases hpc with hpc | hpc <;>
      exact h.switch (p := p) (k := .ptable) rfl rfl (h.only (by simp [hpc, Pc.holds])) (by simp)
        (by simp [hpc, Pc.holds]) (by simp +contextual [hpc, Pc.holds])
  | table p =>
    obtain ⟨hL, hpc, hfree⟩ := he
    exact h.switch (p := p) (k := .ptable) rfl rfl (by simp [hfree]) (by simp) (by simp [Pc.holds])
      (by simp +contextual [hpc, Pc.holds])
  | untable p =>
    obtain ⟨-, hpc⟩ := he
    exact h.switch (p := p) (k := .ptable) rfl rfl (h.only (by simp [hpc, Pc.holds])) (by simp)
      (by simp [Pc.holds]) (by simp +contextual [hpc, Pc.holds])
  | kill p q =>
    rw [SleepSys.next]
    split_ifs <;> exact h
  | yield p => exact h.offTable rfl rfl he.1
  | sleepOther p c => exact h.offTable rfl rfl he.1

/-! ## No lost wakeup -/

attribute [local simp] Function.update_apply ite_apply

/-- A process that is bound to sleep after a step was so before, or had tested the condition. -/
theorem bound_next (he : s.Enabled L cond e) {p : P} (hb : (s.next L c₀ cond e).Bound p) :
    s.Bound p ∨ (s.pc p).Believes L := by
  cases e <;> simp [SleepSys.next, SleepSys.Enabled, SleepSys.Bound, apply_ite SleepSys.pc,
      apply_ite SleepSys.state] at he hb <;>
    grind [SleepSys.Bound, Pc.Believes, tablePc, Pc.woken]

/-- Belief in the falsity of the condition starts with the test. -/
theorem believes_next (he : s.Enabled L cond e) {p : P} (hb : ((s.next L c₀ cond e).pc p).Believes L) :
    (s.pc p).Believes L ∨ cond s.data = false := by
  cases e <;> simp [SleepSys.next, SleepSys.Enabled, apply_ite SleepSys.pc, Pc.Believes] at he hb <;>
    grind [Pc.Believes, tablePc, Pc.woken]

/-- Only `change` changes the data. -/
theorem data_next (hs : s.next L c₀ cond e = s') : s'.data = s.data ∨ ∃ p v, e = .change p v := by
  cases hs
  cases e <;> simp [SleepSys.next, apply_ite SleepSys.data]

/-- **The invariant.** If somebody is bound to sleep or asleep while the condition is true, then whoever holds `lk`
    made it true and has yet to wake them; and once the holder has woken everybody, nobody else is. -/
structure SleepSys.Inv (L : LockId) (c₀ : C) (cond : V → Bool) (s : SleepSys P V C) : Prop where
  locks : s.Locks L
  believes : ∀ p, (s.pc p).Believes L → cond s.data = false
  chan : ∀ p, s.pc p = .chanSet ∨ s.pc p = .marked ∨ s.pc p = .off → s.chan p = some c₀
  asleep : ∀ p, s.state p = .SLEEPING → s.pc p = .marked ∨ s.pc p = .off ∨ s.pc p = .tableOff
  unpaid : ∀ p, s.Bound p → cond s.data = true →
    ∃ q, s.lock L = some (.proc q) ∧ s.made q = true ∧ s.woke q = false
  woken : ∀ q, s.lock L = some (.proc q) → s.woke q = true → ∀ p, s.Bound p → p = q

theorem SleepSys.Inv.chan_next (h : s.Inv L c₀ cond) (he : s.Enabled L cond e) (p : P)
    (hp : (s.next L c₀ cond e).pc p = .chanSet ∨ (s.next L c₀ cond e).pc p = .marked ∨
      (s.next L c₀ cond e).pc p = .off) : (s.next L c₀ cond e).chan p = some c₀ := by
  have hc := h.chan p
  cases e <;> simp [SleepSys.next, SleepSys.Enabled, apply_ite SleepSys.pc, apply_ite SleepSys.chan] at he hp ⊢ <;>
    grind [tablePc, Pc.woken]

theorem SleepSys.Inv.asleep_next (h : s.Inv L c₀ cond) (he : s.Enabled L cond e) (p : P)
    (hp : (s.next L c₀ cond e).state p = .SLEEPING) :
    (s.next L c₀ cond e).pc p = .marked ∨ (s.next L c₀ cond e).pc p = .off ∨
      (s.next L c₀ cond e).pc p = .tableOff := by
  have hc := h.asleep p
  cases e <;> simp [SleepSys.next, SleepSys.Enabled, apply_ite SleepSys.pc, apply_ite SleepSys.state] at he hp ⊢ <;>
    grind [tablePc, Pc.woken]

/-- Whoever holds `lk` with a wakeup still due, the condition being true, keeps it until that wakeup. -/
theorem SleepSys.Inv.holder_next (h : s.Inv L c₀ cond) (he : s.Enabled L cond e) {q : P}
    (hq : s.lock L = some (.proc q)) (hm : s.made q = true) (hw : s.woke q = false) (hc : cond s.data = true) :
    ((s.next L c₀ cond e).lock L = some (.proc q) ∧ (s.next L c₀ cond e).made q = true ∧
      (s.next L c₀ cond e).woke q = false) ∨ e = .wakeup1 q c₀ := by
  have hat : (s.pc q).holds L L = true := (h.locks q L).1 hq
  -- with the condition true the holder is not on its way to sleep, and it cannot release unpaid
  have hne : ¬ (s.pc q).Believes L := fun hb => by simp [h.believes q hb] at hc
  have hothers : ∀ p, p ≠ q → (s.pc p).holds L L = false := fun p hp => by
    simpa using fun hh => hp (h.locks.unique hh hat)
  cases e <;> simp [SleepSys.next, SleepSys.Enabled, SleepSys.Paid, apply_ite SleepSys.lock,
      apply_ite SleepSys.made, apply_ite SleepSys.woke] at he ⊢ <;>
    grind [tablePc, Pc.holds, Pc.Believes]

/-- A holder that has called `wakeup` held `lk` then. -/
theorem woke_next (he : s.Enabled L cond e) {q : P} (hq : (s.next L c₀ cond e).lock L = some (.proc q))
    (hw : (s.next L c₀ cond e).woke q = true) :
    (s.lock L = some (.proc q) ∧ s.woke q = true) ∨ e = .wakeup1 q c₀ := by
  cases e <;> simp [SleepSys.next, SleepSys.Enabled, apply_ite SleepSys.lock,
      apply_ite SleepSys.woke] at he hq hw ⊢ <;>
    grind

/-- **`wakeup1(chan)` wakes everybody.** Nobody is bound to sleep after it: those on the way hold
    `ptable.lock`, and so does the caller. -/
theorem SleepSys.Inv.wakeup1_next (h : s.Inv L c₀ cond) {q : P} (he : s.Enabled L cond (.wakeup1 q c₀)) (p : P) :
    ¬ (s.next L c₀ cond (.wakeup1 q c₀)).Bound p := by
  intro hb
  have hq : (s.pc q).holds L .ptable = true := by
    simp only [SleepSys.Enabled] at he
    grind [Pc.holds, tablePc]
  have hpq : (s.pc p).holds L .ptable = true → p = q := fun hp => h.locks.unique hp hq
  have hchan := h.chan p
  simp [SleepSys.next, SleepSys.Enabled, SleepSys.Bound] at he hb
  grind [Pc.holds, Pc.woken, tablePc]

theorem Pc.Believes.holds {pc : Pc} (h : pc.Believes L) : pc.holds L L = true := by
  rcases h with rfl | rfl | rfl | rfl | ⟨rfl, rfl | rfl | rfl⟩ <;> simp [Pc.holds]

omit [DecidableEq P] [DecidableEq C] in
/-- A change of the data leaves every process where it is; the one that makes it is the holder of `lk`. -/
theorem SleepSys.Inv.unpaid_change (h : s.Inv L c₀ cond) {q : P} {v : V} (hq : s.pc q = .crit) {p : P}
    (hp : s.Bound p) (hv : cond v = true) :
    s.lock L = some (.proc q) ∧ (s.made q || (!cond s.data && cond v)) = true ∧ s.woke q = false := by
  have hlock : s.lock L = some (.proc q) := (h.locks q L).2 (by simp [hq, Pc.holds])
  cases hc : cond s.data with
  | true =>
    obtain ⟨r, hr, hmade, hwoke⟩ := h.unpaid p hp hc
    obtain rfl : q = r := by simpa [hr, eq_comm] using hlock
    exact ⟨hlock, by simp [hmade], hwoke⟩
  | false =>
    refine ⟨hlock, by simp [hv], ?_⟩
    -- had it woken everybody, only the holder itself could be bound to sleep
    by_contra hwoke
    obtain rfl := h.woken q hlock (by simpa using hwoke) p hp
    simp [SleepSys.Bound, hq] at hp

/-- Every step keeps the invariant. -/
theorem SleepSys.Inv.next (h : s.Inv L c₀ cond) (he : s.Enabled L cond e) :
    (s.next L c₀ cond e).Inv L c₀ cond where
  locks := h.locks.next he
  believes p hp := by
    rcases data_next (rfl : s.next L c₀ cond e = _) with hdata | ⟨q, v, rfl⟩
    · rw [hdata]
      rcases believes_next he hp with hp | hc
      · exact h.believes p hp
      · exact hc
    · -- the process that changes the data holds `lk`, so nobody else can have tested
      have hbel : (s.pc p).Believes L := hp
      have hq : s.pc q = .crit := he
      obtain rfl := h.locks.unique hbel.holds (q := q) (by simp [hq, Pc.holds])
      simp [Pc.Believes, hq] at hbel
  chan := h.chan_next he
  asleep := h.asleep_next he
  unpaid p hp hc := by
    rcases data_next (rfl : s.next L c₀ cond e = _) with hdata | ⟨q, v, rfl⟩
    · rw [hdata] at hc
      have hp' := (bound_next he hp).resolve_right fun hb => by simp [h.believes p hb] at hc
      obtain ⟨q, hq, hm, hw⟩ := h.unpaid p hp' hc
      rcases h.holder_next he hq hm hw hc with hkeep | rfl
      · exact ⟨q, hkeep⟩
      · exact absurd hp (h.wakeup1_next he p)
    · obtain ⟨hlock, hmade, hwoke⟩ := h.unpaid_change (v := v) he (p := p) hp hc
      exact ⟨q, hlock, by simpa [SleepSys.next] using hmade, hwoke⟩
  woken q hq hw p hp := by
    rcases woke_next he hq hw with ⟨hlock, hwoke⟩ | rfl
    · rcases bound_next he hp with hp | hp
      · exact h.woken q hlock hwoke p hp
      · exact h.locks.unique hp.holds ((h.locks q L).1 hlock)
    · exact absurd hp (h.wakeup1_next he p)

omit [DecidableEq P] [DecidableEq C] in
theorem SleepSys.Inv.init (v : V) : (SleepSys.init v : SleepSys P V C).Inv L c₀ cond := by
  constructor <;> simp [SleepSys.init, SleepSys.Locks, Pc.holds, Pc.Believes, SleepSys.Bound]

/-- Who sleeps on `c₀` for another reason went to sleep there for it. -/
theorem sleepOther_next (he : s.Enabled L cond e) {p : P} (hs : (s.next L c₀ cond e).state p = .SLEEPING)
    (hc : (s.next L c₀ cond e).chan p = some c₀) (hp : (s.next L c₀ cond e).pc p = .tableOff) :
    (s.state p = .SLEEPING ∧ s.chan p = some c₀ ∧ s.pc p = .tableOff) ∨ e = .sleepOther p c₀ := by
  cases e <;> simp [SleepSys.next, SleepSys.Enabled, apply_ite SleepSys.pc, apply_ite SleepSys.state,
      apply_ite SleepSys.chan] at he hs hc hp ⊢ <;>
    grind [tablePc, Pc.woken]

/-- Between having tested the condition false and being asleep: in the loop around `sleep`, or in `sleep`. -/
def SleepSys.Committed (s : SleepSys P V C) (p : P) : Prop :=
  s.pc p = .tested ∨ s.pc p = .wakeHold true ∨ s.pc p = .wakeDone true ∨ s.pc p = .gotTable ∨
    s.pc p = .dropped ∨ s.pc p = .chanSet ∨ s.pc p = .marked

/-- **No wakeup is lost.** Whatever the condition, the data and the interleaving, and whether or not `lk` is
    `ptable.lock`: when `lk` is free and the condition is true, no process is between having tested it false and
    being asleep, and none that called `sleep` for it is asleep on the channel. If nothing else sleeps on that
    channel, no process at all is asleep on it. -/
theorem sleep_loses_no_wakeup {v : V} {ls : List (SleepEvent P V C)} {s : SleepSys P V C}
    (h : run (sleepStep L c₀ cond) (SleepSys.init v) ls = some s) (hfree : s.lock L = none)
    (hc : cond s.data = true) (p : P) :
    ¬ s.Committed p ∧ ¬ (s.state p = .SLEEPING ∧ s.chan p = some c₀ ∧ s.pc p ≠ .tableOff) ∧
      ((∀ q, .sleepOther q c₀ ∉ ls) → ¬ (s.state p = .SLEEPING ∧ s.chan p = some c₀)) := by
  -- the invariant, and where those asleep for another reason come from
  obtain ⟨hinv, hother⟩ : s.Inv L c₀ cond ∧
      (s.state p = .SLEEPING ∧ s.chan p = some c₀ ∧ s.pc p = .tableOff → ∃ q, .sleepOther q c₀ ∈ ls) := by
    refine run_induct (I := fun ls s => s.Inv L c₀ cond ∧ (s.state p = .SLEEPING ∧ s.chan p = some c₀ ∧
      s.pc p = .tableOff → ∃ q, .sleepOther q c₀ ∈ ls)) ⟨.init v, by simp [SleepSys.init]⟩ ?_ h
    rintro ls t e u ⟨hi, ho⟩ hu
    obtain ⟨he, rfl⟩ := sleepStep_eq_some.mp hu
    refine ⟨hi.next he, fun ⟨hs, hch, hp⟩ => ?_⟩
    rcases sleepOther_next he hs hch hp with hbefore | rfl
    · obtain ⟨q, hq⟩ := ho hbefore
      exact ⟨q, List.mem_append_left _ hq⟩
    · exact ⟨p, by simp⟩
  -- nobody holds `lk`, so nobody is bound to sleep or believes the condition false
  have hbound : ¬ s.Bound p := fun hb => by
    obtain ⟨q, hq, -⟩ := hinv.unpaid p hb hc
    simp [hfree] at hq
  have hbel : ¬ (s.pc p).Believes L := fun hb => by simp [hinv.believes p hb] at hc
  have hasleep : ¬ (s.state p = .SLEEPING ∧ s.chan p = some c₀ ∧ s.pc p ≠ .tableOff) := by
    rintro ⟨hs, -, hp⟩
    rcases hinv.asleep p hs with hpc | hpc | hpc
    · exact hbound (.inr (.inr (.inl hpc)))
    · exact hbound (.inr (.inr (.inr ⟨hpc, hs⟩)))
    · exact hp hpc
  refine ⟨?_, hasleep, fun hnone ⟨hs, hch⟩ => ?_⟩
  · rintro (hp | hp | hp | hp | hp)
    · exact hbel (.inl hp)
    · exact hbel (.inr (.inr (.inl hp)))
    · exact hbel (.inr (.inr (.inr (.inl hp))))
    · exact hbel (.inr (.inl hp))
    · -- past the release of `lk`
      exact hbound (hp.imp_right (Or.imp_right .inl))
  · by_cases hp : s.pc p = .tableOff
    · obtain ⟨q, hq⟩ := hother ⟨hs, hch, hp⟩
      exact hnone q hq
    · exact hasleep ⟨hs, hch, hp⟩

end Machine

/-- A sleeper and a waker that comes between its test and its sleep, with `lk` a lock of their own. -/
def sleepRace : List (SleepEvent Bool Bool Unit) :=
  [.acquire false, .test false, .sleep false, .drop false, .acquire true, .change true true, .setChan false,
    .setState false, .sched false, .schedOut, .wake true, .wakeup1 true (), .wakeEnd true, .release true]

theorem sleep_loses_no_wakeup_race : ∃ s : SleepSys Bool Bool Unit,
    run (sleepStep .own () id) (SleepSys.init false) sleepRace = some s ∧ s.lock .own = none ∧ s.data = true ∧
      ¬ s.Committed false ∧ ¬ (s.state false = .SLEEPING ∧ s.chan false = some ()) := by
  obtain ⟨s, hs⟩ := Option.isSome_iff_exists.mp
    (show (run (sleepStep .own () id) (SleepSys.init false) sleepRace).isSome by decide +kernel)
  have hend : (run (sleepStep .own () id) (SleepSys.init false) sleepRace).map (fun s => (s.lock .own, s.data)) =
      some (none, true) := by decide +kernel
  rw [hs] at hend
  obtain ⟨hfree, hdata⟩ := Prod.mk.inj (Option.some.inj hend)
  have hrun := sleep_loses_no_wakeup hs hfree hdata false
  exact ⟨s, hs, hfree, hdata, hrun.1, hrun.2.2 (by simp [sleepRace])⟩

end Xv6
