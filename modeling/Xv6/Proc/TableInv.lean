import Xv6.Proc.Table

/-!
# `Proc.TableInv` — what holds of the process table in every state

A process that is RUNNING is the current process of one CPU. A slot that `fork` is filling in is an EMBRYO that
no other process touches, so `fork` can write to it without the lock. Whoever leaves the table leaves an empty
slot: `exit` closes the files and drops the directory, `wait` clears the parent, and a `fork` that fails has set
none of them yet. Pids are handed out in order.
-/

namespace Xv6

open Machine

variable {Cpu : Type} [DecidableEq Cpu]

/-! ## The invariant -/

/-- The slot that a fork in progress is filling in. -/
def Task.child : Task → Option ProcSlot
  | .forkStack np | .forkCopy np | .forkFile np _ | .forkCwd np | .forkReady np => some np
  | _ => none

/-- The same while the fork can still fail, before `np->parent = proc`. -/
def Task.bareChild : Task → Option ProcSlot
  | .forkStack np | .forkCopy np => some np
  | _ => none

/-- How many descriptors `exit` has closed. -/
def Task.closed : Task → Nat
  | .exitFile i => i
  | .exitCwd | .exitLock => NOFILE
  | _ => 0

theorem Task.child_of_bareChild {t : Task} {np : ProcSlot} (h : t.bareChild = some np) : t.child = some np := by
  cases t with
  | forkStack | forkCopy => exact h
  | _ => cases h

/-- Nothing is left in the slot of an earlier process. -/
def ProcSys.Bare (s : ProcSys Cpu) (p : ProcSlot) : Prop :=
  s.parent p = none ∧ s.cwd p = none ∧ ∀ fd, s.ofile p fd = none

/-- **The invariant of the table.** -/
structure ProcSys.Inv (s : ProcSys Cpu) : Prop where
  current : ∀ c p, s.cur c = some p → s.state p = .RUNNING
  running : ∀ p, s.state p = .RUNNING → ∃ c, s.cur c = some p
  oneCpu : ∀ c c' p, s.cur c = some p → s.cur c' = some p → c = c'
  idle : ∀ p, s.state p = .UNUSED ∨ s.state p = .EMBRYO ∨ s.state p = .ZOMBIE → s.task p = .user
  child : ∀ p np, (s.task p).child = some np → s.state np = .EMBRYO
  oneForker : ∀ p q np, (s.task p).child = some np → (s.task q).child = some np → p = q
  unused : ∀ p, s.state p = .UNUSED → s.Bare p
  bareChild : ∀ p np, (s.task p).bareChild = some np → s.Bare np
  closed : ∀ p fd, fd.val < (s.task p).closed → s.ofile p fd = none
  left : ∀ p, s.task p = .exitLock → s.cwd p = none
  zombie : ∀ p, s.state p = .ZOMBIE → s.cwd p = none ∧ ∀ fd, s.ofile p fd = none
  nextpid : s.nextpid = UInt32.ofNat (s.born + 1)
  pids : ∀ p, s.state p ≠ .UNUSED → s.pid p = UInt32.ofNat (s.serial p) ∧ s.serial p ≤ s.born
  serials : ∀ p q, s.state p ≠ .UNUSED → s.state q ≠ .UNUSED → s.serial p = s.serial q → p = q

namespace ProcSys.Inv

variable {e : ProcEvent Cpu} {s s' : ProcSys Cpu}

attribute [local simp] ProcSys.yield ProcSys.sleep ProcSys.wakeup1 ProcSys.sched Function.update_apply

/-! ### CPUs: a process gets RUNNING and current in one move and loses both in one move -/

theorem current_move (h : s.Inv) (hm : ProcMove e s s') (c : Cpu) (p : ProcSlot) (hc : s'.cur c = some p) :
    s'.state p = .RUNNING := by
  have hcur := h.current
  have hone := h.oneCpu
  -- `fork` writes the state of an EMBRYO only
  have hchild := h.child
  cases hm with
  | dispatch | yield | sleep | wakeup | kill | reap | alloc | forkFail | forkReady | exitLast =>
    simp at hc ⊢
    grind [Task.child]
  | _ => exact h.current c p hc

theorem running_move (h : s.Inv) (hm : ProcMove e s s') (p : ProcSlot) (hp : s'.state p = .RUNNING) :
    ∃ c, s'.cur c = some p := by
  have hrun := h.running
  have hcur := h.current
  have hone := h.oneCpu
  have hchild := h.child
  cases hm with
  | dispatch | yield | sleep | wakeup | kill | reap | alloc | forkFail | forkReady | exitLast =>
    simp at hp ⊢
    grind [Task.child]
  | _ => exact h.running p hp

theorem oneCpu_move (h : s.Inv) (hm : ProcMove e s s') (c c' : Cpu) (p : ProcSlot) (hc : s'.cur c = some p)
    (hc' : s'.cur c' = some p) : c = c' := by
  have hcur := h.current
  have hone := h.oneCpu
  cases hm with
  | dispatch | yield | sleep | exitLast =>
    simp at hc hc' ⊢
    grind
  | _ => exact h.oneCpu c c' p hc hc'

/-! ### Forks: the child is an EMBRYO of one forking process -/

theorem idle_move (h : s.Inv) (hm : ProcMove e s s') (p : ProcSlot)
    (hp : s'.state p = .UNUSED ∨ s'.state p = .EMBRYO ∨ s'.state p = .ZOMBIE) : s'.task p = .user := by
  have hidle := h.idle
  have hcur := h.current
  have hchild := h.child
  cases hm with
  | dispatch | yield | sleep | wakeup | kill | reap | alloc | forkFail | forkStack | forkCopy | forkFile
  | forkFiles | forkCwd | forkReady | exit | exitFile | exitFiles | exitCwd | exitLast =>
    simp at hp ⊢
    grind [Task.child]
  | _ => exact h.idle p hp

theorem child_move (h : s.Inv) (hm : ProcMove e s s') (p np : ProcSlot) (hp : (s'.task p).child = some np) :
    s'.state np = .EMBRYO := by
  have hchild := h.child
  have hcur := h.current
  -- when a fork ends, no other process was filling in that slot
  have hone := h.oneForker
  have hidle := h.idle
  cases hm with
  | dispatch | yield | sleep | wakeup | kill | reap | alloc | forkFail | forkStack | forkCopy | forkFile
  | forkFiles | forkCwd | forkReady | exit | exitFile | exitFiles | exitCwd | exitLast =>
    simp at hp ⊢
    grind [Task.child]
  | _ => exact h.child p np hp

theorem oneForker_move (h : s.Inv) (hm : ProcMove e s s') (p q np : ProcSlot)
    (hp : (s'.task p).child = some np) (hq : (s'.task q).child = some np) : p = q := by
  have hchild := h.child
  have hcur := h.current
  have hone := h.oneForker
  have hidle := h.idle
  cases hm with
  | alloc | forkFail | forkStack | forkCopy | forkFile | forkFiles | forkCwd | forkReady | exit | exitFile
  | exitFiles | exitCwd | exitLast =>
    simp at hp hq ⊢
    grind [Task.child]
  | _ => exact h.oneForker p q np hp hq

/-! ### Slots: whoever leaves the table leaves an empty slot -/

theorem unused_move (h : s.Inv) (hm : ProcMove e s s') (p : ProcSlot) (hp : s'.state p = .UNUSED) : s'.Bare p := by
  have hunused := h.unused
  have hcur := h.current
  have hchild := h.child
  -- the two ways to become UNUSED: a fork fails before it has set anything, a ZOMBIE is reaped
  have hbare := h.bareChild
  have hzombie := h.zombie
  have hidle := h.idle
  cases hm with
  | dispatch | yield | sleep | wakeup | kill | reap | setFile | chdir | alloc | forkFail | forkCopy | forkFile
  | forkCwd | forkReady | exitFile | exitCwd | exitLast =>
    simp [ProcSys.Bare] at hp ⊢
    grind [Task.child, Task.bareChild, ProcSys.Bare]
  | _ => exact h.unused p hp

theorem bareChild_move (h : s.Inv) (hm : ProcMove e s s') (p np : ProcSlot)
    (hp : (s'.task p).bareChild = some np) : s'.Bare np := by
  have hbare := h.bareChild
  have hunused := h.unused
  have hcur := h.current
  -- files and directory are set by a RUNNING process for itself or for its own child
  have hchild := h.child
  have hone := h.oneForker
  have hidle := h.idle
  have hof := fun q => @Task.child_of_bareChild (s.task q) np
  cases hm with
  | reap | setFile | chdir | alloc | forkFail | forkStack | forkCopy | forkFile | forkFiles | forkCwd
  | forkReady | exit | exitFile | exitFiles | exitCwd | exitLast =>
    simp [ProcSys.Bare] at hp ⊢
    grind [Task.child, Task.bareChild, ProcSys.Bare]
  | _ => exact h.bareChild p np hp

theorem closed_move (h : s.Inv) (hm : ProcMove e s s') (p : ProcSlot) (fd : Fd)
    (hp : fd.val < (s'.task p).closed) : s'.ofile p fd = none := by
  have hclosed := h.closed
  have hcur := h.current
  have hchild := h.child
  have hidle := h.idle
  cases hm with
  | setFile | alloc | forkFail | forkStack | forkCopy | forkFile | forkFiles | forkCwd | forkReady | exit
  | exitFile | exitFiles | exitCwd | exitLast =>
    simp at hp ⊢
    grind [Task.child, Task.closed]
  | _ => exact h.closed p fd hp

theorem left_move (h : s.Inv) (hm : ProcMove e s s') (p : ProcSlot) (hp : s'.task p = .exitLock) :
    s'.cwd p = none := by
  have hleft := h.left
  have hcur := h.current
  have hchild := h.child
  have hidle := h.idle
  cases hm with
  | chdir | alloc | forkFail | forkStack | forkCopy | forkFile | forkFiles | forkCwd | forkReady | exit
  | exitFile | exitFiles | exitCwd | exitLast =>
    simp at hp ⊢
    grind [Task.child]
  | _ => exact h.left p hp

theorem zombie_move (h : s.Inv) (hm : ProcMove e s s') (p : ProcSlot) (hp : s'.state p = .ZOMBIE) :
    s'.cwd p = none ∧ ∀ fd, s'.ofile p fd = none := by
  have hzombie := h.zombie
  have hleft := h.left
  have hclosed := h.closed
  have hcur := h.current
  have hchild := h.child
  cases hm with
  | dispatch | yield | sleep | wakeup | kill | reap | setFile | chdir | alloc | forkFail | forkFile | forkCwd
  | forkReady | exitFile | exitCwd | exitLast =>
    simp at hp ⊢
    grind [Task.child, Task.closed]
  | _ => exact h.zombie p hp

/-! ### Pids: the processes in the table have different numbers, and a pid is such a number -/

theorem nextpid_move (h : s.Inv) (hm : ProcMove e s s') : s'.nextpid = UInt32.ofNat (s'.born + 1) := by
  cases hm with
  | alloc c p np hc ht hnp =>
    show s.nextpid + 1 = UInt32.ofNat (s.born + 1 + 1)
    rw [h.nextpid, UInt32.ofNat_add (s.born + 1) 1]
    rfl
  | _ => exact h.nextpid

theorem pids_move (h : s.Inv) (hm : ProcMove e s s') (p : ProcSlot) (hp : s'.state p ≠ .UNUSED) :
    s'.pid p = UInt32.ofNat (s'.serial p) ∧ s'.serial p ≤ s'.born := by
  have hnext := h.nextpid
  have hpids := h.pids
  have hcur := h.current
  have hchild := h.child
  cases hm with
  | dispatch | yield | sleep | wakeup | kill | reap | alloc | forkFail | forkReady | exitLast =>
    simp only [ProcSys.yield, ProcSys.sleep, ProcSys.wakeup1, ProcSys.sched, Function.update_apply] at hp ⊢
    grind [Task.child]
  | _ => exact h.pids p hp

theorem serials_move (h : s.Inv) (hm : ProcMove e s s') (p q : ProcSlot) (hp : s'.state p ≠ .UNUSED)
    (hq : s'.state q ≠ .UNUSED) (hpq : s'.serial p = s'.serial q) : p = q := by
  have hserials := h.serials
  -- the number of a new process is above all others
  have hpids := fun r hr => (h.pids r hr).2
  have hcur := h.current
  have hchild := h.child
  cases hm with
  | dispatch | yield | sleep | wakeup | kill | reap | alloc | forkFail | forkReady | exitLast =>
    simp at hp hq hpq ⊢
    grind [Task.child]
  | _ => exact h.serials p q hp hq hpq

/-- Every move keeps the invariant. -/
theorem move (h : s.Inv) (hm : ProcMove e s s') : s'.Inv where
  current := h.current_move hm
  running := h.running_move hm
  oneCpu := h.oneCpu_move hm
  idle := h.idle_move hm
  child := h.child_move hm
  oneForker := h.oneForker_move hm
  unused := h.unused_move hm
  bareChild := h.bareChild_move hm
  closed := h.closed_move hm
  left := h.left_move hm
  zombie := h.zombie_move hm
  nextpid := h.nextpid_move hm
  pids := h.pids_move hm
  serials := h.serials_move hm

/-- And so does every step. -/
theorem step (h : s.Inv) (hs : procStep s e = some s') : s'.Inv := by
  have hmoves := procStep_moves hs
  clear hs
  induction hmoves with
  | refl => exact h
  | tail _ hm ih => exact ih.move hm

omit [DecidableEq Cpu] in
theorem boot (root : Nat) : (ProcSys.boot root : ProcSys Cpu).Inv := by
  constructor <;>
    simp [ProcSys.boot, ProcSys.Bare, Function.update_apply, Task.child, Task.bareChild, Task.closed] <;> grind

end ProcSys.Inv

/-- The invariant holds in every state of every run. -/
theorem procTable_inv {root : Nat} {es : List (ProcEvent Cpu)} {s : ProcSys Cpu}
    (h : run procStep (ProcSys.boot root) es = some s) : s.Inv :=
  proc_invariant (.boot root) (fun _ _ _ hi hm => hi.move hm) h

/-! ## The result -/

theorem pid_inj {a b : Nat} (ha : a < 2 ^ 31) (hb : b < 2 ^ 31)
    (h : UInt32.ofNat a = UInt32.ofNat b) : a = b := by
  have h := congrArg UInt32.toNat h
  simp only [UInt32.toNat_ofNat'] at h
  omega

/-- **The process table is sound** for any number of CPUs and any interleaving. A RUNNING process is current on
    exactly one CPU, and whatever is current on a CPU is RUNNING. With fewer than 2³¹ allocations the pids in the
    table are distinct. A free slot has no parent, no directory and no files. This holds at every step of the
    machine, so whenever `ptable.lock` is free. -/
theorem procTable_safe {root : Nat} {es : List (ProcEvent Cpu)} {s : ProcSys Cpu}
    (h : run procStep (ProcSys.boot root) es = some s) :
    (∀ p, s.state p = .RUNNING → ∃! c, s.cur c = some p) ∧
      (∀ c p, s.cur c = some p → s.state p = .RUNNING) ∧
      (s.born < 2 ^ 31 →
        ∀ p q, s.state p ≠ .UNUSED → s.state q ≠ .UNUSED → s.pid p = s.pid q → p = q) ∧
      (∀ p, s.state p = .UNUSED → s.parent p = none ∧ s.cwd p = none ∧ ∀ fd, s.ofile p fd = none) := by
  have hinv := procTable_inv h
  refine ⟨fun p hp => ?_, hinv.current, fun hborn p q hp hq hpid => ?_, hinv.unused⟩
  · obtain ⟨c, hc⟩ := hinv.running p hp
    exact ⟨c, hc, fun c' hc' => hinv.oneCpu c' c p hc' hc⟩
  · obtain ⟨hpp, hps⟩ := hinv.pids p hp
    obtain ⟨hqp, hqs⟩ := hinv.pids q hq
    refine hinv.serials p q hp hq (pid_inj ?_ ?_ ?_)
    · exact lt_of_le_of_lt hps hborn
    · exact lt_of_le_of_lt hqs hborn
    · rw [← hpp, ← hqp, hpid]

/-- Init forks with a file open, and a second CPU runs the child. -/
def forkTwoCpus : List (ProcEvent Bool) :=
  [.schedAcquire false, .schedScan false, .resume false, .setFile false 0 (some 5), .fork false] ++
    List.replicate 21 (.forkNext false true) ++ [.schedAcquire true, .schedScan true, .schedScan true, .resume true]

theorem procTable_safe_two : ∃ s : ProcSys Bool,
    run procStep (ProcSys.boot 0) forkTwoCpus = some s ∧ s.cur true = some 1 ∧ s.lock = none ∧
      (∃! c, s.cur c = some 1) ∧ s.pid 0 ≠ s.pid 1 := by
  obtain ⟨s, hs⟩ := Option.isSome_iff_exists.mp
    (show (run procStep (ProcSys.boot 0) forkTwoCpus).isSome by decide +kernel)
  have hend : (run procStep (ProcSys.boot 0) forkTwoCpus).map
      (fun s => (s.cur true, s.lock, s.state 0, s.state 1, s.born)) =
      some (some 1, none, .RUNNING, .RUNNING, 2) := by decide +kernel
  rw [hs] at hend
  simp only [Option.map_some, Option.some.injEq, Prod.mk.injEq] at hend
  obtain ⟨hcur, hlock, hst0, hst1, hborn⟩ := hend
  obtain ⟨hone, -, hpid, -⟩ := procTable_safe hs
  refine ⟨s, hs, hcur, hlock, hone 1 hst1, fun heq => ?_⟩
  have := hpid (by rw [hborn]; decide) 0 1 (by rw [hst0]; decide) (by rw [hst1]; decide) heq
  exact absurd this (by decide)

end Xv6
