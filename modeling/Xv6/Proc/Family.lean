import Xv6.Proc.TableInv

/-!
# `Proc.Family` — `fork`, `exit` and `wait`: parents, zombies and who reaps them

Every process but init has a parent that is alive: when a process exits, its children become children of init
in the same section, and init never exits. A zombie's parent has been woken if it slept in `wait`. So `wait`
returns each process once, to the process that forked it or, if that one exited first, to init.
-/

namespace Xv6

open Machine

/-! ## History -/

/-- **What the log of a run looks like**, latest first: `wait` returns the pid of a process that exited before,
    which no `wait` returned before, to its creator or, the creator having exited, to init (process 1). -/
def LogOk (creator : Nat → Nat) : List ProcLog → Prop
  | [] => True
  | .exited _ :: l => LogOk creator l
  | .reaped k pid w :: l =>
    LogOk creator l ∧ pid = UInt32.ofNat k ∧ .exited k ∈ l ∧ (∀ pid' w', .reaped k pid' w' ∉ l) ∧
      (w = creator k ∨ w = 1 ∧ .exited (creator k) ∈ l)

/-- Creators of new processes do not matter to the log. -/
theorem LogOk.congr {f g : Nat → Nat} {l : List ProcLog} (h : LogOk f l)
    (hfg : ∀ k pid w, .reaped k pid w ∈ l → g k = f k) : LogOk g l := by
  induction l with
  | nil => trivial
  | cons x l ih =>
    have hl : ∀ k pid w, .reaped k pid w ∈ l → g k = f k := fun k pid w hk => hfg k pid w (List.mem_cons_of_mem _ hk)
    cases x with
    | exited k => exact ih h hl
    | reaped k pid w =>
      obtain ⟨h, hpid, hex, hnew, hw⟩ := h
      refine ⟨ih h hl, hpid, hex, hnew, ?_⟩
      rw [hfg k pid w List.mem_cons_self]
      exact hw

/-- What it says of one `wait`. -/
theorem LogOk.reaped {f : Nat → Nat} {post pre : List ProcLog} {k w : Nat} {pid : UInt32}
    (h : LogOk f (post ++ .reaped k pid w :: pre)) :
    pid = UInt32.ofNat k ∧ .exited k ∈ pre ∧ (∀ pid' w', .reaped k pid' w' ∉ pre) ∧
      (w = f k ∨ w = 1 ∧ .exited (f k) ∈ pre) := by
  induction post with
  | nil => exact h.2
  | cons x post ih =>
    cases x with
    | exited k' => exact ih h
    | reaped k' pid' w' => exact ih h.1

/-! ## The invariant -/

variable {Cpu : Type} [DecidableEq Cpu]

/-- Neither free, nor being set up, nor dead. -/
def ProcSys.Live (s : ProcSys Cpu) (p : ProcSlot) : Prop :=
  s.state p = .RUNNABLE ∨ s.state p = .RUNNING ∨ s.state p = .SLEEPING

/-- In `exit`. -/
def Task.exiting : Task → Bool
  | .exitFile _ | .exitCwd | .exitLock => true
  | _ => false

/-- **The invariant of the family tree.** -/
structure ProcSys.Kin (s : ProcSys Cpu) : Prop where
  initLive : s.Live initproc
  initTask : (s.task initproc).exiting = false
  initParent : s.parent initproc = none
  initSerial : s.serial initproc = 1
  parentLive : ∀ p q, s.parent p = some q → s.Live q
  noSelf : ∀ p, s.parent p ≠ some p
  forkParent : ∀ p np, (s.task p).child = some np → (s.task p).bareChild = none → s.parent np = some p
  forkCreator : ∀ p np, (s.task p).child = some np → s.creator (s.serial np) = s.serial p
  hasParent : ∀ p, p ≠ initproc → s.state p ≠ .UNUSED → s.state p ≠ .EMBRYO → s.parent p ≠ none
  waitChan : ∀ p, s.state p = .SLEEPING → s.ctx p = .wait → s.chan p = some (.proc p)
  waiting : ∀ p q, s.state p = .SLEEPING → s.ctx p = .wait → s.parent q = some p → s.state q ≠ .ZOMBIE
  creators : ∀ p q, s.parent p = some q → s.creator (s.serial p) = s.serial q ∨
    q = initproc ∧ .exited (s.creator (s.serial p)) ∈ s.log
  exited : ∀ p, s.state p = .ZOMBIE → .exited (s.serial p) ∈ s.log
  gone : ∀ k pid w, .reaped k pid w ∈ s.log → k ≤ s.born ∧ ∀ p, s.state p ≠ .UNUSED → s.serial p ≠ k
  logOk : LogOk s.creator s.log

namespace ProcSys.Kin

variable {e : ProcEvent Cpu} {s s' : ProcSys Cpu}

attribute [local simp] ProcSys.yield ProcSys.sleep ProcSys.wakeup1 ProcSys.sched Function.update_apply

/-! ### Init -/

theorem initLive_move (h : s.Kin) (hi : s.Inv) (hm : ProcMove e s s') : s'.Live initproc := by
  have hlive := h.initLive
  have htask := h.initTask
  have hchild := hi.child
  have hpar := h.initParent
  cases hm with
  | dispatch | yield | sleep | wakeup | kill | reap | alloc | forkFail | forkReady | exitLast =>
    simp [ProcSys.Live] at hlive ⊢
    grind [Task.child, Task.exiting]
  | _ => exact hlive

theorem initTask_move (h : s.Kin) (hm : ProcMove e s s') : (s'.task initproc).exiting = false := by
  have hlive := h.initLive
  have htask := h.initTask
  cases hm with
  | alloc | forkFail | forkStack | forkCopy | forkFile | forkFiles | forkCwd | forkReady | exit | exitFile
  | exitFiles | exitCwd | exitLast =>
    simp [ProcSys.Live] at hlive ⊢
    grind [Task.exiting]
  | _ => exact htask

theorem initParent_move (h : s.Kin) (hi : s.Inv) (hm : ProcMove e s s') : s'.parent initproc = none := by
  have hlive := h.initLive
  have hpar := h.initParent
  have hchild := hi.child
  cases hm with
  | reap | forkCopy | exitLast =>
    simp [ProcSys.Live] at hlive ⊢
    grind [Task.child]
  | _ => exact hpar

theorem initSerial_move (h : s.Kin) (hm : ProcMove e s s') : s'.serial initproc = 1 := by
  have hlive := h.initLive
  have hser := h.initSerial
  cases hm with
  | alloc =>
    simp [ProcSys.Live] at hlive ⊢
    grind
  | _ => exact hser

/-! ### Parents -/

theorem parentLive_move (h : s.Kin) (hi : s.Inv) (hm : ProcMove e s s') (p q : ProcSlot)
    (hq : s'.parent p = some q) : s'.Live q := by
  have hlive := h.parentLive
  have hinit := h.initLive
  have htask := h.initTask
  have hchild := hi.child
  have hcur := hi.current
  cases hm with
  | dispatch | yield | sleep | wakeup | kill | reap | alloc | forkFail | forkCopy | forkReady | exitLast =>
    simp [ProcSys.Live] at hlive hinit hq ⊢
    grind [Task.child, Task.exiting]
  | _ => exact hlive p q hq

theorem noSelf_move (h : s.Kin) (hi : s.Inv) (hm : ProcMove e s s') (p : ProcSlot) : s'.parent p ≠ some p := by
  have hself := h.noSelf
  have hpar := h.initParent
  have hchild := hi.child
  have hcur := hi.current
  cases hm with
  | reap | forkCopy | exitLast =>
    simp
    grind [Task.child]
  | _ => exact hself p

theorem forkParent_move (h : s.Kin) (hi : s.Inv) (hm : ProcMove e s s') (p np : ProcSlot)
    (hc : (s'.task p).child = some np) (hb : (s'.task p).bareChild = none) : s'.parent np = some p := by
  have hfork := h.forkParent
  have hchild := hi.child
  have hone := hi.oneForker
  have hcur := hi.current
  have hidle := hi.idle
  cases hm with
  | reap | alloc | forkFail | forkStack | forkCopy | forkFile | forkFiles | forkCwd | forkReady | exit
  | exitFile | exitFiles | exitCwd | exitLast =>
    simp at hc hb ⊢
    grind [Task.child, Task.bareChild]
  | _ => exact hfork p np hc hb

theorem hasParent_move (h : s.Kin) (hi : s.Inv) (hm : ProcMove e s s') (p : ProcSlot) (hp : p ≠ initproc)
    (hu : s'.state p ≠ .UNUSED) (he : s'.state p ≠ .EMBRYO) : s'.parent p ≠ none := by
  have hhas := h.hasParent
  have hchild := hi.child
  have hcur := hi.current
  -- the last step of `fork` makes the child RUNNABLE with its parent set
  have hfork := h.forkParent
  cases hm with
  | dispatch | yield | sleep | wakeup | kill | reap | alloc | forkFail | forkCopy | forkReady | exitLast =>
    simp at hu he ⊢
    grind [Task.child, Task.bareChild]
  | _ => exact hhas p hp hu he

/-! ### Sleepers in `wait` -/

theorem waitChan_move (h : s.Kin) (hi : s.Inv) (hm : ProcMove e s s') (p : ProcSlot)
    (hp : s'.state p = .SLEEPING) (hw : s'.ctx p = .wait) : s'.chan p = some (.proc p) := by
  have hchan := h.waitChan
  have hcur := hi.current
  cases hm with
  | dispatch | tidy | yield | sleep | wakeup | kill | reap | alloc | forkFail | forkReady | exitLast =>
    simp at hp hw ⊢
    grind
  | _ => exact hchan p hp hw

theorem waiting_move (h : s.Kin) (hi : s.Inv) (hm : ProcMove e s s') (p q : ProcSlot)
    (hp : s'.state p = .SLEEPING) (hw : s'.ctx p = .wait) (hq : s'.parent q = some p) : s'.state q ≠ .ZOMBIE := by
  have hwait := h.waiting
  have hchan := h.waitChan
  have hself := h.noSelf
  have hchild := hi.child
  have hcur := hi.current
  cases hm with
  | dispatch | yield | sleep | wakeup | kill | reap | alloc | forkFail | forkCopy | forkReady | exitLast =>
    simp at hp hw hq ⊢
    grind [Task.child]
  | _ => exact hwait p q hp hw hq

/-! ### History -/

theorem forkCreator_move (h : s.Kin) (hi : s.Inv) (hm : ProcMove e s s') (p np : ProcSlot)
    (hc : (s'.task p).child = some np) : s'.creator (s'.serial np) = s'.serial p := by
  have hfork := h.forkCreator
  have hpids := fun r hr => (hi.pids r hr).2
  have hchild := hi.child
  have hcur := hi.current
  have hidle := hi.idle
  cases hm with
  | alloc | forkFail | forkStack | forkCopy | forkFile | forkFiles | forkCwd | forkReady | exit | exitFile
  | exitFiles | exitCwd | exitLast =>
    simp at hc ⊢
    grind [Task.child]
  | _ => exact hfork p np hc

theorem creators_move (h : s.Kin) (hi : s.Inv) (hm : ProcMove e s s') (p q : ProcSlot)
    (hq : s'.parent p = some q) : s'.creator (s'.serial p) = s'.serial q ∨
      q = initproc ∧ .exited (s'.creator (s'.serial p)) ∈ s'.log := by
  have hcreators := h.creators
  have hfork := h.forkCreator
  have htask := h.initTask
  -- a slot with a parent is in use, and so is its parent: neither changes its number
  have hbare := fun r hr => (hi.unused r hr).1
  have hlive := h.parentLive
  have hpids := fun r hr => (hi.pids r hr).2
  have hchild := hi.child
  cases hm with
  | reap | alloc | forkCopy | exitLast =>
    simp [ProcSys.Live] at hlive hq ⊢
    grind [Task.child, Task.exiting]
  | _ => exact hcreators p q hq

theorem exited_move (h : s.Kin) (hi : s.Inv) (hm : ProcMove e s s') (p : ProcSlot) (hp : s'.state p = .ZOMBIE) :
    .exited (s'.serial p) ∈ s'.log := by
  have hex := h.exited
  have hchild := hi.child
  have hcur := hi.current
  cases hm with
  | dispatch | yield | sleep | wakeup | kill | reap | alloc | forkFail | forkReady | exitLast =>
    simp at hp ⊢
    grind [Task.child]
  | _ => exact hex p hp

theorem gone_move (h : s.Kin) (hi : s.Inv) (hm : ProcMove e s s') (k : Nat) (pid : UInt32) (w : Nat)
    (hk : .reaped k pid w ∈ s'.log) : k ≤ s'.born ∧ ∀ p, s'.state p ≠ .UNUSED → s'.serial p ≠ k := by
  have hgone := h.gone
  have hpids := fun r hr => (hi.pids r hr).2
  have hserials := hi.serials
  have hchild := hi.child
  have hcur := hi.current
  cases hm with
  | dispatch | yield | sleep | wakeup | kill | reap | alloc | forkFail | forkReady | exitLast =>
    simp at hk ⊢
    grind [Task.child]
  | _ => exact hgone k pid w hk

theorem logOk_move (h : s.Kin) (hi : s.Inv) (hm : ProcMove e s s') : LogOk s'.creator s'.log := by
  cases hm with
  | alloc c p np hc ht hnp =>
    refine h.logOk.congr fun k pid w hk => ?_
    have hle := (h.gone k pid w hk).1
    exact Function.update_of_ne (by omega) _ _
  | reap c p q hc hq hz =>
    have hused : s.state q ≠ .UNUSED := by simp [hz]
    refine ⟨h.logOk, (hi.pids q hused).1, h.exited q hz, fun pid w hk => ?_, ?_⟩
    · exact (h.gone _ pid w hk).2 q hused rfl
    · rcases h.creators q p hq with hcr | ⟨rfl, hex⟩
      · exact .inl hcr.symm
      · exact .inr ⟨h.initSerial, hex⟩
  | _ => exact h.logOk

/-- Every move keeps the invariant. -/
theorem move (h : s.Kin) (hi : s.Inv) (hm : ProcMove e s s') : s'.Kin where
  initLive := h.initLive_move hi hm
  initTask := h.initTask_move hm
  initParent := h.initParent_move hi hm
  initSerial := h.initSerial_move hm
  parentLive := h.parentLive_move hi hm
  noSelf := h.noSelf_move hi hm
  forkParent := h.forkParent_move hi hm
  forkCreator := h.forkCreator_move hi hm
  hasParent := h.hasParent_move hi hm
  waitChan := h.waitChan_move hi hm
  waiting := h.waiting_move hi hm
  creators := h.creators_move hi hm
  exited := h.exited_move hi hm
  gone := h.gone_move hi hm
  logOk := h.logOk_move hi hm

omit [DecidableEq Cpu] in
theorem boot (root : Nat) : (ProcSys.boot root : ProcSys Cpu).Kin := by
  constructor <;> simp [ProcSys.boot, ProcSys.Live, Function.update_apply, Task.child, Task.exiting, LogOk] <;> grind

end ProcSys.Kin

/-- Both invariants hold in every state of every run. -/
theorem procTable_kin {root : Nat} {es : List (ProcEvent Cpu)} {s : ProcSys Cpu}
    (h : run procStep (ProcSys.boot root) es = some s) : s.Inv ∧ s.Kin :=
  proc_invariant (I := fun s => s.Inv ∧ s.Kin) ⟨.boot root, .boot root⟩
    (fun _ _ _ h hm => ⟨h.1.move hm, h.2.move h.1 hm⟩) h

/-! ## The result -/

/-- **The protocol of `exit` and `wait`.** In every state of every run, so whenever `ptable.lock` is free: every
    process but init that can run, sleeps or is a zombie has a parent that is alive; nobody sleeps in `wait` with
    a zombie child. Whenever `wait` returned the pid of process `k`, `k` had exited, no `wait` had returned `k`
    before, and the caller was the process that forked `k` or, that one having exited, init; with fewer than 2³¹
    allocations no `wait` had returned that pid before. -/
theorem exit_wait_protocol {root : Nat} {es : List (ProcEvent Cpu)} {s : ProcSys Cpu}
    (h : run procStep (ProcSys.boot root) es = some s) :
    (∀ p, p ≠ initproc → s.Live p ∨ s.state p = .ZOMBIE → ∃ q, s.parent p = some q ∧ s.Live q) ∧
      (∀ p q, s.state p = .SLEEPING → s.ctx p = .wait → s.parent q = some p → s.state q ≠ .ZOMBIE) ∧
      ∀ post k pid w pre, s.log = post ++ .reaped k pid w :: pre →
        .exited k ∈ pre ∧ (∀ pid' w', .reaped k pid' w' ∉ pre) ∧
        (w = s.creator k ∨ w = s.serial initproc ∧ .exited (s.creator k) ∈ pre) ∧
        (s.born < 2 ^ 31 → ∀ k' w', .reaped k' pid w' ∉ pre) := by
  obtain ⟨hi, hk⟩ := procTable_kin h
  refine ⟨fun p hp hst => ?_, hk.waiting, fun post k pid w pre hlog => ?_⟩
  · have hne : s.parent p ≠ none := by
      refine hk.hasParent p hp ?_ ?_ <;> rcases hst with (hst | hst | hst) | hst <;> simp [hst]
    obtain ⟨q, hq⟩ := Option.ne_none_iff_exists'.mp hne
    exact ⟨q, hq, hk.parentLive p q hq⟩
  · have hok := hk.logOk
    rw [hlog] at hok
    obtain ⟨hpid, hex, hnew, hw⟩ := hok.reaped
    refine ⟨hex, hnew, by rwa [hk.initSerial], fun hborn k' w' hk' => ?_⟩
    -- the other `wait` would be of a process with the same pid, so of the same process
    obtain ⟨mid, pre', rfl⟩ := List.append_of_mem hk'
    have hsame : k' = k := by
      have hok' : LogOk s.creator ((post ++ .reaped k pid w :: mid) ++ .reaped k' pid w' :: pre') := by
        simpa using hok
      have hle := (hk.gone k pid w (by simp [hlog])).1
      have hle' := (hk.gone k' pid w' (by simp [hlog])).1
      exact pid_inj (by omega) (by omega) (hok'.reaped.1.symm.trans hpid)
    exact hnew pid w' (hsame ▸ hk')

/-- Init forks, the child exits on the second CPU, and init waits for it. -/
def forkExitWait : List (ProcEvent Bool) :=
  forkTwoCpus ++ [.exit true] ++ List.replicate 19 (.exitNext true) ++ List.replicate 62 (.schedScan true) ++
    [.schedRelease true, .wait false]

theorem exit_wait_protocol_once : ∃ s : ProcSys Bool,
    run procStep (ProcSys.boot 0) forkExitWait = some s ∧ s.log = [.reaped 2 2 1, .exited 2] ∧
      (1 = s.creator 2 ∨ 1 = s.serial initproc ∧ .exited (s.creator 2) ∈ [ProcLog.exited 2]) := by
  obtain ⟨s, hs⟩ := Option.isSome_iff_exists.mp
    (show (run procStep (ProcSys.boot 0) forkExitWait).isSome by decide +kernel)
  have hend : (run procStep (ProcSys.boot 0) forkExitWait).map ProcSys.log =
      some [.reaped 2 2 1, .exited 2] := by decide +kernel
  rw [hs] at hend
  have hlog : s.log = [.reaped 2 2 1, .exited 2] := Option.some.inj hend
  exact ⟨s, hs, hlog, ((exit_wait_protocol hs).2.2 [] 2 2 1 [.exited 2] hlog).2.2.1⟩

end Xv6
