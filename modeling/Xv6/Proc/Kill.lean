import Xv6.Proc.TableInv

/-!
# `Proc.Kill` — whom `kill` hits (`kernel/proc.c`)

`kill` marks the first slot with the given pid, in use or not. A free slot keeps what it is marked with:
`allocproc` does not clear `killed`. So a process can be born killed, in two ways: `kill` finds a free slot, whose
pid is 0 or left over from a `fork` that failed, or `kill` hits a process that is being set up and `fork` then
fails. Apart from these, a process is marked only if a `kill` named its pid or it took a fatal trap.
-/

namespace Xv6

open Machine

variable {Cpu : Type} [DecidableEq Cpu]

/-! ## The property -/

/-- **Only targets are marked**: a process that is marked was the target of a `kill` or took a fatal trap since it
    was allocated, and no free slot is marked. -/
def ProcSys.KillOk (s : ProcSys Cpu) : Prop :=
  (∀ p, s.state p ≠ .UNUSED → s.killed p = true → s.hit p = true) ∧
    ∀ p, s.state p = .UNUSED → s.killed p = false

/-- **The condition.** The first slot with the pid that `kill` is given is in use; a `fork` that fails gives back a
    slot that is not marked. -/
def KillGood (s : ProcSys Cpu) : ProcEvent Cpu → Prop
  | .kill _ pid => ∀ p, firstSlot (fun q => s.pid q = pid) = some p → s.state p ≠ .UNUSED
  | .forkNext c false => ∀ p np, s.cur c = some p → (s.task p).bareChild = some np → s.killed np = false
  | _ => True

instance (s : ProcSys Cpu) (e : ProcEvent Cpu) : Decidable (KillGood s e) := by
  cases e with
  | forkNext c ok => cases ok <;> unfold KillGood <;> infer_instance
  | _ => unfold KillGood; infer_instance

variable {e : ProcEvent Cpu} {s s' : ProcSys Cpu}

attribute [local simp] ProcSys.yield ProcSys.sleep ProcSys.wakeup1 ProcSys.sched Function.update_apply

/-- A move under the condition keeps the property. -/
theorem ProcSys.KillOk.move (h : s.KillOk) (hi : s.Inv) (hg : KillGood s e) (hm : ProcMove e s s') :
    s'.KillOk := by
  obtain ⟨hhit, hfree⟩ := h
  have hcur := hi.current
  have hchild := hi.child
  cases hm with
  | kill c pid he =>
    subst he
    constructor
    · intro p hp hk
      by_cases hfirst : firstSlot (fun q => s.pid q = pid) = some p
      · -- the target is in use and has that pid
        have hpid : s.pid p = pid := of_decide_eq_true (firstSlot_some hfirst)
        simp [hg p hfirst, hpid]
      · simp only [hfirst, false_and, if_false] at hp hk
        simp [hhit p hp hk]
    · intro p hp
      by_cases hfirst : firstSlot (fun q => s.pid q = pid) = some p
      · have hused := hg p hfirst
        simp only [hfirst, true_and] at hp
        split_ifs at hp
        exact absurd hp hused
      · simp only [hfirst, false_and, if_false] at hp ⊢
        exact hfree p hp
  | forkFail c p np hc he ht =>
    subst he
    have hbare : (s.task p).bareChild = some np := by rcases ht with ht | ht <;> simp [ht, Task.bareChild]
    have hclean := hg p np hc hbare
    constructor <;> intro q hq <;> simp at hq ⊢ <;> grind
  | _ => constructor <;> intro q hq <;> simp at hq ⊢ <;> grind [Task.child]

/-- The moves of an event that is neither a `kill` nor a failure. -/
theorem ProcSys.KillOk.moves (h : s.KillOk) (hi : s.Inv) (hm : Relation.ReflTransGen (ProcMove e) s s')
    (hg : ∀ t, KillGood t e) : s'.KillOk := by
  suffices hboth : s'.Inv ∧ s'.KillOk from hboth.2
  induction hm with
  | refl => exact ⟨hi, h⟩
  | tail _ hm ih => exact ⟨ih.1.move hm, ih.2.move ih.1 (hg _) hm⟩

/-- A step under the condition keeps the property. -/
theorem ProcSys.KillOk.step (h : s.KillOk) (hi : s.Inv) (hg : KillGood s e) (hs : procStep s e = some s') :
    s'.KillOk := by
  cases e with
  | kill c pid =>
    simp only [procStep, Option.ite_none_right_eq_some, Option.some.injEq] at hs
    obtain ⟨-, rfl⟩ := hs
    rw [ProcSys.kill_eq]
    exact h.move hi hg (.kill c pid rfl)
  | forkNext c ok =>
    simp only [procStep, Option.bind_eq_some_iff] at hs
    obtain ⟨p, hp, hs⟩ := hs
    exact h.move hi hg (forkNext_move (ProcSys.running_eq_some hp) hs)
  | _ => exact h.moves hi (procStep_moves hs) fun _ => trivial

/-- **The condition is needed**: a step that keeps the property meets it. -/
theorem ProcSys.KillOk.good (h : s'.KillOk) (hi : s.Inv) (hs : procStep s e = some s') : KillGood s e := by
  cases e with
  | kill c pid =>
    simp only [procStep, Option.ite_none_right_eq_some, Option.some.injEq] at hs
    obtain ⟨-, rfl⟩ := hs
    rw [ProcSys.kill_eq] at h
    intro p hfirst hp
    have hk := h.2 p (by simp [hp])
    simp [hfirst] at hk
  | forkNext c ok =>
    cases ok with
    | true => trivial
    | false =>
      simp only [procStep, Option.bind_eq_some_iff] at hs
      obtain ⟨p, hp, hs⟩ := hs
      intro p' np hc hb
      obtain rfl : p = p' := by simpa [ProcSys.running_eq_some hp] using hc
      have hne : np ≠ p := by
        rintro rfl
        have hemb := hi.child _ _ (Task.child_of_bareChild hb)
        simp [hi.current c np hc] at hemb
      -- the slot is given back as it is
      cases ht : s.task p with
      | forkStack np' | forkCopy np' =>
        rw [ht] at hb
        cases hb
        simp only [ProcSys.forkNext, ht] at hs
        cases hs
        exact h.2 np (by simp)
      | _ => simp [ht, Task.bareChild] at hb
  | _ => trivial

omit [DecidableEq Cpu] in
theorem ProcSys.kill_eq_zero {pid : UInt32} (h : (s.kill pid).1 = 0) :
    ∃ p, firstSlot (fun q => s.pid q = pid) = some p := by
  rw [ProcSys.kill] at h
  split at h
  · cases h
  · rename_i p hp
    exact ⟨p, hp⟩

/-! ## The result -/

/-- **Whom `kill` hits.** In a run whose steps all meet the condition, only targets of `kill` and processes that took
    a fatal trap are marked, no free slot is, and `kill` returns 0 only if a process with that pid exists. In any
    state with that property, the steps that keep it are those that meet the condition. -/
theorem kill_hits_target {root : Nat} {es : List (ProcEvent Cpu)} {s : ProcSys Cpu}
    (h : run procStep (ProcSys.boot root) es = some s) :
    (Along procStep KillGood (ProcSys.boot root) es → s.KillOk ∧
      ∀ before c pid after t, es = before ++ .kill c pid :: after →
        run procStep (ProcSys.boot root) before = some t → (t.kill pid).1 = 0 →
        ∃ p, t.state p ≠ .UNUSED ∧ t.pid p = pid) ∧
    (s.KillOk → ∀ e s', procStep s e = some s' → (s'.KillOk ↔ KillGood s e)) := by
  refine ⟨fun hgood => ⟨?_, ?_⟩, fun hok e s' hs => ?_⟩
  · -- the invariant of the table holds along with the property
    suffices hboth : s.Inv ∧ s.KillOk from hboth.2
    refine run_induct_along (I := fun _ s => s.Inv ∧ s.KillOk) ⟨.boot root, ?_⟩ ?_ hgood h
    · exact ⟨fun p _ hk => absurd hk (by simp [ProcSys.boot]), fun _ _ => rfl⟩
    · intro _ t e u ht hg hu
      exact ⟨ht.1.step hu, ht.2.step ht.1 hg hu⟩
  · intro before c pid after t hes ht hzero
    obtain ⟨p, hp⟩ := ProcSys.kill_eq_zero hzero
    exact ⟨p, hgood before _ after t hes ht p hp, of_decide_eq_true (firstSlot_some hp)⟩
  · have hi := procTable_inv h
    exact ⟨fun hok' => hok'.good hi hs, fun hg => hok.step hi hg hs⟩

/-- Init forks and kills the child that has just been set up. -/
def forkKill : List (ProcEvent Bool) := forkTwoCpus ++ [.kill false 2]

theorem kill_hits_target_child : ∃ s : ProcSys Bool,
    run procStep (ProcSys.boot 0) forkKill = some s ∧ s.killed 1 = true ∧ s.KillOk := by
  have hrun : (run procStep (ProcSys.boot 0) forkKill).map (fun s => s.killed 1) = some true := by decide +kernel
  obtain ⟨s, hs, hkilled⟩ := Option.map_eq_some_iff.mp hrun
  exact ⟨s, hs, hkilled, ((kill_hits_target hs).1 (.of_check (by decide +kernel))).1⟩

/-- **A process is born killed.** At boot every free slot has pid 0. Init calls `kill(0)`, which returns 0 although
    there is no such process, and then forks: the child, pid 2, is marked, and nobody named it. -/
theorem kill_marks_newborn : ∃ s : ProcSys (Fin 1),
    run procStep (ProcSys.boot 0) ([.schedAcquire 0, .schedScan 0, .resume 0, .kill 0 0, .fork 0] ++
      List.replicate 21 (.forkNext 0 true)) = some s ∧
    s.state 1 = .RUNNABLE ∧ s.pid 1 = 2 ∧ s.killed 1 = true ∧ s.hit 1 = false := by
  have hrun : ((run procStep (ProcSys.boot 0 : ProcSys (Fin 1)) ([.schedAcquire 0, .schedScan 0, .resume 0,
      .kill 0 0, .fork 0] ++ List.replicate 21 (.forkNext 0 true))).map
      fun s => (s.state 1, s.pid 1, s.killed 1, s.hit 1)) = some (.RUNNABLE, 2, true, false) := by decide +kernel
  obtain ⟨s, hs, hend⟩ := Option.map_eq_some_iff.mp hrun
  simp only [Prod.mk.injEq] at hend
  exact ⟨s, hs, hend⟩

end Xv6
