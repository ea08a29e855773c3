import Mathlib.Data.List.Induction

/-!
# `Lib.Machine` — runs of a machine whose events say what happens next

A machine is a partial function `step : σ → ℓ → Option σ`: the event names who moves and how, and `none` says
that it cannot happen in this state. All choices are in the events, so a run is a list of them and can be
executed; a statement about every run is a statement about every interleaving.

## Contents
- **Runs.** `run`, split at the last event by `run_concat`.
- **Invariants.** `run_induct` for facts about the events so far and the state, `run_invariant` for the state.
- **Conditions.** `Along`: every step of a run meets a condition on the state before it; `run_induct_along`, and
  `checkAlong` for a given run.
-/

namespace Machine

variable {σ ℓ : Type} {step : σ → ℓ → Option σ} {s t u : σ} {a : ℓ} {ls : List ℓ}

/-- The state after the events `ls`. -/
def run (step : σ → ℓ → Option σ) (s : σ) (ls : List ℓ) : Option σ := ls.foldlM step s

@[simp] theorem run_nil : run step s [] = some s := rfl

theorem run_append {ls' : List ℓ} : run step s (ls ++ ls') = (run step s ls).bind fun t => run step t ls' :=
  List.foldlM_append

/-- A run with one more event. -/
theorem run_concat : run step s (ls ++ [a]) = some u ↔ ∃ t, run step s ls = some t ∧ step t a = some u := by
  rw [run_append, Option.bind_eq_some_iff]
  refine exists_congr fun t => and_congr_right fun _ => ?_
  rw [run, List.foldlM_cons, Option.bind_eq_bind, Option.bind_eq_some_iff]
  constructor
  · rintro ⟨v, hv, hu⟩
    rw [List.foldlM_nil] at hu
    cases hu
    exact hv
  · intro hu
    exact ⟨u, hu, rfl⟩

/-- **Induction over a run**, with the events so far at hand. -/
theorem run_induct {I : List ℓ → σ → Prop} (h0 : I [] s)
    (hstep : ∀ ls t a u, I ls t → step t a = some u → I (ls ++ [a]) u) : ∀ {t}, run step s ls = some t → I ls t := by
  induction ls using List.reverseRecOn with
  | nil =>
    intro t ht
    cases ht
    exact h0
  | append_singleton ls a ih =>
    intro u hu
    obtain ⟨t, ht, ha⟩ := run_concat.mp hu
    exact hstep ls t a u (ih ht) ha

/-- **Invariants.** What holds at first and survives every step holds after every run. -/
theorem run_invariant {I : σ → Prop} (h0 : I s) (hstep : ∀ t a u, I t → step t a = some u → I u)
    (h : run step s ls = some t) : I t :=
  run_induct (I := fun _ t => I t) h0 (fun _ t a u hi ha => hstep t a u hi ha) h

/-! ## Runs that meet a condition -/

/-- Every step of the run meets `good` in the state before it. -/
def Along (step : σ → ℓ → Option σ) (good : σ → ℓ → Prop) (s : σ) (ls : List ℓ) : Prop :=
  ∀ before a after t, ls = before ++ a :: after → run step s before = some t → good t a

variable {good : σ → ℓ → Prop}

theorem Along.imp {good' : σ → ℓ → Prop} (h : Along step good s ls) (himp : ∀ t a, good t a → good' t a) :
    Along step good' s ls :=
  fun before a after t heq ht => himp t a (h before a after t heq ht)

theorem Along.concat (h : Along step good s (ls ++ [a])) :
    Along step good s ls ∧ ∀ t, run step s ls = some t → good t a := by
  refine ⟨fun before b after t heq ht => ?_, fun t ht => h ls a [] t rfl ht⟩
  refine h before b (after ++ [a]) t ?_ ht
  rw [heq, List.append_assoc, List.cons_append]

/-- The condition at the first step, and along the rest. -/
theorem Along.of_cons (hgood : good s a) (h : ∀ t, step s a = some t → Along step good t ls) :
    Along step good s (a :: ls) := by
  intro before b after t heq ht
  cases before with
  | nil =>
    cases heq
    cases ht
    exact hgood
  | cons a' before =>
    cases heq
    rw [run, List.foldlM_cons, Option.bind_eq_bind, Option.bind_eq_some_iff] at ht
    obtain ⟨u, hu, ht⟩ := ht
    exact h u hu before b after t rfl ht

/-- The condition can be checked on a given run. -/
def checkAlong (step : σ → ℓ → Option σ) (good : σ → ℓ → Prop) [∀ s a, Decidable (good s a)] : σ → List ℓ → Bool
  | _, [] => true
  | s, a :: ls => decide (good s a) && (step s a).all fun t => checkAlong step good t ls

theorem Along.of_check [∀ s a, Decidable (good s a)] (h : checkAlong step good s ls = true) :
    Along step good s ls := by
  induction ls generalizing s with
  | nil =>
    intro before a after t heq
    cases before <;> cases heq
  | cons a ls ih =>
    rw [checkAlong, Bool.and_eq_true, decide_eq_true_eq] at h
    refine .of_cons h.1 fun t ht => ih ?_
    rw [ht] at h
    exact h.2

/-- **Induction over a run that meets a condition.** -/
theorem run_induct_along {I : List ℓ → σ → Prop} (h0 : I [] s)
    (hstep : ∀ ls t a u, I ls t → good t a → step t a = some u → I (ls ++ [a]) u) :
    ∀ {t}, Along step good s ls → run step s ls = some t → I ls t := by
  induction ls using List.reverseRecOn with
  | nil =>
    intro t _ ht
    cases ht
    exact h0
  | append_singleton ls a ih =>
    intro u hg hu
    obtain ⟨t, ht, ha⟩ := run_concat.mp hu
    obtain ⟨hls, hlast⟩ := hg.concat
    exact hstep ls t a u (ih hls ht) (hlast t ht) ha

end Machine
