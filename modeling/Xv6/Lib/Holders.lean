import Mathlib.Algebra.BigOperators.Group.Finset.Piecewise
import Mathlib.Algebra.Order.Group.Multiset
import Mathlib.Data.Fintype.Prod

/-!
# `Lib.Holders` — the targets of a table of optional pointers

A table `g : ι → Option α` has finitely many entries, each empty or pointing to some `α`. `targets g` is the
multiset of what they point to, with one element per pointer, so `(targets g).count a` is the number of pointers
to `a`: what a reference count has to be. One lemma says how a change of one entry changes it.
-/

namespace Holders

open Multiset

variable {ι α : Type} [Fintype ι]

/-- What one entry points to. -/
def target : Option α → Multiset α
  | none => 0
  | some a => {a}

/-- What the entries of `g` point to, with multiplicity. -/
@[irreducible] def targets (g : ι → Option α) : Multiset α := ∑ i, target (g i)

variable {g : ι → Option α} {i : ι} {a : α}

/-- **A change of one entry** exchanges its old target for its new one. -/
theorem targets_update [DecidableEq ι] (o : Option α) :
    targets (Function.update g i o) + target (g i) = targets g + target o := by
  have hrest : ∀ j ∈ Finset.univ.erase i, target (Function.update g i o j) = target (g j) := fun j hj => by
    rw [Function.update_of_ne (Finset.ne_of_mem_erase hj)]
  rw [targets, targets, ← Finset.add_sum_erase _ _ (Finset.mem_univ i), Finset.sum_congr rfl hrest,
    ← Finset.add_sum_erase (f := fun j => target (g j)) _ (Finset.mem_univ i), Function.update_self]
  rw [add_rotate]
  exact congrArg (· + target o) (add_comm _ _)

/-- An empty entry is set. -/
theorem targets_set [DecidableEq ι] (h : g i = none) : targets (Function.update g i (some a)) = a ::ₘ targets g := by
  have hupd := targets_update (g := g) (i := i) (some a)
  rw [h, target, add_zero, target, add_comm, singleton_add] at hupd
  exact hupd

/-- An entry is cleared. -/
theorem targets_clear [DecidableEq ι] (h : g i = some a) : targets g = a ::ₘ targets (Function.update g i none) := by
  have hupd := targets_update (g := g) (i := i) none
  rw [h, target, target, add_zero, add_comm, singleton_add] at hupd
  exact hupd.symm

theorem targets_none (h : ∀ i, g i = none) : targets g = 0 := by
  rw [targets]
  exact Finset.sum_eq_zero fun i _ => by rw [h i, target]

theorem mem_targets : a ∈ targets g ↔ ∃ i, g i = some a := by
  rw [targets, Multiset.mem_sum]
  constructor
  · rintro ⟨i, -, hi⟩
    cases hg : g i with
    | none =>
      rw [hg] at hi
      exact absurd hi (notMem_zero a)
    | some b =>
      rw [hg] at hi
      exact ⟨i, hg.trans (congrArg some (mem_singleton.mp hi).symm)⟩
  · rintro ⟨i, hi⟩
    exact ⟨i, Finset.mem_univ i, by rw [hi]; exact mem_singleton_self a⟩

theorem count_target [DecidableEq α] (o : Option α) : (target o).count a = if o = some a then 1 else 0 := by
  cases o with
  | none => rfl
  | some b => simp [target, count_singleton, eq_comm]

/-- **The count is the number of pointers.** -/
theorem count_targets [DecidableEq α] : (targets g).count a = (Finset.univ.filter fun i => g i = some a).card := by
  rw [targets, Multiset.count_sum', Finset.card_filter]
  exact Finset.sum_congr rfl fun i _ => count_target (g i)

end Holders
