import Mathlib.Logic.Function.Basic
import Mathlib.Data.Nat.ModEq
import Mathlib.Data.List.Basic

/-!
# `Lib.Ring` — what a ring buffer shows

A ring of `n` cells is read from an index that only counts up; cell `k % n` is element `k`. `Shows n buf r l`
says that from index `r` on the ring holds the list `l`. Only `r % n` matters, so an index that wraps at a
multiple of `n` is as good as one that never does.
-/

namespace Ring

variable {α : Type}

/-- From index `r` on the ring of `n` cells holds `l`. -/
def Shows (n : Nat) (buf : Nat → α) (r : Nat) (l : List α) : Prop :=
  ∀ i < l.length, l[i]? = some (buf ((r + i) % n))

variable {n r : Nat} {buf : Nat → α} {l l' : List α} {a b : α}

theorem shows_nil : Shows n buf r [] := fun _ h => absurd h (Nat.not_lt_zero _)

theorem Shows.congr (h : Shows n buf r l) {r' : Nat} (hr : r' % n = r % n) : Shows n buf r' l := by
  intro i hi
  rw [h i hi, Nat.add_mod, ← hr, ← Nat.add_mod]

/-- The first element is in the cell at `r`, and the others are shown from the next index on. -/
theorem shows_cons : Shows n buf r (a :: l) ↔ buf (r % n) = a ∧ Shows n buf (r + 1) l := by
  constructor
  · intro h
    refine ⟨(Option.some.inj (h 0 (Nat.succ_pos _))).symm, fun i hi => ?_⟩
    have := h (i + 1) (Nat.succ_lt_succ hi)
    rwa [List.getElem?_cons_succ, show r + (i + 1) = r + 1 + i by omega] at this
  · rintro ⟨rfl, h⟩ i hi
    cases i with
    | zero => rfl
    | succ i =>
      rw [List.getElem?_cons_succ, h i (Nat.lt_of_succ_lt_succ hi), show r + (i + 1) = r + 1 + i by omega]

theorem shows_append : Shows n buf r (l ++ l') ↔ Shows n buf r l ∧ Shows n buf (r + l.length) l' := by
  induction l generalizing r with
  | nil => simp [shows_nil]
  | cons a l ih =>
    rw [List.cons_append, shows_cons, shows_cons, ih, and_assoc, List.length_cons,
      show r + (l.length + 1) = r + 1 + l.length by omega]

/-- Filling the cell after the last element appends to what is shown, while there is room. -/
theorem Shows.push (h : Shows n buf r l) (hlen : l.length < n) :
    Shows n (Function.update buf ((r + l.length) % n) b) r (l ++ [b]) := by
  rw [shows_append]
  constructor
  · intro i hi
    rw [h i hi, Function.update_of_ne]
    -- two elements fewer than `n` apart are in different cells
    intro he
    have hmod : i % n = l.length % n := Nat.ModEq.add_left_cancel' r he
    rw [Nat.mod_eq_of_lt (by omega), Nat.mod_eq_of_lt hlen] at hmod
    omega
  · rw [shows_cons]
    exact ⟨Function.update_self .., shows_nil⟩

/-- What is shown, read off cell by cell. -/
theorem Shows.eq_map (h : Shows n buf r l) : l = (List.range l.length).map fun i => buf ((r + i) % n) := by
  refine List.ext_getElem? fun i => ?_
  by_cases hi : i < l.length
  · rw [h i hi, List.getElem?_map, List.getElem?_range hi, Option.map_some]
  · rw [List.getElem?_eq_none (by omega), List.getElem?_eq_none (by simpa using hi)]

end Ring
