import Mathlib.Logic.Function.Basic

/-!
# `Lib.Segment` — linked segments and rings

`Seg next x l y`: following `next` from `x` goes through the nodes `l`, one after the other, and arrives at `y`. A ring
is a segment that ends where it began, and can be entered at any of its nodes.

## Contents
- **Segments.** `seg_append`, and `Seg.congr`: only the links of the nodes matter.
- **Rings.** `Seg.ring_at` enters a ring at another node.
- **Updates.** `Seg.insert` and `Seg.remove`: a node more or less after a given one.
-/

namespace Segment

variable {α : Type} {next next' : α → α} {x y a b : α} {l l' : List α}

/-- The nodes from `x` on, up to but not including `y`. -/
def Seg (next : α → α) : α → List α → α → Prop
  | x, [], y => x = y
  | x, a :: l, y => x = a ∧ Seg next (next a) l y

theorem seg_append : Seg next x (l ++ l') y ↔ ∃ z, Seg next x l z ∧ Seg next z l' y := by
  induction l generalizing x with
  | nil => exact ⟨fun h => ⟨x, rfl, h⟩, fun ⟨z, hx, h⟩ => by cases hx; exact h⟩
  | cons c l ih =>
    constructor
    · rintro ⟨hx, h⟩
      obtain ⟨z, h1, h2⟩ := ih.1 h
      exact ⟨z, ⟨hx, h1⟩, h2⟩
    · rintro ⟨z, ⟨hx, h1⟩, h2⟩
      exact ⟨hx, ih.2 ⟨z, h1, h2⟩⟩

/-- Passing a node in the middle. -/
theorem seg_mid : Seg next x (l ++ a :: l') y ↔ Seg next x l a ∧ Seg next (next a) l' y := by
  rw [seg_append]
  exact ⟨fun ⟨z, h1, h2, h3⟩ => ⟨h2 ▸ h1, h3⟩, fun ⟨h1, h2⟩ => ⟨a, h1, rfl, h2⟩⟩

/-- Only the links of the nodes matter. -/
theorem Seg.congr (h : Seg next x l y) (heq : ∀ c ∈ l, next' c = next c) : Seg next' x l y := by
  induction l generalizing x with
  | nil => exact h
  | cons c l ih =>
    obtain ⟨hx, h⟩ := h
    refine ⟨hx, ?_⟩
    rw [heq c List.mem_cons_self]
    exact ih h fun d hd => heq d (List.mem_cons_of_mem _ hd)

/-- A ring entered at another of its nodes. -/
theorem Seg.ring_at (h : Seg next x (l ++ a :: l') x) : Seg next a (a :: (l' ++ l)) a := by
  obtain ⟨h1, h2⟩ := seg_mid.1 h
  exact ⟨rfl, seg_append.2 ⟨x, h2, h1⟩⟩

/-- The link of a node that has another one after it. -/
theorem Seg.next_mid (h : Seg next x (l ++ a :: b :: l') y) : next a = b := (seg_mid.1 h).2.1

/-- The link of the last node. -/
theorem Seg.next_last (h : Seg next x (l ++ [a]) y) : next a = y := (seg_mid.1 h).2

/-- **A node put in after `a`.** -/
theorem Seg.insert (h : Seg next x (l ++ a :: l') y) (hb : b ∉ l ++ a :: l') (ha : a ∉ l ++ l') (hlink : next' b = next a)
    (hlink' : next' a = b) (heq : ∀ c, c ≠ a → c ≠ b → next' c = next c) : Seg next' x (l ++ a :: b :: l') y := by
  obtain ⟨h1, h2⟩ := seg_mid.1 h
  rw [List.mem_append, List.mem_cons, not_or, not_or] at hb
  rw [List.mem_append, not_or] at ha
  refine seg_mid.2 ⟨h1.congr fun c hc => heq c ?_ ?_, hlink', ?_⟩
  · exact fun hca => ha.1 (hca ▸ hc)
  · exact fun hcb => hb.1 (hcb ▸ hc)
  · rw [hlink]
    refine h2.congr fun c hc => heq c ?_ ?_
    · exact fun hca => ha.2 (hca ▸ hc)
    · exact fun hcb => hb.2.2 (hcb ▸ hc)

/-- **The node after `a` taken out.** -/
theorem Seg.remove (h : Seg next x (l ++ a :: b :: l') y) (ha : a ∉ l ++ b :: l') (hlink : next' a = next b)
    (heq : ∀ c ∈ l ++ l', c ≠ a → next' c = next c) : Seg next' x (l ++ a :: l') y := by
  obtain ⟨h1, h2, h3⟩ := seg_mid.1 h
  rw [List.mem_append, List.mem_cons, not_or, not_or] at ha
  refine seg_mid.2 ⟨h1.congr fun c hc => heq c (List.mem_append_left _ hc) fun hca => ha.1 (hca ▸ hc), ?_⟩
  rw [hlink]
  exact h3.congr fun c hc => heq c (List.mem_append_right _ hc) fun hca => ha.2.2 (hca ▸ hc)

end Segment
