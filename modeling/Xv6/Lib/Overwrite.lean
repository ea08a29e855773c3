import Mathlib.Data.List.Basic

/-!
# `Lib.Overwrite` — a string changed by writes at offsets

A write puts `d` in place of what the string has from `off` on, and makes the string longer when `d`
reaches past its end. After any writes, an element is the one the last write over its place put there.

## Contents
- **One write.** `overwrite`, with its elements (`getElem?_overwrite`).
- **A log of writes.** `applyAll`, and `getElem?_applyAll`: reading back finds the last write.
-/

namespace Overwrite

variable {α : Type} {old d : List α} {off k : Nat}

/-- `d` in place of what `old` has from `off` on. -/
def overwrite (old : List α) (off : Nat) (d : List α) : List α := old.take off ++ d ++ old.drop (off + d.length)

/-- Reading after a write: the new elements, and around them the old ones. -/
theorem getElem?_overwrite (h : off ≤ old.length) :
    (overwrite old off d)[k]? = if off ≤ k ∧ k < off + d.length then d[k - off]? else old[k]? := by
  have hlen : (old.take off).length = off := by rw [List.length_take]; omega
  rw [overwrite, List.append_assoc]
  by_cases hk : k < off
  · rw [if_neg (by omega), List.getElem?_append_left (by omega), List.getElem?_take_of_lt hk]
  · rw [List.getElem?_append_right (by omega), hlen]
    by_cases hk' : k < off + d.length
    · rw [if_pos ⟨by omega, hk'⟩, List.getElem?_append_left (by omega)]
    · rw [if_neg (by omega), List.getElem?_append_right (by omega), List.getElem?_drop]
      congr 1; omega

/-! ## A log of writes -/

/-- Writes, each an offset and the elements written there, the oldest first. -/
abbrev Log (α : Type) := List (Nat × List α)

/-- The string after the writes of a log. -/
def applyAll : List α → Log α → List α
  | old, [] => old
  | old, w :: ws => applyAll (overwrite old w.1 w.2) ws

/-- No write of the log starts past the end the string has by then. -/
def Gapless : List α → Log α → Prop
  | _, [] => True
  | old, w :: ws => w.1 ≤ old.length ∧ Gapless (overwrite old w.1 w.2) ws

theorem applyAll_append (old : List α) (ws ws' : Log α) : applyAll old (ws ++ ws') = applyAll (applyAll old ws) ws' := by
  induction ws generalizing old with
  | nil => rfl
  | cons w ws ih => exact ih _

theorem Gapless.append {ws ws' : Log α} (h : Gapless old ws) (h' : Gapless (applyAll old ws) ws') :
    Gapless old (ws ++ ws') := by
  induction ws generalizing old with
  | nil => exact h'
  | cons w ws ih => exact ⟨h.1, ih h.2 h'⟩

/-- What the last write over place `k` put there. -/
def lastWrite : Log α → Nat → Option α
  | [], _ => none
  | w :: ws, k => (lastWrite ws k).or (if w.1 ≤ k then w.2[k - w.1]? else none)

/-- **Read-back.** Each place holds what was written there last, and what it held before if nothing was. -/
theorem getElem?_applyAll {ws : Log α} (h : Gapless old ws) :
    (applyAll old ws)[k]? = (lastWrite ws k).or old[k]? := by
  induction ws generalizing old with
  | nil => rw [applyAll, lastWrite, Option.none_or]
  | cons w ws ih =>
    obtain ⟨hoff, hrest⟩ := h
    rw [applyAll, lastWrite, ih hrest, getElem?_overwrite hoff, Option.or_assoc]
    congr 1
    by_cases hk : w.1 ≤ k
    · rw [if_pos hk]
      by_cases hk' : k < w.1 + w.2.length
      · have hlt : k - w.1 < w.2.length := by omega
        rw [if_pos ⟨hk, hk'⟩, List.getElem?_eq_getElem hlt, Option.some_or]
      · have hge : w.2.length ≤ k - w.1 := by omega
        rw [if_neg fun hc => hk' hc.2, List.getElem?_eq_none hge, Option.none_or]
    · rw [if_neg hk, if_neg fun hc => hk hc.1, Option.none_or]

end Overwrite
