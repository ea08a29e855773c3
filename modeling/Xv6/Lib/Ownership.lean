import Mathlib.Logic.Function.Basic
import Mathlib.Logic.ExistsUnique

/-!
# `Lib.Ownership` — blocks, their holders and a map of the blocks in use

Holders `κ` each hold at most one block of `β`; some blocks are reserved and never held. `Owns` says that
no block has two holders and that the blocks in use are exactly the reserved and the held ones. Taking a
free block and giving one back are the only two ways the relation changes.
-/

namespace Ownership

variable {κ β : Type}

/-- **Ownership.** Every block in use is reserved or has one holder; every other block is free. -/
structure Owns (own : κ → Option β) (reserved used : β → Prop) : Prop where
  /-- No block has two holders. -/
  inj : ∀ {k l b}, own k = some b → own l = some b → k = l
  /-- A held block is not reserved. -/
  sep : ∀ {k b}, own k = some b → ¬ reserved b
  /-- In use: reserved or held. -/
  used_iff : ∀ b, used b ↔ reserved b ∨ ∃ k, own k = some b

variable {own : κ → Option β} {reserved used : β → Prop}

theorem Owns.used_of_own (h : Owns own reserved used) {k : κ} {b : β} (hk : own k = some b) : used b :=
  (h.used_iff b).mpr (.inr ⟨k, hk⟩)

/-- Outside the reserved blocks, a block is in use exactly when it has exactly one holder. -/
theorem Owns.used_iff_existsUnique (h : Owns own reserved used) {b : β} (hb : ¬ reserved b) :
    used b ↔ ∃! k, own k = some b := by
  rw [h.used_iff]
  constructor
  · rintro (hr | ⟨k, hk⟩)
    · exact absurd hr hb
    · exact ⟨k, hk, fun l hl => h.inj hl hk⟩
  · rintro ⟨k, hk, -⟩
    exact .inr ⟨k, hk⟩

/-- Only the set of blocks in use matters, not how it is written. -/
theorem Owns.congr (h : Owns own reserved used) {used' : β → Prop} (hu : ∀ b, used' b ↔ used b) :
    Owns own reserved used' :=
  ⟨h.inj, h.sep, fun b => (hu b).trans (h.used_iff b)⟩

theorem Owns.congr_reserved (h : Owns own reserved used) {reserved' : β → Prop} (hr : ∀ b, reserved' b ↔ reserved b) :
    Owns own reserved' used :=
  ⟨h.inj, fun hk hb => h.sep hk ((hr _).mp hb), fun b => by rw [h.used_iff, hr]⟩

section Update
variable [DecidableEq κ]

/-- **Taking.** A free block may be given to a holder that has none. -/
theorem Owns.take (h : Owns own reserved used) {k : κ} {b : β} (hk : own k = none) (hb : ¬ used b) :
    Owns (Function.update own k (some b)) reserved fun c => c = b ∨ used c where
  inj := by
    intro x y c hx hy
    by_cases hxk : x = k <;> by_cases hyk : y = k
    · rw [hxk, hyk]
    · subst hxk
      rw [Function.update_self] at hx
      rw [Function.update_of_ne hyk] at hy
      cases hx
      exact absurd (h.used_of_own hy) hb
    · subst hyk
      rw [Function.update_self] at hy
      rw [Function.update_of_ne hxk] at hx
      cases hy
      exact absurd (h.used_of_own hx) hb
    · rw [Function.update_of_ne hxk] at hx
      rw [Function.update_of_ne hyk] at hy
      exact h.inj hx hy
  sep := by
    intro x c hx hr
    by_cases hxk : x = k
    · subst hxk
      rw [Function.update_self] at hx
      cases hx
      exact hb ((h.used_iff b).mpr (.inl hr))
    · rw [Function.update_of_ne hxk] at hx
      exact h.sep hx hr
  used_iff := by
    intro c
    rw [h.used_iff]
    constructor
    · rintro (rfl | hr | ⟨x, hx⟩)
      · exact .inr ⟨k, Function.update_self ..⟩
      · exact .inl hr
      · have hxk : x ≠ k := by rintro rfl; rw [hk] at hx; cases hx
        exact .inr ⟨x, by rw [Function.update_of_ne hxk, hx]⟩
    · rintro (hr | ⟨x, hx⟩)
      · exact .inr (.inl hr)
      · by_cases hxk : x = k
        · subst hxk
          rw [Function.update_self] at hx
          cases hx
          exact .inl rfl
        · rw [Function.update_of_ne hxk] at hx
          exact .inr (.inr ⟨x, hx⟩)

/-- **Giving back.** A holder may return its block. -/
theorem Owns.drop (h : Owns own reserved used) {k : κ} {b : β} (hk : own k = some b) :
    Owns (Function.update own k none) reserved fun c => c ≠ b ∧ used c where
  inj := by
    intro x y c hx hy
    have hxk : x ≠ k := by rintro rfl; rw [Function.update_self] at hx; cases hx
    have hyk : y ≠ k := by rintro rfl; rw [Function.update_self] at hy; cases hy
    rw [Function.update_of_ne hxk] at hx
    rw [Function.update_of_ne hyk] at hy
    exact h.inj hx hy
  sep := by
    intro x c hx
    have hxk : x ≠ k := by rintro rfl; rw [Function.update_self] at hx; cases hx
    rw [Function.update_of_ne hxk] at hx
    exact h.sep hx
  used_iff := by
    intro c
    rw [h.used_iff]
    constructor
    · rintro ⟨hcb, hr | ⟨x, hx⟩⟩
      · exact .inl hr
      · have hxk : x ≠ k := by rintro rfl; rw [hk] at hx; cases hx; exact hcb rfl
        exact .inr ⟨x, by rw [Function.update_of_ne hxk, hx]⟩
    · rintro (hr | ⟨x, hx⟩)
      · exact ⟨by rintro rfl; exact h.sep hk hr, .inl hr⟩
      · have hxk : x ≠ k := by rintro rfl; rw [Function.update_self] at hx; cases hx
        rw [Function.update_of_ne hxk] at hx
        exact ⟨by rintro rfl; exact hxk (h.inj hx hk), .inr ⟨x, hx⟩⟩

end Update

end Ownership
