import Mathlib.Data.Finmap
import Mathlib.Data.Fintype.Card

/-!
# `Lib.SlotTable` — a fixed array of slots as a finite map

A table has `n` slots, each free or holding one key with its value. `Rep t m` says that table `t`
represents the finite map `m`: the occupied slots are the entries of `m`, and no key has two slots.

## Contents
- **Birth.** `Rep.empty`: a table of free slots represents `∅`.
- **Updates.** Filling a free slot or overwriting a slot is `insert` (`Rep.put`, used as `Rep.fill` and
  `Rep.overwrite`), freeing a slot is `erase` (`Rep.clear`).
- **Counting.** `Rep.card`: the map has as many entries as the table has occupied slots, so a table has a
  free slot exactly when the map has fewer than `n` entries (`Rep.card_lt_iff`).
-/

namespace SlotTable

variable {n : Nat} {κ β : Type} [DecidableEq κ]

/-- Slots, each free or holding a key and its value. -/
abbrev Table (n : Nat) (κ β : Type) := Fin n → Option (κ × β)

/-- Table `t` represents map `m`. -/
structure Rep (t : Table n κ β) (m : Finmap fun _ : κ => β) : Prop where
  /-- No key occupies two slots. -/
  uniq : ∀ {i j k v w}, t i = some (k, v) → t j = some (k, w) → i = j
  /-- The occupied slots are the entries of the map. -/
  lookup : ∀ {k v}, m.lookup k = some v ↔ ∃ i, t i = some (k, v)

variable {t : Table n κ β} {m : Finmap fun _ : κ => β}

/-- A key is in the map when some slot holds it. -/
theorem Rep.mem_iff (h : Rep t m) {k : κ} : k ∈ m ↔ ∃ i v, t i = some (k, v) := by
  rw [Finmap.mem_iff]
  constructor
  · rintro ⟨v, hv⟩
    obtain ⟨i, hi⟩ := h.lookup.mp hv
    exact ⟨i, v, hi⟩
  · rintro ⟨i, v, hi⟩
    exact ⟨v, h.lookup.mpr ⟨i, hi⟩⟩

/-- Free slots everywhere represent the empty map. -/
theorem Rep.empty (ht : ∀ i, t i = none) : Rep t ∅ where
  uniq h := by rw [ht] at h; cases h
  lookup := by
    intro k v
    rw [Finmap.lookup_empty]
    constructor
    · intro h; cases h
    · rintro ⟨i, hi⟩; rw [ht i] at hi; cases hi

/-- **Storing.** A slot that is free or already holds `k`, when no other slot does, may be set to `(k, w)`:
    that is `insert`. -/
theorem Rep.put (h : Rep t m) {i : Fin n} {k : κ} (hi : ∀ k' v, t i = some (k', v) → k' = k)
    (hk : ∀ j v, t j = some (k, v) → j = i) (w : β) :
    Rep (Function.update t i (some (k, w))) (m.insert k w) where
  uniq := by
    -- a key found in an old slot next to the new one is `k` itself, so both slots are `i`
    intro a b k' x y ha hb
    by_cases hai : a = i <;> by_cases hbi : b = i
    · rw [hai, hbi]
    · subst hai
      rw [Function.update_self] at ha
      rw [Function.update_of_ne hbi] at hb
      cases ha
      exact (hk _ _ hb).symm
    · subst hbi
      rw [Function.update_self] at hb
      rw [Function.update_of_ne hai] at ha
      cases hb
      exact hk _ _ ha
    · rw [Function.update_of_ne hai] at ha
      rw [Function.update_of_ne hbi] at hb
      exact h.uniq ha hb
  lookup := by
    intro k' x
    by_cases hkk : k' = k
    · subst hkk
      rw [Finmap.lookup_insert]
      constructor
      · intro hx; cases hx
        exact ⟨i, Function.update_self ..⟩
      · rintro ⟨j, hj⟩
        by_cases hji : j = i
        · subst hji
          rw [Function.update_self] at hj
          cases hj; rfl
        · rw [Function.update_of_ne hji] at hj
          exact absurd (hk _ _ hj) hji
    · rw [Finmap.lookup_insert_of_ne _ hkk, h.lookup]
      constructor
      · rintro ⟨j, hj⟩
        have hji : j ≠ i := by rintro rfl; exact hkk (hi _ _ hj)
        exact ⟨j, by rw [Function.update_of_ne hji, hj]⟩
      · rintro ⟨j, hj⟩
        have hji : j ≠ i := by
          rintro rfl; rw [Function.update_self] at hj; cases hj; exact hkk rfl
        exact ⟨j, by rwa [Function.update_of_ne hji] at hj⟩

/-- Replacing the value in the slot of `k`. -/
theorem Rep.overwrite (h : Rep t m) {i : Fin n} {k : κ} {v : β} (hi : t i = some (k, v)) (w : β) :
    Rep (Function.update t i (some (k, w))) (m.insert k w) :=
  h.put (fun _ _ hk' => by rw [hi] at hk'; cases hk'; rfl) (fun _ _ hj => h.uniq hj hi) w

/-- Putting a new key into a free slot. -/
theorem Rep.fill (h : Rep t m) {i : Fin n} (hi : t i = none) {k : κ} (hk : k ∉ m) (w : β) :
    Rep (Function.update t i (some (k, w))) (m.insert k w) :=
  h.put (fun _ _ hk' => by rw [hi] at hk'; cases hk')
    (fun j v hj => absurd (h.mem_iff.mpr ⟨j, v, hj⟩) hk) w

/-- **Clearing.** Freeing the slot of `k` is `erase`. -/
theorem Rep.clear (h : Rep t m) {i : Fin n} {k : κ} {v : β} (hi : t i = some (k, v)) :
    Rep (Function.update t i none) (m.erase k) where
  uniq := by
    intro a b k' x y ha hb
    have hai : a ≠ i := by rintro rfl; rw [Function.update_self] at ha; cases ha
    have hbi : b ≠ i := by rintro rfl; rw [Function.update_self] at hb; cases hb
    rw [Function.update_of_ne hai] at ha
    rw [Function.update_of_ne hbi] at hb
    exact h.uniq ha hb
  lookup := by
    intro k' x
    by_cases hk : k' = k
    · subst hk
      rw [Finmap.lookup_erase]
      constructor
      · intro hx; cases hx
      · rintro ⟨j, hj⟩
        have hji : j ≠ i := by rintro rfl; rw [Function.update_self] at hj; cases hj
        rw [Function.update_of_ne hji] at hj
        exact absurd (h.uniq hj hi) hji
    · rw [Finmap.lookup_erase_ne hk, h.lookup]
      constructor
      · rintro ⟨j, hj⟩
        have hji : j ≠ i := by rintro rfl; rw [hi] at hj; cases hj; exact hk rfl
        exact ⟨j, by rw [Function.update_of_ne hji, hj]⟩
      · rintro ⟨j, hj⟩
        have hji : j ≠ i := by rintro rfl; rw [Function.update_self] at hj; cases hj
        exact ⟨j, by rwa [Function.update_of_ne hji] at hj⟩

/-! ## Counting -/

/-- The keys of the occupied slots, in slot order. -/
def keyList (t : Table n κ β) : List κ := (List.finRange n).filterMap fun i => (t i).map Prod.fst

omit [DecidableEq κ] in
theorem mem_keyList {k : κ} : k ∈ keyList t ↔ ∃ i v, t i = some (k, v) := by
  simp [keyList, List.mem_filterMap, Option.map_eq_some_iff]

/-- Listing the occupied slots lists each key of the map once. -/
theorem Rep.keyList_nodup (h : Rep t m) : (keyList t).Nodup := by
  refine List.Nodup.filterMap ?_ (List.nodup_finRange n)
  intro i j k hi hj
  simp only [Option.mem_def, Option.map_eq_some_iff, Prod.exists, exists_and_right,
    exists_eq_right] at hi hj
  obtain ⟨⟨v, hv⟩, ⟨w, hw⟩⟩ := And.intro hi hj
  exact h.uniq hv hw

/-- The map has as many entries as the table has occupied slots. -/
theorem Rep.card (h : Rep t m) : m.keys.card = (keyList t).length := by
  rw [← List.toFinset_card_of_nodup h.keyList_nodup]
  congr 1
  ext k
  rw [Finmap.mem_keys, List.mem_toFinset, mem_keyList, h.mem_iff]

/-- A table never represents more entries than it has slots. -/
theorem Rep.card_le (h : Rep t m) : m.keys.card ≤ n := by
  rw [h.card, keyList]
  exact (List.length_filterMap_le _ _).trans_eq (List.length_finRange)

/-- A table has a free slot exactly when its map has fewer entries than slots. -/
theorem Rep.card_lt_iff (h : Rep t m) : m.keys.card < n ↔ ∃ i, t i = none := by
  rw [h.card, keyList]
  constructor
  · intro hlt
    by_contra hfull
    have hall : ∀ i ∈ List.finRange n, ((t i).map Prod.fst).isSome := by
      intro i _
      cases hi : t i with
      | none => exact absurd ⟨i, hi⟩ hfull
      | some e => rfl
    rw [List.length_filterMap_eq_countP, List.countP_eq_length.mpr hall, List.length_finRange] at hlt
    exact lt_irrefl _ hlt
  · rintro ⟨i, hi⟩
    rw [List.length_filterMap_eq_countP]
    refine lt_of_le_of_ne (List.countP_le_length.trans_eq List.length_finRange) fun he => ?_
    have hall := List.countP_eq_length.mp (he.trans List.length_finRange.symm) i (List.mem_finRange i)
    rw [hi] at hall
    cases hall

end SlotTable
