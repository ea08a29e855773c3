import Xv6.Sys.Tag
import Xv6.Lib.SlotTable

/-!
# `Sys.TagStore` — the tag block is a finite map

The slots of a tag block, decoded, form a `SlotTable`; `TagBlock str m` says that the bytes `str` represent
the map `m` and that every stored key is terminated inside its 10 bytes. The two searches then find the
slot of a key and a free slot, the three ways of writing the block are the table's updates, and every run
of `tagFile`, `removeFileTag` and `getAllTags` on one open file is a run of the same operations on a map.
-/

namespace Xv6

open Bytes Hoare SlotTable

/-! ## C strings -/

/-- The bytes of a NUL-terminated string. -/
def cstr (s : Arr) : List UInt8 := (List.range (strlen s)).map s

/-- The loop stops at the first NUL, or at the end of the address space. -/
theorem strlenFrom_spec (s : Arr) (n : Nat) :
    (∀ j, n ≤ j → j < strlenFrom s n → s j ≠ 0) ∧
    (strlenFrom s n < 4294967296 → s (strlenFrom s n) = 0) := by
  induction n using strlenFrom.induct s with
  | case1 n h ih =>
    rw [strlenFrom, if_pos h]
    refine ⟨fun j hj hlt => ?_, ih.2⟩
    rcases Nat.eq_or_lt_of_le hj with rfl | hj'
    · exact h.2
    · exact ih.1 j hj' hlt
  | case2 n h =>
    rw [strlenFrom, if_neg h]
    refine ⟨fun j hj hlt => absurd hlt (by omega), fun hlt => ?_⟩
    by_contra hne
    exact h ⟨hlt, hne⟩

/-- Before its terminator a string has no NUL. -/
theorem strlen_ne {s : Arr} {j : Nat} (h : j < strlen s) : s j ≠ 0 :=
  (strlenFrom_spec s 0).1 j (Nat.zero_le j) h

theorem strlen_nul {s : Arr} (h : strlen s < 4294967296) : s (strlen s) = 0 :=
  (strlenFrom_spec s 0).2 h

/-- The length is the index of the first NUL. -/
theorem strlen_eq {s : Arr} {n : Nat} (hn : n < 4294967296) (h0 : s n = 0) (h : ∀ j < n, s j ≠ 0) :
    strlen s = n := by
  rcases Nat.lt_trichotomy (strlen s) n with hlt | heq | hgt
  · exact absurd (strlen_nul (Nat.lt_trans hlt hn)) (h _ hlt)
  · exact heq
  · exact absurd h0 (strlen_ne hgt)

/-- A NUL in the first bytes bounds the length. -/
theorem strlen_le_of_nul {s : Arr} {n : Nat} (h0 : s n = 0) : strlen s ≤ n := by
  by_contra hlt
  exact strlen_ne (Nat.lt_of_not_le hlt) h0

@[simp] theorem length_cstr (s : Arr) : (cstr s).length = strlen s := by simp [cstr]

/-- A C string contains no NUL. -/
theorem not_mem_cstr (s : Arr) : (0 : UInt8) ∉ cstr s := by
  intro h
  obtain ⟨j, hj, he⟩ := List.mem_map.mp h
  exact strlen_ne (List.mem_range.mp hj) he

/-- Two terminated strings are equal when they agree up to the terminator of one. -/
theorem cstr_eq_iff {s t : Arr} (ht : strlen t < 4294967296) :
    cstr s = cstr t ↔ ∀ j ≤ strlen t, s j = t j := by
  constructor
  · intro h j hj
    have hlen : strlen s = strlen t := by simpa using congrArg List.length h
    rcases Nat.lt_or_eq_of_le hj with hlt | rfl
    · have hget := congrArg (fun l => l[j]?) h
      simpa [cstr, hlen, hlt] using hget
    · rw [strlen_nul ht, ← hlen]
      exact strlen_nul (hlen ▸ ht)
  · intro h
    have hlen : strlen s = strlen t :=
      strlen_eq ht ((h _ (Nat.le_refl _)).trans (strlen_nul ht))
        fun j hj => by rw [h j (Nat.le_of_lt hj)]; exact strlen_ne hj
    simp only [cstr, hlen]
    exact List.map_congr_left fun j hj => h j (Nat.le_of_lt (List.mem_range.mp hj))

/-! ## The decoded block -/

abbrev TagKey := List UInt8
abbrev TagValue := List UInt8
abbrev TagMap := Finmap fun _ : TagKey => TagValue

/-- The 18 bytes stored for a value of `n` bytes. -/
def pad (v : Arr) (n : Nat) : TagValue := (List.range 18).map fun j => if j < n then v j else 0

/-- The key stored in slot `i`. -/
def slotKey (str : Arr) (i : Nat) : TagKey := cstr fun j => str (32 * i + j)

/-- The value stored in slot `i`. -/
def slotValue (str : Arr) (i : Nat) : TagValue := (List.range 18).map fun j => str (32 * i + 10 + j)

/-- The slots of a tag block. -/
def tagTable (str : Arr) : Table 16 TagKey TagValue := fun i =>
  if str (32 * i.val) = 0 then none else some (slotKey str i, slotValue str i)

/-- **The representation invariant.** Keys end inside their 10 bytes, and the slots are the map `m`. -/
structure TagBlock (str : Arr) (m : TagMap) : Prop where
  term : ∀ i < 16, ∃ j ≤ 9, str (32 * i + j) = 0
  rep : Rep (tagTable str) m

variable {str key value : Arr} {m : TagMap}

theorem tagTable_eq_some {i : Fin 16} {k : TagKey} {v : TagValue} :
    tagTable str i = some (k, v) ↔ str (32 * i.val) ≠ 0 ∧ slotKey str i = k ∧ slotValue str i = v := by
  unfold tagTable
  by_cases h : str (32 * i.val) = 0
  · simp [h]
  · simp [h]

theorem tagTable_eq_none {i : Fin 16} : tagTable str i = none ↔ str (32 * i.val) = 0 := by
  unfold tagTable
  by_cases h : str (32 * i.val) = 0
  · simp [h]
  · simp [h]

/-- A slot is determined by its first 28 bytes. -/
theorem tagTable_congr {str' : Arr} {i : Fin 16} (hterm : ∃ j ≤ 9, str (32 * i.val + j) = 0)
    (h : ∀ j < 28, str' (32 * i.val + j) = str (32 * i.val + j)) : tagTable str' i = tagTable str i := by
  obtain ⟨j, hj, hnul⟩ := hterm
  have hlen : strlen (fun j => str (32 * i.val + j)) ≤ j := strlen_le_of_nul hnul
  have hkey : slotKey str' i = slotKey str i :=
    (cstr_eq_iff (by omega)).mpr fun j' hj' => h j' (by omega)
  have hval : slotValue str' i = slotValue str i := by
    refine List.map_congr_left fun a ha => ?_
    have := List.mem_range.mp ha
    rw [Nat.add_assoc]; exact h (10 + a) (by omega)
  unfold tagTable
  rw [hkey, hval, show str' (32 * i.val) = str (32 * i.val) from h 0 (by omega)]

theorem TagBlock.slotKey_length (hb : TagBlock str m) {i : Nat} (hi : i < 16)
    (h0 : str (32 * i) ≠ 0) : 1 ≤ (slotKey str i).length ∧ (slotKey str i).length ≤ 9 := by
  obtain ⟨j, hj, hnul⟩ := hb.term i hi
  have hle : strlen (fun j => str (32 * i + j)) ≤ j := strlen_le_of_nul hnul
  have hpos : strlen (fun j => str (32 * i + j)) ≠ 0 := by
    intro hz
    have := strlen_nul (s := fun j => str (32 * i + j)) (by omega)
    rw [hz] at this
    exact h0 this
  simp only [slotKey, length_cstr]
  omega

/-- The map of a tag block: keys of 1 to 9 non-NUL bytes, values of 18 bytes, at most 16 entries. -/
theorem TagBlock.entries (hb : TagBlock str m) {k : TagKey} {v : TagValue} (h : m.lookup k = some v) :
    1 ≤ k.length ∧ k.length ≤ 9 ∧ 0 ∉ k ∧ v.length = 18 := by
  obtain ⟨i, hi⟩ := hb.rep.lookup.mp h
  obtain ⟨h0, rfl, rfl⟩ := tagTable_eq_some.mp hi
  obtain ⟨h1, h2⟩ := hb.slotKey_length i.isLt h0
  exact ⟨h1, h2, not_mem_cstr _, by simp [slotValue]⟩

/-- An all-zero block represents the empty map. -/
theorem TagBlock.zero (h : ∀ i < BSIZE, str i = 0) : TagBlock str ∅ where
  term i hi := ⟨0, by omega, h _ (by simp only [BSIZE]; omega)⟩
  rep := Rep.empty fun i => tagTable_eq_none.mpr (h _ (by simp only [BSIZE]; omega))

/-! ## The two searches -/

/-- The inner loop of `searchKey` compares the key and its terminator with the slot. -/
theorem keyAt_iff {o L : Nat} (ho : o + 10 ≤ BSIZE) (hL : strlen key = L) (hL9 : L ≤ 9) :
    ∀ fuel j, j + fuel = 10 → j ≤ L →
      (keyAt key str L o fuel j = true ↔ ∀ i, j ≤ i → i ≤ L → str (o + i) = key i) := by
  intro fuel
  induction fuel with
  | zero => intro j hj hjL; omega
  | succ fuel ih =>
    intro j hj hjL
    have hlt : o + j < BSIZE := by omega
    have hnul : key L = 0 := hL ▸ strlen_nul (by omega)
    unfold keyAt
    by_cases heq : key j = str (o + j)
    · rw [if_pos ⟨hlt, heq⟩]
      rcases Nat.lt_or_eq_of_le hjL with hjlt | rfl
      · rw [if_neg (fun hc => absurd hc.1 (Nat.ne_of_lt hjlt)), ih (j + 1) (by omega) hjlt]
        constructor
        · intro h i hi hiL
          rcases Nat.eq_or_lt_of_le hi with rfl | hi'
          · exact heq.symm
          · exact h i hi' hiL
        · exact fun h i hi hiL => h i (Nat.le_of_lt hi) hiL
      · -- the terminators meet: the key is found
        rw [if_pos ⟨rfl, hnul, heq ▸ hnul⟩]
        refine ⟨fun _ i hi hiL => ?_, fun _ => rfl⟩
        rw [Nat.le_antisymm hiL hi]; exact heq.symm
    · rw [if_neg fun hc => heq hc.2]
      exact ⟨fun h => absurd h Bool.false_ne_true, fun h => absurd (h j (Nat.le_refl j) hjL).symm heq⟩

/-- A valid key is found at a slot exactly when the slot holds it. -/
theorem keyAt_slot {i : Fin 16} (h1 : 1 ≤ strlen key) (h9 : strlen key ≤ 9) :
    keyAt key str (strlen key) (32 * i.val) 10 0 = true ↔
      tagTable str i = some (cstr key, slotValue str i) := by
  rw [keyAt_iff (by simp only [BSIZE]; omega) rfl h9 10 0 rfl (Nat.zero_le _), tagTable_eq_some]
  have hiff := cstr_eq_iff (s := fun j => str (32 * i.val + j)) (t := key) (by omega)
  constructor
  · intro h
    have h0 : str (32 * i.val) = key 0 := h 0 (Nat.le_refl 0) (Nat.zero_le _)
    refine ⟨?_, hiff.mpr fun j hj => h j (Nat.zero_le j) hj, rfl⟩
    rw [h0]; exact strlen_ne h1
  · rintro ⟨_, hk, _⟩ j _ hj
    exact hiff.mp hk j hj

theorem mem_slots {o : Nat} : o ∈ slots ↔ ∃ i : Fin 16, o = 32 * i.val := by
  simp only [slots, List.mem_map, List.mem_range]
  constructor
  · rintro ⟨i, hi, rfl⟩; exact ⟨⟨i, hi⟩, rfl⟩
  · rintro ⟨i, rfl⟩; exact ⟨i, i.isLt, rfl⟩

/-- **`searchKey`, found.** A stored key is found at its slot. -/
theorem searchKey_found (hb : TagBlock str m) (h1 : 1 ≤ strlen key) (h9 : strlen key ≤ 9)
    (hk : cstr key ∈ m) :
    ∃ (i : Fin 16) (v : TagValue), tagTable str i = some (cstr key, v) ∧ searchKey key str = (32 * i.val : Nat) := by
  obtain ⟨i, v, hi⟩ := hb.rep.mem_iff.mp hk
  have hat : keyAt key str (strlen key) (32 * i.val) 10 0 = true := by
    rw [keyAt_slot h1 h9, hi, ← (tagTable_eq_some.mp hi).2.2]
  unfold searchKey
  cases hf : slots.find? fun o => keyAt key str (strlen key) o 10 0 with
  | none =>
    exact absurd hat (by simpa using List.find?_eq_none.mp hf _ (mem_slots.mpr ⟨i, rfl⟩))
  | some o =>
    obtain ⟨j, rfl⟩ := mem_slots.mp (List.mem_of_find?_eq_some hf)
    exact ⟨j, _, (keyAt_slot h1 h9).mp (by simpa using List.find?_some hf), rfl⟩

/-- **`searchKey`, not found.** -/
theorem searchKey_none (hb : TagBlock str m) (h1 : 1 ≤ strlen key) (h9 : strlen key ≤ 9)
    (hk : cstr key ∉ m) : searchKey key str = -1 := by
  unfold searchKey
  cases hf : slots.find? fun o => keyAt key str (strlen key) o 10 0 with
  | none => rfl
  | some o =>
    obtain ⟨j, rfl⟩ := mem_slots.mp (List.mem_of_find?_eq_some hf)
    have hj := (keyAt_slot h1 h9).mp (by simpa using List.find?_some hf)
    exact absurd (hb.rep.mem_iff.mpr ⟨j, _, hj⟩) hk

/-- **`searchEnd`, found.** With fewer than 16 entries a free slot is found. -/
theorem searchEnd_found (hb : TagBlock str m) (hlt : m.keys.card < 16) :
    ∃ i : Fin 16, tagTable str i = none ∧ searchEnd str = (32 * i.val : Nat) := by
  obtain ⟨i, hi⟩ := hb.rep.card_lt_iff.mp hlt
  unfold searchEnd
  cases hf : slots.find? fun o => str o = 0 with
  | none =>
    exact absurd (tagTable_eq_none.mp hi) (by simpa using List.find?_eq_none.mp hf _ (mem_slots.mpr ⟨i, rfl⟩))
  | some o =>
    obtain ⟨j, rfl⟩ := mem_slots.mp (List.mem_of_find?_eq_some hf)
    exact ⟨j, tagTable_eq_none.mpr (by simpa using List.find?_some hf), rfl⟩

/-- **`searchEnd`, full.** -/
theorem searchEnd_full (hb : TagBlock str m) (hfull : ¬ m.keys.card < 16) : searchEnd str = -1 := by
  unfold searchEnd
  cases hf : slots.find? fun o => str o = 0 with
  | none => rfl
  | some o =>
    obtain ⟨j, rfl⟩ := mem_slots.mp (List.mem_of_find?_eq_some hf)
    have hj : tagTable str j = none := tagTable_eq_none.mpr (by simpa using List.find?_some hf)
    exact absurd (hb.rep.card_lt_iff.mpr ⟨j, hj⟩) hfull

/-! ## The three writes -/

/-- **Write lemma.** A write confined to slot `i` is an update of the table at `i`. -/
theorem TagBlock.write (hb : TagBlock str m) {str' : Arr} {i : Fin 16} {e : Option (TagKey × TagValue)}
    {m' : TagMap} (hout : ∀ o, o < 32 * i.val ∨ 32 * i.val + 28 ≤ o → str' o = str o)
    (hterm : ∃ j ≤ 9, str' (32 * i.val + j) = 0) (hi : tagTable str' i = e)
    (hrep : Rep (Function.update (tagTable str) i e) m') : TagBlock str' m' where
  term := by
    intro a ha
    by_cases hai : a = i.val
    · subst hai; exact hterm
    · obtain ⟨j, hj, h0⟩ := hb.term a ha
      exact ⟨j, hj, by rw [hout _ (by omega)]; exact h0⟩
  rep := by
    have htab : tagTable str' = Function.update (tagTable str) i e := by
      funext a
      by_cases hai : a = i
      · rw [hai, Function.update_self, hi]
      · have hne : a.val ≠ i.val := fun h => hai (Fin.ext h)
        rw [Function.update_of_ne hai]
        exact tagTable_congr (hb.term a a.isLt) fun j hj => hout _ (by omega)
    rw [htab]; exact hrep

/-- The value bytes a slot has after they were cleared and `n` bytes copied there. -/
theorem slotValue_blit {d : Arr} {i n : Nat} (hz : ∀ j < 18, d (32 * i + 10 + j) = 0) :
    slotValue (blit d (32 * i + 10) n value) i = pad value n := by
  refine List.map_congr_left fun j hj => ?_
  have hj18 := List.mem_range.mp hj
  by_cases hjn : j < n
  · rw [blit_in (by omega) (by omega), if_pos hjn]
    congr 1; omega
  · rw [blit_out (by omega), if_neg hjn]
    exact hz j hj18

/-- **Inserting.** A new slot for a key that is not stored is `insert`. -/
theorem TagBlock.insert (hb : TagBlock str m) {i : Fin 16} {n : Nat} (hi : tagTable str i = none)
    (h1 : 1 ≤ strlen key) (h9 : strlen key ≤ 9) (hn : n ≤ 18) (hk : cstr key ∉ m) :
    TagBlock (newSlot str (32 * i.val) key (strlen key) value n) (m.insert (cstr key) (pad value n)) := by
  -- the slot's bytes: the key, zeroes up to byte 10, then the value
  have hkey : ∀ j ≤ strlen key, newSlot str (32 * i.val) key (strlen key) value n (32 * i.val + j) = key j := by
    intro j hj
    rw [newSlot, blit_out (by omega)]
    rcases Nat.lt_or_eq_of_le hj with hlt | rfl
    · rw [blit_in (by omega) (by omega)]; congr 1; omega
    · rw [blit_out (by omega), fill_in (by omega) (by omega)]
      exact (strlen_nul (by omega)).symm
  have hnul : key (strlen key) = 0 := strlen_nul (by omega)
  refine hb.write (i := i) (fun o ho => ?_) ⟨strlen key, h9, (hkey _ (Nat.le_refl _)).trans hnul⟩
    (tagTable_eq_some.mpr ⟨?_, (cstr_eq_iff (by omega)).mpr hkey, ?_⟩) (hb.rep.fill hi hk _)
  · rw [newSlot, blit_out (by omega), blit_out (by omega), fill_out (by omega)]
  · have h0 := hkey 0 (Nat.zero_le _)
    rw [Nat.add_zero] at h0
    rw [h0]; exact strlen_ne h1
  · refine slotValue_blit fun j hj => ?_
    rw [blit_out (by omega), fill_in (by omega) (by omega)]

/-- **Overwriting.** Replacing the value in the slot of a stored key is `insert`. -/
theorem TagBlock.overwrite (hb : TagBlock str m) {i : Fin 16} {n : Nat} {k : TagKey} {v : TagValue}
    (hi : tagTable str i = some (k, v)) (hn : n ≤ 18) :
    TagBlock (newValue str (32 * i.val) value n) (m.insert k (pad value n)) := by
  obtain ⟨h0, rfl, _⟩ := tagTable_eq_some.mp hi
  obtain ⟨j, hj, hnul⟩ := hb.term i i.isLt
  have hkey : ∀ j < 10, newValue str (32 * i.val) value n (32 * i.val + j) = str (32 * i.val + j) := by
    intro j hj
    rw [newValue, blit_out (by omega), fill_out (by omega)]
  have hlen : strlen (fun j => str (32 * i.val + j)) ≤ j := strlen_le_of_nul hnul
  refine hb.write (i := i) (fun o ho => ?_) ⟨j, hj, (hkey j (by omega)).trans hnul⟩
    (tagTable_eq_some.mpr ⟨?_, (cstr_eq_iff (by omega)).mpr fun a ha => hkey a (by omega), ?_⟩)
    (hb.rep.overwrite hi _)
  · rw [newValue, blit_out (by omega), fill_out (by omega)]
  · rw [show newValue str (32 * i.val) value n (32 * i.val) = _ from hkey 0 (by omega)]
    exact h0
  · exact slotValue_blit fun j hj => fill_in (by omega) (by omega)

/-- **Removing.** Zeroing the slot of a stored key is `erase`. -/
theorem TagBlock.erase (hb : TagBlock str m) {i : Fin 16} {k : TagKey} {v : TagValue}
    (hi : tagTable str i = some (k, v)) : TagBlock (fill str (32 * i.val) 28 0) (m.erase k) := by
  have h0 : fill str (32 * i.val) 28 0 (32 * i.val) = 0 := fill_in (by omega) (by omega)
  exact hb.write (i := i) (fun o ho => fill_out (by omega)) ⟨0, by omega, h0⟩ (tagTable_eq_none.mpr h0)
    (hb.rep.clear hi)

end Xv6
