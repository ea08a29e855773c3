import Xv6.Sys.TagAnswer

/-!
# `Sys.TagFind` — which files `getFilesByTag` finds

A tag block does not say how long a value is: `tagFile` pads it with zeroes, and `getFilesByTag` takes the zeroes at
its end for padding. Nor does the search refuse the empty key, which is what a free slot looks like. This module
follows the contents of a tag block along the calls that wrote it, with the values as they were given, and says which
files a query finds.

## Contents
- **Tag blocks.** `Carries`: the block after a history of calls and the tags they left; `tagFileLocked_carries`.
- **Matching.** `tagMatches_iff`: what a query finds in such a block.
- **The root directory.** `RootTagged`, `tagScan_eq`: the walk meets every entry.
- **Results.** When the files found are those that carry the tag.
-/

namespace Xv6

open Bytes Hoare SlotTable

variable {str str' key value : Arr} {V m : TagMap}

/-! ## The history of a tag block -/

/-- What `tagFile` makes of a tag block, if it returns 1. -/
def tagged (str key value : Arr) (n : Nat) : Option Arr :=
  if searchKey key str < 0 then
    if searchEnd str < 0 then none else some (newSlot str (searchEnd str).toNat key (strlen key) value n)
  else some (newValue str (searchKey key str).toNat value n)

/-- What `removeFileTag` makes of a tag block, if it returns 1. -/
def untagged (str key : Arr) : Option Arr :=
  if searchKey key str < 0 then none else some (fill str (searchKey key str).toNat 28 0)

/-- The first `n` bytes of a value. -/
def bytesOf (v : Arr) (n : Nat) : List UInt8 := (List.range n).map v

/-- **The tags a block carries**, with the values as they were given: the block was zero, and each call that succeeded
    changed it. -/
inductive Carries : Arr → TagMap → Prop
  | zero {str : Arr} (h : ∀ i < BSIZE, str i = 0) : Carries str ∅
  | tag {str str' key value : Arr} {V : TagMap} {n : Nat} (h : Carries str V) (h1 : 1 ≤ strlen key) (h9 : strlen key ≤ 9)
      (hn : n ≤ 18) (hs : tagged str key value n = some str') : Carries str' (V.insert (cstr key) (bytesOf value n))
  | untag {str str' key : Arr} {V : TagMap} (h : Carries str V) (h1 : 1 ≤ strlen key) (h9 : strlen key ≤ 9)
      (hs : untagged str key = some str') : Carries str' (V.erase (cstr key))

/-- A key that is found is stored where it is found. -/
theorem TagBlock.found (hb : TagBlock str m) (h1 : 1 ≤ strlen key) (h9 : strlen key ≤ 9) (h : ¬ searchKey key str < 0) :
    ∃ (i : Fin 16) (v : TagValue), tagTable str i = some (cstr key, v) ∧ searchKey key str = (32 * i.val : Nat) := by
  refine searchKey_found hb h1 h9 ?_
  by_contra hk
  rw [searchKey_none hb h1 h9 hk] at h
  exact h (by decide)

/-- A value with its padding. -/
def padded (v : List UInt8) : TagValue := (List.range 18).map fun j => v.getD j 0

theorem pad_eq_padded (v : Arr) (n : Nat) : pad v n = padded (bytesOf v n) := by
  refine List.map_congr_left fun j _ => ?_
  by_cases hj : j < n
  · rw [if_pos hj, List.getD_eq_getElem _ _ (by simpa [bytesOf] using hj)]
    simp [bytesOf]
  · rw [if_neg hj, List.getD_eq_default _ _ (by simpa [bytesOf] using hj)]

/-- **What such a block looks like**: it represents the tags with padded values, and its free slots are zero. -/
structure TagLayout (str : Arr) (V : TagMap) : Prop where
  block : ∃ m, TagBlock str m ∧ ∀ k, m.lookup k = (V.lookup k).map padded
  short : ∀ k v, V.lookup k = some v → v.length ≤ 18
  free : ∀ i < 16, str (32 * i) = 0 → ∀ j < 28, str (32 * i + j) = 0

theorem Carries.layout (h : Carries str V) : TagLayout str V := by
  induction h with
  | zero h =>
    refine ⟨⟨∅, TagBlock.zero h, fun k => ?_⟩, fun k v hv => ?_, fun i hi _ j hj => h _ (by simp only [BSIZE]; omega)⟩
    · simp
    · simp at hv
  | @tag str str' key value V n h h1 h9 hn hs ih =>
    obtain ⟨⟨m, hb, hm⟩, hshort, hfree⟩ := ih
    -- both ways to store the tag insert it into the map
    have hins : ∀ {str' : Arr}, TagBlock str' (m.insert (cstr key) (pad value n)) →
        (∀ i < 16, str' (32 * i) = 0 → ∀ j < 28, str' (32 * i + j) = 0) →
        TagLayout str' (V.insert (cstr key) (bytesOf value n)) := by
      intro str' hb' hfree'
      refine ⟨⟨_, hb', fun k => ?_⟩, fun k v hv => ?_, hfree'⟩
      · by_cases hk : k = cstr key
        · rw [hk, Finmap.lookup_insert, Finmap.lookup_insert, Option.map_some, pad_eq_padded]
        · rw [Finmap.lookup_insert_of_ne _ hk, Finmap.lookup_insert_of_ne _ hk, hm]
      · by_cases hk : k = cstr key
        · rw [hk, Finmap.lookup_insert] at hv
          rw [← Option.some.inj hv]
          simpa [bytesOf] using hn
        · rw [Finmap.lookup_insert_of_ne _ hk] at hv
          exact hshort k v hv
    unfold tagged at hs
    split at hs
    · rename_i hno
      split at hs
      · cases hs
      · rename_i hend
        obtain ⟨i, hi, heq, h0⟩ := searchEnd_nonneg hend
        obtain rfl := Option.some.inj hs
        rw [heq, Int.toNat_natCast]
        have hk : cstr key ∉ m := by
          intro hk
          obtain ⟨i', -, -, hpos⟩ := searchKey_found hb h1 h9 hk
          omega
        refine hins (hb.insert (i := ⟨i, hi⟩) (tagTable_eq_none.mpr h0) h1 h9 hn hk) fun a ha haz j hj => ?_
        have hne : a ≠ i := by
          rintro rfl
          rw [newSlot, blit_out (by omega), blit_in (by omega) (by omega), Nat.sub_self] at haz
          exact strlen_ne h1 haz
        have hsame : ∀ j < 28, newSlot str (32 * i) key (strlen key) value n (32 * a + j) = str (32 * a + j) := by
          intro j hj
          rw [newSlot, blit_out (by omega), blit_out (by omega), fill_out (by omega)]
        rw [hsame j hj]
        exact hfree a ha (by rw [← haz]; exact (hsame 0 (by decide)).symm) j hj
    · rename_i hpos
      obtain rfl := Option.some.inj hs
      obtain ⟨i, v, hslot, heq⟩ := hb.found h1 h9 hpos
      rw [heq, Int.toNat_natCast]
      refine hins (hb.overwrite hslot hn) fun a ha haz j hj => ?_
      have hkey : newValue str (32 * i.val) value n (32 * a) = str (32 * a) := by
        rw [newValue, blit_out (by omega), fill_out (by omega)]
      have hne : a ≠ i.val := by
        rintro rfl
        exact (tagTable_eq_some.mp hslot).1 (hkey.symm.trans haz)
      rw [newValue, blit_out (by omega), fill_out (by omega)]
      exact hfree a ha (hkey.symm.trans haz) j hj
  | @untag str str' key V h h1 h9 hs ih =>
    obtain ⟨⟨m, hb, hm⟩, hshort, hfree⟩ := ih
    unfold untagged at hs
    split at hs
    · cases hs
    rename_i hpos
    obtain rfl := Option.some.inj hs
    obtain ⟨i, v, hslot, heq⟩ := hb.found h1 h9 hpos
    rw [heq, Int.toNat_natCast]
    refine ⟨⟨_, hb.erase hslot, fun k => ?_⟩, fun k v hv => ?_, fun a ha haz j hj => ?_⟩
    · by_cases hk : k = cstr key
      · rw [hk, Finmap.lookup_erase, Finmap.lookup_erase]
        rfl
      · rw [Finmap.lookup_erase_ne hk, Finmap.lookup_erase_ne hk, hm]
    · by_cases hk : k = cstr key
      · rw [hk, Finmap.lookup_erase] at hv
        cases hv
      · rw [Finmap.lookup_erase_ne hk] at hv
        exact hshort k v hv
    · by_cases hai : a = i.val
      · exact fill_in (by omega) (by omega)
      · rw [fill_out (by omega)] at haz ⊢
        exact hfree a ha haz j hj

section Calls

variable {s : Fs} {x : Slot} {n : Nat}

/-- The end of a tag call: the cache is as before, and the tag block as it was written. -/
theorem Tagged.iunlock_str (ht : Tagged s x) {s1 : Fs} (hc : s1.icache = (s.locked x).icache) :
    wp (iunlock x) (fun _ s' => Tagged s' x ∧ s'.tagStr x = s1.disk (s.icache x).dev (s.icache x).tags)
      (fun _ _ => False) s1 :=
  (wp_iunlock_locked ht.ref ht.idle hc).mpr ⟨⟨ht.ref, ht.idle, ht.valid, ht.tags⟩, rfl⟩

/-- **`tagFile`** stores the value as it was given. -/
theorem tagFileLocked_carries {key value : Nat} (ht : Tagged s x) (h : Carries (s.tagStr x) V)
    (h1 : 1 ≤ strlen fun j => s.mem (key + j)) (h9 : (strlen fun j => s.mem (key + j)) ≤ 9) (hn : n ≤ 18) :
    wp (tagFileLocked x key value n)
      (fun r s' => Tagged s' x ∧ Carries (s'.tagStr x)
        (if r = 1 then V.insert (strAt s.mem key) (bytesOf (fun j => s.mem (value + j)) n) else V))
      (fun _ _ => False) s := by
  simp only [tagFileLocked, wp_bind]
  rw [wp_ilock_valid ht.ref ht.idle ht.valid]
  show wp (tagBlock x) _ _ (s.locked x)
  rw [wp_tagBlock (by rw [locked_self]; exact ht.tags)]
  simp only [wp_inode, wp_bread, userStr, wp_bind, wp_get, wp_pure, locked_self, locked_tagStr, locked_mem, wp_ite, wp_loadUser, wp_bwrite]
  refine ⟨fun hno => ⟨fun hend => ?_, fun hend => ?_⟩, fun hfound => ?_⟩
  · refine wp_post (ht.iunlock_str rfl) ?_
    rintro _ s' ⟨ht', hs'⟩
    rw [if_neg (by decide), hs']
    exact ⟨ht', h⟩
  · refine wp_post (ht.iunlock_str rfl) ?_
    rintro _ s' ⟨ht', hs'⟩
    rw [if_pos trivial, hs', setSector_disk, Function.update_self]
    exact ⟨ht', h.tag h1 h9 hn (by rw [tagged, if_pos hno, if_neg hend])⟩
  · refine wp_post (ht.iunlock_str rfl) ?_
    rintro _ s' ⟨ht', hs'⟩
    rw [if_pos trivial, hs', setSector_disk, Function.update_self]
    exact ⟨ht', h.tag h1 h9 hn (by rw [tagged, if_neg hfound])⟩

/-- **`removeFileTag`** removes it. -/
theorem removeFileTagLocked_carries {key : Nat} (ht : Tagged s x) (h : Carries (s.tagStr x) V)
    (h1 : 1 ≤ strlen fun j => s.mem (key + j)) (h9 : (strlen fun j => s.mem (key + j)) ≤ 9) :
    wp (removeFileTagLocked x key)
      (fun r s' => Tagged s' x ∧ Carries (s'.tagStr x) (if r = 1 then V.erase (strAt s.mem key) else V))
      (fun _ _ => False) s := by
  simp only [removeFileTagLocked, wp_bind]
  rw [wp_ilock_valid ht.ref ht.idle ht.valid]
  show wp (inode x) _ _ (s.locked x)
  simp only [wp_inode, wp_bread, userStr, wp_bind, wp_get, wp_pure, locked_self, locked_tagStr, locked_mem, wp_ite, wp_bwrite]
  refine ⟨fun hno => ?_, fun hfound => ?_⟩
  · refine wp_post (ht.iunlock_str rfl) ?_
    rintro _ s' ⟨ht', hs'⟩
    rw [if_neg (by decide), hs']
    exact ⟨ht', h⟩
  · refine wp_post (ht.iunlock_str rfl) ?_
    rintro _ s' ⟨ht', hs'⟩
    rw [if_pos trivial, hs', setSector_disk, Function.update_self]
    exact ⟨ht', h.untag h1 h9 (by rw [untagged, if_neg hfound])⟩

end Calls

/-! ## Matching -/

/-- The length of a value without the zeroes at its end. -/
def stripLen (v : List UInt8) : Nat := valueLen (fun j => v.getD j 0) v.length

/-- A value without the zeroes at its end. -/
def strip (v : List UInt8) : List UInt8 := v.take (stripLen v)

/-- A value that ends with a zero byte. -/
def NulEnded (v : List UInt8) : Prop := v.getLast? = some 0

instance (v : List UInt8) : Decidable (NulEnded v) := inferInstanceAs (Decidable (_ = _))

/-- `v` is the value `w[0 .. n)`. -/
def IsValue (v : List UInt8) (w : Arr) (n : Int) : Prop := (v.length : Int) = n ∧ v = bytesOf w v.length

instance (v : List UInt8) (w : Arr) (n : Int) : Decidable (IsValue v w n) := inferInstanceAs (Decidable (_ ∧ _))

theorem stripLen_le (v : List UInt8) : stripLen v ≤ v.length := valueLen_le _ _

theorem length_strip (v : List UInt8) : (strip v).length = stripLen v := by
  rw [strip, List.length_take, Nat.min_eq_left (stripLen_le v)]

theorem isValue_strip {v : List UInt8} {w : Arr} {n : Int} :
    IsValue (strip v) w n ↔ (stripLen v : Int) = n ∧ ∀ j < stripLen v, v.getD j 0 = w j := by
  have hle := stripLen_le v
  rw [IsValue, length_strip]
  refine and_congr_right fun _ => ⟨fun h j hj => ?_, fun h => ?_⟩
  · have hget := congrArg (fun l => l.getD j 0) h
    simp only [strip, bytesOf] at hget
    rw [List.getD_eq_getElem _ _ (by simp; omega), List.getD_eq_getElem _ _ (by simpa using hj)] at hget
    rw [List.getD_eq_getElem _ _ (by omega)]
    simpa using hget
  · refine List.ext_getElem (by simp [length_strip, bytesOf]) fun j hj hj' => ?_
    rw [length_strip] at hj
    have := h j hj
    rw [List.getD_eq_getElem _ _ (by omega)] at this
    simpa [strip, bytesOf] using this

/-- Nothing is stripped of a value that does not end with a zero. -/
theorem strip_eq {v : List UInt8} (h : ¬ NulEnded v) : strip v = v := by
  refine List.take_of_length_le (Nat.le_of_eq ?_)
  rw [stripLen, valueLen_eq (Nat.le_refl _) (fun h0 => ?_) fun j hj hlt => absurd hlt (Nat.not_lt.mpr hj)]
  intro hlast
  refine h ?_
  rw [NulEnded, List.getLast?_eq_getElem?, List.getElem?_eq_getElem (by omega)]
  rw [List.getD_eq_getElem _ _ (by omega)] at hlast
  rw [hlast]

theorem strip_not_nulEnded (v : List UInt8) : ¬ NulEnded (strip v) := by
  intro h
  rw [NulEnded, List.getLast?_eq_getElem?, length_strip] at h
  obtain ⟨hlt, heq⟩ := List.getElem?_eq_some_iff.mp h
  rw [length_strip] at hlt
  have hlast := @valueLen_last (fun j => v.getD j 0) v.length (by unfold stripLen at hlt; omega)
  refine hlast ?_
  simp only [strip, List.getElem_take] at heq
  have hle := valueLen_le (fun j => v.getD j 0) v.length
  unfold stripLen at hlt heq
  rw [List.getD_eq_getElem _ _ (by omega)]
  exact heq

/-- A key that does not fit in a slot is not found. -/
theorem keyAt_long {L o : Nat} : ∀ fuel j, j + fuel ≤ L → keyAt key str L o fuel j = false := by
  intro fuel
  induction fuel with
  | zero => exact fun _ _ => rfl
  | succ fuel ih =>
    intro j hj
    rw [keyAt, if_neg (show ¬ (j = L ∧ key j = 0 ∧ str (o + j) = 0) by omega), ih (j + 1) (by omega), ite_self]

theorem searchKey_long (h : 9 < strlen key) : searchKey key str < 0 := by
  by_contra hpos
  obtain ⟨i, hi, heq⟩ := searchKey_nonneg hpos
  have := ((searchKey_eq_iff hi).mp heq).1
  rw [keyAt_long 10 0 (by omega)] at this
  cases this

/-- The empty key is found in a free slot. -/
theorem searchKey_empty (h : strlen key = 0) :
    (∃ i < 16, searchKey key str = (32 * i : Nat) ∧ str (32 * i) = 0) ∨
      searchKey key str < 0 ∧ ∀ i < 16, str (32 * i) ≠ 0 := by
  have hk : key 0 = 0 := by
    have := @strlen_nul key (by omega)
    rwa [h] at this
  have hat : ∀ i < 16, keyAt key str (strlen key) (32 * i) 10 0 = true ↔ str (32 * i) = 0 := by
    intro i hi
    rw [keyAt_iff (by simp only [BSIZE]; omega) rfl (by omega) 10 0 rfl (Nat.zero_le _), h]
    constructor
    · intro hall
      exact (hall 0 (Nat.le_refl 0) (Nat.le_refl 0)).trans hk
    · intro h0 l _ hl
      obtain rfl : l = 0 := by omega
      exact h0.trans hk.symm
  by_cases hneg : searchKey key str < 0
  · refine .inr ⟨hneg, fun i hi h0 => ?_⟩
    have := searchKey_neg hneg hi
    rw [(hat i hi).mpr h0] at this
    cases this
  · obtain ⟨i, hi, heq⟩ := searchKey_nonneg hneg
    exact .inl ⟨i, hi, heq, (hat i hi).mp ((searchKey_eq_iff hi).mp heq).1⟩

/-- A match, once the key is found. -/
theorem tagMatches_at {k w : Arr} {n : Int} {i : Nat} {v : List UInt8} (hk : searchKey k str = (32 * i : Nat))
    (hlen : v.length ≤ 18) (hv : ∀ j < 18, str (32 * i + 10 + j) = v.getD j 0) :
    tagMatches str k w n = true ↔ IsValue (strip v) w n := by
  have hle := stripLen_le v
  have hzero : ∀ j, stripLen v ≤ j → v.getD j 0 = 0 := by
    intro j hj
    by_cases hlt : j < v.length
    · exact @valueLen_zero (fun j => v.getD j 0) v.length j hj hlt
    · exact List.getD_eq_default _ _ (by omega)
  have hval : valueLen (fun j => str (32 * i + 10 + j)) 18 = stripLen v := by
    refine valueLen_eq (by omega) (fun h0 => ?_) fun j hj hlt => ?_
    · rw [hv _ (by omega)]
      exact @valueLen_last (fun j => v.getD j 0) v.length h0
    · rw [hv j hlt]
      exact hzero j hj
  rw [isValue_strip, tagMatches]
  simp only [hk, Int.toNat_natCast, hval, decide_eq_true_eq, List.all_eq_true, List.mem_range]
  constructor
  · rintro ⟨-, hn, hall⟩
    exact ⟨hn, fun j hj => by rw [← hv j (by omega)]; exact hall j hj⟩
  · rintro ⟨hn, hall⟩
    exact ⟨by omega, hn, fun j hj => by rw [hv j (by omega)]; exact hall j hj⟩

theorem tagMatches_neg {k w : Arr} {n : Int} (hk : searchKey k str < 0) : ¬ tagMatches str k w n = true := by
  rw [tagMatches]
  simp only [decide_eq_true_eq]
  omega

/-- **What a key matches** in a tag block of the given layout: the value stored for it, without the zeroes at its end;
    and the empty key matches a free slot. -/
theorem tagMatches_iff {k w : Arr} {n : Int} (h : TagLayout str V) :
    tagMatches str k w n = true ↔ (∃ v, V.lookup (cstr k) = some v ∧ IsValue (strip v) w n) ∨
      cstr k = [] ∧ n = 0 ∧ ∃ i < 16, str (32 * i) = 0 := by
  obtain ⟨⟨m, hb, hm⟩, hshort, hfree⟩ := h
  -- a stored key has 1 to 9 bytes
  have hkeys : ∀ {v}, V.lookup (cstr k) = some v → 1 ≤ strlen k ∧ strlen k ≤ 9 := by
    intro v hv
    have hmv : m.lookup (cstr k) = some (padded v) := by rw [hm, hv]; rfl
    have he := hb.entries hmv
    rw [length_cstr] at he
    exact ⟨he.1, he.2.1⟩
  rcases Nat.lt_or_ge 9 (strlen k) with hlong | h9
  · refine ⟨fun hc => absurd hc (tagMatches_neg (searchKey_long hlong)), ?_⟩
    rintro (⟨v, hv, -⟩ | ⟨h0, -⟩)
    · have := hkeys hv
      omega
    · have := congrArg List.length h0
      rw [length_cstr, List.length_nil] at this
      omega
  by_cases h0 : strlen k = 0
  · have hnil : cstr k = [] := List.eq_nil_of_length_eq_zero (by rw [length_cstr, h0])
    have hnone : ¬ ∃ v, V.lookup (cstr k) = some v ∧ IsValue (strip v) w n := by
      rintro ⟨v, hv, -⟩
      have := hkeys hv
      omega
    rcases @searchKey_empty str k h0 with ⟨i, hi, heq, hz⟩ | ⟨hneg, hfull⟩
    · -- the slot is zero throughout, so it looks like an empty value
      rw [tagMatches_at (v := []) heq (Nat.zero_le _) fun j hj => ?_]
      · constructor
        · exact fun hv => .inr ⟨hnil, hv.1.symm, i, hi, hz⟩
        · rintro (hv | ⟨-, rfl, -⟩)
          · exact absurd hv hnone
          · exact ⟨rfl, rfl⟩
      · rw [Nat.add_assoc, hfree i hi hz (10 + j) (by omega)]
        rfl
    · refine ⟨fun hc => absurd hc (tagMatches_neg hneg), ?_⟩
      rintro (hv | ⟨-, -, i, hi, hz⟩)
      · exact absurd hv hnone
      · exact absurd hz (hfull i hi)
  have h1 : 1 ≤ strlen k := Nat.one_le_iff_ne_zero.mpr h0
  have hne : cstr k ≠ [] := fun hc => h0 (by rw [← length_cstr, hc]; rfl)
  by_cases hk : cstr k ∈ m
  · obtain ⟨i, pv, hslot, heq⟩ := searchKey_found hb h1 h9 hk
    have hlook : m.lookup (cstr k) = some pv := hb.rep.lookup.mpr ⟨i, hslot⟩
    obtain ⟨v, hv, rfl⟩ := Option.map_eq_some_iff.mp ((hm _).symm.trans hlook)
    have hbytes : ∀ j < 18, str (32 * i.val + 10 + j) = v.getD j 0 := by
      intro j hj
      have hslotv := (tagTable_eq_some.mp hslot).2.2
      have hget := congrArg (fun l => l.getD j 0) hslotv
      simpa [slotValue, padded, List.getD_eq_getElem, hj] using hget
    rw [tagMatches_at heq (hshort _ _ hv) hbytes]
    constructor
    · exact fun hval => .inl ⟨v, hv, hval⟩
    · rintro (⟨v', hv', hval⟩ | ⟨hc, -⟩)
      · rw [hv] at hv'
        rw [Option.some.inj hv']
        exact hval
      · exact absurd hc hne
  · refine ⟨fun hc => absurd hc (tagMatches_neg (by rw [searchKey_none hb h1 h9 hk]; decide)), ?_⟩
    rintro (⟨v, hv, -⟩ | ⟨hc, -⟩)
    · have hmv : m.lookup (cstr k) = some (padded v) := by rw [hm, hv]; rfl
      exact absurd (Finmap.mem_of_lookup_eq_some hmv) hk
    · exact absurd hc hne

/-! ## The root directory -/

section Root

variable (s : Fs) (root : Slot)

/-- Address of block `n` of the directory. -/
def rootAddr (n : Nat) : Nat :=
  if n < NDIRECT then (s.icache root).addrs n
  else u32 (s.disk ROOTDEV ((s.icache root).addrs NDIRECT)) (4 * (n - NDIRECT))

/-- Number of blocks of the directory. -/
def rootBlocks : Nat := ((s.icache root).size + BSIZE - 1) / BSIZE

/-- Inode number of entry `i`. -/
def entryInum (i : Nat) : Nat := direntInum (s.disk ROOTDEV (rootAddr s root (i / 32))) (16 * (i % 32))

/-- Where the name of entry `i` stands in its block. -/
def entryName (i : Nat) : Arr := fun j => s.disk ROOTDEV (rootAddr s root (i / 32)) (16 * (i % 32) + 2 + j)

/-- Entry `i` is in use. -/
def Entry (i : Nat) : Prop := 16 * i < (s.icache root).size ∧ entryInum s root i ≠ 0

instance (i : Nat) : Decidable (Entry s root i) := inferInstanceAs (Decidable (_ ∧ _))

/-- **The root directory is cached**, with all its blocks, and so is every inode it names, with the tags field that
    belongs to it: no tag block and no tags, or a block that carries the tags `V` of the inode. -/
structure RootTagged (V : Nat → TagMap) : Prop where
  cached : s.cached ROOTDEV ROOTINO = some root
  mapped : ∀ n < rootBlocks s root, n < NDIRECT + NINDIRECT ∧ rootAddr s root n ≠ 0 ∧
    (NDIRECT ≤ n → (s.icache root).addrs NDIRECT ≠ 0)
  tail : ∀ i < 32 * rootBlocks s root, (s.icache root).size ≤ 16 * i → entryInum s root i = 0
  tags : ∀ i, Entry s root i → ∃ x, s.cached ROOTDEV (entryInum s root i) = some x ∧
    ((s.icache x).tags = 0 ∧ V (entryInum s root i) = ∅ ∨
      (s.icache x).tags ≠ 0 ∧ Carries (s.disk ROOTDEV (s.icache x).tags) (V (entryInum s root i)))

/-- The candidate at entry `i`. -/
def candidate (i : Nat) : Option Candidate :=
  if entryInum s root i = 0 then none
  else
    match s.cached ROOTDEV (entryInum s root i) with
    | none => none
    | some x =>
      if (s.icache x).tags = 0 then none else some ⟨entryName s root i, s.disk ROOTDEV (s.icache x).tags⟩

end Root

section Walk

variable {s s1 : Fs} {root x : Slot} {dev inum : Nat}

/-- More references to what is cached, and nothing else. -/
structure MoreRefs (s s1 : Fs) : Prop where
  disk : s1.disk = s.disk
  rest : ∀ x, s1.icache x = { s.icache x with ref := (s1.icache x).ref }
  live : ∀ x, 0 < (s1.icache x).ref ↔ 0 < (s.icache x).ref

theorem MoreRefs.refl (s : Fs) : MoreRefs s s := ⟨rfl, fun _ => rfl, fun _ => Iff.rfl⟩

theorem MoreRefs.cached (h : MoreRefs s s1) : s1.cached dev inum = s.cached dev inum := by
  unfold Fs.cached
  congr 1
  funext y
  have hdev : (s1.icache y).dev = (s.icache y).dev := by rw [h.rest y]
  have hinum : (s1.icache y).inum = (s.icache y).inum := by rw [h.rest y]
  rw [hdev, hinum, decide_eq_decide, h.live y]

/-- **`iget`** of a cached inode. -/
theorem MoreRefs.iget (h : MoreRefs s s1) (hx : s.cached dev inum = some x) :
    ∃ s2, exec (Xv6.iget dev inum) s1 = (.ok x, s2) ∧ MoreRefs s s2 := by
  refine ⟨s1.setInode x { s1.icache x with ref := (s1.icache x).ref + 1 }, ?_, h.disk, fun y => ?_, fun y => ?_⟩
  · rw [exec_iget, h.cached, hx, Option.elim_some]
  · by_cases hy : y = x
    · rw [hy, setInode_icache, Function.update_self, h.rest x]
    · rw [setInode_icache, Function.update_of_ne hy]
      exact h.rest y
  · by_cases hy : y = x
    · have hlive : 0 < (s.icache x).ref := by
        have := List.find?_some hx
        simp only [decide_eq_true_eq] at this
        exact this.1
      have hlive1 := (h.live x).mpr hlive
      rw [hy, setInode_icache, Function.update_self]
      simp only [hlive, iff_true]
      omega
    · rw [setInode_icache, Function.update_of_ne hy]
      exact h.live y

/-- **`bmap`** of a block that is there. -/
theorem MoreRefs.bmap (h : MoreRefs s s1) {n : Nat} (hdev : (s.icache root).dev = ROOTDEV) (hn : n < NDIRECT + NINDIRECT)
    (h0 : rootAddr s root n ≠ 0) (hind : NDIRECT ≤ n → (s.icache root).addrs NDIRECT ≠ 0) :
    exec (Xv6.bmap root n) s1 = (.ok (rootAddr s root n), s1) := by
  have haddrs : (s1.icache root).addrs = (s.icache root).addrs := by rw [h.rest root]
  have hdev1 : (s1.icache root).dev = ROOTDEV := by rw [h.rest root]; exact hdev
  have halloc : ∀ k, (s.icache root).addrs k ≠ 0 → exec (addrAlloc root k) s1 = (.ok ((s.icache root).addrs k), s1) := by
    intro k hk
    show exec (if (s1.icache root).addrs k = 0 then _ else _) s1 = _
    rw [haddrs, if_neg hk]
    rfl
  unfold Xv6.bmap rootAddr at *
  by_cases hlt : n < NDIRECT
  · rw [if_pos hlt] at h0 ⊢
    rw [if_pos hlt, halloc n h0]
  · rw [if_neg hlt] at h0 ⊢
    rw [if_neg hlt, if_pos (by omega), exec_bind, halloc NDIRECT (hind (by omega))]
    show exec (if u32 (s1.disk (s1.icache root).dev _) _ = 0 then _ else _) s1 = _
    rw [hdev1, h.disk, if_neg h0]
    rfl

/-- **The probe** of entry `e` of block `n`. -/
theorem MoreRefs.probe (h : MoreRefs s s1) {n e : Nat} (he : e < 32)
    (hc : entryInum s root (32 * n + e) ≠ 0 → ∃ x, s.cached ROOTDEV (entryInum s root (32 * n + e)) = some x) :
    ∃ s2, exec (Xv6.probe ROOTDEV (s.disk ROOTDEV (rootAddr s root n)) e) s1 =
      (.ok (candidate s root (32 * n + e)), s2) ∧ MoreRefs s s2 := by
  have hdiv : (32 * n + e) / 32 = n := by omega
  have hmod : (32 * n + e) % 32 = e := by omega
  have hinum : entryInum s root (32 * n + e) = direntInum (s.disk ROOTDEV (rootAddr s root n)) (16 * e) := by
    rw [entryInum, hdiv, hmod]
  unfold candidate Xv6.probe
  by_cases h0 : entryInum s root (32 * n + e) = 0
  · rw [if_pos h0, if_pos (by rw [← hinum]; exact h0)]
    exact ⟨s1, rfl, h⟩
  · rw [if_neg h0, if_neg (by rw [← hinum]; exact h0), ← hinum]
    obtain ⟨x, hx⟩ := hc h0
    obtain ⟨s2, hget, h2⟩ := h.iget hx
    refine ⟨s2, ?_, h2⟩
    rw [exec_bind, hget, hx]
    show exec (if (s2.icache x).tags = 0 then _ else _) s2 = _
    have htags : (s2.icache x).tags = (s.icache x).tags := by rw [h2.rest x]
    rw [htags]
    by_cases ht : (s.icache x).tags = 0
    · rw [if_pos ht]
      simp only [if_pos ht]
      rfl
    · rw [if_neg ht]
      simp only [if_neg ht]
      show (Except.ok (some (Candidate.mk _ (s2.disk ROOTDEV (s.icache x).tags))), s2) = _
      have hname : entryName s root (32 * n + e) = fun j => s.disk ROOTDEV (rootAddr s root n) (16 * e + 2 + j) := by
        funext j
        rw [entryName, hdiv, hmod]
      rw [h2.disk, hname]

/-- **The entries of a block.** -/
theorem MoreRefs.scanEntries {n : Nat} (es : List Nat) (hes : ∀ e ∈ es, e < 32)
    (hc : ∀ e ∈ es, entryInum s root (32 * n + e) ≠ 0 → ∃ x, s.cached ROOTDEV (entryInum s root (32 * n + e)) = some x) :
    ∀ s1, MoreRefs s s1 → ∃ s2, Xv6.scanEntries ROOTDEV (s.disk ROOTDEV (rootAddr s root n)) es s1 =
      (es.filterMap fun e => candidate s root (32 * n + e), .ok s2) ∧ MoreRefs s s2 := by
  induction es with
  | nil => exact fun s1 h => ⟨s1, rfl, h⟩
  | cons e es ih =>
    intro s1 h
    obtain ⟨s2, hprobe, h2⟩ := h.probe (hes e List.mem_cons_self) (hc e List.mem_cons_self)
    obtain ⟨s3, hscan, h3⟩ := ih (fun e' he' => hes e' (List.mem_cons_of_mem e he'))
      (fun e' he' => hc e' (List.mem_cons_of_mem e he')) s2 h2
    refine ⟨s3, ?_, h3⟩
    rw [Xv6.scanEntries, hprobe]
    dsimp only
    rw [hscan]
    cases hcand : candidate s root (32 * n + e) with
    | none => rw [List.filterMap_cons, hcand]; rfl
    | some c => rw [List.filterMap_cons, hcand]; rfl

/-- **The blocks still to scan.** -/
theorem MoreRefs.scanBlocks {V : Nat → TagMap} (h : RootTagged s root V) (k : Nat) : ∀ (n : Nat) (s1 : Fs), MoreRefs s s1 →
    n + k = rootBlocks s root → ∃ s2, Xv6.scanBlocks root k (BSIZE * n) s1 =
      ((List.range (32 * k)).filterMap fun i => candidate s root (32 * n + i), .ok s2) ∧ MoreRefs s s2 := by
  have hdev : (s.icache root).dev = ROOTDEV := by
    have := List.find?_some h.cached
    simp only [decide_eq_true_eq] at this
    exact this.2.1
  have hentry : ∀ i < 32 * rootBlocks s root, entryInum s root i ≠ 0 →
      ∃ x, s.cached ROOTDEV (entryInum s root i) = some x := by
    intro i hi h0
    by_cases hsize : (s.icache root).size ≤ 16 * i
    · exact absurd (h.tail i hi hsize) h0
    · obtain ⟨x, hx, -⟩ := h.tags i ⟨by omega, h0⟩
      exact ⟨x, hx⟩
  induction k with
  | zero => exact fun n s1 h1 _ => ⟨s1, rfl, h1⟩
  | succ k ih =>
    intro n s1 h1 hn
    obtain ⟨hlt, h0, hind⟩ := h.mapped n (by omega)
    have hdiv : BSIZE * n / BSIZE = n := Nat.mul_div_cancel_left n (by decide)
    have hblock : exec (rootBlock root (BSIZE * n)) s1 = (.ok (ROOTDEV, s.disk ROOTDEV (rootAddr s root n)), s1) := by
      rw [rootBlock, hdiv, exec_bind, h1.bmap hdev hlt h0 hind]
      show (Except.ok ((s1.icache root).dev, s1.disk (s1.icache root).dev _), s1) = _
      rw [h1.disk, h1.rest root, hdev]
    obtain ⟨s2, hes, h2⟩ := @MoreRefs.scanEntries s root n (List.range 32)
      (fun e he => List.mem_range.mp he) (fun e he => hentry _ (by have := List.mem_range.mp he; omega)) s1 h1
    obtain ⟨s3, hrest, h3⟩ := ih (n + 1) s2 h2 (by omega)
    refine ⟨s3, ?_, h3⟩
    rw [Xv6.scanBlocks, hblock]
    dsimp only
    rw [hes]
    dsimp only
    rw [← Nat.mul_succ, hrest, show 32 * (k + 1) = 32 + 32 * k by omega, List.range_add, List.filterMap_append,
      List.filterMap_map]
    congr 2
    refine List.filterMap_congr fun i _ => ?_
    rw [Function.comp_apply, show 32 * (n + 1) + i = 32 * n + (32 + i) by omega]

/-- **The walk** meets every entry. -/
theorem tagScan_eq {V : Nat → TagMap} (h : RootTagged s root V) :
    ∃ s2, tagScan s = ((List.range (32 * rootBlocks s root)).filterMap (candidate s root), .ok s2) := by
  obtain ⟨s1, hget, h1⟩ := (MoreRefs.refl s).iget h.cached
  have hsize : (s1.icache root).size = (s.icache root).size := by rw [h1.rest root]
  obtain ⟨s2, hscan, -⟩ := MoreRefs.scanBlocks h (rootBlocks s root) 0 s1 h1 (Nat.zero_add _)
  refine ⟨s2, ?_⟩
  rw [tagScan, hget]
  dsimp only
  simp only [Nat.mul_zero, Nat.zero_add] at hscan
  rw [hsize]
  exact hscan

end Walk

/-! ## What is found -/

section Found

variable {s : Fs} {root : Slot} {V : Nat → TagMap} {q : Query}

/-- Entry `i` is found. -/
def Query.finds (q : Query) (s : Fs) (root : Slot) (i : Nat) : Bool :=
  match candidate s root i with
  | none => false
  | some c => q.hits s.mem c

/-- The file of entry `i` carries the tag: it was stored with this value, and not removed or overwritten since. -/
def Query.Carried (q : Query) (s : Fs) (root : Slot) (V : Nat → TagMap) (i : Nat) : Prop :=
  Entry s root i ∧ ∃ v, (V (entryInum s root i)).lookup (strAt s.mem q.key) = some v ∧
    IsValue v (fun j => s.mem (q.value + j)) q.valueLength

instance {i : Nat} : Decidable (q.Carried s root V i) := by
  unfold Query.Carried
  cases h : (V (entryInum s root i)).lookup (strAt s.mem q.key) with
  | none => exact .isFalse (by simp)
  | some v => exact decidable_of_iff (Entry s root i ∧ IsValue v (fun j => s.mem (q.value + j)) q.valueLength) (by simp)

theorem candidate_name {i : Nat} {c : Candidate} (h : candidate s root i = some c) : c.name = entryName s root i := by
  unfold candidate at h
  split at h
  · cases h
  split at h
  · cases h
  split at h
  · cases h
  · rw [← Option.some.inj h]

/-- The names found are those of the entries found. -/
theorem names_eq (l : List Nat) :
    q.names s.mem (l.filterMap (candidate s root)) = (l.filter (q.finds s root)).map (entryName s root) := by
  induction l with
  | nil => rfl
  | cons i l ih =>
    cases hc : candidate s root i with
    | none =>
      have hf : ¬ q.finds s root i = true := by rw [Query.finds, hc]; exact Bool.false_ne_true
      rw [List.filterMap_cons_none hc, List.filter_cons_of_neg hf, ih]
    | some c =>
      have hf : q.finds s root i = q.hits s.mem c := by rw [Query.finds, hc]
      rw [List.filterMap_cons_some hc]
      by_cases hhit : q.hits s.mem c = true
      · rw [Query.names_cons_hit hhit, List.filter_cons_of_pos (by rw [hf]; exact hhit), List.map_cons, ih,
          candidate_name hc]
      · rw [Query.names_cons_miss hhit, List.filter_cons_of_neg (by rw [hf]; exact hhit), ih]

/-- The file of entry `i` has a tag block with a free slot. -/
def FreeSlot (s : Fs) (root : Slot) (i : Nat) : Prop :=
  ∃ x, s.cached ROOTDEV (entryInum s root i) = some x ∧ (s.icache x).tags ≠ 0 ∧
    ∃ j < 16, s.disk ROOTDEV (s.icache x).tags (32 * j) = 0

/-- **Which entries are found.** -/
theorem finds_iff (h : RootTagged s root V) {i : Nat} (hi : i < 32 * rootBlocks s root) : q.finds s root i = true ↔
    Entry s root i ∧ ((∃ v, (V (entryInum s root i)).lookup (strAt s.mem q.key) = some v ∧
        IsValue (strip v) (fun j => s.mem (q.value + j)) q.valueLength) ∨
      strAt s.mem q.key = [] ∧ q.valueLength = 0 ∧ FreeSlot s root i) := by
  by_cases hentry : Entry s root i
  · obtain ⟨x, hx, htags⟩ := h.tags i hentry
    unfold Query.finds candidate
    rw [if_neg hentry.2, hx]
    dsimp only
    rcases htags with ⟨h0, hV⟩ | ⟨h0, hcarries⟩
    · rw [if_pos h0]
      refine ⟨fun hc => absurd hc Bool.false_ne_true, ?_⟩
      rintro ⟨-, ⟨v, hv, -⟩ | ⟨-, -, y, hy, hy0, -⟩⟩
      · rw [hV] at hv
        simp at hv
      · rw [hx] at hy
        exact absurd h0 (Option.some.inj hy ▸ hy0)
    · rw [if_neg h0]
      show tagMatches _ _ _ _ = true ↔ _
      rw [tagMatches_iff hcarries.layout]
      refine ⟨fun hc => ⟨hentry, hc.imp_right fun ⟨hk, hn, hfree⟩ => ⟨hk, hn, x, hx, h0, hfree⟩⟩, ?_⟩
      rintro ⟨-, hc⟩
      refine hc.imp_right fun ⟨hk, hn, y, hy, _, hfree⟩ => ⟨hk, hn, ?_⟩
      rw [hx] at hy
      rw [Option.some.inj hy]
      exact hfree
  · have h0 : entryInum s root i = 0 := by
      by_contra h0
      by_cases hsize : (s.icache root).size ≤ 16 * i
      · exact h0 (h.tail i hi hsize)
      · exact hentry ⟨by omega, h0⟩
    refine ⟨fun hc => ?_, fun hc => absurd hc.1 hentry⟩
    rw [Query.finds, candidate, if_pos h0] at hc
    cases hc

/-- A buffer with room for the names of all entries. -/
def RoomForAll (s : Fs) (root : Slot) (L : Int) : Prop :=
  ((((List.range (32 * rootBlocks s root)).filter fun i => decide (Entry s root i)).map
    fun i => strlen (entryName s root i) + 1).sum : Int) ≤ L

instance (L : Int) : Decidable (RoomForAll s root L) := inferInstanceAs (Decidable (_ ≤ _))

theorem sum_filter_le {l : List Nat} {p p' : Nat → Bool} {f : Nat → Nat} (h : ∀ i ∈ l, p i = true → p' i = true) :
    ((l.filter p).map f).sum ≤ ((l.filter p').map f).sum := by
  induction l with
  | nil => exact Nat.le_refl _
  | cons i l ih =>
    have ih := ih fun j hj => h j (List.mem_cons_of_mem i hj)
    by_cases hp : p i = true
    · rw [List.filter_cons_of_pos hp, List.filter_cons_of_pos (h i List.mem_cons_self hp), List.map_cons, List.map_cons,
        List.sum_cons, List.sum_cons]
      omega
    · rw [List.filter_cons_of_neg hp]
      refine Nat.le_trans ih ?_
      by_cases hp' : p' i = true
      · rw [List.filter_cons_of_pos hp', List.map_cons, List.sum_cons]
        omega
      · rw [List.filter_cons_of_neg hp']

/-- **What a call returns** with an empty buffer that is large enough: the number of entries found. -/
theorem call_count (h : RootTagged s root V) (hzero : ∀ j < q.resultsLength.toNat, s.mem (q.results + j) = 0)
    (hroom : RoomForAll s root q.resultsLength) (hapart : q.Apart s.mem q.resultsLength.toNat) :
    ∃ s', exec q.call s = (.ok (((List.range (32 * rootBlocks s root)).countP (q.finds s root) : Nat) : Int), s') := by
  obtain ⟨s2, hscan⟩ := tagScan_eq h
  have hnames : q.names s.mem (tagScan s).1 =
      ((List.range (32 * rootBlocks s root)).filter (q.finds s root)).map (entryName s root) := by rw [hscan, names_eq]
  -- the names found take no more room than all names
  have htotal : (((q.names s.mem (tagScan s).1).map strlen).map (· + 1)).sum ≤
      (((List.range (32 * rootBlocks s root)).filter fun i => decide (Entry s root i)).map
        fun i => strlen (entryName s root i) + 1).sum := by
    rw [hnames, List.map_map, List.map_map]
    refine sum_filter_le fun i hi hfind => ?_
    rw [decide_eq_true_eq]
    exact ((finds_iff h (List.mem_range.mp hi)).mp hfind).1
  unfold RoomForAll at hroom
  have hat : appendAt q.results q.resultsLength s.user.mem = 0 := appendAt_empty hzero
  obtain ⟨hfits, hno⟩ := @fits_of_total_le q.resultsLength ((q.names s.mem (tagScan s).1).map strlen) 0 (by omega)
  have heq := answer_eq (tagScan s).1 0 s.user hapart (.inr ⟨by omega, by rw [hat]; exact hno⟩)
  have hfst := congrArg Prod.fst heq
  rw [appendAll_fst, hat] at hfst
  change _ = if Fits q.resultsLength 0 ((q.names s.mem (tagScan s).1).map strlen) then _ else _ at hfst
  have hcall := @call_fst q s s.user
  rw [withUser_user, hfst, if_pos hfits, hscan] at hcall
  refine ⟨(exec q.call s).2, Prod.ext ?_ rfl⟩
  rw [hcall, List.countP_eq_length_filter]
  show Except.ok _ = _
  rw [show q.names s.user.mem _ = _ from hscan ▸ hnames]
  simp

/-- One element more is counted. -/
theorem countP_lt {l : List Nat} {p p' : Nat → Bool} (h : ∀ i ∈ l, p i = true → p' i = true)
    (hex : ∃ i ∈ l, p' i = true ∧ ¬ p i = true) : l.countP p < l.countP p' := by
  obtain ⟨i, hi, hp', hp⟩ := hex
  obtain ⟨l1, l2, rfl⟩ := List.append_of_mem hi
  have h1 : l1.countP p ≤ l1.countP p' := List.countP_mono_left fun j hj => h j (by simp [hj])
  have h2 : l2.countP p ≤ l2.countP p' := List.countP_mono_left fun j hj => h j (by simp [hj])
  rw [List.countP_append, List.countP_append, List.countP_cons_of_neg hp, List.countP_cons_of_pos hp']
  omega

/-- A key that is stored is not empty. -/
theorem RootTagged.key_ne (h : RootTagged s root V) {i : Nat} (hi : Entry s root i) {k : TagKey} {v : TagValue}
    (hv : (V (entryInum s root i)).lookup k = some v) : k ≠ [] := by
  obtain ⟨x, -, ⟨-, hV⟩ | ⟨-, hcarries⟩⟩ := h.tags i hi
  · rw [hV] at hv
    simp at hv
  · obtain ⟨⟨m, hb, hm⟩, -⟩ := hcarries.layout
    have hmv : m.lookup k = some (padded v) := by rw [hm, hv]; rfl
    have hlen := (hb.entries hmv).1
    rintro rfl
    exact absurd hlen (by decide)

theorem IsValue.unique {v v' : List UInt8} {w : Arr} {n : Int} (h : IsValue v w n) (h' : IsValue v' w n) : v = v' := by
  have hlen : v.length = v'.length := by have := h.1; have := h'.1; omega
  rw [h.2, h'.2, hlen]

/-- **The files found are those that carry the tag** exactly when no value stored for the key ends with a zero byte and
    is, with or without its zeroes, the value asked for; and the query is not the empty key with an empty value while
    some file has a tag block with a free slot. -/
theorem getFilesByTag_finds_iff (q : Query) (h : RootTagged s root V)
    (hzero : ∀ j < q.resultsLength.toNat, s.mem (q.results + j) = 0) (hroom : RoomForAll s root q.resultsLength)
    (hapart : q.Apart s.mem q.resultsLength.toNat) :
    (∃ s', exec q.call s =
      (.ok (((List.range (32 * rootBlocks s root)).countP fun i => decide (q.Carried s root V i) : Nat) : Int), s')) ↔
    (strAt s.mem q.key = [] → q.valueLength = 0 → ∀ i, Entry s root i → ¬ FreeSlot s root i) ∧
      ∀ i, Entry s root i → ∀ v, (V (entryInum s root i)).lookup (strAt s.mem q.key) = some v → NulEnded v →
        ¬ IsValue v (fun j => s.mem (q.value + j)) q.valueLength ∧
        ¬ IsValue (strip v) (fun j => s.mem (q.value + j)) q.valueLength := by
  obtain ⟨s1, hrun⟩ := call_count h hzero hroom hapart
  have hrange : ∀ {i}, Entry s root i → i ∈ List.range (32 * rootBlocks s root) := by
    intro i hi
    have := hi.1
    simp only [List.mem_range, rootBlocks, BSIZE]
    omega
  have hret : (∃ s', exec q.call s =
      (.ok (((List.range (32 * rootBlocks s root)).countP fun i => decide (q.Carried s root V i) : Nat) : Int), s')) ↔
      (List.range (32 * rootBlocks s root)).countP (q.finds s root) =
        (List.range (32 * rootBlocks s root)).countP fun i => decide (q.Carried s root V i) := by
    rw [hrun]
    constructor
    · rintro ⟨s', heq⟩
      exact Int.ofNat_inj.mp (by simpa using congrArg Prod.fst heq)
    · intro heq
      exact ⟨s1, by rw [heq]⟩
  rw [hret]
  constructor
  · intro hcount
    refine ⟨fun hk hn i hi hfree => ?_, fun i hi v hv hnul => ⟨fun hval => ?_, fun hval => ?_⟩⟩
    · -- nothing carries the empty key, and it is found
      refine absurd hcount (Nat.ne_of_gt (countP_lt (fun j hj hc => ?_) ⟨i, hrange hi, ?_, ?_⟩))
      · obtain ⟨hj', v, hv, -⟩ := of_decide_eq_true hc
        exact absurd hk (h.key_ne hj' hv)
      · exact (finds_iff h (List.mem_range.mp (hrange hi))).mpr ⟨hi, .inr ⟨hk, hn, hfree⟩⟩
      · intro hc
        obtain ⟨-, v, hv, -⟩ := of_decide_eq_true hc
        exact absurd hk (h.key_ne hi hv)
    · -- the value asked for ends with a zero, and what is found never does
      have hnone : ∀ j ∈ List.range (32 * rootBlocks s root), ¬ q.finds s root j = true := by
        intro j hj hf
        obtain ⟨-, ⟨v', -, hval'⟩ | ⟨hk, -⟩⟩ := (finds_iff h (List.mem_range.mp hj)).mp hf
        · exact strip_not_nulEnded v' (hval'.unique hval ▸ hnul)
        · exact h.key_ne hi hv hk
      refine absurd hcount (Nat.ne_of_lt (countP_lt (fun j hj hf => absurd hf (hnone j hj)) ⟨i, hrange hi, ?_, ?_⟩))
      · exact decide_eq_true ⟨hi, v, hv, hval⟩
      · exact hnone i (hrange hi)
    · -- the value asked for does not end with a zero, and this one does
      refine absurd hcount (Nat.ne_of_gt (countP_lt (fun j hj hc => ?_) ⟨i, hrange hi, ?_, ?_⟩))
      · obtain ⟨hj', v', hv', hval'⟩ := of_decide_eq_true hc
        refine (finds_iff h (List.mem_range.mp hj)).mpr ⟨hj', .inl ⟨v', hv', ?_⟩⟩
        rw [strip_eq (hval'.unique hval ▸ strip_not_nulEnded v)]
        exact hval'
      · exact (finds_iff h (List.mem_range.mp (hrange hi))).mpr ⟨hi, .inl ⟨v, hv, hval⟩⟩
      · intro hc
        obtain ⟨-, v', hv', hval'⟩ := of_decide_eq_true hc
        rw [hv] at hv'
        obtain rfl := Option.some.inj hv'
        have hsame : strip v = v := hval.unique hval'
        exact strip_not_nulEnded v (by rw [hsame]; exact hnul)
  · rintro ⟨hempty, hnul⟩
    refine List.countP_congr fun i hi => ?_
    rw [finds_iff h (List.mem_range.mp hi), decide_eq_true_eq]
    constructor
    · rintro ⟨hi', ⟨v, hv, hval⟩ | ⟨hk, hn, hfree⟩⟩
      · refine ⟨hi', v, hv, ?_⟩
        by_cases hn : NulEnded v
        · exact absurd hval (hnul i hi' v hv hn).2
        · rw [strip_eq hn] at hval
          exact hval
      · exact absurd hfree (hempty hk hn i hi')
    · rintro ⟨hi', v, hv, hval⟩
      refine ⟨hi', .inl ⟨v, hv, ?_⟩⟩
      by_cases hn : NulEnded v
      · exact absurd hval (hnul i hi' v hv hn).1
      · rw [strip_eq hn]
        exact hval

end Found

/-! ## A value that ends with a zero -/

/-- The root directory with one file `f`. -/
def oneFileDir : Arr :=
  blit (blit (blit (fun _ => 0) 0 16 (direntBytes 1 dot)) 16 16 (direntBytes 1 dotdot)) 32 16 (direntBytes 2 [102])

/-- A booted machine whose root directory has one file `f`, tagged with the key `"a"` and a value of `n` bytes, `"b"` and
    zeroes; `"a"` stands at address 8 and `"b"` at 16. -/
def paddedFs (n : Nat) : Fs where
  disk _ b :=
    if b = 29 then oneFileDir
    else if b = 30 then newSlot (fun _ => 0) 0 (Function.update 0 0 97) 1 (Function.update 0 0 98) n
    else fun _ => 0
  icache x :=
    { type := if x = 0 then T_DIR else T_FILE, major := 0, minor := 0, nlink := 1, size := if x = 0 then 512 else 0
      addrs := fun k => if x = 0 ∧ k = 0 then 29 else 0
      dev := ROOTDEV, inum := if x = 0 then 1 else 2, ref := if x = 0 ∨ x = 1 then 1 else 0, busy := false
      valid := true, tags := if x = 1 then 30 else 0 }
  tty _ := none
  mem := Function.update (Function.update 0 8 97) 16 98
  acc := []

/-- The tags of the file. -/
def paddedTags (n inum : Nat) : TagMap :=
  if inum = 2 then (∅ : TagMap).insert [97] (bytesOf (Function.update 0 0 98) n) else ∅

theorem paddedFs_carries {n : Nat} (hn : n ≤ 18) : Carries ((paddedFs n).disk ROOTDEV 30) (paddedTags n 2) := by
  have hlen : strlen (Function.update (0 : Arr) 0 97) = 1 := strlen_eq (by decide) rfl (by decide)
  have hkey : cstr (Function.update (0 : Arr) 0 97) = [97] := by
    rw [cstr, hlen]
    rfl
  have hstored : tagged (fun _ => 0) (Function.update 0 0 97) (Function.update 0 0 98) n =
      some (newSlot (fun _ => 0) 0 (Function.update 0 0 97) 1 (Function.update 0 0 98) n) := by
    have hno : searchKey (Function.update 0 0 97) (fun _ => 0) < 0 := by decide +kernel
    rw [tagged, if_pos hno, if_neg (by decide), hlen]
    rfl
  have h := Carries.tag (.zero fun _ _ => rfl) (by omega) (by omega) hn hstored
  rw [hkey] at h
  exact h

theorem paddedFs_inum (n : Nat) {i : Nat} (hi : i < 32) :
    entryInum (paddedFs n) 0 i = if i < 2 then 1 else if i = 2 then 2 else 0 := by
  have hdir : ∀ i < 32, direntInum oneFileDir (16 * i) = if i < 2 then 1 else if i = 2 then 2 else 0 := by decide +kernel
  rw [entryInum, Nat.div_eq_of_lt hi, Nat.mod_eq_of_lt hi, ← hdir i hi]
  rfl

theorem paddedFs_tagged {n : Nat} (hn : n ≤ 18) : RootTagged (paddedFs n) 0 (paddedTags n) := by
  have hblocks : rootBlocks (paddedFs n) 0 = 1 := by simp [rootBlocks, paddedFs]
  refine ⟨rfl, fun k hk => ?_, fun i hi hsize => ?_, fun i hi => ?_⟩
  · obtain rfl : k = 0 := by omega
    exact ⟨by decide, (by decide : (29 : Nat) ≠ 0), fun h => absurd h (by decide)⟩
  · have : (512 : Nat) ≤ 16 * i := hsize
    omega
  · have hlt : 16 * i < 512 := hi.1
    have hinum := paddedFs_inum n (i := i) (by omega)
    have hne := hi.2
    rw [hinum] at hne ⊢
    by_cases h2 : i < 2
    · rw [if_pos h2]
      exact ⟨0, rfl, .inl ⟨rfl, rfl⟩⟩
    · rw [if_neg h2] at hne ⊢
      split at hne
      · rename_i h3
        rw [if_pos h3]
        exact ⟨1, rfl, .inr ⟨(by decide : (30 : Nat) ≠ 0), paddedFs_carries hn⟩⟩
      · exact absurd rfl hne

theorem paddedFs_key (n : Nat) : strAt (paddedFs n).mem (tagQuery 10).key = [97] := markedFile_key

/-- The only value stored. -/
theorem paddedFs_value {n i : Nat} {k : TagKey} {v : TagValue}
    (h : (paddedTags n (entryInum (paddedFs n) 0 i)).lookup k = some v) : v = bytesOf (Function.update 0 0 98) n := by
  unfold paddedTags at h
  split at h
  · by_cases hk : k = [97]
    · rw [hk, Finmap.lookup_insert] at h
      exact (Option.some.inj h).symm
    · rw [Finmap.lookup_insert_of_ne _ hk] at h
      simp at h
  · simp at h

/-- The value `"b"`, stored as one byte, is found. -/
theorem getFilesByTag_finds_stored : ∃ s', exec (tagQuery 10).call (paddedFs 1) =
    (.ok (((List.range (32 * rootBlocks (paddedFs 1) 0)).countP fun i =>
      decide ((tagQuery 10).Carried (paddedFs 1) 0 (paddedTags 1) i) : Nat) : Int), s') := by
  refine (getFilesByTag_finds_iff (tagQuery 10) (paddedFs_tagged (by decide)) (by decide) (by decide +kernel)
    (by decide +kernel)).mpr ⟨fun hk => ?_, fun i _ v hv hnul => ?_⟩
  · rw [paddedFs_key] at hk
    cases hk
  · rw [paddedFs_value hv] at hnul
    exact absurd hnul (by decide)

/-- The value `"b"` is found although two bytes were stored, `"b"` and a zero, so that no file carries it. -/
theorem getFilesByTag_finds_padded : RootTagged (paddedFs 2) 0 (paddedTags 2) ∧
    (∃ s', exec (tagQuery 10).call (paddedFs 2) = (.ok 1, s')) ∧
    ∀ i, ¬ (tagQuery 10).Carried (paddedFs 2) 0 (paddedTags 2) i := by
  refine ⟨paddedFs_tagged (by decide), ?_, ?_⟩
  · have hrun : (exec (tagQuery 10).call (paddedFs 2)).1.toOption = some 1 := by decide +kernel
    rcases hout : exec (tagQuery 10).call (paddedFs 2) with ⟨stop | r, s'⟩ <;> rw [hout] at hrun
    · cases hrun
    · exact ⟨s', by rw [show r = 1 from Option.some.inj hrun]⟩
  · rintro i ⟨-, v, hv, hval⟩
    rw [paddedFs_value hv] at hval
    exact absurd hval.1 (by decide)

end Xv6
