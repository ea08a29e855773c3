import Xv6.Sys.TagStore

/-!
# `Sys.TagScan` — which bytes of a tag block the searches read

`searchKey` and `searchEnd` walk over the block of 512 bytes that `bread` returned. Here both loops are written out
with the order in which their conditions are evaluated, and every read of the block is logged. `searchKey` checks the
index before it reads; the condition of `searchEnd` reads first, and on a block without a free slot it reads the byte
after the block (`tagScans_inside_iff`). The offsets returned are those of `searchKey` and `searchEnd` (`Sys.Tag`).
-/

namespace Xv6

open Bytes Hoare

/-- Programs that log the indices at which they read the block; they cannot fail. -/
abbrev ScanM := Prog (List Nat) Empty

variable {key str : Arr} {log : List Nat}

/-! ## The loops -/

/-- `str[i]` -/
def readAt (str : Arr) (i : Nat) : ScanM UInt8 := do
  modify (· ++ [i])
  return str i

/-- The inner loop of `searchKey` from `j`, `fuel` steps below 10: the `j` at which the key is found. -/
def scanSlot (key str : Arr) (keyLength i : Nat) : Nat → Nat → ScanM (Option Nat)
  | 0, _ => return none
  | fuel + 1, j =>
    -- `i + j < BSIZE && key[j] == str[i + j]`
    if i + j < BSIZE then do
      if key j = (← readAt str (i + j)) then
        -- `j == keyLength && !key[j] && !str[i+j]`
        if j = keyLength ∧ key j = 0 then do
          if (← readAt str (i + j)) = 0 then return some j
          else scanSlot key str keyLength i fuel (j + 1)
        else scanSlot key str keyLength i fuel (j + 1)
      else return none
    else return none

/-- The outer loop of `searchKey` from `i`; 16 slots are the most it visits. -/
def scanKeyFrom (key str : Arr) (keyLength : Nat) : Nat → Nat → ScanM Int
  | 0, _ => return -1
  | fuel + 1, i =>
    if i < BSIZE then do
      match ← scanSlot key str keyLength i 10 0 with
      | some j => return (i : Int) + j - keyLength
      | none => scanKeyFrom key str keyLength fuel (i + 32)
    else return -1

/-- `searchKey` -/
def scanKey (key str : Arr) : ScanM Int := scanKeyFrom key str (strlen key) 17 0

/-- The loop of `searchEnd` from `i`: `str[i] && i < BSIZE`. -/
def scanEndFrom (str : Arr) : Nat → Nat → ScanM Nat
  | 0, i => return i
  | fuel + 1, i => do
    if (← readAt str i) ≠ 0 ∧ i < BSIZE then scanEndFrom str fuel (i + 32)
    else return i

/-- `searchEnd` -/
def scanEnd (str : Arr) : ScanM Int := do
  let i ← scanEndFrom str 17 0
  if i = BSIZE then return -1 else return i

/-! ## What they return and read -/

/-- Nothing outside the block has been read. -/
def Inside (log : List Nat) : Prop := ∀ i ∈ log, i < BSIZE

theorem Inside.read (h : Inside log) {i : Nat} (hi : i < BSIZE) : Inside (log ++ [i]) := by
  intro k hk
  rcases List.mem_append.mp hk with hk | hk
  · exact h k hk
  · rw [List.mem_singleton.mp hk]
    exact hi

@[simp] theorem wp_readAt {i : Nat} {Q : UInt8 → List Nat → Prop} {E : Empty → List Nat → Prop} :
    wp (readAt str i) Q E log ↔ Q (str i) (log ++ [i]) := by
  rw [readAt, wp_bind, wp_modify, wp_pure]

/-- The inner loop finds what `keyAt` finds, at the index where the key ends. -/
theorem scanSlot_spec {L i : Nat} (fuel j : Nat) (h : Inside log) :
    wp (scanSlot key str L i fuel j)
      (fun r log' => r = (if keyAt key str L i fuel j then some L else none) ∧ Inside log') (fun _ _ => False) log := by
  induction fuel generalizing j log with
  | zero => exact ⟨rfl, h⟩
  | succ fuel ih =>
    rw [scanSlot]
    by_cases hlt : i + j < BSIZE
    · have h1 := h.read hlt
      rw [if_pos hlt, wp_bind, wp_readAt]
      by_cases heq : key j = str (i + j)
      · rw [if_pos heq]
        by_cases hend : j = L ∧ key j = 0
        · have hnul : str (i + j) = 0 := heq ▸ hend.2
          have hat : keyAt key str L i (fuel + 1) j = true := by
            rw [keyAt, if_pos ⟨hlt, heq⟩, if_pos ⟨hend.1, hend.2, hnul⟩]
          rw [if_pos hend, wp_bind, wp_readAt, if_pos hnul, wp_pure, hat, if_pos rfl, hend.1]
          exact ⟨rfl, hend.1 ▸ h1.read hlt⟩
        · have hat : keyAt key str L i (fuel + 1) j = keyAt key str L i fuel (j + 1) := by
            rw [keyAt, if_pos ⟨hlt, heq⟩, if_neg fun hc => hend ⟨hc.1, hc.2.1⟩]
          rw [if_neg hend, hat]
          exact ih (j + 1) h1
      · have hat : keyAt key str L i (fuel + 1) j = false := by rw [keyAt, if_neg fun hc => heq hc.2]
        rw [if_neg heq, hat]
        exact ⟨rfl, h1⟩
    · have hat : keyAt key str L i (fuel + 1) j = false := by rw [keyAt, if_neg fun hc => hlt hc.1]
      rw [if_neg hlt, hat]
      exact ⟨rfl, h⟩

/-- The slots from slot `k` on, in the order of the loops. -/
theorem slots_from {k : Nat} (hk : k < 16) : slots.drop k = 32 * k :: slots.drop (k + 1) := by
  have hlen : k < slots.length := by simpa [slots] using hk
  rw [List.drop_eq_getElem_cons hlen]
  simp [slots]

/-- **`searchKey` reads inside the block**, and returns what `searchKey` returns. -/
theorem scanKey_spec (key str : Arr) (h : Inside log) :
    wp (scanKey key str) (fun r log' => r = searchKey key str ∧ Inside log') (fun _ _ => False) log := by
  -- after `k` slots the key is searched for in the others
  have hloop : ∀ n k log, k + n = 17 → k ≤ 16 → Inside log →
      wp (scanKeyFrom key str (strlen key) n (32 * k))
        (fun r log' => r = (match (slots.drop k).find? fun i => keyAt key str (strlen key) i 10 0 with
          | some i => (i : Int)
          | none => -1) ∧ Inside log')
        (fun _ _ => False) log := by
    intro n
    induction n with
    | zero => intro k log hk hle; omega
    | succ n ih =>
      intro k log hk hle hin
      rw [scanKeyFrom]
      by_cases hlt : 32 * k < BSIZE
      · rw [if_pos hlt, slots_from (by simp only [BSIZE] at hlt; omega), List.find?_cons, wp_bind]
        refine wp_mono (scanSlot_spec 10 0 hin) ?_ fun _ _ hf => hf.elim
        rintro r log' ⟨rfl, hin'⟩
        cases hat : keyAt key str (strlen key) (32 * k) 10 0 with
        | true => exact ⟨by simp, hin'⟩
        | false => exact ih (k + 1) log' (by omega) (by simp only [BSIZE] at hlt; omega) hin'
      · have hall : slots.drop k = [] := List.drop_eq_nil_of_le (by simp [slots]; simp only [BSIZE] at hlt; omega)
        rw [if_neg hlt, hall]
        exact ⟨rfl, hin⟩
  exact hloop 17 0 log rfl (Nat.zero_le _) h

/-- **`searchEnd`** returns what `searchEnd` returns, and reads inside the block if there is a free slot; otherwise it
    has read the byte after the block. -/
theorem scanEnd_spec (str : Arr) :
    wp (scanEnd str)
      (fun r log => r = searchEnd str ∧ ((∃ i < 16, str (32 * i) = 0) ∧ Inside log ∨
        (∀ i < 16, str (32 * i) ≠ 0) ∧ BSIZE ∈ log))
      (fun _ _ => False) [] := by
  -- `k` slots are occupied
  have hloop : ∀ n k log, k + n = 17 → k ≤ 16 → (∀ j < k, str (32 * j) ≠ 0) → Inside log →
      wp (scanEndFrom str n (32 * k))
        (fun i log' => (i = BSIZE ∧ (∀ j < 16, str (32 * j) ≠ 0) ∧ BSIZE ∈ log') ∨
          (∃ j < 16, i = 32 * j ∧ str (32 * j) = 0 ∧ (∀ l < j, str (32 * l) ≠ 0) ∧ Inside log'))
        (fun _ _ => False) log := by
    intro n
    induction n with
    | zero => intro k log hk hle; omega
    | succ n ih =>
      intro k log hk hle hocc hin
      rw [scanEndFrom, wp_bind, wp_readAt]
      rcases Nat.lt_or_eq_of_le hle with hlt | rfl
      · have hb : 32 * k < BSIZE := by simp only [BSIZE]; omega
        by_cases h0 : str (32 * k) = 0
        · rw [if_neg fun hc => hc.1 h0]
          exact .inr ⟨k, hlt, rfl, h0, hocc, hin.read hb⟩
        · rw [if_pos ⟨h0, hb⟩]
          refine ih (k + 1) _ (by omega) hlt (fun j hj => ?_) (hin.read hb)
          rcases Nat.lt_or_eq_of_le (Nat.le_of_lt_succ hj) with hj | rfl
          · exact hocc j hj
          · exact h0
      · rw [if_neg fun hc => absurd hc.2 (by decide)]
        exact .inl ⟨rfl, hocc, List.mem_append_right _ (List.mem_singleton.mpr rfl)⟩
  rw [scanEnd, wp_bind]
  refine wp_mono (hloop 17 0 [] rfl (Nat.zero_le _) (fun j hj => absurd hj (Nat.not_lt_zero j))
    fun i hi => absurd hi List.not_mem_nil) ?_ fun _ _ hf => hf.elim
  rintro i log (⟨rfl, hfull, hread⟩ | ⟨j, hj, rfl, h0, hocc, hin⟩)
  · have hnone : slots.find? (fun i => str i = 0) = none := by
      rw [List.find?_eq_none]
      intro o ho
      obtain ⟨i, rfl⟩ := mem_slots.mp ho
      simpa using hfull i.val i.isLt
    rw [if_pos rfl, wp_pure, searchEnd, hnone]
    exact ⟨rfl, .inr ⟨hfull, hread⟩⟩
  · have hsome : slots.find? (fun i => str i = 0) = some (32 * j) := by
      rw [List.find?_eq_some_iff_getElem]
      have hlen : j < slots.length := by simpa [slots] using hj
      refine ⟨by simpa using h0, j, hlen, by simp [slots], fun l hl => ?_⟩
      simpa [slots] using hocc l hl
    rw [if_neg (by simp only [BSIZE]; omega), wp_pure, searchEnd, hsome]
    exact ⟨rfl, .inl ⟨⟨j, hj, h0⟩, hin⟩⟩

/-! ## Staying inside the block -/

/-- `r` is the offset of the first slot with `P`, and -1 if there is none. -/
def FirstSlot (P : Nat → Prop) (r : Int) : Prop :=
  (∃ i < 16, r = (32 * i : Nat) ∧ P i ∧ ∀ j < i, ¬ P j) ∨ (r = -1 ∧ ∀ i < 16, ¬ P i)

theorem firstSlot_find {P : Nat → Prop} {f : Nat → Bool} (hf : ∀ i < 16, (f (32 * i) = true ↔ P i)) :
    FirstSlot P (match slots.find? f with
      | some i => (i : Int)
      | none => -1) := by
  cases h : slots.find? f with
  | none =>
    refine .inr ⟨rfl, fun i hi hp => ?_⟩
    exact List.find?_eq_none.mp h _ (mem_slots.mpr ⟨⟨i, hi⟩, rfl⟩) ((hf i hi).mpr hp)
  | some o =>
    obtain ⟨ho, i, hi, heq, hbefore⟩ := List.find?_eq_some_iff_getElem.mp h
    have hi16 : i < 16 := by simpa [slots] using hi
    have heq' : o = 32 * i := by rw [← heq]; simp [slots]
    rw [heq'] at ho ⊢
    refine .inl ⟨i, hi16, rfl, (hf i hi16).mp ho, fun j hj hp => ?_⟩
    have hno := hbefore j hj
    simp only [slots, List.getElem_map, List.getElem_range, Bool.not_eq_true'] at hno
    exact absurd ((hf j (by omega)).mpr hp) (by rw [hno]; decide)

/-- **`searchKey`** returns the first slot whose key is `key`. -/
theorem searchKey_first (h9 : strlen key ≤ 9) : FirstSlot (fun i => slotKey str i = cstr key) (searchKey key str) := by
  refine firstSlot_find fun i hi => ?_
  rw [keyAt_iff (by simp only [BSIZE]; omega) rfl h9 10 0 rfl (Nat.zero_le _), slotKey, cstr_eq_iff (by omega)]
  exact ⟨fun h j hj => h j (Nat.zero_le j) hj, fun h j _ hj => h j hj⟩

/-- **`searchEnd`** returns the first free slot. -/
theorem searchEnd_first : FirstSlot (fun i => str (32 * i) = 0) (searchEnd str) :=
  firstSlot_find fun _ _ => decide_eq_true_iff

/-- **The scans stay inside the block** and find the first slot with the key and the first free one. -/
def ScansInside (key str : Arr) : Prop :=
  (∃ r log, exec (scanKey key str) [] = (.ok r, log) ∧ Inside log ∧ FirstSlot (fun i => slotKey str i = cstr key) r) ∧
    ∃ r log, exec (scanEnd str) [] = (.ok r, log) ∧ Inside log ∧ FirstSlot (fun i => str (32 * i) = 0) r

/-- A block without a free slot: `searchEnd` reads past its end. -/
theorem not_inside_of_full (hfull : ∀ i < 16, str (32 * i) ≠ 0) : ¬ ScansInside key str := by
  rintro ⟨-, r, log, hrun, hin, -⟩
  rcases (wp_ok (scanEnd_spec str) hrun).2 with ⟨⟨i, hi, h0⟩, -⟩ | ⟨-, hread⟩
  · exact hfull i hi h0
  · exact absurd (hin _ hread) (Nat.lt_irrefl _)

/-- **The scans stay inside the block** exactly when it has a free slot. -/
theorem tagScans_inside_iff (h9 : strlen key ≤ 9) : ScansInside key str ↔ ∃ i < 16, str (32 * i) = 0 := by
  constructor
  · intro hin
    by_contra hnone
    exact not_inside_of_full (fun i hi h0 => hnone ⟨i, hi, h0⟩) hin
  · rintro ⟨i, hi, h0⟩
    have hnil : Inside [] := fun i hi => absurd hi List.not_mem_nil
    obtain ⟨r, log, hrun, rfl, hin⟩ := wp_total (scanKey_spec key str hnil)
    obtain ⟨r', log', hrun', rfl, hend⟩ := wp_total (scanEnd_spec str)
    refine ⟨⟨_, _, hrun, hin, searchKey_first h9⟩, _, _, hrun', ?_, searchEnd_first⟩
    rcases hend with ⟨-, hin'⟩ | ⟨hfull, -⟩
    · exact hin'
    · exact absurd h0 (hfull i hi)

/-- The key "a". -/
def keyA : Arr := fun j => if j = 0 then 97 else 0

theorem strlen_keyA : strlen keyA = 1 := strlen_eq (by decide) (by decide) (by decide)

/-- A block with the keys "b" and "a", and free slots after them. -/
def twoKeys : Arr := fun o => if o = 0 then 98 else if o = 32 then 97 else 0

theorem tagScans_inside_twoKeys : ScansInside keyA twoKeys ∧ searchKey keyA twoKeys = 32 ∧ searchEnd twoKeys = 64 :=
  ⟨(tagScans_inside_iff (by rw [strlen_keyA]; decide)).mpr ⟨2, by decide, rfl⟩,
    by rw [searchKey, strlen_keyA]; decide, by decide⟩

/-- All 16 slots are occupied. -/
theorem tagScans_full : strlen keyA = 1 ∧ ¬ ScansInside keyA (fun _ => 98) :=
  ⟨strlen_keyA, not_inside_of_full fun _ _ => by decide⟩

end Xv6
