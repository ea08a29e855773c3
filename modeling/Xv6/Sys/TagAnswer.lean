import Mathlib.Algebra.Order.BigOperators.Group.List
import Mathlib.Algebra.Order.Ring.Nat
import Xv6.Sys.TagQuery
import Xv6.Sys.TagRuns

/-!
# `Sys.TagAnswer` — where `getFilesByTag` puts the names it finds

The place for the next name is found by searching the buffer backwards for a byte that is not zero, and a name has
room if it fits without its terminator. So names go wherever the buffer's old contents leave off, the last one may
end with the buffer and its terminator one byte beyond, and a name of 14 bytes is copied together with whatever
follows it in the directory.

## Contents
- **One name.** `append_next`, `append_writes`: the new end of the buffer, and what is written.
- **All names.** `appendAll`, `Fits`, `Overruns`; `answer_eq`: candidates that match, as long as the query stays.
- **Results.** The format of the buffer, and its dependence on what was there.
-/

namespace Xv6

open Bytes Hoare Machine

/-! ## The last byte that is not zero -/

theorem valueLen_le (v : Arr) (n : Nat) : valueLen v n ≤ n := by
  induction n with
  | zero => exact Nat.le_refl 0
  | succ n ih =>
    rw [valueLen]
    split
    · exact Nat.le_refl _
    · exact Nat.le_succ_of_le ih

/-- All bytes after it are zero. -/
theorem valueLen_zero {v : Arr} {n j : Nat} (hj : valueLen v n ≤ j) (hlt : j < n) : v j = 0 := by
  induction n with
  | zero => omega
  | succ n ih =>
    rw [valueLen] at hj
    split at hj
    · omega
    · rename_i h0
      rcases Nat.lt_succ_iff_lt_or_eq.mp hlt with h | rfl
      · exact ih hj h
      · exact not_not.mp h0

theorem valueLen_eq {v : Arr} {m n : Nat} (hm : m ≤ n) (hlast : m ≠ 0 → v (m - 1) ≠ 0)
    (hz : ∀ j, m ≤ j → j < n → v j = 0) : valueLen v n = m := by
  induction n with
  | zero => exact (Nat.le_zero.mp hm).symm
  | succ n ih =>
    rw [valueLen]
    rcases Nat.lt_or_eq_of_le hm with hlt | rfl
    · rw [if_neg (not_not.mpr (hz n (Nat.lt_succ_iff.mp hlt) (Nat.lt_succ_self n)))]
      exact ih (Nat.lt_succ_iff.mp hlt) fun j hj hjn => hz j hj (Nat.lt_succ_of_lt hjn)
    · rw [if_pos (by simpa using hlast (Nat.succ_ne_zero n))]

/-- The byte at it is not zero. -/
theorem valueLen_last {v : Arr} {n : Nat} (h : valueLen v n ≠ 0) : v (valueLen v n - 1) ≠ 0 := by
  induction n with
  | zero => exact absurd rfl h
  | succ n ih =>
    rw [valueLen] at h ⊢
    split
    · rename_i hn
      simpa using hn
    · rename_i hn
      rw [if_neg hn] at h
      exact ih h

/-! ## One name -/

section Append

variable {results : Nat} {L : Int} {name : Arr} {u u' : User}

/-- The first name goes to the start of an empty buffer. -/
theorem appendAt_empty {mem : Arr} (h : ∀ j < L.toNat, mem (results + j) = 0) : appendAt results L mem = 0 := by
  have hk : valueLen (fun j => mem (results + j)) L.toNat = 0 :=
    valueLen_eq (Nat.zero_le _) (fun h0 => absurd rfl h0) fun j _ hj => h j hj
  rw [appendAt, hk, if_neg (by decide)]

/-- Where the name after one of length `l` at `p` goes. -/
def next (p l : Nat) : Nat := if l = 0 then p else p + l + 1

/-- Whether there is room at `p`: the terminator is not counted. -/
def room (L : Int) (p l : Nat) : Prop := (l : Int) ≤ L - p

instance {p l : Nat} : Decidable (room L p l) := inferInstanceAs (Decidable (_ ≤ _))

/-- **A name that has no room** is not copied. -/
theorem append_full (h : ¬ room L (appendAt results L u.mem) (strlen name)) :
    u.append results L name = (false, ⟨u.mem, u.acc ++ endReads results u.mem L.toNat⟩) := if_neg h

/-- **A name that has room** is copied with its terminator. -/
theorem append_room (h : room L (appendAt results L u.mem) (strlen name)) :
    ∃ acc, u.append results L name =
      (true, ⟨blit u.mem (results + appendAt results L u.mem) (strlen name + 1) fun j =>
        if j < strlen name then name j else 0, acc⟩) ∧
      acc = u.acc ++ endReads results u.mem L.toNat ++
        touch true (results + appendAt results L u.mem) (strlen name + 1) ++
        touch true (results + appendAt results L u.mem + strlen name) 1 := by
  refine ⟨_, (if_pos h).trans ?_, rfl⟩
  congr 2
  funext a
  set p := appendAt results L u.mem
  by_cases ha : a = results + p + strlen name
  · rw [blit_in (by omega) (by omega), blit_in (by omega) (by omega), if_neg (by omega)]
  · rw [blit_out (by omega)]
    by_cases hin : results + p ≤ a ∧ a < results + p + (strlen name + 1)
    · rw [blit_in hin.1 hin.2, blit_in hin.1 hin.2, if_pos (by omega)]
    · rw [blit_out (by omega), blit_out (by omega)]

/-- The end of the buffer after a name was copied. -/
theorem valueLen_append {mem : Arr} (h : room L (appendAt results L mem) (strlen name)) :
    valueLen (fun j => blit mem (results + appendAt results L mem) (strlen name + 1)
      (fun j => if j < strlen name then name j else 0) (results + j)) L.toNat =
    if strlen name = 0 then valueLen (fun j => mem (results + j)) L.toNat
    else appendAt results L mem + strlen name := by
  have hk := @valueLen_zero (fun j => mem (results + j)) L.toNat
  have hlast := @valueLen_last (fun j => mem (results + j)) L.toNat
  have hle := valueLen_le (fun j => mem (results + j)) L.toNat
  have hp : appendAt results L mem = valueLen (fun j => mem (results + j)) L.toNat ∨
      appendAt results L mem = valueLen (fun j => mem (results + j)) L.toNat + 1 ∧
        valueLen (fun j => mem (results + j)) L.toNat ≠ 0 := by
    rw [appendAt]
    split <;> omega
  have hroom : (strlen name : Int) ≤ L - appendAt results L mem := h
  set p := appendAt results L mem
  set k := valueLen (fun j => mem (results + j)) L.toNat
  by_cases h0 : strlen name = 0
  · -- only the terminator is written, where there was a zero
    rw [if_pos h0, h0]
    refine valueLen_eq hle (fun hk0 => ?_) fun j hj hlt => ?_
    · rw [blit_out (by omega)]
      exact hlast hk0
    · by_cases hjp : j = p
      · rw [hjp, blit_in (by omega) (by omega), if_neg (by omega)]
      · rw [blit_out (by omega)]
        exact hk hj hlt
  · rw [if_neg h0]
    refine valueLen_eq (by omega) (fun _ => ?_) fun j hj hlt => ?_
    · rw [blit_in (by omega) (by omega), if_pos (by omega)]
      exact strlen_ne (by omega)
    · by_cases hjp : j = p + strlen name
      · rw [hjp, blit_in (by omega) (by omega), if_neg (by omega)]
      · rw [blit_out (by omega)]
        exact hk (by omega) hlt

/-- The next name goes after this one. -/
theorem append_next (h : u.append results L name = (true, u')) :
    appendAt results L u'.mem = next (appendAt results L u.mem) (strlen name) := by
  have hroom : room L (appendAt results L u.mem) (strlen name) := by
    by_contra hc
    rw [append_full hc] at h
    cases h
  obtain ⟨acc, heq, -⟩ := append_room hroom
  obtain rfl : _ = u' := (Prod.mk.inj (heq.symm.trans h)).2
  dsimp only
  rw [appendAt, valueLen_append hroom, next]
  by_cases h0 : strlen name = 0
  · rw [if_pos h0, if_pos h0]
    rfl
  · rw [if_neg h0, if_neg h0, if_pos (by omega)]

theorem endReads_write {mem : Arr} {n : Nat} {a : Access} (h : a ∈ endReads results mem n) : a.write = false := by
  induction n with
  | zero => cases h
  | succ n ih =>
    rw [endReads, List.mem_cons] at h
    rcases h with rfl | h
    · rfl
    · split at h
      · cases h
      · exact ih h

theorem mem_touch {w : Bool} {b n : Nat} {a : Access} : a ∈ touch w b n ↔ ∃ i < n, a = ⟨w, b + i⟩ := by
  simp [touch, eq_comm]

/-- The log grows. -/
theorem append_acc {a : Access} (h : a ∈ u.acc) : a ∈ (u.append results L name).2.acc := by
  by_cases hroom : room L (appendAt results L u.mem) (strlen name)
  · obtain ⟨acc, heq, rfl⟩ := append_room hroom
    rw [heq]
    simp [h]
  · rw [append_full hroom]
    simp [h]

/-- Unless the name ends with the buffer, it is written inside. -/
theorem append_writes (hne : ((appendAt results L u.mem + strlen name : Nat) : Int) ≠ L) {a : Access}
    (ha : a ∈ (u.append results L name).2.acc) :
    a ∈ u.acc ∨ a.write = false ∨ results ≤ a.addr ∧ (a.addr : Int) < results + L := by
  by_cases hroom : room L (appendAt results L u.mem) (strlen name)
  · obtain ⟨acc, heq, rfl⟩ := append_room hroom
    unfold room at hroom
    rw [heq] at ha
    simp only [List.mem_append, mem_touch] at ha
    rcases ha with ((ha | ha) | ⟨i, hi, rfl⟩) | ⟨i, hi, rfl⟩
    · exact .inl ha
    · exact .inr (.inl (endReads_write ha))
    · exact .inr (.inr ⟨by dsimp only; omega, by dsimp only; omega⟩)
    · exact .inr (.inr ⟨by dsimp only; omega, by dsimp only; omega⟩)
  · rw [append_full hroom, List.mem_append] at ha
    rcases ha with ha | ha
    · exact .inl ha
    · exact .inr (.inl (endReads_write ha))

/-- If the name ends with the buffer, its terminator is written beyond. -/
theorem append_overrun (heq : ((appendAt results L u.mem + strlen name : Nat) : Int) = L) :
    ⟨true, results + L.toNat⟩ ∈ (u.append results L name).2.acc := by
  obtain ⟨acc, happ, rfl⟩ := @append_room results L name u (by unfold room; omega)
  have haddr : results + L.toNat = results + appendAt results L u.mem + strlen name + 0 := by omega
  rw [happ, haddr]
  exact List.mem_append_right _ (mem_touch.mpr ⟨0, Nat.one_pos, rfl⟩)

end Append

/-! ## All names -/

/-- The names are copied one after the other, up to the first that has no room. -/
def appendAll (results : Nat) (L : Int) : List Arr → Nat → User → Option Nat × User
  | [], count, u => (some count, u)
  | name :: names, count, u =>
    match u.append results L name with
    | (true, u') => appendAll results L names (count + 1) u'
    | (false, u') => (none, u')

/-- Names of these lengths, copied from `p` on, all have room. -/
def Fits (L : Int) : Nat → List Nat → Prop
  | _, [] => True
  | p, l :: ls => room L p l ∧ Fits L (next p l) ls

/-- Among names of these lengths, copied from `p` on, one ends exactly where the buffer ends. -/
def Overruns (L : Int) : Nat → List Nat → Prop
  | _, [] => False
  | p, l :: ls => ((p + l : Nat) : Int) = L ∨ Overruns L (next p l) ls

instance decidableFits (L : Int) : (ls : List Nat) → (p : Nat) → Decidable (Fits L p ls)
  | [], _ => .isTrue trivial
  | l :: ls, p =>
    have := decidableFits L ls (next p l)
    inferInstanceAs (Decidable (_ ∧ _))

instance decidableOverruns (L : Int) : (ls : List Nat) → (p : Nat) → Decidable (Overruns L p ls)
  | [], _ => .isFalse id
  | l :: ls, p =>
    have := decidableOverruns L ls (next p l)
    inferInstanceAs (Decidable (_ ∨ _))

section Names

variable {results : Nat} {L : Int} {name : Arr} {u u' : User}

theorem next_mono {p p' l : Nat} (h : p ≤ p') : next p l ≤ next p' l := by
  unfold next
  split <;> omega

theorem le_next (p l : Nat) : p + l ≤ next p l := by
  unfold next
  split <;> omega

/-- Names that have room have room from an earlier place on. -/
theorem Fits.mono {ls : List Nat} : ∀ {p p' : Nat}, p ≤ p' → Fits L p' ls → Fits L p ls := by
  induction ls with
  | nil => exact fun _ h => h
  | cons l ls ih =>
    rintro p p' hp ⟨hroom, hfits⟩
    exact ⟨by unfold room at *; omega, ih (next_mono hp) hfits⟩

/-- A name that ends with the buffer starts inside it. -/
theorem Overruns.le {ls : List Nat} : ∀ {p : Nat}, Overruns L p ls → (p : Int) ≤ L := by
  induction ls with
  | nil => exact fun h => h.elim
  | cons l ls ih =>
    rintro p (h | h)
    · omega
    · have := ih h
      have := le_next p l
      omega

/-- Names that have room and do not end with the buffer leave it with their terminators inside. -/
theorem Fits.total_le {ls : List Nat} (hpos : ∀ l ∈ ls, 1 ≤ l) : ∀ {p : Nat}, (p : Int) ≤ L → Fits L p ls →
    ¬ Overruns L p ls → ((p + (ls.map (· + 1)).sum : Nat) : Int) ≤ L := by
  induction ls with
  | nil => exact fun hp _ _ => by simpa using hp
  | cons l ls ih =>
    rintro p hp ⟨hroom, hfits⟩ hno
    rw [Overruns, not_or] at hno
    have hnext : next p l = p + l + 1 := if_neg (by have := hpos l List.mem_cons_self; omega)
    unfold room at hroom
    rw [hnext] at hfits hno
    have := ih (fun m hm => hpos m (List.mem_cons_of_mem l hm)) (by omega) hfits hno.2
    rw [List.map_cons, List.sum_cons]
    omega

/-- Names that fit with their terminators have room, and none ends with the buffer. -/
theorem fits_of_total_le {ls : List Nat} : ∀ {p : Nat}, ((p + (ls.map (· + 1)).sum : Nat) : Int) ≤ L →
    Fits L p ls ∧ ¬ Overruns L p ls := by
  induction ls with
  | nil => exact fun _ => ⟨trivial, id⟩
  | cons l ls ih =>
    intro p h
    rw [List.map_cons, List.sum_cons] at h
    have hnext : next p l ≤ p + l + 1 := by
      unfold next
      split <;> omega
    obtain ⟨hfits, hno⟩ := ih (p := next p l) (by omega)
    refine ⟨⟨by unfold room; omega, hfits⟩, ?_⟩
    rintro (hend | hover)
    · omega
    · exact hno hover

/-- **The count**: all names, if all have room. -/
theorem appendAll_fst (names : List Arr) : ∀ (count : Nat) (u : User), (appendAll results L names count u).1 =
    if Fits L (appendAt results L u.mem) (names.map strlen) then some (count + names.length) else none := by
  induction names with
  | nil => exact fun _ _ => rfl
  | cons name names ih =>
    intro count u
    rw [appendAll]
    by_cases hroom : room L (appendAt results L u.mem) (strlen name)
    · obtain ⟨acc, heq, -⟩ := append_room hroom
      rw [heq]
      dsimp only
      rw [ih, append_next heq, List.length_cons, Nat.add_assoc, Nat.add_comm 1]
      simp only [List.map_cons, Fits, hroom, true_and]
    · rw [append_full hroom]
      exact (if_neg fun h => hroom h.1).symm

/-- Strings one after the other, each with its terminator. -/
def joined (l : List (List UInt8)) : List UInt8 := l.flatMap fun w => w ++ [0]

/-- **The buffer**: the names with their terminators, one after the other. -/
theorem appendAll_mem (names : List Arr) (hpos : ∀ name ∈ names, 1 ≤ strlen name) : ∀ (count : Nat) (u : User),
    Fits L (appendAt results L u.mem) (names.map strlen) →
    (appendAll results L names count u).2.mem = blit u.mem (results + appendAt results L u.mem)
      (joined (names.map cstr)).length fun j => (joined (names.map cstr)).getD j 0 := by
  induction names with
  | nil =>
    intro count u _
    funext a
    rw [blit_out (by simp [joined]; omega)]
    rfl
  | cons name names ih =>
    rintro count u ⟨hroom, hfits⟩
    obtain ⟨acc, heq, -⟩ := append_room hroom
    have hnext := append_next heq
    have h1 : strlen name ≠ 0 := by have := hpos name List.mem_cons_self; omega
    rw [next, if_neg h1] at hnext hfits
    rw [appendAll, heq]
    dsimp only at hnext ⊢
    have hcons : joined ((name :: names).map cstr) = cstr name ++ [0] ++ joined (names.map cstr) := rfl
    have hlen : (cstr name ++ [0]).length = strlen name + 1 := by simp
    rw [ih (fun nm hnm => hpos nm (List.mem_cons_of_mem name hnm)) (count + 1) _ (by rw [hnext]; exact hfits), hnext,
      hcons, List.length_append, hlen]
    rw [show results + (appendAt results L u.mem + strlen name + 1) =
      results + appendAt results L u.mem + (strlen name + 1) by omega]
    dsimp only
    refine blit_append (fun j hj => ?_) fun j hj => ?_
    · -- the bytes of this name
      rw [List.getD_append _ _ _ _ (by omega)]
      by_cases hlt : j < strlen name
      · rw [if_pos hlt, List.getD_append _ _ _ _ (by simpa using hlt), List.getD_eq_getElem _ _ (by simpa using hlt)]
        simp [cstr]
      · rw [if_neg hlt, List.getD_append_right _ _ _ _ (by simp; omega)]
        have hj0 : j - (cstr name).length = 0 := by simp; omega
        rw [hj0]
        rfl
    · rw [List.getD_append_right _ _ _ _ (by omega), hlen, Nat.add_sub_cancel_left]

/-- **The log**: unless a name ends with the buffer, all writes are inside it. -/
theorem appendAll_writes (names : List Arr) : ∀ (count : Nat) (u : User),
    ¬ Overruns L (appendAt results L u.mem) (names.map strlen) →
    ∀ a ∈ (appendAll results L names count u).2.acc, a ∈ u.acc ∨ a.write = false ∨
      results ≤ a.addr ∧ (a.addr : Int) < results + L := by
  induction names with
  | nil => exact fun _ _ _ a ha => .inl ha
  | cons name names ih =>
    intro count u hno a ha
    rw [List.map_cons, Overruns, not_or] at hno
    rw [appendAll] at ha
    have hone := append_writes (u := u) hno.1 (a := a)
    rcases heq : u.append results L name with ⟨_ | _, u'⟩ <;> rw [heq] at ha hone
    · exact hone ha
    · rcases ih (count + 1) u' (by rw [append_next heq]; exact hno.2) a ha with h | h
      · exact hone h
      · exact .inr h

end Names

/-! ## Candidates that match -/

section Query

variable {q : Query} {u u' : User} {mem mem' : Arr} {c : Candidate} {hi : Nat}

/-- The key and the value lie outside the first `hi` bytes of the buffer. -/
structure Query.Apart (q : Query) (mem : Arr) (hi : Nat) : Prop where
  key : ∀ j ≤ strlen (fun j => mem (q.key + j)), ¬ (q.results ≤ q.key + j ∧ q.key + j < q.results + hi)
  value : ∀ j < q.valueLength.toNat, ¬ (q.results ≤ q.value + j ∧ q.value + j < q.results + hi)

/-- The names that match. -/
def Query.names (q : Query) (mem : Arr) (cs : List Candidate) : List Arr :=
  (cs.filter (q.hits mem)).map Candidate.name

theorem Query.names_cons_hit (h : q.hits mem c = true) (cs : List Candidate) :
    q.names mem (c :: cs) = c.name :: q.names mem cs := by
  rw [Query.names, List.filter_cons_of_pos h]
  rfl

theorem Query.names_cons_miss (h : ¬ q.hits mem c = true) (cs : List Candidate) :
    q.names mem (c :: cs) = q.names mem cs := by
  rw [Query.names, List.filter_cons_of_neg h]
  rfl

/-- Two memories that differ inside the first `hi` bytes of the buffer only. -/
def Query.Agree (q : Query) (hi : Nat) (mem mem' : Arr) : Prop :=
  ∀ a, ¬ (q.results ≤ a ∧ a < q.results + hi) → mem' a = mem a

theorem le_strlenFrom (k : Arr) (n : Nat) : n ≤ strlenFrom k n := by
  induction n using strlenFrom.induct k with
  | case1 n h ih =>
    rw [strlenFrom, if_pos h]
    omega
  | case2 n h => rw [strlenFrom, if_neg h]

theorem strlenFrom_congr {k k' : Arr} (n : Nat) (h : ∀ j, n ≤ j → j ≤ strlenFrom k n → k' j = k j) :
    strlenFrom k' n = strlenFrom k n := by
  induction n using strlenFrom.induct k with
  | case1 n hn ih =>
    have hle := le_strlenFrom k (n + 1)
    have heq : strlenFrom k n = strlenFrom k (n + 1) := by rw [strlenFrom, if_pos hn]
    rw [heq] at h ⊢
    rw [strlenFrom, h n (Nat.le_refl n) (by omega), if_pos hn]
    exact ih fun j hj => h j (by omega)
  | case2 n hn =>
    have heq : strlenFrom k n = n := by rw [strlenFrom, if_neg hn]
    rw [heq] at h ⊢
    rw [strlenFrom, h n (Nat.le_refl n) (Nat.le_refl n), if_neg hn]

/-- The inner loop of the search does not go beyond the terminator. -/
theorem keyAt_congr_key {k k' str : Arr} {o : Nat} (h : ∀ j ≤ strlen k, k' j = k j) : ∀ fuel j, j + fuel = 10 →
    j ≤ strlen k → keyAt k' str (strlen k) o fuel j = keyAt k str (strlen k) o fuel j := by
  intro fuel
  induction fuel with
  | zero => exact fun _ _ _ => rfl
  | succ fuel ih =>
    intro j hj hle
    rw [keyAt, keyAt, h j hle]
    by_cases hc : o + j < BSIZE ∧ k j = str (o + j)
    · rw [if_pos hc, if_pos hc]
      by_cases hend : j = strlen k ∧ k j = 0 ∧ str (o + j) = 0
      · rw [if_pos hend, if_pos hend]
      · rw [if_neg hend, if_neg hend]
        refine ih (j + 1) (by omega) (Nat.lt_of_le_of_ne hle fun heq => hend ⟨heq, ?_⟩)
        have h0 : k j = 0 := by rw [heq]; exact strlen_nul (by omega)
        exact ⟨h0, by rw [← hc.2, h0]⟩
    · rw [if_neg hc, if_neg hc]

/-- The search for a key reads it up to its terminator. -/
theorem searchKey_congr {k k' str : Arr} (h : ∀ j ≤ strlen k, k' j = k j) : searchKey k' str = searchKey k str := by
  have hlen : strlen k' = strlen k := strlenFrom_congr 0 fun j _ hj => h j hj
  unfold searchKey
  rw [hlen, List.find?_congr fun o _ => keyAt_congr_key h 10 0 rfl (Nat.zero_le _)]

/-- What is written into the buffer does not change the query. -/
theorem Query.hits_congr (ha : q.Apart mem hi) (h : q.Agree hi mem mem') : q.hits mem' c = q.hits mem c := by
  have hkey : ∀ j ≤ strlen (fun j => mem (q.key + j)), mem' (q.key + j) = mem (q.key + j) := fun j hj => h _ (ha.key j hj)
  unfold Query.hits tagMatches
  rw [searchKey_congr hkey]
  dsimp only
  rw [decide_eq_decide]
  refine and_congr_right fun _ => and_congr_right fun hlen => ?_
  simp only [List.all_eq_true, List.mem_range, decide_eq_true_eq]
  refine forall_congr' fun j => forall_congr' fun hj => ?_
  rw [h _ (ha.value j (by omega))]

theorem Query.Apart.agree (ha : q.Apart mem hi) (h : q.Agree hi mem mem') : q.Apart mem' hi := by
  have hlen : strlen (fun j => mem' (q.key + j)) = strlen fun j => mem (q.key + j) :=
    strlenFrom_congr 0 fun j _ hj => h _ (ha.key j hj)
  exact ⟨fun j hj => ha.key j (by rw [← hlen]; exact hj), ha.value⟩

theorem Query.names_congr (ha : q.Apart mem hi) (h : q.Agree hi mem mem') (cs : List Candidate) :
    q.names mem' cs = q.names mem cs := by
  rw [Query.names, Query.names, List.filter_congr fun c _ => Query.hits_congr ha h]

/-- A name that is copied changes the buffer up to its terminator. -/
theorem append_agree {name : Arr} (h : u.append q.results q.resultsLength name = (true, u'))
    (hhi : appendAt q.results q.resultsLength u.mem + strlen name < hi) : q.Agree hi u.mem u'.mem := by
  intro a ha
  have hroom : room q.resultsLength (appendAt q.results q.resultsLength u.mem) (strlen name) := by
    by_contra hc
    rw [append_full hc] at h
    cases h
  obtain ⟨acc, heq, -⟩ := append_room hroom
  obtain rfl : _ = u' := (Prod.mk.inj (heq.symm.trans h)).2
  dsimp only
  rw [blit_out (by omega)]

/-- **The answer** is made of the names that match before anything is written, as long as the query stays: it lies
    outside the buffer and the byte after it, or outside the buffer and no name ends with it. -/
theorem answer_eq (cs : List Candidate) : ∀ (count : Nat) (u : User), q.Apart u.mem hi →
    ((hi : Int) = q.resultsLength + 1 ∨ (hi : Int) = q.resultsLength ∧
      ¬ Overruns q.resultsLength (appendAt q.results q.resultsLength u.mem) ((q.names u.mem cs).map strlen)) →
    answer q cs count u = appendAll q.results q.resultsLength (q.names u.mem cs) count u := by
  induction cs with
  | nil => exact fun _ _ _ _ => rfl
  | cons c cs ih =>
    intro count u ha hhi
    rw [answer]
    by_cases hhit : q.hits u.mem c = true
    · rw [Query.names_cons_hit hhit] at hhi ⊢
      rw [if_pos hhit, appendAll]
      rcases heq : u.append q.results q.resultsLength c.name with ⟨_ | _, u'⟩
      · rfl
      have hroom : room q.resultsLength (appendAt q.results q.resultsLength u.mem) (strlen c.name) := by
        by_contra hc
        rw [append_full hc] at heq
        cases heq
      unfold room at hroom
      rw [List.map_cons, Overruns, not_or] at hhi
      have hag : q.Agree hi u.mem u'.mem := append_agree heq (by omega)
      have hnames := Query.names_congr ha hag cs
      rw [← hnames]
      refine ih (count + 1) u' (ha.agree hag) (hhi.imp_right fun h => ⟨h.1, ?_⟩)
      rw [append_next heq, hnames]
      exact h.2.2
    · rw [Query.names_cons_miss hhit] at hhi ⊢
      rw [if_neg hhit]
      exact ih count u ha hhi

theorem answer_acc (cs : List Candidate) : ∀ (count : Nat) (u : User) {a : Access}, a ∈ u.acc →
    a ∈ (answer q cs count u).2.acc := by
  induction cs with
  | nil => exact fun _ _ _ h => h
  | cons c cs ih =>
    intro count u a h
    rw [answer]
    split
    · have h' := @append_acc q.results q.resultsLength c.name u a h
      rcases heq : u.append q.results q.resultsLength c.name with ⟨_ | _, u'⟩ <;> rw [heq] at h'
      · exact h'
      · exact ih _ u' h'
    · exact ih count u h

/-- **The byte after the buffer** is written if a name ends with the buffer. -/
theorem answer_overrun (cs : List Candidate) : ∀ (count : Nat) (u : User), q.Apart u.mem q.resultsLength.toNat →
    Overruns q.resultsLength (appendAt q.results q.resultsLength u.mem) ((q.names u.mem cs).map strlen) →
    ⟨true, q.results + q.resultsLength.toNat⟩ ∈ (answer q cs count u).2.acc := by
  induction cs with
  | nil => exact fun _ _ _ h => h.elim
  | cons c cs ih =>
    intro count u ha hover
    rw [answer]
    by_cases hhit : q.hits u.mem c = true
    · rw [Query.names_cons_hit hhit] at hover
      rw [if_pos hhit]
      by_cases hend : ((appendAt q.results q.resultsLength u.mem + strlen c.name : Nat) : Int) = q.resultsLength
      · have hw := append_overrun hend
        rcases heq : u.append q.results q.resultsLength c.name with ⟨_ | _, u'⟩ <;> rw [heq] at hw
        · exact hw
        · exact answer_acc cs _ u' hw
      · -- this name has room, since a later one ends with the buffer
        have hlater := hover.resolve_left hend
        have hle := hlater.le
        have hnext := le_next (appendAt q.results q.resultsLength u.mem) (strlen c.name)
        obtain ⟨acc, heq, -⟩ := @append_room q.results q.resultsLength c.name u (by unfold room; omega)
        have hag : q.Agree q.resultsLength.toNat u.mem _ := append_agree heq (by omega)
        rw [heq]
        refine ih _ _ (ha.agree hag) ?_
        rw [append_next heq, Query.names_congr ha hag]
        exact hlater
    · rw [Query.names_cons_miss hhit] at hover
      rw [if_neg hhit]
      exact ih count u ha hover

end Query

/-! ## The format of the buffer -/

section Format

variable {q : Query} {s s' : Fs} {r : Int}

/-- The name in the field of a directory entry, at most `DIRSIZ` bytes. -/
def fieldName (name : Arr) : List UInt8 := (cstr name).take DIRSIZ

/-- What the buffer is meant to hold: the names with their terminators, then zeroes. -/
def Fs.Holds (s : Fs) (q : Query) (names : List (List UInt8)) : Prop :=
  (List.range q.resultsLength.toNat).map (fun j => s.mem (q.results + j)) =
    joined names ++ List.replicate (q.resultsLength.toNat - (joined names).length) 0

/-- **The format of an answer**: all writes are inside the buffer, and either the names fit and are there, or the call
    returned -1. -/
structure Format (q : Query) (names : List (List UInt8)) (r : Int) (s' : Fs) : Prop where
  writes : ∀ a ∈ s'.acc, a.write = true → (a.addr : Int) < q.results + q.resultsLength
  fits : ((joined names).length : Int) ≤ q.resultsLength → r = names.length ∧ s'.Holds q names
  full : ¬ ((joined names).length : Int) ≤ q.resultsLength → r = -1

theorem joined_length (l : List (List UInt8)) : (joined l).length = (l.map (·.length + 1)).sum := by
  simp [joined, List.length_flatMap]

/-- Bytes that are not zero in a list of strings. -/
theorem joined_nonzero (l : List (List UInt8)) (h : ∀ w ∈ l, (0 : UInt8) ∉ w) :
    (joined l).countP (· ≠ 0) = (l.map List.length).sum := by
  induction l with
  | nil => rfl
  | cons w l ih =>
    have hw : w.countP (· ≠ 0) = w.length :=
      List.countP_eq_length.mpr fun b hb => by
        have : b ≠ 0 := fun h0 => h w List.mem_cons_self (h0 ▸ hb)
        simpa using this
    show (w ++ [0] ++ joined l).countP (· ≠ 0) = _
    rw [List.countP_append, List.countP_append, ih fun v hv => h v (List.mem_cons_of_mem w hv), hw, List.map_cons,
      List.sum_cons]
    rfl

/-- An empty buffer after the names were copied. -/
theorem holds_blit {mem : Arr} {names : List (List UInt8)} (hzero : ∀ j < q.resultsLength.toNat, mem (q.results + j) = 0)
    (hle : ((joined names).length : Int) ≤ q.resultsLength)
    (hmem : s'.mem = blit mem q.results (joined names).length fun j => (joined names).getD j 0) : s'.Holds q names := by
  unfold Fs.Holds
  refine List.ext_getElem (by simp; omega) fun j hj hj' => ?_
  simp only [List.length_map, List.length_range] at hj
  rw [List.getElem_map, List.getElem_range, hmem]
  by_cases hlt : j < (joined names).length
  · rw [blit_in (by omega) (by omega), Nat.add_sub_cancel_left, List.getElem_append_left hlt, List.getD_eq_getElem _ _ hlt]
  · rw [blit_out (by omega), hzero j hj, List.getElem_append_right (by omega), List.getElem_replicate]

theorem length_fieldName (name : Arr) : (fieldName name).length = min DIRSIZ (strlen name) := by simp [fieldName]

theorem fieldName_eq {name : Arr} (h : strlen name ≤ DIRSIZ) : fieldName name = cstr name :=
  List.take_of_length_le (by simpa using h)

theorem joined_field_le (names : List Arr) :
    (joined (names.map fieldName)).length ≤ (joined (names.map cstr)).length := by
  rw [joined_length, joined_length]
  induction names with
  | nil => exact Nat.le_refl _
  | cons name names ih =>
    simp only [List.map_cons, List.sum_cons, length_fieldName, length_cstr] at ih ⊢
    omega

/-- The buffer tells names that are longer than their field from the names in the fields. -/
theorem holds_field_iff {names : List Arr} (h : s'.Holds q (names.map cstr)) :
    s'.Holds q (names.map fieldName) ↔ ∀ name ∈ names, strlen name ≤ DIRSIZ := by
  constructor
  · intro h'
    -- as many bytes are not zero in both
    have hcount := congrArg (List.countP (· ≠ 0)) (h.symm.trans h')
    have hz : ∀ n : Nat, (List.replicate n (0 : UInt8)).countP (· ≠ 0) = 0 := fun n => by simp [List.countP_replicate]
    rw [List.countP_append, List.countP_append, hz, hz, joined_nonzero, joined_nonzero] at hcount
    · intro name hname
      by_contra hlong
      have hlt : (names.map fun nm => (fieldName nm).length).sum < (names.map fun nm => (cstr nm).length).sum := by
        refine List.sum_lt_sum _ _ (fun nm _ => ?_) ⟨name, hname, ?_⟩
        · rw [length_fieldName, length_cstr]
          omega
        · rw [length_fieldName, length_cstr]
          omega
      rw [List.map_map, List.map_map] at hcount
      exact absurd hcount.symm (Nat.ne_of_lt hlt)
    · intro w hw
      obtain ⟨name, -, rfl⟩ := List.mem_map.mp hw
      exact fun h0 => not_mem_cstr name (List.mem_of_mem_take h0)
    · intro w hw
      obtain ⟨name, -, rfl⟩ := List.mem_map.mp hw
      exact not_mem_cstr name
  · intro hall
    have hmap : names.map fieldName = names.map cstr := List.map_congr_left fun name hname => fieldName_eq (hall name hname)
    rw [hmap]
    exact h

/-- **The format of the buffer**, for an empty one. It is as documented exactly when no name ends with the buffer and,
    if the names fit, none of them fills its field and runs on into the next entry. -/
theorem getFilesByTag_format_iff (q : Query) {s s' : Fs} {r : Int} (hrun : exec q.call s = (.ok r, s'))
    (hL : 0 ≤ q.resultsLength) (hacc : s.acc = []) (hzero : ∀ j < q.resultsLength.toNat, s.mem (q.results + j) = 0)
    (hapart : q.Apart s.mem q.resultsLength.toNat)
    (hpos : ∀ name ∈ q.names s.mem (tagScan s).1, 1 ≤ strlen name) :
    Format q ((q.names s.mem (tagScan s).1).map fieldName) r s' ↔
      ¬ Overruns q.resultsLength 0 ((q.names s.mem (tagScan s).1).map strlen) ∧
      (((joined ((q.names s.mem (tagScan s).1).map fieldName)).length : Int) ≤ q.resultsLength →
        ∀ name ∈ q.names s.mem (tagScan s).1, strlen name ≤ DIRSIZ) := by
  have hans : Answered (answer q (tagScan s).1 0 s.user) (tagScan s).2 r s' := wp_ok (getFilesByTag_answer q s) hrun
  have hat : appendAt q.results q.resultsLength s.user.mem = 0 := appendAt_empty hzero
  by_cases hover : Overruns q.resultsLength 0 ((q.names s.mem (tagScan s).1).map strlen)
  · -- the terminator of some name is written one byte too far
    have hw := answer_overrun (tagScan s).1 0 s.user hapart (by rw [hat]; exact hover)
    rw [hans.1] at hw
    refine ⟨fun hf => absurd (hf.writes _ hw rfl) ?_, fun hc => absurd hover hc.1⟩
    dsimp only
    omega
  have heq := answer_eq (tagScan s).1 0 s.user hapart (.inr ⟨by omega, by rw [hat]; exact hover⟩)
  rw [show s.user.mem = s.mem from rfl] at heq
  set names := q.names s.mem (tagScan s).1
  rw [heq] at hans
  obtain ⟨huser, hret⟩ := hans
  have hwrites : ∀ a ∈ s'.acc, a.write = true → (a.addr : Int) < q.results + q.resultsLength := by
    intro a ha hwrite
    have h := @appendAll_writes q.results q.resultsLength names 0 s.user (by rw [hat]; exact hover) a
      (by rw [huser]; exact ha)
    rcases h with h | h | h
    · rw [Fs.user, hacc] at h
      cases h
    · rw [hwrite] at h
      cases h
    · exact h.2
  rw [appendAll_fst, hat] at hret
  have hlens : ∀ l ∈ names.map strlen, 1 ≤ l := by
    intro l hl
    obtain ⟨name, hname, rfl⟩ := List.mem_map.mp hl
    exact hpos name hname
  have htotal : (joined (names.map cstr)).length = ((names.map strlen).map (· + 1)).sum := by
    simp [joined_length, Function.comp_def]
  have hfield := joined_field_le names
  by_cases hfits : Fits q.resultsLength 0 (names.map strlen)
  · -- all names are in the buffer, each up to the first zero byte
    rw [if_pos hfits] at hret
    obtain ⟨rfl, -⟩ := hret
    have hle := hfits.total_le hlens (by omega) hover
    have hmem := @appendAll_mem q.results q.resultsLength names hpos 0 s.user (by rw [hat]; exact hfits)
    rw [huser, hat] at hmem
    have hholds : s'.Holds q (names.map cstr) := holds_blit hzero (by omega) hmem
    constructor
    · intro hf
      exact ⟨hover, fun hfit => (holds_field_iff hholds).mp (hf.fits hfit).2⟩
    · rintro ⟨-, hall⟩
      refine ⟨hwrites, fun hfit => ⟨by simp, (holds_field_iff hholds).mpr (hall hfit)⟩, fun hno => absurd ?_ hno⟩
      omega
  · rw [if_neg hfits] at hret
    have hret : r = -1 := hret
    constructor
    · intro hf
      refine ⟨hover, fun hfit => ?_⟩
      have := (hf.fits hfit).1
      omega
    · rintro ⟨-, hall⟩
      have hno : ¬ ((joined (names.map fieldName)).length : Int) ≤ q.resultsLength := by
        intro hfit
        have hmap : names.map fieldName = names.map cstr :=
          List.map_congr_left fun name hname => fieldName_eq (hall hfit name hname)
        rw [hmap, htotal] at hfit
        exact hfits (fits_of_total_le (by omega)).1
      exact ⟨hwrites, fun hfit => absurd hfit hno, fun _ => hret⟩

end Format

/-! ## What was in the buffer -/

section OldContents

variable {q : Query} {s : Fs} {mem : Arr}

/-- The first `n` strings at `a`. -/
def stringsAt (mem : Arr) : Nat → Nat → List (List UInt8)
  | _, 0 => []
  | a, n + 1 => strAt mem a :: stringsAt mem (a + (strAt mem a).length + 1) n

/-- The state with other user memory. -/
def Fs.withMem (s : Fs) (mem : Arr) : Fs := s.withUser ⟨mem, s.acc⟩

/-- **What a call returns** on a buffer with other contents, for a query outside the buffer and the byte after it. -/
theorem call_withMem (hapart : q.Apart s.mem (q.resultsLength.toNat + 1)) (hL : 0 ≤ q.resultsLength)
    (hag : q.Agree q.resultsLength.toNat s.mem mem) :
    (exec q.call (s.withMem mem)).1 =
      if Fits q.resultsLength (appendAt q.results q.resultsLength mem) ((q.names s.mem (tagScan s).1).map strlen) then
        (tagScan s).2.map fun _ => ((q.names s.mem (tagScan s).1).length : Int)
      else .ok (-1) := by
  have hag' : q.Agree (q.resultsLength.toNat + 1) s.mem mem := fun a ha => hag a (by omega)
  have heq := answer_eq (tagScan s).1 0 ⟨mem, s.acc⟩ (hapart.agree hag') (.inl (by omega))
  have hfst := congrArg Prod.fst heq
  rw [appendAll_fst, Query.names_congr hapart hag'] at hfst
  rw [Fs.withMem, call_fst, hfst]
  by_cases hfits : Fits q.resultsLength (appendAt q.results q.resultsLength mem) ((q.names s.mem (tagScan s).1).map strlen)
  · rw [if_pos hfits, if_pos hfits, Nat.zero_add]
  · rw [if_neg hfits, if_neg hfits]

/-- **The buffer's old contents** do not matter exactly when there is no buffer, nothing matches, or the names have
    no room even in an empty buffer. -/
theorem getFilesByTag_oldContents_iff (q : Query) (s : Fs) (hapart : q.Apart s.mem (q.resultsLength.toNat + 1)) :
    (∀ mem mem', q.Agree q.resultsLength.toNat s.mem mem → q.Agree q.resultsLength.toNat s.mem mem' →
      (exec q.call (s.withMem mem)).1 = (exec q.call (s.withMem mem')).1 ∧
      ∀ n : Nat, 0 < n → (exec q.call (s.withMem mem)).1 = .ok (n : Int) →
        stringsAt (exec q.call (s.withMem mem)).2.mem q.results n =
          stringsAt (exec q.call (s.withMem mem')).2.mem q.results n) ↔
    q.resultsLength ≤ 0 ∨ q.names s.mem (tagScan s).1 = [] ∨
      ¬ Fits q.resultsLength 0 ((q.names s.mem (tagScan s).1).map strlen) := by
  constructor
  · intro hall
    by_contra hc
    simp only [not_or, not_not, Int.not_le] at hc
    obtain ⟨hL, hne, hfits⟩ := hc
    -- an empty buffer, and one whose last byte is not zero
    let mem : Arr := fill s.mem q.results q.resultsLength.toNat 0
    let mem' : Arr := Function.update s.mem (q.results + (q.resultsLength.toNat - 1)) 1
    have hag : q.Agree q.resultsLength.toNat s.mem mem := fun a ha => fill_out (by omega)
    have hag' : q.Agree q.resultsLength.toNat s.mem mem' := fun a ha => Function.update_of_ne (by omega) ..
    have hat : appendAt q.results q.resultsLength mem = 0 :=
      appendAt_empty fun j hj => fill_in (by omega) (by omega)
    have hat' : appendAt q.results q.resultsLength mem' = q.resultsLength.toNat + 1 := by
      have hk : valueLen (fun j => mem' (q.results + j)) q.resultsLength.toNat = q.resultsLength.toNat := by
        refine valueLen_eq (Nat.le_refl _) (fun _ => ?_) fun j hj hlt => absurd hlt (by omega)
        show Function.update s.mem _ 1 _ ≠ 0
        rw [Function.update_self]
        decide
      rw [appendAt, hk, if_pos (by omega)]
    have h := (hall mem mem' hag hag').1
    rw [call_withMem hapart (by omega) hag, call_withMem hapart (by omega) hag', hat, hat', if_pos hfits, if_neg] at h
    · rcases hout : (tagScan s).2 with e | s1 <;> rw [hout] at h <;> simp [Except.map] at h
    · obtain ⟨name, names, hcons⟩ := List.exists_cons_of_ne_nil hne
      rw [hcons]
      rintro ⟨hroom, -⟩
      unfold room at hroom
      omega
  · intro hcond mem mem' hag hag'
    by_cases hL : q.resultsLength ≤ 0
    · -- the two memories are the same
      have hmem : mem = mem' := by
        funext a
        rw [hag a (by omega), hag' a (by omega)]
      rw [hmem]
      exact ⟨rfl, fun _ _ _ => rfl⟩
    have hfits : ∀ p, Fits q.resultsLength p ((q.names s.mem (tagScan s).1).map strlen) ↔
        q.names s.mem (tagScan s).1 = [] := by
      intro p
      rcases hcond with h | h | h
      · exact absurd h hL
      · simp [h, Fits]
      · refine ⟨fun hp => absurd (hp.mono (Nat.zero_le p)) h, fun h0 => ?_⟩
        rw [h0]
        trivial
    rw [call_withMem hapart (by omega) hag, call_withMem hapart (by omega) hag']
    simp only [hfits]
    refine ⟨trivial, fun n hn hret => ?_⟩
    split at hret
    · rename_i h0
      rw [h0] at hret
      rcases hout : (tagScan s).2 with e | s1 <;> rw [hout] at hret <;> simp [Except.map] at hret
      omega
    · simp at hret

end OldContents

/-! ## A tagged file -/

instance (q : Query) (mem : Arr) (hi : Nat) : Decidable (q.Apart mem hi) :=
  decidable_of_iff ((∀ j ≤ strlen (fun j => mem (q.key + j)), ¬ (q.results ≤ q.key + j ∧ q.key + j < q.results + hi)) ∧
    ∀ j < q.valueLength.toNat, ¬ (q.results ≤ q.value + j ∧ q.value + j < q.results + hi))
    ⟨fun h => ⟨h.1, h.2⟩, fun h => ⟨h.key, h.value⟩⟩

/-- The image of `mkfs` with the root directory loaded, after the file `f` was tagged with the key `"a"` (at address 8)
    and the value `"b"` (at 16); the log starts empty. -/
def taggedFile : Option Fs :=
  (run (tagStep mkfsImage.sb) mkfsImage.start [.fs (.namei 0 [47]), .fs (.ilock 0), .fs (.iunlock 0),
    .fs (.namei 0 [47, 102]), .user (Function.update (Function.update 0 8 97) 16 98), .tagFile 1 8 16 1]).map
    fun s => s.withUser ⟨s.mem, []⟩

/-- The query for that tag, with a buffer of `L` bytes at 32. -/
def tagQuery (L : Int) : Query := ⟨8, 16, 1, 32, L⟩

/-- The same, after a link of the name `gh` to the file. -/
def twoNames : Option Fs := taggedFile.bind fun s => tagStep mkfsImage.sb s (.fs (.link 0 [47, 102] [47, 103, 104]))

/-- With ten bytes the answer for both names has the format. -/
theorem getFilesByTag_format_ten : ∃ s s', twoNames = some s ∧ ((tagQuery 10).names s.mem (tagScan s).1).length = 2 ∧
    exec (tagQuery 10).call s = (.ok 2, s') ∧
    Format (tagQuery 10) (((tagQuery 10).names s.mem (tagScan s).1).map fieldName) 2 s' := by
  have hrun : twoNames.map (fun s : Fs => ((exec (tagQuery 10).call s).1.toOption, s.acc,
      decide (∀ j, j < (tagQuery 10).resultsLength.toNat → s.mem (32 + j) = 0), decide ((tagQuery 10).Apart s.mem 10),
      ((tagQuery 10).names s.mem (tagScan s).1).map strlen)) = some (some 2, [], true, true, [1, 2]) := by decide +kernel
  obtain ⟨s, hs, heq⟩ := Option.map_eq_some_iff.mp hrun
  simp only [Prod.mk.injEq, decide_eq_true_eq] at heq
  obtain ⟨hr, hacc, hzero, hapart, hlens⟩ := heq
  rcases hout : exec (tagQuery 10).call s with ⟨stop | r, s'⟩ <;> rw [hout] at hr
  · cases hr
  obtain rfl : r = 2 := by simpa [Except.toOption] using hr
  have hlen : ∀ name ∈ (tagQuery 10).names s.mem (tagScan s).1, strlen name = 1 ∨ strlen name = 2 := by
    intro name hname
    have := List.mem_map_of_mem (f := strlen) hname
    rw [hlens] at this
    simpa using this
  refine ⟨s, s', hs, ?_, hout, (getFilesByTag_format_iff (tagQuery 10) hout (by decide) hacc hzero hapart
    fun name hname => ?_).mpr ⟨?_, fun _ name hname => ?_⟩⟩
  · simpa using congrArg List.length hlens
  · rcases hlen name hname with h | h <;> omega
  · rw [hlens]
    decide
  · rcases hlen name hname with h | h <;> rw [h] <;> decide

/-- With one byte the terminator is written after the buffer, and the call does not fail. -/
theorem getFilesByTag_format_one : ∃ s s', taggedFile = some s ∧ s.acc = [] ∧ s.mem 32 = 0 ∧
    exec (tagQuery 1).call s = (.ok 1, s') ∧ ⟨true, 33⟩ ∈ s'.acc := by
  have hrun : taggedFile.map (fun s => ((exec (tagQuery 1).call s).1.toOption, s.acc, s.mem 32,
      decide (⟨true, 33⟩ ∈ (exec (tagQuery 1).call s).2.acc))) = some (some 1, [], 0, true) := by decide +kernel
  obtain ⟨s, hs, heq⟩ := Option.map_eq_some_iff.mp hrun
  simp only [Prod.mk.injEq, decide_eq_true_eq] at heq
  obtain ⟨hr, hacc, hzero, hw⟩ := heq
  rcases hout : exec (tagQuery 1).call s with ⟨stop | r, s'⟩ <;> rw [hout] at hr hw
  · cases hr
  obtain rfl : r = 1 := by simpa [Except.toOption] using hr
  exact ⟨s, s', hs, hacc, hzero, hout, hw⟩

/-- A query for the key `"b"`, which no file has, does not depend on the buffer. -/
theorem getFilesByTag_oldContents_absent : ∃ s, taggedFile = some s ∧ ∀ mem mem', Query.Agree ⟨16, 8, 1, 32, 10⟩ 10 s.mem mem →
    Query.Agree ⟨16, 8, 1, 32, 10⟩ 10 s.mem mem' →
    (exec (Query.call ⟨16, 8, 1, 32, 10⟩) (s.withMem mem)).1 = (exec (Query.call ⟨16, 8, 1, 32, 10⟩) (s.withMem mem')).1 := by
  have hrun : taggedFile.map (fun s => (decide (Query.Apart ⟨16, 8, 1, 32, 10⟩ s.mem 11),
      (Query.names ⟨16, 8, 1, 32, 10⟩ s.mem (tagScan s).1).length)) = some (true, 0) := by decide +kernel
  obtain ⟨s, hs, heq⟩ := Option.map_eq_some_iff.mp hrun
  simp only [Prod.mk.injEq, decide_eq_true_eq] at heq
  refine ⟨s, hs, fun mem mem' hag hag' => ?_⟩
  exact ((getFilesByTag_oldContents_iff ⟨16, 8, 1, 32, 10⟩ s heq.1).mpr
    (.inr (.inl (List.length_eq_zero_iff.mp heq.2))) mem mem' hag hag').1

/-- The query for the key `"a"` finds the file with an empty buffer, and fails with one whose last byte is not zero. -/
theorem getFilesByTag_oldContents_differ : ∃ s mem', taggedFile = some s ∧ (tagQuery 10).Agree 10 s.mem mem' ∧
    (exec (tagQuery 10).call (s.withMem s.mem)).1 = .ok 1 ∧ (exec (tagQuery 10).call (s.withMem mem')).1 = .ok (-1) := by
  have hrun : taggedFile.map (fun s => ((exec (tagQuery 10).call (s.withMem s.mem)).1.toOption,
      (exec (tagQuery 10).call (s.withMem (Function.update s.mem 41 1))).1.toOption)) = some (some 1, some (-1)) := by
    decide +kernel
  obtain ⟨s, hs, heq⟩ := Option.map_eq_some_iff.mp hrun
  simp only [Prod.mk.injEq] at heq
  have hok : ∀ {o : Except Stop Int} {r : Int}, o.toOption = some r → o = .ok r := by
    rintro (e | a) r h
    · cases h
    · exact congrArg Except.ok (Option.some.inj h)
  refine ⟨s, Function.update s.mem 41 1, hs, fun a ha => ?_, hok heq.1, hok heq.2⟩
  refine Function.update_of_ne (fun h => ha ?_) _ _
  rw [h]
  exact ⟨by decide, by decide⟩

end Xv6
