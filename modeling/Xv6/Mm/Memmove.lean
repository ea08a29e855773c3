import Xv6.Mm.Vm

/-!
# `Mm.Memmove` — the two implementations of `memmove` (`kernel/string.c`, `user/ulib.c`)

The kernel's `memmove` chooses the direction of the copy from the overlap of the two ranges; the user library's always
copies upwards. Both loops are written out byte by byte over 32-bit addresses. The kernel's is a copy out of a snapshot
of memory (`kmemmove_eq`), which is what the models of its callers assume. The user's is not when the destination
starts inside the source: there the first `dst - src` bytes are repeated (`umemmove_eq_kmemmove_iff`).
-/

namespace Xv6

open Bytes Hoare

variable {mem : Arr} {d s n a : Nat}

/-! ## The loops -/

/-- `while(n-- > 0) *d++ = *s++;` -/
def copyUp : Nat → Nat → Nat → Arr → Arr
  | 0, _, _, mem => mem
  | n + 1, d, s, mem => copyUp n ((d + 1) % 4294967296) ((s + 1) % 4294967296) (Function.update mem d (mem s))

/-- `while(n-- > 0) *--d = *--s;` -/
def copyDown : Nat → Nat → Nat → Arr → Arr
  | 0, _, _, mem => mem
  | n + 1, d, s, mem => copyDown n (usub d 1) (usub s 1) (Function.update mem (usub d 1) (mem (usub s 1)))

/-- `memmove` of the kernel. -/
def kmemmove (dst src n : Nat) (mem : Arr) : Arr :=
  if src < dst ∧ dst < (src + n) % 4294967296 then
    copyDown n ((dst + n) % 4294967296) ((src + n) % 4294967296) mem
  else copyUp n dst src mem

/-- `memmove` of the user library. -/
def umemmove (dst src : Nat) (n : Int) (mem : Arr) : Arr := copyUp n.toNat dst src mem

/-! ## Upwards -/

/-- The last byte is copied last. -/
theorem copyUp_succ (hd : d + n < 4294967296) (hs : s + n < 4294967296) :
    copyUp (n + 1) d s mem = Function.update (copyUp n d s mem) (d + n) (copyUp n d s mem (s + n)) := by
  induction n generalizing d s mem with
  | zero => rfl
  | succ n ih =>
    have hd1 : (d + 1) % 4294967296 = d + 1 := Nat.mod_eq_of_lt (by omega)
    have hs1 : (s + 1) % 4294967296 = s + 1 := Nat.mod_eq_of_lt (by omega)
    rw [copyUp, ih (by omega) (by omega), hd1, hs1, copyUp, hd1, hs1, Nat.add_right_comm, Nat.add_right_comm s,
      Nat.add_assoc, Nat.add_assoc]

/-- Bytes outside the destination stay. -/
theorem copyUp_out (hd : d + n ≤ 4294967296) (hs : s + n ≤ 4294967296) (ha : a < d ∨ d + n ≤ a) :
    copyUp n d s mem a = mem a := by
  induction n with
  | zero => rfl
  | succ n ih =>
    rw [copyUp_succ (by omega) (by omega), Function.update_of_ne (by omega), ih (by omega) (by omega) (by omega)]

/-- A byte of the destination is the source's byte, as it was when the copy came to it: where the destination starts
    below it, that is the byte copied there. -/
theorem copyUp_in (hd : d + n ≤ 4294967296) (hs : s + n ≤ 4294967296) {k : Nat} (hk : k < n) :
    copyUp n d s mem (d + k) = if s < d ∧ d ≤ s + k then copyUp n d s mem (s + k) else mem (s + k) := by
  induction n with
  | zero => exact absurd hk (Nat.not_lt_zero k)
  | succ n ih =>
    rw [copyUp_succ (by omega) (by omega)]
    rcases Nat.lt_or_eq_of_le (Nat.le_of_lt_succ hk) with hlt | rfl
    · rw [Function.update_of_ne (by omega), ih (by omega) (by omega) hlt]
      by_cases h : s < d ∧ d ≤ s + k
      · rw [if_pos h, if_pos h, Function.update_of_ne (by omega)]
      · rw [if_neg h, if_neg h]
    · rw [Function.update_self]
      by_cases h : s < d ∧ d ≤ s + k
      · rw [if_pos h, Function.update_of_ne (by omega)]
      · rw [if_neg h]
        by_cases hsd : d ≤ s
        · exact copyUp_out (by omega) (by omega) (.inr (by omega))
        · exact copyUp_out (by omega) (by omega) (.inl (by omega))

/-- Where the destination does not start inside the source, the copy is one of a snapshot. -/
theorem copyUp_eq (hd : d + n ≤ 4294967296) (hs : s + n ≤ 4294967296) (h : d ≤ s ∨ s + n ≤ d) :
    copyUp n d s mem = blit mem d n fun k => mem (s + k) := by
  funext a
  by_cases ha : d ≤ a ∧ a < d + n
  · obtain ⟨k, rfl⟩ := Nat.exists_eq_add_of_le ha.1
    have hk : k < n := by omega
    rw [copyUp_in hd hs hk, if_neg (by omega), blit_in ha.1 ha.2, Nat.add_sub_cancel_left]
  · have hout : a < d ∨ d + n ≤ a := by omega
    rw [copyUp_out hd hs hout, blit_out hout]

/-! ## Downwards -/

/-- Where the destination is above the source, copying down is a copy of a snapshot. -/
theorem copyDown_eq (hd : d + n ≤ 4294967296) (hs : s + n ≤ 4294967296) (h : s ≤ d) :
    copyDown n ((d + n) % 4294967296) ((s + n) % 4294967296) mem = blit mem d n fun k => mem (s + k) := by
  induction n generalizing mem with
  | zero =>
    funext a
    rw [copyDown, blit_out (by omega)]
  | succ n ih =>
    rw [copyDown, usub_one, usub_one, ih (by omega) (by omega), Nat.mod_eq_of_lt (by omega : d + n < 4294967296),
      Nat.mod_eq_of_lt (by omega : s + n < 4294967296)]
    funext a
    -- the byte just copied is above what is still to be read
    rcases Nat.lt_trichotomy a (d + n) with hlt | rfl | hgt
    · by_cases ha : d ≤ a
      · rw [blit_in ha hlt, blit_in ha (by omega)]
        exact Function.update_of_ne (by omega) _ _
      · rw [blit_out (by omega), blit_out (by omega), Function.update_of_ne (by omega)]
    · rw [blit_out (.inr (Nat.le_refl _)), Function.update_self, blit_in (Nat.le_add_right d n) (by omega),
        Nat.add_sub_cancel_left]
    · rw [blit_out (.inr (by omega)), blit_out (by omega), Function.update_of_ne (by omega)]

/-! ## Agreement -/

/-- **The kernel's `memmove`** copies a snapshot of the source. -/
theorem kmemmove_eq (hd : d + n ≤ 4294967296) (hs : s + n ≤ 4294967296) :
    kmemmove d s n mem = blit mem d n fun k => mem (s + k) := by
  rw [kmemmove]
  by_cases h : s < d ∧ d < (s + n) % 4294967296
  · rw [if_pos h]
    exact copyDown_eq hd hs (Nat.le_of_lt h.1)
  · rw [if_neg h]
    apply copyUp_eq hd hs
    by_contra hc
    rw [Nat.mod_eq_of_lt (by omega)] at h
    omega

/-- **Snapshot semantics of the kernel's `memmove`**, however the two ranges overlap: the destination holds what the source
    held before, and every other byte is as it was. -/
theorem kmemmove_snapshot (hd : d + n ≤ 4294967296) (hs : s + n ≤ 4294967296) :
    (∀ k < n, kmemmove d s n mem (d + k) = mem (s + k)) ∧
      ∀ a, a < d ∨ d + n ≤ a → kmemmove d s n mem a = mem a := by
  rw [kmemmove_eq hd hs]
  refine ⟨fun k hk => ?_, fun a ha => blit_out ha⟩
  rw [blit_in (Nat.le_add_right d k) (Nat.add_lt_add_left hk d), Nat.add_sub_cancel_left]

/-- The bytes the source and the destination share repeat those `d - s` below them. -/
def Repeats (mem : Arr) (d s n : Nat) : Prop := ∀ k, d + k < s + n → mem (d + k) = mem (s + k)

/-- **The two implementations agree** exactly when the destination does not start inside the source, or starts where
    the source repeats itself. -/
theorem umemmove_eq_kmemmove_iff {dst src : Nat} (hd : dst + n ≤ 4294967296) (hs : src + n ≤ 4294967296) :
    umemmove dst src n mem = kmemmove dst src n mem ↔ dst ≤ src ∨ src + n ≤ dst ∨ Repeats mem dst src n := by
  rw [umemmove, Int.toNat_natCast, kmemmove_eq hd hs]
  have hin : ∀ k < n, blit mem dst n (fun k => mem (src + k)) (dst + k) = mem (src + k) := fun k hk => by
    rw [blit_in (Nat.le_add_right dst k) (Nat.add_lt_add_left hk dst), Nat.add_sub_cancel_left]
  constructor
  · intro heq
    by_contra hc
    obtain ⟨h1, h2, h3⟩ : src < dst ∧ dst < src + n ∧ ¬ Repeats mem dst src n := by
      simpa only [not_or, Nat.not_le] using hc
    apply h3
    intro k hk
    -- the byte at `dst + k` is where the copy reads the byte for `dst + (dst - src + k)` from
    have hread : copyUp n dst src mem (dst + (dst - src + k)) = _ := copyUp_in hd hs (by omega)
    have haddr : src + (dst - src + k) = dst + k := by omega
    rw [haddr, if_pos ⟨h1, Nat.le_add_right dst k⟩, heq, hin _ (by omega), hin k (by omega), haddr] at hread
    exact hread
  · intro h
    by_cases hsafe : dst ≤ src ∨ src + n ≤ dst
    · exact copyUp_eq hd hs hsafe
    have hrep : Repeats mem dst src n := (h.resolve_left fun hc => hsafe (.inl hc)).resolve_left fun hc => hsafe (.inr hc)
    -- each byte is the one `dst - src` below, which was right
    have hval : ∀ k < n, copyUp n dst src mem (dst + k) = mem (src + k) := by
      intro k
      induction k using Nat.strong_induction_on with
      | _ k ih =>
        intro hk
        rw [copyUp_in hd hs hk]
        by_cases hover : src < dst ∧ dst ≤ src + k
        · have haddr : src + k = dst + (src + k - dst) := by omega
          rw [if_pos hover, haddr, ih (src + k - dst) (by omega) (by omega), hrep _ (by omega)]
        · rw [if_neg hover]
    funext a
    by_cases ha : dst ≤ a ∧ a < dst + n
    · obtain ⟨k, rfl⟩ := Nat.exists_eq_add_of_le ha.1
      rw [hval k (by omega), hin k (by omega)]
    · have hout : a < dst ∨ dst + n ≤ a := by omega
      rw [copyUp_out hd hs hout, blit_out hout]

/-- Bytes 1, 2, 3 at addresses 0, 1, 2. -/
def oneTwoThree : Arr := fun a => if a = 0 then 1 else if a = 1 then 2 else if a = 2 then 3 else 0

theorem umemmove_eq_kmemmove_down : umemmove 0 1 (2 : Nat) oneTwoThree = kmemmove 0 1 2 oneTwoThree ↔
    0 ≤ 1 ∨ 1 + 2 ≤ 0 ∨ Repeats oneTwoThree 0 1 2 :=
  umemmove_eq_kmemmove_iff (by decide) (by decide)

/-- Moving two bytes up by one, over the second of them. -/
theorem kmemmove_snapshot_up : kmemmove 1 0 2 oneTwoThree 1 = 1 ∧ kmemmove 1 0 2 oneTwoThree 2 = 2 ∧
    kmemmove 1 0 2 oneTwoThree 0 = 1 := by
  have hsnap : (∀ k < 2, kmemmove 1 0 2 oneTwoThree (1 + k) = oneTwoThree (0 + k)) ∧
      ∀ a, a < 1 ∨ 1 + 2 ≤ a → kmemmove 1 0 2 oneTwoThree a = oneTwoThree a := kmemmove_snapshot (by decide) (by decide)
  obtain ⟨hin, hout⟩ := hsnap
  exact ⟨hin 0 (by decide), hin 1 (by decide), hout 0 (.inl (by decide))⟩

/-- Moving two bytes up by one: the user library copies the first byte twice. -/
theorem umemmove_ne_kmemmove : umemmove 1 0 (2 : Nat) oneTwoThree ≠ kmemmove 1 0 2 oneTwoThree := by
  intro heq
  have hbyte := congrFun heq 2
  exact absurd hbyte (by decide)

/-! ## The callers' model -/

end Xv6
