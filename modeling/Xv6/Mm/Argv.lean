import Xv6.Fs.Rw
import Xv6.Mm.Vm

/-!
# `Mm.Argv` — the argument block of a new program

What `exec` leaves on the stack of a new program, as bytes: the strings, pushed down from the top of the stack page
and aligned to words, and below them the frame with the pointers to them. `ArgBlock` says how it is read back, and
`argBlock` that the bytes `exec` copies out read so.
-/

namespace Xv6

open Bytes

variable {u : Arr} {sp va : Nat} {a : List UInt8} {argv : List (List UInt8)}

/-! ## Bytes -/

theorem withBytes_in {buf : List UInt8} (h1 : sp ≤ va) (h2 : va < sp + buf.length) :
    withBytes u sp buf va = buf.getD (va - sp) 0 := blit_in h1 h2

theorem withBytes_out {buf : List UInt8} (h : va < sp ∨ sp + buf.length ≤ va) : withBytes u sp buf va = u va :=
  blit_out h

theorem withBytes_slice (u : Arr) (sp : Nat) (buf : List UInt8) : slice (withBytes u sp buf) sp buf.length = buf := by
  refine List.ext_getElem (slice_length ..) fun i h1 h2 => ?_
  simp only [slice, List.getElem_map, List.getElem_range]
  rw [withBytes_in (Nat.le_add_right _ _) (by omega), Nat.add_sub_cancel_left, List.getD_eq_getElem _ _ h2]

theorem slice_congr {f g : Arr} {off n : Nat} (h : ∀ k < n, f (off + k) = g (off + k)) : slice f off n = slice g off n :=
  List.map_congr_left fun k hk => h k (List.mem_range.mp hk)

/-! ## Strings -/

/-- What a string and its null take on the stack. -/
def argSize (a : List UInt8) : Nat := (a.length + 4) / 4 * 4

def argsSize (argv : List (List UInt8)) : Nat := (argv.map argSize).sum

theorem argSize_ge (a : List UInt8) : a.length + 1 ≤ argSize a ∧ argSize a % 4 = 0 := by
  simp only [argSize]
  omega

theorem argsSize_cons (a : List UInt8) (argv : List (List UInt8)) : argsSize (a :: argv) = argSize a + argsSize argv :=
  List.sum_cons

theorem argSize_le_sum {a : List UInt8} : ∀ {argv : List (List UInt8)}, a ∈ argv → argSize a ≤ argsSize argv
  | b :: argv, ha => by
    rw [argsSize_cons]
    rcases List.mem_cons.mp ha with rfl | hmem
    · exact Nat.le_add_right _ _
    · exact Nat.le_trans (argSize_le_sum hmem) (Nat.le_add_left _ _)

/-- Where the strings go, pushed down from `sp`. -/
def argPtrs : Nat → List (List UInt8) → List Nat
  | _, [] => []
  | sp, a :: argv => (sp - argSize a) :: argPtrs (sp - argSize a) argv

/-- The stack with the strings pushed down from `sp`. -/
def argBytes : Arr → Nat → List (List UInt8) → Arr
  | u, _, [] => u
  | u, sp, a :: argv => argBytes (withBytes u (sp - argSize a) (a ++ [0])) (sp - argSize a) argv

theorem argPtrs_length (sp : Nat) (argv : List (List UInt8)) : (argPtrs sp argv).length = argv.length := by
  induction argv generalizing sp with
  | nil => rfl
  | cons a argv ih => exact congrArg (· + 1) (ih _)

/-- The stack pointer of `exec` after a string that fits. -/
theorem push_sp (h4 : sp % 4 = 0) (hlt : sp < 4294967296) (hle : argSize a ≤ sp) :
    usub sp (a.length + 1) / 4 * 4 = sp - argSize a := by
  have := argSize_ge a
  rw [usub_of_le (by omega) hlt]
  simp only [argSize] at *
  omega

/-- One that does not fit above address 0 wraps around to the device mappings. -/
theorem push_wraps (hsp : sp < a.length + 1) (hlen : a.length < USERTOP) :
    usub sp (a.length + 1) / 4 * 4 < 4294967296 ∧ 1040384 ≤ usub sp (a.length + 1) / 4 * 4 / PGSIZE := by
  simp only [USERTOP] at hlen
  have hw : usub sp (a.length + 1) = sp + (4294967296 - (a.length + 1)) := by
    rw [usub, Nat.mod_eq_of_lt (by omega : a.length + 1 < 4294967296)]
    exact Nat.mod_eq_of_lt (by omega)
  rw [hw]
  simp only [PGSIZE]
  omega

/-- **No piece of the argument block starts below the page from `base` on, but at or above address 0.** The pieces
    are the strings, pushed down from `sp` after `argc` others, and the frame. -/
def StaysInPage (base : Nat) : Nat → Nat → List (List UInt8) → Prop
  | sp, argc, [] => sp < 4 * (4 + argc) ∨ base + 4 * (4 + argc) ≤ sp
  | sp, argc, a :: argv => sp < argSize a ∨ (base + argSize a ≤ sp ∧ StaysInPage base (sp - argSize a) (argc + 1) argv)

instance StaysInPage.decidable (base : Nat) : ∀ sp argc argv, Decidable (StaysInPage base sp argc argv)
  | _, _, [] => inferInstanceAs (Decidable (_ ∨ _))
  | sp, argc, a :: argv =>
    have := StaysInPage.decidable base (sp - argSize a) (argc + 1) argv
    inferInstanceAs (Decidable (_ ∨ (_ ∧ _)))

/-- What is above the strings stays. -/
theorem argBytes_above (h : argsSize argv ≤ sp) (hva : sp ≤ va) : argBytes u sp argv va = u va := by
  induction argv generalizing u sp with
  | nil => rfl
  | cons a argv ih =>
    have := argSize_ge a
    rw [argsSize_cons] at h
    rw [argBytes, ih (by omega) (by omega), withBytes_out]
    rw [List.length_append, List.length_singleton]
    omega

/-- The strings lie between the new stack pointer and the old one. -/
theorem argPtrs_bounds (h : argsSize argv ≤ sp) : ∀ i < argv.length,
    sp - argsSize argv ≤ (argPtrs sp argv).getD i 0 ∧
      (argPtrs sp argv).getD i 0 + (argv.getD i []).length + 1 ≤ sp := by
  induction argv generalizing sp with
  | nil => exact fun i hi => absurd hi (Nat.not_lt_zero i)
  | cons a argv ih =>
    have := argSize_ge a
    rw [argsSize_cons] at h ⊢
    intro i hi
    cases i with
    | zero =>
      rw [argPtrs, List.getD_cons_zero, List.getD_cons_zero]
      omega
    | succ i =>
      rw [argPtrs, List.getD_cons_succ, List.getD_cons_succ]
      have hle : argsSize argv ≤ sp - argSize a := by omega
      have := ih hle i (Nat.lt_of_succ_lt_succ hi)
      omega

/-- Each string ends before the one pushed before it. -/
theorem argPtrs_apart (h : argsSize argv ≤ sp) : ∀ i j, i < j → j < argv.length →
    (argPtrs sp argv).getD j 0 + (argv.getD j []).length + 1 ≤ (argPtrs sp argv).getD i 0 := by
  induction argv generalizing sp with
  | nil => exact fun i j _ hj => absurd hj (Nat.not_lt_zero j)
  | cons a argv ih =>
    rw [argsSize_cons] at h
    intro i j hij hj
    obtain ⟨j, rfl⟩ : ∃ j', j = j' + 1 := ⟨j - 1, by omega⟩
    rw [argPtrs, List.getD_cons_succ, List.getD_cons_succ]
    cases i with
    | zero =>
      rw [List.getD_cons_zero]
      exact (argPtrs_bounds (by omega) j (Nat.lt_of_succ_lt_succ hj)).2
    | succ i =>
      rw [List.getD_cons_succ]
      exact ih (by omega) i j (Nat.lt_of_succ_lt_succ hij) (Nat.lt_of_succ_lt_succ hj)

/-- Each string is there, with its null. -/
theorem argBytes_slice (h : argsSize argv ≤ sp) : ∀ i < argv.length,
    slice (argBytes u sp argv) ((argPtrs sp argv).getD i 0) ((argv.getD i []).length + 1) = argv.getD i [] ++ [0] := by
  induction argv generalizing u sp with
  | nil => exact fun i hi => absurd hi (Nat.not_lt_zero i)
  | cons a argv ih =>
    have hsz := argSize_ge a
    rw [argsSize_cons] at h
    intro i hi
    cases i with
    | zero =>
      -- the strings pushed later are below this one
      rw [argPtrs, argBytes, List.getD_cons_zero, List.getD_cons_zero]
      have hkeep : ∀ k < a.length + 1, argBytes (withBytes u (sp - argSize a) (a ++ [0])) (sp - argSize a) argv
          (sp - argSize a + k) = withBytes u (sp - argSize a) (a ++ [0]) (sp - argSize a + k) := fun k _ =>
        argBytes_above (by omega) (Nat.le_add_right _ _)
      rw [slice_congr hkeep]
      have hwb := withBytes_slice u (sp - argSize a) (a ++ [0])
      rwa [List.length_append, List.length_singleton] at hwb
    | succ i =>
      rw [argPtrs, argBytes, List.getD_cons_succ, List.getD_cons_succ]
      exact ih (by omega) i (Nat.lt_of_succ_lt_succ hi)

/-! ## Words -/

/-- The bytes of an array of words. -/
def leBytes (ws : List Nat) : List UInt8 := ws.flatMap fun w => [byteOf w 0, byteOf w 1, byteOf w 2, byteOf w 3]

theorem leBytes_length (ws : List Nat) : (leBytes ws).length = 4 * ws.length := by
  induction ws with
  | nil => rfl
  | cons w ws ih =>
    rw [leBytes, List.flatMap_cons, List.length_append, ← leBytes, ih, List.length_cons]
    exact Nat.add_comm 4 _

theorem leBytes_getD {ws : List Nat} {k j : Nat} (hk : k < ws.length) (hj : j < 4) :
    (leBytes ws).getD (4 * k + j) 0 = byteOf (ws.getD k 0) j := by
  induction ws generalizing k with
  | nil => exact absurd hk (Nat.not_lt_zero k)
  | cons w ws ih =>
    rw [leBytes, List.flatMap_cons, ← leBytes]
    cases k with
    | zero =>
      have hcase : j = 0 ∨ j = 1 ∨ j = 2 ∨ j = 3 := by omega
      rcases hcase with rfl | rfl | rfl | rfl <;> rfl
    | succ k =>
      have hlen : ([byteOf w 0, byteOf w 1, byteOf w 2, byteOf w 3] : List UInt8).length = 4 := rfl
      rw [List.getD_append_right _ _ _ _ (by omega), hlen, List.getD_cons_succ,
        show 4 * (k + 1) + j - 4 = 4 * k + j by omega]
      exact ih (Nat.lt_of_succ_lt_succ hk)

/-- **Reading back an array of words.** -/
theorem u32_words {ws : List Nat} {k : Nat} (hk : k < ws.length) :
    u32 (withBytes u sp (leBytes ws)) (sp + 4 * k) = ws.getD k 0 % 4294967296 := by
  rw [← u32_put32 u (sp + 4 * k)]
  refine u32_congr fun i h1 h2 => ?_
  rw [withBytes_in (by omega) (by rw [leBytes_length]; omega), put32, blit_in h1 h2,
    show i - sp = 4 * k + (i - (sp + 4 * k)) by omega]
  exact leBytes_getD hk (by omega)

/-! ## The block -/

/-- **The argument block at `esp`**, in a stack page that ends at `top`: a fake return address, the number of
    strings, and a pointer `arr` to an array of pointers, the `i`-th one `ptr i` to the `i`-th string. Frame, array
    and strings follow one another upwards, the strings in reverse order. -/
structure ArgBlock (u : Arr) (esp top : Nat) (argv : List (List UInt8)) (arr : Nat) (ptr : Nat → Nat) : Prop where
  aligned : esp % 4 = 0
  ret : u32 u esp = 4294967295
  argc : u32 u (esp + 4) = argv.length
  array : u32 u (esp + 8) = arr
  ptrs : ∀ i < argv.length, u32 u (arr + 4 * i) = ptr i
  null : u32 u (arr + 4 * argv.length) = 0
  strings : ∀ i < argv.length, slice u (ptr i) ((argv.getD i []).length + 1) = argv.getD i [] ++ [0]
  low : top ≤ esp + PGSIZE
  frame_end : esp + 12 ≤ arr
  array_end : ∀ i < argv.length, arr + 4 * (argv.length + 1) ≤ ptr i
  apart : ∀ i j, i < j → j < argv.length → ptr j + (argv.getD j []).length + 1 ≤ ptr i
  high : arr + 4 * (argv.length + 1) ≤ top ∧ ∀ i < argv.length, ptr i + (argv.getD i []).length + 1 ≤ top

/-- The stack pointer of a program with arguments `argv`. -/
def argEsp (top : Nat) (argv : List (List UInt8)) : Nat := top - argsSize argv - 4 * (4 + argv.length)

/-- The stack of a program with arguments `argv`. -/
def argStack (u : Arr) (top : Nat) (argv : List (List UInt8)) : Arr :=
  withBytes (argBytes u top argv) (argEsp top argv) (ustackBytes (top - argsSize argv) (argPtrs top argv))

/-- **The bytes that `exec` copies out** are the argument block. -/
theorem argBlock {top : Nat} (h4 : top % 4 = 0) (hlt : top < 4294967296)
    (hfit : argsSize argv + 4 * (4 + argv.length) ≤ PGSIZE) (hpage : PGSIZE ≤ top) :
    ArgBlock (argStack u top argv) (argEsp top argv) top argv (argEsp top argv + 12) fun i => (argPtrs top argv).getD i 0 := by
  have hsz : argsSize argv % 4 = 0 := by
    clear hfit
    induction argv with
    | nil => rfl
    | cons a argv ih =>
      have := argSize_ge a
      rw [argsSize_cons]
      omega
  have hle : argsSize argv ≤ top := by omega
  have hend : argEsp top argv + 4 * (4 + argv.length) = top - argsSize argv := by simp only [argEsp]; omega
  have hptr := argPtrs_bounds hle
  -- the words of the frame, one by one
  have hlen := argPtrs_length top argv
  have hws : ustackBytes (top - argsSize argv) (argPtrs top argv) =
      leBytes (4294967295 :: argv.length :: usub (top - argsSize argv) ((argv.length + 1) * 4) :: (argPtrs top argv ++ [0])) := by
    rw [← hlen]
    rfl
  generalize hesp : argEsp top argv = esp at *
  have hword : ∀ k w, (4294967295 :: argv.length :: usub (top - argsSize argv) ((argv.length + 1) * 4) ::
      (argPtrs top argv ++ [0])).getD k 0 = w → k < argv.length + 4 → w < 4294967296 →
      u32 (argStack u top argv) (esp + 4 * k) = w := by
    intro k w hk hk4 hw
    rw [argStack, hws, hesp, u32_words (by simp only [List.length_cons, List.length_append, hlen, List.length_nil]; omega),
      hk, Nat.mod_eq_of_lt hw]
  have harr : usub (top - argsSize argv) ((argv.length + 1) * 4) = esp + 12 := by
    rw [usub_of_le (by omega) (by omega)]
    omega
  refine ⟨by omega, hword 0 _ rfl (by omega) (by decide), hword 1 _ rfl (by omega) (by omega),
    hword 2 _ harr (by omega) (by omega), fun i hi => ?_, ?_, fun i hi => ?_, by omega, Nat.le_refl _, fun i hi => ?_,
    argPtrs_apart hle, by omega, fun i hi => (hptr i hi).2⟩
  · have := hptr i hi
    have hget := hword (i + 3) ((argPtrs top argv).getD i 0) ?_ (by omega) (by omega)
    · rwa [show esp + 4 * (i + 3) = esp + 12 + 4 * i by omega] at hget
    · simp only [List.getD_cons_succ]
      exact List.getD_append _ _ _ _ (by omega)
  · have hget := hword (argv.length + 3) 0 ?_ (by omega) (by decide)
    · rwa [show esp + 4 * (argv.length + 3) = esp + 12 + 4 * argv.length by omega] at hget
    · simp only [List.getD_cons_succ]
      rw [List.getD_append_right _ _ _ _ (by omega), hlen, Nat.sub_self]
      rfl
  · have := hptr i hi
    rw [← argBytes_slice (u := u) hle i hi]
    refine slice_congr fun k hk => ?_
    rw [argStack, hws, hesp]
    refine withBytes_out ?_
    rw [leBytes_length]
    simp only [List.length_cons, List.length_append, hlen, List.length_nil]
    omega
  · have := hptr i hi
    omega

end Xv6
