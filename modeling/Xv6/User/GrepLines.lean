import Mathlib.Data.List.DropRight
import Xv6.Lib.Hoare
import Xv6.Lib.Overwrite
import Xv6.User.Grep

/-!
# `User.GrepLines` — how `grep` cuts its input into lines (`user/grep.c`)

`grep` reads into a buffer of 1024 bytes behind a partial line it has kept, looks for newlines with `strchr`, and moves
what follows the last one to the front. The bytes read are never terminated by a NUL, so `strchr` also sees what
earlier reads have left in the buffer; and a read without any newline is thrown away. Reads and writes outside the
buffer stop the model.

`ReadsWell` says of the chunks that `read` returns when all goes well, and `grep_chunks_iff` that it is exactly then
that `grep` prints the matching lines, whatever the pattern.

## Contents
- **The loops.** `strchrFrom`, `grepLines`, `grepLoop`.
- **The scan of the buffer.** `grepLines_spec`, `grepLines_outside`.
- **One read.** `grepLoop_scan`, `grepLoop_read`.
- **The input.** `ReadsWell`, and `grepLoop_ok`: the reads that go well.
- **The empty pattern.** `grepLoop_out`, and `grepLoop_lost`: the other ones; `grep_chunks_iff`.
-/

namespace Xv6

open Hoare Overwrite

/-! ## The loops -/

/-- `buf`, what is still to be read, what has been written to standard output, and the values `m` has taken. -/
structure GrepState where
  buf : List UInt8
  input : List (List UInt8)
  out : List UInt8
  ms : List Int

/-- An access outside `buf`. -/
inductive GrepFault where
  | outside
deriving Repr, DecidableEq

abbrev GrepM := Prog GrepState GrepFault

/-- `sizeof(buf)` -/
abbrev BUFSIZE : Nat := 1024

/-- `buf[i]` -/
def getByte (i : Nat) : GrepM UInt8 := do
  match (← get).buf[i]? with
  | some c => return c
  | none => throw .outside

/-- `buf[i] = c` -/
def setByte (i : Nat) (c : UInt8) : GrepM Unit := do
  if i < (← get).buf.length then modify fun s => { s with buf := s.buf.set i c } else throw .outside

/-- `strchr(buf + p, c)`: the index of the first `c` before the next NUL. The fuel is more than the buffer is long. -/
def strchrFrom (c : UInt8) : Nat → Nat → GrepM (Option Nat)
  | 0, _ => return none
  | fuel + 1, p => do
    let x ← getByte p
    if x = 0 then return none
    else if x = c then return some p
    else strchrFrom c fuel (p + 1)

/-- The string at `buf + p`, up to its NUL. -/
def stringFrom : Nat → Nat → GrepM (List UInt8)
  | 0, _ => return []
  | fuel + 1, p => do
    let x ← getByte p
    if x = 0 then return []
    else return x :: (← stringFrom fuel (p + 1))

/-- `write(1, buf + p, n)` -/
def writeOut (p n : Nat) : GrepM Unit := do
  if p + n ≤ (← get).buf.length then modify fun s => { s with out := s.out ++ (s.buf.drop p).take n }
  else throw .outside

/-- The inner loop of `grep` from `p`: every line that `strchr` finds. Returns the last `p`. -/
def grepLines (pattern : List UInt8) : Nat → Nat → GrepM Nat
  | 0, p => return p
  | fuel + 1, p => do
    match ← strchrFrom 10 (BUFSIZE + 1) p with
    | none => return p
    | some q => do
      setByte q 0
      if grepMatch pattern (← stringFrom (BUFSIZE + 1) p) then do
        setByte q 10
        writeOut p (q + 1 - p)
      grepLines pattern fuel (q + 1)

/-- `read(fd, buf + m, sizeof(buf) - m)`: the next chunk, cut to the space there is. -/
def readInto (m : Int) : GrepM Nat := do
  match (← get).input with
  | [] => return 0
  | c :: cs => do
    let n := min c.length (BUFSIZE - m).toNat
    if n ≠ 0 ∧ m < 0 then throw .outside
    else do
      modify fun s =>
        { s with
          buf := overwrite s.buf m.toNat (c.take n)
          input := if n < c.length then c.drop n :: cs else cs }
      return n

/-- `memmove(buf, buf + p, m)`: the destination is below the source, so the copy is one of a snapshot; a negative
    `m` copies nothing. -/
def moveFront (p : Nat) (m : Int) : GrepM Unit := do
  if p + m.toNat ≤ (← get).buf.length then
    modify fun s => { s with buf := overwrite s.buf 0 ((s.buf.drop p).take m.toNat) }
  else throw .outside

def logM (m : Int) : GrepM Unit := modify fun s => { s with ms := s.ms ++ [m] }

/-- The outer loop of `grep`. -/
def grepLoop (pattern : List UInt8) : Nat → Int → GrepM Unit
  | 0, _ => return ()
  | fuel + 1, m => do
    let n ← readInto m
    if n = 0 then return ()
    else do
      let m := m + n
      logM m
      let p ← grepLines pattern (BUFSIZE + 1) 0
      -- `if(p == buf) m = 0; if(m > 0){ ... }`
      if p = 0 then do
        logM 0
        grepLoop pattern fuel 0
      else if 0 < m then do
        logM (m - p)
        moveFront p (m - p)
        grepLoop pattern fuel (m - p)
      else grepLoop pattern fuel m

/-- `grep(pattern, fd)`; each trip reads at least a byte. -/
def grep (pattern : List UInt8) : GrepM Unit := do
  grepLoop pattern ((← get).input.flatten.length + 1) 0

/-- The state before the first read. -/
def GrepState.start (chunks : List (List UInt8)) : GrepState := ⟨List.replicate BUFSIZE 0, chunks, [], []⟩

/-! ## The scan of the buffer -/

variable {pattern l r pre : List UInt8} {s : GrepState} {fuel : Nat}

/-- No NUL and no newline. -/
def Plain (l : List UInt8) : Prop := ∀ x ∈ l, x ≠ 0 ∧ x ≠ 10

instance : DecidablePred Plain := fun l => inferInstanceAs (Decidable (∀ x ∈ l, x ≠ 0 ∧ x ≠ 10))

/-- The lines, each with its newline. -/
def unlines (lines : List (List UInt8)) : List UInt8 := lines.flatMap (· ++ [10])

/-- The lines as `grep` leaves them in the buffer: the newline of a line that does not match is now a NUL. -/
def tested (pattern : List UInt8) (lines : List (List UInt8)) : List UInt8 :=
  lines.flatMap fun l => l ++ [if grepMatch pattern l then 10 else 0]

theorem Plain.of_cons {x : UInt8} (h : Plain (x :: l)) : x ≠ 0 ∧ x ≠ 10 ∧ Plain l :=
  ⟨(h x List.mem_cons_self).1, (h x List.mem_cons_self).2, fun y hy => h y (List.mem_cons_of_mem _ hy)⟩

theorem wp_getByte {x : UInt8} {Q : UInt8 → GrepState → Prop} {E : GrepFault → GrepState → Prop}
    (h : s.buf = pre ++ x :: r) : wp (getByte pre.length) Q E s ↔ Q x s := by
  have hx : s.buf[pre.length]? = some x := by rw [h, List.getElem?_append_right (Nat.le_refl _), Nat.sub_self]; rfl
  simp only [getByte, wp_bind, wp_get, hx, wp_pure]

theorem wp_getByte_end {Q : UInt8 → GrepState → Prop} {E : GrepFault → GrepState → Prop} :
    wp (getByte s.buf.length) Q E s ↔ E .outside s := by
  have hx : s.buf[s.buf.length]? = none := List.getElem?_eq_none (Nat.le_refl _)
  simp only [getByte, wp_bind, wp_get, hx, wp_throw]

theorem wp_setByte {x y : UInt8} {Q : Unit → GrepState → Prop} {E : GrepFault → GrepState → Prop}
    (h : s.buf = pre ++ x :: r) : wp (setByte pre.length y) Q E s ↔ Q () { s with buf := pre ++ y :: r } := by
  have hlt : pre.length < s.buf.length := by rw [h, List.length_append, List.length_cons]; omega
  have hset : s.buf.set pre.length y = pre ++ y :: r := by
    rw [h, List.set_append_right _ _ (Nat.le_refl _), Nat.sub_self]
    rfl
  rw [setByte, wp_bind, wp_get, if_pos hlt, wp_modify, hset]

/-- One more byte before the rest. -/
theorem append_cons_length {x : UInt8} (h : s.buf = pre ++ x :: r) :
    s.buf = (pre ++ [x]) ++ r ∧ pre.length + 1 = (pre ++ [x]).length := by
  rw [h, List.length_append]
  exact ⟨(List.append_cons pre x r), rfl⟩

/-- `strchr` goes past bytes that are neither. -/
theorem strchr_skip {Q : Option Nat → GrepState → Prop} {E : GrepFault → GrepState → Prop} (hl : Plain l)
    (h : s.buf = pre ++ (l ++ r)) :
    wp (strchrFrom 10 (l.length + fuel) pre.length) Q E s ↔ wp (strchrFrom 10 fuel (pre ++ l).length) Q E s := by
  induction l generalizing pre with
  | nil => rw [List.length_nil, Nat.zero_add, List.append_nil]
  | cons x l ih =>
    obtain ⟨h0, h10, hl'⟩ := hl.of_cons
    obtain ⟨h', hlen⟩ := append_cons_length h
    rw [List.length_cons, Nat.add_right_comm, strchrFrom, wp_bind, wp_getByte h, if_neg h0, if_neg h10, hlen, ih hl' h',
      List.append_assoc, List.singleton_append]

/-- What `strchr` finds after bytes that are neither: a newline, a NUL, or the end of the buffer. -/
theorem strchr_found {Q : Option Nat → GrepState → Prop} {E : GrepFault → GrepState → Prop} (hl : Plain l)
    (h : s.buf = pre ++ (l ++ 10 :: r)) (hf : l.length < fuel) :
    wp (strchrFrom 10 fuel pre.length) Q E s ↔ Q (some (pre ++ l).length) s := by
  obtain ⟨k, rfl⟩ := Nat.exists_eq_add_of_lt hf
  rw [Nat.add_assoc, strchr_skip hl h, strchrFrom, wp_bind, wp_getByte (h.trans (List.append_assoc ..).symm),
    if_neg (by decide), if_pos rfl, wp_pure]

theorem strchr_none {Q : Option Nat → GrepState → Prop} {E : GrepFault → GrepState → Prop} (hl : Plain l)
    (h : s.buf = pre ++ (l ++ 0 :: r)) (hf : l.length < fuel) :
    wp (strchrFrom 10 fuel pre.length) Q E s ↔ Q none s := by
  obtain ⟨k, rfl⟩ := Nat.exists_eq_add_of_lt hf
  rw [Nat.add_assoc, strchr_skip hl h, strchrFrom, wp_bind, wp_getByte (h.trans (List.append_assoc ..).symm), if_pos rfl,
    wp_pure]

theorem strchr_outside {Q : Option Nat → GrepState → Prop} {E : GrepFault → GrepState → Prop} (hl : Plain l)
    (h : s.buf = pre ++ l) (hf : l.length < fuel) :
    wp (strchrFrom 10 fuel pre.length) Q E s ↔ E .outside s := by
  obtain ⟨k, rfl⟩ := Nat.exists_eq_add_of_lt hf
  rw [Nat.add_assoc, strchr_skip hl (h.trans (by rw [List.append_nil])), strchrFrom, wp_bind, ← h, wp_getByte_end]

/-- The string up to its NUL. -/
theorem wp_stringFrom {Q : List UInt8 → GrepState → Prop} {E : GrepFault → GrepState → Prop} (hl : Plain l)
    (h : s.buf = pre ++ (l ++ 0 :: r)) (hf : l.length < fuel) :
    wp (stringFrom fuel pre.length) Q E s ↔ Q l s := by
  induction l generalizing pre fuel Q with
  | nil =>
    obtain ⟨fuel, rfl⟩ := Nat.exists_eq_succ_of_ne_zero (Nat.ne_of_gt hf)
    rw [stringFrom, wp_bind, wp_getByte h, if_pos rfl, wp_pure]
  | cons x l ih =>
    obtain ⟨fuel, rfl⟩ := Nat.exists_eq_succ_of_ne_zero (Nat.ne_zero_of_lt hf)
    obtain ⟨h0, -, hl'⟩ := hl.of_cons
    obtain ⟨h', hlen⟩ := append_cons_length h
    rw [stringFrom, wp_bind, wp_getByte h, if_neg h0, hlen, wp_bind, ih hl' h' (by rw [List.length_cons] at hf; omega),
      wp_pure]

/-- A trip of the inner loop at a line. -/
theorem grepLines_line {Q : Nat → GrepState → Prop} {E : GrepFault → GrepState → Prop} (hl : Plain l)
    (h : s.buf = pre ++ (l ++ 10 :: r)) (hlen : l.length ≤ BUFSIZE) :
    wp (grepLines pattern (fuel + 1) pre.length) Q E s ↔
      wp (grepLines pattern fuel (pre ++ l ++ [10]).length) Q E
        { s with
          buf := pre ++ (l ++ [if grepMatch pattern l then 10 else 0]) ++ r
          out := s.out ++ if grepMatch pattern l then l ++ [10] else [] } := by
  have h1 : s.buf = (pre ++ l) ++ 10 :: r := h.trans (List.append_assoc ..).symm
  have hq : (pre ++ l).length + 1 = (pre ++ l ++ [10]).length := by simp [Nat.add_assoc]
  have hn : (pre ++ l).length + 1 - pre.length = (l ++ [10]).length := by simp; omega
  rw [grepLines, wp_bind, strchr_found hl h (Nat.lt_succ_of_le hlen)]
  dsimp only
  rw [wp_bind, wp_setByte h1, wp_bind, wp_stringFrom hl (List.append_assoc ..) (Nat.lt_succ_of_le hlen)]
  have hbuf (x : UInt8) : pre ++ l ++ x :: r = pre ++ (l ++ [x]) ++ r := by simp
  by_cases hm : grepMatch pattern l = true
  · have hfit : pre.length + (l ++ [10]).length ≤ (pre ++ l ++ 10 :: r).length := by simp
    have htake : ((pre ++ l ++ 10 :: r).drop pre.length).take (l ++ [10]).length = l ++ [10] := by
      rw [hbuf, List.append_assoc, List.drop_left, List.take_left]
    rw [if_pos hm, wp_bind, wp_setByte rfl, wp_bind, writeOut, hn, wp_bind, wp_get, if_pos hfit, wp_modify, htake, hq,
      if_pos hm, if_pos hm, hbuf 10]
  · rw [if_neg hm, hq, if_neg hm, if_neg hm, List.append_nil, hbuf 0]

theorem unlines_cons (l : List UInt8) (lines : List (List UInt8)) : unlines (l :: lines) = l ++ [10] ++ unlines lines :=
  List.flatMap_cons

theorem tested_cons (pattern l : List UInt8) (lines : List (List UInt8)) : tested pattern (l :: lines) =
    l ++ [if grepMatch pattern l then 10 else 0] ++ tested pattern lines := List.flatMap_cons

theorem length_tested (pattern : List UInt8) (lines : List (List UInt8)) :
    (tested pattern lines).length = (unlines lines).length := by
  induction lines with
  | nil => rfl
  | cons l lines ih =>
    rw [unlines_cons, tested_cons, List.length_append, List.length_append, ih, List.length_append, List.length_append]
    rfl

/-- A line of the buffer and what is after it. -/
theorem buf_cons {lines : List (List UInt8)} (h : s.buf = pre ++ (unlines (l :: lines) ++ r)) :
    s.buf = pre ++ (l ++ 10 :: (unlines lines ++ r)) := by
  rw [h, unlines_cons, List.append_assoc, List.append_assoc, List.singleton_append]

theorem length_le_of_buf (hb : s.buf.length = BUFSIZE) {a b c : List UInt8} (h : s.buf = a ++ (b ++ c)) :
    b.length ≤ BUFSIZE := by
  rw [← hb, h, List.length_append, List.length_append]
  omega

/-- **The inner loop**: the lines are tested one by one, up to the first NUL. -/
theorem grepLines_spec {t : List UInt8} (lines : List (List UInt8)) (hb : s.buf.length = BUFSIZE)
    (h : s.buf = pre ++ (unlines lines ++ (t ++ 0 :: r))) (hlines : ∀ l ∈ lines, Plain l) (ht : Plain t)
    (hf : lines.length < fuel) {Q : Nat → GrepState → Prop} {E : GrepFault → GrepState → Prop} :
    wp (grepLines pattern fuel pre.length) Q E s ↔
      Q (pre ++ unlines lines).length
        { s with
          buf := pre ++ (tested pattern lines ++ (t ++ 0 :: r))
          out := s.out ++ unlines (lines.filter (grepMatch pattern)) } := by
  induction lines generalizing pre s fuel with
  | nil =>
    obtain ⟨fuel, rfl⟩ := Nat.exists_eq_succ_of_ne_zero (Nat.ne_of_gt hf)
    have h' : s.buf = pre ++ (t ++ 0 :: r) := h
    have hend : { s with buf := pre ++ (tested pattern [] ++ (t ++ 0 :: r)), out := s.out ++ unlines [] } = s := by
      rw [show tested pattern [] = [] from rfl, show unlines [] = [] from rfl, List.nil_append, List.append_nil, ← h']
    rw [grepLines, wp_bind, strchr_none ht h' (Nat.lt_succ_of_le (length_le_of_buf hb h')), List.filter_nil, hend,
      show unlines [] = [] from rfl, List.append_nil]
    exact wp_pure
  | cons l lines ih =>
    obtain ⟨fuel, rfl⟩ := Nat.exists_eq_succ_of_ne_zero (Nat.ne_zero_of_lt hf)
    have hl := hlines l List.mem_cons_self
    have h' := buf_cons h
    rw [grepLines_line hl h' (length_le_of_buf hb h')]
    have hlen : (pre ++ l ++ [10]).length = (pre ++ (l ++ [if grepMatch pattern l = true then 10 else 0])).length := by simp
    rw [hlen, ih _ rfl (fun l' hl' => hlines l' (List.mem_cons_of_mem _ hl')) (by rw [List.length_cons] at hf; omega)]
    · have hp : (pre ++ (l ++ [if grepMatch pattern l = true then 10 else 0]) ++ unlines lines).length =
          (pre ++ unlines (l :: lines)).length := by rw [unlines_cons]; simp
      have hbuf : pre ++ (l ++ [if grepMatch pattern l = true then 10 else 0]) ++
          (tested pattern lines ++ (t ++ 0 :: r)) = pre ++ (tested pattern (l :: lines) ++ (t ++ 0 :: r)) := by
        rw [tested_cons]
        simp only [List.append_assoc]
      have hout : (s.out ++ if grepMatch pattern l = true then l ++ [10] else []) ++
          unlines (lines.filter (grepMatch pattern)) = s.out ++ unlines ((l :: lines).filter (grepMatch pattern)) := by
        by_cases hm : grepMatch pattern l = true
        · rw [if_pos hm, List.filter_cons, if_pos hm, unlines_cons, List.append_assoc]
        · rw [if_neg hm, List.filter_cons, if_neg hm, List.append_nil]
      rw [hp, hbuf, hout]
    · rw [← hb, h']
      simp

/-- Without a NUL in the buffer `strchr` runs past its end. -/
theorem grepLines_outside {t : List UInt8} (lines : List (List UInt8)) (hb : s.buf.length = BUFSIZE)
    (h : s.buf = pre ++ (unlines lines ++ t)) (hlines : ∀ l ∈ lines, Plain l) (ht : Plain t) (hf : lines.length < fuel)
    {Q : Nat → GrepState → Prop} {E : GrepFault → GrepState → Prop} (hE : ∀ s', E .outside s') :
    wp (grepLines pattern fuel pre.length) Q E s := by
  induction lines generalizing pre s fuel with
  | nil =>
    obtain ⟨fuel, rfl⟩ := Nat.exists_eq_succ_of_ne_zero (Nat.ne_of_gt hf)
    have h' : s.buf = pre ++ t := h
    rw [grepLines, wp_bind, strchr_outside ht h']
    · exact hE s
    · rw [← hb, h', List.length_append]
      omega
  | cons l lines ih =>
    obtain ⟨fuel, rfl⟩ := Nat.exists_eq_succ_of_ne_zero (Nat.ne_zero_of_lt hf)
    have h' := buf_cons h
    rw [grepLines_line (hlines l List.mem_cons_self) h' (length_le_of_buf hb h')]
    have hlen : (pre ++ l ++ [10]).length = (pre ++ (l ++ [if grepMatch pattern l = true then 10 else 0])).length := by simp
    rw [hlen]
    refine ih ?_ rfl (fun l' hl' => hlines l' (List.mem_cons_of_mem _ hl')) (by rw [List.length_cons] at hf; omega)
    rw [← hb, h']
    simp

/-! ## Lines of a text -/

/-- Every text without a NUL is lines and a part of one. -/
theorem exists_lines (x : List UInt8) (h : 0 ∉ x) :
    ∃ lines t, x = unlines lines ++ t ∧ (∀ l ∈ lines, Plain l) ∧ Plain t := by
  induction x with
  | nil => exact ⟨[], [], rfl, fun l hl => absurd hl List.not_mem_nil, fun c hc => absurd hc List.not_mem_nil⟩
  | cons c x ih =>
    obtain ⟨hc, hx⟩ := not_or.1 (fun h' => h (List.mem_cons.2 h'))
    obtain ⟨lines, t, rfl, hlines, ht⟩ := ih hx
    by_cases h10 : c = 10
    · refine ⟨[] :: lines, t, by rw [h10]; rfl, fun l hl => ?_, ht⟩
      rcases List.mem_cons.1 hl with rfl | hl
      · exact fun c hc => absurd hc List.not_mem_nil
      · exact hlines l hl
    · have hcons {l : List UInt8} (hl : Plain l) : Plain (c :: l) := fun d hd => by
        rcases List.mem_cons.1 hd with rfl | hd
        · exact ⟨fun h0 => hc h0.symm, h10⟩
        · exact hl d hd
      -- the byte begins the first line, or the part when there is no line
      cases lines with
      | nil => exact ⟨[], c :: t, rfl, hlines, hcons ht⟩
      | cons l lines =>
        refine ⟨(c :: l) :: lines, t, rfl, fun l' hl' => ?_, ht⟩
        rcases List.mem_cons.1 hl' with rfl | hl'
        · exact hcons (hlines l List.mem_cons_self)
        · exact hlines l' (List.mem_cons_of_mem _ hl')

/-- The first line of a text is determined by it. -/
theorem line_unique {l l' r r' : List UInt8} (hl : Plain l) (hl' : Plain l') (h : l ++ 10 :: r = l' ++ 10 :: r') :
    l = l' ∧ r = r' := by
  induction l generalizing l' with
  | nil =>
    cases l' with
    | nil => exact ⟨rfl, (List.cons.inj h).2⟩
    | cons c l' => exact absurd (List.cons.inj h).1.symm (hl' c List.mem_cons_self).2
  | cons c l ih =>
    cases l' with
    | nil => exact absurd (List.cons.inj h).1 (hl c List.mem_cons_self).2
    | cons c' l' =>
      obtain ⟨rfl, htail⟩ := List.cons.inj h
      obtain ⟨rfl, rfl⟩ := ih hl.of_cons.2.2 hl'.of_cons.2.2 htail
      exact ⟨rfl, rfl⟩

/-- So are the lines that a part of it consists of. -/
theorem lines_unique {lines ls : List (List UInt8)} (hlines : ∀ l ∈ lines, Plain l) (hls : ∀ l ∈ ls, Plain l)
    (h : unlines lines = unlines ls ++ r) : ∃ lines', lines = ls ++ lines' ∧ unlines lines' = r := by
  induction ls generalizing lines with
  | nil => exact ⟨lines, rfl, h⟩
  | cons l ls ih =>
    rw [unlines_cons, List.append_assoc, List.append_assoc] at h
    cases lines with
    | nil => exact absurd h (List.ne_nil_of_mem (a := 10) (by simp)).symm
    | cons l' lines =>
      rw [unlines_cons, List.append_assoc] at h
      obtain ⟨rfl, htail⟩ := line_unique (hlines l' List.mem_cons_self) (hls l List.mem_cons_self) h
      obtain ⟨lines', rfl, h'⟩ := ih (fun x hx => hlines x (List.mem_cons_of_mem _ hx))
        (fun x hx => hls x (List.mem_cons_of_mem _ hx)) htail
      exact ⟨lines', rfl, h'⟩

/-- What follows the last newline. -/
def lastPart (text : List UInt8) : List UInt8 := text.rtakeWhile (· ≠ 10)

theorem Plain.not_mem (h : Plain l) : 10 ∉ l := fun h10 => (h 10 h10).2 rfl

theorem lastPart_eq {t : List UInt8} (lines : List (List UInt8)) (ht : Plain t) : lastPart (unlines lines ++ t) = t := by
  induction t using List.reverseRecOn with
  | nil =>
    cases lines using List.reverseRecOn with
    | nil => rfl
    | append_singleton lines l =>
      have h : unlines (lines ++ [l]) ++ [] = (unlines lines ++ l) ++ [10] := by simp [unlines]
      rw [h, lastPart, List.rtakeWhile_concat_neg _ _ _ (by decide)]
  | append_singleton t c ih =>
    have hc : c ≠ 10 := (ht c (by simp)).2
    have h := ih fun x hx => ht x (List.mem_append_left _ hx)
    rw [lastPart] at h ⊢
    rw [← List.append_assoc, List.rtakeWhile_concat, if_pos (decide_eq_true hc), h]

/-! ## One read -/

/-- **Reading a chunk that fits** puts it behind the part of a line that is kept. -/
theorem wp_readInto {carry a c : List UInt8} {cs : List (List UInt8)} {k : Nat} (hin : s.input = c :: cs)
    (hbuf : s.buf = carry ++ (a ++ List.replicate k 0)) (hfit : carry.length + c.length ≤ BUFSIZE)
    {Q : Nat → GrepState → Prop} {E : GrepFault → GrepState → Prop} :
    wp (readInto carry.length) Q E s ↔
      Q c.length
        { s with
          buf := carry ++ c ++ (a.drop c.length ++ List.replicate (k - (c.length - a.length)) 0)
          input := cs } := by
  have hn : min c.length (BUFSIZE - (carry.length : Int)).toNat = c.length := by omega
  have hw : overwrite s.buf carry.length c =
      carry ++ c ++ (a.drop c.length ++ List.replicate (k - (c.length - a.length)) 0) := by
    rw [overwrite, hbuf, List.take_left, ← List.drop_drop, List.drop_left, List.drop_append, List.drop_replicate]
  rw [readInto, wp_bind, wp_get, hin]
  dsimp only
  rw [hn, if_neg (by omega), wp_bind, wp_modify, wp_pure, Int.toNat_natCast, List.take_length, hw,
    if_neg (Nat.lt_irrefl _)]

theorem unlines_length_ne_zero {lines : List (List UInt8)} : (unlines lines).length ≠ 0 ↔ 10 ∈ unlines lines := by
  cases lines with
  | nil => exact iff_of_false (fun h => h rfl) List.not_mem_nil
  | cons l lines => exact iff_of_true (by rw [unlines_cons]; simp) (by rw [unlines_cons]; simp)

theorem length_lines_le (lines : List (List UInt8)) : lines.length ≤ (unlines lines).length := by
  induction lines with
  | nil => exact Nat.le_refl _
  | cons l lines ih =>
    rw [unlines_cons, List.length_append, List.length_append, List.length_cons, List.length_singleton]
    omega

/-- **One trip of the outer loop** up to the test of `p`: the lines of all that stands before the first NUL, whether it
    was just read or has been left behind. -/
theorem grepLoop_scan {carry a c t : List UInt8} {cs lines : List (List UInt8)} {k : Nat} (hb : s.buf.length = BUFSIZE)
    (hin : s.input = c :: cs) (hne : c ≠ []) (hbuf : s.buf = carry ++ (a ++ List.replicate k 0))
    (hfit : (carry ++ c).length + (a.drop c.length).length < BUFSIZE)
    (htext : carry ++ c ++ a.drop c.length = unlines lines ++ t) (hlines : ∀ l ∈ lines, Plain l) (ht : Plain t)
    {Q : Unit → GrepState → Prop} {E : GrepFault → GrepState → Prop} :
    wp (grepLoop pattern (fuel + 1) carry.length) Q E s ↔
      wp (if (unlines lines).length = 0 then do
            logM 0
            grepLoop pattern fuel 0
          else do
            logM ((carry ++ c).length - (unlines lines).length)
            moveFront (unlines lines).length ((carry ++ c).length - (unlines lines).length)
            grepLoop pattern fuel ((carry ++ c).length - (unlines lines).length)) Q E
        { buf := tested pattern lines ++ t ++ List.replicate (k - (c.length - a.length)) 0
          input := cs
          out := s.out ++ unlines (lines.filter (grepMatch pattern))
          ms := s.ms ++ [((carry ++ c).length : Int)] } := by
  generalize hk : k - (c.length - a.length) = k'
  rw [List.length_append] at hfit
  -- there is a NUL left behind the bytes in use
  have hb1 : (carry ++ c ++ (a.drop c.length ++ List.replicate k' 0)).length = BUFSIZE := by
    rw [hbuf] at hb
    simp only [List.length_append, List.length_replicate, List.length_drop] at hb hfit ⊢
    omega
  have hk' : k' ≠ 0 := by
    simp only [List.length_append, List.length_replicate] at hb1
    omega
  obtain ⟨k'', rfl⟩ := Nat.exists_eq_succ_of_ne_zero hk'
  have hscan : carry ++ c ++ (a.drop c.length ++ List.replicate (k'' + 1) 0) =
      [] ++ (unlines lines ++ (t ++ 0 :: List.replicate k'' 0)) := by
    rw [← List.append_assoc, htext, List.replicate_succ, List.append_assoc, List.nil_append]
  have hc : c.length ≠ 0 := fun h0 => hne (List.eq_nil_of_length_eq_zero h0)
  have hfuel : lines.length < BUFSIZE + 1 := by
    have hlen := congrArg List.length htext
    have := length_lines_le lines
    rw [List.length_append, List.length_append, List.length_append] at hlen
    omega
  have hm : (carry.length : Int) + c.length = (carry ++ c).length := by rw [List.length_append, Int.natCast_add]
  have hpos : (0 : Int) < (carry ++ c).length := by rw [← hm]; omega
  rw [grepLoop, wp_bind, wp_readInto hin hbuf (by omega), if_neg hc, wp_bind, logM, wp_modify, wp_bind, hk, hm,
    show (0 : Nat) = ([] : List UInt8).length from rfl, grepLines_spec lines hb1 hscan hlines ht hfuel, if_pos hpos,
    List.nil_append, List.nil_append, List.replicate_succ, ← List.append_assoc (tested pattern lines)]

/-- **One trip of the outer loop** when there is a newline in the bytes read and none left behind them: the lines are
    tested, and the part after the last one is moved to the front. -/
theorem grepLoop_read {carry a c t : List UInt8} {cs lines : List (List UInt8)} {k : Nat} (hb : s.buf.length = BUFSIZE)
    (hin : s.input = c :: cs) (hne : c ≠ []) (hbuf : s.buf = carry ++ (a ++ List.replicate k 0))
    (hfit : (carry ++ c).length + (a.drop c.length).length < BUFSIZE) (htext : carry ++ c = unlines lines ++ t)
    (hlines : ∀ l ∈ lines, Plain l) (ht : Plain t) (ha : Plain (a.drop c.length)) (hnl : 10 ∈ carry ++ c)
    {Q : Unit → GrepState → Prop} {E : GrepFault → GrepState → Prop} :
    wp (grepLoop pattern (fuel + 1) carry.length) Q E s ↔
      wp (grepLoop pattern fuel t.length) Q E
        { buf := t ++ ((tested pattern lines ++ (t ++ a.drop c.length)).drop t.length ++
            List.replicate (k - (c.length - a.length)) 0)
          input := cs
          out := s.out ++ unlines (lines.filter (grepMatch pattern))
          ms := s.ms ++ [((carry ++ c).length : Int)] ++ [(t.length : Int)] } := by
  have hpart : Plain (t ++ a.drop c.length) := fun x hx => (List.mem_append.1 hx).elim (ht x) (ha x)
  have hp : (unlines lines).length ≠ 0 := by
    rw [htext] at hnl
    exact unlines_length_ne_zero.2 ((List.mem_append.1 hnl).resolve_right ht.not_mem)
  have hm : ((carry ++ c).length : Int) - (unlines lines).length = t.length := by
    rw [htext, List.length_append]
    omega
  have hall : carry ++ c ++ a.drop c.length = unlines lines ++ (t ++ a.drop c.length) := by rw [htext, List.append_assoc]
  rw [grepLoop_scan hb hin hne hbuf hfit hall hlines hpart, if_neg hp, hm, wp_bind, logM, wp_modify, wp_bind, moveFront,
    wp_bind, wp_get, Int.toNat_natCast, ← length_tested pattern]
  generalize k - (c.length - a.length) = k'
  have hin : (tested pattern lines).length + t.length ≤
      (tested pattern lines ++ (t ++ a.drop c.length) ++ List.replicate k' 0).length := by
    simp only [List.length_append]
    omega
  have hdrop : (tested pattern lines ++ (t ++ a.drop c.length) ++ List.replicate k' 0).drop t.length =
      (tested pattern lines ++ (t ++ a.drop c.length)).drop t.length ++ List.replicate k' 0 := by
    rw [List.drop_append_of_le_length]
    simp only [List.length_append]
    omega
  rw [if_pos hin, wp_modify, overwrite]
  dsimp only
  rw [List.append_assoc (tested pattern lines), List.drop_left, List.append_assoc t, List.take_left, Nat.zero_add,
    List.take_zero, List.nil_append, ← List.append_assoc t, ← List.append_assoc (tested pattern lines), hdrop]

/-- The buffer keeps its size. -/
theorem length_read {carry a c t : List UInt8} {lines : List (List UInt8)} {k : Nat} (hb : s.buf.length = BUFSIZE)
    (hbuf : s.buf = carry ++ (a ++ List.replicate k 0))
    (hfit : (carry ++ c).length + (a.drop c.length).length < BUFSIZE) (htext : carry ++ c = unlines lines ++ t) :
    (t ++ ((tested pattern lines ++ (t ++ a.drop c.length)).drop t.length ++
      List.replicate (k - (c.length - a.length)) 0)).length = BUFSIZE := by
  have hlen := congrArg List.length htext
  rw [hbuf] at hb
  simp only [List.length_append, List.length_replicate, List.length_drop, length_tested] at hb hfit hlen ⊢
  omega

/-! ## The input -/

/-- **What `read` must return** while the part `carry` of a line is kept and `left` has been left behind it: the buffer
    is not filled, a newline comes in, and no old one is left behind the bytes read. -/
def ReadsWell : List UInt8 → List UInt8 → List (List UInt8) → Prop
  | _, _, [] => True
  | carry, left, c :: cs =>
    (carry ++ c).length + (left.drop c.length).length < BUFSIZE ∧ 10 ∈ carry ++ c ∧ 10 ∉ left.drop c.length ∧
      ReadsWell (lastPart (carry ++ c)) ((carry ++ c ++ left.drop c.length).drop (lastPart (carry ++ c)).length) cs

instance ReadsWell.decidable : ∀ carry left chunks, Decidable (ReadsWell carry left chunks)
  | _, _, [] => inferInstanceAs (Decidable True)
  | carry, left, c :: cs =>
    have := ReadsWell.decidable (lastPart (carry ++ c))
      ((carry ++ c ++ left.drop c.length).drop (lastPart (carry ++ c)).length) cs
    inferInstanceAs (Decidable (_ ∧ _ ∧ _ ∧ _))

/-- The bytes of `b`, with a NUL for some of the newlines. -/
def Blanked (a b : List UInt8) : Prop := List.Forall₂ (fun x y => x = y ∨ x = 0 ∧ y = 10) a b

theorem Blanked.refl (a : List UInt8) : Blanked a a := List.forall₂_same.2 fun _ _ => .inl rfl

theorem Blanked.append {a b a' b' : List UInt8} (h : Blanked a b) (h' : Blanked a' b') : Blanked (a ++ a') (b ++ b') :=
  List.rel_append h h'

theorem Blanked.eq {a b : List UInt8} (h : Blanked a b) (h10 : 10 ∉ b) : a = b := by
  induction h with
  | nil => rfl
  | cons hx _ ih =>
    rw [List.mem_cons, not_or] at h10
    rw [ih h10.2, hx.resolve_right fun hc => h10.1 hc.2.symm]

theorem blanked_tested (pattern : List UInt8) (lines : List (List UInt8)) :
    Blanked (tested pattern lines) (unlines lines) := by
  induction lines with
  | nil => exact .nil
  | cons l lines ih =>
    rw [tested_cons, unlines_cons]
    refine ((Blanked.refl l).append (.cons ?_ .nil)).append ih
    by_cases hm : grepMatch pattern l = true
    · exact .inl (if_pos hm)
    · exact .inr ⟨if_neg hm, rfl⟩

theorem not_mem_unlines {lines : List (List UInt8)} (h : ∀ l ∈ lines, Plain l) : 0 ∉ unlines lines := by
  intro h0
  obtain ⟨l, hl, h0⟩ := List.mem_flatMap.1 h0
  rcases List.mem_append.1 h0 with h0 | h0
  · exact (h l hl 0 h0).1 rfl
  · exact absurd h0 (by decide)

/-- **Reads that go well**: all matching lines are written, and `m` stays in the buffer. -/
theorem grepLoop_ok {carry a left : List UInt8} {chunks lines : List (List UInt8)} {k : Nat}
    (hwell : ReadsWell carry left chunks) (hblank : Blanked a left) (hb : s.buf.length = BUFSIZE)
    (hbuf : s.buf = carry ++ (a ++ List.replicate k 0)) (hin : s.input = chunks) (hne : ∀ c ∈ chunks, c ≠ [])
    (hleft : 0 ∉ left) (hlines : ∀ l ∈ lines, Plain l) (htext : unlines lines = carry ++ chunks.flatten)
    (hcarry : 10 ∉ carry) (hf : chunks.length < fuel) (hms : ∀ m ∈ s.ms, 0 ≤ m ∧ m ≤ BUFSIZE) :
    wp (grepLoop pattern fuel carry.length)
      (fun _ st => st.input = [] ∧ st.out = s.out ++ unlines (lines.filter (grepMatch pattern)) ∧
        ∀ m ∈ st.ms, 0 ≤ m ∧ m ≤ BUFSIZE) (fun _ _ => False) s := by
  induction chunks generalizing carry a left lines k s fuel with
  | nil =>
    obtain ⟨fuel, rfl⟩ := Nat.exists_eq_succ_of_ne_zero (Nat.ne_of_gt hf)
    have hnil : lines = [] := by
      cases lines with
      | nil => rfl
      | cons l lines =>
        refine absurd ?_ hcarry
        rw [List.flatten_nil, List.append_nil] at htext
        rw [← htext, unlines_cons]
        simp
    rw [grepLoop, wp_bind, readInto, wp_bind, wp_get, hin]
    exact ⟨hin, by rw [hnil]; exact (List.append_nil _).symm, hms⟩
  | cons c cs ih =>
    obtain ⟨fuel, rfl⟩ := Nat.exists_eq_succ_of_ne_zero (Nat.ne_zero_of_lt hf)
    obtain ⟨hfit, hnl, hold, hrest⟩ := hwell
    have hdrop : Blanked (a.drop c.length) (left.drop c.length) := List.forall₂_drop _ hblank
    have hsame := hdrop.eq hold
    have hpart : Plain (a.drop c.length) := fun x hx => by
      rw [hsame] at hx
      exact ⟨fun h0 => hleft (h0 ▸ List.mem_of_mem_drop hx), fun h10 => hold (h10 ▸ hx)⟩
    have h0 : 0 ∉ carry ++ c := fun h => not_mem_unlines hlines (by
      rw [htext, List.flatten_cons, ← List.append_assoc]
      exact List.mem_append_left _ h)
    obtain ⟨ls, t, hsplit, hls, ht⟩ := exists_lines (carry ++ c) h0
    obtain ⟨lines', rfl, hlines'⟩ := lines_unique hlines hls
      (htext.trans (by rw [List.flatten_cons, ← List.append_assoc, hsplit, List.append_assoc]))
    have hlast : lastPart (carry ++ c) = t := by rw [hsplit, lastPart_eq ls ht]
    rw [hlast] at hrest
    rw [grepLoop_read hb hin (hne c List.mem_cons_self) hbuf (by rw [hsame]; exact hfit) hsplit hls ht hpart hnl]
    refine wp_post (ih hrest ?_ ?_ rfl rfl (fun x hx => hne x (List.mem_cons_of_mem _ hx)) ?_
      (fun l hl => hlines l (List.mem_append_right _ hl)) hlines' ht.not_mem ?_ ?_) ?_
    · -- the lines tested have lost newlines, the part kept and what is behind it have not
      rw [hsplit, List.append_assoc (unlines ls)]
      exact List.forall₂_drop _ ((blanked_tested pattern ls).append ((Blanked.refl t).append hdrop))
    · exact length_read hb hbuf (by rw [hsame]; exact hfit) hsplit
    · intro h
      rcases List.mem_append.1 (List.mem_of_mem_drop h) with h | h
      · exact h0 h
      · exact hleft (List.mem_of_mem_drop h)
    · exact Nat.lt_of_succ_lt_succ hf
    · intro m hm
      have hlen := congrArg List.length hsplit
      rw [List.length_append] at hfit
      rw [List.length_append, List.length_append] at hlen
      rw [List.mem_append, List.mem_append, List.mem_singleton, List.mem_singleton] at hm
      rcases hm with (hm | rfl) | rfl
      · exact hms m hm
      · rw [List.length_append]
        omega
      · omega
    · rintro _ st ⟨hend, hout, hst⟩
      refine ⟨hend, ?_, hst⟩
      rw [hout, List.filter_append, unlines, unlines, unlines, List.flatMap_append, List.append_assoc]

/-! ## The empty pattern

It matches every line, so that each byte that comes in must go out again. -/

theorem grepMatch_nil (l : List UInt8) : grepMatch [] l = true := by
  cases l with
  | nil => rw [grepMatch, matchAny, matchhere]; exact fun _ h => absurd h (by simp)
  | cons c l => rw [grepMatch, matchAny, matchhere, if_pos rfl]; exact fun _ h => absurd h (by simp)

theorem tested_nil (lines : List (List UInt8)) : tested [] lines = unlines lines := by
  rw [tested, unlines]
  simp only [grepMatch_nil, if_true]

theorem filter_nil (lines : List (List UInt8)) : lines.filter (grepMatch []) = lines :=
  List.filter_eq_self.2 fun l _ => grepMatch_nil l

theorem strchr_ge (p : Nat) : wp (strchrFrom 10 fuel p) (fun q st => st = s ∧ ∀ i ∈ q, p ≤ i) (fun _ _ => True) s := by
  induction fuel generalizing p with
  | zero => exact ⟨rfl, fun i hi => nomatch hi⟩
  | succ fuel ih =>
    rw [strchrFrom, wp_bind, getByte, wp_bind, wp_get]
    cases s.buf[p]? with
    | none => trivial
    | some x =>
      rw [wp_pure]
      by_cases h0 : x = 0
      · rw [if_pos h0]
        exact ⟨rfl, fun i hi => nomatch hi⟩
      · rw [if_neg h0]
        by_cases h10 : x = 10
        · rw [if_pos h10]
          exact ⟨rfl, fun i hi => Nat.le_of_eq (Option.some.inj hi)⟩
        · rw [if_neg h10]
          exact wp_post (ih (p + 1)) fun q st h => ⟨h.1, fun i hi => Nat.le_of_succ_le (h.2 i hi)⟩

theorem stringFrom_state (p : Nat) : wp (stringFrom fuel p) (fun _ st => st = s) (fun _ _ => True) s := by
  induction fuel generalizing p with
  | zero => exact rfl
  | succ fuel ih =>
    rw [stringFrom, wp_bind, getByte, wp_bind, wp_get]
    cases s.buf[p]? with
    | none => trivial
    | some x =>
      rw [wp_pure]
      by_cases h0 : x = 0
      · rw [if_pos h0]
        exact rfl
      · rw [if_neg h0, wp_bind]
        exact wp_post (ih (p + 1)) fun _ st h => h

/-- `buf[i] = c` changes the buffer only. -/
theorem setByte_frame (i : Nat) (c : UInt8) : wp (setByte i c)
    (fun _ st => st.out = s.out ∧ st.input = s.input ∧ st.ms = s.ms) (fun _ _ => True) s := by
  rw [setByte, wp_bind, wp_get, wp_ite]
  exact ⟨fun _ => ⟨rfl, rfl, rfl⟩, fun _ => trivial⟩

theorem writeOut_length (p n : Nat) : wp (writeOut p n)
    (fun _ st => st.out.length = s.out.length + n ∧ st.input = s.input ∧ st.ms = s.ms) (fun _ _ => True) s := by
  rw [writeOut, wp_bind, wp_get, wp_ite]
  refine ⟨fun h => ⟨?_, rfl, rfl⟩, fun _ => trivial⟩
  rw [List.length_append, List.length_take, List.length_drop]
  omega

/-- What the inner loop writes is what it goes past. -/
theorem grepLines_out (p : Nat) : wp (grepLines [] fuel p)
    (fun q st => p ≤ q ∧ st.out.length = s.out.length + (q - p) ∧ st.input = s.input ∧ st.ms = s.ms)
    (fun _ _ => True) s := by
  induction fuel generalizing p s with
  | zero => exact ⟨Nat.le_refl _, by rw [Nat.sub_self]; rfl, rfl, rfl⟩
  | succ fuel ih =>
    rw [grepLines, wp_bind]
    refine wp_post (strchr_ge p) fun q st hq => ?_
    obtain ⟨rfl, hq⟩ := hq
    cases q with
    | none => exact ⟨Nat.le_refl _, by rw [Nat.sub_self]; rfl, rfl, rfl⟩
    | some q =>
      dsimp only
      rw [wp_bind]
      refine wp_post (setByte_frame q 0) fun _ s1 h1 => ?_
      rw [wp_bind]
      refine wp_post (stringFrom_state p) fun l s2 h2 => ?_
      rw [grepMatch_nil, if_pos rfl, wp_bind]
      refine wp_post (setByte_frame q 10) fun _ s3 h3 => ?_
      rw [wp_bind]
      refine wp_post (writeOut_length p (q + 1 - p)) fun _ s4 h4 => ?_
      refine wp_post (ih (q + 1)) fun q' st' h5 => ?_
      have hpq := hq q rfl
      rw [h4.1, h3.1, h2, h1.1] at h5
      refine ⟨by omega, by omega, ?_, ?_⟩
      · rw [h5.2.2.1, h4.2.1, h3.2.1, h2, h1.2.1]
      · rw [h5.2.2.2, h4.2.2, h3.2.2, h2, h1.2.2]

/-- `read` takes from the input what it returns. -/
theorem readInto_length (m : Int) : wp (readInto m)
    (fun n st => st.input.flatten.length + n = s.input.flatten.length ∧ st.out = s.out ∧ st.ms = s.ms)
    (fun _ _ => True) s := by
  rw [readInto, wp_bind, wp_get]
  cases hin : s.input with
  | nil => exact ⟨by rw [hin]; rfl, rfl, rfl⟩
  | cons c cs =>
    dsimp only
    generalize hn : min c.length (BUFSIZE - m).toNat = n
    have hle : n ≤ c.length := by omega
    rw [wp_ite]
    refine ⟨fun _ => trivial, fun _ => ⟨?_, rfl, rfl⟩⟩
    dsimp only
    by_cases hlt : n < c.length
    · rw [if_pos hlt, List.flatten_cons, List.flatten_cons, List.length_append, List.length_append, List.length_drop]
      omega
    · rw [if_neg hlt, List.flatten_cons, List.length_append]
      omega

theorem moveFront_frame (p : Nat) (m : Int) : wp (moveFront p m)
    (fun _ st => st.out = s.out ∧ st.input = s.input ∧ st.ms = s.ms) (fun _ _ => True) s := by
  rw [moveFront, wp_bind, wp_get, wp_ite]
  exact ⟨fun _ => ⟨rfl, rfl, rfl⟩, fun _ => trivial⟩

/-- **What goes out is never more than what came in**, as long as `m` is not negative; and the values of `m` stay on
    record. -/
theorem grepLoop_out (m : Int) : wp (grepLoop [] fuel m)
    (fun _ st => s.ms ⊆ st.ms ∧ (0 ≤ m → (∀ x ∈ st.ms, 0 ≤ x) →
      (st.out.length : Int) ≤ s.out.length + m + s.input.flatten.length)) (fun _ _ => True) s := by
  induction fuel generalizing m s with
  | zero => exact ⟨fun _ h => h, fun _ _ => by omega⟩
  | succ fuel ih =>
    rw [grepLoop, wp_bind]
    refine wp_post (readInto_length m) fun n s1 ⟨hin, hout, hms⟩ => ?_
    rw [wp_ite]
    refine ⟨fun h0 => ⟨by rw [hms]; exact fun _ h => h, fun _ _ => by rw [hout]; omega⟩, fun h0 => ?_⟩
    rw [wp_bind, logM, wp_modify, wp_bind]
    refine wp_post (grepLines_out 0) fun p s2 ⟨_, hout2, hin2, hms2⟩ => ?_
    have hkept : s.ms ⊆ s2.ms := by
      rw [hms2, ← hms]
      exact List.subset_append_left _ _
    dsimp only at hout2 hin2
    rw [hout] at hout2
    rw [wp_ite]
    refine ⟨fun hp => ?_, fun hp => ?_⟩
    · rw [wp_bind, logM, wp_modify]
      refine wp_post (ih 0) fun _ st ⟨hsub, hle⟩ => ?_
      refine ⟨fun x hx => hsub (List.mem_append_left _ (hkept hx)), fun hm hall => ?_⟩
      have := hle (Int.le_refl 0) hall
      dsimp only at this
      rw [hin2] at this
      omega
    · rw [wp_ite]
      refine ⟨fun hm => ?_, fun hm => wp_post (ih (m + n)) fun _ st ⟨hsub, _⟩ =>
        ⟨fun x hx => hsub (hkept hx), fun hm' => absurd (show 0 < m + n by omega) hm⟩⟩
      rw [wp_bind, logM, wp_modify, wp_bind]
      refine wp_post (moveFront_frame p (m + n - p)) fun _ s3 ⟨hout3, hin3, hms3⟩ => ?_
      refine wp_post (ih (m + n - p)) fun _ st ⟨hsub, hle⟩ => ?_
      rw [hms3] at hsub
      refine ⟨fun x hx => hsub (List.mem_append_left _ (hkept hx)), fun hm' hall => ?_⟩
      have := hle (hall _ (hsub (List.mem_append_right _ (List.mem_singleton_self _)))) hall
      rw [hout3, hin3] at this
      dsimp only at this
      rw [hin2] at this
      omega

/-- A read that fills the buffer: no NUL stops `strchr`. -/
theorem grepLoop_full {carry left c : List UInt8} {cs : List (List UInt8)} {k : Nat} (hb : s.buf.length = BUFSIZE)
    (hin : s.input = c :: cs) (hbuf : s.buf = carry ++ (left ++ List.replicate k 0))
    (h0 : 0 ∉ carry ++ c) (hsmall : carry.length < BUFSIZE) (hfull : BUFSIZE ≤ carry.length + c.length)
    {Q : Unit → GrepState → Prop} : wp (grepLoop pattern (fuel + 1) carry.length) Q (fun _ _ => True) s := by
  have hn : min c.length (BUFSIZE - (carry.length : Int)).toNat = BUFSIZE - carry.length := by omega
  have hw : overwrite s.buf carry.length (c.take (BUFSIZE - carry.length)) = carry ++ c.take (BUFSIZE - carry.length) := by
    have htake : (c.take (BUFSIZE - carry.length)).length = BUFSIZE - carry.length := by
      rw [List.length_take]
      omega
    rw [overwrite, htake, List.drop_eq_nil_of_le (by omega), List.append_nil, hbuf, List.take_left]
  have hlen : (carry ++ c.take (BUFSIZE - carry.length)).length = BUFSIZE := by
    rw [List.length_append, List.length_take]
    omega
  have h0' : 0 ∉ carry ++ c.take (BUFSIZE - carry.length) := fun h => h0 <| by
    rcases List.mem_append.1 h with h | h
    · exact List.mem_append_left _ h
    · exact List.mem_append_right _ (List.mem_of_mem_take h)
  obtain ⟨ls, t, hsplit, hls, ht⟩ := exists_lines _ h0'
  have hfuel : ls.length < BUFSIZE + 1 := by
    have hlines := length_lines_le ls
    rw [hsplit, List.length_append] at hlen
    omega
  rw [grepLoop, wp_bind, readInto, wp_bind, wp_get, hin]
  dsimp only
  rw [hn, if_neg (by omega), wp_bind, wp_modify, wp_pure, if_neg (by omega), wp_bind, logM, wp_modify, wp_bind,
    Int.toNat_natCast, hw]
  change wp (grepLines pattern (BUFSIZE + 1) ([] : List UInt8).length) _ _ _
  exact grepLines_outside ls hlen hsplit hls ht hfuel fun _ => trivial

/-- An old newline behind the bytes read takes the inner loop past them. -/
theorem length_lt_of_old {text left t : List UInt8} {ls : List (List UInt8)} (h : text ++ left = unlines ls ++ t)
    (ht : Plain t) (h10 : 10 ∈ left) : text.length < (unlines ls).length := by
  by_contra hle
  refine ht.not_mem ?_
  have hdrop := congrArg (List.drop (unlines ls).length) h
  rw [List.drop_left, List.drop_append_of_le_length (by omega)] at hdrop
  rw [← hdrop]
  exact List.mem_append_right _ h10

/-- **Reads that do not go well** with the empty pattern: an access outside the buffer, a negative `m`, or less written
    than was read. -/
theorem grepLoop_lost {carry left : List UInt8} {chunks : List (List UInt8)} {k : Nat}
    (hbad : ¬ReadsWell carry left chunks) (hb : s.buf.length = BUFSIZE)
    (hbuf : s.buf = carry ++ (left ++ List.replicate k 0)) (hin : s.input = chunks) (hne : ∀ c ∈ chunks, c ≠ [])
    (hcarry : 0 ∉ carry) (hleft : 0 ∉ left) (hchunks : 0 ∉ chunks.flatten)
    (hsmall : carry.length + left.length < BUFSIZE) (hf : chunks.length < fuel) :
    wp (grepLoop [] fuel carry.length)
      (fun _ st => (∀ x ∈ st.ms, 0 ≤ x) → st.out.length < s.out.length + carry.length + chunks.flatten.length)
      (fun _ _ => True) s := by
  induction chunks generalizing carry left k s fuel with
  | nil => exact absurd trivial hbad
  | cons c cs ih =>
    obtain ⟨fuel, rfl⟩ := Nat.exists_eq_succ_of_ne_zero (Nat.ne_zero_of_lt hf)
    have hc : c.length ≠ 0 := fun h => hne c List.mem_cons_self (List.eq_nil_of_length_eq_zero h)
    rw [List.flatten_cons, List.mem_append, not_or] at hchunks
    have htext : 0 ∉ carry ++ c := fun h => (List.mem_append.1 h).elim hcarry hchunks.1
    by_cases hfull : BUFSIZE ≤ carry.length + c.length
    · exact grepLoop_full hb hin hbuf htext (by omega) hfull
    have hfit : (carry ++ c).length + (left.drop c.length).length < BUFSIZE := by
      rw [List.length_append, List.length_drop]
      omega
    have hold0 : 0 ∉ left.drop c.length := fun h => hleft (List.mem_of_mem_drop h)
    by_cases hgood : 10 ∈ carry ++ c ∧ 10 ∉ left.drop c.length
    · have hplain : Plain (left.drop c.length) := fun x hx => ⟨fun h => hold0 (h ▸ hx), fun h => hgood.2 (h ▸ hx)⟩
      obtain ⟨ls, t, hsplit, hls, ht⟩ := exists_lines (carry ++ c) htext
      have hlast : lastPart (carry ++ c) = t := by rw [hsplit, lastPart_eq ls ht]
      have hrest : ¬ReadsWell t ((carry ++ c ++ left.drop c.length).drop t.length) cs := fun h =>
        hbad ⟨hfit, hgood.1, hgood.2, by rw [hlast]; exact h⟩
      have hlen := congrArg List.length hsplit
      rw [List.length_append, List.length_append] at hlen
      rw [grepLoop_read hb hin (hne c List.mem_cons_self) hbuf hfit hsplit hls ht hplain hgood.1]
      have hbuf' : tested [] ls ++ (t ++ left.drop c.length) = carry ++ c ++ left.drop c.length := by
        rw [tested_nil, hsplit, List.append_assoc]
      rw [hbuf']
      refine wp_post (ih hrest ?_ rfl rfl (fun x hx => hne x (List.mem_cons_of_mem _ hx)) ?_ ?_ hchunks.2 ?_
        (Nat.lt_of_succ_lt_succ hf)) fun _ st hst hall => ?_
      · rw [← hbuf']
        exact length_read hb hbuf hfit hsplit
      · exact fun h => (ht 0 h).1 rfl
      · intro h
        exact (List.mem_append.1 (List.mem_of_mem_drop h)).elim htext hold0
      · rw [List.length_append] at hfit
        rw [List.length_drop, List.length_append, List.length_append]
        omega
      · have hlt := hst hall
        dsimp only at hlt
        rw [filter_nil, List.length_append] at hlt
        rw [List.flatten_cons, List.length_append]
        omega
    · have hall0 : 0 ∉ carry ++ c ++ left.drop c.length := fun h => (List.mem_append.1 h).elim htext hold0
      obtain ⟨ls, t, hsplit, hls, ht⟩ := exists_lines _ hall0
      rw [grepLoop_scan hb hin (hne c List.mem_cons_self) hbuf hfit hsplit hls ht, wp_ite]
      refine ⟨fun hp => ?_, fun hp => ?_⟩
      · -- no newline at all: the bytes are thrown away
        rw [wp_bind, logM, wp_modify]
        refine wp_post (grepLoop_out 0) fun _ st ⟨_, hle⟩ hall => ?_
        have hlt := hle (Int.le_refl 0) hall
        dsimp only at hlt
        rw [filter_nil, List.length_append, hp] at hlt
        rw [List.flatten_cons, List.length_append]
        omega
      · -- the newlines found reach behind the bytes read
        have h10 : 10 ∈ left.drop c.length := by
          by_contra hno
          have hnl : 10 ∈ carry ++ c ++ left.drop c.length := by
            rw [hsplit]
            exact List.mem_append_left _ (unlines_length_ne_zero.1 hp)
          exact hgood ⟨(List.mem_append.1 hnl).resolve_right hno, hno⟩
        have hneg := length_lt_of_old hsplit ht h10
        rw [wp_bind, logM, wp_modify, wp_bind]
        refine wp_post (moveFront_frame _ _) fun _ s3 ⟨_, _, hms⟩ => ?_
        refine wp_post (grepLoop_out _) fun _ st ⟨hsub, _⟩ hall => ?_
        rw [hms] at hsub
        have := hall _ (hsub (List.mem_append_right _ (List.mem_singleton_self _)))
        omega

/-- **`grep` does what it is for** on these chunks: it ends with the input read, has written the matching lines, and
    `m` was always within the buffer. -/
def GrepOk (pattern : List UInt8) (lines chunks : List (List UInt8)) : Prop :=
  ∃ st, exec (grep pattern) (.start chunks) = (.ok (), st) ∧ st.input = [] ∧
    st.out = unlines (lines.filter (grepMatch pattern)) ∧ ∀ m ∈ st.ms, 0 ≤ m ∧ m ≤ BUFSIZE

theorem length_chunks_le {chunks : List (List UInt8)} (hne : ∀ c ∈ chunks, c ≠ []) :
    chunks.length < chunks.flatten.length + 1 := by
  induction chunks with
  | nil => exact Nat.zero_lt_one
  | cons c cs ih =>
    have hc := List.length_pos_of_ne_nil (hne c List.mem_cons_self)
    have hcs := ih fun x hx => hne x (List.mem_cons_of_mem _ hx)
    rw [List.length_cons, List.flatten_cons, List.length_append]
    omega

theorem GrepState.buf_start (chunks : List (List UInt8)) :
    (start chunks).buf = [] ++ ([] ++ List.replicate BUFSIZE 0) := rfl

theorem GrepState.length_start (chunks : List (List UInt8)) : (start chunks).buf.length = BUFSIZE :=
  List.length_replicate

theorem wp_grep {Q : Unit → GrepState → Prop} {E : GrepFault → GrepState → Prop} :
    wp (grep pattern) Q E s ↔ wp (grepLoop pattern (s.input.flatten.length + 1) ([] : List UInt8).length) Q E s := by
  rw [grep, wp_bind, wp_get]
  exact Iff.rfl

/-- The empty pattern finds every way of cutting the input that goes wrong. -/
theorem GrepOk.readsWell {lines chunks : List (List UInt8)} (hlines : ∀ l ∈ lines, Plain l)
    (hne : ∀ c ∈ chunks, c ≠ []) (htext : chunks.flatten = unlines lines) (hok : GrepOk [] lines chunks) :
    ReadsWell [] [] chunks := by
  by_contra hbad
  obtain ⟨st, hexec, -, hout, hms⟩ := hok
  have h0 : 0 ∉ chunks.flatten := by
    rw [htext]
    exact not_mem_unlines hlines
  have hlost : wp (grepLoop [] ((GrepState.start chunks).input.flatten.length + 1) ([] : List UInt8).length) _ _
      (.start chunks) :=
    grepLoop_lost hbad (GrepState.length_start chunks) (GrepState.buf_start chunks) rfl hne List.not_mem_nil
      List.not_mem_nil h0 (by decide) (length_chunks_le hne)
  have hlt := wp_ok (wp_grep.2 hlost) hexec fun m hm => (hms m hm).1
  rw [hout, filter_nil, htext] at hlt
  exact absurd hlt (by rw [GrepState.start]; simp)

/-- **Which ways of cutting the input into reads `grep` copes with**: for every pattern, exactly those that
    `ReadsWell` allows. -/
theorem grep_chunks_iff (lines chunks : List (List UInt8)) (hlines : ∀ l ∈ lines, Plain l) (hne : ∀ c ∈ chunks, c ≠ [])
    (htext : chunks.flatten = unlines lines) :
    (∀ pattern, GrepOk pattern lines chunks) ↔ ReadsWell [] [] chunks := by
  refine ⟨fun hok => (hok []).readsWell hlines hne htext, fun hwell pattern => ?_⟩
  have hok : wp (grepLoop pattern ((GrepState.start chunks).input.flatten.length + 1) ([] : List UInt8).length) _ _
      (.start chunks) :=
    grepLoop_ok hwell (.refl []) (GrepState.length_start chunks) (GrepState.buf_start chunks) rfl hne List.not_mem_nil
      hlines htext.symm List.not_mem_nil (length_chunks_le hne) fun m hm => absurd hm List.not_mem_nil
  obtain ⟨⟨⟩, st, hexec, hend, hout, hms⟩ := wp_total (wp_grep.2 hok)
  exact ⟨st, hexec, hend, hout, hms⟩

/-- A read that ends inside a line, after the newline of the one before. -/
theorem grep_chunks_line : GrepOk [98] [[97], [98, 99]] [[97, 10, 98], [99, 10]] :=
  (grep_chunks_iff [[97], [98, 99]] [[97, 10, 98], [99, 10]] (by decide +kernel) (by decide) rfl).2 (by decide) [98]

/-- A short read: `ab` comes in without the rest of its line and is forgotten. -/
theorem grep_chunks_short : Plain [97, 98, 99] ∧ [[97, 98], [99, 10]].flatten = unlines [[97, 98, 99]] ∧
    ¬∀ pattern, GrepOk pattern [[97, 98, 99]] [[97, 98], [99, 10]] := by
  refine ⟨by decide +kernel, by decide, fun hok => ?_⟩
  have hbad : ¬ReadsWell [] [] [[97, 98], [99, 10]] := by decide
  exact hbad (GrepOk.readsWell (by decide +kernel) (by decide) (by decide) (hok []))

end Xv6
