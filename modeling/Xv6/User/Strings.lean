import Xv6.User.Grammar

/-!
# `User.Strings` — the strings of a parsed line (`user/sh.c`)

`parsecmd` leaves the words of a command where they are in the line, and `nulterminate` ends each of them with a NUL.
The byte it writes over comes right after a word, so it is white space, a symbol or the end of the line, and no word
contains such a byte: every word and file name reads back as it stood in the line.
-/

namespace Xv6

open Hoare

/-! ## Words -/

variable {p i : Nat} {r line buf : List UInt8} {ts : List Token} {sp : Span} {c : Cmd}

/-- A part of the line that is a word: its bytes may all be in words, and the one behind it may not. -/
structure IsWord (p : Nat) (line : List UInt8) (sp : Span) (pre w post : List UInt8) : Prop where
  line_eq : line = pre ++ (w ++ post)
  q_eq : sp.q = p + pre.length
  eq_eq : sp.eq = sp.q + w.length
  bytes : ∀ d ∈ w, isWordByte d = true
  behind : ∀ d ∈ post.head?, isWordByte d = false

/-- The same word, with more of the line before it. -/
theorem IsWord.append {pre w post : List UInt8} (v : List UInt8) (h : IsWord (p + v.length) r sp pre w post) :
    IsWord p (v ++ r) sp (v ++ pre) w post where
  line_eq := by rw [h.line_eq, List.append_assoc]
  q_eq := by rw [h.q_eq, List.length_append, Nat.add_assoc]
  eq_eq := h.eq_eq
  bytes := h.bytes
  behind := h.behind

theorem Tokens.isWord (h : Tokens p r ts) (hsp : ⟨.word, sp⟩ ∈ ts) : ∃ pre w post, IsWord p r sp pre w post := by
  induction h with
  | nil => exact absurd hsp List.not_mem_nil
  | @space _ c _ _ _ _ ih =>
    obtain ⟨pre, w, post, hw⟩ := ih hsp
    exact ⟨[c] ++ pre, w, post, hw.append [c]⟩
  | @symbol _ c tok _ _ hc _ ih =>
    rcases List.mem_cons.1 hsp with heq | hsp
    · have hall : ∀ x ∈ symbolToks, x.2 ≠ .word := by decide
      exact absurd (congrArg Token.tok heq).symm (hall _ (symbolTok_cases hc))
    · obtain ⟨pre, w, post, hw⟩ := ih hsp
      exact ⟨[c] ++ pre, w, post, hw.append [c]⟩
  | append _ ih =>
    rcases List.mem_cons.1 hsp with heq | hsp
    · exact nomatch heq
    · obtain ⟨pre, w, post, hw⟩ := ih hsp
      exact ⟨[62, 62] ++ pre, w, post, hw.append [62, 62]⟩
  | gt _ _ ih =>
    rcases List.mem_cons.1 hsp with heq | hsp
    · exact nomatch heq
    · obtain ⟨pre, w, post, hw⟩ := ih hsp
      exact ⟨[62] ++ pre, w, post, hw.append [62]⟩
  | @word p v r _ _ hv hr _ ih =>
    rcases List.mem_cons.1 hsp with heq | hsp
    · obtain rfl := congrArg Token.span heq
      exact ⟨[], v, r, rfl, rfl, rfl, hv, hr⟩
    · obtain ⟨pre, w, post, hw⟩ := ih hsp
      exact ⟨v ++ pre, w, post, hw.append v⟩

/-- The byte behind a word is in no word. -/
theorem IsWord.eq_outside {sp' : Span} {pre w post pre' w' post' : List UInt8} (h : IsWord 0 r sp pre w post)
    (h' : IsWord 0 r sp' pre' w' post') : ¬(sp.q ≤ sp'.eq ∧ sp'.eq < sp.eq) := by
  rintro ⟨hle, hlt⟩
  have hq := h.q_eq
  have heq := h.eq_eq
  have hq' := h'.q_eq
  have heq' := h'.eq_eq
  rw [Nat.zero_add] at hq hq'
  have hin : r[sp'.eq]? = w[sp'.eq - sp.q]? := by
    rw [h.line_eq, List.getElem?_append_right (by omega), List.getElem?_append_left (by omega), hq]
  have hbehind : r[sp'.eq]? = post'.head? := by
    rw [h'.line_eq, List.getElem?_append_right (by omega), List.getElem?_append_right (by omega), List.head?_eq_getElem?]
    congr 1
    omega
  have hget : w[sp'.eq - sp.q]? = some (w.get ⟨sp'.eq - sp.q, by omega⟩) := List.getElem?_eq_getElem _
  have hno := h'.behind _ (hbehind.symm.trans (hin.trans hget))
  exact absurd (h.bytes _ (List.get_mem _ _)) (Bool.eq_false_iff.1 hno)

/-! ## The tree -/

/-- Every `argv` string and every file name of the tree. -/
def Cmd.strings : Cmd → List Span
  | exec argv => argv
  | redir cmd file _ _ => cmd.strings ++ [file]
  | pipe left right => left.strings ++ right.strings
  | list left right => left.strings ++ right.strings
  | back cmd => cmd.strings

theorem strings_around (rs : List Redir) (c : Cmd) :
    (rs.foldl Redir.around c).strings = c.strings ++ rs.map Redir.file := by
  induction rs generalizing c with
  | nil => exact (List.append_nil _).symm
  | cons r rs ih =>
    rw [List.foldl_cons, ih, List.map_cons]
    exact List.append_assoc ..

theorem strings_back (n : Nat) (c : Cmd) : (Cmd.back^[n] c).strings = c.strings := by
  induction n generalizing c with
  | zero => rfl
  | succ n ih => exact ih (.back c)

theorem mem_tokens_of_redir {rs : List Redir} (h : sp ∈ rs.map Redir.file) : ⟨.word, sp⟩ ∈ rs.flatMap Redir.tokens := by
  obtain ⟨r, hr, rfl⟩ := List.mem_map.1 h
  exact List.mem_flatMap.2 ⟨r, hr, List.mem_cons_of_mem _ List.mem_cons_self⟩

/-- Words and file names of a simple command. -/
theorem mem_tokens_of_item {items : List ArgItem} (h : sp ∈ argWords items ++ (argRedirs items).map Redir.file) :
    ⟨.word, sp⟩ ∈ items.flatMap ArgItem.tokens := by
  rcases List.mem_append.1 h with h | h
  · obtain ⟨i, hi, hsp⟩ := List.mem_filterMap.1 h
    cases i with
    | word a =>
      obtain rfl := Option.some.inj hsp
      exact List.mem_flatMap.2 ⟨_, hi, List.mem_cons_self⟩
    | redir r => exact nomatch hsp
  · obtain ⟨r, hr, rfl⟩ := List.mem_map.1 h
    obtain ⟨i, hi, hsp⟩ := List.mem_filterMap.1 hr
    cases i with
    | word a => exact nomatch hsp
    | redir r' =>
      obtain rfl := Option.some.inj hsp
      exact List.mem_flatMap.2 ⟨_, hi, List.mem_cons_of_mem _ List.mem_cons_self⟩

/-- **All strings of a tree are words of the line.** -/
theorem Derives.mem_tokens {nt : NonTerm} (h : Derives nt ts c) (hsp : sp ∈ c.strings) : ⟨.word, sp⟩ ∈ ts := by
  induction h with
  | block rs _ ih =>
    rw [strings_around] at hsp
    rcases List.mem_append.1 hsp with hsp | hsp
    · exact List.mem_append_left _ (List.mem_cons_of_mem _ (ih hsp))
    · exact List.mem_append_right _ (List.mem_cons_of_mem _ (mem_tokens_of_redir hsp))
  | simple items _ =>
    rw [strings_around] at hsp
    exact mem_tokens_of_item hsp
  | single _ ih => exact ih hsp
  | pipe _ _ ih ih' =>
    rcases List.mem_append.1 hsp with hsp | hsp
    · exact List.mem_append_left _ (ih hsp)
    · exact List.mem_append_right _ (List.mem_cons_of_mem _ (ih' hsp))
  | last bs _ ih =>
    rw [strings_back] at hsp
    exact List.mem_append_left _ (ih hsp)
  | list bs _ _ ih ih' =>
    rcases List.mem_append.1 hsp with hsp | hsp
    · rw [strings_back] at hsp
      exact List.mem_append_left _ (List.mem_append_left _ (ih hsp))
    · exact List.mem_append_right _ (List.mem_cons_of_mem _ (ih' hsp))

/-! ## The buffer -/

/-- `nulterminate` goes through all strings of the tree, and does nothing else. -/
theorem nulterminate_eq (c : Cmd) (buf : List UInt8) :
    nulterminate c buf = c.strings.foldl (fun buf a => buf.set a.eq 0) buf := by
  induction c generalizing buf with
  | exec argv => rfl
  | redir cmd file mode fd ih => rw [nulterminate, ih, Cmd.strings, List.foldl_append]; rfl
  | pipe left right ih ih' => rw [nulterminate, ih, ih', Cmd.strings, List.foldl_append]
  | list left right ih ih' => rw [nulterminate, ih, ih', Cmd.strings, List.foldl_append]
  | back cmd ih => exact ih buf

theorem getElem?_terminate (sps : List Span) (hi : i < buf.length) :
    (sps.foldl (fun buf a => buf.set a.eq 0) buf)[i]? = if ∃ a ∈ sps, a.eq = i then some 0 else buf[i]? := by
  induction sps generalizing buf with
  | nil => rw [List.foldl_nil, if_neg fun h => by obtain ⟨a, ha, _⟩ := h; exact List.not_mem_nil ha]
  | cons sp sps ih =>
    rw [List.foldl_cons, ih (by rw [List.length_set]; exact hi), List.getElem?_set]
    by_cases hin : ∃ a ∈ sps, a.eq = i
    · obtain ⟨a, ha, hai⟩ := hin
      rw [if_pos ⟨a, ha, hai⟩, if_pos ⟨a, List.mem_cons_of_mem _ ha, hai⟩]
    · rw [if_neg hin]
      by_cases hsp : sp.eq = i
      · rw [if_pos hsp, if_pos (hsp ▸ hi), if_pos ⟨sp, List.mem_cons_self, hsp⟩]
      · rw [if_neg hsp, if_neg]
        rintro ⟨a, ha, hai⟩
        rcases List.mem_cons.1 ha with rfl | ha
        · exact hsp hai
        · exact hin ⟨a, ha, hai⟩

/-- A string is what stands before the first NUL. -/
theorem lineOf_eq {b w : List UInt8} (hw : ∀ i < w.length, b[i]? = w[i]?) (hend : b[w.length]? = some 0) (h0 : 0 ∉ w) :
    lineOf b = w := by
  induction w generalizing b with
  | nil =>
    cases b with
    | nil => exact nomatch hend
    | cons d b =>
      obtain rfl := Option.some.inj hend
      rfl
  | cons d w ih =>
    rw [List.mem_cons, not_or] at h0
    cases b with
    | nil => exact nomatch hw 0 (Nat.zero_lt_succ _)
    | cons e b =>
      obtain rfl := Option.some.inj (hw 0 (Nat.zero_lt_succ _))
      have hd : e ≠ 0 := fun h => h0.1 h.symm
      rw [lineOf, List.takeWhile_cons, if_pos (decide_eq_true hd)]
      exact congrArg (e :: ·) (ih (fun i hi => hw (i + 1) (Nat.succ_lt_succ hi)) hend h0.2)

/-- The text of a part of the line. -/
def Span.text (line : List UInt8) (sp : Span) : List UInt8 := (line.drop sp.q).take (sp.eq - sp.q)

theorem IsWord.text_eq {pre w post : List UInt8} (h : IsWord 0 line sp pre w post) : sp.text line = w := by
  rw [Span.text, h.eq_eq, h.q_eq, Nat.zero_add, Nat.add_sub_cancel_left, h.line_eq, List.drop_left, List.take_left]

/-- **Every word and file name reads back as its token stood in the line**, whatever the tree. -/
theorem parsecmd_strings (line after buf' : List UInt8) (c : Cmd) (h0 : 0 ∉ line)
    (h : parsecmd (line ++ 0 :: after) = .ok (c, buf')) :
    ∃ ts, Tokens 0 line ts ∧ ∀ sp ∈ c.strings, ⟨.word, sp⟩ ∈ ts ∧ lineOf (buf'.drop sp.q) = sp.text line := by
  obtain ⟨ts, hts⟩ := exists_tokens 0 line
  have hd := parsecmd_derives h0 h hts
  obtain rfl := (parsecmd_eq_ok.1 h).2
  refine ⟨ts, hts, fun sp hsp => ⟨hd.mem_tokens hsp, ?_⟩⟩
  obtain ⟨pre, w, post, hw⟩ := hts.isWord (hd.mem_tokens hsp)
  have hq := hw.q_eq
  have heq := hw.eq_eq
  have hlen := congrArg List.length hw.line_eq
  rw [Nat.zero_add] at hq
  rw [List.length_append, List.length_append] at hlen
  have hin {i : Nat} (hi : i ≤ w.length) : sp.q + i < (line ++ 0 :: after).length := by
    rw [List.length_append, List.length_cons]
    omega
  rw [nulterminate_eq, hw.text_eq]
  refine lineOf_eq (fun i hi => ?_) ?_ ?_
  · have hno : ¬∃ a ∈ c.strings, a.eq = sp.q + i := by
      rintro ⟨a, ha, hai⟩
      obtain ⟨pre', w', post', hw'⟩ := hts.isWord (hd.mem_tokens ha)
      exact hw.eq_outside hw' ⟨by omega, by omega⟩
    rw [List.getElem?_drop, getElem?_terminate _ (hin (Nat.le_of_lt hi)), if_neg hno, List.getElem?_append_left (by omega),
      hw.line_eq, List.getElem?_append_right (by omega), List.getElem?_append_left (by omega)]
    congr 1
    omega
  · rw [List.getElem?_drop, getElem?_terminate _ (hin (Nat.le_refl _)), if_pos ⟨sp, hsp, heq⟩]
  · intro hmem
    exact h0 (hw.line_eq ▸ List.mem_append_right _ (List.mem_append_left _ hmem))

/-- `a>b|c`, with no space anywhere: the strings are `a`, `b` and `c`. -/
theorem parsecmd_strings_tight : ∃ ts, Tokens 0 [97, 62, 98, 124, 99] ts ∧ ∀ sp ∈ [Span.mk 0 1, ⟨2, 3⟩, ⟨4, 5⟩],
    ⟨.word, sp⟩ ∈ ts ∧ lineOf ([97, 0, 98, 0, 99, 0].drop sp.q) = sp.text [97, 62, 98, 124, 99] :=
  parsecmd_strings [97, 62, 98, 124, 99] [] [97, 0, 98, 0, 99, 0]
    (.pipe (.redir (.exec [⟨0, 1⟩]) ⟨2, 3⟩ 513 1) (.exec [⟨4, 5⟩])) (by decide) (by decide +kernel)

end Xv6
