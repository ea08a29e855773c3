import Mathlib.Logic.Function.Iterate
import Xv6.User.Parse

/-!
# `User.Grammar` — the shell's parser accepts its grammar (`user/sh.c`)

`Derives` is the grammar of command lines over tokens, with the tree of each derivation:

    line -> pipe '&'* [';' line]
    pipe -> exec ['|' pipe]
    exec -> '(' line ')' redir* | redir* (word redir*)*
    redir -> ('<' | '>' | '>>') word

An `exec` without parentheses is any sequence of words and redirections. Each routine of the parser is shown to be
sound (what it goes past derives from its nonterminal, and it never runs out of steps) and complete (what derives from
the nonterminal is gone past, when a token follows that can follow there).

## Contents
- **The grammar.** `Redir`, `ArgItem`, `Derives`.
- **The loops.** `redirLoop_sound`, `argLoop_sound`, `backLoop_sound`, and their converses.
- **The routines.** `parse_sound`, `parse_complete`.
- **Lines.** `parsecmd_iff`.
-/

namespace Xv6

open Hoare

/-! ## The grammar -/

inductive RedirOp where
  | lt
  | gt
  | append
deriving Repr, DecidableEq

def RedirOp.tok : RedirOp → Tok
  | lt => .lt
  | gt => .gt
  | append => .append

/-- `<` opens for reading, `>` and `>>` for writing. -/
def RedirOp.mode : RedirOp → Nat
  | lt => O_RDONLY
  | gt => O_WRONLY ||| O_CREATE
  | append => O_WRONLY ||| O_CREATE

def RedirOp.fd : RedirOp → Nat
  | lt => 0
  | gt => 1
  | append => 1

/-- A redirection: its operator, where that is, and the file name. -/
structure Redir where
  op : RedirOp
  opSpan : Span
  file : Span
deriving Repr, DecidableEq

def Redir.tokens (r : Redir) : List Token := [⟨r.op.tok, r.opSpan⟩, ⟨.word, r.file⟩]

/-- The redirection goes around the command. -/
def Redir.around (c : Cmd) (r : Redir) : Cmd := .redir c r.file r.op.mode r.op.fd

/-- What a simple command is made of. -/
inductive ArgItem where
  | word (a : Span)
  | redir (r : Redir)
deriving Repr, DecidableEq

def ArgItem.tokens : ArgItem → List Token
  | word a => [⟨.word, a⟩]
  | redir r => r.tokens

/-- The words of a simple command, in order. -/
def argWords (items : List ArgItem) : List Span := items.filterMap fun | .word a => some a | .redir _ => none

/-- Its redirections, in order. -/
def argRedirs (items : List ArgItem) : List Redir := items.filterMap fun | .word _ => none | .redir r => some r

inductive NonTerm where
  | line
  | pipe
  | exec
deriving Repr, DecidableEq

/-- **The grammar**, with the tree of each derivation: later redirections are outermost, each `&` puts the command into
    the background, `|` and `;` nest to the right. -/
inductive Derives : NonTerm → List Token → Cmd → Prop
  | block {lp rp : Span} {ts : List Token} {c : Cmd} (rs : List Redir) : Derives .line ts c →
      Derives .exec (⟨.lpar, lp⟩ :: ts ++ ⟨.rpar, rp⟩ :: rs.flatMap Redir.tokens) (rs.foldl Redir.around c)
  | simple (items : List ArgItem) : (argWords items).length < MAXARGS →
      Derives .exec (items.flatMap ArgItem.tokens) ((argRedirs items).foldl Redir.around (.exec (argWords items)))
  | single {ts : List Token} {c : Cmd} : Derives .exec ts c → Derives .pipe ts c
  | pipe {sp : Span} {ts ts' : List Token} {c c' : Cmd} : Derives .exec ts c → Derives .pipe ts' c' →
      Derives .pipe (ts ++ ⟨.pipe, sp⟩ :: ts') (.pipe c c')
  | last {ts : List Token} {c : Cmd} (bs : List Span) : Derives .pipe ts c →
      Derives .line (ts ++ bs.map (Token.mk .back)) (Cmd.back^[bs.length] c)
  | list {sp : Span} {ts ts' : List Token} {c c' : Cmd} (bs : List Span) : Derives .pipe ts c → Derives .line ts' c' →
      Derives .line (ts ++ bs.map (Token.mk .back) ++ ⟨.semi, sp⟩ :: ts') (.list (Cmd.back^[bs.length] c) c')

/-! ## The loops -/

variable {s : Scan} {ts : List Token} {fuel argc : Nat} {cmd : Cmd}

/-- `peek` for one symbol other than `<` and `>`. -/
theorem peekTok_symbol (tok : Tok) (htok : tok ∈ [Tok.pipe, .lpar, .rpar, .semi, .back]) :
    peekTok [tok.first] ts = true ↔ ∃ sp ts', ts = ⟨tok, sp⟩ :: ts' := by
  constructor
  · intro h
    cases ts with
    | nil => exact nomatch h
    | cons t ts' =>
      obtain ⟨tok', sp⟩ := t
      have hfirst : tok'.first = tok.first := by
        rw [peekTok, List.contains_iff_mem, List.mem_singleton] at h
        exact h
      have hsame : tok' = tok := by
        revert hfirst htok
        cases tok <;> cases tok' <;> decide
      exact ⟨sp, ts', by rw [hsame]⟩
  · rintro ⟨sp, ts', rfl⟩
    rw [peekTok, List.contains_iff_mem, List.mem_singleton]

/-- `peek(ps, es, "<>")` -/
theorem peekTok_redir : peekTok [60, 62] ts = true ↔ ∃ (op : RedirOp) (sp : Span) (ts' : List Token),
    ts = ⟨op.tok, sp⟩ :: ts' := by
  constructor
  · intro h
    cases ts with
    | nil => exact nomatch h
    | cons t ts' =>
      obtain ⟨tok, sp⟩ := t
      cases tok with
      | lt => exact ⟨.lt, sp, ts', rfl⟩
      | gt => exact ⟨.gt, sp, ts', rfl⟩
      | append => exact ⟨.append, sp, ts', rfl⟩
      | _ => exact absurd h Bool.false_ne_true
  · rintro ⟨op, sp, ts', rfl⟩
    cases op with
    | lt => rfl
    | gt => rfl
    | append => rfl

/-- **Redirections**: a trip of the loop at one. -/
theorem wp_redirLoop_redir {Q : Cmd → Scan → Prop} {E : ParseStop → Scan → Prop} (r : Redir)
    (h : s.Ahead (r.tokens ++ ts)) (hQ : ∀ s' : Scan, s'.Ahead ts → wp (redirLoop fuel (r.around cmd)) Q E s') :
    wp (redirLoop (fuel + 1) cmd) Q E s := by
  have hpeek : peekTok [60, 62] (r.tokens ++ ts) = true := peekTok_redir.2 ⟨r.op, r.opSpan, _, rfl⟩
  rw [redirLoop, wp_bind]
  refine wp_peek h (by decide) fun s1 h1 => ?_
  rw [if_pos hpeek, wp_bind]
  refine wp_gettoken_cons h1 fun s2 h2 => ?_
  rw [wp_bind]
  refine wp_gettoken_cons h2 fun s3 h3 => ?_
  have hQ3 := hQ s3 h3
  obtain ⟨op, opSpan, file⟩ := r
  cases op with
  | lt => exact hQ3
  | gt => exact hQ3
  | append => exact hQ3

/-- No redirection comes next. -/
theorem wp_redirLoop_end {Q : Cmd → Scan → Prop} {E : ParseStop → Scan → Prop} (h : s.Ahead ts)
    (hts : peekTok [60, 62] ts = false) (hQ : ∀ s' : Scan, s'.Ahead ts → Q cmd s') : wp (redirLoop (fuel + 1) cmd) Q E s := by
  rw [redirLoop, wp_bind]
  refine wp_peek h (by decide) fun s1 h1 => ?_
  rw [hts]
  exact hQ s1 h1

/-- `<` or `>` without a word after it. -/
theorem wp_redirLoop_missing {Q : Cmd → Scan → Prop} {E : ParseStop → Scan → Prop} {op : RedirOp} {sp : Span}
    (h : s.Ahead (⟨op.tok, sp⟩ :: ts)) (hts : ∀ t ∈ ts.head?, t.tok ≠ .word) (hE : ∀ s', E .missingFile s') :
    wp (redirLoop (fuel + 1) cmd) Q E s := by
  rw [redirLoop, wp_bind]
  refine wp_peek h (by decide) fun s1 h1 => ?_
  rw [if_pos (peekTok_redir.2 ⟨op, sp, _, rfl⟩), wp_bind]
  refine wp_gettoken_cons h1 fun s2 h2 => ?_
  rw [wp_bind]
  cases ts with
  | nil => exact wp_gettoken_nil h2 fun sp' s3 _ => hE s3
  | cons t ts =>
    refine wp_gettoken_cons h2 fun s3 _ => ?_
    dsimp only
    rw [if_pos (hts t rfl)]
    exact hE s3

/-- **The loop of `parseredirs` is sound.** -/
theorem redirLoop_sound (h : s.Ahead ts) (hf : ts.length < fuel) :
    wp (redirLoop fuel cmd)
      (fun c s' => ∃ (rs : List Redir) (ts' : List Token), ts = rs.flatMap Redir.tokens ++ ts' ∧
        c = rs.foldl Redir.around cmd ∧ s'.Ahead ts')
      (fun e _ => e ≠ .fuel) s := by
  induction fuel generalizing cmd s ts with
  | zero => exact absurd hf (Nat.not_lt_zero _)
  | succ fuel ih =>
    by_cases hpeek : peekTok [60, 62] ts = true
    · obtain ⟨op, sp, ts', rfl⟩ := peekTok_redir.1 hpeek
      by_cases hword : ∃ t ∈ ts'.head?, t.tok = .word
      · obtain ⟨⟨tok, file⟩, ht, rfl⟩ := hword
        obtain ⟨ts'', rfl⟩ := List.head?_eq_some_iff.1 ht
        refine wp_redirLoop_redir ⟨op, sp, file⟩ h fun s' h' => ?_
        refine wp_post (ih h' (by rw [List.length_cons, List.length_cons] at hf; omega)) ?_
        rintro c s'' ⟨rs, rest, rfl, rfl, h''⟩
        exact ⟨⟨op, sp, file⟩ :: rs, rest, rfl, rfl, h''⟩
      · exact wp_redirLoop_missing h (fun t ht htok => hword ⟨t, ht, htok⟩) fun _ => by decide
    · exact wp_redirLoop_end h (Bool.eq_false_iff.2 hpeek) fun s' h' => ⟨[], ts, rfl, rfl, h'⟩

/-- `parseredirs` takes all redirections there are. -/
theorem parseredirs_sound (h : s.Ahead ts) :
    wp (parseredirs cmd)
      (fun c s' => ∃ (rs : List Redir) (ts' : List Token), ts = rs.flatMap Redir.tokens ++ ts' ∧
        c = rs.foldl Redir.around cmd ∧ s'.Ahead ts')
      (fun e _ => e ≠ .fuel) s := by
  rw [parseredirs, wp_bind, wp_get]
  exact redirLoop_sound h (Nat.lt_succ_of_le h.length_le)

/-- The effect of an item on the command under construction. -/
def ArgItem.onto (c : Cmd) : ArgItem → Cmd
  | word a => c.addArg a
  | redir r => r.around c

theorem addArg_around (rs : List Redir) (c : Cmd) (a : Span) :
    (rs.foldl Redir.around c).addArg a = rs.foldl Redir.around (c.addArg a) := by
  induction rs generalizing c with
  | nil => rfl
  | cons r rs ih => exact ih (r.around c)

/-- **The tree of a simple command**: words are added below the redirections, redirections around. -/
theorem foldl_onto (items : List ArgItem) (rs : List Redir) (argv : List Span) :
    items.foldl ArgItem.onto (rs.foldl Redir.around (.exec argv)) =
      (rs ++ argRedirs items).foldl Redir.around (.exec (argv ++ argWords items)) := by
  induction items generalizing rs argv with
  | nil => rw [argRedirs, argWords, List.filterMap_nil, List.filterMap_nil, List.append_nil, List.append_nil]; rfl
  | cons i items ih =>
    cases i with
    | word a =>
      rw [List.foldl_cons, ArgItem.onto, addArg_around, Cmd.addArg, ih, List.append_assoc]
      rfl
    | redir r =>
      have h : ArgItem.onto (rs.foldl Redir.around (.exec argv)) (.redir r) =
          (rs ++ [r]).foldl Redir.around (.exec argv) := by rw [List.foldl_append]; rfl
      rw [List.foldl_cons, h, ih, List.append_assoc]
      rfl

theorem simple_tree (items : List ArgItem) :
    items.foldl ArgItem.onto (.exec []) = (argRedirs items).foldl Redir.around (.exec (argWords items)) :=
  foldl_onto items [] []

theorem foldl_redirs (rs : List Redir) (c : Cmd) : (rs.map ArgItem.redir).foldl ArgItem.onto c = rs.foldl Redir.around c := by
  rw [List.foldl_map]
  rfl

theorem tokens_redirs (rs : List Redir) : (rs.map ArgItem.redir).flatMap ArgItem.tokens = rs.flatMap Redir.tokens := by
  rw [List.flatMap_map]
  rfl

theorem argWords_redirs (rs : List Redir) (items : List ArgItem) : argWords (rs.map ArgItem.redir ++ items) = argWords items := by
  induction rs with
  | nil => rfl
  | cons r rs ih => exact ih

/-- **The loop of `parseexec` is sound.** -/
theorem argLoop_sound (h : s.Ahead ts) (hf : ts.length < fuel) (hargc : argc < MAXARGS) :
    wp (argLoop fuel argc cmd)
      (fun c s' => ∃ (items : List ArgItem) (ts' : List Token), ts = items.flatMap ArgItem.tokens ++ ts' ∧
        c = items.foldl ArgItem.onto cmd ∧ argc + (argWords items).length < MAXARGS ∧ s'.Ahead ts')
      (fun e _ => e ≠ .fuel) s := by
  induction fuel generalizing cmd s ts argc with
  | zero => exact absurd hf (Nat.not_lt_zero _)
  | succ fuel ih =>
    rw [argLoop, wp_bind]
    refine wp_peek h (by decide) fun s1 h1 => ?_
    rw [wp_ite]
    refine ⟨fun _ => ⟨[], ts, rfl, rfl, hargc, h1⟩, fun _ => ?_⟩
    rw [wp_bind]
    cases ts with
    | nil => exact wp_gettoken_nil h1 fun sp s2 h2 => ⟨[], [], rfl, rfl, hargc, h2⟩
    | cons t ts =>
      refine wp_gettoken_cons h1 fun s2 h2 => ?_
      dsimp only
      rw [wp_ite]
      refine ⟨fun _ => ?_, fun _ => ?_⟩
      · exact absurd ‹_› h1.ne_eof
      · rw [wp_ite]
        refine ⟨fun _ => ParseStop.noConfusion, fun hword => ?_⟩
        obtain ⟨tok, a⟩ := t
        obtain rfl := not_not.1 hword
        rw [wp_ite]
        refine ⟨fun _ => ParseStop.noConfusion, fun hmax => ?_⟩
        rw [wp_bind]
        refine wp_post (parseredirs_sound h2) ?_
        rintro c s3 ⟨rs, ts1, rfl, rfl, h3⟩
        refine wp_post (ih h3 ?_ (Nat.lt_of_not_le hmax)) ?_
        · rw [List.length_cons, List.length_append] at hf
          omega
        rintro c s4 ⟨items, ts2, rfl, rfl, hlt, h4⟩
        refine ⟨.word a :: rs.map .redir ++ items, ts2, ?_, ?_, ?_, h4⟩
        · rw [List.cons_append, List.flatMap_cons, List.flatMap_append, tokens_redirs, List.append_assoc, List.append_assoc]
          rfl
        · rw [List.cons_append, List.foldl_cons, List.foldl_append, foldl_redirs]
          rfl
        · have hwords : argWords (.word a :: rs.map .redir ++ items) = a :: argWords items :=
            congrArg (a :: ·) (argWords_redirs rs items)
          rw [hwords, List.length_cons]
          omega

/-- **The loop of `parseline` is sound.** -/
theorem backLoop_sound (h : s.Ahead ts) (hf : ts.length < fuel) :
    wp (backLoop fuel cmd)
      (fun c s' => ∃ (bs : List Span) (ts' : List Token), ts = bs.map (Token.mk .back) ++ ts' ∧
        c = Cmd.back^[bs.length] cmd ∧ s'.Ahead ts')
      (fun e _ => e ≠ .fuel) s := by
  induction fuel generalizing cmd s ts with
  | zero => exact absurd hf (Nat.not_lt_zero _)
  | succ fuel ih =>
    rw [backLoop, wp_bind]
    refine wp_peek h (by decide) fun s1 h1 => ?_
    rw [wp_ite]
    refine ⟨fun hpeek => ?_, fun _ => ⟨[], ts, rfl, rfl, h1⟩⟩
    obtain ⟨sp, ts', rfl⟩ := (peekTok_symbol .back (by decide)).1 hpeek
    rw [wp_bind]
    refine wp_gettoken_cons h1 fun s2 h2 => ?_
    refine wp_post (ih h2 (Nat.lt_of_succ_lt_succ hf)) ?_
    rintro c s3 ⟨bs, ts'', rfl, rfl, h3⟩
    exact ⟨sp :: bs, ts'', rfl, rfl, h3⟩

/-! ## The loops are complete -/

/-- The line ends here, or one of these tokens comes next. -/
def Follows (toks : List Tok) (ts : List Token) : Prop := ∀ t ∈ ts.head?, t.tok ∈ toks

theorem Follows.peek_false {toks : List Tok} {bytes : List UInt8} (h : Follows toks ts)
    (hb : ∀ t ∈ toks, t.first ∉ bytes) : peekTok bytes ts = false := by
  cases ts with
  | nil => rfl
  | cons t ts => exact Bool.eq_false_iff.2 fun hc => hb t.tok (h t rfl) (List.contains_iff_mem.1 hc)

theorem Follows.peek_true {toks : List Tok} (h : Follows toks ts) (bytes : List UInt8) (hb : ∀ t ∈ toks, t.first ∈ bytes) :
    ts = [] ∨ peekTok bytes ts = true := by
  cases ts with
  | nil => exact .inl rfl
  | cons t ts => exact .inr (List.contains_iff_mem.2 (hb t.tok (h t rfl)))

/-- What can follow a simple command, a pipeline and a line. -/
def NonTerm.follow : NonTerm → List Tok
  | exec => [.pipe, .back, .semi, .rpar]
  | pipe => [.back, .semi, .rpar]
  | line => [.rpar]

/-- **Redirections** are all taken. -/
theorem parseredirs_complete (rs : List Redir) (h : s.Ahead (rs.flatMap Redir.tokens ++ ts))
    (hts : peekTok [60, 62] ts = false) {Q : Cmd → Scan → Prop} {E : ParseStop → Scan → Prop}
    (hQ : ∀ s' : Scan, s'.Ahead ts → Q (rs.foldl Redir.around cmd) s') : wp (parseredirs cmd) Q E s := by
  rw [parseredirs, wp_bind, wp_get]
  have hf : (rs.flatMap Redir.tokens ++ ts).length < s.rest.length + 1 := Nat.lt_succ_of_le h.length_le
  generalize s.rest.length + 1 = fuel at hf ⊢
  induction rs generalizing cmd s fuel with
  | nil =>
    obtain ⟨fuel, rfl⟩ := Nat.exists_eq_succ_of_ne_zero (Nat.ne_zero_of_lt hf)
    exact wp_redirLoop_end h hts hQ
  | cons r rs ih =>
    obtain ⟨fuel, rfl⟩ := Nat.exists_eq_succ_of_ne_zero (Nat.ne_zero_of_lt hf)
    rw [List.flatMap_cons, List.append_assoc] at h hf
    refine wp_redirLoop_redir r h fun s' h' => ih h' hQ fuel ?_
    rw [List.length_append] at hf
    have : r.tokens.length = 2 := rfl
    omega

/-- **A simple command** is all taken, redirections by the one loop and words by the other. -/
theorem argLoop_complete (items : List ArgItem) {n : Nat} (h : s.Ahead (items.flatMap ArgItem.tokens ++ ts))
    (hts : Follows NonTerm.exec.follow ts) (hn : (items.flatMap ArgItem.tokens ++ ts).length < n)
    (hf : (items.flatMap ArgItem.tokens ++ ts).length < fuel) (hargc : argc + (argWords items).length < MAXARGS)
    {Q : Cmd → Scan → Prop} {E : ParseStop → Scan → Prop}
    (hQ : ∀ s' : Scan, s'.Ahead ts → Q (items.foldl ArgItem.onto cmd) s') :
    wp (redirLoop n cmd) (fun c s' => wp (argLoop fuel argc c) Q E s') E s := by
  induction items generalizing cmd s n fuel argc with
  | nil =>
    obtain ⟨n, rfl⟩ := Nat.exists_eq_succ_of_ne_zero (Nat.ne_zero_of_lt hn)
    obtain ⟨fuel, rfl⟩ := Nat.exists_eq_succ_of_ne_zero (Nat.ne_zero_of_lt hf)
    have h0 : s.Ahead ts := h
    refine wp_redirLoop_end h0 (hts.peek_false (by decide)) fun s1 h1 => ?_
    rw [argLoop, wp_bind]
    refine wp_peek h1 (by decide) fun s2 h2 => ?_
    rcases hts.peek_true [124, 41, 38, 59] (by decide) with rfl | hpeek
    · rw [if_neg (by decide), wp_bind]
      exact wp_gettoken_nil h2 fun sp s3 h3 => hQ s3 h3
    · rw [if_pos hpeek]
      exact hQ s2 h2
  | cons i items ih =>
    obtain ⟨n, rfl⟩ := Nat.exists_eq_succ_of_ne_zero (Nat.ne_zero_of_lt hn)
    rw [List.flatMap_cons, List.append_assoc] at h hn hf
    rw [List.length_append] at hn hf
    cases i with
    | redir r =>
      have hlen : (ArgItem.redir r).tokens.length = 2 := rfl
      exact wp_redirLoop_redir r h fun s1 h1 => ih h1 (by omega) (by omega) hargc hQ
    | word a =>
      obtain ⟨fuel, rfl⟩ := Nat.exists_eq_succ_of_ne_zero (Nat.ne_zero_of_lt hf)
      have hlen : (ArgItem.word a).tokens.length = 1 := rfl
      have hwords : argWords (.word a :: items) = a :: argWords items := rfl
      rw [hwords, List.length_cons] at hargc
      refine wp_redirLoop_end h rfl fun s1 h1 => ?_
      rw [argLoop, wp_bind]
      refine wp_peek h1 (by decide) fun s2 h2 => ?_
      have hpeek : peekTok [124, 41, 38, 59] ((ArgItem.word a).tokens ++ (items.flatMap ArgItem.tokens ++ ts)) = false := rfl
      rw [hpeek, if_neg Bool.false_ne_true, wp_bind]
      refine wp_gettoken_cons h2 fun s3 h3 => ?_
      dsimp only
      rw [if_neg Tok.noConfusion, if_neg (fun hc => hc rfl), if_neg (by omega), wp_bind, parseredirs, wp_bind, wp_get]
      exact ih h3 (Nat.lt_succ_of_le h3.length_le) (by omega) (by omega) hQ

/-- **The `&` after a pipeline** are all taken. -/
theorem backLoop_complete (bs : List Span) (h : s.Ahead (bs.map (Token.mk .back) ++ ts))
    (hts : peekTok [38] ts = false) (hf : (bs.map (Token.mk .back) ++ ts).length < fuel)
    {Q : Cmd → Scan → Prop} {E : ParseStop → Scan → Prop}
    (hQ : ∀ s' : Scan, s'.Ahead ts → Q (Cmd.back^[bs.length] cmd) s') : wp (backLoop fuel cmd) Q E s := by
  induction bs generalizing cmd s fuel with
  | nil =>
    obtain ⟨fuel, rfl⟩ := Nat.exists_eq_succ_of_ne_zero (Nat.ne_zero_of_lt hf)
    have h0 : s.Ahead ts := h
    rw [backLoop, wp_bind]
    refine wp_peek h0 (by decide) fun s1 h1 => ?_
    rw [hts]
    exact hQ s1 h1
  | cons sp bs ih =>
    obtain ⟨fuel, rfl⟩ := Nat.exists_eq_succ_of_ne_zero (Nat.ne_zero_of_lt hf)
    rw [backLoop, wp_bind]
    refine wp_peek h (by decide) fun s1 h1 => ?_
    have hpeek : peekTok [38] ((sp :: bs).map (Token.mk .back) ++ ts) = true := rfl
    rw [hpeek, if_pos rfl, wp_bind]
    exact wp_gettoken_cons h1 fun s2 h2 => ih h2 (Nat.lt_of_succ_lt_succ hf) hQ

/-! ## The routines -/

/-- **Soundness of a routine** on at most `n` tokens: what it goes past derives from `nt`, and its tree is the one of
    the derivation; when it stops, it is not for want of steps. -/
def SoundFor (nt : NonTerm) (n : Nat) (m : ParseM Cmd) : Prop :=
  ∀ (s : Scan) (ts : List Token), s.Ahead ts → ts.length ≤ n →
    wp m (fun c s' => ∃ ts1 ts2, ts = ts1 ++ ts2 ∧ Derives nt ts1 c ∧ s'.Ahead ts2) (fun e _ => e ≠ .fuel) s

theorem parseline_sound {n : Nat} (hpipe : SoundFor .pipe n (parsepipe fuel))
    (hline : ∀ n' < n, SoundFor .line n' (parseline fuel)) : SoundFor .line n (parseline (fuel + 1)) := by
  intro s ts h hn
  rw [parseline, wp_bind]
  refine wp_post (hpipe s ts h hn) ?_
  rintro c s1 ⟨ts1, ts2, rfl, hc, h1⟩
  rw [wp_bind, wp_get, wp_bind]
  refine wp_post (backLoop_sound h1 (Nat.lt_succ_of_le h1.length_le)) ?_
  rintro c' s2 ⟨bs, ts3, rfl, rfl, h2⟩
  rw [wp_bind]
  refine wp_peek h2 (by decide) fun s3 h3 => ?_
  rw [wp_ite]
  refine ⟨fun hpeek => ?_, fun _ => ⟨ts1 ++ bs.map (Token.mk .back), ts3, (List.append_assoc ..).symm, .last bs hc, h3⟩⟩
  obtain ⟨sp, ts4, rfl⟩ := (peekTok_symbol .semi (by decide)).1 hpeek
  rw [wp_bind]
  refine wp_gettoken_cons h3 fun s4 h4 => ?_
  rw [wp_bind]
  refine wp_post (hline ts4.length ?_ s4 ts4 h4 (Nat.le_refl _)) ?_
  · simp only [List.length_append, List.length_cons] at hn
    omega
  rintro c'' s5 ⟨ts5, ts6, rfl, hc', h5⟩
  refine ⟨ts1 ++ bs.map (Token.mk .back) ++ ⟨.semi, sp⟩ :: ts5, ts6, ?_, .list bs hc hc', h5⟩
  simp only [List.append_assoc, List.cons_append]

theorem parsepipe_sound {n : Nat} (hexec : SoundFor .exec n (parseexec fuel))
    (hpipe : ∀ n' < n, SoundFor .pipe n' (parsepipe fuel)) : SoundFor .pipe n (parsepipe (fuel + 1)) := by
  intro s ts h hn
  rw [parsepipe, wp_bind]
  refine wp_post (hexec s ts h hn) ?_
  rintro c s1 ⟨ts1, ts2, rfl, hc, h1⟩
  rw [wp_bind]
  refine wp_peek h1 (by decide) fun s2 h2 => ?_
  rw [wp_ite]
  refine ⟨fun hpeek => ?_, fun _ => ⟨ts1, ts2, rfl, .single hc, h2⟩⟩
  obtain ⟨sp, ts3, rfl⟩ := (peekTok_symbol .pipe (by decide)).1 hpeek
  rw [wp_bind]
  refine wp_gettoken_cons h2 fun s3 h3 => ?_
  rw [wp_bind]
  refine wp_post (hpipe ts3.length ?_ s3 ts3 h3 (Nat.le_refl _)) ?_
  · simp only [List.length_append, List.length_cons] at hn
    omega
  rintro c' s4 ⟨ts4, ts5, rfl, hc', h4⟩
  refine ⟨ts1 ++ ⟨.pipe, sp⟩ :: ts4, ts5, ?_, .pipe hc hc', h4⟩
  simp only [List.append_assoc, List.cons_append]

theorem parseblock_sound {n : Nat} (hline : ∀ n' < n, SoundFor .line n' (parseline fuel)) :
    SoundFor .exec n (parseblock (fuel + 1)) := by
  intro s ts h hn
  rw [parseblock, wp_bind]
  refine wp_peek h (by decide) fun s1 h1 => ?_
  rw [wp_ite]
  refine ⟨fun _ => ParseStop.noConfusion, fun hpeek => ?_⟩
  rw [Bool.not_eq_true', Bool.not_eq_false] at hpeek
  obtain ⟨lp, ts1, rfl⟩ := (peekTok_symbol .lpar (by decide)).1 hpeek
  rw [wp_bind]
  refine wp_gettoken_cons h1 fun s2 h2 => ?_
  rw [wp_bind]
  refine wp_post (hline ts1.length (Nat.lt_of_lt_of_le (Nat.lt_succ_self _) hn) s2 ts1 h2 (Nat.le_refl _)) ?_
  rintro c s3 ⟨ts2, ts3, rfl, hc, h3⟩
  rw [wp_bind]
  refine wp_peek h3 (by decide) fun s4 h4 => ?_
  rw [wp_ite]
  refine ⟨fun _ => ParseStop.noConfusion, fun hpeek => ?_⟩
  rw [Bool.not_eq_true', Bool.not_eq_false] at hpeek
  obtain ⟨rp, ts4, rfl⟩ := (peekTok_symbol .rpar (by decide)).1 hpeek
  rw [wp_bind]
  refine wp_gettoken_cons h4 fun s5 h5 => ?_
  refine wp_post (parseredirs_sound h5) ?_
  rintro c' s6 ⟨rs, ts5, rfl, rfl, h6⟩
  refine ⟨⟨.lpar, lp⟩ :: ts2 ++ ⟨.rpar, rp⟩ :: rs.flatMap Redir.tokens, ts5, ?_, .block rs hc, h6⟩
  simp only [List.append_assoc, List.cons_append]

theorem parseexec_sound {n : Nat} (hblock : SoundFor .exec n (parseblock fuel)) :
    SoundFor .exec n (parseexec (fuel + 1)) := by
  intro s ts h hn
  rw [parseexec, wp_bind]
  refine wp_peek h (by decide) fun s1 h1 => ?_
  rw [wp_ite]
  refine ⟨fun _ => hblock s1 ts h1 hn, fun _ => ?_⟩
  rw [wp_bind, wp_get, wp_bind]
  refine wp_post (parseredirs_sound h1) ?_
  rintro c s2 ⟨rs, ts1, rfl, rfl, h2⟩
  have hlen := h1.length_le
  rw [List.length_append] at hlen
  refine wp_post (argLoop_sound h2 (by omega) (by decide)) ?_
  rintro c s3 ⟨items, ts2, rfl, rfl, hmax, h3⟩
  refine ⟨(rs.map ArgItem.redir ++ items).flatMap ArgItem.tokens, ts2, ?_, ?_, h3⟩
  · rw [List.flatMap_append, tokens_redirs, List.append_assoc]
  · rw [← foldl_redirs, ← List.foldl_append, simple_tree]
    rw [Nat.zero_add, ← argWords_redirs rs] at hmax
    exact .simple _ hmax

/-- **Soundness of the parser.** -/
theorem parse_sound (fuel : Nat) :
    (∀ n, 4 * n + 4 ≤ fuel → SoundFor .line n (parseline fuel)) ∧
    (∀ n, 4 * n + 3 ≤ fuel → SoundFor .pipe n (parsepipe fuel)) ∧
    (∀ n, 4 * n + 2 ≤ fuel → SoundFor .exec n (parseexec fuel)) ∧
    (∀ n, 4 * n + 1 ≤ fuel → SoundFor .exec n (parseblock fuel)) := by
  induction fuel with
  | zero => exact ⟨fun n h => absurd h (by omega), fun n h => absurd h (by omega), fun n h => absurd h (by omega),
      fun n h => absurd h (by omega)⟩
  | succ fuel ih =>
    obtain ⟨hline, hpipe, hexec, hblock⟩ := ih
    refine ⟨fun n h => ?_, fun n h => ?_, fun n h => ?_, fun n h => ?_⟩
    · exact parseline_sound (hpipe n (by omega)) fun n' hn => hline n' (by omega)
    · exact parsepipe_sound (hexec n (by omega)) fun n' hn => hpipe n' (by omega)
    · exact parseexec_sound (hblock n (by omega))
    · exact parseblock_sound fun n' hn => hline n' (by omega)

def parseFor : NonTerm → Nat → ParseM Cmd
  | .line => parseline
  | .pipe => parsepipe
  | .exec => parseexec

/-- The steps a routine needs, for each token there is and at the end. -/
def NonTerm.steps : NonTerm → Nat
  | line => 4
  | pipe => 3
  | exec => 2

theorem Follows.cons {toks : List Tok} {tok : Tok} {sp : Span} (h : tok ∈ toks) : Follows toks (⟨tok, sp⟩ :: ts) := by
  intro t ht
  rw [← Option.some.inj ht]
  exact h

theorem Follows.mono {toks toks' : List Tok} (h : Follows toks ts) (hsub : toks ⊆ toks') : Follows toks' ts :=
  fun t ht => hsub (h t ht)

/-- No simple command begins with a parenthesis. -/
theorem peekTok_simple (items : List ArgItem) (hts : Follows NonTerm.exec.follow ts) :
    peekTok [40] (items.flatMap ArgItem.tokens ++ ts) = false := by
  cases items with
  | nil => exact hts.peek_false (by decide)
  | cons i items =>
    cases i with
    | word a => rfl
    | redir r =>
      obtain ⟨op, opSpan, file⟩ := r
      cases op with
      | lt => rfl
      | gt => rfl
      | append => rfl

theorem Follows.backs (bs : List Span) (h : Follows NonTerm.pipe.follow ts) :
    Follows NonTerm.pipe.follow (bs.map (Token.mk .back) ++ ts) := by
  cases bs with
  | nil => exact h
  | cons sp bs => exact Follows.cons (by decide)

/-- The pipeline at the beginning of a line, with its `&`. -/
theorem parseline_backs (bs : List Span) {c : Cmd} {Q : Cmd → Scan → Prop} {E : ParseStop → Scan → Prop}
    (hpipe : ∀ Q' : Cmd → Scan → Prop, (∀ s' : Scan, s'.Ahead (bs.map (Token.mk .back) ++ ts) → Q' c s') →
      wp (parsepipe fuel) Q' E s)
    (hts : peekTok [38] ts = false)
    (hQ : ∀ s' : Scan, s'.Ahead ts →
      wp (if peekTok [59] ts = true then do
            let _ ← gettoken
            let right ← parseline fuel
            return .list (Cmd.back^[bs.length] c) right
          else return Cmd.back^[bs.length] c) Q E s') :
    wp (parseline (fuel + 1)) Q E s := by
  rw [parseline, wp_bind]
  refine hpipe _ fun s1 h1 => ?_
  rw [wp_bind, wp_get, wp_bind]
  refine backLoop_complete bs h1 hts (Nat.lt_succ_of_le h1.length_le) fun s2 h2 => ?_
  rw [wp_bind]
  exact wp_peek h2 (by decide) hQ

/-- **Completeness of the parser**: what derives from a nonterminal, followed by a token that can follow there, is
    what the routine takes. -/
theorem parse_complete {nt : NonTerm} {ts1 ts2 : List Token} {c : Cmd} (hd : Derives nt ts1 c) (h : s.Ahead (ts1 ++ ts2))
    (hts : Follows nt.follow ts2) (hf : 4 * (ts1 ++ ts2).length + nt.steps ≤ fuel)
    {Q : Cmd → Scan → Prop} {E : ParseStop → Scan → Prop} (hQ : ∀ s' : Scan, s'.Ahead ts2 → Q c s') :
    wp (parseFor nt fuel) Q E s := by
  induction hd generalizing ts2 s fuel Q E with
  | @block lp rp ts c rs _ ih =>
    obtain ⟨fuel, rfl⟩ : ∃ f, fuel = f + 2 := ⟨fuel - 2, by rw [NonTerm.steps] at hf; omega⟩
    have hassoc : (⟨.lpar, lp⟩ :: ts ++ ⟨.rpar, rp⟩ :: rs.flatMap Redir.tokens) ++ ts2 =
        ⟨.lpar, lp⟩ :: (ts ++ ⟨.rpar, rp⟩ :: (rs.flatMap Redir.tokens ++ ts2)) := by simp
    rw [hassoc] at h hf
    rw [parseFor, parseexec, wp_bind]
    refine wp_peek h (by decide) fun s1 h1 => ?_
    have hpeek : peekTok [40] (⟨.lpar, lp⟩ :: (ts ++ ⟨.rpar, rp⟩ :: (rs.flatMap Redir.tokens ++ ts2))) = true := rfl
    rw [hpeek, if_pos rfl, parseblock, wp_bind]
    refine wp_peek h1 (by decide) fun s2 h2 => ?_
    rw [hpeek, Bool.not_true, if_neg Bool.false_ne_true, wp_bind]
    refine wp_gettoken_cons h2 fun s3 h3 => ?_
    rw [wp_bind]
    refine ih h3 (Follows.cons (by decide)) ?_ fun s4 h4 => ?_
    · rw [List.length_cons, NonTerm.steps] at hf
      rw [NonTerm.steps]
      omega
    rw [wp_bind]
    refine wp_peek h4 (by decide) fun s5 h5 => ?_
    have hpeek' : peekTok [41] (⟨.rpar, rp⟩ :: (rs.flatMap Redir.tokens ++ ts2)) = true := rfl
    rw [hpeek', Bool.not_true, if_neg Bool.false_ne_true, wp_bind]
    exact wp_gettoken_cons h5 fun s6 h6 => parseredirs_complete rs h6 (hts.peek_false (by decide)) hQ
  | simple items hmax =>
    obtain ⟨fuel, rfl⟩ : ∃ f, fuel = f + 1 := ⟨fuel - 1, by rw [NonTerm.steps] at hf; omega⟩
    rw [parseFor, parseexec, wp_bind]
    refine wp_peek h (by decide) fun s1 h1 => ?_
    rw [peekTok_simple items hts, if_neg Bool.false_ne_true, wp_bind, wp_get, wp_bind, parseredirs, wp_bind, wp_get]
    have hlen := Nat.lt_succ_of_le h1.length_le
    rw [← simple_tree] at hQ
    exact argLoop_complete items h1 hts hlen hlen (by omega) hQ
  | single _ ih =>
    obtain ⟨fuel, rfl⟩ : ∃ f, fuel = f + 1 := ⟨fuel - 1, by rw [NonTerm.steps] at hf; omega⟩
    rw [parseFor, parsepipe, wp_bind]
    refine ih h (hts.mono (by decide)) (by simp only [NonTerm.steps] at hf ⊢; omega) fun s1 h1 => ?_
    rw [wp_bind]
    refine wp_peek h1 (by decide) fun s2 h2 => ?_
    rw [hts.peek_false (by decide)]
    exact hQ s2 h2
  | @pipe sp ts ts' c c' _ _ ih ih' =>
    obtain ⟨fuel, rfl⟩ : ∃ f, fuel = f + 1 := ⟨fuel - 1, by rw [NonTerm.steps] at hf; omega⟩
    rw [List.append_assoc, List.cons_append] at h hf
    rw [parseFor, parsepipe, wp_bind]
    refine ih h (Follows.cons (by decide)) (by simp only [NonTerm.steps] at hf ⊢; omega) fun s1 h1 => ?_
    rw [wp_bind]
    refine wp_peek h1 (by decide) fun s2 h2 => ?_
    have hpeek : peekTok [124] (⟨.pipe, sp⟩ :: (ts' ++ ts2)) = true := rfl
    rw [hpeek, if_pos rfl, wp_bind]
    refine wp_gettoken_cons h2 fun s3 h3 => ?_
    rw [wp_bind]
    refine ih' h3 hts ?_ hQ
    rw [List.length_append, List.length_cons, NonTerm.steps] at hf
    rw [NonTerm.steps]
    omega
  | @last ts c bs _ ih =>
    obtain ⟨fuel, rfl⟩ : ∃ f, fuel = f + 1 := ⟨fuel - 1, by rw [NonTerm.steps] at hf; omega⟩
    rw [List.append_assoc] at h hf
    have hfol := Follows.backs bs (hts.mono (by decide))
    refine parseline_backs bs (fun Q' hQ' => ih h hfol (by simp only [NonTerm.steps] at hf ⊢; omega) hQ')
      (hts.peek_false (by decide)) fun s1 h1 => ?_
    rw [hts.peek_false (by decide)]
    exact hQ s1 h1
  | @list sp ts ts' c c' bs _ _ ih ih' =>
    obtain ⟨fuel, rfl⟩ : ∃ f, fuel = f + 1 := ⟨fuel - 1, by rw [NonTerm.steps] at hf; omega⟩
    rw [List.append_assoc, List.append_assoc, List.cons_append] at h hf
    have hfol : Follows NonTerm.pipe.follow (bs.map (Token.mk .back) ++ ⟨.semi, sp⟩ :: (ts' ++ ts2)) :=
      Follows.backs bs (Follows.cons (by decide))
    refine parseline_backs bs (fun Q' hQ' => ih h hfol (by simp only [NonTerm.steps] at hf ⊢; omega) hQ') rfl fun s1 h1 => ?_
    have hpeek : peekTok [59] (⟨.semi, sp⟩ :: (ts' ++ ts2)) = true := rfl
    rw [hpeek, if_pos rfl, wp_bind]
    refine wp_gettoken_cons h1 fun s2 h2 => ?_
    rw [wp_bind]
    refine ih' h2 hts ?_ hQ
    rw [List.length_append, List.length_append, List.length_cons, NonTerm.steps] at hf
    rw [NonTerm.steps]
    omega

/-! ## Lines -/

variable {line : List UInt8} {c : Cmd}

theorem Tokens.of_nil {p : Nat} (h : Tokens p [] ts) : ts = [] := by
  generalize hr : ([] : List UInt8) = r at h
  cases h with
  | nil => rfl
  | word hne _ _ _ => exact absurd (List.append_eq_nil_iff.1 hr.symm).1 hne
  | _ => exact nomatch hr

/-- What is parsed is the whole line. -/
theorem parseAll_sound (h : Tokens 0 line ts) :
    wp parseAll (fun c _ => Derives .line ts c) (fun e _ => e ≠ .fuel) ⟨0, line⟩ := by
  rw [parseAll, wp_bind, wp_get, wp_bind]
  have hf : 4 * ts.length + 4 ≤ 4 * line.length + 4 := by
    have := h.length_le
    omega
  refine wp_post ((parse_sound _).1 _ hf ⟨0, line⟩ ts h (Nat.le_refl _)) ?_
  rintro c s1 ⟨ts1, ts2, rfl, hc, h1⟩
  rw [wp_bind]
  refine wp_peek h1 (by decide) fun s2 h2 => ?_
  rw [wp_bind, wp_get, wp_ite]
  refine ⟨fun _ => ParseStop.noConfusion, fun hrest => ?_⟩
  obtain ⟨pos, rest⟩ := s2
  obtain rfl : rest = [] := not_not.1 hrest
  rw [Tokens.of_nil h2, List.append_nil]
  exact hc

/-- Whole lines are parsed. -/
theorem parseAll_complete (h : Tokens 0 line ts) (hd : Derives .line ts c) :
    wp parseAll (fun c' _ => c' = c) (fun _ _ => False) ⟨0, line⟩ := by
  have h' : Scan.Ahead ⟨0, line⟩ (ts ++ []) := by
    rw [List.append_nil]
    exact h
  have hf : 4 * (ts ++ []).length + NonTerm.line.steps ≤ 4 * line.length + 4 := by
    have := h.length_le
    simp only [List.append_nil, NonTerm.steps]
    omega
  rw [parseAll, wp_bind, wp_get, wp_bind]
  refine parse_complete hd h' (fun t ht => nomatch ht) hf fun s1 h1 => ?_
  have hnil := Tokens.eq_nil h1.skip (skip_head s1)
  rw [wp_bind, peek, wp_bind, wp_modify, wp_bind, wp_get, hnil, wp_pure, wp_bind, wp_get, wp_ite]
  exact ⟨fun hrest => absurd hnil hrest, fun _ => rfl⟩

theorem lineOf_append (h0 : 0 ∉ line) (after : List UInt8) : lineOf (line ++ 0 :: after) = line := by
  induction line with
  | nil => rfl
  | cons d line ih =>
    rw [List.mem_cons, not_or] at h0
    have hd : d ≠ 0 := fun h => h0.1 h.symm
    rw [lineOf, List.cons_append, List.takeWhile_cons, if_pos (decide_eq_true hd)]
    exact congrArg (d :: ·) (ih h0.2)

theorem parsecmd_eq_ok {buf buf' : List UInt8} : parsecmd buf = .ok (c, buf') ↔
    (exec parseAll ⟨0, lineOf buf⟩).1 = .ok c ∧ buf' = nulterminate c buf := by
  rw [parsecmd]
  rcases exec parseAll ⟨0, lineOf buf⟩ with ⟨r, s⟩
  cases r with
  | ok c' =>
    refine ⟨fun h => ?_, fun h => ?_⟩
    · obtain ⟨rfl, rfl⟩ := Prod.mk.inj (Except.ok.inj h)
      exact ⟨rfl, rfl⟩
    · obtain ⟨hc, rfl⟩ := h
      obtain rfl := Except.ok.inj hc
      rfl
  | error e => exact iff_of_false (fun h => by cases h) fun h => by cases h.1

/-- A tree that `parsecmd` returns is one of a derivation. -/
theorem parsecmd_derives {after buf' : List UInt8} (h0 : 0 ∉ line) (h : parsecmd (line ++ 0 :: after) = .ok (c, buf'))
    (hts : Tokens 0 line ts) : Derives .line ts c := by
  have hr := (parsecmd_eq_ok.1 h).1
  rw [lineOf_append h0] at hr
  have hexec : exec parseAll ⟨0, line⟩ = (.ok c, (exec parseAll ⟨0, line⟩).2) := Prod.ext hr rfl
  have hwp := parseAll_sound hts
  have hres := wp_ok hwp hexec
  exact hres

/-- **The shell accepts exactly its grammar**: parsing ends, it returns a tree when the tokens of the line derive from
    `line`, and the tree is the one of the derivation. -/
theorem parsecmd_iff (line after : List UInt8) (h0 : 0 ∉ line) :
    parsecmd (line ++ 0 :: after) ≠ .error .fuel ∧
      ∀ c, (∃ buf', parsecmd (line ++ 0 :: after) = .ok (c, buf')) ↔ ∃ ts, Tokens 0 line ts ∧ Derives .line ts c := by
  obtain ⟨ts, hts⟩ := exists_tokens 0 line
  refine ⟨fun h => ?_, fun c => ⟨?_, ?_⟩⟩
  · have hwp := parseAll_sound hts
    rw [parsecmd, lineOf_append h0] at h
    rcases hr : exec parseAll ⟨0, line⟩ with ⟨r, s⟩
    rw [hr] at h
    cases r with
    | ok c => exact nomatch h
    | error e => exact wp_error hwp hr (Except.error.inj h)
  · rintro ⟨buf', h⟩
    exact ⟨ts, hts, parsecmd_derives h0 h hts⟩
  · rintro ⟨ts, hts, hd⟩
    obtain ⟨c', s, hr, rfl⟩ := wp_total (parseAll_complete hts hd)
    exact ⟨_, parsecmd_eq_ok.2 ⟨by rw [lineOf_append h0, hr], rfl⟩⟩

/-- `ls>f;(a|b)&` -/
theorem parsecmd_sample : ∃ c, (∃ buf', parsecmd ([108, 115, 62, 102, 59, 40, 97, 124, 98, 41, 38] ++ 0 :: []) =
    .ok (c, buf')) ∧ ∃ ts, Tokens 0 [108, 115, 62, 102, 59, 40, 97, 124, 98, 41, 38] ts ∧ Derives .line ts c := by
  have h : parsecmd ([108, 115, 62, 102, 59, 40, 97, 124, 98, 41, 38] ++ 0 :: []) =
      .ok (.list (.redir (.exec [⟨0, 2⟩]) ⟨3, 4⟩ 513 1) (.back (.pipe (.exec [⟨6, 7⟩]) (.exec [⟨8, 9⟩]))),
        [108, 115, 0, 102, 0, 40, 97, 0, 98, 0, 38, 0]) := by
    decide +kernel
  exact ⟨_, ⟨_, h⟩, ((parsecmd_iff _ [] (by decide)).2 _).1 ⟨_, h⟩⟩

end Xv6
