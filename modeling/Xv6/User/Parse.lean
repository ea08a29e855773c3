import Mathlib.Data.List.TakeWhile
import Xv6.Lib.Hoare
import Xv6.Sys.File

/-!
# `User.Parse` — the shell's scanner and parser (`user/sh.c`)

The parser is six routines that move one pointer `*ps` along the line, up to its end `es`. The pointer is the state
here: a position and the bytes from there to `es`. A tree of commands refers to the line by positions, as the code
does by pointers, and `nulterminate` writes a NUL at the end of each word the tree refers to.

`Tokens` says what the tokens of a line are, with no reference to the scanner; `wp_gettoken_cons`,
`wp_gettoken_nil` and `wp_peek` are all the proofs about the parser need to know about it.
-/

namespace Xv6

open Hoare

/-! ## The scanner -/

/-- `" \t\r\n\v"` -/
def whitespace : List UInt8 := [32, 9, 13, 10, 11]

/-- `"<|>&;()"` -/
def symbols : List UInt8 := [60, 124, 62, 38, 59, 40, 41]

/-- `strchr(whitespace, c)`, for a byte of the line. -/
def isSpace (c : UInt8) : Bool := whitespace.contains c

/-- A byte that a word may contain. -/
def isWordByte (c : UInt8) : Bool := !whitespace.contains c && !symbols.contains c

/-- What `gettoken` returns: `0`, a symbol, `'+'` for `>>` and `'a'` for a word. -/
inductive Tok where
  | eof
  | pipe
  | lpar
  | rpar
  | semi
  | back
  | lt
  | gt
  | append
  | word
deriving Repr, DecidableEq

/-- The two pointers `q` and `eq` that `gettoken` stores: a part of the line. -/
structure Span where
  q : Nat
  eq : Nat
deriving Repr, DecidableEq

/-- `*ps`, and the bytes from there to `es`. -/
structure Scan where
  pos : Nat
  rest : List UInt8
deriving Repr, DecidableEq

/-- `s++` -/
def Scan.next (s : Scan) : Scan := ⟨s.pos + 1, s.rest.tail⟩

/-- `while(s < es && p(*s)) s++` -/
def Scan.skip (p : UInt8 → Bool) (s : Scan) : Scan := ⟨s.pos + (s.rest.takeWhile p).length, s.rest.dropWhile p⟩

/-- The ways parsing stops without a tree: the texts of `panic`; `fuel` is none of them, the model has run out of
    steps. -/
inductive ParseStop where
  | leftovers
  | missingFile
  | parseblock
  | missingParen
  | badSyntax
  | tooManyArgs
  | fuel
deriving Repr, DecidableEq

abbrev ParseM := Prog Scan ParseStop

/-- The symbols that are a token by themselves whatever follows. -/
def symbolTok (c : UInt8) : Option Tok :=
  if c = 124 then some .pipe
  else if c = 40 then some .lpar
  else if c = 41 then some .rpar
  else if c = 59 then some .semi
  else if c = 38 then some .back
  else if c = 60 then some .lt
  else none

/-- The `switch` of `gettoken`. -/
def scanToken : ParseM Tok := do
  match (← get).rest with
  | [] => return .eof
  | c :: _ =>
    match symbolTok c with
    | some tok => do
      modify Scan.next
      return tok
    | none =>
      if c = 62 then do
        modify Scan.next
        if (← get).rest.head? = some 62 then do
          modify Scan.next
          return .append
        else return .gt
      else do
        modify (Scan.skip isWordByte)
        return .word

/-- `gettoken(ps, es, &q, &eq)` -/
def gettoken : ParseM (Tok × Span) := do
  modify (Scan.skip isSpace)
  let q := (← get).pos
  let ret ← scanToken
  let eq := (← get).pos
  modify (Scan.skip isSpace)
  return (ret, ⟨q, eq⟩)

/-- `peek(ps, es, toks)` -/
def peek (toks : List UInt8) : ParseM Bool := do
  modify (Scan.skip isSpace)
  match (← get).rest with
  | [] => return false
  | c :: _ => return toks.contains c

/-! ## The parser -/

def MAXARGS : Nat := 10

/-- `struct cmd`; words and file names are parts of the line. -/
inductive Cmd where
  | exec (argv : List Span)
  | redir (cmd : Cmd) (file : Span) (mode fd : Nat)
  | pipe (left right : Cmd)
  | list (left right : Cmd)
  | back (cmd : Cmd)
deriving Repr, DecidableEq

/-- `cmd->argv[argc] = q; cmd->eargv[argc] = eq`, where `cmd` is the `execcmd` below the redirections of `ret`. -/
def Cmd.addArg (a : Span) : Cmd → Cmd
  | exec argv => exec (argv ++ [a])
  | redir cmd file mode fd => redir (cmd.addArg a) file mode fd
  | cmd => cmd

/-- The loop of `parseredirs`. -/
def redirLoop : Nat → Cmd → ParseM Cmd
  | 0, _ => throw .fuel
  | fuel + 1, cmd => do
    if ← peek [60, 62] then do
      let (tok, _) ← gettoken
      let (file, span) ← gettoken
      if file ≠ .word then throw .missingFile
      else
        match tok with
        | .lt => redirLoop fuel (.redir cmd span O_RDONLY 0)
        | .gt => redirLoop fuel (.redir cmd span (O_WRONLY ||| O_CREATE) 1)
        | .append => redirLoop fuel (.redir cmd span (O_WRONLY ||| O_CREATE) 1)
        | _ => redirLoop fuel cmd
    else return cmd

/-- `parseredirs`: each trip of the loop goes past a token. -/
def parseredirs (cmd : Cmd) : ParseM Cmd := do redirLoop ((← get).rest.length + 1) cmd

/-- The loop of `parseexec`. -/
def argLoop : Nat → Nat → Cmd → ParseM Cmd
  | 0, _, _ => throw .fuel
  | fuel + 1, argc, ret => do
    if ← peek [124, 41, 38, 59] then return ret
    else do
      let (tok, span) ← gettoken
      if tok = .eof then return ret
      else if tok ≠ .word then throw .badSyntax
      else if argc + 1 ≥ MAXARGS then throw .tooManyArgs
      else do
        let ret ← parseredirs (ret.addArg span)
        argLoop fuel (argc + 1) ret

/-- The loop of `parseline`. -/
def backLoop : Nat → Cmd → ParseM Cmd
  | 0, _ => throw .fuel
  | fuel + 1, cmd => do
    if ← peek [38] then do
      let _ ← gettoken
      backLoop fuel (.back cmd)
    else return cmd

mutual

/-- `parseline` -/
def parseline : Nat → ParseM Cmd
  | 0 => throw .fuel
  | fuel + 1 => do
    let cmd ← parsepipe fuel
    let cmd ← backLoop ((← get).rest.length + 1) cmd
    if ← peek [59] then do
      let _ ← gettoken
      let right ← parseline fuel
      return .list cmd right
    else return cmd

/-- `parsepipe` -/
def parsepipe : Nat → ParseM Cmd
  | 0 => throw .fuel
  | fuel + 1 => do
    let cmd ← parseexec fuel
    if ← peek [124] then do
      let _ ← gettoken
      let right ← parsepipe fuel
      return .pipe cmd right
    else return cmd

/-- `parseexec` -/
def parseexec : Nat → ParseM Cmd
  | 0 => throw .fuel
  | fuel + 1 => do
    if ← peek [40] then parseblock fuel
    else do
      let fuel := (← get).rest.length + 1
      let ret ← parseredirs (.exec [])
      argLoop fuel 0 ret

/-- `parseblock` -/
def parseblock : Nat → ParseM Cmd
  | 0 => throw .fuel
  | fuel + 1 => do
    if !(← peek [40]) then throw .parseblock
    else do
      let _ ← gettoken
      let cmd ← parseline fuel
      if !(← peek [41]) then throw .missingParen
      else do
        let _ ← gettoken
        parseredirs cmd

end

/-- `nulterminate` -/
def nulterminate : Cmd → List UInt8 → List UInt8
  | .exec argv, buf => argv.foldl (fun buf a => buf.set a.eq 0) buf
  | .redir cmd file _ _, buf => (nulterminate cmd buf).set file.eq 0
  | .pipe left right, buf => nulterminate right (nulterminate left buf)
  | .list left right, buf => nulterminate right (nulterminate left buf)
  | .back cmd, buf => nulterminate cmd buf

/-- The string at the start of `buf`, as `strlen` sees it. -/
def lineOf (buf : List UInt8) : List UInt8 := buf.takeWhile (· ≠ 0)

/-- `parsecmd` up to `nulterminate`; no routine calls another more than four times for a byte of the line. -/
def parseAll : ParseM Cmd := do
  let cmd ← parseline (4 * (← get).rest.length + 4)
  let _ ← peek []
  if (← get).rest ≠ [] then throw .leftovers
  else return cmd

/-- `parsecmd(buf)`: the tree, and what is then in the buffer. -/
def parsecmd (buf : List UInt8) : Except ParseStop (Cmd × List UInt8) :=
  match exec parseAll ⟨0, lineOf buf⟩ with
  | (.ok cmd, _) => .ok (cmd, nulterminate cmd buf)
  | (.error e, _) => .error e

/-! ## Tokens of a line -/

structure Token where
  tok : Tok
  span : Span
deriving Repr, DecidableEq

/-- **The tokens of a line** from position `p` on: white space separates them, `>>` is one token, and a word is a
    maximal run of bytes that are neither white space nor symbols. -/
inductive Tokens : Nat → List UInt8 → List Token → Prop
  | nil {p : Nat} : Tokens p [] []
  | space {p : Nat} {c : UInt8} {r : List UInt8} {ts : List Token} : isSpace c = true → Tokens (p + 1) r ts →
      Tokens p (c :: r) ts
  | symbol {p : Nat} {c : UInt8} {tok : Tok} {r : List UInt8} {ts : List Token} : symbolTok c = some tok →
      Tokens (p + 1) r ts → Tokens p (c :: r) (⟨tok, p, p + 1⟩ :: ts)
  | append {p : Nat} {r : List UInt8} {ts : List Token} : Tokens (p + 2) r ts →
      Tokens p (62 :: 62 :: r) (⟨.append, p, p + 2⟩ :: ts)
  | gt {p : Nat} {r : List UInt8} {ts : List Token} : r.head? ≠ some 62 → Tokens (p + 1) r ts →
      Tokens p (62 :: r) (⟨.gt, p, p + 1⟩ :: ts)
  | word {p : Nat} {w r : List UInt8} {ts : List Token} : w ≠ [] → (∀ c ∈ w, isWordByte c = true) →
      (∀ c ∈ r.head?, isWordByte c = false) → Tokens (p + w.length) r ts →
      Tokens p (w ++ r) (⟨.word, p, p + w.length⟩ :: ts)

variable {p : Nat} {c : UInt8} {tok : Tok} {w r : List UInt8} {s : Scan} {t : Token} {ts : List Token}

theorem isWordByte_iff : isWordByte c = true ↔ c ∉ whitespace ∧ c ∉ symbols := by
  simp [isWordByte]

/-- A byte is white space, a symbol or part of a word. -/
theorem byte_cases (c : UInt8) : isSpace c = true ∨ (∃ tok, symbolTok c = some tok) ∨ c = 62 ∨ isWordByte c = true := by
  by_cases hspace : c ∈ whitespace
  · exact .inl (List.contains_iff_mem.2 hspace)
  by_cases hsym : c ∈ symbols
  · right
    simp only [symbols, List.mem_cons, List.not_mem_nil, or_false] at hsym
    rcases hsym with rfl | rfl | rfl | rfl | rfl | rfl | rfl
    · exact .inl ⟨.lt, rfl⟩
    · exact .inl ⟨.pipe, rfl⟩
    · exact .inr (.inl rfl)
    · exact .inl ⟨.back, rfl⟩
    · exact .inl ⟨.semi, rfl⟩
    · exact .inl ⟨.lpar, rfl⟩
    · exact .inl ⟨.rpar, rfl⟩
  · exact .inr (.inr (.inr (isWordByte_iff.2 ⟨hspace, hsym⟩)))

/-- The symbols of `symbolTok`, for statements that are checked one by one. -/
def symbolToks : List (UInt8 × Tok) :=
  [(124, .pipe), (40, .lpar), (41, .rpar), (59, .semi), (38, .back), (60, .lt)]

theorem symbolTok_cases (h : symbolTok c = some tok) : (c, tok) ∈ symbolToks := by
  simp only [symbolTok] at h
  split_ifs at h with h1 h2 h3 h4 h5 h6 <;> simp_all [symbolToks]

theorem isSpace_of_symbolTok (h : symbolTok c = some tok) : isSpace c = false := by
  have hall : ∀ x ∈ symbolToks, isSpace x.1 = false := by decide
  exact hall _ (symbolTok_cases h)

theorem isSpace_of_isWordByte (h : isWordByte c = true) : isSpace c = false :=
  Bool.eq_false_iff.2 fun h' => (isWordByte_iff.1 h).1 (List.contains_iff_mem.1 h')

theorem head_dropWhile (f : UInt8 → Bool) (l : List UInt8) : ∀ c ∈ (l.dropWhile f).head?, f c = false := by
  intro c hc
  have h := List.head?_dropWhile_not f l
  rw [Option.mem_def.1 hc] at h
  exact h

/-- Every line has tokens. -/
theorem exists_tokens (p : Nat) (line : List UInt8) : ∃ ts, Tokens p line ts := by
  induction hn : line.length using Nat.strong_induction_on generalizing p line with
  | _ n ih =>
    cases line with
    | nil => exact ⟨[], .nil⟩
    | cons c r =>
      have hlt : r.length < n := by rw [← hn, List.length_cons]; exact Nat.lt_succ_self _
      rcases byte_cases c with hc | ⟨tok, hc⟩ | rfl | hc
      · obtain ⟨ts, h⟩ := ih _ hlt (p + 1) r rfl
        exact ⟨ts, .space hc h⟩
      · obtain ⟨ts, h⟩ := ih _ hlt (p + 1) r rfl
        exact ⟨_, .symbol hc h⟩
      · by_cases hr : r.head? = some 62
        · obtain ⟨r', rfl⟩ : ∃ r', r = 62 :: r' := by
            cases r with
            | nil => exact nomatch hr
            | cons d r' => exact ⟨r', by rw [Option.some.inj hr]⟩
          obtain ⟨ts, h⟩ := ih _ (Nat.lt_of_succ_lt hlt) (p + 2) r' rfl
          exact ⟨_, .append h⟩
        · obtain ⟨ts, h⟩ := ih _ hlt (p + 1) r rfl
          exact ⟨_, .gt hr h⟩
      · -- the word is all that `takeWhile` takes
        have hsplit : c :: r = (c :: r).takeWhile isWordByte ++ (c :: r).dropWhile isWordByte :=
          List.takeWhile_append_dropWhile.symm
        have hne : (c :: r).takeWhile isWordByte ≠ [] := by rw [List.takeWhile_cons_of_pos hc]; exact List.cons_ne_nil _ _
        have hlen := congrArg List.length hsplit
        rw [List.length_append, hn] at hlen
        obtain ⟨ts, h⟩ := ih _ (show ((c :: r).dropWhile isWordByte).length < n by
          have := List.length_pos_iff.2 hne
          omega) (p + ((c :: r).takeWhile isWordByte).length) _ rfl
        rw [hsplit]
        exact ⟨_, .word hne (fun d hd => List.mem_takeWhile_imp hd) (head_dropWhile _ _) h⟩

/-- The tokens from the pointer on. -/
abbrev Scan.Ahead (s : Scan) (ts : List Token) : Prop := Tokens s.pos s.rest ts

theorem skip_of_head {f : UInt8 → Bool} (h : ∀ c ∈ s.rest.head?, f c = false) : s.skip f = s := by
  obtain ⟨pos, rest⟩ := s
  cases rest with
  | nil => rfl
  | cons c r =>
    have hc : ¬f c = true := Bool.eq_false_iff.1 (h c rfl)
    rw [Scan.skip, List.takeWhile_cons_of_neg hc, List.dropWhile_cons_of_neg hc]
    rfl

theorem skip_cons {f : UInt8 → Bool} (h : f c = true) : Scan.skip f ⟨p, c :: r⟩ = Scan.skip f ⟨p + 1, r⟩ := by
  rw [Scan.skip, Scan.skip, List.takeWhile_cons_of_pos h, List.dropWhile_cons_of_pos h, List.length_cons]
  exact congrArg (Scan.mk · _) (by dsimp only; omega)

/-- White space is not seen. -/
theorem Tokens.skip (h : Tokens p r ts) : (Scan.skip isSpace ⟨p, r⟩).Ahead ts := by
  induction h with
  | nil => exact .nil
  | space hc _ ih =>
    rw [skip_cons hc]
    exact ih
  | symbol hc h _ =>
    rw [skip_of_head fun d hd => by rw [← Option.some.inj hd]; exact isSpace_of_symbolTok hc]
    exact .symbol hc h
  | append h _ =>
    rw [skip_of_head fun d hd => by rw [← Option.some.inj hd]; rfl]
    exact .append h
  | gt hr h _ =>
    rw [skip_of_head fun d hd => by rw [← Option.some.inj hd]; rfl]
    exact .gt hr h
  | @word p w r ts hne hw hr h _ =>
    rw [skip_of_head fun d hd => ?_]
    · exact .word hne hw hr h
    · cases w with
      | nil => exact absurd rfl hne
      | cons c w => rw [← Option.some.inj hd]; exact isSpace_of_isWordByte (hw c List.mem_cons_self)

theorem skip_head (s : Scan) : ∀ c ∈ (s.skip isSpace).rest.head?, isSpace c = false := head_dropWhile isSpace s.rest

theorem symbolTok_of_isWordByte (h : isWordByte c = true) : symbolTok c = none ∧ c ≠ 62 := by
  have hsym := (isWordByte_iff.1 h).2
  refine ⟨?_, fun h62 => hsym (by rw [h62]; decide)⟩
  cases hc : symbolTok c with
  | none => rfl
  | some tok =>
    have hall : ∀ x ∈ symbolToks, x.1 ∈ symbols := by decide
    exact absurd (hall _ (symbolTok_cases hc)) hsym

/-- All of a word is skipped, and nothing after it. -/
theorem skip_word (hw : ∀ c ∈ w, isWordByte c = true) (hr : ∀ c ∈ r.head?, isWordByte c = false) :
    Scan.skip isWordByte ⟨p, w ++ r⟩ = ⟨p + w.length, r⟩ := by
  induction w generalizing p with
  | nil => exact skip_of_head hr
  | cons c w ih =>
    rw [List.cons_append, skip_cons (hw c List.mem_cons_self), ih fun d hd => hw d (List.mem_cons_of_mem _ hd),
      List.length_cons, Nat.add_right_comm, Nat.add_assoc]

/-- Reading a token, with no white space before it. -/
theorem wp_scanToken_cons {Q : Tok → Scan → Prop} {E : ParseStop → Scan → Prop} (h : s.Ahead (t :: ts))
    (hs : ∀ c ∈ s.rest.head?, isSpace c = false)
    (hQ : t.span.q = s.pos → ∀ s' : Scan, s'.pos = t.span.eq → s'.Ahead ts → Q t.tok s') : wp scanToken Q E s := by
  obtain ⟨pos, rest⟩ := s
  generalize hts : t :: ts = us at h
  rw [scanToken, wp_bind, wp_get]
  cases h with
  | nil => exact nomatch hts
  | space hc _ => exact absurd hc (Bool.eq_false_iff.1 (hs _ rfl))
  | symbol hc h =>
    obtain ⟨rfl, rfl⟩ := List.cons.inj hts
    dsimp only
    rw [hc]
    exact hQ rfl _ rfl h
  | append h =>
    obtain ⟨rfl, rfl⟩ := List.cons.inj hts
    exact hQ rfl _ rfl h
  | @gt _ r _ hr h =>
    obtain ⟨rfl, rfl⟩ := List.cons.inj hts
    dsimp only
    rw [show symbolTok 62 = none from rfl]
    dsimp only
    rw [if_pos rfl, wp_bind, wp_modify, wp_bind, wp_get, 
      if_neg (show ¬(Scan.next ⟨pos, 62 :: r⟩).rest.head? = some 62 from hr)]
    exact hQ rfl _ rfl h
  | @word _ w r _ hne hw hr h =>
    obtain ⟨rfl, rfl⟩ := List.cons.inj hts
    cases w with
    | nil => exact absurd rfl hne
    | cons c w =>
      obtain ⟨hsym, h62⟩ := symbolTok_of_isWordByte (hw c List.mem_cons_self)
      simp only [List.append_eq, List.cons_append]
      rw [hsym]
      dsimp only
      rw [if_neg h62, wp_bind, wp_modify, ← List.cons_append, skip_word hw hr]
      exact hQ rfl _ rfl h

/-- **Reading a token.** -/
theorem wp_gettoken_cons {Q : Tok × Span → Scan → Prop} {E : ParseStop → Scan → Prop} (h : s.Ahead (t :: ts))
    (hQ : ∀ s' : Scan, s'.Ahead ts → Q (t.tok, t.span) s') : wp gettoken Q E s := by
  rw [gettoken, wp_bind, wp_modify, wp_bind, wp_get, wp_bind]
  refine wp_scanToken_cons h.skip (skip_head s) fun hq s' heq hs' => ?_
  rw [wp_bind, wp_get, wp_bind, wp_modify, wp_pure, ← hq, heq]
  exact hQ _ hs'.skip

theorem Tokens.eq_nil (h : Tokens p r []) (hr : ∀ c ∈ r.head?, isSpace c = false) : r = [] := by
  cases h with
  | nil => rfl
  | space hc _ => exact absurd hc (Bool.eq_false_iff.1 (hr _ rfl))

/-- Reading on at the end of the line. -/
theorem wp_gettoken_nil {Q : Tok × Span → Scan → Prop} {E : ParseStop → Scan → Prop} (h : s.Ahead [])
    (hQ : ∀ (span : Span) (s' : Scan), s'.Ahead [] → Q (.eof, span) s') : wp gettoken Q E s := by
  have hnil := Tokens.eq_nil h.skip (skip_head s)
  rw [gettoken, wp_bind, wp_modify, wp_bind, wp_get, wp_bind, scanToken, wp_bind, wp_get, hnil]
  exact hQ _ _ h.skip.skip

/-- The byte a token begins with; a word begins with none that `peek` looks for. -/
def Tok.first : Tok → UInt8
  | eof => 0
  | pipe => 124
  | lpar => 40
  | rpar => 41
  | semi => 59
  | back => 38
  | lt => 60
  | gt => 62
  | append => 62
  | word => 0

/-- Does the next token begin with one of these? -/
def peekTok (toks : List UInt8) : List Token → Bool
  | [] => false
  | t :: _ => toks.contains t.tok.first

/-- The first byte after white space is that of the next token. -/
theorem Tokens.first {toks : List UInt8} (h : Tokens p r ts) (hr : ∀ c ∈ r.head?, isSpace c = false)
    (htoks : toks ⊆ symbols) : r.head?.any toks.contains = peekTok toks ts := by
  cases h with
  | nil => rfl
  | space hc _ => exact absurd hc (Bool.eq_false_iff.1 (hr _ rfl))
  | symbol hc h =>
    have hall : ∀ x ∈ symbolToks, x.2.first = x.1 := by decide
    exact congrArg toks.contains (hall _ (symbolTok_cases hc)).symm
  | append h => rfl
  | gt hr h => rfl
  | @word _ w r _ hne hw hr h =>
    cases w with
    | nil => exact absurd rfl hne
    | cons c w =>
      have hc : toks.contains c = false := Bool.eq_false_iff.2 fun hc =>
        (isWordByte_iff.1 (hw c List.mem_cons_self)).2 (htoks (List.contains_iff_mem.1 hc))
      have h0 : toks.contains 0 = false := Bool.eq_false_iff.2 fun h0 =>
        absurd (htoks (List.contains_iff_mem.1 h0)) (by decide)
      exact hc.trans h0.symm

/-- **Looking at the next token.** -/
theorem wp_peek {toks : List UInt8} {Q : Bool → Scan → Prop} {E : ParseStop → Scan → Prop} (h : s.Ahead ts)
    (htoks : toks ⊆ symbols) (hQ : ∀ s' : Scan, s'.Ahead ts → Q (peekTok toks ts) s') : wp (peek toks) Q E s := by
  obtain ⟨pos, rest⟩ := s
  have hfirst := Tokens.first h.skip (skip_head ⟨pos, rest⟩) htoks
  have hQ' := hQ _ h.skip
  rw [peek, wp_bind, wp_modify, wp_bind, wp_get]
  generalize Scan.skip isSpace ⟨pos, rest⟩ = s' at hfirst hQ'
  obtain ⟨pos', rest'⟩ := s'
  rw [← hfirst] at hQ'
  cases rest' with
  | nil => exact hQ'
  | cons c r => exact hQ'

/-- No token is the end of the line. -/
theorem Tokens.ne_eof (h : Tokens p r (t :: ts)) : t.tok ≠ .eof := by
  generalize hus : t :: ts = us at h
  induction h with
  | nil => exact nomatch hus
  | space _ _ ih => exact ih hus
  | symbol hc _ _ =>
    have hall : ∀ x ∈ symbolToks, x.2 ≠ .eof := by decide
    rw [(List.cons.inj hus).1]
    exact hall _ (symbolTok_cases hc)
  | append _ _ => rw [(List.cons.inj hus).1]; exact Tok.noConfusion
  | gt _ _ _ => rw [(List.cons.inj hus).1]; exact Tok.noConfusion
  | word _ _ _ _ _ => rw [(List.cons.inj hus).1]; exact Tok.noConfusion

theorem Tokens.length_le (h : Tokens p r ts) : ts.length ≤ r.length := by
  induction h with
  | nil => exact Nat.le_refl _
  | space _ _ ih => exact Nat.le_succ_of_le ih
  | symbol _ _ ih => exact Nat.succ_le_succ ih
  | append _ ih => exact Nat.le_succ_of_le (Nat.succ_le_succ ih)
  | gt _ _ ih => exact Nat.succ_le_succ ih
  | @word _ w _ _ hne _ _ _ ih =>
    have := List.length_pos_iff.2 hne
    rw [List.length_append, List.length_cons]
    omega

end Xv6
