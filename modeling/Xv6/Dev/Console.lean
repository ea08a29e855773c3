import Xv6.Lib.Bytes
import Xv6.Lib.Ring
import Xv6.Lib.Machine

/-!
# `Dev.Console` — the console's line discipline (`kernel/console.c`)

Characters arrive by `consoleintr`, processes take them by `consoleread`; both work on the ring `input` under its
lock. A step is one stretch of code under the lock: an interrupt with the characters it delivers, or a call of
`consoleread` until it returns or sleeps. A sleeping call may go on at any time, since it tests its condition
again; a call whose process was killed gives up where it would sleep.

The state carries three histories: the bytes that `w` has passed (committed), the bytes that `r` has passed
(taken), each with the call that took it, and the bytes stored in a caller's buffer.

## Contents
- **The ring.** `Console`, `intrChar` (one character of `consoleintr`), `readLoop` (the loop of `consoleread`).
- **The machine.** `ttyStep`.
- **What the ring holds.** `Console.View`: the committed bytes and the line being edited, and what each operation makes
  of them (`View.intrChar`, `View.readLoop`).
- **The discipline.** `console_discipline`, for every run.
-/

namespace Xv6

open Bytes Machine Ring

/-! ## The ring -/

@[simp] abbrev INPUT_BUF : Nat := 128

/-- `C(x)`: control-x. -/
def ctl (x : Char) : UInt8 := UInt8.ofNat (x.toNat - 64)

/-- `'\n'`. -/
@[simp] abbrev newline : UInt8 := 10

/-- The structure `input`, without its lock. -/
structure Console where
  buf : Nat → UInt8
  r : Nat
  w : Nat
  e : Nat

/-- The loop of the kill character; it runs at most from `e` down to `w`. -/
def killLoop : Nat → Console → Console
  | 0, i => i
  | k + 1, i =>
    if i.e ≠ i.w ∧ i.buf (usub i.e 1 % INPUT_BUF) ≠ newline then killLoop k { i with e := usub i.e 1 } else i

/-- `input.buf[input.e++ % INPUT_BUF] = c`. -/
def Console.put (i : Console) (c : UInt8) : Console :=
  { i with buf := Function.update i.buf (i.e % INPUT_BUF) c, e := (i.e + 1) % 4294967296 }

/-- One trip of the loop of `consoleintr`. -/
def Console.intrChar (i : Console) (c : UInt8) : Console :=
  if c = ctl 'P' then i
  else if c = ctl 'U' then killLoop (usub i.e i.w) i
  else if c = ctl 'H' ∨ c = 0x7f then
    if i.e ≠ i.w then { i with e := usub i.e 1 } else i
  else if c ≠ 0 ∧ usub i.e i.r < INPUT_BUF then
    let c := if c = 13 then newline else c
    let i := i.put c
    if c = newline ∨ c = ctl 'D' ∨ i.e = (i.r + INPUT_BUF) % 4294967296 then { i with w := i.e } else i
  else i

/-- `consoleintr`, with the characters `getc` returns. -/
def consoleintr (i : Console) (cs : List UInt8) : Console := cs.foldl Console.intrChar i

/-- How a stretch of `consoleread` ends. -/
inductive ReadEnd where
  | returned
  | sleeps
  | killed
  deriving DecidableEq

/-- The loop of `consoleread(ip, dst, target)` with `n` bytes still to read: the ring, the bytes stored and how it
    ends. -/
def readLoop (killed : Bool) (target : Nat) : Nat → Console → Console × List UInt8 × ReadEnd
  | 0, i => (i, [], .returned)
  | n + 1, i =>
    if i.r = i.w then (i, [], if killed then .killed else .sleeps)
    else
      let c := i.buf (i.r % INPUT_BUF)
      let i := { i with r := (i.r + 1) % 4294967296 }
      if c = ctl 'D' then
        -- save ^D for next time, so that the caller gets a 0-byte result
        if n + 1 < target then ({ i with r := usub i.r 1 }, [], .returned) else (i, [], .returned)
      else if c = newline then (i, [c], .returned)
      else
        let (i, bytes, fin) := readLoop killed target n i
        (i, c :: bytes, fin)

/-- The erase and kill characters. -/
def Erases (c : UInt8) : Prop := c = ctl 'U' ∨ c = ctl 'H' ∨ c = 0x7f

/-- The byte that a character puts in the ring: a return is a newline. -/
def typed (c : UInt8) : UInt8 := if c = 13 then newline else c

/-- The characters that are not put in the ring: ^P and 0, and any when the ring is full. -/
def Console.Drops (i : Console) (c : UInt8) : Prop := c = ctl 'P' ∨ ¬ (c ≠ 0 ∧ usub i.e i.r < INPUT_BUF)

instance (i : Console) (c : UInt8) : Decidable (i.Drops c) := inferInstanceAs (Decidable (_ ∨ _))

/-! ## The machine -/

/-- A call of `consoleread`. -/
structure ReadCall where
  /-- The size asked for. -/
  target : Nat
  /-- The bytes stored so far. -/
  got : List UInt8
  /-- What it returned; `none` while it sleeps. -/
  result : Option Int
  /-- How many bytes had been taken from the ring, by any call, when it returned. -/
  stop : Nat

structure Tty where
  input : Console
  /-- The calls made so far are `calls 0 .. calls (begun - 1)`. -/
  calls : Nat → ReadCall
  begun : Nat
  committed : List UInt8
  taken : List (Nat × UInt8)
  stored : List (Nat × UInt8)

/-- The bytes an index passes on its way from `a` to `b`. -/
def Console.passed (i : Console) (a b : Nat) : List UInt8 :=
  (List.range (usub b a)).map fun k => i.buf ((a + k) % INPUT_BUF)

/-- Committed bytes that no call has taken. -/
def Console.unread (i : Console) : List UInt8 := i.passed i.r i.w

/-- The line being edited. -/
def Console.line (i : Console) : List UInt8 := i.passed i.w i.e

/-- The characters of `cs` arrive. -/
def Tty.type (t : Tty) (cs : List UInt8) : Tty :=
  let input := consoleintr t.input cs
  { t with input, committed := t.committed ++ input.passed t.input.w input.w }

/-- What a call that has stored `n` bytes returns, when it does. -/
def ReadEnd.result (n : Nat) : ReadEnd → Option Int
  | .returned => some n
  | .sleeps => none
  | .killed => some (-1)

/-- Call number `k`, in the state `c`, goes on until it returns or sleeps. -/
def Tty.goOn (t : Tty) (k : Nat) (c : ReadCall) (killed : Bool) : Tty :=
  match readLoop killed c.target (c.target - c.got.length) t.input with
  | (input, bytes, fin) =>
    let got := c.got ++ bytes
    let taken := t.taken ++ (t.input.passed t.input.r input.r).map (Prod.mk k)
    { t with
      input, taken, stored := t.stored ++ bytes.map (Prod.mk k),
      calls := Function.update t.calls k { c with got, result := fin.result got.length, stop := taken.length } }

/-- What happens next. -/
inductive TtyEvent where
  /-- An interrupt that delivers these characters. -/
  | type (cs : List UInt8)
  /-- A process calls `consoleread` for `n` bytes. -/
  | read (n : Nat) (killed : Bool)
  /-- Call `k` comes out of `sleep`. -/
  | wake (k : Nat) (killed : Bool)

def ttyStep (t : Tty) : TtyEvent → Option Tty
  | .type cs => some (t.type cs)
  | .read n killed =>
    if 0 < n ∧ n < 2147483648 then
      some { t.goOn t.begun ⟨n, [], none, 0⟩ killed with begun := t.begun + 1 }
    else none
  | .wake k killed =>
    if k < t.begun ∧ (t.calls k).result = none then some (t.goOn k (t.calls k) killed) else none

/-- After boot the ring is empty. -/
def Tty.boot (buf : Nat → UInt8) : Tty := ⟨⟨buf, 0, 0, 0⟩, fun _ => ⟨0, [], none, 0⟩, 0, [], [], []⟩

/-! ## What the ring holds -/

/-- **The ring seen as two lists:** the committed bytes that are still unread and the line being edited, which
    has neither a newline nor a ^D and is empty when the ring is full. -/
structure Console.View (i : Console) (ready edit : List UInt8) : Prop where
  r_lt : i.r < 4294967296
  w_eq : i.w = (i.r + ready.length) % 4294967296
  e_eq : i.e = (i.r + (ready.length + edit.length)) % 4294967296
  len : ready.length + edit.length ≤ INPUT_BUF
  shows : Shows INPUT_BUF i.buf i.r (ready ++ edit)
  plain : ∀ b ∈ edit, b ≠ newline ∧ b ≠ ctl 'D'
  full : ready.length + edit.length = INPUT_BUF → edit = []

/-- The bytes between two indices of a ring that shows `x ++ y ++ z`. -/
theorem passed_eq {i : Console} {r : Nat} {x y z : List UInt8} (hlen : x.length + y.length ≤ INPUT_BUF)
    (hs : Shows INPUT_BUF i.buf r (x ++ (y ++ z))) :
    i.passed ((r + x.length) % 4294967296) ((r + (x.length + y.length)) % 4294967296) = y := by
  obtain ⟨-, hs⟩ := shows_append.mp hs
  obtain ⟨hs, -⟩ := shows_append.mp hs
  have hlt : (r + x.length) % 4294967296 < 4294967296 := Nat.mod_lt _ (by decide)
  have hy : y.length < 4294967296 := by simp only [INPUT_BUF] at hlen; omega
  have hb : (r + (x.length + y.length)) % 4294967296 = ((r + x.length) % 4294967296 + y.length) % 4294967296 := by
    omega
  have hs' : Shows INPUT_BUF i.buf ((r + x.length) % 4294967296) y := by
    refine hs.congr ?_
    simp only [INPUT_BUF]
    omega
  rw [Console.passed, hb, usub_advance hy hlt]
  exact hs'.eq_map.symm

namespace Console.View

variable {i : Console} {ready edit : List UInt8}

theorem length_lt (h : View i ready edit) : ready.length + edit.length < 4294967296 := by
  have := h.len
  simp only [INPUT_BUF] at this
  omega

theorem usub_w (h : View i ready edit) : usub i.w i.r = ready.length := by
  rw [h.w_eq, usub_advance (by have := h.length_lt; omega) h.r_lt]

theorem usub_e (h : View i ready edit) : usub i.e i.r = ready.length + edit.length := by
  rw [h.e_eq, usub_advance h.length_lt h.r_lt]

/-- `e` is as far ahead of `w` as the line is long. -/
theorem e_eq_w_add (h : View i ready edit) : i.e = (i.w + edit.length) % 4294967296 := by
  rw [h.e_eq, h.w_eq]
  omega

theorem usub_e_w (h : View i ready edit) : usub i.e i.w = edit.length := by
  rw [h.e_eq_w_add, usub_advance (by have := h.length_lt; omega)]
  rw [h.w_eq]
  exact Nat.mod_lt _ (by decide)

theorem e_eq_w_iff (h : View i ready edit) : i.e = i.w ↔ edit = [] := by
  rw [← List.length_eq_zero_iff, h.e_eq_w_add]
  have hlt := h.length_lt
  have hw : i.w < 4294967296 := by rw [h.w_eq]; exact Nat.mod_lt _ (by decide)
  omega

theorem r_eq_w_iff (h : View i ready edit) : i.r = i.w ↔ ready = [] := by
  rw [← List.length_eq_zero_iff, h.w_eq]
  have hlt := h.length_lt
  have hr := h.r_lt
  omega

theorem unread (h : View i ready edit) : i.unread = ready := by
  have hs := h.shows
  rw [← List.nil_append (ready ++ edit)] at hs
  have hlen : ([] : List UInt8).length + ready.length ≤ INPUT_BUF := by
    have := h.len
    rw [List.length_nil]
    omega
  have := passed_eq hlen hs
  rw [List.length_nil, Nat.add_zero, Nat.zero_add, Nat.mod_eq_of_lt h.r_lt, ← h.w_eq] at this
  exact this

theorem line (h : View i ready edit) : i.line = edit := by
  have hs := h.shows
  rw [← List.append_nil edit] at hs
  have := passed_eq h.len hs
  rwa [← h.w_eq, ← h.e_eq] at this

/-! ### Editing -/

/-- The last byte of the line is the one below `e`, and taking it off is a step of `e`. -/
theorem back {b : UInt8} (h : View i ready (edit ++ [b])) :
    i.buf (usub i.e 1 % INPUT_BUF) = b ∧ View { i with e := usub i.e 1 } ready edit := by
  have hlen := h.len
  have he := h.e_eq
  rw [List.length_append, List.length_singleton] at hlen he
  have hback : usub i.e 1 = (i.r + (ready.length + edit.length)) % 4294967296 := by
    rw [he, ← Nat.add_assoc ready.length]
    exact usub_one
  have hs := h.shows
  rw [← List.append_assoc, shows_append, shows_cons, List.length_append] at hs
  obtain ⟨hs, hb, -⟩ := hs
  constructor
  · rw [hback, Nat.mod_mod_of_dvd _ (by decide : INPUT_BUF ∣ 4294967296)]
    exact hb
  · refine ⟨h.r_lt, h.w_eq, hback, by omega, hs, fun c hc => h.plain c ?_, fun hf => ?_⟩
    · exact List.mem_append_left _ hc
    · simp only [INPUT_BUF] at *
      omega

theorem killLoop (edit : List UInt8) : ∀ {i : Console}, View i ready edit →
    View (Xv6.killLoop edit.length i) ready [] ∧ (Xv6.killLoop edit.length i).buf = i.buf ∧
      (Xv6.killLoop edit.length i).r = i.r ∧ (Xv6.killLoop edit.length i).w = i.w := by
  induction edit using List.reverseRecOn with
  | nil => exact fun h => ⟨h, rfl, rfl, rfl⟩
  | append_singleton edit b ih =>
    intro i h
    obtain ⟨hb, h'⟩ := h.back
    have hne : i.e ≠ i.w := fun he => by simpa using h.e_eq_w_iff.mp he
    have hnl : i.buf (usub i.e 1 % INPUT_BUF) ≠ newline := by
      rw [hb]
      exact (h.plain b (List.mem_append_right _ List.mem_cons_self)).1
    rw [List.length_append, List.length_singleton, Xv6.killLoop, if_pos ⟨hne, hnl⟩]
    exact ih h'

/-- Storing a byte lengthens the line, as long as there is room. -/
theorem put (h : View i ready edit) (hroom : ready.length + edit.length < INPUT_BUF) (c : UInt8) :
    (i.put c).e = (i.r + (ready.length + (edit.length + 1))) % 4294967296 ∧
      Shows INPUT_BUF (i.put c).buf i.r (ready ++ (edit ++ [c])) := by
  constructor
  · rw [Console.put, h.e_eq]
    simp only
    omega
  · have hpush := h.shows.push (b := c) (by rwa [List.length_append])
    rw [List.length_append, List.append_assoc] at hpush
    rw [Console.put, h.e_eq, Nat.mod_mod_of_dvd _ (by decide : INPUT_BUF ∣ 4294967296)]
    exact hpush

/-- Erasing shortens the line and touches nothing else. -/
theorem intrChar_erase (h : View i ready edit) {c : UInt8} (hc : Erases c) :
    ∃ edit', View (i.intrChar c) ready edit' ∧ edit'.length ≤ edit.length ∧ (i.intrChar c).buf = i.buf ∧
      (i.intrChar c).r = i.r ∧ (i.intrChar c).w = i.w := by
  have hP : c ≠ ctl 'P' := by rcases hc with rfl | rfl | rfl <;> decide
  rw [Console.intrChar, if_neg hP]
  by_cases hU : c = ctl 'U'
  · rw [if_pos hU, h.usub_e_w]
    obtain ⟨h', hbuf, hr, hw⟩ := h.killLoop
    exact ⟨[], h', Nat.zero_le _, hbuf, hr, hw⟩
  · have hH : c = ctl 'H' ∨ c = 0x7f := by rcases hc with hc | hc | hc <;> simp_all
    rw [if_neg hU, if_pos hH]
    by_cases he : i.e = i.w
    · rw [if_neg (not_not.mpr he)]
      exact ⟨edit, h, Nat.le_refl _, rfl, rfl, rfl⟩
    · rw [if_pos he]
      rcases List.eq_nil_or_concat edit with hnil | ⟨l, b, rfl⟩
      · exact absurd (h.e_eq_w_iff.mpr hnil) he
      · rw [List.concat_eq_append] at h ⊢
        exact ⟨l, h.back.2, by rw [List.length_append]; omega, rfl, rfl, rfl⟩

/-- Any other character is dropped, or its byte lengthens the line or commits it. -/
theorem intrChar_store (h : View i ready edit) {c : UInt8} (hc : ¬ Erases c) :
    (i.Drops c ∧ i.intrChar c = i) ∨
      (¬ i.Drops c ∧ (i.intrChar c).r = i.r ∧
        (View (i.intrChar c) ready (edit ++ [typed c]) ∨
          (View (i.intrChar c) (ready ++ (edit ++ [typed c])) [] ∧
            (typed c = newline ∨ typed c = ctl 'D' ∨ (ready ++ (edit ++ [typed c])).length = INPUT_BUF)))) := by
  rw [Erases, not_or] at hc
  rw [Console.intrChar, if_neg hc.1, if_neg hc.2]
  by_cases hP : c = ctl 'P'
  · rw [if_pos hP]
    exact .inl ⟨.inl hP, rfl⟩
  rw [if_neg hP]
  by_cases hroom : c ≠ 0 ∧ usub i.e i.r < INPUT_BUF
  swap
  · rw [if_neg hroom]
    exact .inl ⟨.inr hroom, rfl⟩
  rw [if_pos hroom]
  have hlen : ready.length + edit.length < INPUT_BUF := by
    rw [← h.usub_e]
    exact hroom.2
  rw [← typed]
  have hkept : ¬ i.Drops c := not_or.mpr ⟨hP, not_not.mpr hroom⟩
  generalize typed c = b
  obtain ⟨he, hs⟩ := h.put hlen b
  have hr := h.r_lt
  -- the third condition is that the ring is now full
  have hfull : (i.put b).e = ((i.put b).r + INPUT_BUF) % 4294967296 ↔
      (ready ++ (edit ++ [b])).length = INPUT_BUF := by
    rw [he, List.length_append, List.length_append, List.length_singleton]
    simp only [Console.put, INPUT_BUF] at *
    omega
  refine .inr ⟨hkept, by dsimp only; split <;> rfl, ?_⟩
  dsimp only
  by_cases hcommit : b = newline ∨ b = ctl 'D' ∨ (i.put b).e = ((i.put b).r + INPUT_BUF) % 4294967296
  · rw [if_pos hcommit, ← hfull]
    refine .inr ⟨⟨hr, ?_, ?_, ?_, ?_, fun _ hb => absurd hb List.not_mem_nil, fun _ => rfl⟩, hcommit⟩
    · rw [he, List.length_append, List.length_append, List.length_singleton]
      rfl
    · rw [he, List.length_append, List.length_append, List.length_singleton]
      rfl
    · rw [List.length_append, List.length_append, List.length_singleton, List.length_nil]
      omega
    · rw [List.append_nil]
      exact hs
  · rw [if_neg hcommit]
    rw [not_or, not_or, hfull] at hcommit
    obtain ⟨hnl, hD, hnf⟩ := hcommit
    rw [List.length_append, List.length_append, List.length_singleton] at hnf
    refine .inl ⟨hr, h.w_eq, ?_, ?_, hs, fun x hx => ?_, fun hf => ?_⟩
    · rw [he, List.length_append, List.length_singleton]
      rfl
    · rw [List.length_append, List.length_singleton]
      omega
    · rcases List.mem_append.mp hx with hx | hx
      · exact h.plain x hx
      · rw [List.mem_singleton.mp hx]
        exact ⟨hnl, hD⟩
    · rw [List.length_append, List.length_singleton] at hf
      exact absurd hf hnf

/-- An interrupt leaves `r`, and what was unread stays unread, in front of what is committed now. -/
theorem consoleintr (h : View i ready edit) (cs : List UInt8) :
    (consoleintr i cs).r = i.r ∧ ∃ new edit', View (Xv6.consoleintr i cs) (ready ++ new) edit' := by
  induction cs generalizing i ready edit with
  | nil => exact ⟨rfl, [], edit, by rwa [List.append_nil]⟩
  | cons c cs ih =>
    have hone : (i.intrChar c).r = i.r ∧ ∃ new edit', View (i.intrChar c) (ready ++ new) edit' := by
      by_cases hc : Erases c
      · obtain ⟨edit', h', -, -, hr, -⟩ := h.intrChar_erase hc
        exact ⟨hr, [], edit', by rwa [List.append_nil]⟩
      · rcases h.intrChar_store hc with ⟨-, he⟩ | ⟨-, hr, h' | ⟨h', -⟩⟩
        · rw [he]
          exact ⟨rfl, [], edit, by rwa [List.append_nil]⟩
        · exact ⟨hr, [], edit ++ [typed c], by rwa [List.append_nil]⟩
        · exact ⟨hr, edit ++ [typed c], [], h'⟩
    obtain ⟨hr, new, edit', h'⟩ := hone
    obtain ⟨hr', new', edit'', h''⟩ := ih h'
    refine ⟨hr'.trans hr, new ++ new', edit'', ?_⟩
    rw [← List.append_assoc]
    exact h''

/-! ### Reading -/

/-- Taking the first unread byte is a step of `r`. -/
theorem take {c : UInt8} (h : View i (c :: ready) edit) :
    i.buf (i.r % INPUT_BUF) = c ∧ View { i with r := (i.r + 1) % 4294967296 } ready edit := by
  have hlen := h.len
  have hw := h.w_eq
  have he := h.e_eq
  rw [List.length_cons] at hlen hw he
  have hs := h.shows
  rw [List.cons_append, shows_cons] at hs
  refine ⟨hs.1, Nat.mod_lt _ (by decide), ?_, ?_, by omega, ?_, h.plain, fun hf => ?_⟩
  · rw [hw]
    simp only
    omega
  · rw [he]
    simp only
    omega
  · exact hs.2.congr (Nat.mod_mod_of_dvd _ (by decide : INPUT_BUF ∣ 4294967296))
  · simp only [INPUT_BUF] at *
    omega

end Console.View

/-- **A stretch of `consoleread`** that may store `n` more bytes takes `t` from the ring, leaves `rest` and stores
    `bytes`. -/
structure Stretch (target n : Nat) (t rest bytes : List UInt8) (fin : ReadEnd) : Prop where
  bytes_eq : bytes = t.filter (· ≠ ctl 'D')
  length_le : bytes.length ≤ n
  /-- A ^D is taken only alone, by a call that has stored nothing. -/
  eof : ctl 'D' ∈ t → t = [ctl 'D'] ∧ n = target ∧ fin = .returned
  /-- A newline is the last byte stored, and the call returns. -/
  newline_last : newline ∉ bytes.dropLast
  newline_ends : newline ∈ bytes → fin = .returned
  ends : fin = .returned →
    bytes.length = n ∨ newline ∈ bytes ∨ (n - bytes.length < target ∧ rest.head? = some (ctl 'D')) ∨ t = [ctl 'D']
  waits : fin ≠ .returned → bytes.length < n

theorem Stretch.cons {target n : Nat} {t rest bytes : List UInt8} {fin : ReadEnd} {c : UInt8}
    (h : Stretch target n t rest bytes fin) (hn : n < target) (hD : c ≠ ctl 'D') (hnl : c ≠ newline) :
    Stretch target (n + 1) (c :: t) rest (c :: bytes) fin := by
  have hne : ctl 'D' ∉ t := fun hm => by
    have := (h.eof hm).2.1
    omega
  refine ⟨?_, ?_, ?_, ?_, ?_, ?_, ?_⟩
  · rw [List.filter_cons_of_pos (by simpa using hD), ← h.bytes_eq]
  · rw [List.length_cons]
    exact Nat.succ_le_succ h.length_le
  · intro hm
    rcases List.mem_cons.mp hm with rfl | hm
    · exact absurd rfl hD
    · exact absurd hm hne
  · cases hb : bytes with
    | nil => simp
    | cons b l =>
      rw [List.dropLast_cons_of_ne_nil (List.cons_ne_nil _ _), List.mem_cons, not_or, ← hb]
      exact ⟨fun he => hnl he.symm, h.newline_last⟩
  · intro hm
    rcases List.mem_cons.mp hm with he | hm
    · exact absurd he.symm hnl
    · exact h.newline_ends hm
  · intro hf
    rw [List.length_cons]
    rcases h.ends hf with h1 | h1 | ⟨h1, h2⟩ | h1
    · exact .inl (by omega)
    · exact .inr (.inl (List.mem_cons_of_mem _ h1))
    · exact .inr (.inr (.inl ⟨by omega, h2⟩))
    · exact absurd (by rw [h1]; exact List.mem_cons_self) hne
  · intro hf
    rw [List.length_cons]
    exact Nat.succ_lt_succ (h.waits hf)

/-- What the loop of `consoleread` does to a ring. -/
theorem Console.View.readLoop {edit : List UInt8} (killed : Bool) (target n : Nat) :
    ∀ {i : Console} {ready : List UInt8}, View i ready edit → n ≤ target →
    ∃ t rest, ready = t ++ rest ∧ View (readLoop killed target n i).1 rest edit ∧
      (Xv6.readLoop killed target n i).1.buf = i.buf ∧
      (Xv6.readLoop killed target n i).1.r = (i.r + t.length) % 4294967296 ∧
      Stretch target n t rest (Xv6.readLoop killed target n i).2.1 (Xv6.readLoop killed target n i).2.2 := by
  induction n with
  | zero =>
    intro i ready h _
    rw [Xv6.readLoop]
    refine ⟨[], ready, rfl, h, rfl, (Nat.mod_eq_of_lt h.r_lt).symm, rfl, Nat.le_refl _, by simp, by simp, by simp,
      fun _ => .inl rfl, by simp⟩
  | succ n ih =>
    intro i ready h hn
    rw [Xv6.readLoop]
    by_cases hrw : i.r = i.w
    · obtain rfl := h.r_eq_w_iff.mp hrw
      rw [if_pos hrw]
      refine ⟨[], [], rfl, h, rfl, (Nat.mod_eq_of_lt h.r_lt).symm, rfl, Nat.zero_le _, by simp, by simp, by simp, ?_,
        fun _ => Nat.succ_pos _⟩
      cases killed <;> simp
    · rw [if_neg hrw]
      cases ready with
      | nil => exact absurd (h.r_eq_w_iff.mpr rfl) hrw
      | cons c ready =>
        obtain ⟨hc, h'⟩ := h.take
        dsimp only
        rw [hc]
        by_cases hD : c = ctl 'D'
        · subst hD
          rw [if_pos rfl]
          by_cases hlt : n + 1 < target
          · -- the ^D is put back
            rw [if_pos hlt, usub_succ h.r_lt]
            refine ⟨[], _, rfl, h, rfl, (Nat.mod_eq_of_lt h.r_lt).symm, rfl, Nat.zero_le _, by simp, by simp, by simp,
              fun _ => ?_, by simp⟩
            exact .inr (.inr (.inl ⟨hlt, rfl⟩))
          · rw [if_neg hlt]
            refine ⟨[ctl 'D'], ready, rfl, h', rfl, rfl, by simp, Nat.zero_le _, ?_, by simp, by simp, ?_, by simp⟩
            · exact fun _ => ⟨rfl, by omega, rfl⟩
            · exact fun _ => .inr (.inr (.inr rfl))
        · rw [if_neg hD]
          by_cases hnl : c = newline
          · subst hnl
            rw [if_pos rfl]
            refine ⟨[newline], ready, rfl, h', rfl, rfl, rfl, by simp, ?_, by simp, by simp, ?_, by simp⟩
            · intro hm
              exact absurd (List.mem_singleton.mp hm).symm hD
            · exact fun _ => .inr (.inl List.mem_cons_self)
          · rw [if_neg hnl]
            obtain ⟨t, rest, rfl, hv, hbuf, hr, hst⟩ := ih h' (by omega)
            refine ⟨c :: t, rest, rfl, hv, hbuf, ?_, hst.cons (by omega) hD hnl⟩
            rw [hr, List.length_cons, Nat.mod_add_mod, Nat.add_assoc, Nat.add_comm 1]

/-! ## The discipline -/

/-- What a call has done, against the histories. -/
structure CallOk (t : Tty) (k : Nat) : Prop where
  size : 0 < (t.calls k).target ∧ (t.calls k).got.length ≤ (t.calls k).target
  /-- The bytes stored for this call, in order. -/
  got : (t.calls k).got = (t.stored.filter (·.1 = k)).map Prod.snd
  newline_last : newline ∉ (t.calls k).got.dropLast
  asleep : (t.calls k).result = none →
    newline ∉ (t.calls k).got ∧ (t.calls k).got.length < (t.calls k).target
  /-- A call that is not killed returns what it stored, and ends at its size, after a newline or at a ^D: its
      own, the last byte taken, when it stored nothing, and else one that is left for the next call. -/
  ends : ∀ v, (t.calls k).result = some v → v = -1 ∨
    (v = (t.calls k).got.length ∧
      ((t.calls k).got.length = (t.calls k).target ∨ newline ∈ (t.calls k).got ∨
        ((t.calls k).got = [] ∧ t.taken[(t.calls k).stop - 1]? = some (k, ctl 'D')) ∨
        ((t.calls k).got ≠ [] ∧ t.committed[(t.calls k).stop]? = some (ctl 'D'))))
  /-- A ^D is one 0-byte read. -/
  eof : (t.calls k).result = some 0 ↔ (k, ctl 'D') ∈ t.taken

/-- **The line discipline**, at any moment. -/
structure Discipline (t : Tty) : Prop where
  order : usub t.input.w t.input.r ≤ usub t.input.e t.input.r ∧ usub t.input.e t.input.r ≤ INPUT_BUF
  /-- Erasing moves only `e`, and not below `w`. -/
  erases : ∀ c, Erases c → (t.input.intrChar c).buf = t.input.buf ∧ (t.input.intrChar c).r = t.input.r ∧
    (t.input.intrChar c).w = t.input.w ∧ usub (t.input.intrChar c).e t.input.w ≤ usub t.input.e t.input.w
  /-- Any other character is dropped, or put at the end of the line. -/
  appends : ∀ c, ¬ Erases c → (t.input.intrChar c).r = t.input.r ∧
    (t.input.intrChar c).unread ++ (t.input.intrChar c).line =
      t.input.unread ++ t.input.line ++ if t.input.Drops c then [] else [typed c]
  /-- Whatever is typed commits only up to a newline, a ^D or a full ring, -/
  commits : ∀ c, (t.input.intrChar c).w ≠ t.input.w → (t.input.intrChar c).w = (t.input.intrChar c).e ∧
    ((∃ l, (t.input.intrChar c).unread = l ++ [newline]) ∨ (∃ l, (t.input.intrChar c).unread = l ++ [ctl 'D']) ∨
      usub (t.input.intrChar c).e (t.input.intrChar c).r = INPUT_BUF)
  /-- and these are always committed. -/
  line : (∀ b ∈ t.input.line, b ≠ newline ∧ b ≠ ctl 'D') ∧
    (usub t.input.e t.input.r = INPUT_BUF → t.input.line = [])
  /-- The bytes taken are the committed ones, in order, up to those still unread, -/
  fifo : t.committed = t.taken.map Prod.snd ++ t.input.unread
  /-- and all of them but ^D are delivered. -/
  stored : t.stored = t.taken.filter (·.2 ≠ ctl 'D')
  calls : ∀ k < t.begun, CallOk t k
  /-- No call takes two ^D. -/
  eof : ((t.taken.filter (·.2 = ctl 'D')).map Prod.fst).Nodup

/-- The invariant behind it. -/
structure Tty.Inv (t : Tty) (ready edit : List UInt8) : Prop where
  view : t.input.View ready edit
  fifo : t.committed = t.taken.map Prod.snd ++ ready
  stored : t.stored = t.taken.filter (·.2 ≠ ctl 'D')
  known : ∀ x ∈ t.taken, x.1 < t.begun
  calls : ∀ k < t.begun, CallOk t k
  eof : ((t.taken.filter (·.2 = ctl 'D')).map Prod.fst).Nodup

theorem Tty.Inv.boot (buf : Nat → UInt8) : (Tty.boot buf).Inv [] [] where
  view := ⟨(by decide : (0 : Nat) < 4294967296), rfl, rfl, by decide, shows_nil, by simp, by simp⟩
  fifo := rfl
  stored := rfl
  known := by simp [Tty.boot]
  calls := by simp [Tty.boot]
  eof := by simp [Tty.boot]

/-- What a call has done stays done while others go on. -/
theorem CallOk.grow {t t' : Tty} {k : Nat} (h : CallOk t k) (hcall : t'.calls k = t.calls k)
    {T S : List (Nat × UInt8)} {C : List UInt8} (ht : t'.taken = t.taken ++ T) (hs : t'.stored = t.stored ++ S)
    (hc : t'.committed = t.committed ++ C) (hT : ∀ x ∈ T, x.1 ≠ k) (hS : ∀ x ∈ S, x.1 ≠ k) : CallOk t' k := by
  have hSk : S.filter (·.1 = k) = [] := List.filter_eq_nil_iff.mpr fun x hx => by simpa using hS x hx
  refine ⟨?_, ?_, ?_, ?_, ?_, ?_⟩
  · rw [hcall]
    exact h.size
  · rw [hcall, hs, List.filter_append, hSk, List.append_nil]
    exact h.got
  · rw [hcall]
    exact h.newline_last
  · rw [hcall]
    exact h.asleep
  · intro v hv
    rw [hcall] at hv ⊢
    rcases h.ends v hv with hk | ⟨hv', h1 | h1 | ⟨h1, h2⟩ | ⟨h1, h2⟩⟩
    · exact .inl hk
    · exact .inr ⟨hv', .inl h1⟩
    · exact .inr ⟨hv', .inr (.inl h1)⟩
    · refine .inr ⟨hv', .inr (.inr (.inl ⟨h1, ?_⟩))⟩
      rw [ht, List.getElem?_append_left (List.getElem?_eq_some_iff.mp h2).1]
      exact h2
    · refine .inr ⟨hv', .inr (.inr (.inr ⟨h1, ?_⟩))⟩
      rw [hc, List.getElem?_append_left (List.getElem?_eq_some_iff.mp h2).1]
      exact h2
  · rw [hcall, h.eof, ht, List.mem_append]
    exact ⟨.inl, fun hm => hm.resolve_right fun hx => hT _ hx rfl⟩

theorem Tty.Inv.type {t : Tty} {ready edit : List UInt8} (h : t.Inv ready edit) (cs : List UInt8) :
    ∃ ready' edit', (t.type cs).Inv ready' edit' := by
  obtain ⟨hr, new, edit', hv⟩ := h.view.consoleintr cs
  -- `w` passes exactly the bytes that are new in front of the unread ones
  have hnew : (consoleintr t.input cs).passed t.input.w (consoleintr t.input cs).w = new := by
    have hs := hv.shows
    have hlen := hv.len
    rw [List.append_assoc] at hs
    rw [List.length_append] at hlen
    have hp := passed_eq (by omega) hs
    rwa [hr, ← h.view.w_eq, ← hr, ← List.length_append, ← hv.w_eq] at hp
  have hcommit : (t.type cs).committed = t.committed ++ new := by rw [← hnew]; rfl
  refine ⟨ready ++ new, edit', hv, ?_, h.stored, h.known, fun k hk => ?_, h.eof⟩
  · rw [hcommit, h.fifo, List.append_assoc]
    rfl
  · exact (h.calls k hk).grow (T := []) (S := []) rfl (List.append_nil _).symm (List.append_nil _).symm hcommit
      (by simp) (by simp)

/-- What a stretch makes of the call that runs it: `t'` is `t` after the stretch. -/
theorem CallOk.stretch {t t' : Tty} {k : Nat} {c : ReadCall} {T rest bytes : List UInt8} {fin : ReadEnd}
    (hst : Stretch c.target (c.target - c.got.length) T rest bytes fin)
    (hlt : c.got.length < c.target) (hnl : newline ∉ c.got)
    (hgot : c.got = (t.stored.filter (·.1 = k)).map Prod.snd) (heof : (k, ctl 'D') ∉ t.taken)
    (htaken : t'.taken = t.taken ++ T.map (Prod.mk k)) (hstored : t'.stored = t.stored ++ bytes.map (Prod.mk k))
    (hfifo : t'.committed = t'.taken.map Prod.snd ++ rest)
    (hcall : t'.calls k = ⟨c.target, c.got ++ bytes, fin.result (c.got ++ bytes).length, t'.taken.length⟩) :
    CallOk t' k := by
  have hlen := hst.length_le
  have hown : (bytes.map (Prod.mk k)).filter (·.1 = k) = bytes.map (Prod.mk k) :=
    List.filter_eq_self.mpr fun x hx => by
      obtain ⟨b, -, rfl⟩ := List.mem_map.mp hx
      simp
  -- a taken ^D is this call's only byte
  have hD : ctl 'D' ∈ T → T = [ctl 'D'] ∧ c.got ++ bytes = [] ∧ fin = .returned := by
    intro hm
    obtain ⟨hT, hn, hf⟩ := hst.eof hm
    have hbytes := hst.bytes_eq
    rw [hT] at hbytes
    have hnil : c.got = [] := List.length_eq_zero_iff.mp (by omega)
    exact ⟨hT, by rw [hnil, hbytes]; simp, hf⟩
  have hlast : ∀ b, newline ∈ b → b = bytes → newline ∈ c.got ++ bytes := fun b hb he =>
    List.mem_append_right _ (he ▸ hb)
  have hends : fin = .returned → (c.got ++ bytes).length = c.target ∨ newline ∈ c.got ++ bytes ∨
      (c.got ++ bytes = [] ∧ T = [ctl 'D']) ∨ (c.got ++ bytes ≠ [] ∧ rest.head? = some (ctl 'D')) := by
    intro hf
    rw [List.length_append]
    rcases hst.ends hf with h1 | h1 | ⟨h1, h2⟩ | h1
    · exact .inl (by omega)
    · exact .inr (.inl (hlast _ h1 rfl))
    · refine .inr (.inr (.inr ⟨fun hnil => ?_, h2⟩))
      have := congrArg List.length hnil
      rw [List.length_append, List.length_nil] at this
      omega
    · obtain ⟨-, hnil, -⟩ := hD (by rw [h1]; exact List.mem_cons_self)
      exact .inr (.inr (.inl ⟨hnil, h1⟩))
  refine ⟨?_, ?_, ?_, ?_, ?_, ?_⟩ <;> rw [hcall] <;> dsimp only
  · refine ⟨by omega, ?_⟩
    rw [List.length_append]
    omega
  · rw [hstored, List.filter_append, hown, List.map_append, ← hgot, List.map_map]
    simp
  · by_cases hb : bytes = []
    · rw [hb, List.append_nil]
      exact fun hm => hnl (List.dropLast_subset _ hm)
    · rw [List.dropLast_append_of_ne_nil hb, List.mem_append, not_or]
      exact ⟨hnl, hst.newline_last⟩
  · intro hnone
    have hf : fin ≠ .returned := by
      rintro rfl
      cases hnone
    refine ⟨?_, ?_⟩
    · rw [List.mem_append, not_or]
      exact ⟨hnl, fun hm => hf (hst.newline_ends hm)⟩
    · have := hst.waits hf
      rw [List.length_append]
      omega
  · intro v hv
    cases fin with
    | sleeps => cases hv
    | killed => exact .inl (Option.some.inj hv).symm
    | returned =>
      refine .inr ⟨(Option.some.inj hv).symm, ?_⟩
      rcases hends rfl with h1 | h1 | ⟨h1, h2⟩ | ⟨h1, h2⟩
      · exact .inl h1
      · exact .inr (.inl h1)
      · refine .inr (.inr (.inl ⟨h1, ?_⟩))
        rw [htaken, h2, List.map_singleton, List.length_append, List.length_singleton, Nat.add_sub_cancel]
        exact List.getElem?_concat_length
      · refine .inr (.inr (.inr ⟨h1, ?_⟩))
        rw [hfifo, List.getElem?_append_right (by rw [List.length_map]), List.length_map, Nat.sub_self,
          ← List.head?_eq_getElem?]
        exact h2
  · rw [htaken, List.mem_append]
    constructor
    · intro hv
      have hf : fin = .returned := by
        cases fin with
        | returned => rfl
        | sleeps => cases hv
        | killed => cases hv
      subst hf
      have hz : (c.got ++ bytes).length = 0 := Int.ofNat_inj.mp (Option.some.inj hv)
      have hnil := List.length_eq_zero_iff.mp hz
      rcases hends rfl with h1 | h1 | ⟨-, h2⟩ | ⟨h1, -⟩
      · omega
      · rw [hnil] at h1
        cases h1
      · exact .inr (by rw [h2]; exact List.mem_cons_self)
      · exact absurd hnil h1
    · intro hm
      rcases hm with hm | hm
      · exact absurd hm heof
      · obtain ⟨b, hb, he⟩ := List.mem_map.mp hm
        obtain rfl : b = ctl 'D' := congrArg Prod.snd he
        obtain ⟨-, hnil, rfl⟩ := hD hb
        rw [hnil]
        rfl

/-- A stretch of call `k`, which is new or has been asleep. -/
theorem Tty.Inv.goOn {t : Tty} {ready edit : List UInt8} (h : t.Inv ready edit) {k begun : Nat} {c : ReadCall}
    (killed : Bool) (hk : k < begun) (hbegun : t.begun ≤ begun) (hothers : ∀ j < begun, j ≠ k → j < t.begun)
    (hlt : c.got.length < c.target) (hnl : newline ∉ c.got)
    (hgot : c.got = (t.stored.filter (·.1 = k)).map Prod.snd) (heof : (k, ctl 'D') ∉ t.taken) :
    ∃ ready', Tty.Inv { t.goOn k c killed with begun := begun } ready' edit := by
  obtain ⟨T, rest, rfl, hv, hbuf, hr, hst⟩ :=
    h.view.readLoop killed c.target (c.target - c.got.length) (Nat.sub_le _ _)
  have hpassed : t.input.passed t.input.r (readLoop killed c.target (c.target - c.got.length) t.input).1.r = T := by
    have hs := h.view.shows
    have hlen := h.view.len
    rw [List.append_assoc, ← List.nil_append (T ++ (rest ++ edit))] at hs
    rw [List.length_append] at hlen
    have hp := passed_eq (by rw [List.length_nil]; omega) hs
    rw [List.length_nil, Nat.add_zero, Nat.zero_add, Nat.mod_eq_of_lt h.view.r_lt] at hp
    rw [hr]
    exact hp
  have htaken : (t.goOn k c killed).taken = t.taken ++ T.map (Prod.mk k) := by rw [← hpassed]; rfl
  have hfifo : t.committed = (t.goOn k c killed).taken.map Prod.snd ++ rest := by
    rw [htaken, h.fifo, List.map_append, List.map_map, List.append_assoc]
    simp
  refine ⟨rest, hv, hfifo, ?_, ?_, fun j hj => ?_, ?_⟩
  · dsimp only
    rw [htaken, List.filter_append, ← h.stored, List.filter_map]
    exact congrArg (fun l => t.stored ++ l.map (Prod.mk k)) hst.bytes_eq
  · intro x hx
    dsimp only at hx ⊢
    rw [htaken] at hx
    rcases List.mem_append.mp hx with hx | hx
    · exact Nat.lt_of_lt_of_le (h.known x hx) hbegun
    · obtain ⟨b, -, rfl⟩ := List.mem_map.mp hx
      exact hk
  · by_cases hjk : j = k
    · subst hjk
      refine CallOk.stretch hst hlt hnl hgot heof htaken rfl hfifo ?_
      dsimp only [Tty.goOn]
      rw [Function.update_self]
    · refine (h.calls j (hothers j hj hjk)).grow ?_ htaken rfl (List.append_nil _).symm ?_ ?_
      · dsimp only [Tty.goOn]
        rw [Function.update_of_ne hjk]
      · intro x hx
        obtain ⟨b, -, rfl⟩ := List.mem_map.mp hx
        exact fun he => hjk he.symm
      · intro x hx
        obtain ⟨b, -, rfl⟩ := List.mem_map.mp hx
        exact fun he => hjk he.symm
  · dsimp only
    rw [htaken, List.filter_append, List.map_append, List.nodup_append]
    refine ⟨h.eof, ?_, ?_⟩
    · by_cases hm : ctl 'D' ∈ T
      · rw [(hst.eof hm).1]
        simp
      · rw [List.filter_eq_nil_iff.mpr]
        · simp
        · intro x hx
          obtain ⟨b, hb, rfl⟩ := List.mem_map.mp hx
          have hne : b ≠ ctl 'D' := fun he => hm (he ▸ hb)
          simpa using hne
    · intro a ha b hb hab
      subst hab
      obtain ⟨x, hx, rfl⟩ := List.mem_map.mp ha
      obtain ⟨y, hy, hyx⟩ := List.mem_map.mp hb
      obtain ⟨hx1, hx2⟩ := List.mem_filter.mp hx
      obtain ⟨z, -, rfl⟩ := List.mem_map.mp (List.mem_filter.mp hy).1
      refine heof ?_
      have hxD : x.2 = ctl 'D' := by simpa using hx2
      rw [show (k, ctl 'D') = x from Prod.ext hyx hxD.symm]
      exact hx1

theorem Tty.Inv.step {t t' : Tty} {e : TtyEvent} {ready edit : List UInt8} (h : t.Inv ready edit)
    (he : ttyStep t e = some t') : ∃ ready' edit', t'.Inv ready' edit' := by
  cases e with
  | type cs =>
    cases he
    exact h.type cs
  | read n killed =>
    rw [ttyStep] at he
    split at he
    case isTrue hn =>
      cases he
      have hnone : t.stored.filter (·.1 = t.begun) = [] := List.filter_eq_nil_iff.mpr fun x hx => by
        rw [h.stored] at hx
        have := h.known x (List.mem_of_mem_filter hx)
        simp only [decide_eq_true_eq]
        omega
      obtain ⟨ready', h'⟩ := h.goOn (c := ⟨n, [], none, 0⟩) killed (Nat.lt_succ_self t.begun) (Nat.le_succ _)
        (fun j hj hne => by omega) hn.1 List.not_mem_nil (by rw [hnone]; rfl)
        fun hm => absurd (h.known _ hm) (Nat.lt_irrefl _)
      exact ⟨ready', edit, h'⟩
    case isFalse => cases he
  | wake k killed =>
    rw [ttyStep] at he
    split at he
    case isTrue hk =>
      cases he
      have hc := h.calls k hk.1
      obtain ⟨hnl, hlt⟩ := hc.asleep hk.2
      obtain ⟨ready', h'⟩ := h.goOn (c := t.calls k) killed hk.1 (Nat.le_refl _) (fun j hj _ => hj) hlt hnl hc.got
        fun hm => by
          rw [hc.eof.mpr hm] at hk
          cases hk.2
      exact ⟨ready', edit, h'⟩
    case isFalse => cases he

theorem Tty.Inv.discipline {t : Tty} {ready edit : List UInt8} (h : t.Inv ready edit) : Discipline t where
  order := by
    rw [h.view.usub_w, h.view.usub_e]
    exact ⟨Nat.le_add_right _ _, h.view.len⟩
  erases := by
    intro c hc
    obtain ⟨edit', h', hle, hbuf, hr, hw⟩ := h.view.intrChar_erase hc
    refine ⟨hbuf, hr, hw, ?_⟩
    have := h'.usub_e_w
    rw [hw] at this
    rw [this, h.view.usub_e_w]
    exact hle
  appends := by
    intro c hc
    rw [h.view.unread, h.view.line]
    rcases h.view.intrChar_store hc with ⟨hdrop, he⟩ | ⟨hkept, hr, h' | ⟨h', -⟩⟩
    · rw [he, if_pos hdrop, h.view.unread, h.view.line, List.append_nil]
      exact ⟨rfl, rfl⟩
    · rw [if_neg hkept, h'.unread, h'.line, List.append_assoc]
      exact ⟨hr, rfl⟩
    · rw [if_neg hkept, h'.unread, h'.line, List.append_nil, List.append_assoc]
      exact ⟨hr, rfl⟩
  commits := by
    intro c hw
    have hc : ¬ Erases c := fun hc => by
      obtain ⟨edit', -, -, -, -, hw'⟩ := h.view.intrChar_erase hc
      exact hw hw'
    rcases h.view.intrChar_store hc with ⟨-, he⟩ | ⟨-, hr, h' | ⟨h', hb⟩⟩
    · exact absurd (by rw [he]) hw
    · -- the line is longer, `w` is where it was
      refine absurd ?_ hw
      rw [h'.w_eq, h.view.w_eq, hr]
    · refine ⟨(h'.e_eq_w_iff.mpr rfl).symm, ?_⟩
      rw [h'.unread, h'.usub_e, List.length_nil, Nat.add_zero]
      rcases hb with hb | hb | hf
      · exact .inl ⟨ready ++ edit, by rw [hb, List.append_assoc]⟩
      · exact .inr (.inl ⟨ready ++ edit, by rw [hb, List.append_assoc]⟩)
      · exact .inr (.inr hf)
  line := by
    rw [h.view.line, h.view.usub_e]
    exact ⟨h.view.plain, h.view.full⟩
  fifo := by
    rw [h.view.unread]
    exact h.fifo
  stored := h.stored
  calls := h.calls
  eof := h.eof

/-- **The console's line discipline** holds in every run: whatever is typed, in whatever order processes call
    `consoleread` and come out of `sleep`, and however often the indices wrap around. -/
theorem console_discipline {buf : Nat → UInt8} {events : List TtyEvent} {t : Tty}
    (hrun : run ttyStep (Tty.boot buf) events = some t) : Discipline t := by
  have hinv : ∃ ready edit, t.Inv ready edit :=
    run_invariant (I := fun t => ∃ ready edit, t.Inv ready edit) ⟨[], [], .boot buf⟩
      (fun _ _ _ ⟨_, _, h⟩ he => h.step he) hrun
  obtain ⟨ready, edit, h⟩ := hinv
  exact h.discipline

/-- A character erased, a line read in two calls, and a ^D. -/
def twoCalls : List TtyEvent :=
  [.read 2 false, .type [97, 98, 8, 99, 13], .wake 0 false, .read 9 false, .type [4], .read 9 false]

theorem console_discipline_twoCalls : ∃ t : Tty, run ttyStep (Tty.boot fun _ => 0) twoCalls = some t ∧
    (t.calls 0).got = [97, 99] ∧ (t.calls 1).got = [10] ∧ (t.calls 2).result = some 0 ∧ Discipline t := by
  have hout : (run ttyStep (Tty.boot fun _ => 0) twoCalls).map
      (fun t => ((t.calls 0).got, (t.calls 1).got, (t.calls 2).result)) = some ([97, 99], [10], some 0) := by
    decide +kernel
  obtain ⟨t, ht, hval⟩ := Option.map_eq_some_iff.mp hout
  simp only [Prod.mk.injEq] at hval
  exact ⟨t, ht, hval.1, hval.2.1, hval.2.2, console_discipline ht⟩

end Xv6
