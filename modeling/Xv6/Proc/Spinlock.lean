import Mathlib.Data.List.Basic
import Xv6.Lib.Hoare
import Xv6.Lib.Machine

/-!
# `Proc.Spinlock` — spin locks and the interrupt flag of one CPU (`kernel/spinlock.c`)

`acquire` and `release` nest through `pushcli` and `popcli`: the CPU counts in `ncli` how many of them are open and keeps in
`intena` what the interrupt flag was before the first. The locks are shared with other CPUs, whose steps are events of
their own; they never touch a lock that this CPU holds. Other code of this CPU may set or clear the flag while nothing
is open.
-/

namespace Xv6

open Hoare Machine

/-! ## The code -/

/-- `struct spinlock`: whether it is locked, and by which CPU. -/
structure Spinlock (C : Type) where
  locked : Bool
  cpu : Option C
deriving DecidableEq

/-- This CPU's interrupt flag, its two fields of `struct cpu`, and the locks. -/
structure SpinCpu (C L : Type) where
  flagIf : Bool
  ncli : Int
  intena : Bool
  lock : L → Spinlock C

inductive SpinPanic where
  | acquire
  | release
  | interruptible
  | popcli
deriving DecidableEq

abbrev SpinM (C L : Type) := Prog (SpinCpu C L) SpinPanic

/-- An `int` after an addition or subtraction. -/
def wrapInt (x : Int) : Int := (x + 2147483648) % 4294967296 - 2147483648

section Code

variable {C L : Type} [DecidableEq C] [DecidableEq L] (me : C)

def pushcli : SpinM C L Unit := do
  let eflags := (← get).flagIf
  modify fun s => { s with flagIf := false }
  let ncli := (← get).ncli
  modify fun s => { s with ncli := wrapInt (ncli + 1) }
  if ncli = 0 then modify fun s => { s with intena := eflags }

def popcli : SpinM C L Unit := do
  if (← get).flagIf then throw .interruptible
  else do
    modify fun s => { s with ncli := wrapInt (s.ncli - 1) }
    if (← get).ncli < 0 then throw .popcli
    else if (← get).ncli = 0 ∧ (← get).intena = true then modify fun s => { s with flagIf := true }

/-- Check whether this CPU is holding the lock. -/
def holding (s : SpinCpu C L) (lk : L) : Bool := (s.lock lk).locked && decide ((s.lock lk).cpu = some me)

/-- `acquire(lk)`, of a lock that no other CPU has: until then it spins. -/
def acquire (lk : L) : SpinM C L Unit := do
  pushcli
  if holding me (← get) lk then throw .acquire
  else modify fun s => { s with lock := Function.update s.lock lk ⟨true, some me⟩ }

def release (lk : L) : SpinM C L Unit := do
  if holding me (← get) lk then do
    modify fun s => { s with lock := Function.update s.lock lk ⟨false, none⟩ }
    popcli
  else throw .release

end Code

/-! ## The machine -/

/-- What happens next. -/
inductive SpinEvent (C L : Type) where
  | acquire (lk : L)
  | release (lk : L)
  | pushcli
  | popcli
  /-- Other code of this CPU sets or clears the interrupt flag. -/
  | flag (b : Bool)
  /-- Another CPU has changed the lock. -/
  | other (lk : L) (st : Spinlock C)

/-- The CPU and a panic that stopped it; and as history the locks it acquired and did not release, the number of
    `pushcli` calls without their `popcli`, and the interrupt flag in the last state with `ncli` 0. -/
structure SpinSys (C L : Type) where
  cpu : SpinCpu C L
  stop : Option SpinPanic
  held : List L
  pushes : Nat
  atZero : Bool

variable {C L : Type} [DecidableEq C] [DecidableEq L] {me : C}

/-- A call by this CPU, with what it does to the history if it returns. -/
def SpinSys.call (s : SpinSys C L) (m : SpinM C L Unit) (held : List L) (pushes : Nat) : Option (SpinSys C L) :=
  let atZero := if s.cpu.ncli = 0 then s.cpu.flagIf else s.atZero
  match exec m s.cpu with
  | (.ok _, c) => some { cpu := c, stop := none, held := held, pushes := pushes, atZero := atZero }
  | (.error e, c) => some { s with cpu := c, stop := some e, atZero := atZero }

/-- One step. A panic is the end; a lock that another CPU has makes `acquire` wait. -/
def spinStep (me : C) (s : SpinSys C L) (e : SpinEvent C L) : Option (SpinSys C L) :=
  if s.stop = none then
    match e with
    | .acquire lk =>
      if (s.cpu.lock lk).locked = true ∧ holding me s.cpu lk = false then none
      else s.call (acquire me lk) (lk :: s.held) s.pushes
    | .release lk => s.call (release me lk) (s.held.erase lk) s.pushes
    | .pushcli => s.call pushcli s.held (s.pushes + 1)
    | .popcli => s.call popcli s.held (s.pushes - 1)
    | .flag b => if s.cpu.ncli = 0 then some { s with cpu := { s.cpu with flagIf := b } } else none
    | .other lk st =>
      if holding me s.cpu lk = false ∧ st.cpu ≠ some me then
        some { s with cpu := { s.cpu with lock := Function.update s.cpu.lock lk st } }
      else none
  else none

/-- Before the first call: nothing open, the flag and the locks of other CPUs in any state. -/
def SpinSys.init (flag intena : Bool) (lock : L → Spinlock C) : SpinSys C L :=
  ⟨⟨flag, 0, intena, lock⟩, none, [], 0, flag⟩

/-- **What is asked of the calls**: only what is open is closed, no lock is acquired while it is held, and fewer than 2³¹
    are open at a time. -/
def SpinGood (s : SpinSys C L) : SpinEvent C L → Prop
  | .acquire lk => lk ∉ s.held ∧ s.held.length + s.pushes + 1 < 2147483648
  | .release lk => lk ∈ s.held
  | .pushcli => s.held.length + s.pushes + 1 < 2147483648
  | .popcli => 0 < s.pushes
  | _ => True

instance (s : SpinSys C L) (e : SpinEvent C L) : Decidable (SpinGood s e) := by
  cases e <;> unfold SpinGood <;> infer_instance

/-! ## The invariant -/

/-- **`ncli` counts what is open**: while something is, interrupts are off and `intena` is the flag from before. -/
structure Nested (me : C) (s : SpinSys C L) : Prop where
  runs : s.stop = none
  ncli : s.cpu.ncli = s.held.length + s.pushes
  depth : s.held.length + s.pushes < 2147483648
  off : 0 < s.cpu.ncli → s.cpu.flagIf = false
  saved : 0 < s.cpu.ncli → s.cpu.intena = s.atZero
  holds : ∀ lk, holding me s.cpu lk = true ↔ lk ∈ s.held
  nodup : s.held.Nodup

theorem wrapInt_small {x : Int} (h : -2147483648 ≤ x) (h' : x < 2147483648) : wrapInt x = x := by
  rw [wrapInt]
  omega

section Specs

variable {s : SpinCpu C L} {Q : Unit → SpinCpu C L → Prop} {R : SpinPanic → SpinCpu C L → Prop}

omit [DecidableEq C] [DecidableEq L] in
/-- `pushcli` turns interrupts off, and keeps the flag when it is the first. -/
theorem wp_pushcli (h0 : 0 ≤ s.ncli) (hmax : s.ncli + 1 < 2147483648) :
    wp pushcli Q R s ↔ Q () { s with
      flagIf := false, ncli := s.ncli + 1, intena := if s.ncli = 0 then s.flagIf else s.intena } := by
  rw [pushcli]
  simp only [wp_bind, wp_get, wp_modify]
  rw [wrapInt_small (by omega) hmax]
  by_cases hz : s.ncli = 0
  · rw [if_pos hz, wp_modify, if_pos hz]
  · rw [if_neg hz, wp_pure, if_neg hz]

omit [DecidableEq C] [DecidableEq L] in
/-- `popcli` turns interrupts on again when it is the last and they were on before the first. -/
theorem wp_popcli (hoff : s.flagIf = false) (h0 : 0 < s.ncli) (hmax : s.ncli < 2147483648) :
    wp popcli Q R s ↔ Q () { s with ncli := s.ncli - 1, flagIf := decide (s.ncli = 1) && s.intena } := by
  have hnot : ¬s.flagIf = true := by rw [hoff]; exact Bool.false_ne_true
  rw [popcli]
  simp only [wp_bind, wp_get, if_neg hnot, wp_modify]
  rw [wrapInt_small (by omega) (by omega), if_neg (by omega)]
  simp only [wp_bind, wp_get]
  by_cases hlast : s.ncli = 1
  · cases hint : s.intena with
    | true =>
      rw [if_pos ⟨by omega, rfl⟩, wp_modify, decide_eq_true hlast]
      rfl
    | false =>
      rw [if_neg (fun hc => Bool.false_ne_true hc.2), wp_pure, Bool.and_false, hoff]
  · rw [if_neg (by omega), wp_pure, decide_eq_false hlast, Bool.false_and, hoff]

end Specs

variable {s s' : SpinSys C L} {lk : L}

omit [DecidableEq C] [DecidableEq L] in
/-- A call that returns, by its weakest precondition. -/
theorem SpinSys.call_eq {m : SpinM C L Unit} {held : List L} {pushes : Nat} {c : SpinCpu C L}
    (hwp : wp m (fun _ c' => c' = c) (fun _ _ => False) s.cpu) : s.call m held pushes =
      some ⟨c, none, held, pushes, if s.cpu.ncli = 0 then s.cpu.flagIf else s.atZero⟩ := by
  obtain ⟨u, c', hexec, rfl⟩ := wp_total hwp
  rw [SpinSys.call, hexec]

/-- What `holding` says after a change of one lock. -/
theorem holding_update {c c' : SpinCpu C L} {st : Spinlock C} (hlock : c'.lock = Function.update c.lock lk st) (l : L) :
    holding me c' l = if l = lk then st.locked && decide (st.cpu = some me) else holding me c l := by
  rw [holding, holding, hlock]
  by_cases hl : l = lk
  · rw [if_pos hl, hl, Function.update_self]
  · rw [if_neg hl, Function.update_of_ne hl]

omit [DecidableEq L] in
/-- `pushcli`: one more is open, and the flag from before the first is kept. -/
theorem Nested.pushed {held : List L} {pushes : Nat} {c : SpinCpu C L} (h : Nested me s)
    (hopen : held.length + pushes = s.held.length + s.pushes + 1) (hmax : s.held.length + s.pushes + 1 < 2147483648)
    (hflag : c.flagIf = false) (hncli : c.ncli = s.cpu.ncli + 1)
    (hint : c.intena = if s.cpu.ncli = 0 then s.cpu.flagIf else s.cpu.intena)
    (hholds : ∀ l, holding me c l = true ↔ l ∈ held) (hnd : held.Nodup) :
    Nested me ⟨c, none, held, pushes, if s.cpu.ncli = 0 then s.cpu.flagIf else s.atZero⟩ := by
  have hnc := h.ncli
  refine ⟨rfl, by dsimp only; omega, by dsimp only; omega, fun _ => hflag, fun _ => ?_, hholds, hnd⟩
  dsimp only
  rw [hint]
  by_cases hz : s.cpu.ncli = 0
  · rw [if_pos hz, if_pos hz]
  · rw [if_neg hz, if_neg hz, h.saved (by omega)]

omit [DecidableEq L] in
/-- `popcli`: one less is open; after the last the flag is what it was before the first. -/
theorem Nested.popped {held : List L} {pushes : Nat} {c : SpinCpu C L} (h : Nested me s)
    (hopen : held.length + pushes + 1 = s.held.length + s.pushes) (hncli : c.ncli = s.cpu.ncli - 1)
    (hflag : c.flagIf = (decide (s.cpu.ncli = 1) && s.cpu.intena)) (hint : c.intena = s.cpu.intena)
    (hholds : ∀ l, holding me c l = true ↔ l ∈ held) (hnd : held.Nodup) :
    Nested me ⟨c, none, held, pushes, if s.cpu.ncli = 0 then s.cpu.flagIf else s.atZero⟩ ∧
      (c.ncli = 0 → c.flagIf = s.atZero) := by
  have hnc := h.ncli
  have hdepth := h.depth
  have hpos : 0 < s.cpu.ncli := by omega
  have hne : ¬s.cpu.ncli = 0 := by omega
  refine ⟨⟨rfl, by dsimp only; omega, by dsimp only; omega, fun hp => ?_, fun _ => ?_, hholds, hnd⟩, fun hz => ?_⟩
  · dsimp only at hp ⊢
    rw [hflag, decide_eq_false (by omega), Bool.false_and]
  · dsimp only
    rw [hint, if_neg hne, h.saved hpos]
  · rw [hflag, decide_eq_true (by omega), Bool.true_and, h.saved hpos]

section Steps

variable (h : Nested me s)
include h

theorem Nested.acquire_step (hnot : lk ∉ s.held) (hmax : s.held.length + s.pushes + 1 < 2147483648)
    (hs : s.call (acquire me lk) (lk :: s.held) s.pushes = some s') : Nested me s' ∧ 0 < s'.cpu.ncli := by
  have hnc := h.ncli
  have hfree : ¬holding me s.cpu lk = true := fun hh => hnot ((h.holds lk).1 hh)
  have hwp : wp (acquire me lk) (fun _ c => c = { s.cpu with
      flagIf := false
      ncli := s.cpu.ncli + 1
      intena := if s.cpu.ncli = 0 then s.cpu.flagIf else s.cpu.intena
      lock := Function.update s.cpu.lock lk ⟨true, some me⟩ }) (fun _ _ => False) s.cpu := by
    rw [acquire, wp_bind, wp_pushcli (by omega) (by omega), wp_bind, wp_get]
    exact (wp_ite.2 ⟨fun hh => absurd hh hfree, fun _ => wp_modify.2 rfl⟩)
  rw [SpinSys.call_eq hwp] at hs
  cases hs
  refine ⟨h.pushed ?_ hmax rfl rfl rfl (fun l => ?_) (List.nodup_cons.2 ⟨hnot, h.nodup⟩), by dsimp only; omega⟩
  · rw [List.length_cons]
    omega
  · rw [holding_update rfl, List.mem_cons]
    by_cases hl : l = lk
    · rw [if_pos hl]
      exact iff_of_true (by simp) (.inl hl)
    · rw [if_neg hl, h.holds l]
      exact ⟨.inr, fun hc => hc.resolve_left hl⟩

theorem Nested.release_step (hmem : lk ∈ s.held) (hs : s.call (release me lk) (s.held.erase lk) s.pushes = some s') :
    Nested me s' ∧ (s'.cpu.ncli = 0 → s'.cpu.flagIf = s.atZero) := by
  have hnc := h.ncli
  have hdepth := h.depth
  have hpos : 0 < s.held.length := List.length_pos_of_mem hmem
  have hwp : wp (release me lk) (fun _ c => c = { s.cpu with
      ncli := s.cpu.ncli - 1
      flagIf := decide (s.cpu.ncli = 1) && s.cpu.intena
      lock := Function.update s.cpu.lock lk ⟨false, none⟩ }) (fun _ _ => False) s.cpu := by
    rw [release, wp_bind, wp_get, if_pos ((h.holds lk).2 hmem), wp_bind, wp_modify]
    refine Iff.mpr (wp_popcli ?_ ?_ ?_) rfl
    · exact h.off (by omega)
    · dsimp only
      omega
    · dsimp only
      omega
  rw [SpinSys.call_eq hwp] at hs
  cases hs
  refine h.popped ?_ rfl rfl rfl (fun l => ?_) (h.nodup.erase lk)
  · rw [List.length_erase_of_mem hmem]
    omega
  · rw [holding_update rfl, h.nodup.mem_erase_iff]
    by_cases hl : l = lk
    · rw [if_pos hl]
      exact iff_of_false (by simp) fun hc => hc.1 hl
    · rw [if_neg hl, h.holds l]
      exact ⟨fun hc => ⟨hl, hc⟩, fun hc => hc.2⟩

omit [DecidableEq L] in
theorem Nested.pushcli_step (hmax : s.held.length + s.pushes + 1 < 2147483648)
    (hs : s.call pushcli s.held (s.pushes + 1) = some s') : Nested me s' ∧ 0 < s'.cpu.ncli := by
  have hnc := h.ncli
  rw [SpinSys.call_eq ((wp_pushcli (by omega) (by omega)).2 rfl)] at hs
  cases hs
  exact ⟨h.pushed (by omega) hmax rfl rfl rfl h.holds h.nodup, by dsimp only; omega⟩

omit [DecidableEq L] in
theorem Nested.popcli_step (hpos : 0 < s.pushes) (hs : s.call popcli s.held (s.pushes - 1) = some s') :
    Nested me s' ∧ (s'.cpu.ncli = 0 → s'.cpu.flagIf = s.atZero) := by
  have hnc := h.ncli
  have hdepth := h.depth
  rw [SpinSys.call_eq ((wp_popcli (h.off (by omega)) (by omega) (by omega)).2 rfl)] at hs
  cases hs
  exact h.popped (by omega) rfl rfl rfl h.holds h.nodup

/-- **One step.** Whatever is called rightly returns; and where `ncli` goes back to 0, so does the flag. -/
theorem Nested.step {e : SpinEvent C L} (hg : SpinGood s e) (hs : spinStep me s e = some s') :
    Nested me s' ∧ (0 < s.cpu.ncli → s'.cpu.ncli = 0 → s'.cpu.flagIf = s.atZero) := by
  obtain ⟨-, hs⟩ := Option.ite_none_right_eq_some.1 hs
  cases e with
  | acquire lk =>
    obtain ⟨-, hs⟩ := Option.ite_none_left_eq_some.1 hs
    obtain ⟨hnest, hpos⟩ := h.acquire_step hg.1 hg.2 hs
    exact ⟨hnest, fun _ hz => absurd hz (by omega)⟩
  | release lk =>
    obtain ⟨hnest, hflag⟩ := h.release_step hg hs
    exact ⟨hnest, fun _ => hflag⟩
  | pushcli =>
    obtain ⟨hnest, hpos⟩ := h.pushcli_step hg hs
    exact ⟨hnest, fun _ hz => absurd hz (by omega)⟩
  | popcli =>
    obtain ⟨hnest, hflag⟩ := h.popcli_step hg hs
    exact ⟨hnest, fun _ => hflag⟩
  | flag b =>
    obtain ⟨hz, hs⟩ := Option.ite_none_right_eq_some.1 hs
    cases hs
    refine ⟨{ h with off := fun hp => ?_, holds := h.holds }, fun hp => ?_⟩
    · dsimp only at hp
      omega
    · omega
  | other lk st =>
    obtain ⟨⟨hmine, hcpu⟩, hs⟩ := Option.ite_none_right_eq_some.1 hs
    cases hs
    refine ⟨{ h with off := h.off, saved := h.saved, holds := fun l => ?_ }, fun hp hz => ?_⟩
    · dsimp only
      rw [holding_update rfl]
      by_cases hl : l = lk
      · rw [if_pos hl, decide_eq_false hcpu, Bool.and_false, ← h.holds l, hl, hmine]
      · rw [if_neg hl, h.holds l]
    · dsimp only at hz
      omega

end Steps

/-! ## Runs -/

omit [DecidableEq L] in
theorem nested_init {flag intena : Bool} {lock : L → Spinlock C} (hlock : ∀ lk, (lock lk).cpu ≠ some me) :
    Nested me (SpinSys.init flag intena lock) where
  runs := rfl
  ncli := rfl
  depth := (by decide : (0 : Nat) < 2147483648)
  off := fun hp => absurd hp (Int.lt_irrefl 0)
  saved := fun hp => absurd hp (Int.lt_irrefl 0)
  holds := fun lk => by
    refine iff_of_false ?_ List.not_mem_nil
    rw [SpinSys.init, holding]
    dsimp only
    rw [decide_eq_false (hlock lk), Bool.and_false]
    exact Bool.false_ne_true
  nodup := List.nodup_nil

/-- **Interrupt nesting.** In every run in which only what is open is closed, no call panics; `ncli` is the number of locks
    held and of `pushcli` calls without their `popcli`; while it is positive, interrupts are off; and when it goes back
    to 0, the flag is what it was when it was last 0. -/
theorem spin_nesting {flag intena : Bool} {lock : L → Spinlock C} {es : List (SpinEvent C L)}
    (hlock : ∀ lk, (lock lk).cpu ≠ some me) (hgood : Along (spinStep me) SpinGood (SpinSys.init flag intena lock) es)
    (hrun : run (spinStep me) (SpinSys.init flag intena lock) es = some s) :
    s.stop = none ∧ s.cpu.ncli = s.held.length + s.pushes ∧ s.held.Nodup ∧
      (∀ lk, holding me s.cpu lk = true ↔ lk ∈ s.held) ∧ (0 < s.cpu.ncli → s.cpu.flagIf = false) ∧
      ∀ e s', SpinGood s e → spinStep me s e = some s' → s'.stop = none ∧
        (0 < s.cpu.ncli → s'.cpu.ncli = 0 → s'.cpu.flagIf = s.atZero) := by
  have h : Nested me s := run_induct_along (I := fun _ s => Nested me s) (nested_init hlock)
    (fun _ t e u ht hg hs => (ht.step hg hs).1) hgood hrun
  refine ⟨h.runs, h.ncli, h.nodup, h.holds, h.off, fun e s' hg hs => ?_⟩
  obtain ⟨hnest, hflag⟩ := h.step hg hs
  exact ⟨hnest.runs, hflag⟩

/-- No lock is locked. -/
def allFree : Fin 2 → Spinlock (Fin 1) := fun _ => ⟨false, none⟩

/-- Two locks released in the order they were acquired, with a `pushcli` between, and interrupts on before: they are on
    again at the end. -/
theorem spin_nesting_crossed : ∃ s s' : SpinSys (Fin 1) (Fin 2),
    run (spinStep 0) (SpinSys.init true false allFree) [.acquire 0, .acquire 1, .pushcli, .release 0, .popcli] = some s ∧
      s.cpu.ncli = s.held.length + s.pushes ∧ s.cpu.flagIf = false ∧
      spinStep 0 s (.release 1) = some s' ∧ s'.cpu.ncli = 0 ∧ s'.cpu.flagIf = true := by
  have hgood : Along (spinStep 0) SpinGood (SpinSys.init true false allFree)
      [.acquire 0, .acquire 1, .pushcli, .release 0, .popcli] := .of_check (by decide +kernel)
  have hend : (run (spinStep 0) (SpinSys.init true false allFree : SpinSys (Fin 1) (Fin 2))
      ([.acquire 0, .acquire 1, .pushcli, .release 0, .popcli] ++ [.release 1])).map (fun s => s.cpu.ncli) = some 0 := by
    decide +kernel
  obtain ⟨s', hs', hzero⟩ := Option.map_eq_some_iff.1 hend
  obtain ⟨s, hs, hstep⟩ := run_concat.1 hs'
  have hhist : (run (spinStep 0) (SpinSys.init true false allFree : SpinSys (Fin 1) (Fin 2))
      [.acquire 0, .acquire 1, .pushcli, .release 0, .popcli]).map (fun s => (s.cpu.ncli, s.held, s.atZero)) =
        some (1, [1], true) := by decide +kernel
  rw [hs] at hhist
  obtain ⟨hone, hrest⟩ := Prod.mk.inj (Option.some.inj hhist)
  obtain ⟨hheld, hat⟩ := Prod.mk.inj hrest
  obtain ⟨-, hncli, -, -, hoff, hnext⟩ := spin_nesting (fun lk => by cases lk; exact nofun) hgood hs
  obtain ⟨-, hflag⟩ := hnext (.release 1) s' (by rw [SpinGood, hheld]; exact List.mem_cons_self) hstep
  exact ⟨s, s', hs, hncli, hoff (by rw [hone]; decide), hstep, hzero, by rw [hflag (by rw [hone]; decide) hzero, hat]⟩

/-- A `popcli` without its `pushcli` is a panic when nothing is open. -/
theorem popcli_unmatched : ∃ s : SpinSys (Fin 1) (Fin 2),
    run (spinStep 0) (SpinSys.init true false allFree) [.popcli] = some s ∧ s.stop = some .interruptible := by
  have hstop : (run (spinStep 0) (SpinSys.init true false allFree : SpinSys (Fin 1) (Fin 2)) [.popcli]).map
      SpinSys.stop = some (some .interruptible) := by decide +kernel
  exact Option.map_eq_some_iff.1 hstop

end Xv6
