import Mathlib.Logic.Function.Basic

/-!
# `Lib.Hoare` — pre- and postconditions for programs that update a state and may stop

A program over a state `σ` is an `ExceptT ε (StateM σ)` computation: it runs to a new state, and either
returns a value there or stops there with some `ε` (a panic, a deadlock). `wp m Q E s` says what holds
after running `m` from `s`: `Q` of the value and the state when it returns, `E` of the stop reason and
the state when it does not. Taking `E` to be `fun _ _ => False` makes it total correctness.

## Contents
- **Structural rules.** One equation per program former (`wp_pure`, `wp_bind`, `wp_ite`, …), all `simp`.
- **Consequence.** `wp_mono` weakens both postconditions, `wp_and` combines two facts about one run.
- **Loops.** `wp_forM_range` is the counted-loop rule: an invariant indexed by the counter.
- **Components.** `zoom` runs a program on one component of a larger state and frames the rest.
- **Triples.** `Triple P m Q E` from every state with `P`; composed by `Triple.bind`.
- **Invariants.** `Stable I E m`: `m` keeps `I` and stops only as `E` allows; one rule per program former.
- **Independence.** `Commutes f m`: `m` neither sees nor undoes the change `f` of the state.
-/

namespace Hoare

variable {σ τ ε α β : Type}

/-- Programs over `σ` that stop with `ε`. -/
abbrev Prog (σ ε α : Type) := ExceptT ε (StateM σ) α

/-- The outcome of running `m` from `s`: the value or the stop reason, and the state it was reached in. -/
def exec (m : Prog σ ε α) (s : σ) : Except ε α × σ := StateT.run (ExceptT.run m) s

/-- **Weakest precondition.** After `m` runs from `s`, a return satisfies `Q` and a stop satisfies `E`. -/
def wp (m : Prog σ ε α) (Q : α → σ → Prop) (E : ε → σ → Prop) (s : σ) : Prop :=
  match exec m s with
  | (.ok a, s') => Q a s'
  | (.error e, s') => E e s'

section Rules
variable {Q : α → σ → Prop} {E : ε → σ → Prop} {s : σ}

@[simp] theorem wp_pure {a : α} : wp (pure a : Prog σ ε α) Q E s ↔ Q a s := Iff.rfl

theorem exec_bind {m : Prog σ ε β} {f : β → Prog σ ε α} :
    exec (m >>= f) s = match exec m s with
      | (.ok b, s') => exec (f b) s'
      | (.error e, s') => (.error e, s') := by
  show StateT.run (ExceptT.bindCont f (exec m s).1) (exec m s).2 = _
  rcases exec m s with ⟨r, s'⟩
  cases r <;> rfl

@[simp] theorem wp_bind {m : Prog σ ε β} {f : β → Prog σ ε α} :
    wp (m >>= f) Q E s ↔ wp m (fun b s' => wp (f b) Q E s') E s := by
  simp only [wp, exec_bind]
  rcases exec m s with ⟨r, s'⟩
  cases r <;> rfl

@[simp] theorem wp_get {Q : σ → σ → Prop} : wp (get : Prog σ ε σ) Q E s ↔ Q s s := Iff.rfl

@[simp] theorem wp_set {Q : PUnit → σ → Prop} {s' : σ} :
    wp (set s' : Prog σ ε PUnit) Q E s ↔ Q ⟨⟩ s' := Iff.rfl

@[simp] theorem wp_modify {Q : PUnit → σ → Prop} {f : σ → σ} :
    wp (modify f : Prog σ ε PUnit) Q E s ↔ Q ⟨⟩ (f s) := Iff.rfl

@[simp] theorem wp_throw {e : ε} : wp (throw e : Prog σ ε α) Q E s ↔ E e s := Iff.rfl

@[simp] theorem wp_ite {c : Prop} [Decidable c] {m n : Prog σ ε α} :
    wp (if c then m else n) Q E s ↔ (c → wp m Q E s) ∧ (¬c → wp n Q E s) := by
  by_cases h : c <;> simp [h]

end Rules

/-- **Consequence.** Both postconditions may be weakened. -/
theorem wp_mono {m : Prog σ ε α} {Q Q' : α → σ → Prop} {E E' : ε → σ → Prop} {s : σ}
    (h : wp m Q E s) (hQ : ∀ a s', Q a s' → Q' a s') (hE : ∀ e s', E e s' → E' e s') :
    wp m Q' E' s := by
  simp only [wp] at h ⊢
  split at h
  · exact hQ _ _ h
  · exact hE _ _ h

/-- Weakening the return postcondition only. -/
theorem wp_post {m : Prog σ ε α} {Q Q' : α → σ → Prop} {E : ε → σ → Prop} {s : σ}
    (h : wp m Q E s) (hQ : ∀ a s', Q a s' → Q' a s') : wp m Q' E s :=
  wp_mono h hQ fun _ _ he => he

theorem wp_congr {m : Prog σ ε α} {Q Q' : α → σ → Prop} {E : ε → σ → Prop} {s : σ}
    (hQ : ∀ a s', Q a s' ↔ Q' a s') : wp m Q E s ↔ wp m Q' E s :=
  ⟨fun h => wp_post h fun a s' => (hQ a s').mp, fun h => wp_post h fun a s' => (hQ a s').mpr⟩

/-- Two facts about one run hold together. -/
theorem wp_and {m : Prog σ ε α} {Q Q' : α → σ → Prop} {E E' : ε → σ → Prop} {s : σ}
    (h : wp m Q E s) (h' : wp m Q' E' s) :
    wp m (fun a s' => Q a s' ∧ Q' a s') (fun e s' => E e s' ∧ E' e s') s := by
  simp only [wp] at h h' ⊢
  split at h <;> simp_all

/-- Every execution ends somewhere. -/
theorem not_wp_false {m : Prog σ ε α} {s : σ} : ¬wp m (fun _ _ => False) (fun _ _ => False) s := by
  intro h
  simp only [wp] at h
  split at h <;> exact h

/-- The postconditions may use that the run ended this way. -/
theorem wp_run {m : Prog σ ε α} {Q : α → σ → Prop} {E : ε → σ → Prop} {s : σ} (h : wp m Q E s) :
    wp m (fun a s' => exec m s = (.ok a, s') ∧ Q a s') (fun e s' => exec m s = (.error e, s') ∧ E e s') s := by
  simp only [wp] at h ⊢
  rcases hr : exec m s with ⟨r, s'⟩
  rw [hr] at h
  cases r with
  | ok a => exact ⟨rfl, h⟩
  | error e => exact ⟨rfl, h⟩

/-- What `wp` says about a run that returns. -/
theorem wp_ok {m : Prog σ ε α} {Q : α → σ → Prop} {E : ε → σ → Prop} {s s' : σ} {a : α}
    (h : wp m Q E s) (hr : exec m s = (.ok a, s')) : Q a s' := by
  simpa only [wp, hr] using h

/-- What `wp` says about a run that stops. -/
theorem wp_error {m : Prog σ ε α} {Q : α → σ → Prop} {E : ε → σ → Prop} {s s' : σ} {e : ε}
    (h : wp m Q E s) (hr : exec m s = (.error e, s')) : E e s' := by
  simpa only [wp, hr] using h

/-- A run known to return satisfies any postcondition its value and state do. -/
theorem wp_of_exec {m : Prog σ ε α} {Q : α → σ → Prop} {E : ε → σ → Prop} {s s' : σ} {a : α}
    (hr : exec m s = (.ok a, s')) (hQ : Q a s') : wp m Q E s := by
  simpa only [wp, hr] using hQ

/-- With no stop allowed, the run returns. -/
theorem wp_total {m : Prog σ ε α} {Q : α → σ → Prop} {s : σ}
    (h : wp m Q (fun _ _ => False) s) : ∃ a s', exec m s = (.ok a, s') ∧ Q a s' := by
  simp only [wp] at h
  split at h
  · exact ⟨_, _, by assumption, h⟩
  · exact h.elim

/-- Nothing is said of an outcome. -/
theorem wp_any (m : Prog σ ε α) (s : σ) : wp m (fun _ _ => True) (fun _ _ => True) s := by
  unfold wp
  split <;> trivial

/-- When stops do not matter, what comes first does not matter to a property of the rest. -/
theorem wp_after {m : Prog σ ε β} {f : β → Prog σ ε α} {Q : α → σ → Prop}
    (h : ∀ b s', wp (f b) Q (fun _ _ => True) s') (s : σ) : wp (m >>= f) Q (fun _ _ => True) s := by
  rw [wp_bind]
  exact wp_mono (wp_any m s) (fun b s' _ => h b s') fun _ _ _ => trivial

/-! ## Counted loops -/

/-- **Loop rule for a list of iterations.** An invariant over the iterations still to come. -/
theorem wp_forM {l : List β} {f : β → Prog σ ε PUnit} {E : ε → σ → Prop}
    (I : List β → σ → Prop)
    (hstep : ∀ x rest s, I (x :: rest) s → wp (f x) (fun _ s' => I rest s') E s)
    {s : σ} (h : I l s) : wp (l.forM f) (fun _ s' => I [] s') E s := by
  induction l generalizing s with
  | nil => exact h
  | cons x rest ih =>
    show wp (f x >>= fun _ => rest.forM f) _ _ _
    rw [wp_bind]
    exact wp_post (hstep x rest s h) fun _ s' h' => ih h'

theorem wp_forM_range' {f : Nat → Prog σ ε PUnit} {E : ε → σ → Prop} (I : Nat → σ → Prop) :
    ∀ (n a : Nat), (∀ i s, a ≤ i → i < a + n → I i s → wp (f i) (fun _ s' => I (i + 1) s') E s) →
    ∀ {s : σ}, I a s → wp ((List.range' a n).forM f) (fun _ s' => I (a + n) s') E s := by
  intro n
  induction n with
  | zero => intro a _ s h; exact h
  | succ n ih =>
    intro a hstep s h
    show wp (f a >>= fun _ => (List.range' (a + 1) n).forM f) _ _ _
    rw [wp_bind]
    refine wp_post (hstep a s (Nat.le_refl a) (by omega) h) fun _ s' h' => ?_
    have := ih (a + 1) (fun i t h1 h2 => hstep i t (by omega) (by omega)) h'
    rwa [show a + 1 + n = a + (n + 1) by omega] at this

/-- **Counted-loop rule.** `I i` holds before iteration `i`. -/
theorem wp_forM_range {n : Nat} {f : Nat → Prog σ ε PUnit} {E : ε → σ → Prop} (I : Nat → σ → Prop)
    (hstep : ∀ i s, i < n → I i s → wp (f i) (fun _ s' => I (i + 1) s') E s)
    {s : σ} (h : I 0 s) : wp ((List.range n).forM f) (fun _ s' => I n s') E s := by
  have := wp_forM_range' (f := f) (E := E) I n 0 (fun i t _ h2 => hstep i t (by omega)) h
  rwa [← List.range_eq_range', Nat.zero_add] at this

/-! ## Components of the state -/

/-- Run `m` on the component of the state that `get`/`put` address. -/
def zoom (get : τ → σ) (put : σ → τ → τ) (m : Prog σ ε α) : Prog τ ε α :=
  ExceptT.mk fun t => ((exec m (get t)).1, put (exec m (get t)).2 t)

theorem exec_zoom {get : τ → σ} {put : σ → τ → τ} {m : Prog σ ε α} {t : τ} :
    exec (zoom get put m) t = ((exec m (get t)).1, put (exec m (get t)).2 t) := rfl

@[simp] theorem wp_zoom {get : τ → σ} {put : σ → τ → τ} {m : Prog σ ε α}
    {Q : α → τ → Prop} {E : ε → τ → Prop} {t : τ} :
    wp (zoom get put m) Q E t ↔
      wp m (fun a s' => Q a (put s' t)) (fun e s' => E e (put s' t)) (get t) := by
  simp only [wp, exec_zoom]
  rcases exec m (get t) with ⟨r, s'⟩
  cases r <;> rfl

/-- `zoom`, with the stop reasons of `m` translated by `g`. -/
def zoomMap {ε' : Type} (get : τ → σ) (put : σ → τ → τ) (g : ε → ε') (m : Prog σ ε α) : Prog τ ε' α :=
  ExceptT.mk fun t => ((exec m (get t)).1.mapError g, put (exec m (get t)).2 t)

@[simp] theorem wp_zoomMap {ε' : Type} {get : τ → σ} {put : σ → τ → τ} {g : ε → ε'} {m : Prog σ ε α}
    {Q : α → τ → Prop} {E : ε' → τ → Prop} {t : τ} :
    wp (zoomMap get put g m) Q E t ↔
      wp m (fun a s' => Q a (put s' t)) (fun e s' => E (g e) (put s' t)) (get t) := by
  have hexec : exec (zoomMap get put g m) t = ((exec m (get t)).1.mapError g, put (exec m (get t)).2 t) := rfl
  simp only [wp, hexec]
  rcases exec m (get t) with ⟨r, s'⟩
  cases r <;> rfl

/-! ## Triples -/

/-- From every state with `P`, a return satisfies `Q` and a stop satisfies `E`. -/
def Triple (P : σ → Prop) (m : Prog σ ε α) (Q : α → σ → Prop) (E : ε → σ → Prop) : Prop := ∀ s, P s → wp m Q E s

namespace Triple

variable {P : σ → Prop} {E : ε → σ → Prop}

theorem pure {Q : α → σ → Prop} {a : α} (h : ∀ s, P s → Q a s) : Triple P (pure a) Q E := fun s hs => h s hs

theorem bind {m : Prog σ ε β} {f : β → Prog σ ε α} {R : β → σ → Prop} {Q : α → σ → Prop}
    (hm : Triple P m R E) (hf : ∀ b, Triple (R b) (f b) Q E) : Triple P (m >>= f) Q E := by
  intro s h
  rw [wp_bind]
  exact wp_post (hm s h) fun b s' h' => hf b s' h'

theorem ite {c : Prop} [Decidable c] {m n : Prog σ ε α} {Q : α → σ → Prop} (hm : c → Triple P m Q E)
    (hn : ¬ c → Triple P n Q E) : Triple P (if c then m else n) Q E := by
  split
  · exact hm ‹_›
  · exact hn ‹_›

theorem throw {Q : α → σ → Prop} {e : ε} (he : ∀ s, P s → E e s) : Triple P (throw e) Q E := fun s h => he s h

end Triple

/-! ## Invariants of programs -/

/-- From a state with `I` the program returns to one, and stops only as `E` allows. -/
def Stable (I : σ → Prop) (E : ε → σ → Prop) (m : Prog σ ε α) : Prop := ∀ s, I s → wp m (fun _ s' => I s') E s

namespace Stable

variable {I : σ → Prop} {E : ε → σ → Prop}

theorem pure (a : α) : Stable I E (pure a : Prog σ ε α) := fun _ h => h

theorem bind {m : Prog σ ε β} {f : β → Prog σ ε α} (hm : Stable I E m) (hf : ∀ b, Stable I E (f b)) :
    Stable I E (m >>= f) := by
  intro s h
  rw [wp_bind]
  exact wp_post (hm s h) fun b s' h' => hf b s' h'

theorem get : Stable I E (get : Prog σ ε σ) := fun _ h => h

theorem modify {f : σ → σ} (hf : ∀ s, I s → I (f s)) : Stable I E (modify f : Prog σ ε PUnit) :=
  fun s h => hf s h

theorem throw {e : ε} (he : ∀ s, I s → E e s) : Stable I E (throw e : Prog σ ε α) := fun s h => he s h

theorem ite {c : Prop} [Decidable c] {m n : Prog σ ε α} (hm : Stable I E m) (hn : Stable I E n) :
    Stable I E (if c then m else n) := by
  split
  · exact hm
  · exact hn

theorem forM {l : List β} {f : β → Prog σ ε PUnit} (hf : ∀ x, Stable I E (f x)) : Stable I E (l.forM f) :=
  fun _ h => wp_forM (fun _ => I) (fun x _ s hs => hf x s hs) h

end Stable

/-! ## Independence of part of the state -/

/-- Running `m` after the change `f` is running it before: the same outcome, and the change made to the new state. -/
def Commutes (f : σ → σ) (m : Prog σ ε α) : Prop := ∀ s, exec m (f s) = ((exec m s).1, f (exec m s).2)

namespace Commutes

variable {f : σ → σ}

theorem wp_iff {m : Prog σ ε α} {Q : α → σ → Prop} {E : ε → σ → Prop} {s : σ} (h : Commutes f m) :
    wp m Q E (f s) ↔ wp m (fun a s' => Q a (f s')) (fun e s' => E e (f s')) s := by
  simp only [wp, h s]
  rcases exec m s with ⟨r, s'⟩
  cases r <;> rfl

theorem pure (a : α) : Commutes f (pure a : Prog σ ε α) := fun _ => rfl

theorem throw (e : ε) : Commutes f (throw e : Prog σ ε α) := fun _ => rfl

theorem bind {m : Prog σ ε β} {g : β → Prog σ ε α} (hm : Commutes f m) (hg : ∀ b, Commutes f (g b)) :
    Commutes f (m >>= g) := by
  intro s
  rw [exec_bind, exec_bind, hm s]
  rcases exec m s with ⟨r, s'⟩
  cases r with
  | ok b => exact hg b s'
  | error e => rfl

theorem ite {c : Prop} [Decidable c] {m n : Prog σ ε α} (hm : Commutes f m) (hn : Commutes f n) :
    Commutes f (if c then m else n) := by
  split
  · exact hm
  · exact hn

end Commutes

end Hoare
