import Mathlib.Algebra.Order.BigOperators.Group.Finset
import Mathlib.Data.Fintype.BigOperators
import Xv6.Dev.BioSafe

/-!
# `Dev.BioBound` — when the buffer cache cannot panic (`kernel/bio.c`, `kernel/ide.c`)

`bget` panics when all `NBUF` buffers are busy, and nothing in the cache keeps callers from taking them all. What keeps the
kernel safe is a habit of the callers: each holds only a few buffers when it asks for one more. Here is how far that goes.
With `n` processes that each hold fewer than `k` buffers at every `bread`, and `n * k ≤ NBUF`, no interleaving runs out of
buffers. `iderw` has three panics of its own; for calls that come through `bread` and `bwrite` two of them are excluded by
the invariant of the cache, and the third by asking only for drives that are there.
-/

namespace Xv6

open Machine

/-! ## Counting -/

section Counting

variable {ι α : Type} [Fintype ι] [Fintype α] [DecidableEq α]

/-- If nobody holds more than `k`, somebody holds less, and there are `k` for everyone, then something is not held. -/
theorem exists_unheld {held : ι → List α} {k : Nat} (hcard : Fintype.card ι * k ≤ Fintype.card α)
    (hfew : ∀ i, (held i).length ≤ k) {i : ι} (hi : (held i).length < k) : ∃ a, ∀ j, a ∉ held j := by
  by_contra hall
  push Not at hall
  have hcover : (Finset.univ : Finset α) ⊆ Finset.univ.biUnion fun j => (held j).toFinset := by
    intro a _
    obtain ⟨j, hj⟩ := hall a
    exact Finset.mem_biUnion.mpr ⟨j, Finset.mem_univ j, List.mem_toFinset.mpr hj⟩
  have hlt : Fintype.card α < Fintype.card ι * k :=
    calc Fintype.card α
        ≤ (Finset.univ.biUnion fun j => (held j).toFinset).card := Finset.card_le_card hcover
      _ ≤ ∑ j, (held j).toFinset.card := Finset.card_biUnion_le
      _ ≤ ∑ j, (held j).length := Finset.sum_le_sum fun j _ => List.toFinset_card_le _
      _ < ∑ _j : ι, k := Finset.sum_lt_sum (fun j _ => hfew j) ⟨i, Finset.mem_univ i, hi⟩
      _ = Fintype.card ι * k := Finset.sum_const_nat fun _ _ => rfl
  exact absurd hcard (Nat.not_le_of_lt hlt)

end Counting

/-! ## The invariant -/

variable {P D : Type}

/-- **What is asked of callers**: to hold fewer than `k` buffers when they ask for one more, and to ask only for drives that
    are there. -/
def BioFrugal (havedisk1 : Bool) (k : Nat) (s : BufSys P D) : BufEvent P D → Prop
  | .bread p dev _ => (s.held p).length < k ∧ (dev ≠ 0 → havedisk1 = true)
  | _ => True

instance decidableBioFrugal (havedisk1 : Bool) (k : Nat) (s : BufSys P D) (e : BufEvent P D) :
    Decidable (BioFrugal havedisk1 k s e) :=
  BufEvent.casesOn (motive := fun e => Decidable (BioFrugal havedisk1 k s e)) e
    (fun p dev _ => (inferInstance : Decidable ((s.held p).length < k ∧ (dev ≠ 0 → havedisk1 = true))))
    (fun _ => isTrue trivial) (fun _ => isTrue trivial) (fun _ _ => isTrue trivial) (fun _ => isTrue trivial)
    (fun _ => isTrue trivial) (fun _ _ _ => isTrue trivial) (fun _ _ => isTrue trivial) (isTrue trivial)

/-- Nobody holds more than `k` buffers, counting the one that it is about to get; busy buffers are of drives that exist. -/
structure BufSys.Frugal (havedisk1 : Bool) (k : Nat) (s : BufSys P D) : Prop where
  few : ∀ p, (s.held p).length ≤ k
  room : ∀ p dev sector, s.pc p = .getting dev sector → (s.held p).length < k
  asked : ∀ p dev sector, s.pc p = .getting dev sector → dev ≠ 0 → havedisk1 = true
  drive : ∀ b, s.busy b = true → s.dev b ≠ 0 → havedisk1 = true

namespace BufSys.Frugal

variable [DecidableEq P] {havedisk1 : Bool} {k : Nat} {e : BufEvent P D} {s s' : BufSys P D}

/-- Who is in `bget` after a process went elsewhere was there before. -/
theorem getting_of_update {pc : P → BufPc} {p q : P} {x : BufPc} {dev sector : UInt32}
    (hx : ∀ dev sector, x ≠ .getting dev sector) (h : Function.update pc p x q = .getting dev sector) :
    q ≠ p ∧ pc q = .getting dev sector := by
  by_cases hq : q = p
  · subst hq
    rw [Function.update_self] at h
    exact absurd h (hx dev sector)
  · rw [Function.update_of_ne hq] at h
    exact ⟨hq, h⟩

/-- Who is in `bget` after a call of `bread` made that call, or was there before. -/
theorem getting_of_bread {pc : P → BufPc} {p q : P} {dev sector dev' sector' : UInt32}
    (h : Function.update pc p (.getting dev sector) q = .getting dev' sector') :
    (q = p ∧ dev' = dev) ∨ pc q = .getting dev' sector' := by
  by_cases hq : q = p
  · subst hq
    rw [Function.update_self] at h
    cases h
    exact .inl ⟨rfl, rfl⟩
  · rw [Function.update_of_ne hq] at h
    exact .inr h

/-- A step that takes and releases nothing. -/
theorem of_pc (h : s.Frugal havedisk1 k) {p : P} {x : BufPc} (hx : ∀ dev sector, x ≠ .getting dev sector)
    (hpc : s'.pc = Function.update s.pc p x) (hheld : s'.held = s.held) (hbusy : s'.busy = s.busy) (hdev : s'.dev = s.dev) :
    s'.Frugal havedisk1 k := by
  refine ⟨?_, ?_, ?_, ?_⟩
  · rw [hheld]
    exact h.few
  · intro q dev sector hq
    rw [hpc] at hq
    rw [hheld]
    exact h.room q dev sector (getting_of_update hx hq).2
  · intro q dev sector hq
    rw [hpc] at hq
    exact h.asked q dev sector (getting_of_update hx hq).2
  · rw [hbusy, hdev]
    exact h.drive

/-- `bget` gives buffer `b`, with the label `dev`, to `p`. -/
theorem take (h : s.Frugal havedisk1 k) {p : P} {b : BufId} {dev sector : UInt32} (hp : s.pc p = .getting dev sector)
    (hpc : s'.pc = Function.update s.pc p (.got b)) (hheld : s'.held = Function.update s.held p (b :: s.held p))
    (hbusy : s'.busy = Function.update s.busy b true) (hb : s'.dev b = dev) (hdev : ∀ b', b' ≠ b → s'.dev b' = s.dev b') :
    s'.Frugal havedisk1 k := by
  have hgot : ∀ dev sector, BufPc.got b ≠ .getting dev sector := fun _ _ hc => by cases hc
  refine ⟨?_, ?_, ?_, ?_⟩
  · intro q
    rw [hheld]
    by_cases hq : q = p
    · subst hq
      rw [Function.update_self]
      exact h.room q dev sector hp
    · rw [Function.update_of_ne hq]
      exact h.few q
  · intro q dev' sector' hq
    rw [hpc] at hq
    obtain ⟨hne, hq⟩ := getting_of_update hgot hq
    rw [hheld, Function.update_of_ne hne]
    exact h.room q dev' sector' hq
  · intro q dev' sector' hq
    rw [hpc] at hq
    exact h.asked q dev' sector' (getting_of_update hgot hq).2
  · intro b' hb'
    by_cases hbb : b' = b
    · subst hbb
      rw [hb]
      exact h.asked p dev sector hp
    · rw [hbusy, Function.update_of_ne hbb] at hb'
      rw [hdev b' hbb]
      exact h.drive b' hb'

theorem move (h : s.Frugal havedisk1 k) (hg : BioFrugal havedisk1 k s e) (hm : BufMove e s s') :
    s'.Frugal havedisk1 k := by
  cases hm with
  | bread p dev sector he hp =>
    subst he
    obtain ⟨hroom, hdrive⟩ := hg
    refine ⟨h.few, ?_, ?_, h.drive⟩
    · intro q dev' sector' hq
      rcases getting_of_bread hq with ⟨rfl, -⟩ | hold
      · exact hroom
      · exact h.room q dev' sector' hold
    · intro q dev' sector' hq
      rcases getting_of_bread hq with ⟨-, rfl⟩ | hold
      · exact hdrive
      · exact h.asked q dev' sector' hold
  | hit p b hp hb => exact h.take hp rfl rfl rfl rfl fun _ _ => rfl
  | recycle p dev sector b hp hnone hb =>
    exact h.take hp rfl rfl rfl (Function.update_self _ _ _) fun b' hb' => Function.update_of_ne hb' _ _
  | miss p b hp hv => exact h.of_pc (fun _ _ hc => by cases hc) rfl rfl rfl rfl
  | ret p b kind hp hv => exact h.of_pc (fun _ _ hc => by cases hc) rfl rfl rfl rfl
  | bwrite p b hp hb => exact h.of_pc (fun _ _ hc => by cases hc) rfl rfl rfl rfl
  | iderw p b kind hp => exact h.of_pc (fun _ _ hc => by cases hc) rfl rfl rfl rfl
  | modify p b d hp hb => exact ⟨h.few, h.room, h.asked, h.drive⟩
  | brelse p b he hp hb =>
    have hless : ∀ q, ((s.brelse p b).held q).length ≤ (s.held q).length := by
      intro q
      show (Function.update s.held p ((s.held p).erase b) q).length ≤ (s.held q).length
      by_cases hq : q = p
      · subst hq
        rw [Function.update_self]
        exact List.length_erase_le
      · rw [Function.update_of_ne hq]
    refine ⟨fun q => (hless q).trans (h.few q), ?_, h.asked, ?_⟩
    · intro q dev sector hq
      exact (hless q).trans_lt (h.room q dev sector hq)
    · intro b' hb'
      by_cases hbb : b' = b
      · subst hbb
        have hfree : (s.brelse p b').busy b' = false := Function.update_self _ _ _
        rw [hfree] at hb'
        cases hb'
      · exact h.drive b' ((Function.update_of_ne hbb _ _).symm.trans hb')
  | intr c b rest hc hq => exact ⟨h.few, h.room, h.asked, h.drive⟩

omit [DecidableEq P] in
theorem init (disk₀ : DiskAddr → D) (d₀ : D) : (BufSys.init disk₀ d₀ : BufSys P D).Frugal havedisk1 k := by
  refine ⟨fun _ => Nat.zero_le k, ?_, ?_, ?_⟩
  · intro p dev sector hp
    cases hp
  · intro p dev sector hp
    cases hp
  · intro b hb
    cases hb

/-- With few buffers held, `bget` finds one: the sector's own, for which it may have to wait, or one that is not busy. -/
theorem bget_isSome [Fintype P] {disk₀ : DiskAddr → D} (h : s.Frugal havedisk1 k) (hinv : s.Inv disk₀)
    (hk : Fintype.card P * k ≤ NBUF) {p : P} {dev sector : UInt32} (hp : s.pc p = .getting dev sector) :
    s.bget p dev sector ≠ none := by
  intro hpanic
  rw [BufSys.bget] at hpanic
  split at hpanic
  · split at hpanic
    · cases hpanic
    · cases hpanic
  · split at hpanic
    · cases hpanic
    · rename_i hbusy
      obtain ⟨b, hb⟩ := exists_unheld (hk.trans_eq (Fintype.card_fin NBUF).symm) h.few (h.room p dev sector hp)
      have hall := List.find?_eq_none.mp hbusy b (List.mem_reverse.mpr (hinv.listed b))
      have htaken : s.busy b = true := by
        by_contra hfree
        exact hall (decide_eq_true (Bool.eq_false_of_not_eq_true hfree))
      obtain ⟨q, hq⟩ := hinv.owner b htaken
      exact hb q hq

/-- A call of `iderw` on the way from `bread` or `bwrite` passes its three checks. -/
theorem iderw_isSome {disk₀ : DiskAddr → D} (h : s.Frugal havedisk1 k) (hinv : s.Inv disk₀) {p : P} {b : BufId}
    {kind : RwKind} (hp : s.pc p = .calling b kind) : s.iderw havedisk1 p b kind ≠ none := by
  have hbusy : s.busy b = true := hinv.pc_busy (p := p) (by rw [hp]; rfl)
  have hwork : ¬ (s.valid b = true ∧ s.dirty b = false) := by
    rintro ⟨hvalid, hclean⟩
    cases kind with
    | read =>
      rw [hinv.missing p b hp] at hvalid
      cases hvalid
    | write =>
      rw [hinv.calling p b hp] at hclean
      cases hclean
  have hdrive : ¬ (s.dev b ≠ 0 ∧ havedisk1 = false) := by
    rintro ⟨hdev, hno⟩
    rw [h.drive b hbusy hdev] at hno
    cases hno
  rw [BufSys.iderw, if_neg (by rw [hbusy]; exact Bool.noConfusion), if_neg hwork, if_neg hdrive]
  exact Option.some_ne_none _

end BufSys.Frugal

/-! ## The result -/

/-- **The cache does not panic** in any interleaving of processes with the disk, if each of them holds fewer than `k` buffers
    whenever it calls `bread` and there are `k` buffers for each: `bget` finds a buffer, and `iderw` is called on a busy
    buffer of a drive that exists, with something to do. -/
theorem bio_never_panics [DecidableEq P] [Fintype P] {havedisk1 : Bool} {disk₀ : DiskAddr → D} {d₀ : D} {k : Nat}
    {es : List (BufEvent P D)} {s : BufSys P D} (hk : Fintype.card P * k ≤ NBUF)
    (h : run (bufStep havedisk1) (BufSys.init disk₀ d₀) es = some s)
    (hg : Along (bufStep havedisk1) (fun t e => BioGood t e ∧ BioFrugal havedisk1 k t e) (BufSys.init disk₀ d₀) es) (p : P) :
    (∀ dev sector, s.pc p = .getting dev sector → s.bget p dev sector ≠ none) ∧
      ∀ b kind, s.pc p = .calling b kind → s.iderw havedisk1 p b kind ≠ none := by
  have hinv : s.Inv disk₀ ∧ s.Frugal havedisk1 k := by
    refine run_induct_along (I := fun _ t => t.Inv disk₀ ∧ t.Frugal havedisk1 k) ⟨.init disk₀ d₀, .init disk₀ d₀⟩ ?_ hg h
    rintro _ t e u ⟨hi, hf⟩ ⟨hgood, hfrugal⟩ hstep
    refine ⟨hi.step hgood hstep, ?_⟩
    rcases bufStep_move hstep with rfl | hm
    · exact hf
    · exact hf.move hfrugal hm
  exact ⟨fun dev sector hp => hinv.2.bget_isSome hinv.1 hk hp, fun b kind hp => hinv.2.iderw_isSome hinv.1 hp⟩

/-- Two processes read different sectors: one is about to call `iderw`, the other is still in `bget`. -/
def twoReaders : List (BufEvent Bool Nat) := [.bread true 0 3, .bget true, .check true, .bread false 0 4]

theorem bio_never_panics_two : ∃ s : BufSys Bool Nat, run (bufStep false) (BufSys.init (fun _ => 0) 0) twoReaders = some s ∧
    s.pc false = .getting 0 4 ∧ s.bget false 0 4 ≠ none ∧ s.pc true = .calling 0 .read ∧
      s.iderw false true 0 .read ≠ none := by
  have hend : (run (bufStep false) (BufSys.init (fun _ => 0) 0) twoReaders).map (fun s => (s.pc false, s.pc true)) =
      some (.getting 0 4, .calling 0 .read) := by
    decide +kernel
  obtain ⟨s, hs, hend⟩ := Option.map_eq_some_iff.mp hend
  obtain ⟨hgetting, hcalling⟩ := Prod.mk.inj hend
  have hgood : Along (bufStep false) (fun t e => BioGood t e ∧ BioFrugal false 5 t e) (BufSys.init (fun _ => 0) 0) twoReaders :=
    .of_check (by decide +kernel)
  have hk : Fintype.card Bool * 5 ≤ NBUF := by decide
  exact ⟨s, hs, hgetting, (bio_never_panics hk hs hgood false).1 0 4 hgetting, hcalling,
    (bio_never_panics hk hs hgood true).2 0 .read hcalling⟩

/-- **The bound is sharp**: eleven processes that hold nothing when they call `bread`, each for a sector of its own, take the
    ten buffers, and the last one panics. -/
example : (run (bufStep false) (BufSys.init (fun _ => 0) 0 : BufSys (Fin 11) Nat)
    (((List.finRange 11).map fun p => .bread p 0 (UInt32.ofNat p.val)) ++
      ((List.finRange 11).take NBUF).map fun p => .bget p)).map
    (fun s => (s.pc (Fin.last 10), (s.bget (Fin.last 10) 0 10).isNone)) = some (.getting 0 10, true) := by
  decide +kernel

end Xv6
