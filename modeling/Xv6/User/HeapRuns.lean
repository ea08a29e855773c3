import Mathlib.Data.List.Pairwise
import Xv6.Lib.Machine
import Xv6.User.Umalloc

/-!
# `User.HeapRuns` — runs of `malloc` and `free`

A program calls `malloc` and `free` in any order, and frees only what it has got and not freed yet. The system answers
each `sbrk` as it likes: it fails, or gives fresh memory above all that it gave before. Every state such a run reaches is
well-formed, and no call goes wrong.
-/

namespace Xv6

open Hoare Machine

/-! ## The machine -/

/-- The chunks the process got, the latest first, and what the next `sbrk` answers. -/
structure Brk where
  got : List Block
  answer : Option Nat
deriving Repr, DecidableEq

/-- A process that can use its chunks and the static header at `base`. A second `sbrk` in one call would fail. -/
def brkOs (base : Nat) : Os Brk where
  sbrk n := do
    let e ← get
    match e.answer with
    | none => return none
    | some a => do
      set ({ got := ⟨a, n / 8⟩ :: e.got, answer := none } : Brk)
      return some a
  mapped e u := decide (base ≤ u ∧ u < base + 8) || e.got.any fun c => decide (c.addr ≤ u ∧ u < c.stop)

/-- `nu` units at `a` are fresh memory: above the program and above every chunk so far, inside the address space. -/
def Fresh (base : Nat) (got : List Block) (nu a : Nat) : Prop :=
  base + 8 ≤ a ∧ (∀ c ∈ got, c.stop ≤ a) ∧ a + 8 * nu < 4294967296

instance decidableFresh {base : Nat} {got : List Block} {nu a : Nat} : Decidable (Fresh base got nu a) :=
  inferInstanceAs (Decidable (_ ∧ _ ∧ _))

/-- The heap, the pointers that the program holds, and whether a call has stopped the program. -/
structure HeapState where
  heap : UHeap Brk
  live : List Nat
  stop : Option HeapStop

inductive HeapOp where
  | malloc (n : Nat) (answer : Option Nat)
  | free (ap : Nat)

/-- The program before its first call. -/
def heapStart : HeapState := ⟨⟨fun _ => 0, fun _ => 0, 0, ⟨[], none⟩⟩, [], none⟩

/-- `malloc(n)`, with the system's answer if it is asked. -/
def callMalloc (base : Nat) (h : UHeap Brk) (n : Nat) (answer : Option Nat) : Except HeapStop Nat × UHeap Brk :=
  exec (malloc (brkOs base) base n) { h with env := { h.env with answer := answer } }

def callFree (base : Nat) (h : UHeap Brk) (ap : Nat) : Except HeapStop Unit × UHeap Brk := exec (ufree (brkOs base) ap) h

/-- One call of the program. -/
def heapStep (base : Nat) (s : HeapState) (op : HeapOp) : Option HeapState :=
  match op with
  | .malloc n answer =>
    if s.stop = none ∧ n ≤ 2 ^ 30 ∧ ∀ a ∈ answer, Fresh base s.heap.env.got (coreUnits (unitsFor n)) a then
      match callMalloc base s.heap n answer with
      | (.ok ap, h) => some ⟨h, if ap = 0 then s.live else ap :: s.live, none⟩
      | (.error e, h) => some ⟨h, s.live, some e⟩
    else none
  | .free ap =>
    if s.stop = none ∧ ap ∈ s.live then
      match callFree base s.heap ap with
      | (.ok _, h) => some ⟨h, s.live.erase ap, none⟩
      | (.error e, h) => some ⟨h, s.live, some e⟩
    else none

/-! ## The invariant -/

/-- The blocks that were returned as `live`. -/
def UHeap.blocksAt {E : Type} (h : UHeap E) (live : List Nat) : List Block := live.map h.blockAt

/-- The two blocks share no byte. -/
def Block.Apart (b c : Block) : Prop := ∀ u, b.Has u → ¬c.Has u

/-- **A well-formed heap**: the blocks of the free list and those that the program holds are apart, and together they are
    what the system gave. -/
structure HeapOk (base : Nat) (h : UHeap Brk) (live : List Nat) (free : List Block) : Prop where
  ready : HeapReady base free h
  unused : h.freep = 0 → live = []
  covers : ∀ u, InBlocks h.env.got u ↔ InBlocks free u ∨ InBlocks (h.blocksAt live) u
  apart : ∀ u, InBlocks free u → ¬InBlocks (h.blocksAt live) u
  live_apart : (h.blocksAt live).Pairwise Block.Apart
  live_pos : ∀ p ∈ live, 8 ≤ p ∧ 0 < (h.blockAt p).units
  got_bound : ∀ c ∈ h.env.got, base + 8 ≤ c.addr ∧ c.stop < 4294967296

variable {base : Nat} {h h' : UHeap Brk} {live : List Nat} {free : List Block} {n p : Nat} {answer : Option Nat}

/-- Headers that keep their size make up the same blocks. -/
theorem blocksAt_congr (hs : ∀ p ∈ live, h'.size (p - 8) = h.size (p - 8)) : h'.blocksAt live = h.blocksAt live :=
  List.map_congr_left fun p hp => by rw [UHeap.blockAt, UHeap.blockAt, hs p hp]

/-- The header of a block that the program holds. -/
theorem HeapOk.header (hok : HeapOk base h live free) (hp : p ∈ live) :
    InBlocks h.env.got (p - 8) ∧ ¬InBlocks free (p - 8) ∧ base + 8 ≤ p - 8 := by
  have hin : InBlocks (h.blocksAt live) (p - 8) :=
    ⟨h.blockAt p, List.mem_map_of_mem hp, Block.has_addr (hok.live_pos p hp).2⟩
  have hgot := (hok.covers _).2 (.inr hin)
  refine ⟨hgot, fun hf => hok.apart _ hf hin, ?_⟩
  obtain ⟨c, hc, hlo, -⟩ := hgot
  have := (hok.got_bound c hc).1
  omega

/-- A block that is within what the system gave. -/
theorem HeapOk.within (hok : HeapOk base h live free) {b : Block} (hb : ∀ u, b.Has u → InBlocks h.env.got u)
    (hpos : 0 < b.units) : base + 8 ≤ b.addr ∧ b.stop < 4294967296 := by
  have hstop : b.stop = b.addr + 8 * b.units := rfl
  obtain ⟨c, hc, hlo, -⟩ := hb _ (Block.has_addr hpos)
  obtain ⟨d, hd, -, hhi⟩ := hb (b.stop - 1) ⟨by omega, by omega⟩
  have := (hok.got_bound c hc).1
  have := (hok.got_bound d hd).2
  omega

theorem heapOk_start : HeapOk base heapStart.heap heapStart.live [] where
  ready := .inl ⟨rfl, rfl⟩
  unused := fun _ => rfl
  covers := fun u => by constructor <;> simp [InBlocks, heapStart, UHeap.blocksAt]
  apart := fun u hu => by simp [InBlocks] at hu
  live_apart := .nil
  live_pos := fun p hp => absurd hp List.not_mem_nil
  got_bound := fun c hc => absurd hc List.not_mem_nil

/-! ## Steps -/

/-- What `malloc` can rely on here. -/
def Brk.Ok (base nu : Nat) (e : Brk) (chunks : List Block) : Prop :=
  e.got = chunks ∧ (∀ c ∈ chunks, base + 8 ≤ c.addr ∧ c.stop < 4294967296) ∧ ∀ a ∈ e.answer, Fresh base chunks nu a

theorem usable_brkOs {e : Brk} : Usable (brkOs base) e base e.got := by
  have hbase (k : Nat) (hk : k < 8) : (brkOs base).mapped e (base + k) = true := by
    rw [brkOs, Bool.or_eq_true, decide_eq_true_eq]
    exact .inl ⟨Nat.le_add_right _ _, by omega⟩
  refine ⟨⟨hbase 0 (by omega), hbase 7 (by omega)⟩, ?_⟩
  rintro u ⟨c, hc, hu⟩
  rw [brkOs, Bool.or_eq_true, List.any_eq_true]
  exact .inr ⟨c, hc, decide_eq_true hu⟩

theorem grows_brkOs {nu : Nat} (hnu : nu < 536870912) : (brkOs base).Grows base nu (Brk.Ok base nu) where
  usable := by
    rintro e chunks ⟨rfl, -, -⟩
    exact usable_brkOs
  sbrk := by
    rintro e chunks ⟨rfl, hbound, hfresh⟩
    rw [brkOs]
    dsimp only
    rw [wp_bind, wp_get]
    rcases e with ⟨got, answer⟩
    cases answer with
    | none => exact wp_pure.2 ⟨rfl, hbound, hfresh⟩
    | some a =>
      obtain ⟨hbase, habove, htop⟩ := hfresh a rfl
      have hdiv : nu * 8 % 4294967296 / 8 = nu := by omega
      refine wp_bind.2 (wp_set.2 (wp_pure.2 ⟨⟨?_, fun c hc => ?_, fun a ha => by cases ha⟩, hbase, habove, htop⟩))
      · rw [hdiv]
      · rcases List.mem_cons.1 hc with rfl | hc
        · exact ⟨hbase, htop⟩
        · exact hbound c hc

/-- A free list with a way in is not the unused one. -/
theorem FreeList.freep_ne (hbase : 0 < base) (hl : FreeList base h.ptr h.size free) (hp : h.freep ∈ ringNodes base free) :
    h.freep ≠ 0 := by
  have := hl.base_le hp
  omega

/-- `malloc` has returned 0. -/
theorem HeapOk.refused (hbase : 0 < base) (hok : HeapOk base h live free) (hgot : h'.env.got = h.env.got)
    (hl : FreeList base h'.ptr h'.size free) (hp : h'.freep ∈ ringNodes base free)
    (hsame : ∀ x, x ≠ base → h'.size x = h.size x) : HeapOk base h' live free := by
  have hsize (p : Nat) (hp : p ∈ live) : h'.size (p - 8) = h.size (p - 8) := by
    have := (hok.header hp).2.2
    exact hsame _ (by omega)
  have hblocks : h'.blocksAt live = h.blocksAt live := blocksAt_congr hsize
  refine ⟨.inr ⟨hl, hp⟩, fun h0 => absurd h0 (hl.freep_ne hbase hp), ?_, ?_, ?_, fun p hp => ?_, ?_⟩
  · rw [hgot, hblocks]
    exact hok.covers
  · rw [hblocks]
    exact hok.apart
  · rw [hblocks]
    exact hok.live_apart
  · rw [UHeap.blockAt, hsize p hp]
    exact hok.live_pos p hp
  · rw [hgot]
    exact hok.got_bound

/-- `malloc` has returned a block `t`, from the free list or from a chunk that the system has just given. -/
theorem HeapOk.served {t : Block} {free' : List Block} {nu : Nat} (hbase : 0 < base) (hok : HeapOk base h live free)
    (hpos : 0 < t.units) (ht : h'.size t.addr = t.units) (hl : FreeList base h'.ptr h'.size free')
    (hp : h'.freep ∈ ringNodes base free') (hcore : NewCore nu h.env.got h'.env.got)
    (hbound : ∀ c ∈ h'.env.got, base + 8 ≤ c.addr ∧ c.stop < 4294967296)
    (hbytes : ∀ u, InBlocks free' u ∨ t.Has u ↔ InBlocks free u ∨ InBlocks h'.env.got u ∧ ¬InBlocks h.env.got u)
    (hout : ∀ u, t.Has u → ¬InBlocks free' u) (hsize : ∀ p ∈ live, h'.size (p - 8) = h.size (p - 8)) :
    HeapOk base h' ((t.addr + 8) :: live) free' := by
  have hblock : h'.blockAt (t.addr + 8) = t := by
    rw [UHeap.blockAt, Nat.add_sub_cancel, ht]
  have hblocks : h'.blocksAt ((t.addr + 8) :: live) = t :: h.blocksAt live := by
    rw [UHeap.blocksAt, List.map_cons, hblock]
    exact congrArg _ (blocksAt_congr hsize)
  have hmono (u : Nat) (hu : InBlocks h.env.got u) : InBlocks h'.env.got u := by
    rcases hcore with hcore | ⟨a, hcore, -⟩ <;> rw [hcore]
    · exact hu
    · exact inBlocks_cons.2 (.inr hu)
  -- what is now in the free list or in the new block was not live
  have hnot (u : Nat) (hu : InBlocks free' u ∨ t.Has u) : ¬InBlocks (h.blocksAt live) u := by
    intro hlive
    rcases (hbytes u).1 hu with hf | ⟨-, hnew⟩
    · exact hok.apart u hf hlive
    · exact hnew ((hok.covers u).2 (.inr hlive))
  refine ⟨.inr ⟨hl, hp⟩, fun h0 => absurd h0 (hl.freep_ne hbase hp), fun u => ?_, fun u hu => ?_, ?_, fun p hp => ?_, hbound⟩
  · rw [hblocks, inBlocks_cons, ← or_assoc, hbytes u]
    constructor
    · intro hu
      by_cases hold : InBlocks h.env.got u
      · exact ((hok.covers u).1 hold).imp .inl id
      · exact .inl (.inr ⟨hu, hold⟩)
    · rintro ((hf | ⟨hu, -⟩) | hlive)
      · exact hmono u ((hok.covers u).2 (.inl hf))
      · exact hu
      · exact hmono u ((hok.covers u).2 (.inr hlive))
  · rw [hblocks, inBlocks_cons]
    exact not_or.2 ⟨fun htu => hout u htu hu, hnot u (.inl hu)⟩
  · rw [hblocks]
    exact List.pairwise_cons.2 ⟨fun b hb u hu hbu => hnot u (.inr hu) ⟨b, hb, hbu⟩, hok.live_apart⟩
  · rcases List.mem_cons.1 hp with rfl | hp
    · rw [hblock]
      exact ⟨Nat.le_add_left _ _, hpos⟩
    · rw [UHeap.blockAt, hsize p hp]
      exact hok.live_pos p hp

/-- **A call of `malloc`** returns. Either it is 0, or it is a block with room for `n` bytes that is not among those the
    program holds. -/
theorem callMalloc_spec (hbase : 0 < base) (hok : HeapOk base h live free) (hn : n ≤ 2 ^ 30)
    (hfresh : ∀ a ∈ answer, Fresh base h.env.got (coreUnits (unitsFor n)) a) :
    ∃ ap h' free', callMalloc base h n answer = (.ok ap, h') ∧
      HeapOk base h' (if ap = 0 then live else ap :: live) free' ∧
      (ap ≠ 0 → ap + n ≤ (h'.blockAt ap).stop) ∧ h'.blocksAt live = h.blocksAt live := by
  have hunits : unitsFor n ≤ 2 ^ 27 + 1 ∧ n + 8 ≤ 8 * unitsFor n := by
    rw [unitsFor, Nat.mod_eq_of_lt (by omega)]
    omega
  have hcore : coreUnits (unitsFor n) < 536870912 := by
    rw [coreUnits]
    split <;> omega
  have hsub (u : Nat) (hu : InBlocks free u) : InBlocks h.env.got u := (hok.covers u).2 (.inl hu)
  have hbrk : Brk.Ok base (coreUnits (unitsFor n)) { h.env with answer := answer } h.env.got :=
    ⟨rfl, hok.got_bound, hfresh⟩
  have hwp := malloc_spec (h := { h with env := { h.env with answer := answer } }) hbase (grows_brkOs hcore) hbrk
    hok.ready hsub
  obtain ⟨ap, h', hexec, chunks', ⟨rfl, hbound, -⟩, hres⟩ := wp_total hwp
  rcases hres with ⟨rfl, hgot, hl, hp, hsame⟩ | ⟨t, free', htu, rfl, htsize, hl, hp, hnew, hbytes, hout, hframe⟩
  · refine ⟨0, h', free, hexec, ?_, fun h0 => absurd rfl h0, blocksAt_congr fun p hp => hsame _ ?_⟩
    · rw [if_pos rfl]
      exact hok.refused hbase hgot hl hp hsame
    · have := (hok.header hp).2.2
      omega
  · have hsize (p : Nat) (hp : p ∈ live) : h'.size (p - 8) = h.size (p - 8) := by
      obtain ⟨hgot, hfree, hlo⟩ := hok.header hp
      exact hframe _ (by omega) hgot hfree
    refine ⟨t.addr + 8, h', free', hexec, ?_, fun _ => ?_, blocksAt_congr hsize⟩
    · rw [if_neg (Nat.succ_ne_zero _)]
      exact hok.served hbase (by omega) (htsize.trans htu.symm) hl hp hnew hbound hbytes hout hsize
    · rw [UHeap.blockAt, Nat.add_sub_cancel, htsize, Block.stop]
      dsimp only
      omega

/-- **A call of `free`** on a block that the program holds returns, and the block is free. -/
theorem callFree_spec (hbase : 0 < base) (hok : HeapOk base h live free) (hp : p ∈ live) :
    ∃ h' free', callFree base h p = (.ok (), h') ∧ HeapOk base h' (live.erase p) free' := by
  -- the block comes first, in whatever order the program got its blocks
  have hperm : (h.blocksAt live).Perm (h.blockAt p :: h.blocksAt (live.erase p)) := (List.perm_cons_erase hp).map _
  have hlive (u : Nat) : InBlocks (h.blocksAt live) u ↔ (h.blockAt p).Has u ∨ InBlocks (h.blocksAt (live.erase p)) u := by
    rw [← inBlocks_cons]
    exact exists_congr fun b => and_congr_left fun _ => hperm.mem_iff
  have hapart : (h.blockAt p :: h.blocksAt (live.erase p)).Pairwise Block.Apart :=
    (hperm.pairwise_iff fun {b c} hbc u hc hb => hbc u hb hc).1 hok.live_apart
  obtain ⟨hpapart, hrest⟩ := List.pairwise_cons.1 hapart
  obtain ⟨hp8, hpos⟩ := hok.live_pos p hp
  have hin (u : Nat) (hu : (h.blockAt p).Has u) : InBlocks h.env.got u := (hok.covers u).2 (.inr ((hlive u).2 (.inl hu)))
  obtain ⟨hlo, htop⟩ := hok.within hin hpos
  obtain ⟨hl, hfreep⟩ : FreeList base h.ptr h.size free ∧ h.freep ∈ ringNodes base free :=
    hok.ready.resolve_left fun h0 => by
      rw [hok.unused h0.1] at hp
      exact absurd hp List.not_mem_nil
  have hsep (c : Block) (hc : c ∈ free) : c.stop ≤ (h.blockAt p).addr ∨ (h.blockAt p).stop ≤ c.addr := by
    have hno (u : Nat) (hcu : c.Has u) (hpu : (h.blockAt p).Has u) : False :=
      hok.apart u ⟨c, hc, hcu⟩ ((hlive u).2 (.inl hpu))
    have hcpos := hl.pos c hc
    have hcstop : c.stop = c.addr + 8 * c.units := rfl
    have hpstop : (h.blockAt p).stop = (h.blockAt p).addr + 8 * (h.blockAt p).units := rfl
    by_contra hover
    rcases Nat.le_total c.addr (h.blockAt p).addr with hle | hle
    · exact hno _ ⟨hle, by omega⟩ (Block.has_addr hpos)
    · exact hno _ (Block.has_addr hcpos) ⟨hle, by omega⟩
  have hu : Usable (brkOs base) h.env base h.env.got := usable_brkOs
  have hmap (x : Nat) (hx : x ∈ (h.blockAt p).addr :: ringNodes base free) : (brkOs base).Header h.env x := by
    rcases List.mem_cons.1 hx with rfl | hx
    · exact hu.header hin hpos
    · exact Usable.node ⟨hu.1, fun u hfu => hu.2 u ((hok.covers u).2 (.inl hfu))⟩ hl x hx
  have hwp := ufree_spec hl hfreep hsep hlo hpos htop rfl hmap
  have haddr : (h.blockAt p).addr + 8 = p := Nat.sub_add_cancel hp8
  rw [haddr] at hwp
  obtain ⟨⟨⟩, h', hexec, free', hl', hp', henv, hbytes, -, hframe⟩ := wp_total hwp
  have hsize (q : Nat) (hq : q ∈ live.erase p) : h'.size (q - 8) = h.size (q - 8) := by
    have hqlive := List.mem_of_mem_erase hq
    obtain ⟨hgot, hfree, hqlo⟩ := hok.header hqlive
    refine hframe _ (by omega) hfree fun hpq => hpapart _ (List.mem_map_of_mem hq) _ hpq ?_
    exact Block.has_addr (hok.live_pos q hqlive).2
  have hblocks : h'.blocksAt (live.erase p) = h.blocksAt (live.erase p) := blocksAt_congr hsize
  refine ⟨h', free', hexec, .inr ⟨hl', hp'⟩, fun h0 => absurd h0 (hl'.freep_ne hbase hp'), fun u => ?_, fun u hu => ?_, ?_,
    fun q hq => ?_, ?_⟩
  · rw [hblocks, henv, hok.covers u, hlive u, hbytes u, or_assoc]
  · rw [hblocks]
    intro hlive'
    rcases (hbytes u).1 hu with hf | hpu
    · exact hok.apart u hf ((hlive u).2 (.inr hlive'))
    · obtain ⟨b, hb, hbu⟩ := hlive'
      exact hpapart b hb u hpu hbu
  · rw [hblocks]
    exact hrest
  · rw [UHeap.blockAt, hsize q hq]
    exact hok.live_pos q (List.mem_of_mem_erase hq)
  · rw [henv]
    exact hok.got_bound

/-! ## Runs -/

/-- Free memory without a gap is one block. -/
theorem FreeList.one_block {ptr size : Nat → Nat} {lo hi : Nat} (hl : FreeList base ptr size free) (hlt : lo < hi)
    (hall : ∀ u, lo ≤ u → u < hi → InBlocks free u) : ∃ b ∈ free, b.addr ≤ lo ∧ hi ≤ b.stop := by
  obtain ⟨b, hb, hlo, hstop⟩ := hall lo (Nat.le_refl _) hlt
  refine ⟨b, hb, hlo, ?_⟩
  by_contra hover
  -- the byte after `b` would be in another block, which `b` does not touch
  obtain ⟨c, hc, hclo, hchi⟩ := hall b.stop (by omega) (by omega)
  have hgaps : free.Pairwise fun b c => b.stop < c.addr ∨ c.stop < b.addr := hl.gaps.imp .inl
  have : Std.Symm fun b c : Block => b.stop < c.addr ∨ c.stop < b.addr := ⟨fun _ _ => Or.symm⟩
  have hbc : b ≠ c := by
    rintro rfl
    omega
  have hcstop : b.stop = b.addr + 8 * b.units := rfl
  rcases hgaps.forall hb hc hbc with h | h <;> omega

/-- One call keeps the heap well-formed and does not stop the program. -/
theorem heapStep_ok {s s' : HeapState} {op : HeapOp} (hbase : 0 < base)
    (hok : ∃ free, HeapOk base s.heap s.live free) (hstep : heapStep base s op = some s') :
    s'.stop = none ∧ ∃ free, HeapOk base s'.heap s'.live free := by
  obtain ⟨free, hok⟩ := hok
  cases op with
  | malloc n answer =>
    rw [heapStep] at hstep
    by_cases hc : s.stop = none ∧ n ≤ 2 ^ 30 ∧ ∀ a ∈ answer, Fresh base s.heap.env.got (coreUnits (unitsFor n)) a
    · obtain ⟨ap, h', free', hcall, hok', -⟩ := callMalloc_spec hbase hok hc.2.1 hc.2.2
      rw [if_pos hc, hcall] at hstep
      cases hstep
      exact ⟨rfl, free', hok'⟩
    · rw [if_neg hc] at hstep
      cases hstep
  | free ap =>
    rw [heapStep] at hstep
    by_cases hc : s.stop = none ∧ ap ∈ s.live
    · obtain ⟨h', free', hcall, hok'⟩ := callFree_spec hbase hok hc.2
      rw [if_pos hc, hcall] at hstep
      cases hstep
      exact ⟨rfl, free', hok'⟩
    · rw [if_neg hc] at hstep
      cases hstep

/-- **Every run of `malloc` and `free`** keeps the heap well-formed, and no call in it stops the program or goes on for
    ever. Memory that is all free again is in one block as far as it reaches without a gap, and the next `malloc(n)`
    returns 0 or `n` bytes that the program did not hold. -/
theorem heap_runs {ops : List HeapOp} {s : HeapState} (hbase : 0 < base)
    (hrun : run (heapStep base) heapStart ops = some s) :
    s.stop = none ∧ ∃ free, HeapOk base s.heap s.live free ∧
      (s.live = [] → ∀ lo hi, lo < hi → (∀ u, lo ≤ u → u < hi → InBlocks s.heap.env.got u) →
        ∃ b ∈ free, b.addr ≤ lo ∧ hi ≤ b.stop) ∧
      (∀ p ∈ s.live, ∃ h', callFree base s.heap p = (.ok (), h')) ∧
      ∀ n answer, n ≤ 2 ^ 30 → (∀ a ∈ answer, Fresh base s.heap.env.got (coreUnits (unitsFor n)) a) →
        ∃ ap h', callMalloc base s.heap n answer = (.ok ap, h') ∧
          (ap ≠ 0 → ∀ u, ap ≤ u → u < ap + n →
            InBlocks h'.env.got u ∧ ¬InBlocks (s.heap.blocksAt s.live) u) := by
  obtain ⟨hstop, free, hok⟩ : s.stop = none ∧ ∃ free, HeapOk base s.heap s.live free :=
    run_invariant (I := fun s => s.stop = none ∧ ∃ free, HeapOk base s.heap s.live free) ⟨rfl, [], heapOk_start⟩
      (fun t op u ht hstep => heapStep_ok hbase ht.2 hstep) hrun
  refine ⟨hstop, free, hok, fun hnil lo hi hlt hall => ?_, fun p hp => ?_, fun n answer hn hfresh => ?_⟩
  · have hfree (u : Nat) (h1 : lo ≤ u) (h2 : u < hi) : InBlocks free u := by
      refine ((hok.covers u).1 (hall u h1 h2)).resolve_right ?_
      rw [hnil]
      rintro ⟨b, hb, -⟩
      exact absurd hb List.not_mem_nil
    rcases hok.ready with ⟨-, rfl⟩ | ⟨hl, -⟩
    · obtain ⟨b, hb, -⟩ := hfree lo (Nat.le_refl _) hlt
      exact absurd hb List.not_mem_nil
    · exact hl.one_block hlt hfree
  · obtain ⟨h', -, hcall, -⟩ := callFree_spec hbase hok hp
    exact ⟨h', hcall⟩
  · obtain ⟨ap, h', free', hcall, hok', hroom, hsame⟩ := callMalloc_spec hbase hok hn hfresh
    refine ⟨ap, h', hcall, fun hap u hlo hhi => ?_⟩
    rw [if_neg hap] at hok'
    have hu : (h'.blockAt ap).Has u := by
      refine ⟨Nat.le_trans (Nat.sub_le _ _) hlo, ?_⟩
      have := hroom hap
      omega
    refine ⟨(hok'.covers u).2 (.inr (inBlocks_cons.2 (.inl hu))), ?_⟩
    rw [← hsame]
    rintro ⟨b, hb, hbu⟩
    exact (List.pairwise_cons.1 hok'.live_apart).1 b hb u hu hbu

/-- Two blocks from one chunk, the first of them freed again. -/
theorem heap_runs_two : ∃ s, run (heapStep 16) heapStart
      [.malloc 10 (some 4096), .malloc 20 none, .free 36848] = some s ∧ s.stop = none ∧ s.live = [36816] ∧
    ∃ free, HeapOk 16 s.heap s.live free := by
  have hlive : (run (heapStep 16) heapStart [.malloc 10 (some 4096), .malloc 20 none, .free 36848]).map
      HeapState.live = some [36816] := by decide +kernel
  obtain ⟨s, hs, hlive⟩ := Option.map_eq_some_iff.1 hlive
  obtain ⟨hstop, free, hok, -⟩ := heap_runs (by decide) hs
  exact ⟨s, hs, hstop, hlive, free, hok⟩

end Xv6
