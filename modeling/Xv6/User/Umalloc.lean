import Xv6.Lib.Bytes
import Xv6.Lib.Hoare
import Xv6.Lib.Segment

/-!
# `User.Umalloc` — the allocator of user programs (`user/umalloc.c`)

The free list is a ring of blocks in address order, entered at a pointer `freep` that moves, with the static `base` as
its lowest node. A block is a header of one unit (8 bytes) and the units after it; the header's two words are kept here
as two functions of its address. What the process gets from the system is left open: `Os` is `sbrk` and which bytes the
process can use, and an access to others stops it.

## Contents
- **The code.** `ufree`, `morecore`, `malloc`.
- **Free lists.** `Block`, `FreeList`: the blocks that the ring consists of.
- **`free`.** `freeLoop_spec` finds the place, `ufree_spec` puts the block there and merges it with its neighbours.
- **`malloc`.** `takeBlock_spec` takes a block, `mallocLoop_spec` looks for it.
- **Memory from the system.** `Os.Grows`: what `sbrk` has to give; `morecore_spec`, `malloc_spec`.
-/

namespace Xv6

open Hoare Segment Bytes

/-! ## The code -/

/-- The two words of every header, `freep`, and the state of the system. -/
structure UHeap (E : Type) where
  ptr : Nat → Nat
  size : Nat → Nat
  freep : Nat
  env : E

/-- An access to memory that the process does not have, a panic of the kernel in `sbrk`, or the model out of steps. -/
inductive HeapStop where
  | segv
  | kernel
  | fuel
deriving Repr, DecidableEq

abbrev HeapM (E : Type) := Prog (UHeap E) HeapStop

/-- What a process sees of the system: `sbrk`, which returns an address or -1, and the bytes it can use. -/
structure Os (E : Type) where
  sbrk : Nat → Prog E HeapStop (Option Nat)
  mapped : E → Nat → Bool

section Code

variable {E : Type} (os : Os E)

/-- An access to the header at `p`. -/
def useHeader (p : Nat) : HeapM E Unit := do
  let env := (← get).env
  if os.mapped env p && os.mapped env (p + 7) then return () else throw .segv

/-- `p->s.ptr` -/
def getPtr (p : Nat) : HeapM E Nat := do
  useHeader os p
  return (← get).ptr p

/-- `p->s.size` -/
def getSize (p : Nat) : HeapM E Nat := do
  useHeader os p
  return (← get).size p

def setPtr (p v : Nat) : HeapM E Unit := do
  useHeader os p
  modify fun h => { h with ptr := Function.update h.ptr p v }

def setSize (p v : Nat) : HeapM E Unit := do
  useHeader os p
  modify fun h => { h with size := Function.update h.size p v }

/-- `p + n`, for a `Header *p`. -/
def unitsFrom (p n : Nat) : Nat := (p + 8 * n) % 4294967296

/-- Steps for once around the ring and more: no ring of headers in 4 GB is that long. -/
def WALK : Nat := 4294967296

/-- The loop of `free`: the node to insert after. -/
def freeLoop (bp : Nat) : Nat → Nat → HeapM E Nat
  | 0, _ => throw .fuel
  | fuel + 1, p => do
    let next ← getPtr os p
    if p < bp ∧ bp < next then return p
    else if next ≤ p ∧ (p < bp ∨ bp < next) then return p
    else freeLoop bp fuel next

/-- `free` after its loop, where it joins the block with the one above it. -/
def linkUp (bp p : Nat) : HeapM E Unit := do
  let next ← getPtr os p
  let n ← getSize os bp
  if unitsFrom bp n = next then do
    setSize os bp ((n + (← getSize os next)) % 4294967296)
    setPtr os bp (← getPtr os next)
  else setPtr os bp next

/-- The end of `free`, where it joins the block with the one below it. -/
def linkDown (bp p : Nat) : HeapM E Unit := do
  let m ← getSize os p
  if unitsFrom p m = bp then do
    setSize os p ((m + (← getSize os bp)) % 4294967296)
    setPtr os p (← getPtr os bp)
  else setPtr os p bp
  modify fun h => { h with freep := p }

/-- `free(ap)` -/
def ufree (ap : Nat) : HeapM E Unit := do
  let bp := usub ap 8
  let p ← freeLoop os bp WALK (← get).freep
  linkUp os bp p
  linkDown os bp p

/-- `morecore(nu)`: `freep`, or 0 when there is no memory. -/
def morecore (nu : Nat) : HeapM E Nat := do
  let nu := if nu < 4096 then 4096 else nu
  match ← zoom UHeap.env (fun e h => { h with env := e }) (os.sbrk ((nu * 8) % 4294967296)) with
  | none => return 0
  | some p => do
    setSize os p nu
    ufree os ((p + 8) % 4294967296)
    return (← get).freep

/-- A block large enough has been found at `p`. -/
def takeBlock (nunits prevp p : Nat) : HeapM E Nat := do
  let n ← getSize os p
  if n = nunits then do
    setPtr os prevp (← getPtr os p)
    modify fun h => { h with freep := prevp }
    return unitsFrom p 1
  else do
    setSize os p (n - nunits)
    let p := unitsFrom p (n - nunits)
    setSize os p nunits
    modify fun h => { h with freep := prevp }
    return unitsFrom p 1

/-- The loop of `malloc`. -/
def mallocLoop (nunits : Nat) : Nat → Nat → Nat → HeapM E Nat
  | 0, _, _ => throw .fuel
  | fuel + 1, prevp, p => do
    if nunits ≤ (← getSize os p) then takeBlock os nunits prevp p
    else if p = (← get).freep then do
      let p ← morecore os nunits
      if p = 0 then return 0 else mallocLoop nunits fuel p (← getPtr os p)
    else mallocLoop nunits fuel p (← getPtr os p)

/-- The units of a block for `nbytes` bytes. -/
def unitsFor (nbytes : Nat) : Nat := (nbytes + 7) % 4294967296 / 8 + 1

/-- `malloc(nbytes)`; `base` is the address of the static header. -/
def malloc (base nbytes : Nat) : HeapM E Nat := do
  if (← get).freep = 0 then do
    modify fun h => { h with freep := base }
    setPtr os base base
    setSize os base 0
  let prevp := (← get).freep
  mallocLoop os (unitsFor nbytes) WALK prevp (← getPtr os prevp)

end Code

/-! ## Free lists -/

/-- `units` units from `addr` on, the header among them. -/
structure Block where
  addr : Nat
  units : Nat
deriving Repr, DecidableEq

/-- Where the block ends. -/
def Block.stop (b : Block) : Nat := b.addr + 8 * b.units

/-- Byte `u` is in the block. -/
def Block.Has (b : Block) (u : Nat) : Prop := b.addr ≤ u ∧ u < b.stop

/-- Byte `u` is in one of the blocks. -/
def InBlocks (bs : List Block) (u : Nat) : Prop := ∃ b ∈ bs, b.Has u

/-- The block that was returned as `ap`, by its header. -/
def UHeap.blockAt {E : Type} (h : UHeap E) (ap : Nat) : Block := ⟨ap - 8, h.size (ap - 8)⟩

/-- The nodes of the ring. -/
def ringNodes (base : Nat) (free : List Block) : List Nat := base :: free.map Block.addr

/-- **The free list** consists of these blocks: they are a ring in address order, and between any two of them there is
    something that is not free. -/
structure FreeList (base : Nat) (ptr size : Nat → Nat) (free : List Block) : Prop where
  ring : Seg ptr base (ringNodes base free) base
  base_size : size base = 0
  sizes : ∀ b ∈ free, size b.addr = b.units
  gaps : free.Pairwise fun b c => b.stop < c.addr
  above : ∀ b ∈ free, base + 8 ≤ b.addr
  pos : ∀ b ∈ free, 0 < b.units
  bound : ∀ b ∈ free, b.stop < 4294967296

variable {E : Type} {os : Os E} {h : UHeap E} {base p bp x fuel : Nat} {ptr size : Nat → Nat} {free A B : List Block}
  {b c : Block}

/-- The process can use the header at `p`. -/
def Os.Header (os : Os E) (e : E) (p : Nat) : Prop := os.mapped e p = true ∧ os.mapped e (p + 7) = true

section Access

variable {R : HeapStop → UHeap E → Prop}

theorem wp_useHeader {Q : Unit → UHeap E → Prop} (hp : os.Header h.env p) : wp (useHeader os p) Q R h ↔ Q () h := by
  rw [useHeader, wp_bind, wp_get]
  dsimp only
  rw [hp.1, hp.2, Bool.and_self, if_pos rfl, wp_pure]

theorem wp_getPtr {Q : Nat → UHeap E → Prop} (hp : os.Header h.env p) : wp (getPtr os p) Q R h ↔ Q (h.ptr p) h := by
  rw [getPtr, wp_bind, wp_useHeader hp, wp_bind, wp_get, wp_pure]

theorem wp_getSize {Q : Nat → UHeap E → Prop} (hp : os.Header h.env p) : wp (getSize os p) Q R h ↔ Q (h.size p) h := by
  rw [getSize, wp_bind, wp_useHeader hp, wp_bind, wp_get, wp_pure]

theorem wp_setPtr {v : Nat} {Q : Unit → UHeap E → Prop} (hp : os.Header h.env p) :
    wp (setPtr os p v) Q R h ↔ Q () { h with ptr := Function.update h.ptr p v } := by
  rw [setPtr, wp_bind, wp_useHeader hp, wp_modify]

theorem wp_setSize {v : Nat} {Q : Unit → UHeap E → Prop} (hp : os.Header h.env p) :
    wp (setSize os p v) Q R h ↔ Q () { h with size := Function.update h.size p v } := by
  rw [setSize, wp_bind, wp_useHeader hp, wp_modify]

end Access

theorem Block.has_addr (hb : 0 < b.units) : b.Has b.addr := by
  refine ⟨Nat.le_refl _, ?_⟩
  rw [Block.stop]
  omega

theorem ringNodes_append : ringNodes base (A ++ B) = ringNodes base A ++ B.map Block.addr := by
  rw [ringNodes, ringNodes, List.map_append, List.cons_append]

/-- The last node: `base` alone, or a block. -/
theorem ringNodes_last {l : List Nat} (hp : ringNodes base A = l ++ [p]) :
    A = [] ∧ p = base ∨ ∃ A' a, A = A' ++ [a] ∧ p = a.addr := by
  have hlast : (ringNodes base A).getLast? = some p := by rw [hp, List.getLast?_concat]
  rcases List.eq_nil_or_concat A with hA | ⟨A', a, hA⟩
  · rw [hA] at hlast
    exact .inl ⟨hA, (Option.some.inj hlast).symm⟩
  · rw [hA, List.concat_eq_append, ringNodes_append, List.map_singleton, List.getLast?_concat] at hlast
    exact .inr ⟨A', a, by rw [hA, List.concat_eq_append], (Option.some.inj hlast).symm⟩

theorem ringNodes_mono (hAB : A ⊆ B) : ringNodes base A ⊆ ringNodes base B :=
  List.cons_subset_cons _ (List.map_subset _ hAB)

/-- The nodes are in address order. -/
theorem FreeList.sorted (hl : FreeList base ptr size free) : (ringNodes base free).Pairwise (· < ·) := by
  refine List.pairwise_cons.2 ⟨fun x hx => ?_, List.pairwise_map.2 ?_⟩
  · obtain ⟨b, hb, rfl⟩ := List.mem_map.1 hx
    have := hl.above b hb
    omega
  · refine hl.gaps.imp fun {b c} hbc => ?_
    rw [Block.stop] at hbc
    omega

/-- A node of the ring, and the rest of the ring from it on. -/
theorem FreeList.ring_from (hl : FreeList base ptr size free) (hp : p ∈ ringNodes base free) :
    ∃ l, Seg ptr p (p :: l) p ∧ (p :: l).Perm (ringNodes base free) := by
  obtain ⟨l, l', hsplit⟩ := List.append_of_mem hp
  have hring := hl.ring
  rw [hsplit] at hring ⊢
  refine ⟨l' ++ l, hring.ring_at, ?_⟩
  rw [← List.cons_append]
  exact List.perm_append_comm

/-! ## `free` -/

/-- The loop of `free` ends at `x`, when the node after it is `y`. -/
def Ends (bp x y : Nat) : Prop := x < bp ∧ bp < y ∨ y ≤ x ∧ (x < bp ∨ bp < y)

/-- Going along the ring up to where the loop ends. -/
theorem freeLoop_walk {Q : Nat → UHeap E → Prop} {R : HeapStop → UHeap E → Prop} {l : List Nat} {z : Nat}
    (hseg : Seg h.ptr x (l ++ [p]) z) (hl : ∀ c ∈ l, ¬Ends bp c (h.ptr c)) (hp : Ends bp p (h.ptr p))
    (hmap : ∀ c ∈ l ++ [p], os.Header h.env c) (hf : l.length < fuel) : wp (freeLoop os bp fuel x) Q R h ↔ Q p h := by
  induction l generalizing x fuel with
  | nil =>
    obtain ⟨fuel, rfl⟩ := Nat.exists_eq_succ_of_ne_zero (Nat.ne_zero_of_lt hf)
    obtain ⟨rfl, -⟩ := hseg
    rw [freeLoop, wp_bind, wp_getPtr (hmap _ List.mem_cons_self)]
    by_cases h1 : x < bp ∧ bp < h.ptr x
    · rw [if_pos h1, wp_pure]
    · rw [if_neg h1, if_pos (hp.resolve_left h1), wp_pure]
  | cons c l ih =>
    obtain ⟨fuel, rfl⟩ := Nat.exists_eq_succ_of_ne_zero (Nat.ne_zero_of_lt hf)
    obtain ⟨rfl, hseg⟩ := hseg
    have hno := not_or.1 (hl x List.mem_cons_self)
    rw [freeLoop, wp_bind, wp_getPtr (hmap _ List.mem_cons_self), if_neg hno.1, if_neg hno.2]
    exact ih hseg (fun d hd => hl d (List.mem_cons_of_mem _ hd)) (fun d hd => hmap d (List.mem_cons_of_mem _ hd))
      (Nat.lt_of_succ_lt_succ hf)

/-- The node after `x`: the next one up, or `base` after the highest. -/
theorem FreeList.next_cases (hl : FreeList base ptr size free) (hx : x ∈ ringNodes base free) :
    (ptr x = base ∧ ∀ y ∈ ringNodes base free, y ≤ x) ∨
      (x < ptr x ∧ ptr x ∈ ringNodes base free ∧ ∀ y ∈ ringNodes base free, x < y → ptr x ≤ y) := by
  obtain ⟨l, l', hsplit⟩ := List.append_of_mem hx
  have hring := hl.ring
  have hsorted := hl.sorted
  rw [hsplit] at hring hsorted ⊢
  obtain ⟨-, hright, hleft⟩ := List.pairwise_append.1 hsorted
  cases l' with
  | nil =>
    refine .inl ⟨hring.next_last, fun y hy => ?_⟩
    rcases List.mem_append.1 hy with hy | hy
    · exact Nat.le_of_lt (hleft y hy x List.mem_cons_self)
    · exact Nat.le_of_eq (List.mem_singleton.1 hy)
  | cons z l' =>
    obtain ⟨hxz, hz⟩ := List.pairwise_cons.1 hright
    rw [hring.next_mid]
    refine .inr ⟨hxz z List.mem_cons_self, by simp, fun y hy hlt => ?_⟩
    rcases List.mem_append.1 hy with hy | hy
    · exact absurd (hleft y hy x List.mem_cons_self) (by omega)
    rcases List.mem_cons.1 hy with rfl | hy
    · exact absurd hlt (Nat.lt_irrefl _)
    rcases List.mem_cons.1 hy with rfl | hy
    · exact Nat.le_refl _
    · exact Nat.le_of_lt ((List.pairwise_cons.1 hz).1 y hy)

theorem FreeList.base_le (hl : FreeList base ptr size free) (hx : x ∈ ringNodes base free) : base ≤ x := by
  rcases List.mem_cons.1 hx with rfl | hx
  · exact Nat.le_refl _
  · exact Nat.le_of_lt ((List.pairwise_cons.1 hl.sorted).1 x hx)

/-- **Where the loop ends**: at the highest node below the block, and at no other. -/
theorem FreeList.ends_iff (hl : FreeList base ptr size free) (hp : p ∈ ringNodes base free) (hlt : p < bp)
    (hmax : ∀ y ∈ ringNodes base free, y ≤ p ∨ bp < y) (hx : x ∈ ringNodes base free) : Ends bp x (ptr x) ↔ x = p := by
  have hbase := hl.base_le hp
  constructor
  · intro hends
    by_contra hne
    rcases hl.next_cases hx with ⟨hnext, htop⟩ | ⟨hnext, -, hleast⟩
    · have hpx := htop p hp
      have hbx := (hmax x hx).resolve_left (by omega)
      rw [hnext] at hends
      rcases hends with hends | hends
      · omega
      · omega
    · rcases hends with ⟨hends, hends'⟩ | hends
      · have := hleast p hp (by have := hmax x hx; omega)
        omega
      · omega
  · rintro rfl
    rcases hl.next_cases hx with ⟨hnext, -⟩ | ⟨hnext, hmem, -⟩
    · exact .inr ⟨by omega, .inl hlt⟩
    · exact .inl ⟨hlt, (hmax _ hmem).resolve_left (by omega)⟩

/-- A free list is not long. -/
theorem FreeList.length_lt (hl : FreeList base ptr size free) : 8 * free.length < 4294967296 := by
  have hgen : ∀ (l : List Block) (lo : Nat), l.Pairwise (fun b c => b.stop < c.addr) → (∀ b ∈ l, 0 < b.units) →
      (∀ b ∈ l, lo ≤ b.addr) → (∀ b ∈ l, b.stop < 4294967296) → lo < 4294967296 → lo + 8 * l.length < 4294967296 := by
    intro l
    induction l with
    | nil => intro lo _ _ _ _ hlo; exact hlo
    | cons c l ih =>
      intro lo hgaps hpos habove hbound hlo
      obtain ⟨hc, hgaps⟩ := List.pairwise_cons.1 hgaps
      have h1 := hpos c List.mem_cons_self
      have h2 := habove c List.mem_cons_self
      have h3 := hbound c List.mem_cons_self
      rw [Block.stop] at h3
      have := ih (lo + 8) hgaps (fun d hd => hpos d (List.mem_cons_of_mem _ hd)) (fun d hd => by
        have := hc d hd
        rw [Block.stop] at this
        omega) (fun d hd => hbound d (List.mem_cons_of_mem _ hd)) (by omega)
      rw [List.length_cons]
      omega
  have := hgen free 0 hl.gaps hl.pos (fun _ _ => Nat.zero_le _) hl.bound (by decide)
  omega

/-- **The place of a block**: from wherever `freep` is, the loop of `free` ends at the highest node below it. -/
theorem freeLoop_spec {Q : Nat → UHeap E → Prop} {R : HeapStop → UHeap E → Prop} (hl : FreeList base h.ptr h.size free)
    (hfreep : x ∈ ringNodes base free) (hp : p ∈ ringNodes base free) (hlt : p < bp)
    (hmax : ∀ y ∈ ringNodes base free, y ≤ p ∨ bp < y) (hmap : ∀ c ∈ ringNodes base free, os.Header h.env c) :
    wp (freeLoop os bp WALK x) Q R h ↔ Q p h := by
  obtain ⟨l, hring, hperm⟩ := hl.ring_from hfreep
  obtain ⟨l1, l2, hsplit⟩ := List.append_of_mem (hperm.mem_iff.2 hp)
  have hnodup : (l1 ++ p :: l2).Nodup := by
    rw [← hsplit, hperm.nodup_iff]
    exact hl.sorted.imp fun h => Nat.ne_of_lt h
  have hmem : ∀ c ∈ l1, c ∈ ringNodes base free ∧ c ≠ p := fun c hc => by
    refine ⟨hperm.mem_iff.1 (hsplit ▸ List.mem_append_left _ hc), fun heq => ?_⟩
    have hdis := (List.nodup_append.1 hnodup).2.2
    exact hdis c hc p List.mem_cons_self heq
  rw [hsplit] at hring
  obtain ⟨h1, -⟩ := seg_mid.1 hring
  refine freeLoop_walk (seg_mid.2 ⟨h1, rfl⟩) (fun c hc hends => ?_) ?_ (fun c hc => ?_) ?_
  · exact (hmem c hc).2 ((hl.ends_iff hp hlt hmax (hmem c hc).1).1 hends)
  · exact (hl.ends_iff hp hlt hmax hp).2 rfl
  · rcases List.mem_append.1 hc with hc | hc
    · exact hmap c (hmem c hc).1
    · rw [List.mem_singleton.1 hc]
      exact hmap p hp
  · have hlen := hperm.length_eq
    have hbound := hl.length_lt
    rw [hsplit, List.length_append, List.length_cons, ringNodes, List.length_cons, List.length_map] at hlen
    rw [WALK]
    omega

/-- Two blocks, one right after the other, as one. -/
def Block.join (b c : Block) : Block := ⟨b.addr, b.units + c.units⟩

theorem Block.join_stop (hbc : b.stop = c.addr) : (b.join c).stop = c.stop := by
  rw [Block.stop] at hbc
  rw [Block.stop, Block.stop, join]
  dsimp only
  omega

theorem Block.join_has {u : Nat} (hbc : b.stop = c.addr) : (b.join c).Has u ↔ b.Has u ∨ c.Has u := by
  rw [Block.Has, join_stop hbc, Block.Has, Block.Has, hbc, join]
  dsimp only
  rw [Block.stop] at hbc
  have hstop : c.stop = c.addr + 8 * c.units := rfl
  omega

theorem inBlocks_append {u : Nat} : InBlocks (A ++ B) u ↔ InBlocks A u ∨ InBlocks B u := by
  simp only [InBlocks, List.mem_append]
  constructor
  · rintro ⟨c, hc | hc, hu⟩
    · exact .inl ⟨c, hc, hu⟩
    · exact .inr ⟨c, hc, hu⟩
  · rintro (⟨c, hc, hu⟩ | ⟨c, hc, hu⟩)
    · exact ⟨c, .inl hc, hu⟩
    · exact ⟨c, .inr hc, hu⟩

theorem inBlocks_cons {u : Nat} : InBlocks (b :: B) u ↔ b.Has u ∨ InBlocks B u := by
  simp only [InBlocks, List.mem_cons]
  constructor
  · rintro ⟨c, rfl | hc, hu⟩
    · exact .inl hu
    · exact .inr ⟨c, hc, hu⟩
  · rintro (hu | ⟨c, hc, hu⟩)
    · exact ⟨b, .inl rfl, hu⟩
    · exact ⟨c, .inr hc, hu⟩

/-- One block among others. -/
theorem forall_mem_mid {P : Block → Prop} : (∀ c ∈ A ++ b :: B, P c) ↔ P b ∧ ∀ c ∈ A ++ B, P c := by
  rw [List.forall_mem_append, List.forall_mem_append, List.forall_mem_cons, and_left_comm]

/-- **A ring from its two parts**: the nodes up to the blocks of `A`, and then those of `B`. -/
theorem FreeList.of_parts {z : Nat} (hA : Seg ptr base (ringNodes base A) z) (hB : Seg ptr z (B.map Block.addr) base)
    (hbase : size base = 0) (hsizes : ∀ b ∈ A ++ B, size b.addr = b.units)
    (hgaps : (A ++ B).Pairwise fun b c => b.stop < c.addr) (habove : ∀ b ∈ A ++ B, base + 8 ≤ b.addr)
    (hpos : ∀ b ∈ A ++ B, 0 < b.units) (hbound : ∀ b ∈ A ++ B, b.stop < 4294967296) : FreeList base ptr size (A ++ B) where
  ring := by
    rw [ringNodes_append]
    exact seg_append.2 ⟨z, hA, hB⟩
  base_size := hbase
  sizes := hsizes
  gaps := hgaps
  above := habove
  pos := hpos
  bound := hbound

/-- Fewer blocks, with a ring of their own. -/
theorem FreeList.of_sublist {free' : List Block} {ptr' : Nat → Nat} (hl : FreeList base ptr size free)
    (hsub : free'.Sublist free) (hring : Seg ptr' base (ringNodes base free') base) : FreeList base ptr' size free' where
  ring := hring
  base_size := hl.base_size
  sizes := fun b hb => hl.sizes b (hsub.subset hb)
  gaps := hl.gaps.sublist hsub
  above := fun b hb => hl.above b (hsub.subset hb)
  pos := fun b hb => hl.pos b (hsub.subset hb)
  bound := fun b hb => hl.bound b (hsub.subset hb)

/-- What is known of a block that is to be put between the blocks `A` and `B` of a free list. -/
structure Between (base : Nat) (A B : List Block) (b : Block) : Prop where
  below : ∀ c ∈ A, c.stop ≤ b.addr
  beyond : ∀ c ∈ B, b.stop ≤ c.addr
  base_lt : base + 8 ≤ b.addr
  pos : 0 < b.units
  bound : b.stop < 4294967296

/-- The free list with a block put in after node `p`, the last of those below it; `b'` is the block, perhaps with the
    one above it, and `B'` are the others above. -/
theorem FreeList.link {B' : List Block} {b' : Block} {ptr' size' : Nat → Nat} {l : List Nat}
    (hl : FreeList base ptr size (A ++ B)) (hp : ringNodes base A = l ++ [p]) (hb : Between base A B' b')
    (hbelow : ∀ c ∈ A, c.stop ≠ b'.addr) (hover : ∀ c ∈ B', b'.stop ≠ c.addr) (hB' : ∃ C, B = C ++ B')
    (hseg : Seg ptr' (ptr' b'.addr) (B'.map Block.addr) base) (hlink : ptr' p = b'.addr)
    (hptr : ∀ x ∈ l, ptr' x = ptr x) (hsize : size' b'.addr = b'.units)
    (hsizes : ∀ x ∈ ringNodes base (A ++ B'), size' x = size x) : FreeList base ptr' size' (A ++ b' :: B') := by
  obtain ⟨C, rfl⟩ := hB'
  have hring := hl.ring
  rw [ringNodes_append, hp, List.append_assoc] at hring
  have hprefix : Seg ptr' base (ringNodes base A) b'.addr := by
    rw [hp]
    exact seg_mid.2 ⟨(seg_mid.1 hring).1.congr hptr, hlink⟩
  have hold {c : Block} (hc : c ∈ A ++ B') : c ∈ A ++ (C ++ B') := by
    rcases List.mem_append.1 hc with hc | hc
    · exact List.mem_append_left _ hc
    · exact List.mem_append_right _ (List.mem_append_right _ hc)
  have hgaps := hl.gaps
  rw [List.pairwise_append] at hgaps
  obtain ⟨hA, hCB, hcross⟩ := hgaps
  refine .of_parts hprefix ⟨rfl, hseg⟩ ?_ (forall_mem_mid.2 ⟨hsize, fun c hc => ?_⟩) ?_
    (forall_mem_mid.2 ⟨hb.base_lt, fun c hc => hl.above c (hold hc)⟩)
    (forall_mem_mid.2 ⟨hb.pos, fun c hc => hl.pos c (hold hc)⟩)
    (forall_mem_mid.2 ⟨hb.bound, fun c hc => hl.bound c (hold hc)⟩)
  · rw [hsizes base List.mem_cons_self]
    exact hl.base_size
  · rw [hsizes _ (List.mem_cons_of_mem _ (List.mem_map_of_mem hc))]
    exact hl.sizes c (hold hc)
  · refine List.pairwise_append.2 ⟨hA, List.pairwise_cons.2 ⟨fun c hc => ?_, (List.pairwise_append.1 hCB).2.1⟩, ?_⟩
    · exact Nat.lt_of_le_of_ne (hb.beyond c hc) (hover c hc)
    · intro a ha c hc
      rcases List.mem_cons.1 hc with rfl | hc
      · exact Nat.lt_of_le_of_ne (hb.below a ha) (hbelow a ha)
      · exact hcross a ha c (List.mem_append_right _ hc)

/-- Pointer arithmetic within 4 GB. -/
theorem Block.unitsFrom_eq (hb : b.stop < 4294967296) : unitsFrom b.addr b.units = b.stop := Nat.mod_eq_of_lt hb

/-- **The block joined with the one above**: `b'` is the block now, and `B'` are the blocks above it. -/
structure JoinedUp (base : Nat) (A B : List Block) (b b' : Block) (B' : List Block) (h h' : UHeap E) : Prop where
  addr : b'.addr = b.addr
  suffix : ∃ C, B = C ++ B'
  between : Between base A B' b'
  beyond : ∀ c ∈ B', b'.stop ≠ c.addr
  bytes : ∀ u, b'.Has u ∨ InBlocks B' u ↔ b.Has u ∨ InBlocks B u
  stop : b.stop ≤ b'.stop
  size : h'.size b.addr = b'.units
  link : Seg h.ptr (h'.ptr b.addr) (B'.map Block.addr) base
  others : ∀ x, x ≠ b.addr → h'.ptr x = h.ptr x ∧ h'.size x = h.size x
  env : h'.env = h.env

theorem JoinedUp.subset {b' : Block} {B' : List Block} {h' : UHeap E} (hup : JoinedUp base A B b b' B' h h') :
    A ++ B' ⊆ A ++ B := by
  obtain ⟨C, rfl⟩ := hup.suffix
  intro c hc
  rcases List.mem_append.1 hc with hc | hc
  · exact List.mem_append_left _ hc
  · exact List.mem_append_right _ (List.mem_append_right _ hc)

theorem linkUp_spec {l : List Nat} (hl : FreeList base h.ptr h.size (A ++ B)) (hp : ringNodes base A = l ++ [p])
    (hb : Between base A B b) (hsize : h.size b.addr = b.units)
    (hmap : ∀ x ∈ b.addr :: ringNodes base (A ++ B), os.Header h.env x) :
    wp (linkUp os b.addr p) (fun _ h' => ∃ b' B', JoinedUp base A B b b' B' h h') (fun _ _ => False) h := by
  have hring := hl.ring
  rw [ringNodes_append, hp, List.append_assoc] at hring
  have hnext := (seg_mid.1 hring).2
  have hpmem : p ∈ ringNodes base (A ++ B) := by rw [ringNodes_append, hp]; simp
  have hstop : b.stop = b.addr + 8 * b.units := rfl
  rw [linkUp, wp_bind, wp_getPtr (hmap p (List.mem_cons_of_mem _ hpmem)), wp_bind, wp_getSize (hmap _ List.mem_cons_self), hsize,
    Block.unitsFrom_eq hb.bound]
  cases B with
  | nil =>
    have hbase : h.ptr p = base := hnext
    have hlt := hb.base_lt
    rw [hbase, if_neg (by omega), wp_setPtr (hmap _ List.mem_cons_self)]
    refine ⟨b, [], rfl, ⟨[], rfl⟩, hb, fun c hc => absurd hc List.not_mem_nil, fun u => Iff.rfl, Nat.le_refl _, hsize, ?_,
      fun x hx => ⟨Function.update_of_ne hx _ _, rfl⟩, rfl⟩
    exact Function.update_self _ _ _
  | cons c B =>
    obtain ⟨hc, hrest⟩ := hnext
    have hcin : c ∈ A ++ c :: B := List.mem_append_right _ List.mem_cons_self
    have hcmem : c.addr ∈ ringNodes base (A ++ c :: B) := List.mem_cons_of_mem _ (List.mem_map_of_mem hcin)
    have hgaps : ∀ d ∈ B, c.stop < d.addr := (List.pairwise_cons.1 (List.pairwise_append.1 hl.gaps).2.1).1
    have hcpos := hl.pos c hcin
    have hcbound := hl.bound c hcin
    have hcstop : c.stop = c.addr + 8 * c.units := rfl
    have hbpos := hb.pos
    rw [hc]
    by_cases hjoin : b.stop = c.addr
    · have hstop' := Block.join_stop hjoin
      have hsum : (b.units + c.units) % 4294967296 = b.units + c.units := Nat.mod_eq_of_lt (by omega)
      have hcH := hmap _ (List.mem_cons_of_mem _ hcmem)
      rw [if_pos hjoin, wp_bind, wp_getSize hcH, wp_bind, wp_setSize (hmap _ List.mem_cons_self), wp_bind, hl.sizes c hcin,
        hsum]
      refine Iff.mpr (wp_getPtr hcH) (Iff.mpr (wp_setPtr (hmap _ List.mem_cons_self)) ⟨b.join c, B, ?_⟩)
      constructor
      case addr => rfl
      case suffix => exact ⟨[c], rfl⟩
      case between =>
        refine ⟨hb.below, fun d hd => ?_, hb.base_lt, Nat.add_pos_left hb.pos _, by rw [hstop']; exact hcbound⟩
        rw [hstop']
        exact Nat.le_of_lt (hgaps d hd)
      case beyond =>
        intro d hd
        rw [hstop']
        exact Nat.ne_of_lt (hgaps d hd)
      case bytes =>
        intro u
        rw [Block.join_has hjoin, inBlocks_cons, or_assoc]
      case stop =>
        rw [hstop']
        omega
      case size => exact Function.update_self _ _ _
      case link =>
        dsimp only
        rw [Function.update_self]
        exact hrest
      case others => exact fun x hx => ⟨Function.update_of_ne hx _ _, Function.update_of_ne hx _ _⟩
      case env => rfl
    · rw [if_neg hjoin, wp_setPtr (hmap _ List.mem_cons_self)]
      refine ⟨b, c :: B, rfl, ⟨[], rfl⟩, hb, fun d hd => ?_, fun u => Iff.rfl, Nat.le_refl _, hsize, ?_,
        fun x hx => ⟨Function.update_of_ne hx _ _, rfl⟩, rfl⟩
      · rcases List.mem_cons.1 hd with rfl | hd
        · exact hjoin
        · have := hgaps d hd
          have := hb.beyond c List.mem_cons_self
          omega
      · dsimp only
        rw [Function.update_self]
        exact ⟨rfl, hrest⟩

/-- **A block has become free.** -/
def Freed (base : Nat) (free : List Block) (b : Block) (h h' : UHeap E) : Prop :=
  ∃ free', FreeList base h'.ptr h'.size free' ∧ h'.freep ∈ ringNodes base free' ∧ h'.env = h.env ∧
    (∀ u, InBlocks free' u ↔ InBlocks free u ∨ b.Has u) ∧ (∃ c ∈ free', c.addr ≤ b.addr ∧ b.stop ≤ c.stop) ∧
    ∀ x, x ≠ base → ¬InBlocks free x → ¬b.Has x → h'.size x = h.size x

section Down

variable {l : List Nat} {b' : Block} {B' : List Block} {h1 : UHeap E} (hl : FreeList base h.ptr h.size (A ++ B))
  (hb : Between base A B b) (hup : JoinedUp base A B b b' B' h h1)

include hl hb in
/-- No node is at the address of the block. -/
theorem Between.ne_node (hx : x ∈ ringNodes base (A ++ B)) : x ≠ b.addr := by
  rcases List.mem_cons.1 hx with rfl | hx
  · have := hb.base_lt
    omega
  obtain ⟨c, hc, rfl⟩ := List.mem_map.1 hx
  have hpos := hl.pos c hc
  have hstop : c.stop = c.addr + 8 * c.units := rfl
  have hstop' : b.stop = b.addr + 8 * b.units := rfl
  have hbpos := hb.pos
  rcases List.mem_append.1 hc with hc | hc
  · have := hb.below c hc
    omega
  · have := hb.beyond c hc
    omega

include hl hb hup in
/-- The block is linked in after `p`. -/
theorem freed_link (hp : ringNodes base A = l ++ [p]) (hno : ∀ c ∈ A, c.stop ≠ b.addr) :
    Freed base (A ++ B) b h { h1 with ptr := Function.update h1.ptr p b.addr, freep := p } := by
  obtain ⟨C, hC⟩ := hup.suffix
  have hnodes : ringNodes base (A ++ B) = l ++ p :: (C.map Block.addr ++ B'.map Block.addr) := by
    rw [ringNodes_append, hp, hC, List.map_append, List.append_assoc, List.singleton_append]
  have hnodup : (l ++ p :: (C.map Block.addr ++ B'.map Block.addr)).Nodup := by
    rw [← hnodes]
    exact hl.sorted.imp fun h => Nat.ne_of_lt h
  obtain ⟨-, hright, hdis⟩ := List.nodup_append.1 hnodup
  have hbp : b.addr ≠ p := (hb.ne_node hl (hnodes ▸ List.mem_append_right _ List.mem_cons_self)).symm
  have hlist : FreeList base (Function.update h1.ptr p b.addr) h1.size (A ++ b' :: B') := by
    refine hl.link hp hup.between (by rw [hup.addr]; exact hno) hup.beyond hup.suffix ?_ ?_ ?_ ?_ ?_
    · rw [hup.addr, Function.update_of_ne hbp]
      refine hup.link.congr fun x hx => ?_
      have hmem : x ∈ C.map Block.addr ++ B'.map Block.addr := List.mem_append_right _ hx
      have hxp : x ≠ p := fun hxp => (List.nodup_cons.1 hright).1 (hxp ▸ hmem)
      rw [Function.update_of_ne hxp]
      exact (hup.others x (hb.ne_node hl (hnodes ▸ List.mem_append_right _ (List.mem_cons_of_mem _ hmem)))).1
    · rw [hup.addr, Function.update_self]
    · intro x hx
      rw [Function.update_of_ne (hdis x hx p List.mem_cons_self)]
      exact (hup.others x (hb.ne_node hl (hnodes ▸ List.mem_append_left _ hx))).1
    · rw [hup.addr]
      exact hup.size
    · intro x hx
      exact (hup.others x (hb.ne_node hl (ringNodes_mono hup.subset hx))).2
  refine ⟨A ++ b' :: B', hlist, ?_, hup.env, fun u => ?_, ⟨b', by simp, Nat.le_of_eq hup.addr, hup.stop⟩, fun x _ _ hx => ?_⟩
  · rw [ringNodes_append, hp]
    simp
  · rw [inBlocks_append, inBlocks_cons, hup.bytes, inBlocks_append, or_left_comm, or_comm]
  · exact (hup.others x fun hxb => hx (hxb ▸ Block.has_addr hb.pos)).2

include hl hb hup in
/-- The block is joined with `a`, the last one below it. -/
theorem freed_join {A' : List Block} {a : Block} (hA : A = A' ++ [a]) (hjoin : a.stop = b.addr) :
    Freed base (A ++ B) b h
      { h1 with
        ptr := Function.update h1.ptr a.addr (h1.ptr b.addr)
        size := Function.update h1.size a.addr (a.units + b'.units)
        freep := a.addr } := by
  obtain ⟨C, hC⟩ := hup.suffix
  obtain ⟨l, q, hq⟩ : ∃ l q, ringNodes base A' = l ++ [q] :=
    ⟨_, _, (List.dropLast_concat_getLast (List.cons_ne_nil _ _)).symm⟩
  have hnodes : ringNodes base (A ++ B) = l ++ q :: a.addr :: (C.map Block.addr ++ B'.map Block.addr) := by
    rw [hA, List.append_assoc, ringNodes_append, hq, hC, List.map_append, List.map_append]
    simp
  have hnodup : (l ++ q :: a.addr :: (C.map Block.addr ++ B'.map Block.addr)).Nodup := by
    rw [← hnodes]
    exact hl.sorted.imp fun h => Nat.ne_of_lt h
  obtain ⟨-, hright, hdis⟩ := List.nodup_append.1 hnodup
  have hain : a ∈ A ++ B := by rw [hA]; simp
  have hjoin' : a.stop = b'.addr := by rw [hup.addr]; exact hjoin
  have hstop' := Block.join_stop hjoin'
  have hbstop := hup.stop
  have hab : b.addr ≠ a.addr := (hb.ne_node hl (List.mem_cons_of_mem _ (List.mem_map_of_mem hain))).symm
  have hring := hl.ring
  rw [hnodes] at hring
  have hl' : FreeList base h.ptr h.size (A' ++ a :: B) := by
    rw [hA, List.append_assoc] at hl
    exact hl
  obtain ⟨hgA, hgaps, hcross⟩ := List.pairwise_append.1 hl'.gaps
  have hlist : FreeList base (Function.update h1.ptr a.addr (h1.ptr b.addr))
      (Function.update h1.size a.addr (a.units + b'.units)) (A' ++ a.join b' :: B') := by
    refine hl'.link hq ⟨fun c hc => ?_, fun c hc => ?_, hl.above a hain, ?_, ?_⟩ (fun c hc => ?_) (fun c hc => ?_)
      ⟨a :: C, by rw [hC]; rfl⟩ ?_ ?_ ?_ ?_ ?_
    · exact Nat.le_of_lt (hcross c hc a List.mem_cons_self)
    · rw [hstop']
      exact hup.between.beyond c hc
    · exact Nat.add_pos_left (hl.pos a hain) _
    · rw [hstop']
      exact hup.between.bound
    · exact Nat.ne_of_lt (hcross c hc a List.mem_cons_self)
    · rw [hstop']
      exact hup.beyond c hc
    · rw [Block.join, Function.update_self]
      refine hup.link.congr fun x hx => ?_
      have hmem : x ∈ C.map Block.addr ++ B'.map Block.addr := List.mem_append_right _ hx
      have hxa : x ≠ a.addr := fun hxa => (List.nodup_cons.1 (List.nodup_cons.1 hright).2).1 (hxa ▸ hmem)
      rw [Function.update_of_ne hxa]
      exact (hup.others x (hb.ne_node hl (hnodes ▸ by simp [hmem]))).1
    · have hqa : q ≠ a.addr := fun hqa => (List.nodup_cons.1 hright).1 (hqa ▸ List.mem_cons_self)
      rw [Function.update_of_ne hqa, (hup.others q (hb.ne_node hl (hnodes ▸ by simp))).1]
      exact hring.next_mid
    · intro x hx
      rw [Function.update_of_ne (hdis x hx a.addr (by simp))]
      exact (hup.others x (hb.ne_node hl (hnodes ▸ List.mem_append_left _ hx))).1
    · exact Function.update_self _ _ _
    · intro x hx
      have hxa : x ≠ a.addr := by
        rintro rfl
        rw [ringNodes_append, hq] at hx
        rcases List.mem_append.1 hx with hx | hx
        · rcases List.mem_append.1 hx with hx | hx
          · exact hdis _ hx a.addr (by simp) rfl
          · exact (List.nodup_cons.1 hright).1 (List.mem_singleton.1 hx ▸ List.mem_cons_self)
        · exact (List.nodup_cons.1 (List.nodup_cons.1 hright).2).1 (List.mem_append_right _ hx)
      rw [Function.update_of_ne hxa]
      refine (hup.others x (hb.ne_node hl (ringNodes_mono hup.subset (ringNodes_mono ?_ hx)))).2
      rw [hA]
      exact fun c hc => by
        rcases List.mem_append.1 hc with hc | hc
        · simp [hc]
        · simp [hc]
  refine ⟨A' ++ a.join b' :: B', hlist, ?_, hup.env, fun u => ?_, ⟨a.join b', by simp, ?_, ?_⟩, fun x _ hx hx' => ?_⟩
  · rw [ringNodes_append, List.map_cons]
    exact List.mem_append_right _ List.mem_cons_self
  · rw [inBlocks_append, inBlocks_cons, Block.join_has hjoin', or_assoc, hup.bytes, hA, inBlocks_append, inBlocks_append,
      inBlocks_cons]
    have hnil : ¬InBlocks [] u := fun ⟨c, hc, _⟩ => List.not_mem_nil hc
    tauto
  · have hstop : a.stop = a.addr + 8 * a.units := rfl
    rw [Block.join]
    dsimp only
    omega
  · rw [hstop']
    exact hbstop
  · have hxa : x ≠ a.addr := fun hxa => hx ⟨a, hain, hxa ▸ Block.has_addr (hl.pos a hain)⟩
    dsimp only
    rw [Function.update_of_ne hxa]
    exact (hup.others x fun hxb => hx' (hxb ▸ Block.has_addr hb.pos)).2

include hl hb hup in
/-- The end of `free`. -/
theorem linkDown_spec (hp : ringNodes base A = l ++ [p]) (hmap : ∀ x ∈ b.addr :: ringNodes base (A ++ B), os.Header h.env x) :
    wp (linkDown os b.addr p) (fun _ h' => Freed base (A ++ B) b h h') (fun _ _ => False) h1 := by
  have hpmem : p ∈ ringNodes base (A ++ B) := by rw [ringNodes_append, hp]; simp
  have hbH : os.Header h1.env b.addr := by rw [hup.env]; exact hmap _ List.mem_cons_self
  have hpH : os.Header h1.env p := by rw [hup.env]; exact hmap p (List.mem_cons_of_mem _ hpmem)
  have hpsize := (hup.others p (hb.ne_node hl hpmem)).2
  rw [linkDown, wp_bind, wp_getSize hpH, hpsize]
  rcases ringNodes_last hp with ⟨hA, rfl⟩ | ⟨A', a, hA, rfl⟩
  · -- nothing is below the block but `base`, which has no units
    have hlt := hb.base_lt
    have hbound := hb.bound
    have hstop : b.stop = b.addr + 8 * b.units := rfl
    have hunits : unitsFrom p 0 = p := Nat.mod_eq_of_lt (by omega)
    rw [hl.base_size, hunits, if_neg (by omega), wp_bind, wp_setPtr hpH, wp_modify]
    exact freed_link hl hb hup hp (by rw [hA]; exact fun c hc => absurd hc List.not_mem_nil)
  · have hain : a ∈ A ++ B := by rw [hA]; simp
    have hbelow := hb.below a (by rw [hA]; simp)
    have hbpos := hup.between.pos
    have hstop : a.stop = a.addr + 8 * a.units := rfl
    rw [hl.sizes a hain, Block.unitsFrom_eq (hl.bound a hain)]
    by_cases hjoin : a.stop = b.addr
    · have hsum : (a.units + b'.units) % 4294967296 = a.units + b'.units := by
        have hbound := hup.between.bound
        have hstop' : b'.stop = b'.addr + 8 * b'.units := rfl
        rw [hup.addr] at hstop'
        exact Nat.mod_eq_of_lt (by omega)
      rw [if_pos hjoin, wp_bind, wp_getSize hbH, hup.size, hsum, wp_bind, wp_setSize hpH, wp_bind]
      refine Iff.mpr (wp_getPtr hbH) ?_
      rw [wp_bind]
      refine Iff.mpr (wp_setPtr hpH) ?_
      exact freed_join hl hb hup hA hjoin
    · rw [if_neg hjoin, wp_bind, wp_setPtr hpH, wp_modify]
      refine freed_link hl hb hup hp fun c hc => ?_
      rw [hA] at hc
      rcases List.mem_append.1 hc with hc | hc
      · have hgaps := (List.pairwise_append.1 hl.gaps).1
        rw [hA] at hgaps
        have := (List.pairwise_append.1 hgaps).2.2 c hc a List.mem_cons_self
        omega
      · rw [List.mem_singleton.1 hc]
        exact hjoin

end Down

/-- A block that overlaps no free one has its place between them. -/
theorem exists_between (hgaps : free.Pairwise fun b c => b.stop < c.addr) (hb : ∀ c ∈ free, c.stop ≤ b.addr ∨ b.stop ≤ c.addr) :
    ∃ A B, free = A ++ B ∧ (∀ c ∈ A, c.stop ≤ b.addr) ∧ ∀ c ∈ B, b.stop ≤ c.addr := by
  induction free with
  | nil => exact ⟨[], [], rfl, fun c hc => absurd hc List.not_mem_nil, fun c hc => absurd hc List.not_mem_nil⟩
  | cons c free ih =>
    obtain ⟨hc, hgaps⟩ := List.pairwise_cons.1 hgaps
    rcases hb c List.mem_cons_self with hbelow | hover
    · obtain ⟨A, B, rfl, hA, hB⟩ := ih hgaps fun d hd => hb d (List.mem_cons_of_mem _ hd)
      refine ⟨c :: A, B, rfl, fun d hd => ?_, hB⟩
      rcases List.mem_cons.1 hd with rfl | hd
      · exact hbelow
      · exact hA d hd
    · refine ⟨[], c :: free, rfl, fun d hd => absurd hd List.not_mem_nil, fun d hd => ?_⟩
      rcases List.mem_cons.1 hd with rfl | hd
      · exact hover
      · have := hc d hd
        have hstop : c.stop = c.addr + 8 * c.units := rfl
        omega

/-- **`free`** puts a block that overlaps no free one into the free list. -/
theorem ufree_spec (hl : FreeList base h.ptr h.size free) (hfreep : h.freep ∈ ringNodes base free)
    (hb : ∀ c ∈ free, c.stop ≤ b.addr ∨ b.stop ≤ c.addr) (hbase : base + 8 ≤ b.addr) (hpos : 0 < b.units)
    (hbound : b.stop < 4294967296) (hsize : h.size b.addr = b.units)
    (hmap : ∀ x ∈ b.addr :: ringNodes base free, os.Header h.env x) :
    wp (ufree os (b.addr + 8)) (fun _ h' => Freed base free b h h') (fun _ _ => False) h := by
  obtain ⟨A, B, rfl, hA, hB⟩ := exists_between hl.gaps hb
  have hbt : Between base A B b := ⟨hA, hB, hbase, hpos, hbound⟩
  have hstop : b.stop = b.addr + 8 * b.units := rfl
  obtain ⟨l, p, hp⟩ : ∃ l p, ringNodes base A = l ++ [p] :=
    ⟨_, _, (List.dropLast_concat_getLast (List.cons_ne_nil _ _)).symm⟩
  have hnodes : ringNodes base (A ++ B) = l ++ p :: B.map Block.addr := by
    rw [ringNodes_append, hp, List.append_assoc, List.singleton_append]
  have hpmem : p ∈ ringNodes base (A ++ B) := hnodes ▸ List.mem_append_right _ List.mem_cons_self
  have hlt : p < b.addr := by
    rcases ringNodes_last hp with ⟨-, rfl⟩ | ⟨A', a, rfl, rfl⟩
    · omega
    · have := hA a (by simp)
      have := hl.pos a (by simp)
      have hstop' : a.stop = a.addr + 8 * a.units := rfl
      omega
  have hmax : ∀ y ∈ ringNodes base (A ++ B), y ≤ p ∨ b.addr < y := by
    intro y hy
    have hsorted := hl.sorted
    rw [hnodes] at hy hsorted
    rcases List.mem_append.1 hy with hy | hy
    · exact .inl (Nat.le_of_lt ((List.pairwise_append.1 hsorted).2.2 y hy p List.mem_cons_self))
    rcases List.mem_cons.1 hy with rfl | hy
    · exact .inl (Nat.le_refl _)
    · obtain ⟨c, hc, rfl⟩ := List.mem_map.1 hy
      have := hB c hc
      exact .inr (by omega)
  have hsub : usub (b.addr + 8) 8 = b.addr := by rw [usub_of_le (by omega) (by omega), Nat.add_sub_cancel]
  rw [ufree, hsub, wp_bind, wp_get, wp_bind, freeLoop_spec hl hfreep hpmem hlt hmax fun c hc => hmap c (List.mem_cons_of_mem _ hc), wp_bind]
  refine wp_post (linkUp_spec hl hp hbt hsize hmap) ?_
  rintro _ h1 ⟨b', B', hup⟩
  exact linkDown_spec hl hbt hup hp hmap

/-! ## `malloc` -/

/-- The process can use `base` and all bytes of the blocks. -/
def Usable (os : Os E) (e : E) (base : Nat) (bs : List Block) : Prop :=
  os.Header e base ∧ ∀ u, InBlocks bs u → os.mapped e u = true

theorem Usable.header {e : E} (hu : Usable os e base B) (hb : ∀ u, b.Has u → InBlocks B u) (hpos : 0 < b.units) :
    os.Header e b.addr := by
  refine ⟨hu.2 _ (hb _ (Block.has_addr hpos)), hu.2 _ (hb _ ⟨Nat.le_add_right _ _, ?_⟩)⟩
  rw [Block.stop]
  omega

theorem Usable.node {e : E} (hu : Usable os e base free) (hl : FreeList base ptr size free) :
    ∀ x ∈ ringNodes base free, os.Header e x := by
  intro x hx
  rcases List.mem_cons.1 hx with rfl | hx
  · exact hu.1
  · obtain ⟨b, hb, rfl⟩ := List.mem_map.1 hx
    exact hu.header (fun u hu => ⟨b, hb, hu⟩) (hl.pos b hb)

/-- **A block of `nunits` units has been taken** from the free list; `ap` is the address after its header. -/
def Taken (base : Nat) (free : List Block) (nunits ap : Nat) (t : Block) (h h' : UHeap E) : Prop :=
  t.units = nunits ∧ ap = t.addr + 8 ∧ h'.env = h.env ∧ h'.size t.addr = nunits ∧
    (∃ free', FreeList base h'.ptr h'.size free' ∧ h'.freep ∈ ringNodes base free' ∧
      (∀ u, InBlocks free u ↔ InBlocks free' u ∨ t.Has u) ∧ ∀ u, t.Has u → ¬InBlocks free' u) ∧
    ∀ x, x ≠ base → ¬InBlocks free x → h'.size x = h.size x

section Take

variable {l : List Nat} {nunits : Nat} (hl : FreeList base h.ptr h.size (A ++ b :: B)) (hp : ringNodes base A = l ++ [p])

include hl in
/-- Blocks are apart. -/
theorem FreeList.apart {u : Nat} (hu : b.Has u) : ¬InBlocks (A ++ B) u := by
  obtain ⟨-, hgaps, hcross⟩ := List.pairwise_append.1 hl.gaps
  obtain ⟨hlo, hhi⟩ := hu
  rintro ⟨c, hc, hlo', hhi'⟩
  rcases List.mem_append.1 hc with hc | hc
  · have := hcross c hc b List.mem_cons_self
    omega
  · have := (List.pairwise_cons.1 hgaps).1 c hc
    omega

include hl hp in
/-- The whole block is taken. -/
theorem taken_all : Taken base (A ++ b :: B) b.units (b.addr + 8) b h
    { h with ptr := Function.update h.ptr p (h.ptr b.addr), freep := p } := by
  have hnodes : ringNodes base (A ++ b :: B) = l ++ p :: b.addr :: B.map Block.addr := by
    rw [ringNodes_append, hp, List.append_assoc, List.singleton_append, List.map_cons]
  have hnodup : (l ++ p :: b.addr :: B.map Block.addr).Nodup := by
    rw [← hnodes]
    exact hl.sorted.imp fun h => Nat.ne_of_lt h
  obtain ⟨-, hright, hdis⟩ := List.nodup_append.1 hnodup
  have hpno : p ∉ l ++ b.addr :: B.map Block.addr := fun hmem => by
    rcases List.mem_append.1 hmem with hmem | hmem
    · exact hdis p hmem p List.mem_cons_self rfl
    · exact (List.nodup_cons.1 hright).1 hmem
  have hring := hl.ring
  rw [hnodes] at hring
  have hring' : Seg (Function.update h.ptr p (h.ptr b.addr)) base (ringNodes base (A ++ B)) base := by
    rw [ringNodes_append, hp, List.append_assoc, List.singleton_append]
    exact hring.remove hpno (Function.update_self _ _ _) fun c _ hc => Function.update_of_ne hc _ _
  have hsub : (A ++ B).Sublist (A ++ b :: B) := (List.sublist_cons_self b B).append_left A
  refine ⟨rfl, rfl, rfl, hl.sizes b (by simp), ⟨A ++ B, hl.of_sublist hsub hring', ?_, fun u => ?_, fun u hu => hl.apart hu⟩,
    fun x _ _ => rfl⟩
  · rw [ringNodes_append, hp]
    simp
  · rw [inBlocks_append, inBlocks_cons, inBlocks_append, or_left_comm, or_comm]

include hl in
/-- The end of the block is taken. -/
theorem taken_tail (hpos : 0 < nunits) (hlt : nunits < b.units) (hp : p ∈ ringNodes base (A ++ b :: B)) :
    Taken base (A ++ b :: B) nunits (b.addr + 8 * (b.units - nunits) + 8) ⟨b.addr + 8 * (b.units - nunits), nunits⟩ h
      { h with
        size := Function.update (Function.update h.size b.addr (b.units - nunits)) (b.addr + 8 * (b.units - nunits)) nunits
        freep := p } := by
  have hstop : b.stop = b.addr + 8 * b.units := rfl
  -- the part that is left, and the part that is taken
  have hleft : Block.stop ⟨b.addr, b.units - nunits⟩ = b.addr + 8 * (b.units - nunits) := rfl
  have hright : Block.stop ⟨b.addr + 8 * (b.units - nunits), nunits⟩ = b.stop := by
    rw [hstop, Block.stop]
    dsimp only
    omega
  have hhas {u : Nat} : b.Has u ↔ Block.Has ⟨b.addr, b.units - nunits⟩ u ∨
      Block.Has ⟨b.addr + 8 * (b.units - nunits), nunits⟩ u := by
    rw [Block.Has, Block.Has, Block.Has, hleft, hright]
    dsimp only
    omega
  have hfree : FreeList base h.ptr
      (Function.update (Function.update h.size b.addr (b.units - nunits)) (b.addr + 8 * (b.units - nunits)) nunits)
      (A ++ ⟨b.addr, b.units - nunits⟩ :: B) := by
    obtain ⟨hgA, hgaps, hcross⟩ := List.pairwise_append.1 hl.gaps
    obtain ⟨hgb, hgB⟩ := List.pairwise_cons.1 hgaps
    obtain ⟨hbsize, hsizes⟩ := forall_mem_mid.1 hl.sizes
    obtain ⟨hbabove, habove⟩ := forall_mem_mid.1 hl.above
    obtain ⟨-, hposs⟩ := forall_mem_mid.1 hl.pos
    obtain ⟨hbbound, hbound⟩ := forall_mem_mid.1 hl.bound
    constructor
    case ring =>
      have hring := hl.ring
      rw [ringNodes_append] at hring ⊢
      exact hring
    case base_size =>
      rw [Function.update_of_ne (by omega), Function.update_of_ne (by omega)]
      exact hl.base_size
    case sizes =>
      refine forall_mem_mid.2 ⟨?_, fun c hc => ?_⟩
      · dsimp only
        rw [Function.update_of_ne (by omega), Function.update_self]
      · have hcpos := hposs c hc
        have hcstop : c.stop = c.addr + 8 * c.units := rfl
        have hne : c.addr ≠ b.addr ∧ c.addr ≠ b.addr + 8 * (b.units - nunits) := by
          rcases List.mem_append.1 hc with hc | hc
          · have := hcross c hc b List.mem_cons_self
            omega
          · have := hgb c hc
            omega
        rw [Function.update_of_ne hne.2, Function.update_of_ne hne.1]
        exact hsizes c hc
    case gaps =>
      refine List.pairwise_append.2 ⟨hgA, List.pairwise_cons.2 ⟨fun c hc => ?_, hgB⟩, fun a ha => List.forall_mem_cons.2 ⟨?_, ?_⟩⟩
      · have := hgb c hc
        omega
      · exact hcross a ha b List.mem_cons_self
      · exact fun c hc => hcross a ha c (List.mem_cons_of_mem _ hc)
    case above => exact forall_mem_mid.2 ⟨hbabove, habove⟩
    case pos => exact forall_mem_mid.2 ⟨Nat.sub_pos_of_lt hlt, hposs⟩
    case bound => exact forall_mem_mid.2 ⟨by omega, hbound⟩
  refine ⟨rfl, rfl, rfl, Function.update_self _ _ _, ⟨_, hfree, ?_, fun u => ?_, fun u hu hin => ?_⟩, fun x hx hno => ?_⟩
  · rw [ringNodes_append] at hp ⊢
    exact hp
  · rw [inBlocks_append, inBlocks_cons, inBlocks_append, inBlocks_cons, hhas]
    tauto
  · rw [inBlocks_append, inBlocks_cons, or_left_comm, ← inBlocks_append] at hin
    rcases hin with hin | hin
    · have h1 := hin.2
      have h2 := hu.1
      rw [hleft] at h1
      dsimp only at h2
      omega
    · exact hl.apart (hhas.2 (.inr hu)) hin
  · have hxb (hin : b.Has x) : False := hno ⟨b, by simp, hin⟩
    have hbpos : 0 < b.units := by omega
    have hxa : x ≠ b.addr := fun hxa => hxb (hxa ▸ Block.has_addr hbpos)
    have hxt : x ≠ b.addr + 8 * (b.units - nunits) := fun hxt => hxb (hhas.2 (.inr (hxt ▸ Block.has_addr hpos)))
    dsimp only
    rw [Function.update_of_ne hxt, Function.update_of_ne hxa]

include hl hp in
/-- **Taking a block** that has enough units, when `p` is the node before it. -/
theorem takeBlock_spec (hu : Usable os h.env base (A ++ b :: B)) (hpos : 0 < nunits) (hle : nunits ≤ b.units) :
    wp (takeBlock os nunits p b.addr) (fun ap h' => ∃ t, Taken base (A ++ b :: B) nunits ap t h h') (fun _ _ => False) h := by
  have hbin : b ∈ A ++ b :: B := by simp
  have hnode := hu.node hl
  have hpmem : p ∈ ringNodes base (A ++ b :: B) := by rw [ringNodes_append, hp]; simp
  have hbH := hnode b.addr (List.mem_cons_of_mem _ (List.mem_map_of_mem hbin))
  have hbound := hl.bound b hbin
  have hstop : b.stop = b.addr + 8 * b.units := rfl
  rw [takeBlock, wp_bind, wp_getSize hbH, hl.sizes b hbin]
  by_cases heq : b.units = nunits
  · have hret : unitsFrom b.addr 1 = b.addr + 8 := Nat.mod_eq_of_lt (by omega)
    rw [if_pos heq, wp_bind, wp_getPtr hbH, wp_bind, wp_setPtr (hnode p hpmem), wp_bind, wp_modify, wp_pure, hret, ← heq]
    exact ⟨b, taken_all hl hp⟩
  · have htail : unitsFrom b.addr (b.units - nunits) = b.addr + 8 * (b.units - nunits) := Nat.mod_eq_of_lt (by omega)
    have hret : unitsFrom (b.addr + 8 * (b.units - nunits)) 1 = b.addr + 8 * (b.units - nunits) + 8 :=
      Nat.mod_eq_of_lt (by omega)
    have htH : os.Header h.env (b.addr + 8 * (b.units - nunits)) := by
      have hhas {u : Nat} (hu : Block.Has ⟨b.addr + 8 * (b.units - nunits), nunits⟩ u) : b.Has u := by
        obtain ⟨h1, h2⟩ := hu
        rw [Block.stop] at h2
        dsimp only at h1 h2
        exact ⟨by omega, by omega⟩
      exact hu.header (fun u hu => ⟨b, hbin, hhas hu⟩) hpos
    rw [if_neg heq, wp_bind, wp_setSize hbH, htail]
    dsimp only
    rw [hret, wp_bind]
    refine Iff.mpr (wp_setSize htH) ?_
    exact ⟨_, taken_tail hl hpos (by omega) hpmem⟩

end Take

/-- Only one node links to a block. -/
theorem FreeList.prev_eq {q : Nat} (hl : FreeList base ptr size free) (hp : p ∈ ringNodes base free)
    (hq : q ∈ ringNodes base free) (hlink : ptr p = ptr q) : p = q := by
  rcases hl.next_cases hp with ⟨hp1, hp2⟩ | ⟨hp1, hp2, hp3⟩
  · rcases hl.next_cases hq with ⟨hq1, hq2⟩ | ⟨hq1, hq2, hq3⟩
    · have := hp2 q hq
      have := hq2 p hp
      omega
    · have := hl.base_le hq
      omega
  · rcases hl.next_cases hq with ⟨hq1, hq2⟩ | ⟨hq1, hq2, hq3⟩
    · have := hl.base_le hp
      omega
    · have := hp3 q hq
      have := hq3 p hp
      omega

/-- A node with units is a block of the list, and the node before it is the last of those below. -/
theorem FreeList.block_at {prevp : Nat} (hl : FreeList base ptr size free) (hprev : prevp ∈ ringNodes base free)
    (hlink : ptr prevp = p) (hp : p ∈ ringNodes base free) (hsize : 0 < size p) :
    ∃ A b B l, free = A ++ b :: B ∧ p = b.addr ∧ size p = b.units ∧ ringNodes base A = l ++ [prevp] := by
  rcases List.mem_cons.1 hp with rfl | hp
  · exact absurd hl.base_size (by omega)
  obtain ⟨b, hb, rfl⟩ := List.mem_map.1 hp
  obtain ⟨A, B, rfl⟩ := List.append_of_mem hb
  obtain ⟨l, q, hq⟩ : ∃ l q, ringNodes base A = l ++ [q] :=
    ⟨_, _, (List.dropLast_concat_getLast (List.cons_ne_nil _ _)).symm⟩
  have hnodes : ringNodes base (A ++ b :: B) = l ++ q :: b.addr :: B.map Block.addr := by
    rw [ringNodes_append, hq, List.append_assoc, List.singleton_append, List.map_cons]
  have hring := hl.ring
  rw [hnodes] at hring
  obtain rfl := hl.prev_eq hprev (hnodes ▸ List.mem_append_right _ List.mem_cons_self) (hlink.trans hring.next_mid.symm)
  exact ⟨A, b, B, l, rfl, rfl, hl.sizes b hb, hq⟩

/-- A block with enough units is taken. -/
theorem mallocLoop_fit {nunits prevp : Nat} {Q : Nat → UHeap E → Prop} (hl : FreeList base h.ptr h.size free)
    (hu : Usable os h.env base free) (hpos : 0 < nunits) (hprev : prevp ∈ ringNodes base free) (hlink : h.ptr prevp = p)
    (hp : p ∈ ringNodes base free) (hfits : nunits ≤ h.size p)
    (hfit : ∀ ap h' t, Taken base free nunits ap t h h' → Q ap h') :
    wp (mallocLoop os nunits (fuel + 1) prevp p) Q (fun _ _ => False) h := by
  rw [mallocLoop, wp_bind, wp_getSize (hu.node hl p hp), if_pos hfits]
  obtain ⟨A, b, B, l, rfl, rfl, hsize, hq⟩ := hl.block_at hprev hlink hp (by omega)
  exact wp_post (takeBlock_spec hl hq hu hpos (by omega)) fun ap h' ⟨t, ht⟩ => hfit ap h' t ht

/-- **The search of `malloc`** along the ring, from `p` up to `freep`: the first block with enough units is taken, and
    without one the loop asks for memory. -/
theorem mallocLoop_walk {l : List Nat} {nunits prevp z : Nat} {Q : Nat → UHeap E → Prop}
    (hl : FreeList base h.ptr h.size free) (hu : Usable os h.env base free) (hpos : 0 < nunits)
    (hseg : Seg h.ptr p (l ++ [h.freep]) z) (hmem : ∀ c ∈ l ++ [h.freep], c ∈ ringNodes base free) (hno : h.freep ∉ l)
    (hprev : prevp ∈ ringNodes base free) (hlink : h.ptr prevp = p) (hf : l.length < fuel)
    (hfit : ∀ ap h' t, Taken base free nunits ap t h h' → Q ap h')
    (hmore : (∀ c ∈ l ++ [h.freep], h.size c < nunits) → ∀ fuel', fuel = fuel' + l.length + 1 →
      wp (do let p ← morecore os nunits
             if p = 0 then return 0 else mallocLoop os nunits fuel' p (← getPtr os p)) Q (fun _ _ => False) h) :
    wp (mallocLoop os nunits fuel prevp p) Q (fun _ _ => False) h := by
  have hnode := hu.node hl
  induction l generalizing p prevp fuel with
  | nil =>
    obtain ⟨fuel, rfl⟩ := Nat.exists_eq_succ_of_ne_zero (Nat.ne_zero_of_lt hf)
    obtain ⟨rfl, -⟩ := hseg
    have hpmem := hmem h.freep List.mem_cons_self
    by_cases hfits : nunits ≤ h.size h.freep
    · exact mallocLoop_fit hl hu hpos hprev hlink hpmem hfits hfit
    · rw [mallocLoop, wp_bind, wp_getSize (hnode _ hpmem), if_neg hfits, wp_bind, wp_get, if_pos rfl]
      refine hmore (fun c hc => ?_) fuel rfl
      rw [List.mem_singleton.1 hc]
      omega
  | cons c l ih =>
    obtain ⟨fuel, rfl⟩ := Nat.exists_eq_succ_of_ne_zero (Nat.ne_zero_of_lt hf)
    obtain ⟨rfl, hseg⟩ := hseg
    have hpmem := hmem p List.mem_cons_self
    by_cases hfits : nunits ≤ h.size p
    · exact mallocLoop_fit hl hu hpos hprev hlink hpmem hfits hfit
    · have hne : p ≠ h.freep := fun hp => hno (hp ▸ List.mem_cons_self)
      rw [mallocLoop, wp_bind, wp_getSize (hnode p hpmem), if_neg hfits, wp_bind, wp_get, if_neg hne, wp_bind,
        wp_getPtr (hnode p hpmem)]
      refine ih hseg (fun d hd => hmem d (List.mem_cons_of_mem _ hd)) (fun hd => hno (List.mem_cons_of_mem _ hd)) hpmem rfl
        (Nat.lt_of_succ_lt_succ hf) fun hsmall fuel' hfuel => ?_
      refine hmore (fun d hd => ?_) fuel' (by rw [List.length_cons]; omega)
      rcases List.mem_cons.1 hd with rfl | hd
      · omega
      · exact hsmall d hd

/-- Once around the ring: the search with its answer. -/
theorem mallocLoop_spec {nunits : Nat} {Q : Nat → UHeap E → Prop} (hl : FreeList base h.ptr h.size free)
    (hu : Usable os h.env base free) (hpos : 0 < nunits) (hfreep : h.freep ∈ ringNodes base free)
    (hf : free.length < fuel) (hfit : ∀ ap h' t, Taken base free nunits ap t h h' → Q ap h')
    (hmore : (∀ c ∈ free, c.units < nunits) → ∀ fuel', fuel = fuel' + free.length + 1 →
      wp (do let p ← morecore os nunits
             if p = 0 then return 0 else mallocLoop os nunits fuel' p (← getPtr os p)) Q (fun _ _ => False) h) :
    wp (mallocLoop os nunits fuel h.freep (h.ptr h.freep)) Q (fun _ _ => False) h := by
  obtain ⟨l, ⟨-, hring⟩, hperm⟩ := hl.ring_from hfreep
  have hlen : l.length = free.length := by
    have := hperm.length_eq
    rw [List.length_cons, ringNodes, List.length_cons, List.length_map] at this
    omega
  have hnodup : (h.freep :: l).Nodup := hperm.nodup_iff.2 (hl.sorted.imp fun h => Nat.ne_of_lt h)
  have hmem {c : Nat} : c ∈ l ++ [h.freep] ↔ c ∈ ringNodes base free := by
    rw [← hperm.mem_iff, List.mem_append, List.mem_singleton, List.mem_cons, or_comm]
  refine mallocLoop_walk hl hu hpos (seg_append.2 ⟨_, hring, rfl, rfl⟩) (fun c hc => hmem.1 hc) (List.nodup_cons.1 hnodup).1
    hfreep rfl (by omega) hfit fun hsmall fuel' hfuel => hmore (fun c hc => ?_) fuel' (by omega)
  rw [← hl.sizes c hc]
  exact hsmall _ (hmem.2 (List.mem_cons_of_mem _ (List.mem_map_of_mem hc)))

/-! ## Memory from the system -/

/-- How many units `morecore` asks for. -/
def coreUnits (nunits : Nat) : Nat := if nunits < 4096 then 4096 else nunits

/-- **What `malloc` relies on**, when it asks for `nu` units: `Ok e chunks` says that the process has got these chunks and
    can use them, and `sbrk` either fails or adds one above the others. -/
structure Os.Grows (os : Os E) (base nu : Nat) (Ok : E → List Block → Prop) : Prop where
  usable : ∀ {e chunks}, Ok e chunks → Usable os e base chunks
  sbrk : ∀ {e chunks}, Ok e chunks → wp (os.sbrk (nu * 8 % 4294967296)) (fun r e' => match r with
    | none => Ok e' chunks
    | some a => Ok e' (⟨a, nu⟩ :: chunks) ∧ base + 8 ≤ a ∧ (∀ c ∈ chunks, c.stop ≤ a) ∧ a + 8 * nu < 4294967296)
      (fun _ _ => False) e

/-- The process has got a new chunk from the system, or nothing. -/
def NewCore (nu : Nat) (chunks chunks' : List Block) : Prop :=
  chunks' = chunks ∨ ∃ a, chunks' = ⟨a, nu⟩ :: chunks ∧ ∀ c ∈ chunks, c.stop ≤ a

/-- **`morecore` succeeds**: the new chunk is in the free list, merged with what is free below it. -/
def CoreGot (base nu : Nat) (free : List Block) (a : Nat) (h h' : UHeap E) : Prop :=
  ∃ free', FreeList base h'.ptr h'.size free' ∧ h'.freep ∈ ringNodes base free' ∧
    (∀ u, InBlocks free' u ↔ InBlocks free u ∨ (Block.mk a nu).Has u) ∧ (∃ c ∈ free', nu ≤ c.units) ∧
    ∀ x, x ≠ base → ¬InBlocks free x → ¬(Block.mk a nu).Has x → h'.size x = h.size x

section Core

variable {Ok : E → List Block → Prop} {chunks : List Block} {nunits : Nat} {Q : Nat → UHeap E → Prop}

theorem coreUnits_pos : 0 < coreUnits nunits := by
  rw [coreUnits]
  split <;> omega

theorem le_coreUnits (nu : Nat) : nu ≤ coreUnits nu := by
  rw [coreUnits]
  split <;> omega

theorem morecore_spec (hos : os.Grows base (coreUnits nunits) Ok) (hok : Ok h.env chunks)
    (hl : FreeList base h.ptr h.size free) (hfreep : h.freep ∈ ringNodes base free)
    (hsub : ∀ u, InBlocks free u → InBlocks chunks u)
    (hnone : ∀ e', Ok e' chunks → Q 0 { h with env := e' })
    (hsome : ∀ a h', Ok h'.env (⟨a, coreUnits nunits⟩ :: chunks) → (∀ c ∈ chunks, c.stop ≤ a) →
      CoreGot base (coreUnits nunits) free a h h' → Q h'.freep h') :
    wp (morecore os nunits) Q (fun _ _ => False) h := by
  rw [morecore, ← coreUnits, wp_bind, wp_zoom]
  refine wp_post (hos.sbrk hok) fun r e' hr => ?_
  cases r with
  | none => exact wp_pure.2 (hnone e' hr)
  | some a =>
    obtain ⟨hok', hbase, habove, hbound⟩ := hr
    have hpos : 0 < coreUnits nunits := coreUnits_pos
    have hu := hos.usable hok'
    have hstop : (Block.mk a (coreUnits nunits)).stop = a + 8 * coreUnits nunits := rfl
    have hnew : os.Header e' a := hu.header (b := ⟨a, coreUnits nunits⟩) (fun u hu => ⟨_, List.mem_cons_self, hu⟩) hpos
    -- the size of the new block is written outside the free list
    have hout : ∀ c ∈ free, c.stop ≤ a := by
      intro c hc
      by_contra hlt
      have hcpos := hl.pos c hc
      have hcstop : c.stop = c.addr + 8 * c.units := rfl
      obtain ⟨d, hd, -, hdhi⟩ := hsub (c.stop - 1) ⟨c, hc, by omega, by omega⟩
      have := habove d hd
      omega
    have hne : ∀ x ∈ ringNodes base free, x ≠ a := by
      intro x hx
      rcases List.mem_cons.1 hx with rfl | hx
      · omega
      obtain ⟨c, hc, rfl⟩ := List.mem_map.1 hx
      have := hout c hc
      have := hl.pos c hc
      have hcstop : c.stop = c.addr + 8 * c.units := rfl
      omega
    rw [wp_bind]
    refine Iff.mpr (wp_setSize hnew) ?_
    have hl' : FreeList base h.ptr (Function.update h.size a (coreUnits nunits)) free := by
      refine { hl with base_size := ?_, sizes := fun c hc => ?_ }
      · rw [Function.update_of_ne (hne base List.mem_cons_self), hl.base_size]
      · rw [Function.update_of_ne (hne c.addr (List.mem_cons_of_mem _ (List.mem_map_of_mem hc))), hl.sizes c hc]
    rw [wp_bind, Nat.mod_eq_of_lt (by omega)]
    refine wp_post (ufree_spec (b := ⟨a, coreUnits nunits⟩) hl' hfreep (fun c hc => .inl (hout c hc)) hbase hpos hbound
      (Function.update_self ..) fun x hx => ?_) fun _ h' hfreed => ?_
    · rcases List.mem_cons.1 hx with rfl | hx
      · exact hnew
      · refine Usable.node ⟨hu.1, fun u hfu => hu.2 u ?_⟩ hl x hx
        obtain ⟨d, hd, hdu⟩ := hsub u hfu
        exact ⟨d, List.mem_cons_of_mem _ hd, hdu⟩
    · obtain ⟨free', hfl, hfp, henv, hbytes, ⟨c, hc, hlo, hhi⟩, hframe⟩ := hfreed
      rw [wp_bind, wp_get, wp_pure]
      have hcstop : c.stop = c.addr + 8 * c.units := rfl
      refine hsome a h' (by rw [henv]; exact hok') habove ⟨free', hfl, hfp, hbytes, ⟨c, hc, ?_⟩, fun x hx hfx hbx => ?_⟩
      · dsimp only at hlo
        omega
      · have hxa : x ≠ a := by
          rintro rfl
          exact hbx (Block.has_addr hpos)
        rw [hframe x hx hfx hbx]
        exact Function.update_of_ne hxa ..

/-- **`malloc` has returned a block** of `nunits` units, of what was free or of a new chunk. -/
def Served (base nunits : Nat) (free chunks chunks' : List Block) (ap : Nat) (h h' : UHeap E) : Prop :=
  ∃ (t : Block) (free' : List Block), t.units = nunits ∧ ap = t.addr + 8 ∧ h'.size t.addr = nunits ∧ FreeList base h'.ptr h'.size free' ∧
    h'.freep ∈ ringNodes base free' ∧ NewCore (coreUnits nunits) chunks chunks' ∧
    (∀ u, InBlocks free' u ∨ t.Has u ↔ InBlocks free u ∨ InBlocks chunks' u ∧ ¬InBlocks chunks u) ∧
    (∀ u, t.Has u → ¬InBlocks free' u) ∧
    ∀ x, x ≠ base → InBlocks chunks x → ¬InBlocks free x → h'.size x = h.size x

/-- A block taken from a list that was there all along. -/
theorem Taken.served {ap : Nat} {t : Block} {h' : UHeap E} (ht : Taken base free nunits ap t h h') :
    Served base nunits free chunks chunks ap h h' := by
  obtain ⟨hunits, hap, henv, hsize, ⟨free', hfl, hfp, hbytes, hdisj⟩, hframe⟩ := ht
  refine ⟨t, free', hunits, hap, hsize, hfl, hfp, .inl rfl, fun u => ?_, hdisj, fun x hx _ hfx => hframe x hx hfx⟩
  rw [← hbytes u]
  exact ⟨.inl, fun hu => hu.resolve_right fun ⟨h1, h2⟩ => h2 h1⟩

/-- A block taken from a list with a new chunk in it. -/
theorem Taken.served_core {ap a : Nat} {t : Block} {free1 : List Block} {h1 h' : UHeap E}
    (hbytes1 : ∀ u, InBlocks free1 u ↔ InBlocks free u ∨ (Block.mk a (coreUnits nunits)).Has u)
    (hframe1 : ∀ x, x ≠ base → ¬InBlocks free x → ¬(Block.mk a (coreUnits nunits)).Has x → h1.size x = h.size x)
    (habove : ∀ c ∈ chunks, c.stop ≤ a) (ht : Taken base free1 nunits ap t h1 h') :
    Served base nunits free chunks (⟨a, coreUnits nunits⟩ :: chunks) ap h h' := by
  obtain ⟨hunits, hap, henv, hsize, ⟨free', hfl, hfp, hbytes, hdisj⟩, hframe⟩ := ht
  have hnew : ∀ u, (Block.mk a (coreUnits nunits)).Has u → ¬InBlocks chunks u := by
    rintro u ⟨hlo, -⟩ ⟨c, hc, -, hhi⟩
    have := habove c hc
    dsimp only at hlo
    omega
  refine ⟨t, free', hunits, hap, hsize, hfl, hfp, .inr ⟨a, rfl, habove⟩, fun u => ?_, hdisj, fun x hx hcx hfx => ?_⟩
  · rw [← hbytes u, hbytes1 u]
    refine or_congr_right ⟨fun hu => ⟨⟨_, List.mem_cons_self, hu⟩, hnew u hu⟩, fun ⟨⟨c, hc, hcu⟩, hno⟩ => ?_⟩
    rcases List.mem_cons.1 hc with rfl | hc
    · exact hcu
    · exact absurd ⟨c, hc, hcu⟩ hno
  · have hax : ¬(Block.mk a (coreUnits nunits)).Has x := fun hx => hnew x hx hcx
    rw [hframe x hx fun hx1 => ((hbytes1 x).1 hx1).elim hfx hax, hframe1 x hx hfx hax]

/-- **The search with all it can lead to**: no memory, or a block. -/
theorem mallocLoop_served (hbase : 0 < base) (hos : os.Grows base (coreUnits nunits) Ok) (hok : Ok h.env chunks)
    (hpos : 0 < nunits) (hl : FreeList base h.ptr h.size free) (hfreep : h.freep ∈ ringNodes base free)
    (hsub : ∀ u, InBlocks free u → InBlocks chunks u)
    (hnone : ∀ e', Ok e' chunks → Q 0 { h with env := e' })
    (hsome : ∀ ap h' chunks', Ok h'.env chunks' → Served base nunits free chunks chunks' ap h h' → Q ap h') :
    wp (mallocLoop os nunits WALK h.freep (h.ptr h.freep)) Q (fun _ _ => False) h := by
  have hu : Usable os h.env base free := ⟨(hos.usable hok).1, fun u hfu => (hos.usable hok).2 u (hsub u hfu)⟩
  have hlen := hl.length_lt
  refine mallocLoop_spec hl hu hpos hfreep (by rw [WALK]; omega) (fun ap h' t ht => ?_) fun _ fuel' hfuel => ?_
  · refine hsome ap h' chunks ?_ ht.served
    rw [ht.2.2.1]
    exact hok
  rw [wp_bind]
  refine morecore_spec hos hok hl hfreep hsub (fun e' he' => ?_) fun a h1 hok1 habove hgot => ?_
  · rw [if_pos rfl, wp_pure]
    exact hnone e' he'
  obtain ⟨free1, hl1, hfreep1, hbytes1, ⟨c, hc, hunits⟩, hframe1⟩ := hgot
  have hne : h1.freep ≠ 0 := by
    have := hl1.base_le hfreep1
    omega
  -- the new chunk is large enough, so the second time around the ring finds a block
  have hu1 : Usable os h1.env base free1 := by
    refine ⟨(hos.usable hok1).1, fun u hfu => (hos.usable hok1).2 u ?_⟩
    rcases (hbytes1 u).1 hfu with hfu | hnew
    · obtain ⟨d, hd, hdu⟩ := hsub u hfu
      exact ⟨d, List.mem_cons_of_mem _ hd, hdu⟩
    · exact ⟨_, List.mem_cons_self, hnew⟩
  have hlen1 := hl1.length_lt
  rw [if_neg hne, wp_bind, wp_getPtr (hu1.node hl1 _ hfreep1)]
  refine mallocLoop_spec hl1 hu1 hpos hfreep1 (by rw [WALK] at hfuel; omega) (fun ap h' t ht => ?_) fun hsmall _ _ => ?_
  · refine hsome ap h' _ ?_ (ht.served_core hbytes1 hframe1 habove)
    rw [ht.2.2.1]
    exact hok1
  · have := hsmall c hc
    have := le_coreUnits nunits
    omega

/-- The heap before the first call, or with this free list. -/
def HeapReady (base : Nat) (free : List Block) (h : UHeap E) : Prop :=
  h.freep = 0 ∧ free = [] ∨ FreeList base h.ptr h.size free ∧ h.freep ∈ ringNodes base free

theorem freeList_nil (hp : ptr base = base) (hs : size base = 0) : FreeList base ptr size [] where
  ring := ⟨rfl, hp⟩
  base_size := hs
  sizes := fun _ hb => absurd hb List.not_mem_nil
  gaps := .nil
  above := fun _ hb => absurd hb List.not_mem_nil
  pos := fun _ hb => absurd hb List.not_mem_nil
  bound := fun _ hb => absurd hb List.not_mem_nil

/-- **`malloc`** returns 0 with the heap as it was, or a block of the units it needs. -/
theorem malloc_spec {nbytes : Nat} (hbase : 0 < base) (hos : os.Grows base (coreUnits (unitsFor nbytes)) Ok)
    (hok : Ok h.env chunks) (hr : HeapReady base free h) (hsub : ∀ u, InBlocks free u → InBlocks chunks u) :
    wp (malloc os base nbytes) (fun ap h' => ∃ chunks', Ok h'.env chunks' ∧
      (ap = 0 ∧ chunks' = chunks ∧ FreeList base h'.ptr h'.size free ∧ h'.freep ∈ ringNodes base free ∧
          (∀ x, x ≠ base → h'.size x = h.size x) ∨
        Served base (unitsFor nbytes) free chunks chunks' ap h h')) (fun _ _ => False) h := by
  have hhead := (hos.usable hok).1
  have hpos : 0 < unitsFor nbytes := by
    rw [unitsFor]
    omega
  rw [malloc, wp_bind, wp_get]
  rcases hr with ⟨hz, rfl⟩ | ⟨hl, hfreep⟩
  · rw [if_pos hz]
    simp only [wp_bind, wp_modify]
    refine Iff.mpr (wp_setPtr hhead) (Iff.mpr (wp_setSize hhead) ?_)
    rw [wp_get]
    refine Iff.mpr (wp_getPtr hhead) ?_
    have hl : FreeList base (Function.update h.ptr base base) (Function.update h.size base 0) [] :=
      freeList_nil (Function.update_self ..) (Function.update_self ..)
    refine mallocLoop_served hbase hos hok hpos hl List.mem_cons_self hsub (fun e' he' => ?_)
      fun ap h' chunks' hok' hserved => ⟨chunks', hok', .inr ?_⟩
    · exact ⟨chunks, he', .inl ⟨rfl, rfl, hl, List.mem_cons_self, fun x hx => Function.update_of_ne hx ..⟩⟩
    · obtain ⟨t, free', hunits, hap, hsize, hfl, hfp, hcore, hbytes, hdisj, hframe⟩ := hserved
      refine ⟨t, free', hunits, hap, hsize, hfl, hfp, hcore, hbytes, hdisj, fun x hx hcx hfx => ?_⟩
      rw [hframe x hx hcx hfx]
      exact Function.update_of_ne hx ..
  · have hne : h.freep ≠ 0 := by
      have := hl.base_le hfreep
      omega
    have hnode : os.Header h.env h.freep :=
      Usable.node ⟨hhead, fun u hfu => (hos.usable hok).2 u (hsub u hfu)⟩ hl _ hfreep
    rw [if_neg hne]
    simp only [wp_bind, wp_get]
    rw [wp_getPtr hnode]
    exact mallocLoop_served hbase hos hok hpos hl hfreep hsub
      (fun e' he' => ⟨chunks, he', .inl ⟨rfl, rfl, hl, hfreep, fun _ _ => rfl⟩⟩)
      fun ap h' chunks' hok' hserved => ⟨chunks', hok', .inr hserved⟩

end Core

end Xv6
