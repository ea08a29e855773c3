import Xv6.Mm.UserPages
import Xv6.User.Umalloc

/-!
# `User.MallocSize` — `malloc` on the memory of a process, for every size

The allocator's `sbrk` is the system call here, on the page table of the process. The number of bytes it asks for is
computed as a `uint` and taken as an `int`: a size near 2³² rounds up to nothing, and one from 2³¹ on makes the process
smaller.
-/

namespace Xv6

open Hoare

attribute [local irreducible] wp

/-! ## The system call -/

/-- `sys_sbrk`: the old size, or -1. -/
def sysSbrk (K : Symbols) (n : Int) : Prog UserProc VmPanic Int := do
  let addr : Int := (← get).sz
  if (← growproc K n) < 0 then return -1 else return addr

/-- What a user program makes of it: the argument is an `int`, and the result -1 is a failure. The pages below `USERTOP`
    are the program's own. -/
def procOs (K : Symbols) : Os UserProc where
  sbrk n := do
    let r ← zoomMap id (fun p _ => p) (fun _ => HeapStop.kernel) (sysSbrk K (toInt n))
    return if r = -1 then none else some r.toNat
  mapped p u := decide (u < USERTOP) && (translate p.phys.ram p.pgdir u).isSome

variable {K : Symbols} {base nbytes : Nat} {p : UserProc} {h : UHeap UserProc}

/-- A process with its memory in order. -/
structure ProcOk (K : Symbols) (p : UserProc) : Prop where
  space : Space K p.pgdir p.phys
  mapped : UserMapped p
  pos : 0 < p.sz
  top : p.sz ≤ USERTOP

/-- **A heap in the memory of a process**: the static header and the free blocks are below its size. -/
structure ProcHeap (K : Symbols) (base : Nat) (h : UHeap UserProc) (free : List Block) : Prop where
  proc : ProcOk K h.env
  base_pos : 0 < base
  base_lt : base + 8 ≤ h.env.sz
  ready : HeapReady base free h
  below : ∀ b ∈ free, b.stop ≤ h.env.sz

/-- **`malloc(nbytes)` gives what it was asked for**: the process does not get smaller, and a pointer that is returned is
    that of a block with `nbytes` bytes after the header, all of them below the size of the process. -/
def MallocOk (K : Symbols) (base nbytes : Nat) (h : UHeap UserProc) : Prop :=
  wp (malloc (procOs K) base nbytes)
    (fun ap h' => h.env.sz ≤ h'.env.sz ∧
      (ap ≠ 0 → 8 ≤ ap ∧ ap + nbytes ≤ (h'.blockAt ap).stop ∧ (h'.blockAt ap).stop ≤ h'.env.sz))
    (fun _ h' => h.env.sz ≤ h'.env.sz) h

theorem le_pgRoundUp {sz : Nat} (htop : sz ≤ USERTOP) : sz ≤ pgRoundUp sz := by
  rw [pgRoundUp_pages htop, pages]
  simp only [PGSIZE]
  omega

theorem procOs_mapped {u : Nat} (hm : UserMapped p) (hu : u < USERTOP) :
    (procOs K).mapped p u = true ↔ u < pgRoundUp p.sz := by
  rw [procOs]
  dsimp only
  rw [decide_eq_true hu, Bool.true_and, hm u hu]

/-- Below its size a process can use every byte. -/
theorem ProcOk.usable (hp : ProcOk K p) {u : Nat} (hu : u < p.sz) : (procOs K).mapped p u = true :=
  (procOs_mapped hp.mapped (Nat.lt_of_lt_of_le hu hp.top)).2 (Nat.lt_of_lt_of_le hu (le_pgRoundUp hp.top))

/-! ## Sizes that work -/

/-- The chunks are all below the size of the process, which is at least `lo`. -/
def ProcHas (K : Symbols) (base lo : Nat) (p : UserProc) (chunks : List Block) : Prop :=
  ProcOk K p ∧ base + 8 ≤ lo ∧ lo ≤ p.sz ∧ ∀ c ∈ chunks, c.stop ≤ p.sz

theorem toInt_small {n : Nat} (hn : n < 2147483648) : toInt n = n := by
  rw [toInt]
  omega

/-- `sys_sbrk` is `growproc`, and gives the old size unless that fails. -/
theorem wp_sysSbrk {n : Int} {Q : Int → UserProc → Prop} {Z : VmPanic → UserProc → Prop}
    (hgrow : wp (growproc K n) (fun r p' => Q (if r < 0 then -1 else p.sz) p') Z p) : wp (sysSbrk K n) Q Z p := by
  rw [sysSbrk]
  simp only [wp_bind, wp_get]
  refine wp_post hgrow fun r p' hr => ?_
  rw [apply_ite (fun x => Q x p')] at hr
  simp only [wp_ite, wp_pure]
  by_cases hneg : r < 0
  · rw [if_pos hneg] at hr
    exact ⟨fun _ => hr, fun h => absurd hneg h⟩
  · rw [if_neg hneg] at hr
    exact ⟨fun h => absurd h hneg, fun _ => hr⟩

theorem wp_sbrk {n : Nat} {m : Int} {Q : Option Nat → UserProc → Prop} (hm : toInt n = m)
    (hgrow : wp (growproc K m) (fun r p' => Q (if r < 0 then none else some p.sz) p') (fun _ _ => False) p) :
    wp ((procOs K).sbrk n) Q (fun _ _ => False) p := by
  rw [procOs]
  dsimp only
  rw [hm, wp_bind, wp_zoomMap]
  refine wp_sysSbrk (wp_post hgrow fun r p' hr => ?_)
  rw [wp_pure]
  by_cases hneg : r < 0
  · rw [if_pos hneg] at hr ⊢
    rw [if_pos rfl]
    exact hr
  · rw [if_neg hneg] at hr ⊢
    rw [if_neg (by omega), Int.toNat_natCast]
    exact hr

/-- `sbrk` of a positive number of bytes. -/
theorem sbrk_spec {n : Nat} {Q : Option Nat → UserProc → Prop} (hp : ProcOk K p) (hpos : 0 < n) (hn : n < 2147483648)
    (hnone : ∀ p', ProcOk K p' → p'.sz = p.sz → Q none p')
    (hsome : ∀ p', ProcOk K p' → p'.sz = p.sz + n → Q (some p.sz) p') :
    wp ((procOs K).sbrk n) Q (fun _ _ => False) p := by
  refine wp_sbrk (toInt_small hn) ?_
  refine wp_post (growproc_grow hp.space hp.top hp.mapped (by omega) (by omega)) fun r p' hr => ?_
  obtain ⟨⟨hdir, ⟨rfl, hsz, hm⟩ | ⟨rfl, hsz, htr, -⟩⟩, hsp, htop⟩ := hr
  · rw [if_neg (by decide)]
    exact hsome p' ⟨hsp, hm, by omega, htop⟩ (by omega)
  · rw [if_pos (by decide)]
    refine hnone p' ⟨hsp, fun va hva => ?_, by have := hp.pos; omega, htop⟩ hsz
    rw [hdir, htr va, hsz]
    exact hp.mapped va hva

theorem grows_procOs {nu lo : Nat} (hpos : 0 < nu) (hnu : nu < 268435456) : (procOs K).Grows base nu (ProcHas K base lo) where
  usable := by
    rintro p chunks ⟨hp, hbase, hlo, hc⟩
    have hlast : base + 7 < p.sz := by omega
    refine ⟨⟨hp.usable (Nat.lt_of_le_of_lt (Nat.le_add_right _ _) hlast), hp.usable hlast⟩, ?_⟩
    rintro u ⟨c, hcm, -, hu⟩
    exact hp.usable (Nat.lt_of_lt_of_le hu (hc c hcm))
  sbrk := by
    intro p chunks hhas
    have hlt : nu * 8 < 4294967296 := by omega
    rw [Nat.mod_eq_of_lt hlt]
    obtain ⟨hp, hbase, hlo, hc⟩ := hhas
    have hn : 0 < nu * 8 ∧ nu * 8 < 2147483648 := by omega
    refine sbrk_spec hp hn.1 hn.2 (fun p' hp' hsz => ?_) fun p' hp' hsz => ?_
    · exact ⟨hp', hbase, by omega, fun c hcm => by rw [hsz]; exact hc c hcm⟩
    · have htop := hp'.top
      refine ⟨⟨hp', hbase, by omega, fun c hcm => ?_⟩, by omega, hc, ?_⟩
      · rcases List.mem_cons.1 hcm with rfl | hcm
        · rw [Block.stop]
          dsimp only
          omega
        · have := hc c hcm
          omega
      · simp only [USERTOP] at htop
        omega

/-- Below 2³¹ - 15 bytes a request is counted in units as it should be, and the units make a positive `int`. -/
theorem unitsFor_small (hn : nbytes ≤ 2147483632) :
    nbytes + 8 ≤ 8 * unitsFor nbytes ∧ coreUnits (unitsFor nbytes) < 268435456 := by
  have hunits : unitsFor nbytes = (nbytes + 7) / 8 + 1 := by rw [unitsFor, Nat.mod_eq_of_lt (by omega)]
  refine ⟨by omega, ?_⟩
  rw [coreUnits]
  split <;> omega

theorem mallocOk_small {free : List Block} (hh : ProcHeap K base h free) (hn : nbytes ≤ 2147483632) :
    MallocOk K base nbytes h := by
  obtain ⟨hroom, hcore⟩ := unitsFor_small hn
  have hhas : ProcHas K base h.env.sz h.env free := ⟨hh.proc, hh.base_lt, Nat.le_refl _, hh.below⟩
  have hspec := malloc_spec hh.base_pos (grows_procOs coreUnits_pos hcore) hhas hh.ready fun u hu => hu
  refine wp_mono hspec (fun ap h' hres => ?_) fun _ _ hf => hf.elim
  obtain ⟨chunks', ⟨-, -, hsz, hbelow⟩, hres⟩ := hres
  refine ⟨hsz, fun hap => ?_⟩
  rcases hres with ⟨h0, -⟩ | ⟨t, free', htu, rfl, hsize, -, -, -, hbytes, -, -⟩
  · exact absurd h0 hap
  · have hblock : h'.blockAt (t.addr + 8) = t := by rw [UHeap.blockAt, Nat.add_sub_cancel, hsize, ← htu]
    have hstop : t.stop = t.addr + 8 * t.units := rfl
    rw [hblock]
    refine ⟨Nat.le_add_left _ _, by omega, ?_⟩
    -- the last byte of the block was free before, or came from the system
    have hlast : t.Has (t.stop - 1) := ⟨by omega, by omega⟩
    rcases (hbytes _).1 (.inr hlast) with ⟨c, hc, -, hlt⟩ | ⟨⟨c, hc, -, hlt⟩, -⟩
    · have := hh.below c hc
      omega
    · have := hbelow c hc
      omega

/-! ## Sizes that do not -/

section Bogus

variable {E : Type} {os : Os E} {h : UHeap E} {top : Nat} {P : E → Prop} {R : HeapStop → UHeap E → Prop}

theorem wp_setSize_segv {p v : Nat} {Q : Unit → UHeap E → Prop} (hp : ¬os.Header h.env p) (hR : R .segv h) :
    wp (setSize os p v) Q R h := by
  have hmapped : (os.mapped h.env p && os.mapped h.env (p + 7)) = false := by
    rw [Bool.and_eq_false_iff, ← Bool.not_eq_true, ← Bool.not_eq_true, ← not_and_or]
    exact hp
  rw [setSize, wp_bind, useHeader, wp_bind, wp_get]
  dsimp only
  rw [hmapped, if_neg Bool.false_ne_true, wp_throw]
  exact hR

/-- `free` of a block at `top` in an empty ring, when the block does not seem to end at `base`. -/
theorem ufree_bogus (hp : h.ptr base = base) (hs : h.size base = 0) (hfreep : h.freep = base)
    (hhead : os.Header h.env base) (hmap : os.Header h.env top) (htop : base < top) (hmax : top + 8 < 4294967296)
    (hnext : unitsFrom top (h.size top) ≠ base) :
    wp (ufree os (top + 8)) (fun _ h' => h'.ptr base = top ∧ h'.ptr top = base ∧ h'.size = h.size ∧ h'.freep = base ∧
      h'.env = h.env) R h := by
  have hne : base ≠ top := Nat.ne_of_lt htop
  have hseg : Segment.Seg h.ptr h.freep ([] ++ [base]) base := ⟨hfreep, hp⟩
  have hends : Ends top base (h.ptr base) := .inr ⟨Nat.le_of_eq hp, .inl htop⟩
  have hself : unitsFrom base 0 ≠ top := by
    rw [unitsFrom, Nat.mul_zero, Nat.add_zero, Nat.mod_eq_of_lt (by omega)]
    exact hne
  rw [ufree, Bytes.usub_of_le (by omega) (by omega), Nat.add_sub_cancel, wp_bind, wp_get, wp_bind]
  refine (freeLoop_walk hseg (fun c hc => absurd hc List.not_mem_nil) hends (fun c hc => ?_) (by decide)).2 ?_
  · rw [List.mem_singleton.1 hc]
    exact hhead
  rw [linkUp]
  simp only [wp_bind]
  rw [wp_getPtr hhead, wp_getSize hmap, hp, if_neg hnext]
  refine Iff.mpr (wp_setPtr hmap) ?_
  rw [linkDown]
  simp only [wp_bind]
  refine Iff.mpr (wp_getSize hhead) ?_
  dsimp only
  rw [hs, if_neg hself, wp_bind]
  refine Iff.mpr (wp_setPtr hhead) (wp_modify.2 ⟨Function.update_self .., ?_, rfl, rfl, rfl⟩)
  dsimp only
  rw [Function.update_of_ne hne.symm, Function.update_self]

/-- **`malloc` when `sbrk` reports success without giving memory**: the header is written at the old end `top` of the
    process, and if that does not fault, the block there is returned. -/
theorem mallocLoop_bogus {nunits fuel : Nat} (hp : h.ptr base = base) (hs : h.size base = 0) (hfreep : h.freep = base)
    (hhead : os.Header h.env base) (hbase : 0 < base) (htop : base < top) (hmax : top + 8 < 4294967296)
    (hunits : 4096 ≤ nunits) (hnext : unitsFrom top nunits ≠ base)
    (hsbrk : wp (os.sbrk (nunits * 8 % 4294967296)) (fun r e' => r = some top ∧ os.Header e' base ∧ P e')
      (fun _ _ => False) h.env) :
    wp (mallocLoop os nunits (fuel + 1 + 1) base base) (fun ap h' => ap = top + 8 ∧ P h'.env)
      (fun _ h' => ¬os.Header h'.env top ∧ P h'.env) h := by
  have hne : base ≠ top := Nat.ne_of_lt htop
  rw [mallocLoop, wp_bind, wp_getSize hhead, if_neg (by omega), wp_bind, wp_get, if_pos hfreep.symm, wp_bind, morecore,
    if_neg (by omega), wp_bind, wp_zoom]
  refine wp_mono hsbrk (fun r e' hr => ?_) fun _ _ hf => hf.elim
  obtain ⟨rfl, hhead', hP⟩ := hr
  dsimp only
  rw [wp_bind]
  by_cases hmap : os.Header e' top
  · refine Iff.mpr (wp_setSize hmap) ?_
    rw [wp_bind, Nat.mod_eq_of_lt hmax]
    refine wp_post (ufree_bogus hp ?_ hfreep hhead' hmap htop hmax ?_) fun _ h2 hfree => ?_
    · exact (Function.update_of_ne hne ..).trans hs
    · dsimp only
      rw [Function.update_self]
      exact hnext
    obtain ⟨hpb, hpt, hsize, hf, henv⟩ := hfree
    dsimp only at hsize henv
    have hhead2 : os.Header h2.env base := henv ▸ hhead'
    have hmap2 : os.Header h2.env top := henv ▸ hmap
    have hst : h2.size top = nunits := by rw [hsize, Function.update_self]
    rw [wp_bind, wp_get, wp_pure, hf, if_neg (by omega), wp_bind, wp_getPtr hhead2, hpb, mallocLoop, wp_bind,
      wp_getSize hmap2, if_pos (Nat.le_of_eq hst.symm), takeBlock, wp_bind, wp_getSize hmap2, if_pos hst]
    simp only [wp_bind]
    rw [wp_getPtr hmap2]
    refine Iff.mpr (wp_setPtr hhead2) ?_
    rw [wp_modify, wp_pure, unitsFrom, Nat.mul_one, Nat.mod_eq_of_lt hmax]
    dsimp only
    rw [henv]
    exact ⟨rfl, hP⟩
  · exact wp_setSize_segv hmap ⟨hmap, hP⟩

theorem malloc_bogus (hfreep : h.freep = 0) (hhead : os.Header h.env base) (hbase : 0 < base) (htop : base < top)
    (hmax : top + 8 < 4294967296) (hunits : 4096 ≤ unitsFor nbytes) (hnext : unitsFrom top (unitsFor nbytes) ≠ base)
    (hsbrk : wp (os.sbrk (unitsFor nbytes * 8 % 4294967296)) (fun r e' => r = some top ∧ os.Header e' base ∧ P e')
      (fun _ _ => False) h.env) :
    wp (malloc os base nbytes) (fun ap h' => ap = top + 8 ∧ P h'.env) (fun _ h' => ¬os.Header h'.env top ∧ P h'.env) h := by
  obtain ⟨fuel, hfuel⟩ : ∃ fuel, WALK = fuel + 1 + 1 := ⟨4294967294, rfl⟩
  rw [malloc, wp_bind, wp_get, if_pos hfreep, hfuel]
  simp only [wp_bind, wp_modify]
  refine Iff.mpr (wp_setPtr hhead) (Iff.mpr (wp_setSize hhead) ?_)
  rw [wp_get]
  refine Iff.mpr (wp_getPtr hhead) ?_
  dsimp only
  rw [Function.update_self]
  exact mallocLoop_bogus (Function.update_self ..) (Function.update_self ..) rfl hhead hbase htop hmax hunits hnext hsbrk

end Bogus

/-- A process that ends within its second page, before its first `malloc`. -/
def oddProc : UserProc := { twoPages with sz := 5004 }

def oddHeap : UHeap UserProc := ⟨fun _ => 0, fun _ => 0, 0, oddProc⟩

theorem oddProc_ok : ProcOk oneMegabyte oddProc where
  space := twoPages_space
  mapped := twoPages_mapped
  pos := by decide
  top := by decide

theorem oddHeap_ok : ProcHeap oneMegabyte 16 oddHeap [] where
  proc := oddProc_ok
  base_pos := by decide
  base_lt := by decide
  ready := .inl ⟨rfl, rfl⟩
  below := fun _ hb => absurd hb List.not_mem_nil

/-- `sbrk` of a number that is not positive reports success and leaves no more memory than before. -/
theorem oddProc_grow {n : Int} (hlo : -2147483648 ≤ n) (hhi : n ≤ 0) (hodd : n ≠ -5004) :
    wp (growproc oneMegabyte n) (fun r p' => r = 0 ∧ UserMapped p' ∧ 0 < p'.sz ∧ p'.sz ≤ 5004) (fun _ _ => False)
      oddProc := by
  have hsz : oddProc.sz = 5004 := rfl
  have hok := oddProc_ok
  rcases Int.lt_or_eq_of_le hhi with hneg | hzero
  · by_cases hall : -(oddProc.sz : Int) < n
    · refine wp_post (growproc_shrink hok.space hok.top hok.mapped hneg hall) fun r p' ⟨hr, _, hsz', hm⟩ => ?_
      exact ⟨hr, hm, by omega, by omega⟩
    · refine wp_post (growproc_more hok.space hok.pos hok.top (by omega) (by omega)) fun r p' ⟨hr, hp⟩ => ?_
      rw [hp]
      exact ⟨hr, hok.mapped, hok.pos, Nat.le_of_eq hsz⟩
  · rw [hzero]
    exact wp_growproc_zero hok.space.dir.pos ⟨rfl, hok.mapped, hok.pos, Nat.le_of_eq hsz⟩

theorem oddProc_header {p' : UserProc} (hm : UserMapped p') (hpos : 0 < p'.sz) (hle : p'.sz ≤ 5004) :
    (procOs oneMegabyte).Header p' 16 := by
  have hround : 4096 ≤ pgRoundUp p'.sz := by
    rw [pgRoundUp_pages (Nat.le_trans hle (by decide)), pages]
    simp only [PGSIZE]
    omega
  exact ⟨(procOs_mapped hm (by decide)).2 (by omega), (procOs_mapped hm (by decide)).2 (by omega)⟩

theorem oddProc_sbrk {nu : Nat} (hlo : 268435456 ≤ nu) (hhi : nu ≤ 536870912) :
    wp ((procOs oneMegabyte).sbrk (nu * 8 % 4294967296))
      (fun r p' => r = some 5004 ∧ (procOs oneMegabyte).Header p' 16 ∧ UserMapped p' ∧ p'.sz ≤ 5004)
      (fun _ _ => False) oddProc := by
  have hneg : toInt (nu * 8 % 4294967296) ≤ 0 ∧ -2147483648 ≤ toInt (nu * 8 % 4294967296) ∧
      toInt (nu * 8 % 4294967296) ≠ -5004 := by
    rw [toInt]
    -- a multiple of 8 is not -5004
    omega
  refine wp_sbrk rfl (wp_post (oddProc_grow hneg.2.1 hneg.1 hneg.2.2) fun r p' ⟨hr, hm, hpos, hle⟩ => ?_)
  rw [hr, if_neg (by decide)]
  exact ⟨rfl, oddProc_header hm hpos hle, hm, hle⟩

/-- **From 2³¹ - 15 bytes on**, the block is not in the process, or the process has got smaller. -/
theorem not_mallocOk_large (hlo : 268435456 ≤ unitsFor nbytes) (hn : 5004 < nbytes) :
    ¬MallocOk oneMegabyte 16 nbytes oddHeap := by
  have hhi : unitsFor nbytes ≤ 536870912 := by
    rw [unitsFor]
    omega
  have hnext : unitsFrom 5004 (unitsFor nbytes) ≠ 16 := by
    rw [unitsFrom]
    omega
  have hhead : (procOs oneMegabyte).Header oddHeap.env 16 := ⟨oddProc_ok.usable (by decide), oddProc_ok.usable (by decide)⟩
  have hbad := malloc_bogus (h := oddHeap) rfl hhead (by decide) (by decide) (by decide) (by omega) hnext
    (oddProc_sbrk hlo hhi)
  intro hok
  refine not_wp_false (wp_mono (wp_and hok hbad) (fun ap h' hres => ?_) fun e h' hres => ?_)
  · obtain ⟨⟨-, hfit⟩, rfl, -, hle⟩ := hres
    obtain ⟨-, h1, h2⟩ := hfit (by decide)
    omega
  · obtain ⟨hsz, hmap, hm, hle⟩ := hres
    -- with the old size the page of the header would be mapped
    have heq : h'.env.sz = 5004 := Nat.le_antisymm hle hsz
    have hround : pgRoundUp h'.env.sz = 8192 := by rw [heq]; rfl
    refine hmap ⟨(procOs_mapped hm (by decide)).2 ?_, (procOs_mapped hm (by decide)).2 ?_⟩
    · omega
    · omega

/-- A process with a free block of `n` units. -/
def freeHeap (n : Nat) : UHeap UserProc := ⟨fun x => if x = 16 then 64 else 16, fun x => if x = 64 then n else 0, 16, twoPages⟩

/-- A process with one free unit. -/
def tinyHeap : UHeap UserProc := freeHeap 1

theorem freeHeap_ok {n : Nat} (hn : n = 1 ∨ n = 600) : ProcHeap oneMegabyte 16 (freeHeap n) [⟨64, n⟩] where
  proc := ⟨twoPages_space, twoPages_mapped, (by decide : 0 < twoPages.sz), (by decide : twoPages.sz ≤ USERTOP)⟩
  base_pos := by decide
  base_lt := (by decide : 16 + 8 ≤ twoPages.sz)
  ready := by
    rcases hn with rfl | rfl <;>
    exact .inr ⟨⟨⟨rfl, rfl, rfl⟩, rfl, by decide, by decide, by decide, by decide, by decide⟩, List.mem_cons_self⟩
  below := by rcases hn with rfl | rfl <;> decide

theorem tinyHeap_ok : ProcHeap oneMegabyte 16 tinyHeap [⟨64, 1⟩] := freeHeap_ok (.inl rfl)

theorem tinyHeap_malloc : ∃ h', exec (malloc (procOs oneMegabyte) 16 0) tinyHeap = (.ok 72, h') ∧ h'.env.sz = 5000 := by
  have hrun : (exec (malloc (procOs oneMegabyte) 16 0) tinyHeap).1.toOption = some 72 ∧
      (exec (malloc (procOs oneMegabyte) 16 0) tinyHeap).2.env.sz = 5000 := by decide +kernel
  rcases hexec : exec (malloc (procOs oneMegabyte) 16 0) tinyHeap with ⟨r, h'⟩
  rw [hexec] at hrun
  cases r with
  | ok ap => exact ⟨h', by rw [Option.some.inj hrun.1], hrun.2⟩
  | error e => exact absurd hrun.1 (by simp [Except.toOption])

/-- **In the last 7 bytes below 2³²** the units wrap around to one, which is the header alone. -/
theorem not_mallocOk_wrap (hunits : unitsFor nbytes = unitsFor 0) (hn : 5000 < nbytes) :
    ¬MallocOk oneMegabyte 16 nbytes tinyHeap := by
  have hsame : malloc (procOs oneMegabyte) 16 nbytes = malloc (procOs oneMegabyte) 16 0 := by rw [malloc, malloc, hunits]
  obtain ⟨h', hexec, hsz⟩ := tinyHeap_malloc
  intro hok
  rw [MallocOk, hsame] at hok
  obtain ⟨-, hfit⟩ := wp_ok hok hexec
  obtain ⟨-, h1, h2⟩ := hfit (by decide)
  omega

/-! ## All sizes -/

/-- **`malloc` gives what it is asked for, whatever the heap, exactly up to 2³¹ - 16 bytes.** -/
theorem malloc_size_iff (hn : nbytes < 4294967296) :
    (∀ K base h free, ProcHeap K base h free → MallocOk K base nbytes h) ↔ nbytes ≤ 2147483632 := by
  constructor
  · intro hall
    by_contra hlarge
    by_cases hwrap : 4294967289 ≤ nbytes
    · refine not_mallocOk_wrap ?_ (by omega) (hall _ _ _ _ tinyHeap_ok)
      rw [unitsFor, unitsFor]
      omega
    · refine not_mallocOk_large ?_ (by omega) (hall _ _ _ _ oddHeap_ok)
      rw [unitsFor]
      omega
  · intro hsmall K base h free hh
    exact mallocOk_small hh hsmall

/-- A request for a page, taken from the end of a free block of 600 units. -/
theorem malloc_size_iff_page : ∃ h', exec (malloc (procOs oneMegabyte) 16 4096) (freeHeap 600) = (.ok 768, h') ∧
    768 + 4096 ≤ (h'.blockAt 768).stop ∧ (h'.blockAt 768).stop ≤ h'.env.sz := by
  have hok := (malloc_size_iff (by decide : 4096 < 4294967296)).2 (by decide) _ _ _ _ (freeHeap_ok (.inr rfl))
  have hrun : (exec (malloc (procOs oneMegabyte) 16 4096) (freeHeap 600)).1.toOption = some 768 := by decide +kernel
  rcases hexec : exec (malloc (procOs oneMegabyte) 16 4096) (freeHeap 600) with ⟨_ | ap, h'⟩ <;> rw [hexec] at hrun
  · cases hrun
  · obtain rfl : ap = 768 := Option.some.inj hrun
    exact ⟨h', rfl, ((wp_ok hok hexec).2 (by decide)).2⟩

/-- Not so a request for 2³¹ bytes, nor one for 2³² - 1. -/
theorem malloc_size_short :
    (∃ h free, ProcHeap oneMegabyte 16 h free ∧ ¬MallocOk oneMegabyte 16 2147483648 h) ∧
      ∃ h free, ProcHeap oneMegabyte 16 h free ∧ ¬MallocOk oneMegabyte 16 4294967295 h :=
  ⟨⟨oddHeap, [], oddHeap_ok, not_mallocOk_large (by decide) (by decide)⟩,
    ⟨tinyHeap, [⟨64, 1⟩], tinyHeap_ok, not_mallocOk_wrap (by decide) (by decide)⟩⟩

end Xv6
