import Xv6.Fs.Cache
import Mathlib.Data.Finset.Range

/-!
# `Fs.Trunc` — `itrunc`, `iput` and `ialloc`

Where blocks and inodes go and come from. `itrunc` gives the blocks of one inode back one by one; in between
the file has holes, so the allocator's invariant is carried for the pointers not yet dropped (`Dropped`). At
the end the inode holds nothing, and an inode that holds nothing may be freed or allocated at will.

## Contents
- **Dropping pointers.** `dropped`, `Dropped`, with `Dropped.free` and `Dropped.skip` for one pointer.
- **Code.** `itrunc_spec`, `iput_spec`, `ialloc_spec`.
-/

namespace Xv6

open Bytes Hoare Ownership

/-- Replace the root device and one slot. -/
def Fs.patch (s : Fs) (d : Disk) (x : Slot) (v : Inode) : Fs := (s.setDisk d).setInode x v

section Patch
variable (s : Fs) (d d' : Disk) (x : Slot) (v v' : Inode)

@[simp] theorem patch_disk : (s.patch d x v).disk ROOTDEV = d := setDisk_disk s d

@[simp] theorem patch_icache : (s.patch d x v).icache = Function.update s.icache x v := rfl

@[simp] theorem patch_setDisk : (s.patch d x v).setDisk d' = s.patch d' x v := by
  simp [Fs.patch, Fs.setInode, Fs.setDisk]

@[simp] theorem patch_setInode : (s.patch d x v).setInode x v' = s.patch d x v' := by
  simp [Fs.patch, Fs.setInode]

@[simp] theorem setInode_patch : (s.setInode x v').patch d x v = s.patch d x v := by
  simp [Fs.patch, Fs.setInode, Fs.setDisk]

theorem patch_self : s.patch (s.disk ROOTDEV) x (s.icache x) = s := by
  simp [Fs.patch, Fs.setInode]

end Patch

/-! ## Dropping pointers -/

variable {sb : Superblock} {R : Nat → Option Arr} {own : Nat × Nat → Option Nat} {tbl : Nat → Meta} {d d' : Disk}
  {b i k : Nat} {P : Finset Nat}

/-- `own` without the pointers `P` of inode `i`. -/
def dropped (own : Nat × Nat → Option Nat) (i : Nat) (P : Finset Nat) : Nat × Nat → Option Nat := fun y =>
  if y.1 = i ∧ y.2 ∈ P then none else own y

/-- The blocks held by the pointers `P` of inode `i` on `d` are free on `d'`; nothing else changed but the
    bitmap. -/
structure Dropped (sb : Superblock) (R : Nat → Option Arr) (own : Nat × Nat → Option Nat) (i : Nat)
    (P : Finset Nat) (d d' : Disk) : Prop where
  alloc : Alloc sb R (dropped own i P) d'
  kept : ∀ y b, dropped own i P y = some b → d' b = d b
  low : ∀ c < sb.bitStart, d' c = d c

/-- `own` without the pointers of inode `i`. -/
def without (own : Nat × Nat → Option Nat) (i : Nat) : Nat × Nat → Option Nat := fun y =>
  if y.1 = i then none else own y

@[simp] theorem without_self (own : Nat × Nat → Option Nat) (i k : Nat) : without own i (i, k) = none := if_pos rfl

theorem without_of_ne {j : Nat} (hj : j ≠ i) : without own i (j, k) = own (j, k) := if_neg hj

theorem dropped_insert (own : Nat × Nat → Option Nat) (i k : Nat) (P : Finset Nat) :
    dropped own i (insert k P) = Function.update (dropped own i P) (i, k) none := by
  funext y
  obtain ⟨j, l⟩ := y
  by_cases hy : (j, l) = (i, k)
  · rw [hy, Function.update_self]
    exact if_pos ⟨rfl, Finset.mem_insert_self k P⟩
  · rw [Function.update_of_ne hy]
    unfold dropped
    have hiff : (j = i ∧ l ∈ insert k P) ↔ (j = i ∧ l ∈ P) := by
      rw [Finset.mem_insert]
      constructor
      · rintro ⟨rfl, rfl | hl⟩
        · exact absurd rfl hy
        · exact ⟨rfl, hl⟩
      · rintro ⟨hj, hl⟩; exact ⟨hj, .inr hl⟩
    simp only [hiff]

theorem dropped_of_notMem (hk : k ∉ P) : dropped own i P (i, k) = own (i, k) := if_neg fun hc => hk hc.2

/-- A block `bfree` does not touch. -/
theorem freed_of_ne {c : Nat} (hlt : b < sb.nbits) (hc : c < sb.bitStart ∨ sb.dataStart ≤ c) (hne : c ≠ b) :
    freed sb d b c = d c := by
  rw [freed, unmark_of_ne hlt hc, Function.update_of_ne hne]

theorem Dropped.refl (h : Alloc sb R own d) (i : Nat) : Dropped sb R own i ∅ d d := by
  have hown : dropped own i ∅ = own := funext fun y => if_neg fun hc => absurd hc.2 (Finset.notMem_empty _)
  exact ⟨by rw [hown]; exact h, fun _ _ _ => rfl, fun _ _ => rfl⟩

/-- **One block freed.** -/
theorem Dropped.free (h : Dropped sb R own i P d d') (hk : k ∉ P) (hb : own (i, k) = some b) :
    Dropped sb R own i (insert k P) d (freed sb d' b) := by
  have hb' : dropped own i P (i, k) = some b := (dropped_of_notMem hk).trans hb
  obtain ⟨hge, hlt, -⟩ := h.alloc.own_range hb'
  have hstart := bitStart_range sb
  refine ⟨by rw [dropped_insert]; exact h.alloc.drop hb', fun y c hc => ?_, fun c hc => ?_⟩
  · rw [dropped_insert] at hc
    have hy : y ≠ (i, k) := by rintro rfl; rw [Function.update_self] at hc; cases hc
    rw [Function.update_of_ne hy] at hc
    have hcb : c ≠ b := by rintro rfl; exact hy (h.alloc.owns.inj hc hb')
    rw [freed_of_ne hlt (.inr (h.alloc.own_range hc).1) hcb]
    exact h.kept y c hc
  · rw [freed_of_ne hlt (.inl hc) (by omega)]
    exact h.low c hc

/-- **A pointer that holds nothing.** -/
theorem Dropped.skip (h : Dropped sb R own i P d d') (hk : own (i, k) = none) :
    Dropped sb R own i (insert k P) d d' := by
  have hown : dropped own i (insert k P) = dropped own i P := by
    rw [dropped_insert]
    refine Function.update_eq_self_iff.mpr ?_
    unfold dropped
    split
    · rfl
    · exact hk.symm
  exact ⟨by rw [hown]; exact h.alloc, by rw [hown]; exact h.kept, h.low⟩

/-- `bfree` of a block a pointer still holds. -/
theorem bfree_dropped {s : Fs} (h : Dropped sb R own i P d (s.disk ROOTDEV)) (hk : k ∉ P) (hb : own (i, k) = some b) :
    wp (bfree ROOTDEV b) (fun _ s' => ∃ d', s' = s.setDisk d' ∧ Dropped sb R own i (insert k P) d d')
      (fun _ _ => False) s := by
  obtain ⟨hge, hlt, hbit⟩ := h.alloc.own_range ((dropped_of_notMem hk).trans hb)
  refine wp_post (bfree_spec h.alloc.super hge hlt hbit) ?_
  intro _ s' hs'
  exact ⟨_, hs', h.free hk hb⟩

/-! ## `itrunc` -/

/-- The metadata of an inode without contents. -/
def Meta.emptied (m : Meta) : Meta := { m with size := 0, addrs := fun _ => 0 }

theorem Meta.Fits.emptied {m : Meta} (h : m.Fits) : m.emptied.Fits :=
  ⟨h.type, h.major, h.minor, h.nlink, Nat.zero_lt_succ _, fun _ _ => Nat.zero_lt_succ _, fun _ _ => rfl⟩

variable {s : Fs} {x : Slot}

/-- **The direct loop of `itrunc`** drops the pointers below `NDIRECT`. -/
theorem truncDirect_spec (h : Alloc sb R own (s.disk ROOTDEV)) (hdev : (s.icache x).dev = ROOTDEV)
    (hown : ∀ k < NDIRECT, own (i, k) = if (s.icache x).addrs k = 0 then none else some ((s.icache x).addrs k)) :
    wp ((List.range NDIRECT).forM (truncDirect x))
      (fun _ s' => ∃ d', s' = s.patch d' x { s.icache x with
          addrs := fun l => if l < NDIRECT then 0 else (s.icache x).addrs l } ∧
        Dropped sb R own i (Finset.range NDIRECT) (s.disk ROOTDEV) d')
      (fun _ _ => False) s := by
  refine wp_forM_range (fun k s' => ∃ d', s' = s.patch d' x { s.icache x with
      addrs := fun l => if l < k then 0 else (s.icache x).addrs l } ∧
    Dropped sb R own i (Finset.range k) (s.disk ROOTDEV) d') ?_ ?_
  · rintro k t hk ⟨d', rfl, hd⟩
    have hnot : k ∉ Finset.range k := by simp
    have haddr : (fun l => if l < k + 1 then 0 else (s.icache x).addrs l) =
        Function.update (fun l => if l < k then 0 else (s.icache x).addrs l) k 0 := by
      funext l
      by_cases hl : l = k
      · subst hl; simp
      · rw [Function.update_of_ne hl]
        by_cases hlk : l < k
        · rw [if_pos (by omega), if_pos hlk]
        · rw [if_neg (by omega), if_neg hlk]
    rw [Finset.range_add_one, haddr]
    unfold truncDirect
    rw [wp_bind, wp_inode, patch_icache, Function.update_self]
    simp only [Nat.lt_irrefl, if_false, hdev]
    by_cases h0 : (s.icache x).addrs k = 0
    · rw [if_neg (not_not_intro h0), wp_pure]
      refine ⟨d', ?_, hd.skip (by rw [hown k hk, if_pos h0])⟩
      rw [Function.update_eq_self_iff.mpr (by simp [h0])]
    · rw [if_pos h0, wp_bind]
      have hd' : Dropped sb R own i (Finset.range k) (s.disk ROOTDEV) ((s.patch d' x { s.icache x with
          addrs := fun l => if l < k then 0 else (s.icache x).addrs l }).disk ROOTDEV) := by
        rw [patch_disk]; exact hd
      refine wp_post (bfree_dropped hd' hnot (by rw [hown k hk, if_neg h0])) ?_
      rintro _ t ⟨d2, rfl, hd2⟩
      simp only [setAddr, wp_modInode, patch_setDisk, patch_icache, Function.update_self, patch_setInode]
      exact ⟨d2, rfl, hd2⟩
  · refine ⟨s.disk ROOTDEV, ?_, Dropped.refl h i⟩
    simp only [Nat.not_lt_zero, if_false]
    exact (patch_self s x).symm

/-- **The indirect loop of `itrunc`** drops the pointers of the indirect block. -/
theorem truncIndirect_spec {bp : Arr} (hd : Dropped sb R own i (Finset.range NDIRECT) d (s.disk ROOTDEV))
    (hown : ∀ j < NINDIRECT, own (i, 12 + j) = if u32 bp (4 * j) = 0 then none else some (u32 bp (4 * j))) :
    wp ((List.range NINDIRECT).forM (truncIndirect ROOTDEV bp))
      (fun _ s' => ∃ d', s' = s.setDisk d' ∧ Dropped sb R own i ((Finset.range NPTR).erase NDIRECT) d d')
      (fun _ _ => False) s := by
  refine wp_forM_range (fun j s' => ∃ d', s' = s.setDisk d' ∧
    Dropped sb R own i ((Finset.range (12 + j)).erase NDIRECT) d d') ?_ ?_
  · rintro j t hj ⟨d', rfl, hd'⟩
    have hnot : 12 + j ∉ (Finset.range (12 + j)).erase NDIRECT := by simp
    have hstep : (Finset.range (12 + (j + 1))).erase NDIRECT =
        insert (12 + j) ((Finset.range (12 + j)).erase NDIRECT) := by
      rw [← Nat.add_assoc, Finset.range_add_one, Finset.erase_insert_of_ne]
      simp only [NDIRECT]; omega
    rw [hstep]
    unfold truncIndirect
    by_cases h0 : u32 bp (4 * j) = 0
    · rw [if_neg (not_not_intro h0), wp_pure]
      exact ⟨d', rfl, hd'.skip (by rw [hown j hj, if_pos h0])⟩
    · rw [if_pos h0]
      have hd2 : Dropped sb R own i ((Finset.range (12 + j)).erase NDIRECT) d ((s.setDisk d').disk ROOTDEV) := by
        rw [setDisk_disk]; exact hd'
      refine wp_post (bfree_dropped hd2 hnot (by rw [hown j hj, if_neg h0])) ?_
      rintro _ t ⟨d3, rfl, hd3⟩
      exact ⟨d3, by rw [setDisk_setDisk], hd3⟩
  · have hstart : (Finset.range (12 + 0)).erase NDIRECT = Finset.range NDIRECT := by decide
    exact ⟨s.disk ROOTDEV, (setDisk_self s).symm, by rw [hstart]; exact hd⟩

/-- An inode that holds no block may have any metadata without blocks. -/
theorem Vol.clear (h : Vol sb R tbl d) (hnone : ∀ k, ownOf sb tbl d (i, k) = none) {m : Meta}
    (ha : m.addrs = fun _ => 0) (hs : m.size = 0) (hf : m.Fits) :
    Vol sb R (Function.update tbl i m) d ∧ ownOf sb (Function.update tbl i m) d = ownOf sb tbl d := by
  have ho : ownOf sb (Function.update tbl i m) d = ownOf sb tbl d := by
    funext y
    obtain ⟨j, k⟩ := y
    by_cases hj : j = i
    · subst hj
      rw [hnone]
      refine if_neg fun hc => hc.2.2.2 ?_
      simp [ptr, ha]
    · exact ownOf_congr (Function.update_of_ne hj ..) fun _ _ _ => rfl
  refine ⟨⟨by rw [ho]; exact h.alloc, fun j hj ht n hn => ?_, fun j hj => ?_⟩, ho⟩
  · rw [ho]
    by_cases hji : j = i
    · subst hji
      rw [Function.update_self, hs] at hn
      exact absurd hn (Nat.not_lt_zero _)
    · rw [Function.update_of_ne hji] at ht hn
      exact h.holes j hj ht n hn
  · by_cases hji : j = i
    · subst hji; rw [Function.update_self]; exact hf
    · rw [Function.update_of_ne hji]; exact h.fits j hj

/-- **All pointers dropped**: the inode is empty and every other inode is as before. -/
theorem Dropped.vol (h : Vol sb R tbl d) (hd : Dropped sb R (ownOf sb tbl d) i (Finset.range NPTR) d d') :
    Vol sb R (Function.update tbl i (tbl i).emptied) d' ∧
    ownOf sb (Function.update tbl i (tbl i).emptied) d' = without (ownOf sb tbl d) i := by
  have hdrop : dropped (ownOf sb tbl d) i (Finset.range NPTR) =
      without (ownOf sb tbl d) i := by
    funext y
    obtain ⟨j, k⟩ := y
    unfold dropped
    by_cases hj : j = i
    · by_cases hk : k < NPTR
      · rw [if_pos ⟨hj, Finset.mem_range.mpr hk⟩, hj, without_self]
      · rw [if_neg fun hc => hk (Finset.mem_range.mp hc.2), hj, without_self, ownOf_past hk]
    · rw [if_neg fun hc => hj hc.1, without_of_ne hj]
  have ho : ownOf sb (Function.update tbl i (tbl i).emptied) d' =
      without (ownOf sb tbl d) i := by
    funext y
    obtain ⟨j, k⟩ := y
    by_cases hj : j = i
    · subst hj
      rw [without_self]
      refine if_neg fun hc => hc.2.2.2 ?_
      simp [ptr, Meta.emptied]
    · rw [without_of_ne hj]
      refine ownOf_congr (Function.update_of_ne hj ..) fun hlt ht h0 => hd.kept (j, NDIRECT) _ ?_
      rw [hdrop, without_of_ne hj]
      exact ownOf_indirect hlt ht h0
  have halloc := hd.alloc
  rw [hdrop] at halloc
  refine ⟨⟨by rw [ho]; exact halloc, fun j hj ht n hn => ?_, fun j hj => ?_⟩, ho⟩
  · rw [ho]
    by_cases hji : j = i
    · subst hji
      rw [Function.update_self] at hn
      exact absurd hn (Nat.not_lt_zero _)
    · rw [without_of_ne hji]
      rw [Function.update_of_ne hji] at ht hn
      exact h.holes j hj ht n hn
  · by_cases hji : j = i
    · subst hji
      rw [Function.update_self]
      exact (h.fits j hj).emptied
    · rw [Function.update_of_ne hji]; exact h.fits j hj

/-- Inode `i` has the metadata `m` and no blocks on `d'`; everything else is as on `d`. -/
structure Truncated (sb : Superblock) (R : Nat → Option Arr) (tbl : Nat → Meta) (i : Nat) (m : Meta) (d d' : Disk) :
    Prop where
  vol : Vol sb R (Function.update tbl i m) d'
  own : ownOf sb (Function.update tbl i m) d' = without (ownOf sb tbl d) i
  kept : ∀ y b, y.1 ≠ i → ownOf sb tbl d y = some b → d' b = d b
  stored : ∀ j < sb.ninodes, dmeta d' j = if j = i then m else dmeta d j

/-- The sector of inode `i` after `iupdate`. -/
def storeInode (d : Disk) (i : Nat) (m : Meta) : Disk :=
  Function.update d (IBLOCK i) (putMeta (d (IBLOCK i)) (inodeOff i) m)

theorem wp_iupdate {Q : Unit → Fs → Prop} {E : Stop → Fs → Prop} (hdev : (s.icache x).dev = ROOTDEV) :
    wp (iupdate x) Q E s ↔ Q () (s.setDisk (storeInode (s.disk ROOTDEV) (s.icache x).inum (s.icache x).toMeta)) := by
  simp only [iupdate, wp_bind, wp_inode, wp_bread, wp_bwrite, hdev, setSector_eq_setDisk]
  rfl

theorem dmeta_storeInode {m : Meta} (hf : m.Fits) (j : Nat) :
    dmeta (storeInode d i m) j = if j = i then m else dmeta d j := by
  by_cases hj : j = i
  · subst hj
    rw [if_pos rfl, dmeta, storeInode, Function.update_self]
    exact getMeta_putMeta _ _ hf
  · rw [if_neg hj]
    exact dmeta_writeInode (fun o ho => putMeta_out (by omega)) hj

/-- Storing an inode writes no data block. -/
theorem storeInode_data {m : Meta} {c : Nat} (hi : i < sb.ninodes) (hc : sb.dataStart ≤ c) : storeInode d i m c = d c := by
  have h1 := (IBLOCK_range hi).2
  have h2 := bitStart_range sb
  exact Function.update_of_ne (by omega) ..

/-- Storing the metadata of an emptied inode. -/
theorem Truncated.store {m : Meta} (h : Vol sb R tbl d) (hi : i < sb.ninodes) (hv : Vol sb R (Function.update tbl i m) d')
    (ho : ownOf sb (Function.update tbl i m) d' = without (ownOf sb tbl d) i)
    (hk : ∀ y b, y.1 ≠ i → ownOf sb tbl d y = some b → d' b = d b)
    (hs : ∀ j < sb.ninodes, j ≠ i → dmeta d' j = dmeta d j) :
    Truncated sb R tbl i m d (storeInode d' i m) := by
  obtain ⟨hv', ho'⟩ := hv.writeInode hi (putMeta (d' (IBLOCK i)) (inodeOff i) m)
  have hf : m.Fits := by have := hv.fits i hi; rwa [Function.update_self] at this
  refine ⟨hv', ho'.trans ho, fun y b hy hb => ?_, fun j hj => ?_⟩
  · rw [storeInode_data hi (h.alloc.own_range hb).1]; exact hk y b hy hb
  · rw [dmeta_storeInode hf]
    by_cases hji : j = i
    · rw [if_pos hji, if_pos hji]
    · rw [if_neg hji, if_neg hji]; exact hs j hj hji

/-- The end of `itrunc`, once no pointer is left. -/
theorem truncSize_spec (h : Vol sb R tbl (s.disk ROOTDEV)) (hdev : (s.icache x).dev = ROOTDEV)
    (hlt : (s.icache x).inum < sb.ninodes) (hm : (s.icache x).toMeta = tbl (s.icache x).inum)
    (hd : Dropped sb R (ownOf sb tbl (s.disk ROOTDEV)) (s.icache x).inum (Finset.range NPTR) (s.disk ROOTDEV) d') :
    wp (do modInode x fun i => { i with size := 0 }; iupdate x)
      (fun _ s' => ∃ d', s' = s.patch d' x { s.icache x with toMeta := (tbl (s.icache x).inum).emptied } ∧
        Truncated sb R tbl (s.icache x).inum (tbl (s.icache x).inum).emptied (s.disk ROOTDEV) d')
      (fun _ _ => False) (s.patch d' x { s.icache x with addrs := fun _ => 0 }) := by
  obtain ⟨hvol, hown⟩ := hd.vol h
  have hslot : { s.icache x with addrs := fun _ => 0, size := 0 } =
      { s.icache x with toMeta := (tbl (s.icache x).inum).emptied } := by rw [← hm]; rfl
  rw [wp_bind, wp_modInode, patch_icache, Function.update_self, patch_setInode]
  simp only [hslot]
  rw [wp_iupdate (by rw [patch_icache, Function.update_self]; exact hdev), patch_disk, patch_icache,
    Function.update_self, patch_setDisk]
  refine ⟨_, rfl, Truncated.store h hlt hvol hown (fun y b hy hb => hd.kept y b ?_) fun j hj hji => ?_⟩
  · rw [dropped, if_neg fun hc => hy hc.1]; exact hb
  · unfold dmeta
    rw [hd.low _ (IBLOCK_range hj).2]

/-- **`itrunc`** leaves the inode without contents, and every block it held free. -/
theorem itrunc_spec (h : Vol sb R tbl (s.disk ROOTDEV)) (hdev : (s.icache x).dev = ROOTDEV)
    (hlt : (s.icache x).inum < sb.ninodes) (hm : (s.icache x).toMeta = tbl (s.icache x).inum)
    (ht : (tbl (s.icache x).inum).type ≠ 0) :
    wp (itrunc x)
      (fun _ s' => ∃ d', s' = s.patch d' x { s.icache x with toMeta := (tbl (s.icache x).inum).emptied } ∧
        Truncated sb R tbl (s.icache x).inum (tbl (s.icache x).inum).emptied (s.disk ROOTDEV) d')
      (fun _ _ => False) s := by
  have hfits : (s.icache x).toMeta.Fits := by rw [hm]; exact h.fits _ hlt
  have hown : ∀ k < NPTR, ownOf sb tbl (s.disk ROOTDEV) ((s.icache x).inum, k) =
      if ptr (s.disk ROOTDEV) (s.icache x).toMeta k = 0 then none
      else some (ptr (s.disk ROOTDEV) (s.icache x).toMeta k) := by
    intro k hk
    rw [ownOf_alloc hlt ht hk, hm]
  have hdirect : ∀ k < NDIRECT, ownOf sb tbl (s.disk ROOTDEV) ((s.icache x).inum, k) =
      if (s.icache x).addrs k = 0 then none else some ((s.icache x).addrs k) := by
    intro k hk
    rw [hown k (by simp only [NDIRECT, NPTR] at *; omega), ptr, if_pos (Nat.le_of_lt hk)]
  have hend := fun (d2 : Disk) (hd : Dropped sb R (ownOf sb tbl (s.disk ROOTDEV)) (s.icache x).inum
    (Finset.range NPTR) (s.disk ROOTDEV) d2) => truncSize_spec h hdev hlt hm hd
  unfold itrunc
  rw [wp_bind]
  refine wp_post (truncDirect_spec h.alloc hdev hdirect) ?_
  rintro _ s1 ⟨d1, rfl, hd1⟩
  -- `addrs` of the slot: all zero but the indirect block
  have hrest : ∀ l, l ≠ NDIRECT → (if l < NDIRECT then 0 else (s.icache x).addrs l) = 0 := by
    intro l hl
    by_cases hlt' : l < NDIRECT
    · rw [if_pos hlt']
    · rw [if_neg hlt']; exact hfits.past l (by simp only [NDIRECT] at *; omega)
  generalize s.icache x = v at *
  rw [wp_bind, wp_inode, patch_icache, Function.update_self]
  simp only [Nat.lt_irrefl, if_false]
  by_cases h0 : v.addrs NDIRECT = 0
  · rw [if_neg (not_not_intro h0)]
    have hz : (fun l => if l < NDIRECT then 0 else v.addrs l) = fun _ => 0 := by
      funext l
      by_cases hl : l = NDIRECT
      · rw [hl, if_neg (Nat.lt_irrefl _), h0]
      · exact hrest l hl
    have hnone : ∀ k, ¬ k < NDIRECT → ownOf sb tbl (s.disk ROOTDEV) (v.inum, k) = none := by
      intro k hk
      by_cases hk' : k < NPTR
      · have hp : ptr (s.disk ROOTDEV) v.toMeta k = 0 := by
          unfold ptr
          by_cases hk11 : k ≤ NDIRECT
          · rw [if_pos hk11, show k = NDIRECT by omega, h0]
          · rw [if_neg hk11, if_pos h0]
        rw [hown k hk', if_pos hp]
      · exact ownOf_past hk'
    have hdrop : dropped (ownOf sb tbl (s.disk ROOTDEV)) v.inum (Finset.range NDIRECT) =
        dropped (ownOf sb tbl (s.disk ROOTDEV)) v.inum (Finset.range NPTR) := by
      funext y
      obtain ⟨j, k⟩ := y
      unfold dropped
      by_cases hj : j = v.inum
      · subst hj
        by_cases hk : k < NDIRECT
        · have hk' : k < NPTR := by simp only [NDIRECT, NPTR] at *; omega
          rw [if_pos ⟨rfl, Finset.mem_range.mpr hk⟩, if_pos ⟨rfl, Finset.mem_range.mpr hk'⟩]
        · rw [if_neg fun hc => hk (Finset.mem_range.mp hc.2), hnone k hk, ite_self]
      · rw [if_neg fun hc => hj hc.1, if_neg fun hc => hj hc.1]
    simp only [hz]
    refine hend d1 ⟨?_, ?_, hd1.low⟩
    · rw [← hdrop]; exact hd1.alloc
    · rw [← hdrop]; exact hd1.kept
  · -- the entries of the indirect block, then the block itself
    have hind : ownOf sb tbl (s.disk ROOTDEV) (v.inum, NDIRECT) = some (v.addrs NDIRECT) := by
      rw [hown NDIRECT (by decide), ptr, if_pos (Nat.le_refl _), if_neg h0]
    have hbp : d1 (v.addrs NDIRECT) = s.disk ROOTDEV (v.addrs NDIRECT) := by
      refine hd1.kept (v.inum, NDIRECT) _ ?_
      rw [dropped_of_notMem (by simp)]; exact hind
    have hentry : ∀ j < NINDIRECT, ownOf sb tbl (s.disk ROOTDEV) (v.inum, 12 + j) =
        if u32 (s.disk ROOTDEV (v.addrs NDIRECT)) (4 * j) = 0 then none
        else some (u32 (s.disk ROOTDEV (v.addrs NDIRECT)) (4 * j)) := by
      intro j hj
      have hp : ptr (s.disk ROOTDEV) v.toMeta (12 + j) = u32 (s.disk ROOTDEV (v.addrs NDIRECT)) (4 * j) := by
        have h12 : ¬ 12 + j ≤ NDIRECT := by simp only [NDIRECT]; omega
        rw [ptr, if_neg h12, if_neg h0, Nat.add_sub_cancel_left]
      rw [hown (12 + j) (by simp only [NINDIRECT, NPTR] at *; omega), hp]
    have hz : Function.update (fun l => if l < NDIRECT then 0 else v.addrs l) NDIRECT 0 = fun _ => 0 := by
      funext l
      by_cases hl : l = NDIRECT
      · rw [hl, Function.update_self]
      · rw [Function.update_of_ne hl]; exact hrest l hl
    simp only [hdev] at hend ⊢
    rw [if_pos h0, wp_bind, wp_bread, patch_disk, hbp, wp_bind]
    refine wp_post (truncIndirect_spec (by rw [patch_disk]; exact hd1) hentry) ?_
    rintro _ s2 ⟨d2, rfl, hd2⟩
    rw [patch_setDisk, wp_bind]
    refine wp_post (bfree_dropped (by rw [patch_disk]; exact hd2) (Finset.notMem_erase NDIRECT _) hind) ?_
    rintro _ s3 ⟨d3, rfl, hd3⟩
    rw [Finset.insert_erase (by decide)] at hd3
    rw [patch_setDisk, wp_bind, setAddr, wp_modInode, patch_icache, Function.update_self, patch_setInode]
    simp only [hz]
    exact hend d3 hd3

/-! ## `iput` -/

/-- The metadata `iput` leaves of an inode nobody needs. -/
def Meta.dead (m : Meta) : Meta := { m.emptied with type := 0 }

theorem Meta.Fits.dead {m : Meta} (h : m.Fits) : m.dead.Fits :=
  ⟨show -32768 ≤ (0 : Int) ∧ (0 : Int) < 32768 by decide, h.major, h.minor, h.nlink, Nat.zero_lt_succ _,
    fun _ _ => Nat.zero_lt_succ _, fun _ _ => rfl⟩

/-- An emptied inode may be freed. -/
theorem Truncated.die {m : Meta} (ht : Truncated sb R tbl i m.emptied d d') (h : Vol sb R tbl d)
    (hi : i < sb.ninodes) (hf : m.Fits) : Truncated sb R tbl i m.dead d (storeInode d' i m.dead) := by
  have hnone : ∀ k, ownOf sb (Function.update tbl i m.emptied) d' (i, k) = none := by
    intro k
    rw [ht.own, without_self]
  obtain ⟨hv, ho⟩ := ht.vol.clear hnone (m := m.dead) rfl rfl hf.dead
  rw [Function.update_idem] at hv ho
  refine Truncated.store h hi hv (ho.trans ht.own) ht.kept fun j hj hji => ?_
  rw [ht.stored j hj, if_neg hji]

variable {G G' : Ghost} {c : Slot → Inode} {K : Multiset Slot} {v : Inode}

/-- **The last reference goes**: nothing more is known about the slot. -/
theorem Cached.forget (h : Cached G c) (hK : G.refs = x ::ₘ K) (hxK : x ∉ K) (hx : x ∉ G.held)
    (hsb : G'.sb = G.sb) (htg : G'.tg = G.tg) (hrefs : G'.refs = K) (hheld : G'.held = G.held)
    (href : v.ref = 0) (htags : v.tags = (c x).tags) (htbl : ∀ y ∈ K, G'.tbl (c y).inum = G.tbl (c y).inum) :
    Cached G' (Function.update c x v) := by
  have hne : ∀ y ∈ K, y ≠ x := by rintro y hy rfl; exact hxK hy
  have hmem : ∀ y ∈ K, y ∈ G.refs := fun y hy => hK ▸ Multiset.mem_cons_of_mem hy
  constructor
  · intro y
    rw [hrefs]
    by_cases hy : y = x
    · subst hy
      rw [Function.update_self, href, Multiset.count_eq_zero_of_notMem hxK]; rfl
    · rw [Function.update_of_ne hy, h.ref, hK, Multiset.count_cons_of_ne hy]
  · intro y hy
    rw [hrefs] at hy
    rw [Function.update_of_ne (hne y hy)]; exact h.dev y (hmem y hy)
  · intro y hy
    rw [hrefs] at hy
    rw [Function.update_of_ne (hne y hy), hsb]; exact h.inum y (hmem y hy)
  · intro y hy z hz
    rw [hrefs] at hy hz
    rw [Function.update_of_ne (hne y hy), Function.update_of_ne (hne z hz)]
    exact h.uniq y (hmem y hy) z (hmem z hz)
  · intro y hy
    rw [hrefs] at hy
    rw [Function.update_of_ne (hne y hy), htbl y hy]; exact h.coh y (hmem y hy)
  · intro y hy
    rw [hrefs] at hy
    rw [Function.update_of_ne (hne y hy), hheld]; exact h.busy y (hmem y hy)
  · intro y hy
    rw [hheld] at hy
    have hyx : y ≠ x := by rintro rfl; exact hx hy
    have hyr := (h.held y hy).1
    rw [hK, Multiset.mem_cons] at hyr
    rw [hrefs, Function.update_of_ne hyx]
    exact ⟨hyr.resolve_left hyx, (h.held y hy).2⟩
  · intro y
    rw [htg]
    by_cases hy : y = x
    · subst hy; rw [Function.update_self, htags]; exact h.tags y
    · rw [Function.update_of_ne hy]; exact h.tags y

/-- Dropping a reference `x` frees the inode: it is the last one, and no directory entry counts. -/
def Dies (G : Ghost) (s : Fs) (x : Slot) : Prop :=
  G.refs.count x = 1 ∧ (s.icache x).valid = true ∧ (G.tbl (s.icache x).inum).nlink = 0

instance (G : Ghost) (s : Fs) (x : Slot) : Decidable (Dies G s x) := by unfold Dies; infer_instance

/-- The last reference is the only one. -/
theorem Dies.notMem (hd : Dies G s x) (hK : G.refs = x ::ₘ K) : x ∉ K := by
  have h1 := hd.1
  rw [hK, Multiset.count_cons_self] at h1
  exact Multiset.count_eq_zero.mp (by omega)

/-- What `iput` tests. -/
theorem Core.dies_iff (h : Core G s) (hx : x ∈ G.refs) :
    ((s.icache x).ref = 1 ∧ (s.icache x).valid = true ∧ (s.icache x).nlink = 0) ↔ Dies G s x := by
  unfold Dies
  rw [h.cache.ref]
  constructor
  · rintro ⟨h1, h2, h3⟩
    rw [← (h.live hx h2).1]
    exact ⟨by omega, h2, h3⟩
  · rintro ⟨h1, h2, h3⟩
    rw [← (h.live hx h2).1] at h3
    exact ⟨by omega, h2, h3⟩

/-- **`iput`** of an inode that stays. -/
theorem iput_keep (h : Core G s) (hK : G.refs = x ::ₘ K) (hx : x ∈ G.held → x ∈ K) (hd : ¬ Dies G s x) :
    wp (iput x)
      (fun _ s' => s' = s.setInode x { s.icache x with ref := (s.icache x).ref - 1 } ∧ Core ⟨G.toEnv, G.tbl, K, G.held⟩ s' ∧
        Keeps K s s')
      (fun _ _ => False) s := by
  have hmem : x ∈ G.refs := hK ▸ Multiset.mem_cons_self x K
  unfold iput
  rw [wp_bind, wp_inode, if_neg fun hc => hd ((h.dies_iff hmem).mp hc), wp_modInode]
  exact ⟨rfl, ⟨h.vol, h.cache.release hK hx⟩, Keeps.setInode _ rfl id⟩

/-- **`iput`** of an inode that is freed: its blocks are free, nothing else changes. -/
theorem iput_free (h : Core G s) (hK : G.refs = x ::ₘ K) (hx : x ∉ G.held) (hd : Dies G s x) :
    wp (iput x)
      (fun _ s' => ∃ d' v, s' = s.patch d' x v ∧
        Core ⟨G.toEnv, Function.update G.tbl (s.icache x).inum (G.tbl (s.icache x).inum).dead, K, G.held⟩ s' ∧ Keeps K s s' ∧
        Truncated G.sb G.R G.tbl (s.icache x).inum (G.tbl (s.icache x).inum).dead (s.disk ROOTDEV) d')
      (fun _ _ => False) s := by
  have hmem : x ∈ G.refs := hK ▸ Multiset.mem_cons_self x K
  have hxK := hd.notMem hK
  obtain ⟨hm, ht, hlt⟩ := h.live hmem hd.2.1
  have hdev := h.cache.dev x hmem
  have hbusy : (s.icache x).busy = false := by rw [h.cache.busy x hmem]; simpa using hx
  have hcond := (h.dies_iff hmem).mpr hd
  have hne : ∀ y ∈ K, y ≠ x := by rintro y hy rfl; exact hxK hy
  have hinum : ∀ y ∈ K, (s.icache y).inum ≠ (s.icache x).inum := by
    intro y hy heq
    exact hne y hy (h.cache.uniq y (hK ▸ Multiset.mem_cons_of_mem hy) x hmem heq)
  have htr : wp (itrunc x) _ _ (s.setInode x { s.icache x with busy := true }) :=
    itrunc_spec (by rw [setInode_disk]; exact h.vol) (by simpa using hdev) (by simpa using hlt)
      (by simpa using hm) (by simpa using ht)
  unfold iput
  rw [wp_bind, wp_inode, if_pos hcond, if_neg (by rw [hbusy]; exact Bool.false_ne_true), wp_bind, wp_modInode, wp_bind]
  refine wp_post htr ?_
  simp only [setInode_icache, Function.update_self, setInode_disk, setInode_patch]
  rintro _ s1 ⟨d1, rfl, ht1⟩
  rw [wp_bind, wp_modInode, patch_icache, Function.update_self, patch_setInode, wp_bind,
    wp_iupdate (by rw [patch_icache, Function.update_self]; exact hdev)]
  simp only [wp_bind, wp_modInode, patch_icache, patch_disk, Function.update_self, patch_setDisk, patch_setInode]
  have hdead := ht1.die h.vol hlt (h.vol.fits _ hlt)
  refine ⟨_, _, rfl, ⟨?_, ?_⟩, ⟨fun y hy => ?_, fun y hy hv => ?_⟩, hdead⟩
  · rw [patch_disk]; exact hdead.vol
  · refine h.cache.forget hK hxK hx rfl rfl rfl rfl ?_ rfl fun y hy => ?_
    · show (s.icache x).ref - 1 = 0
      omega
    · exact Function.update_of_ne (hinum y hy) ..
  · rw [patch_icache, Function.update_of_ne (hne y hy)]
  · rw [patch_icache, Function.update_of_ne (hne y hy)]; exact hv

/-- The ghost state after a reference `x` was dropped, with `K` left. -/
def Ghost.put (G : Ghost) (s : Fs) (x : Slot) (K : Multiset Slot) : Ghost :=
  if Dies G s x then ⟨G.toEnv, Function.update G.tbl (s.icache x).inum (G.tbl (s.icache x).inum).dead, K, G.held⟩
  else ⟨G.toEnv, G.tbl, K, G.held⟩

/-- **`iput`** drops a reference, and frees the inode when nothing needs it any more. -/
theorem iput_spec (h : Core G s) (hcl : Clean G s) (hK : G.refs = x ::ₘ K) (hx : x ∈ G.held → x ∈ K) :
    wp (iput x)
      (fun _ s' => Core (G.put s x K) s' ∧ Clean (G.put s x K) s' ∧ Keeps K s s' ∧
        (G.put s x K).own s' = (if Dies G s x then without (G.own s) (s.icache x).inum else G.own s) ∧
        ∀ j, (G.put s x K).file s' j = if Dies G s x ∧ j = (s.icache x).inum then fun _ => 0 else G.file s j)
      (fun _ _ => False) s := by
  by_cases hd : Dies G s x
  · have hput : G.put s x K = ⟨G.toEnv, Function.update G.tbl (s.icache x).inum (G.tbl (s.icache x).inum).dead, K, G.held⟩ :=
      if_pos hd
    refine wp_post (iput_free h hK (fun hc => hd.notMem hK (hx hc)) hd) ?_
    rintro _ s' ⟨d', v, rfl, hc, hk, ht⟩
    rw [hput, if_pos hd]
    have hown : Ghost.own ⟨G.toEnv, Function.update G.tbl (s.icache x).inum (G.tbl (s.icache x).inum).dead, K, G.held⟩
        (s.patch d' x v) = without (G.own s) (s.icache x).inum := by
      rw [Ghost.own, patch_disk]; exact ht.own
    refine ⟨hc, fun j hj => ?_, hk, hown, fun j => ?_⟩
    · rw [patch_disk, ht.stored j hj, hcl j hj]
      exact (Function.update_apply ..).symm
    · rw [Ghost.file, hown, patch_disk]
      by_cases hji : j = (s.icache x).inum
      · rw [if_pos ⟨hd, hji⟩, hji]
        funext p
        simp only [contents, without_self]
      · rw [if_neg fun hc => hji hc.2]
        exact contents_congr (fun k => without_of_ne hji) fun k c _ hc => ht.kept (j, k) c hji hc
  · have hput : G.put s x K = ⟨G.toEnv, G.tbl, K, G.held⟩ := if_neg hd
    refine wp_post (iput_keep h hK hx hd) ?_
    rintro _ s' ⟨rfl, hc, hk⟩
    rw [hput, if_neg hd]
    exact ⟨hc, hcl.congr rfl rfl rfl, hk, rfl, fun j => by rw [if_neg fun hc => hd hc.1]; rfl⟩

/-! ## `ialloc` -/

/-- The metadata of an inode just allocated. -/
def Meta.fresh (type : Int) : Meta := { type, major := 0, minor := 0, nlink := 0, size := 0, addrs := fun _ => 0 }

theorem Meta.fresh_fits {type : Int} (ht : -32768 ≤ type ∧ type < 32768) : (Meta.fresh type).Fits :=
  ⟨ht, show -32768 ≤ (0 : Int) ∧ (0 : Int) < 32768 by decide, show -32768 ≤ (0 : Int) ∧ (0 : Int) < 32768 by decide,
    show -32768 ≤ (0 : Int) ∧ (0 : Int) < 32768 by decide, Nat.zero_lt_succ _, fun _ _ => Nat.zero_lt_succ _,
    fun _ _ => rfl⟩

/-- A cleared dinode with its type set. -/
theorem getMeta_fresh (d : Arr) (o : Nat) {type : Int} (ht : -32768 ≤ type ∧ type < 32768) :
    getMeta (putI16 (fill d o 64 0) o type) o = Meta.fresh type := by
  have hz : ∀ j, o + 2 ≤ j → j < o + 64 → putI16 (fill d o 64 0) o type j = 0 := by
    intro j h1 h2
    rw [putI16, put16, blit_out (by omega), fill_in (by omega) h2]
  have h16 : ∀ q, o + 2 ≤ q → q + 2 ≤ o + 64 → u16 (putI16 (fill d o 64 0) o type) q = 0 := by
    intro q h1 h2
    rw [u16, hz q h1 (by omega), hz (q + 1) (by omega) (by omega)]; rfl
  have h32 : ∀ q, o + 2 ≤ q → q + 4 ≤ o + 64 → u32 (putI16 (fill d o 64 0) o type) q = 0 := by
    intro q h1 h2
    rw [u32, h16 q h1 (by omega), h16 (q + 2) (by omega) (by omega)]
  simp only [getMeta, Meta.fresh, Meta.mk.injEq]
  refine ⟨(i16_putI16 ..).trans (short_of_range ht), ?_, ?_, ?_, h32 _ (by omega) (by omega), funext fun k => ?_⟩
  · rw [i16, h16 _ (by omega) (by omega)]; rfl
  · rw [i16, h16 _ (by omega) (by omega)]; rfl
  · rw [i16, h16 _ (by omega) (by omega)]; rfl
  · split
    · rename_i hk
      simp only [NDIRECT] at hk
      exact h32 _ (by omega) (by omega)
    · rfl

/-- What `ialloc` took: an inode that was free, with a reference to it. -/
def Took (G : Ghost) (type : Int) (s : Fs) (y : Slot) (s' : Fs) : Prop :=
  ∃ i, (1 ≤ i ∧ i < G.sb.ninodes) ∧ (G.tbl i).type = 0 ∧ (s'.icache y).inum = i ∧
    (s'.icache y).valid = false ∧ Core ⟨G.toEnv, Function.update G.tbl i (.fresh type), y ::ₘ G.refs, G.held⟩ s' ∧
    Clean ⟨G.toEnv, Function.update G.tbl i (.fresh type), y ::ₘ G.refs, G.held⟩ s' ∧ Keeps G.refs s s' ∧
    Ghost.own ⟨G.toEnv, Function.update G.tbl i (.fresh type), y ::ₘ G.refs, G.held⟩ s' = G.own s ∧
    ∀ j, Ghost.file ⟨G.toEnv, Function.update G.tbl i (.fresh type), y ::ₘ G.refs, G.held⟩ s' j = G.file s j

/-- The scan of `ialloc`. -/
theorem iallocFrom_spec (h : Core G s) (hcl : Clean G s) {type : Int}
    (ht : -32768 ≤ type ∧ type < 32768) (l : List Nat) (hl : ∀ i ∈ l, 1 ≤ i ∧ i < G.sb.ninodes) :
    wp (iallocFrom ROOTDEV type l) (Took G type s)
      (fun e _ => e = .panic "ialloc: no inodes" ∨ e = .panic "iget: no inodes") s := by
  induction l with
  | nil => exact .inl rfl
  | cons i l ih =>
    have hi := hl i List.mem_cons_self
    have hmeta : (getDinode (s.disk ROOTDEV (IBLOCK i)) (inodeOff i)).type = (G.tbl i).type := by
      rw [← hcl i hi.2]; rfl
    unfold iallocFrom
    rw [wp_bind, wp_bread, hmeta]
    by_cases h0 : (G.tbl i).type = 0
    swap
    · rw [if_neg h0]
      exact ih fun j hj => hl j (List.mem_cons_of_mem _ hj)
    rw [if_pos h0, wp_bind, wp_bwrite, setSector_eq_setDisk]
    have hnone : ∀ k, ownOf G.sb G.tbl (s.disk ROOTDEV) (i, k) = none := fun k => if_neg fun hc => hc.2.1 h0
    obtain ⟨hv, ho⟩ := h.vol.clear hnone (m := .fresh type) rfl rfl (Meta.fresh_fits ht)
    generalize hy : putI16 (fill (s.disk ROOTDEV (IBLOCK i)) (inodeOff i) 64 0) (inodeOff i) type = y
    obtain ⟨hv', ho'⟩ := hv.writeInode hi.2 y
    have hstored : ∀ j, dmeta (Function.update (s.disk ROOTDEV) (IBLOCK i) y) j =
        if j = i then .fresh type else dmeta (s.disk ROOTDEV) j := by
      intro j
      by_cases hji : j = i
      · subst hji
        rw [if_pos rfl, dmeta, Function.update_self, ← hy]
        exact getMeta_fresh _ _ ht
      · rw [if_neg hji]
        refine dmeta_writeInode (fun o hoff => ?_) hji
        rw [← hy, putI16, put16, blit_out (by omega), fill_out hoff]
    have hcore : Core (G.setMeta i (.fresh type)) (s.setDisk (Function.update (s.disk ROOTDEV) (IBLOCK i) y)) := by
      refine ⟨by rw [setDisk_disk]; exact hv', ?_⟩
      refine ⟨h.cache.ref, h.cache.dev, h.cache.inum, h.cache.uniq, fun z hz hzv => ?_, h.cache.busy, h.cache.held,
        h.cache.tags⟩
      -- a loaded inode is allocated, so it is not the one just found
      have hzi : (s.icache z).inum ≠ i := fun hc => (h.cache.coh z hz hzv).2 (by rw [hc]; exact h0)
      rw [Ghost.setMeta_tbl, setDisk_icache, Function.update_of_ne hzi]
      exact h.cache.coh z hz hzv
    refine wp_mono (iget_spec hcore hi) ?_ fun e _ he => .inr he.1
    rintro x s' ⟨hc, hdisk, hinum, hk, hval⟩
    refine ⟨i, hi, h0, hinum, ?_, hc, fun j hj => ?_, ⟨hk.inum, hk.valid⟩, ?_, fun j => ?_⟩
    · rw [← Bool.not_eq_true]
      intro hv1
      obtain ⟨hx, hv0⟩ := hval hv1
      refine (h.cache.coh x hx hv0).2 ?_
      rw [show (s.icache x).inum = i from (hk.inum x hx).symm.trans hinum]; exact h0
    · rw [hdisk, setDisk_disk, hstored, hcl j hj]
      exact (Function.update_apply ..).symm
    · rw [Ghost.own, hdisk, setDisk_disk]; exact ho'.trans ho
    · rw [Ghost.file, Ghost.own, hdisk, setDisk_disk]
      refine contents_congr (fun k => congrFun (ho'.trans ho) (j, k)) fun k c _ hc' => ?_
      have h1 := (h.vol.alloc.own_range hc').1
      have h2 := (IBLOCK_range hi.2).2
      have h3 := bitStart_range G.sb
      exact Function.update_of_ne (by omega) ..

/-- **`ialloc`** takes an inode that was free. -/
theorem ialloc_spec (h : Core G s) (hcl : Clean G s) {type : Int} (ht : -32768 ≤ type ∧ type < 32768) :
    wp (ialloc ROOTDEV type) (Took G type s)
      (fun e _ => e = .panic "ialloc: no inodes" ∨ e = .panic "iget: no inodes") s := by
  unfold ialloc
  simp only [readsb, wp_bind, wp_bread, wp_pure, h.vol.alloc.super]
  refine iallocFrom_spec h hcl ht _ fun i hi => ?_
  have := List.mem_range'_1.mp hi
  omega

end Xv6
