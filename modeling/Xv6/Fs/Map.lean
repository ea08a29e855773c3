import Xv6.Fs.Cache
import Mathlib.Data.Finset.Card
import Mathlib.Data.Finset.Range

/-!
# `Fs.Map` — `bmap` and the blocks it allocates

`bmap` returns the block of a file at an index, allocating it and, past the direct blocks, the indirect
block as needed. What it does to the rest of the system is `Grown`: new pointers of one inode, in the cache
only, to blocks that were free and zero, so no file changes. The count of free blocks goes down by the
number of pointers that were missing, which is how much room a write needs.
-/

namespace Xv6

open Bytes Hoare Ownership

/-! ## Room -/

/-- Number of free blocks. -/
def freeBlocks (sb : Superblock) (d : Disk) : Nat :=
  ((Finset.range sb.nbits).filter fun b => bit sb d b = false).card

/-- Number of pointers among `P` that inode `i` lacks. -/
def missing (own : Nat × Nat → Option Nat) (i : Nat) (P : Finset Nat) : Nat :=
  (P.filter fun k => own (i, k) = none).card

variable {sb : Superblock} {d d' : Disk} {own own' : Nat × Nat → Option Nat} {b i k n : Nat} {P P' : Finset Nat}

theorem freeBlocks_congr (h : ∀ b < sb.nbits, bit sb d' b = bit sb d b) :
    freeBlocks sb d' = freeBlocks sb d := by
  unfold freeBlocks
  congr 1
  refine Finset.filter_congr fun b hb => ?_
  rw [h b (Finset.mem_range.mp hb)]

/-- Marking a free block leaves one free block less. -/
theorem freeBlocks_mark (hb : b < sb.nbits) (hfree : bit sb d b = false) :
    freeBlocks sb (mark sb d b) + 1 = freeBlocks sb d := by
  have hmem : b ∈ (Finset.range sb.nbits).filter fun b => bit sb d b = false :=
    Finset.mem_filter.mpr ⟨Finset.mem_range.mpr hb, hfree⟩
  refine Eq.trans ?_ (Finset.card_erase_add_one hmem)
  unfold freeBlocks
  congr 2
  ext c
  simp only [Finset.mem_filter, Finset.mem_erase, bit_mark, Bool.or_eq_false_iff, decide_eq_false_iff_not]
  tauto

theorem freeBlocks_zero (h : ∀ b < sb.nbits, bit sb d b = true) : freeBlocks sb d = 0 := by
  unfold freeBlocks
  rw [Finset.card_eq_zero, Finset.filter_eq_empty_iff]
  intro b hb
  rw [h b (Finset.mem_range.mp hb)]
  exact Bool.true_eq_false_eq_False

theorem missing_congr (h : ∀ k ∈ P, own' (i, k) = own (i, k)) : missing own' i P = missing own i P := by
  unfold missing
  congr 1
  exact Finset.filter_congr fun k hk => by rw [h k hk]

/-- A new pointer is missing no more. -/
theorem missing_take (hk : k ∈ P) (h0 : own (i, k) = none) :
    missing (Function.update own (i, k) (some b)) i P + 1 = missing own i P := by
  have hmem : k ∈ P.filter fun k => own (i, k) = none := Finset.mem_filter.mpr ⟨hk, h0⟩
  refine Eq.trans ?_ (Finset.card_erase_add_one hmem)
  unfold missing
  congr 2
  ext l
  simp only [Finset.mem_filter, Finset.mem_erase]
  by_cases hl : l = k
  · subst hl; simp
  · simp [hl, Function.update_of_ne]

/-- Pointers `P'` among `P` changed: the count over `P` changes as the count over `P'`. -/
theorem missing_mono (hsub : P' ⊆ P) (h : ∀ k, k ∉ P' → own' (i, k) = own (i, k)) :
    missing own i P + missing own' i P' = missing own' i P + missing own i P' := by
  have hsplit : ∀ o : Nat × Nat → Option Nat, missing o i P = missing o i P' + missing o i (P \ P') := by
    intro o
    unfold missing
    rw [← Finset.card_union_of_disjoint, ← Finset.filter_union, Finset.union_sdiff_of_subset hsub]
    exact Finset.disjoint_filter_filter Finset.disjoint_sdiff
  have hrest : missing own' i (P \ P') = missing own i (P \ P') :=
    missing_congr fun k hk => h k (Finset.mem_sdiff.mp hk).2
  rw [hsplit own, hsplit own', hrest]
  omega

/-! ## Growing a file's map -/

variable {G G' G'' : Ghost} {s s' s'' : Fs} {x : Slot}

/-- **Growth.** Some pointers among `P` of the inode in slot `x` now hold blocks that were free; the new
    `addrs` are in the cache only. -/
structure Grown (x : Slot) (P : Finset Nat) (G : Ghost) (s : Fs) (G' : Ghost) (s' : Fs) : Prop where
  core : Core G' s'
  ghost : ∃ a, G' = G.setMeta (s.icache x).inum { G.tbl (s.icache x).inum with addrs := a }
  icache : s'.icache = Function.update s.icache x { s.icache x with toMeta := G'.tbl (s.icache x).inum }
  grows : ∀ y b, G.own s y = some b → G'.own s' y = some b
  only : ∀ y, ¬ (y.1 = (s.icache x).inum ∧ y.2 ∈ P) → G'.own s' y = G.own s y
  stored : ∀ j < G.sb.ninodes, dmeta (s'.disk ROOTDEV) j = dmeta (s.disk ROOTDEV) j
  room : freeBlocks G.sb (s'.disk ROOTDEV) + missing (G.own s) (s.icache x).inum P =
    freeBlocks G.sb (s.disk ROOTDEV) + missing (G'.own s') (s.icache x).inum P

theorem Grown.sb_eq (h : Grown x P G s G' s') : G'.sb = G.sb := by
  obtain ⟨a, rfl⟩ := h.ghost; rfl

theorem Grown.refs_eq (h : Grown x P G s G' s') : G'.refs = G.refs := by
  obtain ⟨a, rfl⟩ := h.ghost; rfl

/-- Only the pointers of the inode change. -/
theorem Grown.tbl_self (h : Grown x P G s G' s') :
    ∃ a, G'.tbl (s.icache x).inum = { G.tbl (s.icache x).inum with addrs := a } := by
  obtain ⟨a, rfl⟩ := h.ghost
  exact ⟨a, Function.update_self ..⟩

theorem Grown.slot (h : Grown x P G s G' s') :
    s'.icache x = { s.icache x with toMeta := G'.tbl (s.icache x).inum } := by
  rw [h.icache, Function.update_self]

theorem Grown.inum (h : Grown x P G s G' s') : (s'.icache x).inum = (s.icache x).inum := by rw [h.slot]

theorem Grown.valid (h : Grown x P G s G' s') : (s'.icache x).valid = (s.icache x).valid := by rw [h.slot]

theorem Grown.refl (h : Core G s) (hx : x ∈ G.refs) (hv : (s.icache x).valid = true) (P : Finset Nat) :
    Grown x P G s G s where
  core := h
  ghost := ⟨(G.tbl (s.icache x).inum).addrs, by rw [Ghost.setMeta, Function.update_eq_self]⟩
  icache := by
    rw [← (h.live hx hv).1]
    exact (Function.update_eq_self x s.icache).symm
  grows _ _ hy := hy
  only _ _ := rfl
  stored _ _ := rfl
  room := rfl

/-- Growth among fewer pointers is growth among more. -/
theorem Grown.mono (h : Grown x P' G s G' s') (hsub : P' ⊆ P) : Grown x P G s G' s' where
  core := h.core
  ghost := h.ghost
  icache := h.icache
  grows := h.grows
  only y hy := h.only y fun hc => hy ⟨hc.1, hsub hc.2⟩
  stored := h.stored
  room := by
    have h1 := h.room
    have h2 : missing (G.own s) (s.icache x).inum P + missing (G'.own s') (s.icache x).inum P' =
        missing (G'.own s') (s.icache x).inum P + missing (G.own s) (s.icache x).inum P' :=
      missing_mono hsub fun k hk => h.only _ fun hc => hk hc.2
    omega

theorem Grown.trans (h : Grown x P G s G' s') (h' : Grown x P G' s' G'' s'') : Grown x P G s G'' s'' where
  core := h'.core
  ghost := by
    obtain ⟨a, rfl⟩ := h.ghost
    obtain ⟨a', rfl⟩ := h'.ghost
    exact ⟨a', by simp only [Ghost.setMeta, h.inum, Function.update_self, Function.update_idem]⟩
  icache := by
    rw [h'.icache, h.slot, h.icache, Function.update_idem]
  grows y b hy := h'.grows y b (h.grows y b hy)
  only y hy := (h'.only y (by rw [h.inum]; exact hy)).trans (h.only y hy)
  stored j hj := (h'.stored j (by rw [h.sb_eq]; exact hj)).trans (h.stored j hj)
  room := by
    have h1 := h.room
    have h2 := h'.room
    rw [h.sb_eq, h.inum] at h2
    omega

/-! ## `bmap` -/

/-- Marking a free block keeps the data blocks files are read from. -/
theorem Core.contents_mark (h : Core G s) (hb : b < G.sb.nbits) (hfree : bit G.sb (s.disk ROOTDEV) b = false)
    (h0 : G.own s (i, k) = none) {d' : Disk} (hd' : ∀ j l c, l ≠ NDIRECT → G.own s (j, l) = some c →
      d' c = s.disk ROOTDEV c) (hz : d' b = mark G.sb (s.disk ROOTDEV) b b) (j : Nat) :
    contents (Function.update (G.own s) (i, k) (some b)) d' j = G.file s j := by
  refine contents_take h0 (fun _ o ho => ?_) hd'
  rw [hz, mark_of_ne hb (.inr (h.vol.alloc.free_range hfree))]
  exact h.vol.alloc.zero b hb hfree o ho

/-- **One new pointer.** What is left to check after pointer `k` was set to a block that was free. -/
theorem Grown.take (h : Core G s) (hx : x ∈ G.refs) {m : Meta} {d' : Disk}
    (hm : m = { G.tbl (s.icache x).inum with addrs := m.addrs }) (ht : m.type ≠ 0)
    (hvol : Vol G.sb G.R (Function.update G.tbl (s.icache x).inum m) d')
    (hown : ownOf G.sb (Function.update G.tbl (s.icache x).inum m) d' =
      Function.update (G.own s) ((s.icache x).inum, k) (some b))
    (h0 : G.own s ((s.icache x).inum, k) = none) (hb : b < G.sb.nbits)
    (hfree : bit G.sb (s.disk ROOTDEV) b = false)
    (hd : ∀ j l c, l ≠ NDIRECT → G.own s (j, l) = some c → d' c = s.disk ROOTDEV c)
    (hz : d' b = mark G.sb (s.disk ROOTDEV) b b)
    (hbits : ∀ c < G.sb.nbits, bit G.sb d' c = bit G.sb (mark G.sb (s.disk ROOTDEV) b) c)
    (hmeta : ∀ j < G.sb.ninodes, dmeta d' j = dmeta (s.disk ROOTDEV) j) :
    Grown x {k} G s (G.setMeta (s.icache x).inum m)
      ((s.setDisk d').setInode x { s.icache x with toMeta := m }) ∧
    (G.setMeta (s.icache x).inum m).own ((s.setDisk d').setInode x { s.icache x with toMeta := m })
      ((s.icache x).inum, k) = some b ∧
    Quiet G s (G.setMeta (s.icache x).inum m)
      ((s.setDisk d').setInode x { s.icache x with toMeta := m }) := by
  have hdisk : ((s.setDisk d').setInode x { s.icache x with toMeta := m }).disk ROOTDEV = d' :=
    setDisk_disk s d'
  have hown' : (G.setMeta (s.icache x).inum m).own
      ((s.setDisk d').setInode x { s.icache x with toMeta := m }) =
      Function.update (G.own s) ((s.icache x).inum, k) (some b) := by
    rw [Ghost.own, hdisk]; exact hown
  refine ⟨⟨⟨hdisk ▸ hvol, ?_⟩, ⟨m.addrs, by rw [← hm]⟩, ?_, ?_, ?_, ?_, ?_⟩,
    by rw [hown', Function.update_self], ⟨?_, rfl, rfl, rfl⟩⟩
  · refine h.cache.modify hx rfl rfl rfl rfl rfl rfl rfl ?_ (h.cache.busy x hx) ?_ (fun _ _ => Iff.rfl) ?_
    · intro _
      simp only [Ghost.setMeta_tbl, Function.update_self]
      exact ⟨trivial, ht⟩
    · exact fun hc => (h.cache.held x hc).2
    · exact fun y hy hyx => Function.update_of_ne (fun heq => hyx (h.cache.uniq y hy x hx heq)) ..
  · simp only [Ghost.setMeta_tbl, Function.update_self, setInode_icache, setDisk_icache]
  · intro y c hy
    rw [hown', Function.update_of_ne (by rintro rfl; rw [h0] at hy; cases hy)]
    exact hy
  · intro y hy
    rw [hown', Function.update_of_ne fun he => hy (by simp [he])]
  · intro j hj
    rw [hdisk]; exact hmeta j hj
  · rw [hown', hdisk, freeBlocks_congr hbits]
    have h1 := freeBlocks_mark hb hfree
    have h2 : missing (Function.update (G.own s) ((s.icache x).inum, k) (some b)) (s.icache x).inum {k} + 1 =
        missing (G.own s) (s.icache x).inum {k} := missing_take (Finset.mem_singleton_self k) h0
    omega
  · intro j
    rw [Ghost.file, hown', hdisk]
    exact h.contents_mark hb hfree h0 hd hz j

/-- A pointer of `addrs`: the block it holds, or a new one. -/
theorem addrAlloc_spec (h : Core G s) (hx : x ∈ G.refs) (hv : (s.icache x).valid = true) (hk : k ≤ NDIRECT) :
    wp (addrAlloc x k)
      (fun b s' => ∃ G', Grown x {k} G s G' s' ∧ G'.own s' ((s.icache x).inum, k) = some b ∧ Quiet G s G' s')
      (fun e _ => e = .panic "balloc: out of blocks" ∧
        freeBlocks G.sb (s.disk ROOTDEV) < missing (G.own s) (s.icache x).inum {k}) s := by
  obtain ⟨hm, ht, hlt⟩ := h.live hx hv
  have hkp : k < NPTR := by simp only [NDIRECT, NPTR] at *; omega
  have hptr : ptr (s.disk ROOTDEV) (G.tbl (s.icache x).inum) k = (G.tbl (s.icache x).inum).addrs k := if_pos hk
  have haddr : (s.icache x).addrs k = (G.tbl (s.icache x).inum).addrs k := by rw [← hm]
  unfold addrAlloc
  rw [wp_bind, wp_inode, haddr]
  by_cases h0 : (G.tbl (s.icache x).inum).addrs k = 0
  · have hnone : G.own s ((s.icache x).inum, k) = none := (ownOf_eq_none hlt ht hkp).mpr (hptr.trans h0)
    have hmiss : missing (G.own s) (s.icache x).inum {k} = 1 := by
      simp [missing, Finset.filter_singleton, hnone]
    rw [if_pos h0, wp_bind, h.cache.dev x hx]
    refine wp_mono (balloc_spec h.vol.alloc.super) ?_ ?_
    swap
    · rintro e s' ⟨rfl, hfull⟩
      rw [freeBlocks_zero hfull, hmiss]
      exact ⟨rfl, Nat.zero_lt_one⟩
    rintro b s' ⟨hb, hfree, -, rfl⟩
    simp only [setAddr, wp_bind, wp_modInode, wp_pure, setDisk_icache]
    obtain ⟨hvol, hown⟩ := h.vol.setAddr hlt ht hk h0 hb hfree
    have hg := Grown.take (m := (G.tbl (s.icache x).inum).setAddr k b) h hx rfl ht hvol hown hnone hb hfree (fun _ _ _ _ hc => h.vol.mark_own hb hc) rfl
      (fun _ _ => rfl) fun j hj => dmeta_mark hb hj
    have hslot : { s.icache x with addrs := Function.update (s.icache x).addrs k b } =
        { s.icache x with toMeta := (G.tbl (s.icache x).inum).setAddr k b } := by rw [← hm]; rfl
    rw [hslot]
    exact ⟨_, hg⟩
  · rw [if_neg h0, wp_pure]
    exact ⟨G, Grown.refl h hx hv _, ownOf_eq_some.mpr ⟨hlt, ht, hkp, hptr, h0⟩, Quiet.refl G s⟩

/-- The pointers `bmap` follows to block `n` of a file. -/
def path (n : Nat) : Finset Nat := if n < NDIRECT then {n} else {NDIRECT, n + 1}

/-- Where there is a pointer to it, a block is returned as it is. -/
theorem wp_bmap_found {dev : Nat} (hdev : (s.icache x).dev = dev) (hk : blockIx n < NPTR)
    (hptr : ptr (s.disk dev) (s.icache x).toMeta (blockIx n) = b) (hne : b ≠ 0) {Q : Nat → Fs → Prop} {E : Stop → Fs → Prop} :
    wp (bmap x n) Q E s ↔ Q b s := by
  unfold bmap
  by_cases hn : n < NDIRECT
  · rw [blockIx, if_pos hn, ptr, if_pos (Nat.le_of_lt hn)] at hptr
    rw [if_pos hn, addrAlloc, wp_bind, wp_inode, hptr, if_neg hne, wp_pure]
  · have hnd : n - NDIRECT < NINDIRECT := by
      have := blockIx_lt.mp hk
      simp only [NDIRECT, NINDIRECT, MAXFILE] at *; omega
    have hix : ¬ n + 1 ≤ NDIRECT := by simp only [NDIRECT] at *; omega
    rw [blockIx, if_neg hn, ptr, if_neg hix] at hptr
    by_cases hi0 : (s.icache x).addrs NDIRECT = 0
    · rw [if_pos hi0] at hptr; exact absurd hptr.symm hne
    · rw [if_neg hi0, show n + 1 - 12 = n - NDIRECT by simp only [NDIRECT]; omega] at hptr
      rw [if_neg hn, if_pos hnd, addrAlloc]
      simp only [wp_bind, wp_inode, if_neg hi0, wp_pure, wp_bread, hdev, hptr, if_neg hne]

/-- A mapped block is returned as it is. -/
theorem bmap_mapped (h : Core G s) (hx : x ∈ G.refs) (hv : (s.icache x).valid = true)
    (hb : G.own s ((s.icache x).inum, blockIx n) = some b) {Q : Nat → Fs → Prop} {E : Stop → Fs → Prop} :
    wp (bmap x n) Q E s ↔ Q b s := by
  obtain ⟨hm, -, -⟩ := h.live hx hv
  obtain ⟨-, -, hk, hptr, hne⟩ := ownOf_eq_some.mp hb
  exact wp_bmap_found (h.cache.dev x hx) hk (by rw [hm]; exact hptr) hne

/-- **`bmap`** returns the block of a file at index `n`, allocating what is missing on the way to it. -/
theorem bmap_spec (h : Core G s) (hx : x ∈ G.refs) (hv : (s.icache x).valid = true) (hn : n < MAXFILE) :
    wp (bmap x n)
      (fun b s' => ∃ G', Grown x (path n) G s G' s' ∧ G'.own s' ((s.icache x).inum, blockIx n) = some b ∧
        Quiet G s G' s')
      (fun e _ => e = .panic "balloc: out of blocks" ∧
        freeBlocks G.sb (s.disk ROOTDEV) < missing (G.own s) (s.icache x).inum (path n)) s := by
  by_cases hd : n < NDIRECT
  · have hpath : path n = {n} := if_pos hd
    have hix : blockIx n = n := if_pos hd
    rw [hpath, hix, bmap, if_pos hd]
    exact addrAlloc_spec h hx hv (Nat.le_of_lt hd)
  have hpath : path n = {NDIRECT, n + 1} := if_neg hd
  have hix : blockIx n = n + 1 := if_neg hd
  have hnd : n - NDIRECT < NINDIRECT := by simp only [NDIRECT, NINDIRECT, MAXFILE] at *; omega
  have hsub : {NDIRECT} ⊆ path n := by rw [hpath]; simp
  have hsub' : {n + 1} ⊆ path n := by rw [hpath]; simp
  unfold bmap
  rw [if_neg hd, if_pos hnd, wp_bind]
  refine wp_mono (addrAlloc_spec h hx hv (Nat.le_refl NDIRECT)) ?_ ?_
  swap
  · rintro e s' ⟨rfl, hroom⟩
    refine ⟨rfl, Nat.lt_of_lt_of_le hroom (Finset.card_le_card ?_)⟩
    exact Finset.filter_subset_filter _ hsub
  -- the indirect block is there now, in the state `s1`
  rintro ind s1 ⟨G1, hg, hind, hq⟩
  have hx1 : x ∈ G1.refs := by rw [hg.refs_eq]; exact hx
  have hv1 : (s1.icache x).valid = true := by rw [hg.valid]; exact hv
  obtain ⟨hm1, ht1, hlt1⟩ := hg.core.live hx1 hv1
  rw [← hg.inum] at hind
  obtain ⟨-, -, -, hptr, hne⟩ := ownOf_eq_some.mp hind
  have haddr : (G1.tbl (s1.icache x).inum).addrs NDIRECT = ind := by simpa [ptr] using hptr
  have hlt : n + 1 < NPTR := by simp only [NPTR, MAXFILE] at *; omega
  have hptr1 : ptr (s1.disk ROOTDEV) (G1.tbl (s1.icache x).inum) (n + 1) =
      u32 (s1.disk ROOTDEV ind) (4 * (n - NDIRECT)) := by
    rw [ptr, if_neg (by simp only [NDIRECT] at *; omega), haddr, if_neg hne,
      show n + 1 - 12 = n - NDIRECT by simp only [NDIRECT]; omega]
  rw [wp_bind, wp_inode, wp_bind, hg.core.cache.dev x hx1, wp_bread]
  by_cases h0 : u32 (s1.disk ROOTDEV ind) (4 * (n - NDIRECT)) = 0
  swap
  · rw [if_neg h0, wp_pure]
    refine ⟨G1, hg.mono hsub, ?_, hq⟩
    rw [hix, ← hg.inum]
    exact ownOf_eq_some.mpr ⟨hlt1, ht1, hlt, hptr1, h0⟩
  have hnone : G1.own s1 ((s1.icache x).inum, n + 1) = none :=
    (ownOf_eq_none hlt1 ht1 hlt).mpr (hptr1.trans h0)
  rw [if_pos h0, wp_bind]
  refine wp_mono (balloc_spec hg.core.vol.alloc.super) ?_ ?_
  swap
  · rintro e s' ⟨rfl, hfull⟩
    refine ⟨rfl, ?_⟩
    have hroom := (hg.mono hsub).room
    rw [← hg.sb_eq, freeBlocks_zero hfull, Nat.zero_add] at hroom
    have hmiss : 0 < missing (G1.own s1) (s.icache x).inum (path n) := by
      refine Finset.card_pos.mpr ⟨n + 1, Finset.mem_filter.mpr ⟨hsub' (Finset.mem_singleton_self _), ?_⟩⟩
      rw [← hg.inum]; exact hnone
    rw [← hg.sb_eq]
    omega
  rintro b s2 ⟨hb, hfree, -, rfl⟩
  obtain ⟨hvol, hown⟩ := hg.core.vol.setEntry hlt1 ht1 hind hnd h0 hb hfree
  have hge := hg.core.vol.alloc.free_range hfree
  obtain ⟨hige, hilt, hibit⟩ := hg.core.vol.alloc.own_range hind
  have hbi : b ≠ ind := by rintro rfl; rw [hfree] at hibit; cases hibit
  have hstart := bitStart_range G1.sb
  rw [wp_bind, wp_bwrite, wp_pure, setSector_eq_setDisk, setDisk_disk, setDisk_setDisk]
  rw [show 12 + (n - NDIRECT) = n + 1 by simp only [NDIRECT] at *; omega] at hown
  rw [← Function.update_eq_self (s1.icache x).inum G1.tbl] at hvol hown
  have hg2 := Grown.take hg.core hx1 rfl ht1 hvol (hown.trans (by rw [Function.update_eq_self]; rfl)) hnone hb
    hfree (fun j l c hl hc => ?_) (Function.update_of_ne hbi ..) (fun c hc => bit_update (.inr hige) hc)
    fun j hj => (dmeta_update (by omega) hj).trans (dmeta_mark hb hj)
  swap
  · rw [Function.update_of_ne]
    · exact hg.core.vol.mark_own hb hc
    · rintro rfl
      have heq := hg.core.vol.alloc.owns.inj hc hind
      rw [Prod.mk.injEq] at heq
      exact hl heq.2
  have hself : G1.setMeta (s1.icache x).inum (G1.tbl (s1.icache x).inum) = G1 := by
    rw [Ghost.setMeta, Function.update_eq_self]
  have hslot : ∀ t : Fs, t.icache = s1.icache →
      t.setInode x { s1.icache x with toMeta := G1.tbl (s1.icache x).inum } = t := by
    intro t htc
    rw [← hm1, Fs.setInode, htc, Function.update_eq_self, ← htc]
  rw [hself, hslot _ (setDisk_icache ..)] at hg2
  refine ⟨G1, (hg.mono hsub).trans (hg2.1.mono hsub'), ?_, hq.trans hg2.2.2⟩
  rw [hix, ← hg.inum]; exact hg2.2.1

end Xv6
