import Xv6.Fs.Volume
import Xv6.Fs.Inode

/-!
# `Fs.Pointers` — which block each pointer of an inode holds, and the bytes of a file

An inode has 140 pointers: the 12 words of `addrs`, the last of them the indirect block, and the 128 words
of the indirect block. `ownOf` collects them for every allocated inode of a table of metadata, `contents`
reads a file through them. A new pointer to a zero block changes no file, which is why a hole and a
freshly allocated block read the same.
-/

namespace Xv6

open Bytes Hoare Ownership

/-! ## Pointers -/

/-- Pointers of an inode: `addrs[0..NDIRECT]`, then the entries of the indirect block. -/
@[simp] abbrev NPTR : Nat := 140

/-- Pointer `k` of an inode, 0 when there is none. -/
def ptr (d : Disk) (m : Meta) (k : Nat) : Nat :=
  if k ≤ NDIRECT then m.addrs k
  else if m.addrs NDIRECT = 0 then 0
  else u32 (d (m.addrs NDIRECT)) (4 * (k - 12))

/-- The block each pointer of each allocated inode holds. -/
def ownOf (sb : Superblock) (tbl : Nat → Meta) (d : Disk) : Nat × Nat → Option Nat := fun x =>
  if x.1 < sb.ninodes ∧ (tbl x.1).type ≠ 0 ∧ x.2 < NPTR ∧ ptr d (tbl x.1) x.2 ≠ 0 then
    some (ptr d (tbl x.1) x.2)
  else none

/-- `addrs[k] = b`. -/
def Meta.setAddr (m : Meta) (k b : Nat) : Meta := { m with addrs := Function.update m.addrs k b }

@[simp] theorem Meta.setAddr_type (m : Meta) (k b : Nat) : (m.setAddr k b).type = m.type := rfl

@[simp] theorem Meta.setAddr_size (m : Meta) (k b : Nat) : (m.setAddr k b).size = m.size := rfl

@[simp] theorem Meta.setAddr_addrs (m : Meta) (k b : Nat) :
    (m.setAddr k b).addrs = Function.update m.addrs k b := rfl

/-- The pointer of block `n` of a file. -/
def blockIx (n : Nat) : Nat := if n < NDIRECT then n else n + 1

theorem blockIx_ne (n : Nat) : blockIx n ≠ NDIRECT := by
  unfold blockIx
  split <;> simp only [NDIRECT] at * <;> omega

theorem blockIx_inj {n m : Nat} (h : blockIx n = blockIx m) : n = m := by
  unfold blockIx at h
  split at h <;> split at h <;> simp only [NDIRECT] at * <;> omega

theorem blockIx_lt {n : Nat} : blockIx n < NPTR ↔ n < MAXFILE := by
  unfold blockIx
  split <;> simp only [NDIRECT, NPTR, MAXFILE] at * <;> omega

variable {sb : Superblock} {tbl : Nat → Meta} {d d' : Disk} {i j k b n : Nat}

theorem ownOf_eq_some : ownOf sb tbl d (i, k) = some b ↔
    i < sb.ninodes ∧ (tbl i).type ≠ 0 ∧ k < NPTR ∧ ptr d (tbl i) k = b ∧ b ≠ 0 := by
  unfold ownOf
  constructor
  · intro h
    split at h
    · rename_i hc
      cases h
      exact ⟨hc.1, hc.2.1, hc.2.2.1, rfl, hc.2.2.2⟩
    · cases h
  · rintro ⟨h1, h2, h3, rfl, h4⟩
    exact if_pos ⟨h1, h2, h3, h4⟩

/-- An allocated inode's pointer. -/
theorem ownOf_alloc (hi : i < sb.ninodes) (ht : (tbl i).type ≠ 0) (hk : k < NPTR) :
    ownOf sb tbl d (i, k) = if ptr d (tbl i) k = 0 then none else some (ptr d (tbl i) k) := by
  unfold ownOf
  by_cases h : ptr d (tbl i) k = 0
  · rw [if_pos h, if_neg fun hc => hc.2.2.2 h]
  · rw [if_neg h, if_pos ⟨hi, ht, hk, h⟩]

theorem ownOf_eq_none (hi : i < sb.ninodes) (ht : (tbl i).type ≠ 0) (hk : k < NPTR) :
    ownOf sb tbl d (i, k) = none ↔ ptr d (tbl i) k = 0 := by
  rw [ownOf_alloc hi ht hk]
  by_cases h : ptr d (tbl i) k = 0 <;> simp [h]

theorem ownOf_past (hk : ¬ k < NPTR) : ownOf sb tbl d (i, k) = none :=
  if_neg fun hc => hk hc.2.2.1

/-- Pointers of one inode depend on its metadata and on its indirect block. -/
theorem ownOf_congr {tbl' : Nat → Meta} (htbl : tbl' i = tbl i)
    (hd : i < sb.ninodes → (tbl i).type ≠ 0 → (tbl i).addrs NDIRECT ≠ 0 →
      d' ((tbl i).addrs NDIRECT) = d ((tbl i).addrs NDIRECT)) :
    ownOf sb tbl' d' (i, k) = ownOf sb tbl d (i, k) := by
  unfold ownOf
  simp only [htbl]
  by_cases hi : i < sb.ninodes ∧ (tbl i).type ≠ 0
  · have hp : ptr d' (tbl i) k = ptr d (tbl i) k := by
      unfold ptr
      by_cases h0 : (tbl i).addrs NDIRECT = 0
      · simp only [h0, if_true]
      · rw [hd hi.1 hi.2 h0]
    rw [hp]
  · rw [if_neg fun hc => hi ⟨hc.1, hc.2.1⟩, if_neg fun hc => hi ⟨hc.1, hc.2.1⟩]

/-- The indirect block of an allocated inode is held by its pointer `NDIRECT`. -/
theorem ownOf_indirect (hi : i < sb.ninodes) (ht : (tbl i).type ≠ 0) (h0 : (tbl i).addrs NDIRECT ≠ 0) :
    ownOf sb tbl d (i, NDIRECT) = some ((tbl i).addrs NDIRECT) := by
  rw [ownOf_eq_some]
  exact ⟨hi, ht, by decide, if_pos (Nat.le_refl _), h0⟩

/-- Pointers survive any change of the disk that keeps the held indirect blocks. -/
theorem ownOf_congr_disk (hd : ∀ j c, ownOf sb tbl d (j, NDIRECT) = some c → d' c = d c) :
    ownOf sb tbl d' = ownOf sb tbl d := by
  funext x
  exact ownOf_congr rfl fun hi ht h0 => hd x.1 _ (ownOf_indirect hi ht h0)

/-- `addrs[k] = b` where there was no block; a new indirect block is zero. -/
theorem ownOf_setAddr (hi : i < sb.ninodes) (ht : (tbl i).type ≠ 0) (hk : k ≤ NDIRECT)
    (h0 : (tbl i).addrs k = 0) (hb : b ≠ 0) (hz : k = NDIRECT → ∀ o, o + 4 ≤ BSIZE → u32 (d' b) o = 0)
    (hd : ∀ j c, ownOf sb tbl d (j, NDIRECT) = some c → d' c = d c) :
    ownOf sb (Function.update tbl i ((tbl i).setAddr k b)) d' =
      Function.update (ownOf sb tbl d) (i, k) (some b) := by
  funext x
  obtain ⟨j, l⟩ := x
  by_cases hji : j = i
  swap
  · rw [Function.update_of_ne (by simp [hji])]
    exact ownOf_congr (Function.update_of_ne hji ..) fun hj htj hj0 => hd j _ (ownOf_indirect hj htj hj0)
  subst hji
  by_cases hlk : l = k
  · subst hlk
    rw [Function.update_self, ownOf_eq_some, Function.update_self]
    exact ⟨hi, ht, by simp only [NDIRECT, NPTR] at *; omega, by simp [ptr, hk], hb⟩
  · rw [Function.update_of_ne (by simp [hlk])]
    -- the other pointers of the inode: only a new indirect block could show new ones
    by_cases hl : l < NPTR
    swap
    · rw [ownOf_past hl, ownOf_past hl]
    rw [ownOf_alloc hi (by simpa using ht) hl, ownOf_alloc hi ht hl]
    suffices hp : ptr d' ((tbl j).setAddr k b) l = ptr d (tbl j) l by
      rw [Function.update_self, hp]
    unfold ptr
    by_cases hl11 : l ≤ NDIRECT
    · rw [if_pos hl11, if_pos hl11]
      exact Function.update_of_ne hlk ..
    rw [if_neg hl11, if_neg hl11]
    by_cases hk11 : k = NDIRECT
    · subst hk11
      rw [Meta.setAddr_addrs, Function.update_self, if_neg hb, if_pos h0]
      exact hz rfl _ (by simp only [NPTR, BSIZE, NDIRECT] at *; omega)
    · simp only [Meta.setAddr_addrs, Function.update_of_ne (Ne.symm hk11)]
      by_cases hz0 : (tbl j).addrs NDIRECT = 0
      · rw [if_pos hz0, if_pos hz0]
      · rw [if_neg hz0, if_neg hz0, hd j _ (ownOf_indirect hi ht hz0)]

/-- Entry `n` of the indirect block set to `b`, where there was none. -/
theorem ownOf_setEntry (hi : i < sb.ninodes) (ht : (tbl i).type ≠ 0) (h0 : (tbl i).addrs NDIRECT ≠ 0)
    (hn : n < NINDIRECT) (hb : b ≠ 0) (hb32 : b < 4294967296)
    (hself : d' ((tbl i).addrs NDIRECT) = put32 (d ((tbl i).addrs NDIRECT)) (4 * n) b)
    (hd : ∀ j c, j ≠ i → ownOf sb tbl d (j, NDIRECT) = some c → d' c = d c) :
    ownOf sb tbl d' = Function.update (ownOf sb tbl d) (i, 12 + n) (some b) := by
  funext x
  obtain ⟨j, l⟩ := x
  by_cases hji : j = i
  swap
  · rw [Function.update_of_ne (by simp [hji])]
    exact ownOf_congr rfl fun hj htj hj0 => hd j _ hji (ownOf_indirect hj htj hj0)
  subst hji
  by_cases hl : l < NPTR
  swap
  · have hne : l ≠ 12 + n := by simp only [NPTR, NINDIRECT] at *; omega
    rw [Function.update_of_ne (by simp [hne]), ownOf_past hl, ownOf_past hl]
  by_cases hln : l = 12 + n
  · subst hln
    rw [Function.update_self, ownOf_eq_some]
    refine ⟨hi, ht, hl, ?_, hb⟩
    unfold ptr
    rw [if_neg (by simp only [NDIRECT]; omega), if_neg h0, hself, Nat.add_sub_cancel_left, u32_put32]
    exact Nat.mod_eq_of_lt hb32
  · rw [Function.update_of_ne (by simp [hln]), ownOf_alloc hi ht hl, ownOf_alloc hi ht hl]
    suffices hp : ptr d' (tbl j) l = ptr d (tbl j) l by rw [hp]
    unfold ptr
    by_cases hl11 : l ≤ NDIRECT
    · rw [if_pos hl11, if_pos hl11]
    · rw [if_neg hl11, if_neg hl11, if_neg h0, if_neg h0, hself]
      exact u32_put32_out (by simp only [NDIRECT] at hl11; omega)

/-! ## Files -/

/-- Byte `x` of file `i`; an unmapped byte reads as 0. -/
def contents (own : Nat × Nat → Option Nat) (d : Disk) (i : Nat) : Arr := fun x =>
  match own (i, blockIx (x / BSIZE)) with
  | some b => d b (x % BSIZE)
  | none => 0

variable {own : Nat × Nat → Option Nat}

theorem contents_mapped {x : Nat} (h : own (i, blockIx (x / BSIZE)) = some b) :
    contents own d i x = d b (x % BSIZE) := by
  simp only [contents, h]

/-- A file without blocks reads as zeros. -/
theorem contents_none {d : Disk} {i : Nat} (h : ∀ k, own (i, k) = none) : contents own d i = fun _ => 0 := by
  funext x
  simp only [contents, h]

/-- Files survive any change of the disk that keeps the held blocks. -/
theorem contents_congr {own' : Nat × Nat → Option Nat} {i : Nat}
    (ho : ∀ k, own' (i, k) = own (i, k)) (hd : ∀ k c, k ≠ NDIRECT → own (i, k) = some c → d' c = d c) :
    contents own' d' i = contents own d i := by
  funext x
  unfold contents
  rw [ho]
  cases h : own (i, blockIx (x / BSIZE)) with
  | none => rfl
  | some c => simp only [hd _ c (blockIx_ne _) h]

/-- **Allocation is invisible.** A pointer to a zero block reads as the hole it replaces. -/
theorem contents_take (h0 : own (i, k) = none) (hz : k ≠ NDIRECT → ∀ o < BSIZE, d' b o = 0)
    (hd : ∀ j l c, l ≠ NDIRECT → own (j, l) = some c → d' c = d c) :
    contents (Function.update own (i, k) (some b)) d' j = contents own d j := by
  funext x
  unfold contents
  by_cases hjk : (j, blockIx (x / BSIZE)) = (i, k)
  · have hk : k ≠ NDIRECT := by
      rw [Prod.mk.injEq] at hjk
      rw [← hjk.2]; exact blockIx_ne _
    rw [hjk, Function.update_self, h0]
    exact hz hk _ (Nat.mod_lt _ (by decide))
  · rw [Function.update_of_ne hjk]
    cases h : own (j, blockIx (x / BSIZE)) with
    | none => rfl
    | some c => simp only [hd j _ c (blockIx_ne _) h]

/-- Writing block `n` of file `i` changes that block of that file. -/
theorem contents_write {reserved used : Nat → Prop} (ho : Owns own reserved used)
    (hb : own (i, blockIx n) = some b) (y : Arr) (x : Nat) :
    contents own (Function.update d b y) j x =
      if j = i ∧ x / BSIZE = n then y (x % BSIZE) else contents own d j x := by
  unfold contents
  by_cases hjn : j = i ∧ x / BSIZE = n
  · obtain ⟨rfl, rfl⟩ := hjn
    rw [if_pos ⟨rfl, rfl⟩, hb]
    simp only [Function.update_self]
  · rw [if_neg hjn]
    cases h : own (j, blockIx (x / BSIZE)) with
    | none => rfl
    | some c =>
      have hcb : c ≠ b := by
        rintro rfl
        have heq := ho.inj h hb
        rw [Prod.mk.injEq] at heq
        exact hjn ⟨heq.1, blockIx_inj heq.2⟩
      simp only [Function.update_of_ne hcb]

/-! ## The volume -/

/-- **Block ownership.** A data block is in use exactly when it occurs once among the pointers of the
    allocated inodes. -/
def BlockOwnership (sb : Superblock) (tbl : Nat → Meta) (d : Disk) : Prop :=
  ∀ b, sb.dataStart ≤ b → b < sb.nbits → (bit sb d b = true ↔ ∃! p, ownOf sb tbl d p = some b)

/-- No file has an unmapped block below its size. -/
def NoHoles (sb : Superblock) (tbl : Nat → Meta) (d : Disk) : Prop :=
  ∀ i < sb.ninodes, (tbl i).type ≠ 0 → ∀ n, n * BSIZE < (tbl i).size → ownOf sb tbl d (i, blockIx n) ≠ none

/-- **The volume.** The pointers on the disk obey the allocator's invariant, every block below the size
    of a file is mapped, and the metadata can be stored. -/
structure Vol (sb : Superblock) (R : Nat → Option Arr) (tbl : Nat → Meta) (d : Disk) : Prop where
  alloc : Alloc sb R (ownOf sb tbl d) d
  holes : NoHoles sb tbl d
  fits : ∀ i < sb.ninodes, (tbl i).Fits

variable {R : Nat → Option Arr}

/-- Where nothing is set aside, the volume has exact block ownership. -/
theorem Vol.blockOwnership (h : Vol sb (fun _ => none) tbl d) : BlockOwnership sb tbl d := by
  intro b hge hlt
  have hfree : ¬ Reserved sb (fun _ => none) b := by
    rintro (hb | hb)
    · omega
    · cases hb
  rw [← h.alloc.owns.used_iff_existsUnique hfree]
  exact ⟨fun hb => ⟨hlt, hb⟩, fun hu => hu.2⟩

/-- Without holes no file is larger than `MAXFILE` blocks. -/
theorem Vol.size_le (h : Vol sb R tbl d) (hi : i < sb.ninodes) (ht : (tbl i).type ≠ 0) :
    (tbl i).size ≤ MAXFILE * BSIZE := by
  by_contra hgt
  exact h.holes i hi ht MAXFILE (by omega) (ownOf_past (by decide))

/-- A held block is not an indirect block of another pointer. -/
theorem Vol.ne_indirect (h : Vol sb R tbl d) (hk : ownOf sb tbl d (i, k) = some b) (hne : k ≠ NDIRECT)
    {c : Nat} (hc : ownOf sb tbl d (j, NDIRECT) = some c) : c ≠ b := by
  rintro rfl
  have heq := h.alloc.owns.inj hc hk
  rw [Prod.mk.injEq] at heq
  exact hne heq.2.symm

/-- Writing a file's block moves no pointer. -/
theorem Vol.ownOf_write (h : Vol sb R tbl d) (hb : ownOf sb tbl d (i, blockIx n) = some b) (y : Arr) :
    ownOf sb tbl (Function.update d b y) = ownOf sb tbl d :=
  ownOf_congr_disk fun _ _ hc => Function.update_of_ne (h.ne_indirect hb (blockIx_ne n) hc) ..

/-- **Writing a file's block** keeps the volume. -/
theorem Vol.write (h : Vol sb R tbl d) (hb : ownOf sb tbl d (i, blockIx n) = some b) (y : Arr) :
    Vol sb R tbl (Function.update d b y) := by
  have ho := h.ownOf_write hb y
  refine ⟨?_, ?_, h.fits⟩
  · rw [ho]; exact h.alloc.write hb y
  · intro i' hi' ht' n' hn'
    rw [ho]; exact h.holes i' hi' ht' n' hn'

/-- Marking a block changes no data block. -/
theorem Vol.mark_own (h : Vol sb R tbl d) (hb : b < sb.nbits) {x : Nat × Nat} {c : Nat}
    (hc : ownOf sb tbl d x = some c) : mark sb d b c = d c :=
  mark_of_ne hb (.inr (h.alloc.own_range hc).1)

theorem Vol.u32_free (h : Vol sb R tbl d) (hb : b < sb.nbits) (hfree : bit sb d b = false) {o : Nat}
    (ho : o + 4 ≤ BSIZE) : u32 (mark sb d b b) o = 0 := by
  rw [mark_of_ne hb (.inr (h.alloc.free_range hfree))]
  have hz := h.alloc.zero b hb hfree
  simp only [u32, u16, hz o (by omega), hz (o + 1) (by omega), hz (o + 2) (by omega),
    hz (o + 2 + 1) (by omega)]
  rfl

/-- A new pointer fills no hole below the size. -/
theorem holes_take (h : Vol sb R tbl d) {tbl' : Nat → Meta} {x : Nat × Nat}
    (ho : ownOf sb tbl' d' = Function.update (ownOf sb tbl d) x (some b))
    (hm : ∀ i, (tbl' i).type = (tbl i).type ∧ (tbl' i).size = (tbl i).size) : NoHoles sb tbl' d' := by
  intro i hi ht n hn
  rw [(hm i).1] at ht
  rw [(hm i).2] at hn
  rw [ho]
  by_cases hx : (i, blockIx n) = x
  · rw [hx, Function.update_self]; exact Option.some_ne_none b
  · rw [Function.update_of_ne hx]; exact h.holes i hi ht n hn

/-- `addrs[k]` set to a block that was free. -/
theorem Vol.setAddr (h : Vol sb R tbl d) (hi : i < sb.ninodes) (ht : (tbl i).type ≠ 0) (hk : k ≤ NDIRECT)
    (h0 : (tbl i).addrs k = 0) (hb : b < sb.nbits) (hfree : bit sb d b = false) :
    Vol sb R (Function.update tbl i ((tbl i).setAddr k b)) (mark sb d b) ∧
    ownOf sb (Function.update tbl i ((tbl i).setAddr k b)) (mark sb d b) =
      Function.update (ownOf sb tbl d) (i, k) (some b) := by
  have hge := h.alloc.free_range hfree
  have hpos := bitStart_range sb
  have hnone : ownOf sb tbl d (i, k) = none :=
    (ownOf_eq_none hi ht (by simp only [NDIRECT, NPTR] at *; omega)).mpr (by simp [ptr, hk, h0])
  have ho : ownOf sb (Function.update tbl i ((tbl i).setAddr k b)) (mark sb d b) =
      Function.update (ownOf sb tbl d) (i, k) (some b) :=
    ownOf_setAddr hi ht hk h0 (by omega) (fun _ o hoo => h.u32_free hb hfree hoo)
      fun _ _ hc => h.mark_own hb hc
  refine ⟨⟨?_, ?_, ?_⟩, ho⟩
  · rw [ho]; exact h.alloc.take hnone hb hfree
  · refine holes_take h ho fun j => ?_
    by_cases hj : j = i
    · subst hj; simp
    · simp [Function.update_of_ne hj]
  · intro j hj
    by_cases hji : j = i
    · subst hji
      rw [Function.update_self]
      have hf := h.fits j hj
      have hb32 : b < 4294967296 := Nat.lt_of_lt_of_le hb h.alloc.ok.bits
      refine ⟨hf.type, hf.major, hf.minor, hf.nlink, hf.size, fun l hl => ?_, fun l hl => ?_⟩
      · rw [Meta.setAddr_addrs]
        by_cases hlk : l = k
        · rw [hlk, Function.update_self]; exact hb32
        · rw [Function.update_of_ne hlk]; exact hf.addr l hl
      · rw [Meta.setAddr_addrs, Function.update_of_ne (by simp only [NDIRECT] at hk; omega)]
        exact hf.past l hl
    · rw [Function.update_of_ne hji]; exact h.fits j hj

/-- An entry of the indirect block set to a block that was free. -/
theorem Vol.setEntry (h : Vol sb R tbl d) (hi : i < sb.ninodes) (ht : (tbl i).type ≠ 0)
    {ind : Nat} (hind : ownOf sb tbl d (i, NDIRECT) = some ind) (hn : n < NINDIRECT)
    (h0 : u32 (d ind) (4 * n) = 0) (hb : b < sb.nbits) (hfree : bit sb d b = false) :
    Vol sb R tbl (Function.update (mark sb d b) ind (put32 (d ind) (4 * n) b)) ∧
    ownOf sb tbl (Function.update (mark sb d b) ind (put32 (d ind) (4 * n) b)) =
      Function.update (ownOf sb tbl d) (i, 12 + n) (some b) := by
  have hge := h.alloc.free_range hfree
  have hpos := bitStart_range sb
  obtain ⟨-, -, -, haddr, hne⟩ := ownOf_eq_some.mp hind
  have haddr : (tbl i).addrs NDIRECT = ind := by simpa [ptr] using haddr
  have hlt : 12 + n < NPTR := by simp only [NINDIRECT, NPTR] at *; omega
  have hnone : ownOf sb tbl d (i, 12 + n) = none := by
    rw [ownOf_eq_none hi ht hlt]
    unfold ptr
    rw [if_neg (by simp only [NDIRECT]; omega), haddr, if_neg hne, Nat.add_sub_cancel_left]
    exact h0
  have ho : ownOf sb tbl (Function.update (mark sb d b) ind (put32 (d ind) (4 * n) b)) =
      Function.update (ownOf sb tbl d) (i, 12 + n) (some b) := by
    refine ownOf_setEntry hi ht (haddr ▸ hne) hn (by omega) (Nat.lt_of_lt_of_le hb h.alloc.ok.bits) ?_ ?_
    · rw [haddr, Function.update_self]
    · intro j c hji hc
      have hci : c ≠ ind := by
        rintro rfl
        have heq := h.alloc.owns.inj hc hind
        rw [Prod.mk.injEq] at heq
        exact hji heq.1
      rw [Function.update_of_ne hci]; exact h.mark_own hb hc
  have hind' : Function.update (ownOf sb tbl d) (i, 12 + n) (some b) (i, NDIRECT) = some ind := by
    rw [Function.update_of_ne (by simp only [NDIRECT, ne_eq, Prod.mk.injEq, true_and]; omega)]
    exact hind
  refine ⟨⟨?_, holes_take h ho fun _ => ⟨rfl, rfl⟩, h.fits⟩, ho⟩
  rw [ho]
  exact (h.alloc.take hnone hb hfree).write hind' _

/-- **Changing metadata other than the pointers.** -/
theorem Vol.setMeta (h : Vol sb R tbl d) {m : Meta} (ht : (tbl i).type ≠ 0) (htm : m.type ≠ 0)
    (ha : m.addrs = (tbl i).addrs) (hf : m.Fits)
    (hh : ∀ n, n * BSIZE < m.size → ownOf sb tbl d (i, blockIx n) ≠ none) :
    Vol sb R (Function.update tbl i m) d ∧ ownOf sb (Function.update tbl i m) d = ownOf sb tbl d := by
  have ho : ownOf sb (Function.update tbl i m) d = ownOf sb tbl d := by
    funext x
    obtain ⟨j, k⟩ := x
    by_cases hj : j = i
    · subst hj
      have hp : ptr d m k = ptr d (tbl j) k := by simp only [ptr, ha]
      unfold ownOf
      simp only [Function.update_self, hp, htm, ht, ne_eq, not_false_eq_true, true_and]
    · exact ownOf_congr (Function.update_of_ne hj ..) fun _ _ _ => rfl
  refine ⟨⟨by rw [ho]; exact h.alloc, ?_, ?_⟩, ho⟩
  · intro j hj htj n hn
    rw [ho]
    by_cases hji : j = i
    · subst hji
      rw [Function.update_self] at hn
      exact hh n hn
    · rw [Function.update_of_ne hji] at htj hn
      exact h.holes j hj htj n hn
  · intro j hj
    by_cases hji : j = i
    · subst hji; rw [Function.update_self]; exact hf
    · rw [Function.update_of_ne hji]; exact h.fits j hj

/-- **Storing an inode** moves no pointer and keeps the volume. -/
theorem Vol.writeInode (h : Vol sb R tbl d) (hi : i < sb.ninodes) (y : Arr) :
    Vol sb R tbl (Function.update d (IBLOCK i) y) ∧
    ownOf sb tbl (Function.update d (IBLOCK i) y) = ownOf sb tbl d := by
  have ho : ownOf sb tbl (Function.update d (IBLOCK i) y) = ownOf sb tbl d := by
    refine ownOf_congr_disk fun j c hc => Function.update_of_ne ?_ ..
    have h1 := (h.alloc.own_range hc).1
    have h2 := (IBLOCK_range hi).2
    have h3 := bitStart_range sb
    omega
  refine ⟨⟨by rw [ho]; exact h.alloc.writeInode hi y, ?_, h.fits⟩, ho⟩
  intro j hj ht n hn
  rw [ho]; exact h.holes j hj ht n hn

end Xv6
