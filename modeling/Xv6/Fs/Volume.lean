import Xv6.Fs.Block
import Xv6.Lib.Ownership

/-!
# `Fs.Volume` — the root device as a bitmap, an inode table and data blocks

The regions of a device do not overlap: inode blocks, then bitmap blocks, then data blocks. `bit` and
`dmeta` read the first two regions; the lemmas here say what one write changes in each view. `Alloc` is the
allocator's invariant, over any assignment `own` of blocks to the pointers that hold them, and `balloc` and
`bfree` are its two steps.
-/

namespace Xv6

open Bytes Hoare Ownership

/-- The sectors of one device. -/
abbrev Disk := Nat → Arr

/-- Replace the root device. -/
def Fs.setDisk (s : Fs) (d : Disk) : Fs := { s with disk := Function.update s.disk ROOTDEV d }

@[simp] theorem setDisk_disk (s : Fs) (d : Disk) : (s.setDisk d).disk ROOTDEV = d := by
  simp [Fs.setDisk]

@[simp] theorem setDisk_icache (s : Fs) (d : Disk) : (s.setDisk d).icache = s.icache := rfl

@[simp] theorem setDisk_setDisk (s : Fs) (d d' : Disk) : (s.setDisk d).setDisk d' = s.setDisk d' := by
  simp [Fs.setDisk]

@[simp] theorem setDisk_self (s : Fs) : s.setDisk (s.disk ROOTDEV) = s := by simp [Fs.setDisk]

/-- A write to the root device. -/
theorem setSector_eq_setDisk (s : Fs) (b : Nat) (x : Arr) :
    s.setSector ROOTDEV b x = s.setDisk (Function.update (s.disk ROOTDEV) b x) := rfl

/-! ## Regions -/

/-- A superblock the kernel's arithmetic can handle: inode numbers fit the `ushort` of a directory entry,
    block numbers a `uint`, and the root inode exists. -/
structure Superblock.Ok (sb : Superblock) : Prop where
  inodes : 1 < sb.ninodes
  inum : sb.ninodes ≤ 65536
  bits : sb.nbits ≤ 4294967296

variable {sb : Superblock} {d : Disk} {b c i : Nat}

/-- First bitmap block. -/
def Superblock.bitStart (sb : Superblock) : Nat := sb.ninodes / IPB + 3

theorem bitStart_range (sb : Superblock) : 3 ≤ sb.bitStart ∧ sb.bitStart < sb.dataStart := by
  simp only [Superblock.bitStart, Superblock.dataStart, IPB, BPB]; omega

/-- Inode blocks lie between the superblock and the bitmap. -/
theorem IBLOCK_range (hi : i < sb.ninodes) : 2 ≤ IBLOCK i ∧ IBLOCK i < sb.bitStart := by
  simp only [IBLOCK, IPB, Superblock.bitStart]; omega

/-- Bitmap blocks lie between the inodes and the data. -/
theorem BBLOCK_range (hb : b < sb.nbits) :
    sb.bitStart ≤ BBLOCK b sb.ninodes ∧ BBLOCK b sb.ninodes < sb.dataStart := by
  simp only [BBLOCK, Superblock.nbits, Superblock.bitblocks, Superblock.dataStart, Superblock.bitStart,
    IPB, BPB] at *
  omega

/-! ## Views -/

/-- The bitmap bit of block `b`. -/
def bit (sb : Superblock) (d : Disk) (b : Nat) : Bool := hasBit (d (BBLOCK b sb.ninodes)) (b % BPB)

/-- The metadata stored for inode `i`. -/
def dmeta (d : Disk) (i : Nat) : Meta := getMeta (d (IBLOCK i)) (inodeOff i)

/-- The disk with the bit of `b` set. -/
def mark (sb : Superblock) (d : Disk) (b : Nat) : Disk :=
  Function.update d (BBLOCK b sb.ninodes) (setBit (d (BBLOCK b sb.ninodes)) (b % BPB))

/-- The disk with the bit of `b` cleared. -/
def unmark (sb : Superblock) (d : Disk) (b : Nat) : Disk :=
  Function.update d (BBLOCK b sb.ninodes) (clearBit (d (BBLOCK b sb.ninodes)) (b % BPB))

/-- Two block numbers have the same bit when they have the same bitmap block and the same place in it. -/
theorem bit_place (hc : BBLOCK c sb.ninodes = BBLOCK b sb.ninodes) : b % BPB = c % BPB ↔ c = b := by
  simp only [BBLOCK, BPB] at *; omega

theorem bit_mark (sb : Superblock) (d : Disk) (b c : Nat) :
    bit sb (mark sb d b) c = (decide (c = b) || bit sb d c) := by
  unfold bit mark
  by_cases hc : BBLOCK c sb.ninodes = BBLOCK b sb.ninodes
  · rw [hc, Function.update_self, hasBit_setBit]
    simp only [bit_place hc]
  · rw [Function.update_of_ne hc, decide_eq_false (by rintro rfl; exact hc rfl), Bool.false_or]

theorem bit_unmark (sb : Superblock) (d : Disk) (b c : Nat) :
    bit sb (unmark sb d b) c = (!decide (c = b) && bit sb d c) := by
  unfold bit unmark
  by_cases hc : BBLOCK c sb.ninodes = BBLOCK b sb.ninodes
  · rw [hc, Function.update_self, hasBit_clearBit]
    simp only [bit_place hc]
  · rw [Function.update_of_ne hc, decide_eq_false (by rintro rfl; exact hc rfl), Bool.not_false,
      Bool.true_and]

/-- A write outside the bitmap changes no bit. -/
theorem bit_update {x : Arr} (hb : b < sb.bitStart ∨ sb.dataStart ≤ b) (hc : c < sb.nbits) :
    bit sb (Function.update d b x) c = bit sb d c := by
  have hr := BBLOCK_range hc
  unfold bit
  rw [Function.update_of_ne (by omega)]

/-- A write above the inode blocks changes no inode. -/
theorem dmeta_update {x : Arr} (hb : sb.bitStart ≤ b) (hi : i < sb.ninodes) :
    dmeta (Function.update d b x) i = dmeta d i := by
  have hr := IBLOCK_range hi
  unfold dmeta
  rw [Function.update_of_ne (by omega)]

/-! ## The allocator's invariant -/

/-- Blocks no pointer may hold: those before the data, and the blocks set aside in `R`. -/
def Reserved (sb : Superblock) (R : Nat → Option Arr) (b : Nat) : Prop :=
  b < sb.dataStart ∨ (R b).isSome

/-- Blocks whose bit is set. -/
def Used (sb : Superblock) (d : Disk) (b : Nat) : Prop := b < sb.nbits ∧ bit sb d b = true

/-- **The allocator's invariant.** Pointer `k` of inode `i` holds the block `own (i, k)`; the blocks in
    use are the held and the reserved ones, free blocks are all zero, and the blocks of `R` have the
    contents `R` gives them. -/
structure Alloc (sb : Superblock) (R : Nat → Option Arr) (own : Nat × Nat → Option Nat) (d : Disk) :
    Prop where
  super : getSuperblock (d 1) = sb
  ok : sb.Ok
  owns : Owns own (Reserved sb R) (Used sb d)
  zero : ∀ b < sb.nbits, bit sb d b = false → ∀ j < BSIZE, d b j = 0
  keep : ∀ b x, R b = some x → d b = x
  data : ∀ b, (R b).isSome → sb.dataStart ≤ b

variable {R : Nat → Option Arr} {own : Nat × Nat → Option Nat} {k : Nat × Nat}

theorem not_used (hf : bit sb d b = false) : ¬ Used sb d b := by
  rintro ⟨-, hu⟩
  rw [hf] at hu
  exact Bool.false_ne_true hu

/-- A held block is a data block. -/
theorem Alloc.own_range (h : Alloc sb R own d) (hk : own k = some b) :
    sb.dataStart ≤ b ∧ b < sb.nbits ∧ bit sb d b = true := by
  have hu := h.owns.used_of_own hk
  have hs := h.owns.sep hk
  refine ⟨?_, hu.1, hu.2⟩
  by_contra hlt
  exact hs (.inl (Nat.lt_of_not_le hlt))

/-- A free block is a data block. -/
theorem Alloc.free_range (h : Alloc sb R own d) (hf : bit sb d b = false) : sb.dataStart ≤ b := by
  by_contra hlt
  exact not_used hf ((h.owns.used_iff b).mpr (.inl (.inl (Nat.lt_of_not_le hlt))))

/-- Only data blocks are set aside. -/
theorem Alloc.keep_update (h : Alloc sb R own d) {x : Arr} (hb : ¬ (R b).isSome) (c : Nat) (y : Arr)
    (hy : R c = some y) : Function.update d b x c = y := by
  have hcb : c ≠ b := by rintro rfl; exact hb (by rw [hy]; rfl)
  rw [Function.update_of_ne hcb]
  exact h.keep c y hy

/-- **Writing a held block** keeps the invariant. -/
theorem Alloc.write (h : Alloc sb R own d) (hk : own k = some b) (x : Arr) :
    Alloc sb R own (Function.update d b x) := by
  obtain ⟨hge, hlt, hbit⟩ := h.own_range hk
  have h1 := bitStart_range sb
  have hbits : ∀ c < sb.nbits, bit sb (Function.update d b x) c = bit sb d c :=
    fun c hc => bit_update (.inr hge) hc
  refine ⟨?_, h.ok, h.owns.congr fun c => ?_, ?_, h.keep_update fun hr => h.owns.sep hk (.inr hr), h.data⟩
  · rw [Function.update_of_ne (by omega)]; exact h.super
  · unfold Used
    constructor
    · rintro ⟨hc, hu⟩; exact ⟨hc, by rwa [hbits c hc] at hu⟩
    · rintro ⟨hc, hu⟩; exact ⟨hc, by rwa [hbits c hc]⟩
  · intro c hc hfree j hj
    rw [hbits c hc] at hfree
    have hcb : c ≠ b := by rintro rfl; rw [hbit] at hfree; cases hfree
    rw [Function.update_of_ne hcb]
    exact h.zero c hc hfree j hj

/-- **Writing an inode block** keeps the invariant. -/
theorem Alloc.writeInode (h : Alloc sb R own d) (hi : i < sb.ninodes) (x : Arr) :
    Alloc sb R own (Function.update d (IBLOCK i) x) := by
  obtain ⟨h2, hlt⟩ := IBLOCK_range hi
  have h1 := bitStart_range sb
  have hbits : ∀ c < sb.nbits, bit sb (Function.update d (IBLOCK i) x) c = bit sb d c :=
    fun c hc => bit_update (.inl hlt) hc
  have hR : ¬ (R (IBLOCK i)).isSome := fun hr => by have := h.data _ hr; omega
  refine ⟨?_, h.ok, h.owns.congr fun c => ?_, ?_, h.keep_update hR, h.data⟩
  · rw [Function.update_of_ne (by omega)]; exact h.super
  · unfold Used
    constructor
    · rintro ⟨hc, hu⟩; exact ⟨hc, by rwa [hbits c hc] at hu⟩
    · rintro ⟨hc, hu⟩; exact ⟨hc, by rwa [hbits c hc]⟩
  · intro c hc hfree j hj
    rw [hbits c hc] at hfree
    have hge := h.free_range hfree
    rw [Function.update_of_ne (by omega)]
    exact h.zero c hc hfree j hj

/-- A bitmap write leaves the superblock, the inodes and the data alone. -/
theorem mark_of_ne (hb : b < sb.nbits) (hc : c < sb.bitStart ∨ sb.dataStart ≤ c) :
    mark sb d b c = d c := by
  have hr := BBLOCK_range hb
  exact Function.update_of_ne (by omega) ..

theorem unmark_of_ne (hb : b < sb.nbits) (hc : c < sb.bitStart ∨ sb.dataStart ≤ c) :
    unmark sb d b c = d c := by
  have hr := BBLOCK_range hb
  exact Function.update_of_ne (by omega) ..

theorem dmeta_mark (hb : b < sb.nbits) (hi : i < sb.ninodes) : dmeta (mark sb d b) i = dmeta d i := by
  unfold dmeta
  rw [mark_of_ne hb (.inl (IBLOCK_range hi).2)]

theorem used_mark (hb : b < sb.nbits) (c : Nat) : Used sb (mark sb d b) c ↔ c = b ∨ Used sb d c := by
  unfold Used
  rw [bit_mark, Bool.or_eq_true, decide_eq_true_eq]
  constructor
  · rintro ⟨hc, rfl | hu⟩
    · exact .inl rfl
    · exact .inr ⟨hc, hu⟩
  · rintro (rfl | ⟨hc, hu⟩)
    · exact ⟨hb, .inl rfl⟩
    · exact ⟨hc, .inr hu⟩

theorem used_unmark (c : Nat) : Used sb (unmark sb d b) c ↔ c ≠ b ∧ Used sb d c := by
  unfold Used
  rw [bit_unmark, Bool.and_eq_true, Bool.not_eq_true', decide_eq_false_iff_not]
  constructor
  · rintro ⟨hc, hne, hu⟩; exact ⟨hne, hc, hu⟩
  · rintro ⟨hne, hc, hu⟩; exact ⟨hc, hne, hu⟩

/-- A marked block is no longer free, the others keep their contents. -/
theorem Alloc.zero_mark (h : Alloc sb R own d) (hb : b < sb.nbits) :
    ∀ c < sb.nbits, bit sb (mark sb d b) c = false → ∀ j < BSIZE, mark sb d b c j = 0 := by
  intro c hc hfree j hj
  rw [bit_mark, Bool.or_eq_false_iff] at hfree
  rw [mark_of_ne hb (.inr (h.free_range hfree.2))]
  exact h.zero c hc hfree.2 j hj

theorem Alloc.keep_mark (h : Alloc sb R own d) (hb : b < sb.nbits) (c : Nat) (y : Arr) (hy : R c = some y) :
    mark sb d b c = y := by
  rw [mark_of_ne hb (.inr (h.data c (by rw [hy]; rfl)))]
  exact h.keep c y hy

theorem Alloc.super_mark (h : Alloc sb R own d) (hb : b < sb.nbits) :
    getSuperblock (mark sb d b 1) = sb := by
  rw [mark_of_ne hb (.inl (by have := bitStart_range sb; omega))]; exact h.super

/-- **Allocating.** Marking a free block gives it to a pointer that holds none. -/
theorem Alloc.take (h : Alloc sb R own d) (hk : own k = none) (hb : b < sb.nbits)
    (hfree : bit sb d b = false) : Alloc sb R (Function.update own k (some b)) (mark sb d b) where
  super := h.super_mark hb
  ok := h.ok
  owns := (h.owns.take hk (not_used hfree)).congr (used_mark hb)
  zero := h.zero_mark hb
  keep := h.keep_mark hb
  data := h.data

/-- **Freeing.** Zeroing a held block and clearing its bit takes it from its pointer. -/
theorem Alloc.drop (h : Alloc sb R own d) (hk : own k = some b) :
    Alloc sb R (Function.update own k none) (unmark sb (Function.update d b (fill (d b) 0 BSIZE 0)) b) := by
  obtain ⟨hge, hlt, hbit⟩ := h.own_range hk
  have hw := h.write hk (fill (d b) 0 BSIZE 0)
  refine ⟨?_, h.ok, (hw.owns.drop hk).congr fun c => used_unmark c, ?_, ?_, h.data⟩
  · rw [unmark_of_ne hlt (.inl (by have := bitStart_range sb; omega))]; exact hw.super
  · intro c hc hfree j hj
    rw [bit_unmark, Bool.and_eq_false_iff] at hfree
    by_cases hcb : c = b
    · subst hcb
      rw [unmark_of_ne hlt (.inr hge), Function.update_self]
      exact fill_in (by omega) (by omega)
    · have hfree' : bit sb (Function.update d b (fill (d b) 0 BSIZE 0)) c = false := by
        rcases hfree with hcon | hf
        · simp [hcb] at hcon
        · exact hf
      rw [unmark_of_ne hlt (.inr (hw.free_range hfree'))]
      exact hw.zero c hc hfree' j hj
  · intro c y hy
    rw [unmark_of_ne hlt (.inr (h.data c (by rw [hy]; rfl)))]
    exact hw.keep c y hy

/-! ## `balloc` and `bfree` -/

/-- The scan of one bitmap block finds its first clear bit. -/
theorem freeBit_some {bp : Arr} {bi : Nat} (h : freeBit bp = some bi) :
    bi < BPB ∧ hasBit bp bi = false ∧ ∀ k < bi, hasBit bp k = true := by
  unfold freeBit at h
  have hmem := List.mem_range.mp (List.mem_of_find?_eq_some h)
  have hsome := List.find?_some h
  refine ⟨hmem, by simpa using hsome, fun k hk => ?_⟩
  have hbefore := List.find?_range_eq_some.mp h
  simpa using hbefore.2.2 k hk

theorem freeBit_none {bp : Arr} (h : freeBit bp = none) {k : Nat} (hk : k < BPB) :
    hasBit bp k = true := by
  unfold freeBit at h
  have := List.find?_eq_none.mp h k (List.mem_range.mpr hk)
  simpa using this

/-- Bit `bi` of the bitmap block that covers `b` on. -/
theorem bit_add (hb : b % BPB = 0) {bi : Nat} (hbi : bi < BPB) :
    bit sb d (b + bi) = hasBit (d (BBLOCK b sb.ninodes)) bi := by
  unfold bit
  simp only [BPB] at hb hbi ⊢
  rw [show (b + bi) % 4096 = bi by omega,
    show BBLOCK (b + bi) sb.ninodes = BBLOCK b sb.ninodes by simp only [BBLOCK, BPB]; omega]

variable {s : Fs}

/-- The scan of the bitmap from block number `b`, `t` bitmap blocks before its end. -/
theorem ballocFrom_spec (t : Nat) : ∀ b, b + t * BPB = sb.nbits → b % BPB = 0 →
    (∀ c < b, bit sb (s.disk ROOTDEV) c = true) →
    wp (ballocFrom ROOTDEV sb t b)
      (fun c s' => c < sb.nbits ∧ bit sb (s.disk ROOTDEV) c = false ∧ (∀ a < c, bit sb (s.disk ROOTDEV) a = true) ∧
        s' = s.setDisk (mark sb (s.disk ROOTDEV) c))
      (fun e _ => e = .panic "balloc: out of blocks" ∧ ∀ c < sb.nbits, bit sb (s.disk ROOTDEV) c = true) s := by
  induction t with
  | zero =>
    intro b hb _ hall
    exact ⟨rfl, fun c hc => hall c (by omega)⟩
  | succ t ih =>
    intro b hb hmod hall
    simp only [BPB] at hb hmod
    simp only [ballocFrom, wp_bind, wp_bread]
    cases hf : freeBit (s.disk ROOTDEV (BBLOCK b sb.ninodes)) with
    | some bi =>
      obtain ⟨hbi, hclear, hbefore⟩ := freeBit_some hf
      simp only [BPB] at hbi
      simp only [wp_bind, wp_bwrite, wp_pure]
      refine ⟨by omega, ?_, fun a ha => ?_, ?_⟩
      · rw [bit_add hmod hbi]; exact hclear
      · by_cases hab : a < b
        · exact hall a hab
        · have hset := hbefore (a - b) (by omega)
          rw [← bit_add hmod (by simp only [BPB]; omega)] at hset
          rwa [show b + (a - b) = a by omega] at hset
      · rw [setSector_eq_setDisk, mark]
        simp only [BPB, show (b + bi) % 4096 = bi by omega,
          show BBLOCK (b + bi) sb.ninodes = BBLOCK b sb.ninodes by simp only [BBLOCK, BPB]; omega]
    | none =>
      refine ih (b + BPB) (by simp only [BPB]; omega) (by simp only [BPB]; omega) fun c hc => ?_
      simp only [BPB] at hc
      by_cases hcb : c < b
      · exact hall c hcb
      · -- bits `b .. b + 4096` are those of the block just scanned
        have hset := freeBit_none hf (k := c - b) (by simp only [BPB]; omega)
        rw [← bit_add hmod (by simp only [BPB]; omega)] at hset
        rwa [show b + (c - b) = c by omega] at hset

/-- **`balloc`** marks the first free block and returns it; with no free block it panics and changes nothing. -/
theorem balloc_spec (hsb : getSuperblock (s.disk ROOTDEV 1) = sb) :
    wp (balloc ROOTDEV)
      (fun b s' => b < sb.nbits ∧ bit sb (s.disk ROOTDEV) b = false ∧ (∀ a < b, bit sb (s.disk ROOTDEV) a = true) ∧
        s' = s.setDisk (mark sb (s.disk ROOTDEV) b))
      (fun e _ => e = .panic "balloc: out of blocks" ∧ ∀ b < sb.nbits, bit sb (s.disk ROOTDEV) b = true) s := by
  simp only [balloc, readsb, wp_bind, wp_bread, wp_pure, hsb]
  exact ballocFrom_spec sb.bitblocks 0 (by rw [Nat.zero_add, Superblock.nbits]) rfl fun c hc =>
    absurd hc (Nat.not_lt_zero c)

/-- The disk after `bfree`: the block zeroed, its bit cleared. -/
def freed (sb : Superblock) (d : Disk) (b : Nat) : Disk :=
  unmark sb (Function.update d b (fill (d b) 0 BSIZE 0)) b

/-- **`bfree`** of a data block whose bit is set. -/
theorem bfree_spec (hsb : getSuperblock (s.disk ROOTDEV 1) = sb) (hge : sb.dataStart ≤ b) (hlt : b < sb.nbits)
    (hbit : bit sb (s.disk ROOTDEV) b = true) :
    wp (bfree ROOTDEV b) (fun _ s' => s' = s.setDisk (freed sb (s.disk ROOTDEV) b)) (fun _ _ => False) s := by
  have h1 := bitStart_range sb
  have hsb' : getSuperblock (Function.update (s.disk ROOTDEV) b (fill (s.disk ROOTDEV b) 0 BSIZE 0) 1) = sb := by
    rw [Function.update_of_ne (by omega)]; exact hsb
  have hset : hasBit (Function.update (s.disk ROOTDEV) b (fill (s.disk ROOTDEV b) 0 BSIZE 0)
      (BBLOCK b sb.ninodes)) (b % BPB) = true := (bit_update (.inr hge) hlt).trans hbit
  simp only [bfree, bzero, readsb, wp_bind, wp_bread, wp_bwrite, wp_pure, wp_ite, wp_panic, setSector_disk,
    hsb', hset]
  exact ⟨fun _ => by rw [setSector_eq_setDisk, setSector_disk, setSector_eq_setDisk, setDisk_setDisk]; rfl,
    fun h => absurd trivial h⟩

/-! ## The end of the disk -/

/-- `balloc` keeps to the disk: a block below `sb.size` or, if there is none, the panic. -/
def BallocOnDisk (sb : Superblock) (s : Fs) : Prop :=
  wp (balloc ROOTDEV)
    (fun b s' => b < sb.size ∧ bit sb (s.disk ROOTDEV) b = false ∧ (∀ a < b, bit sb (s.disk ROOTDEV) a = true) ∧
      ∀ c, bit sb (s'.disk ROOTDEV) c = (decide (c = b) || bit sb (s.disk ROOTDEV) c))
    (fun e _ => e = .panic "balloc: out of blocks" ∧ ∀ b < sb.size, bit sb (s.disk ROOTDEV) b = true) s

/-- `bfree` clears the bit of the block it frees and no other. -/
def BfreeExact (sb : Superblock) (s : Fs) : Prop :=
  ∀ b, sb.dataStart ≤ b → b < sb.size → bit sb (s.disk ROOTDEV) b = true →
    wp (bfree ROOTDEV b) (fun _ s' => ∀ c < sb.nbits,
      bit sb (s'.disk ROOTDEV) c = (!decide (c = b) && bit sb (s.disk ROOTDEV) c)) (fun _ _ => False) s

theorem size_le_nbits (sb : Superblock) : sb.size ≤ sb.nbits := by
  simp only [Superblock.nbits, Superblock.bitblocks, BPB]
  omega

theorem bfreeExact (hsb : getSuperblock (s.disk ROOTDEV 1) = sb) : BfreeExact sb s := by
  intro b hge hlt hbit
  have hnb := size_le_nbits sb
  refine wp_post (bfree_spec hsb hge (by omega) hbit) ?_
  rintro _ s' rfl c hc
  rw [setDisk_disk, freed, bit_unmark, bit_update (.inr hge) hc]

/-- The last bitmap block covers more than the disk, and `balloc` scans all of it. -/
theorem ballocOnDisk_iff (hsb : getSuperblock (s.disk ROOTDEV 1) = sb) :
    BallocOnDisk sb s ↔ (∃ b < sb.size, bit sb (s.disk ROOTDEV) b = false) ∨
      ∀ b < sb.nbits, bit sb (s.disk ROOTDEV) b = true := by
  have hnb := size_le_nbits sb
  have hspec := balloc_spec hsb
  constructor
  · intro hok
    by_cases hall : ∀ b < sb.nbits, bit sb (s.disk ROOTDEV) b = true
    · exact .inr hall
    · -- a clear bit: `balloc` returns, and what it returns is on the disk
      refine .inl ?_
      rcases hrun : exec (balloc ROOTDEV) s with ⟨b | b, s'⟩
      · exact absurd (wp_error hspec hrun).2 hall
      · have hb := wp_ok hok hrun
        exact ⟨b, hb.1, hb.2.1⟩
  · intro hcond
    refine wp_mono hspec ?_ ?_
    · rintro b s' ⟨hb, hclear, hlow, rfl⟩
      refine ⟨?_, hclear, hlow, fun c => ?_⟩
      · rcases hcond with ⟨c, hc, hfree⟩ | hall
        · by_contra hge
          rw [hlow c (by omega)] at hfree
          cases hfree
        · rw [hall b hb] at hclear
          cases hclear
      · rw [setDisk_disk, bit_mark]
    · rintro e s' ⟨he, hall⟩
      exact ⟨he, fun b hb => hall b (by omega)⟩

/-- **Block allocation stays on the disk** as long as a block below `sb.size` is free or the bits past the end of
    the disk are set; `bfree` addresses the same bit. -/
theorem balloc_onDisk_iff (hsb : getSuperblock (s.disk ROOTDEV 1) = sb) :
    (BallocOnDisk sb s ∧ BfreeExact sb s) ↔ (∃ b < sb.size, bit sb (s.disk ROOTDEV) b = false) ∨
      ∀ b < sb.nbits, bit sb (s.disk ROOTDEV) b = true := by
  constructor
  · exact fun h => (ballocOnDisk_iff hsb).mp h.1
  · exact fun h => ⟨(ballocOnDisk_iff hsb).mpr h, bfreeExact hsb⟩

/-- A disk of 1024 blocks and 200 inodes of which the first `used` blocks are in use. -/
def filledDisk (used : Nat) : Fs where
  disk _ n :=
    if n = 1 then put32 (put32 (fun _ => 0) 0 1024) 8 200
    else if n = 28 then fun i => if i < used / 8 then 255 else 0
    else fun _ => 0
  icache _ := ⟨⟨0, 0, 0, 0, 0, fun _ => 0⟩, 0, 0, 0, false, false, 0⟩
  tty _ := none
  mem _ := 0
  acc := []

theorem balloc_onDisk_iff_filled :
    BallocOnDisk ⟨1024, 200⟩ (filledDisk 512) ∧ BfreeExact ⟨1024, 200⟩ (filledDisk 512) :=
  (balloc_onDisk_iff (by decide +kernel)).mpr (.inl ⟨512, by decide, by decide +kernel⟩)

/-- On a full disk `balloc` returns block 1024, the first one that does not exist. -/
theorem balloc_past_end :
    (∀ b < Superblock.dataStart ⟨1024, 200⟩, bit ⟨1024, 200⟩ ((filledDisk 1024).disk ROOTDEV) b = true) ∧
      ¬ BallocOnDisk ⟨1024, 200⟩ (filledDisk 1024) := by
  refine ⟨by decide +kernel, fun hok => ?_⟩
  rcases (ballocOnDisk_iff (by decide +kernel)).mp hok with ⟨b, hb, hclear⟩ | hall
  · have hfull : ∀ b < 1024, bit ⟨1024, 200⟩ ((filledDisk 1024).disk ROOTDEV) b = true := by decide +kernel
    rw [hfull b hb] at hclear
    cases hclear
  · exact absurd (hall 1024 (by decide)) (by decide +kernel)

end Xv6
