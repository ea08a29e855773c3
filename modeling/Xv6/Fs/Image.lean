import Xv6.Fs.Cache
import Xv6.Fs.Dir

/-!
# `Fs.Image` — disk images written down (`tools/mkfs.c`)

An image is given by its superblock, the metadata of its inodes, its data blocks and how many of its first
blocks are in use; `Image.disk` lays it out as `mkfs` does. An image whose used data blocks are each held by
the pointer `holder` names is a volume, and with one inode loaded it is a state of the file system.
-/

namespace Xv6

open Bytes Hoare Ownership

/-- A disk image: blocks below `used` are in use. -/
structure Image where
  sb : Superblock
  tbl : Nat → Meta
  used : Nat
  data : Nat → Arr

/-- The bytes of inode `i` in its block. -/
def Image.inodeBlock (im : Image) (b : Nat) : Arr := fun o =>
  putMeta (fun _ => 0) 0 (im.tbl (IPB * (b - 2) + o / 64)) (o % 64)

/-- The bitmap with the bits below `used` set. -/
def Image.bitBlock (im : Image) (b : Nat) : Arr := fun o =>
  UInt8.ofNat (2 ^ min 8 (im.used - (BPB * (b - im.sb.bitStart) + 8 * o)) - 1)

/-- The image, block by block. -/
def Image.disk (im : Image) : Disk := fun b =>
  if b = 1 then put32 (put32 (fun _ => 0) 0 im.sb.size) 8 im.sb.ninodes
  else if b < im.sb.bitStart then im.inodeBlock b
  else if b < im.sb.dataStart then im.bitBlock b
  else im.data b

/-- Inode `i` loaded into slot 0 of an otherwise empty cache. -/
def Image.boot (im : Image) (i : Nat) : Fs where
  disk _ := im.disk
  icache x := { im.tbl i with
    dev := ROOTDEV, inum := i, ref := if x = 0 then 1 else 0, busy := false, valid := true, tags := 0 }
  tty _ := none
  mem _ := 0
  acc := []

/-- What is known of a booted image. -/
def Image.ghost (im : Image) : Ghost where
  sb := im.sb
  R _ := none
  tg _ := 0
  tbl := im.tbl
  refs := {0}
  held := ∅

variable {im : Image} {b i : Nat}

/-! ## Reading the layout back -/

/-- Metadata read at an offset is metadata read at 0 of the array from there on. -/
theorem getMeta_shift (d : Arr) (o : Nat) : getMeta d o = getMeta (fun j => d (o + j)) 0 := by
  simp only [getMeta, i16, u32, u16, Nat.zero_add, Nat.add_zero, Nat.add_assoc]

theorem Image.super (hok : im.sb.Ok) (hsize : im.sb.size < 4294967296) :
    getSuperblock (im.disk 1) = im.sb := by
  have hin := hok.inum
  simp only [getSuperblock, Image.disk, if_true]
  rw [u32_put32_out (by omega), u32_put32, u32_put32, Nat.mod_eq_of_lt hsize, Nat.mod_eq_of_lt (by omega)]

theorem Image.dmeta_eq (hi : i < im.sb.ninodes) (hf : (im.tbl i).Fits) : dmeta im.disk i = im.tbl i := by
  obtain ⟨h2, hlt⟩ := IBLOCK_range hi
  unfold dmeta
  rw [show im.disk (IBLOCK i) = im.inodeBlock (IBLOCK i) by rw [Image.disk, if_neg (by omega), if_pos hlt],
    getMeta_shift]
  refine Eq.trans (getMeta_congr (d := putMeta (fun _ => 0) 0 (im.tbl i)) fun j _ hj => ?_)
    (getMeta_putMeta _ 0 hf)
  simp only [Image.inodeBlock, IBLOCK, inodeOff, IPB]
  rw [show 8 * (i / 8 + 2 - 2) + (64 * (i % 8) + j) / 64 = i by omega,
    show (64 * (i % 8) + j) % 64 = j by omega]

theorem Image.bit_eq (hb : b < im.sb.nbits) : bit im.sb im.disk b = decide (b < im.used) := by
  obtain ⟨h2, hlt⟩ := BBLOCK_range hb
  have h3 := bitStart_range im.sb
  unfold bit
  rw [show im.disk (BBLOCK b im.sb.ninodes) = im.bitBlock (BBLOCK b im.sb.ninodes) by
    rw [Image.disk, if_neg (by omega), if_neg (by omega), if_pos hlt]]
  have hblk : BPB * (BBLOCK b im.sb.ninodes - im.sb.bitStart) = BPB * (b / BPB) := by
    simp only [BBLOCK, Superblock.bitStart, BPB, IPB]
    omega
  simp only [hasBit, and_bitMask, Image.bitBlock, hblk, UInt8.toBitVec_ofNat', BitVec.getLsbD_ofNat,
    Nat.testBit_two_pow_sub_one]
  simp only [BPB]
  rw [Bool.eq_iff_iff]
  simp only [Bool.and_eq_true, decide_eq_true_eq]
  omega

theorem Image.data_eq (hb : im.sb.dataStart ≤ b) : im.disk b = im.data b := by
  have h3 := bitStart_range im.sb
  rw [Image.disk, if_neg (by omega), if_neg (by omega), if_neg (by omega)]

/-! ## The invariant -/

/-- The used data blocks of the image are each held by one pointer. -/
structure Image.Sound (im : Image) : Prop where
  ok : im.sb.Ok
  size : im.sb.size < 4294967296
  used : im.used ≤ im.sb.nbits
  fits : ∀ i, (im.tbl i).Fits
  owns : Owns (ownOf im.sb im.tbl im.disk) (· < im.sb.dataStart) (· < im.used)
  holes : NoHoles im.sb im.tbl im.disk

/-- The bitmap says which blocks are in use. -/
theorem Image.Sound.used_iff (h : im.Sound) (b : Nat) : Used im.sb im.disk b ↔ b < im.used := by
  unfold Used
  constructor
  · rintro ⟨hlt, hbit⟩
    rwa [Image.bit_eq hlt, decide_eq_true_eq] at hbit
  · intro hu
    have hlt : b < im.sb.nbits := Nat.lt_of_lt_of_le hu h.used
    exact ⟨hlt, by rw [Image.bit_eq hlt, decide_eq_true_eq]; exact hu⟩

theorem Image.Sound.blockOwnership (h : im.Sound) : BlockOwnership im.sb im.tbl im.disk := by
  intro b hge hlt
  rw [Image.bit_eq hlt, decide_eq_true_eq]
  exact h.owns.used_iff_existsUnique (Nat.not_lt_of_le hge)

/-- An image with zeroes in its free blocks is a volume. -/
theorem Image.Sound.vol (h : im.Sound) (hz : ∀ b, im.used ≤ b → b < im.sb.nbits → ∀ j < BSIZE, im.data b j = 0) :
    Vol im.sb (fun _ => none) im.tbl im.disk := by
  refine ⟨⟨Image.super h.ok h.size, h.ok, ?_, ?_, ?_, ?_⟩, h.holes, fun i _ => h.fits i⟩
  · refine (h.owns.congr h.used_iff).congr_reserved fun b => ?_
    constructor
    · rintro (hb | hb)
      · exact hb
      · cases hb
    · intro hb; exact .inl hb
  · intro b hlt hbit j hj
    rw [Image.bit_eq hlt, decide_eq_false_iff_not] at hbit
    have hge : im.sb.dataStart ≤ b := by
      by_contra hb
      exact hbit ((h.owns.used_iff b).mpr (.inl (Nat.lt_of_not_le hb)))
    rw [Image.data_eq hge]
    exact hz b (Nat.le_of_not_lt hbit) hlt j hj
  · intro b x hx; cases hx
  · intro b hb; cases hb

/-- **A booted image** is a state of the file system. -/
theorem Image.Sound.core (h : im.Sound) (hz : ∀ b, im.used ≤ b → b < im.sb.nbits → ∀ j < BSIZE, im.data b j = 0)
    (hi : 1 ≤ i ∧ i < im.sb.ninodes) (ht : (im.tbl i).type ≠ 0) : Core im.ghost (im.boot i) := by
  refine ⟨h.vol hz, ?_, ?_, ?_, ?_, ?_, ?_, ?_, ?_⟩
  · intro x
    by_cases hx : x = 0
    · subst hx; rfl
    · simp [Image.boot, Image.ghost, hx]
  · intro x _; rfl
  · intro x _; exact hi
  · intro x hx y hy _
    rw [Multiset.mem_singleton.mp hx, Multiset.mem_singleton.mp hy]
  · intro x _ _; exact ⟨rfl, ht⟩
  · intro x _; rfl
  · intro x hx; cases hx
  · intro x; rfl

/-! ## Images of small files -/

/-- An inode that is not in use. -/
def Meta.free : Meta := { type := 0, major := 0, minor := 0, nlink := 0, size := 0, addrs := fun _ => 0 }

/-- A file or directory of the `n` blocks from `b` on, all of them direct. -/
def Meta.direct (type : Int) (b n : Nat) : Meta :=
  { type, major := 0, minor := 0, nlink := 1, size := n * BSIZE, addrs := fun k => if k < n then b + k else 0 }

theorem Meta.free_fits : Meta.free.Fits := by
  constructor <;> simp [Meta.free]

theorem Meta.direct_fits {type : Int} {b n : Nat} (ht : 0 ≤ type ∧ type < 32768) (hn : n ≤ 11) (hb : b < 65536) :
    (Meta.direct type b n).Fits := by
  refine ⟨⟨?_, ht.2⟩, by simp [Meta.direct], by simp [Meta.direct], by simp [Meta.direct], ?_, fun k hk => ?_,
    fun k hk => if_neg (by omega)⟩
  · have := ht.1
    show -32768 ≤ type
    omega
  · show n * 512 < 4294967296
    omega
  · show (if k < n then b + k else 0) < 4294967296
    split <;> omega

theorem ptr_direct {d : Disk} {type : Int} {b n : Nat} (hn : n ≤ 11) (k : Nat) :
    ptr d (.direct type b n) k = if k < n then b + k else 0 := by
  have h0 : (Meta.direct type b n).addrs NDIRECT = 0 := if_neg (by simp only [NDIRECT]; omega)
  unfold ptr
  by_cases hk : k ≤ NDIRECT
  · rw [if_pos hk]; rfl
  · rw [if_neg hk, if_pos h0, if_neg (by simp only [NDIRECT] at hk; omega)]

/-- A file or directory of an image: its type, its first block and how many it has. -/
structure Extent where
  type : Int
  start : Nat
  blocks : Nat

/-- Files of the given types and lengths, one after the other from block `b` on. -/
def layout : Nat → List (Int × Nat) → List Extent
  | _, [] => []
  | b, f :: fs => ⟨f.1, b, f.2⟩ :: layout (b + f.2) fs

/-- Number of blocks of all files. -/
def total (fs : List (Int × Nat)) : Nat := (fs.map Prod.snd).sum

/-- The image with files `fs` for inodes 1, 2, … -/
def Image.ofFiles (sb : Superblock) (fs : List (Int × Nat)) (data : Nat → Arr) : Image where
  sb := sb
  tbl i := match i with
    | 0 => .free
    | i + 1 => match (layout sb.dataStart fs)[i]? with
      | some e => .direct e.type e.start e.blocks
      | none => .free
  used := sb.dataStart + total fs
  data := data

variable {sb : Superblock} {fs : List (Int × Nat)} {data : Nat → Arr} {e e' : Extent} {j k l : Nat}

theorem layout_mem : ∀ {b i : Nat}, (layout b fs)[i]? = some e → (e.type, e.blocks) ∈ fs := by
  induction fs with
  | nil => intro b i h; cases h
  | cons f fs ih =>
    intro b i h
    cases i with
    | zero => cases h; exact List.mem_cons_self
    | succ i => exact List.mem_cons_of_mem _ (ih h)

/-- Every file lies between the first block and the end of the last file. -/
theorem layout_range : ∀ {b i : Nat}, (layout b fs)[i]? = some e → b ≤ e.start ∧ e.start + e.blocks ≤ b + total fs := by
  induction fs with
  | nil => intro b i h; cases h
  | cons f fs ih =>
    intro b i h
    rw [total, List.map_cons, List.sum_cons, ← total]
    cases i with
    | zero => cases h; exact ⟨Nat.le_refl b, by simp only; omega⟩
    | succ i => have := ih h; omega

/-- No block belongs to two files. -/
theorem layout_inj : ∀ {b i j : Nat}, (layout b fs)[i]? = some e → (layout b fs)[j]? = some e' → k < e.blocks →
    l < e'.blocks → e.start + k = e'.start + l → i = j ∧ k = l := by
  induction fs with
  | nil => intro b i j h; cases h
  | cons f fs ih =>
    intro b i j hi hj hk hl heq
    cases i with
    | zero =>
      cases hi
      cases j with
      | zero => cases hj; exact ⟨rfl, by simp only at heq; omega⟩
      | succ j =>
        have hr := layout_range (show (layout (b + f.2) fs)[j]? = some e' from hj)
        simp only at hk heq
        omega
    | succ i =>
      cases j with
      | zero =>
        cases hj
        have hr := layout_range (show (layout (b + f.2) fs)[i]? = some e from hi)
        simp only at hl heq
        omega
      | succ j =>
        obtain ⟨h1, h2⟩ := ih hi hj hk hl heq
        exact ⟨congrArg _ h1, h2⟩

/-- Every block of the range belongs to some file. -/
theorem layout_cover : ∀ {b c : Nat}, b ≤ c → c < b + total fs →
    ∃ (i : Nat) (e : Extent) (k : Nat), (layout b fs)[i]? = some e ∧ k < e.blocks ∧ e.start + k = c := by
  induction fs with
  | nil => intro b c h1 h2; simp only [total, List.map_nil, List.sum_nil] at h2; omega
  | cons f fs ih =>
    intro b c h1 h2
    rw [total, List.map_cons, List.sum_cons, ← total] at h2
    by_cases hc : c < b + f.2
    · exact ⟨0, _, c - b, rfl, by simp only; omega, by simp only; omega⟩
    · obtain ⟨i, e, k, hi, hk, heq⟩ := ih (b := b + f.2) (c := c) (by omega) (by omega)
      exact ⟨i + 1, e, k, hi, hk, heq⟩

/-- Types and lengths an image of small files can have. -/
def SmallFile (f : Int × Nat) : Prop := (0 < f.1 ∧ f.1 < 32768) ∧ f.2 ≤ 11

instance (f : Int × Nat) : Decidable (SmallFile f) := by unfold SmallFile; infer_instance

/-- The pointers of an image of small files. -/
theorem Image.ofFiles_own (hfs : ∀ f ∈ fs, SmallFile f) {d : Disk} :
    ownOf sb (Image.ofFiles sb fs data).tbl d (i, k) = some b ↔
      i < sb.ninodes ∧ ∃ (j : Nat) (e : Extent), i = j + 1 ∧ (layout sb.dataStart fs)[j]? = some e ∧ k < e.blocks ∧ e.start + k = b := by
  have hpos := bitStart_range sb
  rw [ownOf_eq_some]
  constructor
  · rintro ⟨hi, ht, -, hp, hb⟩
    cases i with
    | zero => exact absurd rfl ht
    | succ j =>
      cases he : (layout sb.dataStart fs)[j]? with
      | none => simp only [Image.ofFiles, he] at ht; exact absurd rfl ht
      | some e =>
        have htbl : (Image.ofFiles sb fs data).tbl (j + 1) = .direct e.type e.start e.blocks := by
          simp only [Image.ofFiles, he]
        rw [htbl, ptr_direct (hfs _ (layout_mem he)).2] at hp
        by_cases hk : k < e.blocks
        · rw [if_pos hk] at hp
          exact ⟨hi, j, e, rfl, he, hk, hp⟩
        · rw [if_neg hk] at hp
          exact absurd hp.symm hb
  · rintro ⟨hi, j, e, rfl, he, hk, rfl⟩
    have hE : SmallFile (e.type, e.blocks) := hfs _ (layout_mem he)
    have htbl : (Image.ofFiles sb fs data).tbl (j + 1) = .direct e.type e.start e.blocks := by
      simp only [Image.ofFiles, he]
    have h1 := hE.1.1
    have h2 := hE.2
    have h3 := layout_range he
    simp only at h1 h2
    rw [htbl, ptr_direct h2, if_pos hk]
    exact ⟨hi, show e.type ≠ 0 by omega, by simp only [NPTR]; omega, rfl, by omega⟩

/-- **An image of small files is sound.** -/
theorem Image.ofFiles_sound (hsb : sb.Ok) (hsize : sb.size < 4294967296) (hfs : ∀ f ∈ fs, SmallFile f)
    (hnum : fs.length < sb.ninodes) (hused : sb.dataStart + total fs ≤ sb.nbits)
    (h16 : sb.dataStart + total fs < 65536) : (Image.ofFiles sb fs data).Sound := by
  have hlen : ∀ {b i : Nat} {e : Extent} {fs : List (Int × Nat)}, (layout b fs)[i]? = some e → i < fs.length := by
    intro b i e fs
    induction fs generalizing b i with
    | nil => intro h; cases h
    | cons f fs ih =>
      intro h
      cases i with
      | zero => exact Nat.zero_lt_succ _
      | succ i => exact Nat.succ_lt_succ (ih h)
  refine ⟨hsb, hsize, hused, fun i => ?_, ⟨?_, ?_, ?_⟩, ?_⟩
  · simp only [Image.ofFiles]
    split
    · exact Meta.free_fits
    · split
      · rename_i e he
        have hE : SmallFile (e.type, e.blocks) := hfs _ (layout_mem he)
        have hr := layout_range he
        exact Meta.direct_fits ⟨Int.le_of_lt hE.1.1, hE.1.2⟩ hE.2 (by omega)
      · exact Meta.free_fits
  · rintro ⟨i, k⟩ ⟨i', k'⟩ b hp hq
    obtain ⟨-, j, e, rfl, he, hk, hb⟩ := (Image.ofFiles_own hfs).mp hp
    obtain ⟨-, j', e', rfl, he', hk', hb'⟩ := (Image.ofFiles_own hfs).mp hq
    obtain ⟨rfl, rfl⟩ := layout_inj he he' hk hk' (hb.trans hb'.symm)
    rfl
  · rintro ⟨i, k⟩ b hp
    obtain ⟨-, j, e, rfl, he, hk, rfl⟩ := (Image.ofFiles_own hfs).mp hp
    have hr := layout_range he
    exact Nat.not_lt_of_le (Nat.le_trans hr.1 (Nat.le_add_right _ _))
  · intro b
    constructor
    · intro hb
      by_cases hge : sb.dataStart ≤ b
      · obtain ⟨j, e, k, he, hk, heq⟩ := layout_cover hge hb
        have hj : j + 1 < sb.ninodes := Nat.lt_of_le_of_lt (hlen he) hnum
        exact .inr ⟨(j + 1, k), (Image.ofFiles_own hfs).mpr ⟨hj, j, e, rfl, he, hk, heq⟩⟩
      · exact .inl (Nat.lt_of_not_le hge)
    · rintro (hb | ⟨⟨i, k⟩, hp⟩)
      · exact Nat.lt_of_lt_of_le hb (Nat.le_add_right _ _)
      · obtain ⟨-, j, e, rfl, he, hk, rfl⟩ := (Image.ofFiles_own hfs).mp hp
        exact Nat.lt_of_lt_of_le (Nat.add_lt_add_left hk _) (layout_range he).2
  · intro i hi ht n hn hnone
    cases i with
    | zero => exact ht rfl
    | succ j =>
      cases he : (layout sb.dataStart fs)[j]? with
      | none => simp only [Image.ofFiles, he] at ht; exact ht rfl
      | some e =>
        have hE : SmallFile (e.type, e.blocks) := hfs _ (layout_mem he)
        have h1 := hE.2
        simp only [Image.ofFiles, he, Meta.direct, BSIZE] at hn
        have hix : blockIx n = n := if_pos (by simp only [NDIRECT] at *; omega)
        have hsome : ownOf sb (Image.ofFiles sb fs data).tbl (Image.ofFiles sb fs data).disk (j + 1, blockIx n) =
            some (e.start + blockIx n) :=
          (Image.ofFiles_own hfs).mpr ⟨hi, j, e, rfl, he, by omega, rfl⟩
        exact absurd (hsome.symm.trans hnone) (Option.some_ne_none _)

/-- **What `mkfs` makes** of a directory that has one empty file `f`. -/
def mkfsImage : Image :=
  .ofFiles { size := 1024, ninodes := 200 } [(T_DIR, 1), (T_FILE, 0)] fun b => if b = 29 then
      blit (blit (blit (fun _ => 0) 0 16 (direntBytes 1 dot)) 16 16 (direntBytes 1 dotdot)) 32 16 (direntBytes 2 [102])
    else fun _ => 0

theorem mkfsImage_sound : mkfsImage.Sound :=
  Image.ofFiles_sound ⟨by decide, by decide, by decide⟩ (by decide) (by decide) (by decide) (by decide) (by decide)

theorem mkfsImage_zero : ∀ b, mkfsImage.used ≤ b → b < mkfsImage.sb.nbits → ∀ j < BSIZE, mkfsImage.data b j = 0 := by
  intro b hb _ j _
  have hne : b ≠ 29 := by
    rintro rfl
    exact absurd hb (by decide)
  simp only [mkfsImage, Image.ofFiles, if_neg hne]

end Xv6
