import Xv6.Tools.Mkfs
import Xv6.Fs.Pointers
import Xv6.Fs.Rw

/-!
# `Tools.MkfsSpec` — what one routine of `mkfs` does to the image

`mkfs` hands out blocks in order, so the blocks in use are those below `freeblock`, and a block that is handed out
is still zero. The pointers of the image are read with the kernel's own functions (`ownOf`, `contents`), which is
what makes the two programs comparable. While `iappend` runs, the inode it works on is in a local variable; the
table `tbl` has that copy, and `Stored` says when the image has it too.

All of this is about inodes in the inode blocks: an inode number past them would be written over the bitmap and
then over file data.

## Contents
- **Invariant.** `Base`, with `Base.take`, `Base.setEntry`, `Base.write`, `Base.putInode`.
- **Growth.** `Grew`: an inode gets blocks and no file reads differently.
- **Code.** `blockFor_spec`, `iappendLoop_spec`, `mkfs_spec`.
-/

namespace Xv6.Mkfs

open Bytes Hoare Ownership

/-- The superblock of the image. -/
def imageSb : Superblock := { size := size, ninodes := ninodes }

/-- The inode blocks reach up to the bitmap, and so have a few more inodes than the superblock says. -/
def tableSb : Superblock := { size := size, ninodes := 207 }

theorem tableSb_bitStart : tableSb.bitStart = 28 := rfl

theorem i2b_eq (i : Nat) : i2b i = IBLOCK i := rfl

theorem i2b_range {i : Nat} (hi : i < 207) : 2 ≤ i2b i ∧ i2b i < 28 := by
  simp only [i2b, IPB]; omega

/-- The block each pointer holds. -/
def Mk.own (s : Mk) (tbl : Nat → Meta) : Nat × Nat → Option Nat := ownOf tableSb tbl s.disk

/-- The bytes of file `i`. -/
def Mk.file (s : Mk) (tbl : Nat → Meta) (i : Nat) : Arr := contents (s.own tbl) s.disk i

/-- **The invariant of the image.** The blocks below `freeblock` are in use, each by one pointer; the others are
    zero. -/
structure Base (tbl : Nat → Meta) (s : Mk) : Prop where
  super : getSuperblock (s.disk 1) = imageSb
  sectors : s.sectors = 1024
  used : s.usedblocks = s.freeblock
  next : s.freeinode ≤ 207
  live : ∀ i < 207, (tbl i).type ≠ 0 ↔ 1 ≤ i ∧ i < s.freeinode
  fits : ∀ i < 207, (tbl i).Fits
  owns : Owns (s.own tbl) (· < 29) (· < s.freeblock)
  zero : ∀ b, s.freeblock ≤ b → ∀ j < BSIZE, s.disk b j = 0
  written : ∀ b ∈ s.written, 2 ≤ b ∧ b < 28

/-- The image has the table. -/
def Stored (tbl : Nat → Meta) (s : Mk) : Prop := ∀ i < 207, dmeta s.disk i = tbl i

variable {tbl tbl' tbl'' : Nat → Meta} {s s' s'' : Mk} {i j k n b : Nat} {E : MkStop → Mk → Prop}

/-! ## Rules for the primitives -/

@[simp] theorem wp_require {c : Prop} [Decidable c] {Q : Unit → Mk → Prop} :
    wp (require c) Q E s ↔ (c → Q () s) ∧ (¬ c → E .abort s) := by
  unfold require
  rw [wp_ite, wp_pure, wp_throw]

@[simp] theorem wp_rsect {Q : Arr → Mk → Prop} {sec : Nat} :
    wp (rsect sec) Q E s ↔ (sec < s.sectors → Q (s.disk sec) s) ∧ (¬ sec < s.sectors → E (.exit 1) s) := by
  unfold rsect
  rw [wp_bind, wp_get, wp_ite, wp_pure, wp_throw]

/-- `freeblock++`. -/
def Mk.took (s : Mk) : Mk := { s with freeblock := s.freeblock + 1, usedblocks := s.usedblocks + 1 }

/-- Set sector `b` of the image. -/
def Mk.setSector (s : Mk) (b : Nat) (y : Arr) : Mk := { s with disk := Function.update s.disk b y }

@[simp] theorem wp_takeBlock {Q : Nat → Mk → Prop} : wp takeBlock Q E s ↔ Q s.freeblock s.took := Iff.rfl

/-- Writing a sector that exists does not change the length of the image. -/
theorem wp_wsect {Q : Unit → Mk → Prop} {buf : Arr} (hb : b < s.sectors) :
    wp (wsect b buf) Q E s ↔ Q () (s.setSector b buf) := by
  show Q () { s with disk := Function.update s.disk b buf, sectors := max s.sectors (b + 1) } ↔ _
  rw [Nat.max_eq_left hb]
  rfl

/-! ## One change of the image at a time -/

/-- A block that is not in use. -/
theorem Base.own_lt (h : Base tbl s) {x : Nat × Nat} (hx : s.own tbl x = some b) : 29 ≤ b ∧ b < s.freeblock := by
  have hs := h.owns.sep hx
  exact ⟨by omega, h.owns.used_of_own hx⟩

theorem Base.freeblock_le (h : Base tbl s) : 29 ≤ s.freeblock := by
  by_contra hlt
  exact absurd ((h.owns.used_iff 28).mpr (.inl (by decide))) (by omega)

theorem Base.alive (h : Base tbl s) (hi : 1 ≤ i ∧ i < s.freeinode) : i < 207 ∧ (tbl i).type ≠ 0 := by
  have hlt : i < 207 := Nat.lt_of_lt_of_le hi.2 h.next
  exact ⟨hlt, (h.live i hlt).mpr hi⟩

theorem Base.u32_free (h : Base tbl s) (hb : s.freeblock ≤ b) {o : Nat} (ho : o + 4 ≤ BSIZE) : u32 (s.disk b) o = 0 := by
  have hz := h.zero b hb
  simp only [u32, u16, hz o (by omega), hz (o + 1) (by omega), hz (o + 2) (by omega), hz (o + 2 + 1) (by omega)]
  rfl

/-- The next free block becomes pointer `k` of inode `i`. -/
theorem Base.owns_took (h : Base tbl s) (hk : s.own tbl (i, k) = none) :
    Owns (Function.update (s.own tbl) (i, k) (some s.freeblock)) (· < 29) (· < s.freeblock + 1) :=
  (h.owns.take hk (Nat.lt_irrefl _)).congr fun c => by omega

/-- **A new block for an address** of the inode in memory. -/
theorem Base.take (h : Base tbl s) (hi : 1 ≤ i ∧ i < s.freeinode) (hk : k ≤ NDIRECT) (h0 : (tbl i).addrs k = 0)
    (hle : s.freeblock ≤ 1024) :
    s.took.own (Function.update tbl i ((tbl i).setAddr k s.freeblock)) =
        Function.update (s.own tbl) (i, k) (some s.freeblock) ∧
      Base (Function.update tbl i ((tbl i).setAddr k s.freeblock)) s.took := by
  obtain ⟨hlt, ht⟩ := h.alive hi
  have hge := h.freeblock_le
  have hkp : k < NPTR := by simp only [NDIRECT, NPTR] at *; omega
  have hnone : s.own tbl (i, k) = none := by
    rw [Mk.own, ownOf_eq_none (show i < tableSb.ninodes from hlt) ht hkp, ptr, if_pos hk, h0]
  have hown : s.took.own (Function.update tbl i ((tbl i).setAddr k s.freeblock)) =
      Function.update (s.own tbl) (i, k) (some s.freeblock) :=
    ownOf_setAddr (show i < tableSb.ninodes from hlt) ht hk h0 (by omega)
      (fun _ _ ho => h.u32_free (Nat.le_refl _) ho) fun _ _ _ => rfl
  refine ⟨hown, h.super, h.sectors, ?_, h.next, ?_, ?_, ?_, ?_, h.written⟩
  · show s.usedblocks + 1 = s.freeblock + 1
    rw [h.used]
  · intro j hj
    by_cases hji : j = i
    · subst hji; rw [Function.update_self]; exact h.live j hj
    · rw [Function.update_of_ne hji]; exact h.live j hj
  · intro j hj
    by_cases hji : j = i
    · subst hji
      rw [Function.update_self]
      have hf := h.fits j hj
      refine ⟨hf.type, hf.major, hf.minor, hf.nlink, hf.size, fun l hl => ?_, fun l hl => ?_⟩
      · rw [Meta.setAddr_addrs]
        by_cases hlk : l = k
        · subst hlk; rw [Function.update_self]; omega
        · rw [Function.update_of_ne hlk]; exact hf.addr l hl
      · rw [Meta.setAddr_addrs, Function.update_of_ne (by simp only [NDIRECT] at hk; omega)]; exact hf.past l hl
    · rw [Function.update_of_ne hji]; exact h.fits j hj
  · rw [hown]
    exact h.owns_took hnone
  · intro c hc j hj
    exact h.zero c (Nat.le_of_succ_le hc) j hj

/-- A write to a data block in use keeps what does not depend on it. -/
theorem Base.of_write {y : Arr} (h : Base tbl s) (hb : 29 ≤ b ∧ b < s'.freeblock) (hd : s'.disk = Function.update s.disk b y)
    (hown : Owns (s'.own tbl) (· < 29) (· < s'.freeblock)) (hsec : s'.sectors = s.sectors)
    (hused : s'.usedblocks = s'.freeblock) (hfb : s.freeblock ≤ s'.freeblock) (hfi : s'.freeinode = s.freeinode)
    (hw : s'.written = s.written) : Base tbl s' := by
  refine ⟨?_, hsec.trans h.sectors, hused, hfi ▸ h.next, fun i hi => hfi ▸ h.live i hi, h.fits, hown, ?_, hw ▸ h.written⟩
  · rw [hd, Function.update_of_ne (by omega)]; exact h.super
  · intro c hc j hj
    rw [hd, Function.update_of_ne (by omega)]
    exact h.zero c (by omega) j hj

/-- **A new block for an entry** of the indirect block. -/
theorem Base.setEntry (h : Base tbl s) (hi : 1 ≤ i ∧ i < s.freeinode) (h0 : (tbl i).addrs NDIRECT ≠ 0)
    (hn : n < NINDIRECT) (he : u32 (s.disk ((tbl i).addrs NDIRECT)) (4 * n) = 0) (hle : s.freeblock ≤ 1024) :
    let ind := (tbl i).addrs NDIRECT
    let s' := s.took.setSector ind (put32 (s.disk ind) (4 * n) s.freeblock)
    s'.own tbl = Function.update (s.own tbl) (i, 12 + n) (some s.freeblock) ∧ Base tbl s' := by
  intro ind s'
  obtain ⟨hlt, ht⟩ := h.alive hi
  have hge := h.freeblock_le
  have hind : s.own tbl (i, NDIRECT) = some ind := ownOf_indirect (show i < tableSb.ninodes from hlt) ht h0
  have hrange := h.own_lt hind
  have hnone : s.own tbl (i, 12 + n) = none := by
    rw [Mk.own, ownOf_eq_none (show i < tableSb.ninodes from hlt) ht (by simp only [NINDIRECT, NPTR] at *; omega), ptr,
      if_neg (by simp only [NDIRECT]; omega), if_neg h0, Nat.add_sub_cancel_left, he]
  have hown : s'.own tbl = Function.update (s.own tbl) (i, 12 + n) (some s.freeblock) := by
    refine ownOf_setEntry (show i < tableSb.ninodes from hlt) ht h0 hn (by omega) (by omega)
      (Function.update_self ..) fun j c hji hc => Function.update_of_ne ?_ ..
    -- another inode has another indirect block
    rintro rfl
    have := h.owns.inj (show s.own tbl (j, NDIRECT) = some ind from hc) hind
    exact hji (Prod.mk.inj this).1
  refine ⟨hown, h.of_write (y := put32 (s.disk ind) (4 * n) s.freeblock) (b := ind) ⟨hrange.1, ?_⟩ rfl ?_ rfl ?_ ?_ rfl rfl⟩
  · exact Nat.lt_succ_of_lt hrange.2
  · rw [hown]; exact h.owns_took hnone
  · show s.usedblocks + 1 = s.freeblock + 1
    rw [h.used]
  · exact Nat.le_succ _

/-- A data block of a file is no indirect block. -/
theorem Base.ne_indirect (h : Base tbl s) (hb : s.own tbl (i, blockIx n) = some b) {c : Nat}
    (hc : s.own tbl (j, NDIRECT) = some c) : c ≠ b := by
  rintro rfl
  exact blockIx_ne n (Prod.mk.inj (h.owns.inj hb hc)).2

/-- **Writing a block of a file.** -/
theorem Base.write (h : Base tbl s) (hb : s.own tbl (i, blockIx n) = some b) (y : Arr) :
    (s.setSector b y).own tbl = s.own tbl ∧ Base tbl (s.setSector b y) := by
  have hown : (s.setSector b y).own tbl = s.own tbl :=
    ownOf_congr_disk fun _ _ hc => Function.update_of_ne (h.ne_indirect hb hc) ..
  refine ⟨hown, h.of_write (h.own_lt hb) rfl ?_ rfl h.used (Nat.le_refl _) rfl rfl⟩
  rw [hown]
  exact h.owns

/-! ## Growth -/

/-- **Inode `i` got blocks** for its block numbers in `P`, and no file reads differently. -/
structure Grew (i : Nat) (P : Nat → Prop) (tbl : Nat → Meta) (s : Mk) (tbl' : Nat → Meta) (s' : Mk) : Prop where
  base : Base tbl' s'
  table : ∃ a, tbl' = Function.update tbl i { tbl i with addrs := a }
  own : ∀ j n, ¬ (j = i ∧ P n) → s'.own tbl' (j, blockIx n) = s.own tbl (j, blockIx n)
  file : ∀ j, s'.file tbl' j = s.file tbl j
  stored : ∀ j < 207, dmeta s'.disk j = dmeta s.disk j
  freeinode : s'.freeinode = s.freeinode
  written : s'.written = s.written

variable {P P' : Nat → Prop}

theorem Grew.refl (h : Base tbl s) (i : Nat) (P : Nat → Prop) : Grew i P tbl s tbl s where
  base := h
  table := ⟨(tbl i).addrs, (Function.update_eq_self i tbl).symm⟩
  own _ _ _ := rfl
  file _ := rfl
  stored _ _ := rfl
  freeinode := rfl
  written := rfl

theorem Grew.mono (h : Grew i P tbl s tbl' s') (hP : ∀ n, P n → P' n) : Grew i P' tbl s tbl' s' :=
  ⟨h.base, h.table, fun j n hn => h.own j n fun hc => hn ⟨hc.1, hP n hc.2⟩, h.file, h.stored, h.freeinode, h.written⟩

theorem Grew.trans (h : Grew i P tbl s tbl' s') (h' : Grew i P tbl' s' tbl'' s'') : Grew i P tbl s tbl'' s'' where
  base := h'.base
  table := by
    obtain ⟨a, rfl⟩ := h.table
    obtain ⟨a', rfl⟩ := h'.table
    exact ⟨a', by simp only [Function.update_self, Function.update_idem]⟩
  own j n hn := (h'.own j n hn).trans (h.own j n hn)
  file j := (h'.file j).trans (h.file j)
  stored j hj := (h'.stored j hj).trans (h.stored j hj)
  freeinode := h'.freeinode.trans h.freeinode
  written := h'.written.trans h.written

/-- A block number has one pointer. -/
theorem own_update_of_ne {o : Nat × Nat → Option Nat} {v : Option Nat} (hn : ¬ (j = i ∧ blockIx n = k)) :
    Function.update o (i, k) v (j, blockIx n) = o (j, blockIx n) :=
  Function.update_of_ne (fun hc => hn ⟨(Prod.mk.inj hc).1, (Prod.mk.inj hc).2⟩) ..

/-- **A new address.** -/
theorem Grew.take (h : Base tbl s) (hi : 1 ≤ i ∧ i < s.freeinode) (hk : k ≤ NDIRECT) (h0 : (tbl i).addrs k = 0)
    (hle : s.freeblock ≤ 1024) :
    Grew i (blockIx · = k) tbl s (Function.update tbl i ((tbl i).setAddr k s.freeblock)) s.took := by
  obtain ⟨hlt, ht⟩ := h.alive hi
  obtain ⟨hown, hbase⟩ := h.take hi hk h0 hle
  have hkp : k < NPTR := by simp only [NDIRECT, NPTR] at *; omega
  have hnone : s.own tbl (i, k) = none := by
    rw [Mk.own, ownOf_eq_none (show i < tableSb.ninodes from hlt) ht hkp, ptr, if_pos hk, h0]
  refine ⟨hbase, ⟨_, rfl⟩, fun j n hn => ?_, fun j => ?_, fun _ _ => rfl, rfl, rfl⟩
  · rw [hown]
    exact own_update_of_ne hn
  · rw [Mk.file, hown]
    exact contents_take hnone (fun _ o ho => h.zero _ (Nat.le_refl _) o ho) fun _ _ _ _ _ => rfl

/-- A write at or above the first data block changes no inode. -/
theorem dmeta_setSector (y : Arr) (hb : 29 ≤ b) (hj : j < 207) : dmeta (s.setSector b y).disk j = dmeta s.disk j :=
  @dmeta_update tableSb s.disk b j y (by rw [tableSb_bitStart]; omega) hj

/-- **A new entry** of the indirect block. -/
theorem Grew.setEntry (h : Base tbl s) (hi : 1 ≤ i ∧ i < s.freeinode) (h0 : (tbl i).addrs NDIRECT ≠ 0)
    (hn : n < NINDIRECT) (he : u32 (s.disk ((tbl i).addrs NDIRECT)) (4 * n) = 0) (hle : s.freeblock ≤ 1024) :
    Grew i (blockIx · = 12 + n) tbl s tbl
      (s.took.setSector ((tbl i).addrs NDIRECT) (put32 (s.disk ((tbl i).addrs NDIRECT)) (4 * n) s.freeblock)) := by
  obtain ⟨hlt, ht⟩ := h.alive hi
  obtain ⟨hown, hbase⟩ := h.setEntry hi h0 hn he hle
  have hind : s.own tbl (i, NDIRECT) = some ((tbl i).addrs NDIRECT) :=
    ownOf_indirect (show i < tableSb.ninodes from hlt) ht h0
  obtain ⟨hge, hfb⟩ := h.own_lt hind
  have hnone : s.own tbl (i, 12 + n) = none := by
    rw [Mk.own, ownOf_eq_none (show i < tableSb.ninodes from hlt) ht (by simp only [NINDIRECT, NPTR] at *; omega), ptr,
      if_neg (by simp only [NDIRECT]; omega), if_neg h0, Nat.add_sub_cancel_left, he]
  refine ⟨hbase, ⟨(tbl i).addrs, (Function.update_eq_self i tbl).symm⟩, fun j m hm => ?_, fun j => ?_, fun j hj => ?_,
    rfl, rfl⟩
  · rw [hown]
    exact own_update_of_ne hm
  · rw [Mk.file, hown]
    refine contents_take hnone (fun _ o ho => ?_) fun j l c hl hc => Function.update_of_ne ?_ ..
    · show Function.update s.disk _ _ s.freeblock o = 0
      rw [Function.update_of_ne (by omega)]
      exact h.zero _ (Nat.le_refl _) o ho
    · rintro rfl
      exact hl (Prod.mk.inj (h.owns.inj hc hind)).2
  · exact dmeta_setSector (s := s.took) _ hge hj

/-! ## `iappend` -/

variable {din : Dinode}

theorem addrFor_spec (h : Base tbl s) (hi : 1 ≤ i ∧ i < s.freeinode) (hd : din.toMeta = tbl i) (hk : k ≤ NDIRECT)
    (hle : s.freeblock ≤ 1024) :
    wp (addrFor din k)
      (fun r s' => ∃ tbl', Grew i (blockIx · = k) tbl s tbl' s' ∧ r.1.toMeta = tbl' i ∧ (tbl' i).addrs k = r.2 ∧
        r.2 ≠ 0 ∧ (s.freeblock ≤ s'.freeblock ∧ s'.freeblock ≤ s.freeblock + 1) ∧ (r.2 < 1024 → s'.freeblock ≤ 1024))
      (fun _ _ => False) s := by
  have hge := h.freeblock_le
  have haddr : din.addrs k = (tbl i).addrs k := by rw [← hd]
  unfold addrFor
  rw [haddr]
  by_cases h0 : (tbl i).addrs k = 0
  · rw [if_pos h0]
    simp only [wp_bind, wp_takeBlock, wp_pure]
    refine ⟨_, Grew.take h hi hk h0 hle, ?_, ?_, by omega, ⟨Nat.le_succ _, Nat.le_refl _⟩, fun hb => hb⟩
    · rw [Function.update_self, ← hd]; rfl
    · rw [Function.update_self, Meta.setAddr_addrs, Function.update_self]
  · rw [if_neg h0, wp_pure]
    exact ⟨tbl, Grew.refl h i _, hd, rfl, h0, ⟨Nat.le_refl _, Nat.le_succ _⟩, fun _ => hle⟩

/-- **The block for block number `fbn`** of the file in memory. -/
theorem blockFor_spec {fbn : Nat} (h : Base tbl s) (hi : 1 ≤ i ∧ i < s.freeinode) (hd : din.toMeta = tbl i)
    (hn : fbn < MAXFILE) (hle : s.freeblock ≤ 1024) :
    wp (blockFor din fbn)
      (fun r s' => ∃ tbl', Grew i (· = fbn) tbl s tbl' s' ∧ r.1.toMeta = tbl' i ∧
        s'.own tbl' (i, blockIx fbn) = some r.2 ∧ (s.freeblock ≤ s'.freeblock ∧ s'.freeblock ≤ s.freeblock + 2) ∧
        (r.2 < 1024 → s'.freeblock ≤ 1024))
      (fun _ s' => 1024 < s.freeblock + 2 ∧ 1024 < s'.freeblock) s := by
  unfold blockFor
  by_cases hdir : fbn < NDIRECT
  · rw [if_pos hdir]
    refine wp_mono (addrFor_spec h hi hd (Nat.le_of_lt hdir) hle) ?_ fun _ _ hf => hf.elim
    rintro ⟨din', x⟩ s' ⟨tbl', hg, hd', haddr, hne, hfb, hlt⟩
    dsimp only at hd' haddr hne hlt ⊢
    have hi' : 1 ≤ i ∧ i < s'.freeinode := by rw [hg.freeinode]; exact hi
    obtain ⟨hilt, ht⟩ := hg.base.alive hi'
    have hix : blockIx fbn = fbn := if_pos hdir
    refine ⟨tbl', hg.mono fun n hn => blockIx_inj (hn.trans hix.symm), hd', ?_, ⟨hfb.1, by omega⟩, hlt⟩
    rw [hix]
    refine ownOf_eq_some.mpr ⟨hilt, ht, by simp only [NDIRECT, NPTR] at *; omega, ?_, hne⟩
    rw [ptr, if_pos (Nat.le_of_lt hdir)]
    exact haddr
  · have hix : blockIx fbn = 12 + (fbn - NDIRECT) := by
      rw [blockIx, if_neg hdir]; simp only [NDIRECT] at *; omega
    have hnone : ∀ n, ¬ blockIx n = NDIRECT := blockIx_ne
    rw [if_neg hdir, wp_bind]
    refine wp_mono (addrFor_spec h hi hd (Nat.le_refl _) hle) ?_ fun _ _ hf => hf.elim
    rintro ⟨din', ind⟩ s' ⟨tbl', hg, hd', haddr, hne, hfb, hlt⟩
    dsimp only at hd' haddr hne hlt ⊢
    have hi' : 1 ≤ i ∧ i < s'.freeinode := by rw [hg.freeinode]; exact hi
    obtain ⟨hilt, ht⟩ := hg.base.alive hi'
    have h0 : (tbl' i).addrs NDIRECT ≠ 0 := by rw [haddr]; exact hne
    have hown : s'.own tbl' (i, NDIRECT) = some ind := by
      rw [← haddr]; exact ownOf_indirect (show i < tableSb.ninodes from hilt) ht h0
    have hr := hg.base.own_lt hown
    have hg' : Grew i (· = fbn) tbl s tbl' s' := hg.mono fun n hn => absurd hn (hnone n)
    simp only [wp_bind, wp_rsect, hg.base.sectors]
    refine ⟨fun hsec => ?_, fun hsec => ⟨by omega, by omega⟩⟩
    have hle' := hlt hsec
    by_cases he : u32 (s'.disk ind) (4 * (fbn - NDIRECT)) = 0
    · rw [if_pos he]
      have hent : u32 (s'.disk ((tbl' i).addrs NDIRECT)) (4 * (fbn - NDIRECT)) = 0 := by rw [haddr]; exact he
      have hnn : fbn - NDIRECT < NINDIRECT := by simp only [NDIRECT, NINDIRECT, MAXFILE] at *; omega
      have hge := Grew.setEntry hg.base hi' h0 hnn hent hle'
      have hbase := hg.base.setEntry hi' h0 hnn hent hle'
      rw [haddr] at hge hbase
      rw [wp_bind, wp_takeBlock, wp_bind, wp_wsect (show ind < s'.took.sectors from hg.base.sectors ▸ hsec), wp_pure]
      refine ⟨tbl', hg'.trans (hge.mono fun n hn => blockIx_inj (hn.trans hix.symm)), hd', ?_, ?_, fun hx => hx⟩
      · rw [hbase.1, hix, Function.update_self]
      · show s.freeblock ≤ s'.freeblock + 1 ∧ s'.freeblock + 1 ≤ s.freeblock + 2
        omega
    · rw [if_neg he, wp_pure]
      refine ⟨tbl', hg', hd', ?_, ⟨hfb.1, by omega⟩, fun _ => hle'⟩
      refine ownOf_eq_some.mpr ⟨hilt, ht, blockIx_lt.mpr hn, ?_, he⟩
      rw [hix, ptr, if_neg (by simp only [NDIRECT]; omega), if_neg h0, haddr, Nat.add_sub_cancel_left]

/-- Some byte from `off` on, of `m` bytes, is in block number `n`. -/
def InSpan (off m n : Nat) : Prop := ∃ k < m, (off + k) / BSIZE = n

/-- How many blocks `m` bytes from `off` on are in. -/
def span (off m : Nat) : Nat := if m = 0 then 0 else (off + m - 1) / BSIZE - off / BSIZE + 1

/-- **What `iappend` does**, but for the size: `p` is in the file from `off` on. -/
structure Appended (i off : Nat) (p : List UInt8) (tbl : Nat → Meta) (s : Mk) (tbl' : Nat → Meta) (s' : Mk) : Prop where
  base : Base tbl' s'
  table : ∃ a, tbl' = Function.update tbl i { tbl i with addrs := a }
  own : ∀ j n, ¬ (j = i ∧ InSpan off p.length n) → s'.own tbl' (j, blockIx n) = s.own tbl (j, blockIx n)
  mapped : ∀ n, InSpan off p.length n → s'.own tbl' (i, blockIx n) ≠ none
  other : ∀ j, j ≠ i → s'.file tbl' j = s.file tbl j
  file : s'.file tbl' i = blit (s.file tbl i) off p.length (localBytes p)
  stored : ∀ j < 207, dmeta s'.disk j = dmeta s.disk j
  freeinode : s'.freeinode = s.freeinode
  written : s'.written = s.written
  room : s'.freeblock ≤ 1024
  blocks : s'.freeblock ≤ s.freeblock + 2 * span off p.length

variable {off : Nat} {p : List UInt8}

/-- One block of the loop: a block for `off`, and the bytes that fit into it. -/
theorem Appended.chunk (hg : Grew i (· = off / BSIZE) tbl s tbl' s') {x m : Nat}
    (hx : s'.own tbl' (i, blockIx (off / BSIZE)) = some x) (hm : 1 ≤ m ∧ m ≤ BSIZE - off % BSIZE) (hml : m ≤ p.length)
    (hroom : s'.freeblock ≤ 1024) (hfb : s'.freeblock ≤ s.freeblock + 2) :
    Appended i off (p.take m) tbl s tbl' (s'.setSector x (blit (s'.disk x) (off % BSIZE) m (localBytes p))) := by
  obtain ⟨hown, hbase⟩ := hg.base.write hx (blit (s'.disk x) (off % BSIZE) m (localBytes p))
  obtain ⟨hge, hlt⟩ := hg.base.own_lt hx
  have hlen : (p.take m).length = m := by rw [List.length_take]; omega
  simp only [BSIZE] at hm
  have hspan : ∀ n, InSpan off (p.take m).length n ↔ n = off / BSIZE := by
    intro n
    rw [hlen]
    constructor
    · rintro ⟨k, hk, rfl⟩; simp only [BSIZE]; omega
    · rintro rfl; exact ⟨0, by omega, rfl⟩
  -- what the files read after the write, byte by byte
  have hfile : ∀ j y, (s'.setSector x (blit (s'.disk x) (off % BSIZE) m (localBytes p))).file tbl' j y =
      if j = i ∧ y / BSIZE = off / BSIZE then blit (s'.disk x) (off % BSIZE) m (localBytes p) (y % BSIZE)
      else s.file tbl j y := by
    intro j y
    rw [Mk.file, hown, ← hg.file]
    exact contents_write hg.base.owns hx _ y
  refine ⟨hbase, hg.table, fun j n hn => ?_, fun n hn => ?_, fun j hj => ?_, ?_, fun j hj => ?_, hg.freeinode, hg.written,
    hroom, ?_⟩
  · rw [hown]
    exact hg.own j n fun hc => hn ⟨hc.1, (hspan n).mpr hc.2⟩
  · rw [hown, (hspan n).mp hn, hx]
    exact Option.some_ne_none _
  · funext y
    rw [hfile, if_neg fun hc => hj hc.1]
  · funext y
    rw [hfile, hlen]
    by_cases hy : y / BSIZE = off / BSIZE
    · rw [if_pos ⟨rfl, hy⟩]
      simp only [BSIZE] at hy
      by_cases hin : off ≤ y ∧ y < off + m
      · rw [blit_in (by simp only [BSIZE]; omega) (by simp only [BSIZE]; omega), blit_in hin.1 hin.2]
        simp only [localBytes, BSIZE, show y % 512 - off % 512 = y - off by omega]
        rw [List.getD_eq_getElem?_getD, List.getD_eq_getElem?_getD, List.getElem?_take_of_lt (by omega)]
      · rw [blit_out (by simp only [BSIZE]; omega), blit_out (by omega), ← hg.file, Mk.file,
          contents_mapped (by rw [show y / BSIZE = off / BSIZE from hy]; exact hx)]
    · rw [if_neg fun hc => hy hc.2, blit_out (by simp only [BSIZE] at hy; omega)]
  · exact (dmeta_setSector _ hge hj).trans (hg.stored j hj)
  · have hone : span off (p.take m).length = 1 := by
      rw [span, hlen, if_neg (by omega)]; simp only [BSIZE]; omega
    rw [hone]
    exact hfb

theorem Appended.trans {q : List UInt8} (h : Appended i off p tbl s tbl' s')
    (h' : Appended i (off + p.length) q tbl' s' tbl'' s'')
    (hfb : s''.freeblock ≤ s.freeblock + 2 * span off (p ++ q).length) : Appended i off (p ++ q) tbl s tbl'' s'' := by
  have hspan : ∀ n, InSpan off (p ++ q).length n ↔ InSpan off p.length n ∨ InSpan (off + p.length) q.length n := by
    intro n
    rw [List.length_append]
    constructor
    · rintro ⟨k, hk, rfl⟩
      by_cases hkp : k < p.length
      · exact .inl ⟨k, hkp, rfl⟩
      · exact .inr ⟨k - p.length, by omega, by congr 1; omega⟩
    · rintro (⟨k, hk, rfl⟩ | ⟨k, hk, rfl⟩)
      · exact ⟨k, by omega, rfl⟩
      · exact ⟨p.length + k, by omega, by rw [Nat.add_assoc]⟩
  refine ⟨h'.base, ?_, fun j n hn => ?_, fun n hn => ?_, fun j hj => (h'.other j hj).trans (h.other j hj), ?_,
    fun j hj => (h'.stored j hj).trans (h.stored j hj), h'.freeinode.trans h.freeinode, h'.written.trans h.written, h'.room,
    hfb⟩
  · obtain ⟨a, rfl⟩ := h.table
    obtain ⟨a', rfl⟩ := h'.table
    exact ⟨a', by simp only [Function.update_self, Function.update_idem]⟩
  · rw [h'.own j n fun hc => hn ⟨hc.1, (hspan n).mpr (.inr hc.2)⟩,
      h.own j n fun hc => hn ⟨hc.1, (hspan n).mpr (.inl hc.2)⟩]
  · by_cases hq : InSpan (off + p.length) q.length n
    · exact h'.mapped n hq
    · rw [h'.own i n fun hc => hq hc.2]
      exact h.mapped n (((hspan n).mp hn).resolve_right hq)
  · rw [h'.file, h.file, List.length_append]
    refine blit_append (fun k hk => ?_) fun k hk => ?_
    · simp only [localBytes, List.getD_eq_getElem?_getD, List.getElem?_append_left hk]
    · simp only [localBytes, List.getD_eq_getElem?_getD]
      rw [List.getElem?_append_right (Nat.le_add_right ..), Nat.add_sub_cancel_left]

/-- Nothing is appended. -/
theorem Appended.nil (h : Base tbl s) (hle : s.freeblock ≤ 1024) : Appended i off [] tbl s tbl s := by
  refine ⟨h, ⟨(tbl i).addrs, (Function.update_eq_self i tbl).symm⟩, fun _ _ _ => rfl, ?_, fun _ _ => rfl, ?_, fun _ _ => rfl,
    rfl, rfl, hle, Nat.le_refl _⟩
  · rintro n ⟨k, hk, -⟩
    exact absurd hk (Nat.not_lt_zero k)
  · funext y
    rw [List.length_nil, blit_out (by omega)]

/-- **The loop of `iappend`.** It stops early only for a file that gets too long or an image that is full. -/
theorem iappendLoop_spec (fuel : Nat) : ∀ (tbl : Nat → Meta) (s : Mk) (din : Dinode) (off : Nat) (p : List UInt8),
    Base tbl s → 1 ≤ i ∧ i < s.freeinode → din.toMeta = tbl i → s.freeblock ≤ 1024 → p.length ≤ fuel →
    wp (iappendLoop fuel din off p)
      (fun r s' => r.2 = off + p.length ∧ ∃ tbl', Appended i off p tbl s tbl' s' ∧ r.1.toMeta = tbl' i)
      (fun _ s' => ¬ (off + p.length ≤ MAXFILE * BSIZE ∧ s.freeblock + 2 * span off p.length ≤ 1024) ∧
        (MAXFILE * BSIZE < off + p.length ∨ 1024 < s'.freeblock)) s := by
  induction fuel with
  | zero =>
    intro tbl s din off p h hi hd hle hp
    obtain rfl : p = [] := List.eq_nil_of_length_eq_zero (by omega)
    exact ⟨rfl, tbl, .nil h hle, hd⟩
  | succ fuel ih =>
    intro tbl s din off p h hi hd hle hp
    unfold iappendLoop
    by_cases h0 : p = []
    · subst h0
      rw [if_pos rfl, wp_pure]
      exact ⟨rfl, tbl, .nil h hle, hd⟩
    have hpos : 1 ≤ p.length := List.length_pos_iff.mpr h0
    have hspan : span off p.length = (off + p.length - 1) / BSIZE - off / BSIZE + 1 := if_neg (by omega)
    simp only [BSIZE] at hspan
    rw [if_neg h0, wp_bind, wp_require]
    refine ⟨fun hn => ?_, fun hn => ?_⟩
    swap
    · have hlong : MAXFILE * BSIZE < off + p.length := by simp only [MAXFILE, BSIZE] at *; omega
      exact ⟨fun hroom => Nat.not_lt_of_le hroom.1 hlong, .inl hlong⟩
    rw [wp_bind]
    refine wp_mono (blockFor_spec h hi hd hn hle) ?_ ?_
    swap
    · rintro _ _ ⟨hfull, hout⟩
      exact ⟨fun hroom => by have := hroom.2; omega, .inr hout⟩
    rintro ⟨din', x⟩ s1 ⟨tbl1, hg, hd1, hx, hfb, hlt⟩
    dsimp only at hd1 hx hlt ⊢
    simp only [wp_bind, wp_rsect, hg.base.sectors]
    obtain ⟨-, hxfb⟩ := hg.base.own_lt hx
    refine ⟨fun hsec => ?_, fun hsec => ⟨fun hroom => ?_, .inr (by omega)⟩⟩
    swap
    · have := hroom.2
      omega
    -- the bytes that fit into this block, and the rest
    have hoff : off - off / 512 * 512 = off % BSIZE := by simp only [BSIZE]; omega
    have hm : 1 ≤ min p.length ((off / 512 + 1) * 512 - off) ∧
        min p.length ((off / 512 + 1) * 512 - off) ≤ BSIZE - off % BSIZE := by simp only [BSIZE]; omega
    have hml : min p.length ((off / 512 + 1) * 512 - off) ≤ p.length := Nat.min_le_left ..
    have hcut : min p.length ((off / 512 + 1) * 512 - off) = p.length ∨
        min p.length ((off / 512 + 1) * 512 - off) = 512 - off % 512 := by omega
    generalize min p.length ((off / 512 + 1) * 512 - off) = m at hm hml hcut ⊢
    have hch := Appended.chunk hg hx hm hml (hlt hsec) hfb.2
    have hlen : (p.take m).length = m := by rw [List.length_take]; omega
    have hdrop : (p.drop m).length = p.length - m := List.length_drop
    rw [hoff, wp_wsect (by rw [hg.base.sectors]; exact hsec)]
    -- every block but the last is filled, so one block less is left
    have hrest : 1 + span (off + m) (p.length - m) = span off p.length := by
      rw [hspan, span]
      simp only [BSIZE] at *
      split
      · omega
      · omega
    refine wp_mono (ih tbl1 _ din' (off + m) (p.drop m) hch.base ?_ hd1 hch.room (by omega)) ?_ ?_
    · rw [hch.freeinode]; exact hi
    · rintro r s2 ⟨hr, tbl2, happ, hd2⟩
      refine ⟨by rw [hr, hdrop]; omega, tbl2, ?_, hd2⟩
      rw [← List.take_append_drop m p]
      refine hch.trans (by rw [hlen]; exact happ) ?_
      have h1 := happ.blocks
      have h2 : (s1.setSector x (blit (s1.disk x) (off % BSIZE) m (localBytes p))).freeblock = s1.freeblock := rfl
      rw [List.take_append_drop]
      rw [hdrop, h2] at h1
      omega
    · rintro _ _ ⟨hfail, hout⟩
      rw [hdrop] at hfail hout
      refine ⟨fun hroom => hfail ⟨?_, ?_⟩, hout.imp_left fun hlong => by omega⟩
      · have := hroom.1; omega
      · show s1.freeblock + 2 * span (off + m) (p.length - m) ≤ 1024
        have := hroom.2
        omega

/-! ## Storing inodes -/

/-- The fields of a stored inode. -/
theorem getMeta_putDinode (buf : Arr) (o : Nat) (hf : din.Fits) : getMeta (putDinode buf o din) o = din.toMeta := by
  have htags : ∀ j, o ≤ j → j < o + 60 → putDinode buf o din j = putMeta buf o din.toMeta j :=
    fun j h1 h2 => blit_out (by omega)
  exact (getMeta_congr htags).trans (getMeta_putMeta buf o hf)

theorem putDinode_out {buf : Arr} {o y : Nat} (h : y < o ∨ o + 64 ≤ y) : putDinode buf o din y = buf y := by
  rw [putDinode, put32, blit_out (by omega), putMeta_out (by omega)]

/-- The inode table after one inode is stored. -/
theorem dmeta_putDinode {d : Nat → Arr} (hf : din.Fits) :
    dmeta (Function.update d (i2b i) (putDinode (d (i2b i)) (inodeOff i) din)) j =
      if j = i then din.toMeta else dmeta d j := by
  unfold dmeta
  by_cases hji : j = i
  · subst hji
    rw [if_pos rfl, i2b_eq, Function.update_self]
    exact getMeta_putDinode _ _ hf
  · rw [if_neg hji]
    by_cases hblk : IBLOCK j = i2b i
    · rw [hblk, Function.update_self]
      refine getMeta_congr fun y h1 h2 => putDinode_out ?_
      simp only [IBLOCK, i2b, inodeOff, IPB] at *
      omega
    · rw [Function.update_of_ne hblk]

/-- The image after `winode`. -/
def Mk.putInode (s : Mk) (i : Nat) (din : Dinode) : Mk :=
  { s with
    disk := Function.update s.disk (i2b i) (putDinode (s.disk (i2b i)) (inodeOff i) din)
    written := i2b i :: s.written }

theorem wp_winode {Q : Unit → Mk → Prop} (hi : i2b i < s.sectors) :
    wp (winode i din) Q E s ↔ Q () (s.putInode i din) := by
  unfold winode
  simp only [wp_bind, wp_rsect, hi, not_true_eq_false, IsEmpty.forall_iff, and_true, forall_const, wp_wsect hi, wp_modify]
  exact Iff.rfl

theorem putInode_disk_of_ne (hb : b ≠ i2b i) : (s.putInode i din).disk b = s.disk b := Function.update_of_ne hb ..

/-- The pointers of the inode table do not depend on the inode blocks. -/
theorem Base.own_putInode (h : Base tbl s) (hi : i < 207)
    (hown : ∀ k, ownOf tableSb tbl' s.disk (i, k) = s.own tbl (i, k)) (htbl : ∀ j, j ≠ i → tbl' j = tbl j) :
    (s.putInode i din).own tbl' = s.own tbl := by
  have hr := i2b_range hi
  have hsame : ownOf tableSb tbl' s.disk = s.own tbl := by
    funext x
    obtain ⟨j, k⟩ := x
    by_cases hji : j = i
    · subst hji; exact hown k
    · exact ownOf_congr (htbl j hji) fun _ _ _ => rfl
  rw [← hsame]
  refine ownOf_congr_disk fun j c hc => Function.update_of_ne ?_ ..
  rw [hsame] at hc
  have := h.own_lt hc
  omega

theorem Base.file_putInode (h : Base tbl s) (hi : i < 207) (hown : (s.putInode i din).own tbl' = s.own tbl) (j : Nat) :
    (s.putInode i din).file tbl' j = s.file tbl j := by
  have hr := i2b_range hi
  rw [Mk.file, hown]
  refine contents_congr (fun _ => rfl) fun k c _ hc => Function.update_of_ne ?_ ..
  have := h.own_lt hc
  omega

/-- **Storing an inode** whose pointers are those of the table. -/
theorem Base.putInode (h : Base tbl s) (hi : 1 ≤ i ∧ i < s.freeinode) (hf : din.Fits) (ht : din.type ≠ 0)
    (hown : (s.putInode i din).own (Function.update tbl i din.toMeta) = s.own tbl) :
    Base (Function.update tbl i din.toMeta) (s.putInode i din) := by
  obtain ⟨h2, h28⟩ := i2b_range (h.alive hi).1
  have hfb := h.freeblock_le
  refine ⟨?_, h.sectors, h.used, h.next, fun j hj => ?_, fun j hj => ?_, ?_, fun b hb j hj => ?_, fun b hb => ?_⟩
  · rw [putInode_disk_of_ne (by omega)]; exact h.super
  · by_cases hji : j = i
    · subst hji
      rw [Function.update_self]
      exact ⟨fun _ => hi, fun _ => ht⟩
    · rw [Function.update_of_ne hji]; exact h.live j hj
  · by_cases hji : j = i
    · subst hji; rw [Function.update_self]; exact hf
    · rw [Function.update_of_ne hji]; exact h.fits j hj
  · rw [hown]; exact h.owns
  · have hb' : s.freeblock ≤ b := hb
    rw [putInode_disk_of_ne (by omega)]
    exact h.zero b hb' j hj
  · rcases List.mem_cons.mp hb with rfl | hb
    · exact ⟨h2, h28⟩
    · exact h.written b hb

/-- The number of inodes may grow over inodes that are not in use. -/
theorem Base.bump (h : Base tbl s) (hlt : 1 ≤ s.freeinode ∧ s.freeinode < 207) (m : Meta) (hm : m.Fits) (ht : m.type ≠ 0)
    (h0 : ∀ k, m.addrs k = 0) :
    ({ s with freeinode := s.freeinode + 1 } : Mk).own (Function.update tbl s.freeinode m) = s.own tbl ∧
      Base (Function.update tbl s.freeinode m) { s with freeinode := s.freeinode + 1 } := by
  have hfree : (tbl s.freeinode).type = 0 := by
    by_contra hc
    exact Nat.lt_irrefl _ ((h.live _ hlt.2).mp hc).2
  have hown : ({ s with freeinode := s.freeinode + 1 } : Mk).own (Function.update tbl s.freeinode m) = s.own tbl := by
    funext x
    obtain ⟨j, k⟩ := x
    by_cases hj : j = s.freeinode
    · -- neither the free inode nor the new one has pointers
      subst hj
      have hp : ptr s.disk m k = 0 := by
        rw [ptr, h0, h0]
        split <;> rfl
      rw [Mk.own, Mk.own, ownOf, ownOf]
      simp only [Function.update_self, hp, hfree, ne_eq, not_true_eq_false, and_false, false_and, if_false]
    · exact ownOf_congr (Function.update_of_ne hj ..) fun _ _ _ => rfl
  refine ⟨hown, h.super, h.sectors, h.used, hlt.2, fun j hj => ?_, fun j hj => ?_, ?_, h.zero, h.written⟩
  · show _ ↔ 1 ≤ j ∧ j < s.freeinode + 1
    by_cases hji : j = s.freeinode
    · subst hji
      rw [Function.update_self]
      exact ⟨fun _ => ⟨hlt.1, Nat.lt_succ_self _⟩, fun _ => ht⟩
    · rw [Function.update_of_ne hji, h.live j hj]
      omega
  · by_cases hji : j = s.freeinode
    · subst hji; rw [Function.update_self]; exact hm
    · rw [Function.update_of_ne hji]; exact h.fits j hj
  · rw [hown]; exact h.owns

/-! ## The empty image -/

/-- The image after `mkfs(995, 200, 1024)`. -/
def Mk.empty : Mk where
  disk := Function.update (fun _ _ => 0) 1 (put32 (put32 (put32 (fun _ => 0) 0 size) 4 nblocks) 8 ninodes)
  sectors := 1024
  freeblock := 29
  usedblocks := 29
  freeinode := 1
  written := []

/-- The sectors are zeroed one after the other. -/
theorem zeroSectors_spec (m : Nat) (hs : s.disk = fun _ _ => 0) (hsec : s.sectors = 0) :
    wp ((List.range m).forM fun i => wsect i fun _ => 0) (fun _ s' => s' = { s with sectors := m }) E s := by
  refine wp_forM_range (fun i s' => s' = { s with sectors := i }) (fun i s' _ hi => ?_) ?_
  · rw [hi]
    show ({ s with disk := Function.update s.disk i fun _ => 0, sectors := max i (i + 1) } : Mk) = _
    rw [hs, Function.update_eq_self, Nat.max_eq_right (Nat.le_succ i)]
  · rw [← hsec]

-- `wp` of a closed program would be evaluated
attribute [local irreducible] wp in
theorem mkfs_spec {Q : Unit → Mk → Prop} (hQ : Q () Mk.empty) : wp (mkfs nblocks ninodes size) Q E Mk.init := by
  have hused : ninodes / IPB + 3 + (size / (512 * 8) + 1) = 29 := rfl
  have hall : nblocks + 29 = size := rfl
  unfold mkfs
  simp only [wp_bind, wp_modify, wp_require, hused, hall, not_true_eq_false, IsEmpty.forall_iff, and_true, forall_const]
  refine wp_post (zeroSectors_spec size rfl rfl) ?_
  rintro _ s' rfl
  rw [wp_wsect (Nat.lt_of_sub_eq_succ rfl)]
  exact hQ

theorem empty_disk (hb : b ≠ 1) : Mk.empty.disk b = fun _ => 0 := by
  show Function.update (fun _ _ => (0 : UInt8)) 1 _ b = _
  rw [Function.update_of_ne hb]

theorem dmeta_zero {d : Nat → Arr} (hd : d (IBLOCK i) = fun _ => 0) : dmeta d i = Meta.mk 0 0 0 0 0 fun _ => 0 := by
  unfold dmeta
  rw [hd]
  have hbyte : ∀ o, u16 (fun _ => 0) o = 0 := fun o => rfl
  have hword : ∀ o, u32 (fun _ => 0) o = 0 := fun o => by rw [u32, hbyte, hbyte]
  have hshort : ∀ o, i16 (fun _ => 0) o = 0 := fun o => by rw [i16, hbyte]; rfl
  simp only [getMeta, hshort, hword, ite_self]

theorem empty_dmeta (i : Nat) : dmeta Mk.empty.disk i = Meta.mk 0 0 0 0 0 fun _ => 0 :=
  dmeta_zero (empty_disk (Nat.ne_of_gt (Nat.le_add_left 2 _)))

theorem empty_base : Base (dmeta Mk.empty.disk) Mk.empty := by
  have hown : ∀ x, Mk.empty.own (dmeta Mk.empty.disk) x = none := by
    rintro ⟨j, k⟩
    exact if_neg fun hc => hc.2.1 (by rw [empty_dmeta])
  refine ⟨?_, rfl, rfl, by decide, fun i _ => ?_, fun i _ => getMeta_fits _ _, ⟨?_, ?_, fun b => ?_⟩, ?_, ?_⟩
  · show getSuperblock (put32 (put32 (put32 (fun _ => 0) 0 size) 4 nblocks) 8 ninodes) = imageSb
    simp only [getSuperblock]
    rw [u32_put32_out (by omega), u32_put32_out (by omega), u32_put32, u32_put32]
    rfl
  · rw [empty_dmeta]
    show (0 : Int) ≠ 0 ↔ 1 ≤ i ∧ i < 1
    omega
  · intro k l b hk
    rw [hown] at hk
    cases hk
  · intro k b hk
    rw [hown] at hk
    cases hk
  · constructor
    · intro hb; exact .inl hb
    · rintro (hb | ⟨k, hk⟩)
      · exact hb
      · rw [hown] at hk; cases hk
  · intro b hb j _
    have hb' : 29 ≤ b := hb
    rw [empty_disk (by omega)]
  · intro b hb
    cases hb

end Xv6.Mkfs
