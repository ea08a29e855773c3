import Xv6.Lib.Machine
import Xv6.Fs.Ops
import Xv6.Fs.Image

/-!
# `Fs.Sequences` — sequences of file system operations

The file system as a machine whose steps are its operations, in any order and on any inodes, each started by a
caller that holds what the operation expects: a reference to a starting directory, a reference, or the lock. From
a formatted device whose free blocks are zero and whose directories name inodes of the table, every state reached is
well formed.
-/

namespace Xv6

open Bytes Hoare Ownership Machine

variable {B : Env} {refs K : Multiset Slot} {held : Finset Slot} {s s' s₀ : Fs} {x : Slot} {sb : Superblock}

/-! ## Operations -/

/-- An operation of the file system, with the arguments of its caller. -/
inductive FsOp where
  | namei (cwd : Slot) (path : List UInt8)
  | ilock (ip : Slot)
  | iunlock (ip : Slot)
  | iput (ip : Slot)
  | readi (ip : Slot) (dst : Dst) (off n : Nat)
  | writei (ip : Slot) (src : Src) (off n : Nat)
  | dirlink (dp : Slot) (name : List UInt8) (inum : Nat)
  | create (cwd : Slot) (path : List UInt8) (type major minor : Int)
  | link (cwd : Slot) (old new : List UInt8)
  | unlink (cwd : Slot) (path : List UInt8)

/-- The call; the type passed to `create` is a `short`. -/
def FsOp.run : FsOp → FsM Unit
  | .namei cwd path => do let _ ← Xv6.namei cwd path
  | .ilock ip => Xv6.ilock ip
  | .iunlock ip => Xv6.iunlock ip
  | .iput ip => Xv6.iput ip
  | .readi ip dst off n => do let _ ← Xv6.readi ip dst off n
  | .writei ip src off n => do let _ ← Xv6.writei ip src off n
  | .dirlink dp name inum => do let _ ← Xv6.dirlink dp name inum
  | .create cwd path type major minor => do let _ ← Xv6.create cwd path (short type) major minor
  | .link cwd old new => do let _ ← sysLink cwd old new
  | .unlink cwd path => do let _ ← sysUnlink cwd path

/-- Someone holds a reference to the inode in this slot. -/
def Fs.Referenced (s : Fs) (x : Slot) : Prop := 1 ≤ (s.icache x).ref

/-- Someone holds the lock of the inode in this slot. -/
def Fs.Locked (s : Fs) (x : Slot) : Prop := s.Referenced x ∧ (s.icache x).busy = true

/-- A path can be followed: it is absolute, or the current directory is referenced. -/
def Fs.Starts (s : Fs) (cwd : Slot) (path : List UInt8) : Prop := path.head? = some slash ∨ s.Referenced cwd

instance : Decidable (s.Referenced x) := by unfold Fs.Referenced; infer_instance
instance : Decidable (s.Locked x) := by unfold Fs.Locked; infer_instance
instance {cwd : Slot} {path : List UInt8} : Decidable (s.Starts cwd path) := by unfold Fs.Starts; infer_instance

/-- **What the caller holds.** The reference that `iput` drops is not the one of a holder of the lock. -/
def FsOp.Ready (s : Fs) : FsOp → Prop
  | .namei cwd path | .create cwd path _ _ _ | .unlink cwd path => s.Starts cwd path
  | .link cwd old new => s.Starts cwd old ∧ s.Starts cwd new
  | .ilock ip => s.Referenced ip
  | .iput ip => s.Referenced ip ∧ ((s.icache ip).busy = true → 2 ≤ (s.icache ip).ref)
  | .iunlock ip | .readi ip _ _ _ | .writei ip _ _ _ | .dirlink ip _ _ => s.Locked ip

instance (s : Fs) (op : FsOp) : Decidable (op.Ready s) := by cases op <;> unfold FsOp.Ready <;> infer_instance

/-- One operation, if it returns. -/
def fsStep (s : Fs) (op : FsOp) : Option Fs :=
  if op.Ready s then
    match exec op.run s with
    | (.ok _, s') => some s'
    | (.error _, _) => none
  else none

/-- **Entries stay in range**: `dirlink` is given the number of an inode of the table, and bytes written to a
    directory with `writei` are entries of such inodes. -/
def FsOp.InTable (sb : Superblock) (s : Fs) : FsOp → Prop
  | .dirlink _ _ inum => inum < sb.ninodes
  | .writei ip src off n => (dmeta (s.disk ROOTDEV) (s.icache ip).inum).type = T_DIR → ∀ m ≤ n, ∀ e,
      direntInum (blit (diskFile sb (s.disk ROOTDEV) (s.icache ip).inum) off m (src.bytes s.mem)) (16 * e) < sb.ninodes
  | _ => True

/-- The way the kernel uses them: only `dirlink` and `unlink` write to directories. -/
def FsOp.Plain (sb : Superblock) (s : Fs) : FsOp → Prop
  | .dirlink _ _ inum => inum < sb.ninodes
  | .writei ip _ _ _ => (dmeta (s.disk ROOTDEV) (s.icache ip).inum).type ≠ T_DIR
  | _ => True

instance (sb : Superblock) (s : Fs) (op : FsOp) : Decidable (op.Plain sb s) := by
  cases op <;> unfold FsOp.Plain <;> infer_instance

theorem FsOp.Plain.inTable {op : FsOp} (h : op.Plain sb s) : op.InTable sb s := by
  cases op with
  | dirlink dp name inum => exact h
  | writei ip src off n => exact fun ht => absurd ht h
  | _ => trivial

/-! ## Devices -/

/-- **A formatted device**: each data block is free in the bitmap or named by exactly one pointer of an allocated
    inode, what comes before the data is marked, and no file has an unmapped block below its size. -/
structure Formatted (sb : Superblock) (d : Disk) : Prop where
  super : getSuperblock (d 1) = sb
  ok : sb.Ok
  owns : Owns (ownOf sb (dmeta d) d) (· < sb.dataStart) (Used sb d)
  holes : NoHoles sb (dmeta d) d

/-- Every free block is zero. -/
def FreeZero (sb : Superblock) (d : Disk) : Prop := ∀ b < sb.nbits, bit sb d b = false → ∀ j < BSIZE, d b j = 0

/-- Every entry of a directory names an inode of the table. -/
def EntriesInTable (sb : Superblock) (d : Disk) : Prop :=
  ∀ i < sb.ninodes, (dmeta d i).type = T_DIR → ∀ e, direntInum (diskFile sb d i) (16 * e) < sb.ninodes

/-- No slot of the inode cache is in use. -/
def Fs.Unused (s : Fs) : Prop := ∀ x, (s.icache x).ref = 0

/-- What is fixed along a run: the superblock, and the tags of the slots. -/
def plainEnv (sb : Superblock) (s : Fs) : Env := ⟨sb, fun _ => none, fun x => (s.icache x).tags⟩

theorem Formatted.ok_of_unused (h : Formatted sb (s.disk ROOTDEV)) (hz : FreeZero sb (s.disk ROOTDEV))
    (he : EntriesInTable sb (s.disk ROOTDEV)) (hs : s.Unused) : Ok (plainEnv sb s) 0 ∅ s := by
  have howns : Owns (ownOf sb (dmeta (s.disk ROOTDEV)) (s.disk ROOTDEV)) (Reserved sb fun _ => none)
      (Used sb (s.disk ROOTDEV)) := by
    refine h.owns.congr_reserved fun b => ?_
    constructor
    · rintro (hb | hb)
      · exact hb
      · cases hb
    · exact .inl
  refine ⟨⟨⟨⟨h.super, h.ok, howns, hz, ?_, ?_⟩, h.holes, fun i _ => getMeta_fits _ _⟩, ?_⟩, he⟩
  · rintro b d hb
    cases hb
  · intro b hb
    cases hb
  · refine ⟨fun y => ?_, ?_, ?_, ?_, ?_, ?_, ?_, fun _ => rfl⟩
    · rw [hs y]
      exact (congrArg Nat.cast (Multiset.count_zero y)).symm
    all_goals
      intro y hy
      exact absurd hy (by simp [onDisk])

/-- It is enough to look at the data blocks one by one. -/
theorem EntriesInTable.of_blocks {d : Disk} (hf : Formatted sb d)
    (h : ∀ b, sb.dataStart ≤ b → ∀ e < 32, direntInum (d b) (16 * e) < sb.ninodes) : EntriesInTable sb d := by
  intro i hi _ e
  have hblk : 16 * e / BSIZE = e / 32 := by simp only [BSIZE]; omega
  have hnext : (16 * e + 1) / BSIZE = e / 32 := by simp only [BSIZE]; omega
  simp only [direntInum, u16, diskFile, contents, hblk, hnext]
  cases ho : ownOf sb (dmeta d) d (i, blockIx (e / 32)) with
  | none => exact Nat.lt_of_le_of_lt (Nat.zero_le i) hi
  | some b =>
    have hb := h b (Nat.le_of_not_lt (hf.owns.sep ho)) (e % 32) (Nat.mod_lt e (by decide))
    have hoff : 16 * e % BSIZE = 16 * (e % 32) := by simp only [BSIZE]; omega
    have hoff' : (16 * e + 1) % BSIZE = 16 * (e % 32) + 1 := by simp only [BSIZE]; omega
    simp only [hoff, hoff']
    exact hb

/-- The image on the root device, and nothing cached. -/
def Image.start (im : Image) : Fs where
  disk _ := im.disk
  icache _ := ⟨⟨0, 0, 0, 0, 0, fun _ => 0⟩, 0, 0, 0, false, false, 0⟩
  tty _ := none
  mem _ := 0
  acc := []

theorem Image.start_unused (im : Image) : im.start.Unused := fun _ => rfl

theorem Image.Sound.formatted {im : Image} (h : im.Sound) : Formatted im.sb im.disk := by
  have htbl : ∀ i < im.sb.ninodes, dmeta im.disk i = im.tbl i := fun i hi => Image.dmeta_eq hi (h.fits i)
  have hown : ownOf im.sb (dmeta im.disk) im.disk = ownOf im.sb im.tbl im.disk := ownOf_congr_tbl htbl
  refine ⟨Image.super h.ok h.size, h.ok, ?_, fun i hi ht n hn => ?_⟩
  · rw [hown]
    exact h.owns.congr h.used_iff
  · rw [hown]
    rw [htbl i hi] at ht hn
    exact h.holes i hi ht n hn

/-! ## Runs -/

section
variable (h : Ok B refs held s)
include h

theorem Ok.mem_refs : x ∈ refs ↔ s.Referenced x := by
  unfold Fs.Referenced
  exact h.core.cache.ref_pos.symm

theorem Ok.mem_held : x ∈ held ↔ s.Locked x := by
  constructor
  · intro hx
    have hr := (h.locked hx).1
    exact ⟨h.mem_refs.mp hr, (h.core.cache.busy x hr).trans (decide_eq_true hx)⟩
  · rintro ⟨hr, hb⟩
    rw [h.core.cache.busy x (h.mem_refs.mpr hr)] at hb
    exact of_decide_eq_true hb

theorem Ok.hasCwd {cwd : Slot} {path : List UInt8} (hs : s.Starts cwd path) : HasCwd refs cwd path :=
  hs.imp_right h.mem_refs.mpr

/-- What `iput` needs of its caller. -/
theorem Ok.putReady (hr : s.Referenced x ∧ ((s.icache x).busy = true → 2 ≤ (s.icache x).ref)) :
    refs = x ::ₘ refs.erase x ∧ (x ∈ held → x ∈ refs.erase x) := by
  refine ⟨(Multiset.cons_erase (h.mem_refs.mpr hr.1)).symm, fun hx => ?_⟩
  have hcount : (s.icache x).ref = (refs.count x : Int) := h.core.cache.ref x
  have htwo := hr.2 (h.mem_held.mp hx).2
  rw [← Multiset.count_pos, Multiset.count_erase_self]
  omega

/-- **One operation** keeps the volume well formed. -/
theorem FsOp.run_ok {op : FsOp} (hr : op.Ready s) (ht : op.InTable B.sb s) :
    wp op.run (fun _ s' => ∃ refs held, Ok B refs held s') NoDoubleFree s := by
  cases op with
  | namei cwd path =>
    rw [FsOp.run, wp_bind]
    exact wp_post (namei_ok h (h.hasCwd hr)) fun _ _ hs => ⟨_, _, hs.1⟩
  | ilock ip => exact wp_post (ilock_ok h (h.mem_refs.mpr hr)) fun _ _ hs => ⟨_, _, hs.1⟩
  | iunlock ip => exact wp_post (iunlock_ok h (h.mem_held.mpr hr)) fun _ _ hs => ⟨_, _, hs.1⟩
  | iput ip =>
    obtain ⟨hK, hx⟩ := h.putReady hr
    exact wp_post (iput_ok h hK hx) fun _ _ hs => ⟨_, _, hs.1⟩
  | readi ip dst off n =>
    rw [FsOp.run, wp_bind]
    exact wp_post (readi_ok h (h.mem_held.mpr hr)) fun _ _ hs => ⟨_, _, hs.1⟩
  | writei ip src off n =>
    rw [FsOp.run, wp_bind]
    exact wp_post (writei_ok h (h.mem_held.mpr hr) ht) fun _ _ hs => ⟨_, _, hs.1⟩
  | dirlink dp name inum =>
    rw [FsOp.run, wp_bind]
    exact wp_post (dirlink_ok h (h.mem_held.mpr hr) ht) fun _ _ hs => ⟨_, _, hs.1⟩
  | create cwd path type major minor =>
    rw [FsOp.run, wp_bind]
    exact wp_post (create_ok h (h.hasCwd hr) (short_range type)) fun _ _ hs => ⟨_, _, hs.1⟩
  | link cwd old new =>
    rw [FsOp.run, wp_bind]
    exact wp_post (sysLink_ok h (h.hasCwd hr.1) (h.hasCwd hr.2)) fun _ _ hs => ⟨_, _, hs.1⟩
  | unlink cwd path =>
    rw [FsOp.run, wp_bind]
    exact wp_post (sysUnlink_ok h (h.hasCwd hr)) fun _ _ hs => ⟨_, _, hs.1⟩

theorem fsStep_ok {op : FsOp} (ht : op.InTable B.sb s) (hs : fsStep s op = some s') :
    ∃ refs held, Ok B refs held s' := by
  unfold fsStep at hs
  split at hs
  · rename_i hr
    split at hs
    · rename_i r s1 hx
      cases hs
      exact wp_ok (FsOp.run_ok h hr ht) hx
    · cases hs
  · cases hs

end

/-- **A sequence of operations** from a formatted device. -/
theorem fsRun_ok {ops : List FsOp} (hf : Formatted sb (s₀.disk ROOTDEV)) (hz : FreeZero sb (s₀.disk ROOTDEV))
    (he : EntriesInTable sb (s₀.disk ROOTDEV)) (hu : s₀.Unused) (hops : Along fsStep (fun s op => op.InTable sb s) s₀ ops)
    (hrun : run fsStep s₀ ops = some s) : ∃ refs held, Ok (plainEnv sb s₀) refs held s := by
  refine run_induct_along (I := fun _ s => ∃ refs held, Ok (plainEnv sb s₀) refs held s)
    ⟨0, ∅, hf.ok_of_unused hz he hu⟩ ?_ hops hrun
  rintro _ t op u ⟨refs, held, h⟩ ht hstep
  exact fsStep_ok h ht hstep

/-! ## Block ownership -/

/-- Blocks in use once the pointers of inode `i` are gone. -/
theorem used_without {own : Nat × Nat → Option Nat} {reserved used used' : Nat → Prop} {i b : Nat}
    (h : Owns own reserved used) (h' : Owns (without own i) reserved used') :
    used' b ↔ used b ∧ ¬ ∃ k, own (i, k) = some b := by
  constructor
  · intro hb
    rcases (h'.used_iff b).mp hb with hres | ⟨⟨j, l⟩, hj⟩
    · refine ⟨(h.used_iff b).mpr (.inl hres), ?_⟩
      rintro ⟨k, hk⟩
      exact h.sep hk hres
    · have hne : j ≠ i := by
        rintro rfl
        rw [without_self] at hj
        cases hj
      rw [without_of_ne hne] at hj
      refine ⟨h.used_of_own hj, ?_⟩
      rintro ⟨k, hk⟩
      exact hne (congrArg Prod.fst (h.inj hj hk))
  · rintro ⟨hb, hno⟩
    rcases (h.used_iff b).mp hb with hres | ⟨⟨j, l⟩, hj⟩
    · exact (h'.used_iff b).mpr (.inl hres)
    · have hne : j ≠ i := by
        rintro rfl
        exact hno ⟨l, hj⟩
      exact h'.used_of_own ((without_of_ne hne).trans hj)

/-- **Deleting a file returns exactly its blocks.** -/
theorem iput_returns (h : Ok B refs held s) (hr : FsOp.Ready s (.iput x)) (hone : (s.icache x).ref = 1)
    (hv : (s.icache x).valid = true) (h0 : (s.icache x).nlink = 0) :
    ∃ s', fsStep s (.iput x) = some s' ∧ ∀ b < B.sb.nbits, (bit B.sb (s'.disk ROOTDEV) b = true ↔
      bit B.sb (s.disk ROOTDEV) b = true ∧
        ¬ ∃ k, ownOf B.sb (dmeta (s.disk ROOTDEV)) (s.disk ROOTDEV) ((s.icache x).inum, k) = some b) := by
  obtain ⟨hK, hx⟩ := h.putReady hr
  have hd : Dies (onDisk B refs held s) s x := by
    have hcount : (s.icache x).ref = (refs.count x : Int) := h.core.cache.ref x
    have hm := (h.core.cache.coh x (h.mem_refs.mpr hr.1) hv).1
    refine ⟨?_, hv, ?_⟩
    · show refs.count x = 1
      omega
    · rw [← hm]
      exact h0
  obtain ⟨_, s', hrun, hc, -, -, hown, -⟩ := wp_total (iput_spec h.core Ok.clean hK hx)
  refine ⟨s', ?_, fun b hb => ?_⟩
  · rw [fsStep, if_pos hr, show exec (FsOp.iput x).run s = (.ok _, s') from hrun]
  · rw [if_pos hd] at hown
    have howns : Owns (without ((onDisk B refs held s).own s) (s.icache x).inum) (Reserved B.sb B.R)
        (Used B.sb (s'.disk ROOTDEV)) := by
      have ho := hc.vol.alloc.owns
      rw [show ownOf _ _ _ = _ from hown, Ghost.put, if_pos hd] at ho
      exact ho
    have hiff := used_without (b := b) h.core.vol.alloc.owns howns
    simp only [Used, onDisk, hb, true_and] at hiff
    exact hiff

/-- **Block ownership.** From a formatted device whose free blocks are zero and whose directory entries name inodes of
    the table, whatever operations that leave entries in range come in whatever order: a data block is marked exactly
    if one pointer of an allocated inode names it, no two pointers name one block, the last `iput` of a file without
    links returns its blocks and no others, and no operation frees a free block. -/
theorem fsOps_blockOwnership {ops : List FsOp} (hf : Formatted sb (s₀.disk ROOTDEV))
    (hz : FreeZero sb (s₀.disk ROOTDEV)) (he : EntriesInTable sb (s₀.disk ROOTDEV)) (hu : s₀.Unused)
    (hops : Along fsStep (fun s op => op.InTable sb s) s₀ ops) (hrun : run fsStep s₀ ops = some s) :
    BlockOwnership sb (dmeta (s.disk ROOTDEV)) (s.disk ROOTDEV) ∧
    (∀ p q b, ownOf sb (dmeta (s.disk ROOTDEV)) (s.disk ROOTDEV) p = some b →
      ownOf sb (dmeta (s.disk ROOTDEV)) (s.disk ROOTDEV) q = some b → p = q) ∧
    (∀ x, FsOp.Ready s (.iput x) → (s.icache x).ref = 1 → (s.icache x).valid = true → (s.icache x).nlink = 0 →
      ∃ s', fsStep s (.iput x) = some s' ∧ ∀ b < sb.nbits, (bit sb (s'.disk ROOTDEV) b = true ↔
        bit sb (s.disk ROOTDEV) b = true ∧
          ¬ ∃ k, ownOf sb (dmeta (s.disk ROOTDEV)) (s.disk ROOTDEV) ((s.icache x).inum, k) = some b)) ∧
    ∀ op : FsOp, op.Ready s → op.InTable sb s → ∀ s', exec op.run s ≠ (.error (.panic "freeing free block"), s') := by
  obtain ⟨refs, held, h⟩ := fsRun_ok hf hz he hu hops hrun
  refine ⟨h.core.vol.blockOwnership, fun p q b hp hq => h.core.vol.alloc.owns.inj hp hq,
    fun x hr hone hv h0 => ?_, fun op hr ht s' hstop => ?_⟩
  · have hput := iput_returns h hr hone hv h0
    simp only [plainEnv] at hput
    exact hput
  · exact wp_error (FsOp.run_ok h hr ht) hstop rfl

/-- Open the file of a new device, write to it and remove it while it is open. -/
def writeUnlink : List FsOp :=
  [.namei 0 [47, 102], .ilock 1, .writei 1 (.kernel fun _ => 7) 0 2, .iunlock 1, .unlink 0 [47, 102]]

theorem mkfsImage_freeZero : FreeZero mkfsImage.sb mkfsImage.disk :=
  (mkfsImage_sound.vol mkfsImage_zero).alloc.zero

theorem mkfsImage_entries : EntriesInTable mkfsImage.sb mkfsImage.disk := by
  refine .of_blocks mkfsImage_sound.formatted fun b hb e _ => ?_
  rw [Image.data_eq hb]
  by_cases h29 : b = 29
  · have hdata : mkfsImage.data b = blit (blit (blit (fun _ => 0) (16 * 0) 16 (direntBytes 1 dot)) (16 * 1) 16
        (direntBytes 1 dotdot)) (16 * 2) 16 (direntBytes 2 [102]) := if_pos h29
    rw [hdata]
    simp only [direntInum_blit, direntInum_direntBytes]
    split_ifs
    · decide
    · decide
    · decide
    · exact show 0 < 200 by decide
  · rw [show mkfsImage.data b = fun _ => 0 from if_neg h29]
    exact show 0 < 200 by decide

/-- The file removed while it is open still holds its block; the `iput` to come returns it. -/
theorem fsOps_blockOwnership_unlinked : ∃ s, run fsStep mkfsImage.start writeUnlink = some s ∧
    BlockOwnership mkfsImage.sb (dmeta (s.disk ROOTDEV)) (s.disk ROOTDEV) ∧
    bit mkfsImage.sb (s.disk ROOTDEV) 30 = true ∧ ∃ s', fsStep s (.iput 1) = some s' ∧
      bit mkfsImage.sb (s'.disk ROOTDEV) 30 = false := by
  have hrun : (run fsStep mkfsImage.start writeUnlink).map (fun s => (bit mkfsImage.sb (s.disk ROOTDEV) 30,
      ownOf mkfsImage.sb (dmeta (s.disk ROOTDEV)) (s.disk ROOTDEV) ((s.icache 1).inum, 0), decide (FsOp.Ready s (.iput 1)),
      (s.icache 1).ref, (s.icache 1).valid, (s.icache 1).nlink)) = some (true, some 30, true, 1, true, 0) := by
    decide +kernel
  obtain ⟨s, hs, heq⟩ := Option.map_eq_some_iff.mp hrun
  simp only [Prod.mk.injEq, decide_eq_true_eq] at heq
  obtain ⟨hbit, hown, hr, hone, hv, h0⟩ := heq
  have hplain : Along fsStep (fun s op => op.Plain mkfsImage.sb s) mkfsImage.start writeUnlink :=
    .of_check (by decide +kernel)
  obtain ⟨hb, -, hput, -⟩ := @fsOps_blockOwnership s mkfsImage.start mkfsImage.sb writeUnlink
    mkfsImage_sound.formatted mkfsImage_freeZero mkfsImage_entries mkfsImage.start_unused
    (hplain.imp fun _ _ => FsOp.Plain.inTable) hs
  obtain ⟨s', hs', hiff⟩ := hput 1 hr hone hv h0
  refine ⟨s, hs, hb, hbit, s', hs', ?_⟩
  rw [← Bool.not_eq_true, hiff 30 (by decide)]
  exact fun hc => hc.2 ⟨0, hown⟩

/-- Three inodes: a root directory with the entries `x`, for inode `entry`, `f` and `g`; `f`, a file of eleven blocks;
    and `g`, a file whose only block is 41. The first block of `f` reads as an inode with one link whose only block is
    `addr`, and the first free block, 42, starts with the number `word`. -/
def seededImage (entry addr word : Nat) : Image :=
  .ofFiles { size := 1024, ninodes := 200 } [(T_DIR, 1), (T_FILE, 11), (T_FILE, 1)] fun b =>
    if b = 29 then
      blit (blit (blit (fun _ => 0) 0 16 (direntBytes entry [120])) 16 16 (direntBytes 2 [102])) 32 16
        (direntBytes 3 [103])
    else if b = 30 then putMeta (fun _ => 0) 0 ⟨T_FILE, 0, 0, 1, 512, fun k => if k = 0 then addr else 0⟩
    else if b = 42 then put32 (fun _ => 0) 0 word
    else fun _ => 0

theorem seededImage_sound (entry addr word : Nat) : (seededImage entry addr word).Sound :=
  Image.ofFiles_sound ⟨by decide, by decide, by decide⟩ (by decide) (by decide) (by decide) (by decide) (by decide)

/-- Load the root directory, open `f` and write past its last direct block. -/
def growFile : List FsOp :=
  [.namei 0 [47], .ilock 0, .iunlock 0, .namei 0 [47, 102], .ilock 1, .writei 1 (.kernel fun _ => 7) 5632 66,
    .iunlock 1]

/-- Enter inode 224, which the table does not have, as `x`: with `dirlink`, or with the same bytes. -/
def enterBeyond (raw : Bool) : List FsOp :=
  [.namei 0 [47], .ilock 0, if raw then .writei 0 (.kernel (direntBytes 224 [120])) 0 16 else .dirlink 0 [120] 224,
    .iunlock 0]

/-- What `unlink` of `g` ends with after a run. -/
def unlinkAfter (im : Image) (ops : List FsOp) : Option (Except Stop Unit) :=
  (run fsStep im.start ops).map fun s => (exec (FsOp.unlink 0 [47, 103]).run s).1

/-- **What the two conditions are for.** A free block that is not zero becomes an indirect block with a block of
    another file in it. An entry for an inode the table does not have, in the image or made by `dirlink` or `writei`,
    lets `unlink` free a block of another file, which is then freed again with that file. -/
theorem fsOps_shared_or_refreed :
    (Formatted (seededImage 0 0 41).sb (seededImage 0 0 41).disk ∧ (seededImage 0 0 41).start.Unused ∧
      ∃ s, run fsStep (seededImage 0 0 41).start growFile = some s ∧
        ¬ BlockOwnership (seededImage 0 0 41).sb (dmeta (s.disk ROOTDEV)) (s.disk ROOTDEV)) ∧
    ∀ c ∈ [(224, []), (0, enterBeyond false), (0, enterBeyond true)],
      Formatted (seededImage c.1 41 0).sb (seededImage c.1 41 0).disk ∧ (seededImage c.1 41 0).start.Unused ∧
      ∃ s, run fsStep (seededImage c.1 41 0).start (c.2 ++ [.unlink 0 [47, 120]]) = some s ∧
        (exec (FsOp.unlink 0 [47, 103]).run s).1 = .error (.panic "freeing free block") := by
  constructor
  · have hrun : (run fsStep (seededImage 0 0 41).start growFile).map (fun s =>
        (ownOf (seededImage 0 0 41).sb (dmeta (s.disk ROOTDEV)) (s.disk ROOTDEV) (2, 12),
          ownOf (seededImage 0 0 41).sb (dmeta (s.disk ROOTDEV)) (s.disk ROOTDEV) (3, 0),
          bit (seededImage 0 0 41).sb (s.disk ROOTDEV) 41)) = some (some 41, some 41, true) := by decide +kernel
    obtain ⟨s, hs, heq⟩ := Option.map_eq_some_iff.mp hrun
    simp only [Prod.mk.injEq] at heq
    obtain ⟨h2, h3, hb⟩ := heq
    refine ⟨(seededImage_sound ..).formatted, Image.start_unused _, s, hs, fun hc => ?_⟩
    obtain ⟨p, -, huniq⟩ := (hc 41 (by decide) (by decide)).mp hb
    exact absurd ((huniq _ h2).trans (huniq _ h3).symm) (by decide)
  · have hrun : ∀ c ∈ [(224, []), (0, enterBeyond false), (0, enterBeyond true)],
        unlinkAfter (seededImage c.1 41 0) (c.2 ++ [.unlink 0 [47, 120]]) =
          some (.error (.panic "freeing free block")) := by
      simp only [List.forall_mem_cons, List.not_mem_nil, false_imp_iff, implies_true, and_true]
      exact ⟨by decide +kernel, by decide +kernel, by decide +kernel⟩
    intro c hc
    obtain ⟨s, hs, heq⟩ := Option.map_eq_some_iff.mp (hrun c hc)
    exact ⟨(seededImage_sound ..).formatted, Image.start_unused _, s, hs, heq⟩

/-! ## The inode cache -/

/-- Loading an allocated inode into a slot that has none. -/
theorem ilock_reload {j : Inode} {y : Slot} (hdev : j.dev = ROOTDEV) (href : 1 ≤ j.ref) (hbusy : j.busy = false)
    (hvalid : j.valid = false) (ht : (dmeta (s.disk ROOTDEV) j.inum).type ≠ 0) :
    ∃ s', exec (ilock y) (s.setInode y j) = (.ok (), s') ∧ s'.disk = s.disk ∧
      (s'.icache y).toMeta = dmeta (s.disk ROOTDEV) j.inum := by
  have hload : wp (ilock y) (fun _ s' => s'.disk = s.disk ∧ (s'.icache y).toMeta = dmeta (s.disk ROOTDEV) j.inum)
      (fun _ _ => False) (s.setInode y j) := by
    unfold ilock
    rw [wp_bind, wp_inode, setInode_icache, Function.update_self, if_neg (by omega), if_neg (by simp [hbusy]), wp_bind,
      wp_modInode, if_neg (by simp [hvalid]), wp_bind, wp_bread, wp_bind, wp_modInode, wp_ite]
    simp only [setInode_disk, setInode_icache, Function.update_self, hdev]
    refine ⟨fun h0 => ht h0, fun _ => ?_⟩
    rw [wp_pure]
    refine ⟨rfl, ?_⟩
    simp only [setInode_icache, Function.update_self]
    rfl
  obtain ⟨_, s', hrun, hd, hm⟩ := wp_total hload
  exact ⟨s', hrun, hd, hm⟩

/-- **Cache coherence.** In the same runs, between operations a slot in use whose inode is loaded has the metadata that
    is stored, locked or not; so the inode can be dropped from it and loaded again, there or in another slot, and
    nothing is lost. -/
theorem fsOps_cacheCoherent {ops : List FsOp} (hf : Formatted sb (s₀.disk ROOTDEV))
    (hz : FreeZero sb (s₀.disk ROOTDEV)) (he : EntriesInTable sb (s₀.disk ROOTDEV)) (hu : s₀.Unused)
    (hops : Along fsStep (fun s op => op.InTable sb s) s₀ ops) (hrun : run fsStep s₀ ops = some s)
    (hr : s.Referenced x) (hv : (s.icache x).valid = true) :
    (s.icache x).toMeta = dmeta (s.disk ROOTDEV) (s.icache x).inum ∧
    ∀ (y : Slot) (j : Inode), j.dev = (s.icache x).dev → j.inum = (s.icache x).inum → 1 ≤ j.ref → j.busy = false →
      j.valid = false → ∃ s', exec (ilock y) (s.setInode y j) = (.ok (), s') ∧ s'.disk = s.disk ∧
        (s'.icache y).toMeta = (s.icache x).toMeta := by
  obtain ⟨refs, held, h⟩ := fsRun_ok hf hz he hu hops hrun
  have hx := h.mem_refs.mpr hr
  obtain ⟨hm, ht⟩ := h.core.cache.coh x hx hv
  refine ⟨hm, fun y j hdev hinum href hbusy hvalid => ?_⟩
  rw [h.core.cache.dev x hx] at hdev
  rw [← hinum] at hm ht
  obtain ⟨s', hex, hd, hload⟩ := ilock_reload (y := y) hdev href hbusy hvalid ht
  exact ⟨s', hex, hd, hload.trans hm.symm⟩

/-- The file written to and removed is still what is stored. -/
theorem fsOps_cacheCoherent_unlinked : ∃ s, run fsStep mkfsImage.start writeUnlink = some s ∧
    (s.icache 1).size = 2 ∧ (s.icache 1).toMeta = dmeta (s.disk ROOTDEV) 2 := by
  have hrun : (run fsStep mkfsImage.start writeUnlink).map (fun s => (decide (s.Referenced 1), (s.icache 1).inum,
      (s.icache 1).valid, (s.icache 1).size)) = some (true, 2, true, 2) := by
    decide +kernel
  obtain ⟨s, hs, heq⟩ := Option.map_eq_some_iff.mp hrun
  simp only [Prod.mk.injEq, decide_eq_true_eq] at heq
  obtain ⟨hr, hinum, hv, hsize⟩ := heq
  have hplain : Along fsStep (fun s op => op.Plain mkfsImage.sb s) mkfsImage.start writeUnlink :=
    .of_check (by decide +kernel)
  have hcoh := @fsOps_cacheCoherent s mkfsImage.start 1 mkfsImage.sb writeUnlink
    mkfsImage_sound.formatted mkfsImage_freeZero mkfsImage_entries mkfsImage.start_unused
    (hplain.imp fun _ _ => FsOp.Plain.inTable) hs hr hv
  rw [hinum] at hcoh
  exact ⟨s, hs, hsize, hcoh.1⟩

/-- After these operations on this image the cache holds the root directory as a directory, and the disk does not. -/
def StaleRoot (im : Image) (ops : List FsOp) : Prop :=
  Formatted im.sb im.disk ∧ im.start.Unused ∧
    ∃ s, run fsStep im.start ops = some s ∧ s.Referenced 0 ∧ (s.icache 0).busy = false ∧ (s.icache 0).valid = true ∧
      (s.icache 0).inum = 1 ∧ (s.icache 0).type = T_DIR ∧ (dmeta (s.disk ROOTDEV) 1).type ≠ T_DIR

theorem StaleRoot.of_run {im : Image} {ops : List FsOp} (hsound : im.Sound)
    (hrun : (run fsStep im.start ops).map (fun s => (decide (s.Referenced 0), (s.icache 0).busy, (s.icache 0).valid,
      (s.icache 0).inum, (s.icache 0).type, decide ((dmeta (s.disk ROOTDEV) 1).type ≠ T_DIR))) =
      some (true, false, true, 1, T_DIR, true)) : StaleRoot im ops := by
  obtain ⟨s, hs, heq⟩ := Option.map_eq_some_iff.mp hrun
  simp only [Prod.mk.injEq, decide_eq_true_eq] at heq
  exact ⟨hsound.formatted, Image.start_unused _, s, hs, heq⟩

/-- **The same conditions again.** A write through a free block that was not zero, or the removal of an inode the
    table does not have, changes the stored root directory behind the cache's back. -/
theorem fsOps_stale_root :
    StaleRoot (seededImage 0 0 2) growFile ∧
      StaleRoot (seededImage 224 2 0) [.namei 0 [47], .ilock 0, .iunlock 0, .unlink 0 [47, 120]] ∧
      StaleRoot (seededImage 0 2 0) (enterBeyond false ++ [.unlink 0 [47, 120]]) ∧
      StaleRoot (seededImage 0 2 0) (enterBeyond true ++ [.unlink 0 [47, 120]]) := by
  refine ⟨.of_run (seededImage_sound ..) ?_, .of_run (seededImage_sound ..) ?_, .of_run (seededImage_sound ..) ?_,
    .of_run (seededImage_sound ..) ?_⟩
  · decide +kernel
  · decide +kernel
  · decide +kernel
  · decide +kernel

end Xv6
