import Xv6.Tools.MkfsPlan

/-!
# `Tools.MkfsImage` — the images `mkfs` makes

`mkfs` never compares an inode number with `ninodes`. As long as the directory has few enough inodes the image is
well formed; one more and the last inode is outside the table that the superblock announces.
-/

namespace Xv6.Mkfs

open Bytes Hoare Ownership

variable {A : Plan} {s s' : Mk} {i j k n b : Nat}

/-! ## The bitmap -/

theorem hasBit_bitmap (used k : Nat) : hasBit (bitmap used) k = decide (k < used) := by
  induction used with
  | zero =>
    rw [decide_eq_false (Nat.not_lt_zero k)]
    show ((0 : UInt8) &&& bitMask k != 0) = false
    rw [UInt8.zero_and]
    rfl
  | succ used ih =>
    rw [bitmap, List.range_succ, List.foldl_append, ← bitmap]
    show hasBit (setBit (bitmap used) used) k = _
    rw [hasBit_setBit, ih, Bool.eq_iff_iff, Bool.or_eq_true, decide_eq_true_eq, decide_eq_true_eq, decide_eq_true_eq]
    omega

/-- Writing the bitmap leaves the files as they are. -/
theorem Holds.setBitmap (h : Holds A s) (y : Arr) : Holds A (s.setSector 28 y) := by
  have hfb := h.base.freeblock_le
  have hdisk : ∀ c, c ≠ 28 → (s.setSector 28 y).disk c = s.disk c := fun c hc => Function.update_of_ne hc ..
  have hd : ∀ j < 207, dmeta (s.setSector 28 y).disk j = dmeta s.disk j :=
    fun j hj => @dmeta_update tableSb s.disk 28 j y (Nat.le_refl _) hj
  have hne : ∀ {x c}, s.own (dmeta s.disk) x = some c → c ≠ 28 := by
    intro x c hc
    have := h.base.own_lt hc
    omega
  have hown : (s.setSector 28 y).own (dmeta (s.setSector 28 y).disk) = s.own (dmeta s.disk) := by
    rw [Mk.own_congr hd]
    exact ownOf_congr_disk fun j c hc => hdisk c (hne hc)
  have hfile : ∀ j, (s.setSector 28 y).file (dmeta (s.setSector 28 y).disk) j = s.file (dmeta s.disk) j := by
    intro j
    rw [Mk.file, hown]
    exact contents_congr (fun _ => rfl) fun _ c _ hc => hdisk c (hne hc)
  refine ⟨⟨?_, h.base.sectors, h.base.used, h.base.next, fun i hi => ?_, fun i _ => getMeta_fits _ _, ?_, fun c hc o ho => ?_,
    h.base.written⟩, h.room, h.next, fun j h1 hj => ?_⟩
  · rw [hdisk 1 (by decide)]; exact h.base.super
  · rw [hd i hi]; exact h.base.live i hi
  · rw [hown]; exact h.base.owns
  · have hc' : s.freeblock ≤ c := hc
    rw [hdisk c (by omega)]; exact h.base.zero c hc' o ho
  · exact (h.inode j h1 hj).congr rfl rfl rfl (hd j (h.lt hj)) (fun m => by rw [hown]) (hfile j)

/-- **The bitmap** marks the blocks below `freeblock`. -/
theorem balloc_holds {E : MkStop → Mk → Prop} (h : Holds A s) :
    wp (do balloc (← get).usedblocks) (fun _ s' => Holds A s' ∧ s'.disk 28 = bitmap s'.freeblock) E s := by
  have hle := h.room
  unfold balloc
  simp only [wp_bind, wp_get, wp_require]
  refine ⟨fun _ => ?_, fun hc => absurd ?_ hc⟩
  · rw [show ninodes / IPB + 3 = 28 from rfl, wp_wsect (by rw [h.base.sectors]; decide), h.base.used]
    refine ⟨h.setBitmap _, ?_⟩
    show Function.update s.disk 28 (bitmap s.freeblock) 28 = bitmap s.freeblock
    rw [Function.update_self]
  · rw [h.base.used]; omega

/-! ## The whole run -/

/-- Inodes that the image of a directory has. -/
def inodesOf : Option Listing → Nat
  | none => 1
  | some entries => 1 + entries.inodes

/-- The image has room for the directory. -/
def Room : Option Listing → Prop
  | none => True
  | some entries => entries.Short 32 ∧ 37 + entries.cost ≤ 1024

theorem empty_holds : Holds Plan.empty Mk.empty :=
  ⟨empty_base, by decide, rfl, fun i h1 hi => absurd hi (Nat.not_lt_of_le h1)⟩

/-- **`add_dir` of the root directory.** -/
theorem addDir_holds (rootDir : Option Listing) (h : Holds (Plan.empty.alloc T_DIR) s) (hfb : s.freeblock = 29)
    (hn : inodesOf rootDir ≤ 206) :
    wp (addDir rootDir ROOTINO ROOTINO) (fun _ s' => Holds (planRoot rootDir) s') (fun _ _ => ¬ Room rootDir) s := by
  have hroot : 1 ≤ ROOTINO ∧ ROOTINO < (Plan.empty.alloc T_DIR).next := ⟨Nat.le_refl _, Nat.lt_succ_self _⟩
  have he : (Plan.empty.alloc T_DIR).Exact ROOTINO := Plan.empty.exact_alloc T_DIR
  have hs0 : (Plan.empty.alloc T_DIR).size ROOTINO = 0 := Plan.empty.alloc_size T_DIR
  unfold addDir
  rw [wp_bind]
  refine wp_mono (addDots_holds h hroot he) ?_ fun _ _ hf _ => hf ⟨by rw [hs0]; decide, by omega⟩
  rintro _ s1 ⟨h1, hfb1⟩
  cases rootDir with
  | none => exact h1
  | some entries =>
    have he1 := he.dots ROOTINO ROOTINO
    rw [inodesOf] at hn
    show wp (addEntries ROOTINO entries >>= fun _ => fixSize ROOTINO) _ _ s1
    rw [wp_bind]
    refine wp_mono (addEntries_holds entries h1 hroot he1 ?_) ?_ ?_
    · show 2 + entries.inodes ≤ 207
      omega
    · rintro _ s2 ⟨h2, -⟩
      have hnext := planEntries_next entries ROOTINO ((Plan.empty.alloc T_DIR).dots ROOTINO ROOTINO)
      refine wp_mono (fixSize_holds h2 ⟨hroot.1, ?_⟩ (planEntries_exact entries _ he1 hroot.2)) ?_ fun _ _ hf => hf.elim
      · rw [hnext]; exact Nat.lt_of_lt_of_le hroot.2 (Nat.le_add_right ..)
      · rintro _ s3 ⟨h3, -⟩
        exact h3
    · rintro _ _ hf hr
      rw [Plan.dots_size, hs0] at hf
      exact hf ⟨hr.1, by have := hr.2; omega⟩

/-- **The image holds the plan** of the directory, and its bitmap marks the blocks below `freeblock`. -/
theorem main_spec (rootDir : Option Listing) (hn : inodesOf rootDir ≤ 206) :
    wp (main rootDir) (fun _ s => Holds (planRoot rootDir) s ∧ s.disk 28 = bitmap s.freeblock)
      (fun _ _ => ¬ Room rootDir) Mk.init := by
  unfold main
  rw [wp_bind]
  apply mkfs_spec
  rw [wp_bind]
  refine wp_mono (ialloc_holds empty_holds ⟨Nat.le_refl _, by decide⟩ ⟨by decide, by decide⟩) ?_ fun _ _ hf => hf.elim
  rintro _ s1 ⟨rfl, h1, hfb1⟩
  rw [wp_bind, wp_require]
  refine ⟨fun _ => ?_, fun hc => absurd rfl hc⟩
  rw [wp_bind]
  refine wp_mono (addDir_holds rootDir h1 hfb1 hn) ?_ fun _ _ hf => hf
  intro _ s2 h2
  exact balloc_holds h2

/-! ## How many inodes -/

/-- A routine that makes no inode. -/
def NoInode {α : Type} (m : MkM α) : Prop := ∀ n, Stable (·.freeinode = n) (fun _ _ => True) m

namespace NoInode

variable {α β : Type}

theorem pure (a : α) : NoInode (pure a : MkM α) := fun _ => .pure a

theorem bind {m : MkM β} {f : β → MkM α} (hm : NoInode m) (hf : ∀ b, NoInode (f b)) : NoInode (m >>= f) :=
  fun n => (hm n).bind fun b => hf b n

theorem ite {c : Prop} [Decidable c] {m m' : MkM α} (hm : NoInode m) (hm' : NoInode m') :
    NoInode (if c then m else m') := fun n => (hm n).ite (hm' n)

theorem forM {l : List β} {f : β → MkM PUnit} (hf : ∀ x, NoInode (f x)) : NoInode (l.forM f) :=
  fun n => .forM fun x => hf x n

theorem modify {f : Mk → Mk} (hf : ∀ s, (f s).freeinode = s.freeinode) : NoInode (modify f : MkM PUnit) :=
  fun _ => .modify fun s hs => (hf s).trans hs

theorem throw (e : MkStop) : NoInode (throw e : MkM α) := fun _ => .throw fun _ _ => trivial

theorem get : NoInode (get : MkM Mk) := fun _ => .get

theorem rsect (sec : Nat) : NoInode (rsect sec) := .bind .get fun _ => .ite (.pure _) (.throw _)

theorem wsect (sec : Nat) (buf : Arr) : NoInode (wsect sec buf) := .modify fun _ => rfl

theorem takeBlock : NoInode takeBlock := fun _ _ hs => hs

theorem require (c : Prop) [Decidable c] : NoInode (require c) := .ite (.pure ()) (.throw _)

theorem winode (inum : Nat) (din : Dinode) : NoInode (winode inum din) :=
  .bind (.rsect _) fun _ => .bind (.wsect _ _) fun _ => .modify fun _ => rfl

theorem rinode (inum : Nat) : NoInode (rinode inum) := .bind (.rsect _) fun _ => .pure _

theorem addrFor (din : Dinode) (k : Nat) : NoInode (addrFor din k) := .ite (.bind .takeBlock fun _ => .pure _) (.pure _)

theorem blockFor (din : Dinode) (fbn : Nat) : NoInode (blockFor din fbn) :=
  .ite (.addrFor din fbn) <| .bind (.addrFor din _) fun r => .bind (.rsect r.2) fun _ =>
    .ite (.bind .takeBlock fun _ => .bind (.wsect _ _) fun _ => .pure _) (.pure _)

theorem iappendLoop (fuel : Nat) : ∀ (din : Dinode) (off : Nat) (p : List UInt8), NoInode (iappendLoop fuel din off p) := by
  induction fuel with
  | zero => exact fun din off p => .pure _
  | succ fuel ih =>
    intro din off p
    exact .ite (.pure _) <| .bind (.require _) fun _ => .bind (.blockFor din _) fun r => .bind (.rsect _) fun _ =>
      .bind (.wsect _ _) fun _ => ih _ _ _

theorem iappend (inum : Nat) (p : List UInt8) : NoInode (iappend inum p) :=
  .bind (.rinode inum) fun _ => .bind (.iappendLoop _ _ _ _) fun _ => .winode _ _

theorem addDots (cur parent : Nat) : NoInode (addDots cur parent) := .bind (.iappend _ _) fun _ => .iappend _ _

theorem fixSize (cur : Nat) : NoInode (fixSize cur) := .bind (.rinode cur) fun _ => .winode _ _

theorem mkfs (a b c : Nat) : NoInode (mkfs a b c) := by
  unfold Mkfs.mkfs
  exact .bind (.modify fun _ => rfl) fun _ => .bind (.require _) fun _ => .bind (.forM fun _ => .wsect _ _) fun _ => .wsect _ _

theorem balloc (used : Nat) : NoInode (balloc used) := .bind (.require _) fun _ => .wsect _ _

end NoInode

/-- A routine that makes `k` inodes, whenever it completes. -/
def Makes {α : Type} (k : Nat) (m : MkM α) : Prop :=
  ∀ n, Triple (·.freeinode = n) m (fun _ s => s.freeinode = n + k) fun _ _ => True

namespace Makes

variable {α β : Type}

theorem none {m : MkM α} (h : NoInode m) : Makes 0 m := fun n s hs => h n s hs

theorem bind {k l : Nat} {m : MkM β} {f : β → MkM α} (hm : Makes k m) (hf : ∀ b, Makes l (f b)) :
    Makes (k + l) (m >>= f) := by
  intro n
  refine Triple.bind (hm n) fun b => ?_
  rw [← Nat.add_assoc]
  exact hf b (n + k)

theorem ialloc (type : Int) : Makes 1 (ialloc type) := by
  intro n s hs
  unfold Mkfs.ialloc
  simp only [wp_bind, wp_get, wp_set]
  refine wp_post (NoInode.winode s.freeinode (newDinode type) (n + 1) _ ?_) fun _ s' h => h
  show s.freeinode + 1 = n + 1
  rw [hs]

theorem addEntries (l : Listing) : ∀ cur, Makes l.inodes (addEntries cur l) := by
  induction l with
  | done => exact fun cur => .none (.pure _)
  | fail => exact fun cur => .none (.throw _)
  | file name reads rest ih =>
    intro cur
    rw [Mkfs.addEntries, Listing.inodes]
    split
    · rw [Nat.zero_add]; exact ih cur
    · have htail : ∀ c, Makes (0 + (0 + rest.inodes)) (do
          reads.forM (Mkfs.iappend c); Mkfs.iappend cur (dirent c (cstr name)); Mkfs.addEntries cur rest) := fun c =>
        .bind (.none (.forM fun _ => .iappend c _)) fun _ => .bind (.none (.iappend _ _)) fun _ => ih cur
      simp only [Nat.zero_add] at htail
      exact .bind (.ialloc _) htail
  | dir name sub rest ihs ih =>
    intro cur
    rw [Mkfs.addEntries, Listing.inodes]
    split
    · rw [Nat.zero_add]; exact ih cur
    · have htail : ∀ c, Makes (0 + (sub.inodes + (0 + (0 + rest.inodes)))) (do
          Mkfs.addDots c cur; Mkfs.addEntries c sub; Mkfs.fixSize c; Mkfs.iappend cur (dirent c (cstr name))
          Mkfs.addEntries cur rest) := fun c =>
        .bind (.none (.addDots _ _)) fun _ => .bind (ihs c) fun _ => .bind (.none (.fixSize _)) fun _ =>
          .bind (.none (.iappend _ _)) fun _ => ih cur
      simp only [Nat.zero_add] at htail
      rw [Nat.add_assoc]
      exact .bind (.ialloc _) htail
  | closed name rest ih =>
    intro cur
    rw [Mkfs.addEntries, Listing.inodes]
    split
    · rw [Nat.zero_add]; exact ih cur
    · have htail : ∀ c, Makes (0 + (0 + rest.inodes)) (do
          Mkfs.addDots c cur; Mkfs.iappend cur (dirent c (cstr name)); Mkfs.addEntries cur rest) := fun c =>
        .bind (.none (.addDots _ _)) fun _ => .bind (.none (.iappend _ _)) fun _ => ih cur
      simp only [Nat.zero_add] at htail
      exact .bind (.ialloc _) htail

/-- What was counted, of a run that completed. -/
theorem freeinode {k : Nat} {m : MkM α} {a : α} {s₀ s : Mk} (h : Makes k m) (hrun : exec m s₀ = (.ok a, s)) :
    s.freeinode = s₀.freeinode + k := by
  have hcount := wp_ok (h s₀.freeinode s₀ rfl) hrun
  exact hcount

end Makes

/-- **How many inodes the image has**, also when they are too many. -/
theorem main_freeinode {rootDir : Option Listing} (hrun : exec (main rootDir) Mk.init = (.ok (), s)) :
    s.freeinode = 1 + inodesOf rootDir := by
  have hdir : ∀ r, Makes (inodesOf rootDir - 1) (addDir rootDir r r) := by
    intro r
    cases rootDir with
    | none => exact .none (.bind (.addDots r r) fun _ => .pure _)
    | some entries =>
      have h : Makes (0 + (entries.inodes + 0)) (addDir (some entries) r r) :=
        .bind (.none (.addDots r r)) fun _ => .bind (.addEntries entries r) fun _ => .none (.fixSize r)
      rwa [Nat.zero_add, Nat.add_zero, ← Nat.add_sub_cancel_left 1 entries.inodes] at h
  have hmain : Makes (0 + (1 + (0 + (inodesOf rootDir - 1 + 0)))) (main rootDir) := by
    unfold main
    exact .bind (.none (.mkfs _ _ _)) fun _ => .bind (.ialloc _) fun r => .bind (.none (.require _)) fun _ =>
      .bind (hdir r) fun _ => .none (.bind .get fun _ => .balloc _)
  have h := hmain.freeinode hrun
  have hinit : Mk.init.freeinode = 1 := rfl
  have hpos : 1 ≤ inodesOf rootDir := by cases rootDir <;> simp only [inodesOf] <;> omega
  omega

/-! ## Well-formed images -/

/-- **A well-formed image**: the inodes are in the table, the blocks they and their indirect blocks name are data
    blocks of the image, each named once; `winode` wrote inode blocks only; and the bitmap marks what comes before
    the data and the blocks named. -/
structure WellFormed (s : Mk) : Prop where
  inums : ∀ i, 1 ≤ i → i < s.freeinode → i < ninodes
  range : ∀ i k, 1 ≤ i → i < s.freeinode → k < NPTR → ptr s.disk (dmeta s.disk i) k ≠ 0 →
    imageSb.dataStart ≤ ptr s.disk (dmeta s.disk i) k ∧ ptr s.disk (dmeta s.disk i) k < size
  once : ∀ i k j l, 1 ≤ i → i < s.freeinode → k < NPTR → 1 ≤ j → j < s.freeinode → l < NPTR →
    ptr s.disk (dmeta s.disk i) k ≠ 0 → ptr s.disk (dmeta s.disk i) k = ptr s.disk (dmeta s.disk j) l → i = j ∧ k = l
  inodeWrites : ∀ b ∈ s.written, 2 ≤ b ∧ b < imageSb.bitStart
  bitmap : ∀ b < BPB, bit imageSb s.disk b = true ↔ b < imageSb.dataStart ∨
    ∃ i k, 1 ≤ i ∧ i < s.freeinode ∧ k < NPTR ∧ ptr s.disk (dmeta s.disk i) k = b

/-- The pointers of an inode of the image. -/
theorem Holds.ptr_eq (h : Holds A s) (hi : 1 ≤ i ∧ i < s.freeinode) (hk : k < NPTR)
    (h0 : ptr s.disk (dmeta s.disk i) k ≠ 0) :
    s.own (dmeta s.disk) (i, k) = some (ptr s.disk (dmeta s.disk i) k) := by
  obtain ⟨hlt, ht⟩ := h.base.alive hi
  exact ownOf_eq_some.mpr ⟨hlt, ht, hk, rfl, h0⟩

/-- The bit of a block in the image. -/
theorem bit_image (hb : b < BPB) : bit imageSb s.disk b = hasBit (s.disk 28) b := by
  have hblk : BBLOCK b imageSb.ninodes = 28 := by
    show b / BPB + 200 / 8 + 3 = 28
    rw [Nat.div_eq_of_lt hb]
  rw [bit, hblk, Nat.mod_eq_of_lt hb]

theorem Holds.wellFormed (h : Holds A s) (hn : s.freeinode ≤ 200) (hmap : s.disk 28 = Mkfs.bitmap s.freeblock) :
    WellFormed s := by
  have hroom := h.room
  refine ⟨fun i _ hi => Nat.lt_of_lt_of_le hi hn, fun i k h1 hi hk h0 => ?_, fun i k j l h1 hi hk h2 hj hl h0 heq => ?_,
    h.base.written, fun b hb => ?_⟩
  · have := h.base.own_lt (h.ptr_eq ⟨h1, hi⟩ hk h0)
    exact ⟨this.1, Nat.lt_of_lt_of_le this.2 hroom⟩
  · have hi' := h.ptr_eq ⟨h1, hi⟩ hk h0
    have hj' := h.ptr_eq ⟨h2, hj⟩ hl (heq ▸ h0)
    rw [← heq] at hj'
    exact Prod.mk.inj (h.base.owns.inj hi' hj')
  · rw [bit_image hb, hmap, hasBit_bitmap, decide_eq_true_eq, h.base.owns.used_iff b]
    constructor
    · rintro (hlt | ⟨⟨i, k⟩, hk⟩)
      · exact .inl hlt
      · obtain ⟨hlt, ht, hkp, hptr, -⟩ := ownOf_eq_some.mp hk
        obtain ⟨h1, hi⟩ := (h.base.live i hlt).mp ht
        exact .inr ⟨i, k, h1, hi, hkp, hptr⟩
    · rintro (hlt | ⟨i, k, h1, hi, hkp, hptr⟩)
      · exact .inl hlt
      · by_cases h0 : b = 0
        · rw [h0]; exact .inl (by decide)
        · exact .inr ⟨(i, k), hptr ▸ h.ptr_eq ⟨h1, hi⟩ hkp (hptr.symm ▸ h0)⟩

/-- **The image is well formed** exactly when all inodes of the directory fit into the inode table. -/
theorem mkfs_wellFormed_iff (rootDir : Option Listing) (s : Mk) (hrun : exec (main rootDir) Mk.init = (.ok (), s)) :
    WellFormed s ↔ inodesOf rootDir < ninodes := by
  have hcount := main_freeinode hrun
  constructor
  · intro h
    have hpos : 1 ≤ inodesOf rootDir := by cases rootDir <;> simp only [inodesOf] <;> omega
    exact h.inums (inodesOf rootDir) hpos (by omega)
  · intro hn
    obtain ⟨h, hmap⟩ := wp_ok (main_spec rootDir (Nat.le_of_lt (Nat.lt_of_lt_of_le hn (by decide)))) hrun
    exact h.wellFormed (by simp only [ninodes] at hn; omega) hmap

/-- A directory of `n` empty files `f`. -/
def emptyFiles : Nat → Listing
  | 0 => .done
  | n + 1 => .file [102] [] (emptyFiles n)

theorem emptyFiles_inodes (n : Nat) : (emptyFiles n).inodes = n := by
  induction n with
  | zero => rfl
  | succ n ih => rw [emptyFiles, Listing.inodes, ih, if_neg (by decide), Nat.add_comm]

theorem emptyFiles_cost (n : Nat) : (emptyFiles n).cost = 4 * n := by
  induction n with
  | zero => rfl
  | succ n ih =>
    rw [emptyFiles, Listing.cost, ih, if_neg (by decide), List.map_nil, List.sum_nil]
    omega

theorem emptyFiles_short (n m : Nat) (h : m + 16 * n ≤ MAXFILE * BSIZE) : (emptyFiles n).Short m := by
  induction n generalizing m with
  | zero => exact h
  | succ n ih =>
    rw [emptyFiles, Listing.Short, if_neg (by decide)]
    exact ⟨by decide, ih _ (by omega)⟩

/-- The image of a directory with room completes. -/
theorem main_completes {rootDir : Option Listing} (hn : inodesOf rootDir ≤ 206) (hr : Room rootDir) :
    ∃ s, exec (main rootDir) Mk.init = (.ok (), s) := by
  obtain ⟨_, s, hs, -⟩ := wp_total (wp_mono (main_spec rootDir hn) (fun _ _ h => h) fun _ _ hf => hf hr)
  exact ⟨s, hs⟩

theorem emptyFiles_completes {n : Nat} (hn : n ≤ 205) : ∃ s, exec (main (some (emptyFiles n))) Mk.init = (.ok (), s) := by
  refine main_completes (by rw [inodesOf, emptyFiles_inodes]; omega) ⟨emptyFiles_short n 32 ?_, ?_⟩
  · simp only [MAXFILE, BSIZE]; omega
  · rw [emptyFiles_cost]; omega

/-- A subdirectory `d` with a file `f` of twelve blocks, one more than an inode names itself, and an empty file `g`. -/
def smallTree : Listing :=
  .dir [100] (.file [102] (List.replicate 12 (List.replicate BSIZE 97)) .done) (.file [103] [] .done)

theorem smallTree_room : Room (some smallTree) := by
  have hd : ¬ Skipped [100] := by decide
  have hf : ¬ Skipped [102] := by decide
  have hg : ¬ Skipped [103] := by decide
  rw [Room, smallTree]
  simp only [Listing.Short, Listing.cost, if_neg hd, if_neg hf, if_neg hg, List.map_replicate, List.length_replicate,
    appendCost, List.sum_replicate, List.map_nil, List.sum_nil]
  decide

/-- It gives a well-formed image. -/
theorem mkfs_wellFormed_smallTree : ∃ s, exec (main (some smallTree)) Mk.init = (.ok (), s) ∧ WellFormed s := by
  obtain ⟨s, hs⟩ := @main_completes (some smallTree) (by decide) smallTree_room
  exact ⟨s, hs, (mkfs_wellFormed_iff (some smallTree) s hs).mpr (by decide)⟩

/-- With 199 files the last inode has number 200, and `mkfs` still exits with status 0. -/
theorem mkfs_inodes_overflow :
    ∃ s, exec (main (some (emptyFiles 199))) Mk.init = (.ok (), s) ∧ ¬ WellFormed s := by
  obtain ⟨s, hs⟩ := @emptyFiles_completes 199 (by decide)
  refine ⟨s, hs, fun h => ?_⟩
  have hcount := main_freeinode hs
  rw [inodesOf, emptyFiles_inodes] at hcount
  exact absurd (h.inums 200 (by decide) (by omega)) (by decide)

end Xv6.Mkfs
