import Xv6.Fs.Sequences
import Xv6.Sys.TagOps

/-!
# `Sys.TagRuns` — file and tag operations in one machine

A tag block is taken from the free blocks with `balloc` and never given back; no pointer of an inode names it. In the
volume's invariant it is a block set aside, and the `tags` field of a cache slot is zero or the number of such a block.
File operations leave these blocks alone, tag operations change nothing else on the disk.
-/

namespace Xv6

open Bytes Hoare Ownership Machine

variable {B : Env} {refs K : Multiset Slot} {held : Finset Slot} {s s' s₀ : Fs} {x : Slot} {sb : Superblock}
  {R : Nat → Option Arr} {own : Nat × Nat → Option Nat} {d : Disk} {b : Nat}

/-! ## Blocks set aside -/

/-- **Setting a free block aside.** -/
theorem Alloc.setAside (h : Alloc sb R own d) (hb : b < sb.nbits) (hfree : bit sb d b = false) :
    Alloc sb (Function.update R b (some (d b))) own (mark sb d b) := by
  have hge := h.free_range hfree
  have hmark : mark sb d b b = d b := mark_of_ne hb (.inr hge)
  have hres : ∀ c, Reserved sb (Function.update R b (some (d b))) c ↔ c = b ∨ Reserved sb R c := by
    intro c
    unfold Reserved
    by_cases hc : c = b
    · rw [hc, Function.update_self]
      exact ⟨fun _ => .inl rfl, fun _ => .inr rfl⟩
    · rw [Function.update_of_ne hc]
      exact ⟨.inr, fun hr => hr.resolve_left hc⟩
  refine ⟨h.super_mark hb, h.ok, ⟨h.owns.inj, fun {k c} hk hr => ?_, fun c => ?_⟩, h.zero_mark hb, fun c y hy => ?_,
    fun c hc => ?_⟩
  · rcases (hres c).mp hr with rfl | hr
    · exact not_used hfree (h.owns.used_of_own hk)
    · exact h.owns.sep hk hr
  · rw [used_mark hb, hres, h.owns.used_iff, or_assoc]
  · by_cases hcb : c = b
    · rw [hcb, Function.update_self] at hy
      rw [hcb, hmark]
      exact Option.some.inj hy
    · rw [Function.update_of_ne hcb] at hy
      exact h.keep_mark hb c y hy
  · by_cases hcb : c = b
    · rw [hcb]; exact hge
    · rw [Function.update_of_ne hcb] at hc
      exact h.data c hc

/-- **Writing a block set aside.** -/
theorem Alloc.rewrite (h : Alloc sb R own d) (hR : (R b).isSome) (y : Arr) :
    Alloc sb (Function.update R b (some y)) own (Function.update d b y) := by
  have hge := h.data b hR
  have hpos := bitStart_range sb
  have hused : Used sb d b := (h.owns.used_iff b).mpr (.inl (.inr hR))
  have hbits : ∀ c < sb.nbits, bit sb (Function.update d b y) c = bit sb d c := fun c hc => bit_update (.inr hge) hc
  have hsome : ∀ c, (Function.update R b (some y) c).isSome ↔ (R c).isSome := by
    intro c
    by_cases hc : c = b
    · rw [hc, Function.update_self]
      exact ⟨fun _ => hR, fun _ => rfl⟩
    · rw [Function.update_of_ne hc]
  have hres : ∀ c, Reserved sb (Function.update R b (some y)) c ↔ Reserved sb R c :=
    fun c => or_congr_right (hsome c)
  refine ⟨?_, h.ok, ⟨h.owns.inj, fun hk hr => h.owns.sep hk ((hres _).mp hr), fun c => ?_⟩, fun c hc hfree j hj => ?_,
    fun c z hz => ?_, fun c hc => h.data c ((hsome c).mp hc)⟩
  · rw [Function.update_of_ne (by omega)]
    exact h.super
  · rw [hres, ← h.owns.used_iff]
    exact and_congr_right fun hc => by rw [hbits c hc]
  · rw [hbits c hc] at hfree
    have hcb : c ≠ b := by
      rintro rfl
      exact not_used hfree hused
    rw [Function.update_of_ne hcb]
    exact h.zero c hc hfree j hj
  · by_cases hcb : c = b
    · rw [hcb, Function.update_self] at hz ⊢
      exact Option.some.inj hz
    · rw [Function.update_of_ne hcb] at hz ⊢
      exact h.keep c z hz

/-- A change of the disk outside the inodes and the blocks they hold. -/
theorem Ok.ofAlloc {d' : Disk} {R' : Nat → Option Arr} (h : Ok B refs held s)
    (halloc : Alloc B.sb R' (ownOf B.sb (dmeta (s.disk ROOTDEV)) (s.disk ROOTDEV)) d')
    (hown : ∀ p c, ownOf B.sb (dmeta (s.disk ROOTDEV)) (s.disk ROOTDEV) p = some c → d' c = s.disk ROOTDEV c)
    (hmeta : ∀ i < B.sb.ninodes, dmeta d' i = dmeta (s.disk ROOTDEV) i) :
    Ok ⟨B.sb, R', B.tg⟩ refs held (s.setDisk d') := by
  have ho : ownOf B.sb (dmeta (s.disk ROOTDEV)) d' = ownOf B.sb (dmeta (s.disk ROOTDEV)) (s.disk ROOTDEV) :=
    ownOf_congr_disk fun j c hc => hown _ c hc
  obtain ⟨href, hdev, hinum, huniq, hcoh, hbusy, hheld, htags⟩ := h.core.cache
  have hcore : Core ⟨⟨B.sb, R', B.tg⟩, dmeta (s.disk ROOTDEV), refs, held⟩ (s.setDisk d') := by
    refine ⟨⟨?_, fun i hi ht n hn => ?_, h.core.vol.fits⟩, href, hdev, hinum, huniq, hcoh, hbusy, hheld, htags⟩
    · rw [setDisk_disk]
      show Alloc B.sb R' (ownOf B.sb (dmeta (s.disk ROOTDEV)) d') d'
      rw [ho]
      exact halloc
    · rw [setDisk_disk]
      show ownOf B.sb (dmeta (s.disk ROOTDEV)) d' _ ≠ none
      rw [ho]
      exact h.core.vol.holes i hi ht n hn
  refine Ok.of hcore (fun i hi => ?_) fun i hi ht e => ?_
  · rw [setDisk_disk]
    exact hmeta i hi
  · have hfile : Ghost.file ⟨⟨B.sb, R', B.tg⟩, dmeta (s.disk ROOTDEV), refs, held⟩ (s.setDisk d') i =
        (onDisk B refs held s).file s i := by
      rw [Ghost.file, Ghost.file, Ghost.own, setDisk_disk]
      exact contents_congr (fun k => congrFun ho _) fun k c _ hc => hown _ c hc
    rw [hfile]
    exact h.dirs i hi ht e

/-- What the `tags` fields name is set aside. -/
def Env.TagsHeld (B : Env) : Prop := ∀ x, B.tg x ≠ 0 → (B.R (B.tg x)).isSome

/-- The volume is well formed, with tag blocks set aside. -/
def TagOk (sb : Superblock) (refs : Multiset Slot) (held : Finset Slot) (s : Fs) : Prop :=
  ∃ B : Env, B.sb = sb ∧ B.TagsHeld ∧ Ok B refs held s

/-- A change of user memory and its log only. -/
theorem Ok.of_frame (h : Ok B refs held s) (hd : s'.disk = s.disk) (hc : s'.icache = s.icache) : Ok B refs held s' :=
  h.of_disk hd (h.core.congr hd hc)

theorem TagOk.of_frame (h : TagOk sb refs held s) (hd : s'.disk = s.disk) (hc : s'.icache = s.icache) :
    TagOk sb refs held s' := by
  obtain ⟨B, hsb, ht, hok⟩ := h
  exact ⟨B, hsb, ht, hok.of_frame hd hc⟩

/-- `ip->tags = b`. -/
theorem Ok.setTags (h : Ok B refs held s) (b : Nat) :
    Ok ⟨B.sb, B.R, Function.update B.tg x b⟩ refs held (s.setInode x { s.icache x with tags := b }) := by
  obtain ⟨href, hdev, hinum, huniq, hcoh, hbusy, hheld, htags⟩ := h.core.cache
  have hsame : ∀ y, ((s.setInode x { s.icache x with tags := b }).icache y) =
      { s.icache y with tags := if y = x then b else (s.icache y).tags } := by
    intro y
    by_cases hy : y = x
    · rw [hy, setInode_icache, Function.update_self, if_pos rfl]
    · rw [setInode_icache, Function.update_of_ne hy, if_neg hy]
  have hcore : Core ⟨⟨B.sb, B.R, Function.update B.tg x b⟩, dmeta (s.disk ROOTDEV), refs, held⟩
      (s.setInode x { s.icache x with tags := b }) := by
    refine ⟨h.core.vol, ?_, ?_, ?_, ?_, ?_, ?_, ?_, fun y => ?_⟩
    all_goals simp only [hsame]
    · exact href
    · exact hdev
    · exact hinum
    · exact huniq
    · exact hcoh
    · exact hbusy
    · exact hheld
    · rw [Function.update_apply, htags y]
      rfl
  exact Ok.of hcore (fun _ _ => rfl) (h.dirs.congr rfl rfl rfl)

/-- Writing a tag block. -/
theorem Ok.setTagBlock (h : Ok B refs held s) (ht : B.TagsHeld) (hR : (B.R b).isSome) (y : Arr) :
    TagOk B.sb refs held (s.setSector ROOTDEV b y) := by
  have hpos := bitStart_range B.sb
  have hge : B.sb.dataStart ≤ b := h.core.vol.alloc.data b hR
  rw [setSector_eq_setDisk]
  refine ⟨⟨B.sb, Function.update B.R b (some y), B.tg⟩, rfl, fun z hz => ?_, h.ofAlloc (h.core.vol.alloc.rewrite hR y) ?_ ?_⟩
  · show (Function.update B.R b (some y) (B.tg z)).isSome
    by_cases hzb : B.tg z = b
    · rw [hzb, Function.update_self]; rfl
    · rw [Function.update_of_ne hzb]; exact ht z hz
  · intro p c hc
    refine Function.update_of_ne ?_ ..
    rintro rfl
    exact h.core.vol.alloc.owns.sep hc (.inr hR)
  · intro i hi
    have hib := (IBLOCK_range hi).2
    unfold dmeta
    rw [Function.update_of_ne (by omega)]

/-! ## Tag operations -/

/-- **The tag block** of a locked inode, taken from the free blocks if it has none. -/
theorem tagBlock_ok (h : Ok B refs held s) (ht : B.TagsHeld) (hx : x ∈ refs) :
    wp (tagBlock x)
      (fun b s' => (s'.icache x).dev = ROOTDEV ∧
        ∃ B' : Env, B'.sb = B.sb ∧ B'.TagsHeld ∧ (B'.R b).isSome ∧ Ok B' refs held s') NoDoubleFree s := by
  have hdev : (s.icache x).dev = ROOTDEV := h.core.cache.dev x hx
  have htg : (s.icache x).tags = B.tg x := h.core.cache.tags x
  unfold tagBlock
  rw [wp_bind, wp_inode, wp_ite]
  refine ⟨fun _ => ?_, fun h0 => ?_⟩
  · rw [wp_bind, hdev]
    refine wp_mono (balloc_spec h.core.vol.alloc.super) ?_ ?_
    · rintro b s1 ⟨hb, hfree, -, rfl⟩
      have haside : Ok ⟨B.sb, Function.update B.R b (some (s.disk ROOTDEV b)), B.tg⟩ refs held
          (s.setDisk (mark B.sb (s.disk ROOTDEV) b)) :=
        h.ofAlloc (h.core.vol.alloc.setAside hb hfree) (fun p c hc => h.core.vol.mark_own hb hc)
          fun i hi => dmeta_mark hb hi
      rw [wp_bind, wp_modInode, wp_pure]
      refine ⟨?_, ⟨B.sb, Function.update B.R b (some (s.disk ROOTDEV b)), Function.update B.tg x b⟩, rfl, fun z hz => ?_,
        ?_, haside.setTags b⟩
      · rw [setInode_icache, Function.update_self]
        exact hdev
      · show (Function.update B.R b (some (s.disk ROOTDEV b)) (Function.update B.tg x b z)).isSome
        replace hz : Function.update B.tg x b z ≠ 0 := hz
        by_cases hzb : Function.update B.tg x b z = b
        · rw [hzb, Function.update_self]; rfl
        · have hzx : z ≠ x := by
            rintro rfl
            exact hzb (Function.update_self ..)
          rw [Function.update_of_ne hzb]
          rw [Function.update_of_ne hzx] at hz ⊢
          exact ht z hz
      · show (Function.update B.R b (some (s.disk ROOTDEV b)) b).isSome
        rw [Function.update_self]
        rfl
    · rintro e s1 ⟨rfl, -⟩
      exact noDoubleFree_of_ne (by decide)
  · rw [wp_pure]
    refine ⟨hdev, B, rfl, ht, ?_, h⟩
    rw [htg] at h0 ⊢
    exact ht x h0

/-- The end of every tag call. -/
theorem tagUnlock_ok (h : TagOk sb refs (insert x held) s) (hx : x ∉ held) :
    wp (iunlock x) (fun _ s' => TagOk sb refs held s') NoDoubleFree s := by
  obtain ⟨B, hsb, ht, hok⟩ := h
  refine wp_post (iunlock_ok hok (Finset.mem_insert_self x held)) ?_
  rintro _ s1 ⟨h1, -, -⟩
  rw [Finset.erase_insert hx] at h1
  exact ⟨B, hsb, ht, h1⟩

theorem tagFileLocked_ok {key value n : Nat} (h : TagOk sb refs held s) (hx : x ∈ refs) :
    wp (tagFileLocked x key value n) (fun _ s' => TagOk sb refs held s') NoDoubleFree s := by
  obtain ⟨B, rfl, ht, hok⟩ := h
  unfold tagFileLocked
  rw [wp_bind]
  refine wp_post (ilock_ok hok hx) ?_
  rintro _ s1 ⟨h1, -, -, hnot⟩
  rw [wp_bind]
  refine wp_post (tagBlock_ok h1 ht hx) ?_
  rintro b s2 ⟨hdev, B2, hsb, ht2, hR, h2⟩
  rw [wp_bind, wp_inode, hdev]
  simp only [wp_bind, wp_bread, userStr, wp_get, wp_pure, wp_ite, wp_loadUser, wp_bwrite]
  -- whichever slot is written, only the tag block changes
  have hwrite : ∀ (s3 : Fs) (y : Arr), s3.disk = s2.disk → s3.icache = s2.icache →
      TagOk B.sb refs (insert x held) (s3.setSector ROOTDEV b y) := by
    intro s3 y hd hc
    rw [← hsb]
    exact (h2.of_frame hd hc).setTagBlock ht2 hR y
  refine ⟨fun _ => ⟨fun _ => ?_, fun _ => ?_⟩, fun _ => ?_⟩
  · exact tagUnlock_ok ⟨B2, hsb, ht2, h2⟩ hnot
  · exact tagUnlock_ok (hwrite _ _ rfl rfl) hnot
  · exact tagUnlock_ok (hwrite _ _ rfl rfl) hnot

/-- A tag block that is there. -/
theorem removeFileTagLocked_ok {key : Nat} (h : TagOk sb refs held s) (hx : x ∈ refs) (h0 : (s.icache x).tags ≠ 0) :
    wp (removeFileTagLocked x key) (fun _ s' => TagOk sb refs held s') NoDoubleFree s := by
  obtain ⟨B, rfl, ht, hok⟩ := h
  unfold removeFileTagLocked
  rw [wp_bind]
  refine wp_post (ilock_ok hok hx) ?_
  rintro _ s1 ⟨h1, -, -, hnot⟩
  have hdev : (s1.icache x).dev = ROOTDEV := h1.core.cache.dev x hx
  have htg : (s1.icache x).tags = B.tg x := h1.core.cache.tags x
  have hR : (B.R (B.tg x)).isSome := by
    refine ht x ?_
    rw [← show (s.icache x).tags = B.tg x from hok.core.cache.tags x]
    exact h0
  rw [wp_bind, wp_inode, hdev, htg]
  simp only [wp_bind, wp_bread, userStr, wp_get, wp_pure, wp_ite, wp_bwrite]
  refine ⟨fun _ => ?_, fun _ => ?_⟩
  · exact tagUnlock_ok ⟨B, rfl, ht, h1⟩ hnot
  · exact tagUnlock_ok (h1.setTagBlock ht hR _) hnot

theorem getFileTagLocked_ok {key buffer : Nat} {length : Int} (h : TagOk sb refs held s) (hx : x ∈ refs) :
    wp (getFileTagLocked x key buffer length) (fun _ s' => TagOk sb refs held s') NoDoubleFree s := by
  obtain ⟨B, rfl, ht, hok⟩ := h
  unfold getFileTagLocked
  rw [wp_bind]
  refine wp_post (ilock_ok hok hx) ?_
  rintro _ s1 ⟨h1, -, -, hnot⟩
  have hdone : ∀ s2 : Fs, s2.disk = s1.disk → s2.icache = s1.icache → TagOk B.sb refs (insert x held) s2 :=
    fun s2 hd hc => ⟨B, rfl, ht, h1.of_frame hd hc⟩
  simp only [wp_bind, wp_inode, wp_bread, userStr, wp_get, wp_pure, wp_ite, wp_storeUser]
  refine ⟨fun _ => ?_, fun _ => ⟨fun _ => ?_, fun _ => ⟨fun _ => ?_, fun _ => ?_⟩⟩⟩
  all_goals exact tagUnlock_ok (hdone _ rfl rfl) hnot

/-- Copying keys out touches user memory only. -/
theorem copyKeys_frame {str : Arr} {keys : Nat} {maxTag : Int} {E : Stop → Fs → Prop} (is : List Nat) : ∀ (t : Nat) (s : Fs),
    wp (copyKeys str keys maxTag is t) (fun _ s' => s'.disk = s.disk ∧ s'.icache = s.icache) E s := by
  induction is with
  | nil => exact fun _ _ => ⟨rfl, rfl⟩
  | cons i is ih =>
    intro t s
    rw [copyKeys, wp_ite, wp_ite]
    refine ⟨fun _ => ⟨fun _ => ⟨rfl, rfl⟩, fun _ => ?_⟩, fun _ => ih t s⟩
    simp only [wp_bind, wp_storeUser]
    exact ih (t + 1) _

theorem getAllTagsLocked_ok {keys : Nat} {maxTag : Int} (h : TagOk sb refs held s) (hx : x ∈ refs) :
    wp (getAllTagsLocked x keys maxTag) (fun _ s' => TagOk sb refs held s') NoDoubleFree s := by
  obtain ⟨B, rfl, ht, hok⟩ := h
  unfold getAllTagsLocked
  rw [wp_bind]
  refine wp_post (ilock_ok hok hx) ?_
  rintro _ s1 ⟨h1, -, -, hnot⟩
  rw [wp_bind]
  refine wp_post (tagBlock_ok h1 ht hx) ?_
  rintro b s2 ⟨-, B2, hsb, ht2, -, h2⟩
  simp only [wp_bind, wp_inode, wp_bread]
  refine wp_post (iunlock_ok h2 (Finset.mem_insert_self x held)) ?_
  rintro _ s3 ⟨h3, -, -⟩
  rw [Finset.erase_insert hnot] at h3
  refine wp_post (copyKeys_frame slots 0 s3) ?_
  rintro r s4 ⟨hd, hc⟩
  exact ⟨B2, hsb, ht2, h3.of_frame hd hc⟩

/-! ## `getFilesByTag` -/

/-- The root directory is in the cache, loaded. -/
def Fs.RootLoaded (s : Fs) : Prop :=
  ∃ x, s.Referenced x ∧ (s.icache x).dev = ROOTDEV ∧ (s.icache x).inum = ROOTINO ∧ (s.icache x).valid = true ∧
    (s.icache x).type = T_DIR

instance : Decidable s.RootLoaded := by unfold Fs.RootLoaded; infer_instance

theorem resultsEnd_frame {results : Nat} (n : Nat) : ∀ s : Fs,
    wp (resultsEnd results n) (fun _ s' => s'.disk = s.disk ∧ s'.icache = s.icache) NoDoubleFree s := by
  induction n with
  | zero => exact fun _ => ⟨rfl, rfl⟩
  | succ n ih =>
    intro s
    rw [resultsEnd, wp_bind, wp_loadUser, wp_ite]
    exact ⟨fun _ => ⟨rfl, rfl⟩, fun _ => ih _⟩

theorem appendName_frame {results : Nat} {resultsLength : Int} {name : Arr} :
    wp (appendName results resultsLength name) (fun _ s' => s'.disk = s.disk ∧ s'.icache = s.icache) NoDoubleFree s := by
  unfold appendName
  rw [wp_bind]
  refine wp_post (resultsEnd_frame _ s) ?_
  rintro k s1 ⟨hd, hc⟩
  simp only [wp_ite, wp_bind, wp_storeUser, wp_pure]
  exact ⟨fun _ => ⟨hd, hc⟩, fun _ => ⟨hd, hc⟩⟩

/-- After part of the scan: more references, and nothing else. -/
structure Scanned (B : Env) (refs : Multiset Slot) (held : Finset Slot) (s s' : Fs) : Prop where
  ok : ∃ K, Ok B (K + refs) held s'
  disk : s'.disk = s.disk
  keeps : Keeps refs s s'

theorem Scanned.refl (h : Ok B refs held s) : Scanned B refs held s s :=
  ⟨⟨0, by rw [Multiset.zero_add]; exact h⟩, rfl, Keeps.refl refs s⟩

section Scan

variable {bp : Arr} {key value results : Nat} {valueLength resultsLength : Int}

/-- **One entry** takes a reference to the inode it names, and keeps it. -/
theorem tagEntry_ok {e count : Nat} (h : Scanned B refs held s s') (he : direntInum bp (16 * e) < B.sb.ninodes) :
    wp (tagEntry ROOTDEV bp key value valueLength results resultsLength e count)
      (fun _ s'' => Scanned B refs held s s'') NoDoubleFree s' := by
  obtain ⟨⟨K, hok⟩, hdisk, hkeeps⟩ := h
  unfold tagEntry
  rw [wp_ite]
  refine ⟨fun _ => ⟨⟨K, hok⟩, hdisk, hkeeps⟩, fun h0 => ?_⟩
  rw [wp_bind]
  refine wp_mono (iget_spec hok.core ⟨Nat.one_le_iff_ne_zero.mpr h0, he⟩) ?_ ?_
  swap
  · rintro e _ ⟨rfl, -⟩
    exact noDoubleFree_of_ne (by decide)
  rintro y s1 ⟨hc1, hd1, -, hk1, -⟩
  have hsub : refs ⊆ K + refs := Multiset.subset_of_le (Multiset.le_add_left refs K)
  have hscan : ∀ s2 : Fs, s2.disk = s1.disk → s2.icache = s1.icache → Scanned B refs held s s2 := by
    intro s2 hd hc
    refine ⟨⟨y ::ₘ K, ?_⟩, hd.trans (hd1.trans hdisk), hkeeps.trans ((hk1.mono hsub).trans (Keeps.of_icache refs hc))⟩
    rw [Multiset.cons_add]
    exact (hok.of_disk hd1 hc1).of_frame hd hc
  simp only [wp_bind, wp_inode, wp_ite, wp_pure, wp_bread, userStr, wp_get]
  refine ⟨fun _ => hscan s1 rfl rfl, fun _ => ⟨fun _ => ?_, fun _ => hscan s1 rfl rfl⟩⟩
  refine wp_post appendName_frame ?_
  rintro ok s2 ⟨hd2, hc2⟩
  exact ⟨fun _ => hscan s2 hd2 hc2, fun _ => hscan s2 hd2 hc2⟩

theorem tagEntries_ok (es : List Nat) : ∀ (count : Nat) (s' : Fs), Scanned B refs held s s' →
    (∀ e ∈ es, direntInum bp (16 * e) < B.sb.ninodes) →
    wp (tagEntries ROOTDEV bp key value valueLength results resultsLength es count)
      (fun _ s'' => Scanned B refs held s s'') NoDoubleFree s' := by
  induction es with
  | nil => exact fun _ _ h _ => h
  | cons e es ih =>
    intro count s' h hes
    rw [tagEntries, wp_bind]
    refine wp_post (tagEntry_ok h (hes e List.mem_cons_self)) ?_
    rintro (_ | count') s1 h1
    · exact h1
    · exact ih count' s1 h1 fun e' he' => hes e' (List.mem_cons_of_mem e he')

/-- **The blocks still to scan** of a loaded directory. -/
theorem tagBlocks_ok (h : Ok B refs held s) (hx : x ∈ refs) (hv : (s.icache x).valid = true)
    (htype : (dmeta (s.disk ROOTDEV) (s.icache x).inum).type = T_DIR) (k : Nat) : ∀ (n count : Nat) (s' : Fs),
    Scanned B refs held s s' →
    (∀ j < k, (n + j) * BSIZE < (dmeta (s.disk ROOTDEV) (s.icache x).inum).size) →
    wp (tagBlocks x key value valueLength results resultsLength k (BSIZE * n) count)
      (fun _ s'' => Scanned B refs held s s'') NoDoubleFree s' := by
  obtain ⟨-, ht0, hlt⟩ := h.core.live hx hv
  induction k with
  | zero => exact fun _ _ _ hs _ => hs
  | succ k ih =>
    intro n count s' hs hn
    obtain ⟨K, hok⟩ := hs.ok
    have hx' : x ∈ K + refs := Multiset.mem_add.mpr (.inr hx)
    have hinum : (s'.icache x).inum = (s.icache x).inum := hs.keeps.inum x hx
    have hown : (onDisk B (K + refs) held s').own s' = (onDisk B refs held s).own s := by
      rw [Ghost.own, Ghost.own, onDisk, onDisk, hs.disk]
    obtain ⟨b, hb⟩ := Option.ne_none_iff_exists'.mp (h.core.vol.holes _ hlt ht0 n (hn 0 (Nat.zero_lt_succ k)))
    have hb' : (onDisk B (K + refs) held s').own s' ((s'.icache x).inum, blockIx n) = some b := by
      rw [hown, hinum]
      exact hb
    have hdiv : BSIZE * n / BSIZE = n := Nat.mul_div_cancel_left n (by decide)
    rw [tagBlocks, hdiv, wp_bind, bmap_mapped hok.core hx' (hs.keeps.valid x hx hv) hb', wp_bind, wp_inode, wp_bind,
      show (s'.icache x).dev = ROOTDEV from hok.core.cache.dev x hx', wp_bread, wp_bind, hs.disk]
    refine wp_post (tagEntries_ok (List.range 32) count s' hs fun e he => ?_) ?_
    · rw [direntInum_block (Ghost.file_block hb) (List.mem_range.mp he)]
      exact h.dirs _ hlt htype _
    · rintro (_ | count') s1 h1
      · exact h1
      · rw [← Nat.mul_succ]
        refine ih (n + 1) count' s1 h1 fun j hj => ?_
        rw [Nat.add_assoc, Nat.add_comm 1 j]
        exact hn (j + 1) (Nat.succ_lt_succ hj)

end Scan

/-- **`getFilesByTag`** while the root directory is loaded. -/
theorem getFilesByTag_ok {key value results : Nat} {valueLength resultsLength : Int} (h : TagOk sb refs held s)
    (hroot : s.RootLoaded) :
    wp (getFilesByTag key value valueLength results resultsLength)
      (fun _ s' => ∃ refs', TagOk sb refs' held s') NoDoubleFree s := by
  obtain ⟨B, rfl, ht, hok⟩ := h
  obtain ⟨y, hr, -, hinum, hv, htype⟩ := hroot
  have hy : y ∈ refs := hok.mem_refs.mpr hr
  unfold getFilesByTag
  rw [wp_bind]
  refine wp_mono (iget_spec hok.core ⟨Nat.le_refl 1, hok.core.vol.alloc.ok.inodes⟩) ?_ ?_
  swap
  · rintro e _ ⟨rfl, -⟩
    exact noDoubleFree_of_ne (by decide)
  rintro x s1 ⟨hc1, hd1, hi1, hk1, -⟩
  have h1 : Ok B (x ::ₘ refs) held s1 := hok.of_disk hd1 hc1
  -- the slot got is the one that is loaded
  have hxy : x = y := by
    refine h1.core.cache.uniq x (Multiset.mem_cons_self x refs) y (Multiset.mem_cons_of_mem hy) ?_
    rw [hi1, hk1.inum y hy, hinum]
  subst hxy
  have hx : x ∈ x ::ₘ refs := Multiset.mem_cons_self x refs
  have hv1 := hk1.valid x hy hv
  have hm1 := (h1.core.cache.coh x hx hv1).1
  have hm := (hok.core.cache.coh x hy hv).1
  have htype1 : (dmeta (s1.disk ROOTDEV) (s1.icache x).inum).type = T_DIR := by
    rw [hd1, hi1, ← hinum, ← htype]
    exact congrArg Meta.type hm.symm
  have hsize : (s1.icache x).size = (dmeta (s1.disk ROOTDEV) (s1.icache x).inum).size := congrArg Meta.size hm1
  rw [wp_bind, wp_inode, hsize]
  refine wp_post (tagBlocks_ok h1 hx hv1 htype1 _ 0 0 s1 (Scanned.refl h1) fun j hj => ?_) ?_
  · simp only [BSIZE] at hj ⊢
    omega
  · rintro r s2 ⟨⟨K, h2⟩, -, -⟩
    exact ⟨K + x ::ₘ refs, B, rfl, ht, h2⟩

/-! ## Runs -/

/-- A file operation, a tag operation on an open inode, or a change of user memory by its process. -/
inductive TagEv where
  | fs (op : FsOp)
  | user (mem : Arr)
  | tagFile (ip : Slot) (key value n : Nat)
  | removeFileTag (ip : Slot) (key : Nat)
  | getFileTag (ip : Slot) (key buffer : Nat) (length : Int)
  | getAllTags (ip : Slot) (keys : Nat) (maxTag : Int)
  | getFilesByTag (key value : Nat) (valueLength : Int) (results : Nat) (resultsLength : Int)

/-- The part of the call after its argument checks. -/
def TagEv.run : TagEv → FsM Unit
  | .fs op => op.run
  | .user mem => modify fun s => { s with mem }
  | .tagFile ip key value n => do let _ ← tagFileLocked ip key value n
  | .removeFileTag ip key => do let _ ← removeFileTagLocked ip key
  | .getFileTag ip key buffer length => do let _ ← getFileTagLocked ip key buffer length
  | .getAllTags ip keys maxTag => do let _ ← getAllTagsLocked ip keys maxTag
  | .getFilesByTag key value valueLength results resultsLength => do
    let _ ← Xv6.getFilesByTag key value valueLength results resultsLength

/-- The checks on a key. -/
def Fs.KeyOk (s : Fs) (key : Nat) : Prop :=
  key ≠ 0 ∧ 1 ≤ strlen (fun j => s.mem (key + j)) ∧ strlen (fun j => s.mem (key + j)) ≤ 9

instance {key : Nat} : Decidable (s.KeyOk key) := by unfold Fs.KeyOk; infer_instance

/-- **What has been checked**: a file is open on the inode, and the arguments are in range. Processes write to files
    and devices only, and directory entries are made by `create` and `link`. -/
def TagEv.Ready (sb : Superblock) (s : Fs) : TagEv → Prop
  | .fs op => op.Ready s ∧ op.Plain sb s
  | .user _ => True
  | .tagFile ip key value n => s.Referenced ip ∧ s.KeyOk key ∧ value ≠ 0 ∧ n ≤ 18
  | .removeFileTag ip key => s.Referenced ip ∧ s.KeyOk key ∧ (s.icache ip).tags ≠ 0
  | .getFileTag ip key _ _ => s.Referenced ip ∧ s.KeyOk key
  | .getAllTags ip keys maxTag => s.Referenced ip ∧ keys ≠ 0 ∧ 0 ≤ maxTag
  | .getFilesByTag _ _ _ _ _ => True

instance (ev : TagEv) : Decidable (ev.Ready sb s) := by cases ev <;> unfold TagEv.Ready <;> infer_instance

/-- One operation, if it returns. -/
def tagStep (sb : Superblock) (s : Fs) (ev : TagEv) : Option Fs :=
  if ev.Ready sb s then
    match exec ev.run s with
    | (.ok _, s') => some s'
    | (.error _, _) => none
  else none

/-- **The missing lock**: `getFilesByTag` reads the root inode as it is in the cache. -/
def TagEv.RootRead (s : Fs) : TagEv → Prop
  | .getFilesByTag _ _ _ _ _ => s.RootLoaded
  | _ => True

instance (ev : TagEv) : Decidable (ev.RootRead s) := by cases ev <;> unfold TagEv.RootRead <;> infer_instance

/-- **One operation** keeps the volume well formed, with the tag blocks set aside. -/
theorem TagEv.run_ok {ev : TagEv} (h : TagOk sb refs held s) (hr : ev.Ready sb s) (hroot : ev.RootRead s) :
    wp ev.run (fun _ s' => ∃ refs held, TagOk sb refs held s') NoDoubleFree s := by
  have hmem : ∀ {y}, s.Referenced y → y ∈ refs := by
    obtain ⟨B, -, -, hok⟩ := h
    exact hok.mem_refs.mpr
  cases ev with
  | fs op =>
    obtain ⟨B, rfl, ht, hok⟩ := h
    refine wp_post (FsOp.run_ok hok hr.1 hr.2.inTable) ?_
    rintro _ s1 ⟨refs', held', h1⟩
    exact ⟨refs', held', B, rfl, ht, h1⟩
  | user mem => exact ⟨refs, held, h.of_frame rfl rfl⟩
  | tagFile ip key value n =>
    rw [TagEv.run, wp_bind]
    exact wp_post (tagFileLocked_ok h (hmem hr.1)) fun _ _ hs => ⟨_, _, hs⟩
  | removeFileTag ip key =>
    rw [TagEv.run, wp_bind]
    exact wp_post (removeFileTagLocked_ok h (hmem hr.1) hr.2.2) fun _ _ hs => ⟨_, _, hs⟩
  | getFileTag ip key buffer length =>
    rw [TagEv.run, wp_bind]
    exact wp_post (getFileTagLocked_ok h (hmem hr.1)) fun _ _ hs => ⟨_, _, hs⟩
  | getAllTags ip keys maxTag =>
    rw [TagEv.run, wp_bind]
    exact wp_post (getAllTagsLocked_ok h (hmem hr.1)) fun _ _ hs => ⟨_, _, hs⟩
  | getFilesByTag key value valueLength results resultsLength =>
    rw [TagEv.run, wp_bind]
    refine wp_post (getFilesByTag_ok h hroot) ?_
    rintro _ s1 ⟨refs', h1⟩
    exact ⟨refs', held, h1⟩

theorem tagStep_ok {ev : TagEv} (h : TagOk sb refs held s) (hroot : ev.RootRead s) (hs : tagStep sb s ev = some s') :
    ∃ refs held, TagOk sb refs held s' := by
  unfold tagStep at hs
  split at hs
  · rename_i hr
    split at hs
    · rename_i r s1 hx
      cases hs
      exact wp_ok (TagEv.run_ok h hr hroot) hx
    · cases hs
  · cases hs

/-- A kernel that has just booted: no inode cached, and no tags. -/
structure Fs.Fresh (s : Fs) : Prop where
  unused : s.Unused
  untagged : ∀ x, (s.icache x).tags = 0

/-- **A sequence of file and tag operations.** -/
theorem tagRun_ok {evs : List TagEv} (hf : Formatted sb (s₀.disk ROOTDEV)) (hz : FreeZero sb (s₀.disk ROOTDEV))
    (he : EntriesInTable sb (s₀.disk ROOTDEV)) (hs : s₀.Fresh)
    (hroot : Along (tagStep sb) (fun s ev => ev.RootRead s) s₀ evs) (hrun : run (tagStep sb) s₀ evs = some s) :
    ∃ refs held, TagOk sb refs held s := by
  have h0 : TagOk sb 0 ∅ s₀ :=
    ⟨plainEnv sb s₀, rfl, fun x hx => absurd (hs.untagged x) hx, hf.ok_of_unused hz he hs.unused⟩
  refine run_induct_along (I := fun _ s => ∃ refs held, TagOk sb refs held s) ⟨0, ∅, h0⟩ ?_ hroot hrun
  rintro _ t ev u ⟨refs, held, h⟩ hev hstep
  exact tagStep_ok h hev hstep

/-- **Free blocks are zero** in every state reached from a formatted device on which they are, if the root directory
    is loaded whenever `getFilesByTag` runs. -/
theorem tagOps_freeZero {evs : List TagEv} (hf : Formatted sb (s₀.disk ROOTDEV)) (hz : FreeZero sb (s₀.disk ROOTDEV))
    (he : EntriesInTable sb (s₀.disk ROOTDEV)) (hs : s₀.Fresh)
    (hroot : Along (tagStep sb) (fun s ev => ev.RootRead s) s₀ evs) (hrun : run (tagStep sb) s₀ evs = some s) :
    FreeZero sb (s.disk ROOTDEV) := by
  obtain ⟨refs, held, B, rfl, -, h⟩ := tagRun_ok hf hz he hs hroot hrun
  exact h.core.vol.alloc.zero

/-- Open the file of a new device, write to it, tag it with the key `"a"` (at address 8) and the value `"b"` (at 16), and
    remove it: its data block is freed, its tag block is not. -/
def tagUnlink : List TagEv :=
  [.fs (.namei 0 [47, 102]), .fs (.ilock 1), .fs (.writei 1 (.kernel fun _ => 7) 0 2), .fs (.iunlock 1),
    .user (Function.update (Function.update 0 8 97) 16 98), .tagFile 1 8 16 1, .fs (.unlink 0 [47, 102]), .fs (.iput 1)]

theorem tagOps_freeZero_unlinked : ∃ s, run (tagStep mkfsImage.sb) mkfsImage.start tagUnlink = some s ∧
    bit mkfsImage.sb (s.disk ROOTDEV) 30 = false ∧ bit mkfsImage.sb (s.disk ROOTDEV) 31 = true ∧
      FreeZero mkfsImage.sb (s.disk ROOTDEV) := by
  have hrun : (run (tagStep mkfsImage.sb) mkfsImage.start tagUnlink).map (fun s =>
      (bit mkfsImage.sb (s.disk ROOTDEV) 30, bit mkfsImage.sb (s.disk ROOTDEV) 31)) = some (false, true) := by
    decide +kernel
  obtain ⟨s, hs, hbits⟩ := Option.map_eq_some_iff.mp hrun
  obtain ⟨hfreed, htags⟩ := Prod.mk.inj hbits
  have hroot : Along (tagStep mkfsImage.sb) (fun s ev => ev.RootRead s) mkfsImage.start tagUnlink :=
    .of_check (by decide +kernel)
  have hzero := @tagOps_freeZero s mkfsImage.start mkfsImage.sb tagUnlink mkfsImage_sound.formatted mkfsImage_freeZero
    mkfsImage_entries ⟨mkfsImage.start_unused, fun _ => rfl⟩ hroot hs
  exact ⟨s, hs, hfreed, htags, hzero⟩

end Xv6
