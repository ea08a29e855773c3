import Xv6.Sys.TagAnswer

/-!
# `Sys.TagTouch` — what the tag queries touch

`getFileTag` and `getAllTags` are queries: they should leave the disk and the inode cache alone, and write no
user memory but the caller's array. `getFileTag` keeps to the first. `getAllTags` allocates a tag block for a
file that has none, as `tagFile` does; and its array is checked with a size computed in 32 bits.
-/

namespace Xv6

open Bytes Hoare

variable {s : Fs} {x : Slot} {k : Kern} {p : Pid} {fd : Int} {keys key buffer : Nat} {maxTag L : Int}

/-! ## The disk -/

/-- The disk and the inode cache are as they were. -/
def ReadOnly (k k' : Kern) : Prop := k'.fs.disk = k.fs.disk ∧ k'.fs.icache = k.fs.icache

/-- A cached inode as a descriptor has it: loaded and, between calls, unlocked. -/
structure Loaded (s : Fs) (x : Slot) : Prop where
  ref : 1 ≤ (s.icache x).ref
  idle : (s.icache x).busy = false
  valid : (s.icache x).valid = true
  dev : (s.icache x).dev = ROOTDEV

theorem Loaded.tagged (h : Loaded s x) (htags : (s.icache x).tags ≠ 0) : Tagged s x :=
  ⟨h.ref, h.idle, h.valid, htags⟩

theorem getFileTagLocked_readOnly (h : Loaded s x) :
    wp (getFileTagLocked x key buffer L) (fun _ s' => s'.disk = s.disk ∧ s'.icache = s.icache) (fun _ _ => False) s := by
  by_cases htags : (s.icache x).tags = 0
  · have hx := locked_self s x
    unfold getFileTagLocked
    rw [wp_bind, wp_ilock_valid h.ref h.idle h.valid]
    show wp (do let i ← inode x; _) _ _ (s.locked x)
    rw [wp_bind, wp_inode, hx, if_pos htags, wp_bind]
    exact (wp_iunlock_locked h.ref h.idle rfl).mpr ⟨rfl, rfl⟩
  · refine wp_post (getFileTagLocked_spec (h.tagged htags)) ?_
    rintro _ s' ⟨hc, hd, -⟩
    exact ⟨hd, hc⟩

/-- With a tag block in place `getAllTags` only reads. -/
theorem getAllTagsLocked_readOnly (h : Loaded s x) (htags : (s.icache x).tags ≠ 0) :
    wp (getAllTagsLocked x keys maxTag) (fun _ s' => s'.disk = s.disk ∧ s'.icache = s.icache) (fun _ _ => False) s := by
  have hx := locked_self s x
  unfold getAllTagsLocked
  rw [wp_bind, wp_ilock_valid h.ref h.idle h.valid]
  show wp (do let tags ← tagBlock x; _) _ _ (s.locked x)
  rw [wp_bind, wp_tagBlock (by rw [hx]; exact htags), wp_bind, wp_inode, wp_bind, wp_bread, wp_bind]
  exact (wp_iunlock_locked h.ref h.idle rfl).mpr (wp_post (copyKeys_frame slots 0 _) fun _ _ hk => hk)

/-- Without one it marks a block, or panics because every bit is set. -/
theorem getAllTagsLocked_allocates (h : Loaded s x) (htags : (s.icache x).tags = 0) {sb : Superblock}
    (hsb : getSuperblock (s.disk ROOTDEV 1) = sb) :
    wp (getAllTagsLocked x keys maxTag)
      (fun _ s' => s'.disk ≠ s.disk ∧ ∃ b < sb.nbits, bit sb (s.disk ROOTDEV) b = false)
      (fun _ _ => ∀ b < sb.nbits, bit sb (s.disk ROOTDEV) b = true) s := by
  have hx := locked_self s x
  unfold getAllTagsLocked tagBlock
  rw [wp_bind, wp_ilock_valid h.ref h.idle h.valid]
  show wp (do let tags ← tagBlock x; _) _ _ (s.locked x)
  rw [wp_bind, tagBlock, wp_bind, wp_inode, hx, if_pos htags, wp_bind, h.dev]
  refine wp_mono (balloc_spec (s := s.locked x) hsb) ?_ fun _ _ he => he.2
  rintro b s1 ⟨hlt, hclear, -, rfl⟩
  have hfree : ∃ b < sb.nbits, bit sb (s.disk ROOTDEV) b = false := ⟨b, hlt, hclear⟩
  rw [wp_bind, wp_modInode, wp_pure, wp_bind, wp_inode, wp_bind, wp_bread, wp_bind]
  have hdisk : ((s.locked x).setDisk (mark sb (s.disk ROOTDEV) b)).disk ≠ s.disk := by
    intro he
    have hbit : bit sb (mark sb (s.disk ROOTDEV) b) b = bit sb (s.disk ROOTDEV) b := by
      have := congrArg (fun dk => bit sb (dk ROOTDEV) b) he
      rwa [setDisk_disk] at this
    rw [bit_mark, decide_eq_true rfl, Bool.true_or] at hbit
    rw [show bit sb (s.disk ROOTDEV) b = false from hclear] at hbit
    cases hbit
  -- unlocking and copying leave the disk as `balloc` left it
  have hlock : ∀ s1 : Fs, 1 ≤ (s1.icache x).ref → (s1.icache x).busy = true → s1.disk ≠ s.disk →
      ∀ str : Arr, wp (iunlock x) (fun _ s2 => wp (copyKeys str keys maxTag slots 0)
        (fun _ s' => s'.disk ≠ s.disk ∧ ∃ b < sb.nbits, bit sb (s.disk ROOTDEV) b = false)
        (fun _ _ => ∀ b < sb.nbits, bit sb (s.disk ROOTDEV) b = true) s2)
        (fun _ _ => ∀ b < sb.nbits, bit sb (s.disk ROOTDEV) b = true) s1 := by
    intro s1 hr hb hd str
    rw [wp_iunlock_busy hr hb]
    refine wp_post (copyKeys_frame slots 0 _) ?_
    rintro _ s' ⟨hd', -⟩
    rw [hd']
    exact ⟨hd, hfree⟩
  refine hlock _ ?_ ?_ ?_ _
  · rw [setInode_icache, Function.update_self]
    show 1 ≤ ((s.locked x).icache x).ref
    rw [hx]
    exact h.ref
  · rw [setInode_icache, Function.update_self]
    show ((s.locked x).icache x).busy = true
    rw [hx]
  · exact hdisk

/-- The queries, as far as a bad descriptor or bad arguments do not stop them. -/
theorem getFileTag_readOnly (hopen : ∀ d f x, fdFile (k.procs p) fd = some (d, f) → (k.ftable f).ip = some x → Loaded k.fs x) :
    wp (getFileTag p fd key buffer L) (fun _ k' => ReadOnly k k') (fun _ _ => False) k := by
  simp only [getFileTag, wp_bind, proc, file, wp_get, wp_pure]
  rcases hfd : fdFile (k.procs p) fd with _ | ⟨d, f⟩
  · exact ⟨rfl, rfl⟩
  · simp only [wp_bind, wp_get, wp_pure]
    rcases hti : tagInode (k.ftable f) (k.ftable f).writable with _ | x
    · exact ⟨rfl, rfl⟩
    · have hip : (k.ftable f).ip = some x := by
        rw [tagInode] at hti
        split at hti
        · exact hti
        · cases hti
      simp only [onFs, wp_bind, wp_zoom, userStr, wp_get, wp_pure, wp_ite]
      refine ⟨fun _ => ⟨rfl, rfl⟩, fun _ => ?_⟩
      exact getFileTagLocked_readOnly (hopen d f x hfd hip)

/-- **Tag queries are read-only** except for `getAllTags` on a file without a tag block, as long as a block can be
    had. -/
theorem tagQueries_readOnly_iff {sb : Superblock} (hsb : getSuperblock (k.fs.disk ROOTDEV 1) = sb)
    (hopen : ∀ d f x, fdFile (k.procs p) fd = some (d, f) → (k.ftable f).ip = some x → Loaded k.fs x) :
    (wp (getFileTag p fd key buffer L) (fun _ k' => ReadOnly k k') (fun _ _ => True) k ∧
      wp (getAllTags p fd keys maxTag) (fun _ k' => ReadOnly k k') (fun _ _ => True) k) ↔
    ∀ d f x, fdFile (k.procs p) fd = some (d, f) → tagInode (k.ftable f) (k.ftable f).readable = some x →
      keys ≠ 0 → 0 ≤ maxTag →
      (k.fs.icache x).tags ≠ 0 ∨ ∀ b < sb.nbits, bit sb (k.fs.disk ROOTDEV) b = true := by
  have hip : ∀ {f x}, tagInode (k.ftable f) (k.ftable f).readable = some x → (k.ftable f).ip = some x := by
    intro f x hti
    rw [tagInode] at hti
    split at hti
    · exact hti
    · cases hti
  constructor
  · rintro ⟨-, hall⟩ d f x hfd hti hkeys hmax
    by_contra hcon
    rw [not_or, not_not] at hcon
    have hl := hopen d f x hfd (hip hti)
    simp only [getAllTags, wp_bind, proc, file, wp_get, wp_pure, hfd, hti] at hall
    rw [if_neg hkeys, if_neg (by omega), onFs, wp_zoom] at hall
    obtain ⟨r, s', hrun, hne, -⟩ := wp_total (wp_mono (getAllTagsLocked_allocates hl hcon.1 hsb) (fun _ _ hq => hq)
      fun _ _ he => hcon.2 he)
    exact hne (wp_ok hall hrun).1
  · intro hcond
    refine ⟨wp_mono (getFileTag_readOnly hopen) (fun _ _ hq => hq) fun _ _ _ => trivial, ?_⟩
    simp only [getAllTags, wp_bind, proc, file, wp_get, wp_pure]
    rcases hfd : fdFile (k.procs p) fd with _ | ⟨d, f⟩
    · exact ⟨rfl, rfl⟩
    · simp only [wp_bind, wp_get, wp_pure]
      rcases hti : tagInode (k.ftable f) (k.ftable f).readable with _ | x
      · exact ⟨rfl, rfl⟩
      · simp only [wp_ite, wp_pure, onFs, wp_zoom]
        refine ⟨fun _ => ⟨rfl, rfl⟩, fun hkeys => ⟨fun _ => ⟨rfl, rfl⟩, fun hmax => ?_⟩⟩
        have hl := hopen d f x hfd (hip hti)
        by_cases htags : (k.fs.icache x).tags = 0
        · -- every bit is set: `balloc` panics
          have hfull := (hcond d f x hfd hti hkeys (by omega)).resolve_left (not_not.mpr htags)
          refine wp_mono (getAllTagsLocked_allocates hl htags hsb) ?_ fun _ _ _ => trivial
          rintro _ s' ⟨-, b, hb, hclear⟩
          rw [hfull b hb] at hclear
          cases hclear
        · exact wp_mono (getAllTagsLocked_readOnly hl htags) (fun _ _ hq => hq) fun _ _ _ => trivial

theorem oneFile_loaded : ∀ d f x, fdFile (oneFile.procs 0) 3 = some (d, f) → (oneFile.ftable f).ip = some x →
    Loaded oneFile.fs x := by
  rintro d f x - hip
  obtain rfl : 0 = x := Option.some.inj hip
  exact ⟨by decide, rfl, rfl, rfl⟩

/-- A file with a tag block. -/
theorem tagQueries_readOnly_iff_oneFile :
    wp (getFileTag 0 3 8 32 18) (fun _ k' => ReadOnly oneFile k') (fun _ _ => True) oneFile ∧
      wp (getAllTags 0 3 64 16) (fun _ k' => ReadOnly oneFile k') (fun _ _ => True) oneFile := by
  refine (tagQueries_readOnly_iff rfl oneFile_loaded).mpr ?_
  rintro d f x - hti - -
  obtain rfl : 0 = x := Option.some.inj hti
  exact .inl (by decide)

/-- A file on a disk of 1024 blocks, half of them in use, that was never tagged. -/
def untaggedFile : Kern :=
  { oneFile with
    fs := { filledDisk 512 with icache := fun ip => { oneFile.fs.icache ip with tags := 0 } } }

theorem untaggedFile_loaded : ∀ d f x, fdFile (untaggedFile.procs 0) 3 = some (d, f) →
    (untaggedFile.ftable f).ip = some x → Loaded untaggedFile.fs x := by
  rintro d f x - hip
  obtain rfl : 0 = x := Option.some.inj hip
  exact ⟨by decide, rfl, rfl, rfl⟩

/-- `getAllTags` of it takes a block. -/
theorem getAllTags_not_readOnly :
    ¬ wp (getAllTags 0 3 64 16) (fun _ k' => ReadOnly untaggedFile k') (fun _ _ => True) untaggedFile := by
  intro hall
  have hl := untaggedFile_loaded 3 0 0 rfl rfl
  have hsb : getSuperblock (untaggedFile.fs.disk ROOTDEV 1) = ⟨1024, 200⟩ := by decide +kernel
  have hclear : ¬ ∀ b < Superblock.nbits ⟨1024, 200⟩, bit ⟨1024, 200⟩ (untaggedFile.fs.disk ROOTDEV) b = true :=
    fun hfull => absurd (hfull 512 (by decide)) (by decide +kernel)
  obtain ⟨r, s', hrun, hne, -⟩ := wp_total (wp_mono (@getAllTagsLocked_allocates untaggedFile.fs 0 64 16 hl rfl _ hsb)
    (fun _ _ hq => hq) fun _ _ he => hclear he)
  simp only [getAllTags, wp_bind, proc, file, wp_get, wp_pure, show fdFile (untaggedFile.procs 0) 3 = some (3, 0) from rfl,
    show tagInode (untaggedFile.ftable 0) (untaggedFile.ftable 0).readable = some 0 from rfl] at hall
  rw [if_neg (by decide), if_neg (by decide), onFs, wp_zoom] at hall
  exact hne (wp_ok hall hrun).1

/-! ## The array -/

/-- `argptr`: whether `size` bytes at address `i` pass the check; the sum is a `uint`. -/
def argptr (sz i : Nat) (size : Int) : Bool := decide (i < sz ∧ (i + size) % 4294967296 ≤ sz)

/-- `sys_getAllTags`, with its arguments; `sizeof(struct Key)*maxTags` is a `uint`, passed as an `int`. -/
def sysGetAllTags (p : Pid) (fd : Int) (keys : Nat) (maxTags : Int) : KM Int := do
  if argptr (← proc p).sz keys (toInt (toUint (10 * maxTags))) then getAllTags p fd keys maxTags else return -1

/-- The keys of a file, slot by slot; a file without a tag block has none. -/
def Fs.keyList (s : Fs) (x : Slot) : List TagKey :=
  if (s.icache x).tags = 0 then [] else keysOf (s.tagStr x) (List.finRange 16)

/-- The user bytes written by copying the keys `l`, with their terminators, to the array from index `t` on. -/
def keyLog (keys : Nat) : Nat → List TagKey → List Access
  | _, [] => []
  | t, key :: l => touch true (keys + 10 * t) (key.length + 1) ++ keyLog keys (t + 1) l

theorem mem_keyLog {a : Access} {l : List TagKey} : ∀ {t : Nat}, a ∈ keyLog keys t l ↔
    ∃ j key, l[j]? = some key ∧ ∃ i ≤ key.length, a = ⟨true, keys + 10 * (t + j) + i⟩ := by
  induction l with
  | nil => simp [keyLog]
  | cons key l ih =>
    intro t
    rw [keyLog, List.mem_append, mem_touch, ih]
    constructor
    · rintro (⟨i, hi, rfl⟩ | ⟨j, key', hj, i, hi, rfl⟩)
      · exact ⟨0, key, rfl, i, by omega, rfl⟩
      · exact ⟨j + 1, key', hj, i, hi, by rw [show t + 1 + j = t + (j + 1) by omega]⟩
    · rintro ⟨j, key', hj, i, hi, rfl⟩
      cases j with
      | zero =>
        obtain rfl := Option.some.inj hj
        exact .inl ⟨i, by omega, rfl⟩
      | succ j => exact .inr ⟨j, key', hj, i, hi, by rw [show t + 1 + j = t + (j + 1) by omega]⟩

/-- **The copy loop**, with the bytes it writes: the keys that `maxTag` leaves room for, each followed by its
    terminator. -/
theorem copyKeys_log {str : Arr} {m : TagMap} (hb : TagBlock str m) (is : List (Fin 16)) :
    ∀ (t : Nat) (s : Fs), (t : Int) ≤ maxTag →
    wp (copyKeys str keys maxTag (is.map fun i => 32 * i.val) t)
      (fun _ s' => (∀ a < keys + 10 * t, s'.mem a = s.mem a) ∧
        s'.acc = s.acc ++ keyLog keys t ((keysOf str is).take (maxTag.toNat - t)) ∧
        ∀ j key, ((keysOf str is).take (maxTag.toNat - t))[j]? = some key →
          strAt s'.mem (keys + 10 * (t + j)) = key)
      (fun _ _ => False) s := by
  induction is with
  | nil =>
    intro t s _
    refine ⟨fun _ _ => rfl, ?_, ?_⟩
    · simp [keysOf, keyLog]
    · simp [keysOf]
  | cons i rest ih =>
    intro t s ht
    simp only [List.map_cons, copyKeys]
    by_cases h0 : str (32 * i.val) = 0
    · have hskip : keysOf str (i :: rest) = keysOf str rest := by
        simp [keysOf, tagTable_eq_none.mpr h0]
      rw [if_neg (not_not.mpr h0), hskip]
      exact ih t s ht
    · have hkeys : keysOf str (i :: rest) = slotKey str i :: keysOf str rest := by
        simp [keysOf, tagTable_eq_some.mpr ⟨h0, rfl, rfl⟩]
      rw [if_pos h0, hkeys]
      by_cases hfull : maxTag ≤ t
      · rw [if_pos hfull, wp_pure, show maxTag.toNat - t = 0 by omega, List.take_zero]
        exact ⟨fun _ _ => rfl, (List.append_nil _).symm, by simp⟩
      · rw [if_neg hfull, wp_bind, wp_storeUser, show maxTag.toNat - t = maxTag.toNat - (t + 1) + 1 by omega,
          List.take_succ_cons]
        have hlen := hb.slotKey_length i.isLt h0
        simp only [slotKey, length_cstr] at hlen
        refine wp_post (ih (t + 1) _ (by omega)) ?_
        rintro r s' ⟨hmem, hacc, hstr⟩
        dsimp only at hmem hacc
        refine ⟨fun a ha => ?_, ?_, fun j key hj => ?_⟩
        · exact (hmem a (by omega)).trans (blit_out (.inl ha))
        · rw [hacc, keyLog, List.append_assoc, slotKey, length_cstr]
        · cases j with
          | zero =>
            obtain rfl := Option.some.inj hj
            refine (cstr_eq_iff (by omega)).mpr fun j hj => ?_
            rw [Nat.add_zero, hmem _ (by omega), blit_in (by omega) (by omega), Nat.add_sub_cancel_left]
          | succ j =>
            rw [show t + (j + 1) = t + 1 + j by omega]
            exact hstr j key hj

/-- **Writing only what was promised.** The bytes written are those of keys of at most 9 bytes, each with its
    terminator in a `Key` of its own, inside the array and inside the process. -/
def KeysInside (keys : Nat) (maxTags : Int) (sz : Nat) (k k' : Kern) : Prop :=
  ∃ l : List TagKey, k'.fs.acc = k.fs.acc ++ keyLog keys 0 l ∧
    (∀ j key, l[j]? = some key → key.length ≤ 9 ∧ strAt k'.fs.mem (keys + 10 * j) = key) ∧
    ∀ a ∈ keyLog keys 0 l, keys ≤ a.addr ∧ (a.addr : Int) < keys + 10 * maxTags ∧ a.addr < sz

theorem keysOf_zero {str : Arr} (h : ∀ i < BSIZE, str i = 0) : keysOf str (List.finRange 16) = [] := by
  rw [keysOf, List.filterMap_eq_nil_iff]
  intro i _
  rw [tagTable_eq_none.mpr (h _ (by have := i.isLt; simp only [BSIZE]; omega))]
  rfl

theorem length_keysOf {str : Arr} {m : TagMap} (hb : TagBlock str m) {key : TagKey} {is : List (Fin 16)}
    (h : key ∈ keysOf str is) : key.length ≤ 9 := by
  obtain ⟨i, -, hi⟩ := List.mem_filterMap.mp h
  obtain ⟨⟨key', v⟩, hs, rfl⟩ := Option.map_eq_some_iff.mp hi
  obtain ⟨h0, rfl, -⟩ := tagTable_eq_some.mp hs
  exact (hb.slotKey_length i.isLt h0).2

theorem tagBlock_acc (hdev : (s.icache x).dev = ROOTDEV) :
    wp (tagBlock x) (fun _ s' => s'.acc = s.acc) (fun _ _ => True) s := by
  rw [tagBlock, wp_bind, wp_inode, wp_ite]
  refine ⟨fun _ => ?_, fun _ => rfl⟩
  rw [wp_bind, hdev]
  refine wp_mono (balloc_spec rfl) ?_ fun _ _ _ => trivial
  rintro b s1 ⟨-, -, -, rfl⟩
  exact rfl

/-- `getAllTags` after its argument checks, with the bytes it writes. -/
theorem getAllTagsLocked_log {m : TagMap} (h : CarriesTags s x m) (hmax : 0 ≤ maxTag) :
    wp (getAllTagsLocked x keys maxTag)
      (fun _ s' => s'.acc = s.acc ++ keyLog keys 0 ((s.keyList x).take maxTag.toNat) ∧
        ∀ j key, ((s.keyList x).take maxTag.toNat)[j]? = some key → strAt s'.mem (keys + 10 * j) = key)
      (fun _ _ => (s.icache x).tags = 0) s := by
  have hx := locked_self s x
  -- from the block to the array
  have hcopy : ∀ {str : Arr} {m : TagMap} {s1 : Fs}, TagBlock str m → s1.acc = s.acc →
      s.keyList x = keysOf str (List.finRange 16) →
      wp (copyKeys str keys maxTag slots 0)
        (fun _ s' => s'.acc = s.acc ++ keyLog keys 0 ((s.keyList x).take maxTag.toNat) ∧
          ∀ j key, ((s.keyList x).take maxTag.toNat)[j]? = some key → strAt s'.mem (keys + 10 * j) = key)
        (fun _ _ => (s.icache x).tags = 0) s1 := by
    intro str m s1 hb hacc hlist
    rw [slots_eq, hlist, ← hacc]
    refine wp_mono (copyKeys_log hb (List.finRange 16) 0 s1 hmax) ?_ fun _ _ => False.elim
    rintro r s' ⟨-, hacc', hstr⟩
    simp only [Nat.sub_zero, Nat.zero_add] at hacc' hstr
    exact ⟨hacc', hstr⟩
  simp only [getAllTagsLocked, wp_bind]
  rw [wp_ilock_valid h.ref h.idle h.valid]
  show wp (tagBlock x) _ _ (s.locked x)
  rcases h.tags with ⟨htags, hb⟩ | ⟨htags, rfl, hdev, sb, hsb, hz, hmeta⟩
  · rw [wp_tagBlock (by rw [hx]; exact htags)]
    simp only [wp_inode, wp_bread, hx]
    rw [wp_iunlock_busy (by rw [hx]; exact h.ref) (by rw [hx])]
    exact hcopy hb rfl (if_neg htags)
  · have hdev' : ((s.locked x).icache x).dev = ROOTDEV := by rw [hx]; exact hdev
    refine wp_mono (wp_and (tagBlock_fresh (by rw [hx]; exact htags) hdev' hsb hz hmeta) (tagBlock_acc hdev')) ?_
      fun _ _ _ => htags
    rintro b s1 ⟨⟨hb0, hic, hzero⟩, hacc⟩
    have hx1 : s1.icache x = { s.icache x with busy := true, tags := b } := by rw [hic, Function.update_self, hx]
    simp only [wp_inode, wp_bread, hx1, hdev]
    rw [wp_iunlock_busy (by rw [hx1]; exact h.ref) (by rw [hx1])]
    refine hcopy (TagBlock.zero hzero) ?_ ?_
    · exact hacc
    · rw [Fs.keyList, if_pos htags, keysOf_zero hzero]

/-- Every key `getAllTags` copies is shorter than a `Key`. -/
theorem CarriesTags.length_le {m : TagMap} (h : CarriesTags s x m) {key : TagKey} (hk : key ∈ s.keyList x) :
    key.length ≤ 9 := by
  rw [Fs.keyList] at hk
  split at hk
  · cases hk
  · rcases h.tags with ⟨-, hb⟩ | ⟨h0, -⟩
    · exact length_keysOf hb hk
    · contradiction

/-- **`getAllTags` writes only inside the array it was promised** exactly when the call is refused or the keys the
    file has, up to `maxTags` of them, fit below `proc->sz`. -/
theorem getAllTags_inside_iff {maxTags : Int}
    (hopen : ∀ d f x, fdFile (k.procs p) fd = some (d, f) → tagInode (k.ftable f) (k.ftable f).readable = some x →
      ∃ m, CarriesTags k.fs x m) :
    wp (sysGetAllTags p fd keys maxTags) (fun _ k' => KeysInside keys maxTags (k.procs p).sz k k') (fun _ _ => True) k ↔
      (argptr (k.procs p).sz keys (toInt (toUint (10 * maxTags))) = true →
        ∀ d f x, fdFile (k.procs p) fd = some (d, f) → tagInode (k.ftable f) (k.ftable f).readable = some x →
          keys ≠ 0 → 0 ≤ maxTags → ∀ j key, ((k.fs.keyList x).take maxTags.toNat)[j]? = some key →
            keys + 10 * j + key.length < (k.procs p).sz) := by
  -- a call that is refused writes nothing
  have hnone : KeysInside keys maxTags (k.procs p).sz k k :=
    ⟨[], (List.append_nil _).symm, by simp, by simp [keyLog]⟩
  simp only [sysGetAllTags, proc, wp_bind, wp_get, wp_pure, wp_ite]
  constructor
  · rintro ⟨hok, -⟩ hacc d f x hfd hti hkeys hmax j key hj
    obtain ⟨m, hc⟩ := hopen d f x hfd hti
    have hrun := hok hacc
    simp only [getAllTags, wp_bind, proc, file, wp_get, wp_pure, hfd, hti] at hrun
    rw [if_neg hkeys, if_neg (by omega), onFs, wp_zoom] at hrun
    have htags : (k.fs.icache x).tags ≠ 0 := by
      intro h0
      rw [Fs.keyList, if_pos h0, List.take_nil] at hj
      cases hj
    obtain ⟨r, s', hexec, hlog, -⟩ := wp_total (wp_mono (getAllTagsLocked_log hc hmax) (fun _ _ hq => hq)
      fun _ _ he => htags he)
    obtain ⟨l, hl, -, hin⟩ := wp_ok hrun hexec
    have hsame : keyLog keys 0 l = keyLog keys 0 ((k.fs.keyList x).take maxTags.toNat) :=
      List.append_cancel_left (hl.symm.trans hlog)
    have hmem : (⟨true, keys + 10 * (0 + j) + key.length⟩ : Access) ∈ keyLog keys 0 l := by
      rw [hsame]
      exact mem_keyLog.mpr ⟨j, key, hj, key.length, Nat.le_refl _, rfl⟩
    have hlt := (hin _ hmem).2.2
    rwa [Nat.zero_add] at hlt
  · intro hcond
    refine ⟨fun hacc => ?_, fun _ => hnone⟩
    simp only [getAllTags, wp_bind, proc, file, wp_get, wp_pure]
    rcases hfd : fdFile (k.procs p) fd with _ | ⟨d, f⟩
    · exact hnone
    · simp only [wp_bind, wp_get, wp_pure]
      rcases hti : tagInode (k.ftable f) (k.ftable f).readable with _ | x
      · exact hnone
      · simp only [wp_ite, wp_pure, onFs, wp_zoom]
        refine ⟨fun _ => hnone, fun hkeys => ⟨fun _ => hnone, fun hneg => ?_⟩⟩
        have hmax : 0 ≤ maxTags := by omega
        obtain ⟨m, hc⟩ := hopen d f x hfd hti
        have hfit := hcond hacc d f x hfd hti hkeys hmax
        refine wp_mono (getAllTagsLocked_log hc hmax) ?_ fun _ _ _ => trivial
        rintro r s' ⟨hlog, hstr⟩
        have hlen : ∀ (j : Nat) (key : TagKey), ((k.fs.keyList x).take maxTags.toNat)[j]? = some key → key.length ≤ 9 := fun j key hj =>
          hc.length_le (List.mem_of_mem_take (List.mem_of_getElem? hj))
        refine ⟨_, hlog, fun j key hj => ⟨hlen j key hj, hstr j key hj⟩, fun a ha => ?_⟩
        obtain ⟨j, key, hj, i, hi, rfl⟩ := mem_keyLog.mp ha
        have h9 := hlen j key hj
        have hlt := hfit j key hj
        have hj' : j < maxTags.toNat := by
          have := (List.getElem?_eq_some_iff.mp hj).1
          rw [List.length_take] at this
          omega
        simp only [Nat.zero_add]
        omega

theorem listedFile_carries : ∀ d f x, fdFile ((listedFile O_RDWR).procs 0) 3 = some (d, f) →
    tagInode ((listedFile O_RDWR).ftable f) ((listedFile O_RDWR).ftable f).readable = some x →
    ∃ m, CarriesTags (listedFile O_RDWR).fs x m := by
  rintro d f x - hti
  obtain rfl : 0 = x := Option.some.inj hti
  exact ⟨listedTags, listedFs_carries⟩

/-- An array of 16 keys at address 64. -/
theorem getAllTags_inside_iff_sixteen : wp (sysGetAllTags 0 3 64 16)
    (fun _ k' => KeysInside 64 16 4096 (listedFile O_RDWR) k') (fun _ _ => True) (listedFile O_RDWR) := by
  refine (getAllTags_inside_iff listedFile_carries).mpr ?_
  rintro - d f x hfd hti - - j key hj
  obtain rfl : 0 = x := Option.some.inj hti
  have h9 := listedFs_carries.length_le (List.mem_of_mem_take (List.mem_of_getElem? hj))
  have hlt := (List.getElem?_eq_some_iff.mp hj).1
  rw [List.length_take] at hlt
  show 64 + 10 * j + key.length < 4096
  have : (16 : Int).toNat = 16 := rfl
  omega

/-- With `maxTags` 429496729 the size `10 * maxTags` is -6: the last byte of the process is accepted as an array,
    and the terminator of the key goes past the end of the process. -/
theorem getAllTags_outside : argptr 4096 4095 (toInt (toUint (10 * 429496729))) = true ∧
    ¬ wp (sysGetAllTags 0 3 4095 429496729) (fun _ k' => KeysInside 4095 429496729 4096 (listedFile O_RDWR) k')
      (fun _ _ => True) (listedFile O_RDWR) := by
  have haccept : argptr 4096 4095 (toInt (toUint (10 * 429496729))) = true := by decide +kernel
  refine ⟨haccept, fun hok => ?_⟩
  simp only [sysGetAllTags, proc, wp_bind, wp_get, wp_pure, wp_ite] at hok
  have hrun := hok.1 haccept
  simp only [getAllTags, wp_bind, proc, file, wp_get, wp_pure,
    show fdFile ((listedFile O_RDWR).procs 0) 3 = some (3, 0) from rfl,
    show tagInode ((listedFile O_RDWR).ftable 0) ((listedFile O_RDWR).ftable 0).readable = some 0 from rfl] at hrun
  rw [if_neg (by decide), if_neg (by decide), onFs, wp_zoom] at hrun
  obtain ⟨r, s', hexec, hlog, -⟩ := wp_total (wp_mono (@getAllTagsLocked_log listedFs 0 4095 429496729 listedTags
    listedFs_carries (by decide)) (fun _ _ hq => hq) fun _ _ he => absurd he (by decide))
  obtain ⟨l, hl, -, hin⟩ := wp_ok hrun hexec
  have hsame := List.append_cancel_left (hl.symm.trans hlog)
  -- the key is one of those copied, wherever its slot is
  have hkey : [97] ∈ (listedFs.keyList 0).take (429496729 : Int).toNat := by
    rcases listedFs_carries.tags with ⟨h0, hb⟩ | ⟨h0, -⟩
    · rw [Fs.keyList, if_neg h0, List.take_of_length_le]
      · exact SlotTable.mem_keyList.mpr (hb.rep.mem_iff.mp (Finmap.mem_insert.mpr (.inl rfl)))
      · refine Nat.le_trans (List.length_filterMap_le _ _) ?_
        rw [List.length_finRange]
        decide
    · exact absurd h0 (by decide)
  obtain ⟨j, hj⟩ := List.mem_iff_getElem?.mp hkey
  have hmem : (⟨true, 4095 + 10 * (0 + j) + 1⟩ : Access) ∈ keyLog 4095 0 l := by
    rw [hsame]
    exact mem_keyLog.mpr ⟨j, [97], hj, 1, Nat.le_refl _, rfl⟩
  have hlt := (hin _ hmem).2.2
  dsimp only at hlt
  omega

end Xv6
