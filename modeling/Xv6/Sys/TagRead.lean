import Xv6.Fs.Sequences
import Xv6.Sys.TagOps

/-!
# `Sys.TagRead` — reading tags back (`getFileTag`, `getAllTags`)

`getFileTag` does not know how long a stored value is. It walks over the 18 bytes of the slot as long as it is below
the caller's length or sees a byte that is not zero, so what it returns is the larger of the two lengths. It also
insists on a descriptor open for writing, where `getAllTags` insists on one open for reading.

## Contents
- **Searches.** `searchKey_eq_iff`, `searchKey_newSlot`, `searchKey_newValue`: where a key is found after `tagFile`,
  whatever the block held.
- **Calls.** `ilock_any`, `tagFileLocked_one`: what is known after `tagFile` returned 1; `getFileTagLocked_spec`, `getFileTag_stored`.
- **Results.** Reading a value back, and reading what is listed.
-/

namespace Xv6

open Bytes Hoare SlotTable

variable {str str' key value : Arr} {s s' : Fs} {x : Slot}

/-! ## Searches -/

/-- A search over the slots finds the first. -/
theorem slots_find {p : Nat → Bool} {o : Nat} :
    slots.find? p = some o ↔ ∃ i < 16, o = 32 * i ∧ p (32 * i) = true ∧ ∀ j < i, p (32 * j) = false := by
  unfold slots
  rw [List.find?_map, Option.map_eq_some_iff]
  constructor
  · rintro ⟨i, hi, rfl⟩
    obtain ⟨hp, hlt, hbefore⟩ := List.find?_range_eq_some.mp hi
    exact ⟨i, List.mem_range.mp hlt, rfl, hp, fun j hj => by simpa using hbefore j hj⟩
  · rintro ⟨i, hlt, rfl, hp, hbefore⟩
    exact ⟨i, List.find?_range_eq_some.mpr ⟨hp, List.mem_range.mpr hlt, fun j hj => by simp [hbefore j hj]⟩, rfl⟩

/-- **`searchKey`** returns the first slot that matches. -/
theorem searchKey_eq_iff {i : Nat} (hi : i < 16) :
    searchKey key str = (32 * i : Nat) ↔ keyAt key str (strlen key) (32 * i) 10 0 = true ∧
      ∀ j < i, keyAt key str (strlen key) (32 * j) 10 0 = false := by
  unfold searchKey
  constructor
  · intro h
    split at h
    · rename_i o ho
      obtain ⟨i', -, rfl, hp, hbefore⟩ := slots_find.mp ho
      have : i' = i := by omega
      subst this
      exact ⟨hp, hbefore⟩
    · omega
  · rintro ⟨hp, hbefore⟩
    rw [slots_find.mpr ⟨i, hi, rfl, hp, hbefore⟩]

theorem searchKey_neg (h : searchKey key str < 0) {i : Nat} (hi : i < 16) :
    keyAt key str (strlen key) (32 * i) 10 0 = false := by
  unfold searchKey at h
  split at h
  · omega
  · rename_i hnone
    simpa using List.find?_eq_none.mp hnone _ (mem_slots.mpr ⟨⟨i, hi⟩, rfl⟩)

/-- What is not negative is a slot. -/
theorem searchKey_nonneg (h : ¬ searchKey key str < 0) : ∃ i < 16, searchKey key str = (32 * i : Nat) := by
  unfold searchKey at h ⊢
  split at h
  · rename_i o ho
    obtain ⟨i, hi, rfl, -⟩ := slots_find.mp ho
    exact ⟨i, hi, rfl⟩
  · omega

theorem searchEnd_nonneg (h : ¬ searchEnd str < 0) : ∃ i < 16, searchEnd str = (32 * i : Nat) ∧ str (32 * i) = 0 := by
  unfold searchEnd at h ⊢
  split at h
  · rename_i o ho
    obtain ⟨i, hi, rfl, hp, -⟩ := slots_find.mp ho
    exact ⟨i, hi, rfl, by simpa using hp⟩
  · omega

/-- The inner loop reads the key field only. -/
theorem keyAt_congr {L o : Nat} : ∀ fuel j, (∀ l, j ≤ l → l < j + fuel → str' (o + l) = str (o + l)) →
    keyAt key str' L o fuel j = keyAt key str L o fuel j := by
  intro fuel
  induction fuel with
  | zero => exact fun _ _ => rfl
  | succ fuel ih =>
    intro j h
    rw [keyAt, keyAt, h j (Nat.le_refl j) (by omega), ih (j + 1) fun l hl hlt => h l (by omega) (by omega)]

/-- The key just stored in a free slot is found there. -/
theorem searchKey_newSlot {i n : Nat} (hi : i < 16) (h1 : 1 ≤ strlen key) (h9 : strlen key ≤ 9)
    (hno : searchKey key str < 0) :
    searchKey key (newSlot str (32 * i) key (strlen key) value n) = (32 * i : Nat) := by
  refine (searchKey_eq_iff hi).mpr ⟨?_, fun j hj => ?_⟩
  · rw [keyAt_iff (by simp only [BSIZE]; omega) rfl h9 10 0 rfl (Nat.zero_le _)]
    intro l _ hl
    rw [newSlot, blit_out (by omega)]
    rcases Nat.lt_or_eq_of_le hl with hlt | rfl
    · rw [blit_in (by omega) (by omega), Nat.add_sub_cancel_left]
    · rw [blit_out (by omega), fill_in (by omega) (by omega)]
      exact (strlen_nul (Nat.lt_of_le_of_lt h9 (by decide))).symm
  · rw [← searchKey_neg hno (Nat.lt_trans hj hi)]
    refine keyAt_congr 10 0 fun l _ hl => ?_
    rw [newSlot, blit_out (by omega), blit_out (by omega), fill_out (by omega)]

/-- Replacing a value moves no key. -/
theorem searchKey_newValue {i n : Nat} (hi : i < 16) (hn : n ≤ 18) (hk : searchKey key str = (32 * i : Nat)) :
    searchKey key (newValue str (32 * i) value n) = (32 * i : Nat) := by
  have hsame : ∀ j < 16, keyAt key (newValue str (32 * i) value n) (strlen key) (32 * j) 10 0 =
      keyAt key str (strlen key) (32 * j) 10 0 := by
    intro j hj
    refine keyAt_congr 10 0 fun l _ hl => ?_
    rw [newValue, blit_out (by omega), fill_out (by omega)]
  obtain ⟨hp, hbefore⟩ := (searchKey_eq_iff hi).mp hk
  refine (searchKey_eq_iff hi).mpr ⟨(hsame i hi).trans hp, fun j hj => ?_⟩
  exact (hsame j (Nat.lt_trans hj hi)).trans (hbefore j hj)

/-- The value bytes of a slot that was written. -/
theorem newSlot_value {o n j : Nat} {L : Nat} (hL : L ≤ 9) (hj : j < 18) :
    newSlot str o key L value n (o + 10 + j) = if j < n then value j else 0 := by
  rw [newSlot]
  by_cases hjn : j < n
  · rw [blit_in (by omega) (by omega), if_pos hjn, Nat.add_sub_cancel_left]
  · rw [blit_out (by omega), blit_out (by omega), fill_in (by omega) (by omega), if_neg hjn]

theorem newValue_value {o n j : Nat} (hj : j < 18) :
    newValue str o value n (o + 10 + j) = if j < n then value j else 0 := by
  rw [newValue]
  by_cases hjn : j < n
  · rw [blit_in (by omega) (by omega), if_pos hjn, Nat.add_sub_cancel_left]
  · rw [blit_out (by omega), fill_in (by omega) (by omega), if_neg hjn]

/-! ## The length loop -/

/-- **The length `getFileTag` returns**: the stored one or the caller's, whichever is larger, and at most 18. -/
theorem tagLength_eq {v : Arr} {n : Nat} {L : Int} (hn : n ≤ 18) (hv : ∀ j < n, v j ≠ 0)
    (hz : ∀ j, n ≤ j → j < 18 → v j = 0) : ∀ fuel i, i + fuel = 18 → i ≤ min 18 (max L.toNat n) →
    tagLength v L fuel i = min 18 (max L.toNat n) := by
  intro fuel
  induction fuel with
  | zero =>
    intro i hi hle
    rw [tagLength]
    omega
  | succ fuel ih =>
    intro i hi hle
    rw [tagLength]
    by_cases hlt : i < min 18 (max L.toNat n)
    · have hgo : (i : Int) < L ∨ v i ≠ 0 := by
        by_cases hin : i < n
        · exact .inr (hv i hin)
        · exact .inl (by omega)
      rw [if_pos hgo]
      exact ih (i + 1) (by omega) (by omega)
    · have hstop : ¬ ((i : Int) < L ∨ v i ≠ 0) := by
        rintro (hlt' | hne)
        · omega
        · exact hne (hz i (by omega) (by omega))
      rw [if_neg hstop]
      omega

/-! ## The calls, from any state -/

/-- **`ilock`**, if it returns. -/
theorem ilock_any : wp (ilock x)
    (fun _ s' => 1 ≤ (s.icache x).ref ∧ (s.icache x).busy = false ∧
      ∃ m : Meta, s' = s.setInode x { s.icache x with toMeta := m, busy := true, valid := true })
    (fun _ _ => True) s := by
  unfold ilock
  rw [wp_bind, wp_inode, wp_ite]
  refine ⟨fun _ => trivial, fun href => ?_⟩
  rw [wp_ite]
  refine ⟨fun _ => trivial, fun hbusy => ?_⟩
  rw [wp_bind, wp_modInode, wp_ite]
  have hr : 1 ≤ (s.icache x).ref := by omega
  have hb : (s.icache x).busy = false := by simpa using hbusy
  refine ⟨fun hv => ⟨hr, hb, (s.icache x).toMeta, ?_⟩, fun _ => ?_⟩
  · rw [← hv]
  · rw [wp_bind, wp_bread]
    generalize getDinode _ _ = dip
    rw [wp_bind, wp_modInode, wp_ite]
    refine ⟨fun _ => trivial, fun _ => ⟨hr, hb, dip.toMeta, ?_⟩⟩
    simp only [Function.update_self, Fs.setInode, Function.update_idem]

/-- Block 0 is in use, as on every device that holds a file system. -/
def BootMarked (s : Fs) : Prop := bit (getSuperblock (s.disk ROOTDEV 1)) (s.disk ROOTDEV) 0 = true

/-- **A tag was stored.** What holds after `tagFile` returned 1, whatever the tag block held: the inode is loaded and
    unlocked, and the key is found in its tag block with the value padded with zeroes. -/
structure Stored (s : Fs) (x : Slot) (k v : Arr) (n : Nat) : Prop where
  tagged : Tagged s x
  found : ∃ i < 16, searchKey k (s.tagStr x) = (32 * i : Nat) ∧
    ∀ j < 18, s.tagStr x (32 * i + 10 + j) = if j < n then v j else 0

/-- The end of a call that wrote the tag block. -/
theorem iunlock_stored {k v : Arr} {n b i : Nat} {y : Arr} (hdev : (s.icache x).dev = ROOTDEV)
    (htags : (s.icache x).tags = b) (hb : b ≠ 0) (hv : (s.icache x).valid = true) (hi : i < 16)
    (hk : searchKey k y = (32 * i : Nat)) (hy : ∀ j < 18, y (32 * i + 10 + j) = if j < n then v j else 0) :
    wp (iunlock x) (fun _ s' => Stored s' x k v n) (fun _ _ => True) (s.setSector ROOTDEV b y) := by
  unfold iunlock
  rw [wp_bind, wp_inode, wp_ite]
  refine ⟨fun _ => trivial, fun hbusy => ?_⟩
  rw [wp_modInode]
  have hx : ((s.setSector ROOTDEV b y).setInode x
      { (s.setSector ROOTDEV b y).icache x with busy := false }).icache x = { s.icache x with busy := false } :=
    Function.update_self ..
  have hstr : ((s.setSector ROOTDEV b y).setInode x
      { (s.setSector ROOTDEV b y).icache x with busy := false }).tagStr x = y := by
    rw [Fs.tagStr, hx, hdev, htags, setInode_disk, setSector_disk]
    exact Function.update_self ..
  have href : ¬ (s.icache x).ref < 1 := fun hlt => hbusy (.inr hlt)
  refine ⟨⟨?_, ?_, ?_, ?_⟩, i, hi, ?_⟩
  · rw [hx]; exact Int.not_lt.mp href
  · rw [hx]
  · rw [hx]; exact hv
  · rw [hx, htags]; exact hb
  · rw [hstr]; exact ⟨hk, hy⟩

/-- The tag block of an inode is not block 0. -/
theorem tagBlock_any (hdev : (s.icache x).dev = ROOTDEV) (hboot : BootMarked s) : wp (tagBlock x)
    (fun b s' => b ≠ 0 ∧ (s'.icache x).dev = ROOTDEV ∧ (s'.icache x).tags = b ∧
      (s'.icache x).valid = (s.icache x).valid ∧ s'.mem = s.mem) (fun _ _ => True) s := by
  unfold tagBlock
  rw [wp_bind, wp_inode, wp_ite]
  refine ⟨fun _ => ?_, fun h0 => ⟨h0, hdev, rfl, rfl, rfl⟩⟩
  rw [wp_bind, hdev]
  refine wp_mono (balloc_spec rfl) ?_ fun _ _ _ => trivial
  rintro b s1 ⟨-, hfree, -, rfl⟩
  rw [wp_bind, wp_modInode, wp_pure]
  rw [setInode_icache, Function.update_self]
  refine ⟨?_, hdev, rfl, rfl, rfl⟩
  rintro rfl
  rw [hboot] at hfree
  cases hfree

/-- **`tagFile`**, if it returned 1. -/
theorem tagFileLocked_one {key value n : Nat} (hdev : (s.icache x).dev = ROOTDEV) (hboot : BootMarked s)
    (h1 : 1 ≤ strlen fun j => s.mem (key + j)) (h9 : (strlen fun j => s.mem (key + j)) ≤ 9) (hn : n ≤ 18) :
    wp (tagFileLocked x key value n)
      (fun r s' => r = 1 → Stored s' x (fun j => s.mem (key + j)) (fun j => s.mem (value + j)) n)
      (fun _ _ => True) s := by
  unfold tagFileLocked
  rw [wp_bind]
  refine wp_post ilock_any ?_
  rintro _ s1 ⟨-, -, m, rfl⟩
  set s1 := s.setInode x { s.icache x with toMeta := m, busy := true, valid := true } with hs1
  have hx1 : s1.icache x = { s.icache x with toMeta := m, busy := true, valid := true } := Function.update_self ..
  rw [wp_bind]
  refine wp_post (tagBlock_any (s := s1) (by rw [hx1]; exact hdev) hboot) ?_
  rintro b s2 ⟨hb, hdev2, htags2, hv2, hmem⟩
  have hmem2 : s2.mem = s.mem := hmem
  have hvalid : (s2.icache x).valid = true := by rw [hv2, hx1]
  simp only [wp_bind, wp_inode, hdev2, wp_bread, userStr, wp_get, wp_pure, wp_ite, wp_loadUser, wp_bwrite, hmem2]
  refine ⟨fun hno => ⟨fun _ => ?_, fun hend => ?_⟩, fun hfound => ?_⟩
  · -- no more space: the call returns -1
    unfold iunlock
    rw [wp_bind, wp_inode, wp_ite]
    exact ⟨fun _ => trivial, fun _ hc => absurd hc (by decide)⟩
  · obtain ⟨i, hi, heq, -⟩ := searchEnd_nonneg hend
    rw [heq, Int.toNat_natCast]
    refine wp_post (iunlock_stored hdev2 htags2 hb hvalid hi (searchKey_newSlot hi h1 h9 hno) ?_) fun _ _ hs _ => hs
    exact fun j hj => newSlot_value h9 hj
  · obtain ⟨i, hi, heq⟩ := searchKey_nonneg hfound
    rw [heq, Int.toNat_natCast]
    refine wp_post (iunlock_stored hdev2 htags2 hb hvalid hi (searchKey_newValue hi hn heq) ?_) fun _ _ hs _ => hs
    exact fun j hj => newValue_value hj

/-- What `getFileTag` returns and leaves in user memory, for a tag block. -/
def readTag (str k mem : Arr) (buffer : Nat) (L : Int) : Int × Arr :=
  if searchKey k str < 0 then (-1, mem)
  else
    let v : Arr := fun j => str ((searchKey k str).toNat + 10 + j)
    let n := tagLength v L 18 0
    if L < n then (n, mem) else (n, blit mem buffer n v)

/-- **`getFileTag`** of a loaded inode with a tag block reads the block and changes user memory only. -/
theorem getFileTagLocked_spec {key buffer : Nat} {L : Int} (ht : Tagged s x) :
    wp (getFileTagLocked x key buffer L)
      (fun r s' => s'.icache = s.icache ∧ s'.disk = s.disk ∧
        (r, s'.mem) = readTag (s.tagStr x) (fun j => s.mem (key + j)) s.mem buffer L)
      (fun _ _ => False) s := by
  unfold getFileTagLocked
  rw [wp_bind, wp_ilock_valid ht.ref ht.idle ht.valid]
  show wp (do let i ← inode x; _) _ _ (s.locked x)
  rw [wp_bind, wp_inode, locked_self]
  simp only [if_neg ht.tags, wp_bind, wp_bread, locked_tagStr, userStr, wp_get, locked_mem, wp_pure, wp_ite, wp_storeUser]
  refine ⟨fun hno => ?_, fun hk => ⟨fun hlt => ?_, fun hge => ?_⟩⟩ <;>
    refine (wp_iunlock_locked ht.ref ht.idle (by rfl)).mpr ⟨rfl, rfl, ?_⟩
  · rw [readTag, if_pos hno]
    rfl
  · rw [readTag, if_neg hk]
    exact (if_pos hlt).symm
  · rw [readTag, if_neg hk]
    exact (if_neg hge).symm

/-! ## Reading a value back -/

/-- The search depends on the key as a string. -/
theorem searchKey_congr_key {k k' : Arr} (h : cstr k' = cstr k) (h9 : strlen k ≤ 9) :
    searchKey k' str = searchKey k str := by
  have hlen : strlen k' = strlen k := by simpa using congrArg List.length h
  have hbytes := (cstr_eq_iff (by omega)).mp h
  have hat : ∀ o ∈ slots, keyAt k' str (strlen k') o 10 0 = keyAt k str (strlen k) o 10 0 := by
    intro o ho
    obtain ⟨i, rfl⟩ := mem_slots.mp ho
    have hb : 32 * i.val + 10 ≤ BSIZE := by have := i.isLt; simp only [BSIZE]; omega
    rw [hlen, Bool.eq_iff_iff, keyAt_iff hb hlen h9 10 0 rfl (Nat.zero_le _), keyAt_iff hb rfl h9 10 0 rfl (Nat.zero_le _)]
    refine forall_congr' fun l => forall_congr' fun _ => forall_congr' fun hl => ?_
    rw [hbytes l hl]
  unfold searchKey
  rw [List.find?_congr hat]

/-- **What comes back** of a value without zero bytes. -/
theorem Stored.readTag_eq {k k' v : Arr} {n : Nat} (h : Stored s x k v n) (mem : Arr) (buffer : Nat) (L : Int)
    (hk : cstr k' = cstr k) (h9 : strlen k ≤ 9) (hn : n ≤ 18) (hv : ∀ j < n, v j ≠ 0) :
    ∃ w : Arr, (∀ j < n, w j = v j) ∧ readTag (s.tagStr x) k' mem buffer L =
      (((min 18 (max L.toNat n) : Nat) : Int),
        if L < (min 18 (max L.toNat n) : Nat) then mem else blit mem buffer (min 18 (max L.toNat n)) w) := by
  obtain ⟨i, hi, hfound, hval⟩ := h.found
  refine ⟨fun j => s.tagStr x (32 * i + 10 + j), fun j hj => ?_, ?_⟩
  · exact (hval j (Nat.lt_of_lt_of_le hj hn)).trans (if_pos hj)
  · have hlen := tagLength_eq (L := L) hn (v := fun j => s.tagStr x (32 * i + 10 + j))
      (fun j hj => by rw [hval j (Nat.lt_of_lt_of_le hj hn), if_pos hj]; exact hv j hj)
      (fun j hj hlt => (hval j hlt).trans (if_neg (Nat.not_lt.mpr hj))) 18 0 rfl (Nat.zero_le _)
    have hneg : ¬ ((32 * i : Nat) : Int) < 0 := by omega
    simp only [readTag, searchKey_congr_key hk h9, hfound, if_neg hneg, Int.toNat_natCast, hlen]
    split <;> rfl

section Descriptors

variable {k k1 : Kern} {p : Pid} {fd : Int} {d : Fd} {f : FilePtr} {key value : Nat} {n : Int}

/-- What is known once `tagFile` returned 1 on a descriptor. -/
structure TagWritten (k : Kern) (f : FilePtr) (x : Slot) (key value : Nat) (n : Int) (k1 : Kern) : Prop where
  procs : k1.procs = k.procs
  ftable : k1.ftable = k.ftable
  writable : tagInode (k.ftable f) (k.ftable f).writable = some x
  keyLen : 1 ≤ (strlen fun j => k.fs.mem (key + j)) ∧ (strlen fun j => k.fs.mem (key + j)) ≤ 9
  valueLen : 0 ≤ n ∧ n ≤ 18
  stored : Stored k1.fs x (fun j => k.fs.mem (key + j)) (fun j => k.fs.mem (value + j)) n.toNat

theorem tagFile_one (hrun : exec (tagFile p fd key value n) k = (.ok 1, k1)) (hfd : fdFile (k.procs p) fd = some (d, f))
    (hip : (k.ftable f).ip = some x) (hdev : (k.fs.icache x).dev = ROOTDEV) (hboot : BootMarked k.fs) :
    TagWritten k f x key value n k1 := by
  have hwp : wp (tagFile p fd key value n) (fun r k' => r = 1 → TagWritten k f x key value n k') (fun _ _ => True) k := by
    have hfail : (-1 : Int) = 1 → TagWritten k f x key value n k := fun hc => absurd hc (by decide)
    simp only [tagFile, wp_bind, proc, file, wp_get, wp_pure, hfd]
    by_cases hw : (k.ftable f).type = .FD_INODE ∧ (k.ftable f).writable = true
    · have hti : tagInode (k.ftable f) (k.ftable f).writable = some x := by
        rw [tagInode, if_pos hw, hip]
      simp only [hti, wp_bind, onFs, wp_zoom, userStr, wp_get, wp_pure]
      rw [wp_ite]
      refine ⟨fun _ => hfail, fun hk => ?_⟩
      rw [wp_ite]
      refine ⟨fun _ => hfail, fun hn => ?_⟩
      have hkey : 1 ≤ (strlen fun j => k.fs.mem (key + j)) ∧ (strlen fun j => k.fs.mem (key + j)) ≤ 9 := by omega
      have hlen : 0 ≤ n ∧ n ≤ 18 := by omega
      rw [wp_zoom]
      refine wp_post (tagFileLocked_one hdev hboot hkey.1 hkey.2 (by omega)) ?_
      intro r s' hs hr
      exact ⟨rfl, rfl, hti, hkey, hlen, hs hr⟩
    · have hti : tagInode (k.ftable f) (k.ftable f).writable = none := by rw [tagInode, if_neg hw]
      simp only [hti, wp_pure]
      exact hfail
  exact wp_ok hwp hrun rfl

/-- The same kernel with other user memory. -/
def Kern.withMem (k : Kern) (mem : Arr) : Kern := { k with fs := { k.fs with mem } }

/-- **`getFileTag`** on a descriptor open for writing on a tagged inode. -/
theorem getFileTag_spec {buffer : Nat} {L : Int} (hfd : fdFile (k.procs p) fd = some (d, f))
    (hti : tagInode (k.ftable f) (k.ftable f).writable = some x) (ht : Tagged k.fs x) (h0 : key ≠ 0)
    (hk : 1 ≤ (strlen fun j => k.fs.mem (key + j)) ∧ (strlen fun j => k.fs.mem (key + j)) ≤ 9) :
    wp (getFileTag p fd key buffer L)
      (fun r k' => (r, k'.fs.mem) = readTag (k.fs.tagStr x) (fun j => k.fs.mem (key + j)) k.fs.mem buffer L)
      (fun _ _ => False) k := by
  simp only [getFileTag, wp_bind, proc, file, wp_get, wp_pure, hfd, hti, onFs, wp_zoom, userStr]
  rw [if_neg (by omega), wp_zoom]
  exact wp_post (getFileTagLocked_spec ht) fun _ _ hs => hs.2.2

/-- **Reading back** a value without zero bytes: the length is the larger of the value's and the buffer's, within 18
    bytes, and the value is copied with the zeroes that pad it. -/
theorem getFileTag_stored {n : Nat} {mem : Arr} {key' : Nat} (buffer : Nat) (L : Int) (hw : TagWritten k f x key value n k1)
    (hfd : fdFile (k.procs p) fd = some (d, f)) (hv : ∀ j < n, k.fs.mem (value + j) ≠ 0) (h0 : key' ≠ 0)
    (hkey : strAt mem key' = strAt k.fs.mem key) :
    ∃ k2 w, (∀ j < n, w j = k.fs.mem (value + j)) ∧
      exec (getFileTag p fd key' buffer L) (k1.withMem mem) = (.ok ((min 18 (max L.toNat n) : Nat) : Int), k2) ∧
      k2.fs.mem = if L < (min 18 (max L.toNat n) : Nat) then mem else blit mem buffer (min 18 (max L.toNat n)) w := by
  obtain ⟨hprocs, hftable, hti, hk, hlen, hstored⟩ := hw
  rw [Int.toNat_natCast] at hstored
  have hklen : (strlen fun j => mem (key' + j)) = strlen fun j => k.fs.mem (key + j) := by
    simpa [strAt] using congrArg List.length hkey
  obtain ⟨hr, hi, hvd, htg⟩ := hstored.tagged
  have htagged : Tagged (k1.withMem mem).fs x := ⟨hr, hi, hvd, htg⟩
  obtain ⟨r, k2, hexec, hres⟩ := wp_total (@getFileTag_spec x (k1.withMem mem) p fd d f key' buffer L
    (by rw [Kern.withMem, hprocs]; exact hfd) (by rw [Kern.withMem, hftable]; exact hti) htagged h0
    (by show 1 ≤ (strlen fun j => mem (key' + j)) ∧ (strlen fun j => mem (key' + j)) ≤ 9; rw [hklen]; exact hk))
  obtain ⟨w, hw, hread⟩ := hstored.readTag_eq mem buffer L hkey hk.2 (by omega) hv
  obtain ⟨rfl, hmem⟩ := Prod.mk.inj (hres.trans hread)
  exact ⟨k2, w, hw, hexec, hmem⟩

/-- **`getFileTag` inverts `tagFile`** for a value without zero bytes exactly when the buffer is not longer than the
    value, or the value fills its slot: a longer buffer makes it return the buffer's length. -/
theorem getFileTag_tagFile_iff {n : Nat} {mem : Arr} {key' buffer : Nat} {L : Int}
    (hrun : exec (tagFile p fd key value n) k = (.ok 1, k1)) (hfd : fdFile (k.procs p) fd = some (d, f))
    (hip : (k.ftable f).ip = some x) (hdev : (k.fs.icache x).dev = ROOTDEV) (hboot : BootMarked k.fs)
    (hn : 1 ≤ n) (hv : ∀ j < n, k.fs.mem (value + j) ≠ 0) (h0 : key' ≠ 0)
    (hkey : strAt mem key' = strAt k.fs.mem key) (hL : 0 ≤ L) :
    (∃ k2, exec (getFileTag p fd key' buffer L) (k1.withMem mem) = (.ok (n : Int), k2) ∧
      k2.fs.mem = if (n : Int) ≤ L then blit mem buffer n fun j => k.fs.mem (value + j) else mem) ↔
    L ≤ n ∨ n = 18 := by
  have hwritten := tagFile_one hrun hfd hip hdev hboot
  have hn18 := hwritten.valueLen.2
  obtain ⟨k2, w, hw, hexec, hmem⟩ := getFileTag_stored buffer L hwritten hfd hv h0 hkey
  rw [hexec]
  constructor
  · rintro ⟨_, heq, -⟩
    simp only [Prod.mk.injEq, Except.ok.injEq] at heq
    omega
  · intro hcond
    have hN : min 18 (max L.toNat n) = n := by omega
    refine ⟨k2, by rw [hN], ?_⟩
    rw [hmem, hN]
    by_cases hle : (n : Int) ≤ L
    · rw [if_neg (by omega), if_pos hle]
      funext a
      by_cases ha : buffer ≤ a ∧ a < buffer + n
      · rw [blit_in ha.1 ha.2, blit_in ha.1 ha.2, hw _ (by omega)]
      · rw [blit_out (by omega), blit_out (by omega)]
    · rw [if_pos (by omega), if_neg hle]

end Descriptors

/-- The kernel `oneFile` with block 0 marked in use, the key `"a"` at address 8 and the value `"b"` at 16. -/
def markedFile : Kern :=
  { oneFile with
    fs := { oneFile.fs with
      disk := fun _ b i => if b = 3 ∧ i = 0 then 1 else 0
      mem := Function.update (Function.update 0 8 97) 16 98 } }

theorem markedFile_open : TagOpen markedFile 0 3 0 :=
  ⟨⟨3, 0, rfl, rfl, rfl, rfl, rfl⟩, by decide, rfl, rfl, by decide⟩

theorem markedFile_zero : TagBlock (markedFile.fs.tagStr 0) ∅ := TagBlock.zero fun _ _ => rfl

theorem markedFile_key : strAt markedFile.fs.mem 8 = [97] := by
  have hlen : (strlen fun j => markedFile.fs.mem (8 + j)) = 1 := strlen_eq (by decide) rfl (by decide)
  rw [strAt, cstr, hlen]
  rfl

/-- Tagging it returns 1. -/
theorem markedFile_tagged : ∃ k1, exec (tagFile 0 3 8 16 1) markedFile = (.ok 1, k1) := by
  obtain ⟨r, k1, hexec, fs, m, -, -, -, hr⟩ := wp_total (@tagFile_spec 0 ∅ 8 16 markedFile 0 3 markedFile_open
    markedFile_zero 1)
  rw [if_neg (by decide), markedFile_key] at hr
  obtain ⟨rfl, -⟩ := Prod.mk.inj (hr.trans (by rfl : _ = ((1 : Int), _)))
  exact ⟨k1, hexec⟩

/-- Reading `"b"` back into a buffer of one byte. -/
theorem getFileTag_tagFile_iff_short : ∃ k1, exec (tagFile 0 3 8 16 1) markedFile = (.ok 1, k1) ∧
    ∃ k2, exec (getFileTag 0 3 8 32 1) (k1.withMem markedFile.fs.mem) = (.ok 1, k2) ∧
      k2.fs.mem = blit markedFile.fs.mem 32 1 fun j => markedFile.fs.mem (16 + j) := by
  obtain ⟨k1, hrun⟩ := markedFile_tagged
  refine ⟨k1, hrun, ?_⟩
  exact (@getFileTag_tagFile_iff 0 markedFile k1 0 3 3 0 8 16 1 markedFile.fs.mem 8 32 1 hrun rfl rfl rfl rfl
    (by decide) (by decide) (by decide) rfl (by decide)).mpr (by decide)

/-- Reading `"b"` back into a buffer of five bytes gives the length 5. -/
theorem getFileTag_tagFile_long : ∃ k1, exec (tagFile 0 3 8 16 1) markedFile = (.ok 1, k1) ∧
    ¬ ∃ k2, exec (getFileTag 0 3 8 32 5) (k1.withMem markedFile.fs.mem) = (.ok 1, k2) := by
  obtain ⟨k1, hrun⟩ := markedFile_tagged
  refine ⟨k1, hrun, ?_⟩
  have hw := @tagFile_one 0 markedFile k1 0 3 3 0 8 16 1 hrun rfl rfl rfl rfl
  obtain ⟨k2, w, -, hexec, -⟩ := @getFileTag_stored 0 markedFile k1 0 3 3 0 8 16 1 markedFile.fs.mem 8 32 5 hw rfl
    (by decide) (by decide) rfl
  rw [hexec]
  rintro ⟨_, heq⟩
  simp at heq

/-! ## Listing and reading -/

/-- **The tags an open file carries.** The file is loaded and unlocked. Its tag block represents `m`; or it has none
    yet, and the block it will get is a free block, so it is zero. -/
structure CarriesTags (s : Fs) (x : Slot) (m : TagMap) : Prop where
  ref : 1 ≤ (s.icache x).ref
  idle : (s.icache x).busy = false
  valid : (s.icache x).valid = true
  tags : (s.icache x).tags ≠ 0 ∧ TagBlock (s.tagStr x) m ∨
    (s.icache x).tags = 0 ∧ m = ∅ ∧ (s.icache x).dev = ROOTDEV ∧
      ∃ sb, getSuperblock (s.disk ROOTDEV 1) = sb ∧ FreeZero sb (s.disk ROOTDEV) ∧
        ∀ b < sb.dataStart, bit sb (s.disk ROOTDEV) b = true

section Listing

variable {m : TagMap} {sb : Superblock} {keys : Nat} {maxTag : Int}

/-- **`tagBlock`** of a file without tags takes a zero block. -/
theorem tagBlock_fresh (htags : (s.icache x).tags = 0) (hdev : (s.icache x).dev = ROOTDEV)
    (hsb : getSuperblock (s.disk ROOTDEV 1) = sb) (hz : FreeZero sb (s.disk ROOTDEV))
    (hmeta : ∀ b < sb.dataStart, bit sb (s.disk ROOTDEV) b = true) :
    wp (tagBlock x)
      (fun b s' => b ≠ 0 ∧ s'.icache = Function.update s.icache x { s.icache x with tags := b } ∧
        ∀ j < BSIZE, s'.disk ROOTDEV b j = 0)
      (fun _ _ => True) s := by
  unfold tagBlock
  rw [wp_bind, wp_inode, if_pos htags, wp_bind, hdev]
  refine wp_mono (balloc_spec hsb) ?_ fun _ _ _ => trivial
  rintro b s1 ⟨hlt, hfree, -, rfl⟩
  have hdata : sb.dataStart ≤ b := by
    by_contra hc
    rw [hmeta b (by omega)] at hfree
    cases hfree
  rw [wp_bind, wp_modInode, wp_pure]
  refine ⟨by have := bitStart_range sb; omega, rfl, fun j hj => ?_⟩
  rw [setInode_disk, setDisk_disk, mark_of_ne hlt (.inr hdata)]
  exact hz b hlt hfree j hj

/-- **`getAllTags`** after its argument checks, also for a file without a tag block. -/
theorem getAllTagsLocked_carries (h : CarriesTags s x m) (hmax : 0 ≤ maxTag) :
    wp (getAllTagsLocked x keys maxTag)
      (fun r s' => Tagged s' x ∧ TagBlock (s'.tagStr x) m ∧
        TagSpec.Listed m maxTag r ((List.range r.toNat).map fun j => strAt s'.mem (keys + 10 * j)))
      (fun _ _ => m = ∅) s := by
  rcases h.tags with ⟨htags, hb⟩ | ⟨htags, rfl, hdev, sb, hsb, hz, hmeta⟩
  · have ht : Tagged s x := ⟨h.ref, h.idle, h.valid, htags⟩
    refine wp_mono (getAllTagsLocked_spec ht hb hmax) ?_ fun _ _ => False.elim
    rintro r s' ⟨hf, hb', hlist⟩
    exact ⟨ht.frame hf, hb', hlist⟩
  · have hx := locked_self s x
    simp only [getAllTagsLocked, wp_bind]
    rw [wp_ilock_valid h.ref h.idle h.valid]
    show wp (tagBlock x) _ _ (s.locked x)
    refine wp_mono (tagBlock_fresh (by rw [hx]; exact htags) (by rw [hx]; exact hdev) hsb hz hmeta) ?_
      fun _ _ _ => trivial
    rintro b s1 ⟨hb0, hic, hzero⟩
    have hx1 : s1.icache x = { s.icache x with busy := true, tags := b } := by rw [hic, Function.update_self, hx]
    have hb1 : TagBlock (s1.disk ROOTDEV b) ∅ := TagBlock.zero hzero
    simp only [wp_inode, wp_bread, hx1, hdev]
    rw [wp_iunlock_busy (by rw [hx1]; exact h.ref) (by rw [hx1])]
    refine wp_mono (copyKeys_listed hb1 hmax _) ?_ fun _ _ => False.elim
    rintro r s' ⟨hic', hdk, hlist⟩
    have hx' : s'.icache x = { s.icache x with busy := false, tags := b } := by
      rw [hic', setInode_icache, Function.update_self, hx1]
    refine ⟨⟨?_, ?_, ?_, ?_⟩, ?_, hlist⟩
    · rw [hx']; exact h.ref
    · rw [hx']
    · rw [hx']; exact h.valid
    · rw [hx']; exact hb0
    · rw [Fs.tagStr, hx', hdk]
      show TagBlock (s1.disk (s.icache x).dev b) ∅
      rw [hdev]
      exact hb1

/-- A file as `sys_open` leaves it, for an open mode. -/
def OpenedWith (y : File) (omode : Nat) (x : Slot) : Prop :=
  y.type = .FD_INODE ∧ y.ip = some x ∧ y.readable = decide (omode &&& O_WRONLY = 0) ∧
    y.writable = decide (omode &&& O_WRONLY ≠ 0 ∨ omode &&& O_RDWR ≠ 0)

variable {k : Kern} {p : Pid} {fd : Int} {d : Fd} {f : FilePtr}

/-- What a successful `getAllTags` leaves behind. -/
structure TagsListed (k : Kern) (x : Slot) (m : TagMap) (keys : Nat) (n : Int) (k1 : Kern) : Prop where
  procs : k1.procs = k.procs
  ftable : k1.ftable = k.ftable
  tagged : Tagged k1.fs x
  block : TagBlock (k1.fs.tagStr x) m
  listed : ∀ key, key ∈ ((List.range n.toNat).map fun j => strAt k1.fs.mem (keys + 10 * j)) ↔ key ∈ m

/-- **`getAllTags`** with room for 16 keys, on a descriptor open for reading. -/
theorem getAllTags_listed (hfd : fdFile (k.procs p) fd = some (d, f))
    (hti : tagInode (k.ftable f) (k.ftable f).readable = some x) (h : CarriesTags k.fs x m) (hkeys : keys ≠ 0) :
    wp (getAllTags p fd keys 16) (fun n k1 => 0 ≤ n ∧ TagsListed k x m keys n k1) (fun _ _ => m = ∅) k := by
  simp only [getAllTags, wp_bind, proc, file, wp_get, wp_pure, hfd, hti]
  rw [if_neg hkeys, if_neg (by decide), onFs, wp_zoom]
  refine wp_mono (getAllTagsLocked_carries h (by decide)) ?_ fun _ _ he => he
  rintro n s' ⟨ht, hb, hlist⟩
  have hcard : (m.keys.card : Int) ≤ 16 := by exact_mod_cast hb.rep.card_le
  rw [TagSpec.Listed, if_pos hcard] at hlist
  exact ⟨by rw [hlist.1]; omega, rfl, rfl, ht, hb, hlist.2.2⟩

/-- A descriptor not open for reading has its tags listed by no call. -/
theorem getAllTags_unreadable (hfd : fdFile (k.procs p) fd = some (d, f)) (hr : (k.ftable f).readable = false) :
    wp (getAllTags p fd keys maxTag) (fun r k' => r = -1 ∧ k' = k) (fun _ _ => False) k := by
  have hti : tagInode (k.ftable f) (k.ftable f).readable = none := by rw [tagInode, hr, if_neg (by simp)]
  simp only [getAllTags, wp_bind, proc, file, wp_get, wp_pure, hfd, hti, and_self]

/-- A descriptor not open for writing has its tags read by no call. -/
theorem getFileTag_unwritable {key buffer : Nat} {L : Int} (hfd : fdFile (k.procs p) fd = some (d, f))
    (hw : (k.ftable f).writable = false) :
    wp (getFileTag p fd key buffer L) (fun r k' => r = -1 ∧ k' = k) (fun _ _ => False) k := by
  have hti : tagInode (k.ftable f) (k.ftable f).writable = none := by rw [tagInode, hw, if_neg (by simp)]
  simp only [getFileTag, wp_bind, proc, file, wp_get, wp_pure, hfd, hti, and_self]

/-- **`getFileTag` finds** the keys of the map. -/
theorem readTag_nonneg {mem : Arr} {buffer : Nat} {L : Int} (hb : TagBlock str m) (h1 : 1 ≤ strlen key)
    (h9 : strlen key ≤ 9) : 0 ≤ (readTag str key mem buffer L).1 ↔ cstr key ∈ m := by
  rw [readTag]
  by_cases hk : cstr key ∈ m
  · obtain ⟨i, v, -, hpos⟩ := searchKey_found hb h1 h9 hk
    rw [if_neg (by omega)]
    refine ⟨fun _ => hk, fun _ => ?_⟩
    dsimp only
    split <;> exact Int.natCast_nonneg _
  · rw [if_pos (by rw [searchKey_none hb h1 h9 hk]; decide)]
    exact ⟨fun h => absurd h (Int.negSucc_not_nonneg 0).mp, fun h => absurd h hk⟩

/-- **Reading agrees with listing** exactly when the descriptor is open for writing, the listing fails, or the key is
    not there: on a read-only descriptor `getAllTags` lists keys that `getFileTag` refuses to read. -/
theorem getFileTag_getAllTags_iff {omode key buffer : Nat} {mem : Arr}
    (hmode : omode = O_RDONLY ∨ omode = O_WRONLY ∨ omode = O_RDWR) (hfd : fdFile (k.procs p) fd = some (d, f))
    (hopen : OpenedWith (k.ftable f) omode x) (h : CarriesTags k.fs x m) (h0 : key ≠ 0)
    (hk : 1 ≤ (strAt mem key).length ∧ (strAt mem key).length ≤ 9) :
    (∀ n k1, exec (getAllTags p fd keys 16) k = (.ok n, k1) → 0 ≤ n →
      ∃ r k2, exec (getFileTag p fd key buffer 18) (k1.withMem mem) = (.ok r, k2) ∧
        (0 ≤ r ↔ strAt mem key ∈ (List.range n.toNat).map fun j => strAt k1.fs.mem (keys + 10 * j))) ↔
    keys = 0 ∨ omode ≠ O_RDONLY ∨ strAt mem key ∉ m := by
  obtain ⟨hty, hip, hr, hw⟩ := hopen
  rw [strAt, length_cstr] at hk
  -- on a descriptor that is not writable every read fails
  have hrefused : (k.ftable f).writable = false → ∀ {n k1}, TagsListed k x m keys n k1 →
      ∃ k2, exec (getFileTag p fd key buffer 18) (k1.withMem mem) = (.ok (-1), k2) := by
    intro hnw n k1 hl
    obtain ⟨r, k2, hexec, rfl, -⟩ := wp_total (@getFileTag_unwritable (k1.withMem mem) p fd d f key buffer 18
      (by rw [Kern.withMem, hl.procs]; exact hfd) (by rw [Kern.withMem, hl.ftable]; exact hnw))
    exact ⟨k2, hexec⟩
  constructor
  · intro hall
    by_contra hc
    simp only [not_or, not_not] at hc
    obtain ⟨hkeys, rfl, hmem⟩ := hc
    have hti : tagInode (k.ftable f) (k.ftable f).readable = some x := by rw [tagInode, if_pos ⟨hty, by rw [hr]; rfl⟩, hip]
    have hne : m ≠ ∅ := by rintro rfl; exact absurd hmem (Finmap.notMem_empty)
    obtain ⟨n, k1, hrun, hn, hl⟩ := wp_total (wp_mono (getAllTags_listed hfd hti h hkeys) (fun _ _ hq => hq)
      fun _ _ he => hne he)
    obtain ⟨r, k2, hexec, hiff⟩ := hall n k1 hrun hn
    obtain ⟨k2', hexec'⟩ := hrefused (by rw [hw]; rfl) hl
    rw [hexec'] at hexec
    obtain ⟨rfl, -⟩ := by simpa using hexec
    exact absurd (hiff.mpr ((hl.listed _).mpr hmem)) (by decide)
  · intro hcond n k1 hrun hn
    by_cases hkeys : keys = 0
    · -- a null array is refused
      have hfail : wp (getAllTags p fd keys 16) (fun r _ => r = -1) (fun _ _ => True) k := by
        simp only [getAllTags, wp_bind, proc, file, wp_get, wp_pure, hfd]
        split <;> simp [hkeys]
      have := wp_ok hfail hrun
      omega
    by_cases hread : omode = O_WRONLY
    · have := (wp_ok (getAllTags_unreadable hfd (by rw [hr, hread]; rfl)) hrun).1
      omega
    have hti : tagInode (k.ftable f) (k.ftable f).readable = some x := by
      rw [tagInode, if_pos ⟨hty, by rw [hr]; rcases hmode with rfl | rfl | rfl <;> simp at hread ⊢⟩, hip]
    obtain ⟨-, hl⟩ := wp_ok (getAllTags_listed hfd hti h hkeys) hrun
    rw [hl.listed]
    rcases hmode with rfl | rfl | rfl
    · obtain ⟨k2, hexec⟩ := hrefused (by rw [hw]; rfl) hl
      refine ⟨-1, k2, hexec, fun h => absurd h (by decide), fun hmem => ?_⟩
      rcases hcond with hc | hc | hc
      · exact absurd hc hkeys
      · exact absurd rfl hc
      · exact absurd hmem hc
    · exact absurd rfl hread
    · have hti' : tagInode (k.ftable f) (k.ftable f).writable = some x := by
        rw [tagInode, if_pos ⟨hty, by rw [hw]; rfl⟩, hip]
      obtain ⟨hr, hi, hvd, htg⟩ := hl.tagged
      obtain ⟨r, k2, hexec, hres⟩ := wp_total (@getFileTag_spec x (k1.withMem mem) p fd d f key buffer 18
        (by rw [Kern.withMem, hl.procs]; exact hfd) (by rw [Kern.withMem, hl.ftable]; exact hti')
        ⟨hr, hi, hvd, htg⟩ h0 hk)
      refine ⟨r, k2, hexec, ?_⟩
      rw [show r = _ from congrArg Prod.fst hres]
      exact readTag_nonneg hl.block hk.1 hk.2

end Listing

/-- The file system of `markedFile` after the tag `"a"` was stored. -/
def listedFs : Fs :=
  { markedFile.fs with
    disk := fun dev b =>
      if b = 100 then newSlot (fun _ => 0) 0 (fun j => markedFile.fs.mem (8 + j)) 1 (fun _ => 98) 1
      else markedFile.fs.disk dev b }

/-- Its tags. -/
def listedTags : TagMap := (∅ : TagMap).insert [97] (pad (fun _ => 98) 1)

/-- A kernel in which descriptor 3 is open on that file with the mode `omode`. -/
def listedFile (omode : Nat) : Kern :=
  { markedFile with
    fs := listedFs
    ftable := fun y => { markedFile.ftable y with
      readable := omode &&& O_WRONLY = 0
      writable := omode &&& O_WRONLY ≠ 0 ∨ omode &&& O_RDWR ≠ 0 } }

theorem listedFs_carries : CarriesTags listedFs 0 listedTags := by
  refine ⟨by decide, rfl, rfl, .inl ⟨by decide, ?_⟩⟩
  have hlen : (strlen fun j => markedFile.fs.mem (8 + j)) = 1 := strlen_eq (by decide) rfl (by decide)
  have hkey : cstr (fun j => markedFile.fs.mem (8 + j)) = [97] := markedFile_key
  have hb := @TagBlock.insert (fun _ => 0) (fun j => markedFile.fs.mem (8 + j)) (fun _ => 98) ∅
    (TagBlock.zero fun _ _ => rfl) 0 1 (tagTable_eq_none.mpr rfl) (by omega) (by omega) (by decide)
    Finmap.notMem_empty
  rw [hlen, hkey] at hb
  exact hb

theorem listedFile_opened (omode : Nat) : OpenedWith ((listedFile omode).ftable 0) omode 0 := ⟨rfl, rfl, rfl, rfl⟩

/-- On a descriptor open for reading and writing the stored key is read. -/
theorem getFileTag_getAllTags_readWrite : CarriesTags (listedFile O_RDWR).fs 0 listedTags ∧
    ∀ n k1, exec (getAllTags 0 3 64 16) (listedFile O_RDWR) = (.ok n, k1) → 0 ≤ n →
      ∃ r k2, exec (getFileTag 0 3 8 32 18) (k1.withMem markedFile.fs.mem) = (.ok r, k2) ∧
        (0 ≤ r ↔ strAt markedFile.fs.mem 8 ∈ (List.range n.toNat).map fun j => strAt k1.fs.mem (64 + 10 * j)) :=
  ⟨listedFs_carries, (@getFileTag_getAllTags_iff 0 listedTags 64 (listedFile O_RDWR) 0 3 3 0 O_RDWR 8 32
    markedFile.fs.mem (.inr (.inr rfl)) rfl (listedFile_opened _) listedFs_carries (by decide)
    (by rw [markedFile_key]; decide)).mpr (.inr (.inl (by decide)))⟩

/-- On a read-only descriptor the stored key is listed, and reading it fails. -/
theorem getFileTag_getAllTags_readOnly : ∃ n k1, exec (getAllTags 0 3 64 16) (listedFile O_RDONLY) = (.ok n, k1) ∧
    0 ≤ n ∧ strAt markedFile.fs.mem 8 ∈ ((List.range n.toNat).map fun j => strAt k1.fs.mem (64 + 10 * j)) ∧
    ∃ k2, exec (getFileTag 0 3 8 32 18) (k1.withMem markedFile.fs.mem) = (.ok (-1), k2) := by
  have hmem : [97] ∈ listedTags := Finmap.mem_insert.mpr (.inl rfl)
  have hne : listedTags ≠ ∅ := by
    intro he
    rw [he] at hmem
    exact Finmap.notMem_empty hmem
  have hlisted : wp (getAllTags 0 3 64 16)
      (fun n k1 => 0 ≤ n ∧ TagsListed (listedFile O_RDONLY) 0 listedTags 64 n k1) (fun _ _ => listedTags = ∅)
      (listedFile O_RDONLY) :=
    getAllTags_listed (k := listedFile O_RDONLY) (d := 3) (f := 0) rfl rfl listedFs_carries (by decide)
  obtain ⟨n, k1, hrun, hn, hl⟩ := wp_total (wp_mono hlisted (fun _ _ hq => hq) fun _ _ he => hne he)
  refine ⟨n, k1, hrun, hn, ?_, ?_⟩
  · rw [hl.listed, markedFile_key]
    exact hmem
  · obtain ⟨r, k2, hexec, rfl, -⟩ := wp_total (@getFileTag_unwritable (k1.withMem markedFile.fs.mem) 0 3 3 0 8 32 18
      (by rw [Kern.withMem, hl.procs]; rfl) (by rw [Kern.withMem, hl.ftable]; rfl))
    exact ⟨k2, hexec⟩

end Xv6
