import Xv6.Sys.TagStore
import Mathlib.Data.UInt

/-!
# `Sys.TagOps` — runs of the tag calls are runs on a map

`TagSpec` says what the three calls do to a finite map. Each call on an open file whose tag block
represents `m` returns what the specification says and leaves a block that represents the new map; any
sequence of calls, with any arguments and any user memory at each call, follows by induction.
-/

namespace Xv6

open Bytes Hoare SlotTable

/-! ## What the calls do to a map -/

namespace TagSpec

/-- `tagFile`: insert or overwrite a valid key, unless the block is full. -/
def tag (m : TagMap) (k : TagKey) (v : Arr) (n : Int) : Int × TagMap :=
  if (1 ≤ k.length ∧ k.length ≤ 9) ∧ (0 ≤ n ∧ n ≤ 18) ∧ (k ∈ m ∨ m.keys.card < 16) then
    (1, m.insert k (pad v n.toNat))
  else (-1, m)

theorem tag_invalid {m : TagMap} {k : TagKey} {v : Arr} {n : Int}
    (h : k.length < 1 ∨ 9 < k.length ∨ n < 0 ∨ 18 < n) : tag m k v n = (-1, m) := by
  unfold tag
  exact if_neg fun hc => by omega

/-- `removeFileTag`: delete a stored key. -/
def remove (m : TagMap) (k : TagKey) : Int × TagMap := if k ∈ m then (1, m.erase k) else (-1, m)

/-- `getAllTags`: the number of entries and a list with each key once, or -1 without room for all. -/
def Listed (m : TagMap) (maxTag : Int) (r : Int) (l : List TagKey) : Prop :=
  if (m.keys.card : Int) ≤ maxTag then r = m.keys.card ∧ l.Nodup ∧ ∀ k, k ∈ l ↔ k ∈ m else r = -1

end TagSpec

/-- A call, with the user memory it finds and its arguments. -/
inductive TagOp where
  | tagFile (mem : Arr) (key value : Nat) (valueLength : Int)
  | removeFileTag (mem : Arr) (key : Nat)
  | getAllTags (mem : Arr) (keys : Nat) (maxTag : Int)

/-- The string at user address `a`. -/
def strAt (mem : Arr) (a : Nat) : TagKey := cstr fun j => mem (a + j)

/-- One call on a map: the value returned, the keys listed and the new map. A null pointer stands for no
    key, value or list. -/
def TagOp.Spec : TagOp → TagMap → Int × List TagKey → TagMap → Prop
  | .tagFile mem key value n, m, (r, _), m' =>
    (r, m') = if key = 0 ∨ value = 0 then (-1, m)
      else TagSpec.tag m (strAt mem key) (fun j => mem (value + j)) n
  | .removeFileTag mem key, m, (r, _), m' =>
    (r, m') = if key = 0 then (-1, m) else TagSpec.remove m (strAt mem key)
  | .getAllTags _ keys maxTag, m, (r, l), m' =>
    m' = m ∧ if keys = 0 then r = -1 else TagSpec.Listed m maxTag r l

/-- A sequence of calls on a map. -/
inductive TagSpec.Run : TagMap → List TagOp → List (Int × List TagKey) → TagMap → Prop where
  | nil {m} : Run m [] [] m
  | cons {m m' m'' op ops r rs} : op.Spec m r m' → Run m' ops rs m'' → Run m (op :: ops) (r :: rs) m''

/-! ## The calls on the kernel -/

/-- The call made by process `p` on descriptor `fd`: the value returned, and the keys then found in `keys`. -/
def TagOp.run (p : Pid) (fd : Int) : TagOp → KM (Int × List TagKey)
  | .tagFile mem key value n => do
    modify fun k => { k with fs := { k.fs with mem } }
    return (← Xv6.tagFile p fd key value n, [])
  | .removeFileTag mem key => do
    modify fun k => { k with fs := { k.fs with mem } }
    return (← Xv6.removeFileTag p fd key, [])
  | .getAllTags mem keys maxTag => do
    modify fun k => { k with fs := { k.fs with mem } }
    let r ← Xv6.getAllTags p fd keys maxTag
    let k ← get
    return (r, (List.range r.toNat).map fun j => strAt k.fs.mem (keys + 10 * j))

/-- A sequence of calls on one descriptor. -/
def runTagOps (p : Pid) (fd : Int) : List TagOp → KM (List (Int × List TagKey))
  | [] => return []
  | op :: ops => do
    let r ← op.run p fd
    return r :: (← runTagOps p fd ops)

/-- An inode that is cached, loaded and unlocked, and has a tag block. -/
structure Tagged (s : Fs) (ip : Slot) : Prop where
  ref : 1 ≤ (s.icache ip).ref
  idle : (s.icache ip).busy = false
  valid : (s.icache ip).valid = true
  tags : (s.icache ip).tags ≠ 0

/-- The tag block of a cached inode. -/
def Fs.tagStr (s : Fs) (ip : Slot) : Arr := s.disk (s.icache ip).dev (s.icache ip).tags

/-- **What a tag call leaves alone.** The inode cache, and every sector but the tag block of `ip`. -/
structure TagFrame (ip : Slot) (s s' : Fs) : Prop where
  icache : s'.icache = s.icache
  disk : ∀ dev b, ¬ (dev = (s.icache ip).dev ∧ b = (s.icache ip).tags) → s'.disk dev b = s.disk dev b

theorem Tagged.frame {ip : Slot} {s s' : Fs} (h : Tagged s ip) (hf : TagFrame ip s s') : Tagged s' ip := by
  obtain ⟨h1, h2, h3, h4⟩ := h
  constructor <;> rw [hf.icache] <;> assumption

/-- Writing a sector of the same device changes no other. -/
theorem setSector_disk_ne (s : Fs) {dev b dev' b' : Nat} {d : Arr} (h : ¬ (dev' = dev ∧ b' = b)) :
    (s.setSector dev b d).disk dev' b' = s.disk dev' b' := by
  simp only [Fs.setSector]
  by_cases hd : dev' = dev
  · subst hd
    rw [Function.update_self, Function.update_of_ne fun hb => h ⟨rfl, hb⟩]
  · rw [Function.update_of_ne hd]

variable {s : Fs} {ip : Slot} {m : TagMap} {key value n : Nat}

/-- With a tag block in place nothing is allocated. -/
theorem wp_tagBlock {Q : Nat → Fs → Prop} {E : Stop → Fs → Prop} (h : (s.icache ip).tags ≠ 0) :
    wp (tagBlock ip) Q E s ↔ Q (s.icache ip).tags s := by
  simp [tagBlock, h]

/-- The state between `ilock` and `iunlock` of `ip`. -/
def Fs.locked (s : Fs) (ip : Slot) : Fs := s.setInode ip { s.icache ip with busy := true }

theorem locked_self (s : Fs) (ip : Slot) : (s.locked ip).icache ip = { s.icache ip with busy := true } :=
  Function.update_self ..

theorem locked_tagStr (s : Fs) (ip : Slot) : (s.locked ip).disk (s.icache ip).dev (s.icache ip).tags = s.tagStr ip := rfl

theorem locked_mem (s : Fs) (ip : Slot) : (s.locked ip).mem = s.mem := rfl

/-- Unlocking gives back the inode cache. -/
theorem wp_iunlock_locked {Q : Unit → Fs → Prop} {E : Stop → Fs → Prop} (href : 1 ≤ (s.icache ip).ref)
    (hidle : (s.icache ip).busy = false) {s' : Fs} (hc : s'.icache = (s.locked ip).icache) :
    wp (iunlock ip) Q E s' ↔ Q () { s' with icache := s.icache } := by
  have hip : s'.icache ip = { s.icache ip with busy := true } := by rw [hc, locked_self]
  rw [wp_iunlock_busy (by rw [hip]; exact href) (by rw [hip]), Fs.setInode, hip, hc, Fs.locked, setInode_icache,
    update_busy hidle]

/-- **The end of a tag call.** From the locked state, with at most the tag block replaced by one that
    represents `m'`, unlocking gives back the inode cache and the call is done. -/
theorem Tagged.wp_iunlock (ht : Tagged s ip) {s' : Fs} {m' : TagMap} {r : Int} {spec : Int × TagMap}
    (hc : s'.icache = (s.locked ip).icache)
    (hd : ∀ dev b, ¬ (dev = (s.icache ip).dev ∧ b = (s.icache ip).tags) → s'.disk dev b = s.disk dev b)
    (hb : TagBlock (s'.disk (s.icache ip).dev (s.icache ip).tags) m') (hspec : spec = (r, m')) :
    wp (iunlock ip) (fun _ s'' => TagFrame ip s s'' ∧ ∃ m', TagBlock (s''.tagStr ip) m' ∧ (r, m') = spec)
      (fun _ _ => False) s' :=
  (wp_iunlock_locked ht.ref ht.idle hc).mpr ⟨⟨rfl, hd⟩, m', hb, hspec.symm⟩

/-- `tagFile` after its argument checks. -/
theorem tagFileLocked_spec (ht : Tagged s ip) (hb : TagBlock (s.tagStr ip) m)
    (h1 : 1 ≤ (strAt s.mem key).length) (h9 : (strAt s.mem key).length ≤ 9) (hn : n ≤ 18) :
    wp (tagFileLocked ip key value n)
      (fun r s' => TagFrame ip s s' ∧ ∃ m', TagBlock (s'.tagStr ip) m' ∧
        (r, m') = TagSpec.tag m (strAt s.mem key) (fun j => s.mem (value + j)) n)
      (fun _ _ => False) s := by
  have hlen : (1 ≤ (strAt s.mem key).length ∧ (strAt s.mem key).length ≤ 9) ∧ ((0 : Int) ≤ n ∧ (n : Int) ≤ 18) :=
    ⟨⟨h1, h9⟩, by omega, by omega⟩
  simp only [tagFileLocked, wp_bind]
  rw [wp_ilock_valid ht.ref ht.idle ht.valid]
  show wp (tagBlock ip) _ _ (s.locked ip)
  rw [wp_tagBlock (by rw [locked_self]; exact ht.tags)]
  simp only [wp_inode, wp_bread, userStr, wp_bind, wp_get, wp_pure, locked_self, locked_tagStr, locked_mem,
    wp_ite, wp_loadUser, wp_bwrite]
  simp only [strAt, length_cstr] at h1 h9
  by_cases hk : strAt s.mem key ∈ m
  · obtain ⟨i, v, hi, hpos⟩ := searchKey_found hb h1 h9 hk
    rw [hpos, Int.toNat_natCast]
    refine ⟨fun hneg => absurd hneg (by omega), fun _ => ?_⟩
    refine ht.wp_iunlock rfl (fun _ _ h => setSector_disk_ne s h) (by simpa using hb.overwrite hi hn) ?_
    rw [TagSpec.tag, if_pos ⟨hlen.1, hlen.2, .inl hk⟩]; rfl
  · rw [searchKey_none hb h1 h9 hk]
    refine ⟨fun _ => ?_, fun hneg => absurd (by omega) hneg⟩
    by_cases hlt : m.keys.card < 16
    · obtain ⟨i, hi, hend⟩ := searchEnd_found hb hlt
      rw [hend, Int.toNat_natCast]
      refine ⟨fun hneg => absurd hneg (by omega), fun _ => ?_⟩
      refine ht.wp_iunlock rfl (fun _ _ h => setSector_disk_ne s h)
        (by simpa using hb.insert hi h1 h9 hn hk) ?_
      rw [TagSpec.tag, if_pos ⟨hlen.1, hlen.2, .inr hlt⟩]; rfl
    · rw [searchEnd_full hb hlt]
      refine ⟨fun _ => ht.wp_iunlock rfl (fun _ _ _ => rfl) hb ?_, fun hneg => absurd (by omega) hneg⟩
      rw [TagSpec.tag, if_neg fun hc => hc.2.2.elim hk hlt]

/-- `removeFileTag` after its argument checks. -/
theorem removeFileTagLocked_spec (ht : Tagged s ip) (hb : TagBlock (s.tagStr ip) m)
    (h1 : 1 ≤ (strAt s.mem key).length) (h9 : (strAt s.mem key).length ≤ 9) :
    wp (removeFileTagLocked ip key)
      (fun r s' => TagFrame ip s s' ∧ ∃ m', TagBlock (s'.tagStr ip) m' ∧
        (r, m') = TagSpec.remove m (strAt s.mem key))
      (fun _ _ => False) s := by
  simp only [removeFileTagLocked, wp_bind]
  rw [wp_ilock_valid ht.ref ht.idle ht.valid]
  show wp (inode ip) _ _ (s.locked ip)
  simp only [wp_inode, wp_bread, userStr, wp_bind, wp_get, wp_pure, locked_self, locked_tagStr, locked_mem, wp_ite, wp_bwrite]
  simp only [strAt, length_cstr] at h1 h9
  by_cases hk : strAt s.mem key ∈ m
  · obtain ⟨i, v, hi, hpos⟩ := searchKey_found hb h1 h9 hk
    rw [hpos, Int.toNat_natCast]
    refine ⟨fun hneg => absurd hneg (by omega), fun _ => ?_⟩
    refine ht.wp_iunlock rfl (fun _ _ h => setSector_disk_ne s h) (by simpa using hb.erase hi) ?_
    rw [TagSpec.remove, if_pos hk]; rfl
  · rw [searchKey_none hb h1 h9 hk]
    refine ⟨fun _ => ht.wp_iunlock rfl (fun _ _ _ => rfl) hb ?_, fun hneg => absurd (by omega) hneg⟩
    rw [TagSpec.remove, if_neg hk]

theorem slots_eq : slots = (List.finRange 16).map fun i => 32 * i.val := by decide

/-- The keys `getAllTags` copies while it visits the slots `is`. -/
def keysOf (str : Arr) (is : List (Fin 16)) : List TagKey :=
  is.filterMap fun i => (tagTable str i).map Prod.fst

/-- **The copy loop.** The keys of the slots still to visit go to `keys` from index `t` on, and nothing below
    that is written. -/
theorem copyKeys_spec {str : Arr} (hb : TagBlock str m) {keys : Nat} {maxTag : Int} (is : List (Fin 16)) :
    ∀ (t : Nat) (s : Fs), (t : Int) ≤ maxTag →
    wp (copyKeys str keys maxTag (is.map fun i => 32 * i.val) t)
      (fun r s' => s'.icache = s.icache ∧ s'.disk = s.disk ∧ (∀ a < keys + 10 * t, s'.mem a = s.mem a) ∧
        if ((t + (keysOf str is).length : Nat) : Int) ≤ maxTag then
          r = (t + (keysOf str is).length : Nat) ∧
          (List.range (keysOf str is).length).map (fun j => strAt s'.mem (keys + 10 * (t + j))) = keysOf str is
        else r = -1)
      (fun _ _ => False) s := by
  induction is with
  | nil =>
    intro t s ht
    refine ⟨rfl, rfl, fun _ _ => rfl, ?_⟩
    rw [if_pos (by simpa [keysOf] using ht)]
    exact ⟨rfl, rfl⟩
  | cons i rest ih =>
    intro t s ht
    simp only [List.map_cons, copyKeys]
    by_cases h0 : str (32 * i.val) = 0
    · have hskip : keysOf str (i :: rest) = keysOf str rest := by
        simp [keysOf, tagTable_eq_none.mpr h0]
      rw [if_neg (not_not.mpr h0), hskip]
      exact ih t s ht
    · have hkeys : keysOf str (i :: rest) = slotKey str i :: keysOf str rest := by
        simp [keysOf, tagTable_eq_some.mpr ⟨h0, rfl, rfl⟩]
      rw [if_pos h0, hkeys, List.length_cons]
      by_cases hfull : maxTag ≤ t
      · rw [if_pos hfull, wp_pure]
        refine ⟨rfl, rfl, fun _ _ => rfl, ?_⟩
        rw [if_neg (by omega)]
      · rw [if_neg hfull, wp_bind, wp_storeUser]
        refine wp_post (ih (t + 1) _ (by omega)) ?_
        rintro r s' ⟨hic, hdk, hmem, hr⟩
        dsimp only at hmem
        have hlen := hb.slotKey_length i.isLt h0
        simp only [slotKey, length_cstr] at hlen
        refine ⟨hic, hdk, fun a ha => ?_, ?_⟩
        · exact (hmem a (by omega)).trans (blit_out (.inl ha))
        rw [show t + 1 + (keysOf str rest).length = t + ((keysOf str rest).length + 1) by omega] at hr
        by_cases hfit : ((t + ((keysOf str rest).length + 1) : Nat) : Int) ≤ maxTag
        · rw [if_pos hfit] at hr ⊢
          obtain ⟨hr1, hr2⟩ := hr
          refine ⟨hr1, ?_⟩
          rw [List.range_succ_eq_map, List.map_cons, List.map_map]
          congr 1
          · -- the key just copied is below everything the rest of the loop writes
            refine (cstr_eq_iff (by omega)).mpr fun j hj => ?_
            rw [Nat.add_zero, hmem _ (by omega), blit_in (by omega) (by omega), Nat.add_sub_cancel_left]
          · refine Eq.trans (List.map_congr_left fun j _ => ?_) hr2
            simp only [Function.comp_apply, show t + j.succ = t + 1 + j by omega]
        · rw [if_neg hfit] at hr ⊢
          exact hr

/-- **The copy loop over all slots** lists the keys of the map. -/
theorem copyKeys_listed {str : Arr} (hb : TagBlock str m) {keys : Nat} {maxTag : Int} (hmax : 0 ≤ maxTag) (s : Fs) :
    wp (copyKeys str keys maxTag slots 0)
      (fun r s' => s'.icache = s.icache ∧ s'.disk = s.disk ∧
        TagSpec.Listed m maxTag r ((List.range r.toNat).map fun j => strAt s'.mem (keys + 10 * j)))
      (fun _ _ => False) s := by
  rw [slots_eq]
  refine wp_post (copyKeys_spec hb (List.finRange 16) 0 s hmax) ?_
  rintro r s' ⟨hic, hdk, -, hr⟩
  refine ⟨hic, hdk, ?_⟩
  have hcard : m.keys.card = (keysOf str (List.finRange 16)).length := hb.rep.card
  rw [TagSpec.Listed, hcard]
  simp only [Nat.zero_add] at hr
  by_cases hfit : ((keysOf str (List.finRange 16)).length : Int) ≤ maxTag
  · rw [if_pos hfit] at hr ⊢
    obtain ⟨hr1, hr2⟩ := hr
    rw [hr1, Int.toNat_natCast, hr2]
    exact ⟨rfl, hb.rep.keyList_nodup, fun k => (mem_keyList).trans hb.rep.mem_iff.symm⟩
  · rw [if_neg hfit] at hr ⊢
    exact hr

/-- `getAllTags` after its argument checks. -/
theorem getAllTagsLocked_spec (ht : Tagged s ip) (hb : TagBlock (s.tagStr ip) m) {keys : Nat} {maxTag : Int}
    (hmax : 0 ≤ maxTag) :
    wp (getAllTagsLocked ip keys maxTag)
      (fun r s' => TagFrame ip s s' ∧ TagBlock (s'.tagStr ip) m ∧
        TagSpec.Listed m maxTag r ((List.range r.toNat).map fun j => strAt s'.mem (keys + 10 * j)))
      (fun _ _ => False) s := by
  simp only [getAllTagsLocked, wp_bind]
  rw [wp_ilock_valid ht.ref ht.idle ht.valid]
  show wp (tagBlock ip) _ _ (s.locked ip)
  rw [wp_tagBlock (by rw [locked_self]; exact ht.tags)]
  simp only [wp_inode, wp_bread, locked_self, locked_tagStr]
  refine wp_post (ht.wp_iunlock (r := 0) rfl (fun _ _ _ => rfl) hb rfl) ?_
  rintro _ s1 ⟨hf, m1, hb1, hm1⟩
  obtain rfl : m1 = m := by simpa using hm1
  refine wp_post (copyKeys_listed hb hmax s1) ?_
  rintro r s' ⟨hic, hdk, hlist⟩
  have htag : s'.tagStr ip = s1.tagStr ip := by simp only [Fs.tagStr, hic, hdk]
  exact ⟨⟨hic.trans hf.icache, fun dev b h => by rw [hdk]; exact hf.disk dev b h⟩, htag ▸ hb1, hlist⟩

/-! ## Runs -/

/-- Descriptor `fd` of process `p` is open for reading and writing on the inode in slot `ip`, which stays
    cached and has a tag block. -/
structure TagOpen (k : Kern) (p : Pid) (fd : Int) (ip : Slot) : Prop where
  file : ∃ d f, fdFile (k.procs p) fd = some (d, f) ∧ (k.ftable f).type = .FD_INODE ∧
    (k.ftable f).readable = true ∧ (k.ftable f).writable = true ∧ (k.ftable f).ip = some ip
  tagged : Tagged k.fs ip

theorem TagOpen.frame {k : Kern} {p : Pid} {fd : Int} {ip : Slot} (h : TagOpen k p fd ip) {fs : Fs}
    (hf : TagFrame ip k.fs fs) : TagOpen { k with fs } p fd ip :=
  ⟨h.file, h.tagged.frame hf⟩

/-- Changing user memory before a call changes nothing else. -/
theorem TagOpen.setMem {k : Kern} {p : Pid} {fd : Int} {ip : Slot} (h : TagOpen k p fd ip) (mem : Arr) :
    TagOpen { k with fs := { k.fs with mem } } p fd ip :=
  h.frame ⟨rfl, fun _ _ _ => rfl⟩

section Calls
variable {k : Kern} {p : Pid} {fd : Int}

/-- A key that cannot be stored is not stored. -/
theorem TagBlock.not_mem {str : Arr} (hb : TagBlock str m) {k : TagKey}
    (h : k.length < 1 ∨ 9 < k.length) : k ∉ m := by
  intro hk
  obtain ⟨v, hv⟩ := Finmap.mem_iff.mp hk
  obtain ⟨h1, h9, -⟩ := hb.entries hv
  omega

/-- The outcome of a call: the value `r` and a new map as the specification has them, and nothing else
    changed. -/
def TagDone (k : Kern) (ip : Slot) (spec : Int × TagMap) (r : Int) (k' : Kern) : Prop :=
  ∃ fs m', k' = { k with fs } ∧ TagFrame ip k.fs fs ∧ TagBlock (fs.tagStr ip) m' ∧ (r, m') = spec

/-- A call that fails a check returns -1 in the state it started in. -/
theorem TagDone.fail (hb : TagBlock (k.fs.tagStr ip) m) {spec : Int × TagMap} (h : spec = (-1, m)) :
    TagDone k ip spec (-1) k :=
  ⟨k.fs, m, rfl, ⟨rfl, fun _ _ _ => rfl⟩, hb, h.symm⟩

theorem tagFile_spec (ho : TagOpen k p fd ip) (hb : TagBlock (k.fs.tagStr ip) m) (n : Int) :
    wp (tagFile p fd key value n)
      (TagDone k ip (if key = 0 ∨ value = 0 then (-1, m)
        else TagSpec.tag m (strAt k.fs.mem key) (fun j => k.fs.mem (value + j)) n))
      (fun _ _ => False) k := by
  obtain ⟨d, f, hfd, hty, -, hw, hip⟩ := ho.file
  have hti : tagInode (k.ftable f) (k.ftable f).writable = some ip := by simp [tagInode, hty, hw, hip]
  have hlen : (strAt k.fs.mem key).length = strlen fun j => k.fs.mem (key + j) := length_cstr _
  simp only [tagFile, wp_bind, proc, file, wp_get, wp_pure, hfd, hti, onFs, wp_zoom, userStr, ← hlen]
  by_cases hk : key = 0 ∨ (strAt k.fs.mem key).length < 1 ∨ 9 < (strAt k.fs.mem key).length
  · rw [if_pos hk, wp_pure]
    refine TagDone.fail hb ?_
    rcases hk with h0 | hk
    · rw [if_pos (.inl h0)]
    · rw [TagSpec.tag_invalid (by omega), ite_self]
  rw [if_neg hk]
  by_cases hv : value = 0 ∨ n < 0 ∨ 18 < n
  · rw [if_pos hv, wp_pure]
    refine TagDone.fail hb ?_
    rcases hv with h0 | hv
    · rw [if_pos (.inr h0)]
    · rw [TagSpec.tag_invalid (by omega), ite_self]
  have hlen9 : 1 ≤ (strAt k.fs.mem key).length ∧ (strAt k.fs.mem key).length ≤ 9 := by omega
  rw [if_neg hv, wp_zoom, if_neg fun hc => hc.elim (fun h => hk (.inl h)) fun h => hv (.inl h)]
  refine wp_post (tagFileLocked_spec ho.tagged hb hlen9.1 hlen9.2 (by omega)) ?_
  rintro r fs ⟨hf, m', hb', hr⟩
  rw [Int.toNat_of_nonneg (by omega)] at hr
  exact ⟨fs, m', rfl, hf, hb', hr⟩

theorem removeFileTag_spec (ho : TagOpen k p fd ip) (hb : TagBlock (k.fs.tagStr ip) m) :
    wp (removeFileTag p fd key)
      (TagDone k ip (if key = 0 then (-1, m) else TagSpec.remove m (strAt k.fs.mem key)))
      (fun _ _ => False) k := by
  obtain ⟨d, f, hfd, hty, -, hw, hip⟩ := ho.file
  have hti : tagInode (k.ftable f) (k.ftable f).writable = some ip := by simp [tagInode, hty, hw, hip]
  have hlen : (strAt k.fs.mem key).length = strlen fun j => k.fs.mem (key + j) := length_cstr _
  simp only [removeFileTag, wp_bind, proc, file, wp_get, wp_pure, hfd, hti, onFs, wp_zoom, userStr, wp_inode,
    ← hlen]
  rw [if_neg ho.tagged.tags]
  by_cases hk : key = 0 ∨ (strAt k.fs.mem key).length < 1 ∨ 9 < (strAt k.fs.mem key).length
  · rw [if_pos hk, wp_pure]
    refine TagDone.fail hb ?_
    rcases hk with h0 | hk
    · rw [if_pos h0]
    · rw [TagSpec.remove, if_neg (hb.not_mem hk), ite_self]
  have hlen9 : 1 ≤ (strAt k.fs.mem key).length ∧ (strAt k.fs.mem key).length ≤ 9 := by omega
  rw [if_neg hk, wp_zoom, if_neg fun h => hk (.inl h)]
  refine wp_post (removeFileTagLocked_spec ho.tagged hb hlen9.1 hlen9.2) ?_
  rintro r fs ⟨hf, m', hb', hr⟩
  exact ⟨fs, m', rfl, hf, hb', hr⟩

theorem getAllTags_spec (ho : TagOpen k p fd ip) (hb : TagBlock (k.fs.tagStr ip) m) {keys : Nat} {maxTag : Int} :
    wp (getAllTags p fd keys maxTag)
      (fun r k' => ∃ fs, k' = { k with fs } ∧ TagFrame ip k.fs fs ∧ TagBlock (fs.tagStr ip) m ∧
        if keys = 0 then r = -1
        else TagSpec.Listed m maxTag r ((List.range r.toNat).map fun j => strAt fs.mem (keys + 10 * j)))
      (fun _ _ => False) k := by
  obtain ⟨d, f, hfd, hty, hrd, -, hip⟩ := ho.file
  have hti : tagInode (k.ftable f) (k.ftable f).readable = some ip := by simp [tagInode, hty, hrd, hip]
  simp only [getAllTags, wp_bind, proc, file, wp_get, wp_pure, hfd, hti]
  by_cases hk : keys = 0
  · rw [if_pos hk, wp_pure]
    exact ⟨k.fs, rfl, ⟨rfl, fun _ _ _ => rfl⟩, hb, by rw [if_pos hk]⟩
  rw [if_neg hk]
  by_cases hmax : maxTag < 0
  · rw [if_pos hmax, wp_pure]
    refine ⟨k.fs, rfl, ⟨rfl, fun _ _ _ => rfl⟩, hb, ?_⟩
    rw [if_neg hk, TagSpec.Listed, if_neg (by omega)]
  rw [if_neg hmax, onFs, wp_zoom]
  refine wp_post (getAllTagsLocked_spec ho.tagged hb (by omega)) ?_
  rintro r fs ⟨hf, hb', hr⟩
  exact ⟨fs, rfl, hf, hb', by rw [if_neg hk]; exact hr⟩

/-- **Step.** One call, with any arguments and any user memory, does to the block what it does to the map. -/
theorem TagOp.run_spec (op : TagOp) (ho : TagOpen k p fd ip) (hb : TagBlock (k.fs.tagStr ip) m) :
    wp (op.run p fd)
      (fun r k' => TagOpen k' p fd ip ∧ ∃ m', TagBlock (k'.fs.tagStr ip) m' ∧ op.Spec m r m')
      (fun _ _ => False) k := by
  cases op with
  | tagFile mem key value n =>
    simp only [TagOp.run, wp_bind, wp_modify, wp_pure]
    refine wp_post (tagFile_spec (ho.setMem mem) hb n) ?_
    rintro r _ ⟨fs, m', rfl, hf, hb', hr⟩
    exact ⟨(ho.setMem mem).frame hf, m', hb', hr⟩
  | removeFileTag mem key =>
    simp only [TagOp.run, wp_bind, wp_modify, wp_pure]
    refine wp_post (removeFileTag_spec (ho.setMem mem) hb) ?_
    rintro r _ ⟨fs, m', rfl, hf, hb', hr⟩
    exact ⟨(ho.setMem mem).frame hf, m', hb', hr⟩
  | getAllTags mem keys maxTag =>
    simp only [TagOp.run, wp_bind, wp_modify, wp_pure, wp_get]
    refine wp_post (getAllTags_spec (ho.setMem mem) hb) ?_
    rintro r _ ⟨fs, rfl, hf, hb', hr⟩
    exact ⟨(ho.setMem mem).frame hf, m, hb', rfl, hr⟩

/-- **Run.** Every sequence of calls is a run of the specification from the map the block represents. -/
theorem runTagOps_spec (ops : List TagOp) (ho : TagOpen k p fd ip) (hb : TagBlock (k.fs.tagStr ip) m) :
    wp (runTagOps p fd ops)
      (fun rs k' => TagOpen k' p fd ip ∧ ∃ m', TagBlock (k'.fs.tagStr ip) m' ∧ TagSpec.Run m ops rs m')
      (fun _ _ => False) k := by
  induction ops generalizing k m with
  | nil => exact ⟨ho, m, hb, .nil⟩
  | cons op ops ih =>
    simp only [runTagOps, wp_bind, wp_pure]
    refine wp_post (op.run_spec ho hb) ?_
    rintro r k1 ⟨ho1, m1, hb1, hr⟩
    refine wp_post (ih ho1 hb1) ?_
    rintro rs k2 ⟨ho2, m2, hb2, hrs⟩
    exact ⟨ho2, m2, hb2, .cons hr hrs⟩

end Calls

/-- **The tag store is a finite map.** From a zeroed tag block, every sequence of `tagFile`,
    `removeFileTag` and `getAllTags` calls returns, with the values and the lists the map operations give;
    the block then represents the map they lead to, with each key in one slot, at most 16 entries, keys of
    1 to 9 non-NUL bytes and values of 18 bytes. -/
theorem tagOps_refine_map (k : Kern) (p : Pid) (fd : Int) (ip : Slot) (ho : TagOpen k p fd ip)
    (hz : ∀ i < BSIZE, k.fs.tagStr ip i = 0) (ops : List TagOp) :
    ∃ rs k' m, exec (runTagOps p fd ops) k = (.ok rs, k') ∧ TagSpec.Run ∅ ops rs m ∧
      TagOpen k' p fd ip ∧ TagBlock (k'.fs.tagStr ip) m ∧ m.keys.card ≤ 16 ∧
      ∀ key v, m.lookup key = some v → 1 ≤ key.length ∧ key.length ≤ 9 ∧ 0 ∉ key ∧ v.length = 18 := by
  obtain ⟨rs, k', hexec, ho', m, hb', hrun⟩ := wp_total (runTagOps_spec ops ho (TagBlock.zero hz))
  exact ⟨rs, k', m, hexec, hrun, ho', hb', hb'.rep.card_le, fun key v h => hb'.entries h⟩

/-- A kernel in which every process has descriptor 3 open on a file with a zeroed tag block. -/
def oneFile : Kern where
  fs := {
    disk := fun _ _ _ => 0
    icache := fun ip => {
      type := T_FILE, major := 0, minor := 0, nlink := 1, size := 0, addrs := fun _ => 0
      dev := ROOTDEV, inum := 2, ref := if ip = 0 then 1 else 0, busy := false, valid := true, tags := 100 }
    tty := fun _ => none
    mem := fun _ => 0
    acc := [] }
  ftable f :=
    { type := .FD_INODE, ref := if f = 0 then 1 else 0, readable := true, writable := true, pipe := 0,
      ip := some 0, off := 0 }
  pipes _ := none
  procs _ :=
    { sz := 4096, esp := 0, eip := 0, killed := false, ofile := fun d => if d = 3 then some 0 else none, cwd := some 0,
      name := [] }

/-- Tagging with the key `"a"`, listing and removing it. -/
theorem tagOps_refine_map_oneFile :
    TagOpen oneFile 0 3 0 ∧ (∀ i < BSIZE, oneFile.fs.tagStr 0 i = 0) ∧
    ∃ rs k' m, exec (runTagOps 0 3 [.tagFile (Function.update 0 8 97) 8 16 3,
        .getAllTags 0 32 1, .removeFileTag (Function.update 0 8 97) 8]) oneFile = (.ok rs, k') ∧
      TagSpec.Run ∅ [.tagFile (Function.update 0 8 97) 8 16 3,
        .getAllTags 0 32 1, .removeFileTag (Function.update 0 8 97) 8] rs m ∧
      TagOpen k' 0 3 0 ∧ TagBlock (k'.fs.tagStr 0) m ∧ m.keys.card ≤ 16 ∧
      ∀ key v, m.lookup key = some v → 1 ≤ key.length ∧ key.length ≤ 9 ∧ 0 ∉ key ∧ v.length = 18 := by
  have ho : TagOpen oneFile 0 3 0 :=
    ⟨⟨3, 0, rfl, rfl, rfl, rfl, rfl⟩, by decide, rfl, rfl, by decide⟩
  have hz : ∀ i < BSIZE, oneFile.fs.tagStr 0 i = 0 := fun _ _ => rfl
  exact ⟨ho, hz, tagOps_refine_map oneFile 0 3 0 ho hz _⟩

end Xv6
