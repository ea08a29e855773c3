import Xv6.Fs.Pointers
import Mathlib.Data.Finset.Basic
import Mathlib.Data.Multiset.Count

/-!
# `Fs.Cache` — the inode cache as a set of references

The ghost state `Ghost` says who refers to the cache: `refs` has one element for every counted reference
to a slot, `held` the slots whose lock is held, `tbl` the current metadata of every inode, which is the
copy in the cache when there is one and the stored one otherwise. A slot may be given away only when it
has no element in `refs`, so whatever is known about a slot in `refs` survives.
-/

namespace Xv6

open Bytes Hoare Ownership

/-- What file system calls never change: the layout, the blocks set aside with their contents, and the `tags`
    fields of the cache slots. -/
structure Env where
  sb : Superblock
  R : Nat → Option Arr
  tg : Slot → Nat

/-- Ghost state of the file system. -/
structure Ghost extends Env where
  tbl : Nat → Meta
  refs : Multiset Slot
  held : Finset Slot

/-- Change the metadata of inode `i`. -/
def Ghost.setMeta (G : Ghost) (i : Nat) (m : Meta) : Ghost := ⟨G.toEnv, Function.update G.tbl i m, G.refs, G.held⟩

@[simp] theorem Ghost.setMeta_sb (G : Ghost) (i : Nat) (m : Meta) : (G.setMeta i m).sb = G.sb := rfl

@[simp] theorem Ghost.setMeta_refs (G : Ghost) (i : Nat) (m : Meta) : (G.setMeta i m).refs = G.refs := rfl

@[simp] theorem Ghost.setMeta_held (G : Ghost) (i : Nat) (m : Meta) : (G.setMeta i m).held = G.held := rfl

@[simp] theorem Ghost.setMeta_tbl (G : Ghost) (i : Nat) (m : Meta) :
    (G.setMeta i m).tbl = Function.update G.tbl i m := rfl

/-- **The cache invariant.** References are counted, referenced slots cache distinct inodes of the root
    device, and a loaded slot has the current metadata of an allocated inode. -/
structure Cached (G : Ghost) (c : Slot → Inode) : Prop where
  ref : ∀ x, (c x).ref = G.refs.count x
  dev : ∀ x ∈ G.refs, (c x).dev = ROOTDEV
  inum : ∀ x ∈ G.refs, 1 ≤ (c x).inum ∧ (c x).inum < G.sb.ninodes
  uniq : ∀ x ∈ G.refs, ∀ y ∈ G.refs, (c x).inum = (c y).inum → x = y
  coh : ∀ x ∈ G.refs, (c x).valid = true → (c x).toMeta = G.tbl (c x).inum ∧ (G.tbl (c x).inum).type ≠ 0
  busy : ∀ x ∈ G.refs, (c x).busy = decide (x ∈ G.held)
  held : ∀ x ∈ G.held, x ∈ G.refs ∧ (c x).valid = true
  tags : ∀ x, (c x).tags = G.tg x

/-- The volume and the cache. -/
structure Core (G : Ghost) (s : Fs) : Prop where
  vol : Vol G.sb G.R G.tbl (s.disk ROOTDEV)
  cache : Cached G s.icache

/-- The stored inodes are current. -/
def Clean (G : Ghost) (s : Fs) : Prop := ∀ i < G.sb.ninodes, dmeta (s.disk ROOTDEV) i = G.tbl i

/-- What is known of the slots of `K` survives: the inode they cache, and that it is loaded. -/
structure Keeps (K : Multiset Slot) (s s' : Fs) : Prop where
  inum : ∀ x ∈ K, (s'.icache x).inum = (s.icache x).inum
  valid : ∀ x ∈ K, (s.icache x).valid = true → (s'.icache x).valid = true

theorem Keeps.refl (K : Multiset Slot) (s : Fs) : Keeps K s s := ⟨fun _ _ => rfl, fun _ _ h => h⟩

theorem Keeps.trans {K : Multiset Slot} {s s' s'' : Fs} (h : Keeps K s s') (h' : Keeps K s' s'') :
    Keeps K s s'' :=
  ⟨fun x hx => (h'.inum x hx).trans (h.inum x hx), fun x hx hv => h'.valid x hx (h.valid x hx hv)⟩

theorem Keeps.mono {K K' : Multiset Slot} {s s' : Fs} (h : Keeps K s s') (hs : K' ⊆ K) : Keeps K' s s' :=
  ⟨fun x hx => h.inum x (hs hx), fun x hx => h.valid x (hs hx)⟩

theorem Keeps.of_icache (K : Multiset Slot) {s s' : Fs} (h : s'.icache = s.icache) : Keeps K s s' := by
  constructor <;> intro x _ <;> simp only [h, imp_self]

variable {G G' : Ghost} {c : Slot → Inode} {x : Slot} {v : Inode} {s s' : Fs} {i : Nat}

/-- A change of one slot keeps every fact it does not change. -/
theorem Keeps.setInode (K : Multiset Slot) (hi : v.inum = (s.icache x).inum)
    (hv : (s.icache x).valid = true → v.valid = true) : Keeps K s (s.setInode x v) := by
  constructor
  · intro y _
    by_cases hy : y = x
    · subst hy; simp [hi]
    · simp [Function.update_of_ne hy]
  · intro y _ hval
    by_cases hy : y = x
    · subst hy; simpa using hv hval
    · simpa [Function.update_of_ne hy] using hval

/-! ## One slot at a time -/

/-- **Changing a referenced slot** without changing who refers to it or which inode it caches. -/
theorem Cached.modify (h : Cached G c) (hx : x ∈ G.refs) (hsb : G'.sb = G.sb) (htg : G'.tg = G.tg)
    (hrefs : G'.refs = G.refs) (hdev : v.dev = (c x).dev) (hinum : v.inum = (c x).inum)
    (href : v.ref = (c x).ref) (htags : v.tags = (c x).tags)
    (hcoh : v.valid = true → v.toMeta = G'.tbl v.inum ∧ (G'.tbl v.inum).type ≠ 0)
    (hbusy : v.busy = decide (x ∈ G'.held)) (hval : x ∈ G'.held → v.valid = true)
    (hheld : ∀ y, y ≠ x → (y ∈ G'.held ↔ y ∈ G.held))
    (htbl : ∀ y ∈ G.refs, y ≠ x → G'.tbl (c y).inum = G.tbl (c y).inum) :
    Cached G' (Function.update c x v) := by
  -- every field is split into the slot that changes and the others
  have hinum' : ∀ y, (Function.update c x v y).inum = (c y).inum := by
    intro y
    by_cases hy : y = x
    · subst hy; rw [Function.update_self, hinum]
    · rw [Function.update_of_ne hy]
  constructor
  · intro y
    rw [hrefs]
    by_cases hy : y = x
    · subst hy; rw [Function.update_self, href]; exact h.ref y
    · rw [Function.update_of_ne hy]; exact h.ref y
  · intro y hmem
    rw [hrefs] at hmem
    by_cases hy : y = x
    · subst hy; rw [Function.update_self, hdev]; exact h.dev y hmem
    · rw [Function.update_of_ne hy]; exact h.dev y hmem
  · intro y hmem
    rw [hrefs] at hmem
    rw [hinum', hsb]; exact h.inum y hmem
  · intro y hmem z hz heq
    rw [hrefs] at hmem hz
    rw [hinum', hinum'] at heq
    exact h.uniq y hmem z hz heq
  · intro y hmem hvalid
    rw [hrefs] at hmem
    by_cases hy : y = x
    · subst hy; rw [Function.update_self] at hvalid ⊢; exact hcoh hvalid
    · rw [Function.update_of_ne hy] at hvalid ⊢
      rw [htbl y hmem hy]; exact h.coh y hmem hvalid
  · intro y hmem
    rw [hrefs] at hmem
    by_cases hy : y = x
    · subst hy; rw [Function.update_self]; exact hbusy
    · rw [Function.update_of_ne hy, h.busy y hmem]; simp only [hheld y hy]
  · intro y hmem
    rw [hrefs]
    by_cases hy : y = x
    · subst hy; rw [Function.update_self]; exact ⟨hx, hval hmem⟩
    · rw [Function.update_of_ne hy]; exact h.held y ((hheld y hy).mp hmem)
  · intro y
    rw [htg]
    by_cases hy : y = x
    · subst hy; rw [Function.update_self, htags]; exact h.tags y
    · rw [Function.update_of_ne hy]; exact h.tags y

/-- A slot is referenced exactly when its count is positive. -/
theorem Cached.ref_pos (h : Cached G c) : 0 < (c x).ref ↔ x ∈ G.refs := by
  rw [h.ref, ← Multiset.count_pos]; omega

theorem Cached.full (h : Cached G s.icache) (he : s.emptySlot = none) (x : Slot) : x ∈ G.refs := by
  have hused := List.find?_eq_none.mp he x (List.mem_finRange x)
  rw [decide_eq_true_eq, h.ref] at hused
  exact Multiset.count_pos.mp (by omega)

theorem Cached.notMem_of_emptySlot (h : Cached G s.icache) (he : s.emptySlot = some x) : x ∉ G.refs := by
  have hfree := List.find?_some he
  simp only [decide_eq_true_eq] at hfree
  intro hmem
  have := h.ref_pos.mpr hmem
  omega

/-- Counting references anew, as long as locked slots keep one. -/
theorem Cached.recount {K : Multiset Slot} {c' : Slot → Inode} (h : Cached G c) (hsub : ∀ y ∈ K, y ∈ G.refs)
    (hheld : ∀ y ∈ G.held, y ∈ K) (href : ∀ y, (c' y).ref = (K.count y : Int))
    (hsame : ∀ y, c' y = { c y with ref := (c' y).ref }) : Cached ⟨G.toEnv, G.tbl, K, G.held⟩ c' := by
  refine ⟨href, ?_, ?_, ?_, ?_, ?_, ?_, ?_⟩
  · intro y hy; rw [hsame]; exact h.dev y (hsub y hy)
  · intro y hy; rw [hsame]; exact h.inum y (hsub y hy)
  · intro y hy z hz; rw [hsame y, hsame z]; exact h.uniq y (hsub y hy) z (hsub z hz)
  · intro y hy; rw [hsame]; exact h.coh y (hsub y hy)
  · intro y hy; rw [hsame]; exact h.busy y (hsub y hy)
  · intro y hy; rw [hsame]; exact ⟨hheld y hy, (h.held y hy).2⟩
  · intro y; rw [hsame]; exact h.tags y

theorem update_ref (c : Slot → Inode) (x : Slot) (n : Int) (y : Slot) :
    Function.update c x { c x with ref := n } y = { c y with ref := (Function.update c x { c x with ref := n } y).ref } := by
  by_cases hy : y = x
  · subst hy; rw [Function.update_self]
  · rw [Function.update_of_ne hy]

/-- **One more reference** to a cached inode. -/
theorem Cached.grab (h : Cached G c) (hx : x ∈ G.refs) :
    Cached ⟨G.toEnv, G.tbl, x ::ₘ G.refs, G.held⟩ (Function.update c x { c x with ref := (c x).ref + 1 }) := by
  refine h.recount (fun y hy => ?_) (fun y hy => Multiset.mem_cons_of_mem (h.held y hy).1) (fun y => ?_) (update_ref c x _)
  · rcases Multiset.mem_cons.mp hy with rfl | hy
    · exact hx
    · exact hy
  · by_cases hy : y = x
    · subst hy
      rw [Function.update_self, Multiset.count_cons_self, h.ref]; push_cast; rfl
    · rw [Function.update_of_ne hy, Multiset.count_cons_of_ne hy, h.ref]

/-- **A first reference**, in a slot nobody refers to. -/
theorem Cached.fresh (h : Cached G c) (hx : x ∉ G.refs) (hi : 1 ≤ i ∧ i < G.sb.ninodes)
    (hnew : ∀ y ∈ G.refs, (c y).inum ≠ i) :
    Cached ⟨G.toEnv, G.tbl, x ::ₘ G.refs, G.held⟩
      (Function.update c x { c x with dev := ROOTDEV, inum := i, ref := 1, busy := false, valid := false }) := by
  have hne : ∀ y ∈ G.refs, y ≠ x := by rintro y hy rfl; exact hx hy
  have hxheld : x ∉ G.held := fun hc => hx (h.held x hc).1
  constructor
  · intro y
    by_cases hy : y = x
    · subst hy
      rw [Function.update_self, Multiset.count_cons_self, Multiset.count_eq_zero_of_notMem hx]; rfl
    · rw [Function.update_of_ne hy, Multiset.count_cons_of_ne hy, h.ref]
  · intro y hy
    rcases Multiset.mem_cons.mp hy with rfl | hy
    · rw [Function.update_self]
    · rw [Function.update_of_ne (hne y hy)]; exact h.dev y hy
  · intro y hy
    rcases Multiset.mem_cons.mp hy with rfl | hy
    · rw [Function.update_self]; exact hi
    · rw [Function.update_of_ne (hne y hy)]; exact h.inum y hy
  · intro y hy z hz heq
    rcases Multiset.mem_cons.mp hy with rfl | hy' <;> rcases Multiset.mem_cons.mp hz with rfl | hz'
    · rfl
    · rw [Function.update_self, Function.update_of_ne (hne z hz')] at heq
      exact absurd heq.symm (hnew z hz')
    · rw [Function.update_self, Function.update_of_ne (hne y hy')] at heq
      exact absurd heq (hnew y hy')
    · rw [Function.update_of_ne (hne y hy'), Function.update_of_ne (hne z hz')] at heq
      exact h.uniq y hy' z hz' heq
  · intro y hy hv
    rcases Multiset.mem_cons.mp hy with rfl | hy
    · rw [Function.update_self] at hv; cases hv
    · rw [Function.update_of_ne (hne y hy)] at hv ⊢; exact h.coh y hy hv
  · intro y hy
    rcases Multiset.mem_cons.mp hy with rfl | hy
    · rw [Function.update_self]; simp [hxheld]
    · rw [Function.update_of_ne (hne y hy)]; exact h.busy y hy
  · intro y hy
    have hmem := (h.held y hy).1
    rw [Function.update_of_ne (hne y hmem)]
    exact ⟨Multiset.mem_cons_of_mem hmem, (h.held y hy).2⟩
  · intro y
    by_cases hy : y = x
    · subst hy; rw [Function.update_self]; exact h.tags y
    · rw [Function.update_of_ne hy]; exact h.tags y

/-- A slot nobody refers to may cache anything. -/
theorem Cached.vacant (h : Cached G c) (hx : x ∉ G.refs) (hr : v.ref = 0) (ht : v.tags = (c x).tags) :
    Cached G (Function.update c x v) := by
  have hsame : ∀ y ∈ G.refs, Function.update c x v y = c y := fun y hy =>
    Function.update_of_ne (fun hc : y = x => hx (hc ▸ hy)) ..
  refine ⟨fun y => ?_, fun y hy => ?_, fun y hy => ?_, fun y hy z hz => ?_, fun y hy => ?_, fun y hy => ?_, fun y hy => ?_,
    fun y => ?_⟩
  · by_cases hy : y = x
    · subst hy; rw [Function.update_self, hr, Multiset.count_eq_zero_of_notMem hx]; rfl
    · rw [Function.update_of_ne hy]; exact h.ref y
  · rw [hsame y hy]; exact h.dev y hy
  · rw [hsame y hy]; exact h.inum y hy
  · rw [hsame y hy, hsame z hz]; exact h.uniq y hy z hz
  · rw [hsame y hy]; exact h.coh y hy
  · rw [hsame y hy]; exact h.busy y hy
  · rw [hsame y (h.held y hy).1]; exact h.held y hy
  · by_cases hy : y = x
    · subst hy; rw [Function.update_self, ht]; exact h.tags y
    · rw [Function.update_of_ne hy]; exact h.tags y

/-- **Dropping a reference**; a locked slot keeps another one. -/
theorem Cached.release {K : Multiset Slot} (h : Cached G c) (hK : G.refs = x ::ₘ K) (hx : x ∈ G.held → x ∈ K) :
    Cached ⟨G.toEnv, G.tbl, K, G.held⟩ (Function.update c x { c x with ref := (c x).ref - 1 }) := by
  refine h.recount (fun y hy => hK ▸ Multiset.mem_cons_of_mem hy) (fun y hy => ?_) (fun y => ?_) (update_ref c x _)
  · have hmem := (h.held y hy).1
    rw [hK, Multiset.mem_cons] at hmem
    rcases hmem with rfl | hmem
    · exact hx hy
    · exact hmem
  · have hr := h.ref y
    by_cases hy : y = x
    · subst hy
      rw [hK, Multiset.count_cons_self] at hr
      rw [Function.update_self]; show (c y).ref - 1 = (K.count y : Int); omega
    · rw [hK, Multiset.count_cons_of_ne hy] at hr
      rw [Function.update_of_ne hy]; exact hr

/-! ## Files as the ghost state sees them -/

/-- The block each pointer holds. -/
def Ghost.own (G : Ghost) (s : Fs) : Nat × Nat → Option Nat := ownOf G.sb G.tbl (s.disk ROOTDEV)

/-- The bytes of file `i`. -/
def Ghost.file (G : Ghost) (s : Fs) (i : Nat) : Arr := contents (G.own s) (s.disk ROOTDEV) i

@[simp] theorem Ghost.own_setDisk (G : Ghost) (s : Fs) (d : Disk) :
    G.own (s.setDisk d) = ownOf G.sb G.tbl d := by rw [Ghost.own, setDisk_disk]

@[simp] theorem Ghost.file_setDisk (G : Ghost) (s : Fs) (d : Disk) (i : Nat) :
    G.file (s.setDisk d) i = contents (ownOf G.sb G.tbl d) d i := by
  rw [Ghost.file, Ghost.own_setDisk, setDisk_disk]

/-- Every file reads as before, and nothing went to or came from the user. -/
structure Quiet (G : Ghost) (s : Fs) (G' : Ghost) (s' : Fs) : Prop where
  file : ∀ j, G'.file s' j = G.file s j
  mem : s'.mem = s.mem
  acc : s'.acc = s.acc
  tty : s'.tty = s.tty

theorem Quiet.refl (G : Ghost) (s : Fs) : Quiet G s G s := ⟨fun _ => rfl, rfl, rfl, rfl⟩

theorem Quiet.trans {G'' : Ghost} {s'' : Fs} (h : Quiet G s G' s') (h' : Quiet G' s' G'' s'') : Quiet G s G'' s'' :=
  ⟨fun j => (h'.file j).trans (h.file j), h'.mem.trans h.mem, h'.acc.trans h.acc, h'.tty.trans h.tty⟩

theorem Clean.congr (h : Clean G s) (hsb : G'.sb = G.sb) (htbl : G'.tbl = G.tbl) (hd : s'.disk = s.disk) :
    Clean G' s' := by
  intro i hi
  rw [hsb] at hi
  rw [htbl, hd]; exact h i hi

/-- What the slot of a referenced inode says about the inode. -/
theorem Core.live (h : Core G s) (hx : x ∈ G.refs) (hv : (s.icache x).valid = true) :
    (s.icache x).toMeta = G.tbl (s.icache x).inum ∧ (G.tbl (s.icache x).inum).type ≠ 0 ∧
      (s.icache x).inum < G.sb.ninodes :=
  ⟨(h.cache.coh x hx hv).1, (h.cache.coh x hx hv).2, (h.cache.inum x hx).2⟩

/-! ## References and locks -/

/-- **`iget`** returns a slot that caches inode `i`, with one more reference. -/
theorem iget_spec (h : Core G s) (hi : 1 ≤ i ∧ i < G.sb.ninodes) :
    wp (iget ROOTDEV i)
      (fun x s' => Core ⟨G.toEnv, G.tbl, x ::ₘ G.refs, G.held⟩ s' ∧ s'.disk = s.disk ∧ (s'.icache x).inum = i ∧
        Keeps G.refs s s' ∧ ((s'.icache x).valid = true → x ∈ G.refs ∧ (s.icache x).valid = true))
      (fun e _ => e = .panic "iget: no inodes" ∧ ∀ x, x ∈ G.refs) s := by
  simp only [iget, wp_bind, wp_get]
  cases hc : s.cached ROOTDEV i with
  | some x =>
    have hfound := List.find?_some hc
    simp only [decide_eq_true_eq] at hfound
    have hx : x ∈ G.refs := h.cache.ref_pos.mp hfound.1
    simp only [wp_bind, wp_modInode, wp_pure]
    refine ⟨⟨h.vol, h.cache.grab hx⟩, rfl, ?_, Keeps.setInode _ rfl id, ?_⟩
    · simpa using hfound.2.2
    · intro hv
      exact ⟨hx, by simpa using hv⟩
  | none =>
    have hnew : ∀ y ∈ G.refs, (s.icache y).inum ≠ i := by
      intro y hy heq
      have hno := List.find?_eq_none.mp hc y (List.mem_finRange y)
      simp only [decide_eq_true_eq] at hno
      exact hno ⟨h.cache.ref_pos.mpr hy, h.cache.dev y hy, heq⟩
    cases he : s.emptySlot with
    | none => exact ⟨rfl, h.cache.full he⟩
    | some x =>
      have hx := h.cache.notMem_of_emptySlot he
      simp only [wp_bind, wp_modInode, wp_pure]
      refine ⟨⟨h.vol, h.cache.fresh hx hi hnew⟩, rfl, by simp, ?_, fun hv => by simp at hv⟩
      have hne : ∀ y ∈ G.refs, y ≠ x := by rintro y hy rfl; exact hx hy
      refine ⟨fun y hy => ?_, fun y hy hv => ?_⟩
      · simp [Function.update_of_ne (hne y hy)]
      · simpa [Function.update_of_ne (hne y hy)] using hv

/-- **`idup`** adds a reference. -/
theorem idup_spec (h : Core G s) (hx : x ∈ G.refs) :
    wp (idup x)
      (fun y s' => y = x ∧ Core ⟨G.toEnv, G.tbl, x ::ₘ G.refs, G.held⟩ s' ∧ s'.disk = s.disk ∧ Keeps G.refs s s')
      (fun _ _ => False) s := by
  simp only [idup, wp_bind, wp_modInode, wp_pure]
  exact ⟨trivial, ⟨h.vol, h.cache.grab hx⟩, rfl, Keeps.setInode _ rfl id⟩

/-- **`ilock`** locks and loads; it panics on an inode that is free on disk. -/
theorem ilock_spec (h : Core G s) (hcl : Clean G s) (hx : x ∈ G.refs) (hfree : x ∉ G.held) :
    wp (ilock x)
      (fun _ s' => Core ⟨G.toEnv, G.tbl, G.refs, insert x G.held⟩ s' ∧ s'.disk = s.disk ∧ Keeps G.refs s s')
      (fun e _ => e = .panic "ilock: no type" ∧ (G.tbl (s.icache x).inum).type = 0) s := by
  have href : ¬ (s.icache x).ref < 1 := by have := h.cache.ref_pos.mpr hx; omega
  have hbusy : (s.icache x).busy = false := by rw [h.cache.busy x hx]; simpa using hfree
  have hdev := h.cache.dev x hx
  have hlt := (h.cache.inum x hx).2
  by_cases hv : (s.icache x).valid = true
  · rw [wp_ilock_valid (by omega) hbusy hv]
    refine ⟨⟨h.vol, h.cache.modify hx rfl rfl rfl rfl rfl rfl rfl ?_ ?_ ?_ ?_ ?_⟩, rfl, Keeps.setInode _ rfl id⟩
    · intro _; exact h.cache.coh x hx hv
    · simp
    · intro _; exact hv
    · intro y hy; simp [hy]
    · intro _ _ _; rfl
  · have hld : (getDinode (s.disk ROOTDEV (IBLOCK (s.icache x).inum))
        (inodeOff (s.icache x).inum)).toMeta = G.tbl (s.icache x).inum := hcl _ hlt
    unfold ilock
    rw [wp_bind, wp_inode, if_neg href, if_neg (by rw [hbusy]; exact Bool.false_ne_true), wp_bind, wp_modInode,
      if_neg hv, wp_bind, hdev, wp_bread, wp_bind, wp_modInode]
    simp only [setInode_disk, hld]
    by_cases h0 : (G.tbl (s.icache x).inum).type = 0
    · rw [if_pos h0]
      exact ⟨rfl, h0⟩
    · rw [if_neg h0, wp_pure]
      simp only [Fs.setInode, Function.update_self, Function.update_idem]
      refine ⟨⟨h.vol, h.cache.modify hx rfl rfl rfl hdev.symm rfl rfl rfl ?_ ?_ ?_ ?_ ?_⟩, trivial,
        Keeps.setInode _ rfl fun _ => rfl⟩
      · intro _; exact ⟨rfl, h0⟩
      · simp
      · intro _; rfl
      · intro y hy; simp [hy]
      · intro _ _ _; rfl

/-- **`iunlock`** gives up a held lock. -/
theorem iunlock_spec (h : Core G s) (hx : x ∈ G.held) :
    wp (iunlock x)
      (fun _ s' => Core ⟨G.toEnv, G.tbl, G.refs, G.held.erase x⟩ s' ∧ s'.disk = s.disk ∧ Keeps G.refs s s')
      (fun _ _ => False) s := by
  obtain ⟨hmem, hv⟩ := h.cache.held x hx
  have hpos := h.cache.ref_pos.mpr hmem
  rw [wp_iunlock_busy (by omega) (by rw [h.cache.busy x hmem]; simpa using hx)]
  refine ⟨⟨h.vol, h.cache.modify hmem rfl rfl rfl rfl rfl rfl rfl ?_ ?_ ?_ ?_ ?_⟩, rfl, Keeps.setInode _ rfl id⟩
  · intro _; exact h.cache.coh x hmem hv
  · simp
  · intro hc; simp at hc
  · intro y hy; simp [hy]
  · intro _ _ _; rfl

/-! ## Metadata -/

/-- Two inodes of one block do not overlap. -/
theorem inodeOff_disjoint {i j : Nat} (hb : IBLOCK j = IBLOCK i) (hne : j ≠ i) :
    inodeOff j + 64 ≤ inodeOff i ∨ inodeOff i + 64 ≤ inodeOff j := by
  simp only [IBLOCK, inodeOff, IPB] at *; omega

/-- Replacing the bytes of inode `i` changes the metadata of inode `i`. -/
theorem dmeta_writeInode {d : Disk} {y : Arr} {j : Nat}
    (hy : ∀ o, o < inodeOff i ∨ inodeOff i + 64 ≤ o → y o = d (IBLOCK i) o) (hne : j ≠ i) :
    dmeta (Function.update d (IBLOCK i) y) j = dmeta d j := by
  unfold dmeta
  by_cases hb : IBLOCK j = IBLOCK i
  · have hdis := inodeOff_disjoint hb hne
    rw [hb, Function.update_self]
    exact getMeta_congr fun o h1 h2 => hy o (by omega)
  · rw [Function.update_of_ne hb]

/-- **`iupdate`** stores the metadata of one inode and changes nothing else. -/
theorem iupdate_spec (h : Core G s) (hx : x ∈ G.refs) (hv : (s.icache x).valid = true) :
    wp (iupdate x)
      (fun _ s' => Core G s' ∧ s'.icache = s.icache ∧ G.own s' = G.own s ∧ Quiet G s G s' ∧
        ∀ j < G.sb.ninodes, dmeta (s'.disk ROOTDEV) j =
          if j = (s.icache x).inum then G.tbl j else dmeta (s.disk ROOTDEV) j)
      (fun _ _ => False) s := by
  obtain ⟨hm, ht, hlt⟩ := h.live hx hv
  simp only [iupdate, wp_bind, wp_inode, wp_bread, wp_bwrite, h.cache.dev x hx, hm, setSector_eq_setDisk]
  obtain ⟨hvol, hown⟩ := h.vol.writeInode hlt
    (putMeta (s.disk ROOTDEV (IBLOCK (s.icache x).inum)) (inodeOff (s.icache x).inum) (G.tbl (s.icache x).inum))
  refine ⟨⟨by rw [setDisk_disk]; exact hvol, h.cache⟩, rfl, by rw [Ghost.own_setDisk, hown]; rfl,
    ⟨fun j => ?_, rfl, rfl, rfl⟩, fun j hj => ?_⟩
  · rw [Ghost.file_setDisk, hown]
    refine contents_congr (fun _ => rfl) fun k c _ hc => Function.update_of_ne ?_ ..
    have h1 := (h.vol.alloc.own_range hc).1
    have h2 := (IBLOCK_range hlt).2
    have h3 := bitStart_range G.sb
    omega
  · rw [setDisk_disk]
    by_cases hj' : j = (s.icache x).inum
    · subst hj'
      rw [if_pos rfl]
      unfold dmeta
      rw [Function.update_self]
      exact getMeta_putMeta _ _ (h.vol.fits _ hlt)
    · rw [if_neg hj']
      exact dmeta_writeInode (fun o ho => putMeta_out (by omega)) hj'

/-- **Changing the cached metadata**, but not the pointers, of a loaded inode. -/
theorem Core.setMeta (h : Core G s) (hx : x ∈ G.refs) (hv : (s.icache x).valid = true) {m : Meta}
    (htm : m.type ≠ 0) (ha : m.addrs = (G.tbl (s.icache x).inum).addrs) (hf : m.Fits)
    (hh : ∀ n, n * BSIZE < m.size → G.own s ((s.icache x).inum, blockIx n) ≠ none) :
    Core (G.setMeta (s.icache x).inum m) (s.setInode x { s.icache x with toMeta := m }) ∧
    (G.setMeta (s.icache x).inum m).own s = G.own s := by
  obtain ⟨hm, ht, hlt⟩ := h.live hx hv
  obtain ⟨hvol, hown⟩ := h.vol.setMeta ht htm ha hf hh
  refine ⟨⟨hvol, h.cache.modify hx rfl rfl rfl rfl rfl rfl rfl ?_ ?_ ?_ ?_ ?_⟩, hown⟩
  · intro _
    simp only [Ghost.setMeta_tbl, Function.update_self]
    exact ⟨trivial, htm⟩
  · exact h.cache.busy x hx
  · exact fun hc => (h.cache.held x hc).2
  · exact fun _ _ => Iff.rfl
  · intro y hy hyx
    refine Function.update_of_ne (fun heq => hyx ?_) ..
    exact h.cache.uniq y hy x hx heq

end Xv6
