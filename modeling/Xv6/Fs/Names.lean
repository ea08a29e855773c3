import Xv6.Fs.DirSpec

/-!
# `Fs.Names` — the volume survives path lookup

What the parts of the calls on names leave behind, on any volume whose directory entries are inode numbers: the
entries may name free inodes, a directory may be linked anywhere or not at all. A call may then stop in a panic or
wait for its own lock, but it never frees a free block, and when it returns the volume is as good as before.
-/

namespace Xv6

open Bytes Hoare Ownership

/-! ## The invariant -/

/-- Every directory entry is the number of an inode, free or not. -/
def InRange (G : Ghost) (s : Fs) : Prop :=
  ∀ i < G.sb.ninodes, (G.tbl i).type = T_DIR → ∀ e, direntInum (G.file s i) (16 * e) < G.sb.ninodes

/-- The ghost state whose inodes are those on disk. -/
def onDisk (B : Env) (refs : Multiset Slot) (held : Finset Slot) (s : Fs) : Ghost :=
  ⟨B, dmeta (s.disk ROOTDEV), refs, held⟩

/-- **The volume is well formed**, with these references and locks. -/
structure Ok (B : Env) (refs : Multiset Slot) (held : Finset Slot) (s : Fs) : Prop where
  core : Core (onDisk B refs held s) s
  dirs : InRange (onDisk B refs held s) s

/-- Any stop but the panic of a double free. -/
def NoDoubleFree (e : Stop) (_ : Fs) : Prop := e ≠ .panic "freeing free block"

variable {G : Ghost} {B : Env} {refs K : Multiset Slot} {held : Finset Slot} {s s' : Fs} {x : Slot}

theorem Benign.noDoubleFree {e : Stop} (h : Benign e) : NoDoubleFree e s := h.1

theorem noDoubleFree_of_ne {e : Stop} (h : e ≠ .panic "freeing free block") : NoDoubleFree e s := h

theorem ownOf_congr_tbl {sb : Superblock} {tbl tbl' : Nat → Meta} {d : Disk} (h : ∀ i < sb.ninodes, tbl' i = tbl i) :
    ownOf sb tbl' d = ownOf sb tbl d := by
  funext ⟨i, k⟩
  by_cases hi : i < sb.ninodes
  · exact ownOf_congr (h i hi) fun _ _ _ => rfl
  · rw [ownOf, ownOf, if_neg fun hc => hi hc.1, if_neg fun hc => hi hc.1]

/-- The volume only depends on the inodes that exist. -/
theorem Vol.congr_tbl {sb : Superblock} {R : Nat → Option Arr} {tbl tbl' : Nat → Meta} {d : Disk} (h : Vol sb R tbl d)
    (ht : ∀ i < sb.ninodes, tbl' i = tbl i) : Vol sb R tbl' d := by
  have ho := ownOf_congr_tbl (d := d) ht
  refine ⟨by rw [ho]; exact h.alloc, fun i hi hti n hn => ?_, fun i hi => by rw [ht i hi]; exact h.fits i hi⟩
  rw [ht i hi] at hti hn
  rw [ho]; exact h.holes i hi hti n hn

theorem Cached.congr_tbl {c : Slot → Inode} {tbl : Nat → Meta} (h : Cached G c) (ht : ∀ i < G.sb.ninodes, tbl i = G.tbl i) :
    Cached ⟨G.toEnv, tbl, G.refs, G.held⟩ c := by
  refine ⟨h.ref, h.dev, h.inum, h.uniq, fun x hx hv => ?_, h.busy, h.held, h.tags⟩
  show (c x).toMeta = tbl (c x).inum ∧ (tbl (c x).inum).type ≠ 0
  rw [ht _ (h.inum x hx).2]
  exact h.coh x hx hv

theorem onDisk_sb : (onDisk B refs held s).sb = B.sb := rfl

theorem onDisk_R : (onDisk B refs held s).R = B.R := rfl

theorem onDisk_tbl : (onDisk B refs held s).tbl = dmeta (s.disk ROOTDEV) := rfl

theorem onDisk_own : (onDisk B refs held s).own s = ownOf B.sb (dmeta (s.disk ROOTDEV)) (s.disk ROOTDEV) := rfl

theorem onDisk_file (hcl : Clean G s) : (onDisk G.toEnv G.refs G.held s).file s = G.file s := by
  have ho : (onDisk G.toEnv G.refs G.held s).own s = G.own s := onDisk_own.trans (ownOf_congr_tbl hcl)
  funext i
  rw [Ghost.file, Ghost.file, ho]

/-- **From a ghost state** whose inodes are stored. -/
theorem Ok.of (hc : Core G s) (hcl : Clean G s) (hd : InRange G s) : Ok G.toEnv G.refs G.held s := by
  -- the fields of `onDisk` are rewritten, since comparing the two ghost states would evaluate the inodes
  refine ⟨⟨?_, hc.cache.congr_tbl hcl⟩, fun i hi ht e => ?_⟩
  · rw [onDisk_sb, onDisk_R, onDisk_tbl]
    exact hc.vol.congr_tbl hcl
  · rw [onDisk_sb] at hi ⊢
    rw [onDisk_tbl, hcl i hi] at ht
    rw [onDisk_file hcl]
    exact hd i hi ht e

theorem Ok.clean : Clean (onDisk B refs held s) s := fun _ _ => rfl

theorem InRange.congr {G' : Ghost} (h : InRange G s) (hsb : G'.sb = G.sb) (htbl : G'.tbl = G.tbl)
    (hd : s'.disk = s.disk) : InRange G' s' := by
  have hfile : G'.file s' = G.file s := by
    funext i
    rw [Ghost.file, Ghost.file, Ghost.own, Ghost.own, hsb, htbl, hd]
  intro i hi
  rw [hsb] at hi ⊢
  rw [htbl, hfile]
  exact h i hi

/-- A change that leaves the disk alone. -/
theorem Ok.of_disk {refs' : Multiset Slot} {held' : Finset Slot} (h : Ok B refs held s) (hd : s'.disk = s.disk)
    (hc : Core ⟨B, dmeta (s.disk ROOTDEV), refs', held'⟩ s') : Ok B refs' held' s' := by
  refine Ok.of hc (fun i _ => by rw [hd]) (h.dirs.congr rfl rfl hd)

/-- A locked slot is referenced and loaded. -/
theorem Ok.locked (h : Ok B refs held s) (hx : x ∈ held) : x ∈ refs ∧ (s.icache x).valid = true :=
  h.core.cache.held x hx

/-! ## Locks and references -/

theorem ilock_ok (h : Ok B refs held s) (hx : x ∈ refs) :
    wp (ilock x) (fun _ s' => Ok B refs (insert x held) s' ∧ s'.disk = s.disk ∧ Keeps refs s s' ∧ x ∉ held)
      NoDoubleFree s := by
  by_cases hh : x ∈ held
  · -- the caller holds the lock already and waits for itself
    have hpos := h.core.cache.ref_pos.mpr hx
    have hbusy : (s.icache x).busy = true := by rw [h.core.cache.busy x hx]; exact decide_eq_true hh
    unfold ilock
    rw [wp_bind, wp_inode, if_neg (by omega), if_pos hbusy, wp_throw]
    exact noDoubleFree_of_ne (by decide)
  · refine wp_mono (ilock_spec h.core Ok.clean hx hh) ?_ ?_
    · rintro _ s' ⟨hc, hd, hk⟩
      exact ⟨h.of_disk hd hc, hd, hk, hh⟩
    · rintro e _ ⟨rfl, -⟩
      exact noDoubleFree_of_ne (by decide)

theorem iunlock_ok (h : Ok B refs held s) (hx : x ∈ held) :
    wp (iunlock x) (fun _ s' => Ok B refs (held.erase x) s' ∧ s'.disk = s.disk ∧ Keeps refs s s') NoDoubleFree s := by
  refine wp_mono (iunlock_spec h.core hx) ?_ fun _ _ hf => hf.elim
  rintro _ s' ⟨hc, hd, hk⟩
  exact ⟨h.of_disk hd hc, hd, hk⟩

/-- Directories after an inode was freed, if one was. -/
theorem InRange.put {G' : Ghost} (h : InRange G s) (hG : G' = G.put s x K)
    (hfile : ∀ j, G'.file s' j = if Dies G s x ∧ j = (s.icache x).inum then fun _ => 0 else G.file s j) :
    InRange G' s' := by
  subst hG
  have hsb : (G.put s x K).sb = G.sb := by rw [Ghost.put]; split <;> rfl
  intro i hi ht e
  rw [hsb] at hi ⊢
  rw [hfile]
  by_cases hd : Dies G s x ∧ i = (s.icache x).inum
  · rw [if_pos hd]
    exact Nat.lt_of_le_of_lt (Nat.zero_le i) hi
  · rw [if_neg hd]
    refine h i hi ?_ e
    rw [← ht, Ghost.put]
    split
    · rename_i hdies
      exact congrArg Meta.type (Function.update_of_ne (fun hc => hd ⟨hdies, hc⟩) ..).symm
    · rfl

theorem iput_ok (h : Ok B refs held s) (hK : refs = x ::ₘ K) (hx : x ∈ held → x ∈ K) :
    wp (iput x) (fun _ s' => Ok B K held s' ∧ Keeps K s s') NoDoubleFree s := by
  refine wp_mono (iput_spec h.core Ok.clean hK hx) ?_ fun _ _ hf => hf.elim
  rintro _ s' ⟨hc, hcl, hk, -, hfile⟩
  have hok := Ok.of hc hcl (h.dirs.put rfl hfile)
  have hG : ((onDisk B refs held s).put s x K).toEnv = B ∧ ((onDisk B refs held s).put s x K).refs = K ∧
      ((onDisk B refs held s).put s x K).held = held := by
    rw [Ghost.put]; split <;> exact ⟨rfl, rfl, rfl⟩
  rw [hG.1, hG.2.1, hG.2.2] at hok
  exact ⟨hok, hk⟩

theorem iunlockput_ok (h : Ok B refs held s) (hK : refs = x ::ₘ K) (hx : x ∈ held) :
    wp (iunlockput x) (fun _ s' => Ok B K (held.erase x) s' ∧ Keeps K s s') NoDoubleFree s := by
  unfold iunlockput
  rw [wp_bind]
  refine wp_post (iunlock_ok h hx) ?_
  rintro _ s1 ⟨h1, -, hk1⟩
  refine wp_post (iput_ok h1 hK fun hc => absurd hc (Finset.notMem_erase x held)) ?_
  rintro _ s2 ⟨h2, hk2⟩
  exact ⟨h2, (hk1.mono (by rw [hK]; exact Multiset.subset_cons K x)).trans hk2⟩

theorem iget_ok {i : Nat} (h : Ok B refs held s) (hi : 1 ≤ i ∧ i < B.sb.ninodes) :
    wp (iget ROOTDEV i) (fun y s' => Ok B (y ::ₘ refs) held s' ∧ Keeps refs s s') NoDoubleFree s := by
  refine wp_mono (iget_spec h.core hi) ?_ ?_
  · rintro y s' ⟨hc, hd, -, hk, -⟩
    exact ⟨h.of_disk hd hc, hk⟩
  · rintro e _ ⟨rfl, -⟩
    exact noDoubleFree_of_ne (by decide)

theorem idup_ok (h : Ok B refs held s) (hx : x ∈ refs) :
    wp (idup x) (fun y s' => Ok B (y ::ₘ refs) held s' ∧ Keeps refs s s') NoDoubleFree s := by
  refine wp_mono (idup_spec h.core hx) ?_ fun _ _ hf => hf.elim
  rintro y s' ⟨rfl, hc, hd, hk⟩
  exact ⟨h.of_disk hd hc, hk⟩

/-- A fresh inode is empty, also as a directory. -/
theorem ialloc_ok {type : Int} (h : Ok B refs held s) (ht : -32768 ≤ type ∧ type < 32768) :
    wp (ialloc ROOTDEV type) (fun y s' => Ok B (y ::ₘ refs) held s' ∧ Keeps refs s s') NoDoubleFree s := by
  refine wp_mono (ialloc_spec h.core Ok.clean ht) ?_ ?_
  · rintro y s' ⟨i, hi, h0, -, -, hc, hcl, hk, -, hfile⟩
    refine ⟨Ok.of hc hcl fun j hj htj e => ?_, hk⟩
    rw [hfile]
    by_cases hji : j = i
    · have hz : (onDisk B refs held s).file s i = fun _ => 0 := contents_none fun k => if_neg fun hc => hc.2.1 h0
      rw [hji, hz]
      exact Nat.lt_of_le_of_lt (Nat.zero_le j) hj
    · refine h.dirs j hj ?_ e
      rw [← htj]
      exact congrArg Meta.type (Function.update_of_ne hji ..).symm
  · rintro e _ (rfl | rfl) <;> exact noDoubleFree_of_ne (by decide)

/-! ## Directories and metadata -/

/-- The bytes of file `i` as the disk has them. -/
def diskFile (sb : Superblock) (d : Disk) (i : Nat) : Arr := contents (ownOf sb (dmeta d) d) d i

theorem dirlookup_ok {name : List UInt8} (h : Ok B refs held s) (hx : x ∈ held) :
    wp (dirlookup x name)
      (fun r s' => match r with
        | none => s' = s
        | some (y, off) => Ok B (y ::ₘ refs) held s' ∧ s'.disk = s.disk ∧ Keeps refs s s' ∧ (∃ e, off = 16 * e) ∧
            (dmeta (s.disk ROOTDEV) (s.icache x).inum).type = T_DIR)
      NoDoubleFree s := by
  obtain ⟨hr, hv⟩ := h.locked hx
  obtain ⟨hm, -, hlt⟩ := h.core.live hr hv
  by_cases ht : (dmeta (s.disk ROOTDEV) (s.icache x).inum).type = T_DIR
  · refine wp_mono (dirlookup_spec h.core hr hv ht (h.dirs _ hlt ht)) ?_ ?_
    · intro r s' hres
      split at hres
      · obtain ⟨rfl, rfl⟩ := hres
        rfl
      · obtain ⟨y, rfl, hl⟩ := hres
        exact ⟨h.of_disk hl.disk hl.core, hl.disk, hl.keeps, ⟨_, rfl⟩, ht⟩
    · rintro e _ ⟨rfl, -⟩
      exact noDoubleFree_of_ne (by decide)
  · have htype : (s.icache x).type ≠ T_DIR := fun hc => ht ((congrArg Meta.type hm).symm.trans hc)
    unfold dirlookup
    rw [wp_bind, wp_inode, if_pos htype, wp_panic]
    exact noDoubleFree_of_ne (by decide)

/-- What a write leaves, when a directory written to still has entries in range. -/
theorem WriteDone.ok {src : Src} {off n : Nat} {G' : Ghost} (h : Ok B refs held s)
    (hw : WriteDone x src off n (onDisk B refs held s) s G' s')
    (hdir : (dmeta (s.disk ROOTDEV) (s.icache x).inum).type = T_DIR → ∀ e,
      direntInum (blit (diskFile B.sb (s.disk ROOTDEV) (s.icache x).inum) off n (src.bytes s.mem)) (16 * e) < B.sb.ninodes) :
    Ok B refs held s' ∧ Keeps refs s s' := by
  obtain ⟨a, rfl⟩ := hw.ghost
  have htbl : ∀ i, i ≠ (s.icache x).inum → ((onDisk B refs held s).setMeta (s.icache x).inum
      { (onDisk B refs held s).tbl (s.icache x).inum with
        size := max ((onDisk B refs held s).tbl (s.icache x).inum).size (off + n), addrs := a }).tbl i =
      dmeta (s.disk ROOTDEV) i := fun i hi => Function.update_of_ne hi ..
  refine ⟨Ok.of hw.core (fun i hi => ?_) (fun i hi ht e => ?_), ?_⟩
  · by_cases hix : i = (s.icache x).inum
    · rw [hix]; exact hw.saved rfl
    · rw [htbl i hix]; exact hw.stored i hi hix
  · rw [hw.file]
    by_cases hix : i = (s.icache x).inum
    · subst hix
      rw [if_pos rfl]
      refine hdir ?_ e
      rw [← ht, Ghost.setMeta_tbl, Function.update_self]
      rfl
    · rw [if_neg hix]
      rw [htbl i hix] at ht
      exact h.dirs i hi ht e
  · refine ⟨fun y _ => ?_, fun y _ hv => ?_⟩
    · rw [hw.icache]
      by_cases hy : y = x
      · subst hy; rw [Function.update_self]
      · rw [Function.update_of_ne hy]
    · rw [hw.icache]
      by_cases hy : y = x
      · subst hy; rw [Function.update_self]; exact hv
      · rw [Function.update_of_ne hy]; exact hv

theorem dirlink_ok {name : List UInt8} {inum : Nat} (h : Ok B refs held s) (hx : x ∈ held) (hi : inum < B.sb.ninodes) :
    wp (dirlink x name inum) (fun _ s' => Ok B refs held s' ∧ Keeps refs s s') NoDoubleFree s := by
  obtain ⟨hr, hv⟩ := h.locked hx
  obtain ⟨hm, -, hlt⟩ := h.core.live hr hv
  by_cases ht : (dmeta (s.disk ROOTDEV) (s.icache x).inum).type = T_DIR
  · refine wp_mono (dirlink_spec h.core hr hv ht inum) ?_ fun e s' hb => hb.benign.noDoubleFree
    intro r s' hres
    split at hres
    · obtain ⟨-, hc, hd, hk⟩ := hres
      exact ⟨h.of_disk hd hc, hk⟩
    · obtain ⟨-, e, G', -, hw⟩ := hres
      refine hw.ok h fun _ k => ?_
      rw [direntInum_blit]
      by_cases hke : k = e
      · rw [if_pos hke]
        exact Nat.lt_of_le_of_lt (Nat.le_trans (Nat.le_of_eq (direntInum_direntBytes inum name)) (Nat.mod_le _ _)) hi
      · rw [if_neg hke]
        exact h.dirs _ hlt ht k
  · have htype : (s.icache x).type ≠ T_DIR := fun hc => ht ((congrArg Meta.type hm).symm.trans hc)
    unfold dirlink dirlookup
    rw [wp_bind, wp_bind, wp_inode, if_pos htype, wp_panic]
    exact noDoubleFree_of_ne (by decide)

/-- A transfer to or from the console unlocks its inode while it waits. -/
theorem console_ok {α β : Type} {m : FsM α} {k : α → FsM β} (h : Ok B refs held s) (hx : x ∈ held)
    (hm : ∀ s, wp m (fun _ s' => s'.disk = s.disk ∧ s'.icache = s.icache) NoDoubleFree s)
    (hk : ∀ r s, wp (k r) (fun _ s' => s' = s) NoDoubleFree s) :
    wp (do iunlock x; let r ← m; ilock x; k r) (fun _ s' => Ok B refs held s' ∧ Keeps refs s s') NoDoubleFree s := by
  rw [wp_bind]
  refine wp_post (iunlock_ok h hx) ?_
  rintro _ s1 ⟨h1, -, hk1⟩
  rw [wp_bind]
  refine wp_post (hm s1) ?_
  rintro r s2 ⟨hd2, hc2⟩
  have h2 : Ok B refs (held.erase x) s2 := h1.of_disk hd2 (h1.core.congr hd2 hc2)
  rw [wp_bind]
  refine wp_post (ilock_ok h2 (h.locked hx).1) ?_
  rintro _ s3 ⟨h3, -, hk3, -⟩
  rw [Finset.insert_erase hx] at h3
  refine wp_post (hk r s3) ?_
  rintro _ s4 rfl
  exact ⟨h3, hk1.trans ((Keeps.of_icache refs hc2).trans hk3)⟩

theorem readi_ok {dst : Dst} {off n : Nat} (h : Ok B refs held s) (hx : x ∈ held) :
    wp (readi x dst off n) (fun _ s' => Ok B refs held s' ∧ Keeps refs s s') NoDoubleFree s := by
  obtain ⟨hr, hv⟩ := h.locked hx
  obtain ⟨hm, -, -⟩ := h.core.live hr hv
  by_cases ht : (s.icache x).type = T_DEV
  · unfold readi
    rw [wp_bind, wp_inode, if_pos ht, wp_ite]
    refine ⟨fun _ => ⟨h, Keeps.refl refs s⟩, fun _ => ?_⟩
    refine console_ok h hx (consolereadLoop_frame dst _ _) fun r s => ?_
    rcases r with ⟨_ | _, _⟩ <;> rfl
  · refine wp_mono (readi_spec h.core hr hv (hm ▸ ht)) ?_ fun _ _ hf => hf.elim
    intro r s' hres
    have hs : s'.disk = s.disk ∧ s'.icache = s.icache := by
      split at hres
      · rw [hres.2]; exact ⟨rfl, rfl⟩
      · rw [hres.2, Dst.store_disk, Dst.store_icache]; exact ⟨rfl, rfl⟩
    exact ⟨h.of_disk hs.1 (h.core.congr hs.1 hs.2), Keeps.of_icache refs hs.2⟩

/-- A write that leaves the entries of a directory in range. -/
theorem writei_ok {src : Src} {off n : Nat} (h : Ok B refs held s) (hx : x ∈ held)
    (hdir : (dmeta (s.disk ROOTDEV) (s.icache x).inum).type = T_DIR → ∀ m ≤ n, ∀ e,
      direntInum (blit (diskFile B.sb (s.disk ROOTDEV) (s.icache x).inum) off m (src.bytes s.mem)) (16 * e) < B.sb.ninodes) :
    wp (writei x src off n) (fun _ s' => Ok B refs held s' ∧ Keeps refs s s') NoDoubleFree s := by
  obtain ⟨hr, hv⟩ := h.locked hx
  obtain ⟨hm, -, -⟩ := h.core.live hr hv
  by_cases ht : (s.icache x).type = T_DEV
  · unfold writei
    rw [wp_bind, wp_inode, if_pos ht, wp_ite]
    refine ⟨fun _ => ⟨h, Keeps.refl refs s⟩, fun _ => ?_⟩
    refine console_ok h hx (fun s => ?_) fun r s => rfl
    rw [wp_copyIn]
    exact ⟨Src.load_disk .., Src.load_icache ..⟩
  · refine wp_mono (writei_spec h.core hr hv (hm ▸ ht)) ?_ ?_
    · intro r s' hres
      split at hres
      · rw [hres.2]; exact ⟨h, Keeps.refl refs s⟩
      · obtain ⟨-, G', hw⟩ := hres
        exact hw.ok h fun hd => hdir hd _ (Nat.min_le_left _ _)
    · rintro e _ ⟨rfl, -⟩
      exact noDoubleFree_of_ne (by decide)

/-- Storing metadata that differs in neither type, size nor pointers. -/
theorem storeMeta_ok {m : Meta} (h : Ok B refs held s) (hx : x ∈ held)
    (htype : m.type = (s.icache x).type) (hsize : m.size = (s.icache x).size)
    (haddrs : m.addrs = (s.icache x).addrs) (hfits : m.Fits) :
    wp (iupdate x) (fun _ s' => Ok B refs held s' ∧ Keeps refs s s') NoDoubleFree
      (s.setInode x { s.icache x with toMeta := m }) := by
  obtain ⟨hr, hv⟩ := h.locked hx
  obtain ⟨hm, -, -⟩ := h.core.live hr hv
  refine wp_mono (storeMeta_spec h.core Ok.clean hr hv (hm ▸ htype) (hm ▸ hsize) (hm ▸ haddrs) hfits) ?_
    fun _ _ hf => hf.elim
  rintro _ s' ⟨hc, hcl, hk, -, hfile⟩
  refine ⟨Ok.of hc hcl fun i hi ht e => ?_, hk⟩
  rw [hfile]
  refine h.dirs i hi ?_ e
  rw [← ht, Ghost.setMeta_tbl]
  by_cases hix : i = (s.icache x).inum
  · subst hix
    rw [Function.update_self, htype, hm]
  · rw [Function.update_of_ne hix]

theorem addLink_ok {k : Int} (h : Ok B refs held s) (hx : x ∈ held) :
    wp (addLink x k) (fun _ s' => Ok B refs held s' ∧ Keeps refs s s') NoDoubleFree s := by
  obtain ⟨hr, hv⟩ := h.locked hx
  obtain ⟨hm, -, hlt⟩ := h.core.live hr hv
  have hf := h.core.vol.fits _ hlt
  rw [← hm] at hf
  unfold addLink
  rw [wp_bind, wp_modInode]
  exact storeMeta_ok (m := { (s.icache x).toMeta with nlink := short ((s.icache x).nlink + k) }) h hx rfl rfl rfl
    ⟨hf.type, hf.major, hf.minor, short_range _, hf.size, hf.addr, hf.past⟩

/-! ## Path names -/

/-- After a lookup: one more reference if it found something. -/
def Found (B : Env) (K : Multiset Slot) (held : Finset Slot) (s : Fs) (r : Option (Slot × List UInt8)) (s' : Fs) : Prop :=
  Ok B (r.elim K fun y => y.1 ::ₘ K) held s' ∧ Keeps K s s'

/-- After one element of a path: the same, or a reference to the next inode in place of the one walked through. -/
def Walked (B : Env) (K : Multiset Slot) (held : Finset Slot) (s : Fs) (w : Walk) (s' : Fs) : Prop :=
  Ok B (match w with
    | .done none => K
    | .done (some y) => y ::ₘ K
    | .next y => y ::ₘ K) held s' ∧ Keeps K s s'

theorem namexElem_ok {parent : Bool} {ip : Slot} {name path : List UInt8} (h : Ok B (ip ::ₘ K) held s) :
    wp (namexElem parent ip name path) (Walked B K held s) NoDoubleFree s := by
  have hsub : K ⊆ ip ::ₘ K := Multiset.subset_cons K ip
  unfold namexElem
  rw [wp_bind]
  refine wp_post (ilock_ok h (Multiset.mem_cons_self ip K)) ?_
  rintro _ s1 ⟨h1, -, hk1, hnot⟩
  have hfree : (insert ip held).erase ip = held := Finset.erase_insert hnot
  have hin : ip ∈ insert ip held := Finset.mem_insert_self ip held
  -- leaving without a result drops the only reference taken
  have hput : ∀ w, (w = .done none) → wp (do iunlockput ip; return w) (Walked B K held s) NoDoubleFree s1 := by
    rintro w rfl
    rw [wp_bind]
    refine wp_post (iunlockput_ok h1 rfl hin) ?_
    rintro _ s2 ⟨h2, hk2⟩
    rw [hfree] at h2
    exact ⟨h2, (hk1.mono hsub).trans hk2⟩
  rw [wp_bind, wp_inode, wp_ite]
  refine ⟨fun _ => hput _ rfl, fun _ => ?_⟩
  rw [wp_ite]
  refine ⟨fun _ => ?_, fun _ => ?_⟩
  · rw [wp_bind]
    refine wp_post (iunlock_ok h1 hin) ?_
    rintro _ s2 ⟨h2, -, hk2⟩
    rw [hfree] at h2
    exact ⟨h2, (hk1.trans hk2).mono hsub⟩
  · rw [wp_bind]
    refine wp_post (dirlookup_ok h1 hin) ?_
    rintro (_ | ⟨next, off⟩) s2 hr
    · cases (show s2 = s1 from hr)
      exact hput _ rfl
    · obtain ⟨h2, -, hk2, -, -⟩ := hr
      rw [Multiset.cons_swap] at h2
      simp only [wp_bind]
      refine wp_post (iunlockput_ok h2 rfl hin) ?_
      rintro _ s3 ⟨h3, hk3⟩
      rw [hfree] at h3
      exact ⟨h3, ((hk1.trans hk2).mono hsub).trans (hk3.mono (Multiset.subset_cons K next))⟩

/-- Who holds a lock has a reference of their own. -/
def Backed (K : Multiset Slot) (held : Finset Slot) : Prop := ∀ y ∈ held, y ∈ K

theorem Ok.backed (h : Ok B K held s) : Backed K held := fun _ hy => (h.locked hy).1

theorem namexFrom_ok {parent : Bool} (fuel : Nat) : ∀ (s : Fs) (ip : Slot) (path name : List UInt8),
    Ok B (ip ::ₘ K) held s → Backed K held → wp (namexFrom parent fuel ip path name) (Found B K held s) NoDoubleFree s := by
  induction fuel with
  | zero =>
    intro s ip path name h _
    exact ⟨h, Keeps.refl K s⟩
  | succ fuel ih =>
    intro s ip path name h hK
    unfold namexFrom
    cases skipelem path with
    | none =>
      rw [wp_ite]
      refine ⟨fun _ => ?_, fun _ => ⟨h, Keeps.refl K s⟩⟩
      rw [wp_bind]
      refine wp_post (iput_ok h rfl (hK ip)) ?_
      rintro _ s1 h1
      exact h1
    | some e =>
      obtain ⟨name', path'⟩ := e
      simp only [wp_bind]
      refine wp_post (namexElem_ok h) ?_
      rintro ((_ | y) | next) s1 ⟨h1, hk1⟩
      · exact ⟨h1, hk1⟩
      · exact ⟨h1, hk1⟩
      · refine wp_post (ih s1 next path' name' h1 hK) ?_
        rintro r s2 ⟨h2, hk2⟩
        exact ⟨h2, hk1.trans hk2⟩

/-- The current directory is only used by a relative path. -/
def HasCwd (refs : Multiset Slot) (cwd : Slot) (path : List UInt8) : Prop := path.head? = some slash ∨ cwd ∈ refs

theorem namex_ok {parent : Bool} {cwd : Slot} {path : List UInt8} (h : Ok B K held s) (hc : HasCwd K cwd path) :
    wp (namex cwd path parent) (Found B K held s) NoDoubleFree s := by
  have hstart : wp (namexStart cwd path) (fun ip s' => Ok B (ip ::ₘ K) held s' ∧ Keeps K s s') NoDoubleFree s := by
    unfold namexStart
    by_cases habs : path.head? = some slash
    · rw [if_pos habs]
      exact iget_ok h ⟨Nat.le_refl 1, h.core.vol.alloc.ok.inodes⟩
    · rw [if_neg habs]
      exact idup_ok h (hc.resolve_left habs)
  unfold namex
  rw [wp_bind]
  refine wp_post hstart ?_
  rintro ip s1 ⟨h1, hk1⟩
  refine wp_post (namexFrom_ok _ s1 ip path [] h1 h.backed) ?_
  rintro r s2 ⟨h2, hk2⟩
  exact ⟨h2, hk1.trans hk2⟩

theorem namei_ok {cwd : Slot} {path : List UInt8} (h : Ok B K held s) (hc : HasCwd K cwd path) :
    wp (namei cwd path) (fun r s' => Ok B (r.elim K fun y => y ::ₘ K) held s' ∧ Keeps K s s') NoDoubleFree s := by
  unfold namei
  rw [wp_bind]
  refine wp_post (namex_ok h hc) ?_
  rintro (_ | ⟨y, name⟩) s1 h1
  · exact h1
  · exact h1

end Xv6
