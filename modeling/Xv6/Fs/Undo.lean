import Xv6.Fs.Paths

/-!
# `Fs.Undo` — calls on names that fail

A call on a name that returns an error gives back the references and locks it took, and a link it counted in
advance; the disk is then what it was, byte for byte.

## Contents
- **Link counts.** `storeInode_restore`, `addLink_disk`.
- **Calls.** `sysLink_undo`, `sysUnlink_undo`, `create_created`.
-/

namespace Xv6

open Bytes Hoare Ownership

/-! ## Link counts -/

theorem storeInode_restore (d : Disk) (i : Nat) (m : Meta) : storeInode (storeInode d i m) i (dmeta d i) = d := by
  unfold storeInode dmeta
  rw [Function.update_self, putMeta_restore, Function.update_idem, Function.update_eq_self]

theorem addLink_undo {m : Meta} (h : m.Fits) : (m.addLink 1).addLink (-1) = m := by
  have hn := h.nlink
  have hs : short (short (m.nlink + 1) + -1) = m.nlink := by simp only [short]; omega
  rw [Meta.addLink, Meta.addLink, hs]

variable {B : Env} {K refs : Multiset Slot} {held : Finset Slot} {s s1 : Fs} {cwd x : Slot}

/-- **`addLink`** changes one inode of the disk; every file reads as before. -/
theorem addLink_disk (h : Ok B refs held s) (hx : x ∈ held) (k : Int) :
    wp (addLink x k)
      (fun _ s' => Ok B refs held s' ∧ Keeps refs s s' ∧
        s'.disk = Function.update s.disk ROOTDEV (storeInode (s.disk ROOTDEV) (s.icache x).inum
          ((dmeta (s.disk ROOTDEV) (s.icache x).inum).addLink k)) ∧
        ∀ j, diskFile B.sb (s'.disk ROOTDEV) j = diskFile B.sb (s.disk ROOTDEV) j) NoDoubleFree s := by
  obtain ⟨hr, hv⟩ := h.locked hx
  obtain ⟨hm, -, hlt⟩ := h.core.live hr hv
  have hraw : wp (addLink x k) (fun _ s' => s'.disk = Function.update s.disk ROOTDEV
      (storeInode (s.disk ROOTDEV) (s.icache x).inum ((dmeta (s.disk ROOTDEV) (s.icache x).inum).addLink k)))
      (fun _ _ => True) s := by
    unfold addLink
    rw [wp_bind, wp_modInode, wp_iupdate (by simpa using h.core.cache.dev x hr)]
    simp only [setInode_icache, Function.update_self, setInode_disk]
    rw [show dmeta (s.disk ROOTDEV) (s.icache x).inum = (s.icache x).toMeta from hm.symm]
    rfl
  have hspec := addLink_spec h.core Ok.clean hr hv k
  refine wp_mono (wp_and (wp_and (addLink_ok h hx) hraw) hspec) ?_ fun _ _ he => he.1.1
  rintro _ s' ⟨⟨⟨hok, hk⟩, hd⟩, -, hcl, -, -, hfile⟩
  refine ⟨hok, hk, hd, fun j => ?_⟩
  have hj := hfile j
  rw [← onDisk_file hcl] at hj
  exact hj

/-! ## `sys_link` -/

/-- The disk with one more link counted for inode `i`. -/
def linkedDisk (s : Fs) (i : Nat) : Nat → Disk :=
  Function.update s.disk ROOTDEV (storeInode (s.disk ROOTDEV) i ((dmeta (s.disk ROOTDEV) i).addLink 1))

theorem addLink_fits {m : Meta} (h : m.Fits) (k : Int) : (m.addLink k).Fits :=
  ⟨h.type, h.major, h.minor, short_range _, h.size, h.addr, h.past⟩

theorem dmeta_linkedDisk (s : Fs) (i j : Nat) : dmeta (linkedDisk s i ROOTDEV) j =
    if j = i then (dmeta (s.disk ROOTDEV) i).addLink 1 else dmeta (s.disk ROOTDEV) j := by
  rw [linkedDisk, Function.update_self]
  exact dmeta_storeInode (addLink_fits (getMeta_fits _ _) 1) j

/-- The directories are the same as before a link was counted, and what was in use is. -/
theorem Tree.link {i : Nat} (ht : Tree B.sb K s) (hd : s1.disk = linkedDisk s i)
    (hf : ∀ j, diskFile B.sb (s1.disk ROOTDEV) j = diskFile B.sb (s.disk ROOTDEV) j) (hk : Keeps K s s1)
    (hx : (s1.icache x).inum = i) (hl : Live K s i) :
    Tree B.sb (x ::ₘ K) s1 ∧ ∀ j, Live K s j → Live (x ::ₘ K) s1 j := by
  have htype : ∀ j, (dmeta (s1.disk ROOTDEV) j).type = (dmeta (s.disk ROOTDEV) j).type := by
    intro j
    rw [hd, dmeta_linkedDisk]
    by_cases hj : j = i
    · rw [if_pos hj, hj]; rfl
    · rw [if_neg hj]
  have hsize : ∀ j, (dmeta (s1.disk ROOTDEV) j).size = (dmeta (s.disk ROOTDEV) j).size := by
    intro j
    rw [hd, dmeta_linkedDisk]
    by_cases hj : j = i
    · rw [if_pos hj, hj]; rfl
    · rw [if_neg hj]
  have hget : ∀ j name, dirGet B.sb (s1.disk ROOTDEV) j name = dirGet B.sb (s.disk ROOTDEV) j name := by
    intro j name
    rw [dirGet, dirGet, htype, hsize, hf]
  have hself : Live (x ::ₘ K) s1 i := ⟨by rw [htype]; exact hl.1, .inr ⟨x, Multiset.mem_cons_self x K, hx⟩⟩
  have hlive : ∀ j, Live K s j → Live (x ::ₘ K) s1 j := by
    intro j hj
    by_cases hji : j = i
    · rw [hji]; exact hself
    · refine ⟨by rw [htype]; exact hj.1, hj.2.imp (fun hn => ?_) ?_⟩
      · rw [hd, dmeta_linkedDisk, if_neg hji]; exact hn
      · rintro ⟨y, hy, hyj⟩
        exact ⟨y, Multiset.mem_cons_of_mem hy, (hk.inum y hy).trans hyj⟩
  refine ⟨⟨hlive _ ht.root, fun j hj name l hlj hl' => ?_⟩, hlive⟩
  rw [hget] at hl'
  refine hlive l (ht.entry j hj name l ?_ hl')
  by_cases hji : j = i
  · rw [hji]; exact hl
  · refine ⟨by rw [← htype]; exact hlj.1, hlj.2.imp (fun hn => ?_) ?_⟩
    · rwa [hd, dmeta_linkedDisk, if_neg hji] at hn
    · rintro ⟨y, hy, hyj⟩
      rcases Multiset.mem_cons.mp hy with rfl | hy
      · exact absurd (hyj.symm.trans hx) hji
      · exact ⟨y, hy, (hk.inum y hy).symm.trans hyj⟩

/-- **The error exit of `sys_link`** takes back the link counted in advance. -/
theorem linkBad_undo {i : Nat} (h : Ok B (x ::ₘ K) ∅ s1) (hd : s1.disk = linkedDisk s i) (hk : Keeps K s s1)
    (hx : (s1.icache x).inum = i) (hl : Live K s i) :
    wp (linkBad x) (fun _ s' => Stays B K s K ∅ s') NoDoubleFree s1 := by
  have hin : x ∈ x ::ₘ K := Multiset.mem_cons_self x K
  have hsub : K ⊆ x ::ₘ K := Multiset.subset_cons K x
  unfold linkBad
  simp only [wp_bind]
  refine wp_post (ilock_ok h hin) ?_
  rintro _ s2 ⟨h2, hd2, hk2, -⟩
  have hx2 : (s2.icache x).inum = i := (hk2.inum x hin).trans hx
  refine wp_post (addLink_disk h2 (Finset.mem_insert_self x ∅) (-1)) ?_
  rintro _ s3 ⟨h3, hk3, hd3, -⟩
  have hfits : (dmeta (s.disk ROOTDEV) i).Fits := getMeta_fits _ _
  have hback : s3.disk = s.disk := by
    rw [hd3, hx2, hd2, hd, dmeta_linkedDisk, if_pos rfl, addLink_undo hfits, linkedDisk, Function.update_idem,
      Function.update_self, storeInode_restore, Function.update_eq_self]
  have hkeep : Keeps K s s3 := hk.trans ((hk2.trans hk3).mono hsub)
  have hlive : Live K s3 (s3.icache x).inum := by
    rw [hk3.inum x hin, hx2]
    exact (live_iff hback hkeep).mpr hl
  have hput := iunlockput_stays h3 (Finset.mem_insert_self x ∅) hlive
  rw [Finset.erase_insert (Finset.notMem_empty x)] at hput
  refine wp_mono hput ?_ fun _ _ hf => hf.elim
  rintro _ s4 h4
  exact ⟨h4.ok, h4.disk.trans hback, hkeep.trans h4.keeps⟩

/-- Any stop: what a call that does not return leaves behind is not looked at. -/
abbrev AnyStop : Stop → Fs → Prop := fun _ _ => True

/-- The second half of `sys_link`, from a state with the link counted. -/
theorem linkEntry_undo {i dev inum : Nat} {dp ip : Slot} {name : List UInt8} (h : Ok B (dp ::ₘ ip ::ₘ K) ∅ s1)
    (hd : s1.disk = linkedDisk s i) (hk : Keeps K s s1) (hip : (s1.icache ip).inum = i) (hl : Live K s i)
    (hdp : Live (ip ::ₘ K) s1 (s1.icache dp).inum) (ht : (dmeta (s1.disk ROOTDEV) (s1.icache dp).inum).type = T_DIR) :
    wp (do
        ilock dp
        let d ← inode dp
        let r ← if d.dev ≠ dev then pure (-1) else dirlink dp name inum
        if r < 0 then
          iunlockput dp
          linkBad ip
        else
          iunlockput dp
          iput ip
          return 0) (fun r s' => r = -1 → Stays B K s K ∅ s') AnyStop s1 := by
  have hin : dp ∈ dp ::ₘ ip ::ₘ K := Multiset.mem_cons_self dp _
  have hsub : ip ::ₘ K ⊆ dp ::ₘ ip ::ₘ K := Multiset.subset_cons _ dp
  have hlock : dp ∈ ({dp} : Finset Slot) := Finset.mem_singleton_self dp
  simp only [wp_bind]
  refine wp_mono (ilock_stays h hdp) ?_ fun _ _ _ => trivial
  rintro _ s2 h2
  -- a failed `dirlink` leaves the disk as it is
  have hbad : ∀ s3, Stays B (dp ::ₘ ip ::ₘ K) s1 (dp ::ₘ ip ::ₘ K) {dp} s3 →
      wp (do iunlockput dp; linkBad ip) (fun r s' => r = -1 → Stays B K s K ∅ s') AnyStop s3 := by
    intro s3 h3
    have hl3 : Live (ip ::ₘ K) s3 (s3.icache dp).inum := by
      rw [h3.keeps.inum dp hin]
      exact (live_iff h3.disk (h3.keeps.mono hsub)).mpr hdp
    rw [wp_bind]
    refine wp_mono (iunlockput_only h3.ok hl3) ?_ fun _ _ _ => trivial
    rintro _ s4 h4
    have hk4 := (h3.keeps.mono hsub).trans h4.keeps
    refine wp_mono (linkBad_undo h4.ok ((h4.disk.trans h3.disk).trans hd)
      (hk.trans (hk4.mono (Multiset.subset_cons K ip))) ((hk4.inum ip (Multiset.mem_cons_self ip K)).trans hip) hl) ?_
      fun _ _ _ => trivial
    rintro _ s5 h5
    exact fun _ => h5
  have hgood : ∀ s3, wp (do iunlockput dp; iput ip; return (0 : Int)) (fun r s' => r = -1 → Stays B K s K ∅ s') AnyStop s3 := by
    refine wp_after fun _ => wp_after fun _ s4 => ?_
    rw [wp_pure]
    exact fun hc => absurd hc (by decide)
  rw [wp_inode, wp_ite]
  refine ⟨fun _ => ?_, fun _ => ?_⟩ <;> rw [wp_bind]
  · rw [wp_pure, if_pos (by decide)]
    exact hbad s2 h2
  · have hi2 := h2.keeps.inum dp hin
    refine wp_mono (dirlink_spec h2.ok.core hin (h2.ok.locked hlock).2 ?_ inum) ?_ fun _ _ _ => trivial
    · show (dmeta (s2.disk ROOTDEV) (s2.icache dp).inum).type = T_DIR
      rw [hi2, h2.disk]; exact ht
    · intro r s3 hr
      rw [wp_ite]
      split at hr
      · obtain ⟨rfl, hc, hd3, hk3⟩ := hr
        exact ⟨fun _ => hbad s3 ⟨h2.ok.of_disk hd3 hc, hd3.trans h2.disk, h2.keeps.trans hk3⟩, fun hc => absurd (by decide) hc⟩
      · obtain ⟨rfl, -⟩ := hr
        exact ⟨fun hc => absurd hc (by decide), fun _ => hgood s3⟩

/-- **`sys_link`** that fails leaves everything as it was. -/
theorem sysLink_undo {old new : List UInt8} (h : Ok B K ∅ s) (ht : Tree B.sb K s) (hcwd : cwd ∈ K)
    (hl : Live K s (s.icache cwd).inum) :
    wp (sysLink cwd old new) (fun r s' => r = -1 → Stays B K s K ∅ s') AnyStop s := by
  unfold sysLink
  rw [wp_bind]
  refine wp_mono (namei_live h ht hcwd hl) ?_ fun _ _ _ => trivial
  rintro (_ | ip) s1 ⟨-, h1, hlive⟩
  · exact fun _ => h1
  replace hlive := hlive ip rfl
  simp only [Option.elim_some] at h1
  have hin : ip ∈ ip ::ₘ K := Multiset.mem_cons_self ip K
  have hsub : K ⊆ ip ::ₘ K := Multiset.subset_cons K ip
  simp only [wp_bind]
  refine wp_mono (ilock_stays h1.ok hlive) ?_ fun _ _ _ => trivial
  rintro _ s2 h2
  have hk2 := h1.keeps.trans (h2.keeps.mono hsub)
  have hd2 := h2.disk.trans h1.disk
  have hl2 : Live K s2 (s2.icache ip).inum := by
    rw [h2.keeps.inum ip hin]
    exact (live_iff h2.disk (h2.keeps.mono hsub)).mpr hlive
  have hl0 : Live K s (s2.icache ip).inum := (live_iff hd2 hk2).mp hl2
  rw [wp_inode, wp_ite]
  refine ⟨fun _ => ?_, fun _ => ?_⟩
  · rw [wp_bind]
    refine wp_mono (iunlockput_only h2.ok hl2) ?_ fun _ _ _ => trivial
    rintro _ s3 h3
    exact fun _ => ⟨h3.ok, h3.disk.trans hd2, hk2.trans h3.keeps⟩
  simp only [wp_bind]
  refine wp_mono (addLink_disk h2.ok (Finset.mem_singleton_self ip) 1) ?_ fun _ _ _ => trivial
  rintro _ s3 ⟨h3, hk3, hd3, hf3⟩
  refine wp_mono (iunlock_stays h3) ?_ fun _ _ _ => trivial
  rintro _ s4 h4
  have hd4 : s4.disk = linkedDisk s (s2.icache ip).inum := by rw [h4.disk, hd3, hd2]; rfl
  have hk4 : Keeps K s s4 := hk2.trans ((hk3.trans h4.keeps).mono hsub)
  have hi4 : (s4.icache ip).inum = (s2.icache ip).inum := (h4.keeps.inum ip hin).trans (hk3.inum ip hin)
  have hf4 : ∀ j, diskFile B.sb (s4.disk ROOTDEV) j = diskFile B.sb (s.disk ROOTDEV) j := by
    intro j; rw [h4.disk, hf3, hd2]
  obtain ⟨ht4, hlive4⟩ := ht.link hd4 hf4 hk4 hi4 hl0
  have hlc : Live (ip ::ₘ K) s4 (s4.icache cwd).inum := by rw [hk4.inum cwd hcwd]; exact hlive4 _ hl
  refine wp_mono (nameiparent_live h4.ok ht4 (Multiset.mem_cons_of_mem hcwd) hlc) ?_ fun _ _ _ => trivial
  rintro (_ | ⟨dp, name⟩) s5 ⟨-, h5, hdir⟩
  · refine wp_mono (linkBad_undo h5.ok (h5.disk.trans hd4) (hk4.trans (h5.keeps.mono hsub))
      ((h5.keeps.inum ip hin).trans hi4) hl0) ?_ fun _ _ _ => trivial
    rintro _ s6 h6
    exact fun _ => h6
  · obtain ⟨hdp, htype⟩ := hdir _ rfl
    rw [← h5.disk] at htype
    exact linkEntry_undo h5.ok (h5.disk.trans hd4) (hk4.trans (h5.keeps.mono hsub))
      ((h5.keeps.inum ip hin).trans hi4) hl0 hdp htype

/-! ## `sys_unlink` -/

/-- **`sys_unlink`** that fails leaves everything as it was. -/
theorem sysUnlink_undo {path : List UInt8} (h : Ok B K ∅ s) (ht : Tree B.sb K s) (hcwd : cwd ∈ K)
    (hl : Live K s (s.icache cwd).inum) :
    wp (sysUnlink cwd path) (fun r s' => r = -1 → Stays B K s K ∅ s') AnyStop s := by
  unfold sysUnlink
  rw [wp_bind]
  refine wp_mono (nameiparent_live h ht hcwd hl) ?_ fun _ _ _ => trivial
  rintro (_ | ⟨dp, name⟩) s1 ⟨-, h1, hdir⟩
  · exact fun _ => h1
  obtain ⟨hdp, htype⟩ := hdir _ rfl
  simp only [Option.elim_some] at h1
  have hin : dp ∈ dp ::ₘ K := Multiset.mem_cons_self dp K
  have hsub : K ⊆ dp ::ₘ K := Multiset.subset_cons K dp
  simp only [wp_bind]
  refine wp_mono (ilock_stays h1.ok hdp) ?_ fun _ _ _ => trivial
  rintro _ s2 h2
  have h12 : Stays B K s (dp ::ₘ K) {dp} s2 := ⟨h2.ok, h2.disk.trans h1.disk, h1.keeps.trans (h2.keeps.mono hsub)⟩
  have hi2 := h2.keeps.inum dp hin
  have hdp2 : Live K s (s2.icache dp).inum := by
    rw [hi2]; exact (live_iff h1.disk h1.keeps).mp hdp
  -- what follows gives the directory back
  have hexit : ∀ s3, Stays B (dp ::ₘ K) s2 (dp ::ₘ K) {dp} s3 →
      wp (do iunlockput dp; return (-1 : Int)) (fun r s' => r = -1 → Stays B K s K ∅ s') AnyStop s3 := by
    intro s3 h3
    have h13 := h12.trans h3 hsub
    have hl3 : Live K s3 (s3.icache dp).inum := by
      rw [h3.keeps.inum dp hin]; exact (live_iff h13.disk h13.keeps).mpr hdp2
    rw [wp_bind]
    refine wp_mono (iunlockput_only h3.ok hl3) ?_ fun _ _ _ => trivial
    rintro _ s4 h4
    exact fun _ => ⟨h4.ok, h4.disk.trans h13.disk, h13.keeps.trans h4.keeps⟩
  have hself : Stays B (dp ::ₘ K) s2 (dp ::ₘ K) {dp} s2 := ⟨h2.ok, rfl, Keeps.refl _ _⟩
  rw [wp_ite]
  refine ⟨fun _ => hexit s2 hself, fun _ => ?_⟩
  rw [wp_bind]
  refine wp_mono (dirlookup_get h2.ok hin (h2.ok.locked (Finset.mem_singleton_self dp)).2
    (by rw [hi2, h12.disk]; exact htype)) ?_ fun _ _ _ => trivial
  rintro (_ | ⟨ip, off⟩) s3 ⟨hget, h3⟩
  · exact hexit s3 h3
  simp only [Option.elim_some, Option.map_some] at h3 hget
  have hlt : (s2.icache dp).inum < B.sb.ninodes := h2.ok.inum_lt hin
  have h13 := h12.trans h3 hsub
  have hip : Live K s (s3.icache ip).inum := by
    rw [h12.disk] at hget
    exact ht.entry _ hlt name _ hdp2 hget.symm
  have hip3 : ip ∈ ip ::ₘ dp ::ₘ K := Multiset.mem_cons_self ip _
  have hsub3 : dp ::ₘ K ⊆ ip ::ₘ dp ::ₘ K := Multiset.subset_cons _ ip
  simp only [wp_bind]
  refine wp_mono (ilock_ok h3.ok hip3) ?_ fun _ _ _ => trivial
  rintro _ s4 ⟨h4, hd4, hk4, hnot⟩
  rw [wp_inode, wp_ite]
  refine ⟨fun _ => trivial, fun _ => ?_⟩
  have hback : (insert ip ({dp} : Finset Slot)).erase ip = {dp} := Finset.erase_insert hnot
  -- a directory that is not empty gives both inodes back
  have hfull : wp (do iunlockput ip; iunlockput dp; return (-1 : Int)) (fun r s' => r = -1 → Stays B K s K ∅ s') AnyStop s4 := by
    have hkK : Keeps K s s4 := h13.keeps.trans (hk4.mono fun _ hx => hsub3 (hsub hx))
    have hl4 : Live K s4 (s4.icache ip).inum := by
      rw [hk4.inum ip hip3]; exact (live_iff (hd4.trans h13.disk) hkK).mpr hip
    rw [wp_bind]
    refine wp_mono (iunlockput_stays h4 (Finset.mem_insert_self ip _) hl4.cons) ?_ fun _ _ _ => trivial
    rintro _ s5 h5
    rw [hback] at h5
    exact hexit s5 ⟨h5.ok, h5.disk.trans (hd4.trans h3.disk), h3.keeps.trans ((hk4.mono hsub3).trans h5.keeps)⟩
  have hgone : ∀ s5 (i : Inode), wp (do
      let r ← writei dp (.kernel fun _ => 0) off 16
      if r ≠ 16 then panic "unlink: writei"
      else
        if i.type = T_DIR then addLink dp (-1) else pure ()
        iunlockput dp
        addLink ip (-1)
        iunlockput ip
        return (0 : Int)) (fun r s' => r = -1 → Stays B K s K ∅ s') AnyStop s5 := by
    intro s5 i
    refine wp_after (fun r s6 => ?_) s5
    rw [wp_ite]
    refine ⟨fun _ => trivial, fun _ => ?_⟩
    have htail : ∀ s7, wp (do iunlockput dp; addLink ip (-1); iunlockput ip; return (0 : Int))
        (fun r s' => r = -1 → Stays B K s K ∅ s') AnyStop s7 :=
      wp_after fun _ => wp_after fun _ => wp_after fun _ s8 hc => absurd hc (by decide)
    dsimp only
    rw [wp_ite]
    exact ⟨fun _ => wp_after (fun _ => htail) s6, fun _ => htail s6⟩
  rw [wp_ite]
  refine ⟨fun hdir4 => ?_, fun _ => ?_⟩ <;> rw [wp_bind]
  · refine wp_mono (isdirempty_ok h4 (Finset.mem_insert_self ip _) hdir4) ?_ fun _ _ _ => trivial
    rintro empty s5 rfl
    rw [wp_ite]
    exact ⟨fun _ => hfull, fun _ => hgone s5 _⟩
  · rw [wp_pure, if_neg (by decide)]
    exact hgone s4 _

/-! ## `create` -/

/-- The stored inodes are the same, apart from inode `i`. -/
def SameBut (sb : Superblock) (i : Nat) (s s' : Fs) : Prop :=
  ∀ j < sb.ninodes, j ≠ i → dmeta (s'.disk ROOTDEV) j = dmeta (s.disk ROOTDEV) j

theorem dirlink_other {name : List UInt8} {inum : Nat} (h : Ok B refs held s) (hx : x ∈ held) (hi : inum < B.sb.ninodes)
    (ht : (dmeta (s.disk ROOTDEV) (s.icache x).inum).type = T_DIR) :
    wp (dirlink x name inum) (fun _ s' => Ok B refs held s' ∧ Keeps refs s s' ∧ SameBut B.sb (s.icache x).inum s s')
      AnyStop s := by
  obtain ⟨hr, hv⟩ := h.locked hx
  refine wp_mono (wp_and (dirlink_ok h hx hi) (dirlink_spec h.core hr hv ht inum)) ?_ fun _ _ _ => trivial
  rintro r s' ⟨⟨hok, hk⟩, hres⟩
  refine ⟨hok, hk, fun j hj hne => ?_⟩
  split at hres
  · rw [hres.2.2.1]
  · obtain ⟨-, e, G', -, hw⟩ := hres
    exact hw.stored j hj hne

theorem iunlockput_other (h : Ok B (x ::ₘ K) held s) (hin : x ∈ held) :
    wp (iunlockput x) (fun _ s' => Ok B K (held.erase x) s' ∧ Keeps K s s' ∧ SameBut B.sb (s.icache x).inum s s')
      AnyStop s := by
  have hsame : wp (iunlockput x) (fun _ s' => SameBut B.sb (s.icache x).inum s s') AnyStop s := by
    unfold iunlockput
    rw [wp_bind]
    refine wp_mono (iunlock_ok h hin) ?_ fun _ _ _ => trivial
    rintro _ s1 ⟨h1, hd, hk⟩
    refine wp_mono (iput_spec h1.core Ok.clean rfl fun hc => absurd hc (Finset.notMem_erase x held)) ?_ fun _ _ _ => trivial
    rintro _ s2 ⟨-, hcl, -⟩ j hj hne
    have hi : (s1.icache x).inum = (s.icache x).inum := hk.inum x (Multiset.mem_cons_self x K)
    have hsb : ((onDisk B (x ::ₘ K) (held.erase x) s1).put s1 x K).sb = B.sb := by
      rw [Ghost.put]; split <;> rfl
    rw [hcl j (by rw [hsb]; exact hj), ← hd, Ghost.put]
    split
    · exact Function.update_of_ne (by rw [hi]; exact hne) ..
    · rfl
  refine wp_mono (wp_and (iunlockput_ok h rfl hin) hsame) ?_ fun _ _ _ => trivial
  rintro _ s' ⟨⟨hok, hk⟩, hs⟩
  exact ⟨hok, hk, hs⟩

/-- What `create` stores in the new inode. -/
theorem initMeta_disk (h : Ok B refs held s) (hx : x ∈ held) (major minor : Int) :
    wp (iupdate x)
      (fun _ s' => Ok B refs held s' ∧ Keeps refs s s' ∧ SameBut B.sb (s.icache x).inum s s' ∧
        (dmeta (s'.disk ROOTDEV) (s.icache x).inum).type = (dmeta (s.disk ROOTDEV) (s.icache x).inum).type ∧
        (dmeta (s'.disk ROOTDEV) (s.icache x).inum).nlink = 1) AnyStop
      (s.setInode x { s.icache x with major := short major, minor := short minor, nlink := 1 }) := by
  obtain ⟨hr, hv⟩ := h.locked hx
  obtain ⟨hm, -, hlt⟩ := h.core.live hr hv
  have hf := h.core.vol.fits _ hlt
  rw [← hm] at hf
  have htype := congrArg Meta.type hm
  have hraw := (wp_iupdate (Q := fun _ s' => s'.disk ROOTDEV = storeInode (s.disk ROOTDEV) (s.icache x).inum
    { (s.icache x).toMeta with major := short major, minor := short minor, nlink := 1 }) (E := AnyStop)
    (x := x) (s := s.setInode x { s.icache x with major := short major, minor := short minor, nlink := 1 })
    (by simpa using h.core.cache.dev x hr)).mpr (by simp)
  have hfits : Meta.Fits { (s.icache x).toMeta with major := short major, minor := short minor, nlink := 1 } :=
    ⟨hf.type, short_range _, short_range _, ⟨show (-32768 : Int) ≤ 1 by decide, show (1 : Int) < 32768 by decide⟩, hf.size,
      hf.addr, hf.past⟩
  refine wp_mono (wp_and (initMeta_ok h hx major minor) hraw) ?_ fun _ _ _ => trivial
  rintro _ s' ⟨⟨hok, hk⟩, hd⟩
  refine ⟨hok, hk, fun j _ hne => ?_, ?_, ?_⟩
  · rw [hd, dmeta_storeInode hfits, if_neg hne]
  · rw [hd, dmeta_storeInode hfits, if_pos rfl]
    exact htype
  · rw [hd, dmeta_storeInode hfits, if_pos rfl]

/-- **What `create` returns.** Nothing, and then nothing has changed; or, when the name is taken by a file and a
    file was asked for, that file; or a new inode, which was free before and has one link now. -/
def Created (B : Env) (K : Multiset Slot) (s : Fs) (cwd : Slot) (path : List UInt8) (type : Int) (r : Option Slot)
    (s' : Fs) : Prop :=
  let target := resolve B.sb (s.disk ROOTDEV) (startInum s cwd path) (components path)
  let parent := resolveParent B.sb (s.disk ROOTDEV) (startInum s cwd path) (components path)
  match r with
  | none => Stays B K s K ∅ s' ∧ (target ≠ none ∨ parent = none)
  | some ip =>
    (target ≠ none ∧ Stays B K s (ip ::ₘ K) {ip} s' ∧ Live K s' (s'.icache ip).inum) ∨
      (target = none ∧ parent ≠ none ∧ (type = T_FILE → Ok B (ip ::ₘ K) {ip} s' ∧ Keeps K s s' ∧
        (dmeta (s.disk ROOTDEV) (s'.icache ip).inum).type = 0 ∧
        (dmeta (s'.disk ROOTDEV) (s'.icache ip).inum).type = T_FILE ∧
        (dmeta (s'.disk ROOTDEV) (s'.icache ip).inum).nlink = 1))

/-- The end of `create` for a file: the entry for it, and the parent put back. -/
theorem createFile_tail {dp ip : Slot} {name : List UInt8} (h : Ok B (ip ::ₘ dp ::ₘ K) {ip, dp} s) (hne : ip ≠ dp)
    (ht : (dmeta (s.disk ROOTDEV) (s.icache dp).inum).type = T_DIR) :
    wp (do
        if (← dirlink dp name (s.icache ip).inum) < 0 then panic "create: dirlink"
        else
          iunlockput dp
          return some ip)
      (fun r s' => r = some ip ∧ Ok B (ip ::ₘ K) {ip} s' ∧ Keeps (ip ::ₘ K) s s' ∧
        dmeta (s'.disk ROOTDEV) (s.icache ip).inum = dmeta (s.disk ROOTDEV) (s.icache ip).inum) AnyStop s := by
  have hip : ip ∈ ip ::ₘ dp ::ₘ K := Multiset.mem_cons_self ip _
  have hdp : dp ∈ ip ::ₘ dp ::ₘ K := Multiset.mem_cons_of_mem (Multiset.mem_cons_self dp K)
  have hdl : dp ∈ ({ip, dp} : Finset Slot) := by simp
  have hback : ({ip, dp} : Finset Slot).erase dp = {ip} := by
    rw [Finset.erase_insert_of_ne hne, Finset.erase_singleton]; rfl
  have hlt := h.inum_lt hip
  have hinum : (s.icache ip).inum ≠ (s.icache dp).inum := fun hc => hne (h.core.cache.uniq ip hip dp hdp hc)
  have hsub : ip ::ₘ K ⊆ ip ::ₘ dp ::ₘ K := Multiset.cons_subset_cons (Multiset.subset_cons K dp)
  rw [wp_bind]
  refine wp_mono (dirlink_other h hdl hlt ht) ?_ fun _ _ _ => trivial
  rintro r s1 ⟨h1, hk1, hs1⟩
  rw [wp_ite]
  refine ⟨fun _ => trivial, fun _ => ?_⟩
  rw [Multiset.cons_swap] at h1
  rw [wp_bind]
  refine wp_mono (iunlockput_other h1 hdl) ?_ fun _ _ _ => trivial
  rintro _ s2 ⟨h2, hk2, hs2⟩
  rw [hback] at h2
  refine ⟨rfl, h2, (hk1.mono hsub).trans hk2, ?_⟩
  rw [hk1.inum dp hdp] at hs2
  rw [hs2 _ hlt hinum, hs1 _ hlt hinum]

theorem resolve_of_parent {sb : Superblock} {d : Disk} {i q : Nat} {cs : List (List UInt8)} {name : List UInt8}
    (h : resolveParent sb d i cs = some (q, name)) : resolve sb d i cs = dirGet sb d q name := by
  have hne : cs ≠ [] := by
    rintro rfl
    rw [resolveParent_nil] at h
    cases h
  rw [resolve_eq_parent hne, h, Option.bind_some]

/-- The end of `create` for any type returns the inode or stops. -/
theorem createEnd_some {dp ip : Slot} {name : List UInt8} {inum : Nat} (s : Fs) :
    wp (do
        if (← dirlink dp name inum) < 0 then panic "create: dirlink"
        else
          iunlockput dp
          return some ip) (fun r _ => r = some ip) AnyStop s := by
  refine wp_after (fun r s1 => ?_) s
  rw [wp_ite]
  exact ⟨fun _ => trivial, fun _ => wp_after (fun _ _ => by rw [wp_pure]) s1⟩

/-- `create` from where the name was not found in `dp`. -/
def createNew (dp : Slot) (name : List UInt8) (type major minor : Int) : FsM (Option Slot) := do
  let d ← inode dp
  let ip ← ialloc d.dev type
  ilock ip
  modInode ip fun i => { i with major := short major, minor := short minor, nlink := 1 }
  iupdate ip
  let i ← inode ip
  if type = T_DIR then
    addLink dp 1
    if (← dirlink ip dot i.inum) < 0 then panic "create dots"
    else if (← dirlink ip dotdot d.inum) < 0 then panic "create dots"
    else pure ()
  else pure ()
  if (← dirlink dp name i.inum) < 0 then panic "create: dirlink"
  else
    iunlockput dp
    return some ip

theorem createNew_some {dp : Slot} {name : List UInt8} {type major minor : Int} (s : Fs) :
    wp (createNew dp name type major minor) (fun r _ => r ≠ none) AnyStop s := by
  have hend : ∀ (ip : Slot) (inum : Nat) s1, wp (do
      if (← dirlink dp name inum) < 0 then panic "create: dirlink"
      else
        iunlockput dp
        return some ip) (fun r _ => r ≠ none) AnyStop s1 := by
    intro ip inum s1
    refine wp_post (createEnd_some s1) ?_
    rintro r s2 rfl
    exact Option.some_ne_none _
  unfold createNew
  refine wp_after (fun d => wp_after fun ip => wp_after fun _ => wp_after fun _ => wp_after fun _ => wp_after fun i s1 => ?_) s
  dsimp only
  rw [wp_ite]
  refine ⟨fun _ => ?_, fun _ => hend ip _ s1⟩
  refine wp_after (fun _ => wp_after fun r s2 => ?_) s1
  rw [wp_ite]
  refine ⟨fun _ => trivial, fun _ => wp_after (fun r s3 => ?_) s2⟩
  rw [wp_ite]
  exact ⟨fun _ => trivial, fun _ => hend ip _ s3⟩

/-- A new file takes a free inode and has one link. -/
theorem createNew_file {dp : Slot} {name : List UInt8} {major minor : Int} (h : Ok B (dp ::ₘ K) {dp} s)
    (hdir : (dmeta (s.disk ROOTDEV) (s.icache dp).inum).type = T_DIR) :
    wp (createNew dp name T_FILE major minor)
      (fun r s' => ∃ ip, r = some ip ∧ Ok B (ip ::ₘ K) {ip} s' ∧ Keeps K s s' ∧
        (dmeta (s.disk ROOTDEV) (s'.icache ip).inum).type = 0 ∧
        (dmeta (s'.disk ROOTDEV) (s'.icache ip).inum).type = T_FILE ∧
        (dmeta (s'.disk ROOTDEV) (s'.icache ip).inum).nlink = 1) AnyStop s := by
  have hin : dp ∈ dp ::ₘ K := Multiset.mem_cons_self dp K
  have hdev : (s.icache dp).dev = ROOTDEV := h.core.cache.dev dp hin
  have hty : -32768 ≤ T_FILE ∧ T_FILE < 32768 := by decide
  unfold createNew
  simp only [wp_bind, wp_inode]
  rw [hdev]
  refine wp_mono (wp_and (ialloc_ok h hty) (ialloc_spec h.core Ok.clean hty)) ?_ fun _ _ _ => trivial
  rintro ip s1 ⟨⟨h1, hk1⟩, i, hi, h0, hinum, -, -, hcl, -⟩
  have hip : ip ∈ ip ::ₘ dp ::ₘ K := Multiset.mem_cons_self ip _
  have hsub : dp ::ₘ K ⊆ ip ::ₘ dp ::ₘ K := Multiset.subset_cons _ ip
  refine wp_mono (ilock_ok h1 hip) ?_ fun _ _ _ => trivial
  rintro _ s2 ⟨h2, hd2, hk2, hnot⟩
  have hne : ip ≠ dp := fun hc => hnot (Finset.mem_singleton.mpr hc)
  have hi2 : (s2.icache ip).inum = i := (hk2.inum ip hip).trans hinum
  have hdp2 : (s2.icache dp).inum = (s.icache dp).inum :=
    (hk2.inum dp (Multiset.mem_cons_of_mem hin)).trans (hk1.inum dp hin)
  have hidp : (s.icache dp).inum ≠ i := by
    rintro rfl
    exact absurd (hdir.symm.trans h0) (by decide)
  rw [wp_modInode]
  refine wp_mono (initMeta_disk h2 (Finset.mem_insert_self ip _) major minor) ?_ fun _ _ _ => trivial
  rintro _ s3 ⟨h3, hk3, hs3, ht3, hn3⟩
  have hi3 : (s3.icache ip).inum = i := (hk3.inum ip hip).trans hi2
  have hdp3 : (s3.icache dp).inum = (s.icache dp).inum := (hk3.inum dp (Multiset.mem_cons_of_mem hin)).trans hdp2
  have hnew : dmeta (s2.disk ROOTDEV) i = .fresh T_FILE := by
    rw [hd2, hcl i hi.2]; exact Function.update_self ..
  have hdir3 : (dmeta (s3.disk ROOTDEV) (s3.icache dp).inum).type = T_DIR := by
    rw [hdp3, hs3 _ (h.inum_lt hin) (by rw [hi2]; exact hidp), hd2, hcl _ (h.inum_lt hin)]
    exact (congrArg Meta.type (Function.update_of_ne hidp ..)).trans hdir
  rw [if_neg (by decide)]
  refine wp_post (createFile_tail h3 hne hdir3) ?_
  rintro r s4 ⟨rfl, h4, hk4, hm4⟩
  have hi4 : (s4.icache ip).inum = i := (hk4.inum ip (Multiset.mem_cons_self ip K)).trans hi3
  rw [hi3] at hm4
  rw [hi2, hnew] at ht3
  rw [hi2] at hn3
  refine ⟨ip, rfl, h4, ?_, ?_, ?_, ?_⟩
  · have hK : K ⊆ dp ::ₘ K := Multiset.subset_cons K dp
    exact (hk1.mono hK).trans (((hk2.trans hk3).mono fun _ hx => hsub (hK hx)).trans
      (hk4.mono (Multiset.subset_cons K ip)))
  · rw [hi4]; exact h0
  · rw [hi4, hm4]; exact ht3
  · rw [hi4, hm4]; exact hn3

/-- **`create`**. -/
theorem create_created {path : List UInt8} {type major minor : Int} (h : Ok B K ∅ s) (ht : Tree B.sb K s) (hcwd : cwd ∈ K)
    (hl : Live K s (s.icache cwd).inum) (hty : -32768 ≤ type ∧ type < 32768) :
    wp (create cwd path type major minor) (Created B K s cwd path type) AnyStop s := by
  unfold create
  rw [wp_bind]
  refine wp_mono (nameiparent_live h ht hcwd hl) ?_ fun _ _ _ => trivial
  rintro (_ | ⟨dp, name⟩) s1 ⟨hp, h1, hdir⟩
  · exact ⟨h1, .inr hp.symm⟩
  obtain ⟨hdp, htype⟩ := hdir _ rfl
  simp only [Option.elim_some, Option.map_some] at h1 hp
  have hin : dp ∈ dp ::ₘ K := Multiset.mem_cons_self dp K
  have hsub : K ⊆ dp ::ₘ K := Multiset.subset_cons K dp
  have htarget := resolve_of_parent hp.symm
  simp only [wp_bind]
  refine wp_mono (ilock_stays h1.ok hdp) ?_ fun _ _ _ => trivial
  rintro _ s2 h2
  have h12 := h1.trans h2 hsub
  have hi2 := h2.keeps.inum dp hin
  have hdl : dp ∈ ({dp} : Finset Slot) := Finset.mem_singleton_self dp
  refine wp_mono (dirlookup_get h2.ok hin (h2.ok.locked hdl).2 (by rw [hi2, h12.disk]; exact htype)) ?_ fun _ _ _ => trivial
  rintro (_ | ⟨ip, off⟩) s3 ⟨hget, h3⟩
  · -- a new inode
    simp only [Option.elim_none, Option.map_none] at h3 hget
    rw [hi2, h12.disk, ← htarget] at hget
    have hparent : resolveParent B.sb (s.disk ROOTDEV) (startInum s cwd path) (components path) ≠ none := by
      rw [← hp]; exact Option.some_ne_none _
    have h13 := h12.trans h3 hsub
    have hi3 : (s3.icache dp).inum = (s1.icache dp).inum := (h3.keeps.inum dp hin).trans hi2
    have hdir3 : (dmeta (s3.disk ROOTDEV) (s3.icache dp).inum).type = T_DIR := by rw [hi3, h13.disk]; exact htype
    show wp (createNew dp name type major minor) _ _ s3
    by_cases hfile : type = T_FILE
    · subst hfile
      refine wp_post (createNew_file h3.ok hdir3) ?_
      rintro r s4 ⟨ip, rfl, h4, hk4, h0, h1, hn⟩
      rw [h13.disk] at h0
      exact .inr ⟨hget.symm, hparent, fun _ => ⟨h4, h13.keeps.trans hk4, h0, h1, hn⟩⟩
    · refine wp_post (createNew_some s3) ?_
      rintro (_ | ip) s4 hr
      · exact absurd rfl hr
      · exact .inr ⟨hget.symm, hparent, fun hc => absurd hc hfile⟩
  · -- the name is taken
    simp only [Option.elim_some, Option.map_some] at h3 hget
    rw [hi2, h12.disk, ← htarget] at hget
    have hlt : (s1.icache dp).inum < B.sb.ninodes := h1.ok.inum_lt hin
    have h13 := h12.trans h3 hsub
    have hip : Live K s (s3.icache ip).inum :=
      ht.entry _ hlt name _ ((live_iff h1.disk h1.keeps).mp hdp) (htarget.symm.trans hget.symm)
    have hdp3 : Live K s3 (s3.icache dp).inum := by
      rw [h3.keeps.inum dp hin, hi2]
      exact (live_iff h13.disk h13.keeps).mpr ((live_iff h1.disk h1.keeps).mp hdp)
    have hok : Ok B (dp ::ₘ ip ::ₘ K) {dp} s3 := by rw [Multiset.cons_swap]; exact h3.ok
    simp only [wp_bind]
    refine wp_mono (iunlockput_only hok hdp3.cons) ?_ fun _ _ _ => trivial
    rintro _ s4 h4
    have hipK : ip ∈ ip ::ₘ K := Multiset.mem_cons_self ip K
    have hsubi : K ⊆ ip ::ₘ K := Multiset.subset_cons K ip
    have hk4 : Keeps K s s4 := h13.keeps.trans (h4.keeps.mono hsubi)
    have hd4 := h4.disk.trans h13.disk
    have hip4 : Live K s4 (s4.icache ip).inum := by
      rw [h4.keeps.inum ip hipK]; exact (live_iff hd4 hk4).mpr hip
    refine wp_mono (ilock_stays h4.ok hip4) ?_ fun _ _ _ => trivial
    rintro _ s5 h5
    have hk5 := hk4.trans (h5.keeps.mono hsubi)
    have hip5 : Live K s5 (s5.icache ip).inum := by
      rw [h5.keeps.inum ip hipK]; exact (live_iff h5.disk (h5.keeps.mono hsubi)).mpr hip4
    have hsome : resolve B.sb (s.disk ROOTDEV) (startInum s cwd path) (components path) ≠ none := by
      rw [← hget]; exact Option.some_ne_none _
    rw [wp_inode, wp_ite]
    refine ⟨fun _ => .inl ⟨hsome, ⟨h5.ok, h5.disk.trans hd4, hk5⟩, hip5⟩, fun _ => ?_⟩
    rw [wp_bind]
    refine wp_mono (iunlockput_only h5.ok hip5) ?_ fun _ _ _ => trivial
    rintro _ s6 h6
    exact ⟨⟨h6.ok, h6.disk.trans (h5.disk.trans hd4), hk5.trans h6.keeps⟩, .inl hsome⟩

end Xv6
