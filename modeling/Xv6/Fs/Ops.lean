import Xv6.Fs.Names

/-!
# `Fs.Ops` — the calls on names keep the volume well formed (`kernel/sysfile.c`)

`create`, `sys_link` and `sys_unlink` take several inodes and locks and drop them again on every exit. After each of
them the volume is well formed with the references and locks the caller is left with: every used block has one owner,
free blocks are zero, and what the cache says of a loaded inode is what is stored.
-/

namespace Xv6

open Bytes Hoare

variable {B : Env} {refs K : Multiset Slot} {held : Finset Slot} {s s' : Fs} {x : Slot} {cwd : Slot}

/-! ## `create` -/

/-- A slot in use caches an inode of the table. -/
theorem Ok.inum_lt (h : Ok B refs held s) (hx : x ∈ refs) : (s.icache x).inum < B.sb.ninodes :=
  (h.core.cache.inum x hx).2

theorem isdirempty_ok (h : Ok B refs held s) (hx : x ∈ held) (ht : (s.icache x).type = T_DIR) :
    wp (isdirempty x) (fun _ s' => s' = s) NoDoubleFree s := by
  obtain ⟨hr, hv⟩ := h.locked hx
  obtain ⟨hm, -, -⟩ := h.core.live hr hv
  refine wp_mono (isdirempty_spec h.core hr hv (hm ▸ ht)) (fun _ _ hs => hs.1) ?_
  rintro e _ ⟨rfl, -⟩
  exact noDoubleFree_of_ne (by decide)

/-- A stop for any other reason. -/
theorem panic_ok {α : Type} {Q : α → Fs → Prop} {msg : String} (h : msg ≠ "freeing free block") :
    wp (panic msg : FsM α) Q NoDoubleFree s :=
  fun hc => h (Stop.panic.inj hc)

/-- What `create` stores in a new inode. -/
theorem initMeta_ok (h : Ok B refs held s) (hx : x ∈ held) (major minor : Int) :
    wp (iupdate x) (fun _ s' => Ok B refs held s' ∧ Keeps refs s s') NoDoubleFree
      (s.setInode x { s.icache x with major := short major, minor := short minor, nlink := 1 }) := by
  obtain ⟨hr, hv⟩ := h.locked hx
  obtain ⟨hm, -, hlt⟩ := h.core.live hr hv
  have hf := h.core.vol.fits _ hlt
  rw [← hm] at hf
  exact storeMeta_ok (m := { (s.icache x).toMeta with major := short major, minor := short minor, nlink := 1 }) h hx
    rfl rfl rfl ⟨hf.type, short_range _, short_range _, ⟨show (-32768 : Int) ≤ 1 by decide, show (1 : Int) < 32768 by decide⟩, hf.size, hf.addr, hf.past⟩

/-- The end of `create`: entries in the new directory, the entry for it, and the parent put back. -/
theorem createLink_ok {dp ip : Slot} {name : List UInt8} {type : Int} {inum dinum : Nat}
    (h : Ok B (ip ::ₘ dp ::ₘ K) held s) (hip : ip ∈ held) (hdp : dp ∈ held)
    (hi : inum < B.sb.ninodes) (hd : dinum < B.sb.ninodes) :
    wp (do
        if type = T_DIR then
          addLink dp 1
          if (← dirlink ip dot inum) < 0 then panic "create dots"
          else if (← dirlink ip dotdot dinum) < 0 then panic "create dots"
        if (← dirlink dp name inum) < 0 then panic "create: dirlink"
        else
          iunlockput dp
          return some ip)
      (fun r s' => r = some ip ∧ Ok B (ip ::ₘ K) (held.erase dp) s' ∧ Keeps (ip ::ₘ K) s s') NoDoubleFree s := by
  have hsub : ip ::ₘ K ⊆ ip ::ₘ dp ::ₘ K := Multiset.cons_subset_cons (Multiset.subset_cons K dp)
  -- the last steps, from any state the entries were written in
  have htail : ∀ s1, Ok B (ip ::ₘ dp ::ₘ K) held s1 → Keeps (ip ::ₘ dp ::ₘ K) s s1 →
      wp (do
          if (← dirlink dp name inum) < 0 then panic "create: dirlink"
          else
            iunlockput dp
            return some ip)
        (fun r s' => r = some ip ∧ Ok B (ip ::ₘ K) (held.erase dp) s' ∧ Keeps (ip ::ₘ K) s s') NoDoubleFree s1 := by
    intro s1 h1 hk1
    rw [wp_bind]
    refine wp_post (dirlink_ok h1 hdp hi) ?_
    rintro r s2 ⟨h2, hk2⟩
    rw [wp_ite]
    refine ⟨fun _ => panic_ok (by decide), fun _ => ?_⟩
    rw [Multiset.cons_swap] at h2
    rw [wp_bind]
    refine wp_post (iunlockput_ok h2 rfl hdp) ?_
    rintro _ s3 ⟨h3, hk3⟩
    exact ⟨rfl, h3, ((hk1.trans hk2).mono hsub).trans hk3⟩
  rw [wp_ite]
  refine ⟨fun _ => ?_, fun _ => htail s h (Keeps.refl _ s)⟩
  simp only [wp_bind]
  refine wp_post (addLink_ok h hdp) ?_
  rintro _ s1 ⟨h1, hk1⟩
  refine wp_post (dirlink_ok h1 hip hi) ?_
  rintro r s2 ⟨h2, hk2⟩
  simp only [wp_ite, wp_bind]
  refine ⟨fun _ => panic_ok (by decide), fun _ => ?_⟩
  refine wp_post (dirlink_ok h2 hip hd) ?_
  rintro r s3 ⟨h3, hk3⟩
  have hlast := htail s3 h3 ((hk1.trans hk2).trans hk3)
  simp only [wp_ite, wp_bind] at hlast
  exact ⟨fun _ => panic_ok (by decide), fun _ => hlast⟩

/-- **`create`** returns a locked inode with a reference, if any. -/
theorem create_ok {path : List UInt8} {type major minor : Int} (h : Ok B K held s) (hc : HasCwd K cwd path)
    (ht : -32768 ≤ type ∧ type < 32768) :
    wp (create cwd path type major minor)
      (fun r s' => Ok B (r.elim K fun y => y ::ₘ K) (r.elim held fun y => insert y held) s' ∧ Keeps K s s')
      NoDoubleFree s := by
  unfold create nameiparent
  rw [wp_bind]
  refine wp_post (namex_ok h hc) ?_
  rintro (_ | ⟨dp, name⟩) s1 ⟨h1, hk1⟩
  · exact ⟨h1, hk1⟩
  simp only [Option.elim_some] at h1
  simp only [wp_bind]
  refine wp_post (ilock_ok h1 (Multiset.mem_cons_self dp K)) ?_
  rintro _ s2 ⟨h2, -, hk2, hdp⟩
  have hKdp : K ⊆ dp ::ₘ K := Multiset.subset_cons K dp
  have hk2' : Keeps K s s2 := hk1.trans (hk2.mono hKdp)
  have hdin : dp ∈ insert dp held := Finset.mem_insert_self dp held
  have hback : (insert dp held).erase dp = held := Finset.erase_insert hdp
  refine wp_post (dirlookup_ok h2 hdin) ?_
  rintro (_ | ⟨ip, off⟩) s3 hr
  · -- a new inode
    cases (show s3 = s2 from hr)
    have hdev : (s2.icache dp).dev = ROOTDEV := h2.core.cache.dev dp (Multiset.mem_cons_self dp K)
    have hdinum := h2.inum_lt (Multiset.mem_cons_self dp K)
    simp only [wp_bind, wp_inode]
    rw [hdev]
    refine wp_post (ialloc_ok h2 ht) ?_
    rintro ip s4 ⟨h4, hk4⟩
    refine wp_post (ilock_ok h4 (Multiset.mem_cons_self ip _)) ?_
    rintro _ s5 ⟨h5, -, hk5, hip⟩
    have hiin : ip ∈ insert ip (insert dp held) := Finset.mem_insert_self ..
    have hdin' : dp ∈ insert ip (insert dp held) := Finset.mem_insert_of_mem hdin
    rw [wp_modInode]
    refine wp_post (initMeta_ok h5 hiin major minor) ?_
    rintro _ s6 ⟨h6, hk6⟩
    have hiinum := h6.inum_lt (Multiset.mem_cons_self ip _)
    have hk : Keeps K s s6 := hk2'.trans (((hk4.trans (hk5.mono (Multiset.subset_cons _ ip))).trans
      (hk6.mono (Multiset.subset_cons _ ip))).mono hKdp)
    refine wp_post (createLink_ok h6 hiin hdin' hiinum hdinum) ?_
    rintro r s7 ⟨rfl, h7, hk7⟩
    have hne : ip ≠ dp := fun hc => hip (hc ▸ hdin)
    rw [Finset.erase_insert_of_ne hne, hback] at h7
    exact ⟨h7, hk.trans (hk7.mono (Multiset.subset_cons K ip))⟩
  · -- the name is taken
    obtain ⟨h3, -, hk3, -, -⟩ := hr
    rw [Multiset.cons_swap] at h3
    simp only [wp_bind]
    refine wp_post (iunlockput_ok h3 rfl hdin) ?_
    rintro _ s4 ⟨h4, hk4⟩
    rw [hback] at h4
    refine wp_post (ilock_ok h4 (Multiset.mem_cons_self ip K)) ?_
    rintro _ s5 ⟨h5, -, hk5, hip⟩
    have hk : Keeps K s s5 := hk2'.trans (((hk3.mono hKdp).trans
      (hk4.mono (Multiset.subset_cons K ip))).trans (hk5.mono (Multiset.subset_cons K ip)))
    rw [wp_inode, wp_ite]
    refine ⟨fun _ => ⟨h5, hk⟩, fun _ => ?_⟩
    rw [wp_bind]
    refine wp_post (iunlockput_ok h5 rfl (Finset.mem_insert_self ip held)) ?_
    rintro _ s6 ⟨h6, hk6⟩
    rw [Finset.erase_insert hip] at h6
    exact ⟨h6, hk.trans hk6⟩

/-! ## `sys_link` -/

/-- Taking back the link counted in advance. -/
theorem linkBad_ok (h : Ok B (x ::ₘ K) held s) :
    wp (linkBad x) (fun _ s' => Ok B K held s' ∧ Keeps K s s') NoDoubleFree s := by
  have hsub : K ⊆ x ::ₘ K := Multiset.subset_cons K x
  unfold linkBad
  simp only [wp_bind]
  refine wp_post (ilock_ok h (Multiset.mem_cons_self x K)) ?_
  rintro _ s1 ⟨h1, -, hk1, hx⟩
  refine wp_post (addLink_ok h1 (Finset.mem_insert_self x held)) ?_
  rintro _ s2 ⟨h2, hk2⟩
  refine wp_post (iunlockput_ok h2 rfl (Finset.mem_insert_self x held)) ?_
  rintro _ s3 ⟨h3, hk3⟩
  rw [Finset.erase_insert hx] at h3
  exact ⟨h3, ((hk1.trans hk2).mono hsub).trans hk3⟩

/-- The second half of `sys_link`: the entry for `ip` under the new name. -/
theorem linkEntry_ok {ip dp : Slot} {name : List UInt8} {dev inum : Nat} (h : Ok B (dp ::ₘ ip ::ₘ K) held s)
    (hback : Backed K held) (hi : inum < B.sb.ninodes) :
    wp (do
        ilock dp
        let d ← inode dp
        let r ← if d.dev ≠ dev then pure (-1) else dirlink dp name inum
        if r < 0 then
          iunlockput dp
          linkBad ip
        else
          iunlockput dp
          iput ip
          return 0) (fun _ s' => Ok B K held s' ∧ Keeps K s s') NoDoubleFree s := by
  have hsub : ip ::ₘ K ⊆ dp ::ₘ ip ::ₘ K := Multiset.subset_cons _ dp
  simp only [wp_bind]
  refine wp_post (ilock_ok h (Multiset.mem_cons_self dp _)) ?_
  rintro _ s1 ⟨h1, -, hk1, hdp⟩
  have hdin : dp ∈ insert dp held := Finset.mem_insert_self dp held
  -- both exits drop the lock and the reference first
  have hexit : ∀ (r : Int) s2, Ok B (dp ::ₘ ip ::ₘ K) (insert dp held) s2 → Keeps (dp ::ₘ ip ::ₘ K) s s2 →
      wp (if r < 0 then do iunlockput dp; linkBad ip else do iunlockput dp; iput ip; return 0)
        (fun _ s' => Ok B K held s' ∧ Keeps K s s') NoDoubleFree s2 := by
    intro r s2 h2 hk2
    have hdrop := iunlockput_ok h2 rfl hdin
    rw [Finset.erase_insert hdp] at hdrop
    have hK : K ⊆ ip ::ₘ K := Multiset.subset_cons K ip
    simp only [wp_ite, wp_bind]
    refine ⟨fun _ => wp_post hdrop ?_, fun _ => wp_post hdrop ?_⟩
    · rintro _ s3 ⟨h3, hk3⟩
      refine wp_post (linkBad_ok h3) ?_
      rintro _ s4 ⟨h4, hk4⟩
      exact ⟨h4, (((hk2.mono hsub).trans hk3).mono hK).trans hk4⟩
    · rintro _ s3 ⟨h3, hk3⟩
      refine wp_post (iput_ok h3 rfl (hback ip)) ?_
      rintro _ s4 ⟨h4, hk4⟩
      exact ⟨h4, (((hk2.mono hsub).trans hk3).mono hK).trans hk4⟩
  rw [wp_inode, wp_ite]
  refine ⟨fun _ => ?_, fun _ => ?_⟩ <;> rw [wp_bind]
  · exact hexit (-1) s1 h1 hk1
  · refine wp_post (dirlink_ok h1 hdin hi) ?_
    rintro r s2 ⟨h2, hk2⟩
    exact hexit r s2 h2 (hk1.trans hk2)

theorem sysLink_ok {old new : List UInt8} (h : Ok B K held s) (hold : HasCwd K cwd old) (hnew : HasCwd K cwd new) :
    wp (sysLink cwd old new) (fun _ s' => Ok B K held s' ∧ Keeps K s s') NoDoubleFree s := by
  unfold sysLink nameiparent
  rw [wp_bind]
  refine wp_post (namei_ok h hold) ?_
  rintro (_ | ip) s1 ⟨h1, hk1⟩
  · exact ⟨h1, hk1⟩
  simp only [Option.elim_some] at h1
  have hsub : K ⊆ ip ::ₘ K := Multiset.subset_cons K ip
  have hip : ip ∈ ip ::ₘ K := Multiset.mem_cons_self ip K
  simp only [wp_bind]
  refine wp_post (ilock_ok h1 hip) ?_
  rintro _ s2 ⟨h2, -, hk2, hnot⟩
  have hin : ip ∈ insert ip held := Finset.mem_insert_self ip held
  have hback : (insert ip held).erase ip = held := Finset.erase_insert hnot
  have hk : Keeps K s s2 := hk1.trans (hk2.mono hsub)
  rw [wp_inode, wp_ite]
  refine ⟨fun _ => ?_, fun _ => ?_⟩
  · rw [wp_bind]
    refine wp_post (iunlockput_ok h2 rfl hin) ?_
    rintro _ s3 ⟨h3, hk3⟩
    rw [hback] at h3
    exact ⟨h3, hk.trans hk3⟩
  · simp only [wp_bind]
    refine wp_post (addLink_ok h2 hin) ?_
    rintro _ s3 ⟨h3, hk3⟩
    refine wp_post (iunlock_ok h3 hin) ?_
    rintro _ s4 ⟨h4, -, hk4⟩
    rw [hback] at h4
    refine wp_post (namex_ok h4 (hnew.imp_right fun hc => Multiset.mem_cons_of_mem hc)) ?_
    rintro (_ | ⟨dp, name⟩) s5 ⟨h5, hk5⟩
    · refine wp_post (linkBad_ok h5) ?_
      rintro _ s6 ⟨h6, hk6⟩
      exact ⟨h6, ((hk.trans ((hk3.trans hk4).mono hsub)).trans (hk5.mono hsub)).trans hk6⟩
    · refine wp_post (linkEntry_ok h5 h.backed (h2.inum_lt hip)) ?_
      rintro _ s6 ⟨h6, hk6⟩
      exact ⟨h6, ((hk.trans ((hk3.trans hk4).mono hsub)).trans (hk5.mono hsub)).trans hk6⟩

/-! ## `sys_unlink` -/

/-- Zeroing part of a directory leaves each entry as it is or smaller. -/
theorem direntInum_zeroed_le (f : Arr) (off m o : Nat) : direntInum (blit f off m fun _ => 0) o ≤ direntInum f o := by
  have hbyte : ∀ i, (blit f off m (fun _ => 0) i).toNat ≤ (f i).toNat := by
    intro i
    by_cases hi : off ≤ i ∧ i < off + m
    · rw [blit_in hi.1 hi.2]
      exact Nat.zero_le _
    · rw [blit_out (by omega)]
  have h0 := hbyte o
  have h1 := hbyte (o + 1)
  simp only [direntInum, u16]
  omega

/-- Erasing the entry at `off`. -/
theorem zeroEntry_ok {off : Nat} (h : Ok B refs held s) (hx : x ∈ held) :
    wp (writei x (.kernel fun _ => 0) off 16) (fun _ s' => Ok B refs held s' ∧ Keeps refs s s') NoDoubleFree s := by
  obtain ⟨hr, hv⟩ := h.locked hx
  obtain ⟨-, -, hlt⟩ := h.core.live hr hv
  refine writei_ok h hx fun ht m _ e => ?_
  exact Nat.lt_of_le_of_lt (direntInum_zeroed_le ..) (h.dirs _ hlt ht e)

/-- The end of `sys_unlink`: the entry is erased, both inodes lose a link and are put back. -/
theorem unlinkEntry_ok {ip dp : Slot} {off : Nat} {type : Int}
    (h : Ok B (ip ::ₘ dp ::ₘ K) (insert ip (insert dp held)) s) (hip : ip ∉ insert dp held) (hdp : dp ∉ held) :
    wp (do
        let r ← writei dp (.kernel fun _ => 0) off 16
        if r ≠ 16 then panic "unlink: writei"
        else
          if type = T_DIR then addLink dp (-1) else pure ()
          iunlockput dp
          addLink ip (-1)
          iunlockput ip
          return 0) (fun (_ : Int) s' => Ok B K held s' ∧ Keeps K s s') NoDoubleFree s := by
  have hdin : dp ∈ insert ip (insert dp held) := Finset.mem_insert_of_mem (Finset.mem_insert_self dp held)
  have hne : ip ≠ dp := fun hc => hip (hc ▸ Finset.mem_insert_self ip held)
  have hK : K ⊆ ip ::ₘ K := Multiset.subset_cons K ip
  have hsub : ip ::ₘ K ⊆ ip ::ₘ dp ::ₘ K := Multiset.cons_subset_cons (Multiset.subset_cons K dp)
  -- from where the parent's count is right
  have htail : ∀ s1, Ok B (ip ::ₘ dp ::ₘ K) (insert ip (insert dp held)) s1 → Keeps (ip ::ₘ dp ::ₘ K) s s1 →
      wp (do iunlockput dp; addLink ip (-1); iunlockput ip; return 0)
        (fun (_ : Int) s' => Ok B K held s' ∧ Keeps K s s') NoDoubleFree s1 := by
    intro s1 h1 hk1
    rw [Multiset.cons_swap] at h1
    simp only [wp_bind]
    refine wp_post (iunlockput_ok h1 rfl hdin) ?_
    rintro _ s2 ⟨h2, hk2⟩
    rw [Finset.erase_insert_of_ne hne, Finset.erase_insert hdp] at h2
    have hin : ip ∈ insert ip held := Finset.mem_insert_self ip held
    refine wp_post (addLink_ok h2 hin) ?_
    rintro _ s3 ⟨h3, hk3⟩
    refine wp_post (iunlockput_ok h3 rfl hin) ?_
    rintro _ s4 ⟨h4, hk4⟩
    rw [Finset.erase_insert fun hc => hip (Finset.mem_insert_of_mem hc)] at h4
    exact ⟨h4, ((((hk1.mono hsub).trans hk2).trans hk3).mono hK).trans hk4⟩
  rw [wp_bind]
  refine wp_post (zeroEntry_ok h hdin) ?_
  rintro r s1 ⟨h1, hk1⟩
  rw [wp_ite, wp_ite]
  refine ⟨fun _ => panic_ok (by decide), fun _ => ⟨fun _ => ?_, fun _ => htail s1 h1 hk1⟩⟩
  rw [wp_bind]
  refine wp_post (addLink_ok h1 hdin) ?_
  rintro _ s2 ⟨h2, hk2⟩
  exact htail s2 h2 (hk1.trans hk2)

theorem sysUnlink_ok {path : List UInt8} (h : Ok B K held s) (hc : HasCwd K cwd path) :
    wp (sysUnlink cwd path) (fun _ s' => Ok B K held s' ∧ Keeps K s s') NoDoubleFree s := by
  unfold sysUnlink nameiparent
  rw [wp_bind]
  refine wp_post (namex_ok h hc) ?_
  rintro (_ | ⟨dp, name⟩) s1 ⟨h1, hk1⟩
  · exact ⟨h1, hk1⟩
  simp only [Option.elim_some] at h1
  simp only [wp_bind]
  refine wp_post (ilock_ok h1 (Multiset.mem_cons_self dp K)) ?_
  rintro _ s2 ⟨h2, -, hk2, hdp⟩
  have hsub : K ⊆ dp ::ₘ K := Multiset.subset_cons K dp
  have hdin : dp ∈ insert dp held := Finset.mem_insert_self dp held
  -- the exits that leave the directory as it is
  have hfail : ∀ s3, Ok B (dp ::ₘ K) (insert dp held) s3 → Keeps K s s3 →
      wp (do iunlockput dp; return -1) (fun (_ : Int) s' => Ok B K held s' ∧ Keeps K s s') NoDoubleFree s3 := by
    intro s3 h3 hk3
    rw [wp_bind]
    refine wp_post (iunlockput_ok h3 rfl hdin) ?_
    rintro _ s4 ⟨h4, hk4⟩
    rw [Finset.erase_insert hdp] at h4
    exact ⟨h4, hk3.trans hk4⟩
  have hk2' : Keeps K s s2 := hk1.trans (hk2.mono hsub)
  rw [wp_ite]
  refine ⟨fun _ => hfail s2 h2 hk2', fun _ => ?_⟩
  rw [wp_bind]
  refine wp_post (dirlookup_ok h2 hdin) ?_
  rintro (_ | ⟨ip, off⟩) s3 hr
  · cases (show s3 = s2 from hr)
    exact hfail _ h2 hk2'
  obtain ⟨h3, -, hk3, -, -⟩ := hr
  have hip : ip ∈ ip ::ₘ dp ::ₘ K := Multiset.mem_cons_self ip _
  simp only [wp_bind]
  refine wp_post (ilock_ok h3 hip) ?_
  rintro _ s4 ⟨h4, -, hk4, hnot⟩
  have hin : ip ∈ insert ip (insert dp held) := Finset.mem_insert_self ..
  have hk : Keeps K s s4 := hk2'.trans ((hk3.trans (hk4.mono (Multiset.subset_cons _ ip))).mono hsub)
  rw [wp_inode, wp_ite]
  refine ⟨fun _ => panic_ok (by decide), fun _ => ?_⟩
  -- `isdirempty` only reads
  have hrest : ∀ empty : Bool, wp (
      if empty = false then do
        iunlockput ip
        iunlockput dp
        return -1
      else do
        let r ← writei dp (.kernel fun _ => 0) off 16
        if r ≠ 16 then panic "unlink: writei"
        else
          if (s4.icache ip).type = T_DIR then addLink dp (-1) else pure ()
          iunlockput dp
          addLink ip (-1)
          iunlockput ip
          return 0) (fun (_ : Int) s' => Ok B K held s' ∧ Keeps K s s') NoDoubleFree s4 := by
    intro empty
    rw [wp_ite]
    refine ⟨fun _ => ?_, fun _ => ?_⟩
    · rw [wp_bind]
      refine wp_post (iunlockput_ok h4 rfl hin) ?_
      rintro _ s5 ⟨h5, hk5⟩
      rw [Finset.erase_insert hnot] at h5
      exact hfail s5 h5 (hk.trans (hk5.mono hsub))
    · refine wp_post (unlinkEntry_ok h4 hnot hdp) ?_
      rintro _ s5 ⟨h5, hk5⟩
      exact ⟨h5, hk.trans hk5⟩
  rw [wp_ite]
  refine ⟨fun ht => ?_, fun _ => hrest true⟩
  rw [wp_bind]
  refine wp_post (isdirempty_ok h4 hin ht) ?_
  rintro empty _ rfl
  exact hrest empty

end Xv6
