import Xv6.Fs.Undo
import Xv6.Sys.Runs

/-!
# `Sys.Failed` — what a call that returns -1 leaves behind

A call that fails has given back every reference and lock it took. For the calls on names, `dup` and `pipe` that
is all there is to undo; `open` with `O_CREATE` may also have made a file, and nothing takes that back.
-/

namespace Xv6

open Bytes Hoare Holders Machine

/-! ## States -/

/-- **The kernel between calls**: nothing is locked, references are counted, and the inodes they and the directories
    name are in use. -/
structure Kern.Sound (B : Env) (k : Kern) : Prop where
  held : k.Held 0 0
  ok : Ok B k.inodes ∅ k.fs
  tree : Tree B.sb k.inodes k.fs
  used : ∀ x ∈ k.inodes, (dmeta (k.fs.disk ROOTDEV) (k.fs.icache x).inum).type ≠ 0

/-- **Nothing changed**: the disk, the inodes referred to and their counts, the current directories and descriptors
    of all processes, and the counts of open files are the same. -/
structure Kern.Unchanged (k k' : Kern) : Prop where
  disk : k'.fs.disk = k.fs.disk
  iref : ∀ x, (k'.fs.icache x).ref = (k.fs.icache x).ref
  inum : ∀ x, (k.fs.icache x).ref ≠ 0 → (k'.fs.icache x).inum = (k.fs.icache x).inum
  procs : k'.procs = k.procs
  fref : ∀ f, (k'.ftable f).ref = (k.ftable f).ref

/-- What a call that fails must leave. -/
abbrev IfFailed (k : Kern) : Int → Kern → Prop := fun r k' => r = -1 → k.Unchanged k'

/-- Stops are not looked at. -/
abbrev Ignored : Stop → Kern → Prop := fun _ _ => True

variable {B : Env} {k k' : Kern} {p : Pid} {c : Slot} {f : FilePtr} {fs : Fs}

theorem Kern.Unchanged.refl (k : Kern) : k.Unchanged k :=
  ⟨rfl, fun _ => rfl, fun _ _ => rfl, rfl, fun _ => rfl⟩

/-- A call that returns something else has not failed. -/
theorem succeeded {r : Int} (hr : r ≠ -1) : wp (pure r : KM Int) (IfFailed k) Ignored k' := fun hc => absurd hc hr

/-- The file system gave back what was taken from it. -/
theorem Kern.Sound.unchanged (h : k.Sound B) (hst : Stays B k.inodes k.fs k.inodes ∅ fs) (hfs : k'.fs = fs)
    (hp : k'.procs = k.procs) (hf : ∀ f, (k'.ftable f).ref = (k.ftable f).ref) : k.Unchanged k' := by
  subst hfs
  refine ⟨hst.disk, fun x => ?_, fun x hx => ?_, hp, hf⟩
  · rw [hst.ok.core.cache.ref x, h.ok.core.cache.ref x]
    rfl
  · refine hst.keeps.inum x (Multiset.count_pos.mp (Nat.pos_of_ne_zero fun h0 => hx ?_))
    rw [h.ok.core.cache.ref x]
    exact_mod_cast h0

/-- The counts of open files follow from the descriptors. -/
theorem Kern.Held.fref (h : k.Held 0 0) (h' : k'.Held 0 0) (hp : k'.procs = k.procs) (f : FilePtr) :
    (k'.ftable f).ref = (k.ftable f).ref := by
  rw [h.files.ref f, h'.files.ref f, Kern.descs, Kern.descs, hp]

theorem Kern.Sound.cwd_live (h : k.Sound B) (hcwd : (k.procs p).cwd = some c) :
    c ∈ k.inodes ∧ Live k.inodes k.fs (k.fs.icache c).inum := by
  have hmem : c ∈ k.inodes := by
    have hc := cwd_mem (M := 0) hcwd
    rwa [add_zero] at hc
  exact ⟨hmem, h.used c hmem, .inr ⟨c, hmem, rfl⟩⟩

/-! ## Calls on names -/

/-- A call on the file system that gives everything back when it fails. -/
theorem onFs_failed {m : FsM Int} (h : k.Sound B)
    (hm : wp m (fun r s' => r = -1 → Stays B k.inodes k.fs k.inodes ∅ s') AnyStop k.fs) :
    wp (onFs m) (IfFailed k) Ignored k := by
  rw [wp_onFs]
  exact wp_mono hm (fun r fs hr hf => h.unchanged (hr hf) rfl rfl fun _ => rfl) fun _ _ _ => trivial

/-- `create` fails only before it has made anything. -/
theorem create_failed {path : List UInt8} {type major minor : Int} (h : k.Sound B) (hcwd : (k.procs p).cwd = some c)
    (ht : -32768 ≤ type ∧ type < 32768) :
    wp (do
      let cwd ← curdir p
      match ← onFs (create cwd path type major minor) with
      | none => return (-1 : Int)
      | some ip =>
        onFs (iunlockput ip)
        return 0) (IfFailed k) Ignored k := by
  obtain ⟨hmem, hl⟩ := h.cwd_live hcwd
  rw [wp_bind, wp_curdir hcwd, wp_bind, wp_onFs]
  refine wp_mono (create_created h.ok h.tree hmem hl ht) ?_ fun _ _ _ => trivial
  rintro (_ | ip) fs hr
  · exact fun _ => h.unchanged hr.1 rfl rfl fun _ => rfl
  · exact wp_after (fun _ _ => succeeded (by decide)) _

theorem sysChdir_failed {path : List UInt8} (h : k.Sound B) (hcwd : (k.procs p).cwd = some c) :
    wp (sysChdir p path) (IfFailed k) Ignored k := by
  obtain ⟨hmem, hl⟩ := h.cwd_live hcwd
  rw [sysChdir, wp_bind, wp_curdir hcwd, wp_bind, wp_onFs]
  refine wp_mono (namei_live h.ok h.tree hmem hl) ?_ fun _ _ _ => trivial
  rintro (_ | ip) fs1 ⟨-, h1, hlive⟩
  · exact fun _ => h.unchanged h1 rfl rfl fun _ => rfl
  replace hlive := hlive ip rfl
  simp only [Option.elim_some] at h1
  have hin : ip ∈ ip ::ₘ k.inodes := Multiset.mem_cons_self ip _
  have hsub : k.inodes ⊆ ip ::ₘ k.inodes := Multiset.subset_cons _ ip
  simp only [wp_bind, wp_onFs]
  refine wp_mono (ilock_stays h1.ok hlive) ?_ fun _ _ _ => trivial
  rintro _ fs2 h2
  have h12 := h1.trans h2 hsub
  have hl2 : Live k.inodes fs2 (fs2.icache ip).inum := by
    rw [h2.keeps.inum ip hin]
    exact (live_iff h2.disk (h2.keeps.mono hsub)).mpr hlive
  rw [wp_inode, wp_ite]
  refine ⟨fun _ => ?_, fun _ => ?_⟩
  · rw [wp_bind, wp_onFs]
    refine wp_mono (iunlockput_only h2.ok hl2) ?_ fun _ _ _ => trivial
    rintro _ fs3 h3
    exact fun _ => h.unchanged ⟨h3.ok, h3.disk.trans h12.disk, h12.keeps.trans h3.keeps⟩ rfl rfl fun _ => rfl
  · exact wp_after (fun _ => wp_after fun _ => wp_after fun _ _ => succeeded (by decide)) _

/-! ## Calls on descriptors -/

theorem fdalloc_wp {Q : Option Fd → Kern → Prop} {E : Stop → Kern → Prop}
    (hnone : (∀ d, (k.procs p).ofile d ≠ none) → Q none k)
    (hsome : ∀ d, (k.procs p).ofile d = none → Q (some d) (k.setFd p d (some f))) : wp (fdalloc p f) Q E k := by
  simp only [fdalloc, wp_bind, wp_get]
  cases hc : (List.finRange NOFILE).find? fun d => (k.procs p).ofile d = none with
  | none => exact hnone fun d => by simpa using List.find?_eq_none.mp hc d (List.mem_finRange d)
  | some d => exact hsome d (by simpa using List.find?_some hc)

theorem sysDup_failed {fd : Int} : wp (sysDup p fd) (IfFailed k) Ignored k := by
  rw [sysDup, wp_bind, wp_proc]
  cases fdFile (k.procs p) fd with
  | none => exact fun _ => .refl k
  | some d =>
    dsimp only
    rw [wp_bind]
    refine fdalloc_wp (fun _ _ => .refl k) fun d' _ => ?_
    exact wp_after (fun _ _ => succeeded (by omega)) _

/-- No process and no inode is touched, and no file comes to point to an inode. -/
structure Kern.Aside (k k' : Kern) : Prop where
  fs : k'.fs = k.fs
  procs : k'.procs = k.procs
  file : ∀ f, (k.ftable f).type ≠ .FD_INODE → (k'.ftable f).type ≠ .FD_INODE

theorem Kern.Aside.refl (k : Kern) : k.Aside k := ⟨rfl, rfl, fun _ h => h⟩

theorem Kern.Aside.trans {k'' : Kern} (h : k.Aside k') (h' : k'.Aside k'') : k.Aside k'' :=
  ⟨h'.fs.trans h.fs, h'.procs.trans h.procs, fun f hf => h'.file f (h.file f hf)⟩

theorem Kern.Aside.setFile {x : File} (h : k.Aside k') (hx : (k'.ftable f).type ≠ .FD_INODE → x.type ≠ .FD_INODE) :
    k.Aside (k'.setFile f x) := by
  refine ⟨h.fs, h.procs, fun g hg => ?_⟩
  by_cases hgf : g = f
  · subst hgf
    rw [setFile_self]
    exact hx (h.file g hg)
  · rw [setFile_of_ne hgf]
    exact h.file g hg

theorem filealloc_aside (hfree : ∀ f, (k.ftable f).ref = 0 → (k.ftable f).type = .FD_NONE) :
    wp filealloc (fun r k' => k.Aside k' ∧ (∀ f ∈ r, (k'.ftable f).type = .FD_NONE) ∧
      ∀ f, (k'.ftable f).ref = 0 → (k'.ftable f).type = .FD_NONE) Ignored k := by
  simp only [filealloc, wp_bind, wp_get]
  cases hc : (List.finRange NFILE).find? fun f => (k.ftable f).ref = 0 with
  | none => exact ⟨.refl k, fun f hf => absurd hf (by simp), hfree⟩
  | some f =>
    have h0 : (k.ftable f).ref = 0 := by simpa using List.find?_some hc
    have ht : ∀ g, ((k.setFile f { k.ftable f with ref := 1 }).ftable g).type = (k.ftable g).type := by
      intro g
      by_cases hg : g = f
      · rw [hg, setFile_self]
      · rw [setFile_of_ne hg]
    refine ⟨(Kern.Aside.refl k).setFile id, fun g hg => ?_, fun g hg => ?_⟩
    · obtain rfl := Option.mem_some_iff.mp hg
      exact (ht f).trans (hfree f h0)
    · refine (ht g).trans (hfree g ?_)
      by_cases hgf : g = f
      · rw [hgf]; exact h0
      · exact (congrArg File.ref (setFile_of_ne hgf k _)).symm.trans hg

/-- Closing a file that is no inode. -/
theorem fileclose_aside (hf : (k.ftable f).type ≠ .FD_INODE) : wp (fileclose f) (fun _ k' => k.Aside k') Ignored k := by
  simp only [fileclose, wp_bind, wp_file, wp_ite, wp_throw, wp_modFile]
  refine ⟨fun _ => trivial, fun _ => ⟨fun _ => (Kern.Aside.refl k).setFile id, fun _ => ?_⟩⟩
  have hclosed : k.Aside (k.setFile f { k.ftable f with ref := 0, type := .FD_NONE }) :=
    (Kern.Aside.refl k).setFile fun _ => show FileType.FD_NONE ≠ .FD_INODE by decide
  cases hty : (k.ftable f).type with
  | FD_NONE => exact hclosed
  | FD_INODE => exact absurd hty hf
  | FD_PIPE =>
    simp only [pipeclose, wp_bind, wp_get]
    split
    · trivial
    · exact ⟨hclosed.fs, hclosed.procs, hclosed.file⟩

theorem pipealloc_aside {page : Option Nat} (hfree : ∀ f, (k.ftable f).ref = 0 → (k.ftable f).type = .FD_NONE) :
    wp (pipealloc page) (fun r k' => k.Aside k' ∧ ∀ q ∈ r, (k'.ftable q.1).type ≠ .FD_INODE ∧
      (k'.ftable q.2).type ≠ .FD_INODE) Ignored k := by
  have hnone : ∀ {g : FileType}, g = .FD_NONE → g ≠ .FD_INODE := by rintro g rfl; decide
  rw [pipealloc, wp_bind]
  refine wp_post (filealloc_aside hfree) ?_
  rintro (_ | f0) k1 ⟨h1, hf0, hfree1⟩
  · exact ⟨h1, fun q hq => absurd hq (by simp)⟩
  replace hf0 := hnone (hf0 f0 rfl)
  dsimp only
  rw [wp_bind]
  refine wp_post (filealloc_aside hfree1) ?_
  rintro (_ | f1) k2 ⟨h2, hf1, -⟩
  · dsimp only
    rw [wp_bind]
    refine wp_post (fileclose_aside (h2.file f0 hf0)) ?_
    exact fun _ k3 h3 => ⟨(h1.trans h2).trans h3, fun q hq => absurd hq (by simp)⟩
  replace hf1 := hnone (hf1 f1 rfl)
  cases page with
  | none =>
    dsimp only
    rw [wp_bind]
    refine wp_post (fileclose_aside (h2.file f0 hf0)) fun _ k3 h3 => ?_
    rw [wp_bind]
    refine wp_post (fileclose_aside (h3.file f1 hf1)) fun _ k4 h4 => ?_
    exact ⟨((h1.trans h2).trans h3).trans h4, fun q hq => absurd hq (by simp)⟩
  | some a =>
    simp only [wp_bind, wp_modify, wp_modFile, wp_pure]
    have h3 : k.Aside { k2 with pipes := Function.update k2.pipes a (some (newPipe fun _ => 1)) } :=
      ⟨h2.fs.trans h1.fs, h2.procs.trans h1.procs, (h1.trans h2).file⟩
    have hpipe : FileType.FD_PIPE ≠ .FD_INODE := by decide
    refine ⟨(h3.setFile fun _ => hpipe).setFile fun _ => hpipe, fun q hq => ?_⟩
    obtain rfl := Option.mem_some_iff.mp hq
    refine ⟨?_, by rw [setFile_self]; exact hpipe⟩
    by_cases hne : f0 = f1
    · rw [hne, setFile_self]; exact hpipe
    · rw [setFile_of_ne hne, setFile_self]; exact hpipe

/-- Descriptors taken and given back. -/
theorem setFd_back {x : Fd} {o : Option FilePtr} (h : (k.procs p).ofile x = none) :
    ((k.setFd p x o).setFd p x none).procs = k.procs := by
  funext q
  by_cases hq : q = p
  · subst hq
    simp only [Kern.setFd, setProc_self, Function.update_idem]
    rw [← h, Function.update_eq_self]
  · simp only [Kern.setFd, setProc_of_ne hq]

theorem closeEnds_aside {rf wf : FilePtr} (hr : (k.ftable rf).type ≠ .FD_INODE) (hw : (k.ftable wf).type ≠ .FD_INODE) :
    wp (do
      fileclose rf
      fileclose wf
      return (-1 : Int)) (fun _ k' => k.Aside k') Ignored k := by
  rw [wp_bind]
  refine wp_post (fileclose_aside hr) fun _ k1 h1 => ?_
  rw [wp_bind]
  exact wp_post (fileclose_aside (h1.file wf hw)) fun _ k2 h2 => h1.trans h2

/-- **`sys_pipe`** that fails has closed both ends and given back the descriptor. -/
theorem sysPipe_failed {fd : Nat} {page : Option Nat} (h : k.Held 0 0) (hcwd : (k.procs p).cwd = some c)
    (hpage : ∀ a, page = some a → k.pipes a = none) : wp (sysPipe p fd page) (IfFailed k) Ignored k := by
  have haside : wp (sysPipe p fd page) (fun r k' => r = -1 → k'.fs = k.fs ∧ k'.procs = k.procs) Ignored k := by
    rw [sysPipe, wp_bind]
    refine wp_post (pipealloc_aside h.files.free) ?_
    rintro (_ | ⟨rf, wf⟩) k1 ⟨h1, hends⟩
    · exact fun _ => ⟨h1.fs, h1.procs⟩
    obtain ⟨hr, hw⟩ := hends _ rfl
    dsimp only
    rw [wp_bind]
    refine fdalloc_wp (fun _ => ?_) fun fd0 hfree => ?_
    · exact wp_post (closeEnds_aside hr hw) fun r k2 h2 _ => ⟨h2.fs.trans h1.fs, h2.procs.trans h1.procs⟩
    dsimp only
    rw [wp_bind]
    refine fdalloc_wp (fun _ => ?_) fun fd1 _ => ?_
    · dsimp only
      rw [wp_bind, wp_modProc]
      refine wp_post (closeEnds_aside hr hw) fun r k2 h2 _ => ⟨h2.fs.trans h1.fs, ?_⟩
      exact (h2.procs.trans (setFd_back hfree)).trans h1.procs
    · refine wp_after (fun _ => wp_after fun _ k2 => ?_) _
      rw [wp_pure]
      exact fun hc => absurd hc (by decide)
  refine wp_mono (wp_and (sysPipe_done h hcwd hpage) haside) ?_ fun _ _ _ => trivial
  rintro r k' ⟨hdone, hk⟩ hf
  obtain ⟨hfs, hprocs⟩ := hk hf
  refine ⟨by rw [hfs], fun x => by rw [hfs], fun x _ => by rw [hfs], hprocs, h.fref hdone.held hprocs⟩

/-- The calls that give everything back when they fail. -/
def Call.Undoes {V : Type} : Call V → Prop
  | .link .. | .unlink .. | .mkdir .. | .mknod .. | .chdir .. | .dup .. | .pipe .. => True
  | _ => False

/-- **A failed `link`, `unlink`, `mkdir`, `mknod`, `chdir`, `dup` or `pipe` changes nothing.** -/
theorem failedCalls_unchanged {V : Type} {call : Call V} (h : k.Sound B) (hcwd : (k.procs p).cwd = some c) (hc : call.Undoes)
    (hfresh : call.Fresh k) (hrun : exec (call.run p) k = (.ok (-1), k')) : k.Unchanged k' := by
  obtain ⟨hmem, hl⟩ := h.cwd_live hcwd
  have hwp : wp (call.run p) (IfFailed k) Ignored k := by
    cases call with
    | link old new =>
      rw [Call.run, wp_bind, wp_curdir hcwd]
      exact onFs_failed h (sysLink_undo h.ok h.tree hmem hl)
    | unlink path =>
      rw [Call.run, wp_bind, wp_curdir hcwd]
      exact onFs_failed h (sysUnlink_undo h.ok h.tree hmem hl)
    | mkdir path => exact create_failed h hcwd (by decide)
    | mknod path major minor => exact create_failed h hcwd (by decide)
    | chdir path => exact sysChdir_failed h hcwd
    | dup fd => exact sysDup_failed
    | pipe fd page =>
      refine sysPipe_failed h.held hcwd ?_
      rintro a rfl
      exact hfresh
    | _ => exact hc.elim
  exact wp_ok hwp hrun rfl

/-- The kernel booted on a disk that `mkfs` made of one file `f`. -/
def bootedSys : CallSys := .boot (fun _ => mkfsImage.disk) (fun _ => 0) fun _ => none

def bootedEnv : Env := plainEnv mkfsImage.sb mkfsImage.start

theorem bootedSys_sound : bootedSys.kern.Sound bootedEnv := by
  have h0 : Ok bootedEnv 0 ∅ (Kern.zero (fun _ => mkfsImage.disk) (fun _ => 0) fun _ => none).fs :=
    Formatted.ok_of_unused mkfsImage_sound.formatted mkfsImage_freeZero mkfsImage_entries fun _ => rfl
  have hrun : exec (namei 0 [slash]) (Kern.zero (fun _ => mkfsImage.disk) (fun _ => 0) fun _ => none).fs =
      (.ok (some 0), bootedSys.kern.fs) := rfl
  have hok := wp_ok (namei_ok h0 (.inl rfl)) hrun
  have hinodes : bootedSys.kern.inodes = 0 ::ₘ 0 := by
    rw [← add_zero bootedSys.kern.inodes, bootedSys, boot_kern, setCwd_inodes_none rfl, Multiset.add_cons, add_zero]
    exact congrArg (0 ::ₘ ·) (@zero_inodes (fun _ => mkfsImage.disk) (fun _ => 0) fun _ => none)
  refine ⟨boot_inv.held, by rw [hinodes]; exact hok.1, mkfsImage_tree rfl, fun x hx => ?_⟩
  rw [hinodes] at hx
  obtain rfl := Multiset.mem_singleton.mp hx
  decide +kernel

/-- `mkdir` of a name that is taken. -/
theorem failedCalls_unchanged_taken : ∃ k', exec (Call.run initproc (.mkdir [102] : Call Unit)) bootedSys.kern =
    (.ok (-1), k') ∧ bootedSys.kern.Unchanged k' := by
  have hrun : (exec (Call.run initproc (.mkdir [102] : Call Unit)) bootedSys.kern).1.toOption = some (-1) := by
    decide +kernel
  rcases hk : exec (Call.run initproc (.mkdir [102] : Call Unit)) bootedSys.kern with ⟨_ | r, k'⟩
  · rw [hk] at hrun; cases hrun
  · rw [hk] at hrun
    cases hrun
    exact ⟨k', rfl, @failedCalls_unchanged bootedEnv bootedSys.kern k' initproc 0 Unit (.mkdir [102]) bootedSys_sound
      (boot_cwd initproc) trivial trivial hk⟩

/-! ## `open` -/

/-- `open` has to make the file: `O_CREATE` is given, the directory of the path exists and the name in it does not. -/
def MustCreate (sb : Superblock) (s : Fs) (cwd : Slot) (path : List UInt8) (omode : Nat) : Prop :=
  omode &&& O_CREATE ≠ 0 ∧ resolve sb (s.disk ROOTDEV) (startInum s cwd path) (components path) = none ∧
    resolveParent sb (s.disk ROOTDEV) (startInum s cwd path) (components path) ≠ none

instance (sb : Superblock) (s : Fs) (cwd : Slot) (path : List UInt8) (omode : Nat) :
    Decidable (MustCreate sb s cwd path omode) := by unfold MustCreate; infer_instance

/-- The inode that `open` found, or made. -/
def Opened (B : Env) (K : Multiset Slot) (s : Fs) (cwd : Slot) (path : List UInt8) (omode : Nat) (r : Option Slot) (s' : Fs) :
    Prop :=
  match r with
  | none => Stays B K s K ∅ s' ∧ ¬ MustCreate B.sb s cwd path omode
  | some ip =>
    (¬ MustCreate B.sb s cwd path omode ∧ Stays B K s (ip ::ₘ K) {ip} s' ∧ Live K s' (s'.icache ip).inum) ∨
      (MustCreate B.sb s cwd path omode ∧ Ok B (ip ::ₘ K) {ip} s' ∧ Keeps K s s' ∧
        (dmeta (s.disk ROOTDEV) (s'.icache ip).inum).type = 0 ∧
        (dmeta (s'.disk ROOTDEV) (s'.icache ip).inum).type = T_FILE ∧
        (dmeta (s'.disk ROOTDEV) (s'.icache ip).inum).nlink = 1)

theorem openInode_opened {K : Multiset Slot} {s : Fs} {path : List UInt8} {omode : Nat} (h : Ok B K ∅ s) (ht : Tree B.sb K s)
    (hc : c ∈ K) (hl : Live K s (s.icache c).inum) :
    wp (openInode c path omode) (Opened B K s c path omode) AnyStop s := by
  unfold openInode
  rw [wp_ite]
  refine ⟨fun hcreate => ?_, fun hcreate => ?_⟩
  · refine wp_post (create_created h ht hc hl (by decide)) ?_
    rintro (_ | ip) s1 hr
    · refine ⟨hr.1, fun hm => hr.2.elim (fun hn => hn hm.2.1) hm.2.2⟩
    · rcases hr with ⟨hn, hst, hlive⟩ | ⟨hn, hp, hnew⟩
      · exact .inl ⟨fun hm => hn hm.2.1, hst, hlive⟩
      · exact .inr ⟨⟨hcreate, hn, hp⟩, hnew rfl⟩
  · have hnot : ¬ MustCreate B.sb s c path omode := fun hm => hcreate hm.1
    rw [wp_bind]
    refine wp_mono (namei_live h ht hc hl) ?_ fun _ _ _ => trivial
    rintro (_ | ip) s1 ⟨-, h1, hlive⟩
    · exact ⟨h1, hnot⟩
    replace hlive := hlive ip rfl
    simp only [Option.elim_some] at h1
    have hin : ip ∈ ip ::ₘ K := Multiset.mem_cons_self ip K
    have hsub : K ⊆ ip ::ₘ K := Multiset.subset_cons K ip
    simp only [wp_bind]
    refine wp_mono (ilock_stays h1.ok hlive) ?_ fun _ _ _ => trivial
    rintro _ s2 h2
    have h12 := h1.trans h2 hsub
    have hl2 : Live K s2 (s2.icache ip).inum := by
      rw [h2.keeps.inum ip hin]
      exact (live_iff h2.disk (h2.keeps.mono hsub)).mpr hlive
    rw [wp_inode, wp_ite]
    refine ⟨fun _ => ?_, fun _ => .inl ⟨hnot, h12, hl2⟩⟩
    rw [wp_bind]
    refine wp_mono (iunlockput_only h2.ok hl2) ?_ fun _ _ _ => trivial
    rintro _ s3 h3
    exact ⟨⟨h3.ok, h3.disk.trans h12.disk, h12.keeps.trans h3.keeps⟩, hnot⟩

/-- Giving back the inode of a failed `open` undoes the call unless it made the file. -/
theorem Opened.put {ip : Slot} {path : List UInt8} {omode : Nat}
    (ho : Opened B k.inodes k.fs c path omode (some ip) fs) :
    wp (iunlockput ip) (fun _ fs' => (Stays B k.inodes k.fs k.inodes ∅ fs' ∧ ¬ MustCreate B.sb k.fs c path omode) ∨
      (fs'.disk ≠ k.fs.disk ∧ MustCreate B.sb k.fs c path omode)) AnyStop fs := by
  rcases ho with ⟨hm, hst, hlive⟩ | ⟨hm, hok, hk, h0, h1, hn⟩
  · refine wp_mono (iunlockput_only hst.ok hlive) ?_ fun _ _ _ => trivial
    rintro _ s3 h3
    exact .inl ⟨⟨h3.ok, h3.disk.trans hst.disk, hst.keeps.trans h3.keeps⟩, hm⟩
  · have hlive : Live k.inodes fs (fs.icache ip).inum := ⟨by rw [h1]; decide, .inl (by rw [hn]; decide)⟩
    refine wp_mono (iunlockput_only hok hlive) ?_ fun _ _ _ => trivial
    rintro _ s3 h3
    refine .inr ⟨fun hd => ?_, hm⟩
    rw [← hd, h3.disk, h1] at h0
    exact absurd h0 (by decide)

theorem filealloc_wp {Q : Option FilePtr → Kern → Prop} {E : Stop → Kern → Prop}
    (hnone : (∀ f, (k.ftable f).ref ≠ 0) → Q none k)
    (hsome : ∀ f, (k.ftable f).ref = 0 → Q (some f) (k.setFile f { k.ftable f with ref := 1 })) : wp filealloc Q E k := by
  simp only [filealloc, wp_bind, wp_get]
  cases hc : (List.finRange NFILE).find? fun f => (k.ftable f).ref = 0 with
  | none => exact hnone fun f => by simpa using List.find?_eq_none.mp hc f (List.mem_finRange f)
  | some f => exact hsome f (by simpa using List.find?_some hc)

/-- A file structure and a descriptor are free. -/
def Kern.Spare (k : Kern) (p : Pid) : Prop := (∃ f, (k.ftable f).ref = 0) ∧ ∃ d, (k.procs p).ofile d = none

instance (k : Kern) (p : Pid) : Decidable (k.Spare p) := by unfold Kern.Spare; infer_instance

/-- How `open` ends. -/
inductive OpenEnd (B : Env) (k : Kern) (p : Pid) (c : Slot) (path : List UInt8) (omode : Nat) (r : Int) (k' : Kern) : Prop where
  | opened (hr : r ≠ -1) (spare : k.Spare p)
  | undone (hr : r = -1) (procs : k'.procs = k.procs) (stays : Stays B k.inodes k.fs k.inodes ∅ k'.fs)
      (found : ¬ MustCreate B.sb k.fs c path omode)
  | left (hr : r = -1) (disk : k'.fs.disk ≠ k.fs.disk) (made : MustCreate B.sb k.fs c path omode) (full : ¬ k.Spare p)

theorem sysOpen_end {path : List UInt8} {omode : Nat} (h : k.Sound B) (hcwd : (k.procs p).cwd = some c) :
    wp (sysOpen p path omode) (OpenEnd B k p c path omode) Ignored k := by
  obtain ⟨hmem, hl⟩ := h.cwd_live hcwd
  rw [sysOpen, wp_bind, wp_curdir hcwd, wp_bind, wp_onFs]
  refine wp_mono (openInode_opened h.ok h.tree hmem hl) ?_ fun _ _ _ => trivial
  rintro (_ | ip) fs1 ho
  · exact .undone rfl rfl ho.1 ho.2
  -- the error exits give the inode back
  have hput : ∀ k2 : Kern, k2.fs = fs1 → k2.procs = k.procs → ¬ k.Spare p →
      wp (do onFs (iunlockput ip); return (-1 : Int)) (OpenEnd B k p c path omode) Ignored k2 := by
    rintro k2 rfl hp hfull
    rw [wp_bind, wp_onFs]
    refine wp_mono ho.put ?_ fun _ _ _ => trivial
    rintro _ fs2 (⟨hst, hm⟩ | ⟨hd, hm⟩)
    · exact .undone rfl hp hst hm
    · exact .left rfl hd hm hfull
  dsimp only
  rw [wp_bind]
  refine filealloc_wp (fun hall => ?_) fun f hf => ?_
  · exact hput _ rfl rfl fun hspare => absurd hspare.1.choose_spec (hall _)
  dsimp only
  rw [wp_bind]
  refine fdalloc_wp (fun hall => ?_) fun d hd => ?_
  · have hnone : (k.ftable f).type = .FD_NONE := h.held.files.free f hf
    dsimp only
    rw [wp_bind]
    refine wp_post (fileclose_aside ?_) fun _ k2 h2 => ?_
    · rw [setFile_self]
      show (k.ftable f).type ≠ .FD_INODE
      rw [hnone]; decide
    · exact hput k2 h2.fs h2.procs fun hspare => absurd hspare.2.choose_spec (hall _)
  · refine wp_after (fun _ => wp_after fun _ k2 => ?_) _
    rw [wp_pure]
    exact .opened (by omega) ⟨⟨f, hf⟩, d, hd⟩

/-- **A failed `open` changes nothing**, unless it had to make the file and found no file structure or no
    descriptor for it. -/
theorem sysOpen_unchanged_iff {path : List UInt8} {omode : Nat} {r : Int} (h : k.Sound B) (hcwd : (k.procs p).cwd = some c)
    (hrun : exec (sysOpen p path omode) k = (.ok r, k')) :
    (r = -1 → k.Unchanged k') ↔ (MustCreate B.sb k.fs c path omode → k.Spare p) := by
  have hdone := wp_ok (sysOpen_done h.held hcwd) hrun
  cases wp_ok (sysOpen_end h hcwd) hrun with
  | opened hr spare => exact iff_of_true (fun hc => absurd hc hr) fun _ => spare
  | undone hr procs stays found =>
    exact iff_of_true (fun _ => h.unchanged stays rfl procs (h.held.fref hdone.held procs)) fun hm => absurd hm found
  | left hr disk made full => exact iff_of_false (fun hc => disk (hc hr).disk) fun hc => full (hc made)

/-- Open the file `g`, which is not there. -/
theorem sysOpen_unchanged_iff_missing : ∃ k', exec (sysOpen initproc [103] O_RDONLY) bootedSys.kern = (.ok (-1), k') ∧
    bootedSys.kern.Unchanged k' := by
  have hrun : (exec (sysOpen initproc [103] O_RDONLY) bootedSys.kern).1.toOption = some (-1) := by decide +kernel
  have hspare : bootedSys.kern.Spare initproc := by decide +kernel
  rcases hk : exec (sysOpen initproc [103] O_RDONLY) bootedSys.kern with ⟨_ | r, k'⟩ <;> rw [hk] at hrun
  · cases hrun
  · obtain rfl : r = -1 := Option.some.inj hrun
    exact ⟨k', rfl, (sysOpen_unchanged_iff bootedSys_sound (boot_cwd initproc) hk).mpr (fun _ => hspare) rfl⟩

/-- Open `f` and use up the other descriptors. -/
def fillFds : List (CallEvent Unit) := .call initproc (.open [102] O_RDONLY) :: List.replicate 15 (.call initproc (.dup 0))

/-- The file is left behind. -/
theorem sysOpen_leaves_file : ∃ s k', run callStep bootedSys fillFds = some s ∧
    exec (sysOpen initproc [103] O_CREATE) s.kern = (.ok (-1), k') ∧ ¬ s.kern.Unchanged k' := by
  have hrun : (run callStep bootedSys fillFds).map (fun s =>
      ((exec (sysOpen initproc [103] O_CREATE) s.kern).1.toOption, (dmeta (s.kern.fs.disk ROOTDEV) 3).type,
        (dmeta ((exec (sysOpen initproc [103] O_CREATE) s.kern).2.fs.disk ROOTDEV) 3).type)) =
      some (some (-1), 0, T_FILE) := by decide +kernel
  obtain ⟨s, hs, hv⟩ := Option.map_eq_some_iff.mp hrun
  rw [Prod.mk.injEq, Prod.mk.injEq] at hv
  obtain ⟨hr, h0, h1⟩ := hv
  rcases hk : exec (sysOpen initproc [103] O_CREATE) s.kern with ⟨_ | r, k'⟩
  · rw [hk] at hr; cases hr
  · rw [hk] at hr h1
    cases hr
    refine ⟨s, k', hs, hk, fun hc => ?_⟩
    rw [hc.disk, h0] at h1
    exact absurd h1 (by decide)

end Xv6
