import Xv6.Sys.Counts

/-!
# `Sys.Keep` — each call on files gives back what it took

A call changes the descriptors and the directory of its own process only, and holds nothing when it returns.
`read`, `write` and `fstat` keep the counts exact at every step, also where they sleep.
-/

namespace Xv6

open Bytes Hoare Holders

variable {F : FilePtr → Int} {M : Multiset Slot} {k k' : Kern} {p q : Pid} {f : FilePtr} {c ip : Slot} {V : Type}

/-! ## Rules -/

theorem wp_curdir {Q : Slot → Kern → Prop} {E : Stop → Kern → Prop} (h : (k.procs p).cwd = some c) :
    wp (curdir p) Q E k ↔ Q c k := by
  simp only [curdir, wp_bind, wp_proc, h, wp_pure]

theorem cwd_mem (h : (k.procs p).cwd = some c) : c ∈ k.inodes + M :=
  Multiset.mem_add.mpr (.inl (Multiset.mem_add.mpr (.inr (mem_targets.mpr ⟨p, h⟩))))

theorem add_withRef (B M : Multiset Slot) (r : Option Slot) : B + withRef M r = withRef (B + M) r := by
  cases r with
  | none => rfl
  | some x => exact Multiset.add_cons x B M

/-- File system code that returns a slot with a reference, if any. -/
theorem Kern.Held.onFs_ref {m : FsM (Option Slot)} {Q : Option Slot → Kern → Prop} (h : k.Held F M)
    (hm : Moves (k.inodes + M) m (withRef (k.inodes + M)))
    (hQ : ∀ r fs, { k with fs }.Held F (withRef M r) → Q r { k with fs }) : wp (Xv6.onFs m) Q Unhurt k := by
  refine h.onFs (N := withRef M) ?_ hQ
  simp only [add_withRef]
  exact hm

/-- File system code that moves no reference. -/
theorem Kern.Held.onFs_keep {α : Type} {m : FsM α} {Q : α → Kern → Prop} (h : k.Held F M) (hm : KeepsRefs m)
    (hQ : ∀ a fs, { k with fs }.Held F M → Q a { k with fs }) : wp (Xv6.onFs m) Q Unhurt k :=
  h.onFs (N := fun _ => M) hm.moves hQ

/-- Giving back a reference the call holds. -/
theorem Kern.Held.onFs_unlockput {Q : Unit → Kern → Prop} (h : k.Held F (ip ::ₘ M))
    (hQ : ∀ fs, { k with fs }.Held F M → Q () { k with fs }) : wp (Xv6.onFs (iunlockput ip)) Q Unhurt k :=
  h.onFs (N := fun _ => M) (iunlockput_refs (Multiset.add_cons ..)) fun _ fs hk => hQ fs hk

theorem storeUser_refs {a n : Nat} {src : Arr} : KeepsRefs (storeUser a n src) :=
  fun _ _ h => h.congr (fun _ => rfl) (fun _ => rfl) fun _ => rfl

/-- `proc->cwd = o`. -/
def Kern.setCwd (k : Kern) (p : Pid) (o : Option Slot) : Kern := k.setProc p { k.procs p with cwd := o }

/-- A change of a current directory exchanges its inode. -/
theorem setCwd_inodes (k : Kern) (p : Pid) (o : Option Slot) :
    (k.setCwd p o).inodes + target (k.procs p).cwd = k.inodes + target o := by
  have hupd : (fun q => ((k.setCwd p o).procs q).cwd) = Function.update (fun q => (k.procs q).cwd) p o := by
    funext q
    by_cases hq : q = p
    · rw [hq, Kern.setCwd, setProc_self, Function.update_self]
    · rw [Kern.setCwd, setProc_of_ne hq, Function.update_of_ne hq]
  have htargets := targets_update (g := fun q => (k.procs q).cwd) (i := p) o
  rw [Kern.inodes, Kern.inodes, hupd, add_assoc, htargets, add_assoc]
  rfl

/-- A directory the call holds becomes that of a process that has none. -/
theorem setCwd_inodes_none (h : (k.procs p).cwd = none) :
    (k.setCwd p (some ip)).inodes + M = k.inodes + ip ::ₘ M := by
  have hinodes := setCwd_inodes k p (some ip)
  rw [h, target, add_zero] at hinodes
  rw [hinodes, target, add_assoc, Multiset.singleton_add]

/-- The directory of a process, with what replaces it. -/
theorem inodes_setCwd (h : (k.procs p).cwd = some c) (o : Option Slot) :
    k.inodes + withRef 0 o = c ::ₘ (k.setCwd p o).inodes := by
  have hinodes := setCwd_inodes k p o
  rw [h] at hinodes
  rw [← Multiset.singleton_add, add_comm ({c} : Multiset Slot)]
  cases o with
  | none => exact hinodes.symm
  | some x => exact hinodes.symm

/-- A process changes in other fields than its descriptors. -/
theorem Kern.Files.setProc (h : k.Files F) {x : Proc} (hx : x.ofile = (k.procs p).ofile) :
    (k.setProc p x).Files F := by
  have hfd : ∀ q, ((k.setProc p x).procs q).ofile = (k.procs q).ofile := fun q => by
    by_cases hq : q = p
    · rw [hq, setProc_self, hx]
    · rw [setProc_of_ne hq]
  have hdescs : (k.setProc p x).descs = k.descs := by simp only [Kern.descs, hfd]
  refine ⟨fun f => ?_, h.free, h.typed.congr (fun _ => .refl _) rfl⟩
  rw [hdescs]
  exact h.ref f

/-- The other fields of a process do not matter. -/
theorem Kern.Held.setProc (h : k.Held F M) {x : Proc} (hfd : x.ofile = (k.procs p).ofile)
    (hcwd : x.cwd = (k.procs p).cwd) : (k.setProc p x).Held F M := by
  have hsame : (k.setProc p x).inodes = k.inodes := by
    refine inodes_congr (fun _ => rfl) fun q => ?_
    by_cases hq : q = p
    · rw [hq, setProc_self, hcwd]
    · rw [setProc_of_ne hq]
  refine ⟨h.files.setProc hfd, ?_⟩
  rw [hsame]
  exact h.refs

/-! ## Calls -/

/-- **A call of `p` is done**: it holds nothing, and has touched no other process. -/
structure Done (p : Pid) (k k' : Kern) : Prop where
  held : k'.Held 0 0
  cwd : (k'.procs p).cwd ≠ none
  other : ∀ q ≠ p, k'.procs q = k.procs q

/-- Only descriptors of `p` differ. -/
structure Near (p : Pid) (k k' : Kern) : Prop where
  cwd : (k'.procs p).cwd = (k.procs p).cwd
  other : ∀ q ≠ p, k'.procs q = k.procs q

theorem Near.of_eq (h : k'.procs = k.procs) : Near p k k' := ⟨by rw [h], fun q _ => by rw [h]⟩

theorem Near.setFd {d : Fd} {o : Option FilePtr} (h : Near p k k') : Near p k (k'.setFd p d o) :=
  ⟨(setFd_cwd k' p p d o).trans h.cwd, fun q hq => (setProc_of_ne hq ..).trans (h.other q hq)⟩

theorem Near.trans_eq {k'' : Kern} (h : Near p k k') (h' : k''.procs = k'.procs) : Near p k k'' :=
  ⟨by rw [h', h.cwd], fun q hq => by rw [h', h.other q hq]⟩

/-- A call that changed descriptors of its process only. -/
theorem Kern.Held.done (h : k'.Held 0 0) (hcwd : (k.procs p).cwd = some c) (hnear : Near p k k') : Done p k k' := by
  refine ⟨h, ?_, hnear.other⟩
  rw [hnear.cwd, hcwd]
  exact Option.some_ne_none c

theorem fdFile_eq_some {x : Proc} {fd : Int} {d : Fd} (h : fdFile x fd = some (d, f)) : x.ofile d = some f := by
  rw [fdFile] at h
  split at h
  · obtain ⟨g, hg, he⟩ := Option.map_eq_some_iff.mp h
    cases he
    exact hg
  · cases h

/-- An open descriptor points to a file in use. -/
theorem Kern.Held.ref_pos {d : Fd} (h : k.Held 0 M) (hd : (k.procs p).ofile d = some f) : 0 < (k.ftable f).ref := by
  have hmem : f ∈ k.descs := by
    rw [Kern.descs, mem_targets]
    exact ⟨(p, d), hd⟩
  have hcount := Multiset.count_pos.mpr hmem
  have href := h.files.ref f
  rw [Pi.zero_apply, add_zero] at href
  omega

/-- A file the call holds is in use. -/
theorem Kern.Held.pos_of_held (h : k.Held F M) (hF : 0 < F f) : 0 < (k.ftable f).ref := by
  have href := h.files.ref f
  omega

theorem sysDup_done {fd : Int} (h : k.Held 0 0) (hcwd : (k.procs p).cwd = some c) :
    wp (sysDup p fd) (fun _ k' => Done p k k') Unhurt k := by
  rw [sysDup, wp_bind, wp_proc]
  cases hfd : fdFile (k.procs p) fd with
  | none => exact h.done hcwd (.of_eq rfl)
  | some d =>
    have hpos := h.ref_pos (fdFile_eq_some hfd)
    dsimp only
    rw [wp_bind]
    refine fdalloc_held h (h.done hcwd (.of_eq rfl)) fun fd' _ h₁ => ?_
    dsimp only
    rw [wp_bind]
    -- the descriptor is stored first: until the count follows, it is one too low
    refine filedup_held h₁ hpos fun k' h₂ hprocs => ?_
    rw [sub_add_cancel] at h₂
    exact h₂.done hcwd ((Near.of_eq rfl).setFd.trans_eq hprocs)

theorem sysClose_done {fd : Int} (h : k.Held 0 0) (hcwd : (k.procs p).cwd = some c) :
    wp (sysClose p fd) (fun _ k' => Done p k k') Unhurt k := by
  rw [sysClose, wp_bind, wp_proc]
  cases hfd : fdFile (k.procs p) fd with
  | none => exact h.done hcwd (.of_eq rfl)
  | some d =>
    have hd := fdFile_eq_some hfd
    have h₁ := h.clearFd hd
    dsimp only
    rw [wp_bind, wp_modProc, wp_bind]
    refine fileclose_held h₁ (h.ref_pos hd) fun k' h₂ hprocs _ => ?_
    rw [add_sub_cancel_right] at h₂
    exact h₂.done hcwd ((Near.of_eq rfl).setFd.trans_eq hprocs)

theorem openInode_refs (hcwd : c ∈ M) {path : List UInt8} {omode : Nat} :
    Moves M (openInode c path omode) (withRef M) := by
  refine .ite (fun _ => create_refs hcwd) fun _ => .bind (namei_refs hcwd) fun r => ?_
  cases r with
  | none => exact .pure fun _ h => h
  | some ip =>
    refine ilock_refs.then fun _ => inode_refs.then fun i => .ite (fun _ => ?_) fun _ => .pure fun _ h => h
    exact .bind (iunlockput_refs rfl) fun _ => .pure fun _ h => h

theorem sysOpen_done {path : List UInt8} {omode : Nat} (h : k.Held 0 0) (hcwd : (k.procs p).cwd = some c) :
    wp (sysOpen p path omode) (fun _ k' => Done p k k') Unhurt k := by
  rw [sysOpen, wp_bind, wp_curdir hcwd, wp_bind]
  refine h.onFs_ref (openInode_refs (cwd_mem hcwd)) fun r fs h₁ => ?_
  cases r with
  | none => exact h₁.done hcwd (.of_eq rfl)
  | some ip =>
    dsimp only
    rw [wp_bind]
    refine filealloc_held h₁ ?_ fun f hfree h₂ => ?_
    · dsimp only
      rw [wp_bind]
      exact h₁.onFs_unlockput fun fs' h₂ => h₂.done hcwd (.of_eq rfl)
    dsimp only
    rw [wp_bind]
    set k₁ : Kern := { k with fs } with hk₁
    have hty : (k₁.ftable f).type = .FD_NONE := h₁.files.free f hfree
    refine fdalloc_held h₂ ?_ fun fd _ h₃ => ?_
    · dsimp only
      rw [wp_bind]
      refine fileclose_held h₂ (by rw [setFile_self]; exact one_pos) fun k' h₃ hprocs _ => ?_
      rw [add_sub_cancel_right] at h₃
      rw [wp_bind]
      exact h₃.onFs_unlockput fun fs' h₄ => h₄.done hcwd (.of_eq hprocs)
    · rw [add_sub_cancel_right] at h₃
      dsimp only
      rw [wp_bind]
      refine h₃.onFs_keep iunlock_refs fun _ fs' h₄ => ?_
      rw [wp_bind, wp_modFile, wp_pure]
      have hpos : 0 < ((k₁.setFile f { k₁.ftable f with ref := 1 }).ftable f).ref := by
        rw [setFile_self]
        exact one_pos
      have hnone : ((k₁.setFile f { k₁.ftable f with ref := 1 }).ftable f).type = .FD_NONE := by
        rw [setFile_self]
        exact hty
      have hnear : Near p k (k.setFd p fd (some f)) := (Near.of_eq rfl).setFd
      refine Kern.Held.done (h₄.setInode ?_ ?_ ?_ ?_ ?_) hcwd (hnear.trans_eq ?_)
      · exact hnone
      · exact hpos
      all_goals rfl

/-- `mkdir` and `mknod`: `create`, then the inode is put. -/
theorem create_done {path : List UInt8} {type major minor : Int} (h : k.Held 0 0)
    (hcwd : (k.procs p).cwd = some c) :
    wp (do
      let cwd ← curdir p
      match ← onFs (create cwd path type major minor) with
      | none => return (-1 : Int)
      | some ip =>
        onFs (iunlockput ip)
        return 0) (fun _ k' => Done p k k') Unhurt k := by
  rw [wp_bind, wp_curdir hcwd, wp_bind]
  refine h.onFs_ref (create_refs (cwd_mem hcwd)) fun r fs h₁ => ?_
  cases r with
  | none => exact h₁.done hcwd (.of_eq rfl)
  | some ip =>
    dsimp only
    rw [wp_bind]
    exact h₁.onFs_unlockput fun fs' h₂ => h₂.done hcwd (.of_eq rfl)

theorem sysMkdir_done {path : List UInt8} (h : k.Held 0 0) (hcwd : (k.procs p).cwd = some c) :
    wp (sysMkdir p path) (fun _ k' => Done p k k') Unhurt k := create_done h hcwd

theorem sysMknod_done {path : List UInt8} {major minor : Int} (h : k.Held 0 0) (hcwd : (k.procs p).cwd = some c) :
    wp (sysMknod p path major minor) (fun _ k' => Done p k k') Unhurt k := create_done h hcwd

/-- `link` and `unlink`: a call on names that gives back all it took. -/
theorem names_done {m : Slot → FsM Int} (h : k.Held 0 0) (hcwd : (k.procs p).cwd = some c)
    (hm : ∀ M, c ∈ M → Moves M (m c) fun _ => M) :
    wp (do
      let cwd ← curdir p
      onFs (m cwd)) (fun _ k' => Done p k k') Unhurt k := by
  rw [wp_bind, wp_curdir hcwd]
  exact h.onFs (N := fun _ => 0) (hm _ (cwd_mem hcwd)) fun _ fs h₁ => h₁.done hcwd (.of_eq rfl)

theorem sysChdir_done {path : List UInt8} (h : k.Held 0 0) (hcwd : (k.procs p).cwd = some c) :
    wp (sysChdir p path) (fun _ k' => Done p k k') Unhurt k := by
  rw [sysChdir, wp_bind, wp_curdir hcwd, wp_bind]
  refine h.onFs_ref (namei_refs (cwd_mem hcwd)) fun r fs h₁ => ?_
  cases r with
  | none => exact h₁.done hcwd (.of_eq rfl)
  | some ip =>
    dsimp only
    rw [wp_bind]
    refine h₁.onFs_keep ilock_refs fun _ fs₂ h₂ => ?_
    rw [wp_bind]
    refine h₂.onFs_keep inode_refs fun i fs₃ h₃ => ?_
    rw [wp_ite]
    refine ⟨fun _ => ?_, fun _ => ?_⟩
    · rw [wp_bind]
      exact h₃.onFs_unlockput fun fs₄ h₄ => h₄.done hcwd (.of_eq rfl)
    rw [wp_bind]
    refine h₃.onFs_keep iunlock_refs fun _ fs₄ h₄ => ?_
    -- the old directory is put before the new one is stored
    set k₄ : Kern := { k with fs := fs₄ } with hk₄
    rw [wp_bind, wp_onFs]
    refine wp_mono (iput_refs (inodes_setCwd (k := k₄) hcwd (some ip)) fs₄ h₄.refs) (fun _ fs₅ h₅ => ?_) fun _ _ he => he
    rw [wp_bind, wp_modProc, wp_pure]
    refine ⟨⟨?_, ?_⟩, ?_, fun q hq => ?_⟩
    · exact (h.files.withFs fs₅).setProc rfl
    · rw [add_zero]
      exact h₅
    · rw [setProc_self]
      exact Option.some_ne_none ip
    · rw [setProc_of_ne hq]

/-- The error exit of `sys_pipe` closes both ends. -/
theorem closeEnds_done {rf wf : FilePtr} (h : k'.Held (one rf + one wf) 0) (hcwd : (k.procs p).cwd = some c)
    (hnear : Near p k k') :
    wp (do
      fileclose rf
      fileclose wf
      return (-1 : Int)) (fun _ k'' => Done p k k'') Unhurt k' := by
  have hone : ∀ f g, 0 ≤ one f g := fun f g => by
    by_cases hg : g = f
    · rw [hg, one, Pi.single_eq_same]
      exact zero_le_one
    · rw [one, Pi.single_eq_of_ne hg]
  have hself : ∀ f, one f f = 1 := fun f => Pi.single_eq_same ..
  rw [wp_bind]
  refine fileclose_held h (h.pos_of_held ?_) fun k₁ h₁ hprocs₁ _ => ?_
  · rw [Pi.add_apply, hself]
    exact add_pos_of_pos_of_nonneg one_pos (hone wf rf)
  rw [add_sub_cancel_left] at h₁
  rw [wp_bind]
  refine fileclose_held h₁ (h₁.pos_of_held (by rw [hself]; exact one_pos)) fun k₂ h₂ hprocs₂ _ => ?_
  rw [sub_self] at h₂
  exact h₂.done hcwd ((hnear.trans_eq hprocs₁).trans_eq hprocs₂)

theorem sysPipe_done {fd : Nat} {page : Option Nat} (h : k.Held 0 0) (hcwd : (k.procs p).cwd = some c)
    (hpage : ∀ a, page = some a → k.pipes a = none) :
    wp (sysPipe p fd page) (fun _ k' => Done p k k') Unhurt k := by
  rw [sysPipe, wp_bind]
  refine pipealloc_held h hpage (fun k' h₁ hprocs => h₁.done hcwd (.of_eq hprocs)) fun rf wf k₁ h₁ hprocs => ?_
  have hnear : Near p k k₁ := .of_eq hprocs
  rw [zero_add] at h₁
  dsimp only
  rw [wp_bind]
  refine fdalloc_held h₁ (closeEnds_done h₁ hcwd hnear) fun fd0 _ h₂ => ?_
  rw [add_sub_cancel_left] at h₂
  have hfd0 : ((k₁.setFd p fd0 (some rf)).procs p).ofile fd0 = some rf := by
    rw [Kern.setFd, setProc_self]
    exact Function.update_self ..
  dsimp only
  rw [wp_bind]
  refine fdalloc_held h₂ ?_ fun fd1 _ h₃ => ?_
  · have h₃ := h₂.clearFd hfd0
    rw [add_comm] at h₃
    dsimp only
    rw [wp_bind, wp_modProc]
    exact closeEnds_done h₃ hcwd hnear.setFd.setFd
  · rw [sub_self] at h₃
    dsimp only
    rw [wp_bind]
    refine h₃.onFs_keep storeUser_refs fun _ fs₄ h₄ => ?_
    rw [wp_bind]
    refine h₄.onFs_keep storeUser_refs fun _ fs₅ h₅ => ?_
    exact h₅.done hcwd (hnear.setFd.setFd.trans_eq rfl)

/-! ## Reading and writing -/

/-- **Between two steps of a `read` or `write`** the counts are exact, also where it sleeps. -/
structure Calm (procs : Pid → Proc) (k : Kern) : Prop where
  held : k.Held 0 0
  procs : k.procs = procs

abbrev CalmStable (procs : Pid → Proc) {α : Type} (m : KM α) : Prop :=
  Stable (Calm procs) (fun e k => NoCountPanic e ∧ Calm procs k) m

variable {P : Pid → Proc}

theorem onFs_calm {α : Type} {m : FsM α} (hm : KeepsRefs m) : CalmStable P (onFs m) := by
  intro k h
  have hcalm : ∀ fs, Refs (k.inodes + 0) fs → Calm P { k with fs } := fun fs hr =>
    ⟨⟨h.held.files.withFs fs, hr⟩, h.procs⟩
  rw [wp_onFs]
  exact wp_mono (hm _ k.fs h.held.refs) (fun _ fs hr => hcalm fs hr) fun e fs he => ⟨he.1, hcalm fs he.2⟩

/-- A change of a file's offset. -/
theorem modFile_calm {g : File → File} (hsame : ∀ x, (g x).Same x) (href : ∀ x, (g x).ref = x.ref) :
    CalmStable P (modFile f g) := by
  intro k h
  rw [wp_modFile]
  have hs := fun f' => setFile_same (k := k) (f := f) (hsame (k.ftable f)) f'
  have hadd : ∀ f', ((k.setFile f (g (k.ftable f))).ftable f').ref = (k.ftable f').ref := fun f' => by
    by_cases hf : f' = f
    · rw [hf, setFile_self, href]
    · rw [setFile_of_ne hf]
  refine ⟨⟨⟨fun f' => ?_, fun f' hz => ?_, h.held.files.typed.congr hs rfl⟩, ?_⟩, h.procs⟩
  · rw [hadd f']
    exact h.held.files.ref f'
  · rw [(hs f').type]
    exact h.held.files.free f' ((hadd f').symm.trans hz)
  · rw [inodes_congr (fun f' => (hs f').target) fun _ => rfl]
    exact h.held.refs

/-- Bytes put into or taken from a live pipe. -/
theorem Kern.Typed.setPipe {a : Nat} {r r' : Pipe} (h : k.Typed) (ha : k.pipes a = some r)
    (hopen : ∀ w, r'.isOpen w = r.isOpen w) : ({ k with pipes := Function.update k.pipes a (some r') }).Typed := by
  have hpipes : ∀ {b q}, Function.update k.pipes a (some r') b = some q →
      ∃ q₀, k.pipes b = some q₀ ∧ ∀ w, q.isOpen w = q₀.isOpen w := fun {b q} hb => by
    by_cases hba : b = a
    · rw [hba, Function.update_self] at hb
      cases hb
      exact ⟨r, hba ▸ ha, hopen⟩
    · rw [Function.update_of_ne hba] at hb
      exact ⟨q, hb, fun _ => rfl⟩
  refine ⟨h.inode, fun b w f hf => ?_, fun b q w hb hw => ?_, fun b q hb => ?_, h.uniq⟩
  · obtain ⟨q, hq, hw⟩ := h.pipe b w f hf
    by_cases hba : b = a
    · subst hba
      cases hq.symm.trans ha
      exact ⟨r', Function.update_self .., (hopen w).trans hw⟩
    · exact ⟨q, (Function.update_of_ne hba ..).trans hq, hw⟩
  · obtain ⟨q₀, hq₀, hsame⟩ := hpipes hb
    exact h.ends b q₀ w hq₀ ((hsame w).symm.trans hw)
  · obtain ⟨q₀, hq₀, hsame⟩ := hpipes hb
    obtain ⟨w, hw⟩ := h.live b q₀ hq₀
    exact ⟨w, (hsame w).trans hw⟩

theorem loadUser_refs {a n : Nat} : KeepsRefs (loadUser a n) :=
  fun _ _ h => h.congr (fun _ => rfl) (fun _ => rfl) fun _ => rfl

theorem Calm.setPipe {a : Nat} {r r' : Pipe} (h : Calm P k) (ha : k.pipes a = some r)
    (hopen : ∀ w, r'.isOpen w = r.isOpen w) : Calm P { k with pipes := Function.update k.pipes a (some r') } :=
  ⟨⟨⟨h.held.files.ref, h.held.files.free, h.held.files.typed.setPipe ha hopen⟩, h.held.refs⟩, h.procs⟩

/-- What is promised of a `read` or `write` that stops or sleeps. -/
abbrev CalmStop (P : Pid → Proc) : Stop → Kern → Prop := fun e k => NoCountPanic e ∧ Calm P k

theorem noCountPanic_sleep : NoCountPanic .sleep := fun _ _ => nofun

theorem pipewriteFrom_calm {a addr : Nat} {n : Int} (left i : Nat) (h : Calm P k) (ha : k.pipes a ≠ none) :
    wp (pipewriteFrom p a addr n left i) (fun _ k' => Calm P k') (CalmStop P) k := by
  induction left generalizing i k with
  | zero => exact h
  | succ left ih =>
    obtain ⟨r, hr⟩ := Option.ne_none_iff_exists'.mp ha
    simp only [pipewriteFrom, wp_bind, wp_get, hr, wp_ite, wp_proc, wp_pure, wp_throw]
    refine ⟨fun _ => ⟨fun _ => h, fun _ => ⟨noCountPanic_sleep, h⟩⟩, fun _ => ?_⟩
    simp only [wp_onFs, wp_loadUser, wp_modify]
    have hload : Calm P { k with fs := { k.fs with acc := k.fs.acc ++ touch false (addr + i) 1 } } :=
      onFs_calm loadUser_refs k h
    exact ih (i + 1) (hload.setPipe hr fun _ => rfl) (by simp)

theorem pipereadFrom_calm {a addr : Nat} (left i : Nat) (h : Calm P k) (ha : k.pipes a ≠ none) :
    wp (pipereadFrom a addr left i) (fun _ k' => Calm P k') (CalmStop P) k := by
  induction left generalizing i k with
  | zero => exact h
  | succ left ih =>
    obtain ⟨r, hr⟩ := Option.ne_none_iff_exists'.mp ha
    simp only [pipereadFrom, wp_bind, wp_get, hr, wp_ite, wp_pure]
    refine ⟨fun _ => h, fun _ => ?_⟩
    simp only [wp_onFs, wp_storeUser, wp_modify]
    have hstore : Calm P { k with fs := { k.fs with
        mem := blit k.fs.mem (addr + i) 1 fun _ => r.data (r.nread % PIPESIZE)
        acc := k.fs.acc ++ touch true (addr + i) 1 } } := onFs_calm storeUser_refs k h
    exact ih (i + 1) (hstore.setPipe hr fun _ => rfl) (by simp)

/-- A pipe that a file of type `FD_PIPE` points to is live. -/
theorem Calm.pipe (h : Calm P k) (hf : (k.ftable f).type = .FD_PIPE) : k.pipes (k.ftable f).pipe ≠ none := by
  obtain ⟨r, hr, -⟩ := h.held.files.typed.pipe _ _ f ⟨hf, rfl, rfl⟩
  rw [hr]
  exact Option.some_ne_none r

/-- The end of `fileread` and `filewrite` on an inode: the offset moves, the inode is unlocked. -/
theorem advance_calm (r : Int) : CalmStable P (do
    if 0 < r then modFile f fun x => { x with off := (x.off + r.toNat) % 4294967296 } else pure ()
    onFs (iunlock ip)
    return r) := by
  have htail : CalmStable P (do onFs (iunlock ip); return r) := .bind (onFs_calm iunlock_refs) fun _ => .pure _
  refine .ite (.bind (modFile_calm (fun _ => ⟨rfl, rfl, rfl, rfl⟩) fun _ => rfl) fun _ => htail) htail

theorem fileread_calm {addr : Nat} {n : Int} (h : Calm P k) :
    wp (fileread p f addr n) (fun _ k' => Calm P k') (CalmStop P) k := by
  rw [fileread, wp_bind, wp_file, wp_ite]
  refine ⟨fun _ => h, fun _ => ?_⟩
  cases hty : (k.ftable f).type with
  | FD_PIPE =>
    obtain ⟨r, hr⟩ := Option.ne_none_iff_exists'.mp (h.pipe hty)
    simp only [piperead, wp_bind, wp_get, hr, wp_ite, wp_proc, wp_pure, wp_throw]
    refine ⟨fun _ => ⟨fun _ => h, fun _ => ⟨noCountPanic_sleep, h⟩⟩, fun _ => ?_⟩
    exact pipereadFrom_calm _ _ h (h.pipe hty)
  | FD_INODE =>
    obtain ⟨ip, hip⟩ := Option.ne_none_iff_exists'.mp (h.held.files.typed.inode f hty)
    simp only [fileInode, hip]
    rw [wp_bind, wp_pure]
    exact Stable.bind (onFs_calm ilock_refs) (fun _ => .bind (onFs_calm readi_refs) fun r => advance_calm r.1) k h
  | FD_NONE => exact ⟨noCountPanic (by decide), h⟩

theorem filewrite_calm {addr : Nat} {n : Int} (h : Calm P k) :
    wp (filewrite p f addr n) (fun _ k' => Calm P k') (CalmStop P) k := by
  rw [filewrite, wp_bind, wp_file, wp_ite]
  refine ⟨fun _ => h, fun _ => ?_⟩
  cases hty : (k.ftable f).type with
  | FD_PIPE => exact pipewriteFrom_calm _ _ h (h.pipe hty)
  | FD_INODE =>
    obtain ⟨ip, hip⟩ := Option.ne_none_iff_exists'.mp (h.held.files.typed.inode f hty)
    simp only [fileInode, hip]
    rw [wp_bind, wp_pure]
    exact Stable.bind (onFs_calm ilock_refs) (fun _ => .bind (onFs_calm writei_refs) fun r => advance_calm r) k h
  | FD_NONE => exact ⟨noCountPanic (by decide), h⟩

theorem sysRead_calm {fd : Int} {addr : Nat} {n : Int} (h : Calm P k) :
    wp (sysRead p fd addr n) (fun _ k' => Calm P k') (CalmStop P) k := by
  rw [sysRead, wp_bind, wp_proc]
  cases fdFile (k.procs p) fd with
  | none => exact h
  | some d => exact fileread_calm h

theorem sysWrite_calm {fd : Int} {addr : Nat} {n : Int} (h : Calm P k) :
    wp (sysWrite p fd addr n) (fun _ k' => Calm P k') (CalmStop P) k := by
  rw [sysWrite, wp_bind, wp_proc]
  cases fdFile (k.procs p) fd with
  | none => exact h
  | some d => exact filewrite_calm h

theorem stati_refs {st : Nat} : KeepsRefs (stati ip st) := fun M =>
  .bind (inode_refs M) fun _ => .bind (storeUser_refs M) fun _ => .bind (storeUser_refs M) fun _ =>
    .bind (storeUser_refs M) fun _ => .bind (storeUser_refs M) fun _ => storeUser_refs M

theorem sysFstat_calm {fd : Int} {st : Nat} (h : Calm P k) :
    wp (sysFstat p fd st) (fun _ k' => Calm P k') (CalmStop P) k := by
  rw [sysFstat, wp_bind, wp_proc]
  cases fdFile (k.procs p) fd with
  | none => exact h
  | some d =>
    dsimp only
    rw [filestat, wp_bind, wp_file, wp_ite]
    refine ⟨fun hty => ?_, fun _ => h⟩
    obtain ⟨ip, hip⟩ := Option.ne_none_iff_exists'.mp (h.held.files.typed.inode d.2 hty)
    simp only [fileInode, hip]
    rw [wp_bind, wp_pure]
    exact Stable.bind (onFs_calm ilock_refs) (fun _ => .bind (onFs_calm stati_refs) fun _ =>
      .bind (onFs_calm iunlock_refs) fun _ => .pure _) k h

end Xv6
