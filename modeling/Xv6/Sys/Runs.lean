import Xv6.Sys.Keep

/-!
# `Sys.Runs` — the counts are exact after every run of calls

`exec` puts the inode it read on each of its exits, whatever memory answers. `fork` fills the descriptors and the
directory of a free slot, and `exit` empties its own. So between calls nothing is held, after any run of calls of
any processes.

## Contents
- **`exec`.** `sysExec_done`.
- **`fork` and `exit`.** The loops over descriptors, `Forking` and `Exiting`.
- **Runs.** `CallSys.Inv` and what follows from it, `file_counts_exact` and `inode_counts_exact`.
-/

namespace Xv6

open Bytes Hoare Holders Machine

variable {M : Multiset Slot} {k k' : Kern} {p q : Pid} {f : FilePtr} {c ip : Slot} {V : Type} {P : Pid → Proc}

/-! ## `exec` -/

theorem noCountPanic_vm (e : VmPanic) : NoCountPanic (.panic e.msg) := by
  cases e <;> exact noCountPanic (by decide)

theorem wp_onKern {α : Type} {m : KM α} {Q : α → Kern × V → Prop} {E : Stop → Kern × V → Prop} {s : Kern × V} :
    wp (onKern m) Q E s ↔ wp m (fun a k => Q a (k, s.2)) (fun e k => E e (k, s.2)) s.1 := wp_zoom

/-- Whatever memory answers, the kernel is as it was. -/
theorem wp_onVm {α : Type} {m : Prog V VmPanic α} {Q : α → Kern × V → Prop} {s : Kern × V}
    (hQ : ∀ a v, Q a (s.1, v)) : wp (onVm m) Q (fun e _ => NoCountPanic e) s := by
  rw [onVm, wp_zoomMap]
  rw [wp]
  split
  · exact hQ _ _
  · exact noCountPanic_vm _

/-- The counts while `exec` holds the inode references `M`. -/
abbrev ExecHeld (P : Pid → Proc) (M : Multiset Slot) (s : Kern × V) : Prop := s.1.Held 0 M ∧ s.1.procs = P

abbrev ExecStable (P : Pid → Proc) (M : Multiset Slot) {α : Type} (m : ExecM V α) : Prop :=
  Stable (ExecHeld P M) (fun e _ => NoCountPanic e) m

theorem onVm_held {α : Type} {m : Prog V VmPanic α} : ExecStable P M (onVm m) := fun _ h => wp_onVm fun _ _ => h

theorem onKern_held {α : Type} {m : FsM α} (hm : KeepsRefs m) :
    ExecStable (V := V) P M (onKern (onFs m)) := fun _ h =>
  wp_onKern.mpr (h.1.onFs_keep hm fun _ _ h₁ => ⟨h₁, h.2⟩)

theorem loadPages_held {mem : Uvm V} {pgdir addr offset sz : Nat} (fuel i : Nat) :
    ExecStable P M (loadPages mem pgdir addr ip offset sz fuel i) := by
  induction fuel generalizing i with
  | zero => exact .ite (.throw fun _ _ => noCountPanic_sleep) (.pure _)
  | succ fuel ih =>
    refine .ite (.bind onVm_held fun r => ?_) (.pure _)
    cases r with
    | none => exact .throw fun _ _ => noCountPanic_vm .addressExists
    | some pa =>
      exact .bind (onKern_held readi_refs) fun r => .bind onVm_held fun _ => .ite (.pure _) (ih _)

theorem loaduvm_held {mem : Uvm V} {pgdir addr offset sz : Nat} :
    ExecStable P M (loaduvm mem pgdir addr ip offset sz) :=
  .ite (.throw fun _ _ => noCountPanic_vm .addrAligned) (loadPages_held _ _)

theorem loadSegs_held {mem : Uvm V} {pgdir : Nat} (left off sz : Nat) :
    ExecStable P M (loadSegs mem pgdir ip left off sz) := by
  induction left generalizing off sz with
  | zero => exact .pure _
  | succ left ih =>
    refine .bind (onKern_held readi_refs) fun r => .ite (.pure _) (.ite (ih _ _) (.ite (.pure _) ?_))
    refine .bind onVm_held fun sz => .ite (.pure _) (.bind loaduvm_held fun ok => ?_)
    cases ok with
    | true => exact ih _ _
    | false => exact .pure _

theorem pushArgs_held {mem : Uvm V} {pgdir : Nat} (argv : List (List UInt8)) (sp : Nat) (ustack : List Nat) :
    ExecStable P M (pushArgs mem pgdir argv sp ustack) := by
  induction argv generalizing sp ustack with
  | nil => exact .pure _
  | cons arg argv ih => exact .ite (.pure _) (.bind onVm_held fun _ => .ite (.pure _) (ih _ _))

abbrev ExecDone (p : Pid) (k : Kern) {α : Type} (M : Multiset Slot) (m : ExecM V α) : Prop :=
  Triple (ExecHeld k.procs M) m (fun _ s => Done p k s.1) (fun e _ => NoCountPanic e)

/-- The label `bad` puts the inode if it is still held. -/
theorem execBad_done {mem : Uvm V} {pgdir : Option Nat} {r : Option Slot} (hcwd : (k.procs p).cwd = some c) :
    ExecDone p k (withRef 0 r) (execBad mem pgdir r) := by
  have hput : ExecDone p k (withRef 0 r) (execBad mem none r) := by
    intro s h
    cases r with
    | none => exact h.1.done hcwd (.of_eq h.2)
    | some ip =>
      show wp (onKern (onFs (iunlockput ip)) >>= fun _ => pure (-1)) _ _ s
      rw [wp_bind, wp_onKern]
      exact h.1.onFs_unlockput fun _ h₁ => h₁.done hcwd (.of_eq h.2)
  cases pgdir with
  | none => exact hput
  | some d => exact .bind onVm_held fun _ => hput

theorem execStack_done {mem : Uvm V} {path : List UInt8} {entry pgdir sz : Nat} {argv : List (List UInt8)}
    (hcwd : (k.procs p).cwd = some c) : ExecDone p k 0 (execStack mem p path entry pgdir sz argv) := by
  have hbad : ExecDone p k 0 (execBad mem (some pgdir) none) := execBad_done (r := none) hcwd
  refine .bind onVm_held fun top => .ite (fun _ => hbad) fun _ => ?_
  unfold execArgs
  refine .bind (pushArgs_held argv top []) fun r => ?_
  cases r with
  | none => exact hbad
  | some r =>
    refine .bind onVm_held fun _ => .ite (fun _ => hbad) fun _ => ?_
    intro s h
    rw [execCommit, wp_bind, wp_onKern, wp_modProc, wp_bind]
    refine wp_onVm fun old v => ?_
    rw [wp_bind]
    refine wp_onVm fun _ v' => ?_
    refine Kern.Held.done (h.1.setProc rfl rfl) hcwd ⟨?_, fun q hq => ?_⟩
    · rw [setProc_self, h.2]
    · rw [setProc_of_ne hq, h.2]

theorem sysExec_done {mem : Uvm V} {stack : Arr} {path : List UInt8} {argv : List (List UInt8)} {v : V}
    (h : k.Held 0 0) (hcwd : (k.procs p).cwd = some c) :
    wp (sysExec mem stack p path argv) (fun _ s => Done p k s.1) (fun e _ => NoCountPanic e) (k, v) := by
  rw [sysExec, wp_bind, wp_onKern, wp_curdir hcwd, wp_bind, wp_onKern]
  refine h.onFs_ref (namei_refs (cwd_mem hcwd)) fun r fs h₁ => ?_
  cases r with
  | none => exact h₁.done hcwd (.of_eq rfl)
  | some ip =>
    have hbad : ∀ {pgdir}, ExecDone p k (withRef 0 (some ip)) (execBad mem pgdir (some ip)) := execBad_done hcwd
    refine Triple.bind (onKern_held ilock_refs) (fun _ => .bind (onKern_held readi_refs) fun r => ?_) ({ k with fs }, v)
      ⟨h₁, rfl⟩
    refine .ite (fun _ => hbad) fun _ => .ite (fun _ => hbad) fun _ => .bind onVm_held fun pgdir => ?_
    cases pgdir with
    | none => exact hbad
    | some pgdir =>
      refine .bind (loadSegs_held _ _ _) fun r => ?_
      cases r with
      | none => exact hbad
      | some sz =>
        intro s h
        rw [wp_bind, wp_onKern]
        exact h.1.onFs_unlockput fun fs' h₂ => execStack_done hcwd _ ⟨h₂, h.2⟩

/-- `exec` as a call forgets the state of memory. -/
theorem wp_run_exec {mem : Uvm V} {stack : Arr} {path : List UInt8} {argv : List (List UInt8)} {v : V}
    {Q : Int → Kern → Prop} {E : Stop → Kern → Prop} :
    wp ((Call.exec mem v stack path argv).run p) Q E k ↔
      wp (sysExec mem stack p path argv) (fun a s => Q a s.1) (fun e s => E e s.1) (k, v) := by
  have hexec : exec ((Call.exec mem v stack path argv).run p) k =
    ((exec (sysExec mem stack p path argv) (k, v)).1, (exec (sysExec mem stack p path argv) (k, v)).2.1) := rfl
  rw [wp, wp, hexec]
  rcases exec (sysExec mem stack p path argv) (k, v) with ⟨r, s⟩
  cases r <;> rfl

/-! ## `fork` and `exit` -/

/-- Between two iterations of the loop of `fork`, with the descriptors `rest` still to copy. -/
structure Forking (np : Pid) (k : Kern) (rest : List Fd) (k' : Kern) : Prop where
  held : k'.Held 0 0
  other : ∀ q ≠ np, k'.procs q = k.procs q
  cwd : (k'.procs np).cwd = none
  fds : ∀ d ∈ rest, (k'.procs np).ofile d = none
  nodup : rest.Nodup

theorem Forking.next {np : Pid} {d : Fd} {rest : List Fd} (h : Forking np k (d :: rest) k') (hne : p ≠ np) :
    wp (match (k.procs p).ofile d with
      | some f => do
        filedup f
        modProc np fun y => { y with ofile := Function.update y.ofile d (some f) }
      | none => pure ()) (fun _ k'' => Forking np k rest k'') Unhurt k' := by
  obtain ⟨hnot, hnodup⟩ := List.nodup_cons.mp h.nodup
  cases hd : (k.procs p).ofile d with
  | none => exact ⟨h.held, h.other, h.cwd, fun j hj => h.fds j (List.mem_cons_of_mem d hj), hnodup⟩
  | some f =>
    have hparent : (k'.procs p).ofile d = some f := by rw [h.other p hne, hd]
    dsimp only
    rw [wp_bind]
    refine filedup_held h.held (h.held.ref_pos hparent) fun k₁ h₁ hprocs => ?_
    have hfree : (k₁.procs np).ofile d = none := by rw [hprocs, h.fds d List.mem_cons_self]
    have h₂ := h₁.setFd (f := f) hfree
    rw [add_sub_cancel_right] at h₂
    rw [wp_modProc]
    refine ⟨h₂, fun q hq => ?_, ?_, fun j hj => ?_, hnodup⟩
    · rw [setProc_of_ne hq, hprocs, h.other q hq]
    · rw [setProc_self, hprocs, h.cwd]
    · have hjd : j ≠ d := fun he => hnot (he ▸ hj)
      rw [setProc_self]
      refine (Function.update_of_ne hjd ..).trans ?_
      rw [hprocs, h.fds j (List.mem_cons_of_mem d hj)]

/-- **`fork`** counts what the child shares. -/
theorem fork_held {np : Pid} (h : k.Held 0 0) (hcwd : (k.procs p).cwd = some c) (hne : p ≠ np)
    (hfd : ∀ d, (k.procs np).ofile d = none) (hdir : (k.procs np).cwd = none) :
    wp (Xv6.fork p np) (fun _ k' => Done np k k') Unhurt k := by
  rw [Xv6.fork, wp_bind, wp_proc, wp_bind, wp_modProc, wp_bind]
  have hstart : Forking np k (List.finRange NOFILE) (k.setProc np { k.procs np with
      sz := (k.procs p).sz, esp := (k.procs p).esp, eip := (k.procs p).eip }) := by
    refine ⟨h.setProc rfl rfl, fun q hq => setProc_of_ne hq .., ?_, fun d _ => ?_, List.nodup_finRange NOFILE⟩
    · rw [setProc_self, hdir]
    · rw [setProc_self, hfd d]
  refine wp_post (wp_forM (Forking np k) (fun d rest k' hk' => hk'.next hne) hstart) fun _ k₁ h₁ => ?_
  rw [wp_bind, wp_curdir ((congrArg Proc.cwd (h₁.other p hne)).trans hcwd), wp_bind]
  have hmem : c ∈ k₁.inodes + 0 := cwd_mem (p := p) ((congrArg Proc.cwd (h₁.other p hne)).trans hcwd)
  have hdup : Moves (k₁.inodes + 0) (idup c) fun x => k₁.inodes + x ::ₘ 0 := by
    simp only [Multiset.add_cons]
    exact idup_refs hmem
  refine h₁.held.onFs (N := fun x => x ::ₘ 0) hdup fun x fs h₂ => ?_
  rw [wp_bind, wp_modProc, wp_modProc]
  have hdir₂ : Kern.Held 0 0 (Kern.setProc { k₁ with fs } np { k₁.procs np with cwd := some x }) := by
    refine ⟨h₂.files.setProc rfl, ?_⟩
    have hrefs := h₂.refs
    rw [← setCwd_inodes_none (k := { k₁ with fs }) (p := np) h₁.cwd] at hrefs
    exact hrefs
  refine ⟨hdir₂.setProc rfl rfl, ?_, fun q hq => ?_⟩
  · rw [setProc_self, setProc_self]
    exact Option.some_ne_none x
  · exact (setProc_of_ne hq ..).trans ((setProc_of_ne hq ..).trans (h₁.other q hq))

/-- Between two iterations of the loop of `exit`, with the descriptors `rest` still to close. -/
structure Exiting (p : Pid) (k : Kern) (rest : List Fd) (k' : Kern) : Prop where
  held : k'.Held 0 0
  near : Near p k k'
  fds : ∀ d ∉ rest, (k'.procs p).ofile d = none

theorem Exiting.next {d : Fd} {rest : List Fd} (h : Exiting p k (d :: rest) k') :
    wp (do
      match (← proc p).ofile d with
      | some f =>
        fileclose f
        modProc p fun x => { x with ofile := Function.update x.ofile d none }
      | none => pure ()) (fun _ k'' => Exiting p k rest k'') Unhurt k' := by
  rw [wp_bind, wp_proc]
  cases hd : (k'.procs p).ofile d with
  | none =>
    refine ⟨h.held, h.near, fun j hj => ?_⟩
    by_cases hjd : j = d
    · rw [hjd, hd]
    · exact h.fds j fun hmem => (List.mem_cons.mp hmem).elim hjd hj
  | some f =>
    dsimp only
    rw [wp_bind]
    -- the file is closed before its descriptor is cleared
    refine fileclose_held h.held (h.held.ref_pos hd) fun k₁ h₁ hprocs _ => ?_
    have hd₁ : (k₁.procs p).ofile d = some f := by rw [hprocs, hd]
    have h₂ := h₁.clearFd hd₁
    rw [sub_add_cancel] at h₂
    rw [wp_modProc]
    refine ⟨h₂, (h.near.trans_eq hprocs).setFd, fun j hj => ?_⟩
    rw [setProc_self]
    by_cases hjd : j = d
    · rw [hjd]
      exact Function.update_self ..
    · refine (Function.update_of_ne hjd ..).trans ?_
      rw [hprocs]
      exact h.fds j fun hmem => (List.mem_cons.mp hmem).elim hjd hj

/-- **`exit`** gives back everything. -/
theorem exit_held (h : k.Held 0 0) (hcwd : (k.procs p).cwd = some c) :
    wp (Xv6.exit p) (fun _ k' => k'.Held 0 0 ∧ ((k'.procs p).cwd = none ∧ ∀ d, (k'.procs p).ofile d = none) ∧
      ∀ q ≠ p, k'.procs q = k.procs q) Unhurt k := by
  rw [Xv6.exit, wp_ite]
  refine ⟨fun _ => noCountPanic (by decide), fun _ => ?_⟩
  rw [wp_bind]
  have hstart : Exiting p k (List.finRange NOFILE) k :=
    ⟨h, .of_eq rfl, fun d hd => absurd (List.mem_finRange d) hd⟩
  refine wp_post (wp_forM (Exiting p k) (fun d rest k' hk' => hk'.next) hstart) fun _ k₁ h₁ => ?_
  have hcwd₁ : (k₁.procs p).cwd = some c := h₁.near.cwd.trans hcwd
  rw [wp_bind, wp_curdir hcwd₁, wp_bind, wp_onFs]
  refine wp_mono (iput_refs (inodes_setCwd hcwd₁ none) k₁.fs h₁.held.refs) (fun _ fs h₂ => ?_) fun _ _ he => he
  rw [wp_modProc]
  refine ⟨⟨?_, ?_⟩, ⟨?_, fun d => ?_⟩, fun q hq => (setProc_of_ne hq ..).trans (h₁.near.other q hq)⟩
  · exact (h₁.held.files.withFs fs).setProc rfl
  · rw [add_zero]
    exact h₂
  · rw [setProc_self]
  · rw [setProc_self]
    exact h₁.fds d List.not_mem_nil

/-! ## Runs -/

/-- **Between calls.** -/
structure CallSys.Inv (s : CallSys) : Prop where
  held : s.kern.Held 0 0
  live : ∀ p, s.Live p → (s.kern.procs p).cwd ≠ none
  dead : ∀ p, ¬ s.Live p → (s.kern.procs p).cwd = none ∧ ∀ d, (s.kern.procs p).ofile d = none

variable {s t : CallSys} {e : CallEvent V}

theorem CallSys.Inv.done (h : s.Inv) (hp : s.Live p) (hd : Done p s.kern k') : CallSys.Inv ⟨k', s.state⟩ := by
  refine ⟨hd.held, fun q hq => ?_, fun q hq => ?_⟩
  · by_cases hqp : q = p
    · rw [hqp]
      exact hd.cwd
    · show (k'.procs q).cwd ≠ none
      rw [hd.other q hqp]
      exact h.live q hq
  · have hqp : q ≠ p := fun he => hq (he ▸ hp)
    show (k'.procs q).cwd = none ∧ _
    rw [hd.other q hqp]
    exact h.dead q hq

/-- How an event may stop: not in a count's panic, and a sleep that the run goes on from is between calls. -/
abbrev EventStop (s : CallSys) (e : CallEvent V) : Stop → Kern → Prop := fun x k' =>
  NoCountPanic x ∧ (x = .sleep → e.Waits → CallSys.Inv ⟨k', s.state⟩)

theorem call_inv {c : Call V} (h : s.Inv) (hp : s.Live p) (hc : c.Fresh s.kern) :
    wp (c.run p) (fun _ k' => CallSys.Inv ⟨k', s.state⟩) (EventStop s (.call p c)) s.kern := by
  obtain ⟨x, hcwd⟩ := Option.ne_none_iff_exists'.mp (h.live p hp)
  have hdone : ∀ {m : KM Int}, ¬ c.Waits → wp m (fun _ k' => Done p s.kern k') Unhurt s.kern →
      wp m (fun _ k' => CallSys.Inv ⟨k', s.state⟩) (EventStop s (.call p c)) s.kern := fun hw hm =>
    wp_mono hm (fun _ k' hd => h.done hp hd) fun _ _ he => ⟨he, fun _ hwait => absurd hwait hw⟩
  have hcalm : ∀ {m : KM Int}, wp m (fun _ k' => Calm s.kern.procs k') (CalmStop s.kern.procs) s.kern →
      wp m (fun _ k' => CallSys.Inv ⟨k', s.state⟩) (EventStop s (.call p c)) s.kern := fun hm =>
    wp_mono hm (fun _ k' hk => h.done hp (hk.held.done hcwd (.of_eq hk.procs))) fun _ _ he =>
      ⟨he.1, fun _ _ => h.done hp (he.2.held.done hcwd (.of_eq he.2.procs))⟩
  have hquiet : Calm s.kern.procs s.kern := ⟨h.held, rfl⟩
  cases c with
  | «open» path omode => exact hdone id (sysOpen_done h.held hcwd)
  | close fd => exact hdone id (sysClose_done h.held hcwd)
  | dup fd => exact hdone id (sysDup_done h.held hcwd)
  | pipe fd page => exact hdone id (sysPipe_done h.held hcwd fun a ha => by subst ha; exact hc)
  | chdir path => exact hdone id (sysChdir_done h.held hcwd)
  | exec mem v stack path argv => exact hdone id (wp_run_exec.mpr (sysExec_done h.held hcwd))
  | link old new => exact hdone id (names_done h.held hcwd fun M hM => sysLink_refs hM)
  | unlink path => exact hdone id (names_done h.held hcwd fun M hM => sysUnlink_refs hM)
  | mkdir path => exact hdone id (sysMkdir_done h.held hcwd)
  | mknod path major minor => exact hdone id (sysMknod_done h.held hcwd)
  | read fd addr n => exact hcalm (sysRead_calm hquiet)
  | write fd addr n => exact hcalm (sysWrite_calm hquiet)
  | fstat fd st => exact hcalm (sysFstat_calm hquiet)

theorem unused_eq_some (h : s.unused = some p) : s.state p = .UNUSED := by
  simpa using List.find?_some h

theorem live_update_of_ne {st : ProcState} (hq : q ≠ p) :
    (⟨k', Function.update s.state p st⟩ : CallSys).Live q ↔ s.Live q := by
  simp only [CallSys.Live, Function.update_of_ne hq]

theorem live_update_self {st : ProcState} :
    (⟨k', Function.update s.state p st⟩ : CallSys).Live p ↔ st ≠ .UNUSED ∧ st ≠ .ZOMBIE := by
  simp only [CallSys.Live, Function.update_self]

theorem fork_inv {np : Pid} (h : s.Inv) (hp : s.Live p) (hu : s.unused = some np) :
    wp (Xv6.fork p np) (fun _ k' => CallSys.Inv ⟨k', Function.update s.state np .RUNNABLE⟩) Unhurt s.kern := by
  obtain ⟨x, hcwd⟩ := Option.ne_none_iff_exists'.mp (h.live p hp)
  have hnp : ¬ s.Live np := fun hl => hl.1 (unused_eq_some hu)
  obtain ⟨hdir, hfd⟩ := h.dead np hnp
  refine wp_post (fork_held h.held hcwd (fun he => hnp (he ▸ hp)) hfd hdir) fun _ k' hd => ⟨hd.held, fun q hq => ?_, fun q hq => ?_⟩
  · by_cases hqn : q = np
    · rw [hqn]
      exact hd.cwd
    · show (k'.procs q).cwd ≠ none
      rw [hd.other q hqn]
      exact h.live q ((live_update_of_ne hqn).mp hq)
  · have hqn : q ≠ np := fun he => by
      rw [he, live_update_self] at hq
      exact hq (by decide)
    show (k'.procs q).cwd = none ∧ _
    rw [hd.other q hqn]
    exact h.dead q fun hl => hq ((live_update_of_ne hqn).mpr hl)

theorem exit_inv (h : s.Inv) (hp : s.Live p) :
    wp (Xv6.exit p) (fun _ k' => CallSys.Inv ⟨k', Function.update s.state p .ZOMBIE⟩) Unhurt s.kern := by
  obtain ⟨x, hcwd⟩ := Option.ne_none_iff_exists'.mp (h.live p hp)
  refine wp_post (exit_held h.held hcwd) fun _ k' ⟨hheld, hgone, hother⟩ => ⟨hheld, fun q hq => ?_, fun q hq => ?_⟩
  · have hqp : q ≠ p := fun he => by
      rw [he, live_update_self] at hq
      exact hq.2 rfl
    show (k'.procs q).cwd ≠ none
    rw [hother q hqp]
    exact h.live q ((live_update_of_ne hqp).mp hq)
  · by_cases hqp : q = p
    · rw [hqp]
      exact hgone
    · show (k'.procs q).cwd = none ∧ _
      rw [hother q hqp]
      exact h.dead q fun hl => hq ((live_update_of_ne hqp).mpr hl)

/-- `wait` only frees the slot of a dead process. -/
theorem wait_inv (h : s.Inv) (hq : s.state q = .ZOMBIE) : CallSys.Inv
    ⟨s.kern.setProc q { s.kern.procs q with killed := false }, Function.update s.state q .UNUSED⟩ := by
  have hlive : ∀ r, (⟨s.kern.setProc q { s.kern.procs q with killed := false },
      Function.update s.state q .UNUSED⟩ : CallSys).Live r ↔ s.Live r := fun r => by
    by_cases hr : r = q
    · rw [hr, live_update_self, CallSys.Live, hq]
      exact ⟨fun hl => absurd rfl hl.1, fun hl => absurd rfl hl.2⟩
    · exact live_update_of_ne hr
  have hsame : ∀ r, ((s.kern.setProc q { s.kern.procs q with killed := false }).procs r).cwd = (s.kern.procs r).cwd ∧
      ((s.kern.setProc q { s.kern.procs q with killed := false }).procs r).ofile = (s.kern.procs r).ofile := fun r => by
    by_cases hr : r = q
    · rw [hr, setProc_self]
      exact ⟨rfl, rfl⟩
    · rw [setProc_of_ne hr]
      exact ⟨rfl, rfl⟩
  refine ⟨h.held.setProc rfl rfl, fun r hr => ?_, fun r hr => ?_⟩
  · show (Kern.procs _ r).cwd ≠ none
    rw [(hsame r).1]
    exact h.live r ((hlive r).mp hr)
  · show (Kern.procs _ r).cwd = none ∧ ∀ d, (Kern.procs _ r).ofile d = none
    rw [(hsame r).1, (hsame r).2]
    exact h.dead r fun hl => hr ((hlive r).mpr hl)

/-- **One event** from between calls to between calls. -/
theorem code_inv {m : KM Unit} (h : s.Inv) (hm : e.code s = some m) :
    wp m (fun _ k' => CallSys.Inv ⟨k', e.states s⟩) (EventStop s e) s.kern := by
  have hstop : ∀ {m : KM Unit} {I : Kern → Prop}, ¬ e.Waits → wp m (fun _ k' => I k') Unhurt s.kern →
      wp m (fun _ k' => I k') (EventStop s e) s.kern := fun hw hwp =>
    wp_mono hwp (fun _ _ hk => hk) fun _ _ he => ⟨he, fun _ hwait => absurd hwait hw⟩
  cases e with
  | call p c =>
    obtain ⟨⟨hp, hc⟩, hm⟩ := Option.ite_none_right_eq_some.mp hm
    cases hm
    rw [wp_bind]
    exact call_inv h hp hc
  | fork p memory =>
    obtain ⟨hp, hm⟩ := Option.ite_none_right_eq_some.mp hm
    rcases hu : s.unused with _ | np <;> rw [hu] at hm <;> cases memory <;> cases hm <;>
      simp only [CallEvent.states, hu]
    · exact h
    · exact h
    · exact h
    · exact hstop id (fork_inv h hp hu)
  | exit p =>
    obtain ⟨hp, hm⟩ := Option.ite_none_right_eq_some.mp hm
    cases hm
    exact hstop id (exit_inv h hp)
  | wait q =>
    obtain ⟨hq, hm⟩ := Option.ite_none_right_eq_some.mp hm
    cases hm
    exact wait_inv h hq
  | outside mem tty killed =>
    cases hm
    refine ⟨⟨⟨h.held.files.ref, h.held.files.free, h.held.files.typed.congr (fun _ => .refl _) rfl⟩, ?_⟩, h.live, h.dead⟩
    exact h.held.refs.congr (fun _ => rfl) (fun _ => rfl) fun _ => rfl

theorem step_inv (h : s.Inv) (ht : callStep s e = some t) : t.Inv := by
  obtain ⟨m, hm, ht⟩ := Option.bind_eq_some_iff.mp ht
  have hwp := code_inv h hm
  rw [wp] at hwp
  rcases hr : exec m s.kern with ⟨r, k'⟩
  rw [hr] at ht hwp
  cases r with
  | ok a =>
    cases ht
    exact hwp
  | error x =>
    cases x with
    | panic msg => cases ht
    | sleep =>
      obtain ⟨hw, ht⟩ := Option.ite_none_right_eq_some.mp ht
      cases ht
      exact hwp.2 rfl hw

section Boot
variable {disk : Nat → Nat → Arr} {mem : Arr} {tty : Nat → Option UInt8}

theorem zero_inodes : (Kern.zero disk mem tty).inodes = 0 :=
  congrArg₂ (· + ·) (targets_none fun _ => rfl) (targets_none fun _ => rfl)

theorem zero_files : (Kern.zero disk mem tty).Files 0 := by
  have hdescs : (Kern.zero disk mem tty).descs = 0 := targets_none fun _ => rfl
  refine ⟨fun f => ?_, fun _ _ => rfl, ⟨nofun, fun a w f hf => ?_, nofun, nofun, fun a w f g hf => ?_⟩⟩
  · rw [hdescs, Multiset.count_zero]
    rfl
  · exact absurd hf.1 (by simp [Kern.zero])
  · exact absurd hf.1 (by simp [Kern.zero])

theorem zero_refs : Refs 0 (Kern.zero disk mem tty).fs :=
  ⟨fun x => by rw [Multiset.count_zero]; rfl, fun x hx => absurd hx (Multiset.notMem_zero x)⟩

/-- The kernel after `userinit`: `namei("/")` on an empty cache takes the first slot. -/
theorem boot_kern : (CallSys.boot disk mem tty).kern =
    { Kern.zero disk mem tty with fs := (Kern.zero disk mem tty).fs.setInode 0 {
      (Kern.zero disk mem tty).fs.icache 0 with
        dev := ROOTDEV, inum := ROOTINO, ref := 1, busy := false, valid := false } }.setCwd initproc (some 0) := rfl

theorem boot_cwd (q : Pid) :
    ((CallSys.boot disk mem tty).kern.procs q).cwd = if q = initproc then some 0 else none := by
  rw [boot_kern, Kern.setCwd]
  by_cases hq : q = initproc
  · rw [hq, setProc_self, if_pos rfl]
  · rw [setProc_of_ne hq, if_neg hq]
    rfl

theorem boot_live (q : Pid) : (CallSys.boot disk mem tty).Live q ↔ q = initproc := by
  by_cases hq : q = initproc
  · rw [hq]
    exact iff_of_true (by simp [CallSys.Live, CallSys.boot]) rfl
  · exact iff_of_false (by simp [CallSys.Live, CallSys.boot, hq]) hq

theorem boot_inv : (CallSys.boot disk mem tty).Inv := by
  refine ⟨⟨?_, ?_⟩, fun q hq => ?_, fun q hq => ⟨?_, fun d => ?_⟩⟩
  · rw [boot_kern]
    exact (zero_files.withFs _).setProc rfl
  · rw [boot_kern, setCwd_inodes_none rfl, Multiset.add_cons]
    show Refs (0 ::ₘ ((Kern.zero disk mem tty).inodes + 0)) _
    rw [zero_inodes, add_zero]
    exact zero_refs.fresh (Multiset.notMem_zero 0) rfl fun y hy => absurd hy (Multiset.notMem_zero y)
  · rw [boot_cwd, if_pos ((boot_live q).mp hq)]
    exact Option.some_ne_none 0
  · rw [boot_cwd, if_neg fun he => hq ((boot_live q).mpr he)]
  · have hq' : q ≠ initproc := fun he => hq ((boot_live q).mpr he)
    rw [boot_kern, Kern.setCwd, setProc_of_ne hq']
    rfl

theorem run_inv {es : List (CallEvent V)} (h : run callStep (CallSys.boot disk mem tty) es = some s) : s.Inv :=
  run_invariant boot_inv (fun _ _ _ hi ht => step_inv hi ht) h

/-- A file in use is one whose type is set, or that a descriptor points to. -/
theorem CallSys.Inv.ref_nonneg (h : s.Inv) (f : FilePtr) : 0 ≤ (s.kern.ftable f).ref := by
  have href := h.held.files.ref f
  rw [Pi.zero_apply, add_zero] at href
  omega

theorem CallSys.Inv.ref_pos (h : s.Inv) (hf : (s.kern.ftable f).type ≠ .FD_NONE) : 0 < (s.kern.ftable f).ref :=
  (h.ref_nonneg f).lt_of_ne fun hz => hf (h.held.files.free f hz.symm)

/-- **Open files and pipes**, after every run of calls of any processes. The count of a file is the number of
    descriptors that point to it; a free file has no type; an end of a pipe is open exactly when its file, of which
    there is at most one, is in use; the page is live exactly as long as one of the ends is. No call ends in a panic
    of `filedup` or `fileclose`, nor in the use of a null pointer or of a page already freed. -/
theorem file_counts_exact {es : List (CallEvent V)} (h : run callStep (CallSys.boot disk mem tty) es = some s) :
    (∀ f, (s.kern.ftable f).ref =
      (Finset.univ.filter fun d : Pid × Fd => (s.kern.procs d.1).ofile d.2 = some f).card) ∧
    (∀ f, (s.kern.ftable f).ref = 0 → (s.kern.ftable f).type = .FD_NONE) ∧
    (∀ a q, s.kern.pipes a = some q → ∀ w, q.isOpen w = true ↔ ∃ f, s.kern.IsEnd a w f ∧ 0 < (s.kern.ftable f).ref) ∧
    (∀ a w f g, s.kern.IsEnd a w f → s.kern.IsEnd a w g → f = g) ∧
    (∀ a, s.kern.pipes a ≠ none ↔ ∃ w f, s.kern.IsEnd a w f ∧ 0 < (s.kern.ftable f).ref) ∧
    ∀ (e : CallEvent V) m x k', e.code s = some m → exec m s.kern = (.error x, k') →
      x ≠ .panic "filedup" ∧ x ≠ .panic "fileclose" ∧ x ≠ .panic "trap" := by
  have hinv := run_inv h
  have htyped := hinv.held.files.typed
  have hpos : ∀ {a w f}, s.kern.IsEnd a w f → 0 < (s.kern.ftable f).ref := fun hf =>
    hinv.ref_pos (by rw [hf.1]; decide)
  refine ⟨fun f => ?_, hinv.held.files.free, fun a q hq w => ⟨fun hw => ?_, ?_⟩, htyped.uniq, fun a => ⟨fun ha => ?_, ?_⟩,
    fun e m x k' hm hr => ?_⟩
  · have href := hinv.held.files.ref f
    rw [Pi.zero_apply, add_zero, Kern.descs, count_targets] at href
    exact href
  · obtain ⟨f, hf⟩ := htyped.ends a q w hq hw
    exact ⟨f, hf, hpos hf⟩
  · rintro ⟨f, hf, -⟩
    obtain ⟨q', hq', hw⟩ := htyped.pipe a w f hf
    cases hq.symm.trans hq'
    exact hw
  · obtain ⟨q, hq⟩ := Option.ne_none_iff_exists'.mp ha
    obtain ⟨w, hw⟩ := htyped.live a q hq
    obtain ⟨f, hf⟩ := htyped.ends a q w hq hw
    exact ⟨w, f, hf, hpos hf⟩
  · rintro ⟨w, f, hf, -⟩
    obtain ⟨q, hq, -⟩ := htyped.pipe a w f hf
    rw [hq]
    exact Option.some_ne_none q
  · have hstop := (wp_error (code_inv hinv hm) hr).1
    exact ⟨hstop _ (by decide), hstop _ (by decide), hstop _ (by decide)⟩

/-- A pipe, a child that shares it, and each closing one end. -/
def pipeRun : List (CallEvent Unit) :=
  [.call 0 (.pipe 0 (some 4096)), .fork 0 true, .call 0 (.close 0), .call 1 (.close 1), .call 1 (.dup 0), .exit 1]

theorem file_counts_exact_pipe : ∃ s,
    run callStep (CallSys.boot (fun _ _ _ => 0) (fun _ => 0) fun _ => none) pipeRun = some s ∧
    (s.kern.ftable 0).ref =
      (Finset.univ.filter fun d : Pid × Fd => (s.kern.procs d.1).ofile d.2 = some 0).card := by
  have hsome : (run callStep (CallSys.boot (fun _ _ _ => 0) (fun _ => 0) fun _ => none) pipeRun).isSome = true := by
    decide +kernel
  exact ⟨_, (Option.some_get hsome).symm, (file_counts_exact (Option.some_get hsome).symm).1 0⟩

/-- **The inode cache**, after every run: the count of a slot is the number of open files on it and of live processes
    in it, and no two slots in use hold the same inode. -/
theorem inode_counts_exact {es : List (CallEvent V)} (h : run callStep (CallSys.boot disk mem tty) es = some s) :
    (∀ x, (s.kern.fs.icache x).ref =
      (Finset.univ.filter fun f => 0 < (s.kern.ftable f).ref ∧ (s.kern.ftable f).type = .FD_INODE ∧
        (s.kern.ftable f).ip = some x).card +
      (Finset.univ.filter fun p => s.Live p ∧ (s.kern.procs p).cwd = some x).card) ∧
    ∀ x y, 0 < (s.kern.fs.icache x).ref → 0 < (s.kern.fs.icache y).ref →
      (s.kern.fs.icache x).dev = (s.kern.fs.icache y).dev →
      (s.kern.fs.icache x).inum = (s.kern.fs.icache y).inum → x = y := by
  have hinv := run_inv h
  have hrefs := hinv.held.refs
  rw [add_zero] at hrefs
  have hfile : ∀ f x, (s.kern.ftable f).target = some x ↔ 0 < (s.kern.ftable f).ref ∧
      (s.kern.ftable f).type = .FD_INODE ∧ (s.kern.ftable f).ip = some x := fun f x => by
    rw [File.target, Option.ite_none_right_eq_some]
    exact ⟨fun hf => ⟨hinv.ref_pos (by rw [hf.1]; decide), hf⟩, And.right⟩
  have hdir : ∀ p x, (s.kern.procs p).cwd = some x ↔ s.Live p ∧ (s.kern.procs p).cwd = some x := fun p x => by
    refine ⟨fun hp => ⟨?_, hp⟩, And.right⟩
    by_contra hdead
    rw [(hinv.dead p hdead).1] at hp
    cases hp
  refine ⟨fun x => ?_, fun x y hx hy => hrefs.uniq x (hrefs.mem_iff.mpr hx) y (hrefs.mem_iff.mpr hy)⟩
  rw [hrefs.ref x, Kern.inodes, Multiset.count_add, count_targets, count_targets, Int.natCast_add]
  simp only [hfile, ← hdir]

/-- A disk with a root directory, and nothing else. -/
def rootDisk : Nat → Nat → Arr := fun _ b i => if b = IBLOCK ROOTINO ∧ i = inodeOff ROOTINO then 1 else 0

/-- The root directory is opened, shared with a child, and made a current directory again. -/
def rootRun : List (CallEvent Unit) :=
  [.call 0 (.open [slash] O_RDONLY), .fork 0 true, .call 1 (.dup 0), .call 1 (.chdir [slash]), .call 0 (.close 0)]

theorem inode_counts_exact_root : ∃ s,
    run callStep (CallSys.boot rootDisk (fun _ => 0) fun _ => none) rootRun = some s ∧
    (s.kern.fs.icache 0).ref =
      (Finset.univ.filter fun f => 0 < (s.kern.ftable f).ref ∧ (s.kern.ftable f).type = .FD_INODE ∧
        (s.kern.ftable f).ip = some 0).card +
      (Finset.univ.filter fun p => s.Live p ∧ (s.kern.procs p).cwd = some 0).card := by
  have hsome : (run callStep (CallSys.boot rootDisk (fun _ => 0) fun _ => none) rootRun).isSome = true := by
    decide +kernel
  exact ⟨_, (Option.some_get hsome).symm, (inode_counts_exact (Option.some_get hsome).symm).1 0⟩

end Boot

end Xv6
