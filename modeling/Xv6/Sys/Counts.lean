import Xv6.Lib.Holders
import Xv6.Fs.Refs
import Xv6.Sys.Calls
import Mathlib.Algebra.Group.Pi.Lemmas
import Mathlib.Algebra.Ring.Int.Defs

/-!
# `Sys.Counts` — reference counts of open files and cached inodes, and the lifetime of pipes

Between calls the count of a file is the number of descriptors that point to it, and the count of an inode cache
slot is the number of open files and current directories that point to it. Inside a call they differ by what the
call holds: `k.Held F M` allows a file `f` to have `F f` references that are in no descriptor table (fewer, where
`F f` is negative: `dup` stores the descriptor before it counts it), and the call to hold the inode references `M`.

## Contents
- **The invariant.** `Kern.Files` for files and pipes, `Kern.Held` with the inodes.
- **Updates.** How descriptors, files and current directories change it.
- **The file table.** `filealloc_held`, `fdalloc_held`, `filedup_held`, `fileclose_held`, `pipealloc_held`.
-/

namespace Xv6

open Bytes Hoare Holders

/-! ## The invariant -/

/-- The inode an open file points to. -/
def File.target (x : File) : Option Slot := if x.type = .FD_INODE then x.ip else none

/-- The files that descriptors of all processes point to. -/
def Kern.descs (k : Kern) : Multiset FilePtr := targets fun d : Pid × Fd => (k.procs d.1).ofile d.2

/-- The inodes that open files and current directories point to. -/
def Kern.inodes (k : Kern) : Multiset Slot :=
  targets (fun f => (k.ftable f).target) + targets fun p => (k.procs p).cwd

/-- Is the end for writing, or the end for reading, open? -/
def Pipe.isOpen (q : Pipe) (writable : Bool) : Bool := if writable then q.writeopen else q.readopen

/-- `f` is an end of the pipe at `a`. -/
def Kern.IsEnd (k : Kern) (a : Nat) (writable : Bool) (f : FilePtr) : Prop :=
  (k.ftable f).type = .FD_PIPE ∧ (k.ftable f).pipe = a ∧ (k.ftable f).writable = writable

/-- **What open files point to.** -/
structure Kern.Typed (k : Kern) : Prop where
  inode : ∀ f, (k.ftable f).type = .FD_INODE → (k.ftable f).ip ≠ none
  /-- An end of a pipe is an end of a live pipe, and that end is open. -/
  pipe : ∀ a w f, k.IsEnd a w f → ∃ q, k.pipes a = some q ∧ q.isOpen w = true
  /-- An open end has its file. -/
  ends : ∀ a q w, k.pipes a = some q → q.isOpen w = true → ∃ f, k.IsEnd a w f
  /-- A pipe with both ends closed is gone. -/
  live : ∀ a q, k.pipes a = some q → ∃ w, q.isOpen w = true
  uniq : ∀ a w f g, k.IsEnd a w f → k.IsEnd a w g → f = g

/-- **Files and pipes**, when each file `f` has `F f` references besides its descriptors. -/
structure Kern.Files (F : FilePtr → Int) (k : Kern) : Prop where
  ref : ∀ f, (k.ftable f).ref = k.descs.count f + F f
  free : ∀ f, (k.ftable f).ref = 0 → (k.ftable f).type = .FD_NONE
  typed : k.Typed

/-- **The counts inside a call** that holds the inode references `M`. -/
structure Kern.Held (F : FilePtr → Int) (M : Multiset Slot) (k : Kern) : Prop where
  files : k.Files F
  refs : Refs (k.inodes + M) k.fs

/-- One reference to `f`. -/
abbrev one (f : FilePtr) : FilePtr → Int := Pi.single f 1

variable {F : FilePtr → Int} {M : Multiset Slot} {k k' : Kern} {p : Pid} {fd : Fd} {f : FilePtr}

/-! ## Updates -/

/-- Two files that point to the same thing. -/
structure File.Same (x y : File) : Prop where
  type : x.type = y.type
  ip : x.ip = y.ip
  pipe : x.pipe = y.pipe
  writable : x.writable = y.writable

theorem File.Same.refl (x : File) : File.Same x x := ⟨rfl, rfl, rfl, rfl⟩

theorem Kern.Typed.congr (h : k.Typed) (hfile : ∀ f, (k'.ftable f).Same (k.ftable f)) (hpipe : k'.pipes = k.pipes) :
    k'.Typed := by
  have hend : ∀ a w f, k'.IsEnd a w f ↔ k.IsEnd a w f := fun a w f => by
    rw [Kern.IsEnd, Kern.IsEnd, (hfile f).type, (hfile f).pipe, (hfile f).writable]
  refine ⟨fun f hf => ?_, fun a w f hf => ?_, fun a q w hq hw => ?_, fun a q hq => ?_, fun a w f g hf hg => ?_⟩
  · rw [(hfile f).type] at hf
    rw [(hfile f).ip]
    exact h.inode f hf
  · rw [hpipe]
    exact h.pipe a w f ((hend a w f).mp hf)
  · rw [hpipe] at hq
    obtain ⟨f, hf⟩ := h.ends a q w hq hw
    exact ⟨f, (hend a w f).mpr hf⟩
  · rw [hpipe] at hq
    exact h.live a q hq
  · exact h.uniq a w f g ((hend a w f).mp hf) ((hend a w g).mp hg)

theorem File.Same.target {x y : File} (h : x.Same y) : x.target = y.target := by
  rw [File.target, File.target, h.type, h.ip]

theorem inodes_congr (hfile : ∀ f, (k'.ftable f).target = (k.ftable f).target)
    (hcwd : ∀ p, (k'.procs p).cwd = (k.procs p).cwd) : k'.inodes = k.inodes := by
  simp only [Kern.inodes, hfile, hcwd]

theorem setProc_self (k : Kern) (p : Pid) (x : Proc) : (k.setProc p x).procs p = x := Function.update_self ..

theorem setProc_of_ne {q : Pid} (hq : q ≠ p) (k : Kern) (x : Proc) : (k.setProc p x).procs q = k.procs q :=
  Function.update_of_ne hq ..

/-- `proc->ofile[fd] = o`. -/
def Kern.setFd (k : Kern) (p : Pid) (fd : Fd) (o : Option FilePtr) : Kern :=
  k.setProc p { k.procs p with ofile := Function.update (k.procs p).ofile fd o }

theorem setFd_ofile (k : Kern) (p : Pid) (fd : Fd) (o : Option FilePtr) :
    (fun d : Pid × Fd => ((k.setFd p fd o).procs d.1).ofile d.2) =
      Function.update (fun d : Pid × Fd => (k.procs d.1).ofile d.2) (p, fd) o := by
  funext ⟨q, j⟩
  by_cases hq : q = p
  · subst hq
    by_cases hj : j = fd
    · rw [hj, Function.update_self, Kern.setFd, setProc_self]
      exact Function.update_self ..
    · rw [Function.update_of_ne (fun he => hj (Prod.mk.inj he).2), Kern.setFd, setProc_self]
      exact Function.update_of_ne hj ..
  · rw [Function.update_of_ne (fun he => hq (Prod.mk.inj he).1), Kern.setFd, setProc_of_ne hq]

theorem setFd_cwd (k : Kern) (p q : Pid) (fd : Fd) (o : Option FilePtr) :
    ((k.setFd p fd o).procs q).cwd = (k.procs q).cwd := by
  by_cases hq : q = p
  · rw [hq, Kern.setFd, setProc_self]
  · rw [Kern.setFd, setProc_of_ne hq]

theorem setFd_inodes (k : Kern) (p : Pid) (fd : Fd) (o : Option FilePtr) : (k.setFd p fd o).inodes = k.inodes :=
  inodes_congr (fun _ => rfl) fun q => setFd_cwd k p q fd o

/-- Descriptors appear only in the count of descriptors. -/
theorem Kern.Files.setFd {F' : FilePtr → Int} (h : k.Files F) (o : Option FilePtr)
    (hF : ∀ f, (k.descs.count f : Int) + F f = ((k.setFd p fd o).descs.count f : Int) + F' f) :
    (k.setFd p fd o).Files F' :=
  ⟨fun f => (h.ref f).trans (hF f), h.free, h.typed.congr (fun _ => .refl _) rfl⟩

/-- **A descriptor is set** to a file the call holds. -/
theorem Kern.Held.setFd (h : k.Held F M) (hfd : (k.procs p).ofile fd = none) :
    (k.setFd p fd (some f)).Held (F - one f) M := by
  refine ⟨h.files.setFd _ fun g => ?_, ?_⟩
  · rw [Kern.descs, Kern.descs, setFd_ofile, targets_set (i := (p, fd)) hfd, Pi.sub_apply]
    by_cases hg : g = f
    · subst hg
      rw [Multiset.count_cons_self, one, Pi.single_eq_same]
      omega
    · rw [Multiset.count_cons_of_ne hg, one, Pi.single_eq_of_ne hg, sub_zero]
  · rw [setFd_inodes]
    exact h.refs

/-- **A descriptor is cleared**; its reference is the call's. -/
theorem Kern.Held.clearFd (h : k.Held F M) (hfd : (k.procs p).ofile fd = some f) :
    (k.setFd p fd none).Held (F + one f) M := by
  refine ⟨h.files.setFd _ fun g => ?_, ?_⟩
  · rw [Kern.descs, Kern.descs, setFd_ofile, targets_clear (i := (p, fd)) hfd, Pi.add_apply]
    by_cases hg : g = f
    · subst hg
      rw [Multiset.count_cons_self, one, Pi.single_eq_same]
      omega
    · rw [Multiset.count_cons_of_ne hg, one, Pi.single_eq_of_ne hg, add_zero]
  · rw [setFd_inodes]
    exact h.refs

theorem setFile_self (k : Kern) (f : FilePtr) (x : File) : (k.setFile f x).ftable f = x := Function.update_self ..

theorem setFile_of_ne {g : FilePtr} (hg : g ≠ f) (k : Kern) (x : File) : (k.setFile f x).ftable g = k.ftable g :=
  Function.update_of_ne hg ..

/-- `*f` replaced by a file that points to the same thing. -/
theorem setFile_same {x : File} (hx : x.Same (k.ftable f)) (g : FilePtr) :
    ((k.setFile f x).ftable g).Same (k.ftable g) := by
  by_cases hg : g = f
  · rw [hg, setFile_self]
    exact hx
  · rw [setFile_of_ne hg]
    exact .refl _

theorem setFile_target (k : Kern) (f : FilePtr) (x : File) :
    (fun g => ((k.setFile f x).ftable g).target) = Function.update (fun g => (k.ftable g).target) f x.target := by
  funext g
  by_cases hg : g = f
  · rw [hg, setFile_self, Function.update_self]
  · rw [setFile_of_ne hg, Function.update_of_ne hg]

theorem target_eq_none {x : File} (h : x.type ≠ .FD_INODE) : x.target = none := if_neg h

/-- The counts after `f->ref += d`. -/
theorem Kern.Files.addRef (h : k.Files F) {x : File} {d : Int} (hd : x.ref = (k.ftable f).ref + d) (g : FilePtr) :
    ((k.setFile f x).ftable g).ref = k.descs.count g + (F + Pi.single f d : FilePtr → Int) g := by
  have href := h.ref g
  rw [Pi.add_apply]
  by_cases hg : g = f
  · subst hg
    rw [setFile_self, Pi.single_eq_same]
    omega
  · rw [setFile_of_ne hg, Pi.single_eq_of_ne hg, add_zero]
    exact href

/-- **A count changes** and the file stays in use. -/
theorem Kern.Held.setRef (h : k.Held F M) {x : File} (hx : x.Same (k.ftable f)) {d : Int}
    (hd : x.ref = (k.ftable f).ref + d) (hne : x.ref ≠ 0) : (k.setFile f x).Held (F + Pi.single f d) M := by
  have hsame := fun g => setFile_same hx g
  refine ⟨⟨h.files.addRef hd, fun g hg => ?_, h.files.typed.congr hsame rfl⟩, ?_⟩
  · by_cases hgf : g = f
    · rw [hgf, setFile_self] at hg
      exact absurd hg hne
    · rw [setFile_of_ne hgf] at hg ⊢
      exact h.files.free g hg
  · rw [inodes_congr (fun g => (hsame g).target) fun _ => rfl]
    exact h.refs

/-! ## Closing a file -/

/-- The file that `fileclose` leaves. -/
def File.closed (x : File) : File := { x with ref := 0, type := .FD_NONE }

theorem isEnd_closed {a : Nat} {w : Bool} {g : FilePtr} :
    (k.setFile f (k.ftable f).closed).IsEnd a w g ↔ g ≠ f ∧ k.IsEnd a w g := by
  by_cases hg : g = f
  · subst hg
    rw [Kern.IsEnd, setFile_self]
    simp [File.closed]
  · rw [Kern.IsEnd, setFile_of_ne hg]
    exact (and_iff_right hg).symm

theorem inode_closed (h : k.Typed) (g : FilePtr)
    (hg : ((k.setFile f (k.ftable f).closed).ftable g).type = .FD_INODE) :
    ((k.setFile f (k.ftable f).closed).ftable g).ip ≠ none := by
  by_cases hgf : g = f
  · rw [hgf, setFile_self] at hg
    exact absurd hg (by simp [File.closed])
  · rw [setFile_of_ne hgf] at hg ⊢
    exact h.inode g hg

/-- Closing a file that is no end of a pipe. -/
theorem Kern.Typed.close (h : k.Typed) (hf : (k.ftable f).type ≠ .FD_PIPE) :
    (k.setFile f (k.ftable f).closed).Typed := by
  have hend : ∀ {a w g}, k.IsEnd a w g → (k.setFile f (k.ftable f).closed).IsEnd a w g := fun hg =>
    isEnd_closed.mpr ⟨fun he => hf (he ▸ hg.1), hg⟩
  refine ⟨inode_closed h, fun a w g hg => h.pipe a w g (isEnd_closed.mp hg).2, fun a q w hq hw => ?_, h.live,
    fun a w g g' hg hg' => h.uniq a w g g' (isEnd_closed.mp hg).2 (isEnd_closed.mp hg').2⟩
  obtain ⟨g, hg⟩ := h.ends a q w hq hw
  exact ⟨g, hend hg⟩

/-- What `pipeclose` leaves at the pipe's address. -/
def Pipe.close (q : Pipe) (w : Bool) : Option Pipe :=
  let q := if w then { q with writeopen := false } else { q with readopen := false }
  if q.readopen = false ∧ q.writeopen = false then none else some q

theorem Pipe.isOpen_close {q q' : Pipe} {w w' : Bool} (h : q.close w = some q') :
    q'.isOpen w' = true ↔ w' ≠ w ∧ q.isOpen w' = true := by
  cases w <;> simp only [Pipe.close, Bool.false_eq_true, if_true, if_false, Option.ite_none_left_eq_some,
    Option.some.injEq] at h <;> obtain ⟨-, rfl⟩ := h <;> cases w' <;> simp [Pipe.isOpen]

theorem Pipe.close_eq_none {q : Pipe} {w : Bool} : q.close w = none ↔ ∀ w' ≠ w, q.isOpen w' = false := by
  cases w <;> simp [Pipe.close, Pipe.isOpen]

/-- **Closing an end of a pipe**: the page goes when the other end is closed already. -/
theorem Kern.Typed.closeEnd (h : k.Typed) {a : Nat} {w : Bool} {q : Pipe} (hf : k.IsEnd a w f)
    (hq : k.pipes a = some q) :
    ({ k.setFile f (k.ftable f).closed with pipes := Function.update k.pipes a (q.close w) }).Typed := by
  have hother : ∀ {a' : Nat} (q' : Pipe), Function.update k.pipes a (q.close w) a' = some q' →
      (a' ≠ a ∧ k.pipes a' = some q') ∨ (a' = a ∧ q.close w = some q') := fun {a'} q' hq' => by
    by_cases ha : a' = a
    · rw [ha, Function.update_self] at hq'
      exact .inr ⟨ha, hq'⟩
    · rw [Function.update_of_ne ha] at hq'
      exact .inl ⟨ha, hq'⟩
  refine ⟨inode_closed h, fun a' w' g hg => ?_, fun a' q' w' hq' hw' => ?_, fun a' q' hq' => ?_,
    fun a w g g' hg hg' => h.uniq a w g g' (isEnd_closed.mp hg).2 (isEnd_closed.mp hg').2⟩
  · obtain ⟨hgf, hgk⟩ := isEnd_closed.mp hg
    obtain ⟨q₀, hq₀, hw'⟩ := h.pipe a' w' g hgk
    by_cases ha : a' = a
    · -- the other end: it is open still, so the page stays
      subst ha
      cases hq.symm.trans hq₀
      have hne : w' ≠ w := fun he => hgf (h.uniq a' w g f (he ▸ hgk) hf)
      cases hc : q.close w with
      | none => exact absurd hw' (by rw [Pipe.close_eq_none.mp hc w' hne]; decide)
      | some q' => exact ⟨q', Function.update_self .., (Pipe.isOpen_close hc).mpr ⟨hne, hw'⟩⟩
    · exact ⟨q₀, (Function.update_of_ne ha ..).trans hq₀, hw'⟩
  · rcases hother q' hq' with ⟨ha, hq'⟩ | ⟨rfl, hc⟩
    · obtain ⟨g, hg⟩ := h.ends a' q' w' hq' hw'
      exact ⟨g, isEnd_closed.mpr ⟨fun he => ha (hg.2.1.symm.trans (he ▸ hf.2.1)), hg⟩⟩
    · obtain ⟨hne, hw⟩ := (Pipe.isOpen_close hc).mp hw'
      obtain ⟨g, hg⟩ := h.ends a' q w' hq hw
      exact ⟨g, isEnd_closed.mpr ⟨fun he => hne (hg.2.2.symm.trans (he ▸ hf.2.2)), hg⟩⟩
  · rcases hother q' hq' with ⟨-, hq'⟩ | ⟨rfl, hc⟩
    · exact h.live a' q' hq'
    · by_contra hnone
      push Not at hnone
      have hnone : q.close w = none := Pipe.close_eq_none.mpr fun w' hw' => by
        by_contra ho
        exact hnone w' ((Pipe.isOpen_close hc).mpr ⟨hw', by simpa using ho⟩)
      rw [hnone] at hc
      cases hc

theorem target_closed (x : File) : x.closed.target = none := target_eq_none (by simp [File.closed])

/-- The inode of a file that is closed is no longer pointed to. -/
theorem inodes_closed {ip : Slot} (hf : (k.ftable f).target = some ip) :
    k.inodes = ip ::ₘ (k.setFile f (k.ftable f).closed).inodes := by
  rw [Kern.inodes, Kern.inodes, setFile_target, target_closed,
    targets_clear (g := fun g => (k.ftable g).target) (i := f) hf, Multiset.cons_add]
  rfl

/-- A change between files that point to no inode. -/
theorem inodes_setFile_none {x : File} (hf : (k.ftable f).target = none) (hx : x.target = none) :
    (k.setFile f x).inodes = k.inodes := by
  have hold : Function.update (fun g => (k.ftable g).target) f none = fun g => (k.ftable g).target := by
    rw [← hf]
    exact Function.update_eq_self f _
  rw [Kern.inodes, Kern.inodes, setFile_target, hx, hold]
  rfl

/-! ## Rules for the kernel's primitives -/

section Rules
variable {E : Stop → Kern → Prop}

@[simp] theorem wp_file {Q : File → Kern → Prop} : wp (file f) Q E k ↔ Q (k.ftable f) k := Iff.rfl

@[simp] theorem wp_modFile {Q : Unit → Kern → Prop} {g : File → File} :
    wp (modFile f g) Q E k ↔ Q () (k.setFile f (g (k.ftable f))) := Iff.rfl

@[simp] theorem wp_proc {Q : Proc → Kern → Prop} : wp (proc p) Q E k ↔ Q (k.procs p) k := Iff.rfl

@[simp] theorem wp_modProc {Q : Unit → Kern → Prop} {g : Proc → Proc} :
    wp (modProc p g) Q E k ↔ Q () (k.setProc p (g (k.procs p))) := Iff.rfl

@[simp] theorem wp_onFs {α : Type} {m : FsM α} {Q : α → Kern → Prop} :
    wp (onFs m) Q E k ↔ wp m (fun a fs => Q a { k with fs }) (fun e fs => E e { k with fs }) k.fs := wp_zoom

end Rules

/-- What is promised of a call that does not return. -/
abbrev Unhurt : Stop → Kern → Prop := fun e _ => NoCountPanic e

/-- Files do not depend on the file system's state. -/
theorem Kern.Files.withFs (h : k.Files F) (fs : Fs) : { k with fs }.Files F :=
  ⟨h.ref, h.free, h.typed.congr (fun _ => .refl _) rfl⟩

/-- **File system code in a call.** -/
theorem Kern.Held.onFs {α : Type} {m : FsM α} {N : α → Multiset Slot} {Q : α → Kern → Prop} (h : k.Held F M)
    (hm : Moves (k.inodes + M) m fun a => k.inodes + N a)
    (hQ : ∀ a fs, { k with fs }.Held F (N a) → Q a { k with fs }) : wp (onFs m) Q Unhurt k := by
  rw [wp_onFs]
  exact wp_mono (hm k.fs h.refs) (fun a fs hr => hQ a fs ⟨h.files.withFs fs, hr⟩) fun _ _ he => he

/-! ## The file table -/

theorem filealloc_held {Q : Option FilePtr → Kern → Prop} (h : k.Held F M) (hnone : Q none k)
    (hsome : ∀ f, (k.ftable f).ref = 0 → (k.setFile f { k.ftable f with ref := 1 }).Held (F + one f) M →
      Q (some f) (k.setFile f { k.ftable f with ref := 1 })) :
    wp filealloc Q Unhurt k := by
  simp only [filealloc, wp_bind, wp_get]
  cases hc : (List.finRange NFILE).find? fun f => (k.ftable f).ref = 0 with
  | none => exact hnone
  | some f =>
    have hfree : (k.ftable f).ref = 0 := by simpa using List.find?_some hc
    refine hsome f hfree (h.setRef (f := f) (x := { k.ftable f with ref := 1 }) ⟨rfl, rfl, rfl, rfl⟩ ?_ one_ne_zero)
    rw [hfree, zero_add]

theorem fdalloc_held {Q : Option Fd → Kern → Prop} (h : k.Held F M) (hnone : Q none k)
    (hsome : ∀ fd, (k.procs p).ofile fd = none → (k.setFd p fd (some f)).Held (F - one f) M →
      Q (some fd) (k.setFd p fd (some f))) :
    wp (fdalloc p f) Q Unhurt k := by
  simp only [fdalloc, wp_bind, wp_get]
  cases hc : (List.finRange NOFILE).find? fun fd => (k.procs p).ofile fd = none with
  | none => exact hnone
  | some fd =>
    have hfree : (k.procs p).ofile fd = none := by simpa using List.find?_some hc
    exact hsome fd hfree (h.setFd hfree)

theorem filedup_held {Q : Unit → Kern → Prop} (h : k.Held F M) (hf : 0 < (k.ftable f).ref)
    (hQ : ∀ k', k'.Held (F + one f) M → k'.procs = k.procs → Q () k') : wp (filedup f) Q Unhurt k := by
  simp only [filedup, wp_bind, wp_file, wp_ite, wp_throw, wp_modFile]
  refine ⟨fun hlt => absurd hlt (by omega), fun _ => hQ _ ?_ rfl⟩
  exact h.setRef (x := { k.ftable f with ref := (k.ftable f).ref + 1 }) ⟨rfl, rfl, rfl, rfl⟩ (d := 1) rfl
    (by show (k.ftable f).ref + 1 ≠ 0; omega)

theorem sub_one_eq (F : FilePtr → Int) (f : FilePtr) : F + Pi.single f (-1) = F - one f := by
  rw [Pi.single_neg, ← sub_eq_add_neg]

/-- The counts of a closed file. -/
theorem Kern.Files.closed (h : k.Files F) (hf : (k.ftable f).ref = 1) {pipes : Nat → Option Pipe}
    (ht : { k.setFile f (k.ftable f).closed with pipes }.Typed) :
    { k.setFile f (k.ftable f).closed with pipes }.Files (F - one f) := by
  refine ⟨fun g => ?_, fun g hg => ?_, ht⟩
  · rw [← sub_one_eq]
    exact h.addRef (d := -1) (by rw [hf]; rfl) g
  · change ((k.setFile f (k.ftable f).closed).ftable g).ref = 0 at hg
    show ((k.setFile f (k.ftable f).closed).ftable g).type = .FD_NONE
    by_cases hgf : g = f
    · rw [hgf, setFile_self]
      rfl
    · rw [setFile_of_ne hgf] at hg ⊢
      exact h.free g hg

/-- **Closing a file in use** gives back one reference, and the last one what the file points to. -/
theorem fileclose_held {Q : Unit → Kern → Prop} (h : k.Held F M) (hf : 0 < (k.ftable f).ref)
    (hQ : ∀ k', k'.Held (F - one f) M → k'.procs = k.procs → (∀ g ≠ f, k'.ftable g = k.ftable g) → Q () k') :
    wp (fileclose f) Q Unhurt k := by
  simp only [fileclose, wp_bind, wp_file, wp_ite, wp_throw, wp_modFile]
  refine ⟨fun hlt => absurd hlt (by omega), fun _ => ⟨fun hgt => ?_, fun hle => ?_⟩⟩
  · refine hQ _ ?_ rfl fun g hg => setFile_of_ne hg ..
    rw [← sub_one_eq]
    exact h.setRef (x := { k.ftable f with ref := (k.ftable f).ref - 1 }) ⟨rfl, rfl, rfl, rfl⟩ (d := -1) rfl
      (by show (k.ftable f).ref - 1 ≠ 0; omega)
  have hone : (k.ftable f).ref = 1 := by omega
  change wp _ Q Unhurt (k.setFile f (k.ftable f).closed)
  cases hty : (k.ftable f).type with
  | FD_NONE =>
    have hnone : (k.ftable f).target = none := target_eq_none (by rw [hty]; decide)
    refine hQ _ ⟨h.files.closed hone (h.files.typed.close (by rw [hty]; decide)), ?_⟩ rfl fun g hg =>
      setFile_of_ne hg ..
    rw [inodes_setFile_none hnone (target_closed _)]
    exact h.refs
  | FD_INODE =>
    obtain ⟨ip, hip⟩ := Option.ne_none_iff_exists'.mp (h.files.typed.inode f hty)
    have htarget : (k.ftable f).target = some ip := (if_pos hty).trans hip
    have hfiles := h.files.closed hone (h.files.typed.close (by rw [hty]; decide))
    have hrefs := h.refs
    rw [inodes_closed htarget, Multiset.cons_add] at hrefs
    simp only [fileInode, hip, wp_bind, wp_pure]
    refine Kern.Held.onFs (M := ip ::ₘ M) (N := fun _ => M) ⟨hfiles, ?_⟩ (iput_refs (Multiset.add_cons ..)) ?_
    · rw [Multiset.add_cons]
      exact hrefs
    · exact fun _ fs hk => hQ _ hk rfl fun g hg => setFile_of_ne hg ..
  | FD_PIPE =>
    have hend : k.IsEnd (k.ftable f).pipe (k.ftable f).writable f := ⟨hty, rfl, rfl⟩
    obtain ⟨q, hq, -⟩ := h.files.typed.pipe _ _ f hend
    have hnone : (k.ftable f).target = none := target_eq_none (by rw [hty]; decide)
    have hpipe : (k.setFile f (k.ftable f).closed).pipes (k.ftable f).pipe = some q := hq
    simp only [pipeclose, wp_bind, wp_get, hpipe, wp_modify]
    refine hQ _ ⟨h.files.closed hone (h.files.typed.closeEnd hend hq), ?_⟩ rfl fun g hg => setFile_of_ne hg ..
    show Refs ((k.setFile f (k.ftable f).closed).inodes + M) k.fs
    rw [inodes_setFile_none hnone (target_closed _)]
    exact h.refs

/-- A file of type `FD_NONE` is no end of a pipe. -/
theorem not_isEnd {a : Nat} {w : Bool} (hf : (k.ftable f).type = .FD_NONE) : ¬ k.IsEnd a w f := fun he =>
  absurd (hf.symm.trans he.1) (by decide)

/-- **A file is opened on an inode** the call holds. -/
theorem Kern.Held.setInode {ip : Slot} (h : k.Held F (ip ::ₘ M)) (hf : (k.ftable f).type = .FD_NONE)
    (hpos : 0 < (k.ftable f).ref) {x : File} (hty : x.type = .FD_INODE) (href : x.ref = (k.ftable f).ref)
    (hip : x.ip = some ip) : (k.setFile f x).Held F M := by
  have hend : ∀ {a w g}, (k.setFile f x).IsEnd a w g ↔ k.IsEnd a w g := fun {a w g} => by
    by_cases hg : g = f
    · subst hg
      refine iff_of_false (fun he => ?_) (not_isEnd hf)
      rw [Kern.IsEnd, setFile_self, hty] at he
      exact absurd he.1 (by decide)
    · rw [Kern.IsEnd, setFile_of_ne hg]
      exact Iff.rfl
  have htarget : (k.setFile f x).inodes = ip ::ₘ k.inodes := by
    have hold : (fun g => (k.ftable g).target) f = none := target_eq_none (by rw [hf]; decide)
    rw [Kern.inodes, Kern.inodes, setFile_target, show x.target = some ip from (if_pos hty).trans hip,
      targets_set (i := f) hold, Multiset.cons_add]
    rfl
  refine ⟨⟨fun g => ?_, fun g hg => ?_, ⟨fun g hg => ?_, fun a w g hg => ?_, fun a q w hq hw => ?_, ?_, ?_⟩⟩, ?_⟩
  · have hadd := h.files.addRef (f := f) (x := x) (d := 0) (by rw [href, add_zero]) g
    rwa [Pi.single_zero, add_zero] at hadd
  · by_cases hgf : g = f
    · rw [hgf, setFile_self] at hg
      omega
    · rw [setFile_of_ne hgf] at hg ⊢
      exact h.files.free g hg
  · by_cases hgf : g = f
    · rw [hgf, setFile_self, hip]
      exact Option.some_ne_none ip
    · rw [setFile_of_ne hgf] at hg ⊢
      exact h.files.typed.inode g hg
  · exact h.files.typed.pipe a w g (hend.mp hg)
  · obtain ⟨g, hg⟩ := h.files.typed.ends a q w hq hw
    exact ⟨g, hend.mpr hg⟩
  · exact h.files.typed.live
  · exact fun a w g g' hg hg' => h.files.typed.uniq a w g g' (hend.mp hg) (hend.mp hg')
  · rw [htarget, Multiset.cons_add, ← Multiset.add_cons]
    exact h.refs

/-! ### A new pipe -/

/-- The kernel with a new pipe `q` at `a`, whose ends are the files `f₀` and `f₁`. -/
def Kern.newEnds (k : Kern) (a : Nat) (q : Pipe) (f₀ : FilePtr) (x₀ : File) (f₁ : FilePtr) (x₁ : File) : Kern :=
  ({ k with pipes := Function.update k.pipes a (some q) }.setFile f₀ x₀).setFile f₁ x₁

/-- Two files in use that point to nothing become the ends of a pipe in a page that is none. -/
structure Kern.NewEnds (k : Kern) (a : Nat) (f₀ : FilePtr) (x₀ : File) (f₁ : FilePtr) (x₁ : File) : Prop where
  page : k.pipes a = none
  ne : f₀ ≠ f₁
  none₀ : (k.ftable f₀).type = .FD_NONE
  none₁ : (k.ftable f₁).type = .FD_NONE
  pos₀ : 0 < (k.ftable f₀).ref
  pos₁ : 0 < (k.ftable f₁).ref
  end₀ : x₀.type = .FD_PIPE ∧ x₀.pipe = a ∧ x₀.writable = false
  end₁ : x₁.type = .FD_PIPE ∧ x₁.pipe = a ∧ x₁.writable = true
  ref₀ : x₀.ref = (k.ftable f₀).ref
  ref₁ : x₁.ref = (k.ftable f₁).ref

section NewEnds
variable {a : Nat} {q : Pipe} {f₀ f₁ : FilePtr} {x₀ x₁ : File}

/-- A fact about each file: the two new ends, and the rest as before. -/
theorem newEnds_files {P : File → FilePtr → Prop} (h₀ : P x₀ f₀) (h₁ : P x₁ f₁)
    (h : ∀ g, P (k.ftable g) g) (g : FilePtr) : P ((k.newEnds a q f₀ x₀ f₁ x₁).ftable g) g := by
  rw [Kern.newEnds]
  by_cases hg₁ : g = f₁
  · rw [hg₁, setFile_self]
    exact h₁
  · rw [setFile_of_ne hg₁]
    by_cases hg₀ : g = f₀
    · rw [hg₀, setFile_self]
      exact h₀
    · rw [setFile_of_ne hg₀]
      exact h g

theorem newEnds_pipes {b : Nat} {q' : Pipe} (hb : (k.newEnds a q f₀ x₀ f₁ x₁).pipes b = some q') :
    (b = a ∧ q' = q) ∨ (b ≠ a ∧ k.pipes b = some q') := by
  change Function.update k.pipes a (some q) b = some q' at hb
  by_cases hba : b = a
  · rw [hba, Function.update_self] at hb
    exact .inl ⟨hba, (Option.some.inj hb).symm⟩
  · rw [Function.update_of_ne hba] at hb
    exact .inr ⟨hba, hb⟩

/-- The ends of the new pipe are the two files; every other end is an old one. -/
theorem newEnds_isEnd (h : k.Typed) (hn : k.NewEnds a f₀ x₀ f₁ x₁) {b : Nat} {w : Bool} {g : FilePtr} :
    (k.newEnds a q f₀ x₀ f₁ x₁).IsEnd b w g ↔ (b = a ∧ g = if w then f₁ else f₀) ∨ (b ≠ a ∧ k.IsEnd b w g) := by
  have hold : ∀ {g}, k.IsEnd b w g → b ≠ a := fun {g} hg he => by
    obtain ⟨q', hq', -⟩ := h.pipe b w g hg
    rw [he, hn.page] at hq'
    cases hq'
  have hne := hn.ne
  rw [Kern.IsEnd, Kern.newEnds]
  by_cases hg₁ : g = f₁
  · have hnot := not_isEnd (a := b) (w := w) hn.none₁
    rw [hg₁, setFile_self, hn.end₁.1, hn.end₁.2.1, hn.end₁.2.2]
    cases w <;> simp [hnot, hne.symm, eq_comm]
  · rw [setFile_of_ne hg₁]
    by_cases hg₀ : g = f₀
    · have hnot := not_isEnd (a := b) (w := w) hn.none₀
      rw [hg₀, setFile_self, hn.end₀.1, hn.end₀.2.1, hn.end₀.2.2]
      cases w <;> simp [hnot, hne, eq_comm]
    · have hnew : g ≠ if w then f₁ else f₀ := by
        split
        · exact hg₁
        · exact hg₀
      rw [setFile_of_ne hg₀]
      exact ⟨fun hg => .inr ⟨hold hg, hg⟩, fun hg => hg.elim (fun he => absurd he.2 hnew) And.right⟩

theorem Kern.Typed.newEnds (h : k.Typed) (hn : k.NewEnds a f₀ x₀ f₁ x₁) (hopen : ∀ w, q.isOpen w = true) :
    (k.newEnds a q f₀ x₀ f₁ x₁).Typed := by
  have hend := @newEnds_isEnd k a q f₀ f₁ x₀ x₁ h hn
  refine ⟨?_, fun b w g hg => ?_, fun b q' w hb hw => ?_, fun b q' hb => ?_, fun b w g g' hg hg' => ?_⟩
  · refine newEnds_files (P := fun x _ => x.type = .FD_INODE → x.ip ≠ none) ?_ ?_ h.inode
    · exact fun hi => absurd (hn.end₀.1.symm.trans hi) (by decide)
    · exact fun hi => absurd (hn.end₁.1.symm.trans hi) (by decide)
  · rcases hend.mp hg with ⟨rfl, -⟩ | ⟨hba, hg⟩
    · exact ⟨q, Function.update_self .., hopen w⟩
    · obtain ⟨q', hq', hw⟩ := h.pipe b w g hg
      exact ⟨q', (Function.update_of_ne hba ..).trans hq', hw⟩
  · rcases newEnds_pipes hb with ⟨hba, -⟩ | ⟨hba, hb⟩
    · exact ⟨_, hend.mpr (.inl ⟨hba, rfl⟩)⟩
    · obtain ⟨g, hg⟩ := h.ends b q' w hb hw
      exact ⟨g, hend.mpr (.inr ⟨hba, hg⟩)⟩
  · rcases newEnds_pipes hb with ⟨-, rfl⟩ | ⟨-, hb⟩
    · exact ⟨true, hopen true⟩
    · exact h.live b q' hb
  · rcases hend.mp hg with ⟨hba, hg⟩ | ⟨hba, hg⟩ <;> rcases hend.mp hg' with ⟨hba', hg'⟩ | ⟨hba', hg'⟩
    · exact hg.trans hg'.symm
    · exact absurd hba hba'
    · exact absurd hba' hba
    · exact h.uniq b w g g' hg hg'

/-- **A new pipe** takes no reference. -/
theorem Kern.Held.newEnds (h : k.Held F M) (hn : k.NewEnds a f₀ x₀ f₁ x₁) (hopen : ∀ w, q.isOpen w = true) :
    (k.newEnds a q f₀ x₀ f₁ x₁).Held F M := by
  refine ⟨⟨?_, ?_, h.files.typed.newEnds hn hopen⟩, ?_⟩
  · refine newEnds_files (P := fun x g => x.ref = k.descs.count g + F g) ?_ ?_ h.files.ref
    · rw [hn.ref₀, h.files.ref]
    · rw [hn.ref₁, h.files.ref]
  · refine newEnds_files (P := fun x _ => x.ref = 0 → x.type = .FD_NONE) ?_ ?_ h.files.free
    · exact fun hz => absurd (hn.ref₀.symm.trans hz) hn.pos₀.ne'
    · exact fun hz => absurd (hn.ref₁.symm.trans hz) hn.pos₁.ne'
  · have htarget : ∀ g, ((k.newEnds a q f₀ x₀ f₁ x₁).ftable g).target = (k.ftable g).target := by
      refine newEnds_files (P := fun x g => x.target = (k.ftable g).target) ?_ ?_ fun _ => rfl
      · exact (target_eq_none (by rw [hn.end₀.1]; decide)).trans (target_eq_none (by rw [hn.none₀]; decide)).symm
      · exact (target_eq_none (by rw [hn.end₁.1]; decide)).trans (target_eq_none (by rw [hn.none₁]; decide)).symm
    rw [inodes_congr htarget fun _ => rfl]
    exact h.refs

end NewEnds

/-- **`pipealloc`** returns two files in use, or none. -/
theorem pipealloc_held {page : Option Nat} {Q : Option (FilePtr × FilePtr) → Kern → Prop} (h : k.Held F M)
    (hpage : ∀ a, page = some a → k.pipes a = none)
    (hnone : ∀ k', k'.Held F M → k'.procs = k.procs → Q none k')
    (hsome : ∀ f₀ f₁ k', k'.Held (F + one f₀ + one f₁) M → k'.procs = k.procs → Q (some (f₀, f₁)) k') :
    wp (pipealloc page) Q Unhurt k := by
  rw [pipealloc, wp_bind]
  refine filealloc_held h (hnone k h rfl) fun f₀ hfree₀ h₁ => ?_
  set k₁ := k.setFile f₀ { k.ftable f₀ with ref := 1 } with hk₁
  have hfile₀ : k₁.ftable f₀ = { k.ftable f₀ with ref := 1 } := setFile_self ..
  dsimp only
  rw [wp_bind]
  refine filealloc_held h₁ ?_ fun f₁ hfree₁ h₂ => ?_
  · dsimp only
    rw [wp_bind]
    refine fileclose_held h₁ (by rw [hfile₀]; exact one_pos) fun k' hk' hprocs _ => ?_
    rw [add_sub_cancel_right] at hk'
    exact hnone k' hk' hprocs
  have hne : f₀ ≠ f₁ := fun he => by
    rw [← he, hfile₀] at hfree₁
    exact absurd hfree₁ one_ne_zero
  set k₂ := k₁.setFile f₁ { k₁.ftable f₁ with ref := 1 } with hk₂
  have hfile₀' : k₂.ftable f₀ = { k.ftable f₀ with ref := 1 } := (setFile_of_ne hne ..).trans hfile₀
  have hfile₁ : k₂.ftable f₁ = { k₁.ftable f₁ with ref := 1 } := setFile_self ..
  cases page with
  | none =>
    dsimp only
    rw [wp_bind]
    refine fileclose_held h₂ (by rw [hfile₀']; exact one_pos) fun k' hk' hprocs hother => ?_
    rw [wp_bind]
    refine fileclose_held hk' (by rw [hother f₁ hne.symm, hfile₁]; exact one_pos) fun k'' hk'' hprocs' _ => ?_
    rw [add_sub_right_comm, add_sub_cancel_right, add_sub_cancel_right] at hk''
    exact hnone k'' hk'' (hprocs'.trans hprocs)
  | some a =>
    have hn : k₂.NewEnds a f₀
        { k₂.ftable f₀ with type := .FD_PIPE, readable := true, writable := false, pipe := a } f₁
        { k₂.ftable f₁ with type := .FD_PIPE, readable := false, writable := true, pipe := a } := by
      refine ⟨hpage a rfl, hne, ?_, ?_, by rw [hfile₀']; exact one_pos, by rw [hfile₁]; exact one_pos,
        ⟨rfl, rfl, rfl⟩, ⟨rfl, rfl, rfl⟩, rfl, rfl⟩
      · rw [hfile₀']
        exact h.files.free f₀ hfree₀
      · rw [hfile₁]
        exact h₁.files.free f₁ hfree₁
    have hheld := h₂.newEnds hn (q := newPipe fun _ => 1) (by decide)
    simp only [wp_bind, wp_modify, wp_modFile, wp_pure]
    rw [setFile_of_ne hne.symm]
    exact hsome f₀ f₁ _ hheld rfl

end Xv6
