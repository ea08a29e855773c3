import Xv6.Fs.Dir
import Xv6.Fs.Rw
import Mathlib.Data.Multiset.Count

/-!
# `Fs.Refs` — every counted reference to a cached inode, whatever is on the disk

`Refs M s` says that the multiset `M` has one element for every counted reference to a slot of the inode cache, and
that no two slots in use hold the same inode. Most file system code keeps it for every `M`. `iget`, `idup`,
`dirlookup`, `namex`, `ialloc` and `create` add the slot they return; `iput` takes one away; the calls on names
give back all they took, on every exit. Nothing is assumed of the disk.
-/

namespace Xv6

open Bytes Hoare

/-! ## The count -/

/-- **The references are `M`**, and no two slots in use hold the same inode. -/
structure Refs (M : Multiset Slot) (s : Fs) : Prop where
  ref : ∀ x, (s.icache x).ref = M.count x
  uniq : ∀ x ∈ M, ∀ y ∈ M, (s.icache x).dev = (s.icache y).dev → (s.icache x).inum = (s.icache y).inum → x = y

/-- Panics of the code above the file system: two checks of a file's count, and the use of a pointer that is
    null or to a freed page. -/
def countPanics : List String := ["filedup", "fileclose", "trap"]

/-- Any stop but those panics. -/
def NoCountPanic (e : Stop) : Prop := ∀ msg ∈ countPanics, e ≠ .panic msg

variable {M : Multiset Slot} {s s' : Fs} {x : Slot}

/-- Only the counts and the identities in the cache matter. -/
theorem Refs.congr (h : Refs M s) (href : ∀ y, (s'.icache y).ref = (s.icache y).ref)
    (hdev : ∀ y, (s'.icache y).dev = (s.icache y).dev) (hinum : ∀ y, (s'.icache y).inum = (s.icache y).inum) :
    Refs M s' := by
  refine ⟨fun y => (href y).trans (h.ref y), fun y hy z hz hd hi => h.uniq y hy z hz ?_ ?_⟩
  · rw [← hdev y, ← hdev z, hd]
  · rw [← hinum y, ← hinum z, hi]

/-- A change to one slot that keeps its count and identity. -/
theorem Refs.setInode (h : Refs M s) {i : Inode} (href : i.ref = (s.icache x).ref) (hdev : i.dev = (s.icache x).dev)
    (hinum : i.inum = (s.icache x).inum) : Refs M (s.setInode x i) := by
  have hcases : ∀ y, (s.setInode x i).icache y = if y = x then i else s.icache y := fun y => by
    rw [setInode_icache, Function.update_apply]
  refine h.congr (fun y => ?_) (fun y => ?_) fun y => ?_ <;> rw [hcases] <;> split
  all_goals first | rfl | (rename_i hy; rw [hy]; assumption)

/-! ## Code that keeps it -/

/-- Code that moves no reference, wherever it stops. -/
abbrev RefsStable (M : Multiset Slot) {α : Type} (m : FsM α) : Prop :=
  Stable (Refs M) (fun e s => NoCountPanic e ∧ Refs M s) m

abbrev KeepsRefs {α : Type} (m : FsM α) : Prop := ∀ M, RefsStable M m

theorem bread_refs {dev sector : Nat} : KeepsRefs (bread dev sector) := fun _ _ h => h

theorem bwrite_refs {dev sector : Nat} {b : Arr} : KeepsRefs (bwrite dev sector b) :=
  fun _ _ h => h.congr (fun _ => rfl) (fun _ => rfl) fun _ => rfl

theorem inode_refs : KeepsRefs (inode x) := fun _ _ h => h

/-- A change of the other fields of a slot. -/
def SameId (f : Inode → Inode) : Prop := ∀ i, (f i).ref = i.ref ∧ (f i).dev = i.dev ∧ (f i).inum = i.inum

theorem modInode_refs {f : Inode → Inode} (hf : SameId f) : KeepsRefs (modInode x f) :=
  fun _ _ h => h.setInode (hf _).1 (hf _).2.1 (hf _).2.2

theorem noCountPanic {msg : String} (h : msg ∉ countPanics) : NoCountPanic (.panic msg) :=
  fun _ hmem he => h (Stop.panic.inj he ▸ hmem)

theorem panic_refs {α : Type} {msg : String} (h : msg ∉ countPanics) : KeepsRefs (panic msg : FsM α) :=
  fun _ => .throw fun _ hr => ⟨noCountPanic h, hr⟩

theorem readsb_refs {dev : Nat} : KeepsRefs (readsb dev) := fun M => .bind (bread_refs M) fun _ => .pure _

theorem ballocFrom_refs {dev : Nat} {sb : Superblock} (k b : Nat) : KeepsRefs (ballocFrom dev sb k b) := by
  intro M
  induction k generalizing b with
  | zero => exact panic_refs (by decide) M
  | succ k ih =>
    refine .bind (bread_refs M) fun bp => ?_
    cases freeBit bp with
    | some bi => exact .bind (bwrite_refs M) fun _ => .pure _
    | none => exact ih _

theorem balloc_refs {dev : Nat} : KeepsRefs (balloc dev) :=
  fun M => .bind (readsb_refs M) fun _ => ballocFrom_refs _ _ M

theorem bfree_refs {dev b : Nat} : KeepsRefs (bfree dev b) := by
  intro M
  refine .bind (.bind (bread_refs M) fun _ => bwrite_refs M) fun _ => .bind (readsb_refs M) fun _ =>
    .bind (bread_refs M) fun _ => .ite (bwrite_refs M) (panic_refs (by decide) M)

theorem iupdate_refs : KeepsRefs (iupdate x) :=
  fun M => .bind (inode_refs M) fun _ => .bind (bread_refs M) fun _ => bwrite_refs M

theorem ilock_refs : KeepsRefs (ilock x) := by
  intro M s h
  have hlock : Refs M (s.setInode x { s.icache x with busy := true }) := h.setInode rfl rfl rfl
  unfold ilock
  rw [wp_bind, wp_inode, wp_ite]
  refine ⟨fun _ => ⟨noCountPanic (by decide), h⟩, fun _ => ?_⟩
  rw [wp_ite]
  refine ⟨fun _ => ⟨fun _ _ => nofun, h⟩, fun _ => ?_⟩
  rw [wp_bind, wp_modInode, wp_ite]
  refine ⟨fun _ => hlock, fun _ => ?_⟩
  rw [wp_bind, wp_bread]
  -- whatever inode is read from the block
  generalize getDinode _ _ = dip
  rw [wp_bind, wp_modInode, wp_ite]
  have hload := hlock.setInode (x := x) (i := { (s.setInode x { s.icache x with busy := true }).icache x with
    toMeta := dip.toMeta, valid := true }) rfl rfl rfl
  exact ⟨fun _ => ⟨noCountPanic (by decide), hload⟩, fun _ => hload⟩

theorem iunlock_refs : KeepsRefs (iunlock x) :=
  fun M => .bind (inode_refs M) fun _ =>
    .ite (panic_refs (by decide) M) (modInode_refs (by intro; exact ⟨rfl, rfl, rfl⟩) M)

theorem setAddr_refs {k addr : Nat} : KeepsRefs (setAddr x k addr) :=
  modInode_refs (by intro; exact ⟨rfl, rfl, rfl⟩)

theorem addrAlloc_refs {k : Nat} : KeepsRefs (addrAlloc x k) :=
  fun M => .bind (inode_refs M) fun _ =>
    .ite (.bind (balloc_refs M) fun _ => .bind (setAddr_refs M) fun _ => .pure _) (.pure _)

theorem bmap_refs {bn : Nat} : KeepsRefs (bmap x bn) := by
  intro M
  refine .ite (addrAlloc_refs M) (.ite ?_ (panic_refs (by decide) M))
  refine .bind (addrAlloc_refs M) fun _ => .bind (inode_refs M) fun _ => .bind (bread_refs M) fun _ => ?_
  exact .ite (.bind (balloc_refs M) fun _ => .bind (bwrite_refs M) fun _ => .pure _) (.pure _)

theorem itrunc_refs : KeepsRefs (itrunc x) := by
  intro M
  have hdirect : ∀ k, RefsStable M (truncDirect x k) := fun k =>
    .bind (inode_refs M) fun _ => .ite (.bind (bfree_refs M) fun _ => setAddr_refs M) (.pure _)
  have hindirect : ∀ dev bp j, RefsStable M (truncIndirect dev bp j) := fun _ _ _ =>
    .ite (bfree_refs M) (.pure _)
  have htail : RefsStable M (do modInode x fun i => { i with size := 0 }; iupdate x) :=
    .bind (modInode_refs (by intro; exact ⟨rfl, rfl, rfl⟩) M) fun _ => iupdate_refs M
  refine .bind (.forM hdirect) fun _ => .bind (inode_refs M) fun i => .ite ?_ htail
  exact .bind (bread_refs M) fun _ => .bind (.forM (hindirect _ _)) fun _ =>
    .bind (bfree_refs M) fun _ => .bind (setAddr_refs M) fun _ => htail

theorem copyOut_refs {dst : Dst} {tot m : Nat} {src : Arr} : KeepsRefs (copyOut dst tot m src) := by
  intro M s h
  rw [wp_copyOut]
  exact h.congr (fun _ => by rw [Dst.store_icache]) (fun _ => by rw [Dst.store_icache]) fun _ => by rw [Dst.store_icache]

theorem copyIn_refs {src : Src} {tot m : Nat} : KeepsRefs (copyIn src tot m) := by
  intro M s h
  rw [wp_copyIn]
  exact h.congr (fun _ => by rw [Src.load_icache]) (fun _ => by rw [Src.load_icache]) fun _ => by rw [Src.load_icache]

theorem consolereadLoop_refs {dst : Dst} {target n : Nat} : KeepsRefs (consolereadLoop dst target n) := by
  intro M s h
  refine wp_post (consolereadLoop_frame dst target n s) ?_
  rintro _ s' ⟨-, hc⟩
  exact h.congr (fun _ => by rw [hc]) (fun _ => by rw [hc]) fun _ => by rw [hc]

theorem readiLoop_refs {dst : Dst} (fuel tot off left : Nat) : KeepsRefs (readiLoop x dst fuel tot off left) := by
  intro M
  induction fuel generalizing tot off left with
  | zero => exact .pure _
  | succ fuel ih =>
    refine .ite (.pure _) (.bind (bmap_refs M) fun _ => .bind (inode_refs M) fun _ => .bind (bread_refs M) fun _ => ?_)
    exact .bind (copyOut_refs M) fun _ => .bind (ih _ _ _) fun _ => .pure _

theorem consoleread_refs {dst : Dst} {n : Int} : KeepsRefs (consoleread x dst n) := by
  intro M
  refine .bind (iunlock_refs M) fun _ => .bind (consolereadLoop_refs M) fun r => .bind (ilock_refs M) fun _ => ?_
  rcases r with ⟨left, bytes⟩
  cases left with
  | none => exact .pure _
  | some k => exact .pure _

theorem consolewrite_refs {src : Src} {n : Int} : KeepsRefs (consolewrite x src n) := fun M =>
  .bind (iunlock_refs M) fun _ => .bind (copyIn_refs M) fun _ => .bind (ilock_refs M) fun _ => .pure _

theorem readi_refs {dst : Dst} {off n : Nat} : KeepsRefs (readi x dst off n) := by
  intro M
  refine .bind (inode_refs M) fun i => .ite (.ite (.pure _) (consoleread_refs M)) (.ite (.pure _) ?_)
  exact .bind (readiLoop_refs _ _ _ _ M) fun _ => .pure _

theorem writeiLoop_refs {src : Src} (fuel tot off left : Nat) : KeepsRefs (writeiLoop x src fuel tot off left) := by
  intro M
  induction fuel generalizing tot off left with
  | zero => exact .pure _
  | succ fuel ih =>
    refine .ite (.pure _) (.bind (bmap_refs M) fun _ => .bind (inode_refs M) fun _ => .bind (bread_refs M) fun _ => ?_)
    exact .bind (copyIn_refs M) fun _ => .bind (bwrite_refs M) fun _ => ih _ _ _

theorem writei_refs {src : Src} {off n : Nat} : KeepsRefs (writei x src off n) := by
  intro M
  refine .bind (inode_refs M) fun i => .ite (.ite (.pure _) (consolewrite_refs M)) (.ite (.pure _) ?_)
  · refine .bind (writeiLoop_refs _ _ _ _ M) fun _ => .bind (inode_refs M) fun _ => .ite ?_ (.pure _)
    exact .bind (modInode_refs (by intro; exact ⟨rfl, rfl, rfl⟩) M) fun _ => .bind (iupdate_refs M) fun _ => .pure _

theorem addLink_refs {k : Int} : KeepsRefs (addLink x k) :=
  fun M => .bind (modInode_refs (by intro; exact ⟨rfl, rfl, rfl⟩) M) fun _ => iupdate_refs M

theorem emptyEntry_refs (fuel off : Nat) : KeepsRefs (emptyEntry x fuel off) := by
  intro M
  induction fuel generalizing off with
  | zero => exact .pure _
  | succ fuel ih =>
    refine .bind (inode_refs M) fun _ => .ite (.bind (readi_refs M) fun r => ?_) (.pure _)
    exact .ite (panic_refs (by decide) M) (.ite (.pure _) (ih _))

theorem isdiremptyFrom_refs (fuel off : Nat) : KeepsRefs (isdiremptyFrom x fuel off) := by
  intro M
  induction fuel generalizing off with
  | zero => exact .pure _
  | succ fuel ih =>
    refine .bind (inode_refs M) fun _ => .ite (.bind (readi_refs M) fun r => ?_) (.pure _)
    exact .ite (panic_refs (by decide) M) (.ite (.pure _) (ih _))

theorem isdirempty_refs : KeepsRefs (isdirempty x) :=
  fun M => .bind (inode_refs M) fun _ => isdiremptyFrom_refs _ _ M

/-! ## Code that moves references -/

/-- With references `M` before, the references after a return are `N` of the value returned. -/
abbrev Moves (M : Multiset Slot) {α : Type} (m : FsM α) (N : α → Multiset Slot) : Prop :=
  Triple (Refs M) m (fun a => Refs (N a)) (fun e _ => NoCountPanic e)

/-- Code that keeps the references, then code that moves them. -/
theorem KeepsRefs.then {α β : Type} {m : FsM α} {f : α → FsM β} {N : β → Multiset Slot} (hm : KeepsRefs m)
    (hf : ∀ a, Moves M (f a) N) : Moves M (m >>= f) N :=
  .bind (fun s hs => wp_mono (hm M s hs) (fun _ _ h => h) fun _ _ h => h.1) hf

theorem KeepsRefs.moves {α : Type} {m : FsM α} (hm : KeepsRefs m) : Moves M m (fun _ => M) :=
  fun s hs => wp_mono (hm M s hs) (fun _ _ h => h) fun _ _ h => h.1

theorem panic_moves {α : Type} {msg : String} {N : α → Multiset Slot} (h : msg ∉ countPanics) :
    Moves M (panic msg : FsM α) N :=
  .throw fun _ _ => noCountPanic h

/-- `M` and the slot returned, if there is one. -/
def withRef (M : Multiset Slot) : Option Slot → Multiset Slot
  | none => M
  | some x => x ::ₘ M

theorem Refs.mem_iff (h : Refs M s) : x ∈ M ↔ 0 < (s.icache x).ref := by
  rw [h.ref x, Int.natCast_pos, Multiset.count_pos]

/-- One more reference to a slot in use. -/
theorem Refs.dup (h : Refs M s) (hx : x ∈ M) {i : Inode} (href : i.ref = (s.icache x).ref + 1)
    (hdev : i.dev = (s.icache x).dev) (hinum : i.inum = (s.icache x).inum) : Refs (x ::ₘ M) (s.setInode x i) := by
  have hmem : ∀ y, y ∈ x ::ₘ M → y ∈ M := fun y hy => (Multiset.mem_cons.mp hy).elim (fun he => he ▸ hx) id
  have hid : ∀ y, ((s.setInode x i).icache y).dev = (s.icache y).dev ∧
      ((s.setInode x i).icache y).inum = (s.icache y).inum := fun y => by
    by_cases hy : y = x
    · rw [hy, setInode_icache, Function.update_self]
      exact ⟨hdev, hinum⟩
    · rw [setInode_icache, Function.update_of_ne hy]
      exact ⟨rfl, rfl⟩
  refine ⟨fun y => ?_, fun y hy z hz hd hi => h.uniq y (hmem y hy) z (hmem z hz) ?_ ?_⟩
  · by_cases hy : y = x
    · rw [hy, setInode_icache, Function.update_self, href, h.ref x, Multiset.count_cons_self]
      rfl
    · rw [setInode_icache, Function.update_of_ne hy, h.ref y, Multiset.count_cons_of_ne hy]
  · rw [← (hid y).1, ← (hid z).1, hd]
  · rw [← (hid y).2, ← (hid z).2, hi]

/-- The first reference to an inode that no slot in use holds. -/
theorem Refs.fresh (h : Refs M s) (hx : x ∉ M) {i : Inode} (href : i.ref = 1)
    (hnew : ∀ y ∈ M, ¬ ((s.icache y).dev = i.dev ∧ (s.icache y).inum = i.inum)) :
    Refs (x ::ₘ M) (s.setInode x i) := by
  have hself : (s.setInode x i).icache x = i := by rw [setInode_icache, Function.update_self]
  have hother : ∀ y ∈ M, (s.setInode x i).icache y = s.icache y := fun y hy => by
    rw [setInode_icache, Function.update_of_ne (ne_of_mem_of_not_mem hy hx)]
  refine ⟨fun y => ?_, fun y hy z hz hd hi => ?_⟩
  · by_cases hy : y = x
    · rw [hy, hself, href, Multiset.count_cons_self, Multiset.count_eq_zero.mpr hx]
      rfl
    · rw [setInode_icache, Function.update_of_ne hy, h.ref y, Multiset.count_cons_of_ne hy]
  · rcases Multiset.mem_cons.mp hy with rfl | hyM <;> rcases Multiset.mem_cons.mp hz with rfl | hzM
    · rfl
    · rw [hself, hother z hzM] at hd hi
      exact absurd ⟨hd.symm, hi.symm⟩ (hnew z hzM)
    · rw [hself, hother y hyM] at hd hi
      exact absurd ⟨hd, hi⟩ (hnew y hyM)
    · rw [hother y hyM, hother z hzM] at hd hi
      exact h.uniq y hyM z hzM hd hi

/-- A reference given back. -/
theorem Refs.drop (h : Refs (x ::ₘ M) s) :
    Refs M (s.setInode x { s.icache x with ref := (s.icache x).ref - 1 }) := by
  have hid : ∀ y, ((s.setInode x { s.icache x with ref := (s.icache x).ref - 1 }).icache y).dev = (s.icache y).dev ∧
      ((s.setInode x { s.icache x with ref := (s.icache x).ref - 1 }).icache y).inum = (s.icache y).inum := fun y => by
    by_cases hy : y = x
    · rw [hy, setInode_icache, Function.update_self]
      exact ⟨rfl, rfl⟩
    · rw [setInode_icache, Function.update_of_ne hy]
      exact ⟨rfl, rfl⟩
  refine ⟨fun y => ?_, fun y hy z hz hd hi => ?_⟩
  · by_cases hy : y = x
    · rw [hy, setInode_icache, Function.update_self, h.ref x, Multiset.count_cons_self]
      exact Int.add_sub_cancel (Multiset.count x M : Int) 1
    · rw [setInode_icache, Function.update_of_ne hy, h.ref y, Multiset.count_cons_of_ne hy]
  · refine h.uniq y (Multiset.mem_cons_of_mem hy) z (Multiset.mem_cons_of_mem hz) ?_ ?_
    · rw [← (hid y).1, ← (hid z).1, hd]
    · rw [← (hid y).2, ← (hid z).2, hi]

theorem iget_refs {dev inum : Nat} : Moves M (iget dev inum) (· ::ₘ M) := by
  intro s h
  simp only [iget, wp_bind, wp_get]
  cases hc : s.cached dev inum with
  | some x =>
    have hfound := List.find?_some hc
    simp only [decide_eq_true_eq] at hfound
    exact h.dup (h.mem_iff.mpr hfound.1) rfl rfl rfl
  | none =>
    cases he : s.emptySlot with
    | none => exact noCountPanic (by decide)
    | some x =>
      have hfree := List.find?_some he
      simp only [decide_eq_true_eq] at hfree
      refine h.fresh (fun hx => ?_) rfl fun y hy hid => ?_
      · exact absurd hfree (Int.ne_of_gt (h.mem_iff.mp hx))
      · have hmiss := List.find?_eq_none.mp hc y (List.mem_finRange y)
        exact hmiss (decide_eq_true ⟨h.mem_iff.mp hy, hid⟩)

theorem idup_refs (hx : x ∈ M) : Moves M (idup x) (· ::ₘ M) :=
  fun _ h => h.dup hx rfl rfl rfl

theorem iput_refs {N : Multiset Slot} (hN : N = x ::ₘ M) : Moves N (iput x) (fun _ => M) := by
  subst hN
  have htail : Moves (x ::ₘ M) (modInode x fun i => { i with ref := i.ref - 1 }) (fun _ => M) := fun _ h => h.drop
  refine inode_refs.then fun i => .ite (fun _ => .ite (fun _ => panic_moves (by decide)) fun _ => ?_) fun _ => htail
  refine (modInode_refs (by intro; exact ⟨rfl, rfl, rfl⟩)).then fun _ => itrunc_refs.then fun _ => ?_
  refine (modInode_refs (by intro; exact ⟨rfl, rfl, rfl⟩)).then fun _ => iupdate_refs.then fun _ => ?_
  exact (modInode_refs (by intro; exact ⟨rfl, rfl, rfl⟩)).then fun _ => htail

theorem iunlockput_refs {N : Multiset Slot} (hN : N = x ::ₘ M) : Moves N (iunlockput x) (fun _ => M) :=
  iunlock_refs.then fun _ => iput_refs hN

theorem iallocFrom_refs {dev : Nat} {type : Int} (l : List Nat) : Moves M (iallocFrom dev type l) (· ::ₘ M) := by
  induction l with
  | nil => exact panic_moves (by decide)
  | cons inum rest ih =>
    intro s h
    simp only [iallocFrom, wp_bind, wp_bread]
    rw [wp_ite]
    exact ⟨fun _ => iget_refs _ (bwrite_refs M s h), fun _ => ih s h⟩

theorem ialloc_refs {dev : Nat} {type : Int} : Moves M (ialloc dev type) (· ::ₘ M) :=
  readsb_refs.then fun _ => iallocFrom_refs _

/-! ## Directories and paths -/

/-- The slot `dirlookup` or `namex` returns, if any. -/
abbrev slotOf {β : Type} (r : Option (Slot × β)) : Option Slot := r.map Prod.fst

theorem dirlookupFrom_refs {dp : Slot} {name : List UInt8} (k off : Nat) :
    Moves M (dirlookupFrom dp name k off) (fun r => withRef M (slotOf r)) := by
  induction k generalizing off with
  | zero => exact .pure fun _ h => h
  | succ k ih =>
    refine bmap_refs.then fun addr => inode_refs.then fun i => bread_refs.then fun bp => ?_
    cases findEntry bp name with
    | none => exact ih _
    | some e => exact .bind iget_refs fun ip => .pure fun _ h => h

theorem dirlookup_refs {dp : Slot} {name : List UInt8} :
    Moves M (dirlookup dp name) (fun r => withRef M (slotOf r)) :=
  inode_refs.then fun _ => .ite (fun _ => panic_moves (by decide)) fun _ => dirlookupFrom_refs _ _

theorem dirlink_refs {dp : Slot} {name : List UInt8} {inum : Nat} :
    Moves M (dirlink dp name inum) (fun _ => M) := by
  refine .bind dirlookup_refs fun r => ?_
  rcases r with _ | ⟨ip, off⟩
  · refine inode_refs.then fun _ => (emptyEntry_refs _ _).then fun _ => writei_refs.then fun _ => ?_
    exact .ite (fun _ => panic_moves (by decide)) fun _ => .pure fun _ h => h
  · exact .bind (iput_refs rfl) fun _ => .pure fun _ h => h

/-- The references after an iteration of the loop of `namex`, whose inode the caller gave up. -/
def Walk.refs (M : Multiset Slot) : Walk → Multiset Slot
  | .done r => withRef M r
  | .next ip => ip ::ₘ M

theorem namexElem_refs {parent : Bool} {ip : Slot} {name path : List UInt8} :
    Moves (ip ::ₘ M) (namexElem parent ip name path) (Walk.refs M) := by
  refine ilock_refs.then fun _ => inode_refs.then fun i => .ite (fun _ => ?_) fun _ => .ite (fun _ => ?_) fun _ => ?_
  · exact .bind (iunlockput_refs rfl) fun _ => .pure fun _ h => h
  · exact iunlock_refs.then fun _ => .pure fun _ h => h
  · refine .bind dirlookup_refs fun r => ?_
    rcases r with _ | ⟨next, off⟩
    · exact .bind (iunlockput_refs rfl) fun _ => .pure fun _ h => h
    · exact .bind (iunlockput_refs (Multiset.cons_swap _ _ _)) fun _ => .pure fun _ h => h

theorem namexFrom_refs {parent : Bool} (fuel : Nat) (ip : Slot) (path name : List UInt8) :
    Moves (ip ::ₘ M) (namexFrom parent fuel ip path name) (fun r => withRef M (slotOf r)) := by
  induction fuel generalizing ip path name with
  | zero => exact .pure fun _ h => h
  | succ fuel ih =>
    unfold namexFrom
    cases skipelem path with
    | none => exact .ite (fun _ => .bind (iput_refs rfl) fun _ => .pure fun _ h => h) fun _ => .pure fun _ h => h
    | some e =>
      refine .bind namexElem_refs fun w => ?_
      cases w with
      | done r => exact .pure fun _ h => by cases r <;> exact h
      | next ip' => exact ih ip' e.2 e.1

theorem namex_refs {cwd : Slot} (hcwd : cwd ∈ M) {path : List UInt8} {parent : Bool} :
    Moves M (namex cwd path parent) (fun r => withRef M (slotOf r)) := by
  have hstart : Moves M (namexStart cwd path) (· ::ₘ M) := .ite (fun _ => iget_refs) fun _ => idup_refs hcwd
  exact .bind hstart fun ip => namexFrom_refs _ ip _ _

theorem namei_refs {cwd : Slot} (hcwd : cwd ∈ M) {path : List UInt8} :
    Moves M (namei cwd path) (withRef M) :=
  .bind (namex_refs hcwd) fun _ => .pure fun _ h => h

theorem nameiparent_refs {cwd : Slot} (hcwd : cwd ∈ M) {path : List UInt8} :
    Moves M (nameiparent cwd path) (fun r => withRef M (slotOf r)) := namex_refs hcwd

/-! ## Calls on names -/

theorem linkBad_refs {ip : Slot} : Moves (ip ::ₘ M) (linkBad ip) (fun _ => M) :=
  ilock_refs.then fun _ => addLink_refs.then fun _ => .bind (iunlockput_refs rfl) fun _ => .pure fun _ h => h

theorem sysLink_refs {cwd : Slot} (hcwd : cwd ∈ M) {old new : List UInt8} :
    Moves M (sysLink cwd old new) (fun _ => M) := by
  refine .bind (namei_refs hcwd) fun r => ?_
  rcases r with _ | ip
  · exact .pure fun _ h => h
  refine ilock_refs.then fun _ => inode_refs.then fun i => .ite (fun _ => ?_) fun _ => ?_
  · exact .bind (iunlockput_refs rfl) fun _ => .pure fun _ h => h
  refine addLink_refs.then fun _ => iunlock_refs.then fun _ =>
    .bind (nameiparent_refs (Multiset.mem_cons_of_mem hcwd)) fun r => ?_
  rcases r with _ | ⟨dp, name⟩
  · exact linkBad_refs
  refine ilock_refs.then fun _ => inode_refs.then fun d => ?_
  have htail : ∀ r : Int, Moves (dp ::ₘ ip ::ₘ M) (do
      if r < 0 then
        iunlockput dp
        linkBad ip
      else
        iunlockput dp
        iput ip
        return 0) (fun _ => M) := fun r => .ite (fun _ => .bind (iunlockput_refs rfl) fun _ => linkBad_refs) fun _ =>
    .bind (iunlockput_refs rfl) fun _ => .bind (iput_refs rfl) fun _ => .pure fun _ h => h
  exact .ite (fun _ => .bind (.pure fun _ h => h) htail) fun _ => .bind dirlink_refs htail

theorem sysUnlink_refs {cwd : Slot} (hcwd : cwd ∈ M) {path : List UInt8} :
    Moves M (sysUnlink cwd path) (fun _ => M) := by
  refine .bind (nameiparent_refs hcwd) fun r => ?_
  rcases r with _ | ⟨dp, name⟩
  · exact .pure fun _ h => h
  refine ilock_refs.then fun _ => .ite (fun _ => ?_) fun _ => .bind dirlookup_refs fun r => ?_
  · exact .bind (iunlockput_refs rfl) fun _ => .pure fun _ h => h
  rcases r with _ | ⟨ip, off⟩
  · exact .bind (iunlockput_refs rfl) fun _ => .pure fun _ h => h
  have hputs : Moves (ip ::ₘ dp ::ₘ M) (do iunlockput dp; addLink ip (-1); iunlockput ip; return (0 : Int))
      (fun _ => M) := .bind (iunlockput_refs (Multiset.cons_swap ..)) fun _ => addLink_refs.then fun _ =>
    .bind (iunlockput_refs rfl) fun _ => .pure fun _ h => h
  have htail : ∀ (c : Prop) [Decidable c] (empty : Bool), Moves (ip ::ₘ dp ::ₘ M) (do
      if empty = false then
        iunlockput ip
        iunlockput dp
        return -1
      else
        let r ← writei dp (.kernel fun _ => 0) off 16
        if r ≠ 16 then panic "unlink: writei"
        else
          if c then addLink dp (-1) else pure ()
          iunlockput dp
          addLink ip (-1)
          iunlockput ip
          return 0) (fun _ => M) := by
    intro c _ empty
    refine .ite (fun _ => ?_) fun _ => writei_refs.then fun _ => .ite (fun _ => panic_moves (by decide)) fun _ =>
      .ite (fun _ => addLink_refs.then fun _ => hputs) fun _ => hputs
    exact .bind (iunlockput_refs rfl) fun _ => .bind (iunlockput_refs rfl) fun _ => .pure fun _ h => h
  refine ilock_refs.then fun _ => inode_refs.then fun i => .ite (fun _ => panic_moves (by decide)) fun _ => ?_
  exact .ite (fun _ => isdirempty_refs.then (htail _)) fun _ => .bind (.pure fun _ h => h) (htail _)

/-- `create` returns its inode with a reference. -/
theorem create_refs {cwd : Slot} (hcwd : cwd ∈ M) {path : List UInt8} {type major minor : Int} :
    Moves M (create cwd path type major minor) (withRef M) := by
  refine .bind (nameiparent_refs hcwd) fun r => ?_
  rcases r with _ | ⟨dp, name⟩
  · exact .pure fun _ h => h
  refine ilock_refs.then fun _ => .bind dirlookup_refs fun r => ?_
  rcases r with _ | ⟨ip, off⟩
  · refine inode_refs.then fun d => .bind ialloc_refs fun ip => ilock_refs.then fun _ => ?_
    have htail : ∀ i : Inode, Moves (ip ::ₘ dp ::ₘ M) (do
        if (← dirlink dp name i.inum) < 0 then panic "create: dirlink"
        else
          iunlockput dp
          return some ip) (withRef M) := fun i => .bind dirlink_refs fun _ =>
      .ite (fun _ => panic_moves (by decide)) fun _ => .bind (iunlockput_refs (Multiset.cons_swap ..)) fun _ =>
        .pure fun _ h => h
    refine (modInode_refs (by intro; exact ⟨rfl, rfl, rfl⟩)).then fun _ => iupdate_refs.then fun _ =>
      inode_refs.then fun i => .ite (fun _ => addLink_refs.then fun _ => ?_) fun _ => htail i
    refine .bind dirlink_refs fun _ => .ite (fun _ => ?_) fun _ => .bind dirlink_refs fun _ => .ite (fun _ => ?_) fun _ => ?_
    · exact panic_moves (by decide)
    · exact panic_moves (by decide)
    · exact htail i
  · refine .bind (iunlockput_refs (Multiset.cons_swap ..)) fun _ => ilock_refs.then fun _ => inode_refs.then fun i => ?_
    exact .ite (fun _ => .pure fun _ h => h) fun _ => .bind (iunlockput_refs rfl) fun _ => .pure fun _ h => h

end Xv6
