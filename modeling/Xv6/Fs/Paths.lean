import Xv6.Fs.Sequences

/-!
# `Fs.Paths` — what a path names

A path is read as the list of its components and walked from directory to directory. Said of the disk alone, the
walk is a left fold of `dirGet`, the directory search, over the components; `namei` and `nameiparent` compute that
fold and leave the disk and the references of the others alone.

## Contents
- **Components.** `components`, and `skipelem_eq`: `skipelem` takes the first of them.
- **Walk.** `dirGet`, `resolve`, `resolveParent`.
- **Code.** `Live` and `Tree`, `namexElem_walk`, `namexFrom_walk`, `namei_eq_fold`.
-/

namespace Xv6

open Bytes Hoare Ownership

/-! ## Components -/

/-- The non-empty elements of a path, each cut to the length of a directory entry's name. -/
def components (path : List UInt8) : List (List UInt8) :=
  ((path.splitOn slash).filter (· ≠ [])).map (·.take DIRSIZ)

theorem components_nil : components [] = [] := by decide

/-- A slash separates: it belongs to no component. -/
theorem components_append_slash (a b : List UInt8) : components (a ++ slash :: b) = components a ++ components b := by
  have hs : (a ++ slash :: b).splitOn slash = a.splitOn slash ++ b.splitOn slash :=
    List.splitOnP_append_cons a b (beq_self_eq_true slash)
  rw [components, hs, List.filter_append, List.map_append]
  rfl

theorem components_slash (b : List UInt8) : components (slash :: b) = components b := by
  have h := components_append_slash [] b
  rwa [components_nil] at h

/-- A word without a slash is one component. -/
theorem components_word {w : List UInt8} (hne : w ≠ []) (hw : ∀ c ∈ w, c ≠ slash) : components w = [w.take DIRSIZ] := by
  have hs : w.splitOn slash = [w] := List.splitOnP_eq_singleton fun c hc => beq_false_of_ne (hw c hc)
  rw [components, hs, List.filter_cons_of_pos (by simpa using hne)]
  rfl

theorem components_dropSlashes (path : List UInt8) : components (path.dropWhile (· = slash)) = components path := by
  induction path with
  | nil => rfl
  | cons c path ih =>
    by_cases hc : c = slash
    · rw [List.dropWhile_cons_of_pos (by simpa using hc), ih, hc, components_slash]
    · rw [List.dropWhile_cons_of_neg (by simpa using hc)]

/-- Runs of slashes count as one. -/
theorem components_slashes (a b : List UInt8) (n : Nat) :
    components (a ++ List.replicate (n + 1) slash ++ b) = components a ++ components b := by
  rw [List.replicate_succ, List.append_assoc, List.cons_append, components_append_slash]
  congr 1
  induction n with
  | zero => rfl
  | succ n ih => rw [List.replicate_succ, List.cons_append, components_slash, ih]

/-- The first component of a path that does not start with a slash. -/
theorem components_cons {c : UInt8} (s : List UInt8) (hc : c ≠ slash) :
    components (c :: s) = ((c :: s).takeWhile (· ≠ slash)).take DIRSIZ :: components ((c :: s).dropWhile (· ≠ slash)) := by
  have hword : components ((c :: s).takeWhile (· ≠ slash)) = [((c :: s).takeWhile (· ≠ slash)).take DIRSIZ] := by
    refine components_word ?_ fun b hb => ?_
    · rw [List.takeWhile_cons_of_pos (by simpa using hc)]
      exact List.cons_ne_nil _ _
    · simpa using (List.all_eq_true.mp List.all_takeWhile) b hb
  have hsplit : (c :: s).takeWhile (· ≠ slash) ++ (c :: s).dropWhile (· ≠ slash) = c :: s :=
    List.takeWhile_append_dropWhile
  have hhead := List.head?_dropWhile_not (fun b : UInt8 => decide (b ≠ slash)) (c :: s)
  cases hd : (c :: s).dropWhile (· ≠ slash) with
  | nil =>
    rw [hd, List.append_nil] at hsplit
    rw [hsplit] at hword ⊢
    rw [hword, components_nil]
  | cons b t =>
    rw [hd] at hhead hsplit
    have hb : b = slash := by simpa using hhead
    rw [show components (c :: s) = _ from congrArg components hsplit.symm, hb, components_append_slash, hword,
      components_slash]
    rfl

/-- A path without components is made of slashes. -/
theorem dropSlashes_of_components {path : List UInt8} (h : components path = []) : path.dropWhile (· = slash) = [] := by
  induction path with
  | nil => rfl
  | cons c path ih =>
    by_cases hc : c = slash
    · rw [hc, components_slash] at h
      rw [List.dropWhile_cons_of_pos (by simpa using hc), ih h]
    · rw [components_cons path hc] at h
      exact absurd h (List.cons_ne_nil _ _)

/-- **`skipelem`** splits off the first component; of a path with no other component nothing is left. -/
theorem skipelem_eq (path : List UInt8) :
    (skipelem path = none ∧ components path = []) ∨
      ∃ name rest, skipelem path = some (name, rest) ∧ components path = name :: components rest ∧
        rest.length < path.length ∧ (components rest = [] ↔ rest = []) := by
  rw [← components_dropSlashes path, skipelem]
  have hlen : (path.dropWhile (· = slash)).length ≤ path.length := (List.dropWhile_sublist _).length_le
  have hhead := List.head?_dropWhile_not (fun c : UInt8 => decide (c = slash)) path
  cases hs : path.dropWhile (· = slash) with
  | nil => exact Or.inl ⟨rfl, components_nil⟩
  | cons c s =>
    rw [hs] at hhead hlen
    have hc : c ≠ slash := by simpa using hhead
    have hrest : (c :: s).dropWhile (· ≠ slash) = s.dropWhile (· ≠ slash) :=
      List.dropWhile_cons_of_pos (by simpa using hc)
    refine Or.inr ⟨_, _, rfl, ?_, ?_, ?_⟩
    · rw [components_dropSlashes, components_cons s hc]
    · rw [hrest]
      refine Nat.lt_of_le_of_lt ((List.dropWhile_sublist _).trans (List.dropWhile_sublist _)).length_le ?_
      exact Nat.lt_of_succ_le hlen
    · rw [components_dropSlashes]
      refine ⟨dropSlashes_of_components, fun h => ?_⟩
      rw [← components_dropSlashes, h, components_nil]

/-! ## The walk on the disk -/

/-- The inode that the first entry of that name in directory `i` has; none in a file that is no directory. -/
def dirGet (sb : Superblock) (d : Disk) (i : Nat) (name : List UInt8) : Option Nat :=
  if (dmeta d i).type = T_DIR then
    (lookup (diskFile sb d i) name 0 (entries (dmeta d i).size)).map fun e => direntInum (diskFile sb d i) (16 * e)
  else none

/-- **What a list of components names** from inode `i` on. -/
def resolve (sb : Superblock) (d : Disk) (i : Nat) (cs : List (List UInt8)) : Option Nat := cs.foldlM (dirGet sb d) i

/-- The directory that the last of the components is looked up in, and that component. -/
def resolveParent (sb : Superblock) (d : Disk) (i : Nat) (cs : List (List UInt8)) : Option (Nat × List UInt8) := do
  let name ← cs.getLast?
  let p ← resolve sb d i cs.dropLast
  if (dmeta d p).type = T_DIR then some (p, name) else none

section Walk

variable {sb : Superblock} {d : Disk} {i : Nat} {name : List UInt8} {cs : List (List UInt8)}

theorem resolve_cons : resolve sb d i (name :: cs) = (dirGet sb d i name).bind fun j => resolve sb d j cs :=
  List.foldlM_cons ..

theorem resolveParent_nil : resolveParent sb d i [] = none := by
  simp [resolveParent]

theorem resolveParent_eq (hcs : cs ≠ []) : resolveParent sb d i cs =
    (resolve sb d i cs.dropLast).bind fun p => if (dmeta d p).type = T_DIR then some (p, cs.getLast hcs) else none := by
  rw [resolveParent, List.getLast?_eq_some_getLast hcs]
  rfl

theorem resolveParent_single :
    resolveParent sb d i [name] = if (dmeta d i).type = T_DIR then some (i, name) else none := by
  have hnil : resolve sb d i [name].dropLast = some i := rfl
  rw [resolveParent_eq (List.cons_ne_nil name []), hnil, Option.bind_some, List.getLast_singleton]

theorem resolveParent_cons (hcs : cs ≠ []) :
    resolveParent sb d i (name :: cs) = (dirGet sb d i name).bind fun j => resolveParent sb d j cs := by
  obtain ⟨c, cs, rfl⟩ := List.exists_cons_of_ne_nil hcs
  unfold resolveParent
  rw [List.getLast?_cons_cons, List.dropLast_cons_of_ne_nil hcs, resolve_cons]
  cases hl : (c :: cs).getLast? with
  | none => simp at hl
  | some last => cases dirGet sb d i name <;> rfl

theorem resolveParent_some {p : Nat} (h : resolveParent sb d i cs = some (p, name)) :
    resolve sb d i cs.dropLast = some p ∧ (dmeta d p).type = T_DIR := by
  unfold resolveParent at h
  obtain ⟨last, -, h⟩ := Option.bind_eq_some_iff.mp h
  obtain ⟨q, hq, h⟩ := Option.bind_eq_some_iff.mp h
  split at h
  · rename_i ht
    cases h
    exact ⟨hq, ht⟩
  · cases h

theorem resolve_concat : resolve sb d i (cs ++ [name]) = (resolve sb d i cs).bind fun p => dirGet sb d p name := by
  simp only [resolve, List.foldlM_append, List.foldlM_cons, List.foldlM_nil, bind_pure, Option.bind_eq_bind]

/-- **The last step** of the walk is a search in the parent. -/
theorem resolve_eq_parent (hcs : cs ≠ []) :
    resolve sb d i cs = (resolveParent sb d i cs).bind fun p => dirGet sb d p.1 p.2 := by
  conv_lhs => rw [← List.dropLast_append_getLast hcs]
  rw [resolve_concat, resolveParent_eq hcs, Option.bind_assoc]
  refine congrArg (Option.bind _) (funext fun p => ?_)
  by_cases ht : (dmeta d p).type = T_DIR
  · rw [if_pos ht, Option.bind_some]
  · rw [if_neg ht, Option.bind_none, dirGet, if_neg ht]

end Walk

/-! ## The walk of the code -/

/-- Inode `i` is in use and stays so: it has a link, or one of the references in `K`. -/
def Live (K : Multiset Slot) (s : Fs) (i : Nat) : Prop :=
  (dmeta (s.disk ROOTDEV) i).type ≠ 0 ∧
    ((dmeta (s.disk ROOTDEV) i).nlink ≠ 0 ∨ ∃ y ∈ K, (s.icache y).inum = i)

/-- **The directory tree.** The root is in use, and so is every inode that a directory in use names. -/
structure Tree (sb : Superblock) (K : Multiset Slot) (s : Fs) : Prop where
  root : Live K s ROOTINO
  entry : ∀ i < sb.ninodes, ∀ name j, Live K s i → dirGet sb (s.disk ROOTDEV) i name = some j → Live K s j

/-- A reference more or less, and nothing else: the disk is the same, and so is what `K` refers to. -/
structure Stays (B : Env) (K : Multiset Slot) (s : Fs) (refs : Multiset Slot) (held : Finset Slot) (s' : Fs) : Prop where
  ok : Ok B refs held s'
  disk : s'.disk = s.disk
  keeps : Keeps K s s'

/-- The panic of `iget` with at most one cache slot free. -/
def NoSlots (K : Multiset Slot) (e : Stop) (_ : Fs) : Prop := e = .panic "iget: no inodes" ∧ ∃ x, ∀ y, y ≠ x → y ∈ K

variable {B : Env} {K refs refs' : Multiset Slot} {held held' : Finset Slot} {s s1 s2 : Fs} {ip x : Slot} {i : Nat}

theorem Stays.trans (h : Stays B K s refs held s1) (h' : Stays B refs s1 refs' held' s2) (hK : K ⊆ refs) :
    Stays B K s refs' held' s2 :=
  ⟨h'.ok, h'.disk.trans h.disk, h.keeps.trans (h'.keeps.mono hK)⟩

theorem live_iff (hd : s1.disk = s.disk) (hk : Keeps K s s1) : Live K s1 i ↔ Live K s i := by
  have hex : (∃ y ∈ K, (s1.icache y).inum = i) ↔ ∃ y ∈ K, (s.icache y).inum = i :=
    exists_congr fun y => and_congr_right fun hy => by rw [hk.inum y hy]
  rw [Live, Live, hd, hex]

theorem Live.cons {y : Slot} (h : Live K s i) : Live (y ::ₘ K) s i :=
  ⟨h.1, h.2.imp id fun ⟨z, hz, hi⟩ => ⟨z, Multiset.mem_cons_of_mem hz, hi⟩⟩

theorem Tree.of {sb : Superblock} (h : Tree sb K s) (hd : s1.disk = s.disk) (hk : Keeps K s s1) : Tree sb K s1 := by
  refine ⟨(live_iff hd hk).mpr h.root, fun i hlt name j hi hj => ?_⟩
  rw [hd] at hj
  exact (live_iff hd hk).mpr (h.entry i hlt name j ((live_iff hd hk).mp hi) hj)

/-! ### One component -/

theorem ilock_stays (h : Ok B (ip ::ₘ K) ∅ s) (hl : Live K s (s.icache ip).inum) :
    wp (ilock ip) (fun _ s' => Stays B (ip ::ₘ K) s (ip ::ₘ K) {ip} s') (fun _ _ => False) s := by
  refine wp_mono (ilock_spec h.core Ok.clean (Multiset.mem_cons_self ip K) (Finset.notMem_empty ip)) ?_ ?_
  · rintro _ s' ⟨hc, hd, hk⟩
    exact ⟨h.of_disk hd hc, hd, hk⟩
  · rintro e _ ⟨-, h0⟩
    exact hl.1 h0

theorem iunlock_stays (h : Ok B refs {ip} s) :
    wp (iunlock ip) (fun _ s' => Stays B refs s refs ∅ s') (fun _ _ => False) s := by
  refine wp_mono (iunlock_spec h.core (Finset.mem_singleton_self ip)) ?_ fun _ _ hf => hf
  rintro _ s' ⟨hc, hd, hk⟩
  rw [show (onDisk B refs {ip} s).held.erase ip = ∅ from Finset.erase_singleton ip] at hc
  exact ⟨h.of_disk hd hc, hd, hk⟩

/-- Dropping a reference to an inode that lives on frees nothing. -/
theorem iput_stays (h : Ok B (ip ::ₘ K) held s) (hl : Live K s (s.icache ip).inum) (hx : ip ∈ held → ip ∈ K) :
    wp (iput ip) (fun _ s' => Stays B K s K held s') (fun _ _ => False) s := by
  have hd : ¬ Dies (onDisk B (ip ::ₘ K) held s) s ip := by
    rintro ⟨h1, -, h0⟩
    rcases hl.2 with hn | ⟨y, hy, hi⟩
    · exact hn h0
    · have hyx := h.core.cache.uniq y (Multiset.mem_cons_of_mem hy) ip (Multiset.mem_cons_self ip K) hi
      rw [hyx] at hy
      have hpos := Multiset.count_pos.mpr hy
      rw [show (onDisk B (ip ::ₘ K) held s).refs = ip ::ₘ K from rfl, Multiset.count_cons_self] at h1
      omega
  refine wp_post (iput_keep h.core rfl hx hd) ?_
  rintro _ s' ⟨rfl, hc, hk⟩
  exact ⟨h.of_disk rfl hc, rfl, hk⟩

theorem iunlockput_stays (h : Ok B (ip ::ₘ K) held s) (hin : ip ∈ held) (hl : Live K s (s.icache ip).inum) :
    wp (iunlockput ip) (fun _ s' => Stays B K s K (held.erase ip) s') (fun _ _ => False) s := by
  unfold iunlockput
  rw [wp_bind]
  refine wp_post (iunlock_spec h.core hin) ?_
  rintro _ s1 ⟨hc, hd, hk⟩
  have hkK := hk.mono (Multiset.subset_cons K ip)
  refine wp_post (iput_stays (h.of_disk hd hc) ?_ fun hc => absurd hc (Finset.notMem_erase ip held)) ?_
  · rw [hk.inum ip (Multiset.mem_cons_self ip K)]
    exact (live_iff hd hkK).mpr hl
  · rintro _ s2 h2
    exact ⟨h2.ok, h2.disk.trans hd, hkK.trans h2.keeps⟩

/-- The lock that `namex` took is the only one. -/
theorem iunlockput_only (h : Ok B (ip ::ₘ K) {ip} s) (hl : Live K s (s.icache ip).inum) :
    wp (iunlockput ip) (fun _ s' => Stays B K s K ∅ s') (fun _ _ => False) s := by
  have hput := iunlockput_stays h (Finset.mem_singleton_self ip) hl
  rwa [Finset.erase_singleton] at hput

/-- **`dirlookup`** is the search on the disk, and takes a reference to what it found. -/
theorem dirlookup_get {name : List UInt8} (h : Ok B refs held s) (hx : x ∈ refs) (hv : (s.icache x).valid = true)
    (ht : (dmeta (s.disk ROOTDEV) (s.icache x).inum).type = T_DIR) :
    wp (dirlookup x name)
      (fun r s' => r.map (fun q => (s'.icache q.1).inum) = dirGet B.sb (s.disk ROOTDEV) (s.icache x).inum name ∧
        Stays B refs s (r.elim refs fun q => q.1 ::ₘ refs) held s')
      (fun e _ => e = .panic "iget: no inodes" ∧ ∀ y, y ∈ refs) s := by
  have hlt := (h.core.cache.inum x hx).2
  have hget : dirGet B.sb (s.disk ROOTDEV) (s.icache x).inum name =
      (lookup ((onDisk B refs held s).file s (s.icache x).inum) name 0
        (entries ((onDisk B refs held s).tbl (s.icache x).inum).size)).map fun e =>
          direntInum ((onDisk B refs held s).file s (s.icache x).inum) (16 * e) := if_pos ht
  refine wp_post (dirlookup_spec h.core hx hv ht (h.dirs _ hlt ht)) ?_
  intro r s' hr
  split at hr
  · rename_i hl
    obtain ⟨rfl, rfl⟩ := hr
    refine ⟨?_, h, rfl, Keeps.refl refs _⟩
    rw [hget, hl]
    rfl
  · rename_i e hl
    obtain ⟨y, rfl, hy⟩ := hr
    refine ⟨?_, h.of_disk hy.disk hy.core, hy.disk, hy.keeps⟩
    rw [hget, hl, Option.map_some, Option.map_some, hy.inum]

/-- The result of a walk from inode `i` is what the components name. -/
def Answers (sb : Superblock) (d : Disk) (parent : Bool) (i : Nat) (cs : List (List UInt8))
    (r : Option (Slot × List UInt8)) (s' : Fs) : Prop :=
  if parent then r.map (fun q => ((s'.icache q.1).inum, q.2)) = resolveParent sb d i cs
  else r.map (fun q => (s'.icache q.1).inum) = resolve sb d i cs

section Answers

variable {sb : Superblock} {d : Disk} {parent : Bool} {name rest : List UInt8} {r : Option (Slot × List UInt8)}

/-- Nothing is found below a file that is no directory. -/
theorem answers_notDir {cs : List (List UInt8)} (ht : (dmeta d i).type ≠ T_DIR) :
    Answers sb d parent i (name :: cs) none s := by
  have hget : dirGet sb d i name = none := if_neg ht
  unfold Answers
  split
  · by_cases hcs : cs = []
    · rw [hcs, resolveParent_single, if_neg ht]; rfl
    · rw [resolveParent_cons hcs, hget]; rfl
  · rw [resolve_cons, hget]; rfl

/-- Nor when the component is missing, unless the walk stops before it. -/
theorem answers_missing {cs : List (List UInt8)} (hstop : ¬ (parent = true ∧ cs = [])) (hget : dirGet sb d i name = none) :
    Answers sb d parent i (name :: cs) none s := by
  unfold Answers
  split
  · rename_i hp
    rw [resolveParent_cons fun hcs => hstop ⟨hp, hcs⟩, hget]; rfl
  · rw [resolve_cons, hget]; rfl

/-- A component that is found leaves the others to walk. -/
theorem Answers.cons {cs : List (List UInt8)} {j : Nat} (h : Answers sb d parent j cs r s)
    (hstop : ¬ (parent = true ∧ cs = [])) (hget : dirGet sb d i name = some j) :
    Answers sb d parent i (name :: cs) r s := by
  unfold Answers at h ⊢
  split
  · rename_i hp
    rw [if_pos hp] at h
    rw [resolveParent_cons fun hcs => hstop ⟨hp, hcs⟩, hget]; exact h
  · rename_i hp
    rw [if_neg hp] at h
    rw [resolve_cons, hget]; exact h

end Answers

/-- What one iteration of `namex` at inode `i` leads to, with `name` the component and `rest` the path after it. -/
def Stepped (B : Env) (K : Multiset Slot) (s : Fs) (parent : Bool) (i : Nat) (name rest : List UInt8) (w : Walk) (s' : Fs) :
    Prop :=
  match w with
  | .done r => Stays B K s (r.elim K fun y => y ::ₘ K) ∅ s' ∧
      Answers B.sb (s.disk ROOTDEV) parent i (name :: components rest) (r.map (·, name)) s'
  | .next y => Stays B K s (y ::ₘ K) ∅ s' ∧ ¬ (parent = true ∧ components rest = []) ∧
      dirGet B.sb (s.disk ROOTDEV) i name = some (s'.icache y).inum

theorem namexElem_walk {parent : Bool} {name rest : List UInt8} (h : Ok B (ip ::ₘ K) ∅ s)
    (hl : Live K s (s.icache ip).inum) (hrest : components rest = [] ↔ rest = []) :
    wp (namexElem parent ip name rest) (Stepped B K s parent (s.icache ip).inum name rest) (NoSlots K) s := by
  have hin : ip ∈ ip ::ₘ K := Multiset.mem_cons_self ip K
  have hsub : K ⊆ ip ::ₘ K := Multiset.subset_cons K ip
  unfold namexElem
  rw [wp_bind]
  refine wp_mono (ilock_stays h hl) ?_ fun _ _ hf => hf.elim
  rintro _ s1 h1
  have hi1 := h1.keeps.inum ip hin
  obtain ⟨-, hv1⟩ := h1.ok.locked (Finset.mem_singleton_self ip)
  have htype : (s1.icache ip).type = (dmeta (s.disk ROOTDEV) (s.icache ip).inum).type := by
    rw [← hi1, ← h1.disk]
    exact congrArg Meta.type (h1.ok.core.live hin hv1).1
  have hlive : ∀ {refs s2}, Stays B (ip ::ₘ K) s refs {ip} s2 → Live K s2 (s2.icache ip).inum := by
    intro refs s2 h2
    rw [h2.keeps.inum ip hin]
    exact (live_iff h2.disk (h2.keeps.mono hsub)).mpr hl
  -- leaving without a result drops the only reference taken
  have hput : ∀ {s2}, Stays B (ip ::ₘ K) s (ip ::ₘ K) {ip} s2 →
      Answers B.sb (s.disk ROOTDEV) parent (s.icache ip).inum (name :: components rest) none s →
      wp (do iunlockput ip; return Walk.done none) (Stepped B K s parent (s.icache ip).inum name rest) (NoSlots K) s2 := by
    intro s2 h2 hans
    rw [wp_bind]
    refine wp_mono (iunlockput_only h2.ok (hlive h2)) ?_ fun _ _ hf => hf.elim
    rintro _ s3 h3
    exact ⟨⟨h3.ok, h3.disk.trans h2.disk, (h2.keeps.mono hsub).trans h3.keeps⟩, hans⟩
  rw [wp_bind, wp_inode, wp_ite]
  refine ⟨fun ht => hput h1 (answers_notDir (by rwa [← htype])), fun ht => ?_⟩
  rw [htype, not_not] at ht
  rw [wp_ite]
  refine ⟨?_, fun hstop => ?_⟩
  · rintro ⟨rfl, rfl⟩
    rw [wp_bind]
    refine wp_mono (iunlock_stays h1.ok) ?_ fun _ _ hf => hf.elim
    rintro _ s2 h2
    refine ⟨⟨h2.ok, h2.disk.trans h1.disk, (h1.keeps.trans h2.keeps).mono hsub⟩, ?_⟩
    rw [Answers, if_pos rfl, components_nil, resolveParent_single, if_pos ht]
    simp [h2.keeps.inum ip hin, hi1]
  · rw [← hrest] at hstop
    rw [wp_bind]
    refine wp_mono (dirlookup_get h1.ok hin hv1 (by rw [hi1, h1.disk]; exact ht)) ?_ ?_
    · rintro (_ | ⟨next, off⟩) s2 ⟨hget, h2⟩
      · rw [hi1, h1.disk] at hget
        exact hput (h1.trans h2 (Multiset.Subset.refl _)) (answers_missing hstop hget.symm)
      · rw [hi1, h1.disk] at hget
        have h12 := h1.trans h2 (Multiset.Subset.refl _)
        have hok : Ok B (ip ::ₘ next ::ₘ K) {ip} s2 := by
          rw [Multiset.cons_swap]; exact h2.ok
        simp only [wp_bind]
        refine wp_mono (iunlockput_only hok (hlive h12).cons) ?_ fun _ _ hf => hf.elim
        rintro _ s3 h3
        refine ⟨⟨h3.ok, h3.disk.trans h12.disk, ?_⟩, hstop, ?_⟩
        · exact (h12.keeps.mono hsub).trans (h3.keeps.mono (Multiset.subset_cons K next))
        · rw [h3.keeps.inum next (Multiset.mem_cons_self next K)]
          exact hget.symm
    · rintro e _ ⟨rfl, hall⟩
      exact ⟨rfl, ip, fun y hy => (Multiset.mem_cons.mp (hall y)).resolve_left hy⟩

/-! ### Whole paths -/

/-- **The loop of `namex`** computes the fold; the fuel is never used up. -/
theorem namexFrom_walk {parent : Bool} (fuel : Nat) : ∀ (s : Fs) (ip : Slot) (path name : List UInt8),
    path.length < fuel → Ok B (ip ::ₘ K) ∅ s → Tree B.sb K s → Live K s (s.icache ip).inum →
    wp (namexFrom parent fuel ip path name)
      (fun r s' => Stays B K s (r.elim K fun q => q.1 ::ₘ K) ∅ s' ∧
        Answers B.sb (s.disk ROOTDEV) parent (s.icache ip).inum (components path) r s')
      (NoSlots K) s := by
  induction fuel with
  | zero => intro s ip path name hlt; exact absurd hlt (Nat.not_lt_zero _)
  | succ fuel ih =>
    intro s ip path name hlt h ht hl
    unfold namexFrom
    rcases skipelem_eq path with ⟨he, hcs⟩ | ⟨name', rest, he, hcs, hlen, hrest⟩
    · rw [he, hcs]
      cases parent with
      | false => exact ⟨⟨h, rfl, Keeps.refl K s⟩, rfl⟩
      | true =>
        show wp (do iput ip; return none) _ _ s
        rw [wp_bind]
        refine wp_mono (iput_stays h hl fun hc => absurd hc (Finset.notMem_empty ip)) ?_ fun _ _ hf => hf.elim
        rintro _ s1 h1
        exact ⟨h1, resolveParent_nil.symm⟩
    · rw [he, hcs]
      simp only [wp_bind]
      refine wp_post (namexElem_walk h hl hrest) ?_
      rintro (r | next) s1 hw
      · obtain ⟨hst, hans⟩ := hw
        refine ⟨?_, hans⟩
        cases r <;> exact hst
      · obtain ⟨hst, hstop, hget⟩ := hw
        have hlt := (h.core.cache.inum ip (Multiset.mem_cons_self ip K)).2
        have hlive : Live K s1 (s1.icache next).inum := (live_iff hst.disk hst.keeps).mpr (ht.entry _ hlt _ _ hl hget)
        refine wp_post (ih s1 next rest name' (by omega) hst.ok (ht.of hst.disk hst.keeps) hlive) ?_
        rintro r s2 ⟨h2, hans⟩
        rw [hst.disk] at hans
        exact ⟨⟨h2.ok, h2.disk.trans hst.disk, hst.keeps.trans h2.keeps⟩, hans.cons hstop hget⟩

/-- The inode that the walk of a path starts at. -/
def startInum (s : Fs) (cwd : Slot) (path : List UInt8) : Nat :=
  if path.head? = some slash then ROOTINO else (s.icache cwd).inum

theorem namex_walk {parent : Bool} {cwd : Slot} {path : List UInt8} (h : Ok B K ∅ s) (ht : Tree B.sb K s) (hcwd : cwd ∈ K)
    (hl : Live K s (s.icache cwd).inum) :
    wp (namex cwd path parent)
      (fun r s' => Stays B K s (r.elim K fun q => q.1 ::ₘ K) ∅ s' ∧
        Answers B.sb (s.disk ROOTDEV) parent (startInum s cwd path) (components path) r s')
      (NoSlots K) s := by
  have hstart : wp (namexStart cwd path)
      (fun ip s' => Stays B K s (ip ::ₘ K) ∅ s' ∧ (s'.icache ip).inum = startInum s cwd path) (NoSlots K) s := by
    unfold namexStart startInum
    by_cases habs : path.head? = some slash
    · rw [if_pos habs, if_pos habs]
      refine wp_mono (iget_spec h.core ⟨Nat.le_refl 1, h.core.vol.alloc.ok.inodes⟩) ?_ ?_
      · rintro y s' ⟨hc, hd, hi, hk, -⟩
        exact ⟨⟨h.of_disk hd hc, hd, hk⟩, hi⟩
      · rintro e _ ⟨rfl, hall⟩
        exact ⟨rfl, cwd, fun y _ => hall y⟩
    · rw [if_neg habs, if_neg habs]
      refine wp_mono (idup_spec h.core hcwd) ?_ fun _ _ hf => hf.elim
      rintro y s' ⟨rfl, hc, hd, hk⟩
      exact ⟨⟨h.of_disk hd hc, hd, hk⟩, hk.inum y hcwd⟩
  have hlive : Live K s (startInum s cwd path) := by
    unfold startInum
    split
    · exact ht.root
    · exact hl
  unfold namex
  rw [wp_bind]
  refine wp_post hstart ?_
  rintro ip s1 ⟨h1, hi⟩
  refine wp_post (namexFrom_walk _ s1 ip path [] (Nat.lt_succ_self _) h1.ok (ht.of h1.disk h1.keeps) ?_) ?_
  · rw [hi]; exact (live_iff h1.disk h1.keeps).mpr hlive
  · rintro r s2 ⟨h2, hans⟩
    rw [hi, h1.disk] at hans
    exact ⟨⟨h2.ok, h2.disk.trans h1.disk, h1.keeps.trans h2.keeps⟩, hans⟩

/-- `namei` names inode `t`, and `nameiparent` the directory and the component `p`; both take the reference they
    return and leave the rest as it is. -/
structure Resolves (B : Env) (K : Multiset Slot) (s : Fs) (cwd : Slot) (path : List UInt8) (t : Option Nat)
    (p : Option (Nat × List UInt8)) : Prop where
  target : wp (namei cwd path)
    (fun r s' => r.map (fun y => (s'.icache y).inum) = t ∧ Stays B K s (r.elim K fun y => y ::ₘ K) ∅ s') (NoSlots K) s
  parent : wp (nameiparent cwd path)
    (fun r s' => r.map (fun q => ((s'.icache q.1).inum, q.2)) = p ∧ Stays B K s (r.elim K fun q => q.1 ::ₘ K) ∅ s')
    (NoSlots K) s

section Resolves

variable {cwd : Slot} {path : List UInt8}

theorem resolves (h : Ok B K ∅ s) (ht : Tree B.sb K s) (hcwd : cwd ∈ K) (hl : Live K s (s.icache cwd).inum) :
    Resolves B K s cwd path (resolve B.sb (s.disk ROOTDEV) (startInum s cwd path) (components path))
      (resolveParent B.sb (s.disk ROOTDEV) (startInum s cwd path) (components path)) := by
  constructor
  · unfold namei
    rw [wp_bind]
    refine wp_post (namex_walk h ht hcwd hl) ?_
    rintro r s' ⟨hst, hans⟩
    cases r <;> exact ⟨hans, hst⟩
  · refine wp_post (namex_walk h ht hcwd hl) ?_
    rintro r s' ⟨hst, hans⟩
    exact ⟨hans, hst⟩

/-- Only the components count, and whether the path starts with a slash. -/
theorem resolves_of_components {path' : List UInt8} (h : Ok B K ∅ s) (ht : Tree B.sb K s) (hcwd : cwd ∈ K)
    (hl : Live K s (s.icache cwd).inum) (hcs : components path' = components path) (hhead : path'.head? = path.head?) :
    Resolves B K s cwd path' (resolve B.sb (s.disk ROOTDEV) (startInum s cwd path) (components path))
      (resolveParent B.sb (s.disk ROOTDEV) (startInum s cwd path) (components path)) := by
  have hr := @resolves B K s cwd path' h ht hcwd hl
  rwa [hcs, startInum, hhead] at hr

theorem dirGet_live (h : Ok B K held s) (ht : Tree B.sb K s) {name : List UInt8} {j : Nat} (hi : i < B.sb.ninodes)
    (hl : Live K s i) (hget : dirGet B.sb (s.disk ROOTDEV) i name = some j) : j < B.sb.ninodes ∧ Live K s j := by
  refine ⟨?_, ht.entry i hi name j hl hget⟩
  unfold dirGet at hget
  split at hget
  · rename_i htype
    obtain ⟨e, -, rfl⟩ := Option.map_eq_some_iff.mp hget
    exact h.dirs i hi htype e
  · cases hget

theorem resolve_live (h : Ok B K held s) (ht : Tree B.sb K s) (cs : List (List UInt8)) : ∀ {i j : Nat},
    i < B.sb.ninodes → Live K s i → resolve B.sb (s.disk ROOTDEV) i cs = some j → Live K s j := by
  induction cs with
  | nil =>
    intro i j _ hl hr
    cases hr
    exact hl
  | cons name cs ih =>
    intro i j hi hl hr
    rw [resolve_cons] at hr
    obtain ⟨k, hget, hk⟩ := Option.bind_eq_some_iff.mp hr
    obtain ⟨hlt, hlive⟩ := dirGet_live h ht hi hl hget
    exact ih hlt hlive hk

theorem startInum_live (h : Ok B K ∅ s) (ht : Tree B.sb K s) (hcwd : cwd ∈ K) (hl : Live K s (s.icache cwd).inum) :
    startInum s cwd path < B.sb.ninodes ∧ Live K s (startInum s cwd path) := by
  unfold startInum
  split
  · exact ⟨h.core.vol.alloc.ok.inodes, ht.root⟩
  · exact ⟨(h.core.cache.inum cwd hcwd).2, hl⟩

/-- What `namei` returns is in use. -/
theorem namei_live (h : Ok B K ∅ s) (ht : Tree B.sb K s) (hcwd : cwd ∈ K) (hl : Live K s (s.icache cwd).inum) :
    wp (namei cwd path)
      (fun r s' => r.map (fun y => (s'.icache y).inum) =
          resolve B.sb (s.disk ROOTDEV) (startInum s cwd path) (components path) ∧
        Stays B K s (r.elim K fun y => y ::ₘ K) ∅ s' ∧ ∀ y ∈ r, Live K s' (s'.icache y).inum) (NoSlots K) s := by
  obtain ⟨hlt, hlive⟩ := @startInum_live B K s cwd path h ht hcwd hl
  refine wp_post (resolves h ht hcwd hl).target ?_
  rintro r s1 ⟨hr, h1⟩
  refine ⟨hr, h1, fun y hy => ?_⟩
  obtain rfl := Option.mem_def.mp hy
  exact (live_iff h1.disk h1.keeps).mpr (resolve_live h ht _ hlt hlive hr.symm)

/-- What `nameiparent` returns is a directory in use. -/
theorem nameiparent_live (h : Ok B K ∅ s) (ht : Tree B.sb K s) (hcwd : cwd ∈ K) (hl : Live K s (s.icache cwd).inum) :
    wp (nameiparent cwd path)
      (fun r s' => r.map (fun q => ((s'.icache q.1).inum, q.2)) =
          resolveParent B.sb (s.disk ROOTDEV) (startInum s cwd path) (components path) ∧
        Stays B K s (r.elim K fun q => q.1 ::ₘ K) ∅ s' ∧
        ∀ q ∈ r, Live K s' (s'.icache q.1).inum ∧ (dmeta (s.disk ROOTDEV) (s'.icache q.1).inum).type = T_DIR)
      (NoSlots K) s := by
  obtain ⟨hlt, hlive⟩ := @startInum_live B K s cwd path h ht hcwd hl
  refine wp_post (resolves h ht hcwd hl).parent ?_
  rintro r s1 ⟨hr, h1⟩
  refine ⟨hr, h1, fun q hq => ?_⟩
  obtain rfl := Option.mem_def.mp hq
  obtain ⟨hres, htype⟩ := resolveParent_some hr.symm
  exact ⟨(live_iff h1.disk h1.keeps).mpr (resolve_live h ht _ hlt hlive hres), htype⟩

/-- The search for the last component of a path in the directory that `nameiparent` gives. -/
def lookupInParent (cwd : Slot) (path : List UInt8) : FsM (Option Slot) := do
  match ← nameiparent cwd path with
  | none => return none
  | some (dp, name) =>
    ilock dp
    return (← dirlookup dp name).map Prod.fst

theorem lookupInParent_get (h : Ok B K ∅ s) (ht : Tree B.sb K s) (hcwd : cwd ∈ K) (hl : Live K s (s.icache cwd).inum) :
    wp (lookupInParent cwd path)
      (fun r s' => r.map (fun y => (s'.icache y).inum) =
        (resolveParent B.sb (s.disk ROOTDEV) (startInum s cwd path) (components path)).bind fun p =>
          dirGet B.sb (s.disk ROOTDEV) p.1 p.2) (NoSlots K) s := by
  unfold lookupInParent
  rw [wp_bind]
  refine wp_post (nameiparent_live h ht hcwd hl) ?_
  rintro (_ | ⟨dp, name⟩) s1 ⟨hp, h1, hdir⟩
  · rw [← hp]; rfl
  · rw [← hp]
    obtain ⟨hlive, htype⟩ := hdir _ rfl
    have hin : dp ∈ dp ::ₘ K := Multiset.mem_cons_self dp K
    simp only [wp_bind]
    refine wp_mono (ilock_stays h1.ok hlive) ?_ fun _ _ hf => hf.elim
    rintro _ s2 h2
    have hi2 := h2.keeps.inum dp hin
    have hd2 := h2.disk.trans h1.disk
    refine wp_mono (dirlookup_get h2.ok hin (h2.ok.locked (Finset.mem_singleton_self dp)).2
      (by rw [hi2, hd2]; exact htype)) ?_ ?_
    · rintro r s3 ⟨hget, -⟩
      rw [hi2, hd2] at hget
      rw [wp_pure, Option.map_map, Option.map_some, Option.bind_some, ← hget]
      rfl
    · rintro e _ ⟨rfl, hall⟩
      exact ⟨rfl, dp, fun y hy => (Multiset.mem_cons.mp (hall y)).resolve_left hy⟩

/-- **Path resolution.** `namei` is the left fold of the directory search over the components of the path, from the
    root or the current directory; `nameiparent` is the fold over all but the last of them, with the last one; the
    search for the last component in the parent is the whole fold; and runs of slashes between or after the
    components do not matter. -/
theorem namei_eq_fold (h : Ok B K ∅ s) (ht : Tree B.sb K s) (hcwd : cwd ∈ K) (hl : Live K s (s.icache cwd).inum) :
    let fold := resolve B.sb (s.disk ROOTDEV) (startInum s cwd path) (components path)
    let parent := resolveParent B.sb (s.disk ROOTDEV) (startInum s cwd path) (components path)
    Resolves B K s cwd path fold parent ∧
      (components path ≠ [] → fold = parent.bind (fun p => dirGet B.sb (s.disk ROOTDEV) p.1 p.2) ∧
        wp (lookupInParent cwd path) (fun r s' => r.map (fun y => (s'.icache y).inum) = fold) (NoSlots K) s) ∧
      (∀ a b n, path = a ++ slash :: b → Resolves B K s cwd (a ++ List.replicate (n + 1) slash ++ b) fold parent) ∧
      ∀ n, path ≠ [] → Resolves B K s cwd (path ++ List.replicate n slash) fold parent := by
  refine ⟨resolves h ht hcwd hl, fun hcs => ⟨resolve_eq_parent hcs, ?_⟩, fun a b n hpath => ?_, fun n hne => ?_⟩
  · rw [resolve_eq_parent hcs]
    exact lookupInParent_get h ht hcwd hl
  · refine resolves_of_components h ht hcwd hl ?_ ?_
    · rw [hpath, components_slashes, components_append_slash]
    · rw [hpath]
      cases a <;> rfl
  · refine resolves_of_components h ht hcwd hl ?_ ?_
    · cases n with
      | zero => rw [List.replicate_zero, List.append_nil]
      | succ n =>
        have hc := components_slashes path [] n
        rwa [List.append_nil, components_nil, List.append_nil] at hc
    · rw [List.head?_append_of_ne_nil _ hne]

end Resolves

/-! ## A disk that `mkfs` made -/

theorem mkfsImage_boot_clean : Clean mkfsImage.ghost (mkfsImage.boot 1) :=
  fun i hi => Image.dmeta_eq hi (mkfsImage_sound.fits i)

theorem mkfsImage_boot_ok : Ok mkfsImage.ghost.toEnv {0} ∅ (mkfsImage.boot 1) := by
  have hcore : Core mkfsImage.ghost (mkfsImage.boot 1) := mkfsImage_sound.core mkfsImage_zero (by decide) (by decide)
  refine ⟨(Ok.of hcore mkfsImage_boot_clean fun i hi ht e => ?_).core, mkfsImage_entries⟩
  rw [← onDisk_file mkfsImage_boot_clean]
  exact mkfsImage_entries i hi ((congrArg Meta.type (mkfsImage_boot_clean i hi)).trans ht) e

/-- The files of the root are the root itself and `f`. -/
theorem mkfsImage_tree {K : Multiset Slot} {s : Fs} (hd : s.disk ROOTDEV = mkfsImage.disk) : Tree mkfsImage.sb K s := by
  have hlive : ∀ i, i = 1 ∨ i = 2 → Live K s i := by
    unfold Live
    rw [hd]
    rintro i (rfl | rfl) <;> exact ⟨by decide +kernel, .inl (by decide +kernel)⟩
  have hdir : ∀ i < mkfsImage.sb.ninodes, (mkfsImage.tbl i).type = T_DIR → i = 1 := by decide +kernel
  have hent : ∀ e < entries (dmeta mkfsImage.disk 1).size, direntInum (diskFile mkfsImage.sb mkfsImage.disk 1) (16 * e) ≤ 2 := by
    decide +kernel
  refine ⟨hlive 1 (.inl rfl), fun i hi name j _ hget => hlive j ?_⟩
  rw [hd] at hget
  unfold dirGet at hget
  split at hget
  · rename_i ht
    obtain rfl := hdir i hi ((congrArg Meta.type (mkfsImage_boot_clean i hi)).symm.trans ht)
    obtain ⟨e, he, rfl⟩ := Option.map_eq_some_iff.mp hget
    obtain ⟨⟨-, hlt⟩, h0, -⟩ := lookup_some he
    have hle := hent e (by rwa [Nat.zero_add] at hlt)
    omega
  · cases hget

/-- The path `f` from the root directory of that disk, and with a slash after it. -/
theorem namei_eq_fold_mkfs :
    Resolves mkfsImage.ghost.toEnv {0} (mkfsImage.boot 1) 0 [102] (some 2) (some (1, [102])) ∧
      Resolves mkfsImage.ghost.toEnv {0} (mkfsImage.boot 1) 0 [102, slash] (some 2) (some (1, [102])) := by
  have hfold := @namei_eq_fold mkfsImage.ghost.toEnv {0} (mkfsImage.boot 1) 0 [102] mkfsImage_boot_ok (mkfsImage_tree rfl)
    (Multiset.mem_singleton_self 0) (mkfsImage_tree rfl).root
  have hres : resolve mkfsImage.ghost.sb ((mkfsImage.boot 1).disk ROOTDEV) (startInum (mkfsImage.boot 1) 0 [102])
      (components [102]) = some 2 := by decide +kernel
  have hpar : resolveParent mkfsImage.ghost.sb ((mkfsImage.boot 1).disk ROOTDEV) (startInum (mkfsImage.boot 1) 0 [102])
      (components [102]) = some (1, [102]) := by decide +kernel
  rw [hres, hpar] at hfold
  exact ⟨hfold.1, hfold.2.2.2 1 (List.cons_ne_nil _ _)⟩

end Xv6
