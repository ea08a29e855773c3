import Xv6.Fs.DirSpec
import Xv6.Fs.Image
import Xv6.Lib.SlotTable

/-!
# `Fs.DirMap` — a directory is a finite map

Of a name only the first `DIRSIZ` bytes count, up to a NUL. The entries of a directory form a table of slots with
such names as keys, so a directory stands for a finite map from names to inode numbers. `dirlink` and the clearing
of an entry in `sys_unlink` are insertion and removal, and the three loops that scan a directory agree on it.

## Contents
- **Names.** `key`, `namecmp_eq_zero`.
- **Tables.** `entryAt`, `IsDir`; `IsDir.lookup_eq`, `IsDir.link`, `IsDir.clear`.
- **Abstract model.** `DirOp`, `DirSpec.step`, `DirSpec.run`.
- **Refinement.** `DirOp.run_spec` for one call, `runDirOps_spec` for a run; `directory_is_map`.
-/

namespace Xv6

open Bytes Hoare Ownership SlotTable

/-! ## Names -/

/-- The first `n` bytes of a string, up to a NUL. -/
def cut (n : Nat) (p : List UInt8) : List UInt8 := (p.take n).takeWhile (· ≠ 0)

/-- What counts of a name. -/
def key (name : List UInt8) : List UInt8 := cut DIRSIZ name

theorem cut_succ (n : Nat) (p : List UInt8) :
    cut (n + 1) p = if p.headD 0 = 0 then [] else p.headD 0 :: cut n p.tail := by
  cases p with
  | nil => rfl
  | cons a p =>
    rw [cut, List.take_succ_cons, List.takeWhile_cons, List.headD_cons, List.tail_cons]
    by_cases ha : a = 0
    · rw [if_pos ha, if_neg (by simpa using ha)]
    · rw [if_neg ha, if_pos (by simpa using ha)]
      rfl

theorem strncmp_eq_zero (n : Nat) : ∀ p q : List UInt8, strncmp p q n = 0 ↔ cut n p = cut n q := by
  induction n with
  | zero => intro p q; exact iff_of_true rfl rfl
  | succ n ih =>
    intro p q
    rw [strncmp, cut_succ, cut_succ]
    have hdiff : ((p.headD 0).toNat : Int) - (q.headD 0).toNat = 0 ↔ p.headD 0 = q.headD 0 := by
      rw [Int.sub_eq_zero, Int.natCast_inj, UInt8.toNat_inj]
    by_cases hp : p.headD 0 = 0
    · rw [if_neg fun hc => hc.1 hp, hdiff, if_pos hp, hp]
      by_cases hq : q.headD 0 = 0
      · rw [if_pos hq, hq]
        exact iff_of_true rfl rfl
      · rw [if_neg hq]
        exact iff_of_false (Ne.symm hq) (List.cons_ne_nil _ _).symm
    · rw [if_neg hp]
      by_cases hpq : p.headD 0 = q.headD 0
      · rw [if_pos ⟨hp, hpq⟩, if_neg (hpq ▸ hp), hpq, List.cons.injEq, ih]
        exact (and_iff_right rfl).symm
      · rw [if_neg fun hc => hpq hc.2, hdiff]
        refine iff_of_false hpq fun hc => ?_
        split at hc
        · cases hc
        · exact hpq (List.cons.inj hc).1

theorem namecmp_eq_zero {p q : List UInt8} : namecmp p q = 0 ↔ key p = key q := strncmp_eq_zero DIRSIZ p q

/-- Zeros behind a string do not count. -/
theorem cut_append_zeros (n : Nat) : ∀ (p : List UInt8) (m : Nat), cut n (p ++ List.replicate m 0) = cut n p := by
  induction n with
  | zero => intro p m; rfl
  | succ n ih =>
    intro p m
    rw [cut_succ, cut_succ]
    cases p with
    | nil => cases m <;> rfl
    | cons a p => rw [List.cons_append, List.headD_cons, List.headD_cons, List.tail_cons, List.tail_cons, ih]

theorem cut_take (n : Nat) (p : List UInt8) : cut n (p.take n) = cut n p := by
  rw [cut, List.take_take, Nat.min_self, cut]

/-- A name is stored with all that counts of it. -/
theorem key_direntBytes (inum : Nat) (name : List UInt8) : key (direntName (direntBytes inum name) 0) = key name := by
  have hname : direntName (direntBytes inum name) 0 = name.take DIRSIZ ++ List.replicate (DIRSIZ - name.length) 0 := by
    refine List.ext_getElem ?_ fun j h1 h2 => ?_
    · simp only [direntName, List.length_map, List.length_range, List.length_append, List.length_take, List.length_replicate]
      omega
    · simp only [direntName, List.length_map, List.length_range] at h1
      simp only [direntName, List.getElem_map, List.getElem_range, direntBytes]
      rw [if_neg (by omega), show 0 + 2 + j - 2 = j by omega, List.getD_eq_getElem?_getD]
      by_cases hj : j < name.length
      · rw [List.getElem?_eq_getElem hj, List.getElem_append_left (by rw [List.length_take]; omega), List.getElem_take]
        rfl
      · rw [List.getElem?_eq_none (by omega), List.getElem_append_right (by rw [List.length_take]; omega),
          List.getElem_replicate]
        rfl
  rw [hname, key, cut_append_zeros, cut_take, key]

/-! ## Tables -/

/-- Entry `e` of a directory, if it is in use: what counts of its name, and its inode number. -/
def entryAt (f : Arr) (e : Nat) : Option (List UInt8 × Nat) :=
  if direntInum f (16 * e) = 0 then none else some (key (direntName f (16 * e)), direntInum f (16 * e))

/-- The entries of the longest directory. -/
def dirTable (f : Arr) : Table (MAXFILE * BSIZE / 16) (List UInt8) Nat := fun e => entryAt f e

/-- **A directory** of that size stands for the map: behind its end no entry is in use. -/
structure IsDir (f : Arr) (size : Nat) (m : Finmap fun _ : List UInt8 => Nat) : Prop where
  aligned : 16 ∣ size
  le : size ≤ MAXFILE * BSIZE
  past : ∀ e, size ≤ 16 * e → entryAt f e = none
  rep : Rep (dirTable f) m

variable {f g : Arr} {name : List UInt8} {size e k n inum : Nat} {m : Finmap fun _ : List UInt8 => Nat}

theorem entryAt_eq_none : entryAt f e = none ↔ direntInum f (16 * e) = 0 := by
  rw [entryAt]
  split
  · exact iff_of_true rfl (by assumption)
  · exact iff_of_false (Option.some_ne_none _) (by assumption)

theorem entryAt_eq_some {q : List UInt8} {i : Nat} : entryAt f e = some (q, i) ↔
    direntInum f (16 * e) = i ∧ i ≠ 0 ∧ key (direntName f (16 * e)) = q := by
  rw [entryAt]
  split
  case isTrue h0 => exact iff_of_false (Option.some_ne_none _).symm fun hc => hc.2.1 (hc.1.symm.trans h0)
  case isFalse h0 =>
    rw [Option.some.injEq, Prod.mk.injEq]
    constructor
    · rintro ⟨rfl, rfl⟩
      exact ⟨rfl, h0, rfl⟩
    · rintro ⟨rfl, -, rfl⟩
      exact ⟨rfl, rfl⟩

/-- An entry is its 16 bytes. -/
theorem entryAt_congr (h : ∀ o < 16, f (16 * e + o) = g (16 * k + o)) : entryAt f e = entryAt g k := by
  have hinum : direntInum f (16 * e) = direntInum g (16 * k) := by
    rw [direntInum, direntInum, u16, u16, h 1 (by decide), show f (16 * e) = g (16 * k) from h 0 (by decide)]
  have hname : direntName f (16 * e) = direntName g (16 * k) := by
    refine List.map_congr_left fun o ho => ?_
    have ho' := List.mem_range.mp ho
    simp only [DIRSIZ] at ho'
    rw [Nat.add_assoc, Nat.add_assoc]
    exact h (2 + o) (by omega)
  rw [entryAt, entryAt, hinum, hname]

/-- Writing a whole entry replaces that entry. -/
theorem entryAt_blit (f d : Arr) (e k : Nat) :
    entryAt (blit f (16 * e) 16 d) k = if k = e then entryAt d 0 else entryAt f k := by
  by_cases hke : k = e
  · subst hke
    rw [if_pos rfl]
    refine entryAt_congr fun o ho => ?_
    rw [blit_in (Nat.le_add_right ..) (by omega), Nat.add_sub_cancel_left, Nat.mul_zero, Nat.zero_add]
  · rw [if_neg hke]
    exact entryAt_congr fun o ho => blit_out (by omega)

theorem dirTable_blit (f d : Arr) (e : Fin (MAXFILE * BSIZE / 16)) :
    dirTable (blit f (16 * e) 16 d) = Function.update (dirTable f) e (entryAt d 0) := by
  funext k
  rw [dirTable, entryAt_blit]
  by_cases hke : k = e
  · rw [hke, if_pos rfl, Function.update_self]
  · rw [if_neg fun hc => hke (Fin.ext hc), Function.update_of_ne hke]
    rfl

theorem entryAt_direntBytes (hi : 1 ≤ inum ∧ inum ≤ 65535) (name : List UInt8) :
    entryAt (direntBytes inum name) 0 = some (key name, inum) := by
  refine entryAt_eq_some.mpr ⟨?_, by omega, key_direntBytes inum name⟩
  rw [Nat.mul_zero, direntInum_direntBytes]
  omega

namespace IsDir

/-- An entry in use is below the size. -/
theorem lt (h : IsDir f size m) {q : List UInt8 × Nat} (he : entryAt f e = some q) : 16 * e + 16 ≤ size := by
  obtain ⟨c, hc⟩ := h.aligned
  by_contra hge
  rw [h.past e (by omega)] at he
  cases he

theorem slot (h : IsDir f size m) {q : List UInt8 × Nat} (he : entryAt f e = some q) : e < MAXFILE * BSIZE / 16 := by
  have h1 := h.lt he
  have h2 := h.le
  simp only [MAXFILE, BSIZE] at *
  omega

/-- The bindings are the entries in use. -/
theorem lookup_iff (h : IsDir f size m) {q : List UInt8} {i : Nat} : m.lookup q = some i ↔ ∃ e, entryAt f e = some (q, i) := by
  rw [h.rep.lookup]
  constructor
  · rintro ⟨e, he⟩
    exact ⟨e, he⟩
  · rintro ⟨e, he⟩
    exact ⟨⟨e, h.slot he⟩, he⟩

/-- No two entries in use have the same name. -/
theorem uniq (h : IsDir f size m) {q : List UInt8} {i j : Nat} (he : entryAt f e = some (q, i))
    (hk : entryAt f k = some (q, j)) : e = k :=
  congrArg Fin.val (@Rep.uniq _ _ _ _ _ _ h.rep ⟨e, h.slot he⟩ ⟨k, h.slot hk⟩ q i j he hk)

/-- **The search of `dirlookup`** finds the entry of the name. -/
theorem lookup_eq (h : IsDir f size m) :
    Xv6.lookup f name 0 (entries size) = some e ↔ ∃ i, entryAt f e = some (key name, i) := by
  have hmatch : ∀ e, entryIs f name e = true ↔ ∃ i, entryAt f e = some (key name, i) := fun e => by
    rw [entryIs, decide_eq_true_eq, namecmp_eq_zero]
    constructor
    · rintro ⟨h0, hn⟩
      exact ⟨_, entryAt_eq_some.mpr ⟨rfl, h0, hn.symm⟩⟩
    · rintro ⟨i, hi⟩
      obtain ⟨rfl, h0, hn⟩ := entryAt_eq_some.mp hi
      exact ⟨h0, hn.symm⟩
  constructor
  · intro hl
    exact (hmatch e).mp (List.find?_some hl)
  · rintro ⟨i, hi⟩
    have hmem : e ∈ List.range' 0 (entries size) := by
      have := h.lt hi
      rw [List.mem_range'_1, entries]
      simp only [BSIZE]
      omega
    have hsome : (Xv6.lookup f name 0 (entries size)).isSome :=
      List.find?_isSome.mpr ⟨e, hmem, (hmatch e).mpr ⟨i, hi⟩⟩
    obtain ⟨e', he'⟩ := Option.isSome_iff_exists.mp hsome
    obtain ⟨i', hi'⟩ := (hmatch e').mp (List.find?_some he')
    rw [he', h.uniq hi' hi]

theorem lookup_eq_none (h : IsDir f size m) : Xv6.lookup f name 0 (entries size) = none ↔ key name ∉ m := by
  rw [Finmap.mem_iff, not_exists, Option.eq_none_iff_forall_ne_some]
  constructor
  · intro hl i hi
    obtain ⟨e, he⟩ := h.lookup_iff.mp hi
    exact hl e (h.lookup_eq.mpr ⟨i, he⟩)
  · intro hm e hl
    obtain ⟨i, hi⟩ := h.lookup_eq.mp hl
    exact hm i (h.lookup_iff.mpr ⟨e, hi⟩)

/-- **Linking** is insertion. -/
theorem link (h : IsDir f size m) (he : FreeEntry f size e) (hi : 1 ≤ inum ∧ inum ≤ 65535) (hm : key name ∉ m) :
    IsDir (blit f (16 * e) 16 (direntBytes inum name)) (max size (16 * e + 16)) (m.insert (key name) inum) := by
  obtain ⟨c, hc⟩ := h.aligned
  have hfree : entryAt f e = none := by
    by_cases hlt : 16 * e < size
    · exact entryAt_eq_none.mpr (he.free hlt)
    · exact h.past e (Nat.le_of_not_lt hlt)
  have hslot : e < MAXFILE * BSIZE / 16 := by
    have := he.room
    simp only [MAXFILE, BSIZE] at *
    omega
  refine ⟨?_, Nat.max_le.mpr ⟨h.le, he.room⟩, fun k hk => ?_, ?_⟩
  · rcases Nat.le_total size (16 * e + 16) with hle | hle
    · rw [Nat.max_eq_right hle]; exact ⟨e + 1, rfl⟩
    · rw [Nat.max_eq_left hle]; exact h.aligned
  · rw [entryAt_blit, if_neg (by omega)]
    exact h.past k (by omega)
  · have hrep := h.rep.fill (show dirTable f ⟨e, hslot⟩ = none from hfree) hm inum
    rw [← entryAt_direntBytes hi name, ← dirTable_blit] at hrep
    exact hrep

/-- **Clearing** the entry of a name is removal. -/
theorem clear {q : List UInt8} {i : Nat} (h : IsDir f size m) (he : entryAt f e = some (q, i)) :
    IsDir (blit f (16 * e) 16 fun _ => 0) (max size (16 * e + 16)) (m.erase q) := by
  have hlt := h.lt he
  rw [Nat.max_eq_left hlt]
  refine ⟨h.aligned, h.le, fun k hk => ?_, ?_⟩
  · rw [entryAt_blit, if_neg (by omega)]
    exact h.past k hk
  · have hrep := h.rep.clear (show dirTable f ⟨e, h.slot he⟩ = some (q, i) from he)
    have hzero : entryAt (fun _ => 0) 0 = none := entryAt_eq_none.mpr rfl
    rw [← hzero, ← dirTable_blit] at hrep
    exact hrep

end IsDir

/-! ## The abstract model -/

/-- A call on a directory. -/
inductive DirOp where
  | link (name : List UInt8) (inum : Nat)
  | clear (name : List UInt8)

/-- Inode numbers of new entries are not 0 and fit into a `ushort`. -/
def DirOp.InRange : DirOp → Prop
  | .link _ inum => 1 ≤ inum ∧ inum ≤ 65535
  | .clear _ => True

namespace DirSpec

/-- One call: the result and the map after it. -/
def step (m : Finmap fun _ : List UInt8 => Nat) : DirOp → Int × Finmap fun _ : List UInt8 => Nat
  | .link name inum => if key name ∈ m then (-1, m) else (0, m.insert (key name) inum)
  | .clear name => if (key name = dot ∨ key name = dotdot) ∨ key name ∉ m then (-1, m) else (0, m.erase (key name))

/-- Calls one after the other. -/
def run : (Finmap fun _ : List UInt8 => Nat) → List DirOp → List Int × Finmap fun _ : List UInt8 => Nat
  | m, [] => ([], m)
  | m, op :: ops =>
    let r := run (step m op).2 ops
    ((step m op).1 :: r.1, r.2)

theorem step_link (hm : key name ∉ m) : step m (.link name inum) = (0, m.insert (key name) inum) := if_neg hm

/-- No call removes `.` or `..`. -/
theorem step_dots {q : List UInt8} (hq : q = dot ∨ q = dotdot) (hm : q ∈ m) (op : DirOp) : q ∈ (step m op).2 := by
  cases op with
  | link name inum =>
    rw [step]
    split
    · exact hm
    · exact Finmap.mem_insert.mpr (.inr hm)
  | clear name =>
    rw [step]
    split
    · exact hm
    case isFalse hc =>
      refine Finmap.mem_erase.mpr ⟨?_, hm⟩
      rintro rfl
      exact hc (.inl hq)

end DirSpec

/-! ## The code -/

/-- How `sys_unlink` clears the entry of a name; the inode found is let go of, as only the directory matters here. -/
def clearEntry (dp : Slot) (name : List UInt8) : FsM Int := do
  if namecmp name dot = 0 ∨ namecmp name dotdot = 0 then return -1
  else
    match ← dirlookup dp name with
    | none => return -1
    | some (ip, off) =>
      iput ip
      let r ← writei dp (.kernel fun _ => 0) off 16
      if r ≠ 16 then panic "unlink: writei"
      else return 0

def DirOp.run (dp : Slot) : DirOp → FsM Int
  | .link name inum => dirlink dp name inum
  | .clear name => clearEntry dp name

def runDirOps (dp : Slot) : List DirOp → FsM (List Int)
  | [] => return []
  | op :: ops => do
    let r ← op.run dp
    let rs ← runDirOps dp ops
    return r :: rs

/-! ## Refinement -/

/-- The bytes and the size of the directory cached in a slot. -/
abbrev Ghost.dirFile (G : Ghost) (s : Fs) (x : Slot) : Arr := G.file s (s.icache x).inum

abbrev Ghost.dirSize (G : Ghost) (s : Fs) (x : Slot) : Nat := (G.tbl (s.icache x).inum).size

/-- The slot caches a directory that stands for the map. -/
structure DirAt (G : Ghost) (s : Fs) (x : Slot) (m : Finmap fun _ : List UInt8 => Nat) : Prop where
  core : Core G s
  ref : x ∈ G.refs
  valid : (s.icache x).valid = true
  type : (G.tbl (s.icache x).inum).type = T_DIR
  dir : IsDir (G.dirFile s x) (G.dirSize s x) m

/-- Some entry of the directory is free. -/
def HasFree (f : Arr) (size : Nat) : Prop := ∃ e, 16 * e < size ∧ entryAt f e = none

/-- **One call** as the abstract model sees it, with what it does to the entries. -/
structure DirStep (op : DirOp) (m : Finmap fun _ : List UInt8 => Nat) (G : Ghost) (s : Fs) (x : Slot) (r : Int)
    (G' : Ghost) (s' : Fs) : Prop where
  dirAt : DirAt G' s' x (DirSpec.step m op).2
  result : r = (DirSpec.step m op).1
  /-- A refused call writes nothing. -/
  refused : r = -1 → s'.disk = s.disk
  /-- A binding that stays keeps its entry. -/
  kept : ∀ e q i, entryAt (G.dirFile s x) e = some (q, i) → q ∈ (DirSpec.step m op).2 →
    entryAt (G'.dirFile s' x) e = some (q, i)
  /-- A new binding takes a free entry if there is one. -/
  size : ∀ name inum, op = .link name inum → r = 0 →
    (HasFree (G.dirFile s x) (G.dirSize s x) → G'.dirSize s' x = G.dirSize s x) ∧
    (¬ HasFree (G.dirFile s x) (G.dirSize s x) → G'.dirSize s' x = G.dirSize s x + 16)

variable {G G' : Ghost} {s s' : Fs} {x : Slot} {op : DirOp}

/-- The directory after one whole entry was written. -/
theorem DirAt.write {d : Arr} {m' : Finmap fun _ : List UInt8 => Nat} (h : DirAt G s x m)
    (hw : WriteDone x (.kernel d) (16 * e) 16 G s G' s')
    (hdir : IsDir (blit (G.dirFile s x) (16 * e) 16 d) (max (G.dirSize s x) (16 * e + 16)) m') :
    DirAt G' s' x m' ∧ G'.dirFile s' x = blit (G.dirFile s x) (16 * e) 16 d ∧
      G'.dirSize s' x = max (G.dirSize s x) (16 * e + 16) := by
  have hinum : (s'.icache x).inum = (s.icache x).inum := by rw [hw.icache, Function.update_self]
  obtain ⟨a, hG⟩ := hw.ghost
  have hfile : G'.dirFile s' x = blit (G.dirFile s x) (16 * e) 16 d := by
    rw [Ghost.dirFile, hinum, hw.file, if_pos rfl]
    rfl
  have hmeta : G'.tbl (s'.icache x).inum = { G.tbl (s.icache x).inum with
      size := max (G.dirSize s x) (16 * e + 16), addrs := a } := by
    rw [hinum, hG, Ghost.setMeta_tbl, Function.update_self]
  refine ⟨⟨hw.core, ?_, ?_, ?_, ?_⟩, hfile, ?_⟩
  · rw [hG]; exact h.ref
  · rw [hw.icache, Function.update_self]; exact h.valid
  · rw [hmeta]; exact h.type
  · rw [hfile, Ghost.dirSize, hmeta]; exact hdir
  · rw [Ghost.dirSize, hmeta]

/-- A call that wrote nothing. -/
theorem DirAt.of_disk (h : DirAt G s x m) (hc : Core G s') (hd : s'.disk = s.disk) (hk : Keeps G.refs s s') :
    DirAt G s' x m ∧ G.dirFile s' x = G.dirFile s x ∧ G.dirSize s' x = G.dirSize s x := by
  have hinum := hk.inum x h.ref
  have hfile : G.dirFile s' x = G.dirFile s x := by rw [Ghost.dirFile, hinum, G.file_congr hd]
  have hsize : G.dirSize s' x = G.dirSize s x := by rw [Ghost.dirSize, hinum]
  refine ⟨⟨hc, h.ref, hk.valid x h.ref h.valid, by rw [hinum]; exact h.type, ?_⟩, hfile, hsize⟩
  rw [hfile, hsize]
  exact h.dir

theorem FreeEntry.max_size (he : FreeEntry f size e) (ha : 16 ∣ size) :
    (HasFree f size → max size (16 * e + 16) = size) ∧ (¬ HasFree f size → max size (16 * e + 16) = size + 16) := by
  obtain ⟨c, hc⟩ := ha
  have hle := he.le
  constructor
  · rintro ⟨k, hk, hfree⟩
    -- the first free entry is not behind one that is free
    have hek : e ≤ k := Nat.le_of_not_lt fun hlt => he.first k hlt (entryAt_eq_none.mp hfree)
    omega
  · intro hnone
    have hend : ¬ 16 * e < size := fun hlt => hnone ⟨e, hlt, entryAt_eq_none.mpr (he.free hlt)⟩
    omega

/-- A refused call. -/
theorem DirAt.refused (h : DirAt G s x m) (hstep : DirSpec.step m op = (-1, m)) (hc : Core G s') (hd : s'.disk = s.disk)
    (hk : Keeps G.refs s s') : DirStep op m G s x (-1) G s' := by
  obtain ⟨hat, hfile, -⟩ := h.of_disk hc hd hk
  refine ⟨by rw [hstep]; exact hat, by rw [hstep], fun _ => hd, fun e q i he _ => by rw [hfile]; exact he,
    fun _ _ _ h0 => absurd h0 (by decide)⟩

/-- **`dirlink` is insertion.** -/
theorem dirlink_step {inum : Nat} (h : DirAt G s x m) (hi : 1 ≤ inum ∧ inum ≤ 65535) :
    wp (dirlink x name inum) (fun r s' => ∃ G', DirStep (.link name inum) m G s x r G' s')
      (fun e _ => LinkStop G s x name e) s := by
  refine wp_mono (dirlink_spec h.core h.ref h.valid h.type inum) ?_ fun _ _ he => he
  intro r s' hr
  by_cases hm : key name ∈ m
  · have hl : Xv6.lookup (G.dirFile s x) name 0 (entries (G.dirSize s x)) ≠ none := fun hc => h.dir.lookup_eq_none.mp hc hm
    obtain ⟨e, he⟩ := Option.ne_none_iff_exists'.mp hl
    rw [he] at hr
    obtain ⟨rfl, hc, hd, hk⟩ := hr
    exact ⟨G, h.refused (if_pos hm) hc hd hk⟩
  · rw [h.dir.lookup_eq_none.mpr hm] at hr
    obtain ⟨rfl, e, G', he, hw⟩ := hr
    have hstep : DirSpec.step m (.link name inum) = (0, m.insert (key name) inum) := DirSpec.step_link hm
    obtain ⟨hat, hfile, hsize⟩ := h.write hw (h.dir.link he hi hm)
    refine ⟨G', by rw [hstep]; exact hat, by rw [hstep], fun hneg => absurd hneg (by decide), fun k q i hk _ => ?_, ?_⟩
    · rw [hfile, entryAt_blit, if_neg fun hke => ?_]
      · exact hk
      · -- the entry written was free
        subst hke
        rw [entryAt_eq_none.mpr (he.free (Nat.lt_of_lt_of_le (Nat.lt_add_of_pos_right (by decide)) (h.dir.lt hk)))] at hk
        cases hk
    · rintro _ _ - -
      rw [hsize]
      exact he.max_size h.dir.aligned

/-- **Clearing an entry is removal.** -/
theorem clearEntry_step (h : DirAt G s x m) :
    wp (clearEntry x name) (fun r s' => ∃ G', DirStep (.clear name) m G s x r G' s')
      (fun e _ => e = .panic "iget: no inodes" ∧ ∀ y, y ∈ G.refs) s := by
  have hdot : (namecmp name dot = 0 ∨ namecmp name dotdot = 0) ↔ (key name = dot ∨ key name = dotdot) := by
    rw [namecmp_eq_zero, namecmp_eq_zero]
    exact Iff.rfl
  unfold clearEntry
  rw [wp_ite]
  refine ⟨fun hc => ⟨G, h.refused (if_pos (.inl (hdot.mp hc))) h.core rfl (Keeps.refl _ _)⟩, fun hc => ?_⟩
  rw [wp_bind]
  refine dirlookup_wp h.core h.ref h.valid h.type ?_
  cases hl : Xv6.lookup (G.dirFile s x) name 0 (entries (G.dirSize s x)) with
  | none => exact ⟨G, h.refused (if_pos (.inr (h.dir.lookup_eq_none.mp hl))) h.core rfl (Keeps.refl _ _)⟩
  | some e =>
    obtain ⟨i, he⟩ := h.dir.lookup_eq.mp hl
    have hm : key name ∈ m := Finmap.mem_iff.mpr ⟨i, h.dir.lookup_iff.mpr ⟨e, he⟩⟩
    have hstep : DirSpec.step m (.clear name) = (0, m.erase (key name)) :=
      if_neg fun hd => hd.elim (fun hd => hc (hdot.mpr hd)) fun hn => hn hm
    refine wp_post (iget_got h.core _) ?_
    intro y s1 hgot
    simp only [wp_bind]
    refine wp_mono hgot.put ?_ fun _ _ hf => hf.elim
    rintro _ s2 ⟨hc2, hd2, hk2⟩
    obtain ⟨h2, hfile2, hsize2⟩ := h.of_disk hc2 hd2 hk2
    have he2 : entryAt (G.dirFile s2 x) e = some (key name, i) := by rw [hfile2]; exact he
    have hlt := h2.dir.lt he2
    have hle := h2.dir.le
    refine wp_mono (writei_spec h2.core h2.ref h2.valid (by rw [h2.type]; decide)) ?_ ?_
    swap
    · -- the entry is there, so that nothing is lacking to write it
      rintro _ _ ⟨rfl, hroom⟩
      obtain ⟨-, ht, hino⟩ := h2.core.live h2.ref h2.valid
      have hin : 16 * e + min 16 (MAXFILE * BSIZE - 16 * e) ≤ (G.tbl (s2.icache x).inum).size :=
        Nat.le_trans (Nat.add_le_add_left (Nat.min_le_left _ _) _) hlt
      have hnone : missing (G.own s2) (s2.icache x).inum (touched (16 * e) (min 16 (MAXFILE * BSIZE - 16 * e))) = 0 :=
        Finset.card_eq_zero.mpr (Finset.filter_eq_empty_iff.mpr fun k hk => h2.core.touched_mapped hino ht hin k hk)
      exact absurd hroom (by rw [hnone]; exact Nat.not_lt_zero _)
    intro r s3 hw
    simp only [Ghost.dirSize, MAXFILE, BSIZE] at hlt hle
    rw [if_neg (by omega), show min 16 (MAXFILE * BSIZE - 16 * e) = 16 by simp only [MAXFILE, BSIZE]; omega] at hw
    obtain ⟨rfl, G', hdone⟩ := hw
    obtain ⟨hat, hfile, -⟩ := h2.write hdone (h2.dir.clear he2)
    rw [if_neg (by decide), wp_pure]
    refine ⟨G', by rw [hstep]; exact hat, by rw [hstep], fun hneg => absurd hneg (by decide), fun k q j hk hq => ?_, ?_⟩
    · rw [hfile, entryAt_blit, hfile2, if_neg fun hke => ?_]
      · exact hk
      · -- the entry cleared is the one of the name removed
        subst hke
        rw [he] at hk
        cases hk
        rw [hstep] at hq
        exact (Finmap.mem_erase.mp hq).1 rfl
    · rintro _ _ hop -
      cases hop

/-- Why a call stops. -/
def DirOp.Stops (G : Ghost) (s : Fs) (x : Slot) : DirOp → Stop → Prop
  | .link name _, e => LinkStop G s x name e
  | .clear _, e => e = .panic "iget: no inodes" ∧ ∀ y, y ∈ G.refs

/-- **One call** refines one abstract call. -/
theorem DirOp.run_spec (h : DirAt G s x m) (op : DirOp) (hop : op.InRange) :
    wp (op.run x) (fun r s' => ∃ G', DirStep op m G s x r G' s') (fun e _ => op.Stops G s x e) s := by
  cases op with
  | link name inum => exact dirlink_step h hop
  | clear name => exact clearEntry_step h

/-- The entries `.` and `..`, of inodes `i` and `p`. -/
structure Dots (f : Arr) (i p : Nat) : Prop where
  self : entryAt f 0 = some (dot, i)
  parent : entryAt f 1 = some (dotdot, p)

theorem IsDir.mem {q : List UInt8} {i : Nat} (h : IsDir f size m) (he : entryAt f e = some (q, i)) : q ∈ m :=
  Finmap.mem_iff.mpr ⟨i, h.lookup_iff.mpr ⟨e, he⟩⟩

theorem DirStep.dots {r : Int} {i p : Nat} (h : DirStep op m G s x r G' s') (hm : IsDir (G.dirFile s x) (G.dirSize s x) m)
    (hd : Dots (G.dirFile s x) i p) : Dots (G'.dirFile s' x) i p :=
  ⟨h.kept 0 dot i hd.self (DirSpec.step_dots (.inl rfl) (hm.mem hd.self) op),
    h.kept 1 dotdot p hd.parent (DirSpec.step_dots (.inr rfl) (hm.mem hd.parent) op)⟩

/-- The calls `ops` stopped with `e` at one that cannot go on, after the others ran as the abstract model says. -/
def DirStuck (x : Slot) (ops : List DirOp) (m : Finmap fun _ : List UInt8 => Nat) (s : Fs) (e : Stop) : Prop :=
  ∃ before op after G' s', ops = before ++ op :: after ∧
    exec (runDirOps x before) s = (.ok (DirSpec.run m before).1, s') ∧ DirAt G' s' x (DirSpec.run m before).2 ∧
    op.Stops G' s' x e

theorem DirOp.Stops.stuck {ops : List DirOp} {e : Stop} (he : op.Stops G s x e) (h : DirAt G s x m) :
    DirStuck x (op :: ops) m s e :=
  ⟨[], op, ops, G, s, rfl, rfl, h, he⟩

/-- A call that returned, before the calls that stopped. -/
theorem DirStuck.cons {ops : List DirOp} {e : Stop} {r : Int} (h : DirStep op m G s x r G' s')
    (hexec : exec (op.run x) s = (.ok r, s')) (hstuck : DirStuck x ops (DirSpec.step m op).2 s' e) :
    DirStuck x (op :: ops) m s e := by
  obtain ⟨before, op', after, G2, s2, rfl, hrun, hat, he⟩ := hstuck
  refine ⟨op :: before, op', after, G2, s2, rfl, ?_, hat, he⟩
  rw [runDirOps, exec_bind, hexec]
  simp only [exec_bind, hrun, DirSpec.run, ← h.result]
  rfl

/-- **A run** refines the abstract run, and `.` and `..` stay where they are. -/
theorem runDirOps_spec (ops : List DirOp) : ∀ {G : Ghost} {s : Fs} {m : Finmap fun _ : List UInt8 => Nat} {i p : Nat},
    DirAt G s x m → Dots (G.dirFile s x) i p → (∀ op ∈ ops, op.InRange) →
    wp (runDirOps x ops)
      (fun rs s' => rs = (DirSpec.run m ops).1 ∧ ∃ G', DirAt G' s' x (DirSpec.run m ops).2 ∧ Dots (G'.dirFile s' x) i p)
      (fun e _ => DirStuck x ops m s e) s := by
  induction ops with
  | nil =>
    intro G s m i p h hd _
    exact ⟨rfl, G, h, hd⟩
  | cons op ops ih =>
    intro G s m i p h hd hops
    simp only [runDirOps, wp_bind, wp_pure]
    refine wp_mono (wp_run (op.run_spec h (hops op List.mem_cons_self))) ?_ fun _ _ he => he.2.stuck h
    rintro r s1 ⟨hexec, G1, hstep⟩
    refine wp_mono (ih hstep.dirAt (hstep.dots h.dir hd) fun op' hop' => hops op' (List.mem_cons_of_mem _ hop')) ?_
      fun _ _ he => he.cons hstep hexec
    rintro rs s2 ⟨rfl, h2⟩
    exact ⟨by rw [DirSpec.run, hstep.result], h2⟩

/-- **What a directory is for**, in a state in which it stands for the map `m`. -/
structure FiniteMap (G : Ghost) (s : Fs) (x : Slot) (i p : Nat) (m : Finmap fun _ : List UInt8 => Nat) : Prop where
  dirAt : DirAt G s x m
  dots : Dots (G.dirFile s x) i p
  uniq : ∀ e k q a b, entryAt (G.dirFile s x) e = some (q, a) → entryAt (G.dirFile s x) k = some (q, b) → e = k
  dirlookup : ∀ name, wp (dirlookup x name)
    (fun r s' => s'.disk = s.disk ∧ match m.lookup (key name) with
      | none => r = none
      | some j => ∃ y e, r = some (y, 16 * e) ∧ (s'.icache y).inum = j ∧ entryAt (G.dirFile s x) e = some (key name, j))
    (fun e _ => e = .panic "iget: no inodes" ∧ ∀ y, y ∈ G.refs) s
  call : ∀ op : DirOp, op.InRange →
    wp (op.run x) (fun r s' => ∃ G', DirStep op m G s x r G' s') (fun e _ => op.Stops G s x e) s
  isdirempty : wp (isdirempty x) (fun b s' => s' = s ∧ (b = true ↔ ∀ q ∈ m, q = dot ∨ q = dotdot)) (fun _ _ => False) s

theorem DirAt.dirlookup (h : DirAt G s x m) (name : List UInt8) : wp (dirlookup x name)
    (fun r s' => s'.disk = s.disk ∧ match m.lookup (key name) with
      | none => r = none
      | some j => ∃ y e, r = some (y, 16 * e) ∧ (s'.icache y).inum = j ∧ entryAt (G.dirFile s x) e = some (key name, j))
    (fun e _ => e = .panic "iget: no inodes" ∧ ∀ y, y ∈ G.refs) s := by
  refine dirlookup_wp h.core h.ref h.valid h.type ?_
  cases hl : Xv6.lookup (G.dirFile s x) name 0 (entries (G.dirSize s x)) with
  | none =>
    have hm : m.lookup (key name) = none := Finmap.lookup_eq_none.mpr (h.dir.lookup_eq_none.mp hl)
    rw [hm]
    exact ⟨rfl, rfl⟩
  | some e =>
    obtain ⟨j, he⟩ := h.dir.lookup_eq.mp hl
    rw [h.dir.lookup_iff.mpr ⟨e, he⟩]
    show wp (iget ROOTDEV (direntInum (G.dirFile s x) (16 * e))) _ _ _
    rw [(entryAt_eq_some.mp he).1]
    refine wp_post (iget_got h.core j) fun y s1 hgot => ?_
    exact ⟨hgot.disk, y, e, rfl, hgot.inum, he⟩

theorem DirAt.isdirempty {i p : Nat} (h : DirAt G s x m) (hd : Dots (G.dirFile s x) i p) :
    wp (isdirempty x) (fun b s' => s' = s ∧ (b = true ↔ ∀ q ∈ m, q = dot ∨ q = dotdot)) (fun _ _ => False) s := by
  refine wp_mono (isdirempty_spec h.core h.ref h.valid h.type) ?_ fun _ _ he => he.2 h.dir.aligned
  rintro b s' ⟨rfl, hb⟩
  refine ⟨rfl, hb.trans ⟨fun hfree q hq => ?_, fun hall k hk _ => ?_⟩⟩
  · obtain ⟨j, hj⟩ := Finmap.mem_iff.mp hq
    obtain ⟨e, he⟩ := h.dir.lookup_iff.mp hj
    rcases Nat.lt_or_ge e 2 with hlt | hge
    · rcases Nat.le_one_iff_eq_zero_or_eq_one.mp (Nat.le_of_lt_succ hlt) with rfl | rfl
      · rw [hd.self] at he; cases he; exact .inl rfl
      · rw [hd.parent] at he; cases he; exact .inr rfl
    · have h0 := hfree e hge (Nat.lt_of_lt_of_le (Nat.lt_add_of_pos_right (by decide)) (h.dir.lt he))
      rw [entryAt_eq_none.mpr h0] at he
      cases he
  · by_contra h0
    have he := entryAt_eq_some.mpr ⟨rfl, h0, rfl⟩
    rcases hall _ (h.dir.mem he) with hq | hq
    · rw [hq] at he
      exact absurd (h.dir.uniq he hd.self) (by omega)
    · rw [hq] at he
      exact absurd (h.dir.uniq he hd.parent) (by omega)

theorem DirAt.finiteMap {i p : Nat} (h : DirAt G s x m) (hd : Dots (G.dirFile s x) i p) : FiniteMap G s x i p m :=
  ⟨h, hd, fun _ _ _ _ _ => h.dir.uniq, h.dirlookup, fun op hop => op.run_spec h hop, h.isdirempty hd⟩

/-- Without a free entry the new binding comes last. -/
theorem DirStep.link_end {inum : Nat} {r : Int} (h : DirStep (.link name inum) m G s x r G' s')
    (hd : IsDir (G.dirFile s x) (G.dirSize s x) m) (hm : key name ∉ m) (hsize : G.dirSize s x = 16 * e)
    (hfull : ∀ k < e, entryAt (G.dirFile s x) k ≠ none) :
    entryAt (G'.dirFile s' x) e = some (key name, inum) ∧ G'.dirSize s' x = 16 * (e + 1) := by
  have hstep : DirSpec.step m (.link name inum) = (0, m.insert (key name) inum) := DirSpec.step_link hm
  have hnone : ¬ HasFree (G.dirFile s x) (G.dirSize s x) := by
    rintro ⟨k, hk, hfree⟩
    rw [hsize] at hk
    exact hfull k (by omega) hfree
  have hsize' := (h.size name inum rfl (by rw [h.result, hstep])).2 hnone
  rw [hsize] at hsize'
  refine ⟨?_, hsize'.trans (by omega)⟩
  have hat := h.dirAt
  have hkept := h.kept
  rw [hstep] at hat hkept
  obtain ⟨k, hk⟩ := hat.dir.lookup_iff.mp (Finmap.lookup_insert m)
  have hlt := hat.dir.lt hk
  rw [hsize'] at hlt
  by_cases hke : k < e
  · -- an old entry keeps its name, which is another one
    obtain ⟨⟨q, a⟩, hq⟩ := Option.ne_none_iff_exists'.mp (hfull k hke)
    have hqm := hd.mem hq
    have hnew := hkept k q a hq (Finmap.mem_insert.mpr (.inr hqm))
    rw [hk] at hnew
    cases hnew
    exact absurd hqm hm
  · obtain rfl : k = e := by omega
    exact hk

/-- **A directory is a finite map.** From a fresh directory, `.` and `..` linked first, any calls give the results and
    leave the bindings that the abstract model says; what the code then finds in the directory are these bindings. The
    calls stop only at one that finds the inode cache, the device or the directory full. -/
theorem directory_is_map {i p : Nat} (ops : List DirOp) (h : Core G s) (hx : x ∈ G.refs)
    (hv : (s.icache x).valid = true) (ht : (G.tbl (s.icache x).inum).type = T_DIR) (hsize : G.dirSize s x = 0)
    (hfresh : ∀ e, entryAt (G.dirFile s x) e = none)
    (hops : ∀ op ∈ .link dot i :: .link dotdot p :: ops, op.InRange) :
    wp (runDirOps x (.link dot i :: .link dotdot p :: ops))
      (fun rs s' => rs = (DirSpec.run ∅ (.link dot i :: .link dotdot p :: ops)).1 ∧
        ∃ G', FiniteMap G' s' x i p (DirSpec.run ∅ (.link dot i :: .link dotdot p :: ops)).2)
      (fun e _ => DirStuck x (.link dot i :: .link dotdot p :: ops) ∅ s e) s := by
  have h0 : DirAt G s x ∅ := ⟨h, hx, hv, ht, ⟨by rw [hsize]; exact ⟨0, rfl⟩, by rw [hsize]; exact Nat.zero_le _,
    fun e _ => hfresh e, Rep.empty fun e => hfresh e⟩⟩
  have hi : DirOp.InRange (.link dot i) := hops _ List.mem_cons_self
  have hp : DirOp.InRange (.link dotdot p) := hops _ (List.mem_cons_of_mem _ List.mem_cons_self)
  have hdot : key dot ∉ (∅ : Finmap fun _ : List UInt8 => Nat) := Finmap.notMem_empty
  have hdotdot : key dotdot ∉ (∅ : Finmap fun _ : List UInt8 => Nat).insert (key dot) i := fun hc =>
    (Finmap.mem_insert.mp hc).elim (by decide) Finmap.notMem_empty
  have hstep1 : DirSpec.step ∅ (.link dot i) = (0, (∅ : Finmap fun _ : List UInt8 => Nat).insert (key dot) i) :=
    DirSpec.step_link hdot
  rw [runDirOps, wp_bind]
  refine wp_mono (wp_run (DirOp.run_spec h0 _ hi)) ?_ fun _ _ he => he.2.stuck h0
  rintro r1 s1 ⟨hexec1, G1, h1⟩
  obtain ⟨hself, hsize1⟩ := h1.link_end h0.dir hdot (e := 0) hsize fun k hk => absurd hk (Nat.not_lt_zero k)
  have hat1 := h1.dirAt
  rw [hstep1] at hat1
  simp only [runDirOps, wp_bind]
  refine wp_mono (wp_run (DirOp.run_spec hat1 _ hp)) ?_ fun _ _ he => .cons h1 hexec1 (by rw [hstep1]; exact he.2.stuck hat1)
  rintro r2 s2 ⟨hexec2, G2, h2⟩
  obtain ⟨hparent, -⟩ := h2.link_end hat1.dir hdotdot (e := 1) hsize1 fun k hk => by
    rw [Nat.lt_one_iff.mp hk, hself]
    exact Option.some_ne_none _
  have hkept := h2.kept 0 dot i hself (DirSpec.step_dots (.inl rfl) (hat1.dir.mem hself) _)
  refine wp_mono (runDirOps_spec ops h2.dirAt ⟨hkept, hparent⟩ fun op hop =>
    hops op (List.mem_cons_of_mem _ (List.mem_cons_of_mem _ hop))) ?_ fun _ _ he =>
      .cons h1 hexec1 (by rw [hstep1]; exact .cons h2 hexec2 he)
  rintro rs s3 ⟨rfl, G3, h3, hd3⟩
  have hrun : DirSpec.run ∅ (.link dot i :: .link dotdot p :: ops) =
      (r1 :: r2 :: (DirSpec.run (DirSpec.step ((∅ : Finmap fun _ : List UInt8 => Nat).insert (key dot) i) (.link dotdot p)).2
        ops).1, (DirSpec.run (DirSpec.step ((∅ : Finmap fun _ : List UInt8 => Nat).insert (key dot) i) (.link dotdot p)).2
        ops).2) := by
    rw [DirSpec.run, DirSpec.run, h1.result, h2.result, hstep1]
  rw [hrun]
  exact ⟨rfl, G3, h3.finiteMap hd3⟩

/-- An image with an empty directory. -/
def emptyDirImage : Image := .ofFiles { size := 1024, ninodes := 200 } [(T_DIR, 0)] fun _ _ => 0

/-- The name `a` is linked twice and cleared once. -/
def linkTwice : List DirOp := [.link [97] 7, .link [97] 9, .clear [97]]

/-- The calls return, and the second link is refused. -/
theorem directory_is_map_links : ∃ s' G',
    exec (runDirOps 0 (.link dot 1 :: .link dotdot 1 :: linkTwice)) (emptyDirImage.boot 1) = (.ok [0, 0, 0, -1, 0], s') ∧
    FiniteMap G' s' 0 1 1 (DirSpec.run ∅ (.link dot 1 :: .link dotdot 1 :: linkTwice)).2 := by
  have hsound : emptyDirImage.Sound :=
    Image.ofFiles_sound ⟨by decide, by decide, by decide⟩ (by decide) (by decide) (by decide) (by decide) (by decide)
  have hcore : Core emptyDirImage.ghost (emptyDirImage.boot 1) := hsound.core (fun _ _ _ _ _ => rfl) (by decide) (by decide)
  have hfresh : ∀ e, entryAt (emptyDirImage.ghost.dirFile (emptyDirImage.boot 1) 0) e = none := by
    intro e
    have hnone : ∀ k, emptyDirImage.ghost.own (emptyDirImage.boot 1) (1, k) = none := fun k => by
      refine Option.eq_none_iff_forall_ne_some.mpr fun b hb => ?_
      obtain ⟨-, j, e, hj, he, hk, -⟩ := (@Image.ofFiles_own b 1 _ _ (fun _ _ => 0) k (by decide) _).mp hb
      obtain rfl : j = 0 := (Nat.succ.inj hj).symm
      cases he
      exact Nat.not_lt_zero k hk
    have hzero : emptyDirImage.ghost.dirFile (emptyDirImage.boot 1) 0 = fun _ => 0 := contents_none hnone
    rw [hzero, entryAt_eq_none]
    rfl
  have hops : ∀ op ∈ .link dot 1 :: .link dotdot 1 :: linkTwice, op.InRange := by
    simp [linkTwice, DirOp.InRange]
  have hend : (exec (runDirOps 0 (.link dot 1 :: .link dotdot 1 :: linkTwice)) (emptyDirImage.boot 1)).1 =
      .ok [0, 0, 0, -1, 0] := by
    decide +kernel
  have hexec : exec (runDirOps 0 (.link dot 1 :: .link dotdot 1 :: linkTwice)) (emptyDirImage.boot 1) =
      (.ok [0, 0, 0, -1, 0], (exec (runDirOps 0 (.link dot 1 :: .link dotdot 1 :: linkTwice)) (emptyDirImage.boot 1)).2) :=
    Prod.ext hend rfl
  obtain ⟨-, G', hmap⟩ := wp_ok (directory_is_map linkTwice hcore (Multiset.mem_singleton_self 0) rfl rfl rfl hfresh hops) hexec
  exact ⟨_, G', hexec, hmap⟩

end Xv6
