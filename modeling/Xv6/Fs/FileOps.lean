import Xv6.Fs.Rw
import Xv6.Fs.Image
import Xv6.Lib.Overwrite

/-!
# `Fs.FileOps` — reads and writes refine operations on byte strings

What a file is for: a string of bytes that is read and overwritten at offsets. `FileSpec` says what `readi`
and `writei` mean for such strings and for the memory they copy from and to; a run of the code agrees with
it call by call, as long as the device has the blocks a write needs.
-/

namespace Xv6

open Bytes Hoare Ownership Overwrite

/-! ## Files as byte strings -/

/-- Bytes of every file by inode number, and user memory. -/
structure Files where
  file : Nat → List UInt8
  mem : Arr

/-- Change the bytes of file `i`. -/
def Files.put (f : Files) (i : Nat) (c : List UInt8) : Files := { f with file := Function.update f.file i c }

/-- A call on the inode cached in a slot. -/
inductive FileOp where
  | read (x : Slot) (dst : Dst) (off n : Nat)
  | write (x : Slot) (src : Src) (off n : Nat)

def FileOp.slot : FileOp → Slot
  | .read x .. => x
  | .write x .. => x

/-- User memory after `bytes` were copied to `dst`. -/
def Dst.copied (dst : Dst) (mem : Arr) (bytes : List UInt8) : Arr :=
  match dst with
  | .user a => blit mem a bytes.length fun k => bytes.getD k 0
  | .kernel => mem

namespace FileSpec

/-- The transfers both calls refuse: past the end of the file, or past the last 32-bit offset. -/
def Refused (c : List UInt8) (off n : Nat) : Prop := c.length < off ∨ (off + n) % 4294967296 < off

instance (c : List UInt8) (off n : Nat) : Decidable (Refused c off n) := by
  unfold Refused; infer_instance

/-- Read up to `n` bytes at `off`. -/
def read (f : Files) (i : Nat) (dst : Dst) (off n : Nat) : (Int × List UInt8) × Files :=
  if Refused (f.file i) off n then ((-1, []), f)
  else
    let bytes := ((f.file i).drop off).take n
    (((min n ((f.file i).length - off) : Nat), bytes), { f with mem := dst.copied f.mem bytes })

/-- The bytes a write takes from its source: as many as a file can hold. -/
def data (f : Files) (src : Src) (off n : Nat) : List UInt8 :=
  slice (src.bytes f.mem) 0 (min n (MAXFILE * BSIZE - off))

/-- Write up to `n` bytes at `off`. -/
def write (f : Files) (i : Nat) (src : Src) (off n : Nat) : (Int × List UInt8) × Files :=
  if Refused (f.file i) off n then ((-1, []), f)
  else
    (((min n (MAXFILE * BSIZE - off) : Nat), []), f.put i (overwrite (f.file i) off (data f src off n)))

/-- One call, on files known by the slots of their inodes. -/
def step (inum : Slot → Nat) (f : Files) : FileOp → (Int × List UInt8) × Files
  | .read x dst off n => read f (inum x) dst off n
  | .write x src off n => write f (inum x) src off n

/-- Calls one after the other. -/
def run (inum : Slot → Nat) : Files → List FileOp → List (Int × List UInt8) × Files
  | f, [] => ([], f)
  | f, op :: ops =>
    let r := run inum (step inum f op).2 ops
    ((step inum f op).1 :: r.1, r.2)

/-- What a call writes to file `i`, as a log. -/
def entry (inum : Slot → Nat) (i : Nat) (f : Files) : FileOp → Log UInt8
  | .read .. => []
  | .write x src off n =>
    if inum x = i ∧ ¬ Refused (f.file i) off n then [(off, data f src off n)] else []

/-- What a run writes to file `i`. -/
def log (inum : Slot → Nat) (i : Nat) : Files → List FileOp → Log UInt8
  | _, [] => []
  | f, op :: ops => entry inum i f op ++ log inum i (step inum f op).2 ops

variable {inum : Slot → Nat} {i : Nat}

/-- A call changes a file by what it writes to it. -/
theorem step_file (f : Files) (op : FileOp) :
    (step inum f op).2.file i = applyAll (f.file i) (entry inum i f op) ∧
    Gapless (f.file i) (entry inum i f op) := by
  cases op with
  | read x dst off n =>
    refine ⟨?_, trivial⟩
    show (read f (inum x) dst off n).2.file i = f.file i
    unfold read
    split <;> rfl
  | write x src off n =>
    simp only [step, write, entry]
    by_cases hx : inum x = i
    · subst hx
      by_cases hr : Refused (f.file (inum x)) off n
      · rw [if_pos hr, if_neg fun hc => hc.2 hr]
        exact ⟨rfl, trivial⟩
      · rw [if_neg hr, if_pos ⟨rfl, hr⟩]
        refine ⟨Function.update_self .., Nat.le_of_not_lt fun hc => hr (.inl hc), trivial⟩
    · simp only [hx, false_and, if_false]
      refine ⟨?_, trivial⟩
      split
      · rfl
      · exact Function.update_of_ne (Ne.symm hx) ..

/-- **A file after a run** is its log applied to what it was. -/
theorem run_file (ops : List FileOp) : ∀ f : Files,
    (run inum f ops).2.file i = applyAll (f.file i) (log inum i f ops) ∧
    Gapless (f.file i) (log inum i f ops) := by
  induction ops with
  | nil => intro f; exact ⟨rfl, trivial⟩
  | cons op ops ih =>
    intro f
    have ⟨hstep, hgap⟩ : (step inum f op).2.file i = _ ∧ _ := step_file f op
    obtain ⟨hrest, hgap'⟩ := ih (step inum f op).2
    rw [hstep] at hrest hgap'
    exact ⟨by rw [log, applyAll_append]; exact hrest, hgap.append hgap'⟩

end FileSpec

/-! ## The code -/

/-- Run one call; a write has no bytes to return. -/
def FileOp.run : FileOp → FsM (Int × List UInt8)
  | .read x dst off n => readi x dst off n
  | .write x src off n => do return (← writei x src off n, [])

/-- Run calls one after the other. -/
def runFileOps : List FileOp → FsM (List (Int × List UInt8))
  | [] => return []
  | op :: ops => do
    let r ← op.run
    let rs ← runFileOps ops
    return r :: rs

/-- The inode each slot caches. -/
abbrev Fs.inum (s : Fs) (x : Slot) : Nat := (s.icache x).inum

/-- The bytes of inode `i`, as many as its size says. -/
def Ghost.bytes (G : Ghost) (s : Fs) (i : Nat) : List UInt8 := slice (G.file s i) 0 (G.tbl i).size

/-- The files a state of the system stands for. -/
def Ghost.files (G : Ghost) (s : Fs) : Files := ⟨G.bytes s, s.mem⟩

/-- A loaded inode that is not a device. -/
structure FileOpen (G : Ghost) (s : Fs) (x : Slot) : Prop where
  ref : x ∈ G.refs
  valid : (s.icache x).valid = true
  file : (G.tbl (s.icache x).inum).type ≠ T_DEV

/-- The blocks a call lacks. -/
def FileOp.lacks (G : Ghost) (s : Fs) : FileOp → Nat
  | .read .. => 0
  | .write x _ off n => missing (G.own s) (s.icache x).inum (touched off (min n (MAXFILE * BSIZE - off)))

/-- **One call** as the abstract model sees it, with what it leaves alone. -/
structure FileStep (op : FileOp) (G : Ghost) (s : Fs) (r : Int × List UInt8) (G' : Ghost) (s' : Fs) : Prop where
  core : Core G' s'
  spec : (r, G'.files s') = FileSpec.step s.inum (G.files s) op
  /-- A refused call changes nothing at all. -/
  refused : r.1 = -1 → s' = s
  /-- A read allocates nothing and writes no block. -/
  read : ∀ x dst off n, op = .read x dst off n → s'.disk = s.disk ∧ s'.icache = s.icache
  /-- Of one inode at most the size and the pointers change. -/
  ghost : ∃ size addrs, G' = G.setMeta (s.inum op.slot) { G.tbl (s.inum op.slot) with size := size, addrs := addrs }
  /-- The other inodes are stored as they were, cached or not. -/
  stored : ∀ j < G.sb.ninodes, j ≠ s.inum op.slot → dmeta (s'.disk ROOTDEV) j = dmeta (s.disk ROOTDEV) j
  /-- If the inode was stored as it is, so it is after the call. -/
  saved : dmeta (s.disk ROOTDEV) (s.inum op.slot) = G.tbl (s.inum op.slot) →
    dmeta (s'.disk ROOTDEV) (s.inum op.slot) = G'.tbl (s.inum op.slot)
  inum : ∀ x, (s'.icache x).inum = (s.icache x).inum
  valid : ∀ x, (s'.icache x).valid = (s.icache x).valid

variable {G G' : Ghost} {s s' : Fs} {x : Slot} {op : FileOp} {r : Int × List UInt8} {dst : Dst} {src : Src}
  {off n m size : Nat} {f g : Arr}

/-- No call changes the type of an inode. -/
theorem FileStep.type (h : FileStep op G s r G' s') (j : Nat) : (G'.tbl j).type = (G.tbl j).type := by
  obtain ⟨size, addrs, hG⟩ := h.ghost
  rw [hG, Ghost.setMeta_tbl]
  by_cases hj : j = s.inum op.slot
  · rw [hj, Function.update_self]
  · rw [Function.update_of_ne hj]

theorem FileStep.open (h : FileStep op G s r G' s') (hx : FileOpen G s x) : FileOpen G' s' x := by
  obtain ⟨size, addrs, hG⟩ := h.ghost
  refine ⟨by rw [hG]; exact hx.ref, by rw [h.valid]; exact hx.valid, ?_⟩
  rw [h.inum, h.type]
  exact hx.file

theorem FileStep.sb (h : FileStep op G s r G' s') : G'.sb = G.sb := by
  obtain ⟨size, addrs, hG⟩ := h.ghost
  rw [hG, Ghost.setMeta_sb]

/-- **The stored inodes stay current.** -/
theorem FileStep.clean (h : FileStep op G s r G' s') (hcl : Clean G s) : Clean G' s' := by
  intro j hj
  rw [h.sb] at hj
  by_cases hi : j = s.inum op.slot
  · rw [hi] at hj ⊢
    exact h.saved (hcl _ hj)
  · obtain ⟨size, addrs, hG⟩ := h.ghost
    rw [h.stored j hj hi, hcl j hj, hG, Ghost.setMeta_tbl, Function.update_of_ne hi]

/-- A slice read through the string of the file. -/
theorem slice_eq_take_drop (f : Arr) (off n size : Nat) :
    slice f off (min n (size - off)) = ((slice f 0 size).drop off).take n := by
  apply List.ext_getElem?
  intro k
  simp only [slice, List.getElem?_take, List.getElem?_drop, List.getElem?_map, Nat.zero_add]
  by_cases hk : k < min n (size - off)
  · rw [List.getElem?_range hk, if_pos (by omega), List.getElem?_range (by omega)]
    rfl
  · rw [List.getElem?_eq_none (by rw [List.length_range]; omega)]
    split
    · rw [List.getElem?_eq_none (by rw [List.length_range]; omega)]
      rfl
    · rfl

/-- Replacing bytes of the array overwrites the string. -/
theorem slice_blit (h : off ≤ size) :
    slice (blit f off m g) 0 (max size (off + m)) = overwrite (slice f 0 size) off (slice g 0 m) := by
  apply List.ext_getElem?
  intro k
  rw [getElem?_overwrite (by rw [slice_length]; exact h), slice_length]
  simp only [slice, List.getElem?_map, Nat.zero_add]
  by_cases hk : off ≤ k ∧ k < off + m
  · rw [if_pos hk, List.getElem?_range (by omega), List.getElem?_range (by omega)]
    exact congrArg some (blit_in hk.1 hk.2)
  · rw [if_neg hk]
    by_cases hs : k < size
    · rw [List.getElem?_range (by omega), List.getElem?_range hs]
      exact congrArg some (blit_out (by omega))
    · rw [List.getElem?_eq_none (by rw [List.length_range]; omega),
        List.getElem?_eq_none (by rw [List.length_range]; omega)]
      rfl

@[simp] theorem length_files (G : Ghost) (s : Fs) (i : Nat) :
    ((G.files s).file i).length = (G.tbl i).size := slice_length ..

/-- Both calls test the same two conditions. -/
theorem refused_iff {i : Nat} : FileSpec.Refused ((G.files s).file i) off n ↔
    (G.tbl i).size < off ∨ (off + n) % 4294967296 < off := by
  rw [FileSpec.Refused, length_files]

/-- Copying out is what the abstract model does to memory. -/
theorem Dst.store_mem {bytes : List UInt8} (hb : bytes = slice f 0 n) :
    (dst.store s 0 n f).mem = dst.copied s.mem bytes := by
  cases dst with
  | kernel => rfl
  | user a =>
    simp only [Dst.store, Dst.copied, Nat.add_zero, hb, slice_length]
    funext k
    by_cases hk : a ≤ k ∧ k < a + n
    · rw [blit_in hk.1 hk.2, blit_in hk.1 hk.2]
      have hlt : k - a < n := by omega
      simp [slice, List.getD_eq_getElem?_getD, List.getElem?_range hlt]
    · rw [blit_out (by omega), blit_out (by omega)]

/-- A call may leave the metadata as it is. -/
theorem Ghost.setMeta_self (G : Ghost) (i : Nat) : ∃ size addrs,
    G = G.setMeta i { G.tbl i with size := size, addrs := addrs } := by
  refine ⟨(G.tbl i).size, (G.tbl i).addrs, ?_⟩
  rw [Ghost.setMeta, Function.update_eq_self]

/-- **`readi` refines `read`.** -/
theorem readi_step (h : Core G s) (hx : FileOpen G s x) :
    wp (readi x dst off n) (fun r s' => FileStep (.read x dst off n) G s r G s') (fun _ _ => False) s := by
  refine wp_post (readi_spec h hx.ref hx.valid hx.file) ?_
  intro r s' hr
  have hsame := G.setMeta_self (s.icache x).inum
  by_cases hbad : (G.tbl (s.icache x).inum).size < off ∨ (off + n) % 4294967296 < off
  · rw [if_pos hbad] at hr
    obtain ⟨rfl, rfl⟩ := hr
    refine ⟨h, ?_, fun _ => rfl, fun _ _ _ _ _ => ⟨rfl, rfl⟩, hsame, fun _ _ _ => rfl, id, fun _ => rfl, fun _ => rfl⟩
    simp only [FileSpec.step, FileSpec.read, if_pos (refused_iff.mpr hbad)]
  · rw [if_neg hbad] at hr
    obtain ⟨rfl, rfl⟩ := hr
    have hd := Dst.store_disk dst s 0 (min n ((G.tbl (s.icache x).inum).size - off))
      fun k => G.file s (s.icache x).inum (off + k)
    have hc := Dst.store_icache dst s 0 (min n ((G.tbl (s.icache x).inum).size - off))
      fun k => G.file s (s.icache x).inum (off + k)
    refine ⟨h.congr hd hc, ?_, fun hneg => absurd hneg (by omega), fun _ _ _ _ _ => ⟨hd, hc⟩, hsame,
      fun _ _ _ => by rw [hd], fun hs => by rw [hd]; exact hs, fun _ => by rw [hc], fun _ => by rw [hc]⟩
    have hbytes : (((G.files s).file (s.icache x).inum).drop off).take n =
        slice (G.file s (s.icache x).inum) off (min n ((G.tbl (s.icache x).inum).size - off)) :=
      (slice_eq_take_drop ..).symm
    simp only [FileSpec.step, FileSpec.read, if_neg fun hc => hbad (refused_iff.mp hc), hbytes, length_files]
    congr 1
    refine Files.mk.injEq .. ▸ ⟨funext fun i => ?_, Dst.store_mem ?_⟩
    · simp only [Ghost.files, Ghost.bytes, G.file_congr hd]
    · simp only [slice, Nat.zero_add]

/-- The bytes an accepted read returns. -/
theorem FileStep.bytes (h : FileStep (.read x dst off n) G s r G' s') (hok : r.1 ≠ -1) :
    r.2 = (((G.files s).file (s.icache x).inum).drop off).take n := by
  have hspec := congrArg Prod.fst h.spec
  simp only [FileSpec.step, FileSpec.read] at hspec
  split at hspec
  · rw [hspec] at hok
    exact absurd rfl hok
  · rw [hspec]

/-- The strings of the files after a completed write. -/
theorem WriteDone.files_eq (hw : WriteDone x src off m G s G' s') (hoff : off ≤ (G.tbl (s.icache x).inum).size) :
    G'.files s' = (G.files s).put (s.icache x).inum
      (overwrite ((G.files s).file (s.icache x).inum) off (slice (src.bytes s.mem) 0 m)) := by
  obtain ⟨a, hG⟩ := hw.ghost
  simp only [Ghost.files, Files.put, Files.mk.injEq]
  refine ⟨funext fun j => ?_, hw.mem⟩
  by_cases hj : j = (s.icache x).inum
  · subst hj
    rw [Function.update_self, Ghost.bytes, Ghost.bytes, hw.file, if_pos rfl, ← slice_blit hoff]
    simp only [hG, Ghost.setMeta_tbl, Function.update_self]
  · rw [Function.update_of_ne hj, Ghost.bytes, Ghost.bytes, hw.file, if_neg hj]
    simp only [hG, Ghost.setMeta_tbl, Function.update_of_ne hj]

/-- **`writei` refines `write`**, or there are fewer free blocks than it lacks. -/
theorem writei_step (h : Core G s) (hx : FileOpen G s x) :
    wp (writei x src off n) (fun r s' => ∃ G', FileStep (.write x src off n) G s (r, []) G' s')
      (fun e _ => e = .panic "balloc: out of blocks" ∧
        freeBlocks G.sb (s.disk ROOTDEV) < FileOp.lacks G s (.write x src off n)) s := by
  refine wp_post (writei_spec h hx.ref hx.valid hx.file) ?_
  intro r s' hr
  by_cases hbad : (G.tbl (s.icache x).inum).size < off ∨ (off + n) % 4294967296 < off
  · rw [if_pos hbad] at hr
    obtain ⟨rfl, rfl⟩ := hr
    refine ⟨G, h, ?_, fun _ => rfl, fun _ _ _ _ hop => ?_, G.setMeta_self _, fun _ _ _ => rfl, id, fun _ => rfl,
      fun _ => rfl⟩
    · simp only [FileSpec.step, FileSpec.write, if_pos (refused_iff.mpr hbad)]
    · cases hop
  rw [if_neg hbad] at hr
  obtain ⟨rfl, G', hw⟩ := hr
  have hoff : off ≤ (G.tbl (s.icache x).inum).size := Nat.le_of_not_lt fun hc => hbad (.inl hc)
  refine ⟨G', hw.core, ?_, fun hneg => absurd hneg (by simp only; omega), fun _ _ _ _ hop => ?_,
    ?_, hw.stored, hw.saved, fun y => ?_, fun y => ?_⟩
  · simp only [FileSpec.step, FileSpec.write, if_neg fun hc => hbad (refused_iff.mp hc), FileSpec.data,
      hw.files_eq hoff]
    rfl
  · cases hop
  · obtain ⟨a, hG⟩ := hw.ghost
    exact ⟨_, a, hG⟩
  · rw [hw.icache]
    by_cases hy : y = x
    · subst hy; rw [Function.update_self]
    · rw [Function.update_of_ne hy]
  · rw [hw.icache]
    by_cases hy : y = x
    · subst hy; rw [Function.update_self]
    · rw [Function.update_of_ne hy]

/-- **One call** refines one abstract call. -/
theorem FileOp.run_spec (h : Core G s) (op : FileOp) (hx : FileOpen G s op.slot) :
    wp op.run (fun r s' => ∃ G', FileStep op G s r G' s')
      (fun e _ => e = .panic "balloc: out of blocks" ∧ freeBlocks G.sb (s.disk ROOTDEV) < op.lacks G s) s := by
  cases op with
  | read x dst off n => exact wp_mono (readi_step h hx) (fun r s' hr => ⟨G, hr⟩) fun _ _ hf => hf.elim
  | write x src off n =>
    simp only [FileOp.run, wp_bind, wp_pure]
    exact writei_step h hx

/-- **A run** as the abstract model sees it, with what it leaves alone on disk. -/
structure FileRun (ops : List FileOp) (G : Ghost) (s : Fs) (rs : List (Int × List UInt8)) (G' : Ghost) (s' : Fs) : Prop where
  core : Core G' s'
  spec : (rs, G'.files s') = FileSpec.run s.inum (G.files s) ops
  sb : G'.sb = G.sb
  inum : s'.inum = s.inum
  /-- Inodes that no call is on are stored as they were. -/
  stored : ∀ j < G.sb.ninodes, (∀ op ∈ ops, s.inum op.slot ≠ j) → dmeta (s'.disk ROOTDEV) j = dmeta (s.disk ROOTDEV) j
  /-- If all inodes were stored as they are, so they are after the run. -/
  clean : Clean G s → Clean G' s'

theorem FileRun.nil (h : Core G s) : FileRun [] G s [] G s := ⟨h, rfl, rfl, rfl, fun _ _ _ => rfl, id⟩

theorem FileRun.cons {ops : List FileOp} {G1 : Ghost} {s1 : Fs} {rs : List (Int × List UInt8)} (h : FileStep op G s r G1 s1)
    (hr : FileRun ops G1 s1 rs G' s') : FileRun (op :: ops) G s (r :: rs) G' s' := by
  have hinum : s1.inum = s.inum := funext h.inum
  have hrun := hr.spec
  have hstored := hr.stored
  rw [hinum] at hrun hstored
  refine ⟨hr.core, ?_, hr.sb.trans h.sb, hr.inum.trans hinum, ?_, fun hcl => hr.clean (h.clean hcl)⟩
  · rw [FileSpec.run, ← h.spec, ← hrun]
  · intro j hj hops
    rw [hstored j (by rw [h.sb]; exact hj) fun op' hop' => hops op' (List.mem_cons_of_mem _ hop')]
    exact h.stored j hj (hops op List.mem_cons_self).symm

/-- The calls `ops` stopped at one that lacks more blocks than are free, after the others ran as the abstract
    model says. -/
def Stuck (ops : List FileOp) (G : Ghost) (s : Fs) : Prop :=
  ∃ before op after rs G' s', ops = before ++ op :: after ∧ exec (runFileOps before) s = (.ok rs, s') ∧
    FileRun before G s rs G' s' ∧ freeBlocks G'.sb (s'.disk ROOTDEV) < op.lacks G' s'

/-- **A run** refines the abstract run. -/
theorem runFileOps_spec (ops : List FileOp) : ∀ (G : Ghost) (s : Fs), Core G s →
    (∀ op ∈ ops, FileOpen G s op.slot) →
    wp (runFileOps ops)
      (fun rs s' => ∃ G', FileRun ops G s rs G' s' ∧ ∀ x, FileOpen G s x → FileOpen G' s' x)
      (fun e _ => e = .panic "balloc: out of blocks" ∧ Stuck ops G s) s := by
  induction ops with
  | nil =>
    intro G s h _
    exact ⟨G, .nil h, fun x hx => hx⟩
  | cons op ops ih =>
    intro G s h hops
    simp only [runFileOps, wp_bind, wp_pure]
    refine wp_mono (wp_run (op.run_spec h (hops op List.mem_cons_self))) ?_ ?_
    · rintro r s1 ⟨hexec, G1, hstep⟩
      have hrest := ih G1 s1 hstep.core fun op' hop' => hstep.open (hops op' (List.mem_cons_of_mem _ hop'))
      refine wp_mono hrest ?_ ?_
      · rintro rs s2 ⟨G2, hrun, hopen⟩
        exact ⟨G2, .cons hstep hrun, fun x hx => hopen x (hstep.open hx)⟩
      · -- the calls before the one that stopped, with this one in front
        rintro e s2 ⟨rfl, before, op', after, rs, G2, s2', rfl, hex, hrun, hroom⟩
        refine ⟨rfl, op :: before, op', after, r :: rs, G2, s2', rfl, ?_, .cons hstep hrun, hroom⟩
        rw [runFileOps, exec_bind, hexec]
        simp only [exec_bind, hex]
        rfl
    · rintro e s1 ⟨-, rfl, hroom⟩
      exact ⟨rfl, [], op, ops, [], G, s, rfl, rfl, .nil h, hroom⟩

/-- **Files are byte arrays.** `readi` and `writei` of loaded inodes that are not devices do what the abstract
    model says, each call and any run of them, and a byte read back is the one last written there. The inodes of
    other files are stored as they were, whether they are cached or not, and the inode of a file that is written is
    stored with its new size. The calls stop only where a write lacks more blocks than are free. -/
theorem fileOps_refine_bytes (h : Core G s) :
    (∀ op : FileOp, FileOpen G s op.slot →
      wp op.run (fun r s' => ∃ G', FileStep op G s r G' s')
        (fun e _ => e = .panic "balloc: out of blocks" ∧
          freeBlocks G.sb (s.disk ROOTDEV) < op.lacks G s) s) ∧
    ∀ ops : List FileOp, (∀ op ∈ ops, FileOpen G s op.slot) →
      wp (runFileOps ops)
        (fun rs s' => ∃ G', FileRun ops G s rs G' s' ∧
          ∀ x dst off n, FileOpen G s x →
            wp (readi x dst off n)
              (fun r _ => r.1 ≠ -1 → ∀ k < n, r.2[k]? =
                (lastWrite (FileSpec.log s.inum (s.icache x).inum (G.files s) ops) (off + k)).or
                  (G.bytes s (s.icache x).inum)[off + k]?)
              (fun _ _ => False) s')
        (fun e _ => e = .panic "balloc: out of blocks" ∧ Stuck ops G s) s := by
  refine ⟨fun op hop => op.run_spec h hop, fun ops hops => ?_⟩
  refine wp_post (runFileOps_spec ops G s h hops) ?_
  rintro rs s' ⟨G', hrun, hopen⟩
  refine ⟨G', hrun, fun x dst off n hx => ?_⟩
  have hinum : (s'.icache x).inum = (s.icache x).inum := congrFun hrun.inum x
  refine wp_post (readi_step hrun.core (hopen x hx)) ?_
  intro r s2 hr hok k hk
  obtain ⟨hfile, hgap⟩ : (FileSpec.run s.inum (G.files s) ops).2.file (s.icache x).inum = _ ∧
      _ := FileSpec.run_file ops (G.files s)
  rw [← hrun.spec] at hfile
  have hback : r.2[k]? = ((G'.files s').file (s.icache x).inum)[off + k]? := by
    rw [hr.bytes hok, hinum, List.getElem?_take_of_lt hk, List.getElem?_drop]
  rw [hback, hfile, getElem?_applyAll hgap]
  rfl

/-- Two bytes written to the empty file of a new image and read back from the second on. -/
def writeRead : List FileOp := [.write 0 (.kernel fun k => byteOf 25185 k) 0 2, .read 0 .kernel 1 5]

/-- The calls return, and inode 2 is stored with its new size. -/
theorem fileOps_refine_bytes_mkfs : ∃ s' G', exec (runFileOps writeRead) (mkfsImage.boot 2) = (.ok [(2, []), (1, [98])], s') ∧
    FileRun writeRead mkfsImage.ghost (mkfsImage.boot 2) [(2, []), (1, [98])] G' s' ∧
    Clean G' s' ∧ (dmeta (s'.disk ROOTDEV) 2).size = 2 := by
  have hcore : Core mkfsImage.ghost (mkfsImage.boot 2) :=
    mkfsImage_sound.core mkfsImage_zero (by decide) (by decide)
  have hopen : FileOpen mkfsImage.ghost (mkfsImage.boot 2) 0 :=
    ⟨Multiset.mem_singleton_self 0, rfl, by decide⟩
  have hclean : Clean mkfsImage.ghost (mkfsImage.boot 2) := fun i hi => Image.dmeta_eq hi (mkfsImage_sound.fits i)
  have hops : ∀ op ∈ writeRead, FileOpen mkfsImage.ghost (mkfsImage.boot 2) op.slot := by
    intro op hop
    rcases List.mem_cons.mp hop with rfl | hop
    · exact hopen
    · rw [List.mem_singleton.mp hop]
      exact hopen
  have hend : (exec (runFileOps writeRead) (mkfsImage.boot 2)).1 = .ok [(2, []), (1, [98])] ∧
      (dmeta ((exec (runFileOps writeRead) (mkfsImage.boot 2)).2.disk ROOTDEV) 2).size = 2 := by
    decide +kernel
  have hexec : exec (runFileOps writeRead) (mkfsImage.boot 2) =
      (.ok [(2, []), (1, [98])], (exec (runFileOps writeRead) (mkfsImage.boot 2)).2) := Prod.ext hend.1 rfl
  obtain ⟨G', hrun, -⟩ := wp_ok ((fileOps_refine_bytes hcore).2 writeRead hops) hexec
  exact ⟨_, G', hexec, hrun, hrun.clean hclean, hend.2⟩

/-- A device with two data blocks, both in use: a root directory and a file of one block. -/
def fullImage : Image := .ofFiles { size := 4095, ninodes := 32720 } [(T_DIR, 1), (T_FILE, 1)] fun _ _ => 0

/-- A device whose first free block, 42, is not zero: its first word is 41, the block of file 3. -/
def dirtyImage : Image :=
  .ofFiles { size := 1024, ninodes := 200 } [(T_DIR, 1), (T_FILE, 11), (T_FILE, 1)] fun b =>
    if b = 42 then put32 (fun _ => 0) 0 41 else fun _ => 0

/-- **Why free blocks matter.** On a full device a write past the end of a file panics; with a free block that
    is not zero, the first write that needs an indirect block changes another file. -/
theorem writei_full_or_dirty :
    (BlockOwnership fullImage.sb fullImage.tbl fullImage.disk ∧ NoHoles fullImage.sb fullImage.tbl fullImage.disk ∧
      (exec (writei 0 (.kernel fun _ => 7) 512 1) (fullImage.boot 2)).1 = .error (.panic "balloc: out of blocks")) ∧
    BlockOwnership dirtyImage.sb dirtyImage.tbl dirtyImage.disk ∧
    NoHoles dirtyImage.sb dirtyImage.tbl dirtyImage.disk ∧
    (exec (writei 0 (.kernel fun _ => 7) 5632 1) (dirtyImage.boot 2)).1 = .ok 1 ∧
    (dirtyImage.ghost.bytes (dirtyImage.boot 2) 3)[0]? = some 0 ∧
    (dirtyImage.ghost.bytes (exec (writei 0 (.kernel fun _ => 7) 5632 1) (dirtyImage.boot 2)).2 3)[0]? = some 7 := by
  have hfull : fullImage.Sound :=
    Image.ofFiles_sound ⟨by decide, by decide, by decide⟩ (by decide) (by decide) (by decide) (by decide) (by decide)
  have hdirty : dirtyImage.Sound :=
    Image.ofFiles_sound ⟨by decide, by decide, by decide⟩ (by decide) (by decide) (by decide) (by decide) (by decide)
  exact ⟨⟨hfull.blockOwnership, hfull.holes, by decide +kernel⟩, hdirty.blockOwnership, hdirty.holes,
    by decide +kernel, by decide +kernel, by decide +kernel⟩

end Xv6
