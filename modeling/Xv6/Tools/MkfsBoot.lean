import Xv6.Tools.MkfsImage
import Xv6.Fs.DirSpec

/-!
# `Tools.MkfsBoot` — the kernel on an image of `mkfs`

A kernel that has just booted has an empty inode cache and the image on its root device. When the inodes of the
image fit into the table and none has a hole, this is a state of the file system as the kernel's own invariant
describes it, so what the kernel's functions do there is known.
-/

namespace Xv6.Mkfs

open Bytes Hoare Ownership

variable {A : Plan} {s : Mk} {k : Fs} {i j n : Nat}

/-! ## Boot -/

/-- A kernel that has just booted from the image. -/
structure Booted (s : Mk) (k : Fs) : Prop where
  disk : k.disk ROOTDEV = s.disk
  cache : ∀ x, (k.icache x).ref = 0

/-- A kernel with the image on every device. -/
def bootOf (s : Mk) : Fs where
  disk _ := s.disk
  icache _ := ⟨⟨0, 0, 0, 0, 0, fun _ => 0⟩, 0, 0, 0, false, false, 0⟩
  tty _ := none
  mem _ := 0
  acc := []

theorem booted_bootOf (s : Mk) : Booted s (bootOf s) := ⟨rfl, fun _ => rfl⟩

/-- What is known of a kernel that has just booted. -/
def bootGhost (k : Fs) : Ghost where
  sb := imageSb
  R _ := none
  tg x := (k.icache x).tags
  tbl := dmeta (k.disk ROOTDEV)
  refs := 0
  held := ∅

/-- Every block below the size of inode `i` has bytes in it. -/
def Plan.Tight (A : Plan) (i : Nat) : Prop := ∀ n, n * BSIZE < A.size i → n * BSIZE < (A.data i).length

/-- The inodes past `ninodes` are free. -/
theorem Holds.own_image (h : Holds A s) (hn : A.next ≤ 200) :
    ownOf imageSb (dmeta s.disk) s.disk = s.own (dmeta s.disk) := by
  funext ⟨i, k⟩
  by_cases hi : i < 200
  · have ht : i < tableSb.ninodes := Nat.lt_of_lt_of_le hi (by decide)
    rw [Mk.own, ownOf, ownOf]
    simp only [show i < imageSb.ninodes from hi, ht, true_and]
  · rw [Mk.own, ownOf, ownOf, if_neg fun hc => hi hc.1, if_neg fun hc => ?_]
    have := (h.base.live i hc.1).mp hc.2.1
    rw [h.next] at this
    omega

/-- **The image is a volume.** -/
theorem Holds.vol (h : Holds A s) (hn : A.next ≤ 200) (hmap : s.disk 28 = bitmap s.freeblock)
    (ht : ∀ i, 1 ≤ i → i < A.next → A.Tight i) : Vol imageSb (fun _ => none) (dmeta s.disk) s.disk := by
  have hown := h.own_image hn
  have hroom := h.room
  have hbit : ∀ b < BPB, bit imageSb s.disk b = decide (b < s.freeblock) := fun b hb => by
    rw [bit_image hb, hmap, hasBit_bitmap]
  have hnbits : imageSb.nbits = BPB := rfl
  refine ⟨⟨h.base.super, ⟨by decide, by decide, by decide⟩, ?_, fun b hb hf j hj => ?_, fun b x hx => (by cases hx),
    fun b hb => (by cases hb)⟩, fun i hi hti n hsz => ?_, fun i hi => getMeta_fits _ _⟩
  · rw [hown]
    refine (h.base.owns.congr fun b => ?_).congr_reserved fun b => ?_
    · rw [Used, hnbits]
      constructor
      · rintro ⟨hlt, hb⟩
        rwa [hbit b hlt, decide_eq_true_eq] at hb
      · intro hb
        have hlt : b < BPB := by simp only [BPB]; omega
        exact ⟨hlt, by rw [hbit b hlt, decide_eq_true_eq]; exact hb⟩
    · constructor
      · rintro (hb | hb)
        · exact hb
        · cases hb
      · intro hb; exact .inl hb
  · rw [hnbits] at hb
    rw [hbit b hb, decide_eq_false_iff_not] at hf
    exact h.base.zero b (Nat.le_of_not_lt hf) j hj
  · have hi' : i < 207 := Nat.lt_of_lt_of_le hi (by decide)
    obtain ⟨h1, hlt⟩ := (h.base.live i hi').mp hti
    rw [h.next] at hlt
    have hat := h.inode i h1 hlt
    rw [hat.size] at hsz
    rw [hown, hat.mapped n]
    exact ht i h1 hlt n hsz

/-- **A booted kernel** is in a state of the file system. -/
theorem Holds.core (h : Holds A s) (hn : A.next ≤ 200) (hmap : s.disk 28 = bitmap s.freeblock)
    (ht : ∀ i, 1 ≤ i → i < A.next → A.Tight i) (hk : Booted s k) : Core (bootGhost k) k := by
  refine ⟨?_, ?_, ?_, ?_, ?_, ?_, ?_, ?_, ?_⟩
  · show Vol imageSb (fun _ => none) (dmeta (k.disk ROOTDEV)) (k.disk ROOTDEV)
    rw [hk.disk]
    exact h.vol hn hmap ht
  · exact hk.cache
  · intro x hx; cases hx
  · intro x hx; cases hx
  · intro x hx; cases hx
  · intro x hx; cases hx
  · intro x hx; cases hx
  · intro x hx; cases hx
  · exact fun _ => rfl

theorem Holds.file_boot (h : Holds A s) (hn : A.next ≤ 200) (hk : Booted s k) (hi : 1 ≤ i ∧ i < A.next) :
    (bootGhost k).file k i = localBytes (A.data i) := by
  rw [← (h.inode i hi.1 hi.2).bytes]
  show contents (ownOf imageSb (dmeta (k.disk ROOTDEV)) (k.disk ROOTDEV)) (k.disk ROOTDEV) i = _
  rw [hk.disk, h.own_image hn]
  rfl

/-! ## Reading -/

/-- `iget`, `ilock` and `readi`: the size of the inode, and what `readi` returns and copies. -/
def openRead (inum : Nat) (dst : Dst) (off n : Nat) : FsM (Nat × Int × List UInt8) := do
  let ip ← iget ROOTDEV inum
  ilock ip
  let i ← inode ip
  let r ← readi ip dst off n
  return (i.size, r)

/-- `iget`, `ilock` and `dirlookup`. -/
def openLookup (inum : Nat) (name : List UInt8) : FsM (Option (Slot × Nat)) := do
  let ip ← iget ROOTDEV inum
  ilock ip
  dirlookup ip name

/-- What is known of a booted kernel that has locked inode `i` in slot `x`. -/
def openGhost (k : Fs) (x : Slot) : Ghost := ⟨(bootGhost k).toEnv, dmeta (k.disk ROOTDEV), {x}, {x}⟩

/-- **The first `iget` and `ilock`** after boot. -/
theorem open_spec {α : Type} {f : Slot → FsM α} {Q : α → Fs → Prop} {E : Stop → Fs → Prop}
    (h : Core (bootGhost k) k) (hi : 1 ≤ i ∧ i < 200) (ht : (dmeta (k.disk ROOTDEV) i).type ≠ 0)
    (hf : ∀ x k', Core (openGhost k x) k' → k'.disk = k.disk → (k'.icache x).inum = i → (k'.icache x).valid = true →
      wp (f x) Q E k') :
    wp (do let ip ← iget ROOTDEV i; ilock ip; f ip) Q E k := by
  rw [wp_bind]
  refine wp_mono (iget_spec h hi) ?_ ?_
  swap
  · rintro e _ ⟨-, hall⟩
    exact absurd (hall 0) (Multiset.notMem_zero 0)
  rintro x k1 ⟨h1, hd1, hi1, -, -⟩
  have hclean : Clean ⟨(bootGhost k).toEnv, dmeta (k.disk ROOTDEV), {x}, ∅⟩ k1 := fun j _ => by rw [hd1]
  rw [wp_bind]
  refine wp_mono (ilock_spec h1 hclean (Multiset.mem_singleton_self x) (Finset.notMem_empty x)) ?_ ?_
  swap
  · rintro e _ ⟨-, h0⟩
    rw [hi1] at h0
    exact absurd h0 ht
  rintro _ k2 ⟨h2, hd2, hk2⟩
  refine hf x k2 h2 (hd2.trans hd1) ?_ (h2.cache.held x (Finset.mem_insert_self x ∅)).2
  rw [hk2.inum x (Multiset.mem_singleton_self x), hi1]

theorem openGhost_file {k' : Fs} {x : Slot} (hd : k'.disk = k.disk) :
    (openGhost k x).file k' = (bootGhost k).file k := by
  funext j
  simp only [Ghost.file, Ghost.own, hd]
  rfl

section Open

variable (h : Holds A s) (hn : A.next ≤ 200) (hmap : s.disk 28 = bitmap s.freeblock)
  (ht : ∀ i, 1 ≤ i → i < A.next → A.Tight i) (hk : Booted s k) (hi : 1 ≤ i ∧ i < A.next)
include h hn hmap ht hk hi

/-- **`readi` on a booted image** returns the bytes of the plan, and writes nothing. -/
theorem openRead_spec {dst : Dst} {off n : Nat} (hty : A.type i ≠ T_DEV) :
    wp (openRead i dst off n)
      (fun r k' => k'.disk = k.disk ∧ r = (A.size i,
        if A.size i < off ∨ (off + n) % 4294967296 < off then (-1, [])
        else (((min n (A.size i - off) : Nat) : Int), slice (localBytes (A.data i)) off (min n (A.size i - off)))))
      (fun _ _ => False) k := by
  have hat := h.inode i hi.1 hi.2
  have hdm : dmeta (k.disk ROOTDEV) i = dmeta s.disk i := by rw [hk.disk]
  have ht0 : (dmeta (k.disk ROOTDEV) i).type ≠ 0 := by
    rw [hdm]; exact (h.base.alive ⟨hi.1, by rw [h.next]; exact hi.2⟩).2
  unfold openRead
  refine open_spec (h.core hn hmap ht hk) ⟨hi.1, by omega⟩ ht0 fun x k1 h1 hd1 hi1 hv1 => ?_
  have hx : x ∈ (openGhost k x).refs := Multiset.mem_singleton_self x
  have hm : (openGhost k x).tbl (k1.icache x).inum = dmeta s.disk i := by rw [hi1]; exact hdm
  have hsize : (k1.icache x).size = A.size i := by rw [← hat.size, ← hm, ← (h1.live hx hv1).1]
  rw [wp_bind, wp_inode, wp_bind]
  refine wp_post (readi_spec h1 hx hv1 (by rw [hm, hat.type]; exact hty)) fun r k2 hr => ?_
  rw [wp_pure]
  rw [hm, hat.size, openGhost_file hd1, hi1, h.file_boot hn hk hi] at hr
  by_cases hbad : A.size i < off ∨ (off + n) % 4294967296 < off
  · rw [if_pos hbad] at hr ⊢
    obtain ⟨rfl, rfl⟩ := hr
    exact ⟨hd1, by rw [hsize]⟩
  · rw [if_neg hbad] at hr ⊢
    obtain ⟨rfl, rfl⟩ := hr
    exact ⟨(Dst.store_disk ..).trans hd1, by rw [hsize]⟩

end Open

/-! ## Appending -/

/-- A call of `ialloc`, for a directory or for a file, or of `iappend`. -/
inductive MkOp where
  | alloc (dir : Bool)
  | append (inum : Nat) (p : List UInt8)

def MkOp.run : MkOp → MkM Unit
  | .alloc dir => do let _ ← ialloc (if dir then T_DIR else T_FILE)
  | .append inum p => iappend inum p

/-- An image built by such calls. -/
@[irreducible] def build (ops : List MkOp) : MkM Unit := do
  mkfs nblocks ninodes size
  ops.forM MkOp.run
  balloc (← get).usedblocks

/-- Inodes that the calls make. -/
def allocs : List MkOp → Nat
  | [] => 0
  | .alloc _ :: ops => allocs ops + 1
  | .append _ _ :: ops => allocs ops

/-- Bytes are appended to inodes that exist; `n` is the next inode. -/
def Valid : Nat → List MkOp → Prop
  | _, [] => True
  | n, .alloc _ :: ops => Valid (n + 1) ops
  | n, .append i _ :: ops => (1 ≤ i ∧ i < n) ∧ Valid n ops

/-- The bytes appended to inode `i`. -/
def appended (i : Nat) : List MkOp → List UInt8
  | [] => []
  | .alloc _ :: ops => appended i ops
  | .append j p :: ops => (if j = i then p else []) ++ appended i ops

/-- Blocks that the calls use at most. -/
def opsCost : List MkOp → Nat
  | [] => 0
  | .alloc _ :: ops => opsCost ops
  | .append _ p :: ops => appendCost p + opsCost ops

/-- Every inode of the plan is a file or a directory, with its length for its size, and nothing is in the others. -/
structure Plan.Plain (A : Plan) : Prop where
  next : 1 ≤ A.next
  exact : ∀ i, 1 ≤ i → i < A.next → A.Exact i
  type : ∀ i, 1 ≤ i → i < A.next → A.type i ≠ T_DEV
  fresh : ∀ i, A.next ≤ i → A.data i = []

theorem Plan.Plain.alloc (h : A.Plain) {t : Int} (ht : t ≠ T_DEV) : (A.alloc t).Plain := by
  refine ⟨Nat.le_succ_of_le h.next, fun i h1 hi => ?_, fun i h1 hi => ?_, fun i hi => ?_⟩
  · by_cases hin : i = A.next
    · rw [hin]; exact A.exact_alloc t
    · exact (h.exact i h1 (Nat.lt_of_le_of_ne (Nat.le_of_lt_succ hi) hin)).alloc t
  · by_cases hin : i = A.next
    · rw [hin]
      show Function.update A.type A.next t A.next ≠ T_DEV
      rw [Function.update_self]
      exact ht
    · have hlt : i < A.next := Nat.lt_of_le_of_ne (Nat.le_of_lt_succ hi) hin
      rw [(Plan.Same.alloc hlt t).type]
      exact h.type i h1 hlt
  · show Function.update A.data A.next [] i = []
    rw [Function.update_of_ne (Nat.ne_of_gt hi)]
    exact h.fresh i (Nat.le_of_succ_le hi)

/-- A new inode has no bytes. -/
theorem Plan.Plain.alloc_data (h : A.Plain) (t : Int) (i : Nat) : (A.alloc t).data i = A.data i := by
  show Function.update A.data A.next [] i = A.data i
  by_cases hin : i = A.next
  · rw [hin, Function.update_self, h.fresh _ (Nat.le_refl _)]
  · rw [Function.update_of_ne hin]

theorem Plan.Plain.append (h : A.Plain) (hj : j < A.next) (p : List UInt8) : (A.append j p).Plain := by
  refine ⟨h.next, fun i h1 hi => (h.exact i h1 hi).append j p, h.type, fun i hi => ?_⟩
  rw [(Plan.Same.append (Nat.ne_of_gt (Nat.lt_of_lt_of_le hj hi)) p).data]
  exact h.fresh i hi

theorem Plan.Plain.tight (h : A.Plain) (h1 : 1 ≤ i) (hi : i < A.next) : A.Tight i := by
  intro m hm
  rwa [← h.exact i h1 hi]

theorem Plan.append_data_eq (A : Plan) (i j : Nat) (p : List UInt8) :
    (A.append j p).data i = A.data i ++ if j = i then p else [] := by
  by_cases hji : j = i
  · rw [hji, if_pos rfl, Plan.append_data]
  · rw [if_neg hji, List.append_nil, (Plan.Same.append (Ne.symm hji) p).data]

/-- **The calls one after the other.** An inode has the bytes it had, then those appended to it. They stop only when
    an inode gets too long or the blocks do not suffice. -/
theorem ops_holds (ops : List MkOp) : ∀ {A : Plan} {s : Mk}, Holds A s → A.Plain → Valid A.next ops →
    A.next + allocs ops ≤ 207 →
    wp (ops.forM MkOp.run)
      (fun _ s' => ∃ A', Holds A' s' ∧ A'.Plain ∧ A'.next = A.next + allocs ops ∧
        ∀ i, A'.data i = A.data i ++ appended i ops)
      (fun _ s' => ((∃ i, MAXFILE * BSIZE < (A.data i ++ appended i ops).length) ∨ size < s'.freeblock) ∧
        ((∃ i, MAXFILE * BSIZE < (A.data i ++ appended i ops).length) ∨ size < s.freeblock + opsCost ops)) s := by
  induction ops with
  | nil =>
    intro A s h hp _ _
    exact ⟨A, h, hp, rfl, fun i => by rw [appended, List.append_nil]⟩
  | cons op ops ih =>
    intro A s h hp hv hn
    cases op with
    | alloc dir =>
      have hn : A.next + (allocs ops + 1) ≤ 207 := hn
      have hdata : ∀ t i, (A.alloc t).data i ++ appended i ops = A.data i ++ appended i (.alloc dir :: ops) :=
        fun t i => by rw [hp.alloc_data]; rfl
      show wp ((ialloc _ >>= fun _ => pure ()) >>= fun _ => ops.forM MkOp.run) _ _ s
      have ht : 0 < (if dir then T_DIR else T_FILE) ∧ (if dir then T_DIR else T_FILE) < 32768 ∧
          (if dir then T_DIR else T_FILE) ≠ T_DEV := by cases dir <;> decide
      rw [wp_bind, wp_bind]
      refine wp_mono (ialloc_holds h ⟨hp.next, by omega⟩ ⟨ht.1, ht.2.1⟩) ?_ fun _ _ hf => hf.elim
      rintro _ s1 ⟨rfl, h1, hfb⟩
      rw [wp_pure]
      refine wp_mono (ih h1 (hp.alloc ht.2.2) hv (by show A.next + 1 + allocs ops ≤ 207; omega)) ?_ ?_
      · rintro _ s2 ⟨A', hA', hp', hn', hd'⟩
        exact ⟨A', hA', hp', hn'.trans (Nat.add_right_comm ..), fun i => (hd' i).trans (hdata _ i)⟩
      · intro _ s2 hf
        simp only [hdata, hfb] at hf
        exact hf
    | append j p =>
      obtain ⟨hj, hv⟩ := hv
      have hdata : ∀ i, (A.append j p).data i ++ appended i ops = A.data i ++ appended i (.append j p :: ops) :=
        fun i => by rw [Plan.append_data_eq, List.append_assoc]; rfl
      show wp (iappend j p >>= fun _ => ops.forM MkOp.run) _ _ s
      rw [wp_bind]
      refine wp_mono (iappend_holds h hj (hp.exact j hj.1 hj.2)) ?_ ?_
      · rintro _ s1 ⟨h1, hfb⟩
        refine wp_mono (ih h1 (hp.append hj.2 p) hv hn) ?_ ?_
        · rintro _ s2 ⟨A', hA', hp', hn', hd'⟩
          exact ⟨A', hA', hp', hn', fun i => (hd' i).trans (hdata i)⟩
        · intro _ s2 hf
          simp only [hdata] at hf
          exact hf.imp_right fun hf => hf.imp_right fun hroom => by rw [opsCost]; omega
      · rintro _ s1 ⟨hno, hf⟩
        have hlen : A.size j + p.length ≤ (A.data j ++ appended j (.append j p :: ops)).length := by
          rw [hp.exact j hj.1 hj.2, ← hdata, Plan.append_data, List.length_append, List.length_append]
          exact Nat.le_add_right ..
        refine ⟨hf.imp_left fun hlong => ⟨j, Nat.lt_of_lt_of_le hlong hlen⟩, ?_⟩
        by_cases hlong : MAXFILE * BSIZE < A.size j + p.length
        · exact .inl ⟨j, Nat.lt_of_lt_of_le hlong hlen⟩
        · have hroom : 1024 < s.freeblock + appendCost p :=
            Nat.lt_of_not_le fun hle => hno ⟨Nat.le_of_not_lt hlong, hle⟩
          exact .inr (by rw [opsCost, size]; omega)

/-- **The image that the calls build.** -/
theorem build_holds {ops : List MkOp} (hv : Valid 1 ops) (hn : allocs ops ≤ 206) :
    wp (build ops)
      (fun _ s => ∃ A, Holds A s ∧ A.Plain ∧ A.next = 1 + allocs ops ∧ s.disk 28 = bitmap s.freeblock ∧
        ∀ i, A.data i = appended i ops)
      (fun _ s => ((∃ i, MAXFILE * BSIZE < (appended i ops).length) ∨ size < s.freeblock) ∧
        ((∃ i, MAXFILE * BSIZE < (appended i ops).length) ∨ size < 29 + opsCost ops)) Mk.init := by
  unfold build
  rw [wp_bind]
  apply mkfs_spec
  have hplain : Plan.empty.Plain := ⟨Nat.le_refl _, fun i h1 hi => absurd hi (Nat.not_lt_of_le h1),
    fun i h1 hi => absurd hi (Nat.not_lt_of_le h1), fun _ _ => rfl⟩
  rw [wp_bind]
  refine wp_mono (ops_holds ops empty_holds hplain hv (by show 1 + allocs ops ≤ 207; omega)) ?_ fun _ _ hf => hf
  rintro _ s1 ⟨A, hA, hp, hnext, hd⟩
  refine wp_post (balloc_holds hA) ?_
  rintro _ s2 ⟨hA2, hmap⟩
  exact ⟨A, hA2, hp, hnext, hmap, hd⟩

/-- A slice of the bytes of a string. -/
theorem slice_localBytes (d : List UInt8) (off n : Nat) :
    slice (localBytes d) off (min n (d.length - off)) = (d.drop off).take n := by
  refine List.ext_getElem ?_ fun j h1 h2 => ?_
  · rw [slice_length, List.length_take, List.length_drop]
  · rw [List.getElem_take, List.getElem_drop]
    simp only [slice, localBytes, List.getElem_map, List.getElem_range]
    rw [List.getD_eq_getElem?_getD, List.getElem?_eq_getElem, Option.getD_some]

/-- What `ilock` and then `readi` are to return for the bytes `d`: its length and a slice. -/
def sliceOf (d : List UInt8) (off n : Nat) : Nat × Int × List UInt8 :=
  (d.length, ((d.drop off).take n).length, (d.drop off).take n)

/-- **The kernel reads what `mkfs` wrote**, for every way the bytes of an inode were appended in between calls for
    other inodes. `mkfs` stops only when an inode gets too long or the blocks do not suffice. -/
theorem mkfs_readi (ops : List MkOp) (hv : Valid 1 ops) (hn : allocs ops < ninodes) :
    wp (build ops)
      (fun _ s => ∀ k, Booted s k → ∀ i dst off n, 1 ≤ i → i ≤ allocs ops → off ≤ (appended i ops).length →
        off + n < 4294967296 →
        wp (openRead i dst off n) (fun r _ => r = sliceOf (appended i ops) off n) (fun _ _ => False) k)
      (fun _ s => (∃ i, MAXFILE * BSIZE < (appended i ops).length) ∨ size < s.freeblock) Mk.init := by
  simp only [ninodes] at hn
  refine wp_mono (build_holds hv (by omega)) ?_ fun _ _ hf => hf.1
  rintro _ s ⟨A, hA, hp, hnext, hmap, hd⟩ k hk i dst off n h1 hi hoff hwrap
  have hi' : 1 ≤ i ∧ i < A.next := by omega
  have hsize : A.size i = (appended i ops).length := by rw [hp.exact i hi'.1 hi'.2, hd]
  refine wp_post (openRead_spec hA (by omega) hmap (fun _ => hp.tight) hk hi' (hp.type i hi'.1 hi'.2)) ?_
  rintro r k' ⟨-, rfl⟩
  rw [hsize, hd, if_neg (by rw [Nat.mod_eq_of_lt hwrap]; omega), slice_localBytes, sliceOf]
  rw [List.length_take, List.length_drop]

/-- With room for the bytes the image is built. -/
theorem build_completes {ops : List MkOp} (hv : Valid 1 ops) (hn : allocs ops ≤ 206)
    (hlen : ∀ i, (appended i ops).length ≤ MAXFILE * BSIZE) (hcost : 29 + opsCost ops ≤ size) :
    ∃ s, exec (build ops) Mk.init = (.ok (), s) := by
  obtain ⟨_, s, hs, -⟩ := wp_total (wp_mono (build_holds hv hn) (fun _ _ h => h) fun _ _ hf =>
    hf.2.elim (fun ⟨i, hi⟩ => absurd (hlen i) (Nat.not_le_of_lt hi)) (absurd hcost ∘ Nat.not_le_of_lt))
  exact ⟨s, hs⟩

/-- Two files, written in turn; the second piece of the first file begins in its last direct block and ends in its
    first indirect one. -/
def inTurn : List MkOp :=
  [.alloc false, .alloc false, .append 1 (List.replicate 5631 97), .append 2 [98], .append 1 [99, 100], .append 2 [101]]

attribute [local irreducible] wp in
/-- The last bytes of the first file. -/
theorem mkfs_readi_inTurn : ∃ s, exec (build inTurn) Mk.init = (.ok (), s) ∧
    wp (openRead 1 .kernel 5630 5) (fun r _ => r = (5633, 3, [97, 99, 100])) (fun _ _ => False) (bootOf s) := by
  have hfirst : appended 1 inTurn = List.replicate 5631 97 ++ [99, 100] := rfl
  have hv : Valid 1 inTurn := ⟨by decide, by decide, by decide, by decide, trivial⟩
  have hlen : ∀ i, (appended i inTurn).length ≤ MAXFILE * BSIZE := by
    intro i
    simp only [inTurn, appended]
    split_ifs <;> simp only [List.length_append, List.length_replicate, List.length_nil, List.length_cons] <;> decide
  have hcost : opsCost inTurn = 36 := by
    simp only [inTurn, opsCost, appendCost, List.length_replicate]
    rfl
  obtain ⟨s, hs⟩ := build_completes hv (by decide) hlen (by rw [hcost]; decide)
  have h := wp_ok (mkfs_readi inTurn hv (by decide)) hs
  have hoff : 5630 ≤ (appended 1 inTurn).length := by
    rw [hfirst, List.length_append, List.length_replicate]
    decide
  have hread := h _ (booted_bootOf s) 1 .kernel 5630 5 (by decide) (by decide) hoff (by decide)
  have hdrop : (List.replicate 5631 97 ++ [99, 100] : List UInt8).drop 5630 = [97, 99, 100] := by
    rw [List.drop_append, List.drop_replicate, List.length_replicate]
    rfl
  refine ⟨s, hs, wp_post hread fun r _ hr => hr.trans ?_⟩
  rw [hfirst, sliceOf, hdrop, List.length_append, List.length_replicate]
  rfl

attribute [local irreducible] wp in
/-- Asked for as many bytes as there can be, `readi` returns -1: the sum of offset and count wraps. -/
theorem readi_count_wraps : ∃ s, exec (build [.alloc false, .append 1 [97, 98]]) Mk.init = (.ok (), s) ∧
    ¬ wp (openRead 1 .kernel 1 4294967295) (fun r _ => r = sliceOf [97, 98] 1 4294967295) (fun _ _ => False)
      (bootOf s) := by
  have hlen : ∀ i, (appended i [.alloc false, .append 1 [97, 98]]).length ≤ MAXFILE * BSIZE := by
    intro i
    simp only [appended]
    split_ifs <;> simp
  obtain ⟨s, hs⟩ := @build_completes [.alloc false, .append 1 [97, 98]] ⟨by decide, trivial⟩ (by decide) hlen (by decide)
  refine ⟨s, hs, fun h => ?_⟩
  obtain ⟨A, hA, hp, hnext, hmap, hd⟩ := wp_ok (build_holds (show Valid 1 [.alloc false, .append 1 [97, 98]] from
    ⟨by decide, trivial⟩) (by decide)) hs
  have hi : 1 ≤ 1 ∧ 1 < A.next := ⟨Nat.le_refl _, by rw [hnext]; decide⟩
  have hread := @openRead_spec A s _ 1 hA (by rw [hnext]; decide) hmap (fun _ => hp.tight) (booted_bootOf s) hi
    .kernel 1 4294967295 (hp.type 1 hi.1 hi.2)
  rw [if_pos (.inr (by decide))] at hread
  obtain ⟨r, k, hr, -, rfl⟩ := wp_total hread
  have hret := wp_ok h hr
  rw [sliceOf, Prod.mk.injEq, Prod.mk.injEq] at hret
  omega

end Xv6.Mkfs
