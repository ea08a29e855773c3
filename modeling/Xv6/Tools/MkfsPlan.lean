import Xv6.Tools.MkfsSpec

/-!
# `Tools.MkfsPlan` — what the image of a directory is to hold

A plan says what each inode is: its type, its bytes and the size stored for it. `mkfs` follows the plan of its
directory: after every routine the image holds the plan that the routine's counterpart makes. What an image looks
like is then a question about plans, where there are no blocks and no sectors.

## Contents
- **Plans.** `Plan` and its steps; `planEntries`, the plan of a directory stream.
- **Refinement.** `Holds`: the image holds the plan; one lemma per routine up to `addEntries_holds`.
- **Room.** `Listing.cost`, `Listing.Short`: when `mkfs` cannot fail.
-/

namespace Xv6.Mkfs

open Bytes Hoare Ownership

/-! ## Plans -/

/-- What the inodes `1 .. next` are. -/
structure Plan where
  next : Nat
  type : Nat → Int
  data : Nat → List UInt8
  size : Nat → Nat

namespace Plan

/-- A new, empty inode. -/
def alloc (A : Plan) (t : Int) : Plan where
  next := A.next + 1
  type := Function.update A.type A.next t
  data := Function.update A.data A.next []
  size := Function.update A.size A.next 0

/-- More bytes for inode `i`. -/
def append (A : Plan) (i : Nat) (p : List UInt8) : Plan where
  next := A.next
  type := A.type
  data := Function.update A.data i (A.data i ++ p)
  size := Function.update A.size i (A.size i + p.length)

/-- The size of directory `i` goes up to the next block boundary, and past it if it is at one. -/
def round (A : Plan) (i : Nat) : Plan where
  next := A.next
  type := A.type
  data := A.data
  size := Function.update A.size i ((A.size i / BSIZE + 1) * BSIZE)

/-- The entries `.` and `..`. -/
def dots (A : Plan) (cur parent : Nat) : Plan := (A.append cur (dirent cur dot)).append cur (dirent parent dotdot)

/-- Nothing is there yet. -/
def empty : Plan where
  next := 1
  type _ := 0
  data _ := []
  size _ := 0

end Plan

/-- The plan after the entries of directory `cur`. -/
def planEntries (cur : Nat) : Listing → Plan → Plan
  | .done, A => A
  | .fail, A => A
  | .file name reads rest, A =>
    if Skipped name then planEntries cur rest A
    else
      let A' := reads.foldl (·.append A.next) (A.alloc T_FILE)
      planEntries cur rest (A'.append cur (dirent A.next (cstr name)))
  | .dir name sub rest, A =>
    if Skipped name then planEntries cur rest A
    else
      let A' := (planEntries A.next sub ((A.alloc T_DIR).dots A.next cur)).round A.next
      planEntries cur rest (A'.append cur (dirent A.next (cstr name)))
  | .closed name rest, A =>
    if Skipped name then planEntries cur rest A
    else
      planEntries cur rest (((A.alloc T_DIR).dots A.next cur).append cur (dirent A.next (cstr name)))

/-- The plan of a whole image. -/
def planRoot : Option Listing → Plan
  | none => (Plan.empty.alloc T_DIR).dots ROOTINO ROOTINO
  | some entries => (planEntries ROOTINO entries ((Plan.empty.alloc T_DIR).dots ROOTINO ROOTINO)).round ROOTINO

/-- Inodes that a directory stream makes. -/
def Listing.inodes : Listing → Nat
  | .done => 0
  | .fail => 0
  | .file name _ rest => (if Skipped name then 0 else 1) + rest.inodes
  | .dir name sub rest => (if Skipped name then 0 else 1 + sub.inodes) + rest.inodes
  | .closed name rest => (if Skipped name then 0 else 1) + rest.inodes

/-- Blocks that `iappend` of `p` uses at most. -/
def appendCost (p : List UInt8) : Nat := 2 * (p.length / BSIZE + 2)

/-- Blocks that a directory stream uses at most. -/
def Listing.cost : Listing → Nat
  | .done => 0
  | .fail => 0
  | .file name reads rest => (if Skipped name then 0 else (reads.map appendCost).sum + 4) + rest.cost
  | .dir name sub rest => (if Skipped name then 0 else 8 + sub.cost + 4) + rest.cost
  | .closed name rest => (if Skipped name then 0 else 12) + rest.cost

/-- The streams deliver to their end, and no file and no directory is too long; `n` bytes of the directory are
    there already. -/
def Listing.Short : Nat → Listing → Prop
  | n, .done => n ≤ MAXFILE * BSIZE
  | _, .fail => False
  | n, .file name reads rest =>
    if Skipped name then rest.Short n
    else (reads.map List.length).sum ≤ MAXFILE * BSIZE ∧ rest.Short (n + 16)
  | n, .dir name sub rest => if Skipped name then rest.Short n else sub.Short 32 ∧ rest.Short (n + 16)
  | n, .closed name rest => if Skipped name then rest.Short n else rest.Short (n + 16)

@[simp] theorem dirent_length (i : Nat) (name : List UInt8) : (dirent i name).length = 16 := by
  rw [dirent, List.length_map, List.length_range]

/-! ## Refinement -/

/-- The image has what the plan says about inode `i`. -/
structure HoldsAt (A : Plan) (s : Mk) (i : Nat) : Prop where
  type : (dmeta s.disk i).type = A.type i
  nlink : (dmeta s.disk i).nlink = 1
  size : (dmeta s.disk i).size = A.size i
  mapped : ∀ n, s.own (dmeta s.disk) (i, blockIx n) ≠ none ↔ n * BSIZE < (A.data i).length
  bytes : s.file (dmeta s.disk) i = localBytes (A.data i)

/-- **The image holds the plan.** -/
structure Holds (A : Plan) (s : Mk) : Prop where
  base : Base (dmeta s.disk) s
  room : s.freeblock ≤ 1024
  next : s.freeinode = A.next
  inode : ∀ i, 1 ≤ i → i < A.next → HoldsAt A s i

variable {A : Plan} {s s' : Mk} {tbl : Nat → Meta} {i j k n : Nat} {p : List UInt8}

theorem Holds.lt (h : Holds A s) (hi : i < A.next) : i < 207 := Nat.lt_of_lt_of_le hi (h.next ▸ h.base.next)

/-- The blocks of an inode are enough for what it holds. -/
theorem HoldsAt.length_le (h : HoldsAt A s i) : (A.data i).length ≤ MAXFILE * BSIZE := by
  by_contra hgt
  exact (h.mapped MAXFILE).mpr (by omega) (ownOf_past (by decide))

/-- What the plan says of one inode depends on nothing else. -/
theorem HoldsAt.congr {A' : Plan} (h : HoldsAt A s i) (ht : A'.type i = A.type i) (hd : A'.data i = A.data i)
    (hs : A'.size i = A.size i) (hm : dmeta s'.disk i = dmeta s.disk i)
    (hown : ∀ n, s'.own (dmeta s'.disk) (i, blockIx n) = s.own (dmeta s.disk) (i, blockIx n))
    (hfile : s'.file (dmeta s'.disk) i = s.file (dmeta s.disk) i) : HoldsAt A' s' i := by
  refine ⟨?_, ?_, ?_, fun n => ?_, ?_⟩
  · rw [hm, ht]; exact h.type
  · rw [hm]; exact h.nlink
  · rw [hm, hs]; exact h.size
  · rw [hown, hd]; exact h.mapped n
  · rw [hd, hfile]; exact h.bytes

/-- Only the inodes that exist matter. -/
theorem Mk.own_congr {tbl' : Nat → Meta} (h : ∀ i < 207, tbl' i = tbl i) : s.own tbl' = s.own tbl := by
  funext x
  by_cases hx : x.1 < 207
  · exact ownOf_congr (h x.1 hx) fun _ _ _ => rfl
  · rw [Mk.own, Mk.own, ownOf, ownOf, if_neg fun hc => hx hc.1, if_neg fun hc => hx hc.1]

theorem Base.stored (h : Base tbl s) (hst : Stored tbl s) :
    s.own (dmeta s.disk) = s.own tbl ∧ Base (dmeta s.disk) s := by
  have hown : s.own (dmeta s.disk) = s.own tbl := Mk.own_congr hst
  refine ⟨hown, h.super, h.sectors, h.used, h.next, fun i hi => ?_, fun i _ => getMeta_fits _ _, ?_, h.zero, h.written⟩
  · rw [hst i hi]; exact h.live i hi
  · rw [hown]; exact h.owns

/-- Type and addresses are all that pointers depend on. -/
theorem ownOf_setMeta {sb : Superblock} {d : Disk} {m : Meta} (ht : m.type = (tbl i).type)
    (ha : m.addrs = (tbl i).addrs) : ownOf sb (Function.update tbl i m) d (i, k) = ownOf sb tbl d (i, k) := by
  have hp : ptr d m k = ptr d (tbl i) k := by rw [ptr, ptr, ha]
  rw [ownOf, ownOf]
  simp only [Function.update_self, ht, hp]

/-- **Storing the inode in memory** makes the image agree with the table. -/
theorem Base.store {din : Dinode} (h : Base tbl s) (hst : ∀ j < 207, j ≠ i → dmeta s.disk j = tbl j)
    (hi : 1 ≤ i ∧ i < s.freeinode) (hf : din.Fits) (ht : din.type = (tbl i).type) (ha : din.addrs = (tbl i).addrs) :
    Base (dmeta (s.putInode i din).disk) (s.putInode i din) ∧
      (s.putInode i din).own (dmeta (s.putInode i din).disk) = s.own tbl ∧
      (∀ j, (s.putInode i din).file (dmeta (s.putInode i din).disk) j = s.file tbl j) ∧
      ∀ j < 207, dmeta (s.putInode i din).disk j = if j = i then din.toMeta else tbl j := by
  obtain ⟨hlt, htype⟩ := h.alive hi
  have hown : (s.putInode i din).own (Function.update tbl i din.toMeta) = s.own tbl :=
    h.own_putInode hlt (fun k => ownOf_setMeta ht ha) fun j hj => Function.update_of_ne hj ..
  have hb := h.putInode hi hf (by rw [ht]; exact htype) hown
  have hd : ∀ j < 207, dmeta (s.putInode i din).disk j = if j = i then din.toMeta else tbl j := by
    intro j hj
    refine (dmeta_putDinode hf).trans ?_
    by_cases hji : j = i
    · rw [if_pos hji, if_pos hji]
    · rw [if_neg hji, if_neg hji, hst j hj hji]
  have hst' : Stored (Function.update tbl i din.toMeta) (s.putInode i din) := by
    intro j hj
    rw [hd j hj]
    by_cases hji : j = i
    · subst hji; rw [if_pos rfl, Function.update_self]
    · rw [if_neg hji, Function.update_of_ne hji]
  obtain ⟨hown', hb'⟩ := hb.stored hst'
  refine ⟨hb', hown'.trans hown, fun j => ?_, hd⟩
  rw [Mk.file, hown', ← Mk.file]
  exact h.file_putInode hlt hown j

theorem span_le (off m : Nat) : span off m ≤ m / BSIZE + 2 := by
  rw [span]
  simp only [BSIZE]
  split <;> omega

/-- A file whose last bytes were appended is not too long. -/
theorem Appended.length_le {tbl' : Nat → Meta} {off : Nat} (h : Appended i off p tbl s tbl' s') (hp : p ≠ []) :
    off + p.length ≤ MAXFILE * BSIZE := by
  have hpos : 1 ≤ p.length := List.length_pos_iff.mpr hp
  have hm := h.mapped ((off + (p.length - 1)) / BSIZE) ⟨p.length - 1, by omega, rfl⟩
  by_contra hgt
  refine hm (ownOf_past fun hlt => ?_)
  have := blockIx_lt.mp hlt
  simp only [MAXFILE, BSIZE] at *
  omega

/-- The blocks of a file after more bytes were appended to it. -/
theorem inSpan_iff {off m : Nat} : (InSpan off m n ∨ n * BSIZE < off) ↔ n * BSIZE < off + m := by
  simp only [InSpan, BSIZE]
  constructor
  · rintro (⟨k, hk, rfl⟩ | h)
    · omega
    · omega
  · intro h
    by_cases hlt : n * 512 < off
    · exact .inr hlt
    · exact .inl ⟨n * 512 - off, by omega, by omega⟩

/-- Bytes after the end of a string make it longer. -/
theorem blit_localBytes (d p : List UInt8) : blit (localBytes d) d.length p.length (localBytes p) = localBytes (d ++ p) := by
  funext k
  simp only [localBytes, List.getD_eq_getElem?_getD]
  by_cases hk : k < d.length
  · rw [blit_out (.inl hk), List.getElem?_append_left hk, localBytes, List.getD_eq_getElem?_getD]
  · rw [List.getElem?_append_right (by omega)]
    by_cases hk' : k < d.length + p.length
    · rw [blit_in (by omega) hk', localBytes, List.getD_eq_getElem?_getD]
    · rw [blit_out (by omega), localBytes, List.getD_eq_getElem?_getD, List.getElem?_eq_none (by omega),
        List.getElem?_eq_none (by omega)]

/-- **`iappend`** adds bytes to one inode of the plan. -/
theorem iappend_holds (h : Holds A s) (hi : 1 ≤ i ∧ i < A.next) (hsize : A.size i = (A.data i).length) :
    wp (iappend i p) (fun _ s' => Holds (A.append i p) s' ∧ s'.freeblock ≤ s.freeblock + appendCost p)
      (fun _ s' => ¬ (A.size i + p.length ≤ MAXFILE * BSIZE ∧ s.freeblock + appendCost p ≤ 1024) ∧
        (MAXFILE * BSIZE < A.size i + p.length ∨ 1024 < s'.freeblock)) s := by
  have hi' : 1 ≤ i ∧ i < s.freeinode := by rw [h.next]; exact hi
  obtain ⟨hlt, ht⟩ := h.base.alive hi'
  have hsec : i2b i < s.sectors := by rw [h.base.sectors]; have := i2b_range hlt; omega
  have hat := h.inode i hi.1 hi.2
  have hoff : (getDinode (s.disk (i2b i)) (inodeOff i)).size = A.size i := hat.size
  have hspan := span_le (A.size i) p.length
  unfold iappend rinode
  simp only [wp_bind, wp_rsect, hsec, not_true_eq_false, IsEmpty.forall_iff, and_true, forall_const, wp_pure]
  rw [hoff]
  refine wp_mono (iappendLoop_spec p.length (dmeta s.disk) s _ (A.size i) p h.base hi' rfl h.room (Nat.le_refl _)) ?_ ?_
  swap
  · rintro _ _ ⟨hfail, hout⟩
    refine ⟨fun hroom => hfail ⟨hroom.1, ?_⟩, hout⟩
    have := hroom.2
    rw [appendCost] at this
    omega
  rintro ⟨din, off⟩ s1 ⟨hoff', tbl1, happ, hd⟩
  dsimp only at hoff' hd
  subst hoff'
  obtain ⟨a, htbl⟩ := happ.table
  have hi1 : 1 ≤ i ∧ i < s1.freeinode := by rw [happ.freeinode]; exact hi'
  have hself : tbl1 i = { dmeta s.disk i with addrs := a } := by rw [htbl, Function.update_self]
  have hother : ∀ j, j ≠ i → tbl1 j = dmeta s.disk j := fun j hj => by rw [htbl, Function.update_of_ne hj]
  have hf1 := happ.base.fits i hlt
  have hfits : ({ din with size := A.size i + p.length } : Dinode).Fits := by
    rw [← hd] at hf1
    refine ⟨hf1.type, hf1.major, hf1.minor, hf1.nlink, ?_, hf1.addr, hf1.past⟩
    show A.size i + p.length < 4294967296
    by_cases hp : p = []
    · have := (h.base.fits i hlt).size
      rw [hat.size] at this
      rw [hp, List.length_nil]
      exact this
    · have := happ.length_le hp
      simp only [MAXFILE, BSIZE] at this
      omega
  have hst1 : ∀ j < 207, j ≠ i → dmeta s1.disk j = tbl1 j := fun j hj hji => by rw [happ.stored j hj, hother j hji]
  obtain ⟨hb2, hown2, hfile2, hd2⟩ := happ.base.store hst1 hi1 hfits (by rw [← hd]) (by rw [← hd])
  rw [wp_winode (by rw [happ.base.sectors, ← h.base.sectors]; exact hsec)]
  have hfb := happ.blocks
  refine ⟨⟨hb2, happ.room, happ.freeinode.trans h.next, fun j h1 hj => ?_⟩, ?_⟩
  swap
  · show s1.freeblock ≤ s.freeblock + appendCost p
    rw [appendCost]
    omega
  have hj207 := h.lt hj
  by_cases hji : j = i
  swap
  · refine (h.inode j h1 hj).congr rfl (Function.update_of_ne hji ..) (Function.update_of_ne hji ..) ?_ (fun m => ?_) ?_
    · rw [hd2 j hj207, if_neg hji, hother j hji]
    · rw [hown2]; exact happ.own j m fun hc => hji hc.1
    · rw [hfile2]; exact happ.other j hji
  subst hji
  have hdat : (A.append j p).data j = A.data j ++ p := Function.update_self ..
  have hm2 : dmeta (s1.putInode j { din with size := A.size j + p.length }).disk j =
      { dmeta s.disk j with size := A.size j + p.length, addrs := din.addrs } := by
    have hda : din.toMeta = { dmeta s.disk j with addrs := a } := by rw [hd, hself]
    rw [hd2 j hj207, if_pos rfl]
    show { din.toMeta with size := A.size j + p.length } = _
    rw [show din.addrs = a by rw [hda], hda]
  refine ⟨?_, ?_, ?_, fun m => ?_, ?_⟩
  · rw [hm2]; exact hat.type
  · rw [hm2]; exact hat.nlink
  · rw [hm2]; exact (Function.update_self j (A.size j + p.length) A.size).symm
  · rw [hown2, hdat, List.length_append, ← hsize, ← inSpan_iff]
    by_cases hsp : InSpan (A.size j) p.length m
    · exact ⟨fun _ => .inl hsp, fun _ => happ.mapped m hsp⟩
    · rw [happ.own j m fun hc => hsp hc.2, hat.mapped m, ← hsize]
      exact ⟨.inr, fun hc => hc.resolve_left hsp⟩
  · rw [hfile2, hdat, happ.file, hat.bytes, hsize]
    exact blit_localBytes (A.data j) p

/-- **`ialloc`** makes the next inode. -/
theorem ialloc_holds {t : Int} (h : Holds A s) (hnext : 1 ≤ A.next ∧ A.next < 207) (ht : 0 < t ∧ t < 32768) :
    wp (ialloc t) (fun i s' => i = A.next ∧ Holds (A.alloc t) s' ∧ s'.freeblock = s.freeblock) (fun _ _ => False) s := by
  have hlt : 1 ≤ s.freeinode ∧ s.freeinode < 207 := by rw [h.next]; exact hnext
  have hfits : (newDinode t).Fits := by
    have h1 : -32768 ≤ t := Int.le_of_lt (Int.lt_trans (by decide) ht.1)
    constructor <;> simp [newDinode, h1, ht.2]
  have ht0 : (newDinode t).type ≠ 0 := Int.ne_of_gt ht.1
  obtain ⟨hown1, hb1⟩ := h.base.bump hlt (newDinode t).toMeta hfits ht0 fun _ => rfl
  have hst1 : ∀ j < 207, j ≠ s.freeinode →
      dmeta s.disk j = Function.update (dmeta s.disk) s.freeinode (newDinode t).toMeta j :=
    fun j _ hj => (Function.update_of_ne hj ..).symm
  obtain ⟨hb2, hown2, hfile2, hd2⟩ := hb1.store hst1 ⟨hlt.1, Nat.lt_succ_self _⟩ hfits
    (by rw [Function.update_self]) (by rw [Function.update_self])
  unfold ialloc
  simp only [wp_bind, wp_get, wp_set, wp_pure]
  rw [wp_winode (by show i2b s.freeinode < s.sectors; rw [h.base.sectors]; have := i2b_range hlt.2; omega)]
  refine ⟨h.next, ⟨hb2, h.room, congrArg (· + 1) h.next, fun j h1 hj => ?_⟩, rfl⟩
  by_cases hji : j = s.freeinode
  · subst hji
    have hself : ∀ {α : Type} (f : Nat → α) (v : α), Function.update f A.next v s.freeinode = v := by
      intro α f v; rw [h.next, Function.update_self]
    have hm := hd2 s.freeinode hlt.2
    rw [if_pos rfl] at hm
    -- a free inode has no blocks
    have hnone : ∀ n, s.own (dmeta s.disk) (s.freeinode, n) = none := by
      intro n
      refine if_neg fun hc => ?_
      exact Nat.lt_irrefl _ ((h.base.live _ hlt.2).mp hc.2.1).2
    have hdat : (A.alloc t).data s.freeinode = [] := hself ..
    refine ⟨?_, ?_, ?_, fun n => ?_, ?_⟩
    · rw [hm]; exact (hself A.type t).symm
    · rw [hm]; rfl
    · rw [hm]; exact (hself A.size 0).symm
    · rw [hown2, hown1, hnone, hdat]
      exact ⟨fun hc => absurd rfl hc, fun hc => absurd hc (Nat.not_lt_zero _)⟩
    · funext k
      rw [hfile2, Mk.file, hown1, contents, hnone, hdat]
      rfl
  · have hjA : j ≠ A.next := by rw [← h.next]; exact hji
    have hjlt : j < A.next := Nat.lt_of_le_of_ne (Nat.le_of_lt_succ hj) hjA
    refine (h.inode j h1 hjlt).congr (Function.update_of_ne hjA ..) (Function.update_of_ne hjA ..)
      (Function.update_of_ne hjA ..) ?_ (fun m => ?_) ?_
    · rw [hd2 j (h.lt hjlt), if_neg hji, Function.update_of_ne hji]
    · rw [hown2, hown1]
    · rw [hfile2, Mk.file, hown1]; rfl

/-- **The size fix** of a directory. -/
theorem fixSize_holds (h : Holds A s) (hi : 1 ≤ i ∧ i < A.next) (hsize : A.size i = (A.data i).length) :
    wp (fixSize i) (fun _ s' => Holds (A.round i) s' ∧ s'.freeblock = s.freeblock) (fun _ _ => False) s := by
  have hi' : 1 ≤ i ∧ i < s.freeinode := by rw [h.next]; exact hi
  obtain ⟨hlt, ht⟩ := h.base.alive hi'
  have hsec : i2b i < s.sectors := by rw [h.base.sectors]; have := i2b_range hlt; omega
  have hat := h.inode i hi.1 hi.2
  have hoff : (getDinode (s.disk (i2b i)) (inodeOff i)).size = A.size i := hat.size
  unfold fixSize rinode
  simp only [wp_bind, wp_rsect, hsec, not_true_eq_false, IsEmpty.forall_iff, and_true, forall_const, wp_pure]
  rw [hoff, wp_winode hsec]
  have hf := h.base.fits i hlt
  have hfits : ({ getDinode (s.disk (i2b i)) (inodeOff i) with size := (A.size i / BSIZE + 1) * BSIZE } : Dinode).Fits := by
    refine ⟨hf.type, hf.major, hf.minor, hf.nlink, ?_, hf.addr, hf.past⟩
    have hle := hat.length_le
    rw [← hsize] at hle
    show (A.size i / BSIZE + 1) * BSIZE < 4294967296
    simp only [MAXFILE, BSIZE] at *
    omega
  obtain ⟨hb2, hown2, hfile2, hd2⟩ := h.base.store (fun _ _ _ => rfl) hi' hfits rfl rfl
  refine ⟨⟨hb2, h.room, h.next, fun j h1 hj => ?_⟩, rfl⟩
  by_cases hji : j = i
  · subst hji
    have hm := hd2 j hlt
    rw [if_pos rfl] at hm
    refine ⟨?_, ?_, ?_, fun n => ?_, ?_⟩
    · rw [hm]; exact hat.type
    · rw [hm]; exact hat.nlink
    · rw [hm]; exact (Function.update_self j _ A.size).symm
    · rw [hown2]; exact hat.mapped n
    · rw [hfile2]; exact hat.bytes
  · refine (h.inode j h1 hj).congr rfl rfl (Function.update_of_ne hji ..) ?_ (fun m => ?_) ?_
    · rw [hd2 j (h.lt hj), if_neg hji]
    · rw [hown2]
    · rw [hfile2]

/-! ## Plans step by step -/

namespace Plan

@[simp] theorem alloc_next (A : Plan) (t : Int) : (A.alloc t).next = A.next + 1 := rfl

@[simp] theorem append_next (A : Plan) (i : Nat) (p : List UInt8) : (A.append i p).next = A.next := rfl

@[simp] theorem dots_next (A : Plan) (i j : Nat) : (A.dots i j).next = A.next := rfl

@[simp] theorem round_next (A : Plan) (i : Nat) : (A.round i).next = A.next := rfl

/-- The size stored for inode `i` is its length. -/
def Exact (A : Plan) (i : Nat) : Prop := A.size i = (A.data i).length

theorem Exact.append (h : A.Exact i) (j : Nat) (p : List UInt8) : (A.append j p).Exact i := by
  unfold Exact at *
  by_cases hij : i = j
  · subst hij
    simp only [Plan.append, Function.update_self, List.length_append, h]
  · simp only [Plan.append, Function.update_of_ne hij, h]

theorem Exact.round (h : A.Exact i) (hij : i ≠ j) : (A.round j).Exact i := by
  unfold Exact at *
  simp only [Plan.round, Function.update_of_ne hij, h]

theorem Exact.alloc (h : A.Exact i) (t : Int) : (A.alloc t).Exact i := by
  unfold Exact at *
  by_cases hij : i = A.next
  · simp only [Plan.alloc, hij, Function.update_self, List.length_nil]
  · simp only [Plan.alloc, Function.update_of_ne hij, h]

theorem exact_alloc (A : Plan) (t : Int) : (A.alloc t).Exact A.next := by
  simp only [Exact, Plan.alloc, Function.update_self, List.length_nil]

theorem Exact.dots (h : A.Exact i) (j k : Nat) : (A.dots j k).Exact i := (h.append j _).append j _

theorem foldl_next (reads : List (List UInt8)) (A : Plan) (i : Nat) :
    (reads.foldl (·.append i) A).next = A.next := by
  induction reads generalizing A with
  | nil => rfl
  | cons p reads ih => exact ih _

theorem Exact.foldl (reads : List (List UInt8)) (h : A.Exact i) : (reads.foldl (·.append j) A).Exact i := by
  induction reads generalizing A with
  | nil => exact h
  | cons p reads ih => exact ih (h.append j p)

end Plan

theorem planEntries_next (l : Listing) (cur : Nat) (A : Plan) : (planEntries cur l A).next = A.next + l.inodes := by
  induction l generalizing cur A with
  | done => rfl
  | fail => rfl
  | file name reads rest ih =>
    rw [planEntries, Listing.inodes]
    split
    · rw [ih, Nat.zero_add]
    · rw [ih, Plan.append_next, Plan.foldl_next, Plan.alloc_next, Nat.add_assoc]
  | dir name sub rest ihs ih =>
    rw [planEntries, Listing.inodes]
    split
    · rw [ih, Nat.zero_add]
    · rw [ih, Plan.append_next, Plan.round_next, ihs, Plan.dots_next, Plan.alloc_next]
      omega
  | closed name rest ih =>
    rw [planEntries, Listing.inodes]
    split
    · rw [ih, Nat.zero_add]
    · rw [ih, Plan.append_next, Plan.dots_next, Plan.alloc_next, Nat.add_assoc]

/-- Only new directories are rounded up. -/
theorem planEntries_exact (l : Listing) (cur : Nat) (h : A.Exact i) (hi : i < A.next) : (planEntries cur l A).Exact i := by
  induction l generalizing cur A with
  | done => exact h
  | fail => exact h
  | file name reads rest ih =>
    rw [planEntries]
    split
    · exact ih cur h hi
    · refine ih cur ((Plan.Exact.foldl reads (h.alloc _)).append _ _) ?_
      rw [Plan.append_next, Plan.foldl_next, Plan.alloc_next]
      exact Nat.lt_succ_of_lt hi
  | dir name sub rest ihs ih =>
    rw [planEntries]
    split
    · exact ih cur h hi
    · refine ih cur (((ihs A.next ((h.alloc _).dots _ _) (Nat.lt_succ_of_lt hi)).round (Nat.ne_of_lt hi)).append _ _) ?_
      rw [Plan.append_next, Plan.round_next, planEntries_next, Plan.dots_next, Plan.alloc_next]
      omega
  | closed name rest ih =>
    rw [planEntries]
    split
    · exact ih cur h hi
    · exact ih cur (((h.alloc _).dots _ _).append _ _) (Nat.lt_succ_of_lt hi)

/-- The plans say the same of inode `i`. -/
structure Plan.Same (A A' : Plan) (i : Nat) : Prop where
  type : A'.type i = A.type i
  data : A'.data i = A.data i
  size : A'.size i = A.size i

namespace Plan.Same

variable {A' A'' : Plan}

theorem refl (A : Plan) (i : Nat) : A.Same A i := ⟨rfl, rfl, rfl⟩

theorem trans (h : A.Same A' i) (h' : A'.Same A'' i) : A.Same A'' i :=
  ⟨h'.type.trans h.type, h'.data.trans h.data, h'.size.trans h.size⟩

theorem alloc (h : i < A.next) (t : Int) : A.Same (A.alloc t) i :=
  ⟨Function.update_of_ne (Nat.ne_of_lt h) .., Function.update_of_ne (Nat.ne_of_lt h) ..,
    Function.update_of_ne (Nat.ne_of_lt h) ..⟩

theorem append (h : i ≠ j) (p : List UInt8) : A.Same (A.append j p) i :=
  ⟨rfl, Function.update_of_ne h .., Function.update_of_ne h ..⟩

theorem round (h : i ≠ j) : A.Same (A.round j) i := ⟨rfl, rfl, Function.update_of_ne h ..⟩

theorem dots (h : i ≠ j) (k : Nat) : A.Same (A.dots j k) i := (append h _).trans (append h _)

theorem foldl (h : i ≠ j) (reads : List (List UInt8)) : A.Same (reads.foldl (·.append j) A) i := by
  induction reads generalizing A with
  | nil => exact refl A i
  | cons p reads ih => exact (append h p).trans ih

end Plan.Same

/-- A directory stream changes its own directory and new inodes. -/
theorem planEntries_same (l : Listing) {cur : Nat} (hi : i < A.next) (hne : i ≠ cur) : A.Same (planEntries cur l A) i := by
  induction l generalizing cur A with
  | done => exact .refl A i
  | fail => exact .refl A i
  | file name reads rest ih =>
    rw [planEntries]
    split
    · exact ih hi hne
    · refine (((Plan.Same.alloc hi _).trans (.foldl (Nat.ne_of_lt hi) reads)).trans (.append hne _)).trans (ih ?_ hne)
      rw [Plan.append_next, Plan.foldl_next, Plan.alloc_next]
      exact Nat.lt_succ_of_lt hi
  | dir name sub rest ihs ih =>
    rw [planEntries]
    split
    · exact ih hi hne
    · have hc : i ≠ A.next := Nat.ne_of_lt hi
      have hsub : A.Same (planEntries A.next sub ((A.alloc T_DIR).dots A.next cur)) i :=
        ((Plan.Same.alloc hi _).trans (.dots hc _)).trans (ihs (Nat.lt_succ_of_lt hi) hc)
      refine ((hsub.trans (.round hc)).trans (.append hne _)).trans (ih ?_ hne)
      rw [Plan.append_next, Plan.round_next, planEntries_next, Plan.dots_next, Plan.alloc_next]
      omega
  | closed name rest ih =>
    rw [planEntries]
    split
    · exact ih hi hne
    · have hc : i ≠ A.next := Nat.ne_of_lt hi
      exact (((Plan.Same.alloc hi _).trans (.dots hc _)).trans (.append hne _)).trans (ih (Nat.lt_succ_of_lt hi) hne)

theorem Plan.append_size (A : Plan) (i : Nat) (p : List UInt8) : (A.append i p).size i = A.size i + p.length :=
  Function.update_self ..

theorem Plan.append_data (A : Plan) (i : Nat) (p : List UInt8) : (A.append i p).data i = A.data i ++ p :=
  Function.update_self ..

theorem Plan.dots_size (A : Plan) (i k : Nat) : (A.dots i k).size i = A.size i + 32 := by
  rw [Plan.dots, Plan.append_size, Plan.append_size, dirent_length, dirent_length]

theorem Plan.alloc_size (A : Plan) (t : Int) : (A.alloc t).size A.next = 0 := Function.update_self ..

/-! ## The routines that fill a directory -/

/-- `iappend` of one entry. -/
theorem iappend_dirent_holds {inum : Nat} {name : List UInt8} (h : Holds A s) (hi : 1 ≤ i ∧ i < A.next) (he : A.Exact i) :
    wp (iappend i (dirent inum name))
      (fun _ s' => Holds (A.append i (dirent inum name)) s' ∧ s'.freeblock ≤ s.freeblock + 4)
      (fun _ _ => ¬ (A.size i + 16 ≤ MAXFILE * BSIZE ∧ s.freeblock + 4 ≤ 1024)) s := by
  have hcost : appendCost (dirent inum name) = 4 := by
    rw [appendCost, dirent_length]
    rfl
  refine wp_mono (iappend_holds h hi he) (fun _ s' hs => ?_) fun _ _ hf => ?_
  · rwa [hcost] at hs
  · have hf := hf.1
    rwa [hcost, dirent_length] at hf

theorem addDots_holds {parent : Nat} (h : Holds A s) (hi : 1 ≤ i ∧ i < A.next) (he : A.Exact i) :
    wp (addDots i parent) (fun _ s' => Holds (A.dots i parent) s' ∧ s'.freeblock ≤ s.freeblock + 8)
      (fun _ _ => ¬ (A.size i + 32 ≤ MAXFILE * BSIZE ∧ s.freeblock + 8 ≤ 1024)) s := by
  unfold addDots
  rw [wp_bind]
  refine wp_mono (iappend_dirent_holds h hi he) ?_ fun _ _ hf hr => hf (by omega)
  rintro _ s1 ⟨h1, hfb1⟩
  refine wp_mono (iappend_dirent_holds h1 hi (he.append _ _)) ?_ ?_
  · rintro _ s2 ⟨h2, hfb2⟩
    exact ⟨h2, by omega⟩
  · rintro _ _ hf hr
    rw [Plan.append_size, dirent_length] at hf
    exact hf (by omega)

/-- The `read`s of one file. -/
theorem reads_holds (reads : List (List UInt8)) : ∀ {A : Plan} {s : Mk}, Holds A s → 1 ≤ i ∧ i < A.next → A.Exact i →
    wp (reads.forM (iappend i))
      (fun _ s' => Holds (reads.foldl (·.append i) A) s' ∧ s'.freeblock ≤ s.freeblock + (reads.map appendCost).sum)
      (fun _ _ => ¬ (A.size i + (reads.map List.length).sum ≤ MAXFILE * BSIZE ∧
        s.freeblock + (reads.map appendCost).sum ≤ 1024)) s := by
  induction reads with
  | nil =>
    intro A s h _ _
    exact ⟨h, Nat.le_refl _⟩
  | cons p reads ih =>
    intro A s h hi he
    show wp (iappend i p >>= fun _ => reads.forM (iappend i)) _ _ _
    simp only [List.map_cons, List.sum_cons]
    rw [wp_bind]
    refine wp_mono (iappend_holds h hi he) ?_ fun _ _ hf hr => hf.1 (by omega)
    rintro _ s1 ⟨h1, hfb1⟩
    refine wp_mono (ih h1 hi (he.append i p)) ?_ ?_
    · rintro _ s2 ⟨h2, hfb2⟩
      exact ⟨h2, by omega⟩
    · rintro _ _ hf hr
      rw [Plan.append_size] at hf
      exact hf (by omega)

/-- A directory that is not too long in the end is not too long now. -/
theorem Listing.Short.le {l : Listing} {n : Nat} (h : l.Short n) : n ≤ MAXFILE * BSIZE := by
  induction l generalizing n with
  | done => exact h
  | fail => exact h.elim
  | file name reads rest ih =>
    rw [Listing.Short] at h
    split at h
    · exact ih h
    · exact Nat.le_trans (Nat.le_add_right n 16) (ih h.2)
  | dir name sub rest _ ih =>
    rw [Listing.Short] at h
    split at h
    · exact ih h
    · exact Nat.le_trans (Nat.le_add_right n 16) (ih h.2)
  | closed name rest ih =>
    rw [Listing.Short] at h
    split at h
    · exact ih h
    · exact Nat.le_trans (Nat.le_add_right n 16) (ih h)

/-- The entry of a new inode, and the entries after it. -/
theorem entry_holds {cur child m : Nat} {name : List UInt8} {rest : Listing} {A' : Plan}
    (ih : ∀ {A : Plan} {s : Mk}, Holds A s → 1 ≤ cur ∧ cur < A.next → A.Exact cur → A.next + rest.inodes ≤ 207 →
      wp (addEntries cur rest) (fun _ s' => Holds (planEntries cur rest A) s' ∧ s'.freeblock ≤ s.freeblock + rest.cost)
        (fun _ _ => ¬ (rest.Short (A.size cur) ∧ s.freeblock + rest.cost ≤ 1024)) s)
    (h : Holds A' s') (hcur : 1 ≤ cur ∧ cur < A'.next) (he : A'.Exact cur) (hn : A'.next + rest.inodes ≤ 207)
    (hm : s'.freeblock ≤ m) :
    wp (iappend cur (dirent child (cstr name)) >>= fun _ => addEntries cur rest)
      (fun _ s'' => Holds (planEntries cur rest (A'.append cur (dirent child (cstr name)))) s'' ∧
        s''.freeblock ≤ m + 4 + rest.cost)
      (fun _ _ => ¬ (rest.Short (A'.size cur + 16) ∧ m + 4 + rest.cost ≤ 1024)) s' := by
  rw [wp_bind]
  refine wp_mono (iappend_dirent_holds h hcur he) ?_ fun _ _ hf hr => hf ⟨hr.1.le, by omega⟩
  rintro _ s2 ⟨h2, hfb2⟩
  refine wp_mono (ih h2 hcur (he.append _ _) hn) ?_ ?_
  · rintro _ s3 ⟨h3, hfb3⟩
    exact ⟨h3, by omega⟩
  · rintro _ _ hf hr
    rw [Plan.append_size, dirent_length] at hf
    exact hf ⟨hr.1, by omega⟩

/-- **The entries of a directory.** The image ends up holding the plan of the stream. -/
theorem addEntries_holds (l : Listing) : ∀ {cur : Nat} {A : Plan} {s : Mk}, Holds A s → 1 ≤ cur ∧ cur < A.next →
    A.Exact cur → A.next + l.inodes ≤ 207 →
    wp (addEntries cur l) (fun _ s' => Holds (planEntries cur l A) s' ∧ s'.freeblock ≤ s.freeblock + l.cost)
      (fun _ _ => ¬ (l.Short (A.size cur) ∧ s.freeblock + l.cost ≤ 1024)) s := by
  induction l with
  | done =>
    intro cur A s h _ _ _
    exact ⟨h, Nat.le_refl _⟩
  | fail =>
    intro cur A s _ _ _ _
    exact fun hr => hr.1
  | file name reads rest ih =>
    intro cur A s h hcur he hn
    rw [addEntries, planEntries, Listing.cost, Listing.Short]
    rw [Listing.inodes] at hn
    by_cases hskip : Skipped name
    · simp only [if_pos hskip, Nat.zero_add] at hn ⊢
      exact ih h hcur he hn
    simp only [if_neg hskip] at hn ⊢
    rw [wp_bind]
    have hne : cur ≠ A.next := Nat.ne_of_lt hcur.2
    refine wp_mono (ialloc_holds h ⟨by omega, by omega⟩ ⟨by decide, by decide⟩) ?_ fun _ _ hf => hf.elim
    rintro _ s1 ⟨rfl, h1, hfb1⟩
    rw [wp_bind]
    refine wp_mono (reads_holds reads h1 ⟨by omega, Nat.lt_succ_self _⟩ (A.exact_alloc _)) ?_ ?_
    swap
    · rintro _ _ hf hr
      rw [Plan.alloc_size] at hf
      exact hf ⟨by rw [Nat.zero_add]; exact hr.1.1, by omega⟩
    rintro _ s2 ⟨h2, hfb2⟩
    have hnext : (reads.foldl (·.append A.next) (A.alloc T_FILE)).next = A.next + 1 := Plan.foldl_next ..
    have hsame := (Plan.Same.alloc hcur.2 T_FILE).trans (.foldl hne reads)
    refine wp_mono (entry_holds ih h2 ⟨hcur.1, by omega⟩ (Plan.Exact.foldl reads (he.alloc _)) (by omega)
      (show s2.freeblock ≤ s.freeblock + (reads.map appendCost).sum by omega)) ?_ ?_
    · rintro _ s3 ⟨h3, hfb3⟩
      exact ⟨h3, by omega⟩
    · rintro _ _ hf hr
      rw [hsame.size] at hf
      exact hf ⟨hr.1.2, by omega⟩
  | dir name sub rest ihs ih =>
    intro cur A s h hcur he hn
    rw [addEntries, planEntries, Listing.cost, Listing.Short]
    rw [Listing.inodes] at hn
    by_cases hskip : Skipped name
    · simp only [if_pos hskip, Nat.zero_add] at hn ⊢
      exact ih h hcur he hn
    simp only [if_neg hskip] at hn ⊢
    rw [wp_bind]
    have hne : cur ≠ A.next := Nat.ne_of_lt hcur.2
    refine wp_mono (ialloc_holds h ⟨by omega, by omega⟩ ⟨by decide, by decide⟩) ?_ fun _ _ hf => hf.elim
    rintro _ s1 ⟨rfl, h1, hfb1⟩
    have hchild : 1 ≤ A.next ∧ A.next < (A.alloc T_DIR).next := ⟨by omega, Nat.lt_succ_self _⟩
    rw [wp_bind]
    refine wp_mono (addDots_holds h1 hchild (A.exact_alloc _)) ?_ ?_
    swap
    · rintro _ _ hf hr
      rw [Plan.alloc_size] at hf
      exact hf ⟨by decide, by omega⟩
    rintro _ s2 ⟨h2, hfb2⟩
    have hexact : ((A.alloc T_DIR).dots A.next cur).Exact A.next := (A.exact_alloc _).dots _ _
    rw [wp_bind]
    refine wp_mono (ihs h2 hchild hexact (by rw [Plan.dots_next, Plan.alloc_next]; omega)) ?_ ?_
    swap
    · rintro _ _ hf hr
      rw [Plan.dots_size, Plan.alloc_size] at hf
      exact hf ⟨hr.1.1, by omega⟩
    rintro _ s3 ⟨h3, hfb3⟩
    have hnext : (planEntries A.next sub ((A.alloc T_DIR).dots A.next cur)).next = A.next + 1 + sub.inodes := by
      rw [planEntries_next, Plan.dots_next, Plan.alloc_next]
    rw [wp_bind]
    refine wp_mono (fixSize_holds h3 ⟨hchild.1, by omega⟩ (planEntries_exact sub A.next hexact hchild.2)) ?_ fun _ _ hf => hf.elim
    rintro _ s4 ⟨h4, hfb4⟩
    have hcur4 : cur < A.next + 1 := Nat.lt_succ_of_lt hcur.2
    have hsame : A.Same ((planEntries A.next sub ((A.alloc T_DIR).dots A.next cur)).round A.next) cur :=
      (((Plan.Same.alloc hcur.2 _).trans (.dots hne _)).trans (planEntries_same sub hcur4 hne)).trans (.round hne)
    have he4 := (planEntries_exact sub A.next ((he.alloc T_DIR).dots A.next cur) hcur4).round hne
    refine wp_mono (entry_holds ih h4 ⟨hcur.1, by rw [Plan.round_next]; omega⟩ he4 (by rw [Plan.round_next]; omega)
      (show s4.freeblock ≤ s.freeblock + (8 + sub.cost) by omega)) ?_ ?_
    · rintro _ s5 ⟨h5, hfb5⟩
      exact ⟨h5, by omega⟩
    · rintro _ _ hf hr
      rw [hsame.size] at hf
      exact hf ⟨hr.1.2, by omega⟩
  | closed name rest ih =>
    intro cur A s h hcur he hn
    rw [addEntries, planEntries, Listing.cost, Listing.Short]
    rw [Listing.inodes] at hn
    by_cases hskip : Skipped name
    · simp only [if_pos hskip, Nat.zero_add] at hn ⊢
      exact ih h hcur he hn
    simp only [if_neg hskip] at hn ⊢
    rw [wp_bind]
    have hne : cur ≠ A.next := Nat.ne_of_lt hcur.2
    refine wp_mono (ialloc_holds h ⟨by omega, by omega⟩ ⟨by decide, by decide⟩) ?_ fun _ _ hf => hf.elim
    rintro _ s1 ⟨rfl, h1, hfb1⟩
    have hchild : 1 ≤ A.next ∧ A.next < (A.alloc T_DIR).next := ⟨by omega, Nat.lt_succ_self _⟩
    rw [wp_bind]
    refine wp_mono (addDots_holds h1 hchild (A.exact_alloc _)) ?_ ?_
    swap
    · rintro _ _ hf hr
      rw [Plan.alloc_size] at hf
      exact hf ⟨by decide, by omega⟩
    rintro _ s2 ⟨h2, hfb2⟩
    have hsame : A.Same ((A.alloc T_DIR).dots A.next cur) cur := (Plan.Same.alloc hcur.2 _).trans (.dots hne _)
    refine wp_mono (entry_holds ih h2 ⟨hcur.1, Nat.lt_succ_of_lt hcur.2⟩ ((he.alloc _).dots _ _)
      (by rw [Plan.dots_next, Plan.alloc_next]; omega) (show s2.freeblock ≤ s.freeblock + 8 by omega)) ?_ ?_
    · rintro _ s3 ⟨h3, hfb3⟩
      exact ⟨h3, by omega⟩
    · rintro _ _ hf hr
      rw [hsame.size] at hf
      exact hf ⟨hr.1, by omega⟩

end Xv6.Mkfs
