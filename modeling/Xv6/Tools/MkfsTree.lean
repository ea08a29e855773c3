import Xv6.Tools.MkfsBoot

/-!
# `Tools.MkfsTree` — the directories of an image

A directory of the image is a row of entries: `.`, `..`, and one for every name the host's directory has. Its size
is then rounded up to whole blocks, and by a whole block when it ends at a block boundary: there is then a block
below its size that it does not have, and the first `dirlookup` that gets so far allocates one.
-/

namespace Xv6.Mkfs

open Bytes Hoare Ownership

variable {A B : Plan} {s : Mk} {k : Fs} {i j n cur : Nat}

/-! ## Entries -/

/-- How many entries a directory stream adds. -/
def Listing.count : Listing → Nat
  | .done => 0
  | .fail => 0
  | .file name _ rest => (if Skipped name then 0 else 1) + rest.count
  | .dir name _ rest => (if Skipped name then 0 else 1) + rest.count
  | .closed name rest => (if Skipped name then 0 else 1) + rest.count

/-- Every inode of the plan is a file or a directory. -/
def Plan.Typed (A : Plan) : Prop := ∀ i, 1 ≤ i → i < A.next → A.type i = T_FILE ∨ A.type i = T_DIR

theorem Plan.Typed.alloc (h : A.Typed) {t : Int} (ht : t = T_FILE ∨ t = T_DIR) : (A.alloc t).Typed := by
  intro i h1 hi
  by_cases hin : i = A.next
  · have htype : (A.alloc t).type i = t := by rw [hin]; exact Function.update_self ..
    rw [htype]
    exact ht
  · have hlt : i < A.next := Nat.lt_of_le_of_ne (Nat.le_of_lt_succ hi) hin
    rw [(Plan.Same.alloc hlt t).type]
    exact h i h1 hlt

theorem Plan.Typed.foldl (reads : List (List UInt8)) (h : A.Typed) : (reads.foldl (·.append j) A).Typed := by
  induction reads generalizing A with
  | nil => exact h
  | cons p reads ih =>
    have hp : (A.append j p).Typed := h
    exact ih hp

/-- The inode in slot `x` is on the root device, and every block below its size is there. -/
structure Whole (k : Fs) (x : Slot) : Prop where
  dev : (k.icache x).dev = ROOTDEV
  mapped : ∀ n, n < ((k.icache x).size + BSIZE - 1) / BSIZE →
    blockIx n < NPTR ∧ ptr (k.disk ROOTDEV) (k.icache x).toMeta (blockIx n) ≠ 0

section Whole

variable {x : Slot} {dst : Dst} {name : List UInt8}

/-- No block is allocated to read such an inode. -/
theorem Whole.readiLoop (fuel : Nat) : ∀ {k : Fs} {tot off left : Nat}, Whole k x → off + left ≤ (k.icache x).size →
    wp (readiLoop x dst fuel tot off left) (fun _ k' => k'.disk = k.disk) (fun _ _ => False) k := by
  induction fuel with
  | zero => exact fun _ _ => rfl
  | succ fuel ih =>
    intro k tot off left h hle
    rw [Xv6.readiLoop]
    by_cases h0 : left = 0
    · rw [if_pos h0]
      rfl
    obtain ⟨hk, hne⟩ := h.mapped (off / BSIZE) (by simp only [BSIZE]; omega)
    rw [if_neg h0, wp_bind, wp_bmap_found h.dev hk rfl hne, wp_bind, wp_inode, wp_bind, wp_bread, wp_bind, wp_copyOut, wp_bind]
    refine wp_post (ih ⟨?_, ?_⟩ ?_) fun _ k' hk' => hk'.trans (Dst.store_disk ..)
    · rw [Dst.store_icache]
      exact h.dev
    · rw [Dst.store_icache, Dst.store_disk]
      exact h.mapped
    · rw [Dst.store_icache]
      omega

theorem Whole.readi {off n : Nat} (h : Whole k x) (hty : (k.icache x).type ≠ T_DEV) :
    wp (readi x dst off n) (fun _ k' => k'.disk = k.disk) (fun _ _ => False) k := by
  rw [Xv6.readi, wp_bind, wp_inode, if_neg hty]
  by_cases hbad : (k.icache x).size < off ∨ (off + n) % 4294967296 < off
  · rw [if_pos hbad]
    rfl
  · rw [if_neg hbad]
    dsimp only
    rw [wp_bind]
    refine wp_post (h.readiLoop _ ?_) fun _ _ hk' => hk'
    split <;> omega

/-- `iget` finds a slot if one is empty. -/
theorem iget_empty {dev inum : Nat} {y : Slot} (hy : (k.icache y).ref = 0) :
    wp (iget dev inum) (fun _ k' => k'.disk = k.disk) (fun _ _ => False) k := by
  rw [iget, wp_bind, wp_get]
  cases k.cached dev inum with
  | some ip => rfl
  | none =>
    cases he : k.emptySlot with
    | some ip => rfl
    | none => exact absurd (decide_eq_true hy) (List.find?_eq_none.mp he y (List.mem_finRange y))

theorem Whole.dirlookupFrom {y : Slot} (h : Whole k x) (hy : (k.icache y).ref = 0) (n : Nat) : ∀ {off : Nat},
    off / BSIZE + n ≤ ((k.icache x).size + BSIZE - 1) / BSIZE →
    wp (dirlookupFrom x name n off) (fun _ k' => k'.disk = k.disk) (fun _ _ => False) k := by
  induction n with
  | zero => exact fun _ => rfl
  | succ n ih =>
    intro off hle
    obtain ⟨hk, hne⟩ := h.mapped (off / BSIZE) (by omega)
    rw [Xv6.dirlookupFrom, wp_bind, wp_bmap_found h.dev hk rfl hne, wp_bind, wp_inode, wp_bind, wp_bread]
    split
    · rw [wp_bind]
      exact wp_post (iget_empty hy) fun _ _ hk' => hk'
    · refine ih ?_
      simp only [BSIZE] at *
      omega

end Whole

/-! ## Holes -/

/-- No directory of the stream, at any depth, ends at a block boundary. -/
def Listing.NoFull : Listing → Prop
  | .done => True
  | .fail => True
  | .file _ _ rest => rest.NoFull
  | .dir name sub rest => (¬ Skipped name → (2 + sub.count) % 32 ≠ 0 ∧ sub.NoFull) ∧ rest.NoFull
  | .closed _ rest => rest.NoFull

/-- No directory of the image ends at a block boundary. -/
def NoFull : Option Listing → Prop
  | none => True
  | some l => (2 + l.count) % 32 ≠ 0 ∧ l.NoFull

theorem Plan.Same.tight (h : A.Same B i) : B.Tight i ↔ A.Tight i := by
  rw [Plan.Tight, Plan.Tight, h.size, h.data]

theorem Plan.Exact.tight (h : A.Exact i) : A.Tight i := by
  intro m hm
  rwa [← h]

/-- A plan whose new inodes are tight. -/
def TightFrom (n : Nat) (A : Plan) : Prop := ∀ i, n ≤ i → i < A.next → A.Tight i

/-- The blocks below the size of every inode are there, so the kernel finds them all when it reads the image. -/
structure NoHoles (s : Mk) : Prop where
  mapped : ∀ i n, 1 ≤ i → i < s.freeinode → n < ((dmeta s.disk i).size + BSIZE - 1) / BSIZE →
    blockIx n < NPTR ∧ ptr s.disk (dmeta s.disk i) (blockIx n) ≠ 0
  readi : ∀ k, Booted s k → ∀ i dst off n, 1 ≤ i → i < s.freeinode →
    wp (openRead i dst off n) (fun _ k' => k'.disk = k.disk) (fun _ _ => False) k
  dirlookup : ∀ k, Booted s k → ∀ i name, 1 ≤ i → i < s.freeinode → (dmeta s.disk i).type = T_DIR →
    wp (openLookup i name) (fun _ k' => k'.disk = k.disk) (fun _ _ => False) k

/-- A block below the size of an inode has bytes in it when it is there. -/
theorem Holds.tight (h : Holds A s) (hs : NoHoles s) : TightFrom 1 A := by
  intro i h1 hi n hlt
  have hat := h.inode i h1 hi
  rw [← hat.size] at hlt
  rw [← h.next] at hi
  obtain ⟨hk, h0⟩ := hs.mapped i n h1 hi (by simp only [BSIZE] at *; omega)
  rw [← hat.mapped n, h.ptr_eq ⟨h1, hi⟩ hk h0]
  exact Option.some_ne_none _

end Xv6.Mkfs
