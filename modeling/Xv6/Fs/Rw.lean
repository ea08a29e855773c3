import Xv6.Fs.Map
import Mathlib.Data.Finset.Union

/-!
# `Fs.Rw` — `readi` and `writei` on a file seen as a byte array

Between `off` and its last byte a transfer goes block by block; each block is a slice of the file, so the
loop as a whole reads or replaces one slice. A read finds every block mapped and changes nothing but the
destination. A write may grow the map of the inode, and stores the inode when the file got longer.

## Contents
- **Buffers.** `Dst.store`, `Src.bytes`, `Src.load`: the two ends of a copy.
- **Reading.** `readiLoop_spec`, `readi_spec`.
- **Writing.** `writeiLoop_spec`, `writei_spec`.
-/

namespace Xv6

open Bytes Hoare Ownership

/-! ## Buffers -/

/-- Bytes `off .. off+n` of a file. -/
def slice (f : Arr) (off n : Nat) : List UInt8 := (List.range n).map fun k => f (off + k)

@[simp] theorem slice_length (f : Arr) (off n : Nat) : (slice f off n).length = n := by simp [slice]

theorem slice_append (f : Arr) (off m n : Nat) : slice f off m ++ slice f (off + m) n = slice f off (m + n) := by
  simp only [slice, List.range_add, List.map_append, List.map_map]
  congr 1
  exact List.map_congr_left fun k _ => by rw [Function.comp_apply, Nat.add_assoc]

theorem touch_append (w : Bool) (a m n : Nat) : touch w a m ++ touch w (a + m) n = touch w a (m + n) := by
  simp only [touch, List.range_add, List.map_append, List.map_map]
  congr 1
  exact List.map_congr_left fun k _ => by rw [Function.comp_apply, Nat.add_assoc]

/-- The state after `n` bytes of `src` were copied to `dst + tot`. -/
def Dst.store (dst : Dst) (s : Fs) (tot n : Nat) (src : Arr) : Fs :=
  match dst with
  | .user a => { s with mem := blit s.mem (a + tot) n src, acc := s.acc ++ touch true (a + tot) n }
  | .kernel => s

/-- The bytes a copy from `src` finds. -/
def Src.bytes (src : Src) (mem : Arr) : Arr :=
  match src with
  | .user a => fun k => mem (a + k)
  | .kernel d => d

/-- The state after `n` bytes were copied from `src + tot`. -/
def Src.load (src : Src) (s : Fs) (tot n : Nat) : Fs :=
  match src with
  | .user a => { s with acc := s.acc ++ touch false (a + tot) n }
  | .kernel _ => s

variable {G G' : Ghost} {s s' : Fs} {x : Slot} {dst : Dst} {src : Src} {off n m tot : Nat} {f g : Arr}

@[simp] theorem Dst.store_disk (dst : Dst) (s : Fs) (tot n : Nat) (f : Arr) :
    (dst.store s tot n f).disk = s.disk := by cases dst <;> rfl

@[simp] theorem Dst.store_icache (dst : Dst) (s : Fs) (tot n : Nat) (f : Arr) :
    (dst.store s tot n f).icache = s.icache := by cases dst <;> rfl

@[simp] theorem Src.load_disk (src : Src) (s : Fs) (tot n : Nat) : (src.load s tot n).disk = s.disk := by
  cases src <;> rfl

@[simp] theorem Src.load_icache (src : Src) (s : Fs) (tot n : Nat) :
    (src.load s tot n).icache = s.icache := by cases src <;> rfl

theorem Dst.store_zero (dst : Dst) (s : Fs) (tot : Nat) (f : Arr) : dst.store s tot 0 f = s := by
  cases dst with
  | kernel => rfl
  | user a =>
    have hb : blit s.mem (a + tot) 0 f = s.mem := funext fun i => blit_out (by omega)
    simp [Dst.store, hb, touch]

/-- Two copies next to each other are one copy. -/
theorem Dst.store_append {h : Arr} (hf : ∀ k < m, f k = h k) (hg : ∀ k < n, g k = h (m + k)) :
    dst.store (dst.store s tot m f) (tot + m) n g = dst.store s tot (m + n) h := by
  cases dst with
  | kernel => rfl
  | user a =>
    simp only [Dst.store, List.append_assoc, ← Nat.add_assoc, touch_append, blit_append hf hg]

theorem wp_copyOut {Q : Unit → Fs → Prop} {E : Stop → Fs → Prop} :
    wp (copyOut dst tot m f) Q E s ↔ Q () (dst.store s tot m f) := by
  cases dst <;> exact Iff.rfl

theorem wp_copyIn {Q : Arr → Fs → Prop} {E : Stop → Fs → Prop} :
    wp (copyIn src tot m) Q E s ↔ Q (fun k => src.bytes s.mem (tot + k)) (src.load s tot m) := by
  cases src with
  | kernel d => exact Iff.rfl
  | user a =>
    simp only [copyIn, wp_loadUser, Src.bytes, Src.load, Nat.add_assoc]

/-! ## Reading -/

/-- Copying to a buffer touches neither the volume nor the cache. -/
theorem Core.congr (h : Core G s) (hd : s'.disk = s.disk) (hc : s'.icache = s.icache) : Core G s' :=
  ⟨by rw [hd]; exact h.vol, by rw [hc]; exact h.cache⟩

theorem Ghost.own_congr (G : Ghost) (hd : s'.disk = s.disk) : G.own s' = G.own s := by
  rw [Ghost.own, Ghost.own, hd]

theorem Ghost.file_congr (G : Ghost) (hd : s'.disk = s.disk) (i : Nat) : G.file s' i = G.file s i := by
  rw [Ghost.file, Ghost.file, G.own_congr hd, hd]

/-- The part of a block that a transfer of `left` bytes from `off` takes. -/
theorem chunk_arith {off left k : Nat} (hk : k < min left (BSIZE - off % BSIZE)) :
    (off + k) / BSIZE = off / BSIZE ∧ (off + k) % BSIZE = off % BSIZE + k := by
  simp only [BSIZE] at *; omega

/-- **The loop of `readi`.** With every block mapped it copies a slice and returns it. -/
theorem readiLoop_spec (fuel : Nat) : ∀ (s : Fs) (tot off left : Nat), Core G s → x ∈ G.refs →
    (s.icache x).valid = true → left ≤ fuel →
    (∀ k < left, G.own s ((s.icache x).inum, blockIx ((off + k) / BSIZE)) ≠ none) →
    wp (readiLoop x dst fuel tot off left)
      (fun bytes s' => bytes = slice (G.file s (s.icache x).inum) off left ∧
        s' = dst.store s tot left fun k => G.file s (s.icache x).inum (off + k))
      (fun _ _ => False) s := by
  induction fuel with
  | zero =>
    intro s tot off left _ _ _ hle _
    obtain rfl : left = 0 := by omega
    exact ⟨rfl, (Dst.store_zero ..).symm⟩
  | succ fuel ih =>
    intro s tot off left h hx hv hle hmap
    unfold readiLoop
    by_cases h0 : left = 0
    · subst h0
      rw [if_pos rfl, wp_pure]
      exact ⟨rfl, (Dst.store_zero ..).symm⟩
    have hm1 : 1 ≤ min left (BSIZE - off % BSIZE) := by simp only [BSIZE]; omega
    obtain ⟨b, hb⟩ := Option.ne_none_iff_exists'.mp (hmap 0 (by omega))
    rw [Nat.add_zero] at hb
    -- the bytes of this block are the slice of the file from `off` on
    have hbytes : ∀ k < min left (BSIZE - off % BSIZE),
        s.disk ROOTDEV b (off % BSIZE + k) = G.file s (s.icache x).inum (off + k) := by
      intro k hk
      obtain ⟨hdiv, hmod⟩ := chunk_arith hk
      rw [Ghost.file, contents_mapped (by rw [hdiv]; exact hb), hmod]
    generalize hm : min left (BSIZE - off % BSIZE) = m at *
    rw [if_neg h0, wp_bind, bmap_mapped h hx hv hb, wp_bind, wp_inode, wp_bind, h.cache.dev x hx, wp_bread]
    simp only [wp_bind, wp_copyOut]
    have hd := Dst.store_disk dst s tot m fun k => s.disk ROOTDEV b (off % BSIZE + k)
    have hc := Dst.store_icache dst s tot m fun k => s.disk ROOTDEV b (off % BSIZE + k)
    refine wp_post (ih _ (tot + m) (off + m) (left - m) (h.congr hd hc) hx (by rw [hc]; exact hv) (by omega) ?_) ?_
    · intro k hk
      rw [G.own_congr hd, hc, Nat.add_assoc]
      exact hmap _ (by omega)
    · rintro bytes s' ⟨rfl, rfl⟩
      rw [wp_pure, hc, G.file_congr hd]
      refine ⟨?_, ?_⟩
      · have hsl : (List.range m).map (fun k => s.disk ROOTDEV b (off % BSIZE + k)) =
            slice (G.file s (s.icache x).inum) off m :=
          List.map_congr_left fun k hk => hbytes k (List.mem_range.mp hk)
        rw [hsl, slice_append, show m + (left - m) = left by omega]
      · rw [Dst.store_append (h := fun k => G.file s (s.icache x).inum (off + k)) hbytes
          fun k _ => by rw [Nat.add_assoc], show m + (left - m) = left by omega]

/-- **`readi`** of a file returns the bytes from `off` up to its end, and changes nothing but the
    destination. -/
theorem readi_spec (h : Core G s) (hx : x ∈ G.refs) (hv : (s.icache x).valid = true)
    (hty : (G.tbl (s.icache x).inum).type ≠ T_DEV) :
    wp (readi x dst off n)
      (fun r s' =>
        if (G.tbl (s.icache x).inum).size < off ∨ (off + n) % 4294967296 < off then r = (-1, []) ∧ s' = s
        else r = (((min n ((G.tbl (s.icache x).inum).size - off) : Nat) : Int),
            slice (G.file s (s.icache x).inum) off (min n ((G.tbl (s.icache x).inum).size - off))) ∧
          s' = dst.store s 0 (min n ((G.tbl (s.icache x).inum).size - off)) fun k =>
            G.file s (s.icache x).inum (off + k))
      (fun _ _ => False) s := by
  obtain ⟨hm, ht, hlt⟩ := h.live hx hv
  have htype : (s.icache x).type = (G.tbl (s.icache x).inum).type := by rw [← hm]
  have hsize : (s.icache x).size = (G.tbl (s.icache x).inum).size := by rw [← hm]
  unfold readi
  rw [wp_bind, wp_inode, htype, hsize, if_neg hty]
  generalize hsz : (G.tbl (s.icache x).inum).size = size at *
  by_cases hbad : size < off ∨ (off + n) % 4294967296 < off
  · rw [if_pos hbad, wp_pure, if_pos hbad]
    exact ⟨rfl, rfl⟩
  rw [if_neg hbad]
  have hn : (if size < off + n then size - off else n) = min n (size - off) := by
    split <;> omega
  simp only [hn, wp_bind, wp_pure]
  refine wp_post (readiLoop_spec _ s 0 off _ h hx hv (Nat.le_refl _) ?_) ?_
  · intro k hk
    refine h.vol.holes _ hlt ht _ ?_
    have := Nat.div_mul_le_self (off + k) BSIZE
    omega
  · rintro bytes s' ⟨rfl, rfl⟩
    rw [if_neg hbad]
    exact ⟨rfl, rfl⟩

/-! ## Writing -/

variable {b : Nat} {P : Finset Nat}

/-- Writing a block of a file, with anything happening to user memory. -/
theorem Grown.write (h : Core G s) (hx : x ∈ G.refs) (hv : (s.icache x).valid = true)
    (hb : G.own s ((s.icache x).inum, blockIx n) = some b) {y : Arr}
    (hd : s'.disk ROOTDEV = Function.update (s.disk ROOTDEV) b y) (hc : s'.icache = s.icache) :
    Grown x P G s G s' := by
  obtain ⟨hge, hlt, -⟩ := h.vol.alloc.own_range hb
  have hstart := bitStart_range G.sb
  have hown : G.own s' = G.own s := by rw [Ghost.own, hd]; exact h.vol.ownOf_write hb y
  have hrefl := Grown.refl h hx hv P
  refine ⟨⟨by rw [hd]; exact h.vol.write hb y, by rw [hc]; exact h.cache⟩, hrefl.ghost, ?_, ?_, ?_, ?_, ?_⟩
  · rw [hc]; exact hrefl.icache
  · intro z c hz; rw [hown]; exact hz
  · intro z _; rw [hown]
  · intro j hj
    rw [hd]; exact dmeta_update (by omega) hj
  · rw [hown, hd, freeBlocks_congr fun c hc => bit_update (.inr hge) hc]

/-- The file after one block of a transfer was written. -/
theorem file_write (h : Core G s) {i : Nat} (hb : G.own s (i, blockIx (off / BSIZE)) = some b)
    (hm : m ≤ BSIZE - off % BSIZE) (data : Arr)
    (hd : s'.disk ROOTDEV = Function.update (s.disk ROOTDEV) b (blit (s.disk ROOTDEV b) (off % BSIZE) m data))
    (j : Nat) : G.file s' j = if j = i then blit (G.file s j) off m data else G.file s j := by
  have hown : G.own s' = G.own s := by rw [Ghost.own, hd]; exact h.vol.ownOf_write hb _
  have howns : Owns (G.own s) (Reserved G.sb G.R) (Used G.sb (s.disk ROOTDEV)) := h.vol.alloc.owns
  funext p
  rw [Ghost.file, hown, hd, contents_write howns hb]
  by_cases hji : j = i
  · subst hji
    simp only [true_and, if_true]
    by_cases hp : p / BSIZE = off / BSIZE
    · rw [if_pos hp]
      simp only [BSIZE] at *
      by_cases hin : off ≤ p ∧ p < off + m
      · rw [blit_in (by omega) (by omega), blit_in hin.1 hin.2]
        congr 1; omega
      · rw [blit_out (by omega), blit_out (by omega), Ghost.file,
          contents_mapped (by simp only [BSIZE]; rw [hp]; exact hb)]
    · rw [if_neg hp]
      simp only [BSIZE] at *
      exact (blit_out (by omega)).symm
  · rw [if_neg fun hc => hji hc.1, if_neg hji]; rfl

theorem Src.load_mem (src : Src) (s : Fs) (tot n : Nat) : (src.load s tot n).mem = s.mem := by
  cases src <;> rfl

theorem Src.load_tty (src : Src) (s : Fs) (tot n : Nat) : (src.load s tot n).tty = s.tty := by
  cases src <;> rfl

/-- Two reads of the source next to each other are one. -/
theorem Src.load_append (src : Src) (hacc : s'.acc = (src.load s tot m).acc) :
    (src.load s' (tot + m) n).acc = (src.load s tot (m + n)).acc := by
  cases src with
  | kernel d => exact hacc
  | user a =>
    simp only [Src.load] at hacc ⊢
    rw [hacc, List.append_assoc, ← Nat.add_assoc, touch_append]

/-- What a transfer of `n` bytes from `src + tot` to `off` does to the file in slot `x`. -/
structure Written (x : Slot) (P : Finset Nat) (src : Src) (tot off n : Nat) (G : Ghost) (s : Fs) (G' : Ghost)
    (s' : Fs) : Prop where
  grown : Grown x P G s G' s'
  file : ∀ j, G'.file s' j =
    if j = (s.icache x).inum then blit (G.file s j) off n fun k => src.bytes s.mem (tot + k) else G.file s j
  mapped : ∀ k < n, G'.own s' ((s.icache x).inum, blockIx ((off + k) / BSIZE)) ≠ none
  mem : s'.mem = s.mem
  tty : s'.tty = s.tty
  acc : s'.acc = (src.load s tot n).acc

/-- **The loop of `writei`** replaces a slice of the file, or runs out of blocks because fewer are free than
    pointers are missing. -/
theorem writeiLoop_spec (fuel : Nat) : ∀ (G : Ghost) (s : Fs) (tot off left : Nat), Core G s → x ∈ G.refs →
    (s.icache x).valid = true → left ≤ fuel → off + left ≤ MAXFILE * BSIZE →
    (∀ k < left, path ((off + k) / BSIZE) ⊆ P) →
    wp (writeiLoop x src fuel tot off left)
      (fun o s' => o = off + left ∧ ∃ G', Written x P src tot off left G s G' s')
      (fun e _ => e = .panic "balloc: out of blocks" ∧
        freeBlocks G.sb (s.disk ROOTDEV) < missing (G.own s) (s.icache x).inum P) s := by
  have hdone : ∀ (G : Ghost) (s : Fs) (tot off : Nat), Core G s → x ∈ G.refs → (s.icache x).valid = true →
      Written x P src tot off 0 G s G s := by
    intro G s tot off h hx hv
    refine ⟨Grown.refl h hx hv P, fun j => ?_, fun k hk => absurd hk (Nat.not_lt_zero k), rfl, rfl, ?_⟩
    · have hb : blit (G.file s j) off 0 (fun k => src.bytes s.mem (tot + k)) = G.file s j :=
        funext fun p => blit_out (by omega)
      rw [hb, ite_self]
    · cases src <;> simp [Src.load, touch]
  induction fuel with
  | zero =>
    intro G s tot off left h hx hv hle _ _
    obtain rfl : left = 0 := by omega
    exact ⟨rfl, G, hdone G s tot off h hx hv⟩
  | succ fuel ih =>
    intro G s tot off left h hx hv hle hmax hP
    unfold writeiLoop
    by_cases h0 : left = 0
    · subst h0
      rw [if_pos rfl, wp_pure]
      exact ⟨rfl, G, hdone G s tot off h hx hv⟩
    have hn : off / BSIZE < MAXFILE := by simp only [BSIZE, MAXFILE] at *; omega
    have hP0 : path (off / BSIZE) ⊆ P := by have := hP 0 (by omega); rwa [Nat.add_zero] at this
    rw [if_neg h0, wp_bind]
    refine wp_mono (bmap_spec h hx hv hn) ?_ ?_
    swap
    · rintro e s' ⟨rfl, hroom⟩
      exact ⟨rfl, Nat.lt_of_lt_of_le hroom (Finset.card_le_card (Finset.filter_subset_filter _ hP0))⟩
    rintro b s1 ⟨G1, hg, hb, hq⟩
    have hx1 : x ∈ G1.refs := by rw [hg.refs_eq]; exact hx
    have hv1 : (s1.icache x).valid = true := by rw [hg.valid]; exact hv
    rw [← hg.inum] at hb
    rw [wp_bind, wp_inode, wp_bind, hg.core.cache.dev x hx1, wp_bread]
    have hm1 : 1 ≤ min left (BSIZE - off % BSIZE) := by simp only [BSIZE]; omega
    have hchunk : ∀ k < min left (BSIZE - off % BSIZE), (off + k) / BSIZE = off / BSIZE :=
      fun k hk => (chunk_arith hk).1
    have hm2 : min left (BSIZE - off % BSIZE) ≤ BSIZE - off % BSIZE := Nat.min_le_right ..
    have hml : min left (BSIZE - off % BSIZE) ≤ left := Nat.min_le_left ..
    generalize min left (BSIZE - off % BSIZE) = m at *
    simp only [wp_bind, wp_copyIn, wp_bwrite]
    -- `s2` is the state with this block written
    generalize hs2 : (src.load s1 tot m).setSector ROOTDEV b
      (blit (s1.disk ROOTDEV b) (off % BSIZE) m fun k => src.bytes s1.mem (tot + k)) = s2
    have hd2 : s2.disk ROOTDEV = Function.update (s1.disk ROOTDEV) b
        (blit (s1.disk ROOTDEV b) (off % BSIZE) m fun k => src.bytes s1.mem (tot + k)) := by
      rw [← hs2, setSector_disk, Src.load_disk]
    have hc2 : s2.icache = s1.icache := by rw [← hs2, setSector_icache, Src.load_icache]
    have hmem2 : s2.mem = s1.mem := by rw [← hs2]; exact Src.load_mem ..
    have htty2 : s2.tty = s1.tty := by rw [← hs2]; exact Src.load_tty ..
    have hacc2 : s2.acc = (src.load s1 tot m).acc := by rw [← hs2]; rfl
    have hg2 : Grown x P G s G1 s2 := (hg.mono hP0).trans (Grown.write hg.core hx1 hv1 hb hd2 hc2)
    have hfile2 := file_write hg.core hb hm2 (fun k => src.bytes s1.mem (tot + k)) hd2
    have hown2 : G1.own s2 = G1.own s1 := by rw [Ghost.own, hd2]; exact hg.core.vol.ownOf_write hb _
    have hin2 : (s2.icache x).inum = (s.icache x).inum := hg2.inum
    have hbytes : src.bytes s1.mem = src.bytes s.mem := by rw [hq.mem]
    refine wp_mono (ih G1 s2 (tot + m) (off + m) (left - m) hg2.core (by rw [hg.refs_eq]; exact hx)
      (by rw [hg2.valid]; exact hv) (by omega) (by omega) ?_) ?_ ?_
    · intro k hk
      rw [Nat.add_assoc]; exact hP _ (by omega)
    · rintro o s3 ⟨rfl, G3, hw⟩
      refine ⟨by omega, G3, hg2.trans hw.grown, fun j => ?_, fun k hk => ?_, ?_, ?_, ?_⟩
      · rw [hw.file, hfile2, hin2, hg.inum, hq.file, hbytes]
        by_cases hj : j = (s.icache x).inum
        · simp only [if_pos hj]
          rw [blit_append (h := fun k => src.bytes s.mem (tot + k)) (fun _ _ => rfl), show m + (left - m) = left by omega]
          intro k _
          rw [hmem2.trans hq.mem, Nat.add_assoc]
        · simp only [if_neg hj]
      · by_cases hkm : k < m
        · have hmap : G1.own s2 ((s.icache x).inum, blockIx ((off + k) / BSIZE)) = some b := by
            rw [hown2, hchunk k hkm, ← hg.inum]; exact hb
          rw [hw.grown.grows _ _ hmap]
          exact Option.some_ne_none b
        · have := hw.mapped (k - m) (by omega)
          rwa [hin2, show off + m + (k - m) = off + k by omega] at this
      · rw [hw.mem, hmem2, hq.mem]
      · rw [hw.tty, htty2, hq.tty]
      · have hacc : s2.acc = (src.load s tot m).acc := by
          rw [hacc2]
          cases src <;> simp only [Src.load, hq.acc]
        rw [hw.acc, src.load_append hacc, show m + (left - m) = left by omega]
    · rintro e s' ⟨rfl, hroom⟩
      refine ⟨rfl, ?_⟩
      have hbal := hg2.room
      rw [hin2, hg.sb_eq] at hroom
      omega

/-- The pointers a transfer of `n` bytes at `off` follows. -/
def touched (off n : Nat) : Finset Nat := (Finset.range n).biUnion fun k => path ((off + k) / BSIZE)

/-- A mapped block is reached through pointers that are there. -/
theorem path_mapped {i k : Nat} (hi : i < G.sb.ninodes) (ht : (G.tbl i).type ≠ 0)
    (hmap : G.own s (i, blockIx n) ≠ none) (hk : k ∈ path n) : G.own s (i, k) ≠ none := by
  obtain ⟨b, hb⟩ := Option.ne_none_iff_exists'.mp hmap
  obtain ⟨-, -, hlt, hptr, hne⟩ := ownOf_eq_some.mp hb
  by_cases hn : n < NDIRECT
  · rw [path, if_pos hn, Finset.mem_singleton] at hk
    rw [blockIx, if_pos hn] at hmap
    rw [hk]; exact hmap
  · rw [path, if_neg hn, Finset.mem_insert, Finset.mem_singleton] at hk
    rw [blockIx, if_neg hn] at hmap hptr
    rcases hk with rfl | rfl
    · -- an entry of the indirect block is read only where there is one
      intro hc
      have h0 : (G.tbl i).addrs NDIRECT = 0 := by
        have := (ownOf_eq_none hi ht (by decide)).mp hc
        rwa [ptr, if_pos (Nat.le_refl _)] at this
      rw [ptr, if_neg (by simp only [NDIRECT] at *; omega), if_pos h0] at hptr
      exact hne hptr.symm
    · exact hmap

/-- Growth that adds no pointer changes no metadata. -/
theorem Grown.eq_of_own (hg : Grown x P G s G' s') (h : Core G s) (hx : x ∈ G.refs)
    (hv : (s.icache x).valid = true) (hP : ∀ k ∈ P, G.own s ((s.icache x).inum, k) ≠ none) : G' = G := by
  obtain ⟨hm, ht, hlt⟩ := h.live hx hv
  have hown : ∀ k, G'.own s' ((s.icache x).inum, k) = G.own s ((s.icache x).inum, k) := by
    intro k
    by_cases hk : k ∈ P
    · obtain ⟨b, hb⟩ := Option.ne_none_iff_exists'.mp (hP k hk)
      rw [hb]; exact hg.grows _ _ hb
    · exact hg.only _ fun hc => hk hc.2
  obtain ⟨a, hG'⟩ := hg.ghost
  have hfits' := hg.core.vol.fits (s.icache x).inum (by rw [hg.sb_eq]; exact hlt)
  have hfits := h.vol.fits (s.icache x).inum hlt
  have htbl : G'.tbl (s.icache x).inum = { G.tbl (s.icache x).inum with addrs := a } := by
    rw [hG']; exact Function.update_self ..
  have ha : a = (G.tbl (s.icache x).inum).addrs := by
    funext k
    by_cases hk : k ≤ NDIRECT
    · have hkp : k < NPTR := by simp only [NDIRECT, NPTR] at *; omega
      have h1 := hown k
      rw [Ghost.own, Ghost.own, hg.sb_eq, ownOf_alloc hlt (by rw [htbl]; exact ht) hkp, ownOf_alloc hlt ht hkp,
        ptr, ptr, if_pos hk, if_pos hk, htbl] at h1
      by_cases h0 : a k = 0 <;> by_cases h0' : (G.tbl (s.icache x).inum).addrs k = 0 <;> simp_all
    · have h1 := hfits'.past k (by simp only [NDIRECT] at hk; omega)
      have h2 := hfits.past k (by simp only [NDIRECT] at hk; omega)
      rw [htbl] at h1
      exact h1.trans h2.symm
  rw [hG', ha, Ghost.setMeta, Function.update_eq_self]

/-- A transfer inside the file follows pointers that are there. -/
theorem Core.touched_mapped {i : Nat} (h : Core G s) (hi : i < G.sb.ninodes) (ht : (G.tbl i).type ≠ 0)
    (hin : off + n ≤ (G.tbl i).size) : ∀ k ∈ touched off n, G.own s (i, k) ≠ none := by
  intro k hk
  obtain ⟨j, hj, hkj⟩ := Finset.mem_biUnion.mp hk
  have hj' := Finset.mem_range.mp hj
  refine path_mapped hi ht (h.vol.holes _ hi ht _ ?_) hkj
  have := Nat.div_mul_le_self (off + j) BSIZE
  omega

/-- **What `writei` does.** `n` bytes of the source replace those of the file from `off` on, the size grows to
    cover them, the inode is stored when it changed, and no other file or inode is touched. -/
structure WriteDone (x : Slot) (src : Src) (off n : Nat) (G : Ghost) (s : Fs) (G' : Ghost) (s' : Fs) : Prop where
  core : Core G' s'
  ghost : ∃ a, G' = G.setMeta (s.icache x).inum { G.tbl (s.icache x).inum with
    size := max (G.tbl (s.icache x).inum).size (off + n), addrs := a }
  icache : s'.icache = Function.update s.icache x { s.icache x with toMeta := G'.tbl (s.icache x).inum }
  grows : ∀ y b, G.own s y = some b → G'.own s' y = some b
  only : ∀ y, y.1 ≠ (s.icache x).inum → G'.own s' y = G.own s y
  file : ∀ j, G'.file s' j =
    if j = (s.icache x).inum then blit (G.file s j) off n (src.bytes s.mem) else G.file s j
  stored : ∀ j < G.sb.ninodes, j ≠ (s.icache x).inum → dmeta (s'.disk ROOTDEV) j = dmeta (s.disk ROOTDEV) j
  saved : dmeta (s.disk ROOTDEV) (s.icache x).inum = G.tbl (s.icache x).inum →
    dmeta (s'.disk ROOTDEV) (s.icache x).inum = G'.tbl (s.icache x).inum
  mem : s'.mem = s.mem
  tty : s'.tty = s.tty
  acc : s'.acc = (src.load s 0 n).acc

/-- A write inside the file only replaces bytes. -/
theorem Written.done (hw : Written x P src 0 off n G s G' s') (h : Core G s) (hx : x ∈ G.refs)
    (hv : (s.icache x).valid = true) (hP : ∀ k ∈ P, G.own s ((s.icache x).inum, k) ≠ none)
    (hsize : off + n ≤ (G.tbl (s.icache x).inum).size) : WriteDone x src off n G s G' s' := by
  obtain rfl : G' = G := hw.grown.eq_of_own h hx hv hP
  obtain ⟨hm, ht, hlt⟩ := h.live hx hv
  refine ⟨hw.grown.core, ⟨(G'.tbl (s.icache x).inum).addrs, ?_⟩, hw.grown.icache, hw.grown.grows, fun y hy => ?_,
    fun j => ?_, fun j hj _ => hw.grown.stored j hj, fun hs => ?_, hw.mem, hw.tty, hw.acc⟩
  · rw [Nat.max_eq_left hsize, Ghost.setMeta, Function.update_eq_self]
  · exact hw.grown.only y fun hc => hy hc.1
  · simpa only [Nat.zero_add] using hw.file j
  · rw [hw.grown.stored _ hlt]; exact hs

/-- A write past the end also moves the end, and stores the inode. -/
theorem Written.extend (hw : Written x P src 0 off n G s G' s') (h : Core G s) (hx : x ∈ G.refs)
    (hv : (s.icache x).valid = true) (hoff : off ≤ (G.tbl (s.icache x).inum).size)
    (hsize : (G.tbl (s.icache x).inum).size < off + n) (hmax : off + n ≤ MAXFILE * BSIZE) :
    wp (do modInode x fun i => { i with size := off + n }; iupdate x)
      (fun _ s'' => ∃ G'', WriteDone x src off n G s G'' s'') (fun _ _ => False) s' := by
  obtain ⟨hm, ht, hlt⟩ := h.live hx hv
  have hx' : x ∈ G'.refs := by rw [hw.grown.refs_eq]; exact hx
  have hv' : (s'.icache x).valid = true := by rw [hw.grown.valid]; exact hv
  obtain ⟨hm', ht', hlt'⟩ := hw.grown.core.live hx' hv'
  have hin := hw.grown.inum
  obtain ⟨a, htbl⟩ := hw.grown.tbl_self
  have hfits := hw.grown.core.vol.fits _ hlt'
  -- the bytes between the old and the new end are mapped by this write
  have hholes : ∀ k, k * BSIZE < off + n → G'.own s' ((s'.icache x).inum, blockIx k) ≠ none := by
    intro k hk
    rw [hin]
    by_cases hold : k * BSIZE < (G.tbl (s.icache x).inum).size
    · obtain ⟨b, hb⟩ := Option.ne_none_iff_exists'.mp (h.vol.holes _ hlt ht k hold)
      rw [hw.grown.grows _ b hb]; exact Option.some_ne_none b
    · have hmap := hw.mapped (k * BSIZE - off) (by omega)
      rwa [show off + (k * BSIZE - off) = k * BSIZE by omega, Nat.mul_div_cancel _ (by decide)] at hmap
  obtain ⟨hcore, hown⟩ := hw.grown.core.setMeta hx' hv' (m := { G'.tbl (s'.icache x).inum with size := off + n })
    ht' rfl ⟨hfits.type, hfits.major, hfits.minor, hfits.nlink, by
      simp only [MAXFILE, BSIZE] at hmax; show off + n < 4294967296; omega, hfits.addr, hfits.past⟩ hholes
  have hslot : { s'.icache x with size := off + n } =
      { s'.icache x with toMeta := { G'.tbl (s'.icache x).inum with size := off + n } } := by rw [← hm']
  simp only [wp_bind, wp_modInode]
  rw [hslot]
  generalize hs2 : s'.setInode x
    { s'.icache x with toMeta := { G'.tbl (s'.icache x).inum with size := off + n } } = s2 at *
  have hc2 : s2.icache = Function.update s'.icache x
      { s'.icache x with toMeta := { G'.tbl (s'.icache x).inum with size := off + n } } := by rw [← hs2]; rfl
  have hd2 : s2.disk = s'.disk := by rw [← hs2]; rfl
  have hx2 : s2.icache x = { s'.icache x with toMeta := { G'.tbl (s'.icache x).inum with size := off + n } } := by
    rw [hc2, Function.update_self]
  have hin2 : (s2.icache x).inum = (s.icache x).inum := by rw [hx2]; exact hin
  refine wp_post (iupdate_spec hcore hx' (by rw [hx2]; exact hv')) ?_
  rintro _ s3 ⟨hcore3, hc3, hown3, hq3, hmeta3⟩
  rw [hin2] at hmeta3
  have htbl3 : (G'.setMeta (s'.icache x).inum { G'.tbl (s'.icache x).inum with size := off + n }).tbl
      (s.icache x).inum = { G.tbl (s.icache x).inum with size := off + n, addrs := a } := by
    rw [hin, Ghost.setMeta_tbl, Function.update_self, htbl]
  have hown4 : (G'.setMeta (s'.icache x).inum { G'.tbl (s'.icache x).inum with size := off + n }).own s3 =
      G'.own s' := hown3.trans ((Ghost.own_congr _ hd2).trans hown)
  have hmem2 : s2.mem = s'.mem ∧ s2.acc = s'.acc ∧ s2.tty = s'.tty := by rw [← hs2]; exact ⟨rfl, rfl, rfl⟩
  refine ⟨_, hcore3, ⟨a, ?_⟩, ?_, ?_, ?_, ?_, ?_, ?_, ?_, ?_, ?_⟩
  · obtain ⟨a', hG'⟩ := hw.grown.ghost
    rw [hG', Ghost.setMeta_tbl, Function.update_self] at htbl
    rw [Nat.max_eq_right (Nat.le_of_lt hsize), hin, hG']
    simp only [Ghost.setMeta, Function.update_self, Function.update_idem, Meta.mk.injEq, true_and] at htbl ⊢
    rw [htbl]
  · rw [hc3, hc2, hin, Ghost.setMeta_tbl, Function.update_self, hw.grown.slot, hw.grown.icache,
      Function.update_idem]
  · intro y b hy; rw [hown4]; exact hw.grown.grows y b hy
  · intro y hy; rw [hown4]; exact hw.grown.only y fun hc => hy hc.1
  · intro j
    rw [hq3.file, Ghost.file_congr _ hd2]
    have := hw.file j
    simp only [Nat.zero_add] at this
    rw [← this, Ghost.file, Ghost.file, hown]
  · intro j hj hji
    rw [hmeta3 j (by rw [Ghost.setMeta_sb, hw.grown.sb_eq]; exact hj), if_neg hji, hd2]
    exact hw.grown.stored j hj
  · intro _
    rw [hmeta3 _ (by rw [Ghost.setMeta_sb, hw.grown.sb_eq]; exact hlt), if_pos rfl]
  · rw [hq3.mem, hmem2.1, hw.mem]
  · rw [hq3.tty, hmem2.2.2, hw.tty]
  · rw [hq3.acc, hmem2.2.1, hw.acc]

/-- **`writei`** of a file: -1 and no change past the end or on wrap-around, otherwise the bytes that fit
    are written; it runs out of blocks exactly when fewer are free than the transfer lacks. -/
theorem writei_spec (h : Core G s) (hx : x ∈ G.refs) (hv : (s.icache x).valid = true)
    (hty : (G.tbl (s.icache x).inum).type ≠ T_DEV) :
    wp (writei x src off n)
      (fun r s' =>
        if (G.tbl (s.icache x).inum).size < off ∨ (off + n) % 4294967296 < off then r = -1 ∧ s' = s
        else r = (min n (MAXFILE * BSIZE - off) : Nat) ∧
          ∃ G', WriteDone x src off (min n (MAXFILE * BSIZE - off)) G s G' s')
      (fun e _ => e = .panic "balloc: out of blocks" ∧ freeBlocks G.sb (s.disk ROOTDEV) <
        missing (G.own s) (s.icache x).inum (touched off (min n (MAXFILE * BSIZE - off)))) s := by
  obtain ⟨hm, ht, hlt⟩ := h.live hx hv
  have htype : (s.icache x).type = (G.tbl (s.icache x).inum).type := by rw [← hm]
  have hsize : (s.icache x).size = (G.tbl (s.icache x).inum).size := by rw [← hm]
  have hle := h.vol.size_le hlt ht
  unfold writei
  rw [wp_bind, wp_inode, htype, hsize, if_neg hty]
  by_cases hbad : (G.tbl (s.icache x).inum).size < off ∨ (off + n) % 4294967296 < off
  · rw [if_pos hbad, wp_pure, if_pos hbad]
    exact ⟨rfl, rfl⟩
  rw [if_neg hbad]
  have hoff : off ≤ (G.tbl (s.icache x).inum).size := Nat.le_of_not_lt fun hc => hbad (.inl hc)
  have hn : (if MAXFILE * BSIZE < off + n then (MAXFILE * BSIZE + 4294967296 - off) % 4294967296 else n) =
      min n (MAXFILE * BSIZE - off) := by
    simp only [MAXFILE, BSIZE] at *
    split <;> omega
  simp only [hn, if_neg hbad]
  have hmax : off + min n (MAXFILE * BSIZE - off) ≤ MAXFILE * BSIZE := by omega
  generalize min n (MAXFILE * BSIZE - off) = m at *
  rw [wp_bind]
  refine wp_mono (writeiLoop_spec m G s 0 off m h hx hv (Nat.le_refl m) hmax
    fun k hk => Finset.subset_biUnion_of_mem (fun k => path ((off + k) / BSIZE)) (Finset.mem_range.mpr hk)) ?_
    fun e s' he => he
  rintro o s1 ⟨rfl, G1, hw⟩
  obtain ⟨a, htbl⟩ := hw.grown.tbl_self
  have hsize1 : (s1.icache x).size = (G.tbl (s.icache x).inum).size := by rw [hw.grown.slot, htbl]
  rw [wp_bind, wp_inode, hsize1]
  by_cases hgrow : 0 < m ∧ (G.tbl (s.icache x).inum).size < off + m
  · have hext := hw.extend h hx hv hoff hgrow.2 hmax
    rw [wp_bind] at hext
    rw [if_pos hgrow, wp_bind]
    refine wp_mono hext (fun _ s2 h2 => ?_) fun e s' hf => hf.elim
    rw [wp_bind]
    refine wp_mono h2 ?_ fun e s' hf => hf.elim
    rintro _ s3 ⟨G2, hdone⟩
    exact ⟨rfl, G2, hdone⟩
  · rw [if_neg hgrow, wp_pure]
    have hin : off + m ≤ (G.tbl (s.icache x).inum).size := by omega
    exact ⟨rfl, G1, hw.done h hx hv (h.touched_mapped hlt ht hin) hin⟩

/-! ## The console -/

/-- Reading from the console leaves the disk and the inode cache alone, and returns. -/
theorem consolereadLoop_frame {E : Stop → Fs → Prop} (dst : Dst) (target n : Nat) : ∀ s,
    wp (consolereadLoop dst target n) (fun _ s' => s'.disk = s.disk ∧ s'.icache = s.icache) E s := by
  induction n with
  | zero => intro s; exact ⟨rfl, rfl⟩
  | succ n ih =>
    intro s
    unfold consolereadLoop
    rw [wp_bind, wp_get]
    cases s.tty 0 with
    | none => exact ⟨rfl, rfl⟩
    | some c =>
      simp only [wp_ite, wp_bind, wp_set, wp_copyOut, wp_pure, Dst.store_disk, Dst.store_icache, and_self,
        implies_true, true_and]
      intro _ _
      refine wp_post (ih _) ?_
      rintro r s' ⟨hd, hc⟩
      rw [Dst.store_disk] at hd
      rw [Dst.store_icache] at hc
      exact ⟨hd, hc⟩

end Xv6
