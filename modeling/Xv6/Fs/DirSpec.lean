import Mathlib.Data.List.Find
import Xv6.Fs.Dir
import Xv6.Fs.Rw
import Xv6.Fs.Trunc

/-!
# `Fs.DirSpec` — directories as tables of entries

A directory is the array of its bytes read as 16-byte entries. `lookup` is the search of `dirlookup` on such
an array; the code runs it block by block over the blocks of the file.
-/

namespace Xv6

open Bytes Hoare Ownership

/-! ## Tables of entries -/

/-- Entry `e` of directory `f` is in use and has the name. -/
def entryIs (f : Arr) (name : List UInt8) (e : Nat) : Bool :=
  direntInum f (16 * e) ≠ 0 ∧ namecmp name (direntName f (16 * e)) = 0

/-- The first entry of that name among the `n` entries from `a` on. -/
def lookup (f : Arr) (name : List UInt8) (a n : Nat) : Option Nat := (List.range' a n).find? (entryIs f name)

/-- Entries of the whole blocks a directory of that size has. -/
def entries (size : Nat) : Nat := 32 * ((size + BSIZE - 1) / BSIZE)

variable {f : Arr} {name : List UInt8} {e k n : Nat}

theorem lookup_some (h : lookup f name k n = some e) :
    (k ≤ e ∧ e < k + n) ∧ direntInum f (16 * e) ≠ 0 ∧ namecmp name (direntName f (16 * e)) = 0 := by
  have h1 := List.mem_range'_1.mp (List.mem_of_find?_eq_some h)
  have h2 := List.find?_some h
  simp only [entryIs, decide_eq_true_eq] at h2
  exact ⟨h1, h2⟩

theorem lookup_add (f : Arr) (name : List UInt8) (k m n : Nat) :
    lookup f name k (m + n) = (lookup f name k m).or (lookup f name (k + m) n) := by
  rw [lookup, ← List.range'_append, List.find?_append, Nat.one_mul]; rfl

/-- The inode number of a new entry, as a `ushort`. -/
theorem direntInum_direntBytes (inum : Nat) (name : List UInt8) :
    direntInum (direntBytes inum name) 0 = inum % 65536 := by
  simp only [direntInum, u16, direntBytes]
  rw [if_pos (by decide), if_pos (by decide), toNat_byteOf, toNat_byteOf]
  omega

/-- Writing one whole entry replaces that entry. -/
theorem direntInum_blit (f d : Arr) (e k : Nat) :
    direntInum (blit f (16 * e) 16 d) (16 * k) = if k = e then direntInum d 0 else direntInum f (16 * k) := by
  by_cases hke : k = e
  · subst hke
    rw [if_pos rfl, direntInum, u16, blit_in (by omega) (by omega), blit_in (by omega) (by omega), Nat.sub_self,
      Nat.add_sub_cancel_left, direntInum, u16]
  · rw [if_neg hke, direntInum, u16, blit_out (by omega), blit_out (by omega), direntInum, u16]

/-- An entry inside one block. -/
theorem direntInum_block {bp : Arr} {blk : Nat} (h : ∀ o < BSIZE, bp o = f (BSIZE * blk + o)) (hk : k < 32) :
    direntInum bp (16 * k) = direntInum f (16 * (32 * blk + k)) := by
  simp only [direntInum, u16]
  simp only [BSIZE] at h
  rw [h _ (by omega), h _ (by omega)]
  congr 2 <;> congr 2 <;> omega

/-- **One block of the search.** -/
theorem findEntry_eq {bp : Arr} {blk : Nat} (h : ∀ o < BSIZE, bp o = f (BSIZE * blk + o)) :
    lookup f name (32 * blk) 32 = (findEntry bp name).map (32 * blk + ·) := by
  rw [lookup, List.range'_eq_map_range, List.find?_map]
  congr 1
  refine List.find?_congr fun k hk => ?_
  have hk' := List.mem_range.mp hk
  have hname : direntName f (16 * (32 * blk + k)) = direntName bp (16 * k) := by
    refine List.map_congr_left fun o ho => ?_
    have ho' := List.mem_range.mp ho
    simp only [BSIZE, DIRSIZ] at h ho'
    rw [h _ (by omega)]
    congr 1; omega
  simp only [entryIs, Function.comp_apply, direntInum_block h hk', hname]

variable {G : Ghost} {s : Fs} {x : Slot}

/-- The bytes of a mapped block of a file. -/
theorem Ghost.file_block {i blk b : Nat} (hb : G.own s (i, blockIx blk) = some b) :
    ∀ o < BSIZE, s.disk ROOTDEV b o = G.file s i (BSIZE * blk + o) := by
  intro o ho
  simp only [BSIZE] at ho
  have hdiv : (BSIZE * blk + o) / BSIZE = blk := by simp only [BSIZE]; omega
  rw [Ghost.file, contents_mapped (by rw [hdiv]; exact hb)]
  congr 1
  simp only [BSIZE]; omega

/-- What `dirlookup` found: the inode of entry `e`, with one more reference. -/
structure Looked (G : Ghost) (s : Fs) (inum : Nat) (y : Slot) (s' : Fs) : Prop where
  core : Core ⟨G.toEnv, G.tbl, y ::ₘ G.refs, G.held⟩ s'
  disk : s'.disk = s.disk
  inum : (s'.icache y).inum = inum
  keeps : Keeps G.refs s s'
  valid : (s'.icache y).valid = true → y ∈ G.refs ∧ (s.icache y).valid = true

section Search

variable {Q : Option (Slot × Nat) → Fs → Prop} {E : Stop → Fs → Prop}

/-- The blocks of `dirlookup` still to scan. -/
theorem dirlookupFrom_wp (h : Core G s) (hx : x ∈ G.refs) (hv : (s.icache x).valid = true) (t : Nat) : ∀ blk,
    (∀ j < t, G.own s ((s.icache x).inum, blockIx (blk + j)) ≠ none) →
    (match lookup (G.file s (s.icache x).inum) name (32 * blk) (32 * t) with
      | none => Q none s
      | some e => wp (iget ROOTDEV (direntInum (G.file s (s.icache x).inum) (16 * e)))
          (fun y s' => Q (some (y, 16 * e)) s') E s) →
    wp (dirlookupFrom x name t (BSIZE * blk)) Q E s := by
  induction t with
  | zero =>
    intro blk _ hQ
    rw [dirlookupFrom, wp_pure]
    exact hQ
  | succ t ih =>
    intro blk hmap hQ
    obtain ⟨b, hb⟩ := Option.ne_none_iff_exists'.mp (hmap 0 (Nat.zero_lt_succ t))
    rw [Nat.add_zero] at hb
    have hdiv : BSIZE * blk / BSIZE = blk := Nat.mul_div_cancel_left blk (by decide)
    rw [show 32 * (t + 1) = 32 + 32 * t by omega, lookup_add, findEntry_eq (Ghost.file_block hb)] at hQ
    rw [dirlookupFrom, hdiv, wp_bind, bmap_mapped h hx hv hb, wp_bind, wp_inode, wp_bind, h.cache.dev x hx, wp_bread]
    cases hf : findEntry (s.disk ROOTDEV b) name with
    | none =>
      rw [hf, Option.map_none, Option.none_or, show 32 * blk + 32 = 32 * (blk + 1) by omega] at hQ
      exact ih (blk + 1) (fun j hj => by rw [Nat.add_assoc, Nat.add_comm 1 j]; exact hmap (j + 1) (by omega)) hQ
    | some e =>
      have hl : lookup (G.file s (s.icache x).inum) name (32 * blk) 32 = some (32 * blk + e) := by
        rw [findEntry_eq (Ghost.file_block hb), hf]; rfl
      obtain ⟨hrange, -, -⟩ := lookup_some hl
      rw [hf, Option.map_some, Option.some_or] at hQ
      simp only [wp_bind]
      rw [direntInum_block (Ghost.file_block hb) (by omega)]
      refine wp_mono hQ (fun y s' hy => ?_) fun _ _ he => he
      rw [wp_pure, show BSIZE * blk + 16 * e = 16 * (32 * blk + e) by simp only [BSIZE]; omega]
      exact hy

/-- **The search of `dirlookup`** goes over the whole blocks of the directory, and then gets the inode of the first
    entry of that name. -/
theorem dirlookup_wp (h : Core G s) (hx : x ∈ G.refs) (hv : (s.icache x).valid = true)
    (ht : (G.tbl (s.icache x).inum).type = T_DIR)
    (hQ : match lookup (G.file s (s.icache x).inum) name 0 (entries (G.tbl (s.icache x).inum).size) with
      | none => Q none s
      | some e => wp (iget ROOTDEV (direntInum (G.file s (s.icache x).inum) (16 * e)))
          (fun y s' => Q (some (y, 16 * e)) s') E s) :
    wp (dirlookup x name) Q E s := by
  obtain ⟨hm, ht0, hlt⟩ := h.live hx hv
  have htype : (s.icache x).type = T_DIR := by rw [← ht, ← hm]
  have hsize : (s.icache x).size = (G.tbl (s.icache x).inum).size := by rw [← hm]
  unfold dirlookup
  rw [wp_bind, wp_inode, if_neg (not_not_intro htype), hsize]
  refine dirlookupFrom_wp h hx hv _ 0 (fun j hj => ?_) hQ
  rw [Nat.zero_add]
  refine h.vol.holes _ hlt ht0 j ?_
  simp only [BSIZE] at *
  omega

end Search

/-- **`dirlookup`** finds the first entry of that name, over the whole blocks of the directory. -/
theorem dirlookup_spec (h : Core G s) (hx : x ∈ G.refs) (hv : (s.icache x).valid = true)
    (ht : (G.tbl (s.icache x).inum).type = T_DIR)
    (hin : ∀ e, direntInum (G.file s (s.icache x).inum) (16 * e) < G.sb.ninodes) :
    wp (dirlookup x name)
      (fun r s' => match lookup (G.file s (s.icache x).inum) name 0 (entries (G.tbl (s.icache x).inum).size) with
        | none => r = none ∧ s' = s
        | some e => ∃ y, r = some (y, 16 * e) ∧ Looked G s (direntInum (G.file s (s.icache x).inum) (16 * e)) y s')
      (fun e _ => e = .panic "iget: no inodes" ∧ ∀ y, y ∈ G.refs) s := by
  refine dirlookup_wp h hx hv ht ?_
  cases hl : lookup (G.file s (s.icache x).inum) name 0 (entries (G.tbl (s.icache x).inum).size) with
  | none => exact ⟨rfl, rfl⟩
  | some e =>
    obtain ⟨-, hused, -⟩ := lookup_some hl
    refine wp_mono (iget_spec h ⟨by omega, hin e⟩) ?_ fun _ _ he => he
    rintro y s' ⟨hc, hd, hi, hk, hval⟩
    exact ⟨y, rfl, hc, hd, hi, hk, hval⟩

/-- What `iget` got, whatever the number: an inode that can be let go of again. -/
structure Got (G : Ghost) (s : Fs) (inum : Nat) (y : Slot) (s' : Fs) : Prop where
  disk : s'.disk = s.disk
  inum : (s'.icache y).inum = inum
  put : wp (iput y) (fun _ s'' => Core G s'' ∧ s''.disk = s.disk ∧ Keeps G.refs s s'') (fun _ _ => False) s'

/-- Taking a reference and dropping it again frees nothing: the inode was referenced before, or is not loaded. -/
theorem iget_got (h : Core G s) (i : Nat) :
    wp (iget ROOTDEV i) (Got G s i) (fun e _ => e = .panic "iget: no inodes" ∧ ∀ y, y ∈ G.refs) s := by
  simp only [iget, wp_bind, wp_get]
  cases hc : s.cached ROOTDEV i with
  | some y =>
    have hfound := List.find?_some hc
    simp only [decide_eq_true_eq] at hfound
    have hy : y ∈ G.refs := h.cache.ref_pos.mp hfound.1
    simp only [wp_bind, wp_modInode, wp_pure]
    have hcore : Core ⟨G.toEnv, G.tbl, y ::ₘ G.refs, G.held⟩ (s.setInode y { s.icache y with ref := (s.icache y).ref + 1 }) :=
      ⟨h.vol, h.cache.grab hy⟩
    have hkeep : Keeps G.refs s (s.setInode y { s.icache y with ref := (s.icache y).ref + 1 }) := Keeps.setInode _ rfl id
    refine ⟨rfl, by simpa using hfound.2.2, ?_⟩
    refine wp_post (iput_keep hcore rfl (fun _ => hy) ?_) ?_
    · rintro ⟨h1, -⟩
      have hpos := Multiset.count_pos.mpr hy
      simp only [Multiset.count_cons_self] at h1
      omega
    · rintro _ s'' ⟨rfl, hc', hk⟩
      exact ⟨hc', rfl, hkeep.trans hk⟩
  | none =>
    cases he : s.emptySlot with
    | none => exact ⟨rfl, h.cache.full he⟩
    | some y =>
      have hy := h.cache.notMem_of_emptySlot he
      have hne : ∀ z ∈ G.refs, z ≠ y := by rintro z hz rfl; exact hy hz
      simp only [wp_bind, wp_modInode, wp_pure]
      refine ⟨rfl, by simp, ?_⟩
      unfold iput
      rw [wp_bind, wp_inode, if_neg (by simp), wp_modInode]
      refine ⟨⟨h.vol, ?_⟩, rfl, fun z hz => ?_, fun z hz hv => ?_⟩
      · simp only [setInode_icache, Function.update_self, Function.update_idem]
        exact h.cache.vacant hy rfl rfl
      · simp [Function.update_of_ne (hne z hz)]
      · simpa [Function.update_of_ne (hne z hz)] using hv

/-- One entry read through `readi`. -/
theorem readi_entry (h : Core G s) (hx : x ∈ G.refs) (hv : (s.icache x).valid = true)
    (ht : (G.tbl (s.icache x).inum).type = T_DIR) (he : 16 * e < (G.tbl (s.icache x).inum).size) :
    wp (readi x .kernel (16 * e) 16)
      (fun r s' => s' = s ∧ (r.1 = 16 ↔ 16 * e + 16 ≤ (G.tbl (s.icache x).inum).size) ∧
        (r.1 = 16 → direntInum (localBytes r.2) 0 = direntInum (G.file s (s.icache x).inum) (16 * e)))
      (fun _ _ => False) s := by
  obtain ⟨-, ht0, hlt⟩ := h.live hx hv
  have hle := h.vol.size_le hlt ht0
  refine wp_post (readi_spec h hx hv (by rw [ht]; decide)) ?_
  intro r s' hr
  rw [if_neg (by simp only [MAXFILE, BSIZE] at hle; omega)] at hr
  obtain ⟨rfl, hs⟩ := hr
  refine ⟨hs, by simp only; omega, fun h16 => ?_⟩
  have hmin : min 16 ((G.tbl (s.icache x).inum).size - 16 * e) = 16 := by
    simp only at h16
    omega
  rw [hmin]
  simp [direntInum, u16, localBytes, slice]

/-- **The search of `dirlink`**: the first free entry, or the end of the directory. -/
theorem emptyEntry_spec (h : Core G s) (hx : x ∈ G.refs) (hv : (s.icache x).valid = true)
    (ht : (G.tbl (s.icache x).inum).type = T_DIR) (fuel : Nat) : ∀ e,
    16 * e ≤ (G.tbl (s.icache x).inum).size → (G.tbl (s.icache x).inum).size ≤ 16 * (e + fuel) →
    (∀ j < e, direntInum (G.file s (s.icache x).inum) (16 * j) ≠ 0) →
    wp (emptyEntry x fuel (16 * e))
      (fun off s' => s' = s ∧ ∃ e, off = 16 * e ∧ 16 * e ≤ (G.tbl (s.icache x).inum).size ∧
        (16 * e < (G.tbl (s.icache x).inum).size → direntInum (G.file s (s.icache x).inum) (16 * e) = 0) ∧
        ∀ j < e, direntInum (G.file s (s.icache x).inum) (16 * j) ≠ 0)
      (fun e _ => e = .panic "dirlink read" ∧ ¬ 16 ∣ (G.tbl (s.icache x).inum).size) s := by
  have hsize : (s.icache x).size = (G.tbl (s.icache x).inum).size := by rw [← (h.live hx hv).1]
  induction fuel with
  | zero =>
    intro e hle hfuel hused
    exact ⟨rfl, e, rfl, hle, fun hc => by omega, hused⟩
  | succ fuel ih =>
    intro e hle hfuel hused
    unfold emptyEntry
    rw [wp_bind, wp_inode, hsize]
    by_cases he : 16 * e < (G.tbl (s.icache x).inum).size
    swap
    · rw [if_neg he, wp_pure]
      exact ⟨rfl, e, rfl, hle, fun hc => absurd hc he, hused⟩
    rw [if_pos he, wp_bind]
    refine wp_mono (readi_entry h hx hv ht he) ?_ fun _ _ hf => hf.elim
    rintro ⟨r, bytes⟩ s' ⟨rfl, hr, hbytes⟩
    dsimp only at hr hbytes ⊢
    by_cases h16 : r = 16
    swap
    · rw [if_pos h16]
      refine ⟨rfl, fun hdvd => ?_⟩
      obtain ⟨q, hq⟩ := hdvd
      exact h16 (hr.mpr (by omega))
    have hwhole := hr.mp h16
    rw [if_neg (not_not_intro h16), hbytes h16]
    by_cases h0 : direntInum (G.file s' (s'.icache x).inum) (16 * e) = 0
    · rw [if_pos h0, wp_pure]
      exact ⟨rfl, e, rfl, hle, fun _ => h0, hused⟩
    · rw [if_neg h0]
      refine ih (e + 1) (by omega) (by omega) fun j hj => ?_
      by_cases hje : j = e
      · rw [hje]; exact h0
      · exact hused j (by omega)

/-- Stops that say nothing against the disk. -/
def Benign (e : Stop) : Prop := e ≠ .panic "freeing free block" ∧ e ≠ .panic "ilock: no type"

/-- Why `dirlink` stops: the name is there and the inode cache full, the directory ends inside an entry, the device has
    no room for the first free entry, or the directory is full. -/
inductive LinkStop (G : Ghost) (s : Fs) (x : Slot) (name : List UInt8) : Stop → Prop where
  | cache (hl : lookup (G.file s (s.icache x).inum) name 0 (entries (G.tbl (s.icache x).inum).size) ≠ none)
      (h : ∀ y, y ∈ G.refs) : LinkStop G s x name (.panic "iget: no inodes")
  | ragged (h : ¬ 16 ∣ (G.tbl (s.icache x).inum).size) : LinkStop G s x name (.panic "dirlink read")
  | device (e : Nat) (hend : 16 * e ≤ (G.tbl (s.icache x).inum).size)
      (hfree : 16 * e < (G.tbl (s.icache x).inum).size → direntInum (G.file s (s.icache x).inum) (16 * e) = 0)
      (hused : ∀ j < e, direntInum (G.file s (s.icache x).inum) (16 * j) ≠ 0)
      (h : freeBlocks G.sb (s.disk ROOTDEV) <
        missing (G.own s) (s.icache x).inum (touched (16 * e) (min 16 (MAXFILE * BSIZE - 16 * e)))) :
      LinkStop G s x name (.panic "balloc: out of blocks")
  | full (h : MAXFILE * BSIZE < (G.tbl (s.icache x).inum).size + 16)
      (hused : ∀ j, 16 * j < (G.tbl (s.icache x).inum).size → direntInum (G.file s (s.icache x).inum) (16 * j) ≠ 0) :
      LinkStop G s x name (.panic "dirlink")

theorem LinkStop.benign {e : Stop} (h : LinkStop G s x name e) : Benign e := by
  cases h <;> exact ⟨by decide, by decide⟩

/-- Where `dirlink` puts a new entry: over the first free one, or at the end. -/
structure FreeEntry (f : Arr) (size e : Nat) : Prop where
  le : 16 * e ≤ size
  room : 16 * e + 16 ≤ MAXFILE * BSIZE
  free : 16 * e < size → direntInum f (16 * e) = 0
  first : ∀ j < e, direntInum f (16 * j) ≠ 0

/-- **`dirlink`** refuses a name that is there, and otherwise writes the new entry over the first free one or
    at the end. -/
theorem dirlink_spec (h : Core G s) (hx : x ∈ G.refs) (hv : (s.icache x).valid = true)
    (ht : (G.tbl (s.icache x).inum).type = T_DIR) (inum : Nat) :
    wp (dirlink x name inum)
      (fun r s' => match lookup (G.file s (s.icache x).inum) name 0 (entries (G.tbl (s.icache x).inum).size) with
        | some _ => r = -1 ∧ Core G s' ∧ s'.disk = s.disk ∧ Keeps G.refs s s'
        | none => r = 0 ∧ ∃ e G', FreeEntry (G.file s (s.icache x).inum) (G.tbl (s.icache x).inum).size e ∧
            WriteDone x (.kernel (direntBytes inum name)) (16 * e) 16 G s G' s')
      (fun e _ => LinkStop G s x name e) s := by
  obtain ⟨hm, ht0, hlt⟩ := h.live hx hv
  have hle := h.vol.size_le hlt ht0
  unfold dirlink
  rw [wp_bind]
  refine dirlookup_wp h hx hv ht ?_
  cases hl : lookup (G.file s (s.icache x).inum) name 0 (entries (G.tbl (s.icache x).inum).size) with
  | some e =>
    refine wp_mono (iget_got h _) ?_ ?_
    swap
    · rintro _ _ ⟨rfl, hfull⟩; exact .cache (by rw [hl]; exact Option.some_ne_none _) hfull
    intro y s1 hgot
    simp only [wp_bind, wp_pure]
    refine wp_mono hgot.put ?_ fun _ _ hf => hf.elim
    rintro _ s2 hres
    exact ⟨trivial, hres⟩
  | none =>
    have hsize : (s.icache x).size = (G.tbl (s.icache x).inum).size := by rw [← hm]
    simp only [wp_bind, wp_inode, hsize]
    refine wp_mono (emptyEntry_spec h hx hv ht _ 0 (by omega) (by omega) fun j hj => by omega) ?_ ?_
    swap
    · rintro e _ ⟨rfl, hdvd⟩; exact .ragged hdvd
    rintro off s2 ⟨rfl, e, rfl, hend, hfree, hused⟩
    refine wp_mono (writei_spec h hx hv (by rw [ht]; decide)) ?_ ?_
    swap
    · rintro e' _ ⟨rfl, hroom⟩
      exact .device e hend hfree hused hroom
    intro r s3 hw
    rw [if_neg (by simp only [MAXFILE, BSIZE] at hle; omega)] at hw
    obtain ⟨rfl, G', hdone⟩ := hw
    by_cases h16 : min 16 (MAXFILE * BSIZE - 16 * e) = 16
    · rw [h16] at hdone
      rw [h16, if_neg (by decide), wp_pure]
      exact ⟨rfl, e, G', ⟨hend, by omega, hfree, hused⟩, hdone⟩
    · rw [if_pos (by omega)]
      refine .full (by omega) fun j hj => hused j ?_
      simp only [MAXFILE, BSIZE] at hle h16
      omega

/-- The entries of `isdirempty` still to read. -/
theorem isdiremptyFrom_spec (h : Core G s) (hx : x ∈ G.refs) (hv : (s.icache x).valid = true)
    (ht : (G.tbl (s.icache x).inum).type = T_DIR) (fuel : Nat) : ∀ e,
    (G.tbl (s.icache x).inum).size ≤ 16 * (e + fuel) →
    wp (isdiremptyFrom x fuel (16 * e))
      (fun r s' => s' = s ∧ (r = true ↔ ∀ k, e ≤ k → 16 * k < (G.tbl (s.icache x).inum).size →
        direntInum (G.file s (s.icache x).inum) (16 * k) = 0))
      (fun e _ => e = .panic "isdirempty: readi" ∧ ¬ 16 ∣ (G.tbl (s.icache x).inum).size) s := by
  have hsize : (s.icache x).size = (G.tbl (s.icache x).inum).size := by rw [← (h.live hx hv).1]
  induction fuel with
  | zero =>
    intro e hfuel
    exact ⟨rfl, fun _ k hk hlt => by omega, fun _ => rfl⟩
  | succ fuel ih =>
    intro e hfuel
    unfold isdiremptyFrom
    rw [wp_bind, wp_inode, hsize]
    by_cases he : 16 * e < (G.tbl (s.icache x).inum).size
    swap
    · rw [if_neg he, wp_pure]
      exact ⟨rfl, fun _ k hk hlt => by omega, fun _ => rfl⟩
    rw [if_pos he, wp_bind]
    refine wp_mono (readi_entry h hx hv ht he) ?_ fun _ _ hf => hf.elim
    rintro ⟨r, bytes⟩ s' ⟨rfl, hr, hbytes⟩
    dsimp only at hr hbytes ⊢
    by_cases h16 : r = 16
    swap
    · rw [if_pos h16]
      refine ⟨rfl, fun hdvd => ?_⟩
      obtain ⟨q, hq⟩ := hdvd
      exact h16 (hr.mpr (by omega))
    rw [if_neg (not_not_intro h16), hbytes h16]
    by_cases h0 : direntInum (G.file s' (s'.icache x).inum) (16 * e) = 0
    · rw [if_neg (not_not_intro h0)]
      refine wp_mono (ih (e + 1) (by omega)) ?_ fun _ _ hb => hb
      rintro r' s2 ⟨rfl, hiff⟩
      refine ⟨rfl, hiff.trans ⟨fun hall k hk hlt => ?_, fun hall k hk hlt => hall k (by omega) hlt⟩⟩
      by_cases hke : k = e
      · rw [hke]; exact h0
      · exact hall k (by omega) hlt
    · rw [if_pos h0, wp_pure]
      refine ⟨rfl, fun hc => absurd hc (by decide), fun hall => absurd (hall e (Nat.le_refl e) he) h0⟩

/-- **`isdirempty`**: no entry is in use past the first two. -/
theorem isdirempty_spec (h : Core G s) (hx : x ∈ G.refs) (hv : (s.icache x).valid = true)
    (ht : (G.tbl (s.icache x).inum).type = T_DIR) :
    wp (isdirempty x)
      (fun r s' => s' = s ∧ (r = true ↔ ∀ k, 2 ≤ k → 16 * k < (G.tbl (s.icache x).inum).size →
        direntInum (G.file s (s.icache x).inum) (16 * k) = 0))
      (fun e _ => e = .panic "isdirempty: readi" ∧ ¬ 16 ∣ (G.tbl (s.icache x).inum).size) s := by
  have hsize : (s.icache x).size = (G.tbl (s.icache x).inum).size := by rw [← (h.live hx hv).1]
  unfold isdirempty
  rw [wp_bind, wp_inode, hsize]
  exact isdiremptyFrom_spec h hx hv ht _ 2 (by omega)

/-! ## Link counts -/

/-- `nlink` changed by `k`, as a `short`. -/
def Meta.addLink (m : Meta) (k : Int) : Meta := { m with nlink := short (m.nlink + k) }

/-- **Storing changed metadata**, other than type, size and pointers, of a loaded inode. -/
theorem storeMeta_spec (h : Core G s) (hcl : Clean G s) (hx : x ∈ G.refs) (hv : (s.icache x).valid = true) {m : Meta}
    (htype : m.type = (G.tbl (s.icache x).inum).type) (hsize : m.size = (G.tbl (s.icache x).inum).size)
    (haddrs : m.addrs = (G.tbl (s.icache x).inum).addrs) (hfits : m.Fits) :
    wp (iupdate x)
      (fun _ s' => Core (G.setMeta (s.icache x).inum m) s' ∧ Clean (G.setMeta (s.icache x).inum m) s' ∧
        Keeps G.refs s s' ∧ (G.setMeta (s.icache x).inum m).own s' = G.own s ∧
        ∀ j, (G.setMeta (s.icache x).inum m).file s' j = G.file s j)
      (fun _ _ => False) (s.setInode x { s.icache x with toMeta := m }) := by
  obtain ⟨-, ht, hlt⟩ := h.live hx hv
  obtain ⟨hc, hown⟩ := h.setMeta hx hv (htype ▸ ht) haddrs hfits fun n hn => h.vol.holes _ hlt ht n (hsize ▸ hn)
  refine wp_post (iupdate_spec hc hx (by simpa using hv)) ?_
  rintro _ s' ⟨hc', hic, hown', hq, hst⟩
  refine ⟨hc', fun j hj => ?_, ?_, hown'.trans hown, fun j => (hq.file j).trans ?_⟩
  · rw [hst j hj]
    by_cases hji : j = (s.icache x).inum
    · rw [if_pos (by simpa using hji)]
    · rw [if_neg (by simpa using hji), Ghost.setMeta_tbl, Function.update_of_ne hji]
      exact hcl j hj
  · have hk : Keeps G.refs s (s.setInode x { s.icache x with toMeta := m }) := Keeps.setInode _ rfl id
    exact hk.trans (Keeps.of_icache _ hic)
  · rw [Ghost.file, Ghost.file]
    exact contents_congr (fun k => congrFun hown _) fun _ _ _ _ => rfl

/-- **`addLink`** changes and stores one link count. -/
theorem addLink_spec (h : Core G s) (hcl : Clean G s) (hx : x ∈ G.refs) (hv : (s.icache x).valid = true) (k : Int) :
    wp (addLink x k)
      (fun _ s' => Core (G.setMeta (s.icache x).inum ((G.tbl (s.icache x).inum).addLink k)) s' ∧
        Clean (G.setMeta (s.icache x).inum ((G.tbl (s.icache x).inum).addLink k)) s' ∧ Keeps G.refs s s' ∧
        (G.setMeta (s.icache x).inum ((G.tbl (s.icache x).inum).addLink k)).own s' = G.own s ∧
        ∀ j, (G.setMeta (s.icache x).inum ((G.tbl (s.icache x).inum).addLink k)).file s' j = G.file s j)
      (fun _ _ => False) s := by
  obtain ⟨hm, -, hlt⟩ := h.live hx hv
  have hf := h.vol.fits _ hlt
  have hslot : { s.icache x with nlink := short ((s.icache x).nlink + k) } =
      { s.icache x with toMeta := (G.tbl (s.icache x).inum).addLink k } := by rw [← hm]; rfl
  unfold addLink
  rw [wp_bind, wp_modInode, hslot]
  exact storeMeta_spec h hcl hx hv rfl rfl rfl
    ⟨hf.type, hf.major, hf.minor, short_range _, hf.size, hf.addr, hf.past⟩

end Xv6
