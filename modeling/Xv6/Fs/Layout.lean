import Xv6.Lib.Bytes

/-!
# `Fs.Layout` — the on-disk format (`include/fs.h`, `include/stat.h`, `include/param.h`)

Sector 1 is the superblock, inodes start at sector 2 (`IPB` to a sector), the free bitmap follows at
`ninodes/IPB + 3`, then the data blocks. Every structure is read from and stored into the bytes of its
sector at the offsets the compiler gives the C `struct`; nothing is kept in decoded form on the disk.
-/

namespace Xv6

open Bytes

/-! ## Sizes -/

@[simp] abbrev ROOTINO : Nat := 1
@[simp] abbrev ROOTDEV : Nat := 1
@[simp] abbrev BSIZE : Nat := 512
@[simp] abbrev NDIRECT : Nat := 11
/-- `BSIZE / sizeof(uint)`. -/
@[simp] abbrev NINDIRECT : Nat := 128
/-- `NDIRECT + NINDIRECT`. -/
@[simp] abbrev MAXFILE : Nat := 139
/-- `BSIZE / sizeof(struct dinode)`; a `dinode` is 64 bytes. -/
@[simp] abbrev IPB : Nat := 8
/-- Bitmap bits per block. -/
@[simp] abbrev BPB : Nat := 4096
@[simp] abbrev DIRSIZ : Nat := 14
@[simp] abbrev NINODE : Nat := 50
@[simp] abbrev NDEV : Nat := 10
@[simp] abbrev CONSOLE : Int := 1

/-- Block containing inode `i`. -/
def IBLOCK (i : Nat) : Nat := i / IPB + 2

/-- Block containing the bit for block `b`. -/
def BBLOCK (b ninodes : Nat) : Nat := b / BPB + ninodes / IPB + 3

/-! ## File types (`T_DIR`, `T_FILE`, `T_DEV`); type 0 is a free inode -/

@[simp] abbrev T_DIR : Int := 1
@[simp] abbrev T_FILE : Int := 2
@[simp] abbrev T_DEV : Int := 3

/-! ## Superblock -/

/-- `struct superblock`; `nblocks` is never read by the kernel. -/
structure Superblock where
  size : Nat
  ninodes : Nat
  deriving DecidableEq

/-- The superblock stored in a sector: `size` at 0, `nblocks` at 4, `ninodes` at 8. -/
def getSuperblock (d : Arr) : Superblock := ⟨u32 d 0, u32 d 8⟩

/-- First block after the bitmap, as `mkfs` lays the image out: `ninodes/IPB + 3 + bitblocks`. -/
def Superblock.dataStart (sb : Superblock) : Nat := sb.ninodes / IPB + 3 + (sb.size / BPB + 1)

/-- Bitmap blocks `balloc` scans: iterations of `for (b = 0; b < sb.size; b += BPB)`. -/
def Superblock.bitblocks (sb : Superblock) : Nat := (sb.size + BPB - 1) / BPB

/-- Bits the scanned bitmap blocks hold; `balloc` never returns a block at or above it. -/
def Superblock.nbits (sb : Superblock) : Nat := sb.bitblocks * BPB

/-! ## Inodes -/

/-- The fields a `struct inode` shares with its `struct dinode` (`// copy of disk inode`). Entries of
    `addrs` from `NDIRECT+1` on do not exist. -/
structure Meta where
  type : Int
  major : Int
  minor : Int
  nlink : Int
  size : Nat
  addrs : Nat → Nat

/-- On-disk inode structure. -/
structure Dinode extends Meta where
  tags : Nat

/-- The shared fields of the dinode stored at byte `o` of a sector. -/
def getMeta (d : Arr) (o : Nat) : Meta where
  type := i16 d o
  major := i16 d (o + 2)
  minor := i16 d (o + 4)
  nlink := i16 d (o + 6)
  size := u32 d (o + 8)
  addrs k := if k ≤ NDIRECT then u32 d (o + 12 + 4 * k) else 0

/-- The dinode stored at byte `o` of a sector. -/
def getDinode (d : Arr) (o : Nat) : Dinode := { getMeta d o with tags := u32 d (o + 60) }

/-- The bytes of `uint a[]` in memory. -/
def wordBytes (a : Nat → Nat) : Arr := fun i => byteOf (a (i / 4)) (i % 4)

/-- Store every shared field; `tags`, in the last four bytes of the dinode, is not among them. -/
def putMeta (d : Arr) (o : Nat) (m : Meta) : Arr :=
  let d := putI16 d o m.type
  let d := putI16 d (o + 2) m.major
  let d := putI16 d (o + 4) m.minor
  let d := putI16 d (o + 6) m.nlink
  let d := put32 d (o + 8) m.size
  blit d (o + 12) 48 (wordBytes m.addrs)

/-- Byte offset of inode `i` inside its sector. -/
def inodeOff (i : Nat) : Nat := 64 * (i % IPB)

/-- The values of the shared fields survive a store and a load. -/
structure Meta.Fits (m : Meta) : Prop where
  type : -32768 ≤ m.type ∧ m.type < 32768
  major : -32768 ≤ m.major ∧ m.major < 32768
  minor : -32768 ≤ m.minor ∧ m.minor < 32768
  nlink : -32768 ≤ m.nlink ∧ m.nlink < 32768
  size : m.size < 4294967296
  addr : ∀ k ≤ 11, m.addrs k < 4294967296
  past : ∀ k, 11 < k → m.addrs k = 0

/-- What is read from a sector always fits. -/
theorem getMeta_fits (d : Arr) (o : Nat) : (getMeta d o).Fits where
  type := i16_range _ _
  major := i16_range _ _
  minor := i16_range _ _
  nlink := i16_range _ _
  size := u32_lt _ _
  addr k hk := by rw [show (getMeta d o).addrs k = _ from if_pos hk]; exact u32_lt _ _
  past k hk := if_neg (by simp only [NDIRECT]; omega)

/-- Storing an inode writes its own 60 bytes only. -/
theorem putMeta_out {d : Arr} {o i : Nat} {m : Meta} (h : i < o ∨ o + 60 ≤ i) :
    putMeta d o m i = d i := by
  simp only [putMeta, putI16, put16, put32]
  rw [blit_out (by omega), blit_out (by omega), blit_out (by omega), blit_out (by omega),
    blit_out (by omega), blit_out (by omega)]

/-- The shared fields depend on the first 60 bytes of the dinode. -/
theorem getMeta_congr {d d' : Arr} {o : Nat} (h : ∀ i, o ≤ i → i < o + 60 → d' i = d i) :
    getMeta d' o = getMeta d o := by
  simp only [getMeta, Meta.mk.injEq]
  refine ⟨i16_congr fun i h1 h2 => h i ?_ ?_, i16_congr fun i h1 h2 => h i ?_ ?_,
    i16_congr fun i h1 h2 => h i ?_ ?_, i16_congr fun i h1 h2 => h i ?_ ?_,
    u32_congr fun i h1 h2 => h i ?_ ?_, ?_⟩ <;> try omega
  funext k
  by_cases hk : k ≤ NDIRECT
  · rw [if_pos hk, if_pos hk]
    simp only [NDIRECT] at hk
    exact u32_congr fun i h1 h2 => h i (by omega) (by omega)
  · rw [if_neg hk, if_neg hk]

/-- The `k`-th word of an array copied to `o`. -/
theorem u32_wordBytes {d : Arr} {a : Nat → Nat} {o n k : Nat} (hk : 4 * k + 4 ≤ n) :
    u32 (blit d o n (wordBytes a)) (o + 4 * k) = a k % 4294967296 := by
  rw [← u32_put32 d (o + 4 * k) (a k)]
  refine u32_congr fun i h1 h2 => ?_
  rw [put32, blit_in (by omega) (by omega), blit_in h1 h2, wordBytes,
    show (i - o) / 4 = k by omega, show (i - o) % 4 = i - (o + 4 * k) by omega]

/-- **Store and load.** An inode written by `iupdate` is read back by `ilock` unchanged. -/
theorem getMeta_putMeta (d : Arr) (o : Nat) {m : Meta} (h : m.Fits) : getMeta (putMeta d o m) o = m := by
  obtain ⟨type, major, minor, nlink, size, addrs⟩ := m
  simp only [getMeta, putMeta, Meta.mk.injEq]
  refine ⟨?_, ?_, ?_, ?_, ?_, ?_⟩
  · refine Eq.trans (i16_congr (d := putI16 d o type) fun i h1 h2 => ?_)
      ((i16_putI16 d o type).trans (short_of_range h.type))
    simp only [putI16, put16, put32]
    rw [blit_out (by omega), blit_out (by omega), blit_out (by omega), blit_out (by omega),
      blit_out (by omega)]
  · refine Eq.trans (i16_congr (d := putI16 (putI16 d o type) (o + 2) major) fun i h1 h2 => ?_)
      ((i16_putI16 _ (o + 2) major).trans (short_of_range h.major))
    simp only [putI16, put16, put32]
    rw [blit_out (by omega), blit_out (by omega), blit_out (by omega), blit_out (by omega)]
  · refine Eq.trans
      (i16_congr (d := putI16 (putI16 (putI16 d o type) (o + 2) major) (o + 4) minor)
        fun i h1 h2 => ?_)
      ((i16_putI16 _ (o + 4) minor).trans (short_of_range h.minor))
    simp only [putI16, put16, put32]
    rw [blit_out (by omega), blit_out (by omega), blit_out (by omega)]
  · refine Eq.trans
      (i16_congr
        (d := putI16 (putI16 (putI16 (putI16 d o type) (o + 2) major) (o + 4) minor) (o + 6) nlink)
        fun i h1 h2 => ?_)
      ((i16_putI16 _ (o + 6) nlink).trans (short_of_range h.nlink))
    simp only [put32]
    rw [blit_out (by omega), blit_out (by omega)]
  · rw [u32_congr fun i h1 h2 => blit_out (by omega), u32_put32]
    exact Nat.mod_eq_of_lt h.size
  · funext k
    by_cases hk : k ≤ NDIRECT
    · rw [if_pos hk]
      simp only [NDIRECT] at hk
      rw [u32_wordBytes (by omega)]
      exact Nat.mod_eq_of_lt (h.addr k hk)
    · rw [if_neg hk]
      simp only [NDIRECT] at hk
      exact (h.past k (by omega)).symm

/-- Inodes with the same fields have the same bytes. -/
theorem getMeta_inj {a b : Arr} {o : Nat} (h : getMeta a o = getMeta b o) : ∀ i, o ≤ i → i < o + 60 → a i = b i := by
  simp only [getMeta, Meta.mk.injEq] at h
  obtain ⟨htype, hmajor, hminor, hnlink, hsize, haddrs⟩ := h
  intro i hlo hhi
  by_cases h1 : i < o + 2
  · exact i16_inj htype i hlo h1
  by_cases h2 : i < o + 4
  · exact i16_inj hmajor i (by omega) (by omega)
  by_cases h3 : i < o + 6
  · exact i16_inj hminor i (by omega) (by omega)
  by_cases h4 : i < o + 8
  · exact i16_inj hnlink i (by omega) (by omega)
  by_cases h5 : i < o + 12
  · exact u32_inj hsize i (by omega) (by omega)
  -- the other bytes are those of the pointers
  have hk := congrFun haddrs ((i - (o + 12)) / 4)
  have hle : (i - (o + 12)) / 4 ≤ NDIRECT := by simp only [NDIRECT]; omega
  rw [if_pos hle, if_pos hle] at hk
  exact u32_inj hk i (by omega) (by omega)

/-- Storing an inode and then what was there before. -/
theorem putMeta_restore (a : Arr) (o : Nat) (m : Meta) : putMeta (putMeta a o m) o (getMeta a o) = a := by
  funext i
  by_cases hi : o ≤ i ∧ i < o + 60
  · exact getMeta_inj (getMeta_putMeta _ o (getMeta_fits a o)) i hi.1 hi.2
  · rw [putMeta_out (by omega), putMeta_out (by omega)]

end Xv6
