import Mathlib.Logic.Function.Basic
import Mathlib.Data.Nat.Bitwise

/-!
# `Lib.Bytes` — byte arrays, little-endian fields and bits

A byte array is a total function from indices to bytes, so a buffer, a disk sector and a whole memory
are the same kind of thing; bounds are facts about indices, never part of the type.

## Contents
- **Range operations.** `fill` (`memset`) and `blit` (`memmove`), with read-over-write lemmas.
- **Little-endian fields.** `u16`/`u32` read a field, `put16`/`put32` store one. A field is determined by
  its bytes (`u16_congr`/`u32_congr`), so framing a field is framing its byte range.
- **Unsigned 32-bit arithmetic.** `usub`, the difference of two counters that wrap around.
- **Signed 16-bit fields.** `i16` reads the same two bytes as a two's-complement `short`.
- **Bits.** `hasBit`/`setBit`/`clearBit` address one bit of the array seen as a bitmap.
-/

namespace Bytes

/-- An unbounded byte array. -/
abbrev Arr := Nat → UInt8

/-- `memset`: bytes `off .. off+n` become `c`. -/
def fill (d : Arr) (off n : Nat) (c : UInt8) : Arr :=
  fun i => if off ≤ i ∧ i < off + n then c else d i

/-- `memmove` out of an array that is not being written: bytes `off .. off+n` become `src 0 .. src n`. -/
def blit (d : Arr) (off n : Nat) (src : Arr) : Arr :=
  fun i => if off ≤ i ∧ i < off + n then src (i - off) else d i

theorem fill_in {d : Arr} {off n i : Nat} {c : UInt8} (h1 : off ≤ i) (h2 : i < off + n) :
    fill d off n c i = c := if_pos ⟨h1, h2⟩

theorem fill_out {d : Arr} {off n i : Nat} {c : UInt8} (h : i < off ∨ off + n ≤ i) :
    fill d off n c i = d i := if_neg (by omega)

theorem blit_in {d src : Arr} {off n i : Nat} (h1 : off ≤ i) (h2 : i < off + n) :
    blit d off n src i = src (i - off) := if_pos ⟨h1, h2⟩

theorem blit_out {d src : Arr} {off n i : Nat} (h : i < off ∨ off + n ≤ i) :
    blit d off n src i = d i := if_neg (by omega)

/-- Two copies next to each other are one copy. -/
theorem blit_append {d f g h : Arr} {off m n : Nat} (hf : ∀ k < m, f k = h k) (hg : ∀ k < n, g k = h (m + k)) :
    blit (blit d off m f) (off + m) n g = blit d off (m + n) h := by
  funext i
  by_cases h1 : off ≤ i ∧ i < off + (m + n)
  · rw [blit_in h1.1 h1.2]
    by_cases h2 : i < off + m
    · rw [blit_out (by omega), blit_in h1.1 h2]
      exact hf _ (by omega)
    · rw [blit_in (by omega) (by omega), hg _ (by omega)]
      congr 1; omega
  · rw [blit_out (by omega), blit_out (by omega), blit_out (by omega)]

/-! ## Little-endian fields -/

/-- The 16-bit field at `o`. -/
def u16 (d : Arr) (o : Nat) : Nat := (d o).toNat + 256 * (d (o + 1)).toNat

/-- The 32-bit field at `o`. -/
def u32 (d : Arr) (o : Nat) : Nat := u16 d o + 65536 * u16 d (o + 2)

/-- The `i`-th little-endian byte of `x`. -/
def byteOf (x i : Nat) : UInt8 := UInt8.ofNat (x / 256 ^ i)

/-- Store the low 16 bits of `x` at `o`. -/
def put16 (d : Arr) (o x : Nat) : Arr := blit d o 2 (byteOf x)

/-- Store the low 32 bits of `x` at `o`. -/
def put32 (d : Arr) (o x : Nat) : Arr := blit d o 4 (byteOf x)

theorem u16_lt (d : Arr) (o : Nat) : u16 d o < 65536 := by
  have h0 := (d o).toNat_lt
  have h1 := (d (o + 1)).toNat_lt
  simp only [u16]; omega

theorem u32_lt (d : Arr) (o : Nat) : u32 d o < 4294967296 := by
  have h0 := u16_lt d o
  have h1 := u16_lt d (o + 2)
  simp only [u32]; omega

theorem toNat_byteOf (x i : Nat) : (byteOf x i).toNat = x / 256 ^ i % 256 := by
  simp [byteOf]

theorem u16_congr {d d' : Arr} {o : Nat} (h : ∀ i, o ≤ i → i < o + 2 → d' i = d i) :
    u16 d' o = u16 d o := by
  simp only [u16]; rw [h o (by omega) (by omega), h (o + 1) (by omega) (by omega)]

theorem u32_congr {d d' : Arr} {o : Nat} (h : ∀ i, o ≤ i → i < o + 4 → d' i = d i) :
    u32 d' o = u32 d o := by
  simp only [u32]
  rw [u16_congr (o := o) (fun i h1 h2 => h i h1 (by omega)),
    u16_congr (o := o + 2) (fun i h1 h2 => h i (by omega) (by omega))]

theorem u16_put16 (d : Arr) (o x : Nat) : u16 (put16 d o x) o = x % 65536 := by
  simp only [u16, put16]
  rw [blit_in (by omega) (by omega), blit_in (by omega) (by omega), toNat_byteOf, toNat_byteOf]
  simp only [Nat.sub_self, show o + 1 - o = 1 by omega, Nat.pow_zero, Nat.pow_one]
  omega

theorem u32_put32 (d : Arr) (o x : Nat) : u32 (put32 d o x) o = x % 4294967296 := by
  simp only [u32, u16, put32]
  rw [blit_in (by omega) (by omega), blit_in (by omega) (by omega), blit_in (by omega) (by omega),
    blit_in (by omega) (by omega), toNat_byteOf, toNat_byteOf, toNat_byteOf, toNat_byteOf]
  simp only [Nat.sub_self, show o + 1 - o = 1 by omega, show o + 2 - o = 2 by omega,
    show o + 2 + 1 - o = 3 by omega, Nat.pow_zero, Nat.pow_one]
  omega

theorem u32_put32_out {d : Arr} {o o' x : Nat} (h : o' + 4 ≤ o ∨ o + 4 ≤ o') :
    u32 (put32 d o x) o' = u32 d o' :=
  u32_congr fun _ _ _ => blit_out (by omega)

/-- A field determines its bytes. -/
theorem u16_inj {a b : Arr} {o : Nat} (h : u16 a o = u16 b o) : ∀ i, o ≤ i → i < o + 2 → a i = b i := by
  have h0 := (a o).toNat_lt
  have h1 := (b o).toNat_lt
  simp only [u16] at h
  intro i hlo hhi
  apply UInt8.toNat_inj.mp
  have hcase : i = o ∨ i = o + 1 := by omega
  rcases hcase with rfl | rfl <;> omega

theorem u32_inj {a b : Arr} {o : Nat} (h : u32 a o = u32 b o) : ∀ i, o ≤ i → i < o + 4 → a i = b i := by
  have h0 := u16_lt a o
  have h1 := u16_lt b o
  simp only [u32] at h
  intro i hlo hhi
  by_cases hi : i < o + 2
  · exact u16_inj (by omega) i hlo hi
  · exact u16_inj (o := o + 2) (by omega) i (by omega) (by omega)

/-! ## Unsigned 32-bit arithmetic -/

/-- `a - b` on a `uint`. -/
def usub (a b : Nat) : Nat := (a + (4294967296 - b % 4294967296)) % 4294967296

theorem usub_of_le {a b : Nat} (hb : b ≤ a) (ha : a < 4294967296) : usub a b = a - b := by
  have hsum : a + (4294967296 - b) = (a - b) + 4294967296 := by omega
  rw [usub, Nat.mod_eq_of_lt (by omega : b < 4294967296), hsum, Nat.add_mod_right]
  exact Nat.mod_eq_of_lt (by omega)

/-- A counter that has advanced by `k`, wrapping around, is `k` ahead. -/
theorem usub_advance {r k : Nat} (hk : k < 4294967296) (hr : r < 4294967296) :
    usub ((r + k) % 4294967296) r = k := by
  rw [usub, Nat.mod_eq_of_lt hr]
  omega

/-- One step back from a counter that has advanced at least once. -/
theorem usub_one {r k : Nat} : usub ((r + (k + 1)) % 4294967296) 1 = (r + k) % 4294967296 := by
  rw [usub, show 4294967296 - 1 % 4294967296 = 4294967295 by decide]
  omega

theorem usub_succ {r : Nat} (h : r < 4294967296) : usub ((r + 1) % 4294967296) 1 = r := by
  have hone := usub_one (r := r) (k := 0)
  simpa only [Nat.zero_add, Nat.add_zero, Nat.mod_eq_of_lt h] using hone

/-! ## Signed 16-bit fields -/

/-- Wrap an integer to a two's-complement 16-bit value. -/
def short (x : Int) : Int := (x + 32768) % 65536 - 32768

/-- The unsigned 16-bit pattern of a `short`. -/
def ushort (x : Int) : Nat := (x % 65536).toNat

/-- The 16-bit field at `o`, read as a `short`. -/
def i16 (d : Arr) (o : Nat) : Int := short (u16 d o)

/-- Store a `short` at `o`. -/
def putI16 (d : Arr) (o : Nat) (x : Int) : Arr := put16 d o (ushort x)

theorem short_range (x : Int) : -32768 ≤ short x ∧ short x < 32768 := by
  simp only [short]; omega

theorem short_of_range {x : Int} (h : -32768 ≤ x ∧ x < 32768) : short x = x := by
  simp only [short]; omega

theorem i16_range (d : Arr) (o : Nat) : -32768 ≤ i16 d o ∧ i16 d o < 32768 := short_range _

theorem i16_congr {d d' : Arr} {o : Nat} (h : ∀ i, o ≤ i → i < o + 2 → d' i = d i) :
    i16 d' o = i16 d o := by
  simp only [i16, u16_congr h]

theorem i16_putI16 (d : Arr) (o : Nat) (x : Int) : i16 (putI16 d o x) o = short x := by
  simp only [i16, putI16, u16_put16, short, ushort]; omega

theorem i16_inj {a b : Arr} {o : Nat} (h : i16 a o = i16 b o) : ∀ i, o ≤ i → i < o + 2 → a i = b i := by
  have h0 := u16_lt a o
  have h1 := u16_lt b o
  refine u16_inj ?_
  simp only [i16, short] at h
  omega

/-! ## Bits -/

/-- The mask `1 << (k % 8)` of bit `k` inside its byte. -/
def bitMask (k : Nat) : UInt8 := 1 <<< UInt8.ofNat (k % 8)

/-- Bit `k` of the array seen as a bitmap: `(d[k/8] & m) != 0`. -/
def hasBit (d : Arr) (k : Nat) : Bool := d (k / 8) &&& bitMask k != 0

/-- `d[k/8] |= m`. -/
def setBit (d : Arr) (k : Nat) : Arr := Function.update d (k / 8) (d (k / 8) ||| bitMask k)

/-- `d[k/8] &= ~m`. -/
def clearBit (d : Arr) (k : Nat) : Arr := Function.update d (k / 8) (d (k / 8) &&& ~~~bitMask k)

theorem bitMask_toBitVec (k : Nat) : (bitMask k).toBitVec = 1#8 <<< (k % 8) := by
  have h : k % 8 < 8 := Nat.mod_lt _ (by decide)
  simp only [bitMask]
  generalize k % 8 = j at h
  match j, h with
  | 0, _ | 1, _ | 2, _ | 3, _ | 4, _ | 5, _ | 6, _ | 7, _ => rfl

theorem getLsbD_bitMask (k j : Nat) :
    (bitMask k).toBitVec.getLsbD (j % 8) = decide (k % 8 = j % 8) := by
  have hj : j % 8 < 8 := Nat.mod_lt _ (by decide)
  rw [bitMask_toBitVec, BitVec.getLsbD_shiftLeft, BitVec.getLsbD_one, Bool.eq_iff_iff]
  simp only [Bool.and_eq_true, Bool.not_eq_true', decide_eq_true_eq, decide_eq_false_iff_not]
  omega

/-- Testing a byte against a mask reads that bit. -/
theorem and_bitMask (x : UInt8) (k : Nat) :
    (x &&& bitMask k != 0) = x.toBitVec.getLsbD (k % 8) := by
  rw [Bool.eq_iff_iff, bne_iff_ne, ne_eq, ← UInt8.toBitVec_inj, UInt8.toBitVec_and]
  constructor
  · intro h
    by_contra hx
    apply h
    apply BitVec.eq_of_getLsbD_eq
    intro i hi
    have hi8 : i % 8 = i := Nat.mod_eq_of_lt hi
    rw [BitVec.getLsbD_and, ← hi8, getLsbD_bitMask]
    by_cases he : k % 8 = i % 8
    · rw [← he, eq_false_of_ne_true hx]; simp
    · simp [he]
  · intro h h0
    have h1 := congrArg (fun v => v.getLsbD (k % 8)) h0
    simp only [BitVec.getLsbD_and, h, getLsbD_bitMask] at h1
    simp at h1

/-- Two bit numbers name the same bit when they agree on the byte and inside it. -/
theorem bit_index_eq {k j : Nat} (hb : j / 8 = k / 8) : k % 8 = j % 8 ↔ k = j := by omega

theorem hasBit_setBit (d : Arr) (k j : Nat) :
    hasBit (setBit d k) j = (decide (k = j) || hasBit d j) := by
  simp only [hasBit, and_bitMask, setBit]
  by_cases hb : j / 8 = k / 8
  · rw [hb, Function.update_self, UInt8.toBitVec_or, BitVec.getLsbD_or, getLsbD_bitMask,
      Bool.or_comm]
    simp only [bit_index_eq hb]
  · rw [Function.update_of_ne hb, decide_eq_false (by rintro rfl; exact hb rfl), Bool.false_or]

theorem hasBit_clearBit (d : Arr) (k j : Nat) :
    hasBit (clearBit d k) j = (!decide (k = j) && hasBit d j) := by
  have hj : j % 8 < 8 := Nat.mod_lt _ (by decide)
  simp only [hasBit, and_bitMask, clearBit]
  by_cases hb : j / 8 = k / 8
  · rw [hb, Function.update_self, UInt8.toBitVec_and, BitVec.getLsbD_and, UInt8.toBitVec_not,
      BitVec.getLsbD_not, getLsbD_bitMask, Bool.and_comm]
    simp only [bit_index_eq hb, hj, decide_true, Bool.true_and]
  · rw [Function.update_of_ne hb, decide_eq_false (by rintro rfl; exact hb rfl)]; simp

end Bytes
