import Xv6.Fs.State

/-!
# `Fs.Block` — the block allocator (`kernel/fs.c`, "Blocks")

`balloc` hands out the lowest clear bit of the bitmap without clearing the block; `bfree` zeroes the
block before it clears the bit.
-/

namespace Xv6

open Bytes Hoare

/-- Read the super block. -/
def readsb (dev : Nat) : FsM Superblock := do
  let bp ← bread dev 1
  return getSuperblock bp

/-- Zero a block. -/
def bzero (dev bno : Nat) : FsM Unit := do
  let bp ← bread dev bno
  bwrite dev bno (fill bp 0 BSIZE 0)

/-- The inner scan of `balloc`: the first bit of a bitmap block that is clear. -/
@[irreducible] def freeBit (bp : Arr) : Option Nat := (List.range BPB).find? fun bi => !hasBit bp bi

/-- The outer loop of `balloc`, with the number of bitmap blocks still to scan. -/
def ballocFrom (dev : Nat) (sb : Superblock) : Nat → Nat → FsM Nat
  | 0, _ => panic "balloc: out of blocks"
  | k + 1, b => do
    let bp ← bread dev (BBLOCK b sb.ninodes)
    match freeBit bp with
    | some bi =>
      bwrite dev (BBLOCK b sb.ninodes) (setBit bp bi)
      return b + bi
    | none => ballocFrom dev sb k (b + BPB)

/-- Allocate a disk block. -/
def balloc (dev : Nat) : FsM Nat := do
  let sb ← readsb dev
  ballocFrom dev sb sb.bitblocks 0

/-- Free a disk block. -/
def bfree (dev b : Nat) : FsM Unit := do
  bzero dev b
  let sb ← readsb dev
  let bp ← bread dev (BBLOCK b sb.ninodes)
  if hasBit bp (b % BPB) then
    bwrite dev (BBLOCK b sb.ninodes) (clearBit bp (b % BPB))
  else
    panic "freeing free block"

end Xv6
