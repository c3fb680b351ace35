/-
`hazptr_pool`: an array of hazard pointers, handed out in blocks.

A pool is the address of its array, its block size and the bitmap of its
reserved blocks; the slots themselves are a map from addresses, shared by
all pools. An address counts slots, so `ptr + x` is the source's `ptr + x`.
-/
import SplitOrder.Lib.Bitmap

namespace SplitOrder

namespace Hazard

/-- `generic_hazptr_t`; 0 is `nullptr`. -/
abbrev Ptr := Nat

/-- What the hazard pointers hold, by address. -/
abbrev Slots := Nat → Ptr

structure Pool where
  /-- `&haz_ptrs[0]` -/
  hazPtrs : Nat
  blkSize : Nat
  bitmap : BitVec 32 := 0#32
  deriving DecidableEq

namespace Pool

/-- `HAZPTR_POOL_BITMAP_FULL` -/
abbrev full : BitVec 32 := BitVec.allOnes 32

/-- `hp_count`: the pool has `HAZPTR_POOL_BLOCKS` = 32 blocks. -/
def hpCount (p : Pool) : Nat := p.blkSize * 32

/-- `&haz_ptrs[ix * blk_size]` -/
def block (p : Pool) (ix : Nat) : Nat := p.hazPtrs + ix * p.blkSize

/-- The address test of `release_impl`. -/
def contains (p : Pool) (ptr : Nat) : Bool := !(ptr < p.hazPtrs || ptr ≥ p.hazPtrs + p.hpCount)

/-- The last loop of `release_impl`: the block that starts at `ptr`. -/
def findBlock (p : Pool) (ptr : Nat) : Option Nat := (List.range 32).find? fun ix => ptr == p.block ix

/-- What one turn of the loop of `reserve_impl` does. -/
inductive Turn
  | reserved (ix : Nat)
  | again (expected : BitVec 32)

/-- One turn: look for a clear bit in `expected`, and set it by `CAS`. -/
def turn (p : Pool) (expected : BitVec 32) : Pool × Turn :=
  let (mask, ix) := Bitmap.firstClear expected 32 (Bitmap.bit 32 0) 0
  if ix < 32 then
    let desired := expected ||| mask
    if p.bitmap = expected then ({ p with bitmap := desired }, .reserved ix) else (p, .again p.bitmap)
  else (p, .again expected)

variable {p : Pool} {ix jx i j ptr : Nat} {e : BitVec 32}

theorem turn_ok (he : p.bitmap = e) (hf : e ≠ full) :
    ∃ ix < 32, p.turn e = ({ p with bitmap := e ||| Bitmap.bit 32 ix }, .reserved ix) ∧ e.getLsbD ix = false := by
  obtain ⟨ix, hix, hfirst, hbit⟩ := Bitmap.firstClear_of_ne hf
  refine ⟨ix, hix, ?_, hbit⟩
  simp only [turn, hfirst, hix, he, if_true]

theorem turn_fail (he : p.bitmap ≠ e) (hf : e ≠ full) : p.turn e = (p, .again p.bitmap) := by
  obtain ⟨ix, hix, hfirst, hbit⟩ := Bitmap.firstClear_of_ne hf
  simp only [turn, hfirst, hix, he, if_true, if_false]

/-! ## Blocks -/

/-- Blocks do not overlap. -/
theorem block_inj (hi : i < p.blkSize) (hj : j < p.blkSize) (h : p.block ix + i = p.block jx + j) : ix = jx := by
  have h' : ix * p.blkSize + i = jx * p.blkSize + j := by
    simp only [block] at h
    omega
  have hpos : 0 < p.blkSize := Nat.zero_lt_of_lt hi
  have hdiv := congrArg (· / p.blkSize) h'
  simpa [Nat.mul_add_div hpos, Nat.mul_comm _ p.blkSize, Nat.div_eq_of_lt hi, Nat.div_eq_of_lt hj] using hdiv

theorem block_eq_iff (hb : 0 < p.blkSize) : p.block ix = p.block jx ↔ ix = jx :=
  ⟨fun h => block_inj (i := 0) (j := 0) hb hb h, fun h => h ▸ rfl⟩

theorem block_add_lt (hix : ix < 32) (hi : i < p.blkSize) : p.block ix + i < p.hazPtrs + p.hpCount := by
  have h : (ix + 1) * p.blkSize ≤ 32 * p.blkSize := Nat.mul_le_mul_right _ hix
  rw [Nat.add_mul] at h
  simp only [block, hpCount]
  omega

theorem contains_iff : p.contains ptr = true ↔ p.hazPtrs ≤ ptr ∧ ptr < p.hazPtrs + p.hpCount := by
  simp only [contains, Bool.not_eq_true', Bool.or_eq_false_iff, decide_eq_false_iff_not]
  omega

/-- The address test accepts the blocks of the pool, unless they are empty. -/
theorem contains_block (hix : ix < 32) : p.contains (p.block ix) = true ↔ 0 < p.blkSize := by
  rw [contains_iff]
  constructor
  · intro h
    by_contra hb
    have hz : p.blkSize = 0 := by omega
    simp only [block, hpCount, hz] at h
    omega
  · intro hb
    exact ⟨Nat.le_add_right _ _, block_add_lt (i := 0) hix hb⟩

theorem findBlock_block (hix : ix < 32) (hb : 0 < p.blkSize) : p.findBlock (p.block ix) = some ix := by
  rw [findBlock, List.find?_range_eq_some]
  refine ⟨by simp, by simp [hix], fun j hj => ?_⟩
  simp only [Bool.not_eq_true', beq_eq_false_iff_ne, ne_eq, block_eq_iff hb]
  omega

end Pool

end Hazard

end SplitOrder
