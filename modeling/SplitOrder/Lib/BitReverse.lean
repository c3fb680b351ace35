/-
Reversed words: how the bit reversal of a word compares with, and divides
like, the word itself. A word below `2 ^ k` reverses to a multiple of
`2 ^ (w - k)` and back, and dropping high bits of a word can only lower its
reversal.
-/
import Mathlib.Data.Nat.Bitwise
import Mathlib.Algebra.Order.Ring.Nat

namespace SplitOrder

variable {w : Nat} {x y : BitVec w}

theorem two_pow_dvd_iff {n j : Nat} : 2 ^ j ∣ n ↔ ∀ i < j, n.testBit i = false := by
  rw [Nat.dvd_iff_mod_eq_zero]
  constructor
  · intro h i hi
    have := Nat.testBit_mod_two_pow n j i
    simpa [h, hi] using this.symm
  · intro h
    refine Nat.zero_of_testBit_eq_false fun i => ?_
    rw [Nat.testBit_mod_two_pow]
    by_cases hi : i < j <;> simp [hi, h]

theorem reverse_getLsbD {i : Nat} (hi : i < w) : x.reverse.getLsbD i = x.getLsbD (w - 1 - i) := by
  rw [BitVec.getLsbD_reverse, BitVec.getMsbD_eq_getLsbD]
  simp [hi]

theorem reverse_inj : x.reverse = y.reverse ↔ x = y :=
  ⟨fun h => by rw [← x.reverse_reverse_eq, h, y.reverse_reverse_eq], congrArg _⟩

/-- The reversals of the words below `2 ^ k` are the multiples of `2 ^ (w - k)`. -/
theorem two_pow_dvd_reverse_iff {k : Nat} (hk : k ≤ w) : 2 ^ (w - k) ∣ x.reverse.toNat ↔ x.toNat < 2 ^ k := by
  rw [two_pow_dvd_iff]
  constructor
  · intro h
    refine Nat.lt_pow_two_of_testBit _ fun i hi => ?_
    rw [BitVec.testBit_toNat]
    by_cases hiw : i < w
    · have := h (w - 1 - i) (by omega)
      rw [BitVec.testBit_toNat, reverse_getLsbD (by omega)] at this
      rwa [show w - 1 - (w - 1 - i) = i by omega] at this
    · exact BitVec.getLsbD_of_ge x i (by omega)
  · intro h i hi
    rw [BitVec.testBit_toNat, reverse_getLsbD (by omega), ← BitVec.testBit_toNat]
    exact Nat.testBit_lt_two_pow (Nat.lt_of_lt_of_le h (Nat.pow_le_pow_right (by omega) (by omega)))

theorem reverse_lt_two_pow_iff {k : Nat} (hk : k ≤ w) : x.reverse.toNat < 2 ^ k ↔ 2 ^ (w - k) ∣ x.toNat := by
  rw [← two_pow_dvd_reverse_iff hk, BitVec.reverse_reverse_eq]

/-- The low `k` bits of a word reverse to no more than the word does. -/
theorem reverse_le_of_mod {k : Nat} (h : y.toNat = x.toNat % 2 ^ k) : y.reverse.toNat ≤ x.reverse.toNat := by
  refine Nat.le_of_testBit fun i hi => ?_
  rw [BitVec.testBit_toNat] at hi ⊢
  by_cases hiw : i < w
  · rw [reverse_getLsbD hiw, ← BitVec.testBit_toNat] at hi ⊢
    rw [h, Nat.testBit_mod_two_pow] at hi
    simp only [Bool.and_eq_true] at hi
    exact hi.2
  · rw [BitVec.getLsbD_of_ge _ _ (by omega)] at hi
    cases hi

/-- Dropping high bits of a word leaves the high bits of its reversal. -/
theorem reverse_div_of_mod {k : Nat} (hk : k ≤ w) (h : y.toNat = x.toNat % 2 ^ k) :
    x.reverse.toNat / 2 ^ (w - k) = y.reverse.toNat / 2 ^ (w - k) := by
  refine Nat.eq_of_testBit_eq fun i => ?_
  rw [Nat.testBit_div_two_pow, Nat.testBit_div_two_pow, BitVec.testBit_toNat, BitVec.testBit_toNat]
  by_cases hi : i + (w - k) < w
  · rw [reverse_getLsbD hi, reverse_getLsbD hi, ← BitVec.testBit_toNat, ← BitVec.testBit_toNat, h,
      Nat.testBit_mod_two_pow]
    have hlt : w - 1 - (i + (w - k)) < k := by omega
    simp [hlt]
  · rw [BitVec.getLsbD_of_ge _ _ (by omega), BitVec.getLsbD_of_ge _ _ (by omega)]

theorem reverse_two_pow {i : Nat} (hi : i < w) (hx : x.toNat = 2 ^ i) : x.reverse.toNat = 2 ^ (w - 1 - i) := by
  refine Nat.eq_of_testBit_eq fun j => ?_
  rw [BitVec.testBit_toNat, Nat.testBit_two_pow]
  by_cases hj : j < w
  · rw [reverse_getLsbD hj, ← BitVec.testBit_toNat, hx, Nat.testBit_two_pow]
    exact decide_eq_decide.mpr (by omega)
  · rw [BitVec.getLsbD_of_ge _ _ (by omega)]
    symm
    simp only [decide_eq_false_iff_not]
    omega

end SplitOrder
