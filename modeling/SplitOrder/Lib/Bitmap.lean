/-
A machine word as the set of its bits.

`firstClear` is the scan for a clear bit with a shifting mask. The rest says
what `|`, `^` and `&` with a one-bit mask do to the set.
-/
import Mathlib.Data.BitVec

namespace SplitOrder

namespace Bitmap

variable {w : Nat} {e : BitVec w} {i j : Nat}

/-- The word with bit `i` alone. -/
def bit (w i : Nat) : BitVec w := 1#w <<< i

@[simp] theorem getLsbD_bit : (bit w i).getLsbD j = (decide (j < w) && decide (i = j)) := by
  simp only [bit, BitVec.getLsbD_shiftLeft, BitVec.getLsbD_one]
  by_cases h : i = j
  · subst h
    by_cases hw : i < w
    · simp [hw, Nat.zero_lt_of_lt hw]
    · simp [hw]
  · by_cases hlt : j < i
    · simp [hlt, h]
    · have : j - i ≠ 0 := by omega
      simp [h, this]

@[simp] theorem getElem_bit (hj : j < w) : (bit w i)[j] = decide (i = j) := by
  rw [← BitVec.getLsbD_eq_getElem, getLsbD_bit]
  simp [hj]

theorem bit_succ : bit w i <<< 1 = bit w (i + 1) := by
  rw [bit, bit, BitVec.shiftLeft_add]

theorem and_bit_eq_zero : e &&& bit w i = 0#w ↔ e.getLsbD i = false := by
  constructor
  · intro h
    have hi := congrArg (fun v => v.getLsbD i) h
    by_cases hw : i < w
    · simpa [hw] using hi
    · exact BitVec.getLsbD_of_ge _ _ (Nat.le_of_not_lt hw)
  · intro h
    refine BitVec.eq_of_getLsbD_eq fun j hj => ?_
    by_cases hij : i = j
    · subst hij
      simp [h]
    · simp [hij]

theorem bit_eq_and (hw : i < w) : bit w i = e &&& bit w i ↔ e.getLsbD i = true := by
  constructor
  · intro h
    have hi := congrArg (fun v => v.getLsbD i) h
    simpa [hw] using hi.symm
  · intro h
    refine BitVec.eq_of_getLsbD_eq fun j hj => ?_
    by_cases hij : i = j
    · subst hij
      simp [h]
    · simp [hij]

theorem getLsbD_or_bit (hw : i < w) : (e ||| bit w i).getLsbD j = true ↔ e.getLsbD j = true ∨ i = j := by
  by_cases hij : i = j
  · subst hij
    simp [hw]
  · simp [hij]

theorem getLsbD_xor_bit (h : e.getLsbD i = true) :
    (e ^^^ bit w i).getLsbD j = true ↔ e.getLsbD j = true ∧ i ≠ j := by
  by_cases hij : i = j
  · subst hij
    have hw : i < w := BitVec.lt_of_getLsbD h
    simp [h, hw]
  · simp [hij]

/-- A word is full when every bit is set. -/
theorem eq_allOnes_iff : e = BitVec.allOnes w ↔ ∀ i < w, e.getLsbD i = true := by
  constructor
  · rintro rfl i hi
    simp [hi]
  · intro h
    refine BitVec.eq_of_getLsbD_eq fun i hi => ?_
    simp [h i hi, hi]

/-- The scan for a clear bit from the mask `mask` of bit `i` on, with `n` bits to go. -/
def firstClear (e : BitVec w) : Nat → BitVec w → Nat → BitVec w × Nat
  | 0, mask, i => (mask, i)
  | n + 1, mask, i => if e &&& mask ≠ 0#w then firstClear e n (mask <<< 1) (i + 1) else (mask, i)

theorem firstClear_spec (e : BitVec w) : ∀ n i, i + n = w → (∃ j, i ≤ j ∧ j < w ∧ e.getLsbD j = false) →
    ∃ k < w, firstClear e n (bit w i) i = (bit w k, k) ∧ e.getLsbD k = false := by
  intro n
  induction n with
  | zero =>
    intro i hi hj
    obtain ⟨j, h1, h2, -⟩ := hj
    omega
  | succ n ih =>
    intro i hi hj
    unfold firstClear
    by_cases hb : e &&& bit w i = 0#w
    · rw [if_neg (not_not.mpr hb)]
      exact ⟨i, by omega, rfl, and_bit_eq_zero.mp hb⟩
    · rw [if_pos hb, bit_succ]
      refine ih (i + 1) (by omega) ?_
      obtain ⟨j, h1, h2, h3⟩ := hj
      refine ⟨j, ?_, h2, h3⟩
      rcases Nat.eq_or_lt_of_le h1 with rfl | hlt
      · exact absurd (and_bit_eq_zero.mpr h3) hb
      · exact hlt

/-- A word that is not full has a clear bit, and the scan finds it. -/
theorem firstClear_of_ne (h : e ≠ BitVec.allOnes w) :
    ∃ k < w, firstClear e w (bit w 0) 0 = (bit w k, k) ∧ e.getLsbD k = false := by
  refine firstClear_spec e w 0 (by omega) ?_
  by_contra hn
  refine h (eq_allOnes_iff.mpr fun i hi => ?_)
  by_contra hb
  exact hn ⟨i, Nat.zero_le i, hi, by simpa using hb⟩

end Bitmap

end SplitOrder
