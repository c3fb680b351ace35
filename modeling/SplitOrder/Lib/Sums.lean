/-
Sums over the threads of a system when one thread moves.
-/
import Mathlib.Algebra.BigOperators.Fin

namespace SplitOrder

/-- One term of a sum changes. -/
theorem sum_change {n : Nat} {M : Type*} [AddCommMonoid M] {f g : Fin n → M} (t : Fin n) (h : ∀ u, u ≠ t → g u = f u) :
    ∑ u, g u + f t = ∑ u, f u + g t := by
  have hg := Finset.add_sum_erase Finset.univ g (Finset.mem_univ t)
  have hf := Finset.add_sum_erase Finset.univ f (Finset.mem_univ t)
  have hrest : ∑ u ∈ Finset.univ.erase t, g u = ∑ u ∈ Finset.univ.erase t, f u :=
    Finset.sum_congr rfl fun u hu => h u (Finset.ne_of_mem_erase hu)
  rw [← hg, ← hf, hrest, add_comm (g t), add_comm (f t), add_assoc, add_assoc, add_comm (f t)]

end SplitOrder
