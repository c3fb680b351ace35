/-
`hazptrs_snapshot`: what is done with the values read from the slots.

The values are sorted with their mark bits on and masked afterwards. The
mask keeps the order, so the binary search finds what was in a slot, marked
or not.
-/
import Mathlib.Data.List.Sort
import SplitOrder.Lib.BinarySearch
import SplitOrder.Hazard.Pool

namespace SplitOrder

namespace Hazard

/-- `*p &= mark_bits_maskoff` -/
def unmark (v : Nat) : Nat := v - v % 2

/-- The snapshot of the non-null values `buf`: `std::sort`, then the mask. -/
def snapshotOf (buf : List Ptr) : List Ptr := (buf.insertionSort (· ≤ ·)).map unmark

/-- `hazptrs_snapshot::search` -/
def search (snap : List Ptr) (p : Ptr) : Bool := binarySearch snap p

theorem unmark_mono {v w : Nat} (h : v ≤ w) : unmark v ≤ unmark w := by
  simp only [unmark]
  omega

/-- A slot that holds `p`, marked or not. -/
theorem unmark_eq_iff {p v : Nat} (hp : p % 2 = 0) : unmark v = p ↔ v = p ∨ v = p + 1 := by
  simp only [unmark]
  omega

theorem snapshotOf_sorted (buf : List Ptr) : (snapshotOf buf).Pairwise (· ≤ ·) := by
  refine List.Pairwise.map _ (fun _ _ => unmark_mono) ?_
  exact List.pairwise_insertionSort (· ≤ ·) buf

/-- **The search finds what was read.** -/
theorem search_snapshotOf {buf : List Ptr} {p : Ptr} : search (snapshotOf buf) p = true ↔ ∃ v ∈ buf, unmark v = p := by
  rw [search, binarySearch_iff (snapshotOf_sorted buf), snapshotOf, List.mem_map]
  simp only [List.mem_insertionSort]

theorem snapshotOf_length (buf : List Ptr) : (snapshotOf buf).length = buf.length := by
  simp [snapshotOf]

theorem mem_of_search {buf : List Ptr} {p : Ptr} (h : search (snapshotOf buf) p = true) : p ∈ snapshotOf buf :=
  (binarySearch_iff (snapshotOf_sorted buf)).mp h

end Hazard

end SplitOrder
