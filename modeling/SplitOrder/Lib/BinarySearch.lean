/-
`std::lower_bound` and `std::binary_search` on a sorted list.
-/
import Mathlib.Order.Lattice
import Mathlib.Data.List.Basic

namespace SplitOrder

section

variable {α : Type*} [LinearOrder α]

/-- `lower_bound` in the `len` elements from `first` on; one turn halves `len`, so `len` turns are enough. -/
def lowerBound (xs : List α) (v : α) : Nat → Nat → Nat → Nat
  | 0, first, _ => first
  | fuel + 1, first, len =>
    if len = 0 then first
    else
      let half := len / 2
      match xs[first + half]? with
      | none => first
      | some x =>
        if x < v then lowerBound xs v fuel (first + half + 1) (len - half - 1) else lowerBound xs v fuel first half

def binarySearch (xs : List α) (v : α) : Bool :=
  match xs[lowerBound xs v xs.length 0 xs.length]? with
  | none => false
  | some x => !decide (v < x)

variable {xs : List α} {v : α}

/-- Everything before the result is below `v` and nothing from it on is. -/
theorem lowerBound_spec (hs : xs.Pairwise (· ≤ ·)) : ∀ fuel first len, len ≤ fuel → first + len ≤ xs.length →
    (∀ (i : Nat) x, i < first → xs[i]? = some x → x < v) → (∀ (i : Nat) x, first + len ≤ i → xs[i]? = some x → v ≤ x) →
    (∀ (i : Nat) x, i < lowerBound xs v fuel first len → xs[i]? = some x → x < v) ∧
      ∀ (i : Nat) x, lowerBound xs v fuel first len ≤ i → xs[i]? = some x → v ≤ x := by
  have hmono : ∀ (i j : Nat) (x y : α), i ≤ j → xs[i]? = some x → xs[j]? = some y → x ≤ y := by
    intro i j x y hij hx hy
    obtain ⟨hi, rfl⟩ := List.getElem?_eq_some_iff.mp hx
    obtain ⟨hj, rfl⟩ := List.getElem?_eq_some_iff.mp hy
    rcases Nat.lt_or_eq_of_le hij with h | rfl
    · exact List.pairwise_iff_getElem.mp hs i j hi hj h
    · exact le_refl _
  intro fuel
  induction fuel with
  | zero =>
    intro first len hf _ hlo hhi
    obtain rfl : len = 0 := by omega
    exact ⟨hlo, hhi⟩
  | succ fuel ih =>
    intro first len hf hlen hlo hhi
    unfold lowerBound
    by_cases hz : len = 0
    · rw [if_pos hz]
      subst hz
      exact ⟨hlo, hhi⟩
    · rw [if_neg hz]
      have hlt : first + len / 2 < xs.length := by omega
      simp only [List.getElem?_eq_getElem hlt]
      by_cases hx : xs[first + len / 2] < v
      · rw [if_pos hx]
        refine ih _ _ (by omega) (by omega) (fun i x hi hxi => ?_) fun i x hi hxi => hhi i x (by omega) hxi
        exact lt_of_le_of_lt (hmono i _ x _ (by omega) hxi (List.getElem?_eq_getElem hlt)) hx
      · rw [if_neg hx]
        refine ih _ _ (by omega) (by omega) hlo fun i x hi hxi => ?_
        exact le_trans (not_lt.mp hx) (hmono _ i _ x hi (List.getElem?_eq_getElem hlt) hxi)

/-- **`binary_search` on a sorted list is membership.** -/
theorem binarySearch_iff (hs : xs.Pairwise (· ≤ ·)) : binarySearch xs v = true ↔ v ∈ xs := by
  obtain ⟨hlo, hhi⟩ := lowerBound_spec (v := v) hs xs.length 0 xs.length (Nat.le_refl _) (by omega)
    (fun i x hi => by omega) fun i x hi hx => by
      obtain ⟨h, -⟩ := List.getElem?_eq_some_iff.mp hx
      omega
  unfold binarySearch
  constructor
  · intro h
    split at h
    · cases h
    · rename_i x hx
      have hle : x ≤ v := by simpa using h
      have hge := hhi _ x (Nat.le_refl _) hx
      rw [le_antisymm hge hle]
      exact List.mem_of_getElem? hx
  · intro h
    obtain ⟨i, hi⟩ := List.mem_iff_getElem?.mp h
    have hge : lowerBound xs v xs.length 0 xs.length ≤ i := by
      by_contra hlt
      exact lt_irrefl v (hlo i v (by omega) hi)
    obtain ⟨hilen, -⟩ := List.getElem?_eq_some_iff.mp hi
    have hlt : lowerBound xs v xs.length 0 xs.length < xs.length := by omega
    simp only [List.getElem?_eq_getElem hlt]
    -- the element found is not above one that equals `v`
    have hle : xs[lowerBound xs v xs.length 0 xs.length] ≤ v := by
      obtain ⟨hi', hv⟩ := List.getElem?_eq_some_iff.mp hi
      rcases Nat.lt_or_eq_of_le hge with h | h
      · have hp := List.pairwise_iff_getElem.mp hs _ i hlt hi' h
        rwa [hv] at hp
      · simp only [h, hv, le_refl]
    simpa using hle

end

end SplitOrder
