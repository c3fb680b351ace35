/-
Lists cut in two: the elements before the first that fails a predicate, and
the rest.
-/
import Mathlib.Data.List.TakeWhile

namespace SplitOrder

variable {α : Type*} {q q' : α → Bool} {l w R : List α}

theorem dropWhile_congr (h : ∀ x ∈ l, q x = q' x) : l.dropWhile q = l.dropWhile q' := by
  induction l with
  | nil => rfl
  | cons x l ih =>
    simp only [List.dropWhile_cons, h x (by simp), ih fun y hy => h y (by simp [hy])]

theorem takeWhile_congr (h : ∀ x ∈ l, q x = q' x) : l.takeWhile q = l.takeWhile q' := by
  induction l with
  | nil => rfl
  | cons x l ih =>
    simp only [List.takeWhile_cons, h x (by simp), ih fun y hy => h y (by simp [hy])]

/-- A list whose first part satisfies the predicate, and the head of whose rest does not. -/
theorem takeWhile_append_stop (hw : ∀ x ∈ w, q x = true) (hR : ∀ x, R.head? = some x → q x = false) :
    (w ++ R).takeWhile q = w := by
  rw [List.takeWhile_append_of_pos hw]
  cases R with
  | nil => simp
  | cons x R => simp [hR x rfl]

theorem dropWhile_append_stop (hw : ∀ x ∈ w, q x = true) (hR : ∀ x, R.head? = some x → q x = false) :
    (w ++ R).dropWhile q = R := by
  rw [List.dropWhile_append_of_pos hw]
  cases R with
  | nil => rfl
  | cons x R => simp [hR x rfl]

/-- Where the predicate, once it fails, fails for good, it fails on a list whose head fails it. -/
theorem all_false_of_head (h : R.Pairwise fun x y => q y = true → q x = true)
    (hR : ∀ x, R.head? = some x → q x = false) : ∀ x ∈ R, q x = false := by
  cases R with
  | nil => simp
  | cons y R =>
    have hy : q y = false := hR y rfl
    intro x hx
    rcases List.mem_cons.mp hx with rfl | hx
    · exact hy
    · cases hqx : q x with
      | false => rfl
      | true =>
        rw [(List.pairwise_cons.mp h).1 x hx hqx] at hy
        cases hy

/-- So it fails on all of the rest. -/
theorem dropWhile_all (h : l.Pairwise fun x y => q y = true → q x = true) : ∀ x ∈ l.dropWhile q, q x = false := by
  refine all_false_of_head (h.sublist (List.dropWhile_sublist q)) fun x hx => ?_
  have hhead := List.head?_dropWhile_not q l
  rw [hx] at hhead
  simpa using hhead

end SplitOrder
