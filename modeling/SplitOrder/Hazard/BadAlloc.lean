/-
Allocations that throw `std::bad_alloc` within `delete_item` and `collect`.

Nothing catches the exception, so what the call has done so far stays done.
Every allocation of `delete_item` comes while the array is full and before
`del_index` is set back, and the one of `collect` after the delete list has
been taken off the domain.
-/
import SplitOrder.Hazard.ContextRuns

namespace SplitOrder

namespace Hazard

namespace Serial

variable {w w' : Serial} {p q : Ptr} {e : Stop} {h : Halt}

/-! ## What an exception leaves -/

theorem new_error (hn : w.new = .error (e, w')) : e = .badAlloc ∧ w' = w := by
  unfold new at hn
  split at hn
  · cases hn
  · cases hn
    exact ⟨rfl, rfl⟩
  · cases hn

theorem new_eq_ok (hn : w.new = .ok w') : ∃ allocs, w' = { w with allocs } := by
  unfold new at hn
  split at hn
  · cases hn
    exact ⟨_, rfl⟩
  · cases hn
  · cases hn
    exact ⟨_, rfl⟩

/-- The only thing that goes wrong in a snapshot is its allocation. -/
theorem snapshot_error (hs : w.snapshot = .error (e, w')) : e = .badAlloc ∧ w' = w := by
  rcases bind_eq_error.mp hs with hn | ⟨w₁, -, h₁⟩
  · exact new_error hn
  · rw [hazptrsSnapshot_eq List.length_replicate] at h₁
    cases h₁

theorem snapshot_eq_ok {snap : List Ptr} (hs : w.snapshot = .ok (snap, w')) : ∃ allocs, w' = { w with allocs } := by
  obtain ⟨w₁, hn, h₁⟩ := bind_eq_ok.mp hs
  rw [hazptrsSnapshot_eq List.length_replicate] at h₁
  obtain ⟨-, rfl⟩ := Prod.mk.inj (Except.ok.inj h₁)
  exact new_eq_ok hn

/-! ## `collect` -/

/-- **`collect` that throws** has taken the list off the domain. -/
theorem collect_error (hc : w.collect = .error (e, w')) :
    w.deleteList ≠ [] ∧ w' = { w with deleteList := [] } := by
  unfold collect at hc
  by_cases hne : w.deleteList = []
  · rw [if_pos hne] at hc
    cases hc
  · rw [if_neg hne] at hc
    refine ⟨hne, ?_⟩
    rcases bind_eq_error.mp hc with hs | ⟨r, -, h₁⟩
    · exact (snapshot_error hs).2
    · cases h₁

theorem collectIfRequired_error (hc : w.collectIfRequired = .error (e, w')) :
    w.deleteList ≠ [] ∧ w' = { w with deleteList := [], deleteCount := 0 } := by
  unfold collectIfRequired at hc
  split at hc
  · exact collect_error (w := { w with deleteCount := 0 }) hc
  · cases hc

/-- What was on the delete list still is, a later `collect` that finds it in
no hazard pointer reclaims it, and `delete_count` covers the list. -/
structure KeepsPending (w w' : Serial) : Prop where
  listed : ∀ p ∈ w.deleteList, p ∈ w'.deleteList
  later : ∀ pools, (∀ p ∈ w.deleteList, p ∉ snapshotOf (held pools)) →
    ∃ w'', { w' with pools, allocs := none }.collect = .ok w'' ∧ ∀ p ∈ w.deleteList, p ∈ w''.reclaimed.map Prod.fst
  counted : w'.deleteList.length ≤ w'.deleteCount

/-- **A snapshot that cannot be allocated loses the delete list**: whatever
the state of the domain, nothing that was on it is on it afterwards. -/
theorem collect_throws (hc : w.collect = .error (.badAlloc, w') ∨ w.collectIfRequired = .error (.badAlloc, w')) :
    w'.deleteList = [] ∧ w'.reclaimed = w.reclaimed ∧ ¬ w.KeepsPending w' := by
  have hlost : w.deleteList ≠ [] ∧ w'.deleteList = [] ∧ w'.reclaimed = w.reclaimed := by
    rcases hc with hc | hc
    · obtain ⟨hne, rfl⟩ := collect_error hc
      exact ⟨hne, rfl, rfl⟩
    · obtain ⟨hne, rfl⟩ := collectIfRequired_error hc
      exact ⟨hne, rfl, rfl⟩
  obtain ⟨hne, hnil, hrec⟩ := hlost
  refine ⟨hnil, hrec, fun hk => ?_⟩
  obtain ⟨p, hp⟩ := List.exists_mem_of_ne_nil _ hne
  have hmem := hk.listed p hp
  rw [hnil] at hmem
  cases hmem

/-- Three objects on the delete list, no hazard pointer on any of them; the
first allocation throws. -/
def threeListed : Serial where
  pools := [poolOf [] (by decide)]
  deleteList := [8, 16, 24]
  deleteCount := 3
  deleted := []
  allocs := some 0

theorem collect_throws_three :
    ∃ w', threeListed.collect = .error (.badAlloc, w') ∧ w'.deleteList = [] ∧ ¬ threeListed.KeepsPending w' := by
  refine ⟨_, rfl, rfl, ?_⟩
  exact (collect_throws (w := threeListed) (.inl rfl)).2.2

/-- **The list is lost.** After `collect` has thrown, a second `collect` reclaims nothing. -/
theorem collect_loses_list :
    ∃ w' w'', threeListed.collect = .error (.badAlloc, w') ∧ { w' with allocs := none }.collect = .ok w'' ∧
      w''.deleteList = [] ∧ w''.reclaimed = [] :=
  ⟨_, _, rfl, rfl, rfl, rfl⟩

/-! ## `delete_item` -/

/-- The array is taken for full. -/
def Full (w : Serial) : Prop := 0 < w.R ∧ w.delIndex = w.R

theorem enqueueTurn_full {x : Nat} (hf : w.Full) (ht : enqueueTurn w x = .ok w') : w'.Full := by
  unfold enqueueTurn at ht
  split at ht
  · cases ht
  · split at ht
    · obtain ⟨w₁, hn, h₁⟩ := bind_eq_ok.mp ht
      obtain ⟨allocs, rfl⟩ := new_eq_ok hn
      cases h₁
      obtain ⟨hR, hidx⟩ := hf
      refine ⟨?_, ?_⟩
      · simpa [R, pushDeleteNode] using hR
      · simpa [R, pushDeleteNode] using hidx
    · cases ht
      exact hf

theorem enqueueTurn_error {x : Nat} (ht : enqueueTurn w x = .error (e, w')) : w' = w := by
  unfold enqueueTurn at ht
  split at ht
  · cases ht
    rfl
  · split at ht
    · rcases bind_eq_error.mp ht with hn | ⟨w₁, -, h₁⟩
      · exact (new_error hn).2
      · cases h₁
    · cases ht

theorem enqueueLoop_full (hf : w.Full) (hl : w.enqueueLoop = .ok w') : w'.Full :=
  forRange_invariant (fun _ s => s.Full) hf (fun _ _ _ _ hs ht => enqueueTurn_full hs ht) hl

/-- Handing the array to the domain throws while the array is taken for full. -/
theorem enqueueArray_error (hf : w.Full) (ha : w.enqueueArray = .error (e, w')) : w'.Full := by
  rcases bind_eq_error.mp ha with hl | ⟨w₁, h₁, hc⟩
  · obtain ⟨x, -, s, hs, ht⟩ := forRange_error (fun _ s => s.Full) hf
      (fun _ _ s s' hs ht => enqueueTurn_full hs ht) hl
    exact (enqueueTurn_error ht).symm ▸ hs
  · obtain ⟨-, rfl⟩ := collectIfRequired_error hc
    have hf₁ : w₁.Full := enqueueLoop_full hf h₁
    exact hf₁

theorem reclaimRest_error (hR : 0 < w.R) (hr : w.reclaimRest = .error (.badAlloc, w')) : w'.Full := by
  unfold reclaimRest at hr
  split at hr
  · rename_i hfull
    rcases bind_eq_error.mp hr with ha | ⟨w₁, -, h₁⟩
    · exact enqueueArray_error ⟨hR, hfull⟩ ha
    · cases h₁
  · split at hr
    · cases hr
    · cases hr

theorem reclaim_error (hf : w.Full) (hr : w.reclaim = .error (.badAlloc, w')) : w'.Full := by
  rcases bind_eq_error.mp hr with hs | ⟨⟨snap, w₁⟩, hs, h₁⟩
  · rw [(snapshot_error hs).2]
    exact hf
  · obtain ⟨allocs, rfl⟩ := snapshot_eq_ok hs
    rw [reclaimLoop_eq, bind_ok] at h₁
    refine reclaimRest_error ?_ h₁
    simpa [R, sweep] using hf.1

/-- **`delete_item` that throws** leaves the array taken for full. -/
theorem deleteItem_error (hR : 0 < w.R) (hd : w.deleteItem p = .error (.badAlloc, w')) : w'.Full := by
  have hlt : w.delIndex < w.R := by
    by_contra hge
    unfold deleteItem at hd
    rw [if_pos hR, if_neg hge] at hd
    split at hd <;> cases hd
  rw [deleteItem_eq hR hlt] at hd
  split at hd
  · rename_i hfull
    refine reclaim_error ⟨?_, hfull⟩ hd
    simpa [put, R] using hR
  · cases hd

/-- The states of later calls of `delete_item`, which may throw as well. -/
inductive Later (w : Serial) : Serial → Prop
  | refl : Later w w
  | returned {v v' allocs q} : Later w v → { v with allocs }.deleteItem q = .ok v' → Later w v'
  | thrown {v v' allocs q} : Later w v → { v with allocs }.deleteItem q = .error (.badAlloc, v') → Later w v'

/-- After an exception out of `delete_item(p)`: no object is lost, and every
later call finds a null entry of the array at `del_index`. -/
structure Usable (w : Serial) (p : Ptr) (w' : Serial) : Prop where
  kept : ∀ q, q ∈ itemsOf w.deleted ∨ q ∈ w.deleteList ∨ q = p →
    q ∈ w'.deleted ∨ q ∈ w'.deleteList ∨ q ∈ w'.reclaimed.map Prod.fst
  writes : ∀ v, w'.Later v → v.deleted[v.delIndex]? = some 0

/-- **After `delete_item` has thrown** the next call writes behind the array:
the assertion before the write lets `del_index == R` pass. This is so for
every state of the context and the domain and every allocation that throws. -/
theorem deleteItem_throws (hR : 0 < w.R) (hd : w.deleteItem p = .error (.badAlloc, w')) :
    ¬ w.Usable p w' ∧
      ∀ q allocs, { w' with allocs }.deleteItem q = .error (.outOfBounds, { w' with allocs }) := by
  obtain ⟨hR', hidx⟩ := deleteItem_error hR hd
  refine ⟨fun hu => ?_, fun q allocs => ?_⟩
  · have hwrite := hu.writes w' .refl
    rw [hidx, R, List.getElem?_eq_none (Nat.le_refl _)] at hwrite
    cases hwrite
  · have hge : ¬ w'.delIndex < w'.R := Nat.not_lt.mpr (Nat.le_of_eq hidx.symm)
    unfold deleteItem
    exact (if_pos hR').trans ((if_pos (Nat.le_of_eq hidx)).trans (if_neg hge))

/-- Two items in an array of three, and a slot on each of three objects; the
third allocation throws. -/
def twoHeld : Serial where
  pools := [poolOf [8, 16, 24] (by decide)]
  deleted := [8, 16, 0]
  delIndex := 2
  allocs := some 2

/-- The second delete node cannot be allocated. -/
theorem deleteItem_throws_three :
    ∃ w', twoHeld.deleteItem 24 = .error (.badAlloc, w') ∧ w'.deleted = [0, 16, 24] ∧ w'.deleteList = [8] ∧
      ¬ twoHeld.Usable 24 w' := by
  refine ⟨_, rfl, rfl, rfl, ?_⟩
  exact (deleteItem_throws (w := twoHeld) (p := 24) (by decide) rfl).1

/-- **A write behind the array.** In a new context with an array of one entry
the snapshot of the first `delete_item` cannot be allocated; the second
`delete_item` writes to `deleted[1]`. -/
theorem deleteItem_writes_behind :
    ∃ w' : Serial, { pools := [poolOf [] (by decide)], deleted := [0], allocs := some 0 : Serial }.deleteItem 8 =
        .error (.badAlloc, w') ∧
      w'.deleted = [8] ∧ w'.delIndex = 1 ∧
      { w' with allocs := none }.deleteItem 16 = .error (.outOfBounds, { w' with allocs := none }) :=
  ⟨_, rfl, rfl, rfl, rfl⟩

end Serial

end Hazard

end SplitOrder
