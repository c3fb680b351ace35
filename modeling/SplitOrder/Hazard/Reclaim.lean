/-
What `reclaim` does to the array of a context.

The loop over the array clears the entries that the search does not find
(`sweep`) and reclaims them, null entries with the rest; then the array is
handed to the domain when nothing was cleared, and is moved up otherwise.
Each function of `Calls` has an equation for the case that no allocation
throws.
-/
import SplitOrder.Hazard.Buffer

namespace SplitOrder

namespace Hazard

/-! ## The entries a snapshot keeps -/

section Sweep

variable (snap : List Ptr)

/-- What the snapshot does not have. -/
def unheld (ps : List Ptr) : List Ptr := ps.filter fun p => !search snap p

/-- What the snapshot has. -/
def stillHeld (ps : List Ptr) : List Ptr := ps.filter (search snap)

/-- The array after the loop of `reclaim`. -/
def sweep (ps : List Ptr) : List Ptr := ps.map fun p => if search snap p then p else 0

variable {snap} {ps : List Ptr}

theorem itemsOf_sweep : itemsOf (sweep snap ps) = stillHeld snap (itemsOf ps) := by
  induction ps with
  | nil => rfl
  | cons p ps ih =>
    have hcons : sweep snap (p :: ps) = (if search snap p then p else 0) :: sweep snap ps := rfl
    rw [hcons]
    by_cases hp : p = 0
    · subst hp
      rw [ite_self, itemsOf_cons_zero, itemsOf_cons_zero, ih]
    · rw [itemsOf_cons hp, stillHeld]
      by_cases hs : search snap p = true
      · rw [if_pos hs, itemsOf_cons hp, ih, List.filter_cons_of_pos hs, stillHeld]
      · rw [if_neg hs, itemsOf_cons_zero, ih, List.filter_cons_of_neg hs, stillHeld]

theorem length_unheld_add (snap ps : List Ptr) : (unheld snap ps).length + (stillHeld snap ps).length = ps.length := by
  rw [unheld, stillHeld, Nat.add_comm, ← List.length_append]
  exact (List.filter_append_perm (search snap) ps).length_eq

theorem itemsOf_eq_self (h : 0 ∉ ps) : itemsOf ps = ps := by
  rw [itemsOf, List.filter_eq_self]
  intro p hp
  have : p ≠ 0 := fun he => h (he ▸ hp)
  simpa using this

end Sweep

/-- `n` decrements of a `size_t` that is at least `n`. -/
theorem iterate_sizeDec {k : Nat} (hk : k < 2 ^ 64) : ∀ n ≤ k, sizeDec^[n] k = k - n := by
  intro n
  induction n with
  | zero => intro _; rfl
  | succ n ih =>
    intro hn
    rw [Function.iterate_succ_apply', ih (by omega), sizeDec_eq (by omega) (by omega)]
    omega

namespace Serial

variable {w : Serial} {snap : List Ptr}

theorem new_ok (h : w.allocs = none) : w.new = .ok w := by
  unfold new
  rw [h]

theorem snapshot_ok (h : w.allocs = none) : w.snapshot = .ok (snapshotOf (held w.pools), w) := by
  rw [snapshot, new_ok h, bind_ok, hazptrsSnapshot_eq (by rw [List.length_replicate])]

/-! ## The loop of `reclaim` -/

/-- The state after `i` turns. -/
def swept (w : Serial) (snap : List Ptr) (i : Nat) : Serial :=
  let gone := unheld snap (w.deleted.take i)
  { w with
    deleted := sweep snap (w.deleted.take i) ++ w.deleted.drop i
    delIndex := sizeDec^[gone.length] w.delIndex
    reclaimed := w.reclaimed ++ gone.map fun p => (p, snap) }

theorem swept_zero : w.swept snap 0 = w := by simp [swept, sweep, unheld]

theorem reclaimTurn_swept {i : Nat} (hi : i < w.R) :
    reclaimTurn snap (w.swept snap i) i = .ok (w.swept snap (i + 1)) := by
  have hi : i < w.deleted.length := hi
  have hlen : (sweep snap (w.deleted.take i)).length = i := by
    rw [sweep, List.length_map, List.length_take, Nat.min_eq_left (Nat.le_of_lt hi)]
  have hdrop := List.drop_eq_getElem_cons hi
  have htake := List.take_succ_eq_append_getElem hi
  have hget : (w.swept snap i).deleted[i]? = some w.deleted[i] := by
    simp only [swept]
    rw [List.getElem?_append_right (by omega), hlen, Nat.sub_self, hdrop, List.getElem?_cons_zero]
  have hset : ∀ p, (sweep snap (w.deleted.take i) ++ w.deleted.drop i).set i p =
      sweep snap (w.deleted.take i) ++ p :: w.deleted.drop (i + 1) := by
    intro p
    rw [List.set_append_right _ _ (by omega), hlen, Nat.sub_self, hdrop, List.set_cons_zero]
  rw [reclaimTurn, hget]
  by_cases hs : search snap w.deleted[i] = true
  · -- the entry stays
    simp only [hs, if_true, swept, htake, sweep, unheld, List.map_append, List.filter_append, List.map_cons,
      List.map_nil,
      List.filter_cons, Bool.not_true, Bool.false_eq_true, if_false, List.filter_nil, List.append_nil, hdrop,
      List.append_assoc, List.singleton_append]
  · simp only [hs, reclaimObject, swept, hset, htake]
    simp only [sweep, unheld, List.map_append, List.filter_append, List.map_cons, List.map_nil, List.filter_cons, hs,
      Bool.false_eq_true, if_false, Bool.not_false, if_true, List.filter_nil, List.length_append, List.length_singleton,
      Function.iterate_succ_apply', List.append_assoc, List.singleton_append]

/-- **The loop of `reclaim`** clears and reclaims what the snapshot does not have. -/
theorem reclaimLoop_eq : w.reclaimLoop snap =
    .ok { w with deleted := sweep snap w.deleted, delIndex := sizeDec^[(unheld snap w.deleted).length] w.delIndex,
                 reclaimed := w.reclaimed ++ (unheld snap w.deleted).map fun p => (p, snap) } := by
  obtain ⟨w', hrun, rfl⟩ := forRange_ok (f := reclaimTurn snap) (s := w) (n := w.R) (fun i s => s = w.swept snap i)
    swept_zero.symm fun i hi s hs => ⟨_, by rw [hs]; exact reclaimTurn_swept hi, rfl⟩
  rw [reclaimLoop, hrun, swept]
  simp only [R, List.take_length, List.drop_length, List.append_nil]

/-! ## The delete list -/

theorem foldl_collectWalk {ps : List Ptr} :
    ps.foldl (collectWalk snap) w =
      { w with reclaimed := w.reclaimed ++ (unheld snap ps).map fun p => (p, snap) } := by
  induction ps generalizing w with
  | nil => simp [unheld]
  | cons p ps ih =>
    rw [List.foldl_cons, ih]
    cases hs : search snap p <;> simp [collectWalk, reclaimObject, unheld, hs]

theorem foldl_pushDeleteNode {ps : List Ptr} :
    ps.foldl pushDeleteNode w =
      { w with deleteList := ps.reverse ++ w.deleteList, deleteCount := w.deleteCount + ps.length } := by
  induction ps generalizing w with
  | nil => rfl
  | cons p ps ih =>
    rw [List.foldl_cons, ih]
    simp [pushDeleteNode, Nat.add_assoc, Nat.add_comm 1]

/-- **`collect`** reclaims what the snapshot does not have and puts the rest back. -/
theorem collect_eq (h : w.allocs = none) : w.collect =
    .ok { w with deleteList := (stillHeld (snapshotOf (held w.pools)) w.deleteList).reverse
                 deleteCount := w.deleteCount + (stillHeld (snapshotOf (held w.pools)) w.deleteList).length
                 reclaimed := w.reclaimed ++ (unheld (snapshotOf (held w.pools)) w.deleteList).map
                   fun p => (p, snapshotOf (held w.pools)) } := by
  unfold collect
  by_cases hl : w.deleteList = []
  · obtain ⟨pools, ds, dc, del, di, al, re⟩ := w
    obtain rfl : ds = [] := hl
    simp [stillHeld, unheld]
  · have hsnap : { w with deleteList := [] }.snapshot =
        .ok (snapshotOf (held w.pools), { w with deleteList := [] }) := snapshot_ok (w := { w with deleteList := [] }) h
    rw [if_neg hl, hsnap, bind_ok]
    simp only [foldl_collectWalk, foldl_pushDeleteNode, stillHeld, List.append_nil]

/-- What `collect` and `collect_if_required` may do. -/
structure Collects (w w' : Serial) : Prop where
  pools : w'.pools = w.pools
  deleted : w'.deleted = w.deleted
  delIndex : w'.delIndex = w.delIndex
  allocs : w'.allocs = w.allocs
  objects : ∃ gone, w'.reclaimed = w.reclaimed ++ gone.map (fun p => (p, snapshotOf (held w.pools))) ∧
    (∀ p ∈ gone, p ∉ snapshotOf (held w.pools)) ∧ (gone ++ w'.deleteList).Perm w.deleteList

theorem collectIfRequired_ok (h : w.allocs = none) : ∃ w', w.collectIfRequired = .ok w' ∧ w.Collects w' := by
  unfold collectIfRequired
  by_cases hc : w.deleteCount > w.hpCount
  · rw [if_pos hc, collect_eq (w := { w with deleteCount := 0 }) h]
    refine ⟨_, rfl, rfl, rfl, rfl, rfl, _, rfl, fun p hp => ?_, ?_⟩
    · have hs := (List.mem_filter.mp hp).2
      rw [Bool.not_eq_true'] at hs
      rw [← binarySearch_iff (snapshotOf_sorted _)]
      exact Bool.eq_false_iff.mp hs
    · refine ((List.reverse_perm _).append_left _).trans ?_
      exact List.perm_append_comm.trans (List.filter_append_perm _ _)
  · rw [if_neg hc]
    exact ⟨w, rfl, rfl, rfl, rfl, rfl, [], by simp, by simp, by simp⟩

/-- The state after `i` turns of `enqueue_for_delete(deleted, R)`. -/
def handed (w : Serial) (i : Nat) : Serial :=
  let items := itemsOf (w.deleted.take i)
  { w with
    deleted := List.replicate i 0 ++ w.deleted.drop i
    deleteList := items.reverse ++ w.deleteList
    deleteCount := w.deleteCount + items.length }

theorem enqueueTurn_handed {i : Nat} (h : w.allocs = none) (hi : i < w.R) :
    enqueueTurn (w.handed i) i = .ok (w.handed (i + 1)) := by
  have hi : i < w.deleted.length := hi
  have hlen : (List.replicate i (0 : Ptr)).length = i := List.length_replicate
  have hdrop := List.drop_eq_getElem_cons hi
  have htake := List.take_succ_eq_append_getElem hi
  have hget : (w.handed i).deleted[i]? = some w.deleted[i] := by
    simp only [handed]
    rw [List.getElem?_append_right (by omega), hlen, Nat.sub_self, hdrop, List.getElem?_cons_zero]
  have hset : (List.replicate i 0 ++ w.deleted.drop i).set i 0 =
      List.replicate (i + 1) 0 ++ w.deleted.drop (i + 1) := by
    rw [List.set_append_right _ _ (by omega), hlen, Nat.sub_self, hdrop, List.set_cons_zero, List.replicate_succ',
      List.append_assoc, List.singleton_append]
  rw [enqueueTurn, hget]
  by_cases hp : w.deleted[i] = 0
  · simp only [hp, ne_eq, not_true_eq_false, if_false, handed, htake, itemsOf_append, itemsOf_cons_zero]
    rw [← hset, hdrop, hp]
    simp [itemsOf, List.set_append_right]
  · have hnew : (w.handed i).new = .ok (w.handed i) := new_ok h
    simp only [ne_eq, hp, not_false_eq_true, if_true, hnew, bind_ok]
    simp only [handed, pushDeleteNode, hset, htake, itemsOf_append, itemsOf_cons hp]
    simp [itemsOf, Nat.add_assoc]

/-- **`enqueue_for_delete(deleted, R)`** moves every item to the delete list. -/
theorem enqueueLoop_eq (h : w.allocs = none) : w.enqueueLoop =
    .ok { w with deleted := List.replicate w.R 0, deleteList := (itemsOf w.deleted).reverse ++ w.deleteList,
                 deleteCount := w.deleteCount + (itemsOf w.deleted).length } := by
  obtain ⟨w', hrun, rfl⟩ := forRange_ok (f := enqueueTurn) (s := w) (n := w.R) (fun i s => s = w.handed i)
    (by simp [handed, itemsOf]) fun i hi s hs => ⟨_, by rw [hs]; exact enqueueTurn_handed h hi, rfl⟩
  rw [enqueueLoop, hrun, handed]
  simp only [R, List.take_length, List.drop_length, List.append_nil]

/-! ## `reclaim` -/

/-- What a call of `reclaim` does when it works: the items it does not
reclaim stay, at the front of the array or on the delete list. -/
structure Reclaims (w w' : Serial) : Prop where
  dense : Dense w'.deleted w'.delIndex
  index : w'.delIndex < w.R
  length : w'.R = w.R
  allocs : w'.allocs = w.allocs
  objects : ∃ gone, w'.reclaimed = w.reclaimed ++ gone.map (fun p => (p, snapshotOf (held w.pools))) ∧
    (∀ p ∈ gone, p ∉ snapshotOf (held w.pools)) ∧
    (gone ++ (itemsOf w'.deleted ++ w'.deleteList)).Perm (itemsOf w.deleted ++ w.deleteList)

theorem search_iff_mem {buf : List Ptr} {p : Ptr} : search (snapshotOf buf) p = true ↔ p ∈ snapshotOf buf :=
  binarySearch_iff (snapshotOf_sorted buf)

theorem mem_unheld {buf ps : List Ptr} {p : Ptr} :
    p ∈ unheld (snapshotOf buf) ps ↔ p ∈ ps ∧ p ∉ snapshotOf buf := by
  rw [unheld, List.mem_filter, Bool.not_eq_true', ← Bool.not_eq_true, search_iff_mem]

/-- The null entries stay out of the loop when there are none, or when the snapshot has the null pointer. -/
theorem unheld_itemsOf {ps : List Ptr} (h : 0 ∉ ps ∨ search snap 0 = true) :
    unheld snap (itemsOf ps) = unheld snap ps := by
  rcases h with h | h
  · rw [itemsOf_eq_self h]
  · rw [unheld, unheld, itemsOf, List.filter_filter]
    refine List.filter_congr fun p _ => ?_
    by_cases hp : p = 0
    · subst hp
      simp [h]
    · simp [hp]

/-- After the loop, at least one item gone: the rest is moved up. -/
theorem reclaimRest_moved (hR : 0 < w.R) (hne : w.delIndex ≠ w.R) :
    ∃ ds, w.reclaimRest = .ok { w with deleted := ds } ∧ ds.Perm w.deleted ∧ Dense ds (itemsOf w.deleted).length := by
  obtain ⟨ds, hc, hperm, hd⟩ := compact_dense (List.length_pos_iff.mp hR)
  refine ⟨ds, ?_, hperm, hd⟩
  unfold reclaimRest
  rw [if_neg hne, hc]

/-- After the loop, no item gone: all are handed to the domain. -/
theorem reclaimRest_handed (halloc : w.allocs = none) (he : w.delIndex = w.R) :
    ∃ w₁ w', w.enqueueLoop = .ok w₁ ∧ w₁.collectIfRequired = .ok w' ∧ w₁.Collects w' ∧
      w.reclaimRest = .ok { w' with delIndex := 0 } := by
  have hloop := enqueueLoop_eq halloc
  obtain ⟨w', hcollect, hc⟩ := collectIfRequired_ok (w := { w with
    deleted := List.replicate w.R 0, deleteList := (itemsOf w.deleted).reverse ++ w.deleteList,
    deleteCount := w.deleteCount + (itemsOf w.deleted).length }) halloc
  refine ⟨_, w', hloop, hcollect, hc, ?_⟩
  unfold reclaimRest
  rw [if_pos he, enqueueArray, hloop, bind_ok, hcollect, bind_ok]

theorem reclaim_eq (halloc : w.allocs = none) :
    w.reclaim = w.reclaimLoop (snapshotOf (held w.pools)) >>= reclaimRest := by
  rw [reclaim, snapshot_ok halloc, bind_ok]

/-- **`reclaim` works** on an array with its items in front, if it has no
null entry or the snapshot has the null pointer. -/
theorem reclaim_spec (hR : 0 < w.R) (hsize : w.R < 2 ^ 64) (halloc : w.allocs = none)
    (hd : Dense w.deleted w.delIndex) (hnull : 0 ∉ w.deleted ∨ search (snapshotOf (held w.pools)) 0 = true) :
    ∃ w', w.reclaim = .ok w' ∧ w.Reclaims w' := by
  have hitems := hd.length_items
  have hle : w.delIndex ≤ w.R := hd.1
  have hsum := length_unheld_add (snapshotOf (held w.pools)) (itemsOf w.deleted)
  rw [unheld_itemsOf hnull] at hsum
  have hindex := iterate_sizeDec (k := w.delIndex) (by omega) (unheld (snapshotOf (held w.pools)) w.deleted).length
    (by omega)
  rw [reclaim_eq halloc, reclaimLoop_eq, bind_ok, hindex]
  set snap := snapshotOf (held w.pools) with hsnap
  set gone := unheld snap w.deleted with hgone
  set w₁ : Serial := { w with deleted := sweep snap w.deleted, delIndex := w.delIndex - gone.length,
                              reclaimed := w.reclaimed ++ gone.map fun p => (p, snap) } with hw₁
  have hR₁ : w₁.R = w.R := by simp [hw₁, R, sweep]
  have hkept : itemsOf w₁.deleted = stillHeld snap (itemsOf w.deleted) := itemsOf_sweep
  have hperm : (gone ++ stillHeld snap (itemsOf w.deleted)).Perm (itemsOf w.deleted) := by
    rw [hgone, ← unheld_itemsOf hnull]
    exact List.perm_append_comm.trans (List.filter_append_perm _ _)
  have hnot : ∀ p ∈ gone, p ∉ snap := fun p hp => (mem_unheld.mp hp).2
  by_cases he : w₁.delIndex = w₁.R
  · -- nothing was reclaimed
    have hlen : w.delIndex - gone.length = w.R := by
      rw [← hR₁]
      exact he
    have hnil : gone = [] := List.length_eq_zero_iff.mp (by omega)
    obtain ⟨w₂, w', hloop, -, hc, hrun⟩ := reclaimRest_handed (w := w₁) halloc he
    rw [enqueueLoop_eq (w := w₁) halloc] at hloop
    obtain rfl := Except.ok.inj hloop
    obtain ⟨gone', hrec, hnot', hperm'⟩ := hc.objects
    have hdel : w'.deleted = List.replicate w.R 0 := hc.deleted.trans (by rw [hR₁])
    refine ⟨_, hrun, ?_, hR, ?_, hc.allocs, gone', ?_, hnot', ?_⟩
    · change Dense w'.deleted 0
      rw [hdel]
      exact .replicate _
    · simp only [R, hdel, List.length_replicate]
    · rw [hrec]
      simp [hw₁, hnil]
    · change (gone' ++ (itemsOf w'.deleted ++ w'.deleteList)).Perm _
      rw [hdel, Dense.items_nil (.replicate _), List.nil_append]
      refine hperm'.trans ((List.reverse_perm _).append_right _ |>.trans ?_)
      rw [hkept]
      rw [hnil, List.nil_append] at hperm
      exact hperm.append_right _
  · obtain ⟨ds, hrun, hds, hdense⟩ := reclaimRest_moved (by rw [hR₁]; exact hR) he
    have hlen : (itemsOf w₁.deleted).length = w.delIndex - gone.length := by
      rw [hkept]
      omega
    rw [hlen] at hdense
    refine ⟨_, hrun, hdense, ?_, ?_, rfl, gone, rfl, hnot, ?_⟩
    · have hlt : w.delIndex - gone.length ≠ w.R := by
        rw [← hR₁]
        exact he
      change w.delIndex - gone.length < w.R
      omega
    · rw [← hR₁]
      exact hds.length_eq
    · have hi : (itemsOf ds).Perm (stillHeld snap (itemsOf w.deleted)) := by
        rw [← hkept]
        exact hds.filter _
      rw [← List.append_assoc]
      exact ((hi.append_left gone).trans hperm).append_right _

end Serial

end Hazard

end SplitOrder
