/-
`delete_item` and `reclaim` of one context, over whole runs.

`delete_item` calls `reclaim` on a full array (`reclaim_full_array`). A
caller may call it at any other time, when the array has null entries: they
are searched for like the items, and only a snapshot with the null pointer
in it (a slot that holds null with its mark bit set) keeps them from being
reclaimed.
-/
import SplitOrder.Lib.Runs
import SplitOrder.Hazard.Reclaim

namespace SplitOrder

namespace Hazard

namespace Serial

variable {w w' : Serial} {p : Ptr}

/-! ## A full array -/

/-- The items that are not in the snapshot are reclaimed, once each, and the others are in front. -/
structure Freed (w w' : Serial) (snap : List Ptr) : Prop where
  reclaimed : ∃ gone : List Ptr, w'.reclaimed = w.reclaimed ++ gone.map (fun p => (p, snap)) ∧ gone.Nodup ∧
    ∀ p, p ∈ gone ↔ p ∈ w.deleted ∧ p ∉ snap
  length : w'.R = w.R
  delIndex : w'.delIndex = w.deleted.countP (· ∈ snap)
  front : (w'.deleted.take w'.delIndex).Nodup ∧
    ∀ p, p ∈ w'.deleted.take w'.delIndex ↔ p ∈ w.deleted ∧ p ∈ snap
  null : ∀ i p, w'.delIndex ≤ i → w'.deleted[i]? = some p → p = 0
  deleteList : w'.deleteList = w.deleteList

/-- The loop reclaims nothing; all items are pushed onto the delete list,
which may start a `collect`, and the array is empty. -/
structure HandedOver (w w' : Serial) (snap : List Ptr) : Prop where
  loop : w.reclaimLoop snap = .ok w
  moved : ∃ w₁ w₂, w.enqueueLoop = .ok w₁ ∧ w₁.deleteList = w.deleted.reverse ++ w.deleteList ∧
    w₁.reclaimed = w.reclaimed ∧ w₁.collectIfRequired = .ok w₂ ∧ w' = { w₂ with delIndex := 0 }
  length : w'.R = w.R
  null : ∀ p ∈ w'.deleted, p = 0
  delIndex : w'.delIndex = 0

theorem stillHeld_eq {buf ps : List Ptr} : stillHeld (snapshotOf buf) ps = ps.filter (· ∈ snapshotOf buf) :=
  List.filter_congr fun p _ => by rw [Bool.eq_iff_iff, search_iff_mem, decide_eq_true_eq]

/-- `p` put behind the items of the array, and counted. -/
def put (w : Serial) (p : Ptr) : Serial :=
  { w with deleted := w.deleted.set w.delIndex p, delIndex := sizeInc w.delIndex }

theorem deleteItem_eq (hR : 0 < w.R) (hlt : w.delIndex < w.R) :
    w.deleteItem p = if (w.put p).delIndex = (w.put p).R then (w.put p).reclaim else .ok (w.put p) := by
  unfold deleteItem
  rw [if_pos hR, if_pos (Nat.le_of_lt hlt), if_pos hlt]
  rfl

theorem itemsOf_put (hd : Dense w.deleted w.delIndex) (hlt : w.delIndex < w.R) (hp : p ≠ 0) :
    (itemsOf (w.put p).deleted).Perm (p :: itemsOf w.deleted) := by
  have hlt : w.delIndex < w.deleted.length := hlt
  have hnull : w.deleted[w.delIndex] = 0 := by
    by_contra hne
    exact absurd ((hd.2 _ _ (List.getElem?_eq_getElem hlt)).mp hne) (Nat.lt_irrefl _)
  have hset : (w.put p).deleted = w.deleted.take w.delIndex ++ p :: w.deleted.drop (w.delIndex + 1) :=
    List.set_eq_take_append_cons_drop.trans (if_pos hlt)
  have hold : w.deleted = w.deleted.take w.delIndex ++ 0 :: w.deleted.drop (w.delIndex + 1) := by
    rw [← hnull, List.getElem_cons_drop, List.take_append_drop]
  rw [hset]
  conv_rhs => rw [hold]
  rw [itemsOf_append, itemsOf_append, itemsOf_cons hp, itemsOf_cons_zero]
  exact List.perm_middle

end Serial

/-- The calls on a context; each finds what it finds in the hazard pointers. -/
inductive ContextEvent
  | deleteItem (p : Ptr) (pools : List HazptrPool)
  | reclaim (pools : List HazptrPool)

/-- A context with an array of `R` entries that is the only one in use, and
what was passed to `delete_item` so far; on the delete list are items of
contexts that are gone. -/
def contextRuns (R : Nat) : System (Serial × List Ptr) ContextEvent where
  init s := s.1.deleted = List.replicate R 0 ∧ s.1.delIndex = 0 ∧ s.1.allocs = none ∧ s.1.reclaimed = [] ∧
    0 ∉ s.1.deleteList ∧ s.2 = s.1.deleteList
  next s
    | .deleteItem p pools =>
      if p ≠ 0 ∧ p ∉ s.2 then ({ s.1 with pools }.deleteItem p).toOption.map fun w => (w, s.2 ++ [p]) else none
    | .reclaim pools => { s.1 with pools }.reclaim.toOption.map fun w => (w, s.2)

/-- The call may be made: `delete_item` gets an object it was not given before. -/
def ContextEvent.Valid (retired : List Ptr) : ContextEvent → Prop
  | .deleteItem p _ => p ≠ 0 ∧ p ∉ retired
  | .reclaim _ => True

/-- `reclaim` is called directly only while a hazard pointer holds the null
pointer with its mark bit set. -/
def MarkedNull (_ : Serial × List Ptr) : ContextEvent → Prop
  | .deleteItem _ _ => True
  | .reclaim pools => 1 ∈ held pools

instance (s : Serial × List Ptr) (e : ContextEvent) : Decidable (MarkedNull s e) :=
  match e with
  | .deleteItem _ _ => isTrue trivial
  | .reclaim pools => inferInstanceAs (Decidable (1 ∈ held pools))

/-- What holds between two calls. -/
structure Tidy (R : Nat) (s : Serial × List Ptr) : Prop where
  length : s.1.R = R
  index : s.1.delIndex < R
  /-- exactly the first `del_index` entries are not null -/
  dense : Dense s.1.deleted s.1.delIndex
  reclaimed : ∀ c ∈ s.1.reclaimed, c.1 ≠ 0 ∧ c.1 ∈ s.2 ∧ c.1 ∉ c.2
  allocs : s.1.allocs = none
  retired : ∀ p, p ∈ itemsOf s.1.deleted ++ s.1.deleteList → p ≠ 0 ∧ p ∈ s.2

theorem Tidy.pools {R : Nat} {s : Serial × List Ptr} (h : Tidy R s) (pools : List HazptrPool) :
    Tidy R ({ s.1 with pools }, s.2) :=
  ⟨h.length, h.index, h.dense, h.reclaimed, h.allocs, h.retired⟩

/-- A call of `reclaim` that works leaves things tidy. -/
theorem Tidy.ofReclaims {R : Nat} {w w' : Serial} {retired : List Ptr} (h : w.Reclaims w') (hR : w.R = R)
    (halloc : w.allocs = none) (hrec : ∀ c ∈ w.reclaimed, c.1 ≠ 0 ∧ c.1 ∈ retired ∧ c.1 ∉ c.2)
    (hret : ∀ p, p ∈ itemsOf w.deleted ++ w.deleteList → p ≠ 0 ∧ p ∈ retired) : Tidy R (w', retired) := by
  obtain ⟨gone, hgone, hnot, hperm⟩ := h.objects
  have hall : ∀ p, p ∈ gone ∨ p ∈ itemsOf w'.deleted ++ w'.deleteList → p ≠ 0 ∧ p ∈ retired := fun p hp =>
    hret p (hperm.mem_iff.mp (List.mem_append.mpr hp))
  refine ⟨h.length.trans hR, hR ▸ h.index, h.dense, fun c hc => ?_, h.allocs.trans halloc, fun p hp => hall p (.inr hp)⟩
  have hc : c ∈ w.reclaimed ++ gone.map fun p => (p, snapshotOf (held w.pools)) := hgone ▸ hc
  rcases List.mem_append.mp hc with hc | hc
  · exact hrec c hc
  · obtain ⟨p, hp, rfl⟩ := List.mem_map.mp hc
    obtain ⟨hp0, hmem⟩ := hall p (.inl hp)
    exact ⟨hp0, hmem, hnot p hp⟩

/-- **`delete_item`** of a context that is tidy. -/
theorem Tidy.deleteItem {R : Nat} {w : Serial} {retired : List Ptr} {p : Ptr} (hsize : R < 2 ^ 64)
    (h : Tidy R (w, retired)) (hp : p ≠ 0) : ∃ w', w.deleteItem p = .ok w' ∧ Tidy R (w', retired ++ [p]) := by
  have hlen : w.R = R := h.length
  have hlt : w.delIndex < R := h.index
  have hltR : w.delIndex < w.R := by omega
  have hinc : sizeInc w.delIndex = w.delIndex + 1 := sizeInc_eq (by omega)
  have hR : (w.put p).R = R := by
    rw [← hlen]
    exact List.length_set
  have hdense : Dense (w.put p).deleted (w.put p).delIndex := by
    change Dense (w.deleted.set w.delIndex p) (sizeInc w.delIndex)
    rw [hinc]
    exact h.dense.push hltR hp
  have hret : ∀ q, q ∈ itemsOf (w.put p).deleted ++ w.deleteList → q ≠ 0 ∧ q ∈ retired ++ [p] := by
    intro q hq
    have hq := ((Serial.itemsOf_put h.dense hltR hp).append_right _).mem_iff.mp hq
    rw [List.cons_append, List.mem_cons] at hq
    rcases hq with rfl | hq
    · exact ⟨hp, by simp⟩
    · obtain ⟨hq0, hqr⟩ := h.retired q hq
      exact ⟨hq0, List.mem_append_left _ hqr⟩
  have hrec : ∀ c ∈ w.reclaimed, c.1 ≠ 0 ∧ c.1 ∈ retired ++ [p] ∧ c.1 ∉ c.2 := fun c hc => by
    obtain ⟨hc0, hmem, hnot⟩ := h.reclaimed c hc
    exact ⟨hc0, List.mem_append_left _ hmem, hnot⟩
  rw [Serial.deleteItem_eq (by omega) hltR]
  by_cases hfull : (w.put p).delIndex = (w.put p).R
  · -- the array is full
    have hnull : 0 ∉ (w.put p).deleted := by
      intro hmem
      obtain ⟨i, hi⟩ := List.mem_iff_getElem?.mp hmem
      have hilt := (List.getElem?_eq_some_iff.mp hi).1
      exact (hdense.2 i 0 hi).mpr (hfull ▸ hilt) rfl
    obtain ⟨w', hrun, hspec⟩ := Serial.reclaim_spec (w := w.put p) (by omega) (by omega) h.allocs hdense (.inl hnull)
    rw [if_pos hfull, hrun]
    exact ⟨w', rfl, .ofReclaims hspec hR h.allocs hrec hret⟩
  · rw [if_neg hfull]
    refine ⟨_, rfl, hR, ?_, hdense, hrec, h.allocs, hret⟩
    have hne : sizeInc w.delIndex ≠ R := by
      rw [← hR]
      exact hfull
    change sizeInc w.delIndex < R
    omega

/-- **A direct `reclaim`** with the null pointer in the snapshot. -/
theorem Tidy.reclaim {R : Nat} {w : Serial} {retired : List Ptr} (hsize : R < 2 ^ 64) (h : Tidy R (w, retired))
    (hnull : 1 ∈ held w.pools) : ∃ w', w.reclaim = .ok w' ∧ Tidy R (w', retired) := by
  have hlen : w.R = R := h.length
  have hlt : w.delIndex < R := h.index
  have hsearch : search (snapshotOf (held w.pools)) 0 = true := search_snapshotOf.mpr ⟨1, hnull, rfl⟩
  obtain ⟨w', hrun, hspec⟩ := Serial.reclaim_spec (w := w) (by omega) (by omega) h.allocs h.dense (.inr hsearch)
  exact ⟨w', hrun, .ofReclaims hspec hlen h.allocs h.reclaimed h.retired⟩

/-- **One call** of a run. -/
theorem Tidy.next {R : Nat} {s : Serial × List Ptr} {e : ContextEvent} (hsize : R < 2 ^ 64) (h : Tidy R s)
    (hv : e.Valid s.2) (hok : MarkedNull s e) : ∃ s', (contextRuns R).next s e = some s' ∧ Tidy R s' := by
  cases e with
  | deleteItem p pools =>
    obtain ⟨w', hrun, ht⟩ := (h.pools pools).deleteItem hsize hv.1
    refine ⟨(w', s.2 ++ [p]), ?_, ht⟩
    simp only [contextRuns]
    rw [if_pos (show p ≠ 0 ∧ p ∉ s.2 from hv)]
    exact congrArg (fun r => r.toOption.map fun w => (w, s.2 ++ [p])) hrun
  | reclaim pools =>
    obtain ⟨w', hrun, ht⟩ := (h.pools pools).reclaim hsize hok
    refine ⟨(w', s.2), ?_, ht⟩
    exact congrArg (fun r => r.toOption.map fun w => (w, s.2)) hrun

/-- **A direct `reclaim` with no marked null** in a hazard pointer reclaims
the null pointer: the array is never full between calls. -/
theorem Tidy.reclaim_null {R : Nat} {s : Serial × List Ptr} {pools : List HazptrPool} (h : Tidy R s)
    (hn : 1 ∉ held pools) :
    ∃ w', { s.1 with pools }.reclaimLoop (snapshotOf (held pools)) = .ok w' ∧
      (0, snapshotOf (held pools)) ∈ w'.reclaimed := by
  refine ⟨_, Serial.reclaimLoop_eq, ?_⟩
  have hlt : s.1.delIndex < s.1.deleted.length := by
    have hlen : s.1.deleted.length = R := h.length
    rw [hlen]
    exact h.index
  have hnull : 0 ∈ s.1.deleted := by
    have hget := List.getElem?_eq_getElem hlt
    have hzero : s.1.deleted[s.1.delIndex] = 0 := by
      by_contra hne
      exact Nat.lt_irrefl _ ((h.dense.2 _ _ hget).mp hne)
    exact hzero ▸ List.getElem_mem hlt
  have hnot : (0 : Ptr) ∉ snapshotOf (held pools) := by
    rw [← Serial.search_iff_mem, search_snapshotOf]
    intro hex
    obtain ⟨v, hv, hv0⟩ := hex
    rcases (unmark_eq_iff (p := 0) rfl).mp hv0 with rfl | rfl
    · exact (mem_held.mp hv).1 rfl
    · exact hn hv
  exact List.mem_append_right _ (List.mem_map.mpr ⟨0, Serial.mem_unheld.mpr ⟨hnull, hnot⟩, rfl⟩)

/-- **Runs of a context.** As long as `reclaim` is called directly only while
a hazard pointer holds the marked null pointer, things are tidy after every
call, and every call returns. -/
theorem context_tidy (R : Nat) (hR : 0 < R) (hsize : R < 2 ^ 64) :
    ∀ s, (contextRuns R).ReachableBy MarkedNull s →
      Tidy R s ∧ ∀ e, e.Valid s.2 → MarkedNull s e → ((contextRuns R).next s e).isSome := by
  intro s h
  have htidy : Tidy R s := by
    refine h.invariant (fun s hs => ?_) fun s e s' ht hok hn => ?_
    · obtain ⟨hdel, hidx, halloc, hrec, hnull, hret⟩ := hs
      have hd : Dense s.1.deleted s.1.delIndex := by
        rw [hdel, hidx]
        exact .replicate R
      refine ⟨by simp [Serial.R, hdel], by rw [hidx]; exact hR, hd, by simp [hrec], halloc, fun p hp => ?_⟩
      have hp : p ∈ s.1.deleteList := by
        rw [hdel, Dense.items_nil (.replicate R)] at hp
        exact hp
      exact ⟨fun hz => hnull (hz ▸ hp), hret ▸ hp⟩
    · have hv : e.Valid s.2 := by
        cases e with
        | deleteItem p pools =>
          simp only [contextRuns] at hn
          split at hn
          · assumption
          · cases hn
        | reclaim pools => trivial
      obtain ⟨s₁, hs₁, ht₁⟩ := ht.next hsize hv hok
      rw [hs₁] at hn
      cases hn
      exact ht₁
  refine ⟨htidy, fun e hv hok => ?_⟩
  obtain ⟨s', hs', -⟩ := htidy.next hsize hv hok
  rw [hs']
  rfl

/-- A new context. -/
def contextStart (R : Nat) : Serial × List Ptr := ({ pools := [], deleted := List.replicate R 0 }, [])

theorem contextStart_init {R : Nat} : (contextRuns R).init (contextStart R) :=
    ⟨rfl, rfl, rfl, rfl, by simp [contextStart], rfl⟩

/-- One item, and a direct `reclaim` while a slot holds the marked null pointer. -/
theorem context_tidy_one : ∃ s, (contextRuns 2).ReachableBy MarkedNull s ∧ s.2 = [8] ∧ Tidy 2 s := by
  have hrun : ((contextRuns 2).runIf (fun s e => decide (MarkedNull s e)) (contextStart 2)
      [.deleteItem 8 [], .reclaim [poolOf [1] (by decide)]]).map Prod.snd = some [8] := by decide +kernel
  obtain ⟨s, hs, hret⟩ := Option.map_eq_some_iff.mp hrun
  have hreach := System.runIf_reachableBy (fun _ _ h => of_decide_eq_true h) (.init contextStart_init) hs
  exact ⟨s, hreach, hret, (context_tidy 2 (by decide) (by decide) s hreach).1⟩

/-- **A direct `reclaim` of a partly filled array.** One item in an array of
four, held by a slot: the three null entries are reclaimed, `del_index`
wraps round, and the next `delete_item` fails its assertion. -/
theorem context_reclaims_null :
    ∃ s, (contextRuns 4).Reachable s ∧ s.2 = [8] ∧ s.1.reclaimed = [(0, [8]), (0, [8]), (0, [8])] ∧
      s.1.delIndex = 2 ^ 64 - 2 ∧ (s.1.deleteItem 16).toOption.isNone := by
  have hrun : ((contextRuns 4).run (contextStart 4) [.deleteItem 8 [], .reclaim [poolOf [8] (by decide)]]).map
      (fun s => (s.2, s.1.reclaimed, s.1.delIndex, (s.1.deleteItem 16).toOption.isNone)) =
        some ([8], [(0, [8]), (0, [8]), (0, [8])], 2 ^ 64 - 2, true) := by
    decide +kernel
  obtain ⟨s, hs, hfacts⟩ := Option.map_eq_some_iff.mp hrun
  simp only [Prod.mk.injEq] at hfacts
  exact ⟨s, System.run_reachable (.init contextStart_init) hs, hfacts⟩

end Hazard

end SplitOrder
