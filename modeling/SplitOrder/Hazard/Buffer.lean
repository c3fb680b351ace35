/-
The buffer of a `hazptrs_snapshot`.

The first pass over the pools counts their slots, the second copies the
non-null ones, pool by pool, each behind the last. The values copied are at
most the slots counted, so every write is inside the buffer; `held` is what
it holds at the end.
-/
import SplitOrder.Hazard.Calls

namespace SplitOrder

namespace Hazard

/-- The non-null values in the slots of the pools, in the order they are read. -/
def held (pools : List HazptrPool) : List Ptr := itemsOf (pools.flatMap HazptrPool.hazPtrs)

theorem mem_held {pools : List HazptrPool} {v : Ptr} : v ∈ held pools ↔ v ≠ 0 ∧ ∃ pool ∈ pools, v ∈ pool.hazPtrs := by
  simp only [held, itemsOf, List.mem_filter, List.mem_flatMap, decide_eq_true_eq]
  exact And.comm

theorem itemsOf_cons_zero {ps : List Ptr} : itemsOf (0 :: ps) = itemsOf ps := by simp [itemsOf]

theorem itemsOf_cons {p : Ptr} {ps : List Ptr} (hp : p ≠ 0) : itemsOf (p :: ps) = p :: itemsOf ps := by
  simp [itemsOf, hp]

theorem itemsOf_append {ps qs : List Ptr} : itemsOf (ps ++ qs) = itemsOf ps ++ itemsOf qs := List.filter_append _ _

theorem length_itemsOf_le {ps : List Ptr} : (itemsOf ps).length ≤ ps.length := List.length_filter_le _ _

/-- One more value in its place. -/
theorem take_set_succ {buf : List Ptr} {k : Nat} {p : Ptr} (hk : k < buf.length) :
    (buf.set k p).take (k + 1) = buf.take k ++ [p] := by
  have hk' : k < (buf.set k p).length := by
    rw [List.length_set]
    exact hk
  rw [List.take_succ_eq_append_getElem hk', List.take_set_of_le (Nat.le_refl k), List.getElem_set_self]

/-- The loop of `copy_hazard_pointers` keeps what is in front of it. -/
theorem copyLoop_spec (dest : Nat) : ∀ (ps buf : List Ptr) (ixDst : Nat), dest + ixDst + ps.length ≤ buf.length →
    ∃ buf', HazptrPool.copyLoop dest ps buf ixDst = .ok (buf', ixDst + (itemsOf ps).length) ∧
      buf'.length = buf.length ∧
      buf'.take (dest + ixDst + (itemsOf ps).length) = buf.take (dest + ixDst) ++ itemsOf ps := by
  intro ps
  induction ps with
  | nil =>
    intro buf ixDst _
    exact ⟨buf, rfl, rfl, by simp [itemsOf]⟩
  | cons p ps ih =>
    intro buf ixDst hlen
    rw [List.length_cons] at hlen
    unfold HazptrPool.copyLoop
    by_cases hp : p = 0
    · subst hp
      rw [if_neg (not_not.mpr rfl), itemsOf_cons_zero]
      exact ih buf ixDst (by omega)
    · have hlt : dest + ixDst < buf.length := by omega
      rw [if_pos hp, if_pos hlt, itemsOf_cons hp]
      obtain ⟨buf', hrun, hl, ht⟩ := ih (buf.set (dest + ixDst) p) (ixDst + 1) (by rw [List.length_set]; omega)
      refine ⟨buf', ?_, by rw [hl, List.length_set], ?_⟩
      · rw [hrun, List.length_cons, Nat.add_assoc, Nat.add_comm 1]
      · rw [← Nat.add_assoc, take_set_succ hlt] at ht
        rw [List.length_cons, Nat.add_comm _ 1, ← Nat.add_assoc, ht]
        simp

/-- The second pass, from a buffer whose first `count` entries are written. -/
theorem copyPools_spec : ∀ (pools : List HazptrPool) (buf : List Ptr) (count : Nat),
    count + slotTotal pools ≤ buf.length →
    ∃ buf', copyPools pools buf count = .ok (buf', count + (held pools).length) ∧
      buf'.length = buf.length ∧ buf'.take (count + (held pools).length) = buf.take count ++ held pools := by
  intro pools
  induction pools with
  | nil =>
    intro buf count _
    exact ⟨buf, rfl, rfl, by simp [held, itemsOf]⟩
  | cons p pools ih =>
    intro buf count hlen
    have htotal : slotTotal (p :: pools) = p.count + slotTotal pools := by simp [slotTotal]
    have hsize : p.hazPtrs.length = p.count := p.size
    have hitems : (itemsOf p.hazPtrs).length ≤ p.count := hsize ▸ length_itemsOf_le
    have hheld : held (p :: pools) = itemsOf p.hazPtrs ++ held pools := by
      rw [held, List.flatMap_cons, itemsOf_append, held]
    obtain ⟨buf₁, hrun₁, hl₁, ht₁⟩ := copyLoop_spec count p.hazPtrs buf 0 (by omega)
    obtain ⟨buf₂, hrun₂, hl₂, ht₂⟩ := ih buf₁ (count + (itemsOf p.hazPtrs).length) (by omega)
    refine ⟨buf₂, ?_, by rw [hl₂, hl₁], ?_⟩
    · rw [copyPools, HazptrPool.copyHazardPointers, if_pos (Nat.le_refl _), hrun₁, bind_ok, Nat.zero_add, hrun₂, hheld,
        List.length_append, Nat.add_assoc]
    · rw [Nat.add_zero] at ht₁
      rw [hheld, List.length_append, ← Nat.add_assoc, ht₂, ht₁, List.append_assoc]

theorem length_held_le (pools : List HazptrPool) : (held pools).length ≤ slotTotal pools := by
  have hlen : (pools.flatMap HazptrPool.hazPtrs).length = slotTotal pools := by
    rw [List.length_flatMap, slotTotal]
    congr 1
    exact List.map_congr_left fun p _ => p.size
  rw [← hlen]
  exact length_itemsOf_le

/-- **The snapshot** is that of the values held. -/
theorem hazptrsSnapshot_eq {pools : List HazptrPool} {buf : List Ptr} (hbuf : buf.length = slotTotal pools) :
    hazptrsSnapshot pools buf = .ok (snapshotOf (held pools)) := by
  obtain ⟨buf', hrun, hl, ht⟩ := copyPools_spec pools buf 0 (by omega)
  rw [Nat.zero_add] at hrun ht
  have hle := length_held_le pools
  rw [hazptrsSnapshot, hrun, bind_ok, if_pos (by omega), ht, List.take_zero, List.nil_append]

theorem or_one_of_even {p : Ptr} (hp : p % 2 = 0) : p ||| 1 = p + 1 := by
  obtain ⟨m, rfl⟩ := Nat.dvd_of_mod_eq_zero hp
  have := Nat.two_pow_add_eq_or_of_lt (i := 1) (b := 1) (by omega) m
  simpa using this.symm

/-- **A snapshot is made inside its buffer and finds what the slots hold**,
marked or not, for any list of pools and whatever `new` left in the buffer. -/
theorem snapshot_finds (pools : List HazptrPool) (buf : List Ptr) (hbuf : buf.length = slotTotal pools) :
    ∃ snap, hazptrsSnapshot pools buf = .ok snap ∧
      ∀ p, p ≠ 0 → p % 2 = 0 → (search snap p = true ↔ ∃ pool ∈ pools, p ∈ pool.hazPtrs ∨ p ||| 1 ∈ pool.hazPtrs) := by
  refine ⟨_, hazptrsSnapshot_eq hbuf, fun p hp heven => ?_⟩
  rw [search_snapshotOf, or_one_of_even heven]
  constructor
  · intro h
    obtain ⟨v, hv, hvp⟩ := h
    obtain ⟨-, pool, hpool, hmem⟩ := mem_held.mp hv
    rcases (unmark_eq_iff heven).mp hvp with rfl | rfl
    · exact ⟨pool, hpool, .inl hmem⟩
    · exact ⟨pool, hpool, .inr hmem⟩
  · intro h
    obtain ⟨pool, hpool, hmem | hmem⟩ := h
    · exact ⟨p, mem_held.mpr ⟨hp, pool, hpool, hmem⟩, (unmark_eq_iff heven).mpr (.inl rfl)⟩
    · exact ⟨p + 1, mem_held.mpr ⟨Nat.succ_ne_zero p, pool, hpool, hmem⟩, (unmark_eq_iff heven).mpr (.inr rfl)⟩

/-- A pool of one-slot blocks that hold `vs` and nulls. -/
def poolOf (vs : List Ptr) (h : vs.length ≤ 32) : HazptrPool where
  blkSize := 1
  hazPtrs := vs ++ List.replicate (32 - vs.length) 0
  size := by
    rw [List.length_append, List.length_replicate]
    omega

/-- Two pools; 16 is held with its mark bit set. -/
theorem snapshot_finds_two :
    ∃ snap, hazptrsSnapshot [poolOf [0, 8, 17] (by decide), poolOf [8] (by decide)] (List.replicate 64 5) = .ok snap ∧
      search snap 16 = true := by
  obtain ⟨snap, hsnap, h⟩ := snapshot_finds [poolOf [0, 8, 17] (by decide), poolOf [8] (by decide)]
    (List.replicate 64 5) (by decide)
  exact ⟨snap, hsnap, (h 16 (by decide) (by decide)).mpr ⟨_, List.mem_cons_self, .inr (by decide)⟩⟩

end Hazard

end SplitOrder
