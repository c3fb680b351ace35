/-
What a split-ordered list looks like between two calls.

`WellFormed` reads the list as the source holds it: the table, the links,
the keys, the counter and the nodes ever allocated. It follows from the
invariant the calls are proved with, in every state a run of calls reaches.
-/
import SplitOrder.Solist.FiniteMap

namespace SplitOrder

open Heap

variable {T : Type}

/-- The list between two calls, with the nodes `l` of its chain. -/
structure WellFormed (s : Solist T) (l : List Addr) : Prop where
  nBuckets : ∃ k, s.nBuckets.toNat = 2 ^ k
  size : s.buckets.length = s.nBuckets.toNat
  chain : ∃ b, s.buckets[0]? = some (some b) ∧ Seg s.heap.nextOf (some b) l none
  unmarked : ∀ a ∈ l, (s.heap.node a).next.mark = false
  sorted : l.Pairwise fun a b => s.heap.key a < s.heap.key b
  slot : ∀ (i : Hash) a, s.buckets[i.toNat]? = some (some a) →
    a ∈ l ∧ (s.heap.node a).payload = none ∧ (s.heap.node a).hashv = i ∧ solBucketKey i = .ok (s.heap.key a)
  dummy : ∀ a ∈ l, (s.heap.node a).payload = none →
    ∃! i : Hash, i < s.nBuckets ∧ s.buckets[i.toNat]? = some (some a)
  data : ∀ a ∈ l, (s.heap.node a).payload.isSome → s.heap.key a = solNodeKey (s.heap.node a).hashv
  items : s.nItems.toNat = l.countP s.heap.isData
  owned : ∀ a < s.heap.size, (l ++ s.heap.deleted).count a = 1
  entryLive : ∀ (i : Nat) a, s.buckets[i]? = some (some a) → a < s.heap.size ∧ a ∉ s.heap.deleted
  linkLive : ∀ a ∈ l, ∀ b, s.heap.nextOf a = some b → b < s.heap.size ∧ b ∉ s.heap.deleted
  destroyed : ∃ h, s.destroy = .ok h ∧ h.deleted = s.heap.deleted ++ l ∧ ∀ a < h.size, h.deleted.count a = 1

theorem count_range {n a : Nat} (ha : a < n) : (List.range n).count a = 1 :=
  List.count_eq_one_of_mem List.nodup_range (List.mem_range.mpr ha)

theorem Solist.Inv.wellFormed {s : Solist T} {l : List Addr} (hi : s.Inv l []) : WellFormed s l := by
  obtain ⟨b, hb⟩ := hi.first
  have hslot : ∀ (i : Hash) a, s.buckets[i.toNat]? = some (some a) → (s.heap.node a).hashv = i := fun i a h =>
    BitVec.eq_of_toNat_eq (hi.slot _ a h).2.2
  have howned : (l ++ s.heap.deleted).Perm (List.range s.heap.size) := by simpa using hi.chain.owned
  refine ⟨?_, hi.size, ⟨b, hb, ?_⟩, hi.chain.unmarked, hi.chain.sorted, fun i a h => ?_, fun a ha hd => ?_,
    fun a ha hd => hi.chain.key_data ha hd, hi.nItems_toNat, fun a ha => ?_,
      fun i a h => hi.chain.live (hi.slot i a h).1,
    fun a ha c hc => ?_, ?_⟩
  · obtain ⟨k, -, hk⟩ := hi.nBuckets
    exact ⟨k, hk⟩
  · rw [← hi.head hb]
    exact hi.chain.seg
  · obtain ⟨hal, hd, -⟩ := hi.slot _ a h
    refine ⟨hal, isData_eq_false_iff.mp hd, hslot i a h, ?_⟩
    rw [solBucketKey_eq_ok_iff, hi.key_slot h, ← hslot i a h]
    exact ⟨hi.chain.hashv_lt hal, rfl⟩
  · have h := hi.dummy a ha (isData_eq_false_iff.mpr hd)
    have hlt : (s.heap.node a).hashv.toNat < s.buckets.length := (List.getElem?_eq_some_iff.mp h).1
    rw [hi.size] at hlt
    exact ⟨(s.heap.node a).hashv, ⟨hlt, h⟩, fun i hi => (hslot i a hi.2).symm⟩
  · rw [howned.count_eq, count_range ha]
  · obtain ⟨A, B, rfl⟩ := List.append_of_mem ha
    rw [hi.chain.seg.next] at hc
    exact hi.chain.live (by simp [List.mem_of_head? hc])
  · obtain ⟨h, hrun, hdel, hperm⟩ := hi.destroy_spec
    exact ⟨h, hrun, hdel, fun a ha => by rw [hperm.count_eq, count_range ha]⟩

/-- **Every state between calls is well formed**, on a fresh list of any power of two of slots. -/
theorem solist_wellFormed (size bucketLength : Hash) (hsize : ∃ k ≤ 31, size.toNat = 2 ^ k) :
    ∀ (s : Session T) (hist : List (Record T)), (sessions T size bucketLength).Reachable (s, hist) →
      ∃ l, WellFormed s.list l := by
  intro s hist h
  obtain ⟨m, l, -, hr⟩ := sessions_represents hsize h
  exact ⟨l, hr.inv.wellFormed⟩

theorem solist_wellFormed_two :
    ∃ s hist l, (sessions Nat 2 4).Reachable (s, hist) ∧
      hist.map Record.op = [.insertNode 5 7, .findItemNode 5] ∧ WellFormed s.list l := by
  obtain ⟨s, hist, hreach, hops⟩ := twoCalls_reachable
  obtain ⟨l, hl⟩ := solist_wellFormed (T := Nat) 2 4 ⟨1, by decide, rfl⟩ s hist hreach
  exact ⟨s, hist, l, hreach, hops, hl⟩

end SplitOrder
