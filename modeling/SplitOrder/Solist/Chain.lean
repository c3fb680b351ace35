/-
The chain of a split-ordered list, as the heap holds it.

`h.Chain l p` says that the nodes `l` are linked in that order, by unmarked
pointers and strictly increasing keys, each with the key its kind and hash
give it, and that every node ever allocated is on `l`, or is one of the
nodes `p` a call in progress has made and not linked, or has been deleted,
and only once (`owned`). The lemmas are what allocating, linking, unlinking
and deleting a node do to it.
-/
import Mathlib.Data.List.Perm.Basic
import Mathlib.Data.List.Count
import Mathlib.Data.List.Nodup
import SplitOrder.Lib.Chain
import SplitOrder.Solist.Heap

namespace SplitOrder

variable {T : Type}

/-- A node made by `solist_bucket` or `solist_node`. -/
def Node.WellKeyed (n : Node T) : Prop :=
  n.hashv.toNat < 2 ^ 31 ∧
    n.key = match n.payload with
      | none => reverseHashtBits n.hashv
      | some _ => solNodeKey n.hashv

namespace Heap

structure Chain (h : Heap T) (l p : List Addr) : Prop where
  seg : Seg h.nextOf l.head? l none
  unmarked : ∀ a ∈ l, (h.node a).next.mark = false
  sorted : l.Pairwise fun a b => h.key a < h.key b
  keyed : ∀ a ∈ l, (h.node a).WellKeyed
  owned : (l ++ p ++ h.deleted).Perm (List.range h.size)

/-- A node with a payload. -/
def isData (h : Heap T) (a : Addr) : Bool := (h.node a).payload.isSome

theorem isData_eq_false_iff {h : Heap T} {a : Addr} : h.isData a = false ↔ (h.node a).payload = none := by
  simp [isData]

@[simp] theorem isData_setNext {h : Heap T} {a : Addr} {m : MarkPtr Addr} : (h.setNext a m).isData = h.isData := by
  funext b
  simp [isData]

@[simp] theorem isData_delete {h : Heap T} {a : Addr} : (h.delete a).isData = h.isData := rfl

/-- `h'` holds every node of `h`, with its hash, key and payload. -/
structure Extends (h h' : Heap T) : Prop where
  size : h.size ≤ h'.size
  hashv : ∀ a < h.size, (h'.node a).hashv = (h.node a).hashv
  key : ∀ a < h.size, h'.key a = h.key a
  payload : ∀ a < h.size, (h'.node a).payload = (h.node a).payload

namespace Extends

variable {h h' h'' : Heap T} {a : Addr} {m : MarkPtr Addr} {n : Node T}

theorem refl (h : Heap T) : h.Extends h := ⟨Nat.le_refl _, fun _ _ => rfl, fun _ _ => rfl, fun _ _ => rfl⟩

theorem trans (h₁ : h.Extends h') (h₂ : h'.Extends h'') : h.Extends h'' where
  size := Nat.le_trans h₁.size h₂.size
  hashv a ha := (h₂.hashv a (Nat.lt_of_lt_of_le ha h₁.size)).trans (h₁.hashv a ha)
  key a ha := (h₂.key a (Nat.lt_of_lt_of_le ha h₁.size)).trans (h₁.key a ha)
  payload a ha := (h₂.payload a (Nat.lt_of_lt_of_le ha h₁.size)).trans (h₁.payload a ha)

theorem new : h.Extends (h.new n) where
  size := Nat.le_succ _
  hashv a ha := by rw [new_node_of_lt ha]
  key a ha := by simp only [Heap.key, new_node_of_lt ha]
  payload a ha := by rw [new_node_of_lt ha]

theorem setNext : h.Extends (h.setNext a m) :=
  ⟨Nat.le_refl _, fun _ _ => by simp, fun _ _ => by simp [Heap.key], fun _ _ => by simp⟩

theorem delete : h.Extends (h.delete a) := ⟨Nat.le_refl _, fun _ _ => rfl, fun _ _ => rfl, fun _ _ => rfl⟩

theorem isData (he : h.Extends h') (ha : a < h.size) : h'.isData a = h.isData a := by
  simp [Heap.isData, he.payload a ha]

end Extends

namespace Chain

variable {h : Heap T} {l p A B : List Addr} {a b c d n : Addr}

theorem hashv_lt (hc : h.Chain l p) (ha : a ∈ l) : (h.node a).hashv.toNat < 2 ^ 31 := (hc.keyed a ha).1

theorem key_data (hc : h.Chain l p) (ha : a ∈ l) (hd : h.isData a = true) :
    h.key a = solNodeKey (h.node a).hashv := by
  obtain ⟨v, hv⟩ := Option.isSome_iff_exists.mp hd
  have := (hc.keyed a ha).2
  rwa [hv] at this

theorem key_dummy (hc : h.Chain l p) (ha : a ∈ l) (hd : h.isData a = false) :
    h.key a = reverseHashtBits (h.node a).hashv := by
  have := (hc.keyed a ha).2
  rwa [isData_eq_false_iff.mp hd] at this

theorem nodup_all (hc : h.Chain l p) : (l ++ p ++ h.deleted).Nodup :=
  hc.owned.nodup_iff.mpr List.nodup_range

theorem nodup (hc : h.Chain l p) : l.Nodup := (List.nodup_append.mp (List.nodup_append.mp hc.nodup_all).1).1

theorem live (hc : h.Chain l p) (ha : a ∈ l) : h.Live a := by
  refine ⟨?_, ?_⟩
  · exact List.mem_range.mp (hc.owned.mem_iff.mp (by simp [ha]))
  · intro hd
    exact (List.nodup_append.mp hc.nodup_all).2.2 a (by simp [ha]) a hd rfl

theorem pending_live (hc : h.Chain l p) (ha : a ∈ p) : h.Live a := by
  refine ⟨?_, ?_⟩
  · exact List.mem_range.mp (hc.owned.mem_iff.mp (by simp [ha]))
  · intro hd
    exact (List.nodup_append.mp hc.nodup_all).2.2 a (by simp [ha]) a hd rfl

theorem pending_notMem (hc : h.Chain l p) (ha : a ∈ p) : a ∉ l := fun hl =>
  (List.nodup_append.mp (List.nodup_append.mp hc.nodup_all).1).2.2 a hl a ha rfl

theorem length_le (hc : h.Chain l p) : l.length ≤ h.size := by
  have := hc.owned.length_eq
  simp only [List.length_append, List.length_range] at this
  omega

theorem next_eq (hc : h.Chain (A ++ a :: B) p) : (h.node a).next = { ptr := B.head? } := by
  have h1 := hc.seg.next
  have h2 := hc.unmarked a (by simp)
  cases hm : (h.node a).next
  simp_all [nextOf]

theorem lt_of_mem_right (hc : h.Chain (A ++ a :: B) p) (hb : b ∈ B) : h.key a < h.key b :=
  (List.pairwise_cons.mp (List.pairwise_append.mp hc.sorted).2.1).1 b hb

theorem lt_of_mem_left (hc : h.Chain (A ++ a :: B) p) (hb : b ∈ A) : h.key b < h.key a :=
  (List.pairwise_append.mp hc.sorted).2.2 b hb a (by simp)

/-- Two nodes of the chain with one key are one node. -/
theorem eq_of_key_eq (hc : h.Chain l p) (ha : a ∈ l) (hb : b ∈ l) (hk : h.key a = h.key b) : a = b := by
  obtain ⟨A, B, rfl⟩ := List.append_of_mem ha
  simp only [List.mem_append, List.mem_cons] at hb
  rcases hb with hb | rfl | hb
  · exact absurd (hk ▸ hc.lt_of_mem_left hb) (BitVec.lt_irrefl _)
  · rfl
  · exact absurd (hk ▸ hc.lt_of_mem_right hb) (BitVec.lt_irrefl _)

/-- Nodes with different keys that are data nodes are fewer than `2 ^ 31`: their hashes differ. -/
theorem countP_le_of_keys (hnd : l.Nodup) (hk : ∀ a ∈ l, (h.node a).WellKeyed)
    (hinj : ∀ a ∈ l, ∀ b ∈ l, h.key a = h.key b → a = b) : l.countP h.isData ≤ 2 ^ 31 := by
  have hmem : ∀ a ∈ l.filter h.isData, a ∈ l ∧ h.key a = solNodeKey (h.node a).hashv := by
    intro a ha
    obtain ⟨hal, had⟩ := List.mem_filter.mp ha
    obtain ⟨v, hv⟩ := Option.isSome_iff_exists.mp had
    have := (hk a hal).2
    rw [hv] at this
    exact ⟨hal, this⟩
  have hnd' : ((l.filter h.isData).map fun a => (h.node a).hashv.toNat).Nodup := by
    refine List.Nodup.map_on (fun a ha b hb hab => ?_) (hnd.filter _)
    obtain ⟨hal, hak⟩ := hmem a ha
    obtain ⟨hbl, hbk⟩ := hmem b hb
    exact hinj a hal b hbl (by rw [hak, hbk, BitVec.eq_of_toNat_eq hab])
  have hsub : ((l.filter h.isData).map fun a => (h.node a).hashv.toNat) ⊆ List.range (2 ^ 31) := by
    intro x hx
    obtain ⟨a, ha, rfl⟩ := List.mem_map.mp hx
    exact List.mem_range.mpr (hk a (hmem a ha).1).1
  have hle := (List.subperm_of_subset hnd' hsub).length_le
  rwa [List.length_map, List.length_range, ← List.countP_eq_length_filter] at hle

/-! ## The operations -/

theorem new {m : Node T} (hc : h.Chain l p) : (h.new m).Chain l (h.size :: p) := by
  have hlt : ∀ a ∈ l, a < h.size := fun a ha => (hc.live ha).1
  have hnode : ∀ a ∈ l, (h.new m).node a = h.node a := fun a ha => new_node_of_lt (hlt a ha)
  refine ⟨hc.seg.congr fun a ha => ?_, fun a ha => ?_, ?_, fun a ha => ?_, ?_⟩
  · simp [nextOf, hnode a ha]
  · rw [hnode a ha]
    exact hc.unmarked a ha
  · refine hc.sorted.imp_of_mem fun ha hb hab => ?_
    simpa [key, hnode _ ha, hnode _ hb] using hab
  · rw [hnode a ha]
    exact hc.keyed a ha
  · have h1 : (h.size :: (l ++ p ++ h.deleted)).Perm (List.range (h.size + 1)) := by
      rw [List.range_succ]
      exact (hc.owned.cons _).trans (List.perm_append_singleton _ _).symm
    refine List.Perm.trans ?_ h1
    rw [List.perm_iff_count]
    intro a
    simp only [List.count_append, List.count_cons, new_deleted]
    omega

/-- Deleting a node that was never linked. -/
theorem discard (hc : h.Chain l (n :: p)) : (h.delete n).Chain l p := by
  refine ⟨hc.seg, hc.unmarked, hc.sorted, hc.keyed, List.Perm.trans ?_ hc.owned⟩
  rw [List.perm_iff_count]
  intro a
  simp only [List.count_append, List.count_cons, delete_deleted, List.count_nil]
  omega

/-- Writing the next pointer of a node that is not linked. -/
theorem setPending {m : MarkPtr Addr} (hc : h.Chain l p) (hn : n ∈ p) : (h.setNext n m).Chain l p := by
  have hne : ∀ a ∈ l, a ≠ n := fun a ha he => hc.pending_notMem hn (he ▸ ha)
  refine ⟨?_, fun a ha => ?_, ?_, fun a ha => ?_, hc.owned⟩
  · rw [setNext_nextOf, Seg.update_of_notMem (hc.pending_notMem hn)]
    exact hc.seg
  · rw [setNext_node_of_ne (hne a ha)]
    exact hc.unmarked a ha
  · simpa [key] using hc.sorted
  · rw [setNext_node_of_ne (hne a ha)]
    exact hc.keyed a ha

theorem head?_append_cons {α : Type*} (A : List α) (c : α) (B B' : List α) :
    (A ++ c :: B).head? = (A ++ c :: B').head? := by
  cases A <;> rfl

theorem keyed_setNext {m : MarkPtr Addr} (hk : (h.node a).WellKeyed) : ((h.setNext b m).node a).WellKeyed := by
  simpa [Node.WellKeyed] using hk

/-- **Linking** a node `n`, whose next pointer is set, in after `c`. -/
theorem link (hc : h.Chain (A ++ c :: B) (n :: p)) (hk : (h.node n).WellKeyed)
    (hn : (h.node n).next = { ptr := B.head? }) (hlt : h.key c < h.key n) (hgt : ∀ b ∈ B, h.key n < h.key b) :
    (h.setNext c { ptr := some n }).Chain (A ++ c :: n :: B) p := by
  have hnl : n ∉ A ++ c :: B := hc.pending_notMem (by simp)
  have hne : n ≠ c := fun he => hnl (by simp [he])
  have hmem : ∀ a, a ∈ A ++ c :: n :: B → a = n ∨ a ∈ A ++ c :: B := by
    intro a ha
    simp only [List.mem_append, List.mem_cons] at ha ⊢
    tauto
  refine ⟨?_, fun a ha => ?_, ?_, fun a ha => ?_, ?_⟩
  · rw [setNext_nextOf, head?_append_cons A c (n :: B) B]
    refine Seg.insert hc.seg hc.nodup hnl ?_
    rw [hc.seg.next, nextOf, hn]
  · by_cases hac : a = c
    · subst hac
      simp
    · rw [setNext_node_of_ne hac]
      rcases hmem a ha with rfl | ha
      · rw [hn]
      · exact hc.unmarked a ha
  · have hs := hc.sorted
    simp only [key, setNext_node_key] at hs hlt hgt ⊢
    simp only [List.pairwise_append, List.pairwise_cons, List.mem_cons] at hs ⊢
    refine ⟨hs.1, ⟨?_, hgt, hs.2.1.2⟩, ?_⟩
    · rintro b (rfl | hb)
      · exact hlt
      · exact hs.2.1.1 b hb
    · rintro a ha b (rfl | rfl | hb)
      · exact hs.2.2 a ha b (.inl rfl)
      · exact BitVec.lt_trans (hs.2.2 a ha c (.inl rfl)) hlt
      · exact hs.2.2 a ha b (.inr hb)
  · rcases hmem a ha with rfl | ha
    · exact keyed_setNext hk
    · exact keyed_setNext (hc.keyed a ha)
  · refine List.Perm.trans ?_ hc.owned
    rw [List.perm_iff_count]
    intro a
    simp only [List.count_append, List.count_cons, setNext_deleted]
    omega

/-- **Unlinking** `d`, the node after `c`: marked, taken out and deleted. -/
theorem unlink (hc : h.Chain (A ++ c :: d :: B) p) :
    (((h.setNext d { ptr := B.head?, mark := true }).setNext c { ptr := B.head? }).delete d).Chain
      (A ++ c :: B) p := by
  have hnd := hc.nodup
  have hne : ∀ a ∈ A ++ c :: B, a ≠ d := by
    rintro a ha rfl
    simp only [List.nodup_append, List.nodup_cons, List.mem_cons, not_or, List.mem_append] at hnd ha
    rcases ha with ha | rfl | ha
    · exact hnd.2.2 a ha a (.inr (.inl rfl)) rfl
    · exact hnd.2.1.1.1 rfl
    · exact hnd.2.1.2.1 ha
  have hmem : ∀ a ∈ A ++ c :: B, a ∈ A ++ c :: d :: B := by
    intro a ha
    simp only [List.mem_append, List.mem_cons] at ha ⊢
    tauto
  have hd : h.nextOf d = B.head? := by
    have := hc.seg
    rw [List.append_cons] at this
    exact this.next
  refine ⟨?_, fun a ha => ?_, ?_, fun a ha => ?_, ?_⟩
  · have hup : Function.update h.nextOf d B.head? = h.nextOf := by rw [← hd, Function.update_eq_self]
    have hnx : (((h.setNext d { ptr := B.head?, mark := true }).setNext c { ptr := B.head? }).delete d).nextOf =
        Function.update h.nextOf c (h.nextOf d) := by
      change ((h.setNext d _).setNext c _).nextOf = _
      rw [setNext_nextOf, setNext_nextOf, hup, hd]
    rw [hnx, head?_append_cons A c B (d :: B)]
    exact hc.seg.remove hnd
  · simp only [delete_node]
    by_cases hac : a = c
    · subst hac
      simp
    · rw [setNext_node_of_ne hac, setNext_node_of_ne (hne a ha)]
      exact hc.unmarked a (hmem a ha)
  · have hs := hc.sorted
    simp only [key, delete_node, setNext_node_key] at hs ⊢
    exact hs.sublist (by simp)
  · exact keyed_setNext (keyed_setNext (hc.keyed a (hmem a ha)))
  · refine List.Perm.trans ?_ hc.owned
    rw [List.perm_iff_count]
    intro a
    simp only [List.count_append, List.count_cons, delete_deleted, setNext_deleted, List.count_nil]
    omega

end Chain

end Heap

end SplitOrder
