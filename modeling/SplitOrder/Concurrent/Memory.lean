/-
The memory of the concurrent list.

`h.Mesh l r` is what ties the mark bit to reachability: `l` is the chain, in
key order, and `r` the nodes that were unlinked from it. A node of `r` is
marked and leads on, by larger keys, to nodes of `l` and `r` only; so a
published node with no mark is on the chain, and a `CAS` that succeeds on
it works on the chain. The lemmas are what each write of the program does.
-/
import SplitOrder.Concurrent.Model

namespace SplitOrder

variable {T : Type}

namespace Heap

structure Mesh (h : Heap T) (l r : List Addr) : Prop where
  seg : Seg h.nextOf l.head? l none
  sorted : l.Pairwise fun a b => h.key a < h.key b
  nodup : (l ++ r).Nodup
  lt : ∀ a ∈ l ++ r, a < h.size
  keyed : ∀ a ∈ l ++ r, (h.node a).WellKeyed
  next : ∀ a ∈ r, ∀ b, h.nextOf a = some b → b ∈ l ++ r ∧ h.key a < h.key b
  marked : ∀ a ∈ l ++ r, (h.node a).next.mark = true → h.isData a = true
  removed : ∀ a ∈ r, (h.node a).next.mark = true
  live : ∀ a ∈ l, a ∉ h.deleted
  deletedLt : ∀ a ∈ h.deleted, a < h.size

/-- A node that is made and not linked. -/
structure Private (h : Heap T) (l r : List Addr) (d : Addr) : Prop where
  lt : d < h.size
  notMem : d ∉ l ++ r
  notDeleted : d ∉ h.deleted
  unmarked : (h.node d).next.mark = false

theorem setNext_self {h : Heap T} {a : Addr} : h.setNext a (h.node a).next = h := by
  simp [setNext, Function.update_eq_self]

theorem nextOf_eq {h : Heap T} {a : Addr} {m : MarkPtr Addr} (hm : (h.node a).next = m) : h.nextOf a = m.ptr := by
  rw [nextOf, hm]

/-- An unmarked pointer is what it points to. -/
theorem next_eq_of_unmarked {h : Heap T} {a : Addr} (hm : (h.node a).next.mark = false) :
    (h.node a).next = { ptr := h.nextOf a } := by
  cases hn : (h.node a).next
  simp_all [nextOf]

namespace Mesh

variable {h : Heap T} {l r A B : List Addr} {a b c d n : Addr}

theorem mem_of_unmarked (hm : h.Mesh l r) (ha : a ∈ l ++ r) (hu : (h.node a).next.mark = false) : a ∈ l := by
  rcases List.mem_append.mp ha with h' | h'
  · exact h'
  · rw [hm.removed a h'] at hu
    cases hu

theorem notMem_removed (hm : h.Mesh l r) (ha : a ∈ l) : a ∉ r := fun hr =>
  (List.nodup_append.mp hm.nodup).2.2 a ha a hr rfl

theorem dummy_mem (hm : h.Mesh l r) (ha : a ∈ l ++ r) (hd : h.isData a = false) : a ∈ l := by
  rcases List.mem_append.mp ha with h' | h'
  · exact h'
  · rw [hm.marked a ha (hm.removed a h')] at hd
    cases hd

theorem lt_of_mem_right (hm : h.Mesh (A ++ a :: B) r) (hb : b ∈ B) : h.key a < h.key b :=
  (List.pairwise_cons.mp (List.pairwise_append.mp hm.sorted).2.1).1 b hb

/-- The next pointer of a published node leads to a published node with a larger key. -/
theorem next_mem (hm : h.Mesh l r) (ha : a ∈ l ++ r) (hb : h.nextOf a = some b) :
    b ∈ l ++ r ∧ h.key a < h.key b := by
  rcases List.mem_append.mp ha with h' | h'
  · obtain ⟨A, B, rfl⟩ := List.append_of_mem h'
    rw [hm.seg.next] at hb
    have hbB := List.mem_of_head? hb
    exact ⟨by simp [hbB], hm.lt_of_mem_right hbB⟩
  · exact hm.next a h' b hb

theorem key_data (hm : h.Mesh l r) (ha : a ∈ l ++ r) (hd : h.isData a = true) :
    h.key a = solNodeKey (h.node a).hashv := by
  obtain ⟨v, hv⟩ := Option.isSome_iff_exists.mp hd
  have := (hm.keyed a ha).2
  rwa [hv] at this

theorem key_dummy (hm : h.Mesh l r) (ha : a ∈ l ++ r) (hd : h.isData a = false) :
    h.key a = reverseHashtBits (h.node a).hashv := by
  have := (hm.keyed a ha).2
  rwa [isData_eq_false_iff.mp hd] at this

/-- Two nodes of the chain with one key are one node. -/
theorem eq_of_key_eq (hm : h.Mesh l r) (ha : a ∈ l) (hb : b ∈ l) (hk : h.key a = h.key b) : a = b := by
  obtain ⟨A, B, rfl⟩ := List.append_of_mem ha
  simp only [List.mem_append, List.mem_cons] at hb
  rcases hb with hb | rfl | hb
  · have := (List.pairwise_append.mp hm.sorted).2.2 b hb a (by simp)
    rw [hk] at this
    exact absurd this (BitVec.lt_irrefl _)
  · rfl
  · have := hm.lt_of_mem_right hb
    rw [hk] at this
    exact absurd this (BitVec.lt_irrefl _)

/-- A published node whose key is a bucket key is a dummy. -/
theorem dummy_of_key (hm : h.Mesh l r) (ha : a ∈ l ++ r) {slot : Hash} (hs : slot.toNat < 2 ^ 31)
    (hk : h.key a = reverseHashtBits slot) : h.isData a = false ∧ (h.node a).hashv = slot := by
  cases hd : h.isData a with
  | true =>
    rw [hm.key_data ha hd] at hk
    exact absurd hk (solNodeKey_ne hs)
  | false =>
    rw [hm.key_dummy ha hd] at hk
    exact ⟨rfl, reverseHashtBits_inj.mp hk⟩

theorem data_of_key (hm : h.Mesh l r) (ha : a ∈ l ++ r) {hashv : Hash} (hh : hashv.toNat < 2 ^ 31)
    (hk : h.key a = solNodeKey hashv) : h.isData a = true ∧ (h.node a).hashv = hashv := by
  cases hd : h.isData a with
  | true =>
    rw [hm.key_data ha hd] at hk
    exact ⟨rfl, (solNodeKey_inj (hm.keyed a ha).1 hh).mp hk⟩
  | false =>
    rw [hm.key_dummy ha hd] at hk
    exact absurd hk.symm (solNodeKey_ne (hm.keyed a ha).1)

/-- A published node points to no private one. -/
theorem next_ne_private (hm : h.Mesh l r) (hd : h.Private l r d) (ha : a ∈ l ++ r) : h.nextOf a ≠ some d := fun hn =>
  hd.notMem (hm.next_mem ha hn).1

/-! ## Writes -/

theorem new {m : Node T} (hm : h.Mesh l r) : (h.new m).Mesh l r := by
  have hnode : ∀ a ∈ l ++ r, (h.new m).node a = h.node a := fun a ha => new_node_of_lt (hm.lt a ha)
  have hl : ∀ a ∈ l, (h.new m).node a = h.node a := fun a ha => hnode a (by simp [ha])
  have hr : ∀ a ∈ r, (h.new m).node a = h.node a := fun a ha => hnode a (by simp [ha])
  refine ⟨hm.seg.congr fun a ha => by simp [nextOf, hl a ha], hm.sorted.imp_of_mem fun ha hb hab => ?_, hm.nodup,
    fun a ha => Nat.lt_succ_of_lt (hm.lt a ha), fun a ha => ?_, fun a ha b hb => ?_, fun a ha => ?_, fun a ha => ?_,
    hm.live, fun a ha => Nat.lt_succ_of_lt (hm.deletedLt a ha)⟩
  · simpa [key, hl _ ha, hl _ hb] using hab
  · rw [hnode a ha]
    exact hm.keyed a ha
  · rw [nextOf, hr a ha] at hb
    obtain ⟨h1, h2⟩ := hm.next a ha b hb
    exact ⟨h1, by simpa [key, hr a ha, hnode b h1] using h2⟩
  · simp only [isData, hnode a ha]
    exact hm.marked a ha
  · rw [hr a ha]
    exact hm.removed a ha

/-- Writing a node that is not published. -/
theorem setPrivate {m : MarkPtr Addr} (hm : h.Mesh l r) (hd : d ∉ l ++ r) : (h.setNext d m).Mesh l r := by
  have hne : ∀ a ∈ l ++ r, a ≠ d := fun a ha he => hd (he ▸ ha)
  refine ⟨?_, by simpa [key] using hm.sorted, hm.nodup, hm.lt,
    fun a ha => by simpa [Node.WellKeyed] using hm.keyed a ha,
    fun a ha b hb => ?_, fun a ha => ?_, fun a ha => ?_, hm.live, hm.deletedLt⟩
  · rw [setNext_nextOf, Seg.update_of_notMem fun h => hd (by simp [h])]
    exact hm.seg
  · rw [nextOf, setNext_node_of_ne (hne a (by simp [ha]))] at hb
    simpa [key] using hm.next a ha b hb
  · rw [setNext_node_of_ne (hne a ha), isData_setNext]
    exact hm.marked a ha
  · rw [setNext_node_of_ne (hne a (by simp [ha]))]
    exact hm.removed a ha

theorem delete (hm : h.Mesh l r) (hd : d ∉ l) (hlt : d < h.size) : (h.delete d).Mesh l r := by
  refine ⟨hm.seg, hm.sorted, hm.nodup, hm.lt, hm.keyed, hm.next, hm.marked, hm.removed, fun a ha => ?_,
    fun a ha => ?_⟩
  · simp only [delete_deleted, List.mem_append, List.mem_singleton, not_or]
    exact ⟨hm.live a ha, fun he => hd (he ▸ ha)⟩
  · simp only [delete_deleted, List.mem_append, List.mem_singleton] at ha
    rcases ha with ha | rfl
    · exact hm.deletedLt a ha
    · exact hlt

/-- **Marking** a data node. -/
theorem mark (hm : h.Mesh l r) (hd : h.isData c = true) :
    (h.setNext c { ptr := h.nextOf c, mark := true }).Mesh l r := by
  have hnx : (h.setNext c { ptr := h.nextOf c, mark := true }).nextOf = h.nextOf := by
    rw [setNext_nextOf, Function.update_eq_self]
  refine ⟨?_, by simpa [key] using hm.sorted, hm.nodup, hm.lt,
    fun a ha => by simpa [Node.WellKeyed] using hm.keyed a ha,
    fun a ha b hb => ?_, fun a ha hma => ?_, fun a ha => ?_, hm.live, hm.deletedLt⟩
  · rw [hnx]
    exact hm.seg
  · rw [hnx] at hb
    simpa [key] using hm.next a ha b hb
  · rw [isData_setNext]
    by_cases hac : a = c
    · rw [hac, hd]
    · rw [setNext_node_of_ne hac] at hma
      exact hm.marked a ha hma
  · by_cases hac : a = c
    · simp [hac]
    · rw [setNext_node_of_ne hac]
      exact hm.removed a ha

/-- **Linking** the private node `n` in after `c`. -/
theorem link (hm : h.Mesh (A ++ c :: B) r) (hn : h.Private (A ++ c :: B) r n) (hk : (h.node n).WellKeyed)
    (hnx : (h.node n).next = { ptr := B.head? }) (hlt : h.key c < h.key n)
    (hgt : ∀ b, B.head? = some b → h.key n < h.key b) :
    (h.setNext c { ptr := some n }).Mesh (A ++ c :: n :: B) r := by
  have hnl : n ∉ A ++ c :: B := fun h' => hn.notMem (by simp only [List.mem_append] at h' ⊢; exact .inl h')
  have hne : n ≠ c := fun he => hnl (by simp [he])
  have hmem : ∀ a, a ∈ (A ++ c :: n :: B) ++ r ↔ a = n ∨ a ∈ (A ++ c :: B) ++ r := by
    intro a
    simp only [List.mem_append, List.mem_cons]
    tauto
  have hcr : ∀ a ∈ r, a ≠ c := fun a ha he => hm.notMem_removed (a := c) (by simp) (he ▸ ha)
  have hBgt : ∀ b ∈ B, h.key n < h.key b := by
    intro b hb
    cases B with
    | nil => cases hb
    | cons x B =>
      have hx := hgt x rfl
      rcases List.mem_cons.mp hb with rfl | hb
      · exact hx
      · rw [List.append_cons] at hm
        exact BitVec.lt_trans hx (hm.lt_of_mem_right hb)
  refine ⟨?_, ?_, ?_, fun a ha => ?_, fun a ha => ?_, fun a ha b hb => ?_, fun a ha hma => ?_, fun a ha => ?_,
    fun a ha => ?_, hm.deletedLt⟩
  · rw [setNext_nextOf, Chain.head?_append_cons A c (n :: B) B]
    refine Seg.insert hm.seg (List.nodup_append.mp hm.nodup).1 hnl ?_
    rw [hm.seg.next, nextOf, hnx]
  · have hs := hm.sorted
    simp only [key, setNext_node_key] at hs hlt hBgt ⊢
    simp only [List.pairwise_append, List.pairwise_cons, List.mem_cons] at hs ⊢
    refine ⟨hs.1, ⟨?_, hBgt, hs.2.1.2⟩, ?_⟩
    · rintro b (rfl | hb)
      · exact hlt
      · exact hs.2.1.1 b hb
    · rintro a ha b (rfl | rfl | hb)
      · exact hs.2.2 a ha b (.inl rfl)
      · exact BitVec.lt_trans (hs.2.2 a ha c (.inl rfl)) hlt
      · exact hs.2.2 a ha b (.inr hb)
  · have hperm : ((A ++ c :: n :: B) ++ r).Perm (n :: ((A ++ c :: B) ++ r)) := by
      rw [List.perm_iff_count]
      intro a
      simp only [List.count_append, List.count_cons]
      omega
    exact hperm.nodup_iff.mpr (List.nodup_cons.mpr ⟨hn.notMem, hm.nodup⟩)
  · rcases (hmem a).mp ha with rfl | ha
    · exact hn.lt
    · exact hm.lt a ha
  · rcases (hmem a).mp ha with rfl | ha
    · simpa [Node.WellKeyed] using hk
    · simpa [Node.WellKeyed] using hm.keyed a ha
  · rw [nextOf, setNext_node_of_ne (hcr a ha)] at hb
    obtain ⟨h1, h2⟩ := hm.next a ha b hb
    exact ⟨(hmem b).mpr (.inr h1), by simpa [key] using h2⟩
  · rw [isData_setNext]
    by_cases hac : a = c
    · subst hac
      simp at hma
    · rw [setNext_node_of_ne hac] at hma
      rcases (hmem a).mp ha with rfl | ha
      · rw [hn.unmarked] at hma
        cases hma
      · exact hm.marked a ha hma
  · rw [setNext_node_of_ne (hcr a ha)]
    exact hm.removed a ha
  · simp only [List.mem_append, List.mem_cons] at ha
    rcases ha with ha | rfl | rfl | ha
    · exact hm.live a (by simp [ha])
    · exact hm.live a (by simp)
    · exact hn.notDeleted
    · exact hm.live a (by simp [ha])

/-- **Unlinking** the marked node `d` after `c`. -/
theorem unlink (hm : h.Mesh (A ++ c :: d :: B) r) (hmk : (h.node d).next.mark = true) :
    (h.setNext c { ptr := B.head? }).Mesh (A ++ c :: B) (r ++ [d]) := by
  have hnd := (List.nodup_append.mp hm.nodup).1
  have hmem : ∀ a, a ∈ (A ++ c :: B) ++ (r ++ [d]) ↔ a ∈ (A ++ c :: d :: B) ++ r := by
    intro a
    simp only [List.mem_append, List.mem_cons, List.not_mem_nil, or_false]
    tauto
  have hsub : ∀ a ∈ A ++ c :: B, a ∈ A ++ c :: d :: B := by
    intro a ha
    simp only [List.mem_append, List.mem_cons] at ha ⊢
    tauto
  have hcr : ∀ a ∈ r, a ≠ c := fun a ha he => hm.notMem_removed (a := c) (by simp) (he ▸ ha)
  have hdc : d ≠ c := by
    rintro rfl
    simp [List.nodup_append] at hnd
  have hd : h.nextOf d = B.head? := by
    have := hm.seg
    rw [List.append_cons] at this
    exact this.next
  refine ⟨?_, ?_, ?_, fun a ha => hm.lt a ((hmem a).mp ha), fun a ha => ?_, fun a ha b hb => ?_, fun a ha hma => ?_,
    fun a ha => ?_, fun a ha => hm.live a (hsub a ha), hm.deletedLt⟩
  · rw [setNext_nextOf, Chain.head?_append_cons A c B (d :: B)]
    have := hm.seg.remove hnd
    rwa [hd] at this
  · have hs := hm.sorted
    simp only [key, setNext_node_key] at hs ⊢
    exact hs.sublist (by simp)
  · have hperm : ((A ++ c :: B) ++ (r ++ [d])).Perm ((A ++ c :: d :: B) ++ r) := by
      rw [List.perm_iff_count]
      intro a
      simp only [List.count_append, List.count_cons, List.count_nil]
      omega
    exact hperm.nodup_iff.mpr hm.nodup
  · simpa [Node.WellKeyed] using hm.keyed a ((hmem a).mp ha)
  · rw [hmem]
    simp only [key, setNext_node_key]
    rcases List.mem_append.mp ha with ha | ha
    · rw [nextOf, setNext_node_of_ne (hcr a ha)] at hb
      exact hm.next a ha b hb
    · rw [List.mem_singleton.mp ha] at hb ⊢
      rw [nextOf, setNext_node_of_ne hdc] at hb
      exact hm.next_mem (by simp) hb
  · rw [isData_setNext]
    by_cases hac : a = c
    · subst hac
      simp at hma
    · rw [setNext_node_of_ne hac] at hma
      exact hm.marked a ((hmem a).mp ha) hma
  · rcases List.mem_append.mp ha with ha | ha
    · rw [setNext_node_of_ne (hcr a ha)]
      exact hm.removed a ha
    · rw [List.mem_singleton.mp ha, setNext_node_of_ne hdc]
      exact hmk

end Mesh

end Heap

end SplitOrder
