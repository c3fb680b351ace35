/-
What the parts of a call do to the bindings of a list.

The lemmas about whole calls are for lists with no node lost. Here nodes
may be made and not linked, as a call that throws leaves them: the list
binds what its chain does, and linking an item adds one binding, unlinking
it takes that away, and creating buckets changes none.
-/
import SplitOrder.Solist.Guarantee

namespace SplitOrder

open Heap

variable {T : Type}

namespace Solist

variable {s s' : Solist T} {l p A B : List Addr} {hashv k : Hash} {v w : T} {n c : Addr}

theorem Inv.binds_iff (hi : s.Inv l p) :
    s.Binds hashv v ↔ ∃ x ∈ l, (s.heap.node x).hashv = hashv ∧ (s.heap.node x).payload = some v := by
  rw [Binds, hi.nodes_eq]

theorem SameItems.binds_iff {l' : List Addr} (h : SameItems s l p s' l') (hi : s.Inv l p) :
    s'.Binds hashv v ↔ s.Binds hashv v := by
  have hdata : ∀ {t : Solist T} {x : Addr}, (t.heap.node x).payload = some v → t.heap.isData x = true :=
    fun hp => by simp [isData, hp]
  rw [hi.binds_iff, h.inv.binds_iff]
  constructor
  · intro hb
    obtain ⟨x, hx, hv, hp⟩ := hb
    have hxl := (h.mem_data_iff.mp ⟨hx, hdata hp⟩).1
    have hlt := (hi.chain.live hxl).1
    exact ⟨x, hxl, by rw [← h.ext.hashv x hlt, hv], by rw [← h.ext.payload x hlt, hp]⟩
  · intro hb
    obtain ⟨x, hx, hv, hp⟩ := hb
    have hlt := (hi.chain.live hx).1
    exact ⟨x, (h.mem_data_iff.mpr ⟨hx, hdata hp⟩).1, by rw [h.ext.hashv x hlt, hv], by rw [h.ext.payload x hlt, hp]⟩

/-- The list binds what the map does. -/
def Maps (s : Solist T) (m : Hash → Option T) : Prop := ∀ hashv v, s.Binds hashv v ↔ m hashv = some v

theorem Maps.holds_iff {m : Hash → Option T} (hm : s.Maps m) (hi : s.Inv l p) : s.Holds l hashv ↔ (m hashv).isSome := by
  rw [← hi.nodes_eq, ← exists_binds_iff, Option.isSome_iff_exists]
  exact exists_congr fun v => hm hashv v

theorem SameItems.maps {l' : List Addr} {m : Hash → Option T} (h : SameItems s l p s' l') (hi : s.Inv l p)
    (hm : s.Maps m) : s'.Maps m := fun hashv v => (h.binds_iff hi).trans (hm hashv v)

/-- A node made and not linked binds nothing. -/
theorem Inv.maps_new {b : Node T} {m : Hash → Option T} (hi : s.Inv l p) (hm : s.Maps m) :
    Maps { s with heap := s.heap.new b } m := by
  intro hashv v
  rw [← hm, hi.binds_iff, hi.new.binds_iff]
  refine exists_congr fun x => and_congr_right fun hx => ?_
  rw [new_node_of_lt (hi.chain.live hx).1]

/-- Nor does deleting it change anything. -/
theorem Inv.maps_discard {m : Hash → Option T} (hi : s.Inv l (n :: p)) (hm : s.Maps m) :
    Maps { s with heap := s.heap.delete n } m := by
  intro hashv v
  rw [← hm, hi.binds_iff, hi.discard.binds_iff]
  exact Iff.rfl

/-- Linking an item binds its hash. -/
theorem linkItem_maps {m : Hash → Option T} (hi : s.Inv (A ++ c :: B) (n :: p))
    (hinv : (s.linkItem n c B.head?).Inv (A ++ c :: n :: B) p) (hv : (s.heap.node n).hashv = hashv)
    (hp : (s.heap.node n).payload = some v) (hm : s.Maps m) (habs : m hashv = none) :
    (s.linkItem n c B.head?).Maps (Function.update m hashv (some v)) := by
  have hnode : ∀ x, ((s.linkItem n c B.head?).heap.node x).hashv = (s.heap.node x).hashv ∧
      ((s.linkItem n c B.head?).heap.node x).payload = (s.heap.node x).payload := fun x => by
    simp [linkItem, incItemCount]
  intro k w
  have hold := hm k w
  rw [hi.binds_iff] at hold
  rw [hinv.binds_iff]
  by_cases hk : k = hashv
  · subst hk
    rw [Function.update_self]
    constructor
    · intro h
      obtain ⟨x, hx, hxv, hxp⟩ := h
      rw [(hnode x).1] at hxv
      rw [(hnode x).2] at hxp
      by_cases hxn : x = n
      · rw [hxn, hp] at hxp
        exact hxp
      · -- the hash was absent
        have hmem : x ∈ A ++ c :: B := by
          simp only [List.mem_append, List.mem_cons] at hx ⊢
          tauto
        rw [hold.mp ⟨x, hmem, hxv, hxp⟩] at habs
        cases habs
    · intro h
      exact ⟨n, by simp, (hnode n).1.trans hv, (hnode n).2.trans (hp.trans h)⟩
  · rw [Function.update_of_ne hk, ← hold]
    constructor
    · intro h
      obtain ⟨x, hx, hxv, hxp⟩ := h
      rw [(hnode x).1] at hxv
      rw [(hnode x).2] at hxp
      refine ⟨x, ?_, hxv, hxp⟩
      simp only [List.mem_append, List.mem_cons] at hx ⊢
      rcases hx with hx | rfl | rfl | hx
      · exact .inl hx
      · exact .inr (.inl rfl)
      · exact absurd (hxv.symm.trans hv) hk
      · exact .inr (.inr hx)
    · intro h
      obtain ⟨x, hx, hxv, hxp⟩ := h
      refine ⟨x, ?_, (hnode x).1.trans hxv, (hnode x).2.trans hxp⟩
      simp only [List.mem_append, List.mem_cons] at hx ⊢
      tauto

/-- Taking an item out unbinds its hash. -/
theorem removeItem_maps {m : Hash → Option T} (hi : s.Inv (A ++ c :: n :: B) p) (hd : s.heap.isData n = true)
    (hv : (s.heap.node n).hashv = hashv) (hm : s.Maps m) :
    (s.removeItem n c B.head?).Maps (Function.update m hashv none) := by
  have hnode : ∀ x, ((s.removeItem n c B.head?).heap.node x).hashv = (s.heap.node x).hashv ∧
      ((s.removeItem n c B.head?).heap.node x).payload = (s.heap.node x).payload := fun x => by
    simp [removeItem, decItemCount]
  intro k w
  rw [(removeItem_inv hi hd).binds_iff]
  simp only [hnode, mem_without hi]
  by_cases hk : k = hashv
  · subst hk
    rw [Function.update_self]
    refine iff_of_false (fun h => ?_) fun h => by cases h
    obtain ⟨x, ⟨hne, hx⟩, hxv, hxp⟩ := h
    have hc := hi.chain
    have hxd : s.heap.isData x = true := by simp [isData, hxp]
    refine hne (hc.eq_of_key_eq hx (by simp) ?_)
    rw [hc.key_data hx hxd, hc.key_data (by simp) hd, hxv, hv]
  · rw [Function.update_of_ne hk, ← hm, hi.binds_iff]
    refine exists_congr fun x => ?_
    constructor
    · intro h
      exact ⟨h.1.2, h.2⟩
    · intro h
      exact ⟨⟨fun hx => hk (h.2.1.symm.trans (hx ▸ hv)), h.1⟩, h.2⟩

/-- `~solist` deletes the nodes of the chain, and none that is lost. -/
theorem Inv.destroy_deletes (hi : s.Inv l p) : ∃ h, s.destroy = .ok h ∧ h.deleted = s.heap.deleted ++ l := by
  obtain ⟨b, hb⟩ := hi.first
  obtain ⟨B, rfl⟩ : ∃ B, l = b :: B := List.head?_eq_some_iff.mp (hi.head hb)
  obtain ⟨h, hrun, -, hdel⟩ := destroyLoop_spec (b :: B) s.heap s.fuel (some b) hi.chain.seg hi.chain.nodup
    (fun x hx => hi.chain.live hx) (Nat.lt_succ_of_le hi.chain.length_le)
  refine ⟨h, ?_, hdel⟩
  have hb0 : s.bucket 0 = .ok (some b) := bucket_ok hb
  rw [destroy, hb0]
  exact hrun

end Solist

/-- A list binds what its map does. -/
theorem Represents.binds_iff {s : Solist T} {m : ItemMap T} {l : List Addr} (hr : Represents s m l) {hashv : Hash}
    {v : T} : s.Binds hashv v ↔ (m.item hashv).map Prod.snd = some v := by
  rw [hr.inv.binds_iff, Option.map_eq_some_iff]
  constructor
  · intro h
    obtain ⟨x, hx, hv, hp⟩ := h
    exact ⟨(x, v), (hr.item hashv x v).mpr ⟨hx, hv, hp⟩, rfl⟩
  · intro h
    obtain ⟨⟨x, w⟩, hm, rfl⟩ := h
    exact ⟨x, (hr.item hashv x w).mp hm⟩

end SplitOrder
