/-
Each step of a context or a domain keeps the retired objects in their places.
-/
import SplitOrder.Hazard.Ownership

namespace SplitOrder

namespace Hazard

/-- The invariant as one thread sees it. -/
structure Own (d : Domain) (C L : List Addr) (th : Thread) : Prop where
  shared : Seg d.next d.deleteHead C none
  priv : Seg d.next th.pc.localHead L none
  nodup : (C ++ (L ++ th.pc.newNode)).Nodup
  live : ∀ a ∈ C ++ (L ++ th.pc.newNode), d.live a = true
  ok : th.Ok d L

/-- The delete nodes and the shared list are untouched. -/
structure SameLists (d d' : Domain) : Prop where
  node : d'.node = d.node
  live : d'.live = d.live
  deleteHead : d'.deleteHead = d.deleteHead

variable {d d' : Domain} {C L : List Addr} {th th' : Thread} {pc : Pc} {k : After} {a : Addr}

theorem SameLists.refl (d : Domain) : SameLists d d := ⟨rfl, rfl, rfl⟩

theorem SameLists.next (h : SameLists d d') : d'.next = d.next := by
  funext a
  simp only [Domain.next, h.node]

theorem SameLists.payload (h : SameLists d d') : d'.payload = d.payload := by
  funext a
  simp only [Domain.payload, h.node]

theorem SameLists.ok (h : SameLists d d') (hok : th.Ok d L) : th.Ok d' L := hok.congr fun a _ => congrFun h.node a

/-- A step on which the lists do not change. -/
theorem Own.keep (h : Own d C L th) (hd : SameLists d d') {rec : List Ptr} (h1 : th'.pc.localHead = th.pc.localHead)
    (h2 : th'.pc.newNode = th.pc.newNode) (hp : (th'.holds d ++ rec).Perm (th.holds d)) (ok : th'.Ok d L) :
    Keeps d C L th { domain := d', thread := th', reclaimed := rec } C L := by
  refine ⟨?_, ?_, ?_, ?_, ?_, ?_, ?_, hd.ok ok, fun _ a ha => ⟨ha, congrFun hd.payload a⟩⟩
  · simp only [hd.next, hd.deleteHead]
    exact h.shared
  · simp only [hd.next, h1]
    exact h.priv
  · simp only [h2]
    exact h.nodup
  · simp only [h2, hd.live]
    exact h.live
  · simp only [h2]
    exact fun a ha => .inl ha
  · intro a ha _
    simp only [hd.node, hd.live]
    exact ⟨trivial, ha⟩
  · have hh : th'.holds d' = th'.holds d := Thread.holds_congr fun a _ => congrFun hd.node a
    simp only [hd.payload, hh, List.append_assoc]
    refine List.Perm.append_left _ ?_
    have hcomm : (L.map d.payload ++ rec).Perm (rec ++ L.map d.payload) := List.perm_append_comm
    refine (List.Perm.append_left _ hcomm).trans ?_
    rw [← List.append_assoc]
    exact hp.append_right _

/-- A step that only moves the thread on. -/
theorem Own.goto (h : Own d C L th) (hd : SameLists d d') (h1 : pc.localHead = th.pc.localHead)
    (h2 : pc.newNode = th.pc.newNode) (h3 : pc.skip = th.pc.skip) (h4 : pc.item = th.pc.item)
    (ok : pc.Ok th d L) : Keeps d C L th (goto d' th pc) C L := by
  refine h.keep hd h1 h2 ?_ ?_
  · have hh : (th.setPc pc).holds d = th.holds d := by
      simp only [Thread.holds, Thread.setPc, h2, h3, h4]
    rw [hh, List.append_nil]
  · cases pc <;> exact ok

/-! ## Returning from a call of the domain -/

theorem dense_zero {b : List Ptr} (h : itemsOf b = []) : Dense b 0 := by
  refine ⟨Nat.zero_le _, fun i v hv => ⟨fun hne => ?_, fun hi => by omega⟩⟩
  have hmem : v ∈ itemsOf b := by simpa [itemsOf, hne] using List.mem_of_getElem? hv
  rw [h] at hmem
  cases hmem

theorem After.resume_ok (h : k.Ok th) : (k.resume th).Ok d [] := by
  cases k with
  | done => exact h
  | reclaim =>
    obtain ⟨c, hc, hR, hlen, hitems⟩ := h
    have hd := dense_zero hitems
    simp only [After.resume, Thread.Ok, Pc.Ok, Thread.Rest, hc]
    exact ⟨hR, hlen, hd, fun h => by omega⟩
  | destroy => exact h
  | destroyed =>
    obtain ⟨c, hc, hR, hlen, hitems⟩ := h
    exact hitems
  | domain => exact h

theorem After.resume_pc : (k.resume th).pc.localHead = none ∧ (k.resume th).pc.newNode = [] ∧
    (k.resume th).holds d = itemsOf th.deleted := by
  cases k <;> exact ⟨rfl, rfl, by simp [After.resume, Thread.setPc, Thread.holds, skipped, Pc.skip, Pc.item,
    Pc.newNode]⟩

theorem After.enqueued_ok {b : Bool} (h : k.Ok th) : (k.enqueued b th).Ok d [] := by
  unfold After.enqueued
  split
  · cases k <;> exact h
  · exact After.resume_ok h

theorem After.enqueued_pc {b : Bool} : (k.enqueued b th).pc.localHead = none ∧ (k.enqueued b th).pc.newNode = [] ∧
    (k.enqueued b th).holds d = itemsOf th.deleted := by
  unfold After.enqueued
  split
  · exact ⟨rfl, rfl, by simp [Thread.setPc, Thread.holds, skipped, Pc.skip, Pc.item, Pc.newNode]⟩
  · exact After.resume_pc

theorem Own.list_nil (h : Own d C L th) (h1 : th.pc.localHead = none) : L = [] := by
  have hp := h.priv
  rw [h1] at hp
  exact Seg.det hp rfl

/-- A step that ends a call of the domain. -/
theorem Own.resume (h : Own d C L th) (hd : SameLists d d') (h1 : th.pc.localHead = none) (h2 : th.pc.newNode = [])
    (h3 : th.pc.skip = none) (h4 : th.pc.item = []) (hk : th'.Ok d [] ∧ th'.pc.localHead = none ∧ th'.pc.newNode = [] ∧
      th'.holds d = itemsOf th.deleted) : Keeps d C L th { domain := d', thread := th' } C L := by
  obtain rfl := h.list_nil h1
  obtain ⟨hok, hloc, hnew, hholds⟩ := hk
  refine h.keep hd (hloc.trans h1.symm) (hnew.trans h2.symm) ?_ hok
  rw [hholds, List.append_nil]
  simp [Thread.holds, skipped, h2, h3, h4]

/-! ## Nodes -/

namespace Domain

variable {p : Option Addr} {b : Addr} {v : Ptr}

theorem setNext_node_of_ne (h : b ≠ a) : (d.setNext a p).node b = d.node b := by simp [setNext, setNode, h]

theorem setNext_next : (d.setNext a p).next = Function.update d.next a p := by
  funext b
  by_cases h : b = a
  · subst h
    simp [Domain.next, setNext, setNode]
  · simp [Domain.next, setNext, setNode, h]

@[simp] theorem setNext_payload : (d.setNext a p).payload = d.payload := by
  funext b
  by_cases h : b = a
  · subst h
    simp [Domain.payload, setNext, setNode]
  · simp [Domain.payload, setNext, setNode, h]

theorem newNode_node_of_ne (h : b ≠ a) : (d.newNode a v).node b = d.node b := by simp [newNode, setNode, h]

theorem newNode_payload_of_ne (h : b ≠ a) : (d.newNode a v).payload b = d.payload b := by
  simp only [Domain.payload, newNode_node_of_ne h]

@[simp] theorem newNode_payload : (d.newNode a v).payload a = v := by simp [Domain.payload, newNode, setNode]

end Domain

/-- The node that is about to be pushed is on no list. -/
theorem Own.new_notMem (h : Own d C L th) (hn : th.pc.newNode = [a]) : a ∉ C ∧ a ∉ L ∧ d.live a = true := by
  have hnd := h.nodup
  rw [hn] at hnd
  refine ⟨fun ha => ?_, fun ha => ?_, h.live a (by simp [hn])⟩
  · exact (List.nodup_append.mp hnd).2.2 a ha a (by simp) rfl
  · exact (List.nodup_append.mp (List.nodup_append.mp hnd).2.1).2.2 a ha a (by simp) rfl

/-- The next pointer of the new node is set. -/
theorem Own.setNext (h : Own d C L th) (hn : th.pc.newNode = [a]) {p : Option Addr}
    (h1 : pc.localHead = th.pc.localHead)
    (h2 : pc.newNode = [a]) (h3 : pc.skip = th.pc.skip) (h4 : pc.item = th.pc.item) (ok : pc.Ok th (d.setNext a p) L) :
    Keeps d C L th (Hazard.goto (d.setNext a p) th pc) C L := by
  obtain ⟨haC, haL, -⟩ := h.new_notMem hn
  have hnode : ∀ b, b ≠ a → (d.setNext a p).node b = d.node b := fun b hb => Domain.setNext_node_of_ne hb
  refine ⟨?_, ?_, ?_, ?_, ?_, fun b hb hmem => ?_, ?_, ?_, fun _ b hb => ⟨hb, congrFun Domain.setNext_payload b⟩⟩
  · change Seg (d.setNext a p).next d.deleteHead C none
    rw [Domain.setNext_next]
    exact (Seg.update_of_notMem haC).mpr h.shared
  · change Seg (d.setNext a p).next pc.localHead L none
    rw [Domain.setNext_next, h1]
    exact (Seg.update_of_notMem haL).mpr h.priv
  · change (C ++ (L ++ pc.newNode)).Nodup
    rw [h2, ← hn]
    exact h.nodup
  · change ∀ b ∈ C ++ (L ++ pc.newNode), d.live b = true
    rw [h2, ← hn]
    exact h.live
  · change ∀ b ∈ C ++ (L ++ pc.newNode), _
    rw [h2, ← hn]
    exact fun b hb => .inl hb
  · refine ⟨hnode b ?_, hb⟩
    rintro rfl
    exact hmem (by simp [hn])
  · simp only [Hazard.goto, Domain.setNext_payload, Thread.holds, Thread.setPc, h2, h3, h4, hn, List.append_nil]
    exact .refl _
  · cases pc <;> exact ok

theorem perm_front {α : Type*} (x : α) (A B D : List α) : (x :: A ++ (B ++ D)).Perm (A ++ (B ++ [x] ++ D)) := by
  have hm : ((A ++ B) ++ x :: D).Perm (x :: ((A ++ B) ++ D)) := List.perm_middle
  simpa using hm.symm

/-- The node is pushed onto the shared list. -/
theorem Own.pushed (h : Own d C L th) (hn : th.pc.newNode = [a]) (hhead : d.deleteHead = d.next a)
    (h1 : pc.localHead = th.pc.localHead) (h2 : pc.newNode = []) (h3 : pc.skip = th.pc.skip) (h4 : pc.item = th.pc.item)
    (ok : pc.Ok th d L) :
    Keeps d C L th { Hazard.goto { d with deleteHead := some a } th pc with pushed := 1 } (a :: C) L := by
  obtain ⟨haC, haL, -⟩ := h.new_notMem hn
  have hmem : ∀ b, b ∈ a :: C ++ (L ++ []) ↔ b ∈ C ++ (L ++ th.pc.newNode) := by
    intro b
    simp only [hn, List.mem_append, List.mem_cons, List.not_mem_nil, or_false]
    tauto
  refine ⟨⟨rfl, ?_⟩, ?_, ?_, ?_, ?_, fun b hb _ => ⟨rfl, hb⟩, ?_, ?_, fun _ b hb => ⟨hb, rfl⟩⟩
  · change Seg d.next (d.next a) C none
    rw [← hhead]
    exact h.shared
  · change Seg d.next pc.localHead L none
    rw [h1]
    exact h.priv
  · change (a :: C ++ (L ++ pc.newNode)).Nodup
    have hnd := h.nodup
    rw [hn, ← List.append_assoc] at hnd
    have hp : (C ++ L ++ [a]).Perm (a :: (C ++ L)) := List.perm_append_comm
    rw [h2, List.append_nil]
    exact hp.nodup_iff.mp hnd
  · change ∀ b ∈ a :: C ++ (L ++ pc.newNode), d.live b = true
    intro b hb
    rw [h2] at hb
    exact h.live b ((hmem b).mp hb)
  · change ∀ b ∈ a :: C ++ (L ++ pc.newNode), _
    intro b hb
    rw [h2] at hb
    exact .inl ((hmem b).mp hb)
  · simp only [Hazard.goto, Thread.holds, Thread.setPc, h2, h3, h4, hn, List.map_cons, List.map_nil, List.append_nil]
    exact perm_front _ _ _ _
  · cases pc <;> exact ok

/-- A delete node is made for an object. -/
theorem Own.made (h : Own d C L th) (hn : th.pc.newNode = []) {v : Ptr} (ha : d.live a = false)
    (h1 : pc.localHead = th.pc.localHead) (h2 : pc.newNode = [a])
    (hp : (itemsOf (skipped th.deleted pc.skip) ++ pc.item ++ [v]).Perm
      (itemsOf (skipped th.deleted th.pc.skip) ++ th.pc.item)) (ok : pc.Ok th d L) :
    Keeps d C L th (Hazard.goto (d.newNode a v) th pc) C L := by
  have hne : ∀ b ∈ C ++ L, b ≠ a := by
    rintro b hb rfl
    have := h.live b (by simpa [hn] using hb)
    rw [ha] at this
    cases this
  have hnode : ∀ b ∈ C ++ L, (d.newNode a v).node b = d.node b := fun b hb => Domain.newNode_node_of_ne (hne b hb)
  have hnext : ∀ b ∈ C ++ L, d.next b = (d.newNode a v).next b := fun b hb =>
    congrArg DeleteNode.next (hnode b hb).symm
  have hpay : ∀ l : List Addr, (∀ b ∈ l, b ∈ C ++ L) → l.map (d.newNode a v).payload = l.map d.payload := fun l hl =>
    List.map_congr_left fun b hb => Domain.newNode_payload_of_ne (hne b (hl b hb))
  refine ⟨?_, ?_, ?_, ?_, ?_, fun b hb hmem => ?_, ?_, ?_,
    fun _ b hb => ⟨hb, Domain.newNode_payload_of_ne (hne b (by simp [hb]))⟩⟩
  · exact Seg.congr (fun b hb => hnext b (by simp [hb])) h.shared
  · change Seg (d.newNode a v).next pc.localHead L none
    rw [h1]
    exact Seg.congr (fun b hb => hnext b (by simp [hb])) h.priv
  · change (C ++ (L ++ pc.newNode)).Nodup
    have hnd := h.nodup
    rw [hn, List.append_nil] at hnd
    rw [h2, ← List.append_assoc, List.nodup_append]
    refine ⟨hnd, by simp, fun b hb c hc => ?_⟩
    rw [List.mem_singleton.mp hc]
    exact hne b hb
  · change ∀ b ∈ C ++ (L ++ pc.newNode), Function.update d.live a true b = true
    intro b hb
    by_cases hba : b = a
    · rw [hba, Function.update_self]
    · rw [Function.update_of_ne hba]
      refine h.live b ?_
      simpa [h2, hn, hba] using hb
  · change ∀ b ∈ C ++ (L ++ pc.newNode), _
    intro b hb
    by_cases hba : b = a
    · exact .inr (hba ▸ ha)
    · refine .inl ?_
      simpa [h2, hn, hba] using hb
  · have hba : b ≠ a := by
      rintro rfl
      rw [ha] at hb
      cases hb
    refine ⟨Domain.newNode_node_of_ne hba, ?_⟩
    change Function.update d.live a true b = true
    rw [Function.update_of_ne hba]
    exact hb
  · change (C.map (d.newNode a v).payload ++ ((th.setPc pc).holds (d.newNode a v) ++ L.map (d.newNode a v).payload) ++
      []).Perm _
    rw [List.append_nil, hpay C fun b hb => by simp [hb], hpay L fun b hb => by simp [hb]]
    refine List.Perm.append_left _ (List.Perm.append_right _ ?_)
    simp only [Thread.holds, Thread.setPc, h2, hn, List.map_cons, List.map_nil, Domain.newNode_payload, List.append_nil]
    exact hp
  · have hok : (th.setPc pc).Ok d L := by cases pc <;> exact ok
    exact hok.congr fun b hb => hnode b (by simp [hb])

/-! ## The private list of `collect` -/

/-- The whole shared list is taken. -/
theorem Own.taken (h : Own d C L th) (hpc : th.pc = .collect k) (h0 : th.pc.localHead = none) (hn : th.pc.newNode = [])
    (h1 : pc.localHead = d.deleteHead) (h2 : pc.newNode = []) (h3 : pc.skip = th.pc.skip) (h4 : pc.item = th.pc.item)
    (ok : pc.Ok th d C) : Keeps d C L th (Hazard.goto { d with deleteHead := none } th pc) [] C := by
  obtain rfl := h.list_nil h0
  have hnd := h.nodup
  simp only [hn, List.append_nil] at hnd
  refine ⟨rfl, ?_, ?_, ?_, ?_, fun b hb _ => ⟨rfl, hb⟩, ?_, ?_, fun hne => absurd hpc (hne k)⟩
  · change Seg d.next pc.localHead C none
    rw [h1]
    exact h.shared
  · change ([] ++ (C ++ pc.newNode)).Nodup
    simpa [h2] using hnd
  · change ∀ b ∈ [] ++ (C ++ pc.newNode), d.live b = true
    intro b hb
    exact h.live b (by simpa [h2, hn] using hb)
  · change ∀ b ∈ [] ++ (C ++ pc.newNode), _
    intro b hb
    exact .inl (by simpa [h2, hn] using hb)
  · simp only [Hazard.goto, Thread.holds, Thread.setPc, h2, h3, h4, hn, List.map_nil, List.append_nil, List.nil_append]
    exact List.perm_append_comm
  · cases pc <;> exact ok

/-- A node is taken out of the private list, its object reclaimed, and freed. -/
theorem Own.dropped (h : Own d C L th) (hn : th.pc.newNode = []) {A B : List Addr} {cur : Addr} (hL : L = A ++ cur :: B)
    (hd : d'.deleteHead = d.deleteHead) (hnode : ∀ b, b ∉ L → d'.node b = d.node b) (hlive : d'.live = d.live)
    (hpay : d'.payload = d.payload) (h1 : Seg d'.next pc.localHead (A ++ B) none) (h2 : pc.newNode = [])
    (h3 : pc.skip = th.pc.skip) (h4 : pc.item = th.pc.item) (ok : pc.Ok th d' (A ++ B)) :
    Keeps d C L th { Hazard.goto (d'.freeNode cur) th pc with reclaimed := [d.payload cur] } C (A ++ B) := by
  subst hL
  have hnd := h.nodup
  simp only [hn, List.append_nil] at hnd
  have hsub : (C ++ (A ++ B)).Sublist (C ++ (A ++ cur :: B)) := by
    refine List.Sublist.append_left (List.Sublist.append_left ?_ A) C
    exact List.sublist_cons_self cur B
  have hmem : ∀ b ∈ C ++ (A ++ B), b ∈ C ++ (A ++ cur :: B) ∧ b ≠ cur := by
    intro b hb
    refine ⟨hsub.subset hb, ?_⟩
    rintro rfl
    have hp : (C ++ (A ++ b :: B)).Perm (b :: (C ++ (A ++ B))) := by
      rw [← List.append_assoc, ← List.append_assoc]
      exact List.perm_middle
    exact (List.nodup_cons.mp (hp.nodup_iff.mp hnd)).1 hb
  refine ⟨?_, h1, ?_, ?_, ?_, fun b hb hout => ?_, ?_, ?_, fun _ b hb => ⟨?_, congrFun hpay b⟩⟩
  · change Seg d'.next d'.deleteHead C none
    rw [hd]
    refine Seg.congr (fun b hb => ?_) h.shared
    refine congrArg DeleteNode.next (hnode b fun hbL => ?_).symm
    exact (List.nodup_append.mp hnd).2.2 b hb b hbL rfl
  · change (C ++ (A ++ B ++ pc.newNode)).Nodup
    rw [h2, List.append_nil]
    exact hsub.nodup hnd
  · change ∀ b ∈ C ++ (A ++ B ++ pc.newNode), Function.update d'.live cur false b = true
    intro b hb
    rw [h2, List.append_nil] at hb
    obtain ⟨hb1, hb2⟩ := hmem b hb
    rw [Function.update_of_ne hb2, hlive]
    exact h.live b (by simpa [hn] using hb1)
  · change ∀ b ∈ C ++ (A ++ B ++ pc.newNode), _
    intro b hb
    rw [h2, List.append_nil] at hb
    exact .inl (by simpa [hn] using (hmem b hb).1)
  · have hbL : b ∉ A ++ cur :: B := fun hb => hout (List.mem_append_right _ (List.mem_append_left _ hb))
    have hbc : b ≠ cur := fun hb => hbL (by simp [hb])
    refine ⟨hnode b hbL, ?_⟩
    change Function.update d'.live cur false b = true
    rw [Function.update_of_ne hbc, hlive]
    exact hb
  · have hh : (th.setPc pc).holds (d'.freeNode cur) = th.holds d := by
      simp only [Thread.holds, Thread.setPc, h2, h3, h4, hn, List.map_nil]
    change (C.map d'.payload ++ ((th.setPc pc).holds (d'.freeNode cur) ++ (A ++ B).map d'.payload) ++
      [d.payload cur]).Perm _
    rw [hh, hpay]
    simp only [List.map_append, List.map_cons, List.append_assoc]
    refine List.Perm.append_left _ (List.Perm.append_left _ (List.Perm.append_left _ ?_))
    exact List.perm_append_comm
  · cases pc <;> exact ok
  · exact (List.Sublist.append_left (List.sublist_cons_self cur B) A).subset hb

/-- The first node of the private list is to be pushed again. -/
theorem Own.popped (h : Own d C L th) (hn : th.pc.newNode = []) (hhead : th.pc.localHead = some a)
    (h1 : pc.localHead = d.next a) (h2 : pc.newNode = [a]) (h3 : pc.skip = th.pc.skip) (h4 : pc.item = th.pc.item)
    (ok : ∀ L', pc.Ok th d L') : ∃ L', L = a :: L' ∧ Keeps d C L th (Hazard.goto d th pc) C L' := by
  have hp := h.priv
  rw [hhead] at hp
  cases L with
  | nil => cases hp
  | cons b L' =>
    obtain ⟨hb, hp⟩ := hp
    cases hb
    have hperm : (L' ++ [a]).Perm (a :: L') := List.perm_append_comm
    have hnd := h.nodup
    simp only [hn, List.append_nil] at hnd
    have hmem : ∀ b, b ∈ C ++ (L' ++ pc.newNode) → b ∈ C ++ (a :: L' ++ th.pc.newNode) := by
      intro b hb
      simp only [h2, hn, List.mem_append, List.mem_cons, List.not_mem_nil, or_false] at hb ⊢
      tauto
    refine ⟨L', rfl, h.shared, ?_, ?_, fun b hb => h.live b (hmem b hb), fun b hb => .inl (hmem b hb),
      fun b hb _ => ⟨rfl, hb⟩, ?_, ?_, fun _ b hb => ⟨List.mem_cons_of_mem _ hb, rfl⟩⟩
    · change Seg d.next pc.localHead L' none
      rw [h1]
      exact hp
    · change (C ++ (L' ++ pc.newNode)).Nodup
      rw [h2]
      exact (List.Perm.append_left C hperm).nodup_iff.mpr hnd
    · simp only [Hazard.goto, Thread.holds, Thread.setPc, h2, h3, h4, hn, List.map_cons, List.map_nil, List.append_nil]
      refine List.Perm.append_left _ ?_
      rw [List.append_assoc]
      exact List.Perm.append_left _ (.refl _)
    · have hok := ok L'
      cases pc <;> exact hok

/-! ## Arrays -/

theorem itemsOf_set_of_zero {b : List Ptr} {i : Nat} (h : b[i]? = some 0) : itemsOf (b.set i 0) = itemsOf b := by
  obtain ⟨hi, he⟩ := List.getElem?_eq_some_iff.mp h
  rw [← he, List.set_getElem_self]

/-- Nulling an entry takes its item out. -/
theorem itemsOf_set {b : List Ptr} : ∀ {i v},
    b[i]? = some v → v ≠ 0 → (itemsOf (b.set i 0) ++ [v]).Perm (itemsOf b) := by
  induction b with
  | nil => intro i v h; cases h
  | cons x b ih =>
    intro i v h hv
    cases i with
    | zero =>
      cases h
      have hx : itemsOf (x :: b) = x :: itemsOf b := List.filter_cons_of_pos (by simpa using hv)
      have h0 : itemsOf (0 :: b) = itemsOf b := List.filter_cons_of_neg (by simp)
      rw [hx, List.set_cons_zero, h0]
      exact List.perm_append_comm
    | succ i =>
      have hp := ih h hv
      rw [List.set_cons_succ]
      by_cases hx : x = 0
      · subst hx
        have h0 : ∀ l : List Ptr, itemsOf (0 :: l) = itemsOf l := fun l => List.filter_cons_of_neg (by simp)
        rw [h0, h0]
        exact hp
      · have h1 : ∀ l : List Ptr, itemsOf (x :: l) = x :: itemsOf l :=
          fun l => List.filter_cons_of_pos (by simpa using hx)
        rw [h1, h1]
        exact hp.cons x

theorem itemsOf_eq_nil {b : List Ptr} (h : ∀ (i : Nat) v, b[i]? = some v → v = 0) : itemsOf b = [] := by
  refine List.filter_eq_nil_iff.mpr fun v hv => ?_
  obtain ⟨i, hi⟩ := List.mem_iff_getElem?.mp hv
  simp [h i v hi]

/-- The whole array has been enqueued. -/
theorem Thread.Queued.ok {count : Nat} (h : th.Queued count count k) : k.Ok th := by
  obtain ⟨hlen, hnull, hk⟩ := h
  have hitems : itemsOf th.deleted = [] := by
    refine itemsOf_eq_nil fun i v hv => hnull i v ?_ hv
    rw [← hlen]
    exact (List.getElem?_eq_some_iff.mp hv).1
  cases k with
  | done =>
    have hk : th.ctx = none := hk
    simp only [After.Ok, Thread.Rest, hk]
    exact hitems
  | domain => exact ⟨hk, hitems⟩
  | reclaim =>
    obtain ⟨c, hc, hR, rfl⟩ := hk
    exact ⟨c, hc, hR, hlen, hitems⟩
  | destroy =>
    obtain ⟨c, hc, hR, rfl⟩ := hk
    exact ⟨c, hc, hR, hlen, hitems⟩
  | destroyed =>
    obtain ⟨c, hc, hR, rfl⟩ := hk
    exact ⟨c, hc, hR, hlen, hitems⟩

theorem Thread.Queued.succ {x count : Nat} (h : th.Queued x count k) (hx : th.deleted[x]? = some 0) :
    th.Queued (x + 1) count k := by
  refine ⟨h.1, fun i v hi hv => ?_, h.2.2⟩
  rcases Nat.lt_succ_iff_lt_or_eq.mp hi with hi | rfl
  · exact h.2.1 i v hi hv
  · rw [hx] at hv
    cases hv
    rfl

end Hazard

end SplitOrder
