/-
Which nodes a call touches.

`delete_node` deletes a node as soon as it has unlinked it, though a search
may still stand on it. How long it would have to wait: a call touches only
nodes it has made itself and nodes that were on the chain at some moment
since it began. For what it reads is a slot, or the next pointer of a node
it has come to, and the nodes `K` that were on the chain in that time are
closed under next pointers. So a node that is off the chain when a call
begins is never touched by it.
-/
import SplitOrder.Concurrent.Contents

namespace SplitOrder

namespace Concurrent

open Heap

variable {T : Type} {n : Nat} {s s' : Solist T} {l r l' r' : List Addr} {a : Accessor} {th : Thread} {pc : Pc}
  {e : Effect T} {K K' : Set Addr} {m : Nat}

/-! ## What a step touches -/

/-- The node in a slot. -/
def slotNode (s : Solist T) (slot : Hash) : List Addr := (s.buckets[slot.toNat]?.getD none).toList

def InitCall.touches (i : InitCall) (s : Solist T) (a : Accessor) : InitPc → List Addr
  | .probe _ | .parent _ | .settle | .store | .storeNext | .assertSet => []
  | .parentNext | .won => a.cur.toList
  | .walk | .recheck => i.node :: a.next.toList
  | .setNext | .discard => [i.node]
  | .cas => i.node :: a.cur.toList
  | .assertNext | .assertKey => i.node :: slotNode s i.slot

/-- The nodes the next step of the thread reads, writes or deletes. -/
def Thread.touches (s : Solist T) (th : Thread) : List Addr :=
  match th.pc with
  | .idle _ | .initEntry _ _ | .initReturn _ _ | .findEntry _ | .findBucket _ | .insertCount _ | .insertCheck _
  | .expand _ | .crashed => []
  | .init i pc => i.touches s th.a pc
  | .findNext _ | .insertNext _ | .deleteMark _ | .deleteCount _ => th.a.cur.toList
  | .findWalk f => th.a.cur.toList ++ th.a.next.toList ++ f.holds
  | .insertSetNext _ d => [d]
  | .insertCas _ _ => th.a.cur.toList
  | .insertWalk _ => th.a.next.toList
  | .deleteUnlink _ => th.a.prev.toList

/-! ## What a call has come to -/

/-- The nodes `K` that were on the chain in a stretch of a run. -/
structure Visited (s : Solist T) (l r : List Addr) (K : Set Addr) : Prop where
  chain : ∀ x ∈ l, x ∈ K
  known : ∀ x ∈ K, x ∈ l ++ r
  next : ∀ x ∈ K, ∀ y, s.heap.nextOf x = some y → y ∈ K

/-- The pointer is null or leads into `K`. -/
def Into (K : Set Addr) (p : Option Addr) : Prop := ∀ x, p = some x → x ∈ K

/-- The nodes are made by the call, which began when there were `m`. -/
def Made (m : Nat) (l : List Addr) : Prop := ∀ x ∈ l, m ≤ x

def InitPc.Stays (K : Set Addr) (a : Accessor) : InitPc → Prop
  | .parentNext | .settle | .won => Into K a.cur
  | .walk | .setNext | .recheck | .cas => Into K a.cur ∧ Into K a.next
  | _ => True

/-- The pointers the thread is going to follow lead into `K`, and the nodes it has made are new. -/
def Thread.Stays (m : Nat) (K : Set Addr) (th : Thread) : Prop :=
  match th.pc with
  | .idle _ | .insertCheck _ | .expand _ | .crashed => True
  | .initEntry _ k | .initReturn _ k => Made m k.holds
  | .init i pc => m ≤ i.node ∧ Made m i.caller.holds ∧ pc.Stays K th.a
  | .findEntry f | .findBucket f => Made m f.holds
  | .findNext f => Made m f.holds ∧ Into K th.a.cur ∧ Into K th.a.prev
  | .findWalk f => Made m f.holds ∧ Into K th.a.cur ∧ Into K th.a.prev ∧ Into K th.a.next
  | .insertSetNext _ d | .insertCas _ d => m ≤ d ∧ Into K th.a.cur
  | .insertCount _ | .insertNext _ | .deleteCount _ => Into K th.a.cur
  | .insertWalk _ => Into K th.a.next
  | .deleteMark _ | .deleteUnlink _ => Into K th.a.cur ∧ Into K th.a.prev

theorem Into.mono {p : Option Addr} (h : Into K p) (hK : K ⊆ K') : Into K' p := fun x hx => hK (h x hx)

theorem InitPc.Stays.mono {pc : InitPc} (h : pc.Stays K a) (hK : K ⊆ K') : pc.Stays K' a := by
  cases pc with
  | parentNext | settle | won => exact Into.mono h hK
  | walk | setNext | recheck | cas => exact ⟨h.1.mono hK, h.2.mono hK⟩
  | _ => trivial

theorem Thread.Stays.mono (h : th.Stays m K) (hK : K ⊆ K') : th.Stays m K' := by
  obtain ⟨a, pc⟩ := th
  cases pc with
  | idle res => trivial
  | insertCheck hashv => trivial
  | expand hashv => trivial
  | crashed => trivial
  | initEntry slot k | initReturn slot k => exact h
  | init i pc => exact ⟨h.1, h.2.1, h.2.2.mono hK⟩
  | findEntry f | findBucket f => exact h
  | findNext f => exact ⟨h.1, h.2.1.mono hK, h.2.2.mono hK⟩
  | findWalk f => exact ⟨h.1, h.2.1.mono hK, h.2.2.1.mono hK, h.2.2.2.mono hK⟩
  | insertSetNext hashv d | insertCas hashv d => exact ⟨h.1, h.2.mono hK⟩
  | insertCount hashv | insertNext hashv | deleteCount hashv => exact Into.mono h hK
  | insertWalk hashv => exact Into.mono h hK
  | deleteMark hashv | deleteUnlink hashv => exact ⟨h.1.mono hK, h.2.mono hK⟩

theorem Visited.start (hm : Mem s l r) : Visited s l r {x | x ∈ l} :=
  ⟨fun _ hx => hx, fun _ hx => List.mem_append_left r hx, fun _ hx _ hy => next_mem_chain hm hx hy⟩

/-- The nodes visited stay closed under next pointers, whoever takes a step. -/
theorem Visited.passes (h : Visited s l r K) (hp : Passes s l r s' l' r') :
    Visited s' l' r' (K ∪ {x | x ∈ l'}) := by
  refine ⟨fun x hx => .inr hx, fun x hx => ?_, fun x hx y hy => ?_⟩
  · obtain hx | hx := hx
    · exact hp.known x (h.known x hx)
    · exact List.mem_append_left r' hx
  · by_cases hxl : x ∈ l'
    · exact .inr (next_mem_chain hp.mem' hxl hy)
    · -- an unlinked node keeps the pointer it had
      have hxK := hx.resolve_right hxl
      rw [hp.gone x (h.known x hxK) hxl] at hy
      exact .inl (h.next x hxK y hy)

theorem Visited.slot (h : Visited s l r K) (hm : Mem s l r) {i : Nat} {b : Addr} (hb : s.buckets[i]? = some (some b)) :
    b ∈ K := h.chain b (hm.slot _ _ hb).1

/-- `cur->next()` leads into `K` if `cur` does. -/
theorem Visited.into_next (h : Visited s l r K) {c : Addr} (hc : c ∈ K) : Into K (s.heap.nextOf c) := fun y hy =>
  h.next c hc y hy

/-! ## One step -/

section Steps

variable {f : FindCall} {hashv : Hash}

theorem findEntry_stays (h : Made m f.holds) : (f.entry s a).thread.Stays m K := by
  simp only [FindCall.entry]
  split
  · trivial
  · exact h
  · exact h

theorem findBucket_stays (hv : Visited s l r K) (hm : Mem s l r) (h : Made m f.holds) :
    (f.bucket s a).thread.Stays m K := by
  simp only [FindCall.bucket]
  split
  · trivial
  · rename_i b hb
    have hinto : Into K b := fun x hx => hv.slot hm (by rw [hb, hx])
    exact ⟨h, hinto, hinto⟩

theorem findNext_stays (hv : Visited s l r K) (h : Thread.Stays m K ⟨a, .findNext f⟩) :
    (f.next s a).thread.Stays m K := by
  simp only [FindCall.next]
  split
  · trivial
  · rename_i c hc
    exact ⟨h.1, h.2.1, h.2.2, hv.into_next (h.2.1 c hc)⟩

theorem found_stays (h : Thread.Stays m K ⟨a, .findWalk f⟩) (b : Bool) : (f.found s a b).thread.Stays m K := by
  obtain ⟨hmade, hcur, hprev, -⟩ := h
  cases f with
  | insertNode hashv d =>
    cases b with
    | true => trivial
    | false => exact ⟨hmade d (by simp [FindCall.holds]), hcur⟩
  | deleteNode hashv =>
    cases b with
    | true => exact ⟨hcur, hprev⟩
    | false => trivial
  | findItemNode hashv => trivial

theorem findWalk_stays (hv : Visited s l r K) (h : Thread.Stays m K ⟨a, .findWalk f⟩) :
    (f.walk s a).thread.Stays m K := by
  simp only [FindCall.walk]
  split
  · exact found_stays h _
  · rename_i x hx
    split
    · have hxK := h.2.2.2 x hx
      exact ⟨h.1, fun y hy => by cases hy; exact hxK, h.2.1, hv.into_next hxK⟩
    · exact found_stays h _

theorem insertWalk_stays (hv : Visited s l r K) (h : Into K a.next) : (insertWalk hashv s a).thread.Stays m K := by
  simp only [insertWalk]
  split
  · trivial
  · rename_i x hx
    split
    · exact hv.into_next (h x hx)
    · trivial

theorem insertCheck_stays : (insertCheck hashv s a).thread.Stays m K := by
  simp only [insertCheck]
  split
  · split
    · trivial
    · split
      · exact fun x hx => by cases hx
      · trivial
  · trivial

theorem init_stays {i : InitCall} {pc : InitPc} (hv : Visited s l r K) (hm : Mem s l r)
    (h : Thread.Stays m K ⟨a, .init i pc⟩) : (i.step s a pc).thread.Stays m K := by
  obtain ⟨hnode, hk, hpc⟩ := h
  cases pc with
  | probe pbKey =>
    simp only [InitCall.step]
    split
    · trivial
    · split
      · trivial
      · split <;> exact ⟨hnode, hk, trivial⟩
  | parent pbSlot =>
    simp only [InitCall.step]
    split
    · trivial
    · rename_i b hb
      exact ⟨hnode, hk, fun x hx => hv.slot hm (by rw [hb]; exact congrArg some hx)⟩
  | parentNext =>
    simp only [InitCall.step]
    split
    · trivial
    · rename_i c hc
      exact ⟨hnode, hk, hpc, hv.into_next (hpc c hc)⟩
  | walk =>
    simp only [InitCall.step]
    split
    · exact ⟨hnode, hk, hpc⟩
    · rename_i x hx
      have hxK := hpc.2 x hx
      split
      · exact ⟨hnode, hk, fun y hy => by cases hy; exact hxK, hv.into_next hxK⟩
      · exact ⟨hnode, hk, hpc⟩
  | setNext => exact ⟨hnode, hk, hpc⟩
  | recheck =>
    simp only [InitCall.step]
    split
    · trivial
    · exact ⟨hnode, hk, hpc.1⟩
    · split
      · exact ⟨hnode, hk, hpc⟩
      · split
        · exact ⟨hnode, hk, hpc.1⟩
        · exact ⟨hnode, hk, hpc⟩
  | cas =>
    simp only [InitCall.step]
    split
    · trivial
    · rename_i c hc
      cases ((s.heap.node c).next.cas a.next (some i.node) false).1 with
      | true => exact ⟨hnode, hk, hpc.1⟩
      | false => exact ⟨hnode, hk, trivial⟩
  | settle =>
    simp only [InitCall.step]
    split
    · trivial
    · exact ⟨hnode, hk, hpc⟩
    · exact ⟨hnode, hk, trivial⟩
  | won =>
    simp only [InitCall.step]
    split
    · trivial
    · split <;> exact ⟨hnode, hk, trivial⟩
  | store => exact ⟨hnode, hk, trivial⟩
  | storeNext => exact ⟨hnode, hk, trivial⟩
  | discard => exact ⟨hnode, hk, trivial⟩
  | assertNext =>
    simp only [InitCall.step]
    split
    · split
      · exact ⟨hnode, hk, trivial⟩
      · trivial
    · trivial
  | assertSet =>
    simp only [InitCall.step]
    split
    · exact ⟨hnode, hk, trivial⟩
    · trivial
  | assertKey =>
    simp only [InitCall.step]
    split
    · split
      · exact hk
      · trivial
    · trivial

end Steps

/-- **A thread goes on among the nodes visited.** -/
theorem Thread.step_stays (hv : Visited s l r K) (hm : Mem s l r) (hsize : m ≤ s.heap.size) (h : th.Stays m K)
    (he : th.step s = some e) : e.thread.Stays m K := by
  obtain ⟨a, pc⟩ := th
  cases pc with
  | idle res => cases he
  | expand hashv => cases he
  | crashed => cases he
  | initEntry slot k =>
    cases he
    simp only [initEntry]
    split
    · trivial
    · split
      · trivial
      · exact h
      · split
        · trivial
        · exact ⟨hsize, h, trivial⟩
  | init i pc =>
    cases he
    exact init_stays hv hm h
  | initReturn slot k =>
    cases he
    cases k with
    | caller => trivial
    | findNode f => exact h
    | insertNode => trivial
  | findEntry f =>
    cases he
    exact findEntry_stays h
  | findBucket f =>
    cases he
    exact findBucket_stays hv hm h
  | findNext f =>
    cases he
    exact findNext_stays hv h
  | findWalk f =>
    cases he
    exact findWalk_stays hv h
  | insertSetNext hashv d =>
    cases he
    exact h
  | insertCas hashv d =>
    cases he
    simp only [insertCas]
    split
    · trivial
    · split
      · exact h.2
      · exact fun x hx => by rw [List.mem_singleton.mp hx]; exact h.1
  | insertCount hashv =>
    cases he
    exact h
  | insertNext hashv =>
    cases he
    simp only [insertNext]
    split
    · trivial
    · rename_i c hc
      exact hv.into_next (h c hc)
  | insertWalk hashv =>
    cases he
    exact insertWalk_stays hv h
  | insertCheck hashv =>
    cases he
    exact insertCheck_stays
  | deleteMark hashv =>
    cases he
    simp only [deleteMark]
    split
    · trivial
    · split
      · exact h
      · exact fun x hx => by cases hx
  | deleteUnlink hashv =>
    cases he
    simp only [deleteUnlink]
    split
    · split
      · exact h.1
      · exact fun x hx => by cases hx
    · trivial
  | deleteCount hashv =>
    cases he
    simp only [deleteCount]
    split <;> trivial

theorem Into.mem_toList {p : Option Addr} (h : Into K p) {x : Addr} (hx : x ∈ p.toList) : x ∈ K :=
  h x (by simpa using hx)

theorem Visited.slotNode (hv : Visited s l r K) (hm : Mem s l r) {slot : Hash} {x : Addr} (hx : x ∈ slotNode s slot) :
    x ∈ K := by
  refine hv.slot hm (i := slot.toNat) ?_
  cases hb : s.buckets[slot.toNat]? with
  | none => simp [Concurrent.slotNode, hb] at hx
  | some b =>
    cases b with
    | none => simp [Concurrent.slotNode, hb] at hx
    | some b =>
      simp only [Concurrent.slotNode, hb, Option.getD_some, Option.mem_toList, Option.some.injEq] at hx
      rw [hx]

/-- What a step touches is among them, or made by the call. -/
theorem Thread.touches_mem (hv : Visited s l r K) (hm : Mem s l r) (h : th.Stays m K) :
    ∀ x ∈ th.touches s, x ∈ K ∨ m ≤ x := by
  obtain ⟨a, pc⟩ := th
  intro x hx
  cases pc with
  | init i pc =>
    obtain ⟨hnode, -, hpc⟩ := h
    cases pc with
    | parentNext | won => exact .inl (Into.mem_toList hpc hx)
    | walk | recheck =>
      rcases List.mem_cons.mp hx with rfl | hx
      · exact .inr hnode
      · exact .inl (hpc.2.mem_toList hx)
    | setNext | discard =>
      rw [List.mem_singleton.mp hx]
      exact .inr hnode
    | cas =>
      rcases List.mem_cons.mp hx with rfl | hx
      · exact .inr hnode
      · exact .inl (hpc.1.mem_toList hx)
    | assertNext | assertKey =>
      rcases List.mem_cons.mp hx with rfl | hx
      · exact .inr hnode
      · exact .inl (hv.slotNode hm hx)
    | _ => cases hx
  | findNext f => exact .inl (h.2.1.mem_toList hx)
  | findWalk f =>
    simp only [Thread.touches, List.mem_append] at hx
    rcases hx with (hx | hx) | hx
    · exact .inl (h.2.1.mem_toList hx)
    · exact .inl (h.2.2.2.mem_toList hx)
    · exact .inr (h.1 x hx)
  | insertSetNext hashv d =>
    rw [List.mem_singleton.mp hx]
    exact .inr h.1
  | insertCas hashv d => exact .inl (h.2.mem_toList hx)
  | insertNext hashv | deleteCount hashv => exact .inl (Into.mem_toList h hx)
  | insertWalk hashv => exact .inl (Into.mem_toList h hx)
  | deleteMark hashv => exact .inl (h.1.mem_toList hx)
  | deleteUnlink hashv => exact .inl (h.2.mem_toList hx)
  | _ => cases hx

/-! ## Runs -/

section Runs

/-- `σ` is a state of a run in which thread `t` makes the call it began in `σ₀`, and `K` are the nodes that were
on the chain since. -/
inductive During (start : Solist T → Prop) (ops : Op T → Bool) (σ₀ : State T n) (t : Fin n) :
    State T n → Set Addr → Prop
  | call {op σ} : (machine T n start ops).next σ₀ (.call t op) = some σ →
      During start ops σ₀ t σ {x | OnChain σ.list x}
  | step {σ K ev σ'} : During start ops σ₀ t σ K → (σ.thread t).pc.isIdle = false → Undisturbed σ ev →
      (machine T n start ops).next σ ev = some σ' → During start ops σ₀ t σ' (K ∪ {x | OnChain σ'.list x})

variable {σ₀ σ σ' : State T n} {t : Fin n} {start : Solist T → Prop} {ops : Op T → Bool} {ev : Event T n}

/-- A step deletes nodes, and brings none back. -/
theorem Writes.deleted {h' : Heap T} (hw : Writes s l r h') : ∀ x ∈ s.heap.deleted, x ∈ h'.deleted := by
  intro x hx
  cases hw with
  | delete => exact List.mem_append_left _ hx
  | _ => exact hx

/-- What an event does to the nodes of the list. -/
theorem Inv.next_passes (h : Inv σ l r) (hu : Undisturbed σ ev) (hn : (machine T n start ops).next σ ev = some σ') :
    ∃ l' r', Inv σ' l' r' ∧ Passes σ.list l r σ'.list l' r' ∧ (∀ x ∈ r, x ∈ r') ∧
      ∀ x ∈ σ.list.heap.deleted, x ∈ σ'.list.heap.deleted := by
  cases ev with
  | call u op =>
    simp only [machine] at hn
    split at hn
    · rename_i hen
      cases hn
      have hk := Thread.call_keeps h.mem hen.1 hen.2.2
      have hw : Writes σ.list l r ((σ.thread u).call σ.list op).list.heap := Thread.call_writes hen.2.2
      exact ⟨l, r, h.step hk, hk.passes h.mem hw, hk.frame.removed, hw.deleted⟩
    · cases hn
  | step u =>
    obtain ⟨e, he, rfl⟩ := Option.map_eq_some_iff.mp hn
    obtain ⟨l', r', hk⟩ := Thread.step_keeps h.mem (h.thread u) hu he
    have hw : Writes σ.list l r e.list.heap := Thread.step_writes (h.thread u) he
    exact ⟨l', r', h.step hk, hk.passes h.mem hw, hk.frame.removed, hw.deleted⟩

/-- What holds during a call: `K` is closed, thread `t` is among it, and what was off the chain and published
before the call is not. -/
structure Call (σ₀ : State T n) (t : Fin n) (σ : State T n) (K : Set Addr) (l r : List Addr) : Prop where
  inv : Inv σ l r
  visited : Visited σ.list l r K
  stays : (σ.thread t).Stays σ₀.list.heap.size K
  size : σ₀.list.heap.size ≤ σ.list.heap.size
  removed : ∀ x ∈ σ₀.unlinks.map Prod.snd, x ∈ r
  deleted : ∀ x ∈ σ₀.list.heap.deleted, x ∈ σ.list.heap.deleted
  gone : ∀ x ∈ K, x ∉ σ₀.unlinks.map Prod.snd ∧ x ∉ σ₀.list.heap.deleted

/-- The nodes of the chain are not among those that were gone before. -/
theorem Inv.not_gone {x : Addr} (h : Inv σ l r) (hr : ∀ x ∈ σ₀.unlinks.map Prod.snd, x ∈ r)
    (hd : ∀ x ∈ σ₀.list.heap.deleted, x ∈ σ.list.heap.deleted) (hx : x ∈ l) :
    x ∉ σ₀.unlinks.map Prod.snd ∧ x ∉ σ₀.list.heap.deleted :=
  ⟨fun h' => h.mem.mesh.notMem_removed hx (hr x h'), fun h' => h.mem.mesh.live x hx (hd x h')⟩

theorem chain_eq (h : Inv σ l r) : {x | OnChain σ.list x} = {x | x ∈ l} := by
  ext x
  exact h.mem.onChain_iff

theorem Call.begin {op : Op T} (h : Inv σ₀ l r) (hn : (machine T n start ops).next σ₀ (.call t op) = some σ) :
    ∃ l' r', Call σ₀ t σ {x | OnChain σ.list x} l' r' := by
  obtain ⟨l', r', h', hp, hrem, hdel⟩ := h.next_passes (by trivial) hn
  have hr : ∀ x ∈ σ₀.unlinks.map Prod.snd, x ∈ r' := fun x hx => hrem x (by rw [h.unlinks]; exact hx)
  refine ⟨l', r', h', ?_, ?_, hp.ext.size, hr, hdel, fun x hx => h'.not_gone hr hdel (h'.mem.onChain_iff.mp hx)⟩
  · rw [chain_eq h']
    exact .start h'.mem
  · simp only [machine] at hn
    split at hn
    · rename_i hen
      cases hn
      rw [State.apply_thread]
      cases op with
      | insertNode hashv v =>
        simp only [Thread.call, solistNode_ok v hen.2.2]
        exact fun x hx => by rw [List.mem_singleton.mp hx]
      | deleteNode hashv => exact fun x hx => by cases hx
      | findItemNode hashv => exact fun x hx => by cases hx
      | initialiseBucket slot => exact fun x hx => by cases hx
    · cases hn

theorem Call.next (h : Call σ₀ t σ K l r) (hi : (σ.thread t).pc.isIdle = false) (hu : Undisturbed σ ev)
    (hn : (machine T n start ops).next σ ev = some σ') :
    ∃ l' r', Call σ₀ t σ' (K ∪ {x | OnChain σ'.list x}) l' r' := by
  obtain ⟨l', r', h', hp, hrem, hdel⟩ := h.inv.next_passes hu hn
  have hr : ∀ x ∈ σ₀.unlinks.map Prod.snd, x ∈ r' := fun x hx => hrem x (h.removed x hx)
  have hd : ∀ x ∈ σ₀.list.heap.deleted, x ∈ σ'.list.heap.deleted := fun x hx => hdel x (h.deleted x hx)
  refine ⟨l', r', h', ?_, ?_, Nat.le_trans h.size hp.ext.size, hr, hd, fun x hx => ?_⟩
  · rw [chain_eq h']
    exact h.visited.passes hp
  · refine Thread.Stays.mono ?_ Set.subset_union_left
    have hother : ∀ u e, u ≠ t → (σ.apply u e).thread t = σ.thread t := fun u e hut =>
      Function.update_of_ne (Ne.symm hut) ..
    cases ev with
    | call u op =>
      simp only [machine] at hn
      split at hn
      · rename_i hen
        cases hn
        have hut : u ≠ t := by
          rintro rfl
          rw [hi] at hen
          cases hen.1
        rw [hother u _ hut]
        exact h.stays
      · cases hn
    | step u =>
      obtain ⟨e, he, rfl⟩ := Option.map_eq_some_iff.mp hn
      by_cases hut : u = t
      · subst hut
        rw [State.apply_thread]
        exact Thread.step_stays h.visited h.inv.mem h.size h.stays he
      · rw [hother u e hut]
        exact h.stays
  · obtain hx | hx := hx
    · exact h.gone x hx
    · exact h'.not_gone hr hd (h'.mem.onChain_iff.mp hx)

theorem During.run (h : During start ops σ₀ t σ K) {es : List (Event T n)}
    (hrun : (machine T n start ops).runIf (fun τ ev => calm τ ev && !(τ.thread t).pc.isIdle) σ es = some σ') :
    ∃ K', During start ops σ₀ t σ' K' := by
  induction es generalizing σ K with
  | nil =>
    cases hrun
    exact ⟨K, h⟩
  | cons ev es ih =>
    simp only [System.runIf] at hrun
    split at hrun
    · rename_i hcheck
      simp only [Bool.and_eq_true, Bool.not_eq_true'] at hcheck
      obtain ⟨τ, hn, hrun⟩ := Option.bind_eq_some_iff.mp hrun
      exact ih (.step h hcheck.2 (calm_undisturbed σ ev hcheck.1) hn) hrun
    · cases hrun

end Runs

end Concurrent

end SplitOrder
