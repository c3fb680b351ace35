/-
Inserts, searches and `initialise_bucket` get on, whatever the other threads do.

A `CAS` of these calls fails only because another thread has linked a node
since `cur->next()` was read, and a call links at most three. So while no
call returns only finitely many steps can be taken. The rank that falls is
the links and stores the calls have left and, with these as they are, the
steps each thread has to its next one: keys go up along a search and down
along the probes of `get_parent`. A node that is marked and still linked
would break this, so no `delete_node` may be under way.
-/
import Mathlib.Algebra.Order.BigOperators.Group.Finset
import Mathlib.Data.Prod.Lex
import SplitOrder.Lib.Progress
import SplitOrder.Concurrent.Safety

namespace SplitOrder

namespace Concurrent

open Heap

variable {T : Type} {n : Nat} {s s' : Solist T} {l r : List Addr} {a : Accessor} {c x : Addr} {th : Thread} {pc : Pc}
  {e : Effect T}

/-! ## The rank of a thread -/

/-- Two for a slot that is to be set first. -/
def FindCall.wait (s : Solist T) (f : FindCall) : Nat :=
  match s.buckets[(f.hashv % s.nBuckets).toNat]? with
  | some (some _) => 0
  | _ => 2

def FindCall.due : FindCall → Nat
  | .insertNode _ _ => 4
  | _ => 1

def InitCaller.due : InitCaller → Nat
  | .findNode f => f.due
  | _ => 0

/-- Before the end of the loop of `initialise_bucket`. -/
def InitPc.looping : InitPc → Bool
  | .probe _ | .parent _ | .parentNext | .walk | .setNext | .recheck | .cas => true
  | _ => false

/-- The links and stores a call has left. -/
def Pc.due (s : Solist T) : Pc → Nat
  | .idle _ => 9
  | .expand _ | .crashed | .deleteMark _ | .deleteUnlink _ | .deleteCount _ => 0
  | .initEntry _ k => k.due + 2
  | .init i pc => i.caller.due + if pc.looping then 2 else 1
  | .initReturn _ k => k.due
  | .findEntry f | .findBucket f | .findNext f | .findWalk f => f.due + f.wait s
  | .insertSetNext hashv d | .insertCas hashv d =>
      (FindCall.insertNode hashv d).due + (FindCall.insertNode hashv d).wait s
  | .insertCount _ | .insertNext _ | .insertWalk _ | .insertCheck _ => 3

/-- More than the nodes that are left of a walk. -/
def left (s : Solist T) (a : Accessor) : Nat :=
  match a.next with
  | none => 0
  | some x => 2 ^ 32 - (s.heap.key x).toNat

/-- What a `CAS` that expects `next` at `cur` costs: another turn, if it is to fail. -/
def late (s : Solist T) (a : Accessor) : Nat :=
  match a.cur with
  | none => 0
  | some c => if (s.heap.node c).next = { ptr := a.next } then 0 else 2 ^ 34

/-- The same if `next` is read now: it fails at a marked node only. -/
def off (s : Solist T) (a : Accessor) : Nat :=
  match a.cur with
  | none => 0
  | some c => if (s.heap.node c).next.mark then 2 ^ 34 else 0

def InitPc.rank (s : Solist T) (a : Accessor) : InitPc → Nat
  | .probe pbKey => 2 ^ 32 + 7 + pbKey.toNat
  | .parent _ => 2 ^ 32 + 6
  | .parentNext => 2 ^ 32 + 5 + off s a
  | .walk => left s a + 4 + late s a
  | .setNext => 3 + late s a
  | .recheck => 2 + late s a
  | .cas => 1 + late s a
  | .settle => 8
  | .won => 7
  | .store | .storeNext => 6
  | .assertNext => 5
  | .discard => 4
  | .assertSet => 3
  | .assertKey => 2

/-- The steps a call has to its next link or store, if nothing else changes. -/
def Thread.rank (s : Solist T) (th : Thread) : Nat :=
  match th.pc with
  | .idle _ | .expand _ | .crashed | .deleteMark _ | .deleteUnlink _ | .deleteCount _ => 0
  | .findEntry _ => 2 ^ 33 + 9
  | .initEntry _ _ => 2 ^ 33 + 8
  | .init _ pc => pc.rank s th.a
  | .initReturn _ _ => 2 ^ 32 + 6
  | .findBucket _ => 2 ^ 32 + 5
  | .findNext _ => 2 ^ 32 + 4 + off s th.a
  | .findWalk _ => left s th.a + 3 + late s th.a
  | .insertSetNext _ _ => 2 + late s th.a
  | .insertCas _ _ => 1 + late s th.a
  | .insertCount _ => 2 ^ 32 + 4
  | .insertNext _ => 2 ^ 32 + 3
  | .insertWalk _ => left s th.a + 2
  | .insertCheck _ => 1

/-! ## What the ranks depend on -/

theorem FindCall.wait_isSet {f : FindCall} (h : IsSet s (f.hashv % s.nBuckets)) : f.wait s = 0 := by
  obtain ⟨b, hb⟩ := h
  simp only [FindCall.wait, hb]

theorem FindCall.wait_le {f : FindCall} : f.wait s ≤ 2 := by
  unfold FindCall.wait
  split <;> omega

/-- Slots stay set. -/
theorem FindCall.wait_mono {f : FindCall} (hn : s'.nBuckets = s.nBuckets) (hset : ∀ i, IsSet s i → IsSet s' i) :
    f.wait s' ≤ f.wait s := by
  by_cases h : IsSet s (f.hashv % s.nBuckets)
  · have h' := hset _ h
    rw [← hn] at h'
    rw [FindCall.wait_isSet h']
    exact Nat.zero_le _
  · have hw : f.wait s = 2 := by
      unfold FindCall.wait
      split
      · exact absurd ⟨_, ‹_›⟩ h
      · rfl
    rw [hw]
    exact FindCall.wait_le

theorem Pc.due_mono (hn : s'.nBuckets = s.nBuckets) (hset : ∀ i, IsSet s i → IsSet s' i) :
    pc.due s' ≤ pc.due s := by
  cases pc with
  | findEntry f | findBucket f | findNext f | findWalk f =>
    exact Nat.add_le_add_left (FindCall.wait_mono hn hset) _
  | insertSetNext hashv d | insertCas hashv d => exact Nat.add_le_add_left (FindCall.wait_mono hn hset) _
  | _ => exact Nat.le_refl _

theorem left_le : left s a ≤ 2 ^ 32 := by
  unfold left
  split <;> omega

theorem late_le : late s a ≤ 2 ^ 34 := by
  unfold late
  split
  · omega
  · split <;> omega

/-- The published nodes are as they were. -/
def SameWords (s : Solist T) (l r : List Addr) (s' : Solist T) : Prop :=
  ∀ x ∈ l ++ r, s'.heap.node x = s.heap.node x

theorem left_congr (h : SameWords s l r s') (hn : NextKnown l r a) : left s' a = left s a := by
  unfold left
  split
  · rfl
  · rename_i x hx
    rw [key, key, h x (hn x hx)]

theorem late_congr (h : SameWords s l r s') (hc : CurKnown l r a) : late s' a = late s a := by
  obtain ⟨c, hcur, hcl⟩ := hc
  simp only [late, hcur, h c hcl]

theorem off_congr (h : SameWords s l r s') (hc : CurKnown l r a) : off s' a = off s a := by
  obtain ⟨c, hcur, hcl⟩ := hc
  simp only [off, hcur, h c hcl]

theorem CurBelow.known {k : SoKey} (h : CurBelow s l r a k) : CurKnown l r a := by
  obtain ⟨c, hcur, hcl, -⟩ := h
  exact ⟨c, hcur, hcl⟩

theorem CurLe.known {k : SoKey} (h : CurLe s l r a k) : CurKnown l r a := by
  obtain ⟨c, hcur, hcl, -⟩ := h
  exact ⟨c, hcur, hcl⟩

theorem InitPc.rank_congr {i : InitCall} {pc : InitPc} (h : SameWords s l r s') (hok : pc.Ok s l r a i) :
    pc.rank s' a = pc.rank s a := by
  cases pc with
  | parentNext => simp only [InitPc.rank, off_congr h hok.2.known]
  | walk => simp only [InitPc.rank, left_congr h hok.2.2, late_congr h hok.2.1.known]
  | setNext | recheck | cas => simp only [InitPc.rank, late_congr h hok.2.1.known]
  | _ => rfl

/-- The rank of a thread stays while another one writes no published node. -/
theorem Thread.rank_congr (h : SameWords s l r s') (hok : th.Ok s l r) : th.rank s' = th.rank s := by
  obtain ⟨a, pc⟩ := th
  cases pc with
  | init i pc => exact InitPc.rank_congr h hok.2
  | findNext f => simp only [Thread.rank, off_congr h hok.2.1.known]
  | findWalk f => simp only [Thread.rank, left_congr h hok.2.2.2, late_congr h hok.2.1.known]
  | insertSetNext hashv d | insertCas hashv d => simp only [Thread.rank, late_congr h hok.2.1.known]
  | insertWalk hashv => simp only [Thread.rank, left_congr h hok.2]
  | _ => rfl

/-! ## Reading a next pointer -/

/-- A read of `cur->next()` is late only at a marked node. -/
theorem late_read (hc : a.cur = some c) : late s { a with next := s.heap.nextOf c } = off s a := by
  simp only [late, off, hc]
  cases hm : (s.heap.node c).next.mark with
  | false => simp [next_eq_of_unmarked hm]
  | true =>
    have hne : (s.heap.node c).next ≠ { ptr := s.heap.nextOf c } := fun h => by
      rw [h] at hm
      cases hm
    simp [hne]

theorem off_eq_zero (hc : a.cur = some c) (hu : (s.heap.node c).next.mark = false) : off s a = 0 := by
  simp [off, hc, hu]

/-- Keys go up along a walk. -/
theorem left_advance (hm : Mem s l r) (hx : x ∈ l ++ r) (hn : a.next = some x) :
    left s (advanceTo s a x) < left s a := by
  have hlt := (s.heap.key x).isLt
  simp only [left, hn, advanceTo]
  split
  · omega
  · rename_i y hy
    have hk : (s.heap.key x).toNat < (s.heap.key y).toNat := (hm.mesh.next_mem hx hy).2
    omega

/-- A walk that is not late stays on the chain, and is not late at the next node. -/
theorem late_advance (hm : Mem s l r) (hq : ∀ x ∈ l, (s.heap.node x).next.mark = false) (hc : CurKnown l r a)
    (hn : a.next = some x) : late s (advanceTo s a x) ≤ late s a := by
  obtain ⟨c, hcur, hcl⟩ := hc
  by_cases hw : (s.heap.node c).next = { ptr := a.next }
  · have hl := hm.mesh.mem_of_unmarked hcl (by rw [hw])
    have hx : x ∈ l := by
      obtain ⟨A, B, rfl⟩ := List.append_of_mem hl
      have hnext : s.heap.nextOf c = some x := (nextOf_eq hw).trans hn
      rw [hm.mesh.seg.next] at hnext
      simp [List.mem_of_head? hnext]
    have hzero : late s (advanceTo s a x) = 0 := by
      simp [late, advanceTo, next_eq_of_unmarked (hq x hx)]
    omega
  · have hlate : late s a = 2 ^ 34 := by simp only [late, hcur, if_neg hw]
    rw [hlate]
    exact late_le

/-! ## One step -/

def FindCall.deletes : FindCall → Bool
  | .deleteNode _ => true
  | _ => false

def InitCaller.deletes : InitCaller → Bool
  | .findNode f => f.deletes
  | _ => false

/-- The call is a `delete_node`. -/
def Pc.deletes : Pc → Bool
  | .initEntry _ k | .initReturn _ k => k.deletes
  | .init i _ => i.caller.deletes
  | .findEntry f | .findBucket f | .findNext f | .findWalk f => f.deletes
  | .deleteMark _ | .deleteUnlink _ | .deleteCount _ => true
  | _ => false

/-- Nothing is marked that was not. -/
def MarksNone (h h' : Heap T) : Prop :=
  ∀ x < h'.size, (h'.node x).next.mark = true → x < h.size ∧ (h.node x).next.mark = true

/-- What a step does that is not part of a `delete_node`: the call returns, or it has fewer links and stores left, or
it gets nearer to the next one and writes nothing published. -/
structure Advances (s : Solist T) (l r : List Addr) (th : Thread) (e : Effect T) : Prop where
  deletes : e.thread.pc.deletes = false
  marks : MarksNone s.heap e.list.heap
  rank : e.thread.pc.isIdle = true ∨ e.thread.pc.due e.list < th.pc.due s ∨
    e.thread.pc.due e.list ≤ th.pc.due s ∧ SameWords s l r e.list ∧ e.thread.rank e.list < th.rank s

theorem MarksNone.refl (h : Heap T) : MarksNone h h := fun _ hx hm => ⟨hx, hm⟩

theorem MarksNone.new {h : Heap T} {b : Node T} (hb : b.next.mark = false) : MarksNone h (h.new b) := by
  intro x hx hm
  by_cases hs : x = h.size
  · subst hs
    rw [new_node_self, hb] at hm
    cases hm
  · have hlt : x < h.size := Nat.lt_of_le_of_ne (Nat.le_of_lt_succ hx) hs
    rw [new_node_of_lt hlt] at hm
    exact ⟨hlt, hm⟩

theorem MarksNone.setNext {h : Heap T} {d : Addr} {m : MarkPtr Addr} (hm : m.mark = true → (h.node d).next.mark = true) :
    MarksNone h (h.setNext d m) := by
  intro x hx hmx
  refine ⟨hx, ?_⟩
  by_cases hd : x = d
  · subst hd
    exact hm (by simpa using hmx)
  · rwa [setNext_node_of_ne hd] at hmx

theorem SameWords.refl (s : Solist T) (l r : List Addr) : SameWords s l r s := fun _ _ => rfl

theorem SameWords.new {b : Node T} (hm : Mem s l r) : SameWords s l r { s with heap := s.heap.new b } := fun _ hx =>
  new_node_of_lt (hm.mesh.lt _ hx)

theorem SameWords.setNext {d : Addr} {m : MarkPtr Addr} (hd : d ∉ l ++ r) :
    SameWords s l r { s with heap := s.heap.setNext d m } := fun _ hx =>
  setNext_node_of_ne fun he => hd (he ▸ hx)

namespace Advances

theorem returns (hm : MarksNone s.heap s'.heap) {res : Option Res} : Advances s l r th (goto s' a (.idle res)) :=
  ⟨rfl, hm, .inl rfl⟩

theorem due (hd : pc.deletes = false) (hm : MarksNone s.heap s'.heap) (h : pc.due s' < th.pc.due s) :
    Advances s l r th (goto s' a pc) :=
  ⟨hd, hm, .inr (.inl h)⟩

theorem write (hd : pc.deletes = false) (hm : MarksNone s.heap s'.heap) (hw : SameWords s l r s')
    (h : pc.due s' ≤ th.pc.due s) (hr : (Thread.mk a pc).rank s' < th.rank s) :
    Advances s l r th (goto s' a pc) :=
  ⟨hd, hm, .inr (.inr ⟨h, hw, hr⟩)⟩

/-- A step that only moves the thread on. -/
theorem move (hd : pc.deletes = false) (h : pc.due s ≤ th.pc.due s) (hr : (Thread.mk a pc).rank s < th.rank s) :
    Advances s l r th (goto s a pc) :=
  write hd (.refl _) (.refl s l r) h hr

end Advances

section Steps

variable {f : FindCall} {hashv slot : Hash} {d : Addr} {i : InitCall} {k : InitCaller}

theorem findEntry_advances (hm : Mem s l r) (hd : f.deletes = false) :
    Advances s l r ⟨a, .findEntry f⟩ (f.entry s a) := by
  obtain ⟨b, hb⟩ := hm.table.bucket (hm.table.umod_lt f.hashv)
  simp only [FindCall.entry, hb]
  cases b with
  | none =>
    have hw : f.wait s = 2 := by simp only [FindCall.wait, hb]
    refine .move hd ?_ (by simp [Thread.rank])
    simp [Pc.due, InitCaller.due, hw]
  | some b => exact .move hd (Nat.le_refl _) (by simp [Thread.rank])

theorem findBucket_advances (hm : Mem s l r) (hq : ∀ x ∈ l, (s.heap.node x).next.mark = false)
    (hset : IsSet s (f.hashv % s.nBuckets)) (hd : f.deletes = false) :
    Advances s l r ⟨a, .findBucket f⟩ (f.bucket s a) := by
  obtain ⟨b, hb⟩ := hset
  simp only [FindCall.bucket, hb]
  refine .move hd (Nat.le_refl _) ?_
  have hoff : off s { a with prev := some b, cur := some b } = 0 := off_eq_zero rfl (hq b (hm.slot _ _ hb).1)
  simp [Thread.rank, hoff]

theorem findNext_advances (hc : CurKnown l r a) (hd : f.deletes = false) :
    Advances s l r ⟨a, .findNext f⟩ (f.next s a) := by
  obtain ⟨c, hcur, -⟩ := hc
  simp only [FindCall.next, hcur]
  refine .move hd (Nat.le_refl _) ?_
  have hlate := late_read (s := s) hcur
  have hleft : left s { a with next := s.heap.nextOf c } ≤ 2 ^ 32 := left_le
  simp only [late, left, off, hcur, Thread.rank] at hlate hleft ⊢
  omega

/-- What the call does with the node the search stopped at. -/
theorem found_advances (hd : f.deletes = false) (b : Bool) :
    Advances s l r ⟨a, .findWalk f⟩ (f.found s a b) := by
  cases f with
  | insertNode hashv d =>
    cases b with
    | true => exact ⟨rfl, .refl _, .inl rfl⟩
    | false => exact .move rfl (Nat.le_refl _) (by simp only [Thread.rank]; omega)
  | deleteNode hashv => cases hd
  | findItemNode hashv => exact .returns (.refl _)

theorem findWalk_advances (hm : Mem s l r) (hq : ∀ x ∈ l, (s.heap.node x).next.mark = false) (hc : CurKnown l r a)
    (hn : NextKnown l r a) (hd : f.deletes = false) : Advances s l r ⟨a, .findWalk f⟩ (f.walk s a) := by
  simp only [FindCall.walk]
  cases hnx : a.next with
  | none => exact found_advances hd _
  | some x =>
    by_cases hle : s.heap.key x ≤ solNodeKey f.hashv
    · simp only [hle, if_true]
      refine .move hd (Nat.le_refl _) ?_
      have hleft := left_advance hm (hn x hnx) hnx
      have hlate := late_advance hm hq hc hnx
      change left s (advanceTo s a x) + 3 + late s (advanceTo s a x) < left s a + 3 + late s a
      omega
    · simp only [hle, if_false]
      exact found_advances hd _

/-- **The link** of `insert_node`: its `CAS` fails only where it was to. -/
theorem insertCas_advances (hc : CurKnown l r a) :
    Advances s l r ⟨a, .insertCas hashv d⟩ (insertCas hashv d s a) := by
  obtain ⟨c, hcur, -⟩ := hc
  by_cases hcas : (s.heap.node c).next = { ptr := a.next }
  · simp only [insertCas, hcur, MarkPtr.cas_ok hcas, if_true]
    refine ⟨rfl, .setNext (fun h => by cases h), .inr (.inl ?_)⟩
    simp only [goto, Pc.due, FindCall.due]
    omega
  · simp only [insertCas, hcur, MarkPtr.cas_fail hcas, setNext_self]
    refine .move rfl (Nat.le_refl _) ?_
    simp only [Thread.rank, late, hcur, if_neg hcas]
    omega

theorem insertNext_advances (hc : CurKnown l r a) : Advances s l r ⟨a, .insertNext hashv⟩ (insertNext hashv s a) := by
  obtain ⟨c, hcur, -⟩ := hc
  simp only [insertNext, hcur]
  refine .move rfl (Nat.le_refl _) ?_
  have hleft : left s { a with next := s.heap.nextOf c } ≤ 2 ^ 32 := left_le
  simp only [left, Thread.rank] at hleft ⊢
  omega

theorem insertWalk_advances (hm : Mem s l r) (hn : NextKnown l r a) :
    Advances s l r ⟨a, .insertWalk hashv⟩ (insertWalk hashv s a) := by
  have hcheck : Advances s l r ⟨a, .insertWalk hashv⟩ (goto s a (.insertCheck hashv)) :=
    .move rfl (Nat.le_refl _) (by simp only [Thread.rank]; omega)
  simp only [insertWalk]
  cases hnx : a.next with
  | none => exact hcheck
  | some x =>
    by_cases hnode : (s.heap.node x).isNode
    · simp only [hnode, if_true]
      have hleft := left_advance hm (hn x hnx) hnx
      exact .move rfl (Nat.le_refl _) (Nat.add_lt_add_right hleft 2)
    · simp only [hnode]
      exact hcheck

theorem insertCheck_advances : Advances s l r ⟨a, .insertCheck hashv⟩ (insertCheck hashv s a) := by
  simp only [insertCheck]
  split
  · split
    · exact .due rfl (.refl _) (by decide : 0 < 3)
    · split
      · exact .due rfl (.refl _) (by decide : 2 < 3)
      · exact .returns (.refl _)
  · exact .returns (.refl _)

theorem initEntry_advances (hm : Mem s l r) (hs : slot < s.nBuckets) (hd : k.deletes = false) :
    Advances s l r ⟨a, .initEntry slot k⟩ (initEntry slot k s a) := by
  obtain ⟨b, hb⟩ := hm.table.bucket hs
  simp only [initEntry, hs, not_true_eq_false, if_false, hb]
  cases b with
  | some b => exact .due hd (.refl _) (by simp [Pc.due])
  | none =>
    simp only [solistBucket_ok (hm.table.slot_lt hs)]
    refine .write hd (.new rfl) (.new hm) (Nat.le_refl _) ?_
    have hlt := (reverseHashtBits slot).isLt
    simp only [Thread.rank, InitPc.rank]
    omega

theorem initReturn_advances (h : IsSet s slot ∧ k.Ok s l r slot) (hd : k.deletes = false) :
    Advances s l r ⟨a, .initReturn slot k⟩ (initReturn k s a) := by
  cases k with
  | caller => exact .returns (.refl _)
  | insertNode => exact .returns (.refl _)
  | findNode f =>
    obtain ⟨hset, -, rfl⟩ := h
    refine .move hd ?_ (by simp [Thread.rank])
    simp [Pc.due, InitCaller.due, FindCall.wait_isSet hset]

/-- A step of `initialise_bucket` within the loop or behind it. -/
theorem init_move {p q : InitPc} (hd : i.caller.deletes = false) (h : q.looping = true → p.looping = true)
    (hr : q.rank s a' < p.rank s a) : Advances s l r ⟨a, .init i p⟩ (goto s a' (.init i q)) := by
  refine .move hd ?_ hr
  simp only [Pc.due]
  cases hq : q.looping with
  | true => simp [h hq]
  | false =>
    simp only [Bool.false_eq_true, if_false]
    split <;> omega

/-- A step out of the loop. -/
theorem init_leave {p q : InitPc} (hd : i.caller.deletes = false) (hm : MarksNone s.heap s'.heap)
    (hp : p.looping = true) (hq : q.looping = false) : Advances s l r ⟨a, .init i p⟩ (goto s' a (.init i q)) :=
  .due hd hm (by simp [Pc.due, hp, hq])

/-- A step behind the loop: it writes nothing published but the slot. -/
theorem init_behind {p q : InitPc} (hd : i.caller.deletes = false) (hsize : s'.heap.size = s.heap.size)
    (hm : s'.heap.node = s.heap.node) (hp : p.looping = false) (hq : q.looping = false)
    (hr : q.rank s' a' < p.rank s a) :
    Advances s l r ⟨a, .init i p⟩ (goto s' a' (.init i q)) :=
  .write hd (fun x hx hmx => by rw [hsize] at hx; rw [hm] at hmx; exact ⟨hx, hmx⟩) (fun x _ => by rw [hm])
    (by simp [Pc.due, hp, hq]) hr

/-- **Every step of `initialise_bucket`**. -/
theorem init_advances (hm : Mem s l r) (hq : ∀ x ∈ l, (s.heap.node x).next.mark = false) (hi : i.Ok s l r)
    {pc : InitPc} (h : pc.Ok s l r a i) (hd : i.caller.deletes = false) :
    Advances s l r ⟨a, .init i pc⟩ (i.step s a pc) := by
  obtain ⟨b, hb⟩ := hm.table.bucket hi.slot
  cases pc with
  | probe pbKey =>
    obtain ⟨-, hne, -, hlt⟩ := h
    obtain ⟨step, b, hstep, hdown, -, hb, -⟩ := probe_spec hm hne hlt
    have hdown : (pbKey - step).toNat < pbKey.toNat := hdown
    simp only [InitCall.step, hstep, hb]
    split
    · exact init_move hd id (by simp only [InitPc.rank]; omega)
    · exact init_move hd id (by simp only [InitPc.rank]; omega)
  | parent pbSlot =>
    obtain ⟨-, ⟨b, hb⟩, -⟩ := h
    simp only [InitCall.step, hb]
    have hoff : off s { a with prev := some b, cur := some b } = 0 := off_eq_zero rfl (hq b (hm.slot _ _ hb).1)
    exact init_move hd id (by simp [InitPc.rank, hoff])
  | parentNext =>
    obtain ⟨-, c, hcur, -⟩ := h
    simp only [InitCall.step, hcur]
    have hlate := late_read (s := s) hcur
    have hleft : left s { a with next := s.heap.nextOf c } ≤ 2 ^ 32 := left_le
    refine init_move hd id ?_
    simp only [late, left, off, hcur, InitPc.rank] at hlate hleft ⊢
    omega
  | walk =>
    obtain ⟨-, hc, hn⟩ := h
    have hend : Advances s l r ⟨a, .init i .walk⟩ (goto s a (.init i .setNext)) :=
      init_move hd id (by simp only [InitPc.rank]; omega)
    simp only [InitCall.step]
    cases hnx : a.next with
    | none => exact hend
    | some x =>
      by_cases hlt : s.heap.key x < s.heap.key i.node
      · simp only [hlt, if_true]
        have hleft := left_advance hm (hn x hnx) hnx
        have hlate := late_advance hm hq hc.known hnx
        exact init_move hd id (by simp only [InitPc.rank]; omega)
      · simp only [hlt, if_false]
        exact hend
  | setNext =>
    obtain ⟨hp, hc, -⟩ := h
    simp only [InitCall.step, assign_eq hp]
    have hw : SameWords s l r { s with heap := s.heap.setNext i.node { ptr := a.next } } := .setNext hp.notMem
    refine .write hd (.setNext (fun h => by cases h)) hw (Nat.le_refl _) ?_
    simp only [Thread.rank, InitPc.rank, late_congr hw hc.known]
    omega
  | recheck =>
    simp only [InitCall.step, hb]
    have hcas : Advances s l r ⟨a, .init i .recheck⟩ (goto s a (.init i .cas)) :=
      init_move hd id (by simp only [InitPc.rank]; omega)
    cases b with
    | some b => exact init_leave hd (.refl _) rfl rfl
    | none =>
      cases hnx : a.next with
      | none => exact hcas
      | some x =>
        by_cases hkey : s.heap.key x = s.heap.key i.node
        · simp only [hkey, if_true]
          exact init_leave hd (.refl _) rfl rfl
        · simp only [hkey, if_false]
          exact hcas
  | cas =>
    obtain ⟨-, ⟨c, hcur, -⟩, -⟩ := h
    by_cases hcas : (s.heap.node c).next = { ptr := a.next }
    · simp only [InitCall.step, hcur, MarkPtr.cas_ok hcas, if_true]
      exact init_leave hd (.setNext (fun h => by cases h)) rfl rfl
    · simp only [InitCall.step, hcur, MarkPtr.cas_fail hcas, setNext_self]
      have hlt := (s.heap.key i.node).isLt
      refine init_move hd id ?_
      simp only [Bool.false_eq_true, if_false, InitPc.rank, late, hcur, if_neg hcas]
      omega
  | settle =>
    simp only [InitCall.step, hb]
    cases b with
    | some b => exact init_behind hd rfl rfl rfl rfl (by simp [InitPc.rank])
    | none => exact init_behind hd rfl rfl rfl rfl (by simp [InitPc.rank])
  | won =>
    obtain ⟨⟨c, hcur, -⟩, -⟩ := h
    simp only [InitCall.step, hcur]
    split
    · exact init_behind hd rfl rfl rfl rfl (by simp [InitPc.rank])
    · exact init_behind hd rfl rfl rfl rfl (by simp [InitPc.rank])
  | store => exact init_behind hd rfl rfl rfl rfl (by simp [InitPc.rank])
  | storeNext => exact init_behind hd rfl rfl rfl rfl (by simp [InitPc.rank])
  | assertNext =>
    obtain ⟨-, b, hb⟩ := h
    simp only [InitCall.step, hb, hm.key_slot hb, hi.key, if_true]
    exact init_behind hd rfl rfl rfl rfl (by simp [InitPc.rank])
  | discard => exact init_behind hd rfl rfl rfl rfl (by simp [InitPc.rank])
  | assertSet =>
    obtain ⟨b, hb⟩ := h
    simp only [InitCall.step, hb]
    exact init_behind hd rfl rfl rfl rfl (by simp [InitPc.rank])
  | assertKey =>
    obtain ⟨b, hb⟩ := h
    simp only [InitCall.step, hb, hm.key_slot hb, hi.key, if_true]
    refine .due hd (.refl _) ?_
    change i.caller.due < i.caller.due + 1
    omega

end Steps

/-- **Every step that is not part of a `delete_node`.** -/
theorem Thread.step_advances (hm : Mem s l r) (hq : ∀ x ∈ l, (s.heap.node x).next.mark = false) (h : th.Ok s l r)
    (hd : th.pc.deletes = false) (he : th.step s = some e) : Advances s l r th e := by
  obtain ⟨a, pc⟩ := th
  cases pc with
  | idle res => cases he
  | expand hashv => cases he
  | crashed => cases he
  | initEntry slot k =>
    cases he
    exact initEntry_advances hm h.1 hd
  | init i pc =>
    cases he
    exact init_advances hm hq h.1 h.2 hd
  | initReturn slot k =>
    cases he
    exact initReturn_advances h hd
  | findEntry f =>
    cases he
    exact findEntry_advances hm hd
  | findBucket f =>
    cases he
    exact findBucket_advances hm hq h.2 hd
  | findNext f =>
    cases he
    exact findNext_advances h.2.1.known hd
  | findWalk f =>
    cases he
    exact findWalk_advances hm hq h.2.1.known h.2.2.2 hd
  | insertSetNext hashv d =>
    cases he
    have hp := h.1.2.priv
    rw [assign_eq hp]
    have hw : SameWords s l r { s with heap := s.heap.setNext d { ptr := a.next } } := .setNext hp.notMem
    refine .write rfl (.setNext (fun h => by cases h)) hw (Nat.le_refl _) ?_
    simp only [Thread.rank, late_congr hw h.2.1.known]
    omega
  | insertCas hashv d =>
    cases he
    exact insertCas_advances h.2.1.known
  | insertCount hashv =>
    cases he
    exact .write rfl (.refl _) (.refl s l r) (Nat.le_refl _) (by simp [Thread.rank])
  | insertNext hashv =>
    cases he
    exact insertNext_advances h
  | insertWalk hashv =>
    cases he
    exact insertWalk_advances hm h.2
  | insertCheck hashv =>
    cases he
    exact insertCheck_advances
  | deleteMark hashv => cases hd
  | deleteUnlink hashv => cases hd
  | deleteCount hashv => cases hd

/-- A call that begins has fewer links and stores left than a thread between calls may still make. -/
theorem Thread.call_advances {op : Op T} (hidle : th.pc.isIdle = true) (hv : op.Valid s)
    (hd : ∀ hashv, op ≠ .deleteNode hashv) : Advances s l r th (th.call s op) := by
  have hdue : th.pc.due s = 9 := by
    obtain ⟨res, hres⟩ := Pc.isIdle_iff.mp hidle
    rw [hres]
    rfl
  have hfind : ∀ (f : FindCall) (s' : Solist T), f.due + f.wait s' < 9 := by
    intro f s'
    have hw : f.wait s' ≤ 2 := FindCall.wait_le
    cases f <;> simp only [FindCall.due] <;> omega
  cases op with
  | insertNode hashv v =>
    simp only [Thread.call, solistNode_ok v hv]
    exact .due rfl (.new rfl) (by rw [hdue]; exact hfind _ _)
  | deleteNode hashv => exact absurd rfl (hd hashv)
  | findItemNode hashv => exact .due rfl (.refl _) (by rw [hdue]; exact hfind _ _)
  | initialiseBucket slot => exact .due rfl (.refl _) (by rw [hdue]; exact (by decide : 2 < 9))

/-! ## Runs -/

section Runs

variable {σ σ' : State T n} {l' r' : List Addr} {t : Fin n} {start : Solist T → Prop} {ops : Op T → Bool}
  {ev : Event T n}

/-- No `delete_node` is under way, and what is marked has been unlinked. -/
structure Quiet (σ : State T n) : Prop where
  deletes : ∀ t, (σ.thread t).pc.deletes = false
  marked : ∀ x < σ.list.heap.size, (σ.list.heap.node x).next.mark = true → x ∈ σ.unlinks.map Prod.snd

theorem Quiet.unmarked (hq : Quiet σ) (h : Inv σ l r) : ∀ x ∈ l, (σ.list.heap.node x).next.mark = false := by
  intro x hx
  by_contra hm
  have hr := hq.marked x (h.mem.mesh.lt x (by simp [hx])) (by simpa using hm)
  rw [← h.unlinks] at hr
  exact h.mem.mesh.notMem_removed hx hr

theorem Quiet.apply (hq : Quiet σ) (ha : Advances σ.list l r (σ.thread t) e) : Quiet (σ.apply t e) := by
  refine ⟨fun u => ?_, fun x hx hm => ?_⟩
  · by_cases hu : u = t
    · subst hu
      rw [State.apply_thread]
      exact ha.deletes
    · rw [show (σ.apply t e).thread u = σ.thread u from Function.update_of_ne hu ..]
      exact hq.deletes u
  · simp only [State.apply, List.map_append, List.mem_append]
    obtain ⟨hlt, hmx⟩ := ha.marks x hx hm
    exact .inl (hq.marked x hlt hmx)

/-- The links and stores the threads have left, and the steps to the next ones. -/
def State.rank (σ : State T n) : Nat ×ₗ Nat :=
  toLex (∑ t, (σ.thread t).pc.due σ.list, ∑ t, (σ.thread t).rank σ.list)

/-- **The rank falls** with each event that does not end a call. -/
theorem Inv.rank_apply (h : Inv σ l r) (hk : Keeps σ.list l r (σ.thread t) e l' r')
    (ha : Advances σ.list l r (σ.thread t) e) : e.thread.pc.isIdle = true ∨ (σ.apply t e).rank < σ.rank := by
  have hother : ∀ u, u ≠ t → (σ.apply t e).thread u = σ.thread u := fun u hu => Function.update_of_ne hu ..
  have hmono : ∀ u, u ≠ t → ((σ.apply t e).thread u).pc.due e.list ≤ (σ.thread u).pc.due σ.list := by
    intro u hu
    rw [hother u hu]
    exact Pc.due_mono hk.frame.nBuckets hk.frame.isSet
  rcases ha.rank with hi | hlt | ⟨hle, hw, hlt⟩
  · exact .inl hi
  · refine .inr (Prod.Lex.toLex_lt_toLex.mpr (.inl (Finset.sum_lt_sum (fun u _ => ?_) ⟨t, Finset.mem_univ t, ?_⟩)))
    · by_cases hu : u = t
      · subst hu
        rw [State.apply_thread]
        exact Nat.le_of_lt hlt
      · exact hmono u hu
    · rw [State.apply_thread]
      exact hlt
  · have hdues : ∑ u, ((σ.apply t e).thread u).pc.due e.list ≤ ∑ u, (σ.thread u).pc.due σ.list := by
      refine Finset.sum_le_sum fun u _ => ?_
      by_cases hu : u = t
      · subst hu
        rw [State.apply_thread]
        exact hle
      · exact hmono u hu
    -- the other threads are as far from their links as before
    have hsteps : ∑ u, ((σ.apply t e).thread u).rank e.list < ∑ u, (σ.thread u).rank σ.list := by
      refine Finset.sum_lt_sum (fun u _ => ?_) ⟨t, Finset.mem_univ t, by rw [State.apply_thread]; exact hlt⟩
      by_cases hu : u = t
      · subst hu
        rw [State.apply_thread]
        exact Nat.le_of_lt hlt
      · rw [hother u hu, Thread.rank_congr hw (h.thread u)]
    refine .inr (Prod.Lex.toLex_lt_toLex.mpr ?_)
    rcases Nat.lt_or_eq_of_le hdues with hlt | heq
    · exact .inl hlt
    · exact .inr ⟨heq, hsteps⟩

/-- The event ends a call. -/
def Event.Returns (σ' : State T n) : Event T n → Prop
  | .call _ _ => False
  | .step t => (σ'.thread t).pc.isIdle = true

theorem Quiet.next (hq : Quiet σ) (h : Inv σ l r) (hu : Undisturbed σ ev)
    (hd : ∀ t hashv, ev ≠ .call t (.deleteNode hashv)) (hn : (machine T n start ops).next σ ev = some σ') :
    Quiet σ' ∧ ∃ l' r', Inv σ' l' r' ∧ (ev.Returns σ' ∨ σ'.rank < σ.rank) := by
  cases ev with
  | call t op =>
    simp only [machine] at hn
    split at hn
    · rename_i hen
      cases hn
      have hk := Thread.call_keeps h.mem hen.1 hen.2.2
      have ha : Advances σ.list l r (σ.thread t) ((σ.thread t).call σ.list op) :=
        Thread.call_advances hen.1 hen.2.2 fun hashv hop => hd t hashv (by rw [hop])
      refine ⟨hq.apply ha, l, r, h.step hk, .inr ((h.rank_apply hk ha).resolve_left ?_)⟩
      cases op with
      | insertNode hashv v => simp [Thread.call, solistNode_ok v hen.2.2, goto, Pc.isIdle]
      | _ => simp [Thread.call, goto, Pc.isIdle]
    · cases hn
  | step t =>
    obtain ⟨e, he, rfl⟩ := Option.map_eq_some_iff.mp hn
    obtain ⟨l', r', hk⟩ := Thread.step_keeps h.mem (h.thread t) hu he
    have ha := Thread.step_advances h.mem (hq.unmarked h) (h.thread t) (hq.deletes t) he
    refine ⟨hq.apply ha, l', r', h.step hk, ?_⟩
    have hrank := h.rank_apply hk ha
    simpa only [Event.Returns, State.apply_thread] using hrank

def Event.isDelete : Event T n → Bool
  | .call _ (.deleteNode _) => true
  | _ => false

end Runs

end Concurrent

end SplitOrder
