/-
The invariant of the concurrent list.

`Mem` is the shared part: the chain `l`, the unlinked nodes `r` and the
table. `Thread.Ok` says what a thread knows at each point of its call:
which of its pointers are published, how their keys lie to the one it
looks for, and which node it still owns. `Frame` is what a step of one
thread leaves alone for the others, and `Keeps` what it has to establish;
`Inv.step` puts the two together.
-/
import Mathlib.Data.BitVec
import Mathlib.Tactic.LinearCombination
import Mathlib.Tactic.Ring
import SplitOrder.Concurrent.Memory
import SplitOrder.Lib.Sums

namespace SplitOrder

namespace Concurrent

open Heap

variable {T : Type}

/-! ## Shared memory -/

structure Mem (s : Solist T) (l r : List Addr) : Prop where
  mesh : s.heap.Mesh l r
  nBuckets : ∃ k ≤ 31, s.nBuckets.toNat = 2 ^ k
  size : s.buckets.length = s.nBuckets.toNat
  first : ∃ b, s.buckets[0]? = some (some b)
  slot : ∀ i a, s.buckets[i]? = some (some a) →
    a ∈ l ∧ s.heap.isData a = false ∧ (s.heap.node a).hashv.toNat = i

/-- The slot holds a dummy. -/
def IsSet (s : Solist T) (slot : Hash) : Prop := ∃ b, s.buckets[slot.toNat]? = some (some b)

namespace Mem

variable {s : Solist T} {l r : List Addr} {slot hashv : Hash} {b : Addr}

theorem table (hm : Mem s l r) : s.Table := ⟨hm.nBuckets, hm.size⟩

theorem key_slot (hm : Mem s l r) (h : s.buckets[slot.toNat]? = some (some b)) :
    s.heap.key b = reverseHashtBits slot := by
  obtain ⟨hb, hd, hv⟩ := hm.slot _ _ h
  rw [hm.mesh.key_dummy (by simp [hb]) hd, BitVec.eq_of_toNat_eq hv]

/-- A search starts below the key it looks for. -/
theorem key_bucket_lt (hm : Mem s l r) (hh : hashv.toNat < 2 ^ 31)
    (h : s.buckets[(hashv % s.nBuckets).toNat]? = some (some b)) : s.heap.key b < solNodeKey hashv := by
  obtain ⟨k, -, hn⟩ := hm.nBuckets
  rw [hm.key_slot h]
  exact solBucketKey_lt_solNodeKey hn hh

/-- The heap changes under a table that stays. -/
theorem ofHeap {h : Heap T} {l' r' : List Addr} (hm : Mem s l r) (hmesh : h.Mesh l' r') (he : s.heap.Extends h)
    (hl : ∀ a ∈ l, s.heap.isData a = false → a ∈ l') : Mem { s with heap := h } l' r' := by
  refine ⟨hmesh, hm.nBuckets, hm.size, hm.first, fun i a ha => ?_⟩
  obtain ⟨h1, h2, h3⟩ := hm.slot i a ha
  have hlt := hm.mesh.lt a (by simp [h1])
  exact ⟨hl a h1 h2, by rw [he.isData hlt, h2], by rw [he.hashv a hlt, h3]⟩

end Mem

/-! ## What a thread knows -/

section Knows

variable (s : Solist T) (l r : List Addr) (a : Accessor)

/-- `cur` is published, with a key below `k`. -/
def CurBelow (k : SoKey) : Prop := ∃ c, a.cur = some c ∧ c ∈ l ++ r ∧ s.heap.key c < k

/-- `cur` is published, with a key of at most `k`. -/
def CurLe (k : SoKey) : Prop := ∃ c, a.cur = some c ∧ c ∈ l ++ r ∧ s.heap.key c ≤ k

/-- `cur` is the data node of the hash. -/
def CurIs (k : SoKey) : Prop := ∃ c, a.cur = some c ∧ c ∈ l ++ r ∧ s.heap.key c = k

def CurKnown : Prop := ∃ c, a.cur = some c ∧ c ∈ l ++ r

def PrevKnown : Prop := ∃ c, a.prev = some c ∧ c ∈ l ++ r

def NextKnown : Prop := ∀ x, a.next = some x → x ∈ l ++ r

/-- `next` is null or has a key above `k`. -/
def NextAbove (k : SoKey) : Prop := ∀ x, a.next = some x → x ∈ l ++ r ∧ k < s.heap.key x

def NextGe (k : SoKey) : Prop := ∀ x, a.next = some x → x ∈ l ++ r ∧ k ≤ s.heap.key x

/-- `next` is another thread's dummy with the key `k`. -/
def NextIs (k : SoKey) : Prop := ∃ x, a.next = some x ∧ x ∈ l ++ r ∧ s.heap.key x = k

/-- The new node of `insert_node(hashv)`. -/
structure DNode (h : Hash) (d : Addr) : Prop where
  priv : s.heap.Private l r d
  hashv : (s.heap.node d).hashv = h
  key : s.heap.key d = solNodeKey h
  data : s.heap.isData d = true

def FindCall.Ok (c : FindCall) : Prop :=
  c.hashv.toNat < 2 ^ 31 ∧
    match c with
    | .insertNode hashv d => DNode s l r hashv d
    | _ => True

def InitCaller.Ok (slot : Hash) : InitCaller → Prop
  | .findNode c => c.Ok s l r ∧ slot = c.hashv % s.nBuckets
  | _ => True

/-- The dummy of a call of `initialise_bucket`, linked or not. -/
structure InitCall.Ok (i : InitCall) : Prop where
  slot : i.slot < s.nBuckets
  slot_ne : i.slot ≠ 0#32
  lt : i.node < s.heap.size
  hashv : (s.heap.node i.node).hashv = i.slot
  key : s.heap.key i.node = reverseHashtBits i.slot
  dummy : s.heap.isData i.node = false
  caller : i.caller.Ok s l r i.slot

def InitPc.Ok (i : InitCall) : InitPc → Prop
  | .probe pbKey => s.heap.Private l r i.node ∧ pbKey ≠ 0#32 ∧ pbKey ≤ reverseHashtBits i.slot ∧
      reverseHashtBits pbKey < s.nBuckets
  | .parent pbSlot => s.heap.Private l r i.node ∧ IsSet s pbSlot ∧ reverseHashtBits pbSlot < reverseHashtBits i.slot
  | .parentNext => s.heap.Private l r i.node ∧ CurBelow s l r a (reverseHashtBits i.slot)
  | .walk => s.heap.Private l r i.node ∧ CurBelow s l r a (reverseHashtBits i.slot) ∧ NextKnown l r a
  | .setNext =>
      s.heap.Private l r i.node ∧ CurBelow s l r a (reverseHashtBits i.slot) ∧ NextGe s l r a (reverseHashtBits i.slot)
  | .recheck => s.heap.Private l r i.node ∧ CurBelow s l r a (reverseHashtBits i.slot) ∧
      NextGe s l r a (reverseHashtBits i.slot) ∧ (s.heap.node i.node).next = { ptr := a.next }
  | .cas => s.heap.Private l r i.node ∧ CurBelow s l r a (reverseHashtBits i.slot) ∧
      NextAbove s l r a (reverseHashtBits i.slot) ∧ (s.heap.node i.node).next = { ptr := a.next }
  | .settle => CurKnown l r a ∧ (i.node ∈ l ∧ NextAbove s l r a (reverseHashtBits i.slot) ∨
      s.heap.Private l r i.node ∧ (IsSet s i.slot ∨ NextIs s l r a (reverseHashtBits i.slot)))
  | .won => CurKnown l r a ∧ (i.node ∈ l ∧ NextAbove s l r a (reverseHashtBits i.slot) ∨
      s.heap.Private l r i.node ∧ NextIs s l r a (reverseHashtBits i.slot))
  | .store => i.node ∈ l
  | .storeNext => s.heap.Private l r i.node ∧ NextIs s l r a (reverseHashtBits i.slot)
  | .assertNext | .discard => s.heap.Private l r i.node ∧ IsSet s i.slot
  | .assertSet | .assertKey => IsSet s i.slot

def Pc.Ok : Pc → Prop
  | .idle _ | .expand _ | .insertCheck _ => True
  | .initEntry slot k => slot < s.nBuckets ∧ k.Ok s l r slot
  | .init i pc => i.Ok s l r ∧ pc.Ok s l r a i
  | .initReturn slot k => IsSet s slot ∧ k.Ok s l r slot
  | .findEntry c => c.Ok s l r
  | .findBucket c => c.Ok s l r ∧ IsSet s (c.hashv % s.nBuckets)
  | .findNext c => c.Ok s l r ∧ CurLe s l r a (solNodeKey c.hashv) ∧ PrevKnown l r a
  | .findWalk c => c.Ok s l r ∧ CurLe s l r a (solNodeKey c.hashv) ∧ PrevKnown l r a ∧ NextKnown l r a
  | .insertSetNext hashv d =>
      (hashv.toNat < 2 ^ 31 ∧ DNode s l r hashv d) ∧ CurBelow s l r a (solNodeKey hashv) ∧
        NextAbove s l r a (solNodeKey hashv)
  | .insertCas hashv d =>
      (hashv.toNat < 2 ^ 31 ∧ DNode s l r hashv d) ∧ CurBelow s l r a (solNodeKey hashv) ∧
        NextAbove s l r a (solNodeKey hashv) ∧ (s.heap.node d).next = { ptr := a.next }
  | .insertCount _ | .insertNext _ => CurKnown l r a
  | .insertWalk _ => CurKnown l r a ∧ NextKnown l r a
  | .deleteMark hashv =>
      hashv.toNat < 2 ^ 31 ∧ CurIs s l r a (solNodeKey hashv) ∧ PrevKnown l r a ∧ NextAbove s l r a (solNodeKey hashv)
  | .deleteUnlink hashv =>
      hashv.toNat < 2 ^ 31 ∧ PrevKnown l r a ∧ ∃ c, a.cur = some c ∧ c ∈ l ∧ s.heap.key c = solNodeKey hashv ∧
        (s.heap.node c).next = { ptr := a.next, mark := true }
  | .deleteCount _ => ∃ c, a.cur = some c ∧ c ∈ r
  | .crashed => False

end Knows

def Thread.Ok (s : Solist T) (l r : List Addr) (th : Thread) : Prop := th.pc.Ok s l r th.a

/-! ## What a thread holds -/

def FindCall.holds : FindCall → List Addr
  | .insertNode _ d => [d]
  | _ => []

def InitCaller.holds : InitCaller → List Addr
  | .findNode c => c.holds
  | _ => []

/-- The nodes a call has made, linked or not, and the one it has marked:
no other call makes, marks or unlinks these. -/
def Thread.holds (th : Thread) : List Addr :=
  match th.pc with
  | .initEntry _ k | .initReturn _ k => k.holds
  | .init i _ => i.node :: i.caller.holds
  | .findEntry c | .findBucket c | .findNext c | .findWalk c => c.holds
  | .insertSetNext _ d | .insertCas _ d => [d]
  | .deleteUnlink _ | .deleteCount _ => th.a.cur.toList
  | _ => []

/-- What the call still owes the counter. -/
def Pc.owes : Pc → Hash
  | .insertCount _ => 1
  | .deleteCount _ => -1
  | _ => 0

/-! ## What a step leaves alone -/

/-- What a step that only works on the nodes `mine` leaves as it was. -/
structure Frame (s : Solist T) (l r : List Addr) (s' : Solist T) (l' r' : List Addr) (mine : List Addr) : Prop where
  nBuckets : s'.nBuckets = s.nBuckets
  ext : s.heap.Extends s'.heap
  known : ∀ a ∈ l ++ r, a ∈ l' ++ r'
  removed : ∀ a ∈ r, a ∈ r'
  dummy : ∀ a ∈ l, s.heap.isData a = false → a ∈ l'
  isSet : ∀ i, IsSet s i → IsSet s' i
  priv : ∀ a, a ∉ mine → s.heap.Private l r a →
    s'.heap.Private l' r' a ∧ (s'.heap.node a).next = (s.heap.node a).next
  held : ∀ a, a ∉ mine → a ∈ l → (s.heap.node a).next.mark = true →
    a ∈ l' ∧ (s'.heap.node a).next = (s.heap.node a).next

namespace Frame

variable {s s' : Solist T} {l r l' r' mine : List Addr} {a : Accessor} {k : SoKey}

theorem refl (s : Solist T) (l r mine : List Addr) : Frame s l r s l r mine :=
  ⟨rfl, .refl _, fun _ h => h, fun _ h => h, fun _ h _ => h, fun _ h => h, fun _ _ h => ⟨h, rfl⟩,
    fun _ _ h _ => ⟨h, rfl⟩⟩

section Knows

variable (hf : Frame s l r s' l' r' mine) (hm : Mem s l r)

include hf hm

theorem key {c : Addr} (hc : c ∈ l ++ r) : s'.heap.key c = s.heap.key c := hf.ext.key c (hm.mesh.lt c hc)

theorem curBelow (h : CurBelow s l r a k) : CurBelow s' l' r' a k := by
  obtain ⟨c, h1, h2, h3⟩ := h
  exact ⟨c, h1, hf.known c h2, by rwa [hf.key hm h2]⟩

theorem curLe (h : CurLe s l r a k) : CurLe s' l' r' a k := by
  obtain ⟨c, h1, h2, h3⟩ := h
  exact ⟨c, h1, hf.known c h2, by rwa [hf.key hm h2]⟩

theorem curIs (h : CurIs s l r a k) : CurIs s' l' r' a k := by
  obtain ⟨c, h1, h2, h3⟩ := h
  exact ⟨c, h1, hf.known c h2, by rwa [hf.key hm h2]⟩

theorem nextAbove (h : NextAbove s l r a k) : NextAbove s' l' r' a k := by
  intro x hx
  obtain ⟨h1, h2⟩ := h x hx
  exact ⟨hf.known x h1, by rwa [hf.key hm h1]⟩

theorem nextGe (h : NextGe s l r a k) : NextGe s' l' r' a k := by
  intro x hx
  obtain ⟨h1, h2⟩ := h x hx
  exact ⟨hf.known x h1, by rwa [hf.key hm h1]⟩

theorem nextIs (h : NextIs s l r a k) : NextIs s' l' r' a k := by
  obtain ⟨c, h1, h2, h3⟩ := h
  exact ⟨c, h1, hf.known c h2, by rwa [hf.key hm h2]⟩

omit hm

theorem curKnown (h : CurKnown l r a) : CurKnown l' r' a := by
  obtain ⟨c, h1, h2⟩ := h
  exact ⟨c, h1, hf.known c h2⟩

theorem prevKnown (h : PrevKnown l r a) : PrevKnown l' r' a := by
  obtain ⟨c, h1, h2⟩ := h
  exact ⟨c, h1, hf.known c h2⟩

theorem nextKnown (h : NextKnown l r a) : NextKnown l' r' a := fun x hx => hf.known x (h x hx)

theorem dnode {hashv : Hash} {d : Addr} (hd : d ∉ mine) (h : DNode s l r hashv d) : DNode s' l' r' hashv d :=
  ⟨(hf.priv d hd h.priv).1, by rw [hf.ext.hashv d h.priv.lt, h.hashv], by rw [hf.ext.key d h.priv.lt, h.key],
    by rw [hf.ext.isData h.priv.lt, h.data]⟩

theorem findCall {c : FindCall} (hd : ∀ d ∈ c.holds, d ∉ mine) (h : c.Ok s l r) : c.Ok s' l' r' := by
  cases c with
  | insertNode hashv d => exact ⟨h.1, hf.dnode (hd d (by simp [FindCall.holds])) h.2⟩
  | deleteNode hashv => exact h
  | findItemNode hashv => exact h

theorem initCaller {k : InitCaller} {slot : Hash} (hd : ∀ d ∈ k.holds, d ∉ mine) (h : k.Ok s l r slot) :
    k.Ok s' l' r' slot := by
  cases k with
  | findNode c => exact ⟨hf.findCall hd h.1, by rw [hf.nBuckets]; exact h.2⟩
  | caller => trivial
  | insertNode => trivial

theorem initCall {i : InitCall} (hd : ∀ d ∈ i.caller.holds, d ∉ mine) (h : i.Ok s l r) : i.Ok s' l' r' where
  slot := by rw [hf.nBuckets]; exact h.slot
  slot_ne := h.slot_ne
  lt := Nat.lt_of_lt_of_le h.lt hf.ext.size
  hashv := by rw [hf.ext.hashv _ h.lt, h.hashv]
  key := by rw [hf.ext.key _ h.lt, h.key]
  dummy := by rw [hf.ext.isData h.lt, h.dummy]
  caller := hf.initCaller hd h.caller

end Knows

/-- What a thread knows in `initialise_bucket` survives the steps of others. -/
theorem initPc (hf : Frame s l r s' l' r' mine) (hm : Mem s l r) {i : InitCall} (hi : i.Ok s l r)
    (hd : i.node ∉ mine) {pc : InitPc} (h : pc.Ok s l r a i) : pc.Ok s' l' r' a i := by
  have hp : s.heap.Private l r i.node → s'.heap.Private l' r' i.node := fun h => (hf.priv _ hd h).1
  have hn : ∀ m, s.heap.Private l r i.node → (s.heap.node i.node).next = m → (s'.heap.node i.node).next = m :=
    fun m h h' => (hf.priv _ hd h).2.trans h'
  cases pc with
  | probe pbKey => exact ⟨hp h.1, h.2.1, h.2.2.1, by rw [hf.nBuckets]; exact h.2.2.2⟩
  | parent pbSlot => exact ⟨hp h.1, hf.isSet _ h.2.1, h.2.2⟩
  | parentNext => exact ⟨hp h.1, hf.curBelow hm h.2⟩
  | walk => exact ⟨hp h.1, hf.curBelow hm h.2.1, hf.nextKnown h.2.2⟩
  | setNext => exact ⟨hp h.1, hf.curBelow hm h.2.1, hf.nextGe hm h.2.2⟩
  | recheck => exact ⟨hp h.1, hf.curBelow hm h.2.1, hf.nextGe hm h.2.2.1, hn _ h.1 h.2.2.2⟩
  | cas => exact ⟨hp h.1, hf.curBelow hm h.2.1, hf.nextAbove hm h.2.2.1, hn _ h.1 h.2.2.2⟩
  | settle =>
    refine ⟨hf.curKnown h.1, h.2.imp (fun hl => ⟨hf.dummy _ hl.1 hi.dummy, hf.nextAbove hm hl.2⟩) fun hl =>
      ⟨hp hl.1, ?_⟩⟩
    exact hl.2.imp (hf.isSet _) (hf.nextIs hm)
  | won =>
    exact ⟨hf.curKnown h.1, h.2.imp (fun hl => ⟨hf.dummy _ hl.1 hi.dummy, hf.nextAbove hm hl.2⟩)
      fun hl => ⟨hp hl.1, hf.nextIs hm hl.2⟩⟩
  | store => exact hf.dummy _ h hi.dummy
  | storeNext => exact ⟨hp h.1, hf.nextIs hm h.2⟩
  | assertNext => exact ⟨hp h.1, hf.isSet _ h.2⟩
  | discard => exact ⟨hp h.1, hf.isSet _ h.2⟩
  | assertSet => exact hf.isSet _ h
  | assertKey => exact hf.isSet _ h

/-- **What a thread knows survives the steps of others.** -/
theorem thread (hf : Frame s l r s' l' r' mine) (hm : Mem s l r) {th : Thread} (hd : ∀ d ∈ th.holds, d ∉ mine)
    (h : th.Ok s l r) : th.Ok s' l' r' := by
  obtain ⟨a, pc⟩ := th
  cases pc with
  | idle _ => trivial
  | expand _ => trivial
  | insertCheck _ => trivial
  | crashed => exact h
  | initEntry slot k => exact ⟨by rw [hf.nBuckets]; exact h.1, hf.initCaller hd h.2⟩
  | init i pc =>
    have hd := List.forall_mem_cons.mp hd
    exact ⟨hf.initCall hd.2 h.1, hf.initPc hm h.1 hd.1 h.2⟩
  | initReturn slot k => exact ⟨hf.isSet _ h.1, hf.initCaller hd h.2⟩
  | findEntry c => exact hf.findCall hd h
  | findBucket c => exact ⟨hf.findCall hd h.1, by rw [hf.nBuckets]; exact hf.isSet _ h.2⟩
  | findNext c => exact ⟨hf.findCall hd h.1, hf.curLe hm h.2.1, hf.prevKnown h.2.2⟩
  | findWalk c => exact ⟨hf.findCall hd h.1, hf.curLe hm h.2.1, hf.prevKnown h.2.2.1, hf.nextKnown h.2.2.2⟩
  | insertSetNext hashv d =>
    exact ⟨⟨h.1.1, hf.dnode (hd d (by simp [Thread.holds])) h.1.2⟩, hf.curBelow hm h.2.1, hf.nextAbove hm h.2.2⟩
  | insertCas hashv d =>
    have hdm := hd d (by simp [Thread.holds])
    exact ⟨⟨h.1.1, hf.dnode hdm h.1.2⟩, hf.curBelow hm h.2.1, hf.nextAbove hm h.2.2.1,
      (hf.priv d hdm h.1.2.priv).2.trans h.2.2.2⟩
  | insertCount _ => exact hf.curKnown h
  | insertNext _ => exact hf.curKnown h
  | insertWalk _ => exact ⟨hf.curKnown h.1, hf.nextKnown h.2⟩
  | deleteMark hashv => exact ⟨h.1, hf.curIs hm h.2.1, hf.prevKnown h.2.2.1, hf.nextAbove hm h.2.2.2⟩
  | deleteUnlink hashv =>
    obtain ⟨hh, hp, c, hc, hcl, hk, hnx⟩ := h
    have hcm : c ∉ mine := hd c (by simp [Thread.holds, show a.cur = some c from hc])
    obtain ⟨h1, h2⟩ := hf.held c hcm hcl (by rw [hnx])
    exact ⟨hh, hf.prevKnown hp, c, hc, h1, by rw [hf.key hm (by simp [hcl]), hk], h2.trans hnx⟩
  | deleteCount hashv =>
    obtain ⟨c, hc, hcr⟩ := h
    exact ⟨c, hc, hf.removed c hcr⟩

end Frame

/-! ## One step -/

/-- A node no other thread holds and that `t` may take: new, or unmarked data on the chain. -/
def Free (s : Solist T) (l : List Addr) (a : Addr) : Prop :=
  s.heap.size ≤ a ∨ a ∈ l ∧ s.heap.isData a = true ∧ (s.heap.node a).next.mark = false

theorem Private.not_free {s : Solist T} {l r : List Addr} {d : Addr} (h : s.heap.Private l r d) : ¬ Free s l d := by
  intro hf
  rcases hf with hf | hf
  · exact absurd h.lt (Nat.not_lt.mpr hf)
  · exact h.notMem (by simp [hf.1])

theorem FindCall.Ok.not_free {s : Solist T} {l r : List Addr} {c : FindCall} (h : c.Ok s l r) :
    ∀ a ∈ c.holds, ¬ Free s l a := by
  intro a ha
  cases c with
  | insertNode hashv d =>
    rw [List.mem_singleton.mp ha]
    exact Private.not_free h.2.priv
  | deleteNode hashv => cases ha
  | findItemNode hashv => cases ha

theorem InitCaller.Ok.not_free {s : Solist T} {l r : List Addr} {k : InitCaller} {slot : Hash}
    (h : k.Ok s l r slot) : ∀ a ∈ k.holds, ¬ Free s l a := by
  intro a ha
  cases k with
  | findNode c => exact FindCall.Ok.not_free h.1 a ha
  | caller => cases ha
  | insertNode => cases ha

/-- What a thread holds is not free for another to take. -/
theorem Thread.Ok.not_free {s : Solist T} {l r : List Addr} {th : Thread} (hm : Mem s l r) (h : th.Ok s l r) :
    ∀ a ∈ th.holds, ¬ Free s l a := by
  obtain ⟨a, pc⟩ := th
  intro x hx
  cases pc with
  | initEntry slot k => exact InitCaller.Ok.not_free h.2 x hx
  | initReturn slot k => exact InitCaller.Ok.not_free h.2 x hx
  | init i pc =>
    rcases List.mem_cons.mp hx with rfl | hx
    · intro hf
      rcases hf with hf | hf
      · exact absurd h.1.lt (Nat.not_lt.mpr hf)
      · rw [h.1.dummy] at hf
        cases hf.2.1
    · exact InitCaller.Ok.not_free h.1.caller x hx
  | findEntry c => exact FindCall.Ok.not_free h x hx
  | findBucket c => exact FindCall.Ok.not_free h.1 x hx
  | findNext c => exact FindCall.Ok.not_free h.1 x hx
  | findWalk c => exact FindCall.Ok.not_free h.1 x hx
  | insertSetNext hashv d =>
    rw [List.mem_singleton.mp hx]
    exact Private.not_free h.1.2.priv
  | insertCas hashv d =>
    rw [List.mem_singleton.mp hx]
    exact Private.not_free h.1.2.priv
  | deleteUnlink hashv =>
    obtain ⟨-, -, c, hc, hcl, -, hnx⟩ := h
    obtain rfl : x = c := by simpa [Thread.holds, show a.cur = some c from hc] using hx
    intro hf
    rcases hf with hf | hf
    · exact absurd (hm.mesh.lt x (by simp [hcl])) (Nat.not_lt.mpr hf)
    · rw [hnx] at hf
      cases hf.2.2
  | deleteCount hashv =>
    obtain ⟨c, hc, hcr⟩ := h
    obtain rfl : x = c := by simpa [Thread.holds, show a.cur = some c from hc] using hx
    intro hf
    rcases hf with hf | hf
    · exact absurd (hm.mesh.lt x (by simp [hcr])) (Nat.not_lt.mpr hf)
    · exact hm.mesh.notMem_removed hf.1 hcr
  | _ => cases hx

/-- What a step of the thread `th` with the effect `e` has to establish. -/
structure Keeps (s : Solist T) (l r : List Addr) (th : Thread) (e : Effect T) (l' r' : List Addr) : Prop where
  mem : Mem e.list l' r'
  ok : e.thread.Ok e.list l' r'
  frame : Frame s l r e.list l' r' th.holds
  holds : ∀ a ∈ e.thread.holds, a ∈ th.holds ∨ Free s l a
  unlinked : r' = r ++ (e.unlinked.map Prod.snd).toList
  linked : (l'.filter e.list.heap.isData ++ r').Perm (l.filter s.heap.isData ++ r ++ (e.linked.map Prod.snd).toList)
  logged : ∀ x ∈ e.linked.toList ++ e.unlinked.toList,
    x.2 < e.list.heap.size ∧ (e.list.heap.node x.2).hashv = x.1
  items : e.list.nItems + e.thread.pc.owes + BitVec.ofNat 32 (l.countP s.heap.isData) =
    s.nItems + th.pc.owes + BitVec.ofNat 32 (l'.countP e.list.heap.isData)

/-- The invariant, with the chain `l` and the unlinked nodes `r`. -/
structure Inv {n : Nat} (σ : State T n) (l r : List Addr) : Prop where
  mem : Mem σ.list l r
  thread : ∀ t, (σ.thread t).Ok σ.list l r
  apart : ∀ t u, t ≠ u → ∀ a ∈ (σ.thread t).holds, a ∉ (σ.thread u).holds
  unlinks : r = σ.unlinks.map Prod.snd
  links : (l.filter σ.list.heap.isData ++ r).Perm (σ.links.map Prod.snd)
  logged : ∀ x ∈ σ.links ++ σ.unlinks, x.2 < σ.list.heap.size ∧ (σ.list.heap.node x.2).hashv = x.1
  items : σ.list.nItems + ∑ t, (σ.thread t).pc.owes = BitVec.ofNat 32 (l.countP σ.list.heap.isData)

theorem map_toList {α β : Type*} (o : Option α) (f : α → β) : o.toList.map f = (o.map f).toList := by
  cases o <;> rfl

/-- **One thread's step keeps the invariant.** -/
theorem Inv.step {n : Nat} {σ : State T n} {l r l' r' : List Addr} {t : Fin n} {e : Effect T} (h : Inv σ l r)
    (hk : Keeps σ.list l r (σ.thread t) e l' r') : Inv (σ.apply t e) l' r' := by
  have hself : (σ.apply t e).thread t = e.thread := Function.update_self ..
  have hother : ∀ u, u ≠ t → (σ.apply t e).thread u = σ.thread u := fun u hu => Function.update_of_ne hu ..
  -- nothing that `t` now holds is held by another
  have hfree : ∀ u, u ≠ t → ∀ a ∈ e.thread.holds, a ∉ (σ.thread u).holds := by
    intro u hu a ha hau
    rcases hk.holds a ha with h1 | h1
    · exact h.apart t u (Ne.symm hu) a h1 hau
    · exact (h.thread u).not_free h.mem a hau h1
  refine ⟨hk.mem, fun u => ?_, fun u v huv a ha hav => ?_, ?_, ?_, fun x hx => ?_, ?_⟩
  · by_cases hu : u = t
    · subst hu
      rw [hself]
      exact hk.ok
    · rw [hother u hu]
      exact hk.frame.thread h.mem (fun d hd hdt => h.apart u t hu d hd hdt) (h.thread u)
  · by_cases hu : u = t
    · subst hu
      rw [hself] at ha
      rw [hother v (Ne.symm huv)] at hav
      exact hfree v (Ne.symm huv) a ha hav
    · rw [hother u hu] at ha
      by_cases hv : v = t
      · subst hv
        rw [hself] at hav
        exact hfree u hu a hav ha
      · rw [hother v hv] at hav
        exact h.apart u v huv a ha hav
  · simp only [State.apply, List.map_append, map_toList, ← h.unlinks]
    exact hk.unlinked
  · simp only [State.apply, List.map_append, map_toList]
    exact hk.linked.trans (h.links.append_right _)
  · have hmem : x ∈ (σ.links ++ σ.unlinks) ∨ x ∈ e.linked.toList ++ e.unlinked.toList := by
      simp only [State.apply, List.mem_append] at hx ⊢
      tauto
    rcases hmem with hx | hx
    · obtain ⟨h1, h2⟩ := h.logged x hx
      exact ⟨Nat.lt_of_lt_of_le h1 hk.frame.ext.size, by rw [← h2]; exact hk.frame.ext.hashv _ h1⟩
    · exact hk.logged x hx
  · have hsum := sum_change (f := fun u => (σ.thread u).pc.owes) (g := fun u => ((σ.apply t e).thread u).pc.owes) t
      fun u hu => by rw [hother u hu]
    have hi := h.items
    have hki := hk.items
    rw [hself] at hsum
    change e.list.nItems + ∑ u, ((σ.apply t e).thread u).pc.owes = BitVec.ofNat 32 (l'.countP e.list.heap.isData)
    linear_combination hki + hsum + hi

end Concurrent

end SplitOrder
