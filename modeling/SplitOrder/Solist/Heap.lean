/-
The nodes of a split-ordered list and the heap they live in.

A node is named by the allocation that made it, so an address is never
used twice; `deleted` lists every `delete`, in order, and dereferencing a
deleted node is a fault. A dummy (`solist_bucket`) has no payload, a data
node (`solist_node`) has one.
-/
import Mathlib.Logic.Function.Basic
import SplitOrder.MarkPtr
import SplitOrder.Solist.Key

namespace SplitOrder

abbrev Addr := Nat

structure Node (T : Type) where
  hashv : Hash
  key : SoKey
  next : MarkPtr Addr := {}
  payload : Option T

/-- `solist_bucket(hashv)` -/
def solistBucket {T : Type} (hashv : Hash) : Except Fault (Node T) := do
  let key ← solBucketKey hashv
  .ok { hashv, key, payload := none }

/-- `solist_node(data, hashv)` -/
def solistNode {T : Type} (data : T) (hashv : Hash) : Except Fault (Node T) := do
  let b : Node T ← solistBucket hashv
  .ok { b with key := b.key ||| DATABIT, payload := some data }

def Node.isNode {T : Type} (n : Node T) : Bool := DATABIT == (n.key &&& DATABIT)

structure Heap (T : Type) where
  size : Nat
  node : Addr → Node T
  deleted : List Addr

namespace Heap

variable {T : Type}

/-- An allocated node no `delete` has been called on. -/
def Live (h : Heap T) (a : Addr) : Prop := a < h.size ∧ a ∉ h.deleted

instance (h : Heap T) (a : Addr) : Decidable (h.Live a) := inferInstanceAs (Decidable (_ ∧ _))

/-- What `p->` reads. -/
def deref (h : Heap T) : Option Addr → Except Fault (Node T)
  | none => .error .nullDeref
  | some a => if h.Live a then .ok (h.node a) else .error .useAfterDelete

def new (h : Heap T) (n : Node T) : Heap T :=
  { h with size := h.size + 1, node := Function.update h.node h.size n }

def delete (h : Heap T) (a : Addr) : Heap T := { h with deleted := h.deleted ++ [a] }

def setNext (h : Heap T) (a : Addr) (m : MarkPtr Addr) : Heap T :=
  { h with node := Function.update h.node a { h.node a with next := m } }

/-- `p->next = q` -/
def assignNext (h : Heap T) (p q : Option Addr) : Except Fault (Heap T) :=
  match p with
  | none => .error .nullDeref
  | some a => do
    let n ← h.deref (some a)
    .ok (h.setNext a (n.next.assign q))

/-- `p->next.CAS(expected, desired, mark)` -/
def casNext (h : Heap T) (p expected desired : Option Addr) (mark : Bool) : Except Fault (Bool × Heap T) :=
  match p with
  | none => .error .nullDeref
  | some a => do
    let n ← h.deref (some a)
    let (won, m) := n.next.cas expected desired mark
    .ok (won, h.setNext a m)

/-- The pointer a node holds, its mark aside: `a->next()`. -/
def nextOf (h : Heap T) (a : Addr) : Option Addr := (h.node a).next.ptr

def key (h : Heap T) (a : Addr) : SoKey := (h.node a).key

/-! ## What each operation changes -/

variable {h : Heap T} {a b : Addr} {n : Node T} {m : MarkPtr Addr}

theorem deref_live (ha : h.Live a) : h.deref (some a) = .ok (h.node a) := if_pos ha

@[simp] theorem new_size : (h.new n).size = h.size + 1 := rfl
@[simp] theorem new_deleted : (h.new n).deleted = h.deleted := rfl
@[simp] theorem new_node_self : (h.new n).node h.size = n := by simp [new]

theorem new_node_of_lt (ha : a < h.size) : (h.new n).node a = h.node a :=
  Function.update_of_ne (Nat.ne_of_lt ha) _ _

theorem Live.new (ha : h.Live a) : (h.new n).Live a := ⟨Nat.lt_succ_of_lt ha.1, ha.2⟩

@[simp] theorem delete_size : (h.delete a).size = h.size := rfl
@[simp] theorem delete_node : (h.delete a).node = h.node := rfl
@[simp] theorem delete_deleted : (h.delete a).deleted = h.deleted ++ [a] := rfl

@[simp] theorem setNext_size : (h.setNext a m).size = h.size := rfl
@[simp] theorem setNext_deleted : (h.setNext a m).deleted = h.deleted := rfl
@[simp] theorem setNext_next_self : ((h.setNext a m).node a).next = m := by simp [setNext]

theorem setNext_node_of_ne (hb : b ≠ a) : (h.setNext a m).node b = h.node b :=
  Function.update_of_ne hb _ _

@[simp] theorem setNext_hashv : ((h.setNext a m).node b).hashv = (h.node b).hashv := by
  by_cases hb : b = a <;> simp [setNext, hb]

@[simp] theorem setNext_node_key : ((h.setNext a m).node b).key = (h.node b).key := by
  by_cases hb : b = a <;> simp [setNext, hb]

@[simp] theorem setNext_payload : ((h.setNext a m).node b).payload = (h.node b).payload := by
  by_cases hb : b = a <;> simp [setNext, hb]

@[simp] theorem setNext_live : (h.setNext a m).Live b ↔ h.Live b := Iff.rfl

theorem setNext_nextOf : (h.setNext a m).nextOf = Function.update h.nextOf a m.ptr := by
  funext b
  by_cases hb : b = a
  · subst hb
    simp [nextOf]
  · simp [nextOf, setNext_node_of_ne hb, Function.update_of_ne hb]

theorem assignNext_live {q : Option Addr} (ha : h.Live a) :
    h.assignNext (some a) q = .ok (h.setNext a ((h.node a).next.assign q)) := by
  simp [assignNext, deref_live ha]

/-- A `CAS` that finds the unmarked pointer it expects. -/
theorem casNext_won {e d : Option Addr} {mark : Bool} (ha : h.Live a) (he : (h.node a).next = { ptr := e }) :
    h.casNext (some a) e d mark = .ok (true, h.setNext a { ptr := d, mark }) := by
  simp [casNext, deref_live ha, MarkPtr.cas_ok he]

end Heap

/-! ## The two kinds of node -/

section Kinds

variable {T : Type}

theorem solistBucket_ok {hashv : Hash} (hh : hashv.toNat < 2 ^ 31) :
    solistBucket (T := T) hashv = .ok { hashv, key := reverseHashtBits hashv, payload := none } := by
  simp [solistBucket, solBucketKey_ok hh]

theorem solistNode_ok {hashv : Hash} (data : T) (hh : hashv.toNat < 2 ^ 31) :
    solistNode data hashv = .ok { hashv, key := solNodeKey hashv, payload := some data } := by
  simp [solistNode, solistBucket_ok hh, solNodeKey]

end Kinds

end SplitOrder
