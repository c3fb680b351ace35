/-
`solist.hpp` when `new` can throw `std::bad_alloc`.

The functions are those of `Solist.Model` with a count `k` of the
allocations that still succeed: allocation number `k` of a call throws.
Nothing in the source catches, so the exception leaves the call, and the list
and the accessor stay as they are at that point. `insert_node` allocates
up to four times: the data node, a dummy in `find_node`, the new array
of `expand`, a dummy after the insert.
-/
import SplitOrder.Lib.Loops
import SplitOrder.Solist.Model

namespace SplitOrder

variable {T : Type}

/-- What ends a call other than its return. -/
inductive Abort (T : Type)
  | fault (f : Fault)
  | badAlloc (a : Accessor) (s : Solist T)

namespace Throwing

open Solist

/-- A part of a call that allocates nothing. -/
def lift {α : Type} (x : Except Fault α) : Except (Abort T) α := x.mapError .fault

/-- The same, with the count that is left. -/
def counted {α : Type} (k : Nat) (x : Except Fault α) : Except (Abort T) (α × Nat) := do
  let r ← lift x
  .ok (r, k)

/-- `initialise_bucket`: its allocation, once made, is the first thing that changes the list. -/
def initialiseBucket (s : Solist T) (a : Accessor) (slot : Hash) (k : Nat) :
    Except (Abort T) ((Accessor × Solist T) × Nat) := do
  if ¬ slot < s.nBuckets then .error (.fault .assertion)
  else if (← lift (s.bucket slot)).isSome then .ok ((a, s), k)
  else
    match k with
    | 0 => .error (.badAlloc a s)
    | k + 1 => counted k (s.initialiseBucket a slot)

/-- `expand`: the array is allocated before anything is copied. -/
def expand (s : Solist T) (a : Accessor) (currSize : Hash) (k : Nat) : Except (Abort T) (Solist T × Nat) :=
  if currSize < s.nBuckets then .ok (s, k)
  else
    match k with
    | 0 => .error (.badAlloc a s)
    | k + 1 => counted k (s.expand currSize)

def findNode (s : Solist T) (a : Accessor) (hashv : Hash) (k : Nat) :
    Except (Abort T) ((Bool × Accessor × Solist T) × Nat) := do
  let slot := hashv % s.nBuckets
  let key := solNodeKey hashv
  let ((a, s), k) ← if (← lift (s.bucket slot)).isNone then initialiseBucket s a slot k else .ok ((a, s), k)
  let (found, a) ← lift (s.findNodeTryAgain a slot key)
  .ok ((found, a, s), k)

def insertLoop (hashv : Hash) (dnode : Addr) :
    Nat → Solist T → Accessor → Nat → Except (Abort T) ((Bool × Accessor × Solist T) × Nat)
  | 0, _, _, _ => .error (.fault .outOfFuel)
  | fuel + 1, s, a, k => do
    let ((found, a, s), k) ← findNode s a hashv k
    if found then .ok ((false, a, s), k)
    else
      let heap ← lift (s.heap.assignNext (some dnode) a.next)
      let (won, heap) ← lift (heap.casNext a.cur a.next (some dnode) false)
      let s := { s with heap }
      if won then .ok ((true, a, s.incItemCount), k) else insertLoop hashv dnode fuel s a k

def expansionCheck (s : Solist T) (a : Accessor) (hashv nbuckets : Hash) (k : Nat) :
    Except (Abort T) ((Accessor × Solist T) × Nat) :=
  if a.steps > s.maxBucketLength then
    let slot := hashv % s.nBuckets
    if a.steps ≥ s.maxBucketLength * 2 ∨ s.nItems ≥ s.maxBucketLength * s.nBuckets then do
      let (s, k) ← expand s a nbuckets k
      initialiseBucket s a (slot + nbuckets) k
    else
      let ibSlot := slot + nbuckets / 2
      if ibSlot < s.nBuckets then initialiseBucket s a ibSlot k else .ok ((a, s), k)
  else .ok ((a, s), k)

def insertNode (s : Solist T) (a : Accessor) (hashv : Hash) (payload : T) :
    Nat → Except (Abort T) ((Bool × Accessor × Solist T) × Nat)
  | 0 => .error (.badAlloc a s)
  | k + 1 => do
    let nbuckets := s.nBuckets
    let n ← lift (solistNode payload hashv)
    let dnode := s.heap.size
    let ((result, a, s), k) ← insertLoop hashv dnode s.fuel { s with heap := s.heap.new n } a k
    if !result then .ok ((result, a.zap, { s with heap := s.heap.delete dnode }), k)
    else
      let n ← lift (s.heap.deref a.cur)
      let a ← lift (s.advanceWhile Node.isNode true s.fuel { a with next := n.next.ptr })
      let ((a, s), k) ← expansionCheck s a hashv nbuckets k
      .ok ((result, a.zap, s), k)

def deleteLoop (hashv : Hash) : Nat → Solist T → Accessor → Nat → Except (Abort T) ((Bool × Accessor × Solist T) × Nat)
  | 0, _, _, _ => .error (.fault .outOfFuel)
  | fuel + 1, s, a, k => do
    let ((found, a, s), k) ← findNode s a hashv k
    if !found then .ok ((false, a, s), k)
    else
      -- Mark
      let (marked, heap) ← lift (s.heap.casNext a.cur a.next a.next true)
      let s := { s with heap }
      if !marked then deleteLoop hashv fuel s a k
      else
        -- remove
        let (won, heap) ← lift (s.heap.casNext a.prev a.cur a.next false)
        let s := { s with heap }
        if won then
          let s := s.decItemCount
          match a.cur with
          | none => .error (.fault .nullDeref)
          | some c => .ok ((true, a, { s with heap := s.heap.delete c }), k)
        else deleteLoop hashv fuel s a k

def deleteNode (s : Solist T) (a : Accessor) (hashv : Hash) (k : Nat) :
    Except (Abort T) ((Bool × Accessor × Solist T) × Nat) := do
  let ((result, a, s), k) ← deleteLoop hashv s.fuel s a k
  .ok ((result, a.zap, s), k)

def findItemNode (s : Solist T) (a : Accessor) (hashv : Hash) (k : Nat) :
    Except (Abort T) ((Option Addr × Accessor × Solist T) × Nat) := do
  let ((found, a, s), k) ← findNode s a hashv k
  if found then
    let n ← lift (s.heap.deref a.cur)
    match n.payload with
    | some _ => .ok ((a.cur, a, s), k)
    | none => .error (.fault .nullDeref)
  else .ok ((none, a, s), k)

/-- One call through accessor `i`. -/
def call (s : Session T) (i : Nat) (op : Op T) (k : Nat) : Except (Abort T) (Res × Session T) := do
  let (res, a, list) ← (show Except (Abort T) (Res × Accessor × Solist T) from match op with
    | .insertNode h v => do let ((b, a, l), _) ← insertNode s.list (s.accessor i) h v k; .ok (.bool b, a, l)
    | .deleteNode h => do let ((b, a, l), _) ← deleteNode s.list (s.accessor i) h k; .ok (.bool b, a, l)
    | .findItemNode h => do let ((p, a, l), _) ← findItemNode s.list (s.accessor i) h k; .ok (.item p, a, l)
    | .initialiseBucket slot => do
      let ((a, l), _) ← initialiseBucket s.list (s.accessor i) slot k
      .ok (.unit, a, l))
  .ok (res, s.after i a list)

/-- Runs of valid calls on a fresh list, each with an allocation that may
throw; a call that throws leaves the list as it is then. -/
def sessions (T : Type) (size bucketLength : Hash) : System (Session T) (Nat × Op T × Nat) where
  init s := ∃ list, Solist.create size bucketLength = .ok list ∧ s = { list }
  next s e :=
    if e.2.1.Valid s.list then
      match call s e.1 e.2.1 e.2.2 with
      | .ok (_, s') => some s'
      | .error (.badAlloc a list) => some (s.after e.1 a list)
      | .error (.fault _) => none
    else none

end Throwing

end SplitOrder
