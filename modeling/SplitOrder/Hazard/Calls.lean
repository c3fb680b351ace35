/-
A `hazard_pointer_context` and its domain, called by one thread at a time.

A call runs to its end, or to a failed assertion, an access outside an
array or an allocation that throws `std::bad_alloc`; `Halt` has what that
leaves behind. The delete list is the list of its payloads from
`delete_head` on, and an exchange or a `CAS` of the only thread is done at
its first turn. The `int` counters count slots and nodes, and are `Nat`.
-/
import SplitOrder.Lib.Loops
import SplitOrder.Hazard.Machine

namespace SplitOrder

namespace Hazard

/-- What ends a call other than its return. -/
inductive Stop
  | assertion
  | outOfBounds
  | badAlloc
  deriving DecidableEq

/-- `hazptr_pool`, as a snapshot reads it. -/
structure HazptrPool where
  blkSize : Nat
  /-- `haz_ptrs[0]` to `haz_ptrs[hp_count - 1]` -/
  hazPtrs : List Ptr
  size : hazPtrs.length = blkSize * 32

namespace HazptrPool

/-- `count()`, which is `hp_count` -/
def count (p : HazptrPool) : Nat := p.blkSize * 32

/-- The loop of `copy_hazard_pointers`, with `dest` at `buf + dest`. -/
def copyLoop (dest : Nat) : List Ptr → List Ptr → Nat → Except Stop (List Ptr × Nat)
  | [], buf, ixDst => .ok (buf, ixDst)
  | p :: ps, buf, ixDst =>
    if p ≠ 0 then
      if dest + ixDst < buf.length then copyLoop dest ps (buf.set (dest + ixDst) p) (ixDst + 1)
      else .error .outOfBounds
    else copyLoop dest ps buf ixDst

def copyHazardPointers (p : HazptrPool) (buf : List Ptr) (dest count : Nat) : Except Stop (List Ptr × Nat) :=
  if count ≥ p.count then copyLoop dest p.hazPtrs buf 0 else .error .assertion

end HazptrPool

/-- The number of hazard pointers on the list of pools. -/
def slotTotal (pools : List HazptrPool) : Nat := (pools.map HazptrPool.count).sum

/-- The second loop of `hazptrs_snapshot(pools_head)`. -/
def copyPools : List HazptrPool → List Ptr → Nat → Except Stop (List Ptr × Nat)
  | [], buf, count => .ok (buf, count)
  | p :: ps, buf, count =>
    p.copyHazardPointers buf count p.count >>= fun r => copyPools ps r.1 (count + r.2)

/-- `hazptrs_snapshot(pools_head)` in the buffer `buf`: the values from `begin` to `end`. -/
def hazptrsSnapshot (pools : List HazptrPool) (buf : List Ptr) : Except Stop (List Ptr) :=
  copyPools pools buf 0 >>= fun r =>
    if r.2 ≤ buf.length then .ok (snapshotOf (r.1.take r.2)) else .error .assertion

/-- A domain, a context on it, and what was done with the objects. -/
structure Serial where
  /-- the pools, from `pools_head` on -/
  pools : List HazptrPool
  deleteList : List Ptr := []
  deleteCount : Nat := 0
  /-- `deleted[0]` to `deleted[R - 1]` -/
  deleted : List Ptr
  delIndex : Nat := 0
  /-- the allocations that succeed before one throws; with `none` all do -/
  allocs : Option Nat := none
  /-- the calls of `reclaim_object`, each with the snapshot that was searched -/
  reclaimed : List (Ptr × List Ptr) := []

/-- A call that does not return, and what it leaves. -/
abbrev Halt := Stop × Serial

namespace Serial

variable (w : Serial)

def R : Nat := w.deleted.length

/-- `hp_count` of the domain -/
def hpCount : Nat := slotTotal w.pools

def new : Except Halt Serial :=
  match w.allocs with
  | none => .ok w
  | some 0 => .error (.badAlloc, w)
  | some (k + 1) => .ok { w with allocs := some k }

def reclaimObject (snap : List Ptr) (p : Ptr) : Serial := { w with reclaimed := w.reclaimed ++ [(p, snap)] }

/-- `hazptrs_snapshot(pools_head)`. The content of the new buffer is not read. -/
def snapshot : Except Halt (List Ptr × Serial) :=
  w.new >>= fun w =>
    match hazptrsSnapshot w.pools (List.replicate (slotTotal w.pools) 0) with
    | .ok snap => .ok (snap, w)
    | .error e => .error (e, w)

/-! ## The delete list -/

def pushDeleteNode (p : Ptr) : Serial :=
  { w with deleteList := p :: w.deleteList, deleteCount := w.deleteCount + 1 }

/-- The loop of `collect` over its list: what is not in the snapshot is reclaimed. -/
def collectWalk (snap : List Ptr) (w : Serial) (p : Ptr) : Serial :=
  if search snap p then w else w.reclaimObject snap p

def collect : Except Halt Serial :=
  let localList := w.deleteList
  if localList = [] then .ok w
  else
    { w with deleteList := [] }.snapshot >>= fun r =>
      let w := localList.foldl (collectWalk r.1) r.2
      -- put the nodes that could not be deleted back
      .ok ((localList.filter (search r.1)).foldl pushDeleteNode w)

/-- The loop ends after its first turn: `delete_count` is zero then. -/
def collectIfRequired : Except Halt Serial :=
  if w.deleteCount > w.hpCount then { w with deleteCount := 0 }.collect else .ok w

/-- `enqueue_for_delete(item_ptr)` -/
def enqueueForDelete (p : Ptr) : Except Halt Serial :=
  w.new >>= fun w => (w.pushDeleteNode p).collectIfRequired

/-- One turn of the loop of `enqueue_for_delete(deleted, R)`. -/
def enqueueTurn (w : Serial) (x : Nat) : Except Halt Serial :=
  match w.deleted[x]? with
  | none => .error (.outOfBounds, w)
  | some p =>
    if p ≠ 0 then
      w.new >>= fun w =>
        let w := w.pushDeleteNode p
        .ok { w with deleted := w.deleted.set x 0 }
    else .ok w

def enqueueLoop : Except Halt Serial := (List.range w.R).foldlM enqueueTurn w

/-- `enqueue_for_delete(deleted, R)` -/
def enqueueArray : Except Halt Serial := w.enqueueLoop >>= collectIfRequired

/-! ## The context -/

/-- One turn of the loop of `reclaim`. -/
def reclaimTurn (snap : List Ptr) (w : Serial) (ix : Nat) : Except Halt Serial :=
  match w.deleted[ix]? with
  | none => .error (.outOfBounds, w)
  | some p =>
    if search snap p then .ok w
    else
      let w := { w with delIndex := sizeDec w.delIndex }.reclaimObject snap p
      .ok { w with deleted := w.deleted.set ix 0 }

def reclaimLoop (snap : List Ptr) : Except Halt Serial := (List.range w.R).foldlM (reclaimTurn snap) w

/-- `reclaim` after its loop. -/
def reclaimRest : Except Halt Serial :=
  if w.delIndex = w.R then w.enqueueArray >>= fun w => .ok { w with delIndex := 0 }
  else
    match compact w.deleted with
    | none => .error (.outOfBounds, w)
    | some deleted => .ok { w with deleted }

def reclaim : Except Halt Serial :=
  w.snapshot >>= fun r => r.2.reclaimLoop r.1 >>= reclaimRest

def deleteItem (p : Ptr) : Except Halt Serial :=
  if w.R > 0 then
    if w.delIndex ≤ w.R then
      if w.delIndex < w.R then
        let w := { w with deleted := w.deleted.set w.delIndex p, delIndex := sizeInc w.delIndex }
        if w.delIndex = w.R then w.reclaim else .ok w
      else .error (.outOfBounds, w)
    else .error (.assertion, w)
  else w.enqueueForDelete p

end Serial

end Hazard

end SplitOrder
