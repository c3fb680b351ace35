/-
`solist.hpp`, called by one thread at a time: the list, the accessor and
the calls, as the source computes them.

A loop takes fuel and faults with `outOfFuel` when that is not enough; the
calls give every loop more than it uses (`Solist.Ops`). `expand` past
`2 ^ 31` buckets is the one place the source writes outside an array: the
doubled size wraps to zero. That write is a fault of its own,
`copyOutOfBounds`.
-/
import SplitOrder.Lib.Runs
import SplitOrder.Solist.Heap

namespace SplitOrder

/-- A `solist`, with the heap its nodes live in. -/
structure Solist (T : Type) where
  nBuckets : Hash
  maxBucketLength : Hash
  nItems : Hash := 0
  buckets : List (Option Addr)
  heap : Heap T

/-- The fields of a `solist_accessor` beside its list. -/
structure Accessor where
  next : Option Addr := none
  cur : Option Addr := none
  prev : Option Addr := none
  steps : Hash := 0

def Accessor.zap (a : Accessor) : Accessor := { a with prev := none, cur := none, next := none }

namespace Solist

variable {T : Type}

/-- `solist(size, bucket_length)` -/
def create (size bucketLength : Hash) : Except Fault (Solist T) := do
  let b : Node T ← solistBucket 0
  let heap : Heap T := { size := 0, node := fun _ => { hashv := 0, key := 0, payload := none }, deleted := [] }
  let buckets := List.replicate size.toNat none
  if size = 0 then .error .outOfBounds
  else .ok { nBuckets := size, maxBucketLength := bucketLength, buckets := buckets.set 0 (some 0), heap := heap.new b }

/-- `buckets[slot]` -/
def bucket (s : Solist T) (slot : Hash) : Except Fault (Option Addr) :=
  match s.buckets[slot.toNat]? with
  | some b => .ok b
  | none => .error .outOfBounds

/-- `buckets[slot] = p` -/
def setBucket (s : Solist T) (slot : Hash) (p : Option Addr) : Except Fault (Solist T) :=
  if slot.toNat < s.buckets.length then .ok { s with buckets := s.buckets.set slot.toNat p }
  else .error .outOfBounds

def incItemCount (s : Solist T) : Solist T := { s with nItems := s.nItems + 1 }

def decItemCount (s : Solist T) : Solist T := { s with nItems := s.nItems - 1 }

/-! ## Growing the table -/

/-- `for (x = 0; x < n; ++x) new_buckets[x] = buckets[x];` -/
def copyBuckets (src dst : List (Option Addr)) (n : Nat) : Except Fault (List (Option Addr)) :=
  (List.range n).foldlM (fun dst x =>
    match src[x]? with
    | some b => if x < dst.length then .ok (dst.set x b) else .error .copyOutOfBounds
    | none => .error .outOfBounds) dst

def expand (s : Solist T) (currSize : Hash) : Except Fault (Solist T) :=
  if currSize < s.nBuckets then .ok s
  else do
    let newSize := s.nBuckets * 2
    let newBuckets ← copyBuckets s.buckets (List.replicate newSize.toNat none) s.nBuckets.toNat
    -- for (x = n_buckets; x < new_size; ++x) new_buckets[x] = nullptr;
    let newBuckets := newBuckets.mapIdx fun x b => if s.nBuckets.toNat ≤ x then none else b
    .ok { s with buckets := newBuckets, nBuckets := newSize }

/-! ## Walking the chain -/

/-- A bound on the turns of a loop over the nodes. -/
def fuel (s : Solist T) : Nat := s.heap.size + 1

def advance (s : Solist T) (a : Accessor) : Except Fault Accessor :=
  match a.next with
  | none => .ok { a with prev := a.cur, cur := none }
  | some c => do
    let n ← s.heap.deref (some c)
    .ok { a with prev := a.cur, cur := some c, next := n.next.ptr }

/-- `while (nullptr != next && go(next)) { advance(); }`, with `++steps` in
the body when `counts`. -/
def advanceWhile (s : Solist T) (go : Node T → Bool) (counts : Bool) : Nat → Accessor → Except Fault Accessor
  | 0, _ => .error .outOfFuel
  | fuel + 1, a =>
    match a.next with
    | none => .ok a
    | some c => do
      let n ← s.heap.deref (some c)
      if go n then
        let a ← s.advance a
        s.advanceWhile go counts fuel (if counts then { a with steps := a.steps + 1 } else a)
      else .ok a

/-- The `do … while (0 != pb_key)` of `get_parent`. -/
def parentSlot (s : Solist T) (keyStep : SoKey) : Nat → SoKey → Except Fault Hash
  | 0, _ => .error .outOfFuel
  | fuel + 1, pbKey => do
    let pbKey := pbKey - keyStep
    let pbSlot := reverseHashtBits pbKey
    if (← s.bucket pbSlot).isSome ∨ pbKey = 0 then .ok pbSlot else s.parentSlot keyStep fuel pbKey

def getParent (s : Solist T) (a : Accessor) (_slot : Hash) (key : SoKey) : Except Fault Accessor := do
  let keyStep ← solBucketKey (s.nBuckets / 2)
  let pbSlot ← s.parentSlot keyStep (2 ^ 32) key
  let cur ← s.bucket pbSlot
  let n ← s.heap.deref cur
  s.advanceWhile (fun n => n.key < key) false s.fuel { a with prev := cur, cur := cur, next := n.next.ptr }

/-! ## Bucket initialisation -/

/-- Does `p` point to a node with this key? -/
def keyIs (s : Solist T) (p : Option Addr) (key : SoKey) : Except Fault Bool := do
  let n ← s.heap.deref p
  .ok (n.key == key)

/-- `nullptr != p && p->key == key` -/
def hasKey (s : Solist T) (p : Option Addr) (key : SoKey) : Except Fault Bool :=
  match p with
  | none => .ok false
  | some _ => s.keyIs p key

/-- The `do … while` of `initialise_bucket`: it ends when the slot is set,
when another dummy with the key is found, or when the `CAS` links `node`. -/
def linkDummy (slot : Hash) (key : SoKey) (node : Addr) :
    Nat → Solist T → Accessor → Except Fault (Accessor × Solist T)
  | 0, _, _ => .error .outOfFuel
  | fuel + 1, s, a => do
    let a ← s.getParent a slot key
    let heap ← s.heap.assignNext (some node) a.next
    let s := { s with heap }
    if (← s.bucket slot).isSome then .ok (a, s)
    else if ← s.hasKey a.next key then .ok (a, s)
    else
      let (won, heap) ← s.heap.casNext a.cur a.next (some node) false
      let s := { s with heap }
      if won then .ok (a, s) else linkDummy slot key node fuel s a

/-- `initialise_bucket` after the loop: what is put in the slot, and what becomes of `node`. -/
def settleBucket (slot : Hash) (key : SoKey) (node : Addr) (s : Solist T) (a : Accessor) :
    Except Fault (Accessor × Solist T) := do
  if (← s.bucket slot).isNone then
    let cur ← s.heap.deref a.cur
    if cur.next.ptr = some node then
      -- success!
      let s ← s.setBucket slot (some node)
      .ok ({ a with next := some node }, s)
    else
      -- another thread's instance of the dummy is in place
      let s ← s.setBucket slot a.next
      if ← s.keyIs (← s.bucket slot) key then .ok (a, { s with heap := s.heap.delete node })
      else .error .assertion
  else .ok (a, { s with heap := s.heap.delete node })

def initialiseBucket (s : Solist T) (a : Accessor) (slot : Hash) : Except Fault (Accessor × Solist T) := do
  if ¬ slot < s.nBuckets then .error .assertion
  else if (← s.bucket slot).isSome then .ok (a, s)
  else
    let b : Node T ← solistBucket slot
    let node := s.heap.size
    let key := b.key
    let (a, s) ← linkDummy slot key node s.fuel { s with heap := s.heap.new b } a
    let (a, s) ← settleBucket slot key node s a
    if (← s.bucket slot).isNone then .error .assertion
    else if ← s.keyIs (← s.bucket slot) key then .ok (a, s)
    else .error .assertion

/-! ## Insert, delete and find -/

/-- `find_node` from the label `find_node_try_again` on. -/
def findNodeTryAgain (s : Solist T) (a : Accessor) (slot : Hash) (key : SoKey) : Except Fault (Bool × Accessor) := do
  let cur ← s.bucket slot
  let n ← s.heap.deref cur
  let a ← s.advanceWhile (fun n => n.key ≤ key) true s.fuel
    { a with prev := cur, cur := cur, next := n.next.ptr, steps := 0 }
  .ok (← s.hasKey a.cur key, a)

def findNode (s : Solist T) (a : Accessor) (hashv : Hash) : Except Fault (Bool × Accessor × Solist T) := do
  let slot := hashv % s.nBuckets
  let key := solNodeKey hashv
  let (a, s) ← if (← s.bucket slot).isNone then s.initialiseBucket a slot else .ok (a, s)
  let (found, a) ← s.findNodeTryAgain a slot key
  .ok (found, a, s)

/-- The `while (true)` of `insert_node`. -/
def insertLoop (hashv : Hash) (dnode : Addr) :
    Nat → Solist T → Accessor → Except Fault (Bool × Accessor × Solist T)
  | 0, _, _ => .error .outOfFuel
  | fuel + 1, s, a => do
    let (found, a, s) ← s.findNode a hashv
    if found then .ok (false, a, s)
    else
      let heap ← s.heap.assignNext (some dnode) a.next
      let (won, heap) ← heap.casNext a.cur a.next (some dnode) false
      let s := { s with heap }
      if won then .ok (true, a, s.incItemCount) else insertLoop hashv dnode fuel s a

/-- The expansion check at the end of `insert_node`. -/
def expansionCheck (s : Solist T) (a : Accessor) (hashv nbuckets : Hash) : Except Fault (Accessor × Solist T) :=
  if a.steps > s.maxBucketLength then
    let slot := hashv % s.nBuckets
    if a.steps ≥ s.maxBucketLength * 2 ∨ s.nItems ≥ s.maxBucketLength * s.nBuckets then do
      let s ← s.expand nbuckets
      s.initialiseBucket a (slot + nbuckets)
    else
      let ibSlot := slot + nbuckets / 2
      if ibSlot < s.nBuckets then s.initialiseBucket a ibSlot else .ok (a, s)
  else .ok (a, s)

def insertNode (s : Solist T) (a : Accessor) (hashv : Hash) (payload : T) :
    Except Fault (Bool × Accessor × Solist T) := do
  let nbuckets := s.nBuckets
  let n ← solistNode payload hashv
  let dnode := s.heap.size
  let (result, a, s) ← insertLoop hashv dnode s.fuel { s with heap := s.heap.new n } a
  if !result then .ok (result, a.zap, { s with heap := s.heap.delete dnode })
  else
    let n ← s.heap.deref a.cur
    let a ← s.advanceWhile Node.isNode true s.fuel { a with next := n.next.ptr }
    let (a, s) ← s.expansionCheck a hashv nbuckets
    .ok (result, a.zap, s)

/-- The `while (true)` of `delete_node`. -/
def deleteLoop (hashv : Hash) : Nat → Solist T → Accessor → Except Fault (Bool × Accessor × Solist T)
  | 0, _, _ => .error .outOfFuel
  | fuel + 1, s, a => do
    let (found, a, s) ← s.findNode a hashv
    if !found then .ok (false, a, s)
    else
      -- Mark
      let (marked, heap) ← s.heap.casNext a.cur a.next a.next true
      let s := { s with heap }
      if !marked then deleteLoop hashv fuel s a
      else
        -- remove
        let (won, heap) ← s.heap.casNext a.prev a.cur a.next false
        let s := { s with heap }
        if won then
          let s := s.decItemCount
          match a.cur with
          | none => .error .nullDeref
          | some c => .ok (true, a, { s with heap := s.heap.delete c })
        else deleteLoop hashv fuel s a

def deleteNode (s : Solist T) (a : Accessor) (hashv : Hash) : Except Fault (Bool × Accessor × Solist T) := do
  let (result, a, s) ← deleteLoop hashv s.fuel s a
  .ok (result, a.zap, s)

/-- The payload pointer is the node's address: the payload is its field. -/
def findItemNode (s : Solist T) (a : Accessor) (hashv : Hash) :
    Except Fault (Option Addr × Accessor × Solist T) := do
  let (found, a, s) ← s.findNode a hashv
  if found then
    let n ← s.heap.deref a.cur
    -- `dynamic_cast<solist_node<T>*>(cur)` is null for a dummy
    match n.payload with
    | some _ => .ok (a.cur, a, s)
    | none => .error .nullDeref
  else .ok (none, a, s)

/-! ## Destruction -/

/-- The loop of `~solist`. -/
def destroyLoop : Nat → Heap T → Option Addr → Except Fault (Heap T)
  | 0, _, _ => .error .outOfFuel
  | _ + 1, h, none => .ok h
  | fuel + 1, h, some cur => do
    let n ← h.deref (some cur)
    destroyLoop fuel (h.delete cur) n.next.ptr

/-- `~solist` -/
def destroy (s : Solist T) : Except Fault (Heap T) := do
  destroyLoop s.fuel s.heap (← s.bucket 0)

end Solist

/-! ## Runs of calls -/

inductive Op (T : Type)
  | insertNode (hashv : Hash) (payload : T)
  | deleteNode (hashv : Hash)
  | findItemNode (hashv : Hash)
  | initialiseBucket (slot : Hash)
  deriving DecidableEq

/-- What a call returns. -/
inductive Res
  | bool (b : Bool)
  | item (p : Option Addr)
  | unit
  deriving DecidableEq

/-- A list and the accessors onto it. -/
structure Session (T : Type) where
  list : Solist T
  accessor : Nat → Accessor := fun _ => {}

namespace Session

variable {T : Type}

def after (s : Session T) (i : Nat) (a : Accessor) (list : Solist T) : Session T :=
  { list, accessor := Function.update s.accessor i a }

/-- One call through accessor `i`. -/
def call (s : Session T) (i : Nat) (op : Op T) : Except Fault (Res × Session T) := do
  let (res, a, list) ← (show Except Fault (Res × Accessor × Solist T) from match op with
    | .insertNode h v => do let (b, a, l) ← s.list.insertNode (s.accessor i) h v; .ok (.bool b, a, l)
    | .deleteNode h => do let (b, a, l) ← s.list.deleteNode (s.accessor i) h; .ok (.bool b, a, l)
    | .findItemNode h => do let (p, a, l) ← s.list.findItemNode (s.accessor i) h; .ok (.item p, a, l)
    | .initialiseBucket slot => do let (a, l) ← s.list.initialiseBucket (s.accessor i) slot; .ok (.unit, a, l))
  .ok (res, s.after i a list)

end Session

/-- The calls a caller may make: hashes with the reserved bit clear, slots of the table. -/
def Op.Valid {T : Type} (s : Solist T) : Op T → Prop
  | .insertNode h _ | .deleteNode h | .findItemNode h => h.toNat < 2 ^ 31
  | .initialiseBucket slot => slot < s.nBuckets

instance {T : Type} (s : Solist T) (op : Op T) : Decidable (op.Valid s) := by
  cases op <;> exact inferInstanceAs (Decidable (_ < _))

/-- A result with a payload pointer read through. -/
inductive View (T : Type)
  | bool (b : Bool)
  | payload (v : Option T)
  | unit
  deriving DecidableEq

def Res.view {T : Type} (h : Heap T) : Res → View T
  | .bool b => .bool b
  | .item p => .payload (p.bind fun a => (h.node a).payload)
  | .unit => .unit

/-- One call of a run, with what it returned. -/
structure Record (T : Type) where
  op : Op T
  res : Res
  view : View T

/-- Runs of valid calls on a fresh list, one after another, through any accessors. -/
def sessions (T : Type) (size bucketLength : Hash) : System (Session T × List (Record T)) (Nat × Op T) where
  init s := ∃ list, Solist.create size bucketLength = .ok list ∧ s = ({ list }, [])
  next s e :=
    if e.2.Valid s.1.list then
      match s.1.call e.1 e.2 with
      | .ok (r, s') => some (s', s.2 ++ [{ op := e.2, res := r, view := r.view s'.list.heap }])
      | .error _ => none
    else none

end SplitOrder
