/-
`insert_node` called by several threads on a table that grows.

A thread moves as in `Concurrent.Model`, one shared read or write a step.
What is new is every read of `n_buckets`, which is a step of its own: the
value read then, or the slot made from it, stays with the thread while other
threads go on. The replacement of `buckets` and `n_buckets` in `expand` is
one step, as its FIXME asks; the test before it is another.
-/
import SplitOrder.Concurrent.Model

namespace SplitOrder

namespace Growing

open Concurrent (FindCall InitCall InitCaller)

/-- `slot = hashv % n_buckets` of the expansion check, with the `n_buckets` it read. -/
structure CheckSlot where
  hashv : Hash
  nBuckets : Hash
  deriving DecidableEq

def CheckSlot.slot (c : CheckSlot) : Hash := c.hashv % c.nBuckets

/-- Where a thread is. `core` is a point of `Concurrent.Model` whose step does not read `n_buckets`. -/
inductive Pc
  | core (pc : Concurrent.Pc)
  /-- `slot = hashv % n_buckets`, in `find_node` -/
  | findSlot (c : FindCall)
  /-- `buckets[slot] == nullptr` -/
  | findTest (c : FindCall) (slot : Hash)
  /-- `prev = cur = buckets[slot]` -/
  | findBucket (c : FindCall) (slot : Hash)
  /-- `assert(slot < n_buckets)` -/
  | initAssert (slot : Hash) (k : InitCaller)
  /-- `buckets[slot] != nullptr` -/
  | initTest (slot : Hash) (k : InitCaller)
  /-- `key_step = sol_bucket_key(n_buckets / 2)` -/
  | parent (i : InitCall)
  /-- `buckets[pb_slot]`, one key step below `pbKey` -/
  | probe (i : InitCall) (keyStep pbKey : SoKey)
  /-- `steps > max_bucket_length`, and `slot = hashv % n_buckets` -/
  | insertCheck (hashv : Hash)
  /-- `steps >= max_bucket_length * 2`, or else `n_items` is read -/
  | insertItems (c : CheckSlot)
  /-- `n_items >= max_bucket_length * n_buckets` -/
  | insertFull (c : CheckSlot) (nItems : Hash)
  /-- `ib_slot < n_buckets` -/
  | splitTest (ibSlot : Hash)
  /-- `curr_size < n_buckets`, in `expand` -/
  | expandTest (c : CheckSlot)
  /-- the rest of `expand` -/
  | expandReplace (c : CheckSlot)
  deriving DecidableEq

/-- A thread in `insert_node`; `nbuckets` is what the call read on entry. -/
structure Thread where
  a : Accessor := {}
  pc : Pc := .core (.idle none)
  nbuckets : Hash := 0

/-- The point a thread comes to from one of `Concurrent.Model`. -/
def resume : Concurrent.Pc → Pc
  | .init i (.probe _) => .parent i
  | .findEntry c => .findSlot c
  | .insertCheck hashv => .insertCheck hashv
  | pc => .core pc

section Steps

variable {T : Type}

def Thread.goto (th : Thread) (s : Solist T) (pc : Pc) : Solist T × Thread := (s, { th with pc })

def Thread.crash (th : Thread) (s : Solist T) : Solist T × Thread := th.goto s (.core .crashed)

/-- The return of an insert that added its item. -/
def Thread.done (th : Thread) (s : Solist T) : Solist T × Thread :=
  (s, { th with a := th.a.zap, pc := .core (.idle (some (.bool true))) })

/-- `initialise_bucket` at the test of its slot: a dummy is made for an empty one. -/
def Thread.initTest (th : Thread) (s : Solist T) (slot : Hash) (k : InitCaller) : Solist T × Thread :=
  match s.buckets[slot.toNat]? with
  | none => th.crash s
  | some (some _) => th.goto s (.core (.initReturn slot k))
  | some none =>
    match (solistBucket slot : Except Fault (Node T)) with
    | .error _ => th.crash s
    | .ok b => th.goto { s with heap := s.heap.new b } (.parent { slot, node := s.heap.size, caller := k })

/-- One turn of the search of `get_parent`. -/
def Thread.probe (th : Thread) (s : Solist T) (i : InitCall) (keyStep pbKey : SoKey) : Solist T × Thread :=
  let pbKey := pbKey - keyStep
  let pbSlot := reverseHashtBits pbKey
  match s.buckets[pbSlot.toNat]? with
  | none => th.crash s
  | some b =>
    if b.isSome ∨ pbKey = 0 then th.goto s (.core (.init i (.parent pbSlot))) else th.goto s (.probe i keyStep pbKey)

/-- The step of a thread; nothing when no call is in progress and after a crash. -/
def Thread.step (th : Thread) (s : Solist T) : Option (Solist T × Thread) :=
  match th.pc with
  | .findSlot c => some (th.goto s (.findTest c (c.hashv % s.nBuckets)))
  | .findTest c slot =>
    match s.buckets[slot.toNat]? with
    | none => some (th.crash s)
    | some none => some (th.goto s (.initAssert slot (.findNode c)))
    | some (some _) => some (th.goto s (.findBucket c slot))
  | .findBucket c slot =>
    match s.buckets[slot.toNat]? with
    | none => some (th.crash s)
    | some b => some (s, { th with a := { th.a with prev := b, cur := b }, pc := .core (.findNext c) })
  | .initAssert slot k => some (if slot < s.nBuckets then th.goto s (.initTest slot k) else th.crash s)
  | .initTest slot k => some (th.initTest s slot k)
  | .parent i =>
    match solBucketKey (s.nBuckets / 2) with
    | .error _ => some (th.crash s)
    | .ok keyStep => some (th.goto s (.probe i keyStep (s.heap.key i.node)))
  | .probe i keyStep pbKey => some (th.probe s i keyStep pbKey)
  | .insertCheck hashv =>
    some (if th.a.steps > s.maxBucketLength then th.goto s (.insertItems { hashv, nBuckets := s.nBuckets })
      else th.done s)
  | .insertItems c =>
    some (if th.a.steps ≥ s.maxBucketLength * 2 then th.goto s (.expandTest c) else th.goto s (.insertFull c s.nItems))
  | .insertFull c nItems =>
    some (if nItems ≥ s.maxBucketLength * s.nBuckets then th.goto s (.expandTest c)
      else th.goto s (.splitTest (c.slot + th.nbuckets / 2)))
  | .splitTest ibSlot => some (if ibSlot < s.nBuckets then th.goto s (.initAssert ibSlot .insertNode) else th.done s)
  | .expandTest c =>
    some (if th.nbuckets < s.nBuckets then th.goto s (.initAssert (c.slot + th.nbuckets) .insertNode)
      else th.goto s (.expandReplace c))
  | .expandReplace c =>
    match s.expand s.nBuckets with
    | .error _ => some (th.crash s)
    | .ok s => some (th.goto s (.initAssert (c.slot + th.nbuckets) .insertNode))
  | .core (.initReturn slot (.findNode c)) => some (th.goto s (.findBucket c slot))
  | .core pc =>
    ({ a := th.a, pc } : Concurrent.Thread).step s |>.map fun e =>
      (e.list, { th with a := e.thread.a, pc := resume e.thread.pc })

/-- The start of `insert_node`: `n_buckets` is read and the data node made. -/
def Thread.insertNode (th : Thread) (s : Solist T) (hashv : Hash) (payload : T) : Solist T × Thread :=
  match solistNode payload hashv with
  | .error _ => th.crash s
  | .ok node =>
    ({ s with heap := s.heap.new node },
      { th with nbuckets := s.nBuckets, pc := .findSlot (.insertNode hashv s.heap.size) })

end Steps

/-! ## The machine -/

structure State (T : Type) (n : Nat) where
  list : Solist T
  thread : Fin n → Thread

inductive Event (T : Type) (n : Nat)
  | insertNode (t : Fin n) (hashv : Hash) (payload : T)
  | step (t : Fin n)

variable {T : Type} {n : Nat}

def State.apply (σ : State T n) (t : Fin n) (e : Solist T × Thread) : State T n :=
  { list := e.1, thread := Function.update σ.thread t e.2 }

def Pc.isIdle : Pc → Bool
  | .core pc => pc.isIdle
  | _ => false

/-- Threads that call `insert_node` on a fresh list. -/
def machine (T : Type) (n : Nat) (size bucketLength : Hash) : System (State T n) (Event T n) where
  init σ := Solist.create size bucketLength = .ok σ.list ∧ ∀ t, σ.thread t = {}
  next σ
    | .insertNode t hashv payload =>
      if (σ.thread t).pc.isIdle then some (σ.apply t ((σ.thread t).insertNode σ.list hashv payload)) else none
    | .step t => ((σ.thread t).step σ.list).map (σ.apply t)

/-! ## Slots and indices -/

/-- The slot a thread has passed to `initialise_bucket`, before its assertion. -/
def Pc.passed : Pc → Option Hash
  | .initAssert slot _ => some slot
  | _ => none

/-- The index into `buckets` that the next step of a thread uses. -/
def Pc.index : Pc → Option Hash
  | .findTest _ slot | .findBucket _ slot | .initTest slot _ => some slot
  | .probe _ keyStep pbKey => some (reverseHashtBits (pbKey - keyStep))
  | .core (.init _ (.parent pbSlot)) => some pbSlot
  | .core (.init i .recheck) | .core (.init i .settle) | .core (.init i .store) | .core (.init i .storeNext)
  | .core (.init i .assertNext) | .core (.init i .assertSet) | .core (.init i .assertKey) => some i.slot
  | _ => none

/-- Every slot passed to `initialise_bucket` is one of the table, and so is every index used. -/
def InRange (σ : State T n) : Prop :=
  ∀ t, (∀ slot, (σ.thread t).pc.passed = some slot → slot < σ.list.nBuckets) ∧
    ∀ i, (σ.thread t).pc.index = some i → i.toNat < σ.list.buckets.length

/-- The expansion check of a thread that comes to `expand`. -/
def Pc.expands : Pc → Option CheckSlot
  | .expandTest c => some c
  | _ => none

/-- When the table has grown between an insert's entry and its expansion
check, and not since, its hash is not in the last `nbuckets` slots. -/
def Thread.RoomLeft (s : Solist T) (th : Thread) : Prop :=
  ∀ c ∈ th.pc.expands, th.nbuckets < c.nBuckets → c.nBuckets = s.nBuckets →
    c.hashv.toNat % s.nBuckets.toNat < s.nBuckets.toNat - th.nbuckets.toNat

def RoomLeft (σ : State T n) : Event T n → Prop
  | .insertNode _ _ _ => True
  | .step t => (σ.thread t).RoomLeft σ.list

instance (σ : State T n) (e : Event T n) : Decidable (RoomLeft σ e) :=
  match e with
  | .insertNode _ _ _ => isTrue trivial
  | .step _ => inferInstanceAs (Decidable (∀ _ ∈ _, _))

end Growing

end SplitOrder
