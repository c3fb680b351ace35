/-
`solist.hpp` called by several threads.

One indivisible step is one read of `buckets[]` or of a next pointer, one
`CAS`, one store or one counter update; what is local to a thread (tests on
keys, `new`, `delete`) runs with the step before or after it. A deleted node
stays readable and its address is not used again. `expand` has no step: a
thread that comes to it stays there, so the bucket array is fixed.

`links` and `unlinks` are history: the calls whose link or unlink `CAS`
succeeded, with the node.
-/
import SplitOrder.Solist.Ops

namespace SplitOrder

namespace Concurrent

/-- The call `find_node` is part of. -/
inductive FindCall
  | insertNode (hashv : Hash) (dnode : Addr)
  | deleteNode (hashv : Hash)
  | findItemNode (hashv : Hash)
  deriving DecidableEq

def FindCall.hashv : FindCall → Hash
  | insertNode hashv _ | deleteNode hashv | findItemNode hashv => hashv

/-- Where `initialise_bucket` returns to. -/
inductive InitCaller
  | caller
  | findNode (c : FindCall)
  | insertNode
  deriving DecidableEq

/-- `initialise_bucket(slot)` once it has made its node. -/
structure InitCall where
  slot : Hash
  node : Addr
  caller : InitCaller
  deriving DecidableEq

/-- The next thing `initialise_bucket` does with shared memory. -/
inductive InitPc
  /-- `get_parent` reads `buckets[pb_slot]` one key step below `pbKey` -/
  | probe (pbKey : SoKey)
  /-- `prev = cur = buckets[pb_slot]` -/
  | parent (pbSlot : Hash)
  /-- `next = cur->next()` -/
  | parentNext
  /-- the loop of `get_parent` -/
  | walk
  /-- `node->next = next` -/
  | setNext
  /-- the first two conditions of the loop -/
  | recheck
  /-- `cur->next.CAS(next, node)` -/
  | cas
  /-- `buckets[slot] == nullptr`, after the loop -/
  | settle
  /-- `cur->next() == node` -/
  | won
  /-- `buckets[slot] = node` -/
  | store
  /-- `buckets[slot] = next` -/
  | storeNext
  /-- `assert(buckets[slot]->key == key)` -/
  | assertNext
  /-- `delete node` -/
  | discard
  /-- the two asserts at the end -/
  | assertSet
  | assertKey
  deriving DecidableEq

inductive Pc
  /-- no call in progress; what the last one returned -/
  | idle (res : Option Res)
  | initEntry (slot : Hash) (k : InitCaller)
  | init (i : InitCall) (pc : InitPc)
  | initReturn (slot : Hash) (k : InitCaller)
  | findEntry (c : FindCall)
  /-- `prev = cur = buckets[slot]` -/
  | findBucket (c : FindCall)
  /-- `next = cur->next()` -/
  | findNext (c : FindCall)
  /-- the loop of `find_node`, and what the call does with the result -/
  | findWalk (c : FindCall)
  /-- `dnode->next = next` -/
  | insertSetNext (hashv : Hash) (dnode : Addr)
  /-- `cur->next.CAS(next, dnode)` -/
  | insertCas (hashv : Hash) (dnode : Addr)
  /-- `inc_item_count()` -/
  | insertCount (hashv : Hash)
  /-- `next = cur->next()` -/
  | insertNext (hashv : Hash)
  /-- the loop over the data nodes behind the new one -/
  | insertWalk (hashv : Hash)
  | insertCheck (hashv : Hash)
  | expand (hashv : Hash)
  /-- `cur->next.CAS(next, next, true)` -/
  | deleteMark (hashv : Hash)
  /-- `prev->next.CAS(cur, next)` -/
  | deleteUnlink (hashv : Hash)
  /-- `dec_item_count()` and `delete cur` -/
  | deleteCount (hashv : Hash)
  /-- a failed assertion, or a null pointer dereferenced -/
  | crashed
  deriving DecidableEq

structure Thread where
  a : Accessor := {}
  pc : Pc := .idle none

/-- What one step of a thread does. -/
structure Effect (T : Type) where
  list : Solist T
  thread : Thread
  linked : Option (Hash × Addr) := none
  unlinked : Option (Hash × Addr) := none

section Steps

variable {T : Type}

/-- A step that only moves the thread on. -/
def goto (s : Solist T) (a : Accessor) (pc : Pc) : Effect T := { list := s, thread := { a, pc } }

def crash (s : Solist T) (a : Accessor) : Effect T := goto s a .crashed

/-- `advance()` to the node `c` that `next` points to. -/
def advanceTo (s : Solist T) (a : Accessor) (c : Addr) : Accessor :=
  { a with prev := a.cur, cur := some c, next := s.heap.nextOf c }

/-- The step of `initialise_bucket` at `pc`. -/
def InitCall.step (i : InitCall) (s : Solist T) (a : Accessor) : InitPc → Effect T
  | .probe pbKey =>
    match solBucketKey (s.nBuckets / 2) with
    | .error _ => crash s a
    | .ok keyStep =>
      let pbKey := pbKey - keyStep
      let pbSlot := reverseHashtBits pbKey
      match s.buckets[pbSlot.toNat]? with
      | none => crash s a
      | some b =>
        if b.isSome ∨ pbKey = 0 then goto s a (.init i (.parent pbSlot)) else goto s a (.init i (.probe pbKey))
  | .parent pbSlot =>
    match s.buckets[pbSlot.toNat]? with
    | none => crash s a
    | some b => goto s { a with prev := b, cur := b } (.init i .parentNext)
  | .parentNext =>
    match a.cur with
    | none => crash s a
    | some c => goto s { a with next := s.heap.nextOf c } (.init i .walk)
  | .walk =>
    match a.next with
    | none => goto s a (.init i .setNext)
    | some c =>
      if s.heap.key c < s.heap.key i.node then goto s (advanceTo s a c) (.init i .walk)
      else goto s a (.init i .setNext)
  | .setNext =>
    goto { s with heap := s.heap.setNext i.node ((s.heap.node i.node).next.assign a.next) } a (.init i .recheck)
  | .recheck =>
    match s.buckets[i.slot.toNat]? with
    | none => crash s a
    | some (some _) => goto s a (.init i .settle)
    | some none =>
      match a.next with
      | none => goto s a (.init i .cas)
      | some c => goto s a (.init i (if s.heap.key c = s.heap.key i.node then .settle else .cas))
  | .cas =>
    match a.cur with
    | none => crash s a
    | some c =>
      let (won, m) := (s.heap.node c).next.cas a.next (some i.node) false
      goto { s with heap := s.heap.setNext c m } a (.init i (if won then .settle else .probe (s.heap.key i.node)))
  | .settle =>
    match s.buckets[i.slot.toNat]? with
    | none => crash s a
    | some none => goto s a (.init i .won)
    | some (some _) => goto s a (.init i .discard)
  | .won =>
    match a.cur with
    | none => crash s a
    | some c => goto s a (.init i (if s.heap.nextOf c = some i.node then .store else .storeNext))
  | .store =>
    goto { s with buckets := s.buckets.set i.slot.toNat (some i.node) } { a with next := some i.node }
      (.init i .assertSet)
  | .storeNext => goto { s with buckets := s.buckets.set i.slot.toNat a.next } a (.init i .assertNext)
  | .assertNext =>
    match s.buckets[i.slot.toNat]? with
    | some (some b) => if s.heap.key b = s.heap.key i.node then goto s a (.init i .discard) else crash s a
    | _ => crash s a
  | .discard => goto { s with heap := s.heap.delete i.node } a (.init i .assertSet)
  | .assertSet =>
    match s.buckets[i.slot.toNat]? with
    | some (some _) => goto s a (.init i .assertKey)
    | _ => crash s a
  | .assertKey =>
    match s.buckets[i.slot.toNat]? with
    | some (some b) => if s.heap.key b = s.heap.key i.node then goto s a (.initReturn i.slot i.caller) else crash s a
    | _ => crash s a

/-- `initialise_bucket` up to its loop. -/
def initEntry (slot : Hash) (k : InitCaller) (s : Solist T) (a : Accessor) : Effect T :=
  if ¬ slot < s.nBuckets then crash s a
  else match s.buckets[slot.toNat]? with
    | none => crash s a
    | some (some _) => goto s a (.initReturn slot k)
    | some none =>
      match (solistBucket slot : Except Fault (Node T)) with
      | .error _ => crash s a
      | .ok b =>
        goto { s with heap := s.heap.new b } a (.init { slot, node := s.heap.size, caller := k } (.probe b.key))

def initReturn (k : InitCaller) (s : Solist T) (a : Accessor) : Effect T :=
  match k with
  | .caller => goto s a (.idle (some .unit))
  | .findNode c => goto s a (.findBucket c)
  | .insertNode => goto s a.zap (.idle (some (.bool true)))

/-- What the call does when `find_node` returns. -/
def FindCall.found (c : FindCall) (s : Solist T) (a : Accessor) (found : Bool) : Effect T :=
  match c with
  | .insertNode hashv dnode =>
    if found then goto { s with heap := s.heap.delete dnode } a.zap (.idle (some (.bool false)))
    else goto s a (.insertSetNext hashv dnode)
  | .deleteNode hashv => if found then goto s a (.deleteMark hashv) else goto s a.zap (.idle (some (.bool false)))
  | .findItemNode _ => goto s a (.idle (some (.item (if found then a.cur else none))))

/-- The loop of `find_node` and its return. -/
def FindCall.walk (c : FindCall) (s : Solist T) (a : Accessor) : Effect T :=
  let key := solNodeKey c.hashv
  let found := match a.cur with
    | none => false
    | some x => s.heap.key x == key
  match a.next with
  | none => c.found s a found
  | some x =>
    if s.heap.key x ≤ key then
      let a := advanceTo s a x
      goto s { a with steps := a.steps + 1 } (.findWalk c)
    else c.found s a found

/-- The step of `find_node` at `buckets[slot]`. -/
def FindCall.entry (c : FindCall) (s : Solist T) (a : Accessor) : Effect T :=
  let slot := c.hashv % s.nBuckets
  match s.buckets[slot.toNat]? with
  | none => crash s a
  | some none => goto s a (.initEntry slot (.findNode c))
  | some (some _) => goto s a (.findBucket c)

def FindCall.bucket (c : FindCall) (s : Solist T) (a : Accessor) : Effect T :=
  match s.buckets[(c.hashv % s.nBuckets).toNat]? with
  | none => crash s a
  | some b => goto s { a with prev := b, cur := b } (.findNext c)

def FindCall.next (c : FindCall) (s : Solist T) (a : Accessor) : Effect T :=
  match a.cur with
  | none => crash s a
  | some x => goto s { a with next := s.heap.nextOf x, steps := 0 } (.findWalk c)

def insertCas (hashv : Hash) (dnode : Addr) (s : Solist T) (a : Accessor) : Effect T :=
  match a.cur with
  | none => crash s a
  | some c =>
    let (won, m) := (s.heap.node c).next.cas a.next (some dnode) false
    let s := { s with heap := s.heap.setNext c m }
    if won then { goto s a (.insertCount hashv) with linked := some (hashv, dnode) }
    else goto s a (.findEntry (.insertNode hashv dnode))

def insertNext (hashv : Hash) (s : Solist T) (a : Accessor) : Effect T :=
  match a.cur with
  | none => crash s a
  | some c => goto s { a with next := s.heap.nextOf c } (.insertWalk hashv)

def insertWalk (hashv : Hash) (s : Solist T) (a : Accessor) : Effect T :=
  match a.next with
  | none => goto s a (.insertCheck hashv)
  | some c =>
    if (s.heap.node c).isNode then
      let a := advanceTo s a c
      goto s { a with steps := a.steps + 1 } (.insertWalk hashv)
    else goto s a (.insertCheck hashv)

def insertCheck (hashv : Hash) (s : Solist T) (a : Accessor) : Effect T :=
  if a.steps > s.maxBucketLength then
    if a.steps ≥ s.maxBucketLength * 2 ∨ s.nItems ≥ s.maxBucketLength * s.nBuckets then goto s a (.expand hashv)
    else
      let ibSlot := hashv % s.nBuckets + s.nBuckets / 2
      if ibSlot < s.nBuckets then goto s a (.initEntry ibSlot .insertNode)
      else goto s a.zap (.idle (some (.bool true)))
  else goto s a.zap (.idle (some (.bool true)))

def deleteMark (hashv : Hash) (s : Solist T) (a : Accessor) : Effect T :=
  match a.cur with
  | none => crash s a
  | some c =>
    let (won, m) := (s.heap.node c).next.cas a.next a.next true
    let s := { s with heap := s.heap.setNext c m }
    if won then goto s a (.deleteUnlink hashv) else goto s a (.findEntry (.deleteNode hashv))

def deleteUnlink (hashv : Hash) (s : Solist T) (a : Accessor) : Effect T :=
  match a.prev, a.cur with
  | some p, some c =>
    let (won, m) := (s.heap.node p).next.cas (some c) a.next false
    let s := { s with heap := s.heap.setNext p m }
    if won then { goto s a (.deleteCount hashv) with unlinked := some (hashv, c) }
    else goto s a (.findEntry (.deleteNode hashv))
  | _, _ => crash s a

def deleteCount (s : Solist T) (a : Accessor) : Effect T :=
  match a.cur with
  | none => crash s a
  | some c => goto { s.decItemCount with heap := s.heap.delete c } a.zap (.idle (some (.bool true)))

/-- The step of a thread; nothing when no call is in progress, at `expand`
and after a crash. -/
def Thread.step (th : Thread) (s : Solist T) : Option (Effect T) :=
  let a := th.a
  match th.pc with
  | .idle _ | .expand _ | .crashed => none
  | .initEntry slot k => some (initEntry slot k s a)
  | .init i pc => some (i.step s a pc)
  | .initReturn _ k => some (initReturn k s a)
  | .findEntry c => some (c.entry s a)
  | .findBucket c => some (c.bucket s a)
  | .findNext c => some (c.next s a)
  | .findWalk c => some (c.walk s a)
  | .insertSetNext hashv dnode =>
    some (goto { s with heap := s.heap.setNext dnode ((s.heap.node dnode).next.assign a.next) } a
      (.insertCas hashv dnode))
  | .insertCas hashv dnode => some (insertCas hashv dnode s a)
  | .insertCount hashv => some (goto s.incItemCount a (.insertNext hashv))
  | .insertNext hashv => some (insertNext hashv s a)
  | .insertWalk hashv => some (insertWalk hashv s a)
  | .insertCheck hashv => some (insertCheck hashv s a)
  | .deleteMark hashv => some (deleteMark hashv s a)
  | .deleteUnlink hashv => some (deleteUnlink hashv s a)
  | .deleteCount _ => some (deleteCount s a)

/-- The start of a call. -/
def Thread.call (th : Thread) (s : Solist T) (op : Op T) : Effect T :=
  match op with
  | .insertNode hashv payload =>
    match solistNode payload hashv with
    | .error _ => crash s th.a
    | .ok n => goto { s with heap := s.heap.new n } th.a (.findEntry (.insertNode hashv s.heap.size))
  | .deleteNode hashv => goto s th.a (.findEntry (.deleteNode hashv))
  | .findItemNode hashv => goto s th.a (.findEntry (.findItemNode hashv))
  | .initialiseBucket slot => goto s th.a (.initEntry slot .caller)

end Steps

/-! ## The machine -/

/-- The shared list and the threads, one accessor each. -/
structure State (T : Type) (n : Nat) where
  list : Solist T
  thread : Fin n → Thread
  links : List (Hash × Addr)
  unlinks : List (Hash × Addr)

inductive Event (T : Type) (n : Nat)
  | call (t : Fin n) (op : Op T)
  | step (t : Fin n)

variable {T : Type} {n : Nat}

/-- The state after thread `t` has had the effect `e`. -/
def State.apply (σ : State T n) (t : Fin n) (e : Effect T) : State T n :=
  { list := e.list
    thread := Function.update σ.thread t e.thread
    links := σ.links ++ e.linked.toList
    unlinks := σ.unlinks ++ e.unlinked.toList }

def Pc.isIdle : Pc → Bool
  | .idle _ => true
  | _ => false

theorem Pc.isIdle_iff {pc : Pc} : pc.isIdle = true ↔ ∃ res, pc = .idle res := by
  cases pc <;> simp [Pc.isIdle]

/-- Threads that make the calls `ops` allows on a well-formed list that
meets `start`, none of them in a call at first. The data nodes on the chain
count as linked by earlier calls. -/
def machine (T : Type) (n : Nat) (start : Solist T → Prop) (ops : Op T → Bool) : System (State T n) (Event T n) where
  init σ :=
    start σ.list ∧ (∃ l, σ.list.Inv l [] ∧
      σ.links = (l.filter σ.list.heap.isData).map fun a => ((σ.list.heap.node a).hashv, a)) ∧
    σ.unlinks = [] ∧ ∀ t, (σ.thread t).pc.isIdle
  next σ
    | .call t op =>
      if (σ.thread t).pc.isIdle ∧ ops op ∧ op.Valid σ.list then some (σ.apply t ((σ.thread t).call σ.list op))
      else none
    | .step t => ((σ.thread t).step σ.list).map (σ.apply t)

end Concurrent

end SplitOrder
