/-
Hazard pointer contexts on one domain, called by several threads.

One indivisible step is one read or store of a slot, of a bitmap, of a list
head or of a counter, one `CAS`, or one exchange; what only touches the
thread's own memory (its array, its private delete list, a node it has not
pushed, the sorting of a snapshot) runs with the step before or after it.
A thread has at most one context; one with two is two threads here.

What `new` returns comes with the event: any address of a delete node that
is not allocated, so addresses are used again, and for a pool any array that
overlaps no other; it is taken when the pool is pushed, before which no
other thread can see it.
-/
import SplitOrder.Lib.Runs
import SplitOrder.Hazard.Compact
import SplitOrder.Hazard.Domain
import SplitOrder.Hazard.Snapshot

namespace SplitOrder

namespace Hazard

/-- `hazard_pointer_context<T, S, R>` -/
structure Context where
  /-- `size` -/
  S : Nat
  R : Nat
  hazardPtrs : Nat

/-- What follows a call of `enqueue_for_delete`, `collect_if_required` or `collect`. -/
inductive After
  | done
  /-- `del_index = 0` in `reclaim` -/
  | reclaim
  /-- `domain->collect()` in `~hazard_pointer_context` -/
  | destroy
  /-- the end of `~hazard_pointer_context` -/
  | destroyed
  /-- the end of `~hazard_pointer_domain` -/
  | domain
  deriving DecidableEq

/-- What follows a call of `push_delete_node`. -/
inductive PushAfter
  | enqueue (canCollect : Bool)
  /-- `items_ptr[x] = nullptr` -/
  | array (x count : Nat) (canCollect : Bool)
  /-- the last loop of `collect` -/
  | collect (localHead : Option Addr)
  deriving DecidableEq

/-- What follows a snapshot. -/
inductive SnapshotAfter
  | reclaim
  | collect (localHead : Option Addr) (k : After)
  deriving DecidableEq

inductive Pc
  | idle
  /-- `pools_reserve(pools_head, blocklen)` in `reserve`, the first time or `again` -/
  | reserve (S R : Nat) (again : Bool)
  /-- `expected = bitmap` in `reserve_impl` of the pool `p` -/
  | reserveLoad (S R : Nat) (again : Bool) (p : Nat)
  | reserveCas (S R : Nat) (again : Bool) (p : Nat) (expected : BitVec 32)
  /-- `pool->next = *phead` -/
  | poolsNext (S R : Nat)
  | poolsCas (S R next : Nat)
  /-- `hp_count += pool->count()`: the read and the store -/
  | countLoad (S R : Nat)
  | countStore (S R : Nat) (count : BitVec 32)
  /-- the hazard pointer `i` of the block at `ptr` is constructed -/
  | construct (S R ptr i : Nat)
  /-- `del_node->next = delete_head` -/
  | push (node : Addr) (a : PushAfter) (k : After)
  | pushCas (node : Addr) (a : PushAfter) (k : After)
  /-- `delete_count` is incremented -/
  | pushCount (a : PushAfter) (k : After)
  /-- `new hazp_delete_node(item_ptr, reclaimer)` -/
  | enqueue (item : Ptr) (canCollect : Bool) (k : After)
  /-- the loop of `enqueue_for_delete` on the array -/
  | enqueueArray (x count : Nat) (canCollect : Bool) (k : After)
  /-- `items_ptr[x] = nullptr` -/
  | enqueueNull (x count : Nat) (canCollect : Bool) (k : After)
  /-- `delete_count > hp_count`: the read of `delete_count`, then of `hp_count` -/
  | collectIf (doCollect : Bool) (k : After)
  | collectTest (doCollect : Bool) (deleteCount : BitVec 32) (k : After)
  /-- `dc = delete_count` -/
  | collectLoad (k : After)
  | collectZero (dc : BitVec 32) (k : After)
  /-- `collect`: the exchange of `delete_head` -/
  | collect (k : After)
  /-- `hazptrs_snapshot(pools_head)` -/
  | snapshot (a : SnapshotAfter)
  /-- the read of slot `ix` of the pool `p`; `buf` is what was read before -/
  | snapshotLoad (p ix : Nat) (buf : List Ptr) (a : SnapshotAfter)
  /-- the loop of `collect` over its list; `pprev` is the node that holds `*pprev`, if not `local_delete_head` -/
  | collectWalk (localHead pprev : Option Addr) (snap : List Ptr) (k : After)
  /-- the last loop of `collect` -/
  | collectPush (localHead : Option Addr) (k : After)
  /-- the loop of `reclaim` over the array, and the rest of it -/
  | reclaim (ix : Nat) (snap : List Ptr)
  /-- `hps[i].~hazard_pointer<T>()` -/
  | destruct (i : Nat)
  /-- `pools_release(pools_head, hps)` -/
  | release
  /-- the address test of `release_impl` of the pool `p` -/
  | releaseTest (p : Nat)
  /-- `nullptr != *(ptr + x)` -/
  | releaseSlot (p x : Nat)
  | releaseStore (p x : Nat)
  /-- `assert(mask == (bitmap & mask))` -/
  | releaseCheck (p ix : Nat)
  | releaseLoad (p ix : Nat)
  | releaseCas (p ix : Nat) (expected : BitVec 32)
  /-- `~hazptr_domain`: `assert(nullptr == delete_head)` and the exchange of `pools_head` -/
  | domainEnd
  /-- `assert(!p->has_reservations())` -/
  | domainPools (p : Nat)
  | ended
  /-- a failed assertion -/
  | crashed
  deriving DecidableEq

/-- A thread, with its context and the array it works on: `deleted` of the
context, or with no context the array it hands to `enqueue_for_delete`. -/
structure Thread where
  ctx : Option Context := none
  deleted : List Ptr := []
  delIndex : Nat := 0
  pc : Pc := .idle

structure Effect where
  domain : Domain
  thread : Thread
  /-- passed to `reclaim_object` -/
  reclaimed : List Ptr := []
  /-- pushed onto the delete list -/
  pushed : Nat := 0

/-- `++del_index` and `--del_index` of a `size_t`. -/
def sizeInc (n : Nat) : Nat := (n + 1) % 2 ^ 64

def sizeDec (n : Nat) : Nat := (n + (2 ^ 64 - 1)) % 2 ^ 64

theorem sizeDec_eq {m : Nat} (h : 0 < m) (h' : m < 2 ^ 64) : sizeDec m = m - 1 := by
  unfold sizeDec
  omega

theorem sizeInc_eq {m : Nat} (h : m + 1 < 2 ^ 64) : sizeInc m = m + 1 := Nat.mod_eq_of_lt h

def Thread.setPc (th : Thread) (pc : Pc) : Thread := { th with pc }

/-- A step that only moves the thread on. -/
def goto (d : Domain) (th : Thread) (pc : Pc) : Effect := { domain := d, thread := th.setPc pc }

/-- What follows `enqueue_for_delete` and the rest. -/
def After.resume (k : After) (th : Thread) : Thread :=
  match k with
  | .done => th.setPc .idle
  | .reclaim => { th with delIndex := 0, pc := .idle }
  | .destroy => th.setPc (.collect .destroyed)
  | .destroyed => { th with ctx := none, pc := .idle }
  | .domain => th.setPc .domainEnd

/-- `if (can_collect) collect_if_required()` -/
def After.enqueued (k : After) (canCollect : Bool) (th : Thread) : Thread :=
  if canCollect then th.setPc (.collectIf false k) else k.resume th

def SnapshotAfter.resume (a : SnapshotAfter) (snap : List Ptr) : Pc :=
  match a with
  | .reclaim => .reclaim 0 snap
  | .collect localHead k => .collectWalk localHead none snap k

namespace Domain

variable (d : Domain)

def setNode (a : Addr) (v : DeleteNode) : Domain := { d with node := Function.update d.node a v }

def setNext (a : Addr) (p : Option Addr) : Domain := d.setNode a { d.node a with next := p }

/-- `new hazp_delete_node(datap, recl)` at `a`. -/
def newNode (a : Addr) (payload : Ptr) : Domain :=
  { d.setNode a { payload } with live := Function.update d.live a true }

/-- `delete` of a node. -/
def freeNode (a : Addr) : Domain := { d with live := Function.update d.live a false }

def next (a : Addr) : Option Addr := (d.node a).next

def payload (a : Addr) : Ptr := (d.node a).payload

end Domain

/-! ## Reserving and releasing -/

section Steps

variable (d : Domain) (th : Thread) (addr : Nat)

/-- `reserve_impl` goes round its loop with `expected`, or `pools_reserve` its own with the same `p`. -/
def reserveTurn (S R : Nat) (again : Bool) (p : Nat) (expected : BitVec 32) : Pc :=
  if expected = Pool.full then .reserveLoad S R again p else .reserveCas S R again p expected

def reserveLoad (S R : Nat) (again : Bool) (p : Nat) : Effect :=
  if p = 0 then goto d th (if again then .crashed else .poolsNext S R)
  else if S ≠ (d.pool p).blkSize then goto d th (.reserveLoad S R again p)
  else goto d th (reserveTurn S R again p (d.pool p).bitmap)

def reserveCas (S R : Nat) (again : Bool) (p : Nat) (expected : BitVec 32) : Effect :=
  match (d.pool p).turn expected with
  | (q, .reserved ix) => goto (d.setPool p q) th (.construct S R (q.block ix) 0)
  | (_, .again expected) => goto d th (reserveTurn S R again p expected)

def poolsCas (S R next : Nat) : Option Effect :=
  if d.poolsHead = next then
    if d.FreshArray addr (S * 32) then
      let q : Pool := { hazPtrs := addr, blkSize := S }
      some (goto ({ d with slot := fun a => if q.contains a then 0 else d.slot a }.pushPool q) th (.countLoad S R))
    else none
  else some (goto d th (.poolsNext S R))

def construct (S R ptr i : Nat) : Effect :=
  if i < S then goto (d.setSlot (ptr + i) 0) th (.construct S R ptr (i + 1))
  else
    { domain := d
      thread := { ctx := some { S, R, hazardPtrs := ptr }, deleted := List.replicate R 0, delIndex := 0, pc := .idle } }

def destruct (c : Context) (i : Nat) : Effect :=
  if i < c.S then goto (d.setSlot (c.hazardPtrs + i) 0) th (.destruct (i + 1)) else goto d th .release

/-- `enqueue_for_delete(deleted, R)` in `~hazard_pointer_context`. -/
def released (c : Context) : Pc := .enqueueArray 0 c.R true .destroy

def releaseTest (c : Context) (p : Nat) : Effect :=
  if p = 0 then goto d th .crashed
  else if (d.pool p).contains c.hazardPtrs then goto d th (.releaseSlot p 0)
  else goto d th (.releaseTest (Domain.poolNext p))

def releaseSlot (c : Context) (p x : Nat) : Effect :=
  if x < (d.pool p).blkSize then
    if d.slot (c.hazardPtrs + x) ≠ 0 then goto d th (.releaseStore p x) else goto d th (.releaseSlot p (x + 1))
  else
    match (d.pool p).findBlock c.hazardPtrs with
    | some ix => goto d th (.releaseCheck p ix)
    | none => goto d th (released c)

def releaseCheck (p ix : Nat) : Effect :=
  let mask := Bitmap.bit 32 ix
  if mask = (d.pool p).bitmap &&& mask then goto d th (.releaseLoad p ix) else goto d th .crashed

def releaseCas (c : Context) (p ix : Nat) (expected : BitVec 32) : Effect :=
  let q := d.pool p
  if q.bitmap = expected then
    goto (d.setPool p { q with bitmap := expected ^^^ Bitmap.bit 32 ix }) th (released c)
  else goto d th (.releaseLoad p ix)

/-! ## The delete list -/

def pushCas (a : Addr) (pa : PushAfter) (k : After) : Effect :=
  if d.deleteHead = d.next a then
    { goto { d with deleteHead := some a } th (.pushCount pa k) with pushed := 1 }
  else goto (d.setNext a d.deleteHead) th (.push a pa k)

def pushCount (pa : PushAfter) (k : After) : Effect :=
  let d := { d with deleteCount := d.deleteCount + 1#32 }
  match pa with
  | .enqueue canCollect => { domain := d, thread := k.enqueued canCollect th }
  | .array x count canCollect => goto d th (.enqueueNull x count canCollect k)
  | .collect localHead => goto d th (.collectPush localHead k)

def enqueue (item : Ptr) (canCollect : Bool) (k : After) : Option Effect :=
  if d.live addr then none else some (goto (d.newNode addr item) th (.push addr (.enqueue canCollect) k))

def enqueueArray (x count : Nat) (canCollect : Bool) (k : After) : Option Effect :=
  if x < count then
    match th.deleted[x]? with
    | none => none
    | some item =>
      if item ≠ 0 then
        if d.live addr then none
        else some (goto (d.newNode addr item) th (.push addr (.array x count canCollect) k))
      else some (goto d th (.enqueueArray (x + 1) count canCollect k))
  else some { domain := d, thread := k.enqueued canCollect th }

def collectTest (doCollect : Bool) (deleteCount : BitVec 32) (k : After) : Effect :=
  if d.hpCount.slt deleteCount then goto d th (.collectLoad k)
  else if doCollect then goto d th (.collect k)
  else { domain := d, thread := k.resume th }

def collectZero (dc : BitVec 32) (k : After) : Effect :=
  if d.deleteCount = dc then goto { d with deleteCount := 0#32 } th (.collectIf true k)
  else goto d th (.collectIf false k)

def collect (k : After) : Effect :=
  match d.deleteHead with
  | none => { domain := d, thread := k.resume th }
  | some a => goto { d with deleteHead := none } th (.snapshot (.collect (some a) k))

def snapshotLoad (p ix : Nat) (buf : List Ptr) (a : SnapshotAfter) : Effect :=
  if p = 0 then goto d th (a.resume (snapshotOf buf))
  else if ix < (d.pool p).hpCount then
    let v := d.slot ((d.pool p).hazPtrs + ix)
    goto d th (.snapshotLoad p (ix + 1) (if v ≠ 0 then buf ++ [v] else buf) a)
  else goto d th (.snapshotLoad (Domain.poolNext p) 0 buf a)

def collectWalk (localHead pprev : Option Addr) (snap : List Ptr) (k : After) : Effect :=
  match pprev with
  | none =>
    match localHead with
    | none => goto d th (.collectPush localHead k)
    | some cur =>
      if search snap (d.payload cur) then goto d th (.collectWalk localHead (some cur) snap k)
      else
        { goto (d.freeNode cur) th (.collectWalk (d.next cur) none snap k) with reclaimed := [d.payload cur] }
  | some b =>
    match d.next b with
    | none => goto d th (.collectPush localHead k)
    | some cur =>
      if search snap (d.payload cur) then goto d th (.collectWalk localHead (some cur) snap k)
      else
        { goto ((d.setNext b (d.next cur)).freeNode cur) th (.collectWalk localHead (some b) snap k) with
          reclaimed := [d.payload cur] }

def collectPush (localHead : Option Addr) (k : After) : Effect :=
  match localHead with
  | none => { domain := d, thread := k.resume th }
  | some a => goto d th (.push a (.collect (d.next a)) k)

/-! ## `reclaim` and the end -/

def reclaim (c : Context) (ix : Nat) (snap : List Ptr) : Option Effect :=
  if ix < c.R then
    match th.deleted[ix]? with
    | none => none
    | some item =>
      if search snap item then some (goto d th (.reclaim (ix + 1) snap))
      else
        some { domain := d
               thread := { th with delIndex := sizeDec th.delIndex, deleted := th.deleted.set ix 0
                                   pc := .reclaim (ix + 1) snap }
               reclaimed := [item] }
  else if th.delIndex = c.R then some (goto d th (.enqueueArray 0 c.R true .reclaim))
  else (compact th.deleted).map fun a => { domain := d, thread := { th with deleted := a, pc := .idle } }

def domainEnd : Effect :=
  if d.deleteHead = none then goto { d with poolsHead := 0 } th (.domainPools d.poolsHead) else goto d th .crashed

def domainPools (p : Nat) : Effect :=
  if p = 0 then goto d th .ended
  else if (d.pool p).bitmap ≠ 0#32 then goto d th .crashed
  else goto d th (.domainPools (Domain.poolNext p))

/-- The step of a thread; nothing between calls, after a failed assertion
and when `addr` is not what `new` may return. -/
def Thread.step (th : Thread) (d : Domain) (addr : Nat) : Option Effect :=
  match th.pc with
  | .idle | .ended | .crashed => none
  | .reserve S R again => some (goto d th (.reserveLoad S R again d.poolsHead))
  | .reserveLoad S R again p => some (reserveLoad d th S R again p)
  | .reserveCas S R again p expected => some (reserveCas d th S R again p expected)
  | .poolsNext S R => some (goto d th (.poolsCas S R d.poolsHead))
  | .poolsCas S R next => poolsCas d th addr S R next
  | .countLoad S R => some (goto d th (.countStore S R d.hpCount))
  | .countStore S R count =>
    some (goto { d with hpCount := count + BitVec.ofNat 32 (S * 32) } th (.reserve S R true))
  | .construct S R ptr i => some (construct d th S R ptr i)
  | .push a pa k => some (goto (d.setNext a d.deleteHead) th (.pushCas a pa k))
  | .pushCas a pa k => some (pushCas d th a pa k)
  | .pushCount pa k => some (pushCount d th pa k)
  | .enqueue item canCollect k => enqueue d th addr item canCollect k
  | .enqueueArray x count canCollect k => enqueueArray d th addr x count canCollect k
  | .enqueueNull x count canCollect k =>
    some
      { domain := d
        thread := { th with deleted := th.deleted.set x 0, pc := .enqueueArray (x + 1) count canCollect k } }
  | .collectIf doCollect k => some (goto d th (.collectTest doCollect d.deleteCount k))
  | .collectTest doCollect deleteCount k => some (collectTest d th doCollect deleteCount k)
  | .collectLoad k => some (goto d th (.collectZero d.deleteCount k))
  | .collectZero dc k => some (collectZero d th dc k)
  | .collect k => some (collect d th k)
  | .snapshot a => some (goto d th (.snapshotLoad d.poolsHead 0 [] a))
  | .snapshotLoad p ix buf a => some (snapshotLoad d th p ix buf a)
  | .collectWalk localHead pprev snap k => some (collectWalk d th localHead pprev snap k)
  | .collectPush localHead k => some (collectPush d th localHead k)
  | .reclaim ix snap => th.ctx.bind fun c => reclaim d th c ix snap
  | .destruct i => th.ctx.map fun c => destruct d th c i
  | .release => some (goto d th (.releaseTest d.poolsHead))
  | .releaseTest p => th.ctx.map fun c => releaseTest d th c p
  | .releaseSlot p x => th.ctx.map fun c => releaseSlot d th c p x
  | .releaseStore p x => th.ctx.map fun c => goto (d.setSlot (c.hazardPtrs + x) 0) th (.releaseSlot p (x + 1))
  | .releaseCheck p ix => some (releaseCheck d th p ix)
  | .releaseLoad p ix => some (goto d th (.releaseCas p ix (d.pool p).bitmap))
  | .releaseCas p ix expected => th.ctx.map fun c => releaseCas d th c p ix expected
  | .domainEnd => some (domainEnd d th)
  | .domainPools p => some (domainPools d th p)

variable {d th addr}

/-! ## What a step can be -/

variable {e : Effect} {k : After} {item : Ptr} {can : Bool} {x count ix : Nat} {c : Context} {snap : List Ptr}

theorem enqueue_cases (he : enqueue d th addr item can k = some e) :
    d.live addr = false ∧ e = goto (d.newNode addr item) th (.push addr (.enqueue can) k) := by
  unfold enqueue at he
  split at he
  · cases he
  · cases he
    exact ⟨Bool.eq_false_iff.mpr ‹_›, rfl⟩

/-- An item gets a node, or there is none, or the array is done. -/
theorem enqueueArray_cases (he : enqueueArray d th addr x count can k = some e) :
    (∃ item, x < count ∧ th.deleted[x]? = some item ∧ item ≠ 0 ∧ d.live addr = false ∧
        e = goto (d.newNode addr item) th (.push addr (.array x count can) k)) ∨
      (x < count ∧ th.deleted[x]? = some 0 ∧ e = goto d th (.enqueueArray (x + 1) count can k)) ∨
      (count ≤ x ∧ e = { domain := d, thread := k.enqueued can th }) := by
  unfold enqueueArray at he
  split at he
  · rename_i hx
    split at he
    · cases he
    · rename_i item hitem
      split at he
      · split at he
        · cases he
        · cases he
          exact .inl ⟨item, hx, hitem, ‹_›, Bool.eq_false_iff.mpr ‹_›, rfl⟩
      · cases he
        have hz : item = 0 := not_not.mp ‹_›
        exact .inr (.inl ⟨hx, hz ▸ hitem, rfl⟩)
  · cases he
    exact .inr (.inr ⟨Nat.le_of_not_lt ‹_›, rfl⟩)

/-- An item is in the snapshot, or it is reclaimed; at the end the array is full, or it is compacted. -/
theorem reclaim_cases (he : reclaim d th c ix snap = some e) :
    (∃ item, ix < c.R ∧ th.deleted[ix]? = some item ∧ search snap item = true ∧
      e = goto d th (.reclaim (ix + 1) snap)) ∨
      (∃ item, ix < c.R ∧ th.deleted[ix]? = some item ∧ search snap item = false ∧
        e = { domain := d
              thread := { th with delIndex := sizeDec th.delIndex, deleted := th.deleted.set ix 0
                                  pc := .reclaim (ix + 1) snap }
              reclaimed := [item] }) ∨
      (c.R ≤ ix ∧ th.delIndex = c.R ∧ e = goto d th (.enqueueArray 0 c.R true .reclaim)) ∨
      (∃ b, c.R ≤ ix ∧ th.delIndex ≠ c.R ∧ compact th.deleted = some b ∧
        e = { domain := d, thread := { th with deleted := b, pc := .idle } }) := by
  unfold reclaim at he
  split at he
  · rename_i hix
    split at he
    · cases he
    · rename_i item hitem
      split at he
      · cases he
        exact .inl ⟨item, hix, hitem, ‹_›, rfl⟩
      · cases he
        exact .inr (.inl ⟨item, hix, hitem, Bool.eq_false_iff.mpr ‹_›, rfl⟩)
  · rename_i hix
    split at he
    · cases he
      exact .inr (.inr (.inl ⟨Nat.le_of_not_lt hix, ‹_›, rfl⟩))
    · obtain ⟨b, hb, rfl⟩ := Option.map_eq_some_iff.mp he
      exact .inr (.inr (.inr ⟨b, Nat.le_of_not_lt hix, ‹_›, hb, rfl⟩))

/-- `*pprev` in `collect`. -/
def Domain.cursor (d : Domain) (head pprev : Option Addr) : Option Addr :=
  match pprev with
  | none => head
  | some b => d.next b

/-- The walk is at its end, or it keeps the node at the cursor, or it unlinks it and reclaims its object. -/
theorem collectWalk_cases (d : Domain) (th : Thread) (head pprev : Option Addr) (snap : List Ptr) (k : After) :
    (d.cursor head pprev = none ∧ collectWalk d th head pprev snap k = goto d th (.collectPush head k)) ∨
      (∃ cur, d.cursor head pprev = some cur ∧ search snap (d.payload cur) = true ∧
        collectWalk d th head pprev snap k = goto d th (.collectWalk head (some cur) snap k)) ∨
      (∃ cur d' head', d.cursor head pprev = some cur ∧ search snap (d.payload cur) = false ∧
        (d' = d.freeNode cur ∨ ∃ b, d' = (d.setNext b (d.next cur)).freeNode cur) ∧
        collectWalk d th head pprev snap k =
          { goto d' th (.collectWalk head' pprev snap k) with reclaimed := [d.payload cur] }) := by
  cases pprev with
  | none =>
    cases head with
    | none => exact .inl ⟨rfl, rfl⟩
    | some cur =>
      cases hs : search snap (d.payload cur) with
      | true => exact .inr (.inl ⟨cur, rfl, hs, by rw [collectWalk, if_pos hs]⟩)
      | false =>
        exact .inr (.inr ⟨cur, _, _, rfl, hs, .inl rfl, by rw [collectWalk, if_neg (Bool.eq_false_iff.mp hs)]⟩)
  | some b =>
    cases hb : d.next b with
    | none => exact .inl ⟨hb, by simp only [collectWalk, hb]⟩
    | some cur =>
      cases hs : search snap (d.payload cur) with
      | true => exact .inr (.inl ⟨cur, hb, hs, by simp only [collectWalk, hb, if_pos hs]⟩)
      | false =>
        exact .inr (.inr ⟨cur, _, head, hb, hs, .inr ⟨b, rfl⟩, by
          simp only [collectWalk, hb, if_neg (Bool.eq_false_iff.mp hs)]⟩)

end Steps

/-! ## The machine -/

/-- The calls of a context and of its domain. -/
inductive Op
  /-- `hazard_pointer_context<T, S, R>(domain)` -/
  | create (S R : Nat)
  | deleteItem (item : Ptr)
  | enqueue (item : Ptr) (canCollect : Bool)
  /-- `enqueue_for_delete` of an array, by a thread with no context -/
  | enqueueArray (items : List Ptr) (canCollect : Bool)
  | collect
  /-- `~hazard_pointer_context` -/
  | destroy

/-- The objects a call retires. -/
def Op.retires : Op → List Ptr
  | .deleteItem item | .enqueue item _ => [item]
  | .enqueueArray items _ => itemsOf items
  | _ => []

/-- `delete_item`, up to `reclaim` or the call of the domain. -/
def Thread.deleteItem (th : Thread) (c : Context) (item : Ptr) : Option Thread :=
  if c.R > 0 then
    if th.delIndex ≤ c.R then
      if th.delIndex < th.deleted.length then
        let th := { th with deleted := th.deleted.set th.delIndex item, delIndex := sizeInc th.delIndex }
        some (if th.delIndex = c.R then th.setPc (.snapshot .reclaim) else th)
      else none
    else some (th.setPc .crashed)
  else some (th.setPc (.enqueue item true .done))

/-- The start of a call by a thread with no call in progress. -/
def Op.start (op : Op) (th : Thread) : Option Thread :=
  match op, th.ctx with
  | .create S R, none => some (th.setPc (.reserve S R false))
  | .deleteItem item, some c => th.deleteItem c item
  | .enqueue item canCollect, _ => some (th.setPc (.enqueue item canCollect .done))
  | .enqueueArray items canCollect, none =>
    some { th with deleted := items, pc := .enqueueArray 0 items.length canCollect .done }
  | .collect, _ => some (th.setPc (.collect .done))
  | .destroy, some _ => some (th.setPc (.destruct 0))
  | _, _ => none

structure State (n : Nat) where
  domain : Domain
  thread : Fin n → Thread
  /-- the objects retired and the ones passed to `reclaim_object`, in order -/
  retired : List Ptr := []
  reclaimed : List Ptr := []
  /-- the nodes pushed so far -/
  pushes : Nat := 0
  /-- `~hazard_pointer_domain` has begun -/
  closed : Bool := false

inductive Event (n : Nat)
  | call (t : Fin n) (op : Op)
  /-- `store(index, ptr)` -/
  | store (t : Fin n) (index : Nat) (ptr : Ptr)
  /-- the context of `t` is moved to `u` -/
  | move (t u : Fin n)
  /-- `~hazard_pointer_domain`, run by `t` -/
  | close (t : Fin n)
  | step (t : Fin n) (addr : Nat)

variable {n : Nat}

namespace State

def set (σ : State n) (t : Fin n) (th : Thread) : State n := { σ with thread := Function.update σ.thread t th }

/-- The state after thread `t` has had the effect `e`. -/
def apply (σ : State n) (t : Fin n) (e : Effect) : State n :=
  { σ with
    domain := e.domain
    thread := Function.update σ.thread t e.thread
    reclaimed := σ.reclaimed ++ e.reclaimed
    pushes := σ.pushes + e.pushed }

/-- The object has been retired and not reclaimed. -/
def Pending (σ : State n) (p : Ptr) : Prop := σ.reclaimed.count p ≠ σ.retired.count p

instance (σ : State n) (p : Ptr) : Decidable (σ.Pending p) := inferInstanceAs (Decidable (_ ≠ _))

/-- What may be retired: objects, none of them twice. -/
def MayRetire (σ : State n) (items : List Ptr) : Prop := items.Nodup ∧ ∀ p ∈ items, p ≠ 0 ∧ ¬ σ.Pending p

instance (σ : State n) (items : List Ptr) : Decidable (σ.MayRetire items) := inferInstanceAs (Decidable (_ ∧ _))

/-- No call in progress. -/
def Idle (σ : State n) (t : Fin n) : Prop := (σ.thread t).pc = .idle

instance (σ : State n) (t : Fin n) : Decidable (σ.Idle t) := inferInstanceAs (Decidable (_ = _))

end State

/-- `R` fits a `size_t`, and `S` is one of the sizes the contexts may have. -/
def Op.Valid (sizes : Nat → Bool) : Op → Prop
  | .create S R => sizes S ∧ R < 2 ^ 64
  | .enqueueArray items _ => items.length < 2 ^ 64
  | _ => True

instance (sizes : Nat → Bool) (op : Op) : Decidable (op.Valid sizes) := by
  cases op <;> simp only [Op.Valid] <;> infer_instance

def State.store (σ : State n) (t : Fin n) (index : Nat) (ptr : Ptr) : Option (State n) :=
  match (σ.thread t).ctx with
  | some c => if index < c.S then some { σ with domain := σ.domain.setSlot (c.hazardPtrs + index) ptr } else none
  | none => none

/-- The partial move of a context. -/
def State.move (σ : State n) (t u : Fin n) : State n :=
  (σ.set u { σ.thread t with pc := .idle }).set t { σ.thread t with ctx := none, deleted := [], delIndex := 0 }

/-- Threads that make and use contexts on a new domain. -/
def machine (n : Nat) (sizes : Nat → Bool) : System (State n) (Event n) where
  init σ := σ = { domain := Domain.fresh, thread := fun _ => {} }
  next σ
    | .call t op =>
      if ¬ σ.closed ∧ σ.Idle t ∧ op.Valid sizes ∧ σ.MayRetire op.retires then
        (op.start (σ.thread t)).map fun th => { σ.set t th with retired := σ.retired ++ op.retires }
      else none
    | .store t index ptr => if ¬ σ.closed ∧ σ.Idle t then σ.store t index ptr else none
    | .move t u =>
      if ¬ σ.closed ∧ σ.Idle t ∧ σ.Idle u ∧ (σ.thread t).ctx.isSome ∧ (σ.thread u).ctx.isNone then some (σ.move t u)
      else none
    | .close t =>
      if ¬ σ.closed ∧ ∀ u, σ.Idle u ∧ (σ.thread u).ctx.isNone then
        some { σ.set t ((σ.thread t).setPc (.collect .domain)) with closed := true }
      else none
    | .step t addr => ((σ.thread t).step σ.domain addr).map (σ.apply t)

end Hazard

end SplitOrder
