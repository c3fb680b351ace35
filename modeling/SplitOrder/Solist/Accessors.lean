/-
An accessor carries nothing from one call to the next.

The constructors leave `steps` as it was, copies and assignments clear the
three pointers, and `find_item_node` and `initialise_bucket` leave them where
their searches ended. None of it matters: every call sets what it reads. So
a run's results depend on the calls and their order, not on the accessors
they are made through, or on how these are made and copied.
-/
import SplitOrder.Lib.Loops
import SplitOrder.Solist.Model

namespace SplitOrder

variable {T : Type}

namespace Accessor

/-- `hazp_acquire()` -/
def hazpAcquire (a : Accessor) : Accessor := a.zap

/-- `hazp_release()`, which is still to be written. -/
def hazpRelease (a : Accessor) : Accessor := a

/-- The constructors, in storage that holds `storage`. -/
def construct (storage : Accessor) : Accessor := storage.hazpAcquire

/-- `operator=` -/
def assign (a : Accessor) : Accessor := a.hazpRelease.hazpAcquire

/-- The accessor with another count of steps. -/
def withSteps (a : Accessor) (steps : Hash) : Accessor := { a with steps }

@[simp] theorem withSteps_next {a : Accessor} {k : Hash} : (a.withSteps k).next = a.next := rfl
@[simp] theorem withSteps_cur {a : Accessor} {k : Hash} : (a.withSteps k).cur = a.cur := rfl

end Accessor

/-! ## What a call reads -/

namespace Solist

variable {s : Solist T} {a b : Accessor} {slot hashv : Hash} {key : SoKey} {k : Hash}

/-- A walk that does not count leaves the count. -/
theorem advanceWhile_withSteps (go : Node T → Bool) (fuel : Nat) (a : Accessor) :
    s.advanceWhile go false fuel (a.withSteps k) = (s.advanceWhile go false fuel a).map (·.withSteps k) := by
  induction fuel generalizing a with
  | zero => rfl
  | succ fuel ih =>
    unfold advanceWhile
    rw [Accessor.withSteps_next]
    cases hn : a.next with
    | none => rfl
    | some c =>
      cases hd : s.heap.deref (some c) with
      | error e =>
        simp only [hd, bind_error]
        rfl
      | ok n =>
        simp only [hd, bind_ok]
        split
        · have hadv : ∀ a' : Accessor, a'.next = some c →
              s.advance a' = .ok { a' with prev := a'.cur, cur := some c, next := n.next.ptr } := by
            intro a' ha'
            unfold advance
            simp only [ha', hd, bind_ok]
          rw [hadv a hn, hadv (a.withSteps k) hn]
          simp only [bind_ok, Bool.false_eq_true, if_false]
          exact ih { a with prev := a.cur, cur := some c, next := n.next.ptr }
        · rfl

/-- `get_parent` sets the three pointers, and does not look at `steps`. -/
theorem getParent_accessor (s : Solist T) (a : Accessor) (slot : Hash) (key : SoKey) :
    s.getParent a slot key = (s.getParent {} slot key).map (·.withSteps a.steps) := by
  unfold getParent
  cases solBucketKey (s.nBuckets / 2) with
  | error e => rfl
  | ok step =>
    simp only [bind_ok]
    cases s.parentSlot step (2 ^ 32) key with
    | error e => rfl
    | ok pbSlot =>
      simp only [bind_ok]
      cases s.bucket pbSlot with
      | error e => rfl
      | ok cur =>
        simp only [bind_ok]
        cases s.heap.deref cur with
        | error e => rfl
        | ok n =>
          simp only [bind_ok]
          rw [← advanceWhile_withSteps]
          rfl

/-- The loop of `initialise_bucket` starts from what `get_parent` sets. -/
theorem linkDummy_accessor {node : Addr} (fuel : Nat) (s : Solist T) (a : Accessor) :
    linkDummy slot key node fuel s a =
      (linkDummy slot key node fuel s {}).map fun r => (r.1.withSteps a.steps, r.2) := by
  induction fuel generalizing s a with
  | zero => rfl
  | succ fuel ih =>
    unfold linkDummy
    rw [getParent_accessor s a]
    cases s.getParent {} slot key with
    | error e => rfl
    | ok b =>
      simp only [Except.map, bind_ok, Accessor.withSteps_next, Accessor.withSteps_cur]
      cases s.heap.assignNext (some node) b.next with
      | error e => rfl
      | ok heap =>
        simp only [bind_ok]
        cases bucket { s with heap } slot with
        | error e => rfl
        | ok p =>
          simp only [bind_ok]
          split
          · rfl
          · cases hasKey { s with heap } b.next key with
            | error e => rfl
            | ok found =>
              simp only [bind_ok]
              split
              · rfl
              · cases heap.casNext b.cur b.next (some node) false with
                | error e => rfl
                | ok r =>
                  simp only [bind_ok]
                  split
                  · rfl
                  · rw [ih, ih _ b]
                    cases linkDummy slot key node fuel { s with heap := r.2 } {} <;> rfl

theorem settleBucket_withSteps {node : Addr} (s : Solist T) (a : Accessor) :
    settleBucket slot key node s (a.withSteps k) =
      (settleBucket slot key node s a).map fun r => (r.1.withSteps k, r.2) := by
  unfold settleBucket
  simp only [Accessor.withSteps_next, Accessor.withSteps_cur]
  cases s.bucket slot with
  | error e => rfl
  | ok p =>
    simp only [bind_ok]
    split
    · cases s.heap.deref a.cur with
      | error e => rfl
      | ok n =>
        simp only [bind_ok]
        split
        · cases s.setBucket slot (some node) <;> rfl
        · cases s.setBucket slot a.next with
          | error e => rfl
          | ok s =>
            simp only [bind_ok]
            cases s.bucket slot with
            | error e => rfl
            | ok p =>
              simp only [bind_ok]
              cases s.keyIs p key with
              | error e => rfl
              | ok same => cases same <;> rfl
    · rfl

/-- **The list `initialise_bucket` leaves** does not depend on the accessor. -/
theorem initialiseBucket_accessor (s : Solist T) (a : Accessor) (slot : Hash) :
    (s.initialiseBucket a slot).map Prod.snd = (s.initialiseBucket {} slot).map Prod.snd := by
  unfold initialiseBucket
  split
  · rfl
  · cases s.bucket slot with
    | error e => rfl
    | ok p =>
      simp only [bind_ok]
      split
      · rfl
      · cases (solistBucket slot : Except Fault (Node T)) with
        | error e => rfl
        | ok b =>
          simp only [bind_ok]
          rw [linkDummy_accessor _ _ a]
          cases linkDummy slot b.key s.heap.size s.fuel { s with heap := s.heap.new b } {} with
          | error e => rfl
          | ok r =>
            simp only [Except.map, bind_ok, settleBucket_withSteps]
            cases settleBucket slot b.key s.heap.size r.2 r.1 with
            | error e => rfl
            | ok r =>
              simp only [bind_ok]
              cases r.2.bucket slot with
              | error e => rfl
              | ok p =>
                cases p with
                | none => rfl
                | some q =>
                  simp only [bind_ok, Option.isNone_some, Bool.false_eq_true, if_false]
                  cases r.2.keyIs (some q) b.key with
                  | error e => rfl
                  | ok same => cases same <;> rfl

/-- `find_node` sets all it reads. -/
theorem findNode_accessor (s : Solist T) (a b : Accessor) (hashv : Hash) : s.findNode a hashv = s.findNode b hashv := by
  have hagain : ∀ (s : Solist T) (a b : Accessor) (slot : Hash) (key : SoKey),
      s.findNodeTryAgain a slot key = s.findNodeTryAgain b slot key := fun _ _ _ _ _ => rfl
  have hinit := (initialiseBucket_accessor s a (hashv % s.nBuckets)).trans
    (initialiseBucket_accessor s b (hashv % s.nBuckets)).symm
  simp only [findNode]
  cases s.bucket (hashv % s.nBuckets) with
  | error e => rfl
  | ok p =>
    simp only [bind_ok]
    split
    · revert hinit
      cases s.initialiseBucket a (hashv % s.nBuckets) with
      | error e =>
        cases s.initialiseBucket b (hashv % s.nBuckets) with
        | error e' =>
          intro h
          cases h
          rfl
        | ok r' => exact fun h => by cases h
      | ok r =>
        cases s.initialiseBucket b (hashv % s.nBuckets) with
        | error e' => exact fun h => by cases h
        | ok r' =>
          intro h
          have hlist : r.2 = r'.2 := by simpa [Except.map] using h
          simp only [bind_ok, hlist, hagain r'.2 r.1 r'.1]
    · simp only [hagain s a b]

theorem insertLoop_accessor {dnode : Addr} (fuel : Nat) (s : Solist T) (a b : Accessor) :
    insertLoop hashv dnode fuel s a = insertLoop hashv dnode fuel s b := by
  cases fuel with
  | zero => rfl
  | succ fuel =>
    unfold insertLoop
    rw [findNode_accessor s a b]

theorem deleteLoop_accessor (fuel : Nat) (s : Solist T) (a b : Accessor) :
    deleteLoop hashv fuel s a = deleteLoop hashv fuel s b := by
  cases fuel with
  | zero => rfl
  | succ fuel =>
    unfold deleteLoop
    rw [findNode_accessor s a b]

end Solist

/-! ## Runs -/

/-- **A call is the same through every accessor**: it returns the same, and leaves the same list. -/
theorem call_accessor (list : Solist T) (acc acc' : Nat → Accessor) (i j : Nat) (op : Op T) :
    (({ list, accessor := acc } : Session T).call i op).map (fun r => (r.1, r.2.list)) =
      (({ list, accessor := acc' } : Session T).call j op).map fun r => (r.1, r.2.list) := by
  cases op with
  | insertNode h v =>
    have heq : list.insertNode (acc i) h v = list.insertNode (acc' j) h v := by
      unfold Solist.insertNode
      simp only [Solist.insertLoop_accessor _ _ (acc i) (acc' j)]
    simp only [Session.call, heq]
    cases list.insertNode (acc' j) h v <;> rfl
  | deleteNode h =>
    have heq : list.deleteNode (acc i) h = list.deleteNode (acc' j) h := by
      unfold Solist.deleteNode
      rw [Solist.deleteLoop_accessor _ _ (acc i) (acc' j)]
    simp only [Session.call, heq]
    cases list.deleteNode (acc' j) h <;> rfl
  | findItemNode h =>
    have heq : list.findItemNode (acc i) h = list.findItemNode (acc' j) h := by
      unfold Solist.findItemNode
      rw [Solist.findNode_accessor list (acc i) (acc' j)]
    simp only [Session.call, heq]
    cases list.findItemNode (acc' j) h <;> rfl
  | initialiseBucket slot =>
    have hinit := (Solist.initialiseBucket_accessor list (acc i) slot).trans
      (Solist.initialiseBucket_accessor list (acc' j) slot).symm
    simp only [Session.call]
    revert hinit
    cases list.initialiseBucket (acc i) slot with
    | error e =>
      cases list.initialiseBucket (acc' j) slot with
      | error e' =>
        intro h
        cases h
        rfl
      | ok r' => exact fun h => by cases h
    | ok r =>
      cases list.initialiseBucket (acc' j) slot with
      | error e' => exact fun h => by cases h
      | ok r' =>
        intro h
        have hlist : r.2 = r'.2 := by simpa [Except.map] using h
        simp only [bind_ok, hlist]
        rfl

/-- What can happen to accessors on one list. -/
inductive AccessorEvent (T : Type)
  | call (i : Nat) (op : Op T)
  /-- a constructor, from the list or from another accessor, in storage that holds `storage` -/
  | construct (i : Nat) (storage : Accessor)
  /-- `operator=` -/
  | assign (i : Nat)

def AccessorEvent.op : AccessorEvent T → Option (Op T)
  | .call _ op => some op
  | .construct _ _ | .assign _ => none

/-- Runs of calls, with accessors made, copied and assigned between them. -/
def accessorRuns (T : Type) (size bucketLength : Hash) : System (Session T × List (Record T)) (AccessorEvent T) where
  init := (sessions T size bucketLength).init
  next s
    | .call i op => (sessions T size bucketLength).next s (i, op)
    | .construct i storage => some (s.1.after i storage.construct s.1.list, s.2)
    | .assign i => some (s.1.after i (s.1.accessor i).assign s.1.list, s.2)

/-- What a run leaves apart from accessors. -/
def leaves (r : Session T × List (Record T)) : Solist T × List (Record T) := (r.1.list, r.2)

/-- A call of a run, through two accessors. -/
theorem next_accessor (size bucketLength : Hash) (list : Solist T) (acc acc' : Nat → Accessor)
    (hist : List (Record T)) (i j : Nat) (op : Op T) :
    ((sessions T size bucketLength).next ({ list, accessor := acc }, hist) (i, op)).map leaves =
      ((sessions T size bucketLength).next ({ list, accessor := acc' }, hist) (j, op)).map leaves := by
  have hcall := call_accessor list acc acc' i j op
  simp only [sessions]
  split
  · revert hcall
    cases ({ list, accessor := acc } : Session T).call i op with
    | error e =>
      cases ({ list, accessor := acc' } : Session T).call j op with
      | error e' => exact fun _ => rfl
      | ok r' => exact fun h => by cases h
    | ok r =>
      cases ({ list, accessor := acc' } : Session T).call j op with
      | error e' => exact fun h => by cases h
      | ok r' =>
        intro h
        have hr : r.1 = r'.1 ∧ r.2.list = r'.2.list := by simpa [Except.map] using h
        simp only [Option.map_some, leaves, hr.1, hr.2]
  · rfl

end SplitOrder
