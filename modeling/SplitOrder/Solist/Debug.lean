/-
`solist_dbg.hpp`: the dumps of a list, and `check_solist`.

Each function follows `next()` from `buckets[0]` and writes something for
every node it meets; it is a function of the list here, whose result is
what is written (the address of a local, printed in each heading, aside).
`walk` is the loop they share, and `walk_eq` all that is said of it: on a
chain that ends, it meets the nodes of the chain, once each and in order.
-/
import Mathlib.Data.List.Chain
import SplitOrder.Solist.Calls

namespace SplitOrder

open Heap

variable {T : Type}

/-! ## What is written -/

/-- A line of `dump_solist_buckets`: the dummy of a slot that is set, with
its key, its hash, and its hash modulo `n_buckets`. -/
structure BucketLine where
  bucket : Addr
  key : SoKey
  hashv : Hash
  slot : Hash
  deriving DecidableEq

/-- What `dump_solist` writes for a node. -/
inductive Token (T : Type)
  | dummy (key : SoKey)
  | item (key : SoKey) (payload : T)
  deriving DecidableEq

def Token.key : Token T → SoKey
  | .dummy key | .item key _ => key

/-- A `Fail::` of `check_solist`: a node, its key, the node after it, and the key before it. -/
structure Failure where
  cur : Addr
  key : SoKey
  next : Option Addr
  prev : SoKey
  deriving DecidableEq

/-- `reinterpret_cast<solist_node<T>*>(this)->payload`: a dummy ends before that field. -/
def Node.castPayload (n : Node T) : Except Fault T :=
  match n.payload with
  | some v => .ok v
  | none => .error .outOfBounds

namespace Solist

/-- `while(cur) { …; cur = cur->next(); }`, with what the body writes. -/
def walk {α : Type} (s : Solist T) (body : Node T → Except Fault (List α)) :
    Nat → Option Addr → Except Fault (List α)
  | 0, _ => .error .outOfFuel
  | _ + 1, none => .ok []
  | fuel + 1, some cur => do
    let n ← s.heap.deref (some cur)
    let out ← body n
    let rest ← s.walk body fuel n.next.ptr
    .ok (out ++ rest)

def dumpSolistBuckets (s : Solist T) : Except Fault (List (Hash × Option BucketLine)) :=
  (List.range s.nBuckets.toNat).mapM fun i => do
    let x := BitVec.ofNat 32 i
    match ← s.bucket x with
    | none => .ok (x, none)
    | some b =>
      let n ← s.heap.deref (some b)
      .ok (x, some { bucket := b, key := n.key, hashv := n.hashv, slot := n.hashv % s.nBuckets })

/-- The keys, the hashes, and the accessor, which is zapped first. -/
def dumpSolistKeys (s : Solist T) (a : Accessor) : Except Fault (List SoKey × List Hash × Accessor) := do
  let a := a.zap
  let keys ← s.walk (fun n => .ok [n.key]) s.fuel (← s.bucket 0)
  let hashes ← s.walk (fun n => .ok [n.hashv]) s.fuel (← s.bucket 0)
  .ok (keys, hashes, a)

def dumpSolistKeyOrder (s : Solist T) : Except Fault (List SoKey) := do
  s.walk (fun n => .ok [n.key]) s.fuel (← s.bucket 0)

def dumpSolist (s : Solist T) : Except Fault (List (Token T)) := do
  s.walk (fun n =>
    if n.key &&& DATABIT ≠ 0 then do
      let v ← n.castPayload
      .ok [.item n.key v]
    else .ok [.dummy n.key]) s.fuel (← s.bucket 0)

def dumpSolistItems (s : Solist T) : Except Fault (List T) := do
  s.walk (fun n =>
    if n.key &&& DATABIT ≠ 0 then do
      let v ← n.castPayload
      .ok [v]
    else .ok []) s.fuel (← s.bucket 0)

/-- The loop of `check_solist`, `key` the key of the node before `cur`. -/
def checkLoop (s : Solist T) : Nat → SoKey → Option Addr → Except Fault (List Failure)
  | 0, _, _ => .error .outOfFuel
  | _ + 1, _, none => .ok []
  | fuel + 1, key, some cur => do
    let n ← s.heap.deref (some cur)
    let rest ← s.checkLoop fuel n.key n.next.ptr
    if !(n.key > key) then .ok ({ cur, key := n.key, next := n.next.ptr, prev := key } :: rest)
    else .ok rest

def checkSolist (s : Solist T) : Except Fault (List Failure) := do
  let n ← s.heap.deref (← s.bucket 0)
  s.checkLoop s.fuel n.key n.next.ptr

variable {s : Solist T} {l p : List Addr}

/-! ## The walks -/

/-- **A walk** along a chain that ends writes what its body writes for each node, in order. -/
theorem walk_eq {α : Type} {body : Node T → Except Fault (List α)} {out : Addr → List α} :
    ∀ {l : List Addr} {fuel : Nat} {q : Option Addr}, Seg s.heap.nextOf q l none → l.length < fuel →
      (∀ x ∈ l, s.heap.Live x ∧ body (s.heap.node x) = .ok (out x)) → s.walk body fuel q = .ok (l.flatMap out) := by
  intro l
  induction l with
  | nil =>
    intro fuel q hseg hf _
    obtain ⟨fuel, rfl⟩ := Nat.exists_eq_succ_of_ne_zero (Nat.ne_of_gt hf)
    rw [Seg.nil.mp hseg]
    rfl
  | cons x l ih =>
    intro fuel q hseg hf hbody
    obtain ⟨fuel, rfl⟩ := Nat.exists_eq_succ_of_ne_zero (Nat.ne_of_gt (Nat.zero_lt_of_lt hf))
    obtain ⟨rfl, hseg⟩ := hseg
    obtain ⟨hlive, hx⟩ := hbody x (by simp)
    have hrest := ih hseg (by simpa using hf) fun y hy => hbody y (by simp [hy])
    unfold nextOf at hrest
    simp only [walk, deref_live hlive, bind_ok, hx, hrest, List.flatMap_cons]

/-- The walks of a list between two calls start at `buckets[0]` and meet its chain. -/
theorem Inv.walk_eq {α : Type} {body : Node T → Except Fault (List α)} {out : Addr → List α} (hi : s.Inv l p)
    (hbody : ∀ x ∈ l, body (s.heap.node x) = .ok (out x)) :
    (s.bucket 0).bind (s.walk body s.fuel) = .ok (l.flatMap out) := by
  obtain ⟨b, hb⟩ := hi.first
  have hseg := hi.chain.seg
  rw [hi.head hb] at hseg
  have hb0 : s.bucket 0 = .ok (some b) := bucket_ok hb
  rw [hb0]
  exact Solist.walk_eq hseg (Nat.lt_succ_of_le hi.chain.length_le) fun x hx => ⟨hi.chain.live hx, hbody x hx⟩

/-- The reserved bit tells a data node from a dummy. -/
theorem Inv.databit_iff (hi : s.Inv l p) {x : Addr} (hx : x ∈ l) :
    (s.heap.node x).key &&& DATABIT ≠ 0 ↔ s.heap.isData x = true := by
  rw [← hi.isNode_eq hx, Node.isNode, beq_iff_eq]
  constructor
  · intro h
    have hbit : ((s.heap.node x).key &&& DATABIT).toNat < 2 := by
      rw [BitVec.toNat_and]
      exact Nat.and_lt_two_pow _ (show (DATABIT : Hash).toNat < 2 ^ 1 by decide)
    have hne : ((s.heap.node x).key &&& DATABIT).toNat ≠ 0 := fun h0 => h (BitVec.eq_of_toNat_eq h0)
    refine BitVec.eq_of_toNat_eq ?_
    rw [show (DATABIT : Hash).toNat = 1 by decide]
    omega
  · intro h
    rw [← h]
    decide

/-! ## `check_solist` -/

/-- What `check_solist` says of the node `y` that follows `x`. -/
def failure (s : Solist T) (x y : Addr) : Option Failure :=
  if s.heap.key x < s.heap.key y then none
  else some { cur := y, key := s.heap.key y, next := s.heap.nextOf y, prev := s.heap.key x }

/-- What it says of a chain: each node is compared with the one before it. -/
def failures (s : Solist T) : List Addr → List Failure
  | x :: y :: l => (s.failure x y).toList ++ failures s (y :: l)
  | _ => []

theorem checkLoop_eq : ∀ {l : List Addr} {x : Addr} {fuel : Nat}, Seg s.heap.nextOf (s.heap.nextOf x) l none →
    l.length < fuel → (∀ y ∈ l, s.heap.Live y) →
    s.checkLoop fuel (s.heap.key x) (s.heap.nextOf x) = .ok (s.failures (x :: l)) := by
  intro l
  induction l with
  | nil =>
    intro x fuel hseg hf _
    obtain ⟨fuel, rfl⟩ := Nat.exists_eq_succ_of_ne_zero (Nat.ne_of_gt hf)
    rw [Seg.nil.mp hseg]
    rfl
  | cons y l ih =>
    intro x fuel hseg hf hlive
    obtain ⟨fuel, rfl⟩ := Nat.exists_eq_succ_of_ne_zero (Nat.ne_of_gt (Nat.zero_lt_of_lt hf))
    obtain ⟨hy, hseg⟩ := hseg
    have hrest := ih hseg (by simpa using hf) fun z hz => hlive z (by simp [hz])
    unfold nextOf Heap.key at hrest
    rw [hy]
    simp only [checkLoop, deref_live (hlive y (by simp)), bind_ok, hrest, failures, failure, Heap.key]
    by_cases hlt : (s.heap.node x).key < (s.heap.node y).key
    · simp [hlt]
    · simp [hlt, nextOf]

theorem mem_failures_iff {f : Failure} : ∀ {l : List Addr},
    f ∈ s.failures l ↔ ∃ A x y B, l = A ++ x :: y :: B ∧ s.failure x y = some f
  | [] => by simp [failures]
  | [z] => by
    simp only [failures, List.not_mem_nil, false_iff]
    intro h
    obtain ⟨A, x, y, B, hl, -⟩ := h
    have := congrArg List.length hl
    simp at this
    omega
  | z :: w :: l => by
    simp only [failures, List.mem_append, Option.mem_toList, mem_failures_iff (l := w :: l)]
    constructor
    · intro h
      rcases h with h | ⟨A, x, y, B, hl, hf⟩
      · exact ⟨[], z, w, l, rfl, h⟩
      · exact ⟨z :: A, x, y, B, by rw [hl]; rfl, hf⟩
    · intro h
      obtain ⟨A, x, y, B, hl, hf⟩ := h
      cases A with
      | nil =>
        simp only [List.nil_append, List.cons.injEq] at hl
        obtain ⟨rfl, rfl, rfl⟩ := hl
        exact .inl hf
      | cons a A =>
        simp only [List.cons_append, List.cons.injEq] at hl
        exact .inr ⟨A, x, y, B, hl.2, hf⟩

/-- Nothing is said exactly when the keys increase all the way. -/
theorem failures_eq_nil_iff : ∀ {l : List Addr},
    s.failures l = [] ↔ l.Pairwise fun x y => s.heap.key x < s.heap.key y := by
  intro l
  have : Trans (fun x y => s.heap.key x < s.heap.key y) (fun x y => s.heap.key x < s.heap.key y)
      (fun x y => s.heap.key x < s.heap.key y) := ⟨BitVec.lt_trans⟩
  rw [← List.isChain_iff_pairwise]
  induction l with
  | nil => simp [failures]
  | cons x l ih =>
    cases l with
    | nil => simp [failures]
    | cons y l =>
      rw [failures, List.isChain_cons_cons, List.append_eq_nil_iff]
      refine and_congr ?_ ih
      unfold failure
      by_cases hlt : s.heap.key x < s.heap.key y
      · simp [hlt]
      · simp [hlt]

/-- **`check_solist` reports exactly the nodes out of order**, on any chain
that ends, well formed or not, and so nothing if and only if the keys
increase all the way. -/
theorem checkSolist_exact (s : Solist T) (b : Addr) (l : List Addr) (hb : s.buckets[0]? = some (some b))
    (hseg : Seg s.heap.nextOf (some b) (b :: l) none) (hlive : ∀ x ∈ b :: l, s.heap.Live x) :
    ∃ fs, s.checkSolist = .ok fs ∧
      (fs = [] ↔ (b :: l).Pairwise fun x y => s.heap.key x < s.heap.key y) ∧
      ∀ f, f ∈ fs ↔ ∃ A x B, b :: l = A ++ x :: f.cur :: B ∧ ¬ s.heap.key x < s.heap.key f.cur ∧
        f.key = s.heap.key f.cur ∧ f.next = B.head? ∧ f.prev = s.heap.key x := by
  have hlen : l.length < s.fuel := by
    have hsub : b :: l ⊆ List.range s.heap.size := fun x hx => List.mem_range.mpr (hlive x hx).1
    have hle := (List.subperm_of_subset hseg.nodup hsub).length_le
    simp only [List.length_cons, List.length_range, fuel] at hle ⊢
    omega
  refine ⟨s.failures (b :: l), ?_, failures_eq_nil_iff, fun f => ?_⟩
  · have hb0 : s.bucket 0 = .ok (some b) := bucket_ok hb
    unfold checkSolist
    rw [hb0, bind_ok, deref_live (hlive b (by simp)), bind_ok]
    exact checkLoop_eq hseg.2 hlen fun y hy => hlive y (by simp [hy])
  · rw [mem_failures_iff]
    constructor
    · intro h
      obtain ⟨A, x, y, B, hl, hf⟩ := h
      unfold failure at hf
      split at hf
      · cases hf
      · cases hf
        rw [hl, List.append_cons] at hseg
        exact ⟨A, x, B, hl, ‹_›, rfl, hseg.next, rfl⟩
    · intro h
      obtain ⟨A, x, B, hl, hlt, hkey, hnext, hprev⟩ := h
      have hseg' := hseg
      rw [hl, List.append_cons] at hseg'
      refine ⟨A, x, f.cur, B, hl, ?_⟩
      unfold failure
      rw [if_neg hlt, ← hkey, ← hprev, hseg'.next, ← hnext]

/-- A list of two nodes, the second with the smaller key. -/
theorem checkSolist_exact_two : ∃ s : Solist Nat, ∃ fs, s.checkSolist = .ok fs ∧
    fs = [{ cur := 1, key := 4, next := none, prev := 6 }] ∧ ¬ [0, 1].Pairwise fun x y => s.heap.key x < s.heap.key y := by
  let h : Heap Nat :=
    { size := 2, deleted := [],
      node := fun a => if a = 0 then { hashv := 0, key := 6, next := { ptr := some 1 }, payload := none }
        else { hashv := 1, key := 4, payload := none } }
  let s : Solist Nat := { nBuckets := 2, maxBucketLength := 4, buckets := [some 0, none], heap := h }
  obtain ⟨fs, hfs, hnil, -⟩ := checkSolist_exact s 0 [1] rfl (by simp [s, h, nextOf])
    (by simp [s, h, Heap.Live])
  have hrun : s.checkSolist = .ok [{ cur := 1, key := 4, next := none, prev := 6 }] := rfl
  cases hrun.symm.trans hfs
  exact ⟨s, _, rfl, rfl, fun hp => absurd (hnil.mpr hp) (by simp)⟩

end Solist

end SplitOrder
