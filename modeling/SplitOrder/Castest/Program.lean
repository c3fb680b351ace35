/-
The whole of `castest.cpp`: `main`, and the threads with the two tests they
run, each between the calls of its `Rendezvous`.

A thread that finds `task_count()` zero may be ahead of the others: it reads
the list while they push, or before they begin. Its own nodes are in the list
by then, and what is pushed goes in front of what it reads.

One step is one operation on a `Rendezvous`, one read of a `mark_ptr_type`,
or one turn of a loop over the thread's own nodes. `num_threads` and
`num_nodes` are `n` and `N`, and a thread's node is the thread and its place
in `args.b`, which are the `tid` and the `v` of the node.
-/
import Mathlib.Algebra.Order.BigOperators.Group.Finset
import SplitOrder.Castest
import SplitOrder.Lib.Sums

namespace SplitOrder

namespace Castest

structure Rendezvous where
  numReady : Nat := 0
  inTaskCount : Int := 0
  numComplete : Nat := 0
  go : Bool := false

inductive Test
  | test0
  | test1
  deriving DecidableEq

abbrev B (n : Nat) := Fin n × Nat

/-- Where a thread is in `test_0`, and then in `test_1`. -/
inductive Point (n : Nat)
  | ready (i : Test)
  /-- `while(!rndvz.go)` -/
  | waitGo (i : Test)
  | startTask (i : Test)
  /-- the push loop -/
  | push
  | endTask (i : Test)
  /-- `while(0 != rndvz.task_count())` -/
  | waitTask
  /-- `head.next()` -/
  | scanHead
  /-- the scan, at `b` -/
  | scan (b : Option (B n)) (x : Nat) (v : Int)
  /-- `b->next()` -/
  | scanNext (b : B n) (x : Nat) (v : Int)
  /-- the check of the `found` flags -/
  | check (x : Nat)
  | complete (i : Test)
  | done
  /-- the assertion has failed -/
  | crashed
  deriving DecidableEq

/-- Where `main` is. -/
inductive MainPoint (n : Nat)
  | waitReady (i : Test)
  | go (i : Test)
  | waitComplete (i : Test)
  /-- `check_test_0`: `head.next()->tid`, `head.next()`, and the loop at `b` -/
  | checkHead
  | checkList (tid : Fin n)
  | checkWalk (b : Option (B n)) (tid : Fin n) (interleaves : Nat)
  | done
  /-- a null pointer has been read -/
  | crashed
  deriving DecidableEq

/-- What `test_0` prints. -/
inductive Line
  | order (bv v : Int)
  | aborting
  | notFound (x : Nat)
  deriving DecidableEq

structure Program (n : Nat) where
  list : State (Fin n) (B n) := {}
  /-- `b->found` -/
  found : B n → Bool := fun _ => false
  rndvz : Test → Rendezvous := fun _ => {}
  point : Fin n → Point n := fun _ => .ready .test0
  lines : Fin n → List Line := fun _ => []
  main : MainPoint n := .waitReady .test0
  /-- what `check_test_0` prints -/
  interleaves : Option Nat := none

variable {n N : Nat}

/-- The nodes of a thread in the order of its push loop, from the last to the first. -/
def nodes (n N : Nat) (t : Fin n) : List (B n) := (List.range N).reverse.map fun x => (t, x)

namespace Rendezvous

def ready (r : Rendezvous) : Rendezvous := { r with numReady := r.numReady + 1 }

def startTask (r : Rendezvous) : Rendezvous := { r with inTaskCount := r.inTaskCount + 1 }

def endTask (r : Rendezvous) : Rendezvous := { r with inTaskCount := r.inTaskCount - 1 }

def complete (r : Rendezvous) : Rendezvous := { r with numComplete := r.numComplete + 1 }

end Rendezvous

namespace Program

variable (N : Nat) (p : Program n) (t : Fin n)

def goto (q : Point n) : Program n := { p with point := Function.update p.point t q }

def print (l : Line) : Program n := { p with lines := Function.update p.lines t (p.lines t ++ [l]) }

/-- A call of the `Rendezvous` of a test. -/
def meet (i : Test) (f : Rendezvous → Rendezvous) : Program n :=
  { p with rndvz := Function.update p.rndvz i (f (p.rndvz i)) }

/-- The end of the body of the scan's loop. -/
def scanCount (b : B n) (x : Nat) (v : Int) : Program n :=
  (if x > n * N then p.print t .aborting else p).goto t (.scanNext b (x + 1) v)

/-- The body of the scan's loop. -/
def scan (b : B n) (x : Nat) (v : Int) : Program n :=
  if b.1 = t then
    let p := { p with found := Function.update p.found b true }
    if (b.2 : Int) ≤ v then (p.print t (.order b.2 v)).goto t .crashed else p.scanCount N t b x b.2
  else p.scanCount N t b x v

/-- The body of the loop over the `found` flags. -/
def checkFound (x : Nat) : Program n :=
  if p.found (t, x) then p
  else { p.print t (.notFound x) with found := Function.update p.found (t, x) false }

/-- The step of a thread. -/
def step : Option (Program n) :=
  match p.point t with
  | .ready i => some ((p.meet i .ready).goto t (.waitGo i))
  | .waitGo i => some (if (p.rndvz i).go then p.goto t (.startTask i) else p)
  | .startTask .test0 => some ((p.meet .test0 .startTask).goto t .push)
  | .startTask .test1 => some ((p.meet .test1 .startTask).goto t (.endTask .test1))
  | .push =>
    match Castest.step (nodes n N) p.list t with
    | some list => some { p with list }
    | none => some (p.goto t (.endTask .test0))
  | .endTask .test0 => some ((p.meet .test0 .endTask).goto t .waitTask)
  | .endTask .test1 => some ((p.meet .test1 .endTask).goto t (.complete .test1))
  | .waitTask => some (if (p.rndvz .test0).inTaskCount = 0 then p.goto t .scanHead else p)
  | .scanHead => some (p.goto t (.scan p.list.head.ptr 0 (-1)))
  | .scan none _ _ => some (p.goto t (.check 0))
  | .scan (some b) x v => some (p.scan N t b x v)
  | .scanNext b x v => some (p.goto t (.scan (p.list.nextOf b) x v))
  | .check x => some (if x < N then (p.checkFound t x).goto t (.check (x + 1)) else p.goto t (.complete .test0))
  | .complete .test0 => some ((p.meet .test0 .complete).goto t (.ready .test1))
  | .complete .test1 => some ((p.meet .test1 .complete).goto t .done)
  | .done | .crashed => none

/-- The step of `main`. -/
def mainStep : Option (Program n) :=
  match p.main with
  | .waitReady i => some (if (p.rndvz i).numReady < n then p else { p with main := .go i })
  | .go i => some { p.meet i fun r => { r with go := true } with main := .waitComplete i }
  | .waitComplete i =>
    some (if (p.rndvz i).numComplete < n then p
      else match i with
        | .test0 => { p with main := .checkHead }
        | .test1 => { p with main := .done })
  | .checkHead =>
    match p.list.head.ptr with
    | none => some { p with main := .crashed }
    | some b => some { p with main := .checkList b.1 }
  | .checkList tid => some { p with main := .checkWalk p.list.head.ptr tid 0 }
  | .checkWalk none _ k => some { p with main := .waitReady .test1, interleaves := some k }
  | .checkWalk (some b) tid k =>
    some { p with main := .checkWalk (p.list.nextOf b) b.1 (if b.1 ≠ tid then k + 1 else k) }
  | .done | .crashed => none

end Program

/-- `castest`: the steps of its threads, and of `main`. -/
def program (n N : Nat) : System (Program n) (Option (Fin n)) where
  init p := p = {}
  next p
    | some t => p.step N t
    | none => p.mainStep

/-! ## The order of the points -/

/-- How far a thread is. -/
def Point.phase : Point n → Nat
  | .ready .test0 => 0
  | .waitGo .test0 => 1
  | .startTask .test0 => 2
  | .push => 3
  | .endTask .test0 => 4
  | .waitTask => 5
  | .scanHead | .scan _ _ _ | .scanNext _ _ _ => 6
  | .check _ => 7
  | .complete .test0 => 8
  | .ready .test1 => 9
  | .waitGo .test1 => 10
  | .startTask .test1 => 11
  | .endTask .test1 => 12
  | .complete .test1 => 13
  | .done | .crashed => 14

def MainPoint.phase : MainPoint n → Nat
  | .waitReady .test0 => 0
  | .go .test0 => 1
  | .waitComplete .test0 => 2
  | .checkHead | .checkList _ | .checkWalk _ _ _ => 3
  | .waitReady .test1 => 4
  | .go .test1 => 5
  | .waitComplete .test1 => 6
  | .done | .crashed => 7

namespace Test

/-- The phase of `ready`. -/
def first : Test → Nat
  | test0 => 0
  | test1 => 9

/-- The phase of `end_task`. -/
def ends : Test → Nat
  | test0 => 4
  | test1 => 12

/-- The phase of `complete`. -/
def last : Test → Nat
  | test0 => 8
  | test1 => 13

/-- The phase in which `main` waits for `ready_count`. -/
def mainFirst : Test → Nat
  | test0 => 0
  | test1 => 4

end Test

/-! ## What holds at each point -/

/-- A scan has `S` before it: it has found its first `k` nodes, and visited `x` in all. -/
structure Scanning (N : Nat) (found : B n → Bool) (C : List (B n)) (t : Fin n) (S : List (B n)) (x k : Nat) : Prop where
  rest : S <:+ C
  own : S.filter (fun b => b.1 = t) = (List.range' k (N - k)).map fun y => (t, y)
  found : ∀ y, y < k → found (t, y) = true
  count : x + S.length ≤ C.length

def Point.Ok (N : Nat) (found : B n → Bool) (C : List (B n)) (t : Fin n) : Point n → Prop
  | .scan b x v => ∃ S k, S.head? = b ∧ Scanning N found C t S x k ∧ v = k - 1
  | .scanNext b x v => ∃ S k, b :: S <:+ C ∧ Scanning N found C t S x k ∧ v = k - 1
  | .check _ => ∀ y, y < N → found (t, y) = true
  | .crashed => False
  | _ => True

def MainPoint.Ok (C : List (B n)) : MainPoint n → Prop
  | .checkList tid => C.head?.map Prod.fst = some tid
  | .checkWalk b tid k => ∃ P S, P ++ S = C ∧ S.head? = b ∧
      (P = [] ∧ k = 0 ∧ C.head?.map Prod.fst = some tid ∨
        k < P.length ∧ tid ∈ P.map Prod.fst ∧ (P.map Prod.fst).toFinset.card ≤ k + 1)
  | .crashed => False
  | _ => True

/-- The chain is `C`, and the counters count the threads. -/
structure Passes (N : Nat) (p : Program n) (C : List (B n)) : Prop where
  list : Inv (nodes n N) p.list C
  full : ∀ t, 3 < (p.point t).phase → N ≤ (p.list.thread t).x
  point : ∀ t, (p.point t).Ok N p.found C t
  lines : ∀ t, p.lines t = []
  ready : ∀ i, (p.rndvz i).numReady = ∑ t, if i.first < (p.point t).phase then 1 else 0
  task : ∀ i, (p.rndvz i).inTaskCount =
    ∑ t, if i.first + 2 < (p.point t).phase ∧ (p.point t).phase ≤ i.ends then 1 else 0
  complete : ∀ i, (p.rndvz i).numComplete = ∑ t, if i.last < (p.point t).phase then 1 else 0
  started : ∀ i t, i.first + 1 < (p.point t).phase → (p.rndvz i).go = true
  go : ∀ i, (p.rndvz i).go = true → i.mainFirst + 1 < p.main.phase
  allReady : ∀ i : Test, i.mainFirst < p.main.phase → ∀ t, i.first < (p.point t).phase
  allComplete : ∀ i : Test, i.mainFirst + 2 < p.main.phase → ∀ t, i.last < (p.point t).phase
  main : p.main.Ok C
  printed : ∀ k, p.interleaves = some k → n ≤ k + 1 ∧ k < n * N ∧ 2 < p.main.phase

/-! ## The list -/

section List

variable {σ : State (Fin n) (B n)} {C S : List (B n)} {t : Fin n}

theorem mem_nodes {b : B n} : b ∈ nodes n N t ↔ b.1 = t ∧ b.2 < N := by
  obtain ⟨u, x⟩ := b
  simp only [nodes, List.mem_map, List.mem_reverse, List.mem_range, Prod.mk.injEq]
  constructor
  · rintro ⟨y, hy, rfl, rfl⟩
    exact ⟨rfl, hy⟩
  · rintro ⟨rfl, hx⟩
    exact ⟨x, hx, rfl, rfl⟩

theorem nodes_length : (nodes n N t).length = N := by simp [nodes]

theorem ownNodes : OwnNodes (nodes n N) where
  nodup t := by
    refine List.Nodup.map (fun x y h => ?_) (List.nodup_reverse.mpr List.nodup_range)
    exact (Prod.mk.inj h).2
  disjoint t u htu b hb hu := htu ((mem_nodes.mp hb).1.symm.trans (mem_nodes.mp hu).1)

theorem Inv.lt (h : Inv (nodes n N) σ C) {b : B n} (hb : b ∈ C) : b.2 < N := by
  obtain ⟨u, hu⟩ := h.mem b hb
  exact (mem_nodes.mp ((List.take_sublist _ _).subset hu)).2

theorem Inv.length_le (h : Inv (nodes n N) σ C) : C.length ≤ n * N := by
  have hsub : C.toFinset ⊆ Finset.univ ×ˢ Finset.range N := by
    intro b hb
    exact Finset.mem_product.mpr ⟨Finset.mem_univ _, Finset.mem_range.mpr (h.lt (List.mem_toFinset.mp hb))⟩
  have hcard := Finset.card_le_card hsub
  rwa [List.toFinset_card_of_nodup h.nodup, Finset.card_product, Finset.card_univ, Fintype.card_fin,
    Finset.card_range] at hcard

/-- The nodes of a thread whose push loop has ended, from the first to the last. -/
theorem Inv.own_full (h : Inv (nodes n N) σ C) (hx : N ≤ (σ.thread t).x) :
    C.filter (fun b => b.1 = t) = (List.range N).map fun y => (t, y) := by
  have htake : (nodes n N t).take (σ.thread t).x = nodes n N t := List.take_of_length_le (by rw [nodes_length]; exact hx)
  refine (List.filter_congr fun b hb => ?_).trans ((h.own t).trans ?_)
  · simp [mem_nodes, h.lt hb]
  · rw [State.pushed, htake, nodes, ← List.map_reverse, List.reverse_reverse]

/-- A pointer that the scan reads leads on to the rest of the chain. -/
theorem Inv.next (h : Inv (nodes n N) σ C) {b : B n} (hS : b :: S <:+ C) : σ.nextOf b = S.head? := by
  obtain ⟨P, rfl⟩ := hS
  exact h.seg.next

/-- The push loop of a thread ends when it has pushed its nodes. -/
theorem step_none (h : step (nodes n N) σ t = none) : N ≤ (σ.thread t).x := by
  by_contra hlt
  obtain ⟨b, hb⟩ : ∃ b, (nodes n N t)[(σ.thread t).x]? = some b :=
    ⟨_, List.getElem?_eq_getElem (by rw [nodes_length]; omega)⟩
  unfold step at h
  simp only [hb] at h
  split at h <;> cases h

theorem step_thread_of_ne {σ' : State (Fin n) (B n)} (h : step (nodes n N) σ t = some σ') {u : Fin n} (hu : u ≠ t) :
    σ'.thread u = σ.thread u := by
  obtain ⟨b, -, ⟨pc, -, rfl⟩ | ⟨m, rfl⟩ | ⟨-, -, rfl⟩⟩ := step_cases h <;> exact set_thread_of_ne hu

end List

/-! ## The scan -/

section Scan

variable {found found' : B n → Bool} {C C' S : List (B n)} {b : B n} {t : Fin n} {x k : Nat}

theorem Scanning.mono (h : Scanning N found C t S x k) (hC : C <:+ C') (hf : ∀ y, found (t, y) = true → found' (t, y) = true) :
    Scanning N found' C' t S x k where
  rest := h.rest.trans hC
  own := h.own
  found y hy := hf y (h.found y hy)
  count := h.count.trans hC.length_le

theorem Point.Ok.mono {q : Point n} (h : q.Ok N found C t) (hC : C <:+ C')
    (hf : ∀ y, found (t, y) = true → found' (t, y) = true) : q.Ok N found' C' t := by
  cases q with
  | scan b x v =>
    obtain ⟨S, k, hS, hs, hv⟩ := h
    exact ⟨S, k, hS, hs.mono hC hf, hv⟩
  | scanNext b x v =>
    obtain ⟨S, k, hS, hs, hv⟩ := h
    exact ⟨S, k, hS.trans hC, hs.mono hC hf, hv⟩
  | check x => exact fun y hy => hf y (h y hy)
  | crashed => exact h
  | _ => trivial

/-- The scan begins at the head. -/
theorem Scanning.start (hown : C.filter (fun b => b.1 = t) = (List.range N).map fun y => (t, y)) :
    Scanning N found C t C 0 0 where
  rest := List.suffix_refl C
  own := by rw [hown, List.range_eq_range', Nat.sub_zero]
  found y hy := by omega
  count := by omega

/-- At the end the scan has found every node of its thread. -/
theorem Scanning.end_found (h : Scanning N found C t [] x k) : ∀ y, y < N → found (t, y) = true := by
  have hlen := congrArg List.length h.own
  simp only [List.filter_nil, List.length_nil, List.length_map, List.length_range'] at hlen
  exact fun y hy => h.found y (by omega)

/-- The next node is another thread's. -/
theorem Scanning.pass (h : Scanning N found C t (b :: S) x k) (hb : b.1 ≠ t) : Scanning N found C t S (x + 1) k where
  rest := (List.suffix_cons b S).trans h.rest
  own := by
    have hown := h.own
    rwa [List.filter_cons_of_neg (by simpa using hb)] at hown
  found := h.found
  count := by
    have hcount := h.count
    simp only [List.length_cons] at hcount
    omega

/-- The next node is the thread's own: it is the one after those found. -/
theorem Scanning.own_eq (h : Scanning N found C t (b :: S) x k) (hb : b.1 = t) :
    b = (t, k) ∧ Scanning N (Function.update found b true) C t S (x + 1) (k + 1) := by
  have hown := h.own
  rw [List.filter_cons_of_pos (by simpa using hb)] at hown
  obtain ⟨m, hm⟩ : ∃ m, N - k = m + 1 := by
    cases hm : N - k with
    | zero =>
      rw [hm] at hown
      cases hown
    | succ m => exact ⟨m, rfl⟩
  rw [hm, List.range'_succ, List.map_cons] at hown
  obtain ⟨rfl, hrest⟩ := List.cons.inj hown
  refine ⟨rfl, (List.suffix_cons _ S).trans h.rest, ?_, fun y hy => ?_, ?_⟩
  · have hm' : N - (k + 1) = m := by omega
    rw [hrest, hm']
  · by_cases hyk : y = k
    · rw [hyk, Function.update_self]
    · have hne : ((t, y) : B n) ≠ (t, k) := fun he => hyk (Prod.mk.inj he).2
      rw [Function.update_of_ne hne]
      exact h.found y (by omega)
  · have hcount := h.count
    simp only [List.length_cons] at hcount
    omega

end Scan

/-! ## The steps of the threads -/

/-- What a step of a thread from phase `a` to phase `b` does to the `Rendezvous` of a test. -/
structure Met (i : Test) (r r' : Rendezvous) (a b : Nat) : Prop where
  ready : r'.numReady + (if i.first < a then 1 else 0) = r.numReady + if i.first < b then 1 else 0
  task : r'.inTaskCount + (if i.first + 2 < a ∧ a ≤ i.ends then 1 else 0) =
    r.inTaskCount + if i.first + 2 < b ∧ b ≤ i.ends then 1 else 0
  complete : r'.numComplete + (if i.last < a then 1 else 0) = r.numComplete + if i.last < b then 1 else 0
  go : r'.go = r.go
  started : i.first + 1 < b → i.first + 1 < a ∨ r.go = true

section Steps

variable {p p' : Program n} {C C' : List (B n)} {t : Fin n} {q : Point n}

@[simp] theorem goto_point_self : (p.goto t q).point t = q := Function.update_self ..

theorem goto_point_of_ne {u : Fin n} (hu : u ≠ t) : (p.goto t q).point u = p.point u := Function.update_of_ne hu ..

/-- A sum over the threads when one goes on. -/
theorem sum_goto {M : Type} [AddCommMonoid M] (w : Nat → M) :
    ∑ u, w ((p.goto t q).point u).phase + w (p.point t).phase = ∑ u, w (p.point u).phase + w q.phase := by
  have hsum := sum_change (f := fun u => w (p.point u).phase) (g := fun u => w ((p.goto t q).point u).phase) t
    fun u hu => congrArg (fun q => w q.phase) (goto_point_of_ne hu)
  simpa only [goto_point_self] using hsum

/-- One thread goes on, to a point that is in order. -/
theorem Passes.turn (h : Passes N p C) {list : State (Fin n) (B n)} {found : B n → Bool} {rndvz : Test → Rendezvous}
    (hlist : Inv (nodes n N) list C') (hC : C <:+ C') (hsame : C' = C ∨ (p.point t).phase ≤ 3)
    (hother : ∀ u, u ≠ t → list.thread u = p.list.thread u) (hfull : 3 < q.phase → N ≤ (list.thread t).x)
    (hfound : ∀ b, p.found b = true → found b = true) (hmono : (p.point t).phase ≤ q.phase)
    (hq : q.Ok N found C' t) (hm : ∀ i, Met i (p.rndvz i) (rndvz i) (p.point t).phase q.phase) :
    Passes N ({ p with list, found, rndvz }.goto t q) C' := by
  have hat : ∀ u, u = t ∧ ({ p with list, found, rndvz }.goto t q).point u = q ∨
      u ≠ t ∧ ({ p with list, found, rndvz }.goto t q).point u = p.point u := by
    intro u
    by_cases hu : u = t
    · subst hu
      exact .inl ⟨rfl, goto_point_self⟩
    · exact .inr ⟨hu, goto_point_of_ne hu⟩
  have hphase : ∀ u, (p.point u).phase ≤ (({ p with list, found, rndvz }.goto t q).point u).phase := by
    intro u
    obtain ⟨rfl, hu⟩ | ⟨-, hu⟩ := hat u
    · rw [hu]
      exact hmono
    · rw [hu]
  have hcount := fun {M : Type} [AddCommMonoid M] (w : Nat → M) =>
    sum_goto (p := { p with list, found, rndvz }) (t := t) (q := q) w
  refine ⟨hlist, fun u hu => ?_, fun u => ?_, h.lines, fun i => ?_, fun i => ?_, fun i => ?_, fun i u hu => ?_,
    fun i hi => ?_, fun i hi u => ?_, fun i hi u => ?_, ?_, h.printed⟩
  · obtain ⟨rfl, hpt⟩ | ⟨hne, hpt⟩ := hat u
    · rw [hpt] at hu
      exact hfull hu
    · rw [hpt] at hu
      change N ≤ (list.thread u).x
      rw [hother u hne]
      exact h.full u hu
  · obtain ⟨rfl, hpt⟩ | ⟨-, hpt⟩ := hat u
    · rw [hpt]
      exact hq
    · rw [hpt]
      exact (h.point u).mono hC fun y => hfound _
  · have hsum := hcount fun m => if i.first < m then 1 else 0
    have hmet := (hm i).ready
    have hold := h.ready i
    change (rndvz i).numReady = _
    simp only at hsum
    omega
  · have hsum := hcount fun m => if i.first + 2 < m ∧ m ≤ i.ends then (1 : Int) else 0
    have hmet := (hm i).task
    have hold := h.task i
    change (rndvz i).inTaskCount = _
    simp only at hsum
    omega
  · have hsum := hcount fun m => if i.last < m then 1 else 0
    have hmet := (hm i).complete
    have hold := h.complete i
    change (rndvz i).numComplete = _
    simp only at hsum
    omega
  · change (rndvz i).go = true
    rw [(hm i).go]
    obtain ⟨rfl, hpt⟩ | ⟨-, hpt⟩ := hat u
    · rw [hpt] at hu
      exact ((hm i).started hu).elim (h.started i u) id
    · rw [hpt] at hu
      exact h.started i u hu
  · change (rndvz i).go = true at hi
    rw [(hm i).go] at hi
    exact h.go i hi
  · exact Nat.lt_of_lt_of_le (h.allReady i hi u) (hphase u)
  · exact Nat.lt_of_lt_of_le (h.allComplete i hi u) (hphase u)
  · obtain rfl | hle := hsame
    · exact h.main
    · -- `main` is not at `check_test_0` while a thread still pushes
      have hmain : p.main.phase ≤ 2 := by
        by_contra hlt
        have hlast : 8 < (p.point t).phase := h.allComplete .test0 (by simpa [Test.mainFirst] using hlt) t
        omega
      change p.main.Ok C'
      cases hp : p.main with
      | checkHead | checkList tid | checkWalk b tid k | done | crashed =>
        rw [hp] at hmain
        simp [MainPoint.phase] at hmain
      | _ => trivial

/-- Phases that no counter tells apart. -/
def Still (a b : Nat) : Prop :=
  ∀ i : Test, (i.first < a ↔ i.first < b) ∧ (i.first + 2 < a ∧ a ≤ i.ends ↔ i.first + 2 < b ∧ b ≤ i.ends) ∧
    (i.last < a ↔ i.last < b) ∧ (i.first + 1 < b → i.first + 1 < a)

theorem Still.refl (a : Nat) : Still a a := fun _ => ⟨.rfl, .rfl, .rfl, id⟩

theorem Still.met {a b : Nat} (h : Still a b) (i : Test) (r : Rendezvous) : Met i r r a b where
  ready := by simp only [(h i).1]
  task := by simp only [(h i).2.1]
  complete := by simp only [(h i).2.2.1]
  go := rfl
  started hb := .inl ((h i).2.2.2 hb)

variable {pt : Point n} {a b : Nat}

/-- A step that calls nothing of a `Rendezvous`. -/
theorem Passes.move (h : Passes N p C) {found : B n → Bool} (hpt : p.point t = pt) (ha : pt.phase = a)
    (hb : q.phase = b) (hle : a ≤ b) (hm : ∀ i, Met i (p.rndvz i) (p.rndvz i) a b)
    (hfull : 3 < b → N ≤ (p.list.thread t).x) (hfound : ∀ c, p.found c = true → found c = true)
    (hq : q.Ok N found C t) : Passes N ({ p with found }.goto t q) C := by
  subst hpt ha hb
  exact h.turn h.list (List.suffix_refl C) (.inl rfl) (fun _ _ => rfl) hfull hfound hle hq hm

/-- A call of the `Rendezvous` of a test. -/
theorem Passes.meet (h : Passes N p C) {i : Test} {f : Rendezvous → Rendezvous} (hpt : p.point t = pt)
    (ha : pt.phase = a) (hb : q.phase = b) (hle : a ≤ b) (hfull : 3 < b → 3 < a) (hq : q.Ok N p.found C t)
    (hm : ∀ j, Met j (p.rndvz j) ((p.meet i f).rndvz j) a b) : Passes N ((p.meet i f).goto t q) C := by
  subst hpt ha hb
  exact h.turn h.list (List.suffix_refl C) (.inl rfl) (fun _ _ => rfl) (fun hlt => h.full t (hfull hlt))
    (fun _ hb => hb) hle hq hm

/-- The body of the scan's loop finds the next node in order. -/
theorem Passes.scan (h : Passes N p C) {c : B n} {x : Nat} {v : Int} (hpt : p.point t = .scan (some c) x v) :
    Passes N (p.scan N t c x v) C := by
  have hok := h.point t
  have hfull := h.full t
  rw [hpt] at hok hfull
  replace hfull : N ≤ (p.list.thread t).x := hfull (by simp [Point.phase])
  obtain ⟨S, k, hS, hs, hv⟩ := hok
  obtain ⟨S, rfl⟩ : ∃ S', S = c :: S' := by
    cases S with
    | nil => cases hS
    | cons d S =>
      cases hS
      exact ⟨S, rfl⟩
  have hx : ¬ x > n * N := by
    have hcount := hs.count
    have hlen := h.list.length_le
    simp only [List.length_cons] at hcount
    omega
  unfold Program.scan Program.scanCount
  simp only [hx, if_false]
  split
  · rename_i hc
    obtain ⟨rfl, hs'⟩ := hs.own_eq hc
    have hlt : ¬ (k : Int) ≤ v := by omega
    simp only [hlt, if_false]
    refine h.move hpt rfl rfl (Nat.le_refl 6) (fun i => (Still.refl 6).met i _) (fun _ => hfull) (fun d hd => ?_)
      ⟨S, k + 1, hs.rest, hs', by omega⟩
    by_cases hdk : d = (t, k)
    · rw [hdk, Function.update_self]
    · rwa [Function.update_of_ne hdk]
  · rename_i hc
    exact h.move hpt rfl rfl (Nat.le_refl 6) (fun i => (Still.refl 6).met i _) (fun _ => hfull) (fun _ hd => hd)
      ⟨S, k, hs.rest, hs.pass hc, hv⟩

/-- A turn of a push loop. -/
theorem Passes.push (h : Passes N p C) (hpt : p.point t = .push) {list : State (Fin n) (B n)}
    (hs : Castest.step (nodes n N) p.list t = some list) : ∃ C', Passes N { p with list } C' := by
  obtain ⟨C', hC', hlist⟩ := h.list.step_suffix ownNodes hs
  have hphase : (p.point t).phase = (Point.push : Point n).phase := by rw [hpt]
  have hturn := h.turn (q := .push) hlist hC' (.inr (Nat.le_of_eq hphase)) (fun u hu => step_thread_of_ne hs hu)
    (fun hlt => absurd hlt (Nat.lt_irrefl 3)) (fun _ hb => hb) (Nat.le_of_eq hphase) trivial fun i => by
      rw [hphase]
      exact (Still.refl 3).met i (p.rndvz i)
  have hgoto : { p with list }.goto t .push = { p with list } := by
    rw [Program.goto, ← hpt]
    exact congrArg (fun point => { p with list, point }) (Function.update_eq_self t p.point)
  exact ⟨C', hgoto ▸ hturn⟩

/-- **A step of a thread** keeps the program in order. -/
theorem Passes.step (h : Passes N p C) (hs : p.step N t = some p') : ∃ C', Passes N p' C' := by
  have hok := h.point t
  have hfull := h.full t
  unfold Program.step at hs
  generalize hpt : p.point t = pt at hok hfull hs
  cases pt with
  | ready i =>
    cases hs
    refine ⟨C, ?_⟩
    cases i with
    | test0 =>
      refine h.meet (a := 0) (b := 1) hpt rfl rfl (by decide) (by decide) trivial fun j => ?_
      cases j <;> constructor <;> simp [Program.meet, Rendezvous.ready, Test.first, Test.ends, Test.last]
    | test1 =>
      refine h.meet (a := 9) (b := 10) hpt rfl rfl (by decide) (by decide) trivial fun j => ?_
      cases j <;> constructor <;> simp [Program.meet, Rendezvous.ready, Test.first, Test.ends, Test.last]
  | waitGo i =>
    cases hs
    refine ⟨C, ?_⟩
    split
    · rename_i hgo
      cases i with
      | test0 =>
        refine h.move (a := 1) (b := 2) hpt rfl rfl (by decide) (fun j => ?_) (by omega) (fun _ hb => hb) trivial
        cases j <;> constructor <;> simp [hgo, Test.first, Test.ends, Test.last]
      | test1 =>
        refine h.move (a := 10) (b := 11) hpt rfl rfl (by decide) (fun j => ?_) (fun _ => hfull (by simp [Point.phase]))
          (fun _ hb => hb) trivial
        cases j <;> constructor <;> simp [hgo, Test.first, Test.ends, Test.last]
    · exact h
  | startTask i =>
    cases i with
    | test0 =>
      cases hs
      refine ⟨C, h.meet (a := 2) (b := 3) hpt rfl rfl (by decide) (by decide) trivial fun j => ?_⟩
      cases j <;> constructor <;> simp [Program.meet, Rendezvous.startTask, Test.first, Test.ends, Test.last]
    | test1 =>
      cases hs
      refine ⟨C, h.meet (a := 11) (b := 12) hpt rfl rfl (by decide) (by decide) trivial fun j => ?_⟩
      cases j <;> constructor <;> simp [Program.meet, Rendezvous.startTask, Test.first, Test.ends, Test.last]
  | push =>
    cases hstep : Castest.step (nodes n N) p.list t with
    | some list =>
      rw [hstep] at hs
      cases hs
      exact h.push hpt hstep
    | none =>
      rw [hstep] at hs
      cases hs
      have hstill : Still 3 4 := by
        intro i
        cases i <;> decide
      exact ⟨C, h.move (a := 3) (b := 4) hpt rfl rfl (by decide) (fun i => hstill.met i _) (fun _ => step_none hstep) (fun _ hb => hb)
        trivial⟩
  | endTask i =>
    cases i with
    | test0 =>
      cases hs
      refine ⟨C, h.meet (a := 4) (b := 5) hpt rfl rfl (by decide) (by decide) trivial fun j => ?_⟩
      cases j <;> constructor <;> simp [Program.meet, Rendezvous.endTask, Test.first, Test.ends, Test.last]
    | test1 =>
      cases hs
      refine ⟨C, h.meet (a := 12) (b := 13) hpt rfl rfl (by decide) (by decide) trivial fun j => ?_⟩
      cases j <;> constructor <;> simp [Program.meet, Rendezvous.endTask, Test.first, Test.ends, Test.last]
  | waitTask =>
    cases hs
    refine ⟨C, ?_⟩
    have hstill : Still 5 6 := by
      intro i
      cases i <;> decide
    split
    · exact h.move (a := 5) (b := 6) hpt rfl rfl (by decide) (fun i => hstill.met i _)
        (fun _ => hfull (by simp [Point.phase])) (fun _ hb => hb) trivial
    · exact h
  | scanHead =>
    cases hs
    have hown := h.list.own_full (hfull (by simp [Point.phase]))
    exact ⟨C, h.move hpt rfl rfl (Nat.le_refl 6) (fun i => (Still.refl 6).met i _) (fun _ => hfull (by simp [Point.phase]))
      (fun _ hb => hb) ⟨C, 0, h.list.seg.head.symm, .start hown, rfl⟩⟩
  | scan c x v =>
    cases c with
    | none =>
      cases hs
      obtain ⟨S, k, hS, hs, -⟩ := hok
      obtain rfl := List.head?_eq_none_iff.mp hS
      have hstill : Still 6 7 := by
        intro i
        cases i <;> decide
      exact ⟨C, h.move (a := 6) (b := 7) hpt rfl rfl (by decide) (fun i => hstill.met i _)
        (fun _ => hfull (by simp [Point.phase])) (fun _ hb => hb) hs.end_found⟩
    | some c =>
      cases hs
      exact ⟨C, h.scan hpt⟩
  | scanNext c x v =>
    cases hs
    obtain ⟨S, k, hS, hs, hv⟩ := hok
    exact ⟨C, h.move hpt rfl rfl (Nat.le_refl 6) (fun i => (Still.refl 6).met i _)
      (fun _ => hfull (by simp [Point.phase])) (fun _ hb => hb) ⟨S, k, (h.list.next hS).symm, hs, hv⟩⟩
  | check x =>
    cases hs
    refine ⟨C, ?_⟩
    split
    · rename_i hx
      have hfound : p.found (t, x) = true := hok x hx
      rw [Program.checkFound, if_pos hfound]
      exact h.move hpt rfl rfl (Nat.le_refl 7) (fun i => (Still.refl 7).met i _)
        (fun _ => hfull (by simp [Point.phase])) (fun _ hb => hb) hok
    · have hstill : Still 7 8 := by
        intro i
        cases i <;> decide
      exact h.move (a := 7) (b := 8) hpt rfl rfl (by decide) (fun i => hstill.met i _)
        (fun _ => hfull (by simp [Point.phase])) (fun _ hb => hb) trivial
  | complete i =>
    cases i with
    | test0 =>
      cases hs
      refine ⟨C, h.meet (a := 8) (b := 9) hpt rfl rfl (by decide) (by decide) trivial fun j => ?_⟩
      cases j <;> constructor <;> simp [Program.meet, Rendezvous.complete, Test.first, Test.ends, Test.last]
    | test1 =>
      cases hs
      refine ⟨C, h.meet (a := 13) (b := 14) hpt rfl rfl (by decide) (by decide) trivial fun j => ?_⟩
      cases j <;> constructor <;> simp [Program.meet, Rendezvous.complete, Test.first, Test.ends, Test.last]
  | done => cases hs
  | crashed => cases hs

end Steps

/-! ## The steps of `main` -/

/-- A count of all the threads. -/
theorem all_of_count {P : Fin n → Prop} [DecidablePred P] (h : n ≤ ∑ t, if P t then 1 else 0) : ∀ t, P t := by
  rw [← Finset.card_filter] at h
  have hcard : (Finset.univ : Finset (Fin n)).card ≤ (Finset.univ.filter P).card := by simpa using h
  have hall := Finset.eq_of_subset_of_card_le (Finset.filter_subset P Finset.univ) hcard
  exact fun t => (Finset.mem_filter.mp (hall ▸ Finset.mem_univ t)).2

section Main

variable {p p' : Program n} {C : List (B n)} {m m' : MainPoint n}

/-- While `main` is at `check_test_0` or past it, the nodes of every thread are in the list. -/
theorem Passes.complete_own (h : Passes N p C) (hmain : 2 < p.main.phase) (t : Fin n) :
    C.filter (fun b => b.1 = t) = (List.range N).map fun y => (t, y) := by
  have hlast : 8 < (p.point t).phase := h.allComplete .test0 hmain t
  exact h.list.own_full (h.full t (by omega))

theorem Passes.mem_fst (h : Passes N p C) (hN : 0 < N) (hmain : 2 < p.main.phase) (t : Fin n) : t ∈ C.map Prod.fst := by
  have hown := h.complete_own hmain t
  have hmem : (t, 0) ∈ C.filter fun b => b.1 = t := by
    rw [hown]
    exact List.mem_map_of_mem (List.mem_range.mpr hN)
  exact List.mem_map_of_mem (List.mem_filter.mp hmem).1

/-- `main` goes on, and sets `go` or leaves the `Rendezvous` alone. -/
theorem Passes.mainTurn (h : Passes N p C) {rndvz : Test → Rendezvous} {a b : Nat} (hm : p.main = m) (ha : m.phase = a)
    (hb : m'.phase = b) (hle : a ≤ b)
    (hr : ∀ i, rndvz i = p.rndvz i ∨ rndvz i = { p.rndvz i with go := true } ∧ i.mainFirst + 1 < b)
    (hready : ∀ i : Test, i.mainFirst < b → i.mainFirst < a ∨ ∀ t, i.first < (p.point t).phase)
    (hcomplete : ∀ i : Test, i.mainFirst + 2 < b → i.mainFirst + 2 < a ∨ ∀ t, i.last < (p.point t).phase)
    (hok : m'.Ok C) : Passes N { p with rndvz, main := m' } C := by
  subst hm ha hb
  refine ⟨h.list, h.full, h.point, h.lines, fun i => ?_, fun i => ?_, fun i => ?_, fun i t ht => ?_, fun i hi => ?_,
    fun i hi => (hready i hi).elim (h.allReady i) id, fun i hi => (hcomplete i hi).elim (h.allComplete i) id, hok,
    fun k hk => ?_⟩
  · obtain hi | ⟨hi, -⟩ := hr i <;> simp only [hi] <;> exact h.ready i
  · obtain hi | ⟨hi, -⟩ := hr i <;> simp only [hi] <;> exact h.task i
  · obtain hi | ⟨hi, -⟩ := hr i <;> simp only [hi] <;> exact h.complete i
  · obtain hi' | ⟨hi', -⟩ := hr i <;> simp only [hi']
    exact h.started i t ht
  · obtain hi' | ⟨-, hlt⟩ := hr i
    · have hgo : (p.rndvz i).go = true := by
        rw [← hi']
        exact hi
      exact Nat.lt_of_lt_of_le (h.go i hgo) hle
    · exact hlt
  · obtain ⟨hn, hlt, hmain⟩ := h.printed k hk
    exact ⟨hn, hlt, Nat.lt_of_lt_of_le hmain hle⟩

/-- A step of `check_test_0`. -/
theorem Passes.mainCheck (h : Passes N p C) (hm : p.main = m) (ha : m.phase = 3) (hb : m'.phase = 3) (hok : m'.Ok C) :
    Passes N { p with main := m' } C :=
  h.mainTurn hm ha hb (Nat.le_refl 3) (fun _ => .inl rfl) (fun _ => .inl) (fun _ => .inl) hok

/-- What `check_test_0` prints. -/
theorem Passes.mainPrint (h : Passes N p C) {k : Nat} (hk : n ≤ k + 1 ∧ k < n * N) (hmain : 2 < p.main.phase) :
    Passes N { p with interleaves := some k } C where
  list := h.list
  full := h.full
  point := h.point
  lines := h.lines
  ready := h.ready
  task := h.task
  complete := h.complete
  started := h.started
  go := h.go
  allReady := h.allReady
  allComplete := h.allComplete
  main := h.main
  printed k' hk' := by
    cases hk'
    exact ⟨hk.1, hk.2, hmain⟩

/-- A turn of the loop of `check_test_0`. -/
theorem Passes.mainWalk (h : Passes N p C) {b : B n} {tid : Fin n} {k : Nat} (hm : p.main = .checkWalk (some b) tid k) :
    Passes N { p with main := .checkWalk (p.list.nextOf b) b.1 (if b.1 ≠ tid then k + 1 else k) } C := by
  have hok := h.main
  rw [hm] at hok
  obtain ⟨P, S, rfl, hS, hk⟩ := hok
  obtain ⟨S, rfl⟩ : ∃ S', S = b :: S' := by
    cases S with
    | nil => cases hS
    | cons c S =>
      cases hS
      exact ⟨S, rfl⟩
  have hnext : p.list.nextOf b = S.head? := h.list.next (List.suffix_append P (b :: S))
  refine h.mainCheck hm rfl rfl ⟨P ++ [b], S, by simp, hnext.symm, .inr ?_⟩
  have hlast : b.1 ∈ (P ++ [b]).map Prod.fst := List.mem_map_of_mem (by simp)
  obtain ⟨rfl, rfl, hhead⟩ | ⟨hlt, htid, hcard⟩ := hk
  · obtain rfl : b.1 = tid := Option.some.inj hhead
    simp
  · refine ⟨?_, hlast, ?_⟩
    · rw [List.length_append]
      split <;> simp only [List.length_singleton] <;> omega
    · rw [List.map_append, List.toFinset_append]
      split
      · have hunion := Finset.card_union_le (P.map Prod.fst).toFinset ([b].map Prod.fst).toFinset
        have hone : (([b].map Prod.fst).toFinset : Finset (Fin n)).card ≤ 1 := by simp
        omega
      · -- the thread of the node is one that was met before
        rename_i hb
        have hmem : b.1 ∈ P.map Prod.fst := not_not.mp hb ▸ htid
        have hsub : ([b].map Prod.fst).toFinset ⊆ (P.map Prod.fst).toFinset := by
          intro u hu
          simp only [List.map_cons, List.map_nil, List.mem_toFinset, List.mem_singleton] at hu
          rw [hu]
          exact List.mem_toFinset.mpr hmem
        rw [Finset.union_eq_left.mpr hsub]
        exact hcard

/-- The end of the loop of `check_test_0`. -/
theorem Passes.mainEnd (h : Passes N p C) (hN : 0 < N) {tid : Fin n} {k : Nat} (hm : p.main = .checkWalk none tid k) :
    n ≤ k + 1 ∧ k < n * N := by
  have hmain : 2 < p.main.phase := by
    rw [hm]
    simp [MainPoint.phase]
  have hok := h.main
  rw [hm] at hok
  obtain ⟨P, S, hC, hS, hk⟩ := hok
  obtain rfl := List.head?_eq_none_iff.mp hS
  obtain rfl : P = C := by rw [← hC, List.append_nil]
  obtain ⟨rfl, -, hhead⟩ | ⟨hlt, -, hcard⟩ := hk
  · cases hhead
  · have hall : (P.map Prod.fst).toFinset = Finset.univ :=
      Finset.eq_univ_of_forall fun t => List.mem_toFinset.mpr (h.mem_fst hN hmain t)
    rw [hall, Finset.card_univ, Fintype.card_fin] at hcard
    exact ⟨hcard, Nat.lt_of_lt_of_le hlt h.list.length_le⟩

/-- **A step of `main`** keeps the program in order. -/
theorem Passes.mainStep (h : Passes N p C) (hn : 0 < n) (hN : 0 < N) (hs : p.mainStep = some p') : Passes N p' C := by
  have hok := h.main
  unfold Program.mainStep at hs
  generalize hm : p.main = m at hok hs
  cases m with
  | waitReady i =>
    cases hs
    split
    · exact h
    · rename_i hlt
      have hall := all_of_count (Nat.not_lt.mp (h.ready i ▸ hlt))
      cases i with
      | test0 =>
        refine h.mainTurn (a := 0) (b := 1) hm rfl rfl (by decide) (fun _ => .inl rfl) (fun j hj => ?_) (fun j hj => ?_)
          trivial <;> cases j <;> simp [Test.mainFirst] at hj ⊢
        exact hall
      | test1 =>
        refine h.mainTurn (a := 4) (b := 5) hm rfl rfl (by decide) (fun _ => .inl rfl) (fun j hj => ?_) (fun j hj => ?_)
          trivial <;> cases j <;> simp [Test.mainFirst] at hj ⊢
        exact hall
  | go i =>
    cases hs
    have hr : ∀ {b}, i.mainFirst + 1 < b → ∀ j, (p.meet i fun r => { r with go := true }).rndvz j = p.rndvz j ∨
        (p.meet i fun r => { r with go := true }).rndvz j = { p.rndvz j with go := true } ∧ j.mainFirst + 1 < b := by
      intro b hb j
      by_cases hj : j = i
      · subst hj
        exact .inr ⟨Function.update_self .., hb⟩
      · exact .inl (Function.update_of_ne hj ..)
    cases i with
    | test0 =>
      refine h.mainTurn (a := 1) (b := 2) hm rfl rfl (by decide) (hr (by decide)) (fun j hj => ?_) (fun j hj => ?_)
        trivial <;> cases j <;> simp [Test.mainFirst] at hj ⊢
    | test1 =>
      refine h.mainTurn (a := 5) (b := 6) hm rfl rfl (by decide) (hr (by decide)) (fun j hj => ?_) (fun j hj => ?_)
        trivial <;> cases j <;> simp [Test.mainFirst] at hj ⊢
  | waitComplete i =>
    cases hs
    split
    · exact h
    · rename_i hlt
      have hall := all_of_count (Nat.not_lt.mp (h.complete i ▸ hlt))
      cases i with
      | test0 =>
        refine h.mainTurn (a := 2) (b := 3) hm rfl rfl (by decide) (fun _ => .inl rfl) (fun j hj => ?_) (fun j hj => ?_)
          trivial <;> cases j <;> simp [Test.mainFirst] at hj ⊢
        exact hall
      | test1 =>
        refine h.mainTurn (a := 6) (b := 7) hm rfl rfl (by decide) (fun _ => .inl rfl) (fun j hj => ?_) (fun j hj => ?_)
          trivial <;> cases j <;> simp [Test.mainFirst] at hj ⊢
        exact hall
  | checkHead =>
    have hmem := h.mem_fst hN (by rw [hm]; simp [MainPoint.phase]) ⟨0, hn⟩
    cases C with
    | nil => cases hmem
    | cons c C =>
      have hhead : p.list.head.ptr = some c := h.list.seg.head
      simp only [hhead] at hs
      cases hs
      exact h.mainCheck hm rfl rfl rfl
  | checkList tid =>
    cases hs
    exact h.mainCheck hm rfl rfl ⟨[], C, rfl, h.list.seg.head.symm, .inl ⟨rfl, rfl, hok⟩⟩
  | checkWalk b tid k =>
    cases b with
    | none =>
      cases hs
      have hprint := h.mainPrint (h.mainEnd hN hm) (by rw [hm]; simp [MainPoint.phase])
      refine hprint.mainTurn (a := 3) (b := 4) hm rfl rfl (by decide) (fun _ => .inl rfl) (fun j hj => ?_)
        (fun j hj => ?_) trivial <;> cases j <;> simp [Test.mainFirst] at hj ⊢
    | some b =>
      cases hs
      exact h.mainWalk hm
  | done => cases hs
  | crashed => cases hs

end Main

/-! ## Runs -/

section Runs

variable {p : Program n} {C : List (B n)}

theorem Passes.init : Passes N ({} : Program n) [] where
  list := Inv.init rfl fun _ => rfl
  full _ ht := by cases ht
  point _ := trivial
  lines _ := rfl
  ready i := by cases i <;> simp [Point.phase, Test.first]
  task i := by cases i <;> simp [Point.phase, Test.first]
  complete i := by cases i <;> simp [Point.phase, Test.last]
  started i _ hi := by cases i <;> simp [Point.phase, Test.first] at hi
  go _ hi := by cases hi
  allReady i hi := by cases i <;> simp [MainPoint.phase, Test.mainFirst] at hi
  allComplete i hi := by cases i <;> simp [MainPoint.phase, Test.mainFirst] at hi
  main := trivial
  printed _ hk := by cases hk

theorem run_passes (hn : 0 < n) (hN : 0 < N) (h : (program n N).Reachable p) : ∃ C, Passes N p C := by
  refine System.ReachableBy.invariant (I := fun p => ∃ C, Passes N p C) (fun p hp => ?_) (fun p e p' ⟨C, hC⟩ _ hs => ?_) h
  · obtain rfl : p = {} := hp
    exact ⟨[], .init⟩
  · cases e with
    | some t => exact hC.step hs
    | none => exact ⟨C, hC.mainStep hn hN hs⟩

/-- **`castest` passes, whatever the order of its steps.** No assertion fails, no thread prints a line, and
`check_test_0` finds in the list every node once, those of one thread in order. A thread starts a test when all are
ready for it. -/
theorem castest_passes (hn : 0 < n) (hN : 0 < N) (h : (program n N).Reachable p) :
    (∀ t, p.point t ≠ .crashed ∧ p.lines t = []) ∧ p.main ≠ .crashed ∧
    (∀ (i : Test) t, i.first + 1 < (p.point t).phase → ∀ u, i.first < (p.point u).phase) ∧
    (∀ i, 0 ≤ (p.rndvz i).inTaskCount) ∧
    ∀ k, p.interleaves = some k → n ≤ k + 1 ∧ k < n * N ∧
      ∃ C, Seg p.list.nextOf p.list.head.ptr C none ∧ C.Nodup ∧
        ∀ t, C.filter (fun b => b.1 = t) = (List.range N).map fun y => (t, y) := by
  obtain ⟨C, hp⟩ := run_passes hn hN h
  refine ⟨fun t => ⟨fun ht => ?_, hp.lines t⟩, fun hm => ?_, fun i t ht => ?_, fun i => ?_, fun k hk => ?_⟩
  · have hok := hp.point t
    rw [ht] at hok
    exact hok
  · have hok := hp.main
    rw [hm] at hok
    exact hok
  · have hgo := hp.go i (hp.started i t ht)
    exact hp.allReady i (by omega)
  · rw [hp.task i]
    exact Finset.sum_nonneg fun t _ => by split <;> decide
  · obtain ⟨hle, hlt, hmain⟩ := hp.printed k hk
    exact ⟨hle, hlt, C, hp.list.seg, hp.list.nodup, hp.complete_own hmain⟩

/-- `t` and `main` alone, as far as the end of `test_0`, when `u` has only called `ready`; then `u`; then the rest. -/
def ahead (t u : Fin n) : List (Option (Fin n)) :=
  some t :: some u :: none :: none :: List.replicate 16 (some t) ++ List.replicate 18 (some u) ++
    List.replicate 6 none ++ some t :: some u :: none :: none :: List.replicate 4 (some t) ++
    List.replicate 4 (some u) ++ [none]

/-- Thread 0 finds `task_count()` zero, and scans the list, before thread 1 has begun. -/
theorem castest_passes_ahead :
    ∃ p : Program 2, (program 2 1).Reachable p ∧ p.main = .done ∧ p.interleaves = some 1 ∧ (∀ t, p.lines t = []) ∧
      ∃ C, Seg p.list.nextOf p.list.head.ptr C none ∧ C.Nodup ∧ ∀ t, C.filter (fun b => b.1 = t) = [(t, 0)] := by
  have hrun : ((program 2 1).run {} (ahead 0 1)).any fun p => p.main = .done ∧ p.interleaves = some 1 := by
    decide +kernel
  obtain ⟨p, hp, hfacts⟩ := (Option.any_eq_true ..).mp hrun
  obtain ⟨hdone, hprint⟩ := of_decide_eq_true hfacts
  have hreach : (program 2 1).Reachable p := System.run_reachable (.init rfl) hp
  obtain ⟨hlines, -, -, -, hlist⟩ := castest_passes (by decide) (by decide) hreach
  obtain ⟨-, -, C, hC, hnodup, hown⟩ := hlist 1 hprint
  exact ⟨p, hreach, hdone, hprint, fun t => (hlines t).2, C, hC, hnodup, hown⟩

end Runs

end Castest

end SplitOrder
