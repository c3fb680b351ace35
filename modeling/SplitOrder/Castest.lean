/-
The push loop of `castest.cpp`: threads that push their own nodes onto one
shared head.

One step is one read of a `mark_ptr_type`, one assignment or one `CAS`. What a
`CAS` expects is the copy of the head that the thread keeps in its node. The
copy may be stale, but a node that is not pushed is written by its owner
alone, so where the `CAS` succeeds the node already points to the chain it
is put in front of.
-/
import SplitOrder.Lib.Chain
import SplitOrder.Lib.Runs
import SplitOrder.MarkPtr

namespace SplitOrder

namespace Castest

inductive Pc (α : Type)
  /-- `head.next()` -/
  | read
  /-- `args.b[x].next = p` -/
  | assign (p : Option α)
  /-- `args.b[x].next()` -/
  | load
  /-- `head.next.CAS(expected, args.b+x)` -/
  | cas (expected : Option α)
  deriving DecidableEq

/-- A thread of `test_0`, in the turn `x` of its loop. -/
structure Thread (α : Type) where
  x : Nat := 0
  pc : Pc α := .read

structure State (ι α : Type) where
  /-- `head.next` -/
  head : MarkPtr α := {}
  /-- `b->next` -/
  next : α → MarkPtr α := fun _ => {}
  thread : ι → Thread α := fun _ => {}

variable {ι α : Type} [DecidableEq ι] {nodes : ι → List α} {σ σ' : State ι α} {t u : ι} {b : α} {C : List α}

def State.set (σ : State ι α) (t : ι) (th : Thread α) : State ι α := { σ with thread := Function.update σ.thread t th }

/-- The pointer a node holds. -/
def State.nextOf (σ : State ι α) (b : α) : Option α := (σ.next b).ptr

@[simp] theorem set_thread_self {th : Thread α} : (σ.set t th).thread t = th := Function.update_self ..

theorem set_thread_of_ne {th : Thread α} (hu : u ≠ t) : (σ.set t th).thread u = σ.thread u :=
    Function.update_of_ne hu ..

variable [DecidableEq α]

/-- The step of thread `t`, whose nodes are `nodes t`, in the order of its loop. -/
def step (nodes : ι → List α) (σ : State ι α) (t : ι) : Option (State ι α) :=
  let th := σ.thread t
  match (nodes t)[th.x]? with
  | none => none
  | some b =>
    match th.pc with
    | .read => some (σ.set t { th with pc := .assign σ.head.ptr })
    | .assign p =>
      some ({ σ with next := Function.update σ.next b ((σ.next b).assign p) }.set t { th with pc := .load })
    | .load => some (σ.set t { th with pc := .cas (σ.nextOf b) })
    | .cas expected =>
      let r := σ.head.cas expected (some b) false
      some ({ σ with head := r.2 }.set t (if r.1 then { x := th.x + 1, pc := .read } else { th with pc := .read }))

/-- The push loops of all threads, from an empty chain. -/
def pushLoop (nodes : ι → List α) : System (State ι α) ι where
  init σ := σ.head = {} ∧ ∀ t, σ.thread t = {}
  next := step nodes

/-- The nodes of thread `t` whose `CAS` has succeeded, in the order it pushed them. -/
def State.pushed (nodes : ι → List α) (σ : State ι α) (t : ι) : List α := (nodes t).take (σ.thread t).x

/-- Every thread has its own nodes, none of them twice. -/
structure OwnNodes (nodes : ι → List α) : Prop where
  nodup : ∀ t, (nodes t).Nodup
  disjoint : ∀ t u, t ≠ u → ∀ b ∈ nodes t, b ∉ nodes u

/-- What a step does: it goes on to the next, or writes the thread's own node, or pushes it. -/
theorem step_cases (h : step nodes σ t = some σ') :
    ∃ b, (nodes t)[(σ.thread t).x]? = some b ∧
      ((∃ pc, (∀ e, pc = .cas e → σ.nextOf b = e) ∧ σ' = σ.set t { σ.thread t with pc }) ∨
      (∃ m, σ' = { σ with next := Function.update σ.next b m }.set t { σ.thread t with pc := .load }) ∨
      ((σ.thread t).pc = .cas σ.head.ptr ∧ σ.head.mark = false ∧
        σ' = { σ with head := { ptr := some b } }.set t { x := (σ.thread t).x + 1 })) := by
  cases hb : (nodes t)[(σ.thread t).x]? with
  | none =>
    simp only [step, hb] at h
    cases h
  | some b =>
    refine ⟨b, rfl, ?_⟩
    cases hpc : (σ.thread t).pc with
    | read =>
      simp only [step, hb, hpc, Option.some.injEq] at h
      exact .inl ⟨.assign σ.head.ptr, nofun, h.symm⟩
    | assign p =>
      simp only [step, hb, hpc, Option.some.injEq] at h
      exact .inr (.inl ⟨_, h.symm⟩)
    | load =>
      simp only [step, hb, hpc, Option.some.injEq] at h
      refine .inl ⟨.cas (σ.nextOf b), fun e he => ?_, h.symm⟩
      cases he
      rfl
    | cas expected =>
      simp only [step, hb, hpc, Option.some.injEq] at h
      by_cases hhead : σ.head = { ptr := expected }
      · rw [MarkPtr.cas_ok hhead] at h
        refine .inr (.inr ⟨?_, ?_, h.symm⟩)
        · rw [hhead]
        · rw [hhead]
      · rw [MarkPtr.cas_fail hhead] at h
        exact .inl ⟨.read, nofun, h.symm⟩

/-! ## The chain -/

/-- `C` is the chain from the head, and its nodes are those pushed. -/
structure Inv (nodes : ι → List α) (σ : State ι α) (C : List α) : Prop where
  seg : Seg σ.nextOf σ.head.ptr C none
  nodup : C.Nodup
  own : ∀ t, C.filter (· ∈ nodes t) = (σ.pushed nodes t).reverse
  mem : ∀ b ∈ C, ∃ t, b ∈ σ.pushed nodes t
  /-- what a `CAS` expects is still in the node -/
  loaded : ∀ t b e, (nodes t)[(σ.thread t).x]? = some b → (σ.thread t).pc = .cas e → σ.nextOf b = e

/-- The node a thread works on is not in the chain. -/
theorem Inv.notMem (h : Inv nodes σ C) (hn : OwnNodes nodes) (hb : (nodes t)[(σ.thread t).x]? = some b) : b ∉ C := by
  intro hC
  obtain ⟨hlt, hget⟩ := List.getElem?_eq_some_iff.mp hb
  have hbt : b ∈ nodes t := List.mem_of_getElem? hb
  obtain ⟨u, hu⟩ := h.mem b hC
  have hbu : b ∈ nodes u := (List.take_sublist _ _).subset hu
  by_cases hut : u = t
  · subst hut
    obtain ⟨i, hi, hbi⟩ := List.mem_take_iff_getElem.mp hu
    have := (hn.nodup u).getElem_inj_iff.mp (hbi.trans hget.symm)
    omega
  · exact hn.disjoint u t hut b hbu hbt

omit [DecidableEq ι] in
theorem nextOf_update_of_ne {c : α} {m : MarkPtr α} (hc : c ≠ b) :
    State.nextOf { σ with next := Function.update σ.next b m } c = σ.nextOf c := by
  unfold State.nextOf
  change (Function.update σ.next b m c).ptr = _
  rw [Function.update_of_ne hc]

omit [DecidableEq α] in
theorem pushed_set {th : Thread α} (hx : th.x = (σ.thread t).x) (u : ι) :
    (σ.set t th).pushed nodes u = σ.pushed nodes u := by
  unfold State.pushed
  by_cases hu : u = t
  · rw [hu, set_thread_self, hx]
  · rw [set_thread_of_ne hu]

/-- A step of one thread that does not push keeps the invariant, if it keeps the chain. -/
theorem Inv.turn (h : Inv nodes σ C) {τ : State ι α} {th : Thread α} (hτ : τ.thread = σ.thread)
    (hx : th.x = (σ.thread t).x) (hseg : Seg τ.nextOf τ.head.ptr C none)
    (hother : ∀ u, u ≠ t → ∀ c, (nodes u)[(σ.thread u).x]? = some c → τ.nextOf c = σ.nextOf c)
    (hth : ∀ c e, (nodes t)[(σ.thread t).x]? = some c → th.pc = .cas e → τ.nextOf c = e) :
    Inv nodes (τ.set t th) C := by
  have hp : ∀ u, (τ.set t th).pushed nodes u = σ.pushed nodes u := by
    intro u
    rw [pushed_set (by rw [hx, hτ])]
    unfold State.pushed
    rw [hτ]
  refine ⟨hseg, h.nodup, fun u => by rw [hp, h.own], fun c hc => ?_, fun u c e hc he => ?_⟩
  · obtain ⟨u, hu⟩ := h.mem c hc
    exact ⟨u, by rwa [hp]⟩
  · by_cases hu : u = t
    · subst hu
      rw [set_thread_self, hx] at hc
      rw [set_thread_self] at he
      exact hth c e hc he
    · rw [set_thread_of_ne hu, hτ] at hc he
      change τ.nextOf c = e
      rw [hother u hu c hc]
      exact h.loaded u c e hc he

/-- A push puts the thread's node in front of the chain. -/
theorem Inv.push (h : Inv nodes σ C) (hn : OwnNodes nodes) (hb : (nodes t)[(σ.thread t).x]? = some b)
    (hnext : σ.nextOf b = σ.head.ptr) :
    Inv nodes ({ σ with head := { ptr := some b } }.set t { x := (σ.thread t).x + 1 }) (b :: C) := by
  have hbt : b ∈ nodes t := List.mem_of_getElem? hb
  have hpt : ({ σ with head := { ptr := some b } }.set t { x := (σ.thread t).x + 1 }).pushed nodes t =
      σ.pushed nodes t ++ [b] := by
    unfold State.pushed
    rw [set_thread_self, List.take_add_one, hb]
    rfl
  have hpu : ∀ u, u ≠ t →
      ({ σ with head := { ptr := some b } }.set t { x := (σ.thread t).x + 1 }).pushed nodes u = σ.pushed nodes u := by
    intro u hu
    unfold State.pushed
    rw [set_thread_of_ne hu]
  refine ⟨⟨rfl, ?_⟩, List.nodup_cons.mpr ⟨h.notMem hn hb, h.nodup⟩, fun u => ?_, fun c hc => ?_, fun u c e hc he => ?_⟩
  · -- the node already points to the chain
    change Seg σ.nextOf (σ.nextOf b) C none
    rw [hnext]
    exact h.seg
  · by_cases hu : u = t
    · subst hu
      rw [hpt, List.filter_cons_of_pos (by simpa using hbt), h.own, List.reverse_append]
      rfl
    · have hbu : b ∉ nodes u := hn.disjoint t u (Ne.symm hu) b hbt
      rw [hpu u hu, List.filter_cons_of_neg (by simpa using hbu), h.own]
  · obtain rfl | hc := List.mem_cons.mp hc
    · exact ⟨t, by rw [hpt]; simp⟩
    · obtain ⟨u, hu⟩ := h.mem c hc
      by_cases hut : u = t
      · subst hut
        exact ⟨u, by rw [hpt]; simp [hu]⟩
      · exact ⟨u, by rwa [hpu u hut]⟩
  · by_cases hu : u = t
    · subst hu
      rw [set_thread_self] at he
      cases he
    · rw [set_thread_of_ne hu] at hc he
      exact h.loaded u c e hc he

/-- A step keeps the chain, or puts a node in front of it. -/
theorem Inv.step_suffix (h : Inv nodes σ C) (hn : OwnNodes nodes) (hs : step nodes σ t = some σ') :
    ∃ C', C <:+ C' ∧ Inv nodes σ' C' := by
  obtain ⟨b, hb, ⟨pc, hpc, rfl⟩ | ⟨m, rfl⟩ | ⟨hpc, -, rfl⟩⟩ := step_cases hs
  · refine ⟨C, List.suffix_refl C, h.turn rfl rfl h.seg (fun _ _ _ _ => rfl) fun c e hc he => ?_⟩
    rw [hb] at hc
    cases hc
    exact hpc e he
  · -- the node is written; it is no other thread's, and not in the chain
    refine ⟨C, List.suffix_refl C, h.turn rfl rfl ?_ (fun u hu c hc => ?_) nofun⟩
    · refine h.seg.congr fun c hc => (nextOf_update_of_ne ?_).symm
      rintro rfl
      exact h.notMem hn hb hc
    · refine nextOf_update_of_ne ?_
      rintro rfl
      exact hn.disjoint u t hu c (List.mem_of_getElem? hc) (List.mem_of_getElem? hb)
  · exact ⟨b :: C, List.suffix_cons b C, h.push hn hb (h.loaded t b _ hb hpc)⟩

theorem Inv.step (h : Inv nodes σ C) (hn : OwnNodes nodes) (hs : step nodes σ t = some σ') : ∃ C', Inv nodes σ' C' := by
  obtain ⟨C', -, hC'⟩ := h.step_suffix hn hs
  exact ⟨C', hC'⟩

omit [DecidableEq ι] in
theorem Inv.init (h : σ.head = {}) (ht : ∀ t, σ.thread t = {}) : Inv nodes σ [] := by
  have hp : ∀ t, σ.pushed nodes t = [] := by
    intro t
    unfold State.pushed
    rw [ht]
    rfl
  refine ⟨by rw [h]; rfl, .nil, fun t => by rw [hp]; rfl, nofun, fun t c e _ he => ?_⟩
  rw [ht] at he
  cases he

/-- Whatever the order of the steps, the chain from the head is finite and has no cycle, and its
nodes are those whose `CAS` succeeded, each once, those of one thread from its last to its first. -/
theorem chain_of_pushes (hn : OwnNodes nodes) (hr : (pushLoop nodes).Reachable σ) :
    ∃ C, Seg σ.nextOf σ.head.ptr C none ∧ C.Nodup ∧ (∀ b, b ∈ C ↔ ∃ t, b ∈ σ.pushed nodes t) ∧
      ∀ t, C.filter (· ∈ nodes t) = (σ.pushed nodes t).reverse := by
  obtain ⟨C, h⟩ : ∃ C, Inv nodes σ C := by
    refine System.ReachableBy.invariant (I := fun σ => ∃ C, Inv nodes σ C) ?_ ?_ hr
    · intro s hs
      exact ⟨[], Inv.init hs.1 hs.2⟩
    · intro s t s' ⟨C, h⟩ _ hs
      exact h.step hn hs
  refine ⟨C, h.seg, h.nodup, fun b => ⟨h.mem b, fun ⟨t, hb⟩ => ?_⟩, h.own⟩
  rw [← List.mem_reverse, ← h.own t] at hb
  exact (List.mem_filter.mp hb).1

/-- Two threads, with two nodes and one. -/
def twoThreads : Fin 2 → List Nat
  | 0 => [1, 2]
  | 1 => [3]

/-- Thread 0 takes its copy of the head before thread 1 pushes, and its first `CAS` fails. -/
theorem chain_of_pushes_race :
    ∃ σ, (pushLoop twoThreads).Reachable σ ∧ (σ.thread 0).x = 1 ∧ (σ.thread 1).x = 1 ∧
      Seg σ.nextOf σ.head.ptr [1, 3] none ∧ ∀ b, b ∈ [1, 3] ↔ ∃ t, b ∈ σ.pushed twoThreads t := by
  have hn : OwnNodes twoThreads := ⟨by decide, by decide⟩
  have hsome : ((pushLoop twoThreads).run {} [0, 0, 0, 1, 1, 1, 1, 0, 0, 0, 0, 0]).map
      (fun σ => decide (σ.head.ptr = some 1 ∧ σ.nextOf 1 = some 3 ∧ σ.nextOf 3 = none ∧
        (σ.thread 0).x = 1 ∧ (σ.thread 1).x = 1)) = some true := by
    decide +kernel
  obtain ⟨σ, hrun, hfacts⟩ := Option.map_eq_some_iff.mp hsome
  obtain ⟨hhead, h1, h3, hx0, hx1⟩ := of_decide_eq_true hfacts
  have hreach := System.run_reachable (M := pushLoop twoThreads) (.init ⟨rfl, fun _ => rfl⟩) hrun
  obtain ⟨C, hC, -, hmem, -⟩ := chain_of_pushes hn hreach
  have hseg : Seg σ.nextOf σ.head.ptr [1, 3] none := ⟨hhead, h1, h3⟩
  obtain rfl := hC.det hseg
  exact ⟨σ, hreach, hx0, hx1, hC, hmem⟩

end Castest

end SplitOrder
