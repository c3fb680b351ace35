/-
Where a retired object is.

At every moment it is in one place: in the array of a thread or the call
that deletes it, on the shared delete list, on the private list of a
running `collect`, or with `reclaim_object`. `Thread.holds` is the part a
thread has outside the lists; `Keeps` is what a step has to show about the
shared list `C` and the thread's private list `L`, and `Inv.step` what then
holds for all threads.
-/
import SplitOrder.Lib.Sums
import SplitOrder.Hazard.Machine

namespace SplitOrder

namespace Hazard

/-! ## What a thread has -/

/-- `local_delete_head` of a running `collect`. -/
def Pc.localHead : Pc → Option Addr
  | .snapshot (.collect h _) | .snapshotLoad _ _ _ (.collect h _) | .collectWalk h _ _ _ | .collectPush h _
  | .push _ (.collect h) _ | .pushCas _ (.collect h) _ | .pushCount (.collect h) _ => h
  | _ => none

/-- The node that is about to be pushed. -/
def Pc.newNode : Pc → List Addr
  | .push a _ _ | .pushCas a _ _ => [a]
  | _ => []

/-- The entry of the array that has a delete node and is still to be nulled. -/
def Pc.skip : Pc → Option Nat
  | .push _ (.array x _ _) _ | .pushCas _ (.array x _ _) _ | .pushCount (.array x _ _) _ | .enqueueNull x _ _ _ => some x
  | _ => none

/-- The object a call of `enqueue_for_delete` has no node for yet. -/
def Pc.item : Pc → List Ptr
  | .enqueue item _ _ => [item]
  | _ => []

/-- The array without the entry `skip`. -/
def skipped (a : List Ptr) : Option Nat → List Ptr
  | none => a
  | some x => a.set x 0

/-- The retired objects a thread has in its array or in the call it makes. -/
def Thread.holds (th : Thread) (d : Domain) : List Ptr :=
  itemsOf (skipped th.deleted th.pc.skip) ++ th.pc.item ++ th.pc.newNode.map d.payload

/-! ## What holds at each point of a call -/

namespace Thread

variable (th : Thread)

/-- The array between calls: the items first, and room for one more. -/
def Rest : Prop :=
  match th.ctx with
  | none => itemsOf th.deleted = []
  | some c => c.R < 2 ^ 64 ∧ th.deleted.length = c.R ∧ Dense th.deleted th.delIndex ∧ (c.R ≠ 0 → th.delIndex < c.R)

def NoContext : Prop := th.ctx = none ∧ itemsOf th.deleted = []

/-- All entries of the context's array are null. -/
def Emptied : Prop :=
  ∃ c, th.ctx = some c ∧ c.R < 2 ^ 64 ∧ th.deleted.length = c.R ∧ itemsOf th.deleted = []

/-- In `reclaim`: `del_index` counts the items, and none is missing from `ix` on. -/
def Reclaiming (ix : Nat) : Prop :=
  ∃ c, th.ctx = some c ∧ 0 < c.R ∧ c.R < 2 ^ 64 ∧ th.deleted.length = c.R ∧ th.delIndex = (itemsOf th.deleted).length ∧
    ∀ i v, ix ≤ i → th.deleted[i]? = some v → v ≠ 0

/-- In `enqueue_for_delete` of the array: the entries before `x` are null. -/
def Queued (x count : Nat) (k : After) : Prop :=
  th.deleted.length = count ∧ (∀ i v, i < x → th.deleted[i]? = some v → v = 0) ∧
    match k with
    | .done | .domain => th.ctx = none
    | _ => ∃ c, th.ctx = some c ∧ c.R < 2 ^ 64 ∧ c.R = count

/-- In the destructor, the array untouched. -/
def Destroying : Prop := ∃ c, th.ctx = some c ∧ c.R < 2 ^ 64 ∧ th.deleted.length = c.R

end Thread

/-- What a call that `k` follows leaves alone. -/
def After.Ok (th : Thread) : After → Prop
  | .done => th.Rest
  | .reclaim | .destroy | .destroyed => th.Emptied
  | .domain => th.NoContext

def PushAfter.Ok (th : Thread) (k : After) : PushAfter → Prop
  | .enqueue _ | .collect _ => k.Ok th
  | .array x count _ => x < count ∧ th.Queued x count k

def SnapshotAfter.Ok (th : Thread) : SnapshotAfter → Prop
  | .reclaim => th.Reclaiming 0
  | .collect _ k => k.Ok th

/-- The list of a running `collect` up to `pprev`: what the snapshot protects. -/
def Walked (d : Domain) (L : List Addr) (pprev : Option Addr) (snap : List Ptr) : Prop :=
  ∃ A B, L = A ++ B ∧ pprev = A.getLast? ∧ ∀ a ∈ A, search snap (d.payload a) = true

/-- What holds at each point of a call. -/
def Pc.Ok (th : Thread) (d : Domain) (L : List Addr) : Pc → Prop
  | .idle => th.Rest
  | .reserve _ R _ | .reserveLoad _ R _ _ | .reserveCas _ R _ _ _ | .poolsNext _ R | .poolsCas _ R _
  | .countLoad _ R | .countStore _ R _ | .construct _ R _ _ => R < 2 ^ 64 ∧ th.NoContext
  | .push _ a k | .pushCas _ a k | .pushCount a k => a.Ok th k
  | .enqueue _ _ k => k.Ok th
  | .enqueueArray x count _ k => x ≤ count ∧ th.Queued x count k
  | .enqueueNull x count _ k => x < count ∧ th.Queued x count k
  | .collectIf _ k | .collectTest _ _ k | .collectLoad k | .collectZero _ k | .collect k | .collectPush _ k => k.Ok th
  | .snapshot a | .snapshotLoad _ _ _ a => a.Ok th
  | .collectWalk _ pprev snap k => k.Ok th ∧ Walked d L pprev snap
  | .reclaim ix _ => th.Reclaiming ix
  | .destruct _ | .release | .releaseTest _ | .releaseSlot _ _ | .releaseStore _ _ | .releaseCheck _ _
  | .releaseLoad _ _ | .releaseCas _ _ _ => th.Destroying
  | .domainEnd | .domainPools _ | .ended => th.NoContext
  | .crashed => True

def Thread.Ok (th : Thread) (d : Domain) (L : List Addr) : Prop := th.pc.Ok th d L

/-! ## One step -/

/-- What a step of the thread `th` with the effect `e` has to establish. -/
structure Keeps (d : Domain) (C L : List Addr) (th : Thread) (e : Effect) (C' L' : List Addr) : Prop where
  shared : Seg e.domain.next e.domain.deleteHead C' none
  priv : Seg e.domain.next e.thread.pc.localHead L' none
  nodup : (C' ++ (L' ++ e.thread.pc.newNode)).Nodup
  live : ∀ a ∈ C' ++ (L' ++ e.thread.pc.newNode), e.domain.live a = true
  source : ∀ a ∈ C' ++ (L' ++ e.thread.pc.newNode), a ∈ C ++ (L ++ th.pc.newNode) ∨ d.live a = false
  frame : ∀ a, d.live a = true → a ∉ C ++ (L ++ th.pc.newNode) → e.domain.node a = d.node a ∧ e.domain.live a = true
  perm : (C'.map e.domain.payload ++ (e.thread.holds e.domain ++ L'.map e.domain.payload) ++ e.reclaimed).Perm
    (C.map d.payload ++ (th.holds d ++ L.map d.payload))
  ok : e.thread.Ok e.domain L'
  /-- Only the exchange in `collect` brings nodes into the private list. -/
  sub : (∀ k, th.pc ≠ .collect k) → ∀ a ∈ L', a ∈ L ∧ e.domain.payload a = d.payload a

/-- The invariant, with the shared list `C` and the private lists `L`. -/
structure Inv {n : Nat} (σ : State n) (C : List Addr) (L : Fin n → List Addr) : Prop where
  shared : Seg σ.domain.next σ.domain.deleteHead C none
  priv : ∀ t, Seg σ.domain.next (σ.thread t).pc.localHead (L t) none
  nodup : ∀ t, (C ++ (L t ++ (σ.thread t).pc.newNode)).Nodup
  apart : ∀ t u, t ≠ u → ∀ a ∈ L t ++ (σ.thread t).pc.newNode, a ∉ L u ++ (σ.thread u).pc.newNode
  live : ∀ t, ∀ a ∈ C ++ (L t ++ (σ.thread t).pc.newNode), σ.domain.live a = true
  count : ∀ p, σ.retired.count p = σ.reclaimed.count p + (C.map σ.domain.payload).count p +
    ∑ t, ((σ.thread t).holds σ.domain ++ (L t).map σ.domain.payload).count p
  ok : ∀ t, (σ.thread t).Ok σ.domain (L t)

theorem Walked.congr {d d' : Domain} {L : List Addr} {pprev : Option Addr} {snap : List Ptr}
    (h : Walked d L pprev snap) (hn : ∀ a ∈ L, d'.node a = d.node a) : Walked d' L pprev snap := by
  obtain ⟨A, B, rfl, hp, hs⟩ := h
  refine ⟨A, B, rfl, hp, fun a ha => ?_⟩
  rw [Domain.payload, hn a (by simp [ha])]
  exact hs a ha

theorem Thread.Ok.congr {th : Thread} {d d' : Domain} {L : List Addr} (h : th.Ok d L)
    (hn : ∀ a ∈ L, d'.node a = d.node a) : th.Ok d' L := by
  obtain ⟨ctx, deleted, delIndex, pc⟩ := th
  cases pc with
  | collectWalk _ pprev snap k => exact ⟨h.1, h.2.congr hn⟩
  | _ => exact h

theorem Thread.holds_congr {th : Thread} {d d' : Domain} (hn : ∀ a ∈ th.pc.newNode, d'.node a = d.node a) :
    th.holds d' = th.holds d := by
  have hmap : th.pc.newNode.map d'.payload = th.pc.newNode.map d.payload := by
    refine List.map_congr_left fun a ha => ?_
    simp only [Domain.payload, hn a ha]
  simp only [Thread.holds, hmap]

/-- The nodes of another thread are not among those of `t`. -/
theorem Inv.others {n : Nat} {σ : State n} {C : List Addr} {L : Fin n → List Addr} {t u : Fin n} {a : Addr}
    (h : Inv σ C L)
    (hu : u ≠ t) (ha : a ∈ L u ++ (σ.thread u).pc.newNode) :
    a ∉ C ++ (L t ++ (σ.thread t).pc.newNode) ∧ σ.domain.live a = true := by
  have hlive := h.live u a (List.mem_append_right _ ha)
  refine ⟨fun hmem => ?_, hlive⟩
  rcases List.mem_append.mp hmem with hC | hmem
  · exact (List.nodup_append.mp (h.nodup u)).2.2 a hC a ha rfl
  · exact h.apart u t hu a ha hmem

/-- So a step of `t` does not touch them. -/
theorem Inv.frame {n : Nat} {σ : State n} {C : List Addr} {L : Fin n → List Addr} {t u : Fin n} {e : Effect}
    {C' L' : List Addr} {a : Addr} (h : Inv σ C L) (hk : Keeps σ.domain C (L t) (σ.thread t) e C' L') (hu : u ≠ t)
    (ha : a ∈ L u ++ (σ.thread u).pc.newNode) : e.domain.node a = σ.domain.node a ∧ e.domain.live a = true := by
  obtain ⟨h1, h2⟩ := h.others hu ha
  exact hk.frame a h2 h1

/-- **One thread's step keeps the invariant.** -/
theorem Inv.step {n : Nat} {σ : State n} {C : List Addr} {L : Fin n → List Addr} {t : Fin n} {e : Effect}
    {C' L' : List Addr} (h : Inv σ C L) (hk : Keeps σ.domain C (L t) (σ.thread t) e C' L') :
    Inv (σ.apply t e) C' (Function.update L t L') := by
  have hself : (σ.apply t e).thread t = e.thread := Function.update_self ..
  have hother : ∀ u, u ≠ t → (σ.apply t e).thread u = σ.thread u := fun u hu => Function.update_of_ne hu ..
  have hLother : ∀ u, u ≠ t → Function.update L t L' u = L u := fun u hu => Function.update_of_ne hu ..
  have hframe : ∀ u, u ≠ t → ∀ a ∈ L u ++ (σ.thread u).pc.newNode,
      e.domain.node a = σ.domain.node a ∧ e.domain.live a = true := fun u hu a ha => h.frame hk hu ha
  -- the nodes of another thread are not among what `t` has now
  have hfresh : ∀ u, u ≠ t → ∀ a ∈ L u ++ (σ.thread u).pc.newNode, a ∉ C' ++ (L' ++ e.thread.pc.newNode) := by
    intro u hu a ha hmem
    obtain ⟨h1, h2⟩ := h.others hu ha
    rcases hk.source a hmem with h3 | h3
    · exact h1 h3
    · rw [h2] at h3
      cases h3
  refine ⟨hk.shared, fun u => ?_, fun u => ?_, fun u v huv a ha hav => ?_, fun u a ha => ?_, fun p => ?_, fun u => ?_⟩
  · by_cases hu : u = t
    · subst hu
      rw [hself, Function.update_self]
      exact hk.priv
    · rw [hother u hu, hLother u hu]
      refine Seg.congr (fun a ha => ?_) (h.priv u)
      exact congrArg DeleteNode.next (hframe u hu a (by simp [ha])).1.symm
  · by_cases hu : u = t
    · subst hu
      rw [hself, Function.update_self]
      exact hk.nodup
    · rw [hother u hu, hLother u hu, List.nodup_append]
      refine ⟨(List.nodup_append.mp hk.nodup).1, (List.nodup_append.mp (h.nodup u)).2.1, ?_⟩
      rintro a ha b hb rfl
      exact hfresh u hu a hb (by simp [ha])
  · by_cases hu : u = t
    · subst hu
      rw [hself, Function.update_self] at ha
      rw [hother v huv.symm, hLother v huv.symm] at hav
      exact hfresh v huv.symm a hav (List.mem_append_right _ ha)
    · rw [hother u hu, hLother u hu] at ha
      by_cases hv : v = t
      · subst hv
        rw [hself, Function.update_self] at hav
        exact hfresh u hu a ha (List.mem_append_right _ hav)
      · rw [hother v hv, hLother v hv] at hav
        exact h.apart u v huv a ha hav
  · by_cases hu : u = t
    · subst hu
      rw [hself, Function.update_self] at ha
      exact hk.live a ha
    · rw [hother u hu, hLother u hu] at ha
      rcases List.mem_append.mp ha with ha | ha
      · exact hk.live a (by simp [ha])
      · exact (hframe u hu a ha).2
  · have hsum := sum_change (f := fun u => ((σ.thread u).holds σ.domain ++ (L u).map σ.domain.payload).count p)
      (g := fun u => (((σ.apply t e).thread u).holds e.domain ++
        (Function.update L t L' u).map e.domain.payload).count p)
      t fun u hu => by
        have hpay : (L u).map e.domain.payload = (L u).map σ.domain.payload := List.map_congr_left fun a ha =>
          congrArg DeleteNode.payload (hframe u hu a (by simp [ha])).1
        simp only [hother u hu, hLother u hu, hpay]
        rw [Thread.holds_congr fun a ha => (hframe u hu a (by simp [ha])).1]
    have hp := hk.perm.count_eq p
    have hc := h.count p
    simp only [hself, Function.update_self, List.count_append] at hsum hp hc ⊢
    change _ = (σ.reclaimed ++ e.reclaimed).count p + (C'.map e.domain.payload).count p + _
    rw [List.count_append]
    have hr : (σ.apply t e).retired = σ.retired := rfl
    rw [hr]
    have hd : (σ.apply t e).domain = e.domain := rfl
    rw [hd]
    omega
  · by_cases hu : u = t
    · subst hu
      rw [hself, Function.update_self]
      exact hk.ok
    · rw [hother u hu, hLother u hu]
      exact (h.ok u).congr fun a ha => (hframe u hu a (by simp [ha])).1

end Hazard

end SplitOrder
