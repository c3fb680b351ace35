/-
Infinite runs, and the rule by which something is shown to happen in them
again and again.

A rank in a well-founded order goes with each state. If no event raises it
and the events that count as work lower it, except where the thing in
question happens, then it happens again and again in each run that works
again and again. The rank may depend on more than the state (on ghost data
that an invariant provides), so it is a relation.
-/
import Mathlib.Order.WellFounded
import SplitOrder.Lib.Runs

namespace SplitOrder

namespace System

variable {σ ε α : Type*} {M : System σ ε}

/-- An infinite run. -/
structure Forever (M : System σ ε) where
  state : Nat → σ
  event : Nat → ε
  next : ∀ i, M.next (state i) (event i) = some (state (i + 1))

namespace Forever

variable (r : M.Forever)

/-- `P`, of the state before an event, the event and the state after, holds again and again. -/
def Often (P : σ → ε → σ → Prop) : Prop := ∀ i, ∃ j, i ≤ j ∧ P (r.state j) (r.event j) (r.state (j + 1))

variable {r}

theorem reachableBy {ok : σ → ε → Prop} (h0 : M.ReachableBy ok (r.state 0)) (hok : ∀ i, ok (r.state i) (r.event i)) :
    ∀ i, M.ReachableBy ok (r.state i)
  | 0 => h0
  | i + 1 => .step (reachableBy h0 hok i) (hok i) (r.next i)

/-- A run that comes back to where it began goes on for ever. -/
theorem of_cycle {check : σ → ε → Bool} {s : σ} {e : ε} {es : List ε} (h : M.runIf check s (e :: es) = some s) :
    ∃ r : M.Forever, r.state 0 = s ∧ ∀ i, check (r.state i) (r.event i) = true := by
  -- a state with the events left of the round, the next one apart
  let Left := { p : σ × ε × List ε // M.runIf check p.1 (p.2.1 :: p.2.2) = some s }
  have hstep : ∀ p : Left, ∃ q : Left, check p.1.1 p.1.2.1 = true ∧ M.next p.1.1 p.1.2.1 = some q.1.1 := by
    rintro ⟨⟨t, a, as⟩, hp⟩
    simp only [runIf] at hp
    split at hp
    · obtain ⟨t', hn, hrun⟩ := Option.bind_eq_some_iff.mp hp
      cases as with
      | nil =>
        obtain rfl : t' = s := Option.some.inj hrun
        exact ⟨⟨⟨t', e, es⟩, h⟩, ‹_›, hn⟩
      | cons a as => exact ⟨⟨⟨t', a, as⟩, hrun⟩, ‹_›, hn⟩
    · cases hp
  choose f hcheck hnext using hstep
  let p : Nat → Left := fun i => f^[i] ⟨⟨s, e, es⟩, h⟩
  have hp : ∀ i, p (i + 1) = f (p i) := fun i => Function.iterate_succ_apply' f i _
  exact ⟨⟨fun i => (p i).1.1, fun i => (p i).1.2.1, fun i => by rw [hp]; exact hnext (p i)⟩, rfl, fun i => hcheck (p i)⟩

/-- **The progress rule.** -/
theorem progress [Preorder α] [WellFoundedLT α] {Ranked : σ → α → Prop} {W R : σ → ε → σ → Prop}
    (hrank : ∀ i, ∃ a, Ranked (r.state i) a)
    (hstep : ∀ i a, Ranked (r.state i) a → R (r.state i) (r.event i) (r.state (i + 1)) ∨
      ∃ a', a' ≤ a ∧ (W (r.state i) (r.event i) (r.state (i + 1)) → a' < a) ∧ Ranked (r.state (i + 1)) a')
    (hw : r.Often W) : r.Often R := by
  intro i
  by_contra hno
  have hno : ∀ j, i ≤ j → ¬ R (r.state j) (r.event j) (r.state (j + 1)) := fun j hj hr => hno ⟨j, hj, hr⟩
  -- from `i` on no state has a rank, by induction on the rank
  have hnone : ∀ a j, i ≤ j → ¬ Ranked (r.state j) a := by
    intro a
    induction a using WellFoundedLT.induction with
    | ind a ih =>
      intro j hj ha
      obtain ⟨k, hk, hwk⟩ := hw j
      have hkept : ∃ a', a' ≤ a ∧ Ranked (r.state k) a' := by
        clear hwk
        induction k, hk using Nat.le_induction with
        | base => exact ⟨a, le_rfl, ha⟩
        | succ k hk ihk =>
          obtain ⟨b, hb, hrb⟩ := ihk
          rcases hstep k b hrb with hr | ⟨c, hc, -, hrc⟩
          · exact absurd hr (hno k (by omega))
          · exact ⟨c, le_trans hc hb, hrc⟩
      obtain ⟨b, hb, hrb⟩ := hkept
      rcases hstep k b hrb with hr | ⟨c, -, hc, hrc⟩
      · exact hno k (by omega) hr
      · exact ih c (lt_of_lt_of_le (hc hwk) hb) (k + 1) (by omega) hrc
  obtain ⟨a, ha⟩ := hrank i
  exact hnone a i (Nat.le_refl i) ha

end Forever

end System

end SplitOrder
