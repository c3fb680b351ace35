/-
Transition systems: what a run is, which states it reaches, and the rules
the invariants of this development are proved with.

A system is its initial states and a step function: the state after an
event, or nothing when the event is not enabled. A restriction `ok` on
steps (a condition on the state before the step and on the event) cuts the
runs down to those whose steps all meet it.
-/
import Mathlib.Logic.Relation

namespace SplitOrder

structure System (σ ε : Type*) where
  init : σ → Prop
  next : σ → ε → Option σ

namespace System

variable {σ ε : Type*} {M : System σ ε} {ok : σ → ε → Prop}

/-- The states of the runs whose every step meets `ok`. -/
inductive ReachableBy (M : System σ ε) (ok : σ → ε → Prop) : σ → Prop
  | init {s} : M.init s → ReachableBy M ok s
  | step {s e s'} : ReachableBy M ok s → ok s e → M.next s e = some s' → ReachableBy M ok s'

/-- The states of all runs. -/
abbrev Reachable (M : System σ ε) : σ → Prop := M.ReachableBy fun _ _ => True

theorem ReachableBy.reachable {s} (h : M.ReachableBy ok s) : M.Reachable s := by
  induction h with
  | init h => exact .init h
  | step _ _ hn ih => exact .step ih trivial hn

theorem ReachableBy.mono {ok' : σ → ε → Prop} {s} (h : M.ReachableBy ok s)
    (hok : ∀ s e, M.ReachableBy ok s → ok s e → ok' s e) : M.ReachableBy ok' s := by
  induction h with
  | init h => exact .init h
  | step hr hs hn ih => exact .step ih (hok _ _ hr hs) hn

/-- **The invariant rule.** What holds initially and is kept by every step
the runs take holds of every state they reach. -/
theorem ReachableBy.invariant {I : σ → Prop} (hinit : ∀ s, M.init s → I s)
    (hstep : ∀ s e s', I s → ok s e → M.next s e = some s' → I s') {s} (h : M.ReachableBy ok s) :
    I s := by
  induction h with
  | init h => exact hinit _ h
  | step _ hs hn ih => exact hstep _ _ _ ih hs hn

/-! ## Stretches of a run -/

/-- A stretch of a run from `s` all of whose states satisfy `P`. -/
inductive Within (M : System σ ε) (P : σ → Prop) (s : σ) : σ → Prop
  | refl : P s → Within M P s s
  | step {t e t'} : Within M P s t → M.next t e = some t' → P t' → Within M P s t'

theorem Within.last {P : σ → Prop} {s t} (h : M.Within P s t) : P t := by
  cases h with
  | refl h => exact h
  | step _ _ h => exact h

/-- An invariant of the states of a stretch, which may use `P` of both ends
of each step. -/
theorem Within.invariant {P I : σ → Prop} {s t} (h : M.Within P s t) (hs : I s)
    (hstep : ∀ s e s', I s → P s → P s' → M.next s e = some s' → I s') : I t := by
  induction h with
  | refl _ => exact hs
  | step hw hn hp ih => exact hstep _ _ _ ih hw.last hp hn

theorem Within.reachable {P : σ → Prop} {s t} (h : M.Within P s t) (hs : M.Reachable s) : M.Reachable t := by
  induction h with
  | refl _ => exact hs
  | step _ hn _ ih => exact .step ih trivial hn

/-! ## Running a list of events -/

/-- The state after the events of a list, when each is enabled in turn. -/
def run (M : System σ ε) : σ → List ε → Option σ
  | s, [] => some s
  | s, e :: es => (M.next s e).bind (M.run · es)

@[simp] theorem run_nil {s} : M.run s [] = some s := rfl

theorem run_cons {s e es} : M.run s (e :: es) = (M.next s e).bind (M.run · es) := rfl

theorem run_reachable : ∀ {es : List ε} {s s' : σ}, M.Reachable s → M.run s es = some s' → M.Reachable s'
  | [], _, _, hs, h => by simp at h; exact h ▸ hs
  | e :: es, s, s', hs, h => by
    rw [run_cons] at h
    obtain ⟨s₁, h₁, h₂⟩ := Option.bind_eq_some_iff.mp h
    exact run_reachable (.step hs trivial h₁) h₂

/-- The same, as long as each step passes a check. -/
def runIf (M : System σ ε) (check : σ → ε → Bool) : σ → List ε → Option σ
  | s, [] => some s
  | s, e :: es => if check s e then (M.next s e).bind (M.runIf check · es) else none

/-- A run whose checks imply `ok` is one of the runs of `ReachableBy`. -/
theorem runIf_reachableBy {check : σ → ε → Bool} (hok : ∀ s e, check s e = true → ok s e) :
    ∀ {es : List ε} {s s' : σ}, M.ReachableBy ok s → M.runIf check s es = some s' → M.ReachableBy ok s'
  | [], _, _, hs, h => by cases h; exact hs
  | e :: es, s, s', hs, h => by
    simp only [runIf] at h
    split at h
    · obtain ⟨s₁, h₁, h₂⟩ := Option.bind_eq_some_iff.mp h
      exact runIf_reachableBy hok (.step hs (hok s e ‹_›) h₁) h₂
    · cases h

/-- A run whose checks imply `P` is a stretch on which `P` holds. -/
theorem runIf_within {check : σ → ε → Bool} {P : σ → Prop} (hP : ∀ s e, check s e = true → P s) {s₀ : σ} :
    ∀ {es : List ε} {s s' : σ}, M.Within P s₀ s → M.runIf check s es = some s' → P s' → M.Within P s₀ s'
  | [], _, _, hw, h, _ => by cases h; exact hw
  | e :: es, s, s', hw, h, hp => by
    simp only [runIf] at h
    split at h
    · obtain ⟨s₁, h₁, h₂⟩ := Option.bind_eq_some_iff.mp h
      refine runIf_within hP (.step hw h₁ ?_) h₂ hp
      cases es with
      | nil =>
        cases h₂
        exact hp
      | cons e' es =>
        simp only [runIf] at h₂
        split at h₂
        · exact hP s₁ e' ‹_›
        · cases h₂
    · cases h

end System

end SplitOrder
