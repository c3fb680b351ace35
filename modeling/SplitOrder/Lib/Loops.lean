/-
Calls that may end early, and loops of them.

`x >>= f` over `Except` is a call `x` and what follows it when it returns.
A loop `for (i = 0; i < n; ++i)` is a fold over `List.range n`; an
invariant that each turn takes from `i` to `i + 1` gives the loop's result,
and the turn at which it ends early.
-/
import Mathlib.Data.List.Basic

namespace SplitOrder

section Bind

variable {ε α β : Type} {x : Except ε α} {a : α} {e : ε} {f : α → Except ε β}

@[simp] theorem bind_ok : (Except.ok a >>= f) = f a := rfl

theorem bind_of_ok (h : x = .ok a) : (x >>= f) = f a := by
  rw [h, bind_ok]

@[simp] theorem bind_error : ((Except.error e : Except ε α) >>= f) = .error e := rfl

theorem bind_eq_ok {b : β} : (x >>= f) = .ok b ↔ ∃ a, x = .ok a ∧ f a = .ok b := by
  cases x with
  | ok a => simp [bind_ok]
  | error e => simp [bind_error]

theorem bind_eq_error : (x >>= f) = .error e ↔ x = .error e ∨ ∃ a, x = .ok a ∧ f a = .error e := by
  cases x with
  | ok a => simp [bind_ok]
  | error e => simp [bind_error]

end Bind

section Loop

variable {ε σ : Type} {f : σ → Nat → Except ε σ} {s : σ} {n : Nat}

theorem forRange_succ : (List.range (n + 1)).foldlM f s = (List.range n).foldlM f s >>= fun s' => f s' n := by
  rw [List.range_succ, List.foldlM_append]
  congr 1
  funext s'
  rw [List.foldlM_cons]
  cases f s' n <;> rfl

/-- **The loop rule.** Each turn returns and keeps the invariant. -/
theorem forRange_ok (I : Nat → σ → Prop) (h0 : I 0 s)
    (hstep : ∀ i < n, ∀ s, I i s → ∃ s', f s i = .ok s' ∧ I (i + 1) s') :
    ∃ s', (List.range n).foldlM f s = .ok s' ∧ I n s' := by
  induction n with
  | zero => exact ⟨s, rfl, h0⟩
  | succ n ih =>
    obtain ⟨s₁, h₁, hI⟩ := ih fun i hi => hstep i (Nat.lt_succ_of_lt hi)
    obtain ⟨s₂, h₂, hI'⟩ := hstep n (Nat.lt_succ_self n) s₁ hI
    refine ⟨s₂, ?_, hI'⟩
    rw [forRange_succ, h₁, bind_ok, h₂]

/-- What holds after a loop that returns. -/
theorem forRange_invariant {s' : σ} (I : Nat → σ → Prop) (h0 : I 0 s)
    (hstep : ∀ i < n, ∀ s s', I i s → f s i = .ok s' → I (i + 1) s') : (List.range n).foldlM f s = .ok s' → I n s' := by
  induction n generalizing s' with
  | zero =>
    intro h
    cases h
    exact h0
  | succ n ih =>
    intro h
    rw [forRange_succ] at h
    obtain ⟨s₁, h₁, h₂⟩ := bind_eq_ok.mp h
    exact hstep n (Nat.lt_succ_self n) s₁ s' (ih (fun i hi => hstep i (Nat.lt_succ_of_lt hi)) h₁) h₂

/-- A loop that ends early does so at some turn, with the invariant. -/
theorem forRange_error {e : ε} (I : Nat → σ → Prop) (h0 : I 0 s)
    (hstep : ∀ i < n, ∀ s s', I i s → f s i = .ok s' → I (i + 1) s') :
    (List.range n).foldlM f s = .error e → ∃ i < n, ∃ s', I i s' ∧ f s' i = .error e := by
  induction n with
  | zero =>
    intro h
    cases h
  | succ n ih =>
    intro h
    have hstep' : ∀ i < n, ∀ s s', I i s → f s i = .ok s' → I (i + 1) s' := fun i hi => hstep i (Nat.lt_succ_of_lt hi)
    rw [forRange_succ] at h
    rcases bind_eq_error.mp h with h | ⟨s₁, h₁, h₂⟩
    · obtain ⟨i, hi, s', hs'⟩ := ih hstep' h
      exact ⟨i, Nat.lt_succ_of_lt hi, s', hs'⟩
    · exact ⟨n, Nat.lt_succ_self n, s₁, forRange_invariant I h0 hstep' h₁, h₂⟩

end Loop

end SplitOrder
