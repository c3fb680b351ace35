/-
Linearizable histories.

A history is what is seen of the calls on an object: where each starts, and
what it returns. It is linearizable when it is one of the atomic object,
whose calls take effect all at once, each at a moment between its start and
its return.

A call that changes nothing may find out late: what it returns was the right
answer at some moment since it started, which the code knows only when the
moment has gone. `Lately` are the histories of an object whose calls may be
answered in that way; they are linearizable too, because such a call can be
put back at its moment.
-/
import Mathlib.Data.Fintype.Basic
import Mathlib.Data.Finset.Piecewise
import Mathlib.Data.Set.Insert

namespace SplitOrder

variable {ι κ ρ σ : Type*}

/-- What is seen of the calls on an object. -/
inductive Seen (ι κ ρ : Type*)
  | call (t : ι) (op : κ)
  | ret (t : ι) (r : ρ)
  deriving DecidableEq

/-- How far a thread is with its call of an atomic object. -/
inductive Phase (κ ρ : Type*)
  | idle
  | called (op : κ)
  | done (r : ρ)

/-- The histories of the atomic object, with the state and the calls they end in. -/
inductive Atomically [DecidableEq ι] (apply : σ → κ → ρ × σ) (s₀ : σ) :
    List (Seen ι κ ρ) → σ → (ι → Phase κ ρ) → Prop
  | start : Atomically apply s₀ [] s₀ fun _ => .idle
  | call {H s ph t} (op : κ) : Atomically apply s₀ H s ph → ph t = .idle →
      Atomically apply s₀ (H ++ [.call t op]) s (Function.update ph t (.called op))
  | effect {H s ph t op} : Atomically apply s₀ H s ph → ph t = .called op →
      Atomically apply s₀ H (apply s op).2 (Function.update ph t (.done (apply s op).1))
  | ret {H s ph t r} : Atomically apply s₀ H s ph → ph t = .done r →
      Atomically apply s₀ (H ++ [.ret t r]) s (Function.update ph t .idle)

/-- How far a thread is with a call that may be answered late: `states` are those of the object since it started. -/
inductive Since (κ ρ σ : Type*)
  | idle
  | called (op : κ) (states : Set σ)
  | done (r : ρ)

/-- The object comes to the state `s`. -/
def Since.seeing (s : σ) : Since κ ρ σ → Since κ ρ σ
  | .idle => .idle
  | .called op states => .called op (insert s states)
  | .done r => .done r

/-- The histories of an object whose calls may be answered late. -/
inductive Lately [DecidableEq ι] (apply : σ → κ → ρ × σ) (s₀ : σ) : List (Seen ι κ ρ) → σ → (ι → Since κ ρ σ) → Prop
  | start : Lately apply s₀ [] s₀ fun _ => .idle
  | call {H s ph t op} : Lately apply s₀ H s ph → ph t = .idle →
      Lately apply s₀ (H ++ [.call t op]) s (Function.update ph t (.called op {s}))
  | effect {H s ph t op states} : Lately apply s₀ H s ph → ph t = .called op states →
      Lately apply s₀ H (apply s op).2
        (Function.update (fun u => (ph u).seeing (apply s op).2) t (.done (apply s op).1))
  | ret {H s ph t r} : Lately apply s₀ H s ph → ph t = .done r →
      Lately apply s₀ (H ++ [.ret t r]) s (Function.update ph t .idle)
  | late {H s ph t op states m r} : Lately apply s₀ H s ph → ph t = .called op states → m ∈ states →
      apply m op = (r, m) → Lately apply s₀ (H ++ [.ret t r]) s (Function.update ph t .idle)

section

variable [DecidableEq ι] {apply : σ → κ → ρ × σ} {s₀ s : σ} {H : List (Seen ι κ ρ)}

/-- Calls that change nothing take effect together. -/
theorem Atomically.answer [Fintype ι] {ph ph' : ι → Phase κ ρ} (h : Atomically apply s₀ H s ph)
    (hph : ∀ u, ph' u = ph u ∨ ∃ op r, ph u = .called op ∧ ph' u = .done r ∧ apply s op = (r, s)) :
    Atomically apply s₀ H s ph' := by
  have hsome : ∀ F : Finset ι, Atomically apply s₀ H s (F.piecewise ph' ph) := by
    intro F
    induction F using Finset.induction with
    | empty => simpa using h
    | insert u F hu ih =>
      have hold : F.piecewise ph' ph u = ph u := Finset.piecewise_eq_of_notMem _ _ _ hu
      rw [Finset.piecewise_insert]
      obtain he | ⟨op, r, hcalled, hdone, happly⟩ := hph u
      · rwa [he, ← hold, Function.update_eq_self]
      · have heff := Atomically.effect ih (hold.trans hcalled)
        rwa [happly, ← hdone] at heff
  simpa using hsome Finset.univ

/-- A phase of the atomic object for a call that may be answered late: it
waits, or has taken effect in one of the states it saw. -/
inductive Answers (apply : σ → κ → ρ × σ) : Since κ ρ σ → Phase κ ρ → Prop
  | idle : Answers apply .idle .idle
  | waiting {op states} : Answers apply (.called op states) (.called op)
  | answered {op states m r} : m ∈ states → apply m op = (r, m) → Answers apply (.called op states) (.done r)
  | done {r} : Answers apply (.done r) (.done r)

theorem Answers.update {ph : ι → Since κ ρ σ} {ph' : ι → Phase κ ρ} {t : ι} {x : Since κ ρ σ} {y : Phase κ ρ}
    (h : ∀ u, u ≠ t → Answers apply (ph u) (ph' u)) (ht : Answers apply x y) (hx : ph t = x) (u : ι) :
    Answers apply (ph u) (Function.update ph' t y u) := by
  by_cases hu : u = t
  · rw [hu, Function.update_self, hx]
    exact ht
  · rw [Function.update_of_ne hu]
    exact h u hu

/-- Before the object came to `s`, the call had been answered, or it waits for `s`. -/
theorem Answers.before {x : Since κ ρ σ} {y : Phase κ ρ} (h : Answers apply (x.seeing s) y) :
    ∃ y₀, Answers apply x y₀ ∧
      (y = y₀ ∨ ∃ op r, y₀ = .called op ∧ y = .done r ∧ apply s op = (r, s)) := by
  cases x with
  | idle =>
    cases h
    exact ⟨_, .idle, .inl rfl⟩
  | done r =>
    cases h
    exact ⟨_, .done, .inl rfl⟩
  | called op states =>
    cases h with
    | waiting => exact ⟨_, .waiting, .inl rfl⟩
    | answered hm happly =>
      obtain rfl | hm := Set.mem_insert_iff.mp hm
      · exact ⟨_, .waiting, .inr ⟨op, _, rfl, rfl, happly⟩⟩
      · exact ⟨_, .answered hm happly, .inl rfl⟩

/-- A thread's return, put back from the phases after it. -/
theorem Atomically.returned {ph : ι → Since κ ρ σ} {ph' : ι → Phase κ ρ} {t : ι} {r : ρ}
    (ih : ∀ ph', (∀ u, Answers apply (ph u) (ph' u)) → Atomically apply s₀ H s ph')
    (hans : ∀ u, Answers apply (Function.update ph t .idle u) (ph' u)) (ht : Answers apply (ph t) (.done r)) :
    Atomically apply s₀ (H ++ [.ret t r]) s ph' := by
  have hidle : ph' t = .idle := by
    have := hans t
    rw [Function.update_self] at this
    generalize ph' t = y at this
    cases this
    rfl
  have hrest : ∀ u, u ≠ t → Answers apply (ph u) (ph' u) := by
    intro u hu
    have := hans u
    rwa [Function.update_of_ne hu] at this
  have hret := Atomically.ret (ih _ (Answers.update hrest ht rfl)) (Function.update_self ..)
  rwa [Function.update_idem, ← hidle, Function.update_eq_self] at hret

/-- **Late answers are linearizable**: whichever of the calls in progress are
taken to have been answered, the history is one of the atomic object. -/
theorem Lately.atomically [Fintype ι] {ph : ι → Since κ ρ σ} (h : Lately apply s₀ H s ph) :
    ∀ ph' : ι → Phase κ ρ, (∀ u, Answers apply (ph u) (ph' u)) → Atomically apply s₀ H s ph' := by
  induction h with
  | start =>
    intro ph' hans
    have hidle : ph' = fun _ => .idle := by
      funext u
      have := hans u
      generalize ph' u = y at this
      cases this
      rfl
    rw [hidle]
    exact .start
  | @call H s ph t op _ hidle ih =>
    intro ph' hans
    have hrest : ∀ u, u ≠ t → Answers apply (ph u) (ph' u) := by
      intro u hu
      have := hans u
      rwa [Function.update_of_ne hu] at this
    have hcall := (ih _ (Answers.update hrest .idle hidle)).call op (Function.update_self ..)
    rw [Function.update_idem] at hcall
    refine hcall.answer fun u => ?_
    by_cases hu : u = t
    · -- the call may be answered in the state it starts in
      have := hans t
      rw [Function.update_self] at this
      rw [hu, Function.update_self]
      cases ht : ph' t with
      | idle =>
        rw [ht] at this
        cases this
      | called op' =>
        rw [ht] at this
        cases this
        exact .inl rfl
      | done r =>
        rw [ht] at this
        cases this with
        | answered hm happly =>
          rw [Set.mem_singleton_iff.mp hm] at happly
          exact .inr ⟨op, r, rfl, rfl, happly⟩
    · rw [Function.update_of_ne hu]
      exact .inl rfl
  | @effect H s ph t op states _ hcalled ih =>
    intro ph' hans
    have hbefore : ∀ u, ∃ y₀, (u ≠ t → Answers apply (ph u) y₀) ∧ (u ≠ t → ph' u = y₀ ∨ ∃ op' r,
        y₀ = .called op' ∧ ph' u = .done r ∧ apply (apply s op).2 op' = (r, (apply s op).2)) := by
      intro u
      by_cases hu : u = t
      · exact ⟨.idle, fun h => absurd hu h, fun h => absurd hu h⟩
      · have := hans u
        rw [Function.update_of_ne hu] at this
        obtain ⟨y₀, hy₀, hy⟩ := Answers.before this
        exact ⟨y₀, fun _ => hy₀, fun _ => hy⟩
    choose ph₀ hph₀ hph' using hbefore
    have heff := Atomically.effect (ih _ (Answers.update hph₀ .waiting hcalled)) (Function.update_self ..)
    rw [Function.update_idem] at heff
    refine heff.answer fun u => ?_
    by_cases hu : u = t
    · have := hans t
      rw [Function.update_self] at this
      rw [hu, Function.update_self]
      cases ht : ph' t <;> rw [ht] at this <;> cases this
      exact .inl rfl
    · rw [Function.update_of_ne hu]
      exact hph' u hu
  | @ret H s ph t r _ hdone ih =>
    intro ph' hans
    exact .returned ih hans (hdone ▸ .done)
  | @late H s ph t op states m r _ hcalled hm happly ih =>
    intro ph' hans
    exact .returned ih hans (hcalled ▸ .answered hm happly)

end

end SplitOrder
