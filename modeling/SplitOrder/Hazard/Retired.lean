/-
No retired object is lost, and none is reclaimed twice.
-/
import SplitOrder.Hazard.Blocks

namespace SplitOrder

namespace Hazard

section Events

variable {n : Nat} {σ : State n} {C : List Addr} {L : Fin n → List Addr}

/-- The objects in the places they may be in before they are reclaimed: the shared list `C`, what a thread holds
in its array or in the call it makes, and the private list of its `collect`. -/
def State.places (σ : State n) (C : List Addr) (L : Fin n → List Addr) : List Ptr :=
  C.map σ.domain.payload ++ (List.ofFn fun t => (σ.thread t).holds σ.domain ++ (L t).map σ.domain.payload).flatten

theorem State.count_places (p : Ptr) : (σ.places C L).count p = (C.map σ.domain.payload).count p +
    ∑ t, ((σ.thread t).holds σ.domain ++ (L t).map σ.domain.payload).count p := by
  rw [places, List.count_append, List.count_flatten, List.map_ofFn, List.sum_ofFn]
  rfl

theorem Inv.perm (h : Inv σ C L) : (σ.reclaimed ++ σ.places C L).Perm σ.retired := by
  refine List.perm_iff_count.mpr fun p => ?_
  rw [List.count_append, State.count_places, h.count p, Nat.add_assoc]

theorem Inv.once (h : Inv σ C L) (ho : Once σ) : (σ.places C L).Nodup ∧ 0 ∉ σ.places C L := by
  have hcount : ∀ p, (σ.places C L).count p ≤ if p = 0 then 0 else 1 := by
    intro p
    have h1 := h.count p
    have h2 := ho p
    rw [State.count_places]
    omega
  refine ⟨List.nodup_iff_count_le_one.mpr fun p => (hcount p).trans (by split <;> omega), fun hmem => ?_⟩
  have hpos := List.count_pos_iff.mpr hmem
  have := hcount 0
  rw [if_pos rfl] at this
  omega

/-- **No retired object is lost or reclaimed twice.** In every state of every
run of contexts with `S ≥ 1`, what has been retired is what has been
reclaimed and what is in the places it may be in, each object in one of
them once. No assertion fails; and when the domain is destroyed, after the
last context, the delete list is empty and all that was retired is reclaimed. -/
theorem retired_conserved (h : (machine n fun S => decide (0 < S)).Reachable σ) :
    (∃ C L, Seg σ.domain.next σ.domain.deleteHead C none ∧
      (∀ t, Seg σ.domain.next (σ.thread t).pc.localHead (L t) none) ∧
      (σ.reclaimed ++ σ.places C L).Perm σ.retired ∧ (σ.places C L).Nodup ∧ 0 ∉ σ.places C L) ∧
    (∀ t, (σ.thread t).pc ≠ .crashed) ∧
    ∀ t, (σ.thread t).pc.Emptied → σ.domain.deleteHead = none ∧ σ.reclaimed.Perm σ.retired := by
  obtain ⟨C, L, hI⟩ := reachable_inv h
  refine ⟨⟨C, L, hI.shared, hI.priv, hI.perm, hI.once (reachable_once h)⟩, fun t ht => ?_, fun t ht =>
    (reachable_closing h).reclaimed hI ht⟩
  have hk := ((reachable_blocks h).ok t).knows
  rw [ht] at hk
  exact hk

/-- A context deletes an object and is destroyed, and then the domain. -/
theorem retired_conserved_one :
    ∃ σ : State 1, (machine 1 fun S => decide (0 < S)).Reachable σ ∧ σ.retired = [8] ∧ (σ.thread 0).pc = .ended ∧
      σ.domain.deleteHead = none ∧ σ.reclaimed.Perm [8] := by
  have hrun : ((machine 1 fun S => decide (0 < S)).run { domain := Domain.fresh, thread := fun _ => {} }
      ([.call 0 (.create 1 2)] ++ List.replicate 11 (.step 0 1000) ++ [.call 0 (.deleteItem 8), .call 0 .destroy] ++
        List.replicate 57 (.step 0 1000) ++ [.close 0] ++ List.replicate 4 (.step 0 1000))).map
      (fun σ => (σ.retired, decide ((σ.thread 0).pc = .ended))) = some ([8], true) := by
    decide +kernel
  obtain ⟨σ, hσ, hfacts⟩ := Option.map_eq_some_iff.mp hrun
  simp only [Prod.mk.injEq, decide_eq_true_eq] at hfacts
  obtain ⟨hret, hpc⟩ := hfacts
  have hreach := System.run_reachable (.init rfl) hσ
  obtain ⟨-, -, hend⟩ := retired_conserved hreach
  obtain ⟨hhead, hperm⟩ := hend 0 (by rw [hpc]; trivial)
  exact ⟨σ, hreach, hret, hpc, hhead, hret ▸ hperm⟩

end Events

end Hazard

end SplitOrder
