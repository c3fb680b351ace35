/-
The array `deleted` of a `hazard_pointer_context`, and the loop of `reclaim`
that moves its items up.

An access outside the array, or a loop that does not end, gives nothing.
-/
import Mathlib.Data.List.Basic
import SplitOrder.Hazard.Pool

namespace SplitOrder

namespace Hazard

/-- `while(nullptr != deleted[ixd] && ixd < ixs) ++ixd` -/
def skipUp (a : List Ptr) (ixs : Nat) : Nat → Nat → Option Nat
  | 0, _ => none
  | fuel + 1, ixd =>
    match a[ixd]? with
    | none => none
    | some v => if v ≠ 0 ∧ ixd < ixs then skipUp a ixs fuel (ixd + 1) else some ixd

/-- `while(nullptr == deleted[ixs] && ixd < ixs) --ixs` -/
def skipDown (a : List Ptr) (ixd : Nat) : Nat → Nat → Option Nat
  | 0, _ => none
  | fuel + 1, ixs =>
    match a[ixs]? with
    | none => none
    | some v => if v = 0 ∧ ixd < ixs then skipDown a ixd fuel (ixs - 1) else some ixs

/-- The swap of the two entries, when there is one to fill and one to move. -/
def swapEnds (a : List Ptr) (ixd ixs : Nat) : Option (List Ptr × Nat × Nat) :=
  match a[ixs]?, a[ixd]? with
  | some s, some d =>
    if s ≠ 0 ∧ d = 0 then some ((a.set ixs d).set ixd s, ixd + 1, ixs - 1) else some (a, ixd, ixs)
  | _, _ => none

def compactLoop : Nat → List Ptr → Nat → Nat → Option (List Ptr)
  | 0, _, _, _ => none
  | fuel + 1, a, ixd, ixs =>
    if ixd < ixs then
      (skipUp a ixs (a.length + 1) ixd).bind fun ixd =>
        (skipDown a ixd (a.length + 1) ixs).bind fun ixs =>
          (swapEnds a ixd ixs).bind fun r => compactLoop fuel r.1 r.2.1 r.2.2
    else some a

/-- The items of `a` moved to the front. -/
def compact (a : List Ptr) : Option (List Ptr) := compactLoop (a.length + 1) a 0 (a.length - 1)

/-- The items are the first `m` entries. -/
def Dense (a : List Ptr) (m : Nat) : Prop := m ≤ a.length ∧ ∀ i v, a[i]? = some v → (v ≠ 0 ↔ i < m)

/-- The items of an array. -/
def itemsOf (a : List Ptr) : List Ptr := a.filter (· ≠ 0)

variable {a b : List Ptr} {i m ixd ixs fuel : Nat} {v : Ptr}

theorem skipUp_spec (hs : ixs < a.length) : ∀ fuel ixd, ixd ≤ ixs → ixs < ixd + fuel →
    ∃ k, skipUp a ixs fuel ixd = some k ∧ ixd ≤ k ∧ k ≤ ixs ∧ (∀ i v, ixd ≤ i → i < k → a[i]? = some v → v ≠ 0) ∧
      (k < ixs → a[k]? = some 0) := by
  intro fuel
  induction fuel with
  | zero => intro ixd h1 h2; omega
  | succ fuel ih =>
    intro ixd h1 h2
    have hlt : ixd < a.length := by omega
    unfold skipUp
    simp only [List.getElem?_eq_getElem hlt]
    by_cases hc : a[ixd] ≠ 0 ∧ ixd < ixs
    · rw [if_pos hc]
      obtain ⟨k, hk, h3, h4, h5, h6⟩ := ih (ixd + 1) (by omega) (by omega)
      refine ⟨k, hk, by omega, h4, fun i v hi hik hv => ?_, h6⟩
      rcases Nat.lt_or_eq_of_le hi with hi | rfl
      · exact h5 i v hi hik hv
      · rw [List.getElem?_eq_getElem hlt] at hv
        cases hv
        exact hc.1
    · rw [if_neg hc]
      refine ⟨ixd, rfl, Nat.le_refl _, h1, fun i v hi hik => by omega, fun hlt' => ?_⟩
      rw [List.getElem?_eq_getElem hlt]
      by_contra hne
      exact hc ⟨fun h => hne (by rw [h]), hlt'⟩

theorem skipDown_spec : ∀ fuel ixs, ixs < a.length → ixd ≤ ixs → ixs < ixd + fuel →
    ∃ k, skipDown a ixd fuel ixs = some k ∧ ixd ≤ k ∧ k ≤ ixs ∧ (∀ i v, k < i → i ≤ ixs → a[i]? = some v → v = 0) ∧
      (ixd < k → ∃ v, a[k]? = some v ∧ v ≠ 0) := by
  intro fuel
  induction fuel with
  | zero => intro ixs _ h1 h2; omega
  | succ fuel ih =>
    intro ixs hlt h1 h2
    unfold skipDown
    simp only [List.getElem?_eq_getElem hlt]
    by_cases hc : a[ixs] = 0 ∧ ixd < ixs
    · rw [if_pos hc]
      obtain ⟨k, hk, h3, h4, h5, h6⟩ := ih (ixs - 1) (by omega) (by omega) (by omega)
      refine ⟨k, hk, h3, by omega, fun i v hi hik hv => ?_, h6⟩
      rcases Nat.lt_or_eq_of_le hik with hi' | rfl
      · exact h5 i v hi (by omega) hv
      · rw [List.getElem?_eq_getElem hlt] at hv
        cases hv
        exact hc.1
    · rw [if_neg hc]
      refine ⟨ixs, rfl, h1, Nat.le_refl _, fun i v hi hik => by omega,
        fun hlt' => ⟨_, List.getElem?_eq_getElem hlt, ?_⟩⟩
      intro hz
      exact hc ⟨hz, hlt'⟩

/-- What holds at each turn: items before `ixd`, none after `ixs`. -/
structure Placed (a : List Ptr) (ixd ixs : Nat) : Prop where
  before : ∀ i v, i < ixd → a[i]? = some v → v ≠ 0
  after : ∀ i v, ixs < i → a[i]? = some v → v = 0

theorem Placed.dense (h : Placed a ixd ixs) (hle : ixs ≤ ixd) (hd : ixd ≤ a.length) : ∃ m, Dense a m := by
  -- the entry in the middle may be either
  cases hv : a[ixd]? with
  | none =>
    have hlen : ixd = a.length := by
      have := List.getElem?_eq_none_iff.mp hv
      omega
    refine ⟨ixd, hd, fun i v hiv => ?_⟩
    obtain ⟨hi, -⟩ := List.getElem?_eq_some_iff.mp hiv
    exact ⟨fun _ => by omega, fun hi => h.before i v hi hiv⟩
  | some w =>
    obtain ⟨hi, -⟩ := List.getElem?_eq_some_iff.mp hv
    by_cases hw : w = 0
    · refine ⟨ixd, hd, fun i v hiv => ⟨fun hne => ?_, fun hi => h.before i v hi hiv⟩⟩
      by_contra hge
      rcases Nat.lt_or_eq_of_le (Nat.le_of_not_lt hge) with hlt | rfl
      · exact hne (h.after i v (by omega) hiv)
      · rw [hv] at hiv
        cases hiv
        exact hne hw
    · refine ⟨ixd + 1, hi, fun i v hiv => ⟨fun hne => ?_, fun hlt => ?_⟩⟩
      · by_contra hge
        exact hne (h.after i v (by omega) hiv)
      · rcases Nat.lt_or_eq_of_le (Nat.lt_succ_iff.mp hlt) with hlt | rfl
        · exact h.before i v hlt hiv
        · rw [hv] at hiv
          cases hiv
          exact hw

/-- The swap keeps the entries and puts one more in place at each end. -/
theorem swapEnds_spec (hlt : ixd < ixs) (hd : a[ixd]? = some 0) (hs : a[ixs]? = some v) (hv : v ≠ 0)
    (hb : ∀ i w, i < ixd → a[i]? = some w → w ≠ 0) (ha : ∀ i w, ixs < i → a[i]? = some w → w = 0) :
    ∃ b, swapEnds a ixd ixs = some (b, ixd + 1, ixs - 1) ∧ b.Perm a ∧ Placed b (ixd + 1) (ixs - 1) := by
  obtain ⟨hdl, hde⟩ := List.getElem?_eq_some_iff.mp hd
  obtain ⟨hsl, hse⟩ := List.getElem?_eq_some_iff.mp hs
  refine ⟨(a.set ixs 0).set ixd v, ?_, ?_, ⟨fun i w hi hw => ?_, fun i w hi hw => ?_⟩⟩
  · simp only [swapEnds, hd, hs]
    rw [if_pos ⟨hv, trivial⟩]
  · have hp : ((a.set ixs (a[ixd])).set ixd (a[ixs])).Perm a := List.set_set_perm hsl hdl
    rwa [hde, hse] at hp
  · rcases Nat.lt_or_eq_of_le (Nat.lt_succ_iff.mp hi) with hi | rfl
    · rw [List.getElem?_set_ne (by omega), List.getElem?_set_ne (by omega)] at hw
      exact hb i w hi hw
    · rw [List.getElem?_set_self (by simpa using hdl)] at hw
      cases hw
      exact hv
  · rw [List.getElem?_set_ne (by omega)] at hw
    rcases Nat.lt_or_eq_of_le (show ixs ≤ i by omega) with hi | rfl
    · rw [List.getElem?_set_ne (by omega)] at hw
      exact ha i w hi hw
    · rw [List.getElem?_set_self hsl] at hw
      cases hw
      rfl

theorem compactLoop_spec : ∀ fuel a ixd ixs,
    ixs < a.length → ixd ≤ ixs + 1 → ixs < ixd + fuel → 0 < fuel → Placed a ixd ixs →
    ∃ b, compactLoop fuel a ixd ixs = some b ∧ b.Perm a ∧ ∃ m, Dense b m := by
  intro fuel
  induction fuel with
  | zero =>
    intro a ixd ixs _ _ _ h
    omega
  | succ fuel ih =>
    intro a ixd ixs h1 h2 h3 _ h4
    unfold compactLoop
    by_cases hlt : ixd < ixs
    · rw [if_pos hlt]
      obtain ⟨k, hk, hk1, hk2, hk3, hk4⟩ := skipUp_spec h1 (a.length + 1) ixd (by omega) (by omega)
      obtain ⟨m, hm, hm1, hm2, hm3, hm4⟩ := skipDown_spec (a.length + 1) ixs h1 hk2 (by omega)
      rw [hk, Option.bind_some, hm, Option.bind_some]
      have hbefore : ∀ i w, i < k → a[i]? = some w → w ≠ 0 := by
        intro i w hi hw
        by_cases hid : i < ixd
        · exact h4.before i w hid hw
        · exact hk3 i w (by omega) hi hw
      have hafter : ∀ i w, m < i → a[i]? = some w → w = 0 := by
        intro i w hi hw
        by_cases his : i ≤ ixs
        · exact hm3 i w hi his hw
        · exact h4.after i w (by omega) hw
      rcases Nat.lt_or_eq_of_le hm1 with hkm | rfl
      · obtain ⟨v, hv, hv0⟩ := hm4 hkm
        obtain ⟨b, hb, hperm, hplaced⟩ := swapEnds_spec hkm (hk4 (by omega)) hv hv0 hbefore hafter
        rw [hb, Option.bind_some]
        have hlen := hperm.length_eq
        obtain ⟨b', hb', hperm', hdense⟩ := ih b (k + 1) (m - 1) (by omega) (by omega) (by omega) (by omega) hplaced
        exact ⟨b', hb', hperm'.trans hperm, hdense⟩
      · have hkl : k < a.length := by omega
        have hsame : swapEnds a k k = some (a, k, k) := by
          simp only [swapEnds, List.getElem?_eq_getElem hkl]
          rw [if_neg fun h => h.1 h.2]
        rw [hsame, Option.bind_some]
        exact ih a k k hkl (by omega) (by omega) (by omega) ⟨hbefore, hafter⟩
    · rw [if_neg hlt]
      exact ⟨a, rfl, .refl a, h4.dense (by omega) (by omega)⟩

/-- **The loop moves the items up** and keeps them. -/
theorem compact_spec (ha : a ≠ []) : ∃ b, compact a = some b ∧ b.Perm a ∧ ∃ m, Dense b m := by
  have hlen := List.length_pos_iff.mpr ha
  exact compactLoop_spec _ a 0 _ (by omega) (by omega) (by omega) (by omega)
    ⟨fun i v hi => by omega, fun i v hi hv => by
      obtain ⟨h, -⟩ := List.getElem?_eq_some_iff.mp hv
      omega⟩

/-! ## Dense arrays -/

theorem Dense.cons {x : Ptr} (h : Dense (x :: a) (m + 1)) : x ≠ 0 ∧ Dense a m := by
  refine ⟨(h.2 0 x rfl).mpr (by omega), by simpa using h.1, fun i v hv => ?_⟩
  exact (h.2 (i + 1) v hv).trans Nat.succ_lt_succ_iff

theorem Dense.items_nil : ∀ {a : List Ptr}, Dense a 0 → itemsOf a = []
  | [], _ => rfl
  | x :: a, h => by
    have hx : x = 0 := by
      by_contra hx
      exact absurd ((h.2 0 x rfl).mp hx) (by omega)
    have ha : Dense a 0 := ⟨Nat.zero_le _, fun i v hv => ⟨fun hne => absurd ((h.2 (i + 1) v hv).mp hne) (by omega),
      fun hi => by omega⟩⟩
    subst hx
    simpa [itemsOf] using Dense.items_nil ha

theorem Dense.length_items : ∀ {a : List Ptr} {m}, Dense a m → (itemsOf a).length = m
  | a, 0, h => by rw [Dense.items_nil h, List.length_nil]
  | [], m + 1, h => absurd h.1 (by simp)
  | x :: a, m + 1, h => by
    obtain ⟨hx, ha⟩ := h.cons
    have hc : itemsOf (x :: a) = x :: itemsOf a := List.filter_cons_of_pos (by simpa using hx)
    rw [hc, List.length_cons, Dense.length_items ha]

theorem Dense.take_eq : ∀ {a : List Ptr} {m}, Dense a m → a.take m = itemsOf a
  | a, 0, h => by rw [Dense.items_nil h, List.take_zero]
  | [], m + 1, h => absurd h.1 (by simp)
  | x :: a, m + 1, h => by
    obtain ⟨hx, ha⟩ := h.cons
    have hc : itemsOf (x :: a) = x :: itemsOf a := List.filter_cons_of_pos (by simpa using hx)
    rw [hc, List.take_succ_cons, Dense.take_eq ha]

/-- An item put behind the others. -/
theorem Dense.push (h : Dense a m) (hm : m < a.length) (hv : v ≠ 0) : Dense (a.set m v) (m + 1) := by
  refine ⟨by rw [List.length_set]; exact hm, fun i w hw => ?_⟩
  by_cases hi : m = i
  · subst hi
    rw [List.getElem?_set_self hm] at hw
    cases hw
    exact ⟨fun _ => by omega, fun _ => hv⟩
  · rw [List.getElem?_set_ne hi] at hw
    rw [h.2 i w hw]
    omega

theorem Dense.replicate (n : Nat) : Dense (List.replicate n 0) 0 := by
  refine ⟨Nat.zero_le _, fun i v hv => ?_⟩
  have hz : v = 0 := by
    have := List.mem_of_getElem? hv
    exact List.eq_of_mem_replicate this
  exact ⟨fun h => absurd hz h, fun h => by omega⟩

theorem compact_dense (ha : a ≠ []) : ∃ b, compact a = some b ∧ b.Perm a ∧ Dense b (itemsOf a).length := by
  obtain ⟨b, hb, hperm, m, hm⟩ := compact_spec ha
  refine ⟨b, hb, hperm, ?_⟩
  have hlen := hm.length_items
  have hitems : (itemsOf b).length = (itemsOf a).length := (hperm.filter _).length_eq
  rw [← hitems, hlen]
  exact hm

end Hazard

end SplitOrder
