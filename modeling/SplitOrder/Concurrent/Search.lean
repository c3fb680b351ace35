/-
Where a search of the list ends, if nobody disturbs it.

`Walks` is the loop of `find_node` as a relation on accessors. From a node of
the chain it ends at the `Last` node that is not above the key.
-/
import SplitOrder.Concurrent.Steps

namespace SplitOrder

namespace Concurrent

open Heap

variable {T : Type}

/-- The loop of `find_node` takes the accessor from `a` to `a'`. -/
inductive Walks (s : Solist T) (key : SoKey) : Accessor → Accessor → Prop
  | stop {a} : (∀ x, a.next = some x → key < s.heap.key x) → Walks s key a a
  | turn {a a' x} : a.next = some x → s.heap.key x ≤ key →
      Walks s key { advanceTo s a x with steps := a.steps + 1 } a' → Walks s key a a'

/-- The last node of the chain with a key of at most `key`. -/
structure Last (s : Solist T) (key : SoKey) (c : Addr) : Prop where
  onChain : OnChain s c
  le : s.heap.key c ≤ key
  next : ∀ x, s.heap.nextOf c = some x → key < s.heap.key x

variable {s : Solist T} {l r : List Addr} {a a' : Accessor} {key : SoKey}

theorem Walks.congr {s' : Solist T} (h : Walks s key a a') (hk : s'.heap.key = s.heap.key)
    (hn : s'.heap.nextOf = s.heap.nextOf) : Walks s' key a a' := by
  induction h with
  | stop h => exact .stop (by rwa [hk])
  | turn hx hle _ ih =>
    refine .turn hx (by rwa [hk]) ?_
    simpa [advanceTo, hn] using ih

/-- What a search from published nodes does is an induction: the keys go up. -/
theorem next_induction (hm : Mem s l r) {P : Accessor → Prop}
    (turn : ∀ a, NextKnown l r a → (∀ x a', a.next = some x → a'.next = s.heap.nextOf x → P a') → P a)
    (ha : NextKnown l r a) : P a := by
  have key : ∀ n a, NextKnown l r a → (∀ x, a.next = some x → 2 ^ 32 - (s.heap.key x).toNat < n) → P a := by
    intro n
    induction n with
    | zero =>
      intro a ha hn
      exact turn a ha fun x _ hx => by
        have := hn x hx
        omega
    | succ n ih =>
      intro a ha hn
      refine turn a ha fun x a' hx ha' => ih a' (fun y hy => ?_) fun y hy => ?_
      · rw [ha'] at hy
        exact (hm.mesh.next_mem (ha x hx) hy).1
      · rw [ha'] at hy
        have h1 := (hm.mesh.next_mem (ha x hx) hy).2
        have h2 := hn x hx
        have h3 := (s.heap.key y).isLt
        rw [BitVec.lt_def] at h1
        omega
  exact key (2 ^ 32 + 1) a ha fun x _ => by omega

/-- A search from published nodes ends. -/
theorem walks_total (hm : Mem s l r) (ha : NextKnown l r a) : ∃ a', Walks s key a a' := by
  refine next_induction (P := fun a => ∃ a', Walks s key a a') hm (fun a ha ih => ?_) ha
  cases hx : a.next with
  | none => exact ⟨a, .stop fun x hx' => by simp [hx] at hx'⟩
  | some x =>
    by_cases hle : s.heap.key x ≤ key
    · obtain ⟨a', h⟩ := ih x { advanceTo s a x with steps := a.steps + 1 } hx rfl
      exact ⟨a', .turn hx hle h⟩
    · refine ⟨a, .stop fun y hy => ?_⟩
      rw [hx] at hy
      cases hy
      exact BitVec.not_le.mp hle

/-- Where a search ends that stands on published nodes, `cur` not above the key. -/
theorem Walks.known (h : Walks s key a a') (hm : Mem s l r) (hc : CurLe s l r a key)
    (hp : PrevKnown l r a) (hn : NextKnown l r a) :
    CurLe s l r a' key ∧ PrevKnown l r a' ∧ NextAbove s l r a' key := by
  induction h with
  | stop h => exact ⟨hc, hp, fun x hx => ⟨hn x hx, h x hx⟩⟩
  | turn hx hle _ ih =>
    obtain ⟨c, hc, hcl, -⟩ := hc
    exact ih ⟨_, rfl, hn _ hx, hle⟩ ⟨c, hc, hcl⟩ fun y hy => (hm.mesh.next_mem (hn _ hx) hy).1

/-- A search from a node of the chain ends at the last node that is not
above the key, with its predecessor in `prev`. -/
theorem Walks.last (h : Walks s key a a') (hm : Mem s l r) {c : Addr} (hc : a.cur = some c)
    (hcl : c ∈ l) (hck : s.heap.key c ≤ key) (hn : a.next = s.heap.nextOf c) :
    ∃ c', a'.cur = some c' ∧ Last s key c' ∧ a'.next = s.heap.nextOf c' ∧
      (c' = c ∧ a'.prev = a.prev ∨ ∃ p, a'.prev = some p ∧ p ∈ l ∧ s.heap.nextOf p = some c') := by
  induction h generalizing c with
  | stop h =>
    refine ⟨c, hc, ⟨hm.onChain_iff.mpr hcl, hck, fun x hx => h x (hn.trans hx)⟩, hn, .inl ⟨rfl, rfl⟩⟩
  | @turn a a' x hx hle hw ih =>
    rw [hn] at hx
    have hxl : x ∈ l := by
      obtain ⟨A, B, rfl⟩ := List.append_of_mem hcl
      rw [hm.mesh.seg.next] at hx
      simp [List.mem_of_head? hx]
    obtain ⟨c', h1, h2, h3, h4⟩ := ih (c := x) rfl hxl hle rfl
    refine ⟨c', h1, h2, h3, .inr ?_⟩
    rcases h4 with ⟨rfl, hprev⟩ | h4
    · exact ⟨c, hprev.trans hc, hcl, hx⟩
    · exact h4

theorem Last.key_le {c x : Addr} (h : Last s key c) (hm : Mem s l r) (hx : x ∈ l) (hk : s.heap.key x ≤ key) :
    s.heap.key x ≤ s.heap.key c := by
  obtain ⟨A, B, rfl⟩ := List.append_of_mem (hm.onChain_iff.mp h.onChain)
  simp only [List.mem_append, List.mem_cons] at hx
  rcases hx with hx | rfl | hx
  · exact BitVec.le_of_lt ((List.pairwise_append.mp hm.mesh.sorted).2.2 x hx c (by simp))
  · exact BitVec.le_refl _
  · cases B with
    | nil => cases hx
    | cons y B =>
      have hy := h.next y hm.mesh.seg.next
      rcases List.mem_cons.mp hx with rfl | hx
      · exact absurd hk (BitVec.not_le.mpr hy)
      · have hmesh := hm.mesh
        rw [List.append_cons] at hmesh
        exact absurd hk (BitVec.not_le.mpr (BitVec.lt_trans hy (hmesh.lt_of_mem_right hx)))

/-- There is one last node below a key. -/
theorem Last.unique {c c' : Addr} (h : Last s key c) (h' : Last s key c') (hm : Mem s l r) : c = c' := by
  have hc := hm.onChain_iff.mp h.onChain
  have hc' := hm.onChain_iff.mp h'.onChain
  refine hm.mesh.eq_of_key_eq hc hc' (BitVec.le_antisymm ?_ ?_)
  · exact h'.key_le hm hc h.le
  · exact h.key_le hm hc' h'.le

/-- The node with the key itself is the last. -/
theorem Last.of_key {c : Addr} (hm : Mem s l r) (hc : c ∈ l) (hk : s.heap.key c = key) : Last s key c := by
  refine ⟨hm.onChain_iff.mpr hc, by rw [hk]; exact BitVec.le_refl _, fun x hx => ?_⟩
  rw [← hk]
  exact (hm.mesh.next_mem (by simp [hc]) hx).2

/-- One node of the chain points to `c`. -/
theorem prev_unique {p q c : Addr} (hm : Mem s l r) (hp : p ∈ l) (hq : q ∈ l) (hpc : s.heap.nextOf p = some c)
    (hqc : s.heap.nextOf q = some c) : p = q := by
  have hlast : ∀ x k, x ∈ l → s.heap.nextOf x = some c → s.heap.key x ≤ k → k < s.heap.key c → Last s k x := by
    intro x k hx hxc hle hlt
    refine ⟨hm.onChain_iff.mpr hx, hle, fun y hy => ?_⟩
    rw [hxc] at hy
    cases hy
    exact hlt
  have hpk := (hm.mesh.next_mem (by simp [hp]) hpc).2
  have hqk := (hm.mesh.next_mem (by simp [hq]) hqc).2
  rcases Nat.le_total (s.heap.key p).toNat (s.heap.key q).toNat with h | h
  · exact (hlast p _ hp hpc h hqk).unique (hlast q _ hq hqc (BitVec.le_refl _) hqk) hm
  · exact (hlast p _ hp hpc (BitVec.le_refl _) hpk).unique (hlast q _ hq hqc h hpk) hm

end Concurrent

end SplitOrder
