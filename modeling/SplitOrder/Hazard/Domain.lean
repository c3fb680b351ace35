/-
`hazptr_domain`: the pools of hazard pointers and the delete list.

A pool pointer is the number of pools pushed up to it: 0 is null and
`pools_head` the last one pushed. Pools are pushed at the head and stay, so
the `next` pointer of `p` is `p - 1`.
-/
import SplitOrder.Lib.Chain
import SplitOrder.Hazard.Pool

namespace SplitOrder

namespace Hazard

/-- The address of a delete node. -/
abbrev Addr := Nat

/-- `hazp_delete_node`. The reclaimer of all nodes is the domain itself. -/
structure DeleteNode where
  next : Option Addr := none
  payload : Ptr := 0

structure Domain where
  poolsHead : Nat := 0
  pool : Nat → Pool
  slot : Slots
  /-- the `int` counters -/
  hpCount : BitVec 32 := 0#32
  deleteCount : BitVec 32 := 0#32
  deleteHead : Option Addr := none
  node : Addr → DeleteNode
  /-- the delete nodes that are allocated -/
  live : Addr → Bool

namespace Domain

/-- A new domain. -/
def fresh : Domain where
  pool _ := { hazPtrs := 0, blkSize := 0 }
  slot _ := 0
  node _ := {}
  live _ := false

variable (d : Domain)

/-- `p->next` -/
def poolNext (p : Nat) : Nat := p - 1

def setPool (p : Nat) (q : Pool) : Domain := { d with pool := Function.update d.pool p q }

def setSlot (a : Nat) (v : Ptr) : Domain := { d with slot := Function.update d.slot a v }

/-- The `CAS` of `pools_new` has put `q` at the head. -/
def pushPool (q : Pool) : Domain := { d.setPool (d.poolsHead + 1) q with poolsHead := d.poolsHead + 1 }

/-- The pool is on the list. -/
def HasPool (p : Nat) : Prop := 0 < p ∧ p ≤ d.poolsHead

/-- The block `ix` of the pool is reserved. -/
def Reserved (p ix : Nat) : Prop := d.HasPool p ∧ ix < 32 ∧ (d.pool p).bitmap.getLsbD ix = true

/-- `new generic_hazptr_t[n]` may return `base`: the array overlaps no pool's. -/
def FreshArray (base n : Nat) : Prop :=
  ∀ p < d.poolsHead, base + n ≤ (d.pool (p + 1)).hazPtrs ∨ (d.pool (p + 1)).hazPtrs + (d.pool (p + 1)).hpCount ≤ base

instance (base n : Nat) : Decidable (d.FreshArray base n) :=
  inferInstanceAs (Decidable (∀ p < d.poolsHead, _ ∨ _))

/-- The arrays of the pools do not overlap. -/
def Apart : Prop :=
  ∀ p q a, d.HasPool p → d.HasPool q → (d.pool p).contains a = true → (d.pool q).contains a = true → p = q

variable {d} {d' : Domain} {p q a base n : Nat}

theorem FreshArray.notMem (h : d.FreshArray base n) (hp : d.HasPool p) (h1 : base ≤ a) (h2 : a < base + n) :
    (d.pool p).contains a = false := by
  obtain ⟨hp0, hph⟩ := hp
  have := h (p - 1) (by omega)
  rw [Nat.sub_add_cancel hp0] at this
  rw [← Bool.not_eq_true, Pool.contains_iff]
  omega

/-- Only bitmaps and slots differ. -/
structure SameArrays (d d' : Domain) : Prop where
  head : d'.poolsHead = d.poolsHead
  hazPtrs : ∀ p, (d'.pool p).hazPtrs = (d.pool p).hazPtrs
  blkSize : ∀ p, (d'.pool p).blkSize = (d.pool p).blkSize

theorem SameArrays.contains (h : d.SameArrays d') : (d'.pool p).contains a = (d.pool p).contains a := by
  rw [Bool.eq_iff_iff, Pool.contains_iff, Pool.contains_iff, Pool.hpCount, Pool.hpCount, h.hazPtrs, h.blkSize]

theorem SameArrays.apart (h : d.SameArrays d') (ha : d.Apart) : d'.Apart := by
  intro p q a hp hq
  simp only [HasPool, h.head] at hp hq
  rw [h.contains, h.contains]
  exact ha p q a hp hq

theorem setPool_sameArrays {r : Pool} (h1 : r.hazPtrs = (d.pool p).hazPtrs) (h2 : r.blkSize = (d.pool p).blkSize) :
    d.SameArrays (d.setPool p r) := by
  refine ⟨rfl, fun q => ?_, fun q => ?_⟩
  · by_cases hq : q = p
    · subst hq
      simpa [setPool] using h1
    · simp [setPool, hq]
  · by_cases hq : q = p
    · subst hq
      simpa [setPool] using h2
    · simp [setPool, hq]

@[simp] theorem setPool_self : d.setPool p (d.pool p) = d := by simp [setPool]

/-- A pool with a fresh array keeps the arrays apart. -/
theorem Apart.pushPool {r : Pool} (ha : d.Apart) (hf : d.FreshArray r.hazPtrs r.hpCount) : (d.pushPool r).Apart := by
  have hold : ∀ p, (d.pushPool r).HasPool p → p ≠ d.poolsHead + 1 → d.HasPool p ∧ (d.pushPool r).pool p = d.pool p := by
    intro p hp hne
    obtain ⟨h1, h2⟩ := hp
    have h2 : p ≤ d.poolsHead + 1 := h2
    exact ⟨⟨h1, by omega⟩, by simp [Domain.pushPool, setPool, hne]⟩
  have hnew : (d.pushPool r).pool (d.poolsHead + 1) = r := by simp [Domain.pushPool, setPool]
  have hdisj : ∀ p a, d.HasPool p → (d.pool p).contains a = true → r.contains a = true → False := by
    intro p a hp h1 h2
    rw [Pool.contains_iff] at h2
    rw [hf.notMem hp h2.1 h2.2] at h1
    cases h1
  intro p q a hp hq h1 h2
  by_cases hpn : p = d.poolsHead + 1
  · by_cases hqn : q = d.poolsHead + 1
    · rw [hpn, hqn]
    · obtain ⟨hq, heq⟩ := hold q hq hqn
      rw [hpn, hnew] at h1
      rw [heq] at h2
      exact (hdisj q a hq h2 h1).elim
  · obtain ⟨hp, hep⟩ := hold p hp hpn
    rw [hep] at h1
    by_cases hqn : q = d.poolsHead + 1
    · rw [hqn, hnew] at h2
      exact (hdisj p a hp h1 h2).elim
    · obtain ⟨hq, heq⟩ := hold q hq hqn
      rw [heq] at h2
      exact ha p q a hp hq h1 h2

end Domain

end Hazard

end SplitOrder
