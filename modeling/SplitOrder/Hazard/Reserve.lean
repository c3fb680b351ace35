/-
`hazptr_domain::reserve` and `release`, one call after another.

The loops take a bound on their turns, `fuel`; a call returns when some
bound is enough.
-/
import SplitOrder.Lib.Runs
import SplitOrder.Hazard.Domain

namespace SplitOrder

namespace Hazard

namespace Pool

/-- The loop of `reserve_impl`. -/
def reserveLoop : Nat → Pool → BitVec 32 → Option (Pool × Option Nat)
  | 0, _, _ => none
  | fuel + 1, p, expected =>
    if expected = full then some (p, none)
    else match p.turn expected with
      | (p, .reserved ix) => some (p, some (p.block ix))
      | (p, .again expected) => reserveLoop fuel p expected

def reserveImpl (fuel : Nat) (p : Pool) (len : Nat) : Option (Pool × Option Nat) :=
  if len ≠ p.blkSize then some (p, none) else reserveLoop fuel p p.bitmap

/-- `release_impl` on the slots of a block: the first loop. -/
def clearSlots (ptr : Nat) : Nat → Slots → Slots
  | 0, slot => slot
  | x + 1, slot =>
    let slot := clearSlots ptr x slot
    if slot (ptr + x) ≠ 0 then Function.update slot (ptr + x) 0 else slot

/-- `release_impl`; nothing when its assertion fails. -/
def releaseImpl (p : Pool) (slot : Slots) (ptr : Nat) : Option (Pool × Slots × Bool) :=
  if p.contains ptr then
    let slot := clearSlots ptr p.blkSize slot
    match p.findBlock ptr with
    | none => some (p, slot, true)
    | some ix =>
      let mask := Bitmap.bit 32 ix
      if mask = p.bitmap &&& mask then some ({ p with bitmap := p.bitmap ^^^ mask }, slot, true) else none
  else some (p, slot, false)

end Pool

namespace Domain

/-- `pools_reserve`. The loop does not go on to `p->next`. -/
def poolsReserve : Nat → Domain → Nat → Nat → Option (Domain × Option Nat)
  | 0, _, _, _ => none
  | fuel + 1, d, p, len =>
    if p = 0 then some (d, none)
    else match (d.pool p).reserveImpl fuel len with
      | none => none
      | some (q, some ptr) => some (d.setPool p q, some ptr)
      | some (q, none) => poolsReserve fuel (d.setPool p q) p len

/-- `pools_new`, with the array at `base`. -/
def poolsNew (d : Domain) (len base : Nat) : Domain :=
  let q : Pool := { hazPtrs := base, blkSize := len }
  let d := { d with slot := fun a => if q.contains a then 0 else d.slot a }
  { d.pushPool q with hpCount := d.hpCount + BitVec.ofNat 32 q.hpCount }

/-- `reserve`, up to its assertion; `base` is where `new` puts the array of a new pool. -/
def reserve (fuel : Nat) (d : Domain) (len base : Nat) : Option (Domain × Option Nat) :=
  match d.poolsReserve fuel d.poolsHead len with
  | none => none
  | some (d, some ptr) => some (d, some ptr)
  | some (d, none) =>
    let d := d.poolsNew len base
    d.poolsReserve fuel d.poolsHead len

/-- `pools_release` from `p` on; nothing when an assertion of `release_impl` fails. -/
def poolsRelease (d : Domain) (ptr : Nat) : Nat → Option (Domain × Bool)
  | 0 => some (d, false)
  | p + 1 =>
    match (d.pool (p + 1)).releaseImpl d.slot ptr with
    | none => none
    | some (q, slot, true) => some ({ d.setPool (p + 1) q with slot }, true)
    | some (_, _, false) => poolsRelease d ptr p

/-- `release`; nothing when an assertion fails. -/
def release (d : Domain) (ptr : Nat) : Option Domain :=
  match d.poolsRelease ptr d.poolsHead with
  | some (d, true) => some d
  | _ => none

end Domain

inductive PoolsEvent
  /-- a call of `reserve` that returns within `fuel` turns -/
  | reserve (len base fuel : Nat)
  | release (ptr : Nat)

/-- A new domain and calls of `reserve`, with any block length, and `release`. -/
def poolsMachine : System Domain PoolsEvent where
  init d := d.poolsHead = 0
  next d
    | .reserve len base fuel =>
      if d.FreshArray base (len * 32) then (d.reserve fuel len base).map Prod.fst else none
    | .release ptr => d.release ptr

/-! ## Where `reserve` looks -/

/-- The pool has the block size and a free block. -/
def Pool.HasFree (p : Pool) (len : Nat) : Prop := p.blkSize = len ∧ p.bitmap ≠ Pool.full

instance (p : Pool) (len : Nat) : Decidable (p.HasFree len) := inferInstanceAs (Decidable (_ ∧ _))

namespace Pool

variable {p : Pool} {len : Nat}

theorem reserveImpl_of_free (fuel : Nat) (h : p.HasFree len) :
    ∃ ix < 32, p.bitmap.getLsbD ix = false ∧
      reserveImpl (fuel + 1) p len = some ({ p with bitmap := p.bitmap ||| Bitmap.bit 32 ix }, some (p.block ix)) := by
  obtain ⟨rfl, hf⟩ := h
  obtain ⟨ix, hix, hturn, hbit⟩ := turn_ok rfl hf
  refine ⟨ix, hix, hbit, ?_⟩
  simp only [reserveImpl, ne_eq, not_true_eq_false, if_false, reserveLoop, hf, hturn]
  rfl

theorem reserveImpl_of_not_free (fuel : Nat) (h : ¬ p.HasFree len) :
    reserveImpl fuel p len = none ∨ reserveImpl fuel p len = some (p, none) := by
  by_cases hl : len = p.blkSize
  · have hf : p.bitmap = full := by
      by_contra hf
      exact h ⟨hl.symm, hf⟩
    cases fuel with
    | zero => exact .inl (by simp [reserveImpl, reserveLoop, hl])
    | succ fuel => exact .inr (by simp [reserveImpl, reserveLoop, hl, hf])
  · exact .inr (by simp [reserveImpl, hl])

end Pool

namespace Domain

variable {d d' : Domain} {p len base fuel ptr : Nat}

/-- From a pool that does not match or is full the loop never returns. -/
theorem poolsReserve_of_not_free (hp : p ≠ 0) (h : ¬ (d.pool p).HasFree len) : d.poolsReserve fuel p len = none := by
  induction fuel with
  | zero => rfl
  | succ fuel ih =>
    rw [poolsReserve, if_neg hp]
    rcases Pool.reserveImpl_of_not_free fuel h with hr | hr
    · rw [hr]
    · rw [hr]
      simpa using ih

theorem poolsReserve_of_free (fuel : Nat) (hp : p ≠ 0) (h : (d.pool p).HasFree len) :
    ∃ ix < 32, (d.pool p).bitmap.getLsbD ix = false ∧ d.poolsReserve (fuel + 2) p len =
      some (d.setPool p { d.pool p with bitmap := (d.pool p).bitmap ||| Bitmap.bit 32 ix },
        some ((d.pool p).block ix)) := by
  obtain ⟨ix, hix, hbit, hr⟩ := Pool.reserveImpl_of_free fuel h
  refine ⟨ix, hix, hbit, ?_⟩
  rw [poolsReserve, if_neg hp, hr]

/-! ## What `reserve` does -/

/-- What a call that returns `ptr` has done: it reserved a block of `len`
slots in a pool of that block size, apart from the blocks reserved before,
and it made a new pool only when no pool had a block to give. -/
structure Reserves (d : Domain) (len : Nat) (d' : Domain) (ptr : Nat) : Prop where
  block : ∃ p ix, d'.Reserved p ix ∧ (d'.pool p).blkSize = len ∧ ptr = (d'.pool p).block ix
  apart : ∀ p ix, d.Reserved p ix → ∀ i < len, ∀ j < (d.pool p).blkSize, ptr + i ≠ (d.pool p).block ix + j
  kept : ∀ p ix, d.Reserved p ix → d'.Reserved p ix
  pools : d'.poolsHead = d.poolsHead ∧ (∃ p, d.HasPool p ∧ (d.pool p).HasFree len) ∨
    d'.poolsHead = d.poolsHead + 1 ∧ ¬ ∃ p, d.HasPool p ∧ (d.pool p).HasFree len

theorem Reserved.contains {ix j : Nat} (h : d.Reserved p ix) (hj : j < (d.pool p).blkSize) :
    (d.pool p).contains ((d.pool p).block ix + j) = true := by
  rw [Pool.contains_iff]
  exact ⟨by simp only [Pool.block]; omega, Pool.block_add_lt h.2.1 hj⟩

/-- The block of a pool of the list with a free block. -/
theorem reserves_of_free {ix : Nat} (ha : d.Apart) (hp : d.HasPool p) (h : (d.pool p).HasFree len) (hix : ix < 32)
    (hbit : (d.pool p).bitmap.getLsbD ix = false) :
    d.Reserves len (d.setPool p { d.pool p with bitmap := (d.pool p).bitmap ||| Bitmap.bit 32 ix })
      ((d.pool p).block ix) := by
  have hself : (d.setPool p { d.pool p with bitmap := (d.pool p).bitmap ||| Bitmap.bit 32 ix }).pool p =
      { d.pool p with bitmap := (d.pool p).bitmap ||| Bitmap.bit 32 ix } := by simp [setPool]
  refine ⟨⟨p, ix, ⟨hp, hix, ?_⟩, by rw [hself]; exact h.1, by rw [hself]; rfl⟩, fun q jx hq i hi j hj heq => ?_,
    fun q jx hq => ⟨hq.1, hq.2.1, ?_⟩, .inl ⟨rfl, p, hp, h⟩⟩
  · rw [hself, Bitmap.getLsbD_or_bit hix]
    exact .inr rfl
  · -- overlapping blocks are the same block
    rw [← h.1] at hi
    have hpq : p = q := by
      refine ha p q _ hp hq.1 ?_ (hq.contains hj)
      rw [← heq, Pool.contains_iff]
      exact ⟨by simp only [Pool.block]; omega, Pool.block_add_lt hix hi⟩
    subst hpq
    obtain rfl := Pool.block_inj hi hj heq
    have := hq.2.2
    rw [hbit] at this
    cases this
  · by_cases hqp : q = p
    · subst hqp
      rw [hself, Bitmap.getLsbD_or_bit hix]
      exact .inl hq.2.2
    · simpa [setPool, hqp] using hq.2.2

/-- The block of a new pool. -/
theorem reserves_of_new {ix : Nat} (hf : d.FreshArray base (len * 32)) (hix : ix < 32)
    (hfree : ¬ ∃ p, d.HasPool p ∧ (d.pool p).HasFree len) {d₁ : Domain} (hd : d₁ = d.poolsNew len base) :
    d.Reserves len (d₁.setPool d₁.poolsHead
      { d₁.pool d₁.poolsHead with bitmap := (d₁.pool d₁.poolsHead).bitmap ||| Bitmap.bit 32 ix })
      ((d₁.pool d₁.poolsHead).block ix) := by
  have hhead : d₁.poolsHead = d.poolsHead + 1 := by
    subst hd
    rfl
  have hnew : d₁.pool d₁.poolsHead = { hazPtrs := base, blkSize := len } := by
    subst hd
    simp [poolsNew, pushPool, setPool]
  have hold : ∀ q, q ≠ d.poolsHead + 1 → d₁.pool q = d.pool q := by
    intro q hq
    subst hd
    simp [poolsNew, pushPool, setPool, hq]
  have hne : ∀ q, d.HasPool q → q ≠ d.poolsHead + 1 := fun q hq => by
    have := hq.2
    omega
  refine ⟨⟨d₁.poolsHead, ix, ⟨⟨by rw [hhead]; omega, Nat.le_refl _⟩, hix, ?_⟩, ?_, ?_⟩, fun q jx hq i hi j hj heq => ?_,
    fun q jx hq => ⟨⟨hq.1.1, ?_⟩, hq.2.1, ?_⟩, .inr ⟨hhead, hfree⟩⟩
  · simp only [setPool, Function.update_self]
    exact (Bitmap.getLsbD_or_bit hix).mpr (.inr rfl)
  · simp [setPool, hnew]
  · simp [setPool, Pool.block]
  · have hmem := hq.contains hj
    rw [hnew] at heq
    rw [← heq] at hmem
    have hlt := Pool.block_add_lt (p := { hazPtrs := base, blkSize := len }) hix hi
    rw [hf.notMem hq.1 (by simp only [Pool.block]; omega) hlt] at hmem
    cases hmem
  · have := hq.1.2
    simp only [setPool, hhead]
    omega
  · have hqn : q ≠ d₁.poolsHead := by
      rw [hhead]
      exact hne q hq.1
    simp only [setPool, Function.update_of_ne hqn, hold q (hne q hq.1)]
    exact hq.2.2

/-- **When `reserve` returns**, from any list of pools with arrays apart. -/
theorem reserve_iff (ha : d.Apart) (hf : d.FreshArray base (len * 32)) :
    (∃ fuel d' ptr, d.reserve fuel len base = some (d', some ptr) ∧ d.Reserves len d' ptr) ↔
      d.poolsHead = 0 ∨ (d.pool d.poolsHead).HasFree len := by
  constructor
  · intro h
    obtain ⟨fuel, d', ptr, hr, -⟩ := h
    by_contra hn
    rw [not_or] at hn
    rw [reserve, poolsReserve_of_not_free hn.1 hn.2] at hr
    cases hr
  · intro h
    by_cases hz : d.poolsHead = 0
    · -- the first call of `pools_reserve` has nothing to look at
      have hfirst : ∀ fuel, d.poolsReserve (fuel + 1) d.poolsHead len = some (d, none) := by
        intro fuel
        rw [poolsReserve, if_pos hz]
      have hnew : ((d.poolsNew len base).pool (d.poolsNew len base).poolsHead).HasFree len := by
        refine ⟨by simp [poolsNew, pushPool, setPool], ?_⟩
        simp only [poolsNew, pushPool, setPool, Function.update_self]
        decide
      obtain ⟨ix, hix, -, hr⟩ := poolsReserve_of_free 0 (Nat.succ_ne_zero d.poolsHead) hnew
      refine ⟨2, _, _, ?_, reserves_of_new hf hix ?_ rfl⟩
      · rw [reserve, hfirst 1]
        exact hr
      · rintro ⟨p, hp, -⟩
        have := hp.1
        have := hp.2
        omega
    · have hfree := h.resolve_left hz
      obtain ⟨ix, hix, hbit, hr⟩ := poolsReserve_of_free 0 hz hfree
      refine ⟨2, _, _, ?_, reserves_of_free ha ⟨Nat.pos_of_ne_zero hz, Nat.le_refl _⟩ hfree hix hbit⟩
      rw [reserve, hr]

/-! ## Runs -/

theorem poolsReserve_sameArrays {res : Option Nat} (h : d.poolsReserve fuel p len = some (d', res)) :
    d.SameArrays d' := by
  by_cases hp : p = 0
  · cases fuel with
    | zero => cases h
    | succ fuel =>
      rw [poolsReserve, if_pos hp] at h
      cases h
      exact ⟨rfl, fun _ => rfl, fun _ => rfl⟩
  · by_cases hfree : (d.pool p).HasFree len
    · match fuel, h with
      | 0, h => cases h
      | 1, h =>
        rw [poolsReserve, if_neg hp, Pool.reserveImpl, if_neg (not_not.mpr hfree.1.symm)] at h
        cases h
      | fuel + 2, h =>
        obtain ⟨ix, -, -, hr⟩ := poolsReserve_of_free fuel hp hfree
        rw [hr] at h
        cases h
        exact setPool_sameArrays rfl rfl
    · rw [poolsReserve_of_not_free hp hfree] at h
      cases h

theorem reserve_apart {res : Option Nat} (ha : d.Apart) (hf : d.FreshArray base (len * 32))
    (h : d.reserve fuel len base = some (d', res)) : d'.Apart := by
  cases hr : d.poolsReserve fuel d.poolsHead len with
  | none => simp [reserve, hr] at h
  | some r =>
    obtain ⟨d₁, res₁⟩ := r
    have hs := poolsReserve_sameArrays hr
    cases res₁ with
    | some ptr =>
      simp only [reserve, hr, Option.some.injEq, Prod.mk.injEq] at h
      rw [← h.1]
      exact hs.apart ha
    | none =>
      simp only [reserve, hr] at h
      refine (poolsReserve_sameArrays h).apart ?_
      have ha₁ := hs.apart ha
      have hf₁ : d₁.FreshArray base (len * 32) := by
        intro q hq
        rw [hs.head] at hq
        have := hf q hq
        simpa only [Pool.hpCount, hs.hazPtrs, hs.blkSize] using this
      exact Apart.pushPool (d := { d₁ with slot := _ }) ha₁ hf₁

theorem poolsRelease_sameArrays {b : Bool} : ∀ p, d.poolsRelease ptr p = some (d', b) → d.SameArrays d'
  | 0, h => by
    cases h
    exact ⟨rfl, fun _ => rfl, fun _ => rfl⟩
  | p + 1, h => by
    have hq : ∀ q slot, (d.pool (p + 1)).releaseImpl d.slot ptr = some (q, slot, true) →
        q.hazPtrs = (d.pool (p + 1)).hazPtrs ∧ q.blkSize = (d.pool (p + 1)).blkSize := by
      intro q slot hq
      simp only [Pool.releaseImpl] at hq
      split at hq
      · split at hq
        · cases hq
          exact ⟨rfl, rfl⟩
        · split at hq
          · cases hq
            exact ⟨rfl, rfl⟩
          · cases hq
      · cases hq
    simp only [poolsRelease] at h
    split at h
    · cases h
    · cases h
      obtain ⟨h1, h2⟩ := hq _ _ ‹_›
      have hs := setPool_sameArrays h1 h2
      exact ⟨hs.head, hs.hazPtrs, hs.blkSize⟩
    · exact poolsRelease_sameArrays p h

theorem run_apart (h : poolsMachine.Reachable d) : d.Apart := by
  refine h.invariant (fun d hd p q a hp => ?_) fun d e d' ha _ hn => ?_
  · have hd : d.poolsHead = 0 := hd
    have := hp.1
    have := hp.2
    omega
  · cases e with
    | reserve len base fuel =>
      simp only [poolsMachine] at hn
      split at hn
      · obtain ⟨⟨d₁, res⟩, hr, rfl⟩ := Option.map_eq_some_iff.mp hn
        exact reserve_apart ha ‹_› hr
      · cases hn
    | release ptr =>
      have hn : d.release ptr = some d' := hn
      cases hr : d.poolsRelease ptr d.poolsHead with
      | none => simp [release, hr] at hn
      | some r =>
        obtain ⟨d₁, b⟩ := r
        cases b with
        | true =>
          simp only [release, hr, Option.some.injEq] at hn
          subst hn
          exact (poolsRelease_sameArrays _ hr).apart ha
        | false => simp [release, hr] at hn

end Domain

end Hazard

end SplitOrder
