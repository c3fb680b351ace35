/-
`hazard_pointer_domain::reserve` and `release` of a block.

`release` is given an address only: it asks one pool after another whether
the address is in its array, and then looks for the block that starts
there. With the arrays apart it is the pool the block was reserved from,
if the block has a slot at all; an empty block is in no array.
-/
import SplitOrder.Hazard.Reserve

namespace SplitOrder

namespace Hazard

/-- `hazard_pointer<T>()` or `~hazard_pointer<T>()` at `ptr` to `ptr + (n - 1)`. -/
def storeNull (ptr : Nat) : Nat → Slots → Slots
  | 0, slot => slot
  | i + 1, slot => Function.update (storeNull ptr i slot) (ptr + i) 0

theorem storeNull_apply {ptr : Nat} {slot : Slots} {a : Nat} :
    ∀ n, storeNull ptr n slot a = if ptr ≤ a ∧ a < ptr + n then 0 else slot a := by
  intro n
  induction n with
  | zero =>
    rw [storeNull, if_neg (by omega)]
  | succ n ih =>
    rw [storeNull]
    by_cases ha : a = ptr + n
    · rw [ha, Function.update_self, if_pos (by omega)]
    · rw [Function.update_of_ne ha, ih]
      by_cases hlt : ptr ≤ a ∧ a < ptr + n
      · rw [if_pos hlt, if_pos (by omega)]
      · rw [if_neg hlt, if_neg (by omega)]

/-- The loop of `release_impl` stores null where something else is. -/
theorem clearSlots_eq (ptr : Nat) (slot : Slots) : ∀ n, Pool.clearSlots ptr n slot = storeNull ptr n slot := by
  intro n
  induction n with
  | zero => rfl
  | succ n ih =>
    rw [Pool.clearSlots, storeNull, ih]
    split
    · rfl
    · rename_i hz
      have hz : storeNull ptr n slot (ptr + n) = 0 := not_not.mp hz
      rw [← hz, Function.update_eq_self]

theorem storeNull_storeNull (ptr n : Nat) (slot : Slots) :
    storeNull ptr n (storeNull ptr n slot) = storeNull ptr n slot := by
  funext a
  rw [storeNull_apply, storeNull_apply]
  split <;> rfl

namespace Domain

/-- `hazard_pointer_domain::reserve`, when `hazptr_domain::reserve` returns. -/
def reserveBlock (fuel : Nat) (d : Domain) (len base : Nat) : Option (Domain × Nat) :=
  match d.reserve fuel len base with
  | some (d, some ptr) => some ({ d with slot := storeNull ptr len d.slot }, ptr)
  | _ => none

/-- `hazard_pointer_domain::release`; nothing when an assertion fails. -/
def releaseBlock (d : Domain) (ptr len : Nat) : Option Domain := { d with slot := storeNull ptr len d.slot }.release ptr

/-- `ptr` is the block `ix` of the pool `p`, of `len` slots, and reserved. -/
def Lends (d : Domain) (len ptr p ix : Nat) : Prop :=
  d.Reserved p ix ∧ (d.pool p).blkSize = len ∧ ptr = (d.pool p).block ix

/-- The reservation of the block `ix` of the pool `p` is undone, and nothing else. -/
structure Undone (d d' : Domain) (p ix : Nat) : Prop where
  head : d'.poolsHead = d.poolsHead
  array : (d'.pool p).hazPtrs = (d.pool p).hazPtrs ∧ (d'.pool p).blkSize = (d.pool p).blkSize
  bit : (d'.pool p).bitmap.getLsbD ix = false
  bits : ∀ jx, jx ≠ ix → (d'.pool p).bitmap.getLsbD jx = (d.pool p).bitmap.getLsbD jx
  pools : ∀ q, q ≠ p → d'.pool q = d.pool q
  null : ∀ i < (d.pool p).blkSize, d'.slot ((d.pool p).block ix + i) = 0
  slots : ∀ a, (∀ i < (d.pool p).blkSize, a ≠ (d.pool p).block ix + i) → d'.slot a = d.slot a

variable {d d' : Domain} {p ix len base fuel ptr : Nat}

/-! ## What is reserved -/

theorem poolsReserve_eq_some (h : d.poolsReserve fuel p len = some (d', some ptr)) :
    p ≠ 0 ∧ ∃ ix < 32, d' = d.setPool p { d.pool p with bitmap := (d.pool p).bitmap ||| Bitmap.bit 32 ix } ∧
      (d.pool p).blkSize = len ∧ ptr = (d.pool p).block ix := by
  have hp : p ≠ 0 := by
    rintro rfl
    cases fuel with
    | zero => cases h
    | succ fuel =>
      rw [poolsReserve, if_pos rfl] at h
      cases h
  refine ⟨hp, ?_⟩
  by_cases hfree : (d.pool p).HasFree len
  · rcases fuel with - | - | fuel
    · cases h
    · rw [poolsReserve, if_neg hp, Pool.reserveImpl, if_neg (not_not.mpr hfree.1.symm)] at h
      cases h
    · obtain ⟨ix, hix, -, hr⟩ := poolsReserve_of_free fuel hp hfree
      rw [hr] at h
      cases h
      exact ⟨ix, hix, rfl, hfree.1, rfl⟩
  · rw [poolsReserve_of_not_free hp hfree] at h
    cases h

theorem lends_of_poolsReserve (hp : p ≤ d.poolsHead) (h : d.poolsReserve fuel p len = some (d', some ptr)) :
    ∃ ix, d'.Lends len ptr p ix := by
  obtain ⟨hp0, ix, hix, rfl, hlen, rfl⟩ := poolsReserve_eq_some h
  refine ⟨ix, ⟨⟨Nat.pos_of_ne_zero hp0, hp⟩, hix, ?_⟩, ?_, ?_⟩
  · simp only [setPool, Function.update_self]
    exact (Bitmap.getLsbD_or_bit hix).mpr (.inr rfl)
  · simpa [setPool] using hlen
  · simp [setPool, Pool.block]

/-- **What `reserve` returns** is a reserved block of the length asked for. -/
theorem lends_of_reserveBlock (ha : d.Apart) (hf : d.FreshArray base (len * 32))
    (h : d.reserveBlock fuel len base = some (d', ptr)) : d'.Apart ∧ ∃ p ix, d'.Lends len ptr p ix := by
  unfold reserveBlock at h
  split at h
  · rename_i d₁ ptr₁ hres
    cases h
    have hapart : d₁.Apart := reserve_apart ha hf hres
    refine ⟨hapart, ?_⟩
    suffices hl : ∃ p ix, d₁.Lends len ptr p ix from hl
    unfold reserve at hres
    split at hres
    · cases hres
    · rename_i hfirst
      cases hres
      obtain ⟨ix, hl⟩ := lends_of_poolsReserve (Nat.le_refl _) hfirst
      exact ⟨_, ix, hl⟩
    · obtain ⟨ix, hl⟩ := lends_of_poolsReserve (Nat.le_refl _) hres
      exact ⟨_, ix, hl⟩
  · cases h

/-! ## What is released -/

/-- The pools that do not contain the address are passed over. -/
theorem poolsRelease_skip : ∀ k, (∀ q, p < q → q ≤ k → (d.pool q).contains ptr = false) → p ≤ k →
    d.poolsRelease ptr k = d.poolsRelease ptr p := by
  intro k
  induction k with
  | zero =>
    intro _ hle
    rw [Nat.le_zero.mp hle]
  | succ k ih =>
    intro hskip hle
    rcases Nat.lt_or_eq_of_le hle with hlt | rfl
    · have hno := hskip (k + 1) hlt (Nat.le_refl _)
      rw [poolsRelease, Pool.releaseImpl, hno]
      exact ih (fun q h1 h2 => hskip q h1 (by omega)) (by omega)
    · rfl

/-- `release_impl` of the pool that lent the block. -/
theorem releaseImpl_block {q : Pool} (slot : Slots) (hix : ix < 32) (hb : 0 < q.blkSize)
    (hbit : q.bitmap.getLsbD ix = true) :
    q.releaseImpl slot (q.block ix) =
      some ({ q with bitmap := q.bitmap ^^^ Bitmap.bit 32 ix }, storeNull (q.block ix) q.blkSize slot, true) := by
  have hin := (Pool.contains_block (p := q) hix).mpr hb
  rw [Pool.releaseImpl, if_pos hin, Pool.findBlock_block hix hb]
  simp only [clearSlots_eq]
  rw [if_pos ((Bitmap.bit_eq_and hix).mpr hbit)]

/-- A pool that does not contain the address keeps its bitmap. -/
theorem poolsRelease_pool {b : Bool} (hno : (d.pool p).contains ptr = false) :
    ∀ k, d.poolsRelease ptr k = some (d', b) → d'.pool p = d.pool p := by
  intro k
  induction k with
  | zero =>
    intro h
    cases h
    rfl
  | succ k ih =>
    intro h
    rw [poolsRelease] at h
    split at h
    · cases h
    · rename_i q slot hrel
      cases h
      have hne : p ≠ k + 1 := by
        rintro rfl
        rw [Pool.releaseImpl, hno] at hrel
        cases hrel
      exact Function.update_of_ne hne _ _
    · exact ih h

/-- **`release` of a block with a slot** undoes its reservation. -/
theorem release_undoes (ha : d.Apart) (hl : d.Lends len ptr p ix) (hlen : 0 < len) :
    ∃ d', d.releaseBlock ptr len = some d' ∧ d.Undone d' p ix := by
  obtain ⟨⟨hp, hix, hbit⟩, rfl, rfl⟩ := hl
  have hin := (Pool.contains_block hix).mpr hlen
  have hskip : ∀ q, p < q → q ≤ d.poolsHead → (d.pool q).contains ((d.pool p).block ix) = false := by
    intro q hpq hq
    by_contra hne
    have hq' : (d.pool q).contains ((d.pool p).block ix) = true := by simpa using hne
    have := ha p q _ hp ⟨by omega, hq⟩ hin hq'
    omega
  set slot := storeNull ((d.pool p).block ix) (d.pool p).blkSize d.slot with hslot
  set d₁ : Domain := { d with slot } with hd₁
  set q : Pool := { d.pool p with bitmap := (d.pool p).bitmap ^^^ Bitmap.bit 32 ix } with hq
  have hrel : d₁.poolsRelease ((d.pool p).block ix) d.poolsHead = some ({ d₁.setPool p q with slot }, true) := by
    obtain ⟨k, rfl⟩ := Nat.exists_eq_succ_of_ne_zero (Nat.ne_of_gt hp.1)
    have hone : (d₁.pool (k + 1)).releaseImpl d₁.slot ((d.pool (k + 1)).block ix) = some (q, slot, true) := by
      have himpl := releaseImpl_block slot hix hlen hbit
      rw [hslot, storeNull_storeNull, ← hslot] at himpl
      exact himpl
    rw [poolsRelease_skip (d := d₁) _ hskip hp.2, poolsRelease, hone]
  refine ⟨{ d₁.setPool p q with slot }, ?_, rfl, ?_, ?_, fun jx hne => ?_, fun r hr => ?_, fun i hi => ?_,
    fun a hout => ?_⟩
  · rw [releaseBlock, release]
    simp only [← hslot, ← hd₁]
    rw [hrel]
  · simp [setPool, hq]
  · simp only [setPool, Function.update_self, hq]
    rw [← Bool.not_eq_true, Bitmap.getLsbD_xor_bit hbit]
    exact fun h => h.2 rfl
  · simp only [setPool, Function.update_self, hq]
    rw [Bool.eq_iff_iff, Bitmap.getLsbD_xor_bit hbit]
    exact ⟨fun h => h.1, fun h => ⟨h, hne.symm⟩⟩
  · exact Function.update_of_ne hr _ _
  · change slot _ = 0
    rw [hslot, storeNull_apply, if_pos (by omega)]
  · change slot a = d.slot a
    rw [hslot, storeNull_apply, if_neg]
    intro h
    exact hout (a - (d.pool p).block ix) (by omega) (by omega)

/-- **`release` of an empty block** never undoes its reservation: the address is in no array of its pool. -/
theorem release_empty (hl : d.Lends 0 ptr p ix) : ¬ ∃ d', d.releaseBlock ptr 0 = some d' ∧ d.Undone d' p ix := by
  intro h
  obtain ⟨d', hrel, hu⟩ := h
  obtain ⟨⟨hp, hix, hbit⟩, hlen, rfl⟩ := hl
  have hno : (d.pool p).contains ((d.pool p).block ix) = false := by
    by_contra hne
    have hin : (d.pool p).contains ((d.pool p).block ix) = true := by simpa using hne
    exact absurd ((Pool.contains_block hix).mp hin) (by omega)
  have hsame : d'.pool p = d.pool p := by
    rw [releaseBlock, release] at hrel
    split at hrel
    · rename_i hrun
      cases hrel
      exact poolsRelease_pool (d := { d with slot := _ }) hno _ hrun
    · cases hrel
  have hclear := hu.bit
  rw [hsame, hbit] at hclear
  cases hclear

/-- **Releasing what was reserved**, for a block length `S`. What `reserve(S)`
returns is lent; and from any state with the arrays apart in which a block
of length `S` is lent, `release` undoes its reservation, if and only if `S`
is not zero. -/
theorem release_undoes_iff (S : Nat) :
    (∀ (d d' : Domain) base fuel ptr, d.Apart → d.FreshArray base (S * 32) →
      d.reserveBlock fuel S base = some (d', ptr) → d'.Apart ∧ ∃ p ix, d'.Lends S ptr p ix) ∧
    ∀ (d : Domain) ptr p ix, d.Apart → d.Lends S ptr p ix →
      ((∃ d', d.releaseBlock ptr S = some d' ∧ d.Undone d' p ix) ↔ 0 < S) := by
  refine ⟨fun d d' base fuel ptr ha hf h => lends_of_reserveBlock ha hf h, fun d ptr p ix ha hl => ⟨fun h => ?_,
    fun hS => release_undoes ha hl hS⟩⟩
  rcases Nat.eq_zero_or_pos S with rfl | hS
  · exact absurd h (release_empty hl)
  · exact hS

theorem fresh_apart : fresh.Apart := by
  intro p q a hp
  exact absurd hp.1 (Nat.not_lt.mpr hp.2)

/-- A block of two slots, reserved and released. -/
theorem release_undoes_two :
    ∃ d d' p ix, fresh.reserveBlock 3 2 100 = some (d, 100) ∧ d.releaseBlock 100 2 = some d' ∧ d.Undone d' p ix := by
  have hrun : (fresh.reserveBlock 3 2 100).map Prod.snd = some 100 := by decide +kernel
  obtain ⟨⟨d, ptr⟩, hres, rfl⟩ := Option.map_eq_some_iff.mp hrun
  obtain ⟨ha, p, ix, hl⟩ := (release_undoes_iff 2).1 fresh d 100 3 100 fresh_apart (by decide) hres
  obtain ⟨d', hrel, hu⟩ := ((release_undoes_iff 2).2 d 100 p ix ha hl).mpr (by decide)
  exact ⟨d, d', p, ix, hres, hrel, hu⟩

/-- **An empty block.** The block that `reserve(0)` returns on a new domain
is in no pool's array, and `assert(released)` fails. -/
theorem release_asserts : ∃ d, fresh.reserveBlock 3 0 100 = some (d, 100) ∧ d.releaseBlock 100 0 = none := by
  have hrun : (fresh.reserveBlock 3 0 100).map (fun r => (r.2, (r.1.releaseBlock 100 0).isNone)) =
      some (100, true) := by
    decide +kernel
  obtain ⟨⟨d, ptr⟩, hres, hfacts⟩ := Option.map_eq_some_iff.mp hrun
  simp only [Prod.mk.injEq] at hfacts
  obtain ⟨rfl, hnone⟩ := hfacts
  exact ⟨d, hres, Option.isNone_iff_eq_none.mp hnone⟩

end Domain

end Hazard

end SplitOrder
