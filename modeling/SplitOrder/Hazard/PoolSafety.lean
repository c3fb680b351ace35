/-
Threads that reserve and release blocks of one `hazptr_pool`.

One step is one read or `CAS` of the bitmap or one read or store of a slot.
A thread stands for a holder: it reserves a block, stores to its slots, and
then releases it and stops storing.
-/
import SplitOrder.Lib.Runs
import SplitOrder.Hazard.Pool

namespace SplitOrder

namespace Hazard

/-- Where a thread is. The block `ix` it holds goes with the program point;
the code itself only has the pointer to it. -/
inductive PoolPc
  | idle
  /-- `reserve_impl` has returned `nullptr` -/
  | failed
  /-- `expected = bitmap` -/
  | reserveLoad (len : Nat)
  /-- the loop of `reserve_impl`, up to its `CAS` -/
  | reserveCas (expected : BitVec 32)
  | held (ix : Nat)
  /-- `nullptr != *(ptr + x)` -/
  | clear (ix x : Nat)
  /-- the store of `nullptr` to `ptr + x` -/
  | clearStore (ix x : Nat)
  /-- `assert(mask == (bitmap & mask))` -/
  | check (ix jx : Nat)
  /-- `expected = bitmap` -/
  | releaseLoad (ix jx : Nat)
  | releaseCas (ix jx : Nat) (expected : BitVec 32)
  /-- `release_impl` has returned and has not cleared a bit -/
  | kept (ix : Nat)
  /-- the assertion has failed -/
  | crashed (ix : Nat)
  deriving DecidableEq

/-- The block a thread holds, from its reserving `CAS` to its releasing one. -/
def PoolPc.block : PoolPc → Option Nat
  | .idle | .failed | .reserveLoad _ | .reserveCas _ => none
  | .held ix | .clear ix _ | .clearStore ix _ | .check ix _ | .releaseLoad ix _ | .releaseCas ix _ _
  | .kept ix | .crashed ix => some ix

/-- `expected` is full: `reserve_impl` returns, else it goes round its loop. -/
def reserveLoop (expected : BitVec 32) : PoolPc := if expected = Pool.full then .failed else .reserveCas expected

/-- `release_impl` has cleared the slots and looks for the block at `ptr`. -/
def releaseFind (p : Pool) (ix : Nat) : PoolPc :=
  match p.findBlock (p.block ix) with
  | some jx => .check ix jx
  | none => .kept ix

/-- The step of a thread; nothing between calls. -/
def PoolPc.step (p : Pool) (slot : Slots) : PoolPc → Option (Pool × Slots × PoolPc)
  | .idle | .failed | .held _ | .kept _ | .crashed _ => none
  | .reserveLoad len => some (p, slot, if len ≠ p.blkSize then .failed else reserveLoop p.bitmap)
  | .reserveCas expected =>
    match p.turn expected with
    | (p, .reserved ix) => some (p, slot, .held ix)
    | (p, .again expected) => some (p, slot, reserveLoop expected)
  | .clear ix x =>
    if x < p.blkSize then
      if slot (p.block ix + x) ≠ 0 then some (p, slot, .clearStore ix x) else some (p, slot, .clear ix (x + 1))
    else some (p, slot, releaseFind p ix)
  | .clearStore ix x => some (p, Function.update slot (p.block ix + x) 0, .clear ix (x + 1))
  | .check ix jx =>
    if Bitmap.bit 32 jx = p.bitmap &&& Bitmap.bit 32 jx then some (p, slot, .releaseLoad ix jx)
    else some (p, slot, .crashed ix)
  | .releaseLoad ix jx => some (p, slot, .releaseCas ix jx p.bitmap)
  | .releaseCas ix jx expected =>
    if p.bitmap = expected then some ({ p with bitmap := expected ^^^ Bitmap.bit 32 jx }, slot, .idle)
    else some (p, slot, .releaseLoad ix jx)

structure PoolState (n : Nat) where
  pool : Pool
  slot : Slots
  thread : Fin n → PoolPc

inductive PoolEvent (n : Nat)
  | reserve (t : Fin n) (len : Nat)
  /-- a holder stores `v` in slot `i` of its block -/
  | store (t : Fin n) (i : Nat) (v : Ptr)
  | release (t : Fin n)
  | step (t : Fin n)

variable {n : Nat} {σ σ' : PoolState n} {t u : Fin n} {ix jx : Nat}

/-- The start of a call of `reserve_impl`. -/
def PoolPc.reserve (len : Nat) : PoolPc → Option PoolPc
  | .idle | .failed => some (.reserveLoad len)
  | _ => none

/-- The start of a call of `release_impl`: the address test. -/
def PoolPc.release (p : Pool) : PoolPc → Option PoolPc
  | .held ix => some (if p.contains (p.block ix) then .clear ix 0 else .kept ix)
  | _ => none

def PoolPc.heldBlock : PoolPc → Option Nat
  | .held ix => some ix
  | _ => none

def PoolState.set (σ : PoolState n) (t : Fin n) (pc : PoolPc) : PoolState n :=
  { σ with thread := Function.update σ.thread t pc }

/-- A fresh pool and threads that call `reserve_impl` and `release_impl`. -/
def poolMachine (n : Nat) : System (PoolState n) (PoolEvent n) where
  init σ := σ.pool.bitmap = 0#32 ∧ (∀ a, σ.pool.contains a → σ.slot a = 0) ∧ ∀ t, σ.thread t = .idle
  next σ
    | .reserve t len => ((σ.thread t).reserve len).map (σ.set t)
    | .store t i v =>
      match (σ.thread t).heldBlock with
      | some ix =>
        if i < σ.pool.blkSize then some { σ with slot := Function.update σ.slot (σ.pool.block ix + i) v } else none
      | none => none
    | .release t => ((σ.thread t).release σ.pool).map (σ.set t)
    | .step t =>
      ((σ.thread t).step σ.pool σ.slot).map fun r =>
        { pool := r.1, slot := r.2.1, thread := Function.update σ.thread t r.2.2 }

/-! ## The invariant -/

/-- The block `ix` has null slots, the first `x` of them. -/
def NullUpTo (p : Pool) (slot : Slots) (ix x : Nat) : Prop := ∀ i < x, slot (p.block ix + i) = 0

/-- What holds at each point of a call. -/
def PoolPc.Ok (p : Pool) (slot : Slots) : PoolPc → Prop
  | .idle | .failed | .reserveLoad _ | .held _ | .kept _ => True
  | .reserveCas expected => expected ≠ Pool.full
  | .clear ix x => 0 < p.blkSize ∧ x ≤ p.blkSize ∧ NullUpTo p slot ix x
  | .clearStore ix x => 0 < p.blkSize ∧ x < p.blkSize ∧ NullUpTo p slot ix x
  | .check ix jx | .releaseLoad ix jx | .releaseCas ix jx _ => jx = ix ∧ NullUpTo p slot ix p.blkSize
  | .crashed _ => False

/-- A thread holds the block. -/
def Held (σ : PoolState n) (ix : Nat) : Prop := ∃ t, (σ.thread t).block = some ix

structure PoolInv (σ : PoolState n) : Prop where
  lt : ∀ t ix, (σ.thread t).block = some ix → ix < 32
  bit : ∀ ix < 32, σ.pool.bitmap.getLsbD ix = true ↔ Held σ ix
  apart : ∀ t u ix, (σ.thread t).block = some ix → (σ.thread u).block = some ix → t = u
  clean : ∀ ix < 32, ¬ Held σ ix → NullUpTo σ.pool σ.slot ix σ.pool.blkSize
  pc : ∀ t, (σ.thread t).Ok σ.pool σ.slot

/-! ## What a step can do -/

/-- A step of a thread at `pc` keeps its block and writes to no slots but
those of the block, or reserves a block, or releases its own. -/
inductive PoolStep (p : Pool) (slot : Slots) (pc : PoolPc) : Pool → Slots → PoolPc → Prop
  | keep {slot' : Slots} {pc' : PoolPc} : pc'.block = pc.block →
      (∀ a, slot' a ≠ slot a → ∃ ix i, pc.block = some ix ∧ i < p.blkSize ∧ a = p.block ix + i) →
      pc'.Ok p slot' → PoolStep p slot pc p slot' pc'
  | reserve {ix : Nat} : pc.block = none → ix < 32 → p.bitmap.getLsbD ix = false →
      PoolStep p slot pc { p with bitmap := p.bitmap ||| Bitmap.bit 32 ix } slot (.held ix)
  | release {ix : Nat} : pc.block = some ix → NullUpTo p slot ix p.blkSize →
      PoolStep p slot pc { p with bitmap := p.bitmap ^^^ Bitmap.bit 32 ix } slot .idle

section Steps

variable {p p' : Pool} {slot slot' : Slots} {pc pc' : PoolPc} {x len : Nat} {v : Ptr}

/-- Only the thread moves on. -/
theorem PoolStep.move (hb : pc'.block = pc.block) (ok : pc'.Ok p slot) : PoolStep p slot pc p slot pc' :=
  .keep hb (fun _ h => absurd rfl h) ok

theorem step_reserveLoop {e : BitVec 32} (hb : pc.block = none) : PoolStep p slot pc p slot (reserveLoop e) := by
  unfold reserveLoop
  split
  · exact .move hb.symm trivial
  · exact .move hb.symm ‹_›

theorem step_clear (hok : (PoolPc.clear ix x).Ok p slot) (hix : ix < 32)
    (h : (PoolPc.clear ix x).step p slot = some (p', slot', pc')) : PoolStep p slot (.clear ix x) p' slot' pc' := by
  obtain ⟨hb, hx, hn⟩ := hok
  simp only [PoolPc.step] at h
  split at h
  · split at h
    · cases h
      exact .move rfl ⟨hb, ‹_›, hn⟩
    · cases h
      refine .move rfl ⟨hb, ‹_›, fun i hi => ?_⟩
      rcases Nat.lt_succ_iff_lt_or_eq.mp hi with hi | rfl
      · exact hn i hi
      · exact not_not.mp ‹_›
  · obtain rfl : x = p.blkSize := by omega
    simp only [releaseFind, Pool.findBlock_block hix hb] at h
    cases h
    exact .move rfl ⟨rfl, hn⟩

theorem step_clearStore (hok : (PoolPc.clearStore ix x).Ok p slot) :
    PoolStep p slot (.clearStore ix x) p (Function.update slot (p.block ix + x) 0) (.clear ix (x + 1)) := by
  obtain ⟨hb, hx, hn⟩ := hok
  refine .keep rfl (fun a ha => ?_) ⟨hb, hx, fun i hi => ?_⟩
  · by_cases hax : a = p.block ix + x
    · exact ⟨ix, x, rfl, hx, hax⟩
    · exact absurd (Function.update_of_ne hax ..) ha
  · by_cases hix : i = x
    · subst hix
      exact Function.update_self ..
    · rw [Function.update_of_ne (by omega)]
      exact hn i (by omega)

/-- **What a step of a thread can do.** -/
theorem step_cases (hok : pc.Ok p slot) (hheld : ∀ ix, pc.block = some ix → ix < 32 ∧ p.bitmap.getLsbD ix = true)
    (h : pc.step p slot = some (p', slot', pc')) : PoolStep p slot pc p' slot' pc' := by
  cases pc with
  | idle => cases h
  | failed => cases h
  | held ix => cases h
  | kept ix => cases h
  | crashed ix => cases h
  | reserveLoad len =>
    cases h
    split
    · exact .move rfl trivial
    · exact step_reserveLoop rfl
  | reserveCas expected =>
    by_cases he : p.bitmap = expected
    · obtain ⟨ix, hix, hturn, hbit⟩ := Pool.turn_ok he hok
      subst he
      simp only [PoolPc.step, hturn] at h
      cases h
      exact .reserve rfl hix hbit
    · simp only [PoolPc.step, Pool.turn_fail he hok] at h
      cases h
      exact step_reserveLoop rfl
  | clear ix x => exact step_clear hok (hheld ix rfl).1 h
  | clearStore ix x =>
    cases h
    exact step_clearStore hok
  | check ix jx =>
    obtain ⟨rfl, hn⟩ := hok
    obtain ⟨hix, hbit⟩ := hheld jx rfl
    simp only [PoolPc.step, if_pos ((Bitmap.bit_eq_and hix).mpr hbit)] at h
    cases h
    exact .move rfl ⟨rfl, hn⟩
  | releaseLoad ix jx =>
    cases h
    exact .move rfl hok
  | releaseCas ix jx expected =>
    obtain ⟨rfl, hn⟩ := hok
    simp only [PoolPc.step] at h
    split at h
    · rename_i he
      subst he
      cases h
      exact .release rfl hn
    · cases h
      exact .move rfl ⟨rfl, hn⟩

/-- What holds at a point of a call depends on the thread's own block. -/
theorem PoolPc.Ok.congr (h : pc.Ok p slot) (ha : p'.hazPtrs = p.hazPtrs) (hb : p'.blkSize = p.blkSize)
    (hs : ∀ ix, pc.block = some ix → ∀ i < p.blkSize, slot' (p.block ix + i) = slot (p.block ix + i)) :
    pc.Ok p' slot' := by
  have hn : ∀ ix x, pc.block = some ix → x ≤ p.blkSize → NullUpTo p slot ix x → NullUpTo p' slot' ix x := by
    intro ix x hix hx h i hi
    have := hs ix hix i (by omega)
    simp only [Pool.block] at this h ⊢
    rw [ha, hb, this]
    exact h i hi
  cases pc with
  | clear ix x => exact ⟨hb ▸ h.1, hb ▸ h.2.1, hn ix x rfl h.2.1 h.2.2⟩
  | clearStore ix x => exact ⟨hb ▸ h.1, hb ▸ h.2.1, hn ix x rfl (Nat.le_of_lt h.2.1) h.2.2⟩
  | check ix jx => exact ⟨h.1, hb ▸ hn ix _ rfl (Nat.le_refl _) h.2⟩
  | releaseLoad ix jx => exact ⟨h.1, hb ▸ hn ix _ rfl (Nat.le_refl _) h.2⟩
  | releaseCas ix jx e => exact ⟨h.1, hb ▸ hn ix _ rfl (Nat.le_refl _) h.2⟩
  | _ => exact h

end Steps

/-! ## The invariant is kept -/

theorem PoolState.init_inv (h : (poolMachine n).init σ) : PoolInv σ := by
  obtain ⟨hbit, hslot, hidle⟩ := h
  have hnone : ∀ t ix, (σ.thread t).block ≠ some ix := by
    intro t ix ht
    rw [hidle] at ht
    cases ht
  refine ⟨fun t ix ht => absurd ht (hnone t ix), fun ix _ => ?_, fun t _ ix ht => absurd ht (hnone t ix),
    fun ix hix _ i hi => hslot _ ?_, fun t => by rw [hidle]; trivial⟩
  · rw [hbit]
    exact ⟨fun h => by simp at h, fun ⟨t, ht⟩ => absurd ht (hnone t ix)⟩
  · rw [Pool.contains_iff]
    exact ⟨by simp only [Pool.block]; omega, Pool.block_add_lt hix hi⟩

/-- **What an event can do.** -/
theorem next_cases {e : PoolEvent n} (h : PoolInv σ) (hn : (poolMachine n).next σ e = some σ') :
    ∃ t pc', PoolStep σ.pool σ.slot (σ.thread t) σ'.pool σ'.slot pc' ∧
      σ'.thread = Function.update σ.thread t pc' := by
  cases e with
  | reserve t len =>
    obtain ⟨pc', hpc, rfl⟩ := Option.map_eq_some_iff.mp hn
    refine ⟨t, pc', ?_, rfl⟩
    cases hth : σ.thread t with
    | idle =>
      rw [hth] at hpc
      cases hpc
      exact .move rfl trivial
    | failed =>
      rw [hth] at hpc
      cases hpc
      exact .move rfl trivial
    | _ =>
      rw [hth] at hpc
      cases hpc
  | store t i v =>
    cases hth : σ.thread t with
    | held ix =>
      simp only [poolMachine, hth, PoolPc.heldBlock] at hn
      split at hn
      · rename_i hi
        cases hn
        refine ⟨t, .held ix, ?_, by rw [← hth, Function.update_eq_self]⟩
        rw [hth]
        refine .keep rfl (fun a ha => ?_) trivial
        by_cases hax : a = σ.pool.block ix + i
        · exact ⟨ix, i, rfl, hi, hax⟩
        · exact absurd (Function.update_of_ne hax ..) ha
      · cases hn
    | _ => simp [poolMachine, hth, PoolPc.heldBlock] at hn
  | release t =>
    obtain ⟨pc', hpc, rfl⟩ := Option.map_eq_some_iff.mp hn
    refine ⟨t, pc', ?_, rfl⟩
    cases hth : σ.thread t with
    | held ix =>
      rw [hth] at hpc
      cases hpc
      have hix := h.lt t ix (by rw [hth]; rfl)
      split
      · exact .move rfl ⟨(Pool.contains_block hix).mp ‹_›, Nat.zero_le _, fun i hi => by omega⟩
      · exact .move rfl trivial
    | _ =>
      rw [hth] at hpc
      cases hpc
  | step t =>
    obtain ⟨⟨p', slot', pc'⟩, hstep, rfl⟩ := Option.map_eq_some_iff.mp hn
    refine ⟨t, pc', step_cases (h.pc t) (fun ix hix => ?_) hstep, rfl⟩
    have hlt := h.lt t ix hix
    exact ⟨hlt, (h.bit ix hlt).mpr ⟨t, hix⟩⟩

section Keep

variable {p p' : Pool} {slot slot' : Slots} {thread : Fin n → PoolPc} {pc : PoolPc}

theorem block_update (u : Fin n) :
    (Function.update thread t pc u).block = if u = t then pc.block else (thread u).block := by
  split
  · subst_vars
    rw [Function.update_self]
  · rw [Function.update_of_ne ‹_›]

theorem block_update_of_eq (hb : pc.block = (thread t).block) (u : Fin n) :
    (Function.update thread t pc u).block = (thread u).block := by
  rw [block_update]
  split
  · subst_vars
    exact hb
  · rfl

theorem PoolInv.keep (h : PoolInv ⟨p, slot, thread⟩) (hb : pc.block = (thread t).block)
    (hw : ∀ a, slot' a ≠ slot a → ∃ ix i, (thread t).block = some ix ∧ i < p.blkSize ∧ a = p.block ix + i)
    (hok : pc.Ok p slot') : PoolInv ⟨p, slot', Function.update thread t pc⟩ := by
  have hblock := block_update_of_eq hb
  have hheld : ∀ ix, Held ⟨p, slot', Function.update thread t pc⟩ ix ↔ Held ⟨p, slot, thread⟩ ix := by
    intro ix
    simp only [Held, hblock]
  refine ⟨fun u ix hu => h.lt u ix ((hblock u).symm.trans hu), fun ix hix => (h.bit ix hix).trans (hheld ix).symm,
    fun u v ix hu hv => h.apart u v ix ((hblock u).symm.trans hu) ((hblock v).symm.trans hv),
    fun ix hix hfree i hi => ?_, fun u => ?_⟩
  · rw [hheld] at hfree
    have hz := h.clean ix hix hfree i hi
    by_contra hne
    obtain ⟨jx, j, hjx, hj, ha⟩ := hw _ fun heq => hne (heq.trans hz)
    obtain rfl := Pool.block_inj hi hj ha
    exact hfree ⟨t, hjx⟩
  · by_cases hu : u = t
    · subst hu
      simpa using hok
    · simp only [Function.update_of_ne hu]
      refine (h.pc u).congr rfl rfl fun ix hix i hi => ?_
      -- what `t` writes is not in the block of another
      by_contra hne
      obtain ⟨jx, j, hjx, hj, ha⟩ := hw _ hne
      obtain rfl := Pool.block_inj hi hj ha
      exact hu (h.apart u t ix hix hjx)

theorem PoolInv.reserve (h : PoolInv ⟨p, slot, thread⟩) (hb : (thread t).block = none) (hix : ix < 32)
    (hbit : p.bitmap.getLsbD ix = false) :
    PoolInv ⟨{ p with bitmap := p.bitmap ||| Bitmap.bit 32 ix }, slot, Function.update thread t (.held ix)⟩ := by
  have hfree : ¬ Held ⟨p, slot, thread⟩ ix := by
    intro hheld
    rw [(h.bit ix hix).mpr hheld] at hbit
    cases hbit
  have hblock : ∀ u jx, (Function.update thread t (.held ix) u).block = some jx →
      (thread u).block = some jx ∨ u = t ∧ jx = ix := by
    intro u jx hu
    rw [block_update] at hu
    split at hu
    · cases hu
      exact .inr ⟨‹_›, rfl⟩
    · exact .inl hu
  have hheld : ∀ jx, Held ⟨{ p with bitmap := p.bitmap ||| Bitmap.bit 32 ix }, slot,
      Function.update thread t (.held ix)⟩ jx ↔ Held ⟨p, slot, thread⟩ jx ∨ ix = jx := by
    intro jx
    constructor
    · intro hu
      obtain ⟨u, hu⟩ := hu
      exact (hblock u jx hu).imp (fun h => ⟨u, h⟩) fun h => h.2.symm
    · intro hu
      rcases hu with ⟨u, hu⟩ | rfl
      · refine ⟨u, ?_⟩
        have hut : u ≠ t := by
          rintro rfl
          rw [hb] at hu
          cases hu
        simpa [Function.update_of_ne hut] using hu
      · exact ⟨t, by simp [PoolPc.block]⟩
  refine ⟨fun u jx hu => ?_, fun jx hjx => ?_, fun u v jx hu hv => ?_, fun jx hjx hj => ?_, fun u => ?_⟩
  · rcases hblock u jx hu with hu | ⟨-, rfl⟩
    · exact h.lt u jx hu
    · exact hix
  · rw [Bitmap.getLsbD_or_bit hix, hheld]
    exact or_congr_left (h.bit jx hjx)
  · rcases hblock u jx hu with hu' | ⟨hut, hjx⟩
    · rcases hblock v jx hv with hv' | ⟨-, hjx⟩
      · exact h.apart u v jx hu' hv'
      · exact absurd ⟨u, hjx ▸ hu'⟩ hfree
    · rcases hblock v jx hv with hv' | ⟨hvt, -⟩
      · exact absurd ⟨v, hjx ▸ hv'⟩ hfree
      · rw [hut, hvt]
  · rw [hheld, not_or] at hj
    exact h.clean jx hjx hj.1
  · by_cases hu : u = t
    · subst hu
      simp [PoolPc.Ok]
    · simp only [Function.update_of_ne hu]
      exact (h.pc u).congr rfl rfl fun _ _ _ _ => rfl

theorem PoolInv.release (h : PoolInv ⟨p, slot, thread⟩) (hb : (thread t).block = some ix)
    (hn : NullUpTo p slot ix p.blkSize) :
    PoolInv ⟨{ p with bitmap := p.bitmap ^^^ Bitmap.bit 32 ix }, slot, Function.update thread t .idle⟩ := by
  have hix := h.lt t ix hb
  have hbit := (h.bit ix hix).mpr ⟨t, hb⟩
  have hblock : ∀ u jx, (Function.update thread t .idle u).block = some jx ↔ (thread u).block = some jx ∧ u ≠ t := by
    intro u jx
    by_cases hu : u = t
    · subst hu
      simp [PoolPc.block]
    · simp [hu]
  have hheld : ∀ jx, Held ⟨{ p with bitmap := p.bitmap ^^^ Bitmap.bit 32 ix }, slot,
      Function.update thread t .idle⟩ jx ↔ Held ⟨p, slot, thread⟩ jx ∧ ix ≠ jx := by
    intro jx
    simp only [Held, hblock]
    constructor
    · intro hu
      obtain ⟨u, hu, hut⟩ := hu
      refine ⟨⟨u, hu⟩, ?_⟩
      rintro rfl
      exact hut (h.apart u t ix hu hb)
    · intro hu
      obtain ⟨⟨u, hu⟩, hne⟩ := hu
      refine ⟨u, hu, ?_⟩
      rintro rfl
      exact hne (Option.some.inj (hb.symm.trans hu))
  refine ⟨fun u jx hu => h.lt u jx ((hblock u jx).mp hu).1, fun jx hjx => ?_,
    fun u v jx hu hv => h.apart u v jx ((hblock u jx).mp hu).1 ((hblock v jx).mp hv).1, fun jx hjx hj => ?_,
      fun u => ?_⟩
  · rw [Bitmap.getLsbD_xor_bit hbit, hheld]
    exact and_congr_left' (h.bit jx hjx)
  · rw [hheld] at hj
    by_cases hij : ix = jx
    · subst hij
      exact hn
    · exact h.clean jx hjx fun hh => hj ⟨hh, hij⟩
  · by_cases hu : u = t
    · subst hu
      simp [PoolPc.Ok]
    · simp only [Function.update_of_ne hu]
      exact (h.pc u).congr rfl rfl fun _ _ _ _ => rfl

end Keep

/-- **Every event keeps the invariant.** -/
theorem PoolInv.next {e : PoolEvent n} (h : PoolInv σ) (hn : (poolMachine n).next σ e = some σ') : PoolInv σ' := by
  obtain ⟨t, pc', hs, hth⟩ := next_cases h hn
  obtain ⟨p, slot, thread⟩ := σ
  obtain ⟨p', slot', thread'⟩ := σ'
  obtain rfl : thread' = _ := hth
  cases hs with
  | keep hb hw hok => exact h.keep hb hw hok
  | reserve hb hix hbit => exact h.reserve hb hix hbit
  | release hb hnull => exact h.release hb hnull

theorem pool_inv (h : (poolMachine n).Reachable σ) : PoolInv σ :=
  h.invariant (fun _ hi => PoolState.init_inv hi) fun _ _ _ hi _ hn => hi.next hn

/-! ## Safety -/

/-- `reserve_impl` of the pool's block size gives up only when all blocks are held. -/
theorem failed_full {p' : Pool} {slot' : Slots} (h : PoolInv σ)
    (hs : (σ.thread t).step σ.pool σ.slot = some (p', slot', .failed))
    (hlen : ∀ len, σ.thread t = .reserveLoad len → len = σ.pool.blkSize) (hix : ix < 32) : Held σ ix := by
  suffices hfull : σ.pool.bitmap = Pool.full by
    exact (h.bit ix hix).mp (Bitmap.eq_allOnes_iff.mp hfull ix hix)
  have hloop : ∀ e, PoolPc.failed = reserveLoop e → e = Pool.full := by
    intro e he
    unfold reserveLoop at he
    split at he
    · assumption
    · cases he
  cases hth : σ.thread t with
  | reserveLoad len =>
    rw [hth] at hs
    simp only [PoolPc.step, hlen len hth, ne_eq, not_true_eq_false, if_false, Option.some.injEq, Prod.mk.injEq] at hs
    exact hloop _ hs.2.2.symm
  | reserveCas e =>
    have he : e ≠ Pool.full := by
      have hok := h.pc t
      rw [hth] at hok
      exact hok
    rw [hth] at hs
    by_cases heq : σ.pool.bitmap = e
    · obtain ⟨jx, -, hturn, -⟩ := Pool.turn_ok heq he
      simp [PoolPc.step, hturn] at hs
    · simp only [PoolPc.step, Pool.turn_fail heq he, Option.some.injEq, Prod.mk.injEq] at hs
      exact hloop _ hs.2.2.symm
  | clear jx x =>
    rw [hth] at hs
    simp only [PoolPc.step, releaseFind] at hs
    split at hs
    · split at hs <;> simp at hs
    · split at hs <;> simp at hs
  | check jx kx =>
    rw [hth] at hs
    simp only [PoolPc.step] at hs
    split at hs <;> simp at hs
  | releaseCas jx kx e =>
    rw [hth] at hs
    simp only [PoolPc.step] at hs
    split at hs <;> simp at hs
  | _ =>
    rw [hth] at hs
    simp [PoolPc.step] at hs

/-- **A pool is safe.** In every state of every run no block has two holders,
the set bits are the held blocks, and the assertion does not fail. A step
that hands out a block hands out null slots; one of a holder that releases
writes to its own block and its own bit only; and one by which
`reserve_impl(blk_size)` returns `nullptr` is taken when all blocks are held. -/
theorem pool_safe (h : (poolMachine n).Reachable σ) :
    (∀ t u ix, (σ.thread t).block = some ix → (σ.thread u).block = some ix → t = u) ∧
    (∀ ix < 32, σ.pool.bitmap.getLsbD ix = true ↔ ∃ t, (σ.thread t).block = some ix) ∧
    (∀ t ix, σ.thread t ≠ .crashed ix) ∧
    ∀ t σ', (poolMachine n).next σ (.step t) = some σ' →
      (∀ ix, (σ.thread t).block = none → (σ'.thread t).block = some ix →
        ∀ i < σ'.pool.blkSize, σ'.slot (σ'.pool.block ix + i) = 0) ∧
      (∀ ix, (σ.thread t).block = some ix →
        (∀ a, σ'.slot a ≠ σ.slot a → ∃ i < σ.pool.blkSize, a = σ.pool.block ix + i) ∧
        ∀ jx, jx ≠ ix → σ'.pool.bitmap.getLsbD jx = σ.pool.bitmap.getLsbD jx) ∧
      (σ'.thread t = .failed → (∀ len, σ.thread t = .reserveLoad len → len = σ.pool.blkSize) →
        ∀ ix < 32, ∃ u, (σ.thread u).block = some ix) := by
  have hi := pool_inv h
  refine ⟨hi.apart, hi.bit, fun t ix ht => ?_, fun t σ' hn => ?_⟩
  · have := hi.pc t
    rw [ht] at this
    exact this
  obtain ⟨⟨p', slot', pc'⟩, hstep, rfl⟩ := Option.map_eq_some_iff.mp hn
  have hheld : ∀ ix, (σ.thread t).block = some ix → ix < 32 ∧ σ.pool.bitmap.getLsbD ix = true := fun ix hix =>
    ⟨hi.lt t ix hix, (hi.bit ix (hi.lt t ix hix)).mpr ⟨t, hix⟩⟩
  have hs := step_cases (hi.pc t) hheld hstep
  simp only [Function.update_self]
  refine ⟨fun ix hnone hix => ?_, fun ix hix => ?_, fun hfail hlen ix hix => ?_⟩
  · cases hs with
    | keep hb =>
      rw [hb, hnone] at hix
      cases hix
    | reserve hb hlt hbit =>
      cases hix
      refine hi.clean _ hlt fun hh => ?_
      rw [(hi.bit _ hlt).mpr hh] at hbit
      cases hbit
    | release hb => cases hix
  · cases hs with
    | keep hb hw hok =>
      refine ⟨fun a ha => ?_, fun _ _ => rfl⟩
      obtain ⟨jx, i, hjx, hi', ha'⟩ := hw a ha
      obtain rfl := Option.some.inj (hix.symm.trans hjx)
      exact ⟨i, hi', ha'⟩
    | reserve hb =>
      rw [hix] at hb
      cases hb
    | release hb hnull =>
      obtain rfl := Option.some.inj (hix.symm.trans hb)
      refine ⟨fun a ha => absurd rfl ha, fun jx hjx => ?_⟩
      rw [Bool.eq_iff_iff, Bitmap.getLsbD_xor_bit (hheld ix hix).2]
      exact ⟨fun h => h.1, fun h => ⟨h, hjx.symm⟩⟩
  · rw [hfail] at hstep
    exact failed_full hi hstep hlen hix

/-- A pool of two-slot blocks: both threads reserve, the first stores and releases. -/
theorem pool_safe_two :
    ∃ σ : PoolState 2, (poolMachine 2).Reachable σ ∧ σ.thread 0 = .idle ∧ σ.thread 1 = .held 1 ∧
      σ.pool.bitmap.getLsbD 1 = true ∧ σ.pool.bitmap.getLsbD 0 = false := by
  let σ₀ : PoolState 2 := { pool := { hazPtrs := 100, blkSize := 2 }, slot := fun _ => 0, thread := fun _ => .idle }
  have hinit : (poolMachine 2).init σ₀ := ⟨rfl, fun _ _ => rfl, fun _ => rfl⟩
  have hrun : ((poolMachine 2).run σ₀ ([.reserve 0 2, .reserve 1 2, .step 0, .step 1, .step 0, .step 1, .step 1,
      .store 0 1 7, .release 0] ++ List.replicate 7 (.step 0))).map (fun σ => (σ.thread 0, σ.thread 1)) =
        some (.idle, .held 1) := by
    decide +kernel
  obtain ⟨σ, hσ, hfacts⟩ := Option.map_eq_some_iff.mp hrun
  simp only [Prod.mk.injEq] at hfacts
  obtain ⟨h0, h1⟩ := hfacts
  have hreach := System.run_reachable (.init hinit) hσ
  obtain ⟨-, hbit, -⟩ := pool_safe hreach
  refine ⟨σ, hreach, h0, h1, (hbit 1 (by decide)).mpr ⟨1, by rw [h1]; rfl⟩, ?_⟩
  by_contra hb
  obtain ⟨t, ht⟩ := (hbit 0 (by decide)).mp (by simpa using hb)
  match t with
  | 0 => simp [h0, PoolPc.block] at ht
  | 1 => simp [h1, PoolPc.block] at ht

end Hazard

end SplitOrder
