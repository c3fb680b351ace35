/-
The blocks of the contexts: each is one of a pool, reserved in its bitmap,
and no other context's; a block that is reserved is some context's.

So the release in the destructor finds the pool and its bit set, and when
the last context is gone no pool has a reservation.
-/
import SplitOrder.Hazard.Closing

namespace SplitOrder

namespace Hazard

/-- The `S` slots at `ptr` are block `ix` of the pool `p`. -/
structure Domain.IsBlock (d : Domain) (p ix ptr S : Nat) : Prop where
  pool : d.HasPool p
  lt : ix < 32
  pos : 0 < S
  size : (d.pool p).blkSize = S
  start : ptr = (d.pool p).block ix

/-- The destructor has given the block back. -/
def Pc.Released (pc : Pc) : Prop := pc.after = some .destroy ∨ pc.after = some .destroyed

/-- The block of a context under construction, and its length. -/
def Pc.constructs : Pc → Option (Nat × Nat)
  | .construct S _ ptr _ => some (ptr, S)
  | _ => none

/-- The thread has reserved the `S` slots at `ptr`. -/
def Thread.HasBlock (th : Thread) (ptr S : Nat) : Prop :=
  th.pc.constructs = some (ptr, S) ∨ ∃ c, th.ctx = some c ∧ c.hazardPtrs = ptr ∧ c.S = S ∧ ¬ th.pc.Released

/-- What a thread that reserves or releases a block knows of the pools. -/
def Pc.Knows (d : Domain) (ctx : Option Context) : Pc → Prop
  | .reserve S _ again => 0 < S ∧ (again = true → 0 < d.poolsHead)
  | .reserveLoad S _ again p => 0 < S ∧ p ≤ d.poolsHead ∧ (again = true → 0 < p)
  | .reserveCas S _ _ p e => 0 < S ∧ d.HasPool p ∧ (d.pool p).blkSize = S ∧ e ≠ Pool.full
  | .poolsNext S _ | .poolsCas S _ _ => 0 < S
  | .countLoad S _ | .countStore S _ _ => 0 < S ∧ 0 < d.poolsHead
  | .releaseTest p => p ≤ d.poolsHead ∧ ∀ c, ctx = some c → ∃ q ix, d.IsBlock q ix c.hazardPtrs c.S ∧ q ≤ p
  | .releaseSlot p _ | .releaseStore p _ => ∀ c, ctx = some c → ∃ ix, d.IsBlock p ix c.hazardPtrs c.S
  | .releaseCheck p ix | .releaseLoad p ix | .releaseCas p ix _ =>
    ∀ c, ctx = some c → d.IsBlock p ix c.hazardPtrs c.S
  | .domainPools p => ∀ q, 0 < q → q ≤ p → (d.pool q).bitmap = 0#32
  | .crashed => False
  | _ => True

structure Thread.BlockOk (th : Thread) (d : Domain) : Prop where
  held : ∀ ptr S, th.HasBlock ptr S → ∃ p ix, d.IsBlock p ix ptr S ∧ d.Reserved p ix
  knows : th.pc.Knows d th.ctx

section Step

variable {d d' : Domain} {th th' : Thread} {pc : Pc} {k : After} {e : Effect} {addr p q ix jx ptr S S' : Nat}
  {ctx : Option Context} {c : Context}

theorem Domain.IsBlock.reserved_iff (h : d.IsBlock p ix ptr S) :
    d.Reserved p ix ↔ (d.pool p).bitmap.getLsbD ix = true :=
  ⟨fun hr => hr.2.2, fun hb => ⟨h.pool, h.lt, hb⟩⟩

theorem Domain.IsBlock.contains (h : d.IsBlock p ix ptr S) : (d.pool p).contains ptr = true := by
  rw [h.start]
  exact (Pool.contains_block h.lt).mpr (h.size ▸ h.pos)

/-- An address is of one block at most. -/
theorem Domain.IsBlock.unique (h : d.IsBlock p ix ptr S) (h' : d.IsBlock q jx ptr S') (ha : d.Apart) :
    p = q ∧ ix = jx := by
  obtain rfl := ha p q ptr h.pool h'.pool h.contains h'.contains
  exact ⟨rfl, (Pool.block_eq_iff (h.size ▸ h.pos)).mp (h.start.symm.trans h'.start)⟩

theorem Grows.isBlock (h : Grows d d') (hb : d.IsBlock p ix ptr S) : d'.IsBlock p ix ptr S :=
  ⟨h.hasPool hb.pool, hb.lt, hb.pos, (h.blkSize p hb.pool).trans hb.size, hb.start.trans (h.block hb.pool).symm⟩

theorem Pc.Knows.mono (h : pc.Knows d ctx) (hg : Grows d d') (hcl : pc.closing = false) : pc.Knows d' ctx := by
  have hhead := hg.head
  cases pc with
  | reserve => exact ⟨h.1, fun ha => Nat.lt_of_lt_of_le (h.2 ha) hhead⟩
  | reserveLoad => exact ⟨h.1, Nat.le_trans h.2.1 hhead, h.2.2⟩
  | reserveCas => exact ⟨h.1, hg.hasPool h.2.1, (hg.blkSize _ h.2.1).trans h.2.2.1, h.2.2.2⟩
  | countLoad | countStore => exact ⟨h.1, Nat.lt_of_lt_of_le h.2 hhead⟩
  | releaseTest p =>
    refine ⟨Nat.le_trans h.1 hhead, fun c hc => ?_⟩
    obtain ⟨q, ix, hb, hq⟩ := h.2 c hc
    exact ⟨q, ix, hg.isBlock hb, hq⟩
  | releaseSlot | releaseStore =>
    intro c hc
    obtain ⟨ix, hb⟩ := h c hc
    exact ⟨ix, hg.isBlock hb⟩
  | releaseCheck | releaseLoad | releaseCas => exact fun c hc => hg.isBlock (h c hc)
  | domainPools => cases hcl
  | _ => exact h

/-- What a step of a thread does to the blocks. -/
structure Claims (d : Domain) (th : Thread) (e : Effect) : Prop where
  grows : Grows d e.domain
  apart : e.domain.Apart
  /-- only the thread's own bit is cleared -/
  kept : ∀ p ix, d.Reserved p ix → ¬ th.HasBlock ((d.pool p).block ix) (d.pool p).blkSize → e.domain.Reserved p ix
  /-- and a bit it sets is its own -/
  gained : ∀ p ix, e.domain.Reserved p ix →
    e.thread.HasBlock ((e.domain.pool p).block ix) (e.domain.pool p).blkSize ∨
      d.Reserved p ix ∧ ¬ th.HasBlock ((d.pool p).block ix) (d.pool p).blkSize
  /-- a block it takes was free -/
  fresh : ∀ ptr S, e.thread.HasBlock ptr S → th.HasBlock ptr S ∨ ∃ p ix, d.IsBlock p ix ptr S ∧ ¬ d.Reserved p ix
  ok : e.thread.BlockOk e.domain

/-- A step that leaves the pools and the thread's block alone. -/
theorem Claims.same (ha : d.Apart) (hb : th.BlockOk d) (hh : e.domain.poolsHead = d.poolsHead)
    (hp : e.domain.pool = d.pool) (hblock : ∀ ptr S, e.thread.HasBlock ptr S ↔ th.HasBlock ptr S)
    (hk : e.thread.pc.Knows e.domain e.thread.ctx) : Claims d th e := by
  have hs : d.SameArrays e.domain := ⟨hh, fun p => by rw [hp], fun p => by rw [hp]⟩
  have hres : ∀ p ix, e.domain.Reserved p ix ↔ d.Reserved p ix := by
    intro p ix
    simp only [Domain.Reserved, Domain.HasPool, hh, hp]
  refine ⟨hs.grows, hs.apart ha, fun p ix hr _ => (hres p ix).mpr hr, fun p ix hr => ?_, fun ptr S h => ?_,
    fun ptr S h => ?_, hk⟩
  · rw [hp, hblock]
    by_cases h : th.HasBlock ((d.pool p).block ix) (d.pool p).blkSize
    · exact .inl h
    · exact .inr ⟨(hres p ix).mp hr, h⟩
  · exact .inl ((hblock ptr S).mp h)
  · obtain ⟨p, ix, h1, h2⟩ := hb.held ptr S ((hblock ptr S).mp h)
    exact ⟨p, ix, hs.grows.isBlock h1, (hres p ix).mpr h2⟩

theorem Claims.goto (ha : d.Apart) (hb : th.BlockOk d) (hh : d'.poolsHead = d.poolsHead) (hp : d'.pool = d.pool)
    (h1 : pc.constructs = th.pc.constructs) (h2 : pc.Released ↔ th.pc.Released) (hk : pc.Knows d' th.ctx) :
    Claims d th (goto d' th pc) := by
  refine .same ha hb hh hp (fun ptr S => ?_) hk
  simp only [Thread.HasBlock, Hazard.goto, Thread.setPc, h1, h2]

theorem After.resume_hasBlock (h1 : th.pc.constructs = none) (h2 : th.pc.after = some k) :
    (k.resume th).HasBlock ptr S ↔ th.HasBlock ptr S := by
  unfold Thread.HasBlock Pc.Released
  rw [h1, h2]
  cases k <;> simp [After.resume, Thread.setPc, Pc.constructs, Pc.after]

theorem After.resume_knows : (k.resume th).pc.Knows d ctx := by
  cases k <;> trivial

theorem Claims.resume (ha : d.Apart) (hb : th.BlockOk d) (hh : d'.poolsHead = d.poolsHead) (hp : d'.pool = d.pool)
    (h1 : th.pc.constructs = none) (h2 : th.pc.after = some k) : Claims d th { domain := d', thread := k.resume th } :=
  .same ha hb hh hp (fun _ _ => After.resume_hasBlock h1 h2) After.resume_knows

theorem Claims.enqueued {b : Bool} (ha : d.Apart) (hb : th.BlockOk d) (hh : d'.poolsHead = d.poolsHead)
    (hp : d'.pool = d.pool) (h1 : th.pc.constructs = none) (h2 : th.pc.after = some k) :
    Claims d th { domain := d', thread := k.enqueued b th } := by
  unfold After.enqueued
  split
  · refine .same ha hb hh hp (fun ptr S => ?_) trivial
    unfold Thread.HasBlock Pc.Released
    rw [h1, h2]
    rfl
  · exact .resume ha hb hh hp h1 h2

/-! ## Bitmaps -/

/-- Only the bitmap of the pool `p` is another. -/
def Domain.setBitmap (d : Domain) (p : Nat) (b : BitVec 32) : Domain := d.setPool p { d.pool p with bitmap := b }

theorem setBitmap_sameArrays {b : BitVec 32} : d.SameArrays (d.setBitmap p b) := Domain.setPool_sameArrays rfl rfl

theorem setBitmap_reserved {b : BitVec 32} : (d.setBitmap p b).Reserved q jx ↔
    d.HasPool q ∧ jx < 32 ∧ (if q = p then b else (d.pool q).bitmap).getLsbD jx = true := by
  by_cases hq : q = p
  · subst hq
    simp [Domain.Reserved, Domain.setBitmap, Domain.setPool, Domain.HasPool]
  · simp [Domain.Reserved, Domain.setBitmap, Domain.setPool, Domain.HasPool, hq]

theorem setBit_reserved (hp : d.HasPool p) (hix : ix < 32) :
    (d.setBitmap p ((d.pool p).bitmap ||| Bitmap.bit 32 ix)).Reserved q jx ↔ d.Reserved q jx ∨ q = p ∧ jx = ix := by
  rw [setBitmap_reserved]
  by_cases hq : q = p
  · subst hq
    rw [if_pos rfl, Bitmap.getLsbD_or_bit hix]
    constructor
    · rintro ⟨h1, h2, h3 | h3⟩
      · exact .inl ⟨h1, h2, h3⟩
      · exact .inr ⟨rfl, h3.symm⟩
    · rintro (⟨h1, h2, h3⟩ | ⟨-, h3⟩)
      · exact ⟨h1, h2, .inl h3⟩
      · exact ⟨hp, h3 ▸ hix, .inr h3.symm⟩
  · simp [Domain.Reserved, hq]

theorem clearBit_reserved (hbit : (d.pool p).bitmap.getLsbD ix = true) :
    (d.setBitmap p ((d.pool p).bitmap ^^^ Bitmap.bit 32 ix)).Reserved q jx ↔ d.Reserved q jx ∧ ¬ (q = p ∧ jx = ix) := by
  rw [setBitmap_reserved]
  by_cases hq : q = p
  · subst hq
    rw [if_pos rfl, Bitmap.getLsbD_xor_bit hbit]
    constructor
    · rintro ⟨h1, h2, h3, h4⟩
      exact ⟨⟨h1, h2, h3⟩, fun h => h4 h.2.symm⟩
    · rintro ⟨⟨h1, h2, h3⟩, h4⟩
      exact ⟨h1, h2, h3, fun h => h4 ⟨rfl, h.symm⟩⟩
  · simp [Domain.Reserved, hq]

/-! ## Reserving -/

theorem reserveTurn_claims {R : Nat} {again : Bool} {expected : BitVec 32} (ha : d.Apart) (hb : th.BlockOk d)
    (h1 : th.pc.constructs = none) (h2 : th.pc.after = none) (hS : 0 < S) (hp : d.HasPool p)
    (hsize : (d.pool p).blkSize = S) : Claims d th (goto d th (reserveTurn S R again p expected)) := by
  have hrel : ¬ th.pc.Released := by simp [Pc.Released, h2]
  unfold reserveTurn
  split
  · exact .goto ha hb rfl rfl h1.symm (iff_of_false (by simp [Pc.Released, Pc.after]) hrel) ⟨hS, hp.2, fun _ => hp.1⟩
  · exact .goto ha hb rfl rfl h1.symm (iff_of_false (by simp [Pc.Released, Pc.after]) hrel) ⟨hS, hp, hsize, ‹_›⟩

theorem reserveLoad_claims {R : Nat} {again : Bool} (ha : d.Apart) (hb : th.BlockOk d)
    (hpc : th.pc = .reserveLoad S R again p) : Claims d th (reserveLoad d th S R again p) := by
  obtain ⟨ctx, deleted, delIndex, pc⟩ := th
  cases hpc
  obtain ⟨hS, hp, hagain⟩ := hb.knows
  unfold reserveLoad
  split
  · have hno : again = false := by
      by_contra hne
      exact absurd (hagain (Bool.eq_true_of_not_eq_false hne)) (by omega)
    subst hno
    exact .goto ha hb rfl rfl rfl Iff.rfl hS
  · split
    · exact .goto ha hb rfl rfl rfl Iff.rfl hb.knows
    · exact reserveTurn_claims ha hb rfl rfl hS ⟨by omega, hp⟩ (Eq.symm (not_not.mp ‹_›))

/-- The block that is taken was free, and is the thread's. -/
theorem reserveCas_claims {R : Nat} {again : Bool} {expected : BitVec 32} (ha : d.Apart) (hb : th.BlockOk d)
    (hctx : th.ctx = none) (hpc : th.pc = .reserveCas S R again p expected) :
    Claims d th (reserveCas d th S R again p expected) := by
  obtain ⟨ctx, deleted, delIndex, pc⟩ := th
  cases hpc
  cases hctx
  obtain ⟨hS, hp, hsize, hfull⟩ := hb.knows
  unfold reserveCas
  by_cases hcas : (d.pool p).bitmap = expected
  · obtain ⟨ix, hix, hturn, hbit⟩ := Pool.turn_ok hcas hfull
    subst hcas
    rw [hturn]
    change Claims d _ (Hazard.goto (d.setBitmap p ((d.pool p).bitmap ||| Bitmap.bit 32 ix)) _ _)
    have hnew : d.IsBlock p ix ((d.pool p).block ix) S := ⟨hp, hix, hS, hsize, rfl⟩
    have hfree : ¬ d.Reserved p ix := by
      rw [hnew.reserved_iff, hbit]
      exact Bool.false_ne_true
    have hsame := setBitmap_sameArrays (d := d) (p := p) (b := (d.pool p).bitmap ||| Bitmap.bit 32 ix)
    have hno : ∀ ptr S', ¬ Thread.HasBlock
        ⟨none, deleted, delIndex, .reserveCas S R again p (d.pool p).bitmap⟩ ptr S' := by
      rintro ptr S' (h | ⟨c, hc, -⟩)
      · cases h
      · cases hc
    have hblock : ∀ ptr S', Thread.HasBlock ⟨none, deleted, delIndex, .construct S R ((d.pool p).block ix) 0⟩ ptr S' →
        ptr = (d.pool p).block ix ∧ S' = S := by
      rintro ptr S' (h | ⟨c, hc, -⟩)
      · cases h
        exact ⟨rfl, rfl⟩
      · cases hc
    refine ⟨hsame.grows, hsame.apart ha, fun q jx hr _ => (setBit_reserved hp hix).mpr (.inl hr), fun q jx hr => ?_,
      fun ptr S' h => ?_, fun ptr S' h => ?_, trivial⟩
    · rcases (setBit_reserved hp hix).mp hr with h | ⟨rfl, rfl⟩
      · exact .inr ⟨h, hno _ _⟩
      · refine .inl (.inl ?_)
        have hb1 : ((d.setBitmap q ((d.pool q).bitmap ||| Bitmap.bit 32 jx)).pool q).block jx = (d.pool q).block jx :=
          hsame.grows.block hp
        have hb2 : ((d.setBitmap q ((d.pool q).bitmap ||| Bitmap.bit 32 jx)).pool q).blkSize = S :=
          (hsame.blkSize q).trans hsize
        exact (congrArg₂ (fun x y => some (x, y)) hb1 hb2).symm
    · obtain ⟨rfl, rfl⟩ := hblock ptr S' h
      exact .inr ⟨p, ix, hnew, hfree⟩
    · obtain ⟨rfl, rfl⟩ := hblock ptr S' h
      exact ⟨p, ix, hsame.grows.isBlock hnew, (setBit_reserved hp hix).mpr (.inr ⟨rfl, rfl⟩)⟩
  · rw [Pool.turn_fail hcas hfull]
    exact reserveTurn_claims ha hb rfl rfl hS hp hsize

/-- A new pool has no reservation. -/
theorem poolsCas_claims {R next : Nat} (ha : d.Apart) (hb : th.BlockOk d) (hctx : th.ctx = none)
    (hpc : th.pc = .poolsCas S R next) (he : poolsCas d th addr S R next = some e) : Claims d th e := by
  obtain ⟨ctx, deleted, delIndex, pc⟩ := th
  cases hpc
  cases hctx
  have hS : 0 < S := hb.knows
  have hnone : ∀ (pc : Pc) ptr S', pc.constructs = none → ¬ Thread.HasBlock ⟨none, deleted, delIndex, pc⟩ ptr S' := by
    rintro pc ptr S' hpc (h | ⟨c, hc, -⟩)
    · rw [show pc.constructs = some (ptr, S') from h] at hpc
      cases hpc
    · cases hc
  unfold poolsCas at he
  split at he
  · split at he
    · rename_i hfresh
      cases he
      have hold : ∀ q, d.HasPool q → (Domain.pushPool
          { d with slot := fun a => if Pool.contains { hazPtrs := addr, blkSize := S } a then 0 else d.slot a }
          { hazPtrs := addr, blkSize := S }).pool q = d.pool q := by
        exact fun q hq => update_pool_of_hasPool hq
      refine ⟨⟨Nat.le_succ _, fun q hq => congrArg Pool.hazPtrs (hold q hq),
        fun q hq => congrArg Pool.blkSize (hold q hq)⟩,
        ?_, fun q jx hr _ => ?_, fun q jx hr => ?_, fun ptr S' h => ?_, fun ptr S' h => ?_, ⟨hS, Nat.succ_pos _⟩⟩
      · have ha' : Domain.Apart
            { d with slot := fun a => if Pool.contains { hazPtrs := addr, blkSize := S } a then 0 else d.slot a } := ha
        exact ha'.pushPool hfresh
      · refine ⟨⟨hr.1.1, Nat.le_succ_of_le hr.1.2⟩, hr.2.1, ?_⟩
        change (Domain.pool (Domain.pushPool _ _) q).bitmap.getLsbD jx = true
        rw [hold q hr.1]
        exact hr.2.2
      · refine .inr ⟨?_, hnone _ _ _ rfl⟩
        obtain ⟨⟨h1, h2⟩, h3, h4⟩ := hr
        have h2 : q ≤ d.poolsHead + 1 := h2
        by_cases hq : q = d.poolsHead + 1
        · subst hq
          exfalso
          revert h4
          change (Function.update d.pool (d.poolsHead + 1) _ (d.poolsHead + 1)).bitmap.getLsbD jx = true → False
          rw [Function.update_self]
          simp
        · have hp : d.HasPool q := ⟨h1, by omega⟩
          refine ⟨hp, h3, ?_⟩
          rw [← hold q hp]
          exact h4
      · exact absurd h (hnone _ _ _ rfl)
      · exact absurd h (hnone _ _ _ rfl)
    · cases he
  · cases he
    exact .goto ha hb rfl rfl rfl Iff.rfl hS

theorem construct_claims {R ptr i : Nat} (ha : d.Apart) (hb : th.BlockOk d) (hctx : th.ctx = none)
    (hpc : th.pc = .construct S R ptr i) : Claims d th (construct d th S R ptr i) := by
  obtain ⟨ctx, deleted, delIndex, pc⟩ := th
  cases hpc
  cases hctx
  unfold construct
  split
  · exact .goto ha hb rfl rfl rfl Iff.rfl trivial
  · refine .same ha hb rfl rfl (fun ptr' S' => ?_) trivial
    simp only [Thread.HasBlock, Pc.constructs, Pc.Released, Pc.after]
    simp

/-! ## Releasing -/

theorem Thread.hasBlock_of_ctx (hctx : th.ctx = some c) (h : ¬ th.pc.Released) : th.HasBlock c.hazardPtrs c.S :=
  .inr ⟨c, hctx, rfl, rfl, h⟩

theorem release_claims (ha : d.Apart) (hb : th.BlockOk d) (hpc : th.pc = .release) :
    Claims d th (goto d th (.releaseTest d.poolsHead)) := by
  obtain ⟨ctx, deleted, delIndex, pc⟩ := th
  cases hpc
  refine .goto ha hb rfl rfl rfl Iff.rfl ⟨Nat.le_refl _, fun c hc => ?_⟩
  obtain ⟨p, ix, hblock, -⟩ := hb.held _ _ (Thread.hasBlock_of_ctx hc (by simp [Pc.Released, Pc.after]))
  exact ⟨p, ix, hblock, hblock.pool.2⟩

theorem releaseTest_claims (ha : d.Apart) (hb : th.BlockOk d) (hctx : th.ctx = some c) (hpc : th.pc = .releaseTest p) :
    Claims d th (releaseTest d th c p) := by
  obtain ⟨ctx, deleted, delIndex, pc⟩ := th
  cases hpc
  cases hctx
  obtain ⟨hp, hown⟩ := hb.knows
  obtain ⟨q, ix, hblock, hqp⟩ := hown c rfl
  have hq := hblock.pool.1
  unfold releaseTest
  rw [if_neg (by omega)]
  split
  · rename_i hcont
    have hpq : p = q := ha p q _ ⟨by omega, hp⟩ hblock.pool hcont hblock.contains
    subst hpq
    refine .goto ha hb rfl rfl rfl Iff.rfl fun c' hc' => ?_
    cases hc'
    exact ⟨ix, hblock⟩
  · rename_i hcont
    have hne : q ≠ p := by
      rintro rfl
      exact hcont hblock.contains
    refine .goto ha hb rfl rfl rfl Iff.rfl ⟨by simp only [Domain.poolNext]; omega, fun c' hc' => ?_⟩
    cases hc'
    exact ⟨q, ix, hblock, by simp only [Domain.poolNext]; omega⟩

theorem releaseSlot_claims {x : Nat} (ha : d.Apart) (hb : th.BlockOk d) (hctx : th.ctx = some c)
    (hpc : th.pc = .releaseSlot p x) : Claims d th (releaseSlot d th c p x) := by
  obtain ⟨ctx, deleted, delIndex, pc⟩ := th
  cases hpc
  cases hctx
  obtain ⟨ix, hblock⟩ := hb.knows c rfl
  unfold releaseSlot
  split
  · split
    · exact .goto ha hb rfl rfl rfl Iff.rfl hb.knows
    · exact .goto ha hb rfl rfl rfl Iff.rfl hb.knows
  · rw [hblock.start, Pool.findBlock_block hblock.lt (hblock.size ▸ hblock.pos)]
    refine .goto ha hb rfl rfl rfl Iff.rfl fun c' hc' => ?_
    cases hc'
    exact hblock

theorem releaseCheck_claims (ha : d.Apart) (hb : th.BlockOk d) (hctx : th.ctx = some c)
    (hpc : th.pc = .releaseCheck p ix) : Claims d th (releaseCheck d th p ix) := by
  obtain ⟨ctx, deleted, delIndex, pc⟩ := th
  cases hpc
  cases hctx
  have hblock : d.IsBlock p ix c.hazardPtrs c.S := hb.knows c rfl
  obtain ⟨q, jx, hblock', hres⟩ := hb.held _ _ (Thread.hasBlock_of_ctx rfl (by simp [Pc.Released, Pc.after]))
  obtain ⟨rfl, rfl⟩ := hblock.unique hblock' ha
  dsimp only [releaseCheck]
  rw [if_pos ((Bitmap.bit_eq_and hblock.lt).mpr hres.2.2)]
  exact .goto ha hb rfl rfl rfl Iff.rfl hb.knows

/-- The bit that is cleared is the thread's own. -/
theorem releaseCas_claims {expected : BitVec 32} (ha : d.Apart) (hb : th.BlockOk d) (hctx : th.ctx = some c)
    (hpc : th.pc = .releaseCas p ix expected) : Claims d th (releaseCas d th c p ix expected) := by
  obtain ⟨ctx, deleted, delIndex, pc⟩ := th
  cases hpc
  cases hctx
  have hblock : d.IsBlock p ix c.hazardPtrs c.S := hb.knows c rfl
  have hmine : Thread.HasBlock ⟨some c, deleted, delIndex, .releaseCas p ix expected⟩ c.hazardPtrs c.S :=
    Thread.hasBlock_of_ctx rfl (by simp [Pc.Released, Pc.after])
  obtain ⟨q, jx, hblock', hres⟩ := hb.held _ _ hmine
  obtain ⟨rfl, rfl⟩ := hblock.unique hblock' ha
  dsimp only [releaseCas]
  split
  · rename_i hcas
    subst hcas
    change Claims d _ (Hazard.goto (d.setBitmap p ((d.pool p).bitmap ^^^ Bitmap.bit 32 ix)) _ _)
    have hsame := setBitmap_sameArrays (d := d) (p := p) (b := (d.pool p).bitmap ^^^ Bitmap.bit 32 ix)
    have hnone : ∀ ptr S, ¬ Thread.HasBlock ⟨some c, deleted, delIndex, released c⟩ ptr S := by
      rintro ptr S (h | ⟨_, -, -, -, h⟩)
      · cases h
      · exact h (.inl rfl)
    refine ⟨hsame.grows, hsame.apart ha, fun q jx hr hno => (clearBit_reserved hres.2.2).mpr ⟨hr, ?_⟩,
      fun q jx hr => .inr ?_,
      fun ptr S h => absurd h (hnone ptr S), fun ptr S h => absurd h (hnone ptr S), trivial⟩
    · rintro ⟨rfl, rfl⟩
      apply hno
      rw [← hblock.start, hblock.size]
      exact hmine
    · obtain ⟨h1, h2⟩ := (clearBit_reserved hres.2.2).mp hr
      refine ⟨h1, ?_⟩
      rintro (h | ⟨c', hc', hptr, hS, -⟩)
      · cases h
      · cases hc'
        have hq : d.IsBlock q jx c.hazardPtrs c.S := ⟨h1.1, h1.2.1, hblock.pos, hS.symm, hptr⟩
        obtain ⟨rfl, rfl⟩ := hq.unique hblock ha
        exact h2 ⟨rfl, rfl⟩
  · exact .goto ha hb rfl rfl rfl Iff.rfl fun c' hc' => by
      cases hc'
      exact hblock

theorem domainPools_claims (ha : d.Apart) (hb : th.BlockOk d) (hpc : th.pc = .domainPools p) :
    Claims d th (domainPools d th p) := by
  obtain ⟨ctx, deleted, delIndex, pc⟩ := th
  cases hpc
  have hzero : ∀ q, 0 < q → q ≤ p → (d.pool q).bitmap = 0#32 := hb.knows
  unfold domainPools
  split
  · exact .goto ha hb rfl rfl rfl Iff.rfl trivial
  · rw [if_neg fun h => h (hzero p (by omega) (Nat.le_refl _))]
    exact .goto ha hb rfl rfl rfl Iff.rfl fun q h1 h2 => hzero q h1 (Nat.le_trans h2 (Nat.sub_le p 1))

/-- **A step takes a free block or gives back the thread's own**, and no assertion fails. -/
theorem Thread.step_claims {L : List Addr} (hok : th.Ok d L) (ha : d.Apart) (hb : th.BlockOk d)
    (hpc : th.pc ≠ .domainEnd)
    (hs : th.step d addr = some e) : Claims d th e := by
  obtain ⟨ctx, deleted, delIndex, pc⟩ := th
  have hk := hb.knows
  cases pc with
  | idle | ended | crashed => cases hs
  | reserve S R again =>
    cases hs
    exact .goto ha hb rfl rfl rfl Iff.rfl ⟨hk.1, Nat.le_refl _, hk.2⟩
  | poolsNext | countLoad =>
    cases hs
    exact .goto ha hb rfl rfl rfl Iff.rfl hk
  | countStore =>
    cases hs
    exact .goto ha hb rfl rfl rfl Iff.rfl ⟨hk.1, fun _ => hk.2⟩
  | collectIf | collectLoad | push | enqueueNull =>
    cases hs
    exact .same ha hb rfl rfl (fun _ _ => Iff.rfl) trivial
  | snapshot sa =>
    cases hs
    cases sa <;> exact .goto ha hb rfl rfl rfl Iff.rfl trivial
  | releaseLoad =>
    cases hs
    exact .goto ha hb rfl rfl rfl Iff.rfl hk
  | releaseStore =>
    obtain ⟨c, hc, rfl⟩ := Option.map_eq_some_iff.mp hs
    refine .goto ha hb rfl rfl rfl Iff.rfl fun c' hc' => ?_
    obtain ⟨ix, hblock⟩ := hk c' hc'
    exact ⟨ix, hblock.pool, hblock.lt, hblock.pos, hblock.size, hblock.start⟩
  | reserveLoad =>
    cases hs
    exact reserveLoad_claims ha hb rfl
  | reserveCas =>
    cases hs
    exact reserveCas_claims ha hb hok.2.1 rfl
  | poolsCas => exact poolsCas_claims ha hb hok.2.1 rfl hs
  | construct =>
    cases hs
    exact construct_claims ha hb hok.2.1 rfl
  | pushCas =>
    cases hs
    unfold pushCas
    split
    · exact .same ha hb rfl rfl (fun _ _ => Iff.rfl) trivial
    · exact .goto ha hb rfl rfl rfl Iff.rfl trivial
  | pushCount pa =>
    cases hs
    cases pa with
    | enqueue can => exact .enqueued ha hb rfl rfl rfl rfl
    | array x count can => exact .goto ha hb rfl rfl rfl Iff.rfl trivial
    | collect head => exact .goto ha hb rfl rfl rfl Iff.rfl trivial
  | enqueue =>
    obtain ⟨-, rfl⟩ := enqueue_cases hs
    exact .goto ha hb rfl rfl rfl Iff.rfl trivial
  | enqueueArray =>
    rcases enqueueArray_cases hs with ⟨item, -, -, -, -, rfl⟩ | ⟨-, -, rfl⟩ | ⟨-, rfl⟩
    · exact .goto ha hb rfl rfl rfl Iff.rfl trivial
    · exact .goto ha hb rfl rfl rfl Iff.rfl trivial
    · exact .enqueued ha hb rfl rfl rfl rfl
  | collectTest =>
    cases hs
    unfold collectTest
    split
    · exact .goto ha hb rfl rfl rfl Iff.rfl trivial
    · split
      · exact .goto ha hb rfl rfl rfl Iff.rfl trivial
      · exact .resume ha hb rfl rfl rfl rfl
  | collectZero =>
    cases hs
    unfold collectZero
    split <;> exact .goto ha hb rfl rfl rfl Iff.rfl trivial
  | collect =>
    cases hs
    unfold collect
    split
    · exact .resume ha hb rfl rfl rfl rfl
    · exact .goto ha hb rfl rfl rfl Iff.rfl trivial
  | snapshotLoad _ _ _ sa =>
    cases hs
    unfold snapshotLoad
    cases sa with
    | reclaim =>
      split
      · exact .goto ha hb rfl rfl rfl Iff.rfl trivial
      · split <;> exact .goto ha hb rfl rfl rfl Iff.rfl trivial
    | collect head k =>
      split
      · exact .goto ha hb rfl rfl rfl Iff.rfl trivial
      · split <;> exact .goto ha hb rfl rfl rfl Iff.rfl trivial
  | collectWalk head pprev snap k =>
    cases hs
    rcases collectWalk_cases d _ head pprev snap k with ⟨-, he⟩ | ⟨cur, -, -, he⟩ | ⟨cur, d', head', -, -, hd, he⟩
    · rw [he]
      exact .goto ha hb rfl rfl rfl Iff.rfl trivial
    · rw [he]
      exact .goto ha hb rfl rfl rfl Iff.rfl trivial
    · rw [he]
      rcases hd with rfl | ⟨b, rfl⟩ <;> exact .same ha hb rfl rfl (fun _ _ => Iff.rfl) trivial
  | collectPush head =>
    cases hs
    unfold collectPush
    cases head with
    | none => exact .resume ha hb rfl rfl rfl rfl
    | some b => exact .goto ha hb rfl rfl rfl Iff.rfl trivial
  | reclaim ix snap =>
    obtain ⟨c, hc, hr⟩ := Option.bind_eq_some_iff.mp hs
    rcases reclaim_cases hr with ⟨item, -, -, -, rfl⟩ | ⟨item, -, -, -, rfl⟩ | ⟨-, -, rfl⟩ | ⟨b, -, -, -, rfl⟩
    · exact .goto ha hb rfl rfl rfl Iff.rfl trivial
    · exact .same ha hb rfl rfl (fun _ _ => Iff.rfl) trivial
    · exact .goto ha hb rfl rfl rfl (by simp [Pc.Released, Pc.after]) trivial
    · exact .same ha hb rfl rfl (fun _ _ => Iff.rfl) trivial
  | destruct =>
    obtain ⟨c, hc, rfl⟩ := Option.map_eq_some_iff.mp hs
    unfold destruct
    split <;> exact .goto ha hb rfl rfl rfl Iff.rfl trivial
  | release =>
    cases hs
    exact release_claims ha hb rfl
  | releaseTest =>
    obtain ⟨c, hc, rfl⟩ := Option.map_eq_some_iff.mp hs
    exact releaseTest_claims ha hb hc rfl
  | releaseSlot =>
    obtain ⟨c, hc, rfl⟩ := Option.map_eq_some_iff.mp hs
    exact releaseSlot_claims ha hb hc rfl
  | releaseCheck =>
    cases hs
    obtain ⟨c, hc, -⟩ := hok
    exact releaseCheck_claims ha hb hc rfl
  | releaseCas =>
    obtain ⟨c, hc, rfl⟩ := Option.map_eq_some_iff.mp hs
    exact releaseCas_claims ha hb hc rfl
  | domainEnd => exact absurd rfl hpc
  | domainPools =>
    cases hs
    exact domainPools_claims ha hb rfl

end Step

/-! ## Runs -/

section Events

variable {n : Nat} {σ σ' : State n} {C : List Addr} {L : Fin n → List Addr} {t u : Fin n} {th : Thread} {e : Event n}

/-- The contexts and the bitmaps agree. -/
structure Blocks (σ : State n) : Prop where
  apart : σ.domain.Apart
  ok : ∀ t, (σ.thread t).BlockOk σ.domain
  inj : ∀ t u ptr S S', (σ.thread t).HasBlock ptr S → (σ.thread u).HasBlock ptr S' → t = u
  owned : ∀ p ix, σ.domain.Reserved p ix →
    ∃ t, (σ.thread t).HasBlock ((σ.domain.pool p).block ix) (σ.domain.pool p).blkSize

theorem Blocks.step {e : Effect} (h : Blocks σ) (hcl : ∀ u, u ≠ t → (σ.thread u).pc.closing = false)
    (hk : Claims σ.domain (σ.thread t) e) : Blocks (σ.apply t e) := by
  have hself : (σ.apply t e).thread t = e.thread := Function.update_self ..
  have hother : ∀ u, u ≠ t → (σ.apply t e).thread u = σ.thread u := fun u hu => Function.update_of_ne hu ..
  -- a block of `t` is no block of another thread
  have hapart : ∀ u ptr S S', u ≠ t → e.thread.HasBlock ptr S → ¬ (σ.thread u).HasBlock ptr S' := by
    intro u ptr S S' hu hmine hyours
    rcases hk.fresh ptr S hmine with hold | ⟨p, ix, hb, hfree⟩
    · exact hu (h.inj u t ptr S' S hyours hold)
    · obtain ⟨q, jx, hb', hres⟩ := (h.ok u).held ptr S' hyours
      obtain ⟨rfl, rfl⟩ := hb.unique hb' h.apart
      exact hfree hres
  refine ⟨hk.apart, fun u => ?_, fun u v ptr S S' hu hv => ?_, fun p ix hr => ?_⟩
  · by_cases hut : u = t
    · rw [hut, hself]
      exact hk.ok
    · rw [hother u hut]
      refine ⟨fun ptr S hb => ?_, (h.ok u).knows.mono hk.grows (hcl u hut)⟩
      obtain ⟨p, ix, hblock, hres⟩ := (h.ok u).held ptr S hb
      refine ⟨p, ix, hk.grows.isBlock hblock, hk.kept p ix hres fun hmine => ?_⟩
      rw [← hblock.start] at hmine
      exact hut (h.inj u t ptr S _ hb hmine)
  · by_cases hut : u = t
    · by_cases hvt : v = t
      · rw [hut, hvt]
      · rw [hut, hself] at hu
        rw [hother v hvt] at hv
        exact absurd hv (hapart v ptr S S' hvt hu)
    · rw [hother u hut] at hu
      by_cases hvt : v = t
      · rw [hvt, hself] at hv
        exact absurd hu (hapart u ptr S' S hut hv)
      · rw [hother v hvt] at hv
        exact h.inj u v ptr S S' hu hv
  · rcases hk.gained p ix hr with hmine | ⟨hres, hno⟩
    · exact ⟨t, hself.symm ▸ hmine⟩
    · obtain ⟨u, hu⟩ := h.owned p ix hres
      have hut : u ≠ t := by
        rintro rfl
        exact hno hu
      refine ⟨u, ?_⟩
      rw [hother u hut]
      change (σ.thread u).HasBlock ((e.domain.pool p).block ix) (e.domain.pool p).blkSize
      rw [hk.grows.block hres.1, hk.grows.blkSize p hres.1]
      exact hu

/-- A thread takes the place of `t`, with the same block. -/
theorem Blocks.set (h : Blocks σ) (hd : σ'.domain = σ.domain) (ht : σ'.thread = Function.update σ.thread t th)
    (hb : ∀ ptr S, th.HasBlock ptr S ↔ (σ.thread t).HasBlock ptr S) (hk : th.pc.Knows σ.domain th.ctx) : Blocks σ' := by
  have hall : ∀ u ptr S, (σ'.thread u).HasBlock ptr S ↔ (σ.thread u).HasBlock ptr S := by
    intro u ptr S
    by_cases hut : u = t
    · rw [hut, ht, Function.update_self]
      exact hb ptr S
    · rw [ht, Function.update_of_ne hut]
  refine ⟨hd ▸ h.apart, fun u => ⟨fun ptr S hp => ?_, ?_⟩, fun u v ptr S S' hu hv => ?_, fun p ix hr => ?_⟩
  · rw [hd]
    exact (h.ok u).held ptr S ((hall u ptr S).mp hp)
  · rw [hd]
    by_cases hut : u = t
    · rw [hut, ht, Function.update_self]
      exact hk
    · rw [ht, Function.update_of_ne hut]
      exact (h.ok u).knows
  · exact h.inj u v ptr S S' ((hall u ptr S).mp hu) ((hall v ptr S').mp hv)
  · rw [hd] at hr ⊢
    obtain ⟨u, hu⟩ := h.owned p ix hr
    exact ⟨u, (hall u _ _).mpr hu⟩

/-- A call starts with the thread's block, and with a size that is not 0. -/
theorem Op.start_block {op : Op} (hr : th.Rest) (hpc : th.pc = .idle) {th' : Thread}
    (hv : op.Valid fun S => decide (0 < S)) (hs : op.start th = some th') :
    (∀ ptr S, th'.HasBlock ptr S ↔ th.HasBlock ptr S) ∧ ∀ d, th'.pc.Knows d th'.ctx := by
  obtain ⟨ctx, deleted, delIndex, pc⟩ := th
  cases hpc
  have hsame : ∀ {pc : Pc} {ctx deleted deleted' delIndex delIndex'}, pc.constructs = none → pc.after ≠ some .destroy →
      pc.after ≠ some .destroyed → ∀ ptr S, Thread.HasBlock ⟨ctx, deleted', delIndex', pc⟩ ptr S ↔
        Thread.HasBlock ⟨ctx, deleted, delIndex, .idle⟩ ptr S := by
    intro pc ctx deleted deleted' delIndex delIndex' h1 h2 h3 ptr S
    unfold Thread.HasBlock Pc.Released
    simp only [h1, h2, h3]
    simp [Pc.constructs, Pc.after]
  cases op with
  | create S R =>
    cases ctx with
    | some c => cases hs
    | none =>
      cases hs
      exact ⟨hsame rfl (by simp [Pc.after]) (by simp [Pc.after]), fun d => ⟨by simpa [Op.Valid] using hv.1, by simp⟩⟩
  | deleteItem item =>
    cases ctx with
    | none => cases hs
    | some c =>
      have hidx : c.R ≠ 0 → delIndex < c.R := hr.2.2.2
      simp only [Op.start, Thread.deleteItem] at hs
      split at hs
      · rw [if_pos (by omega)] at hs
        split at hs
        · cases hs
          split
          · exact ⟨hsame rfl (by simp [Pc.after]) (by simp [Pc.after]), fun d => trivial⟩
          · exact ⟨hsame rfl (by simp [Pc.after]) (by simp [Pc.after]), fun d => trivial⟩
        · cases hs
      · cases hs
        exact ⟨hsame rfl (by simp [Pc.after]) (by simp [Pc.after]), fun d => trivial⟩
  | enqueue item can =>
    cases hs
    exact ⟨hsame rfl (by simp [Pc.after]) (by simp [Pc.after]), fun d => trivial⟩
  | enqueueArray items can =>
    cases ctx with
    | some c => cases hs
    | none =>
      cases hs
      exact ⟨hsame rfl (by simp [Pc.after]) (by simp [Pc.after]), fun d => trivial⟩
  | collect =>
    cases hs
    exact ⟨hsame rfl (by simp [Pc.after]) (by simp [Pc.after]), fun d => trivial⟩
  | destroy =>
    cases ctx with
    | none => cases hs
    | some c =>
      cases hs
      exact ⟨hsame rfl (by simp [Pc.after]) (by simp [Pc.after]), fun d => trivial⟩

theorem Blocks.store {index : Nat} {ptr : Ptr} (h : Blocks σ) (hcl : ∀ u, (σ.thread u).pc.closing = false)
    (hs : σ.store t index ptr = some σ') : Blocks σ' := by
  unfold State.store at hs
  split at hs
  · split at hs
    · cases hs
      rename_i c _ _
      have hsame : σ.domain.SameArrays (σ.domain.setSlot (c.hazardPtrs + index) ptr) :=
        ⟨rfl, fun _ => rfl, fun _ => rfl⟩
      refine ⟨hsame.apart h.apart, fun u => ⟨fun ptr S hb => ?_, (h.ok u).knows.mono hsame.grows (hcl u)⟩, h.inj,
        h.owned⟩
      obtain ⟨p, ix, hblock, hres⟩ := (h.ok u).held ptr S hb
      exact ⟨p, ix, hsame.grows.isBlock hblock, hres⟩
    · cases hs
  · cases hs

/-- The block moves with its context. -/
theorem Blocks.move (h : Blocks σ) (ht : σ.Idle t) (hu : σ.Idle u) (htc : (σ.thread t).ctx.isSome = true)
    (huc : (σ.thread u).ctx.isNone = true) : Blocks (σ.move t u) := by
  have hne := move_ne htc huc
  have huc := Option.isNone_iff_eq_none.mp huc
  have hidle : (σ.thread t).pc = .idle := ht
  have huidle : (σ.thread u).pc = .idle := hu
  -- who has a block afterwards, and who had it before
  let back : Fin n → Fin n := fun v => if v = u then t else v
  have hblock : ∀ v ptr S, ((σ.move t u).thread v).HasBlock ptr S ↔ v ≠ t ∧ (σ.thread (back v)).HasBlock ptr S := by
    intro v ptr S
    by_cases hvt : v = t
    · rw [hvt, move_from]
      simp [Thread.HasBlock, hidle, Pc.constructs]
    · by_cases hvu : v = u
      · simp only [back, hvu, if_true, move_to hne, hne.symm, ne_eq, not_false_eq_true, true_and]
        simp [Thread.HasBlock, hidle, Pc.Released]
      · simp only [back, hvu, if_false, move_other hvt hvu, ne_eq, hvt, not_false_eq_true, true_and]
  have hnot : ∀ ptr S, ¬ (σ.thread u).HasBlock ptr S := by
    rintro ptr S (hb | ⟨c, hc, -⟩)
    · rw [huidle] at hb
      cases hb
    · rw [huc] at hc
      cases hc
  refine ⟨h.apart, fun v => ⟨fun ptr S hb => ?_, ?_⟩, fun v w ptr S S' hv hw => ?_, fun p ix hr => ?_⟩
  · exact (h.ok (back v)).held ptr S ((hblock v ptr S).mp hb).2
  · by_cases hvt : v = t
    · rw [hvt, move_from, hidle]
      trivial
    · by_cases hvu : v = u
      · rw [hvu, move_to hne]
        trivial
      · rw [move_other hvt hvu]
        exact (h.ok v).knows
  · obtain ⟨hvt, hv⟩ := (hblock v ptr S).mp hv
    obtain ⟨hwt, hw⟩ := (hblock w ptr S').mp hw
    have heq := h.inj _ _ ptr S S' hv hw
    simp only [back] at heq
    split at heq
    · split at heq
      · rw [‹v = u›, ‹w = u›]
      · exact absurd heq.symm hwt
    · split at heq
      · exact absurd heq hvt
      · exact heq
  · obtain ⟨v, hv⟩ := h.owned p ix hr
    by_cases hvt : v = t
    · refine ⟨u, (hblock u _ _).mpr ⟨hne.symm, ?_⟩⟩
      simp only [back, if_true]
      exact hvt ▸ hv
    · have hvu : v ≠ u := by
        rintro rfl
        exact hnot _ _ hv
      refine ⟨v, (hblock v _ _).mpr ⟨hvt, ?_⟩⟩
      simp only [back, hvu, if_false]
      exact hv

/-- With the last context gone no pool has a reservation. -/
theorem Blocks.domainEnd (h : Blocks σ) (hpc : (σ.thread t).pc = .domainEnd) (hctx : ∀ u, (σ.thread u).ctx = none)
    (hidle : ∀ u, u ≠ t → σ.Idle u) (hhead : σ.domain.deleteHead = none) :
    Blocks (σ.apply t (Hazard.domainEnd σ.domain (σ.thread t))) := by
  have hnone : ∀ u ptr S, ¬ (σ.thread u).HasBlock ptr S := by
    rintro u ptr S (hb | ⟨c, hc, -⟩)
    · by_cases hut : u = t
      · rw [hut, hpc] at hb
        cases hb
      · rw [show (σ.thread u).pc = .idle from hidle u hut] at hb
        cases hb
    · rw [hctx u] at hc
      cases hc
  have hzero : ∀ p, σ.domain.HasPool p → (σ.domain.pool p).bitmap = 0#32 := by
    intro p hp
    refine BitVec.eq_of_getLsbD_eq fun ix hix => ?_
    rw [BitVec.getLsbD_zero, ← Bool.not_eq_true]
    intro hbit
    obtain ⟨u, hu⟩ := h.owned p ix ⟨hp, hix, hbit⟩
    exact hnone u _ _ hu
  have he : Hazard.domainEnd σ.domain (σ.thread t) =
      goto { σ.domain with poolsHead := 0 } (σ.thread t) (.domainPools σ.domain.poolsHead) := if_pos hhead
  rw [he]
  have hself : (σ.apply t (goto { σ.domain with poolsHead := 0 } (σ.thread t)
    (.domainPools σ.domain.poolsHead))).thread t =
      (σ.thread t).setPc (.domainPools σ.domain.poolsHead) := Function.update_self ..
  have hother : ∀ u, u ≠ t → (σ.apply t (goto { σ.domain with poolsHead := 0 } (σ.thread t)
      (.domainPools σ.domain.poolsHead))).thread u = σ.thread u := fun u hu => Function.update_of_ne hu ..
  have hnone' : ∀ u ptr S, ¬ ((σ.apply t (goto { σ.domain with poolsHead := 0 } (σ.thread t)
      (.domainPools σ.domain.poolsHead))).thread u).HasBlock ptr S := by
    intro u ptr S
    by_cases hut : u = t
    · rw [hut, hself]
      rintro (hb | ⟨c, hc, -⟩)
      · cases hb
      · rw [show ((σ.thread t).setPc (.domainPools σ.domain.poolsHead)).ctx = none from hctx t] at hc
        cases hc
    · rw [hother u hut]
      exact hnone u ptr S
  have hnopool : ∀ p, ¬ Domain.HasPool { σ.domain with poolsHead := 0 } p := by
    rintro p ⟨h1, h2⟩
    have h2 : p ≤ 0 := h2
    omega
  refine ⟨fun p q a hp => absurd hp (hnopool p), fun u => ⟨fun ptr S hb => absurd hb (hnone' u ptr S), ?_⟩,
    fun u v ptr S S' hu => absurd hu (hnone' u ptr S), fun p ix hr => absurd hr.1 (hnopool p)⟩
  by_cases hut : u = t
  · rw [hut, hself]
    exact fun q h1 h2 => hzero q ⟨h1, h2⟩
  · rw [hother u hut, show (σ.thread u).pc = .idle from hidle u hut]
    trivial

/-- While a thread takes a step, no other one ends the domain. -/
theorem Closing.others (h : Closing σ) {addr : Nat} {e : Effect} (hs : (σ.thread t).step σ.domain addr = some e) :
    ∀ u, u ≠ t → (σ.thread u).pc.closing = false := by
  intro u hut
  by_contra hcl
  have hclosed : σ.closed = true := by
    by_contra hne
    exact hcl (h.opened (Bool.eq_false_iff.mpr hne) u)
  obtain ⟨v, -, -, hrest⟩ := h.closed hclosed
  by_cases huv : u = v
  · have hidle : (σ.thread t).pc = .idle := (hrest t (huv ▸ hut.symm)).1
    unfold Thread.step at hs
    rw [hidle] at hs
    cases hs
  · have hidle : (σ.thread u).pc = .idle := (hrest u huv).1
    rw [hidle] at hcl
    exact hcl rfl

theorem Blocks.next (h : Blocks σ) (hc : Closing σ) (hI : Inv σ C L)
    (hn : (machine n fun S => decide (0 < S)).next σ e = some σ') : Blocks σ' := by
  cases e with
  | call t op =>
    simp only [machine] at hn
    split at hn
    · rename_i hen
      obtain ⟨-, hidle, hv, -⟩ := hen
      obtain ⟨th, hth, rfl⟩ := Option.map_eq_some_iff.mp hn
      obtain ⟨h1, h2⟩ := Op.start_block (hI.rest hidle) hidle hv hth
      exact h.set rfl rfl h1 (h2 _)
    · cases hn
  | store t index ptr =>
    simp only [machine] at hn
    split at hn
    · rename_i hen
      exact h.store (hc.opened (Bool.eq_false_iff.mpr hen.1)) hn
    · cases hn
  | move t u =>
    simp only [machine] at hn
    split at hn
    · rename_i hen
      obtain ⟨-, ht, hu, htc, huc⟩ := hen
      cases hn
      exact h.move ht hu htc huc
    · cases hn
  | close t =>
    simp only [machine] at hn
    split at hn
    · rename_i hen
      cases hn
      have hidle : (σ.thread t).pc = .idle := (hen.2 t).1
      refine h.set rfl rfl (fun ptr S => ?_) trivial
      simp [Thread.HasBlock, Thread.setPc, Pc.constructs, Pc.Released, Pc.after, hidle]
    · cases hn
  | step t addr =>
    obtain ⟨e, he, rfl⟩ := Option.map_eq_some_iff.mp hn
    by_cases hpc : (σ.thread t).pc = .domainEnd
    · have hclosed : σ.closed = true := by
        by_contra hne
        have hcl := hc.opened (Bool.eq_false_iff.mpr hne) t
        rw [hpc] at hcl
        cases hcl
      obtain ⟨v, -, hctx, hrest⟩ := hc.closed hclosed
      have htv : t = v := by
        by_contra hne
        rw [show (σ.thread t).pc = .idle from (hrest t hne).1] at hpc
        cases hpc
      subst htv
      obtain ⟨hhead, -⟩ := hc.reclaimed hI (t := t) (by rw [hpc]; trivial)
      unfold Thread.step at he
      rw [hpc] at he
      cases he
      refine h.domainEnd hpc (fun u => ?_) (fun u hut => (hrest u hut).1) hhead
      by_cases hut : u = t
      · rw [hut]
        exact hctx
      · exact (hrest u hut).2
    · exact h.step (hc.others he) (Thread.step_claims (hI.ok t) h.apart (h.ok t) hpc he)

/-- **The contexts and the bitmaps agree in every state of a run**, and no assertion has failed. -/
theorem reachable_blocks (h : (machine n fun S => decide (0 < S)).Reachable σ) : Blocks σ := by
  have hall := h.invariant (I := fun σ => Blocks σ ∧ Closing σ ∧ ∃ C L, Inv σ C L) (fun σ hσ => ?_)
    fun _ _ _ ⟨hb, hc, _, _, hI⟩ _ hn => ⟨hb.next hc hI hn, hc.next hI hn, hI.next hn⟩
  · exact hall.1
  · have hc := reachable_closing (.init hσ)
    refine ⟨?_, hc, _, _, Inv.init hσ⟩
    cases hσ
    have hnone : ∀ ptr S, ¬ Thread.HasBlock {} ptr S := by
      rintro ptr S (hb | ⟨c, hc, -⟩)
      · cases hb
      · cases hc
    have hnopool : ∀ p, ¬ Domain.fresh.HasPool p := by
      rintro p ⟨h1, h2⟩
      have h2 : p ≤ 0 := h2
      omega
    exact ⟨fun p q a hp => absurd hp (hnopool p), fun u => ⟨fun ptr S hb => absurd hb (hnone ptr S), trivial⟩,
      fun u v ptr S S' hu => absurd hu (hnone ptr S), fun p ix hr => absurd hr.1 (hnopool p)⟩

end Events

end Hazard

end SplitOrder
