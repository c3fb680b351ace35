/-
The end of a domain.

A slot that is not null belongs to a context, so when the last context is
gone all slots are null: the `collect` of `~hazard_pointer_domain` finds
nothing to protect, and reclaims all it finds.
-/
import SplitOrder.Hazard.Conserved

namespace SplitOrder

namespace Hazard

/-- What follows the call of the domain that is in progress. -/
def Pc.after : Pc → Option After
  | .push _ _ k | .pushCas _ _ k | .pushCount _ k | .enqueue _ _ k | .enqueueArray _ _ _ k | .enqueueNull _ _ _ k
  | .collectIf _ k | .collectTest _ _ k | .collectLoad k | .collectZero _ k | .collect k | .snapshot (.collect _ k)
  | .snapshotLoad _ _ _ (.collect _ k) | .collectWalk _ _ _ k | .collectPush _ k => some k
  | _ => none

/-- The destructor of the context is past the null stores to its slot `i`. -/
def Pc.Cleared (i : Nat) : Pc → Prop
  | .destruct j => i < j
  | .release | .releaseTest _ | .releaseSlot _ _ | .releaseStore _ _ | .releaseCheck _ _ | .releaseLoad _ _
  | .releaseCas _ _ _ => True
  | pc => pc.after = some .destroy ∨ pc.after = some .destroyed

/-- The slot is one that the thread's context may hold something in. -/
def Thread.Covers (th : Thread) (a : Nat) : Prop :=
  ∃ c, th.ctx = some c ∧ c.hazardPtrs ≤ a ∧ a < c.hazardPtrs + c.S ∧ ¬ th.pc.Cleared (a - c.hazardPtrs)

/-- Pools are only added. -/
structure Grows (d d' : Domain) : Prop where
  head : d.poolsHead ≤ d'.poolsHead
  hazPtrs : ∀ p, d.HasPool p → (d'.pool p).hazPtrs = (d.pool p).hazPtrs
  blkSize : ∀ p, d.HasPool p → (d'.pool p).blkSize = (d.pool p).blkSize

section Step

variable {d d' : Domain} {th th' : Thread} {pc : Pc} {k : After} {e : Effect} {a addr p ix : Nat}

theorem Grows.refl (d : Domain) : Grows d d := ⟨Nat.le_refl _, fun _ _ => rfl, fun _ _ => rfl⟩

theorem Grows.hasPool (h : Grows d d') (hp : d.HasPool p) : d'.HasPool p := ⟨hp.1, Nat.le_trans hp.2 h.head⟩

theorem Grows.block (h : Grows d d') (hp : d.HasPool p) : (d'.pool p).block ix = (d.pool p).block ix := by
  simp only [Pool.block, h.hazPtrs p hp, h.blkSize p hp]

theorem Domain.SameArrays.grows (h : d.SameArrays d') : Grows d d' :=
  ⟨Nat.le_of_eq h.head.symm, fun p _ => h.hazPtrs p, fun p _ => h.blkSize p⟩

/-- The slots are untouched, and no pool is lost. -/
structure SameSlots (d d' : Domain) : Prop where
  slot : d'.slot = d.slot
  grows : Grows d d'

theorem SameSlots.of (h1 : d'.slot = d.slot) (h2 : d'.pool = d.pool) (h3 : d'.poolsHead = d.poolsHead) :
    SameSlots d d' :=
  ⟨h1, Nat.le_of_eq h3.symm, fun p _ => by rw [h2], fun p _ => by rw [h2]⟩

theorem Thread.Covers.setPc (h : th.Covers a) (hc : ∀ i, pc.Cleared i → th.pc.Cleared i) : (th.setPc pc).Covers a := by
  obtain ⟨c, hctx, h1, h2, h3⟩ := h
  exact ⟨c, hctx, h1, h2, fun hcl => h3 (hc _ hcl)⟩

theorem Thread.Covers.not_cleared (h : th.Covers a) : ∃ i, ¬ th.pc.Cleared i := by
  obtain ⟨c, -, -, -, h⟩ := h
  exact ⟨_, h⟩

theorem After.resume_covers (h : th.Covers a) (hpc : ∀ i, k = .destroy ∨ k = .destroyed → th.pc.Cleared i) :
    (k.resume th).Covers a := by
  obtain ⟨i, hi⟩ := h.not_cleared
  cases k with
  | done => exact h.setPc fun i hc => by simp [Pc.Cleared, Pc.after] at hc
  | reclaim =>
    obtain ⟨c, hctx, h1, h2, -⟩ := h
    exact ⟨c, hctx, h1, h2, fun hc => by simp [After.resume, Pc.Cleared, Pc.after] at hc⟩
  | destroy => exact absurd (hpc i (.inl rfl)) hi
  | destroyed => exact absurd (hpc i (.inr rfl)) hi
  | domain => exact h.setPc fun i hc => by simp [Pc.Cleared, Pc.after] at hc

theorem After.enqueued_covers {b : Bool} (h : th.Covers a)
    (hpc : ∀ i, k = .destroy ∨ k = .destroyed → th.pc.Cleared i) :
    (k.enqueued b th).Covers a := by
  unfold After.enqueued
  split
  · refine h.setPc fun i hc => hpc i ?_
    simpa [Pc.Cleared, Pc.after] using hc
  · exact After.resume_covers h hpc

/-- Part of the end of the domain. -/
def Pc.closing : Pc → Bool
  | .domainEnd | .domainPools _ | .ended => true
  | pc => decide (pc.after = some .domain)

theorem After.resume_closing : (k.resume th).pc.closing = decide (k = .domain) := by
  cases k <;> rfl

theorem After.enqueued_closing {b : Bool} : (k.enqueued b th).pc.closing = decide (k = .domain) := by
  unfold After.enqueued
  split
  · cases k <;> rfl
  · exact After.resume_closing

/-- The thread takes a snapshot, or works with one. -/
def Pc.scanning : Pc → Bool
  | .snapshot _ | .snapshotLoad _ _ _ _ | .collectWalk _ _ _ _ | .reclaim _ _ => true
  | _ => false

theorem After.resume_scanning : (k.resume th).pc.scanning = false := by
  cases k <;> rfl

theorem After.enqueued_scanning {b : Bool} : (k.enqueued b th).pc.scanning = false := by
  unfold After.enqueued
  split
  · rfl
  · exact After.resume_scanning

/-- A step of a thread: nothing appears in a slot, what is in a slot stays
the thread's, the end of the domain is not entered or left, and no object
is reclaimed without a snapshot. -/
structure KeepsSlots (d : Domain) (th : Thread) (e : Effect) : Prop where
  slots : ∀ a, e.domain.slot a ≠ 0 → d.slot a ≠ 0 ∧ (th.Covers a → e.thread.Covers a)
  grows : th.pc = .domainEnd ∨ Grows d e.domain
  closing : e.thread.pc = .crashed ∨ e.thread.pc.closing = th.pc.closing
  scans : th.pc.scanning = true ∨ (e.thread.pc.scanning = false ∨ ∃ a, e.thread.pc = .snapshot a) ∧ e.reclaimed = []

theorem KeepsSlots.same (hd : SameSlots d e.domain) (hth : ∀ a, th.Covers a → e.thread.Covers a)
    (hcl : e.thread.pc = .crashed ∨ e.thread.pc.closing = th.pc.closing)
    (hsc : th.pc.scanning = true ∨ (e.thread.pc.scanning = false ∨ ∃ a, e.thread.pc = .snapshot a) ∧ e.reclaimed = []) :
    KeepsSlots d th e := by
  refine ⟨fun a ha => ?_, .inr hd.grows, hcl, hsc⟩
  rw [hd.slot] at ha
  exact ⟨ha, hth a⟩

theorem KeepsSlots.goto (hd : SameSlots d d') (hc : ∀ i, pc.Cleared i → th.pc.Cleared i)
    (hcl : pc = .crashed ∨ pc.closing = th.pc.closing)
    (hsc : th.pc.scanning = true ∨ pc.scanning = false ∨ ∃ a, pc = .snapshot a) : KeepsSlots d th (goto d' th pc) :=
  .same hd (fun _ h => h.setPc hc) hcl (hsc.imp id fun h => ⟨h, rfl⟩)

/-- A step that ends a call of the domain. -/
theorem KeepsSlots.resume (hd : SameSlots d d')
    (hc : ∀ i, k = .destroy ∨ k = .destroyed → th.pc.Cleared i) (hcl : th.pc.closing = decide (k = .domain)) :
    KeepsSlots d th { domain := d', thread := k.resume th } :=
  .same hd (fun _ h => After.resume_covers h hc) (.inr (After.resume_closing.trans hcl.symm))
    (.inr ⟨.inl After.resume_scanning, rfl⟩)

theorem KeepsSlots.enqueued {b : Bool} (hd : SameSlots d d')
    (hc : ∀ i, k = .destroy ∨ k = .destroyed → th.pc.Cleared i) (hcl : th.pc.closing = decide (k = .domain)) :
    KeepsSlots d th { domain := d', thread := k.enqueued b th } :=
  .same hd (fun _ h => After.enqueued_covers h hc) (.inr (After.enqueued_closing.trans hcl.symm))
    (.inr ⟨.inl After.enqueued_scanning, rfl⟩)

/-- A null store to a slot of the thread's context. -/
theorem KeepsSlots.clear {b : Nat} (hc : ∀ a, a ≠ b → th.Covers a → (th.setPc pc).Covers a)
    (hcl : pc.closing = th.pc.closing) (hsc : pc.scanning = false) :
    KeepsSlots d th (Hazard.goto (d.setSlot b 0) th pc) := by
  refine ⟨fun a ha => ?_, .inr ⟨Nat.le_refl _, fun _ _ => rfl, fun _ _ => rfl⟩, .inr hcl, .inr ⟨.inl hsc, rfl⟩⟩
  have ha : Function.update d.slot b 0 a ≠ 0 := ha
  by_cases hab : a = b
  · rw [hab, Function.update_self] at ha
    exact absurd rfl ha
  · rw [Function.update_of_ne hab] at ha
    exact ⟨ha, hc a hab⟩

theorem update_pool_of_hasPool {q : Pool} (hp : d.HasPool p) :
    Function.update d.pool (d.poolsHead + 1) q p = d.pool p := by
  have := hp.2
  exact Function.update_of_ne (by omega) ..

theorem Pool.turn_sameArrays {expected : BitVec 32} {q : Pool} {r : Pool.Turn}
    (h : (d.pool p).turn expected = (q, r)) : d.SameArrays (d.setPool p q) := by
  have hq : q.hazPtrs = (d.pool p).hazPtrs ∧ q.blkSize = (d.pool p).blkSize := by
    obtain rfl : ((d.pool p).turn expected).1 = q := by rw [h]
    unfold Pool.turn
    dsimp only
    split
    · split <;> exact ⟨rfl, rfl⟩
    · exact ⟨rfl, rfl⟩
  exact Domain.setPool_sameArrays hq.1 hq.2

theorem construct_slots {S R ptr i : Nat} (hpc : th.pc = .construct S R ptr i) (hctx : th.ctx = none) :
    KeepsSlots d th (construct d th S R ptr i) := by
  have hno : ∀ a, ¬ th.Covers a := by
    rintro a ⟨c, hc, -⟩
    rw [hctx] at hc
    cases hc
  unfold construct
  split
  · exact .clear (fun a _ h => absurd h (hno a)) (by rw [hpc]; rfl) rfl
  · exact .same (.of rfl rfl rfl) (fun a h => absurd h (hno a)) (.inr (by rw [hpc]; rfl)) (.inr ⟨.inl rfl, rfl⟩)

theorem destruct_slots {c : Context} {i : Nat} (hpc : th.pc = .destruct i) (hctx : th.ctx = some c) :
    KeepsSlots d th (destruct d th c i) := by
  unfold destruct
  split
  · refine .clear (fun a hab h => ?_) (by rw [hpc]; rfl) rfl
    obtain ⟨c', hc', h1, h2, h3⟩ := h
    rw [hctx] at hc'
    cases hc'
    refine ⟨c, hctx, h1, h2, fun hcl => h3 ?_⟩
    rw [hpc]
    have hcl : a - c.hazardPtrs < i + 1 := hcl
    change a - c.hazardPtrs < i
    omega
  · rename_i hi
    refine .same (.of rfl rfl rfl) (fun a h => ?_) (.inr (by rw [hpc]; rfl)) (.inr ⟨.inl rfl, rfl⟩)
    obtain ⟨c', hc', h1, h2, h3⟩ := h
    rw [hctx] at hc'
    cases hc'
    rw [hpc] at h3
    have h3 : ¬ a - c.hazardPtrs < i := h3
    omega

theorem pushCount_slots {pa : PushAfter} (hpc : th.pc = .pushCount pa k) : KeepsSlots d th (pushCount d th pa k) := by
  obtain ⟨ctx, deleted, delIndex, pc⟩ := th
  cases hpc
  unfold pushCount
  cases pa with
  | enqueue can =>
    exact .enqueued (.of rfl rfl rfl) (fun i hk => by simpa [Pc.Cleared, Pc.after] using hk)
      (by simp [Pc.closing, Pc.after])
  | array x count can => exact .goto (.of rfl rfl rfl) (fun i hc => hc) (.inr rfl) (.inr (.inl rfl))
  | collect head => exact .goto (.of rfl rfl rfl) (fun i hc => hc) (.inr rfl) (.inr (.inl rfl))

theorem poolsCas_slots {S R next : Nat} (hpc : th.pc = .poolsCas S R next) (hctx : th.ctx = none)
    (he : poolsCas d th addr S R next = some e) : KeepsSlots d th e := by
  have hno : ∀ a, ¬ th.Covers a := by
    rintro a ⟨c, hc, -⟩
    rw [hctx] at hc
    cases hc
  unfold poolsCas at he
  split at he
  · split at he
    · cases he
      refine ⟨fun a ha => ⟨fun hz => ha ?_, fun h => absurd h (hno a)⟩, .inr ?_, .inr (by rw [hpc]; rfl),
        .inr ⟨.inl rfl, rfl⟩⟩
      · change (if Pool.contains _ a = true then 0 else d.slot a) = 0
        rw [hz, ite_self]
      · refine ⟨Nat.le_succ _, fun p hp => ?_, fun p hp => ?_⟩
        · exact congrArg Pool.hazPtrs (update_pool_of_hasPool hp)
        · exact congrArg Pool.blkSize (update_pool_of_hasPool hp)
    · cases he
  · cases he
    exact .same (.of rfl rfl rfl) (fun a h => absurd h (hno a)) (.inr (by rw [hpc]; rfl)) (.inr ⟨.inl rfl, rfl⟩)

/-- **A step puts nothing into a slot**, and what a slot holds stays with its context. -/
theorem Thread.step_slots {L : List Addr} (hok : th.Ok d L) (hs : th.step d addr = some e) : KeepsSlots d th e := by
  obtain ⟨ctx, deleted, delIndex, pc⟩ := th
  cases pc with
  | idle | ended | crashed => cases hs
  | reserve | poolsNext | countLoad | countStore | collectIf | collectLoad | release | releaseLoad | push =>
    cases hs
    exact .goto (.of rfl rfl rfl) (fun i hc => hc) (.inr rfl) (.inr (.inl rfl))
  | reserveLoad =>
    cases hs
    unfold reserveLoad reserveTurn
    split
    · split <;> exact .goto (.of rfl rfl rfl) (fun i hc => by simp [Pc.Cleared, Pc.after] at hc) (.inr rfl)
        (.inr (.inl rfl))
    · split
      · exact .goto (.of rfl rfl rfl) (fun i hc => hc) (.inr rfl) (.inr (.inl rfl))
      · split <;> exact .goto (.of rfl rfl rfl) (fun i hc => hc) (.inr rfl) (.inr (.inl rfl))
  | reserveCas =>
    cases hs
    unfold reserveCas reserveTurn
    split
    · rename_i hturn
      exact .goto ⟨rfl, (Pool.turn_sameArrays hturn).grows⟩ (fun i hc => hc) (.inr rfl) (.inr (.inl rfl))
    · split <;> exact .goto (.of rfl rfl rfl) (fun i hc => hc) (.inr rfl) (.inr (.inl rfl))
  | poolsCas => exact poolsCas_slots rfl hok.2.1 hs
  | construct =>
    cases hs
    exact construct_slots rfl hok.2.1
  | pushCas =>
    cases hs
    unfold pushCas
    split
    · exact .same (.of rfl rfl rfl) (fun a h => h.setPc fun i hc => hc) (.inr rfl) (.inr ⟨.inl rfl, rfl⟩)
    · exact .goto (.of rfl rfl rfl) (fun i hc => hc) (.inr rfl) (.inr (.inl rfl))
  | pushCount =>
    cases hs
    exact pushCount_slots rfl
  | enqueue =>
    obtain ⟨-, rfl⟩ := enqueue_cases hs
    exact .goto (.of rfl rfl rfl) (fun i hc => hc) (.inr rfl) (.inr (.inl rfl))
  | enqueueArray =>
    rcases enqueueArray_cases hs with ⟨item, -, -, -, -, rfl⟩ | ⟨-, -, rfl⟩ | ⟨-, rfl⟩
    · exact .goto (.of rfl rfl rfl) (fun i hc => hc) (.inr rfl) (.inr (.inl rfl))
    · exact .goto (.of rfl rfl rfl) (fun i hc => hc) (.inr rfl) (.inr (.inl rfl))
    · exact .enqueued (.of rfl rfl rfl) (fun i hk => by simpa [Pc.Cleared, Pc.after] using hk)
        (by simp [Pc.closing, Pc.after])
  | enqueueNull =>
    cases hs
    exact .same (.of rfl rfl rfl) (fun a h => h) (.inr rfl) (.inr ⟨.inl rfl, rfl⟩)
  | collectTest =>
    cases hs
    unfold collectTest
    split
    · exact .goto (.of rfl rfl rfl) (fun i hc => hc) (.inr rfl) (.inr (.inl rfl))
    · split
      · exact .goto (.of rfl rfl rfl) (fun i hc => hc) (.inr rfl) (.inr (.inl rfl))
      · exact .resume (.of rfl rfl rfl) (fun i hk => by simpa [Pc.Cleared, Pc.after] using hk)
          (by simp [Pc.closing, Pc.after])
  | collectZero =>
    cases hs
    unfold collectZero
    split <;> exact .goto (.of rfl rfl rfl) (fun i hc => hc) (.inr rfl) (.inr (.inl rfl))
  | collect =>
    cases hs
    unfold collect
    split
    · exact .resume (.of rfl rfl rfl) (fun i hk => by simpa [Pc.Cleared, Pc.after] using hk)
        (by simp [Pc.closing, Pc.after])
    · exact .goto (.of rfl rfl rfl) (fun i hc => hc) (.inr rfl) (.inr (.inr ⟨_, rfl⟩))
  | snapshot sa =>
    cases hs
    refine .goto (.of rfl rfl rfl) (fun i hc => ?_) (.inr ?_) (.inl rfl)
    · cases sa <;> exact hc
    · cases sa <;> rfl
  | snapshotLoad _ _ _ sa =>
    cases hs
    unfold snapshotLoad
    split
    · refine .goto (.of rfl rfl rfl) (fun i hc => ?_) (.inr ?_) (.inl rfl)
      · cases sa <;> exact hc
      · cases sa <;> rfl
    · split
      · refine .goto (.of rfl rfl rfl) (fun i hc => ?_) (.inr ?_) (.inl rfl)
        · cases sa <;> exact hc
        · cases sa <;> rfl
      · refine .goto (.of rfl rfl rfl) (fun i hc => ?_) (.inr ?_) (.inl rfl)
        · cases sa <;> exact hc
        · cases sa <;> rfl
  | collectWalk head pprev snap k =>
    cases hs
    rcases collectWalk_cases d _ head pprev snap k with ⟨-, he⟩ | ⟨cur, -, -, he⟩ | ⟨cur, d', head', -, -, hd, he⟩
    · rw [he]
      exact .goto (.of rfl rfl rfl) (fun i hc => hc) (.inr rfl) (.inl rfl)
    · rw [he]
      exact .goto (.of rfl rfl rfl) (fun i hc => hc) (.inr rfl) (.inl rfl)
    · rw [he]
      rcases hd with rfl | ⟨b, rfl⟩ <;>
        exact .same (.of rfl rfl rfl) (fun a h => h.setPc fun i hc => hc) (.inr rfl) (.inl rfl)
  | collectPush head =>
    cases hs
    unfold collectPush
    cases head with
    | none =>
      exact .resume (.of rfl rfl rfl) (fun i hk => by simpa [Pc.Cleared, Pc.after] using hk)
        (by simp [Pc.closing, Pc.after])
    | some b => exact .goto (.of rfl rfl rfl) (fun i hc => hc) (.inr rfl) (.inr (.inl rfl))
  | reclaim ix snap =>
    obtain ⟨c, hc, hr⟩ := Option.bind_eq_some_iff.mp hs
    rcases reclaim_cases hr with ⟨item, -, -, -, rfl⟩ | ⟨item, -, -, -, rfl⟩ | ⟨-, -, rfl⟩ | ⟨b, -, -, -, rfl⟩
    · exact .goto (.of rfl rfl rfl) (fun i hc => hc) (.inr rfl) (.inl rfl)
    · exact .same (.of rfl rfl rfl) (fun a h => h) (.inr rfl) (.inl rfl)
    · exact .goto (.of rfl rfl rfl) (fun i hc => by simp [Pc.Cleared, Pc.after] at hc) (.inr rfl) (.inl rfl)
    · exact .same (.of rfl rfl rfl) (fun a h => h) (.inr rfl) (.inl rfl)
  | destruct =>
    obtain ⟨c, hc, rfl⟩ := Option.map_eq_some_iff.mp hs
    exact destruct_slots rfl hc
  | releaseTest =>
    obtain ⟨c, hc, rfl⟩ := Option.map_eq_some_iff.mp hs
    unfold releaseTest
    split
    · exact .goto (.of rfl rfl rfl) (fun i _ => trivial) (.inr rfl) (.inr (.inl rfl))
    · split <;> exact .goto (.of rfl rfl rfl) (fun i _ => trivial) (.inr rfl) (.inr (.inl rfl))
  | releaseSlot =>
    obtain ⟨c, hc, rfl⟩ := Option.map_eq_some_iff.mp hs
    unfold releaseSlot
    split
    · split <;> exact .goto (.of rfl rfl rfl) (fun i _ => trivial) (.inr rfl) (.inr (.inl rfl))
    · split <;> exact .goto (.of rfl rfl rfl) (fun i _ => trivial) (.inr rfl) (.inr (.inl rfl))
  | releaseStore =>
    obtain ⟨c, hc, rfl⟩ := Option.map_eq_some_iff.mp hs
    exact .clear (fun a _ h => h.setPc fun i _ => trivial) rfl rfl
  | releaseCheck =>
    cases hs
    dsimp only [releaseCheck]
    split <;> exact .goto (.of rfl rfl rfl) (fun i _ => trivial) (.inr rfl) (.inr (.inl rfl))
  | releaseCas =>
    obtain ⟨c, hc, rfl⟩ := Option.map_eq_some_iff.mp hs
    dsimp only [releaseCas]
    split
    · refine .goto ⟨rfl, Domain.SameArrays.grows ?_⟩ (fun i _ => trivial) (.inr rfl) (.inr (.inl rfl))
      exact Domain.setPool_sameArrays rfl rfl
    · exact .goto (.of rfl rfl rfl) (fun i _ => trivial) (.inr rfl) (.inr (.inl rfl))
  | domainEnd =>
    cases hs
    unfold domainEnd
    split
    · exact ⟨fun a ha => ⟨ha, fun h => h.setPc fun i hc => hc⟩, .inl rfl, .inr rfl, .inr ⟨.inl rfl, rfl⟩⟩
    · exact .goto (.of rfl rfl rfl) (fun i hc => hc) (.inl rfl) (.inr (.inl rfl))
  | domainPools =>
    cases hs
    unfold domainPools
    split
    · exact .goto (.of rfl rfl rfl) (fun i hc => hc) (.inr rfl) (.inr (.inl rfl))
    · split
      · exact .goto (.of rfl rfl rfl) (fun i hc => hc) (.inl rfl) (.inr (.inl rfl))
      · exact .goto (.of rfl rfl rfl) (fun i hc => hc) (.inr rfl) (.inr (.inl rfl))

/-! ## The last `collect` -/

/-- The end of the domain: nothing is protected, and after the exchange nothing is on the shared list. -/
def Ends (d : Domain) : Pc → Prop
  | .collect .domain | .crashed => True
  | .snapshot (.collect _ .domain) | .domainEnd | .domainPools _ | .ended => d.deleteHead = none
  | .snapshotLoad _ _ buf (.collect _ .domain) => buf = [] ∧ d.deleteHead = none
  | .collectWalk _ pprev snap .domain => snap = [] ∧ pprev = none ∧ d.deleteHead = none
  | .collectPush head .domain => head = none ∧ d.deleteHead = none
  | _ => False

theorem search_nil (p : Ptr) : search [] p = false := by
  rw [← Bool.not_eq_true]
  intro h
  have h : search (snapshotOf []) p = true := h
  obtain ⟨v, hv, -⟩ := search_snapshotOf.mp h
  cases hv

theorem Thread.step_ends (h : Ends d th.pc) (hz : ∀ a, d.slot a = 0) (hs : th.step d addr = some e) :
    Ends e.domain e.thread.pc ∧ e.thread.ctx = th.ctx := by
  obtain ⟨ctx, deleted, delIndex, pc⟩ := th
  cases pc with
  | collect k =>
    cases k with
    | domain =>
      cases hs
      unfold collect
      split
      · exact ⟨‹d.deleteHead = none›, rfl⟩
      · exact ⟨rfl, rfl⟩
    | _ => cases h
  | snapshot sa =>
    cases sa with
    | reclaim => cases h
    | collect head k =>
      cases k with
      | domain =>
        cases hs
        exact ⟨⟨rfl, h⟩, rfl⟩
      | _ => cases h
  | snapshotLoad p ix buf sa =>
    cases sa with
    | reclaim => cases h
    | collect head k =>
      cases k with
      | domain =>
        obtain ⟨rfl, hhead⟩ := h
        cases hs
        unfold snapshotLoad
        split
        · exact ⟨⟨rfl, rfl, hhead⟩, rfl⟩
        · split
          · refine ⟨⟨?_, hhead⟩, rfl⟩
            rw [hz]
            rfl
          · exact ⟨⟨rfl, hhead⟩, rfl⟩
      | _ => cases h
  | collectWalk head pprev snap k =>
    cases k with
    | domain =>
      obtain ⟨rfl, rfl, hhead⟩ := h
      cases hs
      unfold collectWalk
      cases head with
      | none => exact ⟨⟨rfl, hhead⟩, rfl⟩
      | some cur =>
        simp only [search_nil]
        exact ⟨⟨rfl, rfl, hhead⟩, rfl⟩
    | _ => cases h
  | collectPush head k =>
    cases k with
    | domain =>
      obtain ⟨rfl, hhead⟩ := h
      cases hs
      exact ⟨hhead, rfl⟩
    | _ => cases h
  | domainEnd =>
    have h : d.deleteHead = none := h
    cases hs
    unfold domainEnd
    rw [if_pos h]
    exact ⟨h, rfl⟩
  | domainPools p =>
    cases hs
    unfold domainPools
    split
    · exact ⟨h, rfl⟩
    · split
      · exact ⟨trivial, rfl⟩
      · exact ⟨h, rfl⟩
  | ended | crashed => cases hs
  | _ => cases h

/-- The start of a call: the context is the same, none of its slots is cleared, and the domain is not ended. -/
theorem Op.start_call {op : Op} (hpc : th.pc = .idle) (hs : op.start th = some th') :
    th'.ctx = th.ctx ∧ th'.pc.closing = false ∧ ∀ i, ¬ th'.pc.Cleared i := by
  obtain ⟨ctx, deleted, delIndex, pc⟩ := th
  cases hpc
  have hidle : ∀ i, ¬ Pc.Cleared i .idle := fun i h => by simp [Pc.Cleared, Pc.after] at h
  cases op with
  | create S R =>
    cases ctx with
    | some c => cases hs
    | none =>
      cases hs
      exact ⟨rfl, rfl, hidle⟩
  | deleteItem item =>
    cases ctx with
    | none => cases hs
    | some c =>
      simp only [Op.start, Thread.deleteItem] at hs
      split at hs
      · split at hs
        · split at hs
          · cases hs
            split
            · exact ⟨rfl, rfl, hidle⟩
            · exact ⟨rfl, rfl, hidle⟩
          · cases hs
        · cases hs
          exact ⟨rfl, rfl, hidle⟩
      · cases hs
        exact ⟨rfl, rfl, fun i h => by simp [Thread.setPc, Pc.Cleared, Pc.after] at h⟩
  | enqueue item can =>
    cases hs
    exact ⟨rfl, rfl, fun i h => by simp [Thread.setPc, Pc.Cleared, Pc.after] at h⟩
  | enqueueArray items can =>
    cases ctx with
    | some c => cases hs
    | none =>
      cases hs
      exact ⟨rfl, rfl, fun i h => by simp [Pc.Cleared, Pc.after] at h⟩
  | collect =>
    cases hs
    exact ⟨rfl, rfl, fun i h => by simp [Thread.setPc, Pc.Cleared, Pc.after] at h⟩
  | destroy =>
    cases ctx with
    | none => cases hs
    | some c =>
      cases hs
      exact ⟨rfl, rfl, fun i h => Nat.not_lt_zero i h⟩

end Step

/-! ## Runs -/

section Events

variable {n : Nat} {σ σ' : State n} {C : List Addr} {L : Fin n → List Addr} {t u : Fin n} {th : Thread} {e : Event n}
  {sizes : Nat → Bool} {a : Nat}

/-- The slots belong to the contexts, and the domain ends after them. -/
structure Closing (σ : State n) : Prop where
  slots : ∀ a, σ.domain.slot a ≠ 0 → ∃ t, (σ.thread t).Covers a
  opened : σ.closed = false → ∀ t, (σ.thread t).pc.closing = false
  closed : σ.closed = true → ∃ t, Ends σ.domain (σ.thread t).pc ∧ (σ.thread t).ctx = none ∧
    ∀ u, u ≠ t → σ.Idle u ∧ (σ.thread u).ctx = none

theorem Closing.slot_zero (h : Closing σ) (hc : ∀ t, (σ.thread t).ctx = none) (a : Nat) : σ.domain.slot a = 0 := by
  by_contra hne
  obtain ⟨t, c, hctx, -⟩ := h.slots a hne
  rw [hc t] at hctx
  cases hctx

/-- A thread takes the place of `t` while the domain is open. -/
theorem Closing.set (h : Closing σ) (ho : σ'.closed = false) (hopen : σ.closed = false) (hd : σ'.domain = σ.domain)
    (ht : σ'.thread = Function.update σ.thread t th) (hcov : ∀ a, (σ.thread t).Covers a → th.Covers a)
    (hcl : th.pc.closing = false) : Closing σ' := by
  have hself : σ'.thread t = th := by rw [ht, Function.update_self]
  have hother : ∀ u, u ≠ t → σ'.thread u = σ.thread u := fun u hu => by rw [ht, Function.update_of_ne hu]
  refine ⟨fun a ha => ?_, fun _ u => ?_, fun hc => absurd hc (by rw [ho]; exact Bool.false_ne_true)⟩
  · rw [hd] at ha
    obtain ⟨u, hu⟩ := h.slots a ha
    by_cases hut : u = t
    · subst hut
      exact ⟨u, hself ▸ hcov a hu⟩
    · exact ⟨u, (hother u hut).symm ▸ hu⟩
  · by_cases hut : u = t
    · rw [hut, hself]
      exact hcl
    · rw [hother u hut]
      exact h.opened hopen u

theorem Closing.step {addr : Nat} {e : Effect} (h : Closing σ) (hI : Inv σ C L)
    (hs : (σ.thread t).step σ.domain addr = some e) : Closing (σ.apply t e) := by
  have hself : (σ.apply t e).thread t = e.thread := Function.update_self ..
  have hother : ∀ u, u ≠ t → (σ.apply t e).thread u = σ.thread u := fun u hu => Function.update_of_ne hu ..
  have hk := Thread.step_slots (hI.ok t) hs
  refine ⟨fun a ha => ?_, fun ho u => ?_, fun hc => ?_⟩
  · obtain ⟨h1, h2⟩ := hk.slots a ha
    obtain ⟨u, hu⟩ := h.slots a h1
    by_cases hut : u = t
    · subst hut
      exact ⟨u, hself ▸ h2 hu⟩
    · exact ⟨u, (hother u hut).symm ▸ hu⟩
  · by_cases hut : u = t
    · rw [hut, hself]
      rcases hk.closing with hcr | hcl
      · rw [hcr]
        rfl
      · rw [hcl]
        exact h.opened ho t
    · rw [hother u hut]
      exact h.opened ho u
  · obtain ⟨v, hends, hctx, hrest⟩ := h.closed hc
    have htv : t = v := by
      by_contra hne
      have hidle : (σ.thread t).pc = .idle := (hrest t hne).1
      unfold Thread.step at hs
      rw [hidle] at hs
      cases hs
    subst htv
    have hnone : ∀ u, (σ.thread u).ctx = none := by
      intro u
      by_cases hut : u = t
      · rw [hut]
        exact hctx
      · exact (hrest u hut).2
    obtain ⟨h1, h2⟩ := Thread.step_ends hends (h.slot_zero hnone) hs
    refine ⟨t, ?_, ?_, fun u hut => ?_⟩
    · rw [hself]
      exact h1
    · rw [hself, h2]
      exact hctx
    · unfold State.Idle
      rw [hother u hut]
      exact hrest u hut

theorem Closing.store {index : Nat} {ptr : Ptr} (h : Closing σ) (ho : σ.closed = false) (ht : σ.Idle t)
    (hs : σ.store t index ptr = some σ') : Closing σ' := by
  unfold State.store at hs
  split at hs
  · rename_i c hc
    split at hs
    · cases hs
      refine ⟨fun a ha => ?_, h.opened, fun hc =>
        absurd ho (by rw [show σ.closed = true from hc]; exact Bool.false_ne_true.symm)⟩
      by_cases hac : a = c.hazardPtrs + index
      · refine ⟨t, c, hc, by omega, by omega, fun hcl => ?_⟩
        rw [show (σ.thread t).pc = .idle from ht] at hcl
        simp [Pc.Cleared, Pc.after] at hcl
      · refine h.slots a ?_
        have ha : Function.update σ.domain.slot (c.hazardPtrs + index) ptr a ≠ 0 := ha
        rwa [Function.update_of_ne hac] at ha
    · cases hs
  · cases hs

theorem Closing.move (h : Closing σ) (ho : σ.closed = false) (ht : σ.Idle t) (htc : (σ.thread t).ctx.isSome = true)
    (huc : (σ.thread u).ctx.isNone = true) : Closing (σ.move t u) := by
  have hne := move_ne htc huc
  have hidle : (σ.thread t).pc = .idle := ht
  have huc := Option.isNone_iff_eq_none.mp huc
  refine ⟨fun a ha => ?_, fun _ v => ?_,
    fun hc => absurd ho (by rw [show σ.closed = true from hc]; exact Bool.false_ne_true.symm)⟩
  · obtain ⟨v, hv⟩ := h.slots a ha
    by_cases hvt : v = t
    · subst hvt
      obtain ⟨c, hctx, h1, h2, -⟩ := hv
      refine ⟨u, ?_⟩
      rw [move_to hne]
      exact ⟨c, hctx, h1, h2, fun hcl => by simp [Pc.Cleared, Pc.after] at hcl⟩
    · have hvu : v ≠ u := by
        rintro rfl
        obtain ⟨c, hctx, -⟩ := hv
        rw [huc] at hctx
        cases hctx
      exact ⟨v, (move_other hvt hvu).symm ▸ hv⟩
  · by_cases hvt : v = t
    · rw [hvt, move_from]
      exact h.opened ho t
    · by_cases hvu : v = u
      · rw [hvu, move_to hne]
        rfl
      · rw [move_other hvt hvu]
        exact h.opened ho v

theorem Closing.next (h : Closing σ) (hI : Inv σ C L) (hn : (machine n sizes).next σ e = some σ') : Closing σ' := by
  cases e with
  | call t op =>
    simp only [machine] at hn
    split at hn
    · rename_i hen
      obtain ⟨hopen, hidle, -⟩ := hen
      have hopen := Bool.eq_false_iff.mpr hopen
      obtain ⟨th, hth, rfl⟩ := Option.map_eq_some_iff.mp hn
      obtain ⟨hctx, hcl, hclear⟩ := Op.start_call hidle hth
      refine h.set hopen hopen rfl rfl (fun a hcov => ?_) hcl
      obtain ⟨c, hc, h1, h2, -⟩ := hcov
      exact ⟨c, hctx.trans hc, h1, h2, hclear _⟩
    · cases hn
  | store t index ptr =>
    simp only [machine] at hn
    split at hn
    · rename_i hen
      exact h.store (Bool.eq_false_iff.mpr hen.1) hen.2 hn
    · cases hn
  | move t u =>
    simp only [machine] at hn
    split at hn
    · rename_i hen
      obtain ⟨hopen, ht, -, htc, huc⟩ := hen
      cases hn
      exact h.move (Bool.eq_false_iff.mpr hopen) ht htc huc
    · cases hn
  | close t =>
    simp only [machine] at hn
    split at hn
    · rename_i hen
      obtain ⟨-, hall⟩ := hen
      cases hn
      have hnone : ∀ u, (σ.thread u).ctx = none := fun u => Option.isNone_iff_eq_none.mp (hall u).2
      refine ⟨fun a ha => absurd (h.slot_zero hnone a) ha, fun hc => absurd hc Bool.false_ne_true.symm, fun _ => ?_⟩
      refine ⟨t, ?_, ?_, fun u hut => ?_⟩
      · change Ends σ.domain (Function.update σ.thread t _ t).pc
        rw [Function.update_self]
        trivial
      · change (Function.update σ.thread t _ t).ctx = none
        rw [Function.update_self]
        exact hnone t
      · change (Function.update σ.thread t _ u).pc = .idle ∧ (Function.update σ.thread t _ u).ctx = none
        rw [Function.update_of_ne hut]
        exact ⟨(hall u).1, hnone u⟩
    · cases hn
  | step t addr =>
    obtain ⟨e, he, rfl⟩ := Option.map_eq_some_iff.mp hn
    exact h.step hI he

theorem reachable_closing (h : (machine n sizes).Reachable σ) : Closing σ := by
  have hboth := h.invariant (I := fun σ => Closing σ ∧ ∃ C L, Inv σ C L) (fun σ hσ => ?_) fun _ _ _ ⟨hc, _, _, hI⟩ _ hn =>
    ⟨hc.next hI hn, hI.next hn⟩
  · exact hboth.1
  · refine ⟨?_, _, _, Inv.init hσ⟩
    cases hσ
    exact ⟨fun a ha => absurd rfl ha, fun _ _ => rfl, fun hc => absurd hc Bool.false_ne_true⟩

/-- The destructor of the domain is past its `collect`. -/
def Pc.Emptied : Pc → Prop
  | .domainEnd | .domainPools _ | .ended => True
  | _ => False

/-- **Past the last `collect` the delete list is empty and all that was retired is reclaimed.** -/
theorem Closing.reclaimed (h : Closing σ) (hI : Inv σ C L) (ht : (σ.thread t).pc.Emptied) :
    σ.domain.deleteHead = none ∧ σ.reclaimed.Perm σ.retired := by
  have hclosed : σ.closed = true := by
    by_contra hne
    have hcl := h.opened (Bool.eq_false_iff.mpr hne) t
    revert ht hcl
    cases (σ.thread t).pc <;> simp [Pc.Emptied, Pc.closing]
  obtain ⟨v, hends, hctx, hrest⟩ := h.closed hclosed
  have htv : t = v := by
    by_contra hne
    have hidle : (σ.thread t).pc = .idle := (hrest t hne).1
    rw [hidle] at ht
    exact ht
  subst htv
  have hhead : σ.domain.deleteHead = none := by
    revert ht hends
    cases (σ.thread t).pc <;> simp [Pc.Emptied, Ends]
  have hC : C = [] := Seg.det hI.shared (by rw [hhead]; rfl)
  have hown : ∀ u, (σ.thread u).holds σ.domain ++ (L u).map σ.domain.payload = [] := by
    intro u
    by_cases hut : u = t
    · subst hut
      have hok : (σ.thread u).NoContext ∧ (σ.thread u).pc.localHead = none ∧
          (σ.thread u).holds σ.domain = itemsOf (σ.thread u).deleted := by
        have hok := hI.ok u
        revert ht hok
        obtain ⟨ctx, deleted, delIndex, pc⟩ := σ.thread u
        intro ht hok
        cases pc <;> first
          | exact ht.elim
          | exact ⟨hok, rfl, by simp [Thread.holds, skipped, Pc.skip, Pc.item, Pc.newNode]⟩
      rw [hok.2.2, hok.1.2, (hI.own u).list_nil hok.2.1]
      rfl
    · obtain ⟨hidle, hnone⟩ := hrest u hut
      have hr := hI.rest hidle
      unfold Thread.Rest at hr
      rw [hnone] at hr
      rw [Thread.holds_idle hidle, hr, hI.list_nil hidle]
      rfl
  refine ⟨hhead, List.perm_iff_count.mpr fun p => ?_⟩
  have hc := hI.count p
  simp only [hown, hC, List.map_nil, List.count_nil, Finset.sum_const_zero, Nat.add_zero] at hc
  exact hc.symm

end Events

end Hazard

end SplitOrder
