/-
Whether a trigger of `collect` can get lost.

A thread that has reset `delete_count` owes a `collect` for the nodes the
count stood for. `do_collect` is assigned on every turn of its loop, so a
thread that goes round again and fails its `CAS` no longer knows that it
does. It can leave the loop then only if the count is no more than
`hp_count`, and since the count has not been reset by another, `hp_count`
has become larger in the meantime.
-/
import SplitOrder.Hazard.Garbage

namespace SplitOrder

namespace Hazard

variable {d : Domain} {th : Thread} {e : Effect} {k : After} {addr : Nat}

/-! ## Steps that count nothing -/

/-- The steps that change `delete_count` or `hp_count`, or push a node. -/
def Pc.counts : Pc → Bool
  | .pushCas _ _ _ | .pushCount _ _ | .collectZero _ _ | .countStore _ _ _ => true
  | _ => false

structure StillCounts (d : Domain) (e : Effect) : Prop where
  deleteCount : e.domain.deleteCount = d.deleteCount
  hpCount : e.domain.hpCount = d.hpCount
  pushing : e.thread.pc.pushing = 0
  pushed : e.pushed = 0

theorem StillCounts.goto {d' : Domain} {pc : Pc} (hdel : d'.deleteCount = d.deleteCount) (hhp : d'.hpCount = d.hpCount)
    (hpc : pc.pushing = 0) : StillCounts d (Hazard.goto d' th pc) :=
  ⟨hdel, hhp, hpc, rfl⟩

theorem After.resume_pushing : (k.resume th).pc.pushing = 0 := by
  cases k <;> rfl

theorem After.enqueued_pushing {b : Bool} : (k.enqueued b th).pc.pushing = 0 := by
  unfold After.enqueued
  split
  · rfl
  · exact After.resume_pushing

theorem Thread.step_still (hpc : th.pc.counts = false) (hs : th.step d addr = some e) : StillCounts d e := by
  obtain ⟨ctx, deleted, delIndex, pc⟩ := th
  cases pc with
  | idle | ended | crashed => cases hs
  | pushCas | pushCount | collectZero | countStore => cases hpc
  | reserve | poolsNext | countLoad | collectIf | collectLoad | release | releaseLoad | push | enqueueNull =>
    cases hs
    exact ⟨rfl, rfl, rfl, rfl⟩
  | reserveLoad =>
    cases hs
    unfold reserveLoad reserveTurn
    split
    · split <;> exact .goto rfl rfl rfl
    · split
      · exact .goto rfl rfl rfl
      · split <;> exact .goto rfl rfl rfl
  | reserveCas =>
    cases hs
    unfold reserveCas reserveTurn
    split
    · exact .goto rfl rfl rfl
    · split <;> exact .goto rfl rfl rfl
  | poolsCas =>
    simp only [Thread.step, poolsCas] at hs
    split at hs
    · split at hs
      · cases hs
        exact .goto rfl rfl rfl
      · cases hs
    · cases hs
      exact .goto rfl rfl rfl
  | construct =>
    cases hs
    unfold construct
    split
    · exact .goto rfl rfl rfl
    · exact ⟨rfl, rfl, rfl, rfl⟩
  | enqueue =>
    obtain ⟨-, rfl⟩ := enqueue_cases hs
    exact .goto rfl rfl rfl
  | enqueueArray =>
    rcases enqueueArray_cases hs with ⟨item, -, -, -, -, rfl⟩ | ⟨-, -, rfl⟩ | ⟨-, rfl⟩
    · exact .goto rfl rfl rfl
    · exact .goto rfl rfl rfl
    · exact ⟨rfl, rfl, After.enqueued_pushing, rfl⟩
  | collectTest =>
    cases hs
    unfold collectTest
    split
    · exact .goto rfl rfl rfl
    · split
      · exact .goto rfl rfl rfl
      · exact ⟨rfl, rfl, After.resume_pushing, rfl⟩
  | collect =>
    cases hs
    unfold collect
    split
    · exact ⟨rfl, rfl, After.resume_pushing, rfl⟩
    · exact .goto rfl rfl rfl
  | snapshot sa =>
    cases hs
    exact .goto rfl rfl rfl
  | snapshotLoad _ _ _ sa =>
    cases hs
    unfold snapshotLoad
    split
    · exact .goto rfl rfl (by cases sa <;> rfl)
    · split <;> exact .goto rfl rfl rfl
  | collectWalk head pprev snap k =>
    cases hs
    rcases collectWalk_cases d _ head pprev snap k with ⟨-, he⟩ | ⟨cur, -, -, he⟩ | ⟨cur, d', head', -, -, hd, he⟩
    · rw [he]
      exact .goto rfl rfl rfl
    · rw [he]
      exact .goto rfl rfl rfl
    · rw [he]
      rcases hd with rfl | ⟨b, rfl⟩ <;> exact ⟨rfl, rfl, rfl, rfl⟩
  | collectPush head =>
    cases hs
    unfold collectPush
    cases head with
    | none => exact ⟨rfl, rfl, After.resume_pushing, rfl⟩
    | some a => exact .goto rfl rfl rfl
  | reclaim =>
    obtain ⟨c, -, hr⟩ := Option.bind_eq_some_iff.mp hs
    rcases reclaim_cases hr with ⟨item, -, -, -, rfl⟩ | ⟨item, -, -, -, rfl⟩ | ⟨-, -, rfl⟩ | ⟨b, -, -, -, rfl⟩ <;>
      exact ⟨rfl, rfl, rfl, rfl⟩
  | destruct =>
    obtain ⟨c, -, rfl⟩ := Option.map_eq_some_iff.mp hs
    unfold destruct
    split <;> exact .goto rfl rfl rfl
  | releaseTest =>
    obtain ⟨c, -, rfl⟩ := Option.map_eq_some_iff.mp hs
    unfold releaseTest
    split
    · exact .goto rfl rfl rfl
    · split <;> exact .goto rfl rfl rfl
  | releaseSlot =>
    obtain ⟨c, -, rfl⟩ := Option.map_eq_some_iff.mp hs
    unfold releaseSlot
    split
    · split <;> exact .goto rfl rfl rfl
    · split <;> exact .goto rfl rfl rfl
  | releaseStore =>
    obtain ⟨c, -, rfl⟩ := Option.map_eq_some_iff.mp hs
    exact .goto rfl rfl rfl
  | releaseCheck =>
    cases hs
    dsimp only [releaseCheck]
    split <;> exact .goto rfl rfl rfl
  | releaseCas =>
    obtain ⟨c, -, rfl⟩ := Option.map_eq_some_iff.mp hs
    dsimp only [releaseCas]
    split <;> exact .goto rfl rfl rfl
  | domainEnd =>
    cases hs
    unfold domainEnd
    split <;> exact .goto rfl rfl rfl
  | domainPools =>
    cases hs
    unfold domainPools
    split
    · exact .goto rfl rfl rfl
    · split <;> exact .goto rfl rfl rfl

theorem Thread.counts_cases (hc : th.pc.counts = true) (hs : th.step d addr = some e) :
    (∃ a pa k, th.pc = .pushCas a pa k ∧ e = pushCas d th a pa k) ∨
      (∃ pa k, th.pc = .pushCount pa k ∧ e = pushCount d th pa k) ∨
      (∃ dc k, th.pc = .collectZero dc k ∧ e = collectZero d th dc k) ∨
      ∃ S R count, th.pc = .countStore S R count ∧
        e = goto { d with hpCount := count + BitVec.ofNat 32 (S * 32) } th (.reserve S R true) := by
  unfold Thread.step at hs
  cases hpc : th.pc with
  | pushCas a pa k =>
    rw [hpc] at hs
    cases hs
    exact .inl ⟨a, pa, k, rfl, rfl⟩
  | pushCount pa k =>
    rw [hpc] at hs
    cases hs
    exact .inr (.inl ⟨pa, k, rfl, rfl⟩)
  | collectZero dc k =>
    rw [hpc] at hs
    cases hs
    exact .inr (.inr (.inl ⟨dc, k, rfl, rfl⟩))
  | countStore S R count =>
    rw [hpc] at hs
    cases hs
    exact .inr (.inr (.inr ⟨S, R, count, rfl, rfl⟩))
  | _ =>
    rw [hpc] at hc
    cases hc

/-! ## The list and its count -/

/-- The count that the step makes still is an `int`. -/
def Pc.Fits (d : Domain) (pc : Pc) : Prop := pc.pushing = 1 → d.deleteCount ≠ 0x7fffffff#32

instance (pc : Pc) : Decidable (pc.Fits d) := inferInstanceAs (Decidable (_ → _))

/-- The step resets `delete_count`. -/
def Pc.Resets (d : Domain) : Pc → Prop
  | .collectZero dc _ => d.deleteCount = dc
  | _ => False

/-- What is pushed is counted, at once or by the step that comes next. -/
structure Recounts (d : Domain) (th : Thread) (e : Effect) : Prop where
  count : e.domain.deleteCount.toNat + e.thread.pc.pushing = d.deleteCount.toNat + th.pc.pushing + e.pushed
  grows : d.deleteCount.toNat ≤ e.domain.deleteCount.toNat
  small : e.domain.deleteCount.toNat < 2 ^ 31

theorem Recounts.same (hd : d.deleteCount.toNat < 2 ^ 31) (hdel : e.domain.deleteCount = d.deleteCount)
    (hpush : e.thread.pc.pushing = th.pc.pushing + e.pushed) : Recounts d th e := by
  refine ⟨?_, ?_, ?_⟩
  · rw [hdel, hpush]
    omega
  · rw [hdel]
  · rw [hdel]
    exact hd

theorem pushCount_recounts {pa : PushAfter} (hd : d.deleteCount.toNat < 2 ^ 31) (hpc : th.pc = .pushCount pa k)
    (hfits : th.pc.Fits d) : Recounts d th (pushCount d th pa k) := by
  have hone : th.pc.pushing = 1 := by
    rw [hpc]
    rfl
  have hne : d.deleteCount.toNat ≠ 2 ^ 31 - 1 := fun h => hfits hone (BitVec.eq_of_toNat_eq h)
  have hinc : (d.deleteCount + 1#32).toNat = d.deleteCount.toNat + 1 := by
    rw [BitVec.toNat_add]
    exact Nat.mod_eq_of_lt (by change _ + 1 < 2 ^ 32; omega)
  have hgrows : d.deleteCount.toNat ≤ (d.deleteCount + 1#32).toNat := by omega
  have hsmall : (d.deleteCount + 1#32).toNat < 2 ^ 31 := by omega
  unfold pushCount
  cases pa with
  | enqueue can => exact ⟨by rw [hone]; exact congrArg₂ _ hinc After.enqueued_pushing, hgrows, hsmall⟩
  | array x count can => exact ⟨by rw [hone]; exact hinc, hgrows, hsmall⟩
  | collect head => exact ⟨by rw [hone]; exact hinc, hgrows, hsmall⟩

theorem Thread.step_recounts (hd : d.deleteCount.toNat < 2 ^ 31) (hfits : th.pc.Fits d) (hkeep : ¬ th.pc.Resets d)
    (hs : th.step d addr = some e) : Recounts d th e := by
  cases hc : th.pc.counts with
  | false =>
    have hstill := Thread.step_still hc hs
    refine .same hd hstill.deleteCount ?_
    rw [hstill.pushing, hstill.pushed]
    cases hpc : th.pc <;> rw [hpc] at hc <;> first | rfl | cases hc
  | true =>
    rcases Thread.counts_cases hc hs with ⟨a, pa, k, hpc, rfl⟩ | ⟨pa, k, hpc, rfl⟩ | ⟨dc, k, hpc, rfl⟩ |
      ⟨S, R, count, hpc, rfl⟩
    · refine .same hd ?_ ?_
      · unfold pushCas
        split <;> rfl
      · rw [hpc]
        unfold pushCas
        split <;> rfl
    · exact pushCount_recounts hd hpc hfits
    · rw [hpc] at hkeep
      have hne : d.deleteCount ≠ dc := hkeep
      unfold collectZero
      rw [if_neg hne]
      exact .same hd rfl (by rw [hpc]; rfl)
    · exact .same hd rfl (by rw [hpc]; rfl)

theorem Thread.step_hpCount (hno : ∀ S R count, th.pc ≠ .countStore S R count) (hs : th.step d addr = some e) :
    e.domain.hpCount = d.hpCount := by
  cases hc : th.pc.counts with
  | false => exact (Thread.step_still hc hs).hpCount
  | true =>
    rcases Thread.counts_cases hc hs with ⟨a, pa, k, -, rfl⟩ | ⟨pa, k, -, rfl⟩ | ⟨dc, k, -, rfl⟩ | ⟨S, R, count, hpc, -⟩
    · unfold pushCas
      split <;> rfl
    · cases pa <;> rfl
    · unfold collectZero
      split <;> rfl
    · exact absurd hpc (hno S R count)

theorem Thread.step_pushed (hno : ∀ a pa k, th.pc ≠ .pushCas a pa k) (hs : th.step d addr = some e) : e.pushed = 0 := by
  cases hc : th.pc.counts with
  | false => exact (Thread.step_still hc hs).pushed
  | true =>
    rcases Thread.counts_cases hc hs with ⟨a, pa, k, hpc, -⟩ | ⟨pa, k, -, rfl⟩ | ⟨dc, k, -, rfl⟩ | ⟨S, R, count, -, rfl⟩
    · exact absurd hpc (hno a pa k)
    · cases pa <;> rfl
    · unfold collectZero
      split <;> rfl
    · rfl

theorem Thread.step_lengths {C L : List Addr} (ho : Own d C L th) (hs : th.step d addr = some e) :
    ∃ C' L', Keeps d C L th e C' L' ∧
      ((∃ k, th.pc = .collect k) ∧ C' = [] ∨ (∀ k, th.pc ≠ .collect k) ∧ C'.length = C.length + e.pushed) := by
  cases hre : th.pc.relists with
  | false =>
    have hpushed : e.pushed = 0 := Thread.step_pushed (fun a pa k hpc => by rw [hpc] at hre; cases hre) hs
    refine ⟨C, L, Thread.step_keeps_lists ho hre hs, .inr ⟨fun k hk => ?_, by rw [hpushed, Nat.add_zero]⟩⟩
    rw [hk] at hre
    cases hre
  | true =>
    have hpushed := fun hno => Thread.step_pushed hno hs
    unfold Thread.step at hs
    cases hpc : th.pc with
    | pushCas a pa k =>
      rw [hpc] at hs
      cases hs
      obtain ⟨C', hlen, hk⟩ := pushCas_keeps ho hpc
      exact ⟨C', L, hk, .inr ⟨nofun, hlen⟩⟩
    | collect k =>
      rw [hpc] at hs
      cases hs
      exact ⟨[], C, collect_keeps ho hpc, .inl ⟨⟨k, rfl⟩, rfl⟩⟩
    | collectWalk head pprev snap k =>
      rw [hpc] at hs hpushed
      cases hs
      obtain ⟨L', hk⟩ := collectWalk_keeps ho hpc
      exact ⟨C, L', hk, .inr ⟨nofun, by rw [hpushed nofun, Nat.add_zero]⟩⟩
    | collectPush head k =>
      rw [hpc] at hs hpushed
      cases hs
      obtain ⟨L', -, hk⟩ := collectPush_keeps ho hpc
      exact ⟨C, L', hk, .inr ⟨nofun, by rw [hpushed nofun, Nat.add_zero]⟩⟩
    | _ =>
      rw [hpc] at hre
      cases hre

/-! ## The thread that owes a `collect` -/

/-- In `collect_if_required`, or at the exchange of `collect`. -/
def Pc.looping : Pc → Bool
  | .collectIf _ _ | .collectTest _ _ _ | .collectLoad _ | .collectZero _ _ | .collect _ => true
  | _ => false

/-- The `delete_count` about to be compared, when `do_collect` is false. -/
def Pc.compares : Pc → Option (BitVec 32)
  | .collectTest false dc _ => some dc
  | _ => none

/-- The comparison does not end the loop. -/
def Pc.Kept (d : Domain) (pc : Pc) : Prop := pc.compares.all d.hpCount.slt = true

instance (pc : Pc) : Decidable (pc.Kept d) := inferInstanceAs (Decidable (_ = _))

/-- The loop is left for `collect`, which swaps the list out. -/
theorem Thread.step_looping (hl : th.pc.looping = true) (hkept : th.pc.Kept d) (hs : th.step d addr = some e)
    (hno : ∀ k, th.pc ≠ .collect k) : e.thread.pc.looping = true := by
  obtain ⟨ctx, deleted, delIndex, pc⟩ := th
  cases pc with
  | collectIf b k | collectLoad k =>
    cases hs
    rfl
  | collectTest b dc k =>
    cases hs
    unfold collectTest
    split
    · rfl
    · cases b with
      | true => rfl
      | false => exact absurd hkept ‹_›
  | collectZero dc k =>
    cases hs
    unfold collectZero
    split <;> rfl
  | collect k => exact absurd rfl (hno k)
  | _ => cases hl

/-- A state, with the last thread to reset `delete_count` if the list has not been swapped out since. -/
structure Watched (n : Nat) where
  state : State n
  owing : Option (Fin n) := none

variable {n : Nat}

def Watched.owes (w : Watched n) : Event n → Option (Fin n)
  | .step t _ =>
    match (w.state.thread t).pc with
    | .collectZero dc _ => if w.state.domain.deleteCount = dc then some t else w.owing
    | .collect _ => none
    | _ => w.owing
  | _ => w.owing

/-- The threads of `machine`, watched. -/
def watched (n : Nat) (sizes : Nat → Bool) : System (Watched n) (Event n) where
  init w := (machine n sizes).init w.state ∧ w.owing = none
  next w e := ((machine n sizes).next w.state e).map fun σ => { state := σ, owing := w.owes e }

/-- A thread that owes a `collect` and has `do_collect` false does not leave
the loop, and no push makes `delete_count` negative. -/
def TriggerKept (w : Watched n) : Event n → Prop
  | .step t _ => (w.state.thread t).pc.Fits w.state.domain ∧
      (w.owing = some t → (w.state.thread t).pc.Kept w.state.domain)
  | _ => True

instance (w : Watched n) (e : Event n) : Decidable (TriggerKept w e) :=
  match e with
  | .step _ _ => inferInstanceAs (Decidable (_ ∧ _))
  | .call _ _ | .store _ _ _ | .move _ _ | .close _ => isTrue trivial

/-- Every run of `machine` can be watched. -/
theorem watched_reachable {sizes : Nat → Bool} {ok : State n → Event n → Prop} {σ : State n}
    (h : (machine n sizes).ReachableBy ok σ) :
    ∃ w, (watched n sizes).ReachableBy (fun w ev => ok w.state ev) w ∧ w.state = σ := by
  induction h with
  | @init σ h => exact ⟨{ state := σ }, .init ⟨h, rfl⟩, rfl⟩
  | step _ hok hn ih =>
    obtain ⟨w, hw, rfl⟩ := ih
    exact ⟨_, .step hw hok (Option.map_eq_some_iff.mpr ⟨_, hn, rfl⟩), rfl⟩

/-! ## Runs -/

/-- The nodes are counted or about to be, unless a thread owes a `collect` and is on its way there. -/
structure Owed (w : Watched n) : Prop where
  inv : ∃ C L, Inv w.state C L
  small : w.state.domain.deleteCount.toNat < 2 ^ 31
  counted : w.owing = none → ∀ C, Seg w.state.domain.next w.state.domain.deleteHead C none →
    C.length ≤ w.state.domain.deleteCount.toNat + ∑ t, (w.state.thread t).pc.pushing
  looping : ∀ t, w.owing = some t → (w.state.thread t).pc.looping = true

section Events

variable {w w' : Watched n} {sizes : Nat → Bool} {ev : Event n}

theorem Op.start_pushing {op : Op} {th' : Thread} (hpc : th.pc = .idle) (hs : op.start th = some th') :
    th'.pc.pushing = 0 := by
  obtain ⟨ctx, deleted, delIndex, pc⟩ := th
  cases hpc
  cases op with
  | deleteItem item =>
    cases ctx with
    | none => cases hs
    | some c =>
      simp only [Op.start, Thread.deleteItem] at hs
      split at hs
      · split at hs
        · split at hs
          · cases hs
            split <;> rfl
          · cases hs
        · cases hs
          rfl
      · cases hs
        rfl
  | create | enqueueArray =>
    cases ctx with
    | some c => cases hs
    | none =>
      cases hs
      rfl
  | enqueue | collect =>
    cases hs
    rfl
  | destroy =>
    cases ctx with
    | none => cases hs
    | some c =>
      cases hs
      rfl

/-- What an event that is no step of a thread leaves as it is. -/
structure Between (σ σ' : State n) : Prop where
  deleteCount : σ'.domain.deleteCount = σ.domain.deleteCount
  hpCount : σ'.domain.hpCount = σ.domain.hpCount
  deleteHead : σ'.domain.deleteHead = σ.domain.deleteHead
  next : σ'.domain.next = σ.domain.next
  thread : ∀ u, (σ'.thread u).pc = (σ.thread u).pc ∨ σ.Idle u ∧ (σ'.thread u).pc.pushing = 0

theorem machine_between {σ σ' : State n} (hno : ∀ t addr, ev ≠ .step t addr)
    (hn : (machine n sizes).next σ ev = some σ') :
    Between σ σ' := by
  cases ev with
  | call t op =>
    simp only [machine] at hn
    split at hn
    · rename_i hen
      obtain ⟨th, hth, rfl⟩ := Option.map_eq_some_iff.mp hn
      refine ⟨rfl, rfl, rfl, rfl, fun u => ?_⟩
      by_cases hut : u = t
      · subst hut
        refine .inr ⟨hen.2.1, ?_⟩
        change (Function.update σ.thread u th u).pc.pushing = 0
        rw [Function.update_self]
        exact Op.start_pushing hen.2.1 hth
      · refine .inl ?_
        change (Function.update σ.thread t th u).pc = _
        rw [Function.update_of_ne hut]
    · cases hn
  | store t index ptr =>
    simp only [machine] at hn
    split at hn
    · unfold State.store at hn
      split at hn
      · split at hn
        · cases hn
          exact ⟨rfl, rfl, rfl, rfl, fun u => .inl rfl⟩
        · cases hn
      · cases hn
    · cases hn
  | move t u =>
    simp only [machine] at hn
    split at hn
    · rename_i hen
      obtain ⟨-, ht, hu, htc, huc⟩ := hen
      cases hn
      refine ⟨rfl, rfl, rfl, rfl, fun v => ?_⟩
      by_cases hvt : v = t
      · rw [hvt, move_from]
        exact .inl rfl
      · by_cases hvu : v = u
        · rw [hvu, move_to (move_ne htc huc)]
          exact .inr ⟨hu, rfl⟩
        · rw [move_other hvt hvu]
          exact .inl rfl
    · cases hn
  | close t =>
    simp only [machine] at hn
    split at hn
    · rename_i hen
      cases hn
      refine ⟨rfl, rfl, rfl, rfl, fun u => ?_⟩
      by_cases hut : u = t
      · subst hut
        refine .inr ⟨(hen.2 u).1, ?_⟩
        change (Function.update σ.thread u _ u).pc.pushing = 0
        rw [Function.update_self]
        rfl
      · refine .inl ?_
        change (Function.update σ.thread t _ u).pc = _
        rw [Function.update_of_ne hut]
    · cases hn
  | step t addr => exact absurd rfl (hno t addr)

/-- A thread in a call is where it was. -/
theorem Between.looping {σ σ' : State n} (h : Between σ σ') {t : Fin n} (hl : (σ.thread t).pc.looping = true) :
    (σ'.thread t).pc = (σ.thread t).pc := by
  rcases h.thread t with hpc | ⟨hidle, -⟩
  · exact hpc
  · rw [show (σ.thread t).pc = .idle from hidle] at hl
    cases hl

theorem Owed.between {σ : State n} (h : Owed w) (hinv : ∃ C L, Inv σ C L) (hb : Between w.state σ) :
    Owed { state := σ, owing := w.owing } := by
  have hpush : ∀ u, (σ.thread u).pc.pushing = (w.state.thread u).pc.pushing := by
    intro u
    rcases hb.thread u with hpc | ⟨hidle, hpc⟩
    · rw [hpc]
    · rw [hpc, show (w.state.thread u).pc = .idle from hidle]
      rfl
  refine ⟨hinv, ?_, fun hnone C hC => ?_, fun t ht => ?_⟩
  · rw [hb.deleteCount]
    exact h.small
  · rw [hb.next, hb.deleteHead] at hC
    simpa only [hb.deleteCount, hpush] using h.counted hnone C hC
  · have hl := h.looping t ht
    rw [hb.looping hl]
    exact hl

theorem Watched.owes_between (hno : ∀ t addr, ev ≠ .step t addr) : w.owes ev = w.owing := by
  cases ev with
  | step t addr => exact absurd rfl (hno t addr)
  | _ => rfl

theorem Watched.owes_collect {t : Fin n} (hpc : (w.state.thread t).pc = .collect k) : w.owes (.step t addr) = none := by
  simp only [owes, hpc]

theorem Watched.owes_other {t : Fin n} (hreset : ¬ (w.state.thread t).pc.Resets w.state.domain)
    (hno : ∀ k, (w.state.thread t).pc ≠ .collect k) : w.owes (.step t addr) = w.owing := by
  cases hpc : (w.state.thread t).pc with
  | collectZero dc k =>
    rw [hpc] at hreset
    simp only [owes, hpc]
    exact if_neg hreset
  | collect k => exact absurd hpc (hno k)
  | _ => simp only [owes, hpc]

theorem Owed.step {t : Fin n} {e : Effect} (h : Owed w) (hok : TriggerKept w (.step t addr))
    (hs : (w.state.thread t).step w.state.domain addr = some e) :
    Owed { state := w.state.apply t e, owing := w.owes (.step t addr) } := by
  obtain ⟨hfits, hkept⟩ := hok
  obtain ⟨C, L, hI⟩ := h.inv
  obtain ⟨C', L', hk, hlen⟩ := Thread.step_lengths (hI.own t) hs
  have hI' := hI.step hk
  have hself : (w.state.apply t e).thread t = e.thread := Function.update_self ..
  have hother : ∀ u, u ≠ t → (w.state.apply t e).thread u = w.state.thread u := fun u hu => Function.update_of_ne hu ..
  by_cases hreset : (w.state.thread t).pc.Resets w.state.domain
  · -- `t` owes a `collect` now
    cases hpc : (w.state.thread t).pc with
    | collectZero dc k =>
      rw [hpc] at hreset
      have heq : w.state.domain.deleteCount = dc := hreset
      have howes : w.owes (.step t addr) = some t := by simp only [Watched.owes, hpc, if_pos heq]
      simp only [Thread.step, hpc, collectZero, if_pos heq, Option.some.injEq] at hs
      subst hs
      refine ⟨⟨C', _, hI'⟩, show (0#32).toNat < 2 ^ 31 by decide, fun hnone => ?_, fun u hu => ?_⟩
      · rw [howes] at hnone
        cases hnone
      · rw [howes] at hu
        cases hu
        rw [hself]
        rfl
    | _ =>
      rw [hpc] at hreset
      cases hreset
  · have hre := Thread.step_recounts h.small hfits hreset hs
    refine ⟨⟨C', _, hI'⟩, hre.small, fun hnone C'' hC'' => ?_, fun u hu => ?_⟩
    · obtain rfl := Seg.det hI'.shared hC''
      rcases hlen with ⟨-, rfl⟩ | ⟨hno, hlen⟩
      · exact Nat.zero_le _
      · rw [Watched.owes_other hreset hno] at hnone
        have hle := h.counted hnone C hI.shared
        have hsum := sum_change (f := fun u => (w.state.thread u).pc.pushing)
          (g := fun u => ((w.state.apply t e).thread u).pc.pushing) t fun u hu => by rw [hother u hu]
        have hcount := hre.count
        rw [hself] at hsum
        change C'.length ≤ e.domain.deleteCount.toNat + ∑ u, ((w.state.apply t e).thread u).pc.pushing
        omega
    · rcases hlen with ⟨⟨k, hpc⟩, -⟩ | ⟨hno, -⟩
      · rw [Watched.owes_collect hpc] at hu
        cases hu
      · rw [Watched.owes_other hreset hno] at hu
        by_cases hut : u = t
        · subst hut
          rw [hself]
          exact Thread.step_looping (h.looping u hu) (hkept hu) hs hno
        · rw [hother u hut]
          exact h.looping u hu

theorem Owed.next (h : Owed w) (hok : TriggerKept w ev) (hw : (watched n sizes).next w ev = some w') : Owed w' := by
  obtain ⟨σ, hn, rfl⟩ := Option.map_eq_some_iff.mp hw
  by_cases hev : ∃ t addr, ev = .step t addr
  · obtain ⟨t, addr, rfl⟩ := hev
    obtain ⟨e, he, rfl⟩ := Option.map_eq_some_iff.mp hn
    exact h.step hok he
  · have hno : ∀ t addr, ev ≠ .step t addr := fun t addr he => hev ⟨t, addr, he⟩
    obtain ⟨C, L, hI⟩ := h.inv
    rw [Watched.owes_between hno]
    exact h.between (hI.next hn) (machine_between hno hn)

theorem Owed.init (h : (watched n sizes).init w) : Owed w := by
  obtain ⟨hσ, hnone⟩ := h
  refine ⟨⟨[], fun _ => [], Inv.init hσ⟩, ?_, fun _ C hC => ?_, fun t ht => ?_⟩
  · rw [show w.state = _ from hσ]
    change (0#32).toNat < 2 ^ 31
    decide
  · rw [show w.state = _ from hσ] at hC
    obtain rfl : C = [] := Seg.det hC rfl
    exact Nat.zero_le _
  · rw [hnone] at ht
    cases ht

/-- **No trigger is lost** when no thread that owes a `collect` leaves without
it: at rest `delete_count` is no less than the length of the delete list. -/
theorem trigger_kept (h : (watched n sizes).ReachableBy TriggerKept w) (hidle : ∀ t, w.state.Idle t) :
    ∃ C, Seg w.state.domain.next w.state.domain.deleteHead C none ∧
      (C.length : Int) ≤ w.state.domain.deleteCount.toInt := by
  have ho : Owed w := h.invariant (fun _ => Owed.init) fun _ _ _ ho hok hw => ho.next hok hw
  obtain ⟨C, L, hI⟩ := ho.inv
  have hnone : w.owing = none := by
    cases hw : w.owing with
    | none => rfl
    | some t =>
      have hl := ho.looping t hw
      rw [show (w.state.thread t).pc = .idle from hidle t] at hl
      cases hl
  have hpush : ∑ t, (w.state.thread t).pc.pushing = 0 :=
    Finset.sum_eq_zero fun t _ => by rw [show (w.state.thread t).pc = .idle from hidle t]; rfl
  have hle := ho.counted hnone C hI.shared
  refine ⟨C, hI.shared, ?_⟩
  rw [BitVec.toInt_eq_toNat_of_lt (by have := ho.small; omega)]
  omega

/-- Thread 0 has reset the count for its node when 1 pushes a second, and goes
round again; its `CAS` fails since 2 pushes a third. -/
def secondTurn (canCollect : Bool) : List (Event 4) :=
  [.call 0 (.enqueue 8 true)] ++ List.replicate 8 (.step 0 1) ++ [.call 1 (.enqueue 10 canCollect)] ++
    List.replicate 4 (.step 1 2) ++ List.replicate 3 (.step 0 0) ++ [.call 2 (.enqueue 12 canCollect)] ++
    List.replicate 4 (.step 2 3) ++ [.step 0 0]

/-- Thread 0 compares once more, and collects. -/
theorem trigger_kept_four :
    ∃ w : Watched 4, (watched 4 fun _ => true).ReachableBy TriggerKept w ∧ w.state.reclaimed = [12, 10, 8] ∧
      ∃ C, Seg w.state.domain.next w.state.domain.deleteHead C none ∧
        (C.length : Int) ≤ w.state.domain.deleteCount.toInt := by
  -- no thread of this run leaves its loop but for `collect`
  let check (σ : State 4) : Event 4 → Bool
    | .step t _ => decide ((σ.thread t).pc.Fits σ.domain ∧ (σ.thread t).pc.Kept σ.domain)
    | _ => true
  have hsome : ((machine 4 fun _ => true).runIf check { domain := Domain.fresh, thread := fun _ => {} }
      (secondTurn false ++ List.replicate 14 (.step 0 0) ++ [.call 2 (.enqueue 14 false)] ++
        List.replicate 4 (.step 2 1))).map
      (fun σ => decide (σ.reclaimed = [12, 10, 8] ∧ ∀ t, σ.Idle t)) = some true := by
    decide +kernel
  obtain ⟨σ, hrun, hfacts⟩ := Option.map_eq_some_iff.mp hsome
  obtain ⟨hrec, hidle⟩ := of_decide_eq_true hfacts
  have hreach := System.runIf_reachableBy (M := machine 4 fun _ => true) (fun _ _ h => h) (.init rfl) hrun
  obtain ⟨w, hw, rfl⟩ := watched_reachable hreach
  have hw : (watched 4 fun _ => true).ReachableBy TriggerKept w := hw.mono fun v ev _ hc => by
    cases ev with
    | step t addr =>
      obtain ⟨hfits, hkept⟩ := of_decide_eq_true hc
      exact ⟨hfits, fun _ => hkept⟩
    | _ => trivial
  exact ⟨w, hw, hrec, trigger_kept hw hidle⟩

/-- **A lost trigger.** Before thread 0 compares again, 3 reserves, which
raises `hp_count` to 32. All calls return, with three nodes and a count of 2. -/
theorem trigger_lost :
    ∃ σ : State 4, (machine 4 fun _ => true).Reachable σ ∧ (∀ t, σ.Idle t) ∧
      ¬ ∃ C, Seg σ.domain.next σ.domain.deleteHead C none ∧ (C.length : Int) ≤ σ.domain.deleteCount.toInt := by
  have hsome : ((machine 4 fun _ => true).run { domain := Domain.fresh, thread := fun _ => {} }
      (secondTurn true ++ [.call 3 (.create 1 1)] ++ List.replicate 11 (.step 3 1000) ++ List.replicate 2 (.step 0 0) ++
        List.replicate 2 (.step 1 0) ++ List.replicate 2 (.step 2 0))).map
      (fun σ => decide ((∀ t, σ.Idle t) ∧ σ.domain.deleteCount = 2#32 ∧ σ.domain.deleteHead = some 3 ∧
        σ.domain.next 3 = some 2 ∧ σ.domain.next 2 = some 1 ∧ σ.domain.next 1 = none)) = some true := by
    decide +kernel
  obtain ⟨σ, hrun, hfacts⟩ := Option.map_eq_some_iff.mp hsome
  obtain ⟨hidle, hcount, h₃, h₂, h₁, h₀⟩ := of_decide_eq_true hfacts
  refine ⟨σ, System.run_reachable (.init rfl) hrun, hidle, fun ⟨C, hC, hle⟩ => ?_⟩
  have hseg : Seg σ.domain.next σ.domain.deleteHead [3, 2, 1] none := ⟨h₃, h₂, h₁, h₀⟩
  obtain rfl := Seg.det hseg hC
  rw [hcount] at hle
  exact absurd hle (by decide)

/-! ## When `hp_count` stays -/

/-- What a thread that owes a `collect` has seen of the counts, as long as `hp_count` is not raised. -/
def Pc.Chases (d : Domain) : Pc → Prop
  | .collectTest b dc _ => dc.toNat ≤ d.deleteCount.toNat ∧ (b = false → d.hpCount.toInt < dc.toInt)
  | .collectIf false _ | .collectLoad _ | .collectZero _ _ => d.hpCount.toInt < d.deleteCount.toNat
  | _ => True

theorem Pc.Chases.kept {pc : Pc} (h : pc.Chases d) : pc.Kept d := by
  cases pc with
  | collectTest b dc k =>
    cases b with
    | true => rfl
    | false => exact decide_eq_true (h.2 rfl)
  | _ => rfl

/-- Other threads only push. -/
theorem Pc.Chases.mono {d' : Domain} {pc : Pc} (h : pc.Chases d) (hhp : d'.hpCount = d.hpCount)
    (hdel : d.deleteCount.toNat ≤ d'.deleteCount.toNat) : pc.Chases d' := by
  cases pc with
  | collectTest b v k =>
    refine ⟨Nat.le_trans h.1 hdel, fun hb => ?_⟩
    rw [hhp]
    exact h.2 hb
  | collectIf b k =>
    cases b with
    | true => trivial
    | false =>
      change d'.hpCount.toInt < _
      rw [hhp]
      exact Int.lt_of_lt_of_le h (Int.ofNat_le.mpr hdel)
  | collectLoad | collectZero =>
    change d'.hpCount.toInt < _
    rw [hhp]
    exact Int.lt_of_lt_of_le h (Int.ofNat_le.mpr hdel)
  | _ => trivial

/-- A turn of the loop. -/
theorem Thread.step_chases (hd : d.deleteCount.toNat < 2 ^ 31) (hl : th.pc.looping = true) (hc : th.pc.Chases d)
    (hs : th.step d addr = some e) (hno : ∀ k, th.pc ≠ .collect k) : e.thread.pc.Chases e.domain := by
  have hint : d.deleteCount.toInt = d.deleteCount.toNat := BitVec.toInt_eq_toNat_of_lt (by omega)
  obtain ⟨ctx, deleted, delIndex, pc⟩ := th
  cases pc with
  | collectIf b k =>
    cases hs
    refine ⟨Nat.le_refl _, fun hb => ?_⟩
    cases hb
    rw [hint]
    exact hc
  | collectTest b dc k =>
    cases hs
    unfold collectTest
    split
    · -- the count is no less than what was compared
      rename_i hlt
      have hlt : d.hpCount.toInt < dc.toInt := of_decide_eq_true hlt
      have hle : dc.toNat ≤ d.deleteCount.toNat := hc.1
      have hdc : dc.toInt = dc.toNat := BitVec.toInt_eq_toNat_of_lt (by omega)
      change d.hpCount.toInt < d.deleteCount.toNat
      omega
    · cases b with
      | true => trivial
      | false => exact absurd hc.kept ‹_›
  | collectLoad k =>
    cases hs
    exact hc
  | collectZero dc k =>
    cases hs
    unfold collectZero
    split
    · trivial
    · exact hc
  | collect k => exact absurd rfl (hno k)
  | _ => cases hl

/-- No pool is counted while a thread owes a `collect`, and no push makes `delete_count` negative. -/
def Unraised (w : Watched n) : Event n → Prop
  | .step t _ =>
    (w.state.thread t).pc.Fits w.state.domain ∧
    (w.owing ≠ none → ∀ S R count, (w.state.thread t).pc ≠ .countStore S R count)
  | _ => True

def Chased (w : Watched n) : Prop := ∀ t, w.owing = some t → (w.state.thread t).pc.Chases w.state.domain

theorem Chased.kept (h : Chased w) (hok : Unraised w ev) : TriggerKept w ev := by
  cases ev with
  | step t addr => exact ⟨hok.1, fun ht => (h t ht).kept⟩
  | _ => trivial

theorem Chased.step {t : Fin n} {e : Effect} (h : Chased w) (ho : Owed w) (hok : Unraised w (.step t addr))
    (hs : (w.state.thread t).step w.state.domain addr = some e) :
    Chased { state := w.state.apply t e, owing := w.owes (.step t addr) } := by
  intro u hu
  have hself : (w.state.apply t e).thread t = e.thread := Function.update_self ..
  have hother : ∀ v, v ≠ t → (w.state.apply t e).thread v = w.state.thread v := fun v hv => Function.update_of_ne hv ..
  change ((w.state.apply t e).thread u).pc.Chases e.domain
  by_cases hreset : (w.state.thread t).pc.Resets w.state.domain
  · cases hpc : (w.state.thread t).pc with
    | collectZero dc k =>
      rw [hpc] at hreset
      have heq : w.state.domain.deleteCount = dc := hreset
      simp only [Watched.owes, hpc, if_pos heq, Option.some.injEq] at hu
      subst hu
      simp only [Thread.step, hpc, collectZero, if_pos heq, Option.some.injEq] at hs
      subst hs
      rw [hself]
      trivial
    | _ =>
      rw [hpc] at hreset
      cases hreset
  · by_cases hcol : ∃ k, (w.state.thread t).pc = .collect k
    · obtain ⟨k, hpc⟩ := hcol
      rw [Watched.owes_collect hpc] at hu
      cases hu
    · have hno : ∀ k, (w.state.thread t).pc ≠ .collect k := fun k hk => hcol ⟨k, hk⟩
      rw [Watched.owes_other hreset hno] at hu
      by_cases hut : u = t
      · subst hut
        rw [hself]
        exact Thread.step_chases ho.small (ho.looping u hu) (h u hu) hs hno
      · have hhp := Thread.step_hpCount (hok.2 (by rw [hu]; nofun)) hs
        rw [hother u hut]
        exact (h u hu).mono hhp (Thread.step_recounts ho.small hok.1 hreset hs).grows

theorem Chased.next (h : Chased w) (ho : Owed w) (hok : Unraised w ev) (hw : (watched n sizes).next w ev = some w') :
    Chased w' := by
  obtain ⟨σ, hn, rfl⟩ := Option.map_eq_some_iff.mp hw
  by_cases hev : ∃ t addr, ev = .step t addr
  · obtain ⟨t, addr, rfl⟩ := hev
    obtain ⟨e, he, rfl⟩ := Option.map_eq_some_iff.mp hn
    exact h.step ho hok he
  · have hno : ∀ t addr, ev ≠ .step t addr := fun t addr he => hev ⟨t, addr, he⟩
    have hb := machine_between hno hn
    intro u hu
    rw [Watched.owes_between hno] at hu
    change (σ.thread u).pc.Chases σ.domain
    rw [hb.looping (ho.looping u hu)]
    exact (h u hu).mono hb.hpCount (Nat.le_of_eq (by rw [hb.deleteCount]))

/-- **Only `reserve` loses a trigger**: a thread leaves the loop without the
`collect` it owes only if a pool has been counted since it reset `delete_count`. -/
theorem unraised_kept (h : (watched n sizes).ReachableBy Unraised w) : (watched n sizes).ReachableBy TriggerKept w := by
  have hinv : ∀ v, (watched n sizes).ReachableBy Unraised v → Owed v ∧ Chased v := fun v hv => by
    refine hv.invariant (I := fun v => Owed v ∧ Chased v)
      (fun v hinit => ⟨Owed.init hinit, fun t ht => ?_⟩) fun v ev v' hv hok hw =>
      ⟨hv.1.next (hv.2.kept hok) hw, hv.2.next hv.1 hok hw⟩
    rw [hinit.2] at ht
    cases ht
  exact h.mono fun v ev hv hok => (hinv v hv).2.kept hok

end Events

end Hazard

end SplitOrder
