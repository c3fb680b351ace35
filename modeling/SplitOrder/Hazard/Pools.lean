/-
How many pools a domain has.

`reserve` pushes a pool only if it has read a null `pools_head`, and no pool
is taken off the list before the domain ends. So once there is a pool only
the calls that read null before it was pushed can push another, and each of
these pushes one. A list of more pools than threads that began together, and
with it a second block size or a 33rd block, is out of reach.
-/
import Mathlib.Algebra.Order.BigOperators.Group.Finset
import SplitOrder.Hazard.Blocks

namespace SplitOrder

namespace Hazard

variable {d d' : Domain} {th : Thread} {pc : Pc} {k : After} {addr : Nat} {e : Effect}

/-! ## The calls that may push a pool -/

/-- The call is in `reserve`, up to its second `pools_reserve`. -/
def Pc.reserves : Pc → Bool
  | .reserve _ _ _ | .reserveLoad _ _ _ _ | .reserveCas _ _ _ _ _ | .poolsNext _ _ | .poolsCas _ _ _
  | .countLoad _ _ | .countStore _ _ _ => true
  | _ => false

/-- The call is about to read a null `pools_head`, or has read it and not pushed a pool yet. -/
def Pc.mayPush (d : Domain) : Pc → Nat
  | .reserve _ _ false => if d.poolsHead = 0 then 1 else 0
  | .reserveLoad _ _ false p => if p = 0 then 1 else 0
  | .poolsNext _ _ | .poolsCas _ _ _ => 1
  | _ => 0

theorem Pc.mayPush_of_not (h : pc.reserves = false) : pc.mayPush d = 0 := by
  cases pc with
  | reserve | reserveLoad | reserveCas | poolsNext | poolsCas | countLoad | countStore => cases h
  | _ => rfl

theorem Pc.mayPush_mono (h : d.poolsHead ≤ d'.poolsHead) : pc.mayPush d' ≤ pc.mayPush d := by
  cases pc with
  | reserve S R again =>
    cases again with
    | true => exact Nat.le_refl _
    | false =>
      simp only [Pc.mayPush]
      split <;> split <;> omega
  | reserveLoad S R again p => cases again <;> exact Nat.le_refl _
  | _ => exact Nat.le_refl _

/-- What a step adds to the pools it takes from the calls that may push one. -/
structure FewPools (d : Domain) (th : Thread) (e : Effect) : Prop where
  head : d.poolsHead ≤ e.domain.poolsHead
  few : e.domain.poolsHead + e.thread.pc.mayPush e.domain ≤ d.poolsHead + th.pc.mayPush d

theorem FewPools.of (h1 : e.domain.poolsHead = d.poolsHead) (h2 : e.thread.pc.mayPush e.domain ≤ th.pc.mayPush d) :
    FewPools d th e := ⟨Nat.le_of_eq h1.symm, by omega⟩

theorem FewPools.goto (h1 : d'.poolsHead = d.poolsHead) (h2 : pc.reserves = false) :
    FewPools d th (Hazard.goto d' th pc) :=
  .of h1 (Nat.le_trans (Nat.le_of_eq (Pc.mayPush_of_not h2)) (Nat.zero_le _))

theorem FewPools.resume (h1 : d'.poolsHead = d.poolsHead) : FewPools d th { domain := d', thread := k.resume th } := by
  cases k <;> exact .of h1 (Nat.zero_le _)

theorem FewPools.enqueued {b : Bool} (h1 : d'.poolsHead = d.poolsHead) :
    FewPools d th { domain := d', thread := k.enqueued b th } := by
  unfold After.enqueued
  split
  · exact .of h1 (Nat.zero_le _)
  · exact .resume h1

theorem reserveTurn_mayPush {S R p : Nat} {again : Bool} {expected : BitVec 32} (hp : p ≠ 0) :
    (reserveTurn S R again p expected).mayPush d = 0 := by
  unfold reserveTurn
  split
  · cases again
    · simp [Pc.mayPush, hp]
    · rfl
  · rfl

/-- The steps of `reserve`. -/
theorem Thread.step_few_reserves {ctx : Option Context} (hk : th.pc.Knows d ctx) (hpc : th.pc.reserves = true)
    (hs : th.step d addr = some e) : FewPools d th e := by
  obtain ⟨ctx', deleted, delIndex, pc⟩ := th
  cases pc with
  | reserve S R again =>
    cases hs
    refine .of rfl ?_
    cases again <;> exact Nat.le_refl _
  | reserveLoad S R again p =>
    cases hs
    unfold reserveLoad
    split
    · rename_i hp
      cases again with
      | true => exact .of rfl (Nat.zero_le _)
      | false => exact .of rfl (by simp [goto, Thread.setPc, Pc.mayPush, hp])
    · rename_i hp
      split
      · exact .of rfl (Nat.le_refl _)
      · refine .of rfl ?_
        simp only [goto, Thread.setPc, reserveTurn_mayPush hp]
        exact Nat.zero_le _
  | reserveCas S R again p expected =>
    cases hs
    obtain ⟨-, ⟨hp, -⟩, -⟩ := hk
    unfold reserveCas
    split
    · exact .goto rfl rfl
    · refine .of rfl ?_
      simp only [goto, Thread.setPc, reserveTurn_mayPush (Nat.pos_iff_ne_zero.mp hp)]
      exact Nat.zero_le _
  | poolsNext S R =>
    cases hs
    exact .of rfl (Nat.le_refl _)
  | poolsCas S R next =>
    simp only [Thread.step, poolsCas] at hs
    split at hs
    · split at hs
      · cases hs
        exact ⟨Nat.le_succ _, Nat.le_refl _⟩
      · cases hs
    · cases hs
      exact .of rfl (Nat.le_refl _)
  | countLoad S R =>
    cases hs
    exact .of rfl (Nat.le_refl _)
  | countStore S R count =>
    cases hs
    exact .of rfl (Nat.le_refl _)
  | _ => cases hpc

/-- **A step pushes a pool only for a call that may push one.** -/
theorem Thread.step_few (hk : th.pc.Knows d th.ctx) (hend : th.pc ≠ .domainEnd) (hs : th.step d addr = some e) :
    FewPools d th e := by
  cases hpc : th.pc.reserves with
  | true => exact Thread.step_few_reserves hk hpc hs
  | false =>
    obtain ⟨ctx, deleted, delIndex, pc⟩ := th
    cases pc with
    | idle | ended | crashed => cases hs
    | reserve | reserveLoad | reserveCas | poolsNext | poolsCas | countLoad | countStore => cases hpc
    | domainEnd => exact absurd rfl hend
    | collectIf | collectLoad | release | releaseLoad | push | snapshot =>
      cases hs
      exact .goto rfl rfl
    | enqueueNull =>
      cases hs
      exact .of rfl (Nat.zero_le _)
    | construct =>
      cases hs
      unfold construct
      split
      · exact .goto rfl rfl
      · exact .of rfl (Nat.zero_le _)
    | pushCas =>
      cases hs
      unfold pushCas
      split
      · exact .of rfl (Nat.zero_le _)
      · exact .goto rfl rfl
    | pushCount pa =>
      cases hs
      unfold pushCount
      cases pa with
      | enqueue can => exact .enqueued rfl
      | array x count can => exact .goto rfl rfl
      | collect head => exact .goto rfl rfl
    | enqueue =>
      obtain ⟨-, rfl⟩ := enqueue_cases hs
      exact .goto rfl rfl
    | enqueueArray =>
      rcases enqueueArray_cases hs with ⟨item, -, -, -, -, rfl⟩ | ⟨-, -, rfl⟩ | ⟨-, rfl⟩
      · exact .goto rfl rfl
      · exact .goto rfl rfl
      · exact .enqueued rfl
    | collectTest =>
      cases hs
      unfold collectTest
      split
      · exact .goto rfl rfl
      · split
        · exact .goto rfl rfl
        · exact .resume rfl
    | collectZero =>
      cases hs
      unfold collectZero
      split
      · exact .goto rfl rfl
      · exact .goto rfl rfl
    | collect =>
      cases hs
      unfold collect
      split
      · exact .resume rfl
      · exact .goto rfl rfl
    | snapshotLoad _ _ _ sa =>
      cases hs
      unfold snapshotLoad
      split
      · exact .goto rfl (by cases sa <;> rfl)
      · split
        · exact .goto rfl rfl
        · exact .goto rfl rfl
    | collectWalk head pprev snap k =>
      cases hs
      rcases collectWalk_cases d _ head pprev snap k with ⟨-, he⟩ | ⟨cur, -, -, he⟩ | ⟨cur, d', head', -, -, hd, he⟩
      · rw [he]
        exact .goto rfl rfl
      · rw [he]
        exact .goto rfl rfl
      · rw [he]
        rcases hd with rfl | ⟨b, rfl⟩
        · exact .of rfl (Nat.zero_le _)
        · exact .of rfl (Nat.zero_le _)
    | collectPush head =>
      cases hs
      unfold collectPush
      cases head with
      | none => exact .resume rfl
      | some a => exact .goto rfl rfl
    | reclaim =>
      obtain ⟨c, -, hr⟩ := Option.bind_eq_some_iff.mp hs
      rcases reclaim_cases hr with ⟨item, -, -, -, rfl⟩ | ⟨item, -, -, -, rfl⟩ | ⟨-, -, rfl⟩ | ⟨b, -, -, -, rfl⟩ <;>
        exact .of rfl (Nat.zero_le _)
    | destruct =>
      obtain ⟨c, -, rfl⟩ := Option.map_eq_some_iff.mp hs
      unfold destruct
      split
      · exact .goto rfl rfl
      · exact .goto rfl rfl
    | releaseTest =>
      obtain ⟨c, -, rfl⟩ := Option.map_eq_some_iff.mp hs
      unfold releaseTest
      split
      · exact .goto rfl rfl
      · split
        · exact .goto rfl rfl
        · exact .goto rfl rfl
    | releaseSlot =>
      obtain ⟨c, -, rfl⟩ := Option.map_eq_some_iff.mp hs
      unfold releaseSlot
      split
      · split
        · exact .goto rfl rfl
        · exact .goto rfl rfl
      · split
        · exact .goto rfl rfl
        · exact .goto rfl rfl
    | releaseStore =>
      obtain ⟨c, -, rfl⟩ := Option.map_eq_some_iff.mp hs
      exact .goto rfl rfl
    | releaseCheck =>
      cases hs
      dsimp only [releaseCheck]
      split
      · exact .goto rfl rfl
      · exact .goto rfl rfl
    | releaseCas =>
      obtain ⟨c, -, rfl⟩ := Option.map_eq_some_iff.mp hs
      dsimp only [releaseCas]
      split
      · exact .goto rfl rfl
      · exact .goto rfl rfl
    | domainPools =>
      cases hs
      unfold domainPools
      split
      · exact .goto rfl rfl
      · split
        · exact .goto rfl rfl
        · exact .goto rfl rfl

/-! ## Runs -/

section Runs

variable {n K : Nat} {σ σ' : State n} {t : Fin n} {sizes : Nat → Bool}

/-- The pools, and the calls that may push one. -/
def State.pools (σ : State n) : Nat := σ.domain.poolsHead + ∑ u, (σ.thread u).pc.mayPush σ.domain

/-- A context is made with no pool only while fewer than `K` other calls may push one. -/
def AtOnce (K : Nat) (σ : State n) : Event n → Prop
  | .call _ (.create _ _) => σ.domain.poolsHead = 0 → ∑ u, (σ.thread u).pc.mayPush σ.domain < K
  | _ => True

theorem State.pools_step (hf : FewPools σ.domain (σ.thread t) e) : (σ.apply t e).pools ≤ σ.pools := by
  have hself : (σ.apply t e).thread t = e.thread := Function.update_self ..
  have hother : ∀ u, u ≠ t → (σ.apply t e).thread u = σ.thread u := fun u hu => Function.update_of_ne hu ..
  -- the other calls against the new list first, then the one that took the step
  let f : Fin n → Nat := Function.update (fun u => (σ.thread u).pc.mayPush e.domain) t ((σ.thread t).pc.mayPush σ.domain)
  have hft : f t = (σ.thread t).pc.mayPush σ.domain := Function.update_self ..
  have hfo : ∀ u, u ≠ t → f u = (σ.thread u).pc.mayPush e.domain := fun u hu => Function.update_of_ne hu ..
  have hmono : ∑ u, f u ≤ ∑ u, (σ.thread u).pc.mayPush σ.domain := by
    refine Finset.sum_le_sum fun u _ => ?_
    by_cases hu : u = t
    · rw [hu, hft]
    · rw [hfo u hu]
      exact Pc.mayPush_mono hf.head
  have hsum := sum_change (f := f) (g := fun u => ((σ.apply t e).thread u).pc.mayPush e.domain) t
    fun u hu => by rw [hfo u hu, hother u hu]
  rw [hself, hft] at hsum
  have hfew := hf.few
  change e.domain.poolsHead + ∑ u, ((σ.apply t e).thread u).pc.mayPush e.domain ≤ _
  unfold State.pools
  omega

/-- A thread between calls goes on with `th`. -/
theorem State.pools_set (hd : σ'.domain = σ.domain) (ht : σ'.thread = Function.update σ.thread t th)
    (hidle : σ.Idle t) : σ'.pools = σ.pools + th.pc.mayPush σ.domain := by
  have hsum := sum_change (f := fun u => (σ.thread u).pc.mayPush σ.domain)
    (g := fun u => (σ'.thread u).pc.mayPush σ.domain) t fun u hu => by rw [ht, Function.update_of_ne hu]
  have hself : σ'.thread t = th := by rw [ht, Function.update_self]
  have hzero : (σ.thread t).pc.mayPush σ.domain = 0 :=
    Pc.mayPush_of_not (by rw [show (σ.thread t).pc = .idle from hidle]; rfl)
  simp only [hself, hzero] at hsum
  unfold State.pools
  rw [hd]
  omega

theorem Op.start_mayPush {op : Op} {th th' : Thread} (hpc : th.pc = .idle) (hs : op.start th = some th') :
    (∃ S R, op = .create S R ∧ th'.pc = .reserve S R false) ∨ th'.pc.mayPush d = 0 := by
  obtain ⟨ctx, deleted, delIndex, pc⟩ := th
  cases hpc
  cases op with
  | create S R =>
    cases ctx with
    | some c => cases hs
    | none =>
      cases hs
      exact .inl ⟨S, R, rfl, rfl⟩
  | deleteItem item =>
    refine .inr ?_
    cases ctx with
    | none => cases hs
    | some c =>
      simp only [Op.start, Thread.deleteItem] at hs
      split at hs
      · split at hs
        · split at hs
          · cases hs
            split <;> rfl
          · cases hs
        · cases hs
          rfl
      · cases hs
        rfl
  | enqueueArray =>
    cases ctx with
    | some c => cases hs
    | none =>
      cases hs
      exact .inr rfl
  | enqueue | collect =>
    cases hs
    exact .inr rfl
  | destroy =>
    cases ctx with
    | none => cases hs
    | some c =>
      cases hs
      exact .inr rfl

theorem State.pools_congr (hd : σ'.domain.poolsHead = σ.domain.poolsHead)
    (hpc : ∀ u, (σ'.thread u).pc = (σ.thread u).pc) : σ'.pools = σ.pools := by
  have hm : ∀ u, (σ'.thread u).pc.mayPush σ'.domain = (σ.thread u).pc.mayPush σ.domain := fun u => by
    rw [hpc u]
    exact Nat.le_antisymm (Pc.mayPush_mono (Nat.le_of_eq hd.symm)) (Pc.mayPush_mono (Nat.le_of_eq hd))
  simp only [State.pools, hd, hm]

/-- The end of the domain, with all other threads between calls. -/
theorem State.pools_domainEnd (hpc : (σ.thread t).pc = .domainEnd) (hidle : ∀ u, u ≠ t → σ.Idle u) :
    (σ.apply t (domainEnd σ.domain (σ.thread t))).pools ≤ σ.pools := by
  have hz : ∀ u, ((σ.apply t (domainEnd σ.domain (σ.thread t))).thread u).pc.mayPush
      (domainEnd σ.domain (σ.thread t)).domain = 0 := by
    intro u
    refine Pc.mayPush_of_not ?_
    by_cases hu : u = t
    · subst hu
      change (Function.update σ.thread u _ u).pc.reserves = false
      rw [Function.update_self, domainEnd]
      split <;> rfl
    · change (Function.update σ.thread t _ u).pc.reserves = false
      rw [Function.update_of_ne hu, show (σ.thread u).pc = .idle from hidle u hu]
      rfl
  have hhead : (domainEnd σ.domain (σ.thread t)).domain.poolsHead ≤ σ.domain.poolsHead := by
    unfold domainEnd
    split
    · exact Nat.zero_le _
    · exact Nat.le_refl _
  have hsum : ∑ u, ((σ.apply t (domainEnd σ.domain (σ.thread t))).thread u).pc.mayPush
      (domainEnd σ.domain (σ.thread t)).domain = 0 := Finset.sum_eq_zero fun u _ => hz u
  have hpools : (σ.apply t (domainEnd σ.domain (σ.thread t))).pools =
      (domainEnd σ.domain (σ.thread t)).domain.poolsHead + 0 := congrArg (_ + ·) hsum
  have hle : σ.domain.poolsHead ≤ σ.pools := Nat.le_add_right _ _
  omega

theorem State.pools_next {e : Event n} (hb : Blocks σ) (hc : Closing σ) (h : σ.pools ≤ K) (hok : AtOnce K σ e)
    (hn : (machine n sizes).next σ e = some σ') : σ'.pools ≤ K := by
  cases e with
  | call t op =>
    simp only [machine] at hn
    split at hn
    · rename_i hen
      obtain ⟨th, hth, hσ⟩ := Option.map_eq_some_iff.mp hn
      have hd : σ'.domain = σ.domain := by
        rw [← hσ]
        rfl
      have ht : σ'.thread = Function.update σ.thread t th := by
        rw [← hσ]
        rfl
      rw [State.pools_set hd ht hen.2.1]
      rcases Op.start_mayPush (d := σ.domain) hen.2.1 hth with ⟨S, R, rfl, hpc⟩ | hz
      · have hok : σ.domain.poolsHead = 0 → ∑ u, (σ.thread u).pc.mayPush σ.domain < K := hok
        rw [hpc]
        by_cases hz : σ.domain.poolsHead = 0
        · have hone : (Pc.reserve S R false).mayPush σ.domain = 1 := if_pos hz
          have hlt := hok hz
          rw [hone, State.pools, hz]
          omega
        · have hzero : (Pc.reserve S R false).mayPush σ.domain = 0 := if_neg hz
          rwa [hzero]
      · rwa [hz]
    · cases hn
  | store t index ptr =>
    simp only [machine, State.store] at hn
    split at hn
    · split at hn
      · split at hn
        · cases hn
          exact h
        · cases hn
      · cases hn
    · cases hn
  | move t u =>
    simp only [machine] at hn
    split at hn
    · rename_i hen
      obtain ⟨-, ht, hu, htc, huc⟩ := hen
      cases hn
      have heq : (σ.move t u).pools = σ.pools := by
        refine State.pools_congr rfl fun v => ?_
        by_cases hvt : v = t
        · rw [hvt, move_from]
        · by_cases hvu : v = u
          · rw [hvu, move_to (move_ne htc huc)]
            exact hu.symm
          · rw [move_other hvt hvu]
      rwa [heq]
    · cases hn
  | close t =>
    simp only [machine] at hn
    split at hn
    · rename_i hen
      have hd : σ'.domain = σ.domain := by
        cases hn
        rfl
      have ht : σ'.thread = Function.update σ.thread t ((σ.thread t).setPc (.collect .domain)) := by
        cases hn
        rfl
      rw [State.pools_set hd ht (hen.2 t).1]
      exact h
    · cases hn
  | step t addr =>
    obtain ⟨e, he, rfl⟩ := Option.map_eq_some_iff.mp hn
    by_cases hpc : (σ.thread t).pc = .domainEnd
    · have hclosed : σ.closed = true := by
        by_contra hne
        have hcl := hc.opened (Bool.eq_false_iff.mpr hne) t
        rw [hpc] at hcl
        cases hcl
      obtain ⟨v, -, -, hrest⟩ := hc.closed hclosed
      have htv : t = v := by
        by_contra hne
        rw [show (σ.thread t).pc = .idle from (hrest t hne).1] at hpc
        cases hpc
      subst htv
      unfold Thread.step at he
      rw [hpc] at he
      cases he
      exact Nat.le_trans (State.pools_domainEnd hpc fun u hu => (hrest u hu).1) h
    · exact Nat.le_trans (State.pools_step (Thread.step_few (hb.ok t).knows hpc he)) h

/-- Distinct threads have distinct blocks, and a pool has 32. -/
theorem Blocks.length_le {ts : List (Fin n)} (hb : Blocks σ) (hnd : ts.Nodup)
    (hts : ∀ t ∈ ts, ∃ ptr S, (σ.thread t).HasBlock ptr S) : ts.length ≤ 32 * σ.domain.poolsHead := by
  -- a block is a number below `32 * poolsHead`
  have hnum : ∀ t, ∃ m, t ∈ ts → m < 32 * σ.domain.poolsHead ∧ ∃ p ix ptr S, m = 32 * (p - 1) + ix ∧
      σ.domain.IsBlock p ix ptr S ∧ (σ.thread t).HasBlock ptr S := by
    intro t
    by_cases ht : t ∈ ts
    · obtain ⟨ptr, S, hB⟩ := hts t ht
      obtain ⟨p, ix, hblock, -⟩ := (hb.ok t).held ptr S hB
      obtain ⟨hp, hph⟩ := hblock.pool
      have hix := hblock.lt
      exact ⟨32 * (p - 1) + ix, fun _ => ⟨by omega, p, ix, ptr, S, rfl, hblock, hB⟩⟩
    · exact ⟨0, fun h => absurd h ht⟩
  choose m hm using hnum
  have hinj : ∀ t ∈ ts, ∀ u ∈ ts, m t = m u → t = u := by
    intro t ht u hu htu
    obtain ⟨-, p, ix, ptr, S, hmt, hblock, hB⟩ := hm t ht
    obtain ⟨-, q, jx, ptr', S', hmu, hblock', hB'⟩ := hm u hu
    have h1 := hblock.lt
    have h2 := hblock'.lt
    have h3 := hblock.pool.1
    have h4 := hblock'.pool.1
    obtain rfl : p = q := by omega
    obtain rfl : ix = jx := by omega
    obtain rfl : ptr = ptr' := hblock.start.trans hblock'.start.symm
    exact hb.inj t u ptr S S' hB hB'
  have hsub : ts.map m ⊆ List.range (32 * σ.domain.poolsHead) := by
    intro x hx
    obtain ⟨t, ht, rfl⟩ := List.mem_map.mp hx
    exact List.mem_range.mpr (hm t ht).1
  have hle := (List.subperm_of_subset (List.Nodup.map_on hinj hnd) hsub).length_le
  simpa using hle

instance (K : Nat) (σ : State n) (e : Event n) : Decidable (AtOnce K σ e) :=
  match e with
  | .call _ (.create _ _) => inferInstanceAs (Decidable (_ → _))
  | .call _ (.deleteItem _) | .call _ (.enqueue _ _) | .call _ (.enqueueArray _ _) | .call _ .collect | .call _ .destroy
  | .store _ _ _ | .move _ _ | .close _ | .step _ _ => inferInstanceAs (Decidable True)

end Runs

end Hazard

end SplitOrder
