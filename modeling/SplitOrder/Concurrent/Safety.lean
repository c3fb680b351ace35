/-
What holds in every state of every run of the concurrent list.

A run in which every caller of `initialise_bucket` is undisturbed keeps the
invariant. Where every bucket is set beforehand no caller comes to the place
where it could be disturbed, so all runs keep it. The source leaves room for
the disturbed runs: after its `CAS` a caller re-reads `buckets[slot]` and
`cur->next()` to find out whether it won, and both may have been changed by
others since.
-/
import SplitOrder.Concurrent.Steps
import SplitOrder.Solist.FiniteMap

namespace SplitOrder

namespace Concurrent

open Heap

variable {T : Type} {n : Nat} {σ : State T n} {l r : List Addr}

/-! ## Runs -/

def Undisturbed (σ : State T n) : Event T n → Prop
  | .call _ _ => True
  | .step t => (σ.thread t).Undisturbed σ.list

theorem mesh_of_chain {h : Heap T} (hc : h.Chain l []) : h.Mesh l [] := by
  have hmem : ∀ a ∈ l ++ [], a ∈ l := fun a ha => by simpa using ha
  refine ⟨hc.seg, hc.sorted, by simpa using hc.nodup, fun a ha => (hc.live (hmem a ha)).1,
    fun a ha => hc.keyed a (hmem a ha), (fun a ha => by cases ha), fun a ha hm => ?_, (fun a ha => by cases ha),
    fun a ha => (hc.live ha).2, fun a ha => ?_⟩
  · rw [hc.unmarked a (hmem a ha)] at hm
    cases hm
  · exact List.mem_range.mp (hc.owned.mem_iff.mp (by simp [ha]))

theorem init_inv {start : Solist T → Prop} {ops : Op T → Bool} (h : (machine T n start ops).init σ) :
    ∃ l, Inv σ l [] := by
  obtain ⟨-, ⟨l, hl, hlinks⟩, hun, hidle⟩ := h
  have hpc : ∀ t, ∃ res, (σ.thread t).pc = .idle res := fun t => Pc.isIdle_iff.mp (hidle t)
  refine ⟨l, ⟨mesh_of_chain hl.chain, hl.nBuckets, hl.size, hl.first, hl.slot⟩, fun t => ?_, fun t u _ a ha => ?_,
    by simp [hun], ?_, fun x hx => ?_, ?_⟩
  · obtain ⟨res, hres⟩ := hpc t
    simp [Thread.Ok, hres, Pc.Ok]
  · obtain ⟨res, hres⟩ := hpc t
    simp [Thread.holds, hres] at ha
  · rw [hlinks, List.map_map]
    simp [Function.comp_def]
  · rw [hun, hlinks, List.append_nil] at hx
    obtain ⟨a, ha, rfl⟩ := List.mem_map.mp hx
    exact ⟨(hl.chain.live (List.mem_filter.mp ha).1).1, rfl⟩
  · have hz : ∀ t, (σ.thread t).pc.owes = 0 := by
      intro t
      obtain ⟨res, hres⟩ := hpc t
      rw [hres]
      rfl
    simp [hz, hl.items]

theorem next_inv {start : Solist T → Prop} {ops : Op T → Bool} {e : Event T n} {σ' : State T n} (h : Inv σ l r)
    (hu : Undisturbed σ e) (hn : (machine T n start ops).next σ e = some σ') : ∃ l' r', Inv σ' l' r' := by
  cases e with
  | call t op =>
    simp only [machine] at hn
    split at hn
    · cases hn
      exact ⟨l, r, h.step (Thread.call_keeps h.mem (by tauto) (by tauto))⟩
    · cases hn
  | step t =>
    obtain ⟨e, he, rfl⟩ := Option.map_eq_some_iff.mp hn
    obtain ⟨l', r', hk⟩ := Thread.step_keeps h.mem (h.thread t) hu he
    exact ⟨l', r', h.step hk⟩

/-- **Undisturbed runs keep the invariant.** -/
theorem run_inv {start : Solist T → Prop} {ops : Op T → Bool} (h : (machine T n start ops).ReachableBy Undisturbed σ) :
    ∃ l r, Inv σ l r := by
  refine h.invariant (I := fun σ => ∃ l r, Inv σ l r) (fun σ hσ => ?_) fun σ e σ' hσ hu hn => ?_
  · obtain ⟨l, hl⟩ := init_inv hσ
    exact ⟨l, [], hl⟩
  · obtain ⟨l, r, hl⟩ := hσ
    exact next_inv hl hu hn

/-! ## Fresh lists -/

/-- Threads that have not begun, on the list `s`. -/
def fresh (n : Nat) (s : Solist T) : State T n := { list := s, thread := fun _ => {}, links := [], unlinks := [] }

theorem fresh_init (size bucketLength : Hash) (start : Solist T → Prop) (ops : Op T → Bool)
    (hsize : ∃ k ≤ 31, size.toNat = 2 ^ k) (hstart : ∀ s, Solist.create size bucketLength = .ok s → start s) :
    ∃ s, Solist.create size bucketLength = .ok s ∧ (machine T n start ops).init (fresh n s) := by
  obtain ⟨s, hs, hr⟩ := create_spec (T := T) size bucketLength hsize
  refine ⟨s, hs, hstart s hs, ⟨[0], hr.inv, ?_⟩, rfl, fun t => rfl⟩
  have hd : ∀ a ∈ [0], ¬ s.heap.isData a = true := by
    intro a ha hd
    obtain ⟨v, hv⟩ := Option.isSome_iff_exists.mp hd
    have hitem := (hr.item _ a v).mpr ⟨ha, rfl, hv⟩
    cases hitem
  exact (congrArg (List.map _) (List.filter_eq_nil_iff.mpr hd)).symm

/-! ## `initialise_bucket` -/

theorem Mem.slot_live (hm : Mem σ.list l r) {i : Nat} {x : Addr} (h : σ.list.buckets[i]? = some (some x)) :
    x ∉ σ.list.heap.deleted :=
  hm.mesh.live x (hm.slot i x h).1

/-- **`initialise_bucket` is safe in undisturbed runs.** No node on the chain
or in the table is deleted, a call that returns leaves in its slot the one
node of the chain with the slot's key, and no assertion fails. -/
theorem initialiseBucket_safe {start : Solist T → Prop} {ops : Op T → Bool}
    (h : (machine T n start ops).ReachableBy Undisturbed σ) :
    (∀ x, OnChain σ.list x → x ∉ σ.list.heap.deleted) ∧
    (∀ (i : Nat) x, σ.list.buckets[i]? = some (some x) → x ∉ σ.list.heap.deleted) ∧
    (∀ t slot k, (σ.thread t).pc = .initReturn slot k →
      ∃ b key, σ.list.buckets[slot.toNat]? = some (some b) ∧ (σ.list.heap.node b).payload = none ∧
        solBucketKey slot = .ok key ∧ ∀ x, OnChain σ.list x ∧ σ.list.heap.key x = key ↔ x = b) ∧
    ∀ t, (σ.thread t).pc ≠ .crashed := by
  obtain ⟨l, r, hi⟩ := run_inv h
  refine ⟨fun x hx => ?_, fun i x hx => Mem.slot_live hi.mem hx, fun t slot k hpc => ?_, fun t hpc => ?_⟩
  · exact hi.mem.mesh.live x (hi.mem.onChain_iff.mp hx)
  · have hok := hi.thread t
    rw [Thread.Ok, hpc] at hok
    obtain ⟨⟨b, hb⟩, -⟩ := hok
    obtain ⟨hbl, hbd, hbv⟩ := hi.mem.slot _ _ hb
    have hkey := hi.mem.key_slot hb
    have hlt : slot.toNat < 2 ^ 31 := by
      rw [← hbv]
      exact (hi.mem.mesh.keyed b (by simp [hbl])).1
    refine ⟨b, _, hb, isData_eq_false_iff.mp hbd, solBucketKey_ok hlt, fun x => ⟨fun hx => ?_, fun hx => ?_⟩⟩
    · exact hi.mem.mesh.eq_of_key_eq (hi.mem.onChain_iff.mp hx.1) hbl (hx.2.trans hkey.symm)
    · rw [hx]
      exact ⟨hi.mem.onChain_iff.mpr hbl, hkey⟩
  · have hok := hi.thread t
    rw [Thread.Ok, hpc] at hok
    exact hok

/-- The calls of the runs below: `initialise_bucket` and `insert_node`. -/
def initOrInsert : Op T → Bool
  | .initialiseBucket _ | .insertNode _ _ => true
  | _ => false

/-- A step that finds what the thread itself has left. -/
def calm (σ : State T n) : Event T n → Bool
  | .call _ _ => true
  | .step t =>
    match (σ.thread t).pc with
    | .init i .settle => σ.list.buckets[i.slot.toNat]? == some none
    | .init i .won => (σ.thread t).a.cur.bind σ.list.heap.nextOf == some i.node
    | _ => true

theorem calm_undisturbed (σ : State T n) (e : Event T n) (h : calm σ e = true) : Undisturbed σ e := by
  cases e with
  | call t op => trivial
  | step t =>
    simp only [calm] at h
    simp only [Undisturbed, Thread.Undisturbed]
    split
    · rename_i i hpc
      rw [hpc] at h
      rintro ⟨b, hb⟩
      simp [hb] at h
    · rename_i i hpc
      rw [hpc] at h
      exact fun hne => absurd (by simpa using h) hne
    · trivial

/-- One call of `initialise_bucket(1)` on a list of two slots, up to its return. -/
theorem initialiseBucket_safe_one :
    ∃ σ : State Nat 1, (machine Nat 1 (fun s => Solist.create 2 4 = .ok s) initOrInsert).ReachableBy Undisturbed σ ∧
      (σ.thread 0).pc = .initReturn 1 .caller ∧
      ∃ b key, σ.list.buckets[1]? = some (some b) ∧ solBucketKey 1 = .ok key ∧
        ∀ x, OnChain σ.list x ∧ σ.list.heap.key x = key ↔ x = b := by
  let start : Solist Nat → Prop := fun s => Solist.create 2 4 = .ok s
  obtain ⟨s, hs, hinit⟩ := fresh_init (T := Nat) (n := 1) 2 4 start initOrInsert ⟨1, by decide, rfl⟩ fun _ h => h
  have hrun : ((machine Nat 1 start initOrInsert).runIf calm (fresh 1 s)
      (.call 0 (.initialiseBucket 1) :: List.replicate 13 (.step 0))).map (fun σ => (σ.thread 0).pc) =
        some (.initReturn 1 .caller) := by
    cases hs
    decide +kernel
  obtain ⟨σ, hσ, hpc⟩ := Option.map_eq_some_iff.mp hrun
  have hreach := System.runIf_reachableBy calm_undisturbed (.init hinit) hσ
  obtain ⟨b, key, hb, -, hkey, hx⟩ := (initialiseBucket_safe hreach).2.2.1 0 1 .caller hpc
  exact ⟨σ, hreach, hpc, b, key, hb, hkey, hx⟩

/-- **Two initialisers of one slot.** The first links its node and is held
up; the second finds that node, stores it and returns; the first then takes
itself for the loser and deletes the node, which is linked. -/
theorem initialiseBucket_deletes_linked :
    ∃ σ : State Nat 2, (machine Nat 2 (fun s => Solist.create 2 4 = .ok s) initOrInsert).Reachable σ ∧
      ∃ x, OnChain σ.list x ∧ x ∈ σ.list.heap.deleted := by
  let start : Solist Nat → Prop := fun s => Solist.create 2 4 = .ok s
  obtain ⟨s, hs, hinit⟩ := fresh_init (T := Nat) (n := 2) 2 4 start initOrInsert ⟨1, by decide, rfl⟩ fun _ h => h
  have hrun : ((machine Nat 2 start initOrInsert).run (fresh 2 s)
      (.call 0 (.initialiseBucket 1) :: .call 1 (.initialiseBucket 1) :: List.replicate 8 (.step 0) ++
        List.replicate 14 (.step 1) ++ List.replicate 2 (.step 0))).map
          (fun σ => (σ.list.buckets[0]?, σ.list.heap.nextOf 0, σ.list.heap.nextOf 1, σ.list.heap.deleted)) =
        some (some (some 0), some 1, none, [2, 1]) := by
    cases hs
    decide +kernel
  obtain ⟨σ, hσ, hpc⟩ := Option.map_eq_some_iff.mp hrun
  simp only [Prod.mk.injEq] at hpc
  obtain ⟨hb, h0, h1, hdel⟩ := hpc
  exact ⟨σ, System.run_reachable (.init hinit) hσ, 1, ⟨0, [0, 1], hb, by simp [h0, h1], by simp⟩, by simp [hdel]⟩

/-- A node of the chain is deleted, or an assertion has failed. -/
def Broken (σ : State T n) : Prop :=
  (∃ x, OnChain σ.list x ∧ x ∈ σ.list.heap.deleted) ∨ ∃ t, (σ.thread t).pc = .crashed

theorem run_step {start : Solist T → Prop} {ops : Op T → Bool} {t : Fin n} {e : Effect T} {es : List (Event T n)}
    (he : (σ.thread t).step σ.list = some e) :
    (machine T n start ops).run σ (.step t :: es) = (machine T n start ops).run (σ.apply t e) es := by
  rw [System.run_cons]
  simp only [machine, he, Option.map_some, Option.bind_some]

@[simp] theorem State.apply_list {t : Fin n} {e : Effect T} : (σ.apply t e).list = e.list := rfl

@[simp] theorem State.apply_thread {t : Fin n} {e : Effect T} : (σ.apply t e).thread t = e.thread :=
  Function.update_self ..

/-- **A disturbed caller breaks the list**, as soon as it runs on. -/
theorem disturbed_breaks {start : Solist T → Prop} {ops : Op T → Bool} {t : Fin n} (hi : Inv σ l r)
    (hd : ¬ (σ.thread t).Undisturbed σ.list) :
    ∃ k σ', (machine T n start ops).run σ (List.replicate k (.step t)) = some σ' ∧ Broken σ' := by
  have hok := hi.thread t
  cases hth : σ.thread t with
  | mk a pc =>
    rw [hth] at hd hok
    cases pc with
    | init i pc =>
      cases pc with
      | settle =>
        obtain ⟨⟨b, hb⟩, hon⟩ := Classical.not_imp.mp hd
        have hon := not_not.mp hon
        -- the slot is set, so the call deletes its node
        let e₁ : Effect T := goto σ.list a (.init i .discard)
        let e₂ : Effect T := goto { σ.list with heap := σ.list.heap.delete i.node } a (.init i .assertSet)
        have h₁ : (σ.thread t).step σ.list = some e₁ := by
          simp only [hth, Thread.step, InitCall.step, hb, e₁]
        have h₂ : ((σ.apply t e₁).thread t).step (σ.apply t e₁).list = some e₂ := by
          simp only [State.apply_list, State.apply_thread, e₁, e₂, goto, Thread.step, InitCall.step]
        refine ⟨2, _, (run_step h₁).trans (run_step h₂), .inl ⟨i.node, ?_, by simp [e₂, goto]⟩⟩
        exact hon
      | won =>
        obtain ⟨hnx, hon⟩ := Classical.not_imp.mp hd
        have hon := hi.mem.onChain_iff.mp (not_not.mp hon)
        obtain ⟨hcall, ⟨c, hc, hcl⟩, hcase⟩ := hok
        replace hc : a.cur = some c := hc
        replace hnx : a.cur.bind σ.list.heap.nextOf ≠ some i.node := hnx
        have habove : NextAbove σ.list l r a (reverseHashtBits i.slot) :=
          (hcase.resolve_right fun h => h.1.notMem (by simp [hon])).2
        -- the slot gets `next`, which is null or has another key
        let e₁ : Effect T := goto σ.list a (.init i .storeNext)
        let s' : Solist T := { σ.list with buckets := σ.list.buckets.set i.slot.toNat a.next }
        have hlt : i.slot.toNat < σ.list.buckets.length := by
          rw [hi.mem.size]
          exact hcall.slot
        have hset : s'.buckets[i.slot.toNat]? = some a.next := List.getElem?_set_self hlt
        let e₂ : Effect T := goto s' a (.init i .assertNext)
        have h₁ : (σ.thread t).step σ.list = some e₁ := by
          have hne : σ.list.heap.nextOf c ≠ some i.node := by simpa [hc] using hnx
          simp only [hth, Thread.step, InitCall.step, hc, hne, if_false, e₁]
        have h₂ : ((σ.apply t e₁).thread t).step (σ.apply t e₁).list = some e₂ := by
          simp only [State.apply_list, State.apply_thread, e₁, e₂, s', goto, Thread.step, InitCall.step]
        have h₃ : (((σ.apply t e₁).apply t e₂).thread t).step ((σ.apply t e₁).apply t e₂).list = some (crash s' a) := by
          simp only [State.apply_list, State.apply_thread, e₂, goto, Thread.step, InitCall.step, hset]
          cases hn : a.next with
          | none => rfl
          | some x =>
            have hkey : s'.heap.key x ≠ s'.heap.key i.node := by
              change σ.list.heap.key x ≠ σ.list.heap.key i.node
              rw [hcall.key]
              intro he
              have := (habove x hn).2
              rw [he] at this
              exact BitVec.lt_irrefl _ this
            simp only [hkey, if_false]
        refine ⟨3, _, ((run_step h₁).trans (run_step h₂)).trans (run_step h₃), .inr ⟨t, ?_⟩⟩
        simp [crash, goto]
      | _ => exact absurd trivial hd
    | _ => exact absurd trivial hd

/-! ## All buckets set -/

/-- Every slot of the table holds a dummy. -/
def AllSet (s : Solist T) : Prop := ∀ i < s.buckets.length, ∃ b, s.buckets[i]? = some (some b)

/-- No thread makes a bucket. -/
structure Settled (σ : State T n) : Prop where
  set : AllSet σ.list
  pc : ∀ t i p, (σ.thread t).pc ≠ .init i p

theorem Thread.undisturbed_of_pc {th : Thread} {s : Solist T} (h : ∀ i p, th.pc ≠ .init i p) : th.Undisturbed s := by
  obtain ⟨a, pc⟩ := th
  cases pc with
  | init i p => exact absurd rfl (h i p)
  | _ => trivial

theorem Settled.undisturbed (h : Settled σ) (e : Event T n) : Undisturbed σ e := by
  cases e with
  | call t op => trivial
  | step t => exact Thread.undisturbed_of_pc (h.pc t)

section Settled

variable {s s' : Solist T} {a : Accessor}

theorem goto_settled {pc : Pc} (hb : s'.buckets = s.buckets) (hpc : ∀ i p, pc ≠ .init i p) :
    (goto s' a pc).list.buckets = s.buckets ∧ ∀ i p, (goto s' a pc).thread.pc ≠ .init i p :=
  ⟨hb, hpc⟩

theorem found_settled {f : FindCall} {b : Bool} :
    (f.found s a b).list.buckets = s.buckets ∧ ∀ i p, (f.found s a b).thread.pc ≠ .init i p := by
  cases f <;> simp only [FindCall.found]
  · split <;> exact goto_settled rfl (by simp)
  · split <;> exact goto_settled rfl (by simp)
  · exact goto_settled rfl (by simp)

/-- A step on a table whose slots are all set leaves the table, and makes no bucket. -/
theorem Thread.step_settled {th : Thread} {e : Effect T} (hs : AllSet s) (hpc : ∀ i p, th.pc ≠ .init i p)
    (he : th.step s = some e) : e.list.buckets = s.buckets ∧ ∀ i p, e.thread.pc ≠ .init i p := by
  obtain ⟨a, pc⟩ := th
  cases pc with
  | idle res => cases he
  | expand hashv => cases he
  | crashed => cases he
  | init i p => exact absurd rfl (hpc i p)
  | initEntry slot k =>
    cases he
    simp only [initEntry]
    split
    · exact goto_settled rfl (by simp)
    · cases hb : s.buckets[slot.toNat]? with
      | none => exact goto_settled rfl (by simp)
      | some b =>
        cases b with
        | some b => exact goto_settled rfl (by simp)
        | none =>
          obtain ⟨b, hb'⟩ := hs _ (List.getElem?_eq_some_iff.mp hb).1
          simp [hb] at hb'
  | initReturn slot k =>
    cases he
    cases k <;> exact goto_settled rfl (by simp)
  | findEntry f =>
    cases he
    simp only [FindCall.entry]
    split <;> exact goto_settled rfl (by simp)
  | findBucket f =>
    cases he
    simp only [FindCall.bucket]
    split <;> exact goto_settled rfl (by simp)
  | findNext f =>
    cases he
    simp only [FindCall.next]
    split <;> exact goto_settled rfl (by simp)
  | findWalk f =>
    cases he
    simp only [FindCall.walk]
    split
    · exact found_settled
    · split
      · exact goto_settled rfl (by simp)
      · exact found_settled
  | insertSetNext hashv d =>
    cases he
    exact goto_settled rfl (by simp)
  | insertCas hashv d =>
    cases he
    simp only [insertCas]
    split
    · exact goto_settled rfl (by simp)
    · split <;> exact goto_settled rfl (by simp)
  | insertCount hashv =>
    cases he
    exact goto_settled rfl (by simp)
  | insertNext hashv =>
    cases he
    simp only [insertNext]
    split <;> exact goto_settled rfl (by simp)
  | insertWalk hashv =>
    cases he
    simp only [insertWalk]
    split
    · exact goto_settled rfl (by simp)
    · split <;> exact goto_settled rfl (by simp)
  | insertCheck hashv =>
    cases he
    simp only [insertCheck]
    split
    · split
      · exact goto_settled rfl (by simp)
      · split <;> exact goto_settled rfl (by simp)
    · exact goto_settled rfl (by simp)
  | deleteMark hashv =>
    cases he
    simp only [deleteMark]
    split
    · exact goto_settled rfl (by simp)
    · split <;> exact goto_settled rfl (by simp)
  | deleteUnlink hashv =>
    cases he
    simp only [deleteUnlink]
    split
    · split <;> exact goto_settled rfl (by simp)
    · exact goto_settled rfl (by simp)
  | deleteCount hashv =>
    cases he
    simp only [deleteCount]
    split <;> exact goto_settled rfl (by simp)

theorem Thread.call_settled {th : Thread} {op : Op T} :
    (th.call s op).list.buckets = s.buckets ∧ ∀ i p, (th.call s op).thread.pc ≠ .init i p := by
  cases op with
  | insertNode hashv v =>
    simp only [Thread.call]
    split <;> exact goto_settled rfl (by simp)
  | deleteNode hashv => exact goto_settled rfl (by simp)
  | findItemNode hashv => exact goto_settled rfl (by simp)
  | initialiseBucket slot => exact goto_settled rfl (by simp)

end Settled

theorem Settled.apply {t : Fin n} {e : Effect T} (h : Settled σ)
    (he : e.list.buckets = σ.list.buckets ∧ ∀ i p, e.thread.pc ≠ .init i p) : Settled (σ.apply t e) := by
  refine ⟨fun i hi => ?_, fun u i p => ?_⟩
  · rw [State.apply_list, he.1] at hi ⊢
    exact h.set i hi
  · by_cases hu : u = t
    · subst hu
      rw [State.apply_thread]
      exact he.2 i p
    · change (Function.update σ.thread t e.thread u).pc ≠ _
      rw [Function.update_of_ne hu]
      exact h.pc u i p

theorem Settled.next {start : Solist T → Prop} {ops : Op T → Bool} {e : Event T n} {σ' : State T n} (h : Settled σ)
    (hn : (machine T n start ops).next σ e = some σ') : Settled σ' := by
  cases e with
  | call t op =>
    simp only [machine] at hn
    split at hn
    · cases hn
      exact h.apply Thread.call_settled
    · cases hn
  | step t =>
    obtain ⟨e, he, rfl⟩ := Option.map_eq_some_iff.mp hn
    exact h.apply (Thread.step_settled h.set (h.pc t) he)

/-- **With all buckets set, every run is undisturbed.** -/
theorem settled_run {ops : Op T → Bool} (h : (machine T n AllSet ops).Reachable σ) :
    (machine T n AllSet ops).ReachableBy Undisturbed σ ∧ Settled σ := by
  induction h with
  | init h =>
    refine ⟨.init h, h.1, fun t i p hp => ?_⟩
    obtain ⟨res, hres⟩ := Pc.isIdle_iff.mp (h.2.2.2 t)
    rw [hres] at hp
    cases hp
  | step _ _ hn ih => exact ⟨.step ih.1 (ih.2.undisturbed _) hn, ih.2.next hn⟩

/-! ## Inserts and deletes -/

theorem countP_log {log : List (Hash × Addr)} {h : Heap T} {hashv : Hash} (hl : ∀ x ∈ log, (h.node x.2).hashv = x.1) :
    log.countP (fun x => x.1 == hashv) = (log.map Prod.snd).countP fun a => (h.node a).hashv == hashv := by
  rw [List.countP_map]
  exact List.countP_congr fun x hx => by simp [hl x hx]

/-- The data nodes with one hash on a chain are at most one. -/
theorem Mesh.count_hash_le {h : Heap T} (hm : h.Mesh l r) (hashv : Hash) :
    l.countP (fun a => h.isData a && ((h.node a).hashv == hashv)) ≤ 1 := by
  rw [List.countP_eq_length_filter]
  have hnd := ((List.nodup_append.mp hm.nodup).1).filter fun a => h.isData a && ((h.node a).hashv == hashv)
  have hone : ∀ a ∈ l.filter (fun a => h.isData a && ((h.node a).hashv == hashv)),
      ∀ b ∈ l.filter (fun a => h.isData a && ((h.node a).hashv == hashv)), a = b := by
    intro a ha b hb
    simp only [List.mem_filter, Bool.and_eq_true, beq_iff_eq] at ha hb
    refine hm.eq_of_key_eq ha.1 hb.1 ?_
    rw [hm.key_data (by simp [ha.1]) ha.2.1, hm.key_data (by simp [hb.1]) hb.2.1, ha.2.2, hb.2.2]
  match hf : l.filter (fun a => h.isData a && ((h.node a).hashv == hashv)) with
  | [] => simp
  | [a] => simp
  | a :: b :: _ =>
    rw [hf] at hnd hone
    have := hone a (by simp) b (by simp)
    simp [this] at hnd

/-- **Concurrent updates are safe.** With all buckets set, in every state of
every run: the chain is in strict key order; for every hash, the inserts
that linked exceed the deletes that unlinked by one if a node of the hash is
linked and are as many if none is; no node is unlinked twice; and between
calls the counter is the number of linked data nodes. -/
theorem updates_safe {ops : Op T → Bool} (h : (machine T n AllSet ops).Reachable σ) :
    ∃ b l, σ.list.buckets[0]? = some (some b) ∧ Seg σ.list.heap.nextOf (some b) l none ∧
      (l.Pairwise fun x y => σ.list.heap.key x < σ.list.heap.key y) ∧
      (∀ hashv, σ.links.countP (fun x => x.1 == hashv) = σ.unlinks.countP (fun x => x.1 == hashv) +
        if l.any (fun x => σ.list.heap.isData x && ((σ.list.heap.node x).hashv == hashv)) then 1 else 0) ∧
      (σ.unlinks.map Prod.snd).Nodup ∧
      ((∀ t, (σ.thread t).pc.isIdle) → σ.list.nItems.toNat = l.countP σ.list.heap.isData) := by
  obtain ⟨l, r, hi⟩ := run_inv (settled_run h).1
  obtain ⟨b, hb⟩ := hi.mem.first
  have hseg := hi.mem.mesh.seg
  rw [hi.mem.head hb] at hseg
  have hlog : ∀ x ∈ σ.links ++ σ.unlinks, (σ.list.heap.node x.2).hashv = x.1 := fun x hx => (hi.logged x hx).2
  refine ⟨b, l, hb, hseg, hi.mem.mesh.sorted, fun hashv => ?_, ?_, fun hidle => ?_⟩
  · rw [countP_log fun x hx => hlog x (by simp [hx]), countP_log fun x hx => hlog x (by simp [hx]), ← hi.unlinks,
      ← hi.links.countP_eq, List.countP_append, List.countP_filter, Nat.add_comm]
    congr 1
    have hle := Mesh.count_hash_le hi.mem.mesh hashv
    have hcomm : ∀ x, ((σ.list.heap.node x).hashv == hashv && σ.list.heap.isData x) =
        (σ.list.heap.isData x && ((σ.list.heap.node x).hashv == hashv)) := fun x => Bool.and_comm _ _
    simp only [hcomm]
    split
    · have hpos : 0 < l.countP fun a => σ.list.heap.isData a && ((σ.list.heap.node a).hashv == hashv) :=
        List.countP_pos_iff.mpr (List.any_eq_true.mp ‹_›)
      omega
    · refine List.countP_eq_zero.mpr fun x hx hx' => ?_
      exact absurd (List.any_eq_true.mpr ⟨x, hx, hx'⟩) ‹_›
  · rw [← hi.unlinks]
    exact (List.nodup_append.mp hi.mem.mesh.nodup).2.1
  · have hz : ∀ t, (σ.thread t).pc.owes = 0 := by
      intro t
      obtain ⟨res, hres⟩ := Pc.isIdle_iff.mp (hidle t)
      rw [hres]
      rfl
    have hitems := hi.items
    simp only [hz, Finset.sum_const_zero, add_zero] at hitems
    have hle := Chain.countP_le_of_keys (List.nodup_append.mp hi.mem.mesh.nodup).1
      (fun a ha => hi.mem.mesh.keyed a (by simp [ha])) fun a ha b hb => hi.mem.mesh.eq_of_key_eq ha hb
    rw [hitems, BitVec.toNat_ofNat, Nat.mod_eq_of_lt (by omega)]

/-- A fresh list of one slot has all its buckets set. -/
theorem create_one_allSet {bucketLength : Hash} {s : Solist T} (h : Solist.create 1 bucketLength = .ok s) :
    AllSet s := by
  simp only [Solist.create, show (0 : Hash) = 0#32 from rfl,
    solistBucket_ok (show (0#32 : Hash).toNat < 2 ^ 31 by decide),
    bind_ok] at h
  cases h
  intro i hi
  obtain rfl : i = 0 := by simpa using hi
  exact ⟨0, rfl⟩

/-- An insert by one thread and a delete by another, on a list of one slot. -/
theorem updates_safe_one :
    ∃ σ : State Nat 2, (machine Nat 2 AllSet fun _ => true).Reachable σ ∧ σ.links = [(5, 1)] ∧ σ.unlinks = [(5, 1)] ∧
      ∃ b l, σ.list.buckets[0]? = some (some b) ∧ Seg σ.list.heap.nextOf (some b) l none ∧
        σ.list.nItems.toNat = l.countP σ.list.heap.isData := by
  obtain ⟨s, hs, hinit⟩ := fresh_init (T := Nat) (n := 2) 1 4 AllSet (fun _ => true) ⟨0, by decide, rfl⟩
    fun _ h => create_one_allSet h
  have hrun : ((machine Nat 2 AllSet fun _ => true).run (fresh 2 s)
      (.call 0 (.insertNode 5 7) :: .call 1 (.deleteNode 5) :: List.replicate 11 (.step 0) ++
        List.replicate 8 (.step 1))).map
          (fun σ => (σ.links, σ.unlinks, (σ.thread 0).pc.isIdle, (σ.thread 1).pc.isIdle)) =
        some ([(5, 1)], [(5, 1)], true, true) := by
    cases hs
    decide +kernel
  obtain ⟨σ, hσ, hfacts⟩ := Option.map_eq_some_iff.mp hrun
  simp only [Prod.mk.injEq] at hfacts
  obtain ⟨hlinks, hunlinks, h0, h1⟩ := hfacts
  have hreach := System.run_reachable (.init hinit) hσ
  obtain ⟨b, l, hb, hseg, -, -, -, hcount⟩ := updates_safe hreach
  refine ⟨σ, hreach, hlinks, hunlinks, b, l, hb, hseg, hcount fun t => ?_⟩
  match t with
  | 0 => exact h0
  | 1 => exact h1

end Concurrent

end SplitOrder
