/-
The invariant of the places over whole runs: calls, moves of a context and
the closing of the domain keep it too.
-/
import SplitOrder.Hazard.Ledger

namespace SplitOrder

namespace Hazard

/-! ## The start of a call -/

/-- An item is put into a null entry. -/
theorem itemsOf_put {a : List Ptr} {m : Nat} {v : Ptr} (h : a[m]? = some 0) (hv : v ≠ 0) :
    (itemsOf (a.set m v)).Perm (itemsOf a ++ [v]) := by
  obtain ⟨hm, -⟩ := List.getElem?_eq_some_iff.mp h
  have hset := itemsOf_set (b := a.set m v) (List.getElem?_set_self hm) hv
  rw [List.set_set, itemsOf_set_of_zero h] at hset
  exact hset.symm

/-- What the start of a call leaves in the hands of the thread. -/
structure Starts (d : Domain) (th : Thread) (items : List Ptr) (th' : Thread) : Prop where
  localHead : th'.pc.localHead = none
  newNode : th'.pc.newNode = []
  holds : (th'.holds d).Perm (th.holds d ++ items)
  ok : th'.Ok d []

section Start

variable {d : Domain} {th th' : Thread} {c : Context} {item : Ptr} {op : Op} {sizes : Nat → Bool}

theorem Thread.deleteItem_starts (h : th.Rest) (hpc : th.pc = .idle) (hc : th.ctx = some c) (hi : item ≠ 0)
    (hs : th.deleteItem c item = some th') : Starts d th [item] th' := by
  obtain ⟨ctx, deleted, delIndex, pc⟩ := th
  cases hpc
  cases hc
  obtain ⟨hR, hlen, hdense, hidx⟩ := h
  unfold Thread.deleteItem at hs
  by_cases hR0 : c.R > 0
  · rw [if_pos hR0] at hs
    have hidx : delIndex < c.R := hidx (by omega)
    have hlen : deleted.length = c.R := hlen
    have hdense : Dense deleted delIndex := hdense
    have hle : delIndex ≤ c.R := by omega
    have hlt : delIndex < deleted.length := by omega
    have hzero : deleted[delIndex]? = some 0 := by
      have hv := List.getElem?_eq_getElem hlt
      rw [hv]
      by_contra hne
      exact absurd ((hdense.2 _ _ hv).mp fun hz => hne (congrArg some hz)) (by omega)
    have hpush := hdense.push hlt hi
    have hperm := itemsOf_put hzero hi
    have hinc : sizeInc delIndex = delIndex + 1 := sizeInc_eq (by omega)
    simp only [hle, hlt, if_true, hinc] at hs
    cases hs
    by_cases hfull : delIndex + 1 = c.R
    · rw [if_pos hfull]
      refine ⟨rfl, rfl, ?_, c, rfl, hR0, hR, List.length_set.trans hlen, hpush.length_items.symm, fun i v _ hv => ?_⟩
      · simpa [Thread.holds, Thread.setPc, skipped, Pc.skip, Pc.item, Pc.newNode] using hperm
      · obtain ⟨hi, -⟩ := List.getElem?_eq_some_iff.mp hv
        have hi : i < (deleted.set delIndex item).length := hi
        rw [List.length_set] at hi
        exact (hpush.2 i v hv).mpr (by omega)
    · rw [if_neg hfull]
      refine ⟨rfl, rfl, ?_, hR, List.length_set.trans hlen, hpush, fun _ => ?_⟩
      · simpa [Thread.holds, skipped, Pc.skip, Pc.item, Pc.newNode] using hperm
      · change delIndex + 1 < c.R
        omega
  · rw [if_neg hR0] at hs
    cases hs
    refine ⟨rfl, rfl, ?_, hR, hlen, hdense, hidx⟩
    simp [Thread.holds, Thread.setPc, skipped, Pc.skip, Pc.item, Pc.newNode]

theorem Op.start_starts (h : th.Rest) (hpc : th.pc = .idle) (hv : op.Valid sizes) (h0 : ∀ p ∈ op.retires, p ≠ 0)
    (hs : op.start th = some th') : Starts d th op.retires th' := by
  obtain ⟨ctx, deleted, delIndex, pc⟩ := th
  cases hpc
  cases op with
  | create S R =>
    cases ctx with
    | some c => cases hs
    | none =>
      cases hs
      refine ⟨rfl, rfl, ?_, hv.2, rfl, h⟩
      simp [Thread.holds, Thread.setPc, skipped, Pc.skip, Pc.item, Pc.newNode, Op.retires]
  | deleteItem item =>
    cases ctx with
    | none => cases hs
    | some c => exact Thread.deleteItem_starts h rfl rfl (h0 item (List.mem_singleton_self _)) hs
  | enqueue item can =>
    cases hs
    refine ⟨rfl, rfl, ?_, h⟩
    simp [Thread.holds, Thread.setPc, skipped, Pc.skip, Pc.item, Pc.newNode, Op.retires]
  | enqueueArray items can =>
    cases ctx with
    | some c => cases hs
    | none =>
      cases hs
      have hitems : itemsOf deleted = [] := h
      refine ⟨rfl, rfl, ?_, Nat.zero_le _, rfl, fun i v hi => by omega, rfl⟩
      simp [Thread.holds, skipped, Pc.skip, Pc.item, Pc.newNode, Op.retires, hitems]
  | collect =>
    cases hs
    refine ⟨rfl, rfl, ?_, h⟩
    simp [Thread.holds, Thread.setPc, skipped, Pc.skip, Pc.item, Pc.newNode, Op.retires]
  | destroy =>
    cases ctx with
    | none => cases hs
    | some c =>
      cases hs
      refine ⟨rfl, rfl, ?_, c, rfl, h.1, h.2.1⟩
      simp [Thread.holds, Thread.setPc, skipped, Pc.skip, Pc.item, Pc.newNode, Op.retires]

end Start

/-! ## Runs -/

section Events

variable {n : Nat} {σ σ' : State n} {C : List Addr} {L : Fin n → List Addr} {t u : Fin n} {th : Thread} {e : Event n}
  {sizes : Nat → Bool}

theorem Inv.own (h : Inv σ C L) (t : Fin n) : Own σ.domain C (L t) (σ.thread t) :=
  ⟨h.shared, h.priv t, h.nodup t, h.live t, h.ok t⟩

theorem Inv.rest (h : Inv σ C L) (ht : σ.Idle t) : (σ.thread t).Rest := by
  have hok := h.ok t
  unfold Thread.Ok at hok
  rw [ht] at hok
  exact hok

theorem Inv.list_nil (h : Inv σ C L) (ht : σ.Idle t) : L t = [] := by
  refine (h.own t).list_nil ?_
  rw [ht]
  rfl

/-- Another thread takes the place of the thread `t`, which has no private list and no new node. -/
theorem Inv.replace (h : Inv σ C L) (hd : SameLists σ.domain σ'.domain) (ht : σ'.thread = Function.update σ.thread t th)
    (hidle : σ.Idle t) (h1 : th.pc.localHead = none) (h2 : th.pc.newNode = []) (hrec : σ'.reclaimed = σ.reclaimed)
    (hcount : ∀ p, σ'.retired.count p + ((σ.thread t).holds σ.domain).count p =
      σ.retired.count p + (th.holds σ.domain).count p) (ok : th.Ok σ.domain []) : Inv σ' C L := by
  have hL := h.list_nil hidle
  have hself : σ'.thread t = th := by rw [ht, Function.update_self]
  have hother : ∀ u, u ≠ t → σ'.thread u = σ.thread u := fun u hu => by rw [ht, Function.update_of_ne hu]
  have hnew : ∀ u, (σ'.thread u).pc.newNode = (σ.thread u).pc.newNode := by
    intro u
    by_cases hu : u = t
    · subst hu
      rw [hself, h2, hidle]
      rfl
    · rw [hother u hu]
  have hholds : ∀ v : Thread, v.holds σ'.domain = v.holds σ.domain := fun v =>
    Thread.holds_congr fun a _ => congrFun hd.node a
  refine ⟨?_, fun u => ?_, fun u => ?_, fun u v huv => ?_, fun u => ?_, fun p => ?_, fun u => ?_⟩
  · rw [hd.next, hd.deleteHead]
    exact h.shared
  · rw [hd.next]
    by_cases hu : u = t
    · subst hu
      rw [hself, h1, hL]
      rfl
    · rw [hother u hu]
      exact h.priv u
  · rw [hnew u]
    exact h.nodup u
  · rw [hnew u, hnew v]
    exact h.apart u v huv
  · rw [hnew u, hd.live]
    exact h.live u
  · have hsum := sum_change (f := fun u => ((σ.thread u).holds σ.domain ++ (L u).map σ.domain.payload).count p)
      (g := fun u => ((σ'.thread u).holds σ'.domain ++ (L u).map σ'.domain.payload).count p) t fun u hu => by
        simp only [hother u hu, hholds, hd.payload]
    have hc := h.count p
    have hp := hcount p
    simp only [hholds, hself, List.count_append, hd.payload, hrec] at hsum hc ⊢
    omega
  · by_cases hu : u = t
    · subst hu
      rw [hself, hL]
      exact hd.ok ok
    · rw [hother u hu]
      exact hd.ok (h.ok u)

/-- What a call retires. -/
theorem Inv.call {items : List Ptr} (h : Inv σ C L) (hidle : σ.Idle t) (hs : Starts σ.domain (σ.thread t) items th) :
    Inv { σ.set t th with retired := σ.retired ++ items } C L := by
  refine h.replace (.refl _) rfl hidle hs.localHead hs.newNode rfl (fun p => ?_) hs.ok
  have hp := hs.holds.count_eq p
  rw [List.count_append] at hp ⊢
  omega

theorem Thread.holds_idle {th : Thread} {d : Domain} (h : th.pc = .idle) : th.holds d = itemsOf th.deleted := by
  obtain ⟨ctx, deleted, delIndex, pc⟩ := th
  cases h
  simp [Thread.holds, skipped, Pc.skip, Pc.item, Pc.newNode]

theorem move_ne (htc : (σ.thread t).ctx.isSome = true) (huc : (σ.thread u).ctx.isNone = true) : t ≠ u := by
  rintro rfl
  rw [Option.isNone_iff_eq_none.mp huc] at htc
  cases htc

theorem move_from : (σ.move t u).thread t = { σ.thread t with ctx := none, deleted := [], delIndex := 0 } :=
  Function.update_self ..

theorem move_to (h : t ≠ u) : (σ.move t u).thread u = { σ.thread t with pc := .idle } := by
  change Function.update _ t _ u = _
  rw [Function.update_of_ne h.symm]
  exact Function.update_self ..

theorem move_other {v : Fin n} (h1 : v ≠ t) (h2 : v ≠ u) : (σ.move t u).thread v = σ.thread v := by
  change Function.update _ t _ v = _
  rw [Function.update_of_ne h1]
  exact Function.update_of_ne h2 ..

theorem Inv.move (h : Inv σ C L) (ht : σ.Idle t) (hu : σ.Idle u) (htc : (σ.thread t).ctx.isSome = true)
    (huc : (σ.thread u).ctx.isNone = true) : Inv (σ.move t u) C L := by
  have hne := move_ne htc huc
  have huc := Option.isNone_iff_eq_none.mp huc
  -- the array is in two hands for a moment, and counted twice
  let σ₁ : State n := { σ.set u { σ.thread t with pc := .idle } with retired := σ.retired ++ itemsOf (σ.thread t).deleted }
  have hitems : itemsOf (σ.thread u).deleted = [] := by
    have hr := h.rest hu
    unfold Thread.Rest at hr
    rw [huc] at hr
    exact hr
  have h1 : Inv σ₁ C L := by
    refine h.replace (.refl _) rfl hu rfl rfl rfl (fun p => ?_) (h.rest ht)
    rw [Thread.holds_idle hu, hitems, Thread.holds_idle rfl, List.count_append, List.count_nil, Nat.add_zero]
  have ht1 : σ₁.thread t = σ.thread t := Function.update_of_ne hne ..
  have hidle : σ₁.Idle t := by
    change (σ₁.thread t).pc = .idle
    rw [ht1]
    exact ht
  have hempty : ({ σ.thread t with ctx := none, deleted := [], delIndex := 0 } : Thread) = {} :=
    congrArg (fun pc => ({ pc } : Thread)) ht
  have hthread : (σ.move t u).thread = Function.update σ₁.thread t {} := congrArg (Function.update σ₁.thread t) hempty
  refine h1.replace (.refl _) hthread hidle rfl rfl rfl (fun p => ?_) rfl
  rw [ht1, Thread.holds_idle ht, Thread.holds_idle rfl]
  simp only [State.move, State.set, σ₁, List.count_append, itemsOf, List.filter_nil, List.count_nil, Nat.add_zero]

theorem Inv.close (h : Inv σ C L) (ht : σ.Idle t) (hc : (σ.thread t).ctx.isNone = true) :
    Inv { σ.set t ((σ.thread t).setPc (.collect .domain)) with closed := true } C L := by
  have hc := Option.isNone_iff_eq_none.mp hc
  refine h.replace (.refl _) rfl ht rfl rfl rfl (fun p => ?_) ⟨hc, ?_⟩
  · have hholds : ((σ.thread t).setPc (.collect .domain)).holds σ.domain = itemsOf (σ.thread t).deleted := by
      simp [Thread.holds, Thread.setPc, skipped, Pc.skip, Pc.item, Pc.newNode]
    rw [Thread.holds_idle ht, hholds]
    rfl
  · have hr := h.rest ht
    unfold Thread.Rest at hr
    rw [hc] at hr
    exact hr

theorem Inv.store {index : Nat} {ptr : Ptr} (h : Inv σ C L) (hs : σ.store t index ptr = some σ') : Inv σ' C L := by
  unfold State.store at hs
  split at hs
  · split at hs
    · cases hs
      exact ⟨h.shared, h.priv, h.nodup, h.apart, h.live, h.count, fun t => (h.ok t).congr fun _ _ => rfl⟩
    · cases hs
  · cases hs

/-- **Every event keeps the invariant.** -/
theorem Inv.next (h : Inv σ C L) (hn : (machine n sizes).next σ e = some σ') : ∃ C' L', Inv σ' C' L' := by
  cases e with
  | call t op =>
    simp only [machine] at hn
    split at hn
    · rename_i hen
      obtain ⟨-, hidle, hv, -, hret⟩ := hen
      obtain ⟨th, hth, rfl⟩ := Option.map_eq_some_iff.mp hn
      exact ⟨C, L, h.call hidle (Op.start_starts (h.rest hidle) hidle hv (fun p hp => (hret p hp).1) hth)⟩
    · cases hn
  | store t index ptr =>
    simp only [machine] at hn
    split at hn
    · exact ⟨C, L, h.store hn⟩
    · cases hn
  | move t u =>
    simp only [machine] at hn
    split at hn
    · rename_i hen
      obtain ⟨-, ht, hu, htc, huc⟩ := hen
      cases hn
      exact ⟨C, L, h.move ht hu htc huc⟩
    · cases hn
  | close t =>
    simp only [machine] at hn
    split at hn
    · rename_i hen
      cases hn
      exact ⟨C, L, h.close (hen.2 t).1 (hen.2 t).2⟩
    · cases hn
  | step t addr =>
    obtain ⟨e, he, rfl⟩ := Option.map_eq_some_iff.mp hn
    obtain ⟨C', L', hk⟩ := Thread.step_keeps (h.own t) he
    exact ⟨C', _, h.step hk⟩

/-- No object is in two places, and null is in none. -/
def Once (σ : State n) : Prop := ∀ p, σ.retired.count p ≤ σ.reclaimed.count p + (if p = 0 then 0 else 1)

theorem Once.next (h : Once σ) (hn : (machine n sizes).next σ e = some σ') : Once σ' := by
  intro p
  have hp := h p
  cases e with
  | call t op =>
    simp only [machine] at hn
    split at hn
    · rename_i hen
      obtain ⟨-, -, -, hnd, hret⟩ := hen
      obtain ⟨th, -, rfl⟩ := Option.map_eq_some_iff.mp hn
      change (σ.retired ++ op.retires).count p ≤ σ.reclaimed.count p + _
      rw [List.count_append]
      by_cases hmem : p ∈ op.retires
      · obtain ⟨h0, hpend⟩ := hret p hmem
        have heq : σ.reclaimed.count p = σ.retired.count p := not_not.mp hpend
        rw [if_neg h0, List.count_eq_one_of_mem hnd hmem, heq]
      · rw [List.count_eq_zero_of_not_mem hmem]
        exact hp
    · cases hn
  | store t index ptr =>
    simp only [machine] at hn
    split at hn
    · unfold State.store at hn
      split at hn
      · split at hn
        · cases hn
          exact hp
        · cases hn
      · cases hn
    · cases hn
  | move t u =>
    simp only [machine] at hn
    split at hn
    · cases hn
      exact hp
    · cases hn
  | close t =>
    simp only [machine] at hn
    split at hn
    · cases hn
      exact hp
    · cases hn
  | step t addr =>
    obtain ⟨e, -, rfl⟩ := Option.map_eq_some_iff.mp hn
    change σ.retired.count p ≤ (σ.reclaimed ++ e.reclaimed).count p + _
    rw [List.count_append]
    omega

theorem reachable_once (h : (machine n sizes).Reachable σ) : Once σ :=
  h.invariant (fun _ hσ => by cases hσ; exact fun p => Nat.zero_le _) fun _ _ _ hI _ hn => hI.next hn

theorem Inv.init (hσ : (machine n sizes).init σ) : Inv σ [] fun _ => [] := by
  cases hσ
  refine ⟨rfl, fun _ => rfl, fun _ => by simp [Pc.newNode], fun _ _ _ a ha => by simp [Pc.newNode] at ha,
    fun _ a ha => by simp [Pc.newNode] at ha, fun p => ?_, fun _ => rfl⟩
  simp [Thread.holds, skipped, Pc.skip, Pc.item, Pc.newNode, itemsOf]

/-- **The places of the retired objects, in every state of a run.** -/
theorem reachable_inv (h : (machine n sizes).Reachable σ) : ∃ C L, Inv σ C L :=
  h.invariant (I := fun σ => ∃ C L, Inv σ C L) (fun _ hσ => ⟨_, _, Inv.init hσ⟩)
    fun _ _ _ ⟨_, _, hI⟩ _ hn => hI.next hn

end Events

end Hazard

end SplitOrder
