/-
What a hazard pointer protects.

An object that a slot holds when it is retired is reclaimed only by a thread
that has taken a snapshot since, for before that no thread but the one that
retires it has it in its array or on its private list. `Guards` says of such a
snapshot that it has read the slot, or has it still to read.
-/
import SplitOrder.Hazard.Retired

namespace SplitOrder

namespace Hazard

/-- A snapshot that is at slot `ix` of the pool `q` and has read `buf` has read
slot `i` of the pool `k` with `p` in it, or will read it. -/
def Reads (k i p q ix : Nat) (buf : List Ptr) : Prop := (∃ v ∈ buf, unmark v = p) ∨ k < q ∨ k = q ∧ ix ≤ i

/-- If the thread checks `p` against its snapshot, it will find it. -/
def Thread.Guards (th : Thread) (d : Domain) (L : List Addr) (k i p : Nat) : Prop :=
  match th.pc with
  | .snapshotLoad q ix buf .reclaim => p ∈ th.deleted → Reads k i p q ix buf
  | .snapshotLoad q ix buf (.collect _ _) => p ∈ L.map d.payload → Reads k i p q ix buf
  | .collectWalk _ _ snap _ => p ∈ L.map d.payload → search snap p = true
  | .reclaim _ snap => p ∈ th.deleted → search snap p = true
  | _ => True

section Step

variable {d : Domain} {C L L' : List Addr} {th : Thread} {e : Effect} {addr k i p q ix : Nat} {buf : List Ptr}

/-- The slot `i` of the pool `k` holds `p`, marked or not. -/
structure Holds (d : Domain) (k i p : Nat) : Prop where
  pool : d.HasPool k
  lt : i < (d.pool k).hpCount
  slot : unmark (d.slot ((d.pool k).hazPtrs + i)) = p
  pos : p ≠ 0

theorem Reads.start (h : Holds d k i p) : Reads k i p d.poolsHead 0 [] := by
  have := h.pool.2
  rcases Nat.lt_or_eq_of_le this with hlt | heq
  · exact .inr (.inl hlt)
  · exact .inr (.inr ⟨heq, Nat.zero_le _⟩)

/-- The read of a slot. -/
theorem Reads.load (h : Reads k i p q ix buf) (hh : Holds d k i p) :
    Reads k i p q (ix + 1)
      (if d.slot ((d.pool q).hazPtrs + ix) ≠ 0 then buf ++ [d.slot ((d.pool q).hazPtrs + ix)] else buf) := by
  rcases h with ⟨v, hv, hvp⟩ | hlt | ⟨rfl, hle⟩
  · refine .inl ⟨v, ?_, hvp⟩
    split
    · exact List.mem_append_left _ hv
    · exact hv
  · exact .inr (.inl hlt)
  · rcases Nat.lt_or_eq_of_le hle with hlt | rfl
    · exact .inr (.inr ⟨rfl, hlt⟩)
    · refine .inl ⟨_, ?_, hh.slot⟩
      have hne : d.slot ((d.pool k).hazPtrs + ix) ≠ 0 := by
        intro hz
        have hs := hh.slot
        rw [hz] at hs
        exact hh.pos hs.symm
      rw [if_pos hne]
      exact List.mem_append_right _ (List.mem_singleton_self _)

/-- On to the next pool. -/
theorem Reads.next (h : Reads k i p q ix buf) (hh : Holds d k i p) (hix : ¬ ix < (d.pool q).hpCount) :
    Reads k i p (Domain.poolNext q) 0 buf := by
  rcases h with hv | hlt | ⟨rfl, hle⟩
  · exact .inl hv
  · simp only [Domain.poolNext]
    rcases Nat.lt_or_eq_of_le (Nat.le_sub_one_of_lt hlt) with h | h
    · exact .inr (.inl h)
    · exact .inr (.inr ⟨h, Nat.zero_le _⟩)
  · have := hh.lt
    omega

/-- The end of the snapshot: the search finds the object. -/
theorem Reads.finish (h : Reads k i p 0 ix buf) (hh : Holds d k i p) : search (snapshotOf buf) p = true := by
  rcases h with hv | hlt | ⟨rfl, -⟩
  · exact search_snapshotOf.mpr hv
  · exact absurd hlt (Nat.not_lt_zero k)
  · exact absurd hh.pool.1 (Nat.lt_irrefl 0)

theorem snapshotLoad_guards {sa : SnapshotAfter} (hg : th.Guards d L k i p) (hh : Holds d k i p)
    (hpc : th.pc = .snapshotLoad q ix buf sa) : (snapshotLoad d th q ix buf sa).thread.Guards d L k i p := by
  obtain ⟨ctx, deleted, delIndex, pc⟩ := th
  cases hpc
  unfold snapshotLoad
  split
  · rename_i hq
    subst hq
    cases sa with
    | reclaim => exact fun hp => (hg hp).finish hh
    | collect head k => exact fun hp => (hg hp).finish hh
  · split
    · cases sa with
      | reclaim => exact fun hp => (hg hp).load hh
      | collect head k => exact fun hp => (hg hp).load hh
    · cases sa with
      | reclaim => exact fun hp => (hg hp).next hh ‹_›
      | collect head k => exact fun hp => (hg hp).next hh ‹_›

theorem Thread.Guards.mono {d' : Domain} (h : th.Guards d L k i p)
    (hsub : ∀ a ∈ L', a ∈ L ∧ d'.payload a = d.payload a) :
    th.Guards d' L' k i p := by
  have hmem : p ∈ L'.map d'.payload → p ∈ L.map d.payload := by
    intro hp
    obtain ⟨a, ha, rfl⟩ := List.mem_map.mp hp
    obtain ⟨h1, h2⟩ := hsub a ha
    exact List.mem_map.mpr ⟨a, h1, h2.symm⟩
  obtain ⟨ctx, deleted, delIndex, pc⟩ := th
  cases pc with
  | snapshotLoad q ix buf sa =>
    cases sa with
    | reclaim => exact h
    | collect head k => exact fun hp => h (hmem hp)
  | collectWalk head pprev snap k => exact fun hp => h (hmem hp)
  | _ => exact h

theorem Thread.guards_of_not_scanning (h : th.pc.scanning = false ∨ ∃ a, th.pc = .snapshot a) :
    th.Guards d L k i p := by
  obtain ⟨ctx, deleted, delIndex, pc⟩ := th
  rcases h with h | ⟨a, rfl⟩
  · cases pc with
    | snapshotLoad | collectWalk | reclaim => cases h
    | _ => trivial
  · trivial

/-- A thread that has not got `p` need not find it. -/
theorem Thread.guards_of_notMem (h1 : p ∉ L.map d.payload) (h2 : th.pc.scanning = true → p ∉ th.deleted) :
    th.Guards d L k i p := by
  obtain ⟨ctx, deleted, delIndex, pc⟩ := th
  cases pc with
  | snapshotLoad q ix buf sa =>
    cases sa with
    | reclaim => exact fun hp => absurd hp (h2 rfl)
    | collect head k => exact fun hp => absurd hp h1
  | collectWalk => exact fun hp => absurd hp h1
  | reclaim => exact fun hp => absurd hp (h2 rfl)
  | _ => trivial

/-- While it scans, a thread has its whole array in its hands. -/
theorem Thread.mem_holds_of_scanning (h : th.pc.scanning = true) (hp : p ∈ th.deleted) (hp0 : p ≠ 0) :
    p ∈ th.holds d := by
  have hmem : p ∈ itemsOf th.deleted := by simp [itemsOf, hp, hp0]
  obtain ⟨ctx, deleted, delIndex, pc⟩ := th
  cases pc with
  | snapshot | snapshotLoad | collectWalk | reclaim =>
    simpa [Thread.holds, skipped, Pc.skip, Pc.item, Pc.newNode] using hmem
  | _ => cases h

/-- The node after the walked ones is on the private list. -/
theorem walkHead_mem {snap : List Ptr} {cur : Addr} {k : After} (ho : Own d C L th)
    (hpc : th.pc = .collectWalk (some cur) none snap k) : cur ∈ L := by
  have hp := ho.priv
  rw [hpc] at hp
  exact List.mem_of_head? hp.head.symm

theorem walkNext_mem {snap : List Ptr} {head : Option Addr} {b cur : Addr} {k : After} (ho : Own d C L th)
    (hpc : th.pc = .collectWalk head (some b) snap k) (hb : d.next b = some cur) : cur ∈ L := by
  obtain ⟨ctx, deleted, delIndex, pc⟩ := th
  cases hpc
  obtain ⟨-, A, B, rfl, hA, -⟩ := ho.ok
  obtain ⟨A, rfl⟩ := List.getLast?_eq_some_iff.mp hA.symm
  have hp : Seg d.next head (A ++ [b] ++ B) none := ho.priv
  rw [List.append_assoc] at hp
  exact List.mem_append_right _ (List.mem_of_head? (hp.next.symm.trans hb))

theorem collectWalk_guards {snap : List Ptr} {head pprev : Option Addr} {k' : After} (ho : Own d C L th)
    (hg : th.Guards d L k i p) (hpc : th.pc = .collectWalk head pprev snap k') :
    (collectWalk d th head pprev snap k').reclaimed.count p = 0 ∧
      (collectWalk d th head pprev snap k').thread.Guards d L k i p := by
  have hsearch : p ∈ L.map d.payload → search snap p = true := by
    unfold Thread.Guards at hg
    rw [hpc] at hg
    exact hg
  -- what is not in the snapshot is not `p`
  have hne : ∀ cur ∈ L, ¬ search snap (d.payload cur) = true → [d.payload cur].count p = 0 := by
    intro cur hcur hs
    refine List.count_eq_zero_of_not_mem fun hp => hs ?_
    rw [List.mem_singleton.mp hp] at hsearch
    exact hsearch (List.mem_map_of_mem hcur)
  rcases collectWalk_cases d th head pprev snap k' with ⟨-, he⟩ | ⟨cur, -, -, he⟩ | ⟨cur, d', head', hcur, hs, -, he⟩
  · rw [he]
    exact ⟨rfl, trivial⟩
  · rw [he]
    exact ⟨rfl, hsearch⟩
  · rw [he]
    refine ⟨hne cur ?_ (Bool.eq_false_iff.mp hs), hsearch⟩
    cases pprev with
    | none =>
      cases hcur
      exact walkHead_mem ho hpc
    | some b => exact walkNext_mem ho hpc hcur

theorem reclaim_guards {snap : List Ptr} {c : Context} {jx : Nat} (hg : th.Guards d L k i p) (hp0 : p ≠ 0)
    (hpc : th.pc = .reclaim jx snap) (he : reclaim d th c jx snap = some e) :
    e.reclaimed.count p = 0 ∧ e.thread.Guards e.domain L k i p := by
  have hsearch : p ∈ th.deleted → search snap p = true := by
    unfold Thread.Guards at hg
    rw [hpc] at hg
    exact hg
  rcases reclaim_cases he with ⟨item, -, -, -, rfl⟩ | ⟨item, -, hitem, hs, rfl⟩ | ⟨-, -, rfl⟩ | ⟨b, -, -, -, rfl⟩
  · exact ⟨rfl, hsearch⟩
  · refine ⟨List.count_eq_zero_of_not_mem fun hp => ?_, fun hp => ?_⟩
    · rw [List.mem_singleton.mp hp] at hsearch
      exact Bool.eq_false_iff.mp hs (hsearch (List.mem_of_getElem? hitem))
    · rcases List.mem_or_eq_of_mem_set hp with hp | hp
      · exact hsearch hp
      · exact absurd hp hp0
  · exact ⟨rfl, trivial⟩
  · exact ⟨rfl, trivial⟩

/-- **A step does not reclaim what the slot holds**, and the snapshots that matter go on to find it. -/
theorem Thread.step_guards {C' : List Addr} (ho : Own d C L th) (hg : th.Guards d L k i p) (hh : Holds d k i p)
    (hs : th.step d addr = some e) (hk : Keeps d C L th e C' L') :
    e.reclaimed.count p = 0 ∧ e.thread.Guards e.domain L' k i p := by
  cases hsc : th.pc.scanning with
  | false =>
    rcases (Thread.step_slots ho.ok hs).scans with h | ⟨h1, h2⟩
    · rw [hsc] at h
      cases h
    · rw [h2]
      exact ⟨rfl, Thread.guards_of_not_scanning h1⟩
  | true =>
    have hsub := hk.sub fun k hpc => by
      rw [hpc] at hsc
      cases hsc
    unfold Thread.step at hs
    cases hpc : th.pc with
    | snapshot sa =>
      rw [hpc] at hs
      cases hs
      refine ⟨rfl, ?_⟩
      cases sa with
      | reclaim => exact fun _ => .start hh
      | collect head k => exact fun _ => .start hh
    | snapshotLoad q ix buf sa =>
      rw [hpc] at hs
      cases hs
      have hg' := (snapshotLoad_guards hg hh hpc).mono hsub
      refine ⟨?_, hg'⟩
      unfold snapshotLoad
      split
      · rfl
      · split <;> rfl
    | collectWalk head pprev snap k =>
      rw [hpc] at hs
      cases hs
      obtain ⟨h1, h2⟩ := collectWalk_guards ho hg hpc
      exact ⟨h1, h2.mono hsub⟩
    | reclaim ix snap =>
      rw [hpc] at hs
      obtain ⟨c, hc, hr⟩ := Option.bind_eq_some_iff.mp hs
      obtain ⟨h1, h2⟩ := reclaim_guards hg hh.pos hpc hr
      exact ⟨h1, h2.mono fun a ha => ⟨(hsub a ha).1, rfl⟩⟩
    | _ =>
      rw [hpc] at hsc
      cases hsc

end Step

/-! ## Runs -/

section Events

variable {n : Nat} {σ σ' σ'' : State n} {C : List Addr} {L : Fin n → List Addr} {t : Fin n} {th : Thread} {e : Event n}
  {sizes : Nat → Bool} {k i p a : Nat}

/-- What holds from the call that retires `p` on, as long as the slot at `a` holds it. -/
structure Protected (σ : State n) (a p : Nat) (C : List Addr) (L : Fin n → List Addr) : Prop where
  inv : Inv σ C L
  closing : Closing σ
  slot : ∃ k i, σ.domain.HasPool k ∧ i < (σ.domain.pool k).hpCount ∧ a = (σ.domain.pool k).hazPtrs + i ∧
    ∀ t, (σ.thread t).Guards σ.domain (L t) k i p

/-- The slot belongs to a context, so the domain is not destroyed. -/
theorem Closing.open_of_slot (h : Closing σ) (ha : σ.domain.slot a ≠ 0) : σ.closed = false := by
  by_contra hne
  obtain ⟨t, -, hctx, hrest⟩ := h.closed (Bool.eq_true_of_not_eq_false hne)
  refine ha (h.slot_zero (fun u => ?_) a)
  by_cases hut : u = t
  · rw [hut]
    exact hctx
  · exact (hrest u hut).2

theorem unmark_ne_zero {v : Nat} (h : unmark v = p) (hp : p ≠ 0) : v ≠ 0 := by
  rintro rfl
  exact hp h.symm

/-- Another thread takes the place of `t`, with no snapshot to check `p` against. -/
theorem Protected.set (h : Protected σ a p C L) (hI : Inv σ' C L) (hc : Closing σ')
    (hd : σ'.domain.pool = σ.domain.pool)
    (hh : σ'.domain.poolsHead = σ.domain.poolsHead) (hn : σ'.domain.node = σ.domain.node)
    (ht : ∀ t, σ'.thread t = σ.thread t ∨ (σ'.thread t).pc.scanning = false ∨ ∃ sa, (σ'.thread t).pc = .snapshot sa) :
    Protected σ' a p C L := by
  obtain ⟨k, i, h1, h2, h3, h4⟩ := h.slot
  refine ⟨hI, hc, k, i, ⟨h1.1, hh ▸ h1.2⟩, hd ▸ h2, hd ▸ h3, fun t => ?_⟩
  rcases ht t with heq | hsc
  · rw [heq]
    refine (h4 t).mono fun b hb => ⟨hb, ?_⟩
    simp only [Domain.payload, hn]
  · exact Thread.guards_of_not_scanning hsc

theorem Op.start_scanning {op : Op} {th' : Thread} (hpc : th.pc = .idle) (hs : op.start th = some th') :
    th'.pc.scanning = false ∨ ∃ sa, th'.pc = .snapshot sa := by
  obtain ⟨ctx, deleted, delIndex, pc⟩ := th
  cases hpc
  cases op with
  | deleteItem item =>
    cases ctx with
    | none => cases hs
    | some c =>
      simp only [Op.start, Thread.deleteItem] at hs
      split at hs
      · split at hs
        · split at hs
          · cases hs
            split
            · exact .inr ⟨_, rfl⟩
            · exact .inl rfl
          · cases hs
        · cases hs
          exact .inl rfl
      · cases hs
        exact .inl rfl
  | create | enqueueArray =>
    cases ctx with
    | some c => cases hs
    | none =>
      cases hs
      exact .inl rfl
  | enqueue | collect =>
    cases hs
    exact .inl rfl
  | destroy =>
    cases ctx with
    | none => cases hs
    | some c =>
      cases hs
      exact .inl rfl

theorem Protected.step {addr : Nat} {e : Effect} (h : Protected σ a p C L) (hp : p ≠ 0)
    (ha : unmark (σ.domain.slot a) = p)
    (hs : (σ.thread t).step σ.domain addr = some e) :
    e.reclaimed.count p = 0 ∧ ∃ C' L', Protected (σ.apply t e) a p C' L' := by
  obtain ⟨k, i, h1, h2, h3, h4⟩ := h.slot
  obtain ⟨C', L', hk⟩ := Thread.step_keeps (h.inv.own t) hs
  have hh : Holds σ.domain k i p := ⟨h1, h2, h3 ▸ ha, hp⟩
  obtain ⟨hrec, hg⟩ := Thread.step_guards (h.inv.own t) (h4 t) hh hs hk
  have hself : (σ.apply t e).thread t = e.thread := Function.update_self ..
  have hother : ∀ u, u ≠ t → (σ.apply t e).thread u = σ.thread u := fun u hu => Function.update_of_ne hu ..
  have hopen := h.closing.open_of_slot (unmark_ne_zero ha hp)
  have hgrows : Grows σ.domain e.domain := by
    rcases (Thread.step_slots (h.inv.ok t) hs).grows with hpc | hg
    · have hcl := h.closing.opened hopen t
      rw [hpc] at hcl
      cases hcl
    · exact hg
  refine ⟨hrec, C', _, h.inv.step hk, h.closing.step h.inv hs, k, i, hgrows.hasPool h1, ?_, ?_, fun u => ?_⟩
  · change i < (e.domain.pool k).hpCount
    rw [Pool.hpCount, hgrows.blkSize k h1]
    exact h2
  · change a = (e.domain.pool k).hazPtrs + i
    rw [hgrows.hazPtrs k h1]
    exact h3
  · by_cases hut : u = t
    · subst hut
      rw [hself, Function.update_self]
      exact hg
    · rw [hother u hut, Function.update_of_ne hut]
      refine (h4 u).mono fun b hb => ⟨hb, ?_⟩
      exact congrArg DeleteNode.payload (h.inv.frame hk hut (List.mem_append_left _ hb)).1

theorem Protected.next (h : Protected σ a p C L) (hp : p ≠ 0) (ha : unmark (σ.domain.slot a) = p)
    (hn : (machine n sizes).next σ e = some σ') :
    σ'.reclaimed.count p = σ.reclaimed.count p ∧ ∃ C' L', Protected σ' a p C' L' := by
  have hc := h.closing.next h.inv hn
  cases e with
  | call t op =>
    simp only [machine] at hn
    split at hn
    · rename_i hen
      obtain ⟨-, hidle, hv, -, hret⟩ := hen
      obtain ⟨th, hth, rfl⟩ := Option.map_eq_some_iff.mp hn
      have hI := h.inv.call hidle (Op.start_starts (h.inv.rest hidle) hidle hv (fun p hp => (hret p hp).1) hth)
      refine ⟨rfl, C, L, h.set hI hc rfl rfl rfl fun u => ?_⟩
      by_cases hut : u = t
      · subst hut
        refine .inr ?_
        change (Function.update σ.thread u th u).pc.scanning = false ∨
          ∃ sa, (Function.update σ.thread u th u).pc = .snapshot sa
        rw [Function.update_self]
        exact Op.start_scanning hidle hth
      · exact .inl (Function.update_of_ne hut ..)
    · cases hn
  | store t index ptr =>
    simp only [machine] at hn
    split at hn
    · have hI := h.inv.store hn
      unfold State.store at hn
      split at hn
      · split at hn
        · cases hn
          exact ⟨rfl, C, L, h.set hI hc rfl rfl rfl fun _ => .inl rfl⟩
        · cases hn
      · cases hn
    · cases hn
  | move t u =>
    simp only [machine] at hn
    split at hn
    · rename_i hen
      obtain ⟨-, ht, hu, htc, huc⟩ := hen
      cases hn
      refine ⟨rfl, C, L, h.set (h.inv.move ht hu htc huc) hc rfl rfl rfl fun v => ?_⟩
      by_cases hvt : v = t
      · refine .inr (.inl ?_)
        subst hvt
        rw [move_from, show (σ.thread v).pc = .idle from ht]
        rfl
      · by_cases hvu : v = u
        · refine .inr (.inl ?_)
          rw [hvu, move_to (move_ne htc huc)]
          rfl
        · exact .inl (move_other hvt hvu)
    · cases hn
  | close t =>
    simp only [machine] at hn
    split at hn
    · rename_i hen
      have hall := hen.2
      have hz := h.closing.slot_zero (fun u => Option.isNone_iff_eq_none.mp (hall u).2) a
      exact absurd hz (unmark_ne_zero ha hp)
    · cases hn
  | step t addr =>
    obtain ⟨e, he, rfl⟩ := Option.map_eq_some_iff.mp hn
    obtain ⟨hrec, hprot⟩ := h.step hp ha he
    refine ⟨?_, hprot⟩
    change (σ.reclaimed ++ e.reclaimed).count p = _
    rw [List.count_append, hrec, Nat.add_zero]

/-- The call that retires an object finds no other thread with it. -/
theorem Protected.retire {op : Op} (h : (machine n sizes).Reachable σ) (hk : σ.domain.HasPool k)
    (hi : i < (σ.domain.pool k).hpCount) (hn : (machine n sizes).next σ (.call t op) = some σ') (hp : p ∈ op.retires) :
    p ≠ 0 ∧ ∃ C L, Protected σ' ((σ.domain.pool k).hazPtrs + i) p C L := by
  have hc := (reachable_closing h)
  obtain ⟨C, L, hI⟩ := reachable_inv h
  have hc' := hc.next hI hn
  simp only [machine] at hn
  split at hn
  · rename_i hen
    obtain ⟨-, hidle, hv, -, hret⟩ := hen
    obtain ⟨th, hth, rfl⟩ := Option.map_eq_some_iff.mp hn
    obtain ⟨hp0, hpend⟩ := hret p hp
    have hI' := hI.call hidle (Op.start_starts (hI.rest hidle) hidle hv (fun p hp => (hret p hp).1) hth)
    refine ⟨hp0, C, L, hI', hc', k, i, hk, hi, rfl, fun u => ?_⟩
    by_cases hut : u = t
    · subst hut
      change (Function.update σ.thread u th u).Guards _ _ _ _ _
      rw [Function.update_self]
      exact Thread.guards_of_not_scanning (Op.start_scanning hidle hth)
    · change (Function.update σ.thread t th u).Guards _ _ _ _ _
      rw [Function.update_of_ne hut]
      -- nobody has `p`
      have hcount := hI.count p
      have heq : σ.reclaimed.count p = σ.retired.count p := not_not.mp hpend
      have hsum : ∑ t, ((σ.thread t).holds σ.domain ++ (L t).map σ.domain.payload).count p = 0 := by omega
      have hu := Finset.sum_eq_zero_iff.mp hsum u (Finset.mem_univ u)
      have hno := List.count_eq_zero.mp hu
      refine Thread.guards_of_notMem (fun hmem => hno (List.mem_append_right _ hmem)) fun hsc hmem => ?_
      exact hno (List.mem_append_left _ (Thread.mem_holds_of_scanning hsc hmem hp0))
  · cases hn

/-- **Hazard pointer safety.** When slot `i` of the pool `k` holds `p`, marked
or not, as `p` is retired, then as long as it goes on holding it, `p` is not
passed to `reclaim_object`, whatever all the threads do. -/
theorem hazard_pointer_safe {op : Op} (h : (machine n sizes).Reachable σ) (hp2 : p % 2 = 0) (hk : σ.domain.HasPool k)
    (hi : i < (σ.domain.pool k).hpCount) (hn : (machine n sizes).next σ (.call t op) = some σ') (hp : p ∈ op.retires)
    (hw : (machine n sizes).Within (fun σ => σ.domain.slot a = p ∨ σ.domain.slot a = p + 1) σ' σ'')
    (ha : a = (σ.domain.pool k).hazPtrs + i) : σ''.reclaimed.count p = σ'.reclaimed.count p := by
  obtain ⟨hp0, C, L, hprot⟩ := Protected.retire h hk hi hn hp
  rw [← ha] at hprot
  have hinv := hw.invariant (I := fun τ => τ.reclaimed.count p = σ'.reclaimed.count p ∧ ∃ C L, Protected τ a p C L)
    ⟨rfl, C, L, hprot⟩ fun τ e τ' hτ hholds _ hn => by
      obtain ⟨hrec, C, L, hprot⟩ := hτ
      obtain ⟨hrec', hprot'⟩ := hprot.next hp0 ((unmark_eq_iff hp2).mpr hholds) hn
      exact ⟨hrec'.trans hrec, hprot'⟩
  exact hinv.1

/-- A thread deletes the object that the other has marked and holds: the object goes to the domain's delete list. -/
theorem hazard_pointer_safe_two :
    ∃ σ : State 2, (machine 2 fun _ => true).Reachable σ ∧ σ.retired = [8] ∧ σ.domain.deleteHead = some 1000 ∧
      σ.Idle 1 ∧ σ.reclaimed.count 8 = 0 := by
  have hrun : ((machine 2 fun _ => true).run { domain := Domain.fresh, thread := fun _ => {} }
      ([.call 0 (.create 1 1)] ++ List.replicate 11 (.step 0 1000) ++ [.call 1 (.create 1 1)] ++
        List.replicate 5 (.step 1 1000) ++ [.store 0 0 9])).bind
      (fun σ => ((machine 2 fun _ => true).next σ (.call 1 (.deleteItem 8))).bind fun σ' =>
        ((machine 2 fun _ => true).runIf (fun σ _ => decide (σ.domain.slot 1000 = 9)) σ'
          (List.replicate 45 (.step 1 1000))).map
          fun σ'' => decide ((σ.domain.poolsHead = 1 ∧ (σ.domain.pool 1).hazPtrs = 1000 ∧
            (σ.domain.pool 1).blkSize = 1) ∧
            σ'.reclaimed = [] ∧ σ'.domain.slot 1000 = 9 ∧ σ''.retired = [8] ∧ σ''.domain.deleteHead = some 1000 ∧
            σ''.domain.slot 1000 = 9 ∧ (σ''.thread 1).pc = .idle)) = some true := by
    decide +kernel
  obtain ⟨σ, hσ, hrun⟩ := Option.bind_eq_some_iff.mp hrun
  obtain ⟨σ', hσ', hrun⟩ := Option.bind_eq_some_iff.mp hrun
  obtain ⟨σ'', hσ'', hfacts⟩ := Option.map_eq_some_iff.mp hrun
  obtain ⟨⟨hhead, hbase, hsize⟩, hrec, hslot', hret, hdel, hslot, hidle⟩ := of_decide_eq_true hfacts
  have hreach := System.run_reachable (M := machine 2 fun _ => true) (.init rfl) hσ
  have hwithin := System.runIf_within (P := fun σ : State 2 => σ.domain.slot 1000 = 8 ∨ σ.domain.slot 1000 = 8 + 1)
    (fun σ _ h => .inr (decide_eq_true_eq.mp h)) (.refl (.inr hslot')) hσ'' (.inr hslot)
  have hcount : (σ.domain.pool 1).hpCount = 32 := by rw [Pool.hpCount, hsize]
  have hsafe := hazard_pointer_safe (i := 0) hreach (by decide) ⟨Nat.one_pos, Nat.le_of_eq hhead.symm⟩ (by omega) hσ'
    (List.mem_singleton_self _) hwithin (by omega)
  refine ⟨σ'', hwithin.reachable (.step hreach trivial hσ'), hret, hdel, hidle, ?_⟩
  rw [hsafe, hrec]
  rfl

end Events

end Hazard

end SplitOrder
