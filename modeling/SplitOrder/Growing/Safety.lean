/-
A list whose table grows under any calls of any threads.

Every step but the doubling is one of `Concurrent.Model` (`does_step`), and
the doubling leaves the chain and the slots that are set. So the invariant of
`Concurrent.Invariant` holds of the shadows, with what `Carries` adds, as long
as the steps are `Sound`.
-/
import SplitOrder.Growing.Shadow

namespace SplitOrder

namespace Growing

open Heap Solist
open Concurrent (FindCall InitCall InitCaller InitPc Mem IsSet Frame Free)

variable {T : Type} {n : Nat} {s s' : Solist T} {l r l' r' : List Addr} {a : Accessor} {σ σ' : State T n}

/-! ## The doubling -/

theorem doubled_slot_iff {i : Nat} {x : Addr} :
    s.doubled.buckets[i]? = some (some x) ↔ s.buckets[i]? = some (some x) := by
  simp only [doubled]
  rcases Nat.lt_or_ge i s.buckets.length with h | h
  · rw [List.getElem?_append_left h]
  · rw [List.getElem?_append_right h, List.getElem?_eq_none h, List.getElem?_replicate]
    split <;> simp

theorem isSet_doubled {slot : Hash} (h : IsSet s slot) : IsSet s.doubled slot := by
  obtain ⟨b, hb⟩ := h
  exact ⟨b, doubled_slot_iff.mpr hb⟩

theorem mem_doubled (hm : Mem s l r) (hlt : s.nBuckets.toNat < 2 ^ 31) : Mem s.doubled l r := by
  have ht := hm.table.doubled hlt
  obtain ⟨b, hb⟩ := hm.first
  exact ⟨hm.mesh, ht.pow, ht.size, ⟨b, doubled_slot_iff.mpr hb⟩, fun i x hx => hm.slot i x (doubled_slot_iff.mp hx)⟩

theorem dnode_doubled {hashv : Hash} {d : Addr} (h : Concurrent.DNode s l r hashv d) :
    Concurrent.DNode s.doubled l r hashv d := ⟨h.priv, h.hashv, h.key, h.data⟩

theorem findCall_doubled {c : FindCall} (h : c.Ok s l r) : c.Ok s.doubled l r := by
  cases c with
  | insertNode hashv d => exact ⟨h.1, dnode_doubled h.2⟩
  | deleteNode hashv => exact h
  | findItemNode hashv => exact h

/-- What a thread knows of `initialise_bucket` it knows of the larger table. -/
theorem initPc_doubled {i : InitCall} {pc : InitPc} (hlt : s.nBuckets.toNat < 2 ^ 31) (h : pc.Ok s l r a i) :
    pc.Ok s.doubled l r a i := by
  cases pc with
  | probe pbKey => exact ⟨h.1, h.2.1, h.2.2.1, (Grown.doubled hlt).lt h.2.2.2⟩
  | parent pbSlot => exact ⟨h.1, isSet_doubled h.2.1, h.2.2⟩
  | settle => exact ⟨h.1, h.2.imp_right fun h => ⟨h.1, h.2.imp_left isSet_doubled⟩⟩
  | assertNext | discard => exact ⟨h.1, isSet_doubled h.2⟩
  | assertSet | assertKey => exact isSet_doubled h
  | _ => exact h

theorem bare_doubled {th : Thread} (hlt : s.nBuckets.toNat < 2 ^ 31) (hk : th.Knows s l r) :
    th.bare.Ok s.doubled l r := by
  have hentry : ∀ {slot : Hash} {k : InitCaller}, (alone (.initEntry slot k)).Ok s l r th.a →
      (alone (.initEntry slot k)).Ok s.doubled l r th.a := fun h => ⟨(Grown.doubled hlt).lt h.1, trivial⟩
  have hinit : ∀ {i : InitCall} {pc : InitPc}, (alone (.init i pc)).Ok s l r th.a →
      (alone (.init i pc)).Ok s.doubled l r th.a := fun h =>
    ⟨{ h.1 with slot := (Grown.doubled hlt).lt h.1.slot, caller := trivial }, initPc_doubled hlt h.2⟩
  have hb := hk.bare
  have hpc := hk.slots.pc
  obtain ⟨a, pc, nbuckets⟩ := th
  cases pc with
  | initAssert slot k | initTest slot k => exact hentry (k := k) hb
  | parent i => exact hinit hb
  | probe i keyStep pbKey => exact hinit hb
  | core pc =>
    cases pc with
    | init i pc => exact hinit hb
    | initReturn slot k => exact ⟨isSet_doubled hb.1, trivial⟩
    | initEntry slot k => exact absurd hpc id
    | findBucket c => exact absurd hpc id
    | findEntry c => exact findCall_doubled hb
    | findNext c | findWalk c => exact ⟨findCall_doubled hb.1, hb.2⟩
    | insertSetNext hashv d | insertCas hashv d => exact ⟨⟨hb.1.1, dnode_doubled hb.1.2⟩, hb.2⟩
    | _ => exact hb
  | findSlot c | findTest c slot | findBucket c slot => exact findCall_doubled hb
  | _ => exact hb

theorem Thread.Knows.doubled {th : Thread} (hlt : s.nBuckets.toNat < 2 ^ 31) (hk : th.Knows s l r) :
    th.Knows s.doubled l r where
  slots := (Grown.doubled hlt).thread hk.slots
  bare := bare_doubled hlt hk
  carries := th.carries_mono hk.carries (Grown.doubled hlt).nBuckets (fun _ => isSet_doubled) fun _ _ => findCall_doubled

/-! ## The invariant -/

structure Whole (σ : State T n) (l r : List Addr) : Prop where
  mem : Mem σ.list l r
  knows : ∀ t, (σ.thread t).Knows σ.list l r
  apart : ∀ t u, t ≠ u → ∀ x ∈ (σ.thread t).shadow.holds, x ∉ (σ.thread u).shadow.holds
  items : σ.list.nItems + ∑ t, (σ.thread t).shadow.pc.owes = BitVec.ofNat 32 (l.countP σ.list.heap.isData)

theorem State.apply_self {t : Fin n} {e : Solist T × Thread} : (σ.apply t e).thread t = e.2 := Function.update_self ..

theorem State.apply_of_ne {t u : Fin n} {e : Solist T × Thread} (hu : u ≠ t) : (σ.apply t e).thread u = σ.thread u :=
  Function.update_of_ne hu ..

/-- What a thread knows survives the steps of others. -/
theorem Thread.Knows.frame {th : Thread} {mine : List Addr} (hk : th.Knows s l r) (hm : Mem s l r) (hg : Grown s s')
    (hf : Frame s l r s' l' r' mine) (hd : ∀ d ∈ th.shadow.holds, d ∉ mine) : th.Knows s' l' r' where
  slots := hg.thread hk.slots
  bare := hf.thread hm (fun d hdb => hd d (Thread.holds_alone d hdb)) hk.bare
  carries := Thread.carries_frame hf hd hk.carries

/-- **A step that leaves the size of the table.** -/
theorem Whole.step {t : Fin n} {e : Solist T × Thread} (h : Whole σ l r) (hg : Grown σ.list e.1)
    (hd : Does σ.list l r (σ.thread t) e l' r') : Whole (σ.apply t e) l' r' := by
  have hfree : ∀ u, u ≠ t → ∀ x ∈ e.2.shadow.holds, x ∉ (σ.thread u).shadow.holds := by
    intro u hu x hx hxu
    rcases hd.holds x hx with h1 | h1
    · exact h.apart t u (Ne.symm hu) x h1 hxu
    · have hk := h.knows u
      exact Thread.shadow_not_free h.mem hk.slots hk.bare hk.carries x hxu h1
  refine ⟨hd.keeps.mem, fun u => ?_, fun u v huv x hx hxv => ?_, ?_⟩
  · by_cases hu : u = t
    · subst hu
      rw [State.apply_self]
      exact ⟨hd.slots, hd.keeps.ok, hd.carries⟩
    · rw [State.apply_of_ne hu]
      exact (h.knows u).frame h.mem hg hd.keeps.frame fun d hdu hdt => h.apart u t hu d hdu hdt
  · by_cases hu : u = t
    · subst hu
      rw [State.apply_self] at hx
      rw [State.apply_of_ne (Ne.symm huv)] at hxv
      exact hfree v (Ne.symm huv) x hx hxv
    · rw [State.apply_of_ne hu] at hx
      by_cases hv : v = t
      · subst hv
        rw [State.apply_self] at hxv
        exact hfree u hu x hxv hx
      · rw [State.apply_of_ne hv] at hxv
        exact h.apart u v huv x hx hxv
  · have hsum := sum_change (f := fun u => (σ.thread u).shadow.pc.owes)
      (g := fun u => ((σ.apply t e).thread u).shadow.pc.owes) t fun u hu => by rw [State.apply_of_ne hu]
    have hi := h.items
    have hki := hd.keeps.items
    rw [State.apply_self] at hsum
    simp only [Thread.effect, Thread.bare, owes_alone] at hki
    change e.1.nItems + e.2.shadow.pc.owes + _ = _ at hki
    change e.1.nItems + ∑ u, ((σ.apply t e).thread u).shadow.pc.owes = BitVec.ofNat 32 (l'.countP e.1.heap.isData)
    linear_combination hki + hsum + hi

/-- **The doubling of the table.** -/
theorem Whole.expand {t : Fin n} {c : CheckSlot} {e : Solist T × Thread} (h : Whole σ l r)
    (hpc : (σ.thread t).pc = .expandReplace c) (hlt : σ.list.nBuckets.toNat < 2 ^ 31)
    (he : (σ.thread t).step σ.list = some e) (hok : e.2.Ok e.1) :
    e.1 = σ.list.doubled ∧ Whole (σ.apply t e) l r := by
  have hexp := expand_eq h.mem.size hlt
  simp only [Thread.step, hpc, hexp, Option.some.injEq] at he
  subst he
  have hslot := hok.pc
  refine ⟨rfl, mem_doubled h.mem hlt, fun u => ?_, fun u v huv x hx hxv => ?_, ?_⟩
  · by_cases hu : u = t
    · subst hu
      rw [State.apply_self]
      exact ⟨hok, ⟨hslot, trivial⟩, trivial⟩
    · rw [State.apply_of_ne hu]
      exact (h.knows u).doubled hlt
  · by_cases hu : u = t
    · subst hu
      rw [State.apply_self] at hx
      cases hx
    · rw [State.apply_of_ne hu] at hx
      by_cases hv : v = t
      · subst hv
        rw [State.apply_self] at hxv
        cases hxv
      · rw [State.apply_of_ne hv] at hxv
        exact h.apart u v huv x hx hxv
  · have howes : ∀ u, ((σ.apply t ((σ.thread t).goto σ.list.doubled
        (.initAssert (c.slot + (σ.thread t).nbuckets) .insertNode))).thread u).shadow.pc.owes =
        (σ.thread u).shadow.pc.owes := by
      intro u
      by_cases hu : u = t
      · subst hu
        rw [State.apply_self, Thread.shadow, Thread.shadow, hpc]
        rfl
      · rw [State.apply_of_ne hu]
    simp only [howes]
    exact h.items

/-- **The start of a call.** -/
theorem does_call {th : Thread} {op : Op T} (hm : Mem s l r) (hk : th.Knows s l r) (hi : th.pc.isIdle = true)
    (hv : op.Valid s) : Grown s (th.call s op).1 ∧ Does s l r th (th.call s op) l r := by
  obtain ⟨a, pc, nbuckets⟩ := th
  obtain ⟨res, rfl⟩ : ∃ res, pc = .core (.idle res) := by
    cases pc with
    | core pc =>
      obtain ⟨res, rfl⟩ := Concurrent.Pc.isIdle_iff.mp hi
      exact ⟨res, rfl⟩
    | _ => cases hi
  have hkeeps : Concurrent.Keeps s l r ⟨a, .idle res⟩ (Concurrent.Thread.call ⟨a, .idle res⟩ s op) l r :=
    Concurrent.Thread.call_keeps hm rfl hv
  cases op with
  | insertNode hashv v =>
    have hlt : hashv.toNat < 2 ^ 31 := hv
    simp only [Concurrent.Thread.call, solistNode_ok v hlt] at hkeeps
    simp only [Thread.call, Thread.insertNode, solistNode_ok v hlt]
    exact ⟨⟨BitVec.le_refl _, .new⟩, hkeeps, ⟨BitVec.le_refl _, trivial⟩, trivial, hkeeps.holds⟩
  | deleteNode hashv => exact ⟨.refl s, hkeeps, ⟨hk.slots.entry, trivial⟩, trivial, hkeeps.holds⟩
  | findItemNode hashv => exact ⟨.refl s, hkeeps, ⟨hk.slots.entry, trivial⟩, trivial, hkeeps.holds⟩
  | initialiseBucket slot => exact ⟨.refl s, hkeeps, ⟨hk.slots.entry, hv⟩, trivial, hkeeps.holds⟩

/-! ## Runs -/

section Runs

variable {size bucketLength : Hash}

theorem Whole.init (hsize : ∃ k, size.toNat = 2 ^ k) (h : (calls T n size bucketLength).init σ) :
    ∃ l, Whole σ l [] := by
  obtain ⟨hlist, hthread⟩ := h
  have hstart : (machine T n size bucketLength).init σ := ⟨hlist, hthread⟩
  have hslots : Growing.Inv σ := .init hsize hstart
  obtain ⟨s, hs, hinit⟩ := Concurrent.fresh_init (T := T) (n := n) size bucketLength (fun _ => True) (fun _ => true)
    (two_pow_le hsize) fun _ _ => trivial
  obtain rfl : s = σ.list := Except.ok.inj (hs.symm.trans hlist)
  obtain ⟨l, hl⟩ := Concurrent.init_inv hinit
  refine ⟨l, hl.mem, fun t => ⟨hslots.thread t, ?_, ?_⟩, fun t u _ x hx => ?_, ?_⟩
  · rw [hthread t]
    trivial
  · rw [hthread t]
    trivial
  · rw [hthread t] at hx
    cases hx
  · have hitems := hl.items
    simp only [hthread]
    exact hitems

/-- **Sound runs keep the invariant.** -/
theorem Whole.next {e : Concurrent.Event T n} (h : Whole σ l r) (hs : Sound σ e)
    (hn : (calls T n size bucketLength).next σ e = some σ') : ∃ l' r', Whole σ' l' r' := by
  cases e with
  | call t op =>
    simp only [calls] at hn
    split at hn
    · rename_i hen
      cases hn
      obtain ⟨hg, hd⟩ := does_call h.mem (h.knows t) hen.1 hen.2
      exact ⟨l, r, h.step hg hd⟩
    · cases hn
  | step t =>
    obtain ⟨e, he, rfl⟩ := Option.map_eq_some_iff.mp hn
    have hkeeps := keeps_step h.mem.table (h.knows t).slots hs.room he
    by_cases hpc : ∃ c, (σ.thread t).pc = .expandReplace c
    · obtain ⟨c, hpc⟩ := hpc
      exact ⟨l, r, (h.expand hpc (hs.fits c hpc) he hkeeps.ok).2⟩
    · obtain ⟨l', r', hd⟩ := does_step h.mem (h.knows t) hs (not_exists.mp hpc) he
      exact ⟨l', r', h.step hkeeps.grown hd⟩

theorem run_whole (hsize : ∃ k, size.toNat = 2 ^ k) (h : (calls T n size bucketLength).ReachableBy Sound σ) :
    ∃ l r, Whole σ l r := by
  refine h.invariant (I := fun σ => ∃ l r, Whole σ l r) (fun σ hσ => ?_) fun σ e σ' hσ hs hn => ?_
  · obtain ⟨l, hl⟩ := Whole.init hsize hσ
    exact ⟨l, [], hl⟩
  · obtain ⟨l, r, hl⟩ := hσ
    exact hl.next hs hn

theorem Pc.owes_of_isIdle {pc : Pc} (h : pc.isIdle = true) : pc.shadow.owes = 0 := by
  cases pc with
  | core pc =>
    obtain ⟨res, rfl⟩ := Concurrent.Pc.isIdle_iff.mp h
    rfl
  | _ => cases h

/-- A step that leaves room, finds what the thread itself has left, and doubles no table of `2 ^ 31` slots. -/
def steady (σ : State T n) : Concurrent.Event T n → Bool
  | .call _ _ => true
  | .step t =>
    decide (RoomLeft σ (.step t)) && decide (σ.list.nBuckets.toNat < 2 ^ 31) &&
      Concurrent.calm { list := σ.list, thread := fun t => (σ.thread t).shadow, links := [], unlinks := [] }
        (.step t : Concurrent.Event T n)

theorem steady_sound (σ : State T n) (e : Concurrent.Event T n) (h : steady σ e = true) : Sound σ e := by
  cases e with
  | call t op => trivial
  | step t =>
    simp only [steady, Bool.and_eq_true, decide_eq_true_eq] at h
    exact ⟨h.1.1, Concurrent.calm_undisturbed _ _ h.2, fun _ _ => h.1.2⟩

/-- `u` inserts 5, then 1, for which it doubles the table; `t` has taken the slot of 5 before that, and deletes it
after. -/
def grownOver (t u : Fin n) : List (Concurrent.Event Nat n) :=
  .call u (.insertNode 5 50) :: List.replicate 28 (.step u) ++ .call t (.deleteNode 5) :: .step t ::
    .call u (.insertNode 1 10) :: List.replicate 34 (.step u) ++ List.replicate 9 (.step t)

/-- A node of the chain is deleted, or an assertion has failed. -/
def Broken (σ : State T n) : Prop :=
  (∃ x, Concurrent.OnChain σ.list x ∧ x ∈ σ.list.heap.deleted) ∨ ∃ t, (σ.thread t).pc = .core .crashed

theorem run_step {t : Fin n} {e : Solist T × Thread} {es : List (Concurrent.Event T n)}
    (he : (σ.thread t).step σ.list = some e) :
    (calls T n size bucketLength).run σ (.step t :: es) = (calls T n size bucketLength).run (σ.apply t e) es := by
  rw [System.run_cons]
  simp only [calls, he, Option.map_some, Option.bind_some]

/-- The slot past the end of the table is passed to `initialise_bucket`. -/
theorem Whole.room_breaks {t : Fin n} (h : Whole σ l r) (hroom : ¬ (σ.thread t).RoomLeft σ.list) :
    ∃ k σ', (calls T n size bucketLength).run σ (List.replicate k (.step t)) = some σ' ∧ Broken σ' := by
  have hok := (h.knows t).slots
  unfold Thread.RoomLeft at hroom
  push Not at hroom
  obtain ⟨c, hc, hentry, hnow, hhash⟩ := hroom
  have hpc : (σ.thread t).pc = .expandTest c := by
    cases hp : (σ.thread t).pc <;> rw [hp] at hc <;> cases hc
    rfl
  have hcheck : c.Ok σ.list (σ.thread t).nbuckets := by
    have := hok.pc
    rwa [hpc] at this
  have hgrown : (σ.thread t).nbuckets < σ.list.nBuckets := hnow ▸ hentry
  have hout : ¬ c.slot + (σ.thread t).nbuckets < σ.list.nBuckets := fun hlt =>
    Nat.not_lt.mpr hhash ((hcheck.sum_lt_iff h.mem.table hgrown).mp hlt hentry hnow)
  let e₁ := (σ.thread t).goto σ.list (.initAssert (c.slot + (σ.thread t).nbuckets) .insertNode)
  have h₁ : (σ.thread t).step σ.list = some e₁ := by
    simp only [Thread.step, hpc, if_pos hgrown, e₁]
  have h₂ : ((σ.apply t e₁).thread t).step (σ.apply t e₁).list = some (e₁.2.crash σ.list) := by
    rw [State.apply_self]
    simp only [State.apply, e₁, Thread.goto, Thread.step, if_neg hout]
  exact ⟨2, _, (run_step h₁).trans (run_step h₂), .inr ⟨t, by rw [State.apply_self]; rfl⟩⟩

/-- The new table is empty, and the copy is out of its bounds. -/
theorem Whole.expand_breaks {t : Fin n} {c : CheckSlot} (h : Whole σ l r) (hpc : (σ.thread t).pc = .expandReplace c)
    (hfull : ¬ σ.list.nBuckets.toNat < 2 ^ 31) :
    ∃ k σ', (calls T n size bucketLength).run σ (List.replicate k (.step t)) = some σ' ∧ Broken σ' := by
  have heq : σ.list.nBuckets.toNat = 2 ^ 31 := Nat.le_antisymm h.mem.table.nBuckets_le (Nat.not_lt.mp hfull)
  have h₁ : (σ.thread t).step σ.list = some ((σ.thread t).crash σ.list) := by
    simp only [Thread.step, hpc, expand_overflow h.mem.size heq]
  exact ⟨1, _, run_step h₁, .inr ⟨t, by rw [State.apply_self]; rfl⟩⟩

/-- A disturbed `initialise_bucket` takes itself for the loser: it deletes its node, or stores another in its slot. -/
theorem Whole.disturbed_breaks {t : Fin n} (h : Whole σ l r) (hd : ¬ (σ.thread t).shadow.Undisturbed σ.list) :
    ∃ k σ', (calls T n size bucketLength).run σ (List.replicate k (.step t)) = some σ' ∧ Broken σ' := by
  have hbare := (h.knows t).bare
  cases hth : σ.thread t with
  | mk a pc nbuckets =>
    rw [hth] at hd hbare
    cases pc with
    | core pc =>
      cases pc with
      | init i pc =>
        let at' (s : Solist T) (p : InitPc) : Solist T × Thread := (s, { a, pc := .core (.init i p), nbuckets })
        cases pc with
        | settle =>
          obtain ⟨⟨b, hb⟩, hon⟩ := Classical.not_imp.mp hd
          have h₁ : (σ.thread t).step σ.list = some (at' σ.list .discard) := by
            simp only [hth, Thread.step, Concurrent.Thread.step, InitCall.step, hb]
            rfl
          have h₂ : ((σ.apply t (at' σ.list .discard)).thread t).step (σ.apply t (at' σ.list .discard)).list =
              some (at' { σ.list with heap := σ.list.heap.delete i.node } .assertSet) := by
            rw [State.apply_self]
            rfl
          refine ⟨2, _, (run_step h₁).trans (run_step h₂), .inl ⟨i.node, not_not.mp hon, ?_⟩⟩
          simp [State.apply, at']
        | won =>
          obtain ⟨hnext, hon⟩ := Classical.not_imp.mp hd
          obtain ⟨hcall, ⟨c, hc, -⟩, hcase⟩ := hbare
          have hon : i.node ∈ l := h.mem.onChain_iff.mp (not_not.mp hon)
          have hc : a.cur = some c := hc
          have hne : σ.list.heap.nextOf c ≠ some i.node := fun he => hnext (by
            simp only [Thread.shadow, hc, Option.bind_some, he])
          have habove := (hcase.resolve_right fun hp => hp.1.notMem (by simp [hon])).2
          -- the slot gets `next`, which is null or has another key
          let s' : Solist T := { σ.list with buckets := σ.list.buckets.set i.slot.toNat a.next }
          have hlt : i.slot.toNat < σ.list.buckets.length := by
            rw [h.mem.size]
            exact hcall.slot
          have hset : s'.buckets[i.slot.toNat]? = some a.next := List.getElem?_set_self hlt
          have h₁ : (σ.thread t).step σ.list = some (at' σ.list .storeNext) := by
            simp only [hth, Thread.step, Concurrent.Thread.step, InitCall.step, hc, hne, if_false]
            rfl
          have h₂ : ((σ.apply t (at' σ.list .storeNext)).thread t).step (σ.apply t (at' σ.list .storeNext)).list =
              some (at' s' .assertNext) := by
            rw [State.apply_self]
            rfl
          have h₃ : (((σ.apply t (at' σ.list .storeNext)).apply t (at' s' .assertNext)).thread t).step
              ((σ.apply t (at' σ.list .storeNext)).apply t (at' s' .assertNext)).list =
                some (s', { a, pc := .core .crashed, nbuckets }) := by
            rw [State.apply_self]
            simp only [at', State.apply, Thread.step, Concurrent.Thread.step, InitCall.step, hset]
            cases hn : a.next with
            | none => rfl
            | some x =>
              have hkey : s'.heap.key x ≠ s'.heap.key i.node := by
                change σ.list.heap.key x ≠ σ.list.heap.key i.node
                rw [hcall.key]
                intro he
                have hgt := (habove x hn).2
                rw [he] at hgt
                exact BitVec.lt_irrefl _ hgt
              simp only [hkey, if_false]
              rfl
          refine ⟨3, _, ((run_step h₁).trans (run_step h₂)).trans (run_step h₃), .inr ⟨t, ?_⟩⟩
          rw [State.apply_self]
        | _ => exact absurd trivial hd
      | _ => exact absurd trivial hd
    | _ => exact absurd trivial hd

end Runs

end Growing

end SplitOrder
