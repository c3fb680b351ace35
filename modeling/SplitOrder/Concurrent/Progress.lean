/-
When a call of the concurrent list returns, if it runs alone.

A call never helps another: a node that is marked and still linked stays so
until its own deleter unlinks it, and no search steps around it. So a call
that has to link after a marked node, or to delete one, starts its search
again for ever. `Thread.CanReturn` says for each point of a call when this
does not happen, and `returns_iff` that it says so exactly.
-/
import SplitOrder.Concurrent.Safety
import SplitOrder.Concurrent.Search

namespace SplitOrder

namespace Concurrent

open Heap

variable {T : Type}

/-! ## Running alone -/

/-- The call has returned, or come to `expand`. -/
def Pc.Done : Pc → Prop
  | .idle _ | .expand _ => True
  | _ => False

/-- The call returns after finitely many steps of its own. -/
inductive Returns : Solist T → Thread → Prop
  | done {s th} : th.pc.Done → Returns s th
  | step {s th e} : th.step s = some e → Returns e.list e.thread → Returns s th

/-- `Returns` looks at the steps of one thread of a run. -/
theorem returns_iff_run {n : Nat} {σ : State T n} {t : Fin n} {start : Solist T → Prop} {ops : Op T → Bool} :
    (∃ k σ', (machine T n start ops).run σ (List.replicate k (.step t)) = some σ' ∧ (σ'.thread t).pc.Done) ↔
      Returns σ.list (σ.thread t) := by
  constructor
  · rintro ⟨k, σ', hrun, hdone⟩
    induction k generalizing σ with
    | zero =>
      cases hrun
      exact .done hdone
    | succ k ih =>
      rw [List.replicate_succ, System.run_cons] at hrun
      obtain ⟨σ₁, hnext, hrun⟩ := Option.bind_eq_some_iff.mp hrun
      obtain ⟨e, he, rfl⟩ := Option.map_eq_some_iff.mp hnext
      have := ih hrun
      rw [State.apply_list, State.apply_thread] at this
      exact .step he this
  · intro h
    generalize hl : σ.list = s at h
    generalize hth : σ.thread t = th at h
    induction h generalizing σ with
    | done hd =>
      subst hth
      exact ⟨0, σ, rfl, hd⟩
    | @step s th e he _ ih =>
      subst hl hth
      obtain ⟨k, σ', hrun, hd⟩ := ih (σ := σ.apply t e) rfl State.apply_thread
      exact ⟨k + 1, σ', (run_step he).trans hrun, hd⟩

variable {s : Solist T} {l r : List Addr} {a a' : Accessor}

/-! ## When a call returns -/

section Conditions

variable (s a)

/-- A call that starts its search again gets to the end: where it has to
link, the last node below is unmarked, and where it has to delete, the node
and the one before it are. -/
def FindCall.CanRestart : FindCall → Prop
  | .insertNode hashv _ => ∃ c, Last s (solNodeKey hashv) c ∧
      (s.heap.key c = solNodeKey hashv ∨ (s.heap.node c).next.mark = false)
  | .deleteNode hashv => ∃ c, Last s (solNodeKey hashv) c ∧
      (s.heap.key c ≠ solNodeKey hashv ∨
        (s.heap.node c).next.mark = false ∧ ∃ p, OnChain s p ∧ (s.heap.node p).next = { ptr := some c })
  | .findItemNode _ => True

/-- A delete with `prev` and `cur` found either marks and unlinks, or does
not mark and can start again. -/
def CanDelete (hashv : Hash) : Prop :=
  ∃ p c, a.prev = some p ∧ a.cur = some c ∧
    if (s.heap.node c).next = { ptr := a.next } then (s.heap.node p).next = { ptr := some c }
    else (FindCall.deleteNode hashv).CanRestart s

/-- A call whose search has ended gets to its end. -/
def FindCall.CanEnd : FindCall → Prop
  | .insertNode hashv d =>
      (∃ c, a.cur = some c ∧ s.heap.key c = solNodeKey hashv) ∨ (FindCall.insertNode hashv d).CanRestart s
  | .deleteNode hashv => (∃ c, a.cur = some c ∧ s.heap.key c ≠ solNodeKey hashv) ∨ CanDelete s a hashv
  | .findItemNode _ => True

end Conditions

/-- The condition under which a call returns, if it runs alone. -/
def Thread.CanReturn (s : Solist T) (th : Thread) : Prop :=
  match th.pc with
  | .initEntry _ (.findNode f) | .initReturn _ (.findNode f) | .findEntry f | .findBucket f => f.CanRestart s
  | .findNext f => ∃ c a', th.a.cur = some c ∧
      Walks s (solNodeKey f.hashv) { th.a with next := s.heap.nextOf c, steps := 0 } a' ∧ f.CanEnd s a'
  | .findWalk f => ∃ a', Walks s (solNodeKey f.hashv) th.a a' ∧ f.CanEnd s a'
  | .insertSetNext hashv d | .insertCas hashv d => (FindCall.insertNode hashv d).CanRestart s
  | .deleteMark hashv => CanDelete s th.a hashv
  | .deleteUnlink _ => ∃ p c, th.a.prev = some p ∧ th.a.cur = some c ∧ (s.heap.node p).next = { ptr := some c }
  | _ => True

/-- Writes off the chain do not matter to a restart. -/
theorem FindCall.CanRestart.congr {s' : Solist T} {f : FindCall} (h : f.CanRestart s) (hm : Mem s l r)
    (hm' : Mem s' l r) (hnode : ∀ x ∈ l, s'.heap.node x = s.heap.node x) : f.CanRestart s' := by
  have hon : ∀ x, OnChain s' x ↔ OnChain s x := fun x => by rw [hm.onChain_iff, hm'.onChain_iff]
  have hlast : ∀ k c, Last s k c → Last s' k c := by
    intro k c hc
    have hcl := hm.onChain_iff.mp hc.onChain
    refine ⟨(hon c).mpr hc.onChain, by simpa [Heap.key, hnode c hcl] using hc.le, fun x hx => ?_⟩
    have hx : s.heap.nextOf c = some x := by simpa [nextOf, hnode c hcl] using hx
    have hxl : x ∈ l := by
      obtain ⟨A, B, rfl⟩ := List.append_of_mem hcl
      rw [hm.mesh.seg.next] at hx
      simp [List.mem_of_head? hx]
    simpa [Heap.key, hnode x hxl] using hc.next x hx
  cases f with
  | insertNode hashv d =>
    obtain ⟨c, hc, hcase⟩ := h
    have hcl := hm.onChain_iff.mp hc.onChain
    exact ⟨c, hlast _ c hc, by simpa [Heap.key, hnode c hcl] using hcase⟩
  | deleteNode hashv =>
    obtain ⟨c, hc, hcase⟩ := h
    have hcl := hm.onChain_iff.mp hc.onChain
    refine ⟨c, hlast _ c hc, hcase.imp (fun h => by simpa [Heap.key, hnode c hcl] using h) fun h => ?_⟩
    obtain ⟨hu, p, hp, hpn⟩ := h
    have hpl := hm.onChain_iff.mp hp
    exact ⟨by rw [hnode c hcl]; exact hu, p, (hon p).mpr hp, by rw [hnode p hpl]; exact hpn⟩
  | findItemNode hashv => trivial

/-- Where the search of a restarted call ends, and what that means for it. -/
theorem canEnd_iff {f : FindCall} {b : Addr} (hm : Mem s l r) (hh : f.hashv.toNat < 2 ^ 31)
    (hb : s.buckets[(f.hashv % s.nBuckets).toNat]? = some (some b)) (hc : a.cur = some b)
    (hn : a.next = s.heap.nextOf b)
    (h : Walks s (solNodeKey f.hashv) a a') : f.CanEnd s a' ↔ f.CanRestart s := by
  have hbl := (hm.slot _ _ hb).1
  have hbk := hm.key_bucket_lt hh hb
  obtain ⟨c, hcur, hlast, hnext, hprev⟩ := h.last hm hc hbl (BitVec.le_of_lt hbk) hn
  cases f with
  | insertNode hashv d =>
    refine ⟨fun h => h.elim (fun h => ?_) id, .inr⟩
    obtain ⟨c', hc', hk⟩ := h
    rw [hcur] at hc'
    cases hc'
    exact ⟨c, hlast, .inl hk⟩
  | deleteNode hashv =>
    by_cases hk : s.heap.key c = solNodeKey hashv
    · -- `prev` is the node before: a search does not end where it starts
      have hcb : c ≠ b := by
        rintro rfl
        rw [hk] at hbk
        exact BitVec.lt_irrefl _ hbk
      obtain ⟨p, hp, hpl, hpn⟩ := hprev.resolve_left fun h => hcb h.1
      have hmark : (s.heap.node c).next = { ptr := a'.next } ↔ (s.heap.node c).next.mark = false := by
        rw [hnext]
        exact ⟨fun h => by rw [h], next_eq_of_unmarked⟩
      constructor
      · intro h
        rcases h with ⟨c', hc', hk'⟩ | ⟨p', c', hp', hc', hcase⟩
        · rw [hcur] at hc'
          cases hc'
          exact ⟨c, hlast, .inl hk'⟩
        · rw [hcur] at hc'
          rw [hp] at hp'
          cases hc'
          cases hp'
          split at hcase
          · exact ⟨c, hlast, .inr ⟨hmark.mp ‹_›, p, hm.onChain_iff.mpr hpl, hcase⟩⟩
          · exact hcase
      · rintro ⟨c', hlast', hcase⟩
        obtain rfl := hlast.unique hlast' hm
        obtain ⟨hu, q, hq, hqn⟩ := hcase.resolve_left (not_not.mpr hk)
        refine .inr ⟨p, c, hp, hcur, ?_⟩
        rw [if_pos (hmark.mpr hu)]
        rw [← prev_unique hm (hm.onChain_iff.mp hq) hpl (nextOf_eq hqn) hpn]
        exact hqn
    · exact ⟨fun _ => ⟨c, hlast, .inl hk⟩, fun _ => .inl ⟨c, hcur, hk⟩⟩
  | findItemNode hashv => exact Iff.rfl

/-! ## A call that returns meets the condition -/

/-- A thread and the memory it runs on, with all buckets set. -/
structure Sound (s : Solist T) (l r : List Addr) (th : Thread) : Prop where
  mem : Mem s l r
  ok : th.Ok s l r
  set : AllSet s
  pc : ∀ i p, th.pc ≠ .init i p

theorem Sound.step {th : Thread} {e : Effect T} (h : Sound s l r th) (he : th.step s = some e) :
    ∃ l' r', Sound e.list l' r' e.thread := by
  obtain ⟨l', r', hk⟩ := Thread.step_keeps h.mem h.ok (Thread.undisturbed_of_pc h.pc) he
  obtain ⟨hb, hpc⟩ := Thread.step_settled h.set h.pc he
  exact ⟨l', r', hk.mem, hk.ok, fun i hi => by rw [hb] at hi ⊢; exact h.set i hi, hpc⟩

theorem canReturn_entry {f : FindCall} (hs : AllSet s) (hm : Mem s l r) :
    f.entry s a = goto s a (.findBucket f) := by
  obtain ⟨b, hb⟩ := hm.table.bucket (hm.table.umod_lt f.hashv)
  obtain ⟨b', hb'⟩ := hs _ (List.getElem?_eq_some_iff.mp hb).1
  simp only [FindCall.entry, hb']

/-- What the call does after its search meets the condition only if the search may end there. -/
theorem found_back {f : FindCall} {c : Addr} (hc : a.cur = some c)
    (h : (f.found s a (s.heap.key c == solNodeKey f.hashv)).thread.CanReturn
      (f.found s a (s.heap.key c == solNodeKey f.hashv)).list) : f.CanEnd s a := by
  cases f with
  | insertNode hashv d =>
    by_cases hk : s.heap.key c = solNodeKey hashv
    · exact .inl ⟨c, hc, hk⟩
    · have hb : (s.heap.key c == solNodeKey hashv) = false := by simpa using hk
      simp only [FindCall.found, FindCall.hashv, hb] at h
      exact .inr h
  | deleteNode hashv =>
    by_cases hk : s.heap.key c = solNodeKey hashv
    · have hb : (s.heap.key c == solNodeKey hashv) = true := by simpa using hk
      simp only [FindCall.found, FindCall.hashv, hb, if_true] at h
      exact .inr h
    · exact .inl ⟨c, hc, hk⟩
  | findItemNode hashv => trivial

theorem insertCas_back {hashv : Hash} {d : Addr} (h : Sound s l r ⟨a, .insertCas hashv d⟩)
    (hc : (insertCas hashv d s a).thread.CanReturn (insertCas hashv d s a).list) :
    (FindCall.insertNode hashv d).CanRestart s := by
  obtain ⟨-, ⟨c, hcur, hcl, hck⟩, hn, -⟩ := h.ok
  replace hcur : a.cur = some c := hcur
  by_cases hcas : (s.heap.node c).next = { ptr := a.next }
  · have hu : (s.heap.node c).next.mark = false := by rw [hcas]
    have hl := h.mem.mesh.mem_of_unmarked hcl hu
    exact ⟨c, ⟨h.mem.onChain_iff.mpr hl, BitVec.le_of_lt hck, fun x hx => (hn x ((nextOf_eq hcas).symm.trans hx)).2⟩,
      .inr hu⟩
  · simp only [insertCas, hcur, MarkPtr.cas_fail hcas, setNext_self] at hc
    exact hc

theorem deleteMark_back {hashv : Hash} (h : Sound s l r ⟨a, .deleteMark hashv⟩)
    (hc : (deleteMark hashv s a).thread.CanReturn (deleteMark hashv s a).list) : CanDelete s a hashv := by
  obtain ⟨-, ⟨c, hcur, hcl, hck⟩, ⟨p, hprev, hpl⟩, hn⟩ := h.ok
  replace hcur : a.cur = some c := hcur
  replace hprev : a.prev = some p := hprev
  refine ⟨p, c, hprev, hcur, ?_⟩
  by_cases hcas : (s.heap.node c).next = { ptr := a.next }
  · rw [if_pos hcas]
    simp only [deleteMark, hcur, MarkPtr.cas_ok hcas, if_true] at hc
    obtain ⟨p', c', hp', hc', hpn⟩ := hc
    obtain rfl : p = p' := by simpa [goto, hprev] using hp'
    obtain rfl : c = c' := by simpa [goto, hcur] using hc'
    -- `prev` is not the node that was marked
    by_cases hpc : p = c
    · subst hpc
      simp [goto] at hpn
    · simpa [goto, setNext_node_of_ne hpc] using hpn
  · rw [if_neg hcas]
    simp only [deleteMark, hcur, MarkPtr.cas_fail hcas, setNext_self] at hc
    exact hc

/-- A node that is marked and linked stops a delete of its hash. -/
theorem not_canRestart_delete {hashv : Hash} {c : Addr} (hm : Mem s l r) (hc : c ∈ l)
    (hk : s.heap.key c = solNodeKey hashv) (hmk : (s.heap.node c).next.mark = true) :
    ¬ (FindCall.deleteNode hashv).CanRestart s := by
  rintro ⟨c', hlast, hcase⟩
  obtain rfl := hlast.unique (Last.of_key hm hc hk) hm
  rcases hcase with h | ⟨hu, -⟩
  · exact h hk
  · rw [hmk] at hu
    cases hu

theorem deleteUnlink_back {hashv : Hash} (h : Sound s l r ⟨a, .deleteUnlink hashv⟩)
    (hc : (deleteUnlink hashv s a).thread.CanReturn (deleteUnlink hashv s a).list) :
    Thread.CanReturn s ⟨a, .deleteUnlink hashv⟩ := by
  obtain ⟨-, ⟨p, hprev, hpl⟩, c, hcur, hcl, hck, hcn⟩ := h.ok
  replace hcur : a.cur = some c := hcur
  replace hprev : a.prev = some p := hprev
  refine ⟨p, c, hprev, hcur, ?_⟩
  by_cases hcas : (s.heap.node p).next = { ptr := some c }
  · exact hcas
  · simp only [deleteUnlink, hcur, hprev, MarkPtr.cas_fail hcas, setNext_self, Bool.false_eq_true, if_false] at hc
    have hmk : (s.heap.node c).next.mark = true := by rw [hcn]
    exact absurd hc (not_canRestart_delete h.mem hcl hck hmk)

/-- **One step back.** If the condition holds after a step, it held before. -/
theorem canReturn_back {th : Thread} {e : Effect T} (h : Sound s l r th) (he : th.step s = some e)
    (hc : e.thread.CanReturn e.list) : th.CanReturn s := by
  obtain ⟨a, pc⟩ := th
  cases pc with
  | idle res => trivial
  | expand hashv => trivial
  | crashed => trivial
  | init i p => exact absurd rfl (h.pc i p)
  | initEntry slot k =>
    cases k with
    | findNode f =>
      cases he
      obtain ⟨b, hb⟩ := h.mem.table.bucket h.ok.1
      obtain ⟨b', hb'⟩ := h.set _ (List.getElem?_eq_some_iff.mp hb).1
      have hlt : slot < s.nBuckets := h.ok.1
      simp only [initEntry, hlt, not_true_eq_false, if_false, hb'] at hc
      exact hc
    | caller => trivial
    | insertNode => trivial
  | initReturn slot k =>
    cases k with
    | findNode f =>
      cases he
      exact hc
    | caller => trivial
    | insertNode => trivial
  | findEntry f =>
    cases he
    rw [canReturn_entry h.set h.mem] at hc
    exact hc
  | findBucket f =>
    cases he
    obtain ⟨hf, b, hb⟩ := h.ok
    simp only [FindCall.bucket, hb] at hc
    obtain ⟨c, a', hcur, hw, hend⟩ := hc
    obtain rfl : b = c := by simpa [goto] using hcur
    exact (canEnd_iff h.mem hf.1 hb rfl rfl hw).mp hend
  | findNext f =>
    cases he
    obtain ⟨hf, ⟨c, hcur, -⟩, -⟩ := h.ok
    replace hcur : a.cur = some c := hcur
    simp only [FindCall.next, hcur] at hc
    obtain ⟨a', hw, hend⟩ := hc
    exact ⟨c, a', hcur, by simpa [goto, hcur] using hw, hend⟩
  | findWalk f =>
    cases he
    obtain ⟨hf, ⟨c, hcur, hcl, hck⟩, -⟩ := h.ok
    replace hcur : a.cur = some c := hcur
    cases hn : a.next with
    | none =>
      simp only [FindCall.walk, hcur, hn] at hc
      exact ⟨a, .stop fun x hx => by simp [hn] at hx, found_back hcur hc⟩
    | some x =>
      by_cases hle : s.heap.key x ≤ solNodeKey f.hashv
      · simp only [FindCall.walk, hn, hle, if_true] at hc
        obtain ⟨a', hw, hend⟩ := hc
        exact ⟨a', .turn hn hle hw, hend⟩
      · simp only [FindCall.walk, hcur, hn, hle, if_false] at hc
        refine ⟨a, .stop fun y hy => ?_, found_back hcur hc⟩
        rw [hn] at hy
        cases hy
        exact BitVec.not_le.mp hle
  | insertSetNext hashv d =>
    obtain ⟨l', r', hs'⟩ := h.step he
    cases he
    obtain ⟨⟨-, hd⟩, -⟩ := h.ok
    have hm' := (insertSetNext_keeps h.mem h.ok).mem
    exact FindCall.CanRestart.congr (f := .insertNode hashv d) hc hm' h.mem fun x hx =>
      (setNext_node_of_ne fun hxd => hd.priv.notMem (by simp [← hxd, hx])).symm
  | insertCas hashv d =>
    cases he
    exact insertCas_back h hc
  | insertCount hashv => trivial
  | insertNext hashv => trivial
  | insertWalk hashv => trivial
  | insertCheck hashv => trivial
  | deleteMark hashv =>
    cases he
    exact deleteMark_back h hc
  | deleteUnlink hashv =>
    cases he
    exact deleteUnlink_back h hc
  | deleteCount hashv => trivial

/-- **A call that returns meets the condition.** -/
theorem Returns.canReturn {th : Thread} (h : Returns s th) (hs : Sound s l r th) : th.CanReturn s := by
  induction h generalizing l r with
  | @done s th hd =>
    obtain ⟨a, pc⟩ := th
    cases pc with
    | idle res => trivial
    | expand hashv => trivial
    | _ => exact absurd hd (by simp [Pc.Done])
  | step he _ ih =>
    obtain ⟨l', r', hs'⟩ := hs.step he
    exact canReturn_back hs he (ih hs')

/-! ## A call that meets the condition returns -/

theorem Sound.returns {th : Thread} {e : Effect T} (h : Sound s l r th) (he : th.step s = some e)
    (hk : ∀ l' r', Sound e.list l' r' e.thread → Returns e.list e.thread) : Returns s th := by
  obtain ⟨l', r', h'⟩ := h.step he
  exact .step he (hk l' r' h')

theorem Returns.idle {res : Option Res} : Returns s ⟨a, .idle res⟩ := .done trivial

theorem initReturn_returns {slot : Hash} {k : InitCaller} (hk : ∀ f, k ≠ .findNode f) :
    Returns s ⟨a, .initReturn slot k⟩ := by
  cases k with
  | findNode f => exact absurd rfl (hk f)
  | caller => exact .step rfl .idle
  | insertNode => exact .step rfl .idle

/-- With all buckets set `initialise_bucket` returns at once. -/
theorem initEntry_eq {slot : Hash} {k : InitCaller} (h : Sound s l r ⟨a, .initEntry slot k⟩) :
    initEntry slot k s a = goto s a (.initReturn slot k) := by
  obtain ⟨b, hb⟩ := h.mem.table.bucket h.ok.1
  obtain ⟨b', hb'⟩ := h.set _ (List.getElem?_eq_some_iff.mp hb).1
  have hlt : slot < s.nBuckets := h.ok.1
  simp only [initEntry, hlt, not_true_eq_false, if_false, hb']

theorem initEntry_returns {slot : Hash} {k : InitCaller} (h : Sound s l r ⟨a, .initEntry slot k⟩)
    (hk : ∀ f, k ≠ .findNode f) : Returns s ⟨a, .initEntry slot k⟩ := by
  refine .step rfl ?_
  rw [initEntry_eq h]
  exact initReturn_returns hk

theorem insertCheck_cases (hashv : Hash) :
    insertCheck hashv s a = goto s a (.expand hashv) ∨
      (∃ slot, insertCheck hashv s a = goto s a (.initEntry slot .insertNode)) ∨
      insertCheck hashv s a = goto s a.zap (.idle (some (.bool true))) := by
  simp only [insertCheck]
  split
  · split
    · exact .inl rfl
    · split
      · exact .inr (.inl ⟨_, rfl⟩)
      · exact .inr (.inr rfl)
  · exact .inr (.inr rfl)

theorem insertCheck_returns {hashv : Hash} (h : Sound s l r ⟨a, .insertCheck hashv⟩) :
    Returns s ⟨a, .insertCheck hashv⟩ := by
  refine h.returns rfl fun l' r' h' => ?_
  rcases insertCheck_cases (s := s) (a := a) hashv with heq | ⟨slot, heq⟩ | heq
  · rw [heq]
    exact .done trivial
  · rw [heq] at h' ⊢
    exact initEntry_returns h' fun f hf => by cases hf
  · rw [heq]
    exact .idle

theorem insertWalk_returns {hashv : Hash} (h : Sound s l r ⟨a, .insertWalk hashv⟩) :
    Returns s ⟨a, .insertWalk hashv⟩ := by
  have hall : ∀ l r, Sound s l r ⟨a, .insertWalk hashv⟩ → Returns s ⟨a, .insertWalk hashv⟩ := by
    refine next_induction (P := fun a => ∀ l r, Sound s l r ⟨a, .insertWalk hashv⟩ → Returns s ⟨a, .insertWalk hashv⟩)
      h.mem (fun a _ ih l r h => h.returns rfl fun l' r' h' => ?_) h.ok.2
    cases hx : a.next with
    | none =>
      simp only [insertWalk, hx] at h' ⊢
      exact insertCheck_returns h'
    | some c =>
      simp only [insertWalk, hx] at h' ⊢
      by_cases hd : (s.heap.node c).isNode
      · simp only [hd, if_true] at h' ⊢
        exact ih c _ hx rfl _ _ h'
      · simp only [hd] at h' ⊢
        exact insertCheck_returns h'
  exact hall l r h

theorem insertNext_returns {hashv : Hash} (h : Sound s l r ⟨a, .insertNext hashv⟩) :
    Returns s ⟨a, .insertNext hashv⟩ := by
  obtain ⟨c, hcur, -⟩ := h.ok
  refine h.returns rfl fun l' r' h' => ?_
  simp only [insertNext, show a.cur = some c from hcur] at h' ⊢
  exact insertWalk_returns h'

theorem insertCount_returns {hashv : Hash} (h : Sound s l r ⟨a, .insertCount hashv⟩) :
    Returns s ⟨a, .insertCount hashv⟩ :=
  h.returns rfl fun _ _ h' => insertNext_returns h'

/-- The link `CAS` of an insert that finds `cur` as it left it. -/
theorem insertCas_returns {hashv : Hash} {d c : Addr} (h : Sound s l r ⟨a, .insertCas hashv d⟩) (hcur : a.cur = some c)
    (hcas : (s.heap.node c).next = { ptr := a.next }) : Returns s ⟨a, .insertCas hashv d⟩ := by
  refine h.returns rfl fun l' r' h' => ?_
  simp only [insertCas, hcur, MarkPtr.cas_ok hcas, if_true] at h' ⊢
  exact insertCount_returns h'

theorem insertSetNext_returns {hashv : Hash} {d c : Addr} (h : Sound s l r ⟨a, .insertSetNext hashv d⟩)
    (hcur : a.cur = some c) (hcl : c ∈ l) (hcas : (s.heap.node c).next = { ptr := a.next }) :
    Returns s ⟨a, .insertSetNext hashv d⟩ := by
  refine h.returns rfl fun l' r' h' => insertCas_returns h' hcur ?_
  have hcd : c ≠ d := by
    rintro rfl
    exact h.ok.1.2.priv.notMem (by simp [hcl])
  simpa [goto, setNext_node_of_ne hcd] using hcas

/-- The two `CAS` of a delete that finds `cur` and `prev` as it left them. -/
theorem deleteUnlink_returns {hashv : Hash} {p c : Addr} (hprev : a.prev = some p) (hcur : a.cur = some c)
    (hcas : (s.heap.node p).next = { ptr := some c }) : Returns s ⟨a, .deleteUnlink hashv⟩ := by
  refine .step rfl ?_
  simp only [deleteUnlink, hcur, hprev, MarkPtr.cas_ok hcas, if_true, goto]
  refine .step rfl ?_
  simp only [deleteCount, hcur]
  exact .idle

theorem deleteMark_returns {hashv : Hash} {p c : Addr} (hm : Mem s l r) (hc : c ∈ l) (hprev : a.prev = some p)
    (hcur : a.cur = some c) (hmark : (s.heap.node c).next = { ptr := a.next })
    (hcas : (s.heap.node p).next = { ptr := some c }) : Returns s ⟨a, .deleteMark hashv⟩ := by
  refine .step rfl ?_
  simp only [deleteMark, hcur, MarkPtr.cas_ok hmark, if_true]
  refine deleteUnlink_returns hprev hcur ?_
  have hpc : p ≠ c := by
    rintro rfl
    exact BitVec.lt_irrefl _ (hm.mesh.next_mem (by simp [hc]) (nextOf_eq hcas)).2
  simpa [goto, setNext_node_of_ne hpc] using hcas

/-- The search of a sound call stays sound. -/
theorem Walks.sound {f : FindCall} (h : Walks s (solNodeKey f.hashv) a a') (hs : Sound s l r ⟨a, .findWalk f⟩) :
    Sound s l r ⟨a', .findWalk f⟩ ∧ ∀ x, a'.next = some x → solNodeKey f.hashv < s.heap.key x := by
  obtain ⟨hf, hc, hp, hn⟩ := hs.ok
  obtain ⟨hc', hp', hn'⟩ := h.known hs.mem hc hp hn
  exact ⟨⟨hs.mem, ⟨hf, hc', hp', fun x hx => (hn' x hx).1⟩, hs.set, fun i p hi => by cases hi⟩,
    fun x hx => (hn' x hx).2⟩

/-- The last step of a search. -/
theorem walk_end {f : FindCall} {c : Addr} (hcur : a.cur = some c)
    (hn : ∀ x, a.next = some x → solNodeKey f.hashv < s.heap.key x) :
    f.walk s a = f.found s a (s.heap.key c == solNodeKey f.hashv) := by
  cases hx : a.next with
  | none => simp only [FindCall.walk, hx, hcur]
  | some x => simp only [FindCall.walk, hx, hcur, BitVec.not_le.mpr (hn x hx), if_false]

/-- A call returns if it does so from the end of its search. -/
theorem Walks.returns {f : FindCall} (h : Walks s (solNodeKey f.hashv) a a') (hr : Returns s ⟨a', .findWalk f⟩) :
    Returns s ⟨a, .findWalk f⟩ := by
  induction h with
  | stop => exact hr
  | turn hx hle _ ih =>
    refine .step rfl ?_
    simp only [FindCall.walk, hx, hle, if_true]
    exact ih hr

/-- What is left after a search. -/
theorem found_returns {f : FindCall} {c : Addr} (h : Sound s l r ⟨a, .findWalk f⟩) (hcur : a.cur = some c)
    (hn : ∀ x, a.next = some x → solNodeKey f.hashv < s.heap.key x)
    (hins : ∀ hashv d l r, f = .insertNode hashv d → s.heap.key c ≠ solNodeKey hashv →
      Sound s l r ⟨a, .insertSetNext hashv d⟩ → Returns s ⟨a, .insertSetNext hashv d⟩)
    (hdel : ∀ hashv l r, f = .deleteNode hashv → s.heap.key c = solNodeKey hashv →
      Sound s l r ⟨a, .deleteMark hashv⟩ → Returns s ⟨a, .deleteMark hashv⟩) : Returns s ⟨a, .findWalk f⟩ := by
  refine h.returns rfl fun l' r' h' => ?_
  rw [walk_end hcur hn] at h' ⊢
  by_cases hk : s.heap.key c = solNodeKey f.hashv
  · have hb : (s.heap.key c == solNodeKey f.hashv) = true := by simpa using hk
    rw [hb] at h' ⊢
    cases f with
    | insertNode hashv d => exact .idle
    | deleteNode hashv => exact hdel hashv l' r' rfl hk h'
    | findItemNode hashv => exact .idle
  · have hb : (s.heap.key c == solNodeKey f.hashv) = false := by simpa using hk
    rw [hb] at h' ⊢
    cases f with
    | insertNode hashv d => exact hins hashv d l' r' rfl hk h'
    | deleteNode hashv => exact .idle
    | findItemNode hashv => exact .idle

/-- A call that starts its search again returns. -/
theorem findBucket_returns {f : FindCall} (h : Sound s l r ⟨a, .findBucket f⟩) (hf : f.CanRestart s) :
    Returns s ⟨a, .findBucket f⟩ := by
  obtain ⟨hok, b, hb⟩ := h.ok
  have hbl := (h.mem.slot _ _ hb).1
  have hbk := h.mem.key_bucket_lt hok.1 hb
  refine h.returns rfl fun l₁ r₁ h₁ => ?_
  simp only [FindCall.bucket, hb] at h₁ ⊢
  refine h₁.returns rfl fun l₂ r₂ h₂ => ?_
  simp only [FindCall.next, goto] at h₂ ⊢
  obtain ⟨a', hw⟩ : ∃ a', Walks _ (solNodeKey f.hashv) _ a' := walks_total h₂.mem h₂.ok.2.2.2
  obtain ⟨h', hn'⟩ := hw.sound h₂
  obtain ⟨c, hcur, hlast, hnext, hprev⟩ := hw.last h.mem rfl hbl (BitVec.le_of_lt hbk) rfl
  refine hw.returns (found_returns h' hcur hn' ?_ ?_)
  · rintro hashv d l₃ r₃ rfl hk h₃
    obtain ⟨c', hlast', hcase⟩ := hf
    obtain rfl := hlast.unique hlast' h.mem
    have hu := next_eq_of_unmarked (hcase.resolve_left hk)
    exact insertSetNext_returns h₃ hcur (h₃.mem.onChain_iff.mp hlast.onChain) (by rw [hnext]; exact hu)
  · rintro hashv l₃ r₃ rfl hk h₃
    -- the search has moved on from the bucket, so `prev` is the node before
    have hcb : c ≠ b := by
      rintro rfl
      rw [hk] at hbk
      exact BitVec.lt_irrefl _ hbk
    obtain ⟨p, hp, hpl, hpn⟩ := hprev.resolve_left fun h => hcb h.1
    obtain ⟨c', hlast', hcase⟩ := hf
    obtain rfl := hlast.unique hlast' h.mem
    obtain ⟨hu, q, hq, hqn⟩ := hcase.resolve_left (not_not.mpr hk)
    obtain rfl := prev_unique h.mem (h.mem.onChain_iff.mp hq) hpl (nextOf_eq hqn) hpn
    exact deleteMark_returns h.mem (h.mem.onChain_iff.mp hlast.onChain) hp hcur
      (by rw [hnext]; exact next_eq_of_unmarked hu) hqn

theorem findEntry_returns {f : FindCall} (h : Sound s l r ⟨a, .findEntry f⟩) (hf : f.CanRestart s) :
    Returns s ⟨a, .findEntry f⟩ := by
  refine h.returns rfl fun l' r' h' => ?_
  rw [canReturn_entry h.set h.mem] at h' ⊢
  exact findBucket_returns h' hf

/-- The link `CAS` of an insert, and the search after it if it fails. -/
theorem insertCas_returns' {hashv : Hash} {d : Addr} (h : Sound s l r ⟨a, .insertCas hashv d⟩)
    (hf : (FindCall.insertNode hashv d).CanRestart s) : Returns s ⟨a, .insertCas hashv d⟩ := by
  obtain ⟨-, ⟨c, hcur, -⟩, -⟩ := h.ok
  replace hcur : a.cur = some c := hcur
  by_cases hcas : (s.heap.node c).next = { ptr := a.next }
  · exact insertCas_returns h hcur hcas
  · refine h.returns rfl fun l' r' h' => ?_
    simp only [insertCas, hcur, MarkPtr.cas_fail hcas, setNext_self, Bool.false_eq_true, if_false] at h' ⊢
    exact findEntry_returns h' hf

theorem insertSetNext_returns' {hashv : Hash} {d : Addr} (h : Sound s l r ⟨a, .insertSetNext hashv d⟩)
    (hf : (FindCall.insertNode hashv d).CanRestart s) : Returns s ⟨a, .insertSetNext hashv d⟩ := by
  refine h.returns rfl fun l' r' h' => insertCas_returns' h' ?_
  have hm' := (insertSetNext_keeps h.mem h.ok).mem
  refine hf.congr h.mem hm' fun x hx => setNext_node_of_ne fun hxd => ?_
  exact h.ok.1.2.priv.notMem (by simp [← hxd, hx])

theorem deleteMark_returns' {hashv : Hash} (h : Sound s l r ⟨a, .deleteMark hashv⟩) (hf : CanDelete s a hashv) :
    Returns s ⟨a, .deleteMark hashv⟩ := by
  obtain ⟨p, c, hprev, hcur, hcase⟩ := hf
  obtain ⟨-, ⟨c', hcur', hcl, -⟩, -⟩ := h.ok
  obtain rfl : c' = c := by
    rw [show a.cur = some c' from hcur'] at hcur
    exact Option.some.inj hcur
  split at hcase
  · have hl := h.mem.mesh.mem_of_unmarked hcl (by rw [‹(s.heap.node c').next = _›])
    exact deleteMark_returns h.mem hl hprev hcur ‹_› hcase
  · refine h.returns rfl fun l' r' h' => ?_
    simp only [deleteMark, hcur, MarkPtr.cas_fail ‹_›, setNext_self, Bool.false_eq_true, if_false] at h' ⊢
    exact findEntry_returns h' hcase

theorem findWalk_returns {f : FindCall} (h : Sound s l r ⟨a, .findWalk f⟩) (hw : Walks s (solNodeKey f.hashv) a a')
    (hf : f.CanEnd s a') : Returns s ⟨a, .findWalk f⟩ := by
  obtain ⟨h', hn'⟩ := hw.sound h
  obtain ⟨-, ⟨c, hcur, -⟩, -⟩ := h'.ok
  replace hcur : a'.cur = some c := hcur
  refine hw.returns (found_returns h' hcur hn' ?_ ?_)
  · rintro hashv d l₁ r₁ rfl hk h₁
    refine insertSetNext_returns' h₁ (hf.resolve_left ?_)
    rintro ⟨c', hc', hk'⟩
    rw [hcur] at hc'
    cases hc'
    exact hk hk'
  · rintro hashv l₁ r₁ rfl hk h₁
    refine deleteMark_returns' h₁ (hf.resolve_left ?_)
    rintro ⟨c', hc', hk'⟩
    rw [hcur] at hc'
    cases hc'
    exact hk' hk

/-- **A call that meets the condition returns.** -/
theorem Sound.returns_of_canReturn {th : Thread} (h : Sound s l r th) (hc : th.CanReturn s) : Returns s th := by
  obtain ⟨a, pc⟩ := th
  cases pc with
  | idle res => exact .idle
  | expand hashv => exact .done trivial
  | crashed => exact absurd h.ok id
  | init i p => exact absurd rfl (h.pc i p)
  | initEntry slot k =>
    refine h.returns rfl fun l' r' h' => ?_
    rw [initEntry_eq h] at h' ⊢
    cases k with
    | findNode f => exact h'.returns rfl fun _ _ h'' => findBucket_returns h'' hc
    | caller => exact initReturn_returns fun f hf => by cases hf
    | insertNode => exact initReturn_returns fun f hf => by cases hf
  | initReturn slot k =>
    cases k with
    | findNode f => exact h.returns rfl fun _ _ h' => findBucket_returns h' hc
    | caller => exact initReturn_returns fun f hf => by cases hf
    | insertNode => exact initReturn_returns fun f hf => by cases hf
  | findEntry f => exact findEntry_returns h hc
  | findBucket f => exact findBucket_returns h hc
  | findNext f =>
    obtain ⟨c, a', hcur, hw, hend⟩ := hc
    replace hcur : a.cur = some c := hcur
    have heq : f.next s a = goto s { a with next := s.heap.nextOf c, steps := 0 } (.findWalk f) := by
      simp only [FindCall.next, hcur]
    refine h.returns rfl fun l' r' h' => ?_
    rw [heq] at h' ⊢
    exact findWalk_returns h' hw hend
  | findWalk f =>
    obtain ⟨a', hw, hend⟩ := hc
    exact findWalk_returns h hw hend
  | insertSetNext hashv d => exact insertSetNext_returns' h hc
  | insertCas hashv d => exact insertCas_returns' h hc
  | insertCount hashv => exact insertCount_returns h
  | insertNext hashv => exact insertNext_returns h
  | insertWalk hashv => exact insertWalk_returns h
  | insertCheck hashv => exact insertCheck_returns h
  | deleteMark hashv => exact deleteMark_returns' h hc
  | deleteUnlink hashv =>
    obtain ⟨p, c, hprev, hcur, hcas⟩ := hc
    exact deleteUnlink_returns hprev hcur hcas
  | deleteCount hashv =>
    obtain ⟨c, hcur, -⟩ := h.ok
    refine .step rfl ?_
    simp only [deleteCount, show a.cur = some c from hcur]
    exact .idle

/-! ## Obstruction freedom -/

/-- **When a call returns alone.** With all buckets set, in every state of
every run: a thread that runs alone comes to the end of its call if and only
if `Thread.CanReturn` holds. -/
theorem returns_alone_iff {n : Nat} {σ : State T n} {ops : Op T → Bool} (h : (machine T n AllSet ops).Reachable σ)
    (t : Fin n) :
    (∃ k σ', (machine T n AllSet ops).run σ (List.replicate k (.step t)) = some σ' ∧ (σ'.thread t).pc.Done) ↔
      (σ.thread t).CanReturn σ.list := by
  obtain ⟨hrun, hset⟩ := settled_run h
  obtain ⟨l, r, hi⟩ := run_inv hrun
  have hs : Sound σ.list l r (σ.thread t) := ⟨hi.mem, hi.thread t, hset.set, hset.pc t⟩
  rw [returns_iff_run]
  exact ⟨fun hr => hr.canReturn hs, hs.returns_of_canReturn⟩

/-- The two calls that change the chain. -/
def Op.isUpdate : Op T → Bool
  | .insertNode .. | .deleteNode _ => true
  | _ => false

/-- Thread 1 inserts 5, thread 0 deletes it up to its unlink `CAS`. -/
def deleteRun : List (Event Nat 2) :=
  .call 1 (.insertNode 5 7) :: List.replicate 11 (.step 1) ++ .call 0 (.deleteNode 5) :: List.replicate 6 (.step 0)

/-- Nothing has come between the two `CAS` of the delete: it returns. -/
theorem returns_alone_delete :
    ∃ σ : State Nat 2, (machine Nat 2 AllSet Op.isUpdate).Reachable σ ∧ (σ.thread 0).pc = .deleteUnlink 5 ∧
      ∃ k σ', (machine Nat 2 AllSet Op.isUpdate).run σ (List.replicate k (.step 0)) = some σ' ∧
        (σ'.thread 0).pc.Done := by
  obtain ⟨s, hs, hinit⟩ := fresh_init (T := Nat) (n := 2) 1 4 AllSet Op.isUpdate ⟨0, by decide, rfl⟩
    fun _ h => create_one_allSet h
  have hrun : ((machine Nat 2 AllSet Op.isUpdate).run (fresh 2 s) deleteRun).map
      (fun σ => ((σ.thread 0).pc, (σ.thread 0).a.prev, (σ.thread 0).a.cur, (σ.list.heap.node 0).next)) =
        some (.deleteUnlink 5, some 0, some 1, { ptr := some 1 }) := by
    cases hs
    decide +kernel
  obtain ⟨σ, hσ, hfacts⟩ := Option.map_eq_some_iff.mp hrun
  simp only [Prod.mk.injEq] at hfacts
  obtain ⟨hpc, hprev, hcur, hnext⟩ := hfacts
  have hreach := System.run_reachable (.init hinit) hσ
  refine ⟨σ, hreach, hpc, (returns_alone_iff hreach 0).mpr ?_⟩
  simp only [Thread.CanReturn, hpc]
  exact ⟨0, 1, hprev, hcur, hnext⟩

/-- Thread 1 links 1 between the two `CAS` of the delete. The node of 5 is
marked and `prev` no longer points to it: the delete runs for ever. -/
theorem delete_never_returns :
    ∃ σ : State Nat 2, (machine Nat 2 AllSet Op.isUpdate).Reachable σ ∧ (σ.thread 0).pc = .deleteUnlink 5 ∧
      ∀ k σ', (machine Nat 2 AllSet Op.isUpdate).run σ (List.replicate k (.step 0)) = some σ' →
        ¬ (σ'.thread 0).pc.Done := by
  obtain ⟨s, hs, hinit⟩ := fresh_init (T := Nat) (n := 2) 1 4 AllSet Op.isUpdate ⟨0, by decide, rfl⟩
    fun _ h => create_one_allSet h
  have hrun : ((machine Nat 2 AllSet Op.isUpdate).run (fresh 2 s)
      (deleteRun ++ .call 1 (.insertNode 1 7) :: List.replicate 12 (.step 1))).map
      (fun σ => ((σ.thread 0).pc, (σ.thread 0).a.prev, (σ.list.heap.node 0).next, (σ.thread 0).a.cur,
        (σ.thread 1).pc.isIdle)) =
        some (.deleteUnlink 5, some 0, { ptr := some 2 }, some 1, true) := by
    cases hs
    decide +kernel
  obtain ⟨σ, hσ, hfacts⟩ := Option.map_eq_some_iff.mp hrun
  simp only [Prod.mk.injEq] at hfacts
  obtain ⟨hpc, hprev, hnext, hcur, -⟩ := hfacts
  have hreach := System.run_reachable (.init hinit) hσ
  obtain ⟨hrun', hset⟩ := settled_run hreach
  obtain ⟨l, r, hi⟩ := run_inv hrun'
  refine ⟨σ, hreach, hpc, fun k σ' hk hdone => ?_⟩
  have hret := (returns_iff_run.mp ⟨k, σ', hk, hdone⟩).canReturn ⟨hi.mem, hi.thread 0, hset.set, hset.pc 0⟩
  simp only [Thread.CanReturn, hpc] at hret
  obtain ⟨p, c, hp, hc, hpn⟩ := hret
  rw [hprev] at hp
  cases hp
  rw [hnext] at hpn
  rw [hcur] at hc
  cases hc
  cases hpn

end Concurrent

end SplitOrder
