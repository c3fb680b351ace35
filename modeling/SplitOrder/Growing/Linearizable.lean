/-
A list whose table grows is linearizable.

The steps of a thread are turns of its shadow, so what is seen of the calls
is a history of the map as it is on a table that stays; the doubling of the
table is a step that shows nothing.
-/
import SplitOrder.Growing.Safety
import SplitOrder.Concurrent.Linearizable

namespace SplitOrder

namespace Growing

open Heap Solist
open Concurrent (FindCall InitCall InitCaller InitPc Mem Stage Turn Writes Passes Follows bindings contents)

variable {T : Type} {n : Nat} {s s' : Solist T} {l r l' r' : List Addr} {a : Accessor} {σ σ' : State T n}

/-! ## Turns -/

section Turns

variable {th : Thread} {e : Solist T × Thread} {x : Since (Op T) (View T) (Hash → Option T)}

/-- What a step but the doubling does to the heap. -/
theorem step_writes (hk : th.Knows s l r) (hne : ∀ c, th.pc ≠ .expandReplace c) (he : th.step s = some e) :
    Writes s l r e.1.heap := by
  obtain ⟨a, pc, nbuckets⟩ := th
  cases pc with
  | core pc =>
    cases pc with
    | init i pc =>
      cases he
      obtain ⟨s', a', q, hstep, -⟩ := init_step i s a hk.slots.pc.2.2
      have hw := Concurrent.init_writes hk.bare.2
      have hown : i.step s a pc = Concurrent.goto s' a' (q.pc i) := hstep i.caller
      simp only [Thread.bare, hstep] at hw
      rw [hown]
      exact hw
    | initReturn slot k =>
      cases k <;> cases he <;> exact .same
    | _ =>
      simp only [Thread.step, Option.map_eq_some_iff] at he
      obtain ⟨E, hE, rfl⟩ := he
      exact Concurrent.Thread.step_writes (hk.quiet (by simp) (by simp)) hE
  | initTest slot k =>
    cases he
    unfold Thread.initTest
    split
    · exact .same
    · exact .same
    · split
      · exact .same
      · exact .new
  | findTest c slot | findBucket c slot | parent i =>
    simp only [Thread.step] at he
    split at he <;> cases he <;> exact .same
  | probe i keyStep pbKey =>
    cases he
    unfold Thread.probe
    dsimp only
    split
    · exact .same
    · split <;> exact .same
  | findSlot c =>
    cases he
    exact .same
  | expandReplace c => exact absurd rfl (hne c)
  | _ =>
    cases he
    split <;> exact .same

/-- A step of the search for a slot, or of the expansion check, to a point of the same stage. -/
theorem turn_move {th' : Thread} (h : th.shadow.Stands s l r x) (hcore : ∀ pc, th.pc ≠ .core pc)
    (hst : th'.pc.shadow.stage = th.pc.shadow.stage) (hne : th'.pc.shadow.stage ≠ .idle)
    (hsees : ∀ M K, th'.pc.shadow.Sees s M K th'.a) : Turn s l r x (th.effect s (s', th')) := by
  obtain ⟨a, pc, nbuckets⟩ := th
  have hmove : Turn s l r x (Concurrent.goto s' th'.a th'.pc.shadow) := Turn.move h hst hne hsees
  cases pc with
  | core pc => exact absurd rfl (hcore pc)
  | _ => exact hmove

/-- A step of `Concurrent.Model` outside `initialise_bucket`. -/
theorem turn_quiet {pc : Concurrent.Pc} {nbuckets : Hash} {E : Concurrent.Effect T} (hm : Mem s l r)
    (hk : (Thread.mk a (.core pc) nbuckets).Knows s l r) (h : (Concurrent.Thread.mk a pc).Stands s l r x)
    (hinit : ∀ i p, pc ≠ .init i p) (hret : ∀ slot k, pc ≠ .initReturn slot k)
    (he : (Concurrent.Thread.mk a pc).step s = some E) (hne : resume E.thread.pc ≠ .core .crashed) :
    Turn s l r x (Thread.effect ⟨a, .core pc, nbuckets⟩ s (E.list, ⟨E.thread.a, resume E.thread.pc, nbuckets⟩)) := by
  have hq := quiet_step hk.slots.pc hinit hret he
  rw [effect_quiet he hq.plain]
  refine Concurrent.Thread.step_turn hm (hk.quiet hinit hret) h he fun hpc => hne ?_
  rw [hpc]
  rfl

/-- The points of `Concurrent.Model`. -/
theorem turn_core {pc : Concurrent.Pc} {nbuckets : Hash} (hm : Mem s l r)
    (hk : (Thread.mk a (.core pc) nbuckets).Knows s l r) (h : (Concurrent.Thread.mk a pc).Stands s l r x)
    (he : (Thread.mk a (.core pc) nbuckets).step s = some e) (hne : e.2.pc ≠ .core .crashed) :
    Turn s l r x (Thread.effect ⟨a, .core pc, nbuckets⟩ s e) := by
  cases pc with
  | init i pc =>
    cases he
    obtain ⟨s', a', q, hstep, hprobe⟩ := init_step i s a hk.slots.pc.2.2
    have hown : i.step s a pc = Concurrent.goto s' a' (q.pc i) := hstep i.caller
    have hshadow : (resume (q.pc i)).shadow = q.pc i := InitNext.shadow_resume hk.bare.1.key hprobe
    have hturn : Turn s l r x (i.step s a pc) := by
      refine Concurrent.init_turn h fun hpc => hne ?_
      simp only [hpc]
      rfl
    have heq : Thread.effect ⟨a, .core (.init i pc), nbuckets⟩ s (s', ⟨a', resume (q.pc i), nbuckets⟩) =
        i.step s a pc := by
      simp only [Thread.effect, Concurrent.Thread.step, hown, Option.bind_some, Thread.shadow, hshadow]
      rfl
    rw [hown] at heq hturn ⊢
    exact heq.symm ▸ hturn
  | initReturn slot k =>
    cases k with
    | findNode c =>
      cases he
      exact Turn.move h rfl Stage.noConfusion fun _ _ => trivial
    | caller =>
      cases he
      exact Concurrent.initReturn_turn h
    | insertNode =>
      cases he
      exact Concurrent.initReturn_turn h
  | _ =>
    simp only [Thread.step, Option.map_eq_some_iff] at he
    obtain ⟨E, hE, rfl⟩ := he
    exact turn_quiet hm hk h (by simp) (by simp) hE hne

/-- **A thread's step is a turn of its call.** -/
theorem step_turn (hm : Mem s l r) (hk : th.Knows s l r) (h : th.shadow.Stands s l r x) (he : th.step s = some e)
    (hne : e.2.pc ≠ .core .crashed) : Turn s l r x (th.effect s e) := by
  obtain ⟨a, pc, nbuckets⟩ := th
  cases pc with
  | core pc => exact turn_core hm hk h he hne
  | findSlot c =>
    cases he
    exact turn_move h (by simp) rfl Stage.noConfusion fun _ _ => trivial
  | findTest c slot =>
    simp only [Thread.step] at he
    split at he
    · cases he
      exact absurd rfl hne
    · cases he
      exact turn_move h (by simp) rfl Stage.noConfusion fun _ _ => trivial
    · cases he
      exact turn_move h (by simp) rfl Stage.noConfusion fun _ _ => trivial
  | findBucket c slot =>
    obtain ⟨⟨b, hb⟩, -⟩ := hk.carries
    simp only [Thread.step, hb, Option.some.injEq] at he
    subst he
    have hsearch : Turn s l r x (Concurrent.goto s { a with prev := some b, cur := some b } (.findNext c)) := by
      refine Turn.search h rfl rfl fun M K hsaw _ y hy => ?_
      cases hy
      exact hsaw.chain b (hm.slot _ _ hb).1
    exact hsearch
  | initAssert slot k =>
    cases he
    split
    · exact turn_move h (by simp) rfl (InitCaller.stage_ne_idle _ _) fun _ _ => trivial
    · rename_i hlt
      simp only [hlt, if_false] at hne
      exact absurd rfl hne
  | initTest slot k =>
    cases he
    revert hne
    unfold Thread.initTest
    split
    · exact fun hne => absurd rfl hne
    · exact fun _ => turn_move h (by simp) rfl (InitCaller.stage_ne_idle _ _) fun _ _ => trivial
    · split
      · exact fun hne => absurd rfl hne
      · exact fun _ => turn_move h (by simp) rfl (InitCaller.stage_ne_idle _ _) fun _ _ => trivial
  | parent i =>
    simp only [Thread.step] at he
    split at he
    · cases he
      exact absurd rfl hne
    · cases he
      exact turn_move h (by simp) rfl (InitCaller.stage_ne_idle _ _) fun _ _ => trivial
  | probe i keyStep pbKey =>
    cases he
    revert hne
    unfold Thread.probe
    dsimp only
    split
    · exact fun hne => absurd rfl hne
    · split <;> exact fun _ => turn_move h (by simp) rfl (InitCaller.stage_ne_idle _ _) fun _ _ => trivial
  | insertCheck hashv =>
    cases he
    split
    · exact turn_move h (by simp) rfl Stage.noConfusion fun _ _ => trivial
    · exact Turn.finish h rfl
  | insertItems c =>
    cases he
    split <;> exact turn_move h (by simp) rfl Stage.noConfusion fun _ _ => trivial
  | insertFull c nItems =>
    cases he
    split <;> exact turn_move h (by simp) rfl Stage.noConfusion fun _ _ => trivial
  | splitTest ibSlot =>
    cases he
    split
    · exact turn_move h (by simp) rfl Stage.noConfusion fun _ _ => trivial
    · exact Turn.finish h rfl
  | expandTest c =>
    cases he
    split <;> exact turn_move h (by simp) rfl Stage.noConfusion fun _ _ => trivial
  | expandReplace c =>
    simp only [Thread.step] at he
    split at he
    · cases he
      exact absurd rfl hne
    · cases he
      exact turn_move h (by simp) rfl Stage.noConfusion fun _ _ => trivial

end Turns

/-! ## Runs -/

/-- What a step shows of the calls. -/
def shown (e : Concurrent.Event T n) (σ' : State T n) : List (Seen (Fin n) (Op T) (View T)) :=
  match e with
  | .call t op => [.call t op]
  | .step t =>
    match (σ'.thread t).pc with
    | .core (.idle (some res)) => [.ret t (res.view σ'.list.heap)]
    | _ => []

/-- A run, with what was seen of the calls. -/
structure Recorded (T : Type) (n : Nat) where
  now : State T n
  history : List (Seen (Fin n) (Op T) (View T)) := []

def recorded (T : Type) (n : Nat) (size bucketLength : Hash) : System (Recorded T n) (Concurrent.Event T n) where
  init ρ := (calls T n size bucketLength).init ρ.now ∧ ρ.history = []
  next ρ e :=
    ((calls T n size bucketLength).next ρ.now e).map fun σ => { now := σ, history := ρ.history ++ shown e σ }

/-- The run so far is one of the map, whose calls may be answered late. -/
structure Tracks (ρ : Recorded T n) (l r : List Addr) (ph : Fin n → Since (Op T) (View T) (Hash → Option T)) : Prop where
  whole : Whole ρ.now l r
  follows : Follows (fun _ => none) ρ.history ρ.now.list (fun t => (ρ.now.thread t).shadow) l r ph

section Runs

variable {size bucketLength : Hash} {ρ : Recorded T n} {ph : Fin n → Since (Op T) (View T) (Hash → Option T)} {t : Fin n}
  {e : Solist T × Thread}

theorem shown_step {th : Thread} : shown (.step t) (σ.apply t e) = (th.effect s e).shows t := by
  obtain ⟨s', a, pc, nbuckets⟩ := e
  simp only [shown, State.apply_self]
  cases pc with
  | core pc =>
    cases pc with
    | idle res => cases res <;> rfl
    | _ => rfl
  | _ => rfl

theorem shadow_apply {th : Thread} : (fun u => ((σ.apply t e).thread u).shadow) =
    Function.update (fun u => (σ.thread u).shadow) t (th.effect s e).thread := by
  funext u
  by_cases hu : u = t
  · rw [hu, State.apply_self, Function.update_self]
    rfl
  · rw [State.apply_of_ne hu, Function.update_of_ne hu]

theorem passes_doubled (hm : Mem s l r) (hlt : s.nBuckets.toNat < 2 ^ 31) : Passes s l r s.doubled l r :=
  ⟨hm, mem_doubled hm hlt, .refl _, fun _ h => h, fun _ _ _ => rfl⟩

/-- **A thread's step is one of the map's**, or shows nothing. -/
theorem Tracks.step (h : Tracks ρ l r ph) (hs : (ρ.now.thread t).Sound ρ.now.list)
    (he : (ρ.now.thread t).step ρ.now.list = some e) :
    ∃ l' r' ph',
      Tracks { now := ρ.now.apply t e, history := ρ.history ++ shown (.step t) (ρ.now.apply t e) } l' r' ph' := by
  have hm := h.whole.mem
  have hk := h.whole.knows t
  have hkeeps := keeps_step hm.table hk.slots hs.room he
  have hnext : ∀ {l' r'}, Whole (ρ.now.apply t e) l' r' → Passes ρ.now.list l r e.1 l' r' →
      (l'.filter e.1.heap.isData ++ (((ρ.now.thread t).effect ρ.now.list e).unlinked.map Prod.snd).toList).Perm
        (l.filter ρ.now.list.heap.isData ++ (((ρ.now.thread t).effect ρ.now.list e).linked.map Prod.snd).toList) →
      (∀ x, ((ρ.now.thread t).effect ρ.now.list e).unlinked = some x → (e.1.heap.node x.2).hashv = x.1) →
      ∃ ph', Tracks { now := ρ.now.apply t e, history := ρ.history ++ shown (.step t) (ρ.now.apply t e) } l' r' ph' := by
    intro l' r' hw hp hperm hlog
    have hne : e.2.pc ≠ .core .crashed := by
      intro hpc
      have hok := (hw.knows t).bare
      rw [State.apply_self, Thread.bare, hpc] at hok
      exact hok
    obtain ⟨ph', hph'⟩ := h.follows.turn hp hperm hlog (step_turn hm hk (h.follows.stands t) he hne)
    refine ⟨ph', hw, ?_⟩
    rw [← shadow_apply, ← shown_step] at hph'
    exact hph'
  by_cases hpc : ∃ c, (ρ.now.thread t).pc = .expandReplace c
  · obtain ⟨c, hpc⟩ := hpc
    obtain ⟨heq, hw⟩ := h.whole.expand hpc (hs.fits c hpc) he hkeeps.ok
    have hp : Passes ρ.now.list l r e.1 l r := by
      rw [heq]
      exact passes_doubled hm (hs.fits c hpc)
    have hnone : ((ρ.now.thread t).effect ρ.now.list e).linked = none ∧
        ((ρ.now.thread t).effect ρ.now.list e).unlinked = none := by
      simp only [Thread.effect, hpc]
      exact ⟨rfl, rfl⟩
    refine ⟨l, r, hnext hw hp ?_ fun x hx => ?_⟩
    · rw [hnone.1, hnone.2, heq]
      exact .refl _
    · rw [hnone.2] at hx
      cases hx
  · obtain ⟨l', r', hd⟩ := does_step hm hk hs (not_exists.mp hpc) he
    have hp := hd.keeps.passes hm (step_writes hk (not_exists.mp hpc) he)
    refine ⟨l', r', hnext (h.whole.step hkeeps.grown hd) hp hd.keeps.items_perm fun x hx => ?_⟩
    exact (hd.keeps.logged x (by simp [hx])).2

/-- The start of a call is that of its shadow. -/
theorem call_effect {th : Thread} {op : Op T} (hi : th.pc.isIdle = true) (hv : op.Valid s) :
    (∃ res, th.shadow.pc = .idle res) ∧ th.effect s (th.call s op) = th.shadow.call s op := by
  obtain ⟨a, pc, nbuckets⟩ := th
  cases pc with
  | core pc =>
    obtain ⟨res, rfl⟩ := Concurrent.Pc.isIdle_iff.mp hi
    refine ⟨⟨res, rfl⟩, ?_⟩
    cases op with
    | insertNode hashv v =>
      have hlt : hashv.toNat < 2 ^ 31 := hv
      simp only [Thread.call, Thread.insertNode, Concurrent.Thread.call, solistNode_ok v hlt]
      rfl
    | _ => rfl
  | _ => cases hi

/-- The start of a call is one on the map. -/
theorem Tracks.call {op : Op T} (h : Tracks ρ l r ph) (hi : (ρ.now.thread t).pc.isIdle = true)
    (hv : op.Valid ρ.now.list) :
    ∃ ph', Tracks { now := ρ.now.apply t ((ρ.now.thread t).call ρ.now.list op), history := ρ.history ++ [.call t op] }
      l r ph' := by
  obtain ⟨hidle, heff⟩ := call_effect hi hv
  obtain ⟨hg, hd⟩ := does_call h.whole.mem (h.whole.knows t) hi hv
  have hk : Concurrent.Keeps ρ.now.list l r (ρ.now.thread t).shadow ((ρ.now.thread t).shadow.call ρ.now.list op) l r :=
    Concurrent.Thread.call_keeps h.whole.mem (Concurrent.Pc.isIdle_iff.mpr hidle) hv
  obtain ⟨hl, hul, hst⟩ := Concurrent.Thread.call_stands hk hv
  have hp := hk.passes h.whole.mem (Concurrent.Thread.call_writes hv)
  have hperm := hk.items_perm
  simp only [hl, hul, Option.map_none, Option.toList_none, List.append_nil] at hperm
  obtain ⟨ph', hph'⟩ := h.follows.call hp (hp.contents_eq hperm) hidle hst
  refine ⟨ph', h.whole.step hg hd, ?_⟩
  rw [← heff, ← shadow_apply] at hph'
  exact hph'

/-- A fresh list holds nothing. -/
theorem Tracks.start (hsize : ∃ k, size.toNat = 2 ^ k) (h : (recorded T n size bucketLength).init ρ) :
    ∃ l, Tracks ρ l [] fun _ => .idle := by
  obtain ⟨hinit, hhist⟩ := h
  obtain ⟨l, hw⟩ := Whole.init hsize hinit
  obtain ⟨s, hs, hfresh⟩ := Concurrent.fresh_init (T := T) (n := n) size bucketLength (fun _ => True) (fun _ => true)
    (two_pow_le hsize) fun _ _ => trivial
  obtain rfl : s = ρ.now.list := Except.ok.inj (hs.symm.trans hinit.1)
  obtain ⟨l₀, hl₀⟩ := Concurrent.init_inv hfresh
  have hmem : Mem ρ.now.list l₀ [] := hl₀.mem
  have hnone : bindings ρ.now.list = fun _ => none := by
    have hdata : l₀.filter ρ.now.list.heap.isData = [] := by
      have hlinks := hl₀.links.length_eq
      simpa [Concurrent.fresh] using hlinks
    rw [hmem.bindings_eq]
    funext hashv
    refine (Concurrent.contents_eq_none_iff hmem.mesh).mpr fun x hx hd => ?_
    exact absurd hd (List.filter_eq_nil_iff.mp hdata x hx)
  refine ⟨l, hw, ?_⟩
  rw [hhist, ← hnone]
  refine .start hw.mem fun t => ⟨none, ?_⟩
  rw [hinit.2 t]
  rfl

/-- **Every sound run is tracked.** -/
theorem run_tracks (hsize : ∃ k, size.toNat = 2 ^ k)
    (h : (recorded T n size bucketLength).ReachableBy (fun ρ => Sound ρ.now) ρ) : ∃ l r ph, Tracks ρ l r ph := by
  refine h.invariant (I := fun ρ => ∃ l r ph, Tracks ρ l r ph) (fun ρ hρ => ?_) fun ρ e ρ' hρ hs hn => ?_
  · obtain ⟨l, hl⟩ := Tracks.start hsize hρ
    exact ⟨l, [], _, hl⟩
  · obtain ⟨l, r, ph, hρ⟩ := hρ
    obtain ⟨σ, hσ, rfl⟩ := Option.map_eq_some_iff.mp hn
    cases e with
    | call t op =>
      simp only [calls] at hσ
      split at hσ
      · rename_i hen
        cases hσ
        exact ⟨l, r, hρ.call hen.1 hen.2⟩
      · cases hσ
    | step t =>
      obtain ⟨e, he, rfl⟩ := Option.map_eq_some_iff.mp hσ
      exact hρ.step hs he

end Runs

end Growing

end SplitOrder
