/-
The concurrent list is linearizable.

What is seen of the calls is a history of the map `specCall`, the one that
calls made one after another are calls of too. A call that links or unlinks
a node takes effect there; any other return is a late answer, right at a
moment the search has seen.
-/
import SplitOrder.Concurrent.Contents
import SplitOrder.Lib.Linearizable

namespace SplitOrder

namespace Concurrent

open Heap

variable {T : Type} {n : Nat} {s s' : Solist T} {l r l' r' : List Addr} {a : Accessor} {hashv : Hash} {v : T}
  {M : Set (Hash → Option T)} {K : Set Addr}

/-! ## The calls in progress -/

/-- How far a call is. -/
inductive Stage
  | idle
  | initialises (slot : Hash)
  | finds (c : FindCall)
  /-- the node is linked or unlinked -/
  | done
  deriving DecidableEq

def InitCaller.stage (slot : Hash) : InitCaller → Stage
  | .caller => .initialises slot
  | .findNode c => .finds c
  | .insertNode => .done

def Pc.stage : Pc → Stage
  | .idle _ | .crashed => .idle
  | .initEntry slot k | .initReturn slot k => k.stage slot
  | .init i _ => i.caller.stage i.slot
  | .findEntry c | .findBucket c | .findNext c | .findWalk c => .finds c
  | .insertSetNext hashv d | .insertCas hashv d => .finds (.insertNode hashv d)
  | .deleteMark hashv | .deleteUnlink hashv => .finds (.deleteNode hashv)
  | .insertCount _ | .insertNext _ | .insertWalk _ | .insertCheck _ | .expand _ | .deleteCount _ => .done

/-- The call the caller made. -/
def FindCall.IsOp (h : Heap T) (c : FindCall) (op : Op T) : Prop :=
  match c with
  | .insertNode hashv d => d < h.size ∧ ∃ v, (h.node d).payload = some v ∧ op = .insertNode hashv v
  | .deleteNode hashv => op = .deleteNode hashv
  | .findItemNode hashv => op = .findItemNode hashv

/-- If the key of `hashv` lies between `cur` and `next`, there was a moment when the hash was not bound. -/
def Missed (s : Solist T) (M : Set (Hash → Option T)) (hashv : Hash) (a : Accessor) : Prop :=
  ∀ x, a.cur = some x → s.heap.key x < solNodeKey hashv →
    (∀ y, a.next = some y → solNodeKey hashv < s.heap.key y) → ∃ m ∈ M, m hashv = none

/-- The pointers of a search are to nodes it has seen on the chain. -/
def Pc.Sees (s : Solist T) (M : Set (Hash → Option T)) (K : Set Addr) (a : Accessor) : Pc → Prop
  | .findNext _ => ∀ x, a.cur = some x → x ∈ K
  | .findWalk c => (∀ x, a.cur = some x → x ∈ K) ∧ (∀ x, a.next = some x → x ∈ K) ∧ Missed s M c.hashv a
  | _ => True

/-- Where a call stands at a stage; `sees` is what its search still has to know. -/
def Stage.Holds (s : Solist T) (l r : List Addr) (sees : Set (Hash → Option T) → Set Addr → Prop)
    (x : Since (Op T) (View T) (Hash → Option T)) : Stage → Prop
  | .idle => x = .idle
  | .initialises slot => ∃ M, x = .called (.initialiseBucket slot) M ∧ contents s.heap l ∈ M
  | .finds c => ∃ op M K, x = .called op M ∧ c.IsOp s.heap op ∧ c.hashv.toNat < 2 ^ 31 ∧ Saw s l r M c.hashv K ∧ sees M K
  | .done => x = .done (.bool true)

/-- Where a thread stands with its call. -/
def Thread.Stands (s : Solist T) (l r : List Addr) (th : Thread) (x : Since (Op T) (View T) (Hash → Option T)) :
    Prop :=
  th.pc.stage.Holds s l r (fun M K => th.pc.Sees s M K th.a) x

section Stands

variable {th : Thread} {x : Since (Op T) (View T) (Hash → Option T)}

theorem FindCall.IsOp.passes {c : FindCall} {op : Op T} (h : c.IsOp s.heap op) (he : s.heap.Extends s'.heap) :
    c.IsOp s'.heap op := by
  cases c with
  | insertNode hashv d =>
    obtain ⟨hd, v, hv, hop⟩ := h
    exact ⟨Nat.lt_of_lt_of_le hd he.size, v, (he.payload d hd).trans hv, hop⟩
  | deleteNode hashv => exact h
  | findItemNode hashv => exact h

theorem Pc.Sees.passes {pc : Pc} {M' : Set (Hash → Option T)} {K' : Set Addr} (h : pc.Sees s M K a)
    (he : s.heap.Extends s'.heap) (hlt : ∀ x ∈ K, x < s.heap.size) (hM : M ⊆ M') (hK : K ⊆ K') :
    pc.Sees s' M' K' a := by
  cases pc with
  | findNext c => exact fun x hx => hK (h x hx)
  | findWalk c =>
    obtain ⟨hcur, hnext, hmiss⟩ := h
    refine ⟨fun x hx => hK (hcur x hx), fun x hx => hK (hnext x hx), fun x hx hk habove => ?_⟩
    rw [he.key x (hlt x (hcur x hx))] at hk
    obtain ⟨m, hm, hmv⟩ := hmiss x hx hk fun y hy => by
      rw [← he.key y (hlt y (hnext y hy))]
      exact habove y hy
    exact ⟨m, hM hm, hmv⟩
  | _ => trivial

theorem Stage.Holds.mono {sees sees' : Set (Hash → Option T) → Set Addr → Prop} {st : Stage}
    (h : st.Holds s l r sees x) (hsees : ∀ M K, sees M K → sees' M K) : st.Holds s l r sees' x := by
  cases st with
  | finds c =>
    obtain ⟨op, M, K, hx, hop, hh, hsaw, hs⟩ := h
    exact ⟨op, M, K, hx, hop, hh, hsaw, hsees M K hs⟩
  | idle => exact h
  | initialises slot => exact h
  | done => exact h

/-- **A thread stands where it stood after the step of another**, and has seen what the list holds then. -/
theorem Thread.Stands.passes (h : th.Stands s l r x) (hp : Passes s l r s' l' r') :
    th.Stands s' l' r' (x.seeing (contents s'.heap l')) := by
  unfold Thread.Stands at h ⊢
  cases hst : th.pc.stage with
  | idle =>
    rw [hst] at h
    rw [show x = .idle from h]
    rfl
  | initialises slot =>
    rw [hst] at h
    obtain ⟨M, rfl, -⟩ := h
    exact ⟨_, rfl, Set.mem_insert _ _⟩
  | finds c =>
    rw [hst] at h
    obtain ⟨op, M, K, rfl, hop, hh, hsaw, hsees⟩ := h
    refine ⟨op, _, _, rfl, hop.passes hp.ext, hh, hsaw.passes hp hh, hsees.passes hp.ext (fun x hx => ?_)
      (Set.subset_insert _ _) Set.subset_union_left⟩
    exact hp.mem.mesh.lt x (hsaw.known x hx)
  | done =>
    rw [hst] at h
    rw [show x = .done (.bool true) from h]
    rfl

/-- A call in progress has seen what the list holds. -/
theorem Thread.Stands.seeing (h : th.Stands s l r x) : x.seeing (contents s.heap l) = x := by
  have hsees : ∀ op M, contents s.heap l ∈ M →
      (Since.called op M : Since (Op T) (View T) (Hash → Option T)).seeing (contents s.heap l) = .called op M := by
    intro op M hM
    exact congrArg _ (Set.insert_eq_of_mem hM)
  unfold Thread.Stands at h
  cases hst : th.pc.stage with
  | idle =>
    rw [hst] at h
    rw [show x = .idle from h]
    rfl
  | initialises slot =>
    rw [hst] at h
    obtain ⟨M, rfl, hM⟩ := h
    exact hsees _ M hM
  | finds c =>
    rw [hst] at h
    obtain ⟨op, M, K, rfl, -, -, hsaw, -⟩ := h
    exact hsees op M hsaw.now
  | done =>
    rw [hst] at h
    rw [show x = .done (.bool true) from h]
    rfl

end Stands

/-! ## The turns of a thread -/

/-- What a step of a thread is to those who see its call. -/
inductive Turn (s : Solist T) (l r : List Addr) (x : Since (Op T) (View T) (Hash → Option T)) (e : Effect T) : Prop
  | goesOn : e.linked = none → e.unlinked = none → (∀ res, e.thread.pc ≠ .idle res) → e.thread.Stands s l r x →
      Turn s l r x e
  | returns {res : Res} : e.linked = none → e.unlinked = none → e.thread.pc = .idle (some res) →
      (x = .done (res.view e.list.heap) ∨
        ∃ op M m, x = .called op M ∧ m ∈ M ∧ specCall m op = (res.view e.list.heap, m)) → Turn s l r x e
  | links {hashv : Hash} {d : Addr} {v : T} {M : Set (Hash → Option T)} : x = .called (.insertNode hashv v) M →
      d < s.heap.size → (s.heap.node d).payload = some v → (s.heap.node d).hashv = hashv →
      e.linked = some (hashv, d) → e.unlinked = none → e.thread.pc = .insertCount hashv → Turn s l r x e
  | unlinks {hashv : Hash} {c : Addr} {M : Set (Hash → Option T)} : x = .called (.deleteNode hashv) M →
      e.linked = none → e.unlinked = some (hashv, c) → e.thread.pc = .deleteCount hashv → Turn s l r x e

section Turns

variable {x : Since (Op T) (View T) (Hash → Option T)} {pc pc' : Pc}

/-- A move within one stage, to a point where a search knows no more than it did. -/
theorem Turn.move {a' : Accessor} (h : Thread.Stands s l r ⟨a, pc⟩ x) (hst : pc'.stage = pc.stage)
    (hne : pc'.stage ≠ .idle) (hsees : ∀ M K, pc'.Sees s M K a') : Turn s l r x (goto s' a' pc') := by
  refine .goesOn rfl rfl (fun res hres => hne ?_) ?_
  · rw [show pc' = .idle res from hres]
    rfl
  · unfold Thread.Stands at h ⊢
    change pc'.stage.Holds _ _ _ _ _
    rw [hst]
    exact Stage.Holds.mono h fun M K _ => hsees M K

/-- The end of a call that has linked or unlinked. -/
theorem Turn.finish {a' : Accessor} (h : Thread.Stands s l r ⟨a, pc⟩ x) (hst : pc.stage = .done) :
    Turn s l r x (goto s' a' (.idle (some (.bool true)))) := by
  refine .returns rfl rfl rfl (.inl ?_)
  unfold Thread.Stands at h
  rw [hst] at h
  exact h

theorem InitCaller.stage_ne_idle (slot : Hash) (k : InitCaller) : k.stage slot ≠ .idle := by
  cases k <;> exact Stage.noConfusion

/-- A step of `initialise_bucket` before its return. -/
theorem init_turn {i : InitCall} {ipc : InitPc} (h : Thread.Stands s l r ⟨a, .init i ipc⟩ x)
    (hne : (i.step s a ipc).thread.pc ≠ .crashed) : Turn s l r x (i.step s a ipc) := by
  have hstay : ∀ s' a' ipc', Turn s l r x (goto s' a' (.init i ipc')) := fun s' a' ipc' =>
    .move h rfl (InitCaller.stage_ne_idle _ _) fun _ _ => trivial
  have hreturn : Turn s l r x (goto s a (.initReturn i.slot i.caller)) :=
    .move h rfl (InitCaller.stage_ne_idle _ _) fun _ _ => trivial
  revert hne
  cases ipc with
  | setNext => exact fun _ => hstay _ _ _
  | store => exact fun _ => hstay _ _ _
  | storeNext => exact fun _ => hstay _ _ _
  | discard => exact fun _ => hstay _ _ _
  | probe pbKey =>
    simp only [InitCall.step]
    split
    · exact fun hne => absurd rfl hne
    · split
      · exact fun hne => absurd rfl hne
      · split <;> exact fun _ => hstay _ _ _
  | walk =>
    simp only [InitCall.step]
    split
    · exact fun _ => hstay _ _ _
    · split <;> exact fun _ => hstay _ _ _
  | recheck =>
    simp only [InitCall.step]
    split
    · exact fun hne => absurd rfl hne
    · exact fun _ => hstay _ _ _
    · split <;> exact fun _ => hstay _ _ _
  | settle =>
    simp only [InitCall.step]
    split
    · exact fun hne => absurd rfl hne
    · exact fun _ => hstay _ _ _
    · exact fun _ => hstay _ _ _
  | assertNext =>
    simp only [InitCall.step]
    split
    · split
      · exact fun _ => hstay _ _ _
      · exact fun hne => absurd rfl hne
    · exact fun hne => absurd rfl hne
  | assertSet =>
    simp only [InitCall.step]
    split
    · exact fun _ => hstay _ _ _
    · exact fun hne => absurd rfl hne
  | assertKey =>
    simp only [InitCall.step]
    split
    · split
      · exact fun _ => hreturn
      · exact fun hne => absurd rfl hne
    · exact fun hne => absurd rfl hne
  | _ =>
    simp only [InitCall.step]
    split
    · exact fun hne => absurd rfl hne
    · exact fun _ => hstay _ _ _

/-- The rest of `initialise_bucket`. -/
theorem initEntry_turn {slot : Hash} {k : InitCaller} (h : Thread.Stands s l r ⟨a, .initEntry slot k⟩ x)
    (hne : (initEntry slot k s a).thread.pc ≠ .crashed) : Turn s l r x (initEntry slot k s a) := by
  revert hne
  simp only [initEntry]
  split
  · exact fun hne => absurd rfl hne
  · split
    · exact fun hne => absurd rfl hne
    · exact fun _ => .move h rfl (InitCaller.stage_ne_idle _ _) fun _ _ => trivial
    · split
      · exact fun hne => absurd rfl hne
      · exact fun _ => .move h rfl (InitCaller.stage_ne_idle _ _) fun _ _ => trivial

theorem initReturn_turn {slot : Hash} {k : InitCaller} (h : Thread.Stands s l r ⟨a, .initReturn slot k⟩ x) :
    Turn s l r x (initReturn k s a) := by
  cases k with
  | caller =>
    obtain ⟨M, rfl, hM⟩ := h
    exact .returns rfl rfl rfl (.inr ⟨_, M, _, rfl, hM, rfl⟩)
  | findNode c => exact .move h rfl Stage.noConfusion fun _ _ => trivial
  | insertNode => exact .finish h rfl

/-- **What a search returns** was right at a moment it has seen. -/
theorem found_turn {f : FindCall} {c : Addr} (hm : Mem s l r) (h : Thread.Stands s l r ⟨a, .findWalk f⟩ x)
    (hc : a.cur = some c) (hle : s.heap.key c ≤ solNodeKey f.hashv)
    (hnext : ∀ y, a.next = some y → solNodeKey f.hashv < s.heap.key y) :
    Turn s l r x (f.found s a (s.heap.key c == solNodeKey f.hashv)) := by
  obtain ⟨op, M, K, rfl, hop, hh, hsaw, hcur, -, hmiss⟩ := id h
  have hcK := hcur c hc
  by_cases hkey : s.heap.key c = solNodeKey f.hashv
  · -- the node was on the chain, and bound its hash
    obtain ⟨m, hmM, hmv⟩ := hsaw.held c hcK hkey
    obtain ⟨hd, -⟩ := hm.mesh.data_of_key (hsaw.known c hcK) hh hkey
    obtain ⟨w, hw⟩ := Option.isSome_iff_exists.mp hd
    rw [hw] at hmv
    rw [hkey, beq_self_eq_true]
    cases f with
    | insertNode hashv d =>
      obtain ⟨-, v, -, rfl⟩ := hop
      have hmv : m hashv = some w := hmv
      refine .returns rfl rfl rfl (.inr ⟨_, M, m, rfl, hmM, ?_⟩)
      simp [specCall, hmv, Res.view]
    | deleteNode hashv => exact .move h rfl Stage.noConfusion fun _ _ => trivial
    | findItemNode hashv =>
      obtain rfl := hop
      have hmv : m hashv = some w := hmv
      refine .returns rfl rfl rfl (.inr ⟨_, M, m, rfl, hmM, ?_⟩)
      simp only [specCall, hmv, Res.view, if_true, hc, Option.bind_some]
      exact congrArg (fun o => (View.payload o, m)) hw.symm
  · have hlt : s.heap.key c < solNodeKey f.hashv := by bv_omega
    obtain ⟨m, hmM, hmv⟩ := hmiss c hc hlt hnext
    rw [beq_eq_false_iff_ne.mpr hkey]
    cases f with
    | insertNode hashv d => exact .move h rfl Stage.noConfusion fun _ _ => trivial
    | deleteNode hashv =>
      obtain rfl := hop
      have hmv : m hashv = none := hmv
      refine .returns rfl rfl rfl (.inr ⟨_, M, m, rfl, hmM, ?_⟩)
      simp [specCall, hmv, Res.view]
    | findItemNode hashv =>
      obtain rfl := hop
      have hmv : m hashv = none := hmv
      refine .returns rfl rfl rfl (.inr ⟨_, M, m, rfl, hmM, ?_⟩)
      simp [specCall, hmv, Res.view]

/-- A step of a search to the next point of it. -/
theorem Turn.search {f : FindCall} {a' : Accessor} (h : Thread.Stands s l r ⟨a, pc⟩ x) (hpc : pc.stage = .finds f)
    (hpc' : pc'.stage = .finds f)
    (hsees : ∀ M K, Saw s l r M f.hashv K → pc.Sees s M K a → pc'.Sees s M K a') : Turn s l r x (goto s a' pc') := by
  refine .goesOn rfl rfl (fun res hres => ?_) ?_
  · rw [show pc' = .idle res from hres] at hpc'
    cases hpc'
  · unfold Thread.Stands at h ⊢
    rw [hpc] at h
    change pc'.stage.Holds _ _ _ _ _
    rw [hpc']
    obtain ⟨op, M, K, hx, hop, hh, hsaw, hs⟩ := h
    exact ⟨op, M, K, hx, hop, hh, hsaw, hsees M K hsaw hs⟩

/-- The pointer a search reads at a node it has seen. -/
theorem Saw.sees_next (h : Saw s l r M hashv K) {y : Addr} (hcur : a.cur = some y) (hy : y ∈ K)
    (hnext : a.next = s.heap.nextOf y) :
    (∀ z, a.cur = some z → z ∈ K) ∧ (∀ z, a.next = some z → z ∈ K) ∧ Missed s M hashv a := by
  refine ⟨fun z hz => ?_, fun z hz => h.next y hy z (hnext ▸ hz), fun z hz hk habove => ?_⟩
  · rw [hcur] at hz
    cases hz
    exact hy
  · rw [hcur] at hz
    cases hz
    exact h.absent y hy hk fun w hw => habove w (hnext ▸ hw)

theorem findWalk_turn {f : FindCall} (hm : Mem s l r) (h : Thread.Stands s l r ⟨a, .findWalk f⟩ x)
    (hle : CurLe s l r a (solNodeKey f.hashv)) : Turn s l r x (f.walk s a) := by
  obtain ⟨c, hc, -, hck⟩ := hle
  simp only [FindCall.walk, hc]
  cases hn : a.next with
  | none => exact found_turn hm h hc hck fun y hy => by rw [hn] at hy; cases hy
  | some y =>
    by_cases hy : s.heap.key y ≤ solNodeKey f.hashv
    · simp only [hy, if_true]
      refine .search h rfl rfl fun M K hsaw hsees => ?_
      exact hsaw.sees_next (y := y) rfl (hsees.2.1 y hn) rfl
    · simp only [hy, if_false]
      refine found_turn hm h hc hck fun z hz => ?_
      rw [hn] at hz
      cases hz
      exact BitVec.not_le.mp hy

/-- The link `CAS`. -/
theorem insertCas_turn {d : Addr} (h : Thread.Stands s l r ⟨a, .insertCas hashv d⟩ x) (hd : DNode s l r hashv d)
    (hne : (insertCas hashv d s a).thread.pc ≠ .crashed) : Turn s l r x (insertCas hashv d s a) := by
  revert hne
  simp only [insertCas]
  split
  · exact fun hne => absurd rfl hne
  · split
    · intro _
      obtain ⟨op, M, K, rfl, ⟨hlt, v, hv, rfl⟩, -⟩ := h
      exact .links rfl hlt hv hd.hashv rfl rfl rfl
    · exact fun _ => .move h rfl Stage.noConfusion fun _ _ => trivial

/-- The unlink `CAS`. -/
theorem deleteUnlink_turn (h : Thread.Stands s l r ⟨a, .deleteUnlink hashv⟩ x)
    (hne : (deleteUnlink hashv s a).thread.pc ≠ .crashed) : Turn s l r x (deleteUnlink hashv s a) := by
  revert hne
  simp only [deleteUnlink]
  split
  · split
    · intro _
      obtain ⟨op, M, K, rfl, rfl, -⟩ := h
      exact .unlinks rfl rfl rfl rfl
    · exact fun _ => .move h rfl Stage.noConfusion fun _ _ => trivial
  · exact fun hne => absurd rfl hne

/-- **A thread's step is a turn of its call.** -/
theorem Thread.step_turn {th : Thread} {e : Effect T} (hm : Mem s l r) (hok : th.Ok s l r) (h : th.Stands s l r x)
    (he : th.step s = some e) (hne : e.thread.pc ≠ .crashed) : Turn s l r x e := by
  obtain ⟨a, pc⟩ := th
  cases pc with
  | idle res => cases he
  | expand hashv => cases he
  | crashed => cases he
  | initEntry slot k =>
    cases he
    exact initEntry_turn h hne
  | init i pc =>
    cases he
    exact init_turn h hne
  | initReturn slot k =>
    cases he
    exact initReturn_turn h
  | findEntry f =>
    cases he
    revert hne
    simp only [FindCall.entry]
    split
    · exact fun hne => absurd rfl hne
    · exact fun _ => .move h rfl Stage.noConfusion fun _ _ => trivial
    · exact fun _ => .move h rfl Stage.noConfusion fun _ _ => trivial
  | findBucket f =>
    cases he
    obtain ⟨-, b, hb⟩ := hok
    simp only [FindCall.bucket, hb]
    refine .search h rfl rfl fun M K hsaw _ y hy => ?_
    cases hy
    exact hsaw.chain b (hm.slot _ _ hb).1
  | findNext f =>
    cases he
    obtain ⟨-, ⟨c, hc, -⟩, -⟩ := hok
    simp only [FindCall.next, show a.cur = some c from hc]
    exact .search h rfl rfl fun M K hsaw hsees => hsaw.sees_next (y := c) rfl (hsees c hc) rfl
  | findWalk f =>
    cases he
    exact findWalk_turn hm h hok.2.1
  | insertSetNext hashv d =>
    cases he
    exact .move h rfl Stage.noConfusion fun _ _ => trivial
  | insertCas hashv d =>
    cases he
    exact insertCas_turn h hok.1.2 hne
  | insertCount hashv =>
    cases he
    exact .move h rfl Stage.noConfusion fun _ _ => trivial
  | insertNext hashv =>
    cases he
    revert hne
    simp only [insertNext]
    split
    · exact fun hne => absurd rfl hne
    · exact fun _ => .move h rfl Stage.noConfusion fun _ _ => trivial
  | insertWalk hashv =>
    cases he
    simp only [insertWalk]
    split
    · exact .move h rfl Stage.noConfusion fun _ _ => trivial
    · split <;> exact .move h rfl Stage.noConfusion fun _ _ => trivial
  | insertCheck hashv =>
    cases he
    simp only [insertCheck]
    split
    · split
      · exact .move h rfl Stage.noConfusion fun _ _ => trivial
      · split
        · exact .move h rfl Stage.noConfusion fun _ _ => trivial
        · exact .finish h rfl
    · exact .finish h rfl
  | deleteMark hashv =>
    cases he
    revert hne
    simp only [deleteMark]
    split
    · exact fun hne => absurd rfl hne
    · split <;> exact fun _ => .move h rfl Stage.noConfusion fun _ _ => trivial
  | deleteUnlink hashv =>
    cases he
    exact deleteUnlink_turn h hne
  | deleteCount hashv =>
    cases he
    obtain ⟨c, hc, -⟩ := hok
    simp only [deleteCount, show a.cur = some c from hc]
    exact .finish h rfl

end Turns

/-- The start of a call. -/
theorem Thread.call_stands {th : Thread} {op : Op T} (hk : Keeps s l r th (th.call s op) l r) (hv : op.Valid s) :
    (th.call s op).linked = none ∧ (th.call s op).unlinked = none ∧
      (th.call s op).thread.Stands (th.call s op).list l r
        (.called op {contents (th.call s op).list.heap l}) := by
  have hm := hk.mem
  cases op with
  | insertNode hashv v =>
    have hlt : hashv.toNat < 2 ^ 31 := hv
    simp only [Thread.call, solistNode_ok v hlt] at hm ⊢
    refine ⟨rfl, rfl, _, _, _, rfl, ⟨Nat.lt_succ_self _, v, ?_, rfl⟩, hlt, Saw.start hm hlt, trivial⟩
    simp [goto]
  | deleteNode hashv => exact ⟨rfl, rfl, _, _, _, rfl, rfl, hv, Saw.start hm hv, trivial⟩
  | findItemNode hashv => exact ⟨rfl, rfl, _, _, _, rfl, rfl, hv, Saw.start hm hv, trivial⟩
  | initialiseBucket slot => exact ⟨rfl, rfl, _, rfl, rfl⟩

/-! ## Histories -/

/-- What is seen of the calls so far is a history of the map, whose calls may be answered late, and each thread stands
in it where its phase says. -/
structure Follows (first : Hash → Option T) (H : List (Seen (Fin n) (Op T) (View T))) (s : Solist T)
    (thread : Fin n → Thread) (l r : List Addr) (ph : Fin n → Since (Op T) (View T) (Hash → Option T)) : Prop where
  lately : Lately specCall first H (contents s.heap l) ph
  stands : ∀ t, (thread t).Stands s l r (ph t)

/-- What a step shows of the calls. -/
def Effect.shows (t : Fin n) (e : Effect T) : List (Seen (Fin n) (Op T) (View T)) :=
  match e.thread.pc with
  | .idle (some res) => [.ret t (res.view e.list.heap)]
  | _ => []

section Histories

variable {first : Hash → Option T} {H : List (Seen (Fin n) (Op T) (View T))} {thread : Fin n → Thread}
  {ph : Fin n → Since (Op T) (View T) (Hash → Option T)} {t : Fin n} {e : Effect T}

theorem Effect.shows_nil (h : ∀ res, e.thread.pc ≠ .idle res) : e.shows t = [] := by
  unfold Effect.shows
  cases hpc : e.thread.pc with
  | idle res => exact absurd hpc (h res)
  | _ => rfl

/-- After a step each thread stands where it stood, but for the one that has moved. -/
theorem Follows.stands_update {ph' : Fin n → Since (Op T) (View T) (Hash → Option T)}
    (hself : e.thread.Stands e.list l' r' (ph' t)) (hothers : ∀ u, u ≠ t → (thread u).Stands e.list l' r' (ph' u))
    (u : Fin n) :
    (Function.update thread t e.thread u).Stands e.list l' r' (ph' u) := by
  by_cases hut : u = t
  · subst hut
    rw [Function.update_self]
    exact hself
  · rw [Function.update_of_ne hut]
    exact hothers u hut

/-- The moment at which a call takes effect. -/
theorem Follows.effect {op : Op T} (h : Follows first H s thread l r ph) (hp : Passes s l r e.list l' r')
    (hx : ph t = .called op M) (hspec : specCall (contents s.heap l) op = (.bool true, contents e.list.heap l'))
    (hst : e.thread.pc.stage = .done) :
    Follows first (H ++ e.shows t) e.list (Function.update thread t e.thread) l' r'
      (Function.update (fun u => (ph u).seeing (contents e.list.heap l')) t (.done (.bool true))) := by
  refine ⟨?_, Follows.stands_update ?_ fun u hu => ?_⟩
  · have hlate := Lately.effect h.lately hx
    rw [hspec] at hlate
    have hpc : ∀ res, e.thread.pc ≠ .idle res := by
      intro res hres
      rw [hres] at hst
      cases hst
    rw [Effect.shows_nil hpc, List.append_nil]
    exact hlate
  · rw [Function.update_self]
    unfold Thread.Stands
    rw [hst]
    rfl
  · rw [Function.update_of_ne hu]
    exact (h.stands u).passes hp

/-- **A turn is a step of the map**, or shows nothing. -/
theorem Follows.turn (h : Follows first H s thread l r ph) (hp : Passes s l r e.list l' r')
    (hperm : (l'.filter e.list.heap.isData ++ (e.unlinked.map Prod.snd).toList).Perm
      (l.filter s.heap.isData ++ (e.linked.map Prod.snd).toList))
    (hlog : ∀ x, e.unlinked = some x → (e.list.heap.node x.2).hashv = x.1) (ht : Turn s l r (ph t) e) :
    ∃ ph', Follows first (H ++ e.shows t) e.list (Function.update thread t e.thread) l' r' ph' := by
  -- what the others know, when the list holds what it held
  have hsame : contents e.list.heap l' = contents s.heap l → ∀ u, (thread u).Stands e.list l' r' (ph u) := by
    intro hc u
    have hs := (h.stands u).passes hp
    rwa [hc, (h.stands u).seeing] at hs
  cases ht with
  | goesOn hl hul hpc hst =>
    simp only [hl, hul, Option.map_none, Option.toList_none, List.append_nil] at hperm
    have hc := hp.contents_eq hperm
    refine ⟨ph, ?_, Follows.stands_update ?_ fun u _ => hsame hc u⟩
    · rw [Effect.shows_nil hpc, List.append_nil, hc]
      exact h.lately
    · have hs := hst.passes hp
      rwa [hc, (h.stands t).seeing] at hs
  | @returns res hl hul hpc hres =>
    simp only [hl, hul, Option.map_none, Option.toList_none, List.append_nil] at hperm
    have hc := hp.contents_eq hperm
    have hshows : e.shows t = [.ret t (res.view e.list.heap)] := by simp only [Effect.shows, hpc]
    refine ⟨Function.update ph t .idle, ?_, Follows.stands_update ?_ fun u hu => ?_⟩
    · rw [hshows, hc]
      obtain hdone | ⟨op, M, m, hcalled, hm, happly⟩ := hres
      · exact .ret h.lately hdone
      · exact .late h.lately hcalled hm happly
    · rw [Function.update_self]
      unfold Thread.Stands
      rw [hpc]
      rfl
    · rw [Function.update_of_ne hu]
      exact hsame hc u
  | @links hashv d v M hx hd hv hh hl hul hpc =>
    simp only [hl, hul, Option.map_none, Option.map_some, Option.toList_none, Option.toList_some,
      List.append_nil] at hperm
    obtain ⟨habs, hc⟩ := hp.contents_link hperm hd hh hv
    refine ⟨_, h.effect hp hx ?_ (by rw [hpc]; rfl)⟩
    simp [specCall, habs, hc]
  | @unlinks hashv c M hx hl hul hpc =>
    simp only [hl, hul, Option.map_none, Option.map_some, Option.toList_none, Option.toList_some,
      List.append_nil] at hperm
    obtain ⟨hheld, hc⟩ := hp.contents_unlink hperm (hlog (hashv, c) hul)
    refine ⟨_, h.effect hp hx ?_ (by rw [hpc]; rfl)⟩
    simp [specCall, hheld, hc]

/-- The start of a call is one on the map. -/
theorem Follows.call {op : Op T} (h : Follows first H s thread l r ph) (hp : Passes s l r e.list l' r')
    (hc : contents e.list.heap l' = contents s.heap l) (hidle : ∃ res, (thread t).pc = .idle res)
    (hst : e.thread.Stands e.list l' r' (.called op {contents e.list.heap l'})) :
    ∃ ph', Follows first (H ++ [.call t op]) e.list (Function.update thread t e.thread) l' r' ph' := by
  have hph : ph t = .idle := by
    obtain ⟨res, hres⟩ := hidle
    have hs := h.stands t
    unfold Thread.Stands at hs
    rw [hres] at hs
    exact hs
  refine ⟨Function.update ph t (.called op {contents e.list.heap l'}), ?_, Follows.stands_update ?_ fun u hu => ?_⟩
  · rw [hc]
    exact .call h.lately hph
  · rw [Function.update_self]
    exact hst
  · rw [Function.update_of_ne hu]
    have hs := (h.stands u).passes hp
    rwa [hc, (h.stands u).seeing] at hs

/-- **The history is one of the map**, whose calls take effect all at once. -/
theorem Follows.atomically (h : Follows first H s thread l r ph) (hm : Mem s l r) :
    ∃ ph', Atomically specCall first H (bindings s) ph' := by
  have hans : ∀ t, ∃ y, Answers specCall (ph t) y := by
    intro t
    cases ph t with
    | idle => exact ⟨_, .idle⟩
    | called op states => exact ⟨_, .waiting⟩
    | done r => exact ⟨_, .done⟩
  choose ph' hph' using hans
  rw [hm.bindings_eq]
  exact ⟨ph', h.lately.atomically ph' hph'⟩

/-- Threads that have not begun. -/
theorem Follows.start (hm : Mem s l r) (hidle : ∀ t, ∃ res, (thread t).pc = .idle res) :
    Follows (bindings s) [] s thread l r fun _ => .idle := by
  refine ⟨?_, fun t => ?_⟩
  · rw [hm.bindings_eq]
    exact .start
  · obtain ⟨res, hres⟩ := hidle t
    unfold Thread.Stands
    rw [hres]
    rfl

end Histories

/-! ## Runs -/

/-- What a step shows of the calls. -/
def shown (e : Event T n) (σ' : State T n) : List (Seen (Fin n) (Op T) (View T)) :=
  match e with
  | .call t op => [.call t op]
  | .step t =>
    match (σ'.thread t).pc with
    | .idle (some res) => [.ret t (res.view σ'.list.heap)]
    | _ => []

/-- A run, with what the list held at first and what was seen of the calls. -/
structure Recorded (T : Type) (n : Nat) where
  first : Hash → Option T
  now : State T n
  history : List (Seen (Fin n) (Op T) (View T)) := []

def recorded (T : Type) (n : Nat) (start : Solist T → Prop) (ops : Op T → Bool) : System (Recorded T n) (Event T n) where
  init ρ := (machine T n start ops).init ρ.now ∧ ρ.first = bindings ρ.now.list ∧ ρ.history = []
  next ρ e :=
    ((machine T n start ops).next ρ.now e).map fun σ => { ρ with now := σ, history := ρ.history ++ shown e σ }

/-- The run so far is one of the map, whose calls may be answered late. -/
structure Tracks (ρ : Recorded T n) (l r : List Addr) (ph : Fin n → Since (Op T) (View T) (Hash → Option T)) : Prop where
  inv : Inv ρ.now l r
  follows : Follows ρ.first ρ.history ρ.now.list ρ.now.thread l r ph

section Runs

variable {ρ : Recorded T n} {ph : Fin n → Since (Op T) (View T) (Hash → Option T)} {t : Fin n} {e : Effect T}

theorem shown_step {σ : State T n} : shown (.step t) (σ.apply t e) = e.shows t := by
  simp only [shown, Effect.shows, State.apply_thread, State.apply_list]

/-- **A thread's step is one of the map's**, or shows nothing. -/
theorem Tracks.step (h : Tracks ρ l r ph) (hu : (ρ.now.thread t).Undisturbed ρ.now.list)
    (he : (ρ.now.thread t).step ρ.now.list = some e) :
    ∃ l' r' ph', Tracks { ρ with
      now := ρ.now.apply t e, history := ρ.history ++ shown (.step t) (ρ.now.apply t e) } l' r' ph' := by
  obtain ⟨l', r', hk⟩ := Thread.step_keeps h.inv.mem (h.inv.thread t) hu he
  have hp := hk.passes h.inv.mem (Thread.step_writes (h.inv.thread t) he)
  have hne : e.thread.pc ≠ .crashed := by
    intro hpc
    have hok := hk.ok
    rw [Thread.Ok, hpc] at hok
    exact hok
  have hturn := Thread.step_turn h.inv.mem (h.inv.thread t) (h.follows.stands t) he hne
  have hlog : ∀ x, e.unlinked = some x → (e.list.heap.node x.2).hashv = x.1 := fun x hx =>
    (hk.logged x (by simp [hx])).2
  obtain ⟨ph', hph'⟩ := h.follows.turn hp hk.items_perm hlog hturn
  exact ⟨l', r', ph', h.inv.step hk, by rw [shown_step]; exact hph'⟩

/-- The start of a call is one on the map. -/
theorem Tracks.call {op : Op T} (h : Tracks ρ l r ph) (hi : (ρ.now.thread t).pc.isIdle = true)
    (hv : op.Valid ρ.now.list) :
    ∃ ph', Tracks { ρ with
      now := ρ.now.apply t ((ρ.now.thread t).call ρ.now.list op), history := ρ.history ++ [.call t op] } l r ph' := by
  have hk : Keeps ρ.now.list l r (ρ.now.thread t) ((ρ.now.thread t).call ρ.now.list op) l r :=
    Thread.call_keeps h.inv.mem hi hv
  obtain ⟨hl, hul, hst⟩ := Thread.call_stands hk hv
  have hp := hk.passes h.inv.mem (Thread.call_writes hv)
  have hperm := hk.items_perm
  simp only [hl, hul, Option.map_none, Option.toList_none, List.append_nil] at hperm
  obtain ⟨ph', hph'⟩ := h.follows.call hp (hp.contents_eq hperm) (Pc.isIdle_iff.mp hi) hst
  exact ⟨ph', h.inv.step hk, hph'⟩

/-- **Every undisturbed run is tracked.** -/
theorem run_tracks {start : Solist T → Prop} {ops : Op T → Bool}
    (h : (recorded T n start ops).ReachableBy (fun ρ => Undisturbed ρ.now) ρ) : ∃ l r ph, Tracks ρ l r ph := by
  refine h.invariant (I := fun ρ => ∃ l r ph, Tracks ρ l r ph) ?_ ?_
  · rintro ρ ⟨hinit, hfirst, hhist⟩
    obtain ⟨l, hl⟩ := init_inv hinit
    refine ⟨l, [], fun _ => .idle, hl, ?_⟩
    rw [hhist, hfirst]
    exact .start hl.mem fun t => Pc.isIdle_iff.mp (hinit.2.2.2 t)
  · rintro ρ e ρ' ⟨l, r, ph, hρ⟩ hu hn
    obtain ⟨σ, hσ, rfl⟩ := Option.map_eq_some_iff.mp hn
    cases e with
    | call t op =>
      simp only [machine] at hσ
      split at hσ
      · cases hσ
        exact ⟨l, r, hρ.call (by tauto) (by tauto)⟩
      · cases hσ
    | step t =>
      obtain ⟨e, he, rfl⟩ := Option.map_eq_some_iff.mp hσ
      exact hρ.step hu he

theorem Tracks.linearizable (h : Tracks ρ l r ph) :
    ∃ ph', Atomically specCall ρ.first ρ.history (bindings ρ.now.list) ph' :=
  h.follows.atomically h.inv.mem

/-- With all buckets set, every run is linearizable. -/
theorem allSet_linearizable {ops : Op T → Bool} (h : (recorded T n AllSet ops).Reachable ρ) :
    ∃ ph, Atomically specCall ρ.first ρ.history (bindings ρ.now.list) ph := by
  have hnow : ∀ ρ, (recorded T n AllSet ops).Reachable ρ → (machine T n AllSet ops).Reachable ρ.now := by
    intro ρ h
    induction h with
    | init h => exact .init h.1
    | step _ _ hn ih =>
      obtain ⟨σ, hσ, rfl⟩ := Option.map_eq_some_iff.mp hn
      exact .step ih trivial hσ
  have hcalm : (recorded T n AllSet ops).ReachableBy (fun ρ => Undisturbed ρ.now) ρ :=
    h.mono fun ρ e hr _ => (settled_run (hnow ρ hr)).2.undisturbed e
  obtain ⟨l, r, ph, hρ⟩ := run_tracks hcalm
  exact hρ.linearizable

end Runs

end Concurrent

end SplitOrder
