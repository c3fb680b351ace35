/-
Runs in which any allocation may throw.

A call that throws has done nothing or, if it is an insert, all of what it
is for: `MapCall` says so of a map, with no table. What else an insert can
leave is its data node, made and not linked. `throws_refine_map` is that,
for whole runs: the list binds what the calls have made of the map, the
nodes that are lost are no more than the inserts that threw, and the
destructor deletes each of the others once.
-/
import SplitOrder.Solist.Bindings

namespace SplitOrder

open Heap

variable {T : Type}

/-! ## The map -/

/-- A call on the map, with the result it shows; a call that throws shows none. -/
inductive MapCall (m : Hash → Option T) : Op T → Option (View T) → (Hash → Option T) → Prop
  | returned {op} : MapCall m op (some (specCall m op).1) (specCall m op).2
  | threw {op} : MapCall m op none m
  | threwLate {h v} : m h = none → MapCall m (.insertNode h v) none (Function.update m h (some v))

/-- The calls of a run, from the empty map. -/
inductive MapTrace : List (Op T × Option (View T)) → (Hash → Option T) → Prop
  | nil : MapTrace [] fun _ => none
  | snoc {hist m m' op view} : MapTrace hist m → MapCall m op view m' → MapTrace (hist ++ [(op, view)]) m'

/-- An insert that threw. -/
def insertThrew : Op T × Option (View T) → Bool
  | (.insertNode _ _, none) => true
  | _ => false

namespace Throwing

open Solist

/-- `Throwing.sessions`, with the calls made and what they showed. -/
def histories (T : Type) (size bucketLength : Hash) :
    System (Session T × List (Op T × Option (View T))) (Nat × Op T × Nat) where
  init s := (sessions T size bucketLength).init s.1 ∧ s.2 = []
  next s e :=
    if e.2.1.Valid s.1.list then
      match call s.1 e.1 e.2.1 e.2.2 with
      | .ok (r, s') => some (s', s.2 ++ [(e.2.1, some (r.view s'.list.heap))])
      | .error (.badAlloc a list) => some (s.1.after e.1 a list, s.2 ++ [(e.2.1, none)])
      | .error (.fault _) => none
    else none

variable {s s' : Solist T} {l p : List Addr} {a a' : Accessor} {hashv : Hash} {m : Hash → Option T} {k : Nat}

/-! ## What a call leaves -/

/-- A list between two calls that binds what `m` does, with the nodes `p` lost. -/
def Stands (s : Solist T) (m : Hash → Option T) (p : List Addr) : Prop := (∃ l, s.Inv l p) ∧ s.Maps m

/-- How a call may end, from a list that binds `m`, with `p` lost. -/
structure Ends {α : Type} (s : Solist T) (m : Hash → Option T) (p : List Addr) (op : Op T) (list : α → Solist T)
    (view : α → View T) (x : Except (Abort T) (α × Nat)) : Prop where
  returns : ∀ r k, x = .ok (r, k) → view r = (specCall m op).1 ∧ Stands (list r) (specCall m op).2 p
  throws : ∀ a s', x = .error (.badAlloc a s') → ∃ m' p', MapCall m op none m' ∧ Stands s' m' p' ∧
    (p' = p ∨ insertThrew (op, none) = true ∧ p' = s.heap.size :: p)
  faults : ∀ f, x = .error (.fault f) → f = .copyOutOfBounds ∧ s.nBuckets.toNat = 2 ^ 31 ∧ ∃ h v, op = .insertNode h v

theorem Ends.ofThrow {α : Type} {op : Op T} {list : α → Solist T} {view : α → View T} {m' : Hash → Option T}
    {p' : List Addr} (hm : MapCall m op none m') (hs : Stands s' m' p')
    (hp : p' = p ∨ insertThrew (op, none) = true ∧ p' = s.heap.size :: p) :
    Ends s m p op list view (.error (.badAlloc a s')) where
  returns _ _ h := by cases h
  throws _ _ h := by
    cases h
    exact ⟨m', p', hm, hs, hp⟩
  faults _ h := by cases h

theorem Ends.ofReturn {α : Type} {op : Op T} {list : α → Solist T} {view : α → View T} {r : α}
    (hv : view r = (specCall m op).1) (hs : Stands (list r) (specCall m op).2 p) :
    Ends s m p op list view (counted k (.ok r)) where
  returns _ _ h := by
    cases h
    exact ⟨hv, hs⟩
  throws _ _ h := by cases h
  faults _ h := by cases h

theorem Ends.ofFault {α : Type} {op : Op T} {list : α → Solist T} {view : α → View T}
    (hn : s.nBuckets.toNat = 2 ^ 31) (hop : ∃ h v, op = .insertNode h v) :
    Ends s m p op list view (counted k (.error .copyOutOfBounds)) where
  returns _ _ h := by cases h
  throws _ _ h := by cases h
  faults _ h := by
    cases h
    exact ⟨rfl, hn, hop⟩

/-! ## Each call -/

theorem initialiseBucket_ends (hi : s.Inv l p) (hm : s.Maps m) {slot : Hash} (hs : slot < s.nBuckets) (a : Accessor)
    (k : Nat) : Ends s m p (.initialiseBucket slot) (fun r => r.2) (fun _ => .unit) (initialiseBucket s a slot k) := by
  rcases initialiseBucket_cases s a slot k with ⟨-, h⟩ | ⟨k', h⟩
  · rw [h]
    exact .ofThrow .threw ⟨⟨l, hi⟩, hm⟩ (.inl rfl)
  · obtain ⟨a', s', l', hrun, hsame, -⟩ := initialiseBucket_spec hi hs a
    rw [h, hrun]
    exact .ofReturn rfl ⟨⟨l', hsame.inv⟩, hsame.maps hi hm⟩

theorem deleteNode_ends (hi : s.Inv l p) (hm : s.Maps m) (hh : hashv.toNat < 2 ^ 31) (a : Accessor) (k : Nat) :
    Ends s m p (.deleteNode hashv) (fun r => r.2.2) (fun r => .bool r.1) (deleteNode s a hashv k) := by
  have hrun : deleteNode s a hashv k =
      deleteLoop hashv (s.heap.size + 1) s a k >>= fun x => .ok ((x.1.1, x.1.2.1.zap, x.1.2.2), x.2) := rfl
  rw [hrun]
  rcases deleteLoop_cases hi hh s.heap.size a k with ⟨-, h⟩ | ⟨k', h⟩
  · rw [h, bind_error]
    exact .ofThrow .threw ⟨⟨l, hi⟩, hm⟩ (.inl rfl)
  · obtain ⟨a₁, s₁, A, n, B, hsame, -, ⟨habs, hloop⟩ | ⟨hd, hv, A, c, rfl, hloop⟩⟩ :=
      deleteLoop_spec hi hh s.heap.size a
    · rw [hm.holds_iff hi] at habs
      rw [h, hloop, counted_ok, bind_ok]
      refine .ofReturn (k := k') (r := (false, a₁.zap, s₁)) ?_ ?_
      · simp [specCall, habs]
      · simp only [specCall, habs]
        exact ⟨⟨_, hsame.inv⟩, hsame.maps hi hm⟩
    · have hi₁ := hsame.inv
      rw [List.append_assoc] at hi₁
      have hold : (m hashv).isSome := (hm.holds_iff hi).mp ((hsame.holds_iff hi).mp ⟨n, by simp, hd, hv⟩)
      rw [h, hloop, counted_ok, bind_ok]
      refine .ofReturn (k := k') (r := (true, a₁.zap, s₁.removeItem n c B.head?)) ?_ ?_
      · simp [specCall, hold]
      · simp only [specCall, hold]
        exact ⟨⟨_, removeItem_inv hi₁ hd⟩, removeItem_maps hi₁ hd hv (hsame.maps hi hm)⟩

theorem findItemNode_ends (hi : s.Inv l p) (hm : s.Maps m) (hh : hashv.toNat < 2 ^ 31) (a : Accessor) (k : Nat) :
    Ends s m p (.findItemNode hashv) (fun r => r.2.2) (fun r => (Res.item r.1).view r.2.2.heap)
      (findItemNode s a hashv k) := by
  obtain ⟨a₁, s₁, A, c, B, hfind, hsame, -, hf, -⟩ := findNode_spec hi hh a
  have hi₁ := hsame.inv
  have hm₁ := hsame.maps hi hm
  have hhold : (m hashv).isSome ↔ s₁.heap.key c = solNodeKey hashv :=
    (hm.holds_iff hi).symm.trans ((hsame.holds_iff hi).symm.trans (hf.holds_iff hi₁ hh))
  rcases findNode_cases s a hashv k with ⟨-, h⟩ | ⟨k', h⟩
  · rw [findItemNode, h, bind_error]
    exact .ofThrow .threw ⟨⟨l, hi⟩, hm⟩ (.inl rfl)
  · rw [hfind, counted_ok] at h
    rw [findItemNode, h, bind_ok]
    by_cases hkey : s₁.heap.key c = solNodeKey hashv
    · obtain ⟨hd, hv⟩ := (hi₁.key_eq_iff hh (by simp)).mp hkey
      obtain ⟨v, hp⟩ := Option.isSome_iff_exists.mp hd
      have hbind := (hm₁ hashv v).mp (hi₁.binds_iff.mpr ⟨c, by simp, hv, hp⟩)
      simp only [hkey, beq_self_eq_true, if_true, hf.cur, deref_live (hi₁.chain.live (a := c) (by simp)), lift_ok,
        bind_ok, hp]
      refine .ofReturn (k := k') (r := (some c, a₁, s₁)) ?_ ⟨⟨_, hi₁⟩, hm₁⟩
      simp [Res.view, specCall, hp, hbind]
    · have habs : m hashv = none := by
        rw [← Option.not_isSome_iff_eq_none, hhold]
        exact hkey
      simp only [hkey, beq_iff_eq, if_false]
      refine .ofReturn (k := k') (r := (none, a₁, s₁)) ?_ ⟨⟨_, hi₁⟩, hm₁⟩
      simp [Res.view, specCall, habs]

/-- `insert_node` after its loop. -/
def finishInsert (s : Solist T) (hashv : Hash) (x : (Bool × Accessor × Solist T) × Nat) :
    Except (Abort T) ((Bool × Accessor × Solist T) × Nat) :=
  let ((result, a, s'), k) := x
  if !result then .ok ((result, a.zap, { s' with heap := s'.heap.delete s.heap.size }), k)
  else do
    let n ← lift (s'.heap.deref a.cur)
    let a ← lift (s'.advanceWhile Node.isNode true s'.fuel { a with next := n.next.ptr })
    let ((a, s'), k) ← expansionCheck s' a hashv s.nBuckets k
    .ok ((result, a.zap, s'), k)

theorem insertNode_eq (hh : hashv.toNat < 2 ^ 31) (s : Solist T) (a : Accessor) (v : T) (k : Nat) :
    insertNode s a hashv v (k + 1) =
      insertLoop hashv s.heap.size (s.heap.size + 1)
        { s with heap := s.heap.new { hashv, key := solNodeKey hashv, payload := some v } } a k >>=
          finishInsert s hashv := by
  simp only [insertNode, solistNode_ok v hh, lift_ok, bind_ok]
  rfl

theorem insertNode_ends (hi : s.Inv l p) (hm : s.Maps m) (hh : hashv.toNat < 2 ^ 31) (a : Accessor) (v : T) (k : Nat) :
    Ends s m p (.insertNode hashv v) (fun r => r.2.2) (fun r => .bool r.1) (insertNode s a hashv v k) := by
  cases k with
  | zero => exact .ofThrow .threw ⟨⟨l, hi⟩, hm⟩ (.inl rfl)
  | succ k =>
    let b : Node T := { hashv, key := solNodeKey hashv, payload := some v }
    let s₀ : Solist T := { s with heap := s.heap.new b }
    have hi₀ : s₀.Inv l (s.heap.size :: p) := hi.new
    have hm₀ : s₀.Maps m := hi.maps_new hm
    have hb : s₀.heap.node s.heap.size = b := by simp [s₀]
    rw [insertNode_eq hh]
    rcases insertLoop_cases hi₀ hh hb s.heap.size a k with ⟨-, h⟩ | ⟨k₁, h⟩
    · rw [h, bind_error]
      exact .ofThrow .threw ⟨⟨l, hi₀⟩, hm₀⟩ (.inr ⟨rfl, rfl⟩)
    obtain ⟨a₁, s₁, A, c, B, hsame, hnb, hcur, -, ⟨hold, hloop⟩ | ⟨habs, hinv, hloop⟩⟩ :=
      insertLoop_spec (v := v) hi₀ hh hb s.heap.size a
    · rw [hm₀.holds_iff hi₀] at hold
      rw [h, hloop, counted_ok, bind_ok]
      refine .ofReturn (k := k₁) (r := (false, a₁.zap, { s₁ with heap := s₁.heap.delete s.heap.size })) ?_ ?_
      · simp [specCall, hold]
      · simp only [specCall, hold]
        exact ⟨⟨_, hsame.inv.discard⟩, hsame.inv.maps_discard (hsame.maps hi₀ hm₀)⟩
    rw [hm₀.holds_iff hi₀] at habs
    have hnone : m hashv = none := Option.not_isSome_iff_eq_none.mp habs
    have hn : s₁.heap.node s.heap.size = b := (hsame.pending _ (by simp)).trans hb
    have hm₂ : (s₁.linkItem s.heap.size c B.head?).Maps (Function.update m hashv (some v)) :=
      linkItem_maps hsame.inv hinv (by simp [hn, b]) (by simp [hn, b]) (hsame.maps hi₀ hm₀) hnone
    obtain ⟨hderef, a₂, -, -, hwalk, -⟩ := walkBucket_spec hinv hcur
    have hnb₂ : s.nBuckets = (s₁.linkItem s.heap.size c B.head?).nBuckets := hnb.symm
    rw [h, hloop, counted_ok, bind_ok]
    simp only [finishInsert, Bool.not_true, Bool.false_eq_true, if_false, hderef, lift_ok, bind_ok, hwalk, hnb₂]
    rcases expansionCheck_cases hinv a₂ hashv k₁ with ⟨s', l', hx, hsame'⟩ | ⟨k₂, hx⟩
    · rw [hx, bind_error]
      exact .ofThrow (.threwLate hnone) ⟨⟨l', hsame'.inv⟩, hsame'.maps hinv hm₂⟩ (.inl rfl)
    rcases expansionCheck_spec hinv a₂ hashv with ⟨a', s', l', h', hsame', -⟩ | ⟨-, hfull, h'⟩
    · rw [hx, h', counted_ok, bind_ok]
      refine .ofReturn (k := k₂) (r := (true, a'.zap, s')) ?_ ?_
      · simp [specCall, hnone]
      · simp only [specCall, hnone]
        exact ⟨⟨l', hsame'.inv⟩, hsame'.maps hinv hm₂⟩
    · rw [hx, h', counted_error, bind_error]
      rw [← hnb₂] at hfull
      exact .ofFault (k := k₂) hfull ⟨hashv, v, rfl⟩

/-- A call returns, with the map's answer and the map's bindings; or it throws, having done nothing or
all of it; or the table is at its largest. -/
def CallEnds (s : Session T) (m : Hash → Option T) (p : List Addr) (op : Op T) (x : Except (Abort T) (Res × Session T)) :
    Prop :=
  (∃ r s', x = .ok (r, s') ∧ r.view s'.list.heap = (specCall m op).1 ∧ Stands s'.list (specCall m op).2 p) ∨
  (∃ a s' m' p', x = .error (.badAlloc a s') ∧ MapCall m op none m' ∧ Stands s' m' p' ∧
    (p' = p ∨ insertThrew (op, none) = true ∧ p' = s.list.heap.size :: p)) ∨
  (x = .error (.fault .copyOutOfBounds) ∧ s.list.nBuckets.toNat = 2 ^ 31 ∧ ∃ h v, op = .insertNode h v)

theorem Ends.call {α : Type} {s : Session T} {op : Op T} {list : α → Solist T} {x : Except (Abort T) (α × Nat)}
    {y : Except (Abort T) (Res × Session T)} (i : Nat) (acc : α → Accessor) (res : α → Res)
    (he : Ends s.list m p op list (fun r => (res r).view (list r).heap) x)
    (hy : y = x >>= fun r => .ok (res r.1, s.after i (acc r.1) (list r.1))) : CallEnds s m p op y := by
  cases x with
  | ok r =>
    obtain ⟨hview, hstands⟩ := he.returns r.1 r.2 rfl
    exact .inl ⟨_, _, hy, hview, hstands⟩
  | error e =>
    cases e with
    | fault f =>
      obtain ⟨rfl, hn, hop⟩ := he.faults f rfl
      exact .inr (.inr ⟨hy, hn, hop⟩)
    | badAlloc a s' =>
      obtain ⟨m', p', hm', hstands, hp⟩ := he.throws a s' rfl
      exact .inr (.inl ⟨a, s', m', p', hy, hm', hstands, hp⟩)

/-- **However a call ends.** -/
theorem call_ends {s : Session T} (hs : Stands s.list m p) (i : Nat) {op : Op T} (hv : op.Valid s.list) (k : Nat) :
    CallEnds s m p op (call s i op k) := by
  obtain ⟨⟨l, hi⟩, hm⟩ := hs
  cases op with
  | insertNode h v =>
    refine (insertNode_ends hi hm hv (s.accessor i) v k).call i (fun r : Bool × Accessor × Solist T => r.2.1)
      (fun r => .bool r.1) ?_
    simp only [call]
    cases insertNode s.list (s.accessor i) h v k <;> rfl
  | deleteNode h =>
    refine (deleteNode_ends hi hm hv (s.accessor i) k).call i (fun r : Bool × Accessor × Solist T => r.2.1)
      (fun r => .bool r.1) ?_
    simp only [call]
    cases deleteNode s.list (s.accessor i) h k <;> rfl
  | findItemNode h =>
    refine (findItemNode_ends hi hm hv (s.accessor i) k).call i
      (fun r : Option Addr × Accessor × Solist T => r.2.1) (fun r => .item r.1) ?_
    simp only [call]
    cases findItemNode s.list (s.accessor i) h k <;> rfl
  | initialiseBucket slot =>
    refine (initialiseBucket_ends hi hm hv (s.accessor i) k).call i (fun r => r.1) (fun _ => .unit) ?_
    simp only [call]
    cases initialiseBucket s.list (s.accessor i) slot k <;> rfl

/-! ## Runs -/

theorem histories_stand {size bucketLength : Hash} (hsize : ∃ k, size.toNat = 2 ^ k)
    {x : Session T × List (Op T × Option (View T))} (h : (histories T size bucketLength).Reachable x) :
    ∃ m p, MapTrace x.2 m ∧ Stands x.1.list m p ∧ p.length ≤ x.2.countP insertThrew := by
  refine h.invariant (I := fun x => ∃ m p, MapTrace x.2 m ∧ Stands x.1.list m p ∧
    p.length ≤ x.2.countP insertThrew) (fun x hx => ?_) fun x e x' hx _ hn => ?_
  · obtain ⟨⟨list, hlist, hs⟩, hhist⟩ := hx
    obtain ⟨s₀, hs₀, hr⟩ := create_spec (T := T) size bucketLength (Solist.two_pow_le hsize)
    cases hs₀.symm.trans hlist
    rw [hhist, hs]
    exact ⟨_, [], .nil, ⟨⟨[0], hr.inv⟩, fun h v => hr.binds_iff⟩, Nat.le_refl 0⟩
  · obtain ⟨m, p, htr, hs, hlen⟩ := hx
    simp only [histories] at hn
    split at hn
    · rcases call_ends hs e.1 ‹_› e.2.2 with ⟨r, s', hcall, hview, hs'⟩ | ⟨a, s', m', p', hcall, hm', hs', hp⟩ |
        ⟨hcall, -⟩
      · rw [hcall] at hn
        cases hn
        refine ⟨_, p, htr.snoc (hview ▸ .returned), hs', ?_⟩
        rw [List.countP_append]
        exact Nat.le_trans hlen (Nat.le_add_right _ _)
      · rw [hcall] at hn
        cases hn
        refine ⟨m', p', htr.snoc hm', hs', ?_⟩
        rw [List.countP_append, List.countP_singleton]
        rcases hp with rfl | ⟨hins, rfl⟩
        · exact Nat.le_trans hlen (Nat.le_add_right _ _)
        · rw [if_pos hins, List.length_cons]
          exact Nat.succ_le_succ hlen
      · rw [hcall] at hn
        cases hn
    · cases hn

end Throwing

/-- **Every call is atomic, whichever allocations throw.** In any state of a
run the bindings are what the calls make of the map, a call that threw
having done nothing or, an insert, all of it; the nodes neither in the
list nor deleted are no more than the inserts that threw, and `~solist`
deletes each of the others once; and the next valid call returns or throws,
except an insert that would grow the table past `2 ^ 31` slots. -/
theorem throws_refine_map (T : Type) (size bucketLength : Hash) (hsize : ∃ k, size.toNat = 2 ^ k) :
    ∀ (s : Session T) (hist : List (Op T × Option (View T))),
      (Throwing.histories T size bucketLength).Reachable (s, hist) →
      (∃ m, MapTrace hist m ∧ s.list.Maps m) ∧
      (∃ lost : List Addr, lost.length ≤ hist.countP insertThrew ∧
        (∀ x < s.list.heap.size, (s.list.nodes ++ lost ++ s.list.heap.deleted).count x = 1) ∧
        ∃ h, s.list.destroy = .ok h ∧ ∀ x < s.list.heap.size, (lost ++ h.deleted).count x = 1) ∧
      ∀ i (op : Op T) k, op.Valid s.list →
        (∃ r s', Throwing.call s i op k = .ok (r, s')) ∨
        (∃ a s', Throwing.call s i op k = .error (.badAlloc a s')) ∨
        (Throwing.call s i op k = .error (.fault .copyOutOfBounds) ∧ s.list.nBuckets.toNat = 2 ^ 31 ∧
          ∃ h v, op = .insertNode h v) := by
  intro s hist h
  obtain ⟨m, p, htr, hs, hlen⟩ := Throwing.histories_stand hsize h
  refine ⟨⟨m, htr, hs.2⟩, ?_, fun i op k hv => ?_⟩
  · obtain ⟨l, hi⟩ := hs.1
    have howned : ∀ x < s.list.heap.size, (l ++ p ++ s.list.heap.deleted).count x = 1 := fun x hx => by
      rw [hi.chain.owned.count_eq]
      exact List.count_eq_one_of_mem List.nodup_range (List.mem_range.mpr hx)
    obtain ⟨h', hrun, hdel⟩ := hi.destroy_deletes
    refine ⟨p, hlen, by rwa [hi.nodes_eq], h', hrun, fun x hx => ?_⟩
    rw [← howned x hx, hdel]
    simp only [List.count_append]
    omega
  · rcases Throwing.call_ends hs i hv k with ⟨r, s', hcall, -⟩ | ⟨a, s', -, -, hcall, -⟩ | hfault
    · exact .inl ⟨r, s', hcall⟩
    · exact .inr (.inl ⟨a, s', hcall⟩)
    · exact .inr (.inr hfault)

/-- An insert that returns, and one that throws at its second allocation. -/
theorem throws_refine_map_two : ∃ s hist, (Throwing.histories Nat 2 4).Reachable (s, hist) ∧
    hist = [(.insertNode 0 7, some (.bool true)), (.insertNode 1 8, none)] ∧ ∃ m, MapTrace hist m ∧ s.list.Maps m := by
  obtain ⟨list, hlist, -⟩ := Solist.create_ok (T := Nat) 2 4 (by decide)
  have hsome : ((Throwing.histories Nat 2 4).run ({ list }, []) [(0, .insertNode 0 7, 9), (0, .insertNode 1 8, 1)]).map
      Prod.snd = some [(.insertNode 0 7, some (.bool true)), (.insertNode 1 8, none)] := by
    cases hlist
    decide +kernel
  obtain ⟨⟨s, hist⟩, hrun, hhist⟩ := Option.map_eq_some_iff.mp hsome
  have hreach : (Throwing.histories Nat 2 4).Reachable (s, hist) :=
    System.run_reachable (.init ⟨⟨list, hlist, rfl⟩, rfl⟩) hrun
  exact ⟨s, hist, hreach, hhist, (throws_refine_map Nat 2 4 ⟨1, rfl⟩ s hist hreach).1⟩

end SplitOrder
