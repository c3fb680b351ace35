/-
What `insert_node` leaves when an allocation throws.

A part of a call either throws before it has changed anything, or does
what `Solist.Model` says (the `_cases` lemmas). So there are three points
at which an insert can throw: before anything is made, with the data node
made and not linked, and with the item added.
-/
import SplitOrder.Solist.Resize
import SplitOrder.Solist.Throwing

namespace SplitOrder

open Heap

variable {T : Type}

namespace Throwing

open Solist

variable {s s' : Solist T} {l p A B : List Addr} {a a' : Accessor} {slot hashv : Hash} {n c : Addr} {k : Nat}

section Lift

variable {α : Type} {r : α} {f : Fault}

@[simp] theorem lift_ok : lift (T := T) (.ok r) = .ok r := rfl
@[simp] theorem lift_error : lift (T := T) (.error f : Except Fault α) = .error (.fault f) := rfl
@[simp] theorem counted_ok : counted (T := T) k (.ok r) = .ok (r, k) := rfl
@[simp] theorem counted_error : counted (T := T) k (.error f : Except Fault α) = .error (.fault f) := rfl

end Lift

/-! ## A part throws first, or not at all -/

theorem initialiseBucket_cases (s : Solist T) (a : Accessor) (slot : Hash) (k : Nat) :
    (k = 0 ∧ initialiseBucket s a slot k = .error (.badAlloc a s)) ∨
      ∃ k', initialiseBucket s a slot k = counted k' (s.initialiseBucket a slot) := by
  by_cases hs : slot < s.nBuckets
  · cases hb : s.bucket slot with
    | error f => exact .inr ⟨k, by simp [initialiseBucket, Solist.initialiseBucket, hs, hb, bind_error]⟩
    | ok b =>
      cases b with
      | some b => exact .inr ⟨k, by simp [initialiseBucket, Solist.initialiseBucket, hs, hb, bind_ok]⟩
      | none =>
        cases k with
        | zero => exact .inl ⟨rfl, by simp [initialiseBucket, hs, hb, bind_ok]⟩
        | succ k => exact .inr ⟨k, by simp [initialiseBucket, hs, hb, bind_ok]⟩
  · exact .inr ⟨k, by simp [initialiseBucket, Solist.initialiseBucket, hs]⟩

theorem expand_cases (s : Solist T) (a : Accessor) (currSize : Hash) (k : Nat) :
    (k = 0 ∧ expand s a currSize k = .error (.badAlloc a s)) ∨
      ∃ k', expand s a currSize k = counted k' (s.expand currSize) := by
  by_cases hlt : currSize < s.nBuckets
  · exact .inr ⟨k, by simp [expand, Solist.expand, hlt]⟩
  · cases k with
    | zero => exact .inl ⟨rfl, by simp [expand, hlt]⟩
    | succ k => exact .inr ⟨k, by simp [expand, hlt]⟩

theorem findNode_cases (s : Solist T) (a : Accessor) (hashv : Hash) (k : Nat) :
    (k = 0 ∧ findNode s a hashv k = .error (.badAlloc a s)) ∨
      ∃ k', findNode s a hashv k = counted k' (s.findNode a hashv) := by
  have htail : ∀ (s₁ : Solist T) (a₁ : Accessor) (k' : Nat),
      (lift (T := T) (s₁.findNodeTryAgain a₁ (hashv % s.nBuckets) (solNodeKey hashv)) >>= fun r =>
        .ok ((r.1, r.2, s₁), k')) =
      counted k' (s₁.findNodeTryAgain a₁ (hashv % s.nBuckets) (solNodeKey hashv) >>= fun r => .ok (r.1, r.2, s₁)) := by
    intro s₁ a₁ k'
    cases s₁.findNodeTryAgain a₁ (hashv % s.nBuckets) (solNodeKey hashv) with
    | error f => rfl
    | ok r => rfl
  unfold findNode Solist.findNode
  cases hb : s.bucket (hashv % s.nBuckets) with
  | error f =>
    refine .inr ⟨k, ?_⟩
    simp only [hb]
    rfl
  | ok b =>
    cases b with
    | some b =>
      refine .inr ⟨k, ?_⟩
      simp only [hb]
      exact htail s a k
    | none =>
      rcases initialiseBucket_cases s a (hashv % s.nBuckets) k with ⟨hk, h⟩ | ⟨k', h⟩
      · exact .inl ⟨hk, by simp only [hb, lift_ok, bind_ok, Option.isNone_none, if_true, h, bind_error]⟩
      · refine .inr ⟨k', ?_⟩
        simp only [hb, lift_ok, bind_ok, Option.isNone_none, if_true, h]
        cases s.initialiseBucket a (hashv % s.nBuckets) with
        | error f => rfl
        | ok r => exact htail r.2 r.1 k'

/-- The loop of `insert_node` throws in its first search, or not at all. -/
theorem insertLoop_cases {v : T} (hi : s.Inv l (n :: p)) (hh : hashv.toNat < 2 ^ 31)
    (hn : s.heap.node n = { hashv, key := solNodeKey hashv, payload := some v }) (fuel : Nat) (a : Accessor) (k : Nat) :
    (k = 0 ∧ insertLoop hashv n (fuel + 1) s a k = .error (.badAlloc a s)) ∨
      ∃ k', insertLoop hashv n (fuel + 1) s a k = counted k' (Solist.insertLoop hashv n (fuel + 1) s a) := by
  obtain ⟨a', s₁, A, c, B, hfind, hsame, -, hf, -⟩ := findNode_spec hi hh a
  rcases findNode_cases s a hashv k with ⟨hk, h⟩ | ⟨k', h⟩
  · exact .inl ⟨hk, by rw [insertLoop, h, bind_error]⟩
  · refine .inr ⟨k', ?_⟩
    rw [hfind, counted_ok] at h
    rw [insertLoop, Solist.insertLoop, h, hfind]
    by_cases hkey : s₁.heap.key c = solNodeKey hashv
    · simp [hkey, bind_ok]
    · obtain ⟨h', hassign, hcas⟩ := linkItem_turn hsame.inv ((hsame.pending n (by simp)).trans hn) hf
      simp [hkey, hassign, hcas, bind_ok]

/-- The expansion check throws with the items as they were, or not at all. -/
theorem expansionCheck_cases (hi : s.Inv l p) (a : Accessor) (hashv : Hash) (k : Nat) :
    (∃ s' l', expansionCheck s a hashv s.nBuckets k = .error (.badAlloc a s') ∧ SameItems s l p s' l') ∨
      ∃ k', expansionCheck s a hashv s.nBuckets k = counted k' (s.expansionCheck a hashv s.nBuckets) := by
  unfold expansionCheck Solist.expansionCheck
  by_cases hlong : a.steps > s.maxBucketLength
  · rw [if_pos hlong, if_pos hlong]
    by_cases hfull : a.steps ≥ s.maxBucketLength * 2 ∨ s.nItems ≥ s.maxBucketLength * s.nBuckets
    · simp only [if_pos hfull]
      rcases expand_cases s a s.nBuckets k with ⟨-, h⟩ | ⟨k₁, h⟩
      · exact .inl ⟨s, l, by rw [h, bind_error], .refl hi⟩
      · rcases Nat.lt_or_ge s.nBuckets.toNat (2 ^ 31) with hn | hn
        · rw [expand_eq hi.size hn, counted_ok] at h
          rw [h, expand_eq hi.size hn]
          rcases initialiseBucket_cases s.doubled a (hashv % s.nBuckets + s.nBuckets) k₁ with ⟨-, h₂⟩ | ⟨k₂, h₂⟩
          · exact .inl ⟨s.doubled, l, h₂, doubled_sameItems hi hn⟩
          · exact .inr ⟨k₂, h₂⟩
        · have hn : s.nBuckets.toNat = 2 ^ 31 := Nat.le_antisymm hi.table.nBuckets_le hn
          rw [expand_overflow hi.size hn, counted_error] at h
          exact .inr ⟨k₁, by rw [h, expand_overflow hi.size hn]; rfl⟩
    · simp only [if_neg hfull]
      by_cases hib : hashv % s.nBuckets + s.nBuckets / 2 < s.nBuckets
      · rw [if_pos hib, if_pos hib]
        rcases initialiseBucket_cases s a (hashv % s.nBuckets + s.nBuckets / 2) k with ⟨-, h⟩ | ⟨k', h⟩
        · exact .inl ⟨s, l, h, .refl hi⟩
        · exact .inr ⟨k', h⟩
      · rw [if_neg hib, if_neg hib]
        exact .inr ⟨k, rfl⟩
  · rw [if_neg hlong, if_neg hlong]
    exact .inr ⟨k, rfl⟩

/-- The loop of `delete_node` throws in its first search, or not at all. -/
theorem deleteLoop_cases (hi : s.Inv l p) (hh : hashv.toNat < 2 ^ 31) (fuel : Nat) (a : Accessor) (k : Nat) :
    (k = 0 ∧ deleteLoop hashv (fuel + 1) s a k = .error (.badAlloc a s)) ∨
      ∃ k', deleteLoop hashv (fuel + 1) s a k = counted k' (Solist.deleteLoop hashv (fuel + 1) s a) := by
  obtain ⟨a', s₁, A, c, B, hfind, hsame, -, hf, -⟩ := findNode_spec hi hh a
  rcases findNode_cases s a hashv k with ⟨hk, h⟩ | ⟨k', h⟩
  · exact .inl ⟨hk, by rw [deleteLoop, h, bind_error]⟩
  · refine .inr ⟨k', ?_⟩
    rw [hfind, counted_ok] at h
    rw [deleteLoop, Solist.deleteLoop, h, hfind]
    by_cases hkey : s₁.heap.key c = solNodeKey hashv
    · obtain ⟨A, q, rfl, hprev⟩ := hf.prev hkey
      have hi₁ := hsame.inv
      rw [List.append_assoc] at hi₁
      obtain ⟨h₁, h₂, hmark, hcas, -⟩ := removeItem_turn hi₁ hf.cur hf.next hprev
      simp only [hkey, beq_self_eq_true, bind_ok, lift_ok, Bool.not_true, Bool.false_eq_true, if_false, hmark, hcas,
        if_true]
      rw [hf.cur]
      rfl
    · simp [hkey, bind_ok]

/-! ## Where an insert can throw -/

/-- **`insert_node`** throws before anything is made, or with its node made and
not linked, or with its item added; or it does what it does when nothing fails. -/
theorem insertNode_cases (hi : s.Inv l p) (hh : hashv.toNat < 2 ^ 31) (a : Accessor) (v : T) (k : Nat) :
    (k = 0 ∧ insertNode s a hashv v k = .error (.badAlloc a s)) ∨
    (k ≠ 0 ∧ insertNode s a hashv v k =
      .error (.badAlloc a { s with heap := s.heap.new { hashv, key := solNodeKey hashv, payload := some v } })) ∨
    (k ≠ 0 ∧ ¬ s.Holds l hashv ∧ ∃ a' s' l', insertNode s a hashv v k = .error (.badAlloc a' s') ∧ s'.Inv l' p ∧
      s'.Holds l' hashv) ∨
    ∃ k', insertNode s a hashv v k = counted k' (s.insertNode a hashv v) ∧
      ∀ r, s.insertNode a hashv v = .ok r → ∃ l', r.2.2.Inv l' p := by
  cases k with
  | zero => exact .inl ⟨rfl, rfl⟩
  | succ k =>
    right
    let b : Node T := { hashv, key := solNodeKey hashv, payload := some v }
    let s₀ : Solist T := { s with heap := s.heap.new b }
    have hi₀ : s₀.Inv l (s.heap.size :: p) := hi.new
    have hb : s₀.heap.node s.heap.size = b := by simp [s₀]
    have hnode := solistNode_ok v hh
    have hthrow : insertNode s a hashv v (k + 1) =
        insertLoop hashv s.heap.size (s.heap.size + 1) s₀ a k >>= (fun x =>
          if !x.1.1 then .ok ((x.1.1, x.1.2.1.zap, { x.1.2.2 with heap := x.1.2.2.heap.delete s.heap.size }), x.2)
          else do
            let n ← lift (x.1.2.2.heap.deref x.1.2.1.cur)
            let a ← lift (x.1.2.2.advanceWhile Node.isNode true x.1.2.2.fuel { x.1.2.1 with next := n.next.ptr })
            let r ← expansionCheck x.1.2.2 a hashv s.nBuckets x.2
            .ok ((x.1.1, r.1.1.zap, r.1.2), r.2)) := by
      simp only [insertNode, hnode, lift_ok, bind_ok]
      rfl
    have hplain : s.insertNode a hashv v =
        Solist.insertLoop hashv s.heap.size (s.heap.size + 1) s₀ a >>= (fun x =>
          if !x.1 then .ok (x.1, x.2.1.zap, { x.2.2 with heap := x.2.2.heap.delete s.heap.size })
          else do
            let n ← x.2.2.heap.deref x.2.1.cur
            let a ← x.2.2.advanceWhile Node.isNode true x.2.2.fuel { x.2.1 with next := n.next.ptr }
            let r ← x.2.2.expansionCheck a hashv s.nBuckets
            .ok (x.1, r.1.zap, r.2)) := by
      simp only [Solist.insertNode, hnode, bind_ok]
      rfl
    rcases insertLoop_cases hi₀ hh hb s.heap.size a k with ⟨-, h⟩ | ⟨k₁, h⟩
    · exact .inl ⟨Nat.succ_ne_zero k, by rw [hthrow, h, bind_error]⟩
    · obtain ⟨a₁, s₁, A, c, B, hsame, hnb, hcur, -, ⟨-, hloop⟩ | ⟨habs, hinv, hloop⟩⟩ :=
        insertLoop_spec (v := v) hi₀ hh hb s.heap.size a
      · rw [hloop, counted_ok] at h
        rw [h, bind_ok] at hthrow
        rw [hloop, bind_ok] at hplain
        refine .inr (.inr ⟨k₁, by rw [hthrow, hplain]; rfl, fun r hr => ?_⟩)
        cases hplain.symm.trans hr
        exact ⟨_, hsame.inv.discard⟩
      · rw [hloop, counted_ok] at h
        set s₂ := s₁.linkItem s.heap.size c B.head? with hs₂
        have hnb₂ : s.nBuckets = s₂.nBuckets := hnb.symm
        obtain ⟨hderef, a₂, -, -, hwalk, -⟩ := walkBucket_spec hinv hcur
        rw [h, bind_ok, hnb₂] at hthrow
        rw [hloop, bind_ok, hnb₂] at hplain
        simp only [Bool.not_true, Bool.false_eq_true, if_false, hderef, lift_ok, bind_ok, hwalk] at hthrow
        simp only [Bool.not_true, Bool.false_eq_true, if_false, hderef, bind_ok, hwalk] at hplain
        rcases expansionCheck_cases hinv a₂ hashv k₁ with ⟨s', l', hx, hsame'⟩ | ⟨k₂, hx⟩
        · refine .inr (.inl ⟨Nat.succ_ne_zero k, fun hold => habs ((holds_new hi).mpr hold), a₂, s', l', ?_,
            hsame'.inv, ?_⟩)
          · rw [hthrow, hx, bind_error]
          · rw [hsame'.holds_iff hinv]
            have hn : s₁.heap.node s.heap.size = b := (hsame.pending _ (by simp)).trans hb
            exact ⟨s.heap.size, by simp, by simp [hs₂, linkItem, incItemCount, isData, hn, b],
              by simp [hs₂, linkItem, incItemCount, hn, b]⟩
        · refine .inr (.inr ⟨k₂, ?_, fun r hr => ?_⟩)
          · rw [hthrow, hplain, hx]
            cases s₂.expansionCheck a₂ hashv s₂.nBuckets with
            | error f => rfl
            | ok r => rfl
          · rcases expansionCheck_spec hinv a₂ hashv with ⟨a', s', l', h', hsame', -⟩ | ⟨-, -, h'⟩
            · rw [h', bind_ok] at hplain
              cases hplain.symm.trans hr
              exact ⟨l', hsame'.inv⟩
            · rw [h', bind_error] at hplain
              cases hplain.symm.trans hr

/-! ## Runs -/

/-- However a part of a call ends, the list it leaves is a split-ordered list,
and no more is wrong with it than nodes that are lost. -/
def Leaves {α : Type} (list : α → Solist T) (x : Except (Abort T) (α × Nat)) : Prop :=
  match x with
  | .ok (r, _) => ∃ l p, (list r).Inv l p
  | .error (.badAlloc _ s) => ∃ l p, s.Inv l p
  | .error (.fault _) => True

theorem Leaves.counted {α : Type} {list : α → Solist T} {x : Except Fault α}
    (h : ∀ r, x = .ok r → ∃ l p, (list r).Inv l p) : Leaves list (Throwing.counted k x) := by
  cases x with
  | error f => trivial
  | ok r => exact h r rfl

theorem insertNode_leaves (hi : s.Inv l p) (hh : hashv.toNat < 2 ^ 31) (a : Accessor) (v : T) (k : Nat) :
    Leaves (fun r => r.2.2) (insertNode s a hashv v k) := by
  rcases insertNode_cases hi hh a v k with ⟨-, h⟩ | ⟨-, h⟩ | ⟨-, -, a', s', l', h, hi', -⟩ | ⟨k', h, hi'⟩
  · rw [h]
    exact ⟨l, p, hi⟩
  · rw [h]
    exact ⟨l, _, hi.new⟩
  · rw [h]
    exact ⟨l', p, hi'⟩
  · rw [h]
    refine .counted fun r hr => ?_
    obtain ⟨l', hr'⟩ := hi' r hr
    exact ⟨l', p, hr'⟩

theorem deleteNode_leaves (hi : s.Inv l p) (hh : hashv.toNat < 2 ^ 31) (a : Accessor) (k : Nat) :
    Leaves (fun r => r.2.2) (deleteNode s a hashv k) := by
  have hrun : deleteNode s a hashv k =
      deleteLoop hashv (s.heap.size + 1) s a k >>= fun x => .ok ((x.1.1, x.1.2.1.zap, x.1.2.2), x.2) := rfl
  rw [hrun]
  rcases deleteLoop_cases hi hh s.heap.size a k with ⟨-, h⟩ | ⟨k', h⟩
  · rw [h, bind_error]
    exact ⟨l, p, hi⟩
  · obtain ⟨a₁, s₁, A, n, B, hsame, -, ⟨-, hloop⟩ | ⟨hd, -, A, c, rfl, hloop⟩⟩ := deleteLoop_spec hi hh s.heap.size a
    · rw [h, hloop, counted_ok, bind_ok]
      exact ⟨_, p, hsame.inv⟩
    · rw [h, hloop, counted_ok, bind_ok]
      have hi₁ := hsame.inv
      rw [List.append_assoc] at hi₁
      exact ⟨_, p, removeItem_inv hi₁ hd⟩

theorem findItemNode_leaves (hi : s.Inv l p) (hh : hashv.toNat < 2 ^ 31) (a : Accessor) (k : Nat) :
    Leaves (fun r => r.2.2) (findItemNode s a hashv k) := by
  obtain ⟨a₁, s₁, A, c, B, hfind, hsame, -, hf, -⟩ := findNode_spec hi hh a
  rcases findNode_cases s a hashv k with ⟨-, h⟩ | ⟨k', h⟩
  · rw [findItemNode, h, bind_error]
    exact ⟨l, p, hi⟩
  · rw [hfind, counted_ok] at h
    rw [findItemNode, h, bind_ok]
    simp only [hf.cur, deref_live (hsame.inv.chain.live (a := c) (by simp)), lift_ok, bind_ok]
    split
    · split
      · exact ⟨_, p, hsame.inv⟩
      · trivial
    · exact ⟨_, p, hsame.inv⟩

theorem initialiseBucket_leaves (hi : s.Inv l p) (hs : slot < s.nBuckets) (a : Accessor) (k : Nat) :
    Leaves (fun r => r.2) (initialiseBucket s a slot k) := by
  rcases initialiseBucket_cases s a slot k with ⟨-, h⟩ | ⟨k', h⟩
  · rw [h]
    exact ⟨l, p, hi⟩
  · rw [h]
    obtain ⟨a', s', l', hrun, hsame, -⟩ := initialiseBucket_spec hi hs a
    refine .counted fun r hr => ?_
    cases hrun.symm.trans hr
    exact ⟨l', p, hsame.inv⟩

/-- The list a call leaves, when it returns or throws. -/
def Kept (s : Session T) (i : Nat) : Except (Abort T) (Res × Session T) → Option (Session T)
  | .ok (_, s') => some s'
  | .error (.badAlloc a list) => some (s.after i a list)
  | .error (.fault _) => none

theorem kept_inv {α : Type} {list : α → Solist T} {s s' : Session T} {i : Nat} {x : Except (Abort T) (α × Nat)}
    {y : Except (Abort T) (Res × Session T)} (res : α → Res) (acc : α → Accessor) (h : Leaves list x)
    (hy : y = x >>= fun r => .ok (res r.1, s.after i (acc r.1) (list r.1))) (hk : Kept s i y = some s') :
    ∃ l p, s'.list.Inv l p := by
  rw [hy] at hk
  cases x with
  | ok r =>
    cases hk
    exact h
  | error e =>
    cases e with
    | fault f => cases hk
    | badAlloc a s₁ =>
      cases hk
      exact h

/-- Every call leaves a split-ordered list, but for nodes that are lost. -/
theorem call_inv {s s' : Session T} {i k : Nat} {op : Op T} (hi : s.list.Inv l p) (hv : op.Valid s.list)
    (hk : Kept s i (call s i op k) = some s') : ∃ l p, s'.list.Inv l p := by
  cases op with
  | insertNode h v =>
    refine kept_inv (fun r => .bool r.1) (fun r => r.2.1) (insertNode_leaves hi hv (s.accessor i) v k) ?_ hk
    simp only [call]
    cases insertNode s.list (s.accessor i) h v k <;> rfl
  | deleteNode h =>
    refine kept_inv (fun r => .bool r.1) (fun r => r.2.1) (deleteNode_leaves hi hv (s.accessor i) k) ?_ hk
    simp only [call]
    cases deleteNode s.list (s.accessor i) h k <;> rfl
  | findItemNode h =>
    refine kept_inv (fun r => .item r.1) (fun r => r.2.1) (findItemNode_leaves hi hv (s.accessor i) k) ?_ hk
    simp only [call]
    cases findItemNode s.list (s.accessor i) h k <;> rfl
  | initialiseBucket slot =>
    refine kept_inv (fun _ => .unit) (fun r => r.1) (initialiseBucket_leaves hi hv (s.accessor i) k) ?_ hk
    simp only [call]
    cases initialiseBucket s.list (s.accessor i) slot k <;> rfl

theorem sessions_inv {size bucketLength : Hash} (hsize : ∃ k, size.toNat = 2 ^ k) {s : Session T}
    (h : (sessions T size bucketLength).Reachable s) : ∃ l p, s.list.Inv l p := by
  refine h.invariant (I := fun s => ∃ l p, s.list.Inv l p) (fun s hs => ?_) fun s e s' hs _ hn => ?_
  · obtain ⟨list, hlist, rfl⟩ := hs
    obtain ⟨s₀, hs₀, hr⟩ := create_spec (T := T) size bucketLength (Solist.two_pow_le hsize)
    cases hs₀.symm.trans hlist
    exact ⟨[0], [], hr.inv⟩
  · obtain ⟨l, p, hi⟩ := hs
    simp only [sessions] at hn
    split at hn
    · rename_i hv
      refine call_inv (i := e.1) (k := e.2.2) hi hv ?_
      rw [← hn]
      unfold Kept
      cases call s e.1 e.2.1 e.2.2 with
      | ok r => rfl
      | error e => cases e <;> rfl
    · cases hn

end Throwing

namespace Solist

/-- The list binds the hash to the payload. -/
def Binds (s : Solist T) (hashv : Hash) (v : T) : Prop :=
  ∃ x ∈ s.nodes, (s.heap.node x).hashv = hashv ∧ (s.heap.node x).payload = some v

theorem exists_binds_iff {s : Solist T} {hashv : Hash} : (∃ v, s.Binds hashv v) ↔ s.Holds s.nodes hashv := by
  constructor
  · rintro ⟨v, x, hx, hv, hp⟩
    exact ⟨x, hx, by simp [isData, hp], hv⟩
  · rintro ⟨x, hx, hd, hv⟩
    obtain ⟨v, hp⟩ := Option.isSome_iff_exists.mp hd
    exact ⟨v, x, hx, hv, hp⟩

end Solist

/-- What a call that throws owes its caller: the bindings and the counter as
they were, and no node of its own lost. -/
structure StrongGuarantee (s s' : Solist T) : Prop where
  bindings : ∀ hashv v, s'.Binds hashv v ↔ s.Binds hashv v
  nItems : s'.nItems = s.nItems
  owned : ∀ n, s.heap.size ≤ n → n < s'.heap.size → n ∈ s'.nodes ∨ n ∈ s'.heap.deleted

namespace Throwing

variable {s s' : Solist T} {l p : List Addr} {a a' : Accessor} {hashv : Hash} {k : Nat}

/-- **An insert that throws** keeps the strong guarantee when its first
allocation throws, and breaks it at every later one. -/
theorem insertNode_guarantee (hi : s.Inv l p) (hh : hashv.toNat < 2 ^ 31) {v : T}
    (h : insertNode s a hashv v k = .error (.badAlloc a' s')) : StrongGuarantee s s' ↔ k = 0 := by
  rcases insertNode_cases hi hh a v k with ⟨hk, hr⟩ | ⟨hk, hr⟩ | ⟨hk, habs, a₁, s₁, l₁, hr, hi₁, hold⟩ | ⟨k', hr, -⟩
  · cases hr.symm.trans h
    refine ⟨fun _ => hk, fun _ => ⟨fun _ _ => Iff.rfl, rfl, fun n hn hlt => ?_⟩⟩
    omega
  · cases hr.symm.trans h
    refine ⟨fun hg => ?_, fun h => absurd h hk⟩
    -- the data node is neither linked nor deleted
    have hi₀ := hi.new (m := { hashv, key := solNodeKey hashv, payload := some v })
    rcases hg.owned s.heap.size (Nat.le_refl _) (Nat.lt_succ_self _) with hl | hd
    · rw [hi₀.nodes_eq] at hl
      exact absurd hl (hi₀.chain.pending_notMem (by simp))
    · exact absurd hd (hi₀.chain.pending_live (a := s.heap.size) (by simp)).2
  · cases hr.symm.trans h
    refine ⟨fun hg => ?_, fun h => absurd h hk⟩
    -- the item is there already
    rw [← hi₁.nodes_eq, ← Solist.exists_binds_iff] at hold
    obtain ⟨w, hw⟩ := hold
    rw [← hi.nodes_eq, ← Solist.exists_binds_iff] at habs
    exact absurd ⟨w, (hg.bindings hashv w).mp hw⟩ habs
  · rw [hr] at h
    cases hx : s.insertNode a hashv v with
    | error f => simp [hx] at h
    | ok r => simp [hx] at h

end Throwing

/-- **The strong guarantee of `insert_node`**, in every state that runs of
calls reach, calls that threw among them: it holds exactly when the
allocation that throws is the first one, the new data node. -/
theorem insertNode_strong_iff (T : Type) (size bucketLength : Hash) (hsize : ∃ k, size.toNat = 2 ^ k) :
    ∀ s : Session T, (Throwing.sessions T size bucketLength).Reachable s →
      ∀ i hashv (v : T) k a' s', hashv.toNat < 2 ^ 31 →
        Throwing.insertNode s.list (s.accessor i) hashv v k = .error (.badAlloc a' s') →
        (StrongGuarantee s.list s' ↔ k = 0) := by
  intro s hs i hashv v k a' s' hh h
  obtain ⟨l, p, hi⟩ := Throwing.sessions_inv hsize hs
  exact Throwing.insertNode_guarantee hi hh h

theorem insertNode_strong_iff_two : ∃ list a' s', Solist.create 2 4 = .ok list ∧
    Throwing.insertNode list {} 1 (7 : Nat) 0 = .error (.badAlloc a' s') ∧ StrongGuarantee list s' := by
  refine ⟨_, _, _, rfl, rfl, ?_⟩
  exact (insertNode_strong_iff Nat 2 4 ⟨1, rfl⟩ _ (.init ⟨_, rfl, rfl⟩) 0 1 7 0 _ _ (by decide) rfl).mpr rfl

/-- The second allocation throws. Where it is the dummy of bucket 1, the data
node, at address 1, is on no chain and not deleted; where it is the array of
`expand`, the item is there and counted. -/
theorem insertNode_breaks :
    (∃ list a' s', Solist.create 2 4 = .ok list ∧
      Throwing.insertNode list {} 1 (7 : Nat) 1 = .error (.badAlloc a' s') ∧ ¬ StrongGuarantee list s') ∧
    ∃ list a' s', Solist.create 2 0 = .ok list ∧
      Throwing.insertNode list {} 0 (7 : Nat) 1 = .error (.badAlloc a' s') ∧ list.nItems = 0 ∧ s'.nItems = 1 := by
  refine ⟨⟨_, _, _, rfl, rfl, fun hg => ?_⟩, _, _, _, rfl, rfl, rfl, by decide⟩
  exact absurd (hg.owned 1 (by decide) (by decide)) (by decide)

end SplitOrder
