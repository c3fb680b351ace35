/-
Every step of every call keeps the invariant, except where a caller of
`initialise_bucket` that has linked its node is disturbed before it has
stored it (`Undisturbed`).

First the frames of the writes, then the steps, function by function.
-/
import SplitOrder.Concurrent.Invariant

namespace SplitOrder

namespace Concurrent

open Heap

variable {T : Type} {s : Solist T} {l r A B mine : List Addr} {a : Accessor} {c d p n : Addr}

/-! ## The chain, as the program can reach it -/

/-- A node the next pointers from `buckets[0]` lead to. -/
def OnChain (s : Solist T) (x : Addr) : Prop :=
  ∃ b l, s.buckets[0]? = some (some b) ∧ Seg s.heap.nextOf (some b) l none ∧ x ∈ l

theorem Mem.head {b : Addr} (hm : Mem s l r) (hb : s.buckets[0]? = some (some b)) : l.head? = some b := by
  have hz : s.heap.key b = 0#32 := by
    rw [hm.key_slot (show s.buckets[(0#32 : Hash).toNat]? = _ from hb), reverseHashtBits_zero]
  obtain ⟨A, B, rfl⟩ := List.append_of_mem (hm.slot 0 b hb).1
  cases A with
  | nil => rfl
  | cons x A =>
    have hlt := (List.pairwise_append.mp hm.mesh.sorted).2.2 x (by simp) b (by simp)
    rw [hz] at hlt
    exact absurd hlt (by simp)

theorem Mem.onChain_iff (hm : Mem s l r) {x : Addr} : OnChain s x ↔ x ∈ l := by
  obtain ⟨b, hb⟩ := hm.first
  have hseg := hm.mesh.seg
  rw [hm.head hb] at hseg
  refine ⟨fun h => ?_, fun h => ⟨b, l, hb, hseg, h⟩⟩
  obtain ⟨b', l', hb', hseg', hx⟩ := h
  rw [hb] at hb'
  cases hb'
  rwa [Seg.det hseg hseg']

/-- No caller of `initialise_bucket` whose node is on the chain finds the
slot set by another, or a node linked between `cur` and its own. -/
def Thread.Undisturbed (s : Solist T) (th : Thread) : Prop :=
  match th.pc with
  | .init i .settle => IsSet s i.slot → ¬ OnChain s i.node
  | .init i .won => th.a.cur.bind s.heap.nextOf ≠ some i.node → ¬ OnChain s i.node
  | _ => True

/-! ## The writes -/

theorem Frame.mono {s' : Solist T} {l' r' mine' : List Addr} (hf : Frame s l r s' l' r' mine)
    (hsub : ∀ x ∈ mine, x ∈ mine') : Frame s l r s' l' r' mine' :=
  { hf with
    priv := fun x hx => hf.priv x fun h => hx (hsub x h)
    held := fun x hx => hf.held x fun h => hx (hsub x h) }

theorem frame_new {m : Node T} (hm : Mem s l r) : Frame s l r { s with heap := s.heap.new m } l r [] := by
  have hnode : ∀ x < s.heap.size, (s.heap.new m).node x = s.heap.node x := fun x hx => new_node_of_lt hx
  refine ⟨rfl, .new, fun _ h => h, fun _ h => h, fun _ h _ => h, fun _ h => h, fun x _ h => ?_, fun x _ hx _ => ?_⟩
  · exact ⟨⟨Nat.lt_succ_of_lt h.lt, h.notMem, h.notDeleted, by rw [hnode x h.lt]; exact h.unmarked⟩,
      by rw [hnode x h.lt]⟩
  · exact ⟨hx, by rw [hnode x (hm.mesh.lt x (by simp [hx]))]⟩

/-- Writing the next pointer of a private node. -/
theorem frame_setPrivate {m : MarkPtr Addr} (hd : s.heap.Private l r d) :
    Frame s l r { s with heap := s.heap.setNext d m } l r [d] := by
  refine ⟨rfl, .setNext, fun _ h => h, fun _ h => h, fun _ h _ => h, fun _ h => h, fun x hx h => ?_,
    fun x hx hl _ => ?_⟩
  · have hnode : (s.heap.setNext d m).node x = s.heap.node x := setNext_node_of_ne (by simpa using hx)
    exact ⟨⟨h.lt, h.notMem, h.notDeleted, by rw [hnode]; exact h.unmarked⟩, by rw [hnode]⟩
  · refine ⟨hl, ?_⟩
    rw [setNext_node_of_ne]
    rintro rfl
    exact hd.notMem (by simp [hl])

theorem frame_delete : Frame s l r { s with heap := s.heap.delete d } l r [d] := by
  refine ⟨rfl, .delete, fun _ h => h, fun _ h => h, fun _ h _ => h, fun _ h => h, fun x hx h => ?_,
    fun x _ hl _ => ⟨hl, rfl⟩⟩
  refine ⟨⟨h.lt, h.notMem, ?_, h.unmarked⟩, rfl⟩
  simp only [delete_deleted, List.mem_append]
  exact fun h' => h'.elim h.notDeleted hx

/-- Writing a published node that is not marked, from one pointer to another with the chain from
`l` to `l'`. -/
theorem frame_publish {m : MarkPtr Addr} {l' r' : List Addr} (hc : c ∈ l ++ r)
    (hu : (s.heap.node c).next.mark = false) (hknown : ∀ x ∈ l ++ r, x ∈ l' ++ r') (hrem : ∀ x ∈ r, x ∈ r')
    (hstay : ∀ x ∈ l, x ∉ mine → x ∈ l') (hdummy : ∀ x ∈ l, s.heap.isData x = false → x ∈ l')
    (hnew : ∀ x ∈ l' ++ r', x ∈ l ++ r ∨ x ∈ mine) :
    Frame s l r { s with heap := s.heap.setNext c m } l' r' mine := by
  refine ⟨rfl, .setNext, hknown, hrem, hdummy, fun _ h => h, fun x hx h => ?_, fun x hx hl hmk => ⟨hstay x hl hx, ?_⟩⟩
  · have hnode : (s.heap.setNext c m).node x = s.heap.node x := setNext_node_of_ne fun he => h.notMem (he ▸ hc)
    exact ⟨⟨h.lt, fun h' => (hnew x h').elim h.notMem hx, h.notDeleted, by rw [hnode]; exact h.unmarked⟩, by rw [hnode]⟩
  · rw [setNext_node_of_ne]
    rintro rfl
    rw [hu] at hmk
    cases hmk

theorem frame_setBucket {slot : Hash} {b : Addr} (hlt : slot.toNat < s.buckets.length) :
    Frame s l r { s with buckets := s.buckets.set slot.toNat (some b) } l r mine := by
  refine ⟨rfl, .refl _, fun _ h => h, fun _ h => h, fun _ h _ => h, fun i h => ?_, fun _ _ h => ⟨h, rfl⟩,
    fun _ _ h _ => ⟨h, rfl⟩⟩
  obtain ⟨b', hb'⟩ := h
  by_cases hi : slot.toNat = i.toNat
  · exact ⟨b, by simp only [hi] at hlt ⊢; exact List.getElem?_set_self hlt⟩
  · exact ⟨b', by simp only [List.getElem?_set_ne hi]; exact hb'⟩

theorem Mem.setBucket {slot : Hash} {b : Addr} (hm : Mem s l r) (hs : slot < s.nBuckets) (hb : b ∈ l)
    (hd : s.heap.isData b = false) (hv : (s.heap.node b).hashv = slot) :
    Mem { s with buckets := s.buckets.set slot.toNat (some b) } l r := by
  have hlt : slot.toNat < s.buckets.length := by
    rw [hm.size]
    exact hs
  refine ⟨hm.mesh, hm.nBuckets, (List.length_set ..).trans hm.size, ?_, fun i x hx => ?_⟩
  · obtain ⟨b₀, hb₀⟩ := hm.first
    by_cases hi : slot.toNat = 0
    · exact ⟨b, by simp only [hi] at hlt ⊢; exact List.getElem?_set_self hlt⟩
    · exact ⟨b₀, by simp only [List.getElem?_set_ne hi]; exact hb₀⟩
  · by_cases hi : slot.toNat = i
    · subst hi
      simp only [List.getElem?_set_self hlt, Option.some.injEq] at hx
      subst hx
      exact ⟨hb, hd, congrArg _ hv⟩
    · simp only [List.getElem?_set_ne hi] at hx
      exact hm.slot i x hx

/-! ## Kinds of step -/

section Kinds

variable {th : Thread} {pc : Pc}

/-- A step that only moves the thread on. -/
theorem Keeps.move (hm : Mem s l r) (hok : pc.Ok s l r a) (hh : ∀ x ∈ (Thread.mk a pc).holds, x ∈ th.holds)
    (ho : pc.owes = th.pc.owes) : Keeps s l r th (goto s a pc) l r :=
  ⟨hm, hok, .refl _ _ _ _, fun x hx => .inl (hh x hx), by simp [goto], by simp [goto], by simp [goto],
    by simp [goto, ho]⟩

/-- A step on the nodes the thread holds, with the chain as it was. -/
theorem Keeps.ofFrame {s' : Solist T} (hm : Mem s' l r) (hf : Frame s l r s' l r th.holds) (hmem : Mem s l r)
    (hok : pc.Ok s' l r a) (hh : ∀ x ∈ (Thread.mk a pc).holds, x ∈ th.holds ∨ Free s l x)
    (ho : pc.owes = th.pc.owes) (hi : s'.nItems = s.nItems) : Keeps s l r th (goto s' a pc) l r := by
  have hd : ∀ x ∈ l, s'.heap.isData x = s.heap.isData x := fun x hx =>
    hf.ext.isData (hmem.mesh.lt x (by simp [hx]))
  refine ⟨hm, hok, hf, hh, by simp [goto], ?_, by simp [goto], ?_⟩
  · simp only [goto, List.filter_congr hd]
    simp
  · simp only [goto, ho, hi]
    have hcount : l.countP s'.heap.isData = l.countP s.heap.isData := List.countP_congr fun x hx => by rw [hd x hx]
    rw [hcount]

end Kinds

/-! ## `find_node` -/

section Find

variable {f : FindCall}

theorem findEntry_keeps (hm : Mem s l r) (h : f.Ok s l r) : Keeps s l r ⟨a, .findEntry f⟩ (f.entry s a) l r := by
  obtain ⟨b, hb⟩ := hm.table.bucket (hm.table.umod_lt f.hashv)
  simp only [FindCall.entry, hb]
  cases b with
  | none => exact .move hm ⟨hm.table.umod_lt f.hashv, h, rfl⟩ (fun x hx => hx) rfl
  | some b => exact .move hm ⟨h, b, hb⟩ (fun x hx => hx) rfl

theorem findBucket_keeps (hm : Mem s l r) (h : f.Ok s l r ∧ IsSet s (f.hashv % s.nBuckets)) :
    Keeps s l r ⟨a, .findBucket f⟩ (f.bucket s a) l r := by
  obtain ⟨hf, b, hb⟩ := h
  have hbl : b ∈ l ++ r := by simp [(hm.slot _ _ hb).1]
  simp only [FindCall.bucket, hb]
  exact .move hm ⟨hf, ⟨b, rfl, hbl, BitVec.le_of_lt (hm.key_bucket_lt hf.1 hb)⟩, b, rfl, hbl⟩ (fun x hx => hx) rfl

theorem findNext_keeps (hm : Mem s l r)
    (h : f.Ok s l r ∧ CurLe s l r a (solNodeKey f.hashv) ∧ PrevKnown l r a) :
    Keeps s l r ⟨a, .findNext f⟩ (f.next s a) l r := by
  obtain ⟨hf, ⟨c, hc, hcl, hck⟩, hp⟩ := h
  simp only [FindCall.next, hc]
  exact .move hm ⟨hf, ⟨c, rfl, hcl, hck⟩, hp, fun x hx => (hm.mesh.next_mem hcl hx).1⟩ (fun x hx => hx) rfl

/-- What the call does with the node the search stopped at. -/
theorem found_keeps (hm : Mem s l r) (hf : f.Ok s l r) (hc : a.cur = some c) (hcl : c ∈ l ++ r)
    (hck : s.heap.key c ≤ solNodeKey f.hashv) (hp : PrevKnown l r a) (hn : NextAbove s l r a (solNodeKey f.hashv)) :
    Keeps s l r ⟨a, .findWalk f⟩ (f.found s a (s.heap.key c == solNodeKey f.hashv)) l r := by
  have hlt : s.heap.key c ≠ solNodeKey f.hashv → CurBelow s l r a (solNodeKey f.hashv) := fun hne =>
    ⟨c, hc, hcl, by bv_omega⟩
  cases f with
  | insertNode hashv d =>
    simp only [FindCall.found, FindCall.hashv, beq_iff_eq] at hlt hn ⊢
    split
    · have hd : d ∉ l := fun h => hf.2.priv.notMem (by simp [h])
      exact .ofFrame (hm.ofHeap (hm.mesh.delete hd hf.2.priv.lt) .delete fun _ h _ => h) frame_delete hm trivial
        (fun x hx => by cases hx) rfl rfl
    · exact .move hm ⟨hf, hlt ‹_›, hn⟩ (fun x hx => hx) rfl
  | deleteNode hashv =>
    simp only [FindCall.found, FindCall.hashv, beq_iff_eq] at hn ⊢
    split
    · exact .move hm ⟨hf.1, ⟨c, hc, hcl, ‹_›⟩, hp, hn⟩ (fun x hx => hx) rfl
    · exact .move hm trivial (fun x hx => hx) rfl
  | findItemNode hashv => exact .move hm trivial (fun x hx => hx) rfl

theorem findWalk_keeps (hm : Mem s l r)
    (h : f.Ok s l r ∧ CurLe s l r a (solNodeKey f.hashv) ∧ PrevKnown l r a ∧ NextKnown l r a) :
    Keeps s l r ⟨a, .findWalk f⟩ (f.walk s a) l r := by
  obtain ⟨hf, ⟨c, hc, hcl, hck⟩, hp, hn⟩ := h
  simp only [FindCall.walk, hc]
  cases hnx : a.next with
  | none => exact found_keeps hm hf hc hcl hck hp fun x hx => by simp [hnx] at hx
  | some x =>
    have hx := hn x hnx
    by_cases hle : s.heap.key x ≤ solNodeKey f.hashv
    · simp only [hle, if_true]
      exact .move hm ⟨hf, ⟨x, rfl, hx, hle⟩, ⟨c, hc, hcl⟩, fun y hy => (hm.mesh.next_mem hx hy).1⟩ (fun x hx => hx) rfl
    · simp only [hle, if_false]
      refine found_keeps hm hf hc hcl hck hp fun y hy => ?_
      rw [hnx] at hy
      cases hy
      exact ⟨hx, by bv_omega⟩

end Find

/-! ## The start of a call -/

theorem Thread.call_keeps {th : Thread} {op : Op T} (hm : Mem s l r) (hi : th.pc.isIdle = true) (hv : op.Valid s) :
    Keeps s l r th (th.call s op) l r := by
  have ho : th.pc.owes = 0 := by
    cases hpc : th.pc <;> simp_all [Pc.isIdle, Pc.owes]
  cases op with
  | insertNode hashv v =>
    have hlt : hashv.toNat < 2 ^ 31 := hv
    simp only [Thread.call, solistNode_ok v hlt]
    refine .ofFrame (hm.ofHeap hm.mesh.new .new fun _ h _ => h) ((frame_new hm).mono (by simp)) hm ⟨hlt, ?_⟩
      (fun x hx => ?_) ho.symm rfl
    · refine ⟨⟨Nat.lt_succ_self _, fun h => Nat.lt_irrefl _ (hm.mesh.lt _ h), ?_, by simp⟩, by simp, by simp [key],
        by simp [isData]⟩
      exact fun h => Nat.lt_irrefl _ (hm.mesh.deletedLt _ h)
    · rw [List.mem_singleton.mp hx]
      exact .inr (.inl (Nat.le_refl _))
  | deleteNode hashv => exact .move hm ⟨hv, trivial⟩ (fun x hx => by cases hx) ho.symm
  | findItemNode hashv => exact .move hm ⟨hv, trivial⟩ (fun x hx => by cases hx) ho.symm
  | initialiseBucket slot => exact .move hm ⟨hv, trivial⟩ (fun x hx => by cases hx) ho.symm

/-! ## `insert_node` -/

section Insert

variable {hashv : Hash}

/-- `node->next = next`, for a node the thread holds. -/
theorem private_setNext {m : MarkPtr Addr} (hd : s.heap.Private l r d) (hm : m.mark = false) :
    (s.heap.setNext d m).Private l r d :=
  ⟨hd.lt, hd.notMem, hd.notDeleted, by simpa using hm⟩

theorem assign_eq {x : Option Addr} (hd : s.heap.Private l r d) : (s.heap.node d).next.assign x = { ptr := x } := by
  rw [next_eq_of_unmarked hd.unmarked]
  rfl

theorem insertSetNext_keeps (hm : Mem s l r)
    (h : (hashv.toNat < 2 ^ 31 ∧ DNode s l r hashv d) ∧ CurBelow s l r a (solNodeKey hashv) ∧
      NextAbove s l r a (solNodeKey hashv)) :
    Keeps s l r ⟨a, .insertSetNext hashv d⟩
      (goto { s with heap := s.heap.setNext d ((s.heap.node d).next.assign a.next) } a (.insertCas hashv d)) l r := by
  obtain ⟨⟨hh, hd⟩, hc, hn⟩ := h
  rw [assign_eq hd.priv]
  have hf : Frame s l r { s with heap := s.heap.setNext d { ptr := a.next } } l r [d] := frame_setPrivate hd.priv
  refine .ofFrame (hm.ofHeap (hm.mesh.setPrivate hd.priv.notMem) .setNext fun _ h _ => h) hf hm
    ⟨⟨hh, private_setNext hd.priv rfl, ?_, ?_, ?_⟩, hf.curBelow hm hc, hf.nextAbove hm hn, ?_⟩ (fun x hx => .inl hx)
    rfl rfl
  · simpa using hd.hashv
  · simpa [key] using hd.key
  · simpa using hd.data
  · simp

theorem mem_insert {x : Addr} : x ∈ A ++ c :: d :: B ↔ x = d ∨ x ∈ A ++ c :: B := by
  simp only [List.mem_append, List.mem_cons]
  tauto

theorem mem_insert_append {x : Addr} : x ∈ (A ++ c :: d :: B) ++ r ↔ x = d ∨ x ∈ (A ++ c :: B) ++ r := by
  rw [List.mem_append, mem_insert, or_assoc, ← List.mem_append]

theorem countP_insert {f : Addr → Bool} (hd : f d = true) :
    (A ++ c :: d :: B).countP f = (A ++ c :: B).countP f + 1 := by
  simp only [List.countP_append, List.countP_cons, hd, if_true]
  omega

theorem ofNat_succ (n : Nat) : BitVec.ofNat 32 (n + 1) = BitVec.ofNat 32 n + (1 : Hash) := by
  rw [BitVec.ofNat_add]
  rfl

theorem filter_insert {f : Addr → Bool} (hd : f d = true) :
    ((A ++ c :: d :: B).filter f).Perm (d :: (A ++ c :: B).filter f) := by
  have hp : (A ++ c :: d :: B).Perm (d :: (A ++ c :: B)) := by
    rw [List.perm_iff_count]
    intro x
    simp only [List.count_append, List.count_cons]
    omega
  simpa [List.filter_cons, hd] using hp.filter f

/-- **The link** of `insert_node`. -/
theorem insertCas_keeps (hm : Mem s l r)
    (h : (hashv.toNat < 2 ^ 31 ∧ DNode s l r hashv d) ∧ CurBelow s l r a (solNodeKey hashv) ∧
      NextAbove s l r a (solNodeKey hashv) ∧ (s.heap.node d).next = { ptr := a.next }) :
    ∃ l', Keeps s l r ⟨a, .insertCas hashv d⟩ (insertCas hashv d s a) l' r := by
  obtain ⟨⟨hh, hd⟩, ⟨c, hc, hcl, hck⟩, hn, hdn⟩ := h
  by_cases hcas : (s.heap.node c).next = { ptr := a.next }
  · have heq : insertCas hashv d s a = { goto { s with heap := s.heap.setNext c { ptr := some d } } a
        (.insertCount hashv) with linked := some (hashv, d) } := by
      simp only [insertCas, hc, MarkPtr.cas_ok hcas, if_true]
    rw [heq]
    have hu : (s.heap.node c).next.mark = false := by rw [hcas]
    obtain ⟨A, B, rfl⟩ := List.append_of_mem (hm.mesh.mem_of_unmarked hcl hu)
    have hB : a.next = B.head? := by rw [← hm.mesh.seg.next, nextOf_eq hcas]
    rw [hB] at hdn
    have hsome : (s.heap.node d).payload.isSome := hd.data
    have hk : (s.heap.node d).WellKeyed := by
      obtain ⟨v, hv⟩ := Option.isSome_iff_exists.mp hsome
      refine ⟨by rw [hd.hashv]; exact hh, ?_⟩
      rw [hv, hd.hashv]
      exact hd.key
    have hmesh := hm.mesh.link hd.priv hk hdn (by rw [hd.key]; exact hck) fun b hb => by
      rw [hd.key]
      exact (hn b (hB.trans hb)).2
    refine ⟨A ++ c :: d :: B, ?_⟩
    refine ⟨hm.ofHeap hmesh .setNext fun x hx _ => mem_insert.mpr (.inr hx), ⟨c, hc, by simp⟩,
      frame_publish hcl hu (fun x hx => mem_insert_append.mpr (.inr hx)) (fun _ h => h)
        (fun x hx _ => mem_insert.mpr (.inr hx)) (fun x hx _ => mem_insert.mpr (.inr hx)) (fun x hx => ?_),
      (fun x hx => by cases hx), by simp [goto], ?_, ?_, ?_⟩
    · rcases mem_insert_append.mp hx with rfl | hx
      · exact .inr (by simp [Thread.holds])
      · exact .inl hx
    · simp only [goto, isData_setNext, Option.map_some, Option.toList_some]
      refine ((filter_insert hd.data).append_right r).trans ?_
      exact (List.perm_append_singleton d _).symm
    · simp only [goto, Option.toList_some, Option.toList_none, List.append_nil, List.mem_singleton, forall_eq]
      exact ⟨hd.priv.lt, by simpa using hd.hashv⟩
    · simp only [goto, isData_setNext, Pc.owes, countP_insert hd.data, ofNat_succ]
      ring
  · simp only [insertCas, hc, MarkPtr.cas_fail hcas, setNext_self]
    exact ⟨l, .move hm ⟨hh, hd⟩ (fun x hx => hx) rfl⟩

theorem insertCount_keeps (hm : Mem s l r) (h : CurKnown l r a) :
    Keeps s l r ⟨a, .insertCount hashv⟩ (goto s.incItemCount a (.insertNext hashv)) l r := by
  refine ⟨⟨hm.mesh, hm.nBuckets, hm.size, hm.first, hm.slot⟩, h, ⟨rfl, .refl _, fun _ h => h, fun _ h => h,
    fun _ h _ => h, fun _ h => h, fun _ _ h => ⟨h, rfl⟩, fun _ _ h _ => ⟨h, rfl⟩⟩, (fun x hx => by cases hx),
    by simp [goto], by simp [goto, Solist.incItemCount], by simp [goto], ?_⟩
  simp [goto, Solist.incItemCount, Pc.owes]

theorem insertNext_keeps (hm : Mem s l r) (h : CurKnown l r a) :
    Keeps s l r ⟨a, .insertNext hashv⟩ (insertNext hashv s a) l r := by
  obtain ⟨c, hc, hcl⟩ := h
  simp only [insertNext, hc]
  exact .move hm ⟨⟨c, rfl, hcl⟩, fun x hx => (hm.mesh.next_mem hcl hx).1⟩ (fun x hx => hx) rfl

theorem insertWalk_keeps (hm : Mem s l r) (h : CurKnown l r a ∧ NextKnown l r a) :
    Keeps s l r ⟨a, .insertWalk hashv⟩ (insertWalk hashv s a) l r := by
  simp only [insertWalk]
  cases hnx : a.next with
  | none => exact .move hm trivial (fun x hx => hx) rfl
  | some x =>
    have hx := h.2 x hnx
    by_cases hnode : (s.heap.node x).isNode
    · simp only [hnode, if_true]
      exact .move hm ⟨⟨x, rfl, hx⟩, fun y hy => (hm.mesh.next_mem hx hy).1⟩ (fun x hx => hx) rfl
    · simp only [hnode]
      exact .move hm trivial (fun x hx => hx) rfl

theorem insertCheck_keeps (hm : Mem s l r) : Keeps s l r ⟨a, .insertCheck hashv⟩ (insertCheck hashv s a) l r := by
  simp only [insertCheck]
  split
  · split
    · exact .move hm trivial (fun x hx => hx) rfl
    · split
      · exact .move hm ⟨‹_›, trivial⟩ (fun x hx => hx) rfl
      · exact .move hm trivial (fun x hx => hx) rfl
  · exact .move hm trivial (fun x hx => hx) rfl

end Insert

/-! ## `delete_node` -/

section Delete

variable {hashv : Hash}

/-- **The mark** of `delete_node`. -/
theorem deleteMark_keeps (hm : Mem s l r)
    (h : hashv.toNat < 2 ^ 31 ∧ CurIs s l r a (solNodeKey hashv) ∧ PrevKnown l r a ∧
      NextAbove s l r a (solNodeKey hashv)) :
    Keeps s l r ⟨a, .deleteMark hashv⟩ (deleteMark hashv s a) l r := by
  obtain ⟨hh, ⟨c, hc, hcl, hck⟩, hp, hn⟩ := h
  by_cases hcas : (s.heap.node c).next = { ptr := a.next }
  · have hu : (s.heap.node c).next.mark = false := by rw [hcas]
    have hl := hm.mesh.mem_of_unmarked hcl hu
    have hd := (hm.mesh.data_of_key hcl hh hck).1
    have hmesh := hm.mesh.mark hd
    rw [nextOf_eq hcas] at hmesh
    simp only [deleteMark, hc, MarkPtr.cas_ok hcas, if_true]
    have hf : Frame s l r { s with heap := s.heap.setNext c { ptr := a.next, mark := true } } l r [] :=
      frame_publish hcl hu (fun _ h => h) (fun _ h => h) (fun _ h _ => h) (fun _ h _ => h) fun _ h => .inl h
    refine .ofFrame (hm.ofHeap hmesh .setNext fun _ h _ => h) hf hm
      ⟨hh, hp, c, hc, hl, by simpa [key] using hck, by simp⟩ (fun x hx => ?_) rfl rfl
    obtain rfl : x = c := by simpa [Thread.holds, hc] using hx
    exact .inr (.inr ⟨hl, hd, hu⟩)
  · simp only [deleteMark, hc, MarkPtr.cas_fail hcas, setNext_self]
    exact .move hm ⟨hh, trivial⟩ (fun x hx => hx) rfl

/-- **The unlink** of `delete_node`. -/
theorem deleteUnlink_keeps (hm : Mem s l r)
    (h : hashv.toNat < 2 ^ 31 ∧ PrevKnown l r a ∧ ∃ c, a.cur = some c ∧ c ∈ l ∧
      s.heap.key c = solNodeKey hashv ∧ (s.heap.node c).next = { ptr := a.next, mark := true }) :
    ∃ l' r', Keeps s l r ⟨a, .deleteUnlink hashv⟩ (deleteUnlink hashv s a) l' r' := by
  obtain ⟨hh, ⟨p, hp, hpl⟩, c, hc, hcl, hck, hcn⟩ := h
  by_cases hcas : (s.heap.node p).next = { ptr := some c }
  · have heq : deleteUnlink hashv s a = { goto { s with heap := s.heap.setNext p { ptr := a.next } } a
        (.deleteCount hashv) with unlinked := some (hashv, c) } := by
      simp only [deleteUnlink, hc, hp, MarkPtr.cas_ok hcas, if_true]
    rw [heq]
    have hu : (s.heap.node p).next.mark = false := by rw [hcas]
    obtain ⟨A, B, rfl⟩ := List.append_of_mem (hm.mesh.mem_of_unmarked hpl hu)
    obtain ⟨B, rfl⟩ : ∃ B', B = c :: B' :=
      List.head?_eq_some_iff.mp (by rw [← hm.mesh.seg.next, nextOf_eq hcas])
    obtain ⟨hd, hv⟩ := hm.mesh.data_of_key (by simp) hh hck
    have hB : a.next = B.head? := by
      have hseg := hm.mesh.seg
      rw [List.append_cons] at hseg
      rw [← hseg.next, nextOf_eq hcn]
    have hmesh := hm.mesh.unlink (by rw [hcn])
    rw [← hB] at hmesh
    have hne : ∀ x, s.heap.isData x = false → x ≠ c := by
      rintro x hx rfl
      rw [hd] at hx
      cases hx
    have hstay : ∀ x ∈ A ++ p :: c :: B, x ≠ c → x ∈ A ++ p :: B := by
      intro x hx hxc
      simp only [List.mem_append, List.mem_cons] at hx ⊢
      tauto
    refine ⟨A ++ p :: B, r ++ [c], hm.ofHeap hmesh .setNext fun x hx hd => hstay x hx (hne x hd), ⟨c, hc, by simp⟩,
      frame_publish hpl hu (fun x hx => ?_) (fun x hx => by simp [hx]) (fun x hx hxm => hstay x hx ?_)
        (fun x hx hd => hstay x hx (hne x hd)) (fun x hx => ?_), fun x hx => .inl hx, by simp, ?_, ?_, ?_⟩
    · by_cases hxc : x = c
      · simp [hxc]
      · rcases List.mem_append.mp hx with hx | hx
        · exact List.mem_append.mpr (.inl (hstay x hx hxc))
        · simp [hx]
    · simpa [Thread.holds, hc] using hxm
    · simp only [List.mem_append, List.mem_cons, List.not_mem_nil, or_false] at hx ⊢
      tauto
    · simp only [goto, isData_setNext, Option.map_none, Option.toList_none, List.append_nil]
      refine List.Perm.trans ?_ ((filter_insert hd).symm.append_right r)
      rw [← List.append_assoc]
      exact List.perm_append_singleton c _
    · simp only [goto, Option.toList_some, Option.toList_none, List.nil_append, List.mem_singleton, forall_eq]
      exact ⟨hm.mesh.lt c (by simp), by simpa using hv⟩
    · simp only [goto, isData_setNext, Pc.owes, countP_insert hd, ofNat_succ]
      ring
  · simp only [deleteUnlink, hc, hp, MarkPtr.cas_fail hcas, setNext_self]
    exact ⟨l, r, .move hm ⟨hh, trivial⟩ (fun x hx => by cases hx) rfl⟩

theorem deleteCount_keeps (hm : Mem s l r) (h : ∃ c, a.cur = some c ∧ c ∈ r) :
    Keeps s l r ⟨a, .deleteCount hashv⟩ (deleteCount s a) l r := by
  obtain ⟨c, hc, hcr⟩ := h
  have hcl : c ∉ l := fun h => hm.mesh.notMem_removed h hcr
  have hmem := hm.ofHeap (hm.mesh.delete hcl (hm.mesh.lt c (by simp [hcr]))) .delete fun _ h _ => h
  have hf : Frame s l r { s with heap := s.heap.delete c } l r [c] := frame_delete
  simp only [deleteCount, hc]
  refine ⟨⟨hmem.mesh, hmem.nBuckets, hmem.size, hmem.first, hmem.slot⟩, trivial, ?_, (fun x hx => by cases hx),
    by simp [goto], by simp [goto], by simp [goto], ?_⟩
  · simp only [Thread.holds, hc, Option.toList_some]
    exact ⟨hf.nBuckets, hf.ext, hf.known, hf.removed, hf.dummy, hf.isSet, hf.priv, hf.held⟩
  · simp only [goto, Solist.decItemCount, Pc.owes, isData_delete]
    ring

end Delete

/-! ## `initialise_bucket` -/

section Initialise

variable {i : InitCall} {k : InitCaller} {slot : Hash}

/-- One probe of `get_parent`: the key goes down and the slot is one of the table's. -/
theorem probe_spec (hm : Mem s l r) {pbKey : SoKey} (hne : pbKey ≠ 0#32) (hlt : reverseHashtBits pbKey < s.nBuckets) :
    ∃ step b, solBucketKey (s.nBuckets / 2) = .ok step ∧ pbKey - step < pbKey ∧
      reverseHashtBits (pbKey - step) < s.nBuckets ∧
      s.buckets[(reverseHashtBits (pbKey - step)).toNat]? = some b ∧ (b = none → pbKey - step ≠ 0#32) := by
  obtain ⟨k, hk, hn⟩ := hm.nBuckets
  have hlt' : (reverseHashtBits pbKey).toNat < 2 ^ k := by rw [← hn]; exact hlt
  have hne' : reverseHashtBits pbKey ≠ 0#32 := fun h => hne <| by
    rw [← reverseHashtBits_reverseHashtBits pbKey, h, reverseHashtBits_zero]
  obtain ⟨hk0, m, hm0, -, hmul⟩ := Solist.slot_key_multiple hk hlt' hne'
  rw [reverseHashtBits_reverseHashtBits] at hmul
  obtain ⟨step, hok, hstep⟩ := solBucketKey_half hn hk0 hk
  rw [← hstep] at hmul
  have hpos : 0 < step.toNat := by
    rw [hstep]
    exact Nat.two_pow_pos _
  obtain ⟨m, rfl⟩ := Nat.exists_eq_succ_of_ne_zero hm0
  have hsub : (pbKey - step).toNat = m * step.toNat := by
    rw [BitVec.toNat_sub_of_le (by rw [BitVec.le_def, hmul]; exact Nat.le_mul_of_pos_left _ (by omega)), hmul,
      Nat.succ_mul, Nat.add_sub_cancel]
  have hrev : reverseHashtBits (pbKey - step) < s.nBuckets := by
    rw [BitVec.lt_def, hn, reverseHashtBits_lt_iff hk, hsub, hstep]
    exact Nat.dvd_mul_left _ _
  obtain ⟨b, hb⟩ := hm.table.bucket hrev
  refine ⟨step, b, hok, ?_, hrev, hb, fun hbn hz => ?_⟩
  · rw [BitVec.lt_def, hsub, hmul, Nat.succ_mul]
    omega
  · obtain ⟨b₀, hb₀⟩ := hm.first
    rw [hz] at hb
    simp [hb₀, hbn] at hb

theorem initEntry_keeps (hm : Mem s l r) (h : slot < s.nBuckets ∧ k.Ok s l r slot) :
    Keeps s l r ⟨a, .initEntry slot k⟩ (initEntry slot k s a) l r := by
  obtain ⟨hs, hk⟩ := h
  obtain ⟨b, hb⟩ := hm.table.bucket hs
  have hs31 := hm.table.slot_lt hs
  simp only [initEntry, hs, not_true_eq_false, if_false, hb]
  cases b with
  | some b => exact .move hm ⟨⟨b, hb⟩, hk⟩ (fun x hx => hx) rfl
  | none =>
    simp only [solistBucket_ok hs31]
    have hne : slot ≠ 0#32 := by
      rintro rfl
      obtain ⟨b₀, hb₀⟩ := hm.first
      simp [hb₀] at hb
    have hf := frame_new (m := { hashv := slot, key := reverseHashtBits slot, payload := none }) hm
    refine .ofFrame (hm.ofHeap hm.mesh.new .new fun _ h _ => h) (hf.mono (by simp)) hm
      ⟨⟨hs, hne, Nat.lt_succ_self _, by simp, by simp [key], by simp [isData], hf.initCaller (by simp) hk⟩,
        ⟨Nat.lt_succ_self _, fun h => Nat.lt_irrefl _ (hm.mesh.lt _ h), ?_, by simp⟩, ?_, BitVec.le_refl _, ?_⟩
      (fun x hx => ?_) rfl rfl
    · exact fun h => Nat.lt_irrefl _ (hm.mesh.deletedLt _ h)
    · rw [← reverseHashtBits_zero]
      exact fun h => hne (reverseHashtBits_inj.mp h)
    · rw [reverseHashtBits_reverseHashtBits]
      exact hs
    · rcases List.mem_cons.mp hx with rfl | hx
      · exact .inr (.inl (Nat.le_refl _))
      · exact .inl hx

theorem initReturn_keeps (hm : Mem s l r) (h : IsSet s slot ∧ k.Ok s l r slot) :
    Keeps s l r ⟨a, .initReturn slot k⟩ (initReturn k s a) l r := by
  cases k with
  | caller => exact .move hm trivial (fun x hx => hx) rfl
  | findNode f => exact .move hm ⟨h.2.1, by rw [← h.2.2]; exact h.1⟩ (fun x hx => hx) rfl
  | insertNode => exact .move hm trivial (fun x hx => hx) rfl

/-- The node of a call of `initialise_bucket` is not the node of the call it is part of. -/
theorem InitCall.Ok.node_ne (hi : i.Ok s l r) : ∀ d ∈ i.caller.holds, d ∉ [i.node] := by
  intro d hd
  rw [List.mem_singleton]
  rintro rfl
  have hcaller := hi.caller
  cases hk : i.caller with
  | caller => simp [hk, InitCaller.holds] at hd
  | insertNode => simp [hk, InitCaller.holds] at hd
  | findNode f =>
    rw [hk] at hd hcaller
    cases f with
    | insertNode hashv dnode =>
      obtain rfl := List.mem_singleton.mp hd
      have hdata := hcaller.1.2.data
      rw [hi.dummy] at hdata
      cases hdata
    | deleteNode hashv => cases hd
    | findItemNode hashv => cases hd

theorem NextGe.known {x : SoKey} (h : NextGe s l r a x) : NextKnown l r a := fun y hy => (h y hy).1

/-- **The link** of `initialise_bucket`. -/
theorem initCas_keeps (hm : Mem s l r) (hi : i.Ok s l r)
    (h : s.heap.Private l r i.node ∧ CurBelow s l r a (reverseHashtBits i.slot) ∧
      NextAbove s l r a (reverseHashtBits i.slot) ∧ (s.heap.node i.node).next = { ptr := a.next }) :
    ∃ l', Keeps s l r ⟨a, .init i .cas⟩ (i.step s a .cas) l' r := by
  obtain ⟨hp, ⟨c, hc, hcl, hck⟩, hn, hdn⟩ := h
  by_cases hcas : (s.heap.node c).next = { ptr := a.next }
  · have heq : i.step s a .cas = goto { s with heap := s.heap.setNext c { ptr := some i.node } } a
      (.init i .settle) := by
      simp only [InitCall.step, hc, MarkPtr.cas_ok hcas, if_true]
    rw [heq]
    have hu : (s.heap.node c).next.mark = false := by rw [hcas]
    obtain ⟨A, B, rfl⟩ := List.append_of_mem (hm.mesh.mem_of_unmarked hcl hu)
    have hB : a.next = B.head? := by rw [← hm.mesh.seg.next, nextOf_eq hcas]
    rw [hB] at hdn
    have hk : (s.heap.node i.node).WellKeyed := by
      refine ⟨by rw [hi.hashv]; exact hm.table.slot_lt hi.slot, ?_⟩
      rw [isData_eq_false_iff.mp hi.dummy, hi.hashv]
      exact hi.key
    have hmesh := hm.mesh.link hp hk hdn (by rw [hi.key]; exact hck) fun b hb => by
      rw [hi.key]
      exact (hn b (hB.trans hb)).2
    have hd : ∀ x, (s.heap.setNext c { ptr := some i.node }).isData x = s.heap.isData x := fun x => by simp
    have hf : Frame s (A ++ c :: B) r { s with heap := s.heap.setNext c { ptr := some i.node } }
        (A ++ c :: i.node :: B) r [i.node] :=
      frame_publish hcl hu (fun x hx => mem_insert_append.mpr (.inr hx)) (fun _ h => h)
        (fun x hx _ => mem_insert.mpr (.inr hx)) (fun x hx _ => mem_insert.mpr (.inr hx))
        fun x hx => (mem_insert_append.mp hx).elim (fun h => .inr (by simp [h])) .inl
    have hfilter : (A ++ c :: i.node :: B).filter s.heap.isData = (A ++ c :: B).filter s.heap.isData := by
      simp [List.filter_cons, hi.dummy]
    refine ⟨A ++ c :: i.node :: B, hm.ofHeap hmesh .setNext fun x hx _ => mem_insert.mpr (.inr hx),
      ⟨hf.initCall hi.node_ne hi, ⟨c, hc, by simp⟩, .inl ⟨by simp, hf.nextAbove hm hn⟩⟩,
        hf.mono (by simp [Thread.holds]),
      fun x hx => .inl hx, by simp [goto], ?_, by simp [goto], ?_⟩
    · simp only [goto, isData_setNext, hfilter]
      simp
    · simp only [goto, Pc.owes, isData_setNext, List.countP_eq_length_filter, hfilter]
  · refine ⟨l, ?_⟩
    simp only [InitCall.step, hc, MarkPtr.cas_fail hcas, setNext_self, hi.key]
    refine .move hm ⟨hi, hp, ?_, BitVec.le_refl _, ?_⟩ (fun x hx => hx) rfl
    · rw [← reverseHashtBits_zero]
      exact fun h => hi.slot_ne (reverseHashtBits_inj.mp h)
    · rw [reverseHashtBits_reverseHashtBits]
      exact hi.slot

/-- **Every step of `initialise_bucket`**, of an undisturbed caller. -/
theorem init_keeps (hm : Mem s l r) (hi : i.Ok s l r) {pc : InitPc} (h : pc.Ok s l r a i)
    (hu : Thread.Undisturbed s ⟨a, .init i pc⟩) : ∃ l', Keeps s l r ⟨a, .init i pc⟩ (i.step s a pc) l' r := by
  obtain ⟨b, hb⟩ := hm.table.bucket hi.slot
  cases pc with
  | probe pbKey =>
    obtain ⟨hp, hne, hle, hlt⟩ := h
    obtain ⟨step, b, hstep, hdown, hrev, hb, hz⟩ := probe_spec hm hne hlt
    refine ⟨l, ?_⟩
    simp only [InitCall.step, hstep, hb]
    cases b with
    | some b =>
      simp only [Option.isSome_some, true_or, if_true]
      refine .move hm ⟨hi, hp, ⟨b, hb⟩, ?_⟩ (fun x hx => hx) rfl
      rw [reverseHashtBits_reverseHashtBits]
      exact Nat.lt_of_lt_of_le hdown hle
    | none =>
      have hz : ¬ pbKey - step = 0 := hz rfl
      simp only [Option.isSome_none, Bool.false_eq_true, false_or]
      rw [if_neg hz]
      exact .move hm ⟨hi, hp, hz, BitVec.le_trans (BitVec.le_of_lt hdown) hle, hrev⟩ (fun x hx => hx) rfl
  | parent pbSlot =>
    obtain ⟨hp, ⟨b, hb⟩, hlt⟩ := h
    refine ⟨l, ?_⟩
    simp only [InitCall.step, hb]
    refine .move hm ⟨hi, hp, b, rfl, by simp [(hm.slot _ _ hb).1], ?_⟩ (fun x hx => hx) rfl
    rw [hm.key_slot hb]
    exact hlt
  | parentNext =>
    obtain ⟨hp, c, hc, hcl, hck⟩ := h
    refine ⟨l, ?_⟩
    simp only [InitCall.step, hc]
    exact .move hm ⟨hi, hp, ⟨c, rfl, hcl, hck⟩, fun x hx => (hm.mesh.next_mem hcl hx).1⟩ (fun x hx => hx) rfl
  | walk =>
    obtain ⟨hp, hc, hn⟩ := h
    refine ⟨l, ?_⟩
    simp only [InitCall.step]
    cases hnx : a.next with
    | none => exact .move hm ⟨hi, hp, hc, fun x hx => by simp [hnx] at hx⟩ (fun x hx => hx) rfl
    | some x =>
      have hx := hn x hnx
      by_cases hlt : s.heap.key x < s.heap.key i.node
      · simp only [hlt, if_true]
        rw [hi.key] at hlt
        exact .move hm ⟨hi, hp, ⟨x, rfl, hx, hlt⟩, fun y hy => (hm.mesh.next_mem hx hy).1⟩ (fun x hx => hx) rfl
      · simp only [hlt, if_false]
        rw [hi.key] at hlt
        refine .move hm ⟨hi, hp, hc, fun y hy => ?_⟩ (fun x hx => hx) rfl
        rw [hnx] at hy
        cases hy
        exact ⟨hx, BitVec.not_lt.mp hlt⟩
  | setNext =>
    obtain ⟨hp, hc, hn⟩ := h
    refine ⟨l, ?_⟩
    simp only [InitCall.step, assign_eq hp]
    have hf : Frame s l r { s with heap := s.heap.setNext i.node { ptr := a.next } } l r [i.node] := frame_setPrivate hp
    exact .ofFrame (hm.ofHeap (hm.mesh.setPrivate hp.notMem) .setNext fun _ h _ => h) (hf.mono (by simp [Thread.holds]))
      hm ⟨hf.initCall hi.node_ne hi, private_setNext hp rfl, hf.curBelow hm hc, hf.nextGe hm hn, by simp⟩
      (fun x hx => .inl hx) rfl rfl
  | recheck =>
    obtain ⟨hp, hc, hn, hdn⟩ := h
    refine ⟨l, ?_⟩
    simp only [InitCall.step, hb]
    have hknown : CurKnown l r a := ⟨_, hc.choose_spec.1, hc.choose_spec.2.1⟩
    cases b with
    | some b => exact .move hm ⟨hi, hknown, .inr ⟨hp, .inl ⟨b, hb⟩⟩⟩ (fun x hx => hx) rfl
    | none =>
      cases hnx : a.next with
      | none => exact .move hm ⟨hi, hp, hc, fun x hx => by simp [hnx] at hx, hdn⟩ (fun x hx => hx) rfl
      | some x =>
        obtain ⟨hx, hxk⟩ := hn x hnx
        by_cases hkey : s.heap.key x = s.heap.key i.node
        · simp only [hkey, if_true]
          exact .move hm ⟨hi, hknown, .inr ⟨hp, .inr ⟨x, hnx, hx, by rw [hkey, hi.key]⟩⟩⟩ (fun x hx => hx) rfl
        · simp only [hkey, if_false]
          rw [hi.key] at hkey
          refine .move hm ⟨hi, hp, hc, fun y hy => ?_, hdn⟩ (fun x hx => hx) rfl
          rw [hnx] at hy
          cases hy
          exact ⟨hx, by bv_omega⟩
  | cas => exact initCas_keeps hm hi h
  | settle =>
    obtain ⟨hc, hcase⟩ := h
    refine ⟨l, ?_⟩
    simp only [InitCall.step, hb]
    cases b with
    | some b =>
      -- the slot is set: this is where a linked node would be deleted
      have hnl : i.node ∉ l := fun h => hu ⟨b, hb⟩ (hm.onChain_iff.mpr h)
      exact .move hm ⟨hi, (hcase.resolve_left fun h => hnl h.1).1, b, hb⟩ (fun x hx => hx) rfl
    | none =>
      refine .move hm ⟨hi, hc, hcase.imp_right fun h => ⟨h.1, h.2.resolve_left ?_⟩⟩ (fun x hx => hx) rfl
      rintro ⟨b, hb'⟩
      simp [hb] at hb'
  | won =>
    obtain ⟨⟨c, hc, hcl⟩, hcase⟩ := h
    refine ⟨l, ?_⟩
    simp only [InitCall.step, hc]
    by_cases hnx : s.heap.nextOf c = some i.node
    · simp only [hnx, if_true]
      refine .move hm ⟨hi, (hcase.resolve_right fun h => ?_).1⟩ (fun x hx => hx) rfl
      exact hm.mesh.next_ne_private h.1 hcl hnx
    · simp only [hnx, if_false]
      have hnl : i.node ∉ l := fun h => hu (by simpa [hc] using hnx) (hm.onChain_iff.mpr h)
      exact .move hm ⟨hi, hcase.resolve_left fun h => hnl h.1⟩ (fun x hx => hx) rfl
  | store =>
    have hlt : i.slot.toNat < s.buckets.length := by
      rw [hm.size]
      exact hi.slot
    have hf : Frame s l r { s with buckets := s.buckets.set i.slot.toNat (some i.node) } l r [] := frame_setBucket hlt
    refine ⟨l, .ofFrame (hm.setBucket hi.slot h hi.dummy hi.hashv) (hf.mono (by simp)) hm
      ⟨hf.initCall (by simp) hi, i.node, List.getElem?_set_self hlt⟩ (fun x hx => .inl hx) rfl rfl⟩
  | storeNext =>
    obtain ⟨hp, x, hnx, hx, hxk⟩ := h
    have hlt : i.slot.toNat < s.buckets.length := by
      rw [hm.size]
      exact hi.slot
    obtain ⟨hxd, hxv⟩ := hm.mesh.dummy_of_key hx (hm.table.slot_lt hi.slot) hxk
    have hf : Frame s l r { s with buckets := s.buckets.set i.slot.toNat (some x) } l r [] := frame_setBucket hlt
    refine ⟨l, ?_⟩
    simp only [InitCall.step, hnx]
    exact .ofFrame (hm.setBucket hi.slot (hm.mesh.dummy_mem hx hxd) hxd hxv) (hf.mono (by simp)) hm
      ⟨hf.initCall (by simp) hi, (hf.priv _ (by simp) hp).1, x, List.getElem?_set_self hlt⟩
        (fun x hx => .inl hx) rfl rfl
  | assertNext =>
    obtain ⟨hp, b, hb⟩ := h
    refine ⟨l, ?_⟩
    simp only [InitCall.step, hb, hm.key_slot hb, hi.key, if_true]
    exact .move hm ⟨hi, hp, b, hb⟩ (fun x hx => hx) rfl
  | discard =>
    obtain ⟨hp, hset⟩ := h
    have hf : Frame s l r { s with heap := s.heap.delete i.node } l r [i.node] := frame_delete
    have hnl : i.node ∉ l := fun h => hp.notMem (by simp [h])
    exact ⟨l, .ofFrame (hm.ofHeap (hm.mesh.delete hnl hp.lt) .delete fun _ h _ => h)
      (hf.mono (by simp [Thread.holds])) hm
      ⟨hf.initCall hi.node_ne hi, hset⟩ (fun x hx => .inl hx) rfl rfl⟩
  | assertSet =>
    obtain ⟨b, hb⟩ := h
    refine ⟨l, ?_⟩
    simp only [InitCall.step, hb]
    exact .move hm ⟨hi, b, hb⟩ (fun x hx => hx) rfl
  | assertKey =>
    obtain ⟨b, hb⟩ := h
    refine ⟨l, ?_⟩
    simp only [InitCall.step, hb, hm.key_slot hb, hi.key, if_true]
    exact .move hm ⟨⟨b, hb⟩, hi.caller⟩ (fun x hx => List.mem_cons_of_mem _ hx) rfl

end Initialise

/-! ## All steps -/

/-- **Every step of an undisturbed thread keeps the invariant.** -/
theorem Thread.step_keeps {th : Thread} {e : Effect T} (hm : Mem s l r) (h : th.Ok s l r) (hu : th.Undisturbed s)
    (he : th.step s = some e) : ∃ l' r', Keeps s l r th e l' r' := by
  obtain ⟨a, pc⟩ := th
  cases pc with
  | idle res => cases he
  | expand hashv => cases he
  | crashed => cases he
  | initEntry slot k =>
    cases he
    exact ⟨l, r, initEntry_keeps hm h⟩
  | init i pc =>
    cases he
    obtain ⟨l', hk⟩ := init_keeps hm h.1 h.2 hu
    exact ⟨l', r, hk⟩
  | initReturn slot k =>
    cases he
    exact ⟨l, r, initReturn_keeps hm h⟩
  | findEntry f =>
    cases he
    exact ⟨l, r, findEntry_keeps hm h⟩
  | findBucket f =>
    cases he
    exact ⟨l, r, findBucket_keeps hm h⟩
  | findNext f =>
    cases he
    exact ⟨l, r, findNext_keeps hm h⟩
  | findWalk f =>
    cases he
    exact ⟨l, r, findWalk_keeps hm h⟩
  | insertSetNext hashv d =>
    cases he
    exact ⟨l, r, insertSetNext_keeps hm h⟩
  | insertCas hashv d =>
    cases he
    obtain ⟨l', hk⟩ := insertCas_keeps hm h
    exact ⟨l', r, hk⟩
  | insertCount hashv =>
    cases he
    exact ⟨l, r, insertCount_keeps hm h⟩
  | insertNext hashv =>
    cases he
    exact ⟨l, r, insertNext_keeps hm h⟩
  | insertWalk hashv =>
    cases he
    exact ⟨l, r, insertWalk_keeps hm h⟩
  | insertCheck hashv =>
    cases he
    exact ⟨l, r, insertCheck_keeps hm⟩
  | deleteMark hashv =>
    cases he
    exact ⟨l, r, deleteMark_keeps hm h⟩
  | deleteUnlink hashv =>
    cases he
    exact deleteUnlink_keeps hm h
  | deleteCount hashv =>
    cases he
    exact ⟨l, r, deleteCount_keeps hm h⟩

end Concurrent

end SplitOrder
