/-
What the calls of `solist.hpp` do to a well-formed list, one call at a time.

`s.Inv l p` is the invariant: `l` is the chain from `buckets[0]`, the table
has a power of two of slots, a slot that is set holds the dummy of its own
number, every dummy of the chain is in its slot, and the counter is the
number of data nodes. Each function has one lemma that says what it
returns and what the list is afterwards; callers use these and unfold
nothing.
-/
import SplitOrder.Lib.Cuts
import SplitOrder.Solist.Chain
import SplitOrder.Solist.Model

namespace SplitOrder

open Heap

variable {T : Type}

namespace Solist

/-- The bucket array has `n_buckets` slots, a power of two. -/
structure Table (s : Solist T) : Prop where
  pow : ∃ k ≤ 31, s.nBuckets.toNat = 2 ^ k
  size : s.buckets.length = s.nBuckets.toNat

/-- A list between two calls, or within one that has made the nodes `p` and
not linked them. -/
structure Inv (s : Solist T) (l p : List Addr) : Prop where
  chain : s.heap.Chain l p
  nBuckets : ∃ k ≤ 31, s.nBuckets.toNat = 2 ^ k
  size : s.buckets.length = s.nBuckets.toNat
  first : ∃ a, s.buckets[0]? = some (some a)
  slot : ∀ i a, s.buckets[i]? = some (some a) →
    a ∈ l ∧ s.heap.isData a = false ∧ (s.heap.node a).hashv.toNat = i
  dummy : ∀ a ∈ l, s.heap.isData a = false → s.buckets[(s.heap.node a).hashv.toNat]? = some (some a)
  items : s.nItems = BitVec.ofNat 32 (l.countP s.heap.isData)

variable {s : Solist T} {l p A B : List Addr} {a : Accessor} {slot key : Hash} {c : Addr}

/-! ## The table -/

theorem bucket_ok {b : Option Addr} (h : s.buckets[slot.toNat]? = some b) : s.bucket slot = .ok b := by
  simp [bucket, h]

namespace Table

theorem nBuckets_le (ht : s.Table) : s.nBuckets.toNat ≤ 2 ^ 31 := by
  obtain ⟨k, hk, hn⟩ := ht.pow
  rw [hn]
  exact Nat.pow_le_pow_right (by omega) hk

theorem slot_lt (ht : s.Table) (hs : slot < s.nBuckets) : slot.toNat < 2 ^ 31 :=
  Nat.lt_of_lt_of_le hs ht.nBuckets_le

theorem umod_lt (ht : s.Table) (hashv : Hash) : hashv % s.nBuckets < s.nBuckets := by
  obtain ⟨k, -, hn⟩ := ht.pow
  rw [BitVec.lt_def, BitVec.toNat_umod, hn]
  exact Nat.mod_lt _ (Nat.two_pow_pos k)

theorem bucket (ht : s.Table) (hs : slot < s.nBuckets) : ∃ b, s.buckets[slot.toNat]? = some b := by
  have hlt : slot.toNat < s.buckets.length := by
    rw [ht.size]
    exact hs
  exact ⟨_, List.getElem?_eq_getElem hlt⟩

end Table

theorem Inv.table (hi : s.Inv l p) : s.Table := ⟨hi.nBuckets, hi.size⟩

theorem Inv.bucket (hi : s.Inv l p) (hs : slot < s.nBuckets) :
    ∃ b, s.buckets[slot.toNat]? = some b ∧ s.bucket slot = .ok b := by
  obtain ⟨b, hb⟩ := hi.table.bucket hs
  exact ⟨b, hb, bucket_ok hb⟩

/-- There are no more items than keys. -/
theorem Inv.countP_le (hi : s.Inv l p) : l.countP s.heap.isData ≤ 2 ^ 31 :=
  Chain.countP_le_of_keys hi.chain.nodup hi.chain.keyed fun _ ha _ hb => hi.chain.eq_of_key_eq ha hb

/-- The counter is exact. -/
theorem Inv.nItems_toNat (hi : s.Inv l p) : s.nItems.toNat = l.countP s.heap.isData := by
  have := hi.countP_le
  rw [hi.items, BitVec.toNat_ofNat, Nat.mod_eq_of_lt (by omega)]

/-- The key of the dummy a slot holds. -/
theorem Inv.key_slot (hi : s.Inv l p) (h : s.buckets[slot.toNat]? = some (some c)) :
    s.heap.key c = reverseHashtBits slot := by
  obtain ⟨hc, hd, hv⟩ := hi.slot _ _ h
  rw [hi.chain.key_dummy hc hd, BitVec.eq_of_toNat_eq hv]

/-- A node of the chain with the key of a slot is the dummy in that slot. -/
theorem Inv.slot_of_key (hi : s.Inv l p) (hs : slot.toNat < 2 ^ 31) (hc : c ∈ l)
    (hk : s.heap.key c = reverseHashtBits slot) : s.buckets[slot.toNat]? = some (some c) := by
  cases hd : s.heap.isData c with
  | true =>
    rw [hi.chain.key_data hc hd] at hk
    exact absurd hk (solNodeKey_ne hs)
  | false =>
    rw [hi.chain.key_dummy hc hd] at hk
    rw [← reverseHashtBits_inj.mp hk]
    exact hi.dummy c hc hd

/-! ## Walking the chain -/

theorem advance_ok (hc : s.heap.Live c) (ha : a.next = some c) :
    s.advance a = .ok { a with prev := a.cur, cur := some c, next := (s.heap.node c).next.ptr } := by
  simp [advance, ha, deref_live hc]

/-- Where a walk from `c` stops: at the first node whose successor does not
satisfy `go`. `w` are the nodes it moved over. -/
theorem advanceWhile_spec (go : Node T → Bool) (counts : Bool) (hc : s.heap.Chain l p) :
    ∀ (B A : List Addr) (c : Addr) (fuel : Nat) (a : Accessor), l = A ++ c :: B → a.cur = some c →
      a.next = B.head? → B.length < fuel →
      ∃ a' w A' d B', s.advanceWhile go counts fuel a = .ok a' ∧ l = A' ++ d :: B' ∧
        a'.cur = some d ∧ a'.next = B'.head? ∧ A' ++ [d] = A ++ c :: w ∧ B = w ++ B' ∧
        (∀ x ∈ w, go (s.heap.node x) = true) ∧ (∀ x, B'.head? = some x → go (s.heap.node x) = false) ∧
        a'.steps = a.steps + (if counts then BitVec.ofNat 32 w.length else 0) ∧
        (w = [] → a' = a) ∧ (w ≠ [] → ∃ q A'', A' = A'' ++ [q] ∧ a'.prev = some q)
  | [], A, c, fuel, a, hl, hcur, hnext, hf => by
    obtain ⟨fuel, rfl⟩ := Nat.exists_eq_succ_of_ne_zero (Nat.ne_of_gt hf)
    refine ⟨a, [], A, c, [], ?_, hl, hcur, hnext, by simp, by simp, by simp, by simp, by simp, by simp, by simp⟩
    simp [advanceWhile, hnext]
  | b :: B, A, c, fuel, a, hl, hcur, hnext, hf => by
    obtain ⟨fuel, rfl⟩ := Nat.exists_eq_succ_of_ne_zero (Nat.ne_of_gt (Nat.zero_lt_of_lt hf))
    have hb : s.heap.Live b := hc.live (by simp [hl])
    simp only [List.head?_cons] at hnext
    cases hgo : go (s.heap.node b) with
    | false =>
      refine ⟨a, [], A, c, b :: B, ?_, hl, hcur, hnext, by simp, by simp, by simp, by simp [hgo], by simp,
        by simp, by simp⟩
      simp [advanceWhile, hnext, deref_live hb, hgo]
    | true =>
      have hl' : l = (A ++ [c]) ++ b :: B := by simp [hl]
      have hnx : (s.heap.node b).next.ptr = B.head? := by
        rw [hl'] at hc
        rw [hc.next_eq]
      let a₁ : Accessor := { a with prev := some c, cur := some b, next := B.head? }
      let a₂ : Accessor := if counts then { a₁ with steps := a₁.steps + 1 } else a₁
      obtain ⟨a', w, A', d, B', h, hl'', h1, h2, h3, h4, h5, h6, h7, h8, h9⟩ :=
        advanceWhile_spec go counts hc B (A ++ [c]) b fuel a₂ hl' (by dsimp only [a₂, a₁]; split <;> rfl)
          (by dsimp only [a₂, a₁]; split <;> rfl) (by simp at hf; omega)
      refine ⟨a', b :: w, A', d, B', ?_, hl'', h1, h2, by simpa using h3, by simp [h4], by simpa [hgo] using h5,
        h6, ?_, by simp, fun _ => ?_⟩
      · simp only [advanceWhile, hnext, deref_live hb, bind_ok, hgo, if_true, advance_ok hb hnext, hcur, hnx]
        exact h
      · rw [h7]
        cases counts
        · rfl
        · simp only [a₂, a₁, if_true, List.length_cons, BitVec.ofNat_add, BitVec.add_assoc]
          rw [BitVec.add_comm 1]
          rfl
      · by_cases hw : w = []
        · subst hw
          rw [h8 rfl]
          refine ⟨c, A, ?_, by dsimp only [a₂, a₁]; split <;> rfl⟩
          have := congrArg List.dropLast h3
          simpa using this
        · exact h9 hw

/-- A walk from the node `b` that goes on while the keys are `below`, for a
bound that `b` is below: it ends at the last such node of the whole chain. -/
theorem walkTo_spec (below : SoKey → Bool) (counts : Bool) {b : Addr} (hc : s.heap.Chain l p) (hb : b ∈ l)
    (hdown : ∀ x y, x < y → below y = true → below x = true) (hbb : below (s.heap.key b) = true)
    (hcur : a.cur = some b) (hnext : a.next = (s.heap.node b).next.ptr) :
    ∃ a' A d B, s.advanceWhile (fun n => below n.key) counts s.fuel a = .ok a' ∧ l = A ++ d :: B ∧
      a'.cur = some d ∧ a'.next = B.head? ∧ (∀ x ∈ A ++ [d], below (s.heap.key x) = true) ∧
      (∀ x ∈ B, below (s.heap.key x) = false) ∧
      (∃ A₀ w, A ++ [d] = A₀ ++ b :: w ∧ a'.steps = a.steps + (if counts then BitVec.ofNat 32 w.length else 0)) ∧
      (d = b ∨ ∃ q A', A = A' ++ [q] ∧ a'.prev = some q) := by
  obtain ⟨A, B, rfl⟩ := List.append_of_mem hb
  have hlen : B.length < s.fuel := by
    have := hc.length_le
    simp only [List.length_append, List.length_cons] at this
    simp only [fuel]
    omega
  obtain ⟨a', w, A', d, B', h, hl, hcur', hnx, hw, rfl, hgo, hstop, hsteps, h1, h2⟩ :=
    advanceWhile_spec (fun n => below n.key) counts hc B A b s.fuel a rfl hcur
      (by rw [hnext, hc.next_eq]) hlen
  rw [hl] at hc
  have hd : below (s.heap.key d) = true := by
    by_cases hw0 : w = []
    · subst hw0
      have := congrArg List.getLast? hw
      simp only [List.getLast?_append, List.getLast?_cons, List.getLast?_nil] at this
      simp at this
      rw [this]
      exact hbb
    · obtain ⟨w', e, rfl⟩ := (List.eq_nil_or_concat' w).resolve_left hw0
      have := (List.append_inj' (hw.trans (List.append_assoc A (b :: w') [e]).symm) rfl).2
      exact hgo d (by simp_all)
  refine ⟨a', A', d, B', h, hl, hcur', hnx, fun x hx => ?_, fun x hx => ?_, ⟨A, w, hw, hsteps⟩, ?_⟩
  · rcases List.mem_append.mp hx with hx | hx
    · exact hdown _ _ (hc.lt_of_mem_left hx) hd
    · rw [List.mem_singleton.mp hx]
      exact hd
  · have hsorted : B'.Pairwise fun x y => s.heap.key x < s.heap.key y :=
      (List.pairwise_cons.mp (List.pairwise_append.mp hc.sorted).2.1).2
    exact all_false_of_head (hsorted.imp fun hxy hy => hdown _ _ hxy hy) hstop x hx
  · by_cases hw0 : w = []
    · left
      subst hw0
      simpa using congrArg List.getLast? hw
    · exact .inr (h2 hw0)

/-! ## `get_parent` -/

/-- One turn of `get_parent`'s probing, from a key `m + 1` steps up: the key
goes down to `m` steps, its slot is one of the table, and if that is empty
it is not slot 0. -/
theorem probe_turn {k m : Nat} {step pbKey : SoKey} (hi : s.Inv l p) (hn : s.nBuckets.toNat = 2 ^ k) (hk : k ≤ 31)
    (hstep : step.toNat = 2 ^ (32 - k)) (hpb : pbKey.toNat = (m + 1) * step.toNat) :
    (pbKey - step).toNat = m * step.toNat ∧ step ≤ pbKey ∧ pbKey - step < pbKey ∧
      reverseHashtBits (pbKey - step) < s.nBuckets ∧
      ∃ b, s.buckets[(reverseHashtBits (pbKey - step)).toNat]? = some b ∧
        s.bucket (reverseHashtBits (pbKey - step)) = .ok b ∧ (b = none → pbKey - step ≠ 0#32 ∧ m ≠ 0) := by
  have hpos : 0 < step.toNat := by
    rw [hstep]
    exact Nat.two_pow_pos _
  have hle : step ≤ pbKey := by
    rw [BitVec.le_def, hpb]
    exact Nat.le_mul_of_pos_left _ (Nat.succ_pos m)
  have hsub : (pbKey - step).toNat = m * step.toNat := by
    rw [BitVec.toNat_sub_of_le hle, hpb, Nat.succ_mul, Nat.add_sub_cancel]
  have hlt : pbKey - step < pbKey := by
    rw [BitVec.lt_def, hsub, hpb, Nat.succ_mul]
    omega
  have hlow : reverseHashtBits (pbKey - step) < s.nBuckets := by
    rw [BitVec.lt_def, hn, reverseHashtBits_lt_iff hk, hsub, hstep]
    exact Nat.dvd_mul_left _ _
  obtain ⟨b, hb, hbk⟩ := hi.bucket hlow
  refine ⟨hsub, hle, hlt, hlow, b, hb, hbk, fun hnone => ?_⟩
  have hz : pbKey - step ≠ 0#32 := by
    -- slot 0 is never empty
    intro hz
    obtain ⟨b₀, hb₀⟩ := hi.first
    rw [hz, hnone] at hb
    simp [hb₀] at hb
  refine ⟨hz, ?_⟩
  rintro rfl
  exact hz (BitVec.eq_of_toNat_eq (by simpa using hsub))

/-- The probing of `get_parent`, from a key `m` steps up, stops at a slot
that is set and whose key is lower. -/
theorem parentSlot_spec {k : Nat} {step : SoKey} (hi : s.Inv l p) (hn : s.nBuckets.toNat = 2 ^ k) (hk : k ≤ 31)
    (hstep : step.toNat = 2 ^ (32 - k)) :
    ∀ (fuel m : Nat) (pbKey : SoKey), m ≠ 0 → m ≤ fuel → pbKey.toNat = m * step.toNat →
      ∃ pbSlot b, s.parentSlot step fuel pbKey = .ok pbSlot ∧ s.buckets[pbSlot.toNat]? = some (some b) ∧
        reverseHashtBits pbSlot < pbKey
  | 0, m, _, hm, hf, _ => by omega
  | fuel + 1, m, pbKey, hm, hf, hpb => by
    obtain ⟨m, rfl⟩ := Nat.exists_eq_succ_of_ne_zero hm
    obtain ⟨hsub, -, hlt, -, b, hb, hbk, hempty⟩ := probe_turn hi hn hk hstep hpb
    simp only [parentSlot, hbk, bind_ok]
    cases b with
    | some b => exact ⟨_, b, by simp, hb, by rwa [reverseHashtBits_reverseHashtBits]⟩
    | none =>
      obtain ⟨hz, hm'⟩ := hempty rfl
      obtain ⟨ps, b, h1, h2, h3⟩ := parentSlot_spec hi hn hk hstep fuel m (pbKey - step) hm' (by omega) hsub
      exact ⟨ps, b, by simpa [hz] using h1, h2, BitVec.lt_trans h3 hlt⟩

/-- A slot of the table other than slot 0 has a key that is a positive multiple of the step. -/
theorem slot_key_multiple {k : Nat} (hk : k ≤ 31) (hs : slot.toNat < 2 ^ k) (hne : slot ≠ 0#32) :
    k ≠ 0 ∧ ∃ m, m ≠ 0 ∧ m ≤ 2 ^ 32 ∧ (reverseHashtBits slot).toNat = m * 2 ^ (32 - k) := by
  have hk0 : k ≠ 0 := by
    rintro rfl
    exact hne (BitVec.eq_of_toNat_eq (by simpa using hs))
  obtain ⟨m, hm⟩ := (step_dvd_iff hk).mpr hs
  have hlt := (reverseHashtBits slot).isLt
  refine ⟨hk0, m, ?_, ?_, by rw [hm, Nat.mul_comm]⟩
  · rintro rfl
    refine hne (reverseHashtBits_inj.mp (BitVec.eq_of_toNat_eq ?_))
    rw [hm, reverseHashtBits_zero]
    simp
  · have h1 : m ≤ 2 ^ (32 - k) * m := Nat.le_mul_of_pos_left _ (Nat.two_pow_pos _)
    omega

/-- `get_parent` on an empty slot finds the gap of the chain its dummy belongs in. -/
theorem getParent_spec (hi : s.Inv l p) (hs : slot < s.nBuckets) (hempty : s.buckets[slot.toNat]? = some none)
    (a : Accessor) :
    ∃ a' A c B, s.getParent a slot (reverseHashtBits slot) = .ok a' ∧ l = A ++ c :: B ∧ a'.cur = some c ∧
      a'.next = B.head? ∧ s.heap.key c < reverseHashtBits slot ∧ (∀ b ∈ B, reverseHashtBits slot < s.heap.key b) ∧
      a'.steps = a.steps := by
  obtain ⟨k, hk, hn⟩ := hi.nBuckets
  have hsk : slot.toNat < 2 ^ k := by rw [← hn]; exact hs
  have hs31 : slot.toNat < 2 ^ 31 := Nat.lt_of_lt_of_le hsk (Nat.pow_le_pow_right (by omega) hk)
  have hne : slot ≠ 0#32 := by
    rintro rfl
    obtain ⟨b, hb⟩ := hi.first
    simp [hb] at hempty
  obtain ⟨hk0, m, hm0, hm, hmul⟩ := slot_key_multiple hk hsk hne
  obtain ⟨step, hstepok, hstep⟩ := solBucketKey_half hn hk0 hk
  obtain ⟨ps, b, hps, hb, hlt⟩ :=
    parentSlot_spec hi hn hk hstep (2 ^ 32) m (reverseHashtBits slot) hm0 hm (by rw [hmul, hstep])
  obtain ⟨hbl, -, -⟩ := hi.slot _ _ hb
  obtain ⟨a', A, d, B, h, hl, hcur, hnx, hA, hB, ⟨_, _, -, hsteps⟩, -⟩ :=
    walkTo_spec (fun k => decide (k < reverseHashtBits slot)) false
      (a := { a with prev := some b, cur := some b, next := (s.heap.node b).next.ptr }) hi.chain hbl
      (fun x y hxy hy => by simpa using BitVec.lt_trans hxy (by simpa using hy))
      (by simpa [hi.key_slot hb] using hlt) rfl rfl
  refine ⟨a', A, d, B, ?_, hl, hcur, hnx, by simpa using hA d (by simp), fun x hx => ?_, by simpa using hsteps⟩
  · simp only [getParent, hstepok, bind_ok, hps, bucket_ok hb, deref_live (hi.chain.live hbl)]
    exact h
  · have hle : ¬ s.heap.key x < reverseHashtBits slot := by simpa using hB x hx
    -- a node with the slot's key would be in the slot
    have hne : s.heap.key x ≠ reverseHashtBits slot := fun h => by
      have := hi.slot_of_key hs31 (by simp [hl, hx]) h
      simp [this] at hempty
    bv_omega

/-! ## The invariant and the heap operations -/

/-- The invariant reads a node's hash and kind, and the chain. -/
theorem Inv.ofHeap {h : Heap T} {p' : List Addr} (hi : s.Inv l p) (he : s.heap.Extends h) (hc : h.Chain l p') :
    { s with heap := h }.Inv l p' := by
  have hd : ∀ x ∈ l, h.isData x = s.heap.isData x := fun x hx => he.isData (hi.chain.live hx).1
  have hv : ∀ x ∈ l, (h.node x).hashv = (s.heap.node x).hashv := fun x hx => he.hashv x (hi.chain.live hx).1
  refine ⟨hc, hi.nBuckets, hi.size, hi.first, fun i x hx => ?_, fun x hx hdx => ?_, ?_⟩
  · obtain ⟨h1, h2, h3⟩ := hi.slot i x hx
    exact ⟨h1, by rw [hd x h1, h2], by rw [hv x h1, h3]⟩
  · rw [hv x hx]
    exact hi.dummy x hx (by rw [← hd x hx, hdx])
  · rw [hi.items]
    congr 1
    exact (List.countP_congr fun x hx => by rw [hd x hx]).symm

theorem Inv.new {m : Node T} (hi : s.Inv l p) : { s with heap := s.heap.new m }.Inv l (s.heap.size :: p) :=
  hi.ofHeap .new hi.chain.new

theorem Inv.setPending {m : MarkPtr Addr} {n : Addr} (hi : s.Inv l p) (hn : n ∈ p) :
    { s with heap := s.heap.setNext n m }.Inv l p :=
  hi.ofHeap .setNext (hi.chain.setPending hn)

theorem Inv.discard {n : Addr} (hi : s.Inv l (n :: p)) : { s with heap := s.heap.delete n }.Inv l p :=
  hi.ofHeap .delete hi.chain.discard

/-- What a call that creates buckets leaves as it was: the data nodes, in
their order, and every node's hash, key and payload. -/
structure SameItems (s : Solist T) (l p : List Addr) (s' : Solist T) (l' : List Addr) : Prop where
  inv : s'.Inv l' p
  ext : s.heap.Extends s'.heap
  pending : ∀ n ∈ p, s'.heap.node n = s.heap.node n
  data : l'.filter s'.heap.isData = l.filter s.heap.isData
  maxBucketLength : s'.maxBucketLength = s.maxBucketLength
  nItems : s'.nItems = s.nItems

namespace SameItems

variable {s' s'' : Solist T} {l' l'' : List Addr}

theorem refl (hi : s.Inv l p) : SameItems s l p s l :=
  ⟨hi, .refl _, fun _ _ => rfl, rfl, rfl, rfl⟩

theorem trans (h₁ : SameItems s l p s' l') (h₂ : SameItems s' l' p s'' l'') : SameItems s l p s'' l'' where
  inv := h₂.inv
  ext := h₁.ext.trans h₂.ext
  pending n hn := (h₂.pending n hn).trans (h₁.pending n hn)
  data := h₂.data.trans h₁.data
  maxBucketLength := h₂.maxBucketLength.trans h₁.maxBucketLength
  nItems := h₂.nItems.trans h₁.nItems

end SameItems

/-! ## `initialise_bucket` -/

/-- The dummy of a slot, made and linked in after `c`. -/
def addDummy (s : Solist T) (slot : Hash) (c : Addr) (next : Option Addr) : Solist T :=
  let n := s.heap.size
  { s with
    buckets := s.buckets.set slot.toNat (some n)
    heap := ((s.heap.new { hashv := slot, key := reverseHashtBits slot, payload := none }).setNext n
      { ptr := next }).setNext c { ptr := some n } }

/-- **`initialise_bucket` on an empty slot** links one new dummy in at the
place of its key and puts it in the slot. -/
theorem initialiseBucket_eq (hi : s.Inv l p) (hs : slot < s.nBuckets) (hempty : s.buckets[slot.toNat]? = some none)
    (a : Accessor) :
    ∃ a' A c B, l = A ++ c :: B ∧ s.heap.key c < reverseHashtBits slot ∧
      (∀ b ∈ B, reverseHashtBits slot < s.heap.key b) ∧ a'.cur = some c ∧ a'.next = some s.heap.size ∧
      a'.steps = a.steps ∧ s.initialiseBucket a slot = .ok (a', s.addDummy slot c B.head?) := by
  have hs31 : slot.toNat < 2 ^ 31 := hi.table.slot_lt hs
  let b : Node T := { hashv := slot, key := reverseHashtBits slot, payload := none }
  let s₁ : Solist T := { s with heap := s.heap.new b }
  have hi₁ : s₁.Inv l (s.heap.size :: p) := hi.new
  obtain ⟨a₁, A, c, B, hgp, rfl, hcur, hnext, hlt, hgt, hst⟩ := getParent_spec hi₁ hs hempty a
  have hkey : ∀ x ∈ A ++ c :: B, s₁.heap.key x = s.heap.key x := fun x hx =>
    Extends.new.key x (hi.chain.live hx).1
  rw [hkey c (by simp)] at hlt
  have hgt' : ∀ x ∈ B, reverseHashtBits slot < s.heap.key x := fun x hx => by
    rw [← hkey x (by simp [hx])]
    exact hgt x hx
  let s₂ : Solist T := { s with heap := (s.heap.new b).setNext s.heap.size { ptr := B.head? } }
  have hi₂ : s₂.Inv (A ++ c :: B) (s.heap.size :: p) := hi₁.setPending (by simp)
  have hnc : s.heap.size ≠ c := fun h => hi₁.chain.pending_notMem (a := s.heap.size) (by simp) (by simp [h])
  have hlive₁ : s₁.heap.Live s.heap.size := hi₁.chain.pending_live (by simp)
  have hlive₂ : s₂.heap.Live c := hi₂.chain.live (by simp)
  refine ⟨{ a₁ with next := some s.heap.size }, A, c, B, rfl, hlt, hgt', hcur, rfl, hst, ?_⟩
  -- the next node, if any, has a larger key
  have hother : s₂.hasKey a₁.next (reverseHashtBits slot) = .ok false := by
    rw [hnext]
    cases hB : B.head? with
    | none => rfl
    | some x =>
      have hx : x ∈ B := List.mem_of_head? hB
      have hne : s₂.heap.key x ≠ reverseHashtBits slot := fun h => by
        have h1 := hgt x hx
        have h2 : s₂.heap.key x = s₁.heap.key x := by simp [s₂, s₁, key]
        rw [← h2, h] at h1
        exact absurd h1 (BitVec.lt_irrefl _)
      simp only [hasKey, keyIs, deref_live (hi₂.chain.live (a := x) (by simp [hx])), bind_ok]
      simpa [key] using hne
  have hassign : s₁.heap.assignNext (some s.heap.size) a₁.next = .ok s₂.heap := by
    rw [assignNext_live hlive₁, hnext]
    simp [s₁, s₂, MarkPtr.assign, b]
  have hcas : s₂.heap.casNext a₁.cur a₁.next (some s.heap.size) false =
      .ok (true, s₂.heap.setNext c { ptr := some s.heap.size }) := by
    rw [hcur, hnext]
    exact casNext_won hlive₂ hi₂.chain.next_eq
  have hlink : linkDummy slot (reverseHashtBits slot) s.heap.size s.fuel s₁ a =
      .ok (a₁, { s with heap := s₂.heap.setNext c { ptr := some s.heap.size } }) := by
    have hb₂ : s₂.bucket slot = .ok none := bucket_ok hempty
    change linkDummy slot _ _ (s.heap.size + 1) s₁ a = _
    rw [linkDummy, hgp]
    refine (bind_of_ok hassign).trans ?_
    refine (bind_of_ok hb₂).trans ?_
    refine (bind_of_ok hother).trans ?_
    exact bind_of_ok hcas
  let s₃ : Solist T := { s with heap := s₂.heap.setNext c { ptr := some s.heap.size } }
  let s₄ : Solist T := s.addDummy slot c B.head?
  have hlt_len : slot.toNat < s.buckets.length := by
    rw [hi.size]
    exact hs
  have hb₃ : s₃.bucket slot = .ok none := bucket_ok hempty
  have hderef : s₃.heap.deref a₁.cur = .ok (s₃.heap.node c) := by
    rw [hcur]
    exact deref_live hlive₂
  have hnext₃ : (s₃.heap.node c).next.ptr = some s.heap.size := by simp [s₃]
  have hset : s₃.setBucket slot (some s.heap.size) = .ok s₄ := if_pos hlt_len
  have hb₄ : s₄.bucket slot = .ok (some s.heap.size) := bucket_ok (by simp [s₄, addDummy, hlt_len])
  have hk₄ : s₄.keyIs (some s.heap.size) (reverseHashtBits slot) = .ok true := by
    have hlive : s₄.heap.Live s.heap.size := hlive₁
    simp only [keyIs, deref_live hlive, bind_ok]
    simp [s₄, addDummy]
  have hsettle : settleBucket slot (reverseHashtBits slot) s.heap.size s₃ a₁ =
      .ok ({ a₁ with next := some s.heap.size }, s₄) := by
    simp only [settleBucket, hb₃, hderef, hnext₃, hset, bind_ok, Option.isNone_none, if_true]
  simp only [initialiseBucket, hs, not_true_eq_false, if_false, bucket_ok hempty, bind_ok, Option.isSome_none,
    Bool.false_eq_true, solistBucket_ok hs31]
  refine (bind_of_ok hlink).trans ?_
  refine (bind_of_ok hsettle).trans ?_
  simp only [hb₄, bind_ok, Option.isNone_some, Bool.false_eq_true, if_false, hk₄, if_true, s₄]

/-- Adding a dummy in its place keeps the invariant and the data nodes. -/
theorem addDummy_sameItems (hi : s.Inv (A ++ c :: B) p) (hs : slot < s.nBuckets)
    (hempty : s.buckets[slot.toNat]? = some none) (hlt : s.heap.key c < reverseHashtBits slot)
    (hgt : ∀ b ∈ B, reverseHashtBits slot < s.heap.key b) :
    SameItems s (A ++ c :: B) p (s.addDummy slot c B.head?) (A ++ c :: s.heap.size :: B) := by
  let n := s.heap.size
  let h₁ := s.heap.new { hashv := slot, key := reverseHashtBits slot, payload := none }
  let h₂ := h₁.setNext n { ptr := B.head? }
  let h₃ := h₂.setNext c { ptr := some n }
  have hs31 : slot.toNat < 2 ^ 31 := hi.table.slot_lt hs
  have hold : ∀ x ∈ A ++ c :: B, x < n := fun x hx => (hi.chain.live hx).1
  have hext : s.heap.Extends h₃ := (Extends.new.trans .setNext).trans .setNext
  have hc₂ : h₂.Chain (A ++ c :: B) (n :: p) := hi.chain.new.setPending (by simp [n])
  have hkey : ∀ x ∈ A ++ c :: B, h₂.key x = s.heap.key x := fun x hx =>
    (Extends.new.trans .setNext : s.heap.Extends h₂).key x (hold x hx)
  have hn : h₂.node n =
      { hashv := slot, key := reverseHashtBits slot, next := { ptr := B.head? }, payload := none } := by
    simp [h₂, h₁, n, setNext]
  have hkn : h₂.key n = reverseHashtBits slot := by simp [key, hn]
  have hchain : h₃.Chain (A ++ c :: n :: B) p := by
    refine hc₂.link ⟨by simpa [hn] using hs31, by simp [hn]⟩ (by simp [hn]) ?_ fun b hb => ?_
    · rw [hkey c (by simp), hkn]
      exact hlt
    · rw [hkey b (by simp [hb]), hkn]
      exact hgt b hb
  have hdn : h₃.isData n = false := by simp [isData, h₃, hn]
  have hvn : (h₃.node n).hashv = slot := by simp [h₃, hn]
  have hmem : ∀ x, x ∈ A ++ c :: n :: B ↔ x = n ∨ x ∈ A ++ c :: B := by
    intro x
    simp only [List.mem_append, List.mem_cons]
    tauto
  have hd : ∀ x ∈ A ++ c :: B, h₃.isData x = s.heap.isData x := fun x hx => hext.isData (hold x hx)
  have hdata : (A ++ c :: n :: B).filter h₃.isData = (A ++ c :: B).filter s.heap.isData := by
    rw [← List.filter_congr hd]
    simp [List.filter_cons, hdn]
  have hlen : slot.toNat < s.buckets.length := by
    rw [hi.size]
    exact hs
  refine ⟨⟨hchain, hi.nBuckets, (List.length_set ..).trans hi.size, ?_, fun i x hx => ?_, fun x hx hdx => ?_, ?_⟩,
    hext, fun m hm => ?_, hdata, rfl, rfl⟩
  · obtain ⟨b, hb⟩ := hi.first
    refine ⟨b, ?_⟩
    have hne : slot.toNat ≠ 0 := fun h => by simp [h, hb] at hempty
    simpa [addDummy, List.getElem?_set_ne hne] using hb
  · by_cases his : slot.toNat = i
    · subst his
      simp only [addDummy, List.getElem?_set_self hlen, Option.some.injEq] at hx
      subst hx
      exact ⟨by simp, hdn, congrArg _ hvn⟩
    · simp only [addDummy, List.getElem?_set_ne his] at hx
      obtain ⟨h1, h2, h3⟩ := hi.slot i x hx
      exact ⟨(hmem x).mpr (.inr h1), (hd x h1).trans h2, (congrArg _ (hext.hashv x (hold x h1))).trans h3⟩
  · change (s.buckets.set slot.toNat (some n))[(h₃.node x).hashv.toNat]? = _
    rcases (hmem x).mp hx with rfl | hx
    · rw [hvn, List.getElem?_set_self hlen]
    · have h1 := hi.dummy x hx ((hd x hx).symm.trans hdx)
      rw [hext.hashv x (hold x hx), List.getElem?_set_ne fun h => by simp [← h, hempty] at h1]
      exact h1
  · change s.nItems = _
    rw [hi.items, List.countP_eq_length_filter, List.countP_eq_length_filter, ← hdata]
    rfl
  · have h1 := hi.chain.pending_live hm
    have h2 : m ≠ c := fun h => hi.chain.pending_notMem hm (by simp [h])
    change h₃.node m = _
    simp only [h₃, h₂, h₁]
    rw [setNext_node_of_ne h2, setNext_node_of_ne (Nat.ne_of_lt h1.1), new_node_of_lt h1.1]

/-- **`initialise_bucket`** returns on every slot of the table, with the slot
set and the items as they were. -/
theorem initialiseBucket_spec (hi : s.Inv l p) (hs : slot < s.nBuckets) (a : Accessor) :
    ∃ a' s' l', s.initialiseBucket a slot = .ok (a', s') ∧ SameItems s l p s' l' ∧ s'.nBuckets = s.nBuckets ∧
      (∃ b, s'.buckets[slot.toNat]? = some (some b)) ∧ a'.steps = a.steps := by
  obtain ⟨b, hb, hbk⟩ := hi.bucket hs
  cases b with
  | some b => exact ⟨a, s, l, by simp [initialiseBucket, hs, hbk], .refl hi, rfl, ⟨b, hb⟩, rfl⟩
  | none =>
    obtain ⟨a', A, c, B, rfl, hlt, hgt, -, -, hst, h⟩ := initialiseBucket_eq hi hs hb a
    have hlen : slot.toNat < s.buckets.length := by
      rw [hi.size]
      exact hs
    exact ⟨a', _, _, h, addDummy_sameItems hi hs hb hlt hgt, rfl, ⟨s.heap.size, by simp [addDummy, hlen]⟩, hst⟩

end Solist

end SplitOrder
