/-
What `find_node`, `insert_node`, `delete_node`, `find_item_node` and
`~solist` return on a well-formed list, and the list they leave.

A search ends at the last node whose key is at most the one sought
(`FoundAt`), and such a node has the sought key exactly when the list binds
the hash. An insert that grows the table past `2 ^ 31` slots is the one call
that faults.
-/
import SplitOrder.Solist.Ops
import SplitOrder.Solist.Ordering

namespace SplitOrder

open Heap

variable {T : Type}

namespace Solist

variable {s : Solist T} {l p A B : List Addr} {a : Accessor} {slot hashv : Hash} {c : Addr}

/-! ## The constructor -/

/-- A word that is a power of two is one up to `2 ^ 31`. -/
theorem two_pow_le {x : Hash} (hx : ∃ k, x.toNat = 2 ^ k) : ∃ k ≤ 31, x.toNat = 2 ^ k := by
  obtain ⟨k, hk⟩ := hx
  have hlt := x.isLt
  rw [hk] at hlt
  exact ⟨k, Nat.le_of_lt_succ ((Nat.pow_lt_pow_iff_right (by omega)).mp hlt), hk⟩

/-- What the constructor makes. -/
def initial (size bucketLength : Hash) : Solist T where
  nBuckets := size
  maxBucketLength := bucketLength
  buckets := (List.replicate size.toNat none).set 0 (some 0)
  heap := Heap.new { size := 0, node := fun _ => { hashv := 0, key := 0, payload := none }, deleted := [] }
    { hashv := 0#32, key := reverseHashtBits 0#32, payload := none }

theorem create_eq {size : Hash} (bucketLength : Hash) (hsize : 0 < size.toNat) :
    create (T := T) size bucketLength = .ok (initial size bucketLength) := by
  have hne : size ≠ 0#32 := by
    rintro rfl
    exact Nat.lt_irrefl _ hsize
  simp only [create]
  rw [show (0 : Hash) = 0#32 from rfl, solistBucket_ok (by decide), bind_ok, if_neg hne]
  rfl

section Initial

variable {size bucketLength : Hash}

@[simp] theorem initial_nItems : (initial (T := T) size bucketLength).nItems = 0#32 := rfl

@[simp] theorem initial_size : (initial (T := T) size bucketLength).heap.size = 1 := rfl

@[simp] theorem initial_deleted : (initial (T := T) size bucketLength).heap.deleted = [] := rfl

@[simp] theorem initial_node : (initial (T := T) size bucketLength).heap.node 0 =
    { hashv := 0#32, key := reverseHashtBits 0#32, payload := none } := rfl

/-- No slot but the first is set. -/
theorem initial_slot {i : Nat} (hi : i ≠ 0) (b : Addr) :
    (initial (T := T) size bucketLength).buckets[i]? ≠ some (some b) := by
  intro hb
  rw [initial, List.getElem?_set_ne (Ne.symm hi), List.getElem?_replicate] at hb
  split at hb <;> simp at hb

end Initial

/-- What the constructor leaves of any size. -/
theorem create_ok (size bucketLength : Hash) (hsize : 0 < size.toNat) :
    ∃ s : Solist T, create size bucketLength = .ok s ∧ s.nBuckets = size ∧
      s.maxBucketLength = bucketLength ∧ s.buckets.length = size.toNat ∧ ∀ i ≠ 0, ∀ b, s.buckets[i]? ≠ some (some b) :=
  ⟨_, create_eq bucketLength hsize, rfl, rfl, by simp [initial], fun _ hi b => initial_slot hi b⟩

/-! ## `find_node` -/

/-- The accessor stands at the last node with a key of at most `hashv`'s. -/
structure FoundAt (s : Solist T) (hashv : Hash) (a : Accessor) (A : List Addr) (c : Addr) (B : List Addr) : Prop where
  cur : a.cur = some c
  next : a.next = B.head?
  le : ∀ x ∈ A ++ [c], s.heap.key x ≤ solNodeKey hashv
  lt : ∀ x ∈ B, solNodeKey hashv < s.heap.key x
  prev : s.heap.key c = solNodeKey hashv → ∃ A' q, A = A' ++ [q] ∧ a.prev = some q

/-- The nodes of the chain that come after the place of a slot's dummy. -/
def after (s : Solist T) (l : List Addr) (slot : Hash) : List Addr :=
  l.dropWhile fun x => decide (s.heap.key x ≤ reverseHashtBits slot)

theorem after_append {L R : List Addr} (hL : ∀ x ∈ L, s.heap.key x ≤ reverseHashtBits slot)
    (hR : ∀ x ∈ R, reverseHashtBits slot < s.heap.key x) : s.after (L ++ R) slot = R := by
  refine dropWhile_append_stop (by simpa using hL) fun x hx => ?_
  simpa using hR x (List.mem_of_head? hx)

/-- A search that ends at `c` came from the bucket of the slot over data nodes, and has counted them. -/
def Walked (s : Solist T) (slot : Hash) (a : Accessor) (A : List Addr) (c : Addr) : Prop :=
  ∃ b A₀ w, s.buckets[slot.toNat]? = some (some b) ∧ A ++ [c] = A₀ ++ b :: w ∧
    (∀ x ∈ w, s.heap.isData x = true) ∧ a.steps = BitVec.ofNat 32 w.length

/-- A search that ends before `B` has counted the data nodes it moved over in its bucket. -/
def Crossed (s : Solist T) (l : List Addr) (slot : Hash) (a : Accessor) (B : List Addr) : Prop :=
  ∃ w, s.after l slot = w ++ B ∧ (∀ x ∈ w, s.heap.isData x = true) ∧ a.steps = BitVec.ofNat 32 w.length

/-- No dummy stands between a bucket's key and the key of a hash that falls into it. -/
theorem Inv.isData_of_between (hi : s.Inv l p) (hh : hashv.toNat < 2 ^ 31) (hc : c ∈ l)
    (hlt : reverseHashtBits (hashv % s.nBuckets) < s.heap.key c) (hle : s.heap.key c ≤ solNodeKey hashv) :
    s.heap.isData c = true := by
  obtain ⟨k, hk, hn⟩ := hi.nBuckets
  cases hd : s.heap.isData c with
  | true => rfl
  | false =>
    have hkey := hi.chain.key_dummy hc hd
    have hslot : (s.heap.node c).hashv.toNat < 2 ^ k := by
      have := (List.getElem?_eq_some_iff.mp (hi.dummy c hc hd)).1
      rwa [hi.size, hn] at this
    rw [hkey] at hlt hle
    -- a bucket's key below the hash's is at most that of the hash's bucket
    have hne : solNodeKey hashv ≠ reverseHashtBits (s.heap.node c).hashv := solNodeKey_ne (hi.chain.hashv_lt hc)
    have hbelow := (bucketKey_lt_nodeKey_iff hn hk hslot hh).mp (BitVec.lt_of_le_ne hle hne.symm)
    exact absurd hlt (BitVec.not_lt.mpr hbelow)

/-- The search from any bucket whose key is below that of the hash. -/
theorem findNodeTryAgain_from (hi : s.Inv l p) {b : Addr} (hb : s.buckets[slot.toNat]? = some (some b))
    (hlt : reverseHashtBits slot < solNodeKey hashv) (a : Accessor) :
    ∃ a' A c B, s.findNodeTryAgain a slot (solNodeKey hashv) = .ok (s.heap.key c == solNodeKey hashv, a') ∧
      l = A ++ c :: B ∧ FoundAt s hashv a' A c B ∧
      ∃ A₀ w, A ++ [c] = A₀ ++ b :: w ∧ a'.steps = BitVec.ofNat 32 w.length := by
  obtain ⟨hbl, -, -⟩ := hi.slot _ _ hb
  have hbkey : s.heap.key b < solNodeKey hashv := by
    rw [hi.key_slot hb]
    exact hlt
  obtain ⟨a', A, d, B, h, rfl, hcur, hnx, hA, hB, ⟨A₀, w, hw, hsteps⟩, hprev⟩ :=
    walkTo_spec (fun k => decide (k ≤ solNodeKey hashv)) true
      (a := { a with prev := some b, cur := some b, next := (s.heap.node b).next.ptr, steps := 0 }) hi.chain hbl
      (fun x y hxy hy => by simpa using BitVec.le_trans (BitVec.le_of_lt hxy) (by simpa using hy))
      (by simpa using BitVec.le_of_lt hbkey) rfl rfl
  refine ⟨a', A, d, B, ?_, rfl, ⟨hcur, hnx, fun x hx => by simpa using hA x hx, fun x hx => by simpa using hB x hx,
    fun hkey => ?_⟩, A₀, w, hw, by simpa using hsteps⟩
  · simp only [findNodeTryAgain, bucket_ok hb, bind_ok, deref_live (hi.chain.live hbl)]
    simp only [h, bind_ok, hcur, hasKey, keyIs, deref_live (hi.chain.live (a := d) (by simp))]
    rfl
  · rcases hprev with rfl | ⟨q, A', hA', hq⟩
    · rw [hkey] at hbkey
      exact absurd hbkey (BitVec.lt_irrefl _)
    · exact ⟨A', q, hA', hq⟩

theorem Walked.crossed (h : Walked s slot a A c) (hi : s.Inv (A ++ c :: B) p) : Crossed s (A ++ c :: B) slot a B := by
  obtain ⟨b, A₀, w, hb, hw, hdata, hsteps⟩ := h
  have hl : A ++ c :: B = A₀ ++ b :: (w ++ B) := by
    rw [List.append_cons, hw, List.append_assoc, List.cons_append]
  have hc := hi.chain
  rw [hl] at hc ⊢
  refine ⟨w, ?_, hdata, hsteps⟩
  rw [List.append_cons]
  refine after_append (fun x hx => ?_) fun x hx => ?_
  · rw [← hi.key_slot hb]
    rcases List.mem_append.mp hx with hx | hx
    · exact BitVec.le_of_lt (hc.lt_of_mem_left hx)
    · rw [List.mem_singleton.mp hx]
      exact BitVec.le_refl _
  · rw [← hi.key_slot hb]
    exact hc.lt_of_mem_right hx

/-- The search, once the bucket is set. -/
theorem findNodeTryAgain_spec (hi : s.Inv l p) (hh : hashv.toNat < 2 ^ 31) {b : Addr}
    (hb : s.buckets[(hashv % s.nBuckets).toNat]? = some (some b)) (a : Accessor) :
    ∃ a' A c B, s.findNodeTryAgain a (hashv % s.nBuckets) (solNodeKey hashv) =
      .ok (s.heap.key c == solNodeKey hashv, a') ∧ l = A ++ c :: B ∧ FoundAt s hashv a' A c B ∧
      Walked s (hashv % s.nBuckets) a' A c := by
  obtain ⟨k, -, hn⟩ := hi.nBuckets
  obtain ⟨a', A, d, B, h, rfl, hf, A₀, w, hw, hsteps⟩ :=
    findNodeTryAgain_from hi hb (solBucketKey_lt_solNodeKey hn hh) a
  refine ⟨a', A, d, B, h, rfl, hf, b, A₀, w, hb, hw, fun x hx => ?_, hsteps⟩
  have hxA : x ∈ A ++ [d] := by
    rw [hw]
    simp [hx]
  have hl : A ++ d :: B = A₀ ++ b :: (w ++ B) := by
    rw [List.append_cons, hw, List.append_assoc, List.cons_append]
  have hc := hi.chain
  rw [hl] at hc
  have hlt : reverseHashtBits (hashv % s.nBuckets) < s.heap.key x := by
    rw [← hi.key_slot hb]
    exact hc.lt_of_mem_right (by simp [hx])
  exact hi.isData_of_between hh (by rw [hl]; simp [hx]) hlt (hf.le x hxA)

/-- **`find_node`** returns, leaves the items as they were, and is true when
the node it stops at has the key of the hash. -/
theorem findNode_spec (hi : s.Inv l p) (hh : hashv.toNat < 2 ^ 31) (a : Accessor) :
    ∃ a' s' A c B, s.findNode a hashv = .ok (s'.heap.key c == solNodeKey hashv, a', s') ∧
      SameItems s l p s' (A ++ c :: B) ∧ s'.nBuckets = s.nBuckets ∧ FoundAt s' hashv a' A c B ∧
      Crossed s l (hashv % s.nBuckets) a' B ∧ Walked s' (hashv % s.nBuckets) a' A c := by
  obtain ⟨b, hb, hbk⟩ := hi.bucket (hi.table.umod_lt hashv)
  cases b with
  | some b =>
    obtain ⟨a', A, c, B, h, rfl, hf, hw⟩ := findNodeTryAgain_spec hi hh hb a
    refine ⟨a', s, A, c, B, ?_, .refl hi, rfl, hf, hw.crossed hi, hw⟩
    simp [findNode, hbk, h]
  | none =>
    obtain ⟨a₁, A₁, c₁, B₁, rfl, hlt, hgt, -, -, -, hinit⟩ := initialiseBucket_eq hi (hi.table.umod_lt hashv) hb a
    have hsame := addDummy_sameItems hi (hi.table.umod_lt hashv) hb hlt hgt
    have hlen : (hashv % s.nBuckets).toNat < s.buckets.length := by
      rw [hi.size]
      exact hi.table.umod_lt hashv
    set s₁ := s.addDummy (hashv % s.nBuckets) c₁ B₁.head? with hs₁
    have hb₁ : s₁.buckets[(hashv % s₁.nBuckets).toNat]? = some (some s.heap.size) := by
      simp only [hs₁, addDummy, List.getElem?_set_self hlen]
    obtain ⟨a', A, c, B, h, hl, hf, hwalk⟩ := findNodeTryAgain_spec hsame.inv hh hb₁ a₁
    obtain ⟨w, hw, hwd, hsteps⟩ := hwalk.crossed (hl ▸ hsame.inv)
    rw [← hl] at hw
    -- the new dummy is the last node up to the slot's key
    have hkey : ∀ x ∈ A₁ ++ c₁ :: B₁, s₁.heap.key x = s.heap.key x := fun x hx =>
      hsame.ext.key x (hi.chain.live hx).1
    have hR₁ : ∀ x ∈ B₁, reverseHashtBits (hashv % s₁.nBuckets) < s₁.heap.key x := fun x hx => by
      rw [hkey x (by simp [hx])]
      exact hgt x hx
    have hafter₁ : s₁.after (A₁ ++ c₁ :: s.heap.size :: B₁) (hashv % s₁.nBuckets) = B₁ := by
      rw [List.append_cons, List.append_cons]
      refine after_append (fun x hx => ?_) hR₁
      rw [← hsame.inv.key_slot hb₁]
      have hc := hsame.inv.chain
      rw [List.append_cons] at hc
      rcases List.mem_append.mp hx with hx | hx
      · exact BitVec.le_of_lt (hc.lt_of_mem_left hx)
      · rw [List.mem_singleton.mp hx]
        exact BitVec.le_refl _
    have hafter : s.after (A₁ ++ c₁ :: B₁) (hashv % s.nBuckets) = B₁ := by
      rw [List.append_cons]
      refine after_append (fun x hx => BitVec.le_of_lt ?_) hgt
      rcases List.mem_append.mp hx with hx | hx
      · exact BitVec.lt_trans (hi.chain.lt_of_mem_left hx) hlt
      · rw [List.mem_singleton.mp hx]
        exact hlt
    rw [hafter₁] at hw
    replace h : s₁.findNodeTryAgain a₁ (hashv % s.nBuckets) (solNodeKey hashv) =
      .ok (s₁.heap.key c == solNodeKey hashv, a') := h
    refine ⟨a', s₁, A, c, B, by simp [findNode, hbk, hinit, h], hl ▸ hsame, rfl, hf, ⟨w, hafter.trans hw,
      fun x hx => ?_, hsteps⟩, hwalk⟩
    have hxB : x ∈ B₁ := by
      rw [hw]
      simp [hx]
    rw [← hsame.ext.isData (hi.chain.live (a := x) (by simp [hxB])).1]
    exact hwd x hx

/-- Does the list hold a data node with this hash? -/
def Holds (s : Solist T) (l : List Addr) (hashv : Hash) : Prop :=
  ∃ x ∈ l, s.heap.isData x = true ∧ (s.heap.node x).hashv = hashv

/-- A node of the chain has the node key of a hash exactly when it is the
data node of that hash. -/
theorem Inv.key_eq_iff (hi : s.Inv l p) (hh : hashv.toNat < 2 ^ 31) (hc : c ∈ l) :
    s.heap.key c = solNodeKey hashv ↔ s.heap.isData c = true ∧ (s.heap.node c).hashv = hashv := by
  cases hd : s.heap.isData c with
  | true =>
    rw [hi.chain.key_data hc hd, solNodeKey_inj (hi.chain.hashv_lt hc) hh]
    simp
  | false =>
    rw [hi.chain.key_dummy hc hd]
    simpa using (solNodeKey_ne (hi.chain.hashv_lt hc)).symm

theorem FoundAt.holds_iff (hf : FoundAt s hashv a A c B) (hi : s.Inv (A ++ c :: B) p) (hh : hashv.toNat < 2 ^ 31) :
    s.Holds (A ++ c :: B) hashv ↔ s.heap.key c = solNodeKey hashv := by
  constructor
  · rintro ⟨x, hx, hd⟩
    have hkey := (hi.key_eq_iff hh hx).mpr hd
    simp only [List.mem_append, List.mem_cons] at hx
    rcases hx with hx | rfl | hx
    · have h1 := hi.chain.lt_of_mem_left hx
      rw [hkey] at h1
      exact absurd (hf.le c (by simp)) (BitVec.not_le.mpr h1)
    · exact hkey
    · have h1 := hf.lt x hx
      rw [hkey] at h1
      exact absurd h1 (BitVec.lt_irrefl _)
  · intro hkey
    exact ⟨c, by simp, (hi.key_eq_iff hh (by simp)).mp hkey⟩

theorem SameItems.mem_data_iff {s' : Solist T} {l' : List Addr} (h : SameItems s l p s' l') {x : Addr} :
    x ∈ l' ∧ s'.heap.isData x = true ↔ x ∈ l ∧ s.heap.isData x = true := by
  rw [← List.mem_filter, ← List.mem_filter, h.data]

theorem SameItems.holds_iff {s' : Solist T} {l' : List Addr} (h : SameItems s l p s' l') (hi : s.Inv l p) :
    s'.Holds l' hashv ↔ s.Holds l hashv := by
  constructor
  · rintro ⟨x, hx, hd, hv⟩
    obtain ⟨h1, h2⟩ := h.mem_data_iff.mp ⟨hx, hd⟩
    exact ⟨x, h1, h2, by rw [← hv, h.ext.hashv x (hi.chain.live h1).1]⟩
  · rintro ⟨x, hx, hd, hv⟩
    obtain ⟨h1, h2⟩ := h.mem_data_iff.mpr ⟨hx, hd⟩
    exact ⟨x, h1, h2, by rw [← hv, h.ext.hashv x (hi.chain.live hx).1]⟩

/-! ## `expand` -/

theorem copyBuckets_eq (src dst : List (Option Addr)) {n : Nat} (hs : n ≤ src.length) (hd : n ≤ dst.length) :
    copyBuckets src dst n = .ok (src.take n ++ dst.drop n) := by
  suffices h : ∃ d, copyBuckets src dst n = .ok d ∧ d = src.take n ++ dst.drop n by
    obtain ⟨_, h, rfl⟩ := h
    exact h
  unfold copyBuckets
  refine forRange_ok (fun i d => d = src.take i ++ dst.drop i) (by simp) fun i hi d hcopied => ?_
  have hsrc : i < src.length := Nat.lt_of_lt_of_le hi hs
  have hdst : i < dst.length := Nat.lt_of_lt_of_le hi hd
  have hlen : i < d.length := by
    simp only [hcopied, List.length_append, List.length_take, List.length_drop]
    omega
  refine ⟨d.set i src[i], by simp [List.getElem?_eq_getElem hsrc, hlen], ?_⟩
  rw [hcopied, List.set_append_right _ _ (by simp), List.length_take, Nat.min_eq_left (Nat.le_of_lt hsrc), Nat.sub_self,
    List.drop_eq_getElem_cons hdst, List.set_cons_zero, List.take_succ_eq_append_getElem hsrc, List.append_assoc]
  rfl

/-- The table with twice the slots, the new ones empty. -/
def doubled (s : Solist T) : Solist T :=
  { s with buckets := s.buckets ++ List.replicate s.nBuckets.toNat none, nBuckets := s.nBuckets * 2 }

theorem doubled_nBuckets_toNat (hn : s.nBuckets.toNat < 2 ^ 31) : s.doubled.nBuckets.toNat = 2 * s.nBuckets.toNat := by
  simp only [doubled, BitVec.toNat_mul]
  change s.nBuckets.toNat * 2 % _ = _
  omega

theorem Table.doubled (ht : s.Table) (hn : s.nBuckets.toNat < 2 ^ 31) : s.doubled.Table := by
  obtain ⟨k, -, hk⟩ := ht.pow
  have hnew := doubled_nBuckets_toNat hn
  have hlt : k < 31 := (Nat.pow_lt_pow_iff_right (by omega)).mp (hk ▸ hn)
  refine ⟨⟨k + 1, hlt, by rw [hnew, hk, pow_succ']⟩, ?_⟩
  rw [hnew, Solist.doubled, List.length_append, List.length_replicate, ht.size, Nat.two_mul]

theorem expand_eq (hsize : s.buckets.length = s.nBuckets.toNat) (hn : s.nBuckets.toNat < 2 ^ 31) :
    s.expand s.nBuckets = .ok s.doubled := by
  have hnew : (s.nBuckets * 2).toNat = 2 * s.nBuckets.toNat := doubled_nBuckets_toNat hn
  simp only [expand, BitVec.lt_irrefl, if_false]
  rw [copyBuckets_eq _ _ (Nat.le_of_eq hsize.symm) (by rw [List.length_replicate]; omega)]
  simp only [bind_ok, doubled]
  congr 2
  refine List.ext_getElem? fun i => ?_
  have hdrop : (List.replicate (s.nBuckets * 2).toNat (none : Option Addr)).drop s.nBuckets.toNat =
      List.replicate s.nBuckets.toNat none := by
    rw [List.drop_replicate, hnew]
    congr 1
    omega
  rw [hdrop, ← hsize, List.take_length, List.getElem?_mapIdx]
  rcases Nat.lt_or_ge i s.buckets.length with h | h
  · simp [List.getElem?_append_left h, Nat.not_le.mpr h]
  · rw [List.getElem?_append_right h]
    cases hr : (List.replicate s.buckets.length (none : Option Addr))[i - s.buckets.length]? with
    | none => rfl
    | some b =>
      simp only [List.getElem?_replicate] at hr
      split at hr <;> simp_all

/-- Past `2 ^ 31` slots the new table is empty and the first copy is out of its bounds. -/
theorem expand_overflow (hsize : s.buckets.length = s.nBuckets.toNat) (hn : s.nBuckets.toNat = 2 ^ 31) :
    s.expand s.nBuckets = .error .copyOutOfBounds := by
  have hb := List.getElem?_eq_getElem (show 0 < s.buckets.length by rw [hsize, hn]; decide)
  have hnew : (s.nBuckets * 2).toNat = 0 := by
    simp only [BitVec.toNat_mul, hn]
    decide
  have hcopy : ∀ n ≠ 0, copyBuckets s.buckets [] n = .error .copyOutOfBounds := by
    intro n hne
    obtain ⟨n, rfl⟩ := Nat.exists_eq_succ_of_ne_zero hne
    rw [copyBuckets, List.range_succ_eq_map, List.foldlM_cons, hb]
    rfl
  simp only [expand, BitVec.lt_irrefl, if_false, hnew, List.replicate_zero]
  rw [hcopy _ (by rw [hn]; decide)]
  rfl

theorem doubled_sameItems (hi : s.Inv l p) (hn : s.nBuckets.toNat < 2 ^ 31) : SameItems s l p s.doubled l := by
  have hold : ∀ (i : Nat) (x : Addr), s.doubled.buckets[i]? = some (some x) ↔ s.buckets[i]? = some (some x) := by
    intro i x
    simp only [doubled]
    rcases Nat.lt_or_ge i s.buckets.length with h | h
    · rw [List.getElem?_append_left h]
    · rw [List.getElem?_append_right h, List.getElem?_eq_none h, List.getElem?_replicate]
      split <;> simp
  have ht := hi.table.doubled hn
  obtain ⟨b, hb⟩ := hi.first
  exact ⟨⟨hi.chain, ht.pow, ht.size, ⟨b, (hold 0 b).mpr hb⟩, fun i x hx => hi.slot i x ((hold i x).mp hx),
    fun x hx hd => (hold _ x).mpr (hi.dummy x hx hd), hi.items⟩, .refl _, fun _ _ => rfl, rfl, rfl, rfl⟩

/-- The test of the expansion check, in words. -/
def Expands (s : Solist T) (a : Accessor) : Prop :=
  a.steps > s.maxBucketLength ∧ (a.steps ≥ s.maxBucketLength * 2 ∨ s.nItems ≥ s.maxBucketLength * s.nBuckets)

/-- **The expansion check** leaves the items as they were, or grows the table past `2 ^ 31` slots. -/
theorem expansionCheck_spec (hi : s.Inv l p) (a : Accessor) (hashv : Hash) :
    (∃ a' s' l', s.expansionCheck a hashv s.nBuckets = .ok (a', s') ∧ SameItems s l p s' l' ∧
      (s.Expands a → s.nBuckets.toNat < 2 ^ 31 ∧ s'.nBuckets = s.nBuckets * 2) ∧
      (¬ s.Expands a → s'.nBuckets = s.nBuckets)) ∨
      (s.Expands a ∧ s.nBuckets.toNat = 2 ^ 31 ∧ s.expansionCheck a hashv s.nBuckets = .error .copyOutOfBounds) := by
  simp only [expansionCheck, Expands]
  split
  · rename_i hlong
    split
    · rename_i hfull
      rcases Nat.lt_or_ge s.nBuckets.toNat (2 ^ 31) with hn | hn
      · have hs : hashv % s.nBuckets + s.nBuckets < s.doubled.nBuckets := by
          have := hi.table.umod_lt hashv
          rw [BitVec.lt_def] at this
          rw [BitVec.lt_def, doubled_nBuckets_toNat hn, BitVec.toNat_add]
          omega
        have hd := doubled_sameItems hi hn
        obtain ⟨a', s', l', h, hsame, hnb, -⟩ := initialiseBucket_spec hd.inv hs a
        exact .inl ⟨a', s', l', by simp [expand_eq hi.size hn, h], hd.trans hsame, fun _ => ⟨hn, hnb⟩,
          fun h => absurd ⟨hlong, hfull⟩ h⟩
      · have hn : s.nBuckets.toNat = 2 ^ 31 := Nat.le_antisymm hi.table.nBuckets_le hn
        exact .inr ⟨⟨hlong, hfull⟩, hn, by simp [expand_overflow hi.size hn]⟩
    · rename_i hfull
      split
      · obtain ⟨a', s', l', h, hsame, hnb, -⟩ := initialiseBucket_spec hi ‹_› a
        exact .inl ⟨a', s', l', h, hsame, fun h => absurd h.2 hfull, fun _ => hnb⟩
      · exact .inl ⟨a, s, l, rfl, .refl hi, fun h => absurd h.2 hfull, fun _ => rfl⟩
  · rename_i hshort
    exact .inl ⟨a, s, l, rfl, .refl hi, fun h => absurd h.1 hshort, fun _ => rfl⟩

/-! ## `insert_node` -/

/-- A list `s'` that binds `hashv`, which `s` does not, to the new node `n`, and is `s` otherwise. -/
structure Added (s : Solist T) (l : List Addr) (s' : Solist T) (l' : List Addr) (hashv : Hash) (v : T) (n : Addr) :
    Prop where
  inv : s'.Inv l' []
  ext : s.heap.Extends s'.heap
  absent : ¬ s.Holds l hashv
  fresh : n = s.heap.size
  hashv : (s'.heap.node n).hashv = hashv
  payload : (s'.heap.node n).payload = some v
  data : ∀ x, x ∈ l' ∧ s'.heap.isData x = true ↔ x = n ∨ x ∈ l ∧ s.heap.isData x = true

/-- The node `n` linked in after `c` and counted. -/
def linkItem (s : Solist T) (n c : Addr) (next : Option Addr) : Solist T :=
  { s with heap := (s.heap.setNext n { ptr := next }).setNext c { ptr := some n } }.incItemCount

theorem linkItem_inv {n : Addr} {v : T} (hi : s.Inv (A ++ c :: B) (n :: p)) (hh : hashv.toNat < 2 ^ 31)
    (hn : s.heap.node n = { hashv, key := solNodeKey hashv, payload := some v })
    (hlt : s.heap.key c < solNodeKey hashv) (hgt : ∀ b ∈ B, solNodeKey hashv < s.heap.key b) :
    (s.linkItem n c B.head?).Inv (A ++ c :: n :: B) p := by
  let h₂ := s.heap.setNext n { ptr := B.head? }
  let h₃ := h₂.setNext c { ptr := some n }
  have hext : s.heap.Extends h₃ := Extends.setNext.trans .setNext
  have hold : ∀ x ∈ A ++ c :: B, x < s.heap.size := fun x hx => (hi.chain.live hx).1
  have hd : ∀ x, h₃.isData x = s.heap.isData x := fun x => by simp [h₃, h₂]
  have hdn : s.heap.isData n = true := by simp [isData, hn]
  have hmem : ∀ x, x ∈ A ++ c :: n :: B ↔ x = n ∨ x ∈ A ++ c :: B := by
    intro x
    simp only [List.mem_append, List.mem_cons]
    tauto
  have hchain : h₃.Chain (A ++ c :: n :: B) p := by
    refine (hi.chain.setPending (m := { ptr := B.head? }) (by simp)).link ⟨by simpa [hn] using hh, by simp [hn]⟩
      (by simp) ?_ fun b hb => ?_
    · simpa [key, hn] using hlt
    · simpa [key, hn] using hgt b hb
  refine ⟨hchain, hi.nBuckets, hi.size, hi.first, fun i x hx => ?_, fun x hx hdx => ?_, ?_⟩
  · obtain ⟨h1, h2, h3⟩ := hi.slot i x hx
    exact ⟨(hmem x).mpr (.inr h1), (hd x).trans h2, (congrArg _ (hext.hashv x (hold x h1))).trans h3⟩
  · rcases (hmem x).mp hx with rfl | hx
    · have h1 : s.heap.isData x = false := (hd x).symm.trans hdx
      rw [hdn] at h1
      cases h1
    · have h1 := hi.dummy x hx ((hd x).symm.trans hdx)
      change s.buckets[(h₃.node x).hashv.toNat]? = _
      rw [hext.hashv x (hold x hx)]
      exact h1
  · change s.nItems + 1 = BitVec.ofNat 32 ((A ++ c :: n :: B).countP h₃.isData)
    rw [funext hd, hi.items, show (1 : Hash) = BitVec.ofNat 32 1 from rfl, ← BitVec.ofNat_add]
    congr 1
    simp only [List.countP_append, List.countP_cons, hdn, if_true]
    omega

/-- The two writes of a turn of `insert_node`, where the search ended. -/
theorem linkItem_turn {n : Addr} {v : T} (hi : s.Inv (A ++ c :: B) (n :: p))
    (hn : s.heap.node n = { hashv, key := solNodeKey hashv, payload := some v }) (hf : FoundAt s hashv a A c B) :
    ∃ h, s.heap.assignNext (some n) a.next = .ok h ∧
      h.casNext a.cur a.next (some n) false = .ok (true, (s.linkItem n c B.head?).heap) := by
  refine ⟨s.heap.setNext n { ptr := B.head? }, ?_, ?_⟩
  · rw [assignNext_live (hi.chain.pending_live (by simp)), hf.next]
    simp [MarkPtr.assign, hn]
  · rw [hf.cur, hf.next]
    exact casNext_won (hi.chain.live (by simp)) (hi.chain.setPending (by simp)).next_eq

/-- The loop of `insert_node`, for a node that is made and not linked. -/
theorem insertLoop_spec {n : Addr} {v : T} (hi : s.Inv l (n :: p)) (hh : hashv.toNat < 2 ^ 31)
    (hn : s.heap.node n = { hashv, key := solNodeKey hashv, payload := some v }) (fuel : Nat) (a : Accessor) :
    ∃ a' s₁ A c B, SameItems s l (n :: p) s₁ (A ++ c :: B) ∧ s₁.nBuckets = s.nBuckets ∧ a'.cur = some c ∧
      (Crossed s l (hashv % s.nBuckets) a' B ∧ Walked s₁ (hashv % s.nBuckets) a' A c) ∧
      ((s.Holds l hashv ∧ insertLoop hashv n (fuel + 1) s a = .ok (false, a', s₁)) ∨
        (¬ s.Holds l hashv ∧ (s₁.linkItem n c B.head?).Inv (A ++ c :: n :: B) p ∧
          insertLoop hashv n (fuel + 1) s a = .ok (true, a', s₁.linkItem n c B.head?))) := by
  obtain ⟨a', s₁, A, c, B, hfind, hsame, hnb, hf, hx⟩ := findNode_spec hi hh a
  have hi₁ := hsame.inv
  refine ⟨a', s₁, A, c, B, hsame, hnb, hf.cur, hx, ?_⟩
  rw [← hsame.holds_iff hi, hf.holds_iff hi₁ hh, insertLoop, hfind]
  by_cases hkey : s₁.heap.key c = solNodeKey hashv
  · exact .inl ⟨hkey, by simp [hkey]⟩
  · have hn₁ := (hsame.pending n (by simp)).trans hn
    have hlt : s₁.heap.key c < solNodeKey hashv := by
      have := hf.le c (by simp)
      bv_omega
    obtain ⟨h, hassign, hcas⟩ := linkItem_turn hi₁ hn₁ hf
    exact .inr ⟨hkey, linkItem_inv hi₁ hh hn₁ hlt hf.lt, by simp [hkey, hassign, hcas, linkItem, incItemCount]⟩

theorem linkItem_added {s₁ : Solist T} {v : T} (hi : s.Inv l [])
    (hsame : SameItems { s with heap := s.heap.new { hashv, key := solNodeKey hashv, payload := some v } } l
      [s.heap.size] s₁ (A ++ c :: B))
    (hinv : (s₁.linkItem s.heap.size c B.head?).Inv (A ++ c :: s.heap.size :: B) []) (habs : ¬ s.Holds l hashv) :
    Added s l (s₁.linkItem s.heap.size c B.head?) (A ++ c :: s.heap.size :: B) hashv v s.heap.size := by
  have hn : s₁.heap.node s.heap.size = { hashv, key := solNodeKey hashv, payload := some v } :=
    (hsame.pending _ (by simp)).trans (by simp)
  have hd : ∀ x, (s₁.linkItem s.heap.size c B.head?).heap.isData x = s₁.heap.isData x := fun x => by
    simp [linkItem, incItemCount]
  refine ⟨hinv, (Extends.new.trans hsame.ext).trans (Extends.setNext.trans .setNext), habs, rfl,
    by simp [linkItem, incItemCount, hn], by simp [linkItem, incItemCount, hn], fun x => ?_⟩
  have hold : x ∈ l ∧ s.heap.isData x = true ↔ x ∈ A ++ c :: B ∧ s₁.heap.isData x = true := by
    rw [hsame.mem_data_iff]
    exact and_congr_right fun hx => by rw [Extends.new.isData (hi.chain.live hx).1]
  rw [hd, hold]
  have hdn : s₁.heap.isData s.heap.size = true := by simp [isData, hn]
  constructor
  · rintro ⟨hx, hdx⟩
    by_cases hxn : x = s.heap.size
    · exact .inl hxn
    · refine .inr ⟨?_, hdx⟩
      simp only [List.mem_append, List.mem_cons] at hx ⊢
      tauto
  · rintro (rfl | ⟨hx, hdx⟩)
    · exact ⟨by simp, hdn⟩
    · refine ⟨?_, hdx⟩
      simp only [List.mem_append, List.mem_cons] at hx ⊢
      tauto

theorem Added.sameItems {s₁ s' : Solist T} {l₁ l' : List Addr} {v : T} {n : Addr} (h₁ : Added s l s₁ l₁ hashv v n)
    (h₂ : SameItems s₁ l₁ [] s' l') : Added s l s' l' hashv v n := by
  obtain ⟨hnl, hnd⟩ := (h₁.data n).mpr (.inl rfl)
  have hn := (h₁.inv.chain.live hnl).1
  exact ⟨h₂.inv, h₁.ext.trans h₂.ext, h₁.absent, h₁.fresh, (h₂.ext.hashv n hn).trans h₁.hashv,
    (h₂.ext.payload n hn).trans h₁.payload, fun x => h₂.mem_data_iff.trans (h₁.data x)⟩

/-- The bit `is_node` looks at tells the data nodes of the chain. -/
theorem Inv.isNode_eq (hi : s.Inv l p) (hc : c ∈ l) : (s.heap.node c).isNode = s.heap.isData c := by
  have hkey : (s.heap.node c).key = s.heap.key c := rfl
  rw [Node.isNode, hkey]
  cases hd : s.heap.isData c with
  | true => rw [hi.chain.key_data hc hd, solNodeKey_and_DATABIT, beq_self_eq_true]
  | false =>
    have h0 := and_DATABIT_eq_zero_iff.mpr (reverseHashtBits_even_iff.mpr (hi.chain.hashv_lt hc))
    rw [hi.chain.key_dummy hc hd, ← h0]
    rfl

/-- The nodes of a bucket. -/
def bucketItems (s : Solist T) (l : List Addr) (slot : Hash) : List Addr := (s.after l slot).takeWhile s.heap.isData

theorem holds_new (hi : s.Inv l p) {b : Node T} :
    { s with heap := s.heap.new b }.Holds l hashv ↔ s.Holds l hashv := by
  simp only [Holds]
  refine exists_congr fun x => and_congr_right fun hx => ?_
  rw [Extends.new.isData (hi.chain.live hx).1, new_node_of_lt (hi.chain.live hx).1]

theorem crossed_new (hi : s.Inv l p) {b : Node T} (h : Crossed { s with heap := s.heap.new b } l slot a B) :
    Crossed s l slot a B := by
  have hafter : { s with heap := s.heap.new b }.after l slot = s.after l slot :=
    dropWhile_congr fun x hx => by rw [Extends.new.key x (hi.chain.live hx).1]
  obtain ⟨w, hw, hd, hsteps⟩ := h
  rw [hafter] at hw
  refine ⟨w, hw, fun x hx => ?_, hsteps⟩
  have hxl : x ∈ l := (List.dropWhile_sublist _).subset (hw ▸ List.mem_append_left B hx)
  rw [← Extends.new.isData (hi.chain.live hxl).1]
  exact hd x hx

/-- The walk of `insert_node` from the node it linked in to the end of the bucket. -/
theorem walkBucket_spec (hi : s.Inv (A ++ c :: B) p) (hcur : a.cur = some c) :
    s.heap.deref a.cur = .ok (s.heap.node c) ∧
      ∃ a' w B', s.advanceWhile Node.isNode true s.fuel { a with next := (s.heap.node c).next.ptr } = .ok a' ∧
        B = w ++ B' ∧ (∀ x ∈ w, (s.heap.node x).isNode = true) ∧
        (∀ x, B'.head? = some x → (s.heap.node x).isNode = false) ∧ a'.steps = a.steps + BitVec.ofNat 32 w.length := by
  have hlen : B.length < s.fuel := by
    have := hi.chain.length_le
    simp only [List.length_append, List.length_cons, fuel] at this ⊢
    omega
  obtain ⟨a', w, -, -, B', hwalk, -, -, -, -, hw, hgo, hstop, hsteps, -⟩ := advanceWhile_spec Node.isNode true
    hi.chain B A c s.fuel { a with next := (s.heap.node c).next.ptr } rfl hcur (by rw [hi.chain.next_eq]) hlen
  exact ⟨by rw [hcur]; exact deref_live (hi.chain.live (by simp)), a', w, B', hwalk, hw, hgo,
    hstop, by simpa using hsteps⟩

/-- Data nodes of the chain are no more than the hashes. -/
theorem Inv.data_length_le (hi : s.Inv l p) {w : List Addr} (hsub : w.Sublist l)
    (hd : ∀ x ∈ w, s.heap.isData x = true) :
    w.length ≤ 2 ^ 31 := by
  rw [← List.countP_eq_length.mpr hd]
  exact Nat.le_trans hsub.countP_le hi.countP_le

/-- `insert_node` up to its expansion check. -/
def insertToCheck (s : Solist T) (a : Accessor) (hashv : Hash) (payload : T) :
    Except Fault (Bool × Accessor × Solist T) := do
  let n ← solistNode payload hashv
  let dnode := s.heap.size
  let (result, a, s) ← insertLoop hashv dnode s.fuel { s with heap := s.heap.new n } a
  if !result then .ok (result, a, s)
  else
    let n ← s.heap.deref a.cur
    let a ← s.advanceWhile Node.isNode true s.fuel { a with next := n.next.ptr }
    .ok (result, a, s)

theorem insertNode_of_toCheck {s₂ : Solist T} {a₂ : Accessor} {v : T}
    (h : s.insertToCheck a hashv v = .ok (true, a₂, s₂)) :
    s.insertNode a hashv v = s₂.expansionCheck a₂ hashv s.nBuckets >>= fun r => .ok (true, r.1.zap, r.2) := by
  unfold insertToCheck at h
  unfold insertNode
  obtain ⟨n, hn, h⟩ := bind_eq_ok.mp h
  obtain ⟨r, hr, h⟩ := bind_eq_ok.mp h
  obtain ⟨result, a₁, s₁⟩ := r
  simp only [hn, bind_ok]
  refine (bind_of_ok hr).trans ?_
  cases result with
  | false => cases h
  | true =>
    simp only [Bool.not_true, Bool.false_eq_true, if_false] at h ⊢
    obtain ⟨m, hm, h⟩ := bind_eq_ok.mp h
    obtain ⟨a₃, ha₃, h⟩ := bind_eq_ok.mp h
    cases h
    simp only [hm, ha₃, bind_ok]

/-- `insert_node` of an absent hash adds the item and comes to the expansion
check with the bucket's data nodes, the new one among them, counted. -/
theorem insertToCheck_absent (hi : s.Inv l []) (hh : hashv.toNat < 2 ^ 31) (habs : ¬ s.Holds l hashv) (a : Accessor)
    (v : T) :
    ∃ a₂ s₂ A b run R, s.insertToCheck a hashv v = .ok (true, a₂, s₂) ∧
      Added s l s₂ (A ++ b :: (run ++ R)) hashv v s.heap.size ∧ s₂.nBuckets = s.nBuckets ∧
      s₂.maxBucketLength = s.maxBucketLength ∧ s₂.nItems = s.nItems + 1 ∧
      s₂.buckets[(hashv % s.nBuckets).toNat]? = some (some b) ∧ s.heap.size ∈ run ∧
      (∀ x ∈ run, s₂.heap.isData x = true) ∧ (∀ x, R.head? = some x → s₂.heap.isData x = false) ∧
      a₂.steps = BitVec.ofNat 32 run.length ∧ run.length = (s.bucketItems l (hashv % s.nBuckets)).length + 1 := by
  let b : Node T := { hashv, key := solNodeKey hashv, payload := some v }
  obtain ⟨a₁, s₁, A, c, B, hsame, hnb, hcur, ⟨hx, b₀, A₀, w, hb₀, hA₀, hwd, hwsteps⟩, ⟨hold, -⟩ | ⟨-, hinv, hloop⟩⟩ :=
    insertLoop_spec (s := { s with heap := s.heap.new b }) (v := v) (hi.new (m := b)) hh (by simp [b]) s.heap.size a
  · exact absurd ((holds_new hi).mp hold) habs
  · have hadd := linkItem_added hi hsame hinv habs
    set s₂ := s₁.linkItem s.heap.size c B.head? with hs₂
    obtain ⟨hderef, a₂, w₂, R, hwalk, hw₂, hgo, hstop, hsteps⟩ := walkBucket_spec hinv hcur
    have hl : A ++ c :: s.heap.size :: B = A₀ ++ b₀ :: (w ++ w₂ ++ R) := by
      rw [List.append_cons, hA₀, hw₂, List.append_assoc, List.cons_append, List.append_assoc]
    have hnew : s₂.heap.isData s.heap.size = true := ((hadd.data s.heap.size).mpr (.inl rfl)).2
    have hn : (s₂.heap.node s.heap.size).isNode = true := by
      rw [hinv.isNode_eq (by simp)]
      exact hnew
    have hmem : s.heap.size ∈ w₂ := by
      cases w₂ with
      | nil =>
        have := hstop s.heap.size (by rw [← List.nil_append R, ← hw₂]; rfl)
        rw [hn] at this
        cases this
      | cons x w₂ =>
        cases hw₂
        simp
    have hin : ∀ x ∈ w ++ w₂ ++ R, x ∈ A ++ c :: s.heap.size :: B := fun x hx => by
      rw [hl]
      exact List.mem_append_right _ (List.mem_cons_of_mem _ hx)
    refine ⟨a₂, s₂, A₀, b₀, w ++ w₂, R, ?_, hl ▸ hadd, hnb, hsame.maxBucketLength, ?_, hb₀,
      List.mem_append_right w hmem, fun x hxr => ?_, fun x hxR => ?_, ?_, ?_⟩
    · simp only [insertToCheck, solistNode_ok v hh, bind_ok]
      refine (bind_of_ok hloop).trans ?_
      simp only [Bool.not_true, Bool.false_eq_true, if_false, hderef, bind_ok, hwalk]
    · change s₁.nItems + 1 = s.nItems + 1
      rw [hsame.nItems]
    · rcases List.mem_append.mp hxr with hxw | hxw
      · rw [hs₂]
        simpa [linkItem, incItemCount] using hwd x hxw
      · rw [← hinv.isNode_eq (hin x (List.mem_append_left R hxr))]
        exact hgo x hxw
    · rw [← hinv.isNode_eq (hin x (List.mem_append_right _ (List.mem_of_head? hxR)))]
      exact hstop x hxR
    · rw [hsteps, hwsteps, ← BitVec.ofNat_add, List.length_append]
    · obtain ⟨w', hw', hwd', hst⟩ := crossed_new hi hx
      have hB : ∀ x ∈ B, s₂.heap.isData x = s.heap.isData x := fun x hxB => by
        have hxl : x ∈ l := (List.dropWhile_sublist _).subset (hw' ▸ List.mem_append_right w' hxB)
        exact hadd.ext.isData (hi.chain.live hxl).1
      -- the nodes the search crossed in the old chain and those it walked over are as many
      have hlen : w'.length = w.length := by
        have h₁ := hi.data_length_le ((hw' ▸ List.sublist_append_left w' B).trans (List.dropWhile_sublist _)) hwd'
        have h₂ := hsame.inv.data_length_le (w := w) (by
          rw [List.append_cons, hA₀, List.append_assoc]
          exact ((List.sublist_append_left w B).trans (List.sublist_cons_self _ _)).trans
            (List.sublist_append_right _ _))
          hwd
        have heq := congrArg BitVec.toNat (hst.symm.trans hwsteps)
        rw [BitVec.toNat_ofNat, BitVec.toNat_ofNat, Nat.mod_eq_of_lt (by omega), Nat.mod_eq_of_lt (by omega)] at heq
        exact heq
      have hcount : w₂.length = (B.takeWhile s.heap.isData).length + 1 := by
        have htake : B.takeWhile (fun x => (s₂.heap.node x).isNode) = B.takeWhile s.heap.isData :=
          takeWhile_congr fun x hxB => by rw [hinv.isNode_eq (by simp [hxB]), hB x hxB]
        have h₂ := takeWhile_append_stop hgo hstop
        rw [← hw₂, List.takeWhile_cons, if_pos hn, htake] at h₂
        rw [← h₂, List.length_cons]
      rw [bucketItems, hw', List.takeWhile_append_of_pos hwd', List.length_append, List.length_append, hcount, hlen,
        Nat.add_assoc]

/-- **`insert_node` of an absent hash** adds the item, and what is left is the
expansion check, with the bucket's nodes counted. -/
theorem insertNode_absent (hi : s.Inv l []) (hh : hashv.toNat < 2 ^ 31) (habs : ¬ s.Holds l hashv) (a : Accessor)
    (v : T) :
    ∃ a₂ s₂ l₂, Added s l s₂ l₂ hashv v s.heap.size ∧ s₂.nBuckets = s.nBuckets ∧
      s₂.maxBucketLength = s.maxBucketLength ∧ s₂.nItems = s.nItems + 1 ∧
      a₂.steps = BitVec.ofNat 32 ((s.bucketItems l (hashv % s.nBuckets)).length + 1) ∧
      s.insertNode a hashv v = s₂.expansionCheck a₂ hashv s₂.nBuckets >>= fun r => .ok (true, r.1.zap, r.2) := by
  obtain ⟨a₂, s₂, A, b, run, R, hrun, hadd, hnb, hmax, hitems, -, -, -, -, hsteps, hlen⟩ :=
    insertToCheck_absent hi hh habs a v
  exact ⟨a₂, s₂, _, hadd, hnb, hmax, hitems, by rw [hsteps, hlen], by rw [insertNode_of_toCheck hrun, hnb]⟩

/-- `insert_node` of a hash the list holds. -/
theorem insertNode_held (hi : s.Inv l []) (hh : hashv.toNat < 2 ^ 31) (hold : s.Holds l hashv) (a : Accessor) (v : T) :
    ∃ a' s' l', SameItems s l [] s' l' ∧ s'.nBuckets = s.nBuckets ∧ s.insertNode a hashv v = .ok (false, a', s') := by
  let b : Node T := { hashv, key := solNodeKey hashv, payload := some v }
  obtain ⟨a₁, s₁, A, c, B, hsame, hnb, hcur, -, ⟨-, hloop⟩ | ⟨habs, -, -⟩⟩ :=
    insertLoop_spec (s := { s with heap := s.heap.new b }) (v := v) (hi.new (m := b)) hh (by simp [b]) s.heap.size a
  · have hb : ∀ x ∈ l, (s.heap.new b).isData x = s.heap.isData x := fun x hx =>
      Extends.new.isData (hi.chain.live hx).1
    refine ⟨a₁.zap, { s₁ with heap := s₁.heap.delete s.heap.size }, A ++ c :: B, ?_, hnb, ?_⟩
    · exact ⟨hsame.inv.discard, Extends.new.trans (hsame.ext.trans .delete), by simp,
        hsame.data.trans (List.filter_congr hb), hsame.maxBucketLength, hsame.nItems⟩
    · simp only [insertNode, solistNode_ok v hh, bind_ok]
      exact bind_of_ok hloop
  · exact absurd ((holds_new hi).mpr hold) habs

/-- **`insert_node`** is true, and adds the item, exactly when the hash is absent. -/
theorem insertNode_spec (hi : s.Inv l []) (hh : hashv.toNat < 2 ^ 31) (a : Accessor) (v : T) :
    ∃ a' s' l',
      (s.Holds l hashv ∧ SameItems s l [] s' l' ∧ s.insertNode a hashv v = .ok (false, a', s')) ∨
      (Added s l s' l' hashv v s.heap.size ∧ s.insertNode a hashv v = .ok (true, a', s')) ∨
      (s.nBuckets.toNat = 2 ^ 31 ∧ s.insertNode a hashv v = .error .copyOutOfBounds) := by
  by_cases hold : s.Holds l hashv
  · obtain ⟨a', s', l', hsame, -, h⟩ := insertNode_held hi hh hold a v
    exact ⟨a', s', l', .inl ⟨hold, hsame, h⟩⟩
  · obtain ⟨a₂, s₂, l₂, hadd, hnb, -, -, -, hrun⟩ := insertNode_absent hi hh hold a v
    rcases expansionCheck_spec hadd.inv a₂ hashv with ⟨a', s', l', h, hsame', -⟩ | ⟨-, hn, h⟩
    · exact ⟨_, s', l', .inr (.inl ⟨hadd.sameItems hsame', by rw [hrun, h]; rfl⟩)⟩
    · exact ⟨a, s, l, .inr (.inr ⟨by rw [← hn, hnb], by rw [hrun, h]; rfl⟩)⟩

/-! ## `delete_node` -/

/-- A list `s'` that is `s` without its item `n`, whose hash is `hashv`. -/
structure Removed (s : Solist T) (l : List Addr) (s' : Solist T) (l' : List Addr) (hashv : Hash) (n : Addr) :
    Prop where
  inv : s'.Inv l' []
  ext : s.heap.Extends s'.heap
  mem : n ∈ l
  isData : s.heap.isData n = true
  hashv : (s.heap.node n).hashv = hashv
  data : ∀ x, x ∈ l' ∧ s'.heap.isData x = true ↔ x ≠ n ∧ x ∈ l ∧ s.heap.isData x = true

/-- The node `n` after `c` marked, taken out, counted and deleted. -/
def removeItem (s : Solist T) (n c : Addr) (next : Option Addr) : Solist T :=
  { s with
    heap := ((s.heap.setNext n { ptr := next, mark := true }).setNext c { ptr := next }).delete n }.decItemCount

section Remove

variable {n : Addr}

theorem mem_without (hi : s.Inv (A ++ c :: n :: B) p) (x : Addr) :
    x ∈ A ++ c :: B ↔ x ≠ n ∧ x ∈ A ++ c :: n :: B := by
  have hnd := hi.chain.nodup
  simp only [List.nodup_append, List.nodup_cons, List.mem_cons, not_or] at hnd
  simp only [List.mem_append, List.mem_cons]
  constructor
  · rintro (hx | rfl | hx)
    · exact ⟨hnd.2.2 x hx n (.inr (.inl rfl)), .inl hx⟩
    · exact ⟨hnd.2.1.1.1, .inr (.inl rfl)⟩
    · exact ⟨fun h => hnd.2.1.2.1 (h ▸ hx), .inr (.inr (.inr hx))⟩
  · tauto

theorem removeItem_extends (s : Solist T) (n c : Addr) (next : Option Addr) :
    s.heap.Extends (s.removeItem n c next).heap :=
  Extends.setNext.trans (Extends.setNext.trans .delete)

theorem isData_removeItem {next : Option Addr} {x : Addr} :
    (s.removeItem n c next).heap.isData x = s.heap.isData x := by
  simp [removeItem, decItemCount, isData]

theorem removeItem_inv (hi : s.Inv (A ++ c :: n :: B) p) (hd : s.heap.isData n = true) :
    (s.removeItem n c B.head?).Inv (A ++ c :: B) p := by
  have hext := removeItem_extends s n c B.head?
  have hmem := mem_without hi
  have hold : ∀ x ∈ A ++ c :: B, x < s.heap.size := fun x hx => (hi.chain.live ((hmem x).mp hx).2).1
  refine ⟨hi.chain.unlink, hi.nBuckets, hi.size, hi.first, fun i x hx => ?_, fun x hx hdx => ?_, ?_⟩
  · obtain ⟨h1, h2, h3⟩ := hi.slot i x hx
    have hne : x ≠ n := by
      rintro rfl
      rw [hd] at h2
      cases h2
    have hx := (hmem x).mpr ⟨hne, h1⟩
    exact ⟨hx, isData_removeItem.trans h2, (congrArg _ (hext.hashv x (hold x hx))).trans h3⟩
  · rw [hext.hashv x (hold x hx)]
    exact hi.dummy x ((hmem x).mp hx).2 (isData_removeItem.symm.trans hdx)
  · change s.nItems - 1 = _
    have hcount : (A ++ c :: n :: B).countP s.heap.isData = (A ++ c :: B).countP s.heap.isData + 1 := by
      simp only [List.countP_append, List.countP_cons, hd, if_true]
      omega
    have hdat : (s.removeItem n c B.head?).heap.isData = s.heap.isData := funext fun _ => isData_removeItem
    rw [hdat, hi.items, hcount, BitVec.ofNat_add]
    exact BitVec.add_sub_cancel _ _

theorem removeItem_removed (hi : s.Inv (A ++ c :: n :: B) []) (hd : s.heap.isData n = true)
    (hv : (s.heap.node n).hashv = hashv) :
    Removed s (A ++ c :: n :: B) (s.removeItem n c B.head?) (A ++ c :: B) hashv n := by
  refine ⟨removeItem_inv hi hd, removeItem_extends s n c B.head?, by simp, hd, hv, fun x => ?_⟩
  rw [isData_removeItem, mem_without hi, and_assoc]

/-- The two `CAS`es of a turn of `delete_node`, where the search found the item. -/
theorem removeItem_turn (hi : s.Inv (A ++ c :: n :: B) p) (hcur : a.cur = some n) (hnext : a.next = B.head?)
    (hprev : a.prev = some c) :
    ∃ h h', s.heap.casNext a.cur a.next a.next true = .ok (true, h) ∧
      h.casNext a.prev a.cur a.next false = .ok (true, h') ∧
      { { s with heap := h' }.decItemCount with heap := h'.delete n } = s.removeItem n c B.head? := by
  have hne : c ≠ n := by
    rintro rfl
    have := hi.chain.nodup
    simp [List.nodup_append] at this
  have hn : (s.heap.node n).next = { ptr := B.head? } := by
    have hc := hi.chain
    rw [List.append_cons] at hc
    exact hc.next_eq
  refine ⟨s.heap.setNext n { ptr := B.head?, mark := true },
    (s.heap.setNext n { ptr := B.head?, mark := true }).setNext c { ptr := B.head? }, ?_, ?_, rfl⟩
  · rw [hcur, hnext]
    exact casNext_won (hi.chain.live (by simp)) hn
  · rw [hprev, hcur, hnext]
    refine casNext_won (hi.chain.live (by simp)) ?_
    rw [setNext_node_of_ne hne]
    exact Chain.next_eq (B := n :: B) hi.chain

end Remove

theorem Removed.ofSameItems {s₁ s' : Solist T} {l₁ l' : List Addr} {n : Addr} (h₁ : SameItems s l [] s₁ l₁)
    (hi : s.Inv l []) (h₂ : Removed s₁ l₁ s' l' hashv n) : Removed s l s' l' hashv n := by
  obtain ⟨hnl, hnd⟩ := h₁.mem_data_iff.mp ⟨h₂.mem, h₂.isData⟩
  exact ⟨h₂.inv, h₁.ext.trans h₂.ext, hnl, hnd, (h₁.ext.hashv n (hi.chain.live hnl).1).symm.trans h₂.hashv, fun x => by
    rw [h₂.data, h₁.mem_data_iff]⟩

/-- The loop of `delete_node`. -/
theorem deleteLoop_spec (hi : s.Inv l p) (hh : hashv.toNat < 2 ^ 31) (fuel : Nat) (a : Accessor) :
    ∃ a' s₁ A n B, SameItems s l p s₁ (A ++ n :: B) ∧ s₁.nBuckets = s.nBuckets ∧
      ((¬ s.Holds l hashv ∧ deleteLoop hashv (fuel + 1) s a = .ok (false, a', s₁)) ∨
        (s₁.heap.isData n = true ∧ (s₁.heap.node n).hashv = hashv ∧ ∃ A' c, A = A' ++ [c] ∧
          deleteLoop hashv (fuel + 1) s a = .ok (true, a', s₁.removeItem n c B.head?))) := by
  obtain ⟨a₁, s₁, A, n, B, hfind, hsame, hnb, hf, -⟩ := findNode_spec hi hh a
  have hi₁ := hsame.inv
  refine ⟨a₁, s₁, A, n, B, hsame, hnb, ?_⟩
  rw [← hsame.holds_iff hi, hf.holds_iff hi₁ hh, deleteLoop, hfind]
  by_cases hkey : s₁.heap.key n = solNodeKey hashv
  · obtain ⟨A, c, rfl, hprev⟩ := hf.prev hkey
    obtain ⟨hd, hv⟩ := (hi₁.key_eq_iff hh (by simp)).mp hkey
    rw [List.append_assoc] at hi₁
    obtain ⟨h, h', hmark, hcas, hdone⟩ := removeItem_turn hi₁ hf.cur hf.next hprev
    refine .inr ⟨hd, hv, A, c, rfl, ?_⟩
    simp only [hkey, beq_self_eq_true, bind_ok, Bool.not_true, Bool.false_eq_true, if_false, hmark, hcas, if_true]
    rw [hf.cur, ← hdone]
    rfl
  · exact .inl ⟨hkey, by simp [hkey]⟩

/-- **`delete_node`** is true, and removes the item, exactly when the hash is held. -/
theorem deleteNode_spec (hi : s.Inv l []) (hh : hashv.toNat < 2 ^ 31) (a : Accessor) :
    ∃ a' s' l', s'.nBuckets = s.nBuckets ∧
      ((¬ s.Holds l hashv ∧ SameItems s l [] s' l' ∧ s.deleteNode a hashv = .ok (false, a', s')) ∨
        (∃ n, Removed s l s' l' hashv n ∧ s.deleteNode a hashv = .ok (true, a', s'))) := by
  have hrun : s.deleteNode a hashv =
      deleteLoop hashv (s.heap.size + 1) s a >>= fun r => .ok (r.1, r.2.1.zap, r.2.2) := rfl
  obtain ⟨a₁, s₁, A, n, B, hsame, hnb, ⟨habs, hloop⟩ | ⟨hd, hv, A, c, rfl, hloop⟩⟩ :=
    deleteLoop_spec hi hh s.heap.size a
  · exact ⟨a₁.zap, s₁, _, hnb, .inl ⟨habs, hsame, by rw [hrun, hloop]; rfl⟩⟩
  · rw [List.append_assoc] at hsame
    exact ⟨a₁.zap, s₁.removeItem n c B.head?, A ++ c :: B, hnb,
      .inr ⟨n, .ofSameItems hsame hi (removeItem_removed hsame.inv hd hv), by rw [hrun, hloop]; rfl⟩⟩

/-- **`find_item_node`** returns the node that holds the hash, and null when none does. -/
theorem findItemNode_spec (hi : s.Inv l p) (hh : hashv.toNat < 2 ^ 31) (a : Accessor) :
    ∃ a' s' l' r, SameItems s l p s' l' ∧ s'.nBuckets = s.nBuckets ∧ s.findItemNode a hashv = .ok (r, a', s') ∧
      ((¬ s.Holds l hashv ∧ r = none) ∨
        ∃ n, r = some n ∧ n ∈ l ∧ s.heap.isData n = true ∧ (s.heap.node n).hashv = hashv) := by
  obtain ⟨a₁, s₁, A, n, B, hfind, hsame, hnb, hf, -⟩ := findNode_spec hi hh a
  have hi₁ := hsame.inv
  by_cases hkey : s₁.heap.key n = solNodeKey hashv
  · obtain ⟨hd, hv⟩ := (hi₁.key_eq_iff hh (by simp)).mp hkey
    obtain ⟨v, hp⟩ := Option.isSome_iff_exists.mp hd
    obtain ⟨hnl, hnd⟩ := hsame.mem_data_iff.mp ⟨by simp, hd⟩
    refine ⟨a₁, s₁, _, some n, hsame, hnb, ?_, .inr ⟨n, rfl, hnl, hnd, ?_⟩⟩
    · simp [findItemNode, hfind, hkey, hf.cur, deref_live (hi₁.chain.live (a := n) (by simp)), hp]
    · rw [← hv, hsame.ext.hashv n (hi.chain.live hnl).1]
  · refine ⟨a₁, s₁, _, none, hsame, hnb, by simp [findItemNode, hfind, hkey], .inl ⟨?_, rfl⟩⟩
    rwa [← hsame.holds_iff hi, hf.holds_iff hi₁ hh]

/-! ## `~solist` -/

theorem destroyLoop_spec : ∀ (l : List Addr) (h : Heap T) (fuel : Nat) (q : Option Addr),
    Seg h.nextOf q l none → l.Nodup → (∀ x ∈ l, h.Live x) → l.length < fuel →
    ∃ h', destroyLoop fuel h q = .ok h' ∧ h'.size = h.size ∧ h'.deleted = h.deleted ++ l
  | [], h, fuel, q, hseg, _, _, hf => by
    obtain ⟨fuel, rfl⟩ := Nat.exists_eq_succ_of_ne_zero (Nat.ne_of_gt hf)
    rw [Seg.nil.mp hseg]
    exact ⟨h, rfl, rfl, by simp⟩
  | x :: l, h, fuel, q, hseg, hnd, hlive, hf => by
    obtain ⟨fuel, rfl⟩ := Nat.exists_eq_succ_of_ne_zero (Nat.ne_of_gt (Nat.zero_lt_of_lt hf))
    obtain ⟨rfl, hseg⟩ := hseg
    obtain ⟨hx, hnd⟩ := List.nodup_cons.mp hnd
    have hlive' : ∀ y ∈ l, (h.delete x).Live y := fun y hy =>
      ⟨(hlive y (by simp [hy])).1, by
        simp only [delete_deleted, List.mem_append, List.mem_singleton, not_or]
        exact ⟨(hlive y (by simp [hy])).2, fun he => hx (he ▸ hy)⟩⟩
    obtain ⟨h', hrun, hsize, hdel⟩ := destroyLoop_spec l (h.delete x) fuel _ hseg hnd hlive' (by simp at hf; omega)
    refine ⟨h', ?_, hsize, by rw [hdel]; simp⟩
    simp only [destroyLoop, deref_live (hlive x (by simp)), bind_ok]
    exact hrun

/-- The dummy of slot 0 has the lowest key, so it is the head of the chain. -/
theorem Inv.head {b : Addr} (hi : s.Inv l p) (hb : s.buckets[0]? = some (some b)) : l.head? = some b := by
  have hz : s.heap.key b = 0#32 := by
    rw [hi.key_slot (show s.buckets[(0#32 : Hash).toNat]? = _ from hb), reverseHashtBits_zero]
  obtain ⟨A, B, rfl⟩ := List.append_of_mem (hi.slot 0 b hb).1
  cases A with
  | nil => rfl
  | cons x A =>
    have := hi.chain.lt_of_mem_left (b := x) (by simp)
    rw [hz] at this
    exact absurd this (by simp)

/-- **`~solist`** deletes every node the list still holds: each node ever allocated is then deleted once. -/
theorem Inv.destroy_spec (hi : s.Inv l []) :
    ∃ h, s.destroy = .ok h ∧ h.deleted = s.heap.deleted ++ l ∧ h.deleted.Perm (List.range h.size) := by
  obtain ⟨b, hb⟩ := hi.first
  obtain ⟨B, rfl⟩ : ∃ B, l = b :: B := List.head?_eq_some_iff.mp (hi.head hb)
  have hlen : (b :: B).length < s.fuel := Nat.lt_succ_of_le hi.chain.length_le
  obtain ⟨h, hrun, hsize, hdel⟩ := destroyLoop_spec (b :: B) s.heap s.fuel (some b) hi.chain.seg hi.chain.nodup
    (fun x hx => hi.chain.live hx) hlen
  refine ⟨h, ?_, hdel, ?_⟩
  · have hb0 : s.bucket 0 = .ok (some b) := bucket_ok hb
    rw [destroy, hb0]
    exact hrun
  · rw [hdel, hsize]
    refine List.perm_append_comm.trans ?_
    simpa using hi.chain.owned

end Solist

end SplitOrder
