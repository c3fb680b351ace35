/-
What the searches of `solist.hpp` find, against the whole chain.

`get_parent` goes down the keys of the buckets, a step at a time, and so
meets the buckets in the order of the chain: the first that is set has the
largest key below the one sought. `find_node` starts at a bucket; a scan
that starts at `buckets[0]` ends at the same node.
-/
import Mathlib.Order.Bounds.Defs
import SplitOrder.Solist.Resize

namespace SplitOrder

open Heap

variable {T : Type}

namespace Solist

variable {s : Solist T} {l p A B A' B' : List Addr} {a a' : Accessor} {slot hashv : Hash} {c c' : Addr}

/-! ## The probes of `get_parent` -/

/-- The loop of `get_parent`, with the keys it probes. -/
def probes (s : Solist T) (keyStep : SoKey) : Nat → SoKey → Except Fault (Hash × List SoKey)
  | 0, _ => .error .outOfFuel
  | fuel + 1, pbKey => do
    let pbKey := pbKey - keyStep
    let pbSlot := reverseHashtBits pbKey
    if (← s.bucket pbSlot).isSome ∨ pbKey = 0 then .ok (pbSlot, [pbKey])
    else
      let r ← s.probes keyStep fuel pbKey
      .ok (r.1, pbKey :: r.2)

theorem parentSlot_eq_probes {step : SoKey} :
    ∀ (fuel : Nat) (pbKey : SoKey), s.parentSlot step fuel pbKey = (s.probes step fuel pbKey).map Prod.fst := by
  intro fuel
  induction fuel with
  | zero =>
    intro pbKey
    rfl
  | succ fuel ih =>
    intro pbKey
    cases hb : s.bucket (reverseHashtBits (pbKey - step)) with
    | error e =>
      simp only [parentSlot, probes, hb]
      rfl
    | ok b =>
      simp only [parentSlot, probes, hb, bind_ok]
      split
      · rfl
      · rw [ih]
        cases s.probes step fuel (pbKey - step) <;> rfl

theorem parentSlot_of_probes {step key : SoKey} {fuel : Nat} {pbSlot : Hash} {keys : List SoKey}
    (h : s.probes step fuel key = .ok (pbSlot, keys)) : s.parentSlot step fuel key = .ok pbSlot := by
  rw [parentSlot_eq_probes, h]
  rfl

/-- The keys of the buckets that are set, below a key. -/
def setBelow (s : Solist T) (key : SoKey) : Set SoKey :=
  {k | ∃ t b, t < s.nBuckets ∧ s.buckets[t.toNat]? = some (some b) ∧ solBucketKey t = .ok k ∧ k < key}

theorem mem_setBelow {key : SoKey} (ht : s.Table) (h : slot < s.nBuckets) {b : Addr}
    (hb : s.buckets[slot.toNat]? = some (some b)) (hlt : reverseHashtBits slot < key) :
    reverseHashtBits slot ∈ s.setBelow key :=
  ⟨slot, b, h, hb, solBucketKey_ok (ht.slot_lt h), hlt⟩

/-- The keys of buckets are a step apart. -/
theorem key_le_of_lt {k m : Nat} {step pbKey key : SoKey} (hn : s.nBuckets.toNat = 2 ^ k) (hk : k ≤ 31)
    (hstep : step.toNat = 2 ^ (32 - k)) (hpb : pbKey.toNat = (m + 1) * step.toNat)
    (hsub : (pbKey - step).toNat = m * step.toNat) (ht : slot < s.nBuckets) (hkey : key = reverseHashtBits slot)
    (hlt : key < pbKey) : key ≤ pbKey - step := by
  obtain ⟨q, hq⟩ := (step_dvd_iff hk).mpr (show slot.toNat < 2 ^ k by rw [← hn]; exact ht)
  rw [hkey] at hlt ⊢
  rw [BitVec.lt_def, hpb, hq, hstep, Nat.mul_comm (m + 1)] at hlt
  rw [BitVec.le_def, hsub, hq, hstep, Nat.mul_comm m]
  exact Nat.mul_le_mul_left _ (Nat.lt_succ_iff.mp (Nat.lt_of_mul_lt_mul_left hlt))

/-- **The probing** takes a step at a time, never below zero, stays in the
table and stops at the bucket with the largest key below. -/
theorem probes_spec {k : Nat} {step : SoKey} (hi : s.Inv l p) (hn : s.nBuckets.toNat = 2 ^ k) (hk : k ≤ 31)
    (hstep : step.toNat = 2 ^ (32 - k)) :
    ∀ (fuel m : Nat) (pbKey : SoKey), m ≠ 0 → m ≤ fuel → pbKey.toNat = m * step.toNat →
      ∃ pbSlot keys, s.probes step fuel pbKey = .ok (pbSlot, keys) ∧
        (pbKey :: keys).IsChain (fun x y => step ≤ x ∧ y = x - step) ∧
        (∀ x ∈ keys, reverseHashtBits x < s.nBuckets) ∧ keys.getLast? = some (reverseHashtBits pbSlot) ∧
        IsGreatest (s.setBelow pbKey) (reverseHashtBits pbSlot)
  | 0, m, _, hm, hf, _ => by omega
  | fuel + 1, m, pbKey, hm, hf, hpb => by
    obtain ⟨m, rfl⟩ := Nat.exists_eq_succ_of_ne_zero hm
    obtain ⟨hsub, hle, hlt, hlow, b, hb, hbk, hempty⟩ := probe_turn hi hn hk hstep hpb
    have hbelow : ∀ x ∈ s.setBelow pbKey, x ≤ pbKey - step := by
      rintro x ⟨t, b', ht, -, hx, hx'⟩
      exact key_le_of_lt hn hk hstep hpb hsub ht (solBucketKey_eq_ok_iff.mp hx).2 hx'
    unfold probes
    simp only [hbk, bind_ok]
    cases b with
    | some b =>
      refine ⟨reverseHashtBits (pbKey - step), [pbKey - step], by simp, ?_, ?_, ?_, ?_, ?_⟩
      · simp [hle]
      · simpa using hlow
      · simp [reverseHashtBits_reverseHashtBits]
      · exact mem_setBelow hi.table hlow hb (by rwa [reverseHashtBits_reverseHashtBits])
      · rw [reverseHashtBits_reverseHashtBits]
        exact hbelow
    | none =>
      obtain ⟨hz, hm'⟩ := hempty rfl
      obtain ⟨ps, keys, hrun, hchain, hrange, hlast, hmem, hmax⟩ :=
        probes_spec hi hn hk hstep fuel m (pbKey - step) hm' (by omega) hsub
      refine ⟨ps, (pbKey - step) :: keys, by simp [hz, hrun], ?_, ?_, ?_, ?_, ?_⟩
      · exact List.isChain_cons_cons.mpr ⟨⟨hle, rfl⟩, hchain⟩
      · intro x hx
        rcases List.mem_cons.mp hx with rfl | hx
        · exact hlow
        · exact hrange x hx
      · rw [List.getLast?_cons, hlast]
        rfl
      · obtain ⟨t, b', ht, hb', hx, hx'⟩ := hmem
        exact ⟨t, b', ht, hb', hx, BitVec.lt_trans hx' hlt⟩
      · intro x hx
        have hle' := hbelow x hx
        obtain ⟨t, b', ht, hb', hxt, -⟩ := hx
        refine hmax ⟨t, b', ht, hb', hxt, ?_⟩
        -- the slot of the probed key is empty
        have hne : x ≠ pbKey - step := by
          rintro rfl
          obtain ⟨-, hxt⟩ := solBucketKey_eq_ok_iff.mp hxt
          rw [hxt, reverseHashtBits_reverseHashtBits, hb'] at hb
          cases hb
        bv_omega

/-! ## `find_node` and a scan of the chain -/

/-- The search of `find_node`, started at `buckets[0]`. -/
def scan (s : Solist T) (a : Accessor) (hashv : Hash) : Except Fault (Bool × Accessor) :=
  s.findNodeTryAgain a 0 (solNodeKey hashv)

theorem scan_spec (hi : s.Inv l p) (hh : hashv.toNat < 2 ^ 31) (a : Accessor) :
    ∃ a' A c B, s.scan a hashv = .ok (s.heap.key c == solNodeKey hashv, a') ∧ l = A ++ c :: B ∧
      FoundAt s hashv a' A c B := by
  obtain ⟨b, hb⟩ := hi.first
  have hlt : reverseHashtBits 0#32 < solNodeKey hashv := by
    rw [reverseHashtBits_zero, BitVec.lt_def, solNodeKey_toNat hh]
    exact Nat.succ_pos _
  obtain ⟨a', A, c, B, hrun, hl, hf, -⟩ :=
    findNodeTryAgain_from hi (show s.buckets[(0#32 : Hash).toNat]? = _ from hb) hlt a
  exact ⟨a', A, c, B, hrun, hl, hf⟩

/-- There is one place in the chain a search for a hash can end. -/
theorem FoundAt.unique (h : FoundAt s hashv a A c B) (h' : FoundAt s hashv a' A' c' B')
    (hl : A ++ c :: B = A' ++ c' :: B') : A = A' ∧ c = c' ∧ B = B' := by
  have hrest : ∀ {a A c B}, FoundAt s hashv a A c B →
      (A ++ c :: B).dropWhile (fun x => decide (s.heap.key x ≤ solNodeKey hashv)) = B := fun {a A c B} h => by
    rw [List.append_cons]
    refine dropWhile_append_stop (fun x hx => by simpa using h.le x hx) fun x hx => ?_
    simpa using h.lt x (List.mem_of_head? hx)
  obtain rfl : B = B' := by rw [← hrest h, hl, hrest h']
  rw [List.append_cons, List.append_cons A'] at hl
  obtain ⟨rfl, hc⟩ := List.append_inj' (List.append_cancel_right hl) rfl
  exact ⟨rfl, by simpa using hc, rfl⟩

end Solist

/-! ## In every state -/

/-- **`get_parent`** on an empty slot: the keys probed go down by steps,
without a wrap and within the table, to the set bucket with the largest key
below the slot's, and the walk from there ends in the gap of the whole chain
where that key belongs. -/
theorem getParent_finds {size bucketLength : Hash} (hsize : ∃ k, size.toNat = 2 ^ k) {s : Session T}
    {hist : List (Record T)} (h : (sessions T size bucketLength).Reachable (s, hist)) {slot : Hash}
    (hs : slot < s.list.nBuckets) (hempty : s.list.buckets[slot.toNat]? = some none) (a : Accessor) :
    ∃ key step pbSlot keys pbKey a', solBucketKey slot = .ok key ∧ solBucketKey (s.list.nBuckets / 2) = .ok step ∧
      s.list.probes step (2 ^ 32) key = .ok (pbSlot, keys) ∧ s.list.parentSlot step (2 ^ 32) key = .ok pbSlot ∧
      (key :: keys).IsChain (fun x y => step ≤ x ∧ y = x - step) ∧
      (∀ x ∈ keys, reverseHashtBits x < s.list.nBuckets) ∧
      solBucketKey pbSlot = .ok pbKey ∧ IsGreatest (s.list.setBelow key) pbKey ∧
      s.list.getParent a slot key = .ok a' ∧
      ∃ A c B, s.list.nodes = A ++ c :: B ∧ a'.cur = some c ∧ a'.next = B.head? ∧
        (∀ x ∈ A ++ [c], s.list.heap.key x < key) ∧ ∀ x ∈ B, key ≤ s.list.heap.key x := by
  obtain ⟨m, l, -, hr⟩ := sessions_represents (Solist.two_pow_le hsize) h
  have hi := hr.inv
  obtain ⟨k, hk, hn⟩ := hi.nBuckets
  have hs31 := hi.table.slot_lt hs
  have hne : slot ≠ 0#32 := by
    rintro rfl
    obtain ⟨b, hb⟩ := hi.first
    simp [hb] at hempty
  obtain ⟨hk0, m, hm0, hm, hmul⟩ := Solist.slot_key_multiple hk (show slot.toNat < 2 ^ k by rw [← hn]; exact hs) hne
  obtain ⟨step, hstepok, hstep⟩ := solBucketKey_half hn hk0 hk
  obtain ⟨ps, keys, hrun, hchain, hrange, -, hgreatest⟩ :=
    Solist.probes_spec hi hn hk hstep (2 ^ 32) m (reverseHashtBits slot) hm0 hm (by rw [hmul, hstep])
  obtain ⟨⟨t, b, ht, hb, htkey, -⟩, -⟩ := id hgreatest
  obtain ⟨a', A, c, B, hget, hl, hcur, hnext, hlt, hgt, -⟩ := Solist.getParent_spec hi hs hempty a
  obtain rfl : t = ps := reverseHashtBits_inj.mp (solBucketKey_eq_ok_iff.mp htkey).2.symm
  refine ⟨reverseHashtBits slot, step, t, keys, reverseHashtBits t, a', solBucketKey_ok hs31, hstepok, hrun,
    Solist.parentSlot_of_probes hrun, hchain, hrange, htkey, hgreatest, hget, A, c, B, by rw [hi.nodes_eq, hl], hcur,
    hnext, fun x hx => ?_, fun x hx => BitVec.le_of_lt (hgt x hx)⟩
  rcases List.mem_append.mp hx with hx | hx
  · have hc := hi.chain
    rw [hl] at hc
    exact BitVec.lt_trans (hc.lt_of_mem_left hx) hlt
  · rw [List.mem_singleton.mp hx]
    exact hlt

/-- Slot 3 of a fresh list of four: the steps are those of the key of slot 2. -/
theorem getParent_finds_four :
    ∃ s hist, (sessions Nat 4 4).Reachable (s, hist) ∧ ∃ key keys pbSlot pbKey, solBucketKey 3 = .ok key ∧
      s.list.parentSlot 0x40000000 (2 ^ 32) key = .ok pbSlot ∧
      (key :: keys).IsChain (fun x y => 0x40000000 ≤ x ∧ y = x - 0x40000000) ∧
      solBucketKey pbSlot = .ok pbKey ∧ IsGreatest (s.list.setBelow key) pbKey := by
  let list : Solist Nat := Solist.initial 4 4
  have hlist : Solist.create 4 4 = .ok list := Solist.create_eq 4 (by decide)
  have hreach : (sessions Nat 4 4).Reachable ({ list }, []) := .init ⟨list, hlist, rfl⟩
  have hempty : list.buckets[(3 : Hash).toNat]? = some none := rfl
  obtain ⟨key, step, pbSlot, keys, pbKey, a', hkey, hstep, -, hparent, hchain, -, hpb, hgreatest, -⟩ :=
    getParent_finds ⟨2, rfl⟩ hreach (show (3 : Hash) < list.nBuckets by decide) hempty {}
  obtain rfl : step = 0x40000000 := (solBucketKey_eq_ok_iff.mp hstep).2.trans (by decide)
  exact ⟨{ list }, [], hreach, key, keys, pbSlot, pbKey, hkey, hparent, hchain, hpb, hgreatest⟩

/-- **`find_node` finds what a scan finds.** It returns; the scan of the chain
before the call gives the same answer, and the scan of the chain it leaves
also ends at the same node, the last with a key up to that of the hash. The
data nodes are as they were. -/
theorem findNode_scans {size bucketLength : Hash} (hsize : ∃ k, size.toNat = 2 ^ k) {s : Session T}
    {hist : List (Record T)} (h : (sessions T size bucketLength).Reachable (s, hist)) {hashv : Hash}
    (hh : hashv.toNat < 2 ^ 31) (a : Accessor) :
    ∃ found a' s', s.list.findNode a hashv = .ok (found, a', s') ∧
      (∃ a₀, s.list.scan a hashv = .ok (found, a₀)) ∧
      (∃ a₁, s'.scan a hashv = .ok (found, a₁) ∧ a₁.cur = a'.cur ∧ a₁.next = a'.next) ∧
      (∃ A c B, s'.nodes = A ++ c :: B ∧ a'.cur = some c ∧ a'.next = B.head? ∧
        (∀ x ∈ A ++ [c], s'.heap.key x ≤ solNodeKey hashv) ∧ (∀ x ∈ B, solNodeKey hashv < s'.heap.key x) ∧
        (found = true → ∃ A' q, A = A' ++ [q] ∧ a'.prev = some q)) ∧
      s'.nodes.filter s'.heap.isData = s.list.nodes.filter s.list.heap.isData := by
  obtain ⟨m, l, -, hr⟩ := sessions_represents (Solist.two_pow_le hsize) h
  have hi := hr.inv
  obtain ⟨a', s', A, c, B, hfind, hsame, -, hf, -⟩ := Solist.findNode_spec hi hh a
  have hi' := hsame.inv
  obtain ⟨a₀, A₀, c₀, B₀, hscan, rfl, hf₀⟩ := Solist.scan_spec hi hh a
  obtain ⟨a₁, A₁, c₁, B₁, hscan', hl₁, hf₁⟩ := Solist.scan_spec hi' hh a
  obtain ⟨rfl, rfl, rfl⟩ := hf.unique hf₁ hl₁
  refine ⟨_, a', s', hfind, ⟨a₀, ?_⟩, ⟨a₁, hscan', by rw [hf₁.cur, hf.cur], by rw [hf₁.next, hf.next]⟩,
    ⟨A, c, B, hi'.nodes_eq, hf.cur, hf.next, hf.le, hf.lt, fun hfound => ?_⟩, ?_⟩
  · -- both are true when the hash is held
    have hiff : s'.heap.key c = solNodeKey hashv ↔ s.list.heap.key c₀ = solNodeKey hashv := by
      rw [← hf.holds_iff hi' hh, ← hf₀.holds_iff hi hh, hsame.holds_iff hi]
    rw [hscan]
    congr 2
    exact Bool.eq_iff_iff.mpr (by simpa using hiff.symm)
  · exact hf.prev (by simpa using hfound)
  · rw [hi.nodes_eq, hi'.nodes_eq, hsame.data]

/-- The search for a hash that is held, and one for a hash whose bucket is not set. -/
theorem findNode_scans_two :
    ∃ s hist, (sessions Nat 2 4).Reachable (s, hist) ∧ hist.map Record.op = [.insertNode 5 7, .findItemNode 5] ∧
      ∀ hashv : Hash, hashv = 5 ∨ hashv = 4 → ∃ found a' s' a₀, s.list.findNode {} hashv = .ok (found, a', s') ∧
        s.list.scan {} hashv = .ok (found, a₀) := by
  obtain ⟨s, hist, hreach, hops⟩ := twoCalls_reachable
  refine ⟨s, hist, hreach, hops, fun hashv hv => ?_⟩
  have hh : hashv.toNat < 2 ^ 31 := by rcases hv with rfl | rfl <;> decide
  obtain ⟨found, a', s', hfind, ⟨a₀, hscan⟩, -⟩ := findNode_scans ⟨1, rfl⟩ hreach hh {}
  exact ⟨found, a', s', a₀, hfind, hscan⟩

end SplitOrder
