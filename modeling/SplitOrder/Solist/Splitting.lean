/-
What an insert that makes a bucket does to the one it measured.

The steps `insert_node` compares are the data nodes between the dummy of the
hash's slot and the next dummy: the run. The slot it then splits off is the
one whose key is next above, among the buckets there are or, after doubling,
halfway to it. No dummy stands in between, so the new one falls within the
run, and the split ordering says which hashes end up on which side.
-/
import SplitOrder.Solist.Ordering
import SplitOrder.Solist.Resize

namespace SplitOrder

open Heap

variable {T : Type}

namespace Solist

variable {s s' : Solist T} {l p A B run R : List Addr} {a a' : Accessor} {slot t hashv : Hash} {b c : Addr} {k : Nat}

/-- The next dummy after that of a slot is a step away, at least. -/
theorem Inv.step_le (hi : s.Inv l p) (hn : s.nBuckets.toNat = 2 ^ k) (hk : k ≤ 31) (hs : slot.toNat < 2 ^ k)
    (hc : c ∈ l) (hd : s.heap.isData c = false) (hlt : reverseHashtBits slot < s.heap.key c) :
    (reverseHashtBits slot).toNat + 2 ^ (32 - k) ≤ (s.heap.key c).toNat := by
  have hslot : (s.heap.node c).hashv.toNat < 2 ^ k := by
    have := (List.getElem?_eq_some_iff.mp (hi.dummy c hc hd)).1
    rwa [hi.size, hn] at this
  obtain ⟨i, hi'⟩ := (step_dvd_iff hk).mpr hslot
  obtain ⟨j, hj⟩ := (step_dvd_iff hk).mpr hs
  rw [hi.chain.key_dummy hc hd, BitVec.lt_def, hi', hj] at hlt
  rw [hi.chain.key_dummy hc hd, hi', hj, ← Nat.mul_succ]
  exact Nat.mul_le_mul_left _ (Nat.lt_of_mul_lt_mul_left hlt)

/-! ## A new dummy within a run -/

/-- `initialise_bucket` puts a dummy in where its key belongs. -/
theorem initialiseBucket_between (hi : s.Inv (A ++ B) p) (ht : t < s.nBuckets)
    (hempty : s.buckets[t.toNat]? = some none) (hA : ∀ x ∈ A, s.heap.key x < reverseHashtBits t)
    (hB : ∀ x ∈ B, reverseHashtBits t < s.heap.key x) (a : Accessor) :
    ∃ a' s', s.initialiseBucket a t = .ok (a', s') ∧ SameItems s (A ++ B) p s' (A ++ s.heap.size :: B) ∧
      s'.nBuckets = s.nBuckets ∧ s'.buckets[t.toNat]? = some (some s.heap.size) := by
  obtain ⟨a', A', c, B', hl, hlt, hgt, -, -, -, hrun⟩ := initialiseBucket_eq hi ht hempty a
  have hlow : ∀ x ∈ A' ++ [c], s.heap.key x < reverseHashtBits t := fun x hx => by
    have hc := hi.chain
    rw [hl] at hc
    rcases List.mem_append.mp hx with hx | hx
    · exact BitVec.lt_trans (hc.lt_of_mem_left hx) hlt
    · rw [List.mem_singleton.mp hx]
      exact hlt
  have hcut : ∀ {L R : List Addr}, (∀ x ∈ L, s.heap.key x < reverseHashtBits t) →
      (∀ x ∈ R, reverseHashtBits t < s.heap.key x) →
        (L ++ R).dropWhile (fun x => decide (s.heap.key x < reverseHashtBits t)) = R :=
    fun hL hR => dropWhile_append_stop (by simpa using hL) fun x hx => by
      simpa using BitVec.le_of_lt (hR x (List.mem_of_head? hx))
  rw [List.append_cons] at hl
  obtain rfl : B = B' := by rw [← hcut hA hB, hl, hcut hlow hgt]
  obtain rfl := List.append_cancel_right hl
  have hlen : t.toNat < s.buckets.length := by
    rw [hi.size]
    exact ht
  have hsame := addDummy_sameItems (by rwa [← List.append_cons] at hi) ht hempty hlt hgt
  rw [List.append_cons, List.append_cons A' c (_ :: _)] at hsame
  exact ⟨a', _, hrun, hsame, rfl, by simp [addDummy, hlen]⟩

/-- A slot whose key lies above that of `b` and below those of the dummies after it gets its dummy within the run. -/
theorem initialiseBucket_cuts (hi : s.Inv (A ++ b :: (run ++ R)) p) (ht : t < s.nBuckets)
    (hempty : s.buckets[t.toNat]? = some none) (hb : s.heap.key b < reverseHashtBits t)
    (hdata : ∀ x ∈ run, s.heap.isData x = true) (hR : ∀ x ∈ R, reverseHashtBits t < s.heap.key x) (a : Accessor) :
    ∃ a' s' r₁ r₂, s.initialiseBucket a t = .ok (a', s') ∧ run = r₁ ++ r₂ ∧
      SameItems s (A ++ b :: (run ++ R)) p s' (A ++ b :: (r₁ ++ s.heap.size :: (r₂ ++ R))) ∧
      s'.nBuckets = s.nBuckets ∧ s'.buckets[t.toNat]? = some (some s.heap.size) ∧
      (∀ x ∈ r₁, s.heap.key x < reverseHashtBits t) ∧ ∀ x ∈ r₂, reverseHashtBits t < s.heap.key x := by
  let q : Addr → Bool := fun x => decide (s.heap.key x < reverseHashtBits t)
  have hrun : run = run.takeWhile q ++ run.dropWhile q := List.takeWhile_append_dropWhile.symm
  have hsorted : run.Pairwise fun x y => s.heap.key x < s.heap.key y :=
    hi.chain.sorted.sublist ((List.sublist_append_left run R).trans
      ((List.sublist_cons_self b _).trans (List.sublist_append_right A _)))
  have hlow : ∀ x ∈ run.takeWhile q, s.heap.key x < reverseHashtBits t := fun x hx => by
    simpa [q] using List.mem_takeWhile_imp hx
  have hhigh : ∀ x ∈ run.dropWhile q, reverseHashtBits t < s.heap.key x := fun x hx => by
    have hstop : ¬ s.heap.key x < reverseHashtBits t := by
      simpa [q] using dropWhile_all (hsorted.imp fun hxy hy => by
        simpa [q] using BitVec.lt_trans hxy (by simpa [q] using hy)) x hx
    -- a data node has no bucket's key
    have hxrun : x ∈ run := (List.dropWhile_sublist q).subset hx
    have hne : s.heap.key x ≠ reverseHashtBits t := by
      rw [hi.chain.key_data (by simp [hxrun]) (hdata x hxrun)]
      exact solNodeKey_ne (hi.table.slot_lt ht)
    bv_omega
  have hl : A ++ b :: (run ++ R) = (A ++ b :: run.takeWhile q) ++ (run.dropWhile q ++ R) := by
    rw [List.append_assoc, List.cons_append, ← List.append_assoc (run.takeWhile q), ← hrun]
  rw [hl] at hi
  have hbelow : ∀ x ∈ A ++ b :: run.takeWhile q, s.heap.key x < reverseHashtBits t := fun x hx => by
    rcases List.mem_append.mp hx with hx | hx
    · rw [List.append_assoc] at hi
      exact BitVec.lt_trans (hi.chain.lt_of_mem_left hx) hb
    · rcases List.mem_cons.mp hx with rfl | hx
      · exact hb
      · exact hlow x hx
  have habove : ∀ x ∈ run.dropWhile q ++ R, reverseHashtBits t < s.heap.key x := fun x hx => by
    rcases List.mem_append.mp hx with hx | hx
    · exact hhigh x hx
    · exact hR x hx
  obtain ⟨a', s', h, hsame, hnb, hd⟩ := initialiseBucket_between hi ht hempty hbelow habove a
  refine ⟨a', s', _, _, h, hrun, ?_, hnb, hd, hlow, hhigh⟩
  rw [hl]
  simpa only [List.append_assoc, List.cons_append] using hsame

/-- What comes after the run of a slot is a step away from it. -/
theorem Inv.rest_ge (hi : s.Inv (A ++ b :: (run ++ R)) p) (hn : s.nBuckets.toNat = 2 ^ k) (hk : k ≤ 31)
    (hs : slot.toNat < 2 ^ k) (hb : s.buckets[slot.toNat]? = some (some b))
    (hR : ∀ x, R.head? = some x → s.heap.isData x = false) :
    ∀ x ∈ R, (reverseHashtBits slot).toNat + 2 ^ (32 - k) ≤ (s.heap.key x).toNat := by
  cases R with
  | nil => simp
  | cons e R =>
    have hlt : reverseHashtBits slot < s.heap.key e := by
      rw [← hi.key_slot hb]
      exact hi.chain.lt_of_mem_right (by simp)
    have he := hi.step_le hn hk hs (by simp) (hR e rfl) hlt
    intro x hx
    rcases List.mem_cons.mp hx with rfl | hx
    · exact he
    · have hc := hi.chain
      rw [← List.cons_append, ← List.append_assoc] at hc
      exact Nat.le_trans he (Nat.le_of_lt (hc.lt_of_mem_right hx))

/-! ## The bucket the expansion check makes -/

/-- The bucket made is `t`, above the slot by the number of buckets before
they were doubled, or by half of it. Its dummy cuts the run: what hashes to the
slot of what hashed there comes before it, what hashes to `t` after it. -/
structure Cut (s : Solist T) (hashv : Hash) (A : List Addr) (b : Addr) (run R : List Addr) (s' : Solist T) (t : Hash)
    (r₁ r₂ : List Addr) : Prop where
  slot : s'.nBuckets.toNat = 2 * s.nBuckets.toNat ∧ t = hashv % s.nBuckets + s.nBuckets ∨
    s'.nBuckets = s.nBuckets ∧ t = hashv % s.nBuckets + s.nBuckets / 2
  empty : ∀ d, s.buckets[t.toNat]? ≠ some (some d)
  dummy : s'.buckets[t.toNat]? = some (some s.heap.size)
  split : run = r₁ ++ r₂
  nodes : s'.nodes = A ++ b :: (r₁ ++ s.heap.size :: (r₂ ++ R))
  before : ∀ x ∈ run, (s.heap.node x).hashv % s'.nBuckets = hashv % s.nBuckets → x ∈ r₁
  after : ∀ x ∈ run, (s.heap.node x).hashv % s'.nBuckets = t → x ∈ r₂

/-- The side of the cut a node is on is told by its key. -/
theorem mem_side {r₁ r₂ : List Addr} {x : Addr} {key : SoKey} (hx : x ∈ r₁ ++ r₂)
    (h₁ : ∀ x ∈ r₁, s.heap.key x < key) (h₂ : ∀ x ∈ r₂, key < s.heap.key x) :
    (s.heap.key x < key → x ∈ r₁) ∧ (key < s.heap.key x → x ∈ r₂) := by
  rcases List.mem_append.mp hx with hx | hx
  · exact ⟨fun _ => hx, fun hlt => absurd (BitVec.lt_trans hlt (h₁ x hx)) (BitVec.lt_irrefl _)⟩
  · exact ⟨fun hlt => absurd (BitVec.lt_trans hlt (h₂ x hx)) (BitVec.lt_irrefl _), fun _ => hx⟩

theorem run_key (hi : s.Inv (A ++ b :: (run ++ R)) p) (hdata : ∀ x ∈ run, s.heap.isData x = true) :
    ∀ x ∈ run, s.heap.key x = solNodeKey (s.heap.node x).hashv ∧ (s.heap.node x).hashv.toNat < 2 ^ 31 := by
  intro x hx
  have hmem : x ∈ A ++ b :: (run ++ R) := List.mem_append_right _ (List.mem_cons_of_mem _ (List.mem_append_left _ hx))
  exact ⟨hi.chain.key_data hmem (hdata x hx), hi.chain.hashv_lt hmem⟩

section Runs

variable (hi : s.Inv (A ++ b :: (run ++ R)) p) (hb : s.buckets[(hashv % s.nBuckets).toNat]? = some (some b))
  (hdata : ∀ x ∈ run, s.heap.isData x = true) (hR : ∀ x, R.head? = some x → s.heap.isData x = false)

include hi hb hdata hR

/-- After doubling: the new bucket is halfway to the next of the old ones. -/
theorem doubled_cut (hn31 : s.nBuckets.toNat < 2 ^ 31) (a : Accessor) :
    ∃ a' s' r₁ r₂, s.doubled.initialiseBucket a (hashv % s.nBuckets + s.nBuckets) = .ok (a', s') ∧
      Cut s hashv A b run R s' (hashv % s.nBuckets + s.nBuckets) r₁ r₂ := by
  obtain ⟨k, hk, hn⟩ := hi.nBuckets
  have hk30 : k ≤ 30 := Nat.lt_succ_iff.mp ((Nat.pow_lt_pow_iff_right (by omega)).mp (hn ▸ hn31))
  have hs : (hashv % s.nBuckets).toNat < 2 ^ k := umod_lt_pow hn
  obtain ⟨hadd, hkey⟩ := bucketKey_add hn hk30 hs
  have hnew := doubled_nBuckets_toNat hn31
  have hsame₀ := doubled_sameItems hi hn31
  have hempty : s.doubled.buckets[(hashv % s.nBuckets + s.nBuckets).toNat]? = some none := by
    rw [doubled, List.getElem?_append_right (by rw [hi.size, hadd, hn]; omega), List.getElem?_replicate, hadd,
      hi.size, hn]
    exact if_pos (by omega)
  have hlow : s.heap.key b < reverseHashtBits (hashv % s.nBuckets + s.nBuckets) := by
    rw [hi.key_slot hb, BitVec.lt_def, hkey]
    exact Nat.lt_add_of_pos_right (Nat.two_pow_pos _)
  have habove : ∀ x ∈ R, reverseHashtBits (hashv % s.nBuckets + s.nBuckets) < s.heap.key x := fun x hx => by
    have hge := hi.rest_ge hn hk hs hb hR x hx
    rw [show 32 - k = 31 - k + 1 by omega, pow_succ] at hge
    have := Nat.two_pow_pos (31 - k)
    rw [BitVec.lt_def, hkey]
    omega
  have hside := run_key hi hdata
  obtain ⟨a', s', r₁, r₂, hrun, rfl, hsame, hnb, hd, h₁, h₂⟩ :=
    initialiseBucket_cuts hsame₀.inv (by rw [BitVec.lt_def, hadd, hnew, hn]; omega) hempty hlow hdata habove a
  have hnb' : s'.nBuckets = 2 * s.nBuckets := hnb.trans (BitVec.mul_comm ..)
  refine ⟨a', s', r₁, r₂, hrun, ⟨.inl ⟨by rw [hnb, hnew], rfl⟩, fun d hd' => ?_, hd, rfl, hsame.inv.nodes_eq,
    fun x hx he => ?_,
    fun x hx he => ?_⟩⟩
  · have := (List.getElem?_eq_some_iff.mp hd').1
    rw [hi.size, hadd, hn] at this
    omega
  · obtain ⟨hxk, hxh⟩ := hside x hx
    rw [hnb'] at he
    have hlt := ((umod_double_iff hn hk30 hs hxh).1.mp he).2
    exact (mem_side (s := s) hx h₁ h₂).1 (by rw [hxk]; exact hlt)
  · obtain ⟨hxk, hxh⟩ := hside x hx
    rw [hnb'] at he
    have hlt := ((umod_double_iff hn hk30 hs hxh).2.mp he).1
    exact (mem_side (s := s) hx h₁ h₂).2 (by rw [hxk]; exact hlt)

/-- Without doubling: the new bucket is the next of those there are. -/
theorem half_cut (ht : hashv % s.nBuckets + s.nBuckets / 2 < s.nBuckets)
    (hempty : s.buckets[(hashv % s.nBuckets + s.nBuckets / 2).toNat]? = some none) (a : Accessor) :
    ∃ a' s' r₁ r₂, s.initialiseBucket a (hashv % s.nBuckets + s.nBuckets / 2) = .ok (a', s') ∧
      Cut s hashv A b run R s' (hashv % s.nBuckets + s.nBuckets / 2) r₁ r₂ := by
  obtain ⟨k, hk, hn⟩ := hi.nBuckets
  have hs : (hashv % s.nBuckets).toNat < 2 ^ k := umod_lt_pow hn
  have hk0 : k ≠ 0 := by
    -- the only slot of one is set
    rintro rfl
    have hone : s.nBuckets = 1#32 := BitVec.eq_of_toNat_eq hn
    have hsame : hashv % s.nBuckets + s.nBuckets / 2 = hashv % s.nBuckets := by
      rw [hone]
      simp
    rw [hsame, hb] at hempty
    cases hempty
  obtain ⟨j, rfl⟩ := Nat.exists_eq_succ_of_ne_zero hk0
  have hhalf : (s.nBuckets / 2).toNat = 2 ^ j := by
    rw [BitVec.toNat_udiv, hn, pow_succ]
    simp
  have hpow : 2 ^ (j + 1) ≤ 2 ^ 31 := Nat.pow_le_pow_right (by omega) hk
  have hadd : (hashv % s.nBuckets + s.nBuckets / 2).toNat = (hashv % s.nBuckets).toNat + 2 ^ j := by
    rw [BitVec.toNat_add, hhalf]
    exact Nat.mod_eq_of_lt (by rw [pow_succ] at hpow hs; omega)
  have hslow : (hashv % s.nBuckets).toNat < 2 ^ j := by
    rw [BitVec.lt_def, hadd, hn, pow_succ] at ht
    omega
  obtain ⟨-, hkey⟩ := bucketKey_add hhalf (by omega) hslow
  rw [show 31 - j = 32 - (j + 1) by omega] at hkey
  have hlow : s.heap.key b < reverseHashtBits (hashv % s.nBuckets + s.nBuckets / 2) := by
    rw [hi.key_slot hb, BitVec.lt_def, hkey]
    exact Nat.lt_add_of_pos_right (Nat.two_pow_pos _)
  have habove : ∀ x ∈ R, reverseHashtBits (hashv % s.nBuckets + s.nBuckets / 2) < s.heap.key x := fun x hx => by
    have hge := hi.rest_ge hn hk hs hb hR x hx
    rw [← hkey] at hge
    -- the slot of that very key is empty
    have hne : s.heap.key x ≠ reverseHashtBits (hashv % s.nBuckets + s.nBuckets / 2) := fun he => by
      have := hi.slot_of_key (hi.table.slot_lt ht) (by simp [hx]) he
      rw [hempty] at this
      cases this
    rw [← BitVec.le_def] at hge
    bv_omega
  have hside := run_key hi hdata
  obtain ⟨a', s', r₁, r₂, hrun, rfl, hsame, hnb, hd, h₁, h₂⟩ := initialiseBucket_cuts hi ht hempty hlow hdata habove a
  refine ⟨a', s', r₁, r₂, hrun, ⟨.inr ⟨hnb, rfl⟩, fun d hd' => ?_, hd, rfl, hsame.inv.nodes_eq, fun x hx he => ?_,
    fun x hx he => ?_⟩⟩
  · rw [hempty] at hd'
    cases hd'
  · obtain ⟨hxk, hxh⟩ := hside x hx
    rw [hnb] at he
    have hlt := ((umod_eq_iff_nodeKey hn hk hs hxh).mp he).2
    exact (mem_side (s := s) hx h₁ h₂).1 (by rw [hxk, BitVec.lt_def, hkey]; exact hlt)
  · obtain ⟨hxk, hxh⟩ := hside x hx
    rw [hnb] at he
    have hlt := solBucketKey_lt_solNodeKey hn hxh
    rw [he] at hlt
    exact (mem_side (s := s) hx h₁ h₂).2 (by rw [hxk]; exact hlt)

theorem expansionCheck_cuts {a' : Accessor} {s' : Solist T} (h : s.expansionCheck a hashv s.nBuckets = .ok (a', s')) :
    s' = s ∨ ∃ t r₁ r₂, Cut s hashv A b run R s' t r₁ r₂ := by
  simp only [expansionCheck] at h
  split at h
  · split at h
    · rcases Nat.lt_or_ge s.nBuckets.toNat (2 ^ 31) with hn | hn
      · obtain ⟨a₁, s₁, r₁, r₂, hrun, hcut⟩ := doubled_cut hi hb hdata hR hn a
        rw [expand_eq hi.size hn, bind_ok, hrun] at h
        cases h
        exact .inr ⟨_, r₁, r₂, hcut⟩
      · rw [expand_overflow hi.size (Nat.le_antisymm hi.table.nBuckets_le hn)] at h
        cases h
    · split at h
      · rename_i ht
        obtain ⟨d, hd, hdk⟩ := hi.bucket ht
        cases d with
        | some d =>
          simp only [initialiseBucket, ht, not_true_eq_false, if_false, hdk, bind_ok, Option.isSome_some, if_true] at h
          cases h
          exact .inl rfl
        | none =>
          obtain ⟨a₁, s₁, r₁, r₂, hrun, hcut⟩ := half_cut hi hb hdata hR ht hd a
          rw [hrun] at h
          cases h
          exact .inr ⟨_, r₁, r₂, hcut⟩
      · cases h
        exact .inl rfl
  · cases h
    exact .inl rfl

end Runs

end Solist

/-- **An insert splits the bucket it measured.** In a run of calls, when an
insert of a hash is true: it comes to its expansion check with the steps
counting the data nodes, the new one among them, between the dummy of the
hash's slot and the next dummy; and the call then leaves the list as it is,
or makes one bucket, whose dummy cuts that run. -/
theorem insert_splits {size bucketLength : Hash} (hsize : ∃ k, size.toNat = 2 ^ k) {s : Session T}
    {hist : List (Record T)} (h : (sessions T size bucketLength).Reachable (s, hist)) {hashv : Hash}
    (hh : hashv.toNat < 2 ^ 31) {a : Accessor} {v : T} {a' : Accessor} {s' : Solist T}
    (hins : s.list.insertNode a hashv v = .ok (true, a', s')) :
    ∃ a₂ s₂ A b run R, s.list.insertToCheck a hashv v = .ok (true, a₂, s₂) ∧ s₂.nBuckets = s.list.nBuckets ∧
      s₂.nodes = A ++ b :: (run ++ R) ∧ s₂.buckets[(hashv % s.list.nBuckets).toNat]? = some (some b) ∧
      s.list.heap.size ∈ run ∧ (∀ x ∈ run, s₂.heap.isData x = true) ∧
      (∀ x, R.head? = some x → s₂.heap.isData x = false) ∧ a₂.steps.toNat = run.length ∧
      (s' = s₂ ∨ ∃ t r₁ r₂, s₂.Cut hashv A b run R s' t r₁ r₂) := by
  obtain ⟨m, l, -, hr⟩ := sessions_represents (Solist.two_pow_le hsize) h
  have hi := hr.inv
  have habs : ¬ s.list.Holds l hashv := fun hold => by
    obtain ⟨a₁, s₁, l₁, -, -, hrun⟩ := Solist.insertNode_held hi hh hold a v
    rw [hrun] at hins
    cases hins
  obtain ⟨a₂, s₂, A, b, run, R, hcheck, hadd, hnb, -, -, hb, hnew, hdata, hR, hsteps, -⟩ :=
    Solist.insertToCheck_absent hi hh habs a v
  have hi₂ := hadd.inv
  refine ⟨a₂, s₂, A, b, run, R, hcheck, hnb, hi₂.nodes_eq, hb, hnew, hdata, hR, ?_, ?_⟩
  · have hle := hi₂.data_length_le ((List.sublist_append_left run R).trans
      ((List.sublist_cons_self b _).trans (List.sublist_append_right A _))) hdata
    rw [hsteps, BitVec.toNat_ofNat]
    exact Nat.mod_eq_of_lt (by omega)
  · rw [Solist.insertNode_of_toCheck hcheck, ← hnb] at hins
    obtain ⟨⟨a₃, s₃⟩, hexp, hres⟩ := bind_eq_ok.mp hins
    cases hres
    rw [← hnb] at hb
    exact Solist.expansionCheck_cuts hi₂ hb hdata hR hexp

/-- The second insert into slot 1 of two doubles the table and makes slot 3. -/
theorem insert_splits_three :
    ∃ s hist, (sessions Nat 2 1).Reachable (s, hist) ∧ ∃ a₂ s₂ a' s' A b run R t r₁ r₂,
      s.list.insertToCheck {} 3 8 = .ok (true, a₂, s₂) ∧ s.list.insertNode {} 3 8 = .ok (true, a', s') ∧
      a₂.steps.toNat = run.length ∧ s₂.Cut 3 A b run R s' t r₁ r₂ := by
  let list : Solist Nat := Solist.initial 2 1
  have hlist : Solist.create 2 1 = .ok list := Solist.create_eq 1 (by decide)
  have hsome : ((sessions Nat 2 1).run ({ list }, []) [(0, .insertNode 1 7)]).bind
      (fun x => (x.1.list.insertNode {} 3 8).toOption.map fun r => (r.1, r.2.2.nBuckets, x.1.list.nBuckets)) =
        some (true, 4, 2) := by
    decide +kernel
  obtain ⟨⟨s, hist⟩, hrun, hins⟩ := Option.bind_eq_some_iff.mp hsome
  have hreach : (sessions Nat 2 1).Reachable (s, hist) := System.run_reachable (.init ⟨list, hlist, rfl⟩) hrun
  cases hx : s.list.insertNode {} 3 8 with
  | error e =>
    simp only [hx] at hins
    cases hins
  | ok r =>
    obtain ⟨found, a', s'⟩ := r
    simp only [hx, Except.toOption, Option.map_some, Option.some.injEq, Prod.mk.injEq] at hins
    obtain ⟨rfl, hfour, htwo⟩ := hins
    obtain ⟨a₂, s₂, A, b, run, R, hcheck, hnb, -, -, -, -, -, hsteps, hsame | ⟨t, r₁, r₂, hcut⟩⟩ :=
      insert_splits ⟨1, rfl⟩ hreach (by decide) hx
    · rw [hsame, hnb, htwo] at hfour
      exact absurd hfour (by decide)
    · exact ⟨s, hist, hreach, a₂, s₂, a', s', A, b, run, R, t, r₁, r₂, hcheck, hx, hsteps, hcut⟩

end SplitOrder
