/-
The growth of the table, against exact integers.

`insert_node` decides in 32-bit words: the steps it counted against
`max_bucket_length` and twice it, `n_items` against the product of
`max_bucket_length` and `n_buckets`. The steps are the exact length of the
bucket, since at most `2 ^ 31` hashes exist; the product with `n_buckets` and
the doubled size can wrap. `Op.Fits` is when they do not.
-/
import SplitOrder.Solist.FiniteMap

namespace SplitOrder

open Heap

variable {T : Type}

namespace Solist

/-- The nodes from `buckets[0]` on. -/
def nodes (s : Solist T) : List Addr := Seg.follow s.heap.nextOf s.heap.size s.buckets[0]?.join

theorem Inv.nodes_eq {s : Solist T} {l p : List Addr} (hi : s.Inv l p) : s.nodes = l := by
  obtain ⟨b, hb⟩ := hi.first
  have hseg := hi.chain.seg
  rw [hi.head hb] at hseg
  rw [nodes, hb]
  exact Seg.follow_eq hseg hi.chain.length_le

instance (s : Solist T) (l : List Addr) (hashv : Hash) : Decidable (s.Holds l hashv) :=
  inferInstanceAs (Decidable (∃ _ ∈ l, _ ∧ _))

variable (s : Solist T) (hashv : Hash)

/-- The length a bucket has once the hash is added: its data nodes, up to the next dummy. -/
def newLength : Nat := (s.bucketItems s.nodes (hashv % s.nBuckets)).length + 1

/-- The bucket overflows, but not by a factor of two: the items are compared with the buckets. -/
def Compares : Prop :=
  s.maxBucketLength.toNat < s.newLength hashv ∧ s.newLength hashv < 2 * s.maxBucketLength.toNat

/-- The expansion check of `insert_node`, in exact integers. -/
def Grows : Prop :=
  s.maxBucketLength.toNat < s.newLength hashv ∧
    (2 * s.maxBucketLength.toNat ≤ s.newLength hashv ∨
      s.maxBucketLength.toNat * s.nBuckets.toNat ≤ s.nItems.toNat + 1)

instance : Decidable (s.Compares hashv) := inferInstanceAs (Decidable (_ ∧ _))

instance : Decidable (s.Grows hashv) := inferInstanceAs (Decidable (_ ∧ _))

end Solist

/-- Neither the doubled size nor the product an insert compares with is `2 ^ 32` or more. -/
def Op.Fits (s : Solist T) : Op T → Prop
  | .insertNode h _ => ¬ s.Holds s.nodes h →
      (s.Compares h → s.maxBucketLength.toNat * s.nBuckets.toNat < 2 ^ 32) ∧ (s.Grows h → s.nBuckets.toNat < 2 ^ 31)
  | .deleteNode _ | .findItemNode _ | .initialiseBucket _ => True

instance (s : Solist T) (op : Op T) : Decidable (op.Fits s) :=
  match op with
  | .insertNode _ _ => inferInstanceAs (Decidable (_ → _))
  | .deleteNode _ | .findItemNode _ | .initialiseBucket _ => inferInstanceAs (Decidable True)

/-- The slots after a call, by exact arithmetic. -/
def Op.slotsAfter (s : Solist T) : Op T → Nat
  | .insertNode h _ => if ¬ s.Holds s.nodes h ∧ s.Grows h then 2 * s.nBuckets.toNat else s.nBuckets.toNat
  | .deleteNode _ | .findItemNode _ | .initialiseBucket _ => s.nBuckets.toNat

/-- The words an insert computes, where it uses them, are the integers they stand for. -/
def Op.WordsExact (s : Solist T) : Op T → Prop
  | .insertNode h _ => ¬ s.Holds s.nodes h → s.maxBucketLength.toNat < s.newLength h →
      (s.maxBucketLength * 2).toNat = 2 * s.maxBucketLength.toNat ∧
      (s.Compares h → (s.maxBucketLength * s.nBuckets).toNat = s.maxBucketLength.toNat * s.nBuckets.toNat) ∧
      (s.Grows h → (s.nBuckets * 2).toNat = 2 * s.nBuckets.toNat)
  | .deleteNode _ | .findItemNode _ | .initialiseBucket _ => True

/-! ## Words and integers -/

section Words

theorem toNat_mul_two {x : Hash} (hx : x.toNat < 2 ^ 31) : (x * 2).toNat = 2 * x.toNat := by
  have h2 : (2 : Hash).toNat = 2 := rfl
  rw [BitVec.toNat_mul, h2, Nat.mul_comm]
  exact Nat.mod_eq_of_lt (by omega)

theorem toNat_mul_of_lt {x y : Hash} (h : x.toNat * y.toNat < 2 ^ 32) : (x * y).toNat = x.toNat * y.toNat := by
  rw [BitVec.toNat_mul]
  exact Nat.mod_eq_of_lt h

end Words

namespace Solist

variable {s : Solist T} {l p : List Addr} {hashv : Hash}

/-- A bucket is no longer than the list. -/
theorem bucketItems_length_le (s : Solist T) (l : List Addr) (slot : Hash) :
    (s.bucketItems l slot).length ≤ l.countP s.heap.isData := by
  have hdata : ∀ x ∈ s.bucketItems l slot, s.heap.isData x = true := fun x hx => List.mem_takeWhile_imp hx
  rw [← List.countP_eq_length.mpr hdata]
  exact ((List.takeWhile_sublist _).trans (List.dropWhile_sublist _)).countP_le

/-- An item that was added makes the list longer, so there was room for it. -/
theorem Added.countP_lt {s' : Solist T} {l' : List Addr} {v : T} {n : Addr} (h : Added s l s' l' hashv v n)
    (hi : s.Inv l p) (hitems : s'.nItems = s.nItems + 1) : l.countP s.heap.isData < 2 ^ 31 := by
  have hle := h.inv.countP_le
  have hle₀ := hi.countP_le
  have h1 : (1 : Hash).toNat = 1 := rfl
  have := congrArg BitVec.toNat hitems
  rw [BitVec.toNat_add, h.inv.nItems_toNat, hi.nItems_toNat, h1] at this
  omega

/-- **The words decide as the integers do.** -/
theorem expands_iff {s₂ : Solist T} {a : Accessor} (hnb : s₂.nBuckets = s.nBuckets)
    (hmax : s₂.maxBucketLength = s.maxBucketLength) (hitems : s₂.nItems = s.nItems + 1)
    (hroom : s.nItems.toNat < 2 ^ 31) (hsteps : a.steps = BitVec.ofNat 32 (s.newLength hashv))
    (hlen : s.newLength hashv ≤ 2 ^ 31)
    (hfits : s.Compares hashv → s.maxBucketLength.toNat * s.nBuckets.toNat < 2 ^ 32) :
    s₂.Expands a ↔ s.Grows hashv := by
  have hs : a.steps.toNat = s.newLength hashv := by
    rw [hsteps, BitVec.toNat_ofNat]
    exact Nat.mod_eq_of_lt (by omega)
  have h1 : (1 : Hash).toNat = 1 := rfl
  have hi : s₂.nItems.toNat = s.nItems.toNat + 1 := by
    rw [hitems, BitVec.toNat_add, h1]
    exact Nat.mod_eq_of_lt (by omega)
  unfold Expands Grows
  rw [hnb, hmax]
  simp only [gt_iff_lt, ge_iff_le, BitVec.lt_def, BitVec.le_def, hs, hi]
  refine and_congr_right fun hlong => ?_
  rw [toNat_mul_two (by omega)]
  by_cases htwice : 2 * s.maxBucketLength.toNat ≤ s.newLength hashv
  · simp only [htwice, true_or]
  · rw [toNat_mul_of_lt (hfits ⟨hlong, by omega⟩)]

/-- **`insert_node`**, in exact arithmetic. -/
theorem insertNode_slots (hi : s.Inv l []) (hh : hashv.toNat < 2 ^ 31) (a : Accessor) (v : T)
    (hfits : (Op.insertNode hashv v).Fits s) :
    ∃ r a' s', s.insertNode a hashv v = .ok (r, a', s') ∧
      s'.nBuckets.toNat = (Op.insertNode hashv v).slotsAfter s ∧ (Op.insertNode hashv v).WordsExact s := by
  simp only [Op.Fits, Op.slotsAfter, Op.WordsExact] at hfits ⊢
  by_cases hold : s.Holds s.nodes hashv
  · obtain ⟨a', s', l', -, hnb, hrun⟩ := insertNode_held hi hh (hi.nodes_eq ▸ hold) a v
    refine ⟨_, a', s', hrun, ?_, fun habs => absurd hold habs⟩
    rw [hnb, if_neg fun h => h.1 hold]
  · obtain ⟨hprod, hgrow⟩ := hfits hold
    obtain ⟨a₂, s₂, l₂, hadd, hnb, hmax, hitems, hsteps, hrun⟩ :=
      insertNode_absent hi hh (hi.nodes_eq ▸ hold) a v
    have hcount := hadd.countP_lt hi hitems
    have hlen : s.newLength hashv ≤ 2 ^ 31 := by
      have := bucketItems_length_le s l (hashv % s.nBuckets)
      rw [newLength, hi.nodes_eq]
      omega
    have hiff : s₂.Expands a₂ ↔ s.Grows hashv := by
      refine expands_iff hnb hmax hitems (by rw [hi.nItems_toNat]; exact hcount) ?_ hlen hprod
      rw [hsteps, newLength, hi.nodes_eq]
    have hwords : s.maxBucketLength.toNat < s.newLength hashv →
        (s.maxBucketLength * 2).toNat = 2 * s.maxBucketLength.toNat ∧
        (s.Compares hashv → (s.maxBucketLength * s.nBuckets).toNat = s.maxBucketLength.toNat * s.nBuckets.toNat) ∧
        (s.Grows hashv → (s.nBuckets * 2).toNat = 2 * s.nBuckets.toNat) := fun hlong =>
      ⟨toNat_mul_two (by omega), fun h => toNat_mul_of_lt (hprod h), fun h => toNat_mul_two (hgrow h)⟩
    rcases expansionCheck_spec hadd.inv a₂ hashv with ⟨a', s', l', h, -, hyes, hno⟩ | ⟨hex, hfull, -⟩
    · refine ⟨true, a'.zap, s', by rw [hrun, h]; rfl, ?_, fun _ => hwords⟩
      by_cases hg : s.Grows hashv
      · obtain ⟨hlt, hn⟩ := hyes (hiff.mpr hg)
        rw [hn, toNat_mul_two hlt, hnb, if_pos ⟨hold, hg⟩]
      · rw [hno fun h => hg (hiff.mp h), hnb, if_neg fun h => hg h.2]
    · have hlt := hgrow (hiff.mp hex)
      rw [hnb] at hfull
      omega

end Solist

/-- One call that fits returns, with as many slots as exact arithmetic says. -/
theorem call_slots {s : Session T} {l : List Addr} (hi : s.list.Inv l []) (i : Nat) {op : Op T} (hv : op.Valid s.list)
    (hfits : op.Fits s.list) :
    ∃ r s', s.call i op = .ok (r, s') ∧ s'.list.nBuckets.toNat = op.slotsAfter s.list ∧ op.WordsExact s.list := by
  cases op with
  | insertNode h v =>
    obtain ⟨r, a', s', hcall, hn, hw⟩ := Solist.insertNode_slots hi hv (s.accessor i) v hfits
    exact ⟨.bool r, s.after i a' s', by simp only [Session.call, hcall, bind_ok], hn, hw⟩
  | deleteNode h =>
    obtain ⟨a', s', l', hnb, ⟨-, -, hcall⟩ | ⟨n, -, hcall⟩⟩ := Solist.deleteNode_spec hi hv (s.accessor i)
    · exact ⟨.bool false, s.after i a' s', by simp only [Session.call, hcall, bind_ok], congrArg _ hnb, trivial⟩
    · exact ⟨.bool true, s.after i a' s', by simp only [Session.call, hcall, bind_ok], congrArg _ hnb, trivial⟩
  | findItemNode h =>
    obtain ⟨a', s', l', r, -, hnb, hcall, -⟩ := Solist.findItemNode_spec hi hv (s.accessor i)
    exact ⟨.item r, s.after i a' s', by simp only [Session.call, hcall, bind_ok], congrArg _ hnb, trivial⟩
  | initialiseBucket slot =>
    obtain ⟨a', s', l', hcall, -, hnb, -⟩ := Solist.initialiseBucket_spec hi hv (s.accessor i)
    exact ⟨.unit, s.after i a' s', by simp only [Session.call, hcall, bind_ok], congrArg _ hnb, trivial⟩

/-- The slots never get fewer. -/
theorem Op.le_slotsAfter (s : Solist T) (op : Op T) : s.nBuckets.toNat ≤ op.slotsAfter s := by
  cases op with
  | insertNode h v =>
    simp only [slotsAfter]
    by_cases hg : ¬ s.Holds s.nodes h ∧ s.Grows h
    · rw [if_pos hg]
      omega
    · rw [if_neg hg]
  | deleteNode h => exact Nat.le_refl _
  | findItemNode h => exact Nat.le_refl _
  | initialiseBucket slot => exact Nat.le_refl _

/-! ## Runs -/

/-- **In a run whose calls all fit the table grows as exact integers say.**
The counter is exact, the table is never smaller than at first, and the next
call that fits returns, with the words it used exact. -/
theorem resize_exact (T : Type) (size bucketLength : Hash) (hsize : ∃ k, size.toNat = 2 ^ k) :
    ∀ (s : Session T) (hist : List (Record T)),
      (sessions T size bucketLength).ReachableBy (fun s e => e.2.Fits s.1.list) (s, hist) →
      (∃ k, s.list.nBuckets.toNat = 2 ^ k) ∧ size.toNat ≤ s.list.nBuckets.toNat ∧
      s.list.nItems.toNat = s.list.nodes.countP s.list.heap.isData ∧
      ∀ i (op : Op T), op.Valid s.list → op.Fits s.list →
        ∃ r s', s.call i op = .ok (r, s') ∧ s'.list.nBuckets.toNat = op.slotsAfter s.list ∧ op.WordsExact s.list := by
  intro s hist h
  obtain ⟨k, hk31, hk⟩ := Solist.two_pow_le hsize
  have hrep : ∀ {x : Session T × List (Record T)}, (sessions T size bucketLength).Reachable x →
      ∃ l, x.1.list.Inv l [] :=
    fun hx => by
      obtain ⟨m, l, -, hr⟩ := sessions_represents ⟨k, hk31, hk⟩ hx
      exact ⟨l, hr.inv⟩
  obtain ⟨l, hi⟩ := hrep h.reachable
  obtain ⟨j, -, hj⟩ := hi.nBuckets
  refine ⟨⟨j, hj⟩, ?_, by rw [hi.nodes_eq, hi.nItems_toNat], fun i op hv hfits => call_slots hi i hv hfits⟩
  clear hi hj
  suffices hle : ∀ x : Session T × List (Record T),
      (sessions T size bucketLength).ReachableBy (fun s e => e.2.Fits s.1.list) x →
      size.toNat ≤ x.1.list.nBuckets.toNat from hle _ h
  intro x hx
  induction hx with
  | init hs =>
    obtain ⟨list, hlist, rfl⟩ := hs
    obtain ⟨list', hlist', hn, -⟩ := Solist.create_ok (T := T) size bucketLength (by rw [hk]; exact Nat.two_pow_pos k)
    rw [hlist'] at hlist
    cases hlist
    rw [hn]
  | @step s e s' hr hok hn ih =>
    obtain ⟨l, hi⟩ := hrep hr.reachable
    simp only [sessions] at hn
    split at hn
    · rename_i hv
      obtain ⟨r, s₁, hcall, hslots, -⟩ := call_slots hi e.1 hv hok
      rw [hcall] at hn
      cases hn
      exact Nat.le_trans ih (hslots ▸ Op.le_slotsAfter s.1.list e.2)
    · cases hn

/-- A run of two inserts into one bucket, the second of which grows the table. -/
theorem resize_exact_two :
    ∃ s hist, (sessions Nat 2 1).ReachableBy (fun s e => e.2.Fits s.1.list) (s, hist) ∧
      hist.map Record.op = [.insertNode 1 7, .insertNode 3 8] ∧ s.list.nBuckets = 4 ∧
      s.list.nItems.toNat = s.list.nodes.countP s.list.heap.isData := by
  obtain ⟨list, hlist, -⟩ := Solist.create_ok (T := Nat) 2 1 (by decide)
  let check : Session Nat × List (Record Nat) → Nat × Op Nat → Bool := fun s e => decide (e.2.Fits s.1.list)
  have hsome : ((sessions Nat 2 1).runIf check ({ list }, []) [(0, .insertNode 1 7), (1, .insertNode 3 8)]).map
      (fun x => (x.1.list.nBuckets, x.2.map Record.op)) = some (4, [.insertNode 1 7, .insertNode 3 8]) := by
    cases hlist
    decide +kernel
  obtain ⟨⟨s, hist⟩, hrun, hx⟩ := Option.map_eq_some_iff.mp hsome
  have hreach : (sessions Nat 2 1).ReachableBy (fun s e => e.2.Fits s.1.list) (s, hist) :=
    System.runIf_reachableBy (fun s e h => of_decide_eq_true h) (.init ⟨list, hlist, rfl⟩) hrun
  exact ⟨s, hist, hreach, congrArg Prod.snd hx, congrArg Prod.fst hx,
    (resize_exact Nat 2 1 ⟨1, rfl⟩ s hist hreach).2.2.1⟩

/-- **The doubled size wraps.** On `2 ^ 31` slots with a bucket length of
zero the first insert copies the table into an array of none. -/
theorem doubling_wraps :
    ∃ list : Solist Nat, Solist.create 0x80000000 0 = .ok list ∧ (Op.insertNode 0 7).Valid list ∧ list.Grows 0 ∧
      list.nBuckets * 2 = 0 ∧ Session.call { list } 0 (.insertNode 0 7) = .error .copyOutOfBounds := by
  obtain ⟨list, hlist, hr⟩ := create_spec (T := Nat) 0x80000000 0 ⟨31, by decide, by decide⟩
  obtain ⟨list', hlist', hn, hmax, -⟩ := Solist.create_ok (T := Nat) 0x80000000 0 (by decide)
  cases hlist.symm.trans hlist'
  have hi := hr.inv
  have habs : ¬ list.Holds [0] 0 := hr.not_holds_iff.mpr rfl
  have hempty : [0].countP list.heap.isData = 0 := by
    obtain ⟨b, hb⟩ := hi.first
    obtain ⟨hb0, hd, -⟩ := hi.slot 0 b hb
    rw [List.mem_singleton.mp hb0] at hd
    simp [hd]
  have hlen : (list.bucketItems [0] (0 % list.nBuckets)).length = 0 := by
    have hle := Solist.bucketItems_length_le list [0] (0 % list.nBuckets)
    rw [hempty] at hle
    exact Nat.le_zero.mp hle
  refine ⟨list, hlist, Nat.two_pow_pos 31, ⟨by rw [hmax]; exact Nat.zero_lt_succ _, .inl ?_⟩, by rw [hn]; decide, ?_⟩
  · rw [hmax]
    exact Nat.zero_le _
  · obtain ⟨a₂, s₂, l₂, hadd, hnb, hmax₂, -, hsteps, hrun⟩ := Solist.insertNode_absent hi (by decide) habs {} 7
    have hone : a₂.steps = 1 := by
      rw [hsteps, hlen]
      rfl
    have hex : s₂.Expands a₂ := by
      unfold Solist.Expands
      rw [hone, hmax₂, hmax]
      exact ⟨by decide, .inl (by decide)⟩
    rcases Solist.expansionCheck_spec hadd.inv a₂ 0 with ⟨_, _, _, -, -, hyes, -⟩ | ⟨-, -, h⟩
    · have hlt := (hyes hex).1
      rw [hnb, hn] at hlt
      exact absurd hlt (by decide)
    · simp only [Session.call]
      rw [hrun, h]
      rfl

end SplitOrder
