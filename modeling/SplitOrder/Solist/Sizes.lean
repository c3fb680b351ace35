/-
The sizes a list can be made with.

The constructors take any size; the search for a parent bucket is right
for powers of two alone. Its step is the key of slot `n_buckets / 2`, so
from a key that is no multiple of the step's power of two it meets neither
a slot that is set nor key zero, and leaves the array or never ends
(`parentSlot_stuck`). A size between two powers of two has such a slot, the
lower of the two, from its first call on.
-/
import SplitOrder.Solist.FiniteMap

namespace SplitOrder

open Heap

variable {T : Type}

/-- A list of this size keeps what its calls promise while the table has at
most `2 ^ 31` slots: the results are those of a map, and a valid call
returns, unless it is an insert that takes the table past that. -/
def Dependable (T : Type) (size bucketLength : Hash) : Prop :=
  ∀ (s : Session T) (hist : List (Record T)), (sessions T size bucketLength).Reachable (s, hist) →
    s.list.nBuckets.toNat ≤ 2 ^ 31 →
    hist.map Record.view = (specRun (hist.map Record.op)).1 ∧
    ∀ i (op : Op T), op.Valid s.list →
      (∃ r s', s.call i op = .ok (r, s')) ∨
        (2 ^ 31 < 2 * s.list.nBuckets.toNat ∧ (∃ h v, op = .insertNode h v) ∧
          s.call i op = .error .copyOutOfBounds)

namespace Solist

variable {s : Solist T} {slot step key : Hash}

/-- **The probing goes astray.** With no slot set but slot 0, a search from a
key that is no multiple of `d`, by steps that are, finds no parent. -/
theorem parentSlot_stuck {d : Nat} (hd : d ∣ 2 ^ 32) (hstep : d ∣ step.toNat)
    (hempty : ∀ i ≠ 0, ∀ b, s.buckets[i]? ≠ some (some b)) :
    ∀ (fuel : Nat) (pbKey : SoKey), ¬ d ∣ pbKey.toNat → ∃ e, s.parentSlot step fuel pbKey = .error e := by
  intro fuel
  induction fuel with
  | zero =>
    intro pbKey _
    exact ⟨_, rfl⟩
  | succ fuel ih =>
    intro pbKey hkey
    have hkey' : ¬ d ∣ (pbKey - step).toNat := by rwa [dvd_key_sub_iff hd hstep]
    -- the probed key is not zero, so the probed slot is not slot 0
    have hne : pbKey - step ≠ 0#32 := by
      intro h
      rw [h] at hkey'
      exact hkey' (Nat.dvd_zero d)
    have hslot : (reverseHashtBits (pbKey - step)).toNat ≠ 0 := by
      intro h
      have hz : reverseHashtBits (pbKey - step) = reverseHashtBits 0#32 := by
        rw [reverseHashtBits_zero]
        exact BitVec.eq_of_toNat_eq h
      exact hne (reverseHashtBits_inj.mp hz)
    unfold parentSlot
    cases hb : s.buckets[(reverseHashtBits (pbKey - step)).toNat]? with
    | none => exact ⟨.outOfBounds, by simp [bucket, hb]⟩
    | some b =>
      cases b with
      | some b => exact absurd hb (hempty _ hslot b)
      | none =>
        obtain ⟨e, he⟩ := ih _ hkey'
        exact ⟨e, by simpa [bucket, hb, hne] using he⟩

/-- A number that is not a power of two lies between two. -/
theorem exists_between {n : Nat} (hpos : 0 < n) (hn : ¬ ∃ k, n = 2 ^ k) : ∃ m, 2 ^ m < n ∧ n < 2 ^ (m + 1) := by
  have hle : 2 ^ n.log2 ≤ n := Nat.log2_self_le (Nat.ne_of_gt hpos)
  exact ⟨n.log2, Nat.lt_of_le_of_ne hle fun h => hn ⟨_, h.symm⟩, Nat.lt_log2_self⟩

/-- On a fresh list of such a size the bucket of the lower power of two cannot be initialised. -/
theorem initialiseBucket_stuck {m : Nat} (hm31 : m < 31) (hn : s.nBuckets.toNat < 2 ^ (m + 1))
    (hslot : slot.toNat = 2 ^ m) (hlt : slot < s.nBuckets) (hsize : s.buckets.length = s.nBuckets.toNat)
    (hempty : ∀ i ≠ 0, ∀ b, s.buckets[i]? ≠ some (some b)) (a : Accessor) :
    ∃ e, s.initialiseBucket a slot = .error e := by
  have hd : 2 ^ (32 - m) ∣ 2 ^ 32 := Nat.pow_dvd_pow 2 (by omega)
  have hslot31 : slot.toNat < 2 ^ 31 := by
    rw [hslot]
    exact Nat.pow_lt_pow_right (by omega) hm31
  have hnone : s.bucket slot = .ok none := by
    have hin : slot.toNat < s.buckets.length := by
      rw [hsize]
      exact hlt
    cases hb : s.buckets[slot.toNat]? with
    | none => simp [List.getElem?_eq_getElem hin] at hb
    | some b =>
      cases b with
      | none => simp [bucket, hb]
      | some b => exact absurd hb (hempty _ (by rw [hslot]; exact Nat.ne_of_gt (Nat.two_pow_pos m)) b)
  -- the step is a multiple of `2 ^ (32 - m)`, the slot's key is not
  have hhalf : (s.nBuckets / 2).toNat < 2 ^ m := by
    have h2 : (2 : Hash).toNat = 2 := rfl
    rw [BitVec.toNat_udiv, h2]
    rw [pow_succ] at hn
    omega
  have hhalf31 : (s.nBuckets / 2).toNat < 2 ^ 31 :=
    Nat.lt_trans hhalf (Nat.pow_lt_pow_right (by omega) hm31)
  have hstep : 2 ^ (32 - m) ∣ (reverseHashtBits (s.nBuckets / 2)).toNat := (step_dvd_iff (by omega)).mpr hhalf
  have hkey : ¬ 2 ^ (32 - m) ∣ (reverseHashtBits slot).toNat := by
    rw [step_dvd_iff (by omega), hslot]
    exact Nat.lt_irrefl _
  let s₁ : Solist T := { s with heap := s.heap.new { hashv := slot, key := reverseHashtBits slot, payload := none } }
  obtain ⟨e, he⟩ := parentSlot_stuck (s := s₁) hd hstep hempty (2 ^ 32) _ hkey
  have hparent : s₁.getParent a slot (reverseHashtBits slot) = .error e := by
    have hb : solBucketKey (s₁.nBuckets / 2) = .ok (reverseHashtBits (s.nBuckets / 2)) := solBucketKey_ok hhalf31
    rw [getParent, hb]
    simp only [bind_ok, he, bind_error]
  have hlink : linkDummy slot (reverseHashtBits slot) s.heap.size s.fuel s₁ a = .error e := by
    rw [fuel, linkDummy, hparent, bind_error]
  refine ⟨e, ?_⟩
  simp only [initialiseBucket, hlt, not_true_eq_false, if_false, hnone, bind_ok, Option.isSome_none,
    Bool.false_eq_true, solistBucket_ok hslot31]
  rw [hlink, bind_error]

end Solist

/-- A size between two powers of two fails at once. -/
theorem not_dependable {size bucketLength : Hash} (hpos : 0 < size) (hle : size.toNat ≤ 2 ^ 31)
    (hsize : ¬ ∃ k, size.toNat = 2 ^ k) : ¬ Dependable T size bucketLength := by
  intro h
  obtain ⟨m, hlt, hgt⟩ := Solist.exists_between hpos hsize
  have hm31 : m < 31 := (Nat.pow_lt_pow_iff_right (by omega)).mp (Nat.lt_of_lt_of_le hlt hle)
  obtain ⟨list, hlist, hn, -, hlen, hempty⟩ := Solist.create_ok (T := T) size bucketLength hpos
  have hslot : (BitVec.ofNat 32 (2 ^ m)).toNat = 2 ^ m := by
    rw [BitVec.toNat_ofNat]
    exact Nat.mod_eq_of_lt (by omega)
  have hvalid : BitVec.ofNat 32 (2 ^ m) < list.nBuckets := by
    rw [BitVec.lt_def, hslot, hn]
    exact hlt
  obtain ⟨e, he⟩ := Solist.initialiseBucket_stuck hm31 (by rw [hn]; exact hgt) hslot hvalid (by rw [hlen, hn]) hempty {}
  have hinit : (sessions T size bucketLength).init ({ list }, []) := ⟨list, hlist, rfl⟩
  obtain ⟨-, hcall⟩ := h _ _ (.init hinit) (by rw [hn]; exact hle)
  rcases hcall 0 (.initialiseBucket _) hvalid with ⟨r, s', hr⟩ | ⟨-, ⟨_, _, hop⟩, -⟩
  · simp only [Session.call, he, bind_error] at hr
    cases hr
  · cases hop

/-- **The powers of two are the sizes that work.** -/
theorem dependable_iff_powerOfTwo (T : Type) (size bucketLength : Hash) (hpos : 0 < size)
    (hle : size.toNat ≤ 2 ^ 31) : Dependable T size bucketLength ↔ ∃ k, size.toNat = 2 ^ k := by
  constructor
  · intro h
    by_contra hsize
    exact not_dependable hpos hle hsize h
  · rintro ⟨k, hk⟩ s hist hreach hn
    have hk31 : k ≤ 31 := (Nat.pow_le_pow_iff_right (by omega)).mp (hk ▸ hle)
    obtain ⟨-, hview, hcall⟩ := (solist_refines_map size bucketLength ⟨k, hk31, hk⟩).2 s hist hreach
    refine ⟨hview, fun i op hv => ?_⟩
    rcases hcall i op hv with hok | ⟨hfull, hop, hfault⟩
    · exact .inl hok
    · exact .inr ⟨by omega, hop, hfault⟩

theorem dependable_iff_powerOfTwo_four : Dependable Nat 4 4 :=
  (dependable_iff_powerOfTwo Nat 4 4 (by decide) (by decide)).mpr ⟨2, by decide⟩

/-- On three slots, `initialise_bucket(2)` probes slot 3. -/
theorem three_slots_out_of_bounds :
    ¬ Dependable Nat 3 4 ∧ ∃ list, Solist.create 3 4 = .ok list ∧ (Op.initialiseBucket (T := Nat) 2).Valid list ∧
      (Session.call (T := Nat) { list } 0 (.initialiseBucket 2)).map Prod.fst = .error .outOfBounds := by
  refine ⟨not_dependable (by decide) (by decide) ?_, ?_⟩
  · rintro ⟨k, hk⟩
    have hlt : 2 ^ 1 < 2 ^ k := hk ▸ by decide
    have hgt : 2 ^ k < 2 ^ 2 := hk ▸ by decide
    have h1 := (Nat.pow_lt_pow_iff_right (by omega)).mp hlt
    have h2 := (Nat.pow_lt_pow_iff_right (by omega)).mp hgt
    omega
  · exact ⟨_, rfl, by decide, by decide +kernel⟩

end SplitOrder
