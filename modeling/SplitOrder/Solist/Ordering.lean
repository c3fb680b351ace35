/-
What the keys are for.

The first part is about the reversal: bit by bit, and against the classic
version that stands beside Knuth's in the source. The second is the split
ordering: the node keys of the hashes of one bucket are those in an
interval that starts at the bucket's key, and twice as many buckets halve
each interval at the key of the new bucket.
-/
import Mathlib.Order.Bounds.Defs
import SplitOrder.Solist.Key

namespace SplitOrder

/-! ## The classic reversal -/

/-- One round of the classic reversal: the fields `m` selects come from `n` above, the others from `n` below. -/
def brevFields (a m : Hash) (n : Nat) : Hash := ((a >>> n) &&& m) ||| ((a <<< n) &&& ~~~m)

def brevClassic (a : Hash) : Hash :=
  let a := (a >>> 16) ||| (a <<< 16)
  let m : Hash := 0x00ff00ff
  let a := brevFields a m 8
  let m := m ^^^ (m <<< 4)
  let a := brevFields a m 4
  let m := m ^^^ (m <<< 2)
  let a := brevFields a m 2
  let m := m ^^^ (m <<< 1)
  brevFields a m 1

/-- Where bit `i` of a round's result comes from. -/
def fieldIndex (m : Hash) (n i : Nat) : Nat := if m.getLsbD i then i + n else i - n

/-- The mask leaves no bit at the edge: what it selects has a bit `n` above, the rest one `n` below. -/
def MaskFits (m : Hash) (n : Nat) : Prop := ∀ i < 32, if m.getLsbD i then i + n < 32 else n ≤ i

instance (m : Hash) (n : Nat) : Decidable (MaskFits m n) := inferInstanceAs (Decidable (∀ i < 32, _))

theorem fieldIndex_lt {m : Hash} {n i : Nat} (h : MaskFits m n) (hi : i < 32) : fieldIndex m n i < 32 := by
  have hfit := h i hi
  unfold fieldIndex
  split
  · rwa [if_pos ‹_›] at hfit
  · omega

theorem brevFields_getLsbD {a m : Hash} {n i : Nat} (h : MaskFits m n) (hi : i < 32) :
    (brevFields a m n).getLsbD i = a.getLsbD (fieldIndex m n i) := by
  have hfit := h i hi
  simp only [brevFields, BitVec.getLsbD_or, BitVec.getLsbD_and, BitVec.getLsbD_ushiftRight, BitVec.getLsbD_shiftLeft,
    BitVec.getLsbD_not, hi, decide_true, Bool.true_and, fieldIndex]
  cases hm : m.getLsbD i with
  | true => simp [Nat.add_comm n i]
  | false =>
    rw [hm] at hfit
    have hle : ¬ i < n := Nat.not_lt.mpr hfit
    simp [hle]

theorem halfwords_getLsbD {a : Hash} {i : Nat} (hi : i < 32) :
    ((a >>> 16) ||| (a <<< 16)).getLsbD i = a.getLsbD ((i + 16) % 32) := by
  simp only [BitVec.getLsbD_or, BitVec.getLsbD_shiftLeft, BitVec.getLsbD_ushiftRight, hi, decide_true, Bool.true_and]
  by_cases h : i < 16
  · rw [Nat.mod_eq_of_lt (by omega)]
    simp [h, Nat.add_comm]
  · rw [show (i + 16) % 32 = i - 16 by omega, BitVec.getLsbD_of_ge a (16 + i) (by omega)]
    simp [h]

theorem brevClassic_eq (a : Hash) : brevClassic a = a.reverse := by
  have hfit₈ : MaskFits 0x00ff00ff 8 := by decide
  have hfit₄ : MaskFits 0x0f0f0f0f 4 := by decide
  have hfit₂ : MaskFits 0x33333333 2 := by decide
  have hfit₁ : MaskFits 0x55555555 1 := by decide
  have hperm : ∀ i < 32, (fieldIndex 0x00ff00ff 8 (fieldIndex 0x0f0f0f0f 4 (fieldIndex 0x33333333 2
      (fieldIndex 0x55555555 1 i))) + 16) % 32 = 31 - i := by decide
  refine BitVec.eq_of_getLsbD_eq fun i hi => ?_
  have h₁ := fieldIndex_lt hfit₁ hi
  have h₂ := fieldIndex_lt hfit₂ h₁
  have h₄ := fieldIndex_lt hfit₄ h₂
  have h₈ := fieldIndex_lt hfit₈ h₄
  have hmask : brevClassic a = brevFields (brevFields (brevFields (brevFields ((a >>> 16) ||| (a <<< 16))
      0x00ff00ff 8) 0x0f0f0f0f 4) 0x33333333 2) 0x55555555 1 := rfl
  rw [hmask, brevFields_getLsbD hfit₁ hi, brevFields_getLsbD hfit₂ h₁, brevFields_getLsbD hfit₄ h₂,
    brevFields_getLsbD hfit₈ h₄, halfwords_getLsbD h₈, hperm i hi, reverse_getLsbD hi]

/-- **The reversal**: bit `i` of the result is bit `31 - i` of the word, the
classic version gives the same, twice is the identity, and a bucket's key
is mapped back to its slot. -/
theorem reverseHashtBits_reverses (a : Hash) :
    (∀ i < 32, (reverseHashtBits a).getLsbD i = a.getLsbD (31 - i)) ∧ brevKnuth a = brevClassic a ∧
      brevKnuth (brevKnuth a) = a ∧ ∀ key, solBucketKey a = .ok key → reverseHashtBits key = a := by
  refine ⟨fun i hi => ?_, ?_, reverseHashtBits_reverseHashtBits a, fun key hkey => ?_⟩
  · rw [reverseHashtBits_eq, reverse_getLsbD hi]
  · rw [brevClassic_eq]
    exact reverseHashtBits_eq a
  · obtain ⟨-, rfl⟩ := solBucketKey_eq_ok_iff.mp hkey
    exact reverseHashtBits_reverseHashtBits a

/-! ## Split ordering -/

section Ordering

variable {n s h : Hash} {k : Nat}

/-- The multiples of `d` that are no more than `x` are those no more than another multiple, if the two
have the same quotient. -/
theorem le_iff_of_div_eq {d x y z : Nat} (hd : 0 < d) (hy : d ∣ y) (hz : d ∣ z) (hdiv : x / d = y / d) :
    z ≤ x ↔ z ≤ y := by
  obtain ⟨q, rfl⟩ := hy
  obtain ⟨r, rfl⟩ := hz
  rw [Nat.mul_div_cancel_left _ hd] at hdiv
  rw [← hdiv, Nat.mul_comm d r, ← Nat.le_div_iff_mul_le hd, Nat.mul_comm, Nat.mul_le_mul_left_iff hd]

theorem umod_toNat (hn : n.toNat = 2 ^ k) : (h % n).toNat = h.toNat % 2 ^ k := by rw [BitVec.toNat_umod, hn]

theorem umod_lt_pow (hn : n.toNat = 2 ^ k) : (h % n).toNat < 2 ^ k := by
  rw [umod_toNat hn]
  exact Nat.mod_lt _ (Nat.two_pow_pos k)

/-- The key of a word and of its bucket agree above the step between bucket keys. -/
theorem key_div_step (hn : n.toNat = 2 ^ k) (hk31 : k ≤ 31) :
    (reverseHashtBits h).toNat / 2 ^ (32 - k) = (reverseHashtBits (h % n)).toNat / 2 ^ (32 - k) := by
  rw [reverseHashtBits_eq, reverseHashtBits_eq]
  exact reverse_div_of_mod (by omega) (umod_toNat hn)

/-- The buckets with a key up to a word's are those with a key up to its bucket's. -/
theorem bucketKey_le_iff (hn : n.toNat = 2 ^ k) (hk31 : k ≤ 31) (hs : s.toNat < 2 ^ k) :
    (reverseHashtBits s).toNat ≤ (reverseHashtBits h).toNat ↔
      (reverseHashtBits s).toNat ≤ (reverseHashtBits (h % n)).toNat :=
  le_iff_of_div_eq (Nat.two_pow_pos _) ((step_dvd_iff hk31).mpr (umod_lt_pow hn)) ((step_dvd_iff hk31).mpr hs)
    (key_div_step hn hk31)

theorem bucketKey_lt_nodeKey_iff (hn : n.toNat = 2 ^ k) (hk31 : k ≤ 31) (hs : s.toNat < 2 ^ k) (hh : h.toNat < 2 ^ 31) :
    reverseHashtBits s < solNodeKey h ↔ reverseHashtBits s ≤ reverseHashtBits (h % n) := by
  rw [BitVec.lt_def, BitVec.le_def, solNodeKey_toNat hh, Nat.lt_succ_iff]
  exact bucketKey_le_iff hn hk31 hs

/-- A word belongs to the bucket whose key its own exceeds by less than a step. -/
theorem umod_eq_iff (hn : n.toNat = 2 ^ k) (hk31 : k ≤ 31) (hs : s.toNat < 2 ^ k) :
    h % n = s ↔ (reverseHashtBits s).toNat ≤ (reverseHashtBits h).toNat ∧
      (reverseHashtBits h).toNat < (reverseHashtBits s).toNat + 2 ^ (32 - k) := by
  have hpos : 0 < 2 ^ (32 - k) := Nat.two_pow_pos _
  have hdiv := key_div_step (h := h) hn hk31
  obtain ⟨q, hq⟩ := (step_dvd_iff hk31).mpr hs
  obtain ⟨r, hr⟩ := (step_dvd_iff hk31).mpr (umod_lt_pow (h := h) hn)
  have hsum := Nat.div_add_mod (reverseHashtBits h).toNat (2 ^ (32 - k))
  have hlt := Nat.mod_lt (reverseHashtBits h).toNat hpos
  rw [hr, Nat.mul_div_cancel_left _ hpos] at hdiv
  rw [hdiv] at hsum
  constructor
  · intro he
    rw [he] at hr
    omega
  · rintro ⟨hle, hlt'⟩
    have hqr : q = r := by
      rw [hq] at hle hlt'
      have h₁ : 2 ^ (32 - k) * q < 2 ^ (32 - k) * (r + 1) := by
        rw [Nat.mul_succ]
        omega
      have h₂ : 2 ^ (32 - k) * r < 2 ^ (32 - k) * (q + 1) := by
        rw [Nat.mul_succ]
        omega
      have := Nat.lt_of_mul_lt_mul_left h₁
      have := Nat.lt_of_mul_lt_mul_left h₂
      omega
    exact reverseHashtBits_inj.mp (BitVec.eq_of_toNat_eq (by rw [hr, hq, hqr]))

/-- A search does not leave the bucket: the key of a hash is less than a step
above the key of its bucket. -/
theorem solNodeKey_lt_bucket_add (hn : n.toNat = 2 ^ k) (hk31 : k ≤ 31) (hh : h.toNat < 2 ^ 31) :
    (solNodeKey h).toNat < (reverseHashtBits (h % n)).toNat + 2 ^ (32 - k) := by
  have hlt := ((umod_eq_iff hn hk31 (umod_lt_pow (h := h) hn)).mp rfl).2
  -- bucket keys and the step are even
  have hstep : 2 ∣ 2 ^ (32 - k) := dvd_pow_self 2 (by omega)
  obtain ⟨q, hq⟩ := reverseHashtBits_even_iff.mpr hh
  obtain ⟨r, hr⟩ := hstep.trans ((step_dvd_iff hk31).mpr (umod_lt_pow (h := h) hn))
  obtain ⟨j, hj⟩ := hstep
  rw [solNodeKey_toNat hh]
  omega

/-- **The new bucket halves the step.** -/
theorem bucketKey_add (hn : n.toNat = 2 ^ k) (hk30 : k ≤ 30) (hs : s.toNat < 2 ^ k) :
    (s + n).toNat = s.toNat + 2 ^ k ∧ (reverseHashtBits (s + n)).toNat = (reverseHashtBits s).toNat + 2 ^ (31 - k) := by
  have hpow : 2 ^ k ≤ 2 ^ 30 := Nat.pow_le_pow_right (by omega) hk30
  have hadd : (s + n).toNat = s.toNat + 2 ^ k := by
    rw [BitVec.toNat_add, hn]
    exact Nat.mod_eq_of_lt (by omega)
  refine ⟨hadd, ?_⟩
  have hmod : (s + n) % n = s := by
    refine BitVec.eq_of_toNat_eq ?_
    rw [umod_toNat hn, hadd, Nat.add_mod_right, Nat.mod_eq_of_lt hs]
  obtain ⟨hle, hlt⟩ := (umod_eq_iff hn (by omega) hs).mp hmod
  have hnext : (s + n).toNat < 2 ^ (k + 1) := by
    rw [hadd, pow_succ]
    omega
  obtain ⟨q, hq⟩ := (step_dvd_iff (k := k) (by omega)).mpr hs
  obtain ⟨r, hr⟩ := (step_dvd_iff (k := k + 1) (by omega)).mpr hnext
  have hne : (reverseHashtBits (s + n)).toNat ≠ (reverseHashtBits s).toNat := fun he => by
    have hse := congrArg BitVec.toNat (reverseHashtBits_inj.mp (BitVec.eq_of_toNat_eq he))
    have := Nat.two_pow_pos k
    omega
  -- a multiple of the half step, above the bucket's key and less than a step from it
  have hstep : 2 ^ (32 - k) = 2 ^ (31 - k) * 2 := by rw [show 32 - k = 31 - k + 1 by omega, pow_succ]
  rw [show 32 - (k + 1) = 31 - k by omega] at hr
  rw [hstep, Nat.mul_assoc] at hq
  rw [hr, hq] at hle hlt hne ⊢
  rw [hstep] at hlt
  have hr' : r = 2 * q + 1 := by
    have hpos : 0 < 2 ^ (31 - k) := Nat.two_pow_pos _
    have h₁ : 2 * q ≤ r := Nat.le_of_mul_le_mul_left hle hpos
    have h₂ : r < 2 * q + 2 := Nat.lt_of_mul_lt_mul_left (a := 2 ^ (31 - k)) (by rw [Nat.mul_add]; exact hlt)
    have h₃ : r ≠ 2 * q := fun he => hne (by rw [he])
    omega
  rw [hr', Nat.mul_succ]

/-- The node keys of a bucket's hashes are those in the step above its key. -/
theorem umod_eq_iff_nodeKey (hn : n.toNat = 2 ^ k) (hk31 : k ≤ 31) (hs : s.toNat < 2 ^ k) (hh : h.toNat < 2 ^ 31) :
    h % n = s ↔ reverseHashtBits s < solNodeKey h ∧
      (solNodeKey h).toNat < (reverseHashtBits s).toNat + 2 ^ (32 - k) := by
  constructor
  · rintro rfl
    exact ⟨solBucketKey_lt_solNodeKey hn hh, solNodeKey_lt_bucket_add hn hk31 hh⟩
  · rintro ⟨hlt, hlt'⟩
    rw [BitVec.lt_def, solNodeKey_toNat hh] at hlt
    rw [solNodeKey_toNat hh] at hlt'
    exact (umod_eq_iff hn hk31 hs).mpr ⟨by omega, by omega⟩

/-- Doubling cuts the node keys of a bucket at the key of the new one. -/
theorem umod_double_iff (hn : n.toNat = 2 ^ k) (hk30 : k ≤ 30) (hs : s.toNat < 2 ^ k) (hh : h.toNat < 2 ^ 31) :
    (h % (2 * n) = s ↔ reverseHashtBits s < solNodeKey h ∧ solNodeKey h < reverseHashtBits (s + n)) ∧
      (h % (2 * n) = s + n ↔ reverseHashtBits (s + n) < solNodeKey h ∧
        (solNodeKey h).toNat < (reverseHashtBits s).toNat + 2 ^ (32 - k)) := by
  obtain ⟨hadd, hkey⟩ := bucketKey_add hn hk30 hs
  have hpow : 2 ^ k ≤ 2 ^ 30 := Nat.pow_le_pow_right (by omega) hk30
  have hdouble : (2 * n).toNat = 2 ^ (k + 1) := by
    rw [BitVec.toNat_mul, hn, pow_succ, Nat.mul_comm]
    exact Nat.mod_eq_of_lt (by change 2 ^ k * 2 < 2 ^ 32; omega)
  have hstep : 2 ^ (32 - k) = 2 ^ (31 - k) + 2 ^ (31 - k) := by
    rw [show 32 - k = 31 - k + 1 by omega, pow_succ, Nat.mul_two]
  have hlow : s.toNat < 2 ^ (k + 1) := by
    rw [pow_succ]
    omega
  have hhigh : (s + n).toNat < 2 ^ (k + 1) := by
    rw [hadd, pow_succ]
    omega
  rw [umod_eq_iff_nodeKey hdouble (by omega) hlow hh, umod_eq_iff_nodeKey hdouble (by omega) hhigh hh,
    show 32 - (k + 1) = 31 - k by omega, BitVec.lt_def (y := reverseHashtBits (s + n)), hkey, hstep, Nat.add_assoc]
  exact ⟨Iff.rfl, Iff.rfl⟩

/-- **Split ordering.** With `2 ^ k` buckets: a bucket's key is below a
hash's node key just when it is at most that of the hash's own bucket, which
so has the largest key below; the node keys of a bucket are those in an
interval, and doubling cuts the interval at the key of the new bucket. Node
keys are distinct, and none is a bucket's. -/
theorem split_ordering (hn : n.toNat = 2 ^ k) (hk31 : k ≤ 31) (hs : s < n) (hh : h.toNat < 2 ^ 31) :
    ∃ bs bh, solBucketKey s = .ok bs ∧ solBucketKey (h % n) = .ok bh ∧
      (bs < solNodeKey h ↔ bs ≤ bh) ∧
      IsGreatest {b | (∃ t, t < n ∧ solBucketKey t = .ok b) ∧ b < solNodeKey h} bh ∧
      (h % n = s ↔ bs < solNodeKey h ∧ (solNodeKey h).toNat < bs.toNat + 2 ^ (32 - k)) ∧
      (k ≤ 30 → ∃ bd, solBucketKey (s + n) = .ok bd ∧ (h % n = s → (solNodeKey h < bd ↔ h % (2 * n) = s)) ∧
        (h % (2 * n) = s ↔ bs < solNodeKey h ∧ solNodeKey h < bd) ∧
        (h % (2 * n) = s + n ↔ bd < solNodeKey h ∧ (solNodeKey h).toNat < bs.toNat + 2 ^ (32 - k))) ∧
      (∀ h' : Hash, h'.toNat < 2 ^ 31 → solNodeKey h = solNodeKey h' → h = h') ∧
      ∀ t b, solBucketKey t = .ok b → solNodeKey h ≠ b := by
  have hpow : 2 ^ k ≤ 2 ^ 31 := Nat.pow_le_pow_right (by omega) hk31
  have hlow : ∀ {t : Hash}, t < n → t.toNat < 2 ^ k := fun ht => hn ▸ BitVec.lt_def.mp ht
  have hmod : h % n < n := by
    rw [BitVec.lt_def, hn]
    exact umod_lt_pow hn
  have hs' := hlow hs
  have hmod' := hlow hmod
  refine ⟨_, _, solBucketKey_ok (by omega), solBucketKey_ok (by omega), bucketKey_lt_nodeKey_iff hn hk31 hs' hh,
    ⟨⟨⟨_, hmod, solBucketKey_ok (by omega)⟩, solBucketKey_lt_solNodeKey hn hh⟩, ?_⟩,
    umod_eq_iff_nodeKey hn hk31 hs' hh, fun hk30 => ?_, fun h' hh' => (solNodeKey_inj hh hh').mp, fun t b hb => ?_⟩
  · rintro b ⟨⟨t, ht, hb⟩, hlt⟩
    obtain ⟨-, rfl⟩ := solBucketKey_eq_ok_iff.mp hb
    exact (bucketKey_lt_nodeKey_iff hn hk31 (hlow ht) hh).mp hlt
  · have hpow' : 2 ^ k ≤ 2 ^ 30 := Nat.pow_le_pow_right (by omega) hk30
    obtain ⟨hbelow, habove⟩ := umod_double_iff hn hk30 hs' hh
    have hadd := (bucketKey_add hn hk30 hs').1
    refine ⟨_, solBucketKey_ok (by omega), fun he => ?_, hbelow, habove⟩
    have hlt := ((umod_eq_iff_nodeKey hn hk31 hs' hh).mp he).1
    exact ⟨fun hlt' => hbelow.mpr ⟨hlt, hlt'⟩, fun he => (hbelow.mp he).2⟩
  · obtain ⟨ht, rfl⟩ := solBucketKey_eq_ok_iff.mp hb
    exact solNodeKey_ne ht

/-- Hash 6 among four buckets, and among eight. -/
theorem split_ordering_six :
    ∃ bs bh, solBucketKey 2 = .ok bs ∧ solBucketKey (6 % 4) = .ok bh ∧ (bs < solNodeKey 6 ↔ bs ≤ bh) ∧
      ∃ bd, solBucketKey (2 + 4) = .ok bd ∧ ((6 : Hash) % (2 * 4) = 2 + 4 ↔
        bd < solNodeKey 6 ∧ (solNodeKey 6).toNat < bs.toNat + 2 ^ (32 - 2)) := by
  obtain ⟨bs, bh, hbs, hbh, hiff, -, -, hdouble, -⟩ :=
    split_ordering (n := 4) (s := 2) (h := 6) (k := 2) (by decide) (by decide) (by decide) (by decide)
  obtain ⟨bd, hbd, -, -, habove⟩ := hdouble (by decide)
  exact ⟨bs, bh, hbs, hbh, hiff, bd, hbd, habove⟩

end Ordering

end SplitOrder
