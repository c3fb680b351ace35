/-
Hashes and split-order keys: `solist.cpp`'s bit reversal and the two key
functions of `solist.hpp`.

`reverseHashtBits` is Knuth's reversal, round by round; it is the bit
reversal of the word (`reverseHashtBits_eq`), and everything later is
derived from that. A node's key is odd and a bucket's is even, so the two
never meet, and a bucket's key is at most the key of every hash that falls
into it (`solBucketKey_lt_solNodeKey`): this is what lets a search start at
the bucket.
-/
import SplitOrder.Lib.BitReverse
import SplitOrder.Lib.Loops

namespace SplitOrder

/-- `hash_t` -/
abbrev Hash := BitVec 32

/-- `so_key` -/
abbrev SoKey := BitVec 32

/-- What ends a call other than its return: a failed `assert`, a null
dereference, a read of a deleted node, an index outside an array (in the
copy of `expand`, `copyOutOfBounds`). A loop
that does not end within the fuel it is given is `outOfFuel`. -/
inductive Fault
  | assertion
  | nullDeref
  | useAfterDelete
  | outOfBounds
  | copyOutOfBounds
  | outOfFuel
  deriving DecidableEq, Repr

def DATABIT : Hash := 1

/-- One round of Knuth's reversal: the fields under `m` change places with
those `n` above them. -/
def brevSwap (a m : Hash) (n : Nat) : Hash :=
  let t := (a ^^^ (a >>> n)) &&& m
  (t + (t <<< n)) ^^^ a

def brevKnuth (a : Hash) : Hash :=
  let a := (a <<< 15) ||| (a >>> 17)
  let a := brevSwap a 0x003f801f 10
  let a := brevSwap a 0x0e038421 4
  brevSwap a 0x22488842 2

def reverseHashtBits (hashv : Hash) : Hash := brevKnuth hashv

def solNodeKey (hashv : Hash) : SoKey := reverseHashtBits hashv ||| DATABIT

/-- The reserved bit of the reversed hash is asserted to be clear. -/
def solBucketKey (hashv : Hash) : Except Fault SoKey :=
  let bucketKey := reverseHashtBits hashv
  if 0 = bucketKey &&& DATABIT then .ok bucketKey else .error .assertion

/-! ## The reversal -/

/-- The fields under a mask and those `n` above them do not overlap, so the
addition of a round carries nothing. -/
theorem add_shiftLeft_of_mask {a m : Hash} {n : Nat} (h : m &&& (m <<< n) = 0) :
    (a &&& m) + ((a &&& m) <<< n) = (a &&& m) ||| ((a &&& m) <<< n) := by
  apply BitVec.add_eq_or_of_and_eq_zero
  ext i hi
  have hb := congrArg (fun x => x[i]) h
  simp only [BitVec.getElem_and, BitVec.getElem_shiftLeft, BitVec.getElem_zero] at hb ⊢
  by_cases hin : i < n
  · simp [hin]
  · simp only [hin] at hb ⊢
    cases hm : m[i] <;> simp_all

/-- Where bit `i` of a round's result comes from: a bit under the mask takes
the one `n` above it, which takes that bit in return. -/
def swapIndex (m : Hash) (n i : Nat) : Nat :=
  if m.getLsbD i then i + n else if n ≤ i ∧ m.getLsbD (i - n) then i - n else i

theorem brevSwap_getLsbD {a m : Hash} {n i : Nat} (h : m &&& (m <<< n) = 0) (hi : i < 32) :
    (brevSwap a m n).getLsbD i = a.getLsbD (swapIndex m n i) := by
  have hb := congrArg (fun x => x.getLsbD i) h
  simp only [BitVec.getLsbD_and, BitVec.getLsbD_shiftLeft, hi, decide_true, Bool.true_and] at hb
  simp only [brevSwap, add_shiftLeft_of_mask h, BitVec.getLsbD_xor, BitVec.getLsbD_or, BitVec.getLsbD_and,
    BitVec.getLsbD_shiftLeft, BitVec.getLsbD_ushiftRight, hi, decide_true, Bool.true_and, swapIndex]
  by_cases hn : i < n
  · have hle : ¬ n ≤ i := by omega
    cases m.getLsbD i
    · simp [hn, hle]
    · simp only [hn, hle, Bool.xor_comm, Nat.add_comm n i]
      cases a.getLsbD i <;> simp
  · have hle : n ≤ i := by omega
    simp only [hn, decide_false, Bool.not_false, Bool.true_and, hle, true_and,
      Nat.add_sub_cancel' hle, Nat.add_comm n i] at hb ⊢
    cases hm : m.getLsbD i <;> cases hm' : m.getLsbD (i - n) <;>
      simp only [hm, hm', Bool.and_self, Bool.and_false, Bool.and_true, Bool.false_or, Bool.or_false,
        Bool.false_eq_true, if_true, if_false, Bool.false_xor] at hb ⊢
    · cases a.getLsbD i <;> cases a.getLsbD (i - n) <;> rfl
    · cases a.getLsbD i <;> cases a.getLsbD (i + n) <;> rfl
    · simp at hb

theorem rotate_getLsbD {a : Hash} {i : Nat} (hi : i < 32) :
    ((a <<< 15) ||| (a >>> 17)).getLsbD i = a.getLsbD ((i + 17) % 32) := by
  simp only [BitVec.getLsbD_or, BitVec.getLsbD_shiftLeft, BitVec.getLsbD_ushiftRight, hi, decide_true, Bool.true_and]
  by_cases h : i < 15
  · rw [Nat.mod_eq_of_lt (by omega)]
    simp [h, Nat.add_comm]
  · rw [show (i + 17) % 32 = i - 15 by omega, BitVec.getLsbD_of_ge a (17 + i) (by omega)]
    simp [h]

/-- **Bit `i` of the reversal is bit `31 - i` of the word.** -/
theorem reverseHashtBits_eq (a : Hash) : reverseHashtBits a = a.reverse := by
  have hlt₃ : ∀ i < 32, swapIndex 0x22488842 2 i < 32 := by decide
  have hlt₂ : ∀ i < 32, swapIndex 0x0e038421 4 i < 32 := by decide
  have hlt₁ : ∀ i < 32, swapIndex 0x003f801f 10 i < 32 := by decide
  have hperm : ∀ i < 32, (swapIndex 0x003f801f 10 (swapIndex 0x0e038421 4 (swapIndex 0x22488842 2 i)) + 17) % 32 =
      31 - i := by decide
  refine BitVec.eq_of_getLsbD_eq fun i hi => ?_
  have h₃ := hlt₃ i hi
  have h₂ := hlt₂ _ h₃
  rw [reverse_getLsbD hi, reverseHashtBits, brevKnuth, brevSwap_getLsbD (by decide) hi,
    brevSwap_getLsbD (by decide) h₃, brevSwap_getLsbD (by decide) h₂, rotate_getLsbD (hlt₁ _ h₂), hperm i hi]

theorem reverseHashtBits_reverseHashtBits (a : Hash) : reverseHashtBits (reverseHashtBits a) = a := by
  rw [reverseHashtBits_eq, reverseHashtBits_eq, BitVec.reverse_reverse_eq]

theorem reverseHashtBits_inj {a b : Hash} : reverseHashtBits a = reverseHashtBits b ↔ a = b := by
  rw [reverseHashtBits_eq, reverseHashtBits_eq, reverse_inj]

@[simp] theorem reverseHashtBits_zero : reverseHashtBits 0#32 = 0#32 := by decide

/-! ## The two kinds of key -/

/-- The words whose reversal has its reserved bit clear are those below `2 ^ 31`. -/
theorem reverseHashtBits_even_iff {h : Hash} : 2 ∣ (reverseHashtBits h).toNat ↔ h.toNat < 2 ^ 31 := by
  rw [reverseHashtBits_eq]
  exact two_pow_dvd_reverse_iff (k := 31) (by omega)

theorem and_DATABIT_eq_zero_iff {k : SoKey} : 0 = k &&& DATABIT ↔ 2 ∣ k.toNat := by
  rw [← BitVec.toNat_inj, BitVec.toNat_and]
  simp [DATABIT, Nat.and_one_is_mod]
  omega

theorem solBucketKey_eq_ok_iff {h : Hash} {k : SoKey} :
    solBucketKey h = .ok k ↔ h.toNat < 2 ^ 31 ∧ k = reverseHashtBits h := by
  simp only [solBucketKey, and_DATABIT_eq_zero_iff, reverseHashtBits_even_iff]
  split <;> simp_all [eq_comm]

theorem solBucketKey_ok {h : Hash} (hh : h.toNat < 2 ^ 31) : solBucketKey h = .ok (reverseHashtBits h) :=
  solBucketKey_eq_ok_iff.mpr ⟨hh, rfl⟩

theorem or_DATABIT_toNat {k : SoKey} (hk : 2 ∣ k.toNat) : (k ||| DATABIT).toNat = k.toNat + 1 := by
  obtain ⟨m, hm⟩ := hk
  rw [BitVec.toNat_or, hm]
  simpa [DATABIT] using (Nat.two_pow_add_eq_or_of_lt (i := 1) (b := 1) (by omega) m).symm

theorem solNodeKey_toNat {h : Hash} (hh : h.toNat < 2 ^ 31) :
    (solNodeKey h).toNat = (reverseHashtBits h).toNat + 1 :=
  or_DATABIT_toNat (reverseHashtBits_even_iff.mpr hh)

theorem solNodeKey_and_DATABIT (h : Hash) : solNodeKey h &&& DATABIT = DATABIT := by
  simp only [solNodeKey]
  ext i hi
  simp only [BitVec.getElem_and, BitVec.getElem_or]
  cases DATABIT[i] <;> simp

/-- A node's key is no bucket's key. -/
theorem solNodeKey_ne {h s : Hash} (hs : s.toNat < 2 ^ 31) : solNodeKey h ≠ reverseHashtBits s := by
  intro he
  have h1 := and_DATABIT_eq_zero_iff.mpr (reverseHashtBits_even_iff.mpr hs)
  rw [← he, solNodeKey_and_DATABIT] at h1
  exact absurd h1 (by decide)

/-- Different hashes have different node keys. -/
theorem solNodeKey_inj {h h' : Hash} (hh : h.toNat < 2 ^ 31) (hh' : h'.toNat < 2 ^ 31) :
    solNodeKey h = solNodeKey h' ↔ h = h' := by
  constructor
  · intro he
    have h1 := congrArg BitVec.toNat he
    rw [solNodeKey_toNat hh, solNodeKey_toNat hh'] at h1
    exact reverseHashtBits_inj.mp (BitVec.eq_of_toNat_eq (by omega))
  · rintro rfl
    rfl

/-- **A search may start at the bucket.** The key of the bucket a hash falls
into, for any power of two of buckets, is below the hash's node key. -/
theorem solBucketKey_lt_solNodeKey {h n : Hash} {k : Nat} (hn : n.toNat = 2 ^ k) (hh : h.toNat < 2 ^ 31) :
    reverseHashtBits (h % n) < solNodeKey h := by
  have hle : (reverseHashtBits (h % n)).toNat ≤ (reverseHashtBits h).toNat := by
    rw [reverseHashtBits_eq, reverseHashtBits_eq]
    exact reverse_le_of_mod (k := k) (by rw [BitVec.toNat_umod, hn])
  rw [BitVec.lt_def, solNodeKey_toNat hh]
  omega

/-! ## The keys of a table of `2 ^ k` buckets -/

section Table

variable {n : Hash} {k : Nat}

/-- The distance between neighbouring bucket keys, as `get_parent` computes it. -/
theorem solBucketKey_half (hn : n.toNat = 2 ^ k) (hk : k ≠ 0) (hk31 : k ≤ 31) :
    ∃ step, solBucketKey (n / 2) = .ok step ∧ step.toNat = 2 ^ (32 - k) := by
  obtain ⟨j, rfl⟩ := Nat.exists_eq_succ_of_ne_zero hk
  have hhalf : (n / 2).toNat = 2 ^ j := by
    rw [BitVec.toNat_udiv, hn, pow_succ]
    simp
  have hlt : (n / 2).toNat < 2 ^ 31 := by
    rw [hhalf]
    exact Nat.pow_lt_pow_right (by omega) (by omega)
  refine ⟨_, solBucketKey_ok hlt, ?_⟩
  rw [reverseHashtBits_eq, reverse_two_pow (by omega) hhalf]
  congr 1
  omega

/-- The bucket keys of the table are the multiples of that distance. -/
theorem step_dvd_iff (hk31 : k ≤ 31) {s : Hash} :
    2 ^ (32 - k) ∣ (reverseHashtBits s).toNat ↔ s.toNat < 2 ^ k := by
  rw [reverseHashtBits_eq]
  exact two_pow_dvd_reverse_iff (by omega)

theorem reverseHashtBits_lt_iff (hk31 : k ≤ 31) {key : SoKey} :
    (reverseHashtBits key).toNat < 2 ^ k ↔ 2 ^ (32 - k) ∣ key.toNat := by
  rw [reverseHashtBits_eq]
  exact reverse_lt_two_pow_iff (by omega)

/-- Subtracting a multiple of `d` from a key changes nothing modulo `d`. -/
theorem dvd_key_sub_iff {key step : SoKey} {d : Nat} (hd : d ∣ 2 ^ 32) (hstep : d ∣ step.toNat) :
    d ∣ (key - step).toNat ↔ d ∣ key.toNat := by
  have hsub : d ∣ 2 ^ 32 - step.toNat := Nat.dvd_sub hd hstep
  rw [BitVec.toNat_sub, Nat.dvd_mod_iff hd]
  exact Nat.dvd_add_right hsub

end Table

end SplitOrder
