/-
Hashes from `2 ^ 31` on, in `find_item_node` and `delete_node`.

`insert_node` makes the key of its node from `sol_bucket_key`, which asserts
that the reversed hash has the reserved bit clear. The other two take the
key from `sol_node_key`, which sets the bit and so loses the top bit of the
hash: a hash from `2 ^ 31` on gets the key of the hash `2 ^ 31` below it, and
the call reads or deletes that hash's item.

That no other node is matched holds of lists of any size, also of those whose
searches go astray: a node has the key its hash gave it, and the calls that
search make no nodes but dummies (`OnlyDummies`).
-/
import SplitOrder.Solist.FiniteMap

namespace SplitOrder

open Heap

variable {T : Type}

/-! ## The key of a hash from `2 ^ 31` on -/

theorem solNodeKey_add {low hashv : Hash} (h : low.toNat + 2 ^ 31 = hashv.toNat) :
    solNodeKey hashv = solNodeKey low := by
  unfold solNodeKey
  rw [reverseHashtBits_eq, reverseHashtBits_eq]
  refine BitVec.eq_of_getLsbD_eq fun i hi => ?_
  rw [BitVec.getLsbD_or, BitVec.getLsbD_or, reverse_getLsbD hi, reverse_getLsbD hi]
  by_cases h0 : i = 0
  · subst h0
    simp [DATABIT]
  · -- below its top bit the word is `low`
    have hbit : hashv.getLsbD (32 - 1 - i) = low.getLsbD (32 - 1 - i) := by
      rw [BitVec.getLsbD, BitVec.getLsbD, ← h, Nat.add_comm]
      exact Nat.testBit_two_pow_add_gt (by omega) _
    rw [hbit]

theorem exists_low {hashv : Hash} (hh : ¬ hashv.toNat < 2 ^ 31) :
    ∃ low : Hash, low.toNat < 2 ^ 31 ∧ low.toNat + 2 ^ 31 = hashv.toNat := by
  have hlt := hashv.isLt
  have hlow : (BitVec.ofNat 32 (hashv.toNat - 2 ^ 31)).toNat = hashv.toNat - 2 ^ 31 := by
    rw [BitVec.toNat_ofNat]
    exact Nat.mod_eq_of_lt (by omega)
  exact ⟨BitVec.ofNat 32 (hashv.toNat - 2 ^ 31), by omega, by omega⟩

theorem solNodeKey_eq_iff {low hashv : Hash} (hlow : low.toNat < 2 ^ 31) :
    solNodeKey low = solNodeKey hashv ↔ low = hashv ∨ low.toNat + 2 ^ 31 = hashv.toNat := by
  by_cases hh : hashv.toNat < 2 ^ 31
  · rw [solNodeKey_inj hlow hh]
    constructor
    · exact .inl
    · rintro (h | h)
      · exact h
      · omega
  · obtain ⟨low', hlow', h⟩ := exists_low hh
    rw [solNodeKey_add h, solNodeKey_inj hlow hlow']
    constructor
    · rintro rfl
      exact .inr h
    · rintro (rfl | h')
      · exact absurd hlow hh
      · exact BitVec.eq_of_toNat_eq (by omega)

/-! ## Nodes keep the key of their hash -/

theorem solistBucket_wellKeyed {hashv : Hash} {n : Node T} (h : solistBucket hashv = .ok n) :
    n.WellKeyed ∧ n.payload = none := by
  obtain ⟨key, hkey, h⟩ := bind_eq_ok.mp h
  obtain ⟨hh, rfl⟩ := solBucketKey_eq_ok_iff.mp hkey
  cases h
  exact ⟨⟨hh, rfl⟩, rfl⟩

theorem solistNode_wellKeyed {hashv : Hash} {v : T} {n : Node T} (h : solistNode v hashv = .ok n) : n.WellKeyed := by
  obtain ⟨b, hb, h⟩ := bind_eq_ok.mp h
  obtain ⟨key, hkey, hb⟩ := bind_eq_ok.mp hb
  obtain ⟨hh, rfl⟩ := solBucketKey_eq_ok_iff.mp hkey
  cases hb
  cases h
  exact ⟨hh, rfl⟩

/-- Every node ever made has the key its kind and hash give it. -/
def Heap.AllKeyed (h : Heap T) : Prop := ∀ x < h.size, (h.node x).WellKeyed

theorem Heap.AllKeyed.new {h : Heap T} {n : Node T} (hk : h.AllKeyed) (hn : n.WellKeyed) : (h.new n).AllKeyed := by
  intro x hx
  rcases Nat.lt_succ_iff_lt_or_eq.mp hx with hx | rfl
  · rw [new_node_of_lt hx]
    exact hk x hx
  · rw [new_node_self]
    exact hn

/-- A node that is kept keeps its key. -/
theorem Heap.Extends.wellKeyed {h h' : Heap T} {x : Addr} (he : h.Extends h') (hx : x < h.size) :
    (h'.node x).WellKeyed ↔ (h.node x).WellKeyed := by
  have hkey : (h'.node x).key = (h.node x).key := he.key x hx
  unfold Node.WellKeyed
  rw [he.hashv x hx, he.payload x hx, hkey]

namespace Solist

variable {s s' s'' : Solist T} {a a' : Accessor} {slot hashv low : Hash} {key : SoKey} {c : Addr}

/-- From `s` to `s'` no nodes are made but dummies, and none is lost. -/
structure OnlyDummies (s s' : Solist T) : Prop where
  nBuckets : s'.nBuckets = s.nBuckets
  ext : s.heap.Extends s'.heap
  deleted : s.heap.deleted ⊆ s'.heap.deleted
  made : ∀ x, s.heap.size ≤ x → x < s'.heap.size → (s'.heap.node x).WellKeyed ∧ (s'.heap.node x).payload = none

namespace OnlyDummies

theorem ofSize (hn : s'.nBuckets = s.nBuckets) (he : s.heap.Extends s'.heap) (hd : s.heap.deleted ⊆ s'.heap.deleted)
    (hsize : s'.heap.size = s.heap.size) : OnlyDummies s s' :=
  ⟨hn, he, hd, fun _ hx hlt => absurd hx (Nat.not_le.mpr (hsize ▸ hlt))⟩

theorem refl (s : Solist T) : OnlyDummies s s := ofSize rfl (.refl _) (List.Subset.refl _) rfl

theorem setNext {x : Addr} {m : MarkPtr Addr} : OnlyDummies s { s with heap := s.heap.setNext x m } :=
  ofSize rfl .setNext (List.Subset.refl _) rfl

theorem delete {x : Addr} : OnlyDummies s { s with heap := s.heap.delete x } :=
  ofSize rfl .delete (List.subset_append_left _ _) rfl

theorem new {n : Node T} (hn : n.WellKeyed ∧ n.payload = none) : OnlyDummies s { s with heap := s.heap.new n } := by
  refine ⟨rfl, .new, List.Subset.refl _, fun x hx hlt => ?_⟩
  obtain rfl : x = s.heap.size := Nat.le_antisymm (Nat.le_of_lt_succ hlt) hx
  change ((s.heap.new n).node s.heap.size).WellKeyed ∧ _
  rw [new_node_self]
  exact hn

theorem trans (h₁ : OnlyDummies s s') (h₂ : OnlyDummies s' s'') : OnlyDummies s s'' := by
  refine ⟨h₂.nBuckets.trans h₁.nBuckets, h₁.ext.trans h₂.ext, List.Subset.trans h₁.deleted h₂.deleted,
    fun x hx hlt => ?_⟩
  by_cases hs : x < s'.heap.size
  · rw [h₂.ext.wellKeyed hs, h₂.ext.payload x hs]
    exact h₁.made x hx hs
  · exact h₂.made x (Nat.not_lt.mp hs) hlt

theorem allKeyed (h : OnlyDummies s s') (hk : s.heap.AllKeyed) : s'.heap.AllKeyed := by
  intro x hx
  by_cases hs : x < s.heap.size
  · exact (h.ext.wellKeyed hs).mpr (hk x hs)
  · exact (h.made x (Nat.not_lt.mp hs) hx).1

end OnlyDummies

theorem assignNext_onlyDummies {p q : Option Addr} {h : Heap T} (ha : s.heap.assignNext p q = .ok h) :
    OnlyDummies s { s with heap := h } := by
  cases p with
  | none => cases ha
  | some x =>
    obtain ⟨n, -, ha⟩ := bind_eq_ok.mp ha
    cases ha
    exact .setNext

theorem casNext_onlyDummies {p e d : Option Addr} {mark won : Bool} {h : Heap T}
    (ha : s.heap.casNext p e d mark = .ok (won, h)) : OnlyDummies s { s with heap := h } := by
  cases p with
  | none => cases ha
  | some x =>
    obtain ⟨n, -, ha⟩ := bind_eq_ok.mp ha
    cases ha
    exact .setNext

theorem setBucket_onlyDummies {p : Option Addr} (h : s.setBucket slot p = .ok s') : OnlyDummies s s' := by
  unfold setBucket at h
  split at h
  · cases h
    exact .ofSize rfl (.refl _) (List.Subset.refl _) rfl
  · cases h

/-! ## What a search leaves -/

theorem linkDummy_onlyDummies {node : Addr} {fuel : Nat} (h : linkDummy slot key node fuel s a = .ok (a', s')) :
    OnlyDummies s s' := by
  induction fuel generalizing s a with
  | zero => cases h
  | succ fuel ih =>
    unfold linkDummy at h
    obtain ⟨a₁, -, h⟩ := bind_eq_ok.mp h
    obtain ⟨heap, hheap, h⟩ := bind_eq_ok.mp h
    refine (assignNext_onlyDummies hheap).trans ?_
    obtain ⟨b, -, h⟩ := bind_eq_ok.mp h
    split at h
    · cases h
      exact .refl _
    · obtain ⟨other, -, h⟩ := bind_eq_ok.mp h
      split at h
      · cases h
        exact .refl _
      · obtain ⟨⟨won, heap'⟩, hheap', h⟩ := bind_eq_ok.mp h
        refine (casNext_onlyDummies hheap').trans ?_
        simp only at h
        split at h
        · cases h
          exact .refl _
        · exact ih h

theorem settleBucket_onlyDummies {node : Addr} (h : settleBucket slot key node s a = .ok (a', s')) :
    OnlyDummies s s' := by
  unfold settleBucket at h
  obtain ⟨b, -, h⟩ := bind_eq_ok.mp h
  split at h
  · obtain ⟨cur, -, h⟩ := bind_eq_ok.mp h
    split at h
    · obtain ⟨s₁, hs₁, h⟩ := bind_eq_ok.mp h
      cases h
      exact setBucket_onlyDummies hs₁
    · obtain ⟨s₁, hs₁, h⟩ := bind_eq_ok.mp h
      refine (setBucket_onlyDummies hs₁).trans ?_
      obtain ⟨b', -, h⟩ := bind_eq_ok.mp h
      obtain ⟨same, -, h⟩ := bind_eq_ok.mp h
      split at h
      · cases h
        exact .delete
      · cases h
  · cases h
    exact .delete

theorem initialiseBucket_onlyDummies (h : s.initialiseBucket a slot = .ok (a', s')) : OnlyDummies s s' := by
  unfold initialiseBucket at h
  split at h
  · cases h
  · obtain ⟨b, -, h⟩ := bind_eq_ok.mp h
    split at h
    · cases h
      exact .refl _
    · obtain ⟨n, hn, h⟩ := bind_eq_ok.mp h
      refine (OnlyDummies.new (solistBucket_wellKeyed hn)).trans ?_
      obtain ⟨⟨a₁, s₁⟩, h₁, h⟩ := bind_eq_ok.mp h
      refine (linkDummy_onlyDummies h₁).trans ?_
      obtain ⟨⟨a₂, s₂⟩, h₂, h⟩ := bind_eq_ok.mp h
      refine (settleBucket_onlyDummies h₂).trans ?_
      obtain ⟨b', -, h⟩ := bind_eq_ok.mp h
      split at h
      · cases h
      · obtain ⟨b'', -, h⟩ := bind_eq_ok.mp h
        obtain ⟨same, -, h⟩ := bind_eq_ok.mp h
        split at h
        · cases h
          exact .refl _
        · cases h

theorem findNodeTryAgain_found (h : s.findNodeTryAgain a slot key = .ok (true, a')) :
    ∃ c, a'.cur = some c ∧ s.heap.Live c ∧ s.heap.key c = key := by
  unfold findNodeTryAgain at h
  obtain ⟨b, -, h⟩ := bind_eq_ok.mp h
  obtain ⟨n, -, h⟩ := bind_eq_ok.mp h
  obtain ⟨a₁, -, h⟩ := bind_eq_ok.mp h
  obtain ⟨same, hsame, h⟩ := bind_eq_ok.mp h
  cases h
  cases hcur : a'.cur with
  | none =>
    rw [hcur] at hsame
    cases hsame
  | some c =>
    rw [hcur] at hsame
    obtain ⟨m, hm, hsame⟩ := bind_eq_ok.mp hsame
    by_cases hlive : s.heap.Live c
    · rw [deref_live hlive] at hm
      cases hm
      exact ⟨c, rfl, hlive, eq_of_beq (Except.ok.inj hsame)⟩
    · rw [deref, if_neg hlive] at hm
      cases hm

/-- A search makes no nodes but dummies, and what it finds is a node with the key of the hash. -/
theorem findNode_onlyDummies {found : Bool} (h : s.findNode a hashv = .ok (found, a', s')) :
    OnlyDummies s s' ∧ (found = true → ∃ c, a'.cur = some c ∧ s'.heap.Live c ∧ s'.heap.key c = solNodeKey hashv) := by
  obtain ⟨a₁, s₁, h₁, h₂⟩ : ∃ a₁ s₁, OnlyDummies s s₁ ∧
      (s₁.findNodeTryAgain a₁ (hashv % s.nBuckets) (solNodeKey hashv) >>= fun r => .ok (r.1, r.2, s₁)) =
        .ok (found, a', s') := by
    unfold findNode at h
    obtain ⟨b, -, h⟩ := bind_eq_ok.mp h
    simp only at h
    split at h
    · obtain ⟨⟨a₁, s₁⟩, h₁, h⟩ := bind_eq_ok.mp h
      exact ⟨a₁, s₁, initialiseBucket_onlyDummies h₁, h⟩
    · exact ⟨a, s, .refl _, h⟩
  obtain ⟨⟨found₁, a₂⟩, htry, h₂⟩ := bind_eq_ok.mp h₂
  cases h₂
  refine ⟨h₁, ?_⟩
  rintro rfl
  exact findNodeTryAgain_found htry

/-- The node deleted last, on the way to `s'`, is one that a search found. -/
def DeletedFound (s : Solist T) (hashv : Hash) (s' : Solist T) : Prop :=
  ∃ c s₁, OnlyDummies s s₁ ∧ s₁.heap.Live c ∧ s₁.heap.key c = solNodeKey hashv ∧ s'.heap.deleted.getLast? = some c

theorem DeletedFound.after (h : OnlyDummies s s') (hd : DeletedFound s' hashv s'') : DeletedFound s hashv s'' := by
  obtain ⟨c, s₁, hs₁, hrest⟩ := hd
  exact ⟨c, s₁, h.trans hs₁, hrest⟩

/-- `delete_node` makes no nodes but dummies, and is true when it has deleted a node that it found. -/
theorem deleteLoop_onlyDummies {result : Bool} {fuel : Nat} (h : deleteLoop hashv fuel s a = .ok (result, a', s')) :
    OnlyDummies s s' ∧ (result = true → DeletedFound s hashv s') := by
  induction fuel generalizing s a with
  | zero => cases h
  | succ fuel ih =>
    unfold deleteLoop at h
    obtain ⟨⟨found, a₁, s₁⟩, h₁, h⟩ := bind_eq_ok.mp h
    obtain ⟨hd₁, hfound⟩ := findNode_onlyDummies h₁
    cases found with
    | false =>
      cases h
      exact ⟨hd₁, fun hr => absurd hr Bool.false_ne_true⟩
    | true =>
      obtain ⟨c, hcur, hlive, hkey⟩ := hfound rfl
      simp only [Bool.not_true, Bool.false_eq_true, if_false] at h
      obtain ⟨⟨marked, heap₂⟩, h₂, h⟩ := bind_eq_ok.mp h
      have hd₂ := hd₁.trans (casNext_onlyDummies h₂)
      cases marked with
      | false =>
        obtain ⟨hd, hlast⟩ := ih h
        exact ⟨hd₂.trans hd, fun hr => (hlast hr).after hd₂⟩
      | true =>
        simp only [Bool.not_true, Bool.false_eq_true, if_false] at h
        obtain ⟨⟨won, heap₃⟩, h₃, h⟩ := bind_eq_ok.mp h
        have hd₃ := hd₂.trans (casNext_onlyDummies h₃)
        cases won with
        | false =>
          obtain ⟨hd, hlast⟩ := ih h
          exact ⟨hd₃.trans hd, fun hr => (hlast hr).after hd₃⟩
        | true =>
          simp only [if_true, hcur] at h
          cases h
          refine ⟨?_, fun _ => ⟨c, s₁, hd₁, hlive, hkey, by simp⟩⟩
          exact ⟨hd₃.nBuckets, hd₃.ext.trans .delete, List.Subset.trans hd₃.deleted (List.subset_append_left _ _),
            hd₃.made⟩

theorem deleteNode_onlyDummies {result : Bool} (h : s.deleteNode a hashv = .ok (result, a', s')) :
    OnlyDummies s s' ∧ (result = true → DeletedFound s hashv s') := by
  obtain ⟨⟨result₁, a₁, s₁⟩, h₁, h⟩ := bind_eq_ok.mp h
  cases h
  exact deleteLoop_onlyDummies h₁

theorem findItemNode_onlyDummies {p : Option Addr} (h : s.findItemNode a hashv = .ok (p, a', s')) :
    OnlyDummies s s' ∧ ∀ n, p = some n → s'.heap.Live n ∧ s'.heap.key n = solNodeKey hashv := by
  obtain ⟨⟨found, a₁, s₁⟩, h₁, h⟩ := bind_eq_ok.mp h
  obtain ⟨hd, hfound⟩ := findNode_onlyDummies h₁
  cases found with
  | false =>
    cases h
    exact ⟨hd, nofun⟩
  | true =>
    obtain ⟨c, hcur, hlive, hkey⟩ := hfound rfl
    simp only [if_true, hcur, deref_live hlive, bind_ok] at h
    split at h
    · cases h
      refine ⟨hd, ?_⟩
      rintro n ⟨⟩
      exact ⟨hlive, hkey⟩
    · cases h

/-! ## Which node is matched -/

/-- An item has the hash that `hashv` is without its top bit. -/
def Aliased (s : Solist T) (hashv : Hash) : Prop :=
  ∃ x, s.heap.Live x ∧ s.heap.isData x = true ∧ (s.heap.node x).hashv.toNat + 2 ^ 31 = hashv.toNat

/-- `find_item_node` and `delete_node` match no node but one with their hash.
The node that `delete_node` matched is the one it deletes last. -/
structure MatchesOwn (s : Solist T) (a : Accessor) (hashv : Hash) : Prop where
  find : ∀ n a' s', s.findItemNode a hashv = .ok (some n, a', s') → (s'.heap.node n).hashv = hashv
  delete : ∀ a' s', s.deleteNode a hashv = .ok (true, a', s') →
    ∃ n, s'.heap.deleted.getLast? = some n ∧ (s'.heap.node n).hashv = hashv

/-- A node with the key of the hash was an item before the search, under this hash or its alias. -/
theorem OnlyDummies.item (h : OnlyDummies s s') (hk : s.heap.AllKeyed) (hc : s'.heap.Live c)
    (hkey : s'.heap.key c = solNodeKey hashv) :
    s.heap.Live c ∧ s.heap.isData c = true ∧
      ((s.heap.node c).hashv = hashv ∨ (s.heap.node c).hashv.toNat + 2 ^ 31 = hashv.toNat) := by
  obtain ⟨hh, hck⟩ := h.allKeyed hk c hc.1
  change (s'.heap.node c).key = _ at hkey
  cases hp : (s'.heap.node c).payload with
  | none =>
    rw [hp] at hck
    exact absurd (hkey.symm.trans hck) (solNodeKey_ne hh)
  | some v =>
    rw [hp] at hck
    have hlt : c < s.heap.size := by
      by_contra hge
      rw [(h.made c (Nat.not_lt.mp hge) hc.1).2] at hp
      cases hp
    rw [h.ext.hashv c hlt] at hh hck
    rw [h.ext.payload c hlt] at hp
    refine ⟨⟨hlt, fun hdel => hc.2 (h.deleted hdel)⟩, by simp [isData, hp], ?_⟩
    exact (solNodeKey_eq_iff hh).mp (hck.symm.trans hkey)

theorem matchesOwn_of_not_aliased (hk : s.heap.AllKeyed) (a : Accessor) (hn : ¬ s.Aliased hashv) :
    s.MatchesOwn a hashv := by
  -- whatever is found was an item, and not the alias
  have hown : ∀ {s₁ : Solist T} {c : Addr}, OnlyDummies s s₁ → s₁.heap.Live c → s₁.heap.key c = solNodeKey hashv →
      c < s.heap.size ∧ (s.heap.node c).hashv = hashv := by
    intro s₁ c hd hc hkey
    obtain ⟨hlive, hdata, hv | hv⟩ := hd.item hk hc hkey
    · exact ⟨hlive.1, hv⟩
    · exact absurd ⟨c, hlive, hdata, hv⟩ hn
  refine ⟨fun n a' s' h => ?_, fun a' s' h => ?_⟩
  · obtain ⟨hd, hfound⟩ := findItemNode_onlyDummies h
    obtain ⟨hlive, hkey⟩ := hfound n rfl
    obtain ⟨hlt, hv⟩ := hown hd hlive hkey
    rw [hd.ext.hashv n hlt, hv]
  · obtain ⟨hd, hlast⟩ := deleteNode_onlyDummies h
    obtain ⟨c, s₁, hd₁, hlive, hkey, hlast⟩ := hlast rfl
    obtain ⟨hlt, hv⟩ := hown hd₁ hlive hkey
    exact ⟨c, hlast, by rw [hd.ext.hashv c hlt, hv]⟩

/-! ## A hash and its alias

On a power of two of buckets the two also share the bucket. -/

theorem umod_add {n : Hash} (hn : ∃ k ≤ 31, n.toNat = 2 ^ k) (h : low.toNat + 2 ^ 31 = hashv.toNat) :
    hashv % n = low % n := by
  obtain ⟨k, hk, hn⟩ := hn
  obtain ⟨q, hq⟩ : 2 ^ k ∣ 2 ^ 31 := Nat.pow_dvd_pow 2 hk
  refine BitVec.eq_of_toNat_eq ?_
  rw [BitVec.toNat_umod, BitVec.toNat_umod, hn, ← h, hq, Nat.add_mul_mod_self_left]

theorem findNode_add (hn : ∃ k ≤ 31, s.nBuckets.toNat = 2 ^ k) (h : low.toNat + 2 ^ 31 = hashv.toNat) (a : Accessor) :
    s.findNode a hashv = s.findNode a low := by
  unfold findNode
  rw [umod_add hn h, solNodeKey_add h]

theorem findItemNode_add (hn : ∃ k ≤ 31, s.nBuckets.toNat = 2 ^ k) (h : low.toNat + 2 ^ 31 = hashv.toNat)
    (a : Accessor) :
    s.findItemNode a hashv = s.findItemNode a low := by
  unfold findItemNode
  rw [findNode_add hn h]

theorem deleteLoop_add (h : low.toNat + 2 ^ 31 = hashv.toNat) (fuel : Nat) (hn : ∃ k ≤ 31, s.nBuckets.toNat = 2 ^ k)
    (a : Accessor) : deleteLoop hashv fuel s a = deleteLoop low fuel s a := by
  induction fuel generalizing s a with
  | zero => rfl
  | succ fuel ih =>
    unfold deleteLoop
    rw [findNode_add hn h]
    cases hfind : s.findNode a low with
    | error e => simp only [bind_error]
    | ok r =>
      obtain ⟨found, a₁, s₁⟩ := r
      have hn₁ : ∃ k ≤ 31, s₁.nBuckets.toNat = 2 ^ k := by
        rw [(findNode_onlyDummies hfind).1.nBuckets]
        exact hn
      -- the list a turn leaves has the same buckets
      have hloop : ∀ (heap : Heap T) (a₂ : Accessor), deleteLoop hashv fuel { s₁ with heap } a₂ =
          deleteLoop low fuel { s₁ with heap } a₂ := fun heap a₂ => ih (s := { s₁ with heap }) hn₁ a₂
      simp only [bind_ok, hloop]

theorem deleteNode_add (hn : ∃ k ≤ 31, s.nBuckets.toNat = 2 ^ k) (h : low.toNat + 2 ^ 31 = hashv.toNat) (a : Accessor) :
    s.deleteNode a hashv = s.deleteNode a low := by
  unfold deleteNode
  rw [deleteLoop_add h _ hn]

/-- The item of the alias is found and read. -/
theorem not_matchesOwn_of_aliased {l : List Addr} (hi : s.Inv l []) (a : Accessor) (ha : s.Aliased hashv) :
    ¬ s.MatchesOwn a hashv := by
  intro hown
  obtain ⟨x, hlive, hdata, hx⟩ := ha
  set low := (s.heap.node x).hashv with hlow
  have hlt : low.toNat < 2 ^ 31 := by
    have := hashv.isLt
    omega
  have hxl : x ∈ l := by
    have hmem := hi.chain.owned.mem_iff.mpr (List.mem_range.mpr hlive.1)
    simpa [hlive.2] using hmem
  obtain ⟨a', s', l', r, hsame, -, hfind, ⟨habs, -⟩ | ⟨n, rfl, hnl, -, hv⟩⟩ := findItemNode_spec hi hlt a
  · exact habs ⟨x, hxl, hdata, hlow.symm⟩
  · have hfound := hown.find n a' s' (by rw [findItemNode_add hi.nBuckets hx, hfind])
    rw [hsame.ext.hashv n (hi.chain.live hnl).1, hv] at hfound
    rw [hfound] at hx
    omega

/-! ## Every call keeps the keys -/

theorem insertLoop_onlyDummies {result : Bool} {node : Addr} {fuel : Nat}
    (h : insertLoop hashv node fuel s a = .ok (result, a', s')) : OnlyDummies s s' := by
  induction fuel generalizing s a with
  | zero => cases h
  | succ fuel ih =>
    unfold insertLoop at h
    obtain ⟨⟨found, a₁, s₁⟩, h₁, h⟩ := bind_eq_ok.mp h
    refine (findNode_onlyDummies h₁).1.trans ?_
    cases found with
    | true =>
      cases h
      exact .refl _
    | false =>
      simp only [Bool.false_eq_true, if_false] at h
      obtain ⟨heap, hheap, h⟩ := bind_eq_ok.mp h
      refine (assignNext_onlyDummies hheap).trans ?_
      obtain ⟨⟨won, heap'⟩, hheap', h⟩ := bind_eq_ok.mp h
      have hd := casNext_onlyDummies (s := { s₁ with heap }) hheap'
      cases won with
      | true =>
        cases h
        exact ⟨hd.nBuckets, hd.ext, hd.deleted, hd.made⟩
      | false => exact hd.trans (ih h)

theorem expand_heap {currSize : Hash} (h : s.expand currSize = .ok s') : s'.heap = s.heap := by
  unfold expand at h
  split at h
  · cases h
    rfl
  · obtain ⟨b, -, h⟩ := bind_eq_ok.mp h
    cases h
    rfl

theorem expansionCheck_allKeyed {nbuckets : Hash} (h : s.expansionCheck a hashv nbuckets = .ok (a', s'))
    (hk : s.heap.AllKeyed) : s'.heap.AllKeyed := by
  unfold expansionCheck at h
  split at h
  · simp only at h
    split at h
    · obtain ⟨s₁, h₁, h⟩ := bind_eq_ok.mp h
      refine (initialiseBucket_onlyDummies h).allKeyed ?_
      rwa [expand_heap h₁]
    · split at h
      · exact (initialiseBucket_onlyDummies h).allKeyed hk
      · cases h
        exact hk
  · cases h
    exact hk

theorem insertNode_allKeyed {v : T} {result : Bool} (h : s.insertNode a hashv v = .ok (result, a', s'))
    (hk : s.heap.AllKeyed) : s'.heap.AllKeyed := by
  unfold insertNode at h
  obtain ⟨n, hn, h⟩ := bind_eq_ok.mp h
  obtain ⟨⟨linked, a₁, s₁⟩, h₁, h⟩ := bind_eq_ok.mp h
  have hk₁ := (insertLoop_onlyDummies h₁).allKeyed (hk.new (solistNode_wellKeyed hn))
  cases linked with
  | false =>
    cases h
    exact hk₁
  | true =>
    simp only [Bool.not_true, Bool.false_eq_true, if_false] at h
    obtain ⟨m, -, h⟩ := bind_eq_ok.mp h
    obtain ⟨a₂, -, h⟩ := bind_eq_ok.mp h
    obtain ⟨⟨a₃, s₂⟩, h₂, h⟩ := bind_eq_ok.mp h
    cases h
    exact expansionCheck_allKeyed h₂ hk₁

theorem create_allKeyed {size bucketLength : Hash} (h : create size bucketLength = .ok s) : s.heap.AllKeyed := by
  obtain ⟨b, hb, h⟩ := bind_eq_ok.mp h
  simp only at h
  split at h
  · cases h
  · cases h
    refine AllKeyed.new ?_ (solistBucket_wellKeyed hb).1
    intro x hx
    exact absurd hx (Nat.not_lt_zero x)

end Solist

/-- Runs of calls with any arguments, until one faults. -/
def calls (T : Type) (size bucketLength : Hash) : System (Session T) (Nat × Op T) where
  init s := ∃ list, Solist.create size bucketLength = .ok list ∧ s = { list }
  next s e :=
    match s.call e.1 e.2 with
    | .ok (_, s') => some s'
    | .error _ => none

theorem calls_next {size bucketLength : Hash} {s s' : Session T} {e : Nat × Op T}
    (h : (calls T size bucketLength).next s e = some s') : ∃ r, s.call e.1 e.2 = .ok (r, s') := by
  simp only [calls] at h
  split at h
  · cases h
    exact ⟨_, ‹_›⟩
  · cases h

theorem call_allKeyed {s s' : Session T} {i : Nat} {op : Op T} {r : Res} (h : s.call i op = .ok (r, s'))
    (hk : s.list.heap.AllKeyed) : s'.list.heap.AllKeyed := by
  obtain ⟨⟨res, a, list⟩, hop, h⟩ := bind_eq_ok.mp h
  cases h
  change list.heap.AllKeyed
  cases op with
  | insertNode hashv v =>
    obtain ⟨⟨b, a₁, l⟩, h₁, h⟩ := bind_eq_ok.mp hop
    cases h
    exact Solist.insertNode_allKeyed h₁ hk
  | deleteNode hashv =>
    obtain ⟨⟨b, a₁, l⟩, h₁, h⟩ := bind_eq_ok.mp hop
    cases h
    exact (Solist.deleteNode_onlyDummies h₁).1.allKeyed hk
  | findItemNode hashv =>
    obtain ⟨⟨p, a₁, l⟩, h₁, h⟩ := bind_eq_ok.mp hop
    cases h
    exact (Solist.findItemNode_onlyDummies h₁).1.allKeyed hk
  | initialiseBucket slot =>
    obtain ⟨⟨a₁, l⟩, h₁, h⟩ := bind_eq_ok.mp hop
    cases h
    exact (Solist.initialiseBucket_onlyDummies h₁).allKeyed hk

theorem calls_allKeyed {size bucketLength : Hash} {s : Session T} (h : (calls T size bucketLength).Reachable s) :
    s.list.heap.AllKeyed := by
  refine System.ReachableBy.invariant (I := fun s => s.list.heap.AllKeyed) ?_ ?_ h
  · rintro s ⟨list, hlist, rfl⟩
    exact Solist.create_allKeyed hlist
  · intro s e s' hk _ hs
    obtain ⟨r, hcall⟩ := calls_next hs
    exact call_allKeyed hcall hk

/-- On a power of two of buckets a call with any arguments, if it returns, is a valid call. -/
theorem call_valid {s s' : Session T} {l : List Addr} {i : Nat} {op : Op T} {r : Res} (hi : s.list.Inv l [])
    (h : s.call i op = .ok (r, s')) : ∃ op', op'.Valid s.list ∧ s.call i op' = .ok (r, s') := by
  cases op with
  | insertNode hashv v =>
    refine ⟨.insertNode hashv v, ?_, h⟩
    obtain ⟨x, hop, -⟩ := bind_eq_ok.mp h
    obtain ⟨y, hins, -⟩ := bind_eq_ok.mp hop
    obtain ⟨n, hn, -⟩ := bind_eq_ok.mp hins
    obtain ⟨b, hb, -⟩ := bind_eq_ok.mp hn
    obtain ⟨key, hkey, -⟩ := bind_eq_ok.mp hb
    exact (solBucketKey_eq_ok_iff.mp hkey).1
  | deleteNode hashv =>
    by_cases hh : hashv.toNat < 2 ^ 31
    · exact ⟨.deleteNode hashv, hh, h⟩
    · obtain ⟨low, hlt, hlow⟩ := exists_low hh
      refine ⟨.deleteNode low, hlt, ?_⟩
      rw [← h]
      simp only [Session.call, Solist.deleteNode_add hi.nBuckets hlow]
  | findItemNode hashv =>
    by_cases hh : hashv.toNat < 2 ^ 31
    · exact ⟨.findItemNode hashv, hh, h⟩
    · obtain ⟨low, hlt, hlow⟩ := exists_low hh
      refine ⟨.findItemNode low, hlt, ?_⟩
      rw [← h]
      simp only [Session.call, Solist.findItemNode_add hi.nBuckets hlow]
  | initialiseBucket slot =>
    refine ⟨.initialiseBucket slot, ?_, h⟩
    obtain ⟨x, hop, -⟩ := bind_eq_ok.mp h
    obtain ⟨y, hinit, -⟩ := bind_eq_ok.mp hop
    unfold Solist.initialiseBucket at hinit
    split at hinit
    · cases hinit
    · exact not_not.mp ‹_›

theorem calls_sessions {size bucketLength : Hash} (hsize : ∃ k ≤ 31, size.toNat = 2 ^ k) {s : Session T}
    (h : (calls T size bucketLength).Reachable s) : ∃ hist, (sessions T size bucketLength).Reachable (s, hist) := by
  refine System.ReachableBy.invariant (I := fun s => ∃ hist, (sessions T size bucketLength).Reachable (s, hist)) ?_ ?_ h
  · rintro s ⟨list, hlist, rfl⟩
    exact ⟨[], .init ⟨list, hlist, rfl⟩⟩
  · intro s e s' ⟨hist, hs⟩ _ hnext
    obtain ⟨r, hcall⟩ := calls_next hnext
    obtain ⟨m, l, -, hr⟩ := sessions_represents hsize hs
    obtain ⟨op, hv, hcall⟩ := call_valid hr.inv hcall
    refine ⟨hist ++ [{ op, res := r, view := r.view s'.list.heap }], hs.step (e := (e.1, op)) trivial ?_⟩
    simp only [sessions, if_pos hv, hcall]

/-- **A hash is answered with another's item** exactly when an item has the
hash that is left without its top bit: on lists of any size no other call
goes wrong, and on a power of two of slots every such call does. -/
theorem matchesOwn_iff_not_aliased {size bucketLength : Hash} {s : Session T}
    (h : (calls T size bucketLength).Reachable s) (i : Nat) (hashv : Hash) :
    (¬ s.list.Aliased hashv → s.list.MatchesOwn (s.accessor i) hashv) ∧
      ((∃ k, size.toNat = 2 ^ k) → s.list.MatchesOwn (s.accessor i) hashv → ¬ s.list.Aliased hashv) := by
  refine ⟨Solist.matchesOwn_of_not_aliased (calls_allKeyed h) _, fun hsize hown ha => ?_⟩
  obtain ⟨hist, hs⟩ := calls_sessions (Solist.two_pow_le hsize) h
  obtain ⟨m, l, -, hr⟩ := sessions_represents (Solist.two_pow_le hsize) hs
  exact Solist.not_matchesOwn_of_aliased hr.inv _ ha hown

theorem matchesOwn_iff_not_aliased_five :
    ∃ s, (calls Nat 2 4).Reachable s ∧ s.list.MatchesOwn (s.accessor 0) 5 ∧
      s.list.MatchesOwn (s.accessor 0) 0x80000004 ∧ ¬ s.list.MatchesOwn (s.accessor 0) 0x80000005 := by
  have hlist : Solist.create (T := Nat) 2 4 = .ok (Solist.initial 2 4) := Solist.create_eq 4 (by decide)
  have hsome : ((calls Nat 2 4).run { list := Solist.initial 2 4 } [(0, .insertNode 5 7)]).map
      (fun s => decide ((∀ x < s.list.heap.size, (s.list.heap.node x).hashv.toNat + 2 ^ 31 ≠ 0x80000004) ∧
        s.list.heap.Live 1 ∧ s.list.heap.isData 1 = true ∧ (s.list.heap.node 1).hashv = 5)) = some true := by
    decide +kernel
  obtain ⟨s, hrun, hfacts⟩ := Option.map_eq_some_iff.mp hsome
  obtain ⟨hfour, hlive, hdata, hfive⟩ := of_decide_eq_true hfacts
  have hreach : (calls Nat 2 4).Reachable s := System.run_reachable (.init ⟨_, hlist, rfl⟩) hrun
  refine ⟨s, hreach, ?_, ?_, fun hown => ?_⟩
  · refine (matchesOwn_iff_not_aliased hreach 0 5).1 ?_
    rintro ⟨x, -, -, hx⟩
    exact absurd hx (by simp)
  · refine (matchesOwn_iff_not_aliased hreach 0 0x80000004).1 ?_
    rintro ⟨x, hx, -, hv⟩
    exact hfour x hx.1 hv
  · exact (matchesOwn_iff_not_aliased hreach 0 0x80000005).2 ⟨1, rfl⟩ hown ⟨1, hlive, hdata, by rw [hfive]; rfl⟩

/-- With hash 5 in the list, `find_item_node(0x80000005)` returns its item, and
`delete_node(0x80000005)` deletes it. -/
theorem other_item_matched :
    ∃ s, (calls Nat 2 4).Reachable s ∧ ¬ s.list.MatchesOwn (s.accessor 0) 0x80000005 ∧
      (s.list.findItemNode (s.accessor 0) 0x80000005).toOption.map
        (fun r => r.1.map fun n => ((r.2.2.heap.node n).hashv, (r.2.2.heap.node n).payload)) = some (some (5, some 7)) ∧
      (s.list.deleteNode (s.accessor 0) 0x80000005).toOption.map
        (fun r => (r.1, r.2.2.heap.deleted.getLast?.map fun n => (r.2.2.heap.node n).hashv)) = some (true, some 5) := by
  have hlist : Solist.create (T := Nat) 2 4 = .ok (Solist.initial 2 4) := Solist.create_eq 4 (by decide)
  have hsome : ((calls Nat 2 4).run { list := Solist.initial 2 4 } [(0, .insertNode 5 7)]).map
      (fun s => decide ((s.list.findItemNode (s.accessor 0) 0x80000005).toOption.map
        (fun r => r.1.map fun n => ((r.2.2.heap.node n).hashv, (r.2.2.heap.node n).payload)) = some (some (5, some 7)) ∧
      (s.list.deleteNode (s.accessor 0) 0x80000005).toOption.map
        (fun r => (r.1, r.2.2.heap.deleted.getLast?.map fun n => (r.2.2.heap.node n).hashv)) = some (true, some 5))) =
      some true := by
    decide +kernel
  obtain ⟨s, hrun, hfacts⟩ := Option.map_eq_some_iff.mp hsome
  obtain ⟨hfind, hdelete⟩ := of_decide_eq_true hfacts
  refine ⟨s, System.run_reachable (.init ⟨_, hlist, rfl⟩) hrun, fun hown => ?_, hfind, hdelete⟩
  cases hx : s.list.deleteNode (s.accessor 0) 0x80000005 with
  | error e =>
    rw [hx] at hdelete
    cases hdelete
  | ok r =>
    obtain ⟨found, a', s'⟩ := r
    simp only [hx, Except.toOption, Option.map_some, Option.some.injEq, Prod.mk.injEq] at hdelete
    obtain ⟨rfl, hlast⟩ := hdelete
    obtain ⟨n, hn, hv⟩ := hown.delete a' s' hx
    rw [hn, Option.map_some, hv] at hlast
    exact absurd hlast (by decide)

end SplitOrder
