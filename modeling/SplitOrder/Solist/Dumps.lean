/-
What the dumps of a split-ordered list print.

`Prints` says it with no mention of nodes: the dummies of the slots that are
set and the items of the map, in the order of their keys. One list of
tokens fits that (`Prints.unique`), so a dump is a function of the map and of
the slots that are set, whatever calls led there, on whatever table, and
in whatever order the buckets were initialised.
-/
import Mathlib.Data.List.Sort
import SplitOrder.Solist.Bindings
import SplitOrder.Solist.Debug
import SplitOrder.Solist.Ordering

namespace SplitOrder

open Heap

variable {T : Type}

/-! ## The tokens of a map -/

/-- The tokens of the slots `set` and the items `binds`, in the order of their keys. -/
structure Prints (set : Hash → Prop) (binds : Hash → T → Prop) (out : List (Token T)) : Prop where
  sorted : out.Pairwise fun t u => t.key < u.key
  dummy : ∀ key, .dummy key ∈ out ↔ ∃ slot, set slot ∧ key = reverseHashtBits slot
  item : ∀ key v, .item key v ∈ out ↔ ∃ hashv, binds hashv v ∧ key = solNodeKey hashv

/-- The payload of an item. -/
def Token.payload? : Token T → Option T
  | .dummy _ => none
  | .item _ v => some v

/-- The hash a key was made from. -/
def Token.hashv : Token T → Hash
  | .dummy key => reverseHashtBits key
  | .item key _ => reverseHashtBits (key &&& ~~~DATABIT)

theorem reverse_solNodeKey {hashv : Hash} (hh : hashv.toNat < 2 ^ 31) :
    reverseHashtBits (solNodeKey hashv &&& ~~~DATABIT) = hashv := by
  have heven : reverseHashtBits hashv &&& DATABIT = 0 :=
    (and_DATABIT_eq_zero_iff.mpr (reverseHashtBits_even_iff.mpr hh)).symm
  have hclear : solNodeKey hashv &&& ~~~DATABIT = reverseHashtBits hashv := by
    refine BitVec.eq_of_getLsbD_eq fun i hi => ?_
    have hbit := congrArg (fun w : Hash => w.getLsbD i) heven
    simp only [BitVec.getLsbD_and] at hbit
    simp only [solNodeKey, BitVec.getLsbD_and, BitVec.getLsbD_or, BitVec.getLsbD_not, hi, decide_true, Bool.true_and]
    cases hd : (DATABIT : Hash).getLsbD i with
    | true => simpa [hd] using hbit.symm
    | false => simp
  rw [hclear, reverseHashtBits_reverseHashtBits]

namespace Prints

variable {set set' : Hash → Prop} {binds binds' : Hash → T → Prop} {out out' : List (Token T)}

/-- **One list of tokens** fits. -/
theorem unique (h : Prints set binds out) (h' : Prints set' binds' out') (hs : ∀ slot, set slot ↔ set' slot)
    (hb : ∀ hashv v, binds hashv v ↔ binds' hashv v) : out = out' := by
  have hirr : Std.Irrefl fun t u : Token T => t.key < u.key := ⟨fun _ => BitVec.lt_irrefl _⟩
  refine List.Pairwise.eq_of_mem_iff h.sorted h'.sorted fun t => ?_
  cases t with
  | dummy key => simp only [h.dummy, h'.dummy, hs]
  | item key v => simp only [h.item, h'.item, hb]

/-- The items alone are what the map prints with no slot set. -/
theorem items (h : Prints set binds out) :
    Prints (fun _ => False) binds (out.filter fun t => t.payload?.isSome) where
  sorted := h.sorted.sublist List.filter_sublist
  dummy key := by simp [Token.payload?]
  item key v := by simp [Token.payload?, h.item]

theorem filterMap_payload (out : List (Token T)) :
    (out.filter fun t => t.payload?.isSome).filterMap Token.payload? = out.filterMap Token.payload? := by
  rw [List.filterMap_filter]
  refine List.filterMap_congr fun t _ => ?_
  cases t <;> rfl

/-- **Each item is printed in its bucket's group**: where the slot of its
hash is set, nothing but items stand between that slot's dummy and it. -/
theorem grouped {n hashv : Hash} {v : T} {k : Nat} (h : Prints set binds out) (hn : n.toNat = 2 ^ k) (hk : k ≤ 31)
    (hset : ∀ slot, set slot → slot.toNat < 2 ^ k) (hh : hashv.toNat < 2 ^ 31) (hb : binds hashv v)
    (hs : set (hashv % n)) :
    ∃ A run B, out = A ++ .dummy (reverseHashtBits (hashv % n)) :: run ++ .item (solNodeKey hashv) v :: B ∧
      ∀ t ∈ run, t.payload?.isSome := by
  have hlt : reverseHashtBits (hashv % n) < solNodeKey hashv :=
    (bucketKey_lt_nodeKey_iff hn hk (umod_lt_pow hn) hh).mpr (BitVec.le_refl _)
  obtain ⟨A, R, rfl⟩ := List.append_of_mem ((h.dummy _).mpr ⟨_, hs, rfl⟩)
  have hmem := (h.item _ _).mpr ⟨hashv, hb, rfl⟩
  have hsort := List.pairwise_append.mp h.sorted
  have hR : Token.item (solNodeKey hashv) v ∈ R := by
    rcases List.mem_append.mp hmem with hA | hR
    · -- what stands before the dummy has a smaller key
      have hgt := hsort.2.2 _ hA (.dummy (reverseHashtBits (hashv % n))) (by simp)
      exact absurd hgt (BitVec.lt_asymm hlt)
    · simpa using hR
  obtain ⟨run, B, rfl⟩ := List.append_of_mem hR
  refine ⟨A, run, B, by simp, fun t ht => ?_⟩
  cases t with
  | item key w => rfl
  | dummy key =>
    obtain ⟨slot, hslot, rfl⟩ := (h.dummy key).mp (by simp [ht])
    have hafter : reverseHashtBits (hashv % n) < reverseHashtBits slot :=
      (List.pairwise_cons.mp hsort.2.1).1 _ (List.mem_append_left _ ht)
    have hbefore : reverseHashtBits slot < solNodeKey hashv :=
      (List.pairwise_append.mp (List.pairwise_cons.mp hsort.2.1).2).2.2 _ ht (.item (solNodeKey hashv) v) (by simp)
    -- no bucket's key lies between
    have hle := (bucketKey_lt_nodeKey_iff hn hk (hset slot hslot) hh).mp hbefore
    exact absurd hle (BitVec.not_le.mpr hafter)

end Prints

/-! ## The dumps of a list -/

namespace Solist

variable {s s' : Solist T} {l p : List Addr} {slot : Hash}

def IsSet (s : Solist T) (slot : Hash) : Prop := ∃ b, s.buckets[slot.toNat]? = some (some b)

/-- What `dump_solist` writes for a node of a list between two calls. -/
def token (s : Solist T) (x : Addr) : Token T :=
  match (s.heap.node x).payload with
  | some v => .item (s.heap.key x) v
  | none => .dummy (s.heap.key x)

@[simp] theorem token_key (x : Addr) : (s.token x).key = s.heap.key x := by
  unfold token
  split <;> rfl

theorem token_payload (x : Addr) : (s.token x).payload? = (s.heap.node x).payload := by
  unfold token
  split <;> simp [Token.payload?, *]

theorem Inv.token_hashv (hi : s.Inv l p) {x : Addr} (hx : x ∈ l) : (s.token x).hashv = (s.heap.node x).hashv := by
  unfold token
  cases hp : (s.heap.node x).payload with
  | none =>
    simp only [Token.hashv]
    rw [hi.chain.key_dummy hx (isData_eq_false_iff.mpr hp), reverseHashtBits_reverseHashtBits]
  | some v =>
    simp only [Token.hashv]
    rw [hi.chain.key_data hx (by simp [isData, hp]), reverse_solNodeKey (hi.chain.hashv_lt hx)]

theorem Inv.prints (hi : s.Inv l p) : Prints s.IsSet s.Binds (l.map s.token) where
  sorted := by
    rw [List.pairwise_map]
    simpa using hi.chain.sorted
  dummy key := by
    rw [List.mem_map]
    constructor
    · intro h
      obtain ⟨x, hx, ht⟩ := h
      have hp : (s.heap.node x).payload = none := by rw [← token_payload, ht]; rfl
      have hd := isData_eq_false_iff.mpr hp
      refine ⟨(s.heap.node x).hashv, ⟨x, hi.dummy x hx hd⟩, ?_⟩
      rw [← hi.chain.key_dummy hx hd, ← token_key, ht]
      rfl
    · intro h
      obtain ⟨slot, ⟨x, hx⟩, rfl⟩ := h
      obtain ⟨hxl, hd, -⟩ := hi.slot _ x hx
      refine ⟨x, hxl, ?_⟩
      unfold token
      rw [isData_eq_false_iff.mp hd, hi.key_slot hx]
  item key v := by
    rw [List.mem_map]
    constructor
    · intro h
      obtain ⟨x, hx, ht⟩ := h
      have hp : (s.heap.node x).payload = some v := by rw [← token_payload, ht]; rfl
      refine ⟨(s.heap.node x).hashv, hi.binds_iff.mpr ⟨x, hx, rfl, hp⟩, ?_⟩
      rw [← hi.chain.key_data hx (by simp [isData, hp]), ← token_key, ht]
      rfl
    · intro h
      obtain ⟨hashv, hb, rfl⟩ := h
      obtain ⟨x, hx, rfl, hp⟩ := hi.binds_iff.mp hb
      refine ⟨x, hx, ?_⟩
      unfold token
      rw [hp, hi.chain.key_data hx (by simp [isData, hp])]

theorem Inv.dumpSolist_eq (hi : s.Inv l p) : s.dumpSolist = .ok (l.map s.token) := by
  rw [List.map_eq_flatMap]
  refine hi.walk_eq fun x hx => ?_
  have hbit := hi.databit_iff hx
  unfold token Node.castPayload Heap.key
  cases hp : (s.heap.node x).payload with
  | none => rw [if_neg fun h => by simpa [isData, hp] using hbit.mp h]
  | some v =>
    rw [if_pos (hbit.mpr (by simp [isData, hp]))]
    rfl

theorem Inv.dumpSolistItems_eq (hi : s.Inv l p) :
    s.dumpSolistItems = .ok ((l.map s.token).filterMap Token.payload?) := by
  have hout : (l.map s.token).filterMap Token.payload? = l.flatMap fun x => (s.heap.node x).payload.toList := by
    rw [List.filterMap_map, List.filterMap_eq_flatMap_toList]
    exact List.flatMap_congr fun x _ => by rw [Function.comp_apply, token_payload]
  rw [hout]
  refine hi.walk_eq fun x hx => ?_
  have hbit := hi.databit_iff hx
  unfold Node.castPayload
  cases hp : (s.heap.node x).payload with
  | none =>
    rw [if_neg fun h => by simpa [isData, hp] using hbit.mp h]
    rfl
  | some v =>
    rw [if_pos (hbit.mpr (by simp [isData, hp]))]
    rfl

theorem Inv.dumpSolistKeyOrder_eq (hi : s.Inv l p) :
    s.dumpSolistKeyOrder = .ok ((l.map s.token).map Token.key) := by
  rw [List.map_map, List.map_eq_flatMap]
  exact hi.walk_eq fun x _ => by rw [Function.comp_apply, token_key]; rfl

theorem Inv.dumpSolistKeys_eq (hi : s.Inv l p) (a : Accessor) :
    s.dumpSolistKeys a = .ok ((l.map s.token).map Token.key, (l.map s.token).map Token.hashv, a.zap) := by
  have hkeys := hi.dumpSolistKeyOrder_eq
  have hhashes : (s.bucket 0).bind (s.walk (fun n => .ok [n.hashv]) s.fuel) =
      .ok ((l.map s.token).map Token.hashv) := by
    rw [List.map_map, List.map_eq_flatMap]
    exact hi.walk_eq fun x hx => by rw [Function.comp_apply, hi.token_hashv hx]
  unfold dumpSolistKeyOrder at hkeys
  unfold dumpSolistKeys
  obtain ⟨b, hb⟩ := hi.first
  have hb0 : s.bucket 0 = .ok (some b) := bucket_ok hb
  rw [hb0] at hkeys hhashes ⊢
  simp only [bind_ok] at hkeys ⊢
  rw [hkeys, bind_ok, show s.walk (fun n => .ok [n.hashv]) s.fuel (some b) = _ from hhashes, bind_ok]

/-- **`check_solist` finds nothing** on a list between two calls. -/
theorem Inv.checkSolist_eq (hi : s.Inv l p) : s.checkSolist = .ok [] := by
  obtain ⟨b, hb⟩ := hi.first
  obtain ⟨B, rfl⟩ : ∃ B, l = b :: B := List.head?_eq_some_iff.mp (hi.head hb)
  have hlen : B.length < s.fuel := by
    have := hi.chain.length_le
    simp only [List.length_cons, fuel] at this ⊢
    omega
  have hb0 : s.bucket 0 = .ok (some b) := bucket_ok hb
  unfold checkSolist
  rw [hb0, bind_ok, deref_live (hi.chain.live (by simp)), bind_ok]
  rw [← failures_eq_nil_iff.mpr hi.chain.sorted]
  exact checkLoop_eq hi.chain.seg.2 hlen fun y hy => hi.chain.live (by simp [hy])

/-! ## `dump_solist_buckets` -/

theorem mapM_ok {α β : Type} {f : α → Except Fault β} {g : α → β} :
    ∀ {l : List α}, (∀ x ∈ l, f x = .ok (g x)) → l.mapM f = .ok (l.map g) := by
  intro l
  induction l with
  | nil => intro _; rfl
  | cons x l ih =>
    intro h
    rw [List.mapM_cons, h x (by simp), bind_ok, ih fun y hy => h y (by simp [hy])]
    rfl

/-- The line of a slot: where it is set, the dummy in it has the slot's key, hash and number. -/
def bucketLine (s : Solist T) (x : Hash) : Option BucketLine :=
  s.buckets[x.toNat]?.join.map fun b => { bucket := b, key := reverseHashtBits x, hashv := x, slot := x }

theorem Inv.dumpSolistBuckets_eq (hi : s.Inv l p) :
    s.dumpSolistBuckets = .ok ((List.range s.nBuckets.toNat).map fun i =>
      (BitVec.ofNat 32 i, s.bucketLine (BitVec.ofNat 32 i))) := by
  refine mapM_ok fun i hin => ?_
  have hlt : i < s.nBuckets.toNat := List.mem_range.mp hin
  have hi32 : (BitVec.ofNat 32 i).toNat = i := by
    have := s.nBuckets.isLt
    rw [BitVec.toNat_ofNat, Nat.mod_eq_of_lt (by omega)]
  have hslot : BitVec.ofNat 32 i < s.nBuckets := by
    rw [BitVec.lt_def, hi32]
    exact hlt
  obtain ⟨o, ho, hok⟩ := hi.bucket hslot
  unfold bucketLine
  simp only [hok, ho, bind_ok, Option.join_some]
  cases o with
  | none => rfl
  | some b =>
    obtain ⟨hbl, -, hv⟩ := hi.slot _ b ho
    have hhash : (s.heap.node b).hashv = BitVec.ofNat 32 i := BitVec.eq_of_toNat_eq hv
    have hkey := hi.key_slot ho
    unfold Heap.key at hkey
    have hmod : BitVec.ofNat 32 i % s.nBuckets = BitVec.ofNat 32 i := by
      refine BitVec.eq_of_toNat_eq ?_
      rw [BitVec.toNat_umod, hi32, Nat.mod_eq_of_lt hlt]
    simp only [deref_live (hi.chain.live hbl), bind_ok, hkey, hhash, hmod, Option.map_some]

/-! ## Buckets initialised one after another -/

/-- The loop of `test1_1`: `initialise_bucket` on each slot of a list. -/
def initialiseBuckets (s : Solist T) (a : Accessor) : List Hash → Except Fault (Accessor × Solist T)
  | [] => .ok (a, s)
  | slot :: slots => do
    let (a, s) ← s.initialiseBucket a slot
    s.initialiseBuckets a slots

theorem initialiseBucket_isSet (hi : s.Inv l p) (hs : slot < s.nBuckets) {a a' : Accessor}
    (h : s.initialiseBucket a slot = .ok (a', s')) (t : Hash) : s'.IsSet t ↔ s.IsSet t ∨ t = slot := by
  obtain ⟨b, hb, hbk⟩ := hi.bucket hs
  cases b with
  | some b =>
    have heq : s.initialiseBucket a slot = .ok (a, s) := by simp [initialiseBucket, hs, hbk]
    cases heq.symm.trans h
    exact ⟨.inl, fun ht => ht.elim id fun ht => ⟨b, ht ▸ hb⟩⟩
  | none =>
    obtain ⟨a₁, A, c, B, -, -, -, -, -, -, heq⟩ := initialiseBucket_eq hi hs hb a
    cases heq.symm.trans h
    have hlen : slot.toNat < s.buckets.length := by
      rw [hi.size]
      exact hs
    unfold IsSet addDummy
    by_cases ht : t = slot
    · subst ht
      simp [hlen]
    · have hne : slot.toNat ≠ t.toNat := fun he => ht (BitVec.eq_of_toNat_eq he.symm)
      simp [List.getElem?_set_ne hne, ht]

theorem initialiseBuckets_spec : ∀ {slots : List Hash} {s : Solist T} {l : List Addr}, s.Inv l p →
    (∀ slot ∈ slots, slot < s.nBuckets) → ∀ a, ∃ a' s' l', s.initialiseBuckets a slots = .ok (a', s') ∧
      SameItems s l p s' l' ∧ ∀ t, s'.IsSet t ↔ s.IsSet t ∨ t ∈ slots := by
  intro slots
  induction slots with
  | nil =>
    intro s l hi _ a
    exact ⟨a, s, l, rfl, .refl hi, fun t => by simp⟩
  | cons slot slots ih =>
    intro s l hi hs a
    obtain ⟨a₁, s₁, l₁, h₁, hsame₁, hn₁, -⟩ := initialiseBucket_spec hi (hs slot (by simp)) a
    obtain ⟨a', s', l', h', hsame', hset⟩ := ih hsame₁.inv (fun t ht => hn₁ ▸ hs t (by simp [ht])) a₁
    refine ⟨a', s', l', by rw [initialiseBuckets, h₁]; exact h', hsame₁.trans hsame', fun t => ?_⟩
    rw [hset, initialiseBucket_isSet hi (hs slot (by simp)) h₁, List.mem_cons, or_assoc]

end Solist

/-! ## Runs -/

/-- **What the dumps print after any run of calls**: the dummies of the set
slots and the items of the map, by key, each item in the group of its
bucket where that is set; the other dumps print parts of it, the lines of
the table agree with their slots, and `check_solist` finds nothing. -/
theorem dumps_print (T : Type) (size bucketLength : Hash) (hsize : ∃ k, size.toNat = 2 ^ k) :
    ∀ (s : Session T) (hist : List (Record T)), (sessions T size bucketLength).Reachable (s, hist) →
      ∃ out, s.list.dumpSolist = .ok out ∧
        Prints s.list.IsSet (fun h v => (specRun (hist.map Record.op)).2 h = some v) out ∧
        (∀ h v, (specRun (hist.map Record.op)).2 h = some v → s.list.IsSet (h % s.list.nBuckets) →
          ∃ A run B, out = A ++ .dummy (reverseHashtBits (h % s.list.nBuckets)) :: run ++
            .item (solNodeKey h) v :: B ∧ ∀ t ∈ run, t.payload?.isSome) ∧
        s.list.dumpSolistItems = .ok (out.filterMap Token.payload?) ∧
        s.list.dumpSolistKeyOrder = .ok (out.map Token.key) ∧
        (∀ a, s.list.dumpSolistKeys a = .ok (out.map Token.key, out.map Token.hashv, a.zap)) ∧
        s.list.dumpSolistBuckets = .ok ((List.range s.list.nBuckets.toNat).map fun i =>
          (BitVec.ofNat 32 i, s.list.bucketLine (BitVec.ofNat 32 i))) ∧
        s.list.checkSolist = .ok [] := by
  intro s hist h
  obtain ⟨m, l, htr, hr⟩ := sessions_represents (Solist.two_pow_le hsize) h
  have hi := hr.inv
  have hspec : (fun k => (m.item k).map Prod.snd) = (specRun (hist.map Record.op)).2 := by rw [htr.spec]
  have hbinds : ∀ k v, s.list.Binds k v ↔ (specRun (hist.map Record.op)).2 k = some v := by
    intro k v
    rw [hr.binds_iff, ← hspec]
  obtain ⟨k, hk, hn⟩ := hi.nBuckets
  have hset : ∀ slot, s.list.IsSet slot → slot.toNat < 2 ^ k := by
    intro slot hslot
    obtain ⟨b, hb⟩ := hslot
    rw [← hn, ← hi.size]
    exact (List.getElem?_eq_some_iff.mp hb).1
  refine ⟨_, hi.dumpSolist_eq, ?_, fun j v hj hs => ?_, hi.dumpSolistItems_eq, hi.dumpSolistKeyOrder_eq,
    hi.dumpSolistKeys_eq, hi.dumpSolistBuckets_eq, hi.checkSolist_eq⟩
  · have hp := hi.prints
    exact ⟨hp.sorted, hp.dummy, fun key v => by rw [hp.item]; simp only [hbinds]⟩
  · have hb := (hbinds j v).mpr hj
    obtain ⟨x, hx, rfl, -⟩ := hi.binds_iff.mp hb
    exact hi.prints.grouped hn hk hset (hi.chain.hashv_lt hx) hb hs

theorem dumps_print_two :
    ∃ s hist out, (sessions Nat 2 4).Reachable (s, hist) ∧
      hist.map Record.op = [.insertNode 5 7, .findItemNode 5] ∧ s.list.dumpSolist = .ok out ∧
      .item (solNodeKey 5) 7 ∈ out ∧ s.list.checkSolist = .ok [] := by
  obtain ⟨s, hist, hreach, hops⟩ := twoCalls_reachable
  obtain ⟨out, hout, hp, -, -, -, -, -, hcheck⟩ := dumps_print Nat 2 4 ⟨1, rfl⟩ s hist hreach
  refine ⟨s, hist, out, hreach, hops, hout, (hp.item _ _).mpr ⟨5, ?_, rfl⟩, hcheck⟩
  rw [hops]
  decide +kernel

end SplitOrder
