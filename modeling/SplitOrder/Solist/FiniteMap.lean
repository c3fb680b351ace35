/-
A split-ordered list is a finite map, whatever its table does.

`ItemMap` is what the list is for: a map from hashes to nodes, with a call
relation of its own. Each call of `solist.hpp` is one call of it
(`Represents` relates the two), so a run's results are a trace of the map;
and a caller who only looks at payloads sees what `specRun` says, which
knows of no table, bucket or node.
-/
import SplitOrder.Solist.Calls

namespace SplitOrder

open Heap

variable {T : Type}

/-! ## The map -/

/-- Hashes bound to nodes and their payloads; `used` bounds the nodes ever bound. -/
structure ItemMap (T : Type) where
  item : Hash → Option (Addr × T)
  used : Addr

namespace ItemMap

def empty : ItemMap T := { item := fun _ => none, used := 0 }

def bind (m : ItemMap T) (h : Hash) (n : Addr) (v : T) : ItemMap T :=
  { item := Function.update m.item h (some (n, v)), used := n + 1 }

def unbind (m : ItemMap T) (h : Hash) : ItemMap T := { m with item := Function.update m.item h none }

section

variable {m : ItemMap T} {h k : Hash} {n : Addr} {v : T}

@[simp] theorem bind_item_self : (m.bind h n v).item h = some (n, v) := Function.update_self ..
@[simp] theorem unbind_item_self : (m.unbind h).item h = none := Function.update_self ..

theorem bind_item_of_ne (hk : k ≠ h) : (m.bind h n v).item k = m.item k := Function.update_of_ne hk ..

theorem unbind_item_of_ne (hk : k ≠ h) : (m.unbind h).item k = m.item k := Function.update_of_ne hk ..

end

end ItemMap

/-- One call on the map. -/
inductive ItemMap.Call : ItemMap T → Record T → ItemMap T → Prop
  | insertNew {m : ItemMap T} {h v n} : m.item h = none → m.used ≤ n →
      Call m ⟨.insertNode h v, .bool true, .bool true⟩ (m.bind h n v)
  | insertHeld {m : ItemMap T} {h v b} : m.item h = some b → Call m ⟨.insertNode h v, .bool false, .bool false⟩ m
  | deleteHeld {m : ItemMap T} {h b} : m.item h = some b →
      Call m ⟨.deleteNode h, .bool true, .bool true⟩ (m.unbind h)
  | deleteAbsent {m : ItemMap T} {h} : m.item h = none → Call m ⟨.deleteNode h, .bool false, .bool false⟩ m
  | find {m : ItemMap T} {h} :
      Call m ⟨.findItemNode h, .item ((m.item h).map Prod.fst), .payload ((m.item h).map Prod.snd)⟩ m
  | initialise {m : ItemMap T} {slot} : Call m ⟨.initialiseBucket slot, .unit, .unit⟩ m

/-- The calls of a run, from the empty map. -/
inductive ItemMap.Trace : List (Record T) → ItemMap T → Prop
  | nil : Trace [] .empty
  | snoc {hist m r m'} : Trace hist m → Call m r m' → Trace (hist ++ [r]) m'

/-! ## What a caller sees -/

/-- One call on a map from hashes to payloads. -/
def specCall (m : Hash → Option T) : Op T → View T × (Hash → Option T)
  | .insertNode h v => if (m h).isSome then (.bool false, m) else (.bool true, Function.update m h (some v))
  | .deleteNode h => if (m h).isSome then (.bool true, Function.update m h none) else (.bool false, m)
  | .findItemNode h => (.payload (m h), m)
  | .initialiseBucket _ => (.unit, m)

/-- The results of a list of calls on the empty map. -/
def specRun (ops : List (Op T)) : List (View T) × (Hash → Option T) :=
  ops.foldl (fun (vs, m) op => let (v, m) := specCall m op; (vs ++ [v], m)) ([], fun _ => none)

theorem specRun_snoc {ops : List (Op T)} {op : Op T} :
    specRun (ops ++ [op]) =
      ((specRun ops).1 ++ [(specCall (specRun ops).2 op).1], (specCall (specRun ops).2 op).2) := by
  simp [specRun, List.foldl_append]

theorem ItemMap.Call.spec {m m' : ItemMap T} {r : Record T} (h : Call m r m') :
    specCall (fun k => (m.item k).map Prod.snd) r.op = (r.view, fun k => (m'.item k).map Prod.snd) := by
  have hbind : ∀ h n v, (fun k => ((m.bind h n v).item k).map Prod.snd) =
      Function.update (fun k => (m.item k).map Prod.snd) h (some v) := by
    intro h n v
    funext k
    by_cases hk : k = h
    · simp [hk]
    · simp [Function.update_of_ne hk, bind_item_of_ne hk]
  have hunbind : ∀ h, (fun k => ((m.unbind h).item k).map Prod.snd) =
      Function.update (fun k => (m.item k).map Prod.snd) h none := by
    intro h
    funext k
    by_cases hk : k = h
    · simp [hk]
    · simp [Function.update_of_ne hk, unbind_item_of_ne hk]
  cases h with
  | insertNew hm _ => simp [specCall, hm, hbind]
  | insertHeld hm => simp [specCall, hm]
  | deleteHeld hm => simp [specCall, hm, hunbind]
  | deleteAbsent hm => simp [specCall, hm]
  | find => rfl
  | initialise => rfl

/-- The payloads a trace shows are a function of its calls. -/
theorem ItemMap.Trace.spec {hist : List (Record T)} {m : ItemMap T} (h : Trace hist m) :
    specRun (hist.map Record.op) = (hist.map Record.view, fun k => (m.item k).map Prod.snd) := by
  induction h with
  | nil => rfl
  | snoc _ hc ih =>
    rw [List.map_append, List.map_singleton, specRun_snoc, ih]
    simp [hc.spec]

/-! ## The list represents the map -/

/-- `m` binds the hashes of the data nodes of the chain, and nothing else. -/
structure Represents (s : Solist T) (m : ItemMap T) (l : List Addr) : Prop where
  inv : s.Inv l []
  item : ∀ h a v, m.item h = some (a, v) ↔ a ∈ l ∧ (s.heap.node a).hashv = h ∧ (s.heap.node a).payload = some v
  used : m.used ≤ s.heap.size

namespace Represents

variable {s s' : Solist T} {m : ItemMap T} {l l' : List Addr} {h : Hash} {n : Addr} {v : T}

theorem holds_iff (hr : Represents s m l) : s.Holds l h ↔ (m.item h).isSome := by
  constructor
  · rintro ⟨x, hx, hd, hv⟩
    obtain ⟨v, hp⟩ := Option.isSome_iff_exists.mp hd
    rw [(hr.item h x v).mpr ⟨hx, hv, hp⟩]
    rfl
  · intro hm
    obtain ⟨⟨x, v⟩, hb⟩ := Option.isSome_iff_exists.mp hm
    obtain ⟨hx, hv, hp⟩ := (hr.item h x v).mp hb
    exact ⟨x, hx, by simp [isData, hp], hv⟩

theorem not_holds_iff (hr : Represents s m l) : ¬ s.Holds l h ↔ m.item h = none := by
  rw [hr.holds_iff, Option.not_isSome_iff_eq_none]

/-- The data nodes of the chain, with what the map says of them. -/
theorem item_iff (hr : Represents s m l) :
    m.item h = some (n, v) ↔
      (n ∈ l ∧ s.heap.isData n = true) ∧ (s.heap.node n).hashv = h ∧ (s.heap.node n).payload = some v := by
  rw [hr.item]
  constructor
  · rintro ⟨hn, hv, hp⟩
    exact ⟨⟨hn, by simp [isData, hp]⟩, hv, hp⟩
  · rintro ⟨⟨hn, -⟩, hv, hp⟩
    exact ⟨hn, hv, hp⟩

theorem of_data {m' : ItemMap T} (hinv : s'.Inv l' []) (hused : m'.used ≤ s'.heap.size)
    (h : ∀ h a v, m'.item h = some (a, v) ↔
      (a ∈ l' ∧ s'.heap.isData a = true) ∧ (s'.heap.node a).hashv = h ∧ (s'.heap.node a).payload = some v) :
    Represents s' m' l' := by
  refine ⟨hinv, fun k a v => ?_, hused⟩
  rw [h]
  constructor
  · rintro ⟨⟨hn, -⟩, hv, hp⟩
    exact ⟨hn, hv, hp⟩
  · rintro ⟨hn, hv, hp⟩
    exact ⟨⟨hn, by simp [isData, hp]⟩, hv, hp⟩

theorem sameItems (hr : Represents s m l) (h : Solist.SameItems s l [] s' l') : Represents s' m l' := by
  refine of_data h.inv (Nat.le_trans hr.used h.ext.size) fun k a v => ?_
  rw [hr.item_iff, h.mem_data_iff]
  refine and_congr_right fun ha => ?_
  have hlt := (hr.inv.chain.live ha.1).1
  rw [h.ext.hashv a hlt, h.ext.payload a hlt]

theorem added (hr : Represents s m l) (ha : Solist.Added s l s' l' h v n) :
    Represents s' (m.bind h n v) l' := by
  obtain ⟨hn, -⟩ := (ha.data n).mpr (.inl rfl)
  refine of_data ha.inv (ha.inv.chain.live hn).1 fun k a w => ?_
  rw [ha.data]
  by_cases hk : k = h
  · subst hk
    rw [ItemMap.bind_item_self]
    constructor
    · intro he
      obtain ⟨rfl, rfl⟩ : n = a ∧ v = w := by simpa using he
      exact ⟨.inl rfl, ha.hashv, ha.payload⟩
    · rintro ⟨rfl | ⟨hal, had⟩, hv, hp⟩
      · rw [ha.payload] at hp
        simpa using hp
      · -- the hash was absent
        rw [ha.ext.hashv a (hr.inv.chain.live hal).1] at hv
        exact absurd ⟨a, hal, had, hv⟩ ha.absent
  · rw [ItemMap.bind_item_of_ne hk, hr.item_iff]
    constructor
    · rintro ⟨hal, hv, hp⟩
      have hlt := (hr.inv.chain.live hal.1).1
      exact ⟨.inr hal, by rw [ha.ext.hashv a hlt, hv], by rw [ha.ext.payload a hlt, hp]⟩
    · rintro ⟨rfl | hal, hv, hp⟩
      · exact absurd (ha.hashv.symm.trans hv) fun h => hk h.symm
      · have hlt := (hr.inv.chain.live hal.1).1
        exact ⟨hal, by rw [← ha.ext.hashv a hlt, hv], by rw [← ha.ext.payload a hlt, hp]⟩

theorem removed (hr : Represents s m l) (hrm : Solist.Removed s l s' l' h n) :
    Represents s' (m.unbind h) l' := by
  refine of_data hrm.inv (Nat.le_trans hr.used hrm.ext.size) fun k a w => ?_
  rw [hrm.data]
  by_cases hk : k = h
  · subst hk
    rw [ItemMap.unbind_item_self]
    constructor
    · intro he
      cases he
    · rintro ⟨⟨hne, hal, had⟩, hv, hp⟩
      -- only `n` has the hash
      have hlt := (hr.inv.chain.live hal).1
      rw [hrm.ext.hashv a hlt] at hv
      refine absurd (hr.inv.chain.eq_of_key_eq hal hrm.mem ?_) hne
      rw [hr.inv.chain.key_data hal had, hr.inv.chain.key_data hrm.mem hrm.isData, hv, hrm.hashv]
  · rw [ItemMap.unbind_item_of_ne hk, hr.item_iff]
    constructor
    · rintro ⟨hal, hv, hp⟩
      have hlt := (hr.inv.chain.live hal.1).1
      refine ⟨⟨?_, hal⟩, by rw [hrm.ext.hashv a hlt, hv], by rw [hrm.ext.payload a hlt, hp]⟩
      rintro rfl
      exact hk (hv.symm.trans hrm.hashv)
    · rintro ⟨⟨-, hal⟩, hv, hp⟩
      have hlt := (hr.inv.chain.live hal.1).1
      exact ⟨hal, by rw [← hrm.ext.hashv a hlt, hv], by rw [← hrm.ext.payload a hlt, hp]⟩

end Represents

/-! ## Runs -/

theorem create_spec (size bucketLength : Hash) (hsize : ∃ k ≤ 31, size.toNat = 2 ^ k) :
    ∃ s : Solist T, Solist.create size bucketLength = .ok s ∧ Represents s .empty [0] := by
  obtain ⟨k, hk, hn⟩ := hsize
  have hpos : 0 < size.toNat := by
    rw [hn]
    exact Nat.two_pow_pos _
  have hfirst : (Solist.initial (T := T) size bucketLength).buckets[0]? = some (some 0) :=
    List.getElem?_set_self (by simpa using hpos)
  refine ⟨_, Solist.create_eq bucketLength hpos, ⟨?_, ⟨k, hk, hn⟩, by simp [Solist.initial], ⟨0, hfirst⟩,
    fun i a hi => ?_, fun a ha _ => ?_, by simp [isData]⟩, fun h a v => ?_, Nat.zero_le _⟩
  · exact ⟨by simp [nextOf], by simp, by simp, by simp [Node.WellKeyed], by simp⟩
  · by_cases h0 : i = 0
    · rw [h0, hfirst, Option.some.injEq, Option.some.injEq] at hi
      subst hi
      simp [isData, h0]
    · exact absurd hi (Solist.initial_slot h0 a)
  · rw [List.mem_singleton.mp ha]
    exact hfirst
  · simp only [ItemMap.empty, List.mem_singleton]
    constructor
    · intro he
      cases he
    · intro he
      obtain ⟨rfl, -, hp⟩ := he
      cases hp

/-- **One call** is one call on the map, and faults only where the table cannot grow. -/
theorem call_spec {s : Session T} {m : ItemMap T} {l : List Addr} (hr : Represents s.list m l) (i : Nat) {op : Op T}
    (hv : op.Valid s.list) :
    (∃ r s' m' l', s.call i op = .ok (r, s') ∧ Represents s'.list m' l' ∧
        m.Call { op, res := r, view := r.view s'.list.heap } m') ∨
      (s.list.nBuckets.toNat = 2 ^ 31 ∧ (∃ h v, op = .insertNode h v) ∧ s.call i op = .error .copyOutOfBounds) := by
  cases op with
  | insertNode h v =>
    obtain ⟨a', s', l', ⟨hold, hsame, hcall⟩ | ⟨hadd, hcall⟩ | ⟨hn, hcall⟩⟩ :=
      Solist.insertNode_spec hr.inv hv (s.accessor i) v
    · obtain ⟨b, hb⟩ := Option.isSome_iff_exists.mp (hr.holds_iff.mp hold)
      exact .inl ⟨_, s.after i a' s', m, l', by simp only [Session.call, hcall, bind_ok], hr.sameItems hsame,
        .insertHeld hb⟩
    · exact .inl ⟨_, s.after i a' s', _, l', by simp only [Session.call, hcall, bind_ok], hr.added hadd,
        .insertNew (hr.not_holds_iff.mp hadd.absent) hr.used⟩
    · exact .inr ⟨hn, ⟨h, v, rfl⟩, by simp only [Session.call, hcall, bind_error]⟩
  | deleteNode h =>
    obtain ⟨a', s', l', -, ⟨habs, hsame, hcall⟩ | ⟨n, hrm, hcall⟩⟩ := Solist.deleteNode_spec hr.inv hv (s.accessor i)
    · exact .inl ⟨_, s.after i a' s', m, l', by simp only [Session.call, hcall, bind_ok], hr.sameItems hsame,
        .deleteAbsent (hr.not_holds_iff.mp habs)⟩
    · obtain ⟨b, hb⟩ := Option.isSome_iff_exists.mp (hr.holds_iff.mp ⟨n, hrm.mem, hrm.isData, hrm.hashv⟩)
      exact .inl ⟨_, s.after i a' s', _, l', by simp only [Session.call, hcall, bind_ok], hr.removed hrm,
        .deleteHeld hb⟩
  | findItemNode h =>
    obtain ⟨a', s', l', r, hsame, -, hcall, hres⟩ := Solist.findItemNode_spec hr.inv hv (s.accessor i)
    refine .inl ⟨.item r, s.after i a' s', m, l',
      by simp only [Session.call, hcall, bind_ok], hr.sameItems hsame, ?_⟩
    rcases hres with ⟨habs, rfl⟩ | ⟨n, rfl, hnl, hd, hv⟩
    · have := ItemMap.Call.find (m := m) (h := h)
      rwa [hr.not_holds_iff.mp habs] at this
    · obtain ⟨v, hp⟩ := Option.isSome_iff_exists.mp hd
      have hb := (hr.item h n v).mpr ⟨hnl, hv, hp⟩
      have := ItemMap.Call.find (m := m) (h := h)
      rw [hb] at this
      simp only [Res.view, Session.after, Option.bind_some, hsame.ext.payload n (hr.inv.chain.live hnl).1, hp]
      exact this
  | initialiseBucket slot =>
    obtain ⟨a', s', l', hcall, hsame, -⟩ := Solist.initialiseBucket_spec hr.inv hv (s.accessor i)
    exact .inl ⟨_, s.after i a' s', m, l', by simp only [Session.call, hcall, bind_ok], hr.sameItems hsame, .initialise⟩

/-- Every state of a run of calls represents the map its results are a trace of. -/
theorem sessions_represents {size bucketLength : Hash} (hsize : ∃ k ≤ 31, size.toNat = 2 ^ k)
    {s : Session T × List (Record T)} (h : (sessions T size bucketLength).Reachable s) :
    ∃ m l, ItemMap.Trace s.2 m ∧ Represents s.1.list m l := by
  refine h.invariant (I := fun s => ∃ m l, ItemMap.Trace s.2 m ∧ Represents s.1.list m l) (fun s hs => ?_)
    fun s e s' hs _ hn => ?_
  · obtain ⟨list, hlist, rfl⟩ := hs
    obtain ⟨s₀, hs₀, hr⟩ := create_spec (T := T) size bucketLength hsize
    rw [hs₀] at hlist
    cases hlist
    exact ⟨.empty, [0], .nil, hr⟩
  · obtain ⟨m, l, htr, hr⟩ := hs
    obtain ⟨i, op⟩ := e
    simp only [sessions] at hn
    split at hn
    · rcases call_spec hr i ‹_› with ⟨r, s₁, m', l', hcall, hr', hm⟩ | ⟨-, -, hcall⟩
      · rw [hcall] at hn
        simp only [Option.some.injEq] at hn
        subst hn
        exact ⟨m', l', htr.snoc hm, hr'⟩
      · rw [hcall] at hn
        cases hn
    · cases hn

/-- A run of two calls, on two accessors. -/
theorem twoCalls_reachable : ∃ s hist, (sessions Nat 2 4).Reachable (s, hist) ∧
    hist.map Record.op = [.insertNode 5 7, .findItemNode 5] := by
  obtain ⟨list, hlist, -⟩ := create_spec (T := Nat) 2 4 ⟨1, by decide, rfl⟩
  have hsome : ((sessions Nat 2 4).run ({ list }, []) [(0, .insertNode 5 7), (1, .findItemNode 5)]).map
      (fun x => x.2.map Record.op) = some [.insertNode 5 7, .findItemNode 5] := by
    cases hlist
    decide +kernel
  obtain ⟨⟨s, hist⟩, hx, hops⟩ := Option.map_eq_some_iff.mp hsome
  have hinit : (sessions Nat 2 4).init ({ list }, []) := ⟨list, hlist, rfl⟩
  exact ⟨s, hist, System.run_reachable (.init hinit) hx, hops⟩

/-- **A run of calls is a run of a finite map.** On a fresh list of any power
of two of slots: the results are a trace of the map, whose bindings are the
data nodes of the chain; the payloads seen depend on the calls alone; and
the next valid call returns, except an insert that would grow the table
past `2 ^ 31` slots. -/
theorem solist_refines_map (size bucketLength : Hash) (hsize : ∃ k ≤ 31, size.toNat = 2 ^ k) :
    (∃ s : Solist T, Solist.create size bucketLength = .ok s) ∧
    ∀ (s : Session T) (hist : List (Record T)), (sessions T size bucketLength).Reachable (s, hist) →
      (∃ m l, ItemMap.Trace hist m ∧ Represents s.list m l) ∧
      hist.map Record.view = (specRun (hist.map Record.op)).1 ∧
      ∀ i (op : Op T), op.Valid s.list →
        (∃ r s', s.call i op = .ok (r, s')) ∨
          (s.list.nBuckets.toNat = 2 ^ 31 ∧ (∃ h v, op = .insertNode h v) ∧
            s.call i op = .error .copyOutOfBounds) := by
  refine ⟨?_, fun s hist h => ?_⟩
  · obtain ⟨s, hs, -⟩ := create_spec (T := T) size bucketLength hsize
    exact ⟨s, hs⟩
  · obtain ⟨m, l, htr, hr⟩ := sessions_represents hsize h
    refine ⟨⟨m, l, htr, hr⟩, by rw [htr.spec], fun i op hv => ?_⟩
    rcases call_spec hr i hv with ⟨r, s', -, -, hcall, -⟩ | hfault
    · exact .inl ⟨r, s', hcall⟩
    · exact .inr hfault

theorem solist_refines_map_two :
    ∃ s hist, (sessions Nat 2 4).Reachable (s, hist) ∧
      hist.map Record.op = [.insertNode 5 7, .findItemNode 5] ∧
      hist.map Record.view = [.bool true, .payload (some 7)] := by
  obtain ⟨s, hist, hreach, hops⟩ := twoCalls_reachable
  refine ⟨s, hist, hreach, hops, ?_⟩
  rw [((solist_refines_map (T := Nat) 2 4 ⟨1, by decide, rfl⟩).2 s hist hreach).2.1, hops]
  decide +kernel

end SplitOrder
