/-
How far a run of calls can grow the table.

An insert doubles the table in two cases: its bucket is longer than the
limit and there are enough items for the slots there are, or its bucket has
twice the limit, whatever the items. Only the first keeps the table in
proportion to the items. `table_bounds` counts the second apart: with `o`
such inserts the table is at least `2 ^ o` times its first size, and at most
`2 ^ o` times what the items account for. `congruent_blow_up` is what that
allows: hashes that agree modulo a power of two share a bucket until the
table has passed that power, so each of them doubles it.
-/
import Mathlib.Tactic.Ring
import SplitOrder.Solist.Ordering
import SplitOrder.Solist.Splitting

namespace SplitOrder

open Heap

variable {T : Type}

/-! ## Counting items by calls -/

/-- A call that added an item. -/
def Record.inserted (r : Record T) : Bool :=
  match r.op with
  | .insertNode _ _ => r.res = .bool true
  | _ => false

/-- A call that removed an item. -/
def Record.deleted (r : Record T) : Bool :=
  match r.op with
  | .deleteNode _ => r.res = .bool true
  | _ => false

def inserts (hist : List (Record T)) : Nat := hist.countP Record.inserted

def deletes (hist : List (Record T)) : Nat := hist.countP Record.deleted

theorem ItemMap.Trace.hashes {hist : List (Record T)} {m : ItemMap T} (h : Trace hist m) :
    ∃ hs : List Hash, hs.Nodup ∧ hs.length + deletes hist = inserts hist ∧ ∀ k, k ∈ hs ↔ (m.item k).isSome := by
  induction h with
  | nil => exact ⟨[], List.nodup_nil, rfl, fun k => by simp [ItemMap.empty]⟩
  | snoc _ hc ih =>
    obtain ⟨hs, hnd, hlen, hmem⟩ := ih
    unfold inserts deletes at hlen ⊢
    cases hc with
    | @insertNew h v n hm _ =>
      have hnew : h ∉ hs := by
        rw [hmem, hm]
        simp
      refine ⟨h :: hs, List.nodup_cons.mpr ⟨hnew, hnd⟩, ?_, fun k => ?_⟩
      · simp only [List.countP_append, List.countP_singleton, Record.inserted, Record.deleted, List.length_cons]
        simp
        omega
      · by_cases hk : k = h
        · simp [hk]
        · simp [hk, bind_item_of_ne hk, hmem]
    | @deleteHeld h b hm =>
      have hold : h ∈ hs := by
        rw [hmem, hm]
        rfl
      have hpos := List.length_pos_of_mem hold
      refine ⟨hs.erase h, hnd.erase h, ?_, fun k => ?_⟩
      · rw [List.length_erase_of_mem hold]
        simp only [List.countP_append, List.countP_singleton, Record.inserted, Record.deleted]
        simp
        omega
      · rw [hnd.mem_erase_iff]
        by_cases hk : k = h
        · simp [hk]
        · simp [hk, unbind_item_of_ne hk, hmem]
    | insertHeld _ => exact ⟨hs, hnd, by simpa [Record.inserted, Record.deleted] using hlen, hmem⟩
    | deleteAbsent _ => exact ⟨hs, hnd, by simpa [Record.inserted, Record.deleted] using hlen, hmem⟩
    | find => exact ⟨hs, hnd, by simpa [Record.inserted, Record.deleted] using hlen, hmem⟩
    | initialise => exact ⟨hs, hnd, by simpa [Record.inserted, Record.deleted] using hlen, hmem⟩

/-- The counter of a list that represents a map is the number of hashes bound. -/
theorem Represents.nItems_eq {s : Solist T} {m : ItemMap T} {l : List Addr} (hr : Represents s m l) {hs : List Hash}
    (hnd : hs.Nodup) (hmem : ∀ k, k ∈ hs ↔ (m.item k).isSome) : s.nItems.toNat = hs.length := by
  have hc := hr.inv.chain
  have hnd' : ((l.filter s.heap.isData).map fun x => (s.heap.node x).hashv).Nodup := by
    refine List.Nodup.map_on (fun x hx y hy hxy => ?_) (hc.nodup.filter _)
    obtain ⟨hxl, hxd⟩ := List.mem_filter.mp hx
    obtain ⟨hyl, hyd⟩ := List.mem_filter.mp hy
    exact hc.eq_of_key_eq hxl hyl (by rw [hc.key_data hxl hxd, hc.key_data hyl hyd, hxy])
  have hperm := (List.perm_ext_iff_of_nodup hnd' hnd).mpr fun k => by
    rw [hmem, ← hr.holds_iff, List.mem_map]
    constructor
    · intro h
      obtain ⟨x, hx, hv⟩ := h
      obtain ⟨hxl, hxd⟩ := List.mem_filter.mp hx
      exact ⟨x, hxl, hxd, hv⟩
    · intro h
      obtain ⟨x, hxl, hxd, hv⟩ := h
      exact ⟨x, List.mem_filter.mpr ⟨hxl, hxd⟩, hv⟩
  rw [hr.inv.nItems_toNat, ← hperm.length_eq, List.length_map, List.countP_eq_length_filter]

/-- Each item was inserted once, and those that were deleted are gone. -/
theorem Represents.nItems_add_deletes {s : Solist T} {m : ItemMap T} {l : List Addr} {hist : List (Record T)}
    (hr : Represents s m l) (htr : ItemMap.Trace hist m) : s.nItems.toNat + deletes hist = inserts hist := by
  obtain ⟨hs, hnd, hlen, hmem⟩ := htr.hashes
  rw [hr.nItems_eq hnd hmem, hlen]

/-! ## One call -/

/-- An insert that finds its bucket at twice the limit, the item counted. -/
def Op.Overfull (s : Solist T) : Op T → Prop
  | .insertNode h _ => ¬ s.Holds s.nodes h ∧ 2 * s.maxBucketLength.toNat ≤ s.newLength h
  | .deleteNode _ | .findItemNode _ | .initialiseBucket _ => False

instance (s : Solist T) (op : Op T) : Decidable (op.Overfull s) :=
  match op with
  | .insertNode _ _ => inferInstanceAs (Decidable (_ ∧ _))
  | .deleteNode _ | .findItemNode _ | .initialiseBucket _ => inferInstanceAs (Decidable False)

theorem Op.Overfull.slotsAfter {s : Solist T} {op : Op T} (h : op.Overfull s) :
    op.slotsAfter s = 2 * s.nBuckets.toNat := by
  cases op with
  | insertNode k v =>
    obtain ⟨habs, hlen⟩ := h
    have hpos : 0 < s.newLength k := Nat.succ_pos _
    exact if_pos ⟨habs, by omega, .inl hlen⟩
  | deleteNode k => cases h
  | findItemNode k => cases h
  | initialiseBucket slot => cases h

/-- A call that doubles the table and finds no bucket at twice the limit has the items for it. -/
theorem Op.slotsAfter_cases {s : Solist T} {op : Op T} (h : ¬ op.Overfull s) :
    op.slotsAfter s = s.nBuckets.toNat ∨
      (∃ k v, op = .insertNode k v ∧ ¬ s.Holds s.nodes k) ∧ op.slotsAfter s = 2 * s.nBuckets.toNat ∧
        s.maxBucketLength.toNat * s.nBuckets.toNat ≤ s.nItems.toNat + 1 := by
  cases op with
  | insertNode k v =>
    by_cases hg : ¬ s.Holds s.nodes k ∧ s.Grows k
    · obtain ⟨habs, hlong, htwice | hitems⟩ := hg
      · exact absurd ⟨habs, htwice⟩ h
      · exact .inr ⟨⟨k, v, rfl, habs⟩, if_pos ⟨habs, hlong, .inr hitems⟩, hitems⟩
    · exact .inl (if_neg hg)
  | deleteNode k => exact .inl rfl
  | findItemNode k => exact .inl rfl
  | initialiseBucket slot => exact .inl rfl

namespace Solist

variable {s s' : Solist T} {l p : List Addr} {hashv : Hash}

theorem deleteNode_maxBucketLength (hi : s.Inv l []) (hh : hashv.toNat < 2 ^ 31) {a a' : Accessor} {b : Bool}
    (h : s.deleteNode a hashv = .ok (b, a', s')) : s'.maxBucketLength = s.maxBucketLength := by
  have hrun : s.deleteNode a hashv =
      deleteLoop hashv (s.heap.size + 1) s a >>= fun r => .ok (r.1, r.2.1.zap, r.2.2) := rfl
  obtain ⟨a₁, s₁, A, n, B, hsame, -, ⟨-, hloop⟩ | ⟨-, -, A', c, -, hloop⟩⟩ := deleteLoop_spec hi hh s.heap.size a
  · rw [hrun, hloop] at h
    cases h
    exact hsame.maxBucketLength
  · rw [hrun, hloop] at h
    cases h
    exact hsame.maxBucketLength

theorem insertNode_maxBucketLength (hi : s.Inv l []) (hh : hashv.toNat < 2 ^ 31) {a a' : Accessor} {v : T} {b : Bool}
    (h : s.insertNode a hashv v = .ok (b, a', s')) : s'.maxBucketLength = s.maxBucketLength := by
  by_cases hold : s.Holds l hashv
  · obtain ⟨a₁, s₁, l₁, hsame, -, hrun⟩ := insertNode_held hi hh hold a v
    cases hrun.symm.trans h
    exact hsame.maxBucketLength
  · obtain ⟨a₂, s₂, l₂, hadd, -, hmax, -, -, hrun⟩ := insertNode_absent hi hh hold a v
    rw [hrun] at h
    rcases expansionCheck_spec hadd.inv a₂ hashv with ⟨a₁, s₁, l₁, hcheck, hsame, -⟩ | ⟨-, -, hcheck⟩
    · rw [hcheck] at h
      cases h
      exact hsame.maxBucketLength.trans hmax
    · rw [hcheck] at h
      cases h

end Solist

theorem call_maxBucketLength {s s' : Session T} {l : List Addr} {i : Nat} {op : Op T} {r : Res}
    (hi : s.list.Inv l []) (hv : op.Valid s.list) (h : s.call i op = .ok (r, s')) :
    s'.list.maxBucketLength = s.list.maxBucketLength := by
  obtain ⟨⟨res, a', list⟩, hop, h⟩ := bind_eq_ok.mp h
  cases h
  cases op with
  | insertNode k v =>
    obtain ⟨⟨b, a₁, l₁⟩, hrun, hop⟩ := bind_eq_ok.mp hop
    cases hop
    exact Solist.insertNode_maxBucketLength hi hv hrun
  | deleteNode k =>
    obtain ⟨⟨b, a₁, l₁⟩, hrun, hop⟩ := bind_eq_ok.mp hop
    cases hop
    exact Solist.deleteNode_maxBucketLength hi hv hrun
  | findItemNode k =>
    obtain ⟨⟨b, a₁, l₁⟩, hrun, hop⟩ := bind_eq_ok.mp hop
    cases hop
    obtain ⟨a₂, l₂, l', r, hsame, -, hrun', -⟩ := Solist.findItemNode_spec hi hv (s.accessor i)
    cases hrun'.symm.trans hrun
    exact hsame.maxBucketLength
  | initialiseBucket slot =>
    obtain ⟨⟨a₁, l₁⟩, hrun, hop⟩ := bind_eq_ok.mp hop
    cases hop
    obtain ⟨a₂, l₂, l', hrun', hsame, -⟩ := Solist.initialiseBucket_spec hi hv (s.accessor i)
    cases hrun'.symm.trans hrun
    exact hsame.maxBucketLength

/-- **What one call of a run does** to the map, the slots and the limit. -/
theorem sessions_step {size bucketLength : Hash} {s s' : Session T × List (Record T)} {e : Nat × Op T} {m : ItemMap T}
    {l : List Addr} (hr : Represents s.1.list m l) (hfits : e.2.Fits s.1.list)
    (hn : (sessions T size bucketLength).next s e = some s') :
    ∃ r m' l', s'.2 = s.2 ++ [r] ∧ r.op = e.2 ∧ m.Call r m' ∧ Represents s'.1.list m' l' ∧
      s'.1.list.nBuckets.toNat = e.2.slotsAfter s.1.list ∧
      s'.1.list.maxBucketLength = s.1.list.maxBucketLength := by
  simp only [sessions] at hn
  split at hn
  · rename_i hv
    obtain ⟨r, s₁, hcall, hslots, -⟩ := call_slots hr.inv e.1 hv hfits
    rcases call_spec hr e.1 hv with ⟨r', s₁', m', l', hcall', hr', hm⟩ | ⟨-, -, hcall'⟩
    · cases hcall.symm.trans hcall'
      rw [hcall] at hn
      cases hn
      exact ⟨_, m', l', rfl, rfl, hm, hr', hslots, call_maxBucketLength hr.inv hv hcall⟩
    · cases hcall.symm.trans hcall'
  · cases hn

/-- The call of an insert of an absent hash counts. -/
theorem ItemMap.Call.inserts_absent {m m' : ItemMap T} {r : Record T} (hc : m.Call r m') (hist : List (Record T))
    {h : Hash} {v : T} (hop : r.op = .insertNode h v) (hm : m.item h = none) :
    inserts (hist ++ [r]) = inserts hist + 1 := by
  unfold inserts
  rw [List.countP_append, List.countP_singleton]
  cases hc with
  | insertNew _ _ => rfl
  | insertHeld hb =>
    cases hop
    cases hb.symm.trans hm
  | deleteHeld _ => cases hop
  | deleteAbsent _ => cases hop
  | find => cases hop
  | initialise => cases hop

/-- No other call does. -/
theorem ItemMap.Call.inserts_cases {m m' : ItemMap T} {r : Record T} (hc : m.Call r m') (hist : List (Record T)) :
    inserts (hist ++ [r]) = inserts hist ∨
      inserts (hist ++ [r]) = inserts hist + 1 ∧ ∃ h v, r.op = .insertNode h v ∧ m.item h = none := by
  unfold inserts
  rw [List.countP_append, List.countP_singleton]
  cases hc with
  | @insertNew h v n hm _ => exact .inr ⟨rfl, h, v, rfl, hm⟩
  | insertHeld _ => exact .inl rfl
  | deleteHeld _ => exact .inl rfl
  | deleteAbsent _ => exact .inl rfl
  | find => exact .inl rfl
  | initialise => exact .inl rfl

theorem inserts_le_append {r : Record T} {hist : List (Record T)} : inserts hist ≤ inserts (hist ++ [r]) := by
  unfold inserts
  rw [List.countP_append]
  exact Nat.le_add_right _ _

/-! ## Runs, with the overfull inserts counted -/

structure Growth (T : Type) where
  run : Session T × List (Record T)
  overfull : Nat

/-- Runs of calls, and how many of their inserts found a bucket at twice the limit. -/
def growth (T : Type) (size bucketLength : Hash) : System (Growth T) (Nat × Op T) where
  init g := (sessions T size bucketLength).init g.run ∧ g.overfull = 0
  next g e := ((sessions T size bucketLength).next g.run e).map fun run =>
    { run, overfull := if e.2.Overfull g.run.1.list then g.overfull + 1 else g.overfull }

/-- **The bounds on the table.** -/
structure Bounded (size limit : Nat) (g : Growth T) : Prop where
  maxBucketLength : g.run.1.list.maxBucketLength.toNat = limit
  lower : size * 2 ^ g.overfull ≤ g.run.1.list.nBuckets.toNat
  upper : limit * g.run.1.list.nBuckets.toNat ≤ 2 ^ g.overfull * max (limit * size) (2 * inserts g.run.2)

theorem Bounded.step {size bucketLength : Hash} {first limit : Nat} {g g' : Growth T} {e : Nat × Op T} {m : ItemMap T}
    {l : List Addr} (hb : Bounded first limit g) (hr : Represents g.run.1.list m l)
    (htr : ItemMap.Trace g.run.2 m) (hfits : e.2.Fits g.run.1.list)
    (hn : (growth T size bucketLength).next g e = some g') : Bounded first limit g' := by
  obtain ⟨run, hrun, hg'⟩ := Option.map_eq_some_iff.mp hn
  subst hg'
  obtain ⟨r, m', l', hhist, hop, hc, hr', hslots, hmax⟩ := sessions_step hr hfits hrun
  have hmono : max (limit * first) (2 * inserts g.run.2) ≤ max (limit * first) (2 * inserts run.2) := by
    have hle : inserts g.run.2 ≤ inserts (g.run.2 ++ [r]) := inserts_le_append
    rw [hhist]
    omega
  have hlow := hb.lower
  have hup := hb.upper
  by_cases ho : e.2.Overfull g.run.1.list
  · rw [ho.slotsAfter] at hslots
    refine ⟨by rw [hmax]; exact hb.maxBucketLength, ?_, ?_⟩
    · simp only [if_pos ho, hslots, pow_succ]
      rw [← Nat.mul_assoc]
      omega
    · simp only [if_pos ho, hslots, pow_succ]
      calc limit * (2 * g.run.1.list.nBuckets.toNat)
          = 2 * (limit * g.run.1.list.nBuckets.toNat) := by ring
        _ ≤ 2 * (2 ^ g.overfull * max (limit * first) (2 * inserts g.run.2)) := Nat.mul_le_mul_left 2 hup
        _ = 2 ^ g.overfull * 2 * max (limit * first) (2 * inserts g.run.2) := by ring
        _ ≤ 2 ^ g.overfull * 2 * max (limit * first) (2 * inserts run.2) := Nat.mul_le_mul_left _ hmono
  · simp only [if_neg ho]
    rcases Op.slotsAfter_cases ho with hsame | ⟨⟨k, v, he, habs⟩, hdouble, hitems⟩
    · rw [hsame] at hslots
      exact ⟨by rw [hmax]; exact hb.maxBucketLength, by rw [hslots]; exact hb.lower,
        by rw [hslots]; exact Nat.le_trans hup (Nat.mul_le_mul_left _ hmono)⟩
    · rw [hdouble] at hslots
      have hcount : inserts run.2 = inserts g.run.2 + 1 := by
        rw [hr.inv.nodes_eq] at habs
        rw [hhist]
        exact hc.inserts_absent g.run.2 (hop.trans he) (hr.not_holds_iff.mp habs)
      have hle := hr.nItems_add_deletes htr
      refine ⟨by rw [hmax]; exact hb.maxBucketLength, ?_, ?_⟩
      · rw [hslots]
        exact Nat.le_trans hlow (Nat.le_mul_of_pos_left _ Nat.two_pos)
      rw [hb.maxBucketLength] at hitems
      calc limit * run.1.list.nBuckets.toNat
          = 2 * (limit * g.run.1.list.nBuckets.toNat) := by rw [hslots]; ring
        _ ≤ 2 * inserts run.2 := by omega
        _ ≤ max (limit * first) (2 * inserts run.2) := Nat.le_max_right _ _
        _ ≤ 2 ^ g.overfull * max (limit * first) (2 * inserts run.2) :=
          Nat.le_mul_of_pos_left _ (Nat.two_pow_pos _)

theorem growth_run {size bucketLength : Hash} {ok : Growth T → Nat × Op T → Prop} {g : Growth T}
    (h : (growth T size bucketLength).ReachableBy ok g) : (sessions T size bucketLength).Reachable g.run := by
  induction h with
  | init h => exact .init h.1
  | step _ _ hn ih =>
    obtain ⟨run, hrun, rfl⟩ := Option.map_eq_some_iff.mp hn
    exact .step ih trivial hrun

/-- **The table and the items.** In a run whose calls fit, `o` of whose
inserts found a bucket at twice the limit, there are at least `2 ^ o` times
the first slots, so that `o` is at most 31; and at most `2 ^ o` times as many
as there were or as two inserts a limit's worth of slots account for. -/
theorem table_bounds (T : Type) (size bucketLength : Hash) (hsize : ∃ k, size.toNat = 2 ^ k) :
    ∀ g : Growth T, (growth T size bucketLength).ReachableBy (fun g e => e.2.Fits g.run.1.list) g →
      size.toNat * 2 ^ g.overfull ≤ g.run.1.list.nBuckets.toNat ∧ g.overfull ≤ 31 ∧
      bucketLength.toNat * g.run.1.list.nBuckets.toNat ≤
        2 ^ g.overfull * max (bucketLength.toNat * size.toNat) (2 * inserts g.run.2) ∧
      g.run.1.list.nItems.toNat + deletes g.run.2 = inserts g.run.2 := by
  intro g h
  have hrep : ∀ {x : Growth T}, (growth T size bucketLength).ReachableBy (fun g e => e.2.Fits g.run.1.list) x →
      ∃ m l, ItemMap.Trace x.run.2 m ∧ Represents x.run.1.list m l :=
    fun hx => sessions_represents (Solist.two_pow_le hsize) (growth_run hx)
  have hb : Bounded size.toNat bucketLength.toNat g := by
    induction h with
    | init h =>
      obtain ⟨⟨list, hlist, hrun⟩, ho⟩ := h
      obtain ⟨k, hk⟩ := hsize
      obtain ⟨list', hlist', hn, hmax, -⟩ :=
        Solist.create_ok (T := T) size bucketLength (by rw [hk]; exact Nat.two_pow_pos k)
      cases hlist'.symm.trans hlist
      refine ⟨by rw [hrun, hmax], by rw [hrun, ho, hn]; simp, ?_⟩
      simp [hrun, ho, hn]
    | step hr hok hn ih =>
      obtain ⟨m, l, htr, hrep⟩ := hrep hr
      exact ih.step hrep htr hok hn
  obtain ⟨m, l, htr, hr⟩ := hrep h
  obtain ⟨k, hk⟩ := hsize
  refine ⟨hb.lower, ?_, hb.upper, hr.nItems_add_deletes htr⟩
  have hle : 2 ^ g.overfull ≤ 2 ^ 31 := by
    calc 2 ^ g.overfull ≤ size.toNat * 2 ^ g.overfull :=
          Nat.le_mul_of_pos_left _ (by rw [hk]; exact Nat.two_pow_pos k)
      _ ≤ g.run.1.list.nBuckets.toNat := hb.lower
      _ ≤ 2 ^ 31 := hr.inv.table.nBuckets_le
  exact (Nat.pow_le_pow_iff_right (by omega)).mp hle

/-- Three inserts into one bucket, with a limit of one: the second and the third find it at twice that. -/
theorem table_bounds_three : ∃ g, (growth Nat 2 1).ReachableBy (fun g e => e.2.Fits g.run.1.list) g ∧
    g.run.2.map Record.op = [.insertNode 0 7, .insertNode 8 7, .insertNode 16 7] ∧ g.overfull = 2 ∧
    2 * 2 ^ 2 ≤ g.run.1.list.nBuckets.toNat := by
  obtain ⟨list, hlist, -⟩ := Solist.create_ok (T := Nat) 2 1 (by decide)
  let check : Growth Nat → Nat × Op Nat → Bool := fun g e => decide (e.2.Fits g.run.1.list)
  have hsome : ((growth Nat 2 1).runIf check ⟨({ list }, []), 0⟩
      [(0, .insertNode 0 7), (0, .insertNode 8 7), (0, .insertNode 16 7)]).map
      (fun g => (g.overfull, g.run.2.map Record.op)) =
        some (2, [.insertNode 0 7, .insertNode 8 7, .insertNode 16 7]) := by
    cases hlist
    decide +kernel
  obtain ⟨g, hrun, hx⟩ := Option.map_eq_some_iff.mp hsome
  have hreach : (growth Nat 2 1).ReachableBy (fun g e => e.2.Fits g.run.1.list) g :=
    System.runIf_reachableBy (fun s e h => of_decide_eq_true h) (.init ⟨⟨list, hlist, rfl⟩, rfl⟩) hrun
  have ho : g.overfull = 2 := congrArg Prod.fst hx
  have hlow := (table_bounds Nat 2 1 ⟨1, rfl⟩ g hreach).1
  rw [ho] at hlow
  exact ⟨g, hreach, congrArg Prod.snd hx, ho, hlow⟩

/-! ## Hashes that agree in their low bits -/

/-- The call inserts only a hash with this residue, and deletes none. -/
def Op.Congruent (j r : Nat) : Op T → Prop
  | .insertNode h _ => h.toNat % 2 ^ j = r
  | .deleteNode _ => False
  | .findItemNode _ | .initialiseBucket _ => True

instance (j r : Nat) (op : Op T) : Decidable (op.Congruent j r) :=
  match op with
  | .insertNode _ _ => inferInstanceAs (Decidable (_ = _))
  | .deleteNode _ => inferInstanceAs (Decidable False)
  | .findItemNode _ | .initialiseBucket _ => inferInstanceAs (Decidable True)

theorem ItemMap.Trace.congruent {hist : List (Record T)} {m : ItemMap T} {j r : Nat} (h : Trace hist m)
    (hops : ∀ x ∈ hist, x.op.Congruent j r) :
    deletes hist = 0 ∧ ∀ k, (m.item k).isSome → k.toNat % 2 ^ j = r := by
  induction h with
  | nil => exact ⟨rfl, fun k hk => by simp [ItemMap.empty] at hk⟩
  | snoc _ hc ih =>
    obtain ⟨hdel, hres⟩ := ih fun x hx => hops x (by simp [hx])
    have hop := hops _ (List.mem_append_right _ (List.mem_singleton_self _))
    unfold deletes at hdel ⊢
    rw [List.countP_append, hdel, List.countP_singleton]
    cases hc with
    | @insertNew h v n _ _ =>
      refine ⟨rfl, fun k hk => ?_⟩
      by_cases hkh : k = h
      · rw [hkh]
        exact hop
      · rw [bind_item_of_ne hkh] at hk
        exact hres k hk
    | insertHeld _ => exact ⟨rfl, hres⟩
    | deleteHeld _ => exact absurd hop id
    | deleteAbsent _ => exact absurd hop id
    | find => exact ⟨rfl, hres⟩
    | initialise => exact ⟨rfl, hres⟩

/-- The nodes after the place of a slot's dummy are those with larger keys. -/
theorem Solist.Inv.mem_after_iff {s : Solist T} {l p : List Addr} {slot : Hash} (hi : s.Inv l p) {x : Addr} :
    x ∈ s.after l slot ↔ x ∈ l ∧ reverseHashtBits slot < s.heap.key x := by
  have hdrop : ∀ y ∈ s.after l slot, decide (s.heap.key y ≤ reverseHashtBits slot) = false := by
    refine dropWhile_all (hi.chain.sorted.imp fun h hle => ?_)
    exact decide_eq_true (BitVec.le_trans (BitVec.le_of_lt h) (of_decide_eq_true hle))
  constructor
  · intro hx
    exact ⟨(List.dropWhile_sublist _).subset hx, BitVec.not_le.mp (of_decide_eq_false (hdrop x hx))⟩
  · intro h
    obtain ⟨hxl, hlt⟩ := h
    rw [← List.takeWhile_append_dropWhile (p := fun y => decide (s.heap.key y ≤ reverseHashtBits slot)) (l := l),
      List.mem_append] at hxl
    refine hxl.resolve_left fun hmem => ?_
    have hle := List.mem_takeWhile_imp hmem
    exact absurd (of_decide_eq_true hle) (BitVec.not_le.mpr hlt)

/-- When every item falls into one bucket, that bucket holds them all: no dummy comes between. -/
theorem Solist.Inv.countP_le_bucketItems {s : Solist T} {l p : List Addr} {slot : Hash} (hi : s.Inv l p)
    (hsame : ∀ x ∈ l, s.heap.isData x = true → (s.heap.node x).hashv % s.nBuckets = slot) :
    l.countP s.heap.isData ≤ (s.bucketItems l slot).length := by
  obtain ⟨k, hk, hn⟩ := hi.nBuckets
  have hsub : l.filter s.heap.isData ⊆ s.bucketItems l slot := by
    intro x hx
    obtain ⟨hxl, hxd⟩ := List.mem_filter.mp hx
    have hh := hi.chain.hashv_lt hxl
    have hkey := hi.chain.key_data hxl hxd
    obtain rfl := hsame x hxl hxd
    have habove : reverseHashtBits ((s.heap.node x).hashv % s.nBuckets) < s.heap.key x := by
      rw [hkey]
      exact (bucketKey_lt_nodeKey_iff hn hk (umod_lt_pow hn) hh).mpr (BitVec.le_refl _)
    have hafter := hi.mem_after_iff.mpr ⟨hxl, habove⟩
    rw [← List.takeWhile_append_dropWhile (p := s.heap.isData) (l := s.after l _), List.mem_append] at hafter
    refine hafter.resolve_right fun hmem => ?_
    -- what follows the run starts with a dummy
    cases hd : (s.after l ((s.heap.node x).hashv % s.nBuckets)).dropWhile s.heap.isData with
    | nil =>
      rw [hd] at hmem
      cases hmem
    | cons e R =>
      have hhead := List.head?_dropWhile_not s.heap.isData (s.after l ((s.heap.node x).hashv % s.nBuckets))
      have hsub := (List.dropWhile_sublist s.heap.isData (l := s.after l ((s.heap.node x).hashv % s.nBuckets)))
      rw [hd] at hhead hmem hsub
      obtain ⟨hel, heslot⟩ := hi.mem_after_iff.mp (hsub.subset (List.mem_cons_self ..))
      have hex : s.heap.key e ≤ solNodeKey (s.heap.node x).hashv := by
        rw [← hkey]
        rcases List.mem_cons.mp hmem with rfl | hmem
        · exact BitVec.le_refl _
        · have hsort := hi.chain.sorted.sublist (hsub.trans (List.dropWhile_sublist _))
          exact BitVec.le_of_lt ((List.pairwise_cons.mp hsort).1 x hmem)
      have hed := hi.isData_of_between hh hel heslot hex
      simp [hed] at hhead
  have hle := (List.subperm_of_subset (hi.chain.nodup.filter _) hsub).length_le
  rwa [← List.countP_eq_length_filter] at hle

/-- Up to `2 ^ j` slots, the bucket of a hash with the residue of all the items has all of them in it. -/
theorem Represents.nItems_lt_newLength {s : Solist T} {m : ItemMap T} {l : List Addr} {j k r : Nat} {h : Hash}
    (hr : Represents s m l) (hn : s.nBuckets.toNat = 2 ^ k) (hkj : k ≤ j)
    (hres : ∀ k, (m.item k).isSome → k.toNat % 2 ^ j = r) (hh : h.toNat % 2 ^ j = r) :
    s.nItems.toNat < s.newLength h := by
  have hmod : ∀ h' : Hash, h'.toNat % 2 ^ j = r → h' % s.nBuckets = h % s.nBuckets := by
    intro h' hr'
    have hdvd : 2 ^ k ∣ 2 ^ j := Nat.pow_dvd_pow 2 hkj
    refine BitVec.eq_of_toNat_eq ?_
    rw [umod_toNat hn, umod_toNat hn, ← Nat.mod_mod_of_dvd h'.toNat hdvd, ← Nat.mod_mod_of_dvd h.toNat hdvd, hr', hh]
  have hle : l.countP s.heap.isData ≤ (s.bucketItems l (h % s.nBuckets)).length :=
    hr.inv.countP_le_bucketItems fun y hy hd => hmod _ (hres _ (hr.holds_iff.mp ⟨y, hy, hd, rfl⟩))
  rw [Solist.newLength, hr.inv.nodes_eq, hr.inv.nItems_toNat]
  exact Nat.lt_succ_of_le hle

end SplitOrder
