/-
How much garbage there may be when the calls are made one after another.

`delete_count` is never less than the length of the delete list, except
while a call that has reset it is on its way to `collect`; what `collect`
puts back is protected, and no more than the slots can be.
-/
import Mathlib.Algebra.Order.BigOperators.Group.Finset
import SplitOrder.Hazard.Retired

namespace SplitOrder

namespace Hazard

namespace Domain

variable (d : Domain)

/-- The slots of the pools up to `q`. -/
def slotsTo (q : Nat) : Nat := ∑ p ∈ Finset.range q, (d.pool (p + 1)).hpCount

/-- The slots of all pools. -/
def slotCount : Nat := d.slotsTo d.poolsHead

theorem slotsTo_succ {q : Nat} : d.slotsTo (q + 1) = d.slotsTo q + (d.pool (q + 1)).hpCount := Finset.sum_range_succ ..

variable {d} {d' : Domain} {q : Nat}

theorem slotsTo_congr (h : ∀ p, p < q → (d'.pool (p + 1)).blkSize = (d.pool (p + 1)).blkSize) :
    d'.slotsTo q = d.slotsTo q := by
  refine Finset.sum_congr rfl fun p hp => ?_
  rw [Pool.hpCount, Pool.hpCount, h p (Finset.mem_range.mp hp)]

theorem slotCount_congr (h : d.SameArrays d') : d'.slotCount = d.slotCount := by
  rw [slotCount, slotCount, h.head]
  exact slotsTo_congr fun p _ => h.blkSize (p + 1)

theorem slotCount_pushPool {r : Pool} : (d.pushPool r).slotCount = d.slotCount + r.hpCount := by
  have hlast : ((d.pushPool r).pool (d.poolsHead + 1)) = r := Function.update_self ..
  have hold : (d.pushPool r).slotsTo d.poolsHead = d.slotsTo d.poolsHead :=
    slotsTo_congr fun p hp => congrArg Pool.blkSize (update_pool_of_hasPool ⟨Nat.succ_pos p, hp⟩)
  have hsucc := (d.pushPool r).slotsTo_succ (q := d.poolsHead)
  rw [hlast, hold] at hsucc
  exact hsucc

end Domain

/-- The objects that a call of `enqueue_for_delete` or `push_delete_node` still counts, and whether it may collect. -/
def PushAfter.Bounded (pa : PushAfter) (N l D T : Nat) : Prop :=
  match pa with
  | .enqueue canCollect | .array _ _ canCollect => canCollect = true ∧ N ≤ D
  | .collect _ => N ≤ D ∧ N + l ≤ T

/-- What holds at each point of a call: `N` nodes are on the shared list and `l` on the private one, `D` is
`delete_count`, and `T` the number of slots. -/
def Pc.Bounded (d : Domain) (N l D T : Nat) : Pc → Prop
  | .push _ pa _ | .pushCas _ pa _ => pa.Bounded N (l + 1) D T
  | .pushCount pa _ => pa.Bounded N l (D + 1) T
  | .enqueue _ canCollect _ | .enqueueArray _ _ canCollect _ | .enqueueNull _ _ canCollect _ =>
      canCollect = true ∧ N ≤ D
  | .collectIf doCollect _ => if doCollect then D = 0 else N ≤ D
  | .collectTest doCollect deleteCount _ => deleteCount.toNat = D ∧ if doCollect then D = 0 else N ≤ D
  | .collectLoad _ => N ≤ D
  | .collectZero dc _ => N ≤ D ∧ dc.toNat = D
  | .collect _ => True
  | .snapshot (.collect _ _) => N = 0
  | .snapshotLoad q ix buf (.collect _ _) =>
    N = 0 ∧ buf.length + d.slotsTo q ≤ T + ix ∧ ix ≤ if q = 0 then 0 else (d.pool q).hpCount
  | .collectWalk _ _ snap _ => N = 0 ∧ ∃ buf, snap = snapshotOf buf ∧ buf.length ≤ T
  | .collectPush _ _ => N ≤ D ∧ N + l ≤ T
  | _ => N ≤ D ∧ N ≤ T

/-- `hp_count` is the number of slots, except while `pools_new` has a pool to add to it. -/
def Pc.Counted (d : Domain) : Pc → Prop
  | .countLoad S _ => d.hpCount + BitVec.ofNat 32 (S * 32) = BitVec.ofNat 32 d.slotCount
  | .countStore S _ count => count + BitVec.ofNat 32 (S * 32) = BitVec.ofNat 32 d.slotCount
  | _ => d.hpCount = BitVec.ofNat 32 d.slotCount

/-- `delete_count` counts the pushes, but for the one just made. -/
def Pc.pushing : Pc → Nat
  | .pushCount _ _ => 1
  | _ => 0

/-- The counters and the lists, where `m` nodes have been pushed. -/
structure Tally (d : Domain) (N l m : Nat) (pc : Pc) : Prop where
  length : N ≤ m
  deletes : d.deleteCount.toNat + pc.pushing ≤ m
  counted : pc.Counted d
  bounded : m < 2 ^ 31 → d.slotCount < 2 ^ 31 → pc.Bounded d N l d.deleteCount.toNat d.slotCount

section Step

variable {d d' : Domain} {C L : List Addr} {th : Thread} {e : Effect} {k : After} {pc pc' : Pc}
    {N N' l l' m m' D T addr : Nat}

theorem Pc.Bounded.congr (h : pc.Bounded d N l D T) (hs : d.SameArrays d') : pc.Bounded d' N l D T := by
  cases pc with
  | snapshotLoad q ix buf sa =>
    cases sa with
    | reclaim => exact h
    | collect head k =>
      obtain ⟨h1, h2, h3⟩ := h
      refine ⟨h1, ?_, ?_⟩
      · rw [Domain.slotsTo_congr fun p _ => hs.blkSize (p + 1)]
        exact h2
      · rw [Pool.hpCount, hs.blkSize q]
        exact h3
  | snapshot sa => cases sa <;> exact h
  | _ => exact h

/-- The sizes of the pools and the counters are the same. -/
structure SameCounts (d d' : Domain) : Prop where
  arrays : d.SameArrays d'
  deleteCount : d'.deleteCount = d.deleteCount
  hpCount : d'.hpCount = d.hpCount

theorem SameCounts.of (h1 : d'.pool = d.pool) (h2 : d'.poolsHead = d.poolsHead) (h3 : d'.deleteCount = d.deleteCount)
    (h4 : d'.hpCount = d.hpCount) : SameCounts d d' :=
  ⟨⟨h2, fun p => by rw [h1], fun p => by rw [h1]⟩, h3, h4⟩

theorem Pc.Counted.congr (h : pc.Counted d) (hd : SameCounts d d') : pc.Counted d' := by
  have hT := Domain.slotCount_congr hd.arrays
  cases pc with
  | countLoad | countStore =>
    simp only [Pc.Counted, hT, hd.hpCount] at h ⊢
    exact h
  | _ =>
    have h : d.hpCount = BitVec.ofNat 32 d.slotCount := h
    change d'.hpCount = BitVec.ofNat 32 d'.slotCount
    rw [hT, hd.hpCount, h]

/-- A step that leaves the counters alone. -/
theorem Tally.to (h : Tally d N l m pc) (hd : SameCounts d d') (hN : N' ≤ N) (hp : pc'.pushing = pc.pushing)
    (hc : pc.Counted d → pc'.Counted d)
    (hb : m < 2 ^ 31 → ∀ D T, D = d.deleteCount.toNat → T = d.slotCount → T < 2 ^ 31 → pc.Bounded d N l D T →
      pc'.Bounded d N' l' D T) : Tally d' N' l' m pc' := by
  have hT := Domain.slotCount_congr hd.arrays
  refine ⟨hN.trans h.length, ?_, (hc h.counted).congr hd, fun hm hT' => ?_⟩
  · rw [hd.deleteCount, hp]
    exact h.deletes
  · rw [hT] at hT' ⊢
    rw [hd.deleteCount]
    exact (hb hm _ _ rfl rfl hT' (h.bounded hm hT')).congr hd.arrays

/-- What follows a call of the domain has nothing on its private list. -/
theorem After.resume_tally (hpc : pc.pushing = 0) (hc : pc.Counted d → d.hpCount = BitVec.ofNat 32 d.slotCount)
    (h : Tally d N l m pc) (hd : SameCounts d d') (hN : N' ≤ N)
    (hb : m < 2 ^ 31 → ∀ D T, D = d.deleteCount.toNat → T = d.slotCount → T < 2 ^ 31 → pc.Bounded d N l D T →
      N' ≤ D ∧ N' ≤ T) : Tally d' N' l' m (k.resume th).pc := by
  refine h.to hd hN ?_ (fun h => ?_) fun hm D T hD hT hT' h => ?_
  · rw [hpc]
    cases k <;> rfl
  · cases k <;> exact hc h
  · have hb := hb hm D T hD hT hT' h
    cases k <;> first | exact hb | trivial

theorem After.enqueued_tally {b : Bool} (hpc : pc.pushing = 0)
    (hc : pc.Counted d → d.hpCount = BitVec.ofNat 32 d.slotCount)
    (h : Tally d N l m pc) (hd : SameCounts d d')
    (hb : m < 2 ^ 31 → ∀ D T, D = d.deleteCount.toNat → T = d.slotCount → T < 2 ^ 31 → pc.Bounded d N l D T →
      b = true ∧ N ≤ D) : Tally d' N l' m (k.enqueued b th).pc := by
  refine h.to hd (Nat.le_refl _) ?_ (fun h => ?_) fun hm D T hD hT hT' h => ?_
  · rw [hpc]
    unfold After.enqueued
    split
    · rfl
    · cases k <;> rfl
  · unfold After.enqueued
    split
    · exact hc h
    · cases k <;> exact hc h
  · obtain ⟨rfl, hle⟩ := hb hm D T hD hT hT' h
    exact hle

/-- The comparison of the counters is that of the numbers. -/
theorem slt_iff {v w : BitVec 32} (hv : v = BitVec.ofNat 32 T) (hT : T < 2 ^ 31) (hw : w.toNat < 2 ^ 31) :
    v.slt w = true ↔ T < w.toNat := by
  subst hv
  have hT' : (BitVec.ofNat 32 T).toNat = T := by rw [BitVec.toNat_ofNat, Nat.mod_eq_of_lt (by omega)]
  have h1 : (BitVec.ofNat 32 T).toInt = T := by rw [BitVec.toInt_eq_toNat_of_lt (by omega), hT']
  have h2 : w.toInt = w.toNat := BitVec.toInt_eq_toNat_of_lt (by omega)
  rw [BitVec.slt_iff_toInt_lt, h1, h2]
  omega

/-! ## Each step -/

section Steps

variable {pa : PushAfter} {a : Addr} {head pprev : Option Addr} {q ix S R : Nat} {buf snap : List Ptr}

theorem pushCas_tally (h : Tally d N l m (.pushCas a pa k)) :
    Tally (pushCas d th a pa k).domain (N + (pushCas d th a pa k).pushed) l (m + (pushCas d th a pa k).pushed)
      (pushCas d th a pa k).thread.pc := by
  unfold pushCas
  split
  · refine ⟨Nat.succ_le_succ h.length, Nat.succ_le_succ h.deletes, h.counted, fun hm hT => ?_⟩
    have hm : m + 1 < 2 ^ 31 := hm
    have hb := h.bounded (by omega) hT
    cases pa with
    | enqueue can => exact ⟨hb.1, Nat.succ_le_succ hb.2⟩
    | array x count can => exact ⟨hb.1, Nat.succ_le_succ hb.2⟩
    | collect head =>
      have hb2 : N + (l + 1) ≤ d.slotCount := hb.2
      refine ⟨Nat.succ_le_succ hb.1, ?_⟩
      change N + 1 + l ≤ d.slotCount
      omega
  · exact h.to (.of rfl rfl rfl rfl) (Nat.le_refl _) rfl id fun _ _ _ _ _ _ h => h

theorem pushCount_tally (h : Tally d N l m (.pushCount pa k)) :
    Tally (pushCount d th pa k).domain N l (m + (pushCount d th pa k).pushed)
      (pushCount d th pa k).thread.pc := by
  have hdel : d.deleteCount.toNat + 1 ≤ m := h.deletes
  have hinc : (d.deleteCount + 1#32).toNat ≤ d.deleteCount.toNat + 1 := by
    rw [BitVec.toNat_add]
    exact Nat.mod_le _ _
  have heq : m < 2 ^ 31 → (d.deleteCount + 1#32).toNat = d.deleteCount.toNat + 1 := by
    intro hm
    rw [BitVec.toNat_add]
    exact Nat.mod_eq_of_lt (by change _ + 1 < 2 ^ 32; omega)
  -- the counter is increased first
  have h' : Tally { d with deleteCount := d.deleteCount + 1#32 } N l m
      (match pa with
        | .enqueue canCollect | .array _ _ canCollect => .enqueue 0 canCollect k
        | .collect head => .collectPush head k) := by
    refine ⟨h.length, ?_, ?_, fun hm hT => ?_⟩
    · have : Pc.pushing (match pa with
        | .enqueue canCollect | .array _ _ canCollect => .enqueue 0 canCollect k
        | .collect head => .collectPush head k) = 0 := by cases pa <;> rfl
      rw [this]
      exact hinc.trans hdel
    · cases pa <;> exact h.counted
    · have hb := h.bounded hm hT
      have heq := heq hm
      cases pa with
      | enqueue can => exact ⟨hb.1, hb.2.trans_eq heq.symm⟩
      | array x count can => exact ⟨hb.1, hb.2.trans_eq heq.symm⟩
      | collect head => exact ⟨hb.1.trans_eq heq.symm, hb.2⟩
  unfold pushCount
  cases pa with
  | enqueue can => exact After.enqueued_tally rfl id h' (.of rfl rfl rfl rfl) fun _ _ _ _ _ _ h => h
  | array x count can => exact h'.to (.of rfl rfl rfl rfl) (Nat.le_refl _) rfl id fun _ _ _ _ _ _ h => h
  | collect head => exact h'

theorem poolsCas_tally {next : Nat} (h : Tally d N l m (.poolsCas S R next))
    (he : poolsCas d th addr S R next = some e) :
    Tally e.domain N l (m + e.pushed) e.thread.pc := by
  unfold poolsCas at he
  split at he
  · split at he
    · cases he
      have hT := Domain.slotCount_pushPool (r := { hazPtrs := addr, blkSize := S })
        (d := { d with slot := fun a => if Pool.contains { hazPtrs := addr, blkSize := S } a then 0 else d.slot a })
      have hc : d.hpCount = BitVec.ofNat 32 d.slotCount := h.counted
      refine ⟨h.length, h.deletes, ?_, fun hm hT' => ?_⟩
      · change d.hpCount + BitVec.ofNat 32 (S * 32) = BitVec.ofNat 32 (Domain.slotCount (Domain.pushPool _ _))
        rw [hT, BitVec.ofNat_add, hc]
        rfl
      · have hle : d.slotCount ≤ Domain.slotCount (Domain.pushPool
            { d with slot := fun a => if Pool.contains { hazPtrs := addr, blkSize := S } a then 0 else d.slot a }
            { hazPtrs := addr, blkSize := S }) := by
          rw [hT]
          exact Nat.le_add_right ..
        obtain ⟨hb1, hb2⟩ := h.bounded hm (Nat.lt_of_le_of_lt hle hT')
        exact ⟨hb1, hb2.trans hle⟩
    · cases he
  · cases he
    exact h.to (.of rfl rfl rfl rfl) (Nat.le_refl _) rfl id fun _ _ _ _ _ _ h => h

theorem countStore_tally {count : BitVec 32} (h : Tally d N l m (.countStore S R count)) :
    Tally { d with hpCount := count + BitVec.ofNat 32 (S * 32) } N l m (.reserve S R true) :=
  ⟨h.length, h.deletes, h.counted, fun hm hT => h.bounded hm hT⟩

theorem reserveTurn_tally {again : Bool} {expected : BitVec 32} {p : Nat} (h : Tally d N l m (.reserve S R again)) :
    Tally d N l m (reserveTurn S R again p expected) := by
  unfold reserveTurn
  split <;> exact h.to (.of rfl rfl rfl rfl) (Nat.le_refl _) rfl id fun _ _ _ _ _ _ h => h

theorem collectTest_tally {b : Bool} {dc : BitVec 32} (h : Tally d N l m (.collectTest b dc k)) :
    Tally (collectTest d th b dc k).domain N l (m + (collectTest d th b dc k).pushed)
      (collectTest d th b dc k).thread.pc := by
  have hcount : d.hpCount = BitVec.ofNat 32 d.slotCount := h.counted
  have hdel : d.deleteCount.toNat ≤ m := h.deletes
  have hsame : SameCounts d d := .of rfl rfl rfl rfl
  unfold collectTest
  split
  · rename_i hslt
    refine h.to hsame (Nat.le_refl _) rfl id fun hm D T hD hT hT' hb => ?_
    obtain ⟨hdc, hb⟩ := hb
    have hlt := (slt_iff (hcount.trans (hT ▸ rfl)) hT' (by omega)).mp hslt
    cases b with
    | false => exact hb
    | true =>
      have hb : D = 0 := hb
      omega
  · rename_i hslt
    split
    · exact h.to hsame (Nat.le_refl _) rfl id fun _ _ _ _ _ _ _ => trivial
    · rename_i hno
      refine After.resume_tally rfl id h hsame (Nat.le_refl _) fun hm D T hD hT hT' hb => ?_
      obtain ⟨hdc, hb⟩ := hb
      have hlt := mt (slt_iff (hcount.trans (hT ▸ rfl)) hT' (by omega)).mpr hslt
      rw [if_neg hno] at hb
      omega

theorem collectZero_tally {dc : BitVec 32} (h : Tally d N l m (.collectZero dc k)) :
    Tally (collectZero d th dc k).domain N l (m + (collectZero d th dc k).pushed)
      (collectZero d th dc k).thread.pc := by
  unfold collectZero
  split
  · exact ⟨h.length, Nat.zero_le _, h.counted, fun _ _ => rfl⟩
  · exact h.to (.of rfl rfl rfl rfl) (Nat.le_refl _) rfl id fun _ _ _ _ _ _ h => h.1

theorem collect_tally (h : Tally d N l m (.collect k)) (hN : N' = 0) :
    Tally (collect d th k).domain N' l' (m + (collect d th k).pushed)
      (collect d th k).thread.pc := by
  subst hN
  unfold collect
  split
  · exact After.resume_tally rfl id h (.of rfl rfl rfl rfl) (Nat.zero_le _) fun _ _ _ _ _ _ _ =>
      ⟨Nat.zero_le _, Nat.zero_le _⟩
  · exact h.to (.of rfl rfl rfl rfl) (Nat.zero_le _) rfl id fun _ _ _ _ _ _ _ => rfl

theorem snapshot_tally {sa : SnapshotAfter} (h : Tally d N l m (.snapshot sa)) :
    Tally d N l m (.snapshotLoad d.poolsHead 0 [] sa) := by
  cases sa with
  | reclaim => exact h.to (.of rfl rfl rfl rfl) (Nat.le_refl _) rfl id fun _ _ _ _ _ _ h => h
  | collect head k =>
    refine h.to (.of rfl rfl rfl rfl) (Nat.le_refl _) rfl id fun _ D T hD hT _ hb => ⟨hb, ?_, Nat.zero_le _⟩
    rw [hT, List.length_nil, Nat.zero_add]
    exact Nat.le_refl _

/-- A snapshot holds no more than the slots it has passed. -/
theorem snapshotLoad_tally {sa : SnapshotAfter} (h : Tally d N l m (.snapshotLoad q ix buf sa)) :
    Tally (snapshotLoad d th q ix buf sa).domain N l (m + (snapshotLoad d th q ix buf sa).pushed)
      (snapshotLoad d th q ix buf sa).thread.pc := by
  have hsame : SameCounts d d := .of rfl rfl rfl rfl
  unfold snapshotLoad
  cases sa with
  | reclaim =>
    split
    · exact h.to hsame (Nat.le_refl _) rfl id fun _ _ _ _ _ _ h => h
    · split <;> exact h.to hsame (Nat.le_refl _) rfl id fun _ _ _ _ _ _ h => h
  | collect head k =>
    split
    · rename_i hq
      subst hq
      refine h.to hsame (Nat.le_refl _) rfl id fun _ D T _ _ _ hb => ?_
      obtain ⟨h1, h2, h3⟩ := hb
      rw [if_pos rfl] at h3
      exact ⟨h1, buf, rfl, by omega⟩
    · rename_i hq
      split
      · rename_i hix
        refine h.to hsame (Nat.le_refl _) rfl id fun _ D T _ _ _ hb => ?_
        obtain ⟨h1, h2, h3⟩ := hb
        refine ⟨h1, ?_, ?_⟩
        · split
          · rw [List.length_append, List.length_singleton]
            omega
          · omega
        · rw [if_neg hq]
          exact hix
      · rename_i hix
        refine h.to hsame (Nat.le_refl _) rfl id fun _ D T _ _ _ hb => ?_
        obtain ⟨h1, h2, h3⟩ := hb
        rw [if_neg hq] at h3
        have hsucc := d.slotsTo_succ (q := q - 1)
        rw [Nat.sub_add_cancel (by omega)] at hsucc
        refine ⟨h1, ?_, Nat.zero_le _⟩
        simp only [Domain.poolNext]
        omega

/-- At its end the walk has met every node of the private list. -/
theorem walk_done (ho : Own d C L th) (hpc : th.pc = .collectWalk head pprev snap k)
    (hend : d.cursor head pprev = none) : ∀ a ∈ L, search snap (d.payload a) = true := by
  obtain ⟨ctx, deleted, delIndex, pc⟩ := th
  cases hpc
  obtain ⟨-, A, B, rfl, hA, hs⟩ := ho.ok
  suffices hB : B = [] by
    subst hB
    rw [List.append_nil]
    exact hs
  have hp : Seg d.next head (A ++ B) none := ho.priv
  rw [← List.head?_eq_none_iff]
  cases pprev with
  | none =>
    obtain rfl := List.getLast?_eq_none_iff.mp hA.symm
    exact hp.head.symm.trans hend
  | some b =>
    obtain ⟨A, rfl⟩ := List.getLast?_eq_some_iff.mp hA.symm
    rw [List.append_assoc] at hp
    exact hp.next.symm.trans hend

/-- So what it leaves is in the snapshot, and is no more than the slots. -/
theorem walk_length {buf : List Ptr} (ho : Own d C L th) (hnd : (L.map d.payload).Nodup)
    (hpc : th.pc = .collectWalk head pprev (snapshotOf buf) k)
    (hend : d.cursor head pprev = none) : L.length ≤ buf.length := by
  have hsub : L.map d.payload ⊆ snapshotOf buf := by
    intro p hp
    obtain ⟨a, ha, rfl⟩ := List.mem_map.mp hp
    exact mem_of_search (walk_done ho hpc hend a ha)
  have hle := (List.subperm_of_subset hnd hsub).length_le
  rwa [List.length_map, snapshotOf_length] at hle

theorem collectWalk_tally (ho : Own d C L th) (hnd : (L.map d.payload).Nodup)
    (h : Tally d C.length L.length m th.pc) (hpc : th.pc = .collectWalk head pprev snap k)
    (hk : Keeps d C L th (collectWalk d th head pprev snap k) C L') :
    Tally (collectWalk d th head pprev snap k).domain C.length L'.length
      (m + (collectWalk d th head pprev snap k).pushed)
      (collectWalk d th head pprev snap k).thread.pc := by
  have hpriv := ho.priv
  rw [hpc] at h hpriv
  -- the walk goes on with the same snapshot
  have hgo : ∀ {d' : Domain} {head' pprev'}, SameCounts d d' →
      Tally d' C.length L'.length m (.collectWalk head' pprev' snap k) := fun hd =>
    h.to hd (Nat.le_refl _) rfl id fun _ _ _ _ _ _ hb => hb
  -- or it is at its end
  have hstop : d.cursor head pprev = none → Seg d.next head L' none →
      Tally d C.length L'.length m (.collectPush head k) := by
    intro hend hp
    obtain rfl := Seg.det hpriv hp
    refine h.to (.of rfl rfl rfl rfl) (Nat.le_refl _) rfl id fun _ D T _ _ _ hb => ?_
    obtain ⟨h1, buf, rfl, h2⟩ := hb
    have hle := walk_length ho hnd hpc hend
    exact ⟨by omega, by omega⟩
  rcases collectWalk_cases d th head pprev snap k with ⟨hend, he⟩ | ⟨cur, -, -, he⟩ | ⟨cur, d', head', -, -, hd, he⟩
  · have hp := hk.priv
    rw [he] at hp ⊢
    exact hstop hend hp
  · rw [he]
    exact hgo (.of rfl rfl rfl rfl)
  · rw [he]
    rcases hd with rfl | ⟨b, rfl⟩ <;> exact hgo (.of rfl rfl rfl rfl)

theorem collectPush_tally (h : Tally d N l m (.collectPush head k))
    (hl : l' + (collectPush d th head k).thread.pc.newNode.length = l) :
    Tally (collectPush d th head k).domain N l' (m + (collectPush d th head k).pushed)
      (collectPush d th head k).thread.pc := by
  have hsame : SameCounts d d := .of rfl rfl rfl rfl
  unfold collectPush at hl ⊢
  cases head with
  | none =>
    exact After.resume_tally rfl id h hsame (Nat.le_refl _) fun _ _ _ _ _ _ hb =>
      ⟨hb.1, (Nat.le_add_right N l).trans hb.2⟩
  | some a =>
    have hl : l' + 1 = l := hl
    refine h.to hsame (Nat.le_refl _) rfl id fun _ D T _ _ _ hb => ⟨hb.1, ?_⟩
    rw [hl]
    exact hb.2

theorem reclaim_tally {c : Context} (h : Tally d N l m (.reclaim ix snap)) (he : reclaim d th c ix snap = some e) :
    Tally e.domain N l (m + e.pushed) e.thread.pc := by
  have hsame : SameCounts d d := .of rfl rfl rfl rfl
  rcases reclaim_cases he with ⟨item, -, -, -, rfl⟩ | ⟨item, -, -, -, rfl⟩ | ⟨-, -, rfl⟩ | ⟨b, -, -, -, rfl⟩
  · exact h.to hsame (Nat.le_refl _) rfl id fun _ _ _ _ _ _ h => h
  · exact h.to hsame (Nat.le_refl _) rfl id fun _ _ _ _ _ _ h => h
  · exact h.to hsame (Nat.le_refl _) rfl id fun _ _ _ _ _ _ h => ⟨rfl, h.1⟩
  · exact h.to hsame (Nat.le_refl _) rfl id fun _ _ _ _ _ _ h => h

theorem enqueueArray_tally {x count : Nat} {can : Bool} (h : Tally d N l m (.enqueueArray x count can k))
    (he : enqueueArray d th addr x count can k = some e) : Tally e.domain N l (m + e.pushed) e.thread.pc := by
  rcases enqueueArray_cases he with ⟨item, -, -, -, -, rfl⟩ | ⟨-, -, rfl⟩ | ⟨-, rfl⟩
  · exact h.to (.of rfl rfl rfl rfl) (Nat.le_refl _) rfl id fun _ _ _ _ _ _ h => h
  · exact h.to (.of rfl rfl rfl rfl) (Nat.le_refl _) rfl id fun _ _ _ _ _ _ h => h
  · exact After.enqueued_tally rfl id h (.of rfl rfl rfl rfl) fun _ _ _ _ _ _ h => h

/-- A step that leaves both lists alone. -/
theorem Thread.step_tally_lists (h : Tally d N l m th.pc) (hpc : th.pc.relists = false) (hcl : th.pc.closing = false)
    (hs : th.step d addr = some e) : Tally e.domain N l (m + e.pushed) e.thread.pc := by
  obtain ⟨ctx, deleted, delIndex, pc⟩ := th
  have hsame : SameCounts d d := .of rfl rfl rfl rfl
  cases pc with
  | idle | ended | crashed => cases hs
  | pushCas | collect | collectWalk | collectPush => cases hpc
  | domainEnd | domainPools => cases hcl
  | reserve | poolsNext | countLoad | release | releaseLoad | push | enqueueNull =>
    cases hs
    exact h.to (.of rfl rfl rfl rfl) (Nat.le_refl _) rfl id fun _ _ _ _ _ _ h => h
  | countStore =>
    cases hs
    exact countStore_tally h
  | reserveLoad S R again p =>
    cases hs
    have h' : Tally d N l m (.reserve S R again) := h.to hsame (Nat.le_refl _) rfl id fun _ _ _ _ _ _ h => h
    unfold reserveLoad
    split
    · split <;> exact h.to hsame (Nat.le_refl _) rfl id fun _ _ _ _ _ _ h => h
    · split
      · exact h
      · exact reserveTurn_tally h'
  | reserveCas S R again p expected =>
    cases hs
    have h' : Tally d N l m (.reserve S R again) := h.to hsame (Nat.le_refl _) rfl id fun _ _ _ _ _ _ h => h
    unfold reserveCas
    split
    · rename_i hturn
      exact h.to ⟨Pool.turn_sameArrays hturn, rfl, rfl⟩ (Nat.le_refl _) rfl id fun _ _ _ _ _ _ h => h
    · exact reserveTurn_tally h'
  | poolsCas => exact poolsCas_tally h hs
  | construct =>
    cases hs
    unfold construct
    split <;> exact h.to (.of rfl rfl rfl rfl) (Nat.le_refl _) rfl id fun _ _ _ _ _ _ h => h
  | pushCount =>
    cases hs
    exact pushCount_tally h
  | enqueue =>
    obtain ⟨-, rfl⟩ := enqueue_cases hs
    exact h.to (.of rfl rfl rfl rfl) (Nat.le_refl _) rfl id fun _ _ _ _ _ _ h => h
  | enqueueArray => exact enqueueArray_tally h hs
  | collectIf =>
    cases hs
    exact h.to hsame (Nat.le_refl _) rfl id fun _ _ _ hD _ _ h => ⟨hD.symm, h⟩
  | collectTest =>
    cases hs
    exact collectTest_tally h
  | collectLoad =>
    cases hs
    exact h.to hsame (Nat.le_refl _) rfl id fun _ _ _ hD _ _ h => ⟨h, hD.symm⟩
  | collectZero =>
    cases hs
    exact collectZero_tally h
  | snapshot =>
    cases hs
    exact snapshot_tally h
  | snapshotLoad =>
    cases hs
    exact snapshotLoad_tally h
  | reclaim =>
    obtain ⟨c, -, hr⟩ := Option.bind_eq_some_iff.mp hs
    exact reclaim_tally h hr
  | destruct =>
    obtain ⟨c, -, rfl⟩ := Option.map_eq_some_iff.mp hs
    unfold destruct
    split <;> exact h.to (.of rfl rfl rfl rfl) (Nat.le_refl _) rfl id fun _ _ _ _ _ _ h => h
  | releaseTest =>
    obtain ⟨c, -, rfl⟩ := Option.map_eq_some_iff.mp hs
    unfold releaseTest
    split
    · exact h.to hsame (Nat.le_refl _) rfl id fun _ _ _ _ _ _ h => h
    · split <;> exact h.to hsame (Nat.le_refl _) rfl id fun _ _ _ _ _ _ h => h
  | releaseSlot =>
    obtain ⟨c, -, rfl⟩ := Option.map_eq_some_iff.mp hs
    unfold releaseSlot
    split
    · split <;> exact h.to hsame (Nat.le_refl _) rfl id fun _ _ _ _ _ _ h => h
    · split
      · exact h.to hsame (Nat.le_refl _) rfl id fun _ _ _ _ _ _ h => h
      · exact h.to hsame (Nat.le_refl _) rfl id fun _ _ _ _ _ _ h => ⟨rfl, h.1⟩
  | releaseStore =>
    obtain ⟨c, -, rfl⟩ := Option.map_eq_some_iff.mp hs
    exact h.to (.of rfl rfl rfl rfl) (Nat.le_refl _) rfl id fun _ _ _ _ _ _ h => h
  | releaseCheck =>
    cases hs
    dsimp only [releaseCheck]
    split <;> exact h.to hsame (Nat.le_refl _) rfl id fun _ _ _ _ _ _ h => h
  | releaseCas =>
    obtain ⟨c, -, rfl⟩ := Option.map_eq_some_iff.mp hs
    dsimp only [releaseCas]
    split
    · refine h.to ⟨?_, rfl, rfl⟩ (Nat.le_refl _) rfl id fun _ _ _ _ _ _ h => ⟨rfl, h.1⟩
      exact Domain.setPool_sameArrays rfl rfl
    · exact h.to hsame (Nat.le_refl _) rfl id fun _ _ _ _ _ _ h => h

/-- **A step keeps the counters in step with the lists.** -/
theorem Thread.step_tally (ho : Own d C L th) (hnd : (L.map d.payload).Nodup) (h : Tally d C.length L.length m th.pc)
    (hcl : th.pc.closing = false) (hs : th.step d addr = some e) :
    ∃ C' L', Keeps d C L th e C' L' ∧ Tally e.domain C'.length L'.length (m + e.pushed) e.thread.pc := by
  cases hre : th.pc.relists with
  | false => exact ⟨C, L, Thread.step_keeps_lists ho hre hs, Thread.step_tally_lists h hre hcl hs⟩
  | true =>
    unfold Thread.step at hs
    cases hpc : th.pc with
    | pushCas a pa k =>
      rw [hpc] at hs h
      cases hs
      obtain ⟨C', hlen, hk⟩ := pushCas_keeps ho hpc
      refine ⟨C', L, hk, ?_⟩
      rw [hlen]
      exact pushCas_tally h
    | collect k =>
      rw [hpc] at hs h
      cases hs
      exact ⟨[], C, collect_keeps ho hpc, collect_tally h rfl⟩
    | collectWalk head pprev snap k =>
      rw [hpc] at hs
      cases hs
      obtain ⟨L', hk⟩ := collectWalk_keeps ho hpc
      exact ⟨C, L', hk, collectWalk_tally ho hnd h hpc hk⟩
    | collectPush head k =>
      rw [hpc] at hs h
      cases hs
      obtain ⟨L', hlen, hk⟩ := collectPush_keeps ho hpc
      exact ⟨C, L', hk, collectPush_tally h hlen⟩
    | _ =>
      rw [hpc] at hre
      cases hre

end Steps

end Step

/-! ## Runs of calls one after another -/

section Events

variable {n : Nat} {σ σ' : State n} {C : List Addr} {L : Fin n → List Addr} {t : Fin n} {e : Event n}
    {sizes : Nat → Bool}

/-- `can_collect` is true. -/
def Op.CanCollect : Op → Prop
  | .enqueue _ canCollect | .enqueueArray _ canCollect => canCollect = true
  | _ => True

/-- A call is made when no other is in progress, and the domain is not destroyed. -/
def Sequential (σ : State n) : Event n → Prop
  | .call _ op => (∀ u, σ.Idle u) ∧ op.CanCollect
  | .store _ _ _ | .move _ _ => ∀ u, σ.Idle u
  | .close _ => False
  | .step _ _ => True

instance : ∀ op : Op, Decidable op.CanCollect
  | .enqueue _ canCollect | .enqueueArray _ canCollect => inferInstanceAs (Decidable (canCollect = true))
  | .create _ _ | .deleteItem _ | .collect | .destroy => inferInstanceAs (Decidable True)

instance (σ : State n) (e : Event n) : Decidable (Sequential σ e) := by
  cases e <;> simp only [Sequential] <;> infer_instance

/-- The counters and the lists, at rest or in a call of one thread. -/
structure OneCall (σ : State n) (C : List Addr) (L : Fin n → List Addr) : Prop where
  inv : Inv σ C L
  once : Once σ
  opened : ∀ t, (σ.thread t).pc.closing = false
  tally : (∀ u, σ.Idle u) ∧ Tally σ.domain C.length 0 σ.pushes .idle ∨
    ∃ t, (∀ u, u ≠ t → σ.Idle u) ∧ Tally σ.domain C.length (L t).length σ.pushes (σ.thread t).pc

theorem OneCall.rest (h : OneCall σ C L) (hidle : ∀ u, σ.Idle u) : Tally σ.domain C.length 0 σ.pushes .idle := by
  rcases h.tally with ⟨-, ht⟩ | ⟨t, -, ht⟩
  · exact ht
  · rw [h.inv.list_nil (hidle t), show (σ.thread t).pc = .idle from hidle t] at ht
    exact ht

/-- What a thread has on its private list it has there once. -/
theorem Inv.nodup_list (h : Inv σ C L) (ho : Once σ) (t : Fin n) : ((L t).map σ.domain.payload).Nodup := by
  refine List.nodup_iff_count_le_one.mpr fun p => ?_
  have hsum := Finset.single_le_sum (f := fun t => ((σ.thread t).holds σ.domain ++ (L t).map σ.domain.payload).count p)
    (fun _ _ => Nat.zero_le _) (Finset.mem_univ t)
  have hcount := h.count p
  have honce := ho p
  simp only [List.count_append] at hsum hcount
  have : (if p = 0 then 0 else 1) ≤ 1 := by split <;> omega
  omega

theorem Op.start_tally {op : Op} {th th' : Thread} {d : Domain} {N m : Nat} (hpc : th.pc = .idle) (hc : op.CanCollect)
    (hs : op.start th = some th') (h : Tally d N 0 m .idle) : Tally d N 0 m th'.pc := by
  obtain ⟨ctx, deleted, delIndex, pc⟩ := th
  cases hpc
  have hsame : SameCounts d d := .of rfl rfl rfl rfl
  cases op with
  | deleteItem item =>
    cases ctx with
    | none => cases hs
    | some c =>
      simp only [Op.start, Thread.deleteItem] at hs
      split at hs
      · split at hs
        · split at hs
          · cases hs
            split
            · exact h.to hsame (Nat.le_refl _) rfl id fun _ _ _ _ _ _ h => h
            · exact h
          · cases hs
        · cases hs
          exact h.to hsame (Nat.le_refl _) rfl id fun _ _ _ _ _ _ h => h
      · cases hs
        exact h.to hsame (Nat.le_refl _) rfl id fun _ _ _ _ _ _ h => ⟨rfl, h.1⟩
  | create =>
    cases ctx with
    | some c => cases hs
    | none =>
      cases hs
      exact h.to hsame (Nat.le_refl _) rfl id fun _ _ _ _ _ _ h => h
  | enqueueArray items can =>
    cases ctx with
    | some c => cases hs
    | none =>
      cases hs
      exact h.to hsame (Nat.le_refl _) rfl id fun _ _ _ _ _ _ h => ⟨hc, h.1⟩
  | enqueue item can =>
    cases hs
    exact h.to hsame (Nat.le_refl _) rfl id fun _ _ _ _ _ _ h => ⟨hc, h.1⟩
  | collect =>
    cases hs
    exact h.to hsame (Nat.le_refl _) rfl id fun _ _ _ _ _ _ _ => trivial
  | destroy =>
    cases ctx with
    | none => cases hs
    | some c =>
      cases hs
      exact h.to hsame (Nat.le_refl _) rfl id fun _ _ _ _ _ _ h => h

theorem OneCall.next (h : OneCall σ C L) (hok : Sequential σ e) (hn : (machine n sizes).next σ e = some σ') :
    ∃ C' L', OneCall σ' C' L' := by
  have honce := h.once.next hn
  cases e with
  | call t op =>
    obtain ⟨hidle, hc⟩ := hok
    have hrest := h.rest hidle
    simp only [machine] at hn
    split at hn
    · rename_i hen
      obtain ⟨-, -, hv, -, hret⟩ := hen
      obtain ⟨th, hth, rfl⟩ := Option.map_eq_some_iff.mp hn
      have hI := h.inv.call (hidle t) (Op.start_starts (h.inv.rest (hidle t)) (hidle t) hv
        (fun p hp => (hret p hp).1) hth)
      have hself : (σ.set t th).thread t = th := Function.update_self ..
      have hother : ∀ u, u ≠ t → (σ.set t th).thread u = σ.thread u := fun u hu => Function.update_of_ne hu ..
      refine ⟨C, L, hI, honce, fun u => ?_, .inr ⟨t, fun u hu => ?_, ?_⟩⟩
      · change ((σ.set t th).thread u).pc.closing = false
        by_cases hut : u = t
        · rw [hut, hself]
          exact (Op.start_call (hidle t) hth).2.1
        · rw [hother u hut]
          exact h.opened u
      · change ((σ.set t th).thread u).pc = .idle
        rw [hother u hu]
        exact hidle u
      · change Tally σ.domain C.length (L t).length σ.pushes ((σ.set t th).thread t).pc
        rw [hself, h.inv.list_nil (hidle t)]
        exact Op.start_tally (hidle t) hc hth hrest
    · cases hn
  | store t index ptr =>
    have hrest := h.rest hok
    simp only [machine] at hn
    split at hn
    · have hI := h.inv.store hn
      unfold State.store at hn
      split at hn
      · split at hn
        · cases hn
          exact ⟨C, L, hI, honce, h.opened, .inl ⟨hok, hrest.to (.of rfl rfl rfl rfl) (Nat.le_refl _) rfl id
            fun _ _ _ _ _ _ h => h⟩⟩
        · cases hn
      · cases hn
    · cases hn
  | move t u =>
    have hrest := h.rest hok
    simp only [machine] at hn
    split at hn
    · rename_i hen
      obtain ⟨-, ht, hu, htc, huc⟩ := hen
      cases hn
      have hidle : ∀ v, (σ.move t u).Idle v := by
        intro v
        unfold State.Idle
        by_cases hvt : v = t
        · rw [hvt, move_from]
          exact ht
        · by_cases hvu : v = u
          · rw [hvu, move_to (move_ne htc huc)]
          · rw [move_other hvt hvu]
            exact hok v
      refine ⟨C, L, h.inv.move ht hu htc huc, honce, fun v => ?_, .inl ⟨hidle, hrest⟩⟩
      rw [hidle v]
      rfl
    · cases hn
  | close t => cases hok
  | step t addr =>
    obtain ⟨e, he, rfl⟩ := Option.map_eq_some_iff.mp hn
    have hbusy : ¬ σ.Idle t := by
      intro hidle
      unfold Thread.step at he
      rw [show (σ.thread t).pc = .idle from hidle] at he
      cases he
    rcases h.tally with ⟨hidle, -⟩ | ⟨v, hidle, htally⟩
    · exact absurd (hidle t) hbusy
    · obtain rfl : t = v := by
        by_contra hne
        exact hbusy (hidle t hne)
      obtain ⟨C', L', hk, htally'⟩ :=
        Thread.step_tally (h.inv.own t) (h.inv.nodup_list h.once t) htally (h.opened t) he
      have hself : (σ.apply t e).thread t = e.thread := Function.update_self ..
      have hother : ∀ u, u ≠ t → (σ.apply t e).thread u = σ.thread u := fun u hu => Function.update_of_ne hu ..
      refine ⟨C', Function.update L t L', h.inv.step hk, honce, fun u => ?_, .inr ⟨t, fun u hu => ?_, ?_⟩⟩
      · by_cases hut : u = t
        · rw [hut, hself]
          rcases (Thread.step_slots (h.inv.ok t) he).closing with hcr | hcl
          · rw [hcr]
            rfl
          · rw [hcl]
            exact h.opened t
        · rw [hother u hut]
          exact h.opened u
      · unfold State.Idle
        rw [hother u hu]
        exact hidle u hu
      · rw [hself, Function.update_self]
        exact htally'

theorem reachable_oneCall (h : (machine n sizes).ReachableBy Sequential σ) : ∃ C L, OneCall σ C L := by
  refine h.invariant (I := fun σ => ∃ C L, OneCall σ C L) (fun σ hσ => ⟨[], fun _ => [], Inv.init hσ, ?_, ?_, ?_⟩)
    fun σ e σ' hI hok hn => ?_
  · cases hσ
    exact fun p => Nat.zero_le _
  · cases hσ
    exact fun _ => rfl
  · cases hσ
    exact .inl ⟨fun _ => rfl, Nat.le_refl _, Nat.le_refl _, rfl, fun _ _ => ⟨Nat.le_refl _, Nat.le_refl _⟩⟩
  · obtain ⟨C, L, hI⟩ := hI
    exact hI.next hok hn

/-- The room in the array of a context, less the one entry that makes it full. -/
def Thread.room (th : Thread) : Nat :=
  match th.ctx with
  | some c => c.R - 1
  | none => 0

theorem Thread.Rest.items_le {th : Thread} (h : th.Rest) : (itemsOf th.deleted).length ≤ th.room := by
  unfold Thread.Rest at h
  unfold Thread.room
  cases hc : th.ctx with
  | none =>
    rw [hc] at h
    simp [h]
  | some c =>
    rw [hc] at h
    obtain ⟨-, hlen, hdense, hidx⟩ := h
    rw [hdense.length_items]
    dsimp only
    have := hdense.1
    by_cases hR : c.R = 0
    · omega
    · have := hidx hR
      omega

/-- **Bounded garbage.** When calls are made one after another, fewer than
2^31 nodes have been pushed and no call is in progress, the delete list is
no longer than the number of slots, and each context with an array has room
for one more item. So what is retired and not reclaimed is no more than the
slots and the rooms. -/
theorem garbage_bounded (h : (machine n sizes).ReachableBy Sequential σ) (hidle : ∀ t, σ.Idle t)
    (hm : σ.pushes < 2 ^ 31) :
    (∃ C, Seg σ.domain.next σ.domain.deleteHead C none ∧ C.length ≤ σ.domain.slotCount) ∧
    (∀ t c, (σ.thread t).ctx = some c → 1 ≤ c.R → (itemsOf (σ.thread t).deleted).length ≤ c.R - 1) ∧
    σ.retired.length ≤ σ.reclaimed.length + σ.domain.slotCount + ∑ t, (σ.thread t).room := by
  obtain ⟨C, L, hI⟩ := reachable_oneCall h
  have htally := hI.rest hidle
  have hC : C.length ≤ σ.domain.slotCount := by
    by_cases hT : σ.domain.slotCount < 2 ^ 31
    · exact (htally.bounded hm hT).2
    · have := htally.length
      omega
  have hitems : ∀ t, (itemsOf (σ.thread t).deleted).length ≤ (σ.thread t).room :=
    fun t => (hI.inv.rest (hidle t)).items_le
  refine ⟨⟨C, hI.inv.shared, hC⟩, fun t c hc _ => ?_, ?_⟩
  · have hle := hitems t
    unfold Thread.room at hle
    rw [hc] at hle
    exact hle
  · have hlen := hI.inv.perm.length_eq
    have hplaces : (σ.places C L).length ≤ C.length + ∑ t, (σ.thread t).room := by
      rw [State.places, List.length_append, List.length_map, List.length_flatten, List.map_ofFn, List.sum_ofFn]
      refine Nat.add_le_add_left (Finset.sum_le_sum fun t _ => ?_) _
      simp only [Function.comp_apply, hI.inv.list_nil (hidle t), Thread.holds_idle (hidle t), List.map_nil,
        List.append_nil]
      exact hitems t
    rw [List.length_append] at hlen
    omega

/-- A context with an object in its array, and another on the delete list. -/
theorem garbage_bounded_one :
    ∃ σ : State 1, (machine 1 fun _ => true).ReachableBy Sequential σ ∧ σ.retired = [8, 10] ∧ σ.reclaimed = [] ∧
      σ.retired.length ≤ σ.reclaimed.length + σ.domain.slotCount + ∑ t, (σ.thread t).room := by
  have hrun : ((machine 1 fun _ => true).runIf (fun σ e => decide (Sequential σ e))
      { domain := Domain.fresh, thread := fun _ => {} }
      ([.call 0 (.create 1 2)] ++ List.replicate 11 (.step 0 1000) ++ [.call 0 (.enqueue 8 true)] ++
        List.replicate 6 (.step 0 1000) ++ [.call 0 (.deleteItem 10)])).map
      (fun σ => decide (σ.retired = [8, 10] ∧ σ.reclaimed = [] ∧ σ.pushes = 1 ∧ (σ.thread 0).pc = .idle)) =
        some true := by
    decide +kernel
  obtain ⟨σ, hσ, hfacts⟩ := Option.map_eq_some_iff.mp hrun
  obtain ⟨hret, hrec, hpush, hpc⟩ := of_decide_eq_true hfacts
  have hreach := System.runIf_reachableBy (M := machine 1 fun _ => true) (fun _ _ => of_decide_eq_true) (.init rfl) hσ
  have hidle : ∀ t, σ.Idle t := fun t => by
    obtain rfl : t = 0 := Subsingleton.elim _ _
    exact hpc
  obtain ⟨-, -, hle⟩ := garbage_bounded hreach hidle (by omega)
  exact ⟨σ, hreach, hret, hrec, hle⟩

end Events

end Hazard

end SplitOrder
