/-
The slots `insert_node` passes to `initialise_bucket` on a table that grows.

Three counts meet in `slot + nbuckets`: the one read on entry, the one the
slot was taken by and the one that holds now, powers of two that do not
decrease. If the last is the largest, or the table is doubled now, the sum
is below it. If the first is as large as the last, the table is doubled now.
What is left is a table that grew between entry and check alone: then the
sum is a slot unless the hash is in the last `nbuckets` slots (`RoomLeft`).
-/
import SplitOrder.Growing.Model
import SplitOrder.Solist.Calls

namespace SplitOrder

namespace Growing

open Heap Solist
open Concurrent (FindCall InitCall InitCaller InitPc)

variable {T : Type} {n : Nat} {s s' : Solist T}

/-! ## The invariant -/

/-- What other threads may do to a list between two steps of one. -/
structure Grown (s s' : Solist T) : Prop where
  nBuckets : s.nBuckets ≤ s'.nBuckets
  heap : s.heap.Extends s'.heap

/-- `initialise_bucket` works for a slot of the table, with a node that has the slot's key. -/
structure Fits (s : Solist T) (i : InitCall) : Prop where
  slot : i.slot < s.nBuckets
  node : i.node < s.heap.size
  key : s.heap.key i.node = reverseHashtBits i.slot

/-- The keys the search of `get_parent` can meet are those of slots of a table no larger than this one. -/
def Searches (s : Solist T) (keyStep pbKey : SoKey) : Prop :=
  ∃ k ≤ 31, 2 ^ k ≤ s.nBuckets.toNat ∧ 2 ^ (32 - k) ∣ keyStep.toNat ∧ 2 ^ (32 - k) ∣ pbKey.toNat

/-- The count on entry, the count of the check and the count now do not decrease. -/
structure CheckSlot.Ok (s : Solist T) (nbuckets : Hash) (c : CheckSlot) : Prop where
  pow : ∃ k, c.nBuckets.toNat = 2 ^ k
  entry : nbuckets ≤ c.nBuckets
  now : c.nBuckets ≤ s.nBuckets

/-- What holds at the points of `Concurrent.Model`. Those that would read `n_buckets` are not met. -/
def CoreOk (s : Solist T) : Concurrent.Pc → Prop
  | .init i pc => Fits s i ∧ (∀ pbSlot, pc = .parent pbSlot → pbSlot < s.nBuckets) ∧ ∀ pbKey, pc ≠ .probe pbKey
  | .initReturn slot _ => slot < s.nBuckets
  | .initEntry _ _ | .findEntry _ | .findBucket _ | .insertCheck _ => False
  | _ => True

def Pc.Ok (s : Solist T) (nbuckets : Hash) : Pc → Prop
  | .core pc => CoreOk s pc
  | .findTest _ slot | .findBucket _ slot | .initAssert slot _ | .initTest slot _ => slot < s.nBuckets
  | .parent i => Fits s i
  | .probe i keyStep pbKey => Fits s i ∧ Searches s keyStep pbKey
  | .insertItems c | .insertFull c _ | .expandTest c | .expandReplace c => c.Ok s nbuckets
  | .findSlot _ | .insertCheck _ | .splitTest _ => True

structure Thread.Ok (s : Solist T) (th : Thread) : Prop where
  entry : th.nbuckets ≤ s.nBuckets
  pc : th.pc.Ok s th.nbuckets

structure Inv (σ : State T n) : Prop where
  table : Table σ.list
  thread : ∀ t, (σ.thread t).Ok σ.list

/-! ## Other threads -/

namespace Grown

theorem refl (s : Solist T) : Grown s s := ⟨BitVec.le_refl _, .refl _⟩

theorem lt (h : Grown s s') {slot : Hash} (hs : slot < s.nBuckets) : slot < s'.nBuckets :=
  Nat.lt_of_lt_of_le hs h.nBuckets

theorem fits (h : Grown s s') {i : InitCall} (hi : Fits s i) : Fits s' i where
  slot := h.lt hi.slot
  node := Nat.lt_of_lt_of_le hi.node h.heap.size
  key := by rw [h.heap.key i.node hi.node, hi.key]

theorem searches (h : Grown s s') {keyStep pbKey : SoKey} (hs : Searches s keyStep pbKey) :
    Searches s' keyStep pbKey := by
  obtain ⟨k, hk, hle, hstep, hkey⟩ := hs
  exact ⟨k, hk, Nat.le_trans hle h.nBuckets, hstep, hkey⟩

theorem check (h : Grown s s') {nbuckets : Hash} {c : CheckSlot} (hc : c.Ok s nbuckets) : c.Ok s' nbuckets :=
  { hc with now := BitVec.le_trans hc.now h.nBuckets }

theorem core (h : Grown s s') {pc : Concurrent.Pc} (hok : CoreOk s pc) : CoreOk s' pc := by
  cases pc with
  | init i pc =>
    obtain ⟨hfits, hparent, hprobe⟩ := hok
    exact ⟨h.fits hfits, fun p hp => h.lt (hparent p hp), hprobe⟩
  | initReturn slot k => exact h.lt hok
  | _ => exact hok

theorem pc (h : Grown s s') {nbuckets : Hash} {pc : Pc} (hok : pc.Ok s nbuckets) : pc.Ok s' nbuckets := by
  cases pc with
  | core pc => exact h.core hok
  | findTest c slot | findBucket c slot | initAssert slot k | initTest slot k => exact h.lt hok
  | parent i => exact h.fits hok
  | probe i keyStep pbKey => exact ⟨h.fits hok.1, h.searches hok.2⟩
  | insertItems c | insertFull c nItems | expandTest c | expandReplace c => exact h.check hok
  | findSlot c | insertCheck hashv | splitTest ibSlot => exact trivial

theorem thread (h : Grown s s') {th : Thread} (hok : th.Ok s) : th.Ok s' :=
  ⟨BitVec.le_trans hok.entry h.nBuckets, h.pc hok.pc⟩

end Grown

/-! ## The steps of `Concurrent.Model` -/

/-- The table is as it was. -/
structure Steady (s s' : Solist T) : Prop where
  nBuckets : s'.nBuckets = s.nBuckets
  size : s'.buckets.length = s.buckets.length
  heap : s.heap.Extends s'.heap

namespace Steady

theorem refl (s : Solist T) : Steady s s := ⟨rfl, rfl, .refl _⟩

theorem ofHeap {h : Heap T} (he : s.heap.Extends h) : Steady s { s with heap := h } := ⟨rfl, rfl, he⟩

theorem setBucket (i : Nat) (b : Option Addr) : Steady s { s with buckets := s.buckets.set i b } :=
  ⟨rfl, List.length_set .., .refl _⟩

theorem grown (h : Steady s s') : Grown s s' := ⟨by rw [h.nBuckets]; exact BitVec.le_refl _, h.heap⟩

theorem table (h : Steady s s') (ht : Table s) : Table s' where
  pow := by rw [h.nBuckets]; exact ht.pow
  size := by rw [h.size, h.nBuckets, ht.size]

end Steady

/-- Where a step of `initialise_bucket` ends: it has read no slot of a parent. -/
def Lands (i : InitCall) : Concurrent.Pc → Prop
  | .init j pc => j = i ∧ ∀ pbSlot, pc ≠ .parent pbSlot
  | .initReturn slot _ => slot = i.slot
  | .crashed => True
  | _ => False

structure Moves (s : Solist T) (i : InitCall) (e : Concurrent.Effect T) : Prop where
  steady : Steady s e.list
  lands : Lands i e.thread.pc

section Init

variable {i : InitCall} {a : Accessor}

theorem moves_crash : Moves s i (Concurrent.crash s a) := ⟨.refl s, trivial⟩

theorem moves_goto {pc : InitPc} (hs : Steady s s') (hpc : ∀ pbSlot, pc ≠ .parent pbSlot) :
    Moves s i (Concurrent.goto s' a (.init i pc)) := ⟨hs, rfl, hpc⟩

/-- Every step of `initialise_bucket` but the search for a parent. -/
theorem init_moves {pc : InitPc} (hpc : ∀ pbKey, pc ≠ .probe pbKey) : Moves s i (i.step s a pc) := by
  cases pc with
  | probe pbKey => exact absurd rfl (hpc pbKey)
  | parent pbSlot | parentNext =>
    rw [InitCall.step]
    split
    · exact moves_crash
    · exact moves_goto (.refl s) nofun
  | walk =>
    rw [InitCall.step]
    split
    · exact moves_goto (.refl s) nofun
    · split <;> exact moves_goto (.refl s) nofun
  | setNext => exact moves_goto (.ofHeap .setNext) nofun
  | recheck =>
    rw [InitCall.step]
    split
    · exact moves_crash
    · exact moves_goto (.refl s) nofun
    · split
      · exact moves_goto (.refl s) nofun
      · exact moves_goto (.refl s) (by split <;> nofun)
  | cas =>
    rw [InitCall.step]
    split
    · exact moves_crash
    · exact moves_goto (.ofHeap .setNext) (by split <;> nofun)
  | settle =>
    rw [InitCall.step]
    split
    · exact moves_crash
    · exact moves_goto (.refl s) nofun
    · exact moves_goto (.refl s) nofun
  | won =>
    rw [InitCall.step]
    split
    · exact moves_crash
    · exact moves_goto (.refl s) (by split <;> nofun)
  | store => exact moves_goto (.setBucket ..) nofun
  | storeNext => exact moves_goto (.setBucket ..) nofun
  | assertNext =>
    rw [InitCall.step]
    split
    · split
      · exact moves_goto (.refl s) nofun
      · exact moves_crash
    · exact moves_crash
  | discard => exact moves_goto (.ofHeap .delete) nofun
  | assertSet =>
    rw [InitCall.step]
    split
    · exact moves_goto (.refl s) nofun
    · exact moves_crash
  | assertKey =>
    rw [InitCall.step]
    split
    · split
      · exact ⟨.refl s, rfl⟩
      · exact moves_crash
    · exact moves_crash

end Init

/-- A point with nothing of `initialise_bucket`, and no slot to read. -/
def Plain : Concurrent.Pc → Prop
  | .init _ _ | .initReturn _ _ | .initEntry _ _ | .findBucket _ => False
  | _ => True

theorem Plain.ok {pc : Concurrent.Pc} (h : Plain pc) (nbuckets : Hash) : (resume pc).Ok s nbuckets := by
  cases pc with
  | init i pc | initReturn slot k | initEntry slot k | findBucket c => exact absurd h id
  | _ => exact trivial

theorem Lands.ok {i : InitCall} {pc : Concurrent.Pc} (h : Lands i pc) (hi : Fits s i) (nbuckets : Hash) :
    (resume pc).Ok s nbuckets := by
  cases pc with
  | init j pc =>
    obtain ⟨rfl, hpc⟩ := h
    cases pc with
    | probe pbKey => exact hi
    | parent pbSlot => exact absurd rfl (hpc pbSlot)
    | _ => exact ⟨hi, nofun, nofun⟩
  | initReturn slot k =>
    change slot = i.slot at h
    exact h ▸ hi.slot
  | crashed => exact trivial
  | _ => exact absurd h id

section Find

variable {a : Accessor} {c : FindCall} {e : Concurrent.Effect T}

/-- The step leaves the table, and `initialise_bucket` has no part in what comes next. -/
structure Quiet (s : Solist T) (e : Concurrent.Effect T) : Prop where
  steady : Steady s e.list
  plain : Plain e.thread.pc

theorem quiet_crash : Quiet s (Concurrent.crash s a) := ⟨.refl s, trivial⟩

theorem quiet_found (found : Bool) : Quiet s (c.found s a found) := by
  cases c with
  | insertNode hashv dnode =>
    rw [FindCall.found]
    split
    · exact ⟨.ofHeap .delete, trivial⟩
    · exact ⟨.refl s, trivial⟩
  | deleteNode hashv =>
    rw [FindCall.found]
    split <;> exact ⟨.refl s, trivial⟩
  | findItemNode hashv => exact ⟨.refl s, trivial⟩

theorem quiet_walk : Quiet s (c.walk s a) := by
  unfold FindCall.walk
  dsimp only
  split
  · exact quiet_found _
  · split
    · exact ⟨.refl s, trivial⟩
    · exact quiet_found _

/-- A step of `insert_node` or `delete_node` that reads no slot. -/
theorem quiet_step {pc : Concurrent.Pc} (hok : CoreOk s pc) (hinit : ∀ i p, pc ≠ .init i p)
    (hret : ∀ slot k, pc ≠ .initReturn slot k) (h : ({ a, pc } : Concurrent.Thread).step s = some e) : Quiet s e := by
  cases pc with
  | init i p => exact absurd rfl (hinit i p)
  | initReturn slot k => exact absurd rfl (hret slot k)
  | initEntry slot k | findEntry c | findBucket c | insertCheck hashv => exact absurd hok id
  | idle res | expand hashv | crashed => cases h
  | findNext c =>
    cases h
    unfold FindCall.next
    split
    · exact quiet_crash
    · exact ⟨.refl s, trivial⟩
  | findWalk c =>
    cases h
    exact quiet_walk
  | insertSetNext hashv dnode =>
    cases h
    exact ⟨.ofHeap .setNext, trivial⟩
  | insertCas hashv dnode =>
    cases h
    unfold Concurrent.insertCas
    split
    · exact quiet_crash
    · dsimp only
      split <;> exact ⟨.ofHeap .setNext, trivial⟩
  | insertCount hashv =>
    cases h
    exact ⟨⟨rfl, rfl, .refl _⟩, trivial⟩
  | insertNext hashv =>
    cases h
    unfold Concurrent.insertNext
    split
    · exact quiet_crash
    · exact ⟨.refl s, trivial⟩
  | insertWalk hashv =>
    cases h
    unfold Concurrent.insertWalk
    split
    · exact ⟨.refl s, trivial⟩
    · split <;> exact ⟨.refl s, trivial⟩
  | deleteMark hashv =>
    cases h
    unfold Concurrent.deleteMark
    split
    · exact quiet_crash
    · dsimp only
      split <;> exact ⟨.ofHeap .setNext, trivial⟩
  | deleteUnlink hashv =>
    cases h
    unfold Concurrent.deleteUnlink
    split
    · dsimp only
      split <;> exact ⟨.ofHeap .setNext, trivial⟩
    · exact quiet_crash
  | deleteCount hashv =>
    cases h
    unfold Concurrent.deleteCount
    split
    · exact quiet_crash
    · exact ⟨⟨rfl, rfl, .delete⟩, trivial⟩

end Find

/-! ## Slots and counts -/

/-- A power of two below another is at most half of it. -/
theorem two_mul_le_of_lt {x y : Nat} (hx : ∃ j, x = 2 ^ j) (hy : ∃ k, y = 2 ^ k) (h : x < y) : 2 * x ≤ y := by
  obtain ⟨j, rfl⟩ := hx
  obtain ⟨k, rfl⟩ := hy
  have hjk : j < k := (Nat.pow_lt_pow_iff_right (by omega)).mp h
  rw [← pow_succ']
  exact Nat.pow_le_pow_right (by omega) hjk

namespace CheckSlot.Ok

variable {c : CheckSlot} {nbuckets : Hash}

/-- The slot and `nbuckets` are both at most the count of the check. -/
theorem sum_lt (hc : c.Ok s nbuckets) : c.hashv.toNat % c.nBuckets.toNat + nbuckets.toNat < 2 * c.nBuckets.toNat := by
  obtain ⟨k, hk⟩ := hc.pow
  have hslot : c.hashv.toNat % c.nBuckets.toNat < c.nBuckets.toNat := Nat.mod_lt _ (by rw [hk]; exact Nat.two_pow_pos k)
  have hentry : nbuckets.toNat ≤ c.nBuckets.toNat := hc.entry
  omega

/-- `slot + nbuckets` does not wrap. -/
theorem toNat_sum (hc : c.Ok s nbuckets) (ht : Table s) :
    (c.slot + nbuckets).toNat = c.hashv.toNat % c.nBuckets.toNat + nbuckets.toNat := by
  have hnow : c.nBuckets.toNat ≤ s.nBuckets.toNat := hc.now
  have hlt := hc.sum_lt
  have hle := ht.nBuckets_le
  rw [slot, BitVec.toNat_add, BitVec.toNat_umod]
  exact Nat.mod_eq_of_lt (by omega)

/-- **What `expand` leaves when it returns at once.** -/
theorem sum_lt_iff (hc : c.Ok s nbuckets) (ht : Table s) (hgrown : nbuckets < s.nBuckets) :
    c.slot + nbuckets < s.nBuckets ↔
      (nbuckets < c.nBuckets → c.nBuckets = s.nBuckets →
        c.hashv.toNat % s.nBuckets.toNat < s.nBuckets.toNat - nbuckets.toNat) := by
  have hsum := hc.toNat_sum ht
  rw [BitVec.lt_def, hsum]
  by_cases hnow : c.nBuckets = s.nBuckets
  · rw [BitVec.lt_def] at hgrown
    simp only [hnow, BitVec.lt_def, hgrown, true_imp_iff]
    omega
  · -- the table has at least doubled since the check
    obtain ⟨k, -, hn⟩ := ht.pow
    have hlt : c.nBuckets.toNat < s.nBuckets.toNat :=
      Nat.lt_of_le_of_ne hc.now fun h => hnow (BitVec.eq_of_toNat_eq h)
    have htwice := two_mul_le_of_lt hc.pow ⟨k, hn⟩ hlt
    have hroom := Nat.lt_of_lt_of_le hc.sum_lt htwice
    exact ⟨fun _ _ h => absurd h hnow, fun _ => hroom⟩

end CheckSlot.Ok

/-! ## The steps of `insert_node` -/

/-- What a thread's step has to establish. -/
structure Keeps (s : Solist T) (e : Solist T × Thread) : Prop where
  table : Table e.1
  grown : Grown s e.1
  ok : e.2.Ok e.1

section Step

variable {th : Thread} {a : Accessor} {pc : Pc}

theorem Keeps.write (ht : Table s') (hg : Grown s s') (hok : th.Ok s) (hpc : pc.Ok s' th.nbuckets) :
    Keeps s (th.goto s' pc) :=
  ⟨ht, hg, BitVec.le_trans hok.entry hg.nBuckets, hpc⟩

theorem Keeps.goto (ht : Table s) (hok : th.Ok s) (hpc : pc.Ok s th.nbuckets) : Keeps s (th.goto s pc) :=
  .write ht (.refl s) hok hpc

theorem Keeps.crash (ht : Table s) (hok : th.Ok s) : Keeps s (th.crash s) := .goto ht hok trivial

theorem Keeps.done (ht : Table s) (hok : th.Ok s) : Keeps s (th.done s) := ⟨ht, .refl s, hok.entry, trivial⟩

/-- A step of `Concurrent.Model`. -/
theorem Keeps.resume {e : Concurrent.Effect T} (ht : Table s) (hok : th.Ok s) (hs : Steady s e.list)
    (hpc : (Growing.resume e.thread.pc).Ok e.list th.nbuckets) :
    Keeps s (e.list, { th with a := e.thread.a, pc := Growing.resume e.thread.pc }) :=
  ⟨hs.table ht, hs.grown, ⟨by rw [hs.nBuckets]; exact hok.entry, hpc⟩⟩

/-- The dummy of `initialise_bucket` gets the key of its slot. -/
theorem keeps_initTest {slot : Hash} {k : InitCaller} (ht : Table s) (hok : th.Ok s) (hs : slot < s.nBuckets) :
    Keeps s (th.initTest s slot k) := by
  unfold Thread.initTest
  split
  · exact .crash ht hok
  · exact .goto ht hok hs
  · rw [solistBucket_ok (ht.slot_lt hs)]
    have hsteady : Steady s
        { s with heap := s.heap.new { hashv := slot, key := reverseHashtBits slot, payload := none } } :=
      .ofHeap .new
    have hkey : (s.heap.new { hashv := slot, key := reverseHashtBits slot, payload := none }).key s.heap.size =
        reverseHashtBits slot := by simp [Heap.key]
    exact .write (hsteady.table ht) hsteady.grown hok ⟨hs, Nat.lt_succ_self _, hkey⟩

/-- The search begins at the key of the slot, with the distance of neighbouring keys. -/
theorem keeps_parent {i : InitCall} {keyStep : SoKey} (ht : Table s) (hok : th.Ok s) (hi : Fits s i)
    (hstep : solBucketKey (s.nBuckets / 2) = .ok keyStep) :
    Keeps s (th.goto s (.probe i keyStep (s.heap.key i.node))) := by
  obtain ⟨k, hk, hn⟩ := ht.pow
  obtain ⟨-, rfl⟩ := solBucketKey_eq_ok_iff.mp hstep
  refine .goto ht hok ⟨hi, k, hk, Nat.le_of_eq hn.symm, (step_dvd_iff hk).mpr ?_, ?_⟩
  · rw [BitVec.toNat_udiv, hn]
    exact Nat.div_lt_self (Nat.two_pow_pos k) (by decide)
  · rw [hi.key, step_dvd_iff hk, ← hn]
    exact hi.slot

/-- The key below is one of the table too. -/
theorem Searches.sub {keyStep pbKey : SoKey} (h : Searches s keyStep pbKey) :
    Searches s keyStep (pbKey - keyStep) := by
  obtain ⟨k, hk, hle, hstep, hkey⟩ := h
  exact ⟨k, hk, hle, hstep, (dvd_key_sub_iff (Nat.pow_dvd_pow 2 (by omega)) hstep).mpr hkey⟩

theorem Searches.slot_lt {keyStep pbKey : SoKey} (h : Searches s keyStep pbKey) :
    reverseHashtBits pbKey < s.nBuckets := by
  obtain ⟨k, hk, hle, -, hkey⟩ := h
  exact Nat.lt_of_lt_of_le ((reverseHashtBits_lt_iff hk).mpr hkey) hle

theorem keeps_probe {i : InitCall} {keyStep pbKey : SoKey} (ht : Table s) (hok : th.Ok s) (hi : Fits s i)
    (hs : Searches s keyStep pbKey) : Keeps s (th.probe s i keyStep pbKey) := by
  unfold Thread.probe
  dsimp only
  split
  · exact .crash ht hok
  · split
    · refine .goto ht hok ⟨hi, fun pbSlot h => ?_, nofun⟩
      cases h
      exact hs.sub.slot_lt
    · exact .goto ht hok ⟨hi, hs.sub⟩

theorem Grown.doubled (hlt : s.nBuckets.toNat < 2 ^ 31) : Grown s s.doubled := by
  refine ⟨?_, .refl _⟩
  rw [BitVec.le_def, doubled_nBuckets_toNat hlt]
  omega

/-- The doubled table has room for the slot and the count on entry. -/
theorem keeps_expand {c : CheckSlot} (ht : Table s) (hok : th.Ok s) (hc : c.Ok s th.nbuckets)
    (hexp : s.expand s.nBuckets = .ok s') :
    Keeps s (th.goto s' (.initAssert (c.slot + th.nbuckets) .insertNode)) := by
  rcases Nat.lt_or_eq_of_le ht.nBuckets_le with hlt | heq
  · rw [expand_eq ht.size hlt] at hexp
    cases hexp
    refine .write (ht.doubled hlt) (.doubled hlt) hok ?_
    have hnow : c.nBuckets.toNat ≤ s.nBuckets.toNat := hc.now
    have hsum := hc.sum_lt
    change c.slot + th.nbuckets < s.doubled.nBuckets
    rw [BitVec.lt_def, hc.toNat_sum ht, doubled_nBuckets_toNat hlt]
    omega
  · rw [expand_overflow ht.size heq] at hexp
    cases hexp

/-- The points of `Concurrent.Model`. -/
theorem keeps_core {pc : Concurrent.Pc} {nbuckets : Hash} {e : Solist T × Thread} (ht : Table s)
    (hok : ({ a, pc := .core pc, nbuckets } : Thread).Ok s)
    (h : ({ a, pc := .core pc, nbuckets } : Thread).step s = some e) : Keeps s e := by
  have hpc : CoreOk s pc := hok.pc
  cases pc with
  | init i pc =>
    cases h
    have hm := init_moves (s := s) (i := i) (a := a) hpc.2.2
    exact .resume ht hok hm.steady (hm.lands.ok (hm.steady.grown.fits hpc.1) _)
  | initReturn slot k =>
    cases k with
    | findNode c =>
      cases h
      exact .goto ht hok hpc
    | caller | insertNode =>
      cases h
      exact .resume ht hok (.refl s) trivial
  | _ =>
    simp only [Thread.step, Option.map_eq_some_iff] at h
    obtain ⟨e, he, rfl⟩ := h
    have hq := quiet_step hpc nofun nofun he
    exact .resume ht hok hq.steady (hq.plain.ok _)

/-- **One step.** The table, the other threads' slots and this thread's. -/
theorem keeps_step {e : Solist T × Thread} (ht : Table s) (hok : th.Ok s) (hroom : th.RoomLeft s)
    (h : th.step s = some e) : Keeps s e := by
  obtain ⟨a, pc, nbuckets⟩ := th
  have hpc := hok.pc
  cases pc with
  | core pc => exact keeps_core ht hok h
  | findSlot c =>
    cases h
    exact .goto ht hok (ht.umod_lt _)
  | findTest c slot =>
    simp only [Thread.step] at h
    split at h
    · cases h
      exact .crash ht hok
    · cases h
      exact .goto ht hok hpc
    · cases h
      exact .goto ht hok hpc
  | findBucket c slot =>
    simp only [Thread.step] at h
    split at h
    · cases h
      exact .crash ht hok
    · cases h
      exact ⟨ht, .refl s, hok.entry, trivial⟩
  | initAssert slot k =>
    cases h
    split
    · exact .goto ht hok hpc
    · exact .crash ht hok
  | initTest slot k =>
    cases h
    exact keeps_initTest ht hok hpc
  | parent i =>
    simp only [Thread.step] at h
    split at h
    · cases h
      exact .crash ht hok
    · cases h
      exact keeps_parent ht hok hpc ‹_›
  | probe i keyStep pbKey =>
    cases h
    exact keeps_probe ht hok hpc.1 hpc.2
  | insertCheck hashv =>
    cases h
    split
    · exact .goto ht hok ⟨ht.pow.imp fun _ h => h.2, hok.entry, BitVec.le_refl _⟩
    · exact .done ht hok
  | insertItems c =>
    cases h
    split
    · exact .goto ht hok hpc
    · exact .goto ht hok hpc
  | insertFull c nItems =>
    cases h
    split
    · exact .goto ht hok hpc
    · exact .goto ht hok trivial
  | splitTest ibSlot =>
    cases h
    split
    · exact .goto ht hok ‹_›
    · exact .done ht hok
  | expandTest c =>
    cases h
    split
    · exact .goto ht hok ((CheckSlot.Ok.sum_lt_iff hpc ht ‹_›).mpr (hroom c rfl))
    · exact .goto ht hok hpc
  | expandReplace c =>
    simp only [Thread.step] at h
    split at h
    · cases h
      exact .crash ht hok
    · cases h
      exact keeps_expand ht hok hpc ‹_›

theorem keeps_insertNode {hashv : Hash} {payload : T} (ht : Table s) (hok : th.Ok s) :
    Keeps s (th.insertNode s hashv payload) := by
  unfold Thread.insertNode
  split
  · exact .crash ht hok
  · have hsteady : Steady s { s with heap := s.heap.new ‹_› } := .ofHeap .new
    exact ⟨hsteady.table ht, hsteady.grown, BitVec.le_refl _, trivial⟩

end Step

/-! ## Runs -/

section Runs

variable {σ σ' : State T n} {e : Event T n} {size bucketLength : Hash}

theorem Inv.apply {t : Fin n} {e : Solist T × Thread} (hi : Inv σ) (hk : Keeps σ.list e) : Inv (σ.apply t e) := by
  refine ⟨hk.table, fun u => ?_⟩
  by_cases hu : u = t
  · subst hu
    simpa [State.apply] using hk.ok
  · simpa [State.apply, hu] using hk.grown.thread (hi.thread u)

theorem Inv.next (hi : Inv σ) (hroom : RoomLeft σ e) (h : (machine T n size bucketLength).next σ e = some σ') :
    Inv σ' := by
  cases e with
  | insertNode t hashv payload =>
    simp only [machine] at h
    split at h
    · cases h
      exact hi.apply (keeps_insertNode hi.table (hi.thread t))
    · cases h
  | step t =>
    obtain ⟨e, he, rfl⟩ := Option.map_eq_some_iff.mp h
    exact hi.apply (keeps_step hi.table (hi.thread t) hroom he)

theorem Inv.init (hsize : ∃ k, size.toNat = 2 ^ k) (h : (machine T n size bucketLength).init σ) : Inv σ := by
  obtain ⟨hlist, hthread⟩ := h
  obtain ⟨k, hk, hn⟩ := two_pow_le hsize
  obtain ⟨list, hcreate, hnb, -, hlen, -⟩ := create_ok (T := T) size bucketLength (by rw [hn]; exact Nat.two_pow_pos k)
  cases hlist.symm.trans hcreate
  refine ⟨⟨⟨k, hk, by rw [hnb, hn]⟩, by rw [hlen, hnb]⟩, fun t => ?_⟩
  rw [hthread t]
  exact ⟨Nat.zero_le _, trivial⟩

theorem Pc.Ok.passed {pc : Pc} {nbuckets slot : Hash} (hok : pc.Ok s nbuckets) (h : pc.passed = some slot) :
    slot < s.nBuckets := by
  cases pc with
  | initAssert slot k =>
    cases h
    exact hok
  | _ => cases h

theorem Pc.Ok.index {pc : Pc} {nbuckets slot : Hash} (hok : pc.Ok s nbuckets) (h : pc.index = some slot) :
    slot < s.nBuckets := by
  cases pc with
  | findTest c slot | findBucket c slot | initTest slot k =>
    cases h
    exact hok
  | probe i keyStep pbKey =>
    cases h
    exact hok.2.sub.slot_lt
  | core pc =>
    cases pc with
    | init i pc =>
      obtain ⟨hfits, hparent, -⟩ := hok
      cases pc with
      | parent pbSlot =>
        cases h
        exact hparent _ rfl
      | recheck | settle | store | storeNext | assertNext | assertSet | assertKey =>
        cases h
        exact hfits.slot
      | _ => cases h
    | _ => cases h
  | _ => cases h

theorem Inv.inRange (hi : Inv σ) : InRange σ := by
  intro t
  have hpc := (hi.thread t).pc
  refine ⟨fun slot h => hpc.passed h, fun slot h => ?_⟩
  rw [hi.table.size]
  exact hpc.index h

/-- Without room left, the slot passed next is not one of the table. -/
theorem Inv.roomLeft (hi : Inv σ) (h : (machine T n size bucketLength).next σ e = some σ') (hr : InRange σ') :
    RoomLeft σ e := by
  cases e with
  | insertNode t hashv payload => exact trivial
  | step t =>
    intro c hc hentry hnow
    have hpc : (σ.thread t).pc = .expandTest c := by
      cases hp : (σ.thread t).pc <;> rw [hp] at hc <;> cases hc
      rfl
    have hok : c.Ok σ.list (σ.thread t).nbuckets := by
      have := (hi.thread t).pc
      rwa [hpc] at this
    have hgrown : (σ.thread t).nbuckets < σ.list.nBuckets := hnow ▸ hentry
    obtain ⟨e, he, rfl⟩ := Option.map_eq_some_iff.mp h
    have hnext : e = (σ.thread t).goto σ.list (.initAssert (c.slot + (σ.thread t).nbuckets) .insertNode) := by
      simp only [Thread.step, hpc, if_pos hgrown, Option.some.injEq] at he
      exact he.symm
    have hpassed := (hr t).1 (c.slot + (σ.thread t).nbuckets) (by simp [State.apply, hnext, Thread.goto, Pc.passed])
    rw [hnext] at hpassed
    exact (hok.sum_lt_iff hi.table hgrown).mp hpassed hentry hnow

/-- Thread `t` enters with `hashv`; thread `u` makes two whole inserts, of
`h₁` and `h₂` in `k₁` and `k₂` steps; then `t` takes 16 steps. -/
def overtaken (t u : Fin n) (hashv h₁ h₂ : Hash) (k₁ k₂ : Nat) : List (Event Nat n) :=
  .insertNode t hashv 0 :: (.insertNode u h₁ 1 :: List.replicate k₁ (.step u)) ++
    (.insertNode u h₂ 2 :: List.replicate k₂ (.step u)) ++ List.replicate 16 (.step t)

end Runs

end Growing

end SplitOrder
