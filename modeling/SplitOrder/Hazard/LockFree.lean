/-
Calls of the domain get on, whatever the other threads do.

A turn of a `CAS` loop fails only because another thread has changed what
the `CAS` expects, and a call changes only so much: a pool, a bitmap, the
exchange of a delete list, a push for each object it has. So while no call
returns only finitely many steps can be taken. The rank that falls is
lexicographic: the threads between calls; the stages the calls have left;
the nodes still to push; what changes `delete_count`; and, with none of
these moving, the steps of each thread to its next move. The loop of
`reserve` over a pool it can get nothing from has no such rank.
-/
import Mathlib.Data.Prod.Lex
import SplitOrder.Lib.Progress
import SplitOrder.Hazard.Conserved
import SplitOrder.Hazard.Garbage

namespace SplitOrder

namespace Hazard

/-! ## The rank of a thread -/

/-- The stages that are left after a call of the domain. -/
def After.stage : After → Nat
  | .done | .reclaim | .destroyed => 0
  | .domain => 1
  | .destroy => 2

def PushAfter.stage (k : After) : PushAfter → Nat
  | .collect _ => k.stage + 1
  | _ => k.stage + 2

def SnapshotAfter.stage : SnapshotAfter → Nat
  | .reclaim => 3
  | .collect _ k => k.stage + 1

/-- The stages a call has left: it moves on by a push of a pool, a store to
`hp_count`, a change of a bitmap, an exchange of the delete list, or an end. -/
def Pc.stage : Pc → Nat
  | .idle | .domainPools _ | .ended | .crashed => 0
  | .construct _ _ _ _ | .domainEnd => 1
  | .reserve _ _ again | .reserveLoad _ _ again _ | .reserveCas _ _ again _ _ => if again then 2 else 4
  | .countLoad _ _ | .countStore _ _ _ | .reclaim _ _ => 3
  | .poolsNext _ _ | .poolsCas _ _ _ => 4
  | .destruct _ | .release | .releaseTest _ | .releaseSlot _ _ | .releaseStore _ _ | .releaseCheck _ _
  | .releaseLoad _ _ | .releaseCas _ _ _ => 5
  | .push _ a k | .pushCas _ a k | .pushCount a k => a.stage k
  | .snapshot a | .snapshotLoad _ _ _ a => a.stage
  | .collectWalk _ _ _ k | .collectPush _ k => k.stage + 1
  | .enqueue _ _ k | .enqueueArray _ _ _ k | .enqueueNull _ _ _ k | .collectIf _ k | .collectTest _ _ k | .collectLoad k
  | .collectZero _ k | .collect k => k.stage + 2

def PushAfter.pushes : PushAfter → Nat
  | .array x count _ => count - (x + 1)
  | _ => 0

/-- The nodes the stage has to push, apart from the private list. -/
def Pc.pushes : Pc → Nat
  | .push _ a _ | .pushCas _ a _ => a.pushes + 1
  | .pushCount a _ => a.pushes
  | .enqueue _ _ _ => 1
  | .enqueueArray x count _ _ => count - x
  | .enqueueNull x count _ _ => count - (x + 1)
  | _ => 0

/-- What may still change `delete_count`: an increment that is due, or the reset. -/
def Pc.recounts (d : Domain) (pc : Pc) : Nat := 2 * pc.pushing + if d.deleteCount = 0#32 then 0 else 1

/-- The steps of a snapshot that starts at the pool `p`. -/
def Domain.walk (d : Domain) : Nat → Nat
  | 0 => 0
  | p + 1 => d.walk p + (d.pool (p + 1)).hpCount + 1

def SnapshotAfter.rank (c : Option Context) (L : List Addr) : SnapshotAfter → Nat
  | .reclaim => (c.elim 0 Context.R) + 1
  | .collect _ _ => L.length + 26

/-- The steps of a thread to where it moves on, if nothing else changes; a turn whose `CAS` is to fail has one more. -/
def Pc.rank (c : Option Context) (d : Domain) (L : List Addr) : Pc → Nat
  | .idle | .ended | .crashed | .domainEnd | .collect _ | .pushCount _ _ => 0
  | .reserve _ _ _ => 6
  | .reserveLoad _ _ _ _ => 5
  | .reserveCas _ _ _ p expected => if (d.pool p).bitmap = expected ∧ expected ≠ Pool.full then 1 else 6
  | .poolsNext _ _ => 2
  | .poolsCas _ _ next => if d.poolsHead = next then 1 else 3
  | .countLoad _ _ => 2
  | .countStore _ _ _ => 1
  | .construct S _ _ i => S - i
  | .push _ _ _ => 22
  | .pushCas a _ _ => if d.deleteHead = d.next a then 21 else 23
  | .enqueue _ _ _ | .enqueueArray _ _ _ _ | .collectPush _ _ => 25
  | .enqueueNull _ _ _ _ => 26
  | .collectIf _ _ => if d.deleteCount = 0#32 then 12 else 14
  | .collectTest _ dc _ => if d.hpCount.slt dc then if d.deleteCount = 0#32 then 16 else 13 else 11
  | .collectLoad _ => if d.deleteCount = 0#32 then 15 else 12
  | .collectZero dc _ => if d.deleteCount = 0#32 then 14 else if d.deleteCount = dc then 11 else 15
  | .snapshot a => a.rank c L + d.walk d.poolsHead + 2
  | .snapshotLoad p ix _ a => a.rank c L + (d.walk p - min ix (d.pool p).hpCount) + 1
  | .collectWalk _ none _ _ => L.length + 26
  | .collectWalk _ (some b) _ _ => L.length - (L.idxOf b + 1) + 26
  | .reclaim ix _ => (c.elim 0 Context.R) - ix + 1
  | .destruct i => (c.elim 0 Context.S) - i + d.walk d.poolsHead + 8
  | .release => d.walk d.poolsHead + 7
  | .releaseTest p => d.walk p + 6
  | .releaseSlot p x => 2 * ((d.pool p).blkSize - x) + 5
  | .releaseStore p x => 2 * ((d.pool p).blkSize - (x + 1)) + 6
  | .releaseCheck _ _ => 4
  | .releaseLoad _ _ => 2
  | .releaseCas p _ expected => if (d.pool p).bitmap = expected then 1 else 3
  | .domainPools p => p + 1

/-- A turn of the loop of `reserve` on a pool it can get nothing from. -/
def Pc.Spins (d : Domain) : Pc → Prop
  | .reserveLoad S _ _ p => p ≠ 0 ∧ (S ≠ (d.pool p).blkSize ∨ (d.pool p).bitmap = Pool.full)
  | _ => False

/-! ## One step -/

/-- What the ranks of the other threads depend on. -/
structure SameShared (d d' : Domain) : Prop where
  poolsHead : d'.poolsHead = d.poolsHead
  pool : d'.pool = d.pool
  hpCount : d'.hpCount = d.hpCount
  deleteCount : d'.deleteCount = d.deleteCount
  deleteHead : d'.deleteHead = d.deleteHead

theorem SameShared.refl (d : Domain) : SameShared d d := ⟨rfl, rfl, rfl, rfl, rfl⟩

/-- The rank of the thread that takes a step falls; `L` and `L'` are its private list. -/
def Lowers (d : Domain) (L : List Addr) (th : Thread) (e : Effect) (L' : List Addr) : Prop :=
  e.thread.pc.stage < th.pc.stage ∨
    e.thread.pc.stage ≤ th.pc.stage ∧
      (e.thread.pc.pushes + L'.length < th.pc.pushes + L.length ∨
        e.thread.pc.pushes + L'.length ≤ th.pc.pushes + L.length ∧
          (e.thread.pc.recounts e.domain < th.pc.recounts d ∨
            e.thread.pc.recounts e.domain ≤ th.pc.recounts d ∧ SameShared d e.domain ∧
              e.thread.pc.rank e.thread.ctx e.domain L' < th.pc.rank th.ctx d L))

variable {d d' : Domain} {C L L' : List Addr} {th th' : Thread} {pc : Pc} {k : After} {a : Addr} {addr : Nat}
  {e : Effect}

theorem Domain.walk_congr (h : SameShared d d') (p : Nat) : d'.walk p = d.walk p := by
  induction p with
  | zero => rfl
  | succ p ih => simp only [Domain.walk, ih, h.pool]

/-- The rank of a thread stays while another one changes nothing it depends on. -/
theorem Pc.rank_congr {c : Option Context} (h : SameShared d d') (hn : ∀ a ∈ pc.newNode, d'.next a = d.next a) :
    pc.rank c d' L = pc.rank c d L := by
  cases pc with
  | collectWalk head pprev snap k => cases pprev <;> rfl
  | pushCas a pa k =>
    have ha := hn a (by simp [Pc.newNode])
    simp only [Pc.rank, h.deleteHead, ha]
  | _ => simp only [Pc.rank, h.poolsHead, h.pool, h.hpCount, h.deleteCount, Domain.walk_congr h]

theorem Lowers.stage (h : e.thread.pc.stage < th.pc.stage) : Lowers d L th e L' := .inl h

/-- A step within the stage that changes nothing shared. -/
theorem Lowers.rank (hc : e.thread.ctx = th.ctx) (hs : SameShared d e.domain) (h1 : e.thread.pc.stage ≤ th.pc.stage)
    (h2 : e.thread.pc.pushes ≤ th.pc.pushes) (h3 : e.thread.pc.pushing ≤ th.pc.pushing)
    (h4 : e.thread.pc.rank th.ctx e.domain L < th.pc.rank th.ctx d L) : Lowers d L th e L := by
  refine .inr ⟨h1, .inr ⟨Nat.add_le_add_right h2 _, .inr ⟨?_, hs, ?_⟩⟩⟩
  · simp only [Pc.recounts, hs.deleteCount]
    omega
  · simp only [hc]
    exact h4

theorem Lowers.goto (hs : SameShared d d') (h1 : pc.stage ≤ th.pc.stage) (h2 : pc.pushes ≤ th.pc.pushes)
    (h3 : pc.pushing ≤ th.pc.pushing) (h4 : pc.rank th.ctx d' L < th.pc.rank th.ctx d L) :
    Lowers d L th (Hazard.goto d' th pc) L := .rank rfl hs h1 h2 h3 h4

theorem After.resume_stage : (k.resume th).pc.stage ≤ k.stage := by
  cases k <;> exact Nat.le_refl _

/-- The end of a call of `enqueue_for_delete`, if the counter is settled or the rank was more than a loop of
`collect_if_required` has. -/
theorem After.enqueued_lowers {b : Bool} (h1 : th.pc.stage = k.stage + 2)
    (h : Pc.idle.recounts d' < th.pc.recounts d ∨ SameShared d d' ∧ 14 < th.pc.rank th.ctx d L) :
    Lowers d L th { domain := d', thread := k.enqueued b th } L := by
  unfold After.enqueued
  split
  · rcases h with h | ⟨hs, h⟩
    · exact .inr ⟨Nat.le_of_eq h1.symm, .inr ⟨Nat.add_le_add_right (Nat.zero_le _) _, .inl h⟩⟩
    · refine Lowers.goto hs (Nat.le_of_eq h1.symm) (Nat.zero_le _) (Nat.zero_le _) (Nat.lt_of_le_of_lt ?_ h)
      simp only [Pc.rank]
      split <;> omega
  · refine .stage ?_
    have hle : (k.resume th).pc.stage ≤ k.stage := After.resume_stage
    change (k.resume th).pc.stage < _
    omega

theorem Domain.walk_eq {p : Nat} (h : p ≠ 0) : d.walk p = d.walk (p - 1) + (d.pool p).hpCount + 1 := by
  obtain ⟨p, rfl⟩ := Nat.exists_eq_succ_of_ne_zero h
  rfl

section Steps

variable {S R p ix x i count : Nat} {again can : Bool} {pa : PushAfter} {item : Ptr} {c : Context} {snap : List Ptr}

/-- The loop goes round with what is in the bitmap. -/
theorem reserveTurn_lowers (hs : th.pc.stage = if again then 2 else 4) (hr : 5 < th.pc.rank th.ctx d L) :
    Lowers d L th (goto d th (reserveTurn S R again p (d.pool p).bitmap)) L := by
  unfold reserveTurn
  split
  · exact .goto (.refl d) (Nat.le_of_eq hs.symm) (Nat.zero_le _) (Nat.zero_le _) hr
  · rename_i hf
    have hfresh : Pc.rank th.ctx d L (.reserveCas S R again p (d.pool p).bitmap) = 1 := by simp [Pc.rank, hf]
    refine .goto (.refl d) (Nat.le_of_eq hs.symm) (Nat.zero_le _) (Nat.zero_le _) ?_
    omega

theorem reserveLoad_lowers (hpc : th.pc = .reserveLoad S R again p) (hspin : ¬ th.pc.Spins d) :
    Lowers d L th (reserveLoad d th S R again p) L := by
  obtain ⟨ctx, deleted, delIndex, pc⟩ := th
  cases hpc
  unfold reserveLoad
  split
  · cases again with
    | true => exact .stage (by decide : 0 < 2)
    | false => exact .goto (.refl d) (Nat.le_refl _) (Nat.le_refl _) (Nat.le_refl _) (by decide : 2 < 5)
  · rename_i hp
    have hgo : S = (d.pool p).blkSize ∧ (d.pool p).bitmap ≠ Pool.full := by
      simp only [Pc.Spins, not_and, not_or, not_not] at hspin
      exact hspin hp
    rw [if_neg (not_not.mpr hgo.1), reserveTurn, if_neg hgo.2]
    refine .goto (.refl d) (Nat.le_refl _) (Nat.le_refl _) (Nat.le_refl _) ?_
    simp [Pc.rank, hgo.2]

theorem reserveCas_lowers {expected : BitVec 32} (hpc : th.pc = .reserveCas S R again p expected) :
    Lowers d L th (reserveCas d th S R again p expected) L := by
  obtain ⟨ctx, deleted, delIndex, pc⟩ := th
  cases hpc
  unfold reserveCas
  by_cases hf : expected = Pool.full
  · have hturn : (d.pool p).turn expected = (d.pool p, .again expected) := by
      subst hf
      rfl
    simp only [hturn, reserveTurn, if_pos hf]
    refine .goto (.refl d) (Nat.le_refl _) (Nat.le_refl _) (Nat.le_refl _) ?_
    simp [Pc.rank, hf]
  · by_cases hb : (d.pool p).bitmap = expected
    · obtain ⟨j, -, hturn, -⟩ := Pool.turn_ok hb hf
      simp only [hturn]
      refine .stage ?_
      cases again
      · exact (by decide : 1 < 4)
      · exact (by decide : 1 < 2)
    · simp only [Pool.turn_fail hb hf]
      exact reserveTurn_lowers rfl (by simp [Pc.rank, hb])

theorem poolsCas_lowers {next : Nat} (hpc : th.pc = .poolsCas S R next) (he : poolsCas d th addr S R next = some e) :
    Lowers d L th e L := by
  obtain ⟨ctx, deleted, delIndex, pc⟩ := th
  cases hpc
  unfold poolsCas at he
  split at he
  · split at he
    · cases he
      exact .stage (by decide : 3 < 4)
    · cases he
  · rename_i hne
    cases he
    exact .goto (.refl d) (Nat.le_refl _) (Nat.le_refl _) (Nat.le_refl _) (by simp [Pc.rank, hne])

theorem construct_lowers {ptr : Nat} (hpc : th.pc = .construct S R ptr i) :
    Lowers d L th (construct d th S R ptr i) L := by
  obtain ⟨ctx, deleted, delIndex, pc⟩ := th
  cases hpc
  unfold construct
  split
  · refine .goto ⟨rfl, rfl, rfl, rfl, rfl⟩ (Nat.le_refl _) (Nat.le_refl _) (Nat.le_refl _) ?_
    simp only [Pc.rank]
    omega
  · exact .stage (by decide : 0 < 1)

/-- A node is pushed, or there is another turn. -/
theorem pushCas_lowers (hpc : th.pc = .pushCas a pa k) : Lowers d L th (pushCas d th a pa k) L := by
  obtain ⟨ctx, deleted, delIndex, pc⟩ := th
  cases hpc
  unfold pushCas
  split
  · refine .inr ⟨Nat.le_refl _, .inl ?_⟩
    simp only [goto, Thread.setPc, Pc.pushes]
    omega
  · rename_i hne
    refine .goto ⟨rfl, rfl, rfl, rfl, rfl⟩ (Nat.le_refl _) (Nat.le_refl _) (Nat.le_refl _) ?_
    simp [Pc.rank, hne]

theorem pushCount_lowers (hpc : th.pc = .pushCount pa k) : Lowers d L th (pushCount d th pa k) L := by
  obtain ⟨ctx, deleted, delIndex, pc⟩ := th
  cases hpc
  -- two for the increment, and at most one for a counter that is no longer 0
  have hcount : ∀ d' : Domain, Pc.idle.recounts d' < (Pc.pushCount pa k).recounts d := by
    intro d'
    simp only [Pc.recounts, Pc.pushing]
    split <;> omega
  unfold pushCount
  cases pa with
  | enqueue can => exact After.enqueued_lowers rfl (.inl (hcount _))
  | array x count can => exact .inr ⟨Nat.le_refl _, .inr ⟨Nat.le_refl _, .inl (hcount _)⟩⟩
  | collect head => exact .inr ⟨Nat.le_refl _, .inr ⟨Nat.le_refl _, .inl (hcount _)⟩⟩

theorem enqueueArray_lowers (hpc : th.pc = .enqueueArray x count can k)
    (he : enqueueArray d th addr x count can k = some e) : Lowers d L th e L := by
  obtain ⟨ctx, deleted, delIndex, pc⟩ := th
  cases hpc
  rcases enqueueArray_cases he with ⟨item, hx, -, -, -, rfl⟩ | ⟨hx, -, rfl⟩ | ⟨-, rfl⟩
  · refine .goto ⟨rfl, rfl, rfl, rfl, rfl⟩ (Nat.le_refl _) ?_ (Nat.le_refl _) (by simp [Pc.rank])
    simp only [Pc.pushes, PushAfter.pushes]
    omega
  · refine .inr ⟨Nat.le_refl _, .inl ?_⟩
    simp only [goto, Thread.setPc, Pc.pushes]
    omega
  · exact After.enqueued_lowers rfl (.inr ⟨.refl d, by simp [Pc.rank]⟩)

theorem collectTest_lowers {b : Bool} {dc : BitVec 32} (hpc : th.pc = .collectTest b dc k) :
    Lowers d L th (collectTest d th b dc k) L := by
  obtain ⟨ctx, deleted, delIndex, pc⟩ := th
  cases hpc
  unfold collectTest
  split
  · rename_i hdc
    refine .goto (.refl d) (Nat.le_refl _) (Nat.le_refl _) (Nat.le_refl _) ?_
    simp only [Pc.rank, hdc, if_true]
    split <;> omega
  · rename_i hdc
    split
    · exact .goto (.refl d) (Nat.le_refl _) (Nat.le_refl _) (Nat.le_refl _) (by simp [Pc.rank, hdc])
    · exact .stage (Nat.lt_of_le_of_lt After.resume_stage (by simp [Pc.stage]))

theorem collectZero_lowers {dc : BitVec 32} (hpc : th.pc = .collectZero dc k) :
    Lowers d L th (collectZero d th dc k) L := by
  obtain ⟨ctx, deleted, delIndex, pc⟩ := th
  cases hpc
  unfold collectZero
  by_cases h0 : d.deleteCount = 0#32
  · have hsame : SameShared d { d with deleteCount := 0#32 } := ⟨rfl, rfl, rfl, h0.symm, rfl⟩
    split
    · exact .goto hsame (Nat.le_refl _) (Nat.le_refl _) (Nat.le_refl _) (by simp [Pc.rank, h0])
    · exact .goto (.refl d) (Nat.le_refl _) (Nat.le_refl _) (Nat.le_refl _) (by simp [Pc.rank, h0])
  · split
    · refine .inr ⟨Nat.le_refl _, .inr ⟨Nat.le_refl _, .inl ?_⟩⟩
      simp [goto, Thread.setPc, Pc.recounts, Pc.pushing, h0]
    · rename_i hdc
      exact .goto (.refl d) (Nat.le_refl _) (Nat.le_refl _) (Nat.le_refl _) (by simp [Pc.rank, h0, hdc])

theorem collect_lowers (hpc : th.pc = .collect k) : Lowers d L th (collect d th k) L' := by
  obtain ⟨ctx, deleted, delIndex, pc⟩ := th
  cases hpc
  unfold collect
  split
  · exact .stage (Nat.lt_of_le_of_lt After.resume_stage (by simp [Pc.stage]))
  · exact .stage (by simp [goto, Thread.setPc, Pc.stage, SnapshotAfter.stage])

theorem snapshotLoad_lowers {buf : List Ptr} {sa : SnapshotAfter} (hpc : th.pc = .snapshotLoad p ix buf sa) :
    Lowers d L th (snapshotLoad d th p ix buf sa) L := by
  obtain ⟨ctx, deleted, delIndex, pc⟩ := th
  cases hpc
  unfold snapshotLoad
  split
  · cases sa with
    | reclaim =>
      refine .goto (.refl d) (Nat.le_refl _) (Nat.le_refl _) (Nat.le_refl _) ?_
      simp only [SnapshotAfter.resume, Pc.rank, SnapshotAfter.rank]
      omega
    | collect head k =>
      refine .goto (.refl d) (Nat.le_refl _) (Nat.le_refl _) (Nat.le_refl _) ?_
      simp only [SnapshotAfter.resume, Pc.rank, SnapshotAfter.rank]
      omega
  · rename_i hp
    have hw := d.walk_eq hp
    split
    · refine .goto (.refl d) (Nat.le_refl _) (Nat.le_refl _) (Nat.le_refl _) ?_
      simp only [Pc.rank]
      omega
    · refine .goto (.refl d) (Nat.le_refl _) (Nat.le_refl _) (Nat.le_refl _) ?_
      simp only [Pc.rank, Domain.poolNext]
      omega

theorem reclaim_lowers (hpc : th.pc = .reclaim ix snap) (hc : th.ctx = some c)
    (he : reclaim d th c ix snap = some e) : Lowers d L th e L := by
  obtain ⟨ctx, deleted, delIndex, pc⟩ := th
  cases hpc
  cases hc
  rcases reclaim_cases he with ⟨item, hix, -, -, rfl⟩ | ⟨item, hix, -, -, rfl⟩ | ⟨-, -, rfl⟩ | ⟨b, -, -, -, rfl⟩
  · refine .goto (.refl d) (Nat.le_refl _) (Nat.le_refl _) (Nat.le_refl _) ?_
    simp only [Pc.rank, Option.elim_some]
    omega
  · refine .rank rfl (.refl d) (Nat.le_refl _) (Nat.le_refl _) (Nat.le_refl _) ?_
    simp only [Pc.rank, Option.elim_some]
    omega
  · exact .stage (by decide : 2 < 3)
  · exact .stage (by decide : 0 < 3)

theorem destruct_lowers (hpc : th.pc = .destruct i) (hc : th.ctx = some c) : Lowers d L th (destruct d th c i) L := by
  obtain ⟨ctx, deleted, delIndex, pc⟩ := th
  cases hpc
  cases hc
  unfold destruct
  split
  · have hsame : SameShared d (d.setSlot (c.hazardPtrs + i) 0) := ⟨rfl, rfl, rfl, rfl, rfl⟩
    refine .goto hsame (Nat.le_refl _) (Nat.le_refl _) (Nat.le_refl _) ?_
    simp only [Pc.rank, Option.elim_some, Domain.walk_congr hsame, hsame.poolsHead]
    omega
  · refine .goto (.refl d) (Nat.le_refl _) (Nat.le_refl _) (Nat.le_refl _) ?_
    simp only [Pc.rank]
    omega

theorem releaseTest_lowers (hpc : th.pc = .releaseTest p) : Lowers d L th (releaseTest d th c p) L := by
  obtain ⟨ctx, deleted, delIndex, pc⟩ := th
  cases hpc
  unfold releaseTest
  split
  · exact .stage (by decide : 0 < 5)
  · rename_i hp
    have hw := d.walk_eq hp
    split
    · refine .goto (.refl d) (Nat.le_refl _) (Nat.le_refl _) (Nat.le_refl _) ?_
      simp only [Pc.rank, Pool.hpCount] at hw ⊢
      omega
    · refine .goto (.refl d) (Nat.le_refl _) (Nat.le_refl _) (Nat.le_refl _) ?_
      simp only [Pc.rank, Domain.poolNext]
      omega

theorem releaseSlot_lowers (hpc : th.pc = .releaseSlot p x) : Lowers d L th (releaseSlot d th c p x) L := by
  obtain ⟨ctx, deleted, delIndex, pc⟩ := th
  cases hpc
  unfold releaseSlot
  split
  · split
    · refine .goto (.refl d) (Nat.le_refl _) (Nat.le_refl _) (Nat.le_refl _) ?_
      simp only [Pc.rank]
      omega
    · refine .goto (.refl d) (Nat.le_refl _) (Nat.le_refl _) (Nat.le_refl _) ?_
      simp only [Pc.rank]
      omega
  · split
    · refine .goto (.refl d) (Nat.le_refl _) (Nat.le_refl _) (Nat.le_refl _) ?_
      simp only [Pc.rank]
      omega
    · exact .stage (by decide : 4 < 5)

theorem releaseCheck_lowers (hpc : th.pc = .releaseCheck p ix) : Lowers d L th (releaseCheck d th p ix) L := by
  obtain ⟨ctx, deleted, delIndex, pc⟩ := th
  cases hpc
  simp only [releaseCheck]
  split
  · exact .goto (.refl d) (Nat.le_refl _) (Nat.le_refl _) (Nat.le_refl _) (by decide : 2 < 4)
  · exact .stage (by decide : 0 < 5)

theorem releaseCas_lowers {expected : BitVec 32} (hpc : th.pc = .releaseCas p ix expected) :
    Lowers d L th (releaseCas d th c p ix expected) L := by
  obtain ⟨ctx, deleted, delIndex, pc⟩ := th
  cases hpc
  simp only [releaseCas]
  split
  · exact .stage (by decide : 4 < 5)
  · rename_i hne
    exact .goto (.refl d) (Nat.le_refl _) (Nat.le_refl _) (Nat.le_refl _) (by simp [Pc.rank, hne])

theorem domainPools_lowers (hpc : th.pc = .domainPools p) : Lowers d L th (domainPools d th p) L := by
  obtain ⟨ctx, deleted, delIndex, pc⟩ := th
  cases hpc
  unfold domainPools
  split
  · exact .goto (.refl d) (Nat.le_refl _) (Nat.le_refl _) (Nat.le_refl _) (Nat.succ_pos _)
  · split
    · exact .goto (.refl d) (Nat.le_refl _) (Nat.le_refl _) (Nat.le_refl _) (Nat.succ_pos _)
    · refine .goto (.refl d) (Nat.le_refl _) (Nat.le_refl _) (Nat.le_refl _) ?_
      simp only [Pc.rank, Domain.poolNext]
      omega

/-! ## The private list -/

/-- A list that a step takes nodes from, one of them freed. -/
theorem length_lt_of_freed {C' : List Addr} (hk : Keeps d C L th e C' L')
    (hpc : ∀ k, th.pc ≠ .collect k) (ha : a ∈ L) (hfree : e.domain.live a = false) : L'.length < L.length := by
  have hnd : L'.Nodup := (List.nodup_append.mp (List.nodup_append.mp hk.nodup).2.1).1
  have hnot : a ∉ L' := by
    intro hmem
    have hl := hk.live a (by simp [hmem])
    rw [hfree] at hl
    cases hl
  have hsub : a :: L' ⊆ L := by
    intro b hb
    rcases List.mem_cons.mp hb with rfl | hb
    · exact ha
    · exact (hk.sub hpc b hb).1
  have hle := (List.subperm_of_subset (List.nodup_cons.mpr ⟨hnot, hnd⟩) hsub).length_le
  exact hle

/-- `*pprev` is in the private list, and past it there is less to walk. -/
theorem walk_rank {head pprev : Option Addr} (h : Own d C L th) (hpc : th.pc = .collectWalk head pprev snap k)
    (hcur : d.cursor head pprev = some a) :
    a ∈ L ∧ (Pc.collectWalk head (some a) snap k).rank th.ctx d L < th.pc.rank th.ctx d L := by
  obtain ⟨ctx, deleted, delIndex, pc⟩ := th
  cases hpc
  obtain ⟨-, A, B, rfl, hlast, -⟩ := h.ok
  have hp : Seg d.next head (A ++ B) none := h.priv
  have hnd : (A ++ B).Nodup := (List.nodup_append.mp (List.nodup_append.mp h.nodup).2.1).1
  cases pprev with
  | none =>
    obtain rfl : A = [] := List.getLast?_eq_none_iff.mp hlast.symm
    cases B with
    | nil => cases hcur.symm.trans hp.head
    | cons b B =>
      cases hcur.symm.trans hp.head
      refine ⟨by simp, ?_⟩
      simp only [Pc.rank, List.nil_append, List.idxOf_cons_self, List.length_cons]
      omega
  | some b =>
    obtain ⟨A, rfl⟩ := List.getLast?_eq_some_iff.mp hlast.symm
    rw [List.append_assoc, List.singleton_append] at hp hnd ⊢
    have hb : b ∉ A := fun hmem => (List.nodup_append.mp hnd).2.2 b hmem b (by simp) rfl
    cases B with
    | nil => cases hcur.symm.trans hp.next
    | cons x B =>
      cases hcur.symm.trans hp.next
      have ha : a ∉ A ++ [b] := by
        have hnd : ((A ++ [b]) ++ a :: B).Nodup := by simpa using hnd
        exact fun hmem => (List.nodup_append.mp hnd).2.2 a hmem a (by simp) rfl
      have hia : (A ++ b :: a :: B).idxOf a = A.length + 1 := by
        rw [← List.singleton_append, ← List.append_assoc, List.idxOf_append_of_notMem ha]
        simp
      have hib : (A ++ b :: a :: B).idxOf b = A.length := by
        rw [List.idxOf_append_of_notMem hb]
        simp
      refine ⟨by simp, ?_⟩
      simp only [Pc.rank, hia, hib, List.length_append, List.length_cons]
      omega

theorem collectWalk_lowers {head pprev : Option Addr} (h : Own d C L th)
    (hpc : th.pc = .collectWalk head pprev snap k) :
    ∃ L', Keeps d C L th (collectWalk d th head pprev snap k) C L' ∧
      Lowers d L th (collectWalk d th head pprev snap k) L' := by
  obtain ⟨L', hk⟩ := collectWalk_keeps h hpc
  refine ⟨L', hk, ?_⟩
  obtain ⟨ctx, deleted, delIndex, pc⟩ := th
  cases hpc
  have hp : Seg d.next head L none := h.priv
  rcases collectWalk_cases d _ head pprev snap k with ⟨-, he⟩ | ⟨cur, hcur, -, he⟩ | ⟨cur, d', head', hcur, -, hd, he⟩
  · rw [he] at hk ⊢
    obtain rfl : L' = L := Seg.det hk.priv hp
    refine .goto (.refl d) (Nat.le_refl _) (Nat.le_refl _) (Nat.le_refl _) ?_
    cases pprev <;> simp [Pc.rank]
  · rw [he] at hk ⊢
    obtain rfl : L' = L := Seg.det hk.priv hp
    exact .goto (.refl d) (Nat.le_refl _) (Nat.le_refl _) (Nat.le_refl _) (walk_rank h rfl hcur).2
  · rw [he] at hk ⊢
    have hfree : d'.live cur = false := by
      rcases hd with rfl | ⟨b, rfl⟩ <;> simp [Domain.freeNode]
    have hlt := length_lt_of_freed hk (fun _ hc => by cases hc) (walk_rank h rfl hcur).1 hfree
    exact .inr ⟨Nat.le_refl _, .inl (Nat.add_lt_add_left hlt _)⟩

theorem collectPush_lowers {head : Option Addr} (h : Own d C L th) (hpc : th.pc = .collectPush head k) :
    ∃ L', Keeps d C L th (collectPush d th head k) C L' ∧ Lowers d L th (collectPush d th head k) L' := by
  obtain ⟨L', hlen, hk⟩ := collectPush_keeps h hpc
  refine ⟨L', hk, ?_⟩
  obtain ⟨ctx, deleted, delIndex, pc⟩ := th
  cases hpc
  cases head with
  | none => exact .stage (Nat.lt_of_le_of_lt After.resume_stage (by simp [Pc.stage]))
  | some a =>
    -- the node pushed is one fewer to come
    have hlen : L'.length + 1 = L.length := hlen
    refine .inr ⟨Nat.le_refl _, .inr ⟨?_, .inr ⟨Nat.le_refl _, .refl d, (by decide : 22 < 25)⟩⟩⟩
    simp only [collectPush, goto, Thread.setPc, Pc.pushes, PushAfter.pushes]
    omega

/-- The steps that leave both lists alone lower the rank. -/
theorem Thread.step_lowers_lists (hpc : th.pc.relists = false) (hspin : ¬ th.pc.Spins d) (hhp : ¬ d.hpCount.slt 0#32)
    (hs : th.step d addr = some e) : Lowers d L th e L := by
  obtain ⟨ctx, deleted, delIndex, pc⟩ := th
  cases pc with
  | idle | ended | crashed => cases hs
  | pushCas | collect | collectWalk | collectPush => cases hpc
  | reserve =>
    cases hs
    exact .goto (.refl d) (Nat.le_refl _) (Nat.le_refl _) (Nat.le_refl _) (by decide : 5 < 6)
  | reserveLoad =>
    cases hs
    exact reserveLoad_lowers rfl hspin
  | reserveCas =>
    cases hs
    exact reserveCas_lowers rfl
  | poolsNext =>
    cases hs
    exact .goto (.refl d) (Nat.le_refl _) (Nat.le_refl _) (Nat.le_refl _) (by simp [Pc.rank])
  | poolsCas => exact poolsCas_lowers rfl hs
  | countLoad =>
    cases hs
    exact .goto (.refl d) (Nat.le_refl _) (Nat.le_refl _) (Nat.le_refl _) (by decide : 1 < 2)
  | countStore =>
    cases hs
    exact .stage (by decide : 2 < 3)
  | construct =>
    cases hs
    exact construct_lowers rfl
  | push =>
    cases hs
    refine .goto ⟨rfl, rfl, rfl, rfl, rfl⟩ (Nat.le_refl _) (Nat.le_refl _) (Nat.le_refl _) ?_
    simp [Pc.rank, Domain.next, Domain.setNext, Domain.setNode]
  | pushCount =>
    cases hs
    exact pushCount_lowers rfl
  | enqueue =>
    obtain ⟨-, rfl⟩ := enqueue_cases hs
    exact .goto ⟨rfl, rfl, rfl, rfl, rfl⟩ (Nat.le_refl _) (Nat.le_refl _) (Nat.le_refl _) (by decide : 22 < 25)
  | enqueueArray => exact enqueueArray_lowers rfl hs
  | enqueueNull =>
    cases hs
    exact .rank rfl (.refl d) (Nat.le_refl _) (Nat.le_refl _) (Nat.le_refl _) (by decide : 25 < 26)
  | collectIf =>
    cases hs
    refine .goto (.refl d) (Nat.le_refl _) (Nat.le_refl _) (Nat.le_refl _) ?_
    by_cases h0 : d.deleteCount = 0#32
    · simp [Pc.rank, h0, hhp]
    · simp only [Pc.rank, h0, if_false]
      split <;> omega
  | collectTest =>
    cases hs
    exact collectTest_lowers rfl
  | collectLoad =>
    cases hs
    refine .goto (.refl d) (Nat.le_refl _) (Nat.le_refl _) (Nat.le_refl _) ?_
    by_cases h0 : d.deleteCount = 0#32
    · simp [Pc.rank, h0]
    · simp [Pc.rank, h0]
  | collectZero =>
    cases hs
    exact collectZero_lowers rfl
  | snapshot sa =>
    cases hs
    refine .goto (.refl d) (Nat.le_refl _) (Nat.le_refl _) (Nat.le_refl _) ?_
    simp only [Pc.rank]
    omega
  | snapshotLoad =>
    cases hs
    exact snapshotLoad_lowers rfl
  | reclaim =>
    obtain ⟨c, hc, hr⟩ := Option.bind_eq_some_iff.mp hs
    exact reclaim_lowers rfl hc hr
  | destruct =>
    obtain ⟨c, hc, rfl⟩ := Option.map_eq_some_iff.mp hs
    exact destruct_lowers rfl hc
  | release =>
    cases hs
    refine .goto (.refl d) (Nat.le_refl _) (Nat.le_refl _) (Nat.le_refl _) ?_
    simp only [Pc.rank]
    omega
  | releaseTest =>
    obtain ⟨c, -, rfl⟩ := Option.map_eq_some_iff.mp hs
    exact releaseTest_lowers rfl
  | releaseSlot =>
    obtain ⟨c, -, rfl⟩ := Option.map_eq_some_iff.mp hs
    exact releaseSlot_lowers rfl
  | releaseStore =>
    obtain ⟨c, -, rfl⟩ := Option.map_eq_some_iff.mp hs
    refine .goto ⟨rfl, rfl, rfl, rfl, rfl⟩ (Nat.le_refl _) (Nat.le_refl _) (Nat.le_refl _) ?_
    simp only [Pc.rank, Domain.setSlot]
    omega
  | releaseCheck =>
    cases hs
    exact releaseCheck_lowers rfl
  | releaseLoad =>
    cases hs
    exact .goto (.refl d) (Nat.le_refl _) (Nat.le_refl _) (Nat.le_refl _) (by simp [Pc.rank])
  | releaseCas =>
    obtain ⟨c, -, rfl⟩ := Option.map_eq_some_iff.mp hs
    exact releaseCas_lowers rfl
  | domainEnd =>
    cases hs
    unfold domainEnd
    split
    · exact .stage (by decide : 0 < 1)
    · exact .stage (by decide : 0 < 1)
  | domainPools =>
    cases hs
    exact domainPools_lowers rfl

/-- **Every step lowers the rank of its thread**, but for the turns of `reserve` that get nothing. -/
theorem Thread.step_lowers (h : Own d C L th) (hspin : ¬ th.pc.Spins d) (hhp : ¬ d.hpCount.slt 0#32)
    (hs : th.step d addr = some e) : ∃ C' L', Keeps d C L th e C' L' ∧ Lowers d L th e L' := by
  cases hre : th.pc.relists with
  | false => exact ⟨C, L, Thread.step_keeps_lists h hre hs, Thread.step_lowers_lists hre hspin hhp hs⟩
  | true =>
    unfold Thread.step at hs
    cases hpc : th.pc with
    | pushCas =>
      rw [hpc] at hs
      cases hs
      obtain ⟨C', -, hk⟩ := pushCas_keeps h hpc
      exact ⟨C', L, hk, pushCas_lowers hpc⟩
    | collect =>
      rw [hpc] at hs
      cases hs
      exact ⟨[], C, collect_keeps h hpc, collect_lowers hpc⟩
    | collectWalk =>
      rw [hpc] at hs
      cases hs
      exact ⟨C, collectWalk_lowers h hpc⟩
    | collectPush =>
      rw [hpc] at hs
      cases hs
      exact ⟨C, collectPush_lowers h hpc⟩
    | _ =>
      rw [hpc] at hre
      cases hre

end Steps

/-! ## Runs -/

/-- The threads between calls, the stages, the pushes, what changes `delete_count`, and the steps. -/
abbrev Rank := Nat ×ₗ Nat ×ₗ Nat ×ₗ Nat ×ₗ Nat

def Rank.of (idles stages pushes recounts steps : Nat) : Rank :=
  toLex (idles, toLex (stages, toLex (pushes, toLex (recounts, steps))))

theorem Rank.of_lt {i i' s s' p p' c c' r r' : Nat} (hi : i' ≤ i)
    (h : s' < s ∨ s' ≤ s ∧ (p' < p ∨ p' ≤ p ∧ (c' < c ∨ c' ≤ c ∧ r' < r))) :
    Rank.of i' s' p' c' r' < Rank.of i s p c r := by
  simp only [Rank.of, Prod.Lex.toLex_lt_toLex]
  omega

theorem Rank.of_lt_idles {i i' s s' p p' c c' r r' : Nat} (h : i' < i) : Rank.of i' s' p' c' r' < Rank.of i s p c r :=
  Prod.Lex.toLex_lt_toLex.mpr (.inl h)

def Pc.idles (pc : Pc) : Nat := if pc = .idle then 1 else 0

section Runs

variable {n : Nat} {σ σ' : State n} {C : List Addr} {L : Fin n → List Addr} {t : Fin n} {sizes : Nat → Bool}

/-- The rank of a state, with the private lists `L`. -/
def State.rank (σ : State n) (L : Fin n → List Addr) : Rank :=
  Rank.of (∑ u, (σ.thread u).pc.idles) (∑ u, (σ.thread u).pc.stage) (∑ u, ((σ.thread u).pc.pushes + (L u).length))
    (2 * ∑ u, (σ.thread u).pc.pushing + if σ.domain.deleteCount = 0#32 then 0 else 1)
    (∑ u, (σ.thread u).pc.rank (σ.thread u).ctx σ.domain (L u))

/-- A step that lowers the rank of its thread lowers that of the state, if the thread does not return. -/
theorem Inv.rank_step {e : Effect} {C' L' : List Addr} (h : Inv σ C L)
    (hk : Keeps σ.domain C (L t) (σ.thread t) e C' L') (hl : Lowers σ.domain (L t) (σ.thread t) e L')
    (hidle : e.thread.pc.idles ≤ (σ.thread t).pc.idles) :
    (σ.apply t e).rank (Function.update L t L') < σ.rank L := by
  have hself : (σ.apply t e).thread t = e.thread := Function.update_self ..
  have hother : ∀ u, u ≠ t → (σ.apply t e).thread u = σ.thread u := fun u hu => Function.update_of_ne hu ..
  have hLself : Function.update L t L' t = L' := Function.update_self ..
  have hLother : ∀ u, u ≠ t → Function.update L t L' u = L u := fun u hu => Function.update_of_ne hu ..
  have hi := sum_change (f := fun u => (σ.thread u).pc.idles) (g := fun u => ((σ.apply t e).thread u).pc.idles) t
    fun u hu => by rw [hother u hu]
  have hs := sum_change (f := fun u => (σ.thread u).pc.stage) (g := fun u => ((σ.apply t e).thread u).pc.stage) t
    fun u hu => by rw [hother u hu]
  have hp := sum_change (f := fun u => (σ.thread u).pc.pushes + (L u).length)
    (g := fun u => ((σ.apply t e).thread u).pc.pushes + (Function.update L t L' u).length) t
    fun u hu => by rw [hother u hu, hLother u hu]
  have hc := sum_change (f := fun u => (σ.thread u).pc.pushing) (g := fun u => ((σ.apply t e).thread u).pc.pushing) t
    fun u hu => by rw [hother u hu]
  simp only [hself, hLself] at hi hs hp hc
  refine Rank.of_lt (by omega) ?_
  unfold Lowers Pc.recounts at hl
  have hd : (σ.apply t e).domain = e.domain := rfl
  simp only [hd]
  rcases hl with hl | ⟨h1, hl | ⟨h2, hl | ⟨h3, hsame, h4⟩⟩⟩
  · exact .inl (by omega)
  · exact .inr ⟨by omega, .inl (by omega)⟩
  · exact .inr ⟨by omega, .inr ⟨by omega, .inl (by omega)⟩⟩
  · -- only here the ranks of the others count, and nothing they depend on has changed
    have hr := sum_change (f := fun u => (σ.thread u).pc.rank (σ.thread u).ctx σ.domain (L u))
      (g := fun u => ((σ.apply t e).thread u).pc.rank ((σ.apply t e).thread u).ctx e.domain (Function.update L t L' u)) t
      fun u hu => by
        rw [hother u hu, hLother u hu]
        exact Pc.rank_congr hsame fun a ha => congrArg DeleteNode.next (h.frame hk hu (by simp [ha])).1
    simp only [hself, hLself] at hr
    exact .inr ⟨by omega, .inr ⟨by omega, .inr ⟨by omega, by omega⟩⟩⟩

/-- What an event that is no step of a thread changes: the calls of threads between calls, and slots. -/
structure Quiet (σ σ' : State n) : Prop where
  shared : SameShared σ.domain σ'.domain
  node : σ'.domain.node = σ.domain.node
  thread : ∀ u, σ'.thread u = σ.thread u ∨ σ.Idle u ∧ (σ'.thread u).pc.localHead = none

theorem Quiet.inv {C' : List Addr} {L' : Fin n → List Addr} (hq : Quiet σ σ') (h : Inv σ C L) (h' : Inv σ' C' L') :
    L' = L := by
  funext u
  have hp := h'.priv u
  rcases hq.thread u with hth | ⟨hidle, hnone⟩
  · have hnext : σ'.domain.next = σ.domain.next := by
      funext a
      simp only [Domain.next, hq.node]
    rw [hth, hnext] at hp
    exact Seg.det hp (h.priv u)
  · rw [hnone] at hp
    rw [h.list_nil hidle]
    exact Seg.det hp rfl

theorem Pc.idles_of_ne {pc : Pc} (h : pc ≠ .idle) : pc.idles = 0 := if_neg h

theorem Pc.idles_le (pc : Pc) : pc.idles ≤ 1 := by
  unfold Pc.idles
  split <;> omega

theorem Quiet.idles_le (hq : Quiet σ σ') (u : Fin n) : (σ'.thread u).pc.idles ≤ (σ.thread u).pc.idles := by
  rcases hq.thread u with hth | ⟨hidle, -⟩
  · rw [hth]
  · have h1 : (σ.thread u).pc.idles = 1 := if_pos hidle
    have h2 := (σ'.thread u).pc.idles_le
    omega

/-- A thread has begun a call. -/
theorem Quiet.rank_lt (hq : Quiet σ σ') (ht : σ.Idle t) (ht' : ¬ σ'.Idle t) : σ'.rank L < σ.rank L := by
  refine Rank.of_lt_idles (Finset.sum_lt_sum (fun u _ => hq.idles_le u) ⟨t, Finset.mem_univ t, ?_⟩)
  have h1 : (σ.thread t).pc.idles = 1 := if_pos ht
  have h2 : (σ'.thread t).pc.idles = 0 := Pc.idles_of_ne ht'
  omega

/-- No thread has. -/
theorem Quiet.rank_eq (hq : Quiet σ σ') (hidle : ∀ u, σ.Idle u → σ'.Idle u) : σ'.rank L = σ.rank L := by
  have hpc : ∀ u, (σ'.thread u).pc = (σ.thread u).pc := by
    intro u
    rcases hq.thread u with hth | ⟨hu, -⟩
    · rw [hth]
    · exact (hidle u hu).trans hu.symm
  have hr : ∀ u, (σ'.thread u).pc.rank (σ'.thread u).ctx σ'.domain (L u) =
      (σ.thread u).pc.rank (σ.thread u).ctx σ.domain (L u) := by
    intro u
    rcases hq.thread u with hth | ⟨hu, -⟩
    · rw [hth]
      exact Pc.rank_congr hq.shared fun a _ => congrArg DeleteNode.next (congrFun hq.node a)
    · have hu : (σ.thread u).pc = .idle := hu
      rw [hpc, hu]
      rfl
  simp only [State.rank, hr]
  simp only [hpc, hq.shared.deleteCount]

theorem Op.start_localHead {op : Op} {th th' : Thread} (hpc : th.pc = .idle) (hs : op.start th = some th') :
    th'.pc.localHead = none := by
  obtain ⟨ctx, deleted, delIndex, pc⟩ := th
  cases hpc
  cases op with
  | deleteItem item =>
    cases ctx with
    | none => cases hs
    | some c =>
      simp only [Op.start, Thread.deleteItem] at hs
      split at hs
      · split at hs
        · split at hs
          · cases hs
            split <;> rfl
          · cases hs
        · cases hs
          rfl
      · cases hs
        rfl
  | create | enqueueArray =>
    cases ctx with
    | some c => cases hs
    | none =>
      cases hs
      rfl
  | enqueue | collect =>
    cases hs
    rfl
  | destroy =>
    cases ctx with
    | none => cases hs
    | some c =>
      cases hs
      rfl

/-- One thread, between calls before, goes on with `th`. -/
theorem Quiet.set {th : Thread} (hidle : σ.Idle t) (h : th.pc.localHead = none)
    (hd : σ'.domain = σ.domain) (hth : σ'.thread = Function.update σ.thread t th) : Quiet σ σ' := by
  refine ⟨by rw [hd]; exact .refl _, by rw [hd], fun u => ?_⟩
  by_cases hu : u = t
  · subst hu
    rw [hth, Function.update_self]
    exact .inr ⟨hidle, h⟩
  · rw [hth, Function.update_of_ne hu]
    exact .inl rfl

theorem machine_quiet {ev : Event n} (hno : ∀ t addr, ev ≠ .step t addr) (hn : (machine n sizes).next σ ev = some σ') :
    Quiet σ σ' := by
  cases ev with
  | call t op =>
    simp only [machine] at hn
    split at hn
    · rename_i hen
      obtain ⟨th, hth, rfl⟩ := Option.map_eq_some_iff.mp hn
      exact .set hen.2.1 (Op.start_localHead hen.2.1 hth) rfl rfl
    · cases hn
  | store t index ptr =>
    simp only [machine, State.store] at hn
    split at hn
    · split at hn
      · split at hn
        · cases hn
          exact ⟨⟨rfl, rfl, rfl, rfl, rfl⟩, rfl, fun u => .inl rfl⟩
        · cases hn
      · cases hn
    · cases hn
  | move t u =>
    simp only [machine] at hn
    split at hn
    · rename_i hen
      obtain ⟨-, ht, hu, htc, huc⟩ := hen
      cases hn
      refine ⟨.refl _, rfl, fun v => ?_⟩
      by_cases hvt : v = t
      · rw [hvt, move_from]
        exact .inr ⟨ht, by rw [show (σ.thread t).pc = .idle from ht]; rfl⟩
      · by_cases hvu : v = u
        · rw [hvu, move_to (move_ne htc huc)]
          exact .inr ⟨hu, rfl⟩
        · exact .inl (move_other hvt hvu)
    · cases hn
  | close t =>
    simp only [machine] at hn
    split at hn
    · rename_i hen
      cases hn
      exact .set (hen.2 t).1 rfl rfl rfl
    · cases hn
  | step t addr => exact absurd rfl (hno t addr)

/-- The event is a call, or a step that gets on. -/
def Event.Works (σ : State n) : Event n → Prop
  | .call _ _ | .close _ => True
  | .step t _ => ¬ (σ.thread t).pc.Spins σ.domain
  | .store _ _ _ | .move _ _ => False

/-- The call of the thread is over after the event. -/
def Event.Returns (σ' : State n) : Event n → Prop
  | .call t _ | .step t _ => σ'.Idle t
  | _ => False

/-- A turn of `reserve` that gets nothing changes nothing. -/
theorem Thread.step_spins {th : Thread} {d : Domain} {addr : Nat} {e : Effect} (hspin : th.pc.Spins d)
    (hs : th.step d addr = some e) : e = { domain := d, thread := th } := by
  obtain ⟨ctx, deleted, delIndex, pc⟩ := th
  cases pc with
  | reserveLoad S R again p =>
    obtain ⟨hp, hno⟩ := hspin
    cases hs
    by_cases hS : S = (d.pool p).blkSize
    · have hfull := hno.resolve_left (not_not.mpr hS)
      simp only [reserveLoad, if_neg hp, if_neg (not_not.mpr hS), reserveTurn, if_pos hfull]
      rfl
    · simp only [reserveLoad, if_neg hp, if_pos hS]
      rfl
  | _ => cases hspin

/-- An event begins or ends a call, or leaves the rank at most what it was, and below if it gets on. -/
theorem Inv.rank_next {ev : Event n} (h : Inv σ C L) (hhp : ¬ σ.domain.hpCount.slt 0#32)
    (hn : (machine n sizes).next σ ev = some σ') :
    ev.Returns σ' ∨ ∃ C' L', Inv σ' C' L' ∧ σ'.rank L' ≤ σ.rank L ∧ (ev.Works σ → σ'.rank L' < σ.rank L) := by
  by_cases hev : ∃ t addr, ev = .step t addr
  · obtain ⟨t, addr, rfl⟩ := hev
    obtain ⟨e, he, rfl⟩ := Option.map_eq_some_iff.mp hn
    by_cases hidle : e.thread.pc = .idle
    · refine .inl ?_
      change (Function.update σ.thread t e.thread t).pc = .idle
      rw [Function.update_self]
      exact hidle
    · refine .inr ?_
      by_cases hspin : (σ.thread t).pc.Spins σ.domain
      · have hsame : σ.apply t e = σ := by
          rw [Thread.step_spins hspin he]
          simp [State.apply]
        rw [hsame]
        exact ⟨C, L, h, le_rfl, fun hw => absurd hspin hw⟩
      · obtain ⟨C', L', hk, hl⟩ := Thread.step_lowers (h.own t) hspin hhp he
        have hlt := h.rank_step hk hl (by rw [Pc.idles_of_ne hidle]; exact Nat.zero_le _)
        exact ⟨C', _, h.step hk, le_of_lt hlt, fun _ => hlt⟩
  · have hq : Quiet σ σ' := machine_quiet (fun t addr he => hev ⟨t, addr, he⟩) hn
    obtain ⟨C', L', h'⟩ := h.next hn
    obtain rfl := hq.inv h h'
    by_cases hstill : ∀ u, σ.Idle u → σ'.Idle u
    · have heq : σ'.rank L' = σ.rank L' := hq.rank_eq hstill
      cases ev with
      | call t op =>
        simp only [machine] at hn
        split at hn
        · exact .inl (hstill t (by tauto))
        · cases hn
      | close t =>
        simp only [machine] at hn
        split at hn
        · rename_i hen
          cases hn
          have hidle := hstill t (hen.2 t).1
          simp [State.Idle, State.set, Thread.setPc] at hidle
        · cases hn
      | store t index ptr => exact .inr ⟨C', L', h', le_of_eq heq, False.elim⟩
      | move t u => exact .inr ⟨C', L', h', le_of_eq heq, False.elim⟩
      | step t addr => exact absurd ⟨t, addr, rfl⟩ hev
    · obtain ⟨u, hu⟩ := not_forall.mp hstill
      obtain ⟨hu, hu'⟩ := Classical.not_imp.mp hu
      have hlt : σ'.rank L' < σ.rank L' := hq.rank_lt hu hu'
      exact .inr ⟨C', L', h', le_of_lt hlt, fun _ => hlt⟩

/-- `a` is the rank of the state, with the private lists it has. -/
def Ranked (σ : State n) (a : Rank) : Prop := ∃ C L, Inv σ C L ∧ a = σ.rank L

/-- **The calls of a domain are lock-free**, but for the loop of `reserve`:
if threads go on beginning calls or taking steps other than its turns that
get nothing, calls go on returning. -/
theorem lock_free (r : (machine n sizes).Forever) (h0 : (machine n sizes).Reachable (r.state 0))
    (hhp : ∀ i, ¬ (r.state i).domain.hpCount.slt 0#32) (hw : r.Often fun σ ev _ => ev.Works σ) :
    r.Often fun _ ev σ' => ev.Returns σ' := by
  have hrank : ∀ i, ∃ a, Ranked (r.state i) a := fun i => by
    obtain ⟨C, L, h⟩ := reachable_inv (r.reachableBy h0 (fun _ => trivial) i)
    exact ⟨_, C, L, h, rfl⟩
  refine r.progress hrank (fun i a ha => ?_) hw
  obtain ⟨C, L, h, rfl⟩ := ha
  rcases h.rank_next (hhp i) (r.next i) with hr | ⟨C', L', h', hle, hlt⟩
  · exact .inl hr
  · exact .inr ⟨_, hle, hlt, C', L', h', rfl⟩

/-- Thread 0 is in the loop of `reserve` for ever, on a pool of another block
size, and calls of thread 1 go on returning. -/
theorem lock_free_reserving :
    ∃ r : (machine 2 fun _ => true).Forever, (machine 2 fun _ => true).Reachable (r.state 0) ∧
      (∀ i, ((r.state i).thread 0).pc = .reserveLoad 2 0 false 1) ∧ r.Often fun _ ev σ' => ev.Returns σ' := by
  let start : State 2 := { domain := Domain.fresh, thread := fun _ => {} }
  let events : List (Event 2) :=
    .call 1 (.create 1 0) :: List.replicate 11 (.step 1 0) ++ [.call 0 (.create 2 0), .step 0 0]
  have hrun : ((machine 2 fun _ => true).run start events).any fun s => s.closed = false ∧
      (s.thread 0).pc = .reserveLoad 2 0 false 1 ∧ (s.thread 1).pc = .idle ∧ s.domain.deleteHead = none ∧
      (s.domain.pool 1).blkSize = 1 ∧ s.domain.hpCount = 32#32 := by decide +kernel
  obtain ⟨s, hs, hfacts⟩ := (Option.any_eq_true ..).mp hrun
  obtain ⟨hclosed, hpc0, hpc1, hhead, hblk, hhp⟩ := of_decide_eq_true hfacts
  let busy : State 2 := s.set 1 ((s.thread 1).setPc (.collect .done))
  have h0 : (machine 2 fun _ => true).next s (.call 1 .collect) = some busy := by
    simp [machine, hclosed, State.Idle, hpc1, Op.Valid, State.MayRetire, Op.retires, Op.start, busy, State.set]
  have h1 : (machine 2 fun _ => true).next busy (.step 1 0) = some s := by
    have hth : { s.thread 1 with pc := .idle } = s.thread 1 := by
      rw [← hpc1]
    simp [machine, busy, State.set, Thread.step, Thread.setPc, collect, hhead, After.resume, State.apply, hth]
  have h2 : (machine 2 fun _ => true).next s (.step 0 0) = some s := by
    have he : (s.thread 0).step s.domain 0 = some (reserveLoad s.domain (s.thread 0) 2 0 false 1) := by
      simp only [Thread.step, hpc0]
    have hspin : (s.thread 0).pc.Spins s.domain := by
      rw [hpc0]
      exact ⟨by decide, .inl (by omega)⟩
    simp [machine, he, Thread.step_spins hspin he, State.apply]
  -- thread 1 begins a call and ends it, then thread 0 goes round its loop
  let r : (machine 2 fun _ => true).Forever := {
    state := fun i => if i % 3 = 1 then busy else s
    event := fun i => if i % 3 = 0 then .call 1 .collect else if i % 3 = 1 then .step 1 0 else .step 0 0
    next := fun i => by
      have hi : i % 3 = 0 ∨ i % 3 = 1 ∨ i % 3 = 2 := by omega
      rcases hi with hi | hi | hi
      · simpa [hi, Nat.add_mod] using h0
      · simpa [hi, Nat.add_mod] using h1
      · simpa [hi, Nat.add_mod] using h2 }
  have hreach : (machine 2 fun _ => true).Reachable (r.state 0) := System.run_reachable (.init rfl) hs
  refine ⟨r, hreach, fun i => ?_, lock_free r hreach (fun i => ?_) fun i => ⟨3 * i, by omega, ?_⟩⟩
  · by_cases hi : i % 3 = 1
    · simpa [r, hi, busy, State.set] using hpc0
    · simpa [r, hi] using hpc0
  · have hdom : (r.state i).domain = s.domain := by
      by_cases hi : i % 3 = 1
      · simp [r, hi, busy, State.set]
      · simp [r, hi]
    rw [hdom, hhp]
    decide
  · simp [r, Event.Works]

end Runs

end Hazard

end SplitOrder
