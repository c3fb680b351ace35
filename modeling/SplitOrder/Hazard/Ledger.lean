/-
Each step of a context or a domain keeps the retired objects in their places.
-/
import SplitOrder.Hazard.Moves

namespace SplitOrder

namespace Hazard

variable {d d' : Domain} {C L : List Addr} {th th' : Thread} {pc : Pc} {k : After} {a : Addr}

section Steps

variable {e : Effect} {addr x ix count p i S R : Nat} {again can : Bool} {ctx : Option Context}
    {deleted snap : List Ptr}
  {delIndex : Nat} {c : Context} {head pprev : Option Addr} {pa : PushAfter} {item : Ptr}

theorem reserveTurn_keeps {expected : BitVec 32} (h : Own d C L th) (hd : SameLists d d')
    (h1 : th.pc.localHead = none) (h2 : th.pc.newNode = []) (h3 : th.pc.skip = none) (h4 : th.pc.item = [])
    (ok : R < 2 ^ 64 ∧ th.NoContext) : Keeps d C L th (goto d' th (reserveTurn S R again p expected)) C L := by
  unfold reserveTurn
  split
  · exact h.goto hd h1.symm h2.symm h3.symm h4.symm ok
  · exact h.goto hd h1.symm h2.symm h3.symm h4.symm ok

theorem reserveLoad_keeps (h : Own d C L th) (hpc : th.pc = .reserveLoad S R again p) :
    Keeps d C L th (reserveLoad d th S R again p) C L := by
  obtain ⟨ctx, deleted, delIndex, pc⟩ := th
  cases hpc
  unfold reserveLoad
  split
  · cases again
    · exact h.goto (.refl d) rfl rfl rfl rfl h.ok
    · exact h.goto (.refl d) rfl rfl rfl rfl trivial
  · split
    · exact h.goto (.refl d) rfl rfl rfl rfl h.ok
    · exact reserveTurn_keeps h (.refl d) rfl rfl rfl rfl h.ok

theorem reserveCas_keeps {expected : BitVec 32} (h : Own d C L th) (hpc : th.pc = .reserveCas S R again p expected) :
    Keeps d C L th (reserveCas d th S R again p expected) C L := by
  obtain ⟨ctx, deleted, delIndex, pc⟩ := th
  cases hpc
  unfold reserveCas
  split
  · exact h.goto ⟨rfl, rfl, rfl⟩ rfl rfl rfl rfl h.ok
  · exact reserveTurn_keeps h (.refl d) rfl rfl rfl rfl h.ok

theorem poolsCas_keeps {next : Nat} (h : Own d C L th) (hpc : th.pc = .poolsCas S R next)
    (he : poolsCas d th addr S R next = some e) : Keeps d C L th e C L := by
  obtain ⟨ctx, deleted, delIndex, pc⟩ := th
  cases hpc
  unfold poolsCas at he
  split at he
  · split at he
    · cases he
      exact h.goto ⟨rfl, rfl, rfl⟩ rfl rfl rfl rfl h.ok
    · cases he
  · cases he
    exact h.goto (.refl d) rfl rfl rfl rfl h.ok

theorem construct_keeps {ptr : Nat} (h : Own d C L th) (hpc : th.pc = .construct S R ptr i) :
    Keeps d C L th (construct d th S R ptr i) C L := by
  obtain ⟨ctx, deleted, delIndex, pc⟩ := th
  cases hpc
  obtain ⟨hR, hctx, hitems⟩ := h.ok
  unfold construct
  split
  · exact h.goto ⟨rfl, rfl, rfl⟩ rfl rfl rfl rfl h.ok
  · refine h.keep (.refl d) rfl rfl ?_ ?_
    · have hz : itemsOf (List.replicate R 0) = [] := (Dense.replicate R).items_nil
      have hitems : itemsOf deleted = [] := hitems
      simp [Thread.holds, skipped, Pc.skip, Pc.item, Pc.newNode, hz, hitems]
    · exact ⟨hR, List.length_replicate, Dense.replicate R, fun hne => Nat.pos_of_ne_zero hne⟩

theorem pushCas_keeps {a : Addr} (h : Own d C L th) (hpc : th.pc = .pushCas a pa k) :
    ∃ C', C'.length = C.length + (pushCas d th a pa k).pushed ∧ Keeps d C L th (pushCas d th a pa k) C' L := by
  obtain ⟨ctx, deleted, delIndex, pc⟩ := th
  cases hpc
  unfold pushCas
  split
  · refine ⟨a :: C, rfl, h.pushed rfl ‹_› ?_ rfl ?_ rfl h.ok⟩
    · cases pa <;> rfl
    · cases pa <;> rfl
  · refine ⟨C, rfl, h.setNext rfl ?_ rfl ?_ rfl h.ok⟩
    · cases pa <;> rfl
    · cases pa <;> rfl

theorem pushCount_keeps (h : Own d C L th) (hpc : th.pc = .pushCount pa k) :
    Keeps d C L th (pushCount d th pa k) C L := by
  obtain ⟨ctx, deleted, delIndex, pc⟩ := th
  cases hpc
  unfold pushCount
  cases pa with
  | enqueue can =>
    exact h.resume ⟨rfl, rfl, rfl⟩ rfl rfl rfl rfl ⟨After.enqueued_ok h.ok, After.enqueued_pc⟩
  | array x count can => exact h.goto ⟨rfl, rfl, rfl⟩ rfl rfl rfl rfl h.ok
  | collect head => exact h.goto ⟨rfl, rfl, rfl⟩ rfl rfl rfl rfl h.ok

theorem enqueue_keeps (h : Own d C L th) (hpc : th.pc = .enqueue item can k)
    (he : enqueue d th addr item can k = some e) : Keeps d C L th e C L := by
  obtain ⟨ctx, deleted, delIndex, pc⟩ := th
  cases hpc
  obtain ⟨hlive, rfl⟩ := enqueue_cases he
  exact h.made rfl hlive rfl rfl (by simp [skipped, Pc.skip, Pc.item]) h.ok

theorem enqueueArray_keeps (h : Own d C L th) (hpc : th.pc = .enqueueArray x count can k)
    (he : enqueueArray d th addr x count can k = some e) :
    Keeps d C L th e C L := by
  obtain ⟨ctx, deleted, delIndex, pc⟩ := th
  cases hpc
  obtain ⟨hx, hq⟩ := h.ok
  rcases enqueueArray_cases he with ⟨item, hlt, hitem, hne, hlive, rfl⟩ | ⟨hlt, hitem, rfl⟩ | ⟨hle, rfl⟩
  · refine h.made rfl hlive rfl rfl ?_ ⟨hlt, hq⟩
    simpa [skipped, Pc.skip, Pc.item] using itemsOf_set hitem hne
  · exact h.goto (.refl d) rfl rfl rfl rfl ⟨hlt, hq.succ hitem⟩
  · obtain rfl : x = count := Nat.le_antisymm hx hle
    exact h.resume (.refl d) rfl rfl rfl rfl ⟨After.enqueued_ok hq.ok, After.enqueued_pc⟩

theorem enqueueNull_keeps (h : Own d C L th) (hpc : th.pc = .enqueueNull x count can k) :
    Keeps d C L th { domain := d, thread :=
      { th with deleted := th.deleted.set x 0, pc := .enqueueArray (x + 1) count can k } } C L := by
  obtain ⟨ctx, deleted, delIndex, pc⟩ := th
  cases hpc
  obtain ⟨hx, hlen, hnull, hk⟩ := h.ok
  refine h.keep (.refl d) rfl rfl ?_ ⟨hx, ?_, fun i v hi hv => ?_, hk⟩
  · simp [Thread.holds, skipped, Pc.skip, Pc.item, Pc.newNode]
  · exact List.length_set.trans hlen
  · change (deleted.set x 0)[i]? = some v at hv
    by_cases hix : x = i
    · subst hix
      have hlt : x < deleted.length := by
        rw [show deleted.length = count from hlen]
        exact hx
      rw [List.getElem?_set_self hlt] at hv
      cases hv
      rfl
    · rw [List.getElem?_set_ne hix] at hv
      exact hnull i v (by omega) hv

theorem collectTest_keeps {b : Bool} {dc : BitVec 32} (h : Own d C L th) (hpc : th.pc = .collectTest b dc k) :
    Keeps d C L th (collectTest d th b dc k) C L := by
  obtain ⟨ctx, deleted, delIndex, pc⟩ := th
  cases hpc
  unfold collectTest
  split
  · exact h.goto (.refl d) rfl rfl rfl rfl h.ok
  · split
    · exact h.goto (.refl d) rfl rfl rfl rfl h.ok
    · exact h.resume (.refl d) rfl rfl rfl rfl ⟨After.resume_ok h.ok, After.resume_pc⟩

theorem collectZero_keeps {dc : BitVec 32} (h : Own d C L th) (hpc : th.pc = .collectZero dc k) :
    Keeps d C L th (collectZero d th dc k) C L := by
  obtain ⟨ctx, deleted, delIndex, pc⟩ := th
  cases hpc
  unfold collectZero
  split
  · exact h.goto ⟨rfl, rfl, rfl⟩ rfl rfl rfl rfl h.ok
  · exact h.goto (.refl d) rfl rfl rfl rfl h.ok

/-- The shared list becomes the private one. -/
theorem collect_keeps (h : Own d C L th) (hpc : th.pc = .collect k) : Keeps d C L th (collect d th k) [] C := by
  obtain ⟨ctx, deleted, delIndex, pc⟩ := th
  cases hpc
  unfold collect
  split
  · rename_i hhead
    obtain rfl : C = [] := Seg.det h.shared (by rw [hhead]; rfl)
    obtain rfl := h.list_nil rfl
    exact h.resume (.refl d) rfl rfl rfl rfl ⟨After.resume_ok h.ok, After.resume_pc⟩
  · exact h.taken rfl rfl rfl (Eq.symm ‹d.deleteHead = _›) rfl rfl rfl h.ok

theorem snapshotLoad_keeps {buf : List Ptr} {sa : SnapshotAfter}
    (h : Own d C L th) (hpc : th.pc = .snapshotLoad p ix buf sa) :
    Keeps d C L th (snapshotLoad d th p ix buf sa) C L := by
  obtain ⟨ctx, deleted, delIndex, pc⟩ := th
  cases hpc
  unfold snapshotLoad
  split
  · cases sa with
    | reclaim => exact h.goto (.refl d) rfl rfl rfl rfl h.ok
    | collect head k =>
      exact h.goto (.refl d) rfl rfl rfl rfl ⟨h.ok, [], L, rfl, rfl, fun a ha => by cases ha⟩
  · split
    · refine h.goto (.refl d) ?_ rfl rfl rfl h.ok
      cases sa <;> rfl
    · refine h.goto (.refl d) ?_ rfl rfl rfl h.ok
      cases sa <;> rfl

/-- The walk is at `&local_delete_head`. -/
theorem walkHead_keeps (h : Own d C L th) (hpc : th.pc = .collectWalk head none snap k) :
    ∃ L', Keeps d C L th (collectWalk d th head none snap k) C L' := by
  obtain ⟨ctx, deleted, delIndex, pc⟩ := th
  cases hpc
  have hhead : head = L.head? := Seg.head h.priv
  obtain ⟨hk, -⟩ := h.ok
  subst hhead
  cases L with
  | nil => exact ⟨_, h.goto (.refl d) rfl rfl rfl rfl hk⟩
  | cons cur L =>
    simp only [collectWalk, List.head?_cons]
    split
    · rename_i hs
      refine ⟨_, h.goto (.refl d) rfl rfl rfl rfl ⟨hk, [cur], L, rfl, rfl, fun a ha => ?_⟩⟩
      rw [List.mem_singleton.mp ha]
      exact hs
    · refine ⟨L, h.dropped rfl (A := []) rfl rfl (fun _ _ => rfl) rfl rfl ?_ rfl rfl rfl
        ⟨hk, [], L, rfl, rfl, fun a ha => ?_⟩⟩
      · exact (h.priv : Seg d.next (some cur) (cur :: L) none).2
      · cases ha

/-- The walk is at the next pointer of `b`. -/
theorem walkNext_keeps {b : Addr} (h : Own d C L th) (hpc : th.pc = .collectWalk head (some b) snap k) :
    ∃ L', Keeps d C L th (collectWalk d th head (some b) snap k) C L' := by
  obtain ⟨ctx, deleted, delIndex, pc⟩ := th
  cases hpc
  obtain ⟨hk, A, B, hL, hb, hA⟩ := h.ok
  obtain ⟨A, rfl⟩ := List.getLast?_eq_some_iff.mp hb.symm
  have hL : L = A ++ b :: B := by simpa using hL
  subst hL
  have hp : Seg d.next head (A ++ b :: B) none := h.priv
  have hnext : d.next b = B.head? := hp.next
  have hnd : (A ++ b :: B).Nodup := (List.nodup_append.mp (List.nodup_append.mp h.nodup).2.1).1
  cases B with
  | nil =>
    simp only [collectWalk, hnext, List.head?_nil]
    exact ⟨_, h.goto (.refl d) rfl rfl rfl rfl hk⟩
  | cons cur B =>
    simp only [collectWalk, hnext, List.head?_cons]
    split
    · rename_i hs
      refine ⟨_, h.goto (.refl d) rfl rfl rfl rfl ⟨hk, A ++ [b] ++ [cur], B, by simp, by simp, fun a ha => ?_⟩⟩
      rcases List.mem_append.mp ha with ha | ha
      · exact hA a ha
      · rw [List.mem_singleton.mp ha]
        exact hs
    · refine ⟨(A ++ [b]) ++ B, h.dropped rfl (A := A ++ [b]) (by simp) rfl
        (fun c hc => ?_) rfl Domain.setNext_payload ?_
        rfl rfl rfl ⟨hk, A ++ [b], B, rfl, hb, fun a ha => ?_⟩⟩
      · refine Domain.setNext_node_of_ne ?_
        rintro rfl
        exact hc (by simp)
      · rw [Domain.setNext_next, List.append_assoc]
        exact hp.remove hnd
      · rw [Domain.setNext_payload]
        exact hA a ha

theorem collectWalk_keeps (h : Own d C L th) (hpc : th.pc = .collectWalk head pprev snap k) :
    ∃ L', Keeps d C L th (collectWalk d th head pprev snap k) C L' := by
  cases pprev with
  | none => exact walkHead_keeps h hpc
  | some b => exact walkNext_keeps h hpc

theorem collectPush_keeps (h : Own d C L th) (hpc : th.pc = .collectPush head k) :
    ∃ L', L'.length + (collectPush d th head k).thread.pc.newNode.length = L.length ∧
      Keeps d C L th (collectPush d th head k) C L' := by
  obtain ⟨ctx, deleted, delIndex, pc⟩ := th
  cases hpc
  unfold collectPush
  cases head with
  | none =>
    refine ⟨L, ?_, h.resume (.refl d) rfl rfl rfl rfl ⟨After.resume_ok h.ok, After.resume_pc⟩⟩
    dsimp only
    rw [(After.resume_pc (d := d)).2.1]
    rfl
  | some a =>
    have hpop : ∃ L', L = a :: L' ∧ Keeps d C L _ (goto d _ (.push a (.collect (d.next a)) k)) C L' :=
      h.popped rfl rfl rfl rfl rfl rfl fun _ => h.ok
    obtain ⟨L', hL, hk⟩ := hpop
    exact ⟨L', by rw [hL]; rfl, hk⟩

theorem push_keeps {a : Addr} (h : Own d C L th) (hpc : th.pc = .push a pa k) :
    Keeps d C L th (goto (d.setNext a d.deleteHead) th (.pushCas a pa k)) C L := by
  obtain ⟨ctx, deleted, delIndex, pc⟩ := th
  cases hpc
  refine h.setNext rfl ?_ rfl ?_ rfl h.ok
  · cases pa <;> rfl
  · cases pa <;> rfl

theorem reclaim_keeps (h : Own d C L th) (hpc : th.pc = .reclaim ix snap) (hc : th.ctx = some c)
    (he : reclaim d th c ix snap = some e) : Keeps d C L th e C L := by
  obtain ⟨ctx, deleted, delIndex, pc⟩ := th
  cases hpc
  cases hc
  obtain ⟨_, hc, hR0, hR, hlen, hidx, hne⟩ := h.ok
  cases hc
  rcases reclaim_cases he with ⟨item, -, -, -, rfl⟩ | ⟨item, hix, hitem, -, rfl⟩ | ⟨-, -, rfl⟩ | ⟨b, -, hdel, hb, rfl⟩
  · refine h.goto (.refl d) rfl rfl rfl rfl ⟨c, rfl, hR0, hR, hlen, hidx, fun i v hi hv => ?_⟩
    exact hne i v (by omega) hv
  · have hitem0 : item ≠ 0 := hne ix item (Nat.le_refl _) hitem
    have hperm := itemsOf_set (b := deleted) hitem hitem0
    have hcount := hperm.length_eq
    rw [List.length_append, List.length_singleton] at hcount
    refine h.keep (.refl d) rfl rfl ?_ ⟨c, rfl, hR0, hR, ?_, ?_, fun i v hi hv => ?_⟩
    · simpa [Thread.holds, skipped, Pc.skip, Pc.item, Pc.newNode] using hperm
    · exact List.length_set.trans hlen
    · have hle : (itemsOf deleted).length ≤ deleted.length := List.length_filter_le ..
      have hlen : deleted.length = c.R := hlen
      have hidx : delIndex = (itemsOf deleted).length := hidx
      change sizeDec delIndex = (itemsOf (deleted.set ix 0)).length
      rw [sizeDec_eq (by omega) (by omega)]
      omega
    · change (deleted.set ix 0)[i]? = some v at hv
      rw [List.getElem?_set_ne (by omega)] at hv
      exact hne i v (by omega) hv
  · exact h.goto (.refl d) rfl rfl rfl rfl ⟨Nat.zero_le _, hlen, fun i v hi => by omega, c, rfl, hR, rfl⟩
  · have hlen : deleted.length = c.R := hlen
    have hidx : delIndex = (itemsOf deleted).length := hidx
    have hle : (itemsOf deleted).length ≤ deleted.length := List.length_filter_le ..
    have hdel : delIndex ≠ c.R := hdel
    obtain ⟨b', hb', hperm, hdense⟩ := compact_dense (a := deleted) (by
      rintro rfl
      rw [← hlen] at hR0
      exact absurd hR0 (by simp))
    cases hb.symm.trans hb'
    refine h.keep (.refl d) rfl rfl ?_ ⟨hR, hperm.length_eq.trans hlen, ?_, fun _ => ?_⟩
    · have hitems : (itemsOf b).Perm (itemsOf deleted) := hperm.filter _
      simpa [Thread.holds, skipped, Pc.skip, Pc.item, Pc.newNode] using hitems
    · rw [← hidx] at hdense
      exact hdense
    · change delIndex < c.R
      omega

/-! ## Releasing a block -/

theorem released_ok (h : th.Destroying) (hc : th.ctx = some c) : (released c).Ok th d L := by
  obtain ⟨_, hc', hR, hlen⟩ := h
  rw [hc] at hc'
  cases hc'
  exact ⟨Nat.zero_le _, hlen, fun i v hi => by omega, c, hc, hR, rfl⟩

theorem destruct_keeps (h : Own d C L th) (hpc : th.pc = .destruct i) : Keeps d C L th (destruct d th c i) C L := by
  obtain ⟨ctx, deleted, delIndex, pc⟩ := th
  cases hpc
  unfold destruct
  split
  · exact h.goto ⟨rfl, rfl, rfl⟩ rfl rfl rfl rfl h.ok
  · exact h.goto (.refl d) rfl rfl rfl rfl h.ok

theorem releaseTest_keeps (h : Own d C L th) (hpc : th.pc = .releaseTest p) :
    Keeps d C L th (releaseTest d th c p) C L := by
  obtain ⟨ctx, deleted, delIndex, pc⟩ := th
  cases hpc
  unfold releaseTest
  split
  · exact h.goto (.refl d) rfl rfl rfl rfl trivial
  · split
    · exact h.goto (.refl d) rfl rfl rfl rfl h.ok
    · exact h.goto (.refl d) rfl rfl rfl rfl h.ok

theorem releaseSlot_keeps (h : Own d C L th) (hpc : th.pc = .releaseSlot p x) (hc : th.ctx = some c) :
    Keeps d C L th (releaseSlot d th c p x) C L := by
  obtain ⟨ctx, deleted, delIndex, pc⟩ := th
  cases hpc
  have hdest : Thread.Destroying _ := h.ok
  unfold releaseSlot
  split
  · split
    · exact h.goto (.refl d) rfl rfl rfl rfl h.ok
    · exact h.goto (.refl d) rfl rfl rfl rfl h.ok
  · split
    · exact h.goto (.refl d) rfl rfl rfl rfl h.ok
    · exact h.goto (.refl d) rfl rfl rfl rfl (released_ok hdest hc)

theorem releaseCheck_keeps (h : Own d C L th) (hpc : th.pc = .releaseCheck p ix) :
    Keeps d C L th (releaseCheck d th p ix) C L := by
  obtain ⟨ctx, deleted, delIndex, pc⟩ := th
  cases hpc
  dsimp only [releaseCheck]
  split
  · exact h.goto (.refl d) rfl rfl rfl rfl h.ok
  · exact h.goto (.refl d) rfl rfl rfl rfl trivial

theorem releaseCas_keeps {expected : BitVec 32} (h : Own d C L th) (hpc : th.pc = .releaseCas p ix expected)
    (hc : th.ctx = some c) : Keeps d C L th (releaseCas d th c p ix expected) C L := by
  obtain ⟨ctx, deleted, delIndex, pc⟩ := th
  cases hpc
  have hdest : Thread.Destroying _ := h.ok
  dsimp only [releaseCas]
  split
  · exact h.goto ⟨rfl, rfl, rfl⟩ rfl rfl rfl rfl (released_ok hdest hc)
  · exact h.goto (.refl d) rfl rfl rfl rfl h.ok

/-! ## The end of the domain -/

theorem domainEnd_keeps (h : Own d C L th) (hpc : th.pc = .domainEnd) : Keeps d C L th (domainEnd d th) C L := by
  obtain ⟨ctx, deleted, delIndex, pc⟩ := th
  cases hpc
  unfold domainEnd
  split
  · exact h.goto ⟨rfl, rfl, rfl⟩ rfl rfl rfl rfl h.ok
  · exact h.goto (.refl d) rfl rfl rfl rfl trivial

theorem domainPools_keeps (h : Own d C L th) (hpc : th.pc = .domainPools p) :
    Keeps d C L th (domainPools d th p) C L := by
  obtain ⟨ctx, deleted, delIndex, pc⟩ := th
  cases hpc
  unfold domainPools
  split
  · exact h.goto (.refl d) rfl rfl rfl rfl h.ok
  · split
    · exact h.goto (.refl d) rfl rfl rfl rfl trivial
    · exact h.goto (.refl d) rfl rfl rfl rfl h.ok

/-- A step that only reads. -/
theorem Own.reads (h : Own d C L th) (h1 : pc.localHead = th.pc.localHead) (h2 : pc.newNode = th.pc.newNode)
    (h3 : pc.skip = th.pc.skip) (h4 : pc.item = th.pc.item) (ok : pc.Ok th d L) :
    Keeps d C L th (Hazard.goto d th pc) C L := h.goto (.refl d) h1 h2 h3 h4 ok

end Steps

/-- The steps that change the lists. -/
def Pc.relists : Pc → Bool
  | .pushCas _ _ _ | .collect _ | .collectWalk _ _ _ _ | .collectPush _ _ => true
  | _ => false

/-- The other steps leave both lists alone. -/
theorem Thread.step_keeps_lists {addr : Nat} {e : Effect} (h : Own d C L th) (hpc : th.pc.relists = false)
    (hs : th.step d addr = some e) : Keeps d C L th e C L := by
  obtain ⟨ctx, deleted, delIndex, pc⟩ := th
  have hok := h.ok
  cases pc with
  | idle | ended | crashed => cases hs
  | pushCas | collect | collectWalk | collectPush => cases hpc
  | reserve | poolsNext | countLoad | collectIf | collectLoad | release | releaseLoad =>
    cases hs
    exact h.reads rfl rfl rfl rfl hok
  | countStore =>
    cases hs
    exact h.goto ⟨rfl, rfl, rfl⟩ rfl rfl rfl rfl hok
  | reserveLoad =>
    cases hs
    exact reserveLoad_keeps h rfl
  | reserveCas =>
    cases hs
    exact reserveCas_keeps h rfl
  | poolsCas => exact poolsCas_keeps h rfl hs
  | construct =>
    cases hs
    exact construct_keeps h rfl
  | push =>
    cases hs
    exact push_keeps h rfl
  | pushCount =>
    cases hs
    exact pushCount_keeps h rfl
  | enqueue => exact enqueue_keeps h rfl hs
  | enqueueArray => exact enqueueArray_keeps h rfl hs
  | enqueueNull =>
    cases hs
    exact enqueueNull_keeps h rfl
  | collectTest =>
    cases hs
    exact collectTest_keeps h rfl
  | collectZero =>
    cases hs
    exact collectZero_keeps h rfl
  | snapshot sa =>
    cases hs
    refine h.reads ?_ rfl rfl rfl hok
    cases sa <;> rfl
  | snapshotLoad =>
    cases hs
    exact snapshotLoad_keeps h rfl
  | reclaim =>
    obtain ⟨c, hc, hr⟩ := Option.bind_eq_some_iff.mp hs
    exact reclaim_keeps h rfl hc hr
  | destruct =>
    obtain ⟨c, hc, rfl⟩ := Option.map_eq_some_iff.mp hs
    exact destruct_keeps h rfl
  | releaseTest =>
    obtain ⟨c, hc, rfl⟩ := Option.map_eq_some_iff.mp hs
    exact releaseTest_keeps h rfl
  | releaseSlot =>
    obtain ⟨c, hc, rfl⟩ := Option.map_eq_some_iff.mp hs
    exact releaseSlot_keeps h rfl hc
  | releaseStore =>
    obtain ⟨c, hc, rfl⟩ := Option.map_eq_some_iff.mp hs
    exact h.goto ⟨rfl, rfl, rfl⟩ rfl rfl rfl rfl hok
  | releaseCheck =>
    cases hs
    exact releaseCheck_keeps h rfl
  | releaseCas =>
    obtain ⟨c, hc, rfl⟩ := Option.map_eq_some_iff.mp hs
    exact releaseCas_keeps h rfl hc
  | domainEnd =>
    cases hs
    exact domainEnd_keeps h rfl
  | domainPools =>
    cases hs
    exact domainPools_keeps h rfl

/-- **Every step of a thread keeps the objects in their places.** -/
theorem Thread.step_keeps {addr : Nat} {e : Effect} (h : Own d C L th) (hs : th.step d addr = some e) :
    ∃ C' L', Keeps d C L th e C' L' := by
  cases hre : th.pc.relists with
  | false => exact ⟨C, L, Thread.step_keeps_lists h hre hs⟩
  | true =>
    unfold Thread.step at hs
    cases hpc : th.pc with
    | pushCas =>
      rw [hpc] at hs
      cases hs
      obtain ⟨C', -, hk⟩ := pushCas_keeps h hpc
      exact ⟨C', L, hk⟩
    | collect =>
      rw [hpc] at hs
      cases hs
      exact ⟨[], C, collect_keeps h hpc⟩
    | collectWalk =>
      rw [hpc] at hs
      cases hs
      exact ⟨C, collectWalk_keeps h hpc⟩
    | collectPush =>
      rw [hpc] at hs
      cases hs
      obtain ⟨L', -, hk⟩ := collectPush_keeps h hpc
      exact ⟨C, L', hk⟩
    | _ =>
      rw [hpc] at hre
      cases hre

end Hazard

end SplitOrder
