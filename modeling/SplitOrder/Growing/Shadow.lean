/-
The threads of a growing table as threads of `Concurrent.Model`.

A thread that reads `n_buckets` in one step and uses it in the next is where
a thread of `Concurrent.Model` is that does both at once: `shadow` forgets
the value it carries. One thing does not carry over: there the slot that
`initialise_bucket` sets is the one of the hash, here the table may have
grown since the slot was taken. So `initialise_bucket` counts as called for
its own sake (`alone`), and `Carries` keeps what is still true of the slot:
its key is below the key of the hash.
-/
import SplitOrder.Growing.Slots
import SplitOrder.Concurrent.Safety

namespace SplitOrder

namespace Growing

open Heap Solist
open Concurrent (FindCall InitCall InitCaller InitPc Mem IsSet Frame Free)

variable {T : Type} {n : Nat} {s s' : Solist T} {l r l' r' : List Addr} {a : Accessor}

/-! ## All calls -/

/-- The start of a call. -/
def Thread.call (th : Thread) (s : Solist T) : Op T → Solist T × Thread
  | .insertNode hashv payload => th.insertNode s hashv payload
  | .deleteNode hashv => th.goto s (.findSlot (.deleteNode hashv))
  | .findItemNode hashv => th.goto s (.findSlot (.findItemNode hashv))
  | .initialiseBucket slot => th.goto s (.initAssert slot .caller)

/-- Threads that make any calls on a fresh list. -/
def calls (T : Type) (n : Nat) (size bucketLength : Hash) : System (State T n) (Concurrent.Event T n) where
  init σ := Solist.create size bucketLength = .ok σ.list ∧ ∀ t, σ.thread t = {}
  next σ
    | .call t op =>
      if (σ.thread t).pc.isIdle ∧ op.Valid σ.list then some (σ.apply t ((σ.thread t).call σ.list op)) else none
    | .step t => ((σ.thread t).step σ.list).map (σ.apply t)

/-! ## Shadows -/

def Pc.shadow : Pc → Concurrent.Pc
  | .core pc => pc
  | .findSlot c | .findTest c _ | .findBucket c _ => .findEntry c
  | .initAssert slot k | .initTest slot k => .initEntry slot k
  | .parent i => .init i (.probe (reverseHashtBits i.slot))
  | .probe i _ pbKey => .init i (.probe pbKey)
  | .insertCheck hashv => .insertCheck hashv
  | .insertItems c | .insertFull c _ | .expandTest c | .expandReplace c => .insertCheck c.hashv
  | .splitTest ibSlot => .insertCheck ibSlot

def Thread.shadow (th : Thread) : Concurrent.Thread := { a := th.a, pc := th.pc.shadow }

/-- `initialise_bucket` without the call it is part of. -/
def alone : Concurrent.Pc → Concurrent.Pc
  | .initEntry slot _ => .initEntry slot .caller
  | .init i pc => .init { i with caller := .caller } pc
  | .initReturn slot _ => .initReturn slot .caller
  | pc => pc

def Thread.bare (th : Thread) : Concurrent.Thread := { a := th.a, pc := alone th.pc.shadow }

/-- What the step to `e` is for the shadow. -/
def Thread.effect (th : Thread) (s : Solist T) (e : Solist T × Thread) : Concurrent.Effect T :=
  let core := match th.pc with
    | .core pc => ({ a := th.a, pc } : Concurrent.Thread).step s
    | _ => none
  { list := e.1, thread := e.2.shadow, linked := core.bind (·.linked), unlinked := core.bind (·.unlinked) }

/-- The step is none of those the source goes wrong at: a slot past the end of
the table, a disturbed `initialise_bucket`, a table of `2 ^ 31` slots doubled. -/
structure Thread.Sound (s : Solist T) (th : Thread) : Prop where
  room : th.RoomLeft s
  undisturbed : th.shadow.Undisturbed s
  fits : ∀ c, th.pc = .expandReplace c → s.nBuckets.toNat < 2 ^ 31

def Sound (σ : State T n) : Concurrent.Event T n → Prop
  | .call _ _ => True
  | .step t => (σ.thread t).Sound σ.list

/-! ## What a thread carries from one table to a larger one -/

/-- The call `initialise_bucket` is part of can go on from the slot. -/
def Called (s : Solist T) (l r : List Addr) (slot : Hash) : InitCaller → Prop
  | .findNode c => c.Ok s l r ∧ reverseHashtBits slot < solNodeKey c.hashv
  | _ => True

/-- The search for a parent goes down by the step of a table no larger than this one. -/
def Descends (s : Solist T) (keyStep pbKey : SoKey) : Prop :=
  ∃ k, k ≠ 0 ∧ k ≤ 31 ∧ 2 ^ k ≤ s.nBuckets.toNat ∧ keyStep.toNat = 2 ^ (32 - k) ∧ keyStep.toNat ∣ pbKey.toNat

def Pc.Carries (s : Solist T) (l r : List Addr) : Pc → Prop
  | .findTest c slot => reverseHashtBits slot < solNodeKey c.hashv
  | .findBucket c slot => IsSet s slot ∧ reverseHashtBits slot < solNodeKey c.hashv
  | .initAssert slot k | .initTest slot k | .core (.initReturn slot k) => Called s l r slot k
  | .parent i | .core (.init i _) => Called s l r i.slot i.caller
  | .probe i keyStep pbKey => Called s l r i.slot i.caller ∧ Descends s keyStep pbKey
  | _ => True

theorem Called.mono {slot : Hash} {k : InitCaller} (h : Called s l r slot k)
    (hcall : ∀ c : FindCall, (∀ d ∈ c.holds, d ∈ k.holds) → c.Ok s l r → c.Ok s' l' r') : Called s' l' r' slot k := by
  cases k with
  | findNode c => exact ⟨hcall c (fun _ hd => hd) h.1, h.2⟩
  | caller => trivial
  | insertNode => trivial

theorem Descends.mono {keyStep pbKey : SoKey} (h : Descends s keyStep pbKey) (hle : s.nBuckets ≤ s'.nBuckets) :
    Descends s' keyStep pbKey := by
  obtain ⟨k, hk, hk31, hpow, hstep⟩ := h
  exact ⟨k, hk, hk31, Nat.le_trans hpow hle, hstep⟩

/-- **What a thread carries survives** every change that takes no slot and no node of its call away. -/
theorem Thread.carries_mono {th : Thread} (h : th.pc.Carries s l r) (hle : s.nBuckets ≤ s'.nBuckets)
    (hset : ∀ slot, IsSet s slot → IsSet s' slot)
    (hcall : ∀ c : FindCall, (∀ d ∈ c.holds, d ∈ th.shadow.holds) → c.Ok s l r → c.Ok s' l' r') :
    th.pc.Carries s' l' r' := by
  obtain ⟨a, pc, nbuckets⟩ := th
  have hinit : ∀ i : InitCall, (∀ d ∈ i.caller.holds, d ∈ (Thread.mk a pc nbuckets).shadow.holds) →
      Called s l r i.slot i.caller → Called s' l' r' i.slot i.caller := fun i hsub hi =>
    hi.mono fun c hc => hcall c fun d hd => hsub d (hc d hd)
  cases pc with
  | findTest c slot => exact h
  | findBucket c slot => exact ⟨hset slot h.1, h.2⟩
  | initAssert slot k | initTest slot k => exact Called.mono h hcall
  | parent i => exact hinit i (fun d hd => List.mem_cons_of_mem _ hd) h
  | probe i keyStep pbKey => exact ⟨hinit i (fun d hd => List.mem_cons_of_mem _ hd) h.1, h.2.mono hle⟩
  | core pc =>
    cases pc with
    | init i pc => exact hinit i (fun d hd => List.mem_cons_of_mem _ hd) h
    | initReturn slot k => exact Called.mono h hcall
    | _ => trivial
  | _ => trivial

theorem Thread.carries_frame {th : Thread} {mine : List Addr} (hf : Frame s l r s' l' r' mine)
    (hd : ∀ d ∈ th.shadow.holds, d ∉ mine) (h : th.pc.Carries s l r) : th.pc.Carries s' l' r' :=
  th.carries_mono h (by rw [hf.nBuckets]; exact BitVec.le_refl _) hf.isSet fun _ hc =>
    hf.findCall fun d hdc => hd d (hc d hdc)

/-- What a thread holds is not free for another to take. -/
theorem Thread.shadow_not_free {th : Thread} (hm : Mem s l r) (ht : th.Ok s) (hok : th.bare.Ok s l r)
    (h : th.pc.Carries s l r) : ∀ x ∈ th.shadow.holds, ¬ Free s l x := by
  obtain ⟨a, pc, nbuckets⟩ := th
  have hcaller : ∀ {slot : Hash} {k : InitCaller}, Called s l r slot k → ∀ x ∈ k.holds, ¬ Free s l x := by
    intro slot k hk x hx
    cases k with
    | findNode c => exact hk.1.not_free x hx
    | caller => cases hx
    | insertNode => cases hx
  have hnode : ∀ i : InitCall, (∀ x ∈ [i.node], ¬ Free s l x) → Called s l r i.slot i.caller →
      ∀ x ∈ i.node :: i.caller.holds, ¬ Free s l x := by
    intro i hi hk x hx
    obtain rfl | hx := List.mem_cons.mp hx
    · exact hi _ (by simp)
    · exact hcaller hk x hx
  have hbare := Concurrent.Thread.Ok.not_free hm hok
  cases pc with
  | initAssert slot k | initTest slot k => exact hcaller h
  | parent i => exact hnode i hbare h
  | probe i keyStep pbKey => exact hnode i hbare h.1
  | core pc =>
    cases pc with
    | init i pc => exact hnode i hbare h
    | initReturn slot k => exact hcaller h
    | initEntry slot k => exact absurd ht.pc id
    | _ => exact hbare
  | _ => exact hbare

/-! ## `initialise_bucket` -/

/-- Where a step of `initialise_bucket` goes, whatever call it is part of. -/
inductive InitNext
  | stays (pc : InitPc)
  | returns
  | crashes

def InitNext.pc (i : InitCall) : InitNext → Concurrent.Pc
  | .stays pc => .init i pc
  | .returns => .initReturn i.slot i.caller
  | .crashes => .crashed

/-- **A step of `initialise_bucket`** does the same whatever call it is part of. -/
theorem init_step (i : InitCall) (s : Solist T) (a : Accessor) {pc : InitPc} (hpc : ∀ pbKey, pc ≠ .probe pbKey) :
    ∃ s' a' q,
      (∀ k, { i with caller := k }.step s a pc = Concurrent.goto s' a' (InitNext.pc { i with caller := k } q)) ∧
      ∀ pbKey, q = .stays (.probe pbKey) → pbKey = s.heap.key i.node := by
  cases pc with
  | probe pbKey => exact absurd rfl (hpc pbKey)
  | setNext =>
    simp only [InitCall.step]
    exact ⟨_, _, .stays .recheck, fun k => rfl, by simp⟩
  | store =>
    simp only [InitCall.step]
    exact ⟨_, _, .stays .assertSet, fun k => rfl, by simp⟩
  | storeNext =>
    simp only [InitCall.step]
    exact ⟨_, _, .stays .assertNext, fun k => rfl, by simp⟩
  | discard =>
    simp only [InitCall.step]
    exact ⟨_, _, .stays .assertSet, fun k => rfl, by simp⟩
  | parent pbSlot =>
    simp only [InitCall.step]
    cases s.buckets[pbSlot.toNat]? with
    | none => exact ⟨_, _, .crashes, fun k => rfl, by simp⟩
    | some b => exact ⟨_, _, .stays .parentNext, fun k => rfl, by simp⟩
  | parentNext =>
    simp only [InitCall.step]
    cases a.cur with
    | none => exact ⟨_, _, .crashes, fun k => rfl, by simp⟩
    | some c => exact ⟨_, _, .stays .walk, fun k => rfl, by simp⟩
  | walk =>
    simp only [InitCall.step]
    cases a.next with
    | none => exact ⟨_, _, .stays .setNext, fun k => rfl, by simp⟩
    | some c =>
      by_cases hlt : s.heap.key c < s.heap.key i.node
      · exact ⟨_, _, .stays .walk, fun k => if_pos hlt, by simp⟩
      · exact ⟨_, _, .stays .setNext, fun k => if_neg hlt, by simp⟩
  | recheck =>
    simp only [InitCall.step]
    cases s.buckets[i.slot.toNat]? with
    | none => exact ⟨_, _, .crashes, fun k => rfl, by simp⟩
    | some b =>
      cases b with
      | some b => exact ⟨_, _, .stays .settle, fun k => rfl, by simp⟩
      | none =>
        cases a.next with
        | none => exact ⟨_, _, .stays .cas, fun k => rfl, by simp⟩
        | some c => exact ⟨_, _, .stays (if s.heap.key c = s.heap.key i.node then .settle else .cas), fun k => rfl,
            by split <;> simp⟩
  | cas =>
    simp only [InitCall.step]
    cases a.cur with
    | none => exact ⟨_, _, .crashes, fun k => rfl, by simp⟩
    | some c =>
      cases h : ((s.heap.node c).next.cas a.next (some i.node) false).1 with
      | true => exact ⟨_, _, .stays .settle, fun k => by simp only [h]; rfl, by simp⟩
      | false =>
        refine ⟨_, _, .stays (.probe (s.heap.key i.node)), fun k => by simp only [h]; rfl, fun pbKey hp => ?_⟩
        cases hp
        rfl
  | settle =>
    simp only [InitCall.step]
    cases s.buckets[i.slot.toNat]? with
    | none => exact ⟨_, _, .crashes, fun k => rfl, by simp⟩
    | some b =>
      cases b with
      | some b => exact ⟨_, _, .stays .discard, fun k => rfl, by simp⟩
      | none => exact ⟨_, _, .stays .won, fun k => rfl, by simp⟩
  | won =>
    simp only [InitCall.step]
    cases a.cur with
    | none => exact ⟨_, _, .crashes, fun k => rfl, by simp⟩
    | some c =>
      exact ⟨_, _, .stays (if s.heap.nextOf c = some i.node then .store else .storeNext), fun k => rfl,
        by split <;> simp⟩
  | assertNext =>
    simp only [InitCall.step]
    cases s.buckets[i.slot.toNat]? with
    | none => exact ⟨_, _, .crashes, fun k => rfl, by simp⟩
    | some b =>
      cases b with
      | none => exact ⟨_, _, .crashes, fun k => rfl, by simp⟩
      | some b =>
        by_cases hk : s.heap.key b = s.heap.key i.node
        · exact ⟨_, _, .stays .discard, fun k => if_pos hk, by simp⟩
        · exact ⟨_, _, .crashes, fun k => if_neg hk, by simp⟩
  | assertSet =>
    simp only [InitCall.step]
    cases s.buckets[i.slot.toNat]? with
    | none => exact ⟨_, _, .crashes, fun k => rfl, by simp⟩
    | some b =>
      cases b with
      | none => exact ⟨_, _, .crashes, fun k => rfl, by simp⟩
      | some b => exact ⟨_, _, .stays .assertKey, fun k => rfl, by simp⟩
  | assertKey =>
    simp only [InitCall.step]
    cases s.buckets[i.slot.toNat]? with
    | none => exact ⟨_, _, .crashes, fun k => rfl, by simp⟩
    | some b =>
      cases b with
      | none => exact ⟨_, _, .crashes, fun k => rfl, by simp⟩
      | some b =>
        by_cases hk : s.heap.key b = s.heap.key i.node
        · exact ⟨_, _, .returns, fun k => if_pos hk, by simp⟩
        · exact ⟨_, _, .crashes, fun k => if_neg hk, by simp⟩

/-! ## Steps -/

/-- What a thread knows. -/
structure Thread.Knows (s : Solist T) (l r : List Addr) (th : Thread) : Prop where
  slots : th.Ok s
  bare : th.bare.Ok s l r
  carries : th.pc.Carries s l r

/-- What a step that leaves the size of the table establishes. -/
structure Does (s : Solist T) (l r : List Addr) (th : Thread) (e : Solist T × Thread) (l' r' : List Addr) : Prop where
  keeps : Concurrent.Keeps s l r th.shadow { th.effect s e with thread := e.2.bare } l' r'
  slots : e.2.Ok e.1
  carries : e.2.pc.Carries e.1 l' r'
  holds : ∀ x ∈ e.2.shadow.holds, x ∈ th.shadow.holds ∨ Free s l x

theorem Thread.holds_alone {a : Accessor} {pc : Concurrent.Pc} :
    ∀ x ∈ (Concurrent.Thread.mk a (alone pc)).holds, x ∈ (Concurrent.Thread.mk a pc).holds := by
  intro x hx
  cases pc with
  | initEntry slot k => cases hx
  | initReturn slot k => cases hx
  | init i pc =>
    obtain rfl := List.mem_singleton.mp hx
    exact List.mem_cons_self
  | _ => exact hx

theorem owes_alone (pc : Concurrent.Pc) : (alone pc).owes = pc.owes := by
  cases pc <;> rfl

/-- A thread that holds more does as well. -/
theorem keeps_mono {th th' : Concurrent.Thread} {e : Concurrent.Effect T} (hk : Concurrent.Keeps s l r th e l' r')
    (hsub : ∀ x ∈ th.holds, x ∈ th'.holds) (ho : th.pc.owes = th'.pc.owes) : Concurrent.Keeps s l r th' e l' r' :=
  { hk with
    frame := hk.frame.mono hsub
    holds := fun x hx => (hk.holds x hx).imp_left (hsub x)
    items := ho ▸ hk.items }

section Steps

variable {th th' : Thread}

/-- A step that only moves the thread on. -/
theorem Does.move (hm : Mem s l r)
    (hlog : (th.effect s (s, th')).linked = none ∧ (th.effect s (s, th')).unlinked = none)
    (hk : th'.Knows s l r) (hh : ∀ x ∈ th'.shadow.holds, x ∈ th.shadow.holds)
    (ho : th'.shadow.pc.owes = th.shadow.pc.owes) : Does s l r th (s, th') l r := by
  refine ⟨?_, hk.slots, hk.carries, fun x hx => .inl (hh x hx)⟩
  have hmove : Concurrent.Keeps s l r th.shadow (Concurrent.goto s th'.a (alone th'.pc.shadow)) l r :=
    .move hm hk.bare (fun x hx => hh x (Thread.holds_alone x hx)) ((owes_alone _).trans ho)
  have heq : { th.effect s (s, th') with thread := th'.bare } = Concurrent.goto s th'.a (alone th'.pc.shadow) := by
    obtain ⟨h1, h2⟩ := hlog
    simp only [Thread.effect] at h1 h2 ⊢
    rw [h1, h2]
    rfl
  rw [heq]
  exact hmove

/-- A point with nothing of `initialise_bucket` is the same for the shadow, alone or not. -/
theorem Plain.shadow_resume {pc : Concurrent.Pc} (h : Plain pc) : (resume pc).shadow = pc := by
  cases pc with
  | init i pc | initEntry slot k | initReturn slot k | findBucket c => exact absurd h id
  | _ => rfl

theorem Plain.alone {pc : Concurrent.Pc} (h : Plain pc) : Growing.alone pc = pc := by
  cases pc with
  | init i pc | initEntry slot k | initReturn slot k | findBucket c => exact absurd h id
  | _ => rfl

theorem Plain.carries {pc : Concurrent.Pc} (h : Plain pc) : (resume pc).Carries s l r := by
  cases pc with
  | init i pc | initEntry slot k | initReturn slot k | findBucket c => exact absurd h id
  | _ => trivial

/-- Outside `initialise_bucket` a thread knows what its shadow does. -/
theorem Thread.Knows.quiet {pc : Concurrent.Pc} {nbuckets : Hash} (hk : (Thread.mk a (.core pc) nbuckets).Knows s l r)
    (hinit : ∀ i p, pc ≠ .init i p) (hret : ∀ slot k, pc ≠ .initReturn slot k) :
    (Concurrent.Thread.mk a pc).Ok s l r := by
  have hcore := hk.slots.pc
  have hbare := hk.bare
  cases pc with
  | init i p => exact absurd rfl (hinit i p)
  | initReturn slot k => exact absurd rfl (hret slot k)
  | initEntry slot k => exact absurd hcore id
  | _ => exact hbare

theorem effect_quiet {pc : Concurrent.Pc} {nbuckets : Hash} {E : Concurrent.Effect T}
    (he : (Concurrent.Thread.mk a pc).step s = some E) (hp : Plain E.thread.pc) :
    Thread.effect ⟨a, .core pc, nbuckets⟩ s (E.list, ⟨E.thread.a, resume E.thread.pc, nbuckets⟩) = E := by
  simp only [Thread.effect, he, Option.bind_some, Thread.shadow, hp.shadow_resume]

/-- A step of `Concurrent.Model` outside `initialise_bucket`. -/
theorem does_quiet {pc : Concurrent.Pc} {nbuckets : Hash} {E : Concurrent.Effect T} (hm : Mem s l r)
    (hk : (Thread.mk a (.core pc) nbuckets).Knows s l r) (hu : (Concurrent.Thread.mk a pc).Undisturbed s)
    (hinit : ∀ i p, pc ≠ .init i p) (hret : ∀ slot k, pc ≠ .initReturn slot k)
    (he : (Concurrent.Thread.mk a pc).step s = some E)
    (hslots : (Thread.mk E.thread.a (resume E.thread.pc) nbuckets).Ok E.list) :
    ∃ l' r', Does s l r ⟨a, .core pc, nbuckets⟩ (E.list, ⟨E.thread.a, resume E.thread.pc, nbuckets⟩) l' r' := by
  have hq := quiet_step hk.slots.pc hinit hret he
  obtain ⟨l', r', hkeeps⟩ := Concurrent.Thread.step_keeps hm (hk.quiet hinit hret) hu he
  have heq : { Thread.effect ⟨a, .core pc, nbuckets⟩ s (E.list, ⟨E.thread.a, resume E.thread.pc, nbuckets⟩) with
      thread := (Thread.mk E.thread.a (resume E.thread.pc) nbuckets).bare } = E := by
    rw [effect_quiet he hq.plain]
    simp only [Thread.bare, hq.plain.shadow_resume, hq.plain.alone]
  refine ⟨l', r', heq.symm ▸ hkeeps, hslots, hq.plain.carries, fun x hx => hkeeps.holds x ?_⟩
  simpa only [Thread.shadow, hq.plain.shadow_resume] using hx

theorem InitNext.alone (i : InitCall) (q : InitNext) : Growing.alone (q.pc i) = q.pc { i with caller := .caller } := by
  cases q <;> rfl

theorem InitNext.shadow_resume {i : InitCall} {q : InitNext} (hi : s.heap.key i.node = reverseHashtBits i.slot)
    (hp : ∀ pbKey, q = .stays (.probe pbKey) → pbKey = s.heap.key i.node) : (resume (q.pc i)).shadow = q.pc i := by
  cases q with
  | returns => rfl
  | crashes => rfl
  | stays pc =>
    cases pc with
    | probe pbKey =>
      have hkey := hp pbKey rfl
      rw [hi] at hkey
      rw [hkey]
      rfl
    | _ => rfl

theorem InitNext.holds {i : InitCall} {q : InitNext} :
    ∀ x ∈ (Concurrent.Thread.mk a (q.pc i)).holds, x ∈ i.node :: i.caller.holds := by
  intro x hx
  cases q with
  | stays pc => exact hx
  | returns => exact List.mem_cons_of_mem _ hx
  | crashes => cases hx

theorem InitNext.carries {i : InitCall} {q : InitNext} (h : Called s l r i.slot i.caller) :
    (resume (q.pc i)).Carries s l r := by
  cases q with
  | returns => exact h
  | crashes => trivial
  | stays pc => cases pc <;> exact h

/-- The dummy of `initialise_bucket` is not the node of the call it is part of. -/
theorem Called.frame {i : InitCall} (h : Called s l r i.slot i.caller) (hd : s.heap.isData i.node = false)
    (hf : Frame s l r s' l' r' [i.node]) : Called s' l' r' i.slot i.caller := by
  refine h.mono fun c _ hc => hf.findCall (fun d hdc hdi => ?_) hc
  cases c with
  | insertNode hashv dnode =>
    obtain rfl := List.mem_singleton.mp hdc
    have hdata := hc.2.data
    rw [List.mem_singleton.mp hdi, hd] at hdata
    cases hdata
  | deleteNode hashv => cases hdc
  | findItemNode hashv => cases hdc

/-- A step of `initialise_bucket` but the search for a parent. -/
theorem does_init {i : InitCall} {pc : InitPc} {nbuckets : Hash} (hm : Mem s l r)
    (hk : (Thread.mk a (.core (.init i pc)) nbuckets).Knows s l r)
    (hu : (Concurrent.Thread.mk a (.init i pc)).Undisturbed s)
    (hslots : (Thread.mk (i.step s a pc).thread.a (resume (i.step s a pc).thread.pc) nbuckets).Ok (i.step s a pc).list) :
    ∃ l' r', Does s l r ⟨a, .core (.init i pc), nbuckets⟩
      ((i.step s a pc).list, ⟨(i.step s a pc).thread.a, resume (i.step s a pc).thread.pc, nbuckets⟩) l' r' := by
  obtain ⟨hi, hpc⟩ := hk.bare
  have hu' : Concurrent.Thread.Undisturbed s ⟨a, .init { i with caller := .caller } pc⟩ := by
    cases pc <;> exact hu
  obtain ⟨l', hkeeps⟩ := Concurrent.init_keeps (a := a) hm hi hpc hu'
  obtain ⟨s', a', q, hstep, hprobe⟩ := init_step i s a hk.slots.pc.2.2
  rw [hstep .caller] at hkeeps
  have hown : i.step s a pc = Concurrent.goto s' a' (q.pc i) := hstep i.caller
  rw [hown] at hslots ⊢
  have hshadow : (resume (q.pc i)).shadow = q.pc i := InitNext.shadow_resume hi.key hprobe
  have hcarries : Called s' l' r i.slot i.caller := Called.frame hk.carries hi.dummy hkeeps.frame
  have heq : { Thread.effect ⟨a, .core (.init i pc), nbuckets⟩ s (s', ⟨a', resume (q.pc i), nbuckets⟩) with
      thread := (Thread.mk a' (resume (q.pc i)) nbuckets).bare } =
      Concurrent.goto s' a' (q.pc { i with caller := .caller }) := by
    simp only [Thread.effect, Concurrent.Thread.step, hown, Option.bind_some, Thread.bare, hshadow, InitNext.alone]
    rfl
  have hnode : ∀ x ∈ (Concurrent.Thread.mk a (.init { i with caller := .caller } pc)).holds,
      x ∈ i.node :: i.caller.holds := fun x hx => by
    obtain rfl := List.mem_singleton.mp hx
    exact List.mem_cons_self
  refine ⟨l', r, ?_, hslots, InitNext.carries hcarries, fun x hx => .inl ?_⟩
  · exact heq.symm ▸ keeps_mono hkeeps hnode rfl
  · change x ∈ (Concurrent.Thread.mk a' (resume (q.pc i)).shadow).holds at hx
    rw [hshadow] at hx
    exact InitNext.holds x hx

/-- The return of `initialise_bucket` to the call it is part of. -/
theorem does_initReturn {slot : Hash} {k : InitCaller} {nbuckets : Hash} {e : Solist T × Thread} (hm : Mem s l r)
    (hk : (Thread.mk a (.core (.initReturn slot k)) nbuckets).Knows s l r)
    (he : (Thread.mk a (.core (.initReturn slot k)) nbuckets).step s = some e) (hslots : e.2.Ok e.1) :
    Does s l r ⟨a, .core (.initReturn slot k), nbuckets⟩ e l r := by
  have hcarries : Called s l r slot k := hk.carries
  cases k with
  | findNode c =>
    cases he
    exact .move hm ⟨rfl, rfl⟩ ⟨hslots, hcarries.1, hk.bare.1, hcarries.2⟩ (fun x hx => hx) rfl
  | caller =>
    cases he
    exact .move hm ⟨rfl, rfl⟩ ⟨hslots, trivial, trivial⟩ (fun x hx => hx) rfl
  | insertNode =>
    cases he
    exact .move hm ⟨rfl, rfl⟩ ⟨hslots, trivial, trivial⟩ (fun x hx => hx) rfl

/-- `initialise_bucket` makes its node. -/
theorem does_initTest {slot : Hash} {k : InitCaller} {nbuckets : Hash} (hm : Mem s l r)
    (hk : (Thread.mk a (.initTest slot k) nbuckets).Knows s l r)
    (hslots : ((Thread.mk a (.initTest slot k) nbuckets).initTest s slot k).2.Ok
      ((Thread.mk a (.initTest slot k) nbuckets).initTest s slot k).1) :
    Does s l r ⟨a, .initTest slot k, nbuckets⟩ ((Thread.mk a (.initTest slot k) nbuckets).initTest s slot k) l r := by
  obtain ⟨hslot, -⟩ := hk.bare
  have hcarries : Called s l r slot k := hk.carries
  obtain ⟨b, hb⟩ := hm.table.bucket hslot
  have hnew := solistBucket_ok (T := T) (hm.table.slot_lt hslot)
  have hkeeps := Concurrent.initEntry_keeps (a := a) (k := .caller) hm ⟨hslot, trivial⟩
  simp only [Concurrent.initEntry, hslot, not_true_eq_false, if_false, hb, hnew] at hkeeps
  simp only [Thread.initTest, hb, hnew] at hslots ⊢
  cases b with
  | some b => exact .move hm ⟨rfl, rfl⟩ ⟨hslots, ⟨⟨b, hb⟩, trivial⟩, hcarries⟩ (fun x hx => hx) rfl
  | none =>
    refine ⟨keeps_mono hkeeps (fun x hx => by cases hx) rfl, hslots, ?_, fun x hx => ?_⟩
    · have hcall : Called { s with heap := s.heap.new { hashv := slot, key := reverseHashtBits slot, payload := none } }
          l r slot k :=
        hcarries.mono fun c _ hc => (Concurrent.frame_new hm).findCall (fun _ _ h => by cases h) hc
      exact hcall
    · obtain rfl | hx := List.mem_cons.mp hx
      · exact .inr (.inl (Nat.le_refl _))
      · exact .inl hx

/-- A turn of the search for a parent, by the step of an earlier table. -/
theorem Descends.turn {keyStep pbKey : SoKey} (hm : Mem s l r) (h : Descends s keyStep pbKey) (hne : pbKey ≠ 0#32) :
    Descends s keyStep (pbKey - keyStep) ∧ pbKey - keyStep < pbKey ∧
      reverseHashtBits (pbKey - keyStep) < s.nBuckets ∧
      ∃ b, s.buckets[(reverseHashtBits (pbKey - keyStep)).toNat]? = some b ∧ (b = none → pbKey - keyStep ≠ 0#32) := by
  obtain ⟨k, hk, hk31, hpow, hstep, hdvd⟩ := h
  have hpos : 0 < keyStep.toNat := by
    rw [hstep]
    exact Nat.two_pow_pos _
  obtain ⟨m, hmul⟩ := hdvd
  have hm0 : m ≠ 0 := by
    rintro rfl
    exact hne (BitVec.eq_of_toNat_eq (by simpa using hmul))
  have hle : keyStep ≤ pbKey := by
    rw [BitVec.le_def, hmul]
    exact Nat.le_mul_of_pos_right _ (Nat.pos_of_ne_zero hm0)
  have hsub : (pbKey - keyStep).toNat = keyStep.toNat * (m - 1) := by
    rw [BitVec.toNat_sub_of_le hle, hmul, Nat.mul_sub_one]
  have hrev : reverseHashtBits (pbKey - keyStep) < s.nBuckets := by
    refine Nat.lt_of_lt_of_le ((reverseHashtBits_lt_iff hk31).mpr ?_) hpow
    rw [hsub, hstep]
    exact Nat.dvd_mul_right _ _
  obtain ⟨b, hb⟩ := hm.table.bucket hrev
  refine ⟨⟨k, hk, hk31, hpow, hstep, by rw [hsub]; exact Nat.dvd_mul_right _ _⟩, ?_, hrev, b, hb, fun hnone hz => ?_⟩
  · have hlt := BitVec.toNat_sub_of_le hle
    have hle : keyStep.toNat ≤ pbKey.toNat := hle
    rw [BitVec.lt_def]
    omega
  · -- slot 0 is never empty
    obtain ⟨b₀, hb₀⟩ := hm.first
    rw [hz, hnone] at hb
    simp [hb₀] at hb

/-- The step of the search is that of the table it begins on. -/
theorem does_parent {i : InitCall} {nbuckets : Hash} {e : Solist T × Thread} (hm : Mem s l r)
    (hk : (Thread.mk a (.parent i) nbuckets).Knows s l r) (he : (Thread.mk a (.parent i) nbuckets).step s = some e)
    (hslots : e.2.Ok e.1) : Does s l r ⟨a, .parent i, nbuckets⟩ e l r := by
  obtain ⟨hi, hprobe⟩ := hk.bare
  have hcarries : Called s l r i.slot i.caller := hk.carries
  obtain ⟨k, hk31, hn⟩ := hm.nBuckets
  have hslot : i.slot.toNat < 2 ^ k := by
    rw [← hn]
    exact hi.slot
  have hk0 : k ≠ 0 := by
    rintro rfl
    exact hi.slot_ne (BitVec.eq_of_toNat_eq (by simpa using hslot))
  obtain ⟨keyStep, hok, hstep⟩ := solBucketKey_half hn hk0 hk31
  simp only [Thread.step, hok, Option.some.injEq] at he
  subst he
  have hkey : s.heap.key i.node = reverseHashtBits i.slot := hi.key
  have hdown : Descends s keyStep (s.heap.key i.node) :=
    ⟨k, hk0, hk31, Nat.le_of_eq hn.symm, hstep, by rw [hstep, hkey]; exact (step_dvd_iff hk31).mpr hslot⟩
  refine .move hm ⟨rfl, rfl⟩ ⟨hslots, ⟨hi, ?_⟩, hcarries, hdown⟩ (fun x hx => hx) rfl
  rw [hkey]
  exact hprobe

/-- A turn of the search for a parent. -/
theorem does_probe {i : InitCall} {keyStep pbKey : SoKey} {nbuckets : Hash} (hm : Mem s l r)
    (hk : (Thread.mk a (.probe i keyStep pbKey) nbuckets).Knows s l r)
    (hslots : ((Thread.mk a (.probe i keyStep pbKey) nbuckets).probe s i keyStep pbKey).2.Ok
      ((Thread.mk a (.probe i keyStep pbKey) nbuckets).probe s i keyStep pbKey).1) :
    Does s l r ⟨a, .probe i keyStep pbKey, nbuckets⟩
      ((Thread.mk a (.probe i keyStep pbKey) nbuckets).probe s i keyStep pbKey) l r := by
  obtain ⟨hi, hp, hne, hle, -⟩ := hk.bare
  obtain ⟨hcarries, hdown⟩ := hk.carries
  obtain ⟨hdown, hlt, hrev, b, hb, hz⟩ := hdown.turn hm hne
  simp only [Thread.probe, hb] at hslots ⊢
  split
  · rename_i hstop
    simp only [hstop, if_true] at hslots
    have hset : ∃ b', b = some b' := by
      cases b with
      | some b => exact ⟨b, rfl⟩
      | none => exact absurd (hstop.resolve_left (by simp)) (hz rfl)
    obtain ⟨b, rfl⟩ := hset
    refine .move hm ⟨rfl, rfl⟩ ⟨hslots, ⟨hi, hp, ⟨b, hb⟩, ?_⟩, hcarries⟩ (fun x hx => hx) rfl
    rw [reverseHashtBits_reverseHashtBits]
    exact Nat.lt_of_lt_of_le hlt hle
  · rename_i hgo
    simp only [hgo, if_false] at hslots
    refine .move hm ⟨rfl, rfl⟩ ⟨hslots, ⟨hi, hp, ?_, BitVec.le_trans (BitVec.le_of_lt hlt) hle, hrev⟩, hcarries, hdown⟩
      (fun x hx => hx) rfl
    exact (not_or.mp hgo).2

/-- The points of `Concurrent.Model`. -/
theorem does_core {pc : Concurrent.Pc} {nbuckets : Hash} {e : Solist T × Thread} (hm : Mem s l r)
    (hk : (Thread.mk a (.core pc) nbuckets).Knows s l r) (hu : (Concurrent.Thread.mk a pc).Undisturbed s)
    (he : (Thread.mk a (.core pc) nbuckets).step s = some e) (hslots : e.2.Ok e.1) :
    ∃ l' r', Does s l r ⟨a, .core pc, nbuckets⟩ e l' r' := by
  cases pc with
  | init i pc =>
    cases he
    exact does_init hm hk hu hslots
  | initReturn slot k => exact ⟨l, r, does_initReturn hm hk he hslots⟩
  | _ =>
    simp only [Thread.step, Option.map_eq_some_iff] at he
    obtain ⟨E, hE, rfl⟩ := he
    exact does_quiet hm hk hu (by simp) (by simp) hE hslots

/-- **Every step but the doubling of the table** is one of `Concurrent.Model`. -/
theorem does_step {e : Solist T × Thread} (hm : Mem s l r) (hk : th.Knows s l r) (hs : th.Sound s)
    (hne : ∀ c, th.pc ≠ .expandReplace c) (he : th.step s = some e) : ∃ l' r', Does s l r th e l' r' := by
  have hslots := (keeps_step hm.table hk.slots hs.room he).ok
  have hsound := hs.undisturbed
  obtain ⟨a, pc, nbuckets⟩ := th
  have hpc := hk.slots.pc
  cases pc with
  | core pc => exact does_core hm hk hsound he hslots
  | findSlot c =>
    cases he
    obtain ⟨k, -, hn⟩ := hm.nBuckets
    have hc : c.Ok s l r := hk.bare
    exact ⟨l, r, .move hm ⟨rfl, rfl⟩ ⟨hslots, hc, solBucketKey_lt_solNodeKey hn hc.1⟩ (fun x hx => hx) rfl⟩
  | findTest c slot =>
    have hc : c.Ok s l r := hk.bare
    obtain ⟨b, hb⟩ := hm.table.bucket hpc
    cases b with
    | none =>
      simp only [Thread.step, hb, Option.some.injEq] at he
      subst he
      exact ⟨l, r, .move hm ⟨rfl, rfl⟩ ⟨hslots, ⟨hpc, trivial⟩, hc, hk.carries⟩ (fun x hx => hx) rfl⟩
    | some b =>
      simp only [Thread.step, hb, Option.some.injEq] at he
      subst he
      exact ⟨l, r, .move hm ⟨rfl, rfl⟩ ⟨hslots, hc, ⟨b, hb⟩, hk.carries⟩ (fun x hx => hx) rfl⟩
  | findBucket c slot =>
    have hc : c.Ok s l r := hk.bare
    obtain ⟨⟨b, hb⟩, hlt⟩ := hk.carries
    simp only [Thread.step, hb, Option.some.injEq] at he
    subst he
    have hbl : b ∈ l ++ r := by simp [(hm.slot _ _ hb).1]
    have hkey : s.heap.key b ≤ solNodeKey c.hashv := by
      rw [hm.key_slot hb]
      exact BitVec.le_of_lt hlt
    exact ⟨l, r, .move hm ⟨rfl, rfl⟩ ⟨hslots, ⟨hc, ⟨b, rfl, hbl, hkey⟩, b, rfl, hbl⟩, trivial⟩ (fun x hx => hx) rfl⟩
  | initAssert slot k =>
    have hlt : slot < s.nBuckets := hpc
    simp only [Thread.step, hlt, if_true, Option.some.injEq] at he
    subst he
    exact ⟨l, r, .move hm ⟨rfl, rfl⟩ ⟨hslots, ⟨hlt, trivial⟩, hk.carries⟩ (fun x hx => hx) rfl⟩
  | initTest slot k =>
    cases he
    exact ⟨l, r, does_initTest hm hk hslots⟩
  | parent i => exact ⟨l, r, does_parent hm hk he hslots⟩
  | probe i keyStep pbKey =>
    cases he
    exact ⟨l, r, does_probe hm hk hslots⟩
  | insertCheck hashv =>
    simp only [Thread.step, Option.some.injEq] at he
    split at he <;> subst he <;>
      exact ⟨l, r, .move hm ⟨rfl, rfl⟩ ⟨hslots, trivial, trivial⟩ (fun x hx => hx) rfl⟩
  | insertItems c =>
    simp only [Thread.step, Option.some.injEq] at he
    split at he <;> subst he <;>
      exact ⟨l, r, .move hm ⟨rfl, rfl⟩ ⟨hslots, trivial, trivial⟩ (fun x hx => hx) rfl⟩
  | insertFull c nItems =>
    simp only [Thread.step, Option.some.injEq] at he
    split at he <;> subst he <;>
      exact ⟨l, r, .move hm ⟨rfl, rfl⟩ ⟨hslots, trivial, trivial⟩ (fun x hx => hx) rfl⟩
  | splitTest ibSlot =>
    simp only [Thread.step, Option.some.injEq] at he
    split at he
    · subst he
      exact ⟨l, r, .move hm ⟨rfl, rfl⟩ ⟨hslots, ⟨‹_›, trivial⟩, trivial⟩ (fun x hx => hx) rfl⟩
    · subst he
      exact ⟨l, r, .move hm ⟨rfl, rfl⟩ ⟨hslots, trivial, trivial⟩ (fun x hx => hx) rfl⟩
  | expandTest c =>
    simp only [Thread.step, Option.some.injEq] at he
    split at he
    · subst he
      exact ⟨l, r, .move hm ⟨rfl, rfl⟩ ⟨hslots, ⟨hslots.pc, trivial⟩, trivial⟩ (fun x hx => hx) rfl⟩
    · subst he
      exact ⟨l, r, .move hm ⟨rfl, rfl⟩ ⟨hslots, trivial, trivial⟩ (fun x hx => hx) rfl⟩
  | expandReplace c => exact absurd rfl (hne c)

end Steps

end Growing

end SplitOrder
