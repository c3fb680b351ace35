/-
`mark_ptr_type` as one word, `upv`.

The pair of a pointer and a mark that the rest of this development works
with is what the word stands for. For pointers whose low bit is free, any
sequence of operations, by any number of threads (each is one atomic step,
but for `operator=`, which only the owner of a node calls), gives the same
results on the word as on the pair.
-/
import Mathlib.Data.BitVec
import SplitOrder.MarkPtr

namespace SplitOrder

/-! ## The word -/

namespace MarkWord

variable {w : Nat}

/-- `mark_bits_mask` -/
def mask (w : Nat) : BitVec w := 1#w

/-- `mark_bits_maskoff` -/
def maskoff (w : Nat) : BitVec w := ~~~ mask w

/-- `operator=` -/
def assign (upv p : BitVec w) : BitVec w := p ||| (upv &&& mask w)

/-- `operator()(bool*)` -/
def getMarked (upv : BitVec w) : BitVec w × Bool := (upv &&& maskoff w, 0#w ≠ upv &&& mask w)

/-- `operator()()`, and `operator->()` -/
def get (upv : BitVec w) : BitVec w := upv &&& maskoff w

/-- `__atomic_compare_exchange(&upv, &pv_expected, &pv_desired, …)` -/
def compareExchange (upv pvExpected pvDesired : BitVec w) : Bool × BitVec w :=
  if upv = pvExpected then (true, pvDesired) else (false, upv)

/-- `CAS(expected, desired)` -/
def cas (upv expected desired : BitVec w) : Bool × BitVec w := compareExchange upv expected desired

/-- `pv |= mark_bits_mask`, if `mark` -/
def withMark (pv : BitVec w) (mark : Bool) : BitVec w := if mark then pv ||| mask w else pv

/-- `CAS(expected, desired, mark)` -/
def casMarking (upv expected desired : BitVec w) (mark : Bool) : Bool × BitVec w :=
  compareExchange upv expected (withMark desired mark)

/-- `CAS(expected, mark)` -/
def casMark (upv expected : BitVec w) (mark : Bool) : Bool × BitVec w :=
  compareExchange upv expected (withMark expected mark)

/-- `mark()` -/
def mark (upv : BitVec w) : Bool × BitVec w := (0#w = mask w &&& upv, upv ||| mask w)

/-- `CAS(expected, marked, desired, mark)` -/
def casMarked (upv expected : BitVec w) (marked : Bool) (desired : BitVec w) (mark : Bool) : Bool × BitVec w :=
  compareExchange upv (withMark expected marked) (withMark desired mark)

/-- `reset()`, and `mark_ptr_type()` -/
def reset : BitVec w := 0#w

end MarkWord

/-! ## Operations, on the word and on the pair -/

/-- The member functions of `mark_ptr_type`, over the pointers `P`. -/
inductive MarkOp (P : Type)
  | assign (p : P)
  | get
  | getMarked
  | cas (expected desired : P)
  | casMarking (expected desired : P) (mark : Bool)
  | casMark (expected : P) (mark : Bool)
  | mark
  | casMarked (expected : P) (marked : Bool) (desired : P) (mark : Bool)
  | reset

inductive MarkRes (P : Type)
  | void
  | ptr (p : P)
  | marked (p : P) (mark : Bool)
  | bool (b : Bool)
  deriving DecidableEq

variable {P Q α : Type} {w : Nat}

def MarkOp.map (f : P → Q) : MarkOp P → MarkOp Q
  | .assign p => .assign (f p)
  | .get => .get
  | .getMarked => .getMarked
  | .cas e d => .cas (f e) (f d)
  | .casMarking e d m => .casMarking (f e) (f d) m
  | .casMark e m => .casMark (f e) m
  | .mark => .mark
  | .casMarked e m d m' => .casMarked (f e) m (f d) m'
  | .reset => .reset

def MarkRes.map (f : P → Q) : MarkRes P → MarkRes Q
  | .void => .void
  | .ptr p => .ptr (f p)
  | .marked p m => .marked (f p) m
  | .bool b => .bool b

/-- A `CAS`, as an operation: what is left, and what is returned. -/
def casRes {σ : Type} (r : Bool × σ) : σ × MarkRes P := (r.2, .bool r.1)

def MarkOp.word (upv : BitVec w) : MarkOp (BitVec w) → BitVec w × MarkRes (BitVec w)
  | .assign p => (MarkWord.assign upv p, .void)
  | .get => (upv, .ptr (MarkWord.get upv))
  | .getMarked => (upv, .marked (MarkWord.getMarked upv).1 (MarkWord.getMarked upv).2)
  | .cas e d => casRes (MarkWord.cas upv e d)
  | .casMarking e d m => casRes (MarkWord.casMarking upv e d m)
  | .casMark e m => casRes (MarkWord.casMark upv e m)
  | .mark => casRes (MarkWord.mark upv)
  | .casMarked e m d m' => casRes (MarkWord.casMarked upv e m d m')
  | .reset => (MarkWord.reset, .void)

variable [DecidableEq α]

/-- A `CAS` that may expect a marked pointer. -/
def MarkPtr.casMarked (m : MarkPtr α) (expected : Option α) (marked : Bool) (desired : Option α) (mark : Bool) :
    Bool × MarkPtr α :=
  if m = { ptr := expected, mark := marked } then (true, { ptr := desired, mark }) else (false, m)

/-- The operations as the rest of the development has them. -/
def MarkOp.pair (m : MarkPtr α) : MarkOp (Option α) → MarkPtr α × MarkRes (Option α)
  | .assign p => (m.assign p, .void)
  | .get => (m, .ptr m.ptr)
  | .getMarked => (m, .marked m.ptr m.mark)
  | .cas e d => casRes (m.cas e d false)
  | .casMarking e d mk => casRes (m.cas e d mk)
  | .casMark e mk => casRes (m.cas e e mk)
  | .mark => casRes (!m.mark, { m with mark := true })
  | .casMarked e mk d mk' => casRes (m.casMarked e mk d mk')
  | .reset => ({}, .void)

/-- The operations of a list, one after another: what is left, and the results in order. -/
def runOps {σ : Type} (step : σ → MarkOp P → σ × MarkRes P) (s : σ) : List (MarkOp P) → σ × List (MarkRes P)
  | [] => (s, [])
  | op :: ops => ((runOps step (step s op).1 ops).1, (step s op).2 :: (runOps step (step s op).1 ops).2)

/-! ## How pointers are laid out -/

/-- Addresses of `w` bits, with the low bit free for the mark. -/
structure Layout (α : Type) (w : Nat) where
  addr : Option α → BitVec w
  null : addr none = 0#w
  aligned : ∀ p, (addr p).getLsbD 0 = false
  injective : Function.Injective addr
  pos : 0 < w

namespace Layout

variable (L : Layout α w)

/-- The word a pair is kept in. -/
def encode (m : MarkPtr α) : BitVec w := MarkWord.withMark (L.addr m.ptr) m.mark

omit [DecidableEq α] in
theorem mask_bit (i : Nat) : (MarkWord.mask w).getLsbD i = (decide (0 < w) && decide (i = 0)) := by
  simp [MarkWord.mask, BitVec.getLsbD_one]

omit [DecidableEq α] in
theorem bit_withMark (p : Option α) (mark : Bool) (i : Nat) :
    (MarkWord.withMark (L.addr p) mark).getLsbD i = if i = 0 then mark else (L.addr p).getLsbD i := by
  cases mark with
  | false =>
    by_cases hi : i = 0
    · rw [hi]
      exact L.aligned p
    · rw [if_neg hi]
      rfl
  | true =>
    rw [MarkWord.withMark, if_pos rfl, BitVec.getLsbD_or, mask_bit]
    by_cases hi : i = 0
    · rw [hi, L.aligned]
      simp [L.pos]
    · simp [hi]

omit [DecidableEq α] in
/-- Two pairs in one word are one pair. -/
theorem withMark_inj {p q : Option α} {mark mark' : Bool} :
    MarkWord.withMark (L.addr p) mark = MarkWord.withMark (L.addr q) mark' ↔ p = q ∧ mark = mark' := by
  refine ⟨fun h => ?_, fun ⟨hp, hm⟩ => by rw [hp, hm]⟩
  have hbit : ∀ i, (if i = 0 then mark else (L.addr p).getLsbD i) =
      if i = 0 then mark' else (L.addr q).getLsbD i := by
    intro i
    rw [← L.bit_withMark, ← L.bit_withMark, h]
  refine ⟨L.injective (BitVec.eq_of_getLsbD_eq fun i _ => ?_), by simpa using hbit 0⟩
  by_cases hi : i = 0
  · rw [hi, L.aligned, L.aligned]
  · simpa [hi] using hbit i

omit [DecidableEq α] in
theorem get_encode (m : MarkPtr α) : MarkWord.get (L.encode m) = L.addr m.ptr := by
  refine BitVec.eq_of_getLsbD_eq fun i hi => ?_
  rw [MarkWord.get, MarkWord.maskoff, BitVec.getLsbD_and, BitVec.getLsbD_not, encode, L.bit_withMark, mask_bit]
  by_cases h0 : i = 0
  · rw [h0, L.aligned]
    simp [L.pos]
  · simp [h0, hi]

omit [DecidableEq α] in
theorem and_mask_encode (m : MarkPtr α) : L.encode m &&& MarkWord.mask w = if m.mark then MarkWord.mask w else 0#w := by
  refine BitVec.eq_of_getLsbD_eq fun i hi => ?_
  rw [BitVec.getLsbD_and, encode, L.bit_withMark, mask_bit]
  by_cases h0 : i = 0
  · subst h0
    cases m.mark <;> simp [mask_bit, L.pos]
  · cases m.mark <;> simp [mask_bit, h0]

omit [DecidableEq α] in
include L in
theorem mask_ne_zero : MarkWord.mask w ≠ 0#w := by
  intro h
  have hbit : (MarkWord.mask w).getLsbD 0 = (0#w).getLsbD 0 := by rw [h]
  simp [mask_bit, Nat.ne_of_gt L.pos] at hbit

/-- A comparison of words is one of pairs. -/
theorem compareExchange_encode (m : MarkPtr α) (e d : Option α) (marked mark : Bool) :
    MarkWord.compareExchange (L.encode m) (MarkWord.withMark (L.addr e) marked) (MarkWord.withMark (L.addr d) mark) =
      ((m.casMarked e marked d mark).1, L.encode (m.casMarked e marked d mark).2) := by
  have hiff : L.encode m = MarkWord.withMark (L.addr e) marked ↔ m = { ptr := e, mark := marked } := by
    obtain ⟨ptr, mk⟩ := m
    rw [encode, L.withMark_inj, MarkPtr.mk.injEq]
  by_cases h : m = { ptr := e, mark := marked }
  · rw [MarkWord.compareExchange, if_pos (hiff.mpr h), MarkPtr.casMarked, if_pos h]
    rfl
  · rw [MarkWord.compareExchange, if_neg (mt hiff.mp h), MarkPtr.casMarked, if_neg h]

/-- **One operation** on the word is the operation on the pair. -/
theorem word_encode (m : MarkPtr α) (op : MarkOp (Option α)) :
    (op.map L.addr).word (L.encode m) = (L.encode (op.pair m).1, (op.pair m).2.map L.addr) := by
  have hmark : decide (0#w ≠ L.encode m &&& MarkWord.mask w) = m.mark := by
    have hne := L.mask_ne_zero
    rw [L.and_mask_encode]
    cases m.mark <;> simp [hne.symm]
  cases op with
  | assign p =>
    have hword : MarkWord.assign (L.encode m) (L.addr p) = L.encode (m.assign p) := by
      rw [MarkWord.assign, L.and_mask_encode]
      cases hm : m.mark <;> simp [encode, MarkPtr.assign, MarkWord.withMark, hm]
    exact Prod.ext hword rfl
  | get => exact Prod.ext rfl (congrArg MarkRes.ptr (L.get_encode m))
  | getMarked =>
    have hget := L.get_encode m
    simp only [MarkOp.map, MarkOp.word, MarkOp.pair, MarkRes.map, MarkWord.getMarked]
    rw [hmark, ← hget]
    rfl
  | cas e d => exact congrArg casRes (L.compareExchange_encode m e d false false)
  | casMarking e d mark => exact congrArg casRes (L.compareExchange_encode m e d false mark)
  | casMark e mark => exact congrArg casRes (L.compareExchange_encode m e e false mark)
  | mark =>
    have hword : L.encode m ||| MarkWord.mask w = L.encode { m with mark := true } := by
      cases hm : m.mark
      · simp [encode, MarkWord.withMark, hm]
      · simp [encode, MarkWord.withMark, hm, BitVec.or_assoc]
    have hwon : decide (0#w = MarkWord.mask w &&& L.encode m) = !m.mark := by
      rw [← hmark, BitVec.and_comm]
      simp
    simp only [MarkOp.map, MarkOp.word, MarkOp.pair, casRes, MarkRes.map, MarkWord.mark, hword, hwon]
  | casMarked e marked d mark => exact congrArg casRes (L.compareExchange_encode m e d marked mark)
  | reset =>
    have hnull : L.encode {} = MarkWord.reset := L.null
    exact Prod.ext hnull.symm rfl

/-- **The word refines the pair**: any sequence of operations returns the
same results, and leaves the word of the pair. -/
theorem word_refines (m : MarkPtr α) (ops : List (MarkOp (Option α))) :
    runOps MarkOp.word (L.encode m) (ops.map (MarkOp.map L.addr)) =
      (L.encode (runOps MarkOp.pair m ops).1, (runOps MarkOp.pair m ops).2.map (MarkRes.map L.addr)) := by
  induction ops generalizing m with
  | nil => rfl
  | cons op ops ih =>
    simp only [List.map_cons, runOps, L.word_encode, ih]

end Layout

/-- The even addresses but 0. -/
def Layout.even (w : Nat) (hw : 0 < w) : Layout (Fin (2 ^ (w - 1) - 1)) w where
  addr
    | none => 0#w
    | some i => BitVec.ofNat w (2 * (i + 1))
  null := rfl
  aligned p := by
    cases p with
    | none => simp
    | some i => simp [BitVec.getLsbD_ofNat]
  injective := by
    have hval : ∀ i : Fin (2 ^ (w - 1) - 1), (BitVec.ofNat w (2 * (i + 1))).toNat = 2 * (i.val + 1) := by
      intro i
      have hi := i.isLt
      have hpow : 2 ^ w = 2 * 2 ^ (w - 1) := by
        obtain ⟨v, rfl⟩ := Nat.exists_eq_succ_of_ne_zero (Nat.ne_of_gt hw)
        exact Nat.pow_succ'
      rw [BitVec.toNat_ofNat, Nat.mod_eq_of_lt (by omega)]
    intro p q h
    have h := congrArg BitVec.toNat h
    cases p <;> cases q <;> simp only [hval, BitVec.toNat_ofNat, Nat.zero_mod] at h
    · rfl
    · omega
    · omega
    · exact congrArg some (Fin.ext (by omega))
  pos := hw

/-! ## Who sets the mark -/

/-- The operation sets the mark of a word that has none, if it succeeds. -/
def MarkOp.marks : MarkOp P → Bool
  | .mark | .casMarking _ _ true | .casMark _ true | .casMarked _ false _ true => true
  | _ => false

/-- It clears it, if it succeeds. -/
def MarkOp.clears : MarkOp P → Bool
  | .casMarked _ true _ false => true
  | _ => false

/-- The operations that returned true, of those that `f` holds of. -/
def succeeded (f : MarkOp P → Bool) (ops : List (MarkOp P)) (res : List (MarkRes Q)) : Nat :=
  (ops.zip res).countP fun x => f x.1 && match x.2 with
    | .bool b => b
    | _ => false

theorem succeeded_map {Q' : Type} (f : MarkOp P → Bool) (g : Q → Q') (ops : List (MarkOp P)) (res : List (MarkRes Q)) :
    succeeded f ops (res.map (MarkRes.map g)) = succeeded f ops res := by
  induction ops generalizing res with
  | nil => rfl
  | cons op ops ih =>
    cases res with
    | nil => rfl
    | cons x res =>
      have hx : (match x.map g with | .bool b => b | _ => false) = match x with | .bool b => b | _ => false := by
        cases x <;> rfl
      have ih := ih res
      simp only [succeeded, List.map_cons, List.zip_cons_cons, List.countP_cons, hx] at ih ⊢
      rw [ih]

theorem succeeded_bool {f : MarkOp P → Bool} {op : MarkOp P} {b : Bool} :
    succeeded f [op] [(.bool b : MarkRes Q)] = (f op && b).toNat := by
  cases h : f op && b <;> simp [succeeded, h]

theorem succeeded_cons (f : MarkOp P → Bool) (op : MarkOp P) (x : MarkRes Q) (ops : List (MarkOp P))
    (res : List (MarkRes Q)) : succeeded f (op :: ops) (x :: res) = succeeded f [op] [x] + succeeded f ops res := by
  simp only [succeeded, List.zip_cons_cons, List.countP_cons, List.zip_nil_left, List.countP_nil]
  omega

/-- A `CAS` changes the mark only as it says. -/
theorem MarkPtr.casMarked_mark (m : MarkPtr α) (e d : Option α) (mk mk' : Bool) :
    ((!mk && mk') && (m.casMarked e mk d mk').1).toNat + m.mark.toNat =
      ((mk && !mk') && (m.casMarked e mk d mk').1).toNat + (m.casMarked e mk d mk').2.mark.toNat := by
  unfold MarkPtr.casMarked
  split
  · rename_i h
    subst h
    cases mk <;> cases mk' <;> rfl
  · simp

/-- One operation sets the mark, or clears it, or leaves it. -/
theorem MarkOp.pair_mark (m : MarkPtr α) {op : MarkOp (Option α)} (hr : op ≠ .reset) :
    succeeded MarkOp.marks [op] [(op.pair m).2] + m.mark.toNat =
      succeeded MarkOp.clears [op] [(op.pair m).2] + (op.pair m).1.mark.toNat := by
  cases op with
  | assign p => rfl
  | get => rfl
  | getMarked => rfl
  | cas e d =>
    rw [MarkOp.pair, casRes, succeeded_bool, succeeded_bool]
    exact m.casMarked_mark e d false false
  | casMarking e d mk =>
    rw [MarkOp.pair, casRes, succeeded_bool, succeeded_bool]
    cases mk <;> exact m.casMarked_mark e d false _
  | casMark e mk =>
    rw [MarkOp.pair, casRes, succeeded_bool, succeeded_bool]
    cases mk <;> exact m.casMarked_mark e e false _
  | mark =>
    rw [MarkOp.pair, casRes, succeeded_bool, succeeded_bool]
    cases m.mark <;> rfl
  | casMarked e mk d mk' =>
    rw [MarkOp.pair, casRes, succeeded_bool, succeeded_bool]
    have h := m.casMarked_mark e d mk mk'
    cases mk <;> cases mk' <;> exact h
  | reset => exact absurd rfl hr

/-- **The mark is a lock.** Of any sequence of operations on a word, by any
threads, those that set the mark and those that clear it succeed in turn. -/
theorem marks_counted (L : Layout α w) (m : MarkPtr α) (ops : List (MarkOp (Option α))) (hr : MarkOp.reset ∉ ops) :
    let run := runOps MarkOp.word (L.encode m) (ops.map (MarkOp.map L.addr))
    succeeded MarkOp.marks ops run.2 + m.mark.toNat =
      succeeded MarkOp.clears ops run.2 + (MarkWord.getMarked run.1).2.toNat := by
  have hpair : ∀ m : MarkPtr α, succeeded MarkOp.marks ops (runOps MarkOp.pair m ops).2 + m.mark.toNat =
      succeeded MarkOp.clears ops (runOps MarkOp.pair m ops).2 + (runOps MarkOp.pair m ops).1.mark.toNat := by
    induction ops with
    | nil =>
      intro m
      rfl
    | cons op ops ih =>
      intro m
      have hop : op ≠ .reset := fun he => hr (by simp [he])
      have h := MarkOp.pair_mark m hop
      have ih := ih (fun h => hr (List.mem_cons_of_mem op h)) (op.pair m).1
      simp only [runOps]
      rw [succeeded_cons MarkOp.marks op _ ops, succeeded_cons MarkOp.clears op _ ops]
      omega
  have hmark := L.word_encode (runOps MarkOp.pair m ops).1 .getMarked
  simp only [MarkOp.map, MarkOp.word, MarkOp.pair, MarkRes.map, Prod.mk.injEq, MarkRes.marked.injEq, true_and] at hmark
  intro run
  simp only [run, L.word_refines, succeeded_map, hmark.2]
  exact hpair m

/-- Three threads mark a null word of 64 bits, in three ways; one of them succeeds. -/
theorem marks_counted_three :
    let L := Layout.even 64 (by decide)
    let ops := [MarkOp.casMark none true, .mark, .casMarked none false none true]
    let run := runOps MarkOp.word (L.encode {}) (ops.map (MarkOp.map L.addr))
    run.1 = 1#64 ∧ run.2 = [.bool true, .bool false, .bool false] ∧ succeeded MarkOp.marks ops run.2 + 0 =
      succeeded MarkOp.clears ops run.2 + (MarkWord.getMarked run.1).2.toNat := by
  intro L ops run
  have hrun : run = (1#64, [.bool true, .bool false, .bool false]) := by decide +kernel
  exact ⟨by rw [hrun], by rw [hrun], marks_counted L {} ops (by simp [ops])⟩

end SplitOrder
