/-
`mark_ptr_type`: a pointer with a mark kept in its low bit.

The source packs both into one word, `upv`; nodes are aligned, so a word is
a pointer and a bit, and a comparison of words compares both. A `CAS` whose
`expected` is a plain pointer therefore fails on a marked word, whatever
pointer it holds.
-/
import Mathlib.Logic.Basic

namespace SplitOrder

structure MarkPtr (α : Type) where
  ptr : Option α := none
  mark : Bool := false
  deriving DecidableEq, Repr

namespace MarkPtr

variable {α : Type}

/-- `operator=`: the pointer is replaced, the mark is kept. -/
def assign (m : MarkPtr α) (p : Option α) : MarkPtr α := { m with ptr := p }

variable [DecidableEq α]

/-- `CAS(expected, desired, mark)`; `CAS(expected, desired)` is the same with no mark. -/
def cas (m : MarkPtr α) (expected desired : Option α) (mark : Bool) : Bool × MarkPtr α :=
  if m = { ptr := expected } then (true, { ptr := desired, mark := mark }) else (false, m)

theorem cas_ok {m : MarkPtr α} {e d mark} (h : m = { ptr := e }) :
    m.cas e d mark = (true, { ptr := d, mark := mark }) :=
  if_pos h

theorem cas_fail {m : MarkPtr α} {e d mark} (h : m ≠ { ptr := e }) : m.cas e d mark = (false, m) := if_neg h

end MarkPtr

end SplitOrder
