/-
Linked chains: the nodes met by following a next-pointer map.

`Seg nx p l q` says that the pointer `p` leads through exactly the nodes
`l`, in order, to the pointer `q`. `nx` is any map from a node to the
pointer it holds; the lemmas say how a segment splits, when a change of the
map leaves it alone, and what writing one next pointer does to it.
-/
import Mathlib.Data.List.Nodup
import Mathlib.Logic.Function.Basic

namespace SplitOrder

variable {α : Type*}

/-- `p` leads through the nodes `l` to `q`. -/
def Seg (nx : α → Option α) : Option α → List α → Option α → Prop
  | p, [], q => p = q
  | p, a :: l, q => p = some a ∧ Seg nx (nx a) l q

namespace Seg

variable {nx nx' : α → Option α} {p q r : Option α} {a b c : α} {l l₁ l₂ : List α}

@[simp] theorem nil : Seg nx p [] q ↔ p = q := Iff.rfl

@[simp] theorem cons : Seg nx p (a :: l) q ↔ p = some a ∧ Seg nx (nx a) l q := Iff.rfl

theorem append : ∀ {l₁ : List α} {p}, Seg nx p (l₁ ++ l₂) q ↔ ∃ r, Seg nx p l₁ r ∧ Seg nx r l₂ q
  | [], p => by simp
  | a :: l₁, p => by
    have ih : ∀ {p}, Seg nx p (l₁ ++ l₂) q ↔ _ := append
    simp [ih, and_assoc]

/-- A segment only looks at the next pointers of its own nodes. -/
theorem congr : ∀ {l : List α} {p}, (∀ a ∈ l, nx a = nx' a) → Seg nx p l q → Seg nx' p l q
  | [], _, _, h => h
  | a :: l, _, he, h => by
    refine ⟨h.1, ?_⟩
    rw [← he a (by simp)]
    exact congr (fun b hb => he b (by simp [hb])) h.2

/-- Following a pointer to the end finds one list of nodes. -/
theorem det : ∀ {l₁ l₂ : List α} {p}, Seg nx p l₁ none → Seg nx p l₂ none → l₁ = l₂
  | [], [], _, _, _ => rfl
  | [], _ :: _, _, h₁, h₂ => by simp at h₁; simp [h₁] at h₂
  | _ :: _, [], _, h₁, h₂ => by simp at h₂; simp [h₂] at h₁
  | a :: l₁, b :: l₂, _, h₁, h₂ => by
    obtain ⟨rfl, h₁⟩ := h₁
    obtain ⟨he, h₂⟩ := h₂
    cases he
    rw [det h₁ h₂]

/-- A chain that ends meets no node twice. -/
theorem nodup : ∀ {l : List α} {p}, Seg nx p l none → l.Nodup := by
  intro l
  induction l with
  | nil => intro _ _; exact List.nodup_nil
  | cons a l ih =>
    intro p h
    refine List.nodup_cons.mpr ⟨fun ha => ?_, ih h.2⟩
    -- the chain from `a` on would be a proper part of itself
    obtain ⟨A, B, rfl⟩ := List.append_of_mem ha
    obtain ⟨r, -, h'⟩ := append.mp h.2
    have heq := congrArg List.length (det h (h.1 ▸ h'.1 ▸ h'))
    simp only [List.length_cons, List.length_append] at heq
    omega

/-- Following a pointer, for at most so many nodes. -/
def follow (nx : α → Option α) : Nat → Option α → List α
  | 0, _ => []
  | _ + 1, none => []
  | fuel + 1, some a => a :: follow nx fuel (nx a)

theorem follow_eq : ∀ {l : List α} {p} {fuel : Nat}, Seg nx p l none → l.length ≤ fuel → follow nx fuel p = l
  | [], _, 0, _, _ => rfl
  | [], _, _ + 1, h, _ => by rw [nil.mp h, follow]
  | a :: l, _, 0, _, hf => by simp at hf
  | a :: l, _, fuel + 1, h, hf => by
    rw [h.1, follow, follow_eq h.2 (by simpa using hf)]

theorem head (h : Seg nx p l none) : p = l.head? := by
  cases l with
  | nil => exact h
  | cons a l => exact h.1

/-- The next pointer of a node of a chain is the node after it. -/
theorem next (h : Seg nx p (l₁ ++ a :: l₂) none) : nx a = l₂.head? := by
  obtain ⟨_, -, h⟩ := append.mp h
  exact h.2.head

section Update

variable [DecidableEq α]

theorem update_of_notMem (ha : a ∉ l) : Seg (Function.update nx a r) p l q ↔ Seg nx p l q := by
  have he : ∀ b ∈ l, Function.update nx a r b = nx b := fun b hb => by
    rw [Function.update_of_ne]
    rintro rfl
    exact ha hb
  exact ⟨congr he, congr fun b hb => (he b hb).symm⟩

/-- Linking `b` in after `a`: `b` is made to hold what `a` held, and then `a` to hold `b`. -/
theorem insert (h : Seg nx p (l₁ ++ a :: l₂) q) (hn : (l₁ ++ a :: l₂).Nodup)
    (hb : b ∉ l₁ ++ a :: l₂) (hnx : nx b = nx a) :
    Seg (Function.update nx a (some b)) p (l₁ ++ a :: b :: l₂) q := by
  simp only [List.nodup_append, List.nodup_cons, List.mem_append, List.mem_cons, not_or] at hn hb
  obtain ⟨r, h₁, rfl, h₂⟩ := append.mp h
  refine append.mpr ⟨_, (update_of_notMem fun ha => hn.2.2 a ha a (by simp) rfl).mpr h₁, rfl, by simp, ?_⟩
  rw [Function.update_of_ne (fun h => hb.2.1 h)]
  exact (update_of_notMem hn.2.1.1).mpr (hnx ▸ h₂)

/-- Unlinking `b`, the node after `a`: `a` is made to hold what `b` held. -/
theorem remove (h : Seg nx p (l₁ ++ a :: b :: l₂) q) (hn : (l₁ ++ a :: b :: l₂).Nodup) :
    Seg (Function.update nx a (nx b)) p (l₁ ++ a :: l₂) q := by
  simp only [List.nodup_append, List.nodup_cons, List.mem_cons, not_or] at hn
  obtain ⟨r, h₁, rfl, h₂, h₃⟩ := append.mp h
  refine append.mpr ⟨_, (update_of_notMem fun ha => hn.2.2 a ha a (by simp) rfl).mpr h₁, rfl, ?_⟩
  simp only [Function.update_self]
  exact (update_of_notMem hn.2.1.1.2).mpr h₃

end Update

end Seg

end SplitOrder
