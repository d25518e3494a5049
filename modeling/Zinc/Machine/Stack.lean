/-!
Stacks that know their depth.
-/

namespace Zinc

/-- A stack, the top first, with its depth. -/
structure Stack (α : Type) where
  items : List α
  depth : Nat
  depth_eq : depth = items.length

namespace Stack

variable {α : Type}

/-- A stack with nothing on it. -/
def empty : Stack α :=
  ⟨[], 0, rfl⟩

instance : Inhabited (Stack α) := ⟨empty⟩

/-- Two stacks with the same items are the same. -/
@[ext] theorem ext {s t : Stack α} (h : s.items = t.items) : s = t := by
  obtain ⟨xs, d, hd⟩ := s
  obtain ⟨ys, e, he⟩ := t
  subst hd he
  obtain rfl : xs = ys := h
  rfl

/-- Puts an item on top. -/
def push (s : Stack α) (a : α) : Stack α :=
  ⟨a :: s.items, s.depth + 1, by simp [s.depth_eq]⟩

/-- Removes the top `n` items. -/
def drop (s : Stack α) (n : Nat) : Stack α :=
  ⟨s.items.drop n, s.depth - n, by simp [s.depth_eq]⟩

/-- The top item. -/
def top? (s : Stack α) : Option α :=
  s.items.head?

@[simp] theorem items_push (s : Stack α) (a : α) : (s.push a).items = a :: s.items := rfl

@[simp] theorem items_drop (s : Stack α) (n : Nat) : (s.drop n).items = s.items.drop n := rfl

end Stack

end Zinc
