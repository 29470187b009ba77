import Mathlib.Data.List.Basic

/-!
# Bounded stacks

`BoundedStack α cap` : a stack of at most `cap` items, the top at the end of the list. A push on a full stack and a pop
of an empty one do nothing.

* `push`, `pop` : the operations; `items_push`, `items_pop`, `length_push` : what they do to the items.
-/

/-- A stack with room for `cap` items. -/
structure BoundedStack (α : Type) (cap : Nat) where
  items : List α
  bounded : items.length ≤ cap

namespace BoundedStack
variable {α : Type} {cap : Nat}

def empty (α : Type) (cap : Nat) : BoundedStack α cap := ⟨[], Nat.zero_le cap⟩

/-- The items after a push. -/
def pushItems (cap : Nat) (l : List α) (c : α) : List α := if l.length < cap then l ++ [c] else l

theorem length_pushItems (l : List α) (h : l.length ≤ cap) (c : α) :
    (pushItems cap l c).length = min (l.length + 1) cap := by
  unfold pushItems
  split_ifs with hroom
  · rw [List.length_append, List.length_singleton, Nat.min_eq_left hroom]
  · have hfull : l.length = cap := Nat.le_antisymm h (Nat.le_of_not_lt hroom)
    rw [hfull, Nat.min_eq_right (Nat.le_succ cap)]

def push (s : BoundedStack α cap) (c : α) : BoundedStack α cap :=
  ⟨pushItems cap s.items c, by rw [length_pushItems s.items s.bounded]; exact Nat.min_le_right _ _⟩

def pop (s : BoundedStack α cap) : BoundedStack α cap :=
  ⟨s.items.dropLast, Nat.le_trans (List.dropLast_sublist s.items).length_le s.bounded⟩

@[simp] theorem items_pop (s : BoundedStack α cap) : s.pop.items = s.items.dropLast := rfl

theorem items_push_of_room {s : BoundedStack α cap} (h : s.items.length < cap) (c : α) :
    (s.push c).items = s.items ++ [c] := if_pos h

theorem push_of_full {s : BoundedStack α cap} (h : ¬ s.items.length < cap) (c : α) : s.push c = s := by
  obtain ⟨items, bounded⟩ := s
  unfold push pushItems
  simp only [if_neg h]

@[simp] theorem length_push (s : BoundedStack α cap) (c : α) :
    (s.push c).items.length = min (s.items.length + 1) cap := length_pushItems s.items s.bounded c

@[simp] theorem length_pop (s : BoundedStack α cap) : s.pop.items.length = s.items.length - 1 := by
  rw [items_pop, List.length_dropLast]

end BoundedStack
