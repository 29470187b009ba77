import Mathlib.Tactic

/-!
# Stacks linked by a parent function

`Linked parent root node top l` : from `top`, following `parent`, one goes through the nodes `l` in order
and then gets to a root.

* `Linked.push`, `Linked.pop` : a node on top is added or taken away;
* `Linked.congr` : the stack depends on its own nodes only.
-/

namespace LinkedStack
variable {α : Type}

/-- The stack with the given top, as the list of its nodes above the root. -/
def Linked (parent : α → α) (root node : α → Prop) : α → List α → Prop
  | p, [] => root p
  | p, q :: l => p = q ∧ node q ∧ Linked parent root node (parent q) l

variable {parent parent' : α → α} {root node node' : α → Prop} {p q : α} {l : List α}

theorem Linked.push (h : Linked parent root node p l) (hq : node q) (hp : parent q = p) :
    Linked parent root node q (q :: l) := ⟨rfl, hq, hp ▸ h⟩

theorem Linked.pop (h : Linked parent root node p (q :: l)) : Linked parent root node (parent p) l := by
  obtain ⟨rfl, -, h⟩ := h
  exact h

/-- A top that is no root is the first node. -/
theorem Linked.exists_eq_cons (h : Linked parent root node p l) (hp : ¬ root p) : ∃ l', l = p :: l' := by
  cases l with
  | nil => exact absurd h hp
  | cons q l => exact ⟨l, by rw [h.1]⟩

theorem Linked.node_of_mem (h : Linked parent root node p l) (hq : q ∈ l) : node q := by
  induction l generalizing p with
  | nil => cases hq
  | cons r l ih =>
    obtain ⟨rfl, hn, h⟩ := h
    rcases List.mem_cons.mp hq with rfl | hq
    · exact hn
    · exact ih h hq

theorem Linked.top_cases (h : Linked parent root node p l) : root p ∨ node p := by
  cases l with
  | nil => exact Or.inl h
  | cons q l => exact Or.inr (h.1 ▸ h.2.1)

theorem Linked.congr (h : Linked parent root node p l) (hp : ∀ q ∈ l, parent' q = parent q)
    (hn : ∀ q ∈ l, node q → node' q) : Linked parent' root node' p l := by
  induction l generalizing p with
  | nil => exact h
  | cons q l ih =>
    obtain ⟨rfl, hq, h⟩ := h
    refine ⟨rfl, hn p List.mem_cons_self hq, ?_⟩
    rw [hp p List.mem_cons_self]
    exact ih h (fun r hr => hp r (List.mem_cons_of_mem p hr)) fun r hr => hn r (List.mem_cons_of_mem p hr)

end LinkedStack
