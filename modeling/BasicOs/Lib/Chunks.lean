import Mathlib.Tactic

/-!
# A sequence cut into chunks

* `startOf sizes j` : where chunk `j` starts, when chunk `i` has `sizes i` items;
* `flatten_chunks_eq_iff` : chunks of the right sizes make up the sequence exactly when each of them is the
  segment that starts where it does.
-/

namespace Chunks

/-- The sum of the first `j` sizes. -/
def startOf (sizes : Nat → Nat) : Nat → Nat
  | 0 => 0
  | j + 1 => startOf sizes j + sizes j

theorem startOf_const (n j : Nat) : startOf (fun _ => n) j = n * j := by
  induction j with
  | zero => rfl
  | succ j ih => rw [startOf, ih, Nat.mul_succ]

theorem startOf_lt {sizes : Nat → Nat} (hpos : ∀ j, 0 < sizes j) {i j : Nat} (h : i < j) :
    startOf sizes i < startOf sizes j := by
  have hsucc : ∀ j, startOf sizes j < startOf sizes (j + 1) := by
    intro j
    have := hpos j
    rw [startOf]
    omega
  exact strictMono_nat_of_lt_succ hsucc h

variable {α : Type}

theorem length_flatten_chunks {sizes : Nat → Nat} {chunk : Nat → List α} {m : Nat}
    (hlen : ∀ j < m, (chunk j).length = sizes j) :
    ((List.range m).map chunk).flatten.length = startOf sizes m := by
  induction m with
  | zero => rfl
  | succ m ih =>
    rw [List.range_succ, List.map_append, List.flatten_append, List.length_append,
      ih fun j hj => hlen j (by omega), startOf]
    simp [hlen m]

theorem flatten_chunks_eq_iff (f : Nat → α) {sizes : Nat → Nat} {chunk : Nat → List α} {m : Nat}
    (hlen : ∀ j < m, (chunk j).length = sizes j) :
    ((List.range m).map chunk).flatten = (List.range (startOf sizes m)).map f ↔
      ∀ j < m, chunk j = (List.range (sizes j)).map fun b => f (startOf sizes j + b) := by
  induction m with
  | zero => simp [startOf]
  | succ m ih =>
    have ih := ih fun j hj => hlen j (by omega)
    have hfirst := length_flatten_chunks fun j hj => hlen j (Nat.lt_succ_of_lt hj)
    have hsplit : ((List.range (m + 1)).map chunk).flatten = ((List.range m).map chunk).flatten ++ chunk m := by
      simp [List.range_succ]
    have hrange : (List.range (startOf sizes (m + 1))).map f =
        (List.range (startOf sizes m)).map f ++
          (List.range (sizes m)).map fun b => f (startOf sizes m + b) := by
      rw [startOf, List.range_add, List.map_append, List.map_map]
      rfl
    rw [hsplit, hrange]
    constructor
    · intro h j hj
      obtain ⟨h1, h2⟩ := List.append_inj h (by rw [hfirst, List.length_map, List.length_range])
      obtain hj | rfl : j < m ∨ j = m := by omega
      · exact ih.mp h1 j hj
      · exact h2
    · intro h
      rw [ih.mpr fun j hj => h j (by omega), h m (by omega)]

end Chunks
