import Mathlib.Tactic

/-!
# A lone text screen

`Screen R C α` is a grid of `R` rows and `C` columns with a cursor inside it. `draw` writes at the
cursor and advances, wrapping at the right edge; `newline` goes to the start of the next row, and
scrolls the grid up by one row from the last one; `cleared` is the blank screen.

`Layout C blank` is the same text on rows without end, where nothing ever scrolls. A screen of `R` rows is
the window on the last `R` rows of a layout, and stays so (`Layout.window_newline`,
`Layout.window_draw`).
-/

namespace TextScreen

/-- A grid of cells and a cursor that cannot leave it. -/
structure Screen (R C : Nat) (α : Type) where
  cells : Fin R → Fin C → α
  x : Fin C
  y : Fin R

namespace Screen
variable {R C : Nat} [NeZero R] [NeZero C] {α : Type}

/-- Every row moves one up; the last row becomes blank. -/
def scroll (blank : α) (s : Screen R C α) : Screen R C α :=
  { s with cells := fun r c => if h : r.val + 1 < R then s.cells ⟨r.val + 1, h⟩ c else blank }

/-- To the start of the next row, scrolling if there is none. -/
def newline (blank : α) (s : Screen R C α) : Screen R C α :=
  if h : s.y.val + 1 < R then { s with x := 0, y := ⟨s.y.val + 1, h⟩ }
  else { scroll blank s with x := 0 }

/-- Write at the cursor. -/
def write (s : Screen R C α) (a : α) : Screen R C α :=
  { s with cells := fun r c => if r = s.y ∧ c = s.x then a else s.cells r c }

/-- Write at the cursor and move it one cell on. -/
def draw (blank : α) (s : Screen R C α) (a : α) : Screen R C α :=
  if h : s.x.val + 1 < C then { s.write a with x := ⟨s.x.val + 1, h⟩ }
  else newline blank (s.write a)

/-- The blank screen with the cursor at the top left. -/
def cleared (blank : α) : Screen R C α := { cells := fun _ _ => blank, x := 0, y := 0 }

end Screen

/-- Rows without end and a cursor on them; nothing is written below the cursor's row. -/
structure Layout (C : Nat) {α : Type} (blank : α) where
  cells : Nat → Fin C → α
  col : Fin C
  row : Nat
  below : ∀ r c, row < r → cells r c = blank

namespace Layout
variable {C : Nat} {α : Type} {blank : α}

/-- The first of the last `R` rows; the layout has rows down to the cursor's, and `R` at least. -/
def top (R : Nat) (l : Layout C blank) : Nat := l.row + 1 - R

theorem row_sub_top_lt (R : Nat) [NeZero R] (l : Layout C blank) : l.row - l.top R < R := by
  have hR := Nat.pos_of_neZero R
  unfold top
  omega

/-- The last `R` rows, and the cursor among them. -/
def window (R : Nat) [NeZero R] (l : Layout C blank) : Screen R C α :=
  { cells := fun r c => l.cells (l.top R + r.val) c
    x := l.col
    y := ⟨l.row - l.top R, l.row_sub_top_lt R⟩ }

variable {R : Nat} [NeZero R]

/-- Write at the cursor. -/
def write (l : Layout C blank) (a : α) : Layout C blank :=
  { l with
    cells := fun r c => if r = l.row ∧ c = l.col then a else l.cells r c
    below := fun r c h => (if_neg (by omega)).trans (l.below r c h) }

theorem window_write (l : Layout C blank) (a : α) :
    (l.write a).window R = (l.window R).write a := by
  have hrow : ∀ r : Fin R, l.top R + r.val = l.row ↔ r = (l.window R).y := by
    intro r
    have hr := r.isLt
    rw [Fin.ext_iff]
    show _ ↔ r.val = l.row - l.top R
    unfold top
    omega
  refine congrArg (fun cells => Screen.mk cells _ _) (funext fun r => funext fun c => ?_)
  show (if l.top R + r.val = l.row ∧ c = l.col then a else _) = if r = (l.window R).y ∧ c = l.col then a else _
  simp only [hrow]
  rfl

variable [NeZero C]

/-- No cell written, and the cursor at the start of the first row. -/
def empty : Layout C blank := { cells := fun _ _ => blank, col := 0, row := 0, below := fun _ _ _ => rfl }

/-- To the start of the next row. -/
def newline (l : Layout C blank) : Layout C blank :=
  { l with col := 0, row := l.row + 1, below := fun r c h => l.below r c (by omega) }

/-- Write at the cursor and move it one cell on. -/
def draw (l : Layout C blank) (a : α) : Layout C blank :=
  if h : l.col.val + 1 < C then { l.write a with col := ⟨l.col.val + 1, h⟩ } else (l.write a).newline

theorem window_empty : (empty : Layout C blank).window R = Screen.cleared blank := by
  have hR := Nat.pos_of_neZero R
  refine congrArg (Screen.mk _ _) (Fin.ext ?_)
  show 0 - (0 + 1 - R) = 0
  omega

theorem window_newline (l : Layout C blank) :
    l.newline.window R = (l.window R).newline blank := by
  have hR := Nat.pos_of_neZero R
  have hy : (l.window R).y.val = l.row - l.top R := rfl
  have htop : l.top R = l.row + 1 - R := rfl
  have htop' : l.newline.top R = l.row + 1 + 1 - R := rfl
  unfold Screen.newline
  by_cases h : (l.window R).y.val + 1 < R
  · -- the next row is in the window, which stays where it is
    have e : l.newline.top R = l.top R := by omega
    rw [dif_pos h]
    refine congr (congrArg (fun cells => Screen.mk cells 0) ?_) (Fin.ext ?_)
    · funext r c
      show l.cells (l.newline.top R + r.val) c = l.cells (l.top R + r.val) c
      rw [e]
    · show l.row + 1 - l.newline.top R = l.row - l.top R + 1
      omega
  · -- the window moves one row down, and its last row is below all that is written
    have e : l.newline.top R = l.top R + 1 := by omega
    rw [dif_neg h]
    refine congr (congrArg (fun cells => Screen.mk cells 0) ?_) (Fin.ext ?_)
    · funext r c
      show l.cells (l.newline.top R + r.val) c =
        if h : r.val + 1 < R then l.cells (l.top R + (r.val + 1)) c else blank
      split
      · rw [e, Nat.add_right_comm, Nat.add_assoc]
      · exact l.below _ _ (by omega)
    · show l.row + 1 - l.newline.top R = l.row - l.top R
      omega

theorem window_draw (l : Layout C blank) (a : α) :
    (l.draw a).window R = (l.window R).draw blank a := by
  unfold draw Screen.draw
  by_cases h : l.col.val + 1 < C
  · have hx : (l.window R).x.val + 1 < C := h
    rw [dif_pos h, dif_pos hx, ← window_write]
    rfl
  · have hx : ¬ (l.window R).x.val + 1 < C := h
    rw [dif_neg h, dif_neg hx, window_newline, window_write]

end Layout

end TextScreen
