import BasicOs.Cursor

/-!
# Erasing what was echoed

The displayed screen in linear order: position `80 * y + x` of the cursor, cells numbered row by row. `putc` writes the
cell at the cursor and moves it one on; past the last cell every row moves one up. `backspace` moves one back from
column 0 too, by way of negative columns, but from column -79 it goes to column 0 of the same row.

* `putsCounted` : echoing a text, with a count of the rows that scroll;
* `puts_cells` : what a text leaves on the screen; `backspaces_cursor`, `backspaces_cells` : what erasing leaves;
* `erasing_undoes_iff` : when as many calls of `backspace` undo the echo.
-/

namespace BasicOs
open Bytes Run TextScreen

/-- A character that `putc` draws. -/
def Printable (c : UInt8) : Prop := c ≠ 0 ∧ c ≠ chNewline ∧ c ≠ chReturn

/-- Cell `i` of the displayed screen, counted row by row. -/
def cellOf (k : Kernel) (i : Nat) : Cell := ⟨k.videoMem (video + 2 * i), k.videoMem (video + 2 * i + 1)⟩

/-- What `backspace` leaves in a cell. -/
def erasedCell : Cell := ⟨0, attrib⟩

/-- The displayed terminal's cursor is in column `x` of row `y`. -/
structure CursorAt (k : Kernel) (x y : Nat) : Prop where
  x_eq : k.term.termX = x
  y_eq : k.term.termY = y
  x_lt : x < 80
  y_lt : y < 25

/-- `putc` of this character scrolls. -/
def Scrolls (k : Kernel) (c : UInt8) : Prop :=
  numRows ≤ ((putcWrap (putcDraw k c k.currTerm) k.currTerm).terminals k.currTerm).termY

instance (k : Kernel) (c : UInt8) : Decidable (Scrolls k c) := by
  unfold Scrolls
  infer_instance

/-- `putc` of each character, and the number of rows scrolled. -/
def putsCounted (k : Kernel) (cs : List UInt8) : Kernel × Nat :=
  cs.foldl (fun p c => (putc p.1 c p.1.currTerm, if Scrolls p.1 c then p.2 + 1 else p.2)) (k, 0)

/-- The rows that a text scrolls. -/
def scrolled (k : Kernel) (cs : List UInt8) : Nat := (putsCounted k cs).2

theorem putsCounted_concat (k : Kernel) (cs : List UInt8) (c : UInt8) :
    putsCounted k (cs ++ [c]) = (putc (putsCounted k cs).1 c (putsCounted k cs).1.currTerm,
      if Scrolls (putsCounted k cs).1 c then (putsCounted k cs).2 + 1 else (putsCounted k cs).2) := by
  unfold putsCounted
  rw [List.foldl_append]
  rfl

theorem putsCounted_fst (k : Kernel) (cs : List UInt8) : (putsCounted k cs).1 = puts k cs := by
  induction cs using List.reverseRecOn with
  | nil => rfl
  | append_singleton cs c ih =>
    rw [putsCounted_concat, puts_append, ih]
    rfl

theorem scrolled_concat (k : Kernel) (cs : List UInt8) (c : UInt8) :
    scrolled k (cs ++ [c]) = if Scrolls (puts k cs) c then scrolled k cs + 1 else scrolled k cs := by
  unfold scrolled
  rw [putsCounted_concat, putsCounted_fst]

/-! ## One character -/

section Putc
variable {k : Kernel} {x y : Nat}

/-- The lone screen that the displayed terminal shows. -/
def CursorAt.screen (h : CursorAt k x y) : LoneScreen :=
  { cells := cellsAt k.videoMem video, x := ⟨x, h.x_lt⟩, y := ⟨y, h.y_lt⟩ }

theorem CursorAt.shows (h : CursorAt k x y) : Shows k k.currTerm h.screen :=
  ⟨h.x_eq, h.y_eq, by rw [logicalPage_currTerm]; rfl⟩

theorem cellOf_eq (k : Kernel) {i : Nat} (hi : i < 2000) :
    cellOf k i = cellsAt k.videoMem video ⟨i / 80, by omega⟩ ⟨i % 80, by omega⟩ := by
  have hdiv : (2 : Int) * (i : Int) = 2 * (80 * ((i / 80 : Nat) : Int) + ((i % 80 : Nat) : Int)) := by omega
  unfold cellOf cellsAt
  dsimp only
  rw [hdiv]

/-- The cursor and the cells of the displayed terminal, read off a lone screen. -/
theorem Shows.displayed {s : LoneScreen} {k' : Kernel} (hs : Shows k' k.currTerm s) (hterm : k'.currTerm = k.currTerm) :
    CursorAt k' s.x.val s.y.val ∧
      ∀ i (hi : i < 2000), cellOf k' i = s.cells ⟨i / 80, by omega⟩ ⟨i % 80, by omega⟩ := by
  refine ⟨⟨?_, ?_, s.x.isLt, s.y.isLt⟩, fun i hi => ?_⟩
  · rw [Kernel.term, hterm]
    exact hs.x_eq
  · rw [Kernel.term, hterm]
    exact hs.y_eq
  · have hcells := hs.cells_eq
    rw [← hterm, logicalPage_currTerm] at hcells
    rw [cellOf_eq k' hi, hcells]

theorem scrolls_iff (h : CursorAt k x y) {c : UInt8} (hc : Printable c) : Scrolls k c ↔ 80 * y + x + 1 = 2000 := by
  have hx := h.x_lt
  have hy := h.y_lt
  have hd := putcDraw_shows h.shows (c := c) (by rintro (rfl | rfl); exacts [hc.2.1 rfl, hc.2.2 rfl])
  have hdx : ((putcDraw k c k.currTerm).terminals k.currTerm).termX = x + 1 := hd.x_eq
  have hdy : ((putcDraw k c k.currTerm).terminals k.currTerm).termY = y := hd.y_eq
  unfold Scrolls putcWrap
  rw [hdx]
  by_cases hlast : x + 1 < 80
  · rw [if_neg (by simp only [numCols]; omega), hdy]
    simp only [numRows]
    omega
  · rw [if_pos (by simp only [numCols]; omega), Kernel.modifyTerm_terminals_self]
    dsimp only
    rw [hdy]
    simp only [numRows]
    omega

/-- The position of a cell in its row and column. -/
theorem cell_eq_iff {i : Nat} (h : CursorAt k x y) (hi : i < 2000) :
    (⟨i / 80, by omega⟩ : Fin 25) = h.screen.y ∧ (⟨i % 80, by omega⟩ : Fin 80) = h.screen.x ↔ i = 80 * y + x := by
  have hx := h.x_lt
  simp only [CursorAt.screen, Fin.mk.injEq]
  omega

/-- `putc` before the last cell: the character is at the cursor, which moves one on. -/
theorem putc_cells_of_lt (h : CursorAt k x y) {c : UInt8} (hc : Printable c) (hlt : 80 * y + x + 1 < 2000) :
    CursorAt (putc k c k.currTerm) ((80 * y + x + 1) % 80) ((80 * y + x + 1) / 80) ∧
      ∀ i < 2000, cellOf (putc k c k.currTerm) i = if i = 80 * y + x then ⟨c, attrib⟩ else cellOf k i := by
  have hx := h.x_lt
  have hs := putc_shows h.shows c
  have hterm := (putc_screenOnly k c k.currTerm).currTerm_eq
  rw [loneStep, if_neg hc.1, if_neg (by rintro (rfl | rfl); exacts [hc.2.1 rfl, hc.2.2 rfl]), Screen.draw] at hs
  have hcells : ∀ i (hi : i < 2000), (h.screen.write ⟨c, attrib⟩).cells ⟨i / 80, by omega⟩ ⟨i % 80, by omega⟩ =
      if i = 80 * y + x then ⟨c, attrib⟩ else cellOf k i := by
    intro i hi
    rw [cellOf_eq k hi]
    simp only [Screen.write, cell_eq_iff h hi]
    rfl
  by_cases hlast : h.screen.x.val + 1 < 80
  · rw [dif_pos hlast] at hs
    obtain ⟨hcur, hcell⟩ := hs.displayed hterm
    have hrow : x + 1 < 80 := hlast
    refine ⟨?_, fun i hi => (hcell i hi).trans (hcells i hi)⟩
    rw [show (80 * y + x + 1) % 80 = x + 1 by omega, show (80 * y + x + 1) / 80 = y by omega]
    exact hcur
  · have hrow : ¬ x + 1 < 80 := hlast
    have hnext : (h.screen.write ⟨c, attrib⟩).y.val + 1 < 25 := by
      show y + 1 < 25
      omega
    rw [dif_neg hlast, Screen.newline, dif_pos hnext] at hs
    obtain ⟨hcur, hcell⟩ := hs.displayed hterm
    refine ⟨?_, fun i hi => (hcell i hi).trans (hcells i hi)⟩
    rw [show (80 * y + x + 1) % 80 = 0 by omega, show (80 * y + x + 1) / 80 = y + 1 by omega]
    exact hcur

/-- `putc` at the last cell: every row moves one up, and the cursor goes to the start of the last one. -/
theorem putc_cells_of_last (h : CursorAt k x y) {c : UInt8} (hc : Printable c) (hlast : 80 * y + x + 1 = 2000) :
    CursorAt (putc k c k.currTerm) 0 24 ∧ ∀ i < 2000, cellOf (putc k c k.currTerm) i =
      if i + 80 = 80 * y + x then ⟨c, attrib⟩ else if i + 80 < 2000 then cellOf k (i + 80) else blankCell := by
  have hx := h.x_lt
  have hs := putc_shows h.shows c
  have hterm := (putc_screenOnly k c k.currTerm).currTerm_eq
  have hcol : ¬ h.screen.x.val + 1 < 80 := by
    show ¬ x + 1 < 80
    omega
  have hrow : ¬ (h.screen.write ⟨c, attrib⟩).y.val + 1 < 25 := by
    show ¬ y + 1 < 25
    omega
  rw [loneStep, if_neg hc.1, if_neg (by rintro (rfl | rfl); exacts [hc.2.1 rfl, hc.2.2 rfl]), Screen.draw, dif_neg hcol,
    Screen.newline, dif_neg hrow] at hs
  obtain ⟨hcur, hcell⟩ := hs.displayed hterm
  refine ⟨?_, fun i hi => (hcell i hi).trans ?_⟩
  · obtain rfl : y = 24 := by omega
    exact hcur
  · simp only [Screen.scroll]
    by_cases hup : i + 80 < 2000
    · have hi' : i / 80 + 1 < 25 := by omega
      have hrows : (⟨i / 80 + 1, hi'⟩ : Fin 25) = ⟨(i + 80) / 80, by omega⟩ := Fin.ext (by dsimp only; omega)
      have hcols : (⟨i % 80, by omega⟩ : Fin 80) = ⟨(i + 80) % 80, by omega⟩ := Fin.ext (by dsimp only; omega)
      rw [dif_pos hi', if_pos hup, hrows, hcols, cellOf_eq k hup]
      simp only [Screen.write, cell_eq_iff h hup]
      rfl
    · rw [dif_neg (by omega), if_neg (by omega), if_neg hup]

end Putc

/-! ## A text -/

/-- The displayed screen after a text of `n` characters from position `p`: the cursor is `n` cells on, less a row for
each of the `s` rows scrolled, and the cells around the text have moved up by these. -/
structure Echoed (k k' : Kernel) (p n s : Nat) : Prop where
  rows : s = (p + n) / 80 - 24
  cursor : CursorAt k' ((p + n - 80 * s) % 80) ((p + n - 80 * s) / 80)
  kept : ∀ i < 2000, i + 80 * s < 2000 → i + 80 * s < p ∨ p + n ≤ i + 80 * s → cellOf k' i = cellOf k (i + 80 * s)

theorem puts_cells {k : Kernel} {x y : Nat} (h : CursorAt k x y) (cs : List UInt8) (hcs : ∀ c ∈ cs, Printable c) :
    Echoed k (puts k cs) (80 * y + x) cs.length (scrolled k cs) := by
  have hx := h.x_lt
  have hy := h.y_lt
  induction cs using List.reverseRecOn with
  | nil =>
    refine ⟨?_, ?_, fun i _ _ _ => rfl⟩
    · simp only [scrolled, putsCounted, List.foldl_nil, List.length_nil]
      omega
    · rw [List.length_nil, show scrolled k [] = 0 from rfl, show (80 * y + x + 0 - 80 * 0) % 80 = x by omega,
        show (80 * y + x + 0 - 80 * 0) / 80 = y by omega]
      exact h
  | append_singleton cs c ih =>
    have ih := ih fun d hd => hcs d (List.mem_append_left _ hd)
    have hc := hcs c (List.mem_append_right _ (List.mem_singleton_self c))
    have hrows := ih.rows
    have hlen : (cs ++ [c]).length = cs.length + 1 := by simp
    have hpos : 80 * ((80 * y + x + cs.length - 80 * scrolled k cs) / 80) +
        (80 * y + x + cs.length - 80 * scrolled k cs) % 80 = 80 * y + x + cs.length - 80 * scrolled k cs := by omega
    have hputs : puts k (cs ++ [c]) = putc (puts k cs) c (puts k cs).currTerm := by
      rw [puts_append]
      rfl
    have hscroll := scrolls_iff ih.cursor hc
    rw [hpos] at hscroll
    rw [scrolled_concat, hputs, hlen]
    by_cases hlast : Scrolls (puts k cs) c
    · have hend := hscroll.mp hlast
      obtain ⟨hcur, hcells⟩ := putc_cells_of_last ih.cursor hc (by rw [hpos]; exact hend)
      rw [if_pos hlast]
      refine ⟨by omega, ?_, fun i hi hin hout => ?_⟩
      · rw [show (80 * y + x + (cs.length + 1) - 80 * (scrolled k cs + 1)) % 80 = 0 by omega,
          show (80 * y + x + (cs.length + 1) - 80 * (scrolled k cs + 1)) / 80 = 24 by omega]
        exact hcur
      · rw [hcells i hi, if_neg (by omega), if_pos (by omega), ih.kept (i + 80) (by omega) (by omega) (by omega),
          show i + 80 + 80 * scrolled k cs = i + 80 * (scrolled k cs + 1) by omega]
    · have hbefore : 80 * y + x + cs.length - 80 * scrolled k cs + 1 < 2000 := by
        have hne : 80 * y + x + cs.length - 80 * scrolled k cs + 1 ≠ 2000 := fun he => hlast (hscroll.mpr he)
        have := ih.cursor.y_lt
        omega
      obtain ⟨hcur, hcells⟩ := putc_cells_of_lt ih.cursor hc (by rw [hpos]; exact hbefore)
      rw [hpos] at hcur
      rw [if_neg hlast]
      refine ⟨by omega, ?_, fun i hi hin hout => ?_⟩
      · rw [show 80 * y + x + (cs.length + 1) - 80 * scrolled k cs =
          80 * y + x + cs.length - 80 * scrolled k cs + 1 by omega]
        exact hcur
      · rw [hcells i hi, if_neg (by omega), ih.kept i hi hin (by omega)]

/-! ## Erasing -/

/-- The column after `n` calls of `backspace` from column `x`: the columns go down to -79, and on from 0. -/
def backColumn (x n : Nat) : Int := if n ≤ x then (x : Int) - n else -(((n - x) % 80 : Nat) : Int)

theorem backColumn_succ {x : Nat} (hx : x < 80) (n : Nat) : (backColumn x n - 1).tmod 80 = backColumn x (n + 1) := by
  unfold backColumn
  by_cases hlt : n + 1 ≤ x
  · rw [if_pos (by omega), if_pos hlt, Int.tmod_eq_of_lt (by omega) (by omega)]
    push_cast
    ring
  · have hneg : (if n ≤ x then (x : Int) - n else -(((n - x) % 80 : Nat) : Int)) - 1 =
        -(((n - x) % 80 + 1 : Nat) : Int) := by
      split_ifs <;> omega
    rw [hneg, if_neg hlt, Int.neg_tmod, show (80 : Int) = ((80 : Nat) : Int) from rfl, ← Int.ofNat_tmod]
    omega

theorem backColumn_tdiv {x : Nat} (hx : x < 80) (n : Nat) : (backColumn x n).tdiv 80 = 0 := by
  unfold backColumn
  split_ifs with hle
  · exact Int.tdiv_eq_zero_of_lt (by omega) (by omega)
  · rw [Int.neg_tdiv, Int.tdiv_eq_zero_of_lt (by omega) (by omega), neg_zero]

/-- The cursor stays in its row. -/
theorem backspaces_cursor {k : Kernel} {x y : Nat} (h : CursorAt k x y) (n : Nat) :
    (backspaces k n).currTerm = k.currTerm ∧ (backspaces k n).term.termY = y ∧
      (backspaces k n).term.termX = backColumn x n := by
  have hy := h.y_lt
  let P : Nat → Kernel → Prop := fun i k' =>
    k'.currTerm = k.currTerm ∧ k'.term.termY = y ∧ k'.term.termX = backColumn x i
  have hinv : P (0 + n) (backspaces k n) := by
    refine forUp_invariant P n 0 k ⟨rfl, h.y_eq, ?_⟩ ?_
    · rw [h.x_eq, backColumn, if_pos (Nat.zero_le x), Nat.cast_zero, sub_zero]
    · intro i k' _ _ ⟨hterm, hrow, hcol⟩
      refine ⟨hterm, ?_⟩
      rw [backspace_term]
      dsimp only
      rw [hcol, hrow, backColumn_succ h.x_lt, backColumn_tdiv h.x_lt, add_zero, Int.tmod_eq_of_lt (by omega) (by omega)]
      exact ⟨rfl, rfl⟩
  rwa [Nat.zero_add] at hinv

theorem cellOf_backspace (k : Kernel) (i : Nat) : cellOf (backspace k) i =
    if (i : Int) = 80 * (backspace k).term.termY + (backspace k).term.termX then erasedCell else cellOf k i := by
  unfold cellOf erasedCell
  rw [backspace_videoMem, putCell_apply, putCell_apply]
  split_ifs <;> first | (exfalso; omega) | rfl

/-- Up to column -79, each call erases the cell before the last. -/
theorem backspaces_cells {k : Kernel} {x y : Nat} (h : CursorAt k x y) {n : Nat} (hn : n ≤ x + 79) (i : Nat) :
    cellOf (backspaces k n) i =
      if i < 80 * y + x ∧ 80 * y + x ≤ i + n then erasedCell else cellOf k i := by
  induction n with
  | zero => rw [if_neg (by omega)]; rfl
  | succ n ih =>
    have hback : backspaces k (n + 1) = backspace (backspaces k n) := forUp_succ_last ..
    obtain ⟨-, hrow, hcol⟩ := backspaces_cursor h (n + 1)
    have hpos : backColumn x (n + 1) = (x : Int) - (n + 1) := by
      unfold backColumn
      split_ifs <;> omega
    rw [hback] at hrow hcol ⊢
    rw [cellOf_backspace, hrow, hcol, hpos, ih (by omega)]
    split_ifs <;> first | (exfalso; omega) | rfl

/-- Erasing undoes the echo of a text from row `y`, column `x`: the cursor is back, less a row for each one scrolled,
the cells of the text are erased, and the others that are still on the screen hold what they held. -/
structure UndoesEcho (k : Kernel) (x y : Nat) (cs : List UInt8) : Prop where
  cursor : 80 * (backspaces (puts k cs) cs.length).term.termY + (backspaces (puts k cs) cs.length).term.termX =
    80 * y + x - 80 * scrolled k cs
  erased : ∀ i < 2000, 80 * y + x ≤ i + 80 * scrolled k cs → i + 80 * scrolled k cs < 80 * y + x + cs.length →
    cellOf (backspaces (puts k cs) cs.length) i = erasedCell
  rest : ∀ i < 2000, 80 * scrolled k cs ≤ i → i < 80 * y + x ∨ 80 * y + x + cs.length ≤ i →
    cellOf (backspaces (puts k cs) cs.length) (i - 80 * scrolled k cs) = cellOf k i

/-- **Erasing.** From any cursor on the grid, erasing undoes the echo of a line exactly if the line does not reach the
next row, or reaches it from a column other than 0 and does not reach the one after it. -/
theorem erasing_undoes_iff {k : Kernel} {x y : Nat} (h : CursorAt k x y) {cs : List UInt8}
    (hcs : ∀ c ∈ cs, Printable c) (hlen : cs.length ≤ 127) :
    UndoesEcho k x y cs ↔ x + cs.length < 80 ∨ (0 < x ∧ x + cs.length < 160) := by
  have hx := h.x_lt
  have hy := h.y_lt
  have hecho := puts_cells h cs hcs
  have hrows := hecho.rows
  obtain ⟨-, hrow, hcol⟩ := backspaces_cursor hecho.cursor cs.length
  have hcol' : (80 * y + x + cs.length - 80 * scrolled k cs) % 80 = (x + cs.length) % 80 := by omega
  rw [hcol'] at hcol
  constructor
  · intro hundo
    have hcursor := hundo.cursor
    rw [hrow, hcol] at hcursor
    unfold backColumn at hcursor
    split_ifs at hcursor <;> omega
  · intro hfits
    have hcells := backspaces_cells hecho.cursor (n := cs.length) (by omega)
    refine ⟨?_, fun i hi h1 h2 => ?_, fun i hi h1 h2 => ?_⟩
    · rw [hrow, hcol]
      unfold backColumn
      split_ifs <;> omega
    · rw [hcells, if_pos (by omega)]
    · rw [hcells, if_neg (by omega), hecho.kept _ (by omega) (by omega) (by omega), Nat.sub_add_cancel h1]

/-- The cursor of a cleared screen. -/
theorem cursorAt_clear (k : Kernel) : CursorAt (clear k) 0 0 := by
  have hterm : (clear k).term = k.term.moveTo 0 0 := clear_terminal k
  exact ⟨by rw [hterm]; rfl, by rw [hterm]; rfl, by decide, by decide⟩

/-- Two letters on a cleared screen. -/
theorem erasing_undoes_two : (∀ c ∈ [97, 98], Printable c) ∧
    UndoesEcho (clear (Kernel.atLoad ⟨fun _ => 0, 0, 0, 0⟩)) 0 0 [97, 98] := by
  have hcs : ∀ c ∈ [97, 98], Printable c := by
    intro c hc
    obtain rfl | rfl : c = 97 ∨ c = 98 := by simpa using hc
    all_goals exact ⟨by decide, by decide, by decide⟩
  exact ⟨hcs, (erasing_undoes_iff (cursorAt_clear _) hcs (by decide)).mpr (Or.inl (by decide))⟩

/-- Eighty letters from column 0: the last `backspace` goes from column -79 back to column 0. -/
theorem erasing_full_row : (∀ c ∈ List.replicate 80 (97 : UInt8), Printable c) ∧
    (backspaces (puts (clear (Kernel.atLoad ⟨fun _ => 0, 0, 0, 0⟩)) (List.replicate 80 97)) 80).term.termY = 1 ∧
    (backspaces (puts (clear (Kernel.atLoad ⟨fun _ => 0, 0, 0, 0⟩)) (List.replicate 80 97)) 80).term.termX = 0 ∧
    ¬ UndoesEcho (clear (Kernel.atLoad ⟨fun _ => 0, 0, 0, 0⟩)) 0 0 (List.replicate 80 97) := by
  have hcs : ∀ c ∈ List.replicate 80 (97 : UInt8), Printable c := by
    intro c hc
    rw [List.eq_of_mem_replicate hc]
    unfold Printable
    decide
  have hecho := puts_cells (cursorAt_clear (Kernel.atLoad ⟨fun _ => 0, 0, 0, 0⟩)) _ hcs
  have hrows := hecho.rows
  have hcursor := hecho.cursor
  rw [List.length_replicate] at hrows hcursor
  have hscrolled : scrolled (clear (Kernel.atLoad ⟨fun _ => 0, 0, 0, 0⟩)) (List.replicate 80 97) = 0 := hrows
  rw [hscrolled] at hcursor
  obtain ⟨-, hrow, hcol⟩ := backspaces_cursor hcursor 80
  refine ⟨hcs, hrow, hcol, ?_⟩
  intro h
  have hback := h.cursor
  rw [List.length_replicate, hrow, hcol, hscrolled] at hback
  exact absurd hback (by decide)

end BasicOs
