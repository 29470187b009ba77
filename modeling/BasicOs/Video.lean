import BasicOs.Paging
import BasicOs.Lib.Run

/-!
# The text screen

The output functions of `lib.c` (`clear`, `putc`, `puts`, `backspace`, `vert_scroll`,
`update_cursor`), `switch_terminals` of `terminal.c`, and `initial_boot` of `schedule.c`, which sets
the three terminals up.

* `logicalPage k t` : the address of the page that holds terminal `t`'s screen;
* `ScreenOnly k k'` : only screens and cursors differ between `k` and `k'`;
* `scrollPage_apply`, `blankCells_apply` : what the loops of `vert_scroll` and `clear` leave in memory.
-/

namespace BasicOs

def video : Int := 0xB8000
def numCols : Nat := 80
def numRows : Nat := 25
def attrib : UInt8 := 0x7

/-- The newline, carriage return and space characters. -/
def chNewline : UInt8 := 10
def chReturn : UInt8 := 13
def chSpace : UInt8 := 32

/-! ## Memory loops -/

/-- Store a character and the attribute byte after it. -/
def putCell (m : Int → UInt8) (a : Int) (c : UInt8) : Int → UInt8 :=
  Function.update (Function.update m a c) (a + 1) attrib

/-- `memcpy(dest, src, n)` for areas that do not overlap. -/
def memcpy (m : Int → UInt8) (dest src : Int) (n : Nat) : Int → UInt8 :=
  fun a => if dest ≤ a ∧ a < dest + n then m (src + (a - dest)) else m a

/-- Blank the cells `lo ≤ i < lo + n` of the page at `base`. -/
def blankCells (base : Int) (lo n : Nat) (m : Int → UInt8) : Int → UInt8 :=
  Run.forUp lo n (fun i m => putCell m (base + 2 * i) chSpace) m

/-- One round of the first loop of `vert_scroll`. -/
def copyCellUp (base : Int) (i : Nat) (m : Int → UInt8) : Int → UInt8 :=
  let m := Function.update m (base + 2 * i) (m (base + 2 * (numCols + i)))
  Function.update m (base + 2 * i + 1) (m (base + 2 * (numCols + i) + 1))

/-- The two loops of `vert_scroll`, for the page at `base`: copy each row one up, blank the last. -/
def scrollPage (m : Int → UInt8) (base : Int) : Int → UInt8 :=
  let m := Run.forUp 0 ((numRows - 1) * numCols) (copyCellUp base) m
  blankCells base ((numRows - 1) * numCols) numCols m

/-! ## Output -/

/-- `update_cursor`: the 16-bit position goes to the CRT controller in two bytes. -/
def updateCursor (k : Kernel) (x y : Int) : Kernel :=
  { k with cursor := ((y * numCols + x) % 65536).toNat }

@[simp] theorem updateCursor_terminals (k : Kernel) (x y : Int) :
    (updateCursor k x y).terminals = k.terminals := rfl

@[simp] theorem updateCursor_videoMem (k : Kernel) (x y : Int) :
    (updateCursor k x y).videoMem = k.videoMem := rfl

/-- `clear`. -/
def clear (k : Kernel) : Kernel :=
  let k := { k with videoMem := blankCells video 0 (numRows * numCols) k.videoMem }
  let k := k.modifyTerm k.currTerm fun t => { t with termX := 0, termY := 0 }
  updateCursor k (k.terminals k.currTerm).termX (k.terminals k.currTerm).termY

/-- `vert_scroll`. -/
def vertScroll (k : Kernel) (termId : Fin 3) : Kernel :=
  if termId = k.currTerm then { k with videoMem := scrollPage k.videoMem video }
  else { k with videoMem := scrollPage k.videoMem (video + (termId.val + 1) * 0x1000) }

/-- The character part of `putc`: a line end moves the cursor, anything else is drawn at it. -/
def putcDraw (k : Kernel) (c : UInt8) (termId : Fin 3) : Kernel :=
  if c = chNewline ∨ c = chReturn then
    k.modifyTerm termId fun t => { t with termY := t.termY + 1, termX := 0 }
  else
    let t := k.terminals termId
    let offset := (numCols * t.termY + t.termX) * 2
    let k := if termId = k.currTerm then { k with videoMem := putCell k.videoMem (video + offset) c }
      else { k with videoMem := putCell k.videoMem (video + (termId.val + 1) * 0x1000 + offset) c }
    k.modifyTerm termId fun t => { t with termX := t.termX + 1 }

/-- The wrap of `putc` at the right edge. -/
def putcWrap (k : Kernel) (termId : Fin 3) : Kernel :=
  if (k.terminals termId).termX ≥ numCols then
    k.modifyTerm termId fun t => { t with termX := 0, termY := t.termY + 1 }
  else k

/-- The scroll of `putc` at the bottom. -/
def putcScroll (k : Kernel) (termId : Fin 3) : Kernel :=
  if (k.terminals termId).termY ≥ numRows then
    (vertScroll k termId).modifyTerm termId fun t => { t with termY := numRows - 1, termX := 0 }
  else k

/-- `putc`. -/
def putc (k : Kernel) (c : UInt8) (termId : Fin 3) : Kernel :=
  if c = 0 then k
  else
    let k := putcScroll (putcWrap (putcDraw k c termId) termId) termId
    updateCursor k (k.terminals k.currTerm).termX (k.terminals k.currTerm).termY

/-- `puts`, and `printf` of a text without conversions: one `putc` for each character. -/
def puts (k : Kernel) (s : List UInt8) : Kernel :=
  s.foldl (fun k c => putc k c k.currTerm) k

/-- `backspace`; C's `%` and `/` round towards zero. -/
def backspace (k : Kernel) : Kernel :=
  let k := k.modifyTerm k.currTerm fun t =>
    let x := (t.termX - 1).tmod numCols
    { t with termX := x, termY := (t.termY + x.tdiv numCols).tmod numRows }
  let t := k.terminals k.currTerm
  let k := { k with videoMem := putCell k.videoMem (video + (numCols * t.termY + t.termX) * 2) 0 }
  updateCursor k t.termX t.termY

/-! ## Terminals -/

/-- `switch_terminals`. -/
def switchTerminals (k : Kernel) (nextTerm : Fin 3) : Kernel :=
  if k.currTerm = nextTerm then k
  else
    let k := k.modifyPte (pageOf vidmemAddress) fun e => e.mapUser (pageOf vidmemAddress)
    let k := { k with
      videoMem := memcpy k.videoMem (k.terminals k.currTerm).vidmem vidmemAddress (80 * 25 * 2) }
    let k := { k with
      videoMem := memcpy k.videoMem vidmemAddress (k.terminals nextTerm).vidmem (80 * 25 * 2) }
    let k := { k with currTerm := nextTerm }
    updateCursor k (k.terminals nextTerm).termX (k.terminals nextTerm).termY

/-- The fields `initial_boot` gives a terminal; `term` is the uninitialised local it copies. -/
def bootTerm (term : Term) (i : Fin 3) : Term :=
  { term with
    termId := i.val, termX := 0, termY := 0
    keyboardBuf := fun j => if j < keyboardBufSize then 0 else term.keyboardBuf j
    keyFlag := 0, bufIdx := 0, acRepeats := 0, historyIdx := 0, vidmem := videoPages i }

/-- `initial_boot`; `local_` is what the uninitialised local holds in each round of the loop. -/
def initialBoot (k : Kernel) (local_ : Fin 3 → Term) : Kernel :=
  let k := vidmapTerm (vidmapTerm (vidmapTerm k 0) 1) 2
  { k with
    terminals := fun i => bootTerm (local_ i) i
    currTerm := 0
    scheduledProcess := 0
    schedulingArray := fun _ => -1 }

/-! ## What the loops leave -/

theorem putCell_apply (m : Int → UInt8) (a : Int) (c : UInt8) (b : Int) :
    putCell m a c b = if b = a then c else if b = a + 1 then attrib else m b := by
  simp only [putCell, Function.update_apply]
  split_ifs <;> first | (exfalso; omega) | rfl

theorem blankCells_apply (base : Int) (lo n : Nat) (m : Int → UInt8) (b : Int) :
    blankCells base lo n m b =
      if base + 2 * lo ≤ b ∧ b < base + 2 * (lo + n : Nat) then
        (if (b - base) % 2 = 0 then chSpace else attrib)
      else m b := by
  -- before round `i`, exactly the cells from `lo` to `i` are blank
  let P : Nat → (Int → UInt8) → Prop := fun i m' => ∀ b, m' b =
    if base + 2 * lo ≤ b ∧ b < base + 2 * i then (if (b - base) % 2 = 0 then chSpace else attrib) else m b
  have h : P (lo + n) (blankCells base lo n m) := by
    refine Run.forUp_invariant P n lo m ?_ ?_
    · intro b
      rw [if_neg (by omega)]
    · intro i m' h1 _ ih b
      rw [putCell_apply, ih b]
      split_ifs <;> first | (exfalso; omega) | rfl
  exact h b

theorem copyUp_apply (base : Int) (n : Nat) (m : Int → UInt8) (b : Int) :
    Run.forUp 0 n (copyCellUp base) m b =
      if base ≤ b ∧ b < base + 2 * n then m (b + 160) else m b := by
  -- the loop reads 160 bytes ahead of what it has written, so it reads old bytes only
  let P : Nat → (Int → UInt8) → Prop := fun i m' => ∀ b, m' b =
    if base ≤ b ∧ b < base + 2 * i then m (b + 160) else m b
  have h : P (0 + n) (Run.forUp 0 n (copyCellUp base) m) := by
    refine Run.forUp_invariant P n 0 m ?_ ?_
    · intro b
      rw [if_neg (by omega)]
    · intro i m' _ _ ih b
      have hold : ∀ j : Int, 2 * i ≤ j → m' (base + j) = m (base + j) := by
        intro j hj
        rw [ih, if_neg (by omega)]
      simp only [copyCellUp, numCols, Function.update_apply]
      split_ifs with h1 h2 h3 h4 <;> first | (exfalso; omega) | skip
      · rw [add_assoc, hold _ (by omega)]
        congr 1
        omega
      · rw [hold _ (by omega)]
        congr 1
        omega
      · rw [ih, if_pos (by omega)]
      · rw [ih, if_neg (by omega)]
  have := h b
  rwa [Nat.zero_add] at this

theorem scrollPage_apply (m : Int → UInt8) (base b : Int) :
    scrollPage m base b =
      if base ≤ b ∧ b < base + 3840 then m (b + 160)
      else if base + 3840 ≤ b ∧ b < base + 4000 then
        (if (b - base) % 2 = 0 then chSpace else attrib)
      else m b := by
  have e1 : (numRows - 1) * numCols = 1920 := rfl
  have e2 : numCols = 80 := rfl
  unfold scrollPage
  rw [e1, e2, blankCells_apply, copyUp_apply]
  split_ifs <;> first | (exfalso; omega) | rfl

/-! ## What output leaves alone -/

/-- The terminal with its cursor moved. -/
def Term.moveTo (t : Term) (x y : Int) : Term := { t with termX := x, termY := y }

theorem Term.moveTo_self (t : Term) : t.moveTo t.termX t.termY = t := rfl

/-- Only the screens, the cursor register and the terminals' cursors differ. -/
def ScreenOnly (k k' : Kernel) : Prop :=
  ∃ tty : Tty, k' = { k with toTty := tty } ∧ tty.currTerm = k.currTerm ∧
    ∀ u, ∃ x y, tty.terminals u = (k.terminals u).moveTo x y

theorem ScreenOnly.trans {k₁ k₂ k₃ : Kernel} (h₁ : ScreenOnly k₁ k₂) (h₂ : ScreenOnly k₂ k₃) :
    ScreenOnly k₁ k₃ := by
  obtain ⟨tty, rfl, hc, ht⟩ := h₁
  obtain ⟨tty', rfl, hc', ht'⟩ := h₂
  refine ⟨tty', rfl, hc'.trans hc, fun u => ?_⟩
  obtain ⟨x, y, h⟩ := ht u
  obtain ⟨x', y', h'⟩ := ht' u
  exact ⟨x', y', h'.trans (congrArg (fun t => t.moveTo x' y') h)⟩

theorem screenOnly_videoMem (k : Kernel) (m : Int → UInt8) : ScreenOnly k { k with videoMem := m } :=
  ⟨_, rfl, rfl, fun u => ⟨_, _, (k.terminals u).moveTo_self.symm⟩⟩

theorem ScreenOnly.refl (k : Kernel) : ScreenOnly k k := screenOnly_videoMem k k.videoMem

theorem screenOnly_updateCursor (k : Kernel) (x y : Int) : ScreenOnly k (updateCursor k x y) :=
  ⟨_, rfl, rfl, fun u => ⟨_, _, (k.terminals u).moveTo_self.symm⟩⟩

theorem screenOnly_modifyTerm (k : Kernel) (t : Fin 3) (f : Term → Term)
    (hf : ∀ term, ∃ x y, f term = term.moveTo x y) : ScreenOnly k (k.modifyTerm t f) := by
  refine ⟨_, rfl, rfl, fun u => ?_⟩
  by_cases hu : u = t
  · subst hu
    obtain ⟨x, y, h⟩ := hf (k.terminals u)
    exact ⟨x, y, by rw [← h]; exact Function.update_self ..⟩
  · exact ⟨_, _, (Function.update_of_ne hu ..).trans (k.terminals u).moveTo_self.symm⟩

theorem clear_screenOnly (k : Kernel) : ScreenOnly k (clear k) :=
  ((screenOnly_videoMem k _).trans
    (screenOnly_modifyTerm _ _ _ fun _ => ⟨0, 0, rfl⟩)).trans (screenOnly_updateCursor _ _ _)

theorem vertScroll_screenOnly (k : Kernel) (t : Fin 3) : ScreenOnly k (vertScroll k t) := by
  unfold vertScroll
  split
  · exact screenOnly_videoMem k _
  · exact screenOnly_videoMem k _

theorem putcDraw_screenOnly (k : Kernel) (c : UInt8) (t : Fin 3) : ScreenOnly k (putcDraw k c t) := by
  unfold putcDraw
  split
  · exact screenOnly_modifyTerm _ _ _ fun term => ⟨0, term.termY + 1, rfl⟩
  · dsimp only
    split
    · exact (screenOnly_videoMem k _).trans
        (screenOnly_modifyTerm _ _ _ fun term => ⟨term.termX + 1, term.termY, rfl⟩)
    · exact (screenOnly_videoMem k _).trans
        (screenOnly_modifyTerm _ _ _ fun term => ⟨term.termX + 1, term.termY, rfl⟩)

theorem putcWrap_screenOnly (k : Kernel) (t : Fin 3) : ScreenOnly k (putcWrap k t) := by
  unfold putcWrap
  split
  · exact screenOnly_modifyTerm _ _ _ fun term => ⟨0, term.termY + 1, rfl⟩
  · exact ScreenOnly.refl k

theorem putcScroll_screenOnly (k : Kernel) (t : Fin 3) : ScreenOnly k (putcScroll k t) := by
  unfold putcScroll
  split
  · exact (vertScroll_screenOnly k t).trans (screenOnly_modifyTerm _ _ _ fun _ => ⟨0, _, rfl⟩)
  · exact ScreenOnly.refl k

theorem putc_screenOnly (k : Kernel) (c : UInt8) (t : Fin 3) : ScreenOnly k (putc k c t) := by
  unfold putc
  split
  · exact ScreenOnly.refl k
  · exact (((putcDraw_screenOnly k c t).trans (putcWrap_screenOnly _ t)).trans
      (putcScroll_screenOnly _ t)).trans (screenOnly_updateCursor _ _ _)

theorem puts_append (k : Kernel) (s₁ s₂ : List UInt8) : puts k (s₁ ++ s₂) = puts (puts k s₁) s₂ := by
  unfold puts
  rw [List.foldl_append]

theorem puts_screenOnly (s : List UInt8) : ∀ k : Kernel, ScreenOnly k (puts k s) := by
  induction s with
  | nil => exact ScreenOnly.refl
  | cons c s ih =>
    intro k
    exact (putc_screenOnly k c k.currTerm).trans (ih _)

theorem backspace_screenOnly (k : Kernel) : ScreenOnly k (backspace k) :=
  ((screenOnly_modifyTerm k _ _ fun _ => ⟨_, _, rfl⟩).trans (screenOnly_videoMem _ _)).trans
    (screenOnly_updateCursor _ _ _)

theorem switchTerminals_terminals (k : Kernel) (n : Fin 3) :
    (switchTerminals k n).terminals = k.terminals := by
  unfold switchTerminals
  split <;> rfl

theorem switchTerminals_currTerm (k : Kernel) (n : Fin 3) : (switchTerminals k n).currTerm = n := by
  unfold switchTerminals
  split
  · assumption
  · rfl

end BasicOs
