import BasicOs.Video
import BasicOs.Lib.Screen

/-!
# Each terminal has a screen of its own

Terminal `t`'s logical screen is the VGA page while `t` is displayed and its backup page otherwise.
`Shows k t s` relates it, with the cursor of `t`, to a lone 80x25 screen `s`; every `putc`, `clear` and
`switch_terminals` keeps the relation for all three terminals, when the lone screen of `t` gets the
operations addressed to `t` and no others (`screens_isolated`).

* `Confined t k k'` : output to terminal `t` writes its page and its cursor only;
* `putc_shows`, `clear_shows`, `switchTerminals_shows` : one lemma for each operation;
* `putcs_window` : a text written to a cleared screen is seen through the window on its last 25 rows.
-/

namespace BasicOs
open TextScreen

/-- A character and its attribute byte. -/
structure Cell where
  char : UInt8
  attr : UInt8
  deriving DecidableEq

def blankCell : Cell := ⟨chSpace, attrib⟩

abbrev LoneScreen := Screen 25 80 Cell

/-! ## Logical screens -/

/-- The address of terminal `t`'s backup page. -/
def backupPage (t : Fin 3) : Int := video + (t.val + 1) * 0x1000

/-- The address of the page that holds terminal `t`'s screen. -/
def logicalPage (k : Kernel) (t : Fin 3) : Int := if t = k.currTerm then video else backupPage t

/-- The 80x25 cells of the page at `base`. -/
def cellsAt (m : Int → UInt8) (base : Int) : Fin 25 → Fin 80 → Cell :=
  fun r c => ⟨m (base + 2 * (80 * r.val + c.val)), m (base + 2 * (80 * r.val + c.val) + 1)⟩

/-- Terminal `t`'s cursor is at `(x, y)` and its logical screen holds `cells`. -/
structure ShowsAt (k : Kernel) (t : Fin 3) (x y : Int) (cells : Fin 25 → Fin 80 → Cell) : Prop where
  x_eq : (k.terminals t).termX = x
  y_eq : (k.terminals t).termY = y
  cells_eq : cellsAt k.videoMem (logicalPage k t) = cells

/-- Terminal `t` looks like the lone screen `s`. -/
def Shows (k : Kernel) (t : Fin 3) (s : LoneScreen) : Prop := ShowsAt k t s.x.val s.y.val s.cells

theorem cellsAt_congr {m m' : Int → UInt8} {base base' : Int}
    (h : ∀ j : Int, 0 ≤ j → j < 4000 → m' (base' + j) = m (base + j)) :
    cellsAt m' base' = cellsAt m base := by
  funext r c
  have hr := r.isLt
  have hc := c.isLt
  simp only [cellsAt, add_assoc]
  rw [h _ (by omega) (by omega), h _ (by omega) (by omega)]

theorem cellsAt_putCell (m : Int → UInt8) (base : Int) (x : Fin 80) (y : Fin 25) (ch : UInt8) :
    cellsAt (putCell m (base + (80 * y.val + x.val) * 2) ch) base =
      fun r c => if r = y ∧ c = x then ⟨ch, attrib⟩ else cellsAt m base r c := by
  funext r c
  have hx := x.isLt
  have hc := c.isLt
  simp only [cellsAt, putCell_apply]
  by_cases h : r = y ∧ c = x
  · obtain ⟨rfl, rfl⟩ := h
    simp [mul_comm]
  · have hne : ¬ (r.val = y.val ∧ c.val = x.val) := fun e => h ⟨Fin.ext e.1, Fin.ext e.2⟩
    rw [if_neg h, if_neg (by omega), if_neg (by omega), if_neg (by omega), if_neg (by omega)]

theorem cellsAt_scrollPage (m : Int → UInt8) (base : Int) :
    cellsAt (scrollPage m base) base =
      fun r c => if h : r.val + 1 < 25 then cellsAt m base ⟨r.val + 1, h⟩ c else blankCell := by
  funext r c
  have hr := r.isLt
  have hc := c.isLt
  simp only [cellsAt, scrollPage_apply]
  by_cases h : r.val + 1 < 25
  · rw [dif_pos h, if_pos (by omega), if_pos (by omega)]
    congr 2 <;> push_cast <;> ring
  · rw [dif_neg h, if_neg (by omega), if_pos (by omega), if_pos (by omega), if_neg (by omega),
      if_pos (by omega), if_neg (by omega)]
    rfl

theorem cellsAt_blank (m : Int → UInt8) (base : Int) :
    cellsAt (blankCells base 0 2000 m) base = fun _ _ => blankCell := by
  funext r c
  have hr := r.isLt
  have hc := c.isLt
  simp only [cellsAt, blankCells_apply]
  rw [if_pos (by omega), if_pos (by omega), if_pos (by omega), if_neg (by omega)]
  rfl

/-! ## Output stays on its terminal -/

/-- From `k` to `k'` only terminal `t`'s cursor and the 4000 bytes of its logical screen change. -/
structure Confined (t : Fin 3) (k k' : Kernel) : Prop where
  currTerm : k'.currTerm = k.currTerm
  others : ∀ u, u ≠ t → k'.terminals u = k.terminals u
  vidmem : (k'.terminals t).vidmem = (k.terminals t).vidmem
  mem : ∀ a, ¬ (logicalPage k t ≤ a ∧ a < logicalPage k t + 4000) → k'.videoMem a = k.videoMem a

theorem Confined.page {t : Fin 3} {k k' : Kernel} (h : Confined t k k') (u : Fin 3) :
    logicalPage k' u = logicalPage k u := by
  unfold logicalPage
  rw [h.currTerm]

theorem Confined.trans {t : Fin 3} {k₁ k₂ k₃ : Kernel} (h₁ : Confined t k₁ k₂)
    (h₂ : Confined t k₂ k₃) : Confined t k₁ k₃ where
  currTerm := h₂.currTerm.trans h₁.currTerm
  others u hu := (h₂.others u hu).trans (h₁.others u hu)
  vidmem := h₂.vidmem.trans h₁.vidmem
  mem a ha := (h₂.mem a (by rwa [h₁.page])).trans (h₁.mem a ha)

theorem confined_updateCursor (t : Fin 3) (k : Kernel) (x y : Int) : Confined t k (updateCursor k x y) :=
  ⟨rfl, fun _ _ => rfl, rfl, fun _ _ => rfl⟩

theorem Confined.refl (t : Fin 3) (k : Kernel) : Confined t k k :=
  ⟨rfl, fun _ _ => rfl, rfl, fun _ _ => rfl⟩

theorem confined_modifyTerm (t : Fin 3) (k : Kernel) (f : Term → Term)
    (hf : ∀ term, (f term).vidmem = term.vidmem) : Confined t k (k.modifyTerm t f) where
  currTerm := rfl
  others u hu := k.modifyTerm_terminals_of_ne f hu
  vidmem := by rw [k.modifyTerm_terminals_self, hf]
  mem _ _ := rfl

theorem confined_videoMem (t : Fin 3) (k : Kernel) {m : Int → UInt8}
    (hm : ∀ a, ¬ (logicalPage k t ≤ a ∧ a < logicalPage k t + 4000) → m a = k.videoMem a) :
    Confined t k { k with videoMem := m } :=
  ⟨rfl, fun _ _ => rfl, rfl, hm⟩

/-- The pages of two terminals are 4096 bytes or more apart. -/
theorem logicalPage_disjoint (k : Kernel) {t u : Fin 3} (h : u ≠ t) :
    logicalPage k u + 4096 ≤ logicalPage k t ∨ logicalPage k t + 4096 ≤ logicalPage k u := by
  have hne : u.val ≠ t.val := fun e => h (Fin.ext e)
  unfold logicalPage backupPage video
  by_cases hu : u = k.currTerm
  · rw [if_pos hu, if_neg (fun ht => h (hu.trans ht.symm))]
    omega
  · rw [if_neg hu]
    split <;> omega

/-- Output to `t` leaves the other terminals' screens as they are. -/
theorem Confined.shows {t u : Fin 3} {k k' : Kernel} (h : Confined t k k') (hu : u ≠ t)
    {s : LoneScreen} (hs : Shows k u s) : Shows k' u s where
  x_eq := by rw [h.others u hu]; exact hs.x_eq
  y_eq := by rw [h.others u hu]; exact hs.y_eq
  cells_eq := by
    rw [← hs.cells_eq, h.page]
    have hd := logicalPage_disjoint k hu
    exact cellsAt_congr fun j h0 h1 => h.mem _ (by omega)

/-- The logical pages lie in the four pages from `0xB8000` on. -/
theorem logicalPage_bounds (k : Kernel) (t : Fin 3) :
    video ≤ logicalPage k t ∧ logicalPage k t ≤ video + 0x3000 := by
  have ht := t.isLt
  unfold logicalPage backupPage
  split <;> omega

/-! ## `putc` -/

section Putc
variable {k : Kernel} {t : Fin 3} {s : LoneScreen}

theorem vertScroll_eq (k : Kernel) (t : Fin 3) :
    vertScroll k t = { k with videoMem := scrollPage k.videoMem (logicalPage k t) } := by
  unfold vertScroll logicalPage backupPage
  split <;> rfl

theorem vertScroll_confined (k : Kernel) (t : Fin 3) : Confined t k (vertScroll k t) := by
  rw [vertScroll_eq]
  apply confined_videoMem t k
  intro a ha
  rw [scrollPage_apply, if_neg (by omega), if_neg (by omega)]

theorem putcScroll_confined (k : Kernel) (t : Fin 3) : Confined t k (putcScroll k t) := by
  unfold putcScroll
  split
  · exact (vertScroll_confined k t).trans (confined_modifyTerm t _ _ fun _ => rfl)
  · exact Confined.refl t k

theorem putcWrap_confined (k : Kernel) (t : Fin 3) : Confined t k (putcWrap k t) := by
  unfold putcWrap
  split
  · exact confined_modifyTerm t _ _ fun _ => rfl
  · exact Confined.refl t k

/-- Drawing a character that is no line end. -/
theorem putcDraw_eq (k : Kernel) (t : Fin 3) {c : UInt8} (hc : ¬ (c = chNewline ∨ c = chReturn)) :
    putcDraw k c t =
      { k with videoMem := putCell k.videoMem (logicalPage k t +
          (80 * (k.terminals t).termY + (k.terminals t).termX) * 2) c }.modifyTerm t
        fun t => { t with termX := t.termX + 1 } := by
  unfold putcDraw logicalPage backupPage
  rw [if_neg hc]
  dsimp only
  split <;> rfl

theorem putcDraw_confined (hs : Shows k t s) (c : UInt8) : Confined t k (putcDraw k c t) := by
  by_cases hc : c = chNewline ∨ c = chReturn
  · unfold putcDraw
    rw [if_pos hc]
    exact confined_modifyTerm t _ _ fun _ => rfl
  · have hx := s.x.isLt
    have hy := s.y.isLt
    rw [putcDraw_eq k t hc, hs.x_eq, hs.y_eq]
    refine (confined_videoMem t k fun a ha => ?_).trans (confined_modifyTerm t _ _ fun _ => rfl)
    rw [putCell_apply, if_neg (by omega), if_neg (by omega)]

theorem putc_confined (hs : Shows k t s) (c : UInt8) : Confined t k (putc k c t) := by
  unfold putc
  split
  · exact Confined.refl t k
  · exact (((putcDraw_confined hs c).trans (putcWrap_confined _ t)).trans
      (putcScroll_confined _ t)).trans (confined_updateCursor t _ _ _)

/-- The end of `putc` at the start of a row that may be one too far down. -/
theorem putcScroll_shows (h : ShowsAt k t 0 (s.y.val + 1) s.cells) :
    Shows (putcScroll k t) t (s.newline blankCell) := by
  have hy := s.y.isLt
  unfold putcScroll Screen.newline
  rw [h.y_eq]
  by_cases hlast : s.y.val + 1 < 25
  · rw [if_neg (by simp only [numRows]; omega), dif_pos hlast]
    exact ⟨h.x_eq, by rw [h.y_eq]; push_cast; rfl, h.cells_eq⟩
  · rw [if_pos (by simp only [numRows]; omega), dif_neg hlast, vertScroll_eq]
    refine ⟨by rw [Kernel.modifyTerm_terminals_self]; rfl, ?_, ?_⟩
    · rw [Kernel.modifyTerm_terminals_self]
      show ((25 : Nat) : Int) - 1 = s.y.val
      omega
    · rw [Screen.scroll, ← h.cells_eq]
      exact cellsAt_scrollPage _ _

theorem putcWrap_of_lt (h : (k.terminals t).termX < 80) : putcWrap k t = k := by
  unfold putcWrap
  rw [if_neg (by simp only [numCols]; omega)]

theorem putcScroll_of_lt (h : (k.terminals t).termY < 25) : putcScroll k t = k := by
  unfold putcScroll
  rw [if_neg (by simp only [numRows]; omega)]

theorem putcDraw_shows (hs : Shows k t s) {c : UInt8} (hc : ¬ (c = chNewline ∨ c = chReturn)) :
    ShowsAt (putcDraw k c t) t (s.x.val + 1) s.y.val (s.write ⟨c, attrib⟩).cells := by
  rw [putcDraw_eq k t hc]
  refine ⟨?_, ?_, ?_⟩
  · rw [Kernel.modifyTerm_terminals_self, ← hs.x_eq]
  · rw [Kernel.modifyTerm_terminals_self, ← hs.y_eq]
  · rw [hs.x_eq, hs.y_eq, Screen.write, ← hs.cells_eq]
    exact cellsAt_putCell _ _ _ _ _

end Putc

/-! ## Operations and their effect on a lone screen -/

/-- What a terminal can be told to do to its screen. -/
inductive ScreenOp
  | putc (c : UInt8)
  | clear
  deriving DecidableEq

/-- The operation on a lone screen. -/
def loneStep (s : LoneScreen) : ScreenOp → LoneScreen
  | .putc c =>
    if c = 0 then s
    else if c = chNewline ∨ c = chReturn then s.newline blankCell
    else s.draw blankCell ⟨c, attrib⟩
  | .clear => Screen.cleared blankCell

theorem putc_shows {k : Kernel} {t : Fin 3} {s : LoneScreen} (hs : Shows k t s) (c : UInt8) :
    Shows (putc k c t) t (loneStep s (.putc c)) := by
  have hx := s.x.isLt
  have hy := s.y.isLt
  rw [putc, loneStep]
  by_cases h0 : c = 0
  · rw [if_pos h0, if_pos h0]
    exact hs
  · rw [if_neg h0, if_neg h0]
    -- the cursor register does not matter to `Shows`
    suffices h : Shows (putcScroll (putcWrap (putcDraw k c t) t) t) t
        (if c = chNewline ∨ c = chReturn then s.newline blankCell else s.draw blankCell ⟨c, attrib⟩) from
      ⟨h.x_eq, h.y_eq, h.cells_eq⟩
    by_cases hc : c = chNewline ∨ c = chReturn
    · rw [if_pos hc]
      have hd : ShowsAt (putcDraw k c t) t 0 (s.y.val + 1) s.cells := by
        unfold putcDraw
        rw [if_pos hc]
        refine ⟨by rw [Kernel.modifyTerm_terminals_self], ?_, hs.cells_eq⟩
        rw [Kernel.modifyTerm_terminals_self, ← hs.y_eq]
      rw [putcWrap_of_lt (by rw [hd.x_eq]; omega)]
      exact putcScroll_shows hd
    · rw [if_neg hc, Screen.draw]
      have hd := putcDraw_shows hs hc
      by_cases hlast : s.x.val + 1 < 80
      · rw [dif_pos hlast, putcWrap_of_lt (by rw [hd.x_eq]; omega),
          putcScroll_of_lt (by rw [hd.y_eq]; omega)]
        exact ⟨by rw [hd.x_eq]; push_cast; rfl, hd.y_eq, hd.cells_eq⟩
      · rw [dif_neg hlast]
        apply putcScroll_shows (s := s.write ⟨c, attrib⟩)
        unfold putcWrap
        rw [hd.x_eq, if_pos (by simp only [numCols]; omega)]
        refine ⟨by rw [Kernel.modifyTerm_terminals_self], ?_, hd.cells_eq⟩
        rw [Kernel.modifyTerm_terminals_self, hd.y_eq]
        rfl

theorem clear_eq (k : Kernel) :
    clear k = updateCursor ({ k with videoMem := blankCells video 0 2000 k.videoMem }.modifyTerm
      k.currTerm fun t => t.moveTo 0 0) 0 0 := by
  simp only [clear, Kernel.modifyTerm, Function.update_self]
  rfl

theorem clear_confined (k : Kernel) : Confined k.currTerm k (clear k) := by
  rw [clear_eq]
  refine ((confined_videoMem k.currTerm k fun a ha => ?_).trans
    (confined_modifyTerm k.currTerm _ (fun t => t.moveTo 0 0) fun _ => rfl)).trans
    (confined_updateCursor _ _ _ _)
  have hp : logicalPage k k.currTerm = video := if_pos rfl
  rw [hp] at ha
  rw [blankCells_apply, if_neg (by omega)]

theorem clear_terminal (k : Kernel) :
    (clear k).terminals k.currTerm = (k.terminals k.currTerm).moveTo 0 0 := by
  rw [clear_eq, updateCursor_terminals, Kernel.modifyTerm_terminals_self]

theorem clear_shows (k : Kernel) (s : LoneScreen) :
    Shows (clear k) k.currTerm (loneStep s .clear) := by
  have hpage : logicalPage (clear k) k.currTerm = video := by
    rw [(clear_confined k).page, logicalPage, if_pos rfl]
  have hterm := clear_terminal k
  have hmem : (clear k).videoMem = blankCells video 0 2000 k.videoMem := by
    rw [clear_eq, updateCursor_videoMem, Kernel.modifyTerm_videoMem]
  refine ⟨by rw [hterm]; rfl, by rw [hterm]; rfl, ?_⟩
  rw [hpage, hmem, cellsAt_blank]
  rfl

/-! ## Switching -/

/-- The backup pages are where `initial_boot` put them. -/
def BackupsSet (k : Kernel) : Prop := ∀ t, (k.terminals t).vidmem = backupPage t

theorem Confined.backupsSet {t : Fin 3} {k k' : Kernel} (h : Confined t k k') (hb : BackupsSet k) :
    BackupsSet k' := by
  intro u
  by_cases hu : u = t
  · subst hu
    rw [h.vidmem, hb]
  · rw [h.others u hu, hb]

section Switch
variable {k : Kernel} {n : Fin 3}

/-- The video memory after `switch_terminals`: the VGA page saved, then the next one restored. -/
theorem switchTerminals_mem (hb : BackupsSet k) (hn : k.currTerm ≠ n) :
    (switchTerminals k n).videoMem =
      memcpy (memcpy k.videoMem (backupPage k.currTerm) video 4000) video (backupPage n) 4000 := by
  unfold switchTerminals
  rw [if_neg hn]
  show memcpy (memcpy k.videoMem (k.terminals k.currTerm).vidmem _ _) _ (k.terminals n).vidmem _ = _
  rw [hb, hb]
  rfl

theorem switchTerminals_shows (hb : BackupsSet k) (t : Fin 3) {s : LoneScreen} (hs : Shows k t s) :
    Shows (switchTerminals k n) t s := by
  by_cases hn : k.currTerm = n
  · unfold switchTerminals
    rw [if_pos hn]
    exact hs
  · refine ⟨by rw [switchTerminals_terminals]; exact hs.x_eq,
      by rw [switchTerminals_terminals]; exact hs.y_eq, ?_⟩
    rw [← hs.cells_eq, switchTerminals_mem hb hn]
    have hcn : k.currTerm.val ≠ n.val := fun e => hn (Fin.ext e)
    apply cellsAt_congr
    intro j h0 h1
    unfold logicalPage
    rw [switchTerminals_currTerm]
    by_cases ht : t = n
    · -- the terminal that comes up: its backup page is copied to the VGA page
      rw [if_pos ht, if_neg (fun e => hn (e.symm.trans ht)), ht]
      unfold memcpy backupPage video
      rw [if_pos (by omega), if_neg (by omega)]
      congr 1
      omega
    · rw [if_neg ht]
      have htn : t.val ≠ n.val := fun e => ht (Fin.ext e)
      by_cases hc : t = k.currTerm
      · -- the terminal that goes down: the VGA page was copied to its backup page
        rw [if_pos hc, hc]
        unfold memcpy backupPage video
        rw [if_neg (by omega), if_pos (by omega)]
        congr 1
        omega
      · rw [if_neg hc]
        have hct : t.val ≠ k.currTerm.val := fun e => hc (Fin.ext e)
        unfold memcpy backupPage video
        rw [if_neg (by omega), if_neg (by omega)]

theorem switchTerminals_mem_outside (hb : BackupsSet k) (a : Int)
    (ha : ¬ (video ≤ a ∧ a < video + 0x4000)) : (switchTerminals k n).videoMem a = k.videoMem a := by
  by_cases hn : k.currTerm = n
  · unfold switchTerminals
    rw [if_pos hn]
  · have h3 := k.currTerm.isLt
    rw [switchTerminals_mem hb hn]
    unfold memcpy backupPage
    rw [if_neg (by omega), if_neg (by omega)]

end Switch

/-! ## Runs -/

/-- An output operation of the kernel. -/
inductive ScreenEvent
  | putc (c : UInt8) (t : Fin 3)
  | clear
  | switchTerminals (n : Fin 3)
  deriving DecidableEq

def screenStep (k : Kernel) : ScreenEvent → Kernel
  | .putc c t => putc k c t
  | .clear => clear k
  | .switchTerminals n => switchTerminals k n

/-- The operations an event addresses to `t` while `d` is displayed: `putc` names its terminal, `clear`
means the displayed one. -/
def opsOf (t d : Fin 3) : ScreenEvent → List ScreenOp
  | .putc c u => if u = t then [.putc c] else []
  | .clear => if d = t then [.clear] else []
  | .switchTerminals _ => []

/-- The terminal displayed after an event. -/
def displayedAfter (d : Fin 3) : ScreenEvent → Fin 3
  | .switchTerminals n => n
  | _ => d

/-- The operations of a run that are addressed to `t`, when `d` is displayed at its start. -/
def addressed (t : Fin 3) : Fin 3 → List ScreenEvent → List ScreenOp
  | _, [] => []
  | d, e :: es => opsOf t d e ++ addressed t (displayedAfter d e) es

/-- The cursor register holds the displayed terminal's cursor. -/
def CursorShown (k : Kernel) : Prop :=
  (k.cursor : Int) = 80 * (k.terminals k.currTerm).termY + (k.terminals k.currTerm).termX

theorem updateCursor_shown {k : Kernel} {s : LoneScreen} (h : Shows k k.currTerm s) :
    CursorShown (updateCursor k (k.terminals k.currTerm).termX (k.terminals k.currTerm).termY) := by
  have hx := s.x.isLt
  have hy := s.y.isLt
  have e : (numCols : Int) = 80 := rfl
  show (((_ : Int).toNat : Nat) : Int) =
    80 * (k.terminals k.currTerm).termY + (k.terminals k.currTerm).termX
  rw [h.x_eq, h.y_eq, e]
  omega

/-- What holds between the kernel and the three lone screens along a run from `k₀`. -/
structure ScreensInv (k₀ k : Kernel) (lone : Fin 3 → LoneScreen) : Prop where
  shows_all : ∀ t, Shows k t (lone t)
  cursor : CursorShown k
  backups : BackupsSet k
  outside : ∀ a, ¬ (video ≤ a ∧ a < video + 0x4000) → k.videoMem a = k₀.videoMem a

/-- `putc` ends by moving the cursor register to the displayed terminal's cursor. -/
theorem putc_cursor {k : Kernel} {t : Fin 3} {c : UInt8} (hk : CursorShown k) {s : LoneScreen}
    (hs : Shows (putc k c t) (putc k c t).currTerm s) : CursorShown (putc k c t) := by
  unfold putc at hs ⊢
  split
  · exact hk
  · rename_i h0
    rw [if_neg h0] at hs
    exact updateCursor_shown ⟨hs.x_eq, hs.y_eq, hs.cells_eq⟩

theorem clear_cursor_eq (k : Kernel) : (clear k).cursor = 0 := by
  rw [clear_eq]
  rfl

theorem clear_cursor (k : Kernel) : CursorShown (clear k) := by
  rw [CursorShown, clear_cursor_eq, (clear_confined k).currTerm, clear_terminal]
  rfl

theorem switchTerminals_cursor {k : Kernel} {n : Fin 3} (hk : CursorShown k) {s : LoneScreen}
    (hs : Shows k n s) : CursorShown (switchTerminals k n) := by
  unfold switchTerminals
  split
  · exact hk
  · have hx := s.x.isLt
    have hy := s.y.isLt
    have e : (numCols : Int) = 80 := rfl
    show ((((k.terminals n).termY * numCols + (k.terminals n).termX) % 65536).toNat : Int) =
      80 * (k.terminals n).termY + (k.terminals n).termX
    rw [hs.x_eq, hs.y_eq, e]
    omega

/-- Output confined to `t` keeps everything outside the four pages. -/
theorem Confined.outside {t : Fin 3} {k k' : Kernel} (h : Confined t k k') (a : Int)
    (ha : ¬ (video ≤ a ∧ a < video + 0x4000)) : k'.videoMem a = k.videoMem a := by
  have hb := logicalPage_bounds k t
  exact h.mem a (by omega)

theorem screenStep_currTerm {k₀ k : Kernel} {lone : Fin 3 → LoneScreen} (h : ScreensInv k₀ k lone)
    (e : ScreenEvent) : (screenStep k e).currTerm = displayedAfter k.currTerm e := by
  cases e with
  | putc c t => exact (putc_confined (h.shows_all t) c).currTerm
  | clear => exact (clear_confined k).currTerm
  | switchTerminals n => exact switchTerminals_currTerm k n

/-- One operation of the kernel is one operation, or none, on each lone screen. -/
theorem screenStep_inv {k₀ k : Kernel} {lone : Fin 3 → LoneScreen} (h : ScreensInv k₀ k lone)
    (e : ScreenEvent) :
    ScreensInv k₀ (screenStep k e) fun t => (opsOf t k.currTerm e).foldl loneStep (lone t) := by
  cases e with
  | putc c u =>
    have hc := putc_confined (h.shows_all u) c
    have hshows : ∀ t, Shows (putc k c u) t ((opsOf t k.currTerm (.putc c u)).foldl loneStep (lone t)) := by
      intro t
      by_cases htu : u = t
      · subst htu
        rw [opsOf, if_pos rfl]
        exact putc_shows (h.shows_all u) c
      · rw [opsOf, if_neg htu]
        exact hc.shows (Ne.symm htu) (h.shows_all t)
    exact ⟨hshows, putc_cursor h.cursor (hshows _), hc.backupsSet h.backups,
      fun a ha => (hc.outside a ha).trans (h.outside a ha)⟩
  | clear =>
    have hc := clear_confined k
    refine ⟨fun t => ?_, clear_cursor k, hc.backupsSet h.backups,
      fun a ha => (hc.outside a ha).trans (h.outside a ha)⟩
    by_cases ht : k.currTerm = t
    · rw [opsOf, if_pos ht, ← ht]
      exact clear_shows k (lone k.currTerm)
    · rw [opsOf, if_neg ht]
      exact hc.shows (Ne.symm ht) (h.shows_all t)
  | switchTerminals n =>
    refine ⟨fun t => switchTerminals_shows h.backups t (h.shows_all t),
      switchTerminals_cursor h.cursor (h.shows_all n), fun t => ?_,
      fun a ha => (switchTerminals_mem_outside h.backups a ha).trans (h.outside a ha)⟩
    show ((switchTerminals k n).terminals t).vidmem = backupPage t
    rw [switchTerminals_terminals, h.backups]

theorem screenSteps_inv {k₀ : Kernel} (es : List ScreenEvent) :
    ∀ {k : Kernel} {lone : Fin 3 → LoneScreen}, ScreensInv k₀ k lone →
      ScreensInv k₀ (es.foldl screenStep k)
        fun t => (addressed t k.currTerm es).foldl loneStep (lone t) := by
  induction es with
  | nil => intro k lone h; exact h
  | cons e es ih =>
    intro k lone h
    have := ih (screenStep_inv h e)
    rw [screenStep_currTerm h e] at this
    simpa only [List.foldl_cons, addressed, List.foldl_append] using this

/-- The screen terminal `t` starts with: whatever its page holds, and the cursor at the top left. -/
def bootScreen (k : Kernel) (t : Fin 3) : LoneScreen :=
  { cells := cellsAt k.videoMem (logicalPage k t), x := 0, y := 0 }

theorem boot_inv (k : Kernel) (local_ : Fin 3 → Term) :
    ScreensInv (initialBoot (clear k) local_) (initialBoot (clear k) local_)
      (bootScreen (initialBoot (clear k) local_)) where
  shows_all _ := ⟨rfl, rfl, rfl⟩
  cursor := by
    show ((clear k).cursor : Int) = 80 * 0 + 0
    rw [clear_cursor_eq]
    rfl
  backups t := by
    show ((videoPages t : Nat) : Int) = backupPage t
    fin_cases t <;> rfl
  outside _ _ := rfl

/-- **Terminal screen isolation.** After `initial_boot` (which `entry` calls on a cleared screen), any
interleaving of `putc`, `clear` and `switch_terminals` leaves each terminal's logical screen and cursor
as a lone screen would be after the operations addressed to that terminal, the cursor register at the
displayed terminal's cursor, and every byte outside the four pages as it was. -/
theorem screens_isolated (k : Kernel) (local_ : Fin 3 → Term) (es : List ScreenEvent) :
    let k₀ := initialBoot (clear k) local_
    let k' := es.foldl screenStep k₀
    (∀ t, Shows k' t ((addressed t k₀.currTerm es).foldl loneStep (bootScreen k₀ t))) ∧
      (k'.cursor : Int) = 80 * (k'.terminals k'.currTerm).termY + (k'.terminals k'.currTerm).termX ∧
      ∀ a, ¬ (0xB8000 ≤ a ∧ a < 0xB8000 + 4 * 0x1000) → k'.videoMem a = k₀.videoMem a := by
  intro k₀ k'
  have h := screenSteps_inv es (boot_inv k local_)
  exact ⟨h.shows_all, h.cursor, h.outside⟩

/-! ## The text behind the window -/

/-- A terminal's text on rows of 80 columns without end; the cells not written are blank. -/
abbrev TextLayout := Layout 80 blankCell

/-- One character of the text: a line end starts the next row, `'\0'` does nothing. -/
def layoutStep (l : TextLayout) (c : UInt8) : TextLayout :=
  if c = 0 then l
  else if c = chNewline ∨ c = chReturn then l.newline
  else l.draw ⟨c, attrib⟩

theorem layoutStep_window (l : TextLayout) (c : UInt8) :
    (layoutStep l c).window 25 = loneStep (l.window 25) (.putc c) := by
  rw [layoutStep, loneStep]
  by_cases h0 : c = 0
  · rw [if_pos h0, if_pos h0]
  · rw [if_neg h0, if_neg h0]
    by_cases hc : c = chNewline ∨ c = chReturn
    · rw [if_pos hc, if_pos hc, Layout.window_newline]
    · rw [if_neg hc, if_neg hc, Layout.window_draw]

/-- `putc` of each character of a text to terminal `t`. -/
def putcs (t : Fin 3) (k : Kernel) (cs : List UInt8) : Kernel := cs.foldl (fun k c => putc k c t) k

/-- Along a text, the terminal shows the window of the layout and nothing else is written. -/
theorem putcs_shows {t : Fin 3} (cs : List UInt8) :
    ∀ {k : Kernel} {l : TextLayout}, Shows k t (l.window 25) →
      Shows (putcs t k cs) t ((cs.foldl layoutStep l).window 25) ∧ Confined t k (putcs t k cs) := by
  induction cs with
  | nil => intro k l h; exact ⟨h, Confined.refl t k⟩
  | cons c cs ih =>
    intro k l h
    have hc := putc_shows h c
    rw [← layoutStep_window] at hc
    obtain ⟨hs, hconf⟩ := ih hc
    exact ⟨hs, (putc_confined h c).trans hconf⟩

/-- **Screen semantics.** On a cleared screen with the cursor at `(0, 0)`, displayed or not, a text of any
length leaves the last 25 rows of its unbounded layout, and the cursor among them. At each character of it
the cursor is on the 80x25 grid, and only the 4000 bytes of the terminal's page have been written. -/
theorem putcs_window (k : Kernel) (t : Fin 3) (cs : List UInt8) (h : Shows k t (Screen.cleared blankCell)) :
    Shows (putcs t k cs) t ((cs.foldl layoutStep Layout.empty).window 25) ∧
      ∀ p, p <+: cs →
        (0 ≤ ((putcs t k p).terminals t).termX ∧ ((putcs t k p).terminals t).termX < 80) ∧
        (0 ≤ ((putcs t k p).terminals t).termY ∧ ((putcs t k p).terminals t).termY < 25) ∧
        ∀ a, ¬ (logicalPage k t ≤ a ∧ a < logicalPage k t + 4000) →
          (putcs t k p).videoMem a = k.videoMem a := by
  rw [← Layout.window_empty] at h
  refine ⟨(putcs_shows cs h).1, fun p _ => ?_⟩
  obtain ⟨hs, hconf⟩ := putcs_shows p h
  have hx := ((p.foldl layoutStep Layout.empty).window 25).x.isLt
  have hy := ((p.foldl layoutStep Layout.empty).window 25).y.isLt
  refine ⟨?_, ?_, hconf.mem⟩
  · rw [hs.x_eq]
    omega
  · rw [hs.y_eq]
    omega

/-- The theorem applied to a text that fills the screen and goes on for one cell, on the screen `clear`
leaves. -/
theorem putcs_window_full :
    let k := clear (Kernel.atLoad ⟨fun _ => 0, 0, 0, 0⟩)
    let cs := List.replicate 2001 65
    Shows k 0 (Screen.cleared blankCell) ∧
      Shows (putcs 0 k cs) 0 ((cs.foldl layoutStep Layout.empty).window 25) := by
  intro k cs
  have h : Shows k 0 (Screen.cleared blankCell) := clear_shows _ (Screen.cleared blankCell)
  exact ⟨h, (putcs_window k 0 cs h).1⟩

end BasicOs
