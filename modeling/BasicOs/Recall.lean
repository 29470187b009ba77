import BasicOs.Cursor
import BasicOs.LineDiscipline

/-!
# Up and Down

The history functions as functions of the displayed terminal alone, while the row they work at is one of its 100
rows, and the lines they show.

* `Becomes k k' t` : the displayed terminal becomes `t`, wherever its cursor is, and the other terminals and the
  memory behind them stay;
* `Term.kept`, `Term.recalled`, `Term.movedUp`, `Term.movedDown` : what Up and Down do to it;
* `ShowsLine k k' text` : a key replaces the line on the screen and in the buffer by `text`;
* `moveUpHistory_shows`, `moveDownHistory_shows` : they show a row exactly if it ends with a NUL.
-/

namespace BasicOs
open Bytes LineBuffer

/-! ## What the cursor does not change -/

theorem Term.word_moveTo (t : Term) (x y : Int) {n : Nat} (hn : 2 ≤ n) : (t.moveTo x y).word n = t.word n := by
  show ((t.setWord x 0).setWord y 1).word n = t.word n
  rw [Term.word_setWord_of_ne _ _ (by omega), Term.word_setWord_of_ne _ _ (by omega)]

theorem Term.bufView_moveTo (t : Term) (x y : Int) : (t.moveTo x y).bufView = t.bufView := by
  funext i
  unfold bufView byteAt
  split_ifs
  · rfl
  · rw [t.word_moveTo x y (by omega)]
  · rfl

theorem Term.strlenBuf_moveTo (t : Term) (x y : Int) : (t.moveTo x y).strlenBuf = t.strlenBuf := by
  unfold strlenBuf
  rw [Term.bufView_moveTo]

theorem Term.measure_moveTo (t : Term) (x y : Int) : (t.moveTo x y).measure = t.measure.moveTo x y := by
  unfold measure
  rw [Term.strlenBuf_moveTo]
  rfl

/-! ## One terminal changes -/

/-- The displayed terminal becomes `t`, with its cursor anywhere; the others and the memory behind them stay. -/
structure Becomes (k k' : Kernel) (t : Term) : Prop where
  currTerm : k'.currTerm = k.currTerm
  others : ∀ u, u ≠ k.currTerm → k'.terminals u = k.terminals u
  after : k'.afterTerminals = k.afterTerminals
  term : ∃ x y, k'.term = t.moveTo x y

variable {k₀ k k' : Kernel} {t : Term}

theorem Becomes.refl (k : Kernel) : Becomes k k k.term :=
  ⟨rfl, fun _ _ => rfl, rfl, _, _, k.term.moveTo_self.symm⟩

theorem Becomes.modifyTerm (h : Becomes k₀ k t) {f : Term → Term}
    (hf : ∀ t x y, f (t.moveTo x y) = (f t).moveTo x y) : Becomes k₀ (k.modifyTerm k.currTerm f) (f t) where
  currTerm := h.currTerm
  others u hu := (k.modifyTerm_terminals_of_ne f (by rw [h.currTerm]; exact hu)).trans (h.others u hu)
  after := h.after
  term := by
    obtain ⟨x, y, hxy⟩ := h.term
    exact ⟨x, y, by rw [term_modifyTerm, hxy, hf]⟩

/-- A function of the displayed terminal, after another. -/
theorem Becomes.comp (h : Becomes k₀ k t) {f : Term → Term} (hk : Becomes k k' (f k.term))
    (hf : ∀ t x y, f (t.moveTo x y) = (f t).moveTo x y) : Becomes k₀ k' (f t) where
  currTerm := hk.currTerm.trans h.currTerm
  others u hu := (hk.others u (by rw [h.currTerm]; exact hu)).trans (h.others u hu)
  after := hk.after.trans h.after
  term := by
    obtain ⟨x, y, hxy⟩ := h.term
    obtain ⟨x', y', hxy'⟩ := hk.term
    exact ⟨x', y', by rw [hxy', hxy, hf]; rfl⟩

/-- Output on the displayed terminal's screen. -/
theorem Becomes.draw (h : Becomes k₀ k t) (hk : Becomes k k' k.term) : Becomes k₀ k' t :=
  h.comp (f := id) hk fun _ _ _ => rfl

theorem becomes_videoMem (k : Kernel) (m : Int → UInt8) : Becomes k { k with videoMem := m } k.term :=
  ⟨rfl, fun _ _ => rfl, rfl, _, _, k.term.moveTo_self.symm⟩

theorem becomes_updateCursor (k : Kernel) (x y : Int) : Becomes k (updateCursor k x y) k.term :=
  ⟨rfl, fun _ _ => rfl, rfl, _, _, k.term.moveTo_self.symm⟩

theorem becomes_moved (k : Kernel) {f : Term → Term} (hf : ∀ t, ∃ x y, f t = t.moveTo x y) :
    Becomes k (k.modifyTerm k.currTerm f) k.term := by
  refine ⟨rfl, fun u hu => k.modifyTerm_terminals_of_ne f hu, rfl, ?_⟩
  rw [term_modifyTerm]
  exact hf k.term

theorem putcDraw_becomes (k : Kernel) (c : UInt8) : Becomes k (putcDraw k c k.currTerm) k.term := by
  unfold putcDraw
  split
  · exact becomes_moved k fun t => ⟨0, t.termY + 1, rfl⟩
  · dsimp only
    rw [if_pos rfl]
    exact (becomes_videoMem k _).draw (becomes_moved _ fun t => ⟨t.termX + 1, t.termY, rfl⟩)

theorem putcWrap_becomes (k : Kernel) : Becomes k (putcWrap k k.currTerm) k.term := by
  unfold putcWrap
  split
  · exact becomes_moved k fun t => ⟨0, t.termY + 1, rfl⟩
  · exact .refl k

theorem putcScroll_becomes (k : Kernel) : Becomes k (putcScroll k k.currTerm) k.term := by
  unfold putcScroll vertScroll
  rw [if_pos rfl]
  split
  · exact (becomes_videoMem k _).draw (becomes_moved _ fun _ => ⟨0, _, rfl⟩)
  · exact .refl k

theorem putc_becomes (k : Kernel) (c : UInt8) : Becomes k (putc k c k.currTerm) k.term := by
  unfold putc
  split
  · exact .refl k
  · have hdraw := putcDraw_becomes k c
    have hwrap := hdraw.draw (putcWrap_becomes _)
    rw [hdraw.currTerm] at hwrap
    have hscroll := hwrap.draw (putcScroll_becomes _)
    rw [hwrap.currTerm] at hscroll
    exact hscroll.draw (becomes_updateCursor _ _ _)

theorem puts_becomes (s : List UInt8) : ∀ k : Kernel, Becomes k (puts k s) k.term := by
  induction s with
  | nil => exact Becomes.refl
  | cons c s ih =>
    intro k
    exact (putc_becomes k c).draw (ih _)

theorem backspace_becomes (k : Kernel) : Becomes k (backspace k) k.term :=
  (becomes_moved k fun _ => ⟨_, _, rfl⟩).draw ((becomes_videoMem _ _).draw (becomes_updateCursor _ _ _))

theorem backspaces_becomes (k : Kernel) (n : Nat) : Becomes k (backspaces k n) k.term :=
  Run.forUp_invariant (fun _ k' => Becomes k k' k.term) n 0 k (.refl k)
    fun _ k' _ _ h => h.draw (backspace_becomes k')

theorem Becomes.line_eq (h : Becomes k k' t) : (k'.terminals k.currTerm).line = t.line := by
  obtain ⟨x, y, hxy⟩ := h.term
  rw [← h.currTerm]
  exact (congrArg Term.line hxy).trans rfl

/-! ## The history functions -/

/-- The line kept in the row it belongs to. -/
def Term.kept (t : Term) : Term :=
  { t with history := Function.update t.history t.historyIdx.toNat (strncpy t.bufView keyboardBufSize) }

/-- The line replaced by the row `history_idx`. -/
def Term.recalled (t : Term) : Term :=
  (t.copyRow (strncpy (t.history t.historyIdx.toNat) keyboardBufSize)).measure

/-- The latest line is kept before it is left. -/
def Term.keptLatest (t : Term) : Term := if t.absoluteHistoryIdx = t.historyIdx then t.kept else t

/-- Up. -/
def Term.movedUp (t : Term) : Term :=
  Term.recalled { t.keptLatest with historyIdx := if t.historyIdx - 1 ≥ 0 then t.historyIdx - 1 else 0 }

/-- Down. -/
def Term.movedDown (t : Term) : Term :=
  if t.absoluteHistoryIdx < t.historyIdx + 1 ∨ t.historyIdx + 1 > 99 then t
  else Term.recalled { t with historyIdx := t.historyIdx + 1 }

/-- The row is copied, and then the line is printed. -/
theorem recallRow_spec (h : Becomes k₀ k t) (h0 : 0 ≤ t.historyIdx) (h99 : t.historyIdx ≤ 99) :
    ∃ k₁, recallRow k = putLine k₁ ∧ SameCursor k.currTerm (backspaces k k.term.bufIdx.toNat) k₁ ∧
      Becomes k₀ k₁ t.recalled := by
  have h₁ := h.draw (backspaces_becomes k k.term.bufIdx.toNat)
  rw [recallRow_eq]
  generalize backspaces k k.term.bufIdx.toNat = k₁ at h₁ ⊢
  have hrow : strncpy (historyRow k₁ k₁.term.historyIdx) keyboardBufSize =
      strncpy (t.history t.historyIdx.toNat) keyboardBufSize := by
    obtain ⟨x, y, hxy⟩ := h₁.term
    rw [show k₁.term.historyIdx = t.historyIdx by rw [hxy]; rfl]
    refine strncpy_congr fun j hj => (historyRow_of_le k₁ h0 h99 hj).trans ?_
    rw [hxy]
    rfl
  dsimp only
  rw [hrow]
  have h₂ := h₁.modifyTerm (f := fun u => u.copyRow (strncpy (t.history t.historyIdx.toNat) keyboardBufSize))
    fun _ _ _ => rfl
  have hcopied := sameCursor_modifyTerm k.currTerm k₁ k₁.currTerm
    (f := fun u => u.copyRow (strncpy (t.history t.historyIdx.toNat) keyboardBufSize)) fun _ => ⟨rfl, rfl⟩
  exact ⟨_, rfl, hcopied.trans (sameCursor_modifyTerm k.currTerm _ _ fun _ => ⟨rfl, rfl⟩),
    h₂.modifyTerm Term.measure_moveTo⟩

theorem recallRow_becomes (h : Becomes k₀ k t) (h0 : 0 ≤ t.historyIdx) (h99 : t.historyIdx ≤ 99) :
    Becomes k₀ (recallRow k) t.recalled := by
  obtain ⟨k₁, hk₁, -, h₁⟩ := recallRow_spec h h0 h99
  rw [hk₁]
  exact h₁.draw (puts_becomes _ _)

theorem saveHistory_becomes (k : Kernel) (h0 : 0 ≤ k.term.historyIdx) (h99 : k.term.historyIdx ≤ 99) :
    ∃ k', saveHistory k k.term.historyIdx = some k' ∧ Becomes k k' k.term.kept := by
  unfold saveHistory
  dsimp only
  rw [if_pos ⟨h0, h99⟩]
  let line := strncpy k.term.bufView keyboardBufSize
  exact ⟨_, rfl, (Becomes.refl k).modifyTerm
    (f := fun t => { t with history := Function.update t.history k.term.historyIdx.toNat line }) fun _ _ _ => rfl⟩

theorem keepLatest_becomes (k : Kernel) (h0 : 0 ≤ k.term.historyIdx) (h99 : k.term.historyIdx ≤ 99) :
    ∃ k', keepLatest k = some k' ∧ Becomes k k' k.term.keptLatest := by
  unfold keepLatest Term.keptLatest
  split_ifs
  · exact saveHistory_becomes k h0 h99
  · exact ⟨k, rfl, .refl k⟩

/-- Up. -/
theorem moveUpHistory_becomes (k : Kernel) (h0 : 0 ≤ k.term.historyIdx) (h99 : k.term.historyIdx ≤ 99) :
    ∃ k', moveUpHistory k = some k' ∧ Becomes k k' k.term.movedUp := by
  obtain ⟨k₁, hk₁, h₁⟩ := keepLatest_becomes k h0 h99
  have hidx : k.term.keptLatest.historyIdx = k.term.historyIdx := by
    unfold Term.keptLatest
    split_ifs <;> rfl
  have h₂ := h₁.modifyTerm
    (f := fun t => { t with historyIdx := if t.historyIdx - 1 ≥ 0 then t.historyIdx - 1 else 0 }) fun _ _ _ => rfl
  unfold moveUpHistory Term.movedUp
  rw [hk₁, ← hidx]
  refine ⟨_, rfl, recallRow_becomes h₂ ?_ ?_⟩
  · dsimp only
    split_ifs <;> omega
  · dsimp only
    split_ifs <;> omega

/-- Down. -/
theorem moveDownHistory_becomes (k : Kernel) (h0 : 0 ≤ k.term.historyIdx) :
    Becomes k (moveDownHistory k) k.term.movedDown := by
  unfold moveDownHistory Term.movedDown
  split_ifs with hstay
  · exact .refl k
  · have h₁ := (Becomes.refl k).modifyTerm (f := fun t => { t with historyIdx := t.historyIdx + 1 }) fun _ _ _ => rfl
    exact recallRow_becomes h₁ (by dsimp only; omega) (by dsimp only; omega)

/-! ## What is shown -/

/-- The string at `keyboard_buf`. -/
def Term.text (t : Term) : List UInt8 := bytesAt t.bufView t.strlenBuf

/-- The line that a row of the history holds. -/
def lineOf (row : Nat → UInt8) : List UInt8 := cstr (bytesAt row keyboardBufSize)

/-- A key replaces the line: on the screen, as many cells as `buf_idx` counts are erased and `text` is printed; the
buffer holds `text`, and the index is at its end. -/
structure ShowsLine (k k' : Kernel) (text : List UInt8) : Prop where
  screen : ∃ k₁, SameCursor k.currTerm (backspaces k k.term.bufIdx.toNat) k₁ ∧ k' = puts k₁ k₁.term.text ∧
    k₁.term.text = text
  line : Contains k'.term.line text

theorem lineOf_length (row : Nat → UInt8) : (lineOf row).length = strnlen row keyboardBufSize :=
  (strnlen_eq row keyboardBufSize).symm

theorem lineOf_ofList {s : List UInt8} (hs : 0 ∉ s) (hlen : s.length ≤ 128) : lineOf (ofList s) = s := by
  rw [lineOf, cstr_bytesAt_ofList, cstr_eq_self hs]
  exact List.take_of_length_le hlen

theorem Term.text_moveTo (t : Term) (x y : Int) : (t.moveTo x y).text = t.text := by
  unfold text
  rw [Term.bufView_moveTo, Term.strlenBuf_moveTo]

theorem Becomes.text_eq (h : Becomes k k' t) : k'.term.text = t.text := by
  obtain ⟨x, y, hxy⟩ := h.term
  rw [hxy, Term.text_moveTo]

/-- A full buffer is followed by `buf_idx`, which is not 0 there. -/
theorem Contains.text_eq_iff {content : List UInt8} (h : Contains t.line content) :
    t.text = content ↔ content.length ≤ 127 := by
  obtain ⟨hle, heq⟩ := h.strlenBuf
  have hlen := h.length_le
  constructor
  · intro htext
    by_contra hfull
    have hbuf : t.bufIdx = 128 := by
      have hidx : t.bufIdx = content.length := h.idx
      omega
    have hlong : 129 ≤ t.strlenBuf := by
      refine le_strnlen (by decide) fun i hi => ?_
      obtain hlt | rfl : i < 128 ∨ i = 128 := by omega
      · exact Term.bufView_ne_of_holds h.holds h.nonzero (by omega)
      · rw [t.bufView_bufIdx (j := 0) (by decide), hbuf]
        decide
    have := congrArg List.length htext
    rw [Term.text, bytesAt, List.length_map, List.length_range] at this
    omega
  · intro hroom
    rw [Term.text, heq hroom, bytesAt_congr fun i hi => t.bufView_of_lt (by omega), bytesAt]
    exact (h.holds.map_range (le_refl _)).trans (List.take_length)

theorem terminated_iff (row : Nat → UInt8) : Terminated row ↔ (lineOf row).length ≤ 127 := by
  rw [lineOf_length]
  exact Nat.lt_succ_iff

theorem lineOf_strncpy (row : Nat → UInt8) : lineOf (strncpy row keyboardBufSize) = lineOf row := by
  rw [strncpy_eq_ofList]
  exact lineOf_ofList (zero_notMem_cstr _) (by rw [← strnlen_eq]; exact strnlen_le _ _)

/-- The line as the history takes it. -/
theorem Contains.lineOf_bufView {s : List UInt8} (h : Contains t.line s) : lineOf t.bufView = s := by
  have hbytes : bytesAt t.bufView 128 = bytesAt (ofList s) 128 :=
    bytesAt_congr fun i hi => Term.bufView_of_holds h.holds hi
  exact (congrArg cstr hbytes).trans (lineOf_ofList h.nonzero h.length_le)

/-- The buffer after a row that ends with a NUL was copied into it. -/
theorem contains_recalled (h : Terminated (t.history t.historyIdx.toNat)) :
    Contains t.recalled.line (lineOf (t.history t.historyIdx.toNat)) := by
  have hlen := lineOf_length (t.history t.historyIdx.toNat)
  have hcopy : t.copyRow (strncpy (t.history t.historyIdx.toNat) keyboardBufSize) =
      t.copyRow (ofList (lineOf (t.history t.historyIdx.toNat))) := by
    rw [strncpy_eq_ofList]
    rfl
  refine ⟨⟨?_, fun j hj => ?_⟩, ?_, zero_notMem_cstr _⟩
  · rw [hlen]
    exact strnlen_le _ _
  · show (t.copyRow _).keyboardBuf j = _
    rw [hcopy]
    exact if_pos hj
  · rw [hlen]
    exact congrArg Int.ofNat (strlenBuf_of_terminated (fun j hj => if_pos hj) h)

theorem backspace_sameCursor (h : SameCursor k.currTerm k k') : SameCursor k.currTerm (backspace k) (backspace k') := by
  have hshown : (backspace k').terminals k.currTerm = (backspace k').term := by
    rw [← h.currTerm]
    rfl
  have hterm : (backspace k').term.termX = (backspace k).term.termX ∧
      (backspace k').term.termY = (backspace k).term.termY := by
    rw [backspace_term, backspace_term, Kernel.term, h.currTerm]
    dsimp only
    rw [h.x, h.y]
    exact ⟨rfl, rfl⟩
  refine ⟨h.currTerm, ?_, ?_, ?_⟩
  · rw [backspace_videoMem, backspace_videoMem, h.videoMem, hterm.1, hterm.2]
  · rw [hshown]
    exact hterm.1
  · rw [hshown]
    exact hterm.2

theorem backspaces_sameCursor (h : SameCursor k.currTerm k k') (n : Nat) :
    SameCursor k.currTerm (backspaces k n) (backspaces k' n) := by
  induction n with
  | zero => exact h
  | succ n ih =>
    have hlast : ∀ k, backspaces k (n + 1) = backspace (backspaces k n) := fun k => Run.forUp_succ_last _ n 0 k
    have hterm := (backspaces_becomes k n).currTerm
    rw [hlast, hlast, ← hterm]
    rw [← hterm] at ih
    exact backspace_sameCursor ih

/-- A recall shows the row exactly if it ends with a NUL. -/
theorem recallRow_shows_iff (hs : SameCursor k₀.currTerm k₀ k) (hidx : k.term.bufIdx = k₀.term.bufIdx)
    (h0 : 0 ≤ k.term.historyIdx) (h99 : k.term.historyIdx ≤ 99) :
    ShowsLine k₀ (recallRow k) (lineOf (k.term.history k.term.historyIdx.toNat)) ↔
      Terminated (k.term.history k.term.historyIdx.toNat) := by
  obtain ⟨k₁, hk₁, hcursor, h₁⟩ := recallRow_spec (.refl k) h0 h99
  have hlen := lineOf_length (k.term.history k.term.historyIdx.toNat)
  rw [hk₁]
  constructor
  · intro h
    obtain ⟨k₂, -, hk₂, htext⟩ := h.screen
    have hsame : (putLine k₁).term.text = lineOf (k.term.history k.term.historyIdx.toNat) := by
      rw [hk₂, (puts_becomes _ k₂).text_eq, htext]
    have hroom := h.line.text_eq_iff.mp hsame
    rw [hlen] at hroom
    exact Nat.lt_of_le_of_lt hroom (by decide)
  · intro h
    have hrecalled := contains_recalled h
    have hline : (putLine k₁).term.line = k.term.recalled.line := by
      rw [← (h₁.draw (puts_becomes _ _)).line_eq, ← (h₁.draw (puts_becomes k₁.term.text k₁)).currTerm]
      rfl
    have htext : k₁.term.text = lineOf (k.term.history k.term.historyIdx.toNat) := by
      rw [h₁.text_eq]
      refine hrecalled.text_eq_iff.mpr ?_
      rw [hlen]
      exact Nat.le_of_lt_succ h
    refine ⟨⟨k₁, ?_, rfl, htext⟩, hline ▸ hrecalled⟩
    rw [← hidx]
    rw [hs.currTerm] at hcursor
    exact (backspaces_sameCursor hs _).trans hcursor

/-- Up shows the row it recalls exactly if it ends with a NUL. -/
theorem moveUpHistory_shows (k : Kernel) (h0 : 0 ≤ k.term.historyIdx) (h99 : k.term.historyIdx ≤ 99) :
    ∃ k', moveUpHistory k = some k' ∧ Becomes k k' k.term.movedUp ∧
      ∀ r : Nat, k.term.movedUp.historyIdx = r → (ShowsLine k k' (lineOf (k.term.movedUp.history r)) ↔
        Terminated (k.term.movedUp.history r)) := by
  obtain ⟨k', hk', hbecomes⟩ := moveUpHistory_becomes k h0 h99
  refine ⟨k', hk', hbecomes, fun r hr => ?_⟩
  obtain ⟨k₁, hk₁, h₁⟩ := keepLatest_becomes k h0 h99
  obtain ⟨x, y, hxy⟩ := h₁.term
  have hfields : k.term.keptLatest.bufIdx = k.term.bufIdx ∧ k.term.keptLatest.historyIdx = k.term.historyIdx := by
    unfold Term.keptLatest
    split_ifs <;> exact ⟨rfl, rfl⟩
  unfold moveUpHistory at hk'
  rw [hk₁, Option.map_some, Option.some_inj] at hk'
  subst hk'
  generalize hk₂ : (k₁.modifyTerm k₁.currTerm fun t =>
    { t with historyIdx := if t.historyIdx - 1 ≥ 0 then t.historyIdx - 1 else 0 }) = k₂
  have hterm : k₂.term = { k.term.keptLatest.moveTo x y with
      historyIdx := if k.term.historyIdx - 1 ≥ 0 then k.term.historyIdx - 1 else 0 } := by
    rw [← hk₂, term_modifyTerm, hxy, ← hfields.2]
    rfl
  have hidx : k₂.term.historyIdx = r := by
    rw [hterm, ← hr]
    rfl
  have hhistory : k₂.term.history = k.term.movedUp.history := by
    rw [hterm]
    rfl
  have hcursor : SameCursor k.currTerm k k₂ := by
    rw [← hk₂]
    exact (keepLatest_sameCursor h0 hk₁).trans (sameCursor_modifyTerm _ _ _ fun _ => ⟨rfl, rfl⟩)
  have hshows := recallRow_shows_iff hcursor (by rw [hterm]; exact hfields.1) (by omega) (by
    rw [hterm]
    dsimp only
    split_ifs <;> omega)
  rwa [hidx, hhistory, Int.toNat_natCast] at hshows

/-- Down, where it moves. -/
theorem moveDownHistory_shows (k : Kernel) {r : Nat} (hidx : k.term.historyIdx = r) (hmoves : MovesDown k) :
    ShowsLine k (moveDownHistory k) (lineOf (k.term.history (r + 1))) ↔ Terminated (k.term.history (r + 1)) := by
  have hmoves' : ¬ (k.term.absoluteHistoryIdx < k.term.historyIdx + 1 ∨ k.term.historyIdx + 1 > 99) := hmoves
  unfold moveDownHistory
  rw [if_neg hmoves']
  generalize hk₂ : (k.modifyTerm k.currTerm fun t => { t with historyIdx := t.historyIdx + 1 }) = k₂
  have hterm : k₂.term = { k.term with historyIdx := ((r + 1 : Nat) : Int) } := by
    rw [← hk₂, term_modifyTerm, hidx]
    rfl
  have hcursor : SameCursor k.currTerm k k₂ := by
    rw [← hk₂]
    exact sameCursor_modifyTerm _ _ _ fun _ => ⟨rfl, rfl⟩
  have hshows := recallRow_shows_iff hcursor (by rw [hterm]) (by rw [hterm]; exact Int.natCast_nonneg _)
    (by rw [hterm]; dsimp only; omega)
  rwa [hterm] at hshows

end BasicOs
