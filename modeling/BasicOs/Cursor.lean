import BasicOs.History
import BasicOs.Screens

/-!
# The cursor of the displayed terminal

Whether output keeps the cursor on the 80x25 grid and stays inside the 4000 bytes of the screen. `putc` and `clear`
always do. `backspace` does from column 1 on; from column 0 it goes to column -1, since the row it would borrow is
divided away.

* `OnScreen k k'` : from `k` to `k'` the output stayed on the screen, with one lemma for each output function;
* `SameCursor t k k'` : there was no output, with one lemma for each function that stores into the terminals.
-/

namespace BasicOs
open Bytes Run TextScreen

/-! ## Output on the displayed screen -/

/-- The cursor is on the 80x25 grid. -/
def Term.OnGrid (t : Term) : Prop := (0 ≤ t.termX ∧ t.termX < 80) ∧ 0 ≤ t.termY ∧ t.termY < 25

/-- An address outside the 4000 bytes of the screen. -/
def OffScreen (a : Int) : Prop := ¬ (video ≤ a ∧ a < video + 4000)

/-- From `k` to `k'` the displayed terminal is the same, its cursor ends on the grid, and the video memory has
changed on the screen only. -/
structure OnScreen (k k' : Kernel) : Prop where
  currTerm : k'.currTerm = k.currTerm
  grid : k'.term.OnGrid
  mem : ∀ a, OffScreen a → k'.videoMem a = k.videoMem a

variable {k₀ k k' : Kernel}

theorem OnScreen.refl (h : k.term.OnGrid) : OnScreen k k := ⟨rfl, h, fun _ _ => rfl⟩

theorem logicalPage_currTerm (k : Kernel) : logicalPage k k.currTerm = video := if_pos rfl

/-- A terminal with its cursor on the grid shows some screen. -/
theorem Term.OnGrid.shows (h : k.term.OnGrid) : ∃ s : LoneScreen, Shows k k.currTerm s := by
  obtain ⟨⟨hx0, hx⟩, hy0, hy⟩ := h
  refine ⟨{ cells := cellsAt k.videoMem (logicalPage k k.currTerm)
            x := ⟨k.term.termX.toNat, by omega⟩, y := ⟨k.term.termY.toNat, by omega⟩ }, ?_, ?_, rfl⟩
  · exact (Int.toNat_of_nonneg hx0).symm
  · exact (Int.toNat_of_nonneg hy0).symm

theorem Shows.onGrid {t : Fin 3} {s : LoneScreen} (h : Shows k t s) : (k.terminals t).OnGrid := by
  have hx := s.x.isLt
  have hy := s.y.isLt
  unfold Term.OnGrid
  rw [h.x_eq, h.y_eq]
  omega

/-- Output that is confined to the displayed terminal and leaves its cursor on the grid. -/
theorem OnScreen.confined (h : OnScreen k₀ k) (hc : Confined k.currTerm k k') (hg : k'.term.OnGrid) :
    OnScreen k₀ k' where
  currTerm := hc.currTerm.trans h.currTerm
  grid := hg
  mem a ha := by
    rw [← h.mem a ha]
    exact hc.mem a (by rw [logicalPage_currTerm]; exact ha)

theorem OnScreen.putc (h : OnScreen k₀ k) (c : UInt8) : OnScreen k₀ (putc k c k.currTerm) := by
  obtain ⟨s, hs⟩ := h.grid.shows
  have hc := putc_confined hs c
  apply h.confined hc
  rw [Kernel.term, hc.currTerm]
  exact (putc_shows hs c).onGrid

theorem OnScreen.puts (s : List UInt8) (h : OnScreen k₀ k) : OnScreen k₀ (puts k s) := by
  induction s generalizing k with
  | nil => exact h
  | cons c s ih => exact ih (h.putc c)

theorem OnScreen.clear (h : OnScreen k₀ k) : OnScreen k₀ (clear k) := by
  have hc := clear_confined k
  apply h.confined hc
  rw [Kernel.term, hc.currTerm]
  exact (clear_shows k (Screen.cleared blankCell)).onGrid

/-! ## `backspace` -/

theorem backspace_term (k : Kernel) : (backspace k).term =
    let x := (k.term.termX - 1).tmod 80
    k.term.moveTo x ((k.term.termY + x.tdiv 80).tmod 25) :=
  Function.update_self ..

theorem backspace_videoMem (k : Kernel) : (backspace k).videoMem =
    putCell k.videoMem (video + (80 * (backspace k).term.termY + (backspace k).term.termX) * 2) 0 := rfl

/-- On the grid, from column 1 on, the cursor moves one column back. -/
theorem backspace_moves (h : k.term.OnGrid) (hx : 1 ≤ k.term.termX) :
    (backspace k).term = k.term.moveTo (k.term.termX - 1) k.term.termY := by
  obtain ⟨⟨-, hx'⟩, hy0, hy⟩ := h
  have ex : (k.term.termX - 1).tmod 80 = k.term.termX - 1 := Int.tmod_eq_of_lt (by omega) (by omega)
  have ed : (k.term.termX - 1).tdiv 80 = 0 := Int.tdiv_eq_zero_of_lt (by omega) (by omega)
  rw [backspace_term]
  dsimp only
  rw [ex, ed, add_zero, Int.tmod_eq_of_lt hy0 hy]

theorem backspace_confined (h : (backspace k).term.OnGrid) : Confined k.currTerm k (backspace k) := by
  obtain ⟨⟨hx0, hx⟩, hy0, hy⟩ := h
  refine ⟨rfl, fun u hu => Function.update_of_ne hu .., ?_, fun a ha => ?_⟩
  · show ((backspace k).term).vidmem = _
    rw [backspace_term]
    rfl
  · rw [logicalPage_currTerm] at ha
    rw [backspace_videoMem, putCell_apply, if_neg (by omega), if_neg (by omega)]

theorem OnScreen.backspace (h : OnScreen k₀ k) (hx : 1 ≤ k.term.termX) :
    OnScreen k₀ (backspace k) ∧ (BasicOs.backspace k).term.termX = k.term.termX - 1 := by
  have hm := backspace_moves h.grid hx
  have hg : (BasicOs.backspace k).term.OnGrid := by
    obtain ⟨⟨-, hx'⟩, hy⟩ := h.grid
    rw [hm]
    exact ⟨⟨show 0 ≤ k.term.termX - 1 by omega, show k.term.termX - 1 < 80 by omega⟩, hy⟩
  exact ⟨h.confined (backspace_confined hg) hg, by rw [hm]; rfl⟩

/-- As many characters as stand before the cursor in its row can be erased. -/
theorem OnScreen.backspaces (h : OnScreen k₀ k) {n : Nat} (hn : (n : Int) ≤ k.term.termX) :
    OnScreen k₀ (backspaces k n) := by
  -- before round `i`, the cursor is `i` columns back
  have hinv : OnScreen k₀ (BasicOs.backspaces k n) ∧
      (BasicOs.backspaces k n).term.termX = k.term.termX - (0 + n : Nat) := by
    apply forUp_invariant (fun i k' => OnScreen k₀ k' ∧ k'.term.termX = k.term.termX - i) n 0 k ⟨h, by omega⟩
    intro i k' _ hi ⟨h', hx'⟩
    obtain ⟨hs, hx⟩ := h'.backspace (by omega)
    exact ⟨hs, by rw [hx, hx']; omega⟩
  exact hinv.1

/-! ## Stores -/

/-- From `k` to `k'` there was no output, and terminal `t` has the same cursor. -/
structure SameCursor (t : Fin 3) (k k' : Kernel) : Prop where
  currTerm : k'.currTerm = k.currTerm
  videoMem : k'.videoMem = k.videoMem
  x : (k'.terminals t).termX = (k.terminals t).termX
  y : (k'.terminals t).termY = (k.terminals t).termY

variable {t : Fin 3}

theorem SameCursor.refl (t : Fin 3) (k : Kernel) : SameCursor t k k := ⟨rfl, rfl, rfl, rfl⟩

theorem SameCursor.trans {k₁ k₂ k₃ : Kernel} (h₁ : SameCursor t k₁ k₂) (h₂ : SameCursor t k₂ k₃) :
    SameCursor t k₁ k₃ :=
  ⟨h₂.currTerm.trans h₁.currTerm, h₂.videoMem.trans h₁.videoMem, h₂.x.trans h₁.x, h₂.y.trans h₁.y⟩

theorem SameCursor.term_x (h : SameCursor k.currTerm k k') : k'.term.termX = k.term.termX := by
  rw [Kernel.term, h.currTerm]
  exact h.x

theorem OnScreen.sameCursor (h : OnScreen k₀ k) (hs : SameCursor k.currTerm k k') : OnScreen k₀ k' where
  currTerm := hs.currTerm.trans h.currTerm
  grid := by
    unfold Term.OnGrid
    rw [Kernel.term, hs.currTerm, hs.x, hs.y]
    exact h.grid
  mem a ha := by
    rw [hs.videoMem]
    exact h.mem a ha

theorem sameCursor_modifyTerm (t : Fin 3) (k : Kernel) (u : Fin 3) {f : Term → Term}
    (hf : ∀ term, (f term).termX = term.termX ∧ (f term).termY = term.termY) :
    SameCursor t k (k.modifyTerm u f) := by
  by_cases htu : t = u
  · subst htu
    refine ⟨rfl, rfl, ?_, ?_⟩
    · rw [Kernel.modifyTerm_terminals_self, (hf _).1]
    · rw [Kernel.modifyTerm_terminals_self, (hf _).2]
  · refine ⟨rfl, rfl, ?_, ?_⟩
    · rw [Kernel.modifyTerm_terminals_of_ne _ _ htu]
    · rw [Kernel.modifyTerm_terminals_of_ne _ _ htu]

/-- The cursor is in the first two words of a terminal. -/
theorem Term.setByte_cursor (term : Term) {i : Nat} (hi : 8 ≤ i) (c : UInt8) :
    (term.setByte i c).termX = term.termX ∧ (term.setByte i c).termY = term.termY := by
  have hword : ∀ (v : Int) {n : Nat}, 2 ≤ n →
      (term.setWord v n).termX = term.termX ∧ (term.setWord v n).termY = term.termY := by
    intro v n hn
    have hx : (term.setWord v n).word 0 = term.word 0 := term.word_setWord_of_ne v (by omega)
    have hy : (term.setWord v n).word 1 = term.word 1 := term.word_setWord_of_ne v (by omega)
    exact ⟨hx, hy⟩
  unfold setByte
  split_ifs
  · exact ⟨rfl, rfl⟩
  · exact hword _ (by omega)
  · exact ⟨rfl, rfl⟩

theorem storeTerms_sameCursor {a : Int} {c : UInt8} (ha : (t.val * termSize + 8 : Nat) ≤ a)
    (h : k.storeTerms a c = some k') : SameCursor t k k' := by
  unfold Kernel.storeTerms at h
  split_ifs at h with hneg hin
  · cases h
    by_cases ht : t = ⟨a.toNat / termSize, hin⟩
    · have hval := congrArg Fin.val ht
      have hbyte : 8 ≤ a.toNat % termSize := by
        simp only [termSize] at *
        omega
      rw [← ht]
      refine ⟨rfl, rfl, ?_, ?_⟩
      · rw [Kernel.modifyTerm_terminals_self, (Term.setByte_cursor _ hbyte c).1]
      · rw [Kernel.modifyTerm_terminals_self, (Term.setByte_cursor _ hbyte c).2]
    · refine ⟨rfl, rfl, ?_, ?_⟩
      · rw [Kernel.modifyTerm_terminals_of_ne _ _ ht]
      · rw [Kernel.modifyTerm_terminals_of_ne _ _ ht]
  · cases h
    exact ⟨rfl, rfl, rfl, rfl⟩

theorem pokeBuf_sameCursor {i : Int} {c : UInt8} (hi : -8 ≤ i) (h : k.pokeBuf t i c = some k') :
    SameCursor t k k' := by
  refine storeTerms_sameCursor ?_ h
  simp only [termSize]
  omega

theorem pokeAll_sameCursor {stores : List (Int × UInt8)} (hs : ∀ s ∈ stores, 0 ≤ s.1)
    (h : k.pokeAll t stores = some k') : SameCursor t k k' := by
  refine foldlM_invariant (SameCursor t k) stores ?_ (SameCursor.refl t k) h
  intro s hmem k₁ k₂ h₁ h₂
  have := hs s hmem
  exact h₁.trans (pokeBuf_sameCursor (by omega) h₂)

/-- The line is saved in a row that is not before the array. -/
theorem saveHistory_sameCursor {row : Int} (hrow : 0 ≤ row) (h : saveHistory k row = some k') :
    SameCursor k.currTerm k k' := by
  unfold saveHistory at h
  dsimp only at h
  split_ifs at h
  · cases h
    exact sameCursor_modifyTerm _ k _ fun _ => ⟨rfl, rfl⟩
  · refine foldlM_invariant (SameCursor k.currTerm k) _ ?_ (SameCursor.refl _ k) h
    intro j _ k₁ k₂ h₁ h₂
    refine h₁.trans (storeTerms_sameCursor ?_ h₂)
    rw [h₁.currTerm]
    simp only [historyAddr, termSize]
    omega

theorem recordLine_sameCursor (hrow : 0 ≤ k.term.historyIdx) (h : recordLine k = some k') :
    SameCursor k.currTerm k k' := by
  unfold recordLine at h
  split_ifs at h
  · obtain ⟨k₁, h₁, h⟩ := Option.bind_eq_some_iff.mp h
    have hs := saveHistory_sameCursor hrow h₁
    split at h
    · cases h
      exact hs.trans (sameCursor_modifyTerm _ k₁ _ fun _ => ⟨rfl, rfl⟩)
    · cases h
      exact hs
  · cases h
    exact SameCursor.refl _ k

theorem keepLatest_sameCursor (hrow : 0 ≤ k.term.historyIdx) (h : keepLatest k = some k') :
    SameCursor k.currTerm k k' := by
  unfold keepLatest at h
  split_ifs at h
  · exact saveHistory_sameCursor hrow h
  · cases h
    exact SameCursor.refl _ k

/-- The NUL goes to the character before the index, or to the byte before the array; the index does not become
negative. -/
theorem deleteFromBuf_sameCursor (h0 : 0 ≤ k.term.bufIdx) (h : deleteFromBuf k = some k') :
    SameCursor k.currTerm k k' ∧ 0 ≤ k'.term.bufIdx := by
  unfold deleteFromBuf at h
  obtain ⟨k₁, h₁, h⟩ := Option.bind_eq_some_iff.mp h
  have hidx : (k.modifyTerm k.currTerm fun t => { t with bufIdx := t.bufIdx - 1 }).term.bufIdx =
      k.term.bufIdx - 1 := by
    rw [term_modifyTerm]
  have hdec : SameCursor k.currTerm k (k.modifyTerm k.currTerm fun t => { t with bufIdx := t.bufIdx - 1 }) :=
    sameCursor_modifyTerm _ k _ fun _ => ⟨rfl, rfl⟩
  generalize (k.modifyTerm k.currTerm fun t => { t with bufIdx := t.bufIdx - 1 }) = k₂ at h₁ hidx hdec
  rw [hdec.currTerm, hidx] at h₁
  have hs := hdec.trans (pokeBuf_sameCursor (by omega) h₁)
  split_ifs at h with hneg
  · cases h
    refine ⟨hs.trans (sameCursor_modifyTerm _ k₁ _ fun _ => ⟨rfl, rfl⟩), ?_⟩
    rw [term_modifyTerm]
  · cases h
    exact ⟨hs, not_lt.mp hneg⟩

/-- The newline may go to a byte of the index itself, when the line is full; the index does not become negative
either. -/
theorem Term.setByte_newline (term : Term) (h0 : 0 ≤ term.bufIdx) :
    0 ≤ (term.setByte (16 + term.bufIdx).toNat chNewline).bufIdx := by
  unfold setByte
  split_ifs with hbuf hword
  · exact h0
  · by_cases hown : (16 + term.bufIdx).toNat / 4 = 36
    · have hself : term.word 36 = term.bufIdx := rfl
      rw [hown, hself]
      show 0 ≤ setIntByte term.bufIdx _ _
      obtain h | h | h | h : term.bufIdx = 128 ∨ term.bufIdx = 129 ∨ term.bufIdx = 130 ∨ term.bufIdx = 131 := by omega
      all_goals
        rw [h]
        decide
    · rw [term.setWord_bufIdx _ hown]
      exact h0
  · exact h0

theorem pokeNewline_bufIdx (h0 : 0 ≤ k.term.bufIdx)
    (h : k.pokeBuf k.currTerm k.term.bufIdx chNewline = some k') : 0 ≤ k'.term.bufIdx := by
  by_cases hin : k.term.bufIdx < 12968
  · rw [k.pokeBuf_eq _ (by omega) hin] at h
    cases h
    rw [term_modifyTerm]
    exact k.term.setByte_newline h0
  · obtain ⟨k₁, hk₁, hc, ht⟩ := k.storeTerms_of_ge (t := k.currTerm)
      (a := k.currTerm.val * termSize + 16 + k.term.bufIdx) (by simp only [termSize]; omega) chNewline
    obtain rfl : k' = k₁ := Option.some.inj (h.symm.trans hk₁)
    rw [Kernel.term, hc, ht]
    exact h0

end BasicOs
