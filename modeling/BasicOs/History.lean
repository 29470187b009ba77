import BasicOs.LineEditor

/-!
# The history

What Up and Down do to the line. The rows of the history are read and written as memory: a row number of 100 or
more lies in the terminals that follow, or after them.

* `historyRow k row` : the bytes of a row; `rowAbove`, `rowBelow` : the rows that Up and Down recall;
* `moveUpHistory_line`, `moveDownHistory_line` : the line becomes that row, and the new index is at most 128
  exactly if the row has a NUL or the old index is 0.
-/

namespace BasicOs
open Bytes

/-! ## Stores below which nothing changes -/

theorem Term.word_setWord_of_ne (t : Term) (v : Int) {m n : Nat} (h : m ≠ n) :
    (t.setWord v n).word m = t.word m := by
  unfold setWord
  split
  all_goals
    unfold word
    split
  all_goals first
    | rfl
    | exact absurd rfl h

/-- Word 36 is the index of the line. -/
theorem Term.setWord_bufIdx (t : Term) (v : Int) {n : Nat} (hn : n ≠ 36) : (t.setWord v n).bufIdx = t.bufIdx :=
  t.word_setWord_of_ne v hn.symm

theorem Term.word_setWord_self (t : Term) (v : Int) (n : Nat) :
    (t.setWord v n).word n = v ∨ (t.setWord v n).word n = t.word n := by
  unfold setWord
  split
  all_goals first
    | exact Or.inl rfl
    | exact Or.inr rfl

theorem Term.setWord_arrays (t : Term) (v : Int) (n : Nat) :
    (t.setWord v n).keyboardBuf = t.keyboardBuf ∧ (t.setWord v n).history = t.history := by
  unfold setWord
  split <;> exact ⟨rfl, rfl⟩

theorem Term.byteAt_setByte_of_lt (t : Term) {i j : Nat} (h : j < i) (c : UInt8) :
    (t.setByte i c).byteAt j = t.byteAt j := by
  unfold setByte
  by_cases hbuf : 16 ≤ i ∧ i < 144
  · rw [if_pos hbuf]
    unfold byteAt
    dsimp only
    rw [Function.update_apply]
    split_ifs
    · omega
    · rfl
    · rfl
    · rfl
  rw [if_neg hbuf]
  by_cases hword : i < 184
  · rw [if_pos hword]
    obtain ⟨hb, hh⟩ := t.setWord_arrays (setIntByte (t.word (i / 4)) (i % 4) c) (i / 4)
    unfold byteAt
    rw [hb, hh]
    by_cases hsame : j / 4 = i / 4
    · rw [hsame]
      rcases t.word_setWord_self (setIntByte (t.word (i / 4)) (i % 4) c) (i / 4) with hself | hself
      · rw [hself, intByte_setIntByte_of_lt _ (by omega) (by omega)]
      · rw [hself]
    · rw [t.word_setWord_of_ne _ hsame]
  · rw [if_neg hword]
    unfold byteAt
    dsimp only
    rw [Function.update_apply]
    split_ifs with h1 h2 h3
    · rfl
    · rfl
    · rw [Function.update_of_ne (by omega), h3]
    · rfl

variable {k k' : Kernel}

theorem Kernel.termsByte_storeTerms_of_lt {a : Int} {c : UInt8} (h : k.storeTerms a c = some k') {b : Nat}
    (hb : (b : Int) < a) : k'.termsByte b = k.termsByte b := by
  unfold storeTerms at h
  rw [if_neg (by omega)] at h
  unfold termsByte
  split_ifs at h with hin
  · cases h
    split_ifs with hbin
    · by_cases hsame : (⟨b / termSize, hbin⟩ : Fin 3) = ⟨a.toNat / termSize, hin⟩
      · rw [hsame, modifyTerm_terminals_self, Term.byteAt_setByte_of_lt]
        have := Fin.mk.inj hsame
        simp only [termSize] at this ⊢
        omega
      · rw [modifyTerm_terminals_of_ne _ _ hsame]
    · rfl
  · cases h
    split_ifs with hbin
    · rfl
    · dsimp only
      rw [Function.update_of_ne]
      simp only [termSize] at hin hbin ⊢
      omega

/-- A store behind a terminal leaves it alone. -/
theorem Kernel.storeTerms_of_ge (k : Kernel) {t : Fin 3} {a : Int} (ha : ((t.val + 1) * termSize : Nat) ≤ a)
    (c : UInt8) : ∃ k', k.storeTerms a c = some k' ∧ k'.currTerm = k.currTerm ∧ k'.terminals t = k.terminals t := by
  unfold storeTerms
  rw [if_neg (by omega)]
  split_ifs with hin
  · refine ⟨_, rfl, rfl, modifyTerm_terminals_of_ne _ _ ?_⟩
    rintro rfl
    simp only [termSize] at *
    omega
  · exact ⟨_, rfl, rfl, rfl⟩

/-! ## Rows -/

theorem Term.byteAt_history (t : Term) {i : Nat} (h : 184 ≤ i) :
    t.byteAt i = t.history ((i - 184) / 128) ((i - 184) % 128) := by
  rw [byteAt, if_neg (by omega), if_neg (by omega)]

/-- The bytes from row `row` of the displayed terminal's history on. -/
def historyRow (k : Kernel) (row : Int) : Nat → UInt8 := fun j => k.termsByte (historyAddr k.currTerm row + j).toNat

/-- The memory that the rows are read from. -/
structure SameRows (k k' : Kernel) : Prop where
  currTerm : k'.currTerm = k.currTerm
  after : k'.afterTerminals = k.afterTerminals
  others : ∀ u, u ≠ k.currTerm → k'.terminals u = k.terminals u
  history : (k'.terminals k.currTerm).history = (k.terminals k.currTerm).history

theorem SameRows.refl (k : Kernel) : SameRows k k := ⟨rfl, rfl, fun _ _ => rfl, rfl⟩

theorem SameRows.trans {k₁ k₂ k₃ : Kernel} (h₁ : SameRows k₁ k₂) (h₂ : SameRows k₂ k₃) : SameRows k₁ k₃ where
  currTerm := h₂.currTerm.trans h₁.currTerm
  after := h₂.after.trans h₁.after
  others u hu := (h₂.others u (by rw [h₁.currTerm]; exact hu)).trans (h₁.others u hu)
  history := by
    rw [← h₁.history, ← h₁.currTerm]
    exact h₂.history

theorem sameRows_modifyTerm (k : Kernel) {f : Term → Term} (hf : ∀ t, (f t).history = t.history) :
    SameRows k (k.modifyTerm k.currTerm f) where
  currTerm := rfl
  after := rfl
  others u hu := Kernel.modifyTerm_terminals_of_ne _ _ hu
  history := by rw [Kernel.modifyTerm_terminals_self, hf]

theorem historyAddr_toNat (t : Fin 3) {row : Int} (hrow : 0 ≤ row) (j : Nat) :
    (historyAddr t row + j).toNat = t.val * 12984 + (184 + 128 * row.toNat + j) := by
  simp only [historyAddr, termSize]
  omega

theorem SameRows.historyRow_eq (h : SameRows k k') {row : Int} (hrow : 0 ≤ row) (j : Nat) :
    historyRow k' row j = historyRow k row j := by
  have ht := k.currTerm.isLt
  unfold historyRow Kernel.termsByte
  rw [h.currTerm, historyAddr_toNat _ hrow]
  split_ifs with hin
  · by_cases hown : (⟨_, hin⟩ : Fin 3) = k.currTerm
    · rw [hown]
      have hval := congrArg Fin.val hown
      have hrows : 184 ≤ (k.currTerm.val * 12984 + (184 + 128 * row.toNat + j)) % termSize := by
        simp only [termSize] at hval ⊢
        omega
      rw [Term.byteAt_history _ hrows, Term.byteAt_history _ hrows, h.history]
    · rw [h.others _ hown]
  · rw [h.after]

/-- A row of the array. -/
theorem historyRow_of_le (k : Kernel) {row : Int} (hrow : 0 ≤ row) (hle : row ≤ 99) {j : Nat} (hj : j < 128) :
    historyRow k row j = k.term.history row.toNat j := by
  have ht := k.currTerm.isLt
  unfold historyRow Kernel.termsByte
  rw [historyAddr_toNat _ hrow]
  have hdiv : (k.currTerm.val * 12984 + (184 + 128 * row.toNat + j)) / termSize = k.currTerm.val := by
    simp only [termSize]
    omega
  have hmod : (k.currTerm.val * 12984 + (184 + 128 * row.toNat + j)) % termSize = 184 + 128 * row.toNat + j := by
    simp only [termSize]
    omega
  simp only [hdiv, hmod, ht, dif_pos, Fin.eta]
  rw [Term.byteAt_history _ (by omega), show (184 + 128 * row.toNat + j - 184) / 128 = row.toNat by omega,
    show (184 + 128 * row.toNat + j - 184) % 128 = j by omega]
  rfl

/-! ## Keeping the line -/

theorem term_modifyTerm (k : Kernel) (f : Term → Term) : (k.modifyTerm k.currTerm f).term = f k.term :=
  Kernel.modifyTerm_terminals_self k k.currTerm f

/-- The stores of a row that lies behind the terminal. -/
theorem storeRow_spec {row : Int} (hrow : 100 ≤ row) (line : Nat → UInt8) : ∀ (js : List Nat) (k : Kernel),
    ∃ k', js.foldlM (fun k (j : Nat) => Kernel.storeTerms k (historyAddr k.currTerm row + j) (line j)) k = some k' ∧
      k'.currTerm = k.currTerm ∧ k'.term = k.term ∧
      ∀ b : Nat, (b : Int) < historyAddr k.currTerm row → k'.termsByte b = k.termsByte b
  | [], k => ⟨k, rfl, rfl, rfl, fun _ _ => rfl⟩
  | j :: js, k => by
    obtain ⟨k₁, hk₁, hc₁, ht₁⟩ := k.storeTerms_of_ge (t := k.currTerm) (a := historyAddr k.currTerm row + j)
      (by simp only [historyAddr, termSize]; omega) (line j)
    obtain ⟨k₂, hk₂, hc₂, ht₂, hb₂⟩ := storeRow_spec hrow line js k₁
    refine ⟨k₂, ?_, hc₂.trans hc₁, ?_, fun b hb => ?_⟩
    · rw [List.foldlM_cons, hk₁]
      exact hk₂
    · rw [ht₂, Kernel.term, hc₁]
      exact ht₁
    · rw [hb₂ b (by rw [hc₁]; exact hb)]
      exact Kernel.termsByte_storeTerms_of_lt hk₁ (by omega)

/-- The line is kept in a row; the terminal's fields and the row before are as they were. -/
theorem saveHistory_line (k : Kernel) {row : Int} (hrow : 0 ≤ row) :
    ∃ k', saveHistory k row = some k' ∧ LineIs k k' k.term.line ∧
      (1 ≤ row → ∀ j, j < 128 → historyRow k' (row - 1) j = historyRow k (row - 1) j) ∧
      (row ≤ 99 → ∀ j, j < 128 → historyRow k' row j = strncpy k.term.bufView keyboardBufSize j) := by
  unfold saveHistory
  dsimp only
  by_cases hle : row ≤ 99
  · rw [if_pos ⟨hrow, hle⟩]
    refine ⟨_, rfl, (lineIs_self k).modifyTerm id fun _ => rfl, fun hpos j hj => ?_, fun _ j hj => ?_⟩
    · rw [historyRow_of_le _ (by omega) (by omega) hj, historyRow_of_le _ (by omega) (by omega) hj, term_modifyTerm]
      dsimp only
      rw [Function.update_of_ne (by omega)]
    · rw [historyRow_of_le _ hrow hle hj, term_modifyTerm]
      dsimp only
      rw [Function.update_self]
  · rw [if_neg fun h => hle h.2]
    obtain ⟨k', hk', hc, ht, hb⟩ := storeRow_spec (show 100 ≤ row by omega) (strncpy k.term.bufView keyboardBufSize)
      (List.range keyboardBufSize) k
    refine ⟨k', hk', ⟨hc, ?_⟩, fun hpos j hj => ?_, fun h => absurd h hle⟩
    · rw [← hc]
      exact congrArg Term.line ht
    · unfold historyRow
      rw [hc, hb]
      rw [historyAddr_toNat _ (by omega)]
      simp only [historyAddr, termSize]
      omega

/-! ## Recalling a row -/

/-- The row that Up recalls: the one before, or the first one, which may just have been kept. -/
def rowAbove (k : Kernel) : Nat → UInt8 :=
  if k.term.historyIdx = 0 ∧ k.term.absoluteHistoryIdx = 0 then strncpy k.term.bufView keyboardBufSize
  else historyRow k (if k.term.historyIdx - 1 ≥ 0 then k.term.historyIdx - 1 else 0)

/-- The row that Down recalls. -/
def rowBelow (k : Kernel) : Nat → UInt8 := historyRow k (k.term.historyIdx + 1)

/-- `move_down_history` does not return at once. -/
def MovesDown (k : Kernel) : Prop :=
  ¬ (k.term.absoluteHistoryIdx < k.term.historyIdx + 1 ∨ k.term.historyIdx + 1 > 99)

/-- A row ends with a NUL, inside its 128 bytes. -/
def Terminated (row : Nat → UInt8) : Prop := strnlen row keyboardBufSize < keyboardBufSize

theorem terminated_congr {row row' : Nat → UInt8} (h : ∀ j, j < 128 → row j = row' j) :
    Terminated row ↔ Terminated row' := by
  unfold Terminated keyboardBufSize
  rw [strnlen_congr h]

/-- `strlen` of the buffer after a row with a NUL was copied into it. -/
theorem strlenBuf_of_terminated {t : Term} {row : Nat → UInt8}
    (hbuf : ∀ j, j < 128 → t.keyboardBuf j = strncpy row 128 j) (h : Terminated row) :
    t.strlenBuf = strnlen row 128 := by
  have hview : ∀ j, j < 128 → t.bufView j = strncpy row 128 j := fun j hj => (t.bufView_of_lt hj).trans (hbuf j hj)
  have hsize : termSize - 16 = 12968 := rfl
  rcases strnlen_cases row 128 with ⟨hlt, -, hne⟩ | ⟨heq, -⟩
  · refine strnlen_eq_of_zero (by omega) (fun i hi => ?_) ?_
    · rw [hview i (by omega), strncpy, if_pos hi]
      exact hne i hi
    · rw [hview _ hlt, strncpy, if_neg (lt_irrefl _)]
  · exact absurd heq (Nat.ne_of_lt h)

/-- `strlen` of the buffer after a row was copied into it. -/
theorem strlenBuf_le_iff {t : Term} {row : Nat → UInt8} (hbuf : ∀ j, j < 128 → t.keyboardBuf j = strncpy row 128 j)
    (h0 : 0 ≤ t.bufIdx) (h128 : t.bufIdx ≤ 128) : t.strlenBuf ≤ 128 ↔ Terminated row ∨ t.bufIdx = 0 := by
  have hview : ∀ j, j < 128 → t.bufView j = strncpy row 128 j := fun j hj => (t.bufView_of_lt hj).trans (hbuf j hj)
  have hbyte : t.bufView 128 = intByte t.bufIdx 0 := t.bufView_bufIdx (j := 0) (by decide)
  have hsize : termSize - 16 = 12968 := rfl
  have hterminated := strlenBuf_of_terminated hbuf
  unfold Terminated keyboardBufSize at hterminated ⊢
  rcases strnlen_cases row 128 with ⟨hlt, -, -⟩ | ⟨heq, hne⟩
  · refine ⟨fun _ => Or.inl hlt, fun _ => ?_⟩
    have hlen := hterminated hlt
    omega
  · have hfull : ∀ i, i < 128 → t.bufView i ≠ 0 := by
      intro i hi
      rw [hview i hi, strncpy, if_pos (by omega)]
      exact hne i hi
    by_cases hz : t.bufIdx = 0
    · refine ⟨fun _ => Or.inr hz, fun _ => le_of_eq ?_⟩
      apply strnlen_eq_of_zero (by omega) hfull
      rw [hbyte, hz]
      rfl
    · -- the low byte of the index follows the array
      have hlen : 129 ≤ t.strlenBuf := by
        apply le_strnlen (by omega)
        intro i hi
        obtain hi | rfl : i < 128 ∨ i = 128 := by omega
        · exact hfull i hi
        · rw [hbyte]
          intro h
          have := congrArg UInt8.toNat h
          rw [intByte, UInt8.toNat_ofNat'] at this
          norm_num at this
          omega
      exact ⟨fun h => absurd hlen (by omega), fun h => h.elim (fun h => absurd heq (by omega)) fun h => absurd h hz⟩

theorem backspaces_screenOnly (k : Kernel) (n : Nat) : ScreenOnly k (backspaces k n) :=
  Run.forUp_invariant (fun _ k' => ScreenOnly k k') n 0 k (ScreenOnly.refl k)
    fun _ k' _ _ h => h.trans (backspace_screenOnly k')

theorem backspace_sameRows (k : Kernel) : SameRows k (backspace k) where
  currTerm := rfl
  after := rfl
  others u hu := by
    show Function.update k.terminals k.currTerm _ u = _
    rw [Function.update_of_ne hu]
  history := by
    show (Function.update k.terminals k.currTerm _ k.currTerm).history = _
    rw [Function.update_self]

theorem backspaces_sameRows (k : Kernel) (n : Nat) : SameRows k (backspaces k n) :=
  Run.forUp_invariant (fun _ k' => SameRows k k') n 0 k (SameRows.refl k)
    fun _ k' _ _ h => h.trans (backspace_sameRows k')

/-- The buffer with a row copied into it. -/
def Term.copyRow (t : Term) (row : Nat → UInt8) : Term :=
  { t with keyboardBuf := fun j => if j < keyboardBufSize then row j else t.keyboardBuf j }

/-- The index set from `strlen`. -/
def Term.measure (t : Term) : Term := { t with bufIdx := t.strlenBuf }

theorem recallRow_eq (k : Kernel) : recallRow k =
    let k₁ := backspaces k k.term.bufIdx.toNat
    let k₂ := k₁.modifyTerm k₁.currTerm fun t =>
      t.copyRow (strncpy (historyRow k₁ k₁.term.historyIdx) keyboardBufSize)
    putLine (k₂.modifyTerm k₂.currTerm Term.measure) := rfl

/-- A line after a recall: another buffer and index. -/
theorem recallRow_line {k₀ : Kernel} {l : Line} (hl : LineIs k₀ k l) (h0 : 0 ≤ l.idx) (h128 : l.idx ≤ 128)
    (hrow : 0 ≤ l.row) : ∃ l', LineIs k₀ (recallRow k) l' ∧ l'.row = l.row ∧ 0 ≤ l'.idx ∧
      (l'.idx ≤ 128 ↔ Terminated (historyRow k l.row) ∨ l.idx = 0) := by
  have hl₁ := (backspaces_screenOnly k k.term.bufIdx.toNat).lineIs hl
  have hrows := (backspaces_sameRows k k.term.bufIdx.toNat).historyRow_eq hrow
  rw [recallRow_eq]
  generalize backspaces k k.term.bufIdx.toNat = k₁ at hl₁ hrows
  have hidx : k₁.term.historyIdx = l.row := by
    rw [Kernel.term, hl₁.1, ← hl₁.2]
    rfl
  dsimp only
  rw [hidx, hl₁.1, show historyRow k₁ l.row = historyRow k l.row from funext hrows]
  generalize historyRow k l.row = row
  have hl₂ := hl₁.modifyTerm (f := fun t => t.copyRow (strncpy row keyboardBufSize))
    (fun l => { l with buf := fun j => if j < keyboardBufSize then strncpy row keyboardBufSize j else l.buf j })
    fun _ => rfl
  generalize k₁.modifyTerm k₀.currTerm (fun t => t.copyRow (strncpy row keyboardBufSize)) = k₂ at hl₂ ⊢
  have hbuf : ∀ j, j < 128 → (k₂.terminals k₀.currTerm).keyboardBuf j = strncpy row 128 j := by
    intro j hj
    rw [show (k₂.terminals k₀.currTerm).keyboardBuf = _ from congrArg Line.buf hl₂.2]
    exact if_pos hj
  have hold : (k₂.terminals k₀.currTerm).bufIdx = l.idx := congrArg Line.idx hl₂.2
  have hline : ((k₂.modifyTerm k₂.currTerm Term.measure).terminals k₀.currTerm).line =
      { (k₂.terminals k₀.currTerm).line with idx := (k₂.terminals k₀.currTerm).strlenBuf } := by
    rw [hl₂.1, Kernel.modifyTerm_terminals_self]
    rfl
  refine ⟨_, (puts_screenOnly _ _).lineIs ⟨hl₂.1, hline⟩, ?_, Int.natCast_nonneg _, ?_⟩
  · show (k₂.terminals k₀.currTerm).line.row = l.row
    rw [hl₂.2]
  · rw [← hold, ← strlenBuf_le_iff hbuf (by omega) (by omega)]
    exact Int.ofNat_le

/-- Up. -/
theorem moveUpHistory_line (k : Kernel) (h0 : 0 ≤ k.term.bufIdx) (h128 : k.term.bufIdx ≤ 128)
    (hrow : 0 ≤ k.term.historyIdx) : ∃ k' l, moveUpHistory k = some k' ∧ LineIs k k' l ∧ 0 ≤ l.row ∧ 0 ≤ l.idx ∧
      (l.idx ≤ 128 ↔ Terminated (rowAbove k) ∨ k.term.bufIdx = 0) := by
  generalize hr : (if k.term.historyIdx - 1 ≥ 0 then k.term.historyIdx - 1 else 0) = r
  have hr0 : 0 ≤ r := by
    rw [← hr]
    split_ifs
    · assumption
    · exact le_refl 0
  obtain ⟨k₁, hk₁, hl₁, hkept⟩ : ∃ k₁, keepLatest k = some k₁ ∧ LineIs k k₁ k.term.line ∧
      ∀ j, j < 128 → historyRow k₁ r j = rowAbove k j := by
    unfold keepLatest rowAbove
    rw [hr]
    obtain ⟨k₁, hk₁, hl₁, hbefore, hsaved⟩ := saveHistory_line k hrow
    by_cases hlatest : k.term.absoluteHistoryIdx = k.term.historyIdx
    · rw [if_pos hlatest]
      refine ⟨k₁, hk₁, hl₁, fun j hj => ?_⟩
      by_cases hz : k.term.historyIdx = 0
      · rw [if_pos ⟨hz, hlatest.trans hz⟩, ← hsaved (by omega) j hj, ← hr, hz]
        rfl
      · rw [if_neg fun h => hz h.1, ← hr, if_pos (by omega)]
        exact hbefore (by omega) j hj
    · rw [if_neg hlatest, if_neg fun h => hlatest (h.2.trans h.1.symm)]
      exact ⟨k, rfl, lineIs_self k, fun _ _ => rfl⟩
  have hl₂ := hl₁.modifyTerm
    (f := fun t => { t with historyIdx := if t.historyIdx - 1 ≥ 0 then t.historyIdx - 1 else 0 })
    (fun l => { l with row := if l.row - 1 ≥ 0 then l.row - 1 else 0 }) fun _ => rfl
  have hsame := sameRows_modifyTerm k₁
    (f := fun t => { t with historyIdx := if t.historyIdx - 1 ≥ 0 then t.historyIdx - 1 else 0 }) fun _ => rfl
  rw [← hl₁.1] at hl₂
  unfold moveUpHistory
  rw [hk₁, Option.map_some]
  have hrowr : (if k.term.line.row - 1 ≥ 0 then k.term.line.row - 1 else 0) = r := hr
  rw [hrowr] at hl₂
  obtain ⟨l', hl', hrow', hidx', hiff⟩ := recallRow_line hl₂ h0 h128 hr0
  have hread := terminated_congr fun j hj => (hsame.historyRow_eq hr0 j).trans (hkept j hj)
  exact ⟨_, l', rfl, hl', hrow' ▸ hr0, hidx', hiff.trans (or_congr hread Iff.rfl)⟩

/-- Down. -/
theorem moveDownHistory_line (k : Kernel) (h0 : 0 ≤ k.term.bufIdx) (h128 : k.term.bufIdx ≤ 128)
    (hrow : 0 ≤ k.term.historyIdx) : ∃ l, LineIs k (moveDownHistory k) l ∧ 0 ≤ l.row ∧ 0 ≤ l.idx ∧
      (l.idx ≤ 128 ↔ (MovesDown k → Terminated (rowBelow k) ∨ k.term.bufIdx = 0)) := by
  unfold moveDownHistory
  by_cases hstay : k.term.absoluteHistoryIdx < k.term.historyIdx + 1 ∨ k.term.historyIdx + 1 > 99
  · rw [if_pos hstay]
    exact ⟨_, lineIs_self k, hrow, h0, fun _ h => absurd hstay h, fun _ => h128⟩
  · rw [if_neg hstay]
    have hl := (lineIs_self k).modifyTerm (f := fun t => { t with historyIdx := t.historyIdx + 1 })
      (fun l => { l with row := l.row + 1 }) fun _ => rfl
    have hsame := sameRows_modifyTerm k (f := fun t => { t with historyIdx := t.historyIdx + 1 }) fun _ => rfl
    have hnext : 0 ≤ k.term.historyIdx + 1 := by omega
    obtain ⟨l', hl', hrow', hidx', hiff⟩ := recallRow_line hl h0 h128 hnext
    have hread := terminated_congr fun j _ => hsame.historyRow_eq hnext j
    exact ⟨l', hl', hrow' ▸ hnext, hidx', (hiff.trans (or_congr hread Iff.rfl)).trans
      ⟨fun h _ => h, fun h => h hstay⟩⟩

end BasicOs
