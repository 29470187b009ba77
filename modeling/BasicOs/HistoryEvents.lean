import BasicOs.Recall

/-!
# The events of a terminal with a history

What typing, Backspace, Enter and a read do to the displayed terminal, next to Up and Down: functions of that terminal
alone, as long as the row they work at is one of its own and no store goes behind it.

* `Term.typed`, `Term.erased`, `Term.entered` : the line editor, with the history in `Term.recorded`;
* `HistoryEvent`, `historyStep` : the events of terminal `t`;
* `Term.firstEmpty` : the first empty row of the 100, where Enter leaves the two indices.
-/

namespace BasicOs
open Bytes

variable {k₀ k k' : Kernel} {t : Term}

/-! ## Stores -/

theorem Term.setByte_moveTo (t : Term) (x y : Int) {i : Nat} (hi : 8 ≤ i) (c : UInt8) :
    (t.moveTo x y).setByte i c = (t.setByte i c).moveTo x y := by
  have hset : ∀ (v : Int) n, 2 ≤ n → (t.moveTo x y).setWord v n = (t.setWord v n).moveTo x y := by
    intro v n hn
    unfold setWord
    split
    all_goals first
      | rfl
      | omega
  unfold setByte
  split_ifs
  · rfl
  · rw [t.word_moveTo x y (by omega), hset _ _ (by omega)]
  · rfl

/-- A store that is not into one of the two indices of the history. -/
theorem Term.setByte_indices (t : Term) {i : Nat} (hi : i < 176 ∨ 184 ≤ i) (c : UInt8) :
    (t.setByte i c).historyIdx = t.historyIdx ∧ (t.setByte i c).absoluteHistoryIdx = t.absoluteHistoryIdx := by
  have hset : ∀ (v : Int) n, n < 44 → (t.setWord v n).historyIdx = t.historyIdx ∧
      (t.setWord v n).absoluteHistoryIdx = t.absoluteHistoryIdx := by
    intro v n hn
    have hidx : (t.setWord v n).word 44 = t.word 44 := t.word_setWord_of_ne v (by omega)
    have habs : (t.setWord v n).word 45 = t.word 45 := t.word_setWord_of_ne v (by omega)
    exact ⟨hidx, habs⟩
  unfold setByte
  split_ifs
  · exact ⟨rfl, rfl⟩
  · exact hset _ _ (by omega)
  · exact ⟨rfl, rfl⟩

/-- A store before the rows. -/
theorem Term.setByte_history (t : Term) {i : Nat} (hi : i < 184) (c : UInt8) : (t.setByte i c).history = t.history := by
  unfold setByte
  split_ifs
  · rfl
  · exact (t.setWord_arrays _ _).2

/-- A store before the index. -/
theorem Term.setByte_bufIdx_of_lt (t : Term) {i : Nat} (hi : i < 144) (c : UInt8) :
    (t.setByte i c).bufIdx = t.bufIdx := by
  unfold setByte
  split_ifs
  · rfl
  · exact t.setWord_bufIdx _ (by omega)
  · rfl

/-- A store of an ASCII character leaves the index in the range of an `int32_t` that is not negative. -/
theorem Term.setByte_bufIdx (t : Term) (h0 : 0 ≤ t.bufIdx) (h31 : t.bufIdx < 2 ^ 31) (i : Nat) {c : UInt8}
    (hc : c.toNat < 128) : 0 ≤ (t.setByte i c).bufIdx ∧ (t.setByte i c).bufIdx < 2 ^ 31 ∧
      (t.setByte i c).bufIdx ≤ t.bufIdx + c.toNat * 256 ^ 3 := by
  have hself : 0 ≤ t.bufIdx ∧ t.bufIdx < 2 ^ 31 ∧ t.bufIdx ≤ t.bufIdx + c.toNat * 256 ^ 3 := ⟨h0, h31, by omega⟩
  unfold setByte
  split_ifs
  · exact hself
  · by_cases hidx : i / 4 = 36
    · rw [hidx]
      exact setIntByte_bounds h0 h31 (Nat.mod_lt _ (by decide)) hc
    · rw [t.setWord_bufIdx _ hidx]
      exact hself
  · exact hself

/-- A store into the buffer. -/
theorem Term.setByte_of_lt (t : Term) {i : Int} (h0 : 0 ≤ i) (hi : i < 128) (c : UInt8) :
    t.setByte (16 + i).toNat c = t.setBuf i.toNat c := by
  unfold setByte
  rw [if_pos (by omega), show (16 + i).toNat - 16 = i.toNat by omega]
  rfl

/-- A store into the displayed terminal. -/
theorem Becomes.pokeBuf (h : Becomes k₀ k t) {i : Int} (hlo : -8 ≤ i) (hhi : i < 12968) (c : UInt8) :
    ∃ k', k.pokeBuf k.currTerm i c = some k' ∧ Becomes k₀ k' (t.setByte (16 + i).toNat c) :=
  ⟨_, k.pokeBuf_eq k.currTerm (by omega) hhi c, h.modifyTerm fun t x y => t.setByte_moveTo x y (by omega) c⟩

/-! ## The keys -/

/-- A character at the end of the line. -/
def Term.typed (t : Term) (letter : UInt8) : Term :=
  if t.bufIdx ≤ 126 then
    let t := t.setByte (16 + t.bufIdx).toNat letter
    { t with bufIdx := t.bufIdx + 1 }
  else t

/-- Backspace: the store of the NUL may hit the index itself. -/
def Term.erased (t : Term) : Term :=
  let t := Term.setByte { t with bufIdx := t.bufIdx - 1 } (16 + (t.bufIdx - 1)).toNat 0
  { t with bufIdx := if t.bufIdx < 0 then 0 else t.bufIdx, acRepeats := 0 }

/-- The newline at the end of the line, and the flag. -/
def Term.entered (t : Term) : Term :=
  let t := t.setByte (16 + t.bufIdx).toNat chNewline
  { t with bufIdx := t.bufIdx + 1, keyFlag := 1, acRepeats := 0 }

theorem Term.entered_of_lt (t : Term) (h0 : 0 ≤ t.bufIdx) (hi : t.bufIdx < 128) : t.entered =
    { t with
      keyboardBuf := Function.update t.keyboardBuf t.bufIdx.toNat chNewline
      bufIdx := t.bufIdx + 1, keyFlag := 1, acRepeats := 0 } := by
  unfold entered
  rw [t.setByte_of_lt h0 hi]
  rfl

/-- The line kept, and the indices at row `i`. -/
def Term.recorded (t : Term) (i : Nat) : Term := { t.kept with historyIdx := i, absoluteHistoryIdx := i }

theorem typeLetter_becomes (k : Kernel) (h0 : 0 ≤ k.term.bufIdx) (letter : UInt8) :
    ∃ k', typeLetter k letter = some k' ∧ Becomes k k' (k.term.typed letter) := by
  unfold typeLetter Term.typed
  split_ifs with hroom
  · obtain ⟨k₁, hk₁, h₁⟩ := (Becomes.refl k).pokeBuf (show -8 ≤ k.term.bufIdx by omega) (by omega) letter
    have h₂ := h₁.modifyTerm (f := fun t => { t with bufIdx := t.bufIdx + 1 }) fun _ _ _ => rfl
    rw [addToBuf_of_room hroom hk₁, Option.map_some, ← h₁.currTerm]
    exact ⟨_, rfl, h₂.draw (putc_becomes _ letter)⟩
  · exact ⟨k, rfl, .refl k⟩

theorem backspaceKey_becomes (k : Kernel) (h0 : 0 ≤ k.term.bufIdx) (hhi : k.term.bufIdx ≤ 12968) :
    ∃ k', backspaceKey k = some k' ∧ Becomes k k' k.term.erased := by
  have hscreen : Becomes k (eraseLast k) k.term := by
    unfold eraseLast
    split_ifs
    · exact backspace_becomes k
    · exact .refl k
  have hidx : (eraseLast k).term.bufIdx = k.term.bufIdx := by
    obtain ⟨x, y, hxy⟩ := hscreen.term
    rw [hxy]
    rfl
  have h₁ := hscreen.modifyTerm (f := fun t => { t with bufIdx := t.bufIdx - 1 }) fun _ _ _ => rfl
  unfold backspaceKey deleteFromBuf
  rw [if_pos h0]
  have hidx₁ : ((eraseLast k).modifyTerm (eraseLast k).currTerm
      fun t => { t with bufIdx := t.bufIdx - 1 }).term.bufIdx = k.term.bufIdx - 1 := by
    rw [term_modifyTerm, hidx]
  generalize ((eraseLast k).modifyTerm (eraseLast k).currTerm fun t => { t with bufIdx := t.bufIdx - 1 }) = k₁
    at h₁ hidx₁
  obtain ⟨k₂, hk₂, h₂⟩ := h₁.pokeBuf (show -8 ≤ k.term.bufIdx - 1 by omega) (by omega) 0
  dsimp only
  rw [hidx₁, hk₂, Option.bind_eq_bind, Option.bind_some]
  unfold Term.erased
  dsimp only
  generalize Term.setByte { k.term with bufIdx := k.term.bufIdx - 1 } (16 + (k.term.bufIdx - 1)).toNat 0 = u at h₂
  have hidx₂ : k₂.term.bufIdx = u.bufIdx := by
    obtain ⟨x, y, hxy⟩ := h₂.term
    rw [hxy]
    rfl
  rw [hidx₂]
  split_ifs
  · have h₃ := h₂.modifyTerm (f := fun t => { t with bufIdx := 0 }) fun _ _ _ => rfl
    exact ⟨_, rfl, h₃.modifyTerm (f := fun t => { t with acRepeats := 0 }) fun _ _ _ => rfl⟩
  · exact ⟨_, rfl, h₂.modifyTerm (f := fun t => { t with acRepeats := 0 }) fun _ _ _ => rfl⟩

/-! ## Enter -/

/-- The first empty row of the 100. -/
def Term.firstEmpty (t : Term) : Option Nat := (List.range 100).find? fun r => t.history r 0 = 0

theorem Term.firstEmpty_eq_some {i : Nat} :
    t.firstEmpty = some i ↔ t.history i 0 = 0 ∧ i ≤ 99 ∧ ∀ r, r < i → t.history r 0 ≠ 0 := by
  unfold firstEmpty
  rw [List.find?_range_eq_some]
  simp only [decide_eq_true_eq, List.mem_range, Bool.not_eq_true', decide_eq_false_iff_not, Nat.lt_succ_iff]

theorem Becomes.rowsByte (h : Becomes k₀ k t) {r : Nat} (hr : r ≤ 99) :
    k.termsByte (historyAddr k.currTerm r).toNat = t.history r 0 := by
  obtain ⟨x, y, hxy⟩ := h.term
  have hrow := historyRow_of_le k (Int.natCast_nonneg r) (by omega) (j := 0) (by decide)
  rw [historyRow, Nat.cast_zero, add_zero, Int.toNat_natCast, hxy] at hrow
  exact hrow

/-- The scan of `keyboard_return` stops in the array if a row there is empty, and goes on otherwise. -/
theorem Becomes.firstEmptyRow_eq (h : Becomes k₀ k t) {i : Nat} (hi : i ≤ 99) :
    firstEmptyRow k = some i ↔ t.firstEmpty = some i := by
  unfold firstEmptyRow
  rw [Term.firstEmpty_eq_some, List.find?_range_eq_some]
  simp only [decide_eq_true_eq, List.mem_range, Bool.not_eq_true', decide_eq_false_iff_not]
  rw [h.rowsByte hi]
  constructor
  · rintro ⟨hrow, -, hbefore⟩
    exact ⟨hrow, hi, fun r hr => by rw [← h.rowsByte (by omega)]; exact hbefore r hr⟩
  · rintro ⟨hrow, -, hbefore⟩
    exact ⟨hrow, by omega, fun r hr => by rw [h.rowsByte (by omega)]; exact hbefore r hr⟩

/-- Enter, where the scan finds row `i`. -/
theorem keyboardReturn_becomes (k : Kernel) (hrow : 0 ≤ k.term.historyIdx) (hrow' : k.term.historyIdx ≤ 99)
    (h0 : 0 ≤ k.term.bufIdx) (hhi : k.term.bufIdx < 12968) {i : Nat} (hi : k.term.kept.firstEmpty = some i) :
    ∃ k', keyboardReturn k = some k' ∧ Becomes k k' (k.term.recorded i).entered := by
  obtain ⟨k₁, hk₁, h₁⟩ := saveHistory_becomes k hrow hrow'
  have hfirst := (h₁.firstEmptyRow_eq (Term.firstEmpty_eq_some.mp hi).2.1).mpr hi
  have hrecord : recordLine k =
      some (k₁.modifyTerm k₁.currTerm fun t => { t with historyIdx := i, absoluteHistoryIdx := i }) := by
    unfold recordLine
    rw [if_pos hrow', hk₁, Option.bind_eq_bind, Option.bind_some, hfirst]
  have h₂ := h₁.modifyTerm (f := fun t => { t with historyIdx := i, absoluteHistoryIdx := i }) fun _ _ _ => rfl
  unfold keyboardReturn
  rw [hrecord, Option.bind_eq_bind, Option.bind_some]
  generalize (k₁.modifyTerm k₁.currTerm fun t => { t with historyIdx := i, absoluteHistoryIdx := i }) = k₂ at h₂
  dsimp only
  have h₃ : Becomes k (if k₂.term.keyboardBuf 0 ≠ chNewline then putc k₂ chNewline k₂.currTerm else k₂)
      (k.term.recorded i) := by
    split_ifs
    · exact h₂.draw (putc_becomes k₂ chNewline)
    · exact h₂
  generalize (if k₂.term.keyboardBuf 0 ≠ chNewline then putc k₂ chNewline k₂.currTerm else k₂) = k₃ at h₃ ⊢
  have hidx : k₃.term.bufIdx = k.term.bufIdx := by
    obtain ⟨x, y, hxy⟩ := h₃.term
    rw [hxy]
    rfl
  obtain ⟨k₄, hk₄, h₄⟩ := h₃.pokeBuf (show -8 ≤ k.term.bufIdx by omega) hhi chNewline
  rw [hidx, hk₄, Option.bind_some]
  exact ⟨_, rfl, h₄.modifyTerm (f := fun t => { t with bufIdx := t.bufIdx + 1, keyFlag := 1, acRepeats := 0 })
    fun _ _ _ => rfl⟩

/-! ## The events of a terminal -/

inductive HistoryEvent
  | type (letter : UInt8)
  | backspace
  | enter
  | up
  | down
  | read (nbytes : Int)
  | elsewhere (k' : Kernel)

/-- A key is handled, a read completes, or something else happens. -/
def historyStep (k : Kernel) : HistoryEvent → Option Kernel
  | .type letter => typeLetter k letter
  | .backspace => backspaceKey k
  | .enter => keyboardReturn k
  | .up => moveUpHistory k
  | .down => some (moveDownHistory k)
  | .read nbytes => (terminalRead k false nbytes).map Prod.fst
  | .elsewhere k' => some k'

/-- The history of a terminal is the same. -/
def SameHistory (t t' : Term) : Prop :=
  t'.historyIdx = t.historyIdx ∧ t'.absoluteHistoryIdx = t.absoluteHistoryIdx ∧ t'.history = t.history

/-- A read by any process leaves the history alone, and may clear the line. -/
theorem terminalRead_terminals {n v : Int} {bytes : List UInt8} (h : terminalRead k false n = some (k', v, bytes))
    (t : Fin 3) : SameHistory (k.terminals t) (k'.terminals t) ∧
      ((k'.terminals t).bufIdx = (k.terminals t).bufIdx ∨ (k'.terminals t).bufIdx = 0) := by
  unfold terminalRead at h
  dsimp only at h
  split at h
  · cases h
    exact ⟨⟨rfl, rfl, rfl⟩, Or.inl rfl⟩
  split at h
  · cases h
  · cases h
    by_cases ht : t = k.scheduledProcess
    · rw [ht, Kernel.modifyTerm_terminals_self, clearKeyboardBuf, Kernel.modifyTerm_terminals_self]
      exact ⟨⟨rfl, rfl, rfl⟩, Or.inr rfl⟩
    · rw [Kernel.modifyTerm_terminals_of_ne _ _ ht, clearKeyboardBuf, Kernel.modifyTerm_terminals_of_ne _ _ ht]
      exact ⟨⟨rfl, rfl, rfl⟩, Or.inl rfl⟩

/-- What holds of the index and of 0 holds of the index after a read. -/
theorem terminalRead_bufIdx {P : Int → Prop} {n v : Int} {bytes : List UInt8}
    (h : terminalRead k false n = some (k', v, bytes)) (t : Fin 3) (h0 : P 0) (hidx : P (k.terminals t).bufIdx) :
    P (k'.terminals t).bufIdx := by
  rcases (terminalRead_terminals h t).2 with hsame | hzero
  · rw [hsame]
    exact hidx
  · rw [hzero]
    exact h0

end BasicOs
