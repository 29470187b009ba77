import BasicOs.Keyboard
import BasicOs.Lib.LineBuffer

/-!
# The line editor

What the keys and `terminal_read` do to the line of a terminal: its buffer, the index of its end, the flag that
says it was submitted, and the row of the history it goes to.

* `Line` : those fields of a terminal; `Line.type`, `Line.enter`, `Line.erase`, `Line.clear` : the editor's
  operations on them;
* `typeLetter_line`, `keyboardReturn_line`, `backspaceKey_line`, `terminalRead_line` : the driver performs them,
  while the index is in range.
-/

namespace BasicOs
open Bytes

/-- The fields of a terminal that the line editor works on. -/
structure Line where
  buf : Nat → UInt8
  idx : Int
  flag : Int
  row : Int

def Term.line (t : Term) : Line := ⟨t.keyboardBuf, t.bufIdx, t.keyFlag, t.historyIdx⟩

namespace Line

/-- A character at the end, while there is room. -/
def type (l : Line) (c : UInt8) : Line :=
  if l.idx ≤ 126 then { l with buf := Function.update l.buf l.idx.toNat c, idx := l.idx + 1 } else l

/-- The newline, and the flag. -/
def enter (l : Line) : Line :=
  { l with buf := Function.update l.buf l.idx.toNat chNewline, idx := l.idx + 1, flag := 1 }

/-- The last character becomes a NUL. -/
def erase (l : Line) : Line :=
  if l.idx = 0 then l else { l with buf := Function.update l.buf (l.idx - 1).toNat 0, idx := l.idx - 1 }

/-- `clear_keyboard_buf`, and the flag. -/
def clear (l : Line) : Line :=
  { l with buf := fun i => if i < keyboardBufSize then 0 else l.buf i, idx := 0, flag := 0 }

end Line

/-! ## Screens and devices -/

variable {k k' : Kernel}

theorem ScreenOnly.currTerm_eq (h : ScreenOnly k k') : k'.currTerm = k.currTerm := by
  obtain ⟨_, rfl, hc, -⟩ := h
  exact hc

theorem ScreenOnly.line_eq (h : ScreenOnly k k') (t : Fin 3) : (k'.terminals t).line = (k.terminals t).line := by
  obtain ⟨tty, rfl, -, ht⟩ := h
  obtain ⟨x, y, hxy⟩ := ht t
  show (tty.terminals t).line = _
  rw [hxy]
  rfl

/-- A step that keeps the displayed terminal and gives it the line `l`. -/
def LineIs (k k' : Kernel) (l : Line) : Prop := k'.currTerm = k.currTerm ∧ (k'.terminals k.currTerm).line = l

theorem ScreenOnly.lineIs {l : Line} {k₀ : Kernel} (h : ScreenOnly k k') (hl : LineIs k₀ k l) : LineIs k₀ k' l :=
  ⟨h.currTerm_eq.trans hl.1, (h.line_eq _).trans hl.2⟩

theorem LineIs.modifyTerm {l : Line} {k₀ : Kernel} (hl : LineIs k₀ k l) {f : Term → Term} (g : Line → Line)
    (hf : ∀ t : Term, (f t).line = g t.line) : LineIs k₀ (k.modifyTerm k₀.currTerm f) (g l) := by
  refine ⟨hl.1, ?_⟩
  rw [Kernel.modifyTerm_terminals_self, hf, hl.2]

theorem LineIs.term_line {l : Line} {k₀ : Kernel} (hl : LineIs k₀ k l) : k.term.line = l := by
  rw [Kernel.term, hl.1]
  exact hl.2

theorem LineIs.bufIdx_eq {l : Line} {k₀ : Kernel} (hl : LineIs k₀ k l) : k.term.bufIdx = l.idx :=
  congrArg Line.idx hl.term_line

/-! ## Stores -/

theorem LineIs.pokeBuf {l : Line} {k₀ : Kernel} (hl : LineIs k₀ k l) {i : Int} (h0 : 0 ≤ i) (hi : i < 128)
    (c : UInt8) : ∃ k', k.pokeBuf k₀.currTerm i c = some k' ∧
      LineIs k₀ k' { l with buf := Function.update l.buf i.toNat c } := by
  have hnat : (i.toNat : Int) = i := Int.toNat_of_nonneg h0
  refine ⟨_, by rw [← hnat]; exact k.pokeBuf_of_lt k₀.currTerm (by omega) c, ?_⟩
  exact hl.modifyTerm (fun l => { l with buf := Function.update l.buf i.toNat c }) fun _ => rfl

/-! ## The keys -/

/-- The displayed terminal has the line it has. -/
theorem lineIs_self (k : Kernel) : LineIs k k k.term.line := ⟨rfl, rfl⟩

/-- `add_to_buf` while there is room: the store, and the index moves. -/
theorem addToBuf_of_room (hroom : k.term.bufIdx ≤ 126) {letter : UInt8}
    (hk : k.pokeBuf k.currTerm k.term.bufIdx letter = some k') :
    addToBuf k letter = some (k'.modifyTerm k.currTerm fun t => { t with bufIdx := t.bufIdx + 1 }) := by
  have hlt : k.term.bufIdx < keyboardBufSize - 1 := by
    simp only [keyboardBufSize]
    omega
  have hstores : addToBufStores k.term letter = [(k.term.bufIdx, letter)] := if_pos hlt
  unfold addToBuf Kernel.pokeAll
  rw [hstores, List.foldlM_cons, hk]
  simp only [List.foldlM_nil, Option.bind_some, bind, pure]
  rw [if_pos hlt]

theorem typeLetter_line (k : Kernel) (h0 : 0 ≤ k.term.bufIdx) (letter : UInt8) :
    ∃ k', typeLetter k letter = some k' ∧ LineIs k k' (k.term.line.type letter) := by
  have hself := lineIs_self k
  unfold typeLetter Line.type
  by_cases hroom : k.term.bufIdx ≤ 126
  · obtain ⟨k₁, h₁, hl₁⟩ := hself.pokeBuf h0 (show k.term.bufIdx < 128 by omega) letter
    rw [if_pos hroom, if_pos (show k.term.line.idx ≤ 126 from hroom), addToBuf_of_room hroom h₁, Option.map_some]
    refine ⟨_, rfl, (putc_screenOnly _ _ _).lineIs ?_⟩
    exact hl₁.modifyTerm (fun l => { l with idx := l.idx + 1 }) fun _ => rfl
  · rw [if_neg hroom, if_neg (show ¬ k.term.line.idx ≤ 126 from hroom)]
    exact ⟨k, rfl, hself⟩

theorem LineIs.deleteFromBuf {l : Line} {k₀ : Kernel} (hl : LineIs k₀ k l) (h0 : 0 ≤ l.idx) (h128 : l.idx ≤ 128) :
    ∃ k', deleteFromBuf k = some k' ∧ LineIs k₀ k' l.erase := by
  have h₁ := hl.modifyTerm (f := fun t => { t with bufIdx := t.bufIdx - 1 }) (fun l => { l with idx := l.idx - 1 })
    fun _ => rfl
  unfold BasicOs.deleteFromBuf Line.erase
  rw [hl.1]
  generalize k.modifyTerm k₀.currTerm (fun t => { t with bufIdx := t.bufIdx - 1 }) = k₁ at h₁
  dsimp only at h₁ ⊢
  rw [h₁.bufIdx_eq, h₁.1]
  dsimp only
  by_cases hz : l.idx = 0
  · -- the store goes before the array, and the index is set back
    have h₂ := h₁.modifyTerm (f := fun t => { t with activePid := setIntByte t.activePid 3 0 }) id fun _ => rfl
    rw [if_pos hz, show l.idx - 1 = -1 by omega, k₁.pokeBuf_neg_one]
    generalize k₁.modifyTerm k₀.currTerm (fun t => { t with activePid := setIntByte t.activePid 3 0 }) = k₂ at h₂
    simp only [bind, Option.bind_some]
    rw [h₂.bufIdx_eq, if_pos (by simp only [id_eq]; omega), h₂.1]
    refine ⟨_, rfl, ?_⟩
    have h₃ := h₂.modifyTerm (f := fun t => { t with bufIdx := 0 }) (fun l => { l with idx := 0 }) fun _ => rfl
    rw [show l = { id { l with idx := l.idx - 1 } with idx := 0 } by rw [← hz]; rfl]
    exact h₃
  · obtain ⟨k₂, hk₂, h₂⟩ := h₁.pokeBuf (show 0 ≤ l.idx - 1 by omega) (show l.idx - 1 < 128 by omega) 0
    rw [if_neg hz, hk₂]
    simp only [bind, Option.bind_some]
    rw [h₂.bufIdx_eq, if_neg (by dsimp only; omega)]
    exact ⟨k₂, rfl, h₂⟩

theorem backspaceKey_line (k : Kernel) (h0 : 0 ≤ k.term.bufIdx) (h128 : k.term.bufIdx ≤ 128) :
    ∃ k', backspaceKey k = some k' ∧ LineIs k k' k.term.line.erase := by
  have herase := (eraseLast_screenOnly k).lineIs (lineIs_self k)
  obtain ⟨k₁, hk₁, h₁⟩ := herase.deleteFromBuf h0 h128
  unfold backspaceKey
  rw [if_pos h0, hk₁, Option.map_some, h₁.1]
  exact ⟨_, rfl, h₁.modifyTerm id fun _ => rfl⟩

/-- The line goes into the history, at the row it has; it gets another one. -/
theorem recordLine_line (k : Kernel) (hrow : 0 ≤ k.term.historyIdx) :
    ∃ k' row, recordLine k = some k' ∧ 0 ≤ row ∧ LineIs k k' { k.term.line with row := row } := by
  have hself := lineIs_self k
  unfold recordLine
  split_ifs with hle
  · have hsave : saveHistory k k.term.historyIdx = some (k.modifyTerm k.currTerm fun t => { t with
        history := Function.update t.history k.term.historyIdx.toNat (strncpy k.term.bufView keyboardBufSize) }) := by
      unfold saveHistory
      exact if_pos ⟨hrow, hle⟩
    have h₁ := hself.modifyTerm (f := fun t =>
      { t with history := Function.update t.history k.term.historyIdx.toNat (strncpy k.term.bufView keyboardBufSize) })
      id fun _ => rfl
    rw [hsave]
    generalize (k.modifyTerm k.currTerm fun t =>
      { t with history := Function.update t.history k.term.historyIdx.toNat
                (strncpy k.term.bufView keyboardBufSize) }) = k₁ at h₁
    simp only [bind, Option.bind_some]
    split
    · rename_i i _
      rw [h₁.1]
      exact ⟨_, i, rfl, by omega, h₁.modifyTerm (fun l => { l with row := i }) fun _ => rfl⟩
    · exact ⟨k₁, _, rfl, hrow, h₁⟩
  · exact ⟨k, _, rfl, hrow, hself⟩

theorem keyboardReturn_line (k : Kernel) (hrow : 0 ≤ k.term.historyIdx) (h0 : 0 ≤ k.term.bufIdx)
    (h127 : k.term.bufIdx ≤ 127) :
    ∃ k' row, keyboardReturn k = some k' ∧ 0 ≤ row ∧ LineIs k k' { k.term.line.enter with row := row } := by
  obtain ⟨k₁, row, hk₁, hrow₁, h₁⟩ := recordLine_line k hrow
  have h₂ : LineIs k (if k₁.term.keyboardBuf 0 ≠ chNewline then putc k₁ chNewline k₁.currTerm else k₁)
      { k.term.line with row := row } := by
    split
    · exact (putc_screenOnly _ _ _).lineIs h₁
    · exact h₁
  unfold keyboardReturn
  rw [hk₁]
  simp only [bind, Option.bind_some]
  generalize (if k₁.term.keyboardBuf 0 ≠ chNewline then putc k₁ chNewline k₁.currTerm else k₁) = k₂ at h₂
  obtain ⟨k₃, hk₃, h₃⟩ := h₂.pokeBuf h0 (show k.term.bufIdx < 128 by omega) chNewline
  rw [h₂.bufIdx_eq, h₂.1]
  dsimp only at hk₃ ⊢
  rw [show k.term.line.idx = k.term.bufIdx from rfl, hk₃, Option.bind_some, h₃.1]
  exact ⟨_, row, rfl, hrow₁, h₃.modifyTerm (fun l => { l with idx := l.idx + 1, flag := 1 }) fun _ => rfl⟩

/-! ## `terminal_read` -/

/-- A read that completes: the line was submitted, the bytes come from the buffer, which is cleared. -/
theorem terminalRead_line {n : Int} (hn : 0 < n) {v : Int} {bytes : List UInt8}
    (h : terminalRead k false n = some (k', v, bytes)) :
    let t := k.terminals k.scheduledProcess
    t.keyFlag ≠ 0 ∧ v = min (t.strlenBuf : Int) n ∧ bytes = bytesAt t.bufView v.toNat ∧
      k'.currTerm = k.currTerm ∧ (k'.terminals k.scheduledProcess).line = t.line.clear ∧
      ∀ u, u ≠ k.scheduledProcess → k'.terminals u = k.terminals u := by
  intro t
  have hbytes : ((if (t.strlenBuf : Int) < n then t.strlenBuf else n.toNat : Nat) : Int) =
      min (t.strlenBuf : Int) n := by
    split_ifs
    · omega
    · omega
  unfold terminalRead at h
  rw [if_neg (by simp only [Bool.false_eq_true, or_false, not_le]; exact hn)] at h
  dsimp only at h
  by_cases hflag : t.keyFlag = 0
  · rw [if_pos hflag] at h
    cases h
  · rw [if_neg hflag, Option.some_inj, Prod.mk.injEq, Prod.mk.injEq] at h
    obtain ⟨rfl, rfl, rfl⟩ := h
    refine ⟨hflag, hbytes, by rw [Int.toNat_natCast], rfl, ?_, fun u hu => ?_⟩
    · rw [Kernel.modifyTerm_terminals_self, clearKeyboardBuf, Kernel.modifyTerm_terminals_self]
      rfl
    · rw [Kernel.modifyTerm_terminals_of_ne _ _ hu, clearKeyboardBuf, Kernel.modifyTerm_terminals_of_ne _ _ hu]

end BasicOs
