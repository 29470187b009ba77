import BasicOs.BufferSafety
import BasicOs.Cursor

/-!
# The cursor under editing

Keys and writes on the displayed terminal. The keys that erase call `backspace` as often as the line has
characters, displayed or not, and `backspace` keeps the cursor on the grid only while it is not at column 0.

* `Edited k k'` : a key kept to the screen, with one lemma for each function of the keyboard driver;
* `erasures` : the number of `backspace` calls a key makes; `EraseReady` : it fits before the cursor;
* `cursor_on_screen` : in runs whose keys meet the condition, the cursor never leaves the grid.
-/

namespace BasicOs
open Bytes Run

variable {k₀ k k' : Kernel} {t : Fin 3}

/-! ## The keys -/

/-- The output stayed on the screen, and the index of the line is not negative. -/
structure Edited (k k' : Kernel) : Prop where
  onScreen : OnScreen k k'
  idx : 0 ≤ k'.term.bufIdx

theorem ScreenOnly.bufIdx_eq (h : ScreenOnly k k') : k'.term.bufIdx = k.term.bufIdx := by
  rw [Kernel.term, h.currTerm_eq]
  exact congrArg Line.idx (h.line_eq k.currTerm)

theorem Edited.of_tty (h : Edited k₀ k) (htty : k'.toTty = k.toTty) : Edited k₀ k' := by
  refine ⟨⟨?_, ?_, ?_⟩, ?_⟩
  · rw [htty]
    exact h.onScreen.currTerm
  · rw [Kernel.term, htty]
    exact h.onScreen.grid
  · rw [htty]
    exact h.onScreen.mem
  · rw [Kernel.term, htty]
    exact h.idx

theorem Edited.puts (h : Edited k₀ k) (s : List UInt8) : Edited k₀ (puts k s) :=
  ⟨h.onScreen.puts s, by rw [(puts_screenOnly s k).bufIdx_eq]; exact h.idx⟩

/-- The index is set from `strlen`. -/
theorem OnScreen.measure (h : OnScreen k₀ k) : Edited k₀ (k.modifyTerm k.currTerm Term.measure) where
  onScreen := h.sameCursor (sameCursor_modifyTerm _ k _ fun _ => ⟨rfl, rfl⟩)
  idx := by
    rw [term_modifyTerm]
    exact Int.natCast_nonneg _

theorem Edited.modifyTerm (h : Edited k₀ k) {f : Term → Term}
    (hf : ∀ term, (f term).termX = term.termX ∧ (f term).termY = term.termY ∧ (f term).bufIdx = term.bufIdx) :
    Edited k₀ (k.modifyTerm k.currTerm f) where
  onScreen := h.onScreen.sameCursor (sameCursor_modifyTerm _ k _ fun term => ⟨(hf term).1, (hf term).2.1⟩)
  idx := by
    rw [term_modifyTerm, (hf _).2.2]
    exact h.idx

theorem Edited.typeLetter (h : Edited k₀ k) {c : UInt8} (hk : typeLetter k c = some k') : Edited k₀ k' := by
  obtain ⟨k₁, hk₁, hl⟩ := typeLetter_line k h.idx c
  obtain rfl : k' = k₁ := Option.some.inj (hk.symm.trans hk₁)
  refine ⟨?_, ?_⟩
  · unfold BasicOs.typeLetter at hk
    split_ifs at hk with hroom
    · obtain ⟨k₂, hk₂, rfl⟩ := Option.map_eq_some_iff.mp hk
      unfold addToBuf addToBufStores at hk₂
      rw [if_pos (by simp only [keyboardBufSize]; omega)] at hk₂
      obtain ⟨k₃, hk₃, hk₂⟩ := Option.bind_eq_some_iff.mp hk₂
      rw [if_pos (by simp only [keyboardBufSize]; omega)] at hk₂
      cases hk₂
      have hs := pokeAll_sameCursor (fun s hs => by rw [List.mem_singleton.mp hs]; exact h.idx) hk₃
      have hs' := hs.trans (sameCursor_modifyTerm k.currTerm k₃ k.currTerm
        (f := fun t => { t with bufIdx := t.bufIdx + 1 }) fun _ => ⟨rfl, rfl⟩)
      exact (h.onScreen.sameCursor hs').putc c
    · cases hk
      exact h.onScreen
  · rw [hl.bufIdx_eq]
    have h0 : 0 ≤ k.term.line.idx := h.idx
    unfold Line.type
    split_ifs
    · exact Int.add_nonneg h0 (by decide)
    · exact h0

/-- What `case BACKSPACE` does after the screen part. -/
theorem backspaceKey_sameCursor (h0 : 0 ≤ k.term.bufIdx) (h : backspaceKey k = some k') :
    SameCursor k.currTerm (eraseLast k) k' ∧ 0 ≤ k'.term.bufIdx := by
  have hl := (eraseLast_screenOnly k).lineIs (lineIs_self k)
  unfold backspaceKey at h
  rw [if_pos h0] at h
  obtain ⟨k₁, h₁, rfl⟩ := Option.map_eq_some_iff.mp h
  obtain ⟨hs, hidx⟩ := deleteFromBuf_sameCursor (by rw [hl.bufIdx_eq]; exact h0) h₁
  rw [hl.1] at hs
  refine ⟨hs.trans (sameCursor_modifyTerm _ k₁ _ fun _ => ⟨rfl, rfl⟩), ?_⟩
  rw [term_modifyTerm]
  exact hidx

theorem Edited.backspaceKey (h : Edited k₀ k) (hr : k.term.bufIdx > 0 → 1 ≤ k.term.termX)
    (hk : backspaceKey k = some k') : Edited k₀ k' := by
  obtain ⟨hs, hidx⟩ := backspaceKey_sameCursor h.idx hk
  refine ⟨?_, hidx⟩
  unfold eraseLast at hs
  by_cases hpos : k.term.bufIdx > 0
  · rw [if_pos hpos] at hs
    exact (h.onScreen.backspace (hr hpos)).1.sameCursor hs
  · rw [if_neg hpos] at hs
    exact h.onScreen.sameCursor hs

theorem Edited.keyboardReturn (h : Edited k₀ k) (hrow : 0 ≤ k.term.historyIdx)
    (hk : keyboardReturn k = some k') : Edited k₀ k' := by
  unfold BasicOs.keyboardReturn at hk
  obtain ⟨k₁, h₁, hk⟩ := Option.bind_eq_some_iff.mp hk
  obtain ⟨k₃, h₃, hk⟩ := Option.bind_eq_some_iff.mp hk
  cases hk
  have hrecord : Edited k₀ k₁ := by
    refine ⟨h.onScreen.sameCursor (recordLine_sameCursor hrow h₁), ?_⟩
    obtain ⟨k₁', row, h₁', -, hl⟩ := recordLine_line k hrow
    obtain rfl : k₁ = k₁' := Option.some.inj (h₁.symm.trans h₁')
    rw [hl.bufIdx_eq]
    exact h.idx
  have hline : Edited k₀ (if k₁.term.keyboardBuf 0 ≠ chNewline then putc k₁ chNewline k₁.currTerm else k₁) := by
    split_ifs
    · exact hrecord.puts [chNewline]
    · exact hrecord
  generalize (if k₁.term.keyboardBuf 0 ≠ chNewline then putc k₁ chNewline k₁.currTerm else k₁) = k₂ at h₃ hline
  have hidx := hline.idx
  have hs := pokeBuf_sameCursor (by omega) h₃
  have hnewline := pokeNewline_bufIdx hidx h₃
  refine ⟨(hline.onScreen.sameCursor hs).sameCursor (sameCursor_modifyTerm _ k₃ _ fun _ => ⟨rfl, rfl⟩), ?_⟩
  rw [term_modifyTerm]
  exact Int.add_nonneg hnewline (by decide)

/-- The line is erased, which must fit before the cursor, and another one printed. -/
theorem OnScreen.recallRow (h : OnScreen k₀ k) (hn : (k.term.bufIdx.toNat : Int) ≤ k.term.termX) :
    Edited k₀ (recallRow k) := by
  have hb := h.backspaces hn
  unfold BasicOs.recallRow
  generalize BasicOs.backspaces k k.term.bufIdx.toNat = k₁ at hb
  have hrow := hb.sameCursor (sameCursor_modifyTerm k₁.currTerm k₁ k₁.currTerm (f := fun t => t.copyRow
    (strncpy (fun j => k₁.termsByte (historyAddr k₁.currTerm k₁.term.historyIdx + j).toNat) keyboardBufSize))
    fun _ => ⟨rfl, rfl⟩)
  exact hrow.measure.puts _

theorem Edited.moveUpHistory (h : Edited k₀ k) (hrow : 0 ≤ k.term.historyIdx)
    (hn : (k.term.bufIdx.toNat : Int) ≤ k.term.termX) (hk : moveUpHistory k = some k') : Edited k₀ k' := by
  obtain ⟨k₁, h₁, rfl⟩ := Option.map_eq_some_iff.mp hk
  have hs := keepLatest_sameCursor hrow h₁
  have hidx : k₁.term.bufIdx = k.term.bufIdx := by
    unfold keepLatest at h₁
    split_ifs at h₁
    · obtain ⟨k₂, h₂, hl, -⟩ := saveHistory_line k hrow
      obtain rfl : k₁ = k₂ := Option.some.inj (h₁.symm.trans h₂)
      exact hl.bufIdx_eq
    · cases h₁
      rfl
  refine OnScreen.recallRow ((h.onScreen.sameCursor hs).sameCursor
    (sameCursor_modifyTerm _ k₁ _ fun _ => ⟨rfl, rfl⟩)) ?_
  rw [term_modifyTerm]
  dsimp only
  rw [hidx, hs.term_x]
  exact hn

theorem Edited.moveDownHistory (h : Edited k₀ k)
    (hn : MovesDown k → (k.term.bufIdx.toNat : Int) ≤ k.term.termX) : Edited k₀ (moveDownHistory k) := by
  unfold BasicOs.moveDownHistory
  split_ifs with hstay
  · exact h
  · refine OnScreen.recallRow (h.onScreen.sameCursor (sameCursor_modifyTerm _ k _ fun _ => ⟨rfl, rfl⟩)) ?_
    rw [term_modifyTerm]
    exact hn hstay

theorem Edited.autocomplete (h : Edited k₀ k) {stale : Nat → UInt8} {fmt : List UInt8 → List UInt8}
    (hn : ∀ oldIdx best resetRepeats, completeWord k.fs k.term stale = some (.replace oldIdx best resetRepeats) →
      ((k.term.strlenBuf - 1 - oldIdx : Nat) : Int) ≤ k.term.termX)
    (hk : autocomplete k stale fmt = some k') : Edited k₀ k' := by
  unfold BasicOs.autocomplete at hk
  obtain ⟨c, hc, hk⟩ := Option.bind_eq_some_iff.mp hk
  cases c with
  | nothing =>
    cases hk
    exact h
  | ambiguous ls =>
    have hrepeat := h.modifyTerm (f := fun t => { t with acRepeats := t.acRepeats + 1 }) fun _ => ⟨rfl, rfl, rfl⟩
    dsimp only at hk
    split_ifs at hk
    · cases hk
      exact hrepeat.puts _
    · cases hk
      exact hrepeat
  | replace oldIdx best resetRepeats =>
    have hreset : SameCursor k.currTerm k
        (if resetRepeats then k.modifyTerm k.currTerm fun t => { t with acRepeats := 0 } else k) := by
      split_ifs
      · exact sameCursor_modifyTerm _ k _ fun _ => ⟨rfl, rfl⟩
      · exact SameCursor.refl _ k
    dsimp only at hk
    generalize (if resetRepeats then k.modifyTerm k.currTerm fun t => { t with acRepeats := 0 } else k) = k₁
      at hk hreset
    obtain ⟨k₂, h₂, hk⟩ := Option.bind_eq_some_iff.mp hk
    cases hk
    rw [hreset.currTerm] at h₂
    have hstores : ∀ s ∈ replaceStores oldIdx best, 0 ≤ s.1 := by
      intro s hs
      obtain ⟨j, -, rfl⟩ := List.mem_map.mp hs
      exact Int.natCast_nonneg _
    have hs := hreset.trans (pokeAll_sameCursor hstores h₂)
    have hb := (h.onScreen.sameCursor hs).backspaces (n := k.term.strlenBuf - 1 - oldIdx) (by
      rw [hs.term_x]
      exact hn _ _ _ hc)
    generalize BasicOs.backspaces k₂ (k.term.strlenBuf - 1 - oldIdx) = k₃ at hb ⊢
    exact hb.measure.puts _

theorem Edited.clear (h : Edited k₀ k) : Edited k₀ (clear k) :=
  ⟨h.onScreen.clear, by rw [(clear_screenOnly k).bufIdx_eq]; exact h.idx⟩

theorem Edited.controlKey (h : Edited k₀ k) (scancode : UInt8) : Edited k₀ (controlKey k scancode) := by
  rcases controlKey_cases k scancode with ⟨-, s, hc⟩ | ⟨-, hc⟩ | ⟨-, hc⟩
  · rw [hc]
    exact h.clear.puts s
  · rw [hc]
    exact h.of_tty rfl
  · rw [hc]
    exact h

/-- Alt with F1, F2 or F3, which displays another terminal. -/
def switchKey (k : Kernel) (scancode : UInt8) : Bool :=
  k.altPressed && (scancode == scF1 || scancode == scF2 || scancode == scF3)

/-- The number of calls of `backspace` that a key makes. -/
def erasures (k : Kernel) (scancode : UInt8) (stale : Nat → UInt8) : Nat :=
  match keyCase scancode with
  | .backspace => if k.term.bufIdx > 0 then 1 else 0
  | .up => k.term.bufIdx.toNat
  | .down =>
    if k.term.absoluteHistoryIdx < k.term.historyIdx + 1 ∨ k.term.historyIdx + 1 > 99 then 0
    else k.term.bufIdx.toNat
  | .tab =>
    match completeWord k.fs k.term stale with
    | some (.replace oldIdx _ _) => k.term.strlenBuf - 1 - oldIdx
    | _ => 0
  | _ => 0

/-- The condition on a key: it erases no more characters than there are columns before the cursor, and a row
that the line is saved in is not before the array. -/
def EraseReady (k : Kernel) (scancode : UInt8) (stale : Nat → UInt8) : Prop :=
  (erasures k scancode stale : Int) ≤ k.term.termX ∧
    (keyCase scancode = .enter ∨ keyCase scancode = .up → 0 ≤ k.term.historyIdx)

theorem Edited.processKey (h : Edited k₀ k) {scancode : UInt8} (hsw : switchKey k scancode = false)
    (hk : processKey k scancode = some k') : Edited k₀ k' := by
  unfold BasicOs.processKey at hk
  split_ifs at hk with hrel hrow hctrl halt
  · cases hk
    exact h
  · cases hk
    exact h
  · cases hk
    exact h.controlKey scancode
  · cases hk
    rw [switchKey, halt, Bool.true_and, Bool.or_eq_false_iff, Bool.or_eq_false_iff] at hsw
    obtain ⟨⟨h1, h2⟩, h3⟩ := hsw
    rw [altKey, if_neg (ne_of_beq_false h1), if_neg (ne_of_beq_false h2), if_neg (ne_of_beq_false h3)]
    exact h
  · exact h.typeLetter hk

/-- A key that meets the condition. -/
theorem Edited.dispatchKey (h : Edited k₀ k) {scancode : UInt8} {stale : Nat → UInt8}
    {fmt : List UInt8 → List UInt8} (hsw : switchKey k scancode = false) (hr : EraseReady k scancode stale)
    (hk : dispatchKey k scancode stale fmt = some k') : Edited k₀ k' := by
  obtain ⟨hn, hrow⟩ := hr
  unfold erasures at hn
  unfold BasicOs.dispatchKey at hk
  cases hcase : keyCase scancode <;> rw [hcase] at hk hn hrow <;> dsimp only at hn
  case enter => exact h.keyboardReturn (hrow (Or.inl rfl)) hk
  case tab =>
    refine h.autocomplete (fun oldIdx best resetRepeats hc => ?_) hk
    rw [hc] at hn
    exact hn
  case up => exact h.moveUpHistory (hrow (Or.inr rfl)) hn hk
  case down =>
    cases hk
    apply h.moveDownHistory
    intro hmoves
    rw [if_neg hmoves] at hn
    exact hn
  case backspace =>
    refine h.backspaceKey (fun hpos => ?_) hk
    rw [if_pos hpos] at hn
    exact hn
  case other => exact h.processKey hsw hk
  all_goals
    cases hk
    exact h.of_tty rfl

/-! ## Events and runs -/

/-- The events of a line, and `terminal_write`. -/
inductive EditEvent
  | line (e : LineEvent)
  | write (buf : Option (Nat → UInt8)) (nbytes : Int)

def editStep (k : Kernel) : EditEvent → Option Kernel
  | .line e => lineStep k e
  | .write buf nbytes => some (terminalWrite k buf nbytes).1

/-- The events of terminal `t`: the keys while it is displayed, but for the switch to another one, and the writes
of the process scheduled on it; reads by any process. What happens elsewhere leaves its cursor and its line alone. -/
def Edits (t : Fin 3) (k : Kernel) : EditEvent → Prop
  | .line (.key scancode _ _) => k.currTerm = t ∧ switchKey k scancode = false
  | .line (.read _) => True
  | .line (.elsewhere k') => (k'.terminals t).line = (k.terminals t).line ∧
      (k'.terminals t).termX = (k.terminals t).termX ∧ (k'.terminals t).termY = (k.terminals t).termY
  | .write _ _ => k.currTerm = t ∧ k.scheduledProcess = t

/-- The condition on an event. -/
def EditReady (k : Kernel) : EditEvent → Prop
  | .line (.key scancode stale _) => EraseReady k scancode stale
  | _ => True

/-- The video memory before and after each event of the terminal. -/
abbrev OutputLog := List ((Int → UInt8) × (Int → UInt8))

/-- The observer. -/
def noteOutput (log : OutputLog) (k : Kernel) (e : EditEvent) (k' : Kernel) : OutputLog :=
  match e with
  | .line (.elsewhere _) => log
  | _ => log ++ [(k.videoMem, k'.videoMem)]

/-- The invariant: the cursor is on the grid, and the index of the line is not negative. -/
def Term.Editable (term : Term) : Prop := term.OnGrid ∧ 0 ≤ term.bufIdx

theorem Edited.editable (h : Edited k k') : (k'.terminals k.currTerm).Editable := by
  rw [← h.onScreen.currTerm]
  exact ⟨h.onScreen.grid, h.idx⟩

theorem key_edited (h : k.term.Editable) {scancode : UInt8} {stale : Nat → UInt8} {fmt : List UInt8 → List UInt8}
    (hsw : switchKey k scancode = false) (hr : EraseReady k scancode stale)
    (hk : lineStep k (.key scancode stale fmt) = some k') : Edited k k' := by
  have hself : Edited k k := ⟨OnScreen.refl h.1, h.2⟩
  obtain ⟨⟨k₁, halts⟩, hk₁, rfl⟩ := Option.map_eq_some_iff.mp hk
  rcases keyboardHandler_tty hk₁ with ⟨rfl, -⟩ | ⟨k₂, hk₂, htty⟩
  · exact hself
  · exact (hself.dispatchKey hsw hr hk₂).of_tty htty

/-- A read clears the line of the process scheduled. -/
theorem read_editable (h : (k.terminals t).Editable) {n : Int} (hk : lineStep k (.read n) = some k') :
    (k'.terminals t).Editable ∧ k'.videoMem = k.videoMem := by
  obtain ⟨⟨k₁, v, bytes⟩, hk₁, rfl⟩ := Option.map_eq_some_iff.mp hk
  unfold terminalRead at hk₁
  by_cases hn : n ≤ 0 ∨ false = true
  · rw [if_pos hn] at hk₁
    cases hk₁
    exact ⟨h, rfl⟩
  rw [if_neg hn] at hk₁
  dsimp only at hk₁
  by_cases hflag : (k.terminals k.scheduledProcess).keyFlag = 0
  · rw [if_pos hflag] at hk₁
    cases hk₁
  · rw [if_neg hflag, Option.some_inj, Prod.mk.injEq] at hk₁
    obtain ⟨rfl, -⟩ := hk₁
    refine ⟨?_, rfl⟩
    by_cases ht : t = k.scheduledProcess
    · rw [← ht, Kernel.modifyTerm_terminals_self, clearKeyboardBuf, Kernel.modifyTerm_terminals_self]
      exact ⟨h.1, le_refl 0⟩
    · rw [Kernel.modifyTerm_terminals_of_ne _ _ ht, clearKeyboardBuf, Kernel.modifyTerm_terminals_of_ne _ _ ht]
      exact h

theorem write_edited (h : k.term.Editable) (hs : k.scheduledProcess = k.currTerm) (buf : Option (Nat → UInt8))
    (nbytes : Int) : Edited k (terminalWrite k buf nbytes).1 := by
  have hself : OnScreen k k := OnScreen.refl h.1
  refine ⟨?_, by rw [(terminalWrite_screenOnly k buf nbytes).bufIdx_eq]; exact h.2⟩
  unfold terminalWrite
  cases buf with
  | none => exact hself
  | some b =>
    dsimp only
    split_ifs
    · exact hself
    · have hloop : ∀ n, ScreenOnly k (forUp 0 n (fun i k => if b i ≠ 0 then putc k (b i) k.scheduledProcess else k) k) ∧
          OnScreen k (forUp 0 n (fun i k => if b i ≠ 0 then putc k (b i) k.scheduledProcess else k) k) := by
        intro n
        apply forUp_invariant (fun _ k' => ScreenOnly k k' ∧ OnScreen k k') n 0 k ⟨ScreenOnly.refl k, hself⟩
        intro i k' _ _ ⟨hso, hos⟩
        split_ifs
        · have hsched : k'.scheduledProcess = k'.currTerm := by
            rw [hos.currTerm, ← hs]
            obtain ⟨tty, rfl, -⟩ := hso
            rfl
          rw [hsched]
          exact ⟨hso.trans (putc_screenOnly k' _ _), hos.putc (b i)⟩
        · exact ⟨hso, hos⟩
      exact (hloop _).2

/-- One event that meets the condition keeps the invariant; unless it is elsewhere, it writes on the screen only. -/
theorem editStep_editable {e : EditEvent} (h : (k.terminals t).Editable) (he : Edits t k e) (hr : EditReady k e)
    (hk : editStep k e = some k') : (k'.terminals t).Editable ∧
      ((∀ k₁, e ≠ .line (.elsewhere k₁)) → ∀ a, OffScreen a → k'.videoMem a = k.videoMem a) := by
  cases e with
  | line e =>
    cases e with
    | key scancode stale fmt =>
      obtain ⟨rfl, hsw⟩ := he
      have hedit := key_edited h hsw hr hk
      exact ⟨hedit.editable, fun _ => hedit.onScreen.mem⟩
    | read n =>
      obtain ⟨hedit, hmem⟩ := read_editable h hk
      exact ⟨hedit, fun _ a _ => congrFun hmem a⟩
    | elsewhere k₁ =>
      cases hk
      obtain ⟨hline, hx, hy⟩ := he
      refine ⟨⟨?_, ?_⟩, fun hne => absurd rfl (hne _)⟩
      · unfold Term.OnGrid
        rw [hx, hy]
        exact h.1
      · rw [show (k'.terminals t).bufIdx = (k.terminals t).bufIdx from congrArg Line.idx hline]
        exact h.2
  | write buf nbytes =>
    obtain ⟨rfl, hs⟩ := he
    cases hk
    have hedit := write_edited h hs buf nbytes
    exact ⟨hedit.editable, fun _ => hedit.onScreen.mem⟩

/-- Backspace with a character in the line at column 0 takes the cursor to column -1. -/
theorem backspace_leaves (h : k.term.Editable) {scancode : UInt8} {stale : Nat → UInt8}
    {fmt : List UInt8 → List UInt8} (hcase : keyCase scancode = .backspace) (hr : ¬ EraseReady k scancode stale)
    (hk : lineStep k (.key scancode stale fmt) = some k') : (k'.terminals k.currTerm).termX = -1 := by
  have hrow : keyCase scancode = .enter ∨ keyCase scancode = .up → 0 ≤ k.term.historyIdx := by
    rw [hcase]
    exact fun h => h.elim nofun nofun
  have hx0 := h.1.1.1
  obtain ⟨hpos, hx⟩ : k.term.bufIdx > 0 ∧ k.term.termX = 0 := by
    have hn : ¬ (erasures k scancode stale : Int) ≤ k.term.termX := fun hn => hr ⟨hn, hrow⟩
    unfold erasures at hn
    rw [hcase] at hn
    dsimp only at hn
    split_ifs at hn
    · exact ⟨‹_›, by omega⟩
    · exact absurd hx0 hn
  obtain ⟨⟨k₁, halts⟩, hk₁, rfl⟩ := Option.map_eq_some_iff.mp hk
  rcases keyboardHandler_tty hk₁ with ⟨-, hhigh⟩ | ⟨k₂, hk₂, htty⟩
  · rw [(letterPressed_high (k := k) hhigh).1] at hcase
    cases hcase
  · unfold dispatchKey at hk₂
    rw [hcase] at hk₂
    obtain ⟨hs, -⟩ := backspaceKey_sameCursor h.2 hk₂
    dsimp only
    rw [htty, hs.x, eraseLast, if_pos hpos]
    show (backspace k).term.termX = -1
    rw [backspace_term, hx]
    rfl

/-- **The cursor under editing.** From boot, in every run of keys and writes on a terminal while it is displayed,
reads, and steps elsewhere that meets the condition, the cursor of the terminal is on the grid, and no event
changed a byte outside the 4000 bytes of the screen. In each state reached, Backspace keeps the cursor on the grid
exactly if it meets the condition. -/
theorem cursor_on_screen {t : Fin 3} {k₀ k : Kernel} {local_ : Fin 3 → Term} {log : OutputLog}
    (h : Reach (observed editStep noteOutput) (fun p e => Edits t p.1 e ∧ EditReady p.1 e)
      (initialBoot k₀ local_, []) (k, log)) :
    ((0 ≤ (k.terminals t).termX ∧ (k.terminals t).termX < 80) ∧
      0 ≤ (k.terminals t).termY ∧ (k.terminals t).termY < 25) ∧
    (∀ p ∈ log, ∀ a, ¬ (0xB8000 ≤ a ∧ a < 0xB8000 + 4000) → p.2 a = p.1 a) ∧
    ∀ scancode stale fmt k', keyCase scancode = .backspace → Edits t k (.line (.key scancode stale fmt)) →
      editStep k (.line (.key scancode stale fmt)) = some k' →
      ((k'.terminals t).OnGrid ↔ EraseReady k scancode stale) := by
  have hinv : (k.terminals t).Editable ∧ ∀ p ∈ log, ∀ a, OffScreen a → p.2 a = p.1 a := by
    refine h.invariant (I := fun p => (p.1.terminals t).Editable ∧ ∀ q ∈ p.2, ∀ a, OffScreen a → q.2 a = q.1 a)
      ⟨⟨⟨⟨le_refl 0, show (0 : Int) < 80 by decide⟩, le_refl 0, show (0 : Int) < 25 by decide⟩, le_refl 0⟩,
        fun _ hp => (nomatch hp)⟩ ?_
    intro p e q ⟨hedit, hlog⟩ hok hs
    obtain ⟨hstep, hq⟩ := observed_eq_some.mp hs
    obtain ⟨hedit', hmem⟩ := editStep_editable hedit hok.1 hok.2 hstep
    refine ⟨hedit', ?_⟩
    rw [hq]
    unfold noteOutput
    split
    · exact hlog
    · rename_i hne
      intro r hr
      rcases List.mem_append.mp hr with hr | hr
      · exact hlog r hr
      · rw [List.mem_singleton.mp hr]
        exact hmem hne
  refine ⟨hinv.1.1, hinv.2, ?_⟩
  rintro scancode stale fmt k' hcase ⟨rfl, hsw⟩ hk
  constructor
  · intro hgrid
    by_contra hr
    have hx := backspace_leaves hinv.1 hcase hr hk
    have hx0 := hgrid.1.1
    omega
  · intro hr
    exact (key_edited hinv.1 hsw hr hk).editable.1

instance (k : Kernel) (scancode : UInt8) (stale : Nat → UInt8) : Decidable (EraseReady k scancode stale) :=
  inferInstanceAs (Decidable (_ ∧ _))

/-- Decides that an event is one of the terminal, and not elsewhere. -/
def editsCheck (t : Fin 3) (k : Kernel) : EditEvent → Bool
  | .line (.key scancode _ _) => k.currTerm = t ∧ switchKey k scancode = false
  | .line (.read _) => true
  | .line (.elsewhere _) => false
  | .write _ _ => k.currTerm = t ∧ k.scheduledProcess = t

/-- Decides the condition. -/
def editReadyCheck (k : Kernel) : EditEvent → Bool
  | .line (.key scancode stale _) => EraseReady k scancode stale
  | _ => true

theorem editsCheck_sound {e : EditEvent} (h : editsCheck t k e = true) : Edits t k e := by
  cases e with
  | line e =>
    cases e with
    | key scancode stale fmt =>
      have hkey := of_decide_eq_true h
      exact hkey
    | read n => trivial
    | elsewhere k₁ => cases h
  | write buf nbytes =>
    have hwrite := of_decide_eq_true h
    exact hwrite

theorem editReadyCheck_sound {e : EditEvent} (h : editReadyCheck k e = true) : EditReady k e := by
  cases e with
  | line e =>
    cases e with
    | key scancode stale fmt => exact of_decide_eq_true (p := EraseReady k scancode stale) h
    | read n => trivial
    | elsewhere k₁ => trivial
  | write buf nbytes => trivial

/-- A key, with zeros on the stack. -/
def editKey (scancode : UInt8) : EditEvent := .line (plainKey scancode)

/-- The shell's prompt, written by its process. -/
def writePrompt : EditEvent := .write (some (ofList prompt)) 7

/-- The prompt, two letters, one of them erased, Up, which recalls the line itself, Tab, and Enter; the line is
read, and Backspace finds none. -/
theorem cursor_on_screen_session : ∃ k log,
    Reach (observed editStep noteOutput) (fun p e => Edits 0 p.1 e ∧ EditReady p.1 e) (zeroBoot, []) (k, log) ∧
    log.length = 10 ∧ ∀ p ∈ log, ∀ a, ¬ (0xB8000 ≤ a ∧ a < 0xB8000 + 4000) → p.2 a = p.1 a := by
  have hrun : (([writePrompt, editKey 0x1F, editKey 0x1E, editKey scBackspace, editKey scUp, editKey scTab,
      editKey scEnter, .line (.read 128), writePrompt, editKey scBackspace] : List EditEvent).foldlM
      (fun p e => if (editsCheck 0 p.1 e && editReadyCheck p.1 e) = true then observed editStep noteOutput p e
        else none) (zeroBoot, [])).map (fun p => p.2.length) = some 10 := by decide +kernel
  obtain ⟨⟨k, log⟩, hrun, hview⟩ := Option.map_eq_some_iff.mp hrun
  have hsound : ∀ (p : Kernel × OutputLog) e,
      (editsCheck 0 p.1 e && editReadyCheck p.1 e) = true → Edits 0 p.1 e ∧ EditReady p.1 e := by
    intro p e h
    obtain ⟨hedits, hready⟩ := Bool.and_eq_true_iff.mp h
    exact ⟨editsCheck_sound hedits, editReadyCheck_sound hready⟩
  have hreach := Reach.of_foldlM (fun (p : Kernel × OutputLog) e => editsCheck 0 p.1 e && editReadyCheck p.1 e)
    hsound _ (.refl _) hrun
  exact ⟨k, log, hreach, hview, (cursor_on_screen hreach).2.1⟩

/-- After the prompt at the top of the screen, Esc, which has no character, and Backspace, eight times each: the
last one finds the cursor at column 0, moves it to column -1 and writes below `0xB8000`. -/
theorem cursor_leaves_screen : ∃ k log,
    Reach (observed editStep noteOutput) (fun p e => Edits 0 p.1 e) (zeroBoot, []) (k, log) ∧
    (k.terminals 0).termX = -1 ∧ ∃ p ∈ log, p.2 (0xB8000 - 1) ≠ p.1 (0xB8000 - 1) := by
  have hrun : ((writePrompt :: List.replicate 8 (editKey 0x01) ++ List.replicate 8 (editKey scBackspace)).foldlM
      (fun p e => if editsCheck 0 p.1 e = true then observed editStep noteOutput p e else none) (zeroBoot, [])).map
      (fun p => ((p.1.terminals 0).termX, p.2.any fun q => q.2 (0xB8000 - 1) ≠ q.1 (0xB8000 - 1))) =
      some (-1, true) := by decide +kernel
  obtain ⟨⟨k, log⟩, hrun, hview⟩ := Option.map_eq_some_iff.mp hrun
  have hreach := Reach.of_foldlM (fun (p : Kernel × OutputLog) e => editsCheck 0 p.1 e)
    (fun p e => editsCheck_sound) _ (.refl _) hrun
  obtain ⟨hx, hany⟩ := Prod.mk.inj hview
  obtain ⟨p, hp, hne⟩ := List.any_eq_true.mp hany
  exact ⟨k, log, hreach, hx, p, hp, of_decide_eq_true hne⟩

end BasicOs
