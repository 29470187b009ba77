import BasicOs.HistoryRows
import BasicOs.Navigation

/-!
# What the history records

The rows before the latest index, against the lines submitted. An observer keeps the lines that are not empty, in the
order of Enter.

* `storedLines` : the lines in the rows before the latest index; `Logged` : they are those of the observer, and the
  rows behind the latest one are empty;
* `Records` : what Enter is to do with a line: it is appended, and a single Up shows it once the buffer was read;
* `LogReady` : the condition on Enter: the line is the latest, or it equals both the row it was recalled from and the
  line that was left there;
* `history_records` : in runs that meet the condition, the history holds the lines submitted, and Enter does what it
  is to do exactly if it meets the condition.
-/

namespace BasicOs
open Bytes Run

variable {k k' : Kernel} {e : HistoryEvent} {g : List (List UInt8)} {s : List UInt8}

/-! ## Lines stored and lines submitted -/

/-- The lines in the rows before the latest index. -/
def storedLines (t : Term) : List (List UInt8) :=
  (List.range t.absoluteHistoryIdx.toNat).map fun r => lineOf (t.history r)

/-- The observer keeps the lines that are submitted and not empty. -/
def noteSubmitted (g : List (List UInt8)) (k : Kernel) (e : HistoryEvent) (_ : Kernel) : List (List UInt8) :=
  match e with
  | .enter => if lineOf k.term.bufView = [] then g else g ++ [lineOf k.term.bufView]
  | _ => g

/-- What Enter is to do with the line `s` of terminal `t`: it is appended to the stored lines, which were all
submitted; once the process of the terminal has read the line, a single Up shows it. -/
structure Records (t : Fin 3) (k : Kernel) (g : List (List UInt8)) (s : List UInt8) (k' : Kernel) : Prop where
  lines : storedLines (k'.terminals t) = storedLines (k.terminals t) ++ [s]
  submitted : ∀ line ∈ storedLines (k'.terminals t), line ∈ g ++ [s]
  shown : ∀ n, 0 < n → ∃ k₁ v bytes k₂, terminalRead { k' with scheduledProcess := t } false n = some (k₁, v, bytes) ∧
    moveUpHistory k₁ = some k₂ ∧ ShowsLine k₁ k₂ s

/-- The line is the latest, or the row it was recalled from and the line left there are both equal to it. -/
def Latest (t : Term) (s : List UInt8) : Prop :=
  t.historyIdx = t.absoluteHistoryIdx ∨ s ≠ [] ∧ lineOf (t.history t.historyIdx.toNat) = s ∧
    lineOf (t.history t.absoluteHistoryIdx.toNat) = s

/-- The condition: Enter finds a line of at most 127 characters that is the latest, with a row behind it; steps
elsewhere leave the index in the buffer. -/
def LogReady (t : Fin 3) (k : Kernel) : HistoryEvent → Prop
  | .enter => ∃ s, Contains k.term.line s ∧ s.length ≤ 127 ∧ (s ≠ [] → k.term.absoluteHistoryIdx ≤ 98) ∧
      Latest k.term s
  | .elsewhere k' => (k'.terminals t).bufIdx ≤ 129
  | _ => True

/-- The invariant: the stored lines are those of the observer, and the rows behind the latest one are empty. -/
structure Logged (t : Term) (g : List (List UInt8)) : Prop where
  row : 0 ≤ t.historyIdx
  row_le : t.historyIdx ≤ t.absoluteHistoryIdx
  count : t.absoluteHistoryIdx = g.length
  room : g.length ≤ 99
  lines : ∀ r s, g[r]? = some s → lineOf (t.history r) = s ∧ s ≠ []
  free : ∀ r, g.length < r → r ≤ 99 → t.history r 0 = 0
  idx : 0 ≤ t.bufIdx ∧ t.bufIdx ≤ 129

theorem lineOf_eq_nil_iff (row : Nat → UInt8) : lineOf row = [] ↔ row 0 = 0 := by
  rw [lineOf, cstr_eq_nil_iff, ofList_bytesAt _ (by decide)]

namespace Logged
variable {t : Term}

theorem storedLines_eq (h : Logged t g) : storedLines t = g := by
  unfold storedLines
  rw [h.count, Int.toNat_natCast]
  apply List.ext_getElem
  · rw [List.length_map, List.length_range]
  · intro r hr hr'
    rw [List.getElem_map, List.getElem_range]
    exact (h.lines r g[r] (List.getElem?_eq_getElem hr')).1

theorem becomes (h : Logged t g) (hk : Becomes k k' t) : Logged k'.term g := by
  obtain ⟨x, y, hxy⟩ := hk.term
  rw [hxy]
  exact ⟨h.row, h.row_le, h.count, h.room, h.lines, h.free, h.idx⟩

/-- Another line. -/
theorem same {t' : Term} (h : Logged t g) (hs : SameHistory t t') (hidx : 0 ≤ t'.bufIdx ∧ t'.bufIdx ≤ 129) :
    Logged t' g := by
  obtain ⟨hrow, hlatest, hhistory⟩ := hs
  refine ⟨?_, ?_, ?_, h.room, ?_, ?_, hidx⟩
  · rw [hrow]
    exact h.row
  · rw [hrow, hlatest]
    exact h.row_le
  · rw [hlatest]
    exact h.count
  · rw [hhistory]
    exact h.lines
  · rw [hhistory]
    exact h.free

theorem typed (h : Logged t g) (letter : UInt8) : Logged (t.typed letter) g := by
  obtain ⟨h0, h129⟩ := h.idx
  unfold Term.typed
  split_ifs with hroom
  · rw [t.setByte_of_lt h0 (by omega)]
    exact h.same ⟨rfl, rfl, rfl⟩ (show 0 ≤ t.bufIdx + 1 ∧ t.bufIdx + 1 ≤ 129 by omega)
  · exact h

theorem erased (h : Logged t g) : Logged t.erased g := by
  obtain ⟨h0, h129⟩ := h.idx
  unfold Term.erased
  generalize ht : { t with bufIdx := t.bufIdx - 1 } = t₁
  have hsame : SameHistory t t₁ := by
    rw [← ht]
    exact ⟨rfl, rfl, rfl⟩
  have hidx₁ : t₁.bufIdx = t.bufIdx - 1 := by rw [← ht]
  obtain ⟨hrow, hlatest⟩ := t₁.setByte_indices (i := (16 + (t.bufIdx - 1)).toNat) (by omega) 0
  have hhistory := t₁.setByte_history (i := (16 + (t.bufIdx - 1)).toNat) (by omega) 0
  refine h.same ⟨hrow.trans hsame.1, hlatest.trans hsame.2.1, hhistory.trans hsame.2.2⟩ ?_
  dsimp only
  by_cases hz : t.bufIdx = 0
  · rw [t₁.setByte_bufIdx_of_lt (by omega), if_pos (by omega)]
    decide
  · have hrange := t₁.setByte_bufIdx (by omega) (by omega) (16 + (t.bufIdx - 1)).toNat (c := 0) (by decide)
    have hzero : ((0 : UInt8).toNat : Int) = 0 := rfl
    rw [hzero] at hrange
    rw [if_neg (by omega)]
    omega

theorem recalled (h : Logged t g) : Logged t.recalled g := by
  obtain ⟨h0, h129⟩ := h.idx
  refine h.same ⟨rfl, rfl, rfl⟩ ⟨Int.natCast_nonneg _, ?_⟩
  have hle : (t.copyRow (strncpy (t.history t.historyIdx.toNat) keyboardBufSize)).strlenBuf ≤ 129 := by
    apply strnlen_le_of_zero
    rw [Term.bufView_bufIdx _ (j := 1) (by decide)]
    show intByte t.bufIdx 1 = 0
    unfold intByte
    rw [show t.bufIdx / 256 ^ 1 % 256 = 0 by omega]
    rfl
  exact Int.ofNat_le.mpr hle

/-- The line kept in the latest row, or in the row it belongs to. -/
theorem kept (h : Logged t g) (hlatest : t.historyIdx = t.absoluteHistoryIdx) : Logged t.kept g := by
  have hother : ∀ r, r ≠ g.length → t.kept.history r = t.history r := by
    intro r hr
    have hcount := h.count
    exact Function.update_of_ne (by omega) ..
  refine ⟨h.row, h.row_le, h.count, h.room, fun r s hs => ?_, fun r hr hr' => ?_, h.idx⟩
  · have hr := (List.getElem?_eq_some_iff.mp hs).1
    rw [hother r (by omega)]
    exact h.lines r s hs
  · rw [hother r (by omega)]
    exact h.free r hr hr'

theorem movedUp (h : Logged t g) : Logged t.movedUp g := by
  have hkept : Logged t.keptLatest g := by
    unfold Term.keptLatest
    split_ifs with hlatest
    · exact h.kept hlatest.symm
    · exact h
  have hrow := h.row
  have hle := h.row_le
  have hcount := h.count
  have hcount' := hkept.count
  apply recalled
  refine ⟨?_, ?_, hkept.count, hkept.room, hkept.lines, hkept.free, hkept.idx⟩
  · dsimp only
    split_ifs <;> omega
  · dsimp only
    split_ifs <;> omega

theorem movedDown (h : Logged t g) : Logged t.movedDown g := by
  unfold Term.movedDown
  split_ifs with hstay
  · exact h
  · have hrow := h.row
    exact recalled ⟨by dsimp only; omega, by dsimp only; omega, h.count, h.room, h.lines, h.free, h.idx⟩

end Logged

/-! ## Enter -/

theorem entered_sameHistory {t : Term} (h0 : 0 ≤ t.bufIdx) (h128 : t.bufIdx ≤ 128) : SameHistory t t.entered := by
  obtain ⟨hrow, hlatest⟩ := t.setByte_indices (i := (16 + t.bufIdx).toNat) (by omega) chNewline
  exact ⟨hrow, hlatest, t.setByte_history (by omega) chNewline⟩

/-- The lines in the rows once the line was kept. -/
theorem lineOf_kept {t : Term} (h0 : 0 ≤ t.historyIdx) (hs : Contains t.line s) (r : Nat) :
    lineOf (t.kept.history r) = if (r : Int) = t.historyIdx then s else lineOf (t.history r) := by
  have hrow : ((r : Int) = t.historyIdx) ↔ r = t.historyIdx.toNat := by omega
  unfold Term.kept
  dsimp only
  rw [Function.update_apply]
  simp only [hrow]
  split_ifs
  · rw [lineOf_strncpy, hs.lineOf_bufView]
  · rfl

namespace Logged
variable {t : Term}

theorem lineOf_ne_nil (h : Logged t g) {r : Nat} (hr : r < g.length) : lineOf (t.history r) ≠ [] := by
  obtain ⟨hline, hne⟩ := h.lines r g[r] (List.getElem?_eq_getElem hr)
  rw [hline]
  exact hne

/-- The scan stops at the latest row if it is empty, and behind it otherwise. -/
theorem firstEmpty_kept (h : Logged t g) (hs : Contains t.line s) (hne : s ≠ []) (ha : g.length ≤ 98) :
    t.kept.firstEmpty =
      some (if lineOf (t.kept.history g.length) = [] then g.length else g.length + 1) := by
  have hcount := h.count
  have hle := h.row_le
  have hbefore : ∀ r, r < g.length → t.kept.history r 0 ≠ 0 := by
    intro r hr
    rw [Ne, ← lineOf_eq_nil_iff, lineOf_kept h.row hs]
    split_ifs
    · exact hne
    · exact h.lineOf_ne_nil hr
  have hbehind : t.kept.history (g.length + 1) 0 = 0 := by
    rw [← lineOf_eq_nil_iff, lineOf_kept h.row hs, if_neg (by omega), lineOf_eq_nil_iff]
    exact h.free _ (by omega) (by omega)
  rw [Term.firstEmpty_eq_some]
  split_ifs with hempty
  · exact ⟨(lineOf_eq_nil_iff _).mp hempty, by omega, hbefore⟩
  · refine ⟨hbehind, by omega, fun r hr => ?_⟩
    by_cases hra : r = g.length
    · rw [hra, Ne, ← lineOf_eq_nil_iff]
      exact hempty
    · exact hbefore r (by omega)

/-- The line is in its place exactly if it is the latest, or was equal to both rows. -/
theorem kept_lines_iff (h : Logged t g) (hs : Contains t.line s) (hne : s ≠ []) :
    ((∀ r, r < g.length → lineOf (t.kept.history r) = lineOf (t.history r)) ∧
      lineOf (t.kept.history g.length) = s) ↔ Latest t s := by
  have hcount := h.count
  have hrow := h.row
  have hle := h.row_le
  have hkept := fun r => lineOf_kept hrow hs r
  have hlatest : t.absoluteHistoryIdx.toNat = g.length := by omega
  unfold Latest
  rw [hlatest]
  constructor
  · rintro ⟨hbefore, hown⟩
    by_cases heq : t.historyIdx = t.absoluteHistoryIdx
    · exact Or.inl heq
    · refine Or.inr ⟨hne, ?_, ?_⟩
      · rw [← hbefore _ (by omega), hkept, if_pos (by omega)]
      · rw [hkept, if_neg (by omega)] at hown
        exact hown
  · rintro (heq | ⟨-, hrecalled, hleft⟩)
    · refine ⟨fun r hr => ?_, ?_⟩
      · rw [hkept, if_neg (by omega)]
      · rw [hkept, if_pos (by omega)]
    · refine ⟨fun r hr => ?_, ?_⟩
      · rw [hkept]
        split_ifs with hr'
        · rw [← hrecalled, ← hr', Int.toNat_natCast]
        · rfl
      · rw [hkept]
        split_ifs
        · rfl
        · exact hleft

/-- Enter appends the line exactly if it is the latest, or was equal to both rows. -/
theorem enter_lines_iff (h : Logged t g) (hs : Contains t.line s) (hne : s ≠ []) {i : Nat}
    (hi : i = if lineOf (t.kept.history g.length) = [] then g.length else g.length + 1) :
    (List.range i).map (fun r => lineOf (t.kept.history r)) = storedLines t ++ [s] ↔ Latest t s := by
  have hstored : storedLines t = (List.range g.length).map fun r => lineOf (t.history r) := by
    unfold storedLines
    rw [h.count, Int.toNat_natCast]
  have hlen : ((List.range g.length).map fun r => lineOf (t.kept.history r)).length =
      ((List.range g.length).map fun r => lineOf (t.history r)).length := by
    rw [List.length_map, List.length_map]
  rw [← h.kept_lines_iff hs hne, hstored, hi]
  constructor
  · intro heq
    split_ifs at heq with hempty
    · have := congrArg List.length heq
      rw [List.length_append, hlen] at this
      exact absurd this (by simp)
    · rw [List.range_succ, List.map_append] at heq
      obtain ⟨hbefore, hown⟩ := List.append_inj heq hlen
      refine ⟨fun r hr => ?_, List.singleton_inj.mp hown⟩
      exact List.map_inj_left.mp hbefore r (List.mem_range.mpr hr)
  · rintro ⟨hbefore, hown⟩
    rw [if_neg (by rw [hown]; exact hne), List.range_succ, List.map_append, List.map_singleton, hown]
    congr 1
    exact List.map_congr_left fun r hr => hbefore r (List.mem_range.mp hr)

/-- The invariant after Enter. -/
theorem entered (h : Logged t g) (hs : Contains t.line s) (hne : s ≠ []) (ha : g.length ≤ 98)
    (hlen : s.length ≤ 127) (hlatest : Latest t s) : Logged (t.recorded (g.length + 1)).entered (g ++ [s]) := by
  have hidx : t.bufIdx = s.length := hs.idx
  have hcount := h.count
  have hle := h.row_le
  obtain ⟨hbefore, hown⟩ := (h.kept_lines_iff hs hne).mpr hlatest
  have hlength : (g ++ [s]).length = g.length + 1 := by rw [List.length_append, List.length_singleton]
  have hrecorded : Logged (t.recorded (g.length + 1)) (g ++ [s]) := by
    refine ⟨Int.natCast_nonneg _, le_refl _, by rw [hlength]; rfl, by omega, fun r s' hr => ?_,
      fun r hr hr' => ?_, h.idx⟩
    · show lineOf (t.kept.history r) = s' ∧ s' ≠ []
      by_cases hra : r < g.length
      · rw [List.getElem?_append_left hra] at hr
        rw [hbefore r hra]
        exact h.lines r s' hr
      · have hr'' := (List.getElem?_eq_some_iff.mp hr).1
        obtain rfl : r = g.length := by omega
        rw [List.getElem?_concat_length, Option.some_inj] at hr
        rw [hown]
        exact ⟨hr, hr ▸ hne⟩
    · show t.kept.history r 0 = 0
      rw [← lineOf_eq_nil_iff, lineOf_kept h.row hs, if_neg (by omega), lineOf_eq_nil_iff]
      exact h.free r (by omega) hr'
  have hbuf := (t.recorded (g.length + 1)).entered_of_lt h.idx.1 (show t.bufIdx < 128 by omega)
  refine hrecorded.same (entered_sameHistory h.idx.1 (show t.bufIdx ≤ 128 by omega)) ?_
  rw [hbuf]
  show 0 ≤ t.bufIdx + 1 ∧ t.bufIdx + 1 ≤ 129
  omega

/-- An empty line, submitted at the latest row. -/
theorem entered_nil (h : Logged t g) (hs : Contains t.line []) (hlatest : t.historyIdx = t.absoluteHistoryIdx) :
    t.kept.firstEmpty = some g.length ∧ Logged (t.recorded g.length).entered g := by
  have hidx : t.bufIdx = 0 := hs.idx
  have hcount := h.count
  have hkept := h.kept hlatest
  have hroom := h.room
  constructor
  · refine Term.firstEmpty_eq_some.mpr ⟨?_, h.room, fun r hr => ?_⟩
    · rw [← lineOf_eq_nil_iff, lineOf_kept h.row hs, if_pos (by omega)]
    · rw [Ne, ← lineOf_eq_nil_iff]
      exact hkept.lineOf_ne_nil hr
  · have hrecorded : Logged (t.recorded g.length) g :=
      ⟨Int.natCast_nonneg _, le_refl _, rfl, h.room, hkept.lines, hkept.free, h.idx⟩
    have hbuf := (t.recorded g.length).entered_of_lt h.idx.1 (show t.bufIdx < 128 by omega)
    refine hrecorded.same (entered_sameHistory h.idx.1 (show t.bufIdx ≤ 128 by omega)) ?_
    rw [hbuf]
    show 0 ≤ t.bufIdx + 1 ∧ t.bufIdx + 1 ≤ 129
    omega

end Logged

/-! ## Up after the read -/

theorem ShowsLine.length_le (h : ShowsLine k k' s) : s.length ≤ 127 := by
  obtain ⟨k₁, -, hk₁, htext⟩ := h.screen
  apply h.line.text_eq_iff.mp
  rw [hk₁, (puts_becomes _ k₁).text_eq, htext]

variable {t : Fin 3}

/-- A read of a line that was submitted returns. -/
theorem terminalRead_of_flag (hflag : (k.terminals k.scheduledProcess).keyFlag ≠ 0) {n : Int} (hn : 0 < n) :
    ∃ k' v bytes, terminalRead k false n = some (k', v, bytes) := by
  unfold terminalRead
  rw [if_neg (by simp only [Bool.false_eq_true, or_false, not_le]; exact hn)]
  dsimp only
  rw [if_neg hflag]
  exact ⟨_, _, _, rfl⟩

/-- Once the line was read, a single Up shows the last row, if that ends with a NUL. -/
theorem shown_after_read {a : Nat} (ha : a + 1 ≤ 99) (hterm : k.currTerm = t) (hflag : (k.terminals t).keyFlag ≠ 0)
    (hrow : (k.terminals t).historyIdx = (a + 1 : Nat)) (hlatest : (k.terminals t).absoluteHistoryIdx = (a + 1 : Nat))
    (hline : lineOf ((k.terminals t).history a) = s) (hlen : s.length ≤ 127) {n : Int} (hn : 0 < n) :
    ∃ k₁ v bytes k₂, terminalRead { k with scheduledProcess := t } false n = some (k₁, v, bytes) ∧
      moveUpHistory k₁ = some k₂ ∧ ShowsLine k₁ k₂ s := by
  obtain ⟨k₁, v, bytes, hread⟩ := terminalRead_of_flag (k := { k with scheduledProcess := t }) hflag hn
  obtain ⟨⟨hrow₁, hlatest₁, hhistory⟩, -⟩ := terminalRead_terminals hread t
  obtain ⟨-, -, -, hterm₁, -, -⟩ := terminalRead_line hn hread
  have hk₁ : k₁.terminals t = k₁.term := by
    rw [Kernel.term, hterm₁]
    exact congrArg _ hterm.symm
  rw [hk₁] at hrow₁ hlatest₁ hhistory
  have hrow' := hrow₁.trans hrow
  have hat := atRow_first hrow' (hlatest₁.trans hlatest)
  obtain ⟨k₂, hk₂, -, hshows⟩ := moveUpHistory_shows k₁ (by omega) (by omega)
  have hlast : k₁.term.movedUp.history a = (k.terminals t).history a := by
    rw [hat.rows a (by omega), hhistory]
  refine ⟨k₁, v, bytes, k₂, hread, hk₂, ?_⟩
  have hiff := hshows a hat.idx
  rw [hlast, hline, terminated_iff, hline] at hiff
  exact hiff.mpr hlen

/-! ## Steps -/

/-- Enter on a line that is not empty. -/
theorem Logged.keyboardReturn (h : Logged k.term g) (hs : Contains k.term.line s) (hne : s ≠ []) (ha : g.length ≤ 98) :
    ∃ k', keyboardReturn k = some k' ∧ Becomes k k' (k.term.recorded
      (if lineOf (k.term.kept.history g.length) = [] then g.length else g.length + 1)).entered := by
  have hrow := h.row
  have hle := h.row_le
  have hcount := h.count
  have hidx : k.term.bufIdx = s.length := hs.idx
  have hlen := hs.length_le
  exact keyboardReturn_becomes k hrow (by omega) (by omega) (by omega) (h.firstEmpty_kept hs hne ha)

/-- Enter does what it is to do exactly if the line has at most 127 characters and is the latest, or was equal to both
rows. -/
theorem Logged.records_iff (h : Logged k.term g) (hs : Contains k.term.line s) (hne : s ≠ []) (ha : g.length ≤ 98) :
    (∃ k', historyStep k .enter = some k' ∧ Records k.currTerm k g s k') ↔ s.length ≤ 127 ∧ Latest k.term s := by
  obtain ⟨k', hk', hb⟩ := h.keyboardReturn hs hne ha
  have hidx : k.term.bufIdx = s.length := hs.idx
  have hlen := hs.length_le
  generalize hi : (if lineOf (k.term.kept.history g.length) = [] then g.length else g.length + 1) = i at hb
  obtain ⟨hrow, hlatest, hhistory⟩ := entered_sameHistory (t := k.term.recorded i) (show 0 ≤ k.term.bufIdx by omega)
    (show k.term.bufIdx ≤ 128 by omega)
  obtain ⟨x, y, hxy⟩ := hb.term
  have hterm : k'.terminals k.currTerm = (k.term.recorded i).entered.moveTo x y := by
    rw [← hxy, Kernel.term, hb.currTerm]
  have hstored : storedLines (k'.terminals k.currTerm) =
      (List.range i).map fun r => lineOf (k.term.kept.history r) := by
    rw [hterm]
    show (List.range (Int.toNat (k.term.recorded i).entered.absoluteHistoryIdx)).map
      (fun r => lineOf ((k.term.recorded i).entered.history r)) = _
    rw [hlatest, hhistory]
    rfl
  have hlines := h.enter_lines_iff hs hne hi.symm
  rw [← hstored] at hlines
  constructor
  · rintro ⟨k₁, hk₁, hrecords⟩
    obtain rfl : k' = k₁ := Option.some.inj (hk'.symm.trans hk₁)
    obtain ⟨k₂, v, bytes, k₃, -, -, hshown⟩ := hrecords.shown 1 (by decide)
    exact ⟨hshown.length_le, hlines.mp hrecords.lines⟩
  · rintro ⟨hroom, hlast⟩
    have happended := hlines.mpr hlast
    have hown := ((h.kept_lines_iff hs hne).mpr hlast).2
    rw [if_neg (by rw [hown]; exact hne)] at hi
    subst hi
    refine ⟨k', hk', happended, fun line hmem => ?_, fun n hn => ?_⟩
    · rw [happended] at hmem
      rw [← h.storedLines_eq]
      exact hmem
    · refine shown_after_read (a := g.length) (by omega) hb.currTerm ?_ ?_ ?_ ?_ hroom hn
      · rw [hterm]
        show (1 : Int) ≠ 0
        decide
      · rw [hterm]
        exact hrow
      · rw [hterm]
        exact hlatest
      · rw [hterm]
        show lineOf ((k.term.recorded (g.length + 1)).entered.history g.length) = s
        rw [hhistory]
        exact hown

theorem Logged.enter (h : Logged k.term g) (hr : LogReady t k .enter) : ∃ k', historyStep k .enter = some k' ∧
    Logged k'.term (noteSubmitted g k .enter k') ∧ k'.currTerm = k.currTerm := by
  obtain ⟨s, hs, hlen, hroom, hlatest⟩ : ∃ s, Contains k.term.line s ∧ _ := hr
  have hcount := h.count
  unfold noteSubmitted
  dsimp only
  rw [hs.lineOf_bufView]
  by_cases hne : s = []
  · subst hne
    have hle := h.row_le
    have hlast : k.term.historyIdx = k.term.absoluteHistoryIdx := hlatest.resolve_right fun hr => hr.1 rfl
    obtain ⟨hfirst, hlogged⟩ := h.entered_nil hs hlast
    have hidx : k.term.bufIdx = 0 := hs.idx
    have hroom' := h.room
    obtain ⟨k', hk', hb⟩ := keyboardReturn_becomes k h.row (by omega) (by omega) (by omega) hfirst
    rw [if_pos rfl]
    exact ⟨k', hk', hlogged.becomes hb, hb.currTerm⟩
  · have ha : g.length ≤ 98 := by
      have := hroom hne
      omega
    obtain ⟨k', hk', hb⟩ := h.keyboardReturn hs hne ha
    have hown := ((h.kept_lines_iff hs hne).mpr hlatest).2
    rw [if_neg (by rw [hown]; exact hne)] at hb
    rw [if_neg hne]
    exact ⟨k', hk', (h.entered hs hne ha hlen hlatest).becomes hb, hb.currTerm⟩

theorem Logged.key (h : Logged k.term g) (he : e.IsKey) (hr : LogReady t k e) : ∃ k', historyStep k e = some k' ∧
    Logged k'.term (noteSubmitted g k e k') ∧ k'.currTerm = k.currTerm := by
  have h0 := h.idx.1
  have h129 := h.idx.2
  have hrow := h.row
  have hle := h.row_le
  have hcount := h.count
  have hroom := h.room
  cases e with
  | type letter =>
    obtain ⟨k', hk', hb⟩ := typeLetter_becomes k h0 letter
    exact ⟨k', hk', (h.typed letter).becomes hb, hb.currTerm⟩
  | backspace =>
    obtain ⟨k', hk', hb⟩ := backspaceKey_becomes k h0 (by omega)
    exact ⟨k', hk', h.erased.becomes hb, hb.currTerm⟩
  | enter => exact h.enter hr
  | up =>
    obtain ⟨k', hk', hb⟩ := moveUpHistory_becomes k hrow (by omega)
    exact ⟨k', hk', h.movedUp.becomes hb, hb.currTerm⟩
  | down =>
    have hb := moveDownHistory_becomes k hrow
    exact ⟨_, rfl, h.movedDown.becomes hb, hb.currTerm⟩
  | read n => exact he.elim
  | elsewhere k₁ => exact he.elim

theorem Logged.step (h : Logged (k.terminals t) g) (ha : AtHistory t k e) (hr : LogReady t k e)
    (hk : historyStep k e = some k') : Logged (k'.terminals t) (noteSubmitted g k e k') := by
  have hkey : e.IsKey → Logged (k'.terminals t) (noteSubmitted g k e k') := by
    intro he
    obtain rfl := ha.currTerm he
    obtain ⟨k₁, hk₁, hlogged, hterm⟩ := Logged.key h he hr
    obtain rfl : k' = k₁ := Option.some.inj (hk.symm.trans hk₁)
    rw [Kernel.term, hterm] at hlogged
    exact hlogged
  cases e with
  | read n =>
    obtain ⟨⟨k₁, v, bytes⟩, hk₁, rfl⟩ := Option.map_eq_some_iff.mp hk
    have hidx := terminalRead_bufIdx (P := fun i => 0 ≤ i ∧ i ≤ 129) hk₁ t (by decide) h.idx
    exact h.same (terminalRead_terminals hk₁ t).1 hidx
  | elsewhere k₁ =>
    cases hk
    exact h.same ha.1 ⟨ha.2.1, hr⟩
  | type letter => exact hkey trivial
  | backspace => exact hkey trivial
  | enter => exact hkey trivial
  | up => exact hkey trivial
  | down => exact hkey trivial

/-! ## Runs -/

theorem EmptyHistory.logged {t : Term} (h : EmptyHistory t) (hidx : t.bufIdx ≤ 129) : Logged t [] where
  row := by rw [h.row]
  row_le := by rw [h.row, h.latest]
  count := h.latest
  room := Nat.zero_le 99
  lines r s hs := by cases hs
  free r _ hr := h.rows r hr
  idx := ⟨h.idx.1, hidx⟩

/-- **Record.** From an empty history, in every run whose steps meet the condition, the stored lines are the lines
submitted. With fewer than 99 of them, Enter on a line `s` does what it is to do exactly if `s` has at most 127
characters and is the latest, or equals the row it was recalled from and the line left there. -/
theorem history_records {k₀ : Kernel} (h0 : EmptyHistory (k₀.terminals t)) (hidx : (k₀.terminals t).bufIdx ≤ 129)
    (h : Reach (observed historyStep noteSubmitted) (fun p e => AtHistory t p.1 e ∧ LogReady t p.1 e) (k₀, [])
      (k, g)) :
    storedLines (k.terminals t) = g ∧
    (k.currTerm = t → (storedLines (k.terminals t)).length < 99 → ∀ s, Contains k.term.line s → s ≠ [] →
      ((∃ k', historyStep k .enter = some k' ∧ Records t k g s k') ↔ s.length ≤ 127 ∧ Latest k.term s)) := by
  have hinv : Logged (k.terminals t) g := by
    apply h.invariant (I := fun p => Logged (p.1.terminals t) p.2) (h0.logged hidx)
    intro p e q hi hok hs
    obtain ⟨hstep, hg⟩ := observed_eq_some.mp hs
    rw [hg]
    exact hi.step hok.1 hok.2 hstep
  refine ⟨hinv.storedLines_eq, fun hterm hfew s hs hne => ?_⟩
  subst hterm
  rw [hinv.storedLines_eq] at hfew
  exact Logged.records_iff hinv hs hne (by omega)

/-- Decides that the buffer holds a line of at most 127 characters. -/
def lineCheck (k : Kernel) : Bool :=
  (List.range 128).all (fun i => k.term.keyboardBuf i == (lineOf k.term.bufView).getD i 0) &&
    decide (k.term.bufIdx = (lineOf k.term.bufView).length ∧ (lineOf k.term.bufView).length ≤ 127)

theorem lineCheck_sound (h : lineCheck k = true) :
    Contains k.term.line (lineOf k.term.bufView) ∧ (lineOf k.term.bufView).length ≤ 127 := by
  obtain ⟨hbuf, hend⟩ := Bool.and_eq_true_iff.mp h
  obtain ⟨hidx, hlen⟩ := of_decide_eq_true hend
  have hholds : ∀ i, i < 128 → k.term.keyboardBuf i = (lineOf k.term.bufView).getD i 0 :=
    fun i hi => eq_of_beq (List.all_eq_true.mp hbuf i (List.mem_range.mpr hi))
  exact ⟨⟨⟨by omega, hholds⟩, hidx, zero_notMem_cstr _⟩, hlen⟩

/-- Decides that a key is pressed on terminal `t`; or a read. -/
def atCheck (t : Fin 3) (k : Kernel) : HistoryEvent → Bool
  | .read _ => true
  | .elsewhere _ => false
  | _ => k.currTerm = t

/-- Decides that an Enter is at the latest line, with a row behind it. -/
def latestCheck (k : Kernel) : HistoryEvent → Bool
  | .enter => lineCheck k ∧ k.term.absoluteHistoryIdx ≤ 98 ∧ k.term.historyIdx = k.term.absoluteHistoryIdx
  | .elsewhere _ => false
  | _ => true

theorem atCheck_sound (h : atCheck t k e = true) : AtHistory t k e := by
  cases e with
  | read n => trivial
  | elsewhere k₁ => cases h
  | _ => exact of_decide_eq_true (p := k.currTerm = t) h

theorem latestCheck_sound (h : latestCheck k e = true) : LogReady t k e := by
  cases e with
  | enter =>
    obtain ⟨hline, hroom, hlatest⟩ := of_decide_eq_true h
    obtain ⟨hs, hlen⟩ := lineCheck_sound hline
    exact ⟨_, hs, hlen, fun _ => hroom, Or.inl hlatest⟩
  | elsewhere k₁ => cases h
  | _ => trivial

/-- The kernel and the lines submitted after a list of events. -/
def historyRun (check : Kernel → HistoryEvent → Bool) (es : List HistoryEvent) :
    Option (Kernel × List (List UInt8)) :=
  es.foldlM (fun p e => if check p.1 e = true then observed historyStep noteSubmitted p e else none) (zeroBoot, [])

/-- A line, submitted and read; another, left with Up and shown again with Down: Enter appends it. -/
theorem history_records_two : ∃ k,
    Reach (observed historyStep noteSubmitted) (fun p e => AtHistory 0 p.1 e ∧ LogReady 0 p.1 e) (zeroBoot, [])
      (k, [[97]]) ∧
    Contains k.term.line [98] ∧ ∃ k', historyStep k .enter = some k' ∧ Records 0 k [[97]] [98] k' := by
  have hrun : (historyRun (fun k e => atCheck 0 k e && latestCheck k e)
      [.type 97, .enter, .read 128, .type 98, .up, .down]).map (fun p => (p.2, p.1.currTerm, lineCheck p.1,
        lineOf p.1.term.bufView, decide (p.1.term.historyIdx = p.1.term.absoluteHistoryIdx))) =
      some ([[97]], 0, true, [98], true) := by
    decide +kernel
  obtain ⟨⟨k, g⟩, hk, hend⟩ := Option.map_eq_some_iff.mp hrun
  simp only [Prod.mk.injEq] at hend
  obtain ⟨rfl, hterm, hline, hs, hlatest⟩ := hend
  have hsound : ∀ (p : Kernel × List (List UInt8)) e, (atCheck 0 p.1 e && latestCheck p.1 e) = true →
      AtHistory 0 p.1 e ∧ LogReady 0 p.1 e := by
    intro p e hcheck
    obtain ⟨hat, hlast⟩ := Bool.and_eq_true_iff.mp hcheck
    exact ⟨atCheck_sound hat, latestCheck_sound hlast⟩
  have hreach := Reach.of_foldlM _ hsound _ (.refl _) hk
  have hcontent := (lineCheck_sound hline).1
  rw [hs] at hcontent
  obtain ⟨hstored, hrecords⟩ := history_records emptyHistory_zeroBoot (by decide) hreach
  refine ⟨k, hreach, hcontent, (hrecords hterm ?_ _ hcontent (by decide)).mpr ⟨by decide, ?_⟩⟩
  · rw [hstored]
    decide
  · exact Or.inl (of_decide_eq_true hlatest)

/-- A line that was recalled, submitted: the line that was left is stored in its place. -/
theorem history_records_recalled : ∃ k,
    Reach (observed historyStep noteSubmitted) (fun p e => AtHistory 0 p.1 e) (zeroBoot, []) (k, [[97]]) ∧
    AtHistory 0 k .enter ∧ Contains k.term.line [97] ∧ storedLines (k.terminals 0) = [[97]] ∧
    (historyStep k .enter).map (fun k' => storedLines (k'.terminals 0)) = some [[97], [98]] ∧
    ¬ ∃ k', historyStep k .enter = some k' ∧ Records 0 k [[97]] [97] k' := by
  let es : List HistoryEvent := [.type 97, .enter, .read 128, .type 98, .up]
  have hrun : (historyRun (atCheck 0) es).map (fun p => (p.2, p.1.currTerm, lineCheck p.1, lineOf p.1.term.bufView)) =
      some ([[97]], 0, true, [97]) := by
    decide +kernel
  have hlines : (historyRun (atCheck 0) es).map (fun p => (storedLines (p.1.terminals 0),
      (historyStep p.1 .enter).map fun k' => storedLines (k'.terminals 0))) =
      some ([[97]], some [[97], [98]]) := by
    decide +kernel
  obtain ⟨⟨k, g⟩, hk, hend⟩ := Option.map_eq_some_iff.mp hrun
  rw [hk, Option.map_some, Option.some_inj, Prod.mk.injEq] at hlines
  obtain ⟨hstored, hafter⟩ := hlines
  simp only [Prod.mk.injEq] at hend
  obtain ⟨rfl, hterm, hline, hs⟩ := hend
  have hreach := Reach.of_foldlM (fun (p : Kernel × List (List UInt8)) e => atCheck 0 p.1 e)
    (fun _ _ => atCheck_sound) _ (.refl _) hk
  have hcontent := (lineCheck_sound hline).1
  rw [hs] at hcontent
  refine ⟨k, hreach, hterm, hcontent, hstored, hafter, ?_⟩
  rintro ⟨k', hk', hrecords⟩
  have hlines := hrecords.lines
  dsimp only at hstored hafter
  rw [hk', Option.map_some, Option.some_inj] at hafter
  rw [hafter, hstored] at hlines
  exact absurd hlines (by decide)

end BasicOs
