import BasicOs.HistoryEvents

/-!
# The rows of the history

Which rows Enter, Up and Down read and write, in runs of keys on a terminal with reads and other steps in between.

* `rowsTouched` : the rows of an event; `InsideRows` : they are among the 100 of the array;
* `RowReady` : the condition on an event: Enter finds an empty row, and its newline is not stored over the two
  indices or behind the terminal;
* `history_rows_safe` : in runs that meet the condition, the indices stay in range, every row is one of the terminal's
  own, and no key touches another terminal.
-/

namespace BasicOs
open Bytes Run

variable {k k' : Kernel} {t : Fin 3} {e : HistoryEvent}

/-! ## Rows and conditions -/

/-- The rows that the scan of `keyboard_return` reads. -/
def rowsScanned (k : Kernel) : List Int :=
  match firstEmptyRow k with
  | some i => (List.range (i + 1)).map Int.ofNat
  | none => (List.range 1000).map Int.ofNat

/-- The rows that an event reads or writes. The newline of Enter goes to a row if the index has left the buffer that
far. -/
def rowsTouched (k : Kernel) : HistoryEvent → List Int
  | .enter =>
    (if k.term.historyIdx ≤ 99 then
      k.term.historyIdx ::
        match saveHistory k k.term.historyIdx with
        | some k' => rowsScanned k'
        | none => []
    else []) ++
      if 168 ≤ k.term.bufIdx then [(k.term.bufIdx - 168) / 128] else []
  | .up =>
    (if k.term.absoluteHistoryIdx = k.term.historyIdx then [k.term.historyIdx] else []) ++
      [if k.term.historyIdx - 1 ≥ 0 then k.term.historyIdx - 1 else 0]
  | .down =>
    if k.term.absoluteHistoryIdx < k.term.historyIdx + 1 ∨ k.term.historyIdx + 1 > 99 then []
    else [k.term.historyIdx + 1]
  | _ => []

def InsideRows (k : Kernel) (e : HistoryEvent) : Prop := ∀ r ∈ rowsTouched k e, 0 ≤ r ∧ r ≤ 99

/-- A key while terminal `t` is displayed, a read by any process, or a step elsewhere, which may change the line. -/
def AtHistory (t : Fin 3) (k : Kernel) : HistoryEvent → Prop
  | .read _ => True
  | .elsewhere k' => SameHistory (k.terminals t) (k'.terminals t) ∧
      0 ≤ (k'.terminals t).bufIdx ∧ (k'.terminals t).bufIdx < 2 ^ 31
  | _ => k.currTerm = t

/-- A store at `keyboard_buf[i]` that is neither into the two indices of the history nor behind the terminal. -/
def StoreKept (i : Int) : Prop := i < 160 ∨ 168 ≤ i ∧ i < 12968

/-- The condition: an empty row is left when Enter has kept the line, and the stores of Enter and Backspace do not
hit the indices. -/
def RowReady (k : Kernel) : HistoryEvent → Prop
  | .enter => StoreKept k.term.bufIdx ∧
      (k.term.keyboardBuf 0 = 0 ∨ ∃ r : Nat, r ≤ 99 ∧ (r : Int) ≠ k.term.historyIdx ∧ k.term.history r 0 = 0)
  | .backspace => StoreKept (k.term.bufIdx - 1)
  | _ => True

/-- A terminal with an empty history. -/
structure EmptyHistory (t : Term) : Prop where
  row : t.historyIdx = 0
  latest : t.absoluteHistoryIdx = 0
  rows : ∀ r, r ≤ 99 → t.history r 0 = 0
  idx : 0 ≤ t.bufIdx ∧ t.bufIdx < 2 ^ 31

/-- The invariant. -/
structure Term.InRows (t : Term) : Prop where
  row : 0 ≤ t.historyIdx
  row_le : t.historyIdx ≤ t.absoluteHistoryIdx
  latest : t.absoluteHistoryIdx ≤ 99
  idx : 0 ≤ t.bufIdx ∧ t.bufIdx < 2 ^ 31

namespace Term.InRows
variable {t : Term}

theorem becomes (h : t.InRows) (hk : Becomes k k' t) : k'.term.InRows := by
  obtain ⟨x, y, hxy⟩ := hk.term
  rw [hxy]
  exact ⟨h.row, h.row_le, h.latest, h.idx⟩

theorem same {t' : Term} (h : t.InRows) (hs : SameHistory t t') (hidx : 0 ≤ t'.bufIdx ∧ t'.bufIdx < 2 ^ 31) :
    t'.InRows := by
  obtain ⟨hrow, hlatest, -⟩ := hs
  exact ⟨by rw [hrow]; exact h.row, by rw [hrow, hlatest]; exact h.row_le, by rw [hlatest]; exact h.latest, hidx⟩

theorem typed (h : t.InRows) (letter : UInt8) : (t.typed letter).InRows := by
  have h0 := h.idx.1
  unfold Term.typed
  split_ifs with hroom
  · obtain ⟨hrow, hlatest⟩ := t.setByte_indices (i := (16 + t.bufIdx).toNat) (by omega) letter
    have hidx := t.setByte_bufIdx_of_lt (i := (16 + t.bufIdx).toNat) (by omega) letter
    refine ⟨?_, ?_, ?_, ?_⟩
    · exact hrow.symm ▸ h.row
    · exact hrow.symm ▸ hlatest.symm ▸ h.row_le
    · exact hlatest.symm ▸ h.latest
    · dsimp only
      rw [hidx]
      omega
  · exact h

theorem erased (h : t.InRows) (hs : StoreKept (t.bufIdx - 1)) : t.erased.InRows := by
  obtain ⟨h0, h31⟩ := h.idx
  unfold StoreKept at hs
  unfold Term.erased
  generalize ht : { t with bufIdx := t.bufIdx - 1 } = t₁
  obtain ⟨hrow, hlatest⟩ := t₁.setByte_indices (i := (16 + (t.bufIdx - 1)).toNat) (by omega) 0
  have hidx₁ : t₁.bufIdx = t.bufIdx - 1 := by rw [← ht]
  refine ⟨?_, ?_, ?_, ?_⟩
  · show 0 ≤ (t₁.setByte _ 0).historyIdx
    rw [hrow, ← ht]
    exact h.row
  · show (t₁.setByte _ 0).historyIdx ≤ (t₁.setByte _ 0).absoluteHistoryIdx
    rw [hrow, hlatest, ← ht]
    exact h.row_le
  · show (t₁.setByte _ 0).absoluteHistoryIdx ≤ 99
    rw [hlatest, ← ht]
    exact h.latest
  · dsimp only
    by_cases hz : t.bufIdx = 0
    · -- the store goes before the array, and the index is set back
      rw [t₁.setByte_bufIdx_of_lt (by omega), if_pos (by omega)]
      decide
    · have hrange := t₁.setByte_bufIdx (by omega) (by omega) (16 + (t.bufIdx - 1)).toNat (c := 0) (by decide)
      rw [if_neg (by omega)]
      omega

theorem entered (h : t.InRows) (hs : StoreKept t.bufIdx) {i : Nat} (hi : i ≤ 99) : (t.recorded i).entered.InRows := by
  obtain ⟨h0, h31⟩ := h.idx
  unfold StoreKept at hs
  obtain ⟨hrow, hlatest⟩ := (t.recorded i).setByte_indices (i := (16 + t.bufIdx).toNat) (by omega) chNewline
  have hrange := (t.recorded i).setByte_bufIdx h0 h31 (16 + t.bufIdx).toNat (c := chNewline) (by decide)
  have hidx : (t.recorded i).bufIdx = t.bufIdx := rfl
  have hten : (chNewline.toNat : Int) = 10 := rfl
  rw [hidx, hten] at hrange
  unfold Term.entered
  rw [hidx]
  refine ⟨?_, ?_, ?_, ?_⟩
  · show 0 ≤ ((t.recorded i).setByte _ _).historyIdx
    rw [hrow]
    exact Int.natCast_nonneg i
  · show ((t.recorded i).setByte _ _).historyIdx ≤ ((t.recorded i).setByte _ _).absoluteHistoryIdx
    rw [hrow, hlatest]
    exact le_refl (i : Int)
  · show ((t.recorded i).setByte _ _).absoluteHistoryIdx ≤ 99
    rw [hlatest]
    exact Int.ofNat_le.mpr hi
  · dsimp only
    omega

theorem recalled (h : t.InRows) : t.recalled.InRows := by
  have hle : t.recalled.bufIdx ≤ 12968 := Int.ofNat_le.mpr (strnlen_le _ _)
  exact ⟨h.row, h.row_le, h.latest, Int.natCast_nonneg _, by omega⟩

theorem movedUp (h : t.InRows) : t.movedUp.InRows := by
  have hkept : t.keptLatest.absoluteHistoryIdx = t.absoluteHistoryIdx ∧ t.keptLatest.bufIdx = t.bufIdx := by
    unfold Term.keptLatest
    split_ifs <;> exact ⟨rfl, rfl⟩
  have hrow := h.row
  have hle := h.row_le
  apply recalled
  refine ⟨?_, ?_, ?_, ?_⟩
  · dsimp only
    split_ifs <;> omega
  · dsimp only
    rw [hkept.1]
    split_ifs <;> omega
  · dsimp only
    rw [hkept.1]
    exact h.latest
  · dsimp only
    rw [hkept.2]
    exact h.idx

theorem movedDown (h : t.InRows) : t.movedDown.InRows := by
  unfold Term.movedDown
  split_ifs with hstay
  · exact h
  · have hrow := h.row
    exact recalled ⟨by dsimp only; omega, by dsimp only; omega, h.latest, h.idx⟩

end Term.InRows

/-! ## Steps -/

def HistoryEvent.IsKey : HistoryEvent → Prop
  | .read _ | .elsewhere _ => False
  | _ => True

/-- The row that the line was kept in is empty if the line is. -/
theorem kept_own_iff (t : Term) : t.kept.history t.historyIdx.toNat 0 = 0 ↔ t.keyboardBuf 0 = 0 := by
  have hown : t.kept.history t.historyIdx.toNat = strncpy t.bufView keyboardBufSize := Function.update_self ..
  rw [hown, strncpy_eq_ofList, ← cstr_eq_nil_iff, cstr_cstr, cstr_eq_nil_iff, ofList_bytesAt _ (by decide),
    t.bufView_of_lt (by decide)]

/-- The row that the scan finds when the line has been kept. -/
theorem kept_firstEmpty_iff {t : Term} (h0 : 0 ≤ t.historyIdx) : (∃ i, t.kept.firstEmpty = some i) ↔
    t.historyIdx ≤ 99 ∧ t.keyboardBuf 0 = 0 ∨ ∃ r : Nat, r ≤ 99 ∧ (r : Int) ≠ t.historyIdx ∧ t.history r 0 = 0 := by
  have hother : ∀ r : Nat, (r : Int) ≠ t.historyIdx → t.kept.history r = t.history r :=
    fun r hr => Function.update_of_ne (by omega) ..
  have hsome : (∃ i, t.kept.firstEmpty = some i) ↔ ∃ r, r ≤ 99 ∧ t.kept.history r 0 = 0 := by
    rw [← Option.isSome_iff_exists, Term.firstEmpty, List.find?_isSome]
    simp only [List.mem_range, Nat.lt_succ_iff, decide_eq_true_eq]
  rw [hsome]
  constructor
  · rintro ⟨r, hr, hempty⟩
    by_cases hrow : (r : Int) = t.historyIdx
    · rw [show r = t.historyIdx.toNat by omega, kept_own_iff] at hempty
      exact Or.inl ⟨by omega, hempty⟩
    · rw [hother r hrow] at hempty
      exact Or.inr ⟨r, hr, hrow, hempty⟩
  · rintro (⟨hrow, hempty⟩ | ⟨r, hr, hrow, hempty⟩)
    · exact ⟨t.historyIdx.toNat, by omega, (kept_own_iff t).mpr hempty⟩
    · exact ⟨r, hr, by rw [hother r hrow]; exact hempty⟩

/-- A key that meets the condition changes the displayed terminal only, and keeps the invariant. -/
theorem key_inRows (h : k.term.InRows) (he : e.IsKey) (hr : RowReady k e) :
    ∃ k' u, historyStep k e = some k' ∧ Becomes k k' u ∧ u.InRows := by
  obtain ⟨h0, -⟩ := h.idx
  have hrow := h.row
  have hrow' := h.row_le.trans h.latest
  cases e with
  | type letter =>
    obtain ⟨k', hk', hb⟩ := typeLetter_becomes k h0 letter
    exact ⟨k', _, hk', hb, h.typed letter⟩
  | backspace =>
    have hkept : StoreKept (k.term.bufIdx - 1) := hr
    obtain ⟨k', hk', hb⟩ := backspaceKey_becomes k h0 (by unfold StoreKept at hkept; omega)
    exact ⟨k', _, hk', hb, h.erased hkept⟩
  | enter =>
    obtain ⟨hkept, hempty⟩ : StoreKept k.term.bufIdx ∧ _ := hr
    obtain ⟨i, hi⟩ := (kept_firstEmpty_iff hrow).mpr (hempty.imp_left fun hz => ⟨hrow', hz⟩)
    obtain ⟨k', hk', hb⟩ := keyboardReturn_becomes k hrow hrow' h0 (by unfold StoreKept at hkept; omega) hi
    exact ⟨k', _, hk', hb, h.entered hkept (Term.firstEmpty_eq_some.mp hi).2.1⟩
  | up =>
    obtain ⟨k', hk', hb⟩ := moveUpHistory_becomes k hrow hrow'
    exact ⟨k', _, hk', hb, h.movedUp⟩
  | down => exact ⟨_, _, rfl, moveDownHistory_becomes k hrow, h.movedDown⟩
  | read n => exact he.elim
  | elsewhere k₁ => exact he.elim

/-- Enter stays in the rows exactly if the scan ends there and the newline does not go behind the terminal. -/
theorem enter_insideRows_iff (h : k.term.InRows) : InsideRows k .enter ↔
    (∃ i, k.term.kept.firstEmpty = some i) ∧ k.term.bufIdx < 12968 := by
  have hrow' := h.row_le.trans h.latest
  obtain ⟨k₁, hk₁, h₁⟩ := saveHistory_becomes k h.row hrow'
  have hmap : ∀ {r : Int} {n : Nat}, r ∈ (List.range n).map Int.ofNat ↔ 0 ≤ r ∧ r < n := by
    intro r n
    rw [List.mem_map]
    constructor
    · rintro ⟨m, hm, rfl⟩
      exact ⟨Int.natCast_nonneg m, Int.ofNat_lt.mpr (List.mem_range.mp hm)⟩
    · rintro ⟨hr0, hrn⟩
      exact ⟨r.toNat, List.mem_range.mpr (by omega), Int.toNat_of_nonneg hr0⟩
  have hscan : (∀ r ∈ rowsScanned k₁, 0 ≤ r ∧ r ≤ 99) ↔ ∃ i, k.term.kept.firstEmpty = some i := by
    unfold rowsScanned
    cases hfirst : firstEmptyRow k₁ with
    | none =>
      refine ⟨fun hall => absurd (hall 999 (hmap.mpr ⟨by decide, by decide⟩)) (by decide), ?_⟩
      rintro ⟨i, hi⟩
      rw [← h₁.firstEmptyRow_eq (Term.firstEmpty_eq_some.mp hi).2.1, hfirst] at hi
      cases hi
    | some i =>
      dsimp only
      constructor
      · intro hall
        have hi := (hall i (hmap.mpr ⟨Int.natCast_nonneg i, by omega⟩)).2
        exact ⟨i, (h₁.firstEmptyRow_eq (by omega)).mp hfirst⟩
      · rintro ⟨j, hj⟩ r hr
        have hj99 := (Term.firstEmpty_eq_some.mp hj).2.1
        rw [← h₁.firstEmptyRow_eq hj99, hfirst, Option.some_inj] at hj
        have := hmap.mp hr
        omega
  have hnewline : (∀ r ∈ (if 168 ≤ k.term.bufIdx then [(k.term.bufIdx - 168) / 128] else []), 0 ≤ r ∧ r ≤ 99) ↔
      k.term.bufIdx < 12968 := by
    split_ifs with hbuf
    · rw [List.forall_mem_singleton]
      omega
    · exact ⟨fun _ => by omega, fun _ _ hr => absurd hr List.not_mem_nil⟩
  unfold InsideRows rowsTouched
  dsimp only
  rw [if_pos hrow', hk₁, List.forall_mem_append, List.forall_mem_cons, hscan, hnewline]
  exact ⟨fun hall => ⟨hall.1.2, hall.2⟩, fun hall => ⟨⟨⟨h.row, hrow'⟩, hall.1⟩, hall.2⟩⟩

/-- A step that meets the condition stays in the rows. -/
theorem insideRows_of_ready (h : k.term.InRows) (hr : RowReady k e) : InsideRows k e := by
  have hrow := h.row
  have hrow' := h.row_le.trans h.latest
  cases e with
  | enter =>
    obtain ⟨hkept, hempty⟩ : StoreKept k.term.bufIdx ∧ _ := hr
    refine (enter_insideRows_iff h).mpr ⟨(kept_firstEmpty_iff hrow).mpr (hempty.imp_left fun hz => ⟨hrow', hz⟩), ?_⟩
    unfold StoreKept at hkept
    omega
  | up =>
    unfold InsideRows rowsTouched
    dsimp only
    rw [List.forall_mem_append, List.forall_mem_singleton]
    refine ⟨fun r hr => ?_, ?_⟩
    · split_ifs at hr
      · rw [List.mem_singleton.mp hr]
        exact ⟨hrow, hrow'⟩
      · exact absurd hr List.not_mem_nil
    · split_ifs <;> omega
  | down =>
    unfold InsideRows rowsTouched
    dsimp only
    split_ifs with hstay
    · exact fun r hr => absurd hr List.not_mem_nil
    · rw [List.forall_mem_singleton]
      omega
  | type letter => exact fun r hr => absurd hr List.not_mem_nil
  | backspace => exact fun r hr => absurd hr List.not_mem_nil
  | read n => exact fun r hr => absurd hr List.not_mem_nil
  | elsewhere k₁ => exact fun r hr => absurd hr List.not_mem_nil

theorem AtHistory.currTerm (ha : AtHistory t k e) (he : e.IsKey) : k.currTerm = t := by
  cases e with
  | read n => exact he.elim
  | elsewhere k₁ => exact he.elim
  | type letter => exact ha
  | backspace => exact ha
  | enter => exact ha
  | up => exact ha
  | down => exact ha

theorem historyStep_inRows (h : (k.terminals t).InRows) (ha : AtHistory t k e) (hr : RowReady k e)
    (hk : historyStep k e = some k') : (k'.terminals t).InRows := by
  have hkey : e.IsKey → (k'.terminals t).InRows := by
    intro he
    obtain rfl := ha.currTerm he
    obtain ⟨k₁, u, hk₁, hb, hu⟩ := key_inRows h he hr
    obtain rfl : k' = k₁ := Option.some.inj (hk.symm.trans hk₁)
    have hterm := hu.becomes hb
    rw [Kernel.term, hb.currTerm] at hterm
    exact hterm
  cases e with
  | read n =>
    obtain ⟨⟨k₁, v, bytes⟩, hk₁, rfl⟩ := Option.map_eq_some_iff.mp hk
    have hidx := terminalRead_bufIdx (P := fun i => 0 ≤ i ∧ i < 2 ^ 31) hk₁ t (by decide) h.idx
    exact h.same (terminalRead_terminals hk₁ t).1 hidx
  | elsewhere k₁ =>
    cases hk
    exact h.same ha.1 ha.2
  | type letter => exact hkey trivial
  | backspace => exact hkey trivial
  | enter => exact hkey trivial
  | up => exact hkey trivial
  | down => exact hkey trivial

/-! ## Runs -/

/-- **Rows of the history.** From an empty history, in every run whose steps meet the condition, the indices are in
range; a further step that meets it stays in the rows, and a key changes no other terminal and nothing behind them. An
Enter that stays in the rows, and whose newline does not hit the indices, meets the condition. -/
theorem history_rows_safe {k₀ : Kernel} (h0 : EmptyHistory (k₀.terminals t))
    (h : Reach historyStep (fun k e => AtHistory t k e ∧ RowReady k e) k₀ k) :
    (0 ≤ (k.terminals t).historyIdx ∧ (k.terminals t).historyIdx ≤ (k.terminals t).absoluteHistoryIdx ∧
      (k.terminals t).absoluteHistoryIdx ≤ 100) ∧
    (∀ e, e.IsKey → AtHistory t k e → RowReady k e → InsideRows k e ∧ ∃ k', historyStep k e = some k' ∧
      (∀ u, u ≠ t → k'.terminals u = k.terminals u) ∧ k'.afterTerminals = k.afterTerminals) ∧
    (AtHistory t k .enter → StoreKept k.term.bufIdx → InsideRows k .enter → RowReady k .enter) := by
  have hinv : (k.terminals t).InRows := by
    apply h.invariant (I := fun k => (k.terminals t).InRows)
    · refine ⟨?_, ?_, ?_, h0.idx⟩
      · rw [h0.row]
      · rw [h0.row, h0.latest]
      · rw [h0.latest]
        decide
    · intro k e k' hi hok hs
      exact historyStep_inRows hi hok.1 hok.2 hs
  have hlatest := hinv.latest
  refine ⟨⟨hinv.row, hinv.row_le, by omega⟩, fun e he ha hr => ?_, fun ha hkept hin => ?_⟩
  · obtain rfl := ha.currTerm he
    obtain ⟨k', u, hk', hb, -⟩ := key_inRows hinv he hr
    exact ⟨insideRows_of_ready hinv hr, k', hk', hb.others, hb.after⟩
  · obtain rfl : k.currTerm = t := ha
    have hempty := (kept_firstEmpty_iff hinv.row).mp ((enter_insideRows_iff hinv).mp hin).1
    exact ⟨hkept, hempty.imp_left fun hz => hz.2⟩

/-- Decides that a step is one of terminal `t`, and that the last row is empty where Enter needs one. -/
def rowCheck (t : Fin 3) (k : Kernel) : HistoryEvent → Bool
  | .enter => k.currTerm = t ∧ k.term.bufIdx < 160 ∧ k.term.historyIdx ≠ 99 ∧ k.term.history 99 0 = 0
  | .backspace => k.currTerm = t ∧ k.term.bufIdx < 160
  | .read _ => true
  | .elsewhere _ => false
  | _ => k.currTerm = t

theorem rowCheck_sound (h : rowCheck t k e = true) : AtHistory t k e ∧ RowReady k e := by
  cases e with
  | enter =>
    obtain ⟨hterm, hidx, hrow, hempty⟩ := of_decide_eq_true h
    exact ⟨hterm, Or.inl hidx, Or.inr ⟨99, le_refl 99, fun h99 => hrow h99.symm, hempty⟩⟩
  | backspace =>
    obtain ⟨hterm, hidx⟩ := of_decide_eq_true h
    exact ⟨hterm, Or.inl (by omega)⟩
  | read n => exact ⟨trivial, trivial⟩
  | elsewhere k₁ => cases h
  | _ => exact ⟨of_decide_eq_true (p := k.currTerm = t) h, trivial⟩

theorem emptyHistory_zeroBoot : EmptyHistory (zeroBoot.terminals 0) where
  row := rfl
  latest := rfl
  rows _ _ := rfl
  idx := by decide

/-- A line, submitted and read; Up, and Down. -/
theorem history_rows_safe_line : ∃ k,
    Reach historyStep (fun k e => AtHistory 0 k e ∧ RowReady k e) zeroBoot k ∧
    (k.terminals 0).absoluteHistoryIdx = 1 ∧ 0 ≤ (k.terminals 0).historyIdx ∧ InsideRows k .up := by
  have hrun : (([.type 97, .enter, .read 128, .up, .down] : List HistoryEvent).foldlM
      (fun k e => if rowCheck 0 k e = true then historyStep k e else none) zeroBoot).map
      (fun k => ((k.terminals 0).absoluteHistoryIdx, k.currTerm)) = some (1, 0) := by
    decide +kernel
  obtain ⟨k, hk, hend⟩ := Option.map_eq_some_iff.mp hrun
  obtain ⟨hlatest, hterm⟩ := Prod.mk.inj hend
  have hreach := Reach.of_foldlM (rowCheck 0) (fun _ _ => rowCheck_sound) _ (.refl _) hk
  have hsafe := history_rows_safe emptyHistory_zeroBoot hreach
  exact ⟨k, hreach, hlatest, hsafe.1.1, (hsafe.2.1 .up trivial hterm trivial).1⟩

/-! ## The last row -/

/-- After `i` times Enter on a line that is not empty. -/
structure Filled (t : Term) (i : Nat) : Prop where
  row : t.historyIdx = i
  latest : t.absoluteHistoryIdx = i
  used : ∀ r, r < i → t.history r 0 ≠ 0
  free : ∀ r, i ≤ r → r ≤ 99 → t.history r 0 = 0
  idx : t.bufIdx = i + 1
  line : t.keyboardBuf 0 = 97

theorem Filled.kept_used {t : Term} {i : Nat} (h : Filled t i) {r : Nat} (hr : r ≤ i) : t.kept.history r 0 ≠ 0 := by
  have hidx : t.historyIdx.toNat = i := by
    rw [h.row]
    rfl
  by_cases hri : r = i
  · rw [hri, ← hidx, Ne, kept_own_iff, h.line]
    decide
  · unfold Term.kept
    dsimp only
    rw [hidx, Function.update_of_ne hri]
    exact h.used r (by omega)

theorem Filled.enter {i : Nat} (h : Filled k.term i) (hi : i ≤ 98) :
    ∃ k', historyStep k .enter = some k' ∧ k'.currTerm = k.currTerm ∧ Filled k'.term (i + 1) := by
  have hrow := h.row
  have hidx := h.idx
  have hfree : ∀ r, i < r → k.term.kept.history r = k.term.history r := by
    intro r hr
    exact Function.update_of_ne (by omega) ..
  have hfirst : k.term.kept.firstEmpty = some (i + 1) := by
    refine Term.firstEmpty_eq_some.mpr ⟨?_, by omega, fun r hr => h.kept_used (by omega)⟩
    rw [hfree _ (by omega)]
    exact h.free _ (by omega) (by omega)
  obtain ⟨k', hk', hb⟩ := keyboardReturn_becomes k (by omega) (by omega) (by omega) (by omega) hfirst
  obtain ⟨x, y, hxy⟩ := hb.term
  have hentered := (k.term.recorded (i + 1)).entered_of_lt (by show 0 ≤ k.term.bufIdx; omega)
    (by show k.term.bufIdx < 128; omega)
  refine ⟨k', hk', hb.currTerm, ?_⟩
  rw [hxy, hentered]
  refine ⟨rfl, rfl, fun r hr => ?_, fun r hr hr' => ?_, ?_, ?_⟩
  · exact h.kept_used (by omega)
  · show k.term.kept.history r 0 = 0
    rw [hfree r (by omega)]
    exact h.free r (by omega) hr'
  · show k.term.bufIdx + 1 = _
    rw [hidx]
    rfl
  · show Function.update k.term.keyboardBuf k.term.bufIdx.toNat chNewline 0 = 97
    rw [Function.update_of_ne (by omega)]
    exact h.line

/-- A line that is not empty, and 99 times Enter: the next Enter reads a row behind the history. -/
theorem history_row_past_end : EmptyHistory (zeroBoot.terminals 0) ∧
    ∃ k, Reach historyStep (AtHistory 0) zeroBoot k ∧ AtHistory 0 k .enter ∧ ¬ InsideRows k .enter := by
  have hfirst : ∃ k, Reach historyStep (AtHistory 0) zeroBoot k ∧ k.currTerm = 0 ∧ Filled k.term 0 := by
    obtain ⟨k, hk, hb⟩ := typeLetter_becomes zeroBoot (by decide) 97
    refine ⟨k, .tail (.type 97) (.refl _) rfl hk, hb.currTerm, ?_⟩
    obtain ⟨x, y, hxy⟩ := hb.term
    rw [hxy]
    exact ⟨rfl, rfl, fun r hr => absurd hr (Nat.not_lt_zero r), fun _ _ _ => rfl, rfl, rfl⟩
  have hrun : ∀ i, i ≤ 99 → ∃ k, Reach historyStep (AtHistory 0) zeroBoot k ∧ k.currTerm = 0 ∧ Filled k.term i := by
    intro i hi
    induction i with
    | zero => exact hfirst
    | succ i ih =>
      obtain ⟨k, hreach, hterm, hfilled⟩ := ih (by omega)
      obtain ⟨k', hk', hterm', hfilled'⟩ := hfilled.enter (by omega)
      exact ⟨k', .tail .enter hreach hterm hk', hterm'.trans hterm, hfilled'⟩
  obtain ⟨k, hreach, hterm, hfilled⟩ := hrun 99 (le_refl 99)
  have hrows : k.term.InRows := by
    have hrow := hfilled.row
    have hlatest := hfilled.latest
    have hidx := hfilled.idx
    exact ⟨by omega, by omega, by omega, by omega, by omega⟩
  refine ⟨emptyHistory_zeroBoot, k, hreach, hterm, fun hin => ?_⟩
  obtain ⟨⟨i, hi⟩, -⟩ := (enter_insideRows_iff hrows).mp hin
  obtain ⟨hempty, hi99, -⟩ := Term.firstEmpty_eq_some.mp hi
  exact hfilled.kept_used hi99 hempty

end BasicOs
