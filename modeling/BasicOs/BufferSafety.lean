import BasicOs.History
import BasicOs.LineDiscipline

/-!
# Stores into the keyboard buffer

Where `add_to_buf`, `keyboard_return`, `autocomplete` and the history write in `keyboard_buf`, in runs of any keys
on a terminal with reads in between.

The index stays in `[0, 128]` and every store stays in the array as long as Enter finds room for its newline, a
completion fits, and a row that is recalled has a NUL or replaces an empty line (`InsertReady`).

* `insertions_safe` : this holds along every such run, and a key that does not meet the condition breaks it.
-/

namespace BasicOs
open Bytes Run

/-! ## The stores of an event -/

/-- The indices of `keyboard_buf` that an event stores to, other than the NUL of Backspace and the NULs of
`clear_keyboard_buf`. -/
def insertions (k : Kernel) : LineEvent → List Int
  | .key scancode stale _ =>
    match keyCase scancode with
    | .other =>
      match letterPressed k scancode with
      | some c =>
        if k.ctrlPressed = false ∧ k.altPressed = false ∧ k.term.bufIdx ≤ 126 then
          (addToBufStores k.term c).map Prod.fst
        else []
      | none => []
    | .enter =>
      match recordLine k with
      | some k' => [k'.term.bufIdx]
      | none => []
    | .tab =>
      match completeWord k.fs k.term stale with
      | some (.replace oldIdx best _) => (replaceStores oldIdx best).map Prod.fst
      | _ => []
    | .up => (List.range keyboardBufSize).map Int.ofNat
    | .down =>
      if k.term.absoluteHistoryIdx < k.term.historyIdx + 1 ∨ k.term.historyIdx + 1 > 99 then []
      else (List.range keyboardBufSize).map Int.ofNat
    | _ => []
  | .read _ => []
  | .elsewhere _ => []

/-- The observer keeps the indices stored to. -/
def noteInsertions (written : List Int) (k : Kernel) (e : LineEvent) (_ : Kernel) : List Int :=
  written ++ insertions k e

/-- Any key while terminal `t` is displayed, a read by any process, or a step elsewhere. -/
def AtTerminal (t : Fin 3) (k : Kernel) : LineEvent → Prop
  | .key _ _ _ => k.currTerm = t
  | .read _ => True
  | .elsewhere k' => (k'.terminals t).line = (k.terminals t).line

/-- A completion, with its NUL, ends inside the buffer. -/
def Completion.Fits : Completion → Prop
  | .replace oldIdx best _ => oldIdx + best.length ≤ 127
  | _ => True

/-- The condition on a key. -/
def InsertReady (k : Kernel) : LineEvent → Prop
  | .key scancode stale _ =>
    match keyCase scancode with
    | .enter => k.term.bufIdx ≤ 127
    | .tab => ∃ c, completeWord k.fs k.term stale = some c ∧ c.Fits
    | .up => Terminated (rowAbove k) ∨ k.term.bufIdx = 0
    | .down => MovesDown k → Terminated (rowBelow k) ∨ k.term.bufIdx = 0
    | _ => True
  | _ => True

/-- After the event the index is in range, and the event stored inside the array. -/
def InsertSafe (t : Fin 3) (k : Kernel) (e : LineEvent) (k' : Kernel) : Prop :=
  (0 ≤ (k'.terminals t).bufIdx ∧ (k'.terminals t).bufIdx ≤ 128) ∧ ∀ i ∈ insertions k e, 0 ≤ i ∧ i ≤ 127

/-- The invariant: the index is in range, and the row of the history is not negative. -/
def Line.InRange (l : Line) : Prop := (0 ≤ l.idx ∧ l.idx ≤ 128) ∧ 0 ≤ l.row

/-! ## Completion -/

variable {k k' : Kernel}

/-- A loop that stores bytes at consecutive places. -/
theorem LineIs.pokeAll_range {k₀ : Kernel} {l : Line} (hl : LineIs k₀ k l) (f : Nat → UInt8) {a n : Nat}
    (hn : a + n ≤ 128) :
    ∃ k', k.pokeAll k₀.currTerm ((List.range n).map fun j => (((a + j : Nat) : Int), f j)) = some k' ∧
      LineIs k₀ k' { l with buf := fun i => if a ≤ i ∧ i < a + n then f (i - a) else l.buf i } := by
  induction n with
  | zero =>
    refine ⟨k, rfl, ?_⟩
    have hbuf : (fun i => if a ≤ i ∧ i < a + 0 then f (i - a) else l.buf i) = l.buf := by
      funext i
      exact if_neg (by omega)
    rw [hbuf]
    exact hl
  | succ n ih =>
    obtain ⟨k₁, hk₁, hl₁⟩ := ih (by omega)
    obtain ⟨k₂, hk₂, hl₂⟩ := hl₁.pokeBuf (i := (a + n : Nat)) (by omega) (by omega) (f n)
    refine ⟨k₂, ?_, ?_⟩
    · unfold Kernel.pokeAll at hk₁ ⊢
      rw [List.range_succ, List.map_append, List.foldlM_append, hk₁]
      simp only [bind, Option.bind_some, List.map_cons, List.map_nil, List.foldlM_cons, List.foldlM_nil, pure]
      rw [hk₂, Option.bind_some]
    · have hbuf : Function.update (fun i => if a ≤ i ∧ i < a + n then f (i - a) else l.buf i)
          ((a + n : Nat) : Int).toNat (f n) = fun i => if a ≤ i ∧ i < a + (n + 1) then f (i - a) else l.buf i := by
        funext i
        rw [Int.toNat_natCast, Function.update_apply]
        by_cases hi : i = a + n
        · rw [if_pos hi, if_pos (by omega), hi, Nat.add_sub_cancel_left]
        · rw [if_neg hi]
          exact if_congr (by omega) rfl rfl
      rw [← hbuf]
      exact hl₂

/-- A completion that fits: its stores, the index measured again, and the rest is output. -/
theorem autocomplete_replaced {stale : Nat → UInt8} {oldIdx : Nat} {best : List UInt8} {resetRepeats : Bool}
    (hc : completeWord k.fs k.term stale = some (.replace oldIdx best resetRepeats))
    (hfits : oldIdx + best.length ≤ 127) (fmt : List UInt8 → List UInt8) :
    ∃ (k' : Kernel) (t : Term), autocomplete k stale fmt = some k' ∧
      LineIs k k' { t.line with idx := (t.strlenBuf : Int) } ∧
      t.line = { k.term.line with
        buf := fun i => if oldIdx ≤ i ∧ i < oldIdx + (best.length + 1) then ofList best (i - oldIdx)
          else k.term.line.buf i } := by
  have hreset : LineIs k (if resetRepeats then k.modifyTerm k.currTerm fun t => { t with acRepeats := 0 } else k)
      k.term.line := by
    split_ifs
    · exact (lineIs_self k).modifyTerm id fun _ => rfl
    · exact lineIs_self k
  unfold autocomplete
  rw [hc]
  simp only [bind, Option.bind_some]
  generalize (if resetRepeats then k.modifyTerm k.currTerm fun t => { t with acRepeats := 0 } else k) = k₁ at hreset
  obtain ⟨k₂, hk₂, hl₂⟩ := hreset.pokeAll_range (ofList best) (a := oldIdx) (n := best.length + 1) (by omega)
  have hl₃ := (backspaces_screenOnly k₂ (k.term.strlenBuf - 1 - oldIdx)).lineIs hl₂
  rw [hreset.1, replaceStores, hk₂, Option.bind_some]
  generalize backspaces k₂ (k.term.strlenBuf - 1 - oldIdx) = k₃ at hl₃
  have hmeasure : LineIs k (k₃.modifyTerm k₃.currTerm Term.measure)
      { (k₃.terminals k.currTerm).line with idx := ((k₃.terminals k.currTerm).strlenBuf : Int) } := by
    refine ⟨hl₃.1, ?_⟩
    rw [hl₃.1, Kernel.modifyTerm_terminals_self]
    rfl
  exact ⟨_, k₃.terminals k.currTerm, rfl, (puts_screenOnly _ _).lineIs hmeasure, hl₃.2⟩

/-- Tab with a list to print. -/
theorem autocomplete_ambiguous {stale : Nat → UInt8} {ls : List (List UInt8)}
    (hc : completeWord k.fs k.term stale = some (.ambiguous ls)) (fmt : List UInt8 → List UInt8) :
    ∃ k', autocomplete k stale fmt = some k' ∧ LineIs k k' k.term.line := by
  have hl := (lineIs_self k).modifyTerm (f := fun t => { t with acRepeats := t.acRepeats + 1 }) id fun _ => rfl
  unfold autocomplete
  rw [hc]
  simp only [bind, Option.bind_some]
  split_ifs
  · exact ⟨_, rfl, (puts_screenOnly _ _).lineIs hl⟩
  · exact ⟨_, rfl, hl⟩

theorem autocomplete_nothing {stale : Nat → UInt8} (hc : completeWord k.fs k.term stale = some .nothing)
    (fmt : List UInt8 → List UInt8) : autocomplete k stale fmt = some k := by
  unfold autocomplete
  rw [hc]
  rfl

/-- Tab. -/
theorem autocomplete_line (h : k.term.line.InRange) {stale : Nat → UInt8} (fmt : List UInt8 → List UInt8)
    {c : Completion} (hc : completeWord k.fs k.term stale = some c) (hfits : c.Fits) :
    ∃ k' l, autocomplete k stale fmt = some k' ∧ LineIs k k' l ∧ l.InRange := by
  cases c with
  | nothing => exact ⟨k, _, autocomplete_nothing hc fmt, lineIs_self k, h⟩
  | ambiguous ls =>
    obtain ⟨k', hk', hl⟩ := autocomplete_ambiguous hc fmt
    exact ⟨k', _, hk', hl, h⟩
  | replace oldIdx best resetRepeats =>
    have hend : oldIdx + best.length ≤ 127 := hfits
    obtain ⟨k', t, hk', hl, ht⟩ := autocomplete_replaced hc hend fmt
    refine ⟨k', _, hk', hl, ⟨Int.natCast_nonneg _, Int.ofNat_le.mpr ?_⟩, show 0 ≤ t.line.row by rw [ht]; exact h.2⟩
    -- `strlen` stops at the NUL of the word
    have hnul : t.bufView (oldIdx + best.length) = 0 := by
      rw [t.bufView_of_lt (Nat.lt_succ_of_le hend), show t.keyboardBuf = _ from congrArg Line.buf ht]
      dsimp only
      rw [if_pos (by omega), Nat.add_sub_cancel_left, ofList, List.getD_eq_default _ _ (le_refl _)]
    exact (strnlen_le_of_zero hnul _).trans (hend.trans (by decide))

/-! ## Keys -/

theorem Line.InRange.type {l : Line} (h : l.InRange) (c : UInt8) : (l.type c).InRange := by
  unfold Line.type
  split_ifs with hroom
  · exact ⟨⟨Int.add_nonneg h.1.1 (by decide), show l.idx + 1 ≤ 128 by omega⟩, h.2⟩
  · exact h

theorem Line.InRange.erase {l : Line} (h : l.InRange) : l.erase.InRange := by
  obtain ⟨⟨h0, h128⟩, hrow⟩ := h
  unfold Line.erase
  split_ifs with hz
  · exact ⟨⟨h0, h128⟩, hrow⟩
  · exact ⟨⟨show 0 ≤ l.idx - 1 by omega, show l.idx - 1 ≤ 128 by omega⟩, hrow⟩

/-- The keys with Ctrl held leave the lines alone. -/
theorem controlKey_line (k : Kernel) (scancode : UInt8) (t : Fin 3) :
    ((controlKey k scancode).terminals t).line = (k.terminals t).line := by
  rcases controlKey_cases k scancode with ⟨-, s, h⟩ | ⟨-, h⟩ | ⟨-, h⟩
  · rw [h]
    exact ((clear_screenOnly k).trans (puts_screenOnly s _)).line_eq t
  · rw [h]
  · rw [h]

/-- Alt switches terminals, and leaves them alone. -/
theorem altKey_terminals (k : Kernel) (scancode : UInt8) : (altKey k scancode).terminals = k.terminals := by
  unfold altKey
  split_ifs
  · exact switchTerminals_terminals k 0
  · exact switchTerminals_terminals k 1
  · exact switchTerminals_terminals k 2
  · rfl

theorem processKey_inRange (h : k.term.line.InRange) (scancode : UInt8) :
    ∃ k', processKey k scancode = some k' ∧ (k'.terminals k.currTerm).line.InRange := by
  unfold processKey
  split_ifs
  · exact ⟨k, rfl, h⟩
  · exact ⟨k, rfl, h⟩
  · exact ⟨_, rfl, by rw [controlKey_line]; exact h⟩
  · exact ⟨_, rfl, by rw [altKey_terminals]; exact h⟩
  · obtain ⟨k', hk', hl⟩ := typeLetter_line k h.1.1 (letterOf scancode k.capsLockPressed k.shiftPressed)
    exact ⟨k', hk', by rw [hl.2]; exact h.type _⟩

/-- A key that meets the condition has a result, and keeps the invariant. -/
theorem dispatchKey_inRange (h : k.term.line.InRange) {scancode : UInt8} {stale : Nat → UInt8}
    {fmt : List UInt8 → List UInt8} (hr : InsertReady k (.key scancode stale fmt)) :
    ∃ k', dispatchKey k scancode stale fmt = some k' ∧ (k'.terminals k.currTerm).line.InRange := by
  obtain ⟨⟨h0, h128⟩, hrow⟩ := id h
  rw [InsertReady] at hr
  unfold dispatchKey
  cases hcase : keyCase scancode <;> rw [hcase] at hr
  case enter =>
    obtain ⟨k', row, hk', hrow', hl⟩ := keyboardReturn_line k hrow h0 hr
    refine ⟨k', hk', ?_⟩
    rw [hl.2]
    have h127 : k.term.line.idx ≤ 127 := hr
    exact ⟨⟨Int.add_nonneg h0 (by decide), show k.term.line.idx + 1 ≤ 128 by omega⟩, hrow'⟩
  case tab =>
    obtain ⟨c, hc, hfits⟩ := hr
    obtain ⟨k', l, hk', hl, hin⟩ := autocomplete_line h fmt hc hfits
    exact ⟨k', hk', by rw [hl.2]; exact hin⟩
  case up =>
    obtain ⟨k', l, hk', hl, hrow', hidx, hiff⟩ := moveUpHistory_line k h0 h128 hrow
    exact ⟨k', hk', by rw [hl.2]; exact ⟨⟨hidx, hiff.mpr hr⟩, hrow'⟩⟩
  case down =>
    obtain ⟨l, hl, hrow', hidx, hiff⟩ := moveDownHistory_line k h0 h128 hrow
    exact ⟨_, rfl, by rw [hl.2]; exact ⟨⟨hidx, hiff.mpr hr⟩, hrow'⟩⟩
  case backspace =>
    obtain ⟨k', hk', hl⟩ := backspaceKey_line k h0 h128
    exact ⟨k', hk', by rw [hl.2]; exact h.erase⟩
  case other => exact processKey_inRange h scancode
  all_goals exact ⟨_, rfl, h⟩

theorem range_insertions {i : Int} (h : i ∈ (List.range keyboardBufSize).map Int.ofNat) : 0 ≤ i ∧ i ≤ 127 := by
  obtain ⟨j, hj, rfl⟩ := List.mem_map.mp h
  have hlt : j < 128 := List.mem_range.mp hj
  constructor
  · exact Int.natCast_nonneg j
  · show (j : Int) ≤ 127
    omega

/-- A completion and its NUL. -/
theorem replace_insertions {oldIdx : Nat} {best : List UInt8} (hend : oldIdx + best.length ≤ 127) {i : Int}
    (h : i ∈ (replaceStores oldIdx best).map Prod.fst) : 0 ≤ i ∧ i ≤ 127 := by
  obtain ⟨s, hs, rfl⟩ := List.mem_map.mp h
  obtain ⟨j, hj, rfl⟩ := List.mem_map.mp hs
  have := List.mem_range.mp hj
  dsimp only
  omega

/-- A letter goes where the line ends. -/
theorem letter_insertions {t : Term} (h0 : 0 ≤ t.bufIdx) {c : UInt8} {i : Int}
    (h : i ∈ (addToBufStores t c).map Prod.fst) : 0 ≤ i ∧ i ≤ 127 := by
  obtain ⟨s, hs, rfl⟩ := List.mem_map.mp h
  rw [addToBufStores] at hs
  split_ifs at hs with hroom
  · rw [List.mem_singleton.mp hs]
    refine ⟨h0, ?_⟩
    simp only [keyboardBufSize] at hroom
    dsimp only
    omega
  · cases hs

/-- The newline goes where the line ends. -/
theorem insertions_enter (h : k.term.line.InRange) {scancode : UInt8} (hcase : keyCase scancode = .enter)
    (stale : Nat → UInt8) (fmt : List UInt8 → List UInt8) :
    insertions k (.key scancode stale fmt) = [k.term.bufIdx] := by
  obtain ⟨k', row, hk', -, hl⟩ := recordLine_line k h.2
  rw [insertions, hcase]
  dsimp only
  rw [hk']
  dsimp only
  rw [hl.bufIdx_eq]
  rfl

theorem insertions_of_ready (h : k.term.line.InRange) {e : LineEvent} (hr : InsertReady k e) :
    ∀ i ∈ insertions k e, 0 ≤ i ∧ i ≤ 127 := by
  obtain ⟨⟨h0, h128⟩, hrow⟩ := id h
  intro i hi
  cases e with
  | key scancode stale fmt =>
    cases hcase : keyCase scancode with
    | enter =>
      rw [insertions_enter h hcase, List.mem_singleton] at hi
      rw [InsertReady, hcase] at hr
      exact hi ▸ ⟨h0, hr⟩
    | tab =>
      rw [insertions, hcase] at hi
      rw [InsertReady, hcase] at hr
      obtain ⟨c, hc, hfits⟩ := hr
      dsimp only at hi
      rw [hc] at hi
      cases c with
      | replace oldIdx best resetRepeats =>
        have hend : oldIdx + best.length ≤ 127 := hfits
        exact replace_insertions hend hi
      | nothing => cases hi
      | ambiguous ls => cases hi
    | up =>
      rw [insertions, hcase] at hi
      exact range_insertions hi
    | down =>
      rw [insertions, hcase] at hi
      dsimp only at hi
      split_ifs at hi
      · cases hi
      · exact range_insertions hi
    | other =>
      rw [insertions, hcase] at hi
      dsimp only at hi
      split at hi
      · split_ifs at hi
        · exact letter_insertions h0 hi
        · cases hi
      · cases hi
    | ctrl pressed => rw [insertions, hcase] at hi; cases hi
    | shift pressed => rw [insertions, hcase] at hi; cases hi
    | alt pressed => rw [insertions, hcase] at hi; cases hi
    | capsLock => rw [insertions, hcase] at hi; cases hi
    | ignored => rw [insertions, hcase] at hi; cases hi
    | backspace => rw [insertions, hcase] at hi; cases hi
  | read n => cases hi
  | elsewhere k₁ => cases hi

/-- A key that stored inside the array and left the index in range met the condition. -/
theorem ready_of_safe (h : k.term.line.InRange) {scancode : UInt8} {stale : Nat → UInt8}
    {fmt : List UInt8 → List UInt8} (hk : dispatchKey k scancode stale fmt = some k')
    (hs : InsertSafe k.currTerm k (.key scancode stale fmt) k') : InsertReady k (.key scancode stale fmt) := by
  obtain ⟨⟨h0, h128⟩, hrow⟩ := id h
  obtain ⟨⟨-, hidx'⟩, hins⟩ := hs
  unfold dispatchKey at hk
  rw [InsertReady]
  cases hcase : keyCase scancode <;> rw [hcase] at hk
  case enter =>
    rw [insertions_enter h hcase] at hins
    exact (hins _ (List.mem_singleton_self _)).2
  case tab =>
    obtain ⟨c, hc, -⟩ := Option.bind_eq_some_iff.mp hk
    refine ⟨c, hc, ?_⟩
    rw [insertions, hcase] at hins
    dsimp only at hins
    rw [hc] at hins
    cases c with
    | replace oldIdx best resetRepeats =>
      have hlast : (((oldIdx + best.length : Nat) : Int), (0 : UInt8)) ∈ replaceStores oldIdx best := by
        refine List.mem_map.mpr ⟨best.length, List.mem_range.mpr (Nat.lt_succ_self _), ?_⟩
        rw [ofList, List.getD_eq_default _ _ (le_refl _)]
      have := (hins _ (List.mem_map_of_mem hlast)).2
      exact Int.ofNat_le.mp this
    | nothing => trivial
    | ambiguous ls => trivial
  case up =>
    obtain ⟨k₁, l, hk₁, hl, -, -, hiff⟩ := moveUpHistory_line k h0 h128 hrow
    obtain rfl : k' = k₁ := Option.some.inj (hk.symm.trans hk₁)
    rw [← hl.2] at hiff
    exact hiff.mp hidx'
  case down =>
    obtain ⟨l, hl, -, -, hiff⟩ := moveDownHistory_line k h0 h128 hrow
    rw [← Option.some.inj hk] at hidx'
    rw [← hl.2] at hiff
    exact hiff.mp hidx'
  all_goals trivial

/-! ## Steps and runs -/

variable {t : Fin 3} {e : LineEvent}

theorem terminalRead_inRange (h : (k.terminals t).line.InRange) {n v : Int} {bytes : List UInt8}
    (hk : terminalRead k false n = some (k', v, bytes)) : (k'.terminals t).line.InRange := by
  by_cases hn : 0 < n
  · obtain ⟨-, -, -, -, hline, hothers⟩ := terminalRead_line hn hk
    by_cases ht : t = k.scheduledProcess
    · rw [ht, hline]
      exact ⟨⟨le_refl 0, show (0 : Int) ≤ 128 by decide⟩, ht ▸ h.2⟩
    · rw [hothers t ht]
      exact h
  · unfold terminalRead at hk
    rw [if_pos (Or.inl (not_lt.mp hn))] at hk
    cases hk
    exact h

/-- The invariant, and one step that meets the condition. -/
theorem lineStep_inRange (h : (k.terminals t).line.InRange) (hat : AtTerminal t k e) (hr : InsertReady k e)
    (hk : lineStep k e = some k') : (k'.terminals t).line.InRange := by
  cases e with
  | key scancode stale fmt =>
    obtain rfl : k.currTerm = t := hat
    obtain ⟨⟨k₁, halts⟩, hk₁, rfl⟩ := Option.map_eq_some_iff.mp hk
    rcases keyboardHandler_tty hk₁ with ⟨rfl, -⟩ | ⟨k₂, hk₂, htty⟩
    · exact h
    · obtain ⟨k₃, hk₃, hin⟩ := dispatchKey_inRange h hr
      obtain rfl : k₂ = k₃ := Option.some.inj (hk₂.symm.trans hk₃)
      dsimp only
      rw [htty]
      exact hin
  | read n =>
    obtain ⟨⟨k₁, v, bytes⟩, hk₁, rfl⟩ := Option.map_eq_some_iff.mp hk
    exact terminalRead_inRange h hk₁
  | elsewhere k₁ =>
    cases hk
    rw [show (k'.terminals t).line = (k.terminals t).line from hat]
    exact h

theorem insertSafe_iff (h : (k.terminals t).line.InRange) (hat : AtTerminal t k e) (hk : lineStep k e = some k') :
    InsertSafe t k e k' ↔ InsertReady k e := by
  constructor
  · intro hs
    cases e with
    | key scancode stale fmt =>
      obtain rfl : k.currTerm = t := hat
      obtain ⟨⟨k₁, halts⟩, hk₁, rfl⟩ := Option.map_eq_some_iff.mp hk
      rcases keyboardHandler_tty hk₁ with ⟨-, hhigh⟩ | ⟨k₂, hk₂, htty⟩
      · rw [InsertReady, (letterPressed_high (k := k) hhigh).1]
        trivial
      · refine ready_of_safe h hk₂ ⟨?_, hs.2⟩
        rw [← htty]
        exact hs.1
    | read n => trivial
    | elsewhere k₁ => trivial
  · intro hr
    refine ⟨(lineStep_inRange h hat hr hk).1, ?_⟩
    cases e with
    | key scancode stale fmt =>
      obtain rfl : k.currTerm = t := hat
      exact insertions_of_ready h hr
    | read n => exact fun _ hi => (nomatch hi)
    | elsewhere k₁ => exact fun _ hi => (nomatch hi)

/-- A key that meets the condition is handled to its end. -/
theorem lineStep_key_isSome {scancode : UInt8} {stale : Nat → UInt8} {fmt : List UInt8 → List UInt8}
    (h : k.term.line.InRange) (hr : InsertReady k (.key scancode stale fmt)) :
    (lineStep k (.key scancode stale fmt)).isSome := by
  obtain ⟨k₁, hk₁, -⟩ := dispatchKey_inRange h hr
  exact lineStep_isSome_of_dispatch hk₁

/-- **Insertion safety.** From boot, in every run of keys on a terminal, reads and steps elsewhere that meets the
condition, the index is in `[0, 128]` and every store of an insertion was inside the array. In each state reached,
a key that meets the condition is handled to its end, and a step is safe exactly if it meets the condition. -/
theorem insertions_safe {t : Fin 3} {k₀ k : Kernel} {local_ : Fin 3 → Term} {written : List Int}
    (h : Reach (observed lineStep noteInsertions) (fun p e => AtTerminal t p.1 e ∧ InsertReady p.1 e)
      (initialBoot k₀ local_, []) (k, written)) :
    (0 ≤ (k.terminals t).bufIdx ∧ (k.terminals t).bufIdx ≤ 128) ∧ (∀ i ∈ written, 0 ≤ i ∧ i ≤ 127) ∧
    (∀ scancode stale fmt, AtTerminal t k (.key scancode stale fmt) → InsertReady k (.key scancode stale fmt) →
      (lineStep k (.key scancode stale fmt)).isSome) ∧
    ∀ e k', AtTerminal t k e → lineStep k e = some k' → (InsertSafe t k e k' ↔ InsertReady k e) := by
  have hinv : (k.terminals t).line.InRange ∧ ∀ i ∈ written, 0 ≤ i ∧ i ≤ 127 := by
    refine h.invariant (I := fun p => (p.1.terminals t).line.InRange ∧ ∀ i ∈ p.2, 0 ≤ i ∧ i ≤ 127)
      ⟨⟨⟨le_refl 0, show (0 : Int) ≤ 128 by decide⟩, le_refl 0⟩, fun _ hi => (nomatch hi)⟩ ?_
    intro p e q hi hok hs
    obtain ⟨hstep, hq⟩ := observed_eq_some.mp hs
    refine ⟨lineStep_inRange hi.1 hok.1 hok.2 hstep, fun i hmem => ?_⟩
    rw [hq] at hmem
    rcases List.mem_append.mp hmem with hmem | hmem
    · exact hi.2 i hmem
    · exact ((insertSafe_iff hi.1 hok.1 hstep).mpr hok.2).2 i hmem
  refine ⟨hinv.1.1, hinv.2, ?_, fun e k' hat hk => insertSafe_iff hinv.1 hat hk⟩
  rintro scancode stale fmt rfl hr
  exact lineStep_key_isSome hinv.1 hr

/-- Decides the condition for keys other than Tab and Down. -/
def insertCheck (t : Fin 3) (k : Kernel) : LineEvent → Bool
  | .key scancode _ _ => decide (k.currTerm = t) &&
    match keyCase scancode with
    | .enter => decide (k.term.bufIdx ≤ 127)
    | .up => decide (strnlen (rowAbove k) keyboardBufSize < keyboardBufSize)
    | .tab | .down => false
    | _ => true
  | .read _ => true
  | .elsewhere _ => false

theorem insertCheck_sound (h : insertCheck t k e = true) : AtTerminal t k e ∧ InsertReady k e := by
  cases e with
  | key scancode stale fmt =>
    obtain ⟨hat, hready⟩ := Bool.and_eq_true_iff.mp h
    have hshown := of_decide_eq_true hat
    refine ⟨hshown, ?_⟩
    rw [InsertReady]
    cases hcase : keyCase scancode <;> rw [hcase] at hready
    case enter => exact of_decide_eq_true hready
    case up =>
      have hrow := of_decide_eq_true hready
      exact Or.inl hrow
    case tab => cases hready
    case down => cases hready
    all_goals trivial
  | read n => exact ⟨trivial, trivial⟩
  | elsewhere k₁ => cases h

theorem Delivered.atTerminal (h : Delivered t k e) : AtTerminal t k e := by
  cases e with
  | key scancode stale fmt => exact h.1
  | read n => trivial
  | elsewhere k₁ => exact h

/-- A letter, Up, which recalls the line itself, Enter, and a read. -/
theorem insertions_safe_up : ∃ k,
    Reach (observed lineStep noteInsertions) (fun p e => AtTerminal 0 p.1 e ∧ InsertReady p.1 e) (zeroBoot, [])
      (k, 0 :: (List.range 128).map Int.ofNat ++ [1]) ∧
    ∀ i ∈ 0 :: (List.range 128).map Int.ofNat ++ [1], 0 ≤ i ∧ i ≤ 127 := by
  have hrun : (([plainKey 0x1E, plainKey scUp, plainKey scEnter, .read 128] : List LineEvent).foldlM
      (fun p e => if insertCheck 0 p.1 e = true then observed lineStep noteInsertions p e else none)
      (zeroBoot, [])).map Prod.snd = some (0 :: (List.range 128).map Int.ofNat ++ [1]) := by decide +kernel
  obtain ⟨⟨k, written⟩, hrun, hwritten⟩ := Option.map_eq_some_iff.mp hrun
  have hreach := Reach.of_foldlM (fun (p : Kernel × List Int) e => insertCheck 0 p.1 e)
    (fun p e => insertCheck_sound) _ (.refl _) hrun
  rw [show written = _ from hwritten] at hreach
  exact ⟨k, hreach, (insertions_safe hreach).2.1⟩

/-- A full line, Enter, and Enter again before it is read: the second newline goes to `buf_idx`. -/
theorem insertion_past_end : ∃ k written,
    Reach (observed lineStep noteInsertions) (fun p e => AtTerminal 0 p.1 e) (zeroBoot, []) (k, written) ∧
    128 ∈ written ∧ (k.terminals 0).bufIdx = 11 := by
  have hrun : ((List.replicate 127 (plainKey 0x1E) ++ [plainKey scEnter, plainKey scEnter]).foldlM
      (fun p e => if deliveredCheck 0 p.1 e = true then observed lineStep noteInsertions p e else none)
      (zeroBoot, [])).map (fun p => (decide (128 ∈ p.2), (p.1.terminals 0).bufIdx)) = some (true, 11) := by
    decide +kernel
  obtain ⟨⟨k, written⟩, hrun, hview⟩ := Option.map_eq_some_iff.mp hrun
  have hreach := Reach.of_foldlM (fun (p : Kernel × List Int) e => deliveredCheck 0 p.1 e)
    (fun p e h => (deliveredCheck_sound h).atTerminal) _ (.refl _) hrun
  obtain ⟨hmem, hidx⟩ := Prod.mk.inj hview
  exact ⟨k, written, hreach, of_decide_eq_true hmem, hidx⟩

end BasicOs
