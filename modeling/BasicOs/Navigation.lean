import BasicOs.Recall

/-!
# A walk through the history

Up as often as one likes, and Down as often again.

* `pressed k n i` : the kernel after `i` of these keys; `rowShown` : the row where they lead;
* `AtRow` : the line that was left is kept in the latest row, and the other rows are as they were;
* `round_trip_iff` : the keys show the rows on the way and then the line that was left, exactly if each of these
  rows ends with a NUL.
-/

namespace BasicOs
open Bytes

variable {k k' : Kernel} {t : Term}

/-! ## The walk -/

/-- The keys: Up `n` times, and then Down. -/
def pressed (k : Kernel) (n : Nat) : Nat → Option Kernel
  | 0 => some k
  | i + 1 => (pressed k n i).bind fun k => if i < n then moveUpHistory k else some (moveDownHistory k)

/-- The row where `i` of these keys lead, from row `a`. -/
def rowShown (a n i : Nat) : Nat := if i ≤ n then a - i else a - (2 * n - i)

/-- Up `n` times and Down `n` times, from the line `s` at row `a`: each key shows its row, the last one `s`; no row
but `a` is changed, and the line is as it was. -/
structure RoundTrip (k : Kernel) (s : List UInt8) (a n : Nat) : Prop where
  shown : ∀ i, i < 2 * n → ∃ k₁ k₂, pressed k n i = some k₁ ∧ pressed k n (i + 1) = some k₂ ∧
    k₂.term.historyIdx = rowShown a n (i + 1) ∧
    ShowsLine k₁ k₂ (if rowShown a n (i + 1) = a then s else lineOf (k.term.history (rowShown a n (i + 1))))
  rows : ∀ i k', i ≤ 2 * n → pressed k n i = some k' → ∀ r, r ≠ a → k'.term.history r = k.term.history r
  returns : ∃ k', pressed k n (2 * n) = some k' ∧ (∀ j, j < 128 → k'.term.keyboardBuf j = k.term.keyboardBuf j) ∧
    k'.term.bufIdx = k.term.bufIdx ∧ k'.term.historyIdx = k.term.historyIdx

/-- On the way, at row `r`: the line that was left is kept in row `a`. -/
structure AtRow (t₀ t : Term) (a r : Nat) : Prop where
  idx : t.historyIdx = r
  latest : t.absoluteHistoryIdx = a
  rows : ∀ r', r' ≠ a → t.history r' = t₀.history r'
  kept : t.history a = strncpy t₀.bufView keyboardBufSize

/-- The first Up. -/
theorem atRow_first {r : Nat} (hidx : t.historyIdx = (r + 1 : Nat)) (hlatest : t.absoluteHistoryIdx = (r + 1 : Nat)) :
    AtRow t t.movedUp (r + 1) r := by
  have hkept : t.keptLatest = t.kept := if_pos (hlatest.trans hidx.symm)
  have hhistory : t.movedUp.history = Function.update t.history (r + 1) (strncpy t.bufView keyboardBufSize) := by
    show t.keptLatest.history = _
    rw [hkept, Term.kept, hidx]
    rfl
  refine ⟨?_, ?_, fun r' hr' => ?_, ?_⟩
  · show (if t.historyIdx - 1 ≥ 0 then t.historyIdx - 1 else 0) = (r : Int)
    rw [hidx]
    split_ifs <;> omega
  · show t.keptLatest.absoluteHistoryIdx = _
    rw [hkept]
    exact hlatest
  · rw [hhistory, Function.update_of_ne hr']
  · rw [hhistory, Function.update_self]

theorem AtRow.movedUp {t₀ : Term} {a r : Nat} (h : AtRow t₀ t a (r + 1)) (hr : r + 1 < a) :
    AtRow t₀ t.movedUp a r := by
  have hkept : t.keptLatest = t := if_neg (by rw [h.latest, h.idx]; omega)
  have hhistory : t.movedUp.history = t.history := by
    show t.keptLatest.history = _
    rw [hkept]
  refine ⟨?_, ?_, fun r' hr' => ?_, ?_⟩
  · show (if t.historyIdx - 1 ≥ 0 then t.historyIdx - 1 else 0) = (r : Int)
    rw [h.idx]
    split_ifs <;> omega
  · show t.keptLatest.absoluteHistoryIdx = _
    rw [hkept]
    exact h.latest
  · rw [hhistory, h.rows r' hr']
  · rw [hhistory, h.kept]

theorem AtRow.movedDown {t₀ : Term} {a r : Nat} (h : AtRow t₀ t a r) (hr : r < a) (ha : a ≤ 99) :
    AtRow t₀ t.movedDown a (r + 1) := by
  unfold Term.movedDown
  rw [if_neg (by rw [h.latest, h.idx]; omega)]
  refine ⟨?_, h.latest, h.rows, h.kept⟩
  show t.historyIdx + 1 = _
  rw [h.idx]
  rfl

theorem AtRow.of_becomes {t₀ u : Term} {a r : Nat} (h : AtRow t₀ u a r) (hk : Becomes k k' u) :
    AtRow t₀ k'.term a r := by
  obtain ⟨x, y, hxy⟩ := hk.term
  rw [hxy]
  exact ⟨h.idx, h.latest, h.rows, h.kept⟩

/-- One Up, to row `r`. -/
theorem AtRow.pressUp {t₀ : Term} {a r : Nat} (hat : AtRow t₀ k.term.movedUp a r)
    (hidx : k.term.historyIdx = (r + 1 : Nat)) (hle : r + 1 ≤ 99) :
    ∃ k', moveUpHistory k = some k' ∧ AtRow t₀ k'.term a r ∧
      (ShowsLine k k' (lineOf (k'.term.history r)) ↔ Terminated (k'.term.history r)) := by
  obtain ⟨k', hk', hbecomes, hshows⟩ := moveUpHistory_shows k (by omega) (by omega)
  obtain ⟨x, y, hxy⟩ := hbecomes.term
  refine ⟨k', hk', hat.of_becomes hbecomes, ?_⟩
  rw [hxy]
  exact hshows r hat.idx

/-- One Down, from row `r`. -/
theorem AtRow.pressDown {t₀ : Term} {a r : Nat} (hat : AtRow t₀ k.term a r) (hr : r < a) (ha : a ≤ 99) :
    AtRow t₀ (moveDownHistory k).term a (r + 1) ∧
      (ShowsLine k (moveDownHistory k) (lineOf ((moveDownHistory k).term.history (r + 1))) ↔
        Terminated ((moveDownHistory k).term.history (r + 1))) := by
  have hbecomes := moveDownHistory_becomes k (by rw [hat.idx]; exact Int.natCast_nonneg _)
  have hmoves : MovesDown k := by
    rw [MovesDown, hat.latest, hat.idx]
    omega
  obtain ⟨x, y, hxy⟩ := hbecomes.term
  have hhistory : (moveDownHistory k).term.history = k.term.history := by
    rw [hxy, Term.movedDown, if_neg (by rw [hat.latest, hat.idx]; omega)]
    rfl
  refine ⟨(hat.movedDown hr ha).of_becomes hbecomes, ?_⟩
  rw [hhistory]
  exact moveDownHistory_shows k hat.idx hmoves

/-- The line that belongs to the row. -/
theorem AtRow.lineOf_eq {t₀ : Term} {s : List UInt8} {a r : Nat} (h : AtRow t₀ t a r) (hs : Contains t₀.line s) :
    lineOf (t.history r) = if r = a then s else lineOf (t₀.history r) := by
  split_ifs with hr
  · rw [hr, h.kept, lineOf_strncpy, hs.lineOf_bufView]
  · rw [h.rows r hr]

section Walk
variable {s : List UInt8} {a n : Nat}

/-- Each key leads to its row, and shows it if the row ends with a NUL. -/
theorem pressed_spec (hidx : k.term.historyIdx = a) (hlatest : k.term.absoluteHistoryIdx = a) (ha : a ≤ 99)
    (hn : n ≤ a) (i : Nat) (hi : i < 2 * n) : ∃ k₁ k₂, pressed k n i = some k₁ ∧ pressed k n (i + 1) = some k₂ ∧
      AtRow k.term k₂.term a (rowShown a n (i + 1)) ∧
      (ShowsLine k₁ k₂ (lineOf (k₂.term.history (rowShown a n (i + 1)))) ↔
        Terminated (k₂.term.history (rowShown a n (i + 1)))) := by
  induction i with
  | zero =>
    obtain ⟨r, rfl⟩ : ∃ r, a = r + 1 := ⟨a - 1, by omega⟩
    obtain ⟨k₂, hk₂, hat, hshows⟩ := (atRow_first hidx hlatest).pressUp hidx ha
    have hrow : rowShown (r + 1) n (0 + 1) = r := by
      rw [rowShown, if_pos (by omega)]
      omega
    rw [hrow]
    refine ⟨k, k₂, rfl, ?_, hat, hshows⟩
    rw [pressed, pressed, Option.bind_some, if_pos (by omega), hk₂]
  | succ i ih =>
    obtain ⟨-, k₁, -, hk₁, hat, -⟩ := ih (by omega)
    have hnext : pressed k n (i + 1 + 1) = if i + 1 < n then moveUpHistory k₁ else some (moveDownHistory k₁) := by
      rw [pressed, hk₁, Option.bind_some]
    rw [hnext]
    by_cases hturn : i + 1 < n
    · obtain ⟨r, hr⟩ : ∃ r, rowShown a n (i + 1) = r + 1 ∧ rowShown a n (i + 1 + 1) = r := by
        refine ⟨a - (i + 1 + 1), ?_, ?_⟩
        · rw [rowShown, if_pos (by omega)]
          omega
        · rw [rowShown, if_pos (by omega)]
      rw [hr.1] at hat
      have hlt : r + 1 < a := by
        rw [← hr.1, rowShown, if_pos (by omega)]
        omega
      obtain ⟨k₂, hk₂, hat', hshows⟩ := (hat.movedUp hlt).pressUp hat.idx (by omega)
      rw [hr.2, if_pos hturn]
      exact ⟨k₁, k₂, hk₁, hk₂, hat', hshows⟩
    · have hlt : rowShown a n (i + 1) < a := by
        unfold rowShown
        split_ifs <;> omega
      have hr : rowShown a n (i + 1 + 1) = rowShown a n (i + 1) + 1 := by
        unfold rowShown
        split_ifs <;> omega
      rw [hr, if_neg hturn]
      exact ⟨k₁, moveDownHistory k₁, hk₁, rfl, hat.pressDown hlt ha⟩

/-- Whatever the rows on the way are, none of them is changed. -/
theorem pressed_rows (hidx : k.term.historyIdx = a) (hlatest : k.term.absoluteHistoryIdx = a) (ha : a ≤ 99)
    (hn : n ≤ a) {i : Nat} (hi : i ≤ 2 * n) (hk : pressed k n i = some k') {r : Nat} (hr : r ≠ a) :
    k'.term.history r = k.term.history r := by
  cases i with
  | zero =>
    cases hk
    rfl
  | succ i =>
    obtain ⟨-, k₂, -, h₂, hat, -⟩ := pressed_spec hidx hlatest ha hn i (by omega)
    obtain rfl : k' = k₂ := Option.some.inj (hk.symm.trans h₂)
    exact hat.rows r hr

/-- The last Down shows the line that was left. -/
theorem pressed_last (hidx : k.term.historyIdx = a) (hlatest : k.term.absoluteHistoryIdx = a) (ha : a ≤ 99)
    (hs : Contains k.term.line s) (hlen : s.length ≤ 127) (hn : n ≤ a) {i : Nat} (hi : i < 2 * n)
    (hr : rowShown a n (i + 1) = a) : ∃ k₁ k₂, pressed k n i = some k₁ ∧ pressed k n (i + 1) = some k₂ ∧
      k₂.term.historyIdx = a ∧ ShowsLine k₁ k₂ s := by
  obtain ⟨k₁, k₂, h₁, h₂, hat, hiff⟩ := pressed_spec hidx hlatest ha hn i hi
  have hline := hat.lineOf_eq hs
  rw [if_pos hr] at hline
  refine ⟨k₁, k₂, h₁, h₂, hr ▸ hat.idx, ?_⟩
  rw [hline] at hiff
  apply hiff.mpr
  rw [terminated_iff, hline]
  exact hlen

/-- The line is as it was, whatever the rows on the way are. -/
theorem pressed_returns (hidx : k.term.historyIdx = a) (hlatest : k.term.absoluteHistoryIdx = a) (ha : a ≤ 99)
    (hs : Contains k.term.line s) (hlen : s.length ≤ 127) (hn : n ≤ a) :
    ∃ k', pressed k n (2 * n) = some k' ∧ (∀ j, j < 128 → k'.term.keyboardBuf j = k.term.keyboardBuf j) ∧
      k'.term.bufIdx = k.term.bufIdx ∧ k'.term.historyIdx = k.term.historyIdx := by
  cases n with
  | zero => exact ⟨k, rfl, fun _ _ => rfl, rfl, rfl⟩
  | succ n =>
    have hend : rowShown a (n + 1) (2 * n + 1 + 1) = a := by
      unfold rowShown
      split_ifs <;> omega
    obtain ⟨k₁, k₂, -, h₂, hrow, hshown⟩ := pressed_last hidx hlatest ha hs hlen hn (by omega) hend
    refine ⟨k₂, h₂, fun j hj => ?_, ?_, hrow.trans hidx.symm⟩
    · exact (hshown.line.holds.2 j hj).trans (hs.holds.2 j hj).symm
    · exact hshown.line.idx.trans hs.idx.symm

/-- **Navigation.** From a line of at most 127 characters at the latest row `a`, Up `n` times and Down `n` times show
the rows on the way and end at the line as it was, with no other row changed, exactly if each of the rows ends with a
NUL inside its 128 bytes. -/
theorem round_trip_iff (hidx : k.term.historyIdx = a) (hlatest : k.term.absoluteHistoryIdx = a) (ha : a ≤ 99)
    (hs : Contains k.term.line s) (hlen : s.length ≤ 127) (hn : n ≤ a) :
    RoundTrip k s a n ↔ ∀ r, a - n ≤ r → r < a → Terminated (k.term.history r) := by
  have hspec := pressed_spec hidx hlatest ha hn
  constructor
  · intro h r hlo hhi
    -- the row is the one that Up shows
    have hrow : rowShown a n (a - r - 1 + 1) = r := by
      rw [rowShown, if_pos (by omega)]
      omega
    obtain ⟨k₁, k₂, h₁, h₂, hat, hiff⟩ := hspec (a - r - 1) (by omega)
    obtain ⟨k₁', k₂', h₁', h₂', -, hshown⟩ := h.shown (a - r - 1) (by omega)
    obtain rfl : k₁' = k₁ := Option.some.inj (h₁'.symm.trans h₁)
    obtain rfl : k₂' = k₂ := Option.some.inj (h₂'.symm.trans h₂)
    rw [hrow] at hat hiff hshown
    rw [← hat.lineOf_eq hs, hiff, hat.rows r (by omega)] at hshown
    exact hshown
  · intro h
    refine ⟨fun i hi => ?_, fun i k' hi hk' r hr => pressed_rows hidx hlatest ha hn hi hk' hr,
      pressed_returns hidx hlatest ha hs hlen hn⟩
    by_cases hr : rowShown a n (i + 1) = a
    · obtain ⟨k₁, k₂, h₁, h₂, hidx', hshown⟩ := pressed_last hidx hlatest ha hs hlen hn hi hr
      rw [hr, if_pos rfl]
      exact ⟨k₁, k₂, h₁, h₂, hidx', hshown⟩
    · obtain ⟨k₁, k₂, h₁, h₂, hat, hiff⟩ := hspec i hi
      refine ⟨k₁, k₂, h₁, h₂, hat.idx, ?_⟩
      rw [← hat.lineOf_eq hs]
      apply hiff.mpr
      rw [hat.rows _ hr]
      apply h
      · unfold rowShown
        split_ifs <;> omega
      · unfold rowShown at hr ⊢
        split_ifs at hr ⊢ <;> omega

end Walk

/-- A terminal whose latest row is `a`, with the line `s` and the rows `rows`. -/
def latestAt (a : Nat) (s : List UInt8) (rows : Nat → Nat → UInt8) : Kernel :=
  { Kernel.atLoad FileSystem.shellImage with
    terminals := fun _ =>
      { Term.zeroed with
        keyboardBuf := ofList s, bufIdx := s.length, historyIdx := a, absoluteHistoryIdx := a, history := rows } }

/-- Two lines, and a third that is not submitted. -/
theorem round_trip_two : RoundTrip (latestAt 2 [100] fun r => ofList ([[97, 98], [99]].getD r [])) [100] 2 2 := by
  refine (round_trip_iff rfl rfl (by decide) ⟨⟨by decide, fun _ _ => rfl⟩, rfl, by decide⟩ (by decide)
    (le_refl 2)).mpr ?_
  intro r _ hr
  show Terminated (ofList ([[97, 98], [99]].getD r []))
  unfold Terminated
  interval_cases r <;> decide

/-- A row without a NUL: after it, Up prints a byte of `buf_idx`. -/
theorem round_trip_full_row :
    Contains (latestAt 1 [120] fun _ _ => 97).term.line [120] ∧
    ¬ RoundTrip (latestAt 1 [120] fun _ _ => 97) [120] 1 1 ∧
    (moveUpHistory (latestAt 1 [120] fun _ _ => 97)).map (fun k => (k.term.bufIdx, k.term.text)) =
      some (129, List.replicate 128 97 ++ [129]) := by
  refine ⟨⟨⟨by decide, fun _ _ => rfl⟩, rfl, by decide⟩, fun h => ?_, by decide +kernel⟩
  obtain ⟨k₁, k₂, h₁, h₂, -, hshown⟩ := h.shown 0 (by decide)
  obtain ⟨k₁', k₂', h₁', h₂', hat, hiff⟩ :=
    pressed_spec (k := latestAt 1 [120] fun _ _ => 97) rfl rfl (by decide) (le_refl 1) 0 (by decide)
  obtain rfl : k₁ = k₁' := Option.some.inj (h₁.symm.trans h₁')
  obtain rfl : k₂ = k₂' := Option.some.inj (h₂.symm.trans h₂')
  have hrow : k₂.term.history 0 = fun _ => 97 := hat.rows 0 (by decide)
  have hterminated := hiff.mp (by
    show ShowsLine k₁ k₂ (lineOf (k₂.term.history 0))
    rw [hrow]
    exact hshown)
  have hfull : strnlen (k₂.term.history 0) 128 < 128 := hterminated
  rw [hrow] at hfull
  exact absurd hfull (by decide +kernel)

end BasicOs
