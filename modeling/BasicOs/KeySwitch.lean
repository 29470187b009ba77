import BasicOs.Completion

/-!
# Which keys get to the end of their case

The handler of the keyboard goes on behind its `switch` only if the case it has entered ends. Two things keep a case
from that: the search of `autocomplete` leaves its arrays, or a store goes below the array `terminals`. And when Tab
lists names, each of them is the format of a `printf`, which may read where nothing is mapped.

* `SearchEnds` : the search stays in its arrays, as far as the outcome depends on what lies behind them;
* `completeWord_isSome_iff` : then it ends;
* `CaseEnds` : the condition on a key;
* `dispatchKey_isSome_iff` : the case of the key ends exactly if it holds;
* `caseEnds_iff` : unless an index of the line is negative, only Tab can fail;
* `ListingEnds`, `dispatchKey_congr` : the names that are listed.
-/

namespace BasicOs
open Bytes Run CommonPrefix

/-! ## The search -/

variable {t : Term} {fs : FileSystem} {w : List UInt8} {ls : List (List UInt8)} {stale : Nat → UInt8}

/-- From the last row of `ls` on, no two neighbours among `n` rows are both there to be compared. -/
def RowsEnd (ls : List (List UInt8)) (stale : Nat → UInt8) (n : Nat) : Prop :=
  ∀ i, 32 ≤ i → i + 1 < n → lsByte ls stale i 0 = 0 ∨ lsByte ls stale (i + 1) 0 = 0

/-- The line is empty; or its last word fits in `prefix`, the names before it that start with it fit in `ls`, and it is
a name, or one name at most starts with it, or several that are not all the same, where the comparison of neighbours
meets none behind `ls`. -/
def SearchEnds (fs : FileSystem) (t : Term) (stale : Nat → UInt8) : Prop :=
  t.bufView 0 = 0 ∨
    t.lastWord.length ≤ 32 ∧ (candidates t.lastWord fs.names).length ≤ 33 ∧
      (t.lastWord ∈ fs.names ∨ (fs.matching t.lastWord).length ≤ 1 ∨
        RowsEnd (fs.matching t.lastWord) stale fs.names.length ∧
          ∃ a ∈ fs.matching t.lastWord, ∃ b ∈ fs.matching t.lastWord, a ≠ b)

/-- A round that compares two rows keeps a minimum that no name reaches only if they are the same. -/
theorem Rows.minDiffRound_ge_iff (h : Rows w ls) {i : Nat} {min min' : Int}
    (hround : minDiffRound ls stale (i + 1) min = some min') :
    32 ≤ min' ↔ 32 ≤ min ∧ (i + 1 < ls.length → ls[i]? = ls[i + 1]?) := by
  have h33 := h.length_le
  unfold minDiffRound at hround
  rw [Nat.add_sub_cancel] at hround
  split_ifs at hround with hzero hindex
  · obtain rfl := Option.some.inj hround
    refine ⟨fun hmin => ⟨hmin, fun hi => ?_⟩, And.left⟩
    exact absurd hzero (not_or.mpr ⟨h.byte_zero (Nat.lt_of_succ_lt hi), h.byte_zero hi⟩)
  · have hi : i + 1 < ls.length := by
      by_contra hge
      exact hzero (Or.inr (lsByte_empty hindex (Nat.le_of_not_lt hge)))
    have hshort := (h.row ls[i] (List.getElem_mem (Nat.lt_of_succ_lt hi))).1
    have hcommon := (commonPrefix_prefix_left ls[i] ls[i + 1]).length_le
    rw [← Option.some.inj hround, le_foldl_min_iff, h.strnlen_eq (Nat.lt_of_succ_lt hi), h.strnlen_eq hi,
      h.pair_iff hi 32 fun _ => Or.inr (le_refl _), List.getElem?_eq_getElem (Nat.lt_of_succ_lt hi),
      List.getElem?_eq_getElem hi, Option.some_inj]
    refine and_congr_right fun _ => ⟨fun hle _ => ?_, fun heq hne => absurd (heq hi) hne⟩
    by_contra hne
    have := hle hne
    omega

theorem minDiffRound_isSome_iff (ls : List (List UInt8)) (stale : Nat → UInt8) (i : Nat) (min : Int) :
    (minDiffRound ls stale (i + 1) min).isSome ↔
      (32 ≤ i → lsByte ls stale i 0 = 0 ∨ lsByte ls stale (i + 1) 0 = 0) := by
  unfold minDiffRound
  rw [Nat.add_sub_cancel]
  split_ifs with hzero hindex
  · exact iff_of_true rfl fun _ => hzero
  · exact iff_of_true rfl fun hi => absurd hi (by omega)
  · exact iff_of_false (by decide) fun hall => hzero (hall (by omega))

theorem minDiff_succ (ls : List (List UInt8)) (stale : Nat → UInt8) (n : Nat) : minDiff ls stale (n + 1 + 1) =
    (minDiff ls stale (n + 1)).bind fun min => minDiffRound ls stale (n + 1) min := by
  unfold minDiff
  rw [Nat.add_sub_cancel, Nat.add_sub_cancel, List.range'_1_concat, List.foldlM_append, Nat.add_comm 1 n]
  refine congrArg _ (funext fun min => ?_)
  rw [List.foldlM_cons]
  exact bind_pure _

theorem rowsEnd_succ (ls : List (List UInt8)) (stale : Nat → UInt8) (n : Nat) : RowsEnd ls stale (n + 1 + 1) ↔
    RowsEnd ls stale (n + 1) ∧ (32 ≤ n → lsByte ls stale n 0 = 0 ∨ lsByte ls stale (n + 1) 0 = 0) := by
  unfold RowsEnd
  constructor
  · intro hall
    exact ⟨fun i hi hlt => hall i hi (by omega), fun hn => hall n hn (by omega)⟩
  · rintro ⟨hall, hlast⟩ i hi hlt
    by_cases hin : i = n
    · exact hin ▸ hlast (hin ▸ hi)
    · exact hall i hi (by omega)

/-- The loop over neighbours, for `n + 1` entries, stays in `ls`. -/
theorem minDiff_isSome_iff (ls : List (List UInt8)) (stale : Nat → UInt8) (n : Nat) :
    (minDiff ls stale (n + 1)).isSome ↔ RowsEnd ls stale (n + 1) := by
  induction n with
  | zero => exact iff_of_true rfl fun i _ hi => absurd hi (by omega)
  | succ n ih =>
    rw [minDiff_succ, rowsEnd_succ, ← ih]
    cases minDiff ls stale (n + 1) with
    | none => simp
    | some min =>
      rw [Option.bind_some, minDiffRound_isSome_iff]
      simp

/-- And what it computes then. -/
theorem Rows.minDiff_ge_iff (h : Rows w ls) {n : Nat} {min : Int} (hmin : minDiff ls stale (n + 1) = some min) :
    32 ≤ min ↔ ∀ i, i + 1 < ls.length → i < n → ls[i]? = ls[i + 1]? := by
  induction n generalizing min with
  | zero =>
    rw [← Option.some.inj hmin]
    exact iff_of_true (by decide) fun i _ hi => absurd hi (Nat.not_lt_zero i)
  | succ n ih =>
    rw [minDiff_succ] at hmin
    obtain ⟨min₀, hmin₀, hround⟩ := Option.bind_eq_some_iff.mp hmin
    rw [h.minDiffRound_ge_iff hround, ih hmin₀]
    constructor
    · rintro ⟨hall, hlast⟩ i hi hin
      rcases Nat.lt_or_eq_of_le (Nat.le_of_lt_succ hin) with hlt | rfl
      · exact hall i hi hlt
      · exact hlast hi
    · exact fun hall => ⟨fun i hi hin => hall i hi (Nat.lt_succ_of_lt hin), fun hi => hall n hi (Nat.lt_succ_self n)⟩

/-- Names of which neighbours are the same are all the same. -/
theorem neighbours_eq_iff (ls : List (List UInt8)) :
    (∀ i, i + 1 < ls.length → ls[i]? = ls[i + 1]?) ↔ ¬ ∃ a ∈ ls, ∃ b ∈ ls, a ≠ b := by
  constructor
  · rintro hall ⟨a, ha, b, hb, hab⟩
    have hfirst : ∀ i, i < ls.length → ls[i]? = ls[0]? := by
      intro i hi
      induction i with
      | zero => rfl
      | succ i ih => exact (hall i hi).symm.trans (ih (Nat.lt_of_succ_lt hi))
    obtain ⟨i, hi, rfl⟩ := List.getElem_of_mem ha
    obtain ⟨j, hj, rfl⟩ := List.getElem_of_mem hb
    have hsame := (hfirst i hi).trans (hfirst j hj).symm
    rw [List.getElem?_eq_getElem hi, List.getElem?_eq_getElem hj, Option.some_inj] at hsame
    exact hab hsame
  · intro hsame i hi
    rw [List.getElem?_eq_getElem (Nat.lt_of_succ_lt hi), List.getElem?_eq_getElem hi, Option.some_inj]
    by_contra hne
    exact hsame ⟨_, List.getElem_mem (Nat.lt_of_succ_lt hi), _, List.getElem_mem hi, hne⟩

/-- The search ends. -/
theorem completeWord_isSome_iff (fs : FileSystem) (t : Term) (stale : Nat → UInt8) :
    (completeWord fs t stale).isSome ↔ SearchEnds fs t stale := by
  unfold SearchEnds
  by_cases h : t.bufView 0 = 0
  · rw [completeWord, if_pos h]
    exact iff_of_true rfl (Or.inl h)
  · rw [completeWord_eq h, or_iff_right h]
    by_cases hroom : 32 < t.lastWord.length ∨ 33 < (candidates t.lastWord fs.names).length
    · rw [if_pos hroom]
      exact iff_of_false (by decide) fun hall => by omega
    · obtain ⟨hlen, hfew⟩ := not_or.mp hroom
      rw [if_neg hroom, and_iff_right (Nat.le_of_not_lt hlen), and_iff_right (Nat.le_of_not_lt hfew)]
      by_cases hnone : t.lastWord ∈ fs.names ∨ fs.matching t.lastWord = []
      · rw [if_pos hnone]
        refine iff_of_true rfl (hnone.imp_right fun hnil => Or.inl ?_)
        rw [hnil]
        exact Nat.zero_le 1
      · obtain ⟨hmem, hnil⟩ := not_or.mp hnone
        rw [if_neg hnone, or_iff_right hmem]
        by_cases hone : (fs.matching t.lastWord).length = 1
        · rw [if_pos hone]
          exact iff_of_true rfl (Or.inl (le_of_eq hone))
        · have hpos := List.length_pos_of_ne_nil hnil
          have hshort : (fs.matching t.lastWord).length ≤ fs.names.length := List.length_filter_le _ _
          have hrows : Rows t.lastWord (fs.matching t.lastWord) := by
            rw [candidates_eq_matching hmem] at hfew
            refine ⟨Nat.le_of_not_lt hfew, Term.lastWord_ne_nil h, fun a ha => ?_⟩
            obtain ⟨han, hpre⟩ := FileSystem.mem_matching.mp ha
            exact ⟨(FileSystem.name_spec han).1, (FileSystem.name_spec han).2, hpre⟩
          obtain ⟨n, hn⟩ : ∃ n, fs.names.length = n + 1 := ⟨fs.names.length - 1, by omega⟩
          rw [if_neg hone, or_iff_right (show ¬ (fs.matching t.lastWord).length ≤ 1 by omega), hn, ← minDiff_isSome_iff]
          cases hmin : minDiff (fs.matching t.lastWord) stale (n + 1) with
          | none =>
            rw [Option.bind_none]
            exact iff_of_false Bool.false_ne_true fun hall => Bool.false_ne_true hall.1
          | some min =>
            -- the minimum leads past `best` exactly if the names are all the same
            have hge : 32 ≤ min ↔ ¬ ∃ a ∈ fs.matching t.lastWord, ∃ b ∈ fs.matching t.lastWord, a ≠ b := by
              rw [hrows.minDiff_ge_iff hmin, ← neighbours_eq_iff]
              exact ⟨fun hall i hi => hall i hi (by omega), fun hall i hi _ => hall i hi⟩
            rw [Option.bind_some, and_iff_right Option.isSome_some, ← not_iff_not, ← hge]
            split_ifs
            · exact iff_of_false (fun hnot => hnot rfl) (by omega)
            · exact iff_of_true Bool.false_ne_true (by omega)
            · exact iff_of_false (fun hnot => hnot rfl) (by omega)

/-! ## The stores -/

variable {k k₁ : Kernel}

theorem isSome_bind_some {α β : Type} (x : Option α) (f : α → β) : (x.bind fun a => some (f a)).isSome ↔ x.isSome := by
  cases x with
  | none => exact Iff.rfl
  | some a => exact Iff.rfl

theorem storeTerms_isSome_iff (k : Kernel) (a : Int) (c : UInt8) : (k.storeTerms a c).isSome ↔ 0 ≤ a := by
  unfold Kernel.storeTerms
  split_ifs with ha hin
  · exact iff_of_false Bool.false_ne_true (Int.not_le.mpr ha)
  · exact iff_of_true rfl (Int.not_lt.mp ha)
  · exact iff_of_true rfl (Int.not_lt.mp ha)

theorem storeTerms_currTerm {a : Int} {c : UInt8} (h : k.storeTerms a c = some k₁) : k₁.currTerm = k.currTerm := by
  unfold Kernel.storeTerms at h
  split_ifs at h
  · cases h
    rfl
  · cases h
    rfl

/-- `&keyboard_buf[buf_idx]` of the displayed terminal, from the start of `terminals`. -/
def lineAddr (k : Kernel) : Int := k.currTerm.val * termSize + 16 + k.term.bufIdx

theorem ScreenOnly.lineAddr_eq (h : ScreenOnly k k₁) : lineAddr k₁ = lineAddr k := by
  unfold lineAddr Kernel.term
  rw [h.currTerm_eq, show (k₁.terminals k.currTerm).bufIdx = _ from congrArg Line.idx (h.line_eq k.currTerm)]
  rfl

theorem pokeBuf_of_ge (k : Kernel) (t : Fin 3) {i : Int} (h : -16 ≤ i) (c : UInt8) :
    ∃ k₁, k.pokeBuf t i c = some k₁ := by
  have := Int.natCast_nonneg (t.val * termSize)
  push_cast at this
  exact Option.isSome_iff_exists.mp ((storeTerms_isSome_iff k _ c).mpr (by omega))

theorem lineAddr_nonneg (h : 0 ≤ k.term.bufIdx) : 0 ≤ lineAddr k := by
  have := Int.natCast_nonneg (k.currTerm.val * termSize)
  unfold lineAddr
  push_cast at this
  omega

theorem historyAddr_nonneg (t : Fin 3) {row : Int} (h : 0 ≤ row) : 0 ≤ historyAddr t row := by
  have := Int.natCast_nonneg (t.val * termSize)
  unfold historyAddr
  push_cast at this
  omega

/-- The copy of the line to a row ends if the row does not start below `terminals`. -/
theorem saveHistory_isSome_iff (k : Kernel) (row : Int) :
    (saveHistory k row).isSome ↔ 0 ≤ historyAddr k.currTerm row := by
  unfold saveHistory
  dsimp only
  split_ifs with hin
  · exact iff_of_true rfl (historyAddr_nonneg k.currTerm hin.1)
  · generalize strncpy k.term.bufView keyboardBufSize = line
    constructor
    · intro h
      rw [show keyboardBufSize = 127 + 1 from rfl, List.range_succ_eq_map, List.foldlM_cons] at h
      have := (storeTerms_isSome_iff k _ _).mp (Option.isSome_of_isSome_bind h)
      omega
    · intro h
      apply foldlM_isSome fun k' => k'.currTerm = k.currTerm
      · intro j _ k' hk'
        have haddr : 0 ≤ historyAddr k'.currTerm row + (j : Int) := by
          rw [hk']
          omega
        obtain ⟨k₁, hk₁⟩ := Option.isSome_iff_exists.mp ((storeTerms_isSome_iff k' _ (line j)).mpr haddr)
        exact ⟨k₁, hk₁, (storeTerms_currTerm hk₁).trans hk'⟩
      · rfl

theorem recordLine_isSome_iff (k : Kernel) :
    (recordLine k).isSome ↔ (k.term.historyIdx ≤ 99 → 0 ≤ historyAddr k.currTerm k.term.historyIdx) := by
  unfold recordLine
  by_cases hle : k.term.historyIdx ≤ 99
  · rw [if_pos hle, forall_prop_of_true hle, ← saveHistory_isSome_iff]
    cases saveHistory k k.term.historyIdx with
    | none => exact iff_of_false Bool.false_ne_true Bool.false_ne_true
    | some k₁ =>
      refine iff_of_true ?_ rfl
      simp only [bind, Option.bind_some]
      split
      · rfl
      · rfl
  · rw [if_neg hle]
    exact iff_of_true rfl fun h => absurd h hle

/-- Enter stores the line, and then a newline behind it. -/
theorem keyboardReturn_isSome_iff (k : Kernel) : (keyboardReturn k).isSome ↔
    (k.term.historyIdx ≤ 99 → 0 ≤ historyAddr k.currTerm k.term.historyIdx) ∧
      ∀ k₁, recordLine k = some k₁ → 0 ≤ lineAddr k₁ := by
  rw [← recordLine_isSome_iff]
  unfold keyboardReturn
  cases recordLine k with
  | none => exact iff_of_false Bool.false_ne_true fun h => Bool.false_ne_true h.1
  | some k₁ =>
    simp only [bind, Option.bind_some, Option.isSome_some, true_and, Option.some.injEq, forall_eq']
    have hprint : ScreenOnly k₁ (if k₁.term.keyboardBuf 0 ≠ chNewline then putc k₁ chNewline k₁.currTerm else k₁) := by
      split
      · exact putc_screenOnly k₁ _ _
      · exact ScreenOnly.refl k₁
    rw [← hprint.lineAddr_eq]
    generalize (if k₁.term.keyboardBuf 0 ≠ chNewline then putc k₁ chNewline k₁.currTerm else k₁) = k₂
    rw [← storeTerms_isSome_iff k₂ (lineAddr k₂) chNewline]
    exact isSome_bind_some _ _


/-- Up stores the line that is the latest. -/
theorem moveUpHistory_isSome_iff (k : Kernel) : (moveUpHistory k).isSome ↔
    (k.term.absoluteHistoryIdx = k.term.historyIdx → 0 ≤ historyAddr k.currTerm k.term.historyIdx) := by
  unfold moveUpHistory keepLatest
  rw [Option.isSome_map]
  split_ifs with hlatest
  · rw [forall_prop_of_true hlatest, saveHistory_isSome_iff]
  · exact iff_of_true rfl fun h => absurd h hlatest

/-- The stores of Tab begin in the line. -/
theorem autocomplete_isSome_iff (k : Kernel) (stale : Nat → UInt8) (fmt : List UInt8 → List UInt8) :
    (autocomplete k stale fmt).isSome ↔ SearchEnds k.fs k.term stale := by
  rw [← completeWord_isSome_iff]
  unfold autocomplete
  cases completeWord k.fs k.term stale with
  | none => exact iff_of_false Bool.false_ne_true Bool.false_ne_true
  | some c =>
    refine iff_of_true ?_ rfl
    cases c with
    | nothing => rfl
    | ambiguous ls =>
      simp only [bind, Option.bind_some]
      split
      · rfl
      · rfl
    | replace oldIdx best resetRepeats =>
      simp only [bind, Option.bind_some]
      rw [isSome_bind_some]
      apply foldlM_isSome fun _ => True
      · rintro ⟨i, c⟩ hmem k' -
        obtain ⟨j, -, hij⟩ := List.mem_map.mp hmem
        obtain ⟨rfl, rfl⟩ := Prod.mk.inj hij
        refine (pokeBuf_of_ge k' _ ?_ _).imp fun _ h => ⟨h, trivial⟩
        exact le_trans (by decide) (Int.natCast_nonneg (oldIdx + j))
      · trivial

/-- A letter is stored while there is room. -/
theorem typeLetter_isSome_iff (k : Kernel) (letter : UInt8) :
    (typeLetter k letter).isSome ↔ (k.term.bufIdx ≤ 126 → 0 ≤ lineAddr k) := by
  unfold typeLetter
  by_cases hroom : k.term.bufIdx ≤ 126
  · have hlt : k.term.bufIdx < keyboardBufSize - 1 := by
      simp only [keyboardBufSize]
      omega
    rw [if_pos hroom, forall_prop_of_true hroom, Option.isSome_map, ← storeTerms_isSome_iff k (lineAddr k) letter]
    unfold addToBuf addToBufStores Kernel.pokeAll
    simp only [hlt, if_true, List.foldlM_cons, List.foldlM_nil, bind, Option.bind_fun_some, pure]
    exact isSome_bind_some _ _
  · rw [if_neg hroom]
    exact iff_of_true rfl fun h => absurd h hroom

theorem processKey_isSome_iff (k : Kernel) (scancode : UInt8) : (processKey k scancode).isSome ↔
    (letterPressed k scancode ≠ none → k.ctrlPressed = false → k.altPressed = false → k.term.bufIdx ≤ 126 →
      0 ≤ lineAddr k) := by
  unfold processKey letterPressed
  by_cases hrelease : scancode &&& 0x80 ≠ 0
  · rw [if_pos hrelease, if_pos (Or.inl hrelease)]
    exact iff_of_true rfl fun h => absurd rfl h
  · by_cases hrow : scancode.toNat / 16 > 3
    · rw [if_neg hrelease, if_pos hrow, if_pos (Or.inr hrow)]
      exact iff_of_true rfl fun h => absurd rfl h
    · rw [if_neg hrelease, if_neg hrow, if_neg (not_or.mpr ⟨hrelease, hrow⟩),
        forall_prop_of_true (Option.some_ne_none _)]
      cases hctrl : k.ctrlPressed with
      | true => exact iff_of_true rfl fun h => absurd h Bool.noConfusion
      | false =>
        cases halt : k.altPressed with
        | true => exact iff_of_true rfl fun _ h => absurd h Bool.noConfusion
        | false =>
          rw [forall_prop_of_true rfl, forall_prop_of_true rfl]
          exact typeLetter_isSome_iff k _

/-- Backspace on an empty line stores in front of the array, but not in front of the terminal. -/
theorem backspaceKey_isSome (k : Kernel) : (backspaceKey k).isSome := by
  unfold backspaceKey
  split_ifs with hidx
  · have hsame : (eraseLast k).term.bufIdx = k.term.bufIdx := by
      have h := (eraseLast_screenOnly k).line_eq k.currTerm
      rw [Kernel.term, (eraseLast_screenOnly k).currTerm_eq]
      exact congrArg Line.idx h
    rw [Option.isSome_map]
    generalize eraseLast k = k₁ at hsame
    obtain ⟨k₂, hk₂⟩ := pokeBuf_of_ge (k₁.modifyTerm k₁.currTerm fun t => { t with bufIdx := t.bufIdx - 1 }) k₁.currTerm
      (i := k₁.term.bufIdx - 1) (by omega) 0
    unfold deleteFromBuf
    have hterm : (k₁.modifyTerm k₁.currTerm fun t => { t with bufIdx := t.bufIdx - 1 }).term.bufIdx =
        k₁.term.bufIdx - 1 := by
      rw [Kernel.term, show (k₁.modifyTerm k₁.currTerm _).currTerm = k₁.currTerm from rfl,
        Kernel.modifyTerm_terminals_self]
      rfl
    dsimp only
    rw [hterm, show (k₁.modifyTerm k₁.currTerm _).currTerm = k₁.currTerm from rfl, hk₂]
    simp only [bind, Option.bind_some]
    split
    · rfl
    · rfl
  · rfl

/-! ## The keys -/

/-- The case of the key ends: Enter, which copies the line to a row of the history that does not start below
`terminals` and then stores the newline there; Tab, if the search ends; Up, which copies the line if it is the latest;
and a key whose letter is stored. -/
def CaseEnds (k : Kernel) (scancode : UInt8) (stale : Nat → UInt8) : Prop :=
  match keyCase scancode with
  | .enter => (k.term.historyIdx ≤ 99 → 0 ≤ historyAddr k.currTerm k.term.historyIdx) ∧
      ∀ k₁, recordLine k = some k₁ → 0 ≤ lineAddr k₁
  | .tab => SearchEnds k.fs k.term stale
  | .up => k.term.absoluteHistoryIdx = k.term.historyIdx → 0 ≤ historyAddr k.currTerm k.term.historyIdx
  | .other => letterPressed k scancode ≠ none → k.ctrlPressed = false → k.altPressed = false → k.term.bufIdx ≤ 126 →
      0 ≤ lineAddr k
  | .ctrl _ | .shift _ | .alt _ | .capsLock | .ignored | .down | .backspace => True

theorem dispatchKey_isSome_iff (k : Kernel) (scancode : UInt8) (stale : Nat → UInt8) (fmt : List UInt8 → List UInt8) :
    (dispatchKey k scancode stale fmt).isSome ↔ CaseEnds k scancode stale := by
  unfold dispatchKey CaseEnds
  cases keyCase scancode with
  | enter => exact keyboardReturn_isSome_iff k
  | tab => exact autocomplete_isSome_iff k stale fmt
  | up => exact moveUpHistory_isSome_iff k
  | other => exact processKey_isSome_iff k scancode
  | backspace => exact iff_of_true (backspaceKey_isSome k) trivial
  | ctrl pressed => exact iff_of_true rfl trivial
  | shift pressed => exact iff_of_true rfl trivial
  | alt pressed => exact iff_of_true rfl trivial
  | capsLock => exact iff_of_true rfl trivial
  | ignored => exact iff_of_true rfl trivial
  | down => exact iff_of_true rfl trivial

theorem keyCase_tab_ofNat : ∀ n : Fin 256, keyCase (UInt8.ofNat n.val) = .tab ↔ UInt8.ofNat n.val = scTab := by
  decide +kernel

theorem keyCase_tab_iff (scancode : UInt8) : keyCase scancode = .tab ↔ scancode = scTab := by
  have hn := keyCase_tab_ofNat ⟨scancode.toNat, scancode.toNat_lt⟩
  rwa [UInt8.ofNat_toNat] at hn

/-- Where no index of the line is negative, Tab alone can fail to end. -/
theorem caseEnds_iff (hidx : 0 ≤ k.term.bufIdx) (hrow : 0 ≤ k.term.historyIdx) (scancode : UInt8)
    (stale : Nat → UInt8) : CaseEnds k scancode stale ↔ (scancode = scTab → SearchEnds k.fs k.term stale) := by
  rw [← keyCase_tab_iff]
  unfold CaseEnds
  have haddr := historyAddr_nonneg k.currTerm hrow
  cases hcase : keyCase scancode with
  | tab => exact ⟨fun h _ => h, fun h => h rfl⟩
  | enter =>
    refine iff_of_true ⟨fun _ => haddr, fun k₁ hk₁ => lineAddr_nonneg ?_⟩ fun h => (by cases h)
    obtain ⟨k₂, row, hk₂, -, hline⟩ := recordLine_line k hrow
    obtain rfl : k₁ = k₂ := Option.some.inj (hk₁.symm.trans hk₂)
    rw [hline.bufIdx_eq]
    exact hidx
  | up => exact iff_of_true (fun _ => haddr) fun h => (by cases h)
  | other => exact iff_of_true (fun _ _ _ _ => lineAddr_nonneg hidx) fun h => (by cases h)
  | ctrl pressed => exact iff_of_true trivial fun h => (by cases h)
  | shift pressed => exact iff_of_true trivial fun h => (by cases h)
  | alt pressed => exact iff_of_true trivial fun h => (by cases h)
  | capsLock => exact iff_of_true trivial fun h => (by cases h)
  | ignored => exact iff_of_true trivial fun h => (by cases h)
  | down => exact iff_of_true trivial fun h => (by cases h)
  | backspace => exact iff_of_true trivial fun h => (by cases h)

/-! ## The list of a repeated Tab -/

/-- The names that the key prints, each as the format of a `printf`. -/
def listed (k : Kernel) (scancode : UInt8) (stale : Nat → UInt8) : List (List UInt8) :=
  match keyCase scancode, completeWord k.fs k.term stale with
  | .tab, some (.ambiguous ls) => if k.term.acRepeats + 1 > 1 then ls.take 30 else []
  | _, _ => []

/-- `printf` ends on the names listed. For a name with a conversion `fmt` gives what it prints, unless it reads where
nothing is mapped. -/
def ListingEnds (k : Kernel) (scancode : UInt8) (stale : Nat → UInt8) (fmt : List UInt8 → Option (List UInt8)) : Prop :=
  ∀ name ∈ listed k scancode stale, 37 ∈ name → (fmt name).isSome

instance (k : Kernel) (scancode : UInt8) (stale : Nat → UInt8) (fmt : List UInt8 → Option (List UInt8)) :
    Decidable (ListingEnds k scancode stale fmt) :=
  inferInstanceAs (Decidable (∀ name ∈ listed k scancode stale, 37 ∈ name → (fmt name).isSome))

theorem listed_of_ne_tab {scancode : UInt8} (h : keyCase scancode ≠ .tab) (k : Kernel) (stale : Nat → UInt8) :
    listed k scancode stale = [] := by
  unfold listed
  split
  · exact absurd ‹_› h
  · rfl

theorem candidateChars_congr {fmt fmt' : List UInt8 → List UInt8}
    (h : ∀ name ∈ ls.take 30, 37 ∈ name → fmt name = fmt' name) (t : Term) :
    candidateChars fmt t ls = candidateChars fmt' t ls := by
  have hchars : ∀ name ∈ ls.take 30, printfChars fmt name ++ [chNewline] = printfChars fmt' name ++ [chNewline] := by
    intro name hmem
    unfold printfChars
    split_ifs with hconv
    · rw [h name hmem hconv]
    · rfl
  unfold candidateChars
  rw [List.flatMap_congr hchars]

/-- The key prints no other names. -/
theorem dispatchKey_congr {scancode : UInt8} {fmt fmt' : List UInt8 → List UInt8}
    (h : ∀ name ∈ listed k scancode stale, 37 ∈ name → fmt name = fmt' name) :
    dispatchKey k scancode stale fmt = dispatchKey k scancode stale fmt' := by
  unfold dispatchKey
  cases hcase : keyCase scancode with
  | tab =>
    unfold listed at h
    rw [hcase] at h
    show autocomplete k stale fmt = autocomplete k stale fmt'
    unfold autocomplete
    cases hword : completeWord k.fs k.term stale with
    | none => rfl
    | some c =>
      rw [hword] at h
      cases c with
      | nothing => rfl
      | replace oldIdx best resetRepeats => rfl
      | ambiguous ls =>
        simp only [bind, Option.bind_some]
        have hrepeats : (k.modifyTerm k.currTerm fun t => { t with acRepeats := t.acRepeats + 1 }).term.acRepeats =
            k.term.acRepeats + 1 := by
          unfold Kernel.term
          exact congrArg Term.acRepeats (Kernel.modifyTerm_terminals_self k k.currTerm _)
        rw [hrepeats]
        by_cases hagain : k.term.acRepeats + 1 > 1
        · dsimp only at h
          rw [if_pos hagain] at h
          rw [if_pos hagain, if_pos hagain, candidateChars_congr h]
        · rw [if_neg hagain, if_neg hagain]
  | enter => rfl
  | up => rfl
  | other => rfl
  | backspace => rfl
  | ctrl pressed => rfl
  | shift pressed => rfl
  | alt pressed => rfl
  | capsLock => rfl
  | ignored => rfl
  | down => rfl

end BasicOs
