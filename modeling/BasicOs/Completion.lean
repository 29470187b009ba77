import BasicOs.BufferSafety
import BasicOs.Lib.CommonPrefix

/-!
# Completion of file names

The word `autocomplete` looks for, the names it finds, and the word it puts in its place: the longest common prefix of
these names, which the code gets from the places where neighbours in its list differ first.

* `Term.lastWord` : the last word of the line;
* `names`, `matching`, `candidates` : the names of the directory, those that start with a word, and those that the
  search meets before the word itself;
* `collect_eq` : what the search over the directory leaves;
* `minDiff_spec` : the minimum of the first differences;
* `completeWord_eq` : the search part of `autocomplete` in these terms.
-/

namespace BasicOs
open Bytes Run CommonPrefix

/-! ## The word -/

/-- Where the last word of the line starts. -/
def Term.wordStart (t : Term) : Nat := (lastWordStart t.bufView t.strlenBuf).toNat

/-- The last word of the line. -/
def Term.lastWord (t : Term) : List UInt8 :=
  cstr (bytesAt (fun j => t.bufView (t.wordStart + j)) (t.strlenBuf - t.wordStart))

/-- The start of the last word follows a space, and no other word starts after it. -/
theorem lastWordStart_cases (buf : Nat → UInt8) (n : Nat) :
    (lastWordStart buf n = -1 ∧ ∀ i, i + 1 < n → buf i ≠ chSpace) ∨
      ∃ i, lastWordStart buf n = (i + 1 : Nat) ∧ i + 1 < n ∧ buf i = chSpace ∧
        ∀ j, i < j → j + 1 < n → buf j ≠ chSpace := by
  induction n with
  | zero => exact Or.inl ⟨rfl, fun i hi => absurd hi (Nat.not_lt_zero _)⟩
  | succ n ih =>
    rw [lastWordStart]
    split_ifs with hspace
    · obtain ⟨i, rfl⟩ : ∃ i, n = i + 1 := ⟨n - 1, by omega⟩
      exact Or.inr ⟨i, rfl, Nat.lt_succ_self _, hspace.2, fun j h1 h2 => by omega⟩
    · have hlast : ∀ i, i + 1 = n → buf i ≠ chSpace := by
        rintro i rfl hi
        exact hspace ⟨Nat.succ_pos i, hi⟩
      rcases ih with ⟨he, hne⟩ | ⟨i, he, hi, hc, hne⟩
      · refine Or.inl ⟨he, fun j hj => ?_⟩
        rcases Nat.lt_or_eq_of_le (Nat.le_of_lt_succ hj) with hlt | heq
        · exact hne j hlt
        · exact hlast j heq
      · refine Or.inr ⟨i, he, Nat.lt_succ_of_lt hi, hc, fun j h1 h2 => ?_⟩
        rcases Nat.lt_or_eq_of_le (Nat.le_of_lt_succ h2) with hlt | heq
        · exact hne j h1 hlt
        · exact hlast j heq

variable {t : Term} {fs : FileSystem} {w : List UInt8}

theorem Term.strlenBuf_pos (h : t.bufView 0 ≠ 0) : 0 < t.strlenBuf := by
  refine le_strnlen (by decide) fun i hi => ?_
  rw [Nat.lt_one_iff.mp hi]
  exact h

theorem Term.wordStart_lt (h : t.bufView 0 ≠ 0) : t.wordStart < t.strlenBuf := by
  have hpos := Term.strlenBuf_pos h
  unfold wordStart
  rcases lastWordStart_cases t.bufView t.strlenBuf with ⟨he, -⟩ | ⟨i, he, hi, -⟩
  · rw [he]
    exact hpos
  · rw [he]
    exact hi

theorem Term.length_lastWord (t : Term) : t.lastWord.length = t.strlenBuf - t.wordStart := by
  have hne : ∀ i, i < t.strlenBuf → t.bufView i ≠ 0 := by
    rcases strnlen_cases t.bufView (termSize - 16) with ⟨-, -, hne⟩ | ⟨hlen, hne⟩
    · exact hne
    · intro i hi
      exact hne i (hlen ▸ hi)
  have hword : 0 ∉ bytesAt (fun j => t.bufView (t.wordStart + j)) (t.strlenBuf - t.wordStart) := by
    intro hmem
    obtain ⟨j, hj, h0⟩ := List.mem_map.mp hmem
    have := List.mem_range.mp hj
    exact hne _ (by omega) h0
  rw [lastWord, cstr_eq_self hword, bytesAt, List.length_map, List.length_range]

theorem Term.zero_notMem_lastWord (t : Term) : 0 ∉ t.lastWord := zero_notMem_cstr _

theorem Term.lastWord_ne_nil (h : t.bufView 0 ≠ 0) : t.lastWord ≠ [] := by
  have hlen := t.length_lastWord
  have hlt := Term.wordStart_lt h
  intro hnil
  rw [hnil] at hlen
  simp only [List.length_nil] at hlen
  omega

/-! ## The names -/

/-- The effective names of the directory, in its order. -/
def FileSystem.names (fs : FileSystem) : List (List UInt8) := (dirEntries fs).map effectiveName

/-- The names that have `w` as a prefix. -/
def FileSystem.matching (fs : FileSystem) (w : List UInt8) : List (List UInt8) := fs.names.filter (w.isPrefixOf ·)

/-- Those that come before the word itself. -/
def candidates (w : List UInt8) (l : List (List UInt8)) : List (List UInt8) :=
  (l.takeWhile (· ≠ w)).filter (w.isPrefixOf ·)

/-- `best` after each name of a list has been copied over it, without its NUL. -/
def overlay (best : Nat → UInt8) (l : List (List UInt8)) : Nat → UInt8 :=
  l.foldl (fun best fname i => if i < fname.length then ofList fname i else best i) best

theorem FileSystem.name_spec {a : List UInt8} (h : a ∈ fs.names) : a.length ≤ 32 ∧ 0 ∉ a := by
  obtain ⟨d, hd, rfl⟩ := List.mem_map.mp h
  have hlen : d.filename.length = 32 := by
    unfold dirEntries at hd
    split_ifs at hd
    · exact absurd hd List.not_mem_nil
    · obtain ⟨i, -, rfl⟩ := List.mem_map.mp hd
      exact fs.filename_length i
  refine ⟨?_, zero_notMem_cstr _⟩
  rw [← hlen]
  exact cstr_length_le _

theorem FileSystem.mem_matching {a : List UInt8} : a ∈ fs.matching w ↔ a ∈ fs.names ∧ w <+: a := by
  rw [matching, List.mem_filter, List.isPrefixOf_iff_prefix]

theorem candidates_eq_matching (h : w ∉ fs.names) : candidates w fs.names = fs.matching w := by
  have hall : fs.names.takeWhile (· ≠ w) = fs.names := by
    apply List.takeWhile_eq_self_iff.mpr
    intro a ha
    simpa using fun haw : a = w => h (haw ▸ ha)
  rw [candidates, hall]
  rfl

theorem candidates_cons (a : List UInt8) (l : List (List UInt8)) : candidates w (a :: l) =
    if a = w then [] else if w <+: a then a :: candidates w l else candidates w l := by
  unfold candidates
  rw [List.takeWhile_cons]
  by_cases haw : a = w
  · simp [haw]
  · by_cases hpre : w <+: a
    · simp [haw, hpre]
    · simp [haw, hpre]

/-- The comparison of the word with as many bytes of a name. -/
theorem word_test_iff (hw : 0 ∉ w) (d : Dentry) :
    strncmp (ofList w) (ofList (effectiveName d)) w.length = 0 ↔ w <+: effectiveName d := by
  have hname : cstr (effectiveName d) = effectiveName d := cstr_cstr _
  rw [strncmp_eq_zero_iff, cstr_bytesAt_ofList, cstr_bytesAt_ofList, cstr_eq_self hw, hname, List.take_length]
  exact List.prefix_iff_eq_take.symm

/-- The search over the directory: the early return, the store past `ls`, or all candidates. -/
theorem collect_eq (hw : 0 ∉ w) : ∀ (ds : List Dentry) {m : Matches}, m.ls.length ≤ 33 →
    collect w ds m =
      if 33 < m.ls.length + (candidates w (ds.map effectiveName)).length then none
      else if w ∈ ds.map effectiveName then some none
      else some (some { best := overlay m.best (candidates w (ds.map effectiveName))
                        ls := m.ls ++ candidates w (ds.map effectiveName) })
  | [], m, hm => by
    simp [collect, candidates, overlay, hm]
  | d :: ds, m, hm => by
    rw [List.map_cons, candidates_cons, collect, show cstr d.filename = effectiveName d from rfl]
    by_cases hpre : w <+: effectiveName d
    · rw [if_pos ((word_test_iff hw d).mpr hpre)]
      by_cases heq : effectiveName d = w
      · simp [heq, hm]
      · have hlen : w.length ≠ (effectiveName d).length := fun hlen => heq (hpre.eq_of_length hlen).symm
        rw [if_neg hlen, if_neg heq, if_pos hpre]
        by_cases hroom : m.ls.length < 33
        · rw [if_pos hroom, collect_eq hw ds (by simpa using hroom)]
          simp only [List.length_append, List.length_cons, List.length_nil, List.mem_cons, Ne.symm heq, false_or,
            List.append_assoc, List.singleton_append]
          rw [show m.ls.length + (0 + 1) + (candidates w (ds.map effectiveName)).length =
            m.ls.length + ((candidates w (ds.map effectiveName)).length + 1) by omega]
          rfl
        · rw [if_neg hroom, if_pos (by simp only [List.length_cons]; omega)]
    · have heq : effectiveName d ≠ w := fun heq => hpre (heq ▸ List.prefix_rfl)
      rw [if_neg (mt (word_test_iff hw d).mp hpre), if_neg heq, if_neg hpre, collect_eq hw ds hm]
      simp only [List.mem_cons, Ne.symm heq, false_or]

/-- An image of a boot block alone, whose directory has these names. -/
def FileSystem.ofNames (l : List (List UInt8)) : FileSystem :=
  { shellImage with
    mem := fun a =>
      if a = 4096 then UInt8.ofNat l.length
      else if 4160 ≤ a then ofList (l.getD ((a - 4160) / 64) []) ((a - 4160) % 64)
      else 0 }

theorem FileSystem.names_ofNames {l : List (List UInt8)} (hlen : l.length < 256)
    (h : ∀ a ∈ l, a.length ≤ 32 ∧ 0 ∉ a) : (ofNames l).names = l := by
  have hcount : (ofNames l).dirEntryCount = l.length := by
    show (UInt8.ofNat l.length).toNat + 256 * 0 + 65536 * 0 + 16777216 * 0 = l.length
    rw [UInt8.toNat_ofNat']
    omega
  unfold names dirEntries
  rw [if_neg (show (ofNames l).theBootBlock ≠ 0 from (by decide : (4096 : Nat) ≠ 0)), hcount, List.map_map]
  refine List.ext_getElem (by simp) fun i hi hi' => ?_
  obtain ⟨ha, ha0⟩ := h l[i] (List.getElem_mem hi')
  have hbytes : ((ofNames l).direntry i).filename = bytesAt (ofList l[i]) 32 := by
    show bytesAt (fun j => (ofNames l).mem (u32 (4096 + 64 + 64 * i + j))) 32 = bytesAt (ofList l[i]) 32
    refine bytesAt_congr fun j hj => ?_
    have haddr : u32 (4096 + 64 + 64 * i + j) = 4160 + 64 * i + j := by
      unfold u32
      omega
    rw [haddr, ofNames]
    dsimp only
    rw [if_neg (by omega), if_pos (by omega), show (4160 + 64 * i + j - 4160) / 64 = i by omega,
      show (4160 + 64 * i + j - 4160) % 64 = j by omega, List.getD_eq_getElem _ _ hi']
  rw [List.getElem_map, List.getElem_range, Function.comp_apply, effectiveName, hbytes, cstr_bytesAt_ofList,
    cstr_eq_self ha0, List.take_of_length_le ha]

/-! ## The first differences -/

/-- The rows of `ls` that hold names: at most 33, each a name that starts with the word. -/
structure Rows (w : List UInt8) (ls : List (List UInt8)) : Prop where
  length_le : ls.length ≤ 33
  word : w ≠ []
  row : ∀ a ∈ ls, a.length ≤ 32 ∧ 0 ∉ a ∧ w <+: a

variable {ls : List (List UInt8)} {stale : Nat → UInt8}

theorem lsByte_row {i j : Nat} (hi : i < 33) (hj : j < 33) :
    lsByte ls stale i j = ofList (ls.getD i []) j := by
  unfold lsByte
  dsimp only
  rw [if_pos (by omega), show (33 * i + j) / 33 = i by omega, show (33 * i + j) % 33 = j by omega]

theorem lsByte_empty {i : Nat} (hi : i < 33) (hlen : ls.length ≤ i) : lsByte ls stale i 0 = 0 := by
  rw [lsByte_row hi (by decide), List.getD_eq_default _ _ hlen]
  rfl

theorem Rows.byte_zero (h : Rows w ls) {i : Nat} (hi : i < ls.length) : lsByte ls stale i 0 ≠ 0 := by
  obtain ⟨-, h0, hpre⟩ := h.row ls[i] (List.getElem_mem hi)
  rw [lsByte_row (lt_of_lt_of_le hi h.length_le) (by decide), List.getD_eq_getElem _ _ hi]
  obtain ⟨c, w', rfl⟩ := List.exists_cons_of_ne_nil h.word
  obtain ⟨rest, hrest⟩ := hpre
  rw [← hrest] at h0 ⊢
  exact fun hc => h0 (List.mem_cons.mpr (Or.inl hc.symm))

theorem Rows.strnlen_eq (h : Rows w ls) {i : Nat} (hi : i < ls.length) :
    strnlen (lsByte ls stale i) 33 = ls[i].length := by
  obtain ⟨hlen, h0, -⟩ := h.row ls[i] (List.getElem_mem hi)
  have hrow : ∀ j, j < 33 → lsByte ls stale i j = ofList ls[i] j := by
    intro j hj
    rw [lsByte_row (lt_of_lt_of_le hi h.length_le) hj, List.getD_eq_getElem _ _ hi]
  rw [strnlen_congr hrow, Bytes.strnlen_eq, cstr_bytesAt_ofList, cstr_eq_self h0,
    List.take_of_length_le (hlen.trans (by decide))]

/-- The first differences of two rows. Two equal rows of 32 bytes are compared beyond them. -/
theorem Rows.pair_iff (h : Rows w ls) {i : Nat} (hi : i + 1 < ls.length) (v : Int)
    (hsame : ls[i] = ls[i + 1] → ls[i].length ≤ 31 ∨ v ≤ 32) :
    (∀ j, j < Nat.min ls[i].length ls[i + 1].length + 1 →
        lsByte ls stale i (j + 1) ≠ lsByte ls stale (i + 1) (j + 1) → v ≤ j) ↔
      (ls[i] ≠ ls[i + 1] → v ≤ (commonPrefix ls[i] ls[i + 1]).length - 1) := by
  have hlen := h.length_le
  obtain ⟨ha, ha0, hwa⟩ := h.row ls[i] (List.getElem_mem (Nat.lt_of_succ_lt hi))
  obtain ⟨hb, hb0, hwb⟩ := h.row ls[i + 1] (List.getElem_mem hi)
  have hbyte : ∀ j, j < 33 → (lsByte ls stale i j = lsByte ls stale (i + 1) j ↔ ls[i][j]? = ls[i + 1][j]?) := by
    intro j hj
    rw [lsByte_row (by omega) hj, lsByte_row (by omega) hj, List.getD_eq_getElem _ _ (Nat.lt_of_succ_lt hi),
      List.getD_eq_getElem _ _ hi]
    exact ofList_eq_iff ha0 hb0 j
  have hwlen : 0 < (commonPrefix ls[i] ls[i + 1]).length :=
    (List.length_pos_of_ne_nil h.word).trans_le (prefix_commonPrefix_iff.mpr ⟨hwa, hwb⟩).length_le
  have hla := (commonPrefix_prefix_left ls[i] ls[i + 1]).length_le
  have hlb := (commonPrefix_prefix_right ls[i] ls[i + 1]).length_le
  generalize hn : (commonPrefix ls[i] ls[i + 1]).length = n at hwlen hla hlb
  constructor
  · intro hall hne
    have hdiff := getElem?_commonPrefix_ne hne
    rw [hn] at hdiff
    have hmin : n ≤ Nat.min ls[i].length ls[i + 1].length := Nat.le_min.mpr ⟨hla, hlb⟩
    have hv := hall (n - 1) (by omega) (by
      rw [Nat.sub_add_cancel hwlen]
      exact mt (hbyte n (by omega)).mp hdiff)
    omega
  · intro hv j hj hdiff
    by_cases hsameRow : ls[i] = ls[i + 1]
    · -- equal rows show no difference in their 33 bytes
      by_contra hlt
      have hj' : j + 1 < 33 := by
        have := hsame hsameRow
        have hle : Nat.min ls[i].length ls[i + 1].length ≤ ls[i].length := Nat.min_le_left _ _
        omega
      exact hdiff ((hbyte (j + 1) hj').mpr (by rw [hsameRow]))
    · have hv' := hv hsameRow
      by_contra hlt
      have heq : ls[i][j + 1]? = ls[i + 1][j + 1]? := getElem?_commonPrefix_eq (by rw [hn]; omega)
      exact hdiff ((hbyte (j + 1) (by omega)).mpr heq)

/-- One round of the loop over neighbours. -/
theorem Rows.minDiffRound_spec (h : Rows w ls) {i : Nat} (hi : i < 32 ∨ i = 32 ∧ ls.length ≤ 32)
    (hsame : ∀ hi : i + 1 < ls.length, ls[i] = ls[i + 1] → ls[i].length ≤ 31) (min : Int) :
    ∃ min', minDiffRound ls stale (i + 1) min = some min' ∧ ∀ v, v ≤ min' ↔
      v ≤ min ∧ ∀ hi : i + 1 < ls.length, ls[i] ≠ ls[i + 1] → v ≤ (commonPrefix ls[i] ls[i + 1]).length - 1 := by
  unfold minDiffRound
  rw [Nat.add_sub_cancel]
  by_cases hrow : i + 1 < ls.length
  · have hlt := h.length_le
    rw [if_neg (not_or.mpr ⟨h.byte_zero (Nat.lt_of_succ_lt hrow), h.byte_zero hrow⟩), if_pos (by omega)]
    refine ⟨_, rfl, fun v => ?_⟩
    rw [le_foldl_min_iff, h.strnlen_eq (Nat.lt_of_succ_lt hrow), h.strnlen_eq hrow,
      h.pair_iff hrow v fun he => Or.inl (hsame hrow he)]
    exact and_congr_right fun _ => ⟨fun hv _ => hv, fun hv => hv hrow⟩
  · have hzero : lsByte ls stale i 0 = 0 ∨ lsByte ls stale (i + 1) 0 = 0 := by
      rcases hi with hlt | ⟨rfl, hlen⟩
      · exact Or.inr (lsByte_empty (by omega) (by omega))
      · exact Or.inl (lsByte_empty (by decide) hlen)
    rw [if_pos hzero]
    exact ⟨min, rfl, fun v => ⟨fun hv => ⟨hv, fun hi => absurd hi hrow⟩, And.left⟩⟩

/-- The minimum that the loop over `n` entries computes. -/
def minDiff (ls : List (List UInt8)) (stale : Nat → UInt8) (n : Nat) : Option Int :=
  (List.range' 1 (n - 1)).foldlM (fun min index => minDiffRound ls stale index min) 10000000

/-- The neighbours are compared at the places where they differ first, unless they are equal. -/
theorem Rows.minDiff_spec (h : Rows w ls) {n : Nat} (hn : n ≤ 33 ∨ n = 34 ∧ ls.length ≤ 32)
    (hsame : ∀ i (hi : i + 1 < ls.length), ls[i] = ls[i + 1] → ls[i].length ≤ 31) (hlen : ls.length ≤ n) :
    ∃ min, minDiff ls stale n = some min ∧ ∀ v, v ≤ min ↔ v ≤ 10000000 ∧
      ∀ i (hi : i + 1 < ls.length), ls[i] ≠ ls[i + 1] → v ≤ (commonPrefix ls[i] ls[i + 1]).length - 1 := by
  have hrun : ∀ k, k ≤ n - 1 → ∃ min, (List.range' 1 k).foldlM (fun min index => minDiffRound ls stale index min)
      (10000000 : Int) = some min ∧ ∀ v, v ≤ min ↔ v ≤ 10000000 ∧ ∀ i (hi : i + 1 < ls.length), i < k →
        ls[i] ≠ ls[i + 1] → v ≤ (commonPrefix ls[i] ls[i + 1]).length - 1 := by
    intro k
    induction k with
    | zero => exact fun _ => ⟨_, rfl, fun v => ⟨fun hv => ⟨hv, fun i _ hi => absurd hi (Nat.not_lt_zero i)⟩, And.left⟩⟩
    | succ k ih =>
      intro hk
      obtain ⟨min, hmin, hiff⟩ := ih (by omega)
      have hround : ∃ min', minDiffRound ls stale (k + 1) min = some min' ∧ _ :=
        h.minDiffRound_spec (by omega) (hsame k) min
      obtain ⟨min', hmin', hiff'⟩ := hround
      refine ⟨min', ?_, fun v => ?_⟩
      · rw [List.range'_1_concat, List.foldlM_append, hmin, Nat.add_comm 1 k]
        simp only [bind, Option.bind_some, List.foldlM_cons, List.foldlM_nil, hmin', pure]
      · rw [hiff', hiff, and_assoc]
        refine and_congr_right fun _ => ⟨?_, fun hall => ⟨fun i hi hik => hall i hi (Nat.lt_succ_of_lt hik),
          fun hi => hall k hi (Nat.lt_succ_self k)⟩⟩
        rintro ⟨hall, hlast⟩ i hi hik
        rcases Nat.lt_or_eq_of_le (Nat.le_of_lt_succ hik) with hlt | rfl
        · exact hall i hi hlt
        · exact hlast hi
  obtain ⟨min, hmin, hiff⟩ := hrun (n - 1) (le_refl _)
  refine ⟨min, hmin, fun v => (hiff v).trans ?_⟩
  exact and_congr_right fun _ => ⟨fun hall i hi => hall i hi (by omega), fun hall i hi _ => hall i hi⟩

/-- Unless the names are all the same, the minimum is the place of the last common character. -/
theorem Rows.minDiff_lcp (h : Rows w ls) {n : Nat} (hn : n ≤ 33 ∨ n = 34 ∧ ls.length ≤ 32)
    (hsame : ∀ i (hi : i + 1 < ls.length), ls[i] = ls[i + 1] → ls[i].length ≤ 31) (hlen : ls.length ≤ n)
    (hdiff : ∃ a ∈ ls, ∃ b ∈ ls, a ≠ b) : minDiff ls stale n = some (((lcp ls).length : Int) - 1) := by
  obtain ⟨min, hmin, hiff⟩ : ∃ min, minDiff ls stale n = some min ∧ _ := h.minDiff_spec hn hsame hlen
  obtain ⟨a, ha, -⟩ := id hdiff
  have hshort := (h.row a ha).1
  have hle := (lcp_prefix_of_mem ha).length_le
  rw [hmin]
  congr 1
  apply le_antisymm
  · obtain ⟨-, hall⟩ := (hiff min).mp (le_refl min)
    have hlong : (min + 1).toNat ≤ (lcp ls).length := by
      refine (le_length_lcp_iff hdiff).mpr fun i hi hne => ?_
      have := hall i hi hne
      omega
    omega
  · refine (hiff _).mpr ⟨by omega, fun i hi hne => ?_⟩
    have := (le_length_lcp_iff hdiff).mp (le_refl _) i hi hne
    omega

/-- If they are, it keeps its first value. -/
theorem Rows.minDiff_same (h : Rows w ls) {n : Nat} (hn : n ≤ 33 ∨ n = 34 ∧ ls.length ≤ 32)
    (hsame : ∀ i (hi : i + 1 < ls.length), ls[i] = ls[i + 1] → ls[i].length ≤ 31) (hlen : ls.length ≤ n)
    (hall : ∀ a ∈ ls, ∀ b ∈ ls, a = b) : minDiff ls stale n = some 10000000 := by
  obtain ⟨min, hmin, hiff⟩ : ∃ min, minDiff ls stale n = some min ∧ _ := h.minDiff_spec hn hsame hlen
  rw [hmin]
  congr 1
  apply le_antisymm
  · exact ((hiff min).mp (le_refl min)).1
  · refine (hiff _).mpr ⟨le_refl _, fun i hi hne => absurd ?_ hne⟩
    exact hall _ (List.getElem_mem _) _ (List.getElem_mem _)

/-! ## The search -/

theorem overlay_concat (best : Nat → UInt8) (l : List (List UInt8)) (a : List UInt8) (i : Nat) :
    overlay best (l ++ [a]) i = if i < a.length then ofList a i else overlay best l i := by
  unfold overlay
  rw [List.foldl_append]
  rfl

/-- What all names start with is not overwritten by other bytes. -/
theorem cstr_overlay {l : List (List UInt8)} {p : List UInt8} (hl : l ≠ []) (hp : ∀ a ∈ l, p <+: a) (h0 : 0 ∉ p)
    (best : Nat → UInt8) : cstr (bytesAt (overlay best l) p.length) = p := by
  obtain ⟨l, a, rfl⟩ := (List.eq_nil_or_concat l).resolve_left hl
  rw [List.concat_eq_append] at hp ⊢
  have hpa : p <+: a := hp a (List.mem_append_right _ List.mem_cons_self)
  have hbytes : bytesAt (overlay best (l ++ [a])) p.length = bytesAt (ofList p) p.length := by
    refine bytesAt_congr fun i hi => ?_
    have hia := lt_of_lt_of_le hi hpa.length_le
    rw [overlay_concat, if_pos hia, ofList, ofList, List.getD_eq_getElem _ _ hia, List.getD_eq_getElem _ _ hi]
    exact (hpa.getElem hi).symm
  rw [hbytes, cstr_bytesAt_ofList, cstr_eq_self h0, List.take_length]

theorem cstr_overlay_singleton {a : List UInt8} (hlen : a.length ≤ 32) (h0 : 0 ∉ a) :
    cstr (bytesAt (overlay (fun _ => 0) [a]) 33) = a := by
  have hbytes : overlay (fun _ => 0) [a] = ofList a := by
    funext i
    rw [← List.nil_append [a], overlay_concat]
    split_ifs with hi
    · rfl
    · exact (List.getD_eq_default _ _ (Nat.le_of_not_lt hi)).symm
  rw [hbytes, cstr_bytesAt_ofList, cstr_eq_self h0, List.take_of_length_le (hlen.trans (by decide))]

theorem Term.room_iff (t : Term) :
    ((if lastWordStart t.bufView t.strlenBuf = -1 then t.strlenBuf else t.strlenBuf - t.wordStart + 1) > 33 ∨
      t.lastWord.length > 32) ↔ 32 < t.lastWord.length := by
  have hlen := t.length_lastWord
  have hstart : lastWordStart t.bufView t.strlenBuf = -1 → t.wordStart = 0 := fun h => by rw [wordStart, h]; rfl
  split_ifs with h
  · have := hstart h
    omega
  · omega

/-- The search over the directory, from empty arrays. -/
theorem collect_lastWord (t : Term) (fs : FileSystem) :
    collect t.lastWord (dirEntries fs) { best := fun _ => 0, ls := [] } =
      if 33 < (candidates t.lastWord fs.names).length then none
      else if t.lastWord ∈ fs.names then some none
      else some (some ⟨overlay (fun _ => 0) (candidates t.lastWord fs.names), candidates t.lastWord fs.names⟩) := by
  have hnone := collect_eq t.zero_notMem_lastWord (dirEntries fs) (m := { best := fun _ => 0, ls := [] })
    (Nat.zero_le 33)
  rwa [List.length_nil, Nat.zero_add, List.nil_append] at hnone

/-- The search part of `autocomplete` on a line that is not empty. -/
theorem completeWord_eq (h : t.bufView 0 ≠ 0) (fs : FileSystem) (stale : Nat → UInt8) :
    completeWord fs t stale =
      if 32 < t.lastWord.length ∨ 33 < (candidates t.lastWord fs.names).length then none
      else if t.lastWord ∈ fs.names ∨ fs.matching t.lastWord = [] then some .nothing
      else if (fs.matching t.lastWord).length = 1 then
        some (.replace t.wordStart (cstr (bytesAt (overlay (fun _ => 0) (fs.matching t.lastWord)) 33)) false)
      else (minDiff (fs.matching t.lastWord) stale fs.names.length).bind fun min =>
        if (t.lastWord.length : Int) - 1 < min then
          if min + 1 ≤ 32 then
            some (.replace t.wordStart
              (cstr (bytesAt (overlay (fun _ => 0) (fs.matching t.lastWord)) (min + 1).toNat)) true)
          else none
        else some (.ambiguous (fs.matching t.lastWord)) := by
  have hnames : (dirEntries fs).length = fs.names.length := (List.length_map _).symm
  unfold completeWord
  rw [if_neg h]
  show (if (if lastWordStart t.bufView t.strlenBuf = -1 then t.strlenBuf else t.strlenBuf - t.wordStart + 1) > 33 ∨
    t.lastWord.length > 32 then none else (collect t.lastWord (dirEntries fs) _).bind _) = _
  by_cases hlong : 32 < t.lastWord.length
  · rw [if_pos (t.room_iff.mpr hlong), if_pos (Or.inl hlong)]
  · rw [if_neg (mt t.room_iff.mp hlong), collect_lastWord]
    by_cases hfull : 33 < (candidates t.lastWord fs.names).length
    · rw [if_pos hfull, if_pos (Or.inr hfull), Option.bind_none]
    · rw [if_neg hfull, if_neg (not_or.mpr ⟨hlong, hfull⟩)]
      by_cases hmem : t.lastWord ∈ fs.names
      · rw [if_pos hmem, if_pos (Or.inl hmem), Option.bind_some]
      · rw [if_neg hmem, candidates_eq_matching hmem, Option.bind_some]
        dsimp only
        by_cases hnil : fs.matching t.lastWord = []
        · rw [if_pos hnil, if_pos (Or.inr hnil)]
        · rw [if_neg hnil, if_neg (not_or.mpr ⟨hmem, hnil⟩), hnames]
          rfl

end BasicOs
