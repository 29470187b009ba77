import BasicOs.Printf
import BasicOs.TabKey

/-!
# The list of candidates

A repeated Tab prints the names it found, the first 30 of them: each is given to `printf` as the format, followed by a
newline.

* `PrintsMatch` : a name comes out as it stands, followed by a newline;
* `listing_verbatim_iff` : this is so exactly for the names among the first 30 that have no `%`;
* `printfChars_eq_out` : the model of `autocomplete` prints what the scanner prints.
-/

namespace BasicOs
open Bytes Run Printf

variable {t : Term} {fs : FileSystem} {w name : List UInt8} {ls : List (List UInt8)} {stale : Nat → UInt8}
  {env row newline : Env} {s : State}

/-- The rows of `ls` that the loop gives to `printf`. -/
def listedRows (ls : List (List UInt8)) (stale : Nat → UInt8) : List Nat :=
  (List.range 30).filter fun i => lsByte ls stale i 0 ≠ 0

/-- Row `i` is listed, and the two calls of `printf`, with the row and with the newline, print the name and the
newline; the first takes no argument, and stops at the NUL of the name. -/
def PrintsMatch (ls : List (List UInt8)) (stale : Nat → UInt8) (i : Nat) (row newline : Env) (name : List UInt8) :
    Prop :=
  i ∈ listedRows ls stale ∧ ∃ s n, Ends row s ∧ Ends newline n ∧ s.out ++ n.out = name ++ [chNewline] ∧
    s.args = 0 ∧ s.buf = name.length

theorem Printf.Ends.out_eq (h : Ends env s) (hname : Verbatim env name) : s.out = name := by
  obtain ⟨s', h', hout, -⟩ := hname
  rw [h.1.unique h'.1 h.2 h'.2, hout]

/-- The newline has no `%`. -/
theorem verbatim_newline (h : newline.format = ofList [chNewline]) : Verbatim newline [chNewline] := by
  refine (printf_verbatim_iff (fun i _ => ?_) (by decide)).mpr (by decide)
  rw [h]

theorem Rows.verbatim_iff (h : Rows w ls) {i : Nat} (hi : i < ls.length) (hrow : row.format = lsByte ls stale i) :
    Verbatim row ls[i] ↔ 37 ∉ ls[i] := by
  obtain ⟨hlen, h0, -⟩ := h.row ls[i] (List.getElem_mem hi)
  have hlt := h.length_le
  refine printf_verbatim_iff (fun j hj => ?_) h0
  rw [hrow, lsByte_row (by omega) (by omega), List.getD_eq_getElem _ _ hi]

theorem Rows.mem_listedRows (h : Rows w ls) {i : Nat} (hi : i < ls.length) : i ∈ listedRows ls stale ↔ i < 30 := by
  unfold listedRows
  rw [List.mem_filter, List.mem_range]
  exact and_iff_left (decide_eq_true (h.byte_zero hi))

theorem Rows.printsMatch_iff (h : Rows w ls) {i : Nat} (hi : i < ls.length) (hrow : row.format = lsByte ls stale i)
    (hnewline : newline.format = ofList [chNewline]) :
    PrintsMatch ls stale i row newline ls[i] ↔ i < 30 ∧ 37 ∉ ls[i] := by
  unfold PrintsMatch
  rw [h.mem_listedRows hi, ← h.verbatim_iff hi hrow]
  refine and_congr_right fun _ => ⟨?_, ?_⟩
  · rintro ⟨s, n, hs, hn, hout, hargs, hbuf⟩
    rw [hn.out_eq (verbatim_newline hnewline)] at hout
    exact ⟨s, hs, List.append_cancel_right hout, hargs, hbuf⟩
  · rintro ⟨s, hs, hout, hargs, hbuf⟩
    obtain ⟨n, hn, hnout, -⟩ := verbatim_newline hnewline
    exact ⟨s, n, hs, hn, by rw [hout, hnout], hargs, hbuf⟩

/-- What `autocomplete` prints for a name is what the scanner prints, if that is what `fmt` stands for. -/
theorem printfChars_eq_out (hfmt : ∀ i ≤ name.length, env.format i = ofList name i) (h0 : 0 ∉ name) (hs : Ends env s)
    {fmt : List UInt8 → List UInt8} (hout : fmt name = s.out) : printfChars fmt name = s.out := by
  unfold printfChars
  split_ifs with hpercent
  · exact hout
  · exact (hs.out_eq ((printf_verbatim_iff hfmt h0).mpr hpercent)).symm

/-- What is listed are the names that start with the word, at least two. -/
theorem completeWord_ambiguous (h : completeWord fs t stale = some (.ambiguous ls)) :
    ls = fs.matching t.lastWord ∧ Rows t.lastWord ls ∧ t.lastWord ∉ fs.names ∧ 2 ≤ ls.length := by
  have h0 : t.bufView 0 ≠ 0 := by
    intro h0
    unfold completeWord at h
    rw [if_pos h0] at h
    cases h
  rw [completeWord_eq h0] at h
  split_ifs at h with hlong hnone hone
  · cases h
  · cases h
  obtain ⟨min, -, hmin⟩ := Option.bind_eq_some_iff.mp h
  split_ifs at hmin
  · cases hmin
  cases hmin
  obtain ⟨hmem, hnil⟩ := not_or.mp hnone
  have hpos := List.length_pos_of_ne_nil hnil
  have hfew := (not_or.mp hlong).2
  rw [candidates_eq_matching hmem] at hfew
  exact ⟨rfl, FileSystem.rows_matching (Term.lastWord_ne_nil h0) (Nat.le_of_not_lt hfew), hmem, by omega⟩

/-- A repeated Tab lists a name verbatim exactly if it is one of the first 30 and has no `%`. -/
theorem listing_verbatim_iff (h : completeWord fs t stale = some (.ambiguous ls)) {i : Nat} (hi : i < ls.length)
    (hrow : row.format = lsByte ls stale i) (hnewline : newline.format = ofList [chNewline]) :
    ls = fs.matching t.lastWord ∧ (PrintsMatch ls stale i row newline ls[i] ↔ i < 30 ∧ 37 ∉ ls[i]) :=
  ⟨(completeWord_ambiguous h).1, (completeWord_ambiguous h).2.1.printsMatch_iff hi hrow hnewline⟩

/-- A line of one word that is listed. -/
theorem lineIn_ambiguous {names : List (List UInt8)} (hnames : ∀ a ∈ names, a.length ≤ 32 ∧ 0 ∉ a)
    (hlen : names.length ≤ 33) (hd : names.Nodup) (hw0 : 0 ∉ w) (hspace : chSpace ∉ w) (hne : w ≠ [])
    (hshort : w.length ≤ 32) (hmem : w ∉ names) (hmatch : names.filter (w.isPrefixOf ·) ≠ [])
    (hlcp : CommonPrefix.lcp (names.filter (w.isPrefixOf ·)) = w) (stale : Nat → UInt8) :
    completeWord (lineIn names w).fs (lineIn names w).term stale =
      some (.ambiguous (names.filter (w.isPrefixOf ·))) := by
  have hfs : (lineIn names w).fs.names = names := FileSystem.names_ofNames (by omega) hnames
  have hmatching : (lineIn names w).fs.matching w = names.filter (w.isPrefixOf ·) := by
    unfold FileSystem.matching
    rw [hfs]
  have hline : Contains (lineIn names w).term.line ([] ++ w) := ⟨⟨by simp; omega, fun _ _ => rfl⟩, rfl, hw0⟩
  obtain ⟨hfirst, -, hword⟩ := hline.lastWord (by simp; omega) (by simp) hspace hne
  have hcompleted : (lineIn names w).fs.completed w = w := by
    unfold FileSystem.completed
    rw [hmatching, hlcp, ite_self]
  rw [completeWord_of_distinct hfirst (by rw [hfs]; exact hlen) (by rw [hfs]; exact hd) (hword.symm ▸ hshort), hword,
    if_neg (by rw [hfs, hmatching]; exact not_or.mpr ⟨hmem, hmatch⟩), if_pos hcompleted, hmatching]

/-- `ab` and `ac` for `a`. -/
theorem listing_verbatim_ab :
    PrintsMatch [[97, 98], [97, 99]] (fun _ => 0) 0
      ⟨lsByte [[97, 98], [97, 99]] (fun _ => 0) 0, fun _ => 0, fun _ => [], fun _ => 0⟩
      ⟨ofList [chNewline], fun _ => 0, fun _ => [], fun _ => 0⟩ [97, 98] := by
  have h : completeWord (lineIn [[97, 98], [97, 99]] [97]).fs (lineIn [[97, 98], [97, 99]] [97]).term (fun _ => 0) =
      some (.ambiguous [[97, 98], [97, 99]]) :=
    lineIn_ambiguous (by decide) (by decide) (by decide) (by decide) (by decide) (by decide) (by decide) (by decide)
      (by decide) (by decide) _
  exact (listing_verbatim_iff h (i := 0) (by decide) rfl rfl).2.mpr (by decide)

/-- `a%s` and `ab` for `a`: the `%s` prints the string that a word of the stack points to. -/
theorem listing_takes_argument :
    completeWord (lineIn [[97, 37, 115], [97, 98]] [97]).fs (lineIn [[97, 37, 115], [97, 98]] [97]).term (fun _ => 0) =
      some (.ambiguous [[97, 37, 115], [97, 98]]) ∧
    (∃ s, Ends ⟨lsByte [[97, 37, 115], [97, 98]] (fun _ => 0) 0, fun _ => 0, fun _ => [120], fun _ => 0⟩ s ∧
      s.args = 1 ∧ s.out = [97, 120]) ∧
    ¬ PrintsMatch [[97, 37, 115], [97, 98]] (fun _ => 0) 0 ⟨lsByte [[97, 37, 115], [97, 98]] (fun _ => 0) 0, fun _ => 0,
      fun _ => [120], fun _ => 0⟩ ⟨ofList [chNewline], fun _ => 0, fun _ => [], fun _ => 0⟩ [97, 37, 115] := by
  have h : completeWord (lineIn [[97, 37, 115], [97, 98]] [97]).fs (lineIn [[97, 37, 115], [97, 98]] [97]).term
      (fun _ => 0) = some (.ambiguous [[97, 37, 115], [97, 98]]) :=
    lineIn_ambiguous (by decide) (by decide) (by decide) (by decide) (by decide) (by decide) (by decide) (by decide)
      (by decide) (by decide) _
  refine ⟨h, ⟨⟨.text, 3, 1, [97, 120]⟩, ⟨⟨3, rfl⟩, printfStep_nul_text rfl (by decide)⟩, rfl, rfl⟩, fun hprints => ?_⟩
  have hpercent := (((completeWord_ambiguous h).2.1.printsMatch_iff (by decide) rfl rfl).mp hprints).2
  exact absurd hpercent (by decide)

end BasicOs
