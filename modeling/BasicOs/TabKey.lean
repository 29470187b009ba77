import BasicOs.Completion

/-!
# Tab

What Tab does to a line whose last word has at most 32 characters, in a directory of at most 33 different names: the
word becomes the longest common prefix of the names that start with it, unless there is none or the word is a name.

* `completed` : the word in place of the last one;
* `completeWord_of_distinct` : the search finds it;
* `autocomplete_spec` : the line after Tab;
* `autocomplete_completes` : and after a second one, which changes nothing if the word put in has no space.
-/

namespace BasicOs
open Bytes LineBuffer CommonPrefix

/-! ## The word put in -/

/-- What Tab makes of the last word `w`. -/
def FileSystem.completed (fs : FileSystem) (w : List UInt8) : List UInt8 :=
  if w ∈ fs.names ∨ fs.matching w = [] then w else lcp (fs.matching w)

variable {t : Term} {fs : FileSystem} {w before : List UInt8} {ls : List (List UInt8)} {stale : Nat → UInt8}

theorem FileSystem.completed_cases (fs : FileSystem) (w : List UInt8) :
    (fs.completed w = w ∧ (w ∈ fs.names ∨ fs.matching w = [])) ∨
      (fs.completed w = lcp (fs.matching w) ∧ w ∉ fs.names ∧ fs.matching w ≠ []) := by
  unfold completed
  split_ifs with h
  · exact Or.inl ⟨rfl, h⟩
  · exact Or.inr ⟨rfl, not_or.mp h⟩

theorem FileSystem.prefix_lcp (fs : FileSystem) (w : List UInt8) (hne : fs.matching w ≠ []) :
    w <+: lcp (fs.matching w) := by
  rw [prefix_lcp_iff hne]
  exact fun a ha => (FileSystem.mem_matching.mp ha).2

theorem FileSystem.prefix_completed (fs : FileSystem) (w : List UInt8) : w <+: fs.completed w := by
  rcases fs.completed_cases w with ⟨he, -⟩ | ⟨he, -, hne⟩
  · rw [he]
  · rw [he]
    exact fs.prefix_lcp w hne

/-- The word is a part of a name. -/
theorem FileSystem.completed_spec (fs : FileSystem) (hlen : w.length ≤ 32) (h0 : 0 ∉ w) :
    (fs.completed w).length ≤ 32 ∧ 0 ∉ fs.completed w := by
  rcases fs.completed_cases w with ⟨he, -⟩ | ⟨he, -, hne⟩
  · rw [he]
    exact ⟨hlen, h0⟩
  · obtain ⟨a, ha⟩ := List.exists_mem_of_ne_nil _ hne
    have hpre := lcp_prefix_of_mem ha
    obtain ⟨hlen, h0⟩ := FileSystem.name_spec (FileSystem.mem_matching.mp ha).1
    rw [he]
    exact ⟨hpre.length_le.trans hlen, fun h => h0 (hpre.subset h)⟩

/-- There is nothing to add to it. -/
theorem FileSystem.completed_completed (fs : FileSystem) (w : List UInt8) :
    fs.completed (fs.completed w) = fs.completed w := by
  rcases fs.completed_cases w with ⟨he, -⟩ | ⟨he, -, hne⟩
  · rw [he, he]
  · have hpre := fs.prefix_completed w
    rw [he] at hpre ⊢
    rcases fs.completed_cases (lcp (fs.matching w)) with ⟨he', -⟩ | ⟨he', -, -⟩
    · exact he'
    · have hsame : fs.matching (lcp (fs.matching w)) = fs.matching w := by
        apply List.filter_congr
        intro a ha
        rw [Bool.eq_iff_iff, List.isPrefixOf_iff_prefix, List.isPrefixOf_iff_prefix]
        exact ⟨hpre.trans, fun hwa => lcp_prefix_of_mem (FileSystem.mem_matching.mpr ⟨ha, hwa⟩)⟩
      rw [he', hsame]

/-! ## The search -/

theorem FileSystem.rows_matching (hw : w ≠ []) (hlen : (fs.matching w).length ≤ 33) : Rows w (fs.matching w) where
  length_le := hlen
  word := hw
  row a ha := by
    obtain ⟨hmem, hpre⟩ := FileSystem.mem_matching.mp ha
    exact ⟨(FileSystem.name_spec hmem).1, (FileSystem.name_spec hmem).2, hpre⟩

/-- The search, when it finds several names that are not all the same. -/
theorem completeWord_of_several (h : t.bufView 0 ≠ 0) (hlen : t.lastWord.length ≤ 32)
    (hfew : (fs.matching t.lastWord).length ≤ 33) (hmem : t.lastWord ∉ fs.names)
    (hn : fs.names.length ≤ 33 ∨ fs.names.length = 34 ∧ (fs.matching t.lastWord).length ≤ 32)
    (hsame : ∀ i (hi : i + 1 < (fs.matching t.lastWord).length),
      (fs.matching t.lastWord)[i] = (fs.matching t.lastWord)[i + 1] → (fs.matching t.lastWord)[i].length ≤ 31)
    (hdiff : ∃ a ∈ fs.matching t.lastWord, ∃ b ∈ fs.matching t.lastWord, a ≠ b) (stale : Nat → UInt8) :
    completeWord fs t stale = some
      (if lcp (fs.matching t.lastWord) = t.lastWord then .ambiguous (fs.matching t.lastWord)
        else .replace t.wordStart (lcp (fs.matching t.lastWord)) true) := by
  obtain ⟨a, ha, b, hb, hab⟩ := id hdiff
  have hnil : fs.matching t.lastWord ≠ [] := List.ne_nil_of_mem ha
  have hone : (fs.matching t.lastWord).length ≠ 1 := by
    intro hone
    obtain ⟨c, hc⟩ := List.length_eq_one_iff.mp hone
    rw [hc, List.mem_singleton] at ha hb
    exact hab (ha.trans hb.symm)
  have hrows : Rows t.lastWord (fs.matching t.lastWord) := FileSystem.rows_matching (Term.lastWord_ne_nil h) hfew
  have hpre := fs.prefix_lcp t.lastWord hnil
  obtain ⟨ha32, ha0, -⟩ := hrows.row a ha
  have hle := (lcp_prefix_of_mem ha).length_le
  have h0 : 0 ∉ lcp (fs.matching t.lastWord) := fun h0 => ha0 ((lcp_prefix_of_mem ha).subset h0)
  rw [completeWord_eq h, candidates_eq_matching hmem, if_neg (by omega), if_neg (not_or.mpr ⟨hmem, hnil⟩), if_neg hone,
    hrows.minDiff_lcp hn hsame (List.length_filter_le _ _) hdiff, Option.bind_some]
  by_cases hequal : lcp (fs.matching t.lastWord) = t.lastWord
  · rw [if_pos hequal, if_neg (by rw [hequal]; omega)]
  · have hlt : t.lastWord.length < (lcp (fs.matching t.lastWord)).length :=
      lt_of_le_of_ne hpre.length_le fun hle => hequal (hpre.eq_of_length hle).symm
    rw [if_neg hequal, if_pos (by omega), if_pos (by omega),
      show ((lcp (fs.matching t.lastWord)).length - 1 + 1 : Int).toNat = (lcp (fs.matching t.lastWord)).length by omega,
      cstr_overlay hnil (fun a ha => lcp_prefix_of_mem ha) h0]

/-- The search in a directory of at most 33 different names. -/
theorem completeWord_of_distinct (h : t.bufView 0 ≠ 0) (hn : fs.names.length ≤ 33) (hd : fs.names.Nodup)
    (hlen : t.lastWord.length ≤ 32) (stale : Nat → UInt8) :
    completeWord fs t stale = some
      (if t.lastWord ∈ fs.names ∨ fs.matching t.lastWord = [] then .nothing
        else if fs.completed t.lastWord = t.lastWord then .ambiguous (fs.matching t.lastWord)
        else .replace t.wordStart (fs.completed t.lastWord) (decide ((fs.matching t.lastWord).length ≠ 1))) := by
  have hshort : (fs.matching t.lastWord).length ≤ fs.names.length := List.length_filter_le _ _
  have hfew : (candidates t.lastWord fs.names).length ≤ fs.names.length :=
    (List.length_filter_le _ _).trans (List.takeWhile_sublist _).length_le
  by_cases hnone : t.lastWord ∈ fs.names ∨ fs.matching t.lastWord = []
  · rw [completeWord_eq h, if_neg (by omega), if_pos hnone, if_pos hnone]
  · obtain ⟨hmem, hnil⟩ := not_or.mp hnone
    rw [if_neg hnone, show fs.completed t.lastWord = lcp (fs.matching t.lastWord) from if_neg hnone]
    by_cases hone : (fs.matching t.lastWord).length = 1
    · obtain ⟨a, ha⟩ := List.length_eq_one_iff.mp hone
      have ham : a ∈ fs.matching t.lastWord := by rw [ha]; exact List.mem_cons_self
      obtain ⟨han, -⟩ := FileSystem.mem_matching.mp ham
      have haw : a ≠ t.lastWord := fun haw => hmem (haw ▸ han)
      rw [completeWord_eq h, if_neg (by omega), if_neg hnone, if_pos hone, ha,
        cstr_overlay_singleton (FileSystem.name_spec han).1 (FileSystem.name_spec han).2, lcp_singleton, if_neg haw]
      rfl
    · have h2 : 1 < (fs.matching t.lastWord).length := by
        have := List.length_pos_of_ne_nil hnil
        omega
      have hne : ∀ i (hi : i + 1 < (fs.matching t.lastWord).length),
          (fs.matching t.lastWord)[i] ≠ (fs.matching t.lastWord)[i + 1] := by
        intro i hi heq
        have := (hd.filter _).getElem_inj_iff.mp heq
        omega
      rw [completeWord_of_several h hlen (hshort.trans hn) hmem (Or.inl hn) (fun i hi heq => absurd heq (hne i hi))
        ⟨_, List.getElem_mem (Nat.lt_of_succ_lt h2), _, List.getElem_mem h2, hne 0 h2⟩, decide_eq_true hone]

/-! ## The line -/

variable {k k' : Kernel}

/-- The last word of a line, as the code finds it. -/
theorem Contains.lastWord (h : Contains t.line (before ++ w)) (hlen : (before ++ w).length ≤ 127)
    (hbefore : ∀ c ∈ before.getLast?, c = chSpace) (hw : chSpace ∉ w) (hne : w ≠ []) :
    t.bufView 0 ≠ 0 ∧ t.wordStart = before.length ∧ t.lastWord = w := by
  have hpos := List.length_pos_of_ne_nil hne
  have hstrlen := h.strlenBuf.2 hlen
  have h0 := h.nonzero
  have happ : (before ++ w).length = before.length + w.length := List.length_append
  have hview : ∀ i, i < 128 → t.bufView i = (before ++ w).getD i 0 := fun i hi => Term.bufView_of_holds h.holds hi
  have hin : ∀ i, before.length ≤ i → i < before.length + w.length → t.bufView i ≠ chSpace := by
    intro i h1 h2 hc
    rw [hview i (by omega), List.getD_append_right _ _ _ _ h1, List.getD_eq_getElem _ _ (by omega)] at hc
    exact hw (hc ▸ List.getElem_mem _)
  have hlast : before ≠ [] → t.bufView (before.length - 1) = chSpace := by
    intro hnil
    have hb := List.length_pos_of_ne_nil hnil
    rw [hview _ (by omega), List.getD_append _ _ _ _ (by omega), List.getD_eq_getElem _ _ (by omega)]
    apply hbefore
    rw [List.getLast?_eq_getElem?, List.getElem?_eq_getElem (by omega)]
    rfl
  have hstart : t.wordStart = before.length := by
    unfold Term.wordStart
    rw [hstrlen]
    rcases lastWordStart_cases t.bufView (before ++ w).length with ⟨he, hnone⟩ | ⟨i, he, hi, hc, hnone⟩
    · rw [he]
      by_contra hnot
      have hb : before ≠ [] := fun hb => hnot (by rw [hb]; rfl)
      have := List.length_pos_of_ne_nil hb
      exact hnone (before.length - 1) (by omega) (hlast hb)
    · rw [he]
      have hib : i < before.length := by
        by_contra hge
        exact hin i (by omega) (by omega) hc
      have hb : before ≠ [] := List.ne_nil_of_length_pos (by omega)
      have hmax : ¬ i < before.length - 1 := fun hlt => hnone _ hlt (by omega) (hlast hb)
      rw [Int.toNat_natCast]
      omega
  refine ⟨?_, hstart, ?_⟩
  · exact Term.bufView_ne_of_holds h.holds h0 (by omega)
  · have hbytes : bytesAt (fun j => t.bufView (before.length + j)) w.length = bytesAt (ofList w) w.length := by
      refine bytesAt_congr fun j hj => ?_
      rw [hview _ (by omega), List.getD_append_right _ _ _ _ (Nat.le_add_right _ _), Nat.add_sub_cancel_left]
      rfl
    have hw0 : 0 ∉ w := fun hmem => h0 (List.mem_append_right _ hmem)
    rw [Term.lastWord, hstart, hstrlen, happ, Nat.add_sub_cancel_left, hbytes, cstr_bytesAt_ofList, cstr_eq_self hw0,
      List.take_length]

/-- Tab with a word to put in. -/
theorem autocomplete_replace (hline : Contains k.term.line (before ++ w)) {best : List UInt8} {resetRepeats : Bool}
    (hc : completeWord k.fs k.term stale = some (.replace before.length best resetRepeats))
    (hlong : w.length ≤ best.length) (h0 : 0 ∉ best) (hfits : (before ++ best).length ≤ 127)
    (fmt : List UInt8 → List UInt8) :
    ∃ k', autocomplete k stale fmt = some k' ∧ Contains k'.term.line (before ++ best) := by
  rw [List.length_append] at hfits
  obtain ⟨k', t, hk', hl, ht⟩ := autocomplete_replaced hc hfits fmt
  rw [← List.length_append] at hfits
  have hholds : Holds 0 128 t.keyboardBuf (before ++ best) := by
    rw [show t.keyboardBuf = _ from congrArg Line.buf ht]
    exact hline.holds.replace hlong (Nat.lt_succ_of_le hfits)
  have hnonzero : 0 ∉ before ++ best := by
    intro hmem
    rcases List.mem_append.mp hmem with hmem | hmem
    · exact hline.nonzero (List.mem_append_left _ hmem)
    · exact h0 hmem
  rw [Term.strlenBuf_of_holds hholds hnonzero hfits] at hl
  refine ⟨k', hk', ?_⟩
  rw [hl.term_line]
  exact ⟨hholds, rfl, hnonzero⟩

/-! ## Tab, once and again -/

/-- The line after Tab: nothing has changed if the word is a name or no name starts with it, and the line stands if
there is nothing to add. -/
theorem autocomplete_spec (hn : k.fs.names.length ≤ 33) (hd : k.fs.names.Nodup)
    (hline : Contains k.term.line (before ++ w)) (hbefore : ∀ c ∈ before.getLast?, c = chSpace)
    (hw : chSpace ∉ w) (hne : w ≠ []) (hlen : w.length ≤ 32)
    (hfits : (before ++ k.fs.completed w).length ≤ 127) (stale : Nat → UInt8) (fmt : List UInt8 → List UInt8) :
    ∃ k', autocomplete k stale fmt = some k' ∧ Contains k'.term.line (before ++ k.fs.completed w) ∧
      (w ∈ k.fs.names ∨ k.fs.matching w = [] → k' = k) ∧ (k.fs.completed w = w → k'.term.line = k.term.line) := by
  have hlong := (k.fs.prefix_completed w).length_le
  have happ : (before ++ k.fs.completed w).length = before.length + (k.fs.completed w).length := List.length_append
  have hw0 : 0 ∉ w := fun hmem => hline.nonzero (List.mem_append_right _ hmem)
  obtain ⟨hfirst, hstart, hword⟩ := hline.lastWord (by rw [List.length_append]; omega) hbefore hw hne
  have hc := completeWord_of_distinct hfirst hn hd (hword.symm ▸ hlen) stale
  rw [hword, hstart] at hc
  by_cases hnone : w ∈ k.fs.names ∨ k.fs.matching w = []
  · have hcompleted : k.fs.completed w = w := if_pos hnone
    rw [if_pos hnone] at hc
    exact ⟨k, autocomplete_nothing hc fmt, hcompleted.symm ▸ hline, fun _ => rfl, fun _ => rfl⟩
  · rw [if_neg hnone] at hc
    by_cases hsame : k.fs.completed w = w
    · rw [if_pos hsame] at hc
      obtain ⟨k', hk', hl⟩ := autocomplete_ambiguous hc fmt
      refine ⟨k', hk', ?_, fun h => absurd h hnone, fun _ => hl.term_line⟩
      rw [hl.term_line, hsame]
      exact hline
    · rw [if_neg hsame] at hc
      obtain ⟨k', hk', hl⟩ := autocomplete_replace hline hc hlong (k.fs.completed_spec hlen hw0).2 hfits fmt
      exact ⟨k', hk', hl, fun h => absurd h hnone, fun h => absurd h hsame⟩

/-- Another Tab leaves the line as it is. -/
def Settled (k : Kernel) : Prop :=
  ∀ (stale : Nat → UInt8) (fmt : List UInt8 → List UInt8), ∃ k', autocomplete k stale fmt = some k' ∧
    k'.term.line = k.term.line

/-- The word becomes the longest common prefix of the names that start with it, and stays so if it has no space. -/
theorem autocomplete_completes (hn : k.fs.names.length ≤ 33) (hd : k.fs.names.Nodup)
    (hline : Contains k.term.line (before ++ w)) (hbefore : ∀ c ∈ before.getLast?, c = chSpace)
    (hw : chSpace ∉ w) (hne : w ≠ []) (hlen : w.length ≤ 32)
    (hfits : (before ++ k.fs.completed w).length ≤ 127) (stale : Nat → UInt8) (fmt : List UInt8 → List UInt8) :
    ∃ k', autocomplete k stale fmt = some k' ∧ (w ∈ k.fs.names ∨ k.fs.matching w = [] → k' = k) ∧
      Contains k'.term.line (before ++ k.fs.completed w) ∧ (chSpace ∉ k.fs.completed w → Settled k') := by
  have hw0 : 0 ∉ w := fun hmem => hline.nonzero (List.mem_append_right _ hmem)
  obtain ⟨k', hk', hline', hnone, -⟩ := autocomplete_spec hn hd hline hbefore hw hne hlen hfits stale fmt
  refine ⟨k', hk', hnone, hline', fun hspace stale' fmt' => ?_⟩
  have hfs : k'.fs = k.fs := by
    obtain ⟨tty, pageTable, rfl⟩ := autocomplete_ttyOnly hk'
    rfl
  have hpre := k.fs.prefix_completed w
  have hagain := k.fs.completed_completed w
  have hshort := (k.fs.completed_spec hlen hw0).1
  rw [← hfs] at hagain hn hd hfits hspace hline' hpre hshort
  obtain ⟨k'', hk'', -, -, hl⟩ := autocomplete_spec hn hd hline' hbefore hspace
    (fun hnil => hne (List.prefix_nil.mp (hnil ▸ hpre))) hshort (by rw [hagain]; exact hfits) stale' fmt'
  exact ⟨k'', hk'', hl hagain⟩

/-- A terminal with a line, and a directory. -/
def lineIn (names : List (List UInt8)) (s : List UInt8) : Kernel :=
  { Kernel.atLoad (FileSystem.ofNames names) with
    terminals := fun _ => { Term.zeroed with keyboardBuf := ofList s, bufIdx := s.length } }

/-- `cat fr` with `fra0`, `fra1` and `cat`. -/
theorem autocomplete_completes_fra :
    ∃ k', autocomplete (lineIn [[102, 114, 97, 48], [102, 114, 97, 49], [99, 97, 116]] [99, 97, 116, 32, 102, 114])
      (fun _ => 0) id = some k' ∧ Contains k'.term.line [99, 97, 116, 32, 102, 114, 97] ∧ Settled k' := by
  have hnames : (FileSystem.ofNames [[102, 114, 97, 48], [102, 114, 97, 49], [99, 97, 116]]).names =
      [[102, 114, 97, 48], [102, 114, 97, 49], [99, 97, 116]] := FileSystem.names_ofNames (by decide) (by decide)
  have hcompleted : (lineIn [[102, 114, 97, 48], [102, 114, 97, 49], [99, 97, 116]]
      [99, 97, 116, 32, 102, 114]).fs.completed [102, 114] = [102, 114, 97] := by
    show FileSystem.completed (FileSystem.ofNames _) _ = _
    unfold FileSystem.completed FileSystem.matching
    rw [hnames]
    decide
  have hline : Contains (lineIn [[102, 114, 97, 48], [102, 114, 97, 49], [99, 97, 116]]
      [99, 97, 116, 32, 102, 114]).term.line ([99, 97, 116, 32] ++ [102, 114]) :=
    ⟨⟨by decide, fun _ _ => rfl⟩, rfl, by decide⟩
  obtain ⟨k', hk', -, hline', hsettled⟩ := autocomplete_completes (hnames ▸ by decide) (hnames ▸ by decide) hline
    (by simp [chSpace]) (by decide) (by decide) (by decide) (hcompleted ▸ by decide) (fun _ => 0) id
  rw [hcompleted] at hline' hsettled
  exact ⟨k', hk', hline', hsettled (by decide)⟩

/-- `a` with `a b` and `bcd`: the second Tab completes the `b`. -/
theorem autocomplete_space :
    (lineIn [[97, 32, 98], [98, 99, 100]] [97]).fs.names = [[97, 32, 98], [98, 99, 100]] ∧
    Contains (lineIn [[97, 32, 98], [98, 99, 100]] [97]).term.line [97] ∧ ∃ k' k'',
      autocomplete (lineIn [[97, 32, 98], [98, 99, 100]] [97]) (fun _ => 0) id = some k' ∧
      Contains k'.term.line [97, 32, 98] ∧ autocomplete k' (fun _ => 0) id = some k'' ∧
      Contains k''.term.line [97, 32, 98, 99, 100] ∧ ¬ Settled k' := by
  have hnames : (FileSystem.ofNames [[97, 32, 98], [98, 99, 100]]).names = [[97, 32, 98], [98, 99, 100]] :=
    FileSystem.names_ofNames (by decide) (by decide)
  have hcompleted : ∀ w, (FileSystem.ofNames [[97, 32, 98], [98, 99, 100]]).completed w =
      if w ∈ [[97, 32, 98], [98, 99, 100]] ∨ [[97, 32, 98], [98, 99, 100]].filter (w.isPrefixOf ·) = [] then w
      else lcp ([[97, 32, 98], [98, 99, 100]].filter (w.isPrefixOf ·)) := by
    intro w
    unfold FileSystem.completed FileSystem.matching
    rw [hnames]
  have hfirst : (FileSystem.ofNames [[97, 32, 98], [98, 99, 100]]).completed [97] = [97, 32, 98] := by
    rw [hcompleted]
    decide
  have hsecond : (FileSystem.ofNames [[97, 32, 98], [98, 99, 100]]).completed [98] = [98, 99, 100] := by
    rw [hcompleted]
    decide
  have hline : Contains (lineIn [[97, 32, 98], [98, 99, 100]] [97]).term.line ([] ++ [97]) :=
    ⟨⟨by decide, fun _ _ => rfl⟩, rfl, by decide⟩
  obtain ⟨k', hk', hline', -⟩ := autocomplete_spec (hnames ▸ by decide) (hnames ▸ by decide) hline (by simp)
    (by decide) (by decide) (by decide) (hfirst ▸ by decide) (fun _ => 0) id
  have hfs : k'.fs = FileSystem.ofNames [[97, 32, 98], [98, 99, 100]] := by
    obtain ⟨tty, pageTable, rfl⟩ := autocomplete_ttyOnly hk'
    rfl
  have hab : Contains k'.term.line ([97, 32] ++ [98]) := by
    rw [show (lineIn [[97, 32, 98], [98, 99, 100]] [97]).fs.completed [97] = [97, 32, 98] from hfirst] at hline'
    exact hline'
  obtain ⟨k'', hk'', hline'', -⟩ := autocomplete_spec (by rw [hfs, hnames]; decide) (by rw [hfs, hnames]; decide) hab
    (by simp [chSpace]) (by decide) (by decide) (by decide) (by rw [hfs, hsecond]; decide) (fun _ => 0) id
  rw [hfs, hsecond] at hline''
  refine ⟨hnames, hline, k', k'', hk', hab, hk'', hline'', fun hsettled => ?_⟩
  obtain ⟨k₂, hk₂, hsame⟩ := hsettled (fun _ => 0) id
  obtain rfl : k'' = k₂ := Option.some.inj (hk''.symm.trans hk₂)
  have hidx := hline''.idx
  rw [hsame, hab.idx] at hidx
  exact absurd hidx (by decide)

end BasicOs
