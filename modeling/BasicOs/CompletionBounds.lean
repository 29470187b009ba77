import BasicOs.Listing

/-!
# The local arrays of `autocomplete`

Every read and store that `autocomplete`, and the string functions it calls, make in `prefix[33]`, `check[33]`,
`best[33]`, `temp[33]` and `ls[33][33]`, in the order of the code, and when all of them are in bounds. What `printf`
reads of a row it is given as the format counts too.

* `completeAccesses` : the accesses, up to the first function that is called after one out of bounds;
* `CompletionReady` : the condition;
* `completion_bounds_iff` : the accesses are in bounds exactly if it holds.
-/

namespace BasicOs
open Bytes Run Printf CommonPrefix

/-! ## The accesses -/

/-- An index of one of the arrays. -/
inductive ArrayAccess
  | onPrefix (i : Nat)
  | onCheck (i : Nat)
  | onBest (i : Nat)
  | onTemp (i : Nat)
  | onLs (i j : Nat)

def ArrayAccess.InBounds : ArrayAccess → Prop
  | onPrefix i | onCheck i | onBest i | onTemp i => i < 33
  | onLs i j => i < 33 ∧ j < 33

/-- The indices from 0 on. -/
def each (access : Nat → ArrayAccess) (n : Nat) : List ArrayAccess := (List.range n).map access

/-- The loop that clears the arrays. -/
def initAccesses : List ArrayAccess :=
  (List.range 33).flatMap fun i => [.onPrefix i, .onBest i, .onTemp i] ++ each (.onLs i) 33

/-- The word is copied to `prefix`, with the byte after it when it follows a space, and measured. -/
def wordAccesses (t : Term) : List ArrayAccess :=
  each .onPrefix
    (if lastWordStart t.bufView t.strlenBuf = -1 then t.strlenBuf else t.strlenBuf - t.wordStart + 1) ++
  each .onPrefix (t.lastWord.length + 1)

/-- The bytes that `strncmp` reads of each string. -/
def strncmpReads (s1 s2 : Nat → UInt8) : Nat → Nat
  | 0 => 0
  | n + 1 => if s1 0 ≠ s2 0 ∨ s1 0 = 0 then 1 else strncmpReads (fun i => s1 (i + 1)) (fun i => s2 (i + 1)) n + 1

/-- The loop over the directory: `memcpy` to `check`, the comparison, and the copies of a name that matches to `best`
and to the row `k` of `ls`. -/
def collectAccesses (word : List UInt8) : List Dentry → Nat → List ArrayAccess
  | [], _ => []
  | d :: ds, k =>
    let fname := cstr d.filename
    let reads := strncmpReads (ofList word) (ofList fname) word.length
    each .onCheck word.length ++ each .onPrefix reads ++ each .onCheck reads ++
      if strncmp (ofList word) (ofList fname) word.length = 0 then
        if word.length = fname.length then []
        else each .onBest fname.length ++ each (.onLs k) 33 ++ collectAccesses word ds (k + 1)
      else collectAccesses word ds k

/-- One round of the loop over neighbours in `ls`: the first bytes, `strlen` of both rows and of the shorter one, and
the bytes compared. -/
def roundAccesses (ls : List (List UInt8)) (stale : Nat → UInt8) (index : Nat) : List ArrayAccess :=
  .onLs (index - 1) 0 ::
    if lsByte ls stale (index - 1) 0 = 0 then []
    else
      .onLs index 0 ::
        if lsByte ls stale index 0 = 0 then []
        else
          let length₁ := strnlen (lsByte ls stale (index - 1)) 33
          let length₂ := strnlen (lsByte ls stale index) 33
          each (.onLs (index - 1)) (length₁ + 1) ++ each (.onLs index) (length₂ + 1) ++
            (if length₁ < length₂ then each (.onLs (index - 1)) (length₁ + 1) else each (.onLs index) (length₂ + 1)) ++
            (List.range (Nat.min length₁ length₂ + 1)).flatMap fun j =>
              [.onLs (index - 1) (j + 1), .onLs index (j + 1)]

/-- `best` is cut behind its first `min + 1` bytes, by way of `temp`. -/
def cutAccesses (best : Nat → UInt8) (min : Int) : List ArrayAccess :=
  each .onTemp 33 ++ each .onBest (strnlen best 33 + 1) ++ each .onTemp (min + 1).toNat ++
    each .onBest (min + 1).toNat ++ [.onBest (min + 1).toNat]

/-- `best` after that. -/
def cutBest (best : Nat → UInt8) (min : Int) : Nat → UInt8 := fun i =>
  if i = (min + 1).toNat then 0 else if i < (min + 1).toNat then strncpy best 33 i else best i

/-- The loop that copies `best` into the line, as far as its length says. -/
def replaceAccesses (best : Nat → UInt8) : List ArrayAccess :=
  each .onBest (strnlen best 33 + 1) ++ each .onBest (strnlen best 33 + 1)

/-- What follows the search, for the names it found among `n` entries. -/
def matchAccesses (t : Term) (n : Nat) (m : Matches) (stale : Nat → UInt8) : List ArrayAccess :=
  if m.ls = [] then []
  else if m.ls.length = 1 then replaceAccesses m.best
  else
    (List.range' 1 (n - 1)).flatMap (roundAccesses m.ls stale) ++
      match minDiff m.ls stale n with
      | none => []
      | some min =>
        if (t.lastWord.length : Int) - 1 < min then cutAccesses m.best min ++ replaceAccesses (cutBest m.best min)
        else if t.acRepeats + 1 > 1 then (List.range 30).map fun i => .onLs i 0
        else []

/-- The accesses of `autocomplete`. A word that does not fit in `prefix` ends the list, and so does a name that does
not fit in `ls`. -/
def completeAccesses (fs : FileSystem) (t : Term) (stale : Nat → UInt8) : List ArrayAccess :=
  if t.bufView 0 = 0 then []
  else
    initAccesses ++ wordAccesses t ++
      if 32 < t.lastWord.length then []
      else
        collectAccesses t.lastWord (dirEntries fs) 0 ++
          match collect t.lastWord (dirEntries fs) { best := fun _ => 0, ls := [] } with
          | some (some m) => matchAccesses t (dirEntries fs).length m stale
          | _ => []

/-! ## Accesses in bounds -/

/-- All of them are in bounds. -/
def Safe (l : List ArrayAccess) : Prop := ∀ a ∈ l, a.InBounds

variable {l l' : List ArrayAccess} {t : Term} {fs : FileSystem} {w : List UInt8} {ls : List (List UInt8)}
  {stale best : Nat → UInt8}

theorem safe_nil : Safe [] := fun _ h => absurd h List.not_mem_nil

theorem safe_append : Safe (l ++ l') ↔ Safe l ∧ Safe l' := List.forall_mem_append

theorem safe_cons {a : ArrayAccess} : Safe (a :: l) ↔ a.InBounds ∧ Safe l := List.forall_mem_cons

theorem safe_flatMap {α : Type} {f : α → List ArrayAccess} {as : List α} :
    Safe (as.flatMap f) ↔ ∀ a ∈ as, Safe (f a) := by
  unfold Safe
  simp only [List.mem_flatMap, forall_exists_index, and_imp]
  exact ⟨fun h a ha b hb => h b a ha hb, fun h b a ha hb => h a ha b hb⟩

theorem safe_each {access : Nat → ArrayAccess} {n : Nat} :
    Safe (each access n) ↔ ∀ i, i < n → (access i).InBounds := by
  unfold Safe each
  simp only [List.mem_map, List.mem_range, forall_exists_index, and_imp, forall_apply_eq_imp_iff₂]

/-- The first `n` indices of an array of 33 bytes. -/
theorem forall_lt_iff {n : Nat} : (∀ i, i < n → i < 33) ↔ n ≤ 33 := by
  constructor
  · intro h
    by_contra hn
    exact absurd (h 33 (by omega)) (lt_irrefl _)
  · exact fun hn i hi => lt_of_lt_of_le hi hn

theorem safe_prefix {n : Nat} : Safe (each .onPrefix n) ↔ n ≤ 33 := safe_each.trans forall_lt_iff

theorem safe_check {n : Nat} : Safe (each .onCheck n) ↔ n ≤ 33 := safe_each.trans forall_lt_iff

theorem safe_best {n : Nat} : Safe (each .onBest n) ↔ n ≤ 33 := safe_each.trans forall_lt_iff

theorem safe_temp {n : Nat} : Safe (each .onTemp n) ↔ n ≤ 33 := safe_each.trans forall_lt_iff

theorem safe_row {i n : Nat} (hn : 0 < n) : Safe (each (.onLs i) n) ↔ i < 33 ∧ n ≤ 33 := by
  rw [safe_each]
  constructor
  · intro h
    exact ⟨(h 0 hn).1, forall_lt_iff.mp fun j hj => (h j hj).2⟩
  · rintro ⟨hi, hn⟩ j hj
    exact ⟨hi, lt_of_lt_of_le hj hn⟩

theorem safe_init : Safe initAccesses := by
  refine safe_flatMap.mpr fun i hi => safe_append.mpr ⟨?_, (safe_row (by decide)).mpr ⟨List.mem_range.mp hi, le_refl _⟩⟩
  have hlt : i < 33 := List.mem_range.mp hi
  exact safe_cons.mpr ⟨hlt, safe_cons.mpr ⟨hlt, safe_cons.mpr ⟨hlt, safe_nil⟩⟩⟩

/-- The copy of the word, and its `strlen`. -/
theorem safe_word_iff (t : Term) : Safe (wordAccesses t) ↔ t.lastWord.length ≤ 32 := by
  have hroom := t.room_iff
  unfold wordAccesses
  rw [safe_append, safe_prefix, safe_prefix]
  omega

theorem strncmpReads_le (s1 s2 : Nat → UInt8) (n : Nat) : strncmpReads s1 s2 n ≤ n := by
  induction n generalizing s1 s2 with
  | zero => exact le_refl 0
  | succ n ih =>
    rw [strncmpReads]
    split_ifs
    · exact Nat.succ_le_succ (Nat.zero_le n)
    · exact Nat.succ_le_succ (ih _ _)

/-- The search stays in the arrays while the names fit in `ls`. -/
theorem safe_collect_iff (hw : 0 ∉ w) (hlen : w.length ≤ 32) : ∀ (ds : List Dentry),
    (∀ d ∈ ds, (effectiveName d).length ≤ 32) → ∀ {k : Nat}, k ≤ 33 →
      (Safe (collectAccesses w ds k) ↔ k + (candidates w (ds.map effectiveName)).length ≤ 33)
  | [], _, k, hk => iff_of_true safe_nil hk
  | d :: ds, hds, k, hk => by
    have hd : (effectiveName d).length ≤ 32 := hds d List.mem_cons_self
    have hrest : ∀ d ∈ ds, (effectiveName d).length ≤ 32 := fun d hd => hds d (List.mem_cons_of_mem _ hd)
    have hreads := strncmpReads_le (ofList w) (ofList (effectiveName d)) w.length
    rw [List.map_cons, candidates_cons, collectAccesses, show cstr d.filename = effectiveName d from rfl,
      safe_append, safe_append, safe_append, safe_check, safe_prefix, safe_check,
      and_iff_right (show (w.length ≤ 33 ∧ strncmpReads (ofList w) (ofList (effectiveName d)) w.length ≤ 33) ∧
        strncmpReads (ofList w) (ofList (effectiveName d)) w.length ≤ 33 by omega)]
    by_cases hpre : w <+: effectiveName d
    · rw [if_pos ((word_test_iff hw d).mpr hpre)]
      by_cases heq : effectiveName d = w
      · rw [if_pos (congrArg List.length heq).symm, if_pos heq]
        exact iff_of_true safe_nil hk
      · have hne : w.length ≠ (effectiveName d).length := fun hne => heq (hpre.eq_of_length hne).symm
        rw [if_neg hne, if_neg heq, if_pos hpre, safe_append, safe_append, safe_best, safe_row (by decide),
          List.length_cons]
        by_cases hroom : k < 33
        · rw [safe_collect_iff hw hlen ds hrest (Nat.succ_le_of_lt hroom)]
          omega
        · exact iff_of_false (fun h => hroom h.1.2.1) (by omega)
    · have heq : effectiveName d ≠ w := fun heq => hpre (heq ▸ List.prefix_rfl)
      rw [if_neg (mt (word_test_iff hw d).mp hpre), if_neg heq, if_neg hpre, safe_collect_iff hw hlen ds hrest hk]

/-! ## The neighbours -/

/-- One round is safe if its rows are in the array, and do not both have 32 bytes. -/
theorem Rows.safe_round_iff (h : Rows w ls) (i : Nat) : Safe (roundAccesses ls stale (i + 1)) ↔
    i < 33 ∧ (i < ls.length → i + 1 < 33) ∧
      ∀ (_ : i < ls.length) (_ : i + 1 < ls.length), ¬ (ls[i].length = 32 ∧ ls[i + 1].length = 32) := by
  unfold roundAccesses
  rw [Nat.add_sub_cancel, safe_cons]
  by_cases hi : i < 33
  · rw [and_iff_right (show (ArrayAccess.onLs i 0).InBounds from ⟨hi, by decide⟩), and_iff_right hi]
    by_cases hrow : i < ls.length
    · rw [if_neg (h.byte_zero hrow), safe_cons]
      by_cases hnext : i + 1 < 33
      · rw [and_iff_right (show (ArrayAccess.onLs (i + 1) 0).InBounds from ⟨hnext, by decide⟩),
          and_iff_right fun _ => hnext]
        by_cases hrow' : i + 1 < ls.length
        · have ha := (h.row ls[i] (List.getElem_mem hrow)).1
          have hb := (h.row ls[i + 1] (List.getElem_mem hrow')).1
          have hstrlen : ∀ {i n : Nat}, i < 33 → n ≤ 32 → Safe (each (.onLs i) (n + 1)) :=
            fun hi hn => (safe_row (Nat.succ_pos _)).mpr ⟨hi, Nat.succ_le_succ hn⟩
          rw [if_neg (h.byte_zero hrow'), h.strnlen_eq hrow, h.strnlen_eq hrow', safe_append, safe_append, safe_append,
            and_iff_right ⟨⟨hstrlen hi ha, hstrlen hnext hb⟩, by split_ifs; exacts [hstrlen hi ha, hstrlen hnext hb]⟩,
            safe_flatMap]
          constructor
          · rintro hall hrow hrow' ⟨ha32, hb32⟩
            have hlast := hall 32 (List.mem_range.mpr (by rw [ha32, hb32]; decide))
            exact absurd (safe_cons.mp hlast).1.2 (lt_irrefl 33)
          · intro hnot j hj
            have hle₁ : Nat.min ls[i].length ls[i + 1].length ≤ ls[i].length := Nat.min_le_left _ _
            have hle₂ : Nat.min ls[i].length ls[i + 1].length ≤ ls[i + 1].length := Nat.min_le_right _ _
            have hlt := List.mem_range.mp hj
            have hj' : j + 1 < 33 := by
              have := hnot hrow hrow'
              omega
            exact safe_cons.mpr ⟨⟨hi, hj'⟩, safe_cons.mpr ⟨⟨hnext, hj'⟩, safe_nil⟩⟩
        · rw [if_pos (lsByte_empty hnext (Nat.le_of_not_lt hrow'))]
          exact iff_of_true safe_nil fun _ hi => absurd hi hrow'
      · exact iff_of_false (fun hsafe => hnext hsafe.1.1) fun hsafe => hnext (hsafe.1 hrow)
    · rw [if_pos (lsByte_empty hi (Nat.le_of_not_lt hrow))]
      exact iff_of_true safe_nil ⟨fun hi => absurd hi hrow, fun hi => absurd hi hrow⟩
  · exact iff_of_false (fun hsafe => hi hsafe.1.1) fun hsafe => hi hsafe.1

/-- No two neighbours have 32 bytes both. -/
def NoFullPair (ls : List (List UInt8)) : Prop :=
  ∀ i (_ : i < ls.length) (_ : i + 1 < ls.length), ¬ (ls[i].length = 32 ∧ ls[i + 1].length = 32)

/-- The loop over neighbours, for `n` entries. -/
theorem Rows.safe_rounds_iff (h : Rows w ls) (h2 : 2 ≤ ls.length) {n : Nat} (hlen : ls.length ≤ n) :
    Safe ((List.range' 1 (n - 1)).flatMap (roundAccesses ls stale)) ↔
      (n ≤ 33 ∨ n = 34 ∧ ls.length ≤ 32) ∧ NoFullPair ls := by
  have h33 := h.length_le
  have hrounds : Safe ((List.range' 1 (n - 1)).flatMap (roundAccesses ls stale)) ↔
      ∀ i, i < n - 1 → Safe (roundAccesses ls stale (i + 1)) := by
    rw [safe_flatMap]
    constructor
    · intro hall i hi
      exact hall (i + 1) (List.mem_range'_1.mpr (by omega))
    · intro hall index hindex
      obtain ⟨h1, hlt⟩ := List.mem_range'_1.mp hindex
      obtain ⟨i, rfl⟩ : ∃ i, index = i + 1 := ⟨index - 1, by omega⟩
      exact hall i (by omega)
  rw [hrounds]
  constructor
  · intro hall
    refine ⟨?_, fun i hi hi' => ((h.safe_round_iff i).mp (hall i (by omega))).2.2 hi hi'⟩
    by_contra hn
    by_cases hlast : 33 < n - 1
    · exact absurd ((h.safe_round_iff 33).mp (hall 33 hlast)).1 (lt_irrefl _)
    · -- 33 names in the first 33 of 34 rows
      exact absurd (((h.safe_round_iff 32).mp (hall 32 (by omega))).2.1 (by omega)) (lt_irrefl _)
  · rintro ⟨hn, hpair⟩ i hi
    exact (h.safe_round_iff i).mpr ⟨by omega, fun hrow => by omega, hpair i⟩

/-! ## What follows -/

theorem overlay_end {l : List (List UInt8)} (hl : ∀ a ∈ l, a.length ≤ 32) : overlay (fun _ => 0) l 32 = 0 := by
  induction l using List.reverseRecOn with
  | nil => rfl
  | append_singleton l a ih =>
    have ha := hl a (List.mem_append_right _ List.mem_cons_self)
    rw [overlay_concat, if_neg (by omega)]
    exact ih fun b hb => hl b (List.mem_append_left _ hb)

theorem safe_replace (h : best 32 = 0) : Safe (replaceAccesses best) := by
  have hlen : strnlen best 33 + 1 ≤ 33 := Nat.succ_le_succ (strnlen_le_of_zero h 33)
  exact safe_append.mpr ⟨safe_best.mpr hlen, safe_best.mpr hlen⟩

theorem safe_cut_iff (h : best 32 = 0) {min : Int} (h0 : 0 ≤ min) :
    Safe (cutAccesses best min ++ replaceAccesses (cutBest best min)) ↔ min ≤ 31 := by
  have hlen : strnlen best 33 + 1 ≤ 33 := Nat.succ_le_succ (strnlen_le_of_zero h 33)
  unfold cutAccesses
  rw [safe_append, safe_append, safe_append, safe_append, safe_append, safe_temp, safe_temp, safe_best, safe_best,
    safe_cons]
  constructor
  · rintro ⟨⟨-, hlast, -⟩, -⟩
    have hlt : (min + 1).toNat < 33 := hlast
    omega
  · intro hmin
    have hend : cutBest best min (min + 1).toNat = 0 := if_pos rfl
    have hcut : strnlen (cutBest best min) 33 + 1 ≤ 33 :=
      Nat.succ_le_succ ((strnlen_le_of_zero hend 33).trans (by omega))
    have hlast : (ArrayAccess.onBest (min + 1).toNat).InBounds := show (min + 1).toNat < 33 by omega
    exact ⟨⟨⟨⟨⟨le_refl _, hlen⟩, by omega⟩, by omega⟩, hlast, safe_nil⟩,
      safe_append.mpr ⟨safe_best.mpr hcut, safe_best.mpr hcut⟩⟩

/-! ## The condition -/

/-- The accesses are in bounds, and so is what `printf` reads of a row when the list is printed. -/
def CompletionSafe (fs : FileSystem) (t : Term) (stale : Nat → UInt8) : Prop :=
  Safe (completeAccesses fs t stale) ∧
    (t.acRepeats + 1 > 1 → ∀ ls, completeWord fs t stale = some (.ambiguous ls) →
      ∀ i ∈ listedRows ls stale, ∀ row : Env, row.format = lsByte ls stale i →
        ∀ s, Leads (printfStep row) State.start s → s.buf < 33)

/-- The line is empty; or its last word fits in `prefix`, the names before it that start with it fit in `ls`, and it is
a name, or one name at most starts with it, or several that are not all the same, where no two neighbours fill their
rows, the neighbours compared are rows of `ls`, and no name that is listed fills its row and ends inside a
conversion. -/
def CompletionReady (fs : FileSystem) (t : Term) : Prop :=
  t.bufView 0 = 0 ∨
    t.lastWord.length ≤ 32 ∧ (candidates t.lastWord fs.names).length ≤ 33 ∧
      (t.lastWord ∈ fs.names ∨ (fs.matching t.lastWord).length ≤ 1 ∨
        (fs.names.length ≤ 33 ∨ fs.names.length = 34 ∧ (fs.matching t.lastWord).length ≤ 32) ∧
        NoFullPair (fs.matching t.lastWord) ∧ (∃ a ∈ fs.matching t.lastWord, ∃ b ∈ fs.matching t.lastWord, a ≠ b) ∧
        (t.acRepeats + 1 > 1 → lcp (fs.matching t.lastWord) = t.lastWord →
          ∀ a ∈ (fs.matching t.lastWord).take 30, ¬ (a.length = 32 ∧ EndsOpen a)))

theorem NoFullPair.short_of_eq (h : NoFullPair ls) (hrows : Rows w ls) {i : Nat} (hi : i < ls.length)
    (hi' : i + 1 < ls.length) (heq : ls[i] = ls[i + 1]) : ls[i].length ≤ 31 := by
  have hlen := (hrows.row ls[i] (List.getElem_mem hi)).1
  have hpair := h i hi hi'
  rw [← heq] at hpair
  omega

/-- The names that `printf` reads inside their rows. -/
theorem Rows.listed_reads_iff (h : Rows w ls) :
    (∀ i ∈ listedRows ls stale, ∀ row : Env, row.format = lsByte ls stale i →
      ∀ s, Leads (printfStep row) State.start s → s.buf < 33) ↔
      ∀ a ∈ ls.take 30, ¬ (a.length = 32 ∧ EndsOpen a) := by
  have h33 := h.length_le
  have hone : ∀ i (hi : i < ls.length) (row : Env), row.format = lsByte ls stale i →
      ((∀ s, Leads (printfStep row) State.start s → s.buf < 33) ↔ ¬ (ls[i].length = 32 ∧ EndsOpen ls[i])) := by
    intro i hi row hrow
    obtain ⟨hlen, h0, -⟩ := h.row ls[i] (List.getElem_mem hi)
    rw [← printf_reads_iff hlen (fun j hj => ?_) h0]
    · exact forall₂_congr fun s _ => Nat.lt_succ_iff
    · rw [hrow, lsByte_row (by omega) (by omega), List.getD_eq_getElem _ _ hi]
  constructor
  · intro hall a ha
    obtain ⟨i, hi, rfl⟩ := List.getElem_of_mem ha
    obtain ⟨h30, hlt⟩ := lt_min_iff.mp (List.length_take ▸ hi)
    rw [List.getElem_take]
    exact (hone i hlt ⟨_, fun _ => 0, fun _ => [], fun _ => 0⟩ rfl).mp
      (hall i ((h.mem_listedRows hlt).mpr h30) _ rfl)
  · intro hall i hi row hrow
    have hmem := List.mem_filter.mp hi
    have h30 : i < 30 := List.mem_range.mp hmem.1
    have hlt : i < ls.length := by
      by_contra hge
      exact of_decide_eq_true hmem.2 (lsByte_empty (by omega) (Nat.le_of_not_lt hge))
    refine (hone i hlt row hrow).mpr (hall _ ?_)
    exact List.mem_take_iff_getElem.mpr ⟨i, lt_min h30 hlt, rfl⟩

/-- Several names: the loop over neighbours, and what follows. -/
theorem safe_match_iff (h : t.bufView 0 ≠ 0) (hlen : t.lastWord.length ≤ 32)
    (hfew : (fs.matching t.lastWord).length ≤ 33) (h2 : 2 ≤ (fs.matching t.lastWord).length) :
    Safe (matchAccesses t fs.names.length ⟨overlay (fun _ => 0) (fs.matching t.lastWord), fs.matching t.lastWord⟩
        stale) ↔
      (fs.names.length ≤ 33 ∨ fs.names.length = 34 ∧ (fs.matching t.lastWord).length ≤ 32) ∧
        NoFullPair (fs.matching t.lastWord) ∧
          ∃ a ∈ fs.matching t.lastWord, ∃ b ∈ fs.matching t.lastWord, a ≠ b := by
  have hrows : Rows t.lastWord (fs.matching t.lastWord) := FileSystem.rows_matching (Term.lastWord_ne_nil h) hfew
  have hshort : (fs.matching t.lastWord).length ≤ fs.names.length := List.length_filter_le _ _
  have hend : overlay (fun _ => 0) (fs.matching t.lastWord) 32 = 0 := overlay_end fun a ha => (hrows.row a ha).1
  have hnil : fs.matching t.lastWord ≠ [] := List.ne_nil_of_length_pos (by omega)
  unfold matchAccesses
  dsimp only
  rw [if_neg hnil, if_neg (by omega), safe_append, hrows.safe_rounds_iff h2 hshort, and_assoc]
  refine and_congr_right fun hn => and_congr_right fun hpair => ?_
  have hsame := fun i hi => hpair.short_of_eq hrows (i := i) (Nat.lt_of_succ_lt hi) hi
  by_cases hdiff : ∃ a ∈ fs.matching t.lastWord, ∃ b ∈ fs.matching t.lastWord, a ≠ b
  · obtain ⟨a, ha, -⟩ := id hdiff
    have ha32 := (hrows.row a ha).1
    have hle := (lcp_prefix_of_mem ha).length_le
    have hpos := List.length_pos_of_ne_nil (Term.lastWord_ne_nil h)
    have hpre := (fs.prefix_lcp t.lastWord hnil).length_le
    rw [hrows.minDiff_lcp hn hsame hshort hdiff]
    dsimp only
    refine iff_of_true ?_ hdiff
    split_ifs
    · exact (safe_cut_iff hend (by omega)).mpr (by omega)
    · intro a ha
      obtain ⟨i, hi, rfl⟩ := List.mem_map.mp ha
      have hlt := List.mem_range.mp hi
      exact ⟨by omega, by decide⟩
    · exact safe_nil
  · have hall : ∀ a ∈ fs.matching t.lastWord, ∀ b ∈ fs.matching t.lastWord, a = b :=
      fun a ha b hb => by_contra fun hab => hdiff ⟨a, ha, b, hb, hab⟩
    rw [hrows.minDiff_same hn hsame hshort hall]
    dsimp only
    rw [if_pos (by omega), safe_cut_iff hend (by decide)]
    exact iff_of_false (by decide) hdiff

/-- The accesses that are not made by `printf`. -/
theorem safe_complete_iff (h : t.bufView 0 ≠ 0) : Safe (completeAccesses fs t stale) ↔
    t.lastWord.length ≤ 32 ∧ (candidates t.lastWord fs.names).length ≤ 33 ∧
      (t.lastWord ∈ fs.names ∨ (fs.matching t.lastWord).length ≤ 1 ∨
        (fs.names.length ≤ 33 ∨ fs.names.length = 34 ∧ (fs.matching t.lastWord).length ≤ 32) ∧
        NoFullPair (fs.matching t.lastWord) ∧
          ∃ a ∈ fs.matching t.lastWord, ∃ b ∈ fs.matching t.lastWord, a ≠ b) := by
  have hentries : ∀ d ∈ dirEntries fs, (effectiveName d).length ≤ 32 :=
    fun d hd => (FileSystem.name_spec (List.mem_map_of_mem hd)).1
  have hnames : (dirEntries fs).length = fs.names.length := (List.length_map _).symm
  unfold completeAccesses
  rw [if_neg h, safe_append, safe_append, and_iff_right safe_init, safe_word_iff]
  refine and_congr_right fun hlen => ?_
  rw [if_neg (by omega), safe_append, safe_collect_iff t.zero_notMem_lastWord hlen _ hentries (Nat.zero_le 33),
    Nat.zero_add, show (dirEntries fs).map effectiveName = fs.names from rfl]
  refine and_congr_right fun hfew => ?_
  rw [collect_lastWord, if_neg (by omega)]
  by_cases hmem : t.lastWord ∈ fs.names
  · rw [if_pos hmem]
    exact iff_of_true safe_nil (Or.inl hmem)
  · rw [if_neg hmem, or_iff_right hmem, hnames]
    rw [candidates_eq_matching hmem] at hfew ⊢
    dsimp only
    rcases Nat.lt_or_ge (fs.matching t.lastWord).length 2 with hone | h2
    · refine iff_of_true ?_ (Or.inl (by omega))
      have hend : overlay (fun _ => 0) (fs.matching t.lastWord) 32 = 0 :=
        overlay_end fun a ha => (FileSystem.name_spec (FileSystem.mem_matching.mp ha).1).1
      unfold matchAccesses
      dsimp only
      by_cases hnil : fs.matching t.lastWord = []
      · rw [if_pos hnil]
        exact safe_nil
      · have hpos := List.length_pos_of_ne_nil hnil
        rw [if_neg hnil, if_pos (by omega)]
        exact safe_replace hend
    · have hmany : ¬ (fs.matching t.lastWord).length ≤ 1 := by omega
      rw [safe_match_iff h hlen hfew h2, or_iff_right hmany]

/-- The accesses of `autocomplete` are in bounds exactly if the condition holds. -/
theorem completion_bounds_iff (fs : FileSystem) (t : Term) (stale : Nat → UInt8) :
    CompletionSafe fs t stale ↔ CompletionReady fs t := by
  unfold CompletionSafe CompletionReady
  by_cases h : t.bufView 0 = 0
  · have hnothing : completeWord fs t stale = some .nothing := if_pos h
    refine iff_of_true ⟨?_, fun _ ls hls => ?_⟩ (Or.inl h)
    · rw [completeAccesses, if_pos h]
      exact safe_nil
    · rw [hnothing] at hls
      cases hls
  · rw [safe_complete_iff h, or_iff_right h]
    constructor
    · rintro ⟨⟨hlen, hfew, hsafe⟩, hreads⟩
      refine ⟨hlen, hfew, ?_⟩
      rcases hsafe with hmem | hone | ⟨hn, hpair, hdiff⟩
      · exact Or.inl hmem
      · exact Or.inr (Or.inl hone)
      · by_cases hmem : t.lastWord ∈ fs.names
        · exact Or.inl hmem
        · refine Or.inr (Or.inr ⟨hn, hpair, hdiff, fun hrepeat hlcp => ?_⟩)
          rw [candidates_eq_matching hmem] at hfew
          have hrows : Rows t.lastWord (fs.matching t.lastWord) :=
            FileSystem.rows_matching (Term.lastWord_ne_nil h) hfew
          have hc := completeWord_of_several h hlen hfew hmem hn
            (fun i hi => hpair.short_of_eq hrows (Nat.lt_of_succ_lt hi) hi) hdiff stale
          rw [if_pos hlcp] at hc
          exact hrows.listed_reads_iff.mp (hreads hrepeat _ hc)
    · rintro ⟨hlen, hfew, hready⟩
      refine ⟨⟨hlen, hfew, ?_⟩, fun hrepeat ls hls => ?_⟩
      · rcases hready with hmem | hone | ⟨hn, hpair, hdiff, -⟩
        · exact Or.inl hmem
        · exact Or.inr (Or.inl hone)
        · exact Or.inr (Or.inr ⟨hn, hpair, hdiff⟩)
      · obtain ⟨rfl, hrows, hmem, h2⟩ := completeWord_ambiguous hls
        rcases hready with hmem' | hone | ⟨hn, hpair, hdiff, hopen⟩
        · exact absurd hmem' hmem
        · omega
        · have hc := completeWord_of_several h hlen hrows.length_le hmem hn
            (fun i hi => hpair.short_of_eq hrows (Nat.lt_of_succ_lt hi) hi) hdiff stale
          rw [hls] at hc
          split_ifs at hc with hlcp
          · exact hrows.listed_reads_iff.mpr (hopen hrepeat hlcp)
          · cases hc

/-- A word of 33 letters. -/
theorem completion_long_word :
    Contains (lineIn [shellName] (List.replicate 33 97)).term.line (List.replicate 33 97) ∧
      ¬ CompletionSafe (lineIn [shellName] (List.replicate 33 97)).fs (lineIn [shellName] (List.replicate 33 97)).term
        fun _ => 0 := by
  have hline : Contains (lineIn [shellName] (List.replicate 33 97)).term.line ([] ++ List.replicate 33 97) :=
    ⟨⟨by decide, fun _ _ => rfl⟩, rfl, by decide⟩
  obtain ⟨hfirst, -, hword⟩ := hline.lastWord (by decide) (by simp) (by decide) (by decide)
  refine ⟨hline, fun hsafe => ?_⟩
  have hlen := ((safe_complete_iff hfirst).mp hsafe.1).1
  rw [hword] at hlen
  exact absurd hlen (by decide)

end BasicOs
