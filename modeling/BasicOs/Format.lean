import BasicOs.Numbers

/-!
# Format strings

What `printf` writes for a whole format string, piece by piece: the characters that stand for themselves and the
conversions, each with any number of `#`.

* `Piece`, `spell`, `render` : the pieces, how they are written in a format, and what they become;
* `exists_pieces` : every format that is not cut off inside a conversion is made of pieces;
* `printf_formats` : `printf` writes what the pieces become, takes one word for each conversion that needs one, and
  stops at the NUL.
-/

namespace BasicOs
open Bytes Numeral Printf Run

/-! ## Pieces -/

namespace Printf

/-- A character that stands for itself, or a `%` with its `#`s and its letter. -/
inductive Piece
  | literal (c : UInt8)
  | conversion (sharps : Nat) (letter : UInt8)

def Piece.WellFormed : Piece → Prop
  | .literal c => c ≠ 37 ∧ c ≠ 0
  | .conversion _ letter => letter ≠ 35 ∧ letter ≠ 0

instance : DecidablePred Piece.WellFormed
  | .literal c => inferInstanceAs (Decidable (c ≠ 37 ∧ c ≠ 0))
  | .conversion _ letter => inferInstanceAs (Decidable (letter ≠ 35 ∧ letter ≠ 0))

def Piece.spell : Piece → List UInt8
  | .literal c => [c]
  | .conversion sharps letter => 37 :: (List.replicate sharps 35 ++ [letter])

/-- The format made of the pieces. -/
def spell (ps : List Piece) : List UInt8 := ps.flatMap Piece.spell

/-- What a letter makes of the word on the stack; `none` for a letter that takes none. -/
def letterText (string : Nat → List UInt8) (alternate : Bool) (letter : UInt8) (word : Nat) : Option (List UInt8) :=
  if letter = 120 then
    some ((if alternate then List.replicate (8 - (numeral 16 word).length) 48 else []) ++ numeral 16 word)
  else if letter = 117 then some (numeral 10 word)
  else if letter = 100 then some ((if i32 word < 0 then [45] else []) ++ numeral 10 (i32 word).natAbs)
  else if letter = 99 then some [UInt8.ofNat word]
  else if letter = 115 then some (string word)
  else none

/-- The words a piece takes. -/
def Piece.words : Piece → Nat
  | .literal _ => 0
  | .conversion _ letter => if letter ∈ [120, 117, 100, 99, 115] then 1 else 0

/-- The characters a piece becomes; a letter that is none of the conversions becomes nothing. -/
def Piece.render (string : Nat → List UInt8) (word : Nat) : Piece → List UInt8
  | .literal c => [c]
  | .conversion sharps letter =>
    if letter = 37 then [37] else (letterText string (decide (0 < sharps)) letter word).getD []

/-- What the pieces become, the first of them with word `n`. -/
def render (env : Env) : Nat → List Piece → List UInt8
  | _, [] => []
  | n, p :: ps => p.render env.string (env.arg n) ++ render env (n + p.words) ps

def words (ps : List Piece) : Nat := (ps.map Piece.words).sum

/-! ## Every format is made of pieces -/

variable {env : Env} {s : State} {fmt : List UInt8}

/-- The rest of a conversion, and what follows it. -/
theorem exists_letter : ∀ {fmt : List UInt8} {alternate : Bool}, 0 ∉ fmt →
    fmt.foldl Mode.next (.conv alternate) = .text → ∃ sharps letter rest,
      fmt = List.replicate sharps 35 ++ letter :: rest ∧ (letter ≠ 35 ∧ letter ≠ 0) ∧ rest.foldl Mode.next .text = .text
  | [], _, _, h => nomatch h
  | c :: fmt, alternate, h0, h => by
    obtain ⟨hc, h0⟩ := List.ne_and_not_mem_of_not_mem_cons h0
    rw [List.foldl_cons, Mode.next] at h
    by_cases hsharp : c = 35
    · rw [if_pos hsharp] at h
      obtain ⟨sharps, letter, rest, hfmt, hletter, hrest⟩ := exists_letter h0 h
      exact ⟨sharps + 1, letter, rest, by rw [hfmt, hsharp]; rfl, hletter, hrest⟩
    · rw [if_neg hsharp] at h
      exact ⟨0, c, fmt, rfl, ⟨hsharp, hc.symm⟩, h⟩

/-- A format that is not cut off inside a conversion is made of pieces. -/
theorem exists_pieces : ∀ (n : Nat) {fmt : List UInt8}, fmt.length ≤ n → 0 ∉ fmt → ¬ EndsOpen fmt →
    ∃ ps, (∀ p ∈ ps, p.WellFormed) ∧ spell ps = fmt
  | _, [], _, _, _ => ⟨[], fun _ hp => (nomatch hp), rfl⟩
  | n + 1, c :: fmt, hn, h0, hopen => by
    obtain ⟨hc, h0⟩ := List.ne_and_not_mem_of_not_mem_cons h0
    have hmode := not_not.mp hopen
    rw [List.foldl_cons, Mode.next] at hmode
    by_cases hpercent : c = 37
    · rw [if_pos hpercent] at hmode
      obtain ⟨sharps, letter, rest, rfl, hletter, hrest⟩ := exists_letter h0 hmode
      have hlen : rest.length ≤ n := by
        simp only [List.length_cons, List.length_append, List.length_replicate] at hn
        omega
      obtain ⟨ps, hps, hspell⟩ := exists_pieces n hlen
        (fun hmem => h0 (List.mem_append_right _ (List.mem_cons_of_mem _ hmem))) (not_not.mpr hrest)
      refine ⟨.conversion sharps letter :: ps, List.forall_mem_cons.mpr ⟨hletter, hps⟩, ?_⟩
      rw [spell, List.flatMap_cons, ← spell, hspell, hpercent, Piece.spell, List.cons_append, List.append_assoc,
        List.singleton_append]
    · rw [if_neg hpercent] at hmode
      obtain ⟨ps, hps, hspell⟩ := exists_pieces n (Nat.le_of_succ_le_succ hn) h0 (not_not.mpr hmode)
      refine ⟨.literal c :: ps, List.forall_mem_cons.mpr ⟨⟨hpercent, hc.symm⟩, hps⟩, ?_⟩
      rw [spell, List.flatMap_cons, ← spell, hspell]
      rfl

/-! ## The scanner on a piece -/

/-- The bytes of the format from place `n` on. -/
def Spelled (env : Env) (n : Nat) (chars : List UInt8) : Prop := ∀ i < chars.length, env.format (n + i) = chars.getD i 0

theorem Spelled.head {n : Nat} {c : UInt8} {chars : List UInt8} (h : Spelled env n (c :: chars)) :
    env.format n = c := h 0 (Nat.succ_pos _)

theorem Spelled.tail {n : Nat} {c : UInt8} {chars : List UInt8} (h : Spelled env n (c :: chars)) :
    Spelled env (n + 1) chars := by
  intro i hi
  rw [Nat.add_right_comm, Nat.add_assoc]
  exact h (i + 1) (Nat.succ_lt_succ hi)

theorem Spelled.append {n : Nat} {l r : List UInt8} (h : Spelled env n (l ++ r)) :
    Spelled env n l ∧ Spelled env (n + l.length) r := by
  refine ⟨fun i hi => ?_, fun i hi => ?_⟩
  · rw [h i (by rw [List.length_append]; omega), List.getD_append _ _ _ _ hi]
  · rw [Nat.add_assoc, h (l.length + i) (by rw [List.length_append]; omega),
      List.getD_append_right _ _ _ _ (Nat.le_add_right ..), Nat.add_sub_cancel_left]

/-- The `#`s of a conversion. -/
theorem leads_sharps (sharps : Nat) {alternate : Bool} {n a : Nat} {out : List UInt8}
    (h : Spelled env n (List.replicate sharps 35)) :
    Leads (printfStep env) ⟨.conv alternate, n, a, out⟩
      ⟨.conv (alternate || decide (0 < sharps)), n + sharps, a, out⟩ := by
  induction sharps generalizing alternate n with
  | zero =>
    rw [show (alternate || decide (0 < 0)) = alternate by simp]
    exact .refl _ _
  | succ sharps ih =>
    have hstep : printfStep env ⟨.conv alternate, n, a, out⟩ = ⟨.conv true, n + 1, a, out⟩ :=
      printfStep_alternate rfl h.head
    have hrest : Leads (printfStep env) ⟨.conv true, n + 1, a, out⟩ _ := ih h.tail
    rw [Bool.true_or, Nat.add_right_comm, Nat.add_assoc] at hrest
    rw [show (alternate || decide (0 < sharps + 1)) = true by simp]
    exact .head (by rw [hstep]; exact hrest)

/-- The characters of a conversion are those of the numeral. -/
theorem conversion_eq (alternate : Bool) (letter : UInt8) {word : Nat} (hword : word < 2 ^ 32) :
    conversion env alternate letter word = letterText env.string alternate letter word := by
  unfold conversion letterText
  refine if_congr Iff.rfl ?_ (if_congr Iff.rfl ?_ (if_congr Iff.rfl ?_ (if_congr Iff.rfl rfl rfl)))
  · cases alternate with
    | true => exact hexPadded_eq hword _
    | false => exact putsChars_itoa (by decide) (by decide) hword _
  · exact putsChars_itoa (by decide) (by decide) hword _
  · exact decimal_eq word _

/-- Which letters take a word. -/
theorem letterText_isSome (string : Nat → List UInt8) (alternate : Bool) (letter : UInt8) (word : Nat) :
    (letterText string alternate letter word).isSome ↔ letter ∈ [120, 117, 100, 99, 115] := by
  unfold letterText
  split_ifs <;> simp_all

theorem leads_piece {p : Piece} (hp : p.WellFormed) {n a : Nat} {out : List UInt8} (h : Spelled env n p.spell)
    (hword : env.arg a < 2 ^ 32) : Leads (printfStep env) ⟨.text, n, a, out⟩
      ⟨.text, n + p.spell.length, a + p.words, out ++ p.render env.string (env.arg a)⟩ := by
  cases p with
  | literal c =>
    have hbyte : env.format n = c := h.head
    refine .head ?_
    unfold printfStep
    dsimp only
    rw [hbyte, if_neg hp.2, if_neg hp.1]
    exact .refl _ _
  | conversion sharps letter =>
    obtain ⟨hsharps, hletter⟩ := h.tail.append
    rw [List.length_replicate] at hletter
    have hbyte : env.format (n + 1 + sharps) = letter := hletter.head
    have hlength : n + (Piece.conversion sharps letter).spell.length = n + 1 + sharps + 1 := by
      simp only [Piece.spell, List.length_cons, List.length_append, List.length_replicate, List.length_nil]
      omega
    have hopen : printfStep env ⟨.text, n, a, out⟩ = ⟨.conv false, n + 1, a, out⟩ := printfStep_percent rfl h.head
    have hreach : Leads (printfStep env) ⟨.conv false, n + 1, a, out⟩ _ := leads_sharps sharps hsharps
    rw [Bool.false_or] at hreach
    refine .head (hopen ▸ hreach.trans (.head ?_))
    -- the letter
    have hstep : printfStep env ⟨.conv (decide (0 < sharps)), n + 1 + sharps, a, out⟩ =
        ⟨.text, n + 1 + sharps + 1, a + (Piece.conversion sharps letter).words,
          out ++ (Piece.conversion sharps letter).render env.string (env.arg a)⟩ := by
      unfold Piece.words Piece.render
      dsimp only
      by_cases hpercent : letter = 37
      · subst hpercent
        unfold printfStep
        dsimp only
        rw [hbyte, if_pos rfl, if_pos rfl, if_neg (by decide)]
        rfl
      · rw [if_neg hpercent]
        have hiff := letterText_isSome env.string (decide (0 < sharps)) letter (env.arg a)
        cases htext : letterText env.string (decide (0 < sharps)) letter (env.arg a) with
        | some chars =>
          rw [htext] at hiff
          rw [if_pos (hiff.mp rfl), Option.getD_some]
          exact printfStep_conversion rfl hbyte hpercent hp.1 ((conversion_eq _ _ hword).trans htext)
        | none =>
          rw [htext] at hiff
          have hnot : letter ∉ [120, 117, 100, 99, 115] := fun hmem => nomatch hiff.mpr hmem
          unfold printfStep
          dsimp only
          rw [hbyte, if_neg hpercent, if_neg hp.1, conversion_eq _ _ hword, htext, if_neg hnot]
          simp only [Option.getD_none, List.append_nil, Nat.add_zero]
    rw [hstep, hlength]
    exact .refl _ _

theorem leads_pieces (hargs : ∀ i, env.arg i < 2 ^ 32) : ∀ (ps : List Piece) {n a : Nat} {out : List UInt8},
    (∀ p ∈ ps, p.WellFormed) → Spelled env n (spell ps) → Leads (printfStep env) ⟨.text, n, a, out⟩
      ⟨.text, n + (spell ps).length, a + words ps, out ++ render env a ps⟩
  | [], n, a, out, _, _ => by
    rw [render, List.append_nil]
    exact .refl _ _
  | p :: ps, n, a, out, hps, h => by
    obtain ⟨hp, hps⟩ := List.forall_mem_cons.mp hps
    rw [spell, List.flatMap_cons, ← spell] at h ⊢
    obtain ⟨hfirst, hrest⟩ := h.append
    have hnow : Leads (printfStep env) ⟨.text, n, a, out⟩ _ := leads_piece hp hfirst (hargs a)
    have hlater := hnow.trans (leads_pieces hargs ps hps hrest)
    rw [render, words, List.map_cons, List.sum_cons, ← words, List.length_append, ← Nat.add_assoc, ← Nat.add_assoc,
      ← List.append_assoc]
    exact hlater

/-! ## Only one reading -/

theorem letter_unique {letter letter' : UInt8} (h : letter ≠ 35) (h' : letter' ≠ 35) {rest rest' : List UInt8} :
    ∀ {m m' : Nat}, List.replicate m 35 ++ letter :: rest = List.replicate m' 35 ++ letter' :: rest' →
      m = m' ∧ letter = letter' ∧ rest = rest'
  | 0, 0, he => ⟨rfl, List.cons.inj he⟩
  | 0, m' + 1, he => absurd (List.cons.inj he).1 h
  | m + 1, 0, he => absurd (List.cons.inj he).1.symm h'
  | m + 1, m' + 1, he => by
    obtain ⟨hm, hrest⟩ := letter_unique h h' (List.cons.inj he).2
    exact ⟨congrArg (· + 1) hm, hrest⟩

theorem spell_injective : ∀ {ps qs : List Piece}, (∀ p ∈ ps, p.WellFormed) → (∀ q ∈ qs, q.WellFormed) →
    spell ps = spell qs → ps = qs
  | [], [], _, _, _ => rfl
  | [], .literal _ :: _, _, _, he => nomatch he
  | [], .conversion .. :: _, _, _, he => nomatch he
  | .literal _ :: _, [], _, _, he => nomatch he
  | .conversion .. :: _, [], _, _, he => nomatch he
  | .literal c :: ps, .literal d :: qs, hps, hqs, he => by
    obtain ⟨hcd, hrest⟩ := List.cons.inj he
    rw [hcd, spell_injective (List.forall_mem_cons.mp hps).2 (List.forall_mem_cons.mp hqs).2 hrest]
  | .literal c :: ps, .conversion .. :: qs, hps, _, he =>
    absurd (List.cons.inj he).1 (hps _ List.mem_cons_self).1
  | .conversion .. :: ps, .literal d :: qs, _, hqs, he =>
    absurd (List.cons.inj he).1.symm (hqs _ List.mem_cons_self).1
  | .conversion m letter :: ps, .conversion m' letter' :: qs, hps, hqs, he => by
    obtain ⟨hp, hps'⟩ := List.forall_mem_cons.mp hps
    obtain ⟨hq, hqs'⟩ := List.forall_mem_cons.mp hqs
    rw [spell, spell, List.flatMap_cons, List.flatMap_cons, ← spell, ← spell] at he
    simp only [Piece.spell, List.cons_append, List.append_assoc, List.nil_append] at he
    obtain ⟨rfl, rfl, hrest⟩ := letter_unique hp.1 hq.1 (List.cons.inj he).2
    rw [spell_injective hps' hqs' hrest]

end Printf

open Printf

/-- On a format made of pieces `printf` comes to its end at the NUL. -/
theorem ends_of_pieces {env : Env} {ps : List Piece} (hps : ∀ p ∈ ps, p.WellFormed)
    (hfmt : ∀ i ≤ (spell ps).length, env.format i = ofList (spell ps) i) (hargs : ∀ i, env.arg i < 2 ^ 32) :
    Ends env ⟨.text, (spell ps).length, words ps, render env 0 ps⟩ := by
  refine ⟨?_, printfStep_nul_text rfl ?_⟩
  · have hspelled : Spelled env 0 (spell ps) := by
      intro i hi
      rw [Nat.zero_add, hfmt i hi.le]
      rfl
    have hreach : Leads (printfStep env) ⟨.text, 0, 0, []⟩ _ := leads_pieces hargs ps hps hspelled
    rw [Nat.zero_add, Nat.zero_add, List.nil_append] at hreach
    exact hreach
  · rw [hfmt _ (le_refl _), ofList, List.getD_eq_default _ _ (le_refl _)]

/-- **The meaning of a format.** Every format that is not cut off inside a conversion is made of pieces in exactly
one way, and `printf` comes to its end at the NUL having written what these pieces become, in order, and having taken
one word for each conversion that needs one. -/
theorem printf_formats {env : Env} {fmt : List UInt8} (hfmt : ∀ i ≤ fmt.length, env.format i = ofList fmt i)
    (h0 : 0 ∉ fmt) (hopen : ¬ EndsOpen fmt) (hargs : ∀ i, env.arg i < 2 ^ 32) :
    ∃ ps, ((∀ p ∈ ps, p.WellFormed) ∧ spell ps = fmt ∧ ∀ qs, (∀ q ∈ qs, q.WellFormed) → spell qs = fmt → qs = ps) ∧
      Ends env ⟨.text, fmt.length, words ps, render env 0 ps⟩ := by
  obtain ⟨ps, hps, rfl⟩ := exists_pieces _ (le_refl _) h0 hopen
  exact ⟨ps, ⟨hps, rfl, fun qs hqs he => spell_injective hqs hps he⟩, ends_of_pieces hps hfmt hargs⟩

/-- `printf("%#x: %c%%\n", 0xE, 'A')`. -/
theorem printf_formats_colon : ∃ ps,
    spell ps = [37, 35, 120, 58, 32, 37, 99, 37, 37, 10] ∧
      Ends ⟨ofList [37, 35, 120, 58, 32, 37, 99, 37, 37, 10], fun i => if i = 0 then 0xE else 65, fun _ => [],
          fun _ => 0⟩
        ⟨.text, 10, 2, [48, 48, 48, 48, 48, 48, 48, 69, 58, 32, 65, 37, 10]⟩ := by
  have hargs : ∀ i, (if i = 0 then 0xE else 65) < 2 ^ 32 := by
    intro i
    split_ifs
    · decide
    · decide
  obtain ⟨ps, ⟨-, hspell, hunique⟩, hends⟩ := @printf_formats
    ⟨ofList [37, 35, 120, 58, 32, 37, 99, 37, 37, 10], fun i => if i = 0 then 0xE else 65, fun _ => [], fun _ => 0⟩
    _ (fun _ _ => rfl) (by decide) (by decide) hargs
  have hps : [Piece.conversion 1 120, .literal 58, .literal 32, .conversion 0 99, .conversion 0 37, .literal 10] = ps :=
    hunique _ (by decide) rfl
  have hnumeral : numeral 16 0xE = [69] := by simp [numeral, write, places, itoaLookup]
  subst hps
  refine ⟨_, hspell, ?_⟩
  simpa [words, Piece.words, render, Piece.render, letterText, hnumeral, List.replicate] using hends

end BasicOs
