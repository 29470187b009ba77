import BasicOs.Process

/-!
# The command line

STEP 1 of `sys_execute` splits the command with four loops that share one 8-bit index and have no other bound. Here
they are a machine that takes one round at a time, with a record of the indices at which it writes to its arrays.

* `Parse.step` : a round; `Parse.start` : the state in which the loops are entered;
* `firstWord`, `afterWord` : the parts of a command;
* `Parse.leads_final` : on a string of at most 255 bytes the machine stops with these in its arrays;
* `Parse.runs_on` : on a longer one it does not stop;
* `parseCommand_eq` : `parseCommand` is what the machine computes.
-/

namespace BasicOs
open Bytes Run

namespace Parse

/-! ## The machine -/

/-- Which of the four loops is running. -/
inductive Phase
  | leading
  | word
  | gap
  | rest
  | done
  deriving DecidableEq

/-- `cmd` or `args` with its index, and the indices written so far. -/
structure Out where
  data : Nat → UInt8
  idx : Nat
  written : List Nat

/-- `out[out_idx++] = c`. -/
def Out.push (o : Out) (c : UInt8) : Out where
  data := Function.update o.data o.idx c
  idx := (o.idx + 1) % 256
  written := o.written ++ [o.idx]

structure State where
  phase : Phase
  idx : Nat
  cmd : Out
  args : Out

/-- The arrays are cleared before the loops. -/
def start : State where
  phase := .leading
  idx := 0
  cmd := { data := fun _ => 0, idx := 0, written := [] }
  args := { data := fun _ => 0, idx := 0, written := [] }

/-- A round of the loop that is running, or the way on to the next one. -/
def step (command : Nat → UInt8) (s : State) : State :=
  let c := command s.idx
  let next := (s.idx + 1) % 256
  match s.phase with
  | .leading => if c = chSpace then { s with idx := next } else { s with phase := .word }
  | .word =>
    if c ≠ chSpace ∧ c ≠ 0 then { s with idx := next, cmd := s.cmd.push c } else { s with phase := .gap }
  | .gap => if c = chSpace then { s with idx := next } else { s with phase := .rest }
  | .rest => if c ≠ 0 then { s with idx := next, args := s.args.push c } else { s with phase := .done }
  | .done => s

/-- An array that holds a string, and nothing else. -/
def Out.holding (l : List UInt8) : Out where
  data := ofList l
  idx := l.length % 256
  written := List.range l.length

theorem holding_nil : Out.holding [] = { data := fun _ => 0, idx := 0, written := [] } := by
  rw [Out.holding]
  congr

theorem Out.push_holding {l : List UInt8} (h : l.length < 256) (c : UInt8) :
    (Out.holding l).push c = Out.holding (l ++ [c]) := by
  unfold push holding
  congr 1
  · funext i
    rw [Function.update_apply, Nat.mod_eq_of_lt h]
    simp only [ofList, List.getD_eq_getElem?_getD]
    split_ifs with hi
    · rw [hi, List.getElem?_concat_length]
      rfl
    · rcases Nat.lt_or_gt_of_ne hi with hlt | hgt
      · rw [List.getElem?_append_left hlt]
      · rw [List.getElem?_eq_none (by omega), List.getElem?_eq_none (by simp; omega)]
  · rw [List.length_append, List.length_singleton, Nat.mod_add_mod]
  · rw [Nat.mod_eq_of_lt h, List.length_append, List.length_singleton, List.range_succ]

/-! ## The loops -/

/-- The bytes of `command` from `i` on start with `t`. -/
def Spells (command : Nat → UInt8) : Nat → List UInt8 → Prop
  | _, [] => True
  | i, c :: t => command i = c ∧ Spells command (i + 1) t

theorem spells_append {command : Nat → UInt8} (t u : List UInt8) : ∀ {i : Nat},
    Spells command i (t ++ u) ↔ Spells command i t ∧ Spells command (i + t.length) u := by
  induction t with
  | nil =>
    intro i
    simp [Spells]
  | cons c t ih =>
    intro i
    rw [List.cons_append, Spells, Spells, ih, List.length_cons, and_assoc, Nat.add_right_comm, Nat.add_assoc]

theorem spells_bytesAt (command : Nat → UInt8) (n : Nat) :
    ∀ i, Spells command i (bytesAt (fun j => command (i + j)) n) := by
  induction n with
  | zero =>
    intro i
    trivial
  | succ n ih =>
    intro i
    rw [bytesAt_succ]
    refine ⟨rfl, ?_⟩
    have h := ih (i + 1)
    simp only [Nat.add_assoc, Nat.add_comm 1] at h ⊢
    exact h

/-- What the loops see next. -/
theorem Spells.head {command : Nat → UInt8} {i : Nat} {t : List UInt8} (h : Spells command i t)
    (hend : command (i + t.length) = 0) : command i = t.headD 0 := by
  cases t with
  | nil => exact hend
  | cons c t => exact h.1

section Loops
variable {command : Nat → UInt8}

/-- A loop that skips spaces. -/
theorem leads_skip {phase : Phase} (hphase : phase = .leading ∨ phase = .gap) (cmd args : Out) (t : List UInt8) :
    ∀ {i : Nat}, Spells command i t → (∀ c ∈ t, c = chSpace) → i + t.length < 256 →
      Leads (step command) ⟨phase, i, cmd, args⟩ ⟨phase, i + t.length, cmd, args⟩ := by
  induction t with
  | nil =>
    intro i _ _ _
    exact Leads.refl _ _
  | cons c t ih =>
    intro i hspells hspace hlt
    rw [List.length_cons] at hlt ⊢
    have hc : command i = chSpace := hspells.1.trans (hspace c List.mem_cons_self)
    have hstep : step command ⟨phase, i, cmd, args⟩ = ⟨phase, i + 1, cmd, args⟩ := by
      unfold step
      rcases hphase with rfl | rfl <;> simp only [hc, if_true] <;> rw [Nat.mod_eq_of_lt (by omega)]
    apply Leads.head
    rw [hstep, show i + (t.length + 1) = i + 1 + t.length by omega]
    exact ih hspells.2 (fun d hd => hspace d (List.mem_cons_of_mem c hd)) (by omega)

/-- A loop that copies into an array that holds `l`. -/
theorem leads_copy {f : Nat → Out → State} {copies : UInt8 → Prop}
    (hround : ∀ i o, copies (command i) → step command (f i o) = f ((i + 1) % 256) (o.push (command i)))
    (t : List UInt8) : ∀ {i : Nat} {l : List UInt8}, Spells command i t → (∀ c ∈ t, copies c) → l.length ≤ i →
      i + t.length < 256 → Leads (step command) (f i (.holding l)) (f (i + t.length) (.holding (l ++ t))) := by
  induction t with
  | nil =>
    intro i l _ _ _ _
    rw [List.append_nil]
    exact Leads.refl _ _
  | cons c t ih =>
    intro i l hspells hcopies hle hlt
    rw [List.length_cons] at hlt ⊢
    have hc : copies (command i) := by
      rw [hspells.1]
      exact hcopies c List.mem_cons_self
    have hstep : step command (f i (.holding l)) = f (i + 1) (.holding (l ++ [c])) := by
      rw [hround i _ hc, Nat.mod_eq_of_lt (by omega), hspells.1, Out.push_holding (by omega)]
    apply Leads.head
    rw [hstep, show i + (t.length + 1) = i + 1 + t.length by omega, show l ++ c :: t = l ++ [c] ++ t by simp]
    exact ih hspells.2 (fun d hd => hcopies d (List.mem_cons_of_mem c hd)) (by simp; omega) (by omega)

/-- The loop that copies the first word. -/
theorem leads_word (args : Out) {t : List UInt8} {i : Nat} (hspells : Spells command i t)
    (hword : ∀ c ∈ t, c ≠ chSpace ∧ c ≠ 0) (hlt : i + t.length < 256) :
    Leads (step command) ⟨.word, i, .holding [], args⟩ ⟨.word, i + t.length, .holding t, args⟩ := by
  have hround : ∀ i o, command i ≠ chSpace ∧ command i ≠ 0 →
      step command ⟨.word, i, o, args⟩ = ⟨.word, (i + 1) % 256, o.push (command i), args⟩ := by
    intro i o hc
    exact if_pos hc
  exact leads_copy (f := fun i o => ⟨.word, i, o, args⟩) hround t hspells hword (Nat.zero_le i) hlt

/-- The loop that copies the arguments. -/
theorem leads_rest (cmd : Out) {t : List UInt8} {i : Nat} (hspells : Spells command i t)
    (hrest : ∀ c ∈ t, c ≠ 0) (hlt : i + t.length < 256) :
    Leads (step command) ⟨.rest, i, cmd, .holding []⟩ ⟨.rest, i + t.length, cmd, .holding t⟩ := by
  have hround : ∀ i o, command i ≠ 0 →
      step command ⟨.rest, i, cmd, o⟩ = ⟨.rest, (i + 1) % 256, cmd, o.push (command i)⟩ := by
    intro i o hc
    exact if_pos hc
  exact leads_copy (f := fun i o => ⟨.rest, i, cmd, o⟩) hround t hspells hrest (Nat.zero_le i) hlt

/-- The ends of the loops. -/
theorem step_word {i : Nat} (cmd args : Out) (h : command i ≠ chSpace) :
    step command ⟨.leading, i, cmd, args⟩ = ⟨.word, i, cmd, args⟩ := if_neg h

theorem step_gap {i : Nat} (cmd args : Out) (h : command i = chSpace ∨ command i = 0) :
    step command ⟨.word, i, cmd, args⟩ = ⟨.gap, i, cmd, args⟩ := by
  apply if_neg
  tauto

theorem step_rest {i : Nat} (cmd args : Out) (h : command i ≠ chSpace) :
    step command ⟨.gap, i, cmd, args⟩ = ⟨.rest, i, cmd, args⟩ := if_neg h

theorem step_done {i : Nat} (cmd args : Out) (h : command i = 0) :
    step command ⟨.rest, i, cmd, args⟩ = ⟨.done, i, cmd, args⟩ := if_neg (not_not.mpr h)

end Loops

end Parse

/-! ## The parts of a command -/

def isSpace (c : UInt8) : Bool := c == chSpace

/-- The first word of a command. -/
def firstWord (s : List UInt8) : List UInt8 := (s.dropWhile isSpace).takeWhile fun c => !isSpace c

/-- The spaces after it. -/
def gapAfter (s : List UInt8) : List UInt8 :=
  ((s.dropWhile isSpace).dropWhile fun c => !isSpace c).takeWhile isSpace

/-- The rest of the command. -/
def afterWord (s : List UInt8) : List UInt8 :=
  ((s.dropWhile isSpace).dropWhile fun c => !isSpace c).dropWhile isSpace

theorem command_split (s : List UInt8) :
    s = s.takeWhile isSpace ++ (firstWord s ++ (gapAfter s ++ afterWord s)) := by
  unfold firstWord gapAfter afterWord
  rw [List.takeWhile_append_dropWhile, List.takeWhile_append_dropWhile, List.takeWhile_append_dropWhile]

theorem eq_space_of_mem_takeWhile {s : List UInt8} {c : UInt8} (h : c ∈ s.takeWhile isSpace) : c = chSpace := by
  simpa [isSpace] using List.mem_takeWhile_imp h

theorem headD_dropWhile_ne_space (s : List UInt8) : (s.dropWhile isSpace).headD 0 ≠ chSpace := by
  induction s with
  | nil => decide
  | cons c s ih =>
    rw [List.dropWhile_cons]
    split_ifs with hc
    · exact ih
    · simpa [isSpace] using hc

theorem headD_dropWhile_word (s : List UInt8) : (s.dropWhile fun c => !isSpace c).headD 0 = chSpace ∨
    (s.dropWhile fun c => !isSpace c).headD 0 = 0 := by
  induction s with
  | nil => exact Or.inr rfl
  | cons c s ih =>
    rw [List.dropWhile_cons]
    split_ifs with hc
    · exact ih
    · left
      simpa [isSpace] using hc

/-- There are no arguments without a space before them. -/
theorem afterWord_eq_nil {s : List UInt8} (h : gapAfter s = []) : afterWord s = [] := by
  unfold gapAfter at h
  unfold afterWord
  generalize s.dropWhile isSpace = t at h ⊢
  induction t with
  | nil => rfl
  | cons c t ih =>
    by_cases hc : isSpace c = true
    · rw [List.dropWhile_cons_of_neg (by simp [hc]), List.takeWhile_cons_of_pos hc] at h
      cases h
    · rw [List.dropWhile_cons_of_pos (by simp [hc])] at h ⊢
      exact ih h

/-! ## The loops on a string -/

/-- A string of `n` bytes at `command`. -/
def IsString (command : Nat → UInt8) (n : Nat) : Prop := (∀ i < n, command i ≠ 0) ∧ command n = 0

theorem isString_ofList {l : List UInt8} (h : 0 ∉ l) : IsString (ofList l) l.length := by
  constructor
  · intro i hi h0
    simp only [ofList, List.getD_eq_getElem?_getD, List.getElem?_eq_getElem hi, Option.getD_some] at h0
    exact h (h0 ▸ List.getElem_mem hi)
  · simp [ofList]

namespace Parse

/-- The string at `command` by its parts, and what stands at the end of each. -/
structure Parts (command : Nat → UInt8) (lead word gap rest : List UInt8) : Prop where
  lead_spells : Spells command 0 lead
  word_spells : Spells command lead.length word
  gap_spells : Spells command (lead.length + word.length) gap
  rest_spells : Spells command (lead.length + word.length + gap.length) rest
  lead_space : ∀ c ∈ lead, c = chSpace
  word_ne : ∀ c ∈ word, c ≠ chSpace ∧ c ≠ 0
  gap_space : ∀ c ∈ gap, c = chSpace
  rest_ne : ∀ c ∈ rest, c ≠ 0
  lead_end : command lead.length ≠ chSpace
  word_end : command (lead.length + word.length) = chSpace ∨ command (lead.length + word.length) = 0
  gap_end : command (lead.length + word.length + gap.length) ≠ chSpace
  rest_end : command (lead.length + word.length + gap.length + rest.length) = 0

theorem parts_length (s : List UInt8) : (s.takeWhile isSpace).length + (firstWord s).length +
    (gapAfter s).length + (afterWord s).length = s.length := by
  have h := congrArg List.length (command_split s)
  simp only [List.length_append] at h
  omega

/-- Every string has its parts. -/
theorem parts_of_isString {command : Nat → UInt8} {n : Nat} (h : IsString command n) :
    let s := bytesAt command n
    Parts command (s.takeWhile isSpace) (firstWord s) (gapAfter s) (afterWord s) := by
  intro s
  have hlength : s.length = n := by simp [s, bytesAt]
  have hsum := parts_length s
  have hne : ∀ c ∈ s, c ≠ 0 := by
    intro c hc
    obtain ⟨i, hi, rfl⟩ := List.mem_map.mp hc
    exact h.1 i (List.mem_range.mp hi)
  have hspells : Spells command 0 s := by
    have := spells_bytesAt command n 0
    simpa only [Nat.zero_add] using this
  rw [command_split s] at hspells hne
  obtain ⟨hs₁, hspells₁⟩ := (spells_append _ _).mp hspells
  obtain ⟨hs₂, hspells₂⟩ := (spells_append _ _).mp hspells₁
  obtain ⟨hs₃, hs₄⟩ := (spells_append _ _).mp hspells₂
  rw [Nat.zero_add] at hs₂ hs₃ hs₄ hspells₁ hspells₂
  have hlast : ∀ m, m = s.length → command m = 0 := by
    rintro m rfl
    rw [hlength]
    exact h.2
  refine ⟨hs₁, hs₂, hs₃, hs₄, fun c hc => eq_space_of_mem_takeWhile hc, ?_,
    fun c hc => eq_space_of_mem_takeWhile hc, ?_, ?_, ?_, ?_, hlast _ hsum⟩
  · intro c hc
    refine ⟨?_, hne c (by simp [hc])⟩
    simpa [isSpace] using List.mem_takeWhile_imp hc
  · intro c hc
    exact hne c (by simp [hc])
  · rw [hspells₁.head (hlast _ (by simp only [List.length_append]; omega))]
    unfold firstWord gapAfter afterWord
    rw [List.takeWhile_append_dropWhile, List.takeWhile_append_dropWhile]
    exact headD_dropWhile_ne_space s
  · rw [hspells₂.head (hlast _ (by simp only [List.length_append]; omega))]
    unfold gapAfter afterWord
    rw [List.takeWhile_append_dropWhile]
    exact headD_dropWhile_word _
  · rw [hs₄.head (hlast _ hsum)]
    exact headD_dropWhile_ne_space _

section Run
variable {command : Nat → UInt8} {lead word gap rest : List UInt8} (h : Parts command lead word gap rest)
  (hlen : lead.length + word.length + gap.length + rest.length < 256)
include h hlen

/-- The machine goes through the four loops and stops, with two of the parts in its arrays. -/
theorem Parts.leads : Leads (step command) start
    ⟨.done, lead.length + word.length + gap.length + rest.length, .holding word, .holding rest⟩ := by
  have hstart : start = ⟨.leading, 0, .holding [], .holding []⟩ := by
    rw [start, holding_nil]
  have hrun₁ := leads_skip (Or.inl rfl) (.holding []) (.holding []) lead h.lead_spells h.lead_space (by omega)
  rw [Nat.zero_add] at hrun₁
  have hrun₂ := leads_word (.holding []) h.word_spells h.word_ne (by omega)
  have hrun₃ := leads_skip (Or.inr rfl) (.holding word) (.holding []) gap h.gap_spells h.gap_space (by omega)
  have hrun₄ := leads_rest (.holding word) h.rest_spells h.rest_ne hlen
  rw [hstart]
  apply hrun₁.trans
  apply Leads.head
  rw [step_word _ _ h.lead_end]
  apply hrun₂.trans
  apply Leads.head
  rw [step_gap _ _ h.word_end]
  apply hrun₃.trans
  apply Leads.head
  rw [step_rest _ _ h.gap_end]
  apply hrun₄.trans
  apply Leads.head
  rw [step_done _ _ h.rest_end]
  exact Leads.refl _ _

end Run

/-! ## `parseCommand` -/

theorem skipSpaces_eq {command : Nat → UInt8} (t : List UInt8) : ∀ {i fuel : Nat}, Spells command i t →
    (∀ c ∈ t, c = chSpace) → command (i + t.length) ≠ chSpace → i + t.length < 256 → t.length < fuel →
      skipSpaces command fuel i = some (i + t.length) := by
  induction t with
  | nil =>
    intro i fuel _ _ hend _ hfuel
    obtain ⟨fuel, rfl⟩ : ∃ f, fuel = f + 1 := ⟨fuel - 1, by simp at hfuel; omega⟩
    rw [skipSpaces]
    exact if_neg hend
  | cons c t ih =>
    intro i fuel hspells hspace hend hlt hfuel
    rw [List.length_cons] at hend hlt hfuel ⊢
    obtain ⟨fuel, rfl⟩ : ∃ f, fuel = f + 1 := ⟨fuel - 1, by omega⟩
    rw [show i + (t.length + 1) = i + 1 + t.length by omega] at hend hlt ⊢
    rw [skipSpaces, if_pos (hspells.1.trans (hspace c List.mem_cons_self)), Nat.mod_eq_of_lt (by omega)]
    exact ih hspells.2 (fun d hd => hspace d (List.mem_cons_of_mem c hd)) hend hlt (by omega)

theorem copyWord_eq {command : Nat → UInt8} {stop : UInt8 → Bool} (t : List UInt8) : ∀ {i room : Nat},
    Spells command i t → (∀ c ∈ t, stop c = false) → stop (command (i + t.length)) = true → i + t.length < 256 →
      t.length ≤ room → copyWord command stop room i = some (t, i + t.length) := by
  induction t with
  | nil =>
    intro i room _ _ hend _ _
    cases room with
    | zero => exact if_pos hend
    | succ room => exact if_pos hend
  | cons c t ih =>
    intro i room hspells hstop hend hlt hroom
    rw [List.length_cons] at hend hlt hroom ⊢
    obtain ⟨room, rfl⟩ : ∃ r, room = r + 1 := ⟨room - 1, by omega⟩
    have hc : ¬ stop (command i) = true := by
      rw [hspells.1, hstop c List.mem_cons_self]
      decide
    rw [show i + (t.length + 1) = i + 1 + t.length by omega] at hend hlt ⊢
    rw [copyWord, if_neg hc, Nat.mod_eq_of_lt (by omega),
      ih hspells.2 (fun d hd => hstop d (List.mem_cons_of_mem c hd)) hend hlt (by omega), Option.map_some, hspells.1]

/-- `parseCommand` computes what the machine leaves in its arrays. -/
theorem Parts.parseCommand_eq {command : Nat → UInt8} {lead word gap rest : List UInt8}
    (h : Parts command lead word gap rest) (hlen : lead.length + word.length + gap.length + rest.length < 256)
    (hword : word.length ≤ maxCmdLength) (hrest : rest.length ≤ maxArgsLength) :
    parseCommand command = some (word, rest) := by
  have hlead : skipSpaces command 256 0 = some lead.length := by
    have := skipSpaces_eq lead h.lead_spells h.lead_space (by rw [Nat.zero_add]; exact h.lead_end) (by omega)
      (show lead.length < 256 by omega)
    rwa [Nat.zero_add] at this
  have hcmd : copyWord command (fun c => c == chSpace || c == 0) maxCmdLength lead.length =
      some (word, lead.length + word.length) := by
    apply copyWord_eq word h.word_spells ?_ (by simpa using h.word_end) (by omega) hword
    intro c hc
    simpa using h.word_ne c hc
  have hgap : skipSpaces command 256 (lead.length + word.length) = some (lead.length + word.length + gap.length) :=
    skipSpaces_eq gap h.gap_spells h.gap_space h.gap_end (by omega) (by omega)
  have hargs : copyWord command (· == 0) maxArgsLength (lead.length + word.length + gap.length) =
      some (rest, lead.length + word.length + gap.length + rest.length) := by
    apply copyWord_eq rest h.rest_spells ?_ (by simpa using h.rest_end) hlen hrest
    intro c hc
    simpa using h.rest_ne c hc
  simp only [parseCommand, hlead, hcmd, hgap, hargs, Option.bind_eq_bind, Option.bind_some]

/-! ## Bounds and termination -/

/-- A round moves the index on, past a byte that is not NUL, or ends a loop; the last one ends at a NUL. -/
theorem step_cases (command : Nat → UInt8) (t : State) :
    ((step command t).idx = t.idx ∧ ((step command t).phase = .done → t.phase = .done ∨ command t.idx = 0)) ∨
      ((step command t).idx = (t.idx + 1) % 256 ∧ (step command t).phase = t.phase ∧ command t.idx ≠ 0) := by
  have hspace : command t.idx = chSpace → command t.idx ≠ 0 := by
    intro hc
    rw [hc]
    decide
  unfold step
  dsimp only
  split
  · split_ifs with hc
    · exact Or.inr ⟨rfl, rfl, hspace hc⟩
    · exact Or.inl ⟨rfl, fun h => by cases h⟩
  · split_ifs with hc
    · exact Or.inr ⟨rfl, rfl, hc.2⟩
    · exact Or.inl ⟨rfl, fun h => by cases h⟩
  · split_ifs with hc
    · exact Or.inr ⟨rfl, rfl, hspace hc⟩
    · exact Or.inl ⟨rfl, fun h => by cases h⟩
  · split_ifs with hc
    · exact Or.inr ⟨rfl, rfl, hc⟩
    · exact Or.inl ⟨rfl, fun _ => Or.inr (not_not.mp hc)⟩
  · exact Or.inl ⟨rfl, fun h => Or.inl h⟩

/-- The index stays within a string that it can reach the end of. -/
theorem idx_le {command : Nat → UInt8} {n : Nat} (h : IsString command n) (hn : n < 256) {t : State}
    (hrun : Leads (step command) start t) : t.idx ≤ n := by
  apply hrun.invariant (I := fun t => t.idx ≤ n) (Nat.zero_le n)
  intro t ht
  rcases step_cases command t with ⟨hidx, -⟩ | ⟨hidx, -, hne⟩
  · rw [hidx]
    exact ht
  · have hlt : t.idx < n := by
      apply lt_of_le_of_ne ht
      intro he
      rw [he] at hne
      exact hne h.2
    rw [hidx, Nat.mod_eq_of_lt (by omega)]
    exact hlt

/-- On a longer string the index never gets to the NUL, and the machine does not stop. -/
theorem runs_on {command : Nat → UInt8} {n : Nat} (h : IsString command n) (hn : 256 ≤ n) {t : State}
    (hrun : Leads (step command) start t) : t.phase ≠ .done := by
  have hinv : t.idx < 256 ∧ t.phase ≠ .done := by
    apply hrun.invariant (I := fun t => t.idx < 256 ∧ t.phase ≠ .done)
    · exact ⟨by decide, by decide⟩
    · rintro t ⟨hidx, hphase⟩
      rcases step_cases command t with ⟨hstep, hdone⟩ | ⟨hstep, hsame, -⟩
      · refine ⟨by omega, fun he => ?_⟩
        rcases hdone he with h' | h'
        · exact hphase h'
        · exact h.1 t.idx (by omega) h'
      · rw [hstep, hsame]
        exact ⟨Nat.mod_lt _ (by decide), hphase⟩
  exact hinv.2

/-- The loops end, write to the arrays at their own indices only, and leave a NUL in each. -/
def Safe (command : Nat → UInt8) : Prop :=
  ∃ t, Leads (step command) start t ∧ t.phase = .done ∧
    ((∀ i ∈ t.cmd.written, i < maxCmdLength) ∧ ∃ i < maxCmdLength, t.cmd.data i = 0) ∧
    (∀ i ∈ t.args.written, i < maxArgsLength) ∧ ∃ i < maxArgsLength, t.args.data i = 0

/-- An array of 127 bytes has room for 126 and a NUL. -/
theorem holding_fits_iff {l : List UInt8} (hne : ∀ c ∈ l, c ≠ 0) (size : Nat) :
    ((∀ i ∈ (Out.holding l).written, i < size) ∧ ∃ i < size, (Out.holding l).data i = 0) ↔ l.length < size := by
  simp only [Out.holding, List.mem_range]
  constructor
  · rintro ⟨-, i, hi, h0⟩
    by_contra hge
    have hlt : i < l.length := by omega
    have hmem := hne l[i] (List.getElem_mem hlt)
    simp only [ofList, List.getD_eq_getElem?_getD, List.getElem?_eq_getElem hlt, Option.getD_some] at h0
    exact hmem h0
  · intro hlt
    refine ⟨fun i hi => by omega, l.length, hlt, ?_⟩
    simp [ofList]

end Parse

/-- A command fits: both parts leave room for a NUL in their arrays. -/
def CommandFits (s : List UInt8) : Prop :=
  (firstWord s).length < maxCmdLength ∧ (afterWord s).length < maxArgsLength

/-- The loops are safe exactly on strings that fit and whose end the index can reach. -/
theorem Parse.safe_iff {command : Nat → UInt8} {n : Nat} (h : IsString command n) :
    Parse.Safe command ↔ n ≤ 255 ∧ CommandFits (bytesAt command n) := by
  by_cases hn : n ≤ 255
  · have hparts := Parse.parts_of_isString h
    dsimp only at hparts
    have hlen := Parse.parts_length (bytesAt command n)
    rw [show (bytesAt command n).length = n by simp [bytesAt]] at hlen
    have hrun := hparts.leads (by omega)
    have hword : ∀ c ∈ firstWord (bytesAt command n), c ≠ 0 := fun c hc => (hparts.word_ne c hc).2
    have hfits : CommandFits (bytesAt command n) ↔
        ((∀ i ∈ (Parse.Out.holding (firstWord (bytesAt command n))).written, i < maxCmdLength) ∧
          ∃ i < maxCmdLength, (Parse.Out.holding (firstWord (bytesAt command n))).data i = 0) ∧
        (∀ i ∈ (Parse.Out.holding (afterWord (bytesAt command n))).written, i < maxArgsLength) ∧
          ∃ i < maxArgsLength, (Parse.Out.holding (afterWord (bytesAt command n))).data i = 0 := by
      rw [Parse.holding_fits_iff hword, Parse.holding_fits_iff hparts.rest_ne]
      rfl
    rw [hfits]
    constructor
    · rintro ⟨t, ht, hdone, hsafe⟩
      -- the run has one end
      have hfix : Parse.step command t = t := by
        unfold Parse.step
        rw [hdone]
      obtain rfl := ht.unique hrun hfix rfl
      exact ⟨hn, hsafe⟩
    · rintro ⟨-, hsafe⟩
      exact ⟨_, hrun, rfl, hsafe⟩
  · constructor
    · rintro ⟨t, ht, hdone, -⟩
      exact absurd hdone (Parse.runs_on h (by omega) ht)
    · rintro ⟨hle, -⟩
      exact absurd hle hn

/-! ## Splitting -/

theorem chSpace_notMem_firstWord (s : List UInt8) : chSpace ∉ firstWord s := by
  intro h
  have := List.mem_takeWhile_imp h
  simp [isSpace] at this

theorem head?_afterWord (s : List UInt8) : (afterWord s).head? ≠ some chSpace := by
  intro h
  have := headD_dropWhile_ne_space ((s.dropWhile isSpace).dropWhile fun c => !isSpace c)
  rw [List.headD_eq_head?_getD, show List.head? (List.dropWhile isSpace _) = some chSpace from h] at this
  exact this rfl

theorem takeWhile_isSpace (s : List UInt8) :
    s.takeWhile isSpace = List.replicate (s.takeWhile isSpace).length chSpace :=
  List.eq_replicate_of_mem fun _ hc => eq_space_of_mem_takeWhile hc

theorem firstWord_length_le (s : List UInt8) : (firstWord s).length ≤ s.length := by
  have := Parse.parts_length s
  omega

theorem afterWord_length_le (s : List UInt8) : (afterWord s).length ≤ s.length := by
  have := Parse.parts_length s
  omega

/-- The string an array holds. -/
theorem Parse.cstr_holding {l : List UInt8} (hne : ∀ c ∈ l, c ≠ 0) {size : Nat} (hlt : l.length ≤ size) :
    cstr (bytesAt (Parse.Out.holding l).data size) = l := by
  rw [Parse.Out.holding, cstr_bytesAt_ofList, cstr_eq_self fun h0 => hne 0 h0 rfl, List.take_of_length_le hlt]

/-- A command of at most 126 bytes fits, whatever it is split into. -/
theorem commandFits_of_length {s : List UInt8} (h : s.length ≤ 126) : CommandFits s := by
  have hword := firstWord_length_le s
  have hrest := afterWord_length_le s
  unfold CommandFits maxCmdLength maxArgsLength
  omega

theorem parseCommand_of_isString {command : Nat → UInt8} {n : Nat} (h : IsString command n) (hn : n ≤ 126) :
    parseCommand command = some (firstWord (bytesAt command n), afterWord (bytesAt command n)) := by
  have hparts := Parse.parts_of_isString h
  dsimp only at hparts
  have hlength : (bytesAt command n).length = n := by simp [bytesAt]
  have hsum := Parse.parts_length (bytesAt command n)
  obtain ⟨hcmd, hargs⟩ := commandFits_of_length (s := bytesAt command n) (by omega)
  exact hparts.parseCommand_eq (by omega) hcmd.le hargs.le

/-- **Command splitting.** A command of at most 126 bytes is split into its first word and the rest of the line: the
loops end with these in the two arrays, NUL-terminated, write to no other place, and read no byte past the command. -/
theorem command_splits {command : Nat → UInt8} {n : Nat} (h : IsString command n) (hn : n ≤ 126) :
    ∃ (cmd args : List UInt8) (a b : Nat), parseCommand command = some (cmd, args) ∧
      bytesAt command n = List.replicate a chSpace ++ cmd ++ List.replicate b chSpace ++ args ∧
      chSpace ∉ cmd ∧ args.head? ≠ some chSpace ∧ (b = 0 → args = []) ∧
      (∃ t, Leads (Parse.step command) Parse.start t ∧ t.phase = .done ∧
        cstr (bytesAt t.cmd.data maxCmdLength) = cmd ∧ cstr (bytesAt t.args.data maxArgsLength) = args ∧
        ((∀ i ∈ t.cmd.written, i < maxCmdLength) ∧ ∃ i < maxCmdLength, t.cmd.data i = 0) ∧
        (∀ i ∈ t.args.written, i < maxArgsLength) ∧ ∃ i < maxArgsLength, t.args.data i = 0) ∧
      ∀ t, Leads (Parse.step command) Parse.start t → t.idx ≤ n := by
  have hparse := parseCommand_of_isString h hn
  have hparts := Parse.parts_of_isString h
  dsimp only at hparts
  have hlength : (bytesAt command n).length = n := by simp [bytesAt]
  have hread : ∀ t, Leads (Parse.step command) Parse.start t → t.idx ≤ n := fun t ht => Parse.idx_le h (by omega) ht
  generalize bytesAt command n = s at hparse hparts hlength ⊢
  have hsum := Parse.parts_length s
  obtain ⟨hcmd, hargs⟩ := commandFits_of_length (s := s) (by omega)
  have hword : ∀ c ∈ firstWord s, c ≠ 0 := fun c hc => (hparts.word_ne c hc).2
  refine ⟨firstWord s, afterWord s, (s.takeWhile isSpace).length, (gapAfter s).length, hparse, ?_,
    chSpace_notMem_firstWord s, head?_afterWord s, ?_, ?_, hread⟩
  · rw [← takeWhile_isSpace, gapAfter, ← takeWhile_isSpace, ← gapAfter, List.append_assoc, List.append_assoc]
    exact command_split s
  · intro hb
    exact afterWord_eq_nil (List.length_eq_zero_iff.mp hb)
  · exact ⟨_, hparts.leads (by omega), rfl, Parse.cstr_holding hword hcmd.le,
      Parse.cstr_holding hparts.rest_ne hargs.le, (Parse.holding_fits_iff hword _).mpr hcmd,
      (Parse.holding_fits_iff hparts.rest_ne _).mpr hargs⟩

/-- The command ` cat  f `, with its spaces. -/
def spacedCommand : Nat → UInt8 := ofList [32, 99, 97, 116, 32, 32, 102, 32]

theorem command_splits_cat : IsString spacedCommand 8 ∧ 8 ≤ 126 ∧
    parseCommand spacedCommand = some ([99, 97, 116], [102, 32]) ∧
    ∃ (cmd args : List UInt8) (a b : Nat), parseCommand spacedCommand = some (cmd, args) ∧
      bytesAt spacedCommand 8 = List.replicate a chSpace ++ cmd ++ List.replicate b chSpace ++ args ∧
        chSpace ∉ cmd := by
  have hstring : IsString spacedCommand 8 := isString_ofList (by decide)
  obtain ⟨cmd, args, a, b, hparse, hsplit, hspace, -⟩ := command_splits hstring (by decide)
  exact ⟨hstring, by decide, by decide +kernel, cmd, args, a, b, hparse, hsplit, hspace⟩

/-! ## Commands of any length -/

/-- A call of `sys_execute` is safe for its command: unless the command is an empty line, the loops are; and a command
that does not fit is rejected with `-1`, without a change. -/
def CommandSafe (k : Kernel) (command : Nat → UInt8) (n : Nat) (r : Regs) (stale : Nat → UInt8) : Prop :=
  (command 0 ≠ chNewline → Parse.Safe command) ∧
    (¬ CommandFits (bytesAt command n) → sysExecute k (some command) r stale = .ret k (-1))

/-- **Commands of any length.** A call is safe exactly if both parts of the command leave room for a NUL in their
arrays and the 8-bit index can reach its end, unless the command is an empty line. -/
theorem command_safe_iff (k : Kernel) {command : Nat → UInt8} {n : Nat} (h : IsString command n) (r : Regs)
    (stale : Nat → UInt8) :
    CommandSafe k command n r stale ↔ (command 0 = chNewline ∨ n ≤ 255) ∧ CommandFits (bytesAt command n) := by
  unfold CommandSafe
  rw [Parse.safe_iff h]
  by_cases hnl : command 0 = chNewline
  · have hret : sysExecute k (some command) r stale = .ret k 0 := if_pos hnl
    constructor
    · rintro ⟨-, hreject⟩
      refine ⟨Or.inl hnl, ?_⟩
      by_contra hfits
      have := hreject hfits
      rw [hret, ExecuteResult.ret.injEq] at this
      exact absurd this.2 (by decide)
    · rintro ⟨-, hfits⟩
      exact ⟨fun h => absurd hnl h, fun h => absurd hfits h⟩
  · constructor
    · rintro ⟨hsafe, -⟩
      exact ⟨Or.inr (hsafe hnl).1, (hsafe hnl).2⟩
    · rintro ⟨hn, hfits⟩
      exact ⟨fun _ => ⟨hn.resolve_left hnl, hfits⟩, fun h => absurd hfits h⟩

/-- `shell`. -/
theorem command_safe_iff_shell : IsString shellCommand 5 ∧
    CommandSafe (Kernel.atLoad FileSystem.shellImage) shellCommand 5 ⟨0, 0⟩ fun _ => 0 := by
  have hstring : IsString shellCommand 5 := isString_ofList (by decide)
  refine ⟨hstring, (command_safe_iff _ hstring _ _).mpr ⟨Or.inr (by decide), ?_⟩⟩
  exact ⟨by decide +kernel, by decide +kernel⟩

/-- A word of 127 bytes. -/
def longWord : Nat → UInt8 := ofList (List.replicate 127 97)

/-- 256 spaces. -/
def manySpaces : Nat → UInt8 := ofList (List.replicate 256 32)

/-- The word fills `cmd` and leaves no NUL; on the spaces the first loop runs for ever. -/
theorem command_unsafe : IsString longWord 127 ∧ longWord 0 ≠ chNewline ∧ ¬ Parse.Safe longWord ∧
    (∀ k r stale, ¬ CommandSafe k longWord 127 r stale) ∧ IsString manySpaces 256 ∧
    ∀ t, Leads (Parse.step manySpaces) Parse.start t → t.phase ≠ .done := by
  have hstring : IsString longWord 127 := by
    have hne : 0 ∉ List.replicate 127 (97 : UInt8) := fun h => absurd (List.eq_of_mem_replicate h) (by decide)
    have := isString_ofList hne
    rwa [List.length_replicate] at this
  have hspaces : IsString manySpaces 256 := by
    have hne : 0 ∉ List.replicate 256 (32 : UInt8) := fun h => absurd (List.eq_of_mem_replicate h) (by decide)
    have := isString_ofList hne
    rwa [List.length_replicate] at this
  have hnl : longWord 0 ≠ chNewline := by decide
  have hunsafe : ¬ Parse.Safe longWord := by
    rw [Parse.safe_iff hstring]
    rintro ⟨-, hfits, -⟩
    exact absurd hfits (by decide +kernel)
  refine ⟨hstring, hnl, hunsafe, ?_, hspaces, fun t ht => Parse.runs_on hspaces le_rfl ht⟩
  intro k r stale hsafe
  exact hunsafe (hsafe.1 hnl)

end BasicOs
