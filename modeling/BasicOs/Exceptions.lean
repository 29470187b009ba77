import BasicOs.Format
import BasicOs.LineEditor
import BasicOs.Screens

/-!
# Exceptions

`handle_exception` of `exceptions.c`: it clears the displayed terminal, prints the vector, the stack pointer and CR2,
and halts the running process if a bit of the stack pointer is set; otherwise it waits for ever.

* `handleException` : the state it leaves, and whether it calls `sys_halt`;
* `exception_shown` : what the displayed terminal shows then.
-/

namespace BasicOs
open Bytes Numeral Printf TextScreen

/-- The bytes of a string of the source. -/
def chars (s : String) : List UInt8 := s.toList.map fun c => UInt8.ofNat c.toNat

/-- `exception_msgs`. -/
def exceptionMsgs : List (List UInt8) :=
  [chars "Divide Error Exception", chars "Debug Exception", chars "Non-maskable Interrupt",
    chars "Breakpoint Exception", chars "Overflow Exception", chars "BOUND Range Exceeded Exception",
    chars "Invalid Opcode Exception", chars "Device Not Available Exception", chars "Double Fault Exception",
    chars "Coprocessor Segment Overrun", chars "Invalid TSS Exception", chars "Segment Not Present Exception",
    chars "Stack Fault Exception", chars "General Protection Exception", chars "Page-Fault Exception",
    chars "Reserved", chars "x87 FPU Floating-Point Error", chars "Alignment Check Exception",
    chars "Machine-Check Exception", chars "SIMD Floating-Point Exception"]

/-- What `printf("Interrupt vector 0x%x -- %s\n", vec, exception_msgs[vec])` writes. -/
def vectorLine (vec : Nat) : List UInt8 :=
  chars "Interrupt vector 0x" ++ numeral 16 vec ++ chars " -- " ++ exceptionMsgs.getD vec [] ++ [chNewline]

/-- What `printf("ESP: %x\n", ESP)` and `printf("CR2: %x\n", CR2)` write. -/
def registerLine (name : List UInt8) (value : Nat) : List UInt8 := name ++ numeral 16 value ++ [chNewline]

def exceptionText (vec esp cr2 : Nat) : List UInt8 :=
  vectorLine vec ++ registerLine (chars "ESP: ") esp ++ registerLine (chars "CR2: ") cr2

/-- `handle_exception`; `esp` and `cr2` are what the two registers hold there. `true` for the branch that calls
`sys_halt`. -/
def handleException (k : Kernel) (vec esp cr2 : Nat) : Kernel × Bool :=
  let k := puts (clear k) (exceptionText vec esp cr2)
  if (esp &&& 0x4) >>> 2 = 1 then ({ k with exceptionFlag := true }, true) else (k, false)

/-! ## The texts are those of `printf` -/

namespace Printf

/-- A text without a `%` as pieces. -/
def literals (text : List UInt8) : List Piece := text.map .literal

variable {env : Env}

theorem render_append (ps qs : List Piece) (n : Nat) :
    render env n (ps ++ qs) = render env n ps ++ render env (n + words ps) qs := by
  induction ps generalizing n with
  | nil => rfl
  | cons p ps ih =>
    rw [List.cons_append, render, ih, render, List.append_assoc, words, words, List.map_cons, List.sum_cons,
      Nat.add_assoc]

theorem words_literals (text : List UInt8) : words (literals text) = 0 := by
  unfold words literals
  rw [List.map_map]
  exact List.sum_eq_zero (by simp [Piece.words])

theorem render_literals (text : List UInt8) (n : Nat) : render env n (literals text) = text := by
  induction text generalizing n with
  | nil => rfl
  | cons c text ih => exact congrArg (c :: ·) (ih (n + 0))

/-- `printf` is called with the format and the words. -/
structure Called (env : Env) (fmt : List UInt8) (args : List Nat) : Prop where
  format : ∀ i ≤ fmt.length, env.format i = ofList fmt i
  arg : ∀ i < args.length, env.arg i = args.getD i 0
  word : ∀ i, env.arg i < 2 ^ 32

theorem Called.ends {ps : List Piece} {args : List Nat} (h : Called env (spell ps) args)
    (hps : ∀ p ∈ ps, p.WellFormed) : ∃ s, Ends env s ∧ s.out = render env 0 ps :=
  ⟨_, ends_of_pieces hps h.format h.word, rfl⟩

end Printf

open Printf

def vectorPieces : List Piece :=
  literals (chars "Interrupt vector 0x") ++ [.conversion 0 120] ++ literals (chars " -- ") ++
    [.conversion 0 115, .literal chNewline]

def registerPieces (name : List UInt8) : List Piece := literals name ++ [.conversion 0 120, .literal chNewline]

theorem spell_vectorPieces : spell vectorPieces = chars "Interrupt vector 0x%x -- %s\n" := by decide

theorem spell_registerPieces : spell (registerPieces (chars "ESP: ")) = chars "ESP: %x\n" ∧
    spell (registerPieces (chars "CR2: ")) = chars "CR2: %x\n" := by decide

/-- The call that prints the vector. -/
theorem vectorLine_printed {env : Env} {vec msg : Nat}
    (h : Called env (chars "Interrupt vector 0x%x -- %s\n") [vec, msg])
    (hmsg : env.string msg = exceptionMsgs.getD vec []) : ∃ s, Ends env s ∧ s.out = vectorLine vec := by
  rw [← spell_vectorPieces] at h
  have hvec : env.arg 0 = vec := h.arg 0 (Nat.succ_pos _)
  have harg : env.arg 1 = msg := h.arg 1 (Nat.lt_succ_self _)
  obtain ⟨s, hs, hout⟩ := h.ends (by decide)
  refine ⟨s, hs, hout.trans ?_⟩
  simp [vectorPieces, vectorLine, render_append, render_literals, words_literals, render, Piece.render, Piece.words,
    letterText, hvec, harg, hmsg]

/-- The calls that print a register. -/
theorem registerLine_printed {env : Env} {name : List UInt8} {value : Nat}
    (h : Called env (spell (registerPieces name)) [value]) (hname : ∀ p ∈ registerPieces name, p.WellFormed) :
    ∃ s, Ends env s ∧ s.out = registerLine name value := by
  have hvalue : env.arg 0 = value := h.arg 0 (Nat.succ_pos _)
  obtain ⟨s, hs, hout⟩ := h.ends hname
  refine ⟨s, hs, hout.trans ?_⟩
  simp [registerPieces, registerLine, render_append, render_literals, words_literals, render, Piece.render, letterText,
    hvalue]

/-! ## What is shown -/

theorem puts_eq_putcs (text : List UInt8) : ∀ k : Kernel, puts k text = putcs k.currTerm k text := by
  induction text with
  | nil => exact fun _ => rfl
  | cons c text ih =>
    intro k
    have hterm : (putc k c k.currTerm).currTerm = k.currTerm := (putc_screenOnly k c k.currTerm).currTerm_eq
    have hrest := ih (putc k c k.currTerm)
    rw [hterm] at hrest
    exact hrest

/-- Whatever the screens showed, the displayed terminal shows the lines on a cleared screen, and the others are as they
were. -/
theorem handleException_shows (k : Kernel) (vec esp cr2 : Nat) :
    let k' := (handleException k vec esp cr2).1
    Shows k' k.currTerm (((exceptionText vec esp cr2).foldl layoutStep Layout.empty).window 25) ∧
      Confined k.currTerm k k' := by
  have hclear := clear_confined k
  have hshows : Shows (clear k) k.currTerm (Screen.cleared blankCell) := clear_shows k (Screen.cleared blankCell)
  have hputs : puts (clear k) (exceptionText vec esp cr2) = putcs k.currTerm (clear k) (exceptionText vec esp cr2) := by
    rw [puts_eq_putcs, hclear.currTerm]
  rw [← Layout.window_empty] at hshows
  obtain ⟨hs, hconf⟩ := putcs_shows (exceptionText vec esp cr2) hshows
  rw [← hputs] at hs hconf
  unfold handleException
  dsimp only
  generalize exceptionText vec esp cr2 = text at hs hconf ⊢
  generalize puts (clear k) text = k₁ at hs hconf ⊢
  split_ifs
  · exact ⟨⟨hs.x_eq, hs.y_eq, hs.cells_eq⟩, (hclear.trans hconf).currTerm, (hclear.trans hconf).others,
      (hclear.trans hconf).vidmem, (hclear.trans hconf).mem⟩
  · exact ⟨hs, hclear.trans hconf⟩

theorem handleException_halts (k : Kernel) (vec esp cr2 : Nat) :
    (handleException k vec esp cr2).2 = esp.testBit 2 := by
  have hbit : (esp &&& 0x4) >>> 2 = 1 ↔ esp.testBit 2 = true := by
    rw [Nat.shiftRight_and_distrib, show 0x4 >>> 2 = 1 by decide, Nat.and_one_is_mod, Nat.shiftRight_eq_div_pow,
      Nat.testBit_eq_decide_div_mod_eq, decide_eq_true_eq]
  unfold handleException
  dsimp only
  split_ifs with h
  · exact (hbit.mp h).symm
  · exact (Bool.eq_false_iff.mpr fun ht => h (hbit.mpr ht)).symm

/-- **What an exception shows.** For every exception, whatever was on the screens, the three calls of `printf` come to
their ends; the displayed terminal then shows what they wrote, on a screen cleared before, and the other terminals show
what they showed. The running process is halted if bit 2 of the stack pointer is set, and only then. -/
theorem exception_shown (k : Kernel) {vec msg esp cr2 : Nat} {env : Fin 3 → Env}
    (hvec : Called (env 0) (chars "Interrupt vector 0x%x -- %s\n") [vec, msg])
    (hmsg : (env 0).string msg = exceptionMsgs.getD vec []) (hesp : Called (env 1) (chars "ESP: %x\n") [esp])
    (hcr2 : Called (env 2) (chars "CR2: %x\n") [cr2]) :
    let k' := (handleException k vec esp cr2).1
    ∃ s : Fin 3 → State, (∀ i, Ends (env i) (s i)) ∧
      Shows k' k.currTerm ((((s 0).out ++ (s 1).out ++ (s 2).out).foldl layoutStep Layout.empty).window 25) ∧
      (∀ u, u ≠ k.currTerm → ∀ screen, Shows k u screen → Shows k' u screen) ∧
      (handleException k vec esp cr2).2 = esp.testBit 2 := by
  obtain ⟨s₀, hs₀, h₀⟩ := vectorLine_printed hvec hmsg
  rw [← spell_registerPieces.1] at hesp
  rw [← spell_registerPieces.2] at hcr2
  obtain ⟨s₁, hs₁, h₁⟩ := registerLine_printed hesp (by decide)
  obtain ⟨s₂, hs₂, h₂⟩ := registerLine_printed hcr2 (by decide)
  obtain ⟨hshows, hconf⟩ := handleException_shows k vec esp cr2
  refine ⟨![s₀, s₁, s₂], fun i => ?_, ?_, fun u hu screen hs => hconf.shows hu hs, handleException_halts k vec esp cr2⟩
  · match i with
    | 0 => exact hs₀
    | 1 => exact hs₁
    | 2 => exact hs₂
  · have htext : s₀.out ++ s₁.out ++ s₂.out = exceptionText vec esp cr2 := by rw [h₀, h₁, h₂, exceptionText]
    rw [← htext] at hshows
    exact hshows

/-- The stack of a call of `printf`. -/
def callOf (fmt : List UInt8) (args : List Nat) (string : List UInt8) : Env :=
  ⟨ofList fmt, fun i => args.getD i 0, fun _ => string, fun _ => 0⟩

theorem called_callOf {fmt : List UInt8} {args : List Nat} {string : List UInt8} (h : ∀ a ∈ args, a < 2 ^ 32) :
    Called (callOf fmt args string) fmt args where
  format _ _ := rfl
  arg _ _ := rfl
  word i := by
    by_cases hi : i < args.length
    · exact lt_of_eq_of_lt (List.getD_eq_getElem _ _ hi) (h _ (List.getElem_mem hi))
    · exact lt_of_eq_of_lt (List.getD_eq_default _ _ (not_lt.mp hi)) (by decide)

/-- A page fault of a shell, at address 0. -/
theorem exception_shown_pageFault : ∃ s : Fin 3 → State,
    Shows (handleException (Kernel.atLoad ⟨fun _ => 0, 0, 0, 0⟩) 14 0x7FFFB4 0).1 0
        ((((s 0).out ++ (s 1).out ++ (s 2).out).foldl layoutStep Layout.empty).window 25) ∧
      (handleException (Kernel.atLoad ⟨fun _ => 0, 0, 0, 0⟩) 14 0x7FFFB4 0).2 = true := by
  obtain ⟨s, -, hs, -, hhalts⟩ := @exception_shown (Kernel.atLoad ⟨fun _ => 0, 0, 0, 0⟩) 14 0x404000 0x7FFFB4 0
    ![callOf (chars "Interrupt vector 0x%x -- %s\n") [14, 0x404000] (exceptionMsgs.getD 14 []),
      callOf (chars "ESP: %x\n") [0x7FFFB4] [], callOf (chars "CR2: %x\n") [0] []]
    (called_callOf (by decide)) rfl (called_callOf (by decide)) (called_callOf (by decide))
  exact ⟨s, hs, hhalts⟩

end BasicOs
