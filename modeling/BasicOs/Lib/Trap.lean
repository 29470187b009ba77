import Mathlib.Tactic

/-!
# A 32-bit processor that takes interrupts

The instructions with which x86 code saves and restores the state of what it interrupts, two privilege levels, gates and
a stack for the inner level.

* `load`, `store` : little-endian words in a memory of bytes; `Holds m a ws` : the words `ws` lie at `a`;
* `Cpu`, `Instr`, `exec` : what the instructions do; `deliver` : an interrupt through a gate;
* `Machine` : code with functions of which only a convention is known; `Machine.step`, `Machine.Returns`;
* `Machine.Resumes W c m` : `m` goes on where `c` was, with the memory changed on `W` and the inner stack only;
  `Machine.Resumes.exec`, `Machine.Resumes.goes_on` : a program of the outer level cannot tell the two apart.
-/

namespace Trap

abbrev Word : Type := BitVec 32

abbrev Mem : Type := Nat → UInt8

/-! ## Words in memory -/

def load (m : Mem) (a : Nat) : Word :=
  BitVec.ofNat 32 ((m a).toNat + 256 * (m (a + 1)).toNat + 65536 * (m (a + 2)).toNat + 16777216 * (m (a + 3)).toNat)

def store (m : Mem) (a : Nat) (w : Word) : Mem := fun b =>
  if a ≤ b ∧ b < a + 4 then UInt8.ofNat (w.toNat / 256 ^ (b - a)) else m b

variable {m m' : Mem} {a b : Nat} {w : Word} {ws vs : List Word}

theorem load_store (m : Mem) (a : Nat) (w : Word) : load (store m a w) a = w := by
  have hw := w.isLt
  apply BitVec.eq_of_toNat_eq
  unfold load store
  rw [if_pos (by omega), if_pos (by omega), if_pos (by omega), if_pos (by omega)]
  simp only [UInt8.toNat_ofNat', BitVec.toNat_ofNat, Nat.sub_self, Nat.add_sub_cancel_left]
  norm_num
  omega

theorem store_of_ne (h : b < a ∨ a + 4 ≤ b) : store m a w b = m b := if_neg (by omega)

theorem load_congr (h : ∀ i < 4, m' (a + i) = m (a + i)) : load m' a = load m a := by
  unfold load
  rw [h 1 (by decide), h 2 (by decide), h 3 (by decide), show m' a = m a from h 0 (by decide)]

/-- The words `ws` lie at `a`, upwards. -/
def Holds (m : Mem) : Nat → List Word → Prop
  | _, [] => True
  | a, w :: ws => load m a = w ∧ Holds m (a + 4) ws

theorem Holds.congr (h : Holds m a ws) (hm : ∀ b, a ≤ b → b < a + 4 * ws.length → m' b = m b) : Holds m' a ws := by
  induction ws generalizing a with
  | nil => trivial
  | cons w ws ih =>
    rw [List.length_cons] at hm
    refine ⟨(load_congr fun i hi => hm (a + i) (by omega) (by omega)).trans h.1, ih h.2 fun b hb hlt => ?_⟩
    exact hm b (by omega) (by omega)

theorem Holds.drop (h : Holds m a (vs ++ ws)) : Holds m (a + 4 * vs.length) ws := by
  induction vs generalizing a with
  | nil => exact h
  | cons v vs ih =>
    have hrest := ih h.2
    rw [List.length_cons, show a + 4 * (vs.length + 1) = a + 4 + 4 * vs.length by omega]
    exact hrest

/-- Word `i` of them. -/
theorem Holds.get (h : Holds m a ws) {i : Nat} (hi : ws[i]? = some w) : load m (a + 4 * i) = w := by
  induction ws generalizing a i with
  | nil => cases hi
  | cons v ws ih =>
    cases i with
    | zero =>
      cases hi
      exact h.1
    | succ i =>
      rw [show a + 4 * (i + 1) = a + 4 + 4 * i by omega]
      exact ih h.2 hi

/-! ## The processor -/

structure Regs where
  eax : Word
  ecx : Word
  edx : Word
  ebx : Word
  ebp : Word
  esi : Word
  edi : Word

inductive Reg
  | eax
  | ecx
  | edx
  | ebx

def Regs.get (r : Regs) : Reg → Word
  | .eax => r.eax
  | .ecx => r.ecx
  | .edx => r.edx
  | .ebx => r.ebx

def Regs.set (r : Regs) (v : Word) : Reg → Regs
  | .eax => { r with eax := v }
  | .ecx => { r with ecx := v }
  | .edx => { r with edx := v }
  | .ebx => { r with ebx := v }

structure Cpu where
  regs : Regs
  esp : Word
  eip : Word
  eflags : Word
  cs : Word
  ss : Word
  mem : Mem

/-- The privilege level, in the low bits of the code selector: 0 is the inner one. -/
def privilege (selector : Word) : Nat := selector.toNat % 4

/-- The flag that lets interrupts in is bit 9. -/
def interruptFlag (eflags : Word) : Bool := eflags.getLsbD 9

/-- Flag `i` is given the value `b`. -/
def setFlag (i : Nat) (b : Bool) (eflags : Word) : Word :=
  if b then eflags ||| ((1 : Word) <<< i) else eflags &&& ~~~((1 : Word) <<< i)

theorem getLsbD_setFlag {i j : Nat} (hj : j < 32) (b : Bool) (eflags : Word) :
    (setFlag i b eflags).getLsbD j = if j = i then b else eflags.getLsbD j := by
  have hbit : ((1 : Word) <<< i).getLsbD j = decide (j = i) := by
    have hone : ∀ k, BitVec.getLsbD (1 : Word) k = decide (k = 0) := fun k => by
      rw [show (1 : Word) = 1#32 from rfl, BitVec.getLsbD_one]
      simp
    rw [BitVec.getLsbD_shiftLeft, hone]
    by_cases h : j = i
    · subst h
      simp [hj]
    · rcases Nat.lt_or_ge j i with hlt | hge
      · simp [hlt, h]
      · simp [h, show j - i ≠ 0 by omega]
  unfold setFlag
  split_ifs with hb h h
  · rw [BitVec.getLsbD_or, hbit]
    simp [h, hb]
  · rw [BitVec.getLsbD_or, hbit]
    simp [h]
  · rw [BitVec.getLsbD_and, BitVec.getLsbD_not, hbit]
    simp [h, hb]
  · rw [BitVec.getLsbD_and, BitVec.getLsbD_not, hbit]
    simp [h, hj]

/-- The flags after `v` is compared with `w`: the carry is bit 0, the zero flag bit 6. The others are not looked at.
With `w = 0` they are those that the result `v` of a bitwise operation sets. -/
def compared (w v eflags : Word) : Word := setFlag 0 (v.toNat < w.toNat) (setFlag 6 (v = w) eflags)

def carry (eflags : Word) : Bool := eflags.getLsbD 0

def zero (eflags : Word) : Bool := eflags.getLsbD 6

theorem carry_compared (w v eflags : Word) : carry (compared w v eflags) = decide (v.toNat < w.toNat) := by
  unfold carry compared
  rw [getLsbD_setFlag (by decide), if_pos rfl]

theorem zero_compared (w v eflags : Word) : zero (compared w v eflags) = decide (v = w) := by
  unfold zero compared
  rw [getLsbD_setFlag (by decide), if_neg (by decide), getLsbD_setFlag (by decide), if_pos rfl]

/-- A gate of the interrupt descriptor table. -/
structure Gate where
  offset : Word
  selector : Word
  trap : Bool
  dpl : Nat
  present : Bool
  deriving DecidableEq

/-- A gate as the processor reads it from the two words of a descriptor. Only 32-bit interrupt and trap gates are gates
here. -/
def Gate.ofWords (lo hi : Word) : Gate where
  offset := hi.extractLsb' 16 16 ++ lo.extractLsb' 0 16
  selector := (lo.extractLsb' 16 16).setWidth 32
  trap := hi.getLsbD 8
  dpl := (hi.extractLsb' 13 2).toNat
  present := hi.getLsbD 15 && hi.extractLsb' 9 4 == 0b0111#4

theorem Gate.ofWords_append (high flags selector low : BitVec 16) :
    Gate.ofWords (selector ++ low : Word) (high ++ flags : Word) =
      ⟨high ++ low, selector.setWidth 32, flags.getLsbD 8, (flags.extractLsb' 13 2).toNat,
        flags.getLsbD 15 && flags.extractLsb' 9 4 == 0b0111#4⟩ := by
  have hhigh : ∀ x y : BitVec 16, (x ++ y : Word).extractLsb' 16 16 = x := by
    intro x y
    ext i hi
    simp only [BitVec.getElem_extractLsb', BitVec.getLsbD_append]
    rw [if_neg (by omega), Nat.add_sub_cancel_left]
    rfl
  have hlow : ∀ (x y : BitVec 16) (s l : Nat), s + l ≤ 16 → (x ++ y : Word).extractLsb' s l = y.extractLsb' s l := by
    intro x y s l h
    ext i hi
    simp only [BitVec.getElem_extractLsb', BitVec.getLsbD_append]
    rw [if_pos (by omega)]
  have hbit : ∀ (x y : BitVec 16) (i : Nat), i < 16 → (x ++ y : Word).getLsbD i = y.getLsbD i := by
    intro x y i h
    rw [BitVec.getLsbD_append, if_pos h]
  unfold Gate.ofWords
  rw [hhigh, hhigh, hlow _ _ 0 16 (by decide), hlow _ _ 13 2 (by decide), hlow _ _ 9 4 (by decide),
    hbit _ _ 8 (by decide), hbit _ _ 15 (by decide), BitVec.extractLsb'_eq_self]

/-- The gates, and the stack of the inner level that the task state segment names. -/
structure Tables where
  gate : UInt8 → Gate
  esp0 : Word
  ss0 : Word

/-- `callTable` calls through a table that lies in the code. -/
inductive Instr
  | pushl (r : Reg)
  | pushlImm (w : Word)
  | popl (r : Reg)
  | pushfl
  | popfl
  | pushal
  | popal
  | movlImm (w : Word) (r : Reg)
  | movlStack (disp : Nat) (r : Reg)
  | cmplImm (w : Word) (r : Reg)
  | orlImm (w : Word) (r : Reg)
  | jb (target : Word)
  | ja (target : Word)
  | jmp (target : Word)
  | call (target : Word)
  | callTable (table : List Word) (r : Reg)
  | ret
  | cli
  | sti
  | int (vector : UInt8)
  | iret

namespace Cpu

def push (c : Cpu) (w : Word) : Cpu := { c with esp := c.esp - 4, mem := store c.mem (c.esp - 4).toNat w }

/-- The words are pushed one after the other. -/
def pushAll (c : Cpu) (ws : List Word) : Cpu := ws.foldl push c

/-- The address `disp` bytes up the stack. -/
def above (c : Cpu) (disp : Nat) : Nat := (c.esp + BitVec.ofNat 32 disp).toNat

/-- Word `i` of the stack. -/
def word (c : Cpu) (i : Nat) : Word := load c.mem (c.above (4 * i))

/-- The first `n` words are taken from the stack. -/
def drop (c : Cpu) (n : Nat) : Cpu := { c with esp := c.esp + BitVec.ofNat 32 (4 * n) }

def setReg (c : Cpu) (v : Word) (r : Reg) : Cpu := { c with regs := c.regs.set v r }

end Cpu

/-- What a program pushes that is left through a gate and comes back to `back`. The outer level's stack comes first. -/
def pushed (c : Cpu) (back : Word) : List Word :=
  (if privilege c.cs = 0 then [] else [c.ss, c.esp]) ++ [c.eflags, c.cs, back]

/-- The processor goes through a gate. A program of the outer level gets on the stack of the inner one. -/
def enter (t : Tables) (g : Gate) (back : Word) (c : Cpu) : Cpu :=
  let c' := if privilege c.cs = 0 then c else { c with esp := t.esp0, ss := t.ss0 }
  { c'.pushAll (pushed c back) with
    eip := g.offset, cs := g.selector
    eflags := if g.trap then c.eflags else setFlag 9 false c.eflags }

/-- An interrupt from outside. -/
def deliver (t : Tables) (vector : UInt8) (c : Cpu) : Cpu := enter t (t.gate vector) c.eip c

/-- What an instruction does; `next` is the address behind it. `none` for a fault, and for `iret` on the outer level. -/
def exec (t : Tables) (next : Word) (c : Cpu) : Instr → Option Cpu
  | .pushl r => some { c.push (c.regs.get r) with eip := next }
  | .pushlImm w => some { c.push w with eip := next }
  | .popl r => some { (c.drop 1).setReg (c.word 0) r with eip := next }
  | .pushfl => some { c.push c.eflags with eip := next }
  | .popfl =>
    -- the outer level cannot change the interrupt flag
    let eflags := if privilege c.cs = 0 then c.word 0 else setFlag 9 (interruptFlag c.eflags) (c.word 0)
    some { c.drop 1 with eflags := eflags, eip := next }
  | .pushal =>
    let r := c.regs
    some { c.pushAll [r.eax, r.ecx, r.edx, r.ebx, c.esp, r.ebp, r.esi, r.edi] with eip := next }
  | .popal =>
    -- word 3 is the stack pointer that `pushal` saved, which is skipped
    some { c.drop 8 with
      regs := ⟨c.word 7, c.word 6, c.word 5, c.word 4, c.word 2, c.word 1, c.word 0⟩, eip := next }
  | .movlImm w r => some { c.setReg w r with eip := next }
  | .movlStack disp r => some { c.setReg (load c.mem (c.above disp)) r with eip := next }
  | .cmplImm w r => some { c with eflags := compared w (c.regs.get r) c.eflags, eip := next }
  | .orlImm w r =>
    some { c.setReg (c.regs.get r ||| w) r with eflags := compared 0 (c.regs.get r ||| w) c.eflags, eip := next }
  | .jb target => some { c with eip := if carry c.eflags then target else next }
  | .ja target => some { c with eip := if !carry c.eflags && !zero c.eflags then target else next }
  | .jmp target => some { c with eip := target }
  | .call target => some { c.push next with eip := target }
  | .callTable table r => (table[(c.regs.get r).toNat]?).map fun target => { c.push next with eip := target }
  | .ret => some { c.drop 1 with eip := c.word 0 }
  | .cli => if privilege c.cs = 0 then some { c with eflags := setFlag 9 false c.eflags, eip := next } else none
  | .sti => if privilege c.cs = 0 then some { c with eflags := setFlag 9 true c.eflags, eip := next } else none
  | .int vector =>
    let g := t.gate vector
    if g.present ∧ privilege c.cs ≤ g.dpl then some (enter t g next c) else none
  | .iret =>
    let cs := c.word 1
    if privilege c.cs ≠ 0 then none
    else
      let c' := { c with eip := c.word 0, cs := cs, eflags := c.word 2 }
      if privilege cs = 0 then some { c' with esp := (c.drop 3).esp }
      else some { c' with esp := c.word 3, ss := c.word 4 }

/-- The addresses of the words that an instruction reads. -/
def reads (c : Cpu) : Instr → List Nat
  | .popl _ | .popfl | .ret => [c.above 0]
  | .popal => (List.range 8).map fun i => c.above (4 * i)
  | .movlStack disp _ => [c.above disp]
  | _ => []

/-! ## Code and functions -/

/-- Code, of which only the instructions at some addresses are given, and functions `F`, of which only what they keep
is known. `writable f` are the addresses that may have changed when `f` returns, besides the stack below its arguments;
the stack of the inner level starts at `bottom`. -/
structure Machine (F : Type) where
  tables : Tables
  code : Word → Option (Instr × Word)
  entry : F → Word
  args : F → Nat
  writable : F → Nat → Prop
  bottom : Nat

/-- An instruction, an interrupt, or the return of a function in the state `c`. -/
inductive Event (F : Type)
  | instr
  | interrupt (vector : UInt8)
  | leave (f : F) (c : Cpu)

variable {F : Type} (M : Machine F)

def Machine.step (c : Cpu) : Event F → Option Cpu
  | .instr => (M.code c.eip).bind fun p => exec M.tables p.2 c p.1
  | .interrupt vector => if interruptFlag c.eflags then some (deliver M.tables vector c) else none
  | .leave f c' => if privilege c.cs = 0 ∧ c.eip = M.entry f then some c' else none

/-- Where the stack of the inner level starts for code that is entered from `c`. -/
def Machine.level (c : Cpu) : Nat := if privilege c.cs = 0 then c.esp.toNat else M.tables.esp0.toNat

/-- The memory is the same, but for `W` and for the inner stack below `level`. -/
def Machine.Kept (W : Nat → Prop) (level : Nat) (m m' : Mem) : Prop :=
  ∀ a, ¬ W a → (a < M.bottom ∨ level ≤ a) → m' a = m a

/-- What a function keeps by convention: it returns behind its call, with the registers that it has to save, and stays
out of the stack above its arguments. -/
structure Machine.Returns (f : F) (c c' : Cpu) : Prop where
  eip : c'.eip = c.word 0
  esp : c'.esp = c.esp + 4
  saved : (c'.regs.ebx = c.regs.ebx ∧ c'.regs.ebp = c.regs.ebp) ∧ c'.regs.esi = c.regs.esi ∧ c'.regs.edi = c.regs.edi
  cs : c'.cs = c.cs
  ss : c'.ss = c.ss
  kept : M.Kept (M.writable f) (c.esp.toNat + 4 + 4 * M.args f) c.mem c'.mem

/-- `m` goes on where `c` was; the memory may have changed on `W`. -/
structure Machine.Resumes (W : Nat → Prop) (c m : Cpu) : Prop where
  same : m = { c with mem := m.mem }
  kept : M.Kept W (M.level c) c.mem m.mem

/-- The gates lead to the inner level, functions are not code, there is room on the inner stack, and functions write
on it only where it is theirs. -/
structure Machine.Sound : Prop where
  gates : ∀ v, privilege (M.tables.gate v).selector = 0
  entries : ∀ f, M.code (M.entry f) = none
  room : M.bottom + 64 ≤ M.tables.esp0.toNat
  apart : ∀ f a, M.bottom ≤ a → a < M.tables.esp0.toNat → ¬ M.writable f a

variable {M} {W W' : Nat → Prop} {c d m m' : Cpu} {level : Nat} {e : Word} {ws vs : List Word} {w : Word}

theorem Machine.Kept.refl (level : Nat) (m : Mem) : M.Kept W level m m := fun _ _ _ => rfl

theorem Machine.Kept.mono {m₁ m₂ : Mem} {high : Nat} (h : M.Kept W level m₁ m₂) (hW : ∀ a, W a → W' a)
    (hle : level ≤ high) : M.Kept W' high m₁ m₂ := fun a hw ha =>
  h a (fun hwa => hw (hW a hwa)) (ha.imp_right hle.trans)

theorem Machine.Kept.trans {m₁ m₂ m₃ : Mem} (h₁ : M.Kept W level m₁ m₂) (h₂ : M.Kept W level m₂ m₃) :
    M.Kept W level m₁ m₃ := fun a hw ha => (h₂ a hw ha).trans (h₁ a hw ha)

theorem Machine.Kept.store {m₁ m₂ : Mem} (h : M.Kept W level m₁ m₂) {a : Nat} (hlo : M.bottom ≤ a) (hhi : a + 4 ≤ level)
    (w : Word) : M.Kept W level m₁ (Trap.store m₂ a w) := fun b hw hb =>
  (store_of_ne (by omega)).trans (h b hw hb)

theorem Machine.Kept.store_both {m₁ m₂ : Mem} (h : M.Kept W level m₁ m₂) (a : Nat) (w : Word) :
    M.Kept W level (Trap.store m₁ a w) (Trap.store m₂ a w) := by
  intro b hw hb
  unfold Trap.store
  rw [h b hw hb]

theorem Machine.Kept.load {m₁ m₂ : Mem} (h : M.Kept W level m₁ m₂) {a : Nat}
    (ha : ∀ i < 4, ¬ W (a + i) ∧ (a + i < M.bottom ∨ level ≤ a + i)) : Trap.load m₂ a = Trap.load m₁ a :=
  load_congr fun i hi => h (a + i) (ha i hi).1 (ha i hi).2

/-! ## The outer level -/

theorem Machine.Resumes.refl (c : Cpu) : M.Resumes W c c := ⟨rfl, .refl _ _⟩

theorem Machine.Resumes.level_eq (h : M.Resumes W c m) : M.level m = M.level c := by
  rw [h.same]
  rfl

theorem Machine.Resumes.trans (h₁ : M.Resumes W c d) (h₂ : M.Resumes W d m) : M.Resumes W c m := by
  have hkept := h₂.kept
  rw [h₁.level_eq] at hkept
  refine ⟨?_, h₁.kept.trans hkept⟩
  rw [h₂.same, h₁.same]

theorem Machine.Kept.pushAll (hk : M.Kept W level c.mem m.mem) (hesp : m.esp = c.esp) (ws : List Word) :
    M.Kept W level (c.pushAll ws).mem (m.pushAll ws).mem := by
  induction ws generalizing c m with
  | nil => exact hk
  | cons w ws ih =>
    have hstored : M.Kept W level (c.push w).mem (m.push w).mem := by
      unfold Cpu.push
      dsimp only
      rw [hesp]
      exact hk.store_both _ _
    have hesp' : (m.push w).esp = (c.push w).esp := congrArg (· - 4) hesp
    exact ih hstored hesp'

theorem Cpu.pushAll_same (c : Cpu) (ws : List Word) (mem : Mem) :
    ({ c with mem := mem }).pushAll ws = { c.pushAll ws with mem := (({ c with mem := mem }).pushAll ws).mem } := by
  induction ws generalizing c mem with
  | nil => rfl
  | cons w ws ih => exact ih (c.push w) (store mem (c.esp - 4).toNat w)

theorem Cpu.pushAll_regs (c : Cpu) (ws : List Word) : (c.pushAll ws).regs = c.regs := by
  induction ws generalizing c with
  | nil => rfl
  | cons w ws ih => exact ih (c.push w)

theorem Cpu.pushAll_cs (c : Cpu) (ws : List Word) : (c.pushAll ws).cs = c.cs := by
  induction ws generalizing c with
  | nil => rfl
  | cons w ws ih => exact ih (c.push w)

/-- **The outer level.** An instruction of a program on the outer level does the same, whatever has become of memory
that it does not read. -/
theorem Machine.Resumes.exec (h : M.Resumes W c m) (hp : privilege c.cs ≠ 0) {i : Instr} {t : Tables} {next : Word}
    (hreads : ∀ a ∈ reads c i, ∀ j < 4, ¬ W (a + j) ∧ (a + j < M.bottom ∨ M.tables.esp0.toNat ≤ a + j))
    (hint : ∀ v, i ≠ .int v) (hx : Trap.exec t next m i = some m') :
    ∃ c', Trap.exec t next c i = some c' ∧ c'.cs = c.cs ∧ M.Resumes W c' m' := by
  obtain ⟨hsame, hkept⟩ := h
  have hlevel : M.level c = M.tables.esp0.toNat := if_neg hp
  generalize hmem : m.mem = mem at hsame hkept
  subst hsame
  -- everything but the memory is the same, and so is what the instruction does to it
  have hload : ∀ disp, c.above disp ∈ reads c i → load mem (c.above disp) = load c.mem (c.above disp) := by
    intro disp hd
    refine hkept.load fun j hj => ?_
    rw [hlevel]
    exact hreads _ hd j hj
  have hout : ∀ (c' : Cpu) (mem' : Mem), c'.cs = c.cs → M.Kept W (M.level c) c'.mem mem' →
      M.Resumes W c' { c' with mem := mem' } := by
    intro c' mem' hcs hk
    refine ⟨rfl, ?_⟩
    have hlevel' : M.level c' = M.level c := by
      unfold Machine.level
      rw [hcs, if_neg hp, if_neg hp]
    rw [hlevel']
    exact hk
  cases i with
  | pushl r =>
    cases hx
    exact ⟨_, rfl, rfl, hout { c.push (c.regs.get r) with eip := next } _ rfl (hkept.store_both _ _)⟩
  | pushlImm w =>
    cases hx
    exact ⟨_, rfl, rfl, hout { c.push w with eip := next } _ rfl (hkept.store_both _ _)⟩
  | popl r =>
    cases hx
    refine ⟨_, rfl, rfl, ?_⟩
    have hw : ({ c with mem := mem } : Cpu).word 0 = c.word 0 := hload 0 (by simp [reads])
    rw [hw]
    exact hout _ mem rfl hkept
  | pushfl =>
    cases hx
    exact ⟨_, rfl, rfl, hout { c.push c.eflags with eip := next } _ rfl (hkept.store_both _ _)⟩
  | popfl =>
    cases hx
    refine ⟨_, rfl, rfl, ?_⟩
    have hw : ({ c with mem := mem } : Cpu).word 0 = c.word 0 := hload 0 (by simp [reads])
    rw [hw]
    exact hout _ mem rfl hkept
  | pushal =>
    obtain rfl := Option.some.inj hx
    generalize hws : [c.regs.eax, c.regs.ecx, c.regs.edx, c.regs.ebx, c.esp, c.regs.ebp, c.regs.esi, c.regs.edi] = ws
    have hcs := Cpu.pushAll_cs c ws
    have hsame := Cpu.pushAll_same c ws mem
    have hk : M.Kept W (M.level c) (c.pushAll ws).mem (({ c with mem := mem } : Cpu).pushAll ws).mem :=
      Machine.Kept.pushAll (m := { c with mem := mem }) hkept rfl ws
    have hc : Trap.exec t next c .pushal = some { c.pushAll ws with eip := next } := by
      rw [← hws]
      rfl
    generalize c.pushAll ws = p at hcs hsame hk hc
    generalize ({ c with mem := mem } : Cpu).pushAll ws = q at hsame hk
    refine ⟨{ p with eip := next }, hc, hcs, ?_⟩
    rw [hsame]
    exact hout { p with eip := next } q.mem hcs hk
  | popal =>
    obtain rfl := Option.some.inj hx
    have hw : ∀ k < 8, ({ c with mem := mem } : Cpu).word k = c.word k := fun k hk =>
      hload (4 * k) (List.mem_map_of_mem (List.mem_range.mpr hk))
    rw [hw 0 (by decide), hw 1 (by decide), hw 2 (by decide), hw 4 (by decide), hw 5 (by decide), hw 6 (by decide),
      hw 7 (by decide)]
    generalize hr : Regs.mk (c.word 7) (c.word 6) (c.word 5) (c.word 4) (c.word 2) (c.word 1) (c.word 0) = r
    refine ⟨{ c.drop 8 with regs := r, eip := next }, ?_, rfl, ?_⟩
    · rw [← hr]
      rfl
    · exact hout { c.drop 8 with regs := r, eip := next } mem rfl hkept
  | movlImm w r =>
    cases hx
    exact ⟨_, rfl, rfl, hout { c.setReg w r with eip := next } _ rfl hkept⟩
  | movlStack disp r =>
    cases hx
    refine ⟨_, rfl, rfl, ?_⟩
    have hw : load mem (({ c with mem := mem } : Cpu).above disp) = load c.mem (c.above disp) :=
      hload disp (by simp [reads])
    rw [hw]
    exact hout { c.setReg (load c.mem (c.above disp)) r with eip := next } mem rfl hkept
  | cmplImm w r =>
    cases hx
    exact ⟨_, rfl, rfl, hout _ mem rfl hkept⟩
  | orlImm w r =>
    cases hx
    refine ⟨_, rfl, rfl, ?_⟩
    exact hout { c.setReg (c.regs.get r ||| w) r with
      eflags := compared 0 (c.regs.get r ||| w) c.eflags, eip := next } mem rfl hkept
  | jb target =>
    cases hx
    exact ⟨_, rfl, rfl, hout _ mem rfl hkept⟩
  | ja target =>
    cases hx
    exact ⟨_, rfl, rfl, hout _ mem rfl hkept⟩
  | jmp target =>
    cases hx
    exact ⟨_, rfl, rfl, hout _ mem rfl hkept⟩
  | call target =>
    cases hx
    exact ⟨_, rfl, rfl, hout { c.push next with eip := target } _ rfl (hkept.store_both _ _)⟩
  | callTable table r =>
    obtain ⟨target, htarget, rfl⟩ := Option.map_eq_some_iff.mp hx
    refine ⟨{ c.push next with eip := target }, ?_, rfl, ?_⟩
    · exact Option.map_eq_some_iff.mpr ⟨target, htarget, rfl⟩
    · exact hout { c.push next with eip := target } _ rfl (hkept.store_both _ _)
  | ret =>
    cases hx
    refine ⟨_, rfl, rfl, ?_⟩
    have hw : ({ c with mem := mem } : Cpu).word 0 = c.word 0 := hload 0 (by simp [reads])
    rw [hw]
    exact hout _ mem rfl hkept
  | cli =>
    have hnone : Trap.exec t next { c with mem := mem } .cli = none := if_neg hp
    rw [hnone] at hx
    cases hx
  | sti =>
    have hnone : Trap.exec t next { c with mem := mem } .sti = none := if_neg hp
    rw [hnone] at hx
    cases hx
  | int v => exact absurd rfl (hint v)
  | iret =>
    have hnone : Trap.exec t next { c with mem := mem } .iret = none := if_pos hp
    rw [hnone] at hx
    cases hx

theorem Machine.Resumes.symm (h : M.Resumes W c m) : M.Resumes W m c := by
  refine ⟨?_, fun a hw ha => ?_⟩
  · rw [h.same]
  · rw [h.level_eq] at ha
    exact (h.kept a hw ha).symm

/-- It goes on where the other does. -/
theorem Machine.Resumes.goes_on (h : M.Resumes W c m) (hp : privilege c.cs ≠ 0)
    (hreads : ∀ p, M.code m.eip = some p → ∀ a ∈ reads m p.1, ∀ j < 4,
      ¬ W (a + j) ∧ (a + j < M.bottom ∨ M.tables.esp0.toNat ≤ a + j))
    (hc : (M.step c .instr).isSome) : (M.step m .instr).isSome := by
  obtain ⟨c', hs⟩ := Option.isSome_iff_exists.mp hc
  obtain ⟨⟨i, next⟩, hcode, hx⟩ := Option.bind_eq_some_iff.mp hs
  have heip : m.eip = c.eip := by rw [h.same]
  have hcs : m.cs = c.cs := by rw [h.same]
  rw [heip] at hreads
  have hstep : M.step m .instr = Trap.exec M.tables next m i := by
    unfold Machine.step
    dsimp only
    rw [heip, hcode]
    rfl
  rw [hstep]
  by_cases hint : ∃ v, i = .int v
  · obtain ⟨v, rfl⟩ := hint
    unfold Trap.exec at hx ⊢
    dsimp only at hx ⊢
    rw [hcs]
    split_ifs at hx ⊢
    rfl
  · obtain ⟨m', hm', -, -⟩ := h.symm.exec (hcs.symm ▸ hp) (hreads (i, next) hcode) (fun v hv => hint ⟨v, hv⟩) hx
    rw [hm']
    rfl

end Trap
