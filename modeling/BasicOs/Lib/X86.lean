import BasicOs.Lib.ByteCopy
import BasicOs.Lib.Run

/-!
# A few instructions of a 32-bit x86 processor

Programs are lists of instructions and labels; a state has the position in the program, the registers, two flags, two
segment registers and the memory. A segment register selects a base address, which is added to the offset of an access.

* `Instr.exec` : what an instruction does; `rep movsl` takes one step for each double word;
* `step` : one instruction of a program; behind its end the processor stands still;
* `leads_block`, `leads_jz`, `leads_jmp`, `leads_repMovsl` : the rules for code without jumps, for jumps and for
  `rep movsl` with an invariant.
-/

namespace X86
open ByteCopy Run

inductive Reg
  | eax
  | ecx
  | edx
  | esi
  | edi
  deriving DecidableEq

structure Regs where
  eax : BitVec 32
  ecx : BitVec 32
  edx : BitVec 32
  esi : BitVec 32
  edi : BitVec 32

def Regs.get (r : Regs) : Reg → BitVec 32
  | .eax => r.eax
  | .ecx => r.ecx
  | .edx => r.edx
  | .esi => r.esi
  | .edi => r.edi

def Regs.set (r : Regs) (v : BitVec 32) : Reg → Regs
  | .eax => { r with eax := v }
  | .ecx => { r with ecx := v }
  | .edx => { r with edx := v }
  | .esi => { r with esi := v }
  | .edi => { r with edi := v }

/-- The zero and the direction flag; `base` gives the base address of the segment that a selector names. -/
structure Cpu where
  pc : Nat
  regs : Regs
  zf : Bool
  df : Bool
  ds : BitVec 16
  es : BitVec 16
  base : BitVec 16 → BitVec 32
  mem : Mem

/-- The instructions, with the source first; labels take their place among them. -/
inductive Instr (L : Type)
  | label (l : L)
  | testl (a b : Reg)
  | testlImm (imm : BitVec 32) (r : Reg)
  | jz (l : L)
  | jmp (l : L)
  | movl (src dest : Reg)
  | movbLoad (addr dest : Reg)
  | movbStore (src addr : Reg)
  | movwDs (dest : Reg)
  | movwEs (src : Reg)
  | addl (imm : BitVec 32) (r : Reg)
  | subl (imm : BitVec 32) (r : Reg)
  | andl (imm : BitVec 32) (r : Reg)
  | shrl (count : Nat) (r : Reg)
  | cld
  | repMovsl
  deriving DecidableEq

/-- The register with another low byte. -/
def setLowByte (v : BitVec 32) (c : UInt8) : BitVec 32 := BitVec.ofNat 32 (v.toNat / 256 * 256 + c.toNat)

def lowByte (v : BitVec 32) : UInt8 := UInt8.ofNat v.toNat

/-- The register with another low word. -/
def setLowWord (v : BitVec 32) (w : BitVec 16) : BitVec 32 := BitVec.ofNat 32 (v.toNat / 65536 * 65536 + w.toNat)

def lowWord (v : BitVec 32) : BitVec 16 := BitVec.ofNat 16 v.toNat

theorem lowByte_setLowByte (v : BitVec 32) (c : UInt8) : lowByte (setLowByte v c) = c := by
  have hv := v.isLt
  have hc := c.toNat_lt
  apply UInt8.toNat_inj.mp
  unfold lowByte setLowByte
  rw [UInt8.toNat_ofNat', BitVec.toNat_ofNat]
  omega

theorem lowWord_setLowWord (v : BitVec 32) (w : BitVec 16) : lowWord (setLowWord v w) = w := by
  have hv := v.isLt
  have hw := w.isLt
  apply BitVec.eq_of_toNat_eq
  unfold lowWord setLowWord
  rw [BitVec.toNat_ofNat, BitVec.toNat_ofNat]
  omega

/-- The result of an arithmetic instruction, and the flag it sets. -/
def Cpu.result (c : Cpu) (r : Reg) (v : BitVec 32) : Cpu := { c with regs := c.regs.set v r, zf := decide (v = 0) }

/-- One double word from `ds:esi` to `es:edi`, and both go on by four bytes, down when the direction flag is set. -/
def Cpu.movsl (c : Cpu) : Cpu :=
  let delta : BitVec 32 := if c.df then -4 else 4
  { c with
    mem := storeBytes c.mem (c.base c.es + c.regs.edi) (loadBytes c.mem (c.base c.ds + c.regs.esi) 4)
    regs := { c.regs with esi := c.regs.esi + delta, edi := c.regs.edi + delta } }

/-- One round of `rep movsl`. -/
def Cpu.repRound (c : Cpu) : Cpu := { c.movsl with regs.ecx := c.regs.ecx - 1 }

section Program
variable {L : Type} [DecidableEq L]

/-- Where a label stands. -/
def target (prog : List (Instr L)) (l : L) : Nat := prog.idxOf (.label l)

/-- What an instruction does, but for the position. -/
def Instr.effect (c : Cpu) : Instr L → Cpu
  | .label _ | .jz _ | .jmp _ => c
  | .testl a b => { c with zf := decide (c.regs.get a &&& c.regs.get b = 0) }
  | .testlImm imm r => { c with zf := decide (imm &&& c.regs.get r = 0) }
  | .movl src dest => { c with regs := c.regs.set (c.regs.get src) dest }
  | .movbLoad addr dest =>
    { c with regs := c.regs.set (setLowByte (c.regs.get dest) (c.mem (c.base c.ds + c.regs.get addr))) dest }
  | .movbStore src addr =>
    { c with mem := Function.update c.mem (c.base c.ds + c.regs.get addr) (lowByte (c.regs.get src)) }
  | .movwDs dest => { c with regs := c.regs.set (setLowWord (c.regs.get dest) c.ds) dest }
  | .movwEs src => { c with es := lowWord (c.regs.get src) }
  | .addl imm r => c.result r (c.regs.get r + imm)
  | .subl imm r => c.result r (c.regs.get r - imm)
  | .andl imm r => c.result r (c.regs.get r &&& imm)
  | .shrl count r => c.result r (c.regs.get r >>> count)
  | .cld => { c with df := false }
  | .repMovsl => if c.regs.ecx = 0 then c else c.repRound

/-- Where the next instruction is. -/
def Instr.nextPc (prog : List (Instr L)) (c : Cpu) : Instr L → Nat
  | .jz l => if c.zf then target prog l else c.pc + 1
  | .jmp l => target prog l
  | .repMovsl => if c.regs.ecx = 0 then c.pc + 1 else c.pc
  | _ => c.pc + 1

def step (prog : List (Instr L)) (c : Cpu) : Cpu :=
  match prog[c.pc]? with
  | none => c
  | some i => { i.effect c with pc := i.nextPc prog c }

/-- The program has come to its end. -/
def Halted (prog : List (Instr L)) (c : Cpu) : Prop := prog.length ≤ c.pc

/-! ## Rules -/

variable {prog : List (Instr L)} {c : Cpu}

theorem leads_step {i : Instr L} (h : prog[c.pc]? = some i) :
    Leads (step prog) c { i.effect c with pc := i.nextPc prog c } := by
  refine .head ?_
  unfold step
  rw [h]
  exact .refl _ _

/-- Instructions after which the next one follows. -/
def Instr.straight : Instr L → Bool
  | .jz _ | .jmp _ | .repMovsl => false
  | _ => true

theorem Instr.nextPc_of_straight {i : Instr L} (h : i.straight = true) (prog : List (Instr L)) (c : Cpu) :
    i.nextPc prog c = c.pc + 1 := by
  cases i
  case jz => cases h
  case jmp => cases h
  case repMovsl => cases h
  all_goals rfl

/-- A block of such instructions. -/
def runBlock : List (Instr L) → Cpu → Cpu
  | [], c => c
  | i :: is, c => runBlock is { i.effect c with pc := c.pc + 1 }

theorem leads_block {is : List (Instr L)} (hs : is.all Instr.straight = true) (h : is <+: prog.drop c.pc) :
    Leads (step prog) c (runBlock is c) := by
  induction is generalizing c with
  | nil => exact .refl _ _
  | cons i is ih =>
    obtain ⟨rest, hrest⟩ := h
    have hi : prog[c.pc]? = some i := by
      rw [← List.head?_drop, ← hrest]
      rfl
    have htail : is <+: prog.drop (c.pc + 1) := by
      refine ⟨rest, ?_⟩
      rw [← List.tail_drop, ← hrest]
      rfl
    obtain ⟨hstraight, hs⟩ := Bool.and_eq_true_iff.mp hs
    refine (leads_step hi).trans ?_
    rw [Instr.nextPc_of_straight hstraight]
    exact ih hs htail

theorem leads_jz {l : L} (h : prog[c.pc]? = some (.jz l)) :
    Leads (step prog) c { c with pc := if c.zf then target prog l else c.pc + 1 } := leads_step h

theorem leads_jmp {l : L} (h : prog[c.pc]? = some (.jmp l)) :
    Leads (step prog) c { c with pc := target prog l } := leads_step h

/-- The invariant rule for `rep movsl`, over the rounds that `ecx` counts. -/
theorem leads_repMovsl {I : Nat → Cpu → Prop} {n : Nat} (hn : n < 2 ^ 32)
    (hround : ∀ k c, k < n → I k c → I (k + 1) c.repRound) :
    ∀ (left k : Nat) (c : Cpu), k + left = n → prog[c.pc]? = some .repMovsl → c.regs.ecx = BitVec.ofNat 32 left →
      I k c → ∃ c', Leads (step prog) c { c' with pc := c.pc + 1 } ∧ I n c'
  | 0, k, c, hk, hat, hecx, hI => by
    have hstep := leads_step hat
    have hpc : (Instr.repMovsl : Instr L).nextPc prog c = c.pc + 1 := if_pos hecx
    have heffect : (Instr.repMovsl : Instr L).effect c = c := if_pos hecx
    rw [hpc, heffect] at hstep
    obtain rfl : k = n := hk
    exact ⟨c, hstep, hI⟩
  | left + 1, k, c, hk, hat, hecx, hI => by
    have hne : ¬ c.regs.ecx = 0 := by
      rw [hecx]
      intro h0
      have hnat := congrArg BitVec.toNat h0
      rw [BitVec.toNat_ofNat, Nat.mod_eq_of_lt (by omega)] at hnat
      exact Nat.succ_ne_zero left hnat
    have hstep := leads_step hat
    have hpc : (Instr.repMovsl : Instr L).nextPc prog c = c.pc := if_neg hne
    have heffect : (Instr.repMovsl : Instr L).effect c = c.repRound := if_neg hne
    rw [hpc, heffect] at hstep
    have hcount : c.repRound.regs.ecx = BitVec.ofNat 32 left := by
      show c.regs.ecx - 1 = _
      rw [hecx, BitVec.ofNat_add]
      exact BitVec.add_sub_cancel _ _
    obtain ⟨c', hc', hI'⟩ := leads_repMovsl hn hround left (k + 1) c.repRound (by omega) hat hcount
      (hround k c (by omega) hI)
    exact ⟨c', hstep.trans hc', hI'⟩

end Program

end X86
