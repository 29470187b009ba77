import BasicOs.Lib.X86
import BasicOs.Video

/-!
# `memcpy`

The assembly loop of `memcpy` as a program of the processor, against the copy of bytes.

* `memcpyLoop`, `memcpyEntry` : the program, and a state in which it is entered;
* `Progress` : the first `i` bytes are copied and the pointers stand behind them; `Progress.byte`,
  `Progress.repRound` : a byte, a double word;
* `memcpy_copies` : the loop ends with the bytes copied;
* `memcpyLoop_refines` : in the flat segments of the kernel it leaves what `memcpy` of the screens does.
-/

namespace BasicOs
open Run X86 ByteCopy

/-! ## The program -/

inductive MemcpyLabel
  | top
  | aligned
  | bottom
  | done
  deriving DecidableEq

/-- One byte through `al`, and both pointers go on. -/
def byteMove : List (Instr MemcpyLabel) := [.movbLoad .esi .eax, .movbStore .eax .edi, .addl 1 .edi, .addl 1 .esi]

/-- From `.memcpy_aligned` to the `rep`. -/
def splitCount : List (Instr MemcpyLabel) :=
  [.label .aligned, .movwDs .edx, .movwEs .edx, .movl .ecx .edx, .shrl 2 .ecx, .andl 3 .edx, .cld]

def memcpyLoop : List (Instr MemcpyLabel) :=
  [.label .top, .testl .ecx .ecx, .jz .done, .testlImm 3 .edi, .jz .aligned] ++ byteMove ++
  [.subl 1 .ecx, .jmp .top] ++ splitCount ++ [.repMovsl] ++
  [.label .bottom, .testl .edx .edx, .jz .done] ++ byteMove ++
  [.subl 1 .edx, .jmp .bottom, .label .done]

/-- The operands of the `asm` statement. -/
def memcpyEntry (c : Cpu) (dest src n : BitVec 32) : Cpu :=
  { c with pc := 0, regs := { c.regs with edi := dest, esi := src, ecx := n } }

/-! ## Bytes and double words -/

/-- The first `i` bytes are copied, and `esi` and `edi` stand behind them. -/
structure Progress (c₀ : Cpu) (dest src : BitVec 32) (i : Nat) (c : Cpu) : Prop where
  esi : c.regs.esi = byteAddr src i
  edi : c.regs.edi = byteAddr dest i
  ds : c.ds = c₀.ds
  base : c.base = c₀.base
  mem : Copied c₀.mem (c₀.base c₀.ds + dest) (c₀.base c₀.ds + src) i c.mem

variable {c₀ c : Cpu} {dest src : BitVec 32} {n i k : Nat}

theorem add_byteAddr (b a : BitVec 32) (i : Nat) : b + byteAddr a i = byteAddr (b + a) i :=
  (BitVec.add_assoc _ _ _).symm

/-- The linear addresses are apart when the offsets are. -/
theorem apart_add (b : BitVec 32) (h : Apart dest src n) : Apart (b + dest) (b + src) n := by
  intro i hi j hj heq
  rw [← add_byteAddr, ← add_byteAddr, BitVec.add_right_inj] at heq
  exact h i hi j hj heq

/-- Everything but the pointers, the segment and the memory may change. -/
theorem Progress.congr (h : Progress c₀ dest src i c) {c' : Cpu} (hesi : c'.regs.esi = c.regs.esi)
    (hedi : c'.regs.edi = c.regs.edi) (hds : c'.ds = c.ds) (hbase : c'.base = c.base) (hmem : c'.mem = c.mem) :
    Progress c₀ dest src i c' :=
  ⟨hesi.trans h.esi, hedi.trans h.edi, hds.trans h.ds, hbase.trans h.base, hmem ▸ h.mem⟩

theorem Progress.byte (h : Progress c₀ dest src i c) (hapart : Apart dest src n) (hn : n < 2 ^ 32) (hi : i < n) :
    Progress c₀ dest src (i + 1) (runBlock byteMove c) := by
  have hblock := h.mem.block (apart_add (c₀.base c₀.ds) hapart) hn.le (show i + 1 ≤ n from hi)
  have hmem : (runBlock byteMove c).mem = storeBytes c.mem (byteAddr (c₀.base c₀.ds + dest) i)
      (loadBytes c.mem (byteAddr (c₀.base c₀.ds + src) i) 1) := by
    show Function.update c.mem (c.base c.ds + c.regs.edi)
      (lowByte (setLowByte c.regs.eax (c.mem (c.base c.ds + c.regs.esi)))) = _
    rw [lowByte_setLowByte, h.base, h.ds, h.esi, h.edi, add_byteAddr, add_byteAddr]
    show _ = Function.update c.mem _ (c.mem (byteAddr (byteAddr (c₀.base c₀.ds + src) i) 0))
    rw [byteAddr_zero]
  refine ⟨?_, ?_, h.ds, h.base, hmem ▸ hblock⟩
  · show c.regs.esi + 1 = _
    rw [h.esi]
    exact byteAddr_byteAddr src i 1
  · show c.regs.edi + 1 = _
    rw [h.edi]
    exact byteAddr_byteAddr dest i 1

theorem Progress.repRound (h : Progress c₀ dest src i c) (hapart : Apart dest src n) (hn : n < 2 ^ 32)
    (hi : i + 4 ≤ n) (hes : c.es = c.ds) (hdf : c.df = false) : Progress c₀ dest src (i + 4) c.repRound := by
  have hblock := h.mem.block (apart_add (c₀.base c₀.ds) hapart) hn.le hi
  have hdelta : (if c.df then (-4 : BitVec 32) else 4) = 4 := by
    rw [hdf]
    rfl
  have hmem : c.repRound.mem = storeBytes c.mem (byteAddr (c₀.base c₀.ds + dest) i)
      (loadBytes c.mem (byteAddr (c₀.base c₀.ds + src) i) 4) := by
    show storeBytes c.mem (c.base c.es + c.regs.edi) (loadBytes c.mem (c.base c.ds + c.regs.esi) 4) = _
    rw [hes, h.base, h.ds, h.esi, h.edi, add_byteAddr, add_byteAddr]
  refine ⟨?_, ?_, h.ds, h.base, hmem ▸ hblock⟩
  · show c.regs.esi + (if c.df then -4 else 4) = _
    rw [hdelta, h.esi]
    exact byteAddr_byteAddr src i 4
  · show c.regs.edi + (if c.df then -4 else 4) = _
    rw [hdelta, h.edi]
    exact byteAddr_byteAddr dest i 4

/-! ## The loops -/

/-- Counting down a register that is not zero. -/
theorem ofNat_sub_one {i n : Nat} (hi : i < n) : BitVec.ofNat 32 (n - i) - 1 = BitVec.ofNat 32 (n - (i + 1)) := by
  rw [show n - i = n - (i + 1) + 1 by omega, BitVec.ofNat_add]
  exact BitVec.add_sub_cancel _ _

theorem ofNat_eq_zero_iff {i n : Nat} (hi : i ≤ n) (hn : n < 2 ^ 32) : BitVec.ofNat 32 (n - i) = 0 ↔ i = n := by
  constructor
  · intro h
    have hnat := congrArg BitVec.toNat h
    rw [BitVec.toNat_ofNat, Nat.mod_eq_of_lt (by omega)] at hnat
    have : n - i = 0 := hnat
    omega
  · rintro rfl
    rw [Nat.sub_self]
    rfl

/-- The test at the head of the two loops, of the register that counts what is left. -/
theorem Progress.leads_test (h : Progress c₀ dest src i c) (hi : i ≤ n) (hn : n < 2 ^ 32) {l : MemcpyLabel} {r : Reg}
    (hblock : [.label l, .testl r r] <+: memcpyLoop.drop c.pc) (hjz : memcpyLoop[c.pc + 2]? = some (.jz .done))
    (hcount : c.regs.get r = BitVec.ofNat 32 (n - i)) :
    ∃ c', Leads (step memcpyLoop) c c' ∧ c'.pc = (if i = n then 28 else c.pc + 3) ∧ c'.regs = c.regs ∧
      Progress c₀ dest src i c' := by
  refine ⟨_, (leads_block rfl hblock).trans (leads_jz hjz), ?_, rfl, h.congr rfl rfl rfl rfl rfl⟩
  show (if decide (c.regs.get r &&& c.regs.get r = 0) = true then 28 else c.pc + 3) = _
  simp only [decide_eq_true_eq, BitVec.and_self, hcount, ofNat_eq_zero_iff hi hn]

/-- The test of the destination's alignment. -/
theorem Progress.leads_align (h : Progress c₀ dest src i c) (hpc : c.pc = 3) :
    ∃ c', Leads (step memcpyLoop) c c' ∧ c'.pc = (if 3 &&& c.regs.edi = 0 then 11 else 5) ∧ c'.regs = c.regs ∧
      Progress c₀ dest src i c' := by
  have hblock : [.testlImm 3 .edi] <+: memcpyLoop.drop c.pc := by rw [hpc]; decide
  have hjz : memcpyLoop[c.pc + 1]? = some (.jz .aligned) := by rw [hpc]; rfl
  refine ⟨_, (leads_block rfl hblock).trans (leads_jz hjz), ?_, rfl, h.congr rfl rfl rfl rfl rfl⟩
  show (if decide (3 &&& c.regs.edi = 0) = true then 11 else c.pc + 2) = _
  simp only [decide_eq_true_eq, hpc]

/-- The body of the two loops: a byte, and the count goes down. -/
theorem Progress.leads_body (h : Progress c₀ dest src i c) (hapart : Apart dest src n) (hn : n < 2 ^ 32) (hi : i < n)
    {l : MemcpyLabel} {r : Reg} (hr : r = .ecx ∨ r = .edx)
    (hblock : byteMove ++ [.subl 1 r] <+: memcpyLoop.drop c.pc) (hjmp : memcpyLoop[c.pc + 5]? = some (.jmp l))
    (hcount : c.regs.get r = BitVec.ofNat 32 (n - i)) :
    ∃ c', Leads (step memcpyLoop) c c' ∧ c'.pc = target memcpyLoop l ∧ Progress c₀ dest src (i + 1) c' ∧
      c'.regs.get r = BitVec.ofNat 32 (n - (i + 1)) := by
  have hbody := leads_block rfl hblock
  refine ⟨_, hbody.trans (leads_jmp hjmp), rfl, ?_, ?_⟩
  · rcases hr with rfl | rfl
    · exact (h.byte hapart hn hi).congr rfl rfl rfl rfl rfl
    · exact (h.byte hapart hn hi).congr rfl rfl rfl rfl rfl
  · rw [← ofNat_sub_one hi, ← hcount]
    rcases hr with rfl | rfl
    · rfl
    · rfl

/-- Bytes until the destination is aligned or nothing is left. -/
theorem Progress.top (hapart : Apart dest src n) (hn : n < 2 ^ 32) (left : Nat) :
    ∀ (i : Nat) (c : Cpu), i + left = n → Progress c₀ dest src i c → c.pc = 0 →
      c.regs.ecx = BitVec.ofNat 32 (n - i) →
      ∃ c' j, Leads (step memcpyLoop) c c' ∧ j ≤ n ∧ Progress c₀ dest src j c' ∧
        (j = n ∧ c'.pc = 28 ∨ c'.pc = 11 ∧ c'.regs.ecx = BitVec.ofNat 32 (n - j)) := by
  induction left with
  | zero =>
    intro i c hleft h hpc hecx
    obtain rfl : i = n := hleft
    obtain ⟨c₁, hc₁, hpc₁, -, h₁⟩ := h.leads_test (le_refl i) hn (l := .top) (r := .ecx) (by rw [hpc]; decide)
      (by rw [hpc]; rfl) hecx
    rw [if_pos rfl] at hpc₁
    exact ⟨c₁, i, hc₁, le_refl i, h₁, Or.inl ⟨rfl, hpc₁⟩⟩
  | succ left ih =>
    intro i c hleft h hpc hecx
    obtain ⟨c₁, hc₁, hpc₁, hregs₁, h₁⟩ := h.leads_test (by omega) hn (l := .top) (r := .ecx) (by rw [hpc]; decide)
      (by rw [hpc]; rfl) hecx
    rw [if_neg (by omega), hpc] at hpc₁
    obtain ⟨c₂, hc₂, hpc₂, hregs₂, h₂⟩ := h₁.leads_align hpc₁
    have hecx₂ : c₂.regs.ecx = BitVec.ofNat 32 (n - i) := by rw [hregs₂, hregs₁, hecx]
    by_cases hedi : 3 &&& c₁.regs.edi = 0
    · rw [if_pos hedi] at hpc₂
      exact ⟨c₂, i, hc₁.trans hc₂, by omega, h₂, Or.inr ⟨hpc₂, hecx₂⟩⟩
    · rw [if_neg hedi] at hpc₂
      obtain ⟨c₃, hc₃, hpc₃, h₃, hecx₃⟩ := h₂.leads_body hapart hn (by omega) (l := .top) (Or.inl rfl)
        (by rw [hpc₂]; decide) (by rw [hpc₂]; rfl) hecx₂
      obtain ⟨c', j, hc', hrest⟩ := ih (i + 1) c₃ (by omega) h₃ hpc₃ hecx₃
      exact ⟨c', j, ((hc₁.trans hc₂).trans hc₃).trans hc', hrest⟩

/-- The double words are in `ecx`, the bytes behind them in `edx`. -/
theorem runBlock_splitCount (c : Cpu) : runBlock splitCount c =
    { c with
      pc := c.pc + 7
      regs := { c.regs with ecx := c.regs.ecx >>> 2, edx := c.regs.ecx &&& 3 }
      zf := decide (c.regs.ecx &&& 3 = 0)
      df := false
      es := c.ds } := by
  simp only [splitCount, runBlock, Instr.effect, Cpu.result, Regs.set, Regs.get, lowWord_setLowWord]

/-- The count is split into double words and the bytes behind them. -/
theorem Progress.leads_split (h : Progress c₀ dest src i c) (hn : n < 2 ^ 32) (hpc : c.pc = 11)
    (hecx : c.regs.ecx = BitVec.ofNat 32 (n - i)) :
    ∃ c', Leads (step memcpyLoop) c c' ∧ c'.pc = 18 ∧ c'.regs.ecx = BitVec.ofNat 32 ((n - i) / 4) ∧
      c'.regs.edx = BitVec.ofNat 32 ((n - i) % 4) ∧ c'.es = c'.ds ∧ c'.df = false ∧ Progress c₀ dest src i c' := by
  have hlt : n - i < 2 ^ 32 := by omega
  have hquarter : c.regs.ecx >>> 2 = BitVec.ofNat 32 ((n - i) / 4) := by
    apply BitVec.eq_of_toNat_eq
    rw [hecx, BitVec.toNat_ushiftRight, BitVec.toNat_ofNat, BitVec.toNat_ofNat, Nat.mod_eq_of_lt hlt,
      Nat.mod_eq_of_lt (by omega), Nat.shiftRight_eq_div_pow]
  have hrest : c.regs.ecx &&& 3 = BitVec.ofNat 32 ((n - i) % 4) := by
    apply BitVec.eq_of_toNat_eq
    rw [hecx, BitVec.toNat_and, BitVec.toNat_ofNat, BitVec.toNat_ofNat, Nat.mod_eq_of_lt hlt,
      Nat.mod_eq_of_lt (by omega), show (3 : BitVec 32).toNat = 2 ^ 2 - 1 from rfl, Nat.and_two_pow_sub_one_eq_mod]
  have hsplit : Leads (step memcpyLoop) c (runBlock splitCount c) := leads_block rfl (by rw [hpc]; decide)
  rw [runBlock_splitCount, hpc] at hsplit
  exact ⟨_, hsplit, rfl, hquarter, hrest, rfl, rfl, h.congr rfl rfl rfl rfl rfl⟩

/-- The double words are copied, and the bytes behind them are left. -/
theorem Progress.aligned (h : Progress c₀ dest src i c) (hapart : Apart dest src n) (hn : n < 2 ^ 32) (hi : i ≤ n)
    (hpc : c.pc = 11) (hecx : c.regs.ecx = BitVec.ofNat 32 (n - i)) :
    ∃ c' j, Leads (step memcpyLoop) c c' ∧ j ≤ n ∧ Progress c₀ dest src j c' ∧ c'.pc = 19 ∧
      c'.regs.edx = BitVec.ofNat 32 (n - j) := by
  obtain ⟨c₁, hc₁, hpc₁, hecx₁, hedx₁, hes₁, hdf₁, h₁⟩ := h.leads_split hn hpc hecx
  -- through the rounds of the `rep`, the count of the bytes after it stays in `edx`
  obtain ⟨c', hc', h', -, -, hedx⟩ := leads_repMovsl
    (I := fun k c' => Progress c₀ dest src (i + 4 * k) c' ∧ c'.es = c'.ds ∧ c'.df = false ∧
      c'.regs.edx = BitVec.ofNat 32 ((n - i) % 4))
    (show (n - i) / 4 < 2 ^ 32 by omega)
    (fun k c' hk ⟨h', hes, hdf, hedx⟩ => ⟨h'.repRound hapart hn (by omega) hes hdf, hes, hdf, hedx⟩)
    ((n - i) / 4) 0 c₁ (Nat.zero_add _) (show memcpyLoop[c₁.pc]? = some .repMovsl by rw [hpc₁]; rfl) hecx₁
    ⟨h₁, hes₁, hdf₁, hedx₁⟩
  refine ⟨_, i + 4 * ((n - i) / 4), hc₁.trans hc', by omega, h'.congr rfl rfl rfl rfl rfl, ?_, ?_⟩
  · show c₁.pc + 1 = 19
    rw [hpc₁]
  · show c'.regs.edx = _
    rw [hedx]
    congr 1
    omega

/-- The bytes behind the last double word. -/
theorem Progress.bottom (hapart : Apart dest src n) (hn : n < 2 ^ 32) (left : Nat) :
    ∀ (i : Nat) (c : Cpu), i + left = n → Progress c₀ dest src i c → c.pc = 19 →
      c.regs.edx = BitVec.ofNat 32 (n - i) →
      ∃ c', Leads (step memcpyLoop) c c' ∧ Progress c₀ dest src n c' ∧ c'.pc = 28 := by
  induction left with
  | zero =>
    intro i c hleft h hpc hedx
    obtain rfl : i = n := hleft
    obtain ⟨c₁, hc₁, hpc₁, -, h₁⟩ := h.leads_test (le_refl i) hn (l := .bottom) (r := .edx) (by rw [hpc]; decide)
      (by rw [hpc]; rfl) hedx
    rw [if_pos rfl] at hpc₁
    exact ⟨c₁, hc₁, h₁, hpc₁⟩
  | succ left ih =>
    intro i c hleft h hpc hedx
    obtain ⟨c₁, hc₁, hpc₁, hregs₁, h₁⟩ := h.leads_test (by omega) hn (l := .bottom) (r := .edx) (by rw [hpc]; decide)
      (by rw [hpc]; rfl) hedx
    rw [if_neg (by omega), hpc] at hpc₁
    obtain ⟨c₂, hc₂, hpc₂, h₂, hedx₂⟩ := h₁.leads_body hapart hn (by omega) (l := .bottom) (Or.inr rfl)
      (by rw [hpc₁]; decide) (by rw [hpc₁]; rfl) (by rw [hregs₁]; exact hedx)
    obtain ⟨c', hc', hrest⟩ := ih (i + 1) c₂ (by omega) h₂ hpc₂ hedx₂
    exact ⟨c', (hc₁.trans hc₂).trans hc', hrest⟩

/-! ## The copy -/

/-- The loop comes to its end with the bytes copied. -/
theorem memcpyLoop_copied (c : Cpu) {dest src n : BitVec 32} (hapart : Apart dest src n.toNat) :
    ∃ c', Leads (step memcpyLoop) (memcpyEntry c dest src n) c' ∧ Halted memcpyLoop c' ∧
      Copied c.mem (c.base c.ds + dest) (c.base c.ds + src) n.toNat c'.mem := by
  have hstart : Progress (memcpyEntry c dest src n) dest src 0 (memcpyEntry c dest src n) :=
    ⟨(byteAddr_zero src).symm, (byteAddr_zero dest).symm, rfl, rfl, Copied.start _ _ _⟩
  have hcount : (memcpyEntry c dest src n).regs.ecx = BitVec.ofNat 32 (n.toNat - 0) :=
    ((BitVec.ofNat_toNat 32 n).trans (BitVec.setWidth_eq n)).symm
  obtain ⟨c₁, j, hc₁, hj, h₁, hend⟩ :=
    Progress.top hapart n.isLt n.toNat 0 _ (Nat.zero_add _) hstart rfl hcount
  have hrest : ∃ c₂, Leads (step memcpyLoop) c₁ c₂ ∧ Progress (memcpyEntry c dest src n) dest src n.toNat c₂ ∧
      c₂.pc = 28 := by
    rcases hend with ⟨rfl, hpc⟩ | ⟨hpc, hecx⟩
    · exact ⟨c₁, .refl _ _, h₁, hpc⟩
    · obtain ⟨c₂, l, hc₂, hl, h₂, hpc₂, hedx⟩ := h₁.aligned hapart n.isLt hj hpc hecx
      obtain ⟨c₃, hc₃, h₃, hpc₃⟩ := Progress.bottom hapart n.isLt (n.toNat - l) l c₂ (by omega) h₂ hpc₂ hedx
      exact ⟨c₃, hc₂.trans hc₃, h₃, hpc₃⟩
  obtain ⟨c₂, hc₂, h₂, hpc₂⟩ := hrest
  have hlast : Leads (step memcpyLoop) c₂ (runBlock [.label MemcpyLabel.done] c₂) :=
    leads_block rfl (by rw [hpc₂]; decide)
  refine ⟨_, (hc₁.trans hc₂).trans hlast, ?_, h₂.mem⟩
  show 29 ≤ c₂.pc + 1
  rw [hpc₂]

/-- **`memcpy`.** From every destination, source and length, when neither range wraps and they do not overlap, the loop
comes to its end with the bytes of the source in the destination and every other byte of the memory as it was. -/
theorem memcpy_copies (c : Cpu) {dest src n : BitVec 32} (hdest : dest.toNat + n.toNat ≤ 2 ^ 32)
    (hsrc : src.toNat + n.toNat ≤ 2 ^ 32)
    (hdisjoint : dest.toNat + n.toNat ≤ src.toNat ∨ src.toNat + n.toNat ≤ dest.toNat) :
    ∃ c', Leads (step memcpyLoop) (memcpyEntry c dest src n) c' ∧ Halted memcpyLoop c' ∧
      (∀ i < n.toNat, c'.mem (c.base c.ds + (dest + BitVec.ofNat 32 i)) =
        c.mem (c.base c.ds + (src + BitVec.ofNat 32 i))) ∧
      ∀ a, (∀ i < n.toNat, a ≠ c.base c.ds + (dest + BitVec.ofNat 32 i)) → c'.mem a = c.mem a := by
  obtain ⟨c', hrun, hhalted, hcopied⟩ := memcpyLoop_copied c (apart_of_disjoint hdest hsrc hdisjoint)
  refine ⟨c', hrun, hhalted, fun i hi => ?_, fun a ha => hcopied.frame a fun i hi => ?_⟩
  · have hbyte := hcopied.copied i hi
    rwa [← add_byteAddr, ← add_byteAddr] at hbyte
  · rw [← add_byteAddr]
    exact ha i hi

/-- A processor with the direction flag set and another segment in `es`; each byte is the low byte of its address. -/
def lowByteCpu : Cpu :=
  ⟨0, ⟨0, 0, 0, 0, 0⟩, false, true, 0x18, 0x2B, fun _ => 0, fun a => lowByte a⟩

/-- Seven bytes: two up to the alignment of the destination, a double word, and one more. -/
theorem memcpy_copies_seven : ∃ c', Leads (step memcpyLoop) (memcpyEntry lowByteCpu 0x1002 0x2001 7) c' ∧
    Halted memcpyLoop c' ∧ c'.mem 0x1008 = 0x07 ∧ c'.mem 0x1009 = 0x09 := by
  obtain ⟨c', hrun, hhalted, hcopied, hframe⟩ :=
    memcpy_copies lowByteCpu (show (0x1002 : BitVec 32).toNat + (7 : BitVec 32).toNat ≤ 2 ^ 32 by decide)
      (show (0x2001 : BitVec 32).toNat + (7 : BitVec 32).toNat ≤ 2 ^ 32 by decide) (by decide)
  have hlast := hcopied 6 (by decide)
  have hnext := hframe 0x1009 (by decide)
  rw [show lowByteCpu.base lowByteCpu.ds + (0x1002 + BitVec.ofNat 32 6) = 0x1008 by decide] at hlast
  exact ⟨c', hrun, hhalted, hlast.trans (by decide), hnext.trans (by decide)⟩

/-- In the kernel's segments, which start at address 0, the loop leaves what `memcpy` of the screens does. -/
theorem memcpyLoop_refines (c : Cpu) {dest src n : BitVec 32} (hflat : c.base c.ds = 0) (m : Int → UInt8)
    (hm : c.mem = fun a => m a.toNat) (hdest : dest.toNat + n.toNat ≤ 2 ^ 32) (hsrc : src.toNat + n.toNat ≤ 2 ^ 32)
    (hdisjoint : dest.toNat + n.toNat ≤ src.toNat ∨ src.toNat + n.toNat ≤ dest.toNat) :
    ∃ c', Leads (step memcpyLoop) (memcpyEntry c dest src n) c' ∧ Halted memcpyLoop c' ∧
      c'.mem = fun a => memcpy m dest.toNat src.toNat n.toNat a.toNat := by
  obtain ⟨c', hrun, hhalted, hcopied⟩ := memcpyLoop_copied c (apart_of_disjoint hdest hsrc hdisjoint)
  rw [hflat, show (0 : BitVec 32) + dest = dest from BitVec.zero_add dest,
    show (0 : BitVec 32) + src = src from BitVec.zero_add src] at hcopied
  refine ⟨c', hrun, hhalted, ?_⟩
  funext a
  unfold memcpy
  split_ifs with hin
  · have hi : a.toNat - dest.toNat < n.toNat := by omega
    have ha : a = byteAddr dest (a.toNat - dest.toNat) := by
      apply BitVec.eq_of_toNat_eq
      rw [toNat_byteAddr (by omega)]
      omega
    have hbyte := hcopied.copied _ hi
    rw [← ha, hm] at hbyte
    dsimp only at hbyte
    rw [hbyte, toNat_byteAddr (by omega)]
    congr 1
    omega
  · rw [hcopied.frame a fun i hi heq => ?_, hm]
    have hnat := congrArg BitVec.toNat heq
    rw [toNat_byteAddr (by omega)] at hnat
    omega

end BasicOs
