import BasicOs.Lib.Nested

/-!
# The assembly between programs and the kernel

`idt_setup.c` fills the gates, `interrupt_helper.S`, `exception_linkage.S` and `syscall_linkage.S` are what the gates
lead to. The C functions that they call are known by the calling convention only.

* `idtSetup`, `idtSetup_gate` : the table as `idt_setup` leaves it, and what the processor reads in it;
* `interruptRoutine`, `systemCallWrapper` : the routines; `Linked` : a machine that has them;
* `Linked.handlers` : an interrupt leaves no trace in what it interrupts;
* `Runs` : a program as it sees itself, with a system call as one step; `Stands` : where the processor is for it;
* `Linked.outer_step`, `Linked.asking_step`, `Linked.back_step` : the steps of the program, of its call and of the way
  back; `kernel_entries_atomic` : the machine, with its gates, stacks and interrupts, runs programs like that;
* `kernelMachine` : a machine with the routines.
-/

namespace BasicOs.Linkage
open Trap Run

/-! ## Functions and routines -/

inductive Exception
  | divideErr
  | debug
  | nmi
  | breakpoint
  | overflow
  | boundRange
  | invalidOpcode
  | deviceNotAvail
  | doubleFault
  | coprocSegOverrun
  | invalidTss
  | segNotPresent
  | stackSegFault
  | generalProtection
  | pageFault
  | fpuFloatErr
  | alignCheck
  | machineCheck
  | simdFloatErr

inductive Device
  | pit
  | keyboard
  | rtc

inductive SysCall
  | halt
  | execute
  | read
  | write
  | open
  | close
  | getargs
  | vidmap
  deriving DecidableEq

/-- The C functions that the routines call: `divide_err_excep` to `simd_float_err_excep`, `PIT_handler`,
`keyboard_handler`, `rtc_handler`, and `sys_halt` to `sys_vidmap`. -/
inductive Function
  | excep (e : Exception)
  | handler (d : Device)
  | sys (f : SysCall)

/-- `DIVIDE_ERR_EXCEP` to `SIMD_FLOAT_ERR_EXCEP`, `PIT_INTERRUPT`, `KEYBOARD_INTERRUPT`, `RTC_INTERRUPT`, and
`SYSTEM_CALL_WRAPPER`. -/
inductive Routine
  | excep (e : Exception)
  | interrupt (d : Device)
  | systemCall

/-- The place in `jump_table`. -/
def SysCall.number : SysCall → Nat
  | .halt => 1
  | .execute => 2
  | .read => 3
  | .write => 4
  | .open => 5
  | .close => 6
  | .getargs => 7
  | .vidmap => 8

/-- How many words `sys_halt` to `sys_vidmap` are declared to take. -/
def SysCall.args : SysCall → Nat
  | .halt => 1
  | .execute => 1
  | .read => 3
  | .write => 3
  | .open => 1
  | .close => 1
  | .getargs => 2
  | .vidmap => 1

def Function.args : Function → Nat
  | .excep _ => 0
  | .handler _ => 0
  | .sys f => f.args

/-- The vector of a device: the controllers count from 0x20 and 0x28 (`ICW2_MASTER`, `ICW2_SLAVE`). -/
def Device.vector : Device → UInt8
  | .pit => 0x20
  | .keyboard => 0x21
  | .rtc => 0x28

/-! ## The interrupt descriptor table -/

/-- `idt_desc_t`. -/
structure IdtDesc where
  offset_15_00 : BitVec 16
  segSelector : BitVec 16
  reserved4 : BitVec 8
  reserved3 : BitVec 1
  reserved2 : BitVec 1
  reserved1 : BitVec 1
  size : BitVec 1
  reserved0 : BitVec 1
  dpl : BitVec 2
  present : BitVec 1
  offset_31_16 : BitVec 16

/-- `val[0]`. -/
def IdtDesc.lo (d : IdtDesc) : Word := d.segSelector ++ d.offset_15_00

/-- The low half of `val[1]`. -/
def IdtDesc.flags (d : IdtDesc) : BitVec 16 :=
  d.present ++ (d.dpl ++ (d.reserved0 ++ (d.size ++ (d.reserved1 ++ (d.reserved2 ++ (d.reserved3 ++ d.reserved4))))))

/-- `val[1]`. -/
def IdtDesc.hi (d : IdtDesc) : Word := d.offset_31_16 ++ d.flags

def IdtDesc.zero : IdtDesc := ⟨0, 0, 0, 0, 0, 0, 0, 0, 0, 0, 0⟩

def kernelCs : BitVec 16 := 0x0010

def numVec : Nat := 256

/-- `SET_IDT_ENTRY`. -/
def setIdtEntry (str : IdtDesc) (handler : Word) : IdtDesc :=
  { str with
    offset_31_16 := ((handler &&& 0xFFFF0000) >>> 16).setWidth 16
    offset_15_00 := (handler &&& 0xFFFF).setWidth 16 }

/-- What the loop of `idt_setup` writes to entry `i`. -/
def initEntry (i : Nat) (str : IdtDesc) : IdtDesc :=
  { str with
    segSelector := kernelCs
    reserved4 := 0
    reserved3 := if i < 32 then 1 else 0
    reserved2 := 1
    reserved1 := 1
    size := 1
    reserved0 := 0
    dpl := if i = 0x80 then 3 else 1
    present := 1 }

/-- The entries that `idt_setup` sets. -/
def idtEntries : List (Nat × Routine) :=
  [(0x00, .excep .divideErr), (0x01, .excep .debug), (0x02, .excep .nmi), (0x03, .excep .breakpoint),
    (0x04, .excep .overflow), (0x05, .excep .boundRange), (0x06, .excep .invalidOpcode),
    (0x07, .excep .deviceNotAvail), (0x08, .excep .doubleFault), (0x09, .excep .coprocSegOverrun),
    (0x0A, .excep .invalidTss), (0x0B, .excep .segNotPresent), (0x0C, .excep .stackSegFault),
    (0x0D, .excep .generalProtection), (0x0E, .excep .pageFault), (0x10, .excep .fpuFloatErr),
    (0x11, .excep .alignCheck), (0x12, .excep .machineCheck), (0x13, .excep .simdFloatErr),
    (0x20, .interrupt .pit), (0x21, .interrupt .keyboard), (0x28, .interrupt .rtc), (0x80, .systemCall)]

/-- `idt_setup`, on the table of zeros that `x86_desc.S` reserves. -/
def idtSetup (address : Routine → Word) : Nat → IdtDesc :=
  let idt := forUp 0 numVec (fun i idt => Function.update idt i (initEntry i (idt i))) fun _ => .zero
  idtEntries.foldl (fun idt p => Function.update idt p.1 (setIdtEntry (idt p.1) (address p.2))) idt

/-- What the processor reads in entry `v`. -/
def idtGate (address : Routine → Word) (v : Nat) : Gate :=
  let d := idtSetup address v
  .ofWords d.lo d.hi

/-- The gate of a vector below 256 that `idt_setup` gives the address `w`. -/
def gateTo (v : Nat) (w : Word) : Gate := ⟨w, 0x10, v < 32, if v = 0x80 then 3 else 1, true⟩

theorem initLoop (idt : Nat → IdtDesc) (n v : Nat) :
    forUp 0 n (fun i idt => Function.update idt i (initEntry i (idt i))) idt v =
      if v < n then initEntry v (idt v) else idt v := by
  induction n with
  | zero => rfl
  | succ n ih =>
    rw [forUp_succ_last, Nat.zero_add]
    by_cases hv : v = n
    · subst hv
      rw [Function.update_self, if_pos (Nat.lt_succ_self v), ih, if_neg (Nat.lt_irrefl v)]
    · rw [Function.update_of_ne hv, ih]
      by_cases hlt : v < n
      · rw [if_pos hlt, if_pos (Nat.lt_succ_of_lt hlt)]
      · rw [if_neg hlt, if_neg (by omega)]

/-- Different entries are set. -/
theorem setLoop {address : Routine → Word} : ∀ (entries : List (Nat × Routine)) (idt : Nat → IdtDesc) (v : Nat),
    (entries.map Prod.fst).Nodup →
    entries.foldl (fun idt p => Function.update idt p.1 (setIdtEntry (idt p.1) (address p.2))) idt v =
      match entries.find? fun p => p.1 = v with
      | some p => setIdtEntry (idt v) (address p.2)
      | none => idt v
  | [], _, _, _ => rfl
  | (u, r) :: entries, idt, v, hnd => by
    rw [List.map_cons, List.nodup_cons] at hnd
    rw [List.foldl_cons, setLoop entries _ v hnd.2, List.find?_cons]
    by_cases hv : u = v
    · subst hv
      have hnone : entries.find? (fun p => p.1 = u) = none := by
        rw [List.find?_eq_none]
        intro p hp hpu
        exact hnd.1 (List.mem_map.mpr ⟨p, hp, of_decide_eq_true hpu⟩)
      rw [hnone]
      simp
    · rw [Function.update_of_ne (Ne.symm hv)]
      simp [hv]

theorem offset_setIdtEntry (str : IdtDesc) (w : Word) :
    (setIdtEntry str w).offset_31_16 ++ (setIdtEntry str w).offset_15_00 = w := by
  have hlow : ∀ i < 16, (0xFFFF : Word).getLsbD i = true := by decide
  have hhigh : ∀ i < 16, (0xFFFF0000 : Word).getLsbD (16 + i) = true := by decide
  unfold setIdtEntry
  apply BitVec.eq_of_getLsbD_eq
  intro i hi
  dsimp only
  rw [BitVec.getLsbD_append]
  split_ifs with h
  · rw [BitVec.getLsbD_setWidth, BitVec.getLsbD_and, hlow i h]
    simp [h]
  · obtain ⟨j, rfl⟩ := Nat.exists_eq_add_of_le (Nat.le_of_not_lt h)
    have hj : j < 16 := by omega
    rw [Nat.add_sub_cancel_left, BitVec.getLsbD_setWidth, BitVec.getLsbD_ushiftRight, BitVec.getLsbD_and, hhigh j hj]
    simp [hj]

/-- An entry that the loop has filled is the gate of its vector to its offset. -/
theorem ofWords_initEntry (v : Nat) (str : IdtDesc) (high low : BitVec 16) :
    let d := { initEntry v str with offset_31_16 := high, offset_15_00 := low }
    Gate.ofWords d.lo d.hi = gateTo v (high ++ low) := by
  intro d
  have hflags : d.flags = (if v = 0x80 then 0xEE00 else if v < 32 then 0xAF00 else 0xAE00) := by
    show (initEntry v str).flags = _
    unfold initEntry IdtDesc.flags
    dsimp only
    split_ifs with h32 h80 h80
    · omega
    · decide
    · decide
    · decide
  unfold IdtDesc.lo IdtDesc.hi
  rw [Gate.ofWords_append, hflags]
  unfold gateTo
  by_cases h80 : v = 0x80
  · subst h80
    simp [d, initEntry, kernelCs]
  · by_cases h32 : v < 32
    · simp [d, initEntry, kernelCs, h80, h32]
    · simp [d, initEntry, kernelCs, h80, h32]

/-- **The table.** Every entry leads to the routine that is set for it, and to address 0 where none is. -/
theorem idtSetup_gate (address : Routine → Word) {v : Nat} (hv : v < 256) :
    idtGate address v = gateTo v (match idtEntries.find? fun p => p.1 = v with
      | some p => address p.2
      | none => 0) := by
  unfold idtGate idtSetup
  dsimp only
  rw [setLoop _ _ _ (by decide), initLoop, if_pos (show v < numVec from hv)]
  generalize idtEntries.find? (fun p => p.1 = v) = r
  cases r with
  | none => exact ofWords_initEntry v .zero 0 0
  | some p =>
    have hset := ofWords_initEntry v .zero (setIdtEntry (initEntry v .zero) (address p.2)).offset_31_16
      (setIdtEntry (initEntry v .zero) (address p.2)).offset_15_00
    rw [offset_setIdtEntry] at hset
    exact hset

/-! ## The routines -/

/-- The routines of `interrupt_helper.S` and `exception_linkage.S`: around the call of `handler` they are the same. -/
def interruptRoutine (handler : Word) : List Instr :=
  [.cli, .pushal, .pushfl, .call handler, .popfl, .popal, .sti, .iret]

/-- `SYSTEM_CALL_WRAPPER`. `invalid_idx` is instruction 12, `cleanup_call` instruction 13. -/
def systemCallWrapper (invalidIdx cleanupCall : Word) (jumpTable : List Word) : List Instr :=
  [.cli, .pushfl, .pushl .edx, .pushl .ecx, .pushl .ebx, .sti,
    .cmplImm 1 .eax, .jb invalidIdx, .cmplImm 8 .eax, .ja invalidIdx,
    .callTable jumpTable .eax, .jmp cleanupCall,
    .orlImm 0xFFFFFFFF .eax,
    .popl .ebx, .popl .ecx, .popl .edx, .popfl, .iret]

/-- `jump_table`. -/
def jumpTable (entry : Function → Word) : List Word :=
  [0, entry (.sys .halt), entry (.sys .execute), entry (.sys .read), entry (.sys .write), entry (.sys .open),
    entry (.sys .close), entry (.sys .getargs), entry (.sys .vidmap)]

/-- The instructions of a routine; `place` are their addresses. -/
def Routine.code (entry : Function → Word) (place : Routine → Nat → Word) : Routine → List Instr
  | .excep e => interruptRoutine (entry (.excep e))
  | .interrupt d => interruptRoutine (entry (.handler d))
  | .systemCall => systemCallWrapper (place .systemCall 12) (place .systemCall 13) (jumpTable entry)

/-- A machine with the gates of `idt_setup` and the routines, as one process sees it while it does not end. The inner
stack is the kernel stack of that process. -/
structure Linked (M : Machine Function) (place : Routine → Nat → Word) : Prop where
  gates : ∀ v, M.tables.gate v = idtGate (fun r => place r 0) v.toNat
  code : ∀ r i instr, (r.code M.entry place)[i]? = some instr → M.code (place r i) = some (instr, place r (i + 1))
  args : ∀ f, M.args f = f.args
  entries : ∀ f, M.code (M.entry f) = none
  entry_injective : Function.Injective M.entry
  room : M.bottom + 64 ≤ M.tables.esp0.toNat
  apart : ∀ f a, M.bottom ≤ a → a < M.tables.esp0.toNat → ¬ M.writable f a

/-- The vectors of the devices. -/
def hardware (v : UInt8) : Prop := ∃ d : Device, v = d.vector

/-- The functions that interrupts call. -/
def OfInterrupt (f : Function) : Prop := ∃ d, f = .handler d

section Linked
variable {M : Machine Function} {place : Routine → Nat → Word} (hM : Linked M place)
include hM

theorem Linked.gate (v : UInt8) :
    M.tables.gate v = gateTo v.toNat (match idtEntries.find? fun p => p.1 = v.toNat with
      | some p => place p.2 0
      | none => 0) := by
  rw [hM.gates v]
  exact idtSetup_gate _ v.toNat_lt

theorem Linked.gate_device (d : Device) :
    M.tables.gate d.vector = gateTo d.vector.toNat (place (.interrupt d) 0) := by
  cases d with
  | pit => exact hM.gate 0x20
  | keyboard => exact hM.gate 0x21
  | rtc => exact hM.gate 0x28

theorem Linked.gate_systemCall : M.tables.gate 0x80 = gateTo 0x80 (place .systemCall 0) := hM.gate 0x80

theorem Linked.sound : M.Sound where
  gates v := by
    rw [hM.gate v]
    show privilege 0x10 = 0
    decide
  entries := hM.entries
  room := hM.room
  apart := hM.apart

/-- A program on the outer level gets through one gate only. -/
theorem Linked.int_allowed {v : UInt8} (h : 3 ≤ (M.tables.gate v).dpl) : v = 0x80 := by
  rw [hM.gate v] at h
  unfold gateTo at h
  dsimp only at h
  split_ifs at h with hv
  · exact UInt8.toNat_inj.mp hv
  · omega

/-! ## Interrupts -/

/-- What `pushal` leaves on the stack, the top first. -/
def saved (r : Regs) (esp : Word) : List Word := [r.edi, r.esi, r.ebp, esp, r.ebx, r.edx, r.ecx, r.eax]

/-- Where interrupts may write. -/
abbrev Touched (M : Machine Function) : Nat → Prop := M.Shadow OfInterrupt

/-- In the routine of a device that interrupts `c`: on the way to the C function, or back from it. -/
inductive InHandler (M : Machine Function) (place : Routine → Nat → Word) (c : Cpu) : Cpu → Prop
  | asking {m : Cpu} (d : Device) (s : Local) (flags esp : Word)
      (h : M.OnWay (Touched M) c (M.entry (.handler d), s) m)
      (hstack : s.stack = place (.interrupt d) 4 :: flags :: (saved c.regs esp ++ frame c c.eip)) :
      InHandler M place c m
  | answered {m : Cpu} (d : Device) (s : Local) (h : M.OnWay (Touched M) c (place (.interrupt d) 7, s) m)
      (hstack : s.stack = frame c c.eip) (hregs : s.regs = c.regs) : InHandler M place c m

theorem Linked.leads_handler (d : Device) (s : Local) : ∃ s' flags esp,
    Leads M.localStep (place (.interrupt d) 0, s) (M.entry (.handler d), s') ∧
      s'.stack = place (.interrupt d) 4 :: flags :: (saved s.regs esp ++ s.stack) :=
  ⟨_, _, _, Machine.leads_instr (hM.code (.interrupt d) 0 .cli rfl) rfl
    (Machine.leads_instr (hM.code (.interrupt d) 1 .pushal rfl) rfl
      (Machine.leads_instr (hM.code (.interrupt d) 2 .pushfl rfl) rfl
        (Machine.leads_instr (hM.code (.interrupt d) 3 (.call (M.entry (.handler d))) rfl) rfl (.refl _ _)))), rfl⟩

theorem Linked.leads_restored (d : Device) {s : Local} {flags esp : Word} {r : Regs} {ws : List Word}
    (hstack : s.stack = flags :: (saved r esp ++ ws)) : ∃ s',
      Leads M.localStep (place (.interrupt d) 4, s) (place (.interrupt d) 7, s') ∧ s'.stack = ws ∧ s'.regs = r := by
  obtain ⟨regs, eflags, sp, stack⟩ := s
  cases hstack
  exact ⟨_, Machine.leads_instr (hM.code (.interrupt d) 4 .popfl rfl) rfl
    (Machine.leads_instr (hM.code (.interrupt d) 5 .popal rfl) rfl
      (Machine.leads_instr (hM.code (.interrupt d) 6 .sti rfl) rfl (.refl _ _))), rfl, rfl⟩

theorem Linked.iret_interrupt (d : Device) : M.code (place (.interrupt d) 7) = some (.iret, place (.interrupt d) 8) :=
  hM.code (.interrupt d) 7 .iret rfl

/-- **Interrupts leave no trace.** The routines of the devices do what handlers have to do. -/
theorem Linked.handlers : Handlers M hardware OfInterrupt (InHandler M place) where
  enters c v hv hroom htop := by
    obtain ⟨d, rfl⟩ := hv
    have hat : M.At (Touched M) c (M.tables.gate d.vector).offset
        (entered M.tables (M.tables.gate d.vector) c.eip c) (enter M.tables (M.tables.gate d.vector) c.eip c) :=
      hM.sound.enter hroom htop
    rw [hM.gate_device d] at hat
    obtain ⟨s', flags, esp, hleads, hstack⟩ := hM.leads_handler d (entered M.tables (M.tables.gate d.vector) c.eip c)
    rw [hM.gate_device d, entered_regs, entered_stack] at hstack
    rw [hM.gate_device d] at hleads
    refine .asking d s' flags esp ⟨_, hleads, ?_⟩ hstack
    unfold deliver
    rw [hM.gate_device d]
    exact hat
  inner c m h := by
    cases h with
    | asking d s flags esp hway hstack => exact hway.inner
    | answered d s hway hstack hregs => exact hway.inner
  calls c m f h hf := by
    cases h with
    | asking d s flags esp hway hstack =>
      obtain ⟨-, he⟩ := hway.entry hM.sound (Machine.localStep_entry hM.sound _ _) hf
      exact ⟨d, (hM.entry_injective he).symm⟩
    | answered d s hway hstack hregs => exact absurd hf (hway.iret_ne_entry (hM.iret_interrupt d) hM.sound f)
  undisturbed c d m h hr := by
    cases h with
    | asking d s flags esp hway hstack =>
      exact .asking d s flags esp (hway.undisturbed hM.sound hr fun _ h => h) hstack
    | answered d s hway hstack hregs => exact .answered d s (hway.undisturbed hM.sound hr fun _ h => h) hstack hregs
  steps c m e m' h he hok hs := by
    obtain ⟨hp, -⟩ : privilege m.cs = 0 ∧ M.level m ≤ M.tables.esp0.toNat := by
      cases h with
      | asking d s flags esp hway hstack => exact hway.inner
      | answered d s hway hstack hregs => exact hway.inner
    cases e with
    | interrupt v => exact absurd rfl (he v)
    | instr =>
      cases h with
      | asking d s flags esp hway hstack =>
        exact Or.inl (.asking d s flags esp (hway.step_entry hM.sound (hok.1 hp) hs) hstack)
      | answered d s hway hstack hregs =>
        rcases hway.step_iret (hM.iret_interrupt d) hstack (hok.1 hp) hs with hway' | hr
        · exact Or.inl (.answered d s hway' hstack hregs)
        · rw [hregs] at hr
          exact Or.inr hr
    | leave f c' =>
      obtain ⟨⟨-, hf⟩, rfl⟩ := step_leave hs
      cases h with
      | asking d s flags esp hway hstack =>
        obtain ⟨hat, hentry⟩ := hway.entry hM.sound (Machine.localStep_entry hM.sound _ _) hf
        obtain rfl := hM.entry_injective hentry
        have hargs : ([] : List Word).length = M.args (.handler d) := (hM.args (.handler d)).symm
        obtain ⟨args', hlen, hat'⟩ := hat.leave hM.sound hstack hargs hok fun a ha => ⟨_, ⟨d, rfl⟩, ha⟩
        obtain rfl := List.length_eq_zero_iff.mp hlen
        obtain ⟨s', hleads, hstack', hregs'⟩ := hM.leads_restored d (s := ⟨m'.regs, m'.eflags, s.esp + 4, _⟩) rfl
        exact Or.inl (.answered d s' ⟨_, hleads, hat'⟩ hstack' hregs')
      | answered d s hway hstack hregs => exact absurd hf (hway.iret_ne_entry (hM.iret_interrupt d) hM.sound f)
  goes_on c m h hroom := by
    cases h with
    | asking d s flags esp hway hstack => exact hway.entry_goes_on hM.sound hroom
    | answered d s hway hstack hregs => exact Or.inl (hway.iret_goes_on (hM.iret_interrupt d) hstack hroom)

/-! ## System calls -/

/-- The words that a function is given, of those that the wrapper pushes. -/
def SysCall.params (f : SysCall) (r : Regs) : List Word := [r.ebx, r.ecx, r.edx].take f.args

/-- A call that a program has made. -/
structure Call where
  function : SysCall
  args : List Word
  result : Word
  deriving DecidableEq

/-- Where memory may have changed when a system call comes back. -/
def CallWrites (M : Machine Function) (f : SysCall) (a : Nat) : Prop := Touched M a ∨ M.writable (.sys f) a

/-- The registers behind a call, but for `eax`. The words that a function is given are its own; the wrapper pops what
it has left in them. -/
structure Preserved (f : SysCall) (r r' : Regs) : Prop where
  ebp : r'.ebp = r.ebp
  esi : r'.esi = r.esi
  edi : r'.edi = r.edi
  ecx : f.args ≤ 1 → r'.ecx = r.ecx
  edx : f.args ≤ 2 → r'.edx = r.edx

/-- A program from `c₀` on as it sees itself: a system call is one step, and nothing comes in between. -/
inductive Runs (M : Machine Function) (c₀ : Cpu) : List Call → Cpu → Prop
  | start : Runs M c₀ [] c₀
  | instr {cs : List Call} {c c' : Cpu} {i : Instr} {next : Word} (h : Runs M c₀ cs c)
      (hcode : M.code c.eip = some (i, next)) (hint : ∀ v, i ≠ .int v) (hx : exec M.tables next c i = some c') :
      Runs M c₀ cs c'
  | call {cs : List Call} {c : Cpu} {next : Word} {f : SysCall} {r : Trap.Regs} {mem : Mem} (h : Runs M c₀ cs c)
      (hcode : M.code c.eip = some (.int 0x80, next)) (hnumber : c.regs.eax.toNat = f.number)
      (hregs : Preserved f c.regs r) (hmem : M.Kept (CallWrites M f) M.tables.esp0.toNat c.mem mem) :
      Runs M c₀ (cs ++ [⟨f, f.params c.regs, r.eax⟩]) { c with regs := r, eip := next, mem := mem }
  | refused {cs : List Call} {c : Cpu} {next : Word} (h : Runs M c₀ cs c)
      (hcode : M.code c.eip = some (.int 0x80, next)) (hnumber : ∀ f : SysCall, c.regs.eax.toNat ≠ f.number) :
      Runs M c₀ cs { c with regs := { c.regs with eax := 0xFFFFFFFF }, eip := next }

/-- Where the processor is for a program at `c`: it goes on with it; it is in the wrapper, on the way to the function;
or it is on the way back to `c`. -/
inductive Stands (M : Machine Function) (place : Routine → Nat → Word) (c : Cpu) : Cpu → Prop
  | outer {m : Cpu} (h : M.Resumes (Touched M) c m) : Stands M place c m
  | asking {m : Cpu} (next : Word) (f : SysCall) (s : Local) (flags : Word)
      (hcode : M.code c.eip = some (.int 0x80, next)) (hnumber : c.regs.eax.toNat = f.number)
      (h : M.OnWay (Touched M) c (M.entry (.sys f), s) m)
      (hstack : s.stack =
        place .systemCall 11 :: c.regs.ebx :: c.regs.ecx :: c.regs.edx :: flags :: frame c next)
      (hregs : s.regs = c.regs) : Stands M place c m
  | back {m : Cpu} (b : Cpu) (s : Local) (h : M.OnWay (Touched M) b (place .systemCall 17, s) m)
      (hstack : s.stack = frame b c.eip) (hc : c = { b with regs := s.regs, eip := c.eip }) : Stands M place c m

/-- The observer: the calls that have come back from their functions. -/
def noteCall (cs : List Call) (m : Cpu) (e : Event Function) (_ : Cpu) : List Call :=
  match e with
  | .leave (.sys f) c' => cs ++ [⟨f, (List.range f.args).map fun i => m.word (i + 1), c'.regs.eax⟩]
  | _ => cs

/-! ## The wrapper -/

omit hM in
theorem SysCall.number_range (f : SysCall) : 1 ≤ f.number ∧ f.number ≤ 8 := by
  cases f <;> decide

omit hM in
theorem jumpTable_number (entry : Function → Word) (f : SysCall) :
    (jumpTable entry)[f.number]? = some (entry (.sys f)) := by
  cases f <;> rfl

omit hM in
theorem exists_number {n : Nat} (h1 : 1 ≤ n) (h8 : n ≤ 8) : ∃ f : SysCall, n = f.number := by
  interval_cases n
  · exact ⟨.halt, rfl⟩
  · exact ⟨.execute, rfl⟩
  · exact ⟨.read, rfl⟩
  · exact ⟨.write, rfl⟩
  · exact ⟨.open, rfl⟩
  · exact ⟨.close, rfl⟩
  · exact ⟨.getargs, rfl⟩
  · exact ⟨.vidmap, rfl⟩

/-- What `SYSTEM_CALL_WRAPPER` pushes. -/
theorem Linked.leads_pushed (s : Local) : ∃ s' flags,
    Leads M.localStep (place .systemCall 0, s) (place .systemCall 6, s') ∧ s'.regs = s.regs ∧
      s'.stack = s.regs.ebx :: s.regs.ecx :: s.regs.edx :: flags :: s.stack :=
  ⟨_, _, Machine.leads_instr (hM.code .systemCall 0 .cli rfl) rfl
    (Machine.leads_instr (hM.code .systemCall 1 .pushfl rfl) rfl
      (Machine.leads_instr (hM.code .systemCall 2 (.pushl .edx) rfl) rfl
        (Machine.leads_instr (hM.code .systemCall 3 (.pushl .ecx) rfl) rfl
          (Machine.leads_instr (hM.code .systemCall 4 (.pushl .ebx) rfl) rfl
            (Machine.leads_instr (hM.code .systemCall 5 .sti rfl) rfl (.refl _ _)))))), rfl, rfl⟩

/-- The two comparisons let the numbers 1 to 8 through. -/
theorem Linked.leads_compared (s : Local) : ∃ flags, Leads M.localStep (place .systemCall 6, s)
    (if 1 ≤ s.regs.eax.toNat ∧ s.regs.eax.toNat ≤ 8 then place .systemCall 10 else place .systemCall 12,
      { s with eflags := flags }) := by
  have hfirst := Local.exec_jb s 1 s.regs.eax s.eflags (place .systemCall 12) (place .systemCall 8)
  by_cases h1 : s.regs.eax.toNat < 1
  · rw [if_pos (show s.regs.eax.toNat < (1 : Word).toNat from h1)] at hfirst
    rw [if_neg (by omega)]
    exact ⟨_, Machine.leads_instr (hM.code .systemCall 6 (.cmplImm 1 .eax) rfl) rfl
      (Machine.leads_instr (hM.code .systemCall 7 (.jb (place .systemCall 12)) rfl) hfirst (.refl _ _))⟩
  · have hsecond := Local.exec_ja s 8 s.regs.eax (compared 1 s.regs.eax s.eflags) (place .systemCall 12)
      (place .systemCall 10)
    have hjump : (if (8 : Word).toNat < s.regs.eax.toNat then place .systemCall 12 else place .systemCall 10) =
        if 1 ≤ s.regs.eax.toNat ∧ s.regs.eax.toNat ≤ 8 then place .systemCall 10 else place .systemCall 12 := by
      have h8 : (8 : Word).toNat = 8 := rfl
      split_ifs
      · omega
      · rfl
      · rfl
      · omega
    rw [if_neg (show ¬ s.regs.eax.toNat < (1 : Word).toNat from h1)] at hfirst
    rw [hjump] at hsecond
    exact ⟨_, Machine.leads_instr (hM.code .systemCall 6 (.cmplImm 1 .eax) rfl) rfl
      (Machine.leads_instr (hM.code .systemCall 7 (.jb (place .systemCall 12)) rfl) hfirst
        (Machine.leads_instr (hM.code .systemCall 8 (.cmplImm 8 .eax) rfl) rfl
          (Machine.leads_instr (hM.code .systemCall 9 (.ja (place .systemCall 12)) rfl) hsecond (.refl _ _))))⟩

/-- `cleanup_call`, up to the `iret`. -/
theorem Linked.leads_popped {s : Local} {ebx ecx edx flags : Word} {ws : List Word}
    (hstack : s.stack = ebx :: ecx :: edx :: flags :: ws) : ∃ s',
      Leads M.localStep (place .systemCall 13, s) (place .systemCall 17, s') ∧ s'.stack = ws ∧
        s'.regs = { s.regs with ebx := ebx, ecx := ecx, edx := edx } := by
  obtain ⟨regs, eflags, sp, stack⟩ := s
  cases hstack
  exact ⟨_, Machine.leads_instr (hM.code .systemCall 13 (.popl .ebx) rfl) rfl
    (Machine.leads_instr (hM.code .systemCall 14 (.popl .ecx) rfl) rfl
      (Machine.leads_instr (hM.code .systemCall 15 (.popl .edx) rfl) rfl
        (Machine.leads_instr (hM.code .systemCall 16 .popfl rfl) rfl (.refl _ _)))), rfl, rfl⟩

/-- From the gate to the function. -/
theorem Linked.leads_function {s : Local} {f : SysCall} (h : s.regs.eax.toNat = f.number) : ∃ s' flags,
    Leads M.localStep (place .systemCall 0, s) (M.entry (.sys f), s') ∧ s'.regs = s.regs ∧ s'.stack =
      place .systemCall 11 :: s.regs.ebx :: s.regs.ecx :: s.regs.edx :: flags :: s.stack := by
  obtain ⟨s₁, flags, hleads, hregs, hstack⟩ := hM.leads_pushed s
  obtain ⟨flags', hcompared⟩ := hM.leads_compared s₁
  have hnumber : s₁.regs.eax.toNat = f.number := by rw [hregs, h]
  rw [hnumber, if_pos f.number_range] at hcompared
  have hcall : Local.exec (place .systemCall 11) { s₁ with eflags := flags' } (.callTable (jumpTable M.entry) .eax) =
      some (M.entry (.sys f), ({ s₁ with eflags := flags' } : Local).push (place .systemCall 11)) := by
    unfold Local.exec
    dsimp only
    rw [show (s₁.regs.get .eax).toNat = f.number from hnumber, jumpTable_number]
    rfl
  exact ⟨({ s₁ with eflags := flags' } : Local).push (place .systemCall 11), flags, hleads.trans (hcompared.trans
    (Machine.leads_instr (hM.code .systemCall 10 (.callTable (jumpTable M.entry) .eax) rfl) hcall (.refl _ _))), hregs,
    congrArg (place .systemCall 11 :: ·) hstack⟩

/-- From the gate to `invalid_idx` and out again. -/
theorem Linked.leads_refused {s : Local} (h : ∀ f : SysCall, s.regs.eax.toNat ≠ f.number) : ∃ s',
    Leads M.localStep (place .systemCall 0, s) (place .systemCall 17, s') ∧ s'.stack = s.stack ∧
      s'.regs = { s.regs with eax := 0xFFFFFFFF } := by
  obtain ⟨s₁, flags, hleads, hregs, hstack⟩ := hM.leads_pushed s
  obtain ⟨flags', hcompared⟩ := hM.leads_compared s₁
  have hout : ¬ (1 ≤ s₁.regs.eax.toNat ∧ s₁.regs.eax.toNat ≤ 8) := by
    rintro ⟨h1, h8⟩
    obtain ⟨f, hf⟩ := exists_number h1 h8
    exact h f (hregs ▸ hf)
  rw [if_neg hout] at hcompared
  obtain ⟨s', hpopped, hstack', hregs'⟩ := hM.leads_popped
    (s := { s₁ with regs := s₁.regs.set (s₁.regs.eax ||| 0xFFFFFFFF) .eax
                    eflags := compared 0 (s₁.regs.eax ||| 0xFFFFFFFF) flags' }) hstack
  refine ⟨s', hleads.trans (hcompared.trans (Machine.leads_instr
    (hM.code .systemCall 12 (.orlImm 0xFFFFFFFF .eax) rfl) rfl hpopped)), hstack', ?_⟩
  have hor : s.regs.eax ||| 0xFFFFFFFF = 0xFFFFFFFF := BitVec.or_allOnes
  rw [hregs', hregs]
  unfold Regs.set
  dsimp only
  rw [hor]

omit hM in
/-- What is left of the words that were pushed when a function has returned, whose own its first `f.args` are. -/
theorem SysCall.params_left (f : SysCall) (r : Trap.Regs) {args : List Word}
    (hlen : args.length = (f.params r).length) : ∃ ebx ecx edx, args ++ [r.ebx, r.ecx, r.edx].drop f.args =
      [ebx, ecx, edx] ∧ (f.args ≤ 1 → ecx = r.ecx) ∧ (f.args ≤ 2 → edx = r.edx) := by
  have hrange : f.args = 1 ∨ f.args = 2 ∨ f.args = 3 := by cases f <;> decide
  unfold SysCall.params at hlen
  rcases hrange with h | h | h
  · rw [h] at hlen ⊢
    obtain ⟨x, rfl⟩ := List.length_eq_one_iff.mp hlen
    exact ⟨x, r.ecx, r.edx, rfl, fun _ => rfl, fun _ => rfl⟩
  · rw [h] at hlen ⊢
    obtain ⟨x, y, rfl⟩ := List.length_eq_two.mp hlen
    exact ⟨x, y, r.edx, rfl, fun h1 => absurd h1 (by decide), fun _ => rfl⟩
  · rw [h] at hlen ⊢
    obtain ⟨x, y, z, rfl⟩ := List.length_eq_three.mp hlen
    exact ⟨x, y, z, rfl, fun h1 => absurd h1 (by decide), fun h2 => absurd h2 (by decide)⟩

/-- From the return of the function to the `iret`. -/
theorem Linked.leads_cleanup {s : Local} {f : SysCall} {r : Trap.Regs} {args ws : List Word} {flags : Word}
    (hlen : args.length = (f.params r).length)
    (hstack : s.stack = args ++ ([r.ebx, r.ecx, r.edx].drop f.args ++ flags :: ws))
    (hsaved : s.regs.ebp = r.ebp ∧ s.regs.esi = r.esi ∧ s.regs.edi = r.edi) : ∃ s',
      Leads M.localStep (place .systemCall 11, s) (place .systemCall 17, s') ∧ s'.stack = ws ∧
        s'.regs.eax = s.regs.eax ∧ Preserved f r s'.regs := by
  obtain ⟨ebx, ecx, edx, hleft, hecx, hedx⟩ := f.params_left r hlen
  rw [← List.append_assoc, hleft] at hstack
  obtain ⟨s', hpopped, hstack', hregs⟩ := hM.leads_popped hstack
  refine ⟨s', Machine.leads_instr (hM.code .systemCall 11 (.jmp (place .systemCall 13)) rfl) rfl hpopped, hstack',
    ?_, ?_⟩
  · rw [hregs]
  · rw [hregs]
    exact ⟨hsaved.1, hsaved.2.1, hsaved.2.2, hecx, hedx⟩

theorem Linked.iret_systemCall : M.code (place .systemCall 17) = some (.iret, place .systemCall 18) :=
  hM.code .systemCall 17 .iret rfl

/-! ## The steps of a program -/

variable {c₀ c m m' : Cpu} {cs : List Call} {e : Event Function}

/-- The program steps itself, or enters the wrapper. -/
theorem Linked.outer_step (hp : privilege c.cs = 3) (hruns : Runs M c₀ cs c) (hr : M.Resumes (Touched M) c m)
    (hok : M.Allowed hardware (Touched M) m .instr) (hs : M.step m .instr = some m') :
    ∃ c', Runs M c₀ cs c' ∧ c'.cs = c.cs ∧ Stands M place c' m' := by
  have hpm : privilege m.cs = 3 := by rw [hr.same, hp]
  have heip : m.eip = c.eip := by rw [hr.same]
  have hne : privilege m.cs ≠ 0 := by omega
  obtain ⟨⟨i, next⟩, hcode, hx⟩ := Option.bind_eq_some_iff.mp hs
  have hreads := hok.2 hne (i, next) hcode
  rw [heip] at hcode
  by_cases hint : ∃ v, i = .int v
  · obtain ⟨v, rfl⟩ := hint
    unfold exec at hx
    dsimp only at hx
    split_ifs at hx with hgate
    obtain rfl := hM.int_allowed (hpm ▸ hgate.2)
    obtain rfl := Option.some.inj hx
    have hlevel : M.level m = M.tables.esp0.toNat := if_neg hne
    have hat : M.At (Touched M) c (M.tables.gate 0x80).offset (entered M.tables (M.tables.gate 0x80) next m)
        (enter M.tables (M.tables.gate 0x80) next m) :=
      (hM.sound.enter (hlevel ▸ hM.room) (Nat.le_of_eq hlevel)).rebase hr
    have hregs : (entered M.tables (M.tables.gate 0x80) next m).regs = c.regs := by rw [entered_regs, hr.same]
    have hstack : (entered M.tables (M.tables.gate 0x80) next m).stack = frame c next := by
      rw [entered_stack, hr.same]
      rfl
    generalize entered M.tables (M.tables.gate 0x80) next m = s at hat hregs hstack
    have hoffset : (M.tables.gate 0x80).offset = place .systemCall 0 := congrArg Gate.offset hM.gate_systemCall
    rw [hoffset] at hat
    by_cases hf : ∃ f : SysCall, c.regs.eax.toNat = f.number
    · obtain ⟨f, hf⟩ := hf
      obtain ⟨s', flags, hleads, hregs', hstack'⟩ := hM.leads_function (s := s) (f := f) (by rw [hregs, hf])
      rw [hregs, hstack] at hstack'
      exact ⟨c, hruns, rfl, .asking next f s' flags hcode hf ⟨_, hleads, hat⟩ hstack' (hregs'.trans hregs)⟩
    · have hnone : ∀ f : SysCall, c.regs.eax.toNat ≠ f.number := fun f h => hf ⟨f, h⟩
      obtain ⟨s', hleads, hstack', hregs'⟩ := hM.leads_refused (s := s) (by rw [hregs]; exact hnone)
      refine ⟨_, hruns.refused hcode hnone, rfl, .back c s' ⟨_, hleads, hat⟩ (hstack'.trans hstack) ?_⟩
      rw [hregs', hregs]
  · have hnot : ∀ v, i ≠ .int v := fun v h => hint ⟨v, h⟩
    have hreads' : ∀ a ∈ reads c i, ∀ j < 4,
        ¬ Touched M (a + j) ∧ (a + j < M.bottom ∨ M.tables.esp0.toNat ≤ a + j) := by
      rw [hr.same] at hreads
      exact hreads
    obtain ⟨c', hc', hcs, hr'⟩ := hr.exec (by omega) hreads' hnot hx
    exact ⟨c', hruns.instr hcode hnot hc', hcs, .outer hr'⟩

/-- The wrapper goes on to the function, or the function returns. -/
theorem Linked.asking_step (hp : privilege c.cs = 3) (hruns : Runs M c₀ cs c) {next : Word} {f : SysCall} {s : Local}
    {flags : Word} (hcode : M.code c.eip = some (.int 0x80, next)) (hnumber : c.regs.eax.toNat = f.number)
    (hway : M.OnWay (Touched M) c (M.entry (.sys f), s) m)
    (hstack : s.stack = place .systemCall 11 :: c.regs.ebx :: c.regs.ecx :: c.regs.edx :: flags :: frame c next)
    (hregs : s.regs = c.regs) (he : ∀ v, e ≠ .interrupt v) (hok : M.Allowed hardware (Touched M) m e)
    (hs : M.step m e = some m') :
    ∃ c', Runs M c₀ (noteCall cs m e m') c' ∧ c'.cs = c.cs ∧ Stands M place c' m' := by
  have hne : privilege c.cs ≠ 0 := by omega
  cases e with
  | interrupt v => exact absurd rfl (he v)
  | instr =>
    have hway' := hway.step_entry hM.sound (hok.1 hway.inner.1) hs
    exact ⟨c, hruns, rfl, .asking next f s flags hcode hnumber hway' hstack hregs⟩
  | leave g c₁ =>
    obtain ⟨⟨-, hg⟩, rfl⟩ := step_leave hs
    obtain ⟨hat, hentry⟩ := hway.entry hM.sound (Machine.localStep_entry hM.sound _ _) hg
    obtain rfl := hM.entry_injective hentry
    -- the words that the function owns, and the rest of those that are pushed
    have hsplit : s.stack = place .systemCall 11 ::
        (f.params c.regs ++ ([c.regs.ebx, c.regs.ecx, c.regs.edx].drop f.args ++ flags :: frame c next)) := by
      rw [hstack, ← List.append_assoc]
      unfold SysCall.params
      rw [List.take_append_drop]
      rfl
    have hlen : (f.params c.regs).length = M.args (.sys f) := by
      rw [hM.args]
      unfold SysCall.params Function.args
      cases f <;> rfl
    have hargs : (List.range f.args).map (fun i => m.word (i + 1)) = f.params c.regs := by
      have hword : ∀ i w, s.stack[i]? = some w → m.word i = w := fun i w => hat.word
      rw [hstack] at hword
      have h1 : m.word 1 = c.regs.ebx := hword 1 _ rfl
      have h2 : m.word 2 = c.regs.ecx := hword 2 _ rfl
      have h3 : m.word 3 = c.regs.edx := hword 3 _ rfl
      unfold SysCall.params
      cases f <;> simp [SysCall.args, List.range_succ, h1, h2, h3]
    obtain ⟨args', hlen', hat'⟩ := (hat.mono fun a ha => Or.inl ha).leave (W := CallWrites M f) hM.sound hsplit hlen hok
      fun a ha => Or.inr ha
    have hsaved : m'.regs.ebp = c.regs.ebp ∧ m'.regs.esi = c.regs.esi ∧ m'.regs.edi = c.regs.edi := by
      obtain ⟨⟨-, hebp⟩, hesi, hedi⟩ := hok.saved
      rw [hat.regs, hregs] at hebp hesi hedi
      exact ⟨hebp, hesi, hedi⟩
    obtain ⟨s', hleads, hstack', heax, hkeep⟩ := hM.leads_cleanup (s := ⟨m'.regs, m'.eflags, s.esp + 4, _⟩) hlen' rfl
      hsaved
    have hmem : M.Kept (CallWrites M f) M.tables.esp0.toNat c.mem m'.mem := by
      have hkept := hat'.kept
      rwa [show M.level c = M.tables.esp0.toNat from if_neg hne] at hkept
    -- from here on the memory is the program's own
    have hback : M.At (Touched M) { c with mem := m'.mem } (place .systemCall 11)
        ⟨m'.regs, m'.eflags, s.esp + 4, _⟩ m' := { hat' with kept := .refl _ _ }
    have hS : Stands M place { c with regs := s'.regs, eip := next, mem := m'.mem } m' :=
      .back { c with mem := m'.mem } s' ⟨_, hleads, hback⟩ hstack' rfl
    refine ⟨_, ?_, ?_, hS⟩
    · unfold noteCall
      dsimp only
      rw [hargs, ← heax]
      exact hruns.call hcode hnumber hkeep hmem
    · rfl

/-- The wrapper goes on to its `iret`, which ends it. -/
theorem Linked.back_step {b : Cpu} {s : Local} (hway : M.OnWay (Touched M) b (place .systemCall 17, s) m)
    (hstack : s.stack = frame b c.eip) (hc : c = { b with regs := s.regs, eip := c.eip })
    (he : ∀ v, e ≠ .interrupt v) (hok : M.Allowed hardware (Touched M) m e) (hs : M.step m e = some m') :
    noteCall cs m e m' = cs ∧ Stands M place c m' := by
  cases e with
  | interrupt v => exact absurd rfl (he v)
  | instr =>
    rcases hway.step_iret hM.iret_systemCall hstack (hok.1 hway.inner.1) hs with hway' | hr
    · exact ⟨rfl, .back b s hway' hstack hc⟩
    · rw [← hc] at hr
      exact ⟨rfl, .outer hr⟩
  | leave g c₁ =>
    obtain ⟨⟨-, hg⟩, -⟩ := step_leave hs
    exact absurd hg (hway.iret_ne_entry hM.iret_systemCall hM.sound g)

/-- What is no step of an interrupt is one of the program. -/
theorem Linked.stands_step (hp : privilege c.cs = 3) (hruns : Runs M c₀ cs c) (hS : Stands M place c m)
    (he : ∀ v, e ≠ .interrupt v) (hok : M.Allowed hardware (Touched M) m e) (hs : M.step m e = some m') :
    ∃ c', Runs M c₀ (noteCall cs m e m') c' ∧ c'.cs = c.cs ∧ Stands M place c' m' := by
  cases hS with
  | outer hr =>
    cases e with
    | interrupt v => exact absurd rfl (he v)
    | instr => exact hM.outer_step hp hruns hr hok hs
    | leave f c₁ =>
      obtain ⟨⟨h0, -⟩, -⟩ := step_leave hs
      rw [hr.same] at h0
      exact absurd (hp.symm.trans h0) (by decide)
  | asking next f s flags hcode hnumber hway hstack hregs =>
    exact hM.asking_step hp hruns hcode hnumber hway hstack hregs he hok hs
  | back b s hway hstack hc =>
    obtain ⟨hnote, hS⟩ : noteCall cs m e m' = cs ∧ Stands M place c m' := hM.back_step hway hstack hc he hok hs
    rw [hnote]
    exact ⟨c, hruns, rfl, hS⟩

/-! ## Runs -/

omit hM in
theorem Stands.level (hp : privilege c.cs = 3) (hS : Stands M place c m) :
    M.level m ≤ M.tables.esp0.toNat := by
  cases hS with
  | outer hr =>
    rw [hr.level_eq]
    exact Nat.le_of_eq (if_neg (by omega))
  | asking next f s flags hcode hnumber hway hstack hregs => exact hway.inner.2
  | back b s hway hstack hc => exact hway.inner.2

theorem Linked.stands_undisturbed (hS : Stands M place c m) (hr : M.Resumes (Touched M) m m') :
    Stands M place c m' := by
  cases hS with
  | outer hr₀ => exact .outer (hr₀.trans hr)
  | asking next f s flags hcode hnumber hway hstack hregs =>
    exact .asking next f s flags hcode hnumber (hway.undisturbed hM.sound hr fun _ h => h) hstack hregs
  | back b s hway hstack hc => exact .back b s (hway.undisturbed hM.sound hr fun _ h => h) hstack hc

theorem Linked.run_step (hp : privilege c.cs = 3) (hruns : Runs M c₀ cs c)
    (hI : Interrupted (InHandler M place) (Stands M place c) m) (hok : M.Allowed hardware (Touched M) m e)
    (hs : M.step m e = some m') : ∃ c', Runs M c₀ (noteCall cs m e m') c' ∧ c'.cs = c.cs ∧
      Interrupted (InHandler M place) (Stands M place c') m' := by
  rcases hM.handlers.interrupted_step hM.sound (fun d => Stands.level hp) (fun d m => hM.stands_undisturbed) hI hok hs
    with ⟨hS, he⟩ | ⟨hI', hquiet⟩
  · obtain ⟨c', hruns', hcs, hS'⟩ := hM.stands_step hp hruns hS he hok hs
    exact ⟨c', hruns', hcs, .inl hS'⟩
  · have hnote : noteCall cs m e m' = cs := by
      cases e with
      | instr => rfl
      | interrupt v => rfl
      | leave f c₁ =>
        obtain ⟨d, rfl⟩ := hquiet f c₁ rfl
        rfl
    rw [hnote]
    exact ⟨c, hruns, rfl, hI'⟩

/-- While the processor is in the kernel it is not stuck: there is a next instruction, or a function is called. -/
theorem Linked.inner_goes_on (hp : privilege c.cs = 3) (hI : Interrupted (InHandler M place) (Stands M place c) m)
    (hinner : privilege m.cs = 0) (hroom : M.bottom + 64 ≤ m.esp.toNat) :
    (∃ m', M.step m .instr = some m') ∨ ∃ f, m.eip = M.entry f := by
  rcases hI with hS | ⟨d, -, ho⟩
  · cases hS with
    | outer hr =>
      rw [hr.same] at hinner
      exact absurd (hp.symm.trans hinner) (by decide)
    | asking next f s flags hcode hnumber hway hstack hregs => exact hway.entry_goes_on hM.sound hroom
    | back b s hway hstack hc => exact Or.inl (hway.iret_goes_on hM.iret_systemCall hstack hroom)
  · exact hM.handlers.over_goes_on ho hroom

/-- On the outer level it is the program that goes on. -/
theorem Linked.outer_resumes (hI : Interrupted (InHandler M place) (Stands M place c) m)
    (houter : privilege m.cs ≠ 0) : M.Resumes (Touched M) c m := by
  rcases hI with hS | ⟨d, -, ho⟩
  · cases hS with
    | outer hr => exact hr
    | asking next f s flags hcode hnumber hway hstack hregs => exact absurd hway.inner.1 houter
    | back b s hway hstack hc => exact absurd hway.inner.1 houter
  · exact absurd (hM.handlers.over_inner ho).1 houter

end Linked

/-! ## A machine with the routines -/

def Exception.vector : Exception → Nat
  | .divideErr => 0x00
  | .debug => 0x01
  | .nmi => 0x02
  | .breakpoint => 0x03
  | .overflow => 0x04
  | .boundRange => 0x05
  | .invalidOpcode => 0x06
  | .deviceNotAvail => 0x07
  | .doubleFault => 0x08
  | .coprocSegOverrun => 0x09
  | .invalidTss => 0x0A
  | .segNotPresent => 0x0B
  | .stackSegFault => 0x0C
  | .generalProtection => 0x0D
  | .pageFault => 0x0E
  | .fpuFloatErr => 0x10
  | .alignCheck => 0x11
  | .machineCheck => 0x12
  | .simdFloatErr => 0x13

def Routine.vector : Routine → Nat
  | .excep e => e.vector
  | .interrupt d => d.vector.toNat
  | .systemCall => 0x80

/-- The routines one behind the other, as if each instruction had one byte. -/
def placeOf (r : Routine) (i : Nat) : Word := BitVec.ofNat 32 (0x400000 + 32 * r.vector + i)

/-- The routine that calls it. -/
def Function.routine : Function → Routine
  | .excep e => .excep e
  | .handler d => .interrupt d
  | .sys _ => .systemCall

/-- Among those that the routine calls. -/
def Function.index : Function → Nat
  | .excep _ => 0
  | .handler _ => 0
  | .sys f => f.number

def entryOf (f : Function) : Word := BitVec.ofNat 32 (0x410000 + 16 * f.routine.vector + f.index)

/-- The routines, and a program that makes one system call. -/
def codeOf (w : Word) : Option (Instr × Word) :=
  if w = 0x8048000 then some (.int 0x80, 0x8048002)
  else
    (idtEntries.find? fun p => p.1 = (w.toNat - 0x400000) / 32).bind fun p =>
      let i := (w.toNat - 0x400000) % 32
      ((p.2.code entryOf placeOf)[i]?).map fun instr => (instr, placeOf p.2 (i + 1))

/-- The kernel stack is that of process 0; the functions write below the kernel stacks, and some in the program. -/
def kernelMachine : Machine Function where
  tables := ⟨fun v => idtGate (fun r => placeOf r 0) v.toNat, 0x7FFFFC, 0x18⟩
  code := codeOf
  entry := entryOf
  args := Function.args
  writable f a := a < 0x7FE000 ∨ f = .sys .read ∧ 0x8000000 ≤ a ∧ a < 0x8400000
  bottom := 0x7FE000

theorem find_vector (r : Routine) : (idtEntries.find? fun p => p.1 = r.vector) = some (r.vector, r) := by
  cases r with
  | excep e => cases e <;> rfl
  | interrupt d => cases d <;> rfl
  | systemCall => rfl

theorem length_code_le (entry : Function → Word) (place : Routine → Nat → Word) (r : Routine) :
    (r.code entry place).length ≤ 18 := by
  cases r with
  | excep e => exact show (8 : Nat) ≤ 18 by decide
  | interrupt d => exact show (8 : Nat) ≤ 18 by decide
  | systemCall => exact show (18 : Nat) ≤ 18 by decide

theorem vector_le (r : Routine) : r.vector ≤ 0x80 := by
  cases r with
  | excep e => cases e <;> decide
  | interrupt d => cases d <;> decide
  | systemCall => decide

theorem vector_injective {r r' : Routine} (h : r.vector = r'.vector) : r = r' := by
  have hfind := find_vector r
  rw [h, find_vector r'] at hfind
  exact (congrArg Prod.snd (Option.some.inj hfind)).symm

theorem SysCall.number_injective {f g : SysCall} (h : f.number = g.number) : f = g := by
  cases f <;> cases g <;> first | rfl | exact absurd h (by decide)

theorem Function.eq_of_index {f g : Function} (hroutine : f.routine = g.routine) (hindex : f.index = g.index) :
    f = g := by
  cases f with
  | excep e =>
    cases g <;> cases hroutine
    rfl
  | handler d =>
    cases g <;> cases hroutine
    rfl
  | sys f =>
    cases g with
    | excep e => cases hroutine
    | handler d => cases hroutine
    | sys g =>
      rw [SysCall.number_injective hindex]

theorem Function.index_le (f : Function) : f.index ≤ 8 := by
  cases f with
  | excep e => exact Nat.zero_le 8
  | handler d => exact Nat.zero_le 8
  | sys f => exact f.number_range.2

theorem entryOf_injective : Function.Injective entryOf := by
  intro f g h
  have hf := vector_le f.routine
  have hg := vector_le g.routine
  have hf' := f.index_le
  have hg' := g.index_le
  have hnat := congrArg BitVec.toNat h
  unfold entryOf at hnat
  rw [BitVec.toNat_ofNat, BitVec.toNat_ofNat] at hnat
  exact Function.eq_of_index (vector_injective (by omega)) (by omega)

theorem kernelMachine_linked : Linked kernelMachine placeOf where
  gates v := rfl
  code r i instr h := by
    have hi : i < (r.code entryOf placeOf).length := (List.getElem?_eq_some_iff.mp h).1
    have hlen := length_code_le entryOf placeOf r
    have hvector := vector_le r
    have hplace : (placeOf r i).toNat = 0x400000 + 32 * r.vector + i := by
      unfold placeOf
      rw [BitVec.toNat_ofNat]
      omega
    have hne : placeOf r i ≠ 0x8048000 := by
      intro he
      rw [he] at hplace
      have : (0x8048000 : Word).toNat = 0x8048000 := rfl
      omega
    show codeOf (placeOf r i) = _
    unfold codeOf
    rw [if_neg hne, hplace, show (0x400000 + 32 * r.vector + i - 0x400000) / 32 = r.vector by omega,
      show (0x400000 + 32 * r.vector + i - 0x400000) % 32 = i by omega, find_vector]
    dsimp only [Option.bind_some]
    rw [show (r.code entryOf placeOf)[i]? = some instr from h]
    rfl
  args f := rfl
  entries f := by
    rcases f with e | d | f
    · cases e <;> decide +kernel
    · cases d <;> decide +kernel
    · cases f <;> decide +kernel
  entry_injective := entryOf_injective
  room := by decide
  apart f a hlo hhi := by
    rintro (h | ⟨-, h, -⟩)
    · exact absurd hlo (Nat.not_le_of_lt h)
    · have : kernelMachine.tables.esp0.toNat = 0x7FFFFC := rfl
      omega

/-- A program that calls `write` with eax = 4. -/
def writer : Cpu where
  regs := ⟨4, 0x8049000, 5, 1, 0x83FFFF0, 0, 0⟩
  esp := 0x83FFFE0
  eip := 0x8048000
  eflags := 0x202
  cs := 0x23
  ss := 0x2B
  mem := fun _ => 0

/-- A function comes back with `eax`. -/
def returned (c : Cpu) (eax : Word) : Cpu :=
  { c with eip := c.word 0, esp := c.esp + 4, regs := { c.regs with eax := eax } }

theorem returns_returned (f : Function) (c : Cpu) (eax : Word) : kernelMachine.Returns f c (returned c eax) :=
  ⟨rfl, rfl, ⟨⟨rfl, rfl⟩, rfl, rfl⟩, rfl, rfl, .refl _ _⟩

/-- Enough for an instruction or an interrupt to be allowed. -/
def plain (c : Cpu) : Event Function → Bool
  | .instr =>
    if privilege c.cs = 0 then decide (kernelMachine.bottom + 64 ≤ c.esp.toNat)
    else (kernelMachine.code c.eip).all fun p => (reads c p.1).isEmpty
  | .interrupt v => decide (v = Device.keyboard.vector ∧ kernelMachine.bottom + 64 ≤ c.esp.toNat)
  | .leave _ _ => false

theorem plain_allowed {c : Cpu} {e : Event Function} (h : plain c e = true) :
    kernelMachine.Allowed hardware (Touched kernelMachine) c e := by
  cases e with
  | instr =>
    unfold plain at h
    dsimp only at h
    refine ⟨fun hp => ?_, fun hp p hcode a ha => ?_⟩
    · rw [if_pos hp] at h
      exact of_decide_eq_true h
    · rw [if_neg hp, hcode] at h
      rw [List.isEmpty_iff.mp h] at ha
      cases ha
  | interrupt v =>
    have hv := of_decide_eq_true h
    exact ⟨⟨.keyboard, hv.1⟩, fun _ => hv.2⟩
  | leave f c' => cases h

abbrev noted : Cpu × List Call → Event Function → Option (Cpu × List Call) := observed kernelMachine.step noteCall

def plainRun (p : Cpu × List Call) (es : List (Event Function)) : Option (Cpu × List Call) :=
  es.foldlM (fun p e => if plain p.1 e = true then noted p e else none) p

/-- A key is pressed when the wrapper has let interrupts in again. -/
def writeRun : Option (Cpu × List Call) := do
  let p ← plainRun (writer, []) (List.replicate 7 .instr ++ .interrupt 0x21 :: List.replicate 4 .instr)
  let p ← noted p (.leave (.handler .keyboard) (returned p.1 0))
  let p ← plainRun p (List.replicate 9 .instr)
  let p ← noted p (.leave (.sys .write) (returned p.1 5))
  plainRun p (List.replicate 6 .instr)

theorem writeRun_ends : (writeRun.map fun p => (p.1.eip, p.1.regs.eax, privilege p.1.cs, p.2)) =
    some (0x8048002, 5, 3, [⟨.write, [1, 0x8049000, 5], 5⟩]) := by
  decide +kernel

/-- The runs that `kernel_entries_atomic` is about. -/
abbrev Noted (p q : Cpu × List Call) : Prop :=
  Reach noted (fun p e => kernelMachine.Allowed hardware (Touched kernelMachine) p.1 e) p q

variable {p q r : Cpu × List Call}

theorem Noted.plain (h : Noted p q) {es : List (Event Function)} (hrun : plainRun q es = some r) : Noted p r :=
  Reach.of_foldlM (fun (p : Cpu × List Call) e => Linkage.plain p.1 e) (fun _ _ => plain_allowed) es h hrun

theorem Noted.leave (h : Noted p q) {f : Function} {eax : Word}
    (hs : noted q (.leave f (returned q.1 eax)) = some r) : Noted p r :=
  Reach.tail (.leave f (returned q.1 eax)) h (returns_returned f q.1 eax) hs

theorem writeRun_noted (h : writeRun = some p) : Noted (writer, []) p := by
  unfold writeRun at h
  obtain ⟨p₁, h₁, h⟩ := Option.bind_eq_some_iff.mp h
  obtain ⟨p₂, h₂, h⟩ := Option.bind_eq_some_iff.mp h
  obtain ⟨p₃, h₃, h⟩ := Option.bind_eq_some_iff.mp h
  obtain ⟨p₄, h₄, h⟩ := Option.bind_eq_some_iff.mp h
  have hpressed := Noted.leave (Noted.plain (.refl _) h₁) h₂
  exact Noted.plain (Noted.leave (Noted.plain hpressed h₃) h₄) h

end BasicOs.Linkage
