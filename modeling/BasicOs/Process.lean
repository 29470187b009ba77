import BasicOs.Syscall

/-!
# Starting, ending and scheduling processes

`sys_execute` and `sys_halt` of `syscall.c` and `schedule` of `schedule.c`.

Inline assembly reads and loads the stack registers. What is read is an argument `r` (the values of `esp`
and `ebp` there); what is loaded goes to the fields `esp` and `ebp` of the kernel, with `mode` telling
whether the CPU goes on in a program or in a kernel context.

* `parseCommand` : the split of the command line, `none` where an index leaves its array or a loop does
  not end;
* `findProgram` : the checks on the file;
* `sysExecute` : a failed call returns a value (`ret`), a successful one enters the new program (`user`),
  and a call that runs out of an array, or of the memory mapped at 128 MB, ends there (`fault`);
* `sysHalt`, `schedule` : the state the CPU goes on in, `none` for a fault.
-/

namespace BasicOs
open Bytes

/-- The stack registers where a function reads them. -/
structure Regs where
  esp : Int
  ebp : Int
  deriving DecidableEq

/-! ## The command line -/

def maxCmdLength : Nat := 127
def maxArgsLength : Nat := 127

/-- `while (command[idx] == ' ') idx++`, with the 8-bit index. -/
def skipSpaces (command : Nat → UInt8) : Nat → Nat → Option Nat
  | 0, _ => none
  | fuel + 1, idx => if command idx = chSpace then skipSpaces command fuel ((idx + 1) % 256) else some idx

/-- The copy of a word into an array with `room` bytes left. -/
def copyWord (command : Nat → UInt8) (stop : UInt8 → Bool) : Nat → Nat → Option (List UInt8 × Nat)
  | 0, idx => if stop (command idx) then some ([], idx) else none
  | room + 1, idx =>
    if stop (command idx) then some ([], idx)
    else (copyWord command stop room ((idx + 1) % 256)).map fun p => (command idx :: p.1, p.2)

/-- STEP 1 of `sys_execute`: the command and its arguments. -/
def parseCommand (command : Nat → UInt8) : Option (List UInt8 × List UInt8) := do
  let idx ← skipSpaces command 256 0
  let (cmd, idx) ← copyWord command (fun c => c == chSpace || c == 0) maxCmdLength idx
  let idx ← skipSpaces command 256 idx
  let (args, _) ← copyWord command (· == 0) maxArgsLength idx
  some (cmd, args)

/-! ## The program file -/

/-- STEP 2 of `sys_execute`: the inode and the entry point of an executable; `none` is its `-1`. `stale` is
what the uninitialised `read_buf` holds. -/
def findProgram (fs : FileSystem) (cmd : List UInt8) (stale : Nat → UInt8) : Option (Nat × Nat) :=
  match fs.readDentryByName cmd with
  | none => none
  | some d =>
    let readBuf := storeAll stale 0 (fs.readData d.inodeNum 0 false 4).2
    if readBuf 0 ≠ 0x7F ∨ readBuf 1 ≠ 69 ∨ readBuf 2 ≠ 76 ∨ readBuf 3 ≠ 70 then none
    else some (d.inodeNum, load32 (storeAll readBuf 0 (fs.readData d.inodeNum 24 false 4).2) 0)

/-- The bytes STEP 4 loads. -/
def programBytes (fs : FileSystem) (inode : Nat) : List UInt8 :=
  let exeLength := load32 fs.mem (fs.fsStartAddr + (inode + 1) * blockSize)
  (fs.readData inode 0 false exeLength).2

/-- The address programs are loaded at. -/
def usrBuf : Nat := 0x8048000

/-- Where the memory that is mapped from 128 MB on ends: behind the program's page, or behind the video page at
132 MB once that is there. -/
def loadEnd (k : Kernel) : Nat :=
  if (k.pageDirectory 33).p ∧ (k.vidmapPageTable 0).p then one32Mb + 4096 else one32Mb

/-- The search for an unused pid; `none` when it runs into `pid == MAX_NUM_PIDS - 1`. -/
def freePid (pidArray : Int → Int) : Option Int := [0, 1, 2, 3, 4, 5].find? fun pid => pidArray pid = unused

/-! ## `sys_execute` -/

namespace Kernel

/-- `terminals[t].active_pid = pid; scheduling_array[t] = pid`. -/
def setSlot (k : Kernel) (t : Fin 3) (pid : Int) : Kernel :=
  { k.modifyTerm t fun term => { term with activePid := pid } with
    schedulingArray := Function.update k.schedulingArray t pid }

/-- `pid_array[pid] = v`. -/
def setPid (k : Kernel) (pid v : Int) : Kernel := { k with pidArray := Function.update k.pidArray pid v }

/-- `tss.ss0 = KERNEL_DS; tss.esp0 = esp0`. -/
def setTss (k : Kernel) (esp0 : Int) : Kernel := { k with tss := { ss0 := kernelDs, esp0 := esp0 } }

end Kernel

/-- The branch of `sys_execute` for pids up to 2: the process takes the scheduled slot. -/
def enterShell (k : Kernel) (pid : Int) (r : Regs) : Kernel :=
  let k := k.modifyPcb pid fun pcb =>
    { pcb with
      termId := k.scheduledProcess, oldEsp0 := k.tss.esp0
      scheduleEsp := r.esp, scheduleEbp := r.ebp, oldEbp := r.ebp, oldEsp := r.esp }
  k.setSlot k.scheduledProcess pid

/-- The branch for other pids: the process takes the slot of the displayed terminal, as the child of the
process there. -/
def enterChild (k : Kernel) (pid : Int) (r : Regs) : Kernel :=
  let parent := k.schedulingArray k.currTerm
  let k := k.modifyPcb pid fun pcb => { pcb with parentPid := parent }
  let k := k.modifyPcb parent fun pcb => { pcb with childPid := pid }
  let k := k.modifyPcb pid fun pcb =>
    { pcb with
      termId := k.currTerm, oldEsp0 := k.tss.esp0
      scheduleEsp := pcb.baseKernelStack, scheduleEbp := pcb.baseKernelStack
      oldEbp := r.ebp, oldEsp := r.esp }
  k.setSlot k.currTerm pid

/-- The stores of the bytes that go past the program's page, into the video page behind it. -/
def storeVideo (k : Kernel) (bytes : List UInt8) : Int → UInt8 := fun a =>
  let base : Int := (k.vidmapPageTable 0).offset31_12 * 4096
  if base ≤ a ∧ a < base + bytes.length then ofList bytes (a - base).toNat else k.videoMem a

/-- STEP 3 and STEP 4 of `sys_execute`: the pid is taken, the keyboard's flags are set, the pid's page is
mapped and the program is loaded into it, as far as memory is mapped. -/
def loadProgram (k : Kernel) (pid : Int) (inode : Nat) : Kernel :=
  let k := k.setPid pid used
  let k := { k with shellFlag := true, runningFlag := if pid ≠ 0 then true else k.runningFlag }
  let k := mapUserProgram k pid
  let bytes := (programBytes k.fs inode).take (loadEnd k - usrBuf)
  { k with
    userMem := storeAll k.userMem
      ((k.pageDirectory 32).offset31_12 * 4096 + (usrBuf - one28Mb)) (bytes.take (one32Mb - usrBuf))
    videoMem := storeVideo k (bytes.drop (one32Mb - usrBuf)) }

/-- The rest of STEP 5, after `init_pcb`. -/
def placeProcess (k : Kernel) (pid : Int) (r : Regs) : Kernel :=
  if pid ≤ 2 then enterShell k pid r else enterChild k pid r

/-- The end of STEP 5 and STEP 6: `iret` to the program, on a stack that ends 4 bytes below 132 MB. -/
def enterProgram (k : Kernel) (pid : Int) (entry : Nat) : Kernel :=
  { k.setTss (k.pcbs pid).baseKernelStack with currPid := pid, esp := 0x83FFFFC, eip := entry, mode := .user }

/-- STEP 3 to STEP 6 of `sys_execute`, for a pid that is free. -/
def launch (k : Kernel) (pid : Int) (inode entry : Nat) (args : List UInt8) (r : Regs) : Kernel :=
  enterProgram (placeProcess (initPcb (loadProgram k pid inode) pid args) pid r) pid entry

/-- How a call of `sys_execute` ends; `fault` is the state in which it leaves its arrays or the memory that is
mapped. -/
inductive ExecuteResult
  | fault (k : Kernel)
  | ret (k : Kernel) (v : Int)
  | user (k : Kernel)

/-- `sys_execute`; `command` is what a pointer that is not NULL designates. -/
def sysExecute (k : Kernel) (command : Option (Nat → UInt8)) (r : Regs) (stale : Nat → UInt8) :
    ExecuteResult :=
  match command with
  | none => .ret k (-1)
  | some command =>
    if command 0 = chNewline then .ret k 0
    else
      match parseCommand command with
      | none => .fault k
      | some (cmd, args) =>
        match findProgram k.fs cmd stale with
        | none => .ret k (-1)
        | some (inode, entry) =>
          match freePid k.pidArray with
          | none => .ret k (-1)
          | some pid =>
            if usrBuf + (programBytes k.fs inode).length > loadEnd k then .fault (loadProgram k pid inode)
            else .user (launch k pid inode entry args r)

/-! ## `sys_halt` -/

/-- The string `"shell"`. -/
def shellCommand : Nat → UInt8 := ofList shellName

/-- The loop of `sys_halt` that closes descriptors 2 to 7. -/
def closeFiles (k : Kernel) (esp : Int) : Kernel := Run.forUp 2 6 (fun i k => (sysClose k esp i).1) k

/-- The first part of `sys_halt`: the pid is given back and the files are closed. -/
def releaseProcess (k : Kernel) (esp : Int) : Kernel :=
  let k := { k with exceptionFlag := false }
  closeFiles (k.setPid (k.pcbs k.currPid).currPid notInUse) esp

/-- The end of `sys_halt`: back into the parent's `sys_execute`, with the registers saved there. If a boot tick has
started a program under a pid above 2, they are those of `schedule` on a stack that holds nothing to return to, and
the kernel does not get beyond this state. -/
def resumeParent (k : Kernel) (returnVal : Int) : Kernel :=
  let pcb := k.pcbs k.currPid
  let k := k.setTss (kernelStackBase pcb.parentPid)
  let k := mapUserProgram k pcb.parentPid
  let k := k.setSlot pcb.termId pcb.parentPid
  { k with currPid := pcb.parentPid, eax := returnVal, ebp := pcb.oldEbp, esp := pcb.oldEsp, mode := .kernel }

/-- `sys_halt`; `r` are the registers in the calls it makes. -/
def sysHalt (k : Kernel) (status : UInt8) (r : Regs) (stale : Nat → UInt8) : Option Kernel :=
  let returnVal : Int := if k.exceptionFlag then 256 else status.toNat
  let k := releaseProcess k r.esp
  if k.currPid ≤ 2 then
    match sysExecute k (some shellCommand) r stale with
    | .fault _ => none
    | .user k => some k
    | .ret k _ => some (resumeParent k returnVal)
  else some (resumeParent k returnVal)

/-! ## `schedule` -/

/-- The boot of a terminal's shell by `schedule`; its return would use a stack that holds nothing. -/
def bootShell (k : Kernel) (t : Fin 3) (r : Regs) (stale : Nat → UInt8) : Option Kernel :=
  let k := schedulingVidmap { k with scheduledProcess := t } t k.currTerm
  match sysExecute k (some shellCommand) r stale with
  | .user k => some k
  | .fault _ | .ret _ _ => none

/-- The registers a tick saves and loads. -/
def Pcb.scheduleRegs (pcb : Pcb) : Regs := ⟨pcb.scheduleEsp, pcb.scheduleEbp⟩

/-- The store of the registers into the control block of the scheduled slot. -/
def saveContext (k : Kernel) (r : Regs) : Kernel :=
  k.modifyPcb (k.schedulingArray k.scheduledProcess) fun pcb =>
    { pcb with scheduleEbp := r.ebp, scheduleEsp := r.esp }

/-- The normal part of `schedule`: on to the next slot. -/
def switchTo (k : Kernel) (next : Fin 3) : Kernel :=
  let pid := k.schedulingArray next
  let k := { k with scheduledProcess := next, currPid := (k.pcbs pid).currPid }
  let k := k.setTss (kernelStackBase pid)
  let k := mapUserProgram k pid
  let k := schedulingVidmap k next k.currTerm
  { k with ebp := (k.pcbs pid).scheduleEbp, esp := (k.pcbs pid).scheduleEsp, mode := .kernel }

/-- `schedule`; `r` are the registers it saves, `inner` those in a call of `sys_execute` on the stack it
has set up. -/
def schedule (k : Kernel) (r inner : Regs) (stale : Nat → UInt8) : Option Kernel :=
  if k.schedulingArray 0 = -1 then
    let k := schedulingVidmap k k.scheduledProcess k.currTerm
    match sysExecute k (some shellCommand) inner stale with
    | .fault _ => none
    | .user k | .ret k _ => some k
  else
    let k := saveContext k r
    if k.schedulingArray 1 = -1 then bootShell k 1 inner stale
    else if k.schedulingArray 2 = -1 then bootShell { k with bootedFlag := true } 2 inner stale
    else some (switchTo k (k.scheduledProcess + 1))

/-- `PIT_handler`. -/
def pitHandler (k : Kernel) (r inner : Regs) (stale : Nat → UInt8) : Option Kernel :=
  schedule (sendEoi k 0) r inner stale

/-! ## What a new process changes -/

/-- Control blocks that agree up to descriptors and the child. -/
def SameLinks (a b : Pcb) : Prop := ∃ fda child, b = { a with fda := fda, childPid := child }

theorem SameLinks.refl (a : Pcb) : SameLinks a a := ⟨a.fda, a.childPid, rfl⟩

theorem SameLinks.trans {a b c : Pcb} (h₁ : SameLinks a b) (h₂ : SameLinks b c) : SameLinks a c := by
  obtain ⟨_, _, rfl⟩ := h₁
  obtain ⟨_, _, rfl⟩ := h₂
  exact ⟨_, _, rfl⟩

theorem setSlot_activePid (k : Kernel) (u : Fin 3) (pid : Int) (t : Fin 3) :
    ((k.setSlot u pid).terminals t).activePid = if t = u then pid else (k.terminals t).activePid := by
  simp only [Kernel.setSlot]
  split_ifs with ht
  · rw [ht, Kernel.modifyTerm_terminals_self]
  · rw [Kernel.modifyTerm_terminals_of_ne _ _ ht]

section Launch
variable (k : Kernel) (pid : Int) (inode entry : Nat) (args : List UInt8) (r : Regs)

/-- The slot a new process takes. -/
def launchSlot (k : Kernel) (pid : Int) : Fin 3 := if pid ≤ 2 then k.scheduledProcess else k.currTerm

/-- Everything `placeProcess` leaves alone, and the slot it fills. -/
theorem placeProcess_frame : ∃ pcbs,
    placeProcess k pid r = { k.setSlot (launchSlot k pid) pid with pcbs := pcbs } := by
  unfold placeProcess launchSlot
  split
  · exact ⟨_, rfl⟩
  · exact ⟨_, rfl⟩

/-- What `placeProcess` leaves in the new control block. -/
theorem placeProcess_pcb_self :
    let pcb := (placeProcess k pid r).pcbs pid
    pcb.currPid = (k.pcbs pid).currPid ∧ pcb.baseKernelStack = (k.pcbs pid).baseKernelStack ∧
      pcb.termId = launchSlot k pid ∧ pcb.oldEsp = r.esp ∧ pcb.oldEbp = r.ebp ∧
      (2 < pid → pcb.parentPid = k.schedulingArray k.currTerm) := by
  unfold placeProcess launchSlot
  split_ifs with h
  · simp [enterShell, Kernel.setSlot, Kernel.modifyPcb, Kernel.modifyTerm, h]
  · by_cases hp : k.schedulingArray k.currTerm = pid
    · simp [enterChild, Kernel.setSlot, Kernel.modifyPcb, Kernel.modifyTerm, hp]
    · simp [enterChild, Kernel.setSlot, Kernel.modifyPcb, Kernel.modifyTerm, Function.update_of_ne (Ne.symm hp)]

/-- What it leaves in the others. -/
theorem placeProcess_pcb_of_ne {q : Int} (hq : q ≠ pid) :
    SameLinks (k.pcbs q) ((placeProcess k pid r).pcbs q) := by
  unfold placeProcess
  split_ifs with h
  · simp only [enterShell, Kernel.setSlot, Kernel.modifyPcb, Kernel.modifyTerm, Function.update_of_ne hq]
    exact SameLinks.refl _
  · simp only [enterChild, Kernel.setSlot, Kernel.modifyPcb, Kernel.modifyTerm, Function.update_of_ne hq]
    by_cases hp : q = k.schedulingArray k.currTerm
    · rw [← hp, Function.update_self, Function.update_of_ne hq]
      exact ⟨_, _, rfl⟩
    · rw [Function.update_of_ne hp, Function.update_of_ne hq]
      exact SameLinks.refl _

/-- Everything `launch` leaves alone, and what it writes outside the control blocks. -/
theorem launch_frame : ∃ pcbs userMem videoMem,
    launch k pid inode entry args r =
      { (mapUserProgram (k.setSlot (launchSlot k pid) pid) pid).setPid pid used with
        pcbs := pcbs, currPid := pid, userMem := userMem, videoMem := videoMem
        shellFlag := true, runningFlag := if pid ≠ 0 then true else k.runningFlag
        tss := { ss0 := kernelDs, esp0 := kernelStackBase pid }
        esp := 0x83FFFFC, eip := entry, mode := .user } := by
  have hbase := (placeProcess_pcb_self (initPcb (loadProgram k pid inode) pid args) pid r).2.1
  rw [initPcb, Kernel.modifyPcb_pcbs_self] at hbase
  unfold launch enterProgram Kernel.setTss
  rw [initPcb, hbase]
  obtain ⟨pcbs, h⟩ := placeProcess_frame (initPcb (loadProgram k pid inode) pid args) pid r
  rw [initPcb] at h
  rw [h]
  exact ⟨pcbs, _, _, rfl⟩

/-- The new control block. -/
theorem launch_pcb_self :
    let pcb := (launch k pid inode entry args r).pcbs pid
    pcb.currPid = pid ∧ pcb.termId = launchSlot k pid ∧ pcb.oldEsp = r.esp ∧ pcb.oldEbp = r.ebp ∧
      (2 < pid → pcb.parentPid = k.schedulingArray k.currTerm) := by
  have h := placeProcess_pcb_self (initPcb (loadProgram k pid inode) pid args) pid r
  rw [initPcb, Kernel.modifyPcb_pcbs_self] at h
  exact ⟨h.1, h.2.2.1, h.2.2.2.1, h.2.2.2.2.1, h.2.2.2.2.2⟩

theorem launch_pcb_of_ne {q : Int} (hq : q ≠ pid) :
    SameLinks (k.pcbs q) ((launch k pid inode entry args r).pcbs q) := by
  have h := placeProcess_pcb_of_ne (initPcb (loadProgram k pid inode) pid args) pid r hq
  rw [initPcb, Kernel.modifyPcb_pcbs_of_ne _ _ hq] at h
  exact h

@[simp] theorem launch_fs : (launch k pid inode entry args r).fs = k.fs := by
  obtain ⟨_, _, _, h⟩ := launch_frame k pid inode entry args r
  rw [h]
  rfl

@[simp] theorem launch_pidArray :
    (launch k pid inode entry args r).pidArray = Function.update k.pidArray pid used := by
  obtain ⟨_, _, _, h⟩ := launch_frame k pid inode entry args r
  rw [h]
  rfl

@[simp] theorem launch_currPid : (launch k pid inode entry args r).currPid = pid := by
  obtain ⟨_, _, _, h⟩ := launch_frame k pid inode entry args r
  rw [h]

@[simp] theorem launch_tss : (launch k pid inode entry args r).tss.esp0 = kernelStackBase pid := by
  obtain ⟨_, _, _, h⟩ := launch_frame k pid inode entry args r
  rw [h]

@[simp] theorem launch_scheduledProcess :
    (launch k pid inode entry args r).scheduledProcess = k.scheduledProcess := by
  obtain ⟨_, _, _, h⟩ := launch_frame k pid inode entry args r
  rw [h]
  rfl

@[simp] theorem launch_currTerm : (launch k pid inode entry args r).currTerm = k.currTerm := by
  obtain ⟨_, _, _, h⟩ := launch_frame k pid inode entry args r
  rw [h]
  rfl

@[simp] theorem launch_schedulingArray : (launch k pid inode entry args r).schedulingArray =
    Function.update k.schedulingArray (launchSlot k pid) pid := by
  obtain ⟨_, _, _, h⟩ := launch_frame k pid inode entry args r
  rw [h]
  rfl

@[simp] theorem launch_toKeys : (launch k pid inode entry args r).toKeys =
    { k.toKeys with shellFlag := true, runningFlag := if pid ≠ 0 then true else k.runningFlag } := by
  obtain ⟨_, _, _, h⟩ := launch_frame k pid inode entry args r
  rw [h]
  rfl

@[simp] theorem launch_toDevices : (launch k pid inode entry args r).toDevices = k.toDevices := by
  obtain ⟨_, _, _, h⟩ := launch_frame k pid inode entry args r
  rw [h]
  rfl

theorem launch_activePid (t : Fin 3) : ((launch k pid inode entry args r).terminals t).activePid =
    if t = launchSlot k pid then pid else (k.terminals t).activePid := by
  obtain ⟨_, _, _, h⟩ := launch_frame k pid inode entry args r
  rw [h]
  exact setSlot_activePid k (launchSlot k pid) pid t

theorem launch_userPageIs (h : 0 ≤ pid) : UserPageIs (launch k pid inode entry args r) pid := by
  obtain ⟨_, _, _, hl⟩ := launch_frame k pid inode entry args r
  have := mapUserProgram_userPageIs (k.setSlot (launchSlot k pid) pid) h
  rw [hl]
  exact this

end Launch

/-! ## What a call of `sys_execute` does -/

theorem le_loadEnd (k : Kernel) : one32Mb ≤ loadEnd k := by
  unfold loadEnd
  split_ifs
  · exact Nat.le_add_right _ _
  · exact le_refl _

theorem freePid_eq_some {pidArray : Int → Int} {pid : Int} (h : freePid pidArray = some pid) :
    (0 ≤ pid ∧ pid ≤ 5) ∧ pidArray pid = unused := by
  have hmem := List.mem_of_find?_eq_some h
  have hfree := List.find?_some h
  refine ⟨?_, by simpa using hfree⟩
  simp only [List.mem_cons, List.not_mem_nil, or_false] at hmem
  omega

/-- A call that does not fault returns without a change, or enters a process under an unused pid. -/
theorem sysExecute_cases (k : Kernel) (command : Option (Nat → UInt8)) (r : Regs) (stale : Nat → UInt8) :
    (∃ k', sysExecute k command r stale = .fault k') ∨ (∃ v, sysExecute k command r stale = .ret k v) ∨
      ∃ pid inode entry args, freePid k.pidArray = some pid ∧
        sysExecute k command r stale = .user (launch k pid inode entry args r) := by
  unfold sysExecute
  cases command with
  | none => exact Or.inr (Or.inl ⟨_, rfl⟩)
  | some command =>
    dsimp only
    split
    · exact Or.inr (Or.inl ⟨_, rfl⟩)
    · split
      · exact Or.inl ⟨_, rfl⟩
      · split
        · exact Or.inr (Or.inl ⟨_, rfl⟩)
        · split
          · exact Or.inr (Or.inl ⟨_, rfl⟩)
          · rename_i pid hpid
            split
            · exact Or.inl ⟨_, rfl⟩
            · exact Or.inr (Or.inr ⟨pid, _, _, _, hpid, rfl⟩)

theorem sysExecute_ret {k k' : Kernel} {command : Option (Nat → UInt8)} {r : Regs} {stale : Nat → UInt8} {v : Int}
    (h : sysExecute k command r stale = .ret k' v) : k' = k := by
  rcases sysExecute_cases k command r stale with ⟨_, he⟩ | ⟨w, he⟩ | ⟨pid, inode, entry, args, -, he⟩
  · rw [he] at h
    cases h
  · rw [he] at h
    cases h
    rfl
  · rw [he] at h
    cases h

theorem sysExecute_user {k k' : Kernel} {command : Option (Nat → UInt8)} {r : Regs} {stale : Nat → UInt8}
    (h : sysExecute k command r stale = .user k') :
    ∃ pid inode entry args, freePid k.pidArray = some pid ∧ k' = launch k pid inode entry args r := by
  rcases sysExecute_cases k command r stale with ⟨_, he⟩ | ⟨w, he⟩ | ⟨pid, inode, entry, args, hpid, he⟩
  · rw [he] at h
    cases h
  · rw [he] at h
    cases h
  · rw [he, ExecuteResult.user.injEq] at h
    exact ⟨pid, inode, entry, args, hpid, h.symm⟩

/-- The directory has a file `shell` that starts like an ELF file. -/
def HasShell (fs : FileSystem) : Prop :=
  ∃ d, fs.lookup shellName = some d ∧ d.inodeNum < fs.inodeCount ∧
    fs.fileBytes d.inodeNum 4 = [0x7F, 69, 76, 70]

theorem findProgram_of_hasShell {fs : FileSystem} (h : HasShell fs) (stale : Nat → UInt8) :
    ∃ p, findProgram fs shellName stale = some p := by
  obtain ⟨d, hd, hinode, helf⟩ := h
  have hboot : fs.theBootBlock ≠ 0 := by
    intro h0
    rw [FileSystem.lookup, if_pos (Or.inl h0)] at hd
    cases hd
  -- the four bytes are read from the start of the file
  have hread : (fs.readData d.inodeNum 0 false 4).2 = [0x7F, 69, 76, 70] := by
    have hpos : ∀ i, FileSystem.readPos 0 i = i := by
      intro i
      unfold FileSystem.readPos
      omega
    rw [FileSystem.readData_of_le (FileSystem.not_refuses hboot hinode) (Nat.zero_le _),
      (fs.readLoop_eq d.inodeNum 0 4 0).1 (Or.inr (by decide)), ← helf]
    simp only [hpos, ← List.range_eq_range']
    rfl
  unfold findProgram
  rw [FileSystem.readDentryByName_eq, hd]
  dsimp only
  rw [hread, if_neg (by simp [storeAll])]
  exact ⟨_, rfl⟩

theorem parseCommand_shell : parseCommand shellCommand = some (shellName, []) := by decide +kernel

/-- With such a file and a pid to give, `sys_execute("shell")` does not return. -/
theorem sysExecute_shell {k : Kernel} (h : HasShell k.fs) {pid : Int} (hpid : freePid k.pidArray = some pid)
    (r : Regs) (stale : Nat → UInt8) :
    (∃ k', sysExecute k (some shellCommand) r stale = .fault k') ∨
      ∃ inode entry, sysExecute k (some shellCommand) r stale = .user (launch k pid inode entry [] r) := by
  obtain ⟨p, hp⟩ := findProgram_of_hasShell h stale
  unfold sysExecute
  simp only [parseCommand_shell, hp, hpid]
  rw [if_neg (by decide)]
  split
  · exact Or.inl ⟨_, rfl⟩
  · exact Or.inr ⟨_, _, rfl⟩

theorem findProgram_inode {fs : FileSystem} {cmd : List UInt8} {stale : Nat → UInt8} {p : Nat × Nat}
    (h : findProgram fs cmd stale = some p) : ∃ d, fs.readDentryByName cmd = some d ∧ d.inodeNum = p.1 := by
  unfold findProgram at h
  split at h
  · cases h
  · rename_i d hd
    dsimp only at h
    split at h
    · cases h
    · cases h
      exact ⟨d, hd, rfl⟩

theorem hasShell_shellImage : HasShell FileSystem.shellImage := by
  refine ⟨FileSystem.shellImage.direntry 0, ?_, ?_, ?_⟩
  · decide +kernel
  · decide +kernel
  · decide +kernel

/-- The shell of the small image fits its page. -/
theorem sysExecute_shellImage {k : Kernel} (hfs : k.fs = FileSystem.shellImage) {pid : Int}
    (hpid : freePid k.pidArray = some pid) (r : Regs) (stale : Nat → UInt8) :
    ∃ inode entry, sysExecute k (some shellCommand) r stale = .user (launch k pid inode entry [] r) := by
  obtain ⟨⟨inode, entry⟩, hp⟩ := findProgram_of_hasShell hasShell_shellImage stale
  have hinode : inode = 0 := by
    obtain ⟨d, hd, rfl⟩ := findProgram_inode hp
    have h0 : (FileSystem.shellImage.readDentryByName shellName).map (·.inodeNum) = some 0 := by decide +kernel
    rw [hd] at h0
    exact Option.some.inj h0
  have hlength : (programBytes FileSystem.shellImage 0).length = 28 := by decide +kernel
  unfold sysExecute
  simp only [parseCommand_shell, hfs, hp, hpid, hinode, hlength]
  rw [if_neg (by decide), if_neg (not_lt.mpr (le_trans (by decide) (le_loadEnd k)))]
  exact ⟨0, entry, rfl⟩

/-! ## What `sys_halt` does -/

theorem sysClose_frame (k : Kernel) (esp fd : Int) :
    ∃ pcbs, (sysClose k esp fd).1 = { k with pcbs := pcbs } ∧ ∀ q, SameLinks (k.pcbs q) (pcbs q) := by
  have hsame : ∃ pcbs, k = { k with pcbs := pcbs } ∧ ∀ q, SameLinks (k.pcbs q) (pcbs q) :=
    ⟨k.pcbs, rfl, fun q => SameLinks.refl _⟩
  unfold sysClose
  split_ifs
  · exact hsame
  · exact hsame
  · exact hsame
  · refine ⟨_, rfl, fun q => ?_⟩
    rw [Function.update_apply]
    split_ifs with hq
    · subst hq
      exact ⟨_, _, rfl⟩
    · exact SameLinks.refl _

theorem closeFiles_frame (k : Kernel) (esp : Int) :
    ∃ pcbs, closeFiles k esp = { k with pcbs := pcbs } ∧ ∀ q, SameLinks (k.pcbs q) (pcbs q) := by
  refine Run.forUp_invariant
    (fun _ k' => ∃ pcbs, k' = { k with pcbs := pcbs } ∧ ∀ q, SameLinks (k.pcbs q) (pcbs q)) 6 2 k
    ⟨k.pcbs, rfl, fun q => SameLinks.refl _⟩ ?_
  rintro i _ - - ⟨pcbs, rfl, hsame⟩
  obtain ⟨pcbs', h, hsame'⟩ := sysClose_frame { k with pcbs := pcbs } esp i
  exact ⟨pcbs', h, fun q => (hsame q).trans (hsame' q)⟩

/-- The halting process's pid is free afterwards; nothing else but descriptors has changed. -/
theorem releaseProcess_frame (k : Kernel) (esp : Int) :
    ∃ pcbs, releaseProcess k esp =
        { k.setPid (k.pcbs k.currPid).currPid notInUse with exceptionFlag := false, pcbs := pcbs } ∧
      ∀ q, SameLinks (k.pcbs q) (pcbs q) := by
  unfold releaseProcess
  exact closeFiles_frame _ esp

/-- A process that is not a shell goes back to its parent. -/
theorem sysHalt_child {k : Kernel} (h : 2 < k.currPid) (status : UInt8) (r : Regs) (stale : Nat → UInt8) :
    ∃ v, sysHalt k status r stale = some (resumeParent (releaseProcess k r.esp) v) := by
  have hcurr : (releaseProcess k r.esp).currPid = k.currPid := by
    obtain ⟨_, h, -⟩ := releaseProcess_frame k r.esp
    rw [h]
    rfl
  unfold sysHalt
  dsimp only
  rw [if_neg (by omega)]
  exact ⟨_, rfl⟩

/-- A shell is started again, under the first pid that is free. -/
theorem sysHalt_shell {k : Kernel} (h : k.currPid ≤ 2) (hshell : HasShell k.fs) {r : Regs} {pid : Int}
    (hpid : freePid (releaseProcess k r.esp).pidArray = some pid) (status : UInt8) (stale : Nat → UInt8) :
    sysHalt k status r stale = none ∨ ∃ inode entry,
      sysHalt k status r stale = some (launch (releaseProcess k r.esp) pid inode entry [] r) := by
  obtain ⟨_, hrel, -⟩ := releaseProcess_frame k r.esp
  have hcurr : (releaseProcess k r.esp).currPid = k.currPid := by
    rw [hrel]
    rfl
  have hshell' : HasShell (releaseProcess k r.esp).fs := by
    rw [hrel]
    exact hshell
  unfold sysHalt
  dsimp only
  rw [if_pos (by omega)]
  rcases sysExecute_shell hshell' hpid r stale with ⟨_, he⟩ | ⟨inode, entry, he⟩
  · rw [he]
    exact Or.inl rfl
  · rw [he]
    exact Or.inr ⟨inode, entry, rfl⟩

/-- What a halt leaves, whatever the state it finds. -/
theorem sysHalt_cases {k k' : Kernel} {status : UInt8} {r : Regs} {stale : Nat → UInt8}
    (h : sysHalt k status r stale = some k') :
    (∃ v, k' = resumeParent (releaseProcess k r.esp) v) ∨
      ∃ pid inode entry args, k' = launch (releaseProcess k r.esp) pid inode entry args r := by
  unfold sysHalt at h
  dsimp only at h
  split at h
  · split at h
    · cases h
    · rename_i he
      obtain ⟨pid, inode, entry, args, -, hk⟩ := sysExecute_user he
      rw [← Option.some.inj h, hk]
      exact Or.inr ⟨pid, inode, entry, args, rfl⟩
    · rename_i he
      rw [← Option.some.inj h, sysExecute_ret he]
      exact Or.inl ⟨_, rfl⟩
  · rw [← Option.some.inj h]
    exact Or.inl ⟨_, rfl⟩

section Resume
variable (k : Kernel) (v : Int)

@[simp] theorem resumeParent_fs : (resumeParent k v).fs = k.fs := rfl

@[simp] theorem resumeParent_pidArray : (resumeParent k v).pidArray = k.pidArray := rfl

@[simp] theorem resumeParent_toKeys : (resumeParent k v).toKeys = k.toKeys := rfl

@[simp] theorem resumeParent_toDevices : (resumeParent k v).toDevices = k.toDevices := rfl

@[simp] theorem resumeParent_pcbs : (resumeParent k v).pcbs = k.pcbs := rfl

@[simp] theorem resumeParent_currPid : (resumeParent k v).currPid = (k.pcbs k.currPid).parentPid := rfl

@[simp] theorem resumeParent_esp : (resumeParent k v).esp = (k.pcbs k.currPid).oldEsp := rfl

@[simp] theorem resumeParent_ebp : (resumeParent k v).ebp = (k.pcbs k.currPid).oldEbp := rfl

@[simp] theorem resumeParent_tss :
    (resumeParent k v).tss.esp0 = kernelStackBase (k.pcbs k.currPid).parentPid := rfl

@[simp] theorem resumeParent_scheduledProcess : (resumeParent k v).scheduledProcess = k.scheduledProcess := rfl

@[simp] theorem resumeParent_schedulingArray : (resumeParent k v).schedulingArray =
    Function.update k.schedulingArray (k.pcbs k.currPid).termId (k.pcbs k.currPid).parentPid := rfl

theorem resumeParent_activePid (t : Fin 3) : ((resumeParent k v).terminals t).activePid =
    if t = (k.pcbs k.currPid).termId then (k.pcbs k.currPid).parentPid else (k.terminals t).activePid := by
  exact setSlot_activePid k (k.pcbs k.currPid).termId (k.pcbs k.currPid).parentPid t

theorem resumeParent_userPageIs (h : 0 ≤ (k.pcbs k.currPid).parentPid) :
    UserPageIs (resumeParent k v) (k.pcbs k.currPid).parentPid := mapUserProgram_userPageIs _ h

end Resume

/-! ## What `schedule` does -/

theorem saveContext_regs_self (k : Kernel) (r : Regs) :
    ((saveContext k r).pcbs (k.schedulingArray k.scheduledProcess)).scheduleRegs = r := by
  rw [saveContext, Kernel.modifyPcb_pcbs_self]
  rfl

theorem saveContext_pcbs_of_ne {k : Kernel} {r : Regs} {p : Int}
    (hp : p ≠ k.schedulingArray k.scheduledProcess) : (saveContext k r).pcbs p = k.pcbs p := by
  rw [saveContext, Kernel.modifyPcb_pcbs_of_ne _ _ hp]

/-- What the switch to the next slot writes. -/
theorem switchTo_frame (k : Kernel) (next : Fin 3) :
    let pid := k.schedulingArray next
    ∃ pd pt vt, switchTo k next =
        { k with
          scheduledProcess := next, currPid := (k.pcbs pid).currPid
          tss := { ss0 := kernelDs, esp0 := kernelStackBase pid }
          ebp := (k.pcbs pid).scheduleEbp, esp := (k.pcbs pid).scheduleEsp, mode := .kernel
          pageDirectory := pd, pageTable := pt, vidmapPageTable := vt } ∧
      pd 32 = (mapUserProgram k pid).pageDirectory 32 := by
  intro pid
  obtain ⟨pd, pt, vt, h, h32⟩ := schedulingVidmap_frame
    (mapUserProgram ({ k with scheduledProcess := next, currPid := (k.pcbs pid).currPid }.setTss
      (kernelStackBase pid)) pid) next k.currTerm
  refine ⟨pd, pt, vt, ?_, h32⟩
  unfold switchTo
  exact congrArg (fun k' : Kernel =>
    { k' with ebp := (k'.pcbs pid).scheduleEbp, esp := (k'.pcbs pid).scheduleEsp, mode := .kernel }) h

/-- The user's video page after the switch. -/
theorem switchTo_vidmap (k : Kernel) (next : Fin 3) :
    VidmapShows (switchTo k next) (vidmapFrame next k.currTerm) :=
  schedulingVidmap_shows _ next k.currTerm

/-- Once all terminals are booted, a tick saves the registers and switches. -/
theorem schedule_eq {k : Kernel} (h : ∀ t, k.schedulingArray t ≠ -1) (r inner : Regs) (stale : Nat → UInt8) :
    schedule k r inner stale = some (switchTo (saveContext k r) (k.scheduledProcess + 1)) := by
  have h' : ∀ t, (saveContext k r).schedulingArray t ≠ -1 := h
  unfold schedule
  rw [if_neg (h 0)]
  dsimp only
  rw [if_neg (h' 1), if_neg (h' 2)]
  rfl

/-- What a tick leaves, whatever the state it finds: the next slot's process, or a terminal that is being
booted. -/
theorem schedule_cases {k k' : Kernel} {r inner : Regs} {stale : Nat → UInt8}
    (h : schedule k r inner stale = some k') :
    k' = switchTo (saveContext k r) (k.scheduledProcess + 1) ∨
      ∃ k₀ : Kernel, k₀.toTty = k.toTty ∧ k₀.toKeys = k.toKeys ∧ k₀.toDevices = k.toDevices ∧
        (k' = schedulingVidmap k₀ k₀.scheduledProcess k₀.currTerm ∨ ∃ pid inode entry args,
          k' = launch (schedulingVidmap k₀ k₀.scheduledProcess k₀.currTerm) pid inode entry args inner) := by
  have hboot : ∀ (k₀ : Kernel) (t : Fin 3), bootShell k₀ t inner stale = some k' → ∃ pid inode entry args,
      k' = launch (schedulingVidmap { k₀ with scheduledProcess := t } t k₀.currTerm) pid inode entry args inner := by
    intro k₀ t hb
    unfold bootShell at hb
    dsimp only at hb
    split at hb
    · rename_i he
      obtain ⟨pid, inode, entry, args, -, hk⟩ := sysExecute_user he
      rw [← Option.some.inj hb, hk]
      exact ⟨pid, inode, entry, args, rfl⟩
    · cases hb
    · cases hb
  unfold schedule at h
  dsimp only at h
  split at h
  · refine Or.inr ⟨k, rfl, rfl, rfl, ?_⟩
    split at h
    · cases h
    · rename_i he
      obtain ⟨pid, inode, entry, args, -, hk⟩ := sysExecute_user he
      rw [← Option.some.inj h, hk]
      exact Or.inr ⟨pid, inode, entry, args, rfl⟩
    · rename_i he
      rw [← Option.some.inj h, sysExecute_ret he]
      exact Or.inl rfl
  · split at h
    · exact Or.inr ⟨{ saveContext k r with scheduledProcess := 1 }, rfl, rfl, rfl, Or.inr (hboot _ 1 h)⟩
    · split at h
      · exact Or.inr ⟨{ saveContext k r with bootedFlag := true, scheduledProcess := 2 }, rfl, rfl, rfl,
          Or.inr (hboot _ 2 h)⟩
      · exact Or.inl (Option.some.inj h).symm

end BasicOs
