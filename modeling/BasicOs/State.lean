import BasicOs.Lib.Bytes

/-!
# The kernel's data

The structures of `syscall.h`, `terminal.h`, `paging.h` and `filesystem.h`, and one record `Kernel`
for the global variables, the TSS, the page tables, the video memory and the CPU registers that the
modelled functions read and write.

* pids are C `int`s; the array `pid_array` and the process control blocks, which `get_pcb_from_pid`
  places by pid, are functions of the pid;
* terminals are numbered by `Fin 3` (`MAX_TERMINALS`), and so are the slots of `scheduling_array`;
* bytes are `UInt8`, addresses are integers.
-/

namespace BasicOs

/-! ## Constants -/

def maxNumPids : Nat := 6
def unused : Int := 0
def used : Int := 1
def fdaSize : Int := 8
def inUse : Nat := 1
def notInUse : Nat := 0

def eightMb : Int := 0x800000
def eightKb : Int := 0x2000
def one28Mb : Nat := 0x8000000
def one32Mb : Nat := 0x8400000
def kernelDs : Nat := 0x0018

def vidmemAddress : Nat := 0xB8000
def addressShiftKb : Nat := 12
def fourMbOffset : Nat := 1024

def keyboardBufSize : Nat := 128

/-- There are terminals: the literals of `Fin 3`. -/
instance neZeroTerminals : NeZero (3 : Nat) := ⟨by decide⟩

/-! ## Page tables -/

/-- A page directory entry (`pde_t`); the unused and ignored bits are left out. -/
structure Pde where
  p : Bool
  r : Bool
  u : Bool
  w : Bool
  d : Bool
  a : Bool
  s : Bool
  offset31_12 : Nat
  deriving DecidableEq

/-- A page table entry (`pte_t`). -/
structure Pte where
  p : Bool
  r : Bool
  u : Bool
  w : Bool
  c : Bool
  a : Bool
  d : Bool
  offset31_12 : Nat
  deriving DecidableEq

/-! ## Processes -/

/-- The file operations tables of `syscall.c`, one name for each. -/
inductive Fops
  | stdInTable
  | stdOutTable
  | rtcTable
  | filesysTable
  | filedirTable
  | badTable
  deriving DecidableEq

/-- A file descriptor (`files_t`). -/
structure Files where
  fopsPtr : Fops
  inode : Nat
  filePosition : Nat
  flags : Nat
  deriving DecidableEq

/-- A process control block (`pcb_t`). `args` is the string its pointer field designates. -/
structure Pcb where
  fda : Int → Files
  baseKernelStack : Int
  currPid : Int
  parentPid : Int
  childPid : Int
  termId : Fin 3
  oldEsp : Int
  oldEbp : Int
  oldEsp0 : Int
  scheduleEsp : Int
  scheduleEbp : Int
  args : List UInt8

/-! ## Terminals -/

/-- A terminal (`term_t`). `keyboardBuf` has the 128 bytes of its array, `history` the 100 rows of 128
bytes of its own; what a function says beyond them is not used. -/
structure Term where
  termX : Int
  termY : Int
  termId : Int
  activePid : Int
  keyboardBuf : Nat → UInt8
  bufIdx : Int
  termPid : Fin 4 → Int
  vidmem : Int
  keyFlag : Int
  acRepeats : Int
  historyIdx : Int
  absoluteHistoryIdx : Int
  history : Nat → Nat → UInt8

/-! ## The file system -/

/-- The module in memory and the variables that locate it: `the_boot_block` (`0` before
`init_file_system` accepts it), `filesystem_start`, and `fs_start_addr` of the boot code. -/
structure FileSystem where
  mem : Nat → UInt8
  theBootBlock : Nat
  filesystemStart : Nat
  fsStartAddr : Nat

/-! ## The kernel -/

/-- The fields of the task state segment the code writes. -/
structure Tss where
  ss0 : Nat
  esp0 : Int
  deriving DecidableEq

/-- Which code the CPU was last sent to: a program in ring 3, or a kernel context that some
`schedule` or `sys_halt` resumed, on the kernel stack `esp` points into. -/
inductive Mode
  | user
  | kernel
  deriving DecidableEq

/-- The file system and the two variables its functions keep between calls. -/
structure FileVars where
  fs : FileSystem
  globalInodeIndex : Nat
  globalFileIndex : Nat

/-- Processes, the scheduler's variables, the TSS and the registers the kernel saves and loads; `eip` is
where the last program that was started begins. -/
structure Processes where
  pidArray : Int → Int
  currPid : Int
  pcbs : Int → Pcb
  schedulingArray : Fin 3 → Int
  scheduledProcess : Fin 3
  bootedFlag : Bool
  exceptionFlag : Bool
  tss : Tss
  esp : Int
  ebp : Int
  eax : Int
  eip : Nat
  mode : Mode

/-- The page tables, where the linker put the two of them that are pointed to, and the physical memory
from 8 MB on, where the user pages are. -/
structure Paging where
  pageDirectory : Nat → Pde
  pageTable : Nat → Pte
  vidmapPageTable : Nat → Pte
  pageTableAddr : Nat
  vidmapPageTableAddr : Nat
  userMem : Nat → UInt8

/-- The terminals and the memory that follows their array, the one that is displayed, the memory around
the VGA page and the CRT controller's cursor position. -/
structure Tty where
  terminals : Fin 3 → Term
  afterTerminals : Nat → UInt8
  currTerm : Fin 3
  videoMem : Int → UInt8
  cursor : Nat

/-- The keyboard driver's flags, and those it shares with `sys_execute`. -/
structure Keys where
  shiftPressed : Bool
  ctrlPressed : Bool
  capsLockPressed : Bool
  altPressed : Bool
  callHalt : Bool
  shellFlag : Bool
  runningFlag : Bool

/-- The RTC's flag and register A, and the commands sent to the two PICs (port and byte), newest
first. -/
structure Devices where
  rtcInterruptOccurred : Bool
  rtcRegA : UInt8
  picOut : List (Nat × Nat)

structure Kernel extends FileVars, Processes, Paging, Tty, Keys, Devices

namespace Kernel

/-- `terminals[t] = f(terminals[t])`. -/
def modifyTerm (k : Kernel) (t : Fin 3) (f : Term → Term) : Kernel :=
  { k with terminals := Function.update k.terminals t (f (k.terminals t)) }

/-- `*get_pcb_from_pid(pid) = f(*get_pcb_from_pid(pid))`. -/
def modifyPcb (k : Kernel) (pid : Int) (f : Pcb → Pcb) : Kernel :=
  { k with pcbs := Function.update k.pcbs pid (f (k.pcbs pid)) }

@[simp] theorem modifyTerm_terminals_self (k : Kernel) (t : Fin 3) (f : Term → Term) :
    (k.modifyTerm t f).terminals t = f (k.terminals t) := by
  simp [modifyTerm]

@[simp] theorem modifyTerm_terminals_of_ne (k : Kernel) {t u : Fin 3} (f : Term → Term) (h : u ≠ t) :
    (k.modifyTerm t f).terminals u = k.terminals u := by
  simp [modifyTerm, h]

@[simp] theorem modifyTerm_videoMem (k : Kernel) (t : Fin 3) (f : Term → Term) :
    (k.modifyTerm t f).videoMem = k.videoMem := rfl

@[simp] theorem modifyPcb_pcbs_self (k : Kernel) (pid : Int) (f : Pcb → Pcb) :
    (k.modifyPcb pid f).pcbs pid = f (k.pcbs pid) := by
  simp [modifyPcb]

@[simp] theorem modifyPcb_pcbs_of_ne (k : Kernel) {pid q : Int} (f : Pcb → Pcb) (h : q ≠ pid) :
    (k.modifyPcb pid f).pcbs q = k.pcbs q := by
  simp [modifyPcb, h]

end Kernel

/-! ## Memory at load time -/

/-- A terminal in zeroed memory. -/
def Term.zeroed : Term :=
  { termX := 0, termY := 0, termId := 0, activePid := 0, keyboardBuf := fun _ => 0, bufIdx := 0,
    termPid := fun _ => 0, vidmem := 0, keyFlag := 0, acRepeats := 0, historyIdx := 0,
    absoluteHistoryIdx := 0, history := fun _ _ => 0 }

/-- A process control block in zeroed memory. -/
def Pcb.zeroed : Pcb :=
  { fda := fun _ => { fopsPtr := .badTable, inode := 0, filePosition := 0, flags := 0 }
    baseKernelStack := 0, currPid := 0, parentPid := 0, childPid := 0, termId := 0, oldEsp := 0, oldEbp := 0,
    oldEsp0 := 0, scheduleEsp := 0, scheduleEbp := 0, args := [] }

/-- The kernel's variables as they are loaded, zeroed, with the file system module `fs`. -/
def Kernel.atLoad (fs : FileSystem) : Kernel :=
  { fs := fs, globalInodeIndex := 0, globalFileIndex := 0
    pidArray := fun _ => 0, currPid := 0, pcbs := fun _ => Pcb.zeroed, schedulingArray := fun _ => 0
    scheduledProcess := 0, bootedFlag := false, exceptionFlag := false, tss := { ss0 := 0, esp0 := 0 }
    esp := 0, ebp := 0, eax := 0, eip := 0, mode := .kernel
    pageDirectory := fun _ => ⟨false, false, false, false, false, false, false, 0⟩
    pageTable := fun _ => ⟨false, false, false, false, false, false, false, 0⟩
    vidmapPageTable := fun _ => ⟨false, false, false, false, false, false, false, 0⟩
    pageTableAddr := 0, vidmapPageTableAddr := 0, userMem := fun _ => 0
    terminals := fun _ => Term.zeroed, afterTerminals := fun _ => 0, currTerm := 0, videoMem := fun _ => 0
    cursor := 0
    shiftPressed := false, ctrlPressed := false, capsLockPressed := false, altPressed := false
    callHalt := false, shellFlag := false, runningFlag := false
    rtcInterruptOccurred := false, rtcRegA := 0, picOut := [] }

end BasicOs
