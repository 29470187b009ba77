import BasicOs.Devices
import BasicOs.Filesystem
import BasicOs.Terminal

/-!
# System calls on descriptors

`init_pcb`, `sys_open`, `sys_close`, `sys_read`, `sys_write`, `sys_getargs` and `sys_vidmap` of `syscall.c`, with
the functions of the operation tables they go through. A system call finds its process by the stack it runs
on (`get_pcb_ptr`), so each takes the stack pointer `esp`.

* `sysRead`, `sysOpen` answer `none` where the call does not come back: `terminal_read` waiting for a
  line, or a jump through the uninitialised table of a directory entry of unknown type;
* bytes written to a user's buffer are returned beside the value;
* `getargs_answers_iff` : for which sizes `sys_getargs` answers as its header says.
-/

namespace BasicOs
open Bytes

/-! ## Process control blocks -/

/-- `get_pcb_ptr`: the process at the bottom of whose 8 KB stack area `esp & PCB_MASK` points. -/
def stackOwner (esp : Int) : Int := (eightMb - (esp - esp % eightKb)) / eightKb - 1

/-- `0x800000 - pid * 0x2000`. -/
def kernelStackBase (pid : Int) : Int := 0x800000 - pid * 0x2000

/-- `curr_pcb->fda[fd] = f(curr_pcb->fda[fd])`. -/
def Pcb.modifyFile (pcb : Pcb) (fd : Int) (f : Files → Files) : Pcb :=
  { pcb with fda := Function.update pcb.fda fd (f (pcb.fda fd)) }

/-- The descriptor `init_pcb` leaves at `i`. -/
def initFile (i : Int) (f : Files) : Files :=
  if i = 0 then { f with fopsPtr := .stdInTable, inode := minusOne, flags := inUse }
  else if i = 1 then { f with fopsPtr := .stdOutTable, inode := minusOne, flags := inUse }
  else if 2 ≤ i ∧ i < fdaSize then { f with fopsPtr := .badTable, inode := minusOne, flags := notInUse }
  else f

/-- `init_pcb`. -/
def initPcb (k : Kernel) (pid : Int) (args : List UInt8) : Kernel :=
  k.modifyPcb pid fun pcb =>
    { pcb with
      fda := fun i => initFile i (pcb.fda i)
      parentPid := 0
      childPid := 0
      baseKernelStack := kernelStackBase pid
      currPid := pid
      args := args
      termId := k.currTerm }

/-! ## The operation tables -/

/-- The `open` of a table: the state and the value returned. -/
def Fops.open (k : Kernel) (filename : List UInt8) (rate : UInt8) : Fops → Kernel × Int
  | .rtcTable => rtcOpen k rate
  | .filesysTable =>
    match k.fs.fileOpen filename with
    | some inode => ({ k with globalInodeIndex := inode }, 0)
    | none => (k, -1)
  | .filedirTable => (k, 0)
  | .stdInTable | .stdOutTable | .badTable => (k, -1)

/-- The `close` of a table. -/
def Fops.close : Fops → Int
  | .rtcTable | .filesysTable | .filedirTable => 0
  | .stdInTable | .stdOutTable | .badTable => -1

/-- `file_read`. -/
def fileRead (k : Kernel) (esp fd nbytes : Int) : Kernel × Int × List UInt8 :=
  let file := (k.pcbs (stackOwner esp)).fda fd
  let offset := file.filePosition
  let fileLength := load32 k.fs.mem (k.fs.fsStartAddr + (file.inode + 1) * blockSize)
  if offset ≥ fileLength ∧ fileLength ≠ 0 then (k, 0, [])
  else
    let (bytesRead, bytes) := k.fs.readData file.inode offset false (nbytes % 2 ^ 32).toNat
    (k.modifyPcb (stackOwner esp) fun pcb =>
      pcb.modifyFile fd fun f => { f with filePosition := u32 (f.filePosition + bytesRead) },
      i32 bytesRead, bytes)

/-- `dir_read`. -/
def dirRead (k : Kernel) : Kernel × Int × List UInt8 :=
  match k.fs.readDentryByIndex k.globalFileIndex with
  | some d =>
    let fnameLen := strnlen (ofList d.filename) filenameLen
    ({ k with globalFileIndex := k.globalFileIndex + 1 }, fnameLen, d.filename.take fnameLen)
  | none => ({ k with globalFileIndex := 0 }, 0, [])

/-- The `read` of a table, for a buffer that is not NULL. -/
def Fops.read (k : Kernel) (esp fd nbytes : Int) : Fops → Option (Kernel × Int × List UInt8)
  | .stdInTable => terminalRead k false nbytes
  | .rtcTable => some ((rtcRead k).1, (rtcRead k).2, [])
  | .filesysTable => some (fileRead k esp fd nbytes)
  | .filedirTable => some (dirRead k)
  | .stdOutTable | .badTable => some (k, -1, [])

/-- The `write` of a table, for a buffer that is not NULL. -/
def Fops.write (k : Kernel) (buf : Nat → UInt8) (nbytes : Int) (rate : UInt8) : Fops → Kernel × Int
  | .stdOutTable => terminalWrite k (some buf) nbytes
  | .rtcTable => rtcWrite k (some (i32 (load32 buf 0))) rate
  | .stdInTable | .filesysTable | .filedirTable | .badTable => (k, -1)

/-! ## The calls -/

/-- `sys_read`. -/
def sysRead (k : Kernel) (esp fd : Int) (bufNull : Bool) (nbytes : Int) :
    Option (Kernel × Int × List UInt8) :=
  if fd < 0 ∨ fd ≥ fdaSize then some (k, -1, [])
  else if bufNull then some (k, -1, [])
  else if ((k.pcbs (stackOwner esp)).fda fd).flags = notInUse then some (k, -1, [])
  else ((k.pcbs (stackOwner esp)).fda fd).fopsPtr.read k esp fd nbytes

/-- `sys_write`; `rate` is the uninitialised local of `set_rtcFrequency`. -/
def sysWrite (k : Kernel) (esp fd : Int) (buf : Option (Nat → UInt8)) (nbytes : Int) (rate : UInt8) :
    Kernel × Int :=
  if fd < 0 ∨ fd ≥ fdaSize then (k, -1)
  else
    match buf with
    | none => (k, -1)
    | some b =>
      if ((k.pcbs (stackOwner esp)).fda fd).flags = notInUse then (k, -1)
      else ((k.pcbs (stackOwner esp)).fda fd).fopsPtr.write k b nbytes rate

/-- The slot search of `sys_open`; `none` when it runs into `fd_idx == FDA_SIZE - 1`. -/
def freeFd (pcb : Pcb) : Option Int := [2, 3, 4, 5, 6, 7].find? fun fd => (pcb.fda fd).flags = notInUse

/-- The `switch` of `sys_open`; in its missing `default` the table stays uninitialised. -/
def fopsOf (filetype : Nat) : Option Fops :=
  if filetype = 0 then some .rtcTable
  else if filetype = 1 then some .filedirTable
  else if filetype = 2 then some .filesysTable
  else none

/-- `sys_open`. -/
def sysOpen (k : Kernel) (esp : Int) (filename : List UInt8) (rate : UInt8) : Option (Kernel × Int) :=
  match k.fs.readDentryByName filename with
  | none => some (k, -1)
  | some d =>
    match freeFd (k.pcbs (stackOwner esp)) with
    | none => some (k, -1)
    | some fd =>
      (fopsOf d.filetype).map fun fops =>
        let (k, r) := fops.open k filename rate
        if r ≠ 0 then (k, -1)
        else
          (k.modifyPcb (stackOwner esp) fun pcb => pcb.modifyFile fd fun _ =>
            { fopsPtr := fops, inode := d.inodeNum, filePosition := 0, flags := inUse }, fd)

/-- `sys_close`. -/
def sysClose (k : Kernel) (esp fd : Int) : Kernel × Int :=
  if fd < 2 ∨ fd ≥ fdaSize then (k, -1)
  else if ((k.pcbs (stackOwner esp)).fda fd).flags = notInUse then (k, -1)
  else if ((k.pcbs (stackOwner esp)).fda fd).fopsPtr.close ≠ 0 then (k, -1)
  else (k.modifyPcb (stackOwner esp) fun pcb => pcb.modifyFile fd fun f => { f with flags := notInUse }, 0)

/-- A byte store of the kernel to a user address: in the program's 4 MB page, or in the video page after
it. -/
def userStore (k : Kernel) (a : Nat) (c : UInt8) : Kernel :=
  if a < one32Mb then
    { k with
      userMem := Function.update k.userMem
        ((k.pageDirectory 32).offset31_12 * 4096 + (a - one28Mb)) c }
  else
    { k with
      videoMem := Function.update k.videoMem
        ((k.vidmapPageTable 0).offset31_12 * 4096 + (a - one32Mb)) c }

/-- `sys_vidmap`: the pointer stored is `ONE32_MB`, byte by byte. -/
def sysVidmap (k : Kernel) (screenStart : Nat) : Kernel × Int :=
  if screenStart < one28Mb ∨ screenStart ≥ one32Mb then (k, -1)
  else
    let k := mapVidmem k
    let k := userStore k screenStart 0x00
    let k := userStore k (screenStart + 1) 0x00
    let k := userStore k (screenStart + 2) 0x40
    (userStore k (screenStart + 3) 0x08, 0)

/-- `sys_getargs`. -/
def sysGetargs (k : Kernel) (esp : Int) (bufNull : Bool) (nbytes : Int) : Int × List UInt8 :=
  if bufNull then (-1, [])
  else if nbytes ≤ 0 then (-1, [])
  else
    let args := ofList (k.pcbs (stackOwner esp)).args
    if args 0 = 0 then (-1, []) else (0, bytesAt (strncpy args nbytes.toNat) nbytes.toNat)

/-! ## Arguments -/

/-- The argument string of the process that calls. -/
def argString (k : Kernel) (esp : Int) : List UInt8 := cstr (k.pcbs (stackOwner esp)).args

/-- A call of `sys_getargs` answers as it should: `0` exactly if there are arguments and they fit with their NUL, which
the buffer then holds; otherwise `-1`, and the buffer is as it was. -/
structure AnswersArgs (k : Kernel) (esp nbytes : Int) : Prop where
  zero_iff : (sysGetargs k esp false nbytes).1 = 0 ↔
    argString k esp ≠ [] ∧ ((argString k esp).length : Int) + 1 ≤ nbytes
  holds : (sysGetargs k esp false nbytes).1 = 0 → ∀ (m : Nat → UInt8) (buf i : Nat), i ≤ (argString k esp).length →
    storeAll m buf (sysGetargs k esp false nbytes).2 (buf + i) = ofList (argString k esp) i
  fails : (sysGetargs k esp false nbytes).1 ≠ 0 → (sysGetargs k esp false nbytes).1 = -1 ∧
    ∀ (m : Nat → UInt8) (buf : Nat), storeAll m buf (sysGetargs k esp false nbytes).2 = m

theorem sysGetargs_of_refused {k : Kernel} {esp nbytes : Int} (h : argString k esp = [] ∨ nbytes ≤ 0) :
    sysGetargs k esp false nbytes = (-1, []) := by
  unfold sysGetargs
  rw [if_neg (by decide)]
  split_ifs with hn
  · rfl
  · have hargs := (cstr_eq_nil_iff _).mp (h.resolve_right hn)
    exact if_pos hargs

theorem sysGetargs_of_copied {k : Kernel} {esp nbytes : Int} (hargs : argString k esp ≠ []) (hn : 0 < nbytes) :
    sysGetargs k esp false nbytes = (0, bytesAt (ofList ((argString k esp).take nbytes.toNat)) nbytes.toNat) := by
  have h0 : ofList (k.pcbs (stackOwner esp)).args 0 ≠ 0 := fun h => hargs ((cstr_eq_nil_iff _).mpr h)
  unfold sysGetargs
  rw [if_neg (by decide), if_neg (by omega)]
  dsimp only
  rw [if_neg h0, strncpy_ofList]
  rfl

/-- **Arguments.** A call answers as it should exactly if there is nothing to copy or the arguments fit: arguments
that do not fit are cut off, without a NUL, and the call returns `0`. -/
theorem getargs_answers_iff (k : Kernel) (esp nbytes : Int) : AnswersArgs k esp nbytes ↔
    argString k esp = [] ∨ nbytes ≤ 0 ∨ ((argString k esp).length : Int) + 1 ≤ nbytes := by
  by_cases hrefused : argString k esp = [] ∨ nbytes ≤ 0
  · have hcall := sysGetargs_of_refused hrefused
    refine ⟨fun _ => hrefused.imp_right Or.inl, fun _ => ⟨?_, ?_, ?_⟩⟩
    · rw [hcall]
      constructor
      · exact fun h => (nomatch h)
      · rintro ⟨hne, hfits⟩
        have := hrefused.resolve_left hne
        omega
    · rw [hcall]
      exact fun h => (nomatch h)
    · intro _
      rw [hcall]
      refine ⟨rfl, fun m buf => funext fun a => ?_⟩
      rw [storeAll, if_neg (by simp)]
  · obtain ⟨hargs, hn⟩ := not_or.mp hrefused
    have hcall := sysGetargs_of_copied hargs (not_le.mp hn)
    constructor
    · intro h
      have hfits := h.zero_iff.mp (by rw [hcall])
      exact Or.inr (Or.inr hfits.2)
    · intro h
      have hfits := (h.resolve_left hargs).resolve_left hn
      refine ⟨?_, ?_, ?_⟩
      · rw [hcall]
        exact ⟨fun _ => ⟨hargs, hfits⟩, fun _ => rfl⟩
      · intro _ m buf i hi
        have htake : (argString k esp).take nbytes.toNat = argString k esp := List.take_of_length_le (by omega)
        rw [hcall, storeAll, if_pos (by simp [bytesAt]; omega), Nat.add_sub_cancel_left]
        exact (ofList_bytesAt _ (by omega)).trans (by rw [htake])
      · intro hne
        rw [hcall] at hne
        exact absurd rfl hne

/-- Process 0 with the argument `ab`. -/
def withArgs : Kernel :=
  (Kernel.atLoad ⟨fun _ => 0, 0, 0, 0⟩).modifyPcb 0 fun pcb => { pcb with args := [97, 98] }

/-- Two bytes are asked for: the call returns `0`, and stores the argument without its NUL. -/
theorem getargs_cut_off : argString withArgs 0x7FE000 = [97, 98] ∧
    sysGetargs withArgs 0x7FE000 false 2 = (0, [97, 98]) ∧ ¬ AnswersArgs withArgs 0x7FE000 2 := by
  have hargs : argString withArgs 0x7FE000 = [97, 98] := by decide +kernel
  have hcall : sysGetargs withArgs 0x7FE000 false 2 = (0, [97, 98]) := by decide +kernel
  refine ⟨hargs, hcall, ?_⟩
  intro h
  have hfits := h.zero_iff.mp (by rw [hcall])
  rw [hargs] at hfits
  exact absurd hfits.2 (by decide)

end BasicOs
