import BasicOs.Lib.Run
import BasicOs.Syscall

/-!
# The descriptor table of a process

What the table means is kept beside the kernel: `Table` says for each descriptor which directory entry
it was opened on. `Represents pcb tbl` relates it to the array in the process control block, and every
`sys_open`, `sys_close`, `sys_read` and `sys_write` of the process keeps the relation.

* `sysOpen_cases`, `sysClose_cases` : everything the two calls can do;
* `OpenSpec`, `CloseSpec` : when they succeed and what they change;
* `descriptors_correct` : relation and specifications in every state the process can get to.
-/

namespace BasicOs
open Run FileSystem

/-! ## What the calls do -/

/-- Entries that agree up to the position in the file. -/
def SameEntry (f f' : Files) : Prop := f'.fopsPtr = f.fopsPtr ∧ f'.inode = f.inode ∧ f'.flags = f.flags

/-- Every process keeps its descriptors, up to positions in files, and the file system is the same. -/
def KeepsEntries (k k' : Kernel) : Prop :=
  k'.fs = k.fs ∧ ∀ pid fd, SameEntry ((k.pcbs pid).fda fd) ((k'.pcbs pid).fda fd)

/-- No control block differs, and the file system is the same. -/
def SameFiles (k k' : Kernel) : Prop := k'.fs = k.fs ∧ k'.pcbs = k.pcbs

theorem SameFiles.keepsEntries {k k' : Kernel} (h : SameFiles k k') : KeepsEntries k k' :=
  ⟨h.1, fun pid fd => by rw [h.2]; exact ⟨rfl, rfl, rfl⟩⟩

theorem ScreenOnly.sameFiles {k k' : Kernel} (h : ScreenOnly k k') : SameFiles k k' := by
  obtain ⟨tty, rfl, -⟩ := h
  exact ⟨rfl, rfl⟩

theorem DevicesOnly.sameFiles {k k' : Kernel} (h : DevicesOnly k k') : SameFiles k k' := by
  obtain ⟨d, rfl⟩ := h
  exact ⟨rfl, rfl⟩

theorem modifyFile_fda (pcb : Pcb) (fd i : Int) (f : Files → Files) :
    (pcb.modifyFile fd f).fda i = if i = fd then f (pcb.fda fd) else pcb.fda i := by
  simp only [Pcb.modifyFile, Function.update_apply]

/-- A read of a regular file changes the position of its own descriptor at most. -/
theorem fileRead_frame (k : Kernel) (esp fd nbytes : Int) :
    (fileRead k esp fd nbytes).1 = k ∨ ∃ pos, (fileRead k esp fd nbytes).1 =
      k.modifyPcb (stackOwner esp) fun pcb => pcb.modifyFile fd fun f => { f with filePosition := pos } := by
  unfold fileRead
  dsimp only
  split_ifs
  · exact Or.inl rfl
  · exact Or.inr ⟨Bytes.u32 (((k.pcbs (stackOwner esp)).fda fd).filePosition + _), rfl⟩

theorem fileRead_keepsEntries (k : Kernel) (esp fd nbytes : Int) :
    KeepsEntries k (fileRead k esp fd nbytes).1 := by
  rcases fileRead_frame k esp fd nbytes with h | ⟨pos, h⟩
  · rw [h]
    exact SameFiles.keepsEntries ⟨rfl, rfl⟩
  · rw [h]
    refine ⟨rfl, fun pid i => ?_⟩
    by_cases hp : pid = stackOwner esp
    · subst hp
      rw [Kernel.modifyPcb_pcbs_self, modifyFile_fda]
      split_ifs with hi
      · subst hi
        exact ⟨rfl, rfl, rfl⟩
      · exact ⟨rfl, rfl, rfl⟩
    · rw [Kernel.modifyPcb_pcbs_of_ne _ _ hp]
      exact ⟨rfl, rfl, rfl⟩

theorem terminalRead_sameFiles {k k' : Kernel} {bufNull : Bool} {nbytes v : Int} {bytes : List UInt8}
    (h : terminalRead k bufNull nbytes = some (k', v, bytes)) : SameFiles k k' := by
  unfold terminalRead at h
  dsimp only at h
  split_ifs at h <;> (cases h; exact ⟨rfl, rfl⟩)

/-- All that a read can do to files: nothing, or what `file_read` does. -/
theorem sysRead_cases {k k' : Kernel} {esp fd : Int} {bufNull : Bool} {nbytes v : Int} {bytes : List UInt8}
    (h : sysRead k esp fd bufNull nbytes = some (k', v, bytes)) :
    SameFiles k k' ∨ fileRead k esp fd nbytes = (k', v, bytes) := by
  have hk : SameFiles k k := ⟨rfl, rfl⟩
  unfold sysRead at h
  split_ifs at h
  · cases h; exact Or.inl hk
  · cases h; exact Or.inl hk
  · cases h; exact Or.inl hk
  · cases hf : ((k.pcbs (stackOwner esp)).fda fd).fopsPtr <;> rw [hf] at h <;> simp only [Fops.read] at h
    case stdInTable => exact Or.inl (terminalRead_sameFiles h)
    case stdOutTable => cases h; exact Or.inl hk
    case rtcTable => cases h; exact Or.inl (rtcRead_devicesOnly k).sameFiles
    case filesysTable => exact Or.inr (Option.some_inj.mp h)
    case filedirTable =>
      unfold dirRead at h
      split at h <;> (cases h; exact Or.inl ⟨rfl, rfl⟩)
    case badTable => cases h; exact Or.inl hk

theorem sysRead_keepsEntries {k k' : Kernel} {esp fd : Int} {bufNull : Bool} {nbytes v : Int}
    {bytes : List UInt8} (h : sysRead k esp fd bufNull nbytes = some (k', v, bytes)) : KeepsEntries k k' := by
  rcases sysRead_cases h with hk | hf
  · exact hk.keepsEntries
  · have := fileRead_keepsEntries k esp fd nbytes
    rwa [hf] at this

theorem sysWrite_sameFiles (k : Kernel) (esp fd : Int) (buf : Option (Nat → UInt8)) (nbytes : Int)
    (rate : UInt8) : SameFiles k (sysWrite k esp fd buf nbytes rate).1 := by
  have hk : SameFiles k k := ⟨rfl, rfl⟩
  unfold sysWrite
  cases buf with
  | none => dsimp only; split_ifs <;> exact hk
  | some b =>
    dsimp only
    split_ifs
    · exact hk
    · exact hk
    · cases ((k.pcbs (stackOwner esp)).fda fd).fopsPtr with
      | stdOutTable =>
        rw [Fops.write]
        exact (terminalWrite_screenOnly k (some b) nbytes).sameFiles
      | rtcTable =>
        rw [Fops.write]
        exact (rtcWrite_devicesOnly k _ rate).sameFiles
      | stdInTable | filesysTable | filedirTable | badTable => exact hk

theorem mem_fds {i : Int} : i ∈ [2, 3, 4, 5, 6, 7] ↔ 2 ≤ i ∧ i ≤ 7 := by
  simp only [List.mem_cons, List.not_mem_nil, or_false]
  omega

theorem freeFd_eq_none {pcb : Pcb} (h : freeFd pcb = none) {i : Int} (h2 : 2 ≤ i) (h7 : i ≤ 7) :
    (pcb.fda i).flags ≠ notInUse := by
  simpa using List.find?_eq_none.mp h i (mem_fds.mpr ⟨h2, h7⟩)

theorem freeFd_eq_some {pcb : Pcb} {fd : Int} (h : freeFd pcb = some fd) :
    (2 ≤ fd ∧ fd ≤ 7) ∧ (pcb.fda fd).flags = notInUse ∧
      ∀ i, 2 ≤ i → i < fd → (pcb.fda i).flags ≠ notInUse := by
  have hmem := mem_fds.mp (List.mem_of_find?_eq_some h)
  obtain ⟨hfree, before, after, hlist, hbefore⟩ := List.find?_eq_some_iff_append.mp h
  have hsorted : List.Pairwise (· < ·) ([2, 3, 4, 5, 6, 7] : List Int) := by decide
  refine ⟨hmem, by simpa using hfree, fun i h2 hlt => ?_⟩
  have hi : i ∈ before ++ fd :: after := hlist ▸ mem_fds.mpr ⟨h2, by omega⟩
  rw [hlist] at hsorted
  rcases List.mem_append.mp hi with hi | hi
  · simpa using hbefore i hi
  · rcases List.mem_cons.mp hi with rfl | hi
    · exact absurd hlt (lt_irrefl _)
    · have := List.rel_of_pairwise_cons (List.pairwise_append.mp hsorted).2.1 hi
      omega

/-- The entry `sys_open` stores. -/
def openedFile (fops : Fops) (d : Dentry) : Files where
  fopsPtr := fops
  inode := d.inodeNum
  filePosition := 0
  flags := inUse

/-- Every entry of the directory is a clock, a directory or a regular file. -/
def KnownTypes (fs : FileSystem) : Prop := ∀ d ∈ fs.slots, effectiveName d ≠ [] → d.filetype ≤ 2

instance (fs : FileSystem) : Decidable (KnownTypes fs) :=
  inferInstanceAs (Decidable (∀ d ∈ fs.slots, effectiveName d ≠ [] → d.filetype ≤ 2))

theorem fopsOf_of_le {filetype : Nat} (h : filetype ≤ 2) : ∃ fops, fopsOf filetype = some fops := by
  unfold fopsOf
  split_ifs
  · exact ⟨_, rfl⟩
  · exact ⟨_, rfl⟩
  · exact ⟨_, rfl⟩
  · omega

/-- The type's own `open` succeeds after the first scan did, and touches no process. -/
theorem open_succeeds {k : Kernel} {name : List UInt8} {d : Dentry} (h : k.fs.lookup name = some d)
    (rate : UInt8) {fops : Fops} (hf : fopsOf d.filetype = some fops) :
    ∃ k', fops.open k name rate = (k', 0) ∧ k'.pcbs = k.pcbs ∧ k'.fs = k.fs := by
  unfold fopsOf at hf
  split_ifs at hf
  · cases hf
    obtain ⟨dev, hdev⟩ := setRtcFrequency_devicesOnly k 2 rate
    refine ⟨(setRtcFrequency k 2 rate).1, rfl, ?_, ?_⟩ <;> rw [hdev]
  · cases hf
    exact ⟨k, rfl, rfl, rfl⟩
  · cases hf
    simp only [Fops.open, fileOpen_of_lookup h]
    exact ⟨_, rfl, rfl, rfl⟩

theorem KnownTypes.lookup_le {fs : FileSystem} (hdir : KnownTypes fs) (name : List UInt8) {d : Dentry}
    (hd : fs.lookup name = some d) : d.filetype ≤ 2 := by
  obtain ⟨hmem, hname, hne⟩ := lookup_eq_some hd
  exact hdir d hmem (hname ▸ hne)

/-- All `sys_open` can do for a name whose entry, if there is one, has a known type. -/
theorem sysOpen_cases {k : Kernel} (esp : Int) {name : List UInt8} (rate : UInt8)
    (htype : ∀ d, k.fs.lookup name = some d → d.filetype ≤ 2) :
    ((k.fs.lookup name = none ∨ freeFd (k.pcbs (stackOwner esp)) = none) ∧
      sysOpen k esp name rate = some (k, -1)) ∨
    ∃ (d : Dentry) (fd : Int) (fops : Fops) (k' : Kernel), k.fs.lookup name = some d ∧
      freeFd (k.pcbs (stackOwner esp)) = some fd ∧ fopsOf d.filetype = some fops ∧ k'.pcbs = k.pcbs ∧ k'.fs = k.fs ∧
      sysOpen k esp name rate =
        some (k'.modifyPcb (stackOwner esp) fun pcb => pcb.modifyFile fd fun _ => openedFile fops d, fd) := by
  unfold sysOpen
  rw [readDentryByName_eq]
  cases hd : k.fs.lookup name with
  | none => exact Or.inl ⟨Or.inl rfl, rfl⟩
  | some d =>
    cases hfd : freeFd (k.pcbs (stackOwner esp)) with
    | none => exact Or.inl ⟨Or.inr rfl, rfl⟩
    | some fd =>
      obtain ⟨fops, hfops⟩ := fopsOf_of_le (htype d hd)
      obtain ⟨k', hopen, hpcbs, hfs⟩ := open_succeeds hd rate hfops
      refine Or.inr ⟨d, fd, fops, k', rfl, rfl, hfops, hpcbs, hfs, ?_⟩
      simp only [hfops, Option.map_some, hopen]
      rfl

/-- All `sys_close` can do when the entry's table, if it is in use, has a `close`. -/
theorem sysClose_cases (k : Kernel) (esp fd : Int)
    (hclose : 2 ≤ fd → fd ≤ 7 → ((k.pcbs (stackOwner esp)).fda fd).flags ≠ notInUse →
      ((k.pcbs (stackOwner esp)).fda fd).fopsPtr.close = 0) :
    (¬ (2 ≤ fd ∧ fd ≤ 7 ∧ ((k.pcbs (stackOwner esp)).fda fd).flags ≠ notInUse) ∧
      sysClose k esp fd = (k, -1)) ∨
    ((2 ≤ fd ∧ fd ≤ 7 ∧ ((k.pcbs (stackOwner esp)).fda fd).flags ≠ notInUse) ∧
      sysClose k esp fd = (k.modifyPcb (stackOwner esp) fun pcb =>
        pcb.modifyFile fd fun f => { f with flags := notInUse }, 0)) := by
  unfold sysClose
  by_cases hr : fd < 2 ∨ fd ≥ fdaSize
  · refine Or.inl ⟨?_, if_pos hr⟩
    rintro ⟨h2, h7, -⟩
    simp only [fdaSize] at hr
    omega
  · rw [if_neg hr]
    by_cases hu : ((k.pcbs (stackOwner esp)).fda fd).flags = notInUse
    · exact Or.inl ⟨fun h => h.2.2 hu, if_pos hu⟩
    · simp only [fdaSize, not_or, not_lt, not_le] at hr
      have h7 : fd ≤ 7 := by omega
      rw [if_neg hu, hclose hr.1 h7 hu]
      exact Or.inr ⟨⟨hr.1, h7, hu⟩, rfl⟩

/-! ## What the table means -/

/-- Which directory entry each descriptor is open on. -/
abbrev Table := Int → Option Dentry

/-- The array's entry for a descriptor that is free, or open on `d`. -/
def EntryFor (f : Files) : Option Dentry → Prop
  | none => f.flags = notInUse
  | some d => f.flags = inUse ∧ fopsOf d.filetype = some f.fopsPtr ∧ f.inode = d.inodeNum

/-- The array of a process control block represents the table. -/
structure Represents (pcb : Pcb) (tbl : Table) : Prop where
  stdin : (pcb.fda 0).flags = inUse ∧ (pcb.fda 0).fopsPtr = .stdInTable
  stdout : (pcb.fda 1).flags = inUse ∧ (pcb.fda 1).fopsPtr = .stdOutTable
  entry : ∀ i, 2 ≤ i → i ≤ 7 → EntryFor (pcb.fda i) (tbl i)

variable {pcb pcb' : Pcb} {tbl : Table}

theorem EntryFor.same {f f' : Files} {o : Option Dentry} (h : EntryFor f o) (hs : SameEntry f f') :
    EntryFor f' o := by
  obtain ⟨h1, h2, h3⟩ := hs
  cases o with
  | none => exact h3.trans h
  | some d => exact ⟨h3.trans h.1, by rw [h1]; exact h.2.1, h2.trans h.2.2⟩

theorem Represents.same (h : Represents pcb tbl) (hs : ∀ i, SameEntry (pcb.fda i) (pcb'.fda i)) :
    Represents pcb' tbl where
  stdin := ⟨(hs 0).2.2.trans h.stdin.1, (hs 0).1.trans h.stdin.2⟩
  stdout := ⟨(hs 1).2.2.trans h.stdout.1, (hs 1).1.trans h.stdout.2⟩
  entry i h2 h7 := (h.entry i h2 h7).same (hs i)

/-- One entry of the array and of the table changes. -/
theorem Represents.modifyFile (h : Represents pcb tbl) {fd : Int} (h2 : 2 ≤ fd) (f : Files → Files)
    {o : Option Dentry} (ho : EntryFor (f (pcb.fda fd)) o) :
    Represents (pcb.modifyFile fd f) (Function.update tbl fd o) where
  stdin := by
    rw [modifyFile_fda, if_neg (by omega)]
    exact h.stdin
  stdout := by
    rw [modifyFile_fda, if_neg (by omega)]
    exact h.stdout
  entry i hi2 hi7 := by
    rw [modifyFile_fda, Function.update_apply]
    split_ifs with hi
    · exact ho
    · exact h.entry i hi2 hi7

theorem Represents.flags_ne (h : Represents pcb tbl) {i : Int} (h2 : 2 ≤ i) (h7 : i ≤ 7) :
    (pcb.fda i).flags ≠ notInUse ↔ (pcb.fda i).flags = inUse := by
  have he := h.entry i h2 h7
  cases ho : tbl i with
  | none =>
    rw [ho] at he
    rw [show (pcb.fda i).flags = notInUse from he]
    decide
  | some d =>
    rw [ho] at he
    rw [he.1]
    decide

theorem Represents.flags_zero_or_one (h : Represents pcb tbl) {i : Int} (h0 : 0 ≤ i) (h7 : i ≤ 7) :
    (pcb.fda i).flags = notInUse ∨ (pcb.fda i).flags = inUse := by
  obtain rfl | rfl | h2 : i = 0 ∨ i = 1 ∨ 2 ≤ i := by omega
  · exact Or.inr h.stdin.1
  · exact Or.inr h.stdout.1
  · exact Classical.or_iff_not_imp_left.mpr (h.flags_ne h2 h7).mp

theorem Represents.close_eq_zero (h : Represents pcb tbl) {i : Int} (h2 : 2 ≤ i) (h7 : i ≤ 7)
    (hu : (pcb.fda i).flags ≠ notInUse) : (pcb.fda i).fopsPtr.close = 0 := by
  have he := h.entry i h2 h7
  cases ho : tbl i with
  | none => exact absurd (ho ▸ he : EntryFor _ none) hu
  | some d =>
    rw [ho] at he
    have hf := he.2.1
    unfold fopsOf at hf
    split_ifs at hf <;> rw [← Option.some_inj.mp hf] <;> rfl

theorem initPcb_represents (k : Kernel) (pid : Int) (args : List UInt8) :
    Represents ((initPcb k pid args).pcbs pid) fun _ => none := by
  unfold initPcb
  rw [Kernel.modifyPcb_pcbs_self]
  refine ⟨⟨rfl, rfl⟩, ⟨rfl, rfl⟩, fun i h2 h7 => ?_⟩
  show (initFile i _).flags = notInUse
  unfold initFile
  rw [if_neg (by omega), if_neg (by omega), if_pos (by simp only [fdaSize]; omega)]

/-! ## Runs -/

/-- A call of the process, on its stack at `esp`, or anything else that happens in between. -/
inductive DescriptorEvent
  | open (esp : Int) (filename : List UInt8) (rate : UInt8)
  | close (esp fd : Int)
  | read (esp fd : Int) (bufNull : Bool) (nbytes : Int)
  | write (esp fd : Int) (buf : Option (Nat → UInt8)) (nbytes : Int) (rate : UInt8)
  | other (k' : Kernel)

def descriptorStep (k : Kernel) : DescriptorEvent → Option Kernel
  | .open esp filename rate => (sysOpen k esp filename rate).map (·.1)
  | .close esp fd => some (sysClose k esp fd).1
  | .read esp fd bufNull nbytes => (sysRead k esp fd bufNull nbytes).map (·.1)
  | .write esp fd buf nbytes rate => some (sysWrite k esp fd buf nbytes rate).1
  | .other k' => some k'

/-- The calls are the process's own; what happens in between leaves its control block and the file system
alone. -/
def OwnCall (pid : Int) (k : Kernel) : DescriptorEvent → Prop
  | .open esp _ _ | .close esp _ | .read esp _ _ _ | .write esp _ _ _ _ => stackOwner esp = pid
  | .other k' => k'.pcbs pid = k.pcbs pid ∧ k'.fs = k.fs

/-- The table after an event: a successful open enters what its name stands for, a successful close
removes it. -/
def tableAfter (tbl : Table) (k : Kernel) (e : DescriptorEvent) (_ : Kernel) : Table :=
  match e with
  | .open esp filename rate =>
    match sysOpen k esp filename rate with
    | some (_, fd) => if fd = -1 then tbl else Function.update tbl fd (k.fs.lookup filename)
    | none => tbl
  | .close esp fd => if (sysClose k esp fd).2 = 0 then Function.update tbl fd none else tbl
  | _ => tbl

/-- The table is represented and the file system is the one of the start. -/
def DescriptorInv (fs : FileSystem) (pid : Int) (p : Kernel × Table) : Prop :=
  p.1.fs = fs ∧ Represents (p.1.pcbs pid) p.2

section Calls
variable {k k' : Kernel} {tbl : Table} {esp : Int} (hrep : Represents (k.pcbs (stackOwner esp)) tbl)
include hrep

/-- An open enters what its name stands for, in a descriptor that was free. -/
theorem open_inv (hdir : KnownTypes k.fs) {filename : List UInt8} {rate : UInt8}
    (hstep : descriptorStep k (.open esp filename rate) = some k') :
    DescriptorInv k.fs (stackOwner esp) (k', tableAfter tbl k (.open esp filename rate) k') := by
  simp only [descriptorStep, tableAfter] at hstep ⊢
  rcases sysOpen_cases esp rate fun _ => hdir.lookup_le filename with
    ⟨-, ho⟩ | ⟨d, fd, fops, k₁, hd, hfd, hfops, hp, hf, ho⟩
  · rw [ho] at hstep ⊢
    cases hstep
    exact ⟨rfl, hrep⟩
  · obtain ⟨⟨h2, -⟩, -, -⟩ := freeFd_eq_some hfd
    rw [ho] at hstep ⊢
    cases hstep
    refine ⟨hf, ?_⟩
    dsimp only
    rw [if_neg (by omega), hd, Kernel.modifyPcb_pcbs_self, hp]
    exact hrep.modifyFile h2 _ ⟨rfl, hfops, rfl⟩

/-- A close removes its descriptor. -/
theorem close_inv {fd : Int} (hstep : descriptorStep k (.close esp fd) = some k') :
    DescriptorInv k.fs (stackOwner esp) (k', tableAfter tbl k (.close esp fd) k') := by
  simp only [descriptorStep, tableAfter, Option.some_inj] at hstep ⊢
  rcases sysClose_cases k esp fd fun h2 h7 hu => hrep.close_eq_zero h2 h7 hu with ⟨-, hc⟩ | ⟨⟨h2, -, -⟩, hc⟩
  · rw [hc] at hstep ⊢
    cases hstep
    exact ⟨rfl, hrep⟩
  · rw [hc] at hstep ⊢
    cases hstep
    refine ⟨rfl, ?_⟩
    dsimp only
    rw [if_pos rfl, Kernel.modifyPcb_pcbs_self]
    exact hrep.modifyFile h2 _ rfl

end Calls

theorem descriptorStep_inv {fs : FileSystem} (hdir : KnownTypes fs) {pid : Int} {p q : Kernel × Table}
    {e : DescriptorEvent} (hinv : DescriptorInv fs pid p) (hown : OwnCall pid p.1 e)
    (hstep : observed descriptorStep tableAfter p e = some q) : DescriptorInv fs pid q := by
  obtain ⟨k, tbl⟩ := p
  obtain ⟨k', tbl'⟩ := q
  obtain ⟨hs, ht⟩ := observed_eq_some.mp hstep
  obtain ⟨rfl, hrep⟩ := hinv
  dsimp only at hs ht hrep hown hdir
  rw [ht]
  cases e with
  | «open» esp filename rate =>
    cases hown
    exact open_inv hrep hdir hs
  | close esp fd =>
    cases hown
    exact close_inv hrep hs
  | read esp fd bufNull nbytes =>
    obtain ⟨⟨k₁, v, bytes⟩, hr, rfl⟩ := Option.map_eq_some_iff.mp hs
    have hkeep := sysRead_keepsEntries hr
    exact ⟨hkeep.1, hrep.same (hkeep.2 pid)⟩
  | write esp fd buf nbytes rate =>
    have hkeep := (sysWrite_sameFiles k esp fd buf nbytes rate).keepsEntries
    rw [Option.some_inj.mp hs] at hkeep
    exact ⟨hkeep.1, hrep.same (hkeep.2 pid)⟩
  | other k₁ =>
    cases hs
    refine ⟨hown.2, ?_⟩
    dsimp only
    rw [hown.1]
    exact hrep

/-! ## Specifications -/

/-- A name is in the directory: it is not empty and some slot has it. -/
def InDirectory (fs : FileSystem) (name : List UInt8) : Prop :=
  fs.theBootBlock ≠ 0 ∧ Bytes.cstr name ≠ [] ∧ ∃ d ∈ fs.slots, effectiveName d = Bytes.cstr name

theorem lookup_eq_none_iff (fs : FileSystem) (name : List UInt8) :
    fs.lookup name = none ↔ ¬ InDirectory fs name := by
  unfold lookup InDirectory
  split_ifs with h
  · simp only [true_iff]
    rintro ⟨h1, h2, -⟩
    exact h.elim h1 h2
  · simp only [List.find?_eq_none, decide_eq_true_eq]
    push Not at h ⊢
    exact ⟨fun hn _ _ => hn, fun hn => hn h.1 h.2⟩

/-- What a call of `sys_open` by `pid` does: it fails exactly for a name that is not in the directory or a
full table, and then changes no descriptor; else it takes the least free one. -/
def OpenSpec (k : Kernel) (pid : Int) : Prop :=
  ∀ (esp : Int) (name : List UInt8) (rate : UInt8), stackOwner esp = pid →
    ∃ k' v, sysOpen k esp name rate = some (k', v) ∧
      (v = -1 ↔ ¬ InDirectory k.fs name ∨
        ∀ i, 2 ≤ i → i ≤ 7 → ((k.pcbs pid).fda i).flags = inUse) ∧
      (v = -1 → (k'.pcbs pid).fda = (k.pcbs pid).fda) ∧
      (v ≠ -1 → (2 ≤ v ∧ v ≤ 7) ∧ ((k.pcbs pid).fda v).flags = notInUse ∧
        (∀ i, 2 ≤ i → i < v → ((k.pcbs pid).fda i).flags = inUse) ∧
        ((k'.pcbs pid).fda v).flags = inUse ∧ ((k'.pcbs pid).fda v).filePosition = 0 ∧
        ∀ i, i ≠ v → (k'.pcbs pid).fda i = (k.pcbs pid).fda i)

/-- What a call of `sys_close` by `pid` does: it frees exactly the descriptors 2 to 7 that are in use, one
at a time, and fails without a change otherwise. -/
def CloseSpec (k : Kernel) (pid : Int) : Prop :=
  ∀ esp fd : Int, stackOwner esp = pid →
    ((sysClose k esp fd).2 = 0 ↔ (2 ≤ fd ∧ fd ≤ 7) ∧ ((k.pcbs pid).fda fd).flags = inUse) ∧
    ((sysClose k esp fd).2 = 0 →
      (((sysClose k esp fd).1.pcbs pid).fda fd).flags = notInUse ∧
      ∀ i, i ≠ fd → ((sysClose k esp fd).1.pcbs pid).fda i = (k.pcbs pid).fda i) ∧
    ((sysClose k esp fd).2 ≠ 0 → (sysClose k esp fd).1 = k)

variable {k : Kernel} {pid : Int}

theorem Represents.openSpec (hrep : Represents (k.pcbs pid) tbl) (hdir : KnownTypes k.fs) : OpenSpec k pid := by
  rintro esp name rate rfl
  have hfull : freeFd (k.pcbs (stackOwner esp)) = none ↔
      ∀ i, 2 ≤ i → i ≤ 7 → ((k.pcbs (stackOwner esp)).fda i).flags = inUse := by
    constructor
    · intro h i h2 h7
      exact (hrep.flags_ne h2 h7).mp (freeFd_eq_none h h2 h7)
    · intro h
      cases hfd : freeFd (k.pcbs (stackOwner esp)) with
      | none => rfl
      | some fd =>
        obtain ⟨⟨h2, h7⟩, hfree, -⟩ := freeFd_eq_some hfd
        exact absurd hfree ((hrep.flags_ne h2 h7).mpr (h fd h2 h7))
  rw [← hfull, ← lookup_eq_none_iff]
  rcases sysOpen_cases esp rate fun _ => hdir.lookup_le name with
    ⟨hfail, ho⟩ | ⟨d, fd, fops, k₁, hd, hfd, hfops, hp, hf, ho⟩
  · exact ⟨k, -1, ho, ⟨fun _ => hfail, fun _ => rfl⟩, fun _ => rfl, fun h => absurd rfl h⟩
  · obtain ⟨⟨h2, h7⟩, hfree, hleast⟩ := freeFd_eq_some hfd
    have hne : fd ≠ -1 := by omega
    refine ⟨_, fd, ho, ?_, fun h => absurd h hne,
      fun _ => ⟨⟨h2, h7⟩, hfree, fun i hi hlt => ?_, ?_, ?_, fun i hi => ?_⟩⟩
    · rw [hd, hfd]
      simp [hne]
    · exact (hrep.flags_ne hi (by omega)).mp (hleast i hi hlt)
    · rw [Kernel.modifyPcb_pcbs_self, modifyFile_fda, if_pos rfl]
      rfl
    · rw [Kernel.modifyPcb_pcbs_self, modifyFile_fda, if_pos rfl]
      rfl
    · rw [Kernel.modifyPcb_pcbs_self, modifyFile_fda, if_neg hi, hp]

theorem Represents.closeSpec (hrep : Represents (k.pcbs pid) tbl) : CloseSpec k pid := by
  rintro esp fd rfl
  rcases sysClose_cases k esp fd fun h2 h7 hu => hrep.close_eq_zero h2 h7 hu with
    ⟨hno, hc⟩ | ⟨⟨h2, h7, hu⟩, hc⟩
  · rw [hc]
    have hne : (-1 : Int) ≠ 0 := by decide
    refine ⟨⟨fun h => absurd h hne, fun h => absurd ?_ hno⟩, fun h => absurd h hne, fun _ => rfl⟩
    exact ⟨h.1.1, h.1.2, (hrep.flags_ne h.1.1 h.1.2).mpr h.2⟩
  · rw [hc]
    refine ⟨⟨fun _ => ⟨⟨h2, h7⟩, (hrep.flags_ne h2 h7).mp hu⟩, fun _ => rfl⟩, fun _ => ⟨?_, fun i hi => ?_⟩,
      fun h => absurd rfl h⟩
    · rw [Kernel.modifyPcb_pcbs_self, modifyFile_fda, if_pos rfl]
    · rw [Kernel.modifyPcb_pcbs_self, modifyFile_fda, if_neg hi]

/-- **The descriptor table.** In every state that a process created by `init_pcb` reaches by its calls, in
any order and with anything in between, the array represents what was opened and not closed since, and
`sys_open` and `sys_close` meet their specifications. -/
theorem descriptors_correct (k₀ : Kernel) (pid : Int) (args : List UInt8) (hdir : KnownTypes k₀.fs)
    {p : Kernel × Table}
    (h : Reach (observed descriptorStep tableAfter) (fun p e => OwnCall pid p.1 e)
      (initPcb k₀ pid args, fun _ => none) p) :
    Represents (p.1.pcbs pid) p.2 ∧
      (∀ i, 0 ≤ i → i ≤ 7 →
        ((p.1.pcbs pid).fda i).flags = notInUse ∨ ((p.1.pcbs pid).fda i).flags = inUse) ∧
      OpenSpec p.1 pid ∧ CloseSpec p.1 pid := by
  have hinv : DescriptorInv k₀.fs pid p :=
    h.invariant ⟨rfl, initPcb_represents k₀ pid args⟩ fun _ _ _ => descriptorStep_inv hdir
  obtain ⟨hfs, hrep⟩ := hinv
  exact ⟨hrep, fun i h0 h7 => hrep.flags_zero_or_one h0 h7, hrep.openSpec (hfs ▸ hdir), hrep.closeSpec⟩

/-- A process of the small image opens `shell`. -/
theorem descriptors_correct_shell :
    ∃ p : Kernel × Table, ((p.1.pcbs 3).fda 2).flags = inUse ∧ Represents (p.1.pcbs 3) p.2 := by
  refine ⟨_, ?_, (descriptors_correct (Kernel.atLoad shellImage) 3 [] (by decide +kernel)
    (.tail (.open (kernelStackBase 3 - 64) shellName 0) (.refl _)
      (show stackOwner (kernelStackBase 3 - 64) = 3 by decide) rfl)).1⟩
  decide +kernel

end BasicOs
