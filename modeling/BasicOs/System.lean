import BasicOs.AddressSpace
import BasicOs.Exceptions
import BasicOs.Running

/-!
# The whole system

Everything that happens after boot: the events of `Machine`, the clock, exceptions, the system calls on
descriptors with what they store into the caller's buffers, and the stores of the programs themselves.

* `userLoad`, `userWrite` : memory as a program sees it, through the page tables;
* `Action`, `act` : the actions and the transition function;
* `SystemInv` : the invariant of `Running`, and that the tables map the running process's frame;
* `BuffersInPage` : calls are given buffers in the caller's page;
* `access_confined` : in every run in which they are, a program reaches its own frame and the video memory only.
-/

namespace BasicOs
open Run

/-! ## Memory as a program sees it -/

/-- The byte at a physical address: below 8 MB that of the video memory, above it that of the user pages. -/
def physByte (k : Kernel) (pa : Nat) : UInt8 := if pa < 0x800000 then k.videoMem pa else k.userMem pa

/-- A store there. -/
def storePhys (k : Kernel) (pa : Nat) (c : UInt8) : Kernel :=
  if pa < 0x800000 then { k with videoMem := Function.update k.videoMem pa c }
  else { k with userMem := Function.update k.userMem pa c }

/-- A load by the running program; `none` for a page fault. -/
def userLoad (k : Kernel) (va : Nat) : Option UInt8 := (userTranslate k va).map (physByte k)

/-- A store by the running program. -/
def userWrite (k : Kernel) (va : Nat) (c : UInt8) : Option Kernel :=
  (userTranslate k va).map fun pa => storePhys k pa c

/-- The bytes a system call stores into the caller's buffer, which lies in the caller's page (`BuffersInPage`). -/
def copyOut (k : Kernel) (buf : Nat) (bytes : List UInt8) : Kernel :=
  bytes.zipIdx.foldl (fun k p => userStore k (buf + p.2) p.1) k

/-! ## Actions -/

inductive Action
  | event (e : Event)
  | rtc
  | exception (vec esp cr2 : Nat) (r : Regs) (stale : Nat → UInt8)
  | store (va : UInt32) (c : UInt8)
  | open (esp : Int) (filename : List UInt8) (rate : UInt8)
  | close (esp fd : Int)
  | read (esp fd : Int) (buf : Nat) (nbytes : Int)
  | write (esp fd : Int) (buf : Option (Nat → UInt8)) (nbytes : Int) (rate : UInt8)
  | getargs (esp : Int) (buf : Nat) (nbytes : Int)

/-- One action; `none` when the kernel does not come back from it, or a store faults. -/
def act (k : Kernel) : Action → Option Kernel
  | .event e => step k e
  | .rtc => some (rtcHandler k)
  | .exception vec esp cr2 r stale =>
    let (k, halts) := handleException k vec esp cr2
    if halts then sysHalt k 255 r stale else none
  | .store va c => userWrite k va.toNat c
  | .open esp filename rate => (sysOpen k esp filename rate).map Prod.fst
  | .close esp fd => some (sysClose k esp fd).1
  | .read esp fd buf nbytes => (sysRead k esp fd false nbytes).map fun p => copyOut p.1 buf p.2.2
  | .write esp fd buf nbytes rate => some (sysWrite k esp fd buf nbytes rate).1
  | .getargs esp buf nbytes => some (copyOut k buf (sysGetargs k esp false nbytes).2)

/-- The bytes lie in the caller's page. -/
def InPage (buf : Nat) (bytes : List UInt8) : Prop := one28Mb ≤ buf ∧ buf + bytes.length ≤ one32Mb

/-- Calls are given buffers in the caller's page. The kernel does not check that: it stores into any buffer, its own
variables included. -/
def BuffersInPage (k : Kernel) : Action → Prop
  | .read esp fd buf nbytes => ∀ p, sysRead k esp fd false nbytes = some p → InPage buf p.2.2
  | .getargs esp buf nbytes => InPage buf (sysGetargs k esp false nbytes).2
  | _ => True

/-! ## What the actions of programs change -/

variable {k k' : Kernel}

/-- Neither the processes nor the tables have changed. -/
structure SameTables (k k' : Kernel) : Prop where
  running : SameRunning k k'
  pageDirectory : k'.pageDirectory = k.pageDirectory
  pageTable : k'.pageTable = k.pageTable
  vidmapPageTable : k'.vidmapPageTable = k.vidmapPageTable
  pageTableAddr : k'.pageTableAddr = k.pageTableAddr
  vidmapPageTableAddr : k'.vidmapPageTableAddr = k.vidmapPageTableAddr

theorem SameFamily.refl (a : Pcb) : SameFamily a a := ⟨rfl, rfl, rfl⟩

theorem SameRunning.refl (k : Kernel) : SameRunning k k := ⟨rfl, rfl, rfl, rfl, rfl, rfl, fun _ => SameFamily.refl _⟩

theorem SameRunning.trans {k₁ k₂ k₃ : Kernel} (h₁ : SameRunning k₁ k₂) (h₂ : SameRunning k₂ k₃) :
    SameRunning k₁ k₃ where
  fs := h₂.fs.trans h₁.fs
  pidArray := h₂.pidArray.trans h₁.pidArray
  currPid := h₂.currPid.trans h₁.currPid
  schedulingArray := h₂.schedulingArray.trans h₁.schedulingArray
  esp0 := h₂.esp0.trans h₁.esp0
  page := h₂.page.trans h₁.page
  pcbs p := ⟨(h₂.pcbs p).1.trans (h₁.pcbs p).1, (h₂.pcbs p).2.1.trans (h₁.pcbs p).2.1,
    (h₂.pcbs p).2.2.trans (h₁.pcbs p).2.2⟩

theorem SameTables.refl (k : Kernel) : SameTables k k := ⟨.refl k, rfl, rfl, rfl, rfl, rfl⟩

theorem SameTables.trans {k₁ k₂ k₃ : Kernel} (h₁ : SameTables k₁ k₂) (h₂ : SameTables k₂ k₃) : SameTables k₁ k₃ where
  running := h₁.running.trans h₂.running
  pageDirectory := h₂.pageDirectory.trans h₁.pageDirectory
  pageTable := h₂.pageTable.trans h₁.pageTable
  vidmapPageTable := h₂.vidmapPageTable.trans h₁.vidmapPageTable
  pageTableAddr := h₂.pageTableAddr.trans h₁.pageTableAddr
  vidmapPageTableAddr := h₂.vidmapPageTableAddr.trans h₁.vidmapPageTableAddr

/-- All that a system call on descriptors changes, besides the caller's buffer. -/
def CallOnly (k k' : Kernel) : Prop := ∃ (i j : Nat) (pcbs : Int → Pcb) (tty : Tty) (d : Devices),
  k' = { k with globalInodeIndex := i, globalFileIndex := j, pcbs := pcbs, toTty := tty, toDevices := d } ∧
    ∀ p, SameLinks (k.pcbs p) (pcbs p)

theorem CallOnly.refl (k : Kernel) : CallOnly k k :=
  ⟨k.globalInodeIndex, k.globalFileIndex, k.pcbs, k.toTty, k.toDevices, rfl, fun _ => SameLinks.refl _⟩

theorem CallOnly.trans {k₁ k₂ k₃ : Kernel} (h₁ : CallOnly k₁ k₂) (h₂ : CallOnly k₂ k₃) : CallOnly k₁ k₃ := by
  obtain ⟨_, _, _, _, _, rfl, hlinks⟩ := h₁
  obtain ⟨i, j, pcbs, tty, d, rfl, hlinks'⟩ := h₂
  exact ⟨i, j, pcbs, tty, d, rfl, fun p => (hlinks p).trans (hlinks' p)⟩

theorem CallOnly.sameTables (h : CallOnly k k') : SameTables k k' := by
  obtain ⟨_, _, _, _, _, rfl, hlinks⟩ := h
  exact ⟨⟨rfl, rfl, rfl, rfl, rfl, rfl, fun p => (hlinks p).sameFamily⟩, rfl, rfl, rfl, rfl, rfl⟩

theorem CallOnly.userMem (h : CallOnly k k') : k'.userMem = k.userMem := by
  obtain ⟨_, _, _, _, _, rfl, -⟩ := h
  rfl

theorem ScreenOnly.callOnly (h : ScreenOnly k k') : CallOnly k k' := by
  obtain ⟨_, rfl, -⟩ := h
  exact ⟨_, _, _, _, _, rfl, fun _ => SameLinks.refl _⟩

theorem DevicesOnly.callOnly (h : DevicesOnly k k') : CallOnly k k' := by
  obtain ⟨_, rfl⟩ := h
  exact ⟨_, _, _, _, _, rfl, fun _ => SameLinks.refl _⟩

theorem rtcHandler_devicesOnly (k : Kernel) : DevicesOnly k (rtcHandler k) := ⟨_, rfl⟩

theorem callOnly_modifyFile (k : Kernel) (pid fd : Int) (f : Files → Files) :
    CallOnly k (k.modifyPcb pid fun pcb => pcb.modifyFile fd f) := by
  refine ⟨_, _, _, _, _, rfl, fun p => ?_⟩
  rw [Function.update_apply]
  split_ifs with hp
  · rw [hp]
    exact ⟨_, _, rfl⟩
  · exact SameLinks.refl _

theorem fopsOpen_callOnly (k : Kernel) (filename : List UInt8) (rate : UInt8) (fops : Fops) :
    CallOnly k (fops.open k filename rate).1 := by
  cases fops with
  | rtcTable => exact (setRtcFrequency_devicesOnly k 2 rate).callOnly
  | filesysTable =>
    unfold Fops.open
    dsimp only
    split
    · exact ⟨_, _, _, _, _, rfl, fun _ => SameLinks.refl _⟩
    · exact .refl k
  | filedirTable | stdInTable | stdOutTable | badTable => exact .refl k

theorem sysOpen_callOnly {esp v : Int} {filename : List UInt8} {rate : UInt8}
    (h : sysOpen k esp filename rate = some (k', v)) : CallOnly k k' := by
  unfold sysOpen at h
  split at h
  · cases h
    exact .refl k
  · split at h
    · cases h
      exact .refl k
    · obtain ⟨fops, -, h⟩ := Option.map_eq_some_iff.mp h
      have hopen := fopsOpen_callOnly k filename rate fops
      dsimp only at h
      split_ifs at h
      · cases h
        exact hopen
      · cases h
        exact hopen.trans (callOnly_modifyFile _ _ _ _)

theorem sysClose_callOnly (k : Kernel) (esp fd : Int) : CallOnly k (sysClose k esp fd).1 := by
  unfold sysClose
  split_ifs
  · exact .refl k
  · exact .refl k
  · exact .refl k
  · exact callOnly_modifyFile _ _ _ _

theorem terminalRead_callOnly {bufNull : Bool} {nbytes : Int} {r : Int × List UInt8}
    (h : terminalRead k bufNull nbytes = some (k', r)) : CallOnly k k' := by
  unfold terminalRead at h
  dsimp only at h
  split_ifs at h <;> (cases h; exact ⟨_, _, _, _, _, rfl, fun _ => SameLinks.refl _⟩)

theorem fileRead_callOnly (k : Kernel) (esp fd nbytes : Int) : CallOnly k (fileRead k esp fd nbytes).1 := by
  unfold fileRead
  dsimp only
  split_ifs
  · exact .refl k
  · exact callOnly_modifyFile _ _ _ _

theorem dirRead_callOnly (k : Kernel) : CallOnly k (dirRead k).1 := by
  unfold dirRead
  split
  · exact ⟨_, _, _, _, _, rfl, fun _ => SameLinks.refl _⟩
  · exact ⟨_, _, _, _, _, rfl, fun _ => SameLinks.refl _⟩

theorem fopsRead_callOnly {esp fd nbytes : Int} {r : Int × List UInt8} {fops : Fops}
    (h : fops.read k esp fd nbytes = some (k', r)) : CallOnly k k' := by
  cases fops with
  | stdInTable => exact terminalRead_callOnly h
  | rtcTable =>
    cases h
    exact (rtcRead_devicesOnly k).callOnly
  | filesysTable =>
    have hread : fileRead k esp fd nbytes = (k', r) := Option.some.inj h
    have hk := fileRead_callOnly k esp fd nbytes
    rwa [hread] at hk
  | filedirTable =>
    have hread : dirRead k = (k', r) := Option.some.inj h
    have hk := dirRead_callOnly k
    rwa [hread] at hk
  | stdOutTable | badTable =>
    cases h
    exact .refl k

theorem sysRead_callOnly {esp fd nbytes : Int} {bufNull : Bool} {r : Int × List UInt8}
    (h : sysRead k esp fd bufNull nbytes = some (k', r)) : CallOnly k k' := by
  unfold sysRead at h
  split_ifs at h
  · cases h
    exact .refl k
  · cases h
    exact .refl k
  · cases h
    exact .refl k
  · exact fopsRead_callOnly h

theorem sysWrite_callOnly (k : Kernel) (esp fd : Int) (buf : Option (Nat → UInt8)) (nbytes : Int) (rate : UInt8) :
    CallOnly k (sysWrite k esp fd buf nbytes rate).1 := by
  unfold sysWrite
  cases buf with
  | none =>
    dsimp only
    split_ifs
    · exact .refl k
    · exact .refl k
  | some b =>
    dsimp only
    split_ifs
    · exact .refl k
    · exact .refl k
    · cases ((k.pcbs (stackOwner esp)).fda fd).fopsPtr with
      | stdOutTable =>
        rw [Fops.write]
        exact (terminalWrite_screenOnly k (some b) nbytes).callOnly
      | rtcTable =>
        rw [Fops.write]
        exact (rtcWrite_devicesOnly k _ rate).callOnly
      | stdInTable | filesysTable | filedirTable | badTable => exact .refl k

/-- What `handle_exception` does before it halts the process. -/
theorem handleException_eq (k : Kernel) (vec esp cr2 : Nat) : ∃ k₁, CallOnly k k₁ ∧
    handleException k vec esp cr2 =
      if esp.testBit 2 then ({ k₁ with exceptionFlag := true }, true) else (k₁, false) := by
  refine ⟨puts (clear k) (exceptionText vec esp cr2),
    ((clear_screenOnly k).trans (puts_screenOnly _ _)).callOnly, ?_⟩
  rw [← handleException_halts k vec esp cr2]
  unfold handleException
  dsimp only
  generalize puts (clear k) (exceptionText vec esp cr2) = k₁
  by_cases h : (esp &&& 0x4) >>> 2 = 1
  · rw [if_pos h]
    rfl
  · rw [if_neg h]
    rfl

/-! ## The keyboard and the tables -/

theorem ScreenOnly.toPaging_eq (h : ScreenOnly k k') : k'.toPaging = k.toPaging := by
  obtain ⟨_, rfl, -⟩ := h
  rfl

theorem puts_toPaging (k : Kernel) (text : List UInt8) : (puts k text).toPaging = k.toPaging :=
  (puts_screenOnly text k).toPaging_eq

theorem storeTerms_toPaging {a : Int} {c : UInt8} (h : k.storeTerms a c = some k') : k'.toPaging = k.toPaging := by
  unfold Kernel.storeTerms at h
  split_ifs at h <;> (cases h; rfl)

theorem pokeAll_toPaging {t : Fin 3} {stores : List (Int × UInt8)} (h : k.pokeAll t stores = some k') :
    k'.toPaging = k.toPaging :=
  foldlM_invariant (fun k' => k'.toPaging = k.toPaging) stores
    (fun _ _ _ _ hs hp => (storeTerms_toPaging hp).trans hs) rfl h

theorem saveHistory_toPaging {row : Int} (h : saveHistory k row = some k') : k'.toPaging = k.toPaging := by
  unfold saveHistory at h
  dsimp only at h
  split_ifs at h
  · cases h
    rfl
  · exact foldlM_invariant (fun k' => k'.toPaging = k.toPaging) _
      (fun _ _ _ _ hs hp => (storeTerms_toPaging hp).trans hs) rfl h

theorem backspaces_toPaging (k : Kernel) (n : Nat) : (backspaces k n).toPaging = k.toPaging :=
  forUp_invariant (fun _ k' => k'.toPaging = k.toPaging) n 0 k rfl
    fun _ k' _ _ h => (backspace_screenOnly k').toPaging_eq.trans h

theorem recallRow_toPaging (k : Kernel) : (recallRow k).toPaging = k.toPaging := by
  unfold recallRow
  exact (puts_toPaging _ _).trans (backspaces_toPaging k _)

theorem moveUpHistory_toPaging (h : moveUpHistory k = some k') : k'.toPaging = k.toPaging := by
  obtain ⟨k₁, h₁, rfl⟩ := Option.map_eq_some_iff.mp h
  have hkeep : k₁.toPaging = k.toPaging := by
    unfold keepLatest at h₁
    split_ifs at h₁
    · exact saveHistory_toPaging h₁
    · cases h₁
      rfl
  exact (recallRow_toPaging _).trans hkeep

theorem moveDownHistory_toPaging (k : Kernel) : (moveDownHistory k).toPaging = k.toPaging := by
  unfold moveDownHistory
  split_ifs
  · rfl
  · exact recallRow_toPaging _

theorem recordLine_toPaging (h : recordLine k = some k') : k'.toPaging = k.toPaging := by
  unfold recordLine at h
  split_ifs at h
  · obtain ⟨k₁, h₁, h₂⟩ := Option.bind_eq_some_iff.mp h
    have hsave := saveHistory_toPaging h₁
    split at h₂ <;> (cases h₂; exact hsave)
  · cases h
    rfl

theorem keyboardReturn_toPaging (h : keyboardReturn k = some k') : k'.toPaging = k.toPaging := by
  unfold keyboardReturn at h
  obtain ⟨k₁, h₁, h⟩ := Option.bind_eq_some_iff.mp h
  obtain ⟨k₂, h₂, h⟩ := Option.bind_eq_some_iff.mp h
  cases h
  refine (storeTerms_toPaging h₂).trans (Eq.trans ?_ (recordLine_toPaging h₁))
  split_ifs
  · exact (putc_screenOnly _ _ _).toPaging_eq
  · rfl

theorem autocomplete_toPaging {stale : Nat → UInt8} {fmt : List UInt8 → List UInt8}
    (h : autocomplete k stale fmt = some k') : k'.toPaging = k.toPaging := by
  unfold autocomplete at h
  obtain ⟨c, -, h⟩ := Option.bind_eq_some_iff.mp h
  cases c with
  | nothing =>
    cases h
    rfl
  | ambiguous ls =>
    dsimp only at h
    split_ifs at h
    · cases h
      exact puts_toPaging _ _
    · cases h
      rfl
  | replace oldIdx best resetRepeats =>
    obtain ⟨k₁, h₁, h⟩ := Option.bind_eq_some_iff.mp h
    cases h
    refine (puts_toPaging _ _).trans ((backspaces_toPaging k₁ _).trans ((pokeAll_toPaging h₁).trans ?_))
    split_ifs <;> rfl

theorem addToBuf_toPaging {letter : UInt8} (h : addToBuf k letter = some k') : k'.toPaging = k.toPaging := by
  unfold addToBuf at h
  obtain ⟨k₁, h₁, h⟩ := Option.bind_eq_some_iff.mp h
  have hpoke := pokeAll_toPaging h₁
  split_ifs at h <;> (cases h; exact hpoke)

theorem backspaceKey_toPaging (h : backspaceKey k = some k') : k'.toPaging = k.toPaging := by
  unfold backspaceKey at h
  split at h
  · obtain ⟨k₁, h₁, rfl⟩ := Option.map_eq_some_iff.mp h
    unfold deleteFromBuf at h₁
    obtain ⟨k₂, h₂, h₁⟩ := Option.bind_eq_some_iff.mp h₁
    have hpoke := (storeTerms_toPaging h₂).trans (eraseLast_screenOnly k).toPaging_eq
    split_ifs at h₁ <;> (cases h₁; exact hpoke)
  · cases h
    rfl

theorem controlKey_toPaging (k : Kernel) (scancode : UInt8) : (controlKey k scancode).toPaging = k.toPaging := by
  rcases controlKey_cases k scancode with ⟨-, s, h⟩ | ⟨-, h⟩ | ⟨-, h⟩
  · rw [h, puts_toPaging, (clear_screenOnly k).toPaging_eq]
  · rw [h]
  · rw [h]

variable {last : Option (Fin 6)}

theorem Mapped.processKey (h : Mapped k last) {scancode : UInt8} (hk : processKey k scancode = some k') :
    Mapped k' last := by
  unfold BasicOs.processKey typeLetter at hk
  split_ifs at hk
  · cases hk
    exact h
  · cases hk
    exact h
  · cases hk
    exact h.congr (controlKey_toPaging k scancode)
  · cases hk
    unfold altKey
    split_ifs
    · exact h.switchTerminals _
    · exact h.switchTerminals _
    · exact h.switchTerminals _
    · exact h
  · obtain ⟨k₁, h₁, rfl⟩ := Option.map_eq_some_iff.mp hk
    exact h.congr ((putc_screenOnly _ _ _).toPaging_eq.trans (addToBuf_toPaging h₁))
  · cases hk
    exact h

/-- A key writes the tables only when it switches terminals. -/
theorem Mapped.dispatchKey (h : Mapped k last) {scancode : UInt8} {stale : Nat → UInt8}
    {fmt : List UInt8 → List UInt8} (hk : dispatchKey k scancode stale fmt = some k') : Mapped k' last := by
  unfold BasicOs.dispatchKey at hk
  cases hc : keyCase scancode <;> rw [hc] at hk
  case other => exact h.processKey hk
  case enter => exact h.congr (keyboardReturn_toPaging hk)
  case tab => exact h.congr (autocomplete_toPaging hk)
  case up => exact h.congr (moveUpHistory_toPaging hk)
  case backspace => exact h.congr (backspaceKey_toPaging hk)
  case down =>
    cases hk
    exact h.congr (moveDownHistory_toPaging k)
  all_goals
    cases hk
    exact h.congr rfl

theorem Mapped.keyboardHandler (h : Mapped k last) {scancode : UInt8} {stale : Nat → UInt8}
    {fmt : List UInt8 → List UInt8} {halts : Bool} (hk : keyboardHandler k scancode stale fmt = some (k', halts)) :
    Mapped k' last := by
  unfold BasicOs.keyboardHandler at hk
  split_ifs at hk
  · cases hk
    exact h
  · obtain ⟨k₁, h₁, hk⟩ := Option.map_eq_some_iff.mp hk
    obtain ⟨_, hd⟩ := sendEoi_devicesOnly k₁ keyboardIrqLine
    have hm : Mapped (sendEoi k₁ keyboardIrqLine) last := by
      rw [hd]
      exact (h.dispatchKey h₁).congr rfl
    dsimp only at hk
    split_ifs at hk
    · cases hk
      exact hm.congr rfl
    · cases hk
      exact hm

/-! ## The invariant -/

/-- Only the tables and where they lie matter. -/
theorem Mapped.of_tables (h : Mapped k last) (hpd : k'.pageDirectory = k.pageDirectory)
    (hpt : k'.pageTable = k.pageTable) (hvt : k'.vidmapPageTable = k.vidmapPageTable)
    (ha : k'.pageTableAddr = k.pageTableAddr) (hb : k'.vidmapPageTableAddr = k.vidmapPageTableAddr) :
    Mapped k' last := by
  obtain ⟨h0, h1, h2, h3, h4, h5, h6, h7, h8⟩ := h
  constructor <;> simp only [hpd, hpt, hvt, ha, hb] <;> assumption

/-- The tables map the frame of the running process. -/
def MappedTo (k : Kernel) (pid : Int) : Prop := ∃ p : Fin 6, (p.val : Int) = pid ∧ Mapped k (some p)

/-- What holds in every state after boot. -/
structure SystemInv (k : Kernel) : Prop where
  run : RunInv k
  mapped : MappedTo k k.currPid

theorem MappedTo.of_tables {pid : Int} (h : MappedTo k pid) (hs : SameTables k k') : MappedTo k' pid := by
  obtain ⟨p, hp, hm⟩ := h
  exact ⟨p, hp, hm.of_tables hs.pageDirectory hs.pageTable hs.vidmapPageTable hs.pageTableAddr hs.vidmapPageTableAddr⟩

/-- Whatever was mapped before, the frame of `pid` is after a call of `map_user_program`. -/
theorem MappedTo.mapUserProgram (h : Mapped k last) {pid : Int} (h0 : 0 ≤ pid) (h5 : pid ≤ 5) :
    MappedTo (mapUserProgram k pid) pid := by
  have hcast : ((pid.toNat : Nat) : Int) = pid := Int.toNat_of_nonneg h0
  have hm := h.mapUserProgram ⟨pid.toNat, by omega⟩
  dsimp only at hm
  rw [hcast] at hm
  exact ⟨⟨pid.toNat, by omega⟩, hcast, hm⟩

theorem MappedTo.launch (h : Mapped k last) {pid : Int} (h0 : 0 ≤ pid) (h5 : pid ≤ 5) (inode entry : Nat)
    (args : List UInt8) (r : Regs) : MappedTo (launch k pid inode entry args r) pid := by
  obtain ⟨_, _, _, hl⟩ := launch_frame k pid inode entry args r
  have hslot : Mapped (k.setSlot (launchSlot k pid) pid) last := h.congr rfl
  obtain ⟨p, hp, hm⟩ := MappedTo.mapUserProgram hslot h0 h5
  rw [hl]
  exact ⟨p, hp, hm.of_tables rfl rfl rfl rfl rfl⟩

theorem MappedTo.resumeParent (h : Mapped k last) (v : Int) (h0 : 0 ≤ (k.pcbs k.currPid).parentPid)
    (h5 : (k.pcbs k.currPid).parentPid ≤ 5) : MappedTo (resumeParent k v) (k.pcbs k.currPid).parentPid := by
  have htss : Mapped (k.setTss (kernelStackBase (k.pcbs k.currPid).parentPid)) last := h.congr rfl
  obtain ⟨p, hp, hm⟩ := MappedTo.mapUserProgram htss h0 h5
  exact ⟨p, hp, hm.of_tables rfl rfl rfl rfl rfl⟩

theorem MappedTo.switchTo (h : Mapped k last) (next : Fin 3) (h0 : 0 ≤ k.schedulingArray next)
    (h5 : k.schedulingArray next ≤ 5) : MappedTo (switchTo k next) (k.schedulingArray next) := by
  let k₁ : Kernel := { k with
    scheduledProcess := next, currPid := (k.pcbs (k.schedulingArray next)).currPid }
  have htss : Mapped (k₁.setTss (kernelStackBase (k.schedulingArray next))) last := h.congr rfl
  obtain ⟨p, hp, hm⟩ := MappedTo.mapUserProgram htss h0 h5
  exact ⟨p, hp, (hm.schedulingVidmap next k.currTerm).of_tables rfl rfl rfl rfl rfl⟩

theorem SystemInv.congr (h : SystemInv k) (hs : SameTables k k') : SystemInv k' where
  run := h.run.congr hs.running
  mapped := by
    rw [hs.running.currPid]
    exact h.mapped.of_tables hs

theorem sameTables_memory (k : Kernel) (userMem : Nat → UInt8) (videoMem : Int → UInt8) :
    SameTables k { k with userMem := userMem, videoMem := videoMem } :=
  ⟨⟨rfl, rfl, rfl, rfl, rfl, rfl, fun _ => SameFamily.refl _⟩, rfl, rfl, rfl, rfl, rfl⟩

theorem userStore_sameTables (k : Kernel) (a : Nat) (c : UInt8) : SameTables k (userStore k a c) := by
  unfold userStore
  split_ifs
  · exact sameTables_memory k _ k.videoMem
  · exact sameTables_memory k k.userMem _

theorem storePhys_sameTables (k : Kernel) (pa : Nat) (c : UInt8) : SameTables k (storePhys k pa c) := by
  unfold storePhys
  split_ifs
  · exact sameTables_memory k k.userMem _
  · exact sameTables_memory k _ k.videoMem

theorem copyOut_sameTables (k : Kernel) (buf : Nat) (bytes : List UInt8) : SameTables k (copyOut k buf bytes) := by
  unfold copyOut
  generalize bytes.zipIdx = ps
  induction ps generalizing k with
  | nil => exact .refl k
  | cons p ps ih => exact (userStore_sameTables k (buf + p.2) p.1).trans (ih _)

/-! ## Every action keeps it -/

theorem SystemInv.sysHalt (h : SystemInv k) {status : UInt8} {r : Regs} {stale : Nat → UInt8}
    (hh : sysHalt k status r stale = some k') : SystemInv k' := by
  have hrun := h.run.sysHalt hh
  obtain ⟨p, -, hm⟩ := h.mapped
  obtain ⟨_, hrel, -⟩ := releaseProcess_frame k r.esp
  have hm₁ : Mapped (releaseProcess k r.esp) (some p) := by
    rw [hrel]
    exact hm.congr rfl
  have hcases := sysHalt_cases hh
  generalize releaseProcess k r.esp = k₁ at hm₁ hcases
  obtain ⟨h0, h5⟩ := hrun.currPid_range
  rcases hcases with ⟨v, rfl⟩ | ⟨pid, inode, entry, args, rfl⟩
  · rw [resumeParent_currPid] at h0 h5
    exact ⟨hrun, MappedTo.resumeParent hm₁ v h0 h5⟩
  · rw [launch_currPid] at h0 h5
    refine ⟨hrun, ?_⟩
    rw [launch_currPid]
    exact MappedTo.launch hm₁ h0 h5 inode entry args r

theorem SystemInv.tick (h : SystemInv k) {r inner : Regs} {stale : Nat → UInt8}
    (ht : pitHandler k r inner stale = some k') : SystemInv k' := by
  have hrun := h.run.pitHandler ht
  have hsame : SameTables k (saveContext (sendEoi k 0) r) :=
    (sendEoi_devicesOnly k 0).callOnly.sameTables.trans ⟨saveContext_sameRunning _ r, rfl, rfl, rfl, rfl, rfl⟩
  obtain ⟨hrun₁, p, -, hm⟩ := h.congr hsame
  rw [h.run.pitHandler_eq r inner stale, Option.some_inj] at ht
  subst ht
  generalize saveContext (sendEoi k 0) r = k₁ at hrun hm hrun₁
  generalize (sendEoi k 0).scheduledProcess + 1 = next at hrun
  have hrange := hrun₁.slot_range next
  have hcurr : (switchTo k₁ next).currPid = k₁.schedulingArray next := by
    obtain ⟨_, _, _, hsw, -⟩ := switchTo_frame k₁ next
    rw [hsw]
    exact hrun₁.own _ hrange.1 hrange.2 (hrun₁.slot_used next)
  refine ⟨hrun, ?_⟩
  rw [hcurr]
  exact MappedTo.switchTo hm next hrange.1 hrange.2

theorem Mapped.sysVidmap (h : Mapped k last) (screenStart : Nat) : Mapped (sysVidmap k screenStart).1 last := by
  have hstore : ∀ (k' : Kernel) (a : Nat) (c : UInt8), Mapped k' last → Mapped (userStore k' a c) last := by
    intro k' a c hk
    have hs := userStore_sameTables k' a c
    exact hk.of_tables hs.pageDirectory hs.pageTable hs.vidmapPageTable hs.pageTableAddr hs.vidmapPageTableAddr
  have hmap : Mapped (mapVidmem k) last := by
    unfold mapVidmem
    rw [pageOf_vidmem]
    exact h.hang.windowPage (le_refl _) (by decide)
  unfold BasicOs.sysVidmap
  split_ifs
  · exact h
  · exact hstore _ _ _ (hstore _ _ _ (hstore _ _ _ (hstore _ _ _ hmap)))

theorem SystemInv.step (h : SystemInv k) {e : Event} (hs : step k e = some k') : SystemInv k' := by
  have hrun := h.run.step hs
  obtain ⟨p, hp, hm⟩ := h.mapped
  unfold BasicOs.step at hs
  cases e with
  | tick r inner stale => exact h.tick hs
  | key scancode r stale fmt =>
    obtain ⟨⟨k₁, halts⟩, hk, hs⟩ := Option.bind_eq_some_iff.mp hs
    obtain ⟨keys, hin, -⟩ := keyboardHandler_inputOnly hk
    have hsame := hin.sameRunning
    have h₁ : SystemInv k₁ := ⟨h.run.congr hsame, p, hp.trans hsame.currPid.symm, hm.keyboardHandler hk⟩
    dsimp only at hs
    split at hs
    · exact h₁.sysHalt hs
    · cases hs
      exact h₁
  | execute command r stale =>
    dsimp only at hs
    rcases sysExecute_cases k command r stale with ⟨_, he⟩ | ⟨v, he⟩ | ⟨pid, inode, entry, args, hpid, he⟩
    · rw [he] at hs
      cases hs
    · rw [he] at hs
      cases hs
      exact h
    · rw [he] at hs
      cases hs
      refine ⟨hrun, ?_⟩
      rw [launch_currPid]
      exact MappedTo.launch hm (freePid_eq_some hpid).1.1 (freePid_eq_some hpid).1.2 inode entry args r
  | halt status r stale => exact h.sysHalt hs
  | vidmap screenStart =>
    rw [← Option.some.inj hs] at hrun ⊢
    exact ⟨hrun, p, hp.trans (sysVidmap_sameRunning k screenStart).currPid.symm, hm.sysVidmap screenStart⟩
  | switch nextTerm =>
    rw [← Option.some.inj hs] at hrun ⊢
    exact ⟨hrun, p, hp.trans (switchTerminals_ttyOnly k nextTerm).inputOnly.sameRunning.currPid.symm,
      hm.switchTerminals nextTerm⟩

/-- An exception that the kernel comes back from ends the running process. -/
theorem act_exception {vec esp cr2 : Nat} {r : Regs} {stale : Nat → UInt8}
    (h : act k (.exception vec esp cr2 r stale) = some k') :
    ∃ k₁, CallOnly k k₁ ∧ sysHalt { k₁ with exceptionFlag := true } 255 r stale = some k' := by
  obtain ⟨k₁, hcall, he⟩ := handleException_eq k vec esp cr2
  unfold act at h
  dsimp only at h
  rw [he] at h
  by_cases hbit : esp.testBit 2 = true
  · rw [if_pos hbit] at h
    dsimp only at h
    rw [if_pos rfl] at h
    exact ⟨k₁, hcall, h⟩
  · rw [if_neg hbit] at h
    dsimp only at h
    rw [if_neg (by decide)] at h
    cases h

theorem sameTables_exceptionFlag (k : Kernel) (flag : Bool) : SameTables k { k with exceptionFlag := flag } :=
  ⟨⟨rfl, rfl, rfl, rfl, rfl, rfl, fun _ => SameFamily.refl _⟩, rfl, rfl, rfl, rfl, rfl⟩

/-- Whatever happens keeps the invariant. -/
theorem SystemInv.act (h : SystemInv k) {a : Action} (ha : act k a = some k') : SystemInv k' := by
  cases a with
  | event e => exact h.step ha
  | rtc =>
    cases ha
    exact h.congr (rtcHandler_devicesOnly k).callOnly.sameTables
  | exception vec esp cr2 r stale =>
    obtain ⟨k₁, hcall, hh⟩ := act_exception ha
    exact ((h.congr hcall.sameTables).congr (sameTables_exceptionFlag k₁ true)).sysHalt hh
  | store va c =>
    obtain ⟨pa, -, rfl⟩ := Option.map_eq_some_iff.mp ha
    exact h.congr (storePhys_sameTables k pa c)
  | «open» esp filename rate =>
    obtain ⟨⟨k₁, v⟩, ho, rfl⟩ := Option.map_eq_some_iff.mp ha
    exact h.congr (sysOpen_callOnly ho).sameTables
  | close esp fd =>
    cases ha
    exact h.congr (sysClose_callOnly k esp fd).sameTables
  | read esp fd buf nbytes =>
    obtain ⟨⟨k₁, r⟩, hr, rfl⟩ := Option.map_eq_some_iff.mp ha
    exact h.congr ((sysRead_callOnly hr).sameTables.trans (copyOut_sameTables k₁ buf r.2))
  | write esp fd buf nbytes rate =>
    cases ha
    exact h.congr (sysWrite_callOnly k esp fd buf nbytes rate).sameTables
  | getargs esp buf nbytes =>
    cases ha
    exact h.congr (copyOut_sameTables k buf _)

/-! ## From boot on -/

theorem Mapped.bootState (h : Mapped k last) (n : Nat) (r : Regs) : Mapped (bootState k n r) last := by
  unfold BasicOs.bootState
  split
  · exact h.schedulingVidmap _ _
  · have hsave : Mapped { saveContext k r with scheduledProcess := 1 } last := h.congr rfl
    exact hsave.schedulingVidmap _ _
  · have hsave : Mapped { saveContext k r with bootedFlag := true, scheduledProcess := 2 } last := h.congr rfl
    exact hsave.schedulingVidmap _ _

theorem MappedTo.boot_tick {n : Nat} (h : BootedTo n k) (hn : n < 3) (hshell : HasShell k.fs)
    (hs : n = 0 → k.scheduledProcess = 0) (hm : Mapped k last) {r inner : Regs} {stale : Nat → UInt8}
    (ht : schedule k r inner stale = some k') : MappedTo k' n := by
  obtain ⟨inode, entry, rfl⟩ := h.tick_launch hn hshell hs ht
  exact MappedTo.launch (hm.bootState n r) (by omega) (by omega) inode entry [] inner

/-- The kernel's two tables, where the linker puts them. -/
structure TablesLinked (a b : Nat) : Prop where
  first : InKernelImage a
  second : InKernelImage b
  ne : a ≠ b

/-- The kernel when the three shells have been started. -/
def bootedAt (fs : FileSystem) (a b : Nat) (local_ : Fin 3 → Term) (r inner : Fin 3 → Regs) (stale : Nat → UInt8) :
    Option Kernel :=
  bootRun (initPaging (loadedAt fs a b)) local_ r inner stale

theorem SystemInv.of_boot {fs : FileSystem} {a b : Nat} (hab : TablesLinked a b) (hshell : HasShell fs)
    {local_ : Fin 3 → Term} {r inner : Fin 3 → Regs} {stale : Nat → UInt8}
    (h : bootedAt fs a b local_ r inner stale = some k) : SystemInv k := by
  have hpids : ∀ p : Int, 0 ≤ p → p ≤ 5 → (initPaging (loadedAt fs a b)).pidArray p = unused := fun _ _ _ => rfl
  obtain ⟨hbooted, hfs, -, hcurr, -⟩ := bootRun_booted hpids hshell h
  refine ⟨.of_booted hbooted (hfs ▸ hshell), ?_⟩
  have hm₀ := mapped_boot fs hab.first hab.second hab.ne local_
  have b₀ := bootedTo_initialBoot hpids local_
  obtain ⟨k₁, h₁, h⟩ := Option.bind_eq_some_iff.mp h
  obtain ⟨k₂, h₂, h₃⟩ := Option.bind_eq_some_iff.mp h
  have t₁ := bootedTo_tick b₀ (by decide) hshell (fun _ => rfl) h₁
  have t₂ := bootedTo_tick t₁.shells (by decide) (t₁.fs ▸ hshell) (fun h => absurd h (by decide)) h₂
  obtain ⟨p₁, -, hm₁⟩ := MappedTo.boot_tick b₀ (by decide) hshell (fun _ => rfl) hm₀ h₁
  obtain ⟨p₂, -, hm₂⟩ :=
    MappedTo.boot_tick t₁.shells (by decide) (t₁.fs ▸ hshell) (fun h => absurd h (by decide)) hm₁ h₂
  have hfs₂ : k₂.fs = fs := t₂.fs.trans t₁.fs
  obtain ⟨p₃, hp₃, hm₃⟩ :=
    MappedTo.boot_tick t₂.shells (by decide) (hfs₂ ▸ hshell) (fun h => absurd h (by decide)) hm₂ h₃
  exact ⟨p₃, hp₃.trans hcurr.symm, hm₃⟩

/-- The invariant along every run. -/
theorem SystemInv.reach {ok : Kernel → Action → Prop} {k₁ : Kernel} (h : SystemInv k₁)
    (hrun : Reach BasicOs.act ok k₁ k) : SystemInv k := hrun.invariant h fun _ _ _ hk _ ha => hk.act ha

/-- The physical address of a byte of `pid`'s page. -/
def frameAddr (pid : Int) (va : Nat) : Nat := (pid.toNat + 2) * 0x400000 + (va - 0x8000000)

/-- The running process's page is mapped to its frame, all of it. -/
theorem SystemInv.translate_page (h : SystemInv k) {va : Nat} (hlo : 0x8000000 ≤ va) (hhi : va < 0x8400000) :
    userTranslate k va = some (frameAddr k.currPid va) := by
  obtain ⟨⟨hp, hs, hu, hoff⟩, -⟩ := h.run.context
  have h0 := h.run.currPid_range.1
  have hindex : va / 0x400000 = 32 := by omega
  unfold userTranslate frameAddr
  dsimp only
  rw [hindex, if_pos ⟨hp, hu⟩, if_pos hs]
  refine congrArg some ?_
  omega

/-- The small image boots, wherever the tables are. -/
theorem bootedAt_shellImage (a b : Nat) : ∃ k, bootedAt FileSystem.shellImage a b (fun _ => Term.zeroed) bootRegs
    bootInner (fun _ => 0) = some k := by
  have b₀ : BootedTo 0 (initialBoot (initPaging (loadedAt FileSystem.shellImage a b)) fun _ => Term.zeroed) :=
    bootedTo_initialBoot (fun _ _ _ => rfl) _
  obtain ⟨k₁, h₁, t₁⟩ := b₀.schedule_shellImage (by decide) (fun _ => rfl) rfl (bootRegs 0) (bootInner 0) fun _ => 0
  have f₁ : k₁.fs = FileSystem.shellImage := t₁.fs
  obtain ⟨k₂, h₂, t₂⟩ := t₁.shells.schedule_shellImage (by decide) (fun h => absurd h (by decide)) f₁ (bootRegs 1)
    (bootInner 1) fun _ => 0
  have f₂ : k₂.fs = FileSystem.shellImage := t₂.fs.trans f₁
  obtain ⟨k₃, h₃, -⟩ := t₂.shells.schedule_shellImage (by decide) (fun h => absurd h (by decide)) f₂ (bootRegs 2)
    (bootInner 2) fun _ => 0
  exact ⟨k₃, by rw [bootedAt, bootRun, h₁, Option.bind_some, h₂, Option.bind_some, h₃]⟩

/-- The two tables at 5 MB. -/
theorem tablesLinked_fiveMb : TablesLinked 0x500000 0x501000 :=
  ⟨⟨by decide, by decide, by decide⟩, ⟨by decide, by decide, by decide⟩, by decide⟩

end BasicOs
