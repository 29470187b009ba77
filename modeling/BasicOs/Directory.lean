import BasicOs.FileReads

/-!
# Enumerating the directory

`dir_read` goes through the entries of the directory with the one variable `global_file_index`, whatever
descriptor it is called through.

* `DirEvent`, `dirStep` : opens of `.`, reads through directory descriptors and closes, by any processes, with
  anything else in between;
* `noteDir` : an observer that keeps, for each descriptor, what its reads returned since it was opened;
* `listing fs j` : what the read number `j` of an enumeration should return;
* `directory_enumerated` : so it does, in runs whose reads find the index where their descriptor left it.
-/

namespace BasicOs
open Run FileSystem Bytes

/-! ## The events -/

/-- The name of the directory. -/
def dot : List UInt8 := [46]

/-- Descriptor `fd` of process `pid` is open on the directory. -/
def DirOpen (k : Kernel) (pid fd : Int) : Prop :=
  (0 ≤ fd ∧ fd < fdaSize) ∧ ((k.pcbs pid).fda fd).flags ≠ notInUse ∧ ((k.pcbs pid).fda fd).fopsPtr = .filedirTable

instance (k : Kernel) (pid fd : Int) : Decidable (DirOpen k pid fd) := inferInstanceAs (Decidable (_ ∧ _ ∧ _))

/-- `sys_open(".")`, `sys_read` through a directory descriptor and `sys_close` on the stack at `esp`, or anything
else. -/
inductive DirEvent
  | open (esp : Int) (rate : UInt8)
  | read (esp fd nbytes : Int)
  | close (esp fd : Int)
  | elsewhere (k' : Kernel)

def dirStep (k : Kernel) : DirEvent → Option Kernel
  | .open esp rate => (sysOpen k esp dot rate).map (·.1)
  | .read esp fd nbytes =>
    if DirOpen k (stackOwner esp) fd then (sysRead k esp fd false nbytes).map (·.1) else none
  | .close esp fd => some (sysClose k esp fd).1
  | .elsewhere k' => some k'

/-- What happens elsewhere leaves the file system alone, reads no directory and opens none. -/
def DirApart (k : Kernel) : DirEvent → Prop
  | .elsewhere k' => k'.fs = k.fs ∧ k'.globalFileIndex = k.globalFileIndex ∧
      ∀ pid fd, DirOpen k' pid fd → DirOpen k pid fd
  | .open .. | .read .. | .close .. => True

/-- What the reads through each descriptor, named by pid and number, returned since it was opened, and the
descriptor of the last read, if it was not opened again since. -/
structure DirLog where
  reads : Int × Int → List (Int × List UInt8)
  last : Option (Int × Int)

def DirLog.empty : DirLog := ⟨fun _ => [], none⟩

/-- The observer. -/
def noteDir (g : DirLog) (k : Kernel) (e : DirEvent) (_ : Kernel) : DirLog :=
  match e with
  | .open esp rate =>
    match sysOpen k esp dot rate with
    | some (_, fd) =>
      if fd = -1 then g
      else ⟨Function.update g.reads (stackOwner esp, fd) [],
        if g.last = some (stackOwner esp, fd) then none else g.last⟩
    | none => g
  | .read esp fd nbytes =>
    match sysRead k esp fd false nbytes with
    | some (_, r) => ⟨Function.update g.reads (stackOwner esp, fd) (g.reads (stackOwner esp, fd) ++ [r]),
        some (stackOwner esp, fd)⟩
    | none => g
  | .close .. | .elsewhere _ => g

/-- What the read number `j` of an enumeration should return: the name of entry `j`, and 0 after the last. -/
def listing (fs : FileSystem) (j : Nat) : Int × List UInt8 :=
  if j < fs.dirEntryCount then ((effectiveName (fs.direntry j)).length, effectiveName (fs.direntry j)) else (0, [])

/-- The reads are those of an enumeration, to its end. -/
def Enumerates (fs : FileSystem) (reads : List (Int × List UInt8)) : Prop :=
  ∀ j r, j ≤ fs.dirEntryCount → reads[j]? = some r → r = listing fs j

/-- A read is the first of its descriptor and finds the index at 0, or comes after a read through the same
descriptor with no directory read in between. -/
def DirReady (p : Kernel × DirLog) : DirEvent → Prop
  | .read esp fd _ => (p.2.reads (stackOwner esp, fd) = [] ∧ p.1.globalFileIndex = 0) ∨
      p.2.last = some (stackOwner esp, fd)
  | .open .. | .close .. | .elsewhere _ => True

/-! ## What the calls do -/

/-- The bytes that `dir_read` copies are the name. -/
theorem take_filename (d : Dentry) : d.filename.take (effectiveName d).length = effectiveName d :=
  (List.prefix_iff_eq_take.mp (List.takeWhile_prefix _)).symm

/-- The index moves on, and back to 0 past the last entry. -/
def nextIndex (fs : FileSystem) (index : Nat) : Nat := if index < fs.dirEntryCount then index + 1 else 0

theorem dirRead_eq {k : Kernel} (h : k.fs.theBootBlock ≠ 0) : dirRead k =
    ({ k with globalFileIndex := nextIndex k.fs k.globalFileIndex }, listing k.fs k.globalFileIndex) := by
  unfold dirRead readDentryByIndex nextIndex listing
  rw [if_neg h]
  by_cases hi : k.globalFileIndex < k.fs.dirEntryCount
  · rw [if_neg (by omega), if_pos hi, if_pos hi]
    dsimp only
    rw [strnlen_filename (k.fs.filename_length _), take_filename]
  · rw [if_pos (by omega), if_neg hi, if_neg hi]

theorem DirOpen.sysRead_eq {k : Kernel} {esp fd : Int} (h : DirOpen k (stackOwner esp) fd)
    (hboot : k.fs.theBootBlock ≠ 0) (nbytes : Int) : sysRead k esp fd false nbytes =
      some ({ k with globalFileIndex := nextIndex k.fs k.globalFileIndex }, listing k.fs k.globalFileIndex) := by
  obtain ⟨⟨h0, h8⟩, huse, htable⟩ := h
  unfold sysRead
  rw [if_neg (by omega), if_neg (by decide), if_neg huse, htable, Fops.read, dirRead_eq hboot]

theorem sysOpen_index {k k' : Kernel} {esp v : Int} {name : List UInt8} {rate : UInt8}
    (h : sysOpen k esp name rate = some (k', v)) : k'.fs = k.fs ∧ k'.globalFileIndex = k.globalFileIndex := by
  have hopen : ∀ fops : Fops, (fops.open k name rate).1.fs = k.fs ∧
      (fops.open k name rate).1.globalFileIndex = k.globalFileIndex := by
    intro fops
    cases fops with
    | rtcTable =>
      obtain ⟨dev, hdev⟩ := setRtcFrequency_devicesOnly k 2 rate
      rw [Fops.open, rtcOpen, hdev]
      exact ⟨rfl, rfl⟩
    | filesysTable =>
      rw [Fops.open]
      cases k.fs.fileOpen name <;> exact ⟨rfl, rfl⟩
    | filedirTable | stdInTable | stdOutTable | badTable => exact ⟨rfl, rfl⟩
  unfold sysOpen at h
  split at h
  · cases h
    exact ⟨rfl, rfl⟩
  · split at h
    · cases h
      exact ⟨rfl, rfl⟩
    · obtain ⟨fops, -, h⟩ := Option.map_eq_some_iff.mp h
      dsimp only at h
      split_ifs at h
      · cases h
        exact hopen fops
      · cases h
        exact hopen fops

theorem sysClose_index (k : Kernel) (esp fd : Int) :
    (sysClose k esp fd).1.fs = k.fs ∧ (sysClose k esp fd).1.globalFileIndex = k.globalFileIndex := by
  unfold sysClose
  split_ifs <;> exact ⟨rfl, rfl⟩

/-! ## Runs -/

/-- The index is where the descriptor of the last read has left it, and no other enumeration is under way. -/
structure DirInv (fs : FileSystem) (k : Kernel) (g : DirLog) : Prop where
  fs_eq : k.fs = fs
  index_le : k.globalFileIndex ≤ fs.dirEntryCount
  enumerates : ∀ d, Enumerates fs (g.reads d)
  last_index : ∀ d, g.last = some d → k.globalFileIndex = (g.reads d).length % (fs.dirEntryCount + 1)
  last_of_begun : ∀ d, 0 < (g.reads d).length → (g.reads d).length ≤ fs.dirEntryCount → g.last = some d

variable {fs : FileSystem} {k k' : Kernel} {g : DirLog}

theorem Enumerates.append {reads : List (Int × List UInt8)} (h : Enumerates fs reads) {r : Int × List UInt8}
    (hr : reads.length ≤ fs.dirEntryCount → r = listing fs reads.length) : Enumerates fs (reads ++ [r]) := by
  intro j r' hj hjr
  obtain hlt | heq | hgt : j < reads.length ∨ j = reads.length ∨ reads.length < j := by omega
  · rw [List.getElem?_append_left hlt] at hjr
    exact h j r' hj hjr
  · subst heq
    rw [List.getElem?_concat_length, Option.some_inj] at hjr
    exact hjr.symm.trans (hr hj)
  · rw [List.getElem?_eq_none (by rw [List.length_append, List.length_singleton]; omega)] at hjr
    cases hjr

theorem enumerates_nil (fs : FileSystem) : Enumerates fs [] := by
  intro j r _ h
  cases h

theorem nextIndex_le (fs : FileSystem) (i : Nat) : nextIndex fs i ≤ fs.dirEntryCount := by
  unfold nextIndex
  split_ifs <;> omega

theorem nextIndex_mod (fs : FileSystem) (c : Nat) :
    nextIndex fs (c % (fs.dirEntryCount + 1)) = (c + 1) % (fs.dirEntryCount + 1) := by
  have hlt : c % (fs.dirEntryCount + 1) < fs.dirEntryCount + 1 := Nat.mod_lt _ (Nat.succ_pos _)
  unfold nextIndex
  rw [← Nat.mod_add_mod]
  generalize c % (fs.dirEntryCount + 1) = i at *
  split_ifs with h
  · rw [Nat.mod_eq_of_lt (by omega)]
  · rw [show i + 1 = fs.dirEntryCount + 1 by omega, Nat.mod_self]

/-- A read that meets the condition finds the index at the number of its descriptor's reads. -/
theorem DirInv.index_eq (h : DirInv fs k g) {esp fd nbytes : Int} (hr : DirReady (k, g) (.read esp fd nbytes)) :
    k.globalFileIndex = (g.reads (stackOwner esp, fd)).length % (fs.dirEntryCount + 1) := by
  rcases hr with ⟨hnil, h0⟩ | hlast
  · dsimp only at hnil h0
    rw [h0, hnil, List.length_nil, Nat.zero_mod]
  · exact h.last_index _ hlast

/-- While the enumeration of a descriptor is under way, only that descriptor can meet the condition. -/
theorem DirInv.only_reader (h : DirInv fs k g) {esp fd nbytes : Int} (hr : DirReady (k, g) (.read esp fd nbytes))
    {d : Int × Int} (h0 : 0 < (g.reads d).length) (hle : (g.reads d).length ≤ fs.dirEntryCount) :
    d = (stackOwner esp, fd) := by
  have hlast := h.last_of_begun d h0 hle
  have hin := h.last_index d hlast
  rw [Nat.mod_eq_of_lt (by omega)] at hin
  rcases hr with ⟨-, hz⟩ | hd
  · dsimp only at hz
    omega
  · exact Option.some.inj (hlast.symm.trans hd)

/-- The state and the log after a read. -/
theorem DirInv.read (h : DirInv fs k g) {esp fd nbytes : Int} (hr : DirReady (k, g) (.read esp fd nbytes)) :
    DirInv fs { k with globalFileIndex := nextIndex fs k.globalFileIndex }
      ⟨Function.update g.reads (stackOwner esp, fd)
        (g.reads (stackOwner esp, fd) ++ [listing fs k.globalFileIndex]), some (stackOwner esp, fd)⟩ := by
  have hidx := h.index_eq hr
  refine ⟨h.fs_eq, nextIndex_le fs _, fun d => ?_, fun d hd => ?_, fun d h0 hle => ?_⟩
  · dsimp only
    rw [Function.update_apply]
    split_ifs
    · apply (h.enumerates _).append
      intro hle
      rw [hidx, Nat.mod_eq_of_lt (by omega)]
    · exact h.enumerates d
  · cases hd
    dsimp only
    rw [Function.update_self, List.length_append, List.length_singleton, hidx, nextIndex_mod]
  · by_cases hd : d = (stackOwner esp, fd)
    · rw [hd]
    · dsimp only at h0 hle
      rw [Function.update_of_ne hd] at h0 hle
      exact absurd (h.only_reader hr h0 hle) hd

/-- The log after an open. -/
theorem DirInv.opened (h : DirInv fs k g) (hfs : k'.fs = k.fs) (hidx : k'.globalFileIndex = k.globalFileIndex)
    (d : Int × Int) : DirInv fs k' ⟨Function.update g.reads d [], if g.last = some d then none else g.last⟩ := by
  have hother : ∀ e, (if g.last = some d then none else g.last) = some e → e ≠ d ∧ g.last = some e := by
    intro e he
    split_ifs at he with hd
    refine ⟨?_, he⟩
    rintro rfl
    exact hd he
  refine ⟨hfs.trans h.fs_eq, hidx ▸ h.index_le, fun e => ?_, fun e he => ?_, fun e h0 hle => ?_⟩
  · dsimp only
    rw [Function.update_apply]
    split_ifs
    · exact enumerates_nil fs
    · exact h.enumerates e
  · obtain ⟨hne, he⟩ := hother e he
    dsimp only
    rw [Function.update_of_ne hne, hidx]
    exact h.last_index e he
  · dsimp only at h0 hle ⊢
    by_cases he : e = d
    · rw [he, Function.update_self] at h0
      exact absurd h0 (Nat.lt_irrefl 0)
    · rw [Function.update_of_ne he] at h0 hle
      have hlast := h.last_of_begun e h0 hle
      rw [if_neg (by rw [hlast, Option.some_inj]; exact he)]
      exact hlast

theorem DirInv.congr (h : DirInv fs k g) (hfs : k'.fs = k.fs) (hidx : k'.globalFileIndex = k.globalFileIndex) :
    DirInv fs k' g :=
  ⟨hfs.trans h.fs_eq, hidx ▸ h.index_le, h.enumerates, fun d hd => hidx ▸ h.last_index d hd, h.last_of_begun⟩

theorem DirInv.step (h : DirInv fs k g) (hboot : fs.theBootBlock ≠ 0) {e : DirEvent} (ha : DirApart k e)
    (hr : DirReady (k, g) e) (hs : dirStep k e = some k') : DirInv fs k' (noteDir g k e k') := by
  cases e with
  | «open» esp rate =>
    obtain ⟨⟨k₁, fd⟩, ho, rfl⟩ := Option.map_eq_some_iff.mp hs
    obtain ⟨hfs, hidx⟩ := sysOpen_index ho
    simp only [noteDir, ho]
    by_cases hfd : fd = -1
    · rw [if_pos hfd]
      exact h.congr hfs hidx
    · rw [if_neg hfd]
      exact h.opened hfs hidx _
  | read esp fd nbytes =>
    unfold dirStep at hs
    dsimp only at hs
    split_ifs at hs with hd
    have hfs := h.fs_eq
    subst hfs
    have hread := hd.sysRead_eq hboot nbytes
    simp only [noteDir, hread]
    rw [hread] at hs
    cases hs
    exact h.read hr
  | close esp fd =>
    cases hs
    have hc := sysClose_index k esp fd
    exact h.congr hc.1 hc.2
  | elsewhere k₁ =>
    cases hs
    exact h.congr ha.1 ha.2.1

/-- Names tell entries apart, and none is empty. -/
def ProperNames (fs : FileSystem) : Prop :=
  ∀ i, i < fs.dirEntryCount → effectiveName (fs.direntry i) ≠ [] ∧
    ∀ j, j < fs.dirEntryCount → effectiveName (fs.direntry i) = effectiveName (fs.direntry j) → i = j

/-- With such names no other index gives the right result. -/
theorem listing_injective (hnames : ProperNames fs) {i j : Nat} (hi : i ≤ fs.dirEntryCount)
    (hj : j ≤ fs.dirEntryCount) (h : listing fs i = listing fs j) : i = j := by
  unfold listing at h
  split_ifs at h with h1 h2 h2
  · exact (hnames i h1).2 j h2 (congrArg Prod.snd h)
  · exact absurd (congrArg Prod.snd h) (hnames i h1).1
  · exact absurd (congrArg Prod.snd h).symm (hnames j h2).1
  · omega

/-- A read against the condition gets the wrong entry. -/
theorem DirInv.ready_of_listing (h : DirInv fs k g) (hnames : ProperNames fs) {esp fd nbytes : Int}
    (hle : (g.reads (stackOwner esp, fd)).length ≤ fs.dirEntryCount)
    (hr : listing fs k.globalFileIndex = listing fs (g.reads (stackOwner esp, fd)).length) :
    DirReady (k, g) (.read esp fd nbytes) := by
  have hidx := listing_injective hnames h.index_le hle hr
  obtain h0 | hpos : (g.reads (stackOwner esp, fd)).length = 0 ∨ 0 < (g.reads (stackOwner esp, fd)).length := by omega
  · exact Or.inl ⟨List.eq_nil_of_length_eq_zero h0, hidx.trans h0⟩
  · exact Or.inr (h.last_of_begun _ hpos hle)

/-- **Enumeration of the directory.** From a state with the index at 0, in every run of opens, directory reads and
closes by any processes whose reads meet the condition, the reads through each descriptor since it was opened are
the names of the entries, in order, and then 0. If names tell entries apart the condition is exact: in each state
reached a read through a directory descriptor that is not past its end returns its entry if and only if it meets
the condition. -/
theorem directory_enumerated {k₀ : Kernel} (hboot : k₀.fs.theBootBlock ≠ 0) (hstart : k₀.globalFileIndex = 0)
    (h : Reach (observed dirStep noteDir) (fun p e => DirApart p.1 e ∧ DirReady p e) (k₀, .empty) (k, g)) :
    (∀ pid fd, Enumerates k₀.fs (g.reads (pid, fd))) ∧
    (ProperNames k₀.fs → ∀ esp fd nbytes, DirOpen k (stackOwner esp) fd →
      (g.reads (stackOwner esp, fd)).length ≤ k₀.fs.dirEntryCount →
      ∃ k' r, sysRead k esp fd false nbytes = some (k', r) ∧
        (r = listing k₀.fs (g.reads (stackOwner esp, fd)).length ↔ DirReady (k, g) (.read esp fd nbytes))) := by
  have hinv : DirInv k₀.fs k g := by
    refine h.invariant (I := fun p => DirInv k₀.fs p.1 p.2) ?_ ?_
    · exact ⟨rfl, hstart ▸ Nat.zero_le _, fun _ => enumerates_nil _, fun _ h => (nomatch h),
        fun _ h => absurd h (Nat.lt_irrefl 0)⟩
    · intro p e q hi hok hs
      obtain ⟨hstep, hg⟩ := observed_eq_some.mp hs
      rw [hg]
      exact hi.step hboot hok.1 hok.2 hstep
  refine ⟨fun pid fd => hinv.enumerates (pid, fd), fun hnames esp fd nbytes hd hle => ?_⟩
  have hread := hd.sysRead_eq (hinv.fs_eq ▸ hboot) nbytes
  refine ⟨_, _, hread, ?_⟩
  rw [hinv.fs_eq]
  constructor
  · exact fun hr => hinv.ready_of_listing hnames hle hr
  · intro hr
    rw [hinv.index_eq hr, Nat.mod_eq_of_lt (by omega)]

/-! ## A small directory -/

/-- The bytes of an image with the entries `.`, of type 1, and `shell`, of type 2. -/
def dirBytes : List (Nat × UInt8) :=
  [(4096, 2), (4100, 1), (4104, 1), (4160, 46), (4192, 1),
   (4224, 115), (4225, 104), (4226, 101), (4227, 108), (4228, 108), (4256, 2)]

def dirImage : FileSystem :=
  { mem := fun a => (dirBytes.lookup a).getD 0, theBootBlock := 4096, filesystemStart := 4096,
    fsStartAddr := 4096 }

/-- Processes 3 and 4 on that image, with nothing opened yet. -/
def dirProcesses : Kernel := initPcb (initPcb (Kernel.atLoad dirImage) 3 []) 4 []

/-- A stack pointer in the kernel stack of a process. -/
def dirEsp (pid : Int) : Int := kernelStackBase pid - 64

/-- The condition, decided for the calls. -/
def dirCheck (p : Kernel × DirLog) : DirEvent → Bool
  | .read esp fd _ => decide ((p.2.reads (stackOwner esp, fd) = [] ∧ p.1.globalFileIndex = 0) ∨
      p.2.last = some (stackOwner esp, fd))
  | .open .. | .close .. => true
  | .elsewhere _ => false

theorem dirCheck_sound (p : Kernel × DirLog) (e : DirEvent) (h : dirCheck p e = true) :
    DirApart p.1 e ∧ DirReady p e := by
  cases e with
  | «open» esp rate => exact ⟨trivial, trivial⟩
  | read esp fd nbytes =>
    have hr := of_decide_eq_true h
    exact ⟨trivial, hr⟩
  | close esp fd => exact ⟨trivial, trivial⟩
  | elsewhere k' => cases h

/-- The kernel and the log after a list of events. -/
def dirRun (check : Kernel × DirLog → DirEvent → Bool) (es : List DirEvent) : Option (Kernel × DirLog) :=
  es.foldlM (fun p e => if check p e = true then observed dirStep noteDir p e else none) (dirProcesses, .empty)

/-- What the reads through descriptor 2 of a process returned. -/
def dirReads (check : Kernel × DirLog → DirEvent → Bool) (es : List DirEvent) (pid : Int) :
    Option (List (Int × List UInt8)) := (dirRun check es).map fun p => p.2.reads (pid, 2)

/-- Process 3 and then process 4 go through the directory, with both descriptors open. -/
def twoSessions : List DirEvent :=
  [.open (dirEsp 3) 0, .open (dirEsp 4) 0, .read (dirEsp 3) 2 32, .read (dirEsp 3) 2 32, .read (dirEsp 3) 2 32,
   .read (dirEsp 4) 2 32, .read (dirEsp 4) 2 32, .close (dirEsp 3) 2, .read (dirEsp 4) 2 32]

/-- Both get the two names and 0. -/
theorem directory_enumerated_two : ∃ k g, dirRun dirCheck twoSessions = some (k, g) ∧
    (g.reads (3, 2)).length = 3 ∧ g.reads (4, 2) = [(1, dot), (5, shellName), (0, [])] ∧
    Enumerates dirImage (g.reads (3, 2)) ∧ Enumerates dirImage (g.reads (4, 2)) := by
  have h3 : dirReads dirCheck twoSessions 3 = some [(1, dot), (5, shellName), (0, [])] := by decide +kernel
  have h4 : dirReads dirCheck twoSessions 4 = some [(1, dot), (5, shellName), (0, [])] := by decide +kernel
  obtain ⟨⟨k, g⟩, hrun, hg3⟩ := Option.map_eq_some_iff.mp h3
  rw [dirReads, hrun, Option.map_some, Option.some_inj] at h4
  have hreach : Reach (observed dirStep noteDir) (fun p e => DirApart p.1 e ∧ DirReady p e)
      (dirProcesses, .empty) (k, g) :=
    Reach.of_foldlM dirCheck dirCheck_sound twoSessions (.refl _) hrun
  have henum := (directory_enumerated (show dirProcesses.fs.theBootBlock ≠ 0 by decide) rfl hreach).1
  exact ⟨k, g, hrun, by rw [show g.reads (3, 2) = _ from hg3]; rfl, h4, henum 3 2, henum 4 2⟩

/-- A session that stops before the end: process 3 reads one name and closes its descriptor. The first read of the
next session returns entry 1, not entry 0. -/
theorem directory_session_continued :
    dirReads (fun _ _ => true) [.open (dirEsp 3) 0, .read (dirEsp 3) 2 32, .close (dirEsp 3) 2, .open (dirEsp 4) 0,
      .read (dirEsp 4) 2 32] 4 = some [(5, shellName)] ∧
    listing dirImage 0 = (1, dot) ∧ ¬ Enumerates dirImage [(5, shellName)] := by
  have hlist : listing dirImage 0 = (1, dot) := by decide +kernel
  refine ⟨by decide +kernel, hlist, fun h => ?_⟩
  have h0 := h 0 (5, shellName) (Nat.zero_le _) rfl
  rw [hlist] at h0
  exact absurd (congrArg Prod.fst h0) (by decide)

end BasicOs
