import BasicOs.FileReads

/-!
# Sessions on regular files do not interfere

A session is what one process does with one descriptor from a successful `sys_open` to the close. All processes
share the file system and the global variables of `filesystem.c`; the position, the inode and the operation table
are kept in the descriptor.

* `fileCall` : a read through a descriptor as a function of the image, the inode and the position;
* `noteSession` : an observer beside all processes that records, for each descriptor, the calls of its session and
  their results;
* `readAlone` : the calls of a session with nothing in between;
* `sessions_independent` : in any interleaving a session on a regular file gets what it gets alone.
-/

namespace BasicOs
open Run FileSystem Bytes

/-! ## One session -/

/-- A read of `call.2` bytes, into a buffer that is NULL if `call.1`, of the file `inode` at position `pos`: the
position after it, the value returned and the bytes delivered. -/
def fileCall (fs : FileSystem) (inode pos : Nat) (call : Bool × Int) : Nat × (Int × List UInt8) :=
  let fileLength := load32 fs.mem (fs.fsStartAddr + (inode + 1) * blockSize)
  if call.1 then (pos, -1, [])
  else if pos ≥ fileLength ∧ fileLength ≠ 0 then (pos, 0, [])
  else
    let (bytesRead, bytes) := fs.readData inode pos false (call.2 % 2 ^ 32).toNat
    (u32 (pos + bytesRead), i32 bytesRead, bytes)

/-- Descriptor `fd` of process `pid` is open on a regular file, at position `pos`. -/
def FileOpen (k : Kernel) (pid fd : Int) (inode pos : Nat) : Prop :=
  (2 ≤ fd ∧ fd ≤ 7) ∧ (k.pcbs pid).fda fd =
    { fopsPtr := .filesysTable, inode := inode, filePosition := pos, flags := inUse }

variable {k k' : Kernel} {esp fd : Int} {inode pos : Nat}

theorem FileOpen.openOn (h : FileOpen k (stackOwner esp) fd inode pos) : OpenOn k esp fd inode pos :=
  ⟨⟨by have := h.1; omega, by have := h.1; simp only [fdaSize]; omega⟩, h.2⟩

theorem FileOpen.congr {pid : Int} (h : FileOpen k pid fd inode pos)
    (he : (k'.pcbs pid).fda fd = (k.pcbs pid).fda fd) : FileOpen k' pid fd inode pos := ⟨h.1, he.trans h.2⟩

/-- A read through an open descriptor does what `fileCall` says. -/
theorem FileOpen.sysRead (h : FileOpen k (stackOwner esp) fd inode pos) (bufNull : Bool) (nbytes : Int) :
    ∃ k', sysRead k esp fd bufNull nbytes = some (k', (fileCall k.fs inode pos (bufNull, nbytes)).2) ∧
      k'.fs = k.fs ∧ FileOpen k' (stackOwner esp) fd inode (fileCall k.fs inode pos (bufNull, nbytes)).1 := by
  cases bufNull with
  | true =>
    refine ⟨k, ?_, rfl, h⟩
    have hr := h.openOn.1
    unfold BasicOs.sysRead
    rw [if_neg (by omega), if_pos rfl]
    rfl
  | false =>
    rw [sysRead_of_openOn h.openOn]
    unfold fileRead fileCall
    dsimp only
    rw [h.2, if_neg (show ¬ false = true by decide)]
    dsimp only
    split_ifs
    · exact ⟨k, rfl, rfl, h⟩
    · refine ⟨_, rfl, rfl, h.1, ?_⟩
      rw [Kernel.modifyPcb_pcbs_self, modifyFile_fda, if_pos rfl, h.2]

/-- The calls of a session on descriptor `fd`, one after the other: their results. -/
def readAlone (k : Kernel) (esp fd : Int) : List (Bool × Int) → Option (List (Int × List UInt8))
  | [] => some []
  | call :: calls => do
    let (k', r) ← sysRead k esp fd call.1 call.2
    let rs ← readAlone k' esp fd calls
    some (r :: rs)

theorem FileOpen.readAlone (calls : List (Bool × Int)) {k : Kernel} {pos : Nat}
    (h : FileOpen k (stackOwner esp) fd inode pos) :
    readAlone k esp fd calls = some (outputs (fileCall k.fs inode) pos calls) := by
  induction calls generalizing k pos with
  | nil => rfl
  | cons call calls ih =>
    obtain ⟨k', hr, hfs, ho⟩ := h.sysRead call.1 call.2
    have hrest := ih ho
    rw [hfs] at hrest
    rw [BasicOs.readAlone, hr, Option.bind_eq_bind, Option.bind_some]
    dsimp only
    rw [hrest, Option.bind_eq_bind, Option.bind_some]
    rfl

/-! ## What the calls leave alone -/

/-- All that a call of `sys_open` that returns can do. -/
theorem sysOpen_some {name : List UInt8} {rate : UInt8} (h : sysOpen k esp name rate = some (k', fd)) :
    (fd = -1 ∧ SameFiles k k') ∨ ∃ (d : Dentry) (fops : Fops), k.fs.lookup name = some d ∧
      freeFd (k.pcbs (stackOwner esp)) = some fd ∧ fopsOf d.filetype = some fops ∧
      SameFiles (k.modifyPcb (stackOwner esp) fun pcb => pcb.modifyFile fd fun _ => openedFile fops d) k' := by
  unfold sysOpen at h
  rw [readDentryByName_eq] at h
  cases hd : k.fs.lookup name with
  | none =>
    rw [hd] at h
    cases h
    exact Or.inl ⟨rfl, rfl, rfl⟩
  | some d =>
    cases hfd : freeFd (k.pcbs (stackOwner esp)) with
    | none =>
      rw [hd, hfd] at h
      cases h
      exact Or.inl ⟨rfl, rfl, rfl⟩
    | some fd' =>
      rw [hd, hfd] at h
      obtain ⟨fops, hfops, h⟩ := Option.map_eq_some_iff.mp h
      obtain ⟨k₁, hopen, hpcbs, hfs⟩ := open_succeeds hd rate hfops
      dsimp only at h
      rw [hopen, if_neg (not_not.mpr rfl)] at h
      cases h
      refine Or.inr ⟨d, fops, rfl, rfl, hfops, hfs, ?_⟩
      unfold Kernel.modifyPcb
      rw [hpcbs]
      rfl

/-- All that a call of `sys_close` can do. -/
theorem sysClose_eq (k : Kernel) (esp fd : Int) : ((sysClose k esp fd).2 ≠ 0 ∧ (sysClose k esp fd).1 = k) ∨
    ((sysClose k esp fd).2 = 0 ∧ (sysClose k esp fd).1 = k.modifyPcb (stackOwner esp) fun pcb =>
      pcb.modifyFile fd fun f => { f with flags := notInUse }) := by
  unfold sysClose
  split_ifs
  · exact Or.inl ⟨show (-1 : Int) ≠ 0 by decide, rfl⟩
  · exact Or.inl ⟨show (-1 : Int) ≠ 0 by decide, rfl⟩
  · exact Or.inl ⟨show (-1 : Int) ≠ 0 by decide, rfl⟩
  · exact Or.inr ⟨rfl, rfl⟩

/-- The entry of a descriptor. -/
def Kernel.entry (k : Kernel) (d : Int × Int) : Files := (k.pcbs d.1).fda d.2

theorem entry_modifyPcb (k : Kernel) (pid fd : Int) (f : Files → Files) (d : Int × Int) (hd : d ≠ (pid, fd)) :
    (k.modifyPcb pid fun pcb => pcb.modifyFile fd f).entry d = k.entry d := by
  unfold Kernel.entry
  by_cases hp : d.1 = pid
  · rw [hp, Kernel.modifyPcb_pcbs_self, modifyFile_fda, if_neg]
    rintro rfl
    exact hd (Prod.ext hp rfl)
  · rw [Kernel.modifyPcb_pcbs_of_ne _ _ hp]

theorem SameFiles.entry (h : SameFiles k k') (d : Int × Int) : k'.entry d = k.entry d := by
  unfold Kernel.entry
  rw [h.2]

theorem sysRead_frame {bufNull : Bool} {nbytes : Int} {r : Int × List UInt8}
    (h : sysRead k esp fd bufNull nbytes = some (k', r)) :
    k'.fs = k.fs ∧ ∀ d, d ≠ (stackOwner esp, fd) → k'.entry d = k.entry d := by
  rcases sysRead_cases h with hk | hf
  · exact ⟨hk.1, fun d _ => hk.entry d⟩
  · rcases fileRead_frame k esp fd nbytes with hk | ⟨pos, hk⟩
    · rw [hf] at hk
      rw [show k' = k from hk]
      exact ⟨rfl, fun _ _ => rfl⟩
    · rw [hf] at hk
      rw [show k' = _ from hk]
      exact ⟨rfl, fun d hd => entry_modifyPcb k _ _ _ d hd⟩

/-! ## All sessions -/

/-- The calls of a session and their results. -/
structure Session where
  name : List UInt8
  calls : List (Bool × Int)
  results : List (Int × List UInt8)

/-- The session of each descriptor, named by pid and number, that is open. -/
abbrev Sessions := Int × Int → Option Session

/-- The observer: an open that succeeds begins a session, reads are added to it, and it ends when the descriptor is
closed or otherwise freed. -/
def noteSession (g : Sessions) (k : Kernel) (e : DescriptorEvent) (_ : Kernel) : Sessions :=
  match e with
  | .open esp name rate =>
    match sysOpen k esp name rate with
    | some (_, fd) => if fd = -1 then g else Function.update g (stackOwner esp, fd) (some ⟨name, [], []⟩)
    | none => g
  | .close esp fd => if (sysClose k esp fd).2 = 0 then Function.update g (stackOwner esp, fd) none else g
  | .read esp fd bufNull nbytes =>
    match sysRead k esp fd bufNull nbytes with
    | some (_, r) => Function.update g (stackOwner esp, fd) ((g (stackOwner esp, fd)).map fun s =>
        { s with calls := s.calls ++ [(bufNull, nbytes)], results := s.results ++ [r] })
    | none => g
  | .write .. => g
  | .other k' => fun d => if (k'.entry d).flags = notInUse then none else g d

/-- Calls of any process. What happens in between leaves the file system alone, and each descriptor from 2 to 7, or
frees it. -/
def CallsApart (k : Kernel) : DescriptorEvent → Prop
  | .other k' => k'.fs = k.fs ∧
      ∀ d : Int × Int, 2 ≤ d.2 → d.2 ≤ 7 → k'.entry d = k.entry d ∨ (k'.entry d).flags = notInUse
  | .open .. | .close .. | .read .. | .write .. => True

/-- What is recorded of a session on the regular file `inode`, and where its descriptor stands. -/
def SessionAlone (k : Kernel) (d : Int × Int) (inode : Nat) (s : Session) : Prop :=
  FileOpen k d.1 d.2 inode (final (fileCall k.fs inode) 0 s.calls) ∧
    s.results = outputs (fileCall k.fs inode) 0 s.calls

/-- Every session on a regular file has gone as it would have alone. -/
def SessionsAlone (fs : FileSystem) (k : Kernel) (g : Sessions) : Prop :=
  k.fs = fs ∧ ∀ d s e, g d = some s → fs.lookup s.name = some e → e.filetype = 2 → SessionAlone k d e.inodeNum s

/-- A session whose descriptor is left alone goes on. -/
theorem SessionAlone.congr {d : Int × Int} {s : Session} (h : SessionAlone k d inode s) (hfs : k'.fs = k.fs)
    (he : k'.entry d = k.entry d) : SessionAlone k' d inode s := by
  unfold SessionAlone
  rw [hfs]
  exact ⟨h.1.congr he, h.2⟩

variable {fs : FileSystem} {g : Sessions}

theorem SessionsAlone.congr (h : SessionsAlone fs k g) (hs : SameFiles k k') : SessionsAlone fs k' g :=
  ⟨hs.1.trans h.1, fun d s e hd he ht => (h.2 d s e hd he ht).congr hs.1 (hs.entry d)⟩

/-- One descriptor changes; its own session is given. -/
theorem SessionsAlone.update (h : SessionsAlone fs k g) (d : Int × Int) (o : Option Session) (hfs : k'.fs = k.fs)
    (hother : ∀ d', d' ≠ d → k'.entry d' = k.entry d')
    (hself : ∀ s e, o = some s → fs.lookup s.name = some e → e.filetype = 2 → SessionAlone k' d e.inodeNum s) :
    SessionsAlone fs k' (Function.update g d o) := by
  refine ⟨hfs.trans h.1, fun d' s e hd he ht => ?_⟩
  by_cases hdd : d' = d
  · subst hdd
    rw [Function.update_self] at hd
    exact hself s e hd he ht
  · rw [Function.update_of_ne hdd] at hd
    exact (h.2 d' s e hd he ht).congr hfs (hother d' hdd)

theorem SessionsAlone.opened (h : SessionsAlone fs k g) {name : List UInt8} {rate : UInt8}
    (ho : sysOpen k esp name rate = some (k', fd)) (hfd : fd ≠ -1) :
    SessionsAlone fs k' (Function.update g (stackOwner esp, fd) (some ⟨name, [], []⟩)) := by
  rcases sysOpen_some ho with ⟨hneg, -⟩ | ⟨d, fops, hd, hfree, hfops, hfs, hpcbs⟩
  · exact absurd hneg hfd
  refine h.update _ _ hfs (fun d' hd' => ?_) fun s e hs he ht => ?_
  · exact (SameFiles.entry ⟨hfs, hpcbs⟩ d').trans (entry_modifyPcb k _ _ _ d' hd')
  · cases hs
    rw [← h.1, hd] at he
    cases he
    rw [ht] at hfops
    cases hfops
    refine ⟨⟨(freeFd_eq_some hfree).1, ?_⟩, rfl⟩
    rw [hpcbs, Kernel.modifyPcb_pcbs_self, modifyFile_fda, if_pos rfl]
    rfl

theorem SessionsAlone.read (h : SessionsAlone fs k g) {bufNull : Bool} {nbytes : Int} {r : Int × List UInt8}
    (hr : sysRead k esp fd bufNull nbytes = some (k', r)) :
    SessionsAlone fs k' (Function.update g (stackOwner esp, fd) ((g (stackOwner esp, fd)).map fun s =>
      { s with calls := s.calls ++ [(bufNull, nbytes)], results := s.results ++ [r] })) := by
  obtain ⟨hfs, hother⟩ := sysRead_frame hr
  apply h.update _ _ hfs hother
  intro s e hs he ht
  obtain ⟨s₀, hs₀, rfl⟩ := Option.map_eq_some_iff.mp hs
  obtain ⟨hopen, hres⟩ := h.2 _ s₀ e hs₀ he ht
  obtain ⟨k₁, hread, hfs₁, hopen₁⟩ := hopen.sysRead bufNull nbytes
  rw [hr] at hread
  cases hread
  unfold SessionAlone
  rw [hfs]
  dsimp only
  rw [final_concat, outputs_concat, hres]
  exact ⟨hopen₁, rfl⟩

/-- Every event, of whatever process, keeps the sessions as they would be alone. -/
theorem SessionsAlone.step (h : SessionsAlone fs k g) {e : DescriptorEvent} (ha : CallsApart k e)
    (hs : descriptorStep k e = some k') : SessionsAlone fs k' (noteSession g k e k') := by
  cases e with
  | «open» esp name rate =>
    obtain ⟨⟨k₁, fd⟩, ho, rfl⟩ := Option.map_eq_some_iff.mp hs
    simp only [noteSession, ho]
    by_cases hfd : fd = -1
    · rw [if_pos hfd]
      rcases sysOpen_some ho with ⟨-, hsame⟩ | ⟨d, fops, -, hfree, -⟩
      · exact h.congr hsame
      · have := (freeFd_eq_some hfree).1
        omega
    · rw [if_neg hfd]
      exact h.opened ho hfd
  | close esp fd =>
    cases hs
    simp only [noteSession]
    rcases sysClose_eq k esp fd with ⟨hv, hk⟩ | ⟨hv, hk⟩
    · rw [if_neg hv, hk]
      exact h
    · rw [if_pos hv, hk]
      exact h.update _ _ rfl (fun d hd => entry_modifyPcb k _ _ _ d hd) fun s e hs => (nomatch hs)
  | read esp fd bufNull nbytes =>
    obtain ⟨⟨k₁, r⟩, hr, rfl⟩ := Option.map_eq_some_iff.mp hs
    simp only [noteSession, hr]
    exact h.read hr
  | write esp fd buf nbytes rate =>
    cases hs
    exact h.congr (sysWrite_sameFiles k esp fd buf nbytes rate)
  | other k₁ =>
    cases hs
    refine ⟨ha.1.trans h.1, fun d s e hd he ht => ?_⟩
    simp only [noteSession] at hd
    split_ifs at hd with hfree
    have hsess := h.2 d s e hd he ht
    rcases ha.2 d hsess.1.1.1 hsess.1.1.2 with hsame | hnot
    · exact hsess.congr ha.1 hsame
    · exact absurd hnot hfree

/-- A process that has nothing open gets descriptor 2. -/
theorem sysOpen_fresh (k : Kernel) (esp : Int) (args name : List UInt8) (rate : UInt8) {d : Dentry}
    (hd : k.fs.lookup name = some d) (htype : d.filetype = 2) :
    ∃ k', sysOpen (initPcb k (stackOwner esp) args) esp name rate = some (k', 2) := by
  have hrep := initPcb_represents k (stackOwner esp) args
  have hfree : freeFd ((initPcb k (stackOwner esp) args).pcbs (stackOwner esp)) = some 2 := by
    have h2 : (((initPcb k (stackOwner esp) args).pcbs (stackOwner esp)).fda 2).flags = notInUse :=
      hrep.entry 2 (by decide) (by decide)
    unfold freeFd
    rw [List.find?_cons_of_pos (by rw [h2]; decide)]
  have hlookup : (initPcb k (stackOwner esp) args).fs.lookup name = some d := hd
  have hle : ∀ e, (initPcb k (stackOwner esp) args).fs.lookup name = some e → e.filetype ≤ 2 := by
    intro e he
    rw [hlookup] at he
    cases he
    omega
  rcases sysOpen_cases esp rate hle with ⟨hfail, -⟩ | ⟨d', fd', fops, k', -, hfd', -, -, -, ho⟩
  · rw [hlookup, hfree] at hfail
    exact (hfail.elim nofun nofun)
  · rw [hfree] at hfd'
    cases hfd'
    exact ⟨_, ho⟩

/-- **Non-interference of sessions.** In every run of calls of any processes, with anything in between that leaves
open descriptors alone or frees them, the results of a session on a regular file are those of the same calls run
alone: after the same file is opened on any other kernel with the image, in whatever slot, and in particular by a
process that has nothing else open. -/
theorem sessions_independent {k₀ : Kernel}
    (h : Reach (observed descriptorStep noteSession) (fun p e => CallsApart p.1 e) (k₀, fun _ => none) (k, g))
    {d : Int × Int} {s : Session} {e : Dentry} (hs : g d = some s) (he : k₀.fs.lookup s.name = some e)
    (htype : e.filetype = 2) :
    (∀ k₁ esp rate k₂ fd, k₁.fs = k₀.fs → sysOpen k₁ esp s.name rate = some (k₂, fd) → fd ≠ -1 →
      readAlone k₂ esp fd s.calls = some s.results) ∧
    ∀ k₁ esp args rate, k₁.fs = k₀.fs →
      ∃ k₂, sysOpen (initPcb k₁ (stackOwner esp) args) esp s.name rate = some (k₂, 2) ∧
        readAlone k₂ esp 2 s.calls = some s.results := by
  have hinv : SessionsAlone k₀.fs k g := by
    apply h.invariant (I := fun p => SessionsAlone k₀.fs p.1 p.2) ⟨rfl, fun _ _ _ h => (nomatch h)⟩
    intro p e q hi hok hs
    obtain ⟨hstep, hg⟩ := observed_eq_some.mp hs
    rw [hg]
    exact hi.step hok hstep
  have hres := (hinv.2 d s e hs he htype).2
  rw [hinv.1] at hres
  have halone : ∀ k₁ esp rate k₂ fd, k₁.fs = k₀.fs → sysOpen k₁ esp s.name rate = some (k₂, fd) → fd ≠ -1 →
      readAlone k₂ esp fd s.calls = some s.results := by
    intro k₁ esp rate k₂ fd hfs ho hfd
    have hnone : SessionsAlone k₀.fs k₁ fun _ => none := ⟨hfs, fun _ _ _ h => (nomatch h)⟩
    have hopened := hnone.opened ho hfd
    have hopen := (hopened.2 _ _ e (Function.update_self _ _ _) he htype).1
    rw [hopen.readAlone s.calls, hopened.1, hres]
    rfl
  refine ⟨halone, fun k₁ esp args rate hfs => ?_⟩
  obtain ⟨k₂, ho⟩ := sysOpen_fresh k₁ esp args s.name rate (hfs ▸ he) htype
  exact ⟨k₂, ho, halone (initPcb k₁ (stackOwner esp) args) esp rate k₂ 2 hfs ho (by decide)⟩

/-- Process 3 reads `shell` again in a slot it has used before, while process 4 reads the same file. -/
def twoReaders : List DescriptorEvent :=
  [.open (kernelStackBase 3 - 64) shellName 0, .read (kernelStackBase 3 - 64) 2 false 8,
   .close (kernelStackBase 3 - 64) 2, .open (kernelStackBase 4 - 64) shellName 0,
   .open (kernelStackBase 3 - 64) shellName 0, .read (kernelStackBase 4 - 64) 2 false 12,
   .read (kernelStackBase 3 - 64) 2 false 4, .read (kernelStackBase 4 - 64) 2 false 4,
   .read (kernelStackBase 3 - 64) 2 false 24]

/-- The check that the events are calls. -/
def isCall (_ : Kernel × Sessions) : DescriptorEvent → Bool
  | .open .. | .close .. | .read .. | .write .. => true
  | .other _ => false

theorem isCall_sound (p : Kernel × Sessions) (e : DescriptorEvent) (h : isCall p e = true) : CallsApart p.1 e := by
  cases e with
  | other k' => cases h
  | «open» | close | read | write => trivial

/-- The sessions after the two readers' calls. -/
def twoReadersRun : Option (Kernel × Sessions) :=
  twoReaders.foldlM (fun p e => if isCall p e = true then observed descriptorStep noteSession p e else none)
    (initPcb (initPcb (Kernel.atLoad shellImage) 3 []) 4 [], fun _ => none)

/-- The second session of process 3 there, as it would be alone. -/
theorem sessions_independent_two : ∃ k g s, twoReadersRun = some (k, g) ∧ g (3, 2) = some s ∧
    s.calls = [(false, 4), (false, 24)] ∧
    ∃ k₂, sysOpen (initPcb (Kernel.atLoad shellImage) 3 []) (kernelStackBase 3 - 64) shellName 0 = some (k₂, 2) ∧
      readAlone k₂ (kernelStackBase 3 - 64) 2 [(false, 4), (false, 24)] = some s.results := by
  have hrun : (twoReadersRun.bind fun p => (p.2 (3, 2)).map fun s => (s.name, s.calls)) =
      some (shellName, [(false, 4), (false, 24)]) := by decide +kernel
  obtain ⟨⟨k, g⟩, hrun, hsess⟩ := Option.bind_eq_some_iff.mp hrun
  obtain ⟨s, hs, hcalls⟩ := Option.map_eq_some_iff.mp hsess
  obtain ⟨hname, hcalls⟩ := Prod.ext_iff.mp hcalls
  dsimp only at hs hname hcalls
  have hreach : Reach (observed descriptorStep noteSession) (fun p e => CallsApart p.1 e)
      (initPcb (initPcb (Kernel.atLoad shellImage) 3 []) 4 [], fun _ => none) (k, g) :=
    Reach.of_foldlM isCall isCall_sound twoReaders (.refl _) hrun
  have hlookup : shellImage.lookup s.name = some shellDentry := by
    rw [hname]
    exact shellProcess_lookup
  have halone := (sessions_independent hreach hs hlookup shellDentry_filetype).2 (Kernel.atLoad shellImage)
    (kernelStackBase 3 - 64) [] 0 rfl
  rw [hname, hcalls] at halone
  exact ⟨k, g, s, hrun, hs, hcalls, halone⟩

end BasicOs
