import BasicOs.CommandLine
import BasicOs.Directory
import BasicOs.Interference
import BasicOs.Lib.Client
import BasicOs.ProcessStacks

/-!
# A program in company runs as it runs alone

What a program sees of the system through its calls is its arguments, its descriptors, the file system and the screen
of its terminal. Alone, each answer is a function of that.

* `View`, `View.call fs` : what a program sees, and the calls on it, for a file system that does not change;
* `Sees k pid t w` : to process `pid` on terminal `t`, the kernel looks like the view `w`;
* `makes_screen` : the screen after some calls is a matter of what they have put out;
* `Sees.call` : what the kernel answers is what the view answers.
-/

namespace BasicOs
open Run FileSystem Bytes

/-! ## What a program sees -/

/-- An open descriptor: the directory entry it was opened on, and the position. -/
structure OpenFile where
  dentry : Dentry
  pos : Nat

/-- What a process sees. The index of the directory reads is part of it only when nobody else makes such reads. -/
structure View where
  args : List UInt8
  files : Int → Option OpenFile
  screen : LoneScreen
  index : Option Nat

/-- A system call, with what the kernel finds at its pointers. -/
inductive Call
  | open (filename : List UInt8)
  | close (fd : Int)
  | read (fd nbytes : Int)
  | write (fd : Int) (buf : Option (Nat → UInt8)) (nbytes : Int)
  | getargs (nbytes : Int)

/-- The value returned, and the bytes stored into the caller's buffer. -/
abbrev Answer := Int × List UInt8

/-- The screen after the characters of `text`. -/
def typed (s : LoneScreen) (text : List UInt8) : LoneScreen := text.foldl (fun s c => loneStep s (.putc c)) s

/-- A process that has just been started. -/
def View.initial (args : List UInt8) (screen : LoneScreen) (index : Option Nat) : View :=
  { args := args, files := fun _ => none, screen := screen, index := index }

/-- The descriptor that is opened next. -/
def View.free (w : View) : Option Int := [2, 3, 4, 5, 6, 7].find? fun fd => (w.files fd).isNone

/-- What is open. -/
def View.file (w : View) (fd : Int) : Option OpenFile := if 2 ≤ fd ∧ fd ≤ 7 then w.files fd else none

def View.setFile (w : View) (fd : Int) (o : Option OpenFile) : View :=
  { w with files := Function.update w.files fd o }

def View.open (fs : FileSystem) (w : View) (filename : List UInt8) : View × Answer :=
  match fs.lookup filename, w.free with
  | some d, some fd => (w.setFile fd (some ⟨d, 0⟩), fd, [])
  | _, _ => (w, -1, [])

def View.close (w : View) (fd : Int) : View × Answer :=
  match w.file fd with
  | some _ => (w.setFile fd none, 0, [])
  | none => (w, -1, [])

/-- `none` for the terminal, where the answer is what somebody types, and for a directory that others read. -/
def View.read (fs : FileSystem) (w : View) (fd nbytes : Int) : Option (View × Answer) :=
  if fd = 0 then none
  else
    match w.file fd with
    | none => some (w, -1, [])
    | some f =>
      if f.dentry.filetype = 0 then some (w, 0, [])
      else if f.dentry.filetype = 1 then
        w.index.map fun i => ({ w with index := some (nextIndex fs i) }, listing fs i)
      else
        let r := fileCall fs f.dentry.inodeNum f.pos (false, nbytes)
        some (w.setFile fd (some { f with pos := r.1 }), r.2)

def View.write (w : View) (fd : Int) (buf : Option (Nat → UInt8)) (nbytes : Int) : View × Answer :=
  match buf with
  | none => (w, -1, [])
  | some b =>
    if fd = 1 then
      if nbytes ≤ 0 then (w, -1, [])
      else ({ w with screen := typed w.screen (bytesAt b nbytes.toNat) }, nbytes, [])
    else
      match w.file fd with
      | none => (w, -1, [])
      | some f =>
        let frequency := i32 (load32 b 0)
        if f.dentry.filetype = 0 ∧ ¬ (frequency < 2 ∨ frequency > 1024) then (w, 0, []) else (w, -1, [])

def View.getargs (w : View) (nbytes : Int) : Answer :=
  if w.args = [] ∨ nbytes ≤ 0 then (-1, []) else (0, bytesAt (ofList (w.args.take nbytes.toNat)) nbytes.toNat)

/-- What a call is answered, and what it changes. -/
def View.call (fs : FileSystem) (w : View) : Call → Option (View × Answer)
  | .open filename => some (w.open fs filename)
  | .close fd => some (w.close fd)
  | .read fd nbytes => w.read fs fd nbytes
  | .write fd buf nbytes => some (w.write fd buf nbytes)
  | .getargs nbytes => some (w, w.getargs nbytes)

/-- The characters that a call puts on the screen. -/
def Call.output : Call → List UInt8
  | .write fd (some buf) nbytes => if fd = 1 ∧ 0 < nbytes then bytesAt buf nbytes.toNat else []
  | .write _ none _ | .open _ | .close _ | .read .. | .getargs _ => []

theorem typed_append (s : LoneScreen) (a b : List UInt8) : typed s (a ++ b) = typed (typed s a) b := List.foldl_append

theorem View.call_screen {fs : FileSystem} {w w' : View} {c : Call} {b : Answer} (h : w.call fs c = some (w', b)) :
    w'.screen = typed w.screen c.output := by
  cases c with
  | «open» filename =>
    obtain ⟨rfl, -⟩ := Prod.ext_iff.mp (Option.some.inj h)
    unfold View.open
    split <;> rfl
  | close fd =>
    obtain ⟨rfl, -⟩ := Prod.ext_iff.mp (Option.some.inj h)
    unfold View.close
    split <;> rfl
  | read fd nbytes =>
    have hread : w.read fs fd nbytes = some (w', b) := h
    unfold View.read at hread
    split_ifs at hread
    split at hread
    · cases hread
      rfl
    · split_ifs at hread
      · cases hread
        rfl
      · obtain ⟨i, -, hread⟩ := Option.map_eq_some_iff.mp hread
        cases hread
        rfl
      · cases hread
        rfl
  | write fd buf nbytes =>
    obtain ⟨rfl, -⟩ := Prod.ext_iff.mp (Option.some.inj h)
    unfold View.write Call.output
    cases buf with
    | none => rfl
    | some b =>
      dsimp only
      by_cases h1 : fd = 1
      · by_cases hn : nbytes ≤ 0
        · rw [if_pos h1, if_pos hn, if_neg (by omega)]
          rfl
        · rw [if_pos h1, if_neg hn, if_pos ⟨h1, by omega⟩]
      · rw [if_neg h1, if_neg (by tauto)]
        split
        · rfl
        · split_ifs <;> rfl
  | getargs nbytes =>
    obtain ⟨rfl, -⟩ := Prod.ext_iff.mp (Option.some.inj h)
    rfl

/-- How many bytes a call may store into the buffer that it is given. -/
def Call.room : Call → Nat
  | .read _ nbytes => max (nbytes % 2 ^ 32).toNat filenameLen
  | .getargs nbytes => nbytes.toNat
  | .open _ | .close _ | .write .. => 0

theorem readLoop_length_le (fs : FileSystem) (inode offset : Nat) : ∀ (left b : Nat) (c : Cursor),
    (fs.readLoop inode offset left b c).2.length ≤ left
  | 0, _, _ => Nat.le_refl 0
  | left + 1, b, c => by
    rw [readLoop]
    dsimp only
    split_ifs
    · simp
    · exact Nat.succ_le_succ (readLoop_length_le fs inode offset left (b + 1) _)

theorem fileCall_length_le (fs : FileSystem) (inode pos : Nat) (nbytes : Int) :
    (fileCall fs inode pos (false, nbytes)).2.2.length ≤ (nbytes % 2 ^ 32).toNat := by
  unfold fileCall readData
  dsimp only
  split_ifs
  all_goals first | exact Nat.zero_le _ | exact readLoop_length_le ..

theorem View.call_length_le {fs : FileSystem} {w w' : View} {c : Call} {b : Answer} (h : w.call fs c = some (w', b)) :
    b.2.length ≤ c.room := by
  cases c with
  | «open» filename =>
    obtain ⟨-, rfl⟩ := Prod.ext_iff.mp (Option.some.inj h)
    unfold View.open
    split <;> exact Nat.zero_le _
  | close fd =>
    obtain ⟨-, rfl⟩ := Prod.ext_iff.mp (Option.some.inj h)
    unfold View.close
    split <;> exact Nat.zero_le _
  | read fd nbytes =>
    have hread : w.read fs fd nbytes = some (w', b) := h
    unfold View.read at hread
    split_ifs at hread
    split at hread
    · cases hread
      exact Nat.zero_le _
    · split_ifs at hread
      · cases hread
        exact Nat.zero_le _
      · obtain ⟨i, -, hread⟩ := Option.map_eq_some_iff.mp hread
        cases hread
        refine (?_ : (listing fs i).2.length ≤ filenameLen).trans (Nat.le_max_right _ _)
        unfold listing
        split_ifs
        · exact (cstr_length_le _).trans (fs.filename_length i).le
        · exact Nat.zero_le _
      · cases hread
        exact (fileCall_length_le ..).trans (Nat.le_max_left _ _)
  | write fd buf nbytes =>
    obtain ⟨-, rfl⟩ := Prod.ext_iff.mp (Option.some.inj h)
    unfold View.write
    split
    · exact Nat.zero_le _
    · split_ifs
      · exact Nat.zero_le _
      · exact Nat.zero_le _
      · split
        · exact Nat.zero_le _
        · dsimp only
          split_ifs <;> exact Nat.zero_le _
  | getargs nbytes =>
    obtain ⟨-, rfl⟩ := Prod.ext_iff.mp (Option.some.inj h)
    unfold View.getargs
    split_ifs
    · exact Nat.zero_le _
    · simp [bytesAt, Call.room]

/-- The screen after some calls. -/
theorem makes_screen {fs : FileSystem} {σ : Type} {P : Client.Program σ Call Answer} {p q : View × σ} {cs : List Call}
    (h : Client.Makes (View.call fs) P p cs q) : q.1.screen = typed p.1.screen (cs.flatMap Call.output) := by
  induction h with
  | done p => rfl
  | call hc hs _ ih =>
    rw [ih, View.call_screen hs, List.flatMap_cons, typed_append]

/-! ## The calls of the kernel -/

/-- The call, made on the stack at `esp`; `buf` is where the caller's buffer is. -/
def Call.action (esp : Int) (buf : Nat) (rate : UInt8) : Call → Action
  | .open filename => .open esp filename rate
  | .close fd => .close esp fd
  | .read fd nbytes => .read esp fd buf nbytes
  | .write fd b nbytes => .write esp fd b nbytes rate
  | .getargs nbytes => .getargs esp buf nbytes

/-- The call that an action makes, and what the kernel answers; `none` where it does not come back. -/
def Action.exchange (k : Kernel) : Action → Option (Call × Answer)
  | .open esp filename rate => (sysOpen k esp filename rate).map fun q => (.open filename, q.2, [])
  | .close esp fd => some (.close fd, (sysClose k esp fd).2, [])
  | .read esp fd _ nbytes => (sysRead k esp fd false nbytes).map fun q => (.read fd nbytes, q.2)
  | .write esp fd buf nbytes rate => some (.write fd buf nbytes, (sysWrite k esp fd buf nbytes rate).2, [])
  | .getargs esp _ nbytes => some (.getargs nbytes, sysGetargs k esp false nbytes)
  | .event _ | .rtc | .exception .. | .store .. => none

/-- What the running process asks, if it is `pid`. -/
def exchange (pid : Int) (k : Kernel) (a : Action) : Option (Call × Answer) :=
  if k.currPid = pid then a.exchange k else none

/-- To process `pid` on terminal `t`, the kernel looks like the view `w`. -/
structure Sees (k : Kernel) (pid : Int) (t : Fin 3) (w : View) : Prop where
  args : cstr (k.pcbs pid).args = w.args
  files : Represents (k.pcbs pid) fun fd => (w.files fd).map OpenFile.dentry
  pos : ∀ fd f, w.files fd = some f → ((k.pcbs pid).fda fd).filePosition = f.pos
  screen : Shows k t w.screen
  index : ∀ i, w.index = some i → k.globalFileIndex = i

/-- Every cursor is on its screen, and the backup pages are in place. -/
structure AllOnGrid (k : Kernel) : Prop where
  shows : ∀ u, ∃ s, Shows k u s
  backups : BackupsSet k

variable {k k' : Kernel} {pid : Int} {t : Fin 3} {w : View}

/-! ## Screens that stay -/

/-- No screen changes. -/
structure SameScreens (k k' : Kernel) : Prop where
  currTerm : k'.currTerm = k.currTerm
  videoMem : k'.videoMem = k.videoMem
  cursors : ∀ u, ((k'.terminals u).termX = (k.terminals u).termX ∧ (k'.terminals u).termY = (k.terminals u).termY) ∧
    (k'.terminals u).vidmem = (k.terminals u).vidmem

theorem SameScreens.of_tty (h : k'.toTty = k.toTty) : SameScreens k k' where
  currTerm := congrArg Tty.currTerm h
  videoMem := congrArg Tty.videoMem h
  cursors u := by
    have hterm : k'.terminals = k.terminals := congrArg Tty.terminals h
    rw [hterm]
    exact ⟨⟨rfl, rfl⟩, rfl⟩

theorem SameScreens.trans {k₁ k₂ k₃ : Kernel} (h₁ : SameScreens k₁ k₂) (h₂ : SameScreens k₂ k₃) :
    SameScreens k₁ k₃ where
  currTerm := h₂.currTerm.trans h₁.currTerm
  videoMem := h₂.videoMem.trans h₁.videoMem
  cursors u := ⟨⟨(h₂.cursors u).1.1.trans (h₁.cursors u).1.1, (h₂.cursors u).1.2.trans (h₁.cursors u).1.2⟩,
    (h₂.cursors u).2.trans (h₁.cursors u).2⟩

theorem SameScreens.shows (h : SameScreens k k') {u : Fin 3} {s : LoneScreen} (hs : Shows k u s) : Shows k' u s where
  x_eq := (h.cursors u).1.1.trans hs.x_eq
  y_eq := (h.cursors u).1.2.trans hs.y_eq
  cells_eq := by
    rw [h.videoMem, logicalPage, h.currTerm]
    exact hs.cells_eq

theorem SameScreens.allOnGrid (h : SameScreens k k') (hg : AllOnGrid k) : AllOnGrid k' where
  shows u := by
    obtain ⟨s, hs⟩ := hg.shows u
    exact ⟨s, h.shows hs⟩
  backups u := (h.cursors u).2.trans (hg.backups u)

/-- Output to one terminal keeps all of them on the grid. -/
theorem AllOnGrid.confined (hg : AllOnGrid k) {u : Fin 3} (h : Confined u k k') {s : LoneScreen} (hs : Shows k' u s) :
    AllOnGrid k' where
  shows v := by
    by_cases hv : v = u
    · exact ⟨s, hv ▸ hs⟩
    · obtain ⟨s', hs'⟩ := hg.shows v
      exact ⟨s', h.shows hv hs'⟩
  backups := h.backupsSet hg.backups

theorem AllOnGrid.switchTerminals (hg : AllOnGrid k) (n : Fin 3) : AllOnGrid (switchTerminals k n) where
  shows u := by
    obtain ⟨s, hs⟩ := hg.shows u
    exact ⟨s, switchTerminals_shows hg.backups u hs⟩
  backups u := by
    rw [switchTerminals_terminals]
    exact hg.backups u

/-! ## Output -/

/-- What `terminal_write` puts on the scheduled terminal. -/
theorem terminalWrite_shows (b : Nat → UInt8) {s : LoneScreen} (hs : Shows k k.scheduledProcess s) (n : Nat) :
    let k' := Run.forUp 0 n (fun i k => if b i ≠ 0 then putc k (b i) k.scheduledProcess else k) k
    Shows k' k.scheduledProcess (typed s (bytesAt b n)) ∧ Confined k.scheduledProcess k k' ∧
      k'.scheduledProcess = k.scheduledProcess := by
  induction n with
  | zero => exact ⟨hs, .refl _ _, rfl⟩
  | succ n ih =>
    intro k'
    have hlast : typed s (bytesAt b (n + 1)) = loneStep (typed s (bytesAt b n)) (.putc (b n)) := by
      unfold typed bytesAt
      rw [List.range_succ, List.map_append, List.foldl_append]
      rfl
    obtain ⟨hshows, hconf, hsched⟩ := ih
    have hk' : k' = _ := forUp_succ_last _ n 0 k
    rw [Nat.zero_add] at hk'
    generalize Run.forUp 0 n (fun i k => if b i ≠ 0 then putc k (b i) k.scheduledProcess else k) k = k₁ at *
    rw [hk', hlast, hsched]
    split_ifs with h0
    · obtain ⟨_, he, -⟩ := putc_screenOnly k₁ (b n) k.scheduledProcess
      refine ⟨putc_shows hshows (b n), hconf.trans (putc_confined hshows (b n)), ?_⟩
      rw [he]
      exact hsched
    · rw [not_not.mp h0]
      exact ⟨hshows, hconf, hsched⟩

/-! ## Memory of programs -/

theorem userStore_page {a : Nat} (ha : a < one32Mb) (c : UInt8) :
    ∃ userMem, userStore k a c = { k with userMem := userMem } := ⟨_, if_pos ha⟩

/-- What a call stores into a buffer in the caller's page. -/
theorem copyOut_page {buf : Nat} {bytes : List UInt8} (h : InPage buf bytes) :
    ∃ userMem, copyOut k buf bytes = { k with userMem := userMem } := by
  have hend : ∀ p ∈ bytes.zipIdx, buf + p.2 < one32Mb := by
    rintro ⟨c, i⟩ hp
    have hlt := List.snd_lt_of_mem_zipIdx hp
    have := h.2
    dsimp only at hlt ⊢
    omega
  unfold copyOut
  generalize bytes.zipIdx = ps at hend
  induction ps generalizing k with
  | nil => exact ⟨k.userMem, rfl⟩
  | cons p ps ih =>
    obtain ⟨_, hstore⟩ := @userStore_page k _ (hend p List.mem_cons_self) p.1
    rw [List.foldl_cons, hstore]
    obtain ⟨_, hrest⟩ := @ih { k with userMem := _ } fun q hq => hend q (List.mem_cons_of_mem p hq)
    exact ⟨_, hrest⟩

/-! ## The answers -/

/-- The view is the same when nothing that it shows has changed. -/
theorem Sees.congr (h : Sees k pid t w) (hfda : (k'.pcbs pid).fda = (k.pcbs pid).fda)
    (hargs : (k'.pcbs pid).args = (k.pcbs pid).args) (hscreen : Shows k' t w.screen)
    (hindex : w.index.isSome → k'.globalFileIndex = k.globalFileIndex) : Sees k' pid t w where
  args := by
    rw [hargs]
    exact h.args
  files := h.files.same fun i => by
    rw [hfda]
    exact ⟨rfl, rfl, rfl⟩
  pos fd f hf := by
    rw [hfda]
    exact h.pos fd f hf
  screen := hscreen
  index i hi := (hindex (by rw [hi]; rfl)).trans (h.index i hi)

/-- The kernel finds the same free descriptor. -/
theorem Sees.freeFd (h : Sees k pid t w) : freeFd (k.pcbs pid) = w.free := by
  unfold BasicOs.freeFd View.free
  refine List.find?_congr fun fd hfd => ?_
  obtain ⟨h2, h7⟩ := mem_fds.mp hfd
  have hentry := h.files.entry fd h2 h7
  cases ho : w.files fd with
  | none =>
    rw [ho] at hentry
    exact decide_eq_true hentry
  | some f =>
    rw [ho] at hentry
    have hflags : ((k.pcbs pid).fda fd).flags = inUse := hentry.1
    rw [hflags]
    rfl

/-- The entry of an open descriptor. -/
theorem Sees.entry (h : Sees k pid t w) {fd : Int} {f : OpenFile} (hf : w.file fd = some f) :
    (2 ≤ fd ∧ fd ≤ 7) ∧ ∃ fops, fopsOf f.dentry.filetype = some fops ∧ (k.pcbs pid).fda fd =
      { fopsPtr := fops, inode := f.dentry.inodeNum, filePosition := f.pos, flags := inUse } := by
  unfold View.file at hf
  split_ifs at hf with hr
  have hentry := h.files.entry fd hr.1 hr.2
  have hpos := h.pos fd f hf
  rw [hf] at hentry
  obtain ⟨hflags, hfops, hinode⟩ := hentry
  exact ⟨hr, _, hfops, by rw [← hpos, ← hflags, ← hinode]⟩

/-- The entry of a descriptor that is not open. -/
theorem Sees.closed (h : Sees k pid t w) {fd : Int} (hf : w.file fd = none) (h2 : 2 ≤ fd) (h7 : fd ≤ 7) :
    ((k.pcbs pid).fda fd).flags = notInUse := by
  have hentry := h.files.entry fd h2 h7
  unfold View.file at hf
  rw [if_pos ⟨h2, h7⟩] at hf
  rw [hf] at hentry
  exact hentry

/-- One descriptor changes. -/
theorem Sees.modifyFile (h : Sees k pid t w) {fd : Int} (h2 : 2 ≤ fd) (f : Files → Files) {o : Option OpenFile}
    (hentry : EntryFor (f ((k.pcbs pid).fda fd)) (o.map OpenFile.dentry))
    (hpos : ∀ g, o = some g → (f ((k.pcbs pid).fda fd)).filePosition = g.pos)
    (hpcbs : k'.pcbs pid = (k.pcbs pid).modifyFile fd f) (hscreen : Shows k' t w.screen)
    (hindex : w.index.isSome → k'.globalFileIndex = k.globalFileIndex) : Sees k' pid t (w.setFile fd o) where
  args := by
    rw [hpcbs]
    exact h.args
  files := by
    have hmap : (fun i => ((w.setFile fd o).files i).map OpenFile.dentry) =
        Function.update (fun i => (w.files i).map OpenFile.dentry) fd (o.map OpenFile.dentry) := by
      funext i
      unfold View.setFile
      dsimp only
      rw [Function.update_apply, Function.update_apply]
      split_ifs
      · rfl
      · rfl
    rw [hpcbs, hmap]
    exact h.files.modifyFile h2 f hentry
  pos i g hg := by
    unfold View.setFile at hg
    dsimp only at hg
    rw [hpcbs, modifyFile_fda]
    rw [Function.update_apply] at hg
    split_ifs with hi
    · rw [if_pos hi] at hg
      exact hpos g hg
    · rw [if_neg hi] at hg
      exact h.pos i g hg
  screen := hscreen
  index i hi := (hindex (by
    have : w.index = some i := hi
    rw [this]
    rfl)).trans (h.index i hi)

/-! ## What the calls leave of screens and of the index -/

theorem fopsOpen_toTty (k : Kernel) (filename : List UInt8) (rate : UInt8) (fops : Fops) :
    (fops.open k filename rate).1.toTty = k.toTty := by
  cases fops with
  | rtcTable =>
    obtain ⟨_, h⟩ := setRtcFrequency_devicesOnly k 2 rate
    unfold Fops.open rtcOpen
    dsimp only
    rw [h]
  | filesysTable =>
    unfold Fops.open
    dsimp only
    split
    · rfl
    · rfl
  | filedirTable | stdInTable | stdOutTable | badTable => rfl

theorem sysOpen_toTty {esp v : Int} {filename : List UInt8} {rate : UInt8}
    (h : sysOpen k esp filename rate = some (k', v)) : k'.toTty = k.toTty := by
  unfold sysOpen at h
  split at h
  · cases h
    rfl
  · split at h
    · cases h
      rfl
    · obtain ⟨fops, -, h⟩ := Option.map_eq_some_iff.mp h
      have hopen := fopsOpen_toTty k filename rate fops
      dsimp only at h
      split_ifs at h
      · cases h
        exact hopen
      · cases h
        exact hopen

theorem sysClose_toTty (k : Kernel) (esp fd : Int) : (sysClose k esp fd).1.toTty = k.toTty := by
  obtain ⟨_, h, -⟩ := sysClose_frame k esp fd
  rw [h]

theorem terminalRead_sameScreens {bufNull : Bool} {nbytes : Int} {r : Answer}
    (h : terminalRead k bufNull nbytes = some (k', r)) : SameScreens k k' ∧ k'.toFileVars = k.toFileVars := by
  have hread : k' = k ∨ k' = (clearKeyboardBuf k k.scheduledProcess).modifyTerm k.scheduledProcess
      fun t => { t with keyFlag := 0 } := by
    unfold terminalRead at h
    dsimp only at h
    split_ifs at h <;> (cases h; first | exact Or.inl rfl | exact Or.inr rfl)
  rcases hread with rfl | rfl
  · exact ⟨.of_tty rfl, rfl⟩
  · refine ⟨⟨rfl, rfl, fun u => ?_⟩, rfl⟩
    by_cases hu : u = k.scheduledProcess
    · rw [hu, Kernel.modifyTerm_terminals_self, clearKeyboardBuf, Kernel.modifyTerm_terminals_self]
      exact ⟨⟨rfl, rfl⟩, rfl⟩
    · rw [Kernel.modifyTerm_terminals_of_ne _ _ hu, clearKeyboardBuf, Kernel.modifyTerm_terminals_of_ne _ _ hu]
      exact ⟨⟨rfl, rfl⟩, rfl⟩

/-- Reads change no screen, and the index only through a directory. -/
theorem sysRead_sameScreens {esp fd nbytes : Int} {bufNull : Bool} {r : Answer}
    (h : sysRead k esp fd bufNull nbytes = some (k', r)) : SameScreens k k' ∧
      (¬ DirOpen k (stackOwner esp) fd → k'.globalFileIndex = k.globalFileIndex) := by
  have hsame : SameScreens k k ∧ (¬ DirOpen k (stackOwner esp) fd → k.globalFileIndex = k.globalFileIndex) :=
    ⟨.of_tty rfl, fun _ => rfl⟩
  unfold sysRead at h
  split_ifs at h with hfd hnull huse
  · cases h
    exact hsame
  · cases h
    exact hsame
  · cases h
    exact hsame
  · cases hf : ((k.pcbs (stackOwner esp)).fda fd).fopsPtr <;> rw [hf] at h <;> simp only [Fops.read] at h
    case stdInTable =>
      obtain ⟨hscreens, hvars⟩ := terminalRead_sameScreens h
      exact ⟨hscreens, fun _ => congrArg FileVars.globalFileIndex hvars⟩
    case rtcTable =>
      cases h
      exact ⟨.of_tty rfl, fun _ => rfl⟩
    case filesysTable =>
      rcases fileRead_frame k esp fd nbytes with he | ⟨pos, he⟩
      · rw [Option.some_inj.mp h] at he
        rw [show k' = k from he]
        exact hsame
      · rw [Option.some_inj.mp h] at he
        rw [show k' = _ from he]
        exact ⟨.of_tty rfl, fun _ => rfl⟩
    case filedirTable =>
      refine ⟨?_, fun hdir => absurd ⟨by omega, huse, hf⟩ hdir⟩
      unfold dirRead at h
      split at h
      · cases h
        exact .of_tty rfl
      · cases h
        exact .of_tty rfl
    case stdOutTable | badTable =>
      cases h
      exact hsame

/-! ## Each call is answered as the view says -/

/-- The action `a` of process `pid` is the call `c`; it comes back with the answer `b`, and the process then sees
`w`. -/
structure Answered (k : Kernel) (pid : Int) (t : Fin 3) (a : Action) (c : Call) (b : Answer) (w : View) (k' : Kernel) :
    Prop where
  comes : act k a = some k'
  answer : a.exchange k = some (c, b)
  sees : Sees k' pid t w
  grid : AllOnGrid k'
  fs : k'.fs = k.fs

/-- A store into the caller's buffer changes nothing that it sees through its calls. -/
theorem Sees.copyOut (h : Sees k pid t w) (hg : AllOnGrid k) {buf : Nat} {bytes : List UInt8}
    (hpage : InPage buf bytes) :
    Sees (copyOut k buf bytes) pid t w ∧ AllOnGrid (copyOut k buf bytes) ∧ (copyOut k buf bytes).fs = k.fs := by
  obtain ⟨_, hcopy⟩ := @copyOut_page k buf bytes hpage
  have hsame : SameScreens k (BasicOs.copyOut k buf bytes) := by
    rw [hcopy]
    exact .of_tty rfl
  have hscreen := hsame.shows h.screen
  have hgrid := hsame.allOnGrid hg
  rw [hcopy] at hscreen hgrid ⊢
  exact ⟨h.congr rfl rfl hscreen fun _ => rfl, hgrid, rfl⟩

section Calls
variable {esp : Int} (h : Sees k (stackOwner esp) t w) (hg : AllOnGrid k)
include h hg

omit hg in
theorem Sees.sysGetargs_eq (nbytes : Int) : sysGetargs k esp false nbytes = w.getargs nbytes := by
  have hargs : argString k esp = w.args := h.args
  unfold View.getargs
  rw [← hargs]
  split_ifs with hrefused
  · exact sysGetargs_of_refused hrefused
  · obtain ⟨hne, hpos⟩ := not_or.mp hrefused
    exact sysGetargs_of_copied hne (not_le.mp hpos)

theorem Sees.getargs {nbytes : Int} {buf : Nat} (hpage : BuffersInPage k (.getargs esp buf nbytes)) :
    ∃ k', Answered k (stackOwner esp) t (.getargs esp buf nbytes) (.getargs nbytes) (w.getargs nbytes) w k' := by
  obtain ⟨hsees, hgrid, hfs⟩ := h.copyOut hg hpage
  exact ⟨_, rfl, congrArg (fun b => some (Call.getargs nbytes, b)) (h.sysGetargs_eq nbytes), hsees, hgrid, hfs⟩

theorem Sees.open (hknown : KnownTypes k.fs) (filename : List UInt8) (rate : UInt8) :
    ∃ k', Answered k (stackOwner esp) t (.open esp filename rate) (.open filename) (w.open k.fs filename).2
      (w.open k.fs filename).1 k' := by
  have hfree := h.freeFd
  rcases sysOpen_cases esp rate (fun d hd => hknown.lookup_le filename hd) with
    ⟨hnone, ho⟩ | ⟨d, fd, fops, k₁, hd, hfd, hfops, hpcbs, hfs, ho⟩
  · have hview : w.open k.fs filename = (w, -1, []) := by
      unfold View.open
      rw [hfree] at hnone
      rcases hnone with hl | hf
      · rw [hl]
      · rw [hf]
        split
        · rename_i hf'
          cases hf'
        · rfl
    rw [hview]
    exact ⟨k, by rw [act, ho]; rfl, by rw [Action.exchange, ho]; rfl, h, hg, rfl⟩
  · have hview : w.open k.fs filename = (w.setFile fd (some ⟨d, 0⟩), fd, []) := by
      unfold View.open
      rw [hd, ← hfree, hfd]
    have htty := sysOpen_toTty ho
    have hindex := (sysOpen_index ho).2
    rw [hview]
    refine ⟨_, by rw [act, ho]; rfl, by rw [Action.exchange, ho]; rfl, ?_, (SameScreens.of_tty htty).allOnGrid hg, hfs⟩
    refine h.modifyFile (freeFd_eq_some hfd).1.1 (fun _ => openedFile fops d) ?_ ?_ ?_
      ((SameScreens.of_tty htty).shows h.screen) fun _ => hindex
    · exact ⟨rfl, hfops, rfl⟩
    · intro g hg
      cases hg
      rfl
    · rw [Kernel.modifyPcb_pcbs_self, hpcbs]

theorem Sees.close (fd : Int) :
    ∃ k', Answered k (stackOwner esp) t (.close esp fd) (.close fd) (w.close fd).2 (w.close fd).1 k' := by
  have hscreens : SameScreens k (sysClose k esp fd).1 := .of_tty (sysClose_toTty k esp fd)
  rcases sysClose_cases k esp fd (fun h2 h7 hu => h.files.close_eq_zero h2 h7 hu) with ⟨hn, hc⟩ | ⟨⟨h2, h7, hu⟩, hc⟩
  · have hview : w.close fd = (w, -1, []) := by
      unfold View.close
      cases hf : w.file fd with
      | none => rfl
      | some f =>
        obtain ⟨⟨h2, h7⟩, fops, -, he⟩ := h.entry hf
        refine absurd ⟨h2, h7, ?_⟩ hn
        rw [he]
        exact show inUse ≠ notInUse by decide
    rw [hview]
    exact ⟨k, by rw [act, hc], by rw [Action.exchange, hc], h, hg, rfl⟩
  · obtain ⟨f, hf⟩ : ∃ f, w.file fd = some f := by
      cases hf : w.file fd with
      | none => exact absurd (h.closed hf h2 h7) hu
      | some f => exact ⟨f, rfl⟩
    have hview : w.close fd = (w.setFile fd none, 0, []) := by
      unfold View.close
      rw [hf]
    rw [hc] at hscreens
    rw [hview]
    refine ⟨_, by rw [act, hc], by rw [Action.exchange, hc], ?_, hscreens.allOnGrid hg, rfl⟩
    refine h.modifyFile h2 (fun f => { f with flags := notInUse }) rfl ?_ (Kernel.modifyPcb_pcbs_self ..)
      (hscreens.shows h.screen) fun _ => rfl
    intro g hg
    cases hg

omit h in
/-- A read that comes back. -/
theorem Sees.answered_read {fd nbytes : Int} {buf : Nat} {k₁ : Kernel} {b : Answer} {w' : View}
    (hr : sysRead k esp fd false nbytes = some (k₁, b)) (hpage : BuffersInPage k (.read esp fd buf nbytes))
    (h₁ : Sees k₁ (stackOwner esp) t w') (hfs : k₁.fs = k.fs) :
    ∃ k', Answered k (stackOwner esp) t (.read esp fd buf nbytes) (.read fd nbytes) b w' k' := by
  obtain ⟨hsees, hgrid, hfs'⟩ := h₁.copyOut ((sysRead_sameScreens hr).1.allOnGrid hg) (hpage _ hr)
  exact ⟨_, by rw [act, hr]; rfl, by rw [Action.exchange, hr]; rfl, hsees, hgrid, hfs'.trans hfs⟩

omit hg in
/-- A descriptor that is not open cannot be read. -/
theorem Sees.sysRead_closed {fd : Int} (h0 : fd ≠ 0) (hf : w.file fd = none) (nbytes : Int) :
    sysRead k esp fd false nbytes = some (k, -1, []) := by
  unfold sysRead
  by_cases hr : fd < 0 ∨ fd ≥ fdaSize
  · rw [if_pos hr]
  · rw [if_neg hr, if_neg (by decide)]
    simp only [fdaSize, not_or, not_lt, not_le] at hr
    by_cases h1 : fd = 1
    · subst h1
      obtain ⟨hflags, hfops⟩ := h.files.stdout
      rw [hflags, hfops, if_neg (by decide)]
      rfl
    · rw [if_pos (h.closed hf (by omega) (by omega))]

omit hg in
/-- A read that is answered comes back with the answer. -/
theorem Sees.sysRead_eq (hboot : k.fs.theBootBlock ≠ 0) {fd nbytes : Int} {w' : View} {b : Answer}
    (hread : w.read k.fs fd nbytes = some (w', b)) :
    ∃ k₁, sysRead k esp fd false nbytes = some (k₁, b) ∧ Sees k₁ (stackOwner esp) t w' ∧ k₁.fs = k.fs := by
  unfold View.read at hread
  split_ifs at hread with h0
  cases hf : w.file fd with
  | none =>
    rw [hf] at hread
    cases hread
    exact ⟨_, h.sysRead_closed h0 hf nbytes, h, rfl⟩
  | some f =>
    obtain ⟨⟨h2, h7⟩, fops, hfops, he⟩ := h.entry hf
    rw [hf] at hread
    dsimp only at hread
    unfold fopsOf at hfops
    split_ifs at hread hfops with ht0 ht1 ht2
    · cases hread
      cases hfops
      have hr : sysRead k esp fd false nbytes = some ((rtcRead k).1, 0, []) := by
        unfold sysRead
        rw [if_neg (by simp only [fdaSize]; omega), if_neg (by decide), he, if_neg (show inUse ≠ notInUse by decide)]
        rfl
      exact ⟨_, hr, h.congr rfl rfl ((sysRead_sameScreens hr).1.shows h.screen) fun _ => rfl, rfl⟩
    · obtain ⟨i, hi, hread⟩ := Option.map_eq_some_iff.mp hread
      cases hread
      cases hfops
      have hdir : DirOpen k (stackOwner esp) fd := by
        refine ⟨⟨by omega, by simp only [fdaSize]; omega⟩, ?_, by rw [he]⟩
        rw [he]
        exact show inUse ≠ notInUse by decide
      have hr := hdir.sysRead_eq hboot nbytes
      rw [h.index i hi] at hr
      refine ⟨_, hr, ?_, rfl⟩
      refine ⟨h.args, h.files, h.pos, (sysRead_sameScreens hr).1.shows h.screen, fun j hj => ?_⟩
      cases hj
      rfl
    · cases hread
      cases hfops
      have hopen : FileOpen k (stackOwner esp) fd f.dentry.inodeNum f.pos := ⟨⟨h2, h7⟩, he⟩
      obtain ⟨k₁, hr, hfs, -, hpos⟩ := hopen.sysRead false nbytes
      have hscreen := (sysRead_sameScreens hr).1.shows h.screen
      refine ⟨k₁, hr, ?_, hfs⟩
      generalize fileCall k.fs f.dentry.inodeNum f.pos (false, nbytes) = r at hr hpos ⊢
      have hframe := fileRead_frame k esp fd nbytes
      rw [Option.some_inj.mp ((sysRead_of_openOn hopen.openOn nbytes).symm.trans hr)] at hframe
      rcases hframe with hk | ⟨pos, hk⟩
      · -- nothing was read
        rw [show k₁ = k from hk] at hpos hscreen ⊢
        have hsame : f.pos = r.1 := congrArg Files.filePosition (he.symm.trans hpos)
        have hset : w.setFile fd (some { f with pos := r.1 }) = w := by
          unfold View.file at hf
          rw [if_pos ⟨h2, h7⟩] at hf
          unfold View.setFile
          rw [← hsame, Function.update_eq_self_iff.mpr hf.symm]
        rw [hset]
        exact h
      · rw [show k₁ = _ from hk] at hpos hscreen ⊢
        refine h.modifyFile h2 (fun g => { g with filePosition := pos }) ?_ ?_ (Kernel.modifyPcb_pcbs_self ..) hscreen
          fun _ => rfl
        · rw [he]
          exact ⟨rfl, by unfold fopsOf; rw [if_neg ht0, if_neg ht1, if_pos ht2], rfl⟩
        · intro g hg
          cases hg
          rw [Kernel.modifyPcb_pcbs_self, modifyFile_fda, if_pos rfl] at hpos
          exact congrArg Files.filePosition hpos

theorem Sees.read (hboot : k.fs.theBootBlock ≠ 0) {fd nbytes : Int} {buf : Nat} {w' : View} {b : Answer}
    (hread : w.read k.fs fd nbytes = some (w', b)) (hpage : BuffersInPage k (.read esp fd buf nbytes)) :
    ∃ k', Answered k (stackOwner esp) t (.read esp fd buf nbytes) (.read fd nbytes) b w' k' := by
  obtain ⟨k₁, hr, h₁, hfs⟩ := h.sysRead_eq hboot hread
  exact Sees.answered_read hg hr hpage h₁ hfs

/-- A write that leaves the kernel as it is, or the devices only. -/
theorem Sees.answered_write {fd nbytes v : Int} {buf : Option (Nat → UInt8)} {rate : UInt8} {k₁ : Kernel}
    (hw : sysWrite k esp fd buf nbytes rate = (k₁, v)) (hd : DevicesOnly k k₁) :
    ∃ k', Answered k (stackOwner esp) t (.write esp fd buf nbytes rate) (.write fd buf nbytes) (v, []) w k' := by
  obtain ⟨d, rfl⟩ := hd
  have hscreens : SameScreens k { k with toDevices := d } := .of_tty rfl
  exact ⟨{ k with toDevices := d }, by rw [act, hw], by rw [Action.exchange, hw],
    h.congr rfl rfl (hscreens.shows h.screen) fun _ => rfl, hscreens.allOnGrid hg, rfl⟩

theorem Sees.write (hturn : k.scheduledProcess = t) (fd nbytes : Int) (buf : Option (Nat → UInt8)) (rate : UInt8) :
    ∃ k', Answered k (stackOwner esp) t (.write esp fd buf nbytes rate) (.write fd buf nbytes)
      (w.write fd buf nbytes).2 (w.write fd buf nbytes).1 k' := by
  have hrefl : DevicesOnly k k := ⟨k.toDevices, rfl⟩
  have hrefused : ∀ b, ¬ (0 ≤ fd ∧ fd < 8) ∨ ((k.pcbs (stackOwner esp)).fda fd).flags = notInUse ∨
      ((k.pcbs (stackOwner esp)).fda fd).fopsPtr.write k b nbytes rate = (k, -1) →
      sysWrite k esp fd (some b) nbytes rate = (k, -1) := by
    intro b hor
    unfold sysWrite
    by_cases hr : fd < 0 ∨ fd ≥ fdaSize
    · exact if_pos hr
    · rw [if_neg hr]
      simp only [fdaSize] at hr
      dsimp only
      by_cases hu : ((k.pcbs (stackOwner esp)).fda fd).flags = notInUse
      · exact if_pos hu
      · rw [if_neg hu]
        exact (hor.resolve_left (by omega)).resolve_left hu
  unfold View.write
  cases buf with
  | none =>
    have hw : sysWrite k esp fd none nbytes rate = (k, -1) := by
      unfold sysWrite
      dsimp only
      split_ifs
      · rfl
      · rfl
    exact h.answered_write hg hw hrefl
  | some b =>
    dsimp only
    split_ifs with h1 hn
    · obtain ⟨-, hfops⟩ := h.files.stdout
      refine h.answered_write hg (hrefused b (Or.inr (Or.inr ?_))) hrefl
      rw [h1, hfops, Fops.write, terminalWrite]
      exact if_pos hn
    · obtain ⟨hflags, hfops⟩ := h.files.stdout
      subst h1 hturn
      have hw : sysWrite k esp 1 (some b) nbytes rate =
          (Run.forUp 0 nbytes.toNat (fun i k => if b i ≠ 0 then putc k (b i) k.scheduledProcess else k) k, nbytes) := by
        unfold sysWrite
        rw [if_neg (by decide)]
        dsimp only
        rw [hflags, if_neg (by decide), hfops, Fops.write, terminalWrite]
        exact if_neg hn
      have honly := terminalWrite_screenOnly k (some b) nbytes
      obtain ⟨hshows, hconf, -⟩ := terminalWrite_shows b h.screen nbytes.toNat
      have hk : (terminalWrite k (some b) nbytes).1 =
          Run.forUp 0 nbytes.toNat (fun i k => if b i ≠ 0 then putc k (b i) k.scheduledProcess else k) k := by
        rw [terminalWrite]
        exact congrArg Prod.fst (if_neg hn)
      rw [hk] at honly
      generalize Run.forUp 0 nbytes.toNat (fun i k => if b i ≠ 0 then putc k (b i) k.scheduledProcess else k) k = k₁
        at *
      obtain ⟨_, he, -⟩ := honly
      have hfs : k₁.fs = k.fs := by rw [he]
      refine ⟨k₁, by rw [act, hw], by rw [Action.exchange, hw], ?_, hg.confined hconf hshows, hfs⟩
      exact ⟨by rw [he]; exact h.args, by rw [he]; exact h.files, by rw [he]; exact h.pos, hshows,
        by rw [he]; exact h.index⟩
    · cases hf : w.file fd with
      | none =>
        refine h.answered_write hg (hrefused b ?_) hrefl
        by_cases hr : 2 ≤ fd ∧ fd ≤ 7
        · exact Or.inr (Or.inl (h.closed hf hr.1 hr.2))
        · by_cases h0 : fd = 0
          · obtain ⟨-, hfops⟩ := h.files.stdin
            rw [h0, hfops]
            exact Or.inr (Or.inr rfl)
          · exact Or.inl (by omega)
      | some f =>
        obtain ⟨⟨h2, h7⟩, fops, hfops, he⟩ := h.entry hf
        dsimp only
        unfold fopsOf at hfops
        by_cases ht0 : f.dentry.filetype = 0
        · rw [if_pos ht0] at hfops
          cases hfops
          have hw : sysWrite k esp fd (some b) nbytes rate = rtcWrite k (some (i32 (load32 b 0))) rate := by
            unfold sysWrite
            rw [if_neg (by simp only [fdaSize]; omega)]
            dsimp only
            rw [he, if_neg (show inUse ≠ notInUse by decide)]
            rfl
          by_cases hrange : i32 (load32 b 0) < 2 ∨ i32 (load32 b 0) > 1024
          · rw [rtcWrite_of_refused k hrange] at hw
            rw [if_neg fun hc => hc.2 hrange]
            exact h.answered_write hg hw hrefl
          · rw [rtcWrite_of_accepted k hrange] at hw
            rw [if_pos ⟨ht0, hrange⟩]
            exact h.answered_write hg hw ⟨_, rfl⟩
        · rw [if_neg fun hc => ht0 hc.1]
          refine h.answered_write hg (hrefused b (Or.inr (Or.inr ?_))) hrefl
          rw [he]
          split_ifs at hfops
          · cases hfops
            rfl
          · cases hfops
            rfl

omit hg in
/-- A buffer in the page is one where the answer fits. -/
theorem Sees.buffersInPage (hboot : k.fs.theBootBlock ≠ 0) {c : Call} {w' : View} {b : Answer}
    (hc : w.call k.fs c = some (w', b)) {buf : Nat} (hpage : InPage buf b.2) (rate : UInt8) :
    BuffersInPage k (c.action esp buf rate) := by
  cases c with
  | read fd nbytes =>
    intro q hq
    obtain ⟨k₁, hr, -⟩ := h.sysRead_eq hboot hc
    rw [hr, Option.some_inj] at hq
    rw [← hq]
    exact hpage
  | getargs nbytes =>
    obtain ⟨-, rfl⟩ := Prod.ext_iff.mp (Option.some.inj hc)
    show InPage buf (sysGetargs k esp false nbytes).2
    rw [h.sysGetargs_eq]
    exact hpage
  | «open» | close | write => trivial

/-- **One call.** What the kernel answers to a process that has the turn is what its view answers. -/
theorem Sees.call (hturn : k.scheduledProcess = t) (hknown : KnownTypes k.fs) (hboot : k.fs.theBootBlock ≠ 0) {c : Call}
    {w' : View} {b : Answer} (hc : w.call k.fs c = some (w', b)) {buf : Nat} {rate : UInt8}
    (hpage : BuffersInPage k (c.action esp buf rate)) :
    ∃ k', Answered k (stackOwner esp) t (c.action esp buf rate) c b w' k' := by
  cases c with
  | «open» filename =>
    obtain ⟨rfl, rfl⟩ := Prod.ext_iff.mp (Option.some.inj hc)
    exact h.open hg hknown filename rate
  | close fd =>
    obtain ⟨rfl, rfl⟩ := Prod.ext_iff.mp (Option.some.inj hc)
    exact h.close hg fd
  | read fd nbytes => exact h.read hg hboot hc hpage
  | write fd b nbytes =>
    obtain ⟨rfl, rfl⟩ := Prod.ext_iff.mp (Option.some.inj hc)
    exact h.write hg hturn fd nbytes b rate
  | getargs nbytes =>
    obtain ⟨rfl, rfl⟩ := Prod.ext_iff.mp (Option.some.inj hc)
    exact h.getargs hg hpage

end Calls

end BasicOs
