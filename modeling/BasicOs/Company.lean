import BasicOs.Loader
import BasicOs.Programs

/-!
# Programs in company

Between two calls of a program anything can happen: ticks, interrupts, terminal switches, other programs that start,
call, fault and end.

* `Leaves pid t solo k k'` : from `k` to `k'`, nothing of what `pid` on terminal `t` sees has changed;
* `Undisturbed` : the actions it is asked of; nobody types, and exceptions are not shown on terminal `t`;
* `SystemInv.act_leaves` : one action of the others;
* `Launch` : a program is started, from an image whose programs fit their pages;
* `InCompany` : what may happen from then on;
* `programs_run_alone` : in all of it, the program makes the calls that it makes alone.
-/

namespace BasicOs
open Run FileSystem Bytes

variable {k k' : Kernel} {pid : Int} {t : Fin 3} {solo : Bool}

/-- What `pid` sees is left as it is; the index of the directory reads too, if they are to be its own. -/
structure Leaves (pid : Int) (t : Fin 3) (solo : Bool) (k k' : Kernel) : Prop where
  fs : k'.fs = k.fs
  fda : (k'.pcbs pid).fda = (k.pcbs pid).fda
  args : (k'.pcbs pid).args = (k.pcbs pid).args
  shows : ∀ s, Shows k t s → Shows k' t s
  grid : AllOnGrid k'
  index : solo = true → k'.globalFileIndex = k.globalFileIndex

theorem Leaves.trans {k₁ k₂ k₃ : Kernel} (h₁ : Leaves pid t solo k₁ k₂) (h₂ : Leaves pid t solo k₂ k₃) :
    Leaves pid t solo k₁ k₃ where
  fs := h₂.fs.trans h₁.fs
  fda := h₂.fda.trans h₁.fda
  args := h₂.args.trans h₁.args
  shows s hs := h₂.shows s (h₁.shows s hs)
  grid := h₂.grid
  index hsolo := (h₂.index hsolo).trans (h₁.index hsolo)

/-- What is left is seen. -/
theorem Leaves.sees {w : View} (h : Leaves pid t w.index.isSome k k') (hs : Sees k pid t w) : Sees k' pid t w :=
  hs.congr h.fda h.args (h.shows _ hs.screen) h.index

/-! ## Frames -/

/-- No screen has changed, and neither have the file system and the control block. -/
theorem Leaves.of_same (hg : AllOnGrid k) (hs : SameScreens k k') (hvars : k'.toFileVars = k.toFileVars)
    (hfda : (k'.pcbs pid).fda = (k.pcbs pid).fda) (hargs : (k'.pcbs pid).args = (k.pcbs pid).args) :
    Leaves pid t solo k k' where
  fs := congrArg FileVars.fs hvars
  fda := hfda
  args := hargs
  shows _ h := hs.shows h
  grid := hs.allOnGrid hg
  index _ := congrArg FileVars.globalFileIndex hvars

/-- There was output on another terminal. -/
theorem Leaves.of_confined (hg : AllOnGrid k) {u : Fin 3} (hu : t ≠ u) (hc : Confined u k k') {s : LoneScreen}
    (hs : Shows k' u s) (hvars : k'.toFileVars = k.toFileVars) (hpcbs : k'.pcbs = k.pcbs) : Leaves pid t solo k k' where
  fs := congrArg FileVars.fs hvars
  fda := by rw [hpcbs]
  args := by rw [hpcbs]
  shows _ h := hc.shows hu h
  grid := hg.confined hc hs
  index _ := congrArg FileVars.globalFileIndex hvars

theorem setSlot_sameScreens (k : Kernel) (u : Fin 3) (p : Int) : SameScreens k (k.setSlot u p) := by
  refine ⟨rfl, rfl, fun v => ?_⟩
  unfold Kernel.setSlot
  dsimp only
  by_cases hv : v = u
  · rw [hv, Kernel.modifyTerm_terminals_self]
    exact ⟨⟨rfl, rfl⟩, rfl⟩
  · rw [Kernel.modifyTerm_terminals_of_ne _ _ hv]
    exact ⟨⟨rfl, rfl⟩, rfl⟩

/-! ## Processes that start and end -/

/-- Where a process is placed, descriptors and arguments do not change. -/
theorem placeProcess_files (k : Kernel) (p : Int) (r : Regs) (q : Int) :
    ((placeProcess k p r).pcbs q).fda = (k.pcbs q).fda ∧ ((placeProcess k p r).pcbs q).args = (k.pcbs q).args := by
  have hmodify : ∀ (k : Kernel) (p : Int) (f : Pcb → Pcb),
      (∀ pcb, (f pcb).fda = pcb.fda ∧ (f pcb).args = pcb.args) →
      ((k.modifyPcb p f).pcbs q).fda = (k.pcbs q).fda ∧ ((k.modifyPcb p f).pcbs q).args = (k.pcbs q).args := by
    intro k p f hf
    by_cases hq : q = p
    · rw [hq, Kernel.modifyPcb_pcbs_self]
      exact hf _
    · rw [Kernel.modifyPcb_pcbs_of_ne _ _ hq]
      exact ⟨rfl, rfl⟩
  unfold placeProcess
  split_ifs
  · exact hmodify k p (fun pcb => { pcb with
      termId := k.scheduledProcess, oldEsp0 := k.tss.esp0
      scheduleEsp := r.esp, scheduleEbp := r.ebp, oldEbp := r.ebp, oldEsp := r.esp }) fun _ => ⟨rfl, rfl⟩
  · unfold enterChild
    dsimp only
    generalize k.schedulingArray k.currTerm = parent
    have h₁ := hmodify k p (fun pcb => { pcb with parentPid := parent }) fun _ => ⟨rfl, rfl⟩
    generalize k.modifyPcb p (fun pcb => { pcb with parentPid := parent }) = k₁ at *
    have h₂ := hmodify k₁ parent (fun pcb => { pcb with childPid := p }) fun _ => ⟨rfl, rfl⟩
    generalize k₁.modifyPcb parent (fun pcb => { pcb with childPid := p }) = k₂ at *
    have h₃ := hmodify k₂ p (fun pcb => { pcb with
      termId := k₂.currTerm, oldEsp0 := k₂.tss.esp0
      scheduleEsp := pcb.baseKernelStack, scheduleEbp := pcb.baseKernelStack
      oldEbp := r.ebp, oldEsp := r.esp }) fun _ => ⟨rfl, rfl⟩
    exact ⟨h₃.1.trans (h₂.1.trans h₁.1), h₃.2.trans (h₂.2.trans h₁.2)⟩

section Launch
variable (k) (p : Int) (inode entry : Nat) (args : List UInt8) (r : Regs)

theorem launch_files_of_ne {q : Int} (hq : q ≠ p) :
    ((launch k p inode entry args r).pcbs q).fda = (k.pcbs q).fda ∧
      ((launch k p inode entry args r).pcbs q).args = (k.pcbs q).args := by
  have h := placeProcess_files (initPcb (loadProgram k p inode) p args) p r q
  rw [initPcb, Kernel.modifyPcb_pcbs_of_ne _ _ hq] at h
  exact h

theorem launch_files_self : Represents ((launch k p inode entry args r).pcbs p) (fun _ => none) ∧
    ((launch k p inode entry args r).pcbs p).args = args := by
  obtain ⟨hfda, hargs⟩ := placeProcess_files (initPcb (loadProgram k p inode) p args) p r p
  refine ⟨(initPcb_represents (loadProgram k p inode) p args).same fun i => ?_, hargs.trans ?_⟩
  · exact ⟨congrArg (fun f : Int → Files => (f i).fopsPtr) hfda, congrArg (fun f : Int → Files => (f i).inode) hfda,
      congrArg (fun f : Int → Files => (f i).flags) hfda⟩
  · rw [initPcb, Kernel.modifyPcb_pcbs_self]

theorem launch_sameScreens (hfits : k.fs.ProgramsFit) : SameScreens k (launch k p inode entry args r) ∧
    (launch k p inode entry args r).toFileVars = k.toFileVars := by
  have hvideo := launch_videoMem (hfits inode) p entry args r
  obtain ⟨_, _, _, h⟩ := launch_frame k p inode entry args r
  have hslot := setSlot_sameScreens k (launchSlot k p) p
  rw [h] at hvideo ⊢
  exact ⟨⟨hslot.currTerm, hvideo, hslot.cursors⟩, rfl⟩

end Launch

theorem sysClose_pcbs_of_ne (k : Kernel) {esp : Int} (hne : pid ≠ stackOwner esp) (fd : Int) :
    (sysClose k esp fd).1.pcbs pid = k.pcbs pid := by
  rcases sysClose_eq k esp fd with ⟨-, he⟩ | ⟨-, he⟩
  · rw [he]
  · rw [he, Kernel.modifyPcb_pcbs_of_ne _ _ hne]

theorem closeFiles_pcbs_of_ne (k : Kernel) {esp : Int} (hne : pid ≠ stackOwner esp) :
    (closeFiles k esp).pcbs pid = k.pcbs pid := by
  have hclose : ∀ n lo (k : Kernel), (Run.forUp lo n (fun i k => (sysClose k esp i).1) k).pcbs pid = k.pcbs pid := by
    intro n lo k
    exact forUp_invariant (fun _ (k' : Kernel) => k'.pcbs pid = k.pcbs pid) n lo k rfl fun i k' _ _ hk' =>
      (sysClose_pcbs_of_ne k' hne i).trans hk'
  unfold closeFiles
  exact hclose 6 2 k

/-- A process that halts closes its own files. -/
theorem releaseProcess_pcbs_of_ne (k : Kernel) {esp : Int} (hne : pid ≠ stackOwner esp) :
    (releaseProcess k esp).pcbs pid = k.pcbs pid := by
  unfold releaseProcess
  rw [closeFiles_pcbs_of_ne _ hne]
  rfl

theorem releaseProcess_leaves (hg : AllOnGrid k) {esp : Int} (hne : pid ≠ stackOwner esp) :
    Leaves pid t solo k (releaseProcess k esp) := by
  have hpcb := releaseProcess_pcbs_of_ne k hne
  obtain ⟨_, hrel, -⟩ := releaseProcess_frame k esp
  refine .of_same hg (.of_tty ?_) ?_ (by rw [hpcb]) (by rw [hpcb])
  · rw [hrel]
    rfl
  · rw [hrel]
    rfl

/-- The end of another process. -/
theorem RunInv.halt_leaves (h : RunInv k) (hg : AllOnGrid k) (hfits : k.fs.ProgramsFit) (hne : k.currPid ≠ pid)
    {status : UInt8} {r : Regs} {stale : Nat → UInt8} (hown : stackOwner r.esp = k.currPid)
    (hh : BasicOs.sysHalt k status r stale = some k') :
    Leaves pid t solo k k' := by
  have hr := h.released r.esp
  have hleaves : Leaves pid t solo k (releaseProcess k r.esp) := releaseProcess_leaves hg (by rw [hown]; exact hne.symm)
  refine hleaves.trans ?_
  by_cases hcurr : k.currPid ≤ 2
  · rcases sysHalt_shell hcurr h.hasShell (h.freePid_release hr hcurr) status stale with hf | ⟨inode, entry, he⟩
    · rw [hf] at hh
      cases hh
    · rw [he, Option.some_inj] at hh
      obtain ⟨hfda, hargs⟩ := launch_files_of_ne (releaseProcess k r.esp) k.currPid inode entry [] r hne.symm
      have hfits' : (releaseProcess k r.esp).fs.ProgramsFit := by
        rw [hleaves.fs]
        exact hfits
      obtain ⟨hscreens, hvars⟩ := launch_sameScreens (releaseProcess k r.esp) k.currPid inode entry [] r hfits'
      rw [hh] at hfda hargs hscreens hvars
      exact .of_same hleaves.grid hscreens hvars hfda hargs
  · obtain ⟨v, he⟩ := sysHalt_child (k := k) (by omega) status r stale
    rw [he, Option.some_inj] at hh
    rw [← hh]
    generalize releaseProcess k r.esp = k₁ at hleaves ⊢
    have hslot := setSlot_sameScreens k₁ (k₁.pcbs k₁.currPid).termId (k₁.pcbs k₁.currPid).parentPid
    exact .of_same hleaves.grid ⟨hslot.currTerm, hslot.videoMem, hslot.cursors⟩ rfl rfl rfl

/-! ## Output of others -/

/-- A write of the process that has the turn goes to its terminal. -/
theorem sysWrite_confined (k : Kernel) (esp fd : Int) (buf : Option (Nat → UInt8)) (nbytes : Int) (rate : UInt8)
    {s : LoneScreen} (hs : Shows k k.scheduledProcess s) :
    (sysWrite k esp fd buf nbytes rate).1.toFileVars = k.toFileVars ∧
      Confined k.scheduledProcess k (sysWrite k esp fd buf nbytes rate).1 ∧
      ∃ s', Shows (sysWrite k esp fd buf nbytes rate).1 k.scheduledProcess s' := by
  have hrefl : k.toFileVars = k.toFileVars ∧ Confined k.scheduledProcess k k ∧ ∃ s', Shows k k.scheduledProcess s' :=
    ⟨rfl, .refl _ _, s, hs⟩
  unfold sysWrite
  cases buf with
  | none =>
    dsimp only
    split_ifs
    · exact hrefl
    · exact hrefl
  | some b =>
    dsimp only
    split_ifs
    · exact hrefl
    · exact hrefl
    · cases ((k.pcbs (stackOwner esp)).fda fd).fopsPtr with
      | stdOutTable =>
        rw [Fops.write]
        obtain ⟨_, he, -⟩ := terminalWrite_screenOnly k (some b) nbytes
        refine ⟨by rw [he], ?_⟩
        clear he
        unfold terminalWrite
        dsimp only
        split_ifs
        · exact hrefl.2
        · obtain ⟨hshows, hconf, -⟩ := terminalWrite_shows b hs nbytes.toNat
          exact ⟨hconf, _, hshows⟩
      | rtcTable =>
        rw [Fops.write]
        obtain ⟨d, he⟩ := rtcWrite_devicesOnly k (some (i32 (load32 b 0))) rate
        rw [he]
        exact ⟨rfl, ⟨rfl, fun _ _ => rfl, rfl, fun _ _ => rfl⟩, s, hs.x_eq, hs.y_eq, hs.cells_eq⟩
      | stdInTable | filesysTable | filedirTable | badTable => exact hrefl

theorem handleException_frame (k : Kernel) (vec esp cr2 : Nat) :
    (handleException k vec esp cr2).1.toFileVars = k.toFileVars ∧ (handleException k vec esp cr2).1.pcbs = k.pcbs := by
  obtain ⟨_, he, -⟩ := (clear_screenOnly k).trans (puts_screenOnly (exceptionText vec esp cr2) (clear k))
  unfold handleException
  dsimp only
  rw [he]
  split_ifs
  · exact ⟨rfl, rfl⟩
  · exact ⟨rfl, rfl⟩

theorem sysVidmap_page {screenStart : Nat} (h : screenStart + 4 ≤ one32Mb) :
    (sysVidmap k screenStart).1 = k ∨
      ∃ userMem, (sysVidmap k screenStart).1 = { mapVidmem k with userMem := userMem } := by
  unfold sysVidmap
  split_ifs
  · exact Or.inl rfl
  · have hin : InPage screenStart [0x00, 0x00, 0x40, 0x08] := ⟨by omega, h⟩
    exact Or.inr (copyOut_page hin)

/-- A store of the running program into its page. -/
theorem SystemInv.userWrite_page (h : SystemInv k) {va : Nat} {c : UInt8} (hpage : InPage va [c])
    (hw : userWrite k va c = some k') : ∃ userMem, k' = { k with userMem := userMem } := by
  obtain ⟨hlo, hhi⟩ := hpage
  rw [List.length_singleton] at hhi
  unfold userWrite at hw
  rw [h.translate_page hlo hhi, Option.map_some, Option.some_inj] at hw
  rw [← hw, storePhys, if_neg (by unfold frameAddr; omega)]
  exact ⟨_, rfl⟩

/-! ## One action -/

/-- Calls are made on the stack of the process that runs. Nobody types, the program `pid` neither starts another nor
ends, and no exception is shown on its terminal `t`. If `solo`, no other process reads a directory. -/
def Undisturbed (pid : Int) (t : Fin 3) (solo : Bool) (k : Kernel) : Action → Prop
  | .event (.key ..) => False
  | .event (.execute ..) => k.currPid ≠ pid
  | .event (.halt _ r _) => k.currPid ≠ pid ∧ stackOwner r.esp = k.currPid
  | .event (.vidmap screenStart) => screenStart + 4 ≤ one32Mb
  | .event (.tick ..) | .event (.switch _) | .rtc => True
  | .exception _ _ _ r _ => (k.currPid ≠ pid ∧ k.currTerm ≠ t) ∧ stackOwner r.esp = k.currPid
  | .store va c => InPage va.toNat [c]
  | .open esp .. | .close esp _ | .write esp .. | .getargs esp .. => stackOwner esp = k.currPid
  | .read esp fd .. => stackOwner esp = k.currPid ∧ (solo = true → k.currPid ≠ pid → ¬ DirOpen k k.currPid fd)

section Calls
variable (hg : AllOnGrid k) {esp : Int} (hown : pid ≠ stackOwner esp)
include hg hown

theorem open_leaves {filename : List UInt8} {rate : UInt8} {v : Int} (ho : sysOpen k esp filename rate = some (k', v)) :
    Leaves pid t solo k k' := by
  have hpcbs : k'.pcbs pid = k.pcbs pid := by
    rcases sysOpen_some ho with ⟨-, hs⟩ | ⟨d, fops, -, -, -, hs⟩
    · rw [hs.2]
    · rw [hs.2, Kernel.modifyPcb_pcbs_of_ne _ _ hown]
  obtain ⟨hfs, hindex⟩ := sysOpen_index ho
  have hscreens := SameScreens.of_tty (sysOpen_toTty ho)
  exact ⟨hfs, by rw [hpcbs], by rw [hpcbs], fun _ hs => hscreens.shows hs, hscreens.allOnGrid hg, fun _ => hindex⟩

theorem close_leaves (fd : Int) : Leaves pid t solo k (sysClose k esp fd).1 := by
  have hpcbs := sysClose_pcbs_of_ne k hown fd
  obtain ⟨hfs, hindex⟩ := sysClose_index k esp fd
  have hscreens := SameScreens.of_tty (sysClose_toTty k esp fd)
  exact ⟨hfs, by rw [hpcbs], by rw [hpcbs], fun _ hs => hscreens.shows hs, hscreens.allOnGrid hg, fun _ => hindex⟩

theorem read_leaves {fd nbytes : Int} {b : Answer} (hr : sysRead k esp fd false nbytes = some (k', b))
    (hdir : solo = true → ¬ DirOpen k (stackOwner esp) fd) : Leaves pid t solo k k' := by
  obtain ⟨hscreens, hindex⟩ := sysRead_sameScreens hr
  have hpcbs : k'.pcbs pid = k.pcbs pid := by
    rcases sysRead_cases hr with hs | hf
    · rw [hs.2]
    · have hframe := fileRead_frame k esp fd nbytes
      rw [hf] at hframe
      rcases hframe with he | ⟨pos, he⟩
      · rw [show k' = k from he]
      · rw [show k' = _ from he, Kernel.modifyPcb_pcbs_of_ne _ _ hown]
  exact ⟨(sysRead_frame hr).1, by rw [hpcbs], by rw [hpcbs], fun _ hs => hscreens.shows hs, hscreens.allOnGrid hg,
    fun hsolo => hindex (hdir hsolo)⟩

omit hown in
theorem write_leaves (hturn : k.scheduledProcess ≠ t) (fd : Int) (buf : Option (Nat → UInt8)) (nbytes : Int)
    (rate : UInt8) : Leaves pid t solo k (sysWrite k esp fd buf nbytes rate).1 := by
  obtain ⟨s, hs⟩ := hg.shows k.scheduledProcess
  obtain ⟨hvars, hconf, s', hs'⟩ := sysWrite_confined k esp fd buf nbytes rate hs
  exact .of_confined hg hturn.symm hconf hs' hvars (sysWrite_sameFiles k esp fd buf nbytes rate).2

end Calls

omit k' in
/-- What a call stores into a buffer in its caller's page is nothing that another process sees. -/
theorem copyOut_leaves (hg : AllOnGrid k) {buf : Nat} {bytes : List UInt8} (hpage : InPage buf bytes) :
    Leaves pid t solo k (copyOut k buf bytes) := by
  obtain ⟨_, he⟩ := @copyOut_page k buf bytes hpage
  rw [he]
  exact .of_same hg (.of_tty rfl) rfl rfl rfl

/-- Events of the machine, and starts and ends of others. -/
theorem SystemInv.step_leaves (hsys : SystemInv k) (hg : AllOnGrid k) (hfits : k.fs.ProgramsFit)
    (hused : k.pidArray pid = used) {e : Event} (hok : Undisturbed pid t solo k (.event e))
    (hs : BasicOs.step k e = some k') : Leaves pid t solo k k' := by
  unfold BasicOs.step at hs
  cases e with
  | key scancode r stale fmt => exact absurd hok id
  | tick r inner stale =>
    obtain ⟨d, hd⟩ := sendEoi_devicesOnly k 0
    obtain ⟨_, _, _, hsw, -⟩ := switchTo_frame (saveContext (sendEoi k 0) r) ((sendEoi k 0).scheduledProcess + 1)
    obtain ⟨hpcbs, -, -⟩ := tick_frame k r ((sendEoi k 0).scheduledProcess + 1)
    dsimp only at hs
    rw [hsys.run.pitHandler_eq r inner stale, Option.some_inj] at hs
    have hsaved : ((saveContext k r).pcbs pid).fda = (k.pcbs pid).fda ∧
        ((saveContext k r).pcbs pid).args = (k.pcbs pid).args := by
      by_cases hp : pid = k.schedulingArray k.scheduledProcess
      · rw [hp, saveContext, Kernel.modifyPcb_pcbs_self]
        exact ⟨rfl, rfl⟩
      · rw [saveContext_pcbs_of_ne hp]
        exact ⟨rfl, rfl⟩
    rw [← hs]
    refine .of_same hg (.of_tty ?_) ?_ (by rw [hpcbs]; exact hsaved.1) (by rw [hpcbs]; exact hsaved.2)
    · rw [hsw, hd]
      rfl
    · rw [hsw, hd]
      rfl
  | execute command r stale =>
    dsimp only at hs
    rcases sysExecute_cases k command r stale with ⟨_, he⟩ | ⟨w, he⟩ | ⟨p, inode, entry, args, hpid, he⟩
    · rw [he] at hs
      cases hs
    · rw [he] at hs
      cases hs
      exact .of_same hg (.of_tty rfl) rfl rfl rfl
    · rw [he] at hs
      cases hs
      have hne : pid ≠ p := by
        rintro rfl
        have hunused := (freePid_eq_some hpid).2
        rw [hused] at hunused
        cases hunused
      obtain ⟨hfda, hargs⟩ := launch_files_of_ne k p inode entry args r hne
      obtain ⟨hscreens, hvars⟩ := launch_sameScreens k p inode entry args r hfits
      exact .of_same hg hscreens hvars hfda hargs
  | halt status r stale => exact hsys.run.halt_leaves hg hfits hok.1 hok.2 hs
  | vidmap screenStart =>
    rw [← Option.some.inj hs]
    rcases @sysVidmap_page k screenStart hok with he | ⟨_, he⟩
    · rw [he]
      exact .of_same hg (.of_tty rfl) rfl rfl rfl
    · rw [he]
      exact .of_same hg (.of_tty rfl) rfl rfl rfl
  | switch nextTerm =>
    obtain ⟨_, _, he⟩ := switchTerminals_ttyOnly k nextTerm
    have hgrid := hg.switchTerminals nextTerm
    have hshows := fun s (h : Shows k t s) => switchTerminals_shows (n := nextTerm) hg.backups t h
    rw [← Option.some.inj hs]
    refine ⟨by rw [he], by rw [he], by rw [he], hshows, hgrid, fun _ => by rw [he]⟩

/-- **One action of the others** leaves what the program sees. -/
theorem SystemInv.act_leaves (hsys : SystemInv k) (hg : AllOnGrid k) (hfits : k.fs.ProgramsFit)
    (hused : k.pidArray pid = used) (hturn : k.currPid ≠ pid → k.scheduledProcess ≠ t) {a : Action}
    (hok : Undisturbed pid t solo k a) (hbuf : BuffersInPage k a) (ha : BasicOs.act k a = some k')
    (hother : exchange pid k a = none) :
    Leaves pid t solo k k' := by
  -- a call of the program itself would have an answer
  have hne : ∀ x, a.exchange k = some x → k.currPid ≠ pid := by
    intro x hx he
    unfold exchange at hother
    rw [if_pos he, hx] at hother
    cases hother
  have hown : ∀ {esp : Int} {x}, stackOwner esp = k.currPid → a.exchange k = some x → pid ≠ stackOwner esp := by
    intro esp x he hx
    rw [he]
    exact (hne x hx).symm
  cases a with
  | event e => exact hsys.step_leaves hg hfits hused hok ha
  | rtc =>
    cases ha
    obtain ⟨d, he⟩ := rtcHandler_devicesOnly k
    rw [he]
    exact .of_same hg (.of_tty rfl) rfl rfl rfl
  | exception vec esp cr2 r stale =>
    obtain ⟨⟨hne, hterm⟩, hstack⟩ := hok
    obtain ⟨hshows, hconf⟩ := handleException_shows k vec esp cr2
    obtain ⟨hvars, hpcbs⟩ := handleException_frame k vec esp cr2
    have hshown : Leaves pid t solo k (handleException k vec esp cr2).1 :=
      .of_confined hg (Ne.symm hterm) hconf hshows hvars hpcbs
    obtain ⟨k₁, hcall, he⟩ := handleException_eq k vec esp cr2
    unfold BasicOs.act at ha
    dsimp only at ha
    rw [he] at ha hshown
    by_cases hbit : esp.testBit 2 = true
    · rw [if_pos hbit] at ha hshown
      dsimp only at ha hshown
      rw [if_pos rfl] at ha
      have hsame := hcall.sameTables.trans (sameTables_exceptionFlag k₁ true)
      have hcurr : k₁.currPid = k.currPid := hcall.sameTables.running.currPid
      exact hshown.trans ((hsys.congr hsame).run.halt_leaves hshown.grid (hshown.fs ▸ hfits) (hcurr.trans_ne hne)
        (hstack.trans hcurr.symm) ha)
    · rw [if_neg hbit] at ha
      dsimp only at ha
      rw [if_neg (by decide)] at ha
      cases ha
  | store va c =>
    obtain ⟨_, he⟩ := hsys.userWrite_page hok ha
    rw [he]
    exact .of_same hg (.of_tty rfl) rfl rfl rfl
  | «open» esp filename rate =>
    obtain ⟨⟨k₁, v⟩, ho, rfl⟩ := Option.map_eq_some_iff.mp ha
    have hx : Action.exchange k (.open esp filename rate) = some (.open filename, v, []) := by
      rw [Action.exchange, ho]
      rfl
    exact open_leaves hg (hown hok hx) ho
  | close esp fd =>
    cases ha
    exact close_leaves hg (hown hok rfl) fd
  | read esp fd buf nbytes =>
    obtain ⟨⟨k₁, b⟩, hr, rfl⟩ := Option.map_eq_some_iff.mp ha
    have hx : Action.exchange k (.read esp fd buf nbytes) = some (.read fd nbytes, b) := by
      rw [Action.exchange, hr]
      rfl
    have hread : Leaves pid t solo k k₁ := read_leaves hg (hown hok.1 hx) hr fun hsolo => by
      rw [hok.1]
      exact hok.2 hsolo (hne _ hx)
    exact hread.trans (copyOut_leaves hread.grid (hbuf _ hr))
  | write esp fd buf nbytes rate =>
    cases ha
    exact write_leaves hg (hturn (hne _ rfl)) fd buf nbytes rate
  | getargs esp buf nbytes =>
    cases ha
    exact copyOut_leaves hg hbuf

/-! ## The program and its turn -/

/-- Program `pid` runs on terminal `t`: it is the last one on its stack, and sees `w`. -/
structure Runs (fs : FileSystem) (pid : Int) (t : Fin 3) (k : Kernel) (w : View) : Prop where
  threads : ∃ m : Tasks, Threaded k m ∧ ∃ f base, m.calls t = f :: base ∧ f.pid = pid
  exceptionFlag : k.exceptionFlag = false
  system : SystemInv k
  grid : AllOnGrid k
  fs : k.fs = fs
  sees : Sees k pid t w

theorem Tasks.top_cons {m : Tasks} {f : Frame} {base : List Frame} (h : m.calls t = f :: base) : m.top t = f.pid := by
  unfold Tasks.top
  rw [h]

variable {fs : FileSystem} {w : View}

/-- It has the turn when its terminal has. -/
theorem Runs.turn_iff (h : Runs fs pid t k w) : k.currPid = pid ↔ k.scheduledProcess = t := by
  obtain ⟨m, hm, f, base, hcalls, rfl⟩ := h.threads
  have htop : k.schedulingArray t = f.pid := (hm.slot t).trans (Tasks.top_cons hcalls)
  rw [hm.current, hm.turn, ← htop]
  exact ⟨fun e => hm.slots_injective e, fun e => by rw [e]⟩

theorem Runs.used (h : Runs fs pid t k w) : k.pidArray pid = used := by
  obtain ⟨m, hm, f, base, hcalls, rfl⟩ := h.threads
  exact (hm.child (t := t) (f := f) (by rw [hcalls]; exact List.mem_cons_self)).2.1

/-- While it runs, nothing changes the stacks. -/
theorem Undisturbed.request {m : Tasks} {a : Action} (h : Undisturbed pid t solo k a) (hcurr : k.currPid = pid) :
    request m k a = .stay ∨ ∃ r, request m k a = .yield r := by
  cases a with
  | event e =>
    cases e with
    | key scancode r stale fmt => exact absurd h id
    | execute command r stale => exact absurd hcurr h
    | halt status r stale => exact absurd hcurr h.1
    | tick r inner stale => exact Or.inr ⟨r, rfl⟩
    | vidmap screenStart => exact Or.inl rfl
    | switch nextTerm => exact Or.inl rfl
  | exception vec esp cr2 r stale => exact absurd hcurr h.1.1
  | rtc | store | «open» | close | read | write | getargs => exact Or.inl rfl

/-- The program stays on top of its stack. -/
theorem Runs.threads_act (h : Runs fs pid t k w) {a : Action} (hstarts : StartsShown k a)
    (hok : Undisturbed pid t solo k a) (ha : BasicOs.act k a = some k') :
    (∃ m : Tasks, Threaded k' m ∧ ∃ f base, m.calls t = f :: base ∧ f.pid = pid) ∧ k'.exceptionFlag = false := by
  obtain ⟨m, hm, f, base, hcalls, hpid⟩ := h.threads
  have hnext := hm.act h.exceptionFlag hstarts ha
  refine ⟨⟨_, hnext.represents, f, base, ?_, hpid⟩, hnext.exceptionFlag⟩
  have hstack : (m.step (BasicOs.request m k a)).calls t = m.calls t ∨ t = m.turn ∧ _ :=
    Threads.State.calls_cases m (BasicOs.request m k a) t
  rcases hstack with he | ⟨hturn, hcases⟩
  · exact he.trans hcalls
  · have hcurr : k.currPid = pid := h.turn_iff.mpr (hm.turn.trans hturn.symm)
    rcases @Undisturbed.request k pid t solo m a hok hcurr with hr | ⟨r, hr⟩
    · rw [hr] at hcases
      rcases hcases with ⟨g, hcall, -⟩ | ⟨hret, -⟩
      · cases hcall
      · cases hret
    · rw [hr] at hcases
      rcases hcases with ⟨g, hcall, -⟩ | ⟨hret, -⟩
      · cases hcall
      · cases hret

/-- An action that asks something is a call. -/
theorem action_of_exchange {a : Action} {c : Call} {b : Answer} (h : a.exchange k = some (c, b)) :
    ∃ esp buf rate, a = c.action esp buf rate := by
  cases a with
  | event e => cases h
  | rtc => cases h
  | exception vec esp cr2 r stale => cases h
  | store va c => cases h
  | «open» esp filename rate =>
    obtain ⟨q, -, hq⟩ := Option.map_eq_some_iff.mp h
    cases hq
    exact ⟨esp, 0, rate, rfl⟩
  | close esp fd =>
    cases h
    exact ⟨esp, 0, 0, rfl⟩
  | read esp fd buf nbytes =>
    obtain ⟨q, -, hq⟩ := Option.map_eq_some_iff.mp h
    cases hq
    exact ⟨esp, buf, 0, rfl⟩
  | write esp fd buf nbytes rate =>
    cases h
    exact ⟨esp, 0, rate, rfl⟩
  | getargs esp buf nbytes =>
    cases h
    exact ⟨esp, buf, 0, rfl⟩

theorem Undisturbed.stack {c : Call} {esp : Int} {buf : Nat} {rate : UInt8}
    (h : Undisturbed pid t solo k (c.action esp buf rate)) : stackOwner esp = k.currPid := by
  cases c with
  | read fd nbytes => exact h.1
  | «open» | close | write | getargs => exact h

/-- A call of the program when it has the turn. -/
theorem Runs.call (h : Runs fs pid t k w) (hknown : KnownTypes fs) (hboot : fs.theBootBlock ≠ 0)
    (hcurr : k.currPid = pid) {c : Call} {w' : View} {b : Answer} (hc : w.call fs c = some (w', b)) {esp : Int}
    {buf : Nat} {rate : UInt8} (hstack : stackOwner esp = pid) (hpage : BuffersInPage k (c.action esp buf rate)) :
    ∃ k', Answered k pid t (c.action esp buf rate) c b w' k' := by
  subst hstack
  rw [← h.fs] at hknown hboot hc
  exact h.sees.call h.grid (h.turn_iff.mp hcurr) hknown hboot hc hpage

/-- A call that the program makes is answered as its view says. -/
theorem Runs.own_step (h : Runs fs pid t k w) (hknown : KnownTypes fs) (hboot : fs.theBootBlock ≠ 0) {a : Action}
    (hstarts : StartsShown k a) (hbuf : BuffersInPage k a) (hok : Undisturbed pid t solo k a)
    (ha : BasicOs.act k a = some k') {c : Call} {b : Answer} (hx : exchange pid k a = some (c, b)) {w' : View}
    {b' : Answer} (hc : w.call fs c = some (w', b')) : Runs fs pid t k' w' ∧ b' = b := by
  have hcurr : k.currPid = pid := by
    by_contra hne
    rw [exchange, if_neg hne] at hx
    cases hx
  rw [exchange, if_pos hcurr] at hx
  obtain ⟨hthreads, hflag⟩ := h.threads_act hstarts hok ha
  obtain ⟨esp, buf, rate, rfl⟩ := action_of_exchange hx
  obtain ⟨k₁, hk₁⟩ := h.call hknown hboot hcurr hc (hok.stack.trans hcurr) hbuf
  have he : k₁ = k' := Option.some_inj.mp (hk₁.comes.symm.trans ha)
  have hb : (c, b') = (c, b) := Option.some_inj.mp (hk₁.answer.symm.trans hx)
  rw [he] at hk₁
  exact ⟨⟨hthreads, hflag, h.system.act ha, hk₁.grid, hk₁.fs.trans h.fs, hk₁.sees⟩, congrArg Prod.snd hb⟩

/-- The others leave it as it is. -/
theorem Runs.other_step (h : Runs fs pid t k w) (hfits : fs.ProgramsFit) {a : Action} (hstarts : StartsShown k a)
    (hbuf : BuffersInPage k a) (hok : Undisturbed pid t w.index.isSome k a) (ha : BasicOs.act k a = some k')
    (hx : exchange pid k a = none) :
    Runs fs pid t k' w := by
  obtain ⟨hthreads, hflag⟩ := h.threads_act hstarts hok ha
  have hleaves := h.system.act_leaves h.grid (h.fs ▸ hfits) h.used (fun hne e => hne (h.turn_iff.mpr e)) hok hbuf ha hx
  exact ⟨hthreads, hflag, h.system.act ha, hleaves.grid, hleaves.fs.trans h.fs, hleaves.sees h.sees⟩

/-- No call of the program makes it the only reader of directories. -/
theorem View.index_isSome {c : Call} {w' : View} {b : Answer} (h : w.call fs c = some (w', b)) :
    w'.index.isSome = w.index.isSome := by
  cases c with
  | «open» filename =>
    obtain ⟨rfl, -⟩ := Prod.ext_iff.mp (Option.some.inj h)
    unfold View.open
    split
    · rfl
    · rfl
  | close fd =>
    obtain ⟨rfl, -⟩ := Prod.ext_iff.mp (Option.some.inj h)
    unfold View.close
    split
    · rfl
    · rfl
  | read fd nbytes =>
    have hread : w.read fs fd nbytes = some (w', b) := h
    unfold View.read at hread
    split_ifs at hread
    split at hread
    · cases hread
      rfl
    · split_ifs at hread
      · cases hread
        rfl
      · obtain ⟨i, hi, hread⟩ := Option.map_eq_some_iff.mp hread
        cases hread
        rw [hi]
        rfl
      · cases hread
        rfl
  | write fd buf nbytes =>
    obtain ⟨rfl, -⟩ := Prod.ext_iff.mp (Option.some.inj h)
    unfold View.write
    split
    · rfl
    · split_ifs
      · rfl
      · rfl
      · split
        · rfl
        · dsimp only
          split_ifs
          · rfl
          · rfl
  | getargs nbytes =>
    obtain ⟨rfl, -⟩ := Prod.ext_iff.mp (Option.some.inj h)
    rfl

/-! ## The image stays -/

theorem sysHalt_fs {status : UInt8} {r : Regs} {stale : Nat → UInt8} (h : sysHalt k status r stale = some k') :
    k'.fs = k.fs := by
  have hrel : (releaseProcess k r.esp).fs = k.fs := by
    obtain ⟨_, hrel, -⟩ := releaseProcess_frame k r.esp
    rw [hrel]
    rfl
  rcases sysHalt_cases h with ⟨v, rfl⟩ | ⟨p, inode, entry, args, rfl⟩
  · rw [resumeParent_fs, hrel]
  · rw [launch_fs, hrel]

theorem RunInv.step_fs (h : RunInv k) {e : Event} (hs : BasicOs.step k e = some k') : k'.fs = k.fs := by
  unfold BasicOs.step at hs
  cases e with
  | tick r inner stale =>
    obtain ⟨_, hd⟩ := sendEoi_devicesOnly k 0
    obtain ⟨_, _, _, hsw, -⟩ := switchTo_frame (saveContext (sendEoi k 0) r) ((sendEoi k 0).scheduledProcess + 1)
    dsimp only at hs
    rw [h.pitHandler_eq r inner stale, Option.some_inj] at hs
    rw [← hs, hsw, hd]
    rfl
  | key scancode r stale fmt =>
    obtain ⟨⟨k₁, halts⟩, hk, hs⟩ := Option.bind_eq_some_iff.mp hs
    obtain ⟨keys, hin, -⟩ := keyboardHandler_inputOnly hk
    have hfs : k₁.fs = k.fs := hin.sameRunning.fs
    dsimp only at hs
    split at hs
    · exact (sysHalt_fs hs).trans hfs
    · cases hs
      exact hfs
  | execute command r stale =>
    dsimp only at hs
    split at hs
    · cases hs
    · rename_i he
      rw [← Option.some.inj hs, sysExecute_ret he]
    · rename_i he
      obtain ⟨p, inode, entry, args, -, rfl⟩ := sysExecute_user he
      rw [← Option.some.inj hs, launch_fs]
  | halt status r stale => exact sysHalt_fs hs
  | vidmap screenStart =>
    rw [← Option.some.inj hs]
    exact (sysVidmap_sameRunning k screenStart).fs
  | switch nextTerm =>
    rw [← Option.some.inj hs, switchTerminals_fs]

/-- No action changes the file system. -/
theorem SystemInv.act_fs (h : SystemInv k) {a : Action} (ha : BasicOs.act k a = some k') : k'.fs = k.fs := by
  cases a with
  | event e => exact h.run.step_fs ha
  | rtc =>
    cases ha
    exact (rtcHandler_devicesOnly k).callOnly.sameTables.running.fs
  | exception vec esp cr2 r stale =>
    obtain ⟨k₁, hcall, hh⟩ := act_exception ha
    have hflag : ({ k₁ with exceptionFlag := true } : Kernel).fs = k.fs := hcall.sameTables.running.fs
    rw [sysHalt_fs hh, hflag]
  | store va c =>
    obtain ⟨pa, -, rfl⟩ := Option.map_eq_some_iff.mp ha
    exact (storePhys_sameTables k pa c).running.fs
  | «open» esp filename rate =>
    obtain ⟨⟨k₁, v⟩, ho, rfl⟩ := Option.map_eq_some_iff.mp ha
    exact (sysOpen_index ho).1
  | close esp fd =>
    cases ha
    exact (sysClose_index k esp fd).1
  | read esp fd buf nbytes =>
    obtain ⟨⟨k₁, b⟩, hr, rfl⟩ := Option.map_eq_some_iff.mp ha
    exact (copyOut_sameTables k₁ buf b.2).running.fs.trans (sysRead_frame hr).1
  | write esp fd buf nbytes rate =>
    cases ha
    exact (sysWrite_sameFiles k esp fd buf nbytes rate).1
  | getargs esp buf nbytes =>
    cases ha
    exact (copyOut_sameTables k buf _).running.fs

/-! ## From the start of the program on -/

/-- A program is started: after boot, and after any orderly run that has left every cursor on its screen, a process of
the displayed terminal executes `command`, and the CPU goes on in the new program. -/
structure Launch (fs : FileSystem) where
  (a b : Nat)
  linked : TablesLinked a b
  hasShell : HasShell fs
  knownTypes : KnownTypes fs
  fits : fs.ProgramsFit
  local_ : Fin 3 → Term
  (r inner : Fin 3 → Regs)
  stale : Nat → UInt8
  booted : Kernel
  boots : bootedAt fs a b local_ r inner stale = some booted
  caller : Kernel
  tasks : Tasks
  runs : Reach (observed act followTasks) (fun p e => Orderly p.1 e) (booted, bootTasks r) (caller, tasks)
  grid : AllOnGrid caller
  command : Nat → UInt8
  (cmd args : List UInt8)
  parses : parseCommand command = some (cmd, args)
  regs : Regs
  readBuf : Nat → UInt8
  shown : caller.currTerm = caller.scheduledProcess
  started : Kernel
  starts : sysExecute caller (some command) regs readBuf = .user started

/-- The pid that the program has got. -/
def Launch.process (l : Launch fs) : Int := l.started.currPid

/-- The terminal that it runs on. -/
def Launch.terminal (l : Launch fs) : Fin 3 := l.caller.scheduledProcess

/-- What it sees at its start. -/
def Launch.view (l : Launch fs) (screen : LoneScreen) (index : Option Nat) : View :=
  .initial (cstr l.args) screen index

theorem Launch.started_eq (l : Launch fs) : ∃ inode entry, freePid l.caller.pidArray = some l.process ∧
    l.started = launch l.caller l.process inode entry l.args l.regs := by
  have h := l.starts
  unfold sysExecute at h
  simp only [l.parses] at h
  split_ifs at h
  split at h
  · cases h
  · split at h
    · cases h
    · rename_i inode entry _ _ p hp
      split_ifs at h
      have he := (ExecuteResult.user.inj h).symm
      have hpid : l.process = p := by
        unfold Launch.process
        rw [he, launch_currPid]
      rw [hpid]
      exact ⟨inode, entry, hp, he⟩

theorem Launch.bootBlock_ne_zero (l : Launch fs) : fs.theBootBlock ≠ 0 := by
  obtain ⟨d, hd, -⟩ := l.hasShell
  intro h0
  rw [lookup, if_pos (Or.inl h0)] at hd
  cases hd

/-- The caller is a state of the whole system. -/
theorem Launch.caller_inv (l : Launch fs) : (Threaded l.caller l.tasks ∧ l.caller.exceptionFlag = false) ∧
    SystemInv l.caller ∧ l.caller.fs = fs := by
  have hsys := l.runs.invariant (I := fun p => SystemInv p.1 ∧ p.1.fs = fs)
    ⟨SystemInv.of_boot l.linked l.hasShell l.boots, (bootRun_booted (fun _ _ _ => rfl) l.hasShell l.boots).2.1⟩
    fun p e q hp _ hs => by
      obtain ⟨hs, -⟩ := observed_eq_some.mp hs
      exact ⟨hp.1.act hs, (hp.1.act_fs hs).trans hp.2⟩
  exact ⟨Threaded.reach (Threaded.of_boot l.hasShell l.boots) (fun _ _ hok => hok.1) l.runs, hsys⟩

/-- The program has just been entered. -/
theorem Launch.runs_started (l : Launch fs) {screen : LoneScreen} (hscreen : Shows l.caller l.terminal screen)
    {index : Option Nat} (hindex : ∀ i, index = some i → l.caller.globalFileIndex = i) :
    Runs fs l.process l.terminal l.started (l.view screen index) := by
  obtain ⟨⟨hm, hflag⟩, hsys, hfs⟩ := l.caller_inv
  have hexec : BasicOs.step l.caller (.execute (some l.command) l.regs l.readBuf) = some l.started := by
    unfold BasicOs.step
    dsimp only
    rw [l.starts]
  have hsys' := hsys.step hexec
  obtain ⟨inode, entry, hpid, he⟩ := l.started_eq
  obtain ⟨hfiles, hargs⟩ := launch_files_self l.caller l.process inode entry l.args l.regs
  obtain ⟨hscreens, hvars⟩ := launch_sameScreens l.caller l.process inode entry l.args l.regs
    (by rw [hfs]; exact l.fits)
  have hthreads := hm.call l.shown hpid inode entry l.args l.regs
  have hmode := launch_mode l.caller l.process inode entry l.args l.regs
  rw [← he] at hfiles hargs hscreens hvars hthreads hmode
  refine ⟨⟨_, hthreads, ⟨l.process, l.regs⟩, l.tasks.calls l.tasks.turn, ?_, rfl⟩, hmode.2.trans hflag, hsys',
    hscreens.allOnGrid l.grid, ?_, ?_⟩
  · rw [show l.terminal = l.tasks.turn from hm.turn]
    exact Threads.State.calls_call l.tasks _
  · exact (congrArg FileVars.fs hvars).trans hfs
  · refine ⟨by rw [hargs]; rfl, hfiles, fun fd f hf => ?_, hscreens.shows hscreen, fun i hi => ?_⟩
    · cases hf
    · exact (congrArg FileVars.globalFileIndex hvars).trans (hindex i hi)

/-! ## In company -/

section InCompany
open Client
variable {σ : Type} (P : Program σ Call Answer)

/-- What happens while the program runs: programs are started from the displayed terminal, buffers lie in the caller's
page, the program is undisturbed, and its calls are those that `P` makes. -/
def InCompany (pid : Int) (t : Fin 3) (solo : Bool) (p : Kernel × (σ × List Call)) (a : Action) : Prop :=
  (StartsShown p.1 a ∧ BuffersInPage p.1 a ∧ Undisturbed pid t solo p.1 a) ∧
    ∀ c b, exchange pid p.1 a = some (c, b) → P.call p.2.1 = some c

/-- The next call `c` of the program that sees `w` comes back when the program has the turn. -/
def ComesBack (fs : FileSystem) (pid : Int) (k : Kernel) (w : View) (c : Call) : Prop :=
  ∀ esp buf rate, stackOwner esp = pid → BuffersInPage k (c.action esp buf rate) →
    ∃ k' w' b, w.call fs c = some (w', b) ∧ act k (c.action esp buf rate) = some k' ∧
      exchange pid k (c.action esp buf rate) = some (c, b)

variable {P} (l : Launch fs) {s₀ s : σ} {cs : List Call} {screen : LoneScreen} {index : Option Nat}

/-- It makes the calls that it makes alone, as long as these are answered. -/
theorem Launch.makes (hscreen : Shows l.caller l.terminal screen)
    (hindex : ∀ i, index = some i → l.caller.globalFileIndex = i)
    (hserved : ∀ cs w s c, Makes (View.call fs) P (l.view screen index, s₀) cs (w, s) → P.call s = some c →
      (w.call fs c).isSome)
    (hrun : Reach (observed act (follow P (exchange l.process)))
      (InCompany P l.process l.terminal index.isSome) (l.started, (s₀, [])) (k, (s, cs))) :
    ∃ w, Makes (View.call fs) P (l.view screen index, s₀) cs (w, s) ∧ Runs fs l.process l.terminal k w := by
  have hboot := l.bootBlock_ne_zero
  let I (k : Kernel) (w : View) : Prop := Runs fs l.process l.terminal k w ∧ w.index.isSome = index.isSome
  obtain ⟨w, hw, hruns, -⟩ := @follow_makes _ _ _ _ (View.call fs) P _ _ _ _ _ I _ _ _ _ _ _ hrun
    ⟨l.runs_started hscreen hindex, rfl⟩
    (fun k a k' w s cs c b hI hw hok ha hx => by
      obtain ⟨⟨hstarts, hbuf, hundisturbed⟩, hcall⟩ := hok
      have hc := hcall c b hx
      obtain ⟨⟨w', b'⟩, hserve⟩ := Option.isSome_iff_exists.mp (hserved cs w s c hw hc)
      obtain ⟨hruns', rfl⟩ := hI.1.own_step l.knownTypes hboot hstarts hbuf hundisturbed ha hx hserve
      exact ⟨hc, w', hserve, hruns', (View.index_isSome hserve).trans hI.2⟩)
    (fun k a k' w g hI hok ha hx => by
      obtain ⟨⟨hstarts, hbuf, hundisturbed⟩, -⟩ := hok
      rw [← hI.2] at hundisturbed
      exact ⟨hI.1.other_step l.fits hstarts hbuf hundisturbed ha hx, hI.2⟩)
  exact ⟨w, hw, hruns⟩

theorem Runs.comesBack {w : View} (h : Runs fs l.process l.terminal k w) (hcurr : k.currPid = l.process) {c : Call}
    (hc : (w.call fs c).isSome) : ComesBack fs l.process k w c := by
  intro esp buf rate hstack hpage
  obtain ⟨⟨w', b⟩, hserve⟩ := Option.isSome_iff_exists.mp hc
  obtain ⟨k', hk'⟩ := h.call l.knownTypes l.bootBlock_ne_zero hcurr hserve hstack hpage
  exact ⟨k', w', b, hserve, hk'.comes, by rw [exchange, if_pos hcurr]; exact hk'.answer⟩

/-- While nothing else happens the turn stays, and the next call can be made. -/
theorem Runs.call_next {w w' : View} (h : Runs fs l.process l.terminal k w) (hcurr : k.currPid = l.process)
    {c : Call} {b : Answer} (hc : P.call s = some c) (hserve : w.call fs c = some (w', b)) {esp : Int}
    (hstack : stackOwner esp = l.process) (hroom : usrBuf + c.room ≤ one32Mb) (solo : Bool)
    (made : List Call) :
    ∃ a k', InCompany P l.process l.terminal solo (k, (s, made)) a ∧ act k a = some k' ∧
      exchange l.process k a = some (c, b) ∧ Runs fs l.process l.terminal k' w' ∧ k'.currPid = l.process := by
  have hpage : InPage usrBuf b.2 := by
    have hlen := View.call_length_le hserve
    exact ⟨by decide, by omega⟩
  have hbuf : BuffersInPage k (c.action esp usrBuf 0) := by
    have hsees := h.sees
    have hserve' := hserve
    rw [← hstack] at hsees
    rw [← h.fs] at hserve'
    exact hsees.buffersInPage (h.fs ▸ l.bootBlock_ne_zero) hserve' hpage 0
  obtain ⟨k', hk'⟩ := h.call l.knownTypes l.bootBlock_ne_zero hcurr hserve hstack hbuf
  have hx : exchange l.process k (c.action esp usrBuf 0) = some (c, b) := by
    rw [exchange, if_pos hcurr]
    exact hk'.answer
  have hstarts : StartsShown k (c.action esp usrBuf 0) := by cases c <;> trivial
  have hok : Undisturbed l.process l.terminal solo k (c.action esp usrBuf 0) := by
    have hown := hstack.trans hcurr.symm
    cases c with
    | read fd nbytes => exact ⟨hown, fun _ hne => absurd hcurr hne⟩
    | «open» | close | write | getargs => exact hown
  obtain ⟨hruns', -⟩ := h.own_step l.knownTypes l.bootBlock_ne_zero hstarts hbuf hok hk'.comes hx hserve
  refine ⟨_, k', ⟨⟨hstarts, hbuf, hok⟩, fun c' b' hx' => ?_⟩, hk'.comes, hx, hruns', ?_⟩
  · rw [hx] at hx'
    cases hx'
    exact hc
  · obtain ⟨m, hm, -⟩ := h.threads
    have hstay : request m k (c.action esp usrBuf 0) = .stay := by cases c <;> rfl
    have hnext := (hm.act h.exceptionFlag hstarts hk'.comes).represents
    rw [hstay] at hnext
    exact hruns'.turn_iff.mpr (hnext.turn.trans (hm.turn.symm.trans (h.turn_iff.mp hcurr)))

/-- With the turn for itself the program makes all of its calls, into a buffer at the start of its page. -/
theorem Launch.exists_run {w : View} (hscreen : Shows l.caller l.terminal screen)
    (hindex : ∀ i, index = some i → l.caller.globalFileIndex = i)
    (h : Makes (View.call fs) P (l.view screen index, s₀) cs (w, s)) {esp : Int} (hstack : stackOwner esp = l.process)
    (hroom : ∀ c ∈ cs, usrBuf + c.room ≤ one32Mb) :
    ∃ k, Reach (observed act (follow P (exchange l.process))) (InCompany P l.process l.terminal index.isSome)
      (l.started, (s₀, [])) (k, (s, cs)) := by
  have hgo : ∀ {p q : View × σ} {ds : List Call}, Makes (View.call fs) P p ds q →
      ∀ {k : Kernel} {cs : List Call}, (∀ c ∈ ds, usrBuf + c.room ≤ one32Mb) →
      Reach (observed act (follow P (exchange l.process))) (InCompany P l.process l.terminal index.isSome)
        (l.started, (s₀, [])) (k, (p.2, cs)) → Runs fs l.process l.terminal k p.1 → k.currPid = l.process →
      ∃ k', Reach (observed act (follow P (exchange l.process))) (InCompany P l.process l.terminal index.isSome)
        (l.started, (s₀, [])) (k', (q.2, cs ++ ds)) := by
    intro p q ds h
    induction h with
    | done p =>
      intro k cs _ hrun _ _
      rw [List.append_nil]
      exact ⟨k, hrun⟩
    | @call w w' s c b ds q hc hserve _ ih =>
      intro k cs hroom hrun hruns hcurr
      obtain ⟨a, k', hok, ha, hx, hruns', hcurr'⟩ := hruns.call_next l hcurr hc hserve hstack
        (hroom c List.mem_cons_self) index.isSome cs
      have hfollow : follow P (exchange l.process) (s, cs) k a k' = (P.after s b, cs ++ [c]) := by
        unfold follow
        rw [hx]
      have hrun' : Reach (observed act (follow P (exchange l.process)))
          (InCompany P l.process l.terminal index.isSome) (l.started, (s₀, [])) (k', (P.after s b, cs ++ [c])) :=
        .tail a hrun hok (observed_eq_some.mpr ⟨ha, hfollow.symm⟩)
      obtain ⟨k'', hlast⟩ := ih (fun c hmem => hroom c (List.mem_cons_of_mem _ hmem)) hrun' hruns' hcurr'
      rw [List.append_assoc] at hlast
      exact ⟨k'', hlast⟩
  exact hgo h hroom (.refl _) (l.runs_started hscreen hindex) rfl

end InCompany

/-! ## A launch -/

theorem bootState_frame (k : Kernel) (n : Nat) (r : Regs) :
    (bootState k n r).toTty = k.toTty ∧ (bootState k n r).toFileVars = k.toFileVars := by
  unfold bootState
  split
  · obtain ⟨_, _, _, h, -⟩ := schedulingVidmap_frame k k.scheduledProcess k.currTerm
    rw [h]
    exact ⟨rfl, rfl⟩
  · obtain ⟨_, _, _, h, -⟩ := schedulingVidmap_frame { saveContext k r with scheduledProcess := 1 } 1 k.currTerm
    rw [h]
    exact ⟨rfl, rfl⟩
  · obtain ⟨_, _, _, h, -⟩ :=
      schedulingVidmap_frame { saveContext k r with bootedFlag := true, scheduledProcess := 2 } 2 k.currTerm
    rw [h]
    exact ⟨rfl, rfl⟩

theorem BootedTo.tick_frame {n : Nat} (h : BootedTo n k) (hn : n < 3) (hshell : HasShell k.fs)
    (hfits : k.fs.ProgramsFit) (hs : n = 0 → k.scheduledProcess = 0) {r inner : Regs} {stale : Nat → UInt8}
    (ht : schedule k r inner stale = some k') : SameScreens k k' ∧ k'.toFileVars = k.toFileVars := by
  obtain ⟨inode, entry, rfl⟩ := h.tick_launch hn hshell hs ht
  obtain ⟨htty, hvars⟩ := bootState_frame k n r
  obtain ⟨hscreens, hvars'⟩ := launch_sameScreens (bootState k n r) n inode entry [] inner
    (congrArg FileVars.fs hvars ▸ hfits)
  exact ⟨(SameScreens.of_tty htty).trans hscreens, hvars'.trans hvars⟩

/-- After boot every cursor is on its screen, and the directory has not been read. -/
theorem AllOnGrid.of_boot {a b : Nat} (hshell : HasShell fs) (hfits : fs.ProgramsFit) {local_ : Fin 3 → Term}
    {r inner : Fin 3 → Regs} {stale : Nat → UInt8} (h : bootedAt fs a b local_ r inner stale = some k) :
    AllOnGrid k ∧ k.globalFileIndex = 0 := by
  have hpids : ∀ p : Int, 0 ≤ p → p ≤ 5 → (initPaging (loadedAt fs a b)).pidArray p = unused := fun _ _ _ => rfl
  have b₀ := bootedTo_initialBoot hpids local_
  have hgrid : AllOnGrid (initialBoot (initPaging (loadedAt fs a b)) local_) := by
    refine ⟨fun u => ⟨bootScreen (initialBoot (initPaging (loadedAt fs a b)) local_) u, rfl, rfl, rfl⟩, fun u => ?_⟩
    show ((videoPages u : Nat) : Int) = backupPage u
    fin_cases u <;> rfl
  have hindex : (initialBoot (initPaging (loadedAt fs a b)) local_).globalFileIndex = 0 := rfl
  obtain ⟨k₁, h₁, h⟩ := Option.bind_eq_some_iff.mp h
  obtain ⟨k₂, h₂, h₃⟩ := Option.bind_eq_some_iff.mp h
  have t₁ := bootedTo_tick b₀ (by decide) hshell (fun _ => rfl) h₁
  have hfs₁ : k₁.fs = fs := t₁.fs
  have t₂ := bootedTo_tick t₁.shells (by decide) (hfs₁ ▸ hshell) (fun h => absurd h (by decide)) h₂
  have hfs₂ : k₂.fs = fs := t₂.fs.trans hfs₁
  obtain ⟨s₁, v₁⟩ := b₀.tick_frame (by decide) hshell hfits (fun _ => rfl) h₁
  obtain ⟨s₂, v₂⟩ := t₁.shells.tick_frame (by decide) (hfs₁ ▸ hshell) (hfs₁ ▸ hfits) (fun h => absurd h (by decide)) h₂
  obtain ⟨s₃, v₃⟩ := t₂.shells.tick_frame (by decide) (hfs₂ ▸ hshell) (hfs₂ ▸ hfits) (fun h => absurd h (by decide)) h₃
  refine ⟨((s₁.trans s₂).trans s₃).allOnGrid hgrid, ?_⟩
  rw [v₃, v₂, v₁]
  exact hindex

/-- An image whose programs can be started, the shell among them. -/
structure Bootable (fs : FileSystem) : Prop where
  hasShell : HasShell fs
  wellFormed : WellFormed fs
  fits : ∀ i < fs.inodeCount, usrBuf + fs.inodeLength i ≤ one32Mb

theorem Bootable.programBytes_length (h : Bootable fs) {inode : Nat} (hlt : inode < fs.inodeCount) :
    (programBytes fs inode).length = fs.inodeLength inode := by
  have hmax := h.wellFormed.length_le inode hlt
  rw [programBytes_eq h.wellFormed.bootBlock_ne_zero h.wellFormed.bootBlock.symm hlt
    (by simp only [blockSize] at hmax ⊢; omega)]
  simp [fileBytes]

theorem Bootable.programsFit (h : Bootable fs) : fs.ProgramsFit := by
  intro inode
  by_cases hlt : inode < fs.inodeCount
  · rw [h.programBytes_length hlt]
    exact h.fits inode hlt
  · -- `read_data` refuses an inode that the image does not have
    have hcount : fs.inodeCount < 2 ^ 32 := load32_lt _ _
    obtain ⟨d, -, hd, -⟩ := h.hasShell
    have hrefuses : fs.Refuses inode false := by
      refine Or.inr (Or.inr ?_)
      unfold u32 minusOne
      omega
    rw [programBytes, readData_of_refuses hrefuses]
    decide

/-- A shell is started when a pid is free. -/
theorem Bootable.sysExecute_shell (h : Bootable fs) (hfs : k.fs = fs) {p : Int} (hpid : freePid k.pidArray = some p)
    {command : Nat → UInt8} {args : List UInt8} (hparse : parseCommand command = some (shellName, args))
    (hline : command 0 ≠ chNewline) (r : Regs) (stale : Nat → UInt8) :
    ∃ inode entry, sysExecute k (some command) r stale = .user (launch k p inode entry args r) := by
  obtain ⟨⟨inode, entry⟩, hp⟩ := findProgram_of_hasShell h.hasShell stale
  obtain ⟨d, hd, hinode, -⟩ := h.hasShell
  obtain ⟨d', hd', he⟩ := findProgram_inode hp
  rw [readDentryByName_eq, hd] at hd'
  cases hd'
  have hlt : inode < fs.inodeCount := by
    rw [show d.inodeNum = inode from he] at hinode
    exact hinode
  have hfits := (h.programsFit inode).trans (le_loadEnd k)
  refine ⟨inode, entry, ?_⟩
  unfold sysExecute
  simp only [hparse, hfs, hp, hpid]
  rw [if_neg hline, if_neg (not_lt.mpr hfits)]

/-- Each tick of the boot starts a shell. -/
theorem Bootable.schedule (h : Bootable fs) (hfs : k.fs = fs) {n : Nat} (hb : BootedTo n k) (hn : n < 3)
    (hs : n = 0 → k.scheduledProcess = 0) (r inner : Regs) (stale : Nat → UInt8) :
    ∃ k', BasicOs.schedule k r inner stale = some k' ∧ BootTick n k r k' := by
  obtain ⟨hboot, hfs', -⟩ := bootedTo_bootState hb hn r hs
  obtain ⟨inode, entry, he⟩ := h.sysExecute_shell (hfs'.trans hfs) (hboot.freePid_eq hn) parseCommand_shell (by decide)
    inner stale
  have ht := (hb.schedule_eq hn r inner stale).2 _ he
  exact ⟨_, ht, bootedTo_tick hb hn (hfs ▸ h.hasShell) hs ht⟩

theorem Bootable.boots (h : Bootable fs) (a b : Nat) :
    ∃ k, bootedAt fs a b (fun _ => Term.zeroed) bootRegs bootInner (fun _ => 0) = some k := by
  have b₀ : BootedTo 0 (initialBoot (initPaging (loadedAt fs a b)) fun _ => Term.zeroed) :=
    bootedTo_initialBoot (fun _ _ _ => rfl) _
  obtain ⟨k₁, h₁, t₁⟩ := h.schedule rfl b₀ (by decide) (fun _ => rfl) (bootRegs 0) (bootInner 0) fun _ => 0
  have f₁ : k₁.fs = fs := t₁.fs
  obtain ⟨k₂, h₂, t₂⟩ := h.schedule f₁ t₁.shells (by decide) (fun h => absurd h (by decide)) (bootRegs 1) (bootInner 1)
    fun _ => 0
  obtain ⟨k₃, h₃, -⟩ := h.schedule (t₂.fs.trans f₁) t₂.shells (by decide) (fun h => absurd h (by decide)) (bootRegs 2)
    (bootInner 2) fun _ => 0
  exact ⟨k₃, by rw [bootedAt, bootRun, h₁, Option.bind_some, h₂, Option.bind_some, h₃]⟩

/-- A command is executed after boot, from the terminal that has the turn. -/
theorem Bootable.exists_launch (h : Bootable fs) (hknown : KnownTypes fs) {command : Nat → UInt8} {args : List UInt8}
    (hparse : parseCommand command = some (shellName, args)) (hline : command 0 ≠ chNewline) :
    ∃ l : Launch fs, (l.args = args ∧ l.process = 3) ∧ l.caller.globalFileIndex = 0 := by
  obtain ⟨k₁, hboot⟩ := h.boots 0x500000 0x501000
  obtain ⟨hbooted₁, hfs₁, -, hcurr, -⟩ := bootRun_booted (fun _ _ _ => rfl) h.hasShell hboot
  have hsched : k₁.scheduledProcess = 2 := Fin.ext (by have := hbooted₁.current.symm.trans hcurr; omega)
  obtain ⟨hgrid₁, hindex₁⟩ := AllOnGrid.of_boot h.hasShell h.programsFit hboot
  -- the terminal that has the turn is displayed
  have hs : act k₁ (.event (.switch 2)) = some (switchTerminals k₁ 2) := rfl
  have hbooted := hbooted₁.switchTerminals 2
  have hgrid := hgrid₁.switchTerminals 2
  have hfs := (switchTerminals_fs k₁ 2).trans hfs₁
  have hindex : (switchTerminals k₁ 2).globalFileIndex = 0 := by
    obtain ⟨_, _, he⟩ := switchTerminals_ttyOnly k₁ 2
    rw [he]
    exact hindex₁
  have hshown : (switchTerminals k₁ 2).currTerm = (switchTerminals k₁ 2).scheduledProcess :=
    (switchTerminals_currTerm k₁ 2).trans ((switchTerminals_scheduledProcess k₁ 2).trans hsched).symm
  generalize switchTerminals k₁ 2 = k at hs hbooted hgrid hfs hindex hshown
  have hrun : Reach (observed act followTasks) (fun p e => Orderly p.1 e) (k₁, bootTasks bootRegs)
      (k, bootTasks bootRegs) :=
    .tail (.event (.switch 2)) (.refl _) ⟨trivial, trivial⟩ (observed_eq_some.mpr ⟨hs, rfl⟩)
  obtain ⟨inode, entry, he⟩ := h.sysExecute_shell hfs hbooted.freePid_eq hparse hline (regsOf 2) fun _ => 0
  refine ⟨{
    a := 0x500000, b := 0x501000, linked := tablesLinked_fiveMb, hasShell := h.hasShell, knownTypes := hknown
    fits := h.programsFit, local_ := fun _ => Term.zeroed, r := bootRegs, inner := bootInner, stale := fun _ => 0
    booted := k₁, boots := hboot
    caller := k, tasks := bootTasks bootRegs, runs := hrun, grid := hgrid, command := command, cmd := shellName
    args := args, parses := hparse, regs := regsOf 2, readBuf := fun _ => 0, shown := hshown
    started := launch k 3 inode entry args (regsOf 2), starts := he }, ⟨rfl, ?_⟩, hindex⟩
  exact launch_currPid k 3 inode entry args (regsOf 2)

theorem bootable_shellImage : Bootable shellImage where
  hasShell := hasShell_shellImage
  wellFormed := shellImage_wellFormed
  fits := by decide +kernel

/-- The command `shell shell`. -/
def shellShell : Nat → UInt8 := ofList (shellName ++ chSpace :: shellName)

theorem parseCommand_shellShell : parseCommand shellShell = some (shellName, shellName) := by decide +kernel

/-- A program that asks for its arguments. -/
def askArgs : Client.Program (Option Answer) Call Answer where
  call s := if s.isNone then some (.getargs 8) else none
  after _ b := some b

end BasicOs
