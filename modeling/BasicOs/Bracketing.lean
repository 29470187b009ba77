import BasicOs.Running

/-!
# Callers, children and saved contexts

`sys_execute` puts a new process into the slot of the displayed terminal, and takes the process there for
the caller. While the terminal of whoever starts a program is the displayed one, the scheduler's variables
agree, and then

* a child is bracketed by its caller: the caller is its parent, and when the child halts the process made
  current is the one whose kernel stack is resumed (`execute_halt_bracketed`);
* each tick saves the registers of the interrupted process in its own control block and resumes a process
  with the registers of its own last preemption (`contexts_paired`).

`SlotInv` is the agreement; it is kept by every step that `CallerShown` allows.
-/

namespace BasicOs
open Run LinkedStack

/-! ## The condition -/

/-- The events of processes: ticks, `sys_execute`, `sys_halt` and `switch_terminals`. -/
def ProcessEvent : Event → Prop
  | .tick .. | .execute .. | .halt .. | .switch .. => True
  | .key .. | .vidmap .. => False

/-- The command names an executable file, and there is a pid for it. -/
def Starts (k : Kernel) (command : Option (Nat → UInt8)) (stale : Nat → UInt8) : Prop :=
  ∃ c cmd args, command = some c ∧ c 0 ≠ chNewline ∧ parseCommand c = some (cmd, args) ∧
    (findProgram k.fs cmd stale).isSome ∧ (freePid k.pidArray).isSome

/-- A program is started only by a process of the displayed terminal. -/
def CallerShown (k : Kernel) : Event → Prop
  | .execute command _ stale => Starts k command stale → k.currTerm = k.scheduledProcess
  | _ => True

/-- `sys_execute` reads its registers on the stack the TSS gave it: a system call enters the kernel there. -/
def OnKernelStack (k : Kernel) : Event → Prop
  | .execute _ r _ =>
    (k.tss.esp0 - eightKb ≤ r.esp ∧ r.esp < k.tss.esp0) ∧ k.tss.esp0 - eightKb ≤ r.ebp ∧ r.ebp < k.tss.esp0
  | _ => True

theorem starts_of_user {k k' : Kernel} {command : Option (Nat → UInt8)} {r : Regs} {stale : Nat → UInt8}
    (h : sysExecute k command r stale = .user k') : Starts k command stale := by
  unfold sysExecute at h
  cases command with
  | none => cases h
  | some c =>
    dsimp only at h
    split at h
    · cases h
    · rename_i hc
      split at h
      · cases h
      · rename_i cmd args hparse
        split at h
        · cases h
        · rename_i inode entry hfind
          split at h
          · cases h
          · rename_i pid hpid
            exact ⟨c, cmd, args, rfl, hc, hparse, by rw [hfind]; rfl, by rw [hpid]; rfl⟩

/-! ## What an event changes -/

/-- The changes the events of processes make, once the terminals are booted. -/
inductive Change (k : Kernel) : Event → Kernel → Prop
  | tick (r inner : Regs) (stale : Nat → UInt8) :
    Change k (.tick r inner stale) (switchTo (saveContext (sendEoi k 0) r) (k.scheduledProcess + 1))
  | failed (command : Option (Nat → UInt8)) (r : Regs) (stale : Nat → UInt8) :
    Change k (.execute command r stale) k
  | started (command : Option (Nat → UInt8)) (r : Regs) (stale : Nat → UInt8) (pid : Int) (inode entry : Nat)
    (args : List UInt8) : Starts k command stale → freePid k.pidArray = some pid →
    Change k (.execute command r stale) (launch k pid inode entry args r)
  | restarted (status : UInt8) (r : Regs) (stale : Nat → UInt8) (k₁ : Kernel) (inode entry : Nat) :
    k.currPid ≤ 2 → Released k k₁ → Change k (.halt status r stale) (launch k₁ k.currPid inode entry [] r)
  | ended (status : UInt8) (r : Regs) (stale : Nat → UInt8) (k₁ : Kernel) (v : Int) :
    2 < k.currPid → Released k k₁ → Change k (.halt status r stale) (resumeParent k₁ v)
  | switched (t : Fin 3) : Change k (.switch t) (switchTerminals k t)

variable {k k' : Kernel}

theorem RunInv.sysHalt_change (h : RunInv k) {status : UInt8} {r : Regs} {stale : Nat → UInt8}
    (hs : BasicOs.sysHalt k status r stale = some k') : Change k (.halt status r stale) k' := by
  have hr := h.released r.esp
  by_cases hcurr : k.currPid ≤ 2
  · rcases sysHalt_shell hcurr h.hasShell (h.freePid_release hr hcurr) status stale with hf | ⟨inode, entry, he⟩
    · rw [hf] at hs
      cases hs
    · rw [he, Option.some_inj] at hs
      rw [← hs]
      exact .restarted status r stale _ inode entry hcurr hr
  · have hchild : 2 < k.currPid := by omega
    obtain ⟨v, hv⟩ := sysHalt_child hchild status r stale
    rw [hv, Option.some_inj] at hs
    rw [← hs]
    exact .ended status r stale _ v hchild hr

theorem RunInv.change (h : RunInv k) {e : Event} (he : ProcessEvent e) (hs : BasicOs.step k e = some k') :
    Change k e k' := by
  unfold BasicOs.step at hs
  cases e with
  | tick r inner stale =>
    dsimp only at hs
    have hsched : (sendEoi k 0).scheduledProcess = k.scheduledProcess := by
      obtain ⟨_, hd⟩ := sendEoi_devicesOnly k 0
      rw [hd]
    rw [h.pitHandler_eq, hsched, Option.some_inj] at hs
    rw [← hs]
    exact .tick r inner stale
  | execute command r stale =>
    dsimp only at hs
    rcases sysExecute_cases k command r stale with ⟨_, hx⟩ | ⟨v, hx⟩ | ⟨pid, inode, entry, args, hpid, hx⟩
    · rw [hx] at hs
      cases hs
    · rw [hx] at hs
      rw [← Option.some.inj hs]
      exact .failed command r stale
    · have hstarts := starts_of_user hx
      rw [hx] at hs
      rw [← Option.some.inj hs]
      exact .started command r stale pid inode entry args hstarts hpid
  | halt status r stale => exact h.sysHalt_change hs
  | switch t =>
    rw [← Option.some.inj hs]
    exact .switched t
  | key => exact he.elim
  | vidmap => exact he.elim

/-! ## The agreement -/

/-- The running process is the one of the scheduled slot, the terminals know the processes of their slots,
and the stack of slot `t` ends in the shell with pid `t`. -/
structure SlotInv (k : Kernel) : Prop where
  run : RunInv k
  current : k.currPid = k.schedulingArray k.scheduledProcess
  active : ∀ t, (k.terminals t).activePid = k.schedulingArray t
  home : ∀ t, IsShell (k.schedulingArray t) → k.schedulingArray t = t.val
  parents : ∀ t p, IsChild k t p → IsShell (k.pcbs p).parentPid → (k.pcbs p).parentPid = t.val

/-- No process is on top of two slots. -/
theorem SlotInv.slots_injective (h : SlotInv k) {t u : Fin 3} (htu : k.schedulingArray t = k.schedulingArray u) :
    t = u := by
  obtain ⟨l, hl, -⟩ := h.run.chains t
  obtain ⟨l', hl', -⟩ := h.run.chains u
  rcases Linked.top_cases hl with ht | ht
  · have h1 := h.home t ht
    have h2 := h.home u (htu ▸ ht)
    exact Fin.ext (by omega)
  · rcases Linked.top_cases hl' with hu | hu
    · exact absurd (htu ▸ hu.2) (not_le.mpr (lt_of_lt_of_le (by decide) ht.1.1))
    · exact ht.2.2.symm.trans ((congrArg (fun p => (k.pcbs p).termId) htu).trans hu.2.2)

theorem SlotInv.of_booted (h : Booted k) (hshell : HasShell k.fs) : SlotInv k where
  run := .of_booted h hshell
  current := by rw [h.current, h.shells.slots, if_pos k.scheduledProcess.isLt]
  active t := by rw [h.shells.active t t.isLt, h.shells.slots, if_pos t.isLt]
  home t _ := by rw [h.shells.slots, if_pos t.isLt]
  parents t p hp _ := by
    have h3 := hp.1.1
    have hu := hp.2.1
    rw [h.shells.pids p (by omega) hp.1.2, if_neg (by omega)] at hu
    cases hu

/-! ## The agreement is kept -/

theorem SlotInv.switchTo (h : SlotInv k) (next : Fin 3) : SlotInv (switchTo k next) := by
  have hrun := h.run.switchTo next
  obtain ⟨pd, pt, vt, hsw, -⟩ := switchTo_frame k next
  rw [h.run.own _ (h.run.slot_range next).1 (h.run.slot_range next).2 (h.run.slot_used next)] at hsw
  rw [hsw] at hrun ⊢
  exact ⟨hrun, rfl, h.active, h.home, h.parents⟩

/-- A change that leaves processes, slots and `active_pid`s alone. -/
theorem SlotInv.congr (h : SlotInv k) (hs : SameRunning k k') (hsched : k'.scheduledProcess = k.scheduledProcess)
    (hterm : ∀ t, (k'.terminals t).activePid = (k.terminals t).activePid) : SlotInv k' where
  run := h.run.congr hs
  current := by
    rw [hs.currPid, hs.schedulingArray, hsched]
    exact h.current
  active t := by
    rw [hterm, hs.schedulingArray]
    exact h.active t
  home t := by
    rw [hs.schedulingArray]
    exact h.home t
  parents t p hp := by
    obtain ⟨-, hparent, hid⟩ := hs.pcbs p
    rw [hparent]
    refine h.parents t p ⟨hp.1, ?_, hid.symm.trans hp.2.2⟩
    rw [← hs.pidArray]
    exact hp.2.1

/-- A child started from the displayed terminal. -/
theorem SlotInv.launch_child (h : SlotInv k) (hshown : k.currTerm = k.scheduledProcess) {pid : Int}
    (hpid : freePid k.pidArray = some pid) (inode entry : Nat) (args : List UInt8) (r : Regs) :
    SlotInv (launch k pid inode entry args r) := by
  obtain ⟨h3, -⟩ := h.run.freePid_range hpid
  have hslot : launchSlot k pid = k.scheduledProcess := (if_neg (by omega)).trans hshown
  obtain ⟨-, hterm, -, -, hparent⟩ := launch_pcb_self k pid inode entry args r
  refine ⟨h.run.launch_child inode entry args r hpid, ?_, fun t => ?_, fun t => ?_, fun t p hp => ?_⟩
  · rw [launch_currPid, launch_schedulingArray, launch_scheduledProcess, hslot, Function.update_self]
  · rw [launch_activePid, launch_schedulingArray, Function.update_apply, h.active]
  · rw [launch_schedulingArray, Function.update_apply]
    split_ifs
    · exact fun hs => absurd hs.2 (by omega)
    · exact h.home t
  · by_cases hp' : p = pid
    · subst hp'
      obtain rfl : k.currTerm = t := (hslot.trans hshown.symm).symm.trans (hterm.symm.trans hp.2.2)
      rw [hparent (by omega)]
      exact h.home k.currTerm
    · have hsame := (launch_pcb_of_ne k pid inode entry args r hp').sameFamily
      rw [hsame.2.1]
      refine h.parents t p (hp.congr ?_ hsame)
      rw [launch_pidArray, Function.update_of_ne hp']

/-- A shell that is started again. -/
theorem SlotInv.launch_shell (h : SlotInv k) {k₁ : Kernel} (hr : Released k k₁) (hcurr : k.currPid ≤ 2)
    (inode entry : Nat) (args : List UInt8) (r : Regs) : SlotInv (launch k₁ k.currPid inode entry args r) := by
  have hslot : launchSlot k₁ k.currPid = k.scheduledProcess := by
    rw [launchSlot, if_pos hcurr, hr.scheduledProcess]
  refine ⟨h.run.launch_shell hr hcurr inode entry args r, ?_, fun t => ?_, fun t => ?_, fun t p hp => ?_⟩
  · rw [launch_currPid, launch_schedulingArray, launch_scheduledProcess, hslot, hr.scheduledProcess,
      Function.update_self]
  · rw [launch_activePid, launch_schedulingArray, Function.update_apply, hr.terminals, hr.schedulingArray,
      h.active]
  · rw [launch_schedulingArray, Function.update_apply, hr.schedulingArray, hslot]
    split_ifs with ht
    · rw [ht, h.current]
      exact h.home k.scheduledProcess
    · exact h.home t
  · have hne : p ≠ k.currPid := fun e => absurd hp.1.1 (by omega)
    have hsame := ((hr.pcbs p).trans (launch_pcb_of_ne k₁ k.currPid inode entry args r hne)).sameFamily
    rw [hsame.2.1]
    refine h.parents t p (hp.congr ?_ hsame)
    rw [launch_pidArray, Function.update_of_ne hne, hr.pidArray, Function.update_of_ne hne]

/-- The running child of slot `t` is a child of terminal `t`. -/
theorem SlotInv.currPid_child (h : SlotInv k) (hcurr : 2 < k.currPid) : IsChild k k.scheduledProcess k.currPid := by
  obtain ⟨l, hl, -⟩ := h.run.chains k.scheduledProcess
  rw [← h.current] at hl
  rcases Linked.top_cases hl with hs | hc
  · exact absurd hs.2 (by omega)
  · exact hc

/-- A process that is left when the running one has ended was there before. -/
theorem Released.pidArray_of_used {k₁ : Kernel} (hr : Released k k₁) {v p : Int}
    (hused : (resumeParent k₁ v).pidArray p = used) : (resumeParent k₁ v).pidArray p = k.pidArray p := by
  rw [resumeParent_pidArray, hr.pidArray] at hused ⊢
  have hne : p ≠ k.currPid := by
    rintro rfl
    rw [Function.update_self] at hused
    cases hused
  rw [Function.update_of_ne hne]

/-- A child that goes back to its parent. -/
theorem SlotInv.resumeParent (h : SlotInv k) {k₁ : Kernel} (hr : Released k k₁) (hcurr : 2 < k.currPid) (v : Int) :
    SlotInv (resumeParent k₁ v) := by
  have hchild := h.currPid_child hcurr
  have hpcb : SameFamily (k.pcbs k.currPid) (k₁.pcbs k₁.currPid) := by
    rw [hr.currPid]
    exact (hr.pcbs _).sameFamily
  have hterm : (k₁.pcbs k₁.currPid).termId = k.scheduledProcess := hpcb.2.2.trans hchild.2.2
  refine ⟨h.run.resumeParent hr hcurr v, ?_, fun t => ?_, fun t => ?_, fun t p hp => ?_⟩
  · rw [resumeParent_currPid, resumeParent_schedulingArray, resumeParent_scheduledProcess, hterm,
      hr.scheduledProcess, Function.update_self]
  · rw [resumeParent_activePid, resumeParent_schedulingArray, Function.update_apply, hr.terminals,
      hr.schedulingArray, h.active]
  · rw [resumeParent_schedulingArray, Function.update_apply, hr.schedulingArray, hterm, hpcb.2.1]
    split_ifs with ht
    · rw [ht]
      exact h.parents k.scheduledProcess k.currPid hchild
    · exact h.home t
  · have hsame := (hr.pcbs p).sameFamily
    rw [resumeParent_pcbs, hsame.2.1]
    exact h.parents t p (hp.congr (hr.pidArray_of_used hp.2.1) hsame)

theorem SlotInv.change (h : SlotInv k) {e : Event} (hok : CallerShown k e) (hc : Change k e k') : SlotInv k' := by
  cases hc with
  | tick r inner stale =>
    obtain ⟨d, hd⟩ := sendEoi_devicesOnly k 0
    have heoi : SlotInv (sendEoi k 0) := by
      refine h.congr (sendEoi_devicesOnly k 0).inputOnly.sameRunning ?_ fun t => ?_
      · rw [hd]
      · rw [hd]
    exact (heoi.congr (saveContext_sameRunning _ r) rfl fun _ => rfl).switchTo _
  | failed => exact h
  | started command r stale pid inode entry args hstarts hpid =>
    exact h.launch_child (hok hstarts) hpid inode entry args r
  | restarted status r stale k₁ inode entry hcurr hr => exact h.launch_shell hr hcurr inode entry [] r
  | ended status r stale k₁ v hcurr hr => exact h.resumeParent hr hcurr v
  | switched t =>
    exact h.congr (switchTerminals_ttyOnly k t).inputOnly.sameRunning (switchTerminals_scheduledProcess k t)
      fun u => by rw [switchTerminals_terminals]

/-! ## Callers and children -/

theorem stackOwner_eq {pid e : Int} (hlo : kernelStackBase pid - eightKb ≤ e) (hhi : e < kernelStackBase pid) :
    stackOwner e = pid := by
  unfold stackOwner eightMb
  unfold kernelStackBase at hlo hhi
  unfold eightKb at hlo ⊢
  omega

/-- Control blocks that agree in what `sys_halt` uses. -/
def SameReturn (a b : Pcb) : Prop :=
  SameFamily a b ∧ b.oldEsp = a.oldEsp ∧ b.oldEbp = a.oldEbp

theorem SameLinks.sameReturn {a b : Pcb} (h : SameLinks a b) : SameReturn a b := by
  obtain ⟨_, _, rfl⟩ := h
  exact ⟨⟨rfl, rfl, rfl⟩, rfl, rfl⟩

theorem saveContext_sameReturn (k : Kernel) (r : Regs) (p : Int) :
    SameReturn (k.pcbs p) ((saveContext k r).pcbs p) := by
  simp only [saveContext, Kernel.modifyPcb, Function.update_apply]
  split_ifs with hp
  · subst hp
    exact ⟨⟨rfl, rfl, rfl⟩, rfl, rfl⟩
  · exact ⟨⟨rfl, rfl, rfl⟩, rfl, rfl⟩

/-- A tick writes no control block but one, no pid and no slot. -/
theorem tick_frame (k : Kernel) (r : Regs) (next : Fin 3) :
    let k' := switchTo (saveContext (sendEoi k 0) r) next
    k'.pcbs = (saveContext k r).pcbs ∧ k'.pidArray = k.pidArray ∧ k'.schedulingArray = k.schedulingArray := by
  intro k'
  obtain ⟨_, _, _, hsw, -⟩ := switchTo_frame (saveContext (sendEoi k 0) r) next
  obtain ⟨_, hd⟩ := sendEoi_devicesOnly k 0
  simp only [k', hsw, hd]
  exact ⟨rfl, rfl, rfl⟩

/-- The saved stack pointers of a process are in its parent's kernel stack. -/
def Returns (pcb : Pcb) : Prop := stackOwner pcb.oldEsp = pcb.parentPid ∧ stackOwner pcb.oldEbp = pcb.parentPid

theorem Returns.congr {a b : Pcb} (h : Returns a) (hab : SameReturn a b) : Returns b := by
  obtain ⟨⟨-, hp, -⟩, he, hb⟩ := hab
  rw [Returns, hp, he, hb]
  exact h

structure BracketInv (k : Kernel) : Prop where
  slots : SlotInv k
  returns : ∀ t p, IsChild k t p → Returns (k.pcbs p)

theorem BracketInv.of_booted (h : Booted k) (hshell : HasShell k.fs) : BracketInv k where
  slots := .of_booted h hshell
  returns t p hp := by
    have h3 := hp.1.1
    have hu := hp.2.1
    rw [h.shells.pids p (by omega) hp.1.2, if_neg (by omega)] at hu
    cases hu

theorem BracketInv.change (h : BracketInv k) {e : Event} (hok : CallerShown k e) (hstack : OnKernelStack k e)
    (hc : Change k e k') : BracketInv k' := by
  refine ⟨h.slots.change hok hc, fun t p hp => ?_⟩
  -- every live child but one that was just started was live before, with the same context to return to
  have hold : k'.pidArray p = k.pidArray p → SameReturn (k.pcbs p) (k'.pcbs p) → Returns (k'.pcbs p) :=
    fun hpid hsame => (h.returns t p (hp.congr hpid hsame.1)).congr hsame
  cases hc with
  | tick r inner stale =>
    obtain ⟨hpcbs, hpids, -⟩ := tick_frame k r (k.scheduledProcess + 1)
    apply hold (congrFun hpids p)
    rw [hpcbs]
    exact saveContext_sameReturn k r p
  | failed => exact h.returns t p hp
  | started command r stale pid inode entry args hstarts hpid =>
    by_cases hp' : p = pid
    · subst hp'
      obtain ⟨-, -, hesp, hebp, hparent⟩ := launch_pcb_self k p inode entry args r
      have h3 := (h.slots.run.freePid_range hpid).1
      obtain ⟨⟨hlo, hhi⟩, hlo', hhi'⟩ := hstack
      rw [h.slots.run.context.2] at hlo hhi hlo' hhi'
      rw [Returns, hesp, hebp, hparent (by omega), hok hstarts, ← h.slots.current]
      exact ⟨stackOwner_eq hlo hhi, stackOwner_eq hlo' hhi'⟩
    · refine hold ?_ (launch_pcb_of_ne k pid inode entry args r hp').sameReturn
      rw [launch_pidArray, Function.update_of_ne hp']
  | restarted status r stale k₁ inode entry hcurr hr =>
    have hne : p ≠ k.currPid := fun e => absurd hp.1.1 (by omega)
    refine hold ?_ ((hr.pcbs p).trans (launch_pcb_of_ne k₁ k.currPid inode entry [] r hne)).sameReturn
    rw [launch_pidArray, Function.update_of_ne hne, hr.pidArray, Function.update_of_ne hne]
  | ended status r stale k₁ v hcurr hr =>
    exact hold (hr.pidArray_of_used hp.2.1) (hr.pcbs p).sameReturn
  | switched u =>
    apply hold (by rw [switchTerminals_pidArray])
    rw [switchTerminals_pcbs]
    exact (SameLinks.refl _).sameReturn

/-- What `sys_halt` of a child leaves. -/
theorem BracketInv.sysHalt (h : BracketInv k) (hcurr : 2 < k.currPid) {status : UInt8} {r : Regs}
    {stale : Nat → UInt8} (hs : BasicOs.sysHalt k status r stale = some k') :
    k'.currPid = (k.pcbs k.currPid).parentPid ∧ k'.esp = (k.pcbs k.currPid).oldEsp ∧
      k'.ebp = (k.pcbs k.currPid).oldEbp ∧ SlotInv k' := by
  have hc := h.slots.run.sysHalt_change hs
  cases hc with
  | restarted _ _ _ _ _ _ hle => exact absurd hle (by omega)
  | ended _ _ _ k₁ v _ hr =>
    obtain ⟨⟨-, hparent, -⟩, hesp, hebp⟩ := (hr.pcbs k.currPid).sameReturn
    rw [resumeParent_currPid, resumeParent_esp, resumeParent_ebp, hr.currPid, hparent, hesp, hebp]
    exact ⟨rfl, rfl, rfl, h.slots.resumeParent hr hcurr v⟩

/-- **Execute/halt bracketing.** In every run in which programs are started only by processes of the
displayed terminal: a new process is the child of its caller, on the caller's terminal; and when a child
halts, the process made current is the one whose kernel stack the saved registers point into. -/
theorem execute_halt_bracketed {k₀ k : Kernel} (hboot : Booted k₀) (hshell : HasShell k₀.fs)
    (hrun : Reach step (fun k e => ProcessEvent e ∧ OnKernelStack k e ∧ CallerShown k e) k₀ k) :
    (∀ command r stale k', sysExecute k command r stale = .user k' → 2 < k'.currPid →
      ((k'.pcbs k'.currPid).parentPid = k.currPid ∧ (k'.pcbs k'.currPid).termId = k.scheduledProcess ↔
        k.currTerm = k.scheduledProcess)) ∧
    ∀ status r stale k', 2 < k.currPid → sysHalt k status r stale = some k' →
      (k'.esp = (k.pcbs k.currPid).oldEsp ∧ k'.ebp = (k.pcbs k.currPid).oldEbp) ∧
      (stackOwner k'.esp = k'.currPid ∧ stackOwner k'.ebp = k'.currPid) ∧
      UserPageIs k' k'.currPid ∧ k'.tss.esp0 = kernelStackBase k'.currPid ∧
      k'.schedulingArray k'.scheduledProcess = k'.currPid := by
  have h : BracketInv k := hrun.invariant (.of_booted hboot hshell)
    fun _ _ _ hk hok hs => hk.change hok.2.2 hok.2.1 (hk.slots.run.change hok.1 hs)
  refine ⟨fun command r stale k' hx hpid => ?_, fun status r stale k' hcurr hs => ?_⟩
  · rcases sysExecute_cases k command r stale with ⟨_, he⟩ | ⟨v, he⟩ | ⟨pid, inode, entry, args, hfree, he⟩
    · rw [he] at hx
      cases hx
    · rw [he] at hx
      cases hx
    · rw [he, ExecuteResult.user.injEq] at hx
      rw [← hx, launch_currPid] at hpid ⊢
      obtain ⟨-, hterm, -, -, hparent⟩ := launch_pcb_self k pid inode entry args r
      rw [hterm, hparent hpid, launchSlot, if_neg (by omega), h.slots.current]
      exact ⟨fun hp => hp.2, fun hp => ⟨congrArg k.schedulingArray hp, hp⟩⟩
  · obtain ⟨hp, hesp, hebp, hslots⟩ := h.sysHalt hcurr hs
    obtain ⟨hret, hret'⟩ := h.returns _ _ (h.slots.currPid_child hcurr)
    rw [hesp, hebp]
    refine ⟨⟨rfl, rfl⟩, ⟨hret.trans hp.symm, hret'.trans hp.symm⟩, hslots.run.context.1, hslots.run.context.2, ?_⟩
    exact hslots.current.symm

/-- Registers on the kernel stack of a process. -/
def regsOf (pid : Int) : Regs := ⟨kernelStackBase pid - 64, kernelStackBase pid - 24⟩

theorem Booted.onKernelStack (h : Booted k) (command : Option (Nat → UInt8)) (stale : Nat → UInt8) :
    OnKernelStack k (.execute command (regsOf k.currPid) stale) := by
  rw [OnKernelStack, h.context.2]
  simp only [regsOf, eightKb]
  omega

/-- The shell of the displayed terminal starts a shell and gets the CPU back when that one halts. -/
theorem execute_halt_bracketed_shell : ∃ k₀ k₁ k₂ k₃, shellBoot = some k₀ ∧
    step k₀ (.switch k₀.scheduledProcess) = some k₁ ∧
    step k₁ (.execute (some shellCommand) (regsOf k₁.currPid) fun _ => 0) = some k₂ ∧
    k₂.currPid = 3 ∧ (k₂.pcbs 3).parentPid = k₁.currPid ∧
    step k₂ (.halt 0 (regsOf 3) fun _ => 0) = some k₃ ∧ stackOwner k₃.esp = k₃.currPid := by
  obtain ⟨k₀, k₁, hk₀, hboot, hshell, hs₁, hboot₁, hfs₁, -, hshown⟩ := shellBoot_switch 0
  rw [add_zero] at hs₁ hshown
  have hrun₁ : Reach step (fun k e => ProcessEvent e ∧ OnKernelStack k e ∧ CallerShown k e) k₀ k₁ :=
    .tail (.switch k₀.scheduledProcess) (.refl k₀) ⟨trivial, trivial, trivial⟩ hs₁
  obtain ⟨inode, entry, he⟩ := sysExecute_shellImage hfs₁ hboot₁.freePid_eq (regsOf k₁.currPid) fun _ => 0
  have hs₂ : step k₁ (.execute (some shellCommand) (regsOf k₁.currPid) fun _ => 0) =
      some (launch k₁ 3 inode entry [] (regsOf k₁.currPid)) := by
    unfold step
    dsimp only
    rw [he]
  have hcurr := launch_currPid k₁ 3 inode entry [] (regsOf k₁.currPid)
  generalize launch k₁ 3 inode entry [] (regsOf k₁.currPid) = k₂ at *
  have hrun₂ : Reach step (fun k e => ProcessEvent e ∧ OnKernelStack k e ∧ CallerShown k e) k₀ k₂ :=
    .tail (.execute _ _ _) hrun₁ ⟨trivial, hboot₁.onKernelStack _ _, fun _ => hshown⟩ hs₂
  have hparent := ((execute_halt_bracketed hboot hshell hrun₁).1 _ _ _ k₂ he (by rw [hcurr]; decide)).mpr hshown
  have hlt : 2 < k₂.currPid := by rw [hcurr]; decide
  obtain ⟨v, hv⟩ := sysHalt_child hlt 0 (regsOf 3) fun _ => 0
  have hret := ((execute_halt_bracketed hboot hshell hrun₂).2 0 (regsOf 3) (fun _ => 0) _ hlt hv).2.1.1
  rw [hcurr] at hparent
  exact ⟨k₀, k₁, k₂, _, hk₀, hs₁, hs₂, hcurr, hparent.1, hv, hret⟩

/-- A shell that starts a shell while another terminal is displayed: the new process is the child of the
displayed terminal's shell, and when it halts that shell is made current on the stack of the caller. -/
theorem execute_wrong_parent : ∃ k₀ k₁ k₂ k₃, shellBoot = some k₀ ∧
    step k₀ (.switch (k₀.scheduledProcess + 1)) = some k₁ ∧
    OnKernelStack k₁ (.execute (some shellCommand) (regsOf k₁.currPid) fun _ => 0) ∧
    sysExecute k₁ (some shellCommand) (regsOf k₁.currPid) (fun _ => 0) = .user k₂ ∧
    k₂.currPid = 3 ∧ (k₂.pcbs 3).parentPid ≠ k₁.currPid ∧ (k₂.pcbs 3).termId ≠ k₁.scheduledProcess ∧
    sysHalt k₂ 0 (regsOf 3) (fun _ => 0) = some k₃ ∧
    stackOwner k₃.esp = k₁.currPid ∧ k₃.currPid ≠ k₁.currPid := by
  obtain ⟨k₀, k₁, hk₀, -, -, hs₁, hboot₁, hfs₁, -, hshown⟩ := shellBoot_switch 1
  have hother : k₁.currTerm ≠ k₁.scheduledProcess := by
    rw [hshown]
    exact nextSlot_ne _
  obtain ⟨inode, entry, he⟩ := sysExecute_shellImage hfs₁ hboot₁.freePid_eq (regsOf k₁.currPid) fun _ => 0
  have hrun := (RunInv.of_booted hboot₁ (hfs₁ ▸ hasShell_shellImage)).launch_child inode entry [] (regsOf k₁.currPid)
    hboot₁.freePid_eq
  obtain ⟨-, hterm, hesp, -, hparent⟩ := launch_pcb_self k₁ 3 inode entry [] (regsOf k₁.currPid)
  have hcurr := launch_currPid k₁ 3 inode entry [] (regsOf k₁.currPid)
  generalize launch k₁ 3 inode entry [] (regsOf k₁.currPid) = k₂ at *
  have hparent' : (k₂.pcbs 3).parentPid ≠ k₁.currPid := by
    rw [hparent (by decide), hboot₁.shells.slots, if_pos k₁.currTerm.isLt, hboot₁.current]
    exact fun e => hother (Fin.ext (by omega))
  have hlt : 2 < k₂.currPid := by rw [hcurr]; decide
  obtain ⟨v, hv⟩ := sysHalt_child hlt 0 (regsOf 3) fun _ => 0
  have hr := hrun.released (regsOf 3).esp
  refine ⟨k₀, k₁, k₂, _, hk₀, hs₁, hboot₁.onKernelStack _ _, he, hcurr, hparent', ?_, hv, ?_, ?_⟩
  · rw [hterm]
    exact hother
  · rw [resumeParent_esp, hr.currPid, hcurr, (hr.pcbs 3).sameReturn.2.1, hesp]
    refine stackOwner_eq ?_ ?_
    · simp only [regsOf, eightKb]
      omega
    · simp only [regsOf]
      omega
  · rw [resumeParent_currPid, hr.currPid, hcurr, (hr.pcbs 3).sameFamily.2.1]
    exact hparent'

/-! ## Saved contexts -/

/-- An observer: the registers with which each process was preempted last; one that halts has none. -/
def notePreempted (saved : Int → Option Regs) (k : Kernel) (e : Event) (_ : Kernel) : Int → Option Regs :=
  match e with
  | .tick r _ _ => Function.update saved k.currPid (some r)
  | .halt .. => Function.update saved k.currPid none
  | _ => saved

/-- What it has seen when the kernel has booted: shells 0 and 1 preempted by the second and third tick. -/
def preemptedAtBoot (r : Fin 3 → Regs) (p : Int) : Option Regs :=
  if p = 0 then some (r 1) else if p = 1 then some (r 2) else none

/-- The processes on top of the slots that are not scheduled have the registers of their last preemption. -/
structure ContextInv (k : Kernel) (saved : Int → Option Regs) : Prop where
  slots : SlotInv k
  kept : ∀ t, t ≠ k.scheduledProcess →
    saved (k.schedulingArray t) = some (k.pcbs (k.schedulingArray t)).scheduleRegs

theorem SameLinks.scheduleRegs {a b : Pcb} (h : SameLinks a b) : b.scheduleRegs = a.scheduleRegs := by
  obtain ⟨_, _, rfl⟩ := h
  rfl

theorem ContextInv.change {saved : Int → Option Regs} (h : ContextInv k saved) {e : Event}
    (hok : CallerShown k e) (hc : Change k e k') : ContextInv k' (notePreempted saved k e k') := by
  refine ⟨h.slots.change hok hc, fun t ht => ?_⟩
  have hother : ∀ u, u ≠ k.scheduledProcess → k.schedulingArray u ≠ k.currPid := by
    intro u hu he
    exact hu (h.slots.slots_injective (he.trans h.slots.current))
  cases hc with
  | tick r inner stale =>
    obtain ⟨hpcbs, -, hslots⟩ := tick_frame k r (k.scheduledProcess + 1)
    rw [hslots, hpcbs, notePreempted]
    by_cases hs : t = k.scheduledProcess
    · rw [hs, saveContext_regs_self, ← h.slots.current, Function.update_self]
    · have hne := hother t hs
      rw [Function.update_of_ne hne, h.kept t hs, saveContext_pcbs_of_ne (by rw [← h.slots.current]; exact hne)]
  | failed => exact h.kept t ht
  | started command r stale pid inode entry args hstarts hpid =>
    rw [launch_scheduledProcess] at ht
    have hslot : t ≠ launchSlot k pid := by
      rw [launchSlot, if_neg (by have := (h.slots.run.freePid_range hpid).1; omega), hok hstarts]
      exact ht
    have hne : k.schedulingArray t ≠ pid := by
      intro he
      have hused := h.slots.run.slot_used t
      rw [he, (freePid_eq_some hpid).2] at hused
      cases hused
    rw [launch_schedulingArray, Function.update_of_ne hslot,
      (launch_pcb_of_ne k pid inode entry args r hne).scheduleRegs]
    exact h.kept t ht
  | restarted status r stale k₁ inode entry hcurr hr =>
    rw [launch_scheduledProcess, hr.scheduledProcess] at ht
    have hslot : t ≠ launchSlot k₁ k.currPid := by
      rw [launchSlot, if_pos hcurr, hr.scheduledProcess]
      exact ht
    have hne := hother t ht
    rw [launch_schedulingArray, Function.update_of_ne hslot, hr.schedulingArray, notePreempted,
      Function.update_of_ne hne,
      ((hr.pcbs _).trans (launch_pcb_of_ne k₁ k.currPid inode entry [] r hne)).scheduleRegs]
    exact h.kept t ht
  | ended status r stale k₁ v hcurr hr =>
    rw [resumeParent_scheduledProcess, hr.scheduledProcess] at ht
    have hterm : (k₁.pcbs k₁.currPid).termId = k.scheduledProcess := by
      rw [hr.currPid]
      exact (hr.pcbs _).sameFamily.2.2.trans (h.slots.currPid_child hcurr).2.2
    rw [resumeParent_schedulingArray, hterm, Function.update_of_ne ht, hr.schedulingArray, notePreempted,
      Function.update_of_ne (hother t ht), resumeParent_pcbs, (hr.pcbs _).scheduleRegs]
    exact h.kept t ht
  | switched u =>
    rw [switchTerminals_scheduledProcess] at ht
    rw [(switchTerminals_ttyOnly k u).inputOnly.sameRunning.schedulingArray, switchTerminals_pcbs]
    exact h.kept t ht

theorem ContextInv.of_boot {k₀ k : Kernel} {local_ : Fin 3 → Term}
    (hpids : ∀ p : Int, 0 ≤ p → p ≤ 5 → k₀.pidArray p = unused) (hshell : HasShell k₀.fs) {r inner : Fin 3 → Regs}
    {stale : Nat → UInt8} (h : bootRun k₀ local_ r inner stale = some k) : ContextInv k (preemptedAtBoot r) := by
  obtain ⟨hboot, hfs, -, hcurr, h0, h1⟩ := bootRun_booted hpids hshell h
  refine ⟨.of_booted hboot (hfs ▸ hshell), fun t ht => ?_⟩
  rw [hboot.shells.slots, if_pos t.isLt]
  have hsched : k.scheduledProcess = 2 := by
    have := hboot.current.symm.trans hcurr
    exact Fin.ext (by omega)
  rw [hsched] at ht
  match t with
  | 0 => exact congrArg some h0.symm
  | 1 => exact congrArg some h1.symm
  | 2 => exact absurd rfl ht

/-- What a tick loads. -/
theorem RunInv.tick_loads (h : RunInv k) (r : Regs) (next : Fin 3) :
    let k' := BasicOs.switchTo (saveContext (sendEoi k 0) r) next
    k'.currPid = k.schedulingArray next ∧ ⟨k'.esp, k'.ebp⟩ = (k'.pcbs k'.currPid).scheduleRegs := by
  intro k'
  have heoi := h.congr (sendEoi_devicesOnly k 0).inputOnly.sameRunning
  have hsave := heoi.congr (saveContext_sameRunning _ r)
  obtain ⟨_, _, _, hsw, -⟩ := switchTo_frame (saveContext (sendEoi k 0) r) next
  rw [hsave.own _ (hsave.slot_range next).1 (hsave.slot_range next).2 (hsave.slot_used next)] at hsw
  have hslot : (saveContext (sendEoi k 0) r).schedulingArray next = k.schedulingArray next := by
    obtain ⟨_, hd⟩ := sendEoi_devicesOnly k 0
    rw [hd]
    rfl
  rw [← hslot, show k' = _ from hsw]
  exact ⟨rfl, rfl⟩

/-- **Scheduler slot agreement and context pairing.** In every run after boot in which programs are started
only by processes of the displayed terminal: the scheduler's variables agree; a tick saves the registers of
the interrupted process in its own control block and writes no other; and the process it resumes gets the
registers of its own last preemption. -/
theorem contexts_paired {k₀ k₁ k : Kernel} {local_ : Fin 3 → Term} {r₀ inner₀ : Fin 3 → Regs}
    {stale₀ : Nat → UInt8} {saved : Int → Option Regs}
    (hpids : ∀ p : Int, 0 ≤ p → p ≤ 5 → k₀.pidArray p = unused) (hshell : HasShell k₀.fs)
    (hboot : bootRun k₀ local_ r₀ inner₀ stale₀ = some k₁)
    (hrun : Reach (observed step notePreempted) (fun p e => ProcessEvent e ∧ CallerShown p.1 e)
      (k₁, preemptedAtBoot r₀) (k, saved)) :
    (k.currPid = k.schedulingArray k.scheduledProcess ∧
      ∀ t, (k.terminals t).activePid = k.schedulingArray t) ∧
    (∀ t, t ≠ k.scheduledProcess →
      saved (k.schedulingArray t) = some (k.pcbs (k.schedulingArray t)).scheduleRegs) ∧
    ∀ r inner stale k', step k (.tick r inner stale) = some k' →
      ((k'.pcbs k.currPid).scheduleRegs = r ∧ ∀ q, q ≠ k.currPid → k'.pcbs q = k.pcbs q) ∧
      k'.currPid ≠ k.currPid ∧ saved k'.currPid = some ⟨k'.esp, k'.ebp⟩ := by
  have h : ContextInv k saved := hrun.invariant (I := fun p => ContextInv p.1 p.2)
    (.of_boot hpids hshell hboot) fun p e q hp hok hs => by
      obtain ⟨hs, hq⟩ := observed_eq_some.mp hs
      rw [hq]
      exact hp.change hok.2 (hp.slots.run.change hok.1 hs)
  refine ⟨⟨h.slots.current, h.slots.active⟩, h.kept, fun r inner stale k' hs => ?_⟩
  have hc := h.slots.run.change (e := .tick r inner stale) trivial hs
  cases hc with
  | tick =>
    obtain ⟨hpcbs, -, -⟩ := tick_frame k r (k.scheduledProcess + 1)
    obtain ⟨hcurr, hregs⟩ := h.slots.run.tick_loads r (k.scheduledProcess + 1)
    have hnext := nextSlot_ne k.scheduledProcess
    have hne : k.schedulingArray (k.scheduledProcess + 1) ≠ k.currPid := fun he =>
      hnext (h.slots.slots_injective (he.trans h.slots.current))
    rw [hregs, hcurr, hpcbs, h.kept _ hnext]
    rw [h.slots.current] at hne ⊢
    refine ⟨⟨saveContext_regs_self k r, fun q hq => saveContext_pcbs_of_ne hq⟩, hne, ?_⟩
    rw [saveContext_pcbs_of_ne hne]

/-- The first tick after boot, and the shell that it resumes. -/
theorem contexts_paired_shell : ∃ k₁ k₂, shellBoot = some k₁ ∧
    step k₁ (.tick (regsOf 2) (regsOf 2) fun _ => 0) = some k₂ ∧ (k₂.pcbs 2).scheduleRegs = regsOf 2 ∧
    k₂.currPid ≠ 2 ∧ preemptedAtBoot bootRegs k₂.currPid = some ⟨k₂.esp, k₂.ebp⟩ := by
  obtain ⟨k₁, hk₁, -⟩ := shellBoot_booted
  obtain ⟨hboot, hfs, -, hcurr, -⟩ := bootRun_booted (fun _ _ _ => rfl) hasShell_shellImage hk₁
  have hinv := RunInv.of_booted hboot (hfs ▸ hasShell_shellImage)
  have hs := hinv.pitHandler_eq (regsOf 2) (regsOf 2) fun _ => 0
  obtain ⟨-, -, htick⟩ := contexts_paired (fun _ _ _ => rfl) hasShell_shellImage hk₁ (.refl _)
  obtain ⟨⟨hsaved, -⟩, hne, hregs⟩ := htick (regsOf 2) (regsOf 2) (fun _ => 0) _ hs
  rw [hcurr] at hsaved hne
  exact ⟨k₁, _, hk₁, hs, hsaved, hne, hregs⟩

/-- A shell that starts a shell while another terminal is displayed: the slots no longer agree, and a tick
saves the registers of the new process over those of its caller. -/
theorem execute_wrong_slot : ∃ k₀ k₁ k₂, shellBoot = some k₀ ∧
    step k₀ (.switch (k₀.scheduledProcess + 1)) = some k₁ ∧
    step k₁ (.execute (some shellCommand) (regsOf k₁.currPid) fun _ => 0) = some k₂ ∧
    k₂.currPid ≠ k₂.schedulingArray k₂.scheduledProcess ∧ k₂.currPid ≠ k₁.currPid ∧
    ∃ k₃, step k₂ (.tick (regsOf 3) (regsOf 3) fun _ => 0) = some k₃ ∧ k₃.pcbs k₂.currPid = k₂.pcbs k₂.currPid ∧
      (k₃.pcbs k₁.currPid).scheduleRegs = regsOf 3 := by
  obtain ⟨k₀, k₁, hk₀, -, -, hs₁, hboot₁, hfs₁, -, hshown⟩ := shellBoot_switch 1
  have hother : k₁.scheduledProcess ≠ k₁.currTerm := by
    rw [hshown]
    exact (nextSlot_ne _).symm
  obtain ⟨inode, entry, hs₂⟩ := hboot₁.sysExecute_shell hfs₁ (regsOf k₁.currPid) fun _ => 0
  have hinv := (RunInv.of_booted hboot₁ (hfs₁ ▸ hasShell_shellImage)).launch_child inode entry [] (regsOf k₁.currPid)
    hboot₁.freePid_eq
  have hcurr := launch_currPid k₁ 3 inode entry [] (regsOf k₁.currPid)
  have hcaller : (launch k₁ 3 inode entry [] (regsOf k₁.currPid)).schedulingArray
      (launch k₁ 3 inode entry [] (regsOf k₁.currPid)).scheduledProcess = k₁.currPid := by
    rw [launch_schedulingArray, launch_scheduledProcess, launchSlot, if_neg (by decide),
      Function.update_of_ne hother, hboot₁.shells.slots, if_pos k₁.scheduledProcess.isLt, hboot₁.current]
  generalize launch k₁ 3 inode entry [] (regsOf k₁.currPid) = k₂ at *
  have hne : k₂.currPid ≠ k₁.currPid := by
    rw [hcurr, hboot₁.current]
    omega
  have hs₃ := hinv.pitHandler_eq (regsOf 3) (regsOf 3) fun _ => 0
  obtain ⟨hpcbs, -, -⟩ := tick_frame k₂ (regsOf 3) ((sendEoi k₂ 0).scheduledProcess + 1)
  refine ⟨k₀, k₁, k₂, hk₀, hs₁, hs₂, by rw [hcaller]; exact hne, hne, _, hs₃, ?_, ?_⟩
  · rw [hpcbs, saveContext_pcbs_of_ne (by rw [hcaller]; exact hne)]
  · rw [hpcbs, ← hcaller, saveContext_regs_self]

end BasicOs
