import BasicOs.Bracketing
import BasicOs.Lib.Threads
import BasicOs.System

/-!
# Processes as threads

What `sys_execute`, `sys_halt` and the scheduler are for: each terminal is a thread with a stack of calls. To start
a program is to call it, its end returns to the caller with a value, and a tick of the PIT gives the turn to the next
terminal.

* `Tasks` : the three terminals as `Threads`, a frame for each program that runs; `request` : what an action of
  the system asks of them;
* `Threaded k m` : the pids, the slots, the control blocks and their parent links are those of `m`;
* `Orderly` : programs are started from the displayed terminal, and calls are given buffers in the caller's page;
* `processes_are_threads` : that stays so along every orderly run, and each action makes the CPU go on where the
  threads say;
* `child_returns` : in such runs a program that is started comes back to its caller, whatever has run in between.
-/

namespace BasicOs
open Run LinkedStack

/-! ## The threads -/

/-- A program that runs: its pid, and where its caller goes on when it ends. -/
structure Frame where
  pid : Int
  caller : Regs
  deriving DecidableEq

/-- The terminals. -/
abbrev Tasks := Threads.State (Fin 3) Frame Regs

/-- The process of a terminal that goes on when it has the turn: its last program, or its shell. -/
def Tasks.top (m : Tasks) (t : Fin 3) : Int :=
  match m.calls t with
  | [] => t.val
  | f :: _ => f.pid

/-- The pid of a program that runs. -/
def Tasks.Live (m : Tasks) (p : Int) : Prop := ∃ t, ∃ f ∈ m.calls t, f.pid = p

instance (m : Tasks) (p : Int) : Decidable (m.Live p) :=
  inferInstanceAs (Decidable (∃ t, ∃ f ∈ m.calls t, f.pid = p))

/-- The pid the next program gets. -/
def Tasks.fresh (m : Tasks) : Option Int := [3, 4, 5].find? fun p => ¬ m.Live p

abbrev Tasks.step (m : Tasks) (r : Threads.Request Frame Regs) : Tasks := Threads.State.step (· + 1) m r

/-- The command names an executable file. -/
def runnable (fs : FileSystem) (command : Option (Nat → UInt8)) (stale : Nat → UInt8) : Bool :=
  match command with
  | none => false
  | some command =>
    command 0 ≠ chNewline ∧ ∃ p ∈ parseCommand command, (findProgram fs p.1 stale).isSome

/-- What an action asks of the threads. -/
def request (m : Tasks) (k : Kernel) : Action → Threads.Request Frame Regs
  | .event (.tick r _ _) => .yield r
  | .event (.execute command r stale) =>
    if runnable k.fs command stale then
      match m.fresh with
      | some pid => .call ⟨pid, r⟩
      | none => .stay
    else .stay
  | .event (.halt ..) => .ret
  | .event (.key scancode _ stale fmt) =>
    if (keyboardHandler k scancode stale fmt).any Prod.snd then .ret else .stay
  | .exception .. => .ret
  | _ => .stay

/-- What a program that ends so returns to its caller. -/
def exitValue : Action → Int
  | .event (.halt status ..) => status.toNat
  | .exception .. => 256
  | _ => 255

/-- Where the CPU goes on. -/
def Resumed (m : Tasks) (v : Int) (k k' : Kernel) : Threads.Request Frame Regs → Prop
  | .yield _ => ⟨k'.esp, k'.ebp⟩ = m.saved (m.turn + 1) ∧ k'.mode = .kernel
  | .call _ => k'.mode = .user
  | .ret =>
    match m.calls m.turn with
    | [] => k'.mode = .user
    | f :: _ => ⟨k'.esp, k'.ebp⟩ = f.caller ∧ k'.eax = v ∧ k'.mode = .kernel
  | .stay => (k'.esp = k.esp ∧ k'.ebp = k.ebp) ∧ k'.eax = k.eax ∧ k'.mode = k.mode

/-! ## What represents them -/

structure Threaded (k : Kernel) (m : Tasks) : Prop where
  run : RunInv k
  turn : k.scheduledProcess = m.turn
  current : k.currPid = k.schedulingArray m.turn
  calls : ∀ t : Fin 3, Linked (fun p => (k.pcbs p).parentPid) (· = (t.val : Int)) (IsChild k t) (k.schedulingArray t)
    ((m.calls t).map Frame.pid)
  callers : ∀ t, ∀ f ∈ m.calls t, (⟨(k.pcbs f.pid).oldEsp, (k.pcbs f.pid).oldEbp⟩ : Regs) = f.caller
  distinct : Threads.Distinct Frame.pid m
  free : ∀ p, 3 ≤ p → p ≤ 5 → ¬ m.Live p → k.pidArray p = unused
  saved : ∀ t, t ≠ m.turn → (k.pcbs (k.schedulingArray t)).scheduleRegs = m.saved t

variable {k k' : Kernel} {m : Tasks} {v : Int}

/-- A program that runs has its pid taken. -/
theorem Threaded.child (h : Threaded k m) {t : Fin 3} {f : Frame} (hf : f ∈ m.calls t) : IsChild k t f.pid :=
  Linked.node_of_mem (h.calls t) (List.mem_map_of_mem hf)

theorem Threaded.slot (h : Threaded k m) (t : Fin 3) : k.schedulingArray t = m.top t := by
  have hl := h.calls t
  unfold Tasks.top
  cases hc : m.calls t with
  | nil =>
    rw [hc] at hl
    exact hl
  | cons f fs =>
    rw [hc] at hl
    exact hl.1

theorem Threaded.live_iff (h : Threaded k m) {p : Int} (h3 : 3 ≤ p) (h5 : p ≤ 5) :
    m.Live p ↔ k.pidArray p = used := by
  constructor
  · rintro ⟨t, f, hf, rfl⟩
    exact (h.child hf).2.1
  · intro hu
    by_contra hn
    rw [h.free p h3 h5 hn] at hu
    cases hu

theorem Threaded.freePid_eq (h : Threaded k m) : freePid k.pidArray = m.fresh := by
  have hshell : ∀ p, IsShell p → ¬ k.pidArray p = unused := by
    intro p hp
    rw [h.run.shells p hp]
    decide
  have hchild : ∀ p, 3 ≤ p → p ≤ 5 → (k.pidArray p = unused ↔ ¬ m.Live p) := by
    intro p h3 h5
    refine ⟨fun hu hl => ?_, h.free p h3 h5⟩
    rw [(h.live_iff h3 h5).mp hl] at hu
    cases hu
  unfold freePid Tasks.fresh
  simp only [List.find?_cons, List.find?_nil, hshell 0 (by decide), hshell 1 (by decide), hshell 2 (by decide),
    hchild 3 (by decide) (by decide), hchild 4 (by decide) (by decide), hchild 5 (by decide) (by decide), decide_false]

/-- The running process is a shell exactly when its terminal has no program. -/
theorem Threaded.shell_iff (h : Threaded k m) : k.currPid ≤ 2 ↔ m.calls m.turn = [] := by
  rw [h.current, h.slot, Tasks.top]
  cases hc : m.calls m.turn with
  | nil => exact ⟨fun _ => rfl, fun _ => by dsimp only; omega⟩
  | cons f fs =>
    have hf := (h.child (t := m.turn) (f := f) (by rw [hc]; exact List.mem_cons_self)).1.1
    exact ⟨fun hle => absurd hle (by dsimp only; omega), fun e => nomatch e⟩

/-! ## Actions that ask nothing -/

/-- Neither processes nor the registers of the kernel have changed. -/
structure Unmoved (k k' : Kernel) : Prop where
  running : SameRunning k k'
  processes : ∃ pcbs, k'.toProcesses = { k.toProcesses with pcbs := pcbs } ∧ ∀ p, SameLinks (k.pcbs p) (pcbs p)

theorem CallOnly.unmoved (h : CallOnly k k') : Unmoved k k' := by
  refine ⟨h.sameTables.running, ?_⟩
  obtain ⟨_, _, pcbs, _, _, rfl, hlinks⟩ := h
  exact ⟨pcbs, rfl, hlinks⟩

theorem InputOnly.unmoved {keys : Keys} (h : InputOnly { k with toKeys := keys } k') : Unmoved k k' := by
  refine ⟨h.sameRunning, ?_⟩
  obtain ⟨_, _, _, rfl⟩ := h
  exact ⟨k.pcbs, rfl, fun _ => SameLinks.refl _⟩

theorem Unmoved.of_processes (hs : SameRunning k k') (h : k'.toProcesses = k.toProcesses) : Unmoved k k' :=
  ⟨hs, k.pcbs, h, fun _ => SameLinks.refl _⟩

theorem Unmoved.refl (k : Kernel) : Unmoved k k := .of_processes (.refl k) rfl

theorem Unmoved.trans {k₁ k₂ k₃ : Kernel} (h₁ : Unmoved k₁ k₂) (h₂ : Unmoved k₂ k₃) : Unmoved k₁ k₃ := by
  refine ⟨h₁.running.trans h₂.running, ?_⟩
  obtain ⟨pcbs₂, e₂, hl₂⟩ := h₁.processes
  obtain ⟨pcbs₃, e₃, hl₃⟩ := h₂.processes
  refine ⟨pcbs₃, by rw [e₃, e₂], fun p => (hl₂ p).trans ?_⟩
  have := hl₃ p
  rwa [show k₂.pcbs = pcbs₂ from congrArg Processes.pcbs e₂] at this

theorem userStore_toProcesses (k : Kernel) (a : Nat) (c : UInt8) : (userStore k a c).toProcesses = k.toProcesses := by
  unfold userStore
  split_ifs
  · rfl
  · rfl

theorem copyOut_toProcesses (k : Kernel) (buf : Nat) (bytes : List UInt8) :
    (copyOut k buf bytes).toProcesses = k.toProcesses := by
  unfold copyOut
  generalize bytes.zipIdx = ps
  induction ps generalizing k with
  | nil => rfl
  | cons p ps ih => exact (ih _).trans (userStore_toProcesses k _ _)

theorem copyOut_unmoved (k : Kernel) (buf : Nat) (bytes : List UInt8) : Unmoved k (copyOut k buf bytes) :=
  .of_processes (copyOut_sameTables k buf bytes).running (copyOut_toProcesses k buf bytes)

theorem storePhys_unmoved (k : Kernel) (pa : Nat) (c : UInt8) : Unmoved k (storePhys k pa c) := by
  refine .of_processes (storePhys_sameTables k pa c).running ?_
  unfold storePhys
  split_ifs
  · rfl
  · rfl

theorem sysVidmap_unmoved (k : Kernel) (screenStart : Nat) : Unmoved k (sysVidmap k screenStart).1 := by
  refine .of_processes (sysVidmap_sameRunning k screenStart) ?_
  unfold sysVidmap
  split_ifs
  · rfl
  · simp only [userStore_toProcesses]
    rfl

theorem Threaded.congr (h : Threaded k m) (hs : Unmoved k k') : Threaded k' m := by
  obtain ⟨hrun, pcbs, he, hlinks⟩ := hs
  have hpcbs : k'.pcbs = pcbs := congrArg Processes.pcbs he
  have hslots := hrun.schedulingArray
  refine ⟨h.run.congr hrun, ?_, ?_, fun t => ?_, fun t f hf => ?_, h.distinct, fun p h3 h5 hn => ?_, fun t ht => ?_⟩
  · exact (congrArg Processes.scheduledProcess he).trans h.turn
  · rw [hrun.currPid, hslots]
    exact h.current
  · rw [hslots, hpcbs]
    refine (h.calls t).congr (fun p _ => (hlinks p).sameFamily.2.1) fun p _ hp => ?_
    exact hp.congr (congrFun hrun.pidArray p).symm (by
      have := hrun.pcbs p
      exact ⟨this.1.symm, this.2.1.symm, this.2.2.symm⟩)
  · obtain ⟨-, hesp, hebp⟩ := (hlinks f.pid).sameReturn
    rw [hpcbs, hesp, hebp]
    exact h.callers t f hf
  · rw [hrun.pidArray]
    exact h.free p h3 h5 hn
  · rw [hslots, hpcbs, (hlinks _).scheduleRegs]
    exact h.saved t ht

/-- No process is on top of two terminals. -/
theorem Threaded.slots_injective (h : Threaded k m) {t u : Fin 3}
    (he : k.schedulingArray t = k.schedulingArray u) : t = u := by
  rcases Linked.top_cases (h.calls t) with ht | ht
  · rcases Linked.top_cases (h.calls u) with hu | hu
    · exact Fin.ext (by omega)
    · exact absurd hu.1.1 (by omega)
  · rcases Linked.top_cases (h.calls u) with hu | hu
    · exact absurd ht.1.1 (by omega)
    · rw [← he] at hu
      exact ht.2.2.symm.trans hu.2.2

/-! ## A tick -/

theorem Threaded.tick (h : Threaded k m) (r : Regs) {k₁ : Kernel}
    (hk₁ : switchTo (saveContext (sendEoi k 0) r) (k.scheduledProcess + 1) = k₁) :
    Threaded k₁ (m.step (.yield r)) ∧ Resumed m v k k₁ (.yield r) ∧ k₁.exceptionFlag = k.exceptionFlag := by
  obtain ⟨hpcbs, hpids, hslots⟩ := tick_frame k r (k.scheduledProcess + 1)
  obtain ⟨hcurr, hregs⟩ := h.run.tick_loads r (k.scheduledProcess + 1)
  have hrun :=
    ((h.run.congr (sendEoi_devicesOnly k 0).inputOnly.sameRunning).congr (saveContext_sameRunning _ r)).switchTo
      (k.scheduledProcess + 1)
  obtain ⟨hsched, hmode, hflag⟩ : k₁.scheduledProcess = k.scheduledProcess + 1 ∧ k₁.mode = .kernel ∧
      k₁.exceptionFlag = k.exceptionFlag := by
    obtain ⟨_, _, _, hsw, -⟩ := switchTo_frame (saveContext (sendEoi k 0) r) (k.scheduledProcess + 1)
    obtain ⟨_, hd⟩ := sendEoi_devicesOnly k 0
    rw [← hk₁, hsw]
    refine ⟨rfl, rfl, ?_⟩
    rw [hd]
    rfl
  rw [hk₁] at hpcbs hpids hslots hcurr hregs hrun
  rw [h.turn] at hsched hcurr
  have hkept : ∀ p, SameReturn (k.pcbs p) (k₁.pcbs p) := by
    intro p
    rw [hpcbs]
    exact saveContext_sameReturn k r p
  have hother : ∀ t, t ≠ m.turn → k₁.pcbs (k.schedulingArray t) = k.pcbs (k.schedulingArray t) := by
    intro t ht
    rw [hpcbs]
    refine saveContext_pcbs_of_ne fun he => ht ?_
    rw [h.turn] at he
    exact h.slots_injective he
  have hnext := nextSlot_ne m.turn
  refine ⟨⟨hrun, hsched, ?_, fun t => ?_, fun t f hf => ?_, ?_, fun p h3 h5 hn => ?_, fun t ht => ?_⟩, ⟨?_, hmode⟩,
    hflag⟩
  · rw [hcurr, hslots]
    rfl
  · rw [hslots]
    refine (h.calls t).congr (fun p _ => (hkept p).1.2.1) fun p _ hp => ?_
    exact ⟨hp.1, (congrFun hpids p).trans hp.2.1, (hkept p).1.2.2.trans hp.2.2⟩
  · rw [(hkept f.pid).2.1, (hkept f.pid).2.2]
    exact h.callers t f hf
  · exact h.distinct.step fun _ e => by cases e
  · rw [hpids]
    exact h.free p h3 h5 hn
  · rw [hslots]
    by_cases hs : t = m.turn
    · rw [hs, hpcbs, ← h.turn, saveContext_regs_self, h.turn]
      exact (Function.update_self m.turn r m.saved).symm
    · rw [hother t hs, h.saved t hs]
      exact (Function.update_of_ne hs r m.saved).symm
  · rw [hregs, hcurr, hother _ hnext, h.saved _ hnext]

/-! ## Starting a program -/

theorem launch_mode (k : Kernel) (pid : Int) (inode entry : Nat) (args : List UInt8) (r : Regs) :
    (launch k pid inode entry args r).mode = .user ∧
      (launch k pid inode entry args r).exceptionFlag = k.exceptionFlag := by
  obtain ⟨_, _, _, hl⟩ := launch_frame k pid inode entry args r
  rw [hl]
  exact ⟨rfl, rfl⟩

/-- A program is started on the terminal that has the turn. -/
theorem Threaded.call (h : Threaded k m) (hshown : k.currTerm = k.scheduledProcess) {pid : Int}
    (hpid : freePid k.pidArray = some pid) (inode entry : Nat) (args : List UInt8) (r : Regs) :
    Threaded (launch k pid inode entry args r) (m.step (.call ⟨pid, r⟩)) := by
  obtain ⟨h3, h5⟩ := h.run.freePid_range hpid
  have hfree := (freePid_eq_some hpid).2
  have hslot : launchSlot k pid = m.turn := (if_neg (by omega)).trans (hshown.trans h.turn)
  obtain ⟨-, hterm, hesp, hebp, hparent⟩ := launch_pcb_self k pid inode entry args r
  have hnew : ∀ t, ∀ f ∈ m.calls t, f.pid ≠ pid := by
    rintro t f hf rfl
    have hu := (h.child hf).2.1
    rw [hfree] at hu
    cases hu
  have hother := fun p (hp : p ≠ pid) => launch_pcb_of_ne k pid inode entry args r hp
  have hpids : (launch k pid inode entry args r).pidArray = Function.update k.pidArray pid used := launch_pidArray ..
  have hslots : (launch k pid inode entry args r).schedulingArray = Function.update k.schedulingArray m.turn pid := by
    rw [launch_schedulingArray, hslot]
  have hrun := h.run.launch_child inode entry args r hpid
  have hcurr := launch_currPid k pid inode entry args r
  have hsched : (launch k pid inode entry args r).scheduledProcess = k.scheduledProcess := launch_scheduledProcess ..
  generalize launch k pid inode entry args r = k₁ at *
  -- the stacks as they were, in the new state
  have hlinked : ∀ t : Fin 3, Linked (fun p => (k₁.pcbs p).parentPid) (· = (t.val : Int)) (IsChild k₁ t)
      (k.schedulingArray t) ((m.calls t).map Frame.pid) := by
    intro t
    refine (h.calls t).congr (fun p hp => ?_) fun p hp hc => ?_
    · obtain ⟨f, hf, rfl⟩ := List.mem_map.mp hp
      exact (hother f.pid (hnew t f hf)).sameFamily.2.1
    · obtain ⟨f, hf, rfl⟩ := List.mem_map.mp hp
      have hne := hnew t f hf
      refine ⟨hc.1, ?_, (hother f.pid hne).sameFamily.2.2.trans hc.2.2⟩
      rw [hpids, Function.update_of_ne hne]
      exact hc.2.1
  refine ⟨hrun, hsched.trans h.turn, ?_, fun t => ?_, fun t f hf => ?_, ?_, fun p hp3 hp5 hn => ?_, fun t ht => ?_⟩
  · rw [hcurr, hslots, show (m.step (.call ⟨pid, r⟩)).turn = m.turn from rfl, Function.update_self]
  · by_cases ht : t = m.turn
    · subst ht
      rw [hslots, Function.update_self, Threads.State.calls_call, List.map_cons]
      refine Linked.push (hlinked m.turn) ⟨⟨h3, h5⟩, ?_, ?_⟩ ?_
      · rw [hpids, Function.update_self]
      · rw [hterm, hslot]
      · rw [hparent (by omega), hshown, h.turn]
    · rw [hslots, Function.update_of_ne ht, Threads.State.calls_of_ne ht]
      exact hlinked t
  · rcases Threads.State.mem_calls_step hf with hf | ⟨hr, -⟩
    · obtain ⟨-, hesp', hebp'⟩ := (hother f.pid (hnew t f hf)).sameReturn
      rw [hesp', hebp']
      exact h.callers t f hf
    · cases hr
      rw [hesp, hebp]
  · refine h.distinct.step fun f hf t g hg => ?_
    cases hf
    exact hnew t g hg
  · have hne : p ≠ pid := by
      rintro rfl
      exact hn ⟨m.turn, ⟨p, r⟩, by rw [Threads.State.calls_call]; exact List.mem_cons_self, rfl⟩
    rw [hpids, Function.update_of_ne hne]
    refine h.free p hp3 hp5 fun ⟨t, f, hf, hfp⟩ => hn ⟨t, f, ?_, hfp⟩
    by_cases ht : t = m.turn
    · subst ht
      rw [Threads.State.calls_call]
      exact List.mem_cons_of_mem _ hf
    · rwa [Threads.State.calls_of_ne ht]
  · have ht' : t ≠ m.turn := ht
    have hne : k.schedulingArray t ≠ pid := by
      intro he
      have hu := h.run.slot_used t
      rw [he, hfree] at hu
      cases hu
    rw [hslots, Function.update_of_ne ht', (hother _ hne).scheduleRegs]
    exact h.saved t ht'

/-! ## The end of a program -/

/-- A shell is started again, on an empty stack. -/
theorem Threaded.restart (h : Threaded k m) {k₁ : Kernel} (hr : Released k k₁) (hcurr : k.currPid ≤ 2)
    (inode entry : Nat) (r : Regs) : Threaded (launch k₁ k.currPid inode entry [] r) (m.step .ret) := by
  have hempty := h.shell_iff.mp hcurr
  have hslot : launchSlot k₁ k.currPid = m.turn := by
    rw [launchSlot, if_pos hcurr, hr.scheduledProcess, h.turn]
  have hcalls : (m.step .ret).calls = m.calls := by
    funext t
    by_cases ht : t = m.turn
    · rw [ht, Threads.State.calls_ret, hempty]
      rfl
    · exact Threads.State.calls_of_ne ht
  have hother : ∀ p, p ≠ k.currPid → SameLinks (k.pcbs p) ((launch k₁ k.currPid inode entry [] r).pcbs p) :=
    fun p hp => (hr.pcbs p).trans (launch_pcb_of_ne k₁ k.currPid inode entry [] r hp)
  have hpids : (launch k₁ k.currPid inode entry [] r).pidArray = k.pidArray := by
    rw [launch_pidArray, hr.pidArray, Function.update_idem, ← h.run.currPid_used, Function.update_eq_self]
  have hslots : (launch k₁ k.currPid inode entry [] r).schedulingArray = k.schedulingArray := by
    rw [launch_schedulingArray, hslot, hr.schedulingArray, h.current, Function.update_eq_self]
  have hrun := h.run.launch_shell hr hcurr inode entry [] r
  have hpid := launch_currPid k₁ k.currPid inode entry [] r
  have hsched : (launch k₁ k.currPid inode entry [] r).scheduledProcess = k.scheduledProcess :=
    (launch_scheduledProcess ..).trans hr.scheduledProcess
  generalize launch k₁ k.currPid inode entry [] r = k' at *
  have hchild : ∀ t, ∀ p ∈ (m.calls t).map Frame.pid, p ≠ k.currPid := by
    rintro t p hp rfl
    have := (Linked.node_of_mem (h.calls t) hp).1.1
    omega
  refine ⟨hrun, hsched.trans h.turn, ?_, fun t => ?_, fun t f hf => ?_, ?_, fun p h3 h5 hn => ?_, fun t ht => ?_⟩
  · rw [hpid, hslots]
    exact h.current
  · rw [hslots, hcalls]
    refine (h.calls t).congr (fun p hp => (hother p (hchild t p hp)).sameFamily.2.1) fun p hp hc => ?_
    exact ⟨hc.1, (congrFun hpids p).trans hc.2.1, (hother p (hchild t p hp)).sameFamily.2.2.trans hc.2.2⟩
  · rw [hcalls] at hf
    obtain ⟨-, hesp, hebp⟩ := (hother f.pid (hchild t _ (List.mem_map_of_mem hf))).sameReturn
    rw [hesp, hebp]
    exact h.callers t f hf
  · exact h.distinct.step fun _ e => by cases e
  · rw [hpids]
    refine h.free p h3 h5 ?_
    unfold Tasks.Live at hn ⊢
    rwa [hcalls] at hn
  · have hne : k.schedulingArray t ≠ k.currPid := fun he => ht (h.slots_injective (he.trans h.current))
    rw [hslots, (hother _ hne).scheduleRegs]
    exact h.saved t ht

/-- A program's caller goes on. -/
theorem Threaded.finish (h : Threaded k m) {k₁ : Kernel} (hr : Released k k₁) (hcurr : 2 < k.currPid) (v : Int) :
    Threaded (resumeParent k₁ v) (m.step .ret) ∧ Resumed m v k (resumeParent k₁ v) .ret := by
  obtain ⟨f, fs, hf⟩ : ∃ f fs, m.calls m.turn = f :: fs :=
    List.exists_cons_of_ne_nil fun he => absurd (h.shell_iff.mpr he) (by omega)
  have hlinked := h.calls m.turn
  rw [hf, ← h.current] at hlinked
  obtain ⟨hpid, hchild, htail⟩ := hlinked
  have hmem : f ∈ m.calls m.turn := by
    rw [hf]
    exact List.mem_cons_self
  have hdistinct := h.distinct.nodup m.turn
  rw [hf, List.map_cons, List.nodup_cons, ← hpid] at hdistinct
  have hlinks : ∀ p, SameLinks (k.pcbs p) (k₁.pcbs p) := hr.pcbs
  have hparent : (k₁.pcbs k₁.currPid).parentPid = (k.pcbs k.currPid).parentPid := by
    rw [hr.currPid]
    exact (hlinks _).sameFamily.2.1
  have hterm : (k₁.pcbs k₁.currPid).termId = m.turn := by
    rw [hr.currPid, (hlinks _).sameFamily.2.2]
    exact (hpid ▸ hchild).2.2
  have hcalls : (m.step .ret).calls m.turn = fs := by
    rw [Threads.State.calls_ret, hf]
    rfl
  have hslots : (resumeParent k₁ v).schedulingArray =
      Function.update k.schedulingArray m.turn (k.pcbs k.currPid).parentPid := by
    rw [resumeParent_schedulingArray, hterm, hparent, hr.schedulingArray]
  have hpids : ∀ p, p ≠ k.currPid → k₁.pidArray p = k.pidArray p := by
    intro p hp
    rw [hr.pidArray, Function.update_of_ne hp]
  have hkept : ∀ t p, IsChild k t p → p ≠ k.currPid → IsChild (resumeParent k₁ v) t p := by
    intro t p hc hp
    exact ⟨hc.1, (hpids p hp).trans hc.2.1, (hlinks p).sameFamily.2.2.trans hc.2.2⟩
  refine ⟨⟨h.run.resumeParent hr hcurr v, ?_, ?_, fun t => ?_, fun t g hg => ?_, ?_, fun p h3 h5 hn => ?_,
    fun t ht => ?_⟩, ?_⟩
  · rw [resumeParent_scheduledProcess, hr.scheduledProcess]
    exact h.turn
  · rw [resumeParent_currPid, hslots, hparent, show (m.step .ret).turn = m.turn from rfl, Function.update_self]
  · by_cases ht : t = m.turn
    · subst ht
      rw [hslots, Function.update_self, hcalls, hpid]
      refine htail.congr (fun p _ => (hlinks p).sameFamily.2.1) fun p hp hc => ?_
      exact hkept _ p hc fun e => hdistinct.1 (e ▸ hp)
    · rw [hslots, Function.update_of_ne ht, Threads.State.calls_of_ne ht]
      refine (h.calls t).congr (fun p _ => (hlinks p).sameFamily.2.1) fun p hp hc => ?_
      refine hkept _ p hc ?_
      rintro rfl
      exact ht (hc.2.2.symm.trans (hpid ▸ hchild).2.2)
  · have hg' : g ∈ m.calls t := by
      rcases Threads.State.mem_calls_step hg with hg | ⟨e, -⟩
      · exact hg
      · cases e
    obtain ⟨-, hesp, hebp⟩ := (hlinks g.pid).sameReturn
    rw [resumeParent_pcbs, hesp, hebp]
    exact h.callers t g hg'
  · exact h.distinct.step fun _ e => by cases e
  · rw [resumeParent_pidArray]
    by_cases hp : p = k.currPid
    · rw [hp, hr.pidArray, Function.update_self]
    · rw [hpids p hp]
      refine h.free p h3 h5 ?_
      rintro ⟨t, g, hg, rfl⟩
      refine hn ⟨t, g, ?_, rfl⟩
      by_cases ht : t = m.turn
      · subst ht
        rw [hf] at hg
        rw [hcalls]
        rcases List.mem_cons.mp hg with rfl | hg
        · exact absurd hpid.symm hp
        · exact hg
      · rwa [Threads.State.calls_of_ne ht]
  · have ht' : t ≠ m.turn := ht
    rw [hslots, Function.update_of_ne ht', resumeParent_pcbs, (hlinks _).scheduleRegs]
    exact h.saved t ht'
  · unfold Resumed
    rw [hf]
    refine ⟨?_, rfl, rfl⟩
    obtain ⟨-, hesp, hebp⟩ := (hlinks k.currPid).sameReturn
    rw [resumeParent_esp, resumeParent_ebp, hr.currPid, hesp, hebp, hpid]
    exact h.callers m.turn f hmem

theorem resumeParent_exceptionFlag (k : Kernel) (v : Int) : (resumeParent k v).exceptionFlag = k.exceptionFlag := rfl

theorem sysHalt_eq (hcurr : 2 < k.currPid) (status : UInt8) (r : Regs) (stale : Nat → UInt8) :
    sysHalt k status r stale =
      some (resumeParent (releaseProcess k r.esp) (if k.exceptionFlag then 256 else status.toNat)) := by
  obtain ⟨_, hrel, -⟩ := releaseProcess_frame k r.esp
  have hpid : (releaseProcess k r.esp).currPid = k.currPid := by
    rw [hrel]
    rfl
  unfold sysHalt
  dsimp only
  rw [if_neg (by omega)]

theorem Threaded.halt (h : Threaded k m) {status : UInt8} {r : Regs} {stale : Nat → UInt8}
    (hh : sysHalt k status r stale = some k') :
    Threaded k' (m.step .ret) ∧ Resumed m (if k.exceptionFlag then 256 else status.toNat) k k' .ret ∧
      k'.exceptionFlag = false := by
  have hr := h.run.released r.esp
  have hflag : (releaseProcess k r.esp).exceptionFlag = false := by
    obtain ⟨_, hrel, -⟩ := releaseProcess_frame k r.esp
    rw [hrel]
  by_cases hcurr : k.currPid ≤ 2
  · rcases sysHalt_shell hcurr h.run.hasShell (h.run.freePid_release hr hcurr) status stale with hf | ⟨inode, entry, he⟩
    · rw [hf] at hh
      cases hh
    · rw [he, Option.some_inj] at hh
      obtain ⟨hmode, hkept⟩ := launch_mode (releaseProcess k r.esp) k.currPid inode entry [] r
      have hrep := h.restart hr hcurr inode entry r
      rw [hh] at hmode hkept hrep
      refine ⟨hrep, ?_, hkept.trans hflag⟩
      unfold Resumed
      rw [h.shell_iff.mp hcurr]
      exact hmode
  · have hchild : 2 < k.currPid := by omega
    rw [sysHalt_eq hchild, Option.some_inj] at hh
    obtain ⟨hrep, hres⟩ := h.finish hr hchild (if k.exceptionFlag then 256 else status.toNat)
    have hkept : (resumeParent (releaseProcess k r.esp)
        (if k.exceptionFlag then 256 else status.toNat)).exceptionFlag = false :=
      (resumeParent_exceptionFlag _ _).trans hflag
    rw [hh] at hrep hres hkept
    exact ⟨hrep, hres, hkept⟩

/-! ## Every action -/

theorem runnable_of_starts {command : Option (Nat → UInt8)} {stale : Nat → UInt8} (h : Starts k command stale) :
    runnable k.fs command stale = true := by
  obtain ⟨c, cmd, args, rfl, hline, hparse, hfind, -⟩ := h
  exact decide_eq_true ⟨hline, (cmd, args), hparse, hfind⟩

/-- A command that names a program does not come back when there is a pid. -/
theorem starts_of_runnable {command : Option (Nat → UInt8)} {stale : Nat → UInt8}
    (h : runnable k.fs command stale = true) {pid : Int} (hpid : freePid k.pidArray = some pid) (r : Regs) (v : Int) :
    sysExecute k command r stale ≠ .ret k v := by
  cases command with
  | none => cases h
  | some c =>
    obtain ⟨hline, ⟨cmd, args⟩, hparse, hfind⟩ := of_decide_eq_true h
    obtain ⟨⟨inode, entry⟩, hfind⟩ := Option.isSome_iff_exists.mp hfind
    unfold sysExecute
    simp only [if_neg hline, Option.mem_def.mp hparse, hfind, hpid]
    split_ifs
    · exact fun e => nomatch e
    · exact fun e => nomatch e

theorem Threaded.execute (h : Threaded k m) {command : Option (Nat → UInt8)} {r : Regs} {stale : Nat → UInt8}
    (hshown : CallerShown k (.execute command r stale)) (hs : step k (.execute command r stale) = some k') :
    let q := request m k (.event (.execute command r stale))
    Threaded k' (m.step q) ∧ Resumed m v k k' q ∧ k'.exceptionFlag = k.exceptionFlag := by
  intro q
  unfold step at hs
  dsimp only at hs
  rcases sysExecute_cases k command r stale with ⟨_, he⟩ | ⟨w, he⟩ | ⟨pid, inode, entry, args, hpid, he⟩
  · rw [he] at hs
    cases hs
  · rw [he] at hs
    cases hs
    -- the call has failed
    have hq : q = .stay := by
      show request m k (.event (.execute command r stale)) = .stay
      unfold request
      dsimp only
      split_ifs with hrun
      · cases hfresh : m.fresh with
        | none => rfl
        | some pid => exact absurd he (starts_of_runnable hrun (h.freePid_eq.trans hfresh) r w)
      · rfl
    rw [hq]
    exact ⟨h, ⟨⟨rfl, rfl⟩, rfl, rfl⟩, rfl⟩
  · have hstarts := starts_of_user he
    rw [he] at hs
    cases hs
    have hq : q = .call ⟨pid, r⟩ := by
      show request m k (.event (.execute command r stale)) = .call ⟨pid, r⟩
      unfold request
      dsimp only
      rw [if_pos (runnable_of_starts hstarts), ← h.freePid_eq, hpid]
    rw [hq]
    obtain ⟨hmode, hflag⟩ := launch_mode k pid inode entry args r
    exact ⟨h.call (hshown hstarts) hpid inode entry args r, hmode, hflag⟩

/-- Nothing but the events of processes asks for something. -/
theorem Threaded.stay (h : Threaded k m) (hs : Unmoved k k') :
    Threaded k' (m.step .stay) ∧ Resumed m v k k' .stay ∧ k'.exceptionFlag = k.exceptionFlag := by
  obtain ⟨pcbs, he, -⟩ := hs.processes
  have hesp := congrArg Processes.esp he
  have hebp := congrArg Processes.ebp he
  have heax := congrArg Processes.eax he
  have hmode := congrArg Processes.mode he
  have hflag := congrArg Processes.exceptionFlag he
  exact ⟨h.congr hs, ⟨⟨hesp, hebp⟩, heax, hmode⟩, hflag⟩

/-- What an action has done to the threads and to the CPU. -/
structure Follows (m : Tasks) (k : Kernel) (a : Action) (k' : Kernel) : Prop where
  represents : Threaded k' (m.step (request m k a))
  resumed : Resumed m (exitValue a) k k' (request m k a)
  exceptionFlag : k'.exceptionFlag = false

theorem Threaded.stays (h : Threaded k m) (hflag : k.exceptionFlag = false) {a : Action}
    (hq : request m k a = .stay) (hs : Unmoved k k') : Follows m k a k' := by
  obtain ⟨hrep, hres, hf⟩ := @Threaded.stay k k' m (exitValue a) h hs
  rw [← hq] at hrep hres
  exact ⟨hrep, hres, hf.trans hflag⟩

theorem Threaded.halts (h : Threaded k m) (hflag : k.exceptionFlag = false) {a : Action}
    (hq : request m k a = .ret) {k₁ : Kernel} (h₁ : Unmoved k k₁) {status : UInt8} (hv : exitValue a = status.toNat)
    {r : Regs} {stale : Nat → UInt8} (hh : sysHalt k₁ status r stale = some k') : Follows m k a k' := by
  obtain ⟨pcbs, he, -⟩ := h₁.processes
  have hf₁ : k₁.exceptionFlag = false := (congrArg Processes.exceptionFlag he).trans hflag
  obtain ⟨hrep, hres, hf⟩ := (h.congr h₁).halt hh
  rw [hf₁, if_neg (by decide), ← hv] at hres
  have hres' : Resumed m (exitValue a) k k' .ret := hres
  rw [← hq] at hrep hres'
  exact ⟨hrep, hres', hf⟩

theorem Threaded.step (h : Threaded k m) (hflag : k.exceptionFlag = false) {e : Event} (hok : CallerShown k e)
    (hs : BasicOs.step k e = some k') : Follows m k (.event e) k' := by
  cases e with
  | tick r inner stale =>
    have hsched : (sendEoi k 0).scheduledProcess = k.scheduledProcess := by
      obtain ⟨_, hd⟩ := sendEoi_devicesOnly k 0
      rw [hd]
    unfold BasicOs.step at hs
    dsimp only at hs
    rw [h.run.pitHandler_eq, hsched, Option.some_inj] at hs
    obtain ⟨hrep, hres, hf⟩ := @Threaded.tick k m 255 h r k' hs
    exact ⟨hrep, hres, hf.trans hflag⟩
  | execute command r stale =>
    obtain ⟨hrep, hres, hf⟩ := h.execute (v := 255) hok hs
    exact ⟨hrep, hres, hf.trans hflag⟩
  | halt status r stale =>
    unfold BasicOs.step at hs
    have hv : exitValue (.event (.halt status r stale)) = status.toNat := rfl
    dsimp only at hs
    exact h.halts hflag rfl (.refl k) hv hs
  | key scancode r stale fmt =>
    unfold BasicOs.step at hs
    obtain ⟨⟨k₁, halts⟩, hk, hs⟩ := Option.bind_eq_some_iff.mp hs
    obtain ⟨keys, hin, -⟩ := keyboardHandler_inputOnly hk
    have hq : request m k (.event (.key scancode r stale fmt)) = if halts then .ret else .stay := by
      unfold request
      dsimp only
      rw [hk]
      rfl
    dsimp only at hs
    cases halts with
    | true =>
      have hv : exitValue (.event (.key scancode r stale fmt)) = (255 : UInt8).toNat := rfl
      rw [if_pos rfl] at hs
      exact h.halts hflag hq hin.unmoved hv hs
    | false =>
      cases hs
      exact h.stays hflag hq hin.unmoved
  | vidmap screenStart =>
    rw [← Option.some.inj hs]
    exact h.stays hflag rfl (sysVidmap_unmoved k screenStart)
  | switch nextTerm =>
    rw [← Option.some.inj hs]
    exact h.stays hflag rfl (switchTerminals_ttyOnly k nextTerm).inputOnly.unmoved

/-- Programs are started from the displayed terminal. -/
def StartsShown (k : Kernel) : Action → Prop
  | .event e => CallerShown k e
  | _ => True

/-- Programs are started from the displayed terminal, and calls are given buffers in their caller's page. Elsewhere a
buffer could be one of the kernel's variables. -/
def Orderly (k : Kernel) (a : Action) : Prop := StartsShown k a ∧ BuffersInPage k a

theorem Threaded.act (h : Threaded k m) (hflag : k.exceptionFlag = false) {a : Action} (hok : StartsShown k a)
    (ha : act k a = some k') : Follows m k a k' := by
  cases a with
  | event e => exact h.step hflag hok ha
  | rtc =>
    cases ha
    exact h.stays hflag rfl (rtcHandler_devicesOnly k).callOnly.unmoved
  | exception vec esp cr2 r stale =>
    obtain ⟨k₁, hcall, hh⟩ := act_exception ha
    have h₁ := h.congr hcall.unmoved
    have hrep : Threaded { k₁ with exceptionFlag := true } m :=
      ⟨h₁.run.congr (sameTables_exceptionFlag k₁ true).running, h₁.turn, h₁.current, h₁.calls, h₁.callers,
        h₁.distinct, h₁.free, h₁.saved⟩
    obtain ⟨hrep', hres, hf⟩ := hrep.halt hh
    exact ⟨hrep', hres, hf⟩
  | store va c =>
    obtain ⟨pa, -, rfl⟩ := Option.map_eq_some_iff.mp ha
    exact h.stays hflag rfl (storePhys_unmoved k pa c)
  | «open» esp filename rate =>
    obtain ⟨⟨k₁, v⟩, ho, rfl⟩ := Option.map_eq_some_iff.mp ha
    exact h.stays hflag rfl (sysOpen_callOnly ho).unmoved
  | close esp fd =>
    cases ha
    exact h.stays hflag rfl (sysClose_callOnly k esp fd).unmoved
  | read esp fd buf nbytes =>
    obtain ⟨⟨k₁, r⟩, hr, rfl⟩ := Option.map_eq_some_iff.mp ha
    exact h.stays hflag rfl ((sysRead_callOnly hr).unmoved.trans (copyOut_unmoved k₁ buf r.2))
  | write esp fd buf nbytes rate =>
    cases ha
    exact h.stays hflag rfl (sysWrite_callOnly k esp fd buf nbytes rate).unmoved
  | getargs esp buf nbytes =>
    cases ha
    exact h.stays hflag rfl (copyOut_unmoved k buf _)

/-! ## From boot on -/

theorem bootState_exceptionFlag (k : Kernel) (n : Nat) (r : Regs) :
    (bootState k n r).exceptionFlag = k.exceptionFlag := by
  unfold bootState
  split
  · obtain ⟨_, _, _, hv, -⟩ := schedulingVidmap_frame k k.scheduledProcess k.currTerm
    rw [hv]
  · obtain ⟨_, _, _, hv, -⟩ := schedulingVidmap_frame { saveContext k r with scheduledProcess := 1 } 1 k.currTerm
    rw [hv]
    rfl
  · obtain ⟨_, _, _, hv, -⟩ := schedulingVidmap_frame
      { saveContext k r with bootedFlag := true, scheduledProcess := 2 } 2 k.currTerm
    rw [hv]
    rfl

theorem BootedTo.tick_exceptionFlag {n : Nat} (h : BootedTo n k) (hn : n < 3) (hshell : HasShell k.fs)
    (hs : n = 0 → k.scheduledProcess = 0) {r inner : Regs} {stale : Nat → UInt8}
    (ht : schedule k r inner stale = some k') : k'.exceptionFlag = k.exceptionFlag := by
  obtain ⟨inode, entry, rfl⟩ := h.tick_launch hn hshell hs ht
  exact (launch_mode ..).2.trans (bootState_exceptionFlag k n r)

/-- The threads after boot: the last tick has given the turn to the third terminal, and the one before to the
second. -/
def bootTasks (r : Fin 3 → Regs) : Tasks := ⟨2, fun _ => [], fun t => if t = 0 then r 1 else r 2⟩

theorem Threaded.of_boot {fs : FileSystem} {a b : Nat} (hshell : HasShell fs) {local_ : Fin 3 → Term}
    {r inner : Fin 3 → Regs} {stale : Nat → UInt8} (h : bootedAt fs a b local_ r inner stale = some k) :
    Threaded k (bootTasks r) ∧ k.exceptionFlag = false := by
  have hpids : ∀ p : Int, 0 ≤ p → p ≤ 5 → (initPaging (loadedAt fs a b)).pidArray p = unused := fun _ _ _ => rfl
  obtain ⟨hboot, hfs, -, hcurr, h0, h1⟩ := bootRun_booted hpids hshell h
  have hrun := RunInv.of_booted hboot (hfs ▸ hshell)
  have hslots : ∀ t : Fin 3, k.schedulingArray t = t.val := by
    intro t
    rw [hboot.shells.slots, if_pos t.isLt]
  have hsched : k.scheduledProcess = 2 := by
    have := hboot.current.symm.trans hcurr
    exact Fin.ext (by omega)
  refine ⟨⟨hrun, hsched, ?_, hslots, fun t f hf => ?_, ⟨fun t => List.nodup_nil, fun t u f hf => ?_⟩,
    fun p h3 h5 _ => ?_, fun t ht => ?_⟩, ?_⟩
  · rw [hcurr, hslots]
    rfl
  · cases hf
  · cases hf
  · rw [hboot.shells.pids p (by omega) h5, if_neg (by omega)]
  · rw [hslots]
    match t with
    | 0 => exact h0
    | 1 => exact h1
    | 2 => exact absurd rfl ht
  · have b₀ := bootedTo_initialBoot hpids local_
    obtain ⟨k₁, h₁, h⟩ := Option.bind_eq_some_iff.mp h
    obtain ⟨k₂, h₂, h₃⟩ := Option.bind_eq_some_iff.mp h
    have t₁ := bootedTo_tick b₀ (by decide) hshell (fun _ => rfl) h₁
    have hfs₁ : k₁.fs = fs := t₁.fs
    have t₂ := bootedTo_tick t₁.shells (by decide) (hfs₁ ▸ hshell) (fun h => absurd h (by decide)) h₂
    have hfs₂ : k₂.fs = fs := t₂.fs.trans t₁.fs
    rw [t₂.shells.tick_exceptionFlag (by decide) (hfs₂ ▸ hshell) (fun h => absurd h (by decide)) h₃,
      t₁.shells.tick_exceptionFlag (by decide) (hfs₁ ▸ hshell) (fun h => absurd h (by decide)) h₂,
      b₀.tick_exceptionFlag (by decide) hshell (fun _ => rfl) h₁]
    rfl

/-- An observer beside the kernel: the threads, with what each action asks of them. -/
def followTasks (m : Tasks) (k : Kernel) (a : Action) (_ : Kernel) : Tasks := m.step (request m k a)

/-- What the observer has seen is what the kernel represents. -/
theorem Threaded.reach {k₀ : Kernel} {m₀ : Tasks} {ok : Kernel × Tasks → Action → Prop}
    (h : Threaded k₀ m₀ ∧ k₀.exceptionFlag = false) (hok : ∀ p a, ok p a → StartsShown p.1 a)
    (hrun : Reach (observed BasicOs.act followTasks) ok (k₀, m₀) (k, m)) :
    Threaded k m ∧ k.exceptionFlag = false :=
  hrun.invariant (I := fun p => Threaded p.1 p.2 ∧ p.1.exceptionFlag = false) h fun p a q hp ha hs => by
    obtain ⟨hs, hq⟩ := observed_eq_some.mp hs
    obtain ⟨hrep, -, hflag⟩ := hp.1.act hp.2 (hok p a ha) hs
    rw [hq]
    exact ⟨hrep, hflag⟩

/-- The pids of the programs that run. -/
def Tasks.pids (m : Tasks) : List Int := (List.finRange 3).flatMap fun t => (m.calls t).map Frame.pid

theorem Tasks.mem_pids (m : Tasks) (p : Int) : p ∈ m.pids ↔ m.Live p := by
  unfold Tasks.pids Tasks.Live
  simp only [List.mem_flatMap, List.mem_finRange, true_and, List.mem_map]

theorem Threaded.pids_nodup (h : Threaded k m) : m.pids.Nodup := by
  refine List.nodup_flatMap.mpr
    ⟨fun t _ => h.distinct.nodup t, (List.nodup_finRange 3).imp fun {t u} htu p hp hp' => ?_⟩
  obtain ⟨f, hf, rfl⟩ := List.mem_map.mp hp
  obtain ⟨g, hg, he⟩ := List.mem_map.mp hp'
  exact htu (h.distinct.thread t u f hf g hg he.symm)

/-- At most three programs run; when three do, there is no pid for another one. -/
theorem Threaded.pids_length (h : Threaded k m) : m.pids.length ≤ 3 ∧ (m.fresh = none ↔ m.pids.length = 3) := by
  have hsub : m.pids.toFinset ⊆ {3, 4, 5} := by
    intro p hp
    obtain ⟨t, f, hf, rfl⟩ := (m.mem_pids p).mp (List.mem_toFinset.mp hp)
    have hr := (h.child hf).1
    simp only [Finset.mem_insert, Finset.mem_singleton]
    omega
  have hcard : m.pids.toFinset.card = m.pids.length := List.toFinset_card_of_nodup h.pids_nodup
  have hthree : ({3, 4, 5} : Finset Int).card = 3 := by decide
  have hle := Finset.card_le_card hsub
  refine ⟨by omega, ?_⟩
  have hfresh : m.fresh = none ↔ ({3, 4, 5} : Finset Int) ⊆ m.pids.toFinset := by
    unfold Tasks.fresh
    rw [List.find?_eq_none]
    simp only [Finset.subset_iff, List.mem_toFinset, m.mem_pids, Finset.mem_insert, Finset.mem_singleton,
      List.mem_cons, List.not_mem_nil, or_false, decide_eq_true_eq, not_not]
  rw [hfresh]
  constructor
  · intro hall
    have := Finset.card_le_card hall
    omega
  · intro hlen
    exact (Finset.eq_of_subset_of_card_le hsub (by omega)).symm.subset

/-- The small image, booted and switched to the terminal that has the turn. -/
theorem bootedAt_switched : ∃ k₁ k, bootedAt FileSystem.shellImage 0x500000 0x501000 (fun _ => Term.zeroed) bootRegs
      bootInner (fun _ => 0) = some k₁ ∧ act k₁ (.event (.switch 2)) = some k ∧ Booted k ∧
    k.fs = FileSystem.shellImage ∧ k.scheduledProcess = 2 ∧ k.currTerm = 2 := by
  obtain ⟨k₁, hboot⟩ := bootedAt_shellImage 0x500000 0x501000
  obtain ⟨hbooted, hfs, -, hcurr, -⟩ := bootRun_booted (fun _ _ _ => rfl) hasShell_shellImage hboot
  refine ⟨k₁, _, hboot, rfl, hbooted.switchTerminals 2, (switchTerminals_fs k₁ 2).trans hfs, ?_, ?_⟩
  · have := hbooted.current.symm.trans hcurr
    exact (switchTerminals_scheduledProcess k₁ 2).trans (Fin.ext (by omega))
  · exact switchTerminals_currTerm k₁ 2

/-- The top of a stack that has a frame below it. -/
theorem Threaded.free_ret (h : Threaded k m) {t : Fin 3} {f : Frame} {base : List Frame}
    (hcalls : m.calls t = f :: base) {m' : Tasks} (hret : m' = m.step .ret) (hbase : m'.calls t = base) :
    ¬ m'.Live f.pid := by
  rintro ⟨u, g, hg, hpid⟩
  subst hret
  have hf : f ∈ m.calls t := by
    rw [hcalls]
    exact List.mem_cons_self
  have hg' : g ∈ m.calls u := by
    rcases Threads.State.mem_calls_step hg with hg' | ⟨e, -⟩
    · exact hg'
    · cases e
  obtain rfl := h.distinct.thread u t g hg' f hf hpid
  have hnodup := h.distinct.nodup u
  rw [hcalls, List.map_cons, List.nodup_cons] at hnodup
  rw [hbase] at hg
  exact hnodup.1 (hpid ▸ List.mem_map_of_mem hg)

end BasicOs
