import BasicOs.Keyboard
import BasicOs.Process

/-!
# The kernel as a machine

Everything that can happen to the kernel after boot, as far as processes, terminals and the keyboard are
concerned: an interrupt of the PIT or the keyboard, or a system call of the running process. Each handler
runs with interrupts off, so each is one step.

* `Event`, `step` : the events and the transition function;
* `BootedTo n k` : the first `n` terminals have their shells; `Booted` : all three have;
* `bootRun_booted` : that is so after `initial_boot` and three ticks; `shellBoot_booted` : a kernel that is.
-/

namespace BasicOs
open Run

inductive Event
  | tick (r inner : Regs) (stale : Nat → UInt8)
  | key (scancode : UInt8) (r : Regs) (stale : Nat → UInt8) (fmt : List UInt8 → List UInt8)
  | execute (command : Option (Nat → UInt8)) (r : Regs) (stale : Nat → UInt8)
  | halt (status : UInt8) (r : Regs) (stale : Nat → UInt8)
  | vidmap (screenStart : Nat)
  | switch (nextTerm : Fin 3)

/-- One step; `none` when the kernel does not come back from the handler. -/
def step (k : Kernel) : Event → Option Kernel
  | .tick r inner stale => pitHandler k r inner stale
  | .key scancode r stale fmt =>
    (keyboardHandler k scancode stale fmt).bind fun p =>
      if p.2 then sysHalt p.1 255 r stale else some p.1
  | .execute command r stale =>
    match sysExecute k command r stale with
    | .fault _ => none
    | .ret k _ | .user k => some k
  | .halt status r stale => sysHalt k status r stale
  | .vidmap screenStart => some (sysVidmap k screenStart).1
  | .switch nextTerm => some (switchTerminals k nextTerm)

/-! ## Boot -/

/-- The first `n` terminals have their shells, with the pids `0` to `n - 1`, and no other pid is used. -/
structure BootedTo (n : Nat) (k : Kernel) : Prop where
  slots : ∀ t : Fin 3, k.schedulingArray t = if t.val < n then (t.val : Int) else -1
  pids : ∀ p : Int, 0 ≤ p → p ≤ 5 → k.pidArray p = if p < n then used else unused
  own : ∀ p : Int, 0 ≤ p → p < n → (k.pcbs p).currPid = p
  active : ∀ t : Fin 3, t.val < n → (k.terminals t).activePid = t.val

/-- The page and the kernel stack of the running process are in place. -/
def ContextSet (k : Kernel) : Prop := UserPageIs k k.currPid ∧ k.tss.esp0 = kernelStackBase k.currPid

/-- All three shells are live and one of them, the one in the scheduled slot, runs. -/
structure Booted (k : Kernel) : Prop where
  shells : BootedTo 3 k
  current : k.currPid = k.scheduledProcess.val
  context : ContextSet k

theorem BootedTo.freePid_eq {n : Nat} {k : Kernel} (h : BootedTo n k) (hn : n < 3) :
    freePid k.pidArray = some (n : Int) := by
  have hp := fun p h0 h5 => h.pids p h0 h5
  unfold freePid
  simp only [List.find?_cons, hp 0 (by decide) (by decide), hp 1 (by decide) (by decide),
    hp 2 (by decide) (by decide), hp 3 (by decide) (by decide)]
  obtain rfl | rfl | rfl : n = 0 ∨ n = 1 ∨ n = 2 := by omega
  · rfl
  · rfl
  · rfl

/-- The next shell is started in its slot. -/
theorem bootedTo_launch {n : Nat} {k : Kernel} (h : BootedTo n k) (hn : n < 3)
    (hs : k.scheduledProcess.val = n) (inode entry : Nat) (args : List UInt8) (r : Regs) :
    BootedTo (n + 1) (launch k n inode entry args r) ∧
      (launch k n inode entry args r).currPid = (launch k n inode entry args r).scheduledProcess.val ∧
      ContextSet (launch k n inode entry args r) := by
  have hslot : launchSlot k n = k.scheduledProcess := if_pos (by omega)
  have hself := launch_pcb_self k n inode entry args r
  refine ⟨⟨fun t => ?_, fun p h0 h5 => ?_, fun p h0 hp => ?_, fun t ht => ?_⟩, ?_, ?_, ?_⟩
  · rw [launch_schedulingArray, hslot, Function.update_apply, h.slots t]
    have htv : t = k.scheduledProcess ↔ t.val = n := by rw [Fin.ext_iff, hs]
    simp only [htv]
    split_ifs <;> omega
  · rw [launch_pidArray, Function.update_apply, h.pids p h0 h5]
    push_cast
    split_ifs <;> first | rfl | (exfalso; omega)
  · by_cases hpn : p = n
    · rw [hpn]
      exact hself.1
    · obtain ⟨_, _, hp'⟩ := launch_pcb_of_ne k n inode entry args r hpn
      rw [hp']
      exact h.own p h0 (by omega)
  · rw [launch_activePid, hslot]
    split_ifs with hts
    · rw [hts, hs]
    · have : t.val ≠ n := fun e => hts (Fin.ext (e.trans hs.symm))
      exact h.active t (by omega)
  · rw [launch_currPid, launch_scheduledProcess, hs]
  · rw [launch_currPid]
    exact launch_userPageIs k n inode entry args r (by omega)
  · rw [launch_currPid, launch_tss]

/-- Booted terminals stay so under a change that leaves pids, slots and control blocks alone. -/
theorem BootedTo.congr {n : Nat} {k k' : Kernel} (h : BootedTo n k) (hs : k'.schedulingArray = k.schedulingArray)
    (hp : k'.pidArray = k.pidArray) (hc : ∀ p, (k'.pcbs p).currPid = (k.pcbs p).currPid)
    (ht : k'.terminals = k.terminals) : BootedTo n k' where
  slots t := by rw [hs]; exact h.slots t
  pids p := by rw [hp]; exact h.pids p
  own p h0 hp := by rw [hc]; exact h.own p h0 hp
  active t := by rw [ht]; exact h.active t

theorem bootedTo_schedulingVidmap {n : Nat} {k : Kernel} (h : BootedTo n k) (t u : Fin 3) :
    BootedTo n (schedulingVidmap k t u) ∧ (schedulingVidmap k t u).fs = k.fs ∧
      (schedulingVidmap k t u).scheduledProcess = k.scheduledProcess := by
  obtain ⟨_, _, _, hv, -⟩ := schedulingVidmap_frame k t u
  rw [hv]
  exact ⟨h.congr rfl rfl (fun _ => rfl) rfl, rfl, rfl⟩

theorem bootedTo_saveContext {n : Nat} {k : Kernel} (h : BootedTo n k) (r : Regs) :
    BootedTo n (saveContext k r) := by
  refine h.congr rfl rfl (fun p => ?_) rfl
  simp only [saveContext, Kernel.modifyPcb, Function.update_apply]
  split_ifs with hp
  · rw [hp]
  · rfl

theorem bootShell_eq (k : Kernel) (t : Fin 3) (r : Regs) (stale : Nat → UInt8) :
    let k₁ := schedulingVidmap { k with scheduledProcess := t } t k.currTerm
    (∀ k', sysExecute k₁ (some shellCommand) r stale = .fault k' → bootShell k t r stale = none) ∧
      ∀ k', sysExecute k₁ (some shellCommand) r stale = .user k' → bootShell k t r stale = some k' := by
  unfold bootShell
  refine ⟨fun _ he => ?_, fun k' he => ?_⟩
  · dsimp only at he ⊢
    rw [he]
  · dsimp only at he ⊢
    rw [he]

/-- The state in which `schedule` calls `sys_execute` to boot a terminal. -/
def bootState (k : Kernel) (n : Nat) (r : Regs) : Kernel :=
  match n with
  | 0 => schedulingVidmap k k.scheduledProcess k.currTerm
  | 1 => schedulingVidmap { saveContext k r with scheduledProcess := 1 } 1 k.currTerm
  | _ => schedulingVidmap { saveContext k r with bootedFlag := true, scheduledProcess := 2 } 2 k.currTerm

theorem bootState_pcbs {k : Kernel} {n : Nat} {r : Regs} (hn : n ≠ 0) :
    (bootState k n r).pcbs = (saveContext k r).pcbs := by
  unfold bootState
  split
  · exact absurd rfl hn
  · obtain ⟨_, _, _, hv, -⟩ := schedulingVidmap_frame { saveContext k r with scheduledProcess := 1 } 1 k.currTerm
    rw [hv]
  · obtain ⟨_, _, _, hv, -⟩ := schedulingVidmap_frame
      { saveContext k r with bootedFlag := true, scheduledProcess := 2 } 2 k.currTerm
    rw [hv]

theorem bootState_toKeys (k : Kernel) (n : Nat) (r : Regs) : (bootState k n r).toKeys = k.toKeys := by
  unfold bootState
  split
  · obtain ⟨_, _, _, hv, -⟩ := schedulingVidmap_frame k k.scheduledProcess k.currTerm
    rw [hv]
  · obtain ⟨_, _, _, hv, -⟩ := schedulingVidmap_frame { saveContext k r with scheduledProcess := 1 } 1 k.currTerm
    rw [hv]
    rfl
  · obtain ⟨_, _, _, hv, -⟩ := schedulingVidmap_frame
      { saveContext k r with bootedFlag := true, scheduledProcess := 2 } 2 k.currTerm
    rw [hv]
    rfl

section Boot
variable {n : Nat} {k : Kernel} (h : BootedTo n k) (hn : n < 3) (r : Regs)
include h hn

theorem bootedTo_bootState (hs : n = 0 → k.scheduledProcess = 0) :
    BootedTo n (bootState k n r) ∧ (bootState k n r).fs = k.fs ∧ (bootState k n r).scheduledProcess.val = n := by
  have hsave := bootedTo_saveContext h r
  obtain rfl | rfl | rfl : n = 0 ∨ n = 1 ∨ n = 2 := by omega
  · obtain ⟨h1, hfs, hsched⟩ := bootedTo_schedulingVidmap h k.scheduledProcess k.currTerm
    refine ⟨h1, hfs, ?_⟩
    rw [bootState, hsched, hs rfl]
    rfl
  · have h0 : BootedTo 1 { saveContext k r with scheduledProcess := 1 } := hsave.congr rfl rfl (fun _ => rfl) rfl
    obtain ⟨h1, hfs, hsched⟩ := bootedTo_schedulingVidmap h0 1 k.currTerm
    exact ⟨h1, hfs, congrArg Fin.val hsched⟩
  · have h0 : BootedTo 2 { saveContext k r with bootedFlag := true, scheduledProcess := 2 } :=
      hsave.congr rfl rfl (fun _ => rfl) rfl
    obtain ⟨h1, hfs, hsched⟩ := bootedTo_schedulingVidmap h0 2 k.currTerm
    exact ⟨h1, hfs, congrArg Fin.val hsched⟩

/-- While terminals are missing, a tick starts the next shell. -/
theorem BootedTo.schedule_eq (inner : Regs) (stale : Nat → UInt8) :
    (∀ k', sysExecute (bootState k n r) (some shellCommand) inner stale = .fault k' →
      schedule k r inner stale = none) ∧
    ∀ k', sysExecute (bootState k n r) (some shellCommand) inner stale = .user k' →
      schedule k r inner stale = some k' := by
  have hslot : ∀ t : Fin 3, (saveContext k r).schedulingArray t = if t.val < n then (t.val : Int) else -1 := h.slots
  unfold schedule
  obtain rfl | rfl | rfl : n = 0 ∨ n = 1 ∨ n = 2 := by omega
  · have h0 : k.schedulingArray 0 = -1 := h.slots 0
    rw [if_pos h0, bootState]
    refine ⟨fun _ he => ?_, fun k' he => ?_⟩
    · dsimp only
      rw [he]
    · dsimp only
      rw [he]
  · rw [if_neg (by rw [h.slots 0]; decide)]
    have h1 : (saveContext k r).schedulingArray 1 = -1 := hslot 1
    dsimp only
    rw [if_pos h1]
    exact bootShell_eq (saveContext k r) 1 inner stale
  · rw [if_neg (by rw [h.slots 0]; decide)]
    have h2 : (saveContext k r).schedulingArray 2 = -1 := hslot 2
    dsimp only
    rw [if_neg (by rw [hslot 1]; decide), if_pos h2]
    exact bootShell_eq { saveContext k r with bootedFlag := true } 2 inner stale

end Boot

/-- What one tick of the boot leaves: the next terminal's shell runs, and the one that ran has its registers
saved. -/
structure BootTick (n : Nat) (k : Kernel) (r : Regs) (k' : Kernel) : Prop where
  shells : BootedTo (n + 1) k'
  fs : k'.fs = k.fs
  current : k'.currPid = n
  scheduled : k'.scheduledProcess.val = n
  context : ContextSet k'
  keys : k'.toKeys =
    { k.toKeys with shellFlag := true, runningFlag := if (n : Int) ≠ 0 then true else k.runningFlag }
  saved : n ≠ 0 → ∀ p : Int, p ≠ n → (k'.pcbs p).scheduleRegs = ((saveContext k r).pcbs p).scheduleRegs

/-- A tick that returns has launched the next shell. -/
theorem BootedTo.tick_launch {n : Nat} {k k' : Kernel} (h : BootedTo n k) (hn : n < 3) (hshell : HasShell k.fs)
    (hs : n = 0 → k.scheduledProcess = 0) {r inner : Regs} {stale : Nat → UInt8}
    (ht : schedule k r inner stale = some k') :
    ∃ inode entry, k' = launch (bootState k n r) n inode entry [] inner := by
  obtain ⟨hboot, hfs, -⟩ := bootedTo_bootState h hn r hs
  obtain ⟨hnone, hsome⟩ := h.schedule_eq hn r inner stale
  obtain ⟨_, he⟩ | ⟨inode, entry, he⟩ :=
    sysExecute_shell (by rw [hfs]; exact hshell) (hboot.freePid_eq hn) inner stale
  · rw [hnone _ he] at ht
    cases ht
  · rw [hsome _ he, Option.some_inj] at ht
    exact ⟨inode, entry, ht.symm⟩

/-- One tick boots the next terminal. -/
theorem bootedTo_tick {n : Nat} {k k' : Kernel} (h : BootedTo n k) (hn : n < 3) (hshell : HasShell k.fs)
    (hs : n = 0 → k.scheduledProcess = 0) {r inner : Regs} {stale : Nat → UInt8}
    (ht : schedule k r inner stale = some k') : BootTick n k r k' := by
  obtain ⟨hboot, hfs, hsched⟩ := bootedTo_bootState h hn r hs
  obtain ⟨inode, entry, rfl⟩ := h.tick_launch hn hshell hs ht
  obtain ⟨h1, h2, h3⟩ := bootedTo_launch hboot hn hsched inode entry [] inner
  refine ⟨h1, (launch_fs _ _ _ _ _ _).trans hfs, launch_currPid _ _ _ _ _ _, ?_, h3, ?_, fun h0 p hp => ?_⟩
  · rw [launch_scheduledProcess, hsched]
  · rw [launch_toKeys, bootState_toKeys]
  · obtain ⟨_, _, hsame⟩ := launch_pcb_of_ne (bootState k n r) n inode entry [] inner hp
    rw [hsame, bootState_pcbs h0]
    rfl

/-- `initial_boot` and the three ticks after it, with the registers of each tick. -/
def bootRun (k : Kernel) (local_ : Fin 3 → Term) (r inner : Fin 3 → Regs) (stale : Nat → UInt8) :
    Option Kernel :=
  (schedule (initialBoot k local_) (r 0) (inner 0) stale).bind fun k =>
    (schedule k (r 1) (inner 1) stale).bind fun k => schedule k (r 2) (inner 2) stale

theorem bootedTo_initialBoot {k : Kernel} (hpids : ∀ p : Int, 0 ≤ p → p ≤ 5 → k.pidArray p = unused)
    (local_ : Fin 3 → Term) : BootedTo 0 (initialBoot k local_) :=
  ⟨fun _ => rfl, fun p hp0 hp5 => (hpids p hp0 hp5).trans (if_neg (by omega)).symm,
    fun p hp0 hp => absurd hp (by omega), fun t ht => absurd ht (Nat.not_lt_zero _)⟩

/-- If every pid was unused, the three shells are live then; the first two have been preempted by the second
and the third tick. -/
theorem bootRun_booted {k k' : Kernel} {local_ : Fin 3 → Term}
    (hpids : ∀ p : Int, 0 ≤ p → p ≤ 5 → k.pidArray p = unused) (hshell : HasShell k.fs) {r inner : Fin 3 → Regs}
    {stale : Nat → UInt8} (h : bootRun k local_ r inner stale = some k') :
    Booted k' ∧ k'.fs = k.fs ∧ k'.toKeys = { k.toKeys with shellFlag := true, runningFlag := true } ∧
      k'.currPid = 2 ∧ (k'.pcbs 0).scheduleRegs = r 1 ∧ (k'.pcbs 1).scheduleRegs = r 2 := by
  obtain ⟨k₁, h₁, h⟩ := Option.bind_eq_some_iff.mp h
  obtain ⟨k₂, h₂, h₃⟩ := Option.bind_eq_some_iff.mp h
  have t1 := bootedTo_tick (bootedTo_initialBoot hpids local_) (by decide) hshell (fun _ => rfl) h₁
  have f1 : k₁.fs = k.fs := t1.fs
  have t2 := bootedTo_tick t1.shells (by decide) (by rw [f1]; exact hshell) (fun h => absurd h (by decide)) h₂
  have f2 : k₂.fs = k.fs := t2.fs.trans f1
  have t3 := bootedTo_tick t2.shells (by decide) (by rw [f2]; exact hshell) (fun h => absurd h (by decide)) h₃
  -- the second tick interrupted shell 0, the third one shell 1
  have s1 : k₁.schedulingArray k₁.scheduledProcess = 0 := by
    rw [t1.shells.slots, t1.scheduled]
    rfl
  have s2 : k₂.schedulingArray k₂.scheduledProcess = 1 := by
    rw [t2.shells.slots, t2.scheduled]
    rfl
  refine ⟨⟨t3.shells, by rw [t3.current, t3.scheduled], t3.context⟩, t3.fs.trans f2, ?_, t3.current, ?_, ?_⟩
  · rw [t3.keys, t2.keys, t1.keys]
    rfl
  · rw [t3.saved (by decide) 0 (by decide), saveContext_pcbs_of_ne (by rw [s2]; decide),
      t2.saved (by decide) 0 (by decide), ← s1, saveContext_regs_self]
  · rw [t3.saved (by decide) 1 (by decide), ← s2, saveContext_regs_self]

/-! ## A booted kernel -/

/-- The small image boots: each tick starts a shell. -/
theorem BootedTo.schedule_shellImage {n : Nat} {k : Kernel} (h : BootedTo n k) (hn : n < 3)
    (hs : n = 0 → k.scheduledProcess = 0) (hfs : k.fs = FileSystem.shellImage) (r inner : Regs)
    (stale : Nat → UInt8) :
    ∃ k', schedule k r inner stale = some k' ∧ BootTick n k r k' := by
  obtain ⟨hboot, hfs', -⟩ := bootedTo_bootState h hn r hs
  obtain ⟨inode, entry, he⟩ := sysExecute_shellImage (hfs'.trans hfs) (hboot.freePid_eq hn) inner stale
  have ht := (h.schedule_eq hn r inner stale).2 _ he
  exact ⟨_, ht, bootedTo_tick h hn (hfs ▸ hasShell_shellImage) hs ht⟩

/-- Registers for the ticks of a boot, and for the calls of `sys_execute` in them. -/
def bootRegs (_ : Fin 3) : Regs := ⟨0x7FFFC0, 0x7FFFE8⟩
def bootInner (t : Fin 3) : Regs := ⟨0x7FFFF8 - t.val * 0x2000, 0x800000 - t.val * 0x2000⟩

/-- The kernel that boots from the small image. -/
def shellBoot : Option Kernel :=
  bootRun (Kernel.atLoad FileSystem.shellImage) (fun _ => Term.zeroed) bootRegs bootInner fun _ => 0

theorem shellBoot_booted : ∃ k, shellBoot = some k ∧ Booted k ∧ k.fs = FileSystem.shellImage := by
  have b0 : BootedTo 0 (initialBoot (Kernel.atLoad FileSystem.shellImage) fun _ => Term.zeroed) :=
    bootedTo_initialBoot (fun _ _ _ => rfl) _
  obtain ⟨k₁, h₁, t1⟩ := b0.schedule_shellImage (by decide) (fun _ => rfl) rfl (bootRegs 0) (bootInner 0)
    fun _ => 0
  have f1 : k₁.fs = FileSystem.shellImage := t1.fs
  obtain ⟨k₂, h₂, t2⟩ := t1.shells.schedule_shellImage (by decide) (fun h => absurd h (by decide)) f1 (bootRegs 1)
    (bootInner 1) fun _ => 0
  have f2 : k₂.fs = FileSystem.shellImage := t2.fs.trans f1
  obtain ⟨k₃, h₃, t3⟩ := t2.shells.schedule_shellImage (by decide) (fun h => absurd h (by decide)) f2 (bootRegs 2)
    (bootInner 2) fun _ => 0
  have hboot : shellBoot = some k₃ := by
    rw [shellBoot, bootRun, h₁, Option.bind_some, h₂, Option.bind_some, h₃]
  exact ⟨k₃, hboot, (bootRun_booted (fun _ _ _ => rfl) hasShell_shellImage hboot).1, t3.fs.trans f2⟩

/-- Its keyboard flags: no modifier is held and no Ctrl+C is pending. -/
theorem shellBoot_toKeys {k : Kernel} (h : shellBoot = some k) : k.toKeys =
    { shiftPressed := false, ctrlPressed := false, capsLockPressed := false, altPressed := false,
      callHalt := false, shellFlag := true, runningFlag := true } :=
  (bootRun_booted (fun _ _ _ => rfl) hasShell_shellImage h).2.2.1

/-- The next process there is a shell with pid 3. -/
theorem Booted.freePid_eq {k : Kernel} (h : Booted k) : freePid k.pidArray = some 3 := by
  have hp := fun p h0 h5 => h.shells.pids p h0 h5
  unfold freePid
  simp [hp 0 (by decide) (by decide), hp 1 (by decide) (by decide), hp 2 (by decide) (by decide),
    hp 3 (by decide) (by decide), used, unused]

theorem Booted.sysExecute_shell {k : Kernel} (h : Booted k) (hfs : k.fs = FileSystem.shellImage) (r : Regs)
    (stale : Nat → UInt8) : ∃ inode entry, step k (.execute (some shellCommand) r stale) =
      some (launch k 3 inode entry [] r) := by
  obtain ⟨inode, entry, he⟩ := sysExecute_shellImage hfs h.freePid_eq r stale
  refine ⟨inode, entry, ?_⟩
  unfold step
  dsimp only
  rw [he]

theorem Booted.switchTerminals {k : Kernel} (h : Booted k) (t : Fin 3) : Booted (switchTerminals k t) := by
  have hterm := switchTerminals_terminals k t
  obtain ⟨_, _, hs⟩ := switchTerminals_ttyOnly k t
  rw [hs] at hterm ⊢
  exact ⟨h.shells.congr rfl rfl (fun _ => rfl) hterm, h.current, h.context⟩

@[simp] theorem switchTerminals_fs (k : Kernel) (t : Fin 3) : (switchTerminals k t).fs = k.fs := by
  obtain ⟨_, _, hs⟩ := switchTerminals_ttyOnly k t
  rw [hs]

@[simp] theorem switchTerminals_toKeys (k : Kernel) (t : Fin 3) : (switchTerminals k t).toKeys = k.toKeys := by
  obtain ⟨_, _, hs⟩ := switchTerminals_ttyOnly k t
  rw [hs]

@[simp] theorem switchTerminals_scheduledProcess (k : Kernel) (t : Fin 3) :
    (switchTerminals k t).scheduledProcess = k.scheduledProcess := by
  obtain ⟨_, _, hs⟩ := switchTerminals_ttyOnly k t
  rw [hs]

@[simp] theorem switchTerminals_pcbs (k : Kernel) (t : Fin 3) : (switchTerminals k t).pcbs = k.pcbs := by
  obtain ⟨_, _, hs⟩ := switchTerminals_ttyOnly k t
  rw [hs]

@[simp] theorem switchTerminals_pidArray (k : Kernel) (t : Fin 3) : (switchTerminals k t).pidArray = k.pidArray := by
  obtain ⟨_, _, hs⟩ := switchTerminals_ttyOnly k t
  rw [hs]

theorem nextSlot_ne : ∀ t : Fin 3, t + 1 ≠ t := by decide

/-- The kernel of the small image, switched to a terminal relative to the scheduled one. -/
theorem shellBoot_switch (d : Fin 3) : ∃ k₀ k₁, shellBoot = some k₀ ∧ Booted k₀ ∧ HasShell k₀.fs ∧
    step k₀ (.switch (k₀.scheduledProcess + d)) = some k₁ ∧ Booted k₁ ∧ k₁.fs = FileSystem.shellImage ∧
    k₁.toKeys = k₀.toKeys ∧ k₁.currTerm = k₁.scheduledProcess + d := by
  obtain ⟨k₀, hk₀, hboot, hfs⟩ := shellBoot_booted
  refine ⟨k₀, _, hk₀, hboot, hfs ▸ hasShell_shellImage, rfl, hboot.switchTerminals _, ?_, ?_, ?_⟩
  · rw [switchTerminals_fs, hfs]
  · rw [switchTerminals_toKeys]
  · rw [switchTerminals_currTerm, switchTerminals_scheduledProcess]

/-- A tick of a booted kernel switches to the next slot. -/
theorem Booted.tick {k : Kernel} (h : Booted k) (r inner : Regs) (stale : Nat → UInt8) :
    ∃ k', step k (.tick r inner stale) = some k' ∧ k'.scheduledProcess = k.scheduledProcess + 1 ∧
      k'.currTerm = k.currTerm := by
  obtain ⟨_, hd⟩ := sendEoi_devicesOnly k 0
  have hslots : ∀ t, (sendEoi k 0).schedulingArray t ≠ -1 := by
    intro t
    rw [hd]
    dsimp only
    rw [h.shells.slots, if_pos t.isLt]
    omega
  refine ⟨_, schedule_eq hslots r inner stale, ?_, ?_⟩
  · obtain ⟨_, _, _, hsw, -⟩ := switchTo_frame (saveContext (sendEoi k 0) r) ((sendEoi k 0).scheduledProcess + 1)
    rw [hsw, hd]
  · obtain ⟨_, _, _, hsw, -⟩ := switchTo_frame (saveContext (sendEoi k 0) r) ((sendEoi k 0).scheduledProcess + 1)
    rw [hsw, hd]
    rfl

end BasicOs
