import BasicOs.Bracketing

/-!
# Root shells

`sys_execute` and `sys_halt` know the shells that `schedule` boots by their pids: `0` to `2`. That is so because the
first three ticks after `initial_boot` take the first free pids, as long as nobody else takes one.

* `noteRoot` : an observer that knows the process each terminal was booted with, or that took its place when it
  halted;
* `BootPhase n` : the first `n` terminals are booted and nothing else runs; `RootInv` : all are, and the pids up to
  `2` are those of their root shells;
* `root_shells` : in runs that start no program before all terminals are booted, nor away from the displayed
  terminal, the coding is right.
-/

namespace BasicOs
open Run LinkedStack

/-! ## The events -/

/-- The root shell of each terminal that has one. -/
abbrev Roots := Fin 3 → Option Int

/-- The terminal that `schedule` would boot. -/
def bootTarget (k : Kernel) : Option (Fin 3) := [0, 1, 2].find? fun t => k.schedulingArray t = -1

/-- The observer: a tick that boots a terminal gives it its root shell; if a root shell halts, the program that is
entered in its place is the root shell, or there is none any more. -/
def noteRoot (g : Roots) (k : Kernel) (e : Event) (k' : Kernel) : Roots :=
  match e with
  | .tick .. => match bootTarget k with
    | some t => Function.update g t (some k'.currPid)
    | none => g
  | .halt .. => fun t => if g t = some k.currPid then (if k'.mode = .user then some k'.currPid else none) else g t
  | .key .. | .execute .. | .vidmap .. | .switch .. => g

/-- Calls come from processes: there are none before the first tick. -/
def CalledBy (k : Kernel) : Event → Prop
  | .execute .. | .halt .. => k.schedulingArray 0 ≠ -1
  | .tick .. | .key .. | .vidmap .. | .switch .. => True

/-- A program is started only once all terminals are booted, and by a process of the displayed terminal. -/
def StartsLate (k : Kernel) : Event → Prop
  | .execute command _ stale => Starts k command stale →
      (∀ t, k.schedulingArray t ≠ -1) ∧ k.currTerm = k.scheduledProcess
  | _ => True

/-- Every terminal has its root shell, under its own number, and the live processes with pids up to 2 are these. -/
def RootsCoded (k : Kernel) (g : Roots) : Prop :=
  (∀ t : Fin 3, g t = some (t.val : Int) ∧ k.pidArray t.val = used ∧ (k.pcbs t.val).currPid = t.val ∧
      (k.pcbs t.val).termId = t) ∧
    ∀ p : Int, 0 ≤ p → p ≤ 5 → k.pidArray p = used → (p ≤ 2 ↔ ∃ t, g t = some p)

/-! ## Booting -/

variable {k k' : Kernel} {g : Roots}

/-- The first `n` terminals are booted, their shells are all that is live, and the last of them runs. -/
structure BootPhase (n : Nat) (k : Kernel) (g : Roots) : Prop where
  shells : BootedTo n k
  hasShell : HasShell k.fs
  scheduled : k.scheduledProcess.val = n - 1
  current : 0 < n → k.currPid = k.scheduledProcess.val
  terms : ∀ t : Fin 3, t.val < n → (k.pcbs t.val).termId = t
  roots : ∀ t : Fin 3, g t = if t.val < n then some (t.val : Int) else none

theorem BootedTo.bootTarget_eq {n : Nat} (h : BootedTo n k) (hn : n < 3) : bootTarget k = some ⟨n, hn⟩ := by
  have hslot : ∀ t : Fin 3, decide (k.schedulingArray t = -1) = decide (n ≤ t.val) := by
    intro t
    rw [decide_eq_decide, h.slots t]
    split_ifs with ht
    · exact ⟨fun he => he.elim, fun he => absurd ht (by omega)⟩
    · exact ⟨fun _ => by omega, fun _ => rfl⟩
  unfold bootTarget
  simp only [hslot]
  obtain rfl | rfl | rfl : n = 0 ∨ n = 1 ∨ n = 2 := by omega
  · rfl
  · rfl
  · rfl

/-- The next root shell is noted. -/
theorem roots_update {n : Nat} (hn : n < 3) (h : ∀ t : Fin 3, g t = if t.val < n then some (t.val : Int) else none)
    (t : Fin 3) :
    Function.update g ⟨n, hn⟩ (some (n : Int)) t = if t.val < n + 1 then some (t.val : Int) else none := by
  rw [Function.update_apply, h t]
  by_cases ht : t = ⟨n, hn⟩
  · subst ht
    rw [if_pos rfl, if_pos (Nat.lt_succ_self n)]
  · have : t.val ≠ n := fun e => ht (Fin.ext e)
    rw [if_neg ht]
    split_ifs <;> first | rfl | (exfalso; omega)

theorem BootPhase.congr {n : Nat} (h : BootPhase n k g) (hs : SameRunning k k')
    (hsched : k'.scheduledProcess = k.scheduledProcess) (hterm : k'.terminals = k.terminals) : BootPhase n k' g where
  shells := h.shells.congr hs.schedulingArray hs.pidArray (fun p => (hs.pcbs p).1) hterm
  hasShell := hs.fs ▸ h.hasShell
  scheduled := hsched ▸ h.scheduled
  current hn := by
    rw [hs.currPid, hsched]
    exact h.current hn
  terms t ht := (hs.pcbs t.val).2.2.trans (h.terms t ht)
  roots := h.roots

/-- What a tick that boots a terminal does to the terminals of the control blocks. -/
theorem bootState_termId (k : Kernel) (n : Nat) (r : Regs) (p : Int) :
    ((bootState k n r).pcbs p).termId = (k.pcbs p).termId := by
  by_cases hn : n = 0
  · subst hn
    obtain ⟨_, _, _, hv, -⟩ := schedulingVidmap_frame k k.scheduledProcess k.currTerm
    rw [bootState, hv]
  · rw [bootState_pcbs hn]
    exact ((saveContext_sameRunning k r).pcbs p).2.2

/-- A tick boots the next terminal. -/
theorem BootPhase.schedule {n : Nat} (h : BootPhase n k g) (hn : n < 3) {r inner : Regs} {stale : Nat → UInt8}
    (ht : schedule k r inner stale = some k') :
    BootPhase (n + 1) k' (Function.update g ⟨n, hn⟩ (some k'.currPid)) ∧ ContextSet k' := by
  have hs : n = 0 → k.scheduledProcess = 0 := by
    rintro rfl
    exact Fin.ext h.scheduled
  have hsched := (bootedTo_bootState h.shells hn r hs).2.2
  have hboot := bootedTo_tick h.shells hn h.hasShell hs ht
  obtain ⟨inode, entry, hk⟩ := h.shells.tick_launch hn h.hasShell hs ht
  refine ⟨⟨hboot.shells, hboot.fs ▸ h.hasShell, hboot.scheduled, fun _ => ?_, fun t htn => ?_, ?_⟩, hboot.context⟩
  · rw [hboot.current, hboot.scheduled]
  · rw [hk]
    by_cases htv : t.val = n
    · have hslot : launchSlot (bootState k n r) n = (bootState k n r).scheduledProcess := if_pos (by omega)
      rw [htv, (launch_pcb_self (bootState k n r) n inode entry [] inner).2.1, hslot]
      exact Fin.ext (hsched.trans htv.symm)
    · have hne : (t.val : Int) ≠ n := by omega
      rw [(launch_pcb_of_ne (bootState k n r) n inode entry [] inner hne).sameFamily.2.2, bootState_termId]
      exact h.terms t (by omega)
  · rw [hboot.current]
    exact roots_update hn h.roots

/-- The shell that was started last is running. -/
theorem BootPhase.currPid_eq {n : Nat} (h : BootPhase n k g) (h0 : 0 < n) : k.currPid = (n : Int) - 1 := by
  rw [h.current h0, h.scheduled]
  omega

/-- While a terminal is missing the pid of a shell that halts is the first one free. -/
theorem BootPhase.freePid_release {n : Nat} (h : BootPhase n k g) (h0 : 0 < n) (hn : n < 3) :
    freePid (Function.update k.pidArray k.currPid unused) = some k.currPid := by
  have hcurr := h.currPid_eq h0
  apply freePid_eq ⟨by omega, by omega⟩ (Function.update_self _ _ _)
  intro q hq0 hq
  rw [Function.update_of_ne (ne_of_lt hq), h.shells.pids q hq0 (by omega), if_pos (by omega)]
  decide

/-- The shell that halts is started again, in its slot. -/
theorem BootPhase.launch_shell {n : Nat} (h : BootPhase n k g) (h0 : 0 < n) (hn : n < 3) {k₁ : Kernel}
    (hr : Released k k₁) (inode entry : Nat) (r : Regs) :
    BootPhase n (launch k₁ k.currPid inode entry [] r) g := by
  have hcurr := h.currPid_eq h0
  have hslot : launchSlot k₁ k.currPid = k.scheduledProcess := by
    rw [launchSlot, if_pos (by omega), hr.scheduledProcess]
  have hself := launch_pcb_self k₁ k.currPid inode entry [] r
  have hother : ∀ p, p ≠ k.currPid → SameFamily (k.pcbs p) ((launch k₁ k.currPid inode entry [] r).pcbs p) :=
    fun p hp => ((hr.pcbs p).trans (launch_pcb_of_ne k₁ k.currPid inode entry [] r hp)).sameFamily
  have hused : k.pidArray k.currPid = used := by
    rw [h.shells.pids _ (by omega) (by omega), if_pos (by omega)]
  refine ⟨⟨fun t => ?_, fun p hp0 hp5 => ?_, fun p hp0 hp => ?_, fun t ht => ?_⟩, ?_, ?_, fun _ => ?_, fun t ht => ?_,
    h.roots⟩
  · rw [launch_schedulingArray, hslot, hr.schedulingArray, Function.update_apply, h.shells.slots t]
    split_ifs with hts hlt hlt
    · rw [hts, h.current h0]
    · exact absurd (by rw [hts, h.scheduled]; omega) hlt
    · rfl
    · rfl
  · have hpids : Function.update k.pidArray k.currPid used = k.pidArray := by
      rw [← hused, Function.update_eq_self]
    rw [launch_pidArray, hr.pidArray, Function.update_idem, hpids]
    exact h.shells.pids p hp0 hp5
  · by_cases hpc : p = k.currPid
    · rw [hpc]
      exact hself.1
    · exact (hother p hpc).1.trans (h.shells.own p hp0 hp)
  · rw [launch_activePid, hslot, hr.terminals]
    split_ifs with hts
    · rw [hts, h.current h0]
    · exact h.shells.active t ht
  · rw [launch_fs, hr.fs]
    exact h.hasShell
  · rw [launch_scheduledProcess, hr.scheduledProcess]
    exact h.scheduled
  · rw [launch_currPid, launch_scheduledProcess, hr.scheduledProcess]
    exact h.current h0
  · by_cases htc : (t.val : Int) = k.currPid
    · rw [htc, hself.2.1, hslot]
      apply Fin.ext
      have := h.current h0
      omega
    · exact (hother _ htc).2.2.trans (h.terms t ht)

theorem BootPhase.released {n : Nat} (h : BootPhase n k g) (h0 : 0 < n) (hn : n < 3) (esp : Int) :
    Released k (releaseProcess k esp) := by
  have hcurr := h.currPid_eq h0
  obtain ⟨pcbs, hrel, hsame⟩ := releaseProcess_frame k esp
  rw [h.shells.own k.currPid (by omega) (by omega)] at hrel
  rw [hrel]
  exact ⟨rfl, rfl, rfl, rfl, rfl, rfl, rfl, hsame⟩

/-- A halt while a terminal is missing starts the running shell again. -/
theorem BootPhase.halt {n : Nat} (h : BootPhase n k g) (h0 : 0 < n) (hn : n < 3) {status : UInt8} {r : Regs}
    {stale : Nat → UInt8} (hs : sysHalt k status r stale = some k') :
    ∃ k₁ inode entry, Released k k₁ ∧ k' = launch k₁ k.currPid inode entry [] r := by
  have hcurr := h.currPid_eq h0
  have hr := h.released h0 hn r.esp
  have hpid := h.freePid_release h0 hn
  rw [← hr.pidArray] at hpid
  rcases sysHalt_shell (by omega) h.hasShell hpid status stale with hf | ⟨inode, entry, he⟩
  · rw [hf] at hs
    cases hs
  · rw [he, Option.some_inj] at hs
    exact ⟨_, inode, entry, hr, hs.symm⟩

/-! ## After boot -/

/-- All terminals are booted and the pids up to 2 are those of their root shells. -/
structure RootInv (k : Kernel) (g : Roots) : Prop where
  slots : SlotInv k
  terms : ∀ t : Fin 3, (k.pcbs t.val).termId = t
  roots : ∀ t : Fin 3, g t = some (t.val : Int)

theorem RootInv.of_phase (h : BootPhase 3 k g) (hc : ContextSet k) : RootInv k g where
  slots := .of_booted ⟨h.shells, h.current (by decide), hc⟩ h.hasShell
  terms t := h.terms t t.isLt
  roots t := (h.roots t).trans (if_pos t.isLt)

theorem RootInv.coded (h : RootInv k g) : RootsCoded k g := by
  have hrun := h.slots.run
  have hshell : ∀ t : Fin 3, IsShell (t.val : Int) := fun t => ⟨by omega, by omega⟩
  refine ⟨fun t => ?_, fun p h0 _ hu => ⟨fun h2 => ?_, ?_⟩⟩
  · have hu := hrun.shells _ (hshell t)
    exact ⟨h.roots t, hu, hrun.own _ (by omega) (by omega) hu, h.terms t⟩
  · refine ⟨⟨p.toNat, by omega⟩, ?_⟩
    rw [h.roots]
    dsimp only
    rw [Int.toNat_of_nonneg h0]
  · rintro ⟨t, ht⟩
    rw [h.roots, Option.some_inj] at ht
    omega

/-- The changes of a step leave the coding alone. -/
theorem RootInv.change (h : RootInv k g) {e : Event} (hok : CallerShown k e) (hc : Change k e k') :
    RootInv k' (noteRoot g k e k') := by
  have hslots := h.slots.change hok hc
  have hshell : ∀ t : Fin 3, IsShell (t.val : Int) := fun t => ⟨by omega, by omega⟩
  cases hc with
  | tick r inner stale =>
    have htarget : bootTarget k = none := by
      refine List.find?_eq_none.mpr fun t _ => ?_
      simpa using h.slots.run.slot_ne t
    refine ⟨hslots, fun t => ?_, ?_⟩
    · obtain ⟨_, hd⟩ := sendEoi_devicesOnly k 0
      obtain ⟨_, _, _, hsw, -⟩ := switchTo_frame (saveContext (sendEoi k 0) r) (k.scheduledProcess + 1)
      rw [hsw]
      apply ((saveContext_sameRunning (sendEoi k 0) r).pcbs t.val).2.2.trans
      rw [hd]
      exact h.terms t
    · simp only [noteRoot, htarget]
      exact h.roots
  | failed => exact h
  | started command r stale pid inode entry args hstarts hpid =>
    have h3 := (h.slots.run.freePid_range hpid).1
    refine ⟨hslots, fun t => ?_, h.roots⟩
    rw [(launch_pcb_of_ne k pid inode entry args r (show (t.val : Int) ≠ pid by omega)).sameFamily.2.2]
    exact h.terms t
  | restarted status r stale k₁ inode entry hcurr hr =>
    have hhome : k.currPid = k.scheduledProcess.val := by
      have hs : IsShell (k.schedulingArray k.scheduledProcess) :=
        h.slots.current ▸ ⟨h.slots.run.currPid_range.1, hcurr⟩
      rw [h.slots.current]
      exact h.slots.home _ hs
    have hslot : launchSlot k₁ k.currPid = k.scheduledProcess := by
      rw [launchSlot, if_pos hcurr, hr.scheduledProcess]
    refine ⟨hslots, fun t => ?_, fun t => ?_⟩
    · by_cases ht : (t.val : Int) = k.currPid
      · rw [ht, (launch_pcb_self k₁ k.currPid inode entry [] r).2.1, hslot]
        exact Fin.ext (by omega)
      · rw [((hr.pcbs t.val).trans (launch_pcb_of_ne k₁ k.currPid inode entry [] r ht)).sameFamily.2.2]
        exact h.terms t
    · have hmode : (launch k₁ k.currPid inode entry [] r).mode = .user := rfl
      simp only [noteRoot, hmode, launch_currPid, if_true, h.roots t, Option.some_inj]
      split_ifs with ht
      · rw [ht]
      · rfl
  | ended status r stale k₁ v hcurr hr =>
    refine ⟨hslots, fun t => ?_, fun t => ?_⟩
    · rw [resumeParent_pcbs, (hr.pcbs t.val).sameFamily.2.2]
      exact h.terms t
    · have hne : ¬ (t.val : Int) = k.currPid := by omega
      simp only [noteRoot, h.roots t, Option.some_inj, if_neg hne]
  | switched t =>
    refine ⟨hslots, fun u => ?_, h.roots⟩
    rw [switchTerminals_pcbs]
    exact h.terms u

/-! ## Runs -/

/-- Some terminals are booted, or all. -/
def BootInv (k : Kernel) (g : Roots) : Prop := (∃ n, n < 3 ∧ BootPhase n k g) ∨ RootInv k g

theorem BootPhase.slot_missing {n : Nat} (h : BootPhase n k g) (hn : n < 3) : k.schedulingArray ⟨n, hn⟩ = -1 := by
  rw [h.shells.slots, if_neg (Nat.lt_irrefl n)]

theorem BootPhase.step {n : Nat} (h : BootPhase n k g) (hn : n < 3) {e : Event} (he : ProcessEvent e)
    (hcalled : CalledBy k e) (hok : StartsLate k e) (hs : BasicOs.step k e = some k') :
    BootInv k' (noteRoot g k e k') := by
  unfold BasicOs.step at hs
  cases e with
  | tick r inner stale =>
    obtain ⟨d, hd⟩ := sendEoi_devicesOnly k 0
    have heoi : BootPhase n (sendEoi k 0) g := by
      refine h.congr (sendEoi_devicesOnly k 0).inputOnly.sameRunning ?_ ?_
      · rw [hd]
      · rw [hd]
    obtain ⟨hnext, hcontext⟩ := heoi.schedule hn hs
    simp only [noteRoot, h.shells.bootTarget_eq hn]
    by_cases h2 : n + 1 < 3
    · exact Or.inl ⟨n + 1, h2, hnext⟩
    · obtain rfl : n = 2 := by omega
      exact Or.inr (.of_phase hnext hcontext)
  | execute command r stale =>
    dsimp only at hs
    rcases sysExecute_cases k command r stale with ⟨_, hx⟩ | ⟨v, hx⟩ | ⟨pid, inode, entry, args, -, hx⟩
    · rw [hx] at hs
      cases hs
    · rw [hx] at hs
      cases hs
      exact Or.inl ⟨n, hn, h⟩
    · exact absurd (h.slot_missing hn) ((hok (starts_of_user hx)).1 _)
  | halt status r stale =>
    have h0 : 0 < n := by
      by_contra hz
      refine hcalled ((h.shells.slots 0).trans (if_neg ?_))
      omega
    obtain ⟨k₁, inode, entry, hr, rfl⟩ := h.halt h0 hn hs
    have hroots : noteRoot g k (.halt status r stale) (launch k₁ k.currPid inode entry [] r) = g := by
      funext t
      have hmode : (launch k₁ k.currPid inode entry [] r).mode = .user := rfl
      simp only [noteRoot, hmode, launch_currPid, if_true]
      split_ifs with ht
      · exact ht.symm
      · rfl
    rw [hroots]
    exact Or.inl ⟨n, hn, h.launch_shell h0 hn hr inode entry r⟩
  | switch t =>
    rw [← Option.some.inj hs]
    refine Or.inl ⟨n, hn, h.congr (switchTerminals_ttyOnly k t).inputOnly.sameRunning ?_ ?_⟩
    · exact switchTerminals_scheduledProcess k t
    · exact switchTerminals_terminals k t
  | key => exact he.elim
  | vidmap => exact he.elim

theorem BootInv.step (h : BootInv k g) {e : Event} (he : ProcessEvent e) (hcalled : CalledBy k e)
    (hok : StartsLate k e) (hs : BasicOs.step k e = some k') : BootInv k' (noteRoot g k e k') := by
  rcases h with ⟨n, hn, hphase⟩ | hroot
  · exact hphase.step hn he hcalled hok hs
  · have hshown : CallerShown k e := by
      cases e with
      | execute command r stale => exact fun hstarts => (hok hstarts).2
      | tick | halt | switch | key | vidmap => trivial
    exact Or.inr (hroot.change hshown (hroot.slots.run.change he hs))

/-- **Root shells.** From `initial_boot` with every pid unused, in every run of ticks, calls of processes and terminal
switches that meet the condition: once no slot is empty, each terminal's root shell has its number as pid and as
`term_id`, the live processes with pids up to 2 are the root shells, and the next program gets a pid from 3 on.
Before that, a program that a process starts is taken for a root shell. -/
theorem root_shells {k₀ : Kernel} {local_ : Fin 3 → Term}
    (hpids : ∀ p : Int, 0 ≤ p → p ≤ 5 → k₀.pidArray p = unused) (hshell : HasShell k₀.fs)
    (h : Reach (observed BasicOs.step noteRoot)
      (fun p e => (ProcessEvent e ∧ CalledBy p.1 e) ∧ StartsLate p.1 e)
      (initialBoot k₀ local_, fun _ => none) (k, g)) :
    ((∀ t, k.schedulingArray t ≠ -1) →
      RootsCoded k g ∧ ∀ pid, freePid k.pidArray = some pid → 3 ≤ pid) ∧
    ((∃ t, k.schedulingArray t = -1) → ∀ command r stale k', sysExecute k command r stale = .user k' →
      k'.currPid ≤ 2 ∧ ∀ t, g t ≠ some k'.currPid) := by
  have hinv : BootInv k g := by
    refine h.invariant (I := fun p => BootInv p.1 p.2) ?_ ?_
    · exact Or.inl ⟨0, by decide, bootedTo_initialBoot hpids local_, hshell, rfl, fun h => absurd h (by decide),
        fun _ h => absurd h (Nat.not_lt_zero _), fun _ => (if_neg (Nat.not_lt_zero _)).symm⟩
    · intro p e q hi hok hs
      obtain ⟨hstep, hg⟩ := observed_eq_some.mp hs
      rw [hg]
      exact hi.step hok.1.1 hok.1.2 hok.2 hstep
  rcases hinv with ⟨n, hn, hphase⟩ | hroot
  · refine ⟨fun hall => absurd (hphase.slot_missing hn) (hall _), fun _ command r stale k' hx => ?_⟩
    obtain ⟨pid, inode, entry, args, hpid, rfl⟩ := sysExecute_user hx
    rw [hphase.shells.freePid_eq hn, Option.some_inj] at hpid
    rw [launch_currPid, ← hpid]
    refine ⟨by omega, fun t ht => ?_⟩
    rw [hphase.roots t] at ht
    split_ifs at ht with htn
    rw [Option.some_inj] at ht
    omega
  · refine ⟨fun _ => ⟨hroot.coded, fun pid hpid => (hroot.slots.run.freePid_range hpid).1⟩, ?_⟩
    rintro ⟨t, ht⟩
    exact absurd ht (hroot.slots.run.slot_ne t)

/-- Enough for the condition, decided. -/
def rootCheck (p : Kernel × Roots) : Event → Bool
  | .tick .. | .switch .. => true
  | .halt .. => decide (p.1.schedulingArray 0 ≠ -1)
  | .execute .. => decide ((∀ t, p.1.schedulingArray t ≠ -1) ∧ p.1.currTerm = p.1.scheduledProcess)
  | .key .. | .vidmap .. => false

theorem rootCheck_sound (p : Kernel × Roots) (e : Event) (h : rootCheck p e = true) :
    (ProcessEvent e ∧ CalledBy p.1 e) ∧ StartsLate p.1 e := by
  cases e with
  | tick | switch => exact ⟨⟨trivial, trivial⟩, trivial⟩
  | halt =>
    have hcalled := of_decide_eq_true h
    exact ⟨⟨trivial, hcalled⟩, trivial⟩
  | execute =>
    have hall := of_decide_eq_true h
    exact ⟨⟨trivial, hall.1 0⟩, fun _ => hall⟩
  | key => cases h
  | vidmap => cases h

/-- The kernel and the root shells after a list of events from the boot of the small image. -/
def rootRun (check : Kernel × Roots → Event → Bool) (es : List Event) : Option (Kernel × Roots) :=
  es.foldlM (fun p e => if check p e = true then observed step noteRoot p e else none)
    (initialBoot (Kernel.atLoad FileSystem.shellImage) fun _ => Term.zeroed, fun _ => none)

/-- The tick that boots terminal `t`, where it interrupts the shell before. -/
def bootTick (t : Fin 3) : Event := .tick (regsOf ((t.val - 1 : Nat) : Int)) (bootInner t) fun _ => 0

/-- Calls made on the kernel stack of a process. -/
def startShell (pid : Int) : Event := .execute (some shellCommand) (regsOf pid) fun _ => 0
def haltProcess (pid : Int) : Event := .halt 0 (regsOf pid) fun _ => 0

/-- Shells that halt between the ticks come back under their pids; the program started afterwards gets pid 3. -/
theorem root_shells_boot : ∃ k g, rootRun rootCheck [bootTick 0, haltProcess 0, bootTick 1, haltProcess 1, bootTick 2,
      .switch 2, startShell 2] = some (k, g) ∧ k.pidArray 3 = used ∧ RootsCoded k g := by
  have hview : (rootRun rootCheck [bootTick 0, haltProcess 0, bootTick 1, haltProcess 1, bootTick 2, .switch 2,
      startShell 2]).map (fun p => (decide (∀ t, p.1.schedulingArray t ≠ -1), p.1.pidArray 3)) = some (true, used) := by
    decide +kernel
  obtain ⟨⟨k, g⟩, hrun, hp⟩ := Option.map_eq_some_iff.mp hview
  obtain ⟨hslots, hused⟩ := Prod.ext_iff.mp hp
  have hreach : Reach (observed step noteRoot) (fun p e => (ProcessEvent e ∧ CalledBy p.1 e) ∧ StartsLate p.1 e)
      (initialBoot (Kernel.atLoad FileSystem.shellImage) fun _ => Term.zeroed, fun _ => none) (k, g) :=
    Reach.of_foldlM rootCheck rootCheck_sound _ (.refl _) hrun
  have hcoded := (root_shells (fun _ _ _ => rfl) hasShell_shellImage hreach).1 (of_decide_eq_true hslots)
  exact ⟨k, g, hrun, hused, hcoded.1⟩

/-- Calls are made once the first shell runs. -/
def callCheck (p : Kernel × Roots) : Event → Bool
  | .tick .. => true
  | .halt .. | .execute .. => decide (p.1.schedulingArray 0 ≠ -1)
  | .switch .. | .key .. | .vidmap .. => false

/-- After boot the third shell starts a program while terminal 0 is displayed: it becomes the child of process 0, and
when it halts the third shell goes on as process 0. When that process halts, the shell that takes its place is started
on the terminal that has the turn: terminals 0 and 2 have process 0 in their slots, with `term_id` 2. -/
theorem root_shells_mixed : ∃ k g, rootRun callCheck [bootTick 0, bootTick 1, bootTick 2, startShell 2, haltProcess 3,
      haltProcess 0] = some (k, g) ∧ (∀ t : Fin 3, k.schedulingArray t = ![0, 1, 0] t) ∧ g 0 = some 0 ∧
    (k.pcbs 0).termId = 2 ∧ ¬ RootsCoded k g := by
  have hview : (rootRun callCheck [bootTick 0, bootTick 1, bootTick 2, startShell 2, haltProcess 3,
      haltProcess 0]).map (fun p => (decide (∀ t : Fin 3, p.1.schedulingArray t = ![0, 1, 0] t), p.2 0,
        (p.1.pcbs 0).termId)) = some (true, some 0, 2) := by
    decide +kernel
  obtain ⟨⟨k, g⟩, hrun, hp⟩ := Option.map_eq_some_iff.mp hview
  obtain ⟨hslots, hp⟩ := Prod.ext_iff.mp hp
  obtain ⟨hroot, hterm⟩ := Prod.ext_iff.mp hp
  dsimp only at hroot hterm
  refine ⟨k, g, hrun, of_decide_eq_true hslots, hroot, hterm, fun hcoded => ?_⟩
  have hzero : (k.pcbs 0).termId = 0 := (hcoded.1 0).2.2.2
  rw [hterm] at hzero
  exact absurd hzero (by decide)

end BasicOs
