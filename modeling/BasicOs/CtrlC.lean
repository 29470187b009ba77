import BasicOs.Machine

/-!
# Ctrl+C

Ctrl+C sets `call_halt`, and the handler halts the running process when it finds `running_flag` and
`call_halt` set, after any key. The flag stays set until then, and the running process is the one of the
scheduled terminal, not of the displayed one; so the law of Ctrl+C (`CtrlCLaw`) holds of a key exactly when
a Ctrl+C comes while `running_flag` is set and the displayed terminal's process runs (`CtrlCReady`).

* `ctrlC_law` : along runs whose keys are such, `call_halt` is clear between any two events, and the law holds
  of the next key exactly if it is such, too.
-/

namespace BasicOs
open Run

/-- A Ctrl+C comes only while a program runs and the displayed terminal's process has the CPU. -/
def CtrlCReady (k : Kernel) (scancode : UInt8) : Prop :=
  ctrlC k scancode = true → k.runningFlag = true ∧ k.currPid = k.schedulingArray k.currTerm

/-- What Ctrl+C should do: with `k'` the state in which the handler ends or calls `sys_halt` (`halts`), it halts
only on Ctrl+C, and only the process of the displayed terminal; a Ctrl+C that halts nothing leaves nothing
behind. -/
structure CtrlCLaw (k : Kernel) (scancode : UInt8) (k' : Kernel) (halts : Bool) : Prop where
  only : halts = true → ctrlC k scancode = true
  victim : halts = true → k'.currPid = k'.schedulingArray k'.currTerm
  harmless : ctrlC k scancode = true → halts = false → k' = sendEoi k keyboardIrqLine

/-! ## The handler -/

/-- The handler on Ctrl+C. -/
theorem keyboardHandler_ctrlC {k : Kernel} {scancode : UInt8} (h : ctrlC k scancode = true) (stale : Nat → UInt8)
    (fmt : List UInt8 → List UInt8) : keyboardHandler k scancode stale fmt =
      if k.runningFlag then
        some ({ sendEoi { k with callHalt := true } keyboardIrqLine with
          runningFlag := false, callHalt := false }, true)
      else some (sendEoi { k with callHalt := true } keyboardIrqLine, false) := by
  rw [ctrlC, Bool.and_eq_true, beq_iff_eq] at h
  obtain ⟨rfl, hctrl⟩ := h
  have hdispatch : dispatchKey k scC stale fmt = some { k with callHalt := true } := by
    show processKey k scC = _
    unfold processKey controlKey
    rw [if_neg (by decide), if_neg (by decide), if_pos hctrl, if_neg (by decide), if_pos rfl]
  obtain ⟨d, hd⟩ := sendEoi_devicesOnly { k with callHalt := true } keyboardIrqLine
  unfold keyboardHandler
  rw [if_neg (by decide), hdispatch, Option.map_some]
  dsimp only
  rw [hd]
  by_cases hr : k.runningFlag = true
  · rw [if_pos hr, if_pos ⟨hr, rfl⟩]
  · rw [if_neg hr, if_neg fun h => hr h.1]

variable {k k' : Kernel}

/-- While no Ctrl+C is pending, no other key halts anything. -/
theorem keyboardHandler_other {scancode : UInt8} {stale : Nat → UInt8} {fmt : List UInt8 → List UInt8} {halts : Bool}
    (hclear : k.callHalt = false) (hc : ctrlC k scancode = false)
    (h : keyboardHandler k scancode stale fmt = some (k', halts)) : halts = false ∧ k'.callHalt = false := by
  obtain ⟨keys, ⟨_, _, _, rfl⟩, hcall, -, hhalts⟩ := keyboardHandler_inputOnly h
  rw [hclear, hc] at hcall hhalts
  have hno : halts = false := by
    rw [← Bool.not_eq_true, hhalts]
    exact fun h => nomatch h.2.2
  rw [hno] at hcall
  exact ⟨hno, hcall⟩

/-- The law of one key. -/
theorem ctrlCLaw_iff {scancode : UInt8} {stale : Nat → UInt8} {fmt : List UInt8 → List UInt8} {halts : Bool}
    (hclear : k.callHalt = false) (h : keyboardHandler k scancode stale fmt = some (k', halts)) :
    CtrlCLaw k scancode k' halts ↔ CtrlCReady k scancode := by
  cases hc : ctrlC k scancode with
  | false =>
    have hno := (keyboardHandler_other hclear hc h).1
    refine ⟨fun _ hc' => absurd (hc.symm.trans hc') (by decide), fun _ => ⟨?_, ?_, ?_⟩⟩
    · exact fun hh => absurd (hno.symm.trans hh) (by decide)
    · exact fun hh => absurd (hno.symm.trans hh) (by decide)
    · exact fun hc' => absurd (hc.symm.trans hc') (by decide)
  | true =>
    rw [keyboardHandler_ctrlC hc] at h
    obtain ⟨d, hd⟩ := sendEoi_devicesOnly { k with callHalt := true } keyboardIrqLine
    obtain ⟨d', hd'⟩ := sendEoi_devicesOnly k keyboardIrqLine
    cases hr : k.runningFlag with
    | true =>
      rw [if_pos hr, hd] at h
      cases h
      refine ⟨fun hl _ => ⟨hr, hl.victim rfl⟩, fun hready => ⟨fun _ => hc, fun _ => (hready hc).2, ?_⟩⟩
      exact fun _ hh => absurd hh (by decide)
    | false =>
      rw [if_neg (by rw [hr]; decide), hd] at h
      cases h
      refine ⟨fun hl => ?_, fun hready => absurd (hr.symm.trans (hready hc).1) (by decide)⟩
      -- the flag is left set
      have hset := congrArg (fun k : Kernel => k.callHalt) (hl.harmless hc rfl)
      rw [hd'] at hset
      have hpending : true = k.callHalt := hset
      rw [hclear] at hpending
      cases hpending

/-! ## The other events -/

theorem launch_callHalt (k : Kernel) (pid : Int) (inode entry : Nat) (args : List UInt8) (r : Regs) :
    (launch k pid inode entry args r).callHalt = k.callHalt := by
  rw [launch_toKeys]

theorem sysHalt_callHalt {status : UInt8} {r : Regs} {stale : Nat → UInt8}
    (h : sysHalt k status r stale = some k') : k'.callHalt = k.callHalt := by
  obtain ⟨_, hrel, -⟩ := releaseProcess_frame k r.esp
  have hkeys : (releaseProcess k r.esp).callHalt = k.callHalt := by
    rw [hrel]
    rfl
  rcases sysHalt_cases h with ⟨v, hk⟩ | ⟨pid, inode, entry, args, hk⟩
  · rw [hk, resumeParent_toKeys, hkeys]
  · rw [hk, launch_callHalt, hkeys]

theorem pitHandler_callHalt {r inner : Regs} {stale : Nat → UInt8} (h : pitHandler k r inner stale = some k') :
    k'.callHalt = k.callHalt := by
  have heoi : (sendEoi k 0).toKeys = k.toKeys := by
    obtain ⟨_, hd⟩ := sendEoi_devicesOnly k 0
    rw [hd]
  rcases schedule_cases h with rfl | ⟨k₀, -, hkeys, -, hk⟩
  · obtain ⟨_, _, _, hsw, -⟩ := switchTo_frame (saveContext (sendEoi k 0) r) ((sendEoi k 0).scheduledProcess + 1)
    rw [hsw]
    exact congrArg Keys.callHalt heoi
  · have hset : (schedulingVidmap k₀ k₀.scheduledProcess k₀.currTerm).callHalt = k.callHalt := by
      obtain ⟨_, _, _, hv, -⟩ := schedulingVidmap_frame k₀ k₀.scheduledProcess k₀.currTerm
      rw [hv]
      exact congrArg Keys.callHalt (hkeys.trans heoi)
    rcases hk with rfl | ⟨pid, inode, entry, args, rfl⟩
    · exact hset
    · rw [launch_callHalt, hset]

theorem sysVidmap_callHalt (k : Kernel) (screenStart : Nat) : (sysVidmap k screenStart).1.callHalt = k.callHalt := by
  have hstore : ∀ (k' : Kernel) (a : Nat) (c : UInt8), (userStore k' a c).callHalt = k'.callHalt := by
    intro k' a c
    unfold userStore
    split
    · rfl
    · rfl
  unfold sysVidmap
  split
  · rfl
  · exact (hstore _ _ _).trans ((hstore _ _ _).trans ((hstore _ _ _).trans (hstore _ _ _)))

/-! ## Runs -/

/-- The condition on a run: each Ctrl+C comes while the displayed terminal's program runs. -/
def KeysReady (k : Kernel) : Event → Prop
  | .key scancode .. => CtrlCReady k scancode
  | _ => True

/-- No Ctrl+C is left pending. -/
theorem step_clear {e : Event} (hclear : k.callHalt = false) (hok : KeysReady k e) (hs : step k e = some k') :
    k'.callHalt = false := by
  unfold step at hs
  cases e with
  | tick r inner stale => exact (pitHandler_callHalt hs).trans hclear
  | key scancode r stale fmt =>
    obtain ⟨⟨k₁, halts⟩, hk, hs⟩ := Option.bind_eq_some_iff.mp hs
    have hclear₁ : k₁.callHalt = false := by
      cases hc : ctrlC k scancode with
      | false => exact (keyboardHandler_other hclear hc hk).2
      | true =>
        rw [keyboardHandler_ctrlC hc, if_pos (hok hc).1] at hk
        cases hk
        rfl
    dsimp only at hs
    split at hs
    · exact (sysHalt_callHalt hs).trans hclear₁
    · rw [← Option.some.inj hs]
      exact hclear₁
  | execute command r stale =>
    dsimp only at hs
    split at hs
    · cases hs
    · rename_i he
      rw [← Option.some.inj hs, sysExecute_ret he]
      exact hclear
    · rename_i he
      obtain ⟨pid, inode, entry, args, -, hk⟩ := sysExecute_user he
      rw [← Option.some.inj hs, hk, launch_callHalt]
      exact hclear
  | halt status r stale => exact (sysHalt_callHalt hs).trans hclear
  | vidmap screenStart =>
    rw [← Option.some.inj hs, sysVidmap_callHalt]
    exact hclear
  | switch t =>
    obtain ⟨_, _, hsw⟩ := switchTerminals_ttyOnly k t
    rw [← Option.some.inj hs, hsw]
    exact hclear

/-- **Ctrl+C law.** From a state with no Ctrl+C pending, in every run of keys, ticks, system calls and terminal
switches in which each Ctrl+C comes while `running_flag` is set and the displayed terminal's process runs, no
Ctrl+C stays pending; and then the law holds of a key exactly if that condition does. -/
theorem ctrlC_law {k₀ k : Kernel} (h₀ : k₀.callHalt = false) (hrun : Reach step KeysReady k₀ k) :
    k.callHalt = false ∧ ∀ scancode stale fmt k' halts,
      keyboardHandler k scancode stale fmt = some (k', halts) →
        (CtrlCLaw k scancode k' halts ↔ CtrlCReady k scancode) := by
  have hclear : k.callHalt = false := hrun.invariant h₀ fun _ _ _ hk hok hs => step_clear hk hok hs
  exact ⟨hclear, fun scancode stale fmt k' halts h => ctrlCLaw_iff hclear h⟩

theorem step_key {scancode : UInt8} {stale : Nat → UInt8} {fmt : List UInt8 → List UInt8}
    (h : keyboardHandler k scancode stale fmt = some (k', false)) (r : Regs) :
    step k (.key scancode r stale fmt) = some k' := by
  show (keyboardHandler k scancode stale fmt).bind _ = _
  rw [h]
  rfl

/-- The press of Ctrl. -/
theorem step_ctrl (hclear : k.callHalt = false) (r : Regs) (stale : Nat → UInt8) (fmt : List UInt8 → List UInt8) :
    ∃ d : Devices, step k (.key scCtrl r stale fmt) = some { k with ctrlPressed := true, toDevices := d } := by
  obtain ⟨d, hd⟩ := sendEoi_devicesOnly { k with ctrlPressed := true } keyboardIrqLine
  have hdispatch : dispatchKey k scCtrl stale fmt = some { k with ctrlPressed := true } := rfl
  refine ⟨d, step_key ?_ r⟩
  unfold keyboardHandler
  rw [if_neg (by decide), hdispatch, Option.map_some]
  dsimp only
  rw [hd, if_neg (by rw [hclear]; exact fun h => nomatch h.2)]

/-- Ctrl and then C, while the displayed terminal's shell runs. -/
theorem ctrlC_law_shell : ∃ k₀ k₁ k₂ k₃, shellBoot = some k₀ ∧
    step k₀ (.switch (k₀.scheduledProcess + 0)) = some k₁ ∧
    step k₁ (.key scCtrl ⟨0, 0⟩ (fun _ => 0) id) = some k₂ ∧
    keyboardHandler k₂ scC (fun _ => 0) id = some (k₃, true) ∧ CtrlCLaw k₂ scC k₃ true := by
  obtain ⟨k₀, k₁, hk₀, -, -, hs₁, hboot₁, -, hkeys, hshown⟩ := shellBoot_switch 0
  rw [shellBoot_toKeys hk₀] at hkeys
  have hrunning : k₁.runningFlag = true := congrArg Keys.runningFlag hkeys
  have hclear : k₁.callHalt = false := congrArg Keys.callHalt hkeys
  have hclear₀ : k₀.callHalt = false := congrArg Keys.callHalt (shellBoot_toKeys hk₀)
  obtain ⟨d, hs₂⟩ := step_ctrl hclear ⟨0, 0⟩ (fun _ => 0) id
  have hrun : Reach step KeysReady k₀ { k₁ with ctrlPressed := true, toDevices := d } :=
    .tail (.key scCtrl ⟨0, 0⟩ (fun _ => 0) id) (.tail (.switch (k₀.scheduledProcess + 0)) (.refl k₀) trivial hs₁)
      (fun hc => absurd hc (by simp [ctrlC, scCtrl, scC])) hs₂
  have hhandler := keyboardHandler_ctrlC (k := { k₁ with ctrlPressed := true, toDevices := d })
    (show ctrlC _ scC = true from rfl) (fun _ => 0) id
  rw [if_pos hrunning] at hhandler
  refine ⟨k₀, k₁, _, _, hk₀, hs₁, hs₂, hhandler,
    ((ctrlC_law hclear₀ hrun).2 _ _ _ _ _ hhandler).mpr fun _ => ⟨hrunning, ?_⟩⟩
  show k₁.currPid = k₁.schedulingArray k₁.currTerm
  rw [hboot₁.shells.slots, if_pos k₁.currTerm.isLt, hboot₁.current, hshown, add_zero]

/-- A key that is released. -/
theorem keyboardHandler_release (stale : Nat → UInt8) (fmt : List UInt8 → List UInt8) (hcall : k.callHalt = true)
    (hrun : k.runningFlag = true) : ∃ k', keyboardHandler k 0x9E stale fmt = some (k', true) := by
  obtain ⟨d, hd⟩ := sendEoi_devicesOnly k keyboardIrqLine
  have hdispatch : dispatchKey k 0x9E stale fmt = some k := by
    show processKey k 0x9E = _
    unfold processKey
    rw [if_pos (by decide)]
  unfold keyboardHandler
  rw [if_neg (by decide), hdispatch, Option.map_some]
  dsimp only
  rw [hd, if_pos ⟨hrun, hcall⟩]
  exact ⟨_, rfl⟩

/-- The kernel that has just run `initial_boot`, with the small image. -/
def shellInitial : Kernel := initialBoot (Kernel.atLoad FileSystem.shellImage) fun _ => Term.zeroed

/-- A tick that boots a terminal, in a state where only the keyboard was used before. -/
theorem BootedTo.step_tick {n : Nat} (h : BootedTo n k) (hn : n < 3) (hs : n = 0 → k.scheduledProcess = 0)
    (hfs : k.fs = FileSystem.shellImage) (r inner : Regs) (stale : Nat → UInt8) :
    ∃ k', step k (.tick r inner stale) = some k' ∧ BootedTo (n + 1) k' ∧ k'.fs = FileSystem.shellImage ∧
      k'.callHalt = k.callHalt ∧ (n ≠ 0 → k'.runningFlag = true) := by
  obtain ⟨d, hd⟩ := sendEoi_devicesOnly k 0
  have h' : BootedTo n (sendEoi k 0) := by
    rw [hd]
    exact h.congr rfl rfl (fun _ => rfl) rfl
  obtain ⟨k', ht, hb⟩ := h'.schedule_shellImage hn (by rw [hd]; exact hs) (by rw [hd]; exact hfs) r inner stale
  refine ⟨k', ht, hb.shells, ?_, pitHandler_callHalt ht, fun h0 => ?_⟩
  · rw [hb.fs, hd]
    exact hfs
  · rw [hb.keys]
    exact if_pos (by omega)

/-- Ctrl+C halts the shell of a terminal that is not displayed; and a Ctrl+C that came before any program ran
halts the second shell when, later, some key is released. -/
theorem ctrlC_wrong_process :
    (∃ k₀ k₁ k₂ k₃, shellBoot = some k₀ ∧ step k₀ (.switch (k₀.scheduledProcess + 1)) = some k₁ ∧
      step k₁ (.key scCtrl ⟨0, 0⟩ (fun _ => 0) id) = some k₂ ∧
      keyboardHandler k₂ scC (fun _ => 0) id = some (k₃, true) ∧
      k₃.currPid ≠ k₃.schedulingArray k₃.currTerm) ∧
    ∃ k₁ k₂ k₃ k₄ k₅, step shellInitial (.key scCtrl ⟨0, 0⟩ (fun _ => 0) id) = some k₁ ∧
      step k₁ (.key scC ⟨0, 0⟩ (fun _ => 0) id) = some k₂ ∧
      step k₂ (.tick ⟨0, 0⟩ ⟨0, 0⟩ fun _ => 0) = some k₃ ∧ step k₃ (.tick ⟨0, 0⟩ ⟨0, 0⟩ fun _ => 0) = some k₄ ∧
      keyboardHandler k₄ 0x9E (fun _ => 0) id = some (k₅, true) ∧ ctrlC k₄ 0x9E = false := by
  refine ⟨?_, ?_⟩
  · obtain ⟨k₀, k₁, hk₀, -, -, hs₁, hboot₁, -, hkeys, hshown⟩ := shellBoot_switch 1
    rw [shellBoot_toKeys hk₀] at hkeys
    have hrunning : k₁.runningFlag = true := congrArg Keys.runningFlag hkeys
    obtain ⟨d, hs₂⟩ := step_ctrl (congrArg Keys.callHalt hkeys) ⟨0, 0⟩ (fun _ => 0) id
    have hhandler := keyboardHandler_ctrlC (k := { k₁ with ctrlPressed := true, toDevices := d })
      (show ctrlC _ scC = true from rfl) (fun _ => 0) id
    rw [if_pos hrunning] at hhandler
    refine ⟨k₀, k₁, _, _, hk₀, hs₁, hs₂, hhandler, ?_⟩
    obtain ⟨_, hd⟩ := sendEoi_devicesOnly
      { k₁ with ctrlPressed := true, callHalt := true, toDevices := d } keyboardIrqLine
    rw [hd]
    show k₁.currPid ≠ k₁.schedulingArray k₁.currTerm
    rw [hboot₁.shells.slots, if_pos k₁.currTerm.isLt, hboot₁.current, hshown]
    exact fun he => nextSlot_ne k₁.scheduledProcess (Fin.ext (by omega))
  · obtain ⟨d, hs₁⟩ := step_ctrl (k := shellInitial) rfl ⟨0, 0⟩ (fun _ => 0) id
    have hhandler := keyboardHandler_ctrlC (k := { shellInitial with ctrlPressed := true, toDevices := d })
      (show ctrlC _ scC = true from rfl) (fun _ => 0) id
    have hidle : shellInitial.runningFlag = false := rfl
    rw [if_neg (by rw [hidle]; decide)] at hhandler
    obtain ⟨d', hd⟩ := sendEoi_devicesOnly
      { shellInitial with ctrlPressed := true, callHalt := true, toDevices := d } keyboardIrqLine
    have hs₂ : step { shellInitial with ctrlPressed := true, toDevices := d } (.key scC ⟨0, 0⟩ (fun _ => 0) id) =
        some { shellInitial with ctrlPressed := true, callHalt := true, toDevices := d' } := by
      rw [hd] at hhandler
      exact step_key hhandler _
    have hboot : BootedTo 0 { shellInitial with ctrlPressed := true, callHalt := true, toDevices := d' } :=
      (bootedTo_initialBoot (fun _ _ _ => rfl) _).congr rfl rfl (fun _ => rfl) rfl
    obtain ⟨k₃, hs₃, hboot₃, hfs₃, hcall₃, -⟩ := hboot.step_tick (by decide) (fun _ => rfl) rfl ⟨0, 0⟩ ⟨0, 0⟩ fun _ => 0
    obtain ⟨k₄, hs₄, -, -, hcall₄, hrun₄⟩ := hboot₃.step_tick (by decide) (fun h => absurd h (by decide)) hfs₃ ⟨0, 0⟩
      ⟨0, 0⟩ fun _ => 0
    obtain ⟨k₅, hk₅⟩ := keyboardHandler_release (fun _ => 0) id (hcall₄.trans hcall₃) (hrun₄ (by decide))
    exact ⟨_, _, k₃, k₄, k₅, hs₁, hs₂, hs₃, hs₄, hk₅, rfl⟩

end BasicOs
