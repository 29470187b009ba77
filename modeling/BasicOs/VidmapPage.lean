import BasicOs.Machine
import BasicOs.Screens

/-!
# The user's video page and the displayed terminal

The page at 132 MB should show the screen of the scheduled terminal: the VGA page while that terminal is
displayed, its backup page otherwise (`VidmapFollows`). Every tick sets it so. `sys_vidmap` always maps the
VGA page, and `switch_terminals` leaves the mapping alone, so each of them keeps it right only sometimes
(`KeepsVidmap`).

* `vidmap_follows` : along runs of such steps it is right in every state, and of the other steps each makes it
  wrong.
-/

namespace BasicOs
open Run

/-- The user's video page is the screen of the scheduled terminal. -/
def VidmapFollows (k : Kernel) : Prop :=
  VidmapShows k (if k.scheduledProcess = k.currTerm then 0xB8 else 0xB8 + (k.scheduledProcess.val + 1))

/-- Ticks, `sys_vidmap` and `switch_terminals`. -/
def VidmapEvent : Event → Prop
  | .tick .. | .vidmap .. | .switch .. => True
  | .key .. | .execute .. | .halt .. => False

/-- `sys_vidmap` with a pointer it accepts is called on the displayed terminal, and `switch_terminals` neither
hides nor shows the scheduled one. -/
def KeepsVidmap (k : Kernel) : Event → Prop
  | .vidmap screenStart =>
    one28Mb ≤ screenStart → screenStart < one32Mb → k.scheduledProcess = k.currTerm
  | .switch nextTerm => k.scheduledProcess = nextTerm ↔ k.scheduledProcess = k.currTerm
  | _ => True

variable {k k' : Kernel}

/-- Nothing the mapping depends on has changed. -/
structure SameVidmap (k k' : Kernel) : Prop where
  pde : k'.pageDirectory 33 = k.pageDirectory 33
  table : k'.vidmapPageTable = k.vidmapPageTable
  addr : k'.vidmapPageTableAddr = k.vidmapPageTableAddr
  scheduled : k'.scheduledProcess = k.scheduledProcess

theorem SameVidmap.shows (h : SameVidmap k k') (frame : Nat) : VidmapShows k' frame ↔ VidmapShows k frame := by
  unfold VidmapShows
  rw [h.pde, h.table, h.addr]

theorem VidmapShows.unique {frame frame' : Nat} (h : VidmapShows k frame) : VidmapShows k frame' ↔ frame' = frame := by
  refine ⟨fun h' => h'.2.2.2.symm.trans h.2.2.2, ?_⟩
  rintro rfl
  exact h

/-! ## Ticks -/

theorem schedulingVidmap_follows (t : Fin 3) (h : k.scheduledProcess = t) :
    VidmapFollows (schedulingVidmap k t k.currTerm) := by
  have hshows := schedulingVidmap_shows k t k.currTerm
  obtain ⟨_, _, _, hv, -⟩ := schedulingVidmap_frame k t k.currTerm
  rw [VidmapFollows]
  rw [hv] at hshows ⊢
  rw [h]
  exact hshows

/-- Starting a process leaves the video page alone. -/
theorem launch_sameVidmap (k : Kernel) (pid : Int) (inode entry : Nat) (args : List UInt8) (r : Regs) :
    SameVidmap k (launch k pid inode entry args r) := by
  obtain ⟨_, _, _, h⟩ := launch_frame k pid inode entry args r
  have h33 : (mapUserProgram (k.setSlot (launchSlot k pid) pid) pid).pageDirectory 33 = k.pageDirectory 33 := by
    simp [mapUserProgram, Kernel.modifyPde, Kernel.setSlot, Kernel.modifyTerm]
  rw [h]
  exact ⟨h33, rfl, rfl, rfl⟩

theorem VidmapFollows.launch (h : VidmapFollows k) (pid : Int) (inode entry : Nat) (args : List UInt8) (r : Regs) :
    VidmapFollows (launch k pid inode entry args r) := by
  unfold VidmapFollows
  rw [(launch_sameVidmap k pid inode entry args r).shows, launch_scheduledProcess, launch_currTerm]
  exact h

theorem switchTo_follows (k : Kernel) (next : Fin 3) : VidmapFollows (switchTo k next) := by
  have hshows := switchTo_vidmap k next
  obtain ⟨_, _, _, hsw, -⟩ := switchTo_frame k next
  rw [VidmapFollows]
  rw [hsw] at hshows ⊢
  exact hshows

/-- Every tick, also one that boots a terminal, sets the page right. -/
theorem schedule_follows {r inner : Regs} {stale : Nat → UInt8} (hs : schedule k r inner stale = some k') :
    VidmapFollows k' := by
  rcases schedule_cases hs with rfl | ⟨k₀, -, -, -, hk⟩
  · exact switchTo_follows _ _
  · have hset := schedulingVidmap_follows k₀.scheduledProcess (k := k₀) rfl
    rcases hk with rfl | ⟨pid, inode, entry, args, rfl⟩
    · exact hset
    · exact hset.launch pid inode entry args inner

/-! ## `sys_vidmap` and `switch_terminals` -/

theorem sysVidmap_eq {screenStart : Nat} (hlo : one28Mb ≤ screenStart) (hhi : screenStart < one32Mb) :
    SameVidmap (mapVidmem k) (sysVidmap k screenStart).1 ∧ (sysVidmap k screenStart).1.currTerm = k.currTerm := by
  have hstore : ∀ (k' : Kernel) (a : Nat) (c : UInt8), SameVidmap (mapVidmem k) k' ∧ k'.currTerm = k.currTerm →
      SameVidmap (mapVidmem k) (userStore k' a c) ∧ (userStore k' a c).currTerm = k.currTerm := by
    intro k' a c h
    unfold userStore
    split
    · exact ⟨⟨h.1.pde, h.1.table, h.1.addr, h.1.scheduled⟩, h.2⟩
    · exact ⟨⟨h.1.pde, h.1.table, h.1.addr, h.1.scheduled⟩, h.2⟩
  unfold sysVidmap
  rw [if_neg (by omega)]
  exact hstore _ _ _ (hstore _ _ _ (hstore _ _ _ (hstore _ _ _ ⟨⟨rfl, rfl, rfl, rfl⟩, rfl⟩)))

/-- `sys_vidmap` maps the VGA page. -/
theorem sysVidmap_follows (h : VidmapFollows k) (screenStart : Nat) :
    VidmapFollows (sysVidmap k screenStart).1 ↔ KeepsVidmap k (.vidmap screenStart) := by
  by_cases hptr : one28Mb ≤ screenStart ∧ screenStart < one32Mb
  · obtain ⟨hsame, hterm⟩ := sysVidmap_eq (k := k) hptr.1 hptr.2
    have hmapped : VidmapShows (mapVidmem k) 0xB8 := mapVidmem_shows k
    have hsched : (sysVidmap k screenStart).1.scheduledProcess = k.scheduledProcess := hsame.scheduled
    rw [VidmapFollows, hsame.shows, hmapped.unique, hterm, hsched, KeepsVidmap]
    split_ifs with hs
    · exact ⟨fun _ _ _ => hs, fun _ => rfl⟩
    · exact ⟨fun he => absurd he (by omega), fun hk => absurd (hk hptr.1 hptr.2) hs⟩
  · have heq : (sysVidmap k screenStart).1 = k := by
      unfold sysVidmap
      rw [if_pos (by omega)]
    rw [heq, KeepsVidmap]
    exact ⟨fun _ hlo hhi => absurd ⟨hlo, hhi⟩ hptr, fun _ => h⟩

theorem switchTerminals_sameVidmap (k : Kernel) (t : Fin 3) : SameVidmap k (switchTerminals k t) := by
  unfold switchTerminals
  split
  · exact ⟨rfl, rfl, rfl, rfl⟩
  · exact ⟨rfl, rfl, rfl, rfl⟩

/-- `switch_terminals` leaves the mapping alone. -/
theorem switchTerminals_follows (h : VidmapFollows k) (t : Fin 3) :
    VidmapFollows (switchTerminals k t) ↔ KeepsVidmap k (.switch t) := by
  have hsame := switchTerminals_sameVidmap k t
  rw [VidmapFollows, hsame.shows, VidmapShows.unique h, hsame.scheduled, switchTerminals_currTerm, KeepsVidmap]
  split_ifs with hs hs' hs'
  · exact ⟨fun _ => ⟨fun _ => hs', fun _ => hs⟩, fun _ => rfl⟩
  · exact ⟨fun he => absurd he (by omega), fun hk => absurd (hk.mp hs) hs'⟩
  · exact ⟨fun he => absurd he (by omega), fun hk => absurd (hk.mpr hs') hs⟩
  · exact ⟨fun _ => ⟨fun he => absurd he hs, fun he => absurd he hs'⟩, fun _ => rfl⟩

/-! ## Runs -/

theorem VidmapFollows.step_iff (h : VidmapFollows k) {e : Event} (he : VidmapEvent e)
    (hs : step k e = some k') : VidmapFollows k' ↔ KeepsVidmap k e := by
  unfold step at hs
  cases e with
  | tick r inner stale => exact ⟨fun _ => trivial, fun _ => schedule_follows hs⟩
  | vidmap screenStart =>
    rw [← Option.some.inj hs]
    exact sysVidmap_follows h screenStart
  | switch t =>
    rw [← Option.some.inj hs]
    exact switchTerminals_follows h t
  | key => exact he.elim
  | execute => exact he.elim
  | halt => exact he.elim

/-- The page is the logical screen of the scheduled terminal. -/
theorem VidmapFollows.logicalPage (h : VidmapFollows k) :
    ((k.vidmapPageTable 0).offset31_12 : Int) * 4096 = logicalPage k k.scheduledProcess := by
  rw [h.2.2.2, BasicOs.logicalPage, backupPage, video]
  split_ifs
  · rfl
  · push_cast
    omega

/-- **Vidmap page follows the terminal.** After any tick, in every run of ticks, `sys_vidmap` calls and
terminal switches that meet `KeepsVidmap`, the user's video page is the screen of the scheduled terminal; and
a step that does not meet it makes the page wrong. -/
theorem vidmap_follows {k₀ k₁ k : Kernel} {r inner : Regs} {stale : Nat → UInt8}
    (htick : step k₀ (.tick r inner stale) = some k₁)
    (hrun : Reach step (fun k e => VidmapEvent e ∧ KeepsVidmap k e) k₁ k) :
    (VidmapFollows k ∧ ((k.vidmapPageTable 0).offset31_12 : Int) * 4096 = logicalPage k k.scheduledProcess) ∧
      ∀ e k', VidmapEvent e → step k e = some k' → (VidmapFollows k' ↔ KeepsVidmap k e) := by
  have h : VidmapFollows k := hrun.invariant (schedule_follows htick)
    fun _ _ _ hk hok hs => (hk.step_iff hok.1 hs).mpr hok.2
  exact ⟨⟨h, h.logicalPage⟩, fun e k' he hs => h.step_iff he hs⟩

/-- A tick to the displayed terminal, and `sys_vidmap` called there. -/
theorem vidmap_follows_shell : ∃ k₀ k₁ k₂ k₃, shellBoot = some k₀ ∧
    step k₀ (.switch (k₀.scheduledProcess + 1)) = some k₁ ∧
    step k₁ (.tick ⟨0, 0⟩ ⟨0, 0⟩ fun _ => 0) = some k₂ ∧ step k₂ (.vidmap one28Mb) = some k₃ ∧ VidmapFollows k₃ := by
  obtain ⟨k₀, k₁, hk₀, -, -, hs₁, hboot₁, -, -, hshown⟩ := shellBoot_switch 1
  obtain ⟨k₂, hs₂, hsched, hterm⟩ := hboot₁.tick ⟨0, 0⟩ ⟨0, 0⟩ fun _ => 0
  have hs₃ : step k₂ (.vidmap one28Mb) = some (sysVidmap k₂ one28Mb).1 := rfl
  have hkeeps : KeepsVidmap k₂ (.vidmap one28Mb) := fun _ _ => by rw [hsched, hterm, hshown]
  have hrun : Reach step (fun k e => VidmapEvent e ∧ KeepsVidmap k e) k₂ (sysVidmap k₂ one28Mb).1 :=
    .tail (.vidmap one28Mb) (.refl k₂) ⟨trivial, hkeeps⟩ hs₃
  exact ⟨k₀, k₁, k₂, _, hk₀, hs₁, hs₂, hs₃, (vidmap_follows hs₂ hrun).1.1⟩

/-- A switch away from the scheduled terminal leaves its process drawing on the VGA page; and `sys_vidmap`
maps the VGA page for a process whose terminal is not displayed. -/
theorem vidmap_shows_other_screen :
    (∃ k₀ k₁ k₂ k₃, shellBoot = some k₀ ∧ step k₀ (.switch (k₀.scheduledProcess + 1)) = some k₁ ∧
      step k₁ (.tick ⟨0, 0⟩ ⟨0, 0⟩ fun _ => 0) = some k₂ ∧
      step k₂ (.switch (k₂.scheduledProcess + 1)) = some k₃ ∧ ¬ VidmapFollows k₃) ∧
    ∃ k₀ k₁ k₂ k₃, shellBoot = some k₀ ∧ step k₀ (.switch (k₀.scheduledProcess + 0)) = some k₁ ∧
      step k₁ (.tick ⟨0, 0⟩ ⟨0, 0⟩ fun _ => 0) = some k₂ ∧
      step k₂ (.vidmap one28Mb) = some k₃ ∧ ¬ VidmapFollows k₃ := by
  refine ⟨?_, ?_⟩
  · obtain ⟨k₀, k₁, hk₀, -, -, hs₁, hboot₁, -, -, hshown⟩ := shellBoot_switch 1
    obtain ⟨k₂, hs₂, hsched, hterm⟩ := hboot₁.tick ⟨0, 0⟩ ⟨0, 0⟩ fun _ => 0
    have hfollows : VidmapFollows k₂ := schedule_follows hs₂
    refine ⟨k₀, k₁, k₂, _, hk₀, hs₁, hs₂, rfl, fun h => ?_⟩
    have hkeeps : KeepsVidmap k₂ (.switch (k₂.scheduledProcess + 1)) := (switchTerminals_follows hfollows _).mp h
    exact nextSlot_ne k₂.scheduledProcess (hkeeps.mpr (by rw [hsched, hterm, hshown])).symm
  · obtain ⟨k₀, k₁, hk₀, -, -, hs₁, hboot₁, -, -, hshown⟩ := shellBoot_switch 0
    obtain ⟨k₂, hs₂, hsched, hterm⟩ := hboot₁.tick ⟨0, 0⟩ ⟨0, 0⟩ fun _ => 0
    have hfollows : VidmapFollows k₂ := schedule_follows hs₂
    refine ⟨k₀, k₁, k₂, _, hk₀, hs₁, hs₂, rfl, fun h => ?_⟩
    have hkeeps : KeepsVidmap k₂ (.vidmap one28Mb) := (sysVidmap_follows hfollows _).mp h
    have he := hkeeps (by decide) (by decide)
    rw [hsched, hterm, hshown, add_zero] at he
    exact nextSlot_ne _ he

end BasicOs
