import BasicOs.State

/-!
# Paging

The functions of `paging.c`: `initPaging`, `mapUserProgram`, `mapVidmem`, `schedulingVidmap` and
`vidmapTerm`. They write the page directory, the first 4 MB's page table and the table of the
user-level video page; `flush_tlb` only makes the CPU see those writes and has no counterpart.

* `VidmapShows k frame` : the user video page at 132 MB is mapped, for user programs, to `frame`.
-/

namespace BasicOs

/-- The index of a byte address's page: `address >> ADDRESS_SHIFT_KB`. -/
def pageOf (address : Nat) : Nat := address >>> addressShiftKb

/-- `video_pages[terminal]`: `TERM_1_VIDPAGE`, `TERM_2_VIDPAGE`, `TERM_3_VIDPAGE`. -/
def videoPages (terminal : Fin 3) : Nat := ![0xB9000, 0xBA000, 0xBB000] terminal

namespace Kernel

/-- `page_directory[i] = f(page_directory[i])`. -/
def modifyPde (k : Kernel) (i : Nat) (f : Pde → Pde) : Kernel :=
  { k with pageDirectory := Function.update k.pageDirectory i (f (k.pageDirectory i)) }

/-- `page_table[i] = f(page_table[i])`. -/
def modifyPte (k : Kernel) (i : Nat) (f : Pte → Pte) : Kernel :=
  { k with pageTable := Function.update k.pageTable i (f (k.pageTable i)) }

/-- `vidmap_page_table[0] = f(vidmap_page_table[0])`. -/
def modifyVidmap (k : Kernel) (f : Pte → Pte) : Kernel :=
  { k with vidmapPageTable := Function.update k.vidmapPageTable 0 (f (k.vidmapPageTable 0)) }

end Kernel

/-- The four assignments that map a 4 KB page for user programs: `P`, `U`, `R` and the frame. -/
def Pte.mapUser (e : Pte) (frame : Nat) : Pte :=
  { e with p := true, u := true, r := true, offset31_12 := frame }

/-- `init_paging`; the loads of CR0, CR3 and CR4 are not modelled. -/
def initPaging (k : Kernel) : Kernel :=
  -- everything absent, then the video page, the page table and the kernel's 4 MB page
  let k := { k with
    pageDirectory := fun i => if i < 1024 then
        { p := false, r := true, u := true, w := false, d := true, a := false, s := true, offset31_12 := 0 }
      else k.pageDirectory i
    pageTable := fun i => if i < 1024 then
        { p := false, r := true, u := true, w := false, c := true, a := false, d := false, offset31_12 := 0 }
      else k.pageTable i }
  let k := k.modifyPte (pageOf vidmemAddress)
    fun e => { e with p := true, u := false, c := false, offset31_12 := pageOf vidmemAddress }
  let k := k.modifyPde 0
    fun e => { e with p := true, s := false, offset31_12 := pageOf k.pageTableAddr &&& 0xFFF }
  k.modifyPde 1 fun e => { e with offset31_12 := 1024, p := true, u := false }

/-- `map_user_program`: 128 MB to 132 MB becomes the 4 MB frame of `pid`. -/
def mapUserProgram (k : Kernel) (pid : Int) : Kernel :=
  k.modifyPde 32 fun e =>
    { e with p := true, u := true, r := true, s := true, offset31_12 := ((pid + 2) * fourMbOffset).toNat }

/-- The five assignments that hang `vidmap_page_table` at 132 MB. -/
def hangVidmapTable (k : Kernel) : Kernel :=
  k.modifyPde 33 fun e =>
    { e with p := true, u := true, r := true, s := false, offset31_12 := pageOf k.vidmapPageTableAddr }

/-- `map_vidmem`. -/
def mapVidmem (k : Kernel) : Kernel :=
  (hangVidmapTable k).modifyVidmap fun e => e.mapUser (pageOf vidmemAddress)

/-- `scheduling_vidmap`: the scheduled terminal's user video page, and the kernel's mapping of the page
its output goes to. -/
def schedulingVidmap (k : Kernel) (terminal currTerm : Fin 3) : Kernel :=
  let k := hangVidmapTable k
  let k := if terminal ≠ currTerm then
      k.modifyVidmap fun e => e.mapUser (pageOf vidmemAddress + (terminal.val + 1))
    else
      k.modifyVidmap fun e => e.mapUser (pageOf vidmemAddress)
  if terminal ≠ currTerm then
    k.modifyPte (pageOf (videoPages terminal)) fun e => e.mapUser (pageOf (videoPages terminal))
  else
    k.modifyPte (pageOf vidmemAddress) fun e => e.mapUser (pageOf vidmemAddress)

/-- `vidmap_term`: the kernel's mapping of a terminal's backup page. -/
def vidmapTerm (k : Kernel) (termId : Fin 3) : Kernel :=
  k.modifyPte (pageOf vidmemAddress + termId.val + 1)
    fun e => e.mapUser (pageOf vidmemAddress + (termId.val + 1))

/-! ## What is mapped -/

/-- The page directory's entry for user programs maps `pid`'s 4 MB frame. -/
def UserPageIs (k : Kernel) (pid : Int) : Prop :=
  let e := k.pageDirectory 32
  e.p = true ∧ e.s = true ∧ e.u = true ∧ (e.offset31_12 : Int) = (pid + 2) * 1024

/-- User programs see `frame` through the 4 KB page at 132 MB. -/
def VidmapShows (k : Kernel) (frame : Nat) : Prop :=
  let e := k.pageDirectory 33
  let f := k.vidmapPageTable 0
  (e.p = true ∧ e.u = true ∧ e.s = false ∧ e.offset31_12 = pageOf k.vidmapPageTableAddr) ∧
    f.p = true ∧ f.u = true ∧ f.offset31_12 = frame

theorem mapUserProgram_userPageIs (k : Kernel) {pid : Int} (h : 0 ≤ pid) :
    UserPageIs (mapUserProgram k pid) pid := by
  simp only [UserPageIs, mapUserProgram, Kernel.modifyPde, Function.update_self, fourMbOffset, true_and]
  omega

theorem mapVidmem_shows (k : Kernel) : VidmapShows (mapVidmem k) (pageOf vidmemAddress) := by
  simp [VidmapShows, mapVidmem, hangVidmapTable, Kernel.modifyPde, Kernel.modifyVidmap, Pte.mapUser]

/-- The frame `scheduling_vidmap` chooses for a terminal. -/
def vidmapFrame (terminal currTerm : Fin 3) : Nat :=
  if terminal = currTerm then pageOf vidmemAddress else pageOf vidmemAddress + (terminal.val + 1)

theorem schedulingVidmap_shows (k : Kernel) (terminal currTerm : Fin 3) :
    VidmapShows (schedulingVidmap k terminal currTerm) (vidmapFrame terminal currTerm) := by
  unfold schedulingVidmap vidmapFrame
  by_cases h : terminal = currTerm <;>
    simp [h, VidmapShows, hangVidmapTable, Kernel.modifyPde, Kernel.modifyPte, Kernel.modifyVidmap,
      Pte.mapUser]

/-- `scheduling_vidmap` writes the three tables and nothing else, and leaves the user program's page
alone. -/
theorem schedulingVidmap_frame (k : Kernel) (terminal currTerm : Fin 3) :
    ∃ pd pt vt, schedulingVidmap k terminal currTerm =
        { k with pageDirectory := pd, pageTable := pt, vidmapPageTable := vt } ∧
      pd 32 = k.pageDirectory 32 := by
  unfold schedulingVidmap
  by_cases h : terminal = currTerm
  · rw [if_neg (not_not.mpr h), if_neg (not_not.mpr h)]
    exact ⟨_, _, _, rfl, by simp [hangVidmapTable, Kernel.modifyPde, Kernel.modifyVidmap]⟩
  · rw [if_pos h, if_pos h]
    exact ⟨_, _, _, rfl, by simp [hangVidmapTable, Kernel.modifyPde, Kernel.modifyVidmap]⟩

end BasicOs
