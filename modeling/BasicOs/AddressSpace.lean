import BasicOs.Lib.Run
import BasicOs.Filesystem
import BasicOs.Video

/-!
# What user programs can reach

The two-level translation of the CPU, for accesses from user mode, over the tables that `init_paging`,
`initial_boot` and the mapping functions write.

* `userTranslate k va` : where a user access to `va` goes, `none` for a page fault;
* `Isolated k last` : only the program's page and the video window are reachable;
* `Mapped k last` : the entries that are present, in every state of a run;
* `never_isolated` : the terminals' video pages are reachable too, in every state; nothing else is.
-/

namespace BasicOs
open Run

/-- The table a page directory entry designates; the kernel has two. -/
def tableAt (k : Kernel) (frame : Nat) : Option (Nat → Pte) :=
  if frame = pageOf k.pageTableAddr then some k.pageTable
  else if frame = pageOf k.vidmapPageTableAddr then some k.vidmapPageTable
  else none

/-- The address in memory that a user access to `va` gets to: both entries on the way have `P` and `U`. -/
def userTranslate (k : Kernel) (va : Nat) : Option Nat :=
  let pde := k.pageDirectory (va / 0x400000)
  if pde.p ∧ pde.u then
    if pde.s then some (pde.offset31_12 / 1024 * 0x400000 + va % 0x400000)
    else
      (tableAt k pde.offset31_12).bind fun table =>
        let pte := table (va / 4096 % 1024)
        if pte.p ∧ pte.u then some (pte.offset31_12 * 4096 + va % 4096) else none
  else none

/-! ## Runs of the mapping functions -/

inductive MapEvent
  | mapUserProgram (pid : Fin 6)
  | schedulingVidmap (terminal currTerm : Fin 3)
  | mapVidmem
  | vidmapTerm (termId : Fin 3)
  | switchTerminals (nextTerm : Fin 3)

/-- One call, with the pid that was mapped last beside the kernel. -/
def mapStep : Kernel × Option (Fin 6) → MapEvent → Option (Kernel × Option (Fin 6))
  | (k, _), .mapUserProgram pid => some (mapUserProgram k pid.val, some pid)
  | (k, last), .schedulingVidmap terminal currTerm => some (schedulingVidmap k terminal currTerm, last)
  | (k, last), .mapVidmem => some (mapVidmem k, last)
  | (k, last), .vidmapTerm termId => some (vidmapTerm k termId, last)
  | (k, last), .switchTerminals nextTerm => some (switchTerminals k nextTerm, last)

/-- The kernel as it is loaded, with the two tables where the linker put them. -/
def loadedAt (fs : FileSystem) (pageTableAddr vidmapPageTableAddr : Nat) : Kernel :=
  { Kernel.atLoad fs with pageTableAddr := pageTableAddr, vidmapPageTableAddr := vidmapPageTableAddr }

/-- The address of a page-aligned object of the kernel's image, which is linked to 4 MB. -/
def InKernelImage (a : Nat) : Prop := a % 4096 = 0 ∧ 0x400000 ≤ a ∧ a < 0x800000

/-- The program's page shows the last mapped pid's frame. -/
def InProgramPage (last : Option (Fin 6)) (va pa : Nat) : Prop :=
  (0x8000000 ≤ va ∧ va < 0x8400000) ∧
    ∃ pid, last = some pid ∧ pa = (pid.val + 2) * 0x400000 + (va - 0x8000000)

/-- The video window shows one video frame. -/
def InVideoWindow (va pa : Nat) : Prop :=
  (0x8400000 ≤ va ∧ va < 0x8401000) ∧
    ∃ frame, (0xB8 ≤ frame ∧ frame ≤ 0xBB) ∧ pa = frame * 4096 + (va - 0x8400000)

/-- User programs reach their page and the video window only. -/
def Isolated (k : Kernel) (last : Option (Fin 6)) : Prop :=
  ∀ va < 2 ^ 32, ∀ pa, userTranslate k va = some pa → InProgramPage last va pa ∨ InVideoWindow va pa

/-! ## The entries that are present -/

structure Mapped (k : Kernel) (last : Option (Fin 6)) : Prop where
  low : let e := k.pageDirectory 0
    e.p = true ∧ e.u = true ∧ e.s = false ∧ e.offset31_12 = pageOf k.pageTableAddr
  kernel : (k.pageDirectory 1).u = false
  program : (k.pageDirectory 32).p = true → (k.pageDirectory 32).s = true ∧
    ∃ pid, last = some pid ∧ (k.pageDirectory 32).offset31_12 = (pid.val + 2) * 1024
  window : (k.pageDirectory 33).p = true →
    (k.pageDirectory 33).s = false ∧ (k.pageDirectory 33).offset31_12 = pageOf k.vidmapPageTableAddr
  absent : ∀ i < 1024, i ≠ 0 → i ≠ 1 → i ≠ 32 → i ≠ 33 → (k.pageDirectory i).p = false
  lowPages : ∀ i < 1024, (k.pageTable i).p = true → (0xB8 ≤ i ∧ i ≤ 0xBB) ∧ (k.pageTable i).offset31_12 = i
  backups : ∀ i, 0xB9 ≤ i → i ≤ 0xBB → (k.pageTable i).p = true ∧ (k.pageTable i).u = true
  windowPages : ∀ i < 1024, (k.vidmapPageTable i).p = true →
    i = 0 ∧ 0xB8 ≤ (k.vidmapPageTable i).offset31_12 ∧ (k.vidmapPageTable i).offset31_12 ≤ 0xBB
  tables : pageOf k.pageTableAddr ≠ pageOf k.vidmapPageTableAddr

variable {k k' : Kernel} {last : Option (Fin 6)}

/-- Only the tables matter. -/
theorem Mapped.congr (h : Mapped k last) (hp : k'.toPaging = k.toPaging) : Mapped k' last := by
  obtain ⟨h0, h1, h2, h3, h4, h5, h6, h7, h8⟩ := h
  have hpd : k'.pageDirectory = k.pageDirectory := congrArg Paging.pageDirectory hp
  have hpt : k'.pageTable = k.pageTable := congrArg Paging.pageTable hp
  have hvt : k'.vidmapPageTable = k.vidmapPageTable := congrArg Paging.vidmapPageTable hp
  have ha : k'.pageTableAddr = k.pageTableAddr := congrArg Paging.pageTableAddr hp
  have hb : k'.vidmapPageTableAddr = k.vidmapPageTableAddr := congrArg Paging.vidmapPageTableAddr hp
  constructor <;> simp only [hpd, hpt, hvt, ha, hb] <;> assumption

theorem Mapped.mapUserProgram (h : Mapped k last) (pid : Fin 6) :
    Mapped (mapUserProgram k pid.val) (some pid) where
  low := h.low
  kernel := h.kernel
  program _ := by
    simp only [BasicOs.mapUserProgram, Kernel.modifyPde, Function.update_self, fourMbOffset, true_and]
    exact ⟨pid, rfl, by omega⟩
  window := h.window
  absent i hi h0 h1 h32 h33 := by
    simp only [BasicOs.mapUserProgram, Kernel.modifyPde, Function.update_of_ne h32]
    exact h.absent i hi h0 h1 h32 h33
  lowPages := h.lowPages
  backups := h.backups
  windowPages := h.windowPages
  tables := h.tables

theorem Mapped.hang (h : Mapped k last) : Mapped (hangVidmapTable k) last where
  low := h.low
  kernel := h.kernel
  program := h.program
  window _ := by simp [hangVidmapTable, Kernel.modifyPde]
  absent i hi h0 h1 h32 h33 := by
    simp only [hangVidmapTable, Kernel.modifyPde, Function.update_of_ne h33]
    exact h.absent i hi h0 h1 h32 h33
  lowPages := h.lowPages
  backups := h.backups
  windowPages := h.windowPages
  tables := h.tables

/-- A page of the video memory, mapped to itself. -/
theorem Mapped.lowPage (h : Mapped k last) {i : Nat} (hlo : 0xB8 ≤ i) (hhi : i ≤ 0xBB) :
    Mapped (k.modifyPte i fun e => e.mapUser i) last where
  low := h.low
  kernel := h.kernel
  program := h.program
  window := h.window
  absent := h.absent
  lowPages j hj := by
    simp only [Kernel.modifyPte, Function.update_apply]
    split_ifs with hji
    · exact fun _ => ⟨by omega, hji.symm⟩
    · exact h.lowPages j hj
  backups j hlo' hhi' := by
    simp only [Kernel.modifyPte, Function.update_apply]
    split_ifs
    · exact ⟨rfl, rfl⟩
    · exact h.backups j hlo' hhi'
  windowPages := h.windowPages
  tables := h.tables

theorem Mapped.windowPage (h : Mapped k last) {frame : Nat} (hlo : 0xB8 ≤ frame) (hhi : frame ≤ 0xBB) :
    Mapped (k.modifyVidmap fun e => e.mapUser frame) last where
  low := h.low
  kernel := h.kernel
  program := h.program
  window := h.window
  absent := h.absent
  lowPages := h.lowPages
  backups := h.backups
  windowPages j hj := by
    simp only [Kernel.modifyVidmap, Function.update_apply]
    split_ifs with hj0
    · exact fun _ => ⟨hj0, hlo, hhi⟩
    · exact h.windowPages j hj
  tables := h.tables

theorem pageOf_vidmem : pageOf vidmemAddress = 0xB8 := by decide

theorem pageOf_videoPages (t : Fin 3) : pageOf (videoPages t) = 0xB8 + (t.val + 1) := by
  fin_cases t <;> rfl

theorem Mapped.schedulingVidmap (h : Mapped k last) (terminal currTerm : Fin 3) :
    Mapped (schedulingVidmap k terminal currTerm) last := by
  have ht := terminal.isLt
  unfold BasicOs.schedulingVidmap
  rw [pageOf_vidmem, pageOf_videoPages]
  by_cases hc : terminal ≠ currTerm
  · simp only [if_pos hc]
    exact (h.hang.windowPage (by omega) (by omega)).lowPage (by omega) (by omega)
  · simp only [if_neg hc]
    exact (h.hang.windowPage (by omega) (by omega)).lowPage (by omega) (by omega)

theorem Mapped.vidmapTerm (h : Mapped k last) (t : Fin 3) : Mapped (vidmapTerm k t) last := by
  have ht := t.isLt
  unfold BasicOs.vidmapTerm
  rw [pageOf_vidmem, Nat.add_assoc]
  exact h.lowPage (by omega) (by omega)

theorem switchTerminals_toPaging (k : Kernel) (t : Fin 3) : (switchTerminals k t).toPaging = k.toPaging ∨
    (switchTerminals k t).toPaging = (k.modifyPte 0xB8 fun e => e.mapUser 0xB8).toPaging := by
  unfold switchTerminals
  split_ifs
  · exact Or.inl rfl
  · exact Or.inr rfl

theorem Mapped.switchTerminals (h : Mapped k last) (t : Fin 3) : Mapped (switchTerminals k t) last := by
  rcases switchTerminals_toPaging k t with hp | hp
  · exact h.congr hp
  · exact (h.lowPage (i := 0xB8) (by omega) (by omega)).congr hp

theorem mapped_step {p q : Kernel × Option (Fin 6)} {e : MapEvent} (h : Mapped p.1 p.2) (hs : mapStep p e = some q) :
    Mapped q.1 q.2 := by
  obtain ⟨k, last⟩ := p
  cases e <;> cases hs
  case mapUserProgram pid => exact h.mapUserProgram pid
  case schedulingVidmap terminal currTerm => exact h.schedulingVidmap terminal currTerm
  case mapVidmem =>
    unfold mapVidmem
    rw [pageOf_vidmem]
    exact h.hang.windowPage (by omega) (by omega)
  case vidmapTerm t => exact h.vidmapTerm t
  case switchTerminals t => exact h.switchTerminals t

/-! ## After boot -/

theorem pageOf_lt {a : Nat} (h : InKernelImage a) : pageOf a &&& 0xFFF = pageOf a := by
  obtain ⟨-, -, hlt⟩ := h
  have hpage : pageOf a = a / 4096 := by simp [pageOf, addressShiftKb, Nat.shiftRight_eq_div_pow]
  rw [show (0xFFF : Nat) = 2 ^ 12 - 1 by decide, Nat.and_two_pow_sub_one_eq_mod, hpage]
  omega

theorem pageOf_injective {a b : Nat} (ha : InKernelImage a) (hb : InKernelImage b) (hab : a ≠ b) :
    pageOf a ≠ pageOf b := by
  have hpage : ∀ a, pageOf a = a / 4096 := fun a => by simp [pageOf, addressShiftKb, Nat.shiftRight_eq_div_pow]
  rw [hpage, hpage]
  obtain ⟨ha, -, -⟩ := ha
  obtain ⟨hb, -, -⟩ := hb
  omega

/-- The directory and the table that `init_paging` leaves. -/
theorem initPaging_tables (k : Kernel) (h : InKernelImage k.pageTableAddr) :
    (∀ i < 1024, (initPaging k).pageDirectory i =
      if i = 0 then ⟨true, true, true, false, true, false, false, pageOf k.pageTableAddr⟩
      else if i = 1 then ⟨true, true, false, false, true, false, true, 1024⟩
      else ⟨false, true, true, false, true, false, true, 0⟩) ∧
    (∀ i < 1024, (initPaging k).pageTable i =
      if i = 0xB8 then ⟨true, true, false, false, false, false, false, 0xB8⟩
      else ⟨false, true, true, false, true, false, false, 0⟩) := by
  unfold initPaging
  simp only [Kernel.modifyPte, Kernel.modifyPde, Function.update_apply, pageOf_vidmem, pageOf_lt h]
  refine ⟨fun i hi => ?_, fun i hi => ?_⟩
  · split_ifs <;> first | rfl | (exfalso; omega)
  · split_ifs <;> first | rfl | (exfalso; omega)

/-- `initial_boot` maps the three backup pages. -/
theorem initialBoot_pageTable (k : Kernel) (local_ : Fin 3 → Term) (i : Nat) :
    (initialBoot k local_).pageTable i = if 0xB9 ≤ i ∧ i ≤ 0xBB then (k.pageTable i).mapUser i else k.pageTable i := by
  simp only [initialBoot, vidmapTerm, Kernel.modifyPte, Function.update_apply, pageOf_vidmem]
  split_ifs <;> first | (exfalso; omega) | (subst_vars; rfl)

theorem mapped_boot (fs : FileSystem) {a b : Nat} (ha : InKernelImage a) (hb : InKernelImage b) (hab : a ≠ b)
    (local_ : Fin 3 → Term) : Mapped (initialBoot (initPaging (loadedAt fs a b)) local_) none := by
  obtain ⟨hpd, hpt⟩ := initPaging_tables (loadedAt fs a b) ha
  have hvt : ∀ i, ((initPaging (loadedAt fs a b)).vidmapPageTable i).p = false := fun _ => rfl
  have hpta : (initPaging (loadedAt fs a b)).pageTableAddr = a := rfl
  have hvta : (initPaging (loadedAt fs a b)).vidmapPageTableAddr = b := rfl
  generalize initPaging (loadedAt fs a b) = k at hpd hpt hvt hpta hvta
  have hpd' : ∀ i < 1024, (initialBoot k local_).pageDirectory i = _ := hpd
  constructor
  · rw [hpd' 0 (by omega)]
    exact ⟨rfl, rfl, rfl, congrArg pageOf hpta.symm⟩
  · rw [hpd' 1 (by omega)]
    rfl
  · rw [hpd' 32 (by omega)]
    exact fun h => (nomatch h)
  · rw [hpd' 33 (by omega)]
    exact fun h => (nomatch h)
  · intro i hi h0 h1 _ _
    rw [hpd' i hi, if_neg h0, if_neg h1]
  · intro i hi
    rw [initialBoot_pageTable, hpt i hi]
    split_ifs with hback hvid hvid
    · exact fun _ => ⟨by omega, rfl⟩
    · exact fun _ => ⟨by omega, rfl⟩
    · exact fun _ => ⟨by omega, hvid.symm⟩
    · exact fun h => (nomatch h)
  · intro i hlo hhi
    rw [initialBoot_pageTable, if_pos ⟨hlo, hhi⟩]
    exact ⟨rfl, rfl⟩
  · intro i _ h
    rw [show ((initialBoot k local_).vidmapPageTable i).p = false from hvt i] at h
    cases h
  · show pageOf k.pageTableAddr ≠ pageOf k.vidmapPageTableAddr
    rw [hpta, hvta]
    exact pageOf_injective ha hb hab

/-! ## What is reached -/

/-- An access that does not fault: the program's page, the video window, or the video memory itself. -/
theorem Mapped.reached (h : Mapped k last) {va pa : Nat} (hva : va < 2 ^ 32) (ht : userTranslate k va = some pa) :
    InProgramPage last va pa ∨ InVideoWindow va pa ∨ (0xB8000 ≤ va ∧ va < 0xBC000) ∧ pa = va := by
  have hindex : va / 0x400000 < 1024 := by omega
  have hpage : va / 4096 % 1024 < 1024 := Nat.mod_lt _ (by decide)
  unfold userTranslate at ht
  dsimp only at ht
  split_ifs at ht with hp hs
  · -- a 4 MB page: the program's
    obtain hi | hi : va / 0x400000 = 32 ∨ va / 0x400000 ≠ 32 := em _
    · rw [hi] at ht hp hs
      obtain ⟨-, pid, hlast, hoff⟩ := h.program hp.1
      rw [hoff, Option.some_inj] at ht
      exact Or.inl ⟨by omega, pid, hlast, by omega⟩
    · exfalso
      by_cases h0 : va / 0x400000 = 0
      · rw [h0, h.low.2.2.1] at hs
        cases hs
      by_cases h1 : va / 0x400000 = 1
      · rw [h1, h.kernel] at hp
        cases hp.2
      by_cases h33 : va / 0x400000 = 33
      · rw [h33] at hp hs
        rw [(h.window hp.1).1] at hs
        cases hs
      · rw [h.absent _ hindex h0 h1 hi h33] at hp
        cases hp.1
  · -- a 4 KB page: of the video memory, or the window
    by_cases h0 : va / 0x400000 = 0
    · rw [h0, h.low.2.2.2, tableAt, if_pos rfl, Option.bind_some] at ht
      split_ifs at ht with hpte
      obtain ⟨hrange, hoff⟩ := h.lowPages _ hpage hpte.1
      rw [hoff, Option.some_inj] at ht
      exact Or.inr (Or.inr ⟨by omega, by omega⟩)
    by_cases h33 : va / 0x400000 = 33
    · rw [h33] at hp ht
      rw [(h.window hp.1).2, tableAt, if_neg h.tables.symm, if_pos rfl, Option.bind_some] at ht
      split_ifs at ht with hpte
      obtain ⟨hzero, hlo, hhi⟩ := h.windowPages _ hpage hpte.1
      rw [Option.some_inj] at ht
      exact Or.inr (Or.inl ⟨by omega, _, ⟨hlo, hhi⟩, by omega⟩)
    · exfalso
      by_cases h1 : va / 0x400000 = 1
      · rw [h1, h.kernel] at hp
        cases hp.2
      by_cases h32 : va / 0x400000 = 32
      · rw [h32] at hp hs
        exact hs (h.program hp.1).1
      · rw [h.absent _ hindex h0 h1 h32 h33] at hp
        cases hp.1

/-- The backup page of terminal 0 is reached at its own address. -/
theorem Mapped.backup_reached (h : Mapped k last) : userTranslate k 0xB9000 = some 0xB9000 := by
  obtain ⟨hp, hu⟩ := h.backups 0xB9 (by decide) (by decide)
  obtain ⟨-, hoff⟩ := h.lowPages 0xB9 (by decide) hp
  obtain ⟨hp0, hu0, hs0, hoff0⟩ := h.low
  unfold userTranslate
  rw [show 0xB9000 / 0x400000 = 0 by decide, show 0xB9000 / 4096 % 1024 = 0xB9 by decide]
  dsimp only
  rw [if_pos ⟨hp0, hu0⟩, hs0, if_neg (by decide), hoff0, tableAt, if_pos rfl, Option.bind_some,
    if_pos ⟨hp, hu⟩, hoff]

/-- **User address space.** In no state that the mapping functions reach from boot are user programs kept to their
page and the video window: the terminals' backup pages are always reachable. Beyond these three places nothing is:
no frame of the kernel's 4 MB and no other pid's frame. -/
theorem never_isolated (fs : FileSystem) {a b : Nat} (ha : InKernelImage a) (hb : InKernelImage b) (hab : a ≠ b)
    (local_ : Fin 3 → Term) {k : Kernel} {last : Option (Fin 6)}
    (h : Reach mapStep (fun _ _ => True) (initialBoot (initPaging (loadedAt fs a b)) local_, none) (k, last)) :
    ¬ Isolated k last ∧ ∀ va < 2 ^ 32, ∀ pa, userTranslate k va = some pa →
      InProgramPage last va pa ∨ InVideoWindow va pa ∨ (0xB8000 ≤ va ∧ va < 0xBC000) ∧ pa = va := by
  have hmapped : Mapped k last := h.invariant (I := fun p => Mapped p.1 p.2) (mapped_boot fs ha hb hab local_)
    fun _ _ _ hi _ hs => mapped_step hi hs
  refine ⟨fun hiso => ?_, fun va hva pa ht => hmapped.reached hva ht⟩
  rcases hiso 0xB9000 (by decide) 0xB9000 hmapped.backup_reached with ⟨⟨hlo, -⟩, -⟩ | ⟨⟨hlo, -⟩, -⟩
  · exact absurd hlo (by decide)
  · exact absurd hlo (by decide)

/-- The two tables right after each other at 5 MB, and the first program mapped. -/
theorem never_isolated_first : ∃ k, Reach mapStep (fun _ _ => True)
      (initialBoot (initPaging (loadedAt FileSystem.shellImage 0x500000 0x501000)) fun _ => Term.zeroed, none)
      (k, some 0) ∧ ¬ Isolated k (some 0) := by
  have hrun : Reach mapStep (fun _ _ => True)
      (initialBoot (initPaging (loadedAt FileSystem.shellImage 0x500000 0x501000)) fun _ => Term.zeroed, none) _ :=
    .tail (.mapUserProgram 0) (.refl _) trivial rfl
  have hfirst : InKernelImage 0x500000 := ⟨by decide, by decide, by decide⟩
  have hsecond : InKernelImage 0x501000 := ⟨by decide, by decide, by decide⟩
  exact ⟨_, hrun, (never_isolated _ hfirst hsecond (by decide) _ hrun).1⟩

/-- Right after boot a user program reaches the backup page of the first terminal. -/
theorem backup_page_reachable :
    let k := initialBoot (initPaging (loadedAt FileSystem.shellImage 0x500000 0x501000)) fun _ => Term.zeroed
    userTranslate k 0xB9000 = some 0xB9000 ∧ ¬ Isolated k none := by
  intro k
  have ht : userTranslate k 0xB9000 = some 0xB9000 := by decide +kernel
  refine ⟨ht, fun hiso => ?_⟩
  rcases hiso 0xB9000 (by decide) 0xB9000 ht with ⟨⟨hlo, -⟩, -⟩ | ⟨⟨hlo, -⟩, -⟩
  · exact absurd hlo (by decide)
  · exact absurd hlo (by decide)

end BasicOs
