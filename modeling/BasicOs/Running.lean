import BasicOs.Lib.LinkedStack
import BasicOs.Machine

/-!
# The running process is live

After boot the process that runs always has its pid in use and its own page and kernel stack in place,
whatever the order of ticks, keys, system calls and terminal switches (`running_consistent`).

The invariant `RunInv` is about the processes each slot can still go back to: from the top of a slot,
`parent_pid` leads through live processes of that slot's terminal, each met once, down to one of the pids
`0` to `2`, which are never given up (`Stacked`). It does not say that the running process is the one of
the scheduled slot: `sys_execute` does not keep that.

* `RunInv.congr`, `RunInv.launch_child`, `RunInv.launch_shell`, `RunInv.resumeParent`, `RunInv.switchTo` :
  one lemma for each kind of change a step makes.
-/

namespace BasicOs
open Run LinkedStack

/-! ## The invariant -/

/-- One of the pids `0`, `1` and `2`. -/
def IsShell (p : Int) : Prop := 0 ≤ p ∧ p ≤ 2

instance (p : Int) : Decidable (IsShell p) := inferInstanceAs (Decidable (0 ≤ p ∧ p ≤ 2))

/-- A live process that was started on terminal `t`. -/
def IsChild (k : Kernel) (t : Fin 3) (p : Int) : Prop :=
  (3 ≤ p ∧ p ≤ 5) ∧ k.pidArray p = used ∧ (k.pcbs p).termId = t

/-- From `p`, parents lead through the children `l` of terminal `t` to a shell. -/
def LinkedFrom (k : Kernel) (t : Fin 3) : Int → List Int → Prop :=
  Linked (fun p => (k.pcbs p).parentPid) IsShell (IsChild k t)

/-- They do from the top of slot `t`, and meet each process once. -/
def Stacked (k : Kernel) (t : Fin 3) (l : List Int) : Prop :=
  LinkedFrom k t (k.schedulingArray t) l ∧ l.Nodup

structure RunInv (k : Kernel) : Prop where
  hasShell : HasShell k.fs
  shells : ∀ p, IsShell p → k.pidArray p = used
  own : ∀ p : Int, 0 ≤ p → p ≤ 5 → k.pidArray p = used → (k.pcbs p).currPid = p
  slot : ∃ t, k.schedulingArray t = k.currPid
  context : ContextSet k
  chains : ∀ t, ∃ l, Stacked k t l

/-- Control blocks that agree in what the invariant reads. -/
def SameFamily (a b : Pcb) : Prop := b.currPid = a.currPid ∧ b.parentPid = a.parentPid ∧ b.termId = a.termId

theorem SameLinks.sameFamily {a b : Pcb} (h : SameLinks a b) : SameFamily a b := by
  obtain ⟨_, _, rfl⟩ := h
  exact ⟨rfl, rfl, rfl⟩

variable {k k' : Kernel}

/-- A chain depends on the control blocks and the pids of its own nodes. -/
theorem LinkedFrom.congr {t : Fin 3} {top : Int} {l : List Int} (h : LinkedFrom k t top l)
    (hpcb : ∀ p ∈ l, SameFamily (k.pcbs p) (k'.pcbs p)) (hpid : ∀ p ∈ l, k'.pidArray p = k.pidArray p) :
    LinkedFrom k' t top l := by
  apply Linked.congr h (fun p hp => (hpcb p hp).2.1)
  intro p hp hc
  exact ⟨hc.1, (hpid p hp).trans hc.2.1, (hpcb p hp).2.2.trans hc.2.2⟩

theorem IsChild.congr {t : Fin 3} {p : Int} (h : IsChild k' t p) (hpid : k'.pidArray p = k.pidArray p)
    (hpcb : SameFamily (k.pcbs p) (k'.pcbs p)) : IsChild k t p :=
  ⟨h.1, hpid.symm.trans h.2.1, hpcb.2.2.symm.trans h.2.2⟩

theorem Stacked.top_range {t : Fin 3} {l : List Int} (h : Stacked k t l) :
    0 ≤ k.schedulingArray t ∧ k.schedulingArray t ≤ 5 := by
  rcases Linked.top_cases h.1 with h | h
  · exact ⟨h.1, h.2.trans (by decide)⟩
  · exact ⟨le_trans (by decide) h.1.1, h.1.2⟩

theorem RunInv.slot_range (h : RunInv k) (t : Fin 3) : 0 ≤ k.schedulingArray t ∧ k.schedulingArray t ≤ 5 := by
  obtain ⟨l, hl⟩ := h.chains t
  exact hl.top_range

theorem RunInv.slot_used (h : RunInv k) (t : Fin 3) : k.pidArray (k.schedulingArray t) = used := by
  obtain ⟨l, hl⟩ := h.chains t
  rcases Linked.top_cases hl.1 with ht | ht
  · exact h.shells _ ht
  · exact ht.2.1

theorem RunInv.currPid_range (h : RunInv k) : 0 ≤ k.currPid ∧ k.currPid ≤ 5 := by
  obtain ⟨t, ht⟩ := h.slot
  exact ht ▸ h.slot_range t

theorem RunInv.currPid_used (h : RunInv k) : k.pidArray k.currPid = used := by
  obtain ⟨t, ht⟩ := h.slot
  exact ht ▸ h.slot_used t

theorem RunInv.currPid_own (h : RunInv k) : (k.pcbs k.currPid).currPid = k.currPid :=
  h.own _ h.currPid_range.1 h.currPid_range.2 h.currPid_used

/-! ## The changes a step makes -/

/-- Everything the invariant reads is the same. -/
structure SameRunning (k k' : Kernel) : Prop where
  fs : k'.fs = k.fs
  pidArray : k'.pidArray = k.pidArray
  currPid : k'.currPid = k.currPid
  schedulingArray : k'.schedulingArray = k.schedulingArray
  esp0 : k'.tss.esp0 = k.tss.esp0
  page : k'.pageDirectory 32 = k.pageDirectory 32
  pcbs : ∀ p, SameFamily (k.pcbs p) (k'.pcbs p)

theorem RunInv.congr (h : RunInv k) (hs : SameRunning k k') : RunInv k' where
  hasShell := hs.fs ▸ h.hasShell
  shells p hp := by
    rw [hs.pidArray]
    exact h.shells p hp
  own p h0 h5 hu := by
    rw [hs.pidArray] at hu
    exact (hs.pcbs p).1.trans (h.own p h0 h5 hu)
  slot := by
    rw [hs.schedulingArray, hs.currPid]
    exact h.slot
  context := by
    refine ⟨?_, ?_⟩
    · unfold UserPageIs
      rw [hs.page, hs.currPid]
      exact h.context.1
    · rw [hs.esp0, hs.currPid]
      exact h.context.2
  chains t := by
    obtain ⟨l, hl⟩ := h.chains t
    refine ⟨l, ?_, hl.2⟩
    rw [hs.schedulingArray]
    exact hl.1.congr (fun p _ => hs.pcbs p) fun p _ => congrFun hs.pidArray p

theorem InputOnly.sameRunning {keys : Keys} (h : InputOnly { k with toKeys := keys } k') : SameRunning k k' := by
  obtain ⟨_, _, _, rfl⟩ := h
  exact ⟨rfl, rfl, rfl, rfl, rfl, rfl, fun _ => ⟨rfl, rfl, rfl⟩⟩

theorem sysVidmap_sameRunning (k : Kernel) (screenStart : Nat) : SameRunning k (sysVidmap k screenStart).1 := by
  have hstore : ∀ (k' : Kernel) (a : Nat) (c : UInt8), SameRunning k k' → SameRunning k (userStore k' a c) := by
    intro k' a c h
    unfold userStore
    split
    · exact ⟨h.fs, h.pidArray, h.currPid, h.schedulingArray, h.esp0, h.page, h.pcbs⟩
    · exact ⟨h.fs, h.pidArray, h.currPid, h.schedulingArray, h.esp0, h.page, h.pcbs⟩
  have hsame : SameRunning k k := ⟨rfl, rfl, rfl, rfl, rfl, rfl, fun _ => ⟨rfl, rfl, rfl⟩⟩
  have hmap : SameRunning k (mapVidmem k) := ⟨rfl, rfl, rfl, rfl, rfl, rfl, fun _ => ⟨rfl, rfl, rfl⟩⟩
  unfold sysVidmap
  split
  · exact hsame
  · exact hstore _ _ _ (hstore _ _ _ (hstore _ _ _ (hstore _ _ _ hmap)))

/-- The pids that a process can be started with are those from 3 on. -/
theorem RunInv.freePid_range (h : RunInv k) {pid : Int} (hpid : freePid k.pidArray = some pid) :
    3 ≤ pid ∧ pid ≤ 5 := by
  obtain ⟨⟨h0, h5⟩, hfree⟩ := freePid_eq_some hpid
  refine ⟨?_, h5⟩
  by_contra hlt
  rw [h.shells pid ⟨h0, by omega⟩] at hfree
  cases hfree

section Launch
variable (h : RunInv k) (inode entry : Nat) (args : List UInt8) (r : Regs)
include h

/-- A new child goes on top of the displayed terminal's stack. -/
theorem RunInv.launch_child {pid : Int} (hpid : freePid k.pidArray = some pid) :
    RunInv (launch k pid inode entry args r) := by
  obtain ⟨h3, h5⟩ := h.freePid_range hpid
  obtain ⟨⟨h0, -⟩, hfree⟩ := freePid_eq_some hpid
  have hnew : ∀ p, k.pidArray p = used → p ≠ pid := by
    rintro p hp rfl
    rw [hfree] at hp
    cases hp
  have hslot : launchSlot k pid = k.currTerm := if_neg (by omega)
  obtain ⟨hown, hterm, -, -, hparent⟩ := launch_pcb_self k pid inode entry args r
  have hother := fun p (hp : p ≠ pid) => (launch_pcb_of_ne k pid inode entry args r hp).sameFamily
  have hused : ∀ p, p ≠ pid → (launch k pid inode entry args r).pidArray p = k.pidArray p := by
    intro p hp
    rw [launch_pidArray, Function.update_of_ne hp]
  have hmem : ∀ t l, Stacked k t l → ∀ p ∈ l, p ≠ pid :=
    fun t l hl p hp => hnew p (Linked.node_of_mem hl.1 hp).2.1
  refine ⟨?_, fun p hp => ?_, fun p hp0 hp5 hu => ?_, ⟨k.currTerm, ?_⟩, ⟨?_, ?_⟩, fun t => ?_⟩
  · rw [launch_fs]
    exact h.hasShell
  · have hne : p ≠ pid := by
      rintro rfl
      exact absurd hp.2 (by omega)
    rw [hused p hne]
    exact h.shells p hp
  · by_cases hp : p = pid
    · rw [hp]
      exact hown
    · rw [hused p hp] at hu
      exact (hother p hp).1.trans (h.own p hp0 hp5 hu)
  · rw [launch_schedulingArray, hslot, Function.update_self, launch_currPid]
  · rw [launch_currPid]
    exact launch_userPageIs k pid inode entry args r h0
  · rw [launch_tss, launch_currPid]
  · obtain ⟨l, hl⟩ := h.chains t
    have hlink : LinkedFrom (launch k pid inode entry args r) t (k.schedulingArray t) l :=
      hl.1.congr (fun p hp => hother p (hmem t l hl p hp)) fun p hp => hused p (hmem t l hl p hp)
    by_cases ht : t = k.currTerm
    · subst ht
      refine ⟨pid :: l, ?_, List.nodup_cons.mpr ⟨fun hp => hmem _ l hl pid hp rfl, hl.2⟩⟩
      rw [launch_schedulingArray, hslot, Function.update_self]
      refine Linked.push hlink ⟨⟨h3, h5⟩, ?_, hterm.trans hslot⟩ (hparent (by omega))
      rw [launch_pidArray, Function.update_self]
    · refine ⟨l, ?_, hl.2⟩
      rw [launch_schedulingArray, hslot, Function.update_of_ne ht]
      exact hlink

end Launch

/-- The first free pid is the one that has none below it. -/
theorem freePid_eq {pidArray : Int → Int} {pid : Int} (hpid : IsShell pid) (hfree : pidArray pid = unused)
    (hlt : ∀ q, 0 ≤ q → q < pid → pidArray q ≠ unused) : freePid pidArray = some pid := by
  obtain ⟨h0, h2⟩ := hpid
  unfold freePid
  obtain rfl | rfl | rfl : pid = 0 ∨ pid = 1 ∨ pid = 2 := by omega
  · simp [hfree]
  · simp [hfree, hlt 0 (by decide) (by decide)]
  · simp [hfree, hlt 0 (by decide) (by decide), hlt 1 (by decide) (by decide)]

/-- The state in which a process has given back its pid. -/
structure Released (k k₁ : Kernel) : Prop where
  fs : k₁.fs = k.fs
  currPid : k₁.currPid = k.currPid
  currTerm : k₁.currTerm = k.currTerm
  scheduledProcess : k₁.scheduledProcess = k.scheduledProcess
  schedulingArray : k₁.schedulingArray = k.schedulingArray
  terminals : k₁.terminals = k.terminals
  pidArray : k₁.pidArray = Function.update k.pidArray k.currPid unused
  pcbs : ∀ p, SameLinks (k.pcbs p) (k₁.pcbs p)

theorem RunInv.released (h : RunInv k) (esp : Int) : Released k (releaseProcess k esp) := by
  obtain ⟨pcbs, hrel, hsame⟩ := releaseProcess_frame k esp
  rw [h.currPid_own] at hrel
  rw [hrel]
  exact ⟨rfl, rfl, rfl, rfl, rfl, rfl, rfl, hsame⟩

section Halt
variable {k₁ : Kernel} (h : RunInv k) (hr : Released k k₁)
include h hr

/-- A shell that halts gets its own pid back. -/
theorem RunInv.freePid_release (hcurr : k.currPid ≤ 2) : freePid k₁.pidArray = some k.currPid := by
  rw [hr.pidArray]
  apply freePid_eq ⟨h.currPid_range.1, hcurr⟩ (Function.update_self _ _ _)
  intro q h0 hq
  rw [Function.update_of_ne (ne_of_lt hq), h.shells q ⟨h0, by omega⟩]
  decide

/-- A shell that halts is started again, in the scheduled slot. -/
theorem RunInv.launch_shell (hcurr : k.currPid ≤ 2) (inode entry : Nat) (args : List UInt8) (r : Regs) :
    RunInv (launch k₁ k.currPid inode entry args r) := by
  have h0 := h.currPid_range.1
  have hslot : launchSlot k₁ k.currPid = k.scheduledProcess := by
    rw [launchSlot, if_pos hcurr, hr.scheduledProcess]
  have hpids : (launch k₁ k.currPid inode entry args r).pidArray = k.pidArray := by
    rw [launch_pidArray, hr.pidArray, Function.update_idem, ← h.currPid_used, Function.update_eq_self]
  have hslots : (launch k₁ k.currPid inode entry args r).schedulingArray =
      Function.update k.schedulingArray k.scheduledProcess k.currPid := by
    rw [launch_schedulingArray, hslot, hr.schedulingArray]
  have hother : ∀ p, p ≠ k.currPid →
      SameFamily (k.pcbs p) ((launch k₁ k.currPid inode entry args r).pcbs p) :=
    fun p hp => ((hr.pcbs p).trans (launch_pcb_of_ne k₁ k.currPid inode entry args r hp)).sameFamily
  refine ⟨?_, fun p hp => ?_, fun p hp0 hp5 hu => ?_, ⟨k.scheduledProcess, ?_⟩, ⟨?_, ?_⟩, fun t => ?_⟩
  · rw [launch_fs, hr.fs]
    exact h.hasShell
  · rw [hpids]
    exact h.shells p hp
  · by_cases hp : p = k.currPid
    · rw [hp]
      exact (launch_pcb_self k₁ k.currPid inode entry args r).1
    · rw [hpids] at hu
      exact (hother p hp).1.trans (h.own p hp0 hp5 hu)
  · rw [hslots, Function.update_self, launch_currPid]
  · rw [launch_currPid]
    exact launch_userPageIs k₁ k.currPid inode entry args r h0
  · rw [launch_tss, launch_currPid]
  · by_cases ht : t = k.scheduledProcess
    · refine ⟨[], ?_, List.nodup_nil⟩
      rw [hslots, ht, Function.update_self]
      exact ⟨h0, hcurr⟩
    · obtain ⟨l, hl⟩ := h.chains t
      refine ⟨l, ?_, hl.2⟩
      rw [hslots, Function.update_of_ne ht]
      refine hl.1.congr (fun p hp => hother p ?_) fun p _ => congrFun hpids p
      rintro rfl
      exact absurd (Linked.node_of_mem hl.1 hp).1.1 (by omega)

omit hr in
/-- A running process that is no shell is on top of its own terminal's stack. -/
theorem RunInv.currPid_stacked (hcurr : 2 < k.currPid) :
    k.schedulingArray (k.pcbs k.currPid).termId = k.currPid ∧ ∃ rest,
      LinkedFrom k (k.pcbs k.currPid).termId (k.pcbs k.currPid).parentPid rest ∧ (k.currPid :: rest).Nodup := by
  obtain ⟨t, ht⟩ := h.slot
  obtain ⟨l, hlink, hnodup⟩ := h.chains t
  rw [ht] at hlink
  obtain ⟨rest, rfl⟩ := Linked.exists_eq_cons hlink fun hp => absurd hp.2 (by omega)
  obtain rfl : (k.pcbs k.currPid).termId = t := hlink.2.1.2.2
  exact ⟨ht, rest, hlink.2.2, hnodup⟩

/-- A child that halts is taken from its terminal's stack, and its parent runs again. -/
theorem RunInv.resumeParent (hcurr : 2 < k.currPid) (v : Int) : RunInv (resumeParent k₁ v) := by
  obtain ⟨-, rest, htail, hnodup⟩ := h.currPid_stacked hcurr
  have hfam : ∀ p, SameFamily (k.pcbs p) (k₁.pcbs p) := fun p => (hr.pcbs p).sameFamily
  have hparent : (k₁.pcbs k₁.currPid).parentPid = (k.pcbs k.currPid).parentPid := by
    rw [hr.currPid]
    exact (hfam _).2.1
  have hterm : (k₁.pcbs k₁.currPid).termId = (k.pcbs k.currPid).termId := by
    rw [hr.currPid]
    exact (hfam _).2.2
  have hpids : ∀ p, p ≠ k.currPid → k₁.pidArray p = k.pidArray p := by
    intro p hp
    rw [hr.pidArray, Function.update_of_ne hp]
  have hq0 : 0 ≤ (k.pcbs k.currPid).parentPid := by
    rcases Linked.top_cases htail with hs | hc
    · exact hs.1
    · exact le_trans (by decide) hc.1.1
  refine ⟨?_, fun p hp => ?_, fun p hp0 hp5 hu => ?_, ⟨(k.pcbs k.currPid).termId, ?_⟩, ⟨?_, ?_⟩, fun u => ?_⟩
  · rw [resumeParent_fs, hr.fs]
    exact h.hasShell
  · have hne : p ≠ k.currPid := fun e => absurd hp.2 (by omega)
    rw [resumeParent_pidArray, hpids p hne]
    exact h.shells p hp
  · rw [resumeParent_pidArray] at hu
    have hne : p ≠ k.currPid := by
      rintro rfl
      rw [hr.pidArray, Function.update_self] at hu
      cases hu
    rw [hpids p hne] at hu
    exact (hfam p).1.trans (h.own p hp0 hp5 hu)
  · rw [resumeParent_schedulingArray, resumeParent_currPid, hterm, Function.update_self]
  · rw [resumeParent_currPid]
    exact resumeParent_userPageIs k₁ v (by rw [hparent]; exact hq0)
  · rw [resumeParent_tss, resumeParent_currPid]
  · -- the nodes below the top and those of the other stacks keep their pids
    unfold Stacked
    rw [resumeParent_schedulingArray, hterm, hparent, hr.schedulingArray]
    by_cases hu : u = (k.pcbs k.currPid).termId
    · rw [hu, Function.update_self]
      obtain ⟨hnot, hrest⟩ := List.nodup_cons.mp hnodup
      exact ⟨rest, htail.congr (fun p _ => hfam p) fun p hp => hpids p (ne_of_mem_of_not_mem hp hnot), hrest⟩
    · obtain ⟨l, hl⟩ := h.chains u
      have hnot : k.currPid ∉ l := fun hmem => hu (Linked.node_of_mem hl.1 hmem).2.2.symm
      rw [Function.update_of_ne hu]
      exact ⟨l, hl.1.congr (fun p _ => hfam p) fun p hp => hpids p (ne_of_mem_of_not_mem hp hnot), hl.2⟩

end Halt

theorem saveContext_sameRunning (k : Kernel) (r : Regs) : SameRunning k (saveContext k r) := by
  refine ⟨rfl, rfl, rfl, rfl, rfl, rfl, fun p => ?_⟩
  simp only [saveContext, Kernel.modifyPcb, Function.update_apply]
  split_ifs with hp
  · subst hp
    exact ⟨rfl, rfl, rfl⟩
  · exact ⟨rfl, rfl, rfl⟩

/-- A switch leaves the stacks alone and makes a top of one of them run. -/
theorem RunInv.switchTo (h : RunInv k) (next : Fin 3) : RunInv (switchTo k next) := by
  obtain ⟨pd, pt, vt, hsw, hpd⟩ := switchTo_frame k next
  have hpid : (k.pcbs (k.schedulingArray next)).currPid = k.schedulingArray next :=
    h.own _ (h.slot_range next).1 (h.slot_range next).2 (h.slot_used next)
  rw [hpid] at hsw
  rw [hsw]
  refine ⟨h.hasShell, h.shells, h.own, ⟨next, rfl⟩, ⟨?_, rfl⟩, h.chains⟩
  unfold UserPageIs
  dsimp only
  rw [hpd]
  exact mapUserProgram_userPageIs k (h.slot_range next).1

/-! ## Steps and runs -/

theorem RunInv.slot_ne (h : RunInv k) (t : Fin 3) : k.schedulingArray t ≠ -1 := by
  have := (h.slot_range t).1
  omega

/-- After boot `schedule` always gets to its last part. -/
theorem RunInv.pitHandler_eq (h : RunInv k) (r inner : Regs) (stale : Nat → UInt8) :
    pitHandler k r inner stale =
      some (BasicOs.switchTo (saveContext (sendEoi k 0) r) ((sendEoi k 0).scheduledProcess + 1)) := by
  have heoi := h.congr (sendEoi_devicesOnly k 0).inputOnly.sameRunning
  exact schedule_eq heoi.slot_ne r inner stale

theorem RunInv.pitHandler (h : RunInv k) {r inner : Regs} {stale : Nat → UInt8}
    (ht : pitHandler k r inner stale = some k') : RunInv k' := by
  have heoi := h.congr (sendEoi_devicesOnly k 0).inputOnly.sameRunning
  rw [h.pitHandler_eq r inner stale] at ht
  cases ht
  exact (heoi.congr (saveContext_sameRunning _ r)).switchTo _

theorem RunInv.sysHalt (h : RunInv k) {status : UInt8} {r : Regs} {stale : Nat → UInt8}
    (hh : sysHalt k status r stale = some k') : RunInv k' := by
  have hr := h.released r.esp
  by_cases hcurr : k.currPid ≤ 2
  · rcases sysHalt_shell hcurr h.hasShell (h.freePid_release hr hcurr) status stale with hf | ⟨inode, entry, he⟩
    · rw [hf] at hh
      cases hh
    · rw [he] at hh
      cases hh
      exact h.launch_shell hr hcurr inode entry [] r
  · have hchild : 2 < k.currPid := by omega
    obtain ⟨v, hv⟩ := sysHalt_child hchild status r stale
    rw [hv, Option.some_inj] at hh
    rw [← hh]
    exact h.resumeParent hr hchild v

/-- Every event keeps the invariant. -/
theorem RunInv.step (h : RunInv k) {e : Event} (hs : step k e = some k') : RunInv k' := by
  unfold BasicOs.step at hs
  cases e with
  | tick r inner stale => exact h.pitHandler hs
  | key scancode r stale fmt =>
    obtain ⟨⟨k₁, halts⟩, hk, hs⟩ := Option.bind_eq_some_iff.mp hs
    obtain ⟨keys, hin, -⟩ := keyboardHandler_inputOnly hk
    have h₁ := h.congr hin.sameRunning
    dsimp only at hs
    split at hs
    · exact h₁.sysHalt hs
    · cases hs
      exact h₁
  | execute command r stale =>
    dsimp only at hs
    rcases sysExecute_cases k command r stale with ⟨_, he⟩ | ⟨v, he⟩ | ⟨pid, inode, entry, args, hpid, he⟩
    · rw [he] at hs
      cases hs
    · rw [he] at hs
      cases hs
      exact h
    · rw [he] at hs
      cases hs
      exact h.launch_child inode entry args r hpid
  | halt status r stale => exact h.sysHalt hs
  | vidmap screenStart =>
    rw [← Option.some.inj hs]
    exact h.congr (sysVidmap_sameRunning k screenStart)
  | switch nextTerm =>
    rw [← Option.some.inj hs]
    exact h.congr (switchTerminals_ttyOnly k nextTerm).inputOnly.sameRunning

theorem RunInv.of_booted (h : Booted k) (hshell : HasShell k.fs) : RunInv k where
  hasShell := hshell
  shells p hp := by
    rw [h.shells.pids p hp.1 (hp.2.trans (by decide)), if_pos]
    have := hp.2
    omega
  own p h0 h5 hu := by
    rw [h.shells.pids p h0 h5] at hu
    split_ifs at hu with hp
    · exact h.shells.own p h0 hp
    · cases hu
  slot := by
    refine ⟨k.scheduledProcess, ?_⟩
    rw [h.shells.slots, if_pos k.scheduledProcess.isLt, h.current]
  context := h.context
  chains t := by
    refine ⟨[], ?_, List.nodup_nil⟩
    rw [h.shells.slots, if_pos t.isLt]
    exact ⟨by omega, by omega⟩

/-- **Running-context consistency.** From boot on, in every state that ticks, keys, system calls and
terminal switches lead to, the pids the scheduler knows are in use, and the running process has its own
control block, page and kernel stack. -/
theorem running_consistent {k₀ k : Kernel} (hboot : Booted k₀) (hshell : HasShell k₀.fs)
    (hrun : Reach step (fun _ _ => True) k₀ k) :
    (0 ≤ k.currPid ∧ k.currPid ≤ 5 ∧ k.pidArray k.currPid = used) ∧
      (∀ t, 0 ≤ k.schedulingArray t ∧ k.schedulingArray t ≤ 5 ∧ k.pidArray (k.schedulingArray t) = used) ∧
      (k.pidArray 0 = used ∧ k.pidArray 1 = used ∧ k.pidArray 2 = used) ∧
      (k.pcbs k.currPid).currPid = k.currPid ∧
      UserPageIs k k.currPid ∧ k.tss.esp0 = 0x800000 - k.currPid * 0x2000 := by
  have h : RunInv k := hrun.invariant (RunInv.of_booted hboot hshell) fun _ _ _ hk _ hs => hk.step hs
  refine ⟨⟨h.currPid_range.1, h.currPid_range.2, h.currPid_used⟩,
    fun t => ⟨(h.slot_range t).1, (h.slot_range t).2, h.slot_used t⟩, ⟨?_, ?_, ?_⟩, h.currPid_own, h.context⟩
  · exact h.shells 0 (by decide)
  · exact h.shells 1 (by decide)
  · exact h.shells 2 (by decide)

/-- The state after the running shell has started another one, as pid 3. -/
theorem running_consistent_shell : ∃ k₀ k, shellBoot = some k₀ ∧ Reach step (fun _ _ => True) k₀ k ∧
    k.currPid = 3 ∧ k.pidArray 3 = used ∧ UserPageIs k 3 ∧ k.tss.esp0 = 0x7FA000 := by
  obtain ⟨k₀, hk₀, hboot, hfs⟩ := shellBoot_booted
  obtain ⟨inode, entry, hk⟩ := hboot.sysExecute_shell hfs ⟨0x7FFFC0, 0x7FFFE8⟩ fun _ => 0
  have hrun : Reach step (fun _ _ => True) k₀ _ := .tail _ (.refl k₀) trivial hk
  obtain ⟨⟨-, -, hused⟩, -, -, -, hpage, hesp⟩ := running_consistent hboot (hfs ▸ hasShell_shellImage) hrun
  rw [launch_currPid] at hused hpage hesp
  exact ⟨k₀, _, hk₀, hrun, launch_currPid _ _ _ _ _ _, hused, hpage, hesp⟩

end BasicOs
