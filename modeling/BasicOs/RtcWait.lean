import BasicOs.Interrupts

/-!
# Waiting for the real-time clock

`rtc_read` in two steps, for processes that are switched while they wait: it clears the one flag
`rtc_interrupt_occurred` and then tests it until it is set.

* `Waits`, `rtcStep` : the kernel with the processes that are in the loop; a process begins a read or tests the
  flag, the RTC interrupts, or another process is switched to;
* `noteInterrupt` : an observer that knows, of each wait, whether an interrupt has come since it began;
* `tick_is_switch`, `rtcRead_alone` : ticks of the scheduler and undisturbed reads are such steps;
* `wakeups_kept` : no interrupt is lost in runs where no read begins while the flag is set for another process.
-/

namespace BasicOs
open Run

/-! ## The two steps of `rtc_read` -/

/-- `rtc_read` up to its loop. -/
def rtcReadBegin (k : Kernel) : Kernel := { k with rtcInterruptOccurred := false }

/-- The loop of `rtc_read` ends. -/
def rtcReadEnds (k : Kernel) : Bool := k.rtcInterruptOccurred

/-- The kernel, and the pids of the processes that are in the loop of `rtc_read`. -/
structure Waits where
  kernel : Kernel
  waiting : Int → Bool

/-- The running process begins a read, or tests the flag in its loop; an interrupt of the RTC; or anything that
leaves the flag alone, such as a switch to another process. -/
inductive RtcEvent
  | begin
  | poll
  | interrupt
  | switch (k' : Kernel)

def rtcStep (s : Waits) : RtcEvent → Option Waits
  | .begin =>
    if s.waiting s.kernel.currPid then none
    else some ⟨rtcReadBegin s.kernel, Function.update s.waiting s.kernel.currPid true⟩
  | .poll =>
    if s.waiting s.kernel.currPid then
      some { s with waiting := Function.update s.waiting s.kernel.currPid (!rtcReadEnds s.kernel) }
    else none
  | .interrupt => some { s with kernel := rtcHandler s.kernel }
  | .switch k' => some { s with kernel := { k' with rtcInterruptOccurred := s.kernel.rtcInterruptOccurred } }

/-- The observer: for a pid that waits, whether the RTC has interrupted since its wait began. -/
def noteInterrupt (g : Int → Bool) (s : Waits) (e : RtcEvent) (_ : Waits) : Int → Bool :=
  match e with
  | .begin => Function.update g s.kernel.currPid false
  | .interrupt => fun p => g p || s.waiting p
  | .poll | .switch _ => g

/-- A tick of the scheduler is a switch. -/
theorem tick_is_switch {k k' : Kernel} {r inner : Regs} {stale : Nat → UInt8}
    (h : pitHandler k r inner stale = some k') (w : Int → Bool) :
    rtcStep ⟨k, w⟩ (.switch k') = some ⟨k', w⟩ := by
  have hflag : k'.rtcInterruptOccurred = k.rtcInterruptOccurred := by
    rw [schedule_toDevices h]
    rfl
  unfold rtcStep
  dsimp only
  rw [← hflag]

/-- A read that nothing disturbs is a begin, an interrupt and a test that ends it. -/
theorem rtcRead_alone (k : Kernel) (w : Int → Bool) (hw : w k.currPid = false) :
    [RtcEvent.begin, .interrupt, .poll].foldlM rtcStep ⟨k, w⟩ = some ⟨(rtcRead k).1, w⟩ := by
  have hpoll : rtcStep ⟨(rtcRead k).1, Function.update w k.currPid true⟩ .poll = some ⟨(rtcRead k).1, w⟩ := by
    have hcurr : (rtcRead k).1.currPid = k.currPid := rfl
    have hends : rtcReadEnds (rtcRead k).1 = true := rfl
    unfold rtcStep
    dsimp only
    rw [hcurr, if_pos (Function.update_self _ _ _), hends, Function.update_idem, Bool.not_true, ← hw,
      Function.update_eq_self]
  have hbegin : rtcStep ⟨k, w⟩ .begin = some ⟨rtcReadBegin k, Function.update w k.currPid true⟩ := by
    unfold rtcStep
    exact if_neg (show ¬ w k.currPid = true by rw [hw]; decide)
  rw [List.foldlM_cons, hbegin, Option.bind_eq_bind, Option.bind_some, List.foldlM_cons]
  exact (bind_pure _).trans hpoll

/-! ## Wake-ups -/

/-- Every process that waits, and has had an interrupt since it began to, finds the flag set. -/
def NoLoss (s : Waits) (g : Int → Bool) : Prop :=
  ∀ p, s.waiting p = true → g p = true → rtcReadEnds s.kernel = true

/-- No read begins while the flag is set and another process is in the loop. -/
def ReadReady (s : Waits) : RtcEvent → Prop
  | .begin => s.kernel.rtcInterruptOccurred = true → ∀ p, p ≠ s.kernel.currPid → s.waiting p = false
  | .poll | .interrupt | .switch _ => True

/-- For each process that waits, the flag tells whether it has had an interrupt. -/
def FlagTells (s : Waits) (g : Int → Bool) : Prop := ∀ p, s.waiting p = true → g p = rtcReadEnds s.kernel

theorem FlagTells.noLoss {s : Waits} {g : Int → Bool} (h : FlagTells s g) : NoLoss s g := by
  intro p hw hg
  rw [← h p hw, hg]

theorem rtcStep_begin {s s' : Waits} (h : rtcStep s .begin = some s') : s.waiting s.kernel.currPid = false ∧
    s' = ⟨rtcReadBegin s.kernel, Function.update s.waiting s.kernel.currPid true⟩ := by
  unfold rtcStep at h
  dsimp only at h
  split_ifs at h with hw
  cases h
  exact ⟨by simpa using hw, rfl⟩

theorem rtcStep_poll {s s' : Waits} (h : rtcStep s .poll = some s') : s.waiting s.kernel.currPid = true ∧
    s' = { s with waiting := Function.update s.waiting s.kernel.currPid (!rtcReadEnds s.kernel) } := by
  unfold rtcStep at h
  dsimp only at h
  split_ifs at h with hw
  cases h
  exact ⟨hw, rfl⟩

/-- What the flag tells stays right, in a step that meets the condition. -/
theorem FlagTells.step {s s' : Waits} {g : Int → Bool} {e : RtcEvent} (h : FlagTells s g) (hr : ReadReady s e)
    (hs : rtcStep s e = some s') : FlagTells s' (noteInterrupt g s e s') := by
  intro p hp
  cases e with
  | begin =>
    obtain ⟨-, rfl⟩ := rtcStep_begin hs
    by_cases hq : p = s.kernel.currPid
    · rw [hq]
      exact Function.update_self _ _ _
    · have hw : s.waiting p = true := (Function.update_of_ne hq _ _).symm.trans hp
      have hflag : s.kernel.rtcInterruptOccurred = false := by
        by_contra hset
        rw [hr (by simpa using hset) p hq] at hw
        cases hw
      calc noteInterrupt g s .begin _ p = g p := Function.update_of_ne hq _ _
        _ = false := (h p hw).trans hflag
  | poll =>
    obtain ⟨hw, rfl⟩ := rtcStep_poll hs
    apply h p
    by_cases hq : p = s.kernel.currPid
    · rw [hq, hw]
    · exact (Function.update_of_ne hq _ _).symm.trans hp
  | interrupt =>
    cases hs
    have hw : s.waiting p = true := hp
    calc (g p || s.waiting p) = true := by rw [hw, Bool.or_true]
      _ = rtcReadEnds (rtcHandler s.kernel) := rfl
  | switch k' =>
    cases hs
    exact h p hp

/-- A read that begins against the condition erases an interrupt. -/
theorem FlagTells.lost {s s' : Waits} {g : Int → Bool} (h : FlagTells s g) (hr : ¬ ReadReady s .begin)
    (hs : rtcStep s .begin = some s') : ¬ NoLoss s' (noteInterrupt g s .begin s') := by
  intro hkept
  apply hr
  intro hflag p hq
  by_contra hw
  obtain ⟨-, rfl⟩ := rtcStep_begin hs
  have hwait : s.waiting p = true := by simpa using hw
  have hends := hkept p ((Function.update_of_ne hq _ _).trans hwait)
    ((Function.update_of_ne hq _ _).trans ((h p hwait).trans hflag))
  cases hends

/-- **No wake-up is lost.** From a state where nobody waits, in every run of reads, interrupts and switches whose
reads meet the condition, a process that has had an interrupt since it began to wait finds the flag set, and leaves
its loop when it runs. In each state reached a read can begin without erasing an interrupt that a waiting process
has not seen if and only if it meets the condition. -/
theorem wakeups_kept {k : Kernel} {s : Waits} {g : Int → Bool}
    (h : Reach (observed rtcStep noteInterrupt) (fun p e => ReadReady p.1 e)
      (⟨k, fun _ => false⟩, fun _ => false) (s, g)) :
    NoLoss s g ∧
    (s.waiting s.kernel.currPid = true → g s.kernel.currPid = true →
      ∃ s', rtcStep s .poll = some s' ∧ s'.waiting s.kernel.currPid = false) ∧
    ∀ s', rtcStep s .begin = some s' → (NoLoss s' (noteInterrupt g s .begin s') ↔ ReadReady s .begin) := by
  have hinv : FlagTells s g := by
    apply h.invariant (I := fun p => FlagTells p.1 p.2) (fun p hp => (nomatch hp))
    intro p e q hi hok hs
    obtain ⟨hstep, hg⟩ := observed_eq_some.mp hs
    rw [hg]
    exact hi.step hok hstep
  refine ⟨hinv.noLoss, ?_, ?_⟩
  · intro hw hg
    have hends : rtcReadEnds s.kernel = true := hinv.noLoss _ hw hg
    refine ⟨_, if_pos hw, ?_⟩
    exact (Function.update_self _ _ _).trans (by rw [hends]; rfl)
  · intro s' hs
    refine ⟨fun hkept => ?_, fun hr => (hinv.step hr hs).noLoss⟩
    by_contra hr
    exact hinv.lost hr hs hkept

/-- A kernel in which the process `pid` runs. -/
def runningAs (pid : Int) : Kernel := { Kernel.atLoad FileSystem.shellImage with currPid := pid }

/-- The processes that wait and what the observer knows, after a list of events from a kernel where process 3 runs;
`none` when a step cannot be taken or fails the check. -/
def waitRun (check : Waits → RtcEvent → Bool) (es : List RtcEvent) : Option (Waits × (Int → Bool)) :=
  es.foldlM (fun p e => if check p.1 e = true then observed rtcStep noteInterrupt p e else none)
    (⟨runningAs 3, fun _ => false⟩, fun _ => false)

/-- A check that is enough for the condition: reads begin while the flag is clear. -/
def readCheck (s : Waits) : RtcEvent → Bool
  | .begin => !s.kernel.rtcInterruptOccurred
  | .poll | .interrupt | .switch _ => true

theorem readCheck_sound (s : Waits) (e : RtcEvent) (h : readCheck s e = true) : ReadReady s e := by
  cases e with
  | begin =>
    intro hflag
    rw [readCheck, hflag] at h
    cases h
  | poll => trivial
  | interrupt => trivial
  | switch k' => trivial

theorem waitRun_reach (es : List RtcEvent) {s : Waits} {g : Int → Bool} (h : waitRun readCheck es = some (s, g)) :
    Reach (observed rtcStep noteInterrupt) (fun p e => ReadReady p.1 e)
      (⟨runningAs 3, fun _ => false⟩, fun _ => false) (s, g) :=
  Reach.of_foldlM (fun (p : Waits × (Int → Bool)) e => readCheck p.1 e) (fun p e => readCheck_sound p.1 e) es
    (.refl _) h

/-- Processes 3 and 4 wait together and one interrupt wakes both. -/
theorem wakeups_kept_two : ∃ s g, waitRun readCheck [.begin, .switch (runningAs 4), .begin, .interrupt, .poll,
      .switch (runningAs 3)] = some (s, g) ∧
    s.waiting 3 = true ∧ g 3 = true ∧ s.waiting 4 = false ∧
    ∃ s', rtcStep s .poll = some s' ∧ s'.waiting 3 = false := by
  refine ⟨_, _, rfl, rfl, rfl, rfl, ?_⟩
  exact (wakeups_kept (waitRun_reach [.begin, .switch (runningAs 4), .begin, .interrupt, .poll,
    .switch (runningAs 3)] rfl)).2.1 rfl rfl

/-- Process 3 waits and is preempted; the RTC interrupts; process 4 begins a read; process 3 is scheduled again and
finds the flag clear. -/
theorem wakeup_lost : ∃ s g, waitRun (fun _ _ => true) [.begin, .switch (runningAs 4), .interrupt, .begin,
      .switch (runningAs 3)] = some (s, g) ∧
    s.kernel.currPid = 3 ∧ s.waiting 3 = true ∧ g 3 = true ∧ rtcReadEnds s.kernel = false :=
  ⟨_, _, rfl, rfl, rfl, rfl, rfl⟩

end BasicOs
