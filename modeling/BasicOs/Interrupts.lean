import BasicOs.Lib.Pic
import BasicOs.KeySwitch
import BasicOs.Machine

/-!
# Interrupts and their acknowledgement

The three hardware interrupts of the kernel, on the lines 0 (PIT), 1 (keyboard) and 8 (RTC), and the two PICs
that deliver them.

* `leave` : the state in which control leaves a handler, by its return, by `sys_halt` or by a switch of stacks;
* `handle` : the state the CPU then goes on in;
* `Irq.Served` : the scancode of a keyboard interrupt is at most `0xD8`, and the case of the key ends;
* `irqStep` : interrupts that the PICs deliver, with anything in between that sends them no command;
* `acknowledged_iff` : exactly then the handler is left, with the end of interrupt of its line sent and nothing else;
* `interrupts_acknowledged` : in runs of such interrupts no line stays in service.
-/

namespace BasicOs
open Run Pic

/-! ## The handlers -/

inductive Irq
  | keyboard (scancode : UInt8) (r : Regs) (stale : Nat → UInt8) (fmt : List UInt8 → Option (List UInt8))
  | rtc
  | pit (r inner : Regs) (stale : Nat → UInt8)

/-- The line of the PICs. -/
def Irq.line : Irq → Nat
  | .keyboard .. => keyboardIrqLine
  | .rtc => 8
  | .pit .. => 0

/-- What `printf` prints for the names that Tab lists. -/
def printed (fmt : List UInt8 → Option (List UInt8)) (name : List UInt8) : List UInt8 := (fmt name).getD []

/-- The state in which control leaves the handler: it returns, calls `sys_halt` or switches stacks. The PIT's handler
sends its end of interrupt first; where `schedule` then faults, that is the state it is left in. `none` when the
keyboard's handler leaves its arrays, or a `printf` of a name faults. -/
def leave (k : Kernel) : Irq → Option Kernel
  | .keyboard scancode _ stale fmt =>
    if ListingEnds k scancode stale fmt then (keyboardHandler k scancode stale (printed fmt)).map Prod.fst else none
  | .rtc => some (rtcHandler k)
  | .pit r inner stale => some ((pitHandler k r inner stale).getD (sendEoi k 0))

/-- The state the CPU goes on in after the interrupt. -/
def handle (k : Kernel) : Irq → Option Kernel
  | .keyboard scancode r stale fmt =>
    if ListingEnds k scancode stale fmt then step k (.key scancode r stale (printed fmt)) else none
  | .rtc => some (rtcHandler k)
  | .pit r inner stale => step k (.tick r inner stale)

/-- The commands sent to the PICs from `k` to `k'`, oldest first. -/
def sent (k k' : Kernel) : List (Nat × Nat) := (k'.picOut.take (k'.picOut.length - k.picOut.length)).reverse

/-- From `k` to `k'` the PICs got one specific end of interrupt for `line`, with that of the cascade for a line of
the slave, and no other command. -/
def Acknowledged (line : Nat) (k k' : Kernel) : Prop := k'.picOut = (eoiCommands line).reverse ++ k.picOut

theorem Acknowledged.sent {line : Nat} {k k' : Kernel} (h : Acknowledged line k k') :
    sent k k' = eoiCommands line := by
  unfold BasicOs.sent
  rw [h, List.length_append, Nat.add_sub_cancel, List.take_left, List.reverse_reverse]

theorem sendEoi_acknowledged (k : Kernel) {line : Nat} (h : line = 0 ∨ line = 1 ∨ line = 8) :
    Acknowledged line k (sendEoi k line) := by
  rcases h with rfl | rfl | rfl
  · rfl
  · rfl
  · rfl

/-- An invocation of the keyboard's handler that passes the bounds check on the scancode; the other handlers make
none. -/
def Irq.InBounds : Irq → Prop
  | .keyboard scancode .. => scancode ≤ 0xD8
  | .rtc | .pit .. => True

/-- The case of the key ends; the other handlers have no such cases. -/
def Irq.Ends (k : Kernel) : Irq → Prop
  | .keyboard scancode _ stale fmt => CaseEnds k scancode stale ∧ ListingEnds k scancode stale fmt
  | .rtc | .pit .. => True

def Irq.Served (k : Kernel) (i : Irq) : Prop := i.InBounds ∧ i.Ends k

/-! ## What the handlers send -/

theorem sysHalt_toDevices {k k' : Kernel} {status : UInt8} {r : Regs} {stale : Nat → UInt8}
    (h : sysHalt k status r stale = some k') : k'.toDevices = k.toDevices := by
  obtain ⟨_, hrel, -⟩ := releaseProcess_frame k r.esp
  have hrel' : (releaseProcess k r.esp).toDevices = k.toDevices := by
    rw [hrel]
    rfl
  rcases sysHalt_cases h with ⟨v, rfl⟩ | ⟨pid, inode, entry, args, rfl⟩
  · rw [resumeParent_toDevices, hrel']
  · rw [launch_toDevices, hrel']

theorem schedule_toDevices {k k' : Kernel} {r inner : Regs} {stale : Nat → UInt8}
    (h : schedule k r inner stale = some k') : k'.toDevices = k.toDevices := by
  rcases schedule_cases h with rfl | ⟨k₀, -, -, hd, hk⟩
  · obtain ⟨_, _, _, hsw, -⟩ := switchTo_frame (saveContext k r) (k.scheduledProcess + 1)
    rw [hsw]
    rfl
  · obtain ⟨_, _, _, hv, -⟩ := schedulingVidmap_frame k₀ k₀.scheduledProcess k₀.currTerm
    have hv' : (schedulingVidmap k₀ k₀.scheduledProcess k₀.currTerm).toDevices = k.toDevices := by
      rw [hv, ← hd]
    rcases hk with rfl | ⟨pid, inode, entry, args, rfl⟩
    · exact hv'
    · rw [launch_toDevices, hv']

/-- The keyboard's handler acknowledges its interrupt after the `switch`, before it halts anything; the early
return on a scancode out of bounds sends nothing. -/
theorem keyboardHandler_picOut {k k' : Kernel} {scancode : UInt8} {stale : Nat → UInt8}
    {fmt : List UInt8 → List UInt8} {halts : Bool} (h : keyboardHandler k scancode stale fmt = some (k', halts)) :
    k'.picOut = if scancode ≤ 0xD8 then (sendEoi k keyboardIrqLine).picOut else k.picOut := by
  unfold keyboardHandler at h
  by_cases hs : scancode > 0xD8
  · rw [if_pos hs] at h
    cases h
    rw [if_neg (UInt8.not_le.mpr hs)]
  · rw [if_neg hs] at h
    rw [if_pos (UInt8.not_lt.mp hs)]
    obtain ⟨k₁, h₁, h⟩ := Option.map_eq_some_iff.mp h
    obtain ⟨_, -, -, _, _, rfl⟩ := dispatchKey_ttyOnly h₁
    dsimp only at h
    split_ifs at h
    · cases h
      rfl
    · cases h
      rfl

/-- A handler is left unless its key is in bounds and the case does not end. -/
theorem leave_isSome_iff (k : Kernel) (i : Irq) : (leave k i).isSome ↔ (i.InBounds → i.Ends k) := by
  cases i with
  | rtc => exact iff_of_true rfl fun _ => trivial
  | pit r inner stale => exact iff_of_true rfl fun _ => trivial
  | keyboard scancode r stale fmt =>
    unfold leave Irq.InBounds Irq.Ends keyboardHandler
    dsimp only
    by_cases hs : scancode > 0xD8
    · have hlist : ListingEnds k scancode stale fmt := by
        unfold ListingEnds
        rw [listed_of_ne_tab]
        · exact fun _ h => absurd h List.not_mem_nil
        · rw [(letterPressed_high (k := k) hs).1]
          exact KeyCase.noConfusion
      rw [if_pos hlist, if_pos hs]
      exact iff_of_true rfl fun h => absurd h (UInt8.not_le.mpr hs)
    · rw [if_neg hs, forall_prop_of_true (UInt8.not_lt.mp hs), ← dispatchKey_isSome_iff k scancode stale (printed fmt)]
      by_cases hlist : ListingEnds k scancode stale fmt
      · rw [if_pos hlist, and_iff_left hlist, Option.isSome_map, Option.isSome_map]
      · rw [if_neg hlist]
        exact iff_of_false Bool.false_ne_true fun h => hlist h.2

theorem leave_keyboard {k k' : Kernel} {scancode : UInt8} {r : Regs} {stale : Nat → UInt8}
    {fmt : List UInt8 → Option (List UInt8)} (h : leave k (.keyboard scancode r stale fmt) = some k') :
    ListingEnds k scancode stale fmt ∧ ∃ halts, keyboardHandler k scancode stale (printed fmt) = some (k', halts) := by
  unfold leave at h
  dsimp only at h
  split_ifs at h with hlist
  obtain ⟨⟨k₁, halts⟩, hk, rfl⟩ := Option.map_eq_some_iff.mp h
  exact ⟨hlist, halts, hk⟩

/-- A handler that is left has acknowledged its interrupt, exactly, if and only if its scancode was in bounds. -/
theorem leave_acknowledged {k k' : Kernel} {i : Irq} (h : leave k i = some k') :
    Acknowledged i.line k k' ↔ i.InBounds := by
  cases i with
  | keyboard scancode r stale fmt =>
    obtain ⟨-, halts, hk⟩ := leave_keyboard h
    have hout := keyboardHandler_picOut hk
    unfold Acknowledged Irq.InBounds
    rw [hout]
    split_ifs with hs
    · exact ⟨fun _ => hs, fun _ => sendEoi_acknowledged k (Or.inr (Or.inl rfl))⟩
    · refine ⟨fun he => ?_, fun hb => absurd hb hs⟩
      have := congrArg List.length he
      rw [List.length_append] at this
      exact absurd this (by simp [eoiCommands, Irq.line, keyboardIrqLine])
  | rtc =>
    cases h
    exact ⟨fun _ => trivial, fun _ => rfl⟩
  | pit r inner stale =>
    refine ⟨fun _ => trivial, fun _ => ?_⟩
    rw [← Option.some.inj h]
    cases hp : pitHandler k r inner stale with
    | none => exact sendEoi_acknowledged k (Or.inl rfl)
    | some k₁ =>
      have hd := schedule_toDevices hp
      show k₁.picOut = _
      rw [hd]
      exact sendEoi_acknowledged k (Or.inl rfl)

/-- A handler is left with its interrupt acknowledged exactly if the interrupt meets the condition. -/
theorem acknowledged_iff (k : Kernel) (i : Irq) :
    (∃ k', leave k i = some k' ∧ Acknowledged i.line k k') ↔ i.Served k := by
  constructor
  · rintro ⟨k', hk, hack⟩
    have hin := (leave_acknowledged hk).mp hack
    exact ⟨hin, (leave_isSome_iff k i).mp (Option.isSome_of_eq_some hk) hin⟩
  · rintro ⟨hin, hends⟩
    obtain ⟨k', hk⟩ := Option.isSome_iff_exists.mp ((leave_isSome_iff k i).mpr fun _ => hends)
    exact ⟨k', hk, (leave_acknowledged hk).mpr hin⟩

/-- Of the handlers that are left, only the keyboard's, on a scancode out of bounds, has sent nothing. -/
theorem leave_unserved {k k' : Kernel} {i : Irq} (h : leave k i = some k') (hi : ¬ i.Served k) :
    i.line = keyboardIrqLine ∧ sent k k' = [] := by
  have hin : ¬ i.InBounds := fun hin => hi ⟨hin, (leave_isSome_iff k i).mp (Option.isSome_of_eq_some h) hin⟩
  cases i with
  | rtc => exact absurd trivial hin
  | pit r inner stale => exact absurd trivial hin
  | keyboard scancode r stale fmt =>
    obtain ⟨-, halts, hk⟩ := leave_keyboard h
    have hout := keyboardHandler_picOut hk
    rw [if_neg (show ¬ scancode ≤ 0xD8 from hin)] at hout
    refine ⟨rfl, ?_⟩
    unfold sent
    rw [hout, Nat.sub_self]
    rfl

/-- What runs after the handler, a `sys_halt` at most, sends nothing. -/
theorem handle_picOut {k k' : Kernel} {i : Irq} (h : handle k i = some k') :
    ∃ k₁, leave k i = some k₁ ∧ k'.picOut = k₁.picOut := by
  cases i with
  | keyboard scancode r stale fmt =>
    unfold handle at h
    dsimp only at h
    split_ifs at h with hlist
    obtain ⟨⟨k₁, halts⟩, hk, h⟩ := Option.bind_eq_some_iff.mp h
    refine ⟨k₁, by rw [leave, if_pos hlist, hk, Option.map_some], ?_⟩
    dsimp only at h
    split_ifs at h
    · rw [sysHalt_toDevices h]
    · cases h
      rfl
  | rtc =>
    rw [handle] at h
    exact ⟨k', by rw [leave, h], rfl⟩
  | pit r inner stale =>
    rw [handle, step] at h
    exact ⟨k', by rw [leave, h, Option.getD_some], rfl⟩

/-! ## Runs -/

/-- An interrupt whose handler is left; one whose handler leaves its arrays or faults, after which anything may follow;
or whatever else changes the kernel between two of them: the rest of `sys_halt`, programs and system calls, which send
nothing to the PICs. -/
inductive IrqEvent
  | irq (i : Irq)
  | overrun (i : Irq) (s' : Kernel × Pics)
  | between (k' : Kernel)

/-- The kernel beside the PICs. An interrupt is delivered when nothing in service holds it back; its line is then
in service, until the handler ends it. -/
def irqStep (s : Kernel × Pics) : IrqEvent → Option (Kernel × Pics)
  | .irq i =>
    if s.2.delivers i.line then
      (leave s.1 i).map fun k' => (k', (sent s.1 k').foldl Pics.command (s.2.accept i.line))
    else none
  | .overrun i s' => if s.2.delivers i.line ∧ (leave s.1 i).isNone then some s' else none
  | .between k' => some ({ k' with picOut := s.1.picOut }, s.2)

/-- The interrupt meets the condition. -/
def IrqEvent.Served (k : Kernel) : IrqEvent → Prop
  | .irq i | .overrun i _ => i.Served k
  | .between _ => True

theorem irqStep_irq {s s' : Kernel × Pics} {i : Irq} (h : irqStep s (.irq i) = some s') :
    s.2.delivers i.line ∧ leave s.1 i = some s'.1 ∧
      s'.2 = (sent s.1 s'.1).foldl Pics.command (s.2.accept i.line) := by
  unfold irqStep at h
  dsimp only at h
  split_ifs at h with hd
  obtain ⟨k', hk, rfl⟩ := Option.map_eq_some_iff.mp h
  exact ⟨hd, hk, rfl⟩

theorem irqStep_overrun {s s' t : Kernel × Pics} {i : Irq} (h : irqStep s (.overrun i t) = some s') :
    s.2.delivers i.line ∧ leave s.1 i = none := by
  unfold irqStep at h
  dsimp only at h
  split_ifs at h with hd
  exact ⟨hd.1, Option.isNone_iff_eq_none.mp hd.2⟩

/-- The CPU comes to the state after the interrupt by such steps. -/
theorem handle_steps {k k' : Kernel} {p : Pics} {i : Irq} (hd : p.delivers i.line) (h : handle k i = some k') :
    ∃ s, irqStep (k, p) (.irq i) = some s ∧ irqStep s (.between k') = some (k', s.2) := by
  obtain ⟨k₁, hk₁, hout⟩ := handle_picOut h
  refine ⟨_, by rw [irqStep, if_pos hd, hk₁, Option.map_some], ?_⟩
  rw [irqStep, ← hout]

theorem Irq.line_lt (i : Irq) : i.line < 16 := by
  cases i with
  | keyboard scancode r stale fmt => exact show keyboardIrqLine < 16 by decide
  | rtc => exact show 8 < 16 by decide
  | pit r inner stale => exact show 0 < 16 by decide

/-- After an interrupt that meets the condition the PICs are as before it. -/
theorem irqStep_pics {s s' : Kernel × Pics} {e : IrqEvent} (he : e.Served s.1) (h : irqStep s e = some s') :
    s'.2 = s.2 := by
  cases e with
  | irq i =>
    obtain ⟨hd, hk, hp⟩ := irqStep_irq h
    have hack : Acknowledged i.line s.1 s'.1 := (leave_acknowledged hk).mpr he.1
    rw [hp, hack.sent, Pics.acknowledge_accept hd i.line_lt]
  | overrun i t =>
    obtain ⟨-, hnone⟩ := irqStep_overrun h
    obtain ⟨k', hk, -⟩ := (acknowledged_iff s.1 i).mpr he
    rw [hnone] at hk
    cases hk
  | between k' =>
    cases h
    rfl

/-- While the keyboard's line is in service no keyboard interrupt and no RTC interrupt is delivered, and nothing
that happens takes it out of service. -/
theorem keyboard_blocked {s s' : Kernel × Pics} (hm : s.2.master keyboardIrqLine = true)
    (h : Reach irqStep (fun _ _ => True) s s') : s'.2.master keyboardIrqLine = true := by
  -- only the PIT's interrupt is still delivered, and its handler is always left
  have hserved : ∀ (t : Kernel × Pics) (i : Irq), t.2.master keyboardIrqLine = true → t.2.delivers i.line →
      i.Served t.1 := by
    intro t i ht hd
    cases i with
    | keyboard scancode r stale fmt => exact absurd hd (Pics.not_delivers ht (by decide) (Nat.le_refl _))
    | rtc => exact ⟨trivial, trivial⟩
    | pit r inner stale => exact ⟨trivial, trivial⟩
  apply h.invariant (I := fun s => s.2.master keyboardIrqLine = true) hm
  intro t e u ht _ hs
  have he : e.Served t.1 := by
    cases e with
    | irq i => exact hserved t i ht (irqStep_irq hs).1
    | overrun i v => exact hserved t i ht (irqStep_overrun hs).1
    | between k' => trivial
  rw [irqStep_pics he hs]
  exact ht

/-- An interrupt that is not acknowledged leaves the keyboard's line in service. -/
theorem irqStep_unserved {s s' : Kernel × Pics} {i : Irq} (hi : ¬ i.Served s.1) (h : irqStep s (.irq i) = some s') :
    sent s.1 s'.1 = [] ∧ s'.2.master keyboardIrqLine = true := by
  obtain ⟨-, hk, hp⟩ := irqStep_irq h
  obtain ⟨hline, hsent⟩ := leave_unserved hk hi
  refine ⟨hsent, ?_⟩
  rw [hp, hsent, hline, List.foldl_nil]
  exact Function.update_self keyboardIrqLine true s.2.master

/-- A run goes on with an interrupt that meets the condition. -/
theorem reach_irq {s₀ : Kernel × Pics} {k k' : Kernel} {i : Irq}
    (hr : Reach irqStep (fun s e => e.Served s.1) s₀ (k, Pics.idle)) (hi : i.Served k) (h : leave k i = some k') :
    Reach irqStep (fun s e => e.Served s.1) s₀ (k', Pics.idle) := by
  have hs : irqStep (k, Pics.idle) (.irq i) =
      some (k', (sent k k').foldl Pics.command (Pics.idle.accept i.line)) := by
    unfold irqStep
    dsimp only
    rw [if_pos (Pics.idle_delivers _), h, Option.map_some]
  have hp : (sent k k').foldl Pics.command (Pics.idle.accept i.line) = Pics.idle :=
    irqStep_pics (s := (k, Pics.idle)) (e := .irq i) hi hs
  rw [hp] at hs
  exact .tail (.irq i) hr hi hs

end BasicOs
