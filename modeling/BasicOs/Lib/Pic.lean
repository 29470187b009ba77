import Mathlib.Logic.Function.Basic
import Mathlib.Tactic.SplitIfs

/-!
# The two cascaded interrupt controllers of a PC

What an 8259 pair keeps of the interrupts it has delivered, in fully nested mode and without automatic end of
interrupt.

* `Pics` : the in-service registers;
* `delivers` : a request is delivered when no line of the same or a higher priority is in service;
* `accept` : the processor takes the interrupt; `command` : a byte sent to a controller;
* `eoiCommands line` : the specific end of interrupt of a line; `acknowledge_accept` : it undoes `accept`.
-/

namespace Pic

/-- The in-service registers of the master and of the slave, whose output is line 2 of the master. -/
structure Pics where
  master : Nat → Bool
  slave : Nat → Bool

/-- No line is in service. -/
def Pics.idle : Pics := ⟨fun _ => false, fun _ => false⟩

/-- None of the first `n` lines of a controller is in service. -/
def quiet (inService : Nat → Bool) (n : Nat) : Prop := ∀ m, m < n → inService m = false

instance (inService : Nat → Bool) (n : Nat) : Decidable (quiet inService n) :=
  inferInstanceAs (Decidable (∀ m, m < n → inService m = false))

/-- A request of `line` reaches the processor. -/
def Pics.delivers (p : Pics) (line : Nat) : Prop :=
  if line < 8 then quiet p.master (line + 1) else quiet p.master 3 ∧ quiet p.slave (line - 8 + 1)

instance (p : Pics) (line : Nat) : Decidable (p.delivers line) :=
  inferInstanceAs (Decidable (if line < 8 then _ else _))

/-- The processor takes the interrupt of `line`. -/
def Pics.accept (p : Pics) (line : Nat) : Pics :=
  if line < 8 then { p with master := Function.update p.master line true }
  else ⟨Function.update p.master 2 true, Function.update p.slave (line - 8) true⟩

def masterPort : Nat := 0x20
def slavePort : Nat := 0xA0

/-- A byte sent to a controller's command port. Bits 5 to 7 tell a specific end of interrupt, bits 0 to 2 its
line; no other command changes what is in service here. -/
def Pics.command (p : Pics) (c : Nat × Nat) : Pics :=
  if c.2 / 32 ≠ 3 then p
  else if c.1 = masterPort then { p with master := Function.update p.master (c.2 % 8) false }
  else if c.1 = slavePort then { p with slave := Function.update p.slave (c.2 % 8) false }
  else p

/-- The specific end of interrupt for `line`, with that of the cascade for a line of the slave. -/
def eoiCommands (line : Nat) : List (Nat × Nat) :=
  if line < 8 then [(masterPort, 0x60 + line)] else [(slavePort, 0x60 + (line - 8)), (masterPort, 0x62)]

theorem Pics.idle_delivers (line : Nat) : Pics.idle.delivers line := by
  unfold delivers
  split_ifs
  · exact fun _ _ => rfl
  · exact ⟨fun _ _ => rfl, fun _ _ => rfl⟩

/-- A line that is in service holds back its own requests and those of lower priority. -/
theorem Pics.not_delivers {p : Pics} {n : Nat} (h : p.master n = true) (hn : n ≤ 2) {line : Nat} (hl : n ≤ line) :
    ¬ p.delivers line := by
  intro hd
  unfold delivers at hd
  split_ifs at hd
  · rw [hd n (by omega)] at h
    cases h
  · rw [hd.1 n (by omega)] at h
    cases h

theorem Pics.command_master (p : Pics) {n : Nat} (hn : n < 8) :
    p.command (masterPort, 0x60 + n) = { p with master := Function.update p.master n false } := by
  unfold command
  dsimp only
  rw [if_neg (by omega), if_pos rfl, show (0x60 + n) % 8 = n by omega]

theorem Pics.command_slave (p : Pics) {n : Nat} (hn : n < 8) :
    p.command (slavePort, 0x60 + n) = { p with slave := Function.update p.slave n false } := by
  unfold command
  dsimp only
  rw [if_neg (by omega), if_neg (by decide), if_pos rfl, show (0x60 + n) % 8 = n by omega]

/-- The end of interrupt undoes the acceptance of a request that was delivered. -/
theorem Pics.acknowledge_accept {p : Pics} {line : Nat} (h : p.delivers line) (hl : line < 16) :
    (eoiCommands line).foldl command (p.accept line) = p := by
  unfold delivers at h
  unfold eoiCommands accept
  split_ifs at h ⊢ with h8
  · rw [List.foldl_cons, List.foldl_nil, command_master _ h8]
    dsimp only
    rw [Function.update_idem, ← h line (by omega), Function.update_eq_self]
  · rw [List.foldl_cons, List.foldl_cons, List.foldl_nil, command_slave _ (by omega),
      command_master _ (show 2 < 8 by decide)]
    have hm : Function.update p.master 2 false = p.master := by
      rw [← h.1 2 (by decide), Function.update_eq_self]
    have hs : Function.update p.slave (line - 8) false = p.slave := by
      rw [← h.2 (line - 8) (by omega), Function.update_eq_self]
    dsimp only
    rw [Function.update_idem, Function.update_idem, hm, hs]

end Pic
