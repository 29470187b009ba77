import BasicOs.State

/-!
# The interrupt controllers and the real-time clock

`send_eoi` of `i8259.c` and the functions of `rtc.c` that run after boot. What is sent to the two PICs is
logged in `picOut`; of the clock, register A and the flag `rtc_interrupt_occurred` are kept.

* `rtcWrite_programs_iff` : which frequencies `rtc_write` programs right.
-/

namespace BasicOs

def master8259Port : Nat := 0x20
def slave8259Port : Nat := 0xA0
def eoi : Nat := 0x60

/-- `outb(value, port)` to a PIC. -/
def Kernel.outPic (k : Kernel) (value port : Nat) : Kernel := { k with picOut := (port, value) :: k.picOut }

/-- `send_eoi`. -/
def sendEoi (k : Kernel) (irqNum : Nat) : Kernel :=
  if irqNum > 15 then k
  else if irqNum < 8 then k.outPic (eoi ||| irqNum) master8259Port
  else (k.outPic (eoi ||| (irqNum - 8)) slave8259Port).outPic (eoi ||| 0x2) master8259Port

/-- The rate `set_rtcFrequency` chooses; the variable is uninitialised and keeps `rate` when the
frequency is not one of the ten powers of two. -/
def rtcRate (frequency : Int) (rate : UInt8) : UInt8 :=
  if frequency = 2 then 0x0F
  else if frequency = 4 then 0x0E
  else if frequency = 8 then 0x0D
  else if frequency = 16 then 0x0C
  else if frequency = 32 then 0x0B
  else if frequency = 64 then 0x0A
  else if frequency = 128 then 0x09
  else if frequency = 256 then 0x08
  else if frequency = 512 then 0x07
  else if frequency = 1024 then 0x06
  else rate

/-- `set_rtcFrequency`; `rate` is what its uninitialised local holds. -/
def setRtcFrequency (k : Kernel) (frequency : Int) (rate : UInt8) : Kernel × Int :=
  if frequency < 2 ∨ frequency > 1024 then (k, -1)
  else ({ k with rtcRegA := (k.rtcRegA &&& 0xF0) ||| rtcRate frequency rate }, 0)

/-- `rtc_open`. -/
def rtcOpen (k : Kernel) (rate : UInt8) : Kernel × Int := ((setRtcFrequency k 2 rate).1, 0)

/-- `rtc_handler`. -/
def rtcHandler (k : Kernel) : Kernel := sendEoi { k with rtcInterruptOccurred := true } 8

/-- `rtc_read`: it clears the flag and waits; the interrupt that ends the wait is part of the call. -/
def rtcRead (k : Kernel) : Kernel × Int := (rtcHandler { k with rtcInterruptOccurred := false }, 0)

/-- `rtc_write`; `buf` is the word a pointer that is not NULL designates. -/
def rtcWrite (k : Kernel) (buf : Option Int) (rate : UInt8) : Kernel × Int :=
  match buf with
  | none => (k, -1)
  | some frequency =>
    let (k, r) := setRtcFrequency k frequency rate
    if r = -1 then (k, -1) else (k, 0)

/-- Only the devices differ. -/
def DevicesOnly (k k' : Kernel) : Prop := ∃ d : Devices, k' = { k with toDevices := d }

theorem sendEoi_devicesOnly (k : Kernel) (irqNum : Nat) : DevicesOnly k (sendEoi k irqNum) := by
  unfold sendEoi
  split_ifs
  · exact ⟨k.toDevices, rfl⟩
  · exact ⟨_, rfl⟩
  · exact ⟨_, rfl⟩

theorem setRtcFrequency_devicesOnly (k : Kernel) (frequency : Int) (rate : UInt8) :
    DevicesOnly k (setRtcFrequency k frequency rate).1 := by
  unfold setRtcFrequency
  split_ifs
  · exact ⟨k.toDevices, rfl⟩
  · exact ⟨_, rfl⟩

theorem rtcRead_devicesOnly (k : Kernel) : DevicesOnly k (rtcRead k).1 := ⟨_, rfl⟩

theorem rtcWrite_devicesOnly (k : Kernel) (buf : Option Int) (rate : UInt8) :
    DevicesOnly k (rtcWrite k buf rate).1 := by
  unfold rtcWrite
  cases buf with
  | none => exact ⟨k.toDevices, rfl⟩
  | some frequency =>
    dsimp only
    split_ifs <;> exact setRtcFrequency_devicesOnly k frequency rate

/-! ## The rate of the clock -/

/-- The frequencies the clock can be set to. -/
def RtcFrequency (frequency : Int) : Prop := (∃ n : Nat, frequency = 2 ^ n) ∧ 2 ≤ frequency ∧ frequency ≤ 1024

/-- A write of `frequency` programs the clock: it returns `0` exactly for the frequencies there are, the low half of
register A becomes the rate and the high half stays; another frequency is refused with `-1`, without a store. -/
structure ProgramsRate (k : Kernel) (frequency : Int) (rate : UInt8) : Prop where
  accepts : (rtcWrite k (some frequency) rate).2 = 0 ↔ RtcFrequency frequency
  low : RtcFrequency frequency → ∃ r : Nat, ((rtcWrite k (some frequency) rate).1.rtcRegA &&& 0x0F).toNat = r ∧
    ((32768 >>> (r - 1) : Nat) : Int) = frequency
  high : RtcFrequency frequency → (rtcWrite k (some frequency) rate).1.rtcRegA &&& 0xF0 = k.rtcRegA &&& 0xF0
  refuses : ¬ RtcFrequency frequency → rtcWrite k (some frequency) rate = (k, -1)

/-- A byte put together from the high half of one and the low half of another. -/
theorem halves_merge (a : UInt8) {r : UInt8} (hhigh : r &&& 0xF0 = 0) (hlow : r &&& 0x0F = r) :
    ((a &&& 0xF0) ||| r) &&& 0xF0 = a &&& 0xF0 ∧ ((a &&& 0xF0) ||| r) &&& 0x0F = r := by
  have hdistrib : ∀ x y z : UInt8, (x ||| y) &&& z = (x &&& z) ||| (y &&& z) :=
    fun x y z => UInt8.toBitVec_inj.mp BitVec.and_or_distrib_right
  have hnone : (0xF0 : UInt8) &&& 0x0F = 0 := by decide
  constructor
  · rw [hdistrib, UInt8.and_assoc, UInt8.and_self, hhigh, UInt8.or_zero]
  · rw [hdistrib, UInt8.and_assoc, hnone, UInt8.and_zero, hlow, UInt8.zero_or]

theorem rtcWrite_of_refused (k : Kernel) {frequency : Int} (h : frequency < 2 ∨ frequency > 1024) (rate : UInt8) :
    rtcWrite k (some frequency) rate = (k, -1) := by
  have hset : setRtcFrequency k frequency rate = (k, -1) := if_pos h
  unfold rtcWrite
  simp only [hset]
  rfl

theorem rtcWrite_of_accepted (k : Kernel) {frequency : Int} (h : ¬ (frequency < 2 ∨ frequency > 1024)) (rate : UInt8) :
    rtcWrite k (some frequency) rate =
      ({ k with rtcRegA := (k.rtcRegA &&& 0xF0) ||| rtcRate frequency rate }, 0) := by
  have hset : setRtcFrequency k frequency rate =
      ({ k with rtcRegA := (k.rtcRegA &&& 0xF0) ||| rtcRate frequency rate }, 0) := if_neg h
  unfold rtcWrite
  simp only [hset]
  rfl

/-- The ten frequencies and their rates. -/
theorem rtcRate_pow {n : Nat} (hn : 1 ≤ n) (hn' : n ≤ 10) (rate : UInt8) :
    rtcRate (2 ^ n) rate = UInt8.ofNat (16 - n) := by
  interval_cases n <;> rfl

theorem rtcRate_of_frequency {frequency : Int} (h : RtcFrequency frequency) (rate : UInt8) :
    rtcRate frequency rate &&& 0xF0 = 0 ∧ rtcRate frequency rate &&& 0x0F = rtcRate frequency rate ∧
      ((32768 >>> ((rtcRate frequency rate).toNat - 1) : Nat) : Int) = frequency := by
  obtain ⟨⟨n, rfl⟩, hlo, hhi⟩ := h
  have hn : 1 ≤ n := by
    by_contra h0
    rw [show n = 0 by omega] at hlo
    exact absurd hlo (by decide)
  have hn' : n ≤ 10 := by
    by_contra h10
    have hpow : (2 : Int) ^ 11 ≤ 2 ^ n := pow_le_pow_right₀ (by decide) (by omega)
    exact absurd (hpow.trans hhi) (by decide)
  rw [rtcRate_pow hn hn']
  interval_cases n <;> decide

/-- **Programming the rate.** A write programs the clock exactly if the frequency is out of range or a power of two: a
frequency in between is accepted, and the rate that is stored is whatever the local variable held. -/
theorem rtcWrite_programs_iff (k : Kernel) (frequency : Int) (rate : UInt8) :
    ProgramsRate k frequency rate ↔ frequency < 2 ∨ 1024 < frequency ∨ ∃ n : Nat, frequency = 2 ^ n := by
  by_cases hrange : frequency < 2 ∨ frequency > 1024
  · have hwrite := rtcWrite_of_refused k hrange rate
    have hnot : ¬ RtcFrequency frequency := by
      rintro ⟨-, hlo, hhi⟩
      omega
    refine ⟨fun _ => hrange.imp_right Or.inl, fun _ => ⟨?_, fun h => absurd h hnot, fun h => absurd h hnot,
      fun _ => hwrite⟩⟩
    rw [hwrite]
    exact ⟨fun h => (nomatch h), fun h => absurd h hnot⟩
  · have hwrite := rtcWrite_of_accepted k hrange rate
    constructor
    · intro h
      have hfrequency : RtcFrequency frequency := h.accepts.mp (by rw [hwrite])
      exact Or.inr (Or.inr hfrequency.1)
    · intro h
      have hfrequency : RtcFrequency frequency :=
        ⟨(h.resolve_left fun h => hrange (Or.inl h)).resolve_left fun h => hrange (Or.inr h), by omega, by omega⟩
      obtain ⟨hhigh, hlow, hrate⟩ := rtcRate_of_frequency hfrequency rate
      obtain ⟨hmerge, hmerge'⟩ := halves_merge k.rtcRegA hhigh hlow
      refine ⟨?_, fun _ => ⟨_, rfl, ?_⟩, fun _ => ?_, fun h => absurd hfrequency h⟩
      · rw [hwrite]
        exact ⟨fun _ => hfrequency, fun _ => rfl⟩
      · rw [hwrite]
        dsimp only
        rw [hmerge']
        exact hrate
      · rw [hwrite]
        exact hmerge

/-- Frequency 3: the call succeeds, and the low half of register A is what the variable held. -/
theorem rtcWrite_three : (rtcWrite (Kernel.atLoad ⟨fun _ => 0, 0, 0, 0⟩) (some 3) 0x05).2 = 0 ∧
    (rtcWrite (Kernel.atLoad ⟨fun _ => 0, 0, 0, 0⟩) (some 3) 0x05).1.rtcRegA = 0x05 ∧
    ¬ ProgramsRate (Kernel.atLoad ⟨fun _ => 0, 0, 0, 0⟩) 3 0x05 := by
  refine ⟨rfl, rfl, ?_⟩
  intro h
  obtain ⟨⟨n, hn⟩, -⟩ := h.accepts.mp rfl
  cases n with
  | zero => exact absurd hn (by decide)
  | succ n =>
    rw [pow_succ] at hn
    omega

end BasicOs
