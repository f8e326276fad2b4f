/-
Timer 0 and the clock that counts its overflows, as `clock.cpp` and `timer.h` have them.

The timer counts 64 clock cycles a tick and wraps every 256 ticks.  Its overflow
interrupt counts the wraps, and keeps the milliseconds with a fraction that is scaled
by 8 to fit a byte: a wrap is a whole number of eighths of it at the clock speeds the
driver is meant for, so nothing is ever rounded.

`get_us` puts the counter below the count of wraps.  It reads the count, the counter
and the overflow flag one after another while the timer runs on, and has to tell a wrap
that has not been counted yet from one that has happened since.
-/
import AtmegaScheduler.Avr.Cpu
import Mathlib.Logic.Function.Iterate

namespace AtmegaScheduler

open Avr

/-- `F_CPU` -/
def fCpu : Nat := 16000000

/-- `freq_to_timer_comp_value` -/
def freqToTimerCompValue (freq prescaler : Nat) : Byte :=
  BitVec.ofNat 8 (fCpu / (prescaler * freq) - 4)

/-- `clock_cycles_per_us` -/
def clockCyclesPerUs (fCpu : Nat) : Nat := fCpu / 1000000

/-- `clock_cycles_to_us` -/
def clockCyclesToUs (fCpu a : Nat) : Nat := a / clockCyclesPerUs fCpu

/-- `MICROSECONDS_PER_TIMER0_OVERFLOW` -/
def microsecondsPerTimer0Overflow (fCpu : Nat) : Nat := clockCyclesToUs fCpu (64 * 256)

/-- `MS_INC` -/
def msInc (fCpu : Nat) : Nat := microsecondsPerTimer0Overflow fCpu / 1000

/-- `FRACT_INC` -/
def fractInc (fCpu : Nat) : Nat := (microsecondsPerTimer0Overflow fCpu % 1000) >>> 3

/-- `FRACT_MAX` -/
def fractMax : Nat := 1000 >>> 3

/-- The variables of the clock. -/
structure Clock where
  overflowCount : BitVec 32
  ms : BitVec 32
  fractionalMs : Byte
  deriving DecidableEq, Repr

namespace Clock

/-- The variables before the first interrupt. -/
def init : Clock := ⟨0, 0, 0⟩

/-- `ISR(TIMER0_OVF_vect)` -/
def timer0Ovf (fCpu : Nat) (c : Clock) : Clock :=
  let ms := c.ms + BitVec.ofNat 32 (msInc fCpu)
  let fract := c.fractionalMs + BitVec.ofNat 8 (fractInc fCpu)
  if fract ≥ BitVec.ofNat 8 fractMax then
    ⟨c.overflowCount + 1, ms + 1, fract - BitVec.ofNat 8 fractMax⟩
  else
    ⟨c.overflowCount + 1, ms, fract⟩

/-- `get_ms` -/
def getMs (c : Clock) : BitVec 32 := c.ms

end Clock

/-! ### The hardware -/

/-- The flag `TOV0` in `TIFR0`. -/
def tov0 : Byte := 1

/-- The flag `OCF0B` in `TIFR0`. -/
def ocf0b : Byte := 4

/-- The registers of timer 0 that the program reads and writes. -/
structure TimerRegs where
  tcnt0 : Byte
  tifr0 : Byte
  ocr0b : Byte
  deriving DecidableEq, Repr

/-- The comparator: while the counter stands at the compare register, the next tick sets the
flag. -/
def compareMatch (tcnt0 ocr0b : Byte) : Bool := decide (tcnt0 = ocr0b)

namespace TimerRegs

/-- Is the flag set? -/
def flag (tm : TimerRegs) (m : Byte) : Bool := decide (tm.tifr0 &&& m ≠ 0)

/-- One tick: the counter goes on and wraps, which sets `TOV0`; leaving a match with the
compare register sets `OCF0B`. -/
def tick (tm : TimerRegs) : TimerRegs :=
  let tcnt0 := tm.tcnt0 + 1
  let tifr0 := if tcnt0 = 0 then tm.tifr0 ||| AtmegaScheduler.tov0 else tm.tifr0
  { tm with
    tcnt0 := tcnt0
    tifr0 := if compareMatch tm.tcnt0 tm.ocr0b then tifr0 ||| AtmegaScheduler.ocf0b else tifr0 }

/-- A write to `TIFR0` clears the flags that are written as 1. -/
def writeTifr0 (tm : TimerRegs) (v : Byte) : TimerRegs := { tm with tifr0 := tm.tifr0 &&& ~~~v }

end TimerRegs

/-- `get_us`, with `ticks` ticks of the timer between its read of `TCNT0` and its read of
`TIFR0`. -/
def getUs (fCpu : Nat) (c : Clock) (tm : TimerRegs) (ticks : Nat) : BitVec 32 :=
  let ms := c.overflowCount
  let t := tm.tcnt0
  let ms := if (TimerRegs.tick^[ticks] tm).flag tov0 ∧ t < 255 then ms + 1 else ms
  ((ms <<< 8) + t.setWidth 32) * BitVec.ofNat 32 (64 / clockCyclesPerUs fCpu)

/-! ### Milliseconds -/

namespace Clock

/-- What the milliseconds and the fraction stand for after `n` interrupts, `us`
microseconds apart. -/
structure Counts (us n : Nat) (c : Clock) : Prop where
  fract_lt : c.fractionalMs.toNat < 125
  fract : 8 * c.fractionalMs.toNat = us * n % 1000
  ms : c.ms.toNat = us * n / 1000 % 2 ^ 32

/-- **One interrupt**, when a wrap is `a` milliseconds and `b` eighths of 8 microseconds. -/
theorem Counts.next {us a b n fCpu : Nat} {c : Clock} (ha : msInc fCpu = a) (hb : fractInc fCpu = b)
    (hus : us = 1000 * a + 8 * b) (hlt : b < 125) (h : Counts us n c) :
    Counts us (n + 1) (c.timer0Ovf fCpu) := by
  obtain ⟨hfract_lt, hfract, hms⟩ := h
  have hmax : (BitVec.ofNat 8 fractMax).toNat = 125 := rfl
  have hfr : (c.fractionalMs + BitVec.ofNat 8 b).toNat = c.fractionalMs.toNat + b := by
    rw [BitVec.toNat_add, BitVec.toNat_ofNat]
    omega
  have hinc : (c.ms + BitVec.ofNat 32 a).toNat = (us * n / 1000 + a) % 2 ^ 32 := by
    rw [BitVec.toNat_add, BitVec.toNat_ofNat, hms]
    omega
  have hnext : us * (n + 1) = us * n + 1000 * a + 8 * b := by
    rw [Nat.mul_succ, hus]
    omega
  generalize us * n = elapsed at hfract hms hinc hnext
  unfold timer0Ovf
  rw [ha, hb]
  by_cases hcarry : c.fractionalMs + BitVec.ofNat 8 b ≥ BitVec.ofNat 8 fractMax
  · have hge : 125 ≤ c.fractionalMs.toNat + b := by
      have hle := BitVec.le_def.mp hcarry
      rwa [hmax, hfr] at hle
    have hsub : (c.fractionalMs + BitVec.ofNat 8 b - BitVec.ofNat 8 fractMax).toNat =
        c.fractionalMs.toNat + b - 125 := by
      rw [BitVec.toNat_sub_of_le hcarry, hfr, hmax]
    have hone : (c.ms + BitVec.ofNat 32 a + 1).toNat = (elapsed / 1000 + a + 1) % 2 ^ 32 := by
      rw [BitVec.toNat_add, hinc]
      show (_ + 1) % 2 ^ 32 = _
      omega
    dsimp only
    rw [if_pos hcarry]
    refine ⟨?_, ?_, ?_⟩
    · rw [hsub]
      omega
    · rw [hsub, hnext]
      omega
    · rw [hone, hnext]
      omega
  · have hle : c.fractionalMs.toNat + b < 125 := by
      have hnot := mt BitVec.le_def.mpr hcarry
      rw [hmax, hfr] at hnot
      omega
    dsimp only
    rw [if_neg hcarry]
    refine ⟨?_, ?_, ?_⟩
    · rw [hfr]
      exact hle
    · rw [hfr, hnext]
      omega
    · rw [hinc, hnext]
      omega

theorem counts_init (us : Nat) : Counts us 0 init := by
  refine ⟨by decide, ?_, ?_⟩
  · rw [Nat.mul_zero]
    rfl
  · rw [Nat.mul_zero]
    rfl

theorem counts_iterate (fCpu : Nat) {us a b : Nat} (ha : msInc fCpu = a) (hb : fractInc fCpu = b)
    (hus : us = 1000 * a + 8 * b) (hlt : b < 125) (n : Nat) :
    Counts us n ((timer0Ovf fCpu)^[n] init) := by
  induction n with
  | zero => exact counts_init us
  | succ n ih =>
      rw [Function.iterate_succ_apply']
      exact ih.next ha hb hus hlt

/--
**The millisecond clock does not drift.**  At 16 MHz and at 8 MHz, after any number of
overflow interrupts, `get_ms` is the floor of the elapsed time, the fraction is the rest
of it in units of 8 microseconds, and the next addition to the fraction does not
overflow its byte.
-/
theorem ms_exact {fCpu us : Nat}
    (h : (fCpu = 16000000 ∧ us = 1024) ∨ (fCpu = 8000000 ∧ us = 2048)) (n : Nat) :
    microsecondsPerTimer0Overflow fCpu = us ∧
    ((timer0Ovf fCpu)^[n] init).fractionalMs.toNat < 125 ∧
    ((timer0Ovf fCpu)^[n] init).fractionalMs.toNat + fractInc fCpu < 256 ∧
    ((timer0Ovf fCpu)^[n] init).getMs.toNat = us * n / 1000 % 2 ^ 32 ∧
    8 * ((timer0Ovf fCpu)^[n] init).fractionalMs.toNat = us * n % 1000 := by
  rcases h with ⟨rfl, rfl⟩ | ⟨rfl, rfl⟩
  · have hc : Counts 1024 n _ := counts_iterate 16000000 (a := 1) (b := 3) rfl rfl rfl (by decide) n
    have hfract : fractInc 16000000 = 3 := rfl
    have hlt := hc.fract_lt
    exact ⟨rfl, hlt, by omega, hc.ms, hc.fract⟩
  · have hc : Counts 2048 n _ := counts_iterate 8000000 (a := 2) (b := 6) rfl rfl rfl (by decide) n
    have hfract : fractInc 8000000 = 6 := rfl
    have hlt := hc.fract_lt
    exact ⟨rfl, hlt, by omega, hc.ms, hc.fract⟩

theorem ms_exact_firstCarry :
    ((timer0Ovf 16000000)^[42] init).getMs.toNat = 43 ∧
      ((timer0Ovf 16000000)^[42] init).fractionalMs.toNat < 125 := by
  obtain ⟨_, hlt, _, hms, _⟩ :=
    ms_exact (Or.inl ⟨rfl, rfl⟩ : (16000000 = 16000000 ∧ 1024 = 1024) ∨ _) 42
  exact ⟨hms, hlt⟩

end Clock

/-! ### Microseconds -/

/-- `n` ticks have passed when `get_us` reads the counter; the overflow that is pending
(`p`), if there is one, has not been counted yet. -/
structure ReadsAt (n : Nat) (p : Bool) (c : Clock) (tm : TimerRegs) : Prop where
  counter : tm.tcnt0 = BitVec.ofNat 8 n
  count : c.overflowCount = BitVec.ofNat 32 (n / 256) - (if p then 1 else 0)
  pending : tm.flag tov0 = p
  early : p = true → tm.tcnt0 < 255

/-- A tick that does not wrap the counter leaves `TOV0` as it was. -/
theorem flag_tick {tm : TimerRegs} (h : tm.tcnt0 < 255) : tm.tick.flag tov0 = tm.flag tov0 := by
  have hwrap : tm.tcnt0 + 1 ≠ 0 := by
    intro hc
    have hsum : (tm.tcnt0 + 1).toNat = 0 := congrArg BitVec.toNat hc
    have hlt : tm.tcnt0.toNat < 255 := BitVec.lt_def.mp h
    rw [BitVec.toNat_add, show (1 : Byte).toNat = 1 from rfl] at hsum
    omega
  have hor : ∀ v : Byte, (v ||| ocf0b) &&& tov0 = v &&& tov0 := by decide
  have hand : tm.tick.tifr0 &&& tov0 = tm.tifr0 &&& tov0 := by
    unfold TimerRegs.tick
    dsimp only
    rw [if_neg hwrap]
    by_cases hmatch : compareMatch tm.tcnt0 tm.ocr0b = true
    · rw [if_pos hmatch, hor]
    · rw [if_neg hmatch]
  unfold TimerRegs.flag
  rw [hand]

/-- The count of wraps that `get_us` goes by is the true one. -/
theorem ReadsAt.wraps {n ticks : Nat} {p : Bool} {c : Clock} {tm : TimerRegs} (h : ReadsAt n p c tm)
    (hticks : ticks ≤ 1) :
    (if (TimerRegs.tick^[ticks] tm).flag tov0 ∧ tm.tcnt0 < 255 then c.overflowCount + 1
      else c.overflowCount) = BitVec.ofNat 32 (n / 256) := by
  by_cases hearly : tm.tcnt0 < 255
  · have hflag : (TimerRegs.tick^[ticks] tm).flag tov0 = p := by
      obtain rfl | rfl : ticks = 0 ∨ ticks = 1 := by omega
      · exact h.pending
      · exact (flag_tick hearly).trans h.pending
    rw [hflag, h.count]
    cases p with
    | false =>
        rw [if_neg (fun hc => Bool.false_ne_true hc.1)]
        exact BitVec.sub_zero _
    | true =>
        rw [if_pos ⟨rfl, hearly⟩]
        exact BitVec.sub_add_cancel _ _
  · have hp : p = false := by
      by_contra hc
      exact hearly (h.early (by simpa using hc))
    rw [if_neg (fun hc => hearly hc.2), h.count, hp]
    exact BitVec.sub_zero _

/-- The count of wraps above the counter is the count of ticks. -/
theorem wraps_above_counter (n : Nat) :
    (BitVec.ofNat 32 (n / 256) <<< 8) + (BitVec.ofNat 8 n).setWidth 32 = BitVec.ofNat 32 n := by
  apply BitVec.eq_of_toNat_eq
  rw [BitVec.toNat_add, BitVec.toNat_shiftLeft, BitVec.toNat_setWidth, BitVec.toNat_ofNat,
    BitVec.toNat_ofNat, BitVec.toNat_ofNat, Nat.shiftLeft_eq]
  omega

/--
**`get_us` is exact.**  At 16 MHz, `n` ticks after the start and with at most one tick
while it reads, `get_us` returns `4 * n` modulo `2 ^ 32`, whether or not an overflow is
pending.  So two readings differ by 4 microseconds a tick, across every wrap.
-/
theorem get_us_exact :
    (∀ (n ticks : Nat) (p : Bool) (c : Clock) (tm : TimerRegs), ReadsAt n p c tm → ticks ≤ 1 →
      getUs 16000000 c tm ticks = BitVec.ofNat 32 (4 * n)) ∧
    ∀ (n₁ n₂ ticks₁ ticks₂ : Nat) (p₁ p₂ : Bool) (c₁ c₂ : Clock) (tm₁ tm₂ : TimerRegs), n₁ ≤ n₂ →
      ReadsAt n₁ p₁ c₁ tm₁ → ReadsAt n₂ p₂ c₂ tm₂ → ticks₁ ≤ 1 → ticks₂ ≤ 1 →
      getUs 16000000 c₂ tm₂ ticks₂ - getUs 16000000 c₁ tm₁ ticks₁ =
        BitVec.ofNat 32 (4 * (n₂ - n₁)) := by
  have hexact : ∀ (n ticks : Nat) (p : Bool) (c : Clock) (tm : TimerRegs), ReadsAt n p c tm →
      ticks ≤ 1 → getUs 16000000 c tm ticks = BitVec.ofNat 32 (4 * n) := by
    intro n ticks p c tm h hticks
    unfold getUs
    dsimp only
    rw [h.wraps hticks, h.counter, wraps_above_counter, ← BitVec.ofNat_mul, Nat.mul_comm]
    rfl
  refine ⟨hexact, ?_⟩
  intro n₁ n₂ ticks₁ ticks₂ p₁ p₂ c₁ c₂ tm₁ tm₂ hle h₁ h₂ ht₁ ht₂
  rw [hexact _ _ _ _ _ h₁ ht₁, hexact _ _ _ _ _ h₂ ht₂]
  have hsum : BitVec.ofNat 32 (4 * n₂) =
      BitVec.ofNat 32 (4 * (n₂ - n₁)) + BitVec.ofNat 32 (4 * n₁) := by
    rw [← BitVec.ofNat_add]
    congr 1
    omega
  rw [hsum, BitVec.add_sub_cancel]

/-- An uncounted overflow at tick 300, and the tick that wraps the counter after tick 511. -/
theorem get_us_exact_atWrap :
    getUs 16000000 ⟨0, 0, 0⟩ ⟨44, 1, 0⟩ 0 = 1200 ∧ getUs 16000000 ⟨1, 0, 0⟩ ⟨255, 0, 0⟩ 1 = 2044 ∧
      getUs 16000000 ⟨1, 0, 0⟩ ⟨255, 0, 0⟩ 1 - getUs 16000000 ⟨0, 0, 0⟩ ⟨44, 1, 0⟩ 0 = 844 := by
  have h₁ : ReadsAt 300 true ⟨0, 0, 0⟩ ⟨44, 1, 0⟩ := ⟨rfl, rfl, rfl, fun _ => by decide⟩
  have h₂ : ReadsAt 511 false ⟨1, 0, 0⟩ ⟨255, 0, 0⟩ :=
    ⟨rfl, rfl, rfl, fun hc => absurd hc (by decide)⟩
  obtain ⟨hone, htwo⟩ := get_us_exact
  exact ⟨hone 300 0 _ _ _ h₁ (by decide), hone 511 1 _ _ _ h₂ (by decide),
    htwo 300 511 0 1 _ _ _ _ _ _ (by decide) h₁ h₂ (by decide) (by decide)⟩

end AtmegaScheduler
