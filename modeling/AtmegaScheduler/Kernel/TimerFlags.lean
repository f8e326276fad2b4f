/-
The two users of `TIFR0`.

The clock relies on `TOV0` staying set until its interrupt is served.  `yield` clears a
stale `OCF0B` in the same register with `TIFR0 |= (1 << OCF0B)`, which reads the
register, and writes back every flag that it found set: a flag is cleared by writing 1
to it, so a `TOV0` that is pending at the read goes with the `OCF0B`.

The timer ticks between any two accesses of the program.  So the states of a run are
those between two accesses, and what happens to the overflows is stated step by step.
-/
import AtmegaScheduler.Drivers.Clock

namespace AtmegaScheduler

open Avr

/-- Where the program is. -/
inductive TimerPc
  /-- The code of a task, or `main`. -/
  | task
  /-- In the overflow interrupt, which has not counted yet. -/
  | overflow
  /-- In the compare match interrupt, before `OCR0B = ..`. -/
  | compb
  /-- In `yield`, before `OCR0B = ..`. -/
  | yield
  /-- `if (TIFR0 & (1 << OCF0B))` -/
  | yieldTest
  /-- `TIFR0 |= (1 << OCF0B)`: its read of the register. -/
  | yieldRead
  /-- Its write, after the read has found `v`. -/
  | yieldWrite (v : Byte)
  deriving DecidableEq, Repr

/-- The clock, the timer and where the program is; `wraps` counts how often the counter
has wrapped. -/
structure Ticking where
  clock : Clock
  timer : TimerRegs
  pc : TimerPc
  wraps : Nat
  deriving DecidableEq, Repr

/-- What happens next: the timer ticks, an interrupt or a `yield` begins, or the program
goes on with the one it is in. -/
inductive TimerEvent
  | tick
  | overflow
  | compb
  | yield
  | proceed
  deriving DecidableEq, Repr

namespace Ticking

/-- Before the first tick. -/
def init (ocr0b : Byte) : Ticking := ⟨Clock.init, ⟨0, 0, ocr0b⟩, .task, 0⟩

/-- One tick of the timer. -/
def tick (s : Ticking) : Ticking :=
  { s with timer := s.timer.tick, wraps := if s.timer.tcnt0 = 255 then s.wraps + 1 else s.wraps }

/-- `OCR0B = freq_to_timer_comp_value<1000, 64>() + TCNT0` -/
def setCompare (s : Ticking) (pc : TimerPc) : Ticking :=
  { s with
    timer := { s.timer with ocr0b := freqToTimerCompValue 1000 64 + s.timer.tcnt0 }
    pc := pc }

/-- The interrupt or `yield` the program is in goes on. -/
def proceed (s : Ticking) : Option Ticking :=
  match s.pc with
  | .task => none
  | .overflow => some { s with clock := s.clock.timer0Ovf fCpu, pc := .task }
  | .compb => some (s.setCompare .task)
  | .yield => some (s.setCompare .yieldTest)
  | .yieldTest => some { s with pc := if s.timer.flag ocf0b then .yieldRead else .task }
  | .yieldRead => some { s with pc := .yieldWrite s.timer.tifr0 }
  | .yieldWrite v => some { s with timer := s.timer.writeTifr0 (v ||| ocf0b), pc := .task }

/-- One event.  Entering an interrupt clears its flag. -/
def next (s : Ticking) : TimerEvent → Option Ticking
  | .tick => some s.tick
  | .overflow =>
      if s.pc = .task ∧ s.timer.flag tov0 = true then
        some { s with timer := s.timer.writeTifr0 tov0, pc := .overflow }
      else none
  | .compb =>
      if s.pc = .task ∧ s.timer.flag ocf0b = true then
        some { s with timer := s.timer.writeTifr0 ocf0b, pc := .compb }
      else none
  | .yield => if s.pc = .task then some { s with pc := .yield } else none
  | .proceed => s.proceed

/-- A run: the events, each with the state it happens in. -/
inductive Run (s₀ : Ticking) : List (Ticking × TimerEvent) → Ticking → Prop
  | nil : Run s₀ [] s₀
  | snoc {s s' : Ticking} {h : List (Ticking × TimerEvent)} {e : TimerEvent}
      (hrun : Run s₀ h s) (hnext : s.next e = some s') :
      Run s₀ (h ++ [(s, e)]) s'

/-- Outside the overflow interrupt every wrap has been counted, but for one that is
pending. -/
def Exact (s : Ticking) : Prop :=
  s.pc ≠ .overflow → BitVec.ofNat 32 s.wraps =
    s.clock.overflowCount + (if s.timer.flag tov0 then 1 else 0)

/-- No overflow is left unserved for 256 ticks: when the counter wraps again the
last overflow has been served. -/
def Timely (h : List (Ticking × TimerEvent)) : Prop :=
  ∀ c ∈ h, c.2 = .tick → c.1.timer.tcnt0 = 255 → c.1.timer.flag tov0 = false

/-- The event is the write of `TIFR0 |= (1 << OCF0B)`, and its read found `TOV0` set. -/
def Clobbers (c : Ticking × TimerEvent) : Prop :=
  c.2 = .proceed ∧ ∃ v, c.1.pc = .yieldWrite v ∧ v &&& tov0 ≠ 0

instance (s : Ticking) : Decidable s.Exact := inferInstanceAs (Decidable (_ → _))

instance (h : List (Ticking × TimerEvent)) : Decidable (Timely h) :=
  inferInstanceAs (Decidable (∀ c ∈ h, _))

/-! ### Flags -/

section Flags

variable {tm : TimerRegs} {m v : Byte}

theorem flag_iff : tm.flag m = true ↔ tm.tifr0 &&& m ≠ 0 := decide_eq_true_iff

theorem flag_congr {tm' : TimerRegs} (h : tm'.tifr0 &&& m = tm.tifr0 &&& m) :
    tm'.flag m = tm.flag m := by
  unfold TimerRegs.flag
  rw [h]

/-- A tick sets `TOV0` when it wraps the counter, and leaves it alone otherwise. -/
theorem flag_tov0_tick (tm : TimerRegs) :
    tm.tick.flag tov0 = if tm.tcnt0 = 255 then true else tm.flag tov0 := by
  by_cases hwrap : tm.tcnt0 = 255
  · rw [if_pos hwrap, flag_iff]
    have hset : ∀ f : Byte, (f ||| tov0) &&& tov0 ≠ 0 := by decide
    have hset' : ∀ f : Byte, ((f ||| tov0) ||| ocf0b) &&& tov0 ≠ 0 := by decide
    have hzero : tm.tcnt0 + 1 = 0 := by
      rw [hwrap]
      rfl
    unfold TimerRegs.tick
    dsimp only
    rw [if_pos hzero]
    by_cases hmatch : compareMatch tm.tcnt0 tm.ocr0b = true
    · rw [if_pos hmatch]
      exact hset' _
    · rw [if_neg hmatch]
      exact hset _
  · rw [if_neg hwrap]
    have hlt : tm.tcnt0.toNat < 255 := by
      have hle := tm.tcnt0.isLt
      have hne : tm.tcnt0.toNat ≠ 255 := fun hc => hwrap (BitVec.eq_of_toNat_eq hc)
      omega
    exact flag_tick (BitVec.lt_def.mpr hlt)

/-- A write leaves the flags alone that it does not write as 1. -/
theorem flag_write_of_not (h : v &&& m = 0) : (tm.writeTifr0 v).flag m = tm.flag m := by
  refine flag_congr ?_
  show (tm.tifr0 &&& ~~~v) &&& m = _
  rw [BitVec.and_assoc]
  congr 1
  ext i hi
  have hbit : (v &&& m)[i] = false := by rw [h]; simp
  rw [BitVec.getElem_and] at hbit ⊢
  rw [BitVec.getElem_not]
  cases hv : v[i] with
  | false => rfl
  | true =>
      rw [hv, Bool.true_and] at hbit
      rw [hbit, Bool.and_false]

/-- A write clears the flags that it writes as 1. -/
theorem flag_write_of_set (h : v &&& m = m) : (tm.writeTifr0 v).flag m = false := by
  rw [← Bool.not_eq_true, flag_iff, not_not]
  show (tm.tifr0 &&& ~~~v) &&& m = 0
  rw [← h]
  ext i hi
  simp only [BitVec.getElem_and, BitVec.getElem_not]
  cases v[i] <;> simp

/-- What the read-modify-write writes as 1 of `TOV0` is what its read found. -/
theorem or_ocf0b_and_tov0 : ∀ v : Byte, (v ||| ocf0b) &&& tov0 = v &&& tov0 := by decide

theorem and_tov0_of_ne_zero : ∀ v : Byte, v &&& tov0 ≠ 0 → v &&& tov0 = tov0 := by decide

end Flags

/-! ### One event -/

/-- Every wrap has been counted, is being counted or is pending, and a flag that the
read-modify-write has found set is set until its write. -/
structure Inv (s : Ticking) : Prop where
  counted : BitVec.ofNat 32 s.wraps = s.clock.overflowCount +
    (if s.timer.flag tov0 then 1 else 0) + (if s.pc = .overflow then 1 else 0)
  found : ∀ v, s.pc = .yieldWrite v → v &&& tov0 ≠ 0 → s.timer.flag tov0 = true

theorem Inv.exact {s : Ticking} (h : Inv s) : s.Exact := by
  intro hpc
  rw [h.counted, if_neg hpc]
  exact BitVec.add_zero _

theorem inv_init (ocr0b : Byte) : (init ocr0b).Inv where
  counted := by simp [init, Clock.init, TimerRegs.flag]
  found := fun v hv => absurd hv (by simp [init])

variable {s s' : Ticking} {e : TimerEvent}

theorem overflowCount_timer0Ovf (c : Clock) :
    (c.timer0Ovf fCpu).overflowCount = c.overflowCount + 1 := by
  unfold Clock.timer0Ovf
  dsimp only
  split <;> rfl

/-- A tick, when the last overflow has been served if the counter wraps. -/
theorem inv_tick (h : Inv s) (ht : s.timer.tcnt0 = 255 → s.timer.flag tov0 = false) :
    Inv s.tick := by
  have hflag : s.tick.timer.flag tov0 = if s.timer.tcnt0 = 255 then true else s.timer.flag tov0 :=
    flag_tov0_tick s.timer
  have hcounted := h.counted
  refine ⟨?_, fun v hv hset => ?_⟩
  · show BitVec.ofNat 32 (if s.timer.tcnt0 = 255 then s.wraps + 1 else s.wraps) =
      s.clock.overflowCount + (if s.tick.timer.flag tov0 then 1 else 0) +
        (if s.pc = .overflow then 1 else 0)
    rw [hflag]
    by_cases hwrap : s.timer.tcnt0 = 255
    · rw [ht hwrap, if_neg Bool.false_ne_true] at hcounted
      rw [if_pos hwrap, if_pos hwrap, if_pos rfl, BitVec.ofNat_add, hcounted]
      generalize (if s.pc = .overflow then (1 : BitVec 32) else 0) = pending
      grind
    · rw [if_neg hwrap, if_neg hwrap]
      exact hcounted
  · rw [hflag]
    by_cases hwrap : s.timer.tcnt0 = 255
    · rw [if_pos hwrap]
    · rw [if_neg hwrap]
      exact h.found v hv hset

/-- A step that changes neither the clock nor `TOV0`, outside the overflow interrupt. -/
theorem Inv.quiet (h : Inv s) (hclock : s'.clock = s.clock) (hwraps : s'.wraps = s.wraps)
    (hflag : s'.timer.flag tov0 = s.timer.flag tov0) (hpc : s.pc ≠ .overflow)
    (hpc' : s'.pc ≠ .overflow)
    (hfound : ∀ v, s'.pc = .yieldWrite v → v &&& tov0 ≠ 0 → s.timer.flag tov0 = true) :
    Inv s' := by
  refine ⟨?_, fun v hv hset => hflag.trans (hfound v hv hset)⟩
  rw [hclock, hwraps, hflag, h.counted, if_neg hpc, if_neg hpc']

/-- The overflow interrupt begins: the overflow that was pending is being counted. -/
theorem Inv.serve (h : Inv s) (hpc : s.pc = .task) (hset : s.timer.flag tov0 = true) :
    Inv { s with timer := s.timer.writeTifr0 tov0, pc := .overflow } := by
  have hcounted := h.counted
  rw [if_pos hset, hpc, if_neg (by decide)] at hcounted
  refine ⟨?_, fun v hv => absurd hv (by simp)⟩
  show BitVec.ofNat 32 s.wraps = s.clock.overflowCount +
    (if (s.timer.writeTifr0 tov0).flag tov0 then 1 else 0) + _
  rw [flag_write_of_set (by decide), if_neg Bool.false_ne_true, if_pos rfl, hcounted]
  exact congrArg (· + 0#32) rfl |>.trans (by simp)

/-- The overflow interrupt counts the overflow. -/
theorem Inv.count (h : Inv s) (hpc : s.pc = .overflow) :
    Inv { s with clock := s.clock.timer0Ovf fCpu, pc := .task } := by
  have hcounted := h.counted
  rw [hpc, if_pos rfl] at hcounted
  refine ⟨?_, fun v hv => absurd hv (by simp)⟩
  show BitVec.ofNat 32 s.wraps = (s.clock.timer0Ovf fCpu).overflowCount +
    (if s.timer.flag tov0 then 1 else 0) + 0
  rw [overflowCount_timer0Ovf, hcounted]
  generalize (if s.timer.flag tov0 = true then (1 : BitVec 32) else 0) = pending
  grind

/-- One access of an interrupt or of `yield`. -/
theorem Inv.proceed (h : Inv s) (hproceed : s.proceed = some s')
    (hclean : ¬ Clobbers (s, .proceed)) : Inv s' := by
  unfold Ticking.proceed at hproceed
  cases hpc : s.pc with
  | task =>
      rw [hpc] at hproceed
      exact absurd hproceed (by simp)
  | overflow =>
      rw [hpc] at hproceed
      rw [← Option.some.inj hproceed]
      exact h.count hpc
  | compb =>
      rw [hpc] at hproceed
      rw [← Option.some.inj hproceed]
      exact h.quiet rfl rfl rfl (by rw [hpc]; decide) (by simp [setCompare])
        fun v hv => absurd hv (by simp [setCompare])
  | yield =>
      rw [hpc] at hproceed
      rw [← Option.some.inj hproceed]
      exact h.quiet rfl rfl rfl (by rw [hpc]; decide) (by simp [setCompare])
        fun v hv => absurd hv (by simp [setCompare])
  | yieldTest =>
      rw [hpc] at hproceed
      rw [← Option.some.inj hproceed]
      refine h.quiet rfl rfl rfl (by rw [hpc]; decide) ?_ fun v hv => ?_
      · dsimp only
        split <;> decide
      · dsimp only at hv
        split at hv <;> exact absurd hv (by simp)
  | yieldRead =>
      rw [hpc] at hproceed
      rw [← Option.some.inj hproceed]
      refine h.quiet rfl rfl rfl (by rw [hpc]; decide) (by simp) fun v hv hset => ?_
      rw [flag_iff, TimerPc.yieldWrite.inj hv]
      exact hset
  | yieldWrite v =>
      rw [hpc] at hproceed
      rw [← Option.some.inj hproceed]
      have hzero : v &&& tov0 = 0 := by
        by_contra hc
        exact hclean ⟨rfl, v, hpc, hc⟩
      refine h.quiet rfl rfl (flag_write_of_not ?_) (by rw [hpc]; simp) (by simp)
        fun w hw => absurd hw (by simp)
      rw [or_ocf0b_and_tov0]
      exact hzero

/-- **One event** that happens in time and does not clobber `TOV0`. -/
theorem inv_next (h : Inv s) (hnext : s.next e = some s')
    (ht : e = .tick → s.timer.tcnt0 = 255 → s.timer.flag tov0 = false)
    (hclean : ¬ Clobbers (s, e)) : Inv s' := by
  cases e with
  | tick =>
      rw [← Option.some.inj hnext]
      exact inv_tick h (ht rfl)
  | overflow =>
      unfold next at hnext
      by_cases hcond : s.pc = .task ∧ s.timer.flag tov0 = true
      · rw [if_pos hcond] at hnext
        rw [← Option.some.inj hnext]
        exact h.serve hcond.1 hcond.2
      · rw [if_neg hcond] at hnext
        exact absurd hnext (by simp)
  | compb =>
      unfold next at hnext
      by_cases hcond : s.pc = .task ∧ s.timer.flag ocf0b = true
      · rw [if_pos hcond] at hnext
        rw [← Option.some.inj hnext]
        refine h.quiet rfl rfl (flag_write_of_not (by decide)) ?_ (by simp)
          fun v hv => absurd hv (by simp)
        rw [hcond.1]
        decide
      · rw [if_neg hcond] at hnext
        exact absurd hnext (by simp)
  | yield =>
      unfold next at hnext
      by_cases hcond : s.pc = .task
      · rw [if_pos hcond] at hnext
        rw [← Option.some.inj hnext]
        refine h.quiet rfl rfl rfl ?_ (by simp) fun v hv => absurd hv (by simp)
        rw [hcond]
        decide
      · rw [if_neg hcond] at hnext
        exact absurd hnext (by simp)
  | proceed => exact h.proceed hnext hclean

/-- A write that clobbers `TOV0` loses the overflow that is pending. -/
theorem not_exact_of_clobbers (h : Inv s) (hnext : s.next e = some s')
    (hc : Clobbers (s, e)) : ¬ s'.Exact := by
  obtain ⟨rfl, v, hpc, hset⟩ := hc
  have hproceed : s.proceed = some s' := hnext
  have hcounted := h.counted
  unfold proceed at hproceed
  rw [hpc] at hproceed
  rw [h.found v hpc hset, if_pos rfl, hpc, if_neg (by simp)] at hcounted
  rw [← Option.some.inj hproceed]
  intro hexact
  have heq := hexact (by simp)
  dsimp only at heq
  rw [flag_write_of_set ((or_ocf0b_and_tov0 v).trans (and_tov0_of_ne_zero v hset)),
    if_neg Bool.false_ne_true, hcounted] at heq
  have hone : (1 : BitVec 32) = 0 := by
    have h := (BitVec.add_right_inj s.clock.overflowCount).mp ((BitVec.add_zero _).symm.trans heq)
    exact h
  exact absurd hone (by decide)

/-! ### Runs -/

/-- **No overflow is lost**, in a run in which none is left unserved for 256 ticks, just
when no `TIFR0 |= (1 << OCF0B)` of `yield` finds `TOV0` set at its read. -/
theorem none_lost_iff {ocr0b : Byte} {h : List (Ticking × TimerEvent)}
    (hrun : Run (init ocr0b) h s) (ht : Timely h) :
    ((∀ c ∈ h, c.1.Exact) ∧ s.Exact) ↔ ∀ c ∈ h, ¬ Clobbers c := by
  have hcases : ((∀ c ∈ h, c.1.Exact) ∧ Inv s ∧ ∀ c ∈ h, ¬ Clobbers c) ∨
      (¬ ((∀ c ∈ h, c.1.Exact) ∧ s.Exact) ∧ ∃ c ∈ h, Clobbers c) := by
    induction hrun with
    | nil =>
        exact Or.inl ⟨fun c hc => absurd hc List.not_mem_nil, inv_init ocr0b,
          fun c hc => absurd hc List.not_mem_nil⟩
    | snoc hrun hnext ih =>
        rename_i s s' h e
        rcases ih fun c hc => ht c (List.mem_append_left _ hc) with
          ⟨hex, hinv, hclean⟩ | ⟨hnot, c, hc, hclob⟩
        · by_cases hclob : Clobbers (s, e)
          · refine Or.inr ⟨fun hall => not_exact_of_clobbers hinv hnext hclob hall.2,
              (s, e), ?_, hclob⟩
            exact List.mem_append_right _ (List.mem_singleton.mpr rfl)
          · refine Or.inl ⟨fun c hc => ?_, inv_next hinv hnext ?_ hclob, fun c hc => ?_⟩
            · rcases List.mem_append.mp hc with hc | hc
              · exact hex c hc
              · rw [List.mem_singleton.mp hc]
                exact hinv.exact
            · exact ht (s, e) (List.mem_append_right _ (List.mem_singleton.mpr rfl))
            · rcases List.mem_append.mp hc with hc | hc
              · exact hclean c hc
              · rw [List.mem_singleton.mp hc]
                exact hclob
        · refine Or.inr ⟨fun hall => hnot ⟨fun c hc => ?_, ?_⟩, c, List.mem_append_left _ hc, hclob⟩
          · exact hall.1 c (List.mem_append_left _ hc)
          · exact hall.1 (s, e) (List.mem_append_right _ (List.mem_singleton.mpr rfl))
  rcases hcases with ⟨hex, hinv, hclean⟩ | ⟨hnot, c, hc, hclob⟩
  · exact iff_of_true ⟨hex, hinv.exact⟩ hclean
  · exact iff_of_false hnot fun hclean => hclean c hc hclob

/-- The events one after another. -/
def play : List TimerEvent → List (Ticking × TimerEvent) × Ticking →
    Option (List (Ticking × TimerEvent) × Ticking)
  | [], c => some c
  | e :: es, (h, s) =>
      match s.next e with
      | none => none
      | some s' => play es (h ++ [(s, e)], s')

theorem play_run {s₀ : Ticking} {es : List TimerEvent}
    {c c' : List (Ticking × TimerEvent) × Ticking}
    (hrun : Run s₀ c.1 c.2) (hp : play es c = some c') : Run s₀ c'.1 c'.2 := by
  induction es generalizing c with
  | nil => exact Option.some.inj hp ▸ hrun
  | cons e es ih =>
      obtain ⟨h, s⟩ := c
      unfold play at hp
      cases hnext : s.next e with
      | none =>
          rw [hnext] at hp
          exact absurd hp (by simp)
      | some s' =>
          rw [hnext] at hp
          exact ih (hrun.snoc hnext) hp

/-- An overflow that is served. -/
def servedWrap : List TimerEvent := List.replicate 256 .tick ++ [.overflow, .proceed]

theorem none_lost_iff_servedWrap :
    ∃ h s, Run (init 246) h s ∧ s.wraps = 1 ∧ ∀ c ∈ h, ¬ Clobbers c := by
  have hplay : (play servedWrap ([], init 246)).map (fun c => decide (Timely c.1 ∧
      ((∀ x ∈ c.1, x.1.Exact) ∧ c.2.Exact) ∧ c.2.wraps = 1)) = some true := by decide +kernel
  obtain ⟨⟨h, s⟩, hc, hdec⟩ := Option.map_eq_some_iff.mp hplay
  obtain ⟨ht, hexact, hwraps⟩ := of_decide_eq_true hdec
  have hrun : Run (init 246) h s := play_run .nil hc
  exact ⟨h, s, hrun, hwraps, (none_lost_iff hrun ht).mp hexact⟩

/-- A first `yield` at tick 8 sets the compare register to 254; a second one begins at
tick 253, and takes three ticks until it looks at the flags. -/
def lateYield : List TimerEvent :=
  List.replicate 8 .tick ++ [.yield, .proceed, .proceed] ++ List.replicate 245 .tick ++
    [.yield, .tick, .tick, .tick, .proceed, .proceed, .proceed, .proceed]

/-- The match and the overflow are pending together, and `yield` clears both. -/
theorem yield_clears_overflow :
    ∃ h s, Run (init 246) h s ∧ Timely h ∧ s.pc = .task ∧ s.wraps = 1 ∧
      s.clock.overflowCount = 0 ∧ s.timer.flag tov0 = false ∧ ¬ s.Exact := by
  have hplay : (play lateYield ([], init 246)).map (fun c => decide (Timely c.1 ∧
      c.2.pc = .task ∧ c.2.wraps = 1 ∧ c.2.clock.overflowCount = 0 ∧
        c.2.timer.flag tov0 = false ∧ ¬ c.2.Exact)) = some true := by decide +kernel
  obtain ⟨⟨h, s⟩, hc, hdec⟩ := Option.map_eq_some_iff.mp hplay
  exact ⟨h, s, play_run .nil hc, of_decide_eq_true hdec⟩

end Ticking

end AtmegaScheduler
