/-
How long a task runs before the next one.

A switch reads `TCNT0` and stores `OCR0B = freq_to_timer_comp_value<1000, 64>() + TCNT0`
some ticks later, and from then on the timer waits for the counter to come there.
`soft_yield` stores what it has read from `TCNT0` as it is.  The timer goes on between any
two accesses, and in `soft_yield` other tasks may run between them too, so what is told
here about a slice is counted in ticks from a read of `TCNT0`.

The comparator is that of the clock's model: it finds the match while the counter stands
at `OCR0B`, and the flag is set with the tick that leaves it.
-/
import AtmegaScheduler.Drivers.Clock
import Mathlib.Logic.Function.Basic

namespace AtmegaScheduler

open Avr

/-- Where the program is. -/
inductive SlicePc
  /-- In the code of the running task. -/
  | task
  /-- In the compare match interrupt, before its read of `TCNT0`. -/
  | compb
  /-- Before the store to `OCR0B`, when `tcnt0` has been read. -/
  | compbStore (tcnt0 : Byte)
  /-- In `yield`, before its read of `TCNT0`. -/
  | yield
  | yieldStore (tcnt0 : Byte)
  /-- `if (TIFR0 & (1 << OCF0B))` -/
  | yieldTest
  /-- `TIFR0 |= (1 << OCF0B)` -/
  | yieldClear
  deriving DecidableEq, Repr

/-- The compare unit, where the program is, and which tasks are in the middle of
`soft_yield` with what they have read.  `age` counts the ticks since the read of `TCNT0`
that began the slice, and `mark` is what it was at the read of a switch. -/
structure Slicing (τ : Type) where
  tcnt0 : Byte
  ocr0b : Byte
  ocf0b : Bool
  pc : SlicePc
  cTask : τ
  soft : τ → Option Byte
  age : Nat
  mark : Nat

/-- What happens next: a tick, an interrupt or a `yield` that switches to `u`, a
`soft_yield` of the running task with its read, or the program goes on. -/
inductive SliceEvent (τ : Type)
  | tick
  | compb (u : τ)
  | yield (u : τ)
  | softYield
  | proceed
  deriving DecidableEq, Repr

namespace Slicing

variable {τ : Type} [DecidableEq τ]

/-- One tick of the timer. -/
def tick (s : Slicing τ) : Slicing τ :=
  { s with
    tcnt0 := s.tcnt0 + 1
    ocf0b := s.ocf0b || compareMatch s.tcnt0 s.ocr0b
    age := s.age + 1 }

/-- `OCR0B = freq_to_timer_comp_value<1000, 64>() + TCNT0`, its store. -/
def setCompare (s : Slicing τ) (tcnt0 : Byte) (pc : SlicePc) : Slicing τ :=
  { s with
    ocr0b := freqToTimerCompValue 1000 64 + tcnt0
    pc := pc
    age := s.age - s.mark }

/-- The program goes on. -/
def proceed (s : Slicing τ) : Option (Slicing τ) :=
  match s.pc with
  | .task =>
      (s.soft s.cTask).map fun v =>
        { s with ocr0b := v, soft := Function.update s.soft s.cTask none }
  | .compb => some { s with pc := .compbStore s.tcnt0, mark := s.age }
  | .compbStore v => some (s.setCompare v .task)
  | .yield => some { s with pc := .yieldStore s.tcnt0, mark := s.age }
  | .yieldStore v => some (s.setCompare v .yieldTest)
  | .yieldTest => some { s with pc := if s.ocf0b then .yieldClear else .task }
  | .yieldClear => some { s with ocf0b := false, pc := .task }

/-- One event.  Entering the interrupt clears the flag. -/
def next (s : Slicing τ) : SliceEvent τ → Option (Slicing τ)
  | .tick => some s.tick
  | .compb u =>
      if s.pc = .task ∧ s.ocf0b = true then
        some { s with ocf0b := false, pc := .compb, cTask := u }
      else none
  | .yield u =>
      if s.pc = .task ∧ s.soft s.cTask = none then some { s with pc := .yield, cTask := u }
      else none
  | .softYield =>
      if s.pc = .task ∧ s.soft s.cTask = none then
        some { s with soft := Function.update s.soft s.cTask (some s.tcnt0) }
      else none
  | .proceed => s.proceed

/-- A run: the events, each with the state it happens in. -/
inductive Run (s₀ : Slicing τ) : List (Slicing τ × SliceEvent τ) → Slicing τ → Prop
  | nil : Run s₀ [] s₀
  | snoc {s s' : Slicing τ} {h : List (Slicing τ × SliceEvent τ)} {e : SliceEvent τ}
      (hrun : Run s₀ h s) (hnext : s.next e = some s') : Run s₀ (h ++ [(s, e)]) s'

/-- How far the counter is from `OCR0B`. -/
def due (s : Slicing τ) : Nat := (s.ocr0b - s.tcnt0).toNat

/-- A slice that has begun `age` ticks ago, and nothing has disturbed it. -/
structure Fresh (s : Slicing τ) : Prop where
  pc : s.pc = .task
  flag : s.ocf0b = false
  due : s.age + s.due = 246

/-- A switch is short, and it does not come late: from its read of `TCNT0` to its last
access it takes less than 247 ticks, and the interrupt has stored `OCR0B` before the
counter comes to the old value once more. -/
structure OnTime (s : Slicing τ) : Prop where
  compb : ∀ v, s.pc = .compbStore v → s.age - s.mark ≤ 246 ∧ s.age ≤ 502
  yield : s.pc = .yieldTest ∨ s.pc = .yieldClear → s.age ≤ 246

/-- Every switch of the run is. -/
def Prompt (h : List (Slicing τ × SliceEvent τ)) : Prop :=
  ∀ c ∈ h, c.2 = .proceed → OnTime c.1

/-! ### The timer -/

section Timer

variable {s : Slicing τ}

omit [DecidableEq τ] in
theorem due_lt (s : Slicing τ) : s.due < 256 := (s.ocr0b - s.tcnt0).isLt

omit [DecidableEq τ] in
theorem due_eq_zero : s.due = 0 ↔ s.tcnt0 = s.ocr0b := by
  unfold due
  constructor
  · intro h
    bv_omega
  · intro h
    bv_omega

omit [DecidableEq τ] in
theorem due_tick (s : Slicing τ) : s.tick.due = if s.due = 0 then 255 else s.due - 1 := by
  show (s.ocr0b - (s.tcnt0 + 1)).toNat = if (s.ocr0b - s.tcnt0).toNat = 0 then 255 else
    (s.ocr0b - s.tcnt0).toNat - 1
  split
  · bv_omega
  · bv_omega

omit [DecidableEq τ] in
theorem flag_tick_iff (s : Slicing τ) : s.tick.ocf0b = true ↔ s.ocf0b = true ∨ s.due = 0 := by
  rw [due_eq_zero]
  show (s.ocf0b || compareMatch s.tcnt0 s.ocr0b) = true ↔ _
  rw [Bool.or_eq_true, compareMatch, decide_eq_true_eq]

omit [DecidableEq τ] in
/-- **The flag is set** when the counter has come to `OCR0B` and left it. -/
theorem flag_ticks (n : Nat) (s : Slicing τ) :
    (tick^[n] s).ocf0b = true ↔ s.ocf0b = true ∨ s.due < n := by
  induction n generalizing s with
  | zero => exact ⟨Or.inl, fun h => h.resolve_right (Nat.not_lt_zero _)⟩
  | succ n ih =>
      rw [Function.iterate_succ_apply, ih, flag_tick_iff, due_tick, or_assoc]
      refine or_congr Iff.rfl ?_
      by_cases hzero : s.due = 0
      · rw [if_pos hzero]
        omega
      · rw [if_neg hzero]
        omega

omit [DecidableEq τ] in
theorem due_ticks {n : Nat} (hbefore : n ≤ s.due) : (tick^[n] s).due = s.due - n := by
  induction n with
  | zero => rfl
  | succ n ih =>
      rw [Function.iterate_succ_apply', due_tick, ih (Nat.le_of_succ_le hbefore),
        if_neg (by omega)]
      omega

/-- How far the counter is from a value it stood at `k` ticks ago. -/
theorem sub_add_ofNat (v : Byte) (k : Nat) :
    (v - (v + BitVec.ofNat 8 k)).toNat = (256 - k % 256) % 256 := by
  have hsub : v - (v + BitVec.ofNat 8 k) = 0 - BitVec.ofNat 8 k := by bv_omega
  rw [hsub, BitVec.toNat_sub, BitVec.toNat_ofNat]
  show (256 - k % 256 + 0) % 256 = _
  rw [Nat.add_zero]

end Timer

/-! ### A slice -/

section Slices

variable {s s' : Slicing τ} {e : SliceEvent τ} {h : List (Slicing τ × SliceEvent τ)}

/-- What holds in a run without `soft_yield`: the counter stands where the age of the
slice says, and the flag is set from tick 247 on.  The interrupt has cleared it, and it is
not set again before the counter comes round. -/
structure Steady (s : Slicing τ) : Prop where
  soft : ∀ t, s.soft t = none
  phase : (s.age + s.due) % 256 = 246
  task : s.pc = .task → (s.ocf0b = true ↔ 247 ≤ s.age)
  compb : s.pc = .compb → 247 ≤ s.age ∧ (s.ocf0b = true → 503 ≤ s.age)
  stored : ∀ v, s.pc = .compbStore v → 247 ≤ s.age ∧ (s.ocf0b = true → 503 ≤ s.age)
  read : ∀ v, s.pc = .compbStore v ∨ s.pc = .yieldStore v → s.mark ≤ s.age ∧
    s.tcnt0 = v + BitVec.ofNat 8 (s.age - s.mark)

omit [DecidableEq τ] in
theorem steady_of_fresh (hfresh : Fresh s) (hsoft : ∀ t, s.soft t = none) : Steady s := by
  have hlt := hfresh.due
  refine ⟨hsoft, by omega, fun _ => ?_, ?_, ?_, ?_⟩
  · rw [hfresh.flag]
    simp only [Bool.false_eq_true, false_iff]
    omega
  · intro hpc
    rw [hfresh.pc] at hpc
    cases hpc
  · intro v hpc
    rw [hfresh.pc] at hpc
    cases hpc
  · intro v hpc
    rw [hfresh.pc] at hpc
    rcases hpc with hpc | hpc <;> cases hpc

omit [DecidableEq τ] in
theorem steady_tick (hs : Steady s) : Steady s.tick := by
  have hphase := hs.phase
  have hdue := due_tick s
  have hlt := due_lt s
  have hflag := flag_tick_iff s
  have hage : s.tick.age = s.age + 1 := rfl
  refine ⟨hs.soft, ?_, ?_, ?_, ?_, ?_⟩
  · split at hdue <;> omega
  · intro hpc
    rw [hflag, hs.task hpc, hage]
    omega
  · intro hpc
    obtain ⟨hold, hset⟩ := hs.compb hpc
    refine ⟨by omega, fun h => ?_⟩
    rcases hflag.mp h with h | h
    · have := hset h
      omega
    · omega
  · intro v hpc
    obtain ⟨hold, hset⟩ := hs.stored v hpc
    refine ⟨by omega, fun h => ?_⟩
    rcases hflag.mp h with h | h
    · have := hset h
      omega
    · omega
  · intro v hpc
    obtain ⟨hmark, hcount⟩ := hs.read v hpc
    refine ⟨Nat.le_succ_of_le hmark, ?_⟩
    show s.tcnt0 + 1 = v + BitVec.ofNat 8 (s.age + 1 - s.mark)
    rw [hcount, Nat.sub_add_comm hmark, BitVec.ofNat_add, BitVec.add_assoc]
    rfl

omit [DecidableEq τ] in
/-- The store of a switch: the slice is as old as the read is. -/
theorem phase_setCompare {v : Byte} (hread : s.tcnt0 = v + BitVec.ofNat 8 (s.age - s.mark))
    (pc : SlicePc) :
    ((s.setCompare v pc).age + (s.setCompare v pc).due) % 256 = 246 := by
  show (s.age - s.mark + (freqToTimerCompValue 1000 64 + v - s.tcnt0).toNat) % 256 = 246
  have hval : (freqToTimerCompValue 1000 64 : Byte) = 246 := by decide
  rw [hread, hval]
  generalize s.age - s.mark = k
  have hsub : (246 + v - (v + BitVec.ofNat 8 k) : Byte) = 246 - BitVec.ofNat 8 k := by bv_omega
  rw [hsub, BitVec.toNat_sub, BitVec.toNat_ofNat]
  show (k + (256 - k % 256 + 246) % 256) % 256 = 246
  omega

omit [DecidableEq τ] in
/-- `TCNT0` has just been read. -/
theorem read_now (s : Slicing τ) :
    s.age ≤ s.age ∧ s.tcnt0 = s.tcnt0 + BitVec.ofNat 8 (s.age - s.age) := by
  refine ⟨Nat.le_refl _, ?_⟩
  rw [Nat.sub_self]
  bv_omega

/-- A switch that is prompt ends with a slice as the next one has to begin. -/
theorem steady_proceed (hs : Steady s) (hnext : s.proceed = some s')
    (hgo : OnTime s) : Steady s' := by
  unfold proceed at hnext
  split at hnext
  next => simp only [hs.soft, Option.map_none, reduceCtorEq] at hnext
  next hpc =>
    cases hnext
    obtain ⟨hold, hset⟩ := hs.compb hpc
    refine ⟨hs.soft, hs.phase, nofun, nofun, fun v _ => ⟨hold, hset⟩, fun v hv => ?_⟩
    rcases hv with hv | hv <;> cases hv
    exact read_now s
  next v hpc =>
    cases hnext
    obtain ⟨hmark, hcount⟩ := hs.read v (.inl hpc)
    obtain ⟨hshort, hearly⟩ := hgo.compb v hpc
    refine ⟨hs.soft, phase_setCompare hcount .task, fun _ => ?_, nofun, nofun, ?_⟩
    · -- the flag is not set again yet, and the new slice is not over
      have hclear : s.ocf0b ≠ true := fun h => by
        have := (hs.stored v hpc).2 h
        omega
      have hage : (s.setCompare v .task).age = s.age - s.mark := rfl
      rw [hage]
      show s.ocf0b = true ↔ _
      constructor
      · intro h
        exact absurd h hclear
      · intro h
        omega
    · intro w hw
      rcases hw with hw | hw <;> cases hw
  next hpc =>
    cases hnext
    refine ⟨hs.soft, hs.phase, nofun, nofun, nofun, fun v hv => ?_⟩
    rcases hv with hv | hv <;> cases hv
    exact read_now s
  next v hpc =>
    cases hnext
    obtain ⟨hmark, hcount⟩ := hs.read v (.inr hpc)
    refine ⟨hs.soft, phase_setCompare hcount .yieldTest, nofun, nofun, nofun, ?_⟩
    intro w hw
    rcases hw with hw | hw <;> cases hw
  next hpc =>
    cases hnext
    have hyoung := hgo.yield (.inl hpc)
    by_cases hflag : s.ocf0b = true
    · rw [if_pos hflag]
      refine ⟨hs.soft, hs.phase, nofun, nofun, nofun, ?_⟩
      intro w hw
      rcases hw with hw | hw <;> cases hw
    · rw [if_neg hflag]
      refine ⟨hs.soft, hs.phase, fun _ => ?_, nofun, nofun, ?_⟩
      · constructor
        · intro h
          exact absurd h hflag
        · intro h
          exact absurd (Nat.le_trans h hyoung) (by decide)
      · intro w hw
        rcases hw with hw | hw <;> cases hw
  next hpc =>
    cases hnext
    have hyoung := hgo.yield (.inr hpc)
    refine ⟨hs.soft, hs.phase, fun _ => ?_, nofun, nofun, ?_⟩
    · constructor
      · intro h
        cases h
      · intro h
        exact absurd (Nat.le_trans h hyoung) (by decide)
    · intro w hw
      rcases hw with hw | hw <;> cases hw

theorem steady_next (hs : Steady s) (hnext : s.next e = some s') (hsoft : e ≠ .softYield)
    (hprompt : Prompt [(s, e)]) : Steady s' := by
  cases e with
  | tick =>
      cases hnext
      exact steady_tick hs
  | compb u =>
      simp only [next, Option.ite_none_right_eq_some, Option.some.injEq] at hnext
      obtain ⟨⟨hpc, hflag⟩, rfl⟩ := hnext
      have hold := (hs.task hpc).mp hflag
      refine ⟨hs.soft, hs.phase, ?_, fun _ => ⟨hold, ?_⟩, ?_, ?_⟩
      · intro h
        cases h
      · intro h
        cases h
      · intro v h
        cases h
      · intro v h
        rcases h with h | h <;> cases h
  | yield u =>
      simp only [next, Option.ite_none_right_eq_some, Option.some.injEq] at hnext
      obtain ⟨-, rfl⟩ := hnext
      refine ⟨hs.soft, hs.phase, ?_, ?_, ?_, ?_⟩
      · intro h
        cases h
      · intro h
        cases h
      · intro v h
        cases h
      · intro v h
        rcases h with h | h <;> cases h
  | softYield => exact absurd rfl hsoft
  | proceed =>
      exact steady_proceed hs hnext (hprompt _ (List.mem_singleton_self _) rfl)

theorem steady_run (hrun : Run s h s') (hs : Steady s) (hsoft : ∀ c ∈ h, c.2 ≠ .softYield)
    (hprompt : Prompt h) : Steady s' := by
  induction hrun with
  | nil => exact hs
  | @snoc s₁ s₂ h e _ hnext ih =>
      have hlast : (s₁, e) ∈ h ++ [(s₁, e)] := List.mem_append_right _ (List.mem_singleton_self _)
      have hbefore : Steady s₁ := ih (fun c hc => hsoft c (List.mem_append_left _ hc))
        fun c hc => hprompt c (List.mem_append_left _ hc)
      refine steady_next hbefore hnext (hsoft _ hlast) fun c hc => ?_
      rw [List.mem_singleton.mp hc]
      exact hprompt _ hlast

/-- **Slices are equally long**: however the tasks are switched, by the interrupt or by
`yield`, the flag is set while a task runs exactly when 247 ticks have gone since the
read of `TCNT0` that began its slice. -/
theorem slice_exact {s₀ s : Slicing τ} {h : List (Slicing τ × SliceEvent τ)} (hrun : Run s₀ h s)
    (hfresh : Fresh s₀) (hnone : ∀ t, s₀.soft t = none) (hsoft : ∀ c ∈ h, c.2 ≠ .softYield)
    (hprompt : Prompt h) (hpc : s.pc = .task) : s.ocf0b = true ↔ 247 ≤ s.age :=
  (steady_run hrun (steady_of_fresh hfresh hnone) hsoft hprompt).task hpc

/-- The interrupt switches as the first slice ends. -/
theorem slice_exact_compb : ∃ h s, Run (τ := Bool) ⟨246, 246, false, .task, false,
      fun _ => none, 246, 0⟩ h s ∧ s.cTask = true ∧ (s.ocf0b = true ↔ 247 ≤ s.age) := by
  have hrun : Run (τ := Bool) ⟨246, 246, false, .task, false, fun _ => none, 246, 0⟩ _ _ :=
    .snoc (e := .proceed) (.snoc (e := .tick) (.snoc (e := .proceed)
      (.snoc (e := .compb true) (.snoc (e := .tick) .nil rfl) rfl) rfl) rfl) rfl
  refine ⟨_, _, hrun, rfl, slice_exact hrun ⟨rfl, rfl, rfl⟩ (fun _ => rfl) ?_ ?_ rfl⟩
  · simp
  · intro c hc _
    simp at hc
    refine ⟨?_, ?_⟩ <;> rcases hc with rfl | rfl | rfl | rfl | rfl <;> simp [tick]

end Slices

/-! ### `soft_yield` -/

section SoftYield

variable {s s' : Slicing τ} {e : SliceEvent τ} {h : List (Slicing τ × SliceEvent τ)}

/-- The ticks of a run. -/
def ticks (h : List (Slicing τ × SliceEvent τ)) : Nat := h.countP fun c => c.2 = .tick

/-- The store of `soft_yield` is the next thing its task does. -/
def Own (t : τ) (s : Slicing τ) (e : SliceEvent τ) : Prop :=
  s.pc = .task ∧ s.cTask = t ∧ e = .proceed

theorem ticks_snoc (s : Slicing τ) (e : SliceEvent τ) (h : List (Slicing τ × SliceEvent τ)) :
    ticks (h ++ [(s, e)]) = ticks h + if e = .tick then 1 else 0 := by
  unfold ticks
  rw [List.countP_append, List.countP_singleton]
  simp only [decide_eq_true_eq]

theorem tcnt0_next (hnext : s.next e = some s') :
    s'.tcnt0 = s.tcnt0 + BitVec.ofNat 8 (if e = .tick then 1 else 0) := by
  have hsame : s.tcnt0 + BitVec.ofNat 8 0 = s.tcnt0 := by bv_omega
  cases e with
  | tick =>
      cases hnext
      rfl
  | compb u =>
      simp only [next, Option.ite_none_right_eq_some, Option.some.injEq] at hnext
      rw [← hnext.2]
      exact hsame.symm
  | yield u =>
      simp only [next, Option.ite_none_right_eq_some, Option.some.injEq] at hnext
      rw [← hnext.2]
      exact hsame.symm
  | softYield =>
      simp only [next, Option.ite_none_right_eq_some, Option.some.injEq] at hnext
      rw [← hnext.2]
      exact hsame.symm
  | proceed =>
      have hkeep : s'.tcnt0 = s.tcnt0 := by
        change s.proceed = some s' at hnext
        unfold proceed at hnext
        split at hnext
        next =>
          obtain ⟨v, -, rfl⟩ := Option.map_eq_some_iff.mp hnext
          rfl
        all_goals
          cases hnext
          rfl
      rw [hkeep]
      exact hsame.symm

/-- What a task has read stays with it while others run. -/
theorem soft_next {t : τ} {v : Byte} (hnext : s.next e = some s')
    (hread : s.soft t = some v) (hown : ¬ Own t s e) : s'.soft t = some v := by
  cases e with
  | tick =>
      cases hnext
      exact hread
  | compb u =>
      simp only [next, Option.ite_none_right_eq_some, Option.some.injEq] at hnext
      rw [← hnext.2]
      exact hread
  | yield u =>
      simp only [next, Option.ite_none_right_eq_some, Option.some.injEq] at hnext
      rw [← hnext.2]
      exact hread
  | softYield =>
      simp only [next, Option.ite_none_right_eq_some, Option.some.injEq] at hnext
      obtain ⟨⟨-, hnone⟩, rfl⟩ := hnext
      have hne : t ≠ s.cTask := fun h => by
        rw [h, hnone] at hread
        cases hread
      show Function.update s.soft s.cTask _ t = some v
      rw [Function.update_of_ne hne, hread]
  | proceed =>
      change s.proceed = some s' at hnext
      unfold proceed at hnext
      split at hnext
      next hpc =>
        obtain ⟨w, -, rfl⟩ := Option.map_eq_some_iff.mp hnext
        have hne : t ≠ s.cTask := fun h => hown ⟨hpc, h.symm, rfl⟩
        show Function.update s.soft s.cTask _ t = some v
        rw [Function.update_of_ne hne, hread]
      all_goals
        cases hnext
        exact hread

theorem soft_run {t : τ} {v : Byte} (hrun : Run s h s') (hread : s.soft t = some v)
    (hown : ∀ c ∈ h, ¬ Own t c.1 c.2) :
    s'.soft t = some v ∧ s'.tcnt0 = s.tcnt0 + BitVec.ofNat 8 (ticks h) := by
  induction hrun with
  | nil => exact ⟨hread, by show s.tcnt0 = s.tcnt0 + BitVec.ofNat 8 0; bv_omega⟩
  | @snoc s₁ s₂ h e _ hnext ih =>
      obtain ⟨hstays, hcount⟩ := ih fun c hc => hown c (List.mem_append_left _ hc)
      refine ⟨soft_next hnext hstays
        (hown _ (List.mem_append_right _ (List.mem_singleton_self _))), ?_⟩
      rw [tcnt0_next hnext, hcount, ticks_snoc, BitVec.ofNat_add, BitVec.add_assoc]

/-- **What `soft_yield` asks for**: whatever runs between its read and its store, the flag
comes with the next tick only when the timer has not gone on between them; else it comes
when the counter has gone round to the value that was read. -/
theorem soft_yield_due {t : τ} {s s₁ s₂ s₃ : Slicing τ} {h : List (Slicing τ × SliceEvent τ)}
    (hcall : s.next .softYield = some s₁) (ht : s.cTask = t) (hrun : Run s₁ h s₂)
    (hown : ∀ c ∈ h, ¬ Own t c.1 c.2) (hback : Own t s₂ .proceed)
    (hstore : s₂.next .proceed = some s₃) (n : Nat) :
    (tick^[n] s₃).ocf0b = true ↔
      s₂.ocf0b = true ∨ (256 - ticks h % 256) % 256 < n := by
  simp only [next, Option.ite_none_right_eq_some, Option.some.injEq] at hcall
  obtain ⟨-, rfl⟩ := hcall
  obtain ⟨hstays, hcount⟩ := soft_run (t := t) (v := s.tcnt0) hrun
    (by rw [← ht]; exact Function.update_self _ _ _) hown
  obtain ⟨hpc, hcur, -⟩ := hback
  simp only [next, proceed, hpc, hcur, hstays, Option.map_some, Option.some.injEq] at hstore
  rw [flag_ticks, ← hstore]
  show s₂.ocf0b = true ∨ (s.tcnt0 - s₂.tcnt0).toNat < n ↔ _
  rw [hcount]
  show s₂.ocf0b = true ∨ (s.tcnt0 - (s.tcnt0 + BitVec.ofNat 8 (ticks h))).toNat < n ↔ _
  rw [sub_add_ofNat]

/-- The interrupt comes in between, and another task yields: one tick is enough for the
flag to be late. -/
theorem soft_yield_due_between : ∃ s₃ : Slicing Bool,
    ∀ n, (tick^[n] s₃).ocf0b = true ↔ false = true ∨ 255 < n := by
  have hrun : Run (τ := Bool) ⟨7, 7, false, .task, false,
      Function.update (fun _ => none) false (some 7), 246, 0⟩ _ _ :=
    .snoc (e := .proceed) (.snoc (e := .proceed) (.snoc (e := .proceed) (.snoc (e := .yield false)
      (.snoc (e := .proceed) (.snoc (e := .proceed) (.snoc (e := .compb true)
        (.snoc (e := .tick) .nil rfl) rfl) rfl) rfl) rfl) rfl) rfl) rfl
  refine ⟨_, soft_yield_due (t := false) (s := ⟨7, 7, false, .task, false, fun _ => none, 246, 0⟩)
    rfl rfl hrun ?_ ⟨rfl, rfl, rfl⟩ rfl⟩
  intro c hc
  simp at hc
  rcases hc with rfl | rfl | rfl | rfl | rfl | rfl | rfl | rfl <;> simp [Own, tick, setCompare]

theorem Run.append {s₀ s₁ s₂ : Slicing τ} {h k : List (Slicing τ × SliceEvent τ)}
    (hrun : Run s₀ h s₁) (hmore : Run s₁ k s₂) : Run s₀ (h ++ k) s₂ := by
  induction hmore with
  | nil => simpa only [List.append_nil] using hrun
  | snoc _ hnext ih =>
      rw [← List.append_assoc]
      exact .snoc ih hnext

/-- One round of a loop with `soft_yield`: `m` ticks, its read, `k` ticks, its store. -/
def softRound (m k : Nat) : List (SliceEvent τ) :=
  List.replicate m .tick ++ (.softYield :: List.replicate k .tick ++ [.proceed])

/-- The task goes on, and the flag is not set. -/
def Keeps (t : τ) (s : Slicing τ) : Prop :=
  s.pc = .task ∧ s.cTask = t ∧ s.ocf0b = false

omit [DecidableEq τ] in
theorem iterate_tick (n : Nat) (s : Slicing τ) :
    tick^[n] s = { s with
      tcnt0 := s.tcnt0 + BitVec.ofNat 8 n
      ocf0b := (tick^[n] s).ocf0b
      age := s.age + n } := by
  induction n with
  | zero =>
      show s = { s with tcnt0 := s.tcnt0 + BitVec.ofNat 8 0 }
      rw [show s.tcnt0 + BitVec.ofNat 8 0 = s.tcnt0 by bv_omega]
  | succ n ih =>
      rw [Function.iterate_succ_apply', ih]
      show ({ s with tcnt0 := _ + 1, ocf0b := _, age := _ } : Slicing τ) = _
      rw [BitVec.ofNat_add, ← BitVec.add_assoc, ← Nat.add_assoc]
      rfl

/-- Until the counter comes to `OCR0B` the task goes on. -/
theorem keeps_ticks {t : τ} (n : Nat) (hkeeps : Keeps t s) (hdue : n ≤ s.due) :
    Keeps t (tick^[n] s) ∧
      ∃ h, Run s h (tick^[n] s) ∧ h.map Prod.snd = List.replicate n .tick ∧
        ∀ c ∈ h, Keeps t c.1 := by
  have hkept : ∀ m, m ≤ s.due → Keeps t (tick^[m] s) := by
    intro m hm
    obtain ⟨hpc, hcur, hflag⟩ := hkeeps
    refine ⟨?_, ?_, ?_⟩
    · rw [iterate_tick]
      exact hpc
    · rw [iterate_tick]
      exact hcur
    · rw [Bool.eq_false_iff, Ne, flag_ticks, hflag]
      rintro (h | h)
      · cases h
      · omega
  refine ⟨hkept n hdue, ?_⟩
  induction n with
  | zero => exact ⟨[], .nil, rfl, nofun⟩
  | succ n ih =>
      obtain ⟨h, hrun, hevents, hall⟩ := ih (Nat.le_of_succ_le hdue)
      refine ⟨h ++ [(tick^[n] s, .tick)], ?_, ?_, ?_⟩
      · rw [Function.iterate_succ_apply']
        exact .snoc hrun rfl
      · rw [List.map_append, hevents, List.replicate_succ']
        rfl
      · intro c hc
        rcases List.mem_append.mp hc with hc | hc
        · exact hall c hc
        · rw [List.mem_singleton.mp hc]
          exact hkept n (Nat.le_of_succ_le hdue)

/-- One round. -/
theorem keeps_round {t : τ} {m k : Nat} (hkeeps : Keeps t s) (hnone : s.soft t = none)
    (hdue : m + k ≤ s.due) (hk : 1 ≤ k) (hround : m + 2 * k ≤ 256) :
    ∃ h s', Run s h s' ∧ h.map Prod.snd = softRound m k ∧ (∀ c ∈ h, Keeps t c.1) ∧
      Keeps t s' ∧ s'.soft t = none ∧ m + k ≤ s'.due := by
  obtain ⟨hbefore, h₁, hrun₁, hevents₁, hall₁⟩ := keeps_ticks m hkeeps (by omega)
  -- the read
  have hcur : (tick^[m] s).cTask = t := hbefore.2.1
  have hfree : (tick^[m] s).soft (tick^[m] s).cTask = none := by
    rw [hcur, iterate_tick]
    exact hnone
  obtain ⟨r, hr⟩ : ∃ r, (tick^[m] s).next .softYield = some r :=
    ⟨_, if_pos ⟨hbefore.1, hfree⟩⟩
  have hread := hr
  simp only [next, Option.ite_none_right_eq_some, Option.some.injEq] at hread
  obtain ⟨-, hread⟩ := hread
  have hkeepsr : Keeps t r := by
    rw [← hread]
    exact hbefore
  have hduer : k ≤ r.due := by
    rw [← hread]
    show k ≤ (tick^[m] s).due
    rw [due_ticks (by omega)]
    omega
  obtain ⟨hafter, h₂, hrun₂, hevents₂, hall₂⟩ := keeps_ticks k hkeepsr hduer
  -- the store
  have hheld : (tick^[k] r).soft (tick^[k] r).cTask = some (tick^[m] s).tcnt0 := by
    rw [iterate_tick, ← hread]
    exact Function.update_self _ _ _
  obtain ⟨w, hw⟩ : ∃ w, (tick^[k] r).next .proceed = some w := by
    simp only [next, proceed, hafter.1, hheld, Option.map_some]
    exact ⟨_, rfl⟩
  have hstore := hw
  simp only [next, proceed, hafter.1, hheld, Option.map_some, Option.some.injEq] at hstore
  refine ⟨h₁ ++ [(tick^[m] s, .softYield)] ++ h₂ ++ [(tick^[k] r, .proceed)], w,
    .snoc ((Run.snoc hrun₁ hr).append hrun₂) hw, ?_, ?_, ?_, ?_, ?_⟩
  · simp only [List.map_append, hevents₁, hevents₂, List.map_cons, List.map_nil, softRound,
      List.append_assoc, List.cons_append, List.nil_append]
  · intro c hc
    simp only [List.mem_append, List.mem_singleton] at hc
    rcases hc with ((hc | hc) | hc) | hc
    · exact hall₁ c hc
    · rw [hc]
      exact hbefore
    · exact hall₂ c hc
    · rw [hc]
      exact hafter
  · rw [← hstore]
    exact ⟨rfl, hafter.2⟩
  · rw [← hstore]
    show Function.update (tick^[k] r).soft (tick^[k] r).cTask none t = none
    rw [hafter.2.1, Function.update_self]
  · rw [← hstore]
    show m + k ≤ ((tick^[m] s).tcnt0 - (tick^[k] r).tcnt0).toNat
    have hgone : (tick^[k] r).tcnt0 = (tick^[m] s).tcnt0 + BitVec.ofNat 8 k := by
      rw [iterate_tick, ← hread]
    rw [hgone, sub_add_ofNat]
    omega

/-- **`soft_yield` can keep every other task waiting**: a task that calls it every `m + k`
ticks, with `k` of them between its read and its store, is never switched, however often
it calls it. -/
theorem soft_yield_keeps {t : τ} {s : Slicing τ} (hkeeps : Keeps t s) (hnone : s.soft t = none)
    {m k : Nat} (hdue : m + k ≤ s.due) (hk : 1 ≤ k) (hround : m + 2 * k ≤ 256) (n : Nat) :
    ∃ h s', Run s h s' ∧ h.map Prod.snd = (List.replicate n (softRound m k)).flatten ∧
      (∀ c ∈ h, Keeps t c.1) ∧ Keeps t s' := by
  induction n generalizing s with
  | zero => exact ⟨[], s, .nil, rfl, nofun, hkeeps⟩
  | succ n ih =>
      obtain ⟨h₁, s₁, hrun₁, hevents₁, hall₁, hkeeps₁, hnone₁, hdue₁⟩ :=
        keeps_round hkeeps hnone hdue hk hround
      obtain ⟨h₂, s₂, hrun₂, hevents₂, hall₂, hkeeps₂⟩ := ih hkeeps₁ hnone₁ hdue₁
      refine ⟨h₁ ++ h₂, s₂, hrun₁.append hrun₂, ?_, ?_, hkeeps₂⟩
      · rw [List.map_append, hevents₁, hevents₂, List.replicate_succ, List.flatten_cons]
      · intro c hc
        rcases List.mem_append.mp hc with hc | hc
        · exact hall₁ c hc
        · exact hall₂ c hc

/-- A call every hundred ticks, with one of them between the read and the store. -/
theorem soft_yield_keeps_hundred : ∃ h s', Run (τ := Bool)
      ⟨0, 246, false, .task, false, fun _ => none, 0, 0⟩ h s' ∧
      h.map Prod.snd = (List.replicate 1000 (softRound 99 1)).flatten ∧
      (∀ c ∈ h, Keeps false c.1) ∧ Keeps false s' :=
  soft_yield_keeps ⟨rfl, rfl, rfl⟩ rfl (by decide) (by decide) (by decide) 1000

end SoftYield

end Slicing

end AtmegaScheduler
