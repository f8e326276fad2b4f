/-
The registers of timer 0, as `timer.cpp` writes them.

Every function is a sequence of accesses that read a register, change some of its bits
and write it back, and a task may be preempted between any two statements and between
the read and the write of an access.  Only `initialize_clock` disables interrupts.

An access is safe as long as nobody else writes the register between its read and its
write.  `timer0_set_clock_source` is two accesses, and keeping them apart from those of
others is not enough for it.
-/
import AtmegaScheduler.Avr.Cpu
import AtmegaScheduler.Lib.BitUpdate
import AtmegaScheduler.Lib.Preemption
import Mathlib.Data.Fintype.Basic

namespace AtmegaScheduler

open Avr Preemption

/-- The registers that are written. -/
inductive Timer0Reg
  | tccr0a
  | tccr0b
  | timsk0
  | prr
  deriving DecidableEq, Repr

/-- `timer0_2_waveform_generation_mode_t` -/
inductive WaveformGenerationMode
  | normal
  | pwmPhaseCorrect
  | ctc
  | fastPwm
  | pwmPhaseCorrectOcra
  | fastPwmOcra
  deriving DecidableEq, Repr

def WaveformGenerationMode.val : WaveformGenerationMode → Byte
  | normal => 0x00
  | pwmPhaseCorrect => 0x01
  | ctc => 0x02
  | fastPwm => 0x03
  | pwmPhaseCorrectOcra => 0x09
  | fastPwmOcra => 0x0b

/-- `timer0_interrupt_t` -/
inductive Timer0Interrupt
  | compa
  | compb
  | overflow
  deriving DecidableEq, Repr

def Timer0Interrupt.val : Timer0Interrupt → Byte
  | compa => 0x02
  | compb => 0x04
  | overflow => 0x01

/-- `timer0_clock_select_t` -/
inductive Timer0ClockSelect
  | noClockSource
  | noPrescaler
  | prescaler8
  | prescaler64
  | prescaler256
  | prescaler1024
  | externalClockSourceFalling
  | externalClockSourceRising
  deriving DecidableEq, Repr

def Timer0ClockSelect.val : Timer0ClockSelect → Byte
  | noClockSource => 0
  | noPrescaler => 1
  | prescaler8 => 2
  | prescaler64 => 3
  | prescaler256 => 4
  | prescaler1024 => 5
  | externalClockSourceFalling => 6
  | externalClockSourceRising => 7

/-- `(1 << WGM01) | (1 << WGM00)` in `TCCR0A` -/
def wgm0a : Byte := 0x03

/-- `(1 << WGM02)` in `TCCR0B` -/
def wgm0b : Byte := 0x08

/-- `(1 << CS02) | (1 << CS01) | (1 << CS00)` in `TCCR0B` -/
def cs0 : Byte := 0x07

/-- `(1 << PRTIM0)` in `PRR` -/
def prtim0 : Byte := 0x20

/-- A register is read, changed and written back. -/
structure Timer0Access where
  reg : Timer0Reg
  update : BitUpdate 8
  deriving DecidableEq, Repr

def timer0SetWaveformGenerationMode (mode : WaveformGenerationMode) : List Timer0Access :=
  [⟨.tccr0a, ⟨~~~wgm0a, mode.val &&& wgm0a⟩⟩, ⟨.tccr0b, ⟨~~~wgm0b, mode.val &&& wgm0b⟩⟩]

def timer0SetClockSource (clockSource : Timer0ClockSelect) : List Timer0Access :=
  [⟨.tccr0b, .clearBits cs0⟩, ⟨.tccr0b, .orBits clockSource.val⟩]

def enableTimer0Interrupt (interrupt : Timer0Interrupt) : List Timer0Access :=
  [⟨.timsk0, .orBits interrupt.val⟩]

def disableTimer0Interrupt (interrupt : Timer0Interrupt) : List Timer0Access :=
  [⟨.timsk0, .clearBits interrupt.val⟩]

def enableTimer0 : List Timer0Access := [⟨.prr, .clearBits prtim0⟩]

def disableTimer0 : List Timer0Access := [⟨.prr, .orBits prtim0⟩]

/-- The accesses of `initialize_clock`. -/
def clockAccesses : List Timer0Access :=
  timer0SetWaveformGenerationMode .normal ++ timer0SetClockSource .prescaler64 ++
    enableTimer0Interrupt .overflow ++ enableTimer0

/-- A statement. -/
inductive Timer0Stmt
  /-- `uint8_t sreg = SREG` -/
  | saveSreg
  | cli
  | access (a : Timer0Access)
  /-- `SREG = sreg` -/
  | restoreSreg
  deriving DecidableEq, Repr

def initializeClock : List Timer0Stmt :=
  .saveSreg :: .cli :: (clockAccesses.map .access ++ [.restoreSreg])

/-- A call of one of the functions. -/
inductive Timer0Call
  | setWaveformGenerationMode (mode : WaveformGenerationMode)
  | setClockSource (clockSource : Timer0ClockSelect)
  | enableInterrupt (interrupt : Timer0Interrupt)
  | disableInterrupt (interrupt : Timer0Interrupt)
  | enable
  | disable
  | initializeClock
  deriving DecidableEq, Repr

def Timer0Call.stmts : Timer0Call → List Timer0Stmt
  | setWaveformGenerationMode mode => (timer0SetWaveformGenerationMode mode).map .access
  | setClockSource clockSource => (timer0SetClockSource clockSource).map .access
  | enableInterrupt interrupt => (enableTimer0Interrupt interrupt).map .access
  | disableInterrupt interrupt => (disableTimer0Interrupt interrupt).map .access
  | enable => enableTimer0.map .access
  | disable => disableTimer0.map .access
  | initializeClock => AtmegaScheduler.initializeClock

/-- Where a call is: the statements that are left, what the first of them has read from
its register, and the local `sreg`. -/
structure Timer0Pc where
  call : Timer0Call
  stmts : List Timer0Stmt
  loaded : Option Byte
  sreg : Bool
  deriving DecidableEq, Repr

namespace Timer0Pc

/-- Before the first statement. -/
def start (call : Timer0Call) : Timer0Pc := ⟨call, call.stmts, none, false⟩

/-- On to the next statement, or back to the caller. -/
def rest (p : Timer0Pc) (stmts : List Timer0Stmt) (sreg : Bool) : Timer0Pc ⊕ Unit :=
  if stmts = [] then .inr () else .inl ⟨p.call, stmts, none, sreg⟩

/-- The access the call is at. -/
def access (p : Timer0Pc) : Option Timer0Access :=
  match p.stmts with
  | .access a :: _ => some a
  | _ => none

end Timer0Pc

/-- The registers. -/
abbrev Timer0Regs : Type := Timer0Reg → Byte

def timer0Stmt (m : Timer0Regs) (i : Bool) (p : Timer0Pc) : Effect Timer0Regs Timer0Pc Unit :=
  match p.stmts with
  | [] => ⟨m, i, .inr ()⟩
  | .saveSreg :: stmts => ⟨m, i, p.rest stmts i⟩
  | .cli :: stmts => ⟨m, false, p.rest stmts p.sreg⟩
  | .restoreSreg :: stmts => ⟨m, p.sreg, p.rest stmts p.sreg⟩
  | .access a :: stmts =>
      match p.loaded with
      | none => ⟨m, i, .inl { p with loaded := some (m a.reg) }⟩
      | some v => ⟨Function.update m a.reg (a.update.apply v), i, p.rest stmts p.sreg⟩

/-- No interrupt handler writes these registers. -/
def timer0Code : Code Timer0Regs Timer0Pc Unit Empty where
  entry p := decide (p = .start p.call)
  stmt := timer0Stmt
  irq _ j := j.elim

namespace Timer0

variable {τ : Type} [DecidableEq τ]

abbrev Trace (τ : Type) : Type := History τ Timer0Regs Timer0Pc Empty

abbrev World (τ : Type) : Type := State τ Timer0Regs Timer0Pc

/-- The call is about to write to the register. -/
def heldAt (r : Timer0Reg) (p : Timer0Pc) : Bool :=
  p.loaded.isSome && p.access.any fun a => a.reg = r

/-- The call is about to read the register. -/
def acquiresAt (r : Timer0Reg) (p : Timer0Pc) : Bool :=
  p.loaded.isNone && p.access.any fun a => a.reg = r

/-- The update with which a call is about to write to the register. -/
def storing (r : Timer0Reg) (p : Timer0Pc) : Option (BitUpdate 8) :=
  if heldAt r p then p.access.map Timer0Access.update else none

/-- The update that is written with an event. -/
def storedBy (r : Timer0Reg) (c : World τ × Preemption.Event τ Timer0Pc Empty) :
    Option (BitUpdate 8) :=
  match c.2 with
  | .stmt => c.1.here.bind (storing r)
  | _ => none

/-- The updates of a register, in the order in which they have been written. -/
def stored (r : Timer0Reg) (h : Trace τ) : List (BitUpdate 8) := shown (storedBy r) h

/-- No task reads the register for an access of its own while another task is between
its read and its write. -/
def Apart (r : Timer0Reg) (h : Trace τ) : Prop := Exclusive (heldAt r) (acquiresAt r) h

instance [Fintype τ] (r : Timer0Reg) (h : Trace τ) : Decidable (Apart r h) :=
  inferInstanceAs (Decidable (Exclusive (heldAt r) (acquiresAt r) h))

/-! ### One register -/

section Registers

variable {r : Timer0Reg} {m : Timer0Regs} {i : Bool} {p p' : Timer0Pc} {h : Trace τ}
  {s : World τ} {v : Byte}

theorem heldAt_iff :
    heldAt r p = true ↔ ∃ v a, p.loaded = some v ∧ p.access = some a ∧ a.reg = r := by
  unfold heldAt
  rw [Bool.and_eq_true, Option.isSome_iff_exists, Option.any_eq_true]
  simp only [decide_eq_true_eq]
  exact ⟨fun ⟨⟨v, hv⟩, a, ha, hr⟩ => ⟨v, a, hv, ha, hr⟩,
    fun ⟨v, a, hv, ha, hr⟩ => ⟨⟨v, hv⟩, a, ha, hr⟩⟩

/-- Going on with the next statement nothing has been read yet. -/
theorem rest_goes {stmts : List Timer0Stmt} {sreg : Bool} (hgoes : p.rest stmts sreg = .inl p') :
    p' = ⟨p.call, stmts, none, sreg⟩ ∧ stmts ≠ [] := by
  unfold Timer0Pc.rest at hgoes
  by_cases hnil : stmts = []
  · rw [if_pos hnil] at hgoes
    cases hgoes
  · rw [if_neg hnil] at hgoes
    exact ⟨(Sum.inl.inj hgoes).symm, hnil⟩

/-- What a statement does. -/
theorem timer0Stmt_cases (m : Timer0Regs) (i : Bool) (p : Timer0Pc) :
    (p.access = none ∧ (timer0Stmt m i p).mem = m ∧
      ∀ p', (timer0Stmt m i p).goes = .inl p' → p'.loaded = none) ∨
    (∃ a, p.access = some a ∧ p.loaded = none ∧
      timer0Stmt m i p = ⟨m, i, .inl { p with loaded := some (m a.reg) }⟩) ∨
    (∃ a v stmts, p.access = some a ∧ p.loaded = some v ∧ p.stmts = .access a :: stmts ∧
      timer0Stmt m i p =
        ⟨Function.update m a.reg (a.update.apply v), i, p.rest stmts p.sreg⟩) := by
  obtain ⟨call, stmts, loaded, sreg⟩ := p
  cases stmts with
  | nil => exact Or.inl ⟨rfl, rfl, fun p' hgoes => by cases hgoes⟩
  | cons st stmts =>
      cases st with
      | saveSreg => exact Or.inl ⟨rfl, rfl, fun p' hgoes => by rw [(rest_goes hgoes).1]⟩
      | cli => exact Or.inl ⟨rfl, rfl, fun p' hgoes => by rw [(rest_goes hgoes).1]⟩
      | restoreSreg => exact Or.inl ⟨rfl, rfl, fun p' hgoes => by rw [(rest_goes hgoes).1]⟩
      | access a =>
          cases loaded with
          | none => exact Or.inr (Or.inl ⟨a, rfl, rfl, rfl⟩)
          | some v => exact Or.inr (Or.inr ⟨a, v, stmts, rfl, rfl, rfl, rfl⟩)

theorem storing_of_held (hheld : heldAt r p = true) :
    storing r p = p.access.map Timer0Access.update :=
  if_pos hheld

theorem storing_of_unheld (hheld : heldAt r p = false) : storing r p = none :=
  if_neg (by rw [hheld]; exact Bool.false_ne_true)

/-- **A statement** writes to the register what it has read there and changed. -/
theorem timer0Stmt_mem (hp : heldAt r p = true → p.loaded = some (m r)) :
    (timer0Stmt m i p).mem r = BitUpdate.applyAll (storing r p).toList (m r) := by
  rcases timer0Stmt_cases m i p with ⟨hacc, hmem, -⟩ | ⟨a, hacc, hload, hstmt⟩ |
    ⟨a, v, stmts, hacc, hload, -, hstmt⟩
  · have hfree : heldAt r p = false := by
      unfold heldAt
      rw [hacc, Option.any_none, Bool.and_false]
    rw [hmem, storing_of_unheld hfree]
    rfl
  · have hfree : heldAt r p = false := by
      unfold heldAt
      rw [hload, Option.isSome_none, Bool.false_and]
    rw [hstmt, storing_of_unheld hfree]
    rfl
  · rw [hstmt]
    by_cases hr : a.reg = r
    · have hheld : heldAt r p = true := heldAt_iff.mpr ⟨v, a, hload, hacc, hr⟩
      obtain rfl : v = m r := Option.some.inj (hload.symm.trans (hp hheld))
      rw [storing_of_held hheld, hacc, hr]
      exact Function.update_self ..
    · have hfree : heldAt r p = false := by
        rw [Bool.eq_false_iff, Ne, heldAt_iff]
        rintro ⟨w, b, -, hb, hbr⟩
        rw [hacc] at hb
        exact hr (Option.some.inj hb ▸ hbr)
      rw [storing_of_unheld hfree]
      exact Function.update_of_ne (Ne.symm hr) ..

/-- What a call has read it has read with the statement before. -/
theorem timer0Stmt_held (hgoes : (timer0Stmt m i p).goes = .inl p') (hheld : heldAt r p' = true) :
    acquiresAt r p = true ∧ p'.loaded = some ((timer0Stmt m i p).mem r) := by
  obtain ⟨v, a, hv, ha, hr⟩ := heldAt_iff.mp hheld
  rcases timer0Stmt_cases m i p with ⟨-, -, hnone⟩ | ⟨b, hacc, hload, hstmt⟩ |
    ⟨b, w, stmts, -, -, -, hstmt⟩
  · rw [hnone p' hgoes] at hv
    cases hv
  · rw [hstmt] at hgoes ⊢
    obtain rfl := Sum.inl.inj hgoes
    obtain rfl : b = a := Option.some.inj (hacc.symm.trans ha)
    refine ⟨?_, ?_⟩
    · unfold acquiresAt
      rw [hload, hacc, Option.isNone_none, Bool.true_and, Option.any_some]
      exact decide_eq_true hr
    · rw [hr]
  · rw [hstmt] at hgoes
    rw [(rest_goes hgoes).1] at hv
    cases hv

/-- A call that is not about to write leaves the register alone. -/
theorem timer0Stmt_unheld (hp : heldAt r p = false) : (timer0Stmt m i p).mem r = m r := by
  rw [timer0Stmt_mem fun hheld => absurd (hheld.symm.trans hp) (by decide), storing_of_unheld hp]
  rfl

variable (τ) in
/-- What holds of a register where, which was `before` at first. -/
def registerAssertions (r : Timer0Reg) (before : Byte) :
    Assertions τ Timer0Regs Timer0Pc Empty where
  held := heldAt r
  acquires := acquiresAt r
  masked := fun _ => false
  steady h m := m r = BitUpdate.applyAll (stored r h) before
  learnt m p := heldAt r p = true → p.loaded = some (m r)
  inside := fun _ _ _ => False

omit [DecidableEq τ] in
theorem stored_stmt (hat : s.here = some p) :
    stored r (h ++ [(s, .stmt)]) = stored r h ++ (storing r p).toList := by
  unfold stored
  rw [shown_snoc]
  show _ ++ (s.here.bind (storing r)).toList = _
  rw [hat]
  rfl

omit [DecidableEq τ] in
/-- A statement is accounted for. -/
theorem steady_stmt {before : Byte} (hat : s.here = some p)
    (hst : s.mem r = BitUpdate.applyAll (stored r h) before)
    (hp : heldAt r p = true → p.loaded = some (s.mem r)) :
    (timer0Stmt s.mem s.iflag p).mem r =
      BitUpdate.applyAll (stored r (h ++ [(s, .stmt)])) before := by
  rw [timer0Stmt_mem hp, stored_stmt hat, BitUpdate.applyAll_append, hst]

omit [DecidableEq τ] in
theorem register_outline (r : Timer0Reg) (before : Byte) :
    Outline timer0Code (registerAssertions τ r before) where
  entry := by
    intro m p hentry
    have hp : p = .start p.call := of_decide_eq_true hentry
    have hfree : heldAt r p = false := by
      rw [hp]
      rfl
    exact ⟨hfree, rfl, fun hheld => absurd (hheld.symm.trans hfree) (by decide)⟩
  stays := by
    intro h s p p' hat hP hgoes
    obtain ⟨hst, hp⟩ := (at_free rfl).mp hP
    refine ⟨fun hheld => Or.inr (timer0Stmt_held hgoes hheld).1, (at_free rfl).mpr ⟨?_, ?_⟩⟩
    · exact steady_stmt hat hst hp
    · exact fun hheld => (timer0Stmt_held hgoes hheld).2
  leaves := by
    intro h s p _ hat hP _
    obtain ⟨hst, hp⟩ := (at_free rfl).mp hP
    exact steady_stmt hat hst hp
  other := by
    intro m i p p' hapart _ hp' hheld
    have hfree : heldAt r p = false := by
      by_contra hc
      exact absurd (hheld.symm.trans (hapart (Bool.not_eq_false _ ▸ hc))) (by decide)
    rw [hp' hheld]
    exact congrArg some (timer0Stmt_unheld hfree).symm
  irq := by
    intro _ _ j
    exact j.elim
  idle := by
    intro h s e hstmt _ hst
    have hnone : storedBy r (s, e) = none := by
      cases e with
      | stmt => exact absurd rfl hstmt
      | _ => rfl
    show s.mem r = BitUpdate.applyAll (stored r (h ++ [(s, e)])) before
    unfold stored
    rw [shown_snoc, hnone, Option.toList_none, List.append_nil]
    exact hst

/-- **Every bit** of a register is what the last access that has written it has made of
it, wherever the tasks stand, as long as nobody reads the register between the read and
the write of another task. -/
theorem register_bits {s₀ s : World τ} {h : Trace τ} (hrun : Run timer0Code s₀ h s)
    (hout : s₀.Outside) {r : Timer0Reg} (hapart : Apart r h) (i : Nat) :
    (s.mem r).getLsbD i = BitUpdate.lastWritten i (stored r h) ((s₀.mem r).getLsbD i) := by
  have hk := (register_outline r (s₀.mem r)).sound hrun hout rfl hapart
  have hst : s.mem r = BitUpdate.applyAll (stored r h) (s₀.mem r) := hk.quiet fun p _ => rfl
  rw [hst, BitUpdate.getLsbD_applyAll]

end Registers

/-- The registers after a reset, and two tasks. -/
def afterReset : World Bool := ⟨fun _ => 0, true, false, fun _ => none⟩

/-- One task enables an interrupt while another one selects a clock source. -/
theorem register_bits_timsk0 : ∃ h s, Run timer0Code afterReset h s ∧
    stored .timsk0 h = [.orBits 0x04, .clearBits 0x02] ∧ (s.mem .timsk0).getLsbD 2 = true := by
  have hplay : ((play timer0Code [.call (.start (.setClockSource .prescaler64)), .stmt,
      .switch true, .call (.start (.enableInterrupt .compb)), .stmt, .stmt, .switch false, .stmt,
      .stmt, .stmt, .call (.start (.disableInterrupt .compa)), .stmt, .stmt]
      ([], afterReset)).map fun c => decide (Apart .timsk0 c.1 ∧
        stored .timsk0 c.1 = [.orBits 0x04, .clearBits 0x02])) = some true := by decide +kernel
  obtain ⟨⟨h, s⟩, hc, hdec⟩ := Option.map_eq_some_iff.mp hplay
  obtain ⟨hapart, hstored⟩ := of_decide_eq_true hdec
  have hrun : Run timer0Code afterReset h s := play_run .nil hc
  have hbit := register_bits hrun (fun _ => rfl) hapart 2
  rw [hstored] at hbit
  exact ⟨h, s, hrun, hstored, hbit⟩

/-! ### `initialize_clock` -/

section Clock

variable {m : Timer0Regs} {i : Bool} {p p' : Timer0Pc} {h : Trace τ} {s : World τ}

/-- One access after another, with nobody in between. -/
def writeAll (as : List Timer0Access) (m : Timer0Regs) : Timer0Regs :=
  as.foldl (fun m a => Function.update m a.reg (a.update.apply (m a.reg))) m

theorem writeAll_snoc (as : List Timer0Access) (a : Timer0Access) (m : Timer0Regs) :
    writeAll (as ++ [a]) m =
      Function.update (writeAll as m) a.reg (a.update.apply (writeAll as m a.reg)) := by
  unfold writeAll
  rw [List.foldl_append]
  rfl

/-- `initialize_clock` before its `cli` has been executed. -/
def beforeCli (p : Timer0Pc) : Prop := p.stmts = initializeClock ∨ p.stmts = initializeClock.tail

/-- A task executes the `cli`, and the registers are `m₀`. -/
structure IsCli (c : World τ × Preemption.Event τ Timer0Pc Empty) (m₀ : Timer0Regs) : Prop where
  stmt : c.2 = .stmt
  mem : c.1.mem = m₀
  here : ∃ p, c.1.here = some p ∧ p.call = .initializeClock ∧ p.stmts = initializeClock.tail

/-- The registers were `m₀` when the `cli` was executed, and after it there are only
statements. -/
def BehindCli (h : Trace τ) (m₀ : Timer0Regs) : Prop :=
  ∃ h₁ c h₂, h = h₁ ++ c :: h₂ ∧ IsCli c m₀ ∧ ∀ d ∈ h₂, d.2 = .stmt

/-- The registers were `m₀` when `t` executed the `cli` of the call it is in: since then
there are only statements of its own. -/
def AtCli (h : Trace τ) (t : τ) (m₀ : Timer0Regs) : Prop :=
  ∃ h₁ c h₂, h = h₁ ++ c :: h₂ ∧ IsCli c m₀ ∧ ∀ d ∈ c :: h₂, d.2 = .stmt ∧ d.1.cTask = t

/-- Behind the `cli`: some of the accesses are done, and nobody has been in between. -/
structure Inside (h : Trace τ) (m : Timer0Regs) (p : Timer0Pc) (done todo : List Timer0Access)
    (m₀ : Timer0Regs) : Prop where
  behindCli : BehindCli h m₀
  accesses : clockAccesses = done ++ todo
  stmts : p.stmts = todo.map .access ++ [.restoreSreg]
  mem : m = writeAll done m₀
  loaded : ∀ v a, p.loaded = some v → p.access = some a → v = m a.reg

variable (τ) in
def clockAssertions : Assertions τ Timer0Regs Timer0Pc Empty where
  held := fun _ => false
  acquires := fun _ => false
  masked := fun p => decide (p.call = .initializeClock ∧ p.stmts.length ≤ 7)
  steady := fun _ _ => True
  learnt := fun _ p => p.call = .initializeClock → beforeCli p
  inside := fun h m p => ∃ done todo m₀, Inside h m p done todo m₀

theorem goes_call (hgoes : (timer0Stmt m i p).goes = .inl p') : p'.call = p.call := by
  obtain ⟨call, stmts, loaded, sreg⟩ := p
  cases stmts with
  | nil => cases hgoes
  | cons st stmts =>
      cases st with
      | access a =>
          cases loaded with
          | none =>
              obtain rfl := Sum.inl.inj hgoes
              rfl
          | some v => rw [(rest_goes hgoes).1]
      | _ => rw [(rest_goes hgoes).1]

omit [DecidableEq τ] in
theorem BehindCli.stmt {m₀ : Timer0Regs} (hcli : BehindCli h m₀) (s : World τ) :
    BehindCli (h ++ [(s, .stmt)]) m₀ := by
  obtain ⟨h₁, c, h₂, rfl, hc, hstmts⟩ := hcli
  refine ⟨h₁, c, h₂ ++ [(s, .stmt)], ?_, hc, fun d hd => ?_⟩
  · rw [List.append_assoc, List.cons_append]
  · rcases List.mem_append.mp hd with hd | hd
    · exact hstmts d hd
    · rw [List.mem_singleton.mp hd]

/-- A task that has executed only statements since has not been switched out. -/
theorem BehindCli.atCli {m₀ : Timer0Regs} {s₀ : World τ} (hcli : BehindCli h m₀)
    (hrun : Run timer0Code s₀ h s) : AtCli h s.cTask m₀ := by
  obtain ⟨h₁, c, h₂, rfl, hc, hstmts⟩ := hcli
  have hall : ∀ d ∈ c :: h₂, d.2 = .stmt := List.forall_mem_cons.mpr ⟨hc.stmt, hstmts⟩
  exact ⟨h₁, c, h₂, rfl, hc, fun d hd => ⟨hall d hd, hrun.same_task hall d hd⟩⟩

omit [DecidableEq τ] in
/-- The first two statements. -/
theorem enter_stmt (hat : s.here = some p) (hcall : p.call = .initializeClock)
    (hbefore : beforeCli p) (hgoes : (timer0Stmt s.mem s.iflag p).goes = .inl p') :
    p'.stmts = initializeClock.tail ∨
      (timer0Stmt s.mem s.iflag p).iflag = false ∧ p'.stmts.length ≤ 7 ∧
        Inside (h ++ [(s, .stmt)]) (timer0Stmt s.mem s.iflag p).mem p' [] clockAccesses s.mem := by
  rcases hbefore with hstmts | hstmts
  · have hstmt : timer0Stmt s.mem s.iflag p =
        ⟨s.mem, s.iflag, p.rest initializeClock.tail s.iflag⟩ := by
      unfold timer0Stmt
      rw [hstmts]
      rfl
    rw [hstmt] at hgoes
    have hrest : p.rest initializeClock.tail s.iflag = .inl p' := hgoes
    rw [(rest_goes hrest).1]
    exact Or.inl rfl
  · have hstmt : timer0Stmt s.mem s.iflag p =
        ⟨s.mem, false, p.rest (clockAccesses.map .access ++ [.restoreSreg]) p.sreg⟩ := by
      unfold timer0Stmt
      rw [hstmts]
      rfl
    rw [hstmt] at hgoes ⊢
    have hrest : p.rest (clockAccesses.map .access ++ [.restoreSreg]) p.sreg = .inl p' := hgoes
    rw [(rest_goes hrest).1]
    refine Or.inr ⟨rfl, Nat.le_refl 7, ?_, rfl, rfl, rfl, nofun⟩
    exact ⟨h, (s, .stmt), [], rfl, ⟨rfl, rfl, p, hat, hcall, hstmts⟩, nofun⟩

omit [DecidableEq τ] in
/-- A statement behind the `cli`. -/
theorem inside_stmt {done todo : List Timer0Access} {m₀ : Timer0Regs}
    (hin : Inside h m p done todo m₀) (s : World τ)
    (hgoes : (timer0Stmt m i p).goes = .inl p') :
    (timer0Stmt m i p).iflag = i ∧ p'.stmts.length ≤ 7 ∧ ∃ done todo m₀,
      Inside (h ++ [(s, .stmt)]) (timer0Stmt m i p).mem p' done todo m₀ := by
  obtain ⟨hcli, hall, hstmts, hmem, hload⟩ := hin
  have hlen : done.length + todo.length = 6 := by
    rw [← List.length_append, ← hall]
    rfl
  obtain ⟨call, stmts, loaded, sreg⟩ := p
  obtain rfl : stmts = todo.map .access ++ [.restoreSreg] := hstmts
  cases todo with
  | nil => cases hgoes
  | cons a todo =>
      rw [List.length_cons] at hlen
      cases loaded with
      | none =>
          obtain rfl := Sum.inl.inj hgoes
          refine ⟨rfl, ?_, done, a :: todo, m₀, hcli.stmt s, hall, rfl, hmem, ?_⟩
          · simp
            omega
          · intro v b hv hb
            obtain rfl : a = b := Option.some.inj hb
            exact (Option.some.inj hv).symm
      | some v =>
          obtain rfl := (rest_goes hgoes).1
          obtain rfl : v = m a.reg := hload v a rfl rfl
          refine ⟨rfl, ?_, done ++ [a], todo, m₀, hcli.stmt s, ?_, rfl, ?_, nofun⟩
          · simp
            omega
          · rw [hall, List.append_assoc]
            rfl
          · rw [writeAll_snoc, ← hmem]
            rfl

omit [DecidableEq τ] in
theorem clock_outline : Outline timer0Code (clockAssertions τ) where
  entry := by
    intro m p hentry
    have hp : p = .start p.call := of_decide_eq_true hentry
    have hstart : p.call = .initializeClock → p.stmts = initializeClock := by
      intro hcall
      rw [hp, hcall]
      rfl
    refine ⟨rfl, decide_eq_false fun hc => ?_, fun hcall => Or.inl (hstart hcall)⟩
    have hlen := hc.2
    rw [hstart hc.1] at hlen
    exact absurd hlen (by decide)
  stays := by
    intro h s p p' hat hP hgoes
    refine ⟨fun hc => absurd hc Bool.false_ne_true, ?_⟩
    have hcall : p'.call = p.call := goes_call hgoes
    by_cases hmask : p.call = .initializeClock ∧ p.stmts.length ≤ 7
    · obtain ⟨hi, done, todo, m₀, hin⟩ := (at_masked (decide_eq_true hmask)).mp hP
      obtain ⟨hsame, hlen, hnext⟩ := inside_stmt hin s hgoes
      exact (at_masked (decide_eq_true ⟨hcall.trans hmask.1, hlen⟩)).mpr ⟨hsame.trans hi, hnext⟩
    · obtain ⟨-, hbefore⟩ := (at_free (decide_eq_false hmask)).mp hP
      by_cases hinit : p.call = .initializeClock
      · rcases enter_stmt (h := h) hat hinit (hbefore hinit) hgoes with htail | ⟨hi, hlen, hin⟩
        · refine (at_free (decide_eq_false fun hc => ?_)).mpr ⟨trivial, fun _ => Or.inr htail⟩
          have hlen := hc.2
          rw [htail] at hlen
          exact absurd hlen (by decide)
        · exact (at_masked (decide_eq_true ⟨hcall.trans hinit, hlen⟩)).mpr ⟨hi, _, _, _, hin⟩
      · refine (at_free (decide_eq_false fun hc => ?_)).mpr ⟨trivial, fun hc => ?_⟩
        · exact hinit (hcall.symm.trans hc.1)
        · exact absurd (hcall.symm.trans hc) hinit
  leaves := fun _ _ _ _ _ _ _ => trivial
  other := fun _ _ _ _ _ _ hp' => hp'
  irq := by
    intro _ _ j
    exact j.elim
  idle := fun _ _ _ _ _ _ => trivial

/-- What the accesses make of the registers. -/
theorem writeAll_clock (m : Timer0Regs) : writeAll clockAccesses m = fun r =>
    match r with
    | .tccr0a => m .tccr0a &&& ~~~wgm0a
    | .tccr0b => m .tccr0b &&& ~~~(wgm0b ||| cs0) ||| Timer0ClockSelect.prescaler64.val
    | .timsk0 => m .timsk0 ||| Timer0Interrupt.overflow.val
    | .prr => m .prr &&& ~~~prtim0 := by
  have hmode : ∀ v : Byte, BitUpdate.apply ⟨~~~wgm0a, 0 &&& wgm0a⟩ v = v &&& ~~~wgm0a := by decide
  have hsource : ∀ v : Byte, (BitUpdate.orBits 3).apply ((BitUpdate.clearBits cs0).apply
      (BitUpdate.apply ⟨~~~wgm0b, 0 &&& wgm0b⟩ v)) = v &&& ~~~(wgm0b ||| cs0) ||| 3 := by decide
  have hmask : ∀ v : Byte, (BitUpdate.orBits 1).apply v = v ||| 1 := by decide
  have hpower : ∀ v : Byte, (BitUpdate.clearBits prtim0).apply v = v &&& ~~~prtim0 := by decide
  funext r
  cases r with
  | tccr0a => exact hmode _
  | tccr0b => exact hsource _
  | timsk0 => exact hmask _
  | prr => exact hpower _

/-- **When `initialize_clock` restores `SREG`** the registers are as they were at its `cli`,
but for the fields it sets: whatever the other tasks are in the middle of, there have been
only statements of its own in between. -/
theorem initialize_clock_exact {s₀ s : World τ} {h : Trace τ} (hrun : Run timer0Code s₀ h s)
    (hout : s₀.Outside) {p : Timer0Pc} (hat : s.here = some p) (hcall : p.call = .initializeClock)
    (hlast : p.stmts = [.restoreSreg]) :
    s.iflag = false ∧ ∃ m₀, AtCli h s.cTask m₀ ∧ s.mem = fun r =>
      match r with
      | .tccr0a => m₀ .tccr0a &&& ~~~wgm0a
      | .tccr0b => m₀ .tccr0b &&& ~~~(wgm0b ||| cs0) ||| Timer0ClockSelect.prescaler64.val
      | .timsk0 => m₀ .timsk0 ||| Timer0Interrupt.overflow.val
      | .prr => m₀ .prr &&& ~~~prtim0 := by
  have hapart : Exclusive (clockAssertions τ).held (clockAssertions τ).acquires h :=
    fun _ _ _ hacq => absurd hacq (by simp [clockAssertions])
  have hk := clock_outline.sound hrun hout trivial hapart
  have hmask : (clockAssertions τ).masked p = true := decide_eq_true ⟨hcall, by rw [hlast]; decide⟩
  obtain ⟨hi, done, todo, m₀, hcli, hall, hstmts, hmem, -⟩ := (at_masked hmask).mp (hk.here p hat)
  have hnil : todo = [] := by
    cases todo with
    | nil => rfl
    | cons a todo =>
        rw [hlast] at hstmts
        exact absurd (congrArg List.length hstmts) (by simp)
  rw [hnil, List.append_nil] at hall
  refine ⟨hi, m₀, hcli.atCli hrun, ?_⟩
  rw [hmem, ← hall, writeAll_clock]

/-- Another task is in the middle of an access. -/
theorem initialize_clock_exact_preempting : ∃ h s, Run timer0Code afterReset h s ∧
    s.place true ≠ none ∧ s.iflag = false ∧ ∃ m₀, AtCli h s.cTask m₀ ∧ s.mem .tccr0b =
      m₀ .tccr0b &&& ~~~(wgm0b ||| cs0) ||| Timer0ClockSelect.prescaler64.val := by
  have hplay : ((play timer0Code ([.switch true,
      .call (.start (.setClockSource .prescaler256)), .stmt, .stmt, .stmt, .switch false,
      .call (.start .initializeClock)] ++ List.replicate 14 .stmt) ([], afterReset)).map fun c =>
      decide (c.2.place true ≠ none ∧
        c.2.here = some ⟨.initializeClock, [.restoreSreg], none, true⟩)) = some true := by
    decide +kernel
  obtain ⟨⟨h, s⟩, hc, hdec⟩ := Option.map_eq_some_iff.mp hplay
  obtain ⟨hother, hat⟩ := of_decide_eq_true hdec
  have hrun : Run timer0Code afterReset h s := play_run .nil hc
  obtain ⟨hi, m₀, hcli, hmem⟩ := initialize_clock_exact hrun (fun _ => rfl) hat rfl rfl
  exact ⟨h, s, hrun, hother, hi, m₀, hcli, by rw [hmem]⟩

end Clock

/-! ### Two clock sources -/

section Sources

variable {r : Timer0Reg} {s w w' : World τ} {m m' : Timer0Regs} {i i' : Bool} {p : Timer0Pc}
  {es : List (Preemption.Event τ Timer0Pc Empty)}

/-- No task is between its read and its write. -/
def Free (r : Timer0Reg) (w : World τ) : Prop := ∀ u, (w.place u).any (heldAt r) = false

theorem Free.put {p : Option Timer0Pc} (hfree : Free r w) (hp : p.any (heldAt r) = false) :
    Free r (w.put m i p) := by
  intro u
  by_cases hu : u = w.cTask
  · rw [hu, put_place_self]
    exact hp
  · rw [put_place hu]
    exact hfree u

/-- These events lead from one state to another, and accesses are kept apart in the run. -/
def Reaches (r : Timer0Reg) (s : World τ) (es : List (Preemption.Event τ Timer0Pc Empty))
    (w : World τ) : Prop :=
  ∃ h, Run timer0Code s h w ∧ Apart r h ∧ h.map Prod.snd = es

theorem Reaches.refl (r : Timer0Reg) (s : World τ) : Reaches r s [] s := ⟨[], .nil, nofun, rfl⟩

theorem Reaches.next {e : Preemption.Event τ Timer0Pc Empty} (hr : Reaches r s es w)
    (hfree : ∀ u, u ≠ w.cTask → (w.place u).any (heldAt r) = false)
    (hnext : w.next timer0Code e = some w') : Reaches r s (es ++ [e]) w' := by
  obtain ⟨h, hrun, hapart, hes⟩ := hr
  refine ⟨h ++ [(w, e)], hrun.snoc hnext, fun c hc => ?_, ?_⟩
  · rcases List.mem_append.mp hc with hc | hc
    · exact hapart c hc
    · rw [List.mem_singleton.mp hc]
      exact fun _ _ => hfree
  · rw [List.map_append, hes]
    rfl

theorem Reaches.stmt {goes : Timer0Pc ⊕ Unit} (hr : Reaches r s es (w.put m i (some p)))
    (hfree : Free r w) (hstmt : timer0Stmt m i p = ⟨m', i', goes⟩) :
    Reaches r s (es ++ [.stmt]) (w.put m' i' goes.getLeft?) := by
  refine hr.next (fun u hu => ?_) (next_put hstmt)
  rw [show (w.put m i (some p)).place u = w.place u from put_place hu]
  exact hfree u

/-- A call begins. -/
theorem next_call (hout : w.here = none) (call : Timer0Call) :
    w.next timer0Code (.call (.start call)) = some (w.put w.mem w.iflag (some (.start call))) := by
  have hentry : timer0Code.entry (.start call) = true := decide_eq_true rfl
  rw [State.next, hout, hentry]
  rfl

/-- `timer0_set_clock_source` between its two accesses. -/
def halfway (c : Timer0ClockSelect) : Timer0Pc :=
  ⟨.setClockSource c, [.access ⟨.tccr0b, .orBits c.val⟩], none, false⟩

def cleared (m : Timer0Regs) : Timer0Regs :=
  Function.update m .tccr0b ((BitUpdate.clearBits cs0).apply (m .tccr0b))

def selected (c : Timer0ClockSelect) (m : Timer0Regs) : Timer0Regs :=
  Function.update m .tccr0b ((BitUpdate.orBits c.val).apply (m .tccr0b))

theorem reaches_halfway (hr : Reaches .tccr0b s es w) (hfree : Free .tccr0b w)
    (hout : w.here = none) (c : Timer0ClockSelect) :
    Reaches .tccr0b s (es ++ [.call (.start (.setClockSource c))] ++ [.stmt] ++ [.stmt])
      (w.put (cleared w.mem) w.iflag (some (halfway c))) :=
  ((hr.next (fun u _ => hfree u)
    (next_call hout (.setClockSource c))).stmt hfree rfl).stmt hfree rfl

theorem reaches_end {c : Timer0ClockSelect}
    (hr : Reaches .tccr0b s es (w.put m i (some (halfway c)))) (hfree : Free .tccr0b w) :
    Reaches .tccr0b s (es ++ [.stmt] ++ [.stmt]) (w.put (selected c m) i none) :=
  (hr.stmt hfree rfl).stmt hfree rfl

theorem reaches_second {c : Timer0ClockSelect} (hr : Reaches .tccr0b s es w)
    (hfree : Free .tccr0b w) (hhere : w.here = some (halfway c)) :
    Reaches .tccr0b s (es ++ [.stmt] ++ [.stmt]) (w.put (selected c w.mem) w.iflag none) := by
  rw [← put_self hhere] at hr
  exact reaches_end hr hfree

theorem reaches_switch (hr : Reaches r s es w) (hfree : Free r w) (hi : w.iflag = true) (v : τ) :
    Reaches r s (es ++ [.switch v]) { w with cTask := v } := by
  refine hr.next (e := .switch v) (fun u _ => hfree u) ?_
  rw [State.next, hi]
  rfl

/-- What the last accesses make of the field. -/
theorem selected_cleared (c₁ c₂ : Timer0ClockSelect) (m : Timer0Regs) :
    selected c₁ (selected c₂ (cleared m)) .tccr0b &&& cs0 = c₁.val ||| c₂.val := by
  have hclear : ∀ x : Byte, ((BitUpdate.clearBits cs0).apply x) &&& cs0 = 0 := by decide
  have hval : ∀ c : Timer0ClockSelect, c.val &&& cs0 = c.val := by
    intro c
    cases c <;> rfl
  show (BitUpdate.orBits c₁.val).apply ((BitUpdate.orBits c₂.val).apply
    ((BitUpdate.clearBits cs0).apply (m .tccr0b))) &&& cs0 = _
  rw [BitUpdate.apply_orBits, BitUpdate.apply_orBits, BitVec.and_or_distrib_right,
    BitVec.and_or_distrib_right, hclear, hval, hval]
  exact congrArg (· ||| c₁.val) BitVec.zero_or |>.trans (BitVec.or_comm ..)

/-- The rest of both calls: another one from beginning to end, and then the second access
of the first. -/
theorem reaches_mixed {t : τ} {c₁ : Timer0ClockSelect} (hr : Reaches .tccr0b s es w)
    (hi : w.iflag = true) (ht : w.cTask ≠ t) (hat : w.place t = some (halfway c₁))
    (hout : ∀ u, u ≠ t → w.place u = none) (c₂ : Timer0ClockSelect) :
    ∃ s', Reaches .tccr0b s (es ++ [.call (.start (.setClockSource c₂)), .stmt, .stmt, .stmt,
        .stmt, .switch t, .stmt, .stmt]) s' ∧
      s'.Outside ∧ s'.mem .tccr0b &&& cs0 = c₁.val ||| c₂.val := by
  have hfree : Free .tccr0b w := by
    intro u
    by_cases hu : u = t
    · rw [hu, hat]
      rfl
    · rw [hout u hu]
      rfl
  have hother := reaches_end (reaches_halfway hr hfree (hout _ ht) c₂) hfree
  have hput : Free .tccr0b (w.put (selected c₂ (cleared w.mem)) w.iflag none) := hfree.put rfl
  have hback : (w.put (selected c₂ (cleared w.mem)) w.iflag none).place t = some (halfway c₁) := by
    rw [put_place ht.symm]
    exact hat
  have hlast := reaches_second (reaches_switch hother hput hi t) hput hback
  simp only [List.append_assoc, List.cons_append, List.nil_append] at hlast
  refine ⟨_, hlast, fun u => ?_, selected_cleared c₁ c₂ w.mem⟩
  by_cases hu : u = t
  · rw [hu]
    exact put_here ..
  · refine (put_place hu).trans ?_
    show (w.put (selected c₂ (cleared w.mem)) w.iflag none).place u = none
    by_cases huw : u = w.cTask
    · rw [huw, put_place_self]
    · rw [put_place huw]
      exact hout u hu

/-- **Two calls of `timer0_set_clock_source`**, each access of them on its own: the running
task is switched out between the accesses of its call, another task calls the function
from beginning to end, and the first goes on.  Both return, and the timer has neither
source but the two or-ed together. -/
theorem clock_sources_mixed {v : τ} (hvt : v ≠ s.cTask) (hi : s.iflag = true) (hout : s.Outside)
    (c₁ c₂ : Timer0ClockSelect) :
    ∃ h s', Run timer0Code s h s' ∧ Apart .tccr0b h ∧
      h.map Prod.snd = [.call (.start (.setClockSource c₁)), .stmt, .stmt, .switch v,
        .call (.start (.setClockSource c₂)), .stmt, .stmt, .stmt, .stmt, .switch s.cTask,
        .stmt, .stmt] ∧
      s'.Outside ∧ s'.mem .tccr0b &&& cs0 = c₁.val ||| c₂.val := by
  have hfree : Free .tccr0b s := fun u => by rw [hout u]; rfl
  have hfirst := reaches_halfway (.refl .tccr0b s) hfree (hout _) c₁
  have hswitch := reaches_switch hfirst (hfree.put rfl) hi v
  have hat : (s.put (cleared s.mem) s.iflag (some (halfway c₁))).place s.cTask =
      some (halfway c₁) := put_place_self ..
  have hothers : ∀ u, u ≠ s.cTask →
      (s.put (cleared s.mem) s.iflag (some (halfway c₁))).place u = none := by
    intro u hu
    rw [put_place hu]
    exact hout u
  obtain ⟨s', ⟨h, hrun, hapart, hes⟩, hreturned, hfield⟩ :=
    reaches_mixed hswitch hi hvt hat hothers c₂
  exact ⟨h, s', hrun, hapart, hes, hreturned, hfield⟩

/-- `PRESCALER_64` and `PRESCALER_256` make an external clock. -/
theorem clock_sources_mixed_external : ∃ h s', Run timer0Code afterReset h s' ∧
    Apart .tccr0b h ∧ s'.Outside ∧
    s'.mem .tccr0b &&& cs0 = Timer0ClockSelect.externalClockSourceRising.val := by
  obtain ⟨h, s', hrun, hapart, -, hreturned, hfield⟩ := clock_sources_mixed (s := afterReset)
    (show true ≠ false by decide) rfl (fun _ => rfl) .prescaler64 .prescaler256
  exact ⟨h, s', hrun, hapart, hreturned, hfield⟩

end Sources

end Timer0

end AtmegaScheduler
