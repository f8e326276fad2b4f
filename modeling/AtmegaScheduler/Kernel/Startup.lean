/-
Starting the first task.

`kernel_start` runs `kernel_init_timer`, restores the context of the first task and
returns into it.  `c_task` already points to that task, but the CPU still runs
`main` on the boot stack.  So a compare match that is served before the last
return saves the wrong context, over the one `create_task` prepared.

The other timer interrupt is harmless as long as its stack frame is: it lies below
whatever the stack pointer is at that moment, which may be the boot stack, the
task's stack, or half of each.

Compare matches and overflows arrive at any instruction boundary, and the contents
of the overflow handler's frame are arbitrary.
-/
import AtmegaScheduler.Avr.Interrupt
import AtmegaScheduler.Drivers.Clock
import AtmegaScheduler.Kernel.Isolation

namespace AtmegaScheduler

open Avr

variable {τ : Type}

/-! ### The board -/

/-- The part of timer0 that can interrupt. -/
structure Timer0 where
  ocr0b : Byte
  ocie0b : Bool
  toie0 : Bool
  ocf0b : Bool
  tov0 : Bool

/-- What timer0 does before an instruction: it may match, it may overflow. -/
structure Tick where
  compare : Bool
  overflow : Bool
  tcnt0 : Byte

/-- The interrupts of timer0, the one with the smaller vector first. -/
inductive Vector
  | compB
  | overflow
  deriving DecidableEq, Repr

/-- The machine while `kernel_start` runs. -/
structure Board where
  cpu : Cpu
  timer : Timer0
  /-- The variable `sreg` of `kernel_init_timer`. -/
  sreg : Byte
  /-- The interrupt flag was set before the last instruction. -/
  armed : Bool

/-- The statements of `kernel_init_timer`, and instructions. -/
inductive StartInstr
  /-- `uint8_t sreg = SREG` -/
  | readSreg
  /-- `cli()` -/
  | cli
  /-- `enable_timer0_interrupt(COMPB_INTERRUPT)` -/
  | enableCompB
  /-- `OCR0B = freq_to_timer_comp_value<1000, 64>() + TCNT0` -/
  | setCompare
  /-- `SREG = sreg` -/
  | writeSreg
  | asm (ins : Instr)

/-- `kernel_init_timer` -/
def kernelInitTimer : List StartInstr :=
  [.readSreg, .cli, .enableCompB, .setCompare, .writeSreg]

/-- `kernel_start` after the call of `kernel_init_timer`. -/
def firstRestore (ctask : Word) : List Instr := restoreCtx ctask ++ [.ret]

/-- `kernel_start` -/
def kernelStart (ctask : Word) : List StartInstr :=
  kernelInitTimer ++ (firstRestore ctask).map .asm

namespace Board

/-- The flags timer0 raises before the next instruction. -/
def tick (b : Board) (t : Tick) : Board :=
  { b with
    timer := { b.timer with
      ocf0b := b.timer.ocf0b || t.compare
      tov0 := b.timer.tov0 || t.overflow } }

/-- The interrupt served before the next instruction. -/
def served (b : Board) : Option Vector :=
  if b.armed && iFlag b.cpu.sreg then
    if b.timer.ocie0b && b.timer.ocf0b then some .compB
    else if b.timer.toie0 && b.timer.tov0 then some .overflow
    else none
  else none

/-- One statement or instruction. -/
def exec (b : Board) (tcnt0 : Byte) : StartInstr → Board
  | .readSreg => { b with sreg := b.cpu.sreg, armed := iFlag b.cpu.sreg }
  | .cli => { b with cpu := exec1 b.cpu .cli, armed := iFlag b.cpu.sreg }
  | .enableCompB =>
      { b with timer := { b.timer with ocie0b := true }, armed := iFlag b.cpu.sreg }
  | .setCompare =>
      { b with
        timer := { b.timer with ocr0b := freqToTimerCompValue 1000 64 + tcnt0 }
        armed := iFlag b.cpu.sreg }
  | .writeSreg => { b with cpu := { b.cpu with sreg := b.sreg }, armed := iFlag b.cpu.sreg }
  | .asm ins => { b with cpu := exec1 b.cpu ins, armed := iFlag b.cpu.sreg }

/-- The board when `start_scheduler` is called: `initialize_clock` has enabled the
overflow interrupt, and nothing has enabled the compare interrupt yet. -/
def boot (c : Cpu) (ocr0b : Byte) (ocf0b tov0 : Bool) : Board where
  cpu := c
  timer := ⟨ocr0b, false, true, ocf0b, tov0⟩
  sreg := 0
  armed := true

end Board

/-- The `n` bytes a handler uses on the stack. -/
def InFrame (n : Nat) (sp a : Word) : Prop := a.toNat ≤ sp.toNat ∧ sp.toNat < a.toNat + n

namespace Layout

variable (L : Layout τ)

/-- A byte of `c_task`, of a control block or of a task's stack. -/
def Owned (a : Word) : Prop := L.InCell a ∨ (∃ u, L.InBlock u a) ∨ ∃ u, L.InStack u a

/-- What a served interrupt does to the board.  The overflow handler returns with
every register as it was and has written its frame and memory of its own. -/
inductive Serve (n : Nat) : Board → Board → Prop
  | quiet {b : Board} (h : b.served = none) : Serve n b b
  | overflow {b : Board} (cpu : Cpu) (h : b.served = some .overflow)
      (hcpu : Agree (fun a => L.Owned a ∧ ¬ InFrame n b.cpu.sp a) b.cpu cpu) :
      Serve n b { b with cpu := cpu, timer := { b.timer with tov0 := false } }

/-- What `create_task` has prepared, in the memory `m`: `c_task`, the saved registers,
and the stacks above the saved stack pointers. -/
def Prepared (m : Word → Byte) (a : Word) : Prop :=
  L.InCell a ∨ (∃ u q, InCpuState q ∧ a = L.block u + disp q) ∨
    ∃ u, L.InStack u a ∧ (ctxOf m (L.block u)).sp.toNat < a.toNat

/-- The context of a created task: a stack pointer with room around it, interrupts
enabled, and the entry for return address. -/
structure Created (t : τ) (entry : Word) (m : Word → Byte) : Prop where
  fits : L.stackLo t + 1 ≤ (ctxOf m (L.block t)).sp.toNat ∧
    (ctxOf m (L.block t)).sp.toNat + 2 < L.stackHi t
  sreg : (ctxOf m (L.block t)).sreg = 0x80
  pc : word (m ((ctxOf m (L.block t)).sp + 1)) (m ((ctxOf m (L.block t)).sp + 1 + 1)) = entry

/-- The first task runs from its entry, and in every later run of task code and
switches each other task, too, starts from its entry and prepared context. -/
def Started (entry : τ → Word) (m : Word → Byte) (t : τ) (c : Cpu) : Prop :=
  (L.Resumed t (ctxOf m (L.block t)) m c ∧ c.pc = entry t) ∧
    ∀ u, u ≠ t → ∀ es c', L.Run c es c' → FirstDispatch u es →
      L.Resumed u (ctxOf m (L.block u)) m c' ∧ c'.pc = entry u

/-- From boundary `i` on, the compare interrupt is not served, so no `_SAVE_CTX` runs;
what was prepared in `m` stays unchanged; and in the end the first task is started. -/
def StartsWell (n : Nat) (ticks : Nat → Tick) (entry : τ → Word) (m : Word → Byte) (t : τ) :
    Nat → List StartInstr → Board → Prop
  | _, [], b => L.Started entry m t b.cpu
  | i, ins :: prog, b =>
      (b.tick (ticks i)).served ≠ some .compB ∧
        ∀ b', L.Serve n (b.tick (ticks i)) b' →
          (∀ a, L.Prepared m a → b'.cpu.mem a = m a) ∧
            StartsWell n ticks entry m t (i + 1) prog (b'.exec (ticks i).tcnt0 ins)

end Layout

/-! ### When interrupts are served -/

/-- The boundaries at which interrupts can be served: before `cli` has taken effect,
and from the second instruction after `SREG = sreg` on. -/
def openAt (i : Nat) : Bool := decide (i ≤ 1) || decide (6 ≤ i)

/-- Is an overflow left over from before boundary `i`? -/
def tovBefore (tov0 : Bool) (ticks : Nat → Tick) : Nat → Bool
  | 0 => tov0
  | i + 1 => (tovBefore tov0 ticks i || (ticks i).overflow) && !openAt i

/-- Is an overflow served at boundary `i`? -/
def overflowServed (tov0 : Bool) (ticks : Nat → Tick) (i : Nat) : Bool :=
  openAt i && (tovBefore tov0 ticks i || (ticks i).overflow)

/-- The stack pointer at each boundary: the boot stack, half of each, and the task's
stack with no, one or two bytes of `_RESTORE_CTX` on it. -/
def startSps (boot sp : Word) : List Word :=
  List.replicate 12 boot ++ [word (hi8 boot) (lo8 sp)] ++ List.replicate 3 sp ++ [sp - 1] ++
    List.replicate 31 (sp - 1 - 1) ++ [sp - 1, sp]

/-! ### The stack pointer -/

theorem spTrace_ldd (l : List (Reg × Fin 64)) (c : Cpu) :
    spTrace (l.map fun p => .ldd p.1 p.2) c = List.replicate l.length c.sp := by
  induction l generalizing c with
  | nil => rfl
  | cons p rest ih =>
      show c.sp :: spTrace (rest.map fun p => .ldd p.1 p.2) _ = _
      rw [ih]
      rfl

theorem spTrace_restoreEnter (ctask : Word) (c : Cpu) :
    spTrace (restoreEnter ctask) c = List.replicate 4 c.sp := rfl

/-- The stack pointer while `_RESTORE_CTX` loads it and pushes r30 and r31. -/
theorem spTrace_restoreHigh (c : Cpu) :
    spTrace restoreHigh c =
      List.replicate 3 c.sp ++ [word (hi8 c.sp) (lo8 (ctxOf c.mem c.z).sp)] ++
        List.replicate 3 (ctxOf c.mem c.z).sp ++ [(ctxOf c.mem c.z).sp - 1] := by
  have hlo : lo8 (ctxOf c.mem c.z).sp = c.mem (c.z + disp spOffset) := lo8_word _ _
  rw [hlo]
  simp [restoreHigh, spTrace, exec1, Cpu.writeIo, Cpu.z, Cpu.pushByte, List.replicate, ctxOf]

/-- Z points to the control block, and the stack pointer and the memory are as before. -/
theorem restoreEnter_keeps (ctask : Word) (c : Cpu) :
    (exec (restoreEnter ctask) c).z = cTaskPtr c.mem ctask ∧
      (exec (restoreEnter ctask) c).mem = c.mem ∧ (exec (restoreEnter ctask) c).sp = c.sp := by
  obtain ⟨r, hr, hz⟩ := exec_restoreEnter ctask c
  rw [hr]
  exact ⟨hz, rfl, rfl⟩

/-- The machine after the pushes of a restore. -/
theorem exec_restoreLow {ctask : Word} {c : Cpu} {x : CpuRegisters}
    (hx : ctxOf c.mem (cTaskPtr c.mem ctask) = x) :
    (exec restoreHigh (exec (restoreEnter ctask) c)).sp = x.sp - 1 - 1 ∧
      (exec restoreHigh (exec (restoreEnter ctask) c)).z = cTaskPtr c.mem ctask ∧
      (exec restoreHigh (exec (restoreEnter ctask) c)).sreg = x.sreg := by
  obtain ⟨r, hr, -⟩ := exec_restoreEnter ctask c
  obtain ⟨hz', hm, -⟩ := restoreEnter_keeps ctask c
  obtain ⟨v, w, hv⟩ := exec_restoreHigh (exec (restoreEnter ctask) c)
  rw [hv, hz', hm, hx]
  refine ⟨rfl, hz', ?_⟩
  show (exec (restoreEnter ctask) c).sreg = x.sreg
  rw [hr, ← hx]

/-- **The stack pointer at every boundary of `kernel_start`.** -/
theorem startSps_eq (ctask : Word) {c : Cpu} {x : CpuRegisters}
    (hx : ctxOf c.mem (cTaskPtr c.mem ctask) = x) :
    startSps c.sp x.sp = List.replicate 5 c.sp ++ spTrace (firstRestore ctask) c := by
  obtain ⟨hz, hm, hboot⟩ := restoreEnter_keeps ctask c
  obtain ⟨hsp, hz', _⟩ := exec_restoreLow hx
  have hctx : ctxOf (exec (restoreEnter ctask) c).mem (exec (restoreEnter ctask) c).z = x := by
    rw [hz, hm, hx]
  have hsp₁ : x.sp - 1 - 1 + 1 = x.sp - 1 := BitVec.sub_add_cancel _ _
  have hsp₂ : x.sp - 1 + 1 = x.sp := BitVec.sub_add_cancel _ _
  have hlast : ∀ k : Cpu, k.sp = x.sp - 1 - 1 →
      spTrace [.pop 31, .pop 30, .ret] k = [x.sp - 1 - 1, x.sp - 1, x.sp] := by
    intro k hk
    show [k.sp, k.sp + 1, k.sp + 1 + 1] = _
    rw [hk, hsp₁, hsp₂]
  have hlen : lowLoads.length = 30 := rfl
  have hprog : firstRestore ctask = restoreEnter ctask ++ (restoreHigh ++
      ((lowLoads.map fun p => .ldd p.1 p.2) ++ [.pop 31, .pop 30, .ret])) := by
    unfold firstRestore restoreCtx
    simp only [List.append_assoc, List.cons_append, List.nil_append]
  rw [hprog, spTrace_append, spTrace_append, spTrace_append, spTrace_restoreEnter,
    spTrace_restoreHigh, hctx, spTrace_ldd, hsp, hlen, exec_ldd_block _ _ lowLoads_ne, hlast]
  · rw [hboot]
    rfl
  · exact hsp

/-! ### What the restore of the first task reads and writes -/

/-- `_RESTORE_CTX` while it loads the stack pointer. -/
def loadSp : List Instr :=
  [.ldd 28 spOffset, .ldd 29 (spOffset + 1), .out .spl 28, .out .sph 29]

/-- `_RESTORE_CTX` while it puts r30 and r31 on the stack. -/
def passHigh : List Instr :=
  [.ldd 28 (regOffset 30), .ldd 29 (regOffset 30 + 1), .push 28, .push 29]

/-- `_RESTORE_CTX` and the return once it is on the stack of the first task. -/
def onTaskStack : List Instr :=
  passHigh ++ ((lowLoads.map fun p => .ldd p.1 p.2) ++ [.pop 31, .pop 30, .ret])

theorem firstRestore_eq (ctask : Word) :
    firstRestore ctask = (restoreEnter ctask ++ loadSp) ++ onTaskStack := by
  unfold firstRestore restoreCtx onTaskStack
  simp only [List.append_assoc, List.cons_append, List.nil_append]
  rfl

theorem exec_loadSp (k : Cpu) :
    exec loadSp k = restoring k (k.mem (k.z + disp spOffset)) (k.mem (k.z + disp (spOffset + 1)))
      (ctxOf k.mem k.z).sp k.mem := by
  conv_lhs => rw [← restoring_self k]
  unfold loadSp
  rw [restoring_ldd_ldd, restoring_out_out, exec_nil]
  rfl

/-- The machine once the stack pointer is that of the first task. -/
theorem exec_enterLoadSp (ctask : Word) {c : Cpu} {x : CpuRegisters}
    (hx : ctxOf c.mem (cTaskPtr c.mem ctask) = x) :
    (exec (restoreEnter ctask ++ loadSp) c).sp = x.sp ∧
      (exec (restoreEnter ctask ++ loadSp) c).z = cTaskPtr c.mem ctask := by
  obtain ⟨hz', hm, -⟩ := restoreEnter_keeps ctask c
  rw [exec_append, exec_loadSp, restoring_z, hz', hm, hx]
  exact ⟨rfl, rfl⟩

theorem enabled_firstRestore (ctask : Word) {c : Cpu} {x : CpuRegisters}
    (hx : ctxOf c.mem (cTaskPtr c.mem ctask) = x) (hc : iFlag c.sreg = true)
    (hxI : iFlag x.sreg = true) :
    Enabled (restoreEnter ctask ++ loadSp) c ∧
      Enabled onTaskStack (exec (restoreEnter ctask ++ loadSp) c) := by
  have hsreg : (exec (restoreEnter ctask) c).sreg = x.sreg := by
    obtain ⟨r, hr, _⟩ := exec_restoreEnter ctask c
    rw [hr, ← hx]
  have hload : ∀ ins ∈ loadSp, KeepsSreg ins := by
    intro ins hins
    simp only [loadSp, List.mem_cons, List.not_mem_nil, or_false] at hins
    rcases hins with rfl | rfl | rfl | rfl <;> trivial
  have hlast : ∀ ins ∈ onTaskStack, KeepsSreg ins := by
    intro ins hins
    simp only [onTaskStack, passHigh, List.mem_append, List.mem_map, List.mem_cons,
      List.not_mem_nil, or_false] at hins
    rcases hins with (rfl | rfl | rfl | rfl) | ⟨p, _, rfl⟩ | rfl | rfl | rfl <;> trivial
  constructor
  · refine enabled_append ⟨hc, hc, hc, hc, ?_⟩ (enabled_of_keepsSreg hload ?_)
    · exact (congrArg iFlag hsreg).trans hxI
    · rw [hsreg]
      exact hxI
  · refine enabled_of_keepsSreg hlast ?_
    rw [exec_append, exec_sreg hload, hsreg]
    exact hxI

namespace Layout

variable {L : Layout τ} {t u : τ} {c : Cpu} {m : Word → Byte}

/-- Besides what was prepared, the bytes the task's stack holds above the stack pointer. -/
def Live (L : Layout τ) (m : Word → Byte) (t : τ) (c : Cpu) (a : Word) : Prop :=
  L.Prepared m a ∨ (L.InStack t a ∧ c.sp.toNat < a.toNat)

theorem live_of_le {c' : Cpu} (hsp : c.sp.toNat ≤ c'.sp.toNat) {a : Word}
    (ha : L.Live m t c' a) : L.Live m t c a := by
  rcases ha with hp | ⟨hs, hlt⟩
  · exact Or.inl hp
  · exact Or.inr ⟨hs, Nat.lt_of_le_of_lt hsp hlt⟩

theorem prepared_disp {q : Fin 64} (hq : InCpuState q) : L.Prepared m (L.block t + disp q) :=
  Or.inr (Or.inl ⟨t, q, hq, rfl⟩)

/-- At and below the saved stack pointer nothing is prepared. -/
theorem not_prepared {a : Word} (ha : L.InStack t a)
    (hle : a.toNat ≤ (ctxOf m (L.block t)).sp.toNat) : ¬ L.Prepared m a := by
  rintro (hcell | ⟨u, q, hq, rfl⟩ | ⟨u, hu, hlt⟩)
  · exact L.cell_stack t a hcell ha
  · exact disp_ne_stack hq ha rfl
  · rw [L.stack_inj u t a hu ha] at hlt
    omega

theorem sees_loadSp (hcur : L.Current t c) :
    Sees (fun _ => L.Prepared m) (L.Prepared m) (restoreEnter L.ctask ++ loadSp) c := by
  have hz : ∀ q, InCpuState q → ∀ a ∈ [cTaskPtr c.mem L.ctask + disp q], L.Prepared m a := by
    intro q hq a ha
    rw [List.mem_singleton.mp ha, show cTaskPtr c.mem L.ctask = L.block t from hcur]
    exact prepared_disp hq
  have hcell : ∀ k, L.InCell k → ∀ a ∈ [k], L.Prepared m a := by
    intro k hk a ha
    rw [List.mem_singleton.mp ha]
    exact Or.inl hk
  have hnil : ∀ a ∈ ([] : List Word), ¬ L.Prepared m a := fun a ha => absurd ha List.not_mem_nil
  have hnil' : ∀ a ∈ ([] : List Word), L.Prepared m a := fun a ha => absurd ha List.not_mem_nil
  refine ⟨hcell _ (Or.inl rfl), hnil, fun _ => Or.inl, ?_⟩
  refine ⟨hcell _ (Or.inr rfl), hnil, fun _ => Or.inl, ?_⟩
  refine ⟨hz sregOffset (by decide), hnil, fun _ => Or.inl, ?_⟩
  refine ⟨hnil', hnil, fun _ => Or.inl, ?_⟩
  refine ⟨hz spOffset (by decide), hnil, fun _ => Or.inl, ?_⟩
  refine ⟨hz (spOffset + 1) (by decide), hnil, fun _ => Or.inl, ?_⟩
  refine ⟨hnil', hnil, fun _ => Or.inl, ?_⟩
  exact ⟨hnil', hnil, fun _ => Or.inl, trivial⟩

theorem sees_ldd (l : List (Reg × Fin 64)) (hl : ∀ p ∈ l, (p.1 ≠ 30 ∧ p.1 ≠ 31) ∧ InCpuState p.2) :
    ∀ c : Cpu, c.z = L.block t →
      Sees (L.Live m t) (L.Prepared m) (l.map fun p => .ldd p.1 p.2) c := by
  induction l with
  | nil => intro c _; trivial
  | cons p rest ih =>
      intro c hz
      obtain ⟨⟨h30, h31⟩, hq⟩ := hl p (by simp)
      refine ⟨fun a ha => ?_, fun a ha => absurd ha List.not_mem_nil, fun a ha => Or.inl ha, ?_⟩
      · rw [List.mem_singleton.mp ha, hz]
        exact Or.inl (prepared_disp hq)
      · refine ih (fun q hq => hl q (by simp [hq])) _ ?_
        rw [← hz]
        show word (Function.update c.r p.1 _ 31) (Function.update c.r p.1 _ 30) = _
        rw [Function.update_of_ne h31.symm, Function.update_of_ne h30.symm]
        rfl

/-- A push on the stack of the task, at or below the saved stack pointer. -/
theorem sees_push {r : Reg} {prog : List Instr} (hs : L.InStack t c.sp) (hpos : 0 < c.sp.toNat)
    (hle : c.sp.toNat ≤ (ctxOf m (L.block t)).sp.toNat)
    (hrest : Sees (L.Live m t) (L.Prepared m) prog (exec1 c (.push r))) :
    Sees (L.Live m t) (L.Prepared m) (.push r :: prog) c := by
  refine ⟨fun a ha => absurd ha List.not_mem_nil, fun a ha => ?_, fun a ha => ?_, hrest⟩
  · rw [List.mem_singleton.mp ha]
    exact not_prepared hs hle
  · rcases ha with hp | ⟨ha, hlt⟩
    · exact Or.inl (Or.inl hp)
    · have hto : (c.sp - 1).toNat = c.sp.toNat - 1 := toNat_sub_one (by omega)
      have hlt' : (c.sp - 1).toNat < a.toNat := hlt
      by_cases heq : a = c.sp
      · exact Or.inr (List.mem_singleton.mpr heq)
      · have hne : a.toNat ≠ c.sp.toNat := fun hc => heq (BitVec.eq_of_toNat_eq hc)
        exact Or.inl (Or.inr ⟨ha, by omega⟩)

/-- A pop from the stack of the task. -/
theorem sees_pop {r : Reg} {prog : List Instr} (hs : L.InStack t (c.sp + 1))
    (hlt : c.sp.toNat < (c.sp + 1).toNat)
    (hrest : Sees (L.Live m t) (L.Prepared m) prog (exec1 c (.pop r))) :
    Sees (L.Live m t) (L.Prepared m) (.pop r :: prog) c := by
  refine ⟨fun a ha => ?_, fun a ha => absurd ha List.not_mem_nil, fun a ha => ?_, hrest⟩
  · rw [List.mem_singleton.mp ha]
    exact Or.inr ⟨hs, hlt⟩
  · exact Or.inl (live_of_le (Nat.le_of_lt hlt) ha)

/-- The return from the stack of the task. -/
theorem sees_ret (hlo : L.stackLo t ≤ c.sp.toNat) (hhi : c.sp.toNat + 2 < L.stackHi t) :
    Sees (L.Live m t) (L.Prepared m) [.ret] c := by
  have hle := L.stackHi_le t
  have h₁ : (c.sp + 1).toNat = c.sp.toNat + 1 := toNat_add_one (by omega)
  have h₂ : (c.sp + 1 + 1).toNat = c.sp.toNat + 1 + 1 := by
    rw [toNat_add_one (by omega), h₁]
  refine ⟨fun a ha => ?_, fun a ha => absurd ha List.not_mem_nil, fun a ha => ?_, trivial⟩
  · have ha' : a = c.sp + 1 ∨ a = c.sp + 1 + 1 := by
      rcases List.mem_cons.mp ha with h | h
      · exact Or.inl h
      · exact Or.inr (List.mem_singleton.mp h)
    rcases ha' with rfl | rfl
    · exact Or.inr ⟨⟨by omega, by omega⟩, by omega⟩
    · exact Or.inr ⟨⟨by omega, by omega⟩, by omega⟩
  · refine Or.inl (live_of_le ?_ ha)
    show c.sp.toNat ≤ (c.sp + 1 + 1).toNat
    omega

/-- The tail of the restore, with two bytes on the stack. -/
theorem sees_unwind {sp : Word} (hlo : L.stackLo t + 1 ≤ sp.toNat)
    (hhi : sp.toNat + 2 < L.stackHi t) (hsp : c.sp = sp - 1 - 1) :
    Sees (L.Live m t) (L.Prepared m) [.pop 31, .pop 30, .ret] c := by
  have hle := L.stackHi_le t
  have hpos := L.stackLo_pos t
  have hsp₁ : (sp - 1).toNat = sp.toNat - 1 := toNat_sub_one (by omega)
  have h₀ : c.sp.toNat = sp.toNat - 1 - 1 := by
    rw [hsp, toNat_sub_one (by omega), hsp₁]
  have h₁ : (c.sp + 1).toNat = c.sp.toNat + 1 := toNat_add_one (by omega)
  have h₂ : (c.sp + 1 + 1).toNat = c.sp.toNat + 1 + 1 := by
    rw [toNat_add_one (by omega), h₁]
  refine sees_pop ⟨by omega, by omega⟩ (by omega) (sees_pop ⟨?_, ?_⟩ ?_ (sees_ret ?_ ?_))
  · show L.stackLo t ≤ (c.sp + 1 + 1).toNat
    omega
  · show (c.sp + 1 + 1).toNat < L.stackHi t
    omega
  · show (c.sp + 1).toNat < (c.sp + 1 + 1).toNat
    omega
  · show L.stackLo t ≤ (c.sp + 1 + 1).toNat
    omega
  · show (c.sp + 1 + 1).toNat + 2 < L.stackHi t
    omega

theorem sees_onTaskStack {entry : Word} (hcreated : L.Created t entry m) (hz : c.z = L.block t)
    (hsp : c.sp = (ctxOf m (L.block t)).sp) :
    Sees (L.Live m t) (L.Prepared m) onTaskStack c := by
  obtain ⟨hlo, hhi⟩ := hcreated.fits
  rw [← hsp] at hlo hhi
  have hpos := L.stackLo_pos t
  have hs₁ : (c.sp - 1).toNat = c.sp.toNat - 1 := toNat_sub_one (by omega)
  have hpair : ∀ p ∈ [((28 : Reg), regOffset 30), (29, regOffset 30 + 1)],
      (p.1 ≠ 30 ∧ p.1 ≠ 31) ∧ InCpuState p.2 := by
    intro p hp
    rcases List.mem_pair.mp hp with rfl | rfl
    · exact ⟨by decide, inCpuState_reg 30⟩
    · exact ⟨by decide, inCpuState_reg 31⟩
  have hpass : Sees (L.Live m t) (L.Prepared m) passHigh c := by
    refine sees_append (p := [.ldd 28 (regOffset 30), .ldd 29 (regOffset 30 + 1)])
      (sees_ldd [(28, regOffset 30), (29, regOffset 30 + 1)] hpair c hz) ?_
    refine sees_push ⟨?_, ?_⟩ ?_ ?_ (sees_push ⟨?_, ?_⟩ ?_ ?_ trivial)
    · show L.stackLo t ≤ c.sp.toNat
      omega
    · show c.sp.toNat < L.stackHi t
      omega
    · show 0 < c.sp.toNat
      omega
    · show c.sp.toNat ≤ _
      rw [← hsp]
    · show L.stackLo t ≤ (c.sp - 1).toNat
      omega
    · show (c.sp - 1).toNat < L.stackHi t
      omega
    · show 0 < (c.sp - 1).toNat
      omega
    · show (c.sp - 1).toNat ≤ _
      rw [← hsp]
      omega
  have hloads : ∀ p ∈ lowLoads, (p.1 ≠ 30 ∧ p.1 ≠ 31) ∧ InCpuState p.2 := by
    intro p hp
    refine ⟨lowLoads_ne p hp, ?_⟩
    rw [(mem_lowLoads.mp hp).2]
    exact inCpuState_reg p.1
  refine sees_append hpass (sees_append (sees_ldd lowLoads hloads _ ?_) ?_)
  · exact hz
  · rw [exec_ldd_block _ _ lowLoads_ne]
    exact sees_unwind hlo hhi rfl

/-! ### No compare match, and frames that miss what was prepared -/

theorem Prepared.owned {a : Word} (h : L.Prepared m a) : L.Owned a := by
  rcases h with hcell | ⟨u, q, hq, rfl⟩ | ⟨u, hu, _⟩
  · exact Or.inl hcell
  · exact Or.inr (Or.inl ⟨u, inBlock_disp hq⟩)
  · exact Or.inr (Or.inr ⟨u, hu⟩)

variable {K : Cpu → Word → Prop} {n i : Nat} {ticks : Nat → Tick} {b b' : Board} {tov tov0 : Bool}
  {entry : τ → Word}

/-- The board follows the machine `c` that nothing interrupts: they agree on `K`, what
was prepared is there, and no compare match is waiting. -/
structure Follows (L : Layout τ) (K : Cpu → Word → Prop) (m : Word → Byte) (c : Cpu) (b : Board)
    (tov : Bool) : Prop where
  agree : Agree (K c) c b.cpu
  prep : ∀ a, L.Prepared m a → b.cpu.mem a = m a
  toie : b.timer.toie0 = true
  ocf : b.timer.ocf0b = false
  tov : b.timer.tov0 = tov

/-- The frame of a handler that starts at `sp` holds nothing that was prepared. -/
def Avoids (L : Layout τ) (m : Word → Byte) (n : Nat) (sp : Word) : Prop :=
  ∀ a, InFrame n sp a → ¬ L.Prepared m a

/-- What a boundary serves, by the flags before it. -/
theorem served_tick (hgate : (b.armed && iFlag b.cpu.sreg) = openAt i)
    (htoie : b.timer.toie0 = true) (htov : b.timer.tov0 = tovBefore tov0 ticks i) :
    (b.tick (ticks i)).served =
      if openAt i && (b.timer.ocie0b && (b.timer.ocf0b || (ticks i).compare)) then some .compB
      else if overflowServed tov0 ticks i then some .overflow else none := by
  show (if (b.armed && iFlag b.cpu.sreg) = true then
    (if (b.timer.ocie0b && (b.timer.ocf0b || (ticks i).compare)) = true then some Vector.compB
      else if (b.timer.toie0 && (b.timer.tov0 || (ticks i).overflow)) = true then some .overflow
        else none) else none) = _
  unfold overflowServed
  rw [hgate, htoie, htov]
  cases openAt i <;> simp

theorem openAt_of_overflowServed (h : overflowServed tov0 ticks i = true) : openAt i = true := by
  unfold overflowServed at h
  exact (Bool.and_eq_true_iff.mp h).1

/-- The flag the overflow leaves for the next boundary. -/
theorem tovBefore_succ_of_not (h : overflowServed tov0 ticks i ≠ true) :
    tovBefore tov0 ticks (i + 1) = (tovBefore tov0 ticks i || (ticks i).overflow) := by
  unfold overflowServed at h
  show ((tovBefore tov0 ticks i || (ticks i).overflow) && !openAt i) = _
  cases hopen : openAt i with
  | false => simp
  | true =>
      rw [hopen] at h
      simp at h
      simp [h]

theorem tovBefore_succ_of_served (h : overflowServed tov0 ticks i = true) :
    tovBefore tov0 ticks (i + 1) = false := by
  show ((tovBefore tov0 ticks i || (ticks i).overflow) && !openAt i) = false
  rw [openAt_of_overflowServed h]
  simp

/-- **One boundary**: what is served leaves the board following. -/
theorem Follows.serve (h : L.Follows K m c b (tovBefore tov0 ticks i))
    (hgate : (b.armed && iFlag b.cpu.sreg) = openAt i)
    (hK : ∀ a, K c a → L.Owned a ∧ (L.Prepared m a ∨ c.sp.toNat < a.toNat))
    (hcmp : (ticks i).compare = false)
    (hframe : overflowServed tov0 ticks i = true → L.Avoids m n c.sp) :
    (b.tick (ticks i)).served ≠ some .compB ∧
      ∀ b', L.Serve n (b.tick (ticks i)) b' →
        L.Follows K m c b' (tovBefore tov0 ticks (i + 1)) ∧
          b'.armed = b.armed ∧ b'.sreg = b.sreg := by
  have hserved : (b.tick (ticks i)).served =
      if overflowServed tov0 ticks i then some .overflow else none := by
    rw [served_tick hgate h.toie h.tov, h.ocf, hcmp]
    simp
  have hocf : (b.timer.ocf0b || (ticks i).compare) = false := by
    rw [h.ocf, hcmp]
    rfl
  constructor
  · rw [hserved]
    cases overflowServed tov0 ticks i <;> simp
  intro b' hb'
  cases hb' with
  | quiet hq =>
      have hov : overflowServed tov0 ticks i ≠ true := by
        intro hc
        rw [hserved, if_pos hc] at hq
        exact absurd hq (by simp)
      refine ⟨⟨h.agree, h.prep, h.toie, hocf, ?_⟩, rfl, rfl⟩
      rw [tovBefore_succ_of_not hov, ← h.tov]
      rfl
  | overflow cpu hq hcpu =>
      have hov : overflowServed tov0 ticks i = true := by
        by_contra hc
        rw [hserved, if_neg hc] at hq
        exact absurd hq (by simp)
      have hsp : (b.tick (ticks i)).cpu.sp = c.sp := h.agree.sp
      rw [hsp] at hcpu
      have hmiss := hframe hov
      refine ⟨⟨h.agree.trans (hcpu.mono fun a ha => ?_),
        fun a ha => ?_, h.toie, hocf, ?_⟩, rfl, rfl⟩
      · obtain ⟨hown, hcase⟩ := hK a ha
        refine ⟨hown, fun hin => ?_⟩
        rcases hcase with hp | hlt
        · exact hmiss a hin hp
        · have hle : a.toNat ≤ c.sp.toNat := hin.1
          omega
      · rw [hcpu.mem a ⟨ha.owned, fun hin => hmiss a hin ha⟩]
        exact h.prep a ha
      · exact (tovBefore_succ_of_served hov).symm

/-- One instruction on a board that follows. -/
theorem Follows.asm {ins : Instr} (tcnt0 : Byte) (h : L.Follows K m c b tov)
    (hreads : ∀ a ∈ reads c ins, K c a) (hwrites : ∀ a ∈ writes c ins, ¬ L.Prepared m a)
    (hK : ∀ a, K (exec1 c ins) a → K c a ∨ a ∈ writes c ins) :
    L.Follows K m (exec1 c ins) (b.exec tcnt0 (.asm ins)) tov := by
  refine ⟨(h.agree.exec1 hreads).mono hK, fun a ha => ?_, h.toie, h.ocf, h.tov⟩
  have hw : writes b.cpu ins = writes c ins := by
    cases ins with
    | push r =>
        show [b.cpu.sp] = [c.sp]
        rw [h.agree.sp]
    | std q r =>
        show [b.cpu.z + disp q] = [c.z + disp q]
        rw [h.agree.z]
    | _ => rfl
  show (exec1 b.cpu ins).mem a = m a
  rw [exec1_mem (by rw [hw]; exact fun hc => hwrites a hc ha)]
  exact h.prep a ha

/-- A boundary and the statement after it. -/
theorem startsWell_cons {ins : StartInstr} {rest : List StartInstr}
    (h : L.Follows K m c b (tovBefore tov0 ticks i))
    (hgate : (b.armed && iFlag b.cpu.sreg) = openAt i)
    (hK : ∀ a, K c a → L.Owned a ∧ (L.Prepared m a ∨ c.sp.toNat < a.toNat))
    (hcmp : (ticks i).compare = false)
    (hframe : overflowServed tov0 ticks i = true → L.Avoids m n c.sp)
    (hrest : ∀ b', L.Follows K m c b' (tovBefore tov0 ticks (i + 1)) → b'.sreg = b.sreg →
      L.StartsWell n ticks entry m t (i + 1) rest (b'.exec (ticks i).tcnt0 ins)) :
    L.StartsWell n ticks entry m t i (ins :: rest) b := by
  obtain ⟨hserved, hserve⟩ := h.serve hgate hK hcmp hframe
  refine ⟨hserved, fun b' hb' => ?_⟩
  obtain ⟨h', _, hsreg⟩ := hserve b' hb'
  exact ⟨h'.prep, hrest b' h' hsreg⟩

/-- In the routine that restores and returns, every boundary after the first is open. -/
theorem gate_asm {ins : Instr} {prog : List Instr} (tcnt0 : Byte) (hi : 5 ≤ i)
    (henabled : Enabled (ins :: prog) c) (hsreg : b.cpu.sreg = c.sreg)
    (hafter : (exec1 b.cpu ins).sreg = (exec1 c ins).sreg) :
    ((b.exec tcnt0 (.asm ins)).armed && iFlag (b.exec tcnt0 (.asm ins)).cpu.sreg) =
      openAt (i + 1) := by
  have hopen : openAt (i + 1) = true := by
    unfold openAt
    rw [decide_eq_true (by omega : 6 ≤ i + 1), Bool.or_true]
  have hnext : iFlag (exec1 c ins).sreg = true := by
    cases prog with
    | nil => exact henabled.2
    | cons _ _ => exact henabled.2.1
  show (iFlag b.cpu.sreg && iFlag (exec1 b.cpu ins).sreg) = _
  rw [hopen, hsreg, hafter, henabled.1, hnext]
  rfl

/-- **A routine** that runs with interrupts enabled starts well if what follows it does. -/
theorem startsWell_asm (hKP : ∀ c a, K c a → L.Owned a ∧ (L.Prepared m a ∨ c.sp.toNat < a.toNat))
    (rest : List StartInstr) (prog : List Instr) :
    ∀ (i : Nat) (c : Cpu) (b : Board), 5 ≤ i → Sees K (L.Prepared m) prog c → Enabled prog c →
      L.Follows K m c b (tovBefore tov0 ticks i) →
      (b.armed && iFlag b.cpu.sreg) = openAt i →
      (∀ j, j < prog.length → (ticks (i + j)).compare = false) →
      (∀ j sp, (spTrace prog c)[j]? = some sp → overflowServed tov0 ticks (i + j) = true →
        L.Avoids m n sp) →
      (∀ b', L.Follows K m (exec prog c) b' (tovBefore tov0 ticks (i + prog.length)) →
        (b'.armed && iFlag b'.cpu.sreg) = openAt (i + prog.length) →
        L.StartsWell n ticks entry m t (i + prog.length) rest b') →
      L.StartsWell n ticks entry m t i (prog.map .asm ++ rest) b := by
  induction prog with
  | nil =>
      intro i c b _ _ _ h hgate _ _ hrest
      exact hrest b h hgate
  | cons ins prog ih =>
      intro i c b hi hsees henabled h hgate hcmp hframe hrest
      obtain ⟨hreads, hwrites, hK, hsees'⟩ := hsees
      refine startsWell_cons h hgate (hKP c) (hcmp 0 (Nat.succ_pos _)) (hframe 0 c.sp rfl)
        fun b' h' _ => ?_
      have hnext := h'.asm (ticks i).tcnt0 hreads hwrites hK
      have hgate' := gate_asm (ticks i).tcnt0 hi henabled h'.agree.sreg hnext.agree.sreg
      refine ih (i + 1) (exec1 c ins) _ (by omega) hsees' henabled.2 hnext hgate' ?_ ?_ ?_
      · intro j hj
        have := hcmp (j + 1) (by simpa using hj)
        rwa [show i + 1 + j = i + (j + 1) by omega]
      · intro j sp hsp hov
        rw [show i + 1 + j = i + (j + 1) by omega] at hov
        exact hframe (j + 1) sp hsp hov
      · intro b'' h'' hgate''
        have hlen : i + 1 + prog.length = i + (ins :: prog).length := by
          rw [List.length_cons]
          omega
        rw [hlen] at h'' hgate'' ⊢
        exact hrest b'' h'' hgate''

/-- The machine `kernel_start` leaves when nothing interrupts it. -/
theorem exec_firstRestore {entry : Word} (hcur : L.Current t c) (h : L.Created t entry c.mem) :
    (exec (firstRestore L.ctask) c).r = (ctxOf c.mem (L.block t)).regs ∧
      (exec (firstRestore L.ctask) c).sp = (ctxOf c.mem (L.block t)).sp + 1 + 1 ∧
      (exec (firstRestore L.ctask) c).sreg = (ctxOf c.mem (L.block t)).sreg ∧
      (exec (firstRestore L.ctask) c).pc = entry := by
  have hz : cTaskPtr c.mem L.ctask = L.block t := hcur
  obtain ⟨hlo, hhi⟩ := h.fits
  have hle := L.stackHi_le t
  have hfree : PassFree c.mem (L.block t) := passFree ⟨hlo, by omega⟩
  have hrestore := exec_restoreCtx (c := c) (x := ctxOf c.mem (L.block t))
    (by rw [hz]) (by rw [hz]; exact hfree)
  unfold firstRestore
  rw [exec_append, hrestore]
  refine ⟨rfl, rfl, rfl, ?_⟩
  show word (passMem c.mem _ (_ + 1)) (passMem c.mem _ (_ + 1 + 1)) = entry
  rw [passMem_of_ne, passMem_of_ne, h.pc]
  · bv_omega
  · bv_omega
  · bv_omega
  · bv_omega

theorem suspended_of_prepared {mem : Word → Byte} {entry : Word} (h : L.Created u entry m)
    (hprep : ∀ a, L.Prepared m a → mem a = m a) :
    L.Suspended u (ctxOf m (L.block u)) m mem where
  fits := h.fits
  ctx := ctxOf_congr fun _ hq => hprep _ (prepared_disp hq)
  live := fun a ha hlt => hprep a (Or.inr (Or.inr ⟨u, ha, hlt⟩))

/-- A machine that agrees with the uninterrupted one has started the first task. -/
theorem started_of_agree {c' : Cpu} (hcur : L.Current t c)
    (hcreated : ∀ u, L.Created u (entry u) c.mem)
    {K' : Word → Prop} (h : Agree K' (exec (firstRestore L.ctask) c) c')
    (hprep : ∀ a, L.Prepared c.mem a → c'.mem a = c.mem a) : L.Started entry c.mem t c' := by
  obtain ⟨hr, hsp, hsreg, hpc⟩ := exec_firstRestore hcur (hcreated t)
  have hsus : ∀ u, L.Suspended u (ctxOf c.mem (L.block u)) c.mem c'.mem :=
    fun u => suspended_of_prepared (hcreated u) hprep
  have hcur' : L.Current t c' := current_congr (fun a ha => hprep a (Or.inl ha)) hcur
  have hinv : L.Inv c' := ⟨t, hcur', fun u _ => (hsus u).parked⟩
  refine ⟨⟨⟨h.r.trans hr, h.sp.trans hsp, ?_, ?_, (hsus t).live⟩, h.pc.trans hpc⟩, ?_⟩
  · rw [h.pc, hpc, (hcreated t).pc]
  · rw [h.sreg, hsreg, (hcreated t).sreg]
    rfl
  · intro u hu es c'' hrun hfirst
    have hres := suspended_run hrun hinv (hsus u) (fun hc => hu (current_inj hc hcur')) hfirst
    exact ⟨hres, hres.pc.trans (hcreated u).pc⟩

/-! ### The other direction

A start that goes well for every handler goes well for one that writes nothing, and
that one leaves the board as the uninterrupted machine has it.
-/

/-- The board is the machine `c` that nothing interrupts, with its timer enabled. -/
structure Mirrors (L : Layout τ) (m : Word → Byte) (c : Cpu) (b : Board) (tov : Bool) : Prop where
  cpu : b.cpu = c
  prep : ∀ a, L.Prepared m a → c.mem a = m a
  toie : b.timer.toie0 = true
  tov : b.timer.tov0 = tov

/-- **One boundary** of a good start: no compare match was waiting if it could be served,
the frame of an overflow misses what was prepared, and the start goes on. -/
theorem StartsWell.step {ins : StartInstr} {rest : List StartInstr}
    (hs : L.StartsWell n ticks entry m t i (ins :: rest) b)
    (h : L.Mirrors m c b (tovBefore tov0 ticks i))
    (hgate : (b.armed && iFlag b.cpu.sreg) = openAt i) :
    (openAt i = true → b.timer.ocie0b = true →
        (b.timer.ocf0b || (ticks i).compare) = false) ∧
      (overflowServed tov0 ticks i = true → L.Avoids m n c.sp) ∧
      ∃ b', L.Mirrors m c b' (tovBefore tov0 ticks (i + 1)) ∧ b'.sreg = b.sreg ∧
        b'.timer.ocie0b = b.timer.ocie0b ∧
        b'.timer.ocf0b = (b.timer.ocf0b || (ticks i).compare) ∧
        L.StartsWell n ticks entry m t (i + 1) rest (b'.exec (ticks i).tcnt0 ins) := by
  obtain ⟨hcompB, hserve⟩ := hs
  have htick := served_tick hgate h.toie h.tov
  have hnot : ¬ (openAt i && (b.timer.ocie0b && (b.timer.ocf0b || (ticks i).compare))) = true := by
    intro hc
    rw [if_pos hc] at htick
    exact hcompB htick
  rw [if_neg hnot] at htick
  refine ⟨fun hopen hocie => ?_, ?_⟩
  · rw [hopen, hocie] at hnot
    simpa using hnot
  by_cases hov : overflowServed tov0 ticks i = true
  · rw [if_pos hov] at htick
    constructor
    · intro _ a hin hprep
      -- A handler that writes the byte spoils it.
      have hcpu : Agree (fun a' => L.Owned a' ∧ ¬ InFrame n (b.tick (ticks i)).cpu.sp a')
          (b.tick (ticks i)).cpu { c with mem := Function.update c.mem a (m a + 1) } := by
        have hb : (b.tick (ticks i)).cpu = c := h.cpu
        rw [hb]
        refine ⟨rfl, rfl, rfl, rfl, fun a' ha' => Function.update_of_ne ?_ _ _⟩
        rintro rfl
        exact ha'.2 hin
      have hbad : Function.update c.mem a (m a + 1) a = m a :=
        (hserve _ (.overflow _ htick hcpu)).1 a hprep
      rw [Function.update_self] at hbad
      exact absurd hbad (by simp)
    · have hnext := (hserve _ (.overflow _ htick (Agree.refl _ _))).2
      refine ⟨_, ⟨?_, h.prep, ?_, ?_⟩, ?_, ?_, ?_, hnext⟩
      · exact h.cpu
      · exact h.toie
      · exact (tovBefore_succ_of_served hov).symm
      · rfl
      · rfl
      · rfl
  · rw [if_neg hov] at htick
    have hnext := (hserve _ (.quiet htick)).2
    refine ⟨fun hc => absurd hc hov, _, ⟨?_, h.prep, ?_, ?_⟩, ?_, ?_, ?_, hnext⟩
    · exact h.cpu
    · exact h.toie
    · rw [tovBefore_succ_of_not hov, ← h.tov]
      rfl
    · rfl
    · rfl
    · rfl

/-- **A routine** that starts well had no compare match before its last boundary, and
its overflows found frames that miss what was prepared. -/
theorem safe_of_startsWell_asm (rest : List StartInstr) (prog : List Instr) :
    ∀ (i : Nat) (c : Cpu) (b : Board), 5 ≤ i → Spares (L.Prepared m) prog c → Enabled prog c →
      L.Mirrors m c b (tovBefore tov0 ticks i) →
      (b.armed && iFlag b.cpu.sreg) = openAt i → b.timer.ocie0b = true →
      L.StartsWell n ticks entry m t i (prog.map .asm ++ rest) b →
      (∀ j, j < prog.length → 6 ≤ i + j →
        b.timer.ocf0b = false ∧ ∀ k, k ≤ j → (ticks (i + k)).compare = false) ∧
      (∀ j sp, (spTrace prog c)[j]? = some sp → overflowServed tov0 ticks (i + j) = true →
        L.Avoids m n sp) := by
  induction prog with
  | nil =>
      intro i c b _ _ _ _ _ _ _
      refine ⟨fun j hj => absurd hj (Nat.not_lt_zero j), fun j sp hsp => ?_⟩
      exact absurd hsp (by simp [spTrace])
  | cons ins prog ih =>
      intro i c b hi hspare henabled h hgate hocie hs
      obtain ⟨hcompB, hframe, b', h', _, hocie', hocf', hs'⟩ := StartsWell.step hs h hgate
      have hnext : L.Mirrors m (exec1 c ins) (b'.exec (ticks i).tcnt0 (.asm ins))
          (tovBefore tov0 ticks (i + 1)) := by
        refine ⟨?_, fun a ha => ?_, h'.toie, h'.tov⟩
        · show exec1 b'.cpu ins = exec1 c ins
          rw [h'.cpu]
        · rw [exec1_mem fun hc => hspare.1 a hc ha]
          exact h'.prep a ha
      have hgate' := gate_asm (b := b') (ticks i).tcnt0 hi henabled (by rw [h'.cpu])
        (by rw [h'.cpu])
      obtain ⟨hcmp, hframes⟩ :=
        ih (i + 1) _ _ (by omega) hspare.2 henabled.2 hnext hgate' (hocie'.trans hocie) hs'
      constructor
      · intro j hj hij
        cases j with
        | zero =>
            have hopen : openAt i = true := by
              unfold openAt
              rw [decide_eq_true (by omega : 6 ≤ i), Bool.or_true]
            have hor := Bool.or_eq_false_iff.mp (hcompB hopen hocie)
            refine ⟨hor.1, fun k hk => ?_⟩
            rw [Nat.le_zero.mp hk]
            exact hor.2
        | succ j =>
            obtain ⟨hocf, hks⟩ := hcmp j (by simpa using hj) (by omega)
            have hor : (b.timer.ocf0b || (ticks i).compare) = false := hocf'.symm.trans hocf
            rw [Bool.or_eq_false_iff] at hor
            refine ⟨hor.1, fun k hk => ?_⟩
            cases k with
            | zero => exact hor.2
            | succ k =>
                have := hks k (by omega)
                rwa [show i + 1 + k = i + (k + 1) by omega] at this
      · intro j sp hsp hov
        cases j with
        | zero =>
            have hsp' : c.sp = sp := Option.some.inj hsp
            rw [← hsp']
            exact hframe hov
        | succ j =>
            refine hframes j sp hsp ?_
            rwa [show i + 1 + j = i + (j + 1) by omega]

/-! ### From the call to the first task -/

variable {ocr0b : Byte} {ocf0b : Bool}

theorem getElem?_startSps (ctask : Word) {x : CpuRegisters} (j : Nat)
    (hx : ctxOf c.mem (cTaskPtr c.mem ctask) = x) :
    (startSps c.sp x.sp)[5 + j]? = (spTrace (firstRestore ctask) c)[j]? := by
  rw [startSps_eq ctask hx, List.getElem?_append_right (by simp)]
  simp

/-- The two halves of the restore: on the boot stack, and on the stack of the task. -/
theorem firstRestore_halves {entry : Word} (hI : iFlag c.sreg = true) (hcur : L.Current t c)
    (hcreated : L.Created t entry c.mem) :
    Enabled (restoreEnter L.ctask ++ loadSp) c ∧
      Enabled onTaskStack (exec (restoreEnter L.ctask ++ loadSp) c) ∧
      (exec (restoreEnter L.ctask ++ loadSp) c).sp = (ctxOf c.mem (L.block t)).sp ∧
      Sees (L.Live c.mem t) (L.Prepared c.mem) onTaskStack
        (exec (restoreEnter L.ctask ++ loadSp) c) := by
  have hz : cTaskPtr c.mem L.ctask = L.block t := hcur
  obtain ⟨hen₁, hen₂⟩ := enabled_firstRestore L.ctask (c := c)
    (x := ctxOf c.mem (L.block t)) (by rw [hz]) hI (by rw [hcreated.sreg]; decide)
  obtain ⟨hsp, hz'⟩ := exec_enterLoadSp L.ctask (c := c) (x := ctxOf c.mem (L.block t)) (by rw [hz])
  rw [hz] at hz'
  exact ⟨hen₁, hen₂, hsp, sees_onTaskStack hcreated hz' hsp⟩

theorem length_firstRestore (ctask : Word) : (firstRestore ctask).length = 45 := rfl

/-- The routine after `kernel_init_timer` starts the first task. -/
theorem startsWell_firstRestore (hI : iFlag c.sreg = true) (hcur : L.Current t c)
    (hcreated : ∀ u, L.Created u (entry u) c.mem)
    (h : L.Follows (fun _ => L.Prepared c.mem) c.mem c b (tovBefore tov0 ticks 5))
    (hgate : (b.armed && iFlag b.cpu.sreg) = openAt 5)
    (hcmp : ∀ i, i < 50 → (ticks i).compare = false)
    (hframe : ∀ j sp, (spTrace (firstRestore L.ctask) c)[j]? = some sp →
      overflowServed tov0 ticks (5 + j) = true → L.Avoids c.mem n sp) :
    L.StartsWell n ticks entry c.mem t 5 ((firstRestore L.ctask).map .asm) b := by
  obtain ⟨hen₁, hen₂, hsp, hsees⟩ := firstRestore_halves hI hcur (hcreated t)
  have hlen : (restoreEnter L.ctask ++ loadSp).length = 8 := rfl
  have hlen' : (onTaskStack).length = 37 := rfl
  have hmap : (firstRestore L.ctask).map StartInstr.asm =
      (restoreEnter L.ctask ++ loadSp).map .asm ++ (onTaskStack.map .asm ++ []) := by
    rw [firstRestore_eq, List.map_append, List.append_nil]
  have htrace : spTrace (firstRestore L.ctask) c = spTrace (restoreEnter L.ctask ++ loadSp) c ++
      spTrace onTaskStack (exec (restoreEnter L.ctask ++ loadSp) c) := by
    rw [firstRestore_eq, spTrace_append]
  rw [hmap]
  refine startsWell_asm (K := fun _ => L.Prepared c.mem) (fun _ a ha => ⟨ha.owned, Or.inl ha⟩) _ _
    5 c b (Nat.le_refl 5) (sees_loadSp hcur) hen₁ h hgate ?_ ?_ ?_
  · intro j hj
    exact hcmp _ (by omega)
  · intro j sp hj hov
    refine hframe j sp ?_ hov
    rw [htrace]
    exact (List.getElem?_append_left (List.getElem?_eq_some_iff.mp hj).1).trans hj
  intro b₁ h₁ hgate₁
  refine startsWell_asm (K := L.Live c.mem t) ?_ _ _ _ _ b₁ (by omega)
    hsees hen₂ ⟨h₁.agree.mono ?_, h₁.prep, h₁.toie, h₁.ocf, h₁.tov⟩
    hgate₁ ?_ ?_ ?_
  · intro k a ha
    rcases ha with hp | ⟨hs, hlt⟩
    · exact ⟨hp.owned, Or.inl hp⟩
    · exact ⟨Or.inr (Or.inr ⟨t, hs⟩), Or.inr hlt⟩
  · -- Above the saved stack pointer the whole stack is prepared.
    intro a ha
    rcases ha with hp | ⟨hs, hlt⟩
    · exact hp
    · rw [hsp] at hlt
      exact Or.inr (Or.inr ⟨t, hs, hlt⟩)
  · intro j hj
    exact hcmp _ (by omega)
  · intro j sp hj hov
    refine hframe (8 + j) sp ?_ ?_
    · rw [htrace, List.getElem?_append_right (by rw [length_spTrace]; omega), length_spTrace, hlen]
      rwa [Nat.add_sub_cancel_left]
    · rwa [hlen, show 5 + 8 + j = 5 + (8 + j) by omega] at hov
  · intro b₂ h₂ _
    rw [← exec_append, ← firstRestore_eq] at h₂
    exact started_of_agree hcur hcreated h₂.agree h₂.prep

/-- No compare match and no clobbering overflow: the first task starts. -/
theorem startsWell_of_safe (hI : iFlag c.sreg = true) (hcur : L.Current t c)
    (hcreated : ∀ u, L.Created u (entry u) c.mem) (hocf : ocf0b = false)
    (hcmp : ∀ i, i < 50 → (ticks i).compare = false)
    (hframe : ∀ i sp, (startSps c.sp (ctxOf c.mem (L.block t)).sp)[i]? = some sp →
      overflowServed tov0 ticks i = true → L.Avoids c.mem n sp) :
    L.StartsWell n ticks entry c.mem t 0 (kernelStart L.ctask)
      (Board.boot c ocr0b ocf0b tov0) := by
  have hz : cTaskPtr c.mem L.ctask = L.block t := hcur
  have hKP : ∀ k : Cpu, ∀ a, L.Prepared c.mem a →
      L.Owned a ∧ (L.Prepared c.mem a ∨ k.sp.toNat < a.toNat) := fun _ a ha => ⟨ha.owned, Or.inl ha⟩
  unfold kernelStart kernelInitTimer
  -- `sreg = SREG`
  refine startsWell_cons (K := fun _ => L.Prepared c.mem) (c := c)
    ⟨Agree.refl _ _, fun _ _ => rfl, rfl, hocf, rfl⟩ ?_ (hKP c) (hcmp 0 (by omega))
    (hframe 0 c.sp rfl) fun b₁ h₁ _ => ?_
  · show (true && iFlag c.sreg) = openAt 0
    rw [hI]
    rfl
  have hI₁ : iFlag b₁.cpu.sreg = true := by rw [h₁.agree.sreg]; exact hI
  -- `cli()`
  refine startsWell_cons (K := fun _ => L.Prepared c.mem) (c := c)
    ⟨h₁.agree, h₁.prep, h₁.toie, h₁.ocf, h₁.tov⟩ ?_ (hKP c) (hcmp 1 (by omega))
    (hframe 1 c.sp rfl) fun b₂ h₂ hs₂ => ?_
  · show (iFlag b₁.cpu.sreg && iFlag b₁.cpu.sreg) = openAt 1
    rw [hI₁]
    rfl
  have hagree₂ : Agree (L.Prepared c.mem) (exec1 c .cli) (exec1 b₂.cpu .cli) :=
    ⟨h₂.agree.r, h₂.agree.sp, congrArg clearI h₂.agree.sreg, h₂.agree.pc, h₂.agree.mem⟩
  -- `enable_timer0_interrupt(COMPB_INTERRUPT)`
  refine startsWell_cons (K := fun _ => L.Prepared c.mem) (c := exec1 c .cli)
    ⟨hagree₂, h₂.prep, h₂.toie, h₂.ocf, h₂.tov⟩ ?_ (hKP _) (hcmp 2 (by omega))
    (hframe 2 c.sp rfl) fun b₃ h₃ hs₃ => ?_
  · show (iFlag b₂.cpu.sreg && iFlag (clearI b₂.cpu.sreg)) = openAt 2
    rw [iFlag_clearI, Bool.and_false]
    rfl
  have hI₃ : iFlag b₃.cpu.sreg = false := by
    rw [h₃.agree.sreg]
    exact iFlag_clearI c.sreg
  -- `OCR0B = ...`
  refine startsWell_cons (K := fun _ => L.Prepared c.mem) (c := exec1 c .cli)
    ⟨h₃.agree, h₃.prep, h₃.toie, h₃.ocf, h₃.tov⟩ ?_ (hKP _) (hcmp 3 (by omega))
    (hframe 3 c.sp rfl) fun b₄ h₄ hs₄ => ?_
  · show (iFlag b₃.cpu.sreg && iFlag b₃.cpu.sreg) = openAt 3
    rw [hI₃]
    rfl
  have hI₄ : iFlag b₄.cpu.sreg = false := by
    rw [h₄.agree.sreg]
    exact iFlag_clearI c.sreg
  -- `SREG = sreg`
  refine startsWell_cons (K := fun _ => L.Prepared c.mem) (c := exec1 c .cli)
    ⟨h₄.agree, h₄.prep, h₄.toie, h₄.ocf, h₄.tov⟩ ?_ (hKP _) (hcmp 4 (by omega))
    (hframe 4 c.sp rfl) fun b₅ h₅ hs₅ => ?_
  · show (iFlag b₄.cpu.sreg && iFlag b₄.cpu.sreg) = openAt 4
    rw [hI₄]
    rfl
  have hI₅ : iFlag b₅.cpu.sreg = false := by
    rw [h₅.agree.sreg]
    exact iFlag_clearI c.sreg
  have hvar : b₅.sreg = c.sreg := by
    rw [hs₅]
    show b₄.sreg = c.sreg
    rw [hs₄]
    show b₃.sreg = c.sreg
    rw [hs₃]
    show b₂.sreg = c.sreg
    rw [hs₂]
    exact h₁.agree.sreg
  refine startsWell_firstRestore hI hcur hcreated
    ⟨⟨h₅.agree.r, h₅.agree.sp, hvar, h₅.agree.pc, h₅.agree.mem⟩, h₅.prep, h₅.toie, h₅.ocf, h₅.tov⟩
    ?_ hcmp ?_
  · show (iFlag b₅.cpu.sreg && _) = openAt 5
    rw [hI₅]
    rfl
  · intro j sp hj hov
    rw [← getElem?_startSps L.ctask j (by rw [hz])] at hj
    exact hframe _ sp hj hov

/-- What a start that goes well tells about the five boundaries of `kernel_init_timer`,
and how it goes on. -/
theorem kernelInitTimer_of_startsWell (hI : iFlag c.sreg = true) {rest : List StartInstr}
    (hs : L.StartsWell n ticks entry c.mem t 0 (kernelInitTimer ++ rest)
      (Board.boot c ocr0b ocf0b tov0)) :
    (∀ i, i < 5 → overflowServed tov0 ticks i = true → L.Avoids c.mem n c.sp) ∧
      ∃ b, L.Mirrors c.mem c b (tovBefore tov0 ticks 5) ∧ b.armed = false ∧
        b.timer.ocie0b = true ∧
        (b.timer.ocf0b = false → ocf0b = false ∧ ∀ i, i < 5 → (ticks i).compare = false) ∧
        L.StartsWell n ticks entry c.mem t 5 rest b := by
  unfold kernelInitTimer at hs
  -- `sreg = SREG`
  obtain ⟨_, hf₀, b₁, h₁, _, _, hocf₁, hrest₁⟩ := StartsWell.step (c := c) hs
    ⟨rfl, fun _ _ => rfl, rfl, rfl⟩ (by show (true && iFlag c.sreg) = _; rw [hI]; rfl)
  -- `cli()`
  obtain ⟨_, hf₁, b₂, h₂, hs₂, _, hocf₂, hrest₂⟩ := StartsWell.step hrest₁
    ⟨h₁.cpu, h₁.prep, h₁.toie, h₁.tov⟩
    (by show (iFlag b₁.cpu.sreg && iFlag b₁.cpu.sreg) = _; rw [h₁.cpu, hI]; rfl)
  -- `enable_timer0_interrupt(COMPB_INTERRUPT)`
  obtain ⟨_, hf₂, b₃, h₃, hs₃, _, hocf₃, hrest₃⟩ := StartsWell.step (c := exec1 c .cli) hrest₂
    ⟨congrArg (exec1 · .cli) h₂.cpu, h₂.prep, h₂.toie, h₂.tov⟩
    (by show (_ && iFlag (clearI b₂.cpu.sreg)) = _; rw [iFlag_clearI, Bool.and_false]; rfl)
  have hI₃ : iFlag b₃.cpu.sreg = false := by
    rw [h₃.cpu]
    exact iFlag_clearI c.sreg
  -- `OCR0B = ...`
  obtain ⟨_, hf₃, b₄, h₄, hs₄, hocie₄, hocf₄, hrest₄⟩ := StartsWell.step (c := exec1 c .cli) hrest₃
    ⟨h₃.cpu, h₃.prep, h₃.toie, h₃.tov⟩
    (by show (iFlag b₃.cpu.sreg && iFlag b₃.cpu.sreg) = _; rw [hI₃]; rfl)
  have hI₄ : iFlag b₄.cpu.sreg = false := by
    rw [h₄.cpu]
    exact iFlag_clearI c.sreg
  -- `SREG = sreg`
  obtain ⟨_, hf₄, b₅, h₅, hs₅, hocie₅, hocf₅, hrest₅⟩ := StartsWell.step (c := exec1 c .cli) hrest₄
    ⟨h₄.cpu, h₄.prep, h₄.toie, h₄.tov⟩
    (by show (iFlag b₄.cpu.sreg && iFlag b₄.cpu.sreg) = _; rw [hI₄]; rfl)
  have hI₅ : iFlag b₅.cpu.sreg = false := by
    rw [h₅.cpu]
    exact iFlag_clearI c.sreg
  have hvar : b₅.sreg = c.sreg := by
    calc b₅.sreg = b₄.sreg := hs₅
      _ = b₃.sreg := hs₄
      _ = b₂.sreg := hs₃
      _ = b₁.cpu.sreg := hs₂
      _ = c.sreg := by rw [h₁.cpu]
  have hmirror : L.Mirrors c.mem c (b₅.exec (ticks 4).tcnt0 .writeSreg)
      (tovBefore tov0 ticks 5) := by
    refine ⟨?_, fun _ _ => rfl, h₅.toie, h₅.tov⟩
    show { b₅.cpu with sreg := b₅.sreg } = c
    rw [hvar, h₅.cpu]
    rfl
  refine ⟨?_, _, hmirror, hI₅, ?_, ?_, hrest₅⟩
  · intro i hi
    have hcases : i = 0 ∨ i = 1 ∨ i = 2 ∨ i = 3 ∨ i = 4 := by omega
    rcases hcases with rfl | rfl | rfl | rfl | rfl
    · exact hf₀
    · exact hf₁
    · exact hf₂
    · exact hf₃
    · exact hf₄
  · exact hocie₅.trans (hocie₄.trans rfl)
  · intro hocf
    have hor₅ := Bool.or_eq_false_iff.mp (hocf₅.symm.trans hocf)
    have hor₄ := Bool.or_eq_false_iff.mp (hocf₄.symm.trans hor₅.1)
    have hor₃ := Bool.or_eq_false_iff.mp (hocf₃.symm.trans hor₄.1)
    have hor₂ := Bool.or_eq_false_iff.mp (hocf₂.symm.trans hor₃.1)
    have hor₁ := Bool.or_eq_false_iff.mp (hocf₁.symm.trans hor₂.1)
    refine ⟨hor₁.1, fun i hi => ?_⟩
    have hcases : i = 0 ∨ i = 1 ∨ i = 2 ∨ i = 3 ∨ i = 4 := by omega
    rcases hcases with rfl | rfl | rfl | rfl | rfl
    · exact hor₁.2
    · exact hor₂.2
    · exact hor₃.2
    · exact hor₄.2
    · exact hor₅.2

/-- A good start had no compare match and no clobbering overflow. -/
theorem safe_of_startsWell (hI : iFlag c.sreg = true) (hcur : L.Current t c)
    (hcreated : ∀ u, L.Created u (entry u) c.mem)
    (hs : L.StartsWell n ticks entry c.mem t 0 (kernelStart L.ctask)
      (Board.boot c ocr0b ocf0b tov0)) :
    (ocf0b = false ∧ ∀ i, i < 50 → (ticks i).compare = false) ∧
      ∀ i sp, (startSps c.sp (ctxOf c.mem (L.block t)).sp)[i]? = some sp →
        overflowServed tov0 ticks i = true → L.Avoids c.mem n sp := by
  have hz : cTaskPtr c.mem L.ctask = L.block t := hcur
  obtain ⟨hframe, b, hb, harmed, hocie, hocf, hrest⟩ := kernelInitTimer_of_startsWell hI hs
  obtain ⟨hen₁, hen₂, -, hsees⟩ := firstRestore_halves hI hcur (hcreated t)
  have hspares : Spares (L.Prepared c.mem) (firstRestore L.ctask) c := by
    rw [firstRestore_eq]
    exact spares_append (sees_loadSp hcur).spares hsees.spares
  have henabled : Enabled (firstRestore L.ctask) c := by
    rw [firstRestore_eq]
    exact enabled_append hen₁ hen₂
  have hgate : (b.armed && iFlag b.cpu.sreg) = openAt 5 := by
    rw [harmed]
    rfl
  rw [← List.append_nil ((firstRestore L.ctask).map StartInstr.asm)] at hrest
  obtain ⟨hcmp, hframes⟩ := safe_of_startsWell_asm [] (firstRestore L.ctask) 5 c b (Nat.le_refl 5)
    hspares henabled hb hgate hocie hrest
  obtain ⟨hlast, hcmp'⟩ := hcmp 44 (by rw [length_firstRestore]; omega) (by omega)
  obtain ⟨hocf₀, hfirst⟩ := hocf hlast
  refine ⟨⟨hocf₀, fun i hi => ?_⟩, fun i sp hi hov => ?_⟩
  · by_cases hlt : i < 5
    · exact hfirst i hlt
    · have := hcmp' (i - 5) (by omega)
      rwa [Nat.add_sub_cancel' (Nat.not_lt.mp hlt)] at this
  · by_cases hlt : i < 5
    · have hboot : (startSps c.sp (ctxOf c.mem (L.block t)).sp)[i]? = some c.sp := by
        rw [startSps_eq L.ctask (by rw [hz]), List.getElem?_append_left (by simpa using hlt)]
        exact List.getElem?_replicate_of_lt hlt
      rw [← Option.some.inj (hboot.symm.trans hi)]
      exact hframe i hlt hov
    · have hle : 5 + (i - 5) = i := Nat.add_sub_cancel' (Nat.not_lt.mp hlt)
      rw [← hle] at hi hov
      rw [getElem?_startSps L.ctask _ (by rw [hz])] at hi
      exact hframes _ sp hi hov

/-- Nothing happens to timer0. -/
def quiet : Nat → Tick := fun _ => ⟨false, false, 0⟩

theorem overflowServed_quiet {i : Nat} (h : overflowServed true quiet i = true) : i = 0 := by
  have hlate : ∀ j, tovBefore true quiet (j + 1) = false := by
    intro j
    induction j with
    | zero => rfl
    | succ j ih =>
        show ((tovBefore true quiet (j + 1) || false) && !openAt (j + 1)) = false
        rw [ih]
        rfl
  cases i with
  | zero => rfl
  | succ j =>
      unfold overflowServed at h
      rw [hlate j] at h
      simp [quiet] at h

/-- Two tasks have been created, and `main` runs on a stack of its own. -/
def bootCpu : Cpu where
  r := fun k => BitVec.ofNat 8 (2 * k.val)
  sp := 0x8F0
  sreg := 0x82
  pc := 0x0321
  mem := fun a =>
    if a = 0x100 then 0x10 else if a = 0x101 then 0x01
    else if a = 0x146 then 0x3D else if a = 0x147 then 0x02 else if a = 0x148 then 0x80
    else if a = 0x196 then 0x7D else if a = 0x197 then 0x02 else if a = 0x198 then 0x80
    else if a = 0x23E then 0x04 else if a = 0x23F then 0x56
    else if a = 0x27E then 0x05 else if a = 0x27F then 0x67 else 0

theorem bootCpu_current : twoTasks.Current false bootCpu := rfl

/-- The entries of the two tasks. -/
def bootEntry (u : Bool) : Word := if u then 0x567 else 0x456

theorem bootCpu_created (u : Bool) : twoTasks.Created u (bootEntry u) bootCpu.mem := by
  cases u with
  | false => exact ⟨by decide, by decide, by decide⟩
  | true => exact ⟨by decide, by decide, by decide⟩

/-- The frame of a handler on the stack of `main` holds nothing that was prepared. -/
theorem bootCpu_avoids : twoTasks.Avoids bootCpu.mem 32 bootCpu.sp := by
  intro a ⟨_, hlo⟩ hp
  have hlo' : 0x8F0 < a.toNat + 32 := hlo
  rcases hp with (rfl | rfl) | ⟨u, q, hq, rfl⟩ | ⟨u, ⟨_, hhi⟩, _⟩
  · exact absurd hlo' (by decide)
  · exact absurd hlo' (by decide)
  · obtain ⟨_, hin⟩ := inBlock_disp (L := twoTasks) (t := u) hq
    have hb : (twoTasks.block u).toNat ≤ 0x160 := by cases u <;> decide
    have hs : sizeofTaskData = 67 := rfl
    omega
  · have hb : twoTasks.stackHi u ≤ 0x280 := by cases u <;> decide
    omega

/-- The board when `kernel_start` has come so far and nothing was served. -/
def undisturbed (b : Board) (prog : List StartInstr) : Board :=
  prog.foldl (fun b ins => b.exec 0 ins) b

/-- A save outside any task leaves the current task a context with interrupts disabled. -/
theorem afterSave_sreg (hscratch : ScratchFree L.ctask c.enterInterrupt)
    (hcur : cTaskPtr c.enterInterrupt.mem L.ctask = L.block t) :
    iFlag (ctxOf (exec (saveCtx L.ctask) c.enterInterrupt).mem (L.block t)).sreg = false := by
  obtain ⟨r, hr⟩ := exec_saveCtx hscratch
  rw [hr, hcur, ctxOf_savedMem]
  exact iFlag_clearI _

/-- The interrupted `main` has its stack outside every control block. -/
theorem scratchFree_boot :
    ScratchFree twoTasks.ctask (undisturbed (Board.boot bootCpu 0 true false)
      ((kernelStart twoTasks.ctask).take 6)).cpu.enterInterrupt := by
  have hsp : (undisturbed (Board.boot bootCpu 0 true false)
      ((kernelStart twoTasks.ctask).take 6)).cpu.enterInterrupt.sp = 0x8EE := rfl
  have hptr : cTaskPtr (undisturbed (Board.boot bootCpu 0 true false)
      ((kernelStart twoTasks.ctask).take 6)).cpu.enterInterrupt.mem twoTasks.ctask = 0x110 := rfl
  refine ⟨?_, ?_, ?_⟩
  · unfold Scratch
    rw [hsp]
    decide
  · unfold Scratch
    rw [hsp]
    decide
  · unfold Scratch
    rw [hsp, hptr]
    decide

end Layout

end AtmegaScheduler
