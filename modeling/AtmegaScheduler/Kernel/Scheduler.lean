/-
Creating, removing and switching tasks, as `scheduler.h`, `scheduler.cpp` and
the C part of `kernel.cpp` have them.

`create_task` comes in two overloads.  The plain one fills in the control block
and queues it; the variadic one calls it and then lays the entry function's
arguments out twice, once to count the stack bytes and once to write them.

Every quantity the source keeps in a `uint16_t` is a 16-bit word here, so index
arithmetic wraps as it does on the target.
-/
import AtmegaScheduler.Kernel.Task

namespace AtmegaScheduler

open Avr

/-- What a caller of `create_task` passes besides the control block. -/
structure CreateArgs where
  stackArray : Word
  stackSize : Word
  /-- The characters of the name, without the terminator. -/
  name : List Byte
  priority : Byte
  sliceMs : Byte
  entry : Word

/-- `strcpy` into a name buffer: the characters, a terminator, and the old rest. -/
def strcpy (buf : Fin confTaskNameMaxLength → Byte) (name : List Byte) :
    Fin confTaskNameMaxLength → Byte :=
  fun i => if i.val < name.length then name.getD i.val 0
    else if i.val = name.length then 0 else buf i

/-- The bytes of `src` written from address `base` on. -/
def memcpy (mem : Word → Byte) (base : Word) (src : List Byte) : Word → Byte :=
  fun a => if (a - base).toNat < src.length then src.getD (a - base).toNat 0 else mem a

/-! ### Laying out the entry function's arguments -/

/-- An argument, as the bytes of its object representation. -/
abbrev Arg := List Byte

/-- `sizeof` an argument, in a `uint16_t`. -/
def Arg.size (arg : Arg) : Word := BitVec.ofNat 16 arg.length

/-- The three variables both passes over the arguments thread. -/
structure ArgCursor where
  argsToStack : Bool
  regsUsed : Word
  stackUsed : Word

/-- One free register above an odd-sized argument. -/
def padding (argSize : Word) : Word := argSize % 2

/-- The test both passes make before they use registers. -/
def ArgCursor.fits (c : ArgCursor) (argSize : Word) : Bool :=
  decide (c.regsUsed + argSize + padding argSize < 17) && !c.argsToStack

/-- `_calc_sizes` -/
def calcSizes (c : ArgCursor) (argSize : Word) : ArgCursor :=
  if c.fits argSize then
    { c with regsUsed := c.regsUsed + argSize + padding argSize }
  else
    { c with argsToStack := true, stackUsed := c.stackUsed + argSize }

/-- Where an argument is copied to. -/
inductive ArgLoc
  /-- `regs[base]` and up. -/
  | regs (base : Byte)
  /-- `stack.memory_ptr[index]` and up. -/
  | stack (index : Word)
  deriving DecidableEq, Repr

/-- The destination `_process_arg` computes. -/
def argLoc (stackSize : Word) (c : ArgCursor) (argSize : Word) : ArgLoc :=
  if c.fits argSize then
    .regs ((25 - c.regsUsed - argSize - padding argSize + 1).setWidth 8)
  else
    .stack (stackSize - c.stackUsed - 1)

/-- How `_process_arg` moves the three variables. -/
def ArgCursor.advance (c : ArgCursor) (argSize : Word) : ArgCursor :=
  if c.fits argSize then
    { c with regsUsed := c.regsUsed + argSize + padding argSize }
  else
    { c with argsToStack := true, stackUsed := c.stackUsed - argSize }

section Fits

variable {stackSize argSize : Word} {c : ArgCursor}

theorem argLoc_of_fits (h : c.fits argSize = true) :
    argLoc stackSize c argSize =
      .regs ((25 - c.regsUsed - argSize - padding argSize + 1).setWidth 8) := if_pos h

theorem argLoc_of_spills (h : ¬ c.fits argSize = true) :
    argLoc stackSize c argSize = .stack (stackSize - c.stackUsed - 1) := if_neg h

theorem ArgCursor.advance_of_fits (h : c.fits argSize = true) :
    c.advance argSize = { c with regsUsed := c.regsUsed + argSize + padding argSize } := if_pos h

theorem ArgCursor.advance_of_spills (h : ¬ c.fits argSize = true) :
    c.advance argSize = { c with argsToStack := true, stackUsed := c.stackUsed - argSize } :=
  if_neg h

end Fits

/-- The argument's bytes in consecutive registers from `base`. -/
def copyToRegs (regs : Reg → Byte) (base : Byte) (arg : Arg) : Reg → Byte :=
  fun k => if base.toNat ≤ k.val ∧ k.val < base.toNat + arg.length
    then arg.getD (k.val - base.toNat) 0 else regs k

/-- A control block in zero-initialised memory. -/
def TaskData.zero {τ : Type} : TaskData τ where
  nextNode := none
  name := fun _ => 0
  state := .ready
  stack := ⟨0, 0⟩
  cpuState := ⟨fun _ => 0, 0, 0⟩
  execTimeUs := 0
  execTimeOverflowCount := 0
  execStartTimeUs := 0
  timeSliceMs := 0

namespace Sched

variable {τ : Type} [DecidableEq τ]

/-- `_process_arg` -/
def processArg (task : τ) (st : Sched τ × ArgCursor) (arg : Arg) : Sched τ × ArgCursor :=
  match argLoc (st.1.tasks task).stack.size st.2 arg.size with
  | .regs argBase =>
      (st.1.modify task fun d =>
        { d with cpuState := { d.cpuState with regs := copyToRegs d.cpuState.regs argBase arg } },
        st.2.advance arg.size)
  | .stack argBase =>
      ({ st.1 with
          mem := memcpy st.1.mem ((st.1.tasks task).stack.memoryPtr + argBase) arg },
        st.2.advance arg.size)

/-! ### `create_task` -/

/-- The fields `create_task` sets before it looks at the name. -/
def resetTask (s : Sched τ) (task : τ) (a : CreateArgs) : Sched τ :=
  s.modify task fun d =>
    { d with
      timeSliceMs := a.sliceMs
      execTimeUs := 0
      execTimeOverflowCount := 0
      execStartTimeUs := 0
      nextNode := none
      stack := ⟨a.stackArray, a.stackSize⟩
      state := .ready
      cpuState := { d.cpuState with sreg := 0x80 } }

/-- The name, the stack pointer and the two bytes of the entry address. -/
def prepareContext (s : Sched τ) (task : τ) (a : CreateArgs) : Sched τ :=
  let s := s.modify task fun d =>
    { d with
      name := strcpy d.name a.name
      cpuState := { d.cpuState with sp := a.stackArray + (a.stackSize - 3) } }
  { s with
    mem := Function.update
      (Function.update s.mem (a.stackArray + (a.stackSize - 1)) (lo8 a.entry))
      (a.stackArray + (a.stackSize - 2)) (hi8 a.entry) }

/-- The plain `create_task`: the returned flag is `true` on failure. -/
def createTask (fuel : Nat) (s : Sched τ) (task : τ) (a : CreateArgs) :
    Except Fault (Bool × Sched τ) :=
  let sreg := s.sreg
  let s := s.cli.resetTask task a
  if a.name.length ≥ confTaskNameMaxLength then
    .ok (true, s.setSreg sreg)
  else
    match (s.prepareContext task a).addTask fuel task with
    | .error e => .error e
    | .ok s =>
        let s := if s.cTask = none then { s with cTask := s.getHeadTask } else s
        .ok (false, s.setSreg sreg)

/-- The stack pointer and entry address below the stack arguments. -/
def placeEntry (s : Sched τ) (task : τ) (stackBase entry : Word) : Sched τ :=
  let stack := (s.tasks task).stack
  let spIndex := stack.size - stackBase - 6
  let s := s.modify task fun d =>
    { d with cpuState := { d.cpuState with sp := stack.memoryPtr + spIndex } }
  { s with
    mem := Function.update
      (Function.update s.mem (stack.memoryPtr + (spIndex + 2)) (lo8 entry))
      (stack.memoryPtr + (spIndex + 1)) (hi8 entry) }

/-- The stack bytes the sizing pass counts. -/
def stackBytes (args : List Arg) : Word :=
  ((args.map Arg.size).foldl calcSizes ⟨false, 0, 0⟩).stackUsed

/-- The writing pass. -/
def writeArgs (s : Sched τ) (task : τ) (args : List Arg) : Sched τ :=
  (args.foldl (processArg task) (s, ⟨false, 0, stackBytes args⟩)).1

/-- What the variadic `create_task` does once the plain one has succeeded. -/
def placeArgs (s : Sched τ) (task : τ) (entry : Word) (args : List Arg) : Sched τ :=
  if stackBytes args ≠ 0 then
    (s.writeArgs task args).placeEntry task (stackBytes args) entry
  else
    s.writeArgs task args

/-- The variadic `create_task`, which ends with `SREG = sreg; sei()`. -/
def createTaskArgs (fuel : Nat) (s : Sched τ) (task : τ) (a : CreateArgs) (args : List Arg) :
    Except Fault (Bool × Sched τ) :=
  let sreg := s.sreg
  match s.cli.createTask fuel task a with
  | .error e => .error e
  | .ok (true, s) => .ok (true, s.setSreg sreg)
  | .ok (false, s) => .ok (false, (s.placeArgs task a.entry args).setSreg (setI sreg))

/-- `remove_task` -/
def removeTask (fuel : Nat) (s : Sched τ) (task : Option τ) : Except Fault (Bool × Sched τ) :=
  match s.removeTaskFromReadyList fuel task with
  | .error e => .error e
  | .ok (true, s) => .ok (true, s)
  | .ok (false, s) => .ok (false, s.setTaskState task .undefined)

/-! ### The C part of a context switch -/

/-- The length of a slice, whether or not the clock wrapped during it. -/
def execTime (startTime currentTime : BitVec 32) : BitVec 32 :=
  if currentTime ≥ startTime then currentTime - startTime
  else (0xFFFFFFFF#32 - startTime) + currentTime + 1

/-- Would adding a slice overflow the 32-bit account? -/
def accountOverflows (total time : BitVec 32) : Bool :=
  decide (total > 0xFFFFFFFF#32 - time)

/-- Add a slice to a task's account, starting afresh when it overflows. -/
def charge (d : TaskData τ) (time : BitVec 32) : TaskData τ :=
  { d with
    execTimeOverflowCount :=
      if accountOverflows d.execTimeUs time then d.execTimeOverflowCount + 1
      else d.execTimeOverflowCount
    execTimeUs :=
      if accountOverflows d.execTimeUs time then time else d.execTimeUs + time }

/-- `calculate_task_execution_time` with the reading `get_us` returned. -/
def calculateTaskExecutionTime (s : Sched τ) (task : Option τ) (currentTime : BitVec 32) :
    Sched τ :=
  match task with
  | none => s
  | some task => s.modify task fun d => charge d (execTime d.execStartTimeUs currentTime)

/-- What `_SAVE_CTX` leaves in the control block of `c_task`. -/
def saveCtx (s : Sched τ) (cpu : CpuRegisters) : Sched τ :=
  match s.cTask with
  | none => s
  | some task =>
      s.modify task fun d => { d with cpuState := { cpu with sreg := clearI cpu.sreg } }

/-- `c_task->exec_start_time_us = get_us()` -/
def stampStart (s : Sched τ) (us : BitVec 32) : Sched τ :=
  match s.cTask with
  | none => s
  | some task => s.modify task fun d => { d with execStartTimeUs := us }

/--
The timer interrupt handler and `yield`, which share their body.  `cpu` holds the
registers of the running task, `usOut` and `usIn` the two clock readings.  A null
`c_task` makes the writes through it miss every control block.
-/
def contextSwitch (s : Sched τ) (cpu : CpuRegisters) (usOut usIn : BitVec 32) : Sched τ :=
  ((s.saveCtx cpu).calculateTaskExecutionTime s.cTask usOut).scheduleRoundRobin.stampStart usIn

/-! ### What a call has done -/

section Cases

variable {s s' : Sched τ} {fuel : Nat} {task : τ} {a : CreateArgs} {args : List Arg}
  {r : Bool × Sched τ}

/-- The plain `create_task` gives up on a long name, or prepares the block and queues it. -/
theorem createTask_cases (h : s.createTask fuel task a = .ok r) :
    (confTaskNameMaxLength ≤ a.name.length ∧ r = (true, (s.cli.resetTask task a).setSreg s.sreg)) ∨
      a.name.length < confTaskNameMaxLength ∧
        ∃ s₂, ((s.cli.resetTask task a).prepareContext task a).addTask fuel task = .ok s₂ ∧
          r = (false, (if s₂.cTask = none then { s₂ with cTask := s₂.getHeadTask } else s₂).setSreg
            s.sreg) := by
  unfold createTask at h
  by_cases hname : a.name.length ≥ confTaskNameMaxLength
  · simp only [if_pos hname] at h
    exact Or.inl ⟨hname, (Except.ok.inj h).symm⟩
  · simp only [if_neg hname] at h
    cases hadd : ((s.cli.resetTask task a).prepareContext task a).addTask fuel task with
    | error e =>
        rw [hadd] at h
        exact absurd h (by simp)
    | ok s₂ =>
        rw [hadd] at h
        exact Or.inr ⟨Nat.lt_of_not_le hname, s₂, rfl, (Except.ok.inj h).symm⟩

/-- A `create_task` that reports no failure has queued the block. -/
theorem createTask_succeeds (h : s.createTask fuel task a = .ok (false, s')) :
    ∃ s₂, ((s.cli.resetTask task a).prepareContext task a).addTask fuel task = .ok s₂ ∧
      s'.tasks = s₂.tasks ∧ s'.mem = s₂.mem := by
  rcases createTask_cases h with ⟨-, hr⟩ | ⟨-, s₂, hadd, hr⟩
  · exact absurd (Prod.mk.inj hr).1 (by simp)
  · refine ⟨s₂, hadd, ?_⟩
    rw [(Prod.mk.inj hr).2]
    by_cases hcur : s₂.cTask = none
    · rw [if_pos hcur]
      exact ⟨rfl, rfl⟩
    · rw [if_neg hcur]
      exact ⟨rfl, rfl⟩

/-- The variadic `create_task` gives up with the plain one, or places the arguments. -/
theorem createTaskArgs_cases (h : s.createTaskArgs fuel task a args = .ok r) :
    (∃ s₁, s.cli.createTask fuel task a = .ok (true, s₁) ∧ r = (true, s₁.setSreg s.sreg)) ∨
      ∃ s₁, s.cli.createTask fuel task a = .ok (false, s₁) ∧
        r = (false, (s₁.placeArgs task a.entry args).setSreg (setI s.sreg)) := by
  unfold createTaskArgs at h
  dsimp only at h
  split at h
  · exact absurd h (by simp)
  · rename_i s₁ hs₁
    exact Or.inl ⟨s₁, hs₁, (Except.ok.inj h).symm⟩
  · rename_i s₁ hs₁
    exact Or.inr ⟨s₁, hs₁, (Except.ok.inj h).symm⟩

theorem createTaskArgs_succeeds (h : s.createTaskArgs fuel task a args = .ok (false, s')) :
    ∃ s₁, s.cli.createTask fuel task a = .ok (false, s₁) ∧
      s' = (s₁.placeArgs task a.entry args).setSreg (setI s.sreg) := by
  rcases createTaskArgs_cases h with ⟨s₁, -, hr⟩ | ⟨s₁, hs₁, hr⟩
  · exact absurd (Prod.mk.inj hr).1 (by simp)
  · exact ⟨s₁, hs₁, (Prod.mk.inj hr).2⟩

/-- Placing the arguments writes registers and the stack pointer in the block of the task,
and memory.  Whatever depends on neither is as before. -/
theorem placeArgs_keeps {β : Type} {f : Sched τ → β}
    (hcpu : ∀ (s : Sched τ) (g : TaskData τ → CpuRegisters),
      (∀ d, (g d).sreg = d.cpuState.sreg) →
        f (s.modify task fun d => { d with cpuState := g d }) = f s)
    (hmem : ∀ (s : Sched τ) (mem : Word → Byte), f { s with mem := mem } = f s)
    (s : Sched τ) (entry : Word) (args : List Arg) : f (s.placeArgs task entry args) = f s := by
  have hpass : ∀ (args : List Arg) (st : Sched τ × ArgCursor),
      f (args.foldl (processArg task) st).1 = f st.1 := by
    intro args
    induction args with
    | nil => intro st; rfl
    | cons arg args ih =>
        intro st
        rw [List.foldl_cons, ih]
        unfold processArg
        split
        · rename_i base _
          exact hcpu st.1 (fun d => { d.cpuState with regs := copyToRegs d.cpuState.regs base arg })
            fun _ => rfl
        · exact hmem st.1 _
  have hwrite : f (s.writeArgs task args) = f s := hpass args _
  have hsp : ∀ (s : Sched τ) (sp : Word),
      f (s.modify task fun d => { d with cpuState := { d.cpuState with sp := sp } }) = f s :=
    fun s sp => hcpu s (fun d => { d.cpuState with sp := sp }) fun _ => rfl
  unfold placeArgs
  split
  · unfold placeEntry
    dsimp only
    rw [hmem, hsp, hwrite]
  · exact hwrite

end Cases

/-! ### Runs -/

/-- The calls and events a run is made of. -/
inductive Op (τ : Type)
  | createTask (task : τ) (a : CreateArgs)
  | createTaskArgs (task : τ) (a : CreateArgs) (args : List Arg)
  | removeTask (task : τ)
  | startScheduler
  | contextSwitch (cpu : CpuRegisters) (usOut usIn : BitVec 32)

/-- A call of either `create_task`. -/
def Op.IsCreate : Op τ → Prop
  | .createTask _ _ => True
  | .createTaskArgs _ _ _ => True
  | _ => False

/-- A context switch, as opposed to a call. -/
def Op.IsSwitch : Op τ → Prop
  | .contextSwitch _ _ _ => True
  | _ => False

omit [DecidableEq τ] in
theorem Op.IsSwitch.eq {op : Op τ} (h : op.IsSwitch) :
    ∃ cpu usOut usIn, op = .contextSwitch cpu usOut usIn := by
  cases op with
  | createTask _ _ => exact h.elim
  | createTaskArgs _ _ _ => exact h.elim
  | removeTask _ => exact h.elim
  | startScheduler => exact h.elim
  | contextSwitch cpu usOut usIn => exact ⟨cpu, usOut, usIn, rfl⟩

/-- One call or event.  `kernel_start` dispatches `c_task` and changes no pointer. -/
def step (fuel : Nat) (s : Sched τ) : Op τ → Except Fault (Sched τ)
  | .createTask task a => (s.createTask fuel task a).map (·.2)
  | .createTaskArgs task a args => (s.createTaskArgs fuel task a args).map (·.2)
  | .removeTask task => (s.removeTask fuel (some task)).map (·.2)
  | .startScheduler => .ok s
  | .contextSwitch cpu usOut usIn => .ok (s.contextSwitch cpu usOut usIn)

/-- A run: the calls one after another. -/
def run (fuel : Nat) (s : Sched τ) : List (Op τ) → Except Fault (Sched τ)
  | [] => .ok s
  | op :: ops =>
      match s.step fuel op with
      | .error e => .error e
      | .ok s' => run fuel s' ops

/-- The scheduler before any task exists, whatever the control blocks hold. -/
def empty (tasks : τ → TaskData τ) (mem : Word → Byte) (sreg : Byte) : Sched τ where
  tasks := tasks
  readyListHead := none
  cTask := none
  mem := mem
  sreg := sreg

end Sched

end AtmegaScheduler
