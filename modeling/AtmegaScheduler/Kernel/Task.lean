/-
Tasks and the ready list, as `task.h` and `task.cpp` have them.

A control block is named by an identifier of some type `τ`; the null pointer is
`none`.  The scheduler's state is the contents of every control block, the two
global pointers `c_task` and `ready_list_head`, the RAM the task stacks live in,
and the status register, which every critical section saves and restores.

The list walks are loops whose exit depends on the heap, so they take fuel and
can fail in two ways: they run out of it, or they read a field through null.
-/
import AtmegaScheduler.Avr.Cpu

namespace AtmegaScheduler

open Avr

/-- The length of a task's name buffer, terminator included. -/
def confTaskNameMaxLength : Nat := 15

/-- A task's possible states. -/
inductive TaskState
  | ready
  | running
  | blocked
  | sleep
  | undefined
  deriving DecidableEq, Repr

/-- A task's stack area. -/
structure TaskStack where
  memoryPtr : Word
  size : Word

/-- The registers of a task that is not running. -/
@[ext] structure CpuRegisters where
  regs : Reg → Byte
  sp : Word
  sreg : Byte

/-- A task control block. -/
structure TaskData (τ : Type) where
  nextNode : Option τ
  name : Fin confTaskNameMaxLength → Byte
  state : TaskState
  stack : TaskStack
  cpuState : CpuRegisters
  execTimeUs : BitVec 32
  execTimeOverflowCount : Byte
  execStartTimeUs : BitVec 32
  timeSliceMs : Byte

/-- What can go wrong in a list walk. -/
inductive Fault
  | nullDeref
  | outOfFuel
  deriving DecidableEq, Repr

/-- The scheduler's memory and the status register. -/
structure Sched (τ : Type) where
  tasks : τ → TaskData τ
  readyListHead : Option τ
  cTask : Option τ
  /-- RAM outside the control blocks: the task stacks. -/
  mem : Word → Byte
  sreg : Byte

namespace Sched

variable {τ : Type}

/-- The link of every control block. -/
def next (s : Sched τ) (t : τ) : Option τ := (s.tasks t).nextNode

/-- `cli()` -/
def cli (s : Sched τ) : Sched τ := { s with sreg := clearI s.sreg }

/-- `SREG = sreg` -/
def setSreg (s : Sched τ) (sreg : Byte) : Sched τ := { s with sreg := sreg }

/-- `_get_head_task` -/
def getHeadTask (s : Sched τ) : Option τ := s.readyListHead

/-- `_get_next_task` -/
def getNextTask (s : Sched τ) : Option τ → Option τ
  | none => none
  | some task => s.next task

/-- `schedule_round_robin` -/
def scheduleRoundRobin (s : Sched τ) : Sched τ :=
  match s.getNextTask s.cTask with
  | some node => { s with cTask := some node }
  | none => { s with cTask := s.getHeadTask }

@[simp] theorem cli_next (s : Sched τ) : s.cli.next = s.next := rfl
@[simp] theorem cli_readyListHead (s : Sched τ) : s.cli.readyListHead = s.readyListHead := rfl
@[simp] theorem cli_cTask (s : Sched τ) : s.cli.cTask = s.cTask := rfl
@[simp] theorem setSreg_next (s : Sched τ) (sreg : Byte) : (s.setSreg sreg).next = s.next := rfl
@[simp] theorem setSreg_readyListHead (s : Sched τ) (sreg : Byte) :
    (s.setSreg sreg).readyListHead = s.readyListHead := rfl
@[simp] theorem setSreg_cTask (s : Sched τ) (sreg : Byte) :
    (s.setSreg sreg).cTask = s.cTask := rfl

variable [DecidableEq τ]

/-- Rewrite one control block. -/
def modify (s : Sched τ) (t : τ) (f : TaskData τ → TaskData τ) : Sched τ :=
  { s with tasks := Function.update s.tasks t (f (s.tasks t)) }

/-- `t->next_node = v` -/
def setNext (s : Sched τ) (t : τ) (v : Option τ) : Sched τ :=
  s.modify t fun d => { d with nextNode := v }

/--
The loop of `_find_preceding_task`.  Its condition reads `seek_head->next_node`
before it compares `seek_head` with null, so a walk that falls off the end reads
through null.
-/
def seekPreceding (s : Sched τ) (targetNode : Option τ) :
    Nat → Option τ → Except Fault (Option τ)
  | 0, _ => .error .outOfFuel
  | _ + 1, none => .error .nullDeref
  | fuel + 1, some seekHead =>
      if s.next seekHead ≠ targetNode then
        seekPreceding s targetNode fuel (s.getNextTask (some seekHead))
      else
        .ok (some seekHead)

/-- `_find_preceding_task` -/
def findPrecedingTask (fuel : Nat) (s : Sched τ) (targetNode : Option τ) :
    Except Fault (Option τ) :=
  match s.getHeadTask with
  | none => .ok none
  | some head => s.seekPreceding targetNode fuel (some head)

/-- `_get_tail` -/
def getTail (fuel : Nat) (s : Sched τ) : Except Fault (Option τ) :=
  s.findPrecedingTask fuel none

/-- The loop of `_find_task`. -/
def seekTask (s : Sched τ) (targetNode : Option τ) : Nat → Option τ → Except Fault (Option τ)
  | 0, _ => .error .outOfFuel
  | _ + 1, none => .ok none
  | fuel + 1, some seekNode =>
      if some seekNode = targetNode then
        .ok (some seekNode)
      else
        seekTask s targetNode fuel (s.getNextTask (some seekNode))

/-- `_find_task` -/
def findTask (fuel : Nat) (s : Sched τ) (targetNode : Option τ) : Except Fault (Option τ) :=
  if s.getHeadTask = targetNode then .ok s.getHeadTask
  else s.seekTask targetNode fuel s.getHeadTask

/-- `_add_task` -/
def addTask (fuel : Nat) (s : Sched τ) (newNode : τ) : Except Fault (Sched τ) :=
  match s.getHeadTask with
  | none => .ok { s with readyListHead := some newNode }
  | some _ =>
      match s.getTail fuel with
      | .error e => .error e
      | .ok none => .error .nullDeref
      | .ok (some ptr) => .ok (s.setNext ptr (some newNode))

/-- `_remove_task_from_ready_list`: the returned flag is `true` on failure. -/
def removeTaskFromReadyList (fuel : Nat) (s : Sched τ) :
    Option τ → Except Fault (Bool × Sched τ)
  | none => .ok (true, s)
  | some task =>
      if some task = s.getHeadTask then
        .ok (false, { s with readyListHead := s.getNextTask (some task) })
      else
        match s.findPrecedingTask fuel (some task) with
        | .error e => .error e
        | .ok none => .error .nullDeref
        | .ok (some precedingTask) =>
            let nextTask := s.getNextTask (some task)
            .ok (false, (s.setNext precedingTask nextTask).setNext task none)

/-- `_set_task_state` -/
def setTaskState (s : Sched τ) (task : Option τ) (state : TaskState) : Sched τ :=
  match task with
  | none => s
  | some task => s.modify task fun d => { d with state := state }

/-! ### What the small writes leave alone -/

section Frame

variable (s : Sched τ) (t : τ) (v : Option τ) (f : TaskData τ → TaskData τ)

@[simp] theorem modify_readyListHead : (s.modify t f).readyListHead = s.readyListHead := rfl
@[simp] theorem modify_cTask : (s.modify t f).cTask = s.cTask := rfl
@[simp] theorem modify_sreg : (s.modify t f).sreg = s.sreg := rfl
@[simp] theorem setNext_readyListHead : (s.setNext t v).readyListHead = s.readyListHead := rfl
@[simp] theorem setNext_cTask : (s.setNext t v).cTask = s.cTask := rfl
@[simp] theorem setNext_sreg : (s.setNext t v).sreg = s.sreg := rfl

@[simp] theorem modify_tasks_self : (s.modify t f).tasks t = f (s.tasks t) :=
  Function.update_self t _ _

theorem modify_tasks_of_ne {t' : τ} (h : t' ≠ t) : (s.modify t f).tasks t' = s.tasks t' :=
  Function.update_of_ne h _ _

@[simp] theorem setNext_next : (s.setNext t v).next = Function.update s.next t v := by
  funext x
  by_cases hx : x = t
  · subst hx
    simp [next, setNext]
  · simp [next, setNext, modify_tasks_of_ne _ _ _ hx, Function.update_of_ne hx]

/-- A write that keeps a block's link keeps every link. -/
theorem modify_next (h : (f (s.tasks t)).nextNode = (s.tasks t).nextNode) :
    (s.modify t f).next = s.next := by
  funext x
  by_cases hx : x = t
  · subst hx
    simpa [next] using h
  · simp [next, modify_tasks_of_ne _ _ _ hx]

@[simp] theorem setTaskState_next (task : Option τ) (state : TaskState) :
    (s.setTaskState task state).next = s.next := by
  cases task with
  | none => rfl
  | some task => exact modify_next s task (fun d => { d with state := state }) rfl

@[simp] theorem setTaskState_readyListHead (task : Option τ) (state : TaskState) :
    (s.setTaskState task state).readyListHead = s.readyListHead := by
  cases task <;> rfl

@[simp] theorem setTaskState_cTask (task : Option τ) (state : TaskState) :
    (s.setTaskState task state).cTask = s.cTask := by
  cases task <;> rfl

end Frame

/-! ### What a call has done -/

/-- `_add_task` makes the task the head, or links one task to it. -/
theorem addTask_cases {s s' : Sched τ} {fuel : Nat} {t : τ} (h : s.addTask fuel t = .ok s') :
    (s.getHeadTask = none ∧ s' = { s with readyListHead := some t }) ∨
      ∃ ptr, s' = s.setNext ptr (some t) := by
  unfold addTask at h
  cases hhead : s.getHeadTask with
  | none =>
      rw [hhead] at h
      exact Or.inl ⟨rfl, (Except.ok.inj h).symm⟩
  | some hd =>
      rw [hhead] at h
      dsimp only at h
      split at h
      · exact absurd h (by simp)
      · exact absurd h (by simp)
      · rename_i ptr _
        exact Or.inr ⟨ptr, (Except.ok.inj h).symm⟩

end Sched

end AtmegaScheduler
