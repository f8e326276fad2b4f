/-
Two schedulers that differ in one control block.

The scheduler reads of a block its link, its stack, its accounts and, when it restores a
context, the stack pointer and the status register.  It never reads the name, and it hands
the saved registers to the processor without looking at them.  So two schedulers whose
blocks agree in all but these two stay that way, call after call, and every call returns
the same on both.
-/
import AtmegaScheduler.Kernel.Bounds

namespace AtmegaScheduler

open Avr

/-- Two computations fail alike, or both succeed with results that are related. -/
inductive Both {ε α : Type} (P : α → α → Prop) : Except ε α → Except ε α → Prop
  | ok {x y : α} (h : P x y) : Both P (.ok x) (.ok y)
  | error (e : ε) : Both P (.error e) (.error e)

theorem Both.map {ε α β : Type} {P : α → α → Prop} {Q : β → β → Prop} {f : α → β}
    {x y : Except ε α} (h : Both P x y) (hf : ∀ a b, P a b → Q (f a) (f b)) :
    Both Q (x.map f) (y.map f) := by
  cases h with
  | ok h => exact .ok (hf _ _ h)
  | error e => exact .error e

theorem Both.of_ok {ε α : Type} {P : α → α → Prop} {x : α} {y : Except ε α}
    (h : Both P (.ok x) y) : ∃ z, y = .ok z ∧ P x z := by
  cases h with
  | ok h => exact ⟨_, rfl, h⟩

namespace Sched

variable {τ : Type} {s s₁ s₂ : Sched τ} {d₁ d₂ : TaskData τ} {t u : τ} {fuel : Nat}
  {a : CreateArgs} {args : List Arg}

/-! ### Two schedulers -/

/-- The blocks differ in the name buffer and in the saved registers at most. -/
def SameButRegs (d₁ d₂ : TaskData τ) : Prop :=
  ∃ name regs, d₂ = { d₁ with name := name, cpuState := { d₁.cpuState with regs := regs } }

/-- The schedulers differ in the block of `t` at most. -/
structure SameButBlock (t : τ) (s₁ s₂ : Sched τ) : Prop where
  head : s₂.readyListHead = s₁.readyListHead
  cTask : s₂.cTask = s₁.cTask
  mem : s₂.mem = s₁.mem
  sreg : s₂.sreg = s₁.sreg
  others : ∀ u, u ≠ t → s₂.tasks u = s₁.tasks u

/-- The schedulers differ in the name buffer and the saved registers of `t` at most. -/
structure Agree (t : τ) (s₁ s₂ : Sched τ) : Prop extends SameButBlock t s₁ s₂ where
  block : SameButRegs (s₁.tasks t) (s₂.tasks t)

theorem Agree.next (h : Agree t s₁ s₂) : s₂.next = s₁.next := by
  funext u
  unfold Sched.next
  by_cases hu : u = t
  · obtain ⟨name, regs, hd⟩ := h.block
    rw [hu, hd]
  · rw [h.others u hu]

theorem Agree.stack (h : Agree t s₁ s₂) (u : τ) : (s₂.tasks u).stack = (s₁.tasks u).stack := by
  by_cases hu : u = t
  · obtain ⟨name, regs, hd⟩ := h.block
    rw [hu, hd]
  · rw [h.others u hu]

theorem Agree.setSreg (h : Agree t s₁ s₂) (sreg : Byte) :
    Agree t (s₁.setSreg sreg) (s₂.setSreg sreg) :=
  ⟨⟨h.head, h.cTask, h.mem, rfl, h.others⟩, h.block⟩

theorem Agree.cli (h : Agree t s₁ s₂) : Agree t s₁.cli s₂.cli :=
  ⟨⟨h.head, h.cTask, h.mem, congrArg clearI h.sreg, h.others⟩, h.block⟩

theorem Agree.mapMem (h : Agree t s₁ s₂) (f : (Word → Byte) → Word → Byte) :
    Agree t { s₁ with mem := f s₁.mem } { s₂ with mem := f s₂.mem } :=
  ⟨⟨h.head, h.cTask, congrArg f h.mem, h.sreg, h.others⟩, h.block⟩

theorem Agree.setCTask (h : Agree t s₁ s₂) (c : Option τ) :
    Agree t { s₁ with cTask := c } { s₂ with cTask := c } :=
  ⟨⟨h.head, rfl, h.mem, h.sreg, h.others⟩, h.block⟩

theorem Agree.scheduleRoundRobin (h : Agree t s₁ s₂) :
    Agree t s₁.scheduleRoundRobin s₂.scheduleRoundRobin := by
  have hnext : s₂.getNextTask s₂.cTask = s₁.getNextTask s₁.cTask := by
    rw [h.cTask]
    unfold getNextTask
    rw [h.next]
  unfold Sched.scheduleRoundRobin
  rw [hnext, show s₂.getHeadTask = s₁.getHeadTask from h.head]
  cases s₁.getNextTask s₁.cTask with
  | none => exact h.setCTask _
  | some node => exact h.setCTask _

variable [DecidableEq τ]

/-! ### What keeps them alike -/

/-- A write to a block whose result does not depend on the name and the registers. -/
theorem Agree.modify (h : Agree t s₁ s₂) (u : τ) {f : TaskData τ → TaskData τ}
    (hf : ∀ d name regs,
      SameButRegs (f d) (f { d with name := name, cpuState := { d.cpuState with regs := regs } })) :
    Agree t (s₁.modify u f) (s₂.modify u f) := by
  refine ⟨⟨h.head, h.cTask, h.mem, h.sreg, fun w hw => ?_⟩, ?_⟩
  · by_cases hwu : w = u
    · rw [hwu, modify_tasks_self, modify_tasks_self, ← hwu, h.others w hw]
    · rw [modify_tasks_of_ne _ _ _ hwu, modify_tasks_of_ne _ _ _ hwu, h.others w hw]
  · by_cases htu : t = u
    · subst htu
      obtain ⟨name, regs, hd⟩ := h.block
      rw [modify_tasks_self, modify_tasks_self, hd]
      exact hf _ _ _
    · rw [modify_tasks_of_ne _ _ _ htu, modify_tasks_of_ne _ _ _ htu]
      exact h.block

theorem Agree.setNext (h : Agree t s₁ s₂) (u : τ) (v : Option τ) :
    Agree t (s₁.setNext u v) (s₂.setNext u v) :=
  h.modify u fun _ _ _ => ⟨_, _, rfl⟩

/-- A search sees the links only. -/
theorem findPrecedingTask_congr (hnext : s₂.next = s₁.next)
    (hhead : s₂.readyListHead = s₁.readyListHead) (target : Option τ) :
    s₂.findPrecedingTask fuel target = s₁.findPrecedingTask fuel target := by
  have hseek : ∀ (fuel : Nat) (p : Option τ),
      s₂.seekPreceding target fuel p = s₁.seekPreceding target fuel p := by
    intro fuel
    induction fuel with
    | zero => intro p; rfl
    | succ fuel ih =>
        intro p
        cases p with
        | none => rfl
        | some x =>
            simp only [seekPreceding, getNextTask, hnext, ih]
  unfold findPrecedingTask getHeadTask
  rw [hhead]
  cases s₁.readyListHead with
  | none => rfl
  | some hd => exact hseek fuel _

theorem Agree.addTask (h : Agree t s₁ s₂) (fuel : Nat) (u : τ) :
    Both (Agree t) (s₁.addTask fuel u) (s₂.addTask fuel u) := by
  have htail : s₂.getTail fuel = s₁.getTail fuel := findPrecedingTask_congr h.next h.head none
  unfold Sched.addTask
  rw [htail, show s₂.getHeadTask = s₁.getHeadTask from h.head]
  cases s₁.getHeadTask with
  | none => exact .ok ⟨⟨rfl, h.cTask, h.mem, h.sreg, h.others⟩, h.block⟩
  | some hd =>
      cases s₁.getTail fuel with
      | error e => exact .error e
      | ok p =>
          cases p with
          | none => exact .error _
          | some ptr => exact .ok (h.setNext ptr _)

theorem Agree.resetTask (h : Agree t s₁ s₂) (u : τ) (a : CreateArgs) :
    Agree t (s₁.resetTask u a) (s₂.resetTask u a) :=
  h.modify u fun _ _ _ => ⟨_, _, rfl⟩

theorem Agree.prepareContext (h : Agree t s₁ s₂) (u : τ) (a : CreateArgs) :
    Agree t (s₁.prepareContext u a) (s₂.prepareContext u a) :=
  (h.modify u fun _ _ _ => ⟨_, _, rfl⟩).mapMem
    (writeEntry a.entry (a.stackArray + (a.stackSize - 1)) (a.stackArray + (a.stackSize - 2)))

/-- What the plain `create_task` does once the block is queued. -/
def afterAdd (s : Sched τ) (sreg : Byte) : Sched τ :=
  (if s.cTask = none then { s with cTask := s.getHeadTask } else s).setSreg sreg

theorem createTask_eq (s : Sched τ) (fuel : Nat) (u : τ) (a : CreateArgs) :
    s.createTask fuel u a =
      if a.name.length ≥ confTaskNameMaxLength then
        .ok (true, (s.cli.resetTask u a).setSreg s.sreg)
      else
        (((s.cli.resetTask u a).prepareContext u a).addTask fuel u).map fun s' =>
          (false, s'.afterAdd s.sreg) := by
  unfold createTask
  by_cases hname : a.name.length ≥ confTaskNameMaxLength
  · rw [if_pos hname, if_pos hname]
  · rw [if_neg hname, if_neg hname]
    cases ((s.cli.resetTask u a).prepareContext u a).addTask fuel u with
    | error e => rfl
    | ok s' => rfl

theorem createTaskArgs_eq (s : Sched τ) (fuel : Nat) (u : τ) (a : CreateArgs) (args : List Arg) :
    s.createTaskArgs fuel u a args = (s.cli.createTask fuel u a).map fun r =>
      if r.1 then (true, r.2.setSreg s.sreg)
      else (false, (r.2.placeArgs u a.entry args).setSreg (setI s.sreg)) := by
  unfold createTaskArgs
  cases s.cli.createTask fuel u a with
  | error e => rfl
  | ok r =>
      obtain ⟨b, s'⟩ := r
      cases b with
      | false => rfl
      | true => rfl

omit [DecidableEq τ] in
theorem Agree.afterAdd (h : Agree t s₁ s₂) (sreg : Byte) :
    Agree t (s₁.afterAdd sreg) (s₂.afterAdd sreg) := by
  unfold Sched.afterAdd
  rw [h.cTask, show s₂.getHeadTask = s₁.getHeadTask from h.head]
  by_cases hc : s₁.cTask = none
  · rw [if_pos hc, if_pos hc]
    exact (h.setCTask _).setSreg sreg
  · rw [if_neg hc, if_neg hc]
    exact h.setSreg sreg

theorem Agree.storeArg (h : Agree t s₁ s₂) (u : τ) (p : ArgLoc × Arg) :
    Agree t (Sched.storeArg u s₁ p) (Sched.storeArg u s₂ p) := by
  unfold Sched.storeArg
  split
  · exact h.modify u fun _ _ _ => ⟨_, _, rfl⟩
  · rename_i index _
    rw [h.stack u]
    exact h.mapMem fun mem => memcpy mem ((s₁.tasks u).stack.memoryPtr + index) p.2

theorem Agree.storeArgs (u : τ) (ps : List (ArgLoc × Arg)) :
    ∀ {s₁ s₂ : Sched τ}, Agree t s₁ s₂ →
      Agree t (ps.foldl (Sched.storeArg u) s₁) (ps.foldl (Sched.storeArg u) s₂) := by
  induction ps with
  | nil => intro s₁ s₂ h; exact h
  | cons p ps ih =>
      intro s₁ s₂ h
      exact ih (h.storeArg u p)

theorem Agree.writeArgs (h : Agree t s₁ s₂) (u : τ) (args : List Arg) :
    Agree t (s₁.writeArgs u args) (s₂.writeArgs u args) := by
  rw [writeArgs_eq, writeArgs_eq, h.stack u]
  exact Agree.storeArgs u _ h

theorem Agree.placeEntry (h : Agree t s₁ s₂) (u : τ) (base entry : Word) :
    Agree t (s₁.placeEntry u base entry) (s₂.placeEntry u base entry) := by
  unfold Sched.placeEntry
  rw [h.stack u]
  exact (h.modify u fun _ _ _ => ⟨_, _, rfl⟩).mapMem (writeEntry entry _ _)

theorem Agree.placeArgs (h : Agree t s₁ s₂) (u : τ) (entry : Word) (args : List Arg) :
    Agree t (s₁.placeArgs u entry args) (s₂.placeArgs u entry args) := by
  unfold Sched.placeArgs
  by_cases hbase : stackBytes args ≠ 0
  · rw [if_pos hbase, if_pos hbase]
    exact (h.writeArgs u args).placeEntry u _ entry
  · rw [if_neg hbase, if_neg hbase]
    exact h.writeArgs u args

/-- The results of two calls: the same flag, and schedulers that are alike. -/
def Alike (t : τ) (r₁ r₂ : Bool × Sched τ) : Prop := r₁.1 = r₂.1 ∧ Agree t r₁.2 r₂.2

theorem Agree.createTask (h : Agree t s₁ s₂) (fuel : Nat) (u : τ) (a : CreateArgs) :
    Both (Alike t) (s₁.createTask fuel u a) (s₂.createTask fuel u a) := by
  have hreset := h.cli.resetTask u a
  rw [createTask_eq, createTask_eq, h.sreg]
  by_cases hname : a.name.length ≥ confTaskNameMaxLength
  · rw [if_pos hname, if_pos hname]
    exact .ok ⟨rfl, hreset.setSreg _⟩
  · rw [if_neg hname, if_neg hname]
    exact ((hreset.prepareContext u a).addTask fuel u).map fun _ _ hs => ⟨rfl, hs.afterAdd _⟩

theorem Agree.createTaskArgs (h : Agree t s₁ s₂) (fuel : Nat) (u : τ) (a : CreateArgs)
    (args : List Arg) :
    Both (Alike t) (s₁.createTaskArgs fuel u a args) (s₂.createTaskArgs fuel u a args) := by
  rw [createTaskArgs_eq, createTaskArgs_eq, h.sreg]
  refine (h.cli.createTask fuel u a).map fun r₁ r₂ ⟨hflag, hr⟩ => ?_
  rw [← hflag]
  cases r₁.1 with
  | true => exact ⟨rfl, hr.setSreg _⟩
  | false => exact ⟨rfl, (hr.placeArgs u a.entry args).setSreg _⟩

theorem Agree.setTaskState (h : Agree t s₁ s₂) (u : τ) (state : TaskState) :
    Agree t (s₁.setTaskState (some u) state) (s₂.setTaskState (some u) state) :=
  h.modify u (f := fun d => { d with state := state }) fun _ _ _ => ⟨_, _, rfl⟩

theorem Agree.removeTask (h : Agree t s₁ s₂) (fuel : Nat) (u : τ) :
    Both (Alike t) (s₁.removeTask fuel (some u)) (s₂.removeTask fuel (some u)) := by
  have hlink : s₂.getNextTask (some u) = s₁.getNextTask (some u) := congrFun h.next u
  simp only [Sched.removeTask, removeTaskFromReadyList]
  rw [show s₂.getHeadTask = s₁.getHeadTask from h.head, hlink,
    findPrecedingTask_congr h.next h.head]
  by_cases hhead : some u = s₁.getHeadTask
  · simp only [if_pos hhead]
    have hunlinked : Agree t { s₁ with readyListHead := s₁.getNextTask (some u) }
        { s₂ with readyListHead := s₁.getNextTask (some u) } :=
      ⟨⟨rfl, h.cTask, h.mem, h.sreg, h.others⟩, h.block⟩
    exact .ok ⟨rfl, hunlinked.setTaskState u .undefined⟩
  · simp only [if_neg hhead]
    cases s₁.findPrecedingTask fuel (some u) with
    | error e => exact .error e
    | ok p =>
        cases p with
        | none => exact .error _
        | some p => exact .ok ⟨rfl, ((h.setNext p _).setNext u none).setTaskState u .undefined⟩

omit [DecidableEq τ] in
theorem sameButRegs_charge (d : TaskData τ) (name : Fin confTaskNameMaxLength → Byte)
    (regs : Reg → Byte) (time : BitVec 32) :
    SameButRegs (charge d time)
      (charge { d with name := name, cpuState := { d.cpuState with regs := regs } } time) := by
  unfold charge
  exact ⟨name, regs, rfl⟩

theorem Agree.contextSwitch (h : Agree t s₁ s₂) (cpu : CpuRegisters) (usOut usIn : BitVec 32) :
    Agree t (s₁.contextSwitch cpu usOut usIn) (s₂.contextSwitch cpu usOut usIn) := by
  have hsave : Agree t (s₁.saveCtx cpu) (s₂.saveCtx cpu) := by
    unfold Sched.saveCtx
    rw [h.cTask]
    cases s₁.cTask with
    | none => exact h
    | some u => exact h.modify u fun _ _ _ => ⟨_, _, rfl⟩
  have hcharge : Agree t ((s₁.saveCtx cpu).calculateTaskExecutionTime s₁.cTask usOut)
      ((s₂.saveCtx cpu).calculateTaskExecutionTime s₂.cTask usOut) := by
    unfold Sched.calculateTaskExecutionTime
    rw [h.cTask]
    cases s₁.cTask with
    | none => exact hsave
    | some u => exact hsave.modify u fun d name regs => sameButRegs_charge d name regs _
  have hnext := hcharge.scheduleRoundRobin
  unfold Sched.contextSwitch stampStart
  rw [hnext.cTask]
  cases (((s₁.saveCtx cpu).calculateTaskExecutionTime s₁.cTask usOut).scheduleRoundRobin).cTask with
  | none => exact hnext
  | some u => exact hnext.modify u fun _ _ _ => ⟨_, _, rfl⟩

/-- **One call or event** keeps the schedulers alike. -/
theorem Agree.step (h : Agree t s₁ s₂) (fuel : Nat) (op : Op τ) :
    Both (Agree t) (s₁.step fuel op) (s₂.step fuel op) := by
  cases op with
  | createTask u a => exact (h.createTask fuel u a).map fun _ _ hr => hr.2
  | createTaskArgs u a args => exact (h.createTaskArgs fuel u a args).map fun _ _ hr => hr.2
  | removeTask u => exact (h.removeTask fuel u).map fun _ _ hr => hr.2
  | startScheduler => exact .ok h
  | contextSwitch cpu usOut usIn => exact .ok (h.contextSwitch cpu usOut usIn)

/-- **Any run** keeps the schedulers alike. -/
theorem Agree.run (fuel : Nat) (ops : List (Op τ)) :
    ∀ {s₁ s₂ : Sched τ}, Agree t s₁ s₂ → Both (Agree t) (s₁.run fuel ops) (s₂.run fuel ops) := by
  induction ops with
  | nil => intro s₁ s₂ h; exact .ok h
  | cons op ops ih =>
      intro s₁ s₂ h
      have hstep := h.step fuel op
      simp only [Sched.run]
      generalize s₁.step fuel op = x at hstep
      generalize s₂.step fuel op = y at hstep
      cases hstep with
      | error e => exact .error e
      | ok h' => exact ih h'

end Sched

end AtmegaScheduler
