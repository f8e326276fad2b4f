/-
A task that is created again.

`create_task` sets every field of its block that the scheduler reads, the stack pointer and
the status register, and of the saved registers those that an argument is copied to.  The
others keep what was there: zero in a block that was never used, and in a block that was
used what the task held when it was switched out for the last time.

So two calls on blocks that differ leave blocks that differ in the rest of the name buffer
and in those registers, and the scheduler, which reads neither, goes on in the same way.
But the first restore loads all of them, and the entry function relies on r1 to be zero.
-/
import AtmegaScheduler.Kernel.TwoRuns

namespace AtmegaScheduler

open Avr

namespace Sched

variable {τ : Type} [DecidableEq τ] {s s₁ s₂ : Sched τ} {d₁ d₂ : TaskData τ} {t u : τ}
  {fuel : Nat} {a : CreateArgs} {args : List Arg}

/-! ### The call on both blocks -/

/-- Either overload of `create_task`; the plain one is called without a list of arguments. -/
def create (fuel : Nat) (s : Sched τ) (t : τ) (a : CreateArgs) :
    Option (List Arg) → Except Fault (Bool × Sched τ)
  | none => s.createTask fuel t a
  | some args => s.createTaskArgs fuel t a args

/-- The results of two calls: the same flag, and schedulers that are alike if it says 0. -/
def CreatedAlike (t : τ) (r₁ r₂ : Bool × Sched τ) : Prop :=
  r₁.1 = r₂.1 ∧ (r₁.1 = false → Agree t r₁.2 r₂.2)

/-- A prepared block differs in what `create_task` has not written. -/
theorem SameButBlock.prepared (h : SameButBlock t s₁ s₂) (a : CreateArgs) :
    Agree t ((s₁.resetTask t a).prepareContext t a) ((s₂.resetTask t a).prepareContext t a) := by
  refine ⟨⟨h.head, h.cTask, ?_, h.sreg, fun u hu => ?_⟩, ?_⟩
  · show writeEntry a.entry _ _ s₂.mem = writeEntry a.entry _ _ s₁.mem
    rw [h.mem]
  · simp only [prepareContext, resetTask, modify_tasks_of_ne _ _ _ hu, h.others u hu]
  · simp only [prepareContext, resetTask, modify_tasks_self]
    exact ⟨_, _, rfl⟩

theorem SameButBlock.createTask (h : SameButBlock t s₁ s₂) (fuel : Nat) (a : CreateArgs) :
    Both (CreatedAlike t) (s₁.createTask fuel t a) (s₂.createTask fuel t a) := by
  have hcli : SameButBlock t s₁.cli s₂.cli :=
    ⟨h.head, h.cTask, h.mem, congrArg clearI h.sreg, h.others⟩
  rw [createTask_eq, createTask_eq, h.sreg]
  by_cases hname : a.name.length ≥ confTaskNameMaxLength
  · rw [if_pos hname, if_pos hname]
    exact .ok ⟨rfl, fun hf => absurd hf (by simp)⟩
  · rw [if_neg hname, if_neg hname]
    exact ((hcli.prepared a).addTask fuel t).map fun _ _ hs => ⟨rfl, fun _ => hs.afterAdd _⟩

/-- **The call on both blocks.** -/
theorem SameButBlock.create (h : SameButBlock t s₁ s₂) (fuel : Nat) (a : CreateArgs)
    (call : Option (List Arg)) :
    Both (CreatedAlike t) (s₁.create fuel t a call) (s₂.create fuel t a call) := by
  cases call with
  | none => exact h.createTask fuel a
  | some args =>
      have hcli : SameButBlock t s₁.cli s₂.cli :=
        ⟨h.head, h.cTask, h.mem, congrArg clearI h.sreg, h.others⟩
      show Both _ (s₁.createTaskArgs fuel t a args) (s₂.createTaskArgs fuel t a args)
      rw [createTaskArgs_eq, createTaskArgs_eq, h.sreg]
      refine (hcli.createTask fuel a).map fun r₁ r₂ ⟨hflag, hr⟩ => ?_
      rw [← hflag]
      cases hf : r₁.1 with
      | true => exact ⟨rfl, fun hc => absurd hc (by simp)⟩
      | false => exact ⟨rfl, fun _ => ((hr hf).placeArgs t a.entry args).setSreg _⟩

theorem creates_of_create {call : Option (List Arg)} {s' : Sched τ}
    (h : s.create fuel t a call = .ok (false, s')) : s.Creates fuel t a (call.getD []) s' := by
  cases call with
  | none => exact Or.inl ⟨rfl, h⟩
  | some args => exact Or.inr h

/-! ### The saved registers of a created task -/

/-- Copy an argument, if it goes to registers. -/
def copyArg (regs : Reg → Byte) (p : ArgLoc × Arg) : Reg → Byte :=
  match p.1 with
  | .regs base => copyToRegs regs base p.2
  | .stack _ => regs

/-- An argument is copied to the register `k`. -/
def Covers (ps : List (ArgLoc × Arg)) (k : Reg) : Prop :=
  ∃ base arg, (ArgLoc.regs base, arg) ∈ ps ∧ base.toNat ≤ k.val ∧ k.val < base.toNat + arg.length

theorem Covers.of_cons {p : ArgLoc × Arg} {ps : List (ArgLoc × Arg)} {k : Reg}
    (h : Covers ps k) : Covers (p :: ps) k := by
  obtain ⟨base, arg, hmem, hk⟩ := h
  exact ⟨base, arg, List.mem_cons_of_mem _ hmem, hk⟩

/-- A register that no argument is copied to keeps what it held. -/
theorem copyArgs_of_not {k : Reg} (ps : List (ArgLoc × Arg)) : ∀ {regs : Reg → Byte},
    ¬ Covers ps k → ps.foldl copyArg regs k = regs k := by
  induction ps with
  | nil => intro regs _; rfl
  | cons p ps ih =>
      intro regs h
      obtain ⟨l, arg⟩ := p
      rw [List.foldl_cons, ih fun hc => h hc.of_cons]
      cases l with
      | stack index => rfl
      | regs base => exact if_neg fun hk => h ⟨base, arg, List.mem_cons_self, hk⟩

/-- A register that an argument is copied to does not depend on what it held. -/
theorem copyArgs_congr {k : Reg} (ps : List (ArgLoc × Arg)) : ∀ {regs₁ regs₂ : Reg → Byte},
    Covers ps k ∨ regs₁ k = regs₂ k → ps.foldl copyArg regs₁ k = ps.foldl copyArg regs₂ k := by
  induction ps with
  | nil =>
      intro regs₁ regs₂ h
      rcases h with ⟨_, _, hmem, _⟩ | h
      · exact absurd hmem List.not_mem_nil
      · exact h
  | cons p ps ih =>
      intro regs₁ regs₂ h
      obtain ⟨l, arg⟩ := p
      rw [List.foldl_cons, List.foldl_cons]
      apply ih
      by_cases hk : Covers ps k
      · exact Or.inl hk
      right
      cases l with
      | stack index =>
          rcases h with ⟨base, arg', hmem, hb⟩ | h
          · rcases List.mem_cons.mp hmem with heq | hmem
            · exact absurd (Prod.mk.inj heq).1 (by simp)
            · exact absurd ⟨base, arg', hmem, hb⟩ hk
          · exact h
      | regs base =>
          unfold copyArg copyToRegs
          by_cases hb : base.toNat ≤ k.val ∧ k.val < base.toNat + arg.length
          · dsimp only
            rw [if_pos hb, if_pos hb]
          · rcases h with ⟨base', arg', hmem, hb'⟩ | h
            · rcases List.mem_cons.mp hmem with heq | hmem
              · obtain ⟨hbase, harg⟩ := Prod.mk.inj heq
                rw [ArgLoc.regs.inj hbase, harg] at hb'
                exact absurd hb' hb
              · exact absurd ⟨base', arg', hmem, hb'⟩ hk
            · dsimp only
              rw [if_neg hb, if_neg hb]
              exact h

theorem storeArgs_regs (ps : List (ArgLoc × Arg)) : ∀ s : Sched τ,
    ((ps.foldl (storeArg t) s).tasks t).cpuState.regs =
      ps.foldl copyArg (s.tasks t).cpuState.regs := by
  induction ps with
  | nil => intro s; rfl
  | cons p ps ih =>
      intro s
      obtain ⟨l, arg⟩ := p
      rw [List.foldl_cons, List.foldl_cons, ih]
      cases l with
      | regs base => rw [storeArg_regs]; rfl
      | stack index => rfl

theorem createTask_regs {s' : Sched τ} (h : s.createTask fuel t a = .ok (false, s')) :
    (s'.tasks t).cpuState.regs = (s.tasks t).cpuState.regs := by
  obtain ⟨s₂, hadd, htasks, -⟩ := createTask_succeeds h
  rw [htasks, (addTask_keeps hadd t).1]
  simp [prepareContext, resetTask, cli]

/-- **The saved registers of a created task**: the arguments, over what was there. -/
theorem Creates.regs {s' : Sched τ} (h : s.Creates fuel t a args s') :
    (s'.tasks t).cpuState.regs =
      (placed a.stackSize args).foldl copyArg (s.tasks t).cpuState.regs := by
  rcases h with ⟨rfl, h⟩ | h
  · exact createTask_regs h
  · obtain ⟨-, s₁, hs₁, hregs, -, -⟩ := createTaskArgs_prepares h
    rw [hregs]
    unfold argsStored
    rw [storeArgs_regs, createTask_regs hs₁]
    rfl

theorem Creates.sreg {s' : Sched τ} (h : s.Creates fuel t a args s') :
    (s'.tasks t).cpuState.sreg = 0x80 := by
  rcases h with ⟨rfl, h⟩ | h
  · exact (createTask_prepares h).2.1
  · obtain ⟨-, s₁, hs₁, -, hsreg, -⟩ := createTaskArgs_prepares h
    obtain ⟨regs, hkeep⟩ := storeArgs_task t ((places a.stackSize args).zip args) s₁
    rw [hsreg]
    unfold argsStored
    rw [hkeep]
    exact (createTask_prepares hs₁).2.1

/-- An argument in registers starts at r10 or above. -/
theorem base_le {stackSize argSize : Word} {c : ArgCursor} {base : Byte}
    (h : argLoc stackSize c argSize = .regs base) : 10 ≤ base.toNat := by
  by_cases hfits : c.fits argSize = true
  · rw [argLoc_of_fits hfits] at h
    rw [← ArgLoc.regs.inj h]
    unfold ArgCursor.fits at hfits
    rw [Bool.and_eq_true, decide_eq_true_eq] at hfits
    have hsum := hfits.1
    generalize hn : c.regsUsed + argSize + padding argSize = n at hsum
    have hsub : 25 - c.regsUsed - argSize - padding argSize + 1 = 26 - n := by
      rw [← hn]
      grind
    rw [hsub, BitVec.toNat_setWidth, BitVec.toNat_sub]
    have hlt : n.toNat < 17 := hsum
    show 10 ≤ (2 ^ 16 - n.toNat + 26) % 2 ^ 16 % 2 ^ 8
    omega
  · rw [argLoc_of_spills hfits] at h
    exact absurd h (by simp)

/-- An argument that is passed in registers is passed in r10 and above. -/
theorem regs_base_le {stackSize : Word} (args : List Arg) :
    ∀ (c : ArgCursor) (base : Byte) (arg : Arg),
    (ArgLoc.regs base, arg) ∈ (argPlaces stackSize c args).zip args → 10 ≤ base.toNat := by
  induction args with
  | nil =>
      intro c base arg hmem
      exact absurd hmem (by simp)
  | cons x rest ih =>
      intro c base arg hmem
      rw [argPlaces, List.zip_cons_cons] at hmem
      rcases List.mem_cons.mp hmem with heq | hmem
      · exact base_le (Prod.mk.inj heq).1.symm
      · exact ih _ base arg hmem

/-- **No argument is copied to r1.** -/
theorem not_covers_r1 (stackSize : Word) (args : List Arg) :
    ¬ Covers (placed stackSize args) 1 := by
  rintro ⟨base, arg, hmem, hlo, -⟩
  have hten : 10 ≤ base.toNat := regs_base_le args _ base arg hmem
  have hone : base.toNat ≤ 1 := hlo
  omega

/-! ### Until the first dispatch -/

/-- A call or event that saves no context to the block of `t` and does not create `t`. -/
def Op.Spares (t : τ) (s : Sched τ) : Op τ → Prop
  | .createTask u _ => u ≠ t
  | .createTaskArgs u _ _ => u ≠ t
  | .removeTask _ => True
  | .startScheduler => True
  | .contextSwitch _ _ _ => s.cTask ≠ some t

/-- The calls and events `ops` lead to `s'`, and all of them spare `t`. -/
def Waits (fuel : Nat) (t : τ) : Sched τ → List (Op τ) → Sched τ → Prop
  | s, [], s' => s' = s
  | s, op :: ops, s' => op.Spares t s ∧ ∃ s₁, s.step fuel op = .ok s₁ ∧ Waits fuel t s₁ ops s'

theorem modify_cpuState {f : TaskData τ → TaskData τ}
    (h : u ≠ t ∨ ∀ d, (f d).cpuState = d.cpuState) :
    ((s.modify u f).tasks t).cpuState = (s.tasks t).cpuState := by
  by_cases hu : t = u
  · rw [hu, modify_tasks_self]
    exact h.resolve_left (fun hne => hne hu.symm) _
  · rw [modify_tasks_of_ne _ _ _ hu]

theorem createTask_spares (hu : u ≠ t) {r : Bool × Sched τ}
    (h : s.createTask fuel u a = .ok r) : (r.2.tasks t).cpuState = (s.tasks t).cpuState := by
  have hreset : ((s.cli.resetTask u a).tasks t).cpuState = (s.tasks t).cpuState :=
    modify_cpuState (Or.inl hu)
  rcases createTask_cases h with ⟨-, rfl⟩ | ⟨-, s₂, hadd, rfl⟩
  · exact hreset
  · have hprep : (((s.cli.resetTask u a).prepareContext u a).tasks t).cpuState =
        ((s.cli.resetTask u a).tasks t).cpuState :=
      modify_cpuState (f := fun d =>
        { d with
          name := strcpy d.name a.name
          cpuState := { d.cpuState with sp := a.stackArray + (a.stackSize - 3) } }) (Or.inl hu)
    rw [← hreset, ← hprep, ← (addTask_keeps hadd t).1]
    dsimp only
    split <;> rfl

theorem createTaskArgs_spares (hu : u ≠ t) {r : Bool × Sched τ}
    (h : s.createTaskArgs fuel u a args = .ok r) :
    (r.2.tasks t).cpuState = (s.tasks t).cpuState := by
  have hplace : ∀ s : Sched τ, ((s.placeArgs u a.entry args).tasks t).cpuState =
      (s.tasks t).cpuState :=
    fun s => placeArgs_keeps (f := fun s => (s.tasks t).cpuState)
      (fun _ _ _ => modify_cpuState (Or.inl hu)) (fun _ _ => rfl) s a.entry args
  rcases createTaskArgs_cases h with ⟨s₁, hs₁, rfl⟩ | ⟨s₁, hs₁, rfl⟩
  · have hcreate := createTask_spares (s := s.cli) hu hs₁
    exact hcreate
  · have hcreate := createTask_spares (s := s.cli) hu hs₁
    exact (hplace s₁).trans hcreate

theorem removeTask_spares {r : Bool × Sched τ} (h : s.removeTask fuel (some u) = .ok r) :
    (r.2.tasks t).cpuState = (s.tasks t).cpuState := by
  have hstate : ∀ s : Sched τ, ((s.setTaskState (some u) .undefined).tasks t).cpuState =
      (s.tasks t).cpuState :=
    fun s => modify_cpuState (f := fun d => { d with state := .undefined }) (Or.inr fun _ => rfl)
  have hlist : ∀ r : Bool × Sched τ, s.removeTaskFromReadyList fuel (some u) = .ok r →
      (r.2.tasks t).cpuState = (s.tasks t).cpuState := by
    intro r hr
    unfold removeTaskFromReadyList at hr
    by_cases hhead : some u = s.getHeadTask
    · simp only [if_pos hhead] at hr
      rw [← Except.ok.inj hr]
    · simp only [if_neg hhead] at hr
      split at hr
      · exact absurd hr (by simp)
      · exact absurd hr (by simp)
      · rw [← Except.ok.inj hr, (setNext_cpuState _ _ _ _).1, (setNext_cpuState _ _ _ _).1]
  unfold removeTask at h
  split at h
  · exact absurd h (by simp)
  · rename_i s₁ hs₁
    rw [← Except.ok.inj h]
    exact hlist _ hs₁
  · rename_i s₁ hs₁
    rw [← Except.ok.inj h]
    exact (hstate s₁).trans (hlist _ hs₁)

theorem contextSwitch_spares (ht : s.cTask ≠ some t) (cpu : CpuRegisters)
    (usOut usIn : BitVec 32) :
    ((s.contextSwitch cpu usOut usIn).tasks t).cpuState = (s.tasks t).cpuState := by
  have hsave : ((s.saveCtx cpu).tasks t).cpuState = (s.tasks t).cpuState := by
    unfold saveCtx
    cases hc : s.cTask with
    | none => rfl
    | some u =>
        refine modify_cpuState (Or.inl ?_)
        rintro rfl
        exact ht hc
  have hcharge : (((s.saveCtx cpu).calculateTaskExecutionTime s.cTask usOut).tasks t).cpuState =
      ((s.saveCtx cpu).tasks t).cpuState := by
    unfold calculateTaskExecutionTime
    cases s.cTask with
    | none => rfl
    | some u => exact modify_cpuState (Or.inr fun d => charge_cpuState d _)
  have hsched : ∀ s : Sched τ, s.scheduleRoundRobin.tasks = s.tasks := by
    intro s
    unfold scheduleRoundRobin
    cases s.getNextTask s.cTask <;> rfl
  have hstamp : ∀ s : Sched τ, ((s.stampStart usIn).tasks t).cpuState =
      (s.tasks t).cpuState := by
    intro s
    unfold stampStart
    cases s.cTask with
    | none => rfl
    | some u => exact modify_cpuState (Or.inr fun _ => rfl)
  unfold contextSwitch
  rw [hstamp, hsched, hcharge, hsave]

/-- **What spares a task** keeps its saved registers. -/
theorem step_spares {op : Op τ} {s' : Sched τ} (hop : op.Spares t s)
    (h : s.step fuel op = .ok s') : (s'.tasks t).cpuState = (s.tasks t).cpuState := by
  have hmap : ∀ x : Except Fault (Bool × Sched τ), x.map (·.2) = .ok s' →
      ∃ r, x = .ok r ∧ r.2 = s' := by
    intro x hx
    cases x with
    | error e => exact absurd hx (by simp [Except.map])
    | ok r => exact ⟨r, rfl, Except.ok.inj hx⟩
  cases op with
  | createTask u a =>
      obtain ⟨r, hr, rfl⟩ := hmap _ h
      exact createTask_spares hop hr
  | createTaskArgs u a args =>
      obtain ⟨r, hr, rfl⟩ := hmap _ h
      exact createTaskArgs_spares hop hr
  | removeTask u =>
      obtain ⟨r, hr, rfl⟩ := hmap _ h
      exact removeTask_spares hr
  | startScheduler => rw [← Except.ok.inj h]
  | contextSwitch cpu usOut usIn =>
      rw [← Except.ok.inj h]
      exact contextSwitch_spares hop cpu usOut usIn

/-- **A task that waits** keeps its saved registers. -/
theorem Waits.cpuState (ops : List (Op τ)) : ∀ {s s' : Sched τ}, Waits fuel t s ops s' →
    s.run fuel ops = .ok s' ∧ (s'.tasks t).cpuState = (s.tasks t).cpuState := by
  induction ops with
  | nil =>
      intro s s' h
      rw [show s' = s from h]
      exact ⟨rfl, rfl⟩
  | cons op ops ih =>
      intro s s' ⟨hop, s₁, hs₁, h⟩
      obtain ⟨hrun, hctx⟩ := ih h
      refine ⟨?_, hctx.trans (step_spares hop hs₁)⟩
      simp only [run, hs₁, hrun]

/-- Along runs that are alike, both tasks wait. -/
theorem Waits.agree (ops : List (Op τ)) : ∀ {s₁ s₂ s₁' : Sched τ}, Agree t s₁ s₂ →
    Waits fuel t s₁ ops s₁' → ∃ s₂', Waits fuel t s₂ ops s₂' ∧ Agree t s₁' s₂' := by
  induction ops with
  | nil =>
      intro s₁ s₂ s₁' h hw
      rw [show s₁' = s₁ from hw]
      exact ⟨s₂, rfl, h⟩
  | cons op ops ih =>
      intro s₁ s₂ s₁' h ⟨hop, s, hs, hw⟩
      have hstep := h.step fuel op
      rw [hs] at hstep
      obtain ⟨s', hs', hagree⟩ := hstep.of_ok
      obtain ⟨s₂', hw', hagree'⟩ := ih hagree hw
      have hop' : op.Spares t s₂ := by
        cases op with
        | contextSwitch cpu usOut usIn =>
            show s₂.cTask ≠ some t
            rw [h.cTask]
            exact hop
        | createTask u a => exact hop
        | createTaskArgs u a args => exact hop
        | removeTask u => trivial
        | startScheduler => trivial
      exact ⟨s₂', ⟨hop', s', hs', hw'⟩, hagree'⟩

/-! ### There is a first dispatch -/

/-- A switch, whatever it saves. -/
def anySwitch : Op τ := .contextSwitch ⟨fun _ => 0, 0, 0⟩ 0 0

/-- A switch out of another task, as the first step of a wait. -/
theorem Waits.switch {ops : List (Op τ)} {s' : Sched τ} (hc : s.cTask ≠ some t)
    (h : Waits fuel t (s.contextSwitch ⟨fun _ => 0, 0, 0⟩ 0 0) ops s') :
    Waits fuel t s (anySwitch :: ops) s' :=
  ⟨hc, _, rfl, h⟩

omit [DecidableEq τ] in
/-- A task behind the current one is another task. -/
theorem Ready.cTask_ne {l₁ l₂ : List τ} {u : τ} (h : s.Ready (l₁ ++ u :: l₂))
    (hc : s.cTask = some u) (ht : t ∈ l₂) : s.cTask ≠ some t := by
  rw [hc]
  intro hut
  rw [Option.some.inj hut] at h
  exact Split.notMem_behind h.nodup ht

/-- The tasks between the current one and `t` have their turn, and then `t` has. -/
theorem switches_reach (fuel : Nat) (l₂ : List τ) : ∀ {s : Sched τ} {l₁ l₃ : List τ} {u : τ},
    s.Ready (l₁ ++ u :: (l₂ ++ t :: l₃)) → s.cTask = some u →
      ∃ ops s', Waits fuel t s ops s' ∧ s'.cTask = some t := by
  induction l₂ with
  | nil =>
      intro s l₁ l₃ u h hc
      have hut : s.cTask ≠ some t := h.cTask_ne hc List.mem_cons_self
      refine ⟨[anySwitch], _, Waits.switch hut rfl, ?_⟩
      rw [(contextSwitch_links s _ 0 0).2.2, hc]
      show (s.next u).or s.getHeadTask = some t
      rw [Chain.link h]
      rfl
  | cons v rest ih =>
      intro s l₁ l₃ u h hc
      have hut : s.cTask ≠ some t := h.cTask_ne hc (by simp)
      obtain ⟨hnext, hhead, hcur⟩ := contextSwitch_links s ⟨fun _ => 0, 0, 0⟩ 0 0
      have hready := h.of_eq hnext hhead
      rw [show l₁ ++ u :: (v :: rest ++ t :: l₃) = (l₁ ++ [u]) ++ v :: (rest ++ t :: l₃) by simp]
        at hready
      have hv : (s.contextSwitch ⟨fun _ => 0, 0, 0⟩ 0 0).cTask = some v := by
        rw [hcur, hc]
        show (s.next u).or s.getHeadTask = some v
        rw [Chain.link h]
        rfl
      obtain ⟨ops, s', hw, hs'⟩ := ih hready hv
      exact ⟨anySwitch :: ops, s', Waits.switch hut hw, hs'⟩

/-- **A queued task gets its turn**: by switches alone if the current task is queued.  If it
has been removed, it is created again and gives the processor to the head of the list. -/
theorem exists_dispatch {q : List τ} (h : s.Ready (q ++ [t])) (hc : s.cTask ≠ none) :
    ∃ fuel ops s', Waits fuel t s ops s' ∧ s'.cTask = some t := by
  obtain ⟨u, hu⟩ := Option.ne_none_iff_exists'.mp hc
  by_cases hut : u = t
  · rw [hut] at hu
    exact ⟨0, [], s, rfl, hu⟩
  by_cases huq : u ∈ q
  · obtain ⟨l₁, l₂, rfl⟩ := List.append_of_mem huq
    rw [List.append_assoc, List.cons_append] at h
    exact ⟨0, switches_reach 0 l₂ h hu⟩
  have hnew : u ∉ q ++ [t] := by
    simp [huq, hut]
  let a : CreateArgs := ⟨0, 64, [], 1, 1, 0⟩
  obtain ⟨s₁, hs₁, hready, hcur, -⟩ := createTask_ready (a := a) h hnew (by decide)
    (Nat.le_refl (q ++ [t]).length)
  have hcur₁ : s₁.cTask = some u := by
    rw [hcur, hu]
    rfl
  have hne : s₁.cTask ≠ some t := by
    rw [hcur₁]
    intro heq
    exact hut (Option.some.inj heq)
  have hstep : s.step (q ++ [t]).length (.createTask u a) = .ok s₁ := by
    simp only [step, hs₁]
    rfl
  obtain ⟨hnext₂, hhead₂, hcur₂⟩ := contextSwitch_links s₁ ⟨fun _ => 0, 0, 0⟩ 0 0
  have hready₂ := hready.of_eq hnext₂ hhead₂
  have hlast : s₁.next u = none := Chain.link hready
  have hcur₂' : (s₁.contextSwitch ⟨fun _ => 0, 0, 0⟩ 0 0).cTask = (q ++ [t] ++ [u]).head? := by
    rw [hcur₂, hcur₁, ← hready.head]
    show (s₁.next u).or _ = _
    rw [hlast]
    rfl
  refine ⟨(q ++ [t]).length, ?_⟩
  have hrest : ∃ ops s', Waits (q ++ [t]).length t (s₁.contextSwitch ⟨fun _ => 0, 0, 0⟩ 0 0) ops s' ∧
      s'.cTask = some t := by
    cases q with
    | nil => exact ⟨[], _, rfl, hcur₂'⟩
    | cons v rest =>
        rw [show v :: rest ++ [t] ++ [u] = [] ++ v :: (rest ++ t :: [u]) by simp] at hready₂
        exact switches_reach _ rest hready₂ hcur₂'
  obtain ⟨ops, s', hw, hs'⟩ := hrest
  exact ⟨.createTask u a :: anySwitch :: ops, s', ⟨hut, s₁, hstep, Waits.switch hne hw⟩, hs'⟩

/-- The call queues the task and leaves no null in `c_task`. -/
theorem create_ready {q : List τ} (h : s.Ready q) (ht : t ∉ q)
    (hname : a.name.length < confTaskNameMaxLength) (hfuel : q.length ≤ fuel)
    (call : Option (List Arg)) :
    ∃ s', s.create fuel t a call = .ok (false, s') ∧ s'.Ready (q ++ [t]) ∧ s'.cTask ≠ none := by
  have hor : s.cTask.or (q ++ [t]).head? ≠ none := by
    cases s.cTask with
    | none => cases q <;> simp
    | some u => simp
  cases call with
  | none =>
      obtain ⟨s', hs', hready, hc, -⟩ := createTask_ready h ht hname hfuel
      exact ⟨s', hs', hready, by rw [hc]; exact hor⟩
  | some args =>
      obtain ⟨s', hs', hready, hc, -⟩ := createTaskArgs_ready args h ht hname hfuel
      exact ⟨s', hs', hready, by rw [hc]; exact hor⟩

/-! ### What the entry function finds -/

/-- The bytes that the first restore passes registers through, and the two that hold the
entry address. -/
def frame (a : CreateArgs) (args : List Arg) : List Word :=
  firstPushes a args ++ [preparedSp a args + 1, preparedSp a args + 1 + 1]

/-- The machine `k` is about to restore the context of `t`, and its memory is that of the
scheduler wherever `R` holds, which is nowhere in the saved registers. -/
structure Holds (s : Sched τ) (t : τ) (R : Word → Prop) (ctask : Word) (k : Cpu) : Prop where
  context : ctxOf k.mem (cTaskPtr k.mem ctask) = (s.tasks t).cpuState
  ram : ∀ x, R x → k.mem x = s.mem x
  apart : ∀ x, R x → ∀ q, InCpuState q → cTaskPtr k.mem ctask + disp q ≠ x

/-- A register in which the entry function expects a byte of an argument. -/
def ArgReg (args : List Arg) (k : Reg) : Prop :=
  ∃ rn arg, (Loc.reg rn, arg) ∈ (argLocs 26 (args.map List.length)).zip args ∧
    rn ≤ k.val ∧ k.val < rn + arg.length

/-- What the entry function relies on is the same in both machines, and r1 is zero. -/
structure SameEntry (a : CreateArgs) (args : List Arg) (R : Word → Prop) (c₁ c₂ : Cpu) : Prop where
  r1 : c₁.r 1 = 0 ∧ c₂.r 1 = 0
  argRegs : ∀ k, ArgReg args k → c₂.r k = c₁.r k
  sp : c₂.sp = c₁.sp
  pc : c₂.pc = c₁.pc
  sreg : c₂.sreg = c₁.sreg
  mem : ∀ x, R x → x ∉ firstPushes a args → c₂.mem x = c₁.mem x

/-- The task starts alike in both schedulers: they go on alike, and whenever its prepared
context is restored, the entry function finds the same. -/
structure StartsAlike (t : τ) (a : CreateArgs) (args : List Arg) (s₁ s₂ : Sched τ) : Prop where
  later : ∀ fuel ops, Both (Agree t) (s₁.run fuel ops) (s₂.run fuel ops)
  entry : ∀ fuel ops s₁' s₂', Waits fuel t s₁ ops s₁' → Waits fuel t s₂ ops s₂' →
    s₁'.cTask = some t → ∀ R, (∀ x ∈ frame a args, R x) → ∀ ctask k₁ k₂,
      s₁'.Holds t R ctask k₁ → s₂'.Holds t R ctask k₂ → ∀ tail ∈ returns,
        SameEntry a args R (exec (restoreCtx ctask ++ tail) k₁) (exec (restoreCtx ctask ++ tail) k₂)

/-- Blocks that the call makes alike where it matters: both have zero in r1, and they agree
in the registers of arguments that the call does not write. -/
structure Clean (d₁ d₂ : TaskData τ) (a : CreateArgs) (args : List Arg) : Prop where
  r1 : d₁.cpuState.regs 1 = 0 ∧ d₂.cpuState.regs 1 = 0
  argRegs : ∀ k, ArgReg args k → ¬ Covers (placed a.stackSize args) k →
    d₂.cpuState.regs k = d₁.cpuState.regs k

omit [DecidableEq τ] in
/-- **Restore and return**, wherever the context is. -/
theorem Holds.entered {R : Word → Prop} {ctask : Word} {k : Cpu} (h : s.Holds t R ctask k)
    (hsp : (s.tasks t).cpuState.sp = preparedSp a args) (hR : ∀ x ∈ frame a args, R x)
    {tail : List Instr} (htail : tail ∈ returns) :
    (exec (restoreCtx ctask ++ tail) k).r = (s.tasks t).cpuState.regs ∧
      (exec (restoreCtx ctask ++ tail) k).sp = preparedSp a args + 1 + 1 ∧
      (exec (restoreCtx ctask ++ tail) k).pc =
        word (s.mem (preparedSp a args + 1)) (s.mem (preparedSp a args + 1 + 1)) ∧
      (exec (restoreCtx ctask ++ tail) k).sreg =
        (if tail = [.ret] then (s.tasks t).cpuState.sreg else setI (s.tasks t).cpuState.sreg) ∧
      ∀ x, R x → x ∉ firstPushes a args →
        (exec (restoreCtx ctask ++ tail) k).mem x = s.mem x := by
  have hpush : ∀ x ∈ firstPushes a args, R x :=
    fun x hx => hR x (List.mem_append_left _ hx)
  have hfree : PassFree k.mem (cTaskPtr k.mem ctask) := by
    refine ⟨fun q hq => ?_, fun q hq => ?_⟩
    · rw [h.context, hsp]
      exact h.apart _ (hpush _ (by simp [firstPushes])) q hq
    · rw [h.context, hsp]
      exact h.apart _ (hpush _ (by simp [firstPushes])) q hq
  have hpass : ∀ x, R x → x ∉ firstPushes a args →
      passMem k.mem (s.tasks t).cpuState x = s.mem x := by
    intro x hx hnot
    simp only [firstPushes, List.mem_cons, List.not_mem_nil, or_false, not_or] at hnot
    rw [passMem_of_ne, h.ram x hx]
    · rw [hsp]
      exact hnot.1
    · rw [hsp]
      exact hnot.2
  have hone : preparedSp a args + 1 ∉ firstPushes a args := by
    simp only [firstPushes, List.mem_cons, List.not_mem_nil, or_false, not_or]
    constructor <;> bv_omega
  have htwo : preparedSp a args + 1 + 1 ∉ firstPushes a args := by
    simp only [firstPushes, List.mem_cons, List.not_mem_nil, or_false, not_or]
    constructor <;> bv_omega
  have hpc : word (passMem k.mem (s.tasks t).cpuState (preparedSp a args + 1))
      (passMem k.mem (s.tasks t).cpuState (preparedSp a args + 1 + 1)) =
        word (s.mem (preparedSp a args + 1)) (s.mem (preparedSp a args + 1 + 1)) := by
    rw [hpass _ (hR _ (by simp [frame])) hone, hpass _ (hR _ (by simp [frame])) htwo]
  rw [exec_append, exec_restoreCtx h.context hfree]
  simp only [returns, List.mem_cons, List.not_mem_nil, or_false] at htail
  rw [hsp, ← hpc, ← hsp]
  rcases htail with rfl | rfl | rfl
  · exact ⟨rfl, rfl, rfl, rfl, hpass⟩
  · exact ⟨rfl, rfl, rfl, rfl, hpass⟩
  · exact ⟨rfl, rfl, rfl, rfl, hpass⟩

/-! ### A machine for any context -/

/-- A machine about to restore `x`.  Its control block and the cell `c_task` are well away
from the stack pointer of `x`, and the rest of its memory is `mem`. -/
def dispatchCpu (x : CpuRegisters) (mem : Word → Byte) : Cpu where
  r := fun _ => 0
  sp := 0x8FF
  sreg := 0
  pc := 0
  mem := fun addr =>
    let i := (addr - x.sp).toNat
    if i = 0x2000 then lo8 (x.sp + 0x1000)
    else if i = 0x2001 then hi8 (x.sp + 0x1000)
    else if 0x1000 ≤ i ∧ i < 0x1040 then blockByte x (i - 0x1000)
    else mem addr

/-- The addresses where that machine has the memory it is given. -/
def Outside (sp addr : Word) : Prop := (addr - sp).toNat < 0x1000 ∨ 0x2002 ≤ (addr - sp).toNat

theorem dispatchCpu_current (x : CpuRegisters) (mem : Word → Byte) :
    cTaskPtr (dispatchCpu x mem).mem (x.sp + 0x2000) = x.sp + 0x1000 := by
  have hlo : (x.sp + 0x2000 - x.sp).toNat = 0x2000 := by
    rw [show x.sp + 0x2000 - x.sp = 0x2000 by grind]
    rfl
  have hhi : (x.sp + 0x2000 + 1 - x.sp).toNat = 0x2001 := by
    rw [show x.sp + 0x2000 + 1 - x.sp = 0x2001 by grind]
    rfl
  simp only [cTaskPtr, dispatchCpu, hlo, hhi]
  exact word_hi8_lo8 _

theorem disp_toNat (q : Fin 64) : (disp q).toNat = q.val := by
  simp only [disp, BitVec.toNat_ofNat]
  omega

theorem dispatchCpu_block (x : CpuRegisters) (mem : Word → Byte) :
    ctxOf (dispatchCpu x mem).mem (x.sp + 0x1000) = x := by
  refine ctxOf_of_blockByte fun q => ?_
  have hq : (x.sp + 0x1000 + disp q - x.sp).toNat = 0x1000 + q.val := by
    rw [show x.sp + 0x1000 + disp q - x.sp = 0x1000 + disp q by grind, BitVec.toNat_add, disp_toNat,
      show (0x1000 : Word).toNat = 0x1000 from rfl]
    omega
  simp only [dispatchCpu, hq]
  rw [if_neg (by omega), if_neg (by omega), if_pos (by omega), Nat.add_sub_cancel_left]

theorem dispatchCpu_ram {x : CpuRegisters} {mem : Word → Byte} {addr : Word}
    (h : Outside x.sp addr) : (dispatchCpu x mem).mem addr = mem addr := by
  unfold Outside at h
  simp only [dispatchCpu]
  rw [if_neg (by omega), if_neg (by omega), if_neg (by omega)]

omit [DecidableEq τ] in
/-- The machine is about to dispatch the task it is given the context of. -/
theorem dispatchCpu_holds (s : Sched τ) (t : τ) :
    s.Holds t (Outside (s.tasks t).cpuState.sp) ((s.tasks t).cpuState.sp + 0x2000)
      (dispatchCpu (s.tasks t).cpuState s.mem) := by
  refine ⟨?_, fun x hx => dispatchCpu_ram hx, fun x hx q _ heq => ?_⟩
  · rw [dispatchCpu_current, dispatchCpu_block]
  · rw [dispatchCpu_current] at heq
    unfold Outside at hx
    rw [← heq, show (s.tasks t).cpuState.sp + 0x1000 + disp q - (s.tasks t).cpuState.sp =
      0x1000 + disp q by grind, BitVec.toNat_add, disp_toNat,
      show (0x1000 : Word).toNat = 0x1000 from rfl] at hx
    omega

theorem frame_outside (a : CreateArgs) (args : List Arg) :
    ∀ x ∈ frame a args, Outside (preparedSp a args) x := by
  intro x hx
  simp only [frame, firstPushes, List.cons_append, List.nil_append, List.mem_cons,
    List.not_mem_nil, or_false] at hx
  unfold Outside
  rcases hx with rfl | rfl | rfl | rfl
  · left
    rw [BitVec.sub_self]
    decide
  · right
    rw [show preparedSp a args - 1 - preparedSp a args = -1 by grind]
    decide
  · left
    rw [show preparedSp a args + 1 - preparedSp a args = 1 by grind]
    decide
  · left
    rw [show preparedSp a args + 1 + 1 - preparedSp a args = 2 by grind]
    decide

/-! ### Two calls -/

section Recreated

variable {s₁' s₂' : Sched τ}

/-- **What a created task finds first**: over what was in the saved registers the arguments,
and what the call has put on the stack. -/
theorem Creates.entered {s' u : Sched τ} {fuel' : Nat} {ops : List (Op τ)} {R : Word → Prop}
    {ctask : Word} {k : Cpu} (h : s.Creates fuel t a args s') (hw : Waits fuel' t s' ops u)
    (hk : u.Holds t R ctask k) (hR : ∀ x ∈ frame a args, R x) {tail : List Instr}
    (htail : tail ∈ returns) :
    (exec (restoreCtx ctask ++ tail) k).r =
        (placed a.stackSize args).foldl copyArg (s.tasks t).cpuState.regs ∧
      (exec (restoreCtx ctask ++ tail) k).sp = preparedSp a args + 1 + 1 ∧
      (exec (restoreCtx ctask ++ tail) k).pc =
        word (u.mem (preparedSp a args + 1)) (u.mem (preparedSp a args + 1 + 1)) ∧
      (exec (restoreCtx ctask ++ tail) k).sreg = (if tail = [.ret] then 0x80 else setI 0x80) ∧
      ∀ x, R x → x ∉ firstPushes a args →
        (exec (restoreCtx ctask ++ tail) k).mem x = u.mem x := by
  obtain ⟨-, hctx⟩ := hw.cpuState
  obtain ⟨hr, hsp, hpc, hsreg, hmem⟩ := hk.entered (by rw [hctx, h.sp]) hR htail
  rw [hctx, h.sreg] at hsreg
  refine ⟨hr.trans ?_, hsp, hpc, hsreg, hmem⟩
  rw [hctx, h.regs]

/-- Blocks that are clean start alike. -/
theorem Clean.startsAlike (h₁ : s₁.Creates fuel t a args s₁') (h₂ : s₂.Creates fuel t a args s₂')
    (hagree : Agree t s₁' s₂') (h : Clean (s₁.tasks t) (s₂.tasks t) a args) :
    StartsAlike t a args s₁' s₂' := by
  refine ⟨fun fuel ops => Agree.run fuel ops hagree, ?_⟩
  intro fuel' ops u₁ u₂ hw₁ hw₂ _ R hR ctask k₁ k₂ hk₁ hk₂ tail htail
  obtain ⟨u, hw, hu⟩ := Waits.agree ops hagree hw₁
  obtain rfl : u = u₂ := Except.ok.inj (hw.cpuState.1.symm.trans hw₂.cpuState.1)
  obtain ⟨hr₁, hsp₁, hpc₁, hsreg₁, hmem₁⟩ := h₁.entered hw₁ hk₁ hR htail
  obtain ⟨hr₂, hsp₂, hpc₂, hsreg₂, hmem₂⟩ := h₂.entered hw₂ hk₂ hR htail
  have hr1 := not_covers_r1 a.stackSize args
  refine ⟨⟨?_, ?_⟩, fun k hk => ?_, hsp₂.trans hsp₁.symm, ?_, hsreg₂.trans hsreg₁.symm,
    fun x hx hnot => ?_⟩
  · rw [hr₁, copyArgs_of_not _ hr1]
    exact h.r1.1
  · rw [hr₂, copyArgs_of_not _ hr1]
    exact h.r1.2
  · rw [hr₁, hr₂]
    apply copyArgs_congr
    by_cases hcov : Covers (placed a.stackSize args) k
    · exact Or.inl hcov
    · exact Or.inr (h.argRegs k hk hcov)
  · rw [hpc₁, hpc₂, hu.mem]
  · rw [hmem₁ x hx hnot, hmem₂ x hx hnot, hu.mem]

/-- Blocks that start alike are clean: the first dispatch shows what is left in them. -/
theorem StartsAlike.clean {q : List τ} (h₁ : s₁.Creates fuel t a args s₁')
    (h₂ : s₂.Creates fuel t a args s₂') (hagree : Agree t s₁' s₂') (hq : s₁'.Ready (q ++ [t]))
    (hc : s₁'.cTask ≠ none) (h : StartsAlike t a args s₁' s₂') :
    Clean (s₁.tasks t) (s₂.tasks t) a args := by
  obtain ⟨fuel', ops, u₁, hw₁, hcur⟩ := exists_dispatch hq hc
  obtain ⟨u₂, hw₂, -⟩ := Waits.agree ops hagree hw₁
  have hk₁ := dispatchCpu_holds u₁ t
  have hk₂ := dispatchCpu_holds u₂ t
  rw [hw₁.cpuState.2, h₁.sp] at hk₁
  rw [hw₂.cpuState.2, h₂.sp] at hk₂
  have hR := frame_outside a args
  have hret : [Instr.ret] ∈ returns := by simp [returns]
  have hsame := h.entry fuel' ops u₁ u₂ hw₁ hw₂ hcur _ hR _ _ _ hk₁ hk₂ _ hret
  have hr₁ := (h₁.entered hw₁ hk₁ hR hret).1
  have hr₂ := (h₂.entered hw₂ hk₂ hR hret).1
  have hr1 := not_covers_r1 a.stackSize args
  obtain ⟨hone₁, hone₂⟩ := hsame.r1
  refine ⟨⟨?_, ?_⟩, fun k hk hcov => ?_⟩
  · rw [hr₁, copyArgs_of_not _ hr1] at hone₁
    exact hone₁
  · rw [hr₂, copyArgs_of_not _ hr1] at hone₂
    exact hone₂
  · have hk := hsame.argRegs k hk
    rw [hr₁, hr₂, copyArgs_of_not _ hcov, copyArgs_of_not _ hcov] at hk
    exact hk

end Recreated

/-- The call on two schedulers that differ in the block of the task. -/
theorem SameButBlock.creates {q : List τ} (h : SameButBlock t s₁ s₂) (hq : s₁.Ready q)
    (ht : t ∉ q) (hname : a.name.length < confTaskNameMaxLength) (hfuel : q.length ≤ fuel)
    (call : Option (List Arg)) :
    ∃ s₁' s₂', s₁.create fuel t a call = .ok (false, s₁') ∧
      s₂.create fuel t a call = .ok (false, s₂') ∧ Agree t s₁' s₂' ∧ s₁'.Ready (q ++ [t]) ∧
      s₁'.cTask ≠ none := by
  obtain ⟨s₁', hs₁, hready, hc⟩ := create_ready hq ht hname hfuel call
  have hboth := h.create fuel a call
  rw [hs₁] at hboth
  obtain ⟨⟨b, s₂'⟩, hs₂, hflag, hagree⟩ := hboth.of_ok
  obtain rfl : false = b := hflag
  exact ⟨s₁', s₂', hs₁, hs₂, hagree rfl, hready, hc⟩

omit [DecidableEq τ] in
/-- Arguments that are in place fill every register they are expected in. -/
theorem ArgsInPlace.covers {s' : Sched τ} (h : s'.ArgsInPlace t a args) {k : Reg}
    (hk : ArgReg args k) : Covers (placed a.stackSize args) k := by
  have hmem : ∀ (args : List Arg) (ps : List ArgLoc) (ls : List Loc) (ptr sp : Word) (rn : Nat)
      (arg : Arg), List.Forall₂ (Meets ptr sp) ps ls → (Loc.reg rn, arg) ∈ ls.zip args →
        ∃ base : Byte, (ArgLoc.regs base, arg) ∈ ps.zip args ∧ base.toNat = rn := by
    intro args
    induction args with
    | nil =>
        intro ps ls ptr sp rn arg _ hzip
        exact absurd hzip (by simp)
    | cons x rest ih =>
        intro ps ls ptr sp rn arg hmeets hzip
        cases hmeets with
        | nil => exact absurd hzip (by simp)
        | @cons p l ps ls hp hmeets =>
            rw [List.zip_cons_cons] at hzip ⊢
            rcases List.mem_cons.mp hzip with heq | hzip
            · obtain ⟨hl, rfl⟩ := Prod.mk.inj heq
              rw [← hl] at hp
              cases p with
              | stack index => exact hp.elim
              | regs base => exact ⟨base, List.mem_cons_self, hp⟩
            · obtain ⟨base, hbase, hrn⟩ := ih ps ls ptr sp rn arg hmeets hzip
              exact ⟨base, List.mem_cons_of_mem _ hbase, hrn⟩
  obtain ⟨rn, arg, hzip, hlo, hhi⟩ := hk
  obtain ⟨base, hbase, rfl⟩ := hmem args _ _ _ _ rn arg h hzip
  exact ⟨base, arg, hbase, hlo, hhi⟩

omit [DecidableEq τ] in
/-- With arguments in place a block is clean if its r1 is zero. -/
theorem ArgsInPlace.clean {s' : Sched τ} (h : s'.ArgsInPlace t a args)
    (hr1 : d₁.cpuState.regs 1 = 0 ∧ d₂.cpuState.regs 1 = 0) : Clean d₁ d₂ a args :=
  ⟨hr1, fun _ hk hcov => absurd (h.covers hk) hcov⟩

/--
**A task that is created again starts like a new one if and only if its block is clean.**
Take two schedulers that differ in the block of a task that is not queued, and the same call
of either `create_task` on both.  It succeeds on both, and the task starts alike, exactly if
r1 is zero in both blocks, and both agree in the registers of arguments that the call does
not write.
-/
theorem recreated_iff {q : List τ} (h : SameButBlock t s₁ s₂) (hq : s₁.Ready q) (ht : t ∉ q)
    (hname : a.name.length < confTaskNameMaxLength) (hfuel : q.length ≤ fuel)
    (call : Option (List Arg)) :
    ∃ s₁' s₂', s₁.create fuel t a call = .ok (false, s₁') ∧
      s₂.create fuel t a call = .ok (false, s₂') ∧
      (StartsAlike t a (call.getD []) s₁' s₂' ↔
        Clean (s₁.tasks t) (s₂.tasks t) a (call.getD [])) := by
  obtain ⟨s₁', s₂', hs₁, hs₂, hagree, hready, hc⟩ := h.creates hq ht hname hfuel call
  have h₁ := creates_of_create hs₁
  have h₂ := creates_of_create hs₂
  exact ⟨s₁', s₂', hs₁, hs₂, StartsAlike.clean h₁ h₂ hagree hready hc,
    Clean.startsAlike h₁ h₂ hagree⟩

/-- Two tasks are created, the first is switched out with `v` in r1, and then removed. -/
def leftRun (v : Byte) : List (Op (Fin 2)) :=
  [.createTask 0 argsTask, .createTask 1 { argsTask with stackArray := 0x240 }, .startScheduler,
    .contextSwitch ⟨fun k => if k = 1 then v else 0xFF, 0x220, 0x82⟩ 10 20, .removeTask 0]

/-- No task exists yet. -/
def zeroSched : Sched (Fin 2) := empty (fun _ => TaskData.zero) (fun _ => 0) 0x80

theorem leftRun_left (v : Byte) : ∃ s, zeroSched.run 3 (leftRun v) = .ok s ∧ s.Ready [1] ∧
    (s.tasks 0).cpuState.regs = (fun k => if k = 1 then v else 0xFF) ∧
    SameButBlock 0 s (s.modify 0 fun _ => TaskData.zero) :=
  ⟨_, rfl, ⟨rfl, rfl⟩, rfl, ⟨rfl, rfl, rfl, rfl, fun _ hu => modify_tasks_of_ne _ _ _ hu⟩⟩

/-- The task was switched out with zero in r1, and is created again with two arguments. -/
theorem recreated_leftRun : ∃ s s₁' s₂', zeroSched.run 3 (leftRun 0) = .ok s ∧
    (s.tasks 0).cpuState.regs 2 = 0xFF ∧
    s.create 3 0 argsTask (some [[7], [8, 9]]) = .ok (false, s₁') ∧
    (s.modify 0 fun _ => TaskData.zero).create 3 0 argsTask (some [[7], [8, 9]]) =
      .ok (false, s₂') ∧
    StartsAlike 0 argsTask [[7], [8, 9]] s₁' s₂' := by
  obtain ⟨s, hs, hready, hregs, hsame⟩ := leftRun_left 0
  obtain ⟨s₁', s₂', hs₁, hs₂, hiff⟩ := recreated_iff (a := argsTask) hsame hready (by decide)
    (by decide) (by decide : _ ≤ 3) (some [[7], [8, 9]])
  refine ⟨s, s₁', s₂', hs, by rw [hregs]; rfl, hs₁, hs₂, hiff.mpr ?_⟩
  have hplace : s₁'.ArgsInPlace 0 argsTask [[7], [8, 9]] := by
    unfold ArgsInPlace
    rw [(createTaskArgs_prepares hs₁).1, show places argsTask.stackSize [[7], [8, 9]] =
      [.regs 24, .regs 22] by decide]
    exact .cons rfl (.cons rfl .nil)
  refine hplace.clean ⟨by rw [hregs]; rfl, ?_⟩
  rw [modify_tasks_self]
  rfl

/-- A task that was switched out between `mul` and `eor r1, r1` starts again with what the
multiplication left in r1. -/
theorem recreated_dirty : ∃ s s₁' s₂', zeroSched.run 3 (leftRun 0x0F) = .ok s ∧
    (s.tasks 0).cpuState.regs 1 = 0x0F ∧
    s.create 3 0 argsTask none = .ok (false, s₁') ∧
    (s.modify 0 fun _ => TaskData.zero).create 3 0 argsTask none = .ok (false, s₂') ∧
    ¬ StartsAlike 0 argsTask [] s₁' s₂' := by
  obtain ⟨s, hs, hready, hregs, hsame⟩ := leftRun_left 0x0F
  obtain ⟨s₁', s₂', hs₁, hs₂, hagree, hready', hc⟩ :=
    hsame.creates (a := argsTask) hready (by decide) (by decide) (by decide : _ ≤ 3) none
  have hr1 : (s.tasks 0).cpuState.regs 1 = 0x0F := by
    rw [hregs]
    rfl
  refine ⟨s, s₁', s₂', hs, hr1, hs₁, hs₂, fun halike => ?_⟩
  have hclean := StartsAlike.clean (creates_of_create hs₁) (creates_of_create hs₂) hagree hready'
    hc halike
  have hzero := hclean.r1.1
  rw [hr1] at hzero
  exact absurd hzero (by decide)

end Sched

end AtmegaScheduler
