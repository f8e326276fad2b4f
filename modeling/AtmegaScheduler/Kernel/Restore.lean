/-
When a dispatch can be interrupted.

`_RESTORE_CTX` writes the status register fourth and finishes some forty
instructions later.  What it writes there is the saved one of the task it
dispatches, so the rest runs with interrupts disabled exactly when that value has
the interrupt flag clear.

Two places establish it.  A save clears the flag before it reads the status
register, so a task that was switched out is dispatched undisturbed.  But
`create_task` stores 0x80, so the dispatch of a task that has not been switched
out since then can be interrupted with half of its registers loaded.
-/
import AtmegaScheduler.Avr.Interrupt
import AtmegaScheduler.Kernel.Context
import AtmegaScheduler.Kernel.ReadyList

namespace AtmegaScheduler

open Avr

/-! ### One restore -/

/-- `_RESTORE_CTX` after the write of the status register. -/
def restoreRest : List Instr :=
  restoreHigh ++ (lowLoads.map fun p => .ldd p.1 p.2) ++ [.pop 31, .pop 30]

theorem restoreCtx_eq (ctask : Word) : restoreCtx ctask = restoreEnter ctask ++ restoreRest := by
  unfold restoreCtx restoreRest
  simp only [List.append_assoc]

theorem keepsSreg_restoreRest : ∀ ins ∈ restoreRest, KeepsSreg ins := by
  intro ins hins
  unfold restoreRest at hins
  simp only [List.mem_append, List.mem_map] at hins
  rcases hins with (hins | ⟨p, _, rfl⟩) | hins
  · unfold restoreHigh at hins
    simp only [List.mem_cons, List.not_mem_nil, or_false] at hins
    rcases hins with rfl | rfl | rfl | rfl | rfl | rfl | rfl | rfl <;> trivial
  · trivial
  · simp only [List.mem_cons, List.not_mem_nil, or_false] at hins
    rcases hins with rfl | rfl <;> trivial

/-- **A restore of a context with the interrupt flag clear is masked.** -/
theorem masked_restoreCtx {ctask : Word} {c : Cpu} (hc : iFlag c.sreg = false)
    (hx : iFlag (ctxOf c.mem (cTaskPtr c.mem ctask)).sreg = false) :
    Masked (restoreCtx ctask) c := by
  have hrest : Masked restoreRest (exec (restoreEnter ctask) c) := by
    refine masked_of_keepsSreg keepsSreg_restoreRest ?_
    obtain ⟨r, hr, _⟩ := exec_restoreEnter ctask c
    rw [hr]
    exact hx
  rw [restoreCtx_eq]
  unfold restoreEnter
  simp only [List.cons_append, List.nil_append]
  refine masked_cons.mpr ⟨hc, ?_⟩
  refine masked_cons.mpr ⟨hc, ?_⟩
  refine masked_cons.mpr ⟨hc, ?_⟩
  exact masked_cons.mpr ⟨hc, hrest⟩

/-- With the flag set in the context, a pending interrupt is served two
instructions after the write, when half of the stack pointer is loaded. -/
theorem handlerAt_restoreCtx {ctask : Word} {c : Cpu} (hc : iFlag c.sreg = false)
    (hx : iFlag (ctxOf c.mem (cTaskPtr c.mem ctask)).sreg = true) :
    handlerAt 0 0 false (restoreCtx ctask) c = some 5 := by
  obtain ⟨rest, hrest⟩ : ∃ rest, restoreCtx ctask =
      .lds 30 ctask :: .lds 31 (ctask + 1) :: .ldd 29 sregOffset :: .out .sreg 29 ::
        .ldd 28 spOffset :: .ldd 29 (spOffset + 1) :: rest := ⟨_, rfl⟩
  have hopen : iFlag (exec (restoreEnter ctask) c).sreg = true := by
    obtain ⟨r, hr, _⟩ := exec_restoreEnter ctask c
    rw [hr]
    exact hx
  unfold restoreEnter at hopen
  simp only [exec_cons, exec_nil] at hopen
  rw [hrest, handlerAt_closed, handlerAt_closed, handlerAt_closed, handlerAt_closed,
    handlerAt_closed, hopen]
  · exact handlerAt_open (Nat.zero_le 5) hopen
  · exact Or.inl hc
  · exact Or.inr hc
  · exact Or.inr hc
  · exact Or.inr hc
  · exact Or.inr hc

/-! ### Any context can be the one restored -/

/-- Byte `o` of a control block that holds the context `x`. -/
def blockByte (x : CpuRegisters) (o : Nat) : Byte :=
  if h : r0Offset ≤ o ∧ o < spOffset.val then x.regs ⟨o - r0Offset, by
    have h₁ : o < 54 := h.2
    have h₂ : r0Offset = 22 := rfl
    omega⟩
  else if o = spOffset.val then lo8 x.sp
  else if o = spOffset.val + 1 then hi8 x.sp
  else x.sreg

/-- Bytes laid out that way are a control block that holds the context. -/
theorem ctxOf_of_blockByte {x : CpuRegisters} {mem : Word → Byte} {z : Word}
    (h : ∀ q : Fin 64, mem (z + disp q) = blockByte x q.val) : ctxOf mem z = x := by
  unfold ctxOf
  have hregs : (fun k => mem (z + disp (regOffset k))) = x.regs := by
    funext k
    rw [h]
    have hk := regOffset_lt k
    unfold blockByte
    rw [dif_pos ⟨(inCpuState_reg k).1, hk⟩]
    congr 1
    exact Fin.ext (Nat.add_sub_cancel_left _ _)
  rw [hregs, h, h, h]
  exact congrArg (fun w => CpuRegisters.mk x.regs w x.sreg) (word_hi8_lo8 x.sp)

/-- The address of the block below. -/
def restoringBlock : Word := 0x100

/-- A machine about to restore `x`: `c_task`, at address 0, points to a block that holds it. -/
def restoringCpu (x : CpuRegisters) : Cpu where
  r := fun _ => 0
  sp := 0x8FF
  sreg := 0
  pc := 0
  mem := fun a =>
    if a.toNat < 2 then (if a = 0 then lo8 restoringBlock else hi8 restoringBlock)
    else blockByte x (a - restoringBlock).toNat

theorem restoringCpu_byte (x : CpuRegisters) (q : Fin 64) :
    (restoringCpu x).mem (restoringBlock + disp q) = blockByte x q.val := by
  have hto : (restoringBlock + disp q).toNat = 0x100 + q.val := by
    show (0x100#16 + disp q).toNat = 0x100 + q.val
    simp only [disp, BitVec.toNat_add, BitVec.toNat_ofNat]
    omega
  have hsub : restoringBlock + disp q - restoringBlock = disp q := by
    rw [BitVec.add_comm]
    exact BitVec.add_sub_cancel _ _
  have hq : (disp q).toNat = q.val := by
    simp only [disp, BitVec.toNat_ofNat]
    omega
  show (if _ then _ else blockByte x (restoringBlock + disp q - restoringBlock).toNat) = _
  rw [if_neg (by omega), hsub, hq]

theorem restoringCpu_sreg (x : CpuRegisters) : iFlag (restoringCpu x).sreg = false := by
  show iFlag 0#8 = false
  decide

theorem cTaskPtr_restoringCpu (x : CpuRegisters) :
    cTaskPtr (restoringCpu x).mem 0 = restoringBlock := by
  show word (hi8 restoringBlock) (lo8 restoringBlock) = restoringBlock
  exact word_hi8_lo8 restoringBlock

theorem ctxOf_restoringCpu (x : CpuRegisters) :
    ctxOf (restoringCpu x).mem (cTaskPtr (restoringCpu x).mem 0) = x := by
  rw [cTaskPtr_restoringCpu]
  exact ctxOf_of_blockByte (restoringCpu_byte x)

namespace Sched

variable {τ : Type}

/-- However the memory around it looks, the dispatch of the current task runs with
interrupts disabled, and no handler runs whenever its interrupt becomes pending. -/
def RestoreIntact (s : Sched τ) : Prop :=
  ∀ t, s.cTask = some t → ∀ ctask c, iFlag c.sreg = false →
    ctxOf c.mem (cTaskPtr c.mem ctask) = (s.tasks t).cpuState →
    Masked (restoreCtx ctask) c ∧ ∀ arrival, handlerAt arrival 0 false (restoreCtx ctask) c = none

/-- **One dispatch** is undisturbed exactly when the saved flag is clear. -/
theorem restoreIntact_iff {s : Sched τ} :
    s.RestoreIntact ↔ ∀ t, s.cTask = some t → iFlag (s.tasks t).cpuState.sreg = false := by
  constructor
  · intro h t ht
    by_contra hi
    have hctx := ctxOf_restoringCpu (s.tasks t).cpuState
    have hrun := (h t ht 0 _ (restoringCpu_sreg _) hctx).2 0
    rw [handlerAt_restoreCtx (restoringCpu_sreg _) (by rw [hctx]; simpa using hi)] at hrun
    exact absurd hrun (by simp)
  · intro h t ht ctask c hc hctx
    have hmask : Masked (restoreCtx ctask) c :=
      masked_restoreCtx hc (by rw [hctx]; exact h t ht)
    exact ⟨hmask, fun arrival => handlerAt_of_masked arrival _ 0 false c hmask⟩

/-! ### Which saved status registers have the flag set -/

/-- The saved status register of every control block. -/
def savedSreg (s : Sched τ) (t : τ) : Byte := (s.tasks t).cpuState.sreg

/--
What holds of the tasks `create_task` has been called on: the scheduler's pointers
stay among them, and a saved interrupt flag is set exactly on the fresh ones.
-/
structure Tracked (s : Sched τ) (created : τ → Prop) (fresh : τ → Bool) : Prop where
  head : ∀ t, s.readyListHead = some t → created t
  cur : ∀ t, s.cTask = some t → created t
  next : ∀ t u, created t → s.next t = some u → created u
  sreg : ∀ t, created t → iFlag (s.savedSreg t) = fresh t

/-- The calls and events that make a task fresh, or no longer fresh. -/
def Op.fresh [DecidableEq τ] (cur : Option τ) (fresh : τ → Bool) : Op τ → τ → Bool
  | .createTask t _ => Function.update fresh t true
  | .createTaskArgs t _ _ => Function.update fresh t true
  | .contextSwitch _ _ _ => fun t => if cur = some t then false else fresh t
  | _ => fresh

section Tracked

variable {s s' : Sched τ} {created : τ → Prop} {fresh : τ → Bool} {t : τ} {fuel : Nat}

theorem Tracked.of_links (h : s.Tracked created fresh) (hlinks : SameLinks s s')
    (hsreg : s'.savedSreg = s.savedSreg) : s'.Tracked created fresh where
  head := fun t ht => h.head t (hlinks.head ▸ ht)
  cur := fun t ht => h.cur t (hlinks.cTask ▸ ht)
  next := fun t u ht hu => h.next t u ht (hlinks.next ▸ hu)
  sreg := fun t ht => by rw [hsreg]; exact h.sreg t ht

theorem tracked_empty (tasks : τ → TaskData τ) (mem : Word → Byte) (sreg : Byte) :
    (empty tasks mem sreg).Tracked (fun _ => False) (fun _ => true) where
  head := fun t ht => by simp [empty] at ht
  cur := fun t ht => by simp [empty] at ht
  next := fun _ _ ht _ => ht.elim
  sreg := fun _ ht => ht.elim

variable [DecidableEq τ]

theorem modify_savedSreg (s : Sched τ) (t : τ) (f : TaskData τ → TaskData τ)
    (h : (f (s.tasks t)).cpuState.sreg = (s.tasks t).cpuState.sreg) :
    (s.modify t f).savedSreg = s.savedSreg := by
  funext x
  unfold savedSreg
  by_cases hx : x = t
  · rw [hx, modify_tasks_self, h]
  · rw [modify_tasks_of_ne _ _ _ hx]

theorem modify_savedSreg_update (s : Sched τ) (t : τ) (f : TaskData τ → TaskData τ) (v : Byte)
    (h : (f (s.tasks t)).cpuState.sreg = v) :
    (s.modify t f).savedSreg = Function.update s.savedSreg t v := by
  funext x
  unfold savedSreg
  by_cases hx : x = t
  · rw [hx, modify_tasks_self, h, Function.update_self]
  · rw [modify_tasks_of_ne _ _ _ hx, Function.update_of_ne hx]

theorem setNext_savedSreg (s : Sched τ) (t : τ) (v : Option τ) :
    (s.setNext t v).savedSreg = s.savedSreg :=
  modify_savedSreg s t _ rfl

/-- The walk stays among the created tasks and stops in front of its target. -/
theorem seekPreceding_tracked (hnext : ∀ t u, created t → s.next t = some u → created u)
    {target : Option τ} :
    ∀ (fuel : Nat) (start r : Option τ), (∀ t, start = some t → created t) →
      s.seekPreceding target fuel start = .ok r →
      ∃ p, r = some p ∧ created p ∧ s.next p = target := by
  intro fuel
  induction fuel with
  | zero =>
      intro start r _ hr
      simp [seekPreceding] at hr
  | succ fuel ih =>
      intro start r hstart hr
      cases start with
      | none => simp [seekPreceding] at hr
      | some hd =>
          have hhd := hstart hd rfl
          unfold seekPreceding at hr
          by_cases hc : s.next hd ≠ target
          · rw [if_pos hc] at hr
            exact ih _ r (fun t ht => hnext hd t hhd ht) hr
          · rw [if_neg hc] at hr
            exact ⟨hd, (Except.ok.inj hr).symm, hhd, not_not.mp hc⟩

theorem findPrecedingTask_tracked (h : s.Tracked created fresh) {target r : Option τ} {p : τ}
    (hr : s.findPrecedingTask fuel target = .ok r) (hp : r = some p) :
    created p ∧ s.next p = target := by
  unfold findPrecedingTask at hr
  cases hhead : s.getHeadTask with
  | none =>
      rw [hhead] at hr
      rw [← Except.ok.inj hr] at hp
      exact absurd hp (by simp)
  | some hd =>
      rw [hhead] at hr
      obtain ⟨p', hp', hc, hlink⟩ := seekPreceding_tracked h.next fuel (some hd) r
        (fun t ht => h.head t (hhead.trans ht)) hr
      rw [hp] at hp'
      rw [Option.some.inj hp']
      exact ⟨hc, hlink⟩

theorem tracked_addTask (h : s.Tracked created fresh) (ht : created t)
    (hs' : s.addTask fuel t = .ok s') : s'.Tracked created fresh := by
  rcases addTask_cases hs' with ⟨-, rfl⟩ | ⟨ptr, rfl⟩
  · refine ⟨fun u hu => ?_, h.cur, h.next, h.sreg⟩
    rw [← Option.some.inj hu]
    exact ht
  · refine ⟨h.head, h.cur, fun x u hx hu => ?_, fun x hx => ?_⟩
    · rw [setNext_next] at hu
      by_cases hxp : x = ptr
      · rw [hxp, Function.update_self] at hu
        rw [← Option.some.inj hu]
        exact ht
      · rw [Function.update_of_ne hxp] at hu
        exact h.next x u hx hu
    · rw [setNext_savedSreg]
      exact h.sreg x hx

theorem tracked_resetTask (h : s.Tracked created fresh) (t : τ) (a : CreateArgs) :
    (s.resetTask t a).Tracked (fun x => x = t ∨ created x) (Function.update fresh t true) := by
  have hsreg : (s.resetTask t a).savedSreg = Function.update s.savedSreg t 0x80 :=
    modify_savedSreg_update s t _ 0x80 rfl
  refine ⟨fun u hu => Or.inr (h.head u hu), fun u hu => Or.inr (h.cur u hu), ?_, ?_⟩
  · intro x u hx hu
    rw [resetTask_next] at hu
    by_cases hxt : x = t
    · rw [hxt, Function.update_self] at hu
      exact absurd hu (by simp)
    · rw [Function.update_of_ne hxt] at hu
      exact Or.inr (h.next x u (hx.resolve_left hxt) hu)
  · intro x hx
    rw [hsreg]
    by_cases hxt : x = t
    · rw [hxt, Function.update_self, Function.update_self]
      rfl
    · rw [Function.update_of_ne hxt, Function.update_of_ne hxt]
      exact h.sreg x (hx.resolve_left hxt)

theorem prepareContext_savedSreg (s : Sched τ) (t : τ) (a : CreateArgs) :
    (s.prepareContext t a).savedSreg = s.savedSreg :=
  modify_savedSreg s t (fun d => { d with
    name := strcpy d.name a.name
    cpuState := { d.cpuState with sp := a.stackArray + (a.stackSize - 3) } }) rfl

theorem tracked_createTask (h : s.Tracked created fresh) {a : CreateArgs} {r : Bool × Sched τ}
    (hr : s.createTask fuel t a = .ok r) :
    r.2.Tracked (fun x => x = t ∨ created x) (Function.update fresh t true) := by
  have hcli : s.cli.Tracked created fresh := h.of_links ⟨rfl, rfl, rfl⟩ rfl
  have hreset := tracked_resetTask hcli t a
  rcases createTask_cases hr with ⟨-, rfl⟩ | ⟨-, s₂, hadd, rfl⟩
  · exact hreset.of_links ⟨rfl, rfl, rfl⟩ rfl
  · have hprep : ((s.cli.resetTask t a).prepareContext t a).Tracked (fun x => x = t ∨ created x)
        (Function.update fresh t true) :=
      hreset.of_links ⟨prepareContext_next _ t a, rfl, rfl⟩ (prepareContext_savedSreg _ t a)
    have h₂ := tracked_addTask hprep (Or.inl rfl) hadd
    by_cases hcur : s₂.cTask = none
    · simp only [if_pos hcur]
      exact ⟨h₂.head, h₂.head, h₂.next, h₂.sreg⟩
    · simp only [if_neg hcur]
      exact h₂.of_links ⟨rfl, rfl, rfl⟩ rfl

theorem placeArgs_savedSreg (s : Sched τ) (t : τ) (entry : Word) (args : List Arg) :
    (s.placeArgs t entry args).savedSreg = s.savedSreg :=
  placeArgs_keeps (f := savedSreg) (fun s _ hg => modify_savedSreg s t _ (hg _)) (fun _ _ => rfl)
    s entry args

theorem tracked_createTaskArgs (h : s.Tracked created fresh) {a : CreateArgs} {args : List Arg}
    {r : Bool × Sched τ} (hr : s.createTaskArgs fuel t a args = .ok r) :
    r.2.Tracked (fun x => x = t ∨ created x) (Function.update fresh t true) := by
  have hcli : s.cli.Tracked created fresh := h.of_links ⟨rfl, rfl, rfl⟩ rfl
  rcases createTaskArgs_cases hr with ⟨s₁, hs₁, rfl⟩ | ⟨s₁, hs₁, rfl⟩
  · exact (tracked_createTask hcli hs₁).of_links ⟨rfl, rfl, rfl⟩ rfl
  · have hlinks := placeArgs_links s₁ t a.entry args
    exact (tracked_createTask hcli hs₁).of_links ⟨hlinks.next, hlinks.head, hlinks.cTask⟩
      (placeArgs_savedSreg s₁ t a.entry args)

theorem setTaskState_savedSreg (s : Sched τ) (t : τ) (state : TaskState) :
    (s.setTaskState (some t) state).savedSreg = s.savedSreg :=
  modify_savedSreg s t (fun d => { d with state := state }) rfl

theorem tracked_setTaskState (h : s.Tracked created fresh) (t : τ) (state : TaskState) :
    (s.setTaskState (some t) state).Tracked created fresh :=
  h.of_links ⟨setTaskState_next s _ _, setTaskState_readyListHead s _ _, setTaskState_cTask s _ _⟩
    (setTaskState_savedSreg s t state)

theorem tracked_removeFromReadyList (h : s.Tracked created fresh) {r : Bool × Sched τ}
    (hr : s.removeTaskFromReadyList fuel (some t) = .ok r) : r.2.Tracked created fresh := by
  unfold removeTaskFromReadyList at hr
  by_cases hhead : some t = s.getHeadTask
  · simp only [if_pos hhead] at hr
    rw [← Except.ok.inj hr]
    exact ⟨fun u hu => h.next t u (h.head t hhead.symm) hu, h.cur, h.next, h.sreg⟩
  · simp only [if_neg hhead] at hr
    split at hr
    · exact absurd hr (by simp)
    · exact absurd hr (by simp)
    · rename_i p hfind
      obtain ⟨hp, hlink⟩ := findPrecedingTask_tracked h hfind rfl
      rw [← Except.ok.inj hr]
      refine ⟨h.head, h.cur, fun x u hx hu => ?_, fun x hx => ?_⟩
      · rw [setNext_next, setNext_next] at hu
        by_cases hxt : x = t
        · rw [hxt, Function.update_self] at hu
          exact absurd hu (by simp)
        rw [Function.update_of_ne hxt] at hu
        by_cases hxp : x = p
        · rw [hxp, Function.update_self] at hu
          exact h.next t u (h.next p t hp hlink) hu
        · rw [Function.update_of_ne hxp] at hu
          exact h.next x u hx hu
      · rw [setNext_savedSreg, setNext_savedSreg]
        exact h.sreg x hx

theorem tracked_removeTask (h : s.Tracked created fresh) {r : Bool × Sched τ}
    (hr : s.removeTask fuel (some t) = .ok r) : r.2.Tracked created fresh := by
  unfold removeTask at hr
  split at hr
  · exact absurd hr (by simp)
  · rename_i s₁ hs₁
    rw [← Except.ok.inj hr]
    exact tracked_removeFromReadyList h hs₁
  · rename_i s₁ hs₁
    rw [← Except.ok.inj hr]
    exact tracked_setTaskState (tracked_removeFromReadyList h hs₁) t .undefined

omit [DecidableEq τ] in
theorem charge_cpuState (d : TaskData τ) (time : BitVec 32) :
    (charge d time).cpuState = d.cpuState := by
  cases d with
  | mk n name state stack cpu total overflows start slice =>
      show (charge ⟨n, name, state, stack, cpu, total, overflows, start, slice⟩ time).cpuState = cpu
      rfl

theorem calculateTaskExecutionTime_savedSreg (s : Sched τ) (task : Option τ) (us : BitVec 32) :
    (s.calculateTaskExecutionTime task us).savedSreg = s.savedSreg := by
  unfold calculateTaskExecutionTime
  cases task with
  | none => rfl
  | some t =>
      refine modify_savedSreg s t (fun d => charge d (execTime d.execStartTimeUs us)) ?_
      exact congrArg CpuRegisters.sreg (charge_cpuState _ _)

theorem stampStart_savedSreg (s : Sched τ) (us : BitVec 32) :
    (s.stampStart us).savedSreg = s.savedSreg := by
  unfold stampStart
  cases s.cTask with
  | none => rfl
  | some t => exact modify_savedSreg s t (fun d => { d with execStartTimeUs := us }) rfl

omit [DecidableEq τ] in
theorem scheduleRoundRobin_savedSreg (s : Sched τ) :
    s.scheduleRoundRobin.savedSreg = s.savedSreg := by
  unfold scheduleRoundRobin
  cases s.getNextTask s.cTask <;> rfl

/-- **A switch** clears the flag in the context it saves and leaves the others alone. -/
theorem contextSwitch_savedSreg (s : Sched τ) (cpu : CpuRegisters)
    (usOut usIn : BitVec 32) (t : τ) :
    iFlag ((s.contextSwitch cpu usOut usIn).savedSreg t) =
      if s.cTask = some t then false else iFlag (s.savedSreg t) := by
  unfold contextSwitch
  rw [stampStart_savedSreg, scheduleRoundRobin_savedSreg, calculateTaskExecutionTime_savedSreg]
  unfold saveCtx
  cases hcur : s.cTask with
  | none => simp
  | some u =>
      have hsave := modify_savedSreg_update s u
        (fun d => { d with cpuState := { cpu with sreg := clearI cpu.sreg } }) (clearI cpu.sreg) rfl
      simp only
      rw [hsave]
      by_cases htu : t = u
      · subst htu
        rw [Function.update_self, if_pos rfl, iFlag_clearI]
      · rw [Function.update_of_ne htu, if_neg fun hc => htu (Option.some.inj hc).symm]

theorem tracked_contextSwitch (h : s.Tracked created fresh) (cpu : CpuRegisters)
    (usOut usIn : BitVec 32) :
    (s.contextSwitch cpu usOut usIn).Tracked created
      (fun t => if s.cTask = some t then false else fresh t) := by
  obtain ⟨hnext, hhead, hcur⟩ := contextSwitch_links s cpu usOut usIn
  refine ⟨fun t ht => h.head t (hhead ▸ ht), fun t ht => ?_, fun t u ht hu => ?_, fun t ht => ?_⟩
  · rw [hcur] at ht
    cases hc : s.cTask with
    | none =>
        rw [hc] at ht
        have hhd : s.getHeadTask = some t := by simpa [getNextTask] using ht
        exact h.head t hhd
    | some c =>
        rw [hc] at ht
        cases hn : s.next c with
        | none =>
            rw [show s.getNextTask (some c) = none from hn] at ht
            have hhd : s.getHeadTask = some t := by simpa using ht
            exact h.head t hhd
        | some u =>
            rw [show s.getNextTask (some c) = some u from hn] at ht
            rw [← Option.some.inj ht]
            exact h.next c u (h.cur c hc) hn
  · rw [hnext] at hu
    exact h.next t u ht hu
  · rw [contextSwitch_savedSreg, h.sreg t ht]

/-- **One step** keeps track of which tasks are fresh. -/
theorem tracked_step {op : Op τ} (h : s.Tracked created fresh) (hs' : s.step fuel op = .ok s') :
    ∃ created', s'.Tracked created' (op.fresh s.cTask fresh) := by
  cases op with
  | createTask t a =>
      cases hr : s.createTask fuel t a with
      | error e => simp [step, hr, Except.map] at hs'
      | ok r =>
          have hs : r.2 = s' := by simpa [step, hr, Except.map] using hs'
          exact ⟨_, hs ▸ tracked_createTask h hr⟩
  | createTaskArgs t a args =>
      cases hr : s.createTaskArgs fuel t a args with
      | error e => simp [step, hr, Except.map] at hs'
      | ok r =>
          have hs : r.2 = s' := by simpa [step, hr, Except.map] using hs'
          exact ⟨_, hs ▸ tracked_createTaskArgs h hr⟩
  | removeTask t =>
      cases hr : s.removeTask fuel (some t) with
      | error e => simp [step, hr, Except.map] at hs'
      | ok r =>
          have hs : r.2 = s' := by simpa [step, hr, Except.map] using hs'
          exact ⟨_, hs ▸ tracked_removeTask h hr⟩
  | startScheduler =>
      rw [← (Except.ok.inj hs' : s = s')]
      exact ⟨_, h⟩
  | contextSwitch cpu usOut usIn =>
      rw [← (Except.ok.inj hs' : s.contextSwitch cpu usOut usIn = s')]
      exact ⟨_, tracked_contextSwitch h cpu usOut usIn⟩

/-- Every switch of the run dispatches its task undisturbed. -/
def SwitchesIntact (fuel : Nat) (s : Sched τ) : List (Op τ) → Prop
  | [] => True
  | op :: ops =>
      ∀ s', s.step fuel op = .ok s' →
        (op.IsSwitch → s'.RestoreIntact) ∧ SwitchesIntact fuel s' ops

/-- Every switch of the run dispatches a task that has been switched out since
`create_task` was last called on it. -/
def SwitchesResume (fuel : Nat) (s : Sched τ) (fresh : τ → Bool) : List (Op τ) → Prop
  | [] => True
  | op :: ops =>
      ∀ s', s.step fuel op = .ok s' →
        (op.IsSwitch → ∀ t, s'.cTask = some t → op.fresh s.cTask fresh t = false) ∧
          SwitchesResume fuel s' (op.fresh s.cTask fresh) ops

theorem switchesIntact_iff_resume (ops : List (Op τ)) :
    ∀ {s : Sched τ} {created : τ → Prop} {fresh : τ → Bool}, s.Tracked created fresh →
      (SwitchesIntact fuel s ops ↔ SwitchesResume fuel s fresh ops) := by
  induction ops with
  | nil => intro s created fresh _; exact Iff.rfl
  | cons op rest ih =>
      intro s created fresh h
      refine forall_congr' fun s' => forall_congr' fun hs' => ?_
      obtain ⟨created', h'⟩ := tracked_step h hs'
      refine and_congr (forall_congr' fun _ => ?_) (ih h')
      rw [restoreIntact_iff]
      refine forall_congr' fun t => forall_congr' fun ht => ?_
      rw [show iFlag (s'.tasks t).cpuState.sreg = _ from h'.sreg t (h'.cur t ht)]

/--
**When a dispatch cannot be interrupted halfway.**  In every run from the empty
scheduler, whatever calls it makes, the switches are all undisturbed exactly when
each of them dispatches a task that has been switched out since it was created.
-/
theorem switchesIntact_iff (tasks : τ → TaskData τ) (mem : Word → Byte) (sreg : Byte)
    (fuel : Nat) (ops : List (Op τ)) :
    SwitchesIntact fuel (empty tasks mem sreg) ops ↔
      SwitchesResume fuel (empty tasks mem sreg) (fun _ => true) ops :=
  switchesIntact_iff_resume ops (tracked_empty tasks mem sreg)

/-- Two tasks are created, the first runs, and the timer switches to the second. -/
def firstSwitchRun : List (Op (Fin 2)) :=
  [.createTask 0 ⟨0x200, 64, [0x61], 1, 1, 0x100⟩, .createTask 1 ⟨0x240, 64, [0x62], 1, 1, 0x120⟩,
    .startScheduler, .contextSwitch ⟨fun _ => 0, 0x23D, 0x80⟩ 1000 1004]

/-- The dispatch of the second task can be interrupted. -/
theorem fresh_dispatch_interrupted :
    ¬ SwitchesIntact 2 (empty (fun _ => TaskData.zero) (fun _ => 0) 0x80) firstSwitchRun := by
  rw [switchesIntact_iff_resume _ (tracked_empty _ _ _)]
  intro h
  have hlast := ((((h _ rfl).2 _ rfl).2 _ rfl).2 _ rfl).1 trivial 1 rfl
  exact absurd hlast (by decide)

end Tracked

end Sched

end AtmegaScheduler
