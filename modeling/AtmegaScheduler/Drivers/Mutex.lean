/-
The mutex, as `mutex.cpp` has it.

A task is at a statement of one of the three functions or in code of its own.  Only
one task runs at a time; another may be switched to whenever interrupts are enabled
and at the `yield` of the wait loop, and whoever is switched to finds them enabled.
Of the status register only the interrupt flag matters here.

The functions read and write `owner` with interrupts disabled.  So a task that is not
running is never between a test of `owner` and what it does about it, and all that
mutual exclusion needs is an invariant with one clause for each statement.
-/
import AtmegaScheduler.Lib.Numerals
import Mathlib.Logic.Function.Basic

namespace AtmegaScheduler

/-- `mutex_errno_t` -/
inductive MutexErrno
  | ok
  | free
  | locked
  | errAlreadyLocked
  | errNotOwner
  deriving DecidableEq, Repr

/-- `mutex_t` -/
@[ext]
structure Mutex (τ : Type) where
  owner : Option τ
  blockedHead : Option τ

/-- `mtx_init` -/
def mtxInit {τ : Type} : Mutex τ := ⟨none, none⟩

/-- The statement of `mtx_lock` a task is at. -/
inductive LockPc
  /-- `uint8_t sreg = SREG` -/
  | save
  | cli
  /-- `if (mtx->owner == c_task)` -/
  | testOwn
  /-- `SREG = sreg`, locked already by our task -/
  | restoreOwn
  /-- `while (mtx->owner != nullptr)` -/
  | testFree
  /-- `yield()` -/
  | yield
  /-- `cli()` in the loop -/
  | recli
  /-- `mtx->owner = c_task` -/
  | take
  /-- `SREG = sreg` -/
  | restore
  | ret
  deriving DecidableEq, Repr

/-- The statement of `mtx_try_lock` a task is at. -/
inductive TryLockPc
  /-- `uint8_t sreg = SREG` -/
  | save
  | cli
  /-- `if (mtx->owner != nullptr)` -/
  | test
  /-- `SREG = sreg`, locked already -/
  | restoreLocked
  /-- `mtx->owner = c_task` -/
  | take
  /-- `SREG = sreg` -/
  | restore
  | ret (r : MutexErrno)
  deriving DecidableEq, Repr

/-- The statement of `mtx_release` a task is at. -/
inductive ReleasePc
  /-- `uint8_t sreg = SREG` -/
  | save
  | cli
  /-- `if (c_task != mtx->owner)` -/
  | test
  /-- `SREG = sreg`, not the owner -/
  | restoreNotOwner
  /-- `mtx->owner = nullptr` -/
  | clear
  /-- `SREG = sreg` -/
  | restore
  | ret (r : MutexErrno)
  deriving DecidableEq, Repr

/-- The statement of a function a task is at. -/
inductive MtxPc
  | lock (pc : LockPc)
  | tryLock (pc : TryLockPc)
  | release (pc : ReleasePc)
  deriving DecidableEq, Repr

/-- A function in progress: what its statements read and write. -/
structure MtxCall (τ : Type) where
  mutex : Mutex τ
  iflag : Bool
  /-- The local variable `sreg`. -/
  sreg : Bool
  pc : MtxPc

section Statements

variable {τ : Type} [DecidableEq τ] (self : τ) (c : MtxCall τ)

/-- `mtx_lock`, statement by statement.  The switch of `yield` and the return are steps
of the system below. -/
def lockStmt : LockPc → MtxCall τ
  | .save => { c with sreg := c.iflag, pc := .lock .cli }
  | .cli => { c with iflag := false, pc := .lock .testOwn }
  | .testOwn =>
      if c.mutex.owner = some self then { c with pc := .lock .restoreOwn }
      else { c with pc := .lock .testFree }
  | .restoreOwn => { c with iflag := c.sreg, pc := .lock .ret }
  | .testFree =>
      if c.mutex.owner ≠ none then { c with pc := .lock .yield }
      else { c with pc := .lock .take }
  | .yield => c
  | .recli => { c with iflag := false, pc := .lock .testFree }
  | .take => { c with mutex := { c.mutex with owner := some self }, pc := .lock .restore }
  | .restore => { c with iflag := c.sreg, pc := .lock .ret }
  | .ret => c

/-- `mtx_try_lock`, statement by statement. -/
def tryLockStmt : TryLockPc → MtxCall τ
  | .save => { c with sreg := c.iflag, pc := .tryLock .cli }
  | .cli => { c with iflag := false, pc := .tryLock .test }
  | .test =>
      if c.mutex.owner ≠ none then { c with pc := .tryLock .restoreLocked }
      else { c with pc := .tryLock .take }
  | .restoreLocked => { c with iflag := c.sreg, pc := .tryLock (.ret .errAlreadyLocked) }
  | .take => { c with mutex := { c.mutex with owner := some self }, pc := .tryLock .restore }
  | .restore => { c with iflag := c.sreg, pc := .tryLock (.ret .ok) }
  | .ret _ => c

/-- `mtx_release`, statement by statement. -/
def releaseStmt : ReleasePc → MtxCall τ
  | .save => { c with sreg := c.iflag, pc := .release .cli }
  | .cli => { c with iflag := false, pc := .release .test }
  | .test =>
      if some self ≠ c.mutex.owner then { c with pc := .release .restoreNotOwner }
      else { c with pc := .release .clear }
  | .restoreNotOwner => { c with iflag := c.sreg, pc := .release (.ret .errNotOwner) }
  | .clear => { c with mutex := { c.mutex with owner := none }, pc := .release .restore }
  | .restore => { c with iflag := c.sreg, pc := .release (.ret .ok) }
  | .ret _ => c

/-- The statement the task `self` is at. -/
def mtxStmt : MtxCall τ :=
  match c.pc with
  | .lock pc => lockStmt self c pc
  | .tryLock pc => tryLockStmt self c pc
  | .release pc => releaseStmt self c pc

end Statements

/-! ### The system -/

/-- The functions a task can call. -/
inductive MtxOp
  | lock
  | tryLock
  | release
  deriving DecidableEq, Repr

/-- What a call returns; `mtx_lock` returns nothing. -/
abbrev MtxResult := Option MutexErrno

/-- The first statement of a function. -/
def MtxOp.entry : MtxOp → MtxPc
  | .lock => .lock .save
  | .tryLock => .tryLock .save
  | .release => .release .save

namespace MtxPc

/-- The function a statement is in. -/
def op : MtxPc → MtxOp
  | .lock _ => .lock
  | .tryLock _ => .tryLock
  | .release _ => .release

/-- What the function returns, at a return. -/
def result : MtxPc → Option MtxResult
  | .lock .ret => some none
  | .tryLock (.ret r) => some (some r)
  | .release (.ret r) => some (some r)
  | _ => none

end MtxPc

/-- Does a return leave the task in possession of the mutex? -/
def MtxOp.acquires : MtxOp → MtxResult → Bool
  | .lock, _ => true
  | .tryLock, r => decide (r = some .ok)
  | .release, _ => false

/--
What the tasks do outside the three functions: `step` is a step of a task at a place of
its own, with what it does to the memory and the interrupt flag and an event it shows;
`call` is a call of a function, with where it returns to.
-/
structure Client (τ σ π ε : Type) where
  step : τ → π → σ → Bool → ε → π → σ → Bool → Prop
  call : τ → π → MtxOp → (MtxResult → π) → Prop

/-- Where a task is. -/
inductive Place (π : Type)
  | own (p : π)
  | inside (pc : MtxPc) (sreg : Bool) (k : MtxResult → π)

/-- The mutex, the interrupt flag, the running task, the memory the tasks share, and
where every task is. -/
structure Sys (τ σ π : Type) where
  mutex : Mutex τ
  iflag : Bool
  cTask : τ
  mem : σ
  place : τ → Place π

/-- What a step shows. -/
inductive Label (τ ε : Type)
  | own (t : τ) (e : ε)
  | call (t : τ) (op : MtxOp)
  | stmt (t : τ)
  | ret (t : τ) (op : MtxOp) (r : MtxResult)
  | switch (u : τ)
  deriving DecidableEq, Repr

namespace Sys

variable {τ σ π ε : Type} [DecidableEq τ]

/-- The running task moves. -/
def goto (s : Sys τ σ π) (p : Place π) : Sys τ σ π :=
  { s with place := Function.update s.place s.cTask p }

/-- The switch to `u`, which finds interrupts enabled. -/
def switchTo (s : Sys τ σ π) (u : τ) : Sys τ σ π := { s with cTask := u, iflag := true }

/-- The statement the running task executes. -/
def after (s : Sys τ σ π) (pc : MtxPc) (sreg : Bool) : MtxCall τ :=
  mtxStmt s.cTask ⟨s.mutex, s.iflag, sreg, pc⟩

/-- One statement of a function. -/
def stmt (s : Sys τ σ π) (pc : MtxPc) (sreg : Bool) (k : MtxResult → π) : Sys τ σ π :=
  { s.goto (.inside (s.after pc sreg).pc (s.after pc sreg).sreg k) with
    mutex := (s.after pc sreg).mutex
    iflag := (s.after pc sreg).iflag }

/-- One step of the system. -/
inductive Step (C : Client τ σ π ε) : Sys τ σ π → Label τ ε → Sys τ σ π → Prop
  | own {s : Sys τ σ π} {p p' : π} {e : ε} {mem' : σ} {i' : Bool}
      (hat : s.place s.cTask = .own p) (h : C.step s.cTask p s.mem s.iflag e p' mem' i') :
      Step C s (.own s.cTask e) { s.goto (.own p') with mem := mem', iflag := i' }
  | call {s : Sys τ σ π} {p : π} {op : MtxOp} {k : MtxResult → π}
      (hat : s.place s.cTask = .own p) (h : C.call s.cTask p op k) :
      Step C s (.call s.cTask op) (s.goto (.inside op.entry false k))
  | stmt {s : Sys τ σ π} {pc : MtxPc} {sreg : Bool} {k : MtxResult → π}
      (hat : s.place s.cTask = .inside pc sreg k) (hyield : pc ≠ .lock .yield)
      (hret : pc.result = none) : Step C s (.stmt s.cTask) (s.stmt pc sreg k)
  | ret {s : Sys τ σ π} {pc : MtxPc} {r : MtxResult} {sreg : Bool} {k : MtxResult → π}
      (hat : s.place s.cTask = .inside pc sreg k) (hret : pc.result = some r) :
      Step C s (.ret s.cTask pc.op r) (s.goto (.own (k r)))
  /-- The `yield` of the wait loop. -/
  | yield {s : Sys τ σ π} {sreg : Bool} {k : MtxResult → π} (u : τ)
      (hat : s.place s.cTask = .inside (.lock .yield) sreg k) :
      Step C s (.switch u) ((s.goto (.inside (.lock .recli) sreg k)).switchTo u)
  /-- The timer interrupt, or a `yield` in the task's own code. -/
  | switch {s : Sys τ σ π} (u : τ)
      (h : s.iflag = true ∨ ∃ p, s.place s.cTask = .own p) : Step C s (.switch u) (s.switchTo u)

/-- A run, with what its steps show. -/
inductive Run (C : Client τ σ π ε) : Sys τ σ π → List (Label τ ε) → Sys τ σ π → Prop
  | nil (s : Sys τ σ π) : Run C s [] s
  | snoc {s s' s'' : Sys τ σ π} {h : List (Label τ ε)} {l : Label τ ε} (hrun : Run C s h s')
      (hstep : Step C s' l s'') : Run C s (h ++ [l]) s''

/-- The mutex is initialised and every task is in code of its own. -/
structure Initial (s : Sys τ σ π) : Prop where
  mutex : s.mutex = mtxInit
  place : ∀ t, ∃ p, s.place t = .own p

end Sys

section Section

variable {τ ε : Type} [DecidableEq τ]

/-- Does one more label leave `t` between an acquisition and its next `mtx_release`? -/
def sectionStep (t : τ) (inside : Bool) : Label τ ε → Bool
  | .ret u op r => if u = t ∧ op.acquires r = true then true else inside
  | .call u op => if u = t ∧ op = .release then false else inside
  | _ => inside

/-- After what the labels show, `t` has acquired the mutex, by `mtx_lock` returning or
`mtx_try_lock` returning `MUTEX_OK`, and has not called `mtx_release` since. -/
def InSection (t : τ) (h : List (Label τ ε)) : Prop := h.foldl (sectionStep t) false = true

instance (t : τ) (h : List (Label τ ε)) : Decidable (InSection t h) :=
  inferInstanceAs (Decidable (_ = _))

theorem inSection_ret {t u : τ} {h : List (Label τ ε)} {op : MtxOp} {r : MtxResult} :
    InSection t (h ++ [.ret u op r]) ↔ (u = t ∧ op.acquires r = true) ∨ InSection t h := by
  unfold InSection
  rw [List.foldl_append, List.foldl_cons, List.foldl_nil, sectionStep]
  by_cases hret : u = t ∧ op.acquires r = true
  · rw [if_pos hret]
    exact ⟨fun _ => Or.inl hret, fun _ => rfl⟩
  · rw [if_neg hret]
    exact ⟨Or.inr, fun h => h.resolve_left hret⟩

theorem inSection_call {t u : τ} {h : List (Label τ ε)} {op : MtxOp} :
    InSection t (h ++ [.call u op]) ↔ InSection t h ∧ ¬ (u = t ∧ op = .release) := by
  unfold InSection
  rw [List.foldl_append, List.foldl_cons, List.foldl_nil, sectionStep]
  by_cases hrel : u = t ∧ op = .release
  · rw [if_pos hrel]
    exact ⟨fun h => absurd h (by decide), fun h => absurd hrel h.2⟩
  · rw [if_neg hrel]
    exact ⟨fun h => ⟨h, hrel⟩, fun h => h.1⟩

@[simp] theorem inSection_own {t u : τ} {h : List (Label τ ε)} {e : ε} :
    InSection t (h ++ [.own u e]) ↔ InSection t h := by
  unfold InSection
  rw [List.foldl_append]
  rfl

@[simp] theorem inSection_stmt {t u : τ} {h : List (Label τ ε)} :
    InSection t (h ++ [.stmt u]) ↔ InSection t h := by
  unfold InSection
  rw [List.foldl_append]
  rfl

@[simp] theorem inSection_switch {t u : τ} {h : List (Label τ ε)} :
    InSection t (h ++ [.switch u]) ↔ InSection t h := by
  unfold InSection
  rw [List.foldl_append]
  rfl

end Section

/-! ### What every statement can rely on -/

namespace MtxPc

/-- Statements that are executed with interrupts disabled. -/
def masked : MtxPc → Bool
  | .lock .save | .lock .cli | .lock .recli | .lock .ret => false
  | .tryLock .save | .tryLock .cli | .tryLock (.ret _) => false
  | .release .save | .release .cli | .release (.ret _) => false
  | _ => true

/-- Has the call taken the mutex, or has it yet to give it back? -/
def pending : MtxPc → Bool
  | .lock .restore | .lock .ret | .tryLock .restore | .tryLock (.ret .ok) => true
  | .release _ => true
  | _ => false

/-- What the task `t` at a statement knows about the owner. -/
def Knows {τ : Type} (t : τ) (owner : Option τ) : MtxPc → Prop
  | .lock .restoreOwn | .lock .restore | .lock .ret | .tryLock .restore | .release .clear =>
      owner = some t
  | .lock .take | .tryLock .take => owner = none
  | .lock .testFree | .lock .yield | .lock .recli => owner ≠ some t
  | .release .restoreNotOwner | .release .restore | .release (.ret _) => owner ≠ some t
  | .tryLock (.ret r) => r = .ok → owner = some t
  | _ => True

end MtxPc

/-- What one statement of a function does to the owner: nothing, or it takes a free
mutex, or `mtx_release` gives back the task's own. -/
inductive OwnerStep {τ : Type} (self : τ) (op : MtxOp) : Option τ → Option τ → Prop
  | keep (o : Option τ) : OwnerStep self op o o
  | take : OwnerStep self op none (some self)
  | clear (hop : op = .release) : OwnerStep self op (some self) none

/-- A call in progress: interrupts are disabled where they have to be, and the owner is
who the task takes it to be. -/
structure MtxCall.Fits {τ : Type} (t : τ) (c : MtxCall τ) : Prop where
  masked : c.pc.masked = true → c.iflag = false
  knows : c.pc.Knows t c.mutex.owner

section Statements

variable {τ : Type} [DecidableEq τ] {self t : τ} {c : MtxCall τ} {op : MtxOp}

theorem lockStmt_fits {pc : LockPc} (hpc : c.pc = .lock pc) (h : c.Fits self) :
    (lockStmt self c pc).Fits self ∧ 
      OwnerStep self .lock c.mutex.owner (lockStmt self c pc).mutex.owner := by
  have hmask := h.masked
  have hknows := h.knows
  rw [hpc] at hmask hknows
  cases pc with
  | save => exact ⟨⟨fun hm => absurd hm Bool.false_ne_true, trivial⟩, .keep _⟩
  | cli => exact ⟨⟨fun _ => rfl, trivial⟩, .keep _⟩
  | testOwn =>
      unfold lockStmt
      by_cases hown : c.mutex.owner = some self
      · rw [if_pos hown]
        exact ⟨⟨fun _ => hmask rfl, hown⟩, .keep _⟩
      · rw [if_neg hown]
        exact ⟨⟨fun _ => hmask rfl, hown⟩, .keep _⟩
  | restoreOwn => exact ⟨⟨fun hm => absurd hm Bool.false_ne_true, hknows⟩, .keep _⟩
  | testFree =>
      unfold lockStmt
      by_cases hfree : c.mutex.owner ≠ none
      · rw [if_pos hfree]
        exact ⟨⟨fun _ => hmask rfl, hknows⟩, .keep _⟩
      · rw [if_neg hfree]
        exact ⟨⟨fun _ => hmask rfl, not_ne_iff.mp hfree⟩, .keep _⟩
  | yield => exact ⟨h, .keep _⟩
  | recli => exact ⟨⟨fun _ => rfl, hknows⟩, .keep _⟩
  | take =>
      have hfree : c.mutex.owner = none := hknows
      rw [hfree]
      exact ⟨⟨fun _ => hmask rfl, rfl⟩, .take⟩
  | restore => exact ⟨⟨fun hm => absurd hm Bool.false_ne_true, hknows⟩, .keep _⟩
  | ret => exact ⟨h, .keep _⟩

omit [DecidableEq τ] in
theorem tryLockStmt_fits {pc : TryLockPc} (hpc : c.pc = .tryLock pc) (h : c.Fits self) :
    (tryLockStmt self c pc).Fits self ∧
      OwnerStep self .tryLock c.mutex.owner (tryLockStmt self c pc).mutex.owner := by
  have hmask := h.masked
  have hknows := h.knows
  rw [hpc] at hmask hknows
  cases pc with
  | save => exact ⟨⟨fun hm => absurd hm Bool.false_ne_true, trivial⟩, .keep _⟩
  | cli => exact ⟨⟨fun _ => rfl, trivial⟩, .keep _⟩
  | test =>
      unfold tryLockStmt
      by_cases hfree : c.mutex.owner ≠ none
      · rw [if_pos hfree]
        exact ⟨⟨fun _ => hmask rfl, trivial⟩, .keep _⟩
      · rw [if_neg hfree]
        exact ⟨⟨fun _ => hmask rfl, not_ne_iff.mp hfree⟩, .keep _⟩
  | restoreLocked =>
      exact ⟨⟨fun hm => absurd hm Bool.false_ne_true, fun hr => absurd hr (by decide)⟩, .keep _⟩
  | take =>
      have hfree : c.mutex.owner = none := hknows
      rw [hfree]
      exact ⟨⟨fun _ => hmask rfl, rfl⟩, .take⟩
  | restore => exact ⟨⟨fun hm => absurd hm Bool.false_ne_true, fun _ => hknows⟩, .keep _⟩
  | ret r => exact ⟨h, .keep _⟩

theorem releaseStmt_fits {pc : ReleasePc} (hpc : c.pc = .release pc) (h : c.Fits self) :
    (releaseStmt self c pc).Fits self ∧
      OwnerStep self .release c.mutex.owner (releaseStmt self c pc).mutex.owner := by
  have hmask := h.masked
  have hknows := h.knows
  rw [hpc] at hmask hknows
  cases pc with
  | save => exact ⟨⟨fun hm => absurd hm Bool.false_ne_true, trivial⟩, .keep _⟩
  | cli => exact ⟨⟨fun _ => rfl, trivial⟩, .keep _⟩
  | test =>
      unfold releaseStmt
      by_cases hown : some self ≠ c.mutex.owner
      · rw [if_pos hown]
        exact ⟨⟨fun _ => hmask rfl, hown.symm⟩, .keep _⟩
      · rw [if_neg hown]
        exact ⟨⟨fun _ => hmask rfl, (not_ne_iff.mp hown).symm⟩, .keep _⟩
  | restoreNotOwner => exact ⟨⟨fun hm => absurd hm Bool.false_ne_true, hknows⟩, .keep _⟩
  | clear =>
      have hown : c.mutex.owner = some self := hknows
      rw [hown]
      exact ⟨⟨fun _ => hmask rfl, Option.some_ne_none self ∘ Eq.symm⟩, .clear rfl⟩
  | restore => exact ⟨⟨fun hm => absurd hm Bool.false_ne_true, hknows⟩, .keep _⟩
  | ret r => exact ⟨h, .keep _⟩

/-- **One statement** keeps what its function can rely on. -/
theorem mtxStmt_fits (h : c.Fits self) :
    (mtxStmt self c).Fits self ∧
      OwnerStep self c.pc.op c.mutex.owner (mtxStmt self c).mutex.owner := by
  unfold mtxStmt
  cases hpc : c.pc with
  | lock pc => exact lockStmt_fits hpc h
  | tryLock pc => exact tryLockStmt_fits hpc h
  | release pc => exact releaseStmt_fits hpc h

/-- No function touches `blocked_head`. -/
theorem mtxStmt_blockedHead (self : τ) (c : MtxCall τ) :
    (mtxStmt self c).mutex.blockedHead = c.mutex.blockedHead := by
  obtain ⟨m, i, sreg, pc⟩ := c
  cases pc with
  | lock pc =>
      cases pc with
      | testOwn => show (if _ then _ else _ : MtxCall τ).mutex.blockedHead = _; split <;> rfl
      | testFree => show (if _ then _ else _ : MtxCall τ).mutex.blockedHead = _; split <;> rfl
      | _ => rfl
  | tryLock pc =>
      cases pc with
      | test => show (if _ then _ else _ : MtxCall τ).mutex.blockedHead = _; split <;> rfl
      | _ => rfl
  | release pc =>
      cases pc with
      | test => show (if _ then _ else _ : MtxCall τ).mutex.blockedHead = _; split <;> rfl
      | _ => rfl

theorem mtxStmt_op (self : τ) (c : MtxCall τ) : (mtxStmt self c).pc.op = c.pc.op := by
  obtain ⟨m, i, sreg, pc⟩ := c
  cases pc with
  | lock pc =>
      cases pc with
      | testOwn => show (if _ then _ else _ : MtxCall τ).pc.op = _; split <;> rfl
      | testFree => show (if _ then _ else _ : MtxCall τ).pc.op = _; split <;> rfl
      | _ => rfl
  | tryLock pc =>
      cases pc with
      | test => show (if _ then _ else _ : MtxCall τ).pc.op = _; split <;> rfl
      | _ => rfl
  | release pc =>
      cases pc with
      | test => show (if _ then _ else _ : MtxCall τ).pc.op = _; split <;> rfl
      | _ => rfl

/-- A call that has the mutex in its hands after a statement, and did not have it from
before the call, is pending. -/
theorem mtxStmt_pending {m : Mutex τ} {i sreg : Bool} {pc : MtxPc} (hret : pc.result = none)
    (hown : (mtxStmt self ⟨m, i, sreg, pc⟩).mutex.owner = some self)
    (h : m.owner = some self → pc.pending = true) :
    (mtxStmt self ⟨m, i, sreg, pc⟩).pc.pending = true := by
  cases pc with
  | lock pc =>
      cases pc with
      | testOwn =>
          have hm : m.owner ≠ some self := fun hc => absurd (h hc) (by decide)
          have hkeep : (if m.owner = some self then _ else _ : MtxCall τ).mutex.owner = _ := hown
          rw [if_neg hm] at hkeep
          exact absurd hkeep hm
      | testFree =>
          have hm : m.owner ≠ some self := fun hc => absurd (h hc) (by decide)
          have hkeep : (if m.owner ≠ none then _ else _ : MtxCall τ).mutex.owner = _ := hown
          split at hkeep <;> exact absurd hkeep hm
      | take => rfl
      | restore => rfl
      | ret => exact absurd hret (by decide)
      | _ => exact absurd (h hown) (by decide)
  | tryLock pc =>
      cases pc with
      | test =>
          have hm : m.owner ≠ some self := fun hc => absurd (h hc) (by decide)
          have hkeep : (if m.owner ≠ none then _ else _ : MtxCall τ).mutex.owner = _ := hown
          split at hkeep <;> exact absurd hkeep hm
      | take => rfl
      | restore => rfl
      | ret r => exact absurd hret (by simp [MtxPc.result])
      | _ => exact absurd (h hown) (by decide)
  | release pc =>
      cases pc with
      | test => show (if _ then _ else _ : MtxCall τ).pc.pending = _; split <;> rfl
      | _ => rfl

omit [DecidableEq τ] in
/-- The running task does not change whether another task is the owner. -/
theorem OwnerStep.other {o o' : Option τ} (h : OwnerStep self op o o') (ht : t ≠ self) :
    o' = some t ↔ o = some t := by
  have hst : ¬ some self = some t := fun hc => ht (Option.some.inj hc).symm
  cases h with
  | keep => exact Iff.rfl
  | take => exact ⟨fun hc => absurd hc hst, fun hc => absurd hc (by simp)⟩
  | clear => exact ⟨fun hc => absurd hc (by simp), fun hc => absurd hc hst⟩

omit [DecidableEq τ] in
/-- With interrupts enabled, a task knows at most whether it is the owner itself. -/
theorem knows_congr {o o' : Option τ} {pc : MtxPc} (hiff : o' = some t ↔ o = some t)
    (hmask : pc.masked = false) (h : pc.Knows t o) : pc.Knows t o' := by
  cases pc with
  | lock pc =>
      cases pc with
      | save => trivial
      | cli => trivial
      | recli => exact fun hc => h (hiff.mp hc)
      | ret => exact hiff.mpr h
      | _ => exact absurd hmask (by decide)
  | tryLock pc =>
      cases pc with
      | save => trivial
      | cli => trivial
      | ret r => exact fun hr => hiff.mpr (h hr)
      | _ => exact absurd hmask (by decide)
  | release pc =>
      cases pc with
      | save => trivial
      | cli => trivial
      | ret r => exact fun hc => h (hiff.mp hc)
      | _ => exact absurd hmask (by decide)

end Statements

/-! ### The invariant -/

namespace Sys

variable {τ σ π ε : Type} [DecidableEq τ]

/-- Interrupts are disabled where they have to be, every task inside a function knows
what its statement tells it, and the owner is the task in its section, or one whose
call has already taken the mutex or has yet to give it back. -/
structure Inv (h : List (Label τ ε)) (s : Sys τ σ π) : Prop where
  masked : ∀ t pc sreg k, s.place t = .inside pc sreg k → pc.masked = true →
    t = s.cTask ∧ s.iflag = false
  knows : ∀ t pc sreg k, s.place t = .inside pc sreg k → pc.Knows t s.mutex.owner
  section_owner : ∀ t, InSection t h → s.mutex.owner = some t
  section_place : ∀ t, InSection t h → ∀ pc sreg k, s.place t = .inside pc sreg k →
    pc.op ≠ .release
  owner_section : ∀ t, s.mutex.owner = some t → InSection t h ∨
    ∃ pc sreg k, s.place t = .inside pc sreg k ∧ pc.pending = true

section Goto

variable {s : Sys τ σ π} {p : Place π} {t : τ}

theorem goto_self (s : Sys τ σ π) (p : Place π) : (s.goto p).place s.cTask = p :=
  Function.update_self _ _ _

theorem goto_other (ht : t ≠ s.cTask) : (s.goto p).place t = s.place t :=
  Function.update_of_ne ht _ _

/-- A task that is inside a function: the running one, which has just gone there, or
another, which was there before. -/
theorem inside_goto {pc : MtxPc} {sreg : Bool} {k : MtxResult → π}
    (h : (s.goto p).place t = .inside pc sreg k) :
    (t = s.cTask ∧ p = .inside pc sreg k) ∨ (t ≠ s.cTask ∧ s.place t = .inside pc sreg k) := by
  by_cases hself : t = s.cTask
  · rw [hself, goto_self] at h
    exact Or.inl ⟨hself, h⟩
  · rw [goto_other hself] at h
    exact Or.inr ⟨hself, h⟩

end Goto

variable {C : Client τ σ π ε} {s s' : Sys τ σ π} {h : List (Label τ ε)} {l : Label τ ε} {t : τ}

/-- No task is in the middle of a test when the running one is in its own code, or when
interrupts are enabled. -/
theorem Inv.unmasked (hinv : Inv h s) (hopen : s.iflag = true ∨ ∃ p, s.place s.cTask = .own p)
    {pc : MtxPc} {sreg : Bool} {k : MtxResult → π} (hat : s.place t = .inside pc sreg k) :
    pc.masked = false := by
  by_contra hm
  obtain ⟨rfl, hi⟩ := hinv.masked t pc sreg k hat (by simpa using hm)
  rcases hopen with hi' | ⟨p, hp⟩
  · rw [hi'] at hi
    exact absurd hi (by decide)
  · rw [hp] at hat
    exact absurd hat (by simp)

theorem inv_own {p p' : π} {e : ε} {mem' : σ} {i' : Bool} (hinv : Inv h s)
    (hat : s.place s.cTask = .own p) :
    Inv (h ++ [.own s.cTask e]) { s.goto (.own p') with mem := mem', iflag := i' } := by
  have hplace : ∀ t pc sreg k, (s.goto (.own p')).place t = .inside pc sreg k →
      s.place t = .inside pc sreg k := by
    intro t pc sreg k ht
    rcases inside_goto ht with ⟨-, hp⟩ | ⟨-, hpl⟩
    · exact absurd hp (by simp)
    · exact hpl
  refine ⟨fun t pc sreg k ht hm => ?_, fun t pc sreg k ht => ?_, fun t ht => ?_,
    fun t ht pc sreg k hpl => ?_, fun t ht => ?_⟩
  · rw [hinv.unmasked (Or.inr ⟨p, hat⟩) (hplace t pc sreg k ht)] at hm
    exact absurd hm (by decide)
  · exact hinv.knows t pc sreg k (hplace t pc sreg k ht)
  · exact hinv.section_owner t (inSection_own.mp ht)
  · exact hinv.section_place t (inSection_own.mp ht) pc sreg k (hplace t pc sreg k hpl)
  · rcases hinv.owner_section t ht with hsec | ⟨pc, sreg, k, hpl, hpend⟩
    · exact Or.inl (inSection_own.mpr hsec)
    · refine Or.inr ⟨pc, sreg, k, ?_, hpend⟩
      have hself : t ≠ s.cTask := by
        rintro rfl
        rw [hat] at hpl
        exact absurd hpl (by simp)
      exact (goto_other hself).trans hpl

theorem inv_call {p : π} {op : MtxOp} {k : MtxResult → π} (hinv : Inv h s)
    (hat : s.place s.cTask = .own p) :
    Inv (h ++ [.call s.cTask op]) (s.goto (.inside op.entry false k)) := by
  refine ⟨fun t pc sreg k' ht hm => ?_, fun t pc sreg k' ht => ?_, fun t ht => ?_,
    fun t ht pc sreg k' hpl => ?_, fun t ht => ?_⟩
  · rcases inside_goto ht with ⟨-, hp⟩ | ⟨-, hpl⟩
    · obtain ⟨rfl, -, -⟩ := Place.inside.inj hp
      cases op <;> exact absurd hm (by decide)
    · rw [hinv.unmasked (Or.inr ⟨p, hat⟩) hpl] at hm
      exact absurd hm (by decide)
  · rcases inside_goto ht with ⟨-, hp⟩ | ⟨-, hpl⟩
    · obtain ⟨rfl, -, -⟩ := Place.inside.inj hp
      cases op <;> trivial
    · exact hinv.knows t pc sreg k' hpl
  · exact hinv.section_owner t (inSection_call.mp ht).1
  · obtain ⟨hsec, hrel⟩ := inSection_call.mp ht
    rcases inside_goto hpl with ⟨hself, hp⟩ | ⟨-, hpl'⟩
    · obtain ⟨rfl, -, -⟩ := Place.inside.inj hp
      intro hc
      refine hrel ⟨hself.symm, ?_⟩
      cases op with
      | release => rfl
      | _ => exact absurd hc (by decide)
    · exact hinv.section_place t hsec pc sreg k' hpl'
  · by_cases hrel : s.cTask = t ∧ op = .release
    · obtain ⟨rfl, rfl⟩ := hrel
      exact Or.inr ⟨_, _, _, goto_self s _, rfl⟩
    · rcases hinv.owner_section t ht with hsec | ⟨pc, sreg, k', hpl, hpend⟩
      · exact Or.inl (inSection_call.mpr ⟨hsec, hrel⟩)
      · refine Or.inr ⟨pc, sreg, k', ?_, hpend⟩
        have hself : t ≠ s.cTask := by
          rintro rfl
          rw [hat] at hpl
          exact absurd hpl (by simp)
        exact (goto_other hself).trans hpl

/-- The running task's call before and after a statement. -/
theorem Inv.fits (hinv : Inv h s) {pc : MtxPc} {sreg : Bool} {k : MtxResult → π}
    (hat : s.place s.cTask = .inside pc sreg k) :
    MtxCall.Fits s.cTask ⟨s.mutex, s.iflag, sreg, pc⟩ where
  masked := fun hm => (hinv.masked _ _ _ _ hat hm).2
  knows := hinv.knows _ _ _ _ hat

theorem Inv.after_fits (hinv : Inv h s) {pc : MtxPc} {sreg : Bool} {k : MtxResult → π}
    (hat : s.place s.cTask = .inside pc sreg k) :
    (s.after pc sreg).Fits s.cTask ∧
      OwnerStep s.cTask pc.op s.mutex.owner (s.after pc sreg).mutex.owner :=
  mtxStmt_fits (hinv.fits hat)

/-- A task other than the running one is not in the middle of a test. -/
theorem Inv.other_unmasked (hinv : Inv h s) (ht : t ≠ s.cTask) {pc : MtxPc} {sreg : Bool}
    {k : MtxResult → π} (hat : s.place t = .inside pc sreg k) : pc.masked = false := by
  by_contra hm
  exact ht (hinv.masked t pc sreg k hat (by simpa using hm)).1

theorem inv_stmt {pc : MtxPc} {sreg : Bool} {k : MtxResult → π} (hinv : Inv h s)
    (hat : s.place s.cTask = .inside pc sreg k) (hret : pc.result = none) :
    Inv (h ++ [.stmt s.cTask]) (s.stmt pc sreg k) := by
  obtain ⟨hfits, howner⟩ := hinv.after_fits hat
  refine ⟨fun t pc' sreg' k' ht hm => ?_, fun t pc' sreg' k' ht => ?_, fun t ht => ?_,
    fun t ht pc' sreg' k' hpl => ?_, fun t ht => ?_⟩
  · rcases inside_goto ht with ⟨hself, hp⟩ | ⟨hself, hpl⟩
    · obtain ⟨rfl, -, -⟩ := Place.inside.inj hp
      exact ⟨hself, hfits.masked hm⟩
    · rw [hinv.other_unmasked hself hpl] at hm
      exact absurd hm (by decide)
  · rcases inside_goto ht with ⟨hself, hp⟩ | ⟨hself, hpl⟩
    · obtain ⟨rfl, -, -⟩ := Place.inside.inj hp
      rw [hself]
      exact hfits.knows
    · exact knows_congr (howner.other hself) (hinv.other_unmasked hself hpl)
        (hinv.knows t pc' sreg' k' hpl)
  · have hsec := inSection_stmt.mp ht
    have hown := hinv.section_owner t hsec
    by_cases hself : t = s.cTask
    · subst hself
      rw [hown] at howner
      have hafter : (s.stmt pc sreg k).mutex.owner = (s.after pc sreg).mutex.owner := rfl
      rw [hafter]
      generalize (s.after pc sreg).mutex.owner = o at howner ⊢
      cases howner with
      | keep => rfl
      | clear hop => exact absurd hop (hinv.section_place _ hsec _ _ _ hat)
    · exact (howner.other hself).mpr hown
  · have hsec := inSection_stmt.mp ht
    rcases inside_goto hpl with ⟨rfl, hp⟩ | ⟨-, hpl'⟩
    · obtain ⟨rfl, -, -⟩ := Place.inside.inj hp
      rw [show (s.after pc sreg).pc.op = pc.op from mtxStmt_op _ _]
      exact hinv.section_place _ hsec _ _ _ hat
    · exact hinv.section_place t hsec _ _ _ hpl'
  · by_cases hself : t = s.cTask
    · subst hself
      by_cases hsec : InSection s.cTask h
      · exact Or.inl (inSection_stmt.mpr hsec)
      · refine Or.inr ⟨_, _, _, goto_self s _, mtxStmt_pending hret ht fun hown => ?_⟩
        rcases hinv.owner_section _ hown with hin | ⟨pc', sreg', k', hpl, hpend⟩
        · exact absurd hin hsec
        · obtain ⟨rfl, -, -⟩ := Place.inside.inj (hat.symm.trans hpl)
          exact hpend
    · rcases hinv.owner_section t ((howner.other hself).mp ht) with
        hin | ⟨pc', sreg', k', hpl, hpend⟩
      · exact Or.inl (inSection_stmt.mpr hin)
      · exact Or.inr ⟨pc', sreg', k', (goto_other hself).trans hpl, hpend⟩

omit [DecidableEq τ] in
/-- What a return tells: the owner is the task if the call acquires, and is not if it
was a release; and a pending call that returns has acquired or was a release. -/
theorem ret_knows {pc : MtxPc} {r : MtxResult} {o : Option τ} (hret : pc.result = some r)
    (hknows : pc.Knows t o) :
    (pc.op.acquires r = true → o = some t) ∧ (pc.op = .release → o ≠ some t) ∧
      (pc.pending = true → pc.op.acquires r = true ∨ pc.op = .release) := by
  cases pc with
  | lock pc =>
      cases pc with
      | ret => exact ⟨fun _ => hknows, fun hc => absurd hc (by decide), fun _ => Or.inl rfl⟩
      | _ => exact absurd hret (by simp [MtxPc.result])
  | tryLock pc =>
      cases pc with
      | ret e =>
          have hr : some e = r := Option.some.inj hret
          refine ⟨fun hacq => hknows ?_, fun hc => absurd hc (by simp [MtxPc.op]),
            fun hp => Or.inl ?_⟩
          · have hok : r = some .ok := of_decide_eq_true hacq
            exact Option.some.inj (hr.trans hok)
          · cases e with
            | ok => rw [← hr]; rfl
            | _ => exact absurd hp (by decide)
      | _ => exact absurd hret (by simp [MtxPc.result])
  | release pc =>
      cases pc with
      | ret e =>
          exact ⟨fun hc => absurd hc Bool.false_ne_true, fun _ => hknows, fun _ => Or.inr rfl⟩
      | _ => exact absurd hret (by simp [MtxPc.result])

theorem inv_ret {pc : MtxPc} {r : MtxResult} {sreg : Bool} {k : MtxResult → π} (hinv : Inv h s)
    (hat : s.place s.cTask = .inside pc sreg k) (hret : pc.result = some r) :
    Inv (h ++ [.ret s.cTask pc.op r]) (s.goto (.own (k r))) := by
  obtain ⟨hacq, hrel, hpend⟩ := ret_knows hret (hinv.knows _ _ _ _ hat)
  have hplace : ∀ t pc' sreg' k', (s.goto (.own (k r))).place t = .inside pc' sreg' k' →
      t ≠ s.cTask ∧ s.place t = .inside pc' sreg' k' := by
    intro t pc' sreg' k' ht
    rcases inside_goto ht with ⟨-, hp⟩ | hpl
    · exact absurd hp (by simp)
    · exact hpl
  refine ⟨fun t pc' sreg' k' ht hm => ?_, fun t pc' sreg' k' ht => ?_, fun t ht => ?_,
    fun t ht pc' sreg' k' hpl => ?_, fun t ht => ?_⟩
  · obtain ⟨hself, hpl⟩ := hplace _ _ _ _ ht
    exact absurd (hinv.masked t pc' sreg' k' hpl hm).1 hself
  · exact hinv.knows t pc' sreg' k' (hplace _ _ _ _ ht).2
  · rcases inSection_ret.mp ht with ⟨rfl, ha⟩ | hsec
    · exact hacq ha
    · exact hinv.section_owner t hsec
  · obtain ⟨hself, hpl'⟩ := hplace _ _ _ _ hpl
    rcases inSection_ret.mp ht with ⟨hc, _⟩ | hsec
    · exact absurd hc.symm hself
    · exact hinv.section_place t hsec _ _ _ hpl'
  · rcases hinv.owner_section t ht with hsec | ⟨pc', sreg', k', hpl, hp⟩
    · exact Or.inl (inSection_ret.mpr (Or.inr hsec))
    · by_cases hself : t = s.cTask
      · subst hself
        obtain ⟨rfl, -, -⟩ := Place.inside.inj (hat.symm.trans hpl)
        rcases hpend hp with ha | hr
        · exact Or.inl (inSection_ret.mpr (Or.inl ⟨rfl, ha⟩))
        · exact absurd ht (hrel hr)
      · exact Or.inr ⟨pc', sreg', k', (goto_other hself).trans hpl, hp⟩

/-- A switch that finds no task in the middle of a test. -/
theorem inv_switch {s : Sys τ σ π} (hinv : Inv h s) (u : τ)
    (hopen : ∀ t pc sreg k, s.place t = .inside pc sreg k → pc.masked = false) :
    Inv (h ++ [.switch u]) (s.switchTo u) := by
  refine ⟨fun t pc sreg k ht hm => ?_, hinv.knows, fun t ht => ?_, fun t ht => ?_, fun t ht => ?_⟩
  · rw [hopen t pc sreg k ht] at hm
    exact absurd hm (by decide)
  · exact hinv.section_owner t (inSection_switch.mp ht)
  · exact hinv.section_place t (inSection_switch.mp ht)
  · exact (hinv.owner_section t ht).imp_left inSection_switch.mpr

/-- Before `yield` switches, the task is on its way to `cli()`. -/
theorem inv_yield {sreg : Bool} {k : MtxResult → π} (hinv : Inv h s) (u : τ)
    (hat : s.place s.cTask = .inside (.lock .yield) sreg k) :
    Inv (h ++ [.switch u]) ((s.goto (.inside (.lock .recli) sreg k)).switchTo u) := by
  have hplace : ∀ t pc' sreg' k', (s.goto (.inside (.lock .recli) sreg k)).place t =
      .inside pc' sreg' k' →
      (t = s.cTask ∧ pc' = .lock .recli) ∨ (t ≠ s.cTask ∧ s.place t = .inside pc' sreg' k') := by
    intro t pc' sreg' k' ht
    exact (inside_goto ht).imp_left fun hself => ⟨hself.1, (Place.inside.inj hself.2).1.symm⟩
  have hinv' : Inv h (s.goto (.inside (.lock .recli) sreg k)) := by
    refine ⟨fun t pc' sreg' k' ht hm => ?_, fun t pc' sreg' k' ht => ?_, hinv.section_owner,
      fun t ht pc' sreg' k' hpl => ?_, fun t ht => ?_⟩
    · rcases hplace _ _ _ _ ht with ⟨_, rfl⟩ | ⟨hself, hpl⟩
      · exact absurd hm (by decide)
      · exact absurd (hinv.masked t pc' sreg' k' hpl hm).1 hself
    · rcases hplace _ _ _ _ ht with ⟨rfl, rfl⟩ | ⟨_, hpl⟩
      · have hk : s.mutex.owner ≠ some s.cTask := hinv.knows _ _ _ _ hat
        exact hk
      · exact hinv.knows t pc' sreg' k' hpl
    · rcases hplace _ _ _ _ hpl with ⟨_, rfl⟩ | ⟨_, hpl'⟩
      · exact fun hc => absurd hc (by decide)
      · exact hinv.section_place t ht _ _ _ hpl'
    · rcases hinv.owner_section t ht with hsec | ⟨pc', sreg', k', hpl, hp⟩
      · exact Or.inl hsec
      · by_cases hself : t = s.cTask
        · subst hself
          obtain ⟨rfl, -, -⟩ := Place.inside.inj (hat.symm.trans hpl)
          exact absurd hp (by decide)
        · exact Or.inr ⟨pc', sreg', k', (goto_other hself).trans hpl, hp⟩
  refine inv_switch hinv' u fun t pc' sreg' k' ht => ?_
  rcases hplace _ _ _ _ ht with ⟨_, rfl⟩ | ⟨hself, hpl⟩
  · rfl
  · exact hinv.other_unmasked hself hpl

theorem inv_initial (h₀ : s.Initial) : Inv ([] : List (Label τ ε)) s where
  masked := by
    intro t pc sreg k ht _
    obtain ⟨p, hp⟩ := h₀.place t
    exact absurd (hp.symm.trans ht) (by simp)
  knows := by
    intro t pc sreg k ht
    obtain ⟨p, hp⟩ := h₀.place t
    exact absurd (hp.symm.trans ht) (by simp)
  section_owner := fun t ht => absurd ht Bool.false_ne_true
  section_place := fun t ht => absurd ht Bool.false_ne_true
  owner_section := by
    intro t ht
    rw [h₀.mutex] at ht
    exact absurd ht (by simp [mtxInit])

/-- **One step** keeps the invariant. -/
theorem inv_step (hinv : Inv h s) (hstep : Step C s l s') : Inv (h ++ [l]) s' := by
  cases hstep with
  | own hat _ => exact inv_own hinv hat
  | call hat _ => exact inv_call hinv hat
  | stmt hat _ hret => exact inv_stmt hinv hat hret
  | ret hat hret => exact inv_ret hinv hat hret
  | yield u hat => exact inv_yield hinv u hat
  | switch u hopen => exact inv_switch hinv u fun _ _ _ _ ht => hinv.unmasked hopen ht

/-- **A run** keeps the invariant. -/
theorem inv_run {h' : List (Label τ ε)} (hinv : Inv h s) (hrun : Run C s h' s') :
    Inv (h ++ h') s' := by
  induction hrun with
  | nil =>
      rw [List.append_nil]
      exact hinv
  | snoc _ hstep ih =>
      rw [← List.append_assoc]
      exact inv_step ih hstep

/-- **Every state that is reached** satisfies the invariant. -/
theorem inv_reached {s₀ : Sys τ σ π} (h₀ : s₀.Initial) (hrun : Run C s₀ h s) : Inv h s :=
  inv_run (inv_initial h₀) hrun

end Sys

end AtmegaScheduler
