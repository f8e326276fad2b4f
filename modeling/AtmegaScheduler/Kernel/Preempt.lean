/-
Updates of the ready list that a switch cuts in two.

`create_task` changes the list with interrupts disabled.  `remove_task` does not, so
another task may run, and call either of them, between any two of its statements.  Here
it is taken apart into those statements, with the locals they keep.

A removal changes the list with one write, to `ready_list_head` or to the preceding task,
and both write what was read before.  Nobody else moves the head before the first, since
only the removal of the head does, but the task that follows the head may have been
removed, or one may have been created behind it, after its `next_node` was read.  The
second write also relies on the preceding task, which has to be queued in front of the
task still.  Where what was read still holds, the list stays what the finished updates
make it.
-/
import AtmegaScheduler.Kernel.ReadyList

namespace AtmegaScheduler

open Avr

/-- What a task asks of the ready list. -/
inductive Call (τ : Type)
  | removeTask (task : τ)
  | createTask (task : τ) (a : CreateArgs)
  | createTaskArgs (task : τ) (a : CreateArgs) (args : List Arg)

namespace Call

variable {τ : Type}

def task : Call τ → τ
  | .removeTask t => t
  | .createTask t _ => t
  | .createTaskArgs t _ _ => t

def op : Call τ → Sched.Op τ
  | .removeTask t => .removeTask t
  | .createTask t a => .createTask t a
  | .createTaskArgs t a args => .createTaskArgs t a args

def IsCreate : Call τ → Prop
  | .removeTask _ => False
  | _ => True

end Call

/-- The next statement of a call, with the locals of `_remove_task_from_ready_list` and
`_find_preceding_task`. -/
inductive CallPc (τ : Type)
  /-- `create_task`, or the test for the head. -/
  | begin
  /-- The two halves of `ready_list_head = _get_next_task(task)`. -/
  | nextOfHead
  | moveHead (nextTask : Option τ)
  /-- `seek_head = _get_head_task()`, and the test for null -/
  | readHead
  /-- The condition of the loop. -/
  | seek (seekHead : Option τ)
  /-- `seek_head = _get_next_task(seek_head)` -/
  | advance (seekHead : τ)
  /-- `next_task = _get_next_task(task)` -/
  | readNext (precedingTask : Option τ)
  /-- `preceding_task->next_node = next_task` -/
  | link (precedingTask nextTask : Option τ)
  /-- `task->next_node = nullptr` -/
  | unlink
  /-- `_set_task_state(task, UNDEFINED)` -/
  | setState
  | returned (failed : Bool)
  deriving DecidableEq

namespace CallPc

variable {τ : Type}

/-- The call has changed the list. -/
def Applied : CallPc τ → Prop
  | .unlink => True
  | .setState => True
  | .returned _ => True
  | _ => False

/-- A walk that ended has found a task. -/
def Found : CallPc τ → Prop
  | .readNext none => False
  | .link none _ => False
  | _ => True

/-- The head is about to be moved. -/
def AtHead : CallPc τ → Prop
  | .nextOfHead => True
  | .moveHead _ => True
  | _ => False

theorem not_atHead {pc : CallPc τ} (ha : pc.Applied) : ¬ pc.AtHead := by
  intro hhead
  cases pc with
  | nextOfHead => exact ha
  | moveHead _ => exact ha
  | _ => exact hhead

/-- What has been read is still so: the task that is about to be the head still follows `t`,
the walk has not run off the list, and the two tasks that are about to be linked are still
on either side of `t`. -/
def Current (s : Sched τ) (t : τ) : CallPc τ → Prop
  | .moveHead nextTask => s.next t = nextTask
  | .seek seekHead => seekHead ≠ none
  | .link (some precedingTask) nextTask =>
      (∃ q, s.Ready q ∧ precedingTask ∈ q) ∧ s.next precedingTask = some t ∧ s.next t = nextTask
  | _ => True

end CallPc

/-- The scheduler, and where every task is in its call. -/
structure Preempt (τ : Type) where
  sched : Sched τ
  pc : τ → CallPc τ

namespace Preempt

variable {τ : Type} [DecidableEq τ]

/-- The effect of a statement of `c`, and the statement it goes on with. -/
def goto (m : Preempt τ) (c : τ) (sched : Sched τ) (pc : CallPc τ) : Preempt τ :=
  ⟨sched, Function.update m.pc c pc⟩

/-- A statement of `remove_task(t)`, called by `c`. -/
def removeStmt (m : Preempt τ) (c t : τ) : CallPc τ → Except Fault (Preempt τ)
  | .begin =>
      .ok (m.goto c m.sched (if some t = m.sched.getHeadTask then .nextOfHead else .readHead))
  | .nextOfHead => .ok (m.goto c m.sched (.moveHead (m.sched.getNextTask (some t))))
  | .moveHead nextTask => .ok (m.goto c { m.sched with readyListHead := nextTask } .setState)
  | .readHead =>
      match m.sched.getHeadTask with
      | none => .ok (m.goto c m.sched (.readNext none))
      | some head => .ok (m.goto c m.sched (.seek (some head)))
  | .seek none => .error .nullDeref
  | .seek (some seekHead) =>
      if m.sched.next seekHead ≠ some t then .ok (m.goto c m.sched (.advance seekHead))
      else .ok (m.goto c m.sched (.readNext (some seekHead)))
  | .advance seekHead => .ok (m.goto c m.sched (.seek (m.sched.getNextTask (some seekHead))))
  | .readNext precedingTask =>
      .ok (m.goto c m.sched (.link precedingTask (m.sched.getNextTask (some t))))
  | .link none _ => .error .nullDeref
  | .link (some precedingTask) nextTask =>
      .ok (m.goto c (m.sched.setNext precedingTask nextTask) .unlink)
  | .unlink => .ok (m.goto c (m.sched.setNext t none) .setState)
  | .setState => .ok (m.goto c (m.sched.setTaskState (some t) .undefined) (.returned false))
  | .returned _ => .ok m

/-- `create_task`, which nothing interrupts. -/
def createStmt (m : Preempt τ) (c : τ) (result : Except Fault (Bool × Sched τ)) :
    CallPc τ → Except Fault (Preempt τ)
  | .begin => result.map fun r => m.goto c r.2 (.returned r.1)
  | _ => .ok m

/-- A statement of `c`: of its call, or of its own code, which leaves the list alone. -/
def stmt (calls : τ → Option (Call τ)) (fuel : Nat) (m : Preempt τ) (c : τ) :
    Except Fault (Preempt τ) :=
  match calls c with
  | none => .ok m
  | some (.removeTask t) => m.removeStmt c t (m.pc c)
  | some (.createTask t a) => m.createStmt c (m.sched.createTask fuel t a) (m.pc c)
  | some (.createTaskArgs t a args) =>
      m.createStmt c (m.sched.createTaskArgs fuel t a args) (m.pc c)

/-- The running task does a statement, or the interrupt switches to another. -/
inductive Event
  | stmt
  | switch (cpu : CpuRegisters) (usOut usIn : BitVec 32)

def step (calls : τ → Option (Call τ)) (fuel : Nat) (m : Preempt τ) :
    Event → Except Fault (Preempt τ)
  | .stmt =>
      match m.sched.cTask with
      | none => .ok m
      | some c => m.stmt calls fuel c
  | .switch cpu usOut usIn => .ok { m with sched := m.sched.contextSwitch cpu usOut usIn }

def run (calls : τ → Option (Call τ)) (fuel : Nat) (m : Preempt τ) :
    List Event → Except Fault (Preempt τ)
  | [] => .ok m
  | e :: es =>
      match m.step calls fuel e with
      | .error f => .error f
      | .ok m' => run calls fuel m' es

/-- No task has begun its call. -/
def start (s : Sched τ) : Preempt τ := ⟨s, fun _ => .begin⟩

/-! ### A removal that nothing interrupts -/

section Alone

variable {m m' m'' : Preempt τ} {c t : τ} {s s' : Sched τ} {pc : CallPc τ}

@[simp] theorem goto_sched : (m.goto c s pc).sched = s := rfl

@[simp] theorem goto_pc_self : (m.goto c s pc).pc c = pc := by
  simp [goto]

theorem goto_pc_of_ne {x : τ} (hx : x ≠ c) : (m.goto c s pc).pc x = m.pc x := by
  simp [goto, hx]

@[simp] theorem goto_goto {pc' : CallPc τ} : (m.goto c s pc).goto c s' pc' = m.goto c s' pc' := by
  unfold goto
  rw [Function.update_idem]

theorem goto_self (h : m.pc c = pc) : m.goto c m.sched pc = m := by
  unfold goto
  rw [← h, Function.update_eq_self]

/-- The statements of a removal, one after another, lead from one state to another. -/
inductive Removes (c t : τ) : Preempt τ → Preempt τ → Prop
  | refl (m : Preempt τ) : Removes c t m m
  | step {m m' m'' : Preempt τ} (h : m.removeStmt c t (m.pc c) = .ok m')
      (hrest : Removes c t m' m'') : Removes c t m m''

theorem Removes.trans (h : Removes c t m m') (h' : Removes c t m' m'') : Removes c t m m'' := by
  induction h with
  | refl => exact h'
  | step hstep _ ih => exact .step hstep (ih h')

/-- A statement, from the place in the call it is at. -/
theorem Removes.of_goto {s : Sched τ} {pc pc' : CallPc τ}
    (h : (m.goto c s pc).removeStmt c t pc = .ok ((m.goto c s pc).goto c s' pc'))
    (hrest : Removes c t (m.goto c s' pc') m'') : Removes c t (m.goto c s pc) m'' := by
  rw [goto_goto] at h
  refine .step ?_ hrest
  rw [goto_pc_self]
  exact h

theorem removes_seek {fuel : Nat} :
    ∀ {a p : Option τ}, s.seekPreceding (some t) fuel a = .ok p →
      Removes c t (m.goto c s (.seek a)) (m.goto c s (.readNext p)) := by
  induction fuel with
  | zero =>
      intro a p h
      exact absurd h (by simp [Sched.seekPreceding])
  | succ fuel ih =>
      intro a p h
      cases a with
      | none => exact absurd h (by simp [Sched.seekPreceding])
      | some seekHead =>
          unfold Sched.seekPreceding at h
          by_cases hlink : s.next seekHead ≠ some t
          · rw [if_pos hlink] at h
            refine .of_goto (if_pos hlink) ?_
            refine .of_goto rfl ?_
            exact ih h
          · rw [if_neg hlink] at h
            rw [← Except.ok.inj h]
            exact .of_goto (if_neg hlink) (.refl _)

/-- The walk to the preceding task. -/
theorem removes_walk {fuel : Nat} {p : Option τ} (h : s.findPrecedingTask fuel (some t) = .ok p) :
    Removes c t (m.goto c s .readHead) (m.goto c s (.readNext p)) := by
  unfold Sched.findPrecedingTask at h
  cases hhead : s.getHeadTask with
  | none =>
      have hstmt : (m.goto c s .readHead).removeStmt c t .readHead =
          .ok ((m.goto c s .readHead).goto c s (.readNext none)) := by
        unfold removeStmt
        dsimp only
        rw [goto_sched, hhead]
      rw [hhead] at h
      rw [← Except.ok.inj h]
      exact .of_goto hstmt (.refl _)
  | some hd =>
      have hstmt : (m.goto c s .readHead).removeStmt c t .readHead =
          .ok ((m.goto c s .readHead).goto c s (.seek (some hd))) := by
        unfold removeStmt
        dsimp only
        rw [goto_sched, hhead]
      rw [hhead] at h
      exact .of_goto hstmt (removes_seek h)

/-- **Uninterrupted, the statements are `remove_task`.** -/
theorem removes_alone {fuel : Nat} {r : Bool × Sched τ} (hpc : m.pc c = .begin)
    (h : m.sched.removeTask fuel (some t) = .ok r) :
    Removes c t m (m.goto c r.2 (.returned r.1)) := by
  obtain ⟨s, hs⟩ : ∃ s, m.sched = s := ⟨_, rfl⟩
  rw [hs] at h
  have hm : m = m.goto c s .begin := by
    rw [← hs, goto_self hpc]
  rw [hm, goto_goto]
  unfold Sched.removeTask Sched.removeTaskFromReadyList at h
  dsimp only at h
  by_cases hhead : some t = s.getHeadTask
  · rw [if_pos hhead] at h
    rw [← Except.ok.inj h]
    refine .of_goto rfl ?_
    rw [goto_sched, if_pos hhead]
    refine .of_goto rfl ?_
    refine .of_goto rfl ?_
    refine .of_goto rfl ?_
    exact .refl _
  · rw [if_neg hhead] at h
    refine .of_goto rfl ?_
    rw [goto_sched, if_neg hhead]
    cases hfind : s.findPrecedingTask fuel (some t) with
    | error e =>
        rw [hfind] at h
        exact absurd h (by simp)
    | ok o =>
        rw [hfind] at h
        cases o with
        | none => exact absurd h (by simp)
        | some p =>
            rw [← Except.ok.inj h]
            refine Removes.trans (removes_walk hfind) ?_
            refine .of_goto rfl ?_
            refine .of_goto rfl ?_
            refine .of_goto rfl ?_
            refine .of_goto rfl ?_
            exact .refl _

end Alone

/-! ### Any interleaving -/

/-- Calls for distinct tasks: queued ones are removed, and others created. -/
structure Callable (calls : τ → Option (Call τ)) (q₀ : List τ) : Prop where
  allowed : ∀ c call, calls c = some call → call.op.Allowed q₀
  distinct : ∀ c c' call call', calls c = some call → calls c' = some call' →
    call.task = call'.task → c = c'

/-- `q` holds the tasks of `q₀` without the removed ones, and the created ones. -/
def Updated (calls : τ → Option (Call τ)) (q₀ q : List τ) : Prop :=
  ∀ x, x ∈ q ↔ (x ∈ q₀ ∧ ∀ c, calls c ≠ some (.removeTask x)) ∨
    ∃ c call, calls c = some call ∧ call.IsCreate ∧ call.task = x

omit [DecidableEq τ] in
theorem Callable.of_mem {calls : τ → Option (Call τ)} {q₀ : List τ}
    (h : ∀ c, ∀ call ∈ calls c, call.op.Allowed q₀)
    (h' : ∀ c c', ∀ call ∈ calls c, ∀ call' ∈ calls c', call.task = call'.task → c = c') :
    Callable calls q₀ :=
  ⟨h, fun c c' call call' hc hc' => h' c c' call hc call' hc'⟩

/-- What the event does with values that were read before is still right. -/
def Current (calls : τ → Option (Call τ)) (m : Preempt τ) : Event → Prop
  | .stmt => ∀ c t, m.sched.cTask = some c → calls c = some (.removeTask t) →
      (m.pc c).Current m.sched t
  | .switch _ _ _ => True

/-- Every event of the run is current. -/
def RunCurrent (calls : τ → Option (Call τ)) (fuel : Nat) (m : Preempt τ) : List Event → Prop
  | [] => True
  | e :: es => Current calls m e ∧ ∀ m', m.step calls fuel e = .ok m' → RunCurrent calls fuel m' es

theorem RunCurrent.cons {calls : τ → Option (Call τ)} {fuel : Nat} {m m' : Preempt τ} {e : Event}
    {es : List Event} (hstep : m.step calls fuel e = .ok m') (hcur : Current calls m e)
    (hrest : RunCurrent calls fuel m' es) : RunCurrent calls fuel m (e :: es) := by
  refine ⟨hcur, fun m'' hm'' => ?_⟩
  rw [hstep] at hm''
  rw [← Except.ok.inj hm'']
  exact hrest

omit [DecidableEq τ] in
/-- The next statement of the running task. -/
theorem current_stmt {calls : τ → Option (Call τ)} {m : Preempt τ} {c : τ}
    (hc : m.sched.cTask = some c)
    (h : ∀ t, calls c = some (.removeTask t) → (m.pc c).Current m.sched t) :
    Current calls m .stmt := by
  intro c' t hc' hcall
  rw [hc] at hc'
  obtain rfl := Option.some.inj hc'
  exact h t hcall

/-- The updates that have been applied leave `x` on the list. -/
def Listed (calls : τ → Option (Call τ)) (q₀ : List τ) (m : Preempt τ) (x : τ) : Prop :=
  (x ∈ q₀ ∧ ∀ c, calls c = some (.removeTask x) → ¬ (m.pc c).Applied) ∨
    ∃ c call, calls c = some call ∧ call.IsCreate ∧ call.task = x ∧ (m.pc c).Applied

/-- The list is what the applied updates make it. -/
structure Inv (calls : τ → Option (Call τ)) (q₀ : List τ) (m : Preempt τ) (q : List τ) : Prop where
  ready : m.sched.Ready q
  mem : ∀ x, x ∈ q ↔ Listed calls q₀ m x
  /-- Only the removal of the head moves it. -/
  head : ∀ c t, calls c = some (.removeTask t) → (m.pc c).AtHead → q.head? = some t
  found : ∀ c, (m.pc c).Found

section Interleaved

variable {calls : τ → Option (Call τ)} {q₀ q : List τ} {m : Preempt τ} {c t : τ} {s : Sched τ}
  {pc : CallPc τ} {fuel : Nat}

theorem applied_goto (x : τ) : ((m.goto c s pc).pc x).Applied ↔
    (x = c ∧ pc.Applied) ∨ (x ≠ c ∧ (m.pc x).Applied) := by
  by_cases hx : x = c
  · subst hx
    simp
  · rw [goto_pc_of_ne hx]
    simp [hx]

omit [DecidableEq τ] in
/-- A removal that has not been applied. -/
theorem Inv.pending (h : Inv calls q₀ m q) (hv : Callable calls q₀)
    (hc : calls c = some (.removeTask t)) (hp : ¬ (m.pc c).Applied) : t ∈ q := by
  refine (h.mem t).mpr (Or.inl ⟨hv.allowed c _ hc, fun c' hc' => ?_⟩)
  rw [hv.distinct c' c _ _ hc' hc rfl]
  exact hp

omit [DecidableEq τ] in
/-- Created tasks are not among the original ones. -/
theorem Callable.created (hv : Callable calls q₀) {call : Call τ} (hc : calls c = some call)
    (hcreate : call.IsCreate) : call.task ∉ q₀ := by
  have hallowed := hv.allowed c call hc
  cases call with
  | removeTask _ => exact hcreate.elim
  | createTask _ _ => exact hallowed.1
  | createTaskArgs _ _ _ => exact hallowed.1

omit [DecidableEq τ] in
/-- A removal that has been applied. -/
theorem Inv.removed (h : Inv calls q₀ m q) (hv : Callable calls q₀)
    (hc : calls c = some (.removeTask t)) (ha : (m.pc c).Applied) : t ∉ q := by
  intro ht
  rcases (h.mem t).mp ht with ⟨-, hnone⟩ | ⟨c', call, hc', hcreate, htask, -⟩
  · exact hnone c hc ha
  · have hmem : t ∈ q₀ := hv.allowed c _ hc
    rw [← htask] at hmem
    exact hv.created hc' hcreate hmem

omit [DecidableEq τ] in
/-- A creation that has not been applied. -/
theorem Inv.uncreated (h : Inv calls q₀ m q) (hv : Callable calls q₀) {call : Call τ}
    (hc : calls c = some call) (hcreate : call.IsCreate) (hp : ¬ (m.pc c).Applied) :
    call.task ∉ q := by
  intro ht
  rcases (h.mem _).mp ht with ⟨hmem, -⟩ | ⟨c', call', hc', -, htask, ha⟩
  · exact hv.created hc hcreate hmem
  · rw [hv.distinct c' c _ _ hc' hc htask] at ha
    exact hp ha

theorem Inv.found_goto (h : Inv calls q₀ m q) (hfound : pc.Found) (x : τ) :
    ((m.goto c s pc).pc x).Found := by
  by_cases hxc : x = c
  · subst hxc
    rw [goto_pc_self]
    exact hfound
  · rw [goto_pc_of_ne hxc]
    exact h.found x

/-- A statement that applies nothing. -/
theorem Inv.quiet (h : Inv calls q₀ m q) (hready : s.Ready q)
    (happlied : pc.Applied ↔ (m.pc c).Applied) (hfound : pc.Found)
    (hhead : ∀ t, calls c = some (.removeTask t) → pc.AtHead → q.head? = some t) :
    Inv calls q₀ (m.goto c s pc) q := by
  have hsame : ∀ x, ((m.goto c s pc).pc x).Applied ↔ (m.pc x).Applied := by
    intro x
    rw [applied_goto, happlied]
    by_cases hx : x = c
    · simp [hx]
    · simp [hx]
  refine ⟨hready, fun x => ?_, fun x t hx hpc => ?_, h.found_goto hfound⟩
  · rw [h.mem]
    unfold Listed
    simp only [hsame]
  · by_cases hxc : x = c
    · subst hxc
      rw [goto_pc_self] at hpc
      exact hhead t hx hpc
    · rw [goto_pc_of_ne hxc] at hpc
      exact h.head x t hx hpc

/-- A statement that does not decide to move the head. -/
theorem Inv.other (h : Inv calls q₀ m q) (hready : s.Ready q)
    (happlied : pc.Applied ↔ (m.pc c).Applied) (hfound : pc.Found) (hpc : ¬ pc.AtHead) :
    Inv calls q₀ (m.goto c s pc) q :=
  h.quiet hready happlied hfound fun _ _ hm => absurd hm hpc

/-- The statement that takes `t` off the list. -/
theorem Inv.remove (h : Inv calls q₀ m q) (hv : Callable calls q₀)
    (hc : calls c = some (.removeTask t)) (hp : ¬ (m.pc c).Applied) (hready : s.Ready (q.erase t))
    (ha : pc.Applied) (hfound : pc.Found)
    (hhead : ∀ x, x ≠ t → q.head? = some x → (q.erase t).head? = some x) :
    Inv calls q₀ (m.goto c s pc) (q.erase t) := by
  have htq : t ∈ q₀ := hv.allowed c _ hc
  refine ⟨hready, fun x => ?_, fun x u hx hpc => ?_, h.found_goto hfound⟩
  · rw [h.ready.nodup.mem_erase_iff, h.mem]
    constructor
    · rintro ⟨hxt, ⟨hxq, hnone⟩ | ⟨c', call, hc', hcreate, htask, ha'⟩⟩
      · refine Or.inl ⟨hxq, fun c' hc' => ?_⟩
        have hne : c' ≠ c := by
          rintro rfl
          rw [hc] at hc'
          exact hxt (Call.removeTask.inj (Option.some.inj hc')).symm
        rw [applied_goto]
        simpa [hne] using hnone c' hc'
      · refine Or.inr ⟨c', call, hc', hcreate, htask, ?_⟩
        rw [applied_goto]
        by_cases hcc : c' = c
        · exact Or.inl ⟨hcc, ha⟩
        · exact Or.inr ⟨hcc, ha'⟩
    · rintro (⟨hxq, hnone⟩ | ⟨c', call, hc', hcreate, htask, ha'⟩)
      · have hxt : x ≠ t := by
          rintro rfl
          exact hnone c hc ((applied_goto c).mpr (Or.inl ⟨rfl, ha⟩))
        refine ⟨hxt, Or.inl ⟨hxq, fun c' hc' happ => ?_⟩⟩
        have hne : c' ≠ c := by
          rintro rfl
          exact hp happ
        exact hnone c' hc' ((applied_goto c').mpr (Or.inr ⟨hne, happ⟩))
      · have hne : c' ≠ c := by
          rintro rfl
          rw [hc] at hc'
          rw [← Option.some.inj hc'] at hcreate
          exact hcreate
        have happ := ((applied_goto c').mp ha').resolve_left fun hcc => hne hcc.1
        refine ⟨?_, Or.inr ⟨c', call, hc', hcreate, htask, happ.2⟩⟩
        rintro rfl
        rw [← htask] at htq
        exact hv.created hc' hcreate htq
  · by_cases hxc : x = c
    · subst hxc
      rw [goto_pc_self] at hpc
      exact absurd hpc (CallPc.not_atHead ha)
    · rw [goto_pc_of_ne hxc] at hpc
      refine hhead u ?_ (h.head x u hx hpc)
      rintro rfl
      exact hxc (hv.distinct x c _ _ hx hc rfl)

/-- The call that appends a task. -/
theorem Inv.create (h : Inv calls q₀ m q) {call : Call τ} (hc : calls c = some call)
    (hcreate : call.IsCreate) (hready : s.Ready (q ++ [call.task])) (ha : pc.Applied)
    (hfound : pc.Found) : Inv calls q₀ (m.goto c s pc) (q ++ [call.task]) := by
  have hremove : ∀ x c', calls c' = some (.removeTask x) → c' ≠ c := by
    rintro x c' hc' rfl
    rw [hc] at hc'
    rw [Option.some.inj hc'] at hcreate
    exact hcreate
  refine ⟨hready, fun x => ?_, fun x u hx hpc => ?_, h.found_goto hfound⟩
  · rw [List.mem_append, List.mem_singleton, h.mem]
    constructor
    · rintro ((⟨hxq, hnone⟩ | ⟨c', call', hc', hcreate', htask, ha'⟩) | rfl)
      · refine Or.inl ⟨hxq, fun c' hc' => ?_⟩
        rw [applied_goto]
        simpa [hremove x c' hc'] using hnone c' hc'
      · refine Or.inr ⟨c', call', hc', hcreate', htask, ?_⟩
        rw [applied_goto]
        by_cases hcc : c' = c
        · exact Or.inl ⟨hcc, ha⟩
        · exact Or.inr ⟨hcc, ha'⟩
      · exact Or.inr ⟨c, call, hc, hcreate, rfl, (applied_goto c).mpr (Or.inl ⟨rfl, ha⟩)⟩
    · rintro (⟨hxq, hnone⟩ | ⟨c', call', hc', hcreate', htask, ha'⟩)
      · refine Or.inl (Or.inl ⟨hxq, fun c' hc' happ => ?_⟩)
        exact hnone c' hc' ((applied_goto c').mpr (Or.inr ⟨hremove x c' hc', happ⟩))
      · rcases (applied_goto c').mp ha' with ⟨rfl, -⟩ | ⟨-, happ⟩
        · rw [hc] at hc'
          rw [← htask, Option.some.inj hc']
          exact Or.inr rfl
        · exact Or.inl (Or.inr ⟨c', call', hc', hcreate', htask, happ⟩)
  · have hxc : x ≠ c := hremove u x hx
    rw [goto_pc_of_ne hxc] at hpc
    have hfirst := h.head x u hx hpc
    rw [List.head?_append, hfirst]
    rfl

/-- Linking the preceding task past `t` takes `t` off the list. -/
theorem ready_link {p : τ} (h : m.sched.Ready q) (hp : p ∈ q) (hlink : m.sched.next p = some t) :
    (m.sched.setNext p (m.sched.next t)).Ready (q.erase t) ∧
      ∀ x, x ≠ t → q.head? = some x → (q.erase t).head? = some x := by
  obtain ⟨l₁, l₂, hq⟩ := List.append_of_mem hp
  rw [hq] at h
  have hnext := Chain.link h
  rw [hlink] at hnext
  obtain ⟨l₂, rfl⟩ := List.head?_eq_some_iff.mp hnext.symm
  have hnd : ((l₁ ++ [p]) ++ t :: l₂).Nodup := by
    rw [List.append_assoc]
    exact h.nodup
  have herase : q.erase t = l₁ ++ p :: l₂ := by
    rw [hq, show l₁ ++ p :: t :: l₂ = (l₁ ++ [p]) ++ t :: l₂ by simp, Split.erase_eq hnd]
    simp
  rw [herase]
  constructor
  · unfold Sched.Ready
    rw [Sched.setNext_next]
    exact Chain.unlink h
  · intro x _ hx
    rw [hq] at hx
    cases l₁ with
    | nil => exact hx
    | cons y l₁ => exact hx

/-- A statement of a removal. -/
theorem Inv.removeStmt (h : Inv calls q₀ m q) (hv : Callable calls q₀)
    (hc : calls c = some (.removeTask t)) (hcur : (m.pc c).Current m.sched t) :
    ∃ m' q', m.removeStmt c t (m.pc c) = .ok m' ∧ Inv calls q₀ m' q' ∧
      q'.length ≤ q.length := by
  have htask : ∀ u, calls c = some (.removeTask u) → u = t := by
    intro u hu
    rw [hc] at hu
    exact (Call.removeTask.inj (Option.some.inj hu)).symm
  have hfound := h.found c
  cases hpc : m.pc c with
  | begin =>
      by_cases hhead : some t = m.sched.getHeadTask
      · refine ⟨_, q, rfl, ?_, Nat.le_refl _⟩
        rw [if_pos hhead]
        refine h.quiet h.ready (by rw [hpc]; exact Iff.rfl) trivial fun u hu _ => ?_
        rw [htask u hu, ← h.ready.head]
        exact hhead.symm
      · refine ⟨_, q, rfl, ?_, Nat.le_refl _⟩
        rw [if_neg hhead]
        exact h.other h.ready (by rw [hpc]; exact Iff.rfl) trivial not_false
  | nextOfHead =>
      have hhead : q.head? = some t := h.head c t hc (by rw [hpc]; trivial)
      refine ⟨_, q, rfl, ?_, Nat.le_refl _⟩
      refine h.quiet h.ready (by rw [hpc]; exact Iff.rfl) trivial fun u hu _ => ?_
      rw [htask u hu]
      exact hhead
  | moveHead nextTask =>
      rw [hpc] at hcur
      have hnext : m.sched.next t = nextTask := hcur
      obtain ⟨rest, rfl⟩ := List.head?_eq_some_iff.mp (h.head c t hc (by rw [hpc]; trivial))
      refine ⟨_, _, rfl, h.remove hv hc (by rw [hpc]; exact id) ?_ trivial trivial ?_,
        List.length_erase_le⟩
      · rw [List.erase_cons_head, ← hnext]
        exact h.ready.2
      · intro x hxt hx
        exact absurd (Option.some.inj hx).symm hxt
  | readHead =>
      have ht : t ∈ q := h.pending hv hc (by rw [hpc]; exact id)
      obtain ⟨hd, rest, hq⟩ := List.exists_cons_of_ne_nil (List.ne_nil_of_mem ht)
      have hhead : m.sched.getHeadTask = some hd := by
        rw [h.ready.head, hq]
        rfl
      refine ⟨m.goto c m.sched (.seek (some hd)), q, ?_, ?_, Nat.le_refl _⟩
      · unfold Preempt.removeStmt
        dsimp only
        rw [hhead]
      · exact h.other h.ready (by rw [hpc]; exact Iff.rfl) trivial not_false
  | seek a =>
      rw [hpc] at hcur
      cases a with
      | none => exact absurd rfl hcur
      | some p =>
          by_cases hlink : m.sched.next p ≠ some t
          · refine ⟨_, q, if_pos hlink, ?_, Nat.le_refl _⟩
            exact h.other h.ready (by rw [hpc]; exact Iff.rfl) trivial not_false
          · refine ⟨_, q, if_neg hlink, ?_, Nat.le_refl _⟩
            exact h.other h.ready (by rw [hpc]; exact Iff.rfl) trivial not_false
  | advance p =>
      refine ⟨_, q, rfl, ?_, Nat.le_refl _⟩
      exact h.other h.ready (by rw [hpc]; exact Iff.rfl) trivial not_false
  | readNext o =>
      rw [hpc] at hfound
      cases o with
      | none => exact hfound.elim
      | some p =>
          refine ⟨_, q, rfl, ?_, Nat.le_refl _⟩
          exact h.other h.ready (by rw [hpc]; exact Iff.rfl) trivial not_false
  | link o n =>
      rw [hpc] at hfound hcur
      cases o with
      | none => exact hfound.elim
      | some p =>
          obtain ⟨⟨q', hq', hp⟩, hlink, rfl⟩ := hcur
          rw [Chain.unique hq' h.ready] at hp
          obtain ⟨hready, hhead⟩ := ready_link h.ready hp hlink
          exact ⟨_, _, rfl, h.remove hv hc (by rw [hpc]; exact id) hready trivial trivial hhead,
            List.length_erase_le⟩
  | unlink =>
      have ht : t ∉ q := h.removed hv hc (by rw [hpc]; trivial)
      refine ⟨_, q, rfl, ?_, Nat.le_refl _⟩
      refine h.other ?_ (by rw [hpc]; exact Iff.rfl) trivial not_false
      unfold Sched.Ready
      rw [Sched.setNext_next]
      exact Seg.update h.ready ht
  | setState =>
      refine ⟨_, q, rfl, ?_, Nat.le_refl _⟩
      refine h.other ?_ (by rw [hpc]; exact Iff.rfl) trivial not_false
      exact h.ready.of_eq (m.sched.setTaskState_next _ _) (m.sched.setTaskState_readyListHead _ _)
  | returned failed => exact ⟨m, q, rfl, h, Nat.le_refl _⟩

/-- A call of `create_task`. -/
theorem Inv.createStmt (h : Inv calls q₀ m q) {call : Call τ} (hc : calls c = some call)
    (hcreate : call.IsCreate) {result : Except Fault (Bool × Sched τ)}
    (hresult : call.task ∉ q → ∃ s', result = .ok (false, s') ∧ s'.Ready (q ++ [call.task]))
    (hv : Callable calls q₀) :
    ∃ m' q', m.createStmt c result (m.pc c) = .ok m' ∧ Inv calls q₀ m' q' ∧
      q'.length ≤ q.length + 1 := by
  by_cases hpc : m.pc c = .begin
  · obtain ⟨s', hs', hready⟩ := hresult (h.uncreated hv hc hcreate (by rw [hpc]; exact id))
    refine ⟨m.goto c s' (.returned false), _, ?_, h.create hc hcreate hready trivial trivial, ?_⟩
    · rw [hpc, hs']
      rfl
    · exact Nat.le_of_eq List.length_append
  · refine ⟨m, q, ?_, h, Nat.le_succ _⟩
    unfold Preempt.createStmt
    split
    · exact absurd ‹_› hpc
    · rfl

/-- **One event.** -/
theorem Inv.step (h : Inv calls q₀ m q) (hv : Callable calls q₀) {e : Event}
    (hcur : Current calls m e) (hfuel : q.length ≤ fuel) :
    ∃ m' q', m.step calls fuel e = .ok m' ∧ Inv calls q₀ m' q' ∧ q'.length ≤ q.length + 1 := by
  cases e with
  | switch cpu usOut usIn =>
      obtain ⟨hnext, hhead, -⟩ := Sched.contextSwitch_links m.sched cpu usOut usIn
      exact ⟨_, q, rfl, ⟨h.ready.of_eq hnext hhead, h.mem, h.head, h.found⟩, Nat.le_succ _⟩
  | stmt =>
      unfold Preempt.step
      dsimp only
      cases hcTask : m.sched.cTask with
      | none => exact ⟨m, q, rfl, h, Nat.le_succ _⟩
      | some c =>
          dsimp only
          unfold stmt
          cases hc : calls c with
          | none => exact ⟨m, q, rfl, h, Nat.le_succ _⟩
          | some call =>
              have hallowed := hv.allowed c call hc
              cases call with
              | removeTask t =>
                  obtain ⟨m', q', hm', hinv, hlen⟩ := h.removeStmt hv hc (hcur c t hcTask hc)
                  exact ⟨m', q', hm', hinv, Nat.le_succ_of_le hlen⟩
              | createTask t a =>
                  refine h.createStmt hc trivial (fun ht => ?_) hv
                  obtain ⟨s', hs', hready, -⟩ :=
                    Sched.createTask_ready h.ready ht hallowed.2 hfuel
                  exact ⟨s', hs', hready⟩
              | createTaskArgs t a args =>
                  refine h.createStmt hc trivial (fun ht => ?_) hv
                  obtain ⟨s', hs', hready, -⟩ :=
                    Sched.createTaskArgs_ready args h.ready ht hallowed.2 hfuel
                  exact ⟨s', hs', hready⟩

theorem Inv.run (hv : Callable calls q₀) {es : List Event} :
    ∀ {m : Preempt τ} {q : List τ}, Inv calls q₀ m q → RunCurrent calls fuel m es →
      q.length + es.length ≤ fuel →
      ∃ m' q', m.run calls fuel es = .ok m' ∧ Inv calls q₀ m' q' := by
  induction es with
  | nil => intro m q h _ _; exact ⟨m, q, rfl, h⟩
  | cons e es ih =>
      intro m q h hcur hfuel
      rw [List.length_cons] at hfuel
      obtain ⟨m₁, q₁, hm₁, h₁, hlen⟩ := h.step hv hcur.1 (by omega : q.length ≤ fuel)
      obtain ⟨m₂, q₂, hm₂, h₂⟩ := ih h₁ (hcur.2 m₁ hm₁) (by omega)
      refine ⟨m₂, q₂, ?_, h₂⟩
      unfold Preempt.run
      rw [hm₁]
      exact hm₂

omit [DecidableEq τ] in
theorem inv_start (h : s.Ready q₀) : Inv calls q₀ (start s) q₀ := by
  refine ⟨h, fun x => ?_, fun c t _ hpc => hpc.elim, fun _ => trivial⟩
  constructor
  · intro hx
    exact Or.inl ⟨hx, fun _ _ => id⟩
  · rintro (⟨hx, -⟩ | ⟨c, call, -, -, -, ha⟩)
    · exact hx
    · exact ha.elim

/--
**When updates survive preemption.**  Take any calls of `remove_task` on distinct queued
tasks and of `create_task` on others, by any tasks, and switches between any two
statements.  In a run whose events are all current the list stays well-formed, without a
read through null, and once all calls have returned 0 it holds the original tasks
without the removed ones and with the created ones.
-/
theorem updates_survive (hv : Callable calls q₀) (h : s.Ready q₀) {es : List Event}
    (hcur : RunCurrent calls fuel (start s) es) (hfuel : q₀.length + es.length ≤ fuel) :
    ∃ m q, (start s).run calls fuel es = .ok m ∧ m.sched.Ready q ∧ q.Nodup ∧
      ((∀ c call, calls c = some call → m.pc c = .returned false) → Updated calls q₀ q) := by
  obtain ⟨m, q, hm, hinv⟩ := Inv.run hv (inv_start h) hcur hfuel
  refine ⟨m, q, hm, hinv.ready, hinv.ready.nodup, fun hall x => ?_⟩
  have happlied : ∀ c call, calls c = some call → (m.pc c).Applied := by
    intro c call hc
    rw [hall c call hc]
    trivial
  rw [hinv.mem]
  constructor
  · rintro (⟨hx, hnone⟩ | ⟨c, call, hc, hcreate, htask, -⟩)
    · exact Or.inl ⟨hx, fun c hc => hnone c hc (happlied c _ hc)⟩
    · exact Or.inr ⟨c, call, hc, hcreate, htask⟩
  · rintro (⟨hx, hnone⟩ | ⟨c, call, hc, hcreate, htask⟩)
    · exact Or.inl ⟨hx, fun c hc => absurd hc (hnone c)⟩
    · exact Or.inr ⟨c, call, hc, hcreate, htask, happlied c call hc⟩

end Interleaved

/-- Tasks 0 and 1 are queued, and 1 is running. -/
def pairQueued : Sched (Fin 3) where
  tasks := fun t => { (TaskData.zero : TaskData (Fin 3)) with
    nextNode := if t = 0 then some 1 else none }
  readyListHead := some 0
  cTask := some 1
  mem := fun _ => 0
  sreg := 0x80

/-- 0 creates 2, and 1 removes 0. -/
def createAndRemove (c : Fin 3) : Option (Call (Fin 3)) :=
  if c = 0 then some (.createTask 2 ⟨0x280, 64, [0x63], 1, 1, 0x140⟩)
  else if c = 1 then some (.removeTask 0)
  else none

/-- A switch between two statements. -/
def plainSwitch : Event := .switch ⟨fun _ => 0, 0x23D, 0x80⟩ 1000 1004

theorem updates_survive_createAndRemove : ∃ m q,
    (start pairQueued).run createAndRemove 9
        [.stmt, plainSwitch, .stmt, plainSwitch, .stmt, .stmt, .stmt] =
      .ok m ∧ m.sched.Ready q ∧ q.Nodup ∧
      ((∀ c call, createAndRemove c = some call → m.pc c = .returned false) →
        Updated createAndRemove [0, 1] q) := by
  have hready : pairQueued.Ready [0, 1] := ⟨rfl, rfl, rfl⟩
  refine updates_survive (.of_mem (by decide) (by decide)) hready ?_ (by decide)
  refine .cons rfl (current_stmt rfl fun _ _ => trivial) ?_
  refine .cons rfl trivial ?_
  refine .cons rfl (current_stmt rfl fun _ _ => trivial) ?_
  refine .cons rfl trivial ?_
  refine .cons rfl (current_stmt rfl fun _ _ => trivial) ?_
  have hnext : ∀ t, createAndRemove 1 = some (.removeTask t) → t = 0 := by
    intro t ht
    exact (Call.removeTask.inj (Option.some.inj ht)).symm
  refine .cons rfl (current_stmt rfl fun t ht => ?_) ?_
  · rw [hnext t ht]
    rfl
  exact .cons rfl (current_stmt rfl fun _ _ => trivial) trivial

/-- Tasks 0 to 3 are queued, and 0 is running. -/
def fourQueued : Sched (Fin 4) where
  tasks := fun t => { (TaskData.zero : TaskData (Fin 4)) with
    nextNode := if t = 3 then none else some (t + 1) }
  readyListHead := some 0
  cTask := some 0
  mem := fun _ => 0
  sreg := 0x80

/-- 0 removes 1, and 3 removes 2. -/
def removeNeighbours (c : Fin 4) : Option (Call (Fin 4)) :=
  if c = 0 then some (.removeTask 1) else if c = 3 then some (.removeTask 2) else none

/-- The interrupt comes when 0 has read `next_task`, and again when 3 has returned. -/
def resurrectingRun : List Event :=
  List.replicate 4 .stmt ++ List.replicate 3 plainSwitch ++ List.replicate 9 .stmt ++
    [plainSwitch] ++ List.replicate 3 .stmt

/-- Where the run ends. -/
def resurrected : Preempt (Fin 4) :=
  ((start fourQueued).run removeNeighbours 9 resurrectingRun).toOption.getD (start fourQueued)

/-- The removed task 2 is back, and 3 is lost. -/
theorem removed_task_returns : Callable removeNeighbours [0, 1, 2, 3] ∧
    fourQueued.Ready [0, 1, 2, 3] ∧
    (start fourQueued).run removeNeighbours 9 resurrectingRun = .ok resurrected ∧
      (∀ c call, removeNeighbours c = some call → resurrected.pc c = .returned false) ∧
      resurrected.sched.Ready [0, 2] ∧
      ¬ ∀ q, resurrected.sched.Ready q → Updated removeNeighbours [0, 1, 2, 3] q := by
  have hready : resurrected.sched.Ready [0, 2] := ⟨rfl, rfl, rfl⟩
  have hreturned : ∀ c, ∀ call ∈ removeNeighbours c, resurrected.pc c = .returned false := by
    decide
  refine ⟨.of_mem (by decide) (by decide), ⟨rfl, rfl, rfl, rfl, rfl⟩, rfl, hreturned, hready,
    fun hall => ?_⟩
  rcases (hall [0, 2] hready 2).mp (by decide) with ⟨-, hnone⟩ | ⟨c, call, hc, hcreate, -⟩
  · exact hnone 3 rfl
  · have hnocreate : ∀ c, ∀ call ∈ removeNeighbours c, ∃ t, call = .removeTask t := by
      intro c call hcall
      unfold removeNeighbours at hcall
      split at hcall
      · exact ⟨1, (Option.some.inj hcall).symm⟩
      · split at hcall
        · exact ⟨2, (Option.some.inj hcall).symm⟩
        · exact absurd hcall (by simp)
    obtain ⟨t, rfl⟩ := hnocreate c call hc
    exact hcreate

end Preempt

end AtmegaScheduler
