/-
The ready list is a duplicate-free sequence of tasks.

The source keeps it as intrusive pointers: the head in `ready_list_head`, the
rest in the tasks' `next_node` fields, the tail found by walking.  What it stands
for is a list: `create_task` appends, `remove_task` deletes, a context switch
does neither.  `Ready s q` says the pointers of `s` spell the list `q`, and each
operation is shown to carry it from the list before to the list after.

Tasks outside the list carry whatever link they were left with.  Nothing here
assumes anything of those links, because `create_task` clears the link of the
block it is given before it queues it.
-/
import Mathlib.Tactic.Set
import AtmegaScheduler.Lib.Chain
import AtmegaScheduler.Kernel.Scheduler

namespace AtmegaScheduler

open Avr

namespace Sched

variable {τ : Type}

/-- The pointers of `s` spell the ready list `q`. -/
def Ready (s : Sched τ) (q : List τ) : Prop := Chain s.next s.readyListHead q

theorem Ready.of_eq {s s' : Sched τ} {q : List τ} (h : s.Ready q) (hnext : s'.next = s.next)
    (hhead : s'.readyListHead = s.readyListHead) : s'.Ready q := by
  unfold Ready
  rw [hnext, hhead]
  exact h

theorem Ready.head {s : Sched τ} {q : List τ} (h : s.Ready q) : s.getHeadTask = q.head? :=
  Chain.head_eq h

/-- The two states have the same links and list pointers. -/
structure SameLinks (s s' : Sched τ) : Prop where
  next : s'.next = s.next
  head : s'.readyListHead = s.readyListHead
  cTask : s'.cTask = s.cTask

namespace SameLinks

theorem refl (s : Sched τ) : SameLinks s s := ⟨rfl, rfl, rfl⟩

theorem trans {s₁ s₂ s₃ : Sched τ} (h : SameLinks s₁ s₂) (k : SameLinks s₂ s₃) :
    SameLinks s₁ s₃ :=
  ⟨k.next.trans h.next, k.head.trans h.head, k.cTask.trans h.cTask⟩

theorem ready {s s' : Sched τ} {q : List τ} (h : SameLinks s s') (hq : s.Ready q) : s'.Ready q :=
  hq.of_eq h.next h.head

theorem getNextTask {s s' : Sched τ} (h : SameLinks s s') (t : Option τ) :
    s'.getNextTask t = s.getNextTask t := by
  cases t with
  | none => rfl
  | some t => exact congrFun h.next t

end SameLinks

/-- Where two lists split a chain, no earlier node links to what follows the split. -/
theorem Ready.link_ne {s : Sched τ} {l₁ l₂ : List τ} {p q : τ} (h : s.Ready (l₁ ++ p :: l₂))
    (hq : q ∈ l₁) : s.next q ≠ l₂.head? := by
  obtain ⟨u, v, rfl⟩ := List.append_of_mem hq
  have hlink : s.next q = (v ++ p :: l₂).head? := by
    have h' := h
    rw [List.append_assoc] at h'
    exact Chain.link h'
  have hnd : (v ++ p :: l₂).Nodup := by
    have h' := h.nodup
    rw [List.append_assoc] at h'
    exact (List.nodup_append.mp h').2.1.of_cons
  intro hc
  rw [hlink] at hc
  -- The successor of `q` comes before the split, so it cannot come after it too.
  cases v with
  | nil =>
      cases l₂ with
      | nil => simp at hc
      | cons x rest =>
          have hpx : p = x := by simpa using hc
          subst hpx
          simp at hnd
  | cons w rest =>
      cases l₂ with
      | nil => simp at hc
      | cons x rest' =>
          have hwx : w = x := by simpa using hc
          subst hwx
          simp at hnd

/-- A member other than the head has a predecessor. -/
theorem exists_pred {hd t : τ} {rest : List τ} (ht : t ∈ rest) (hne : hd ≠ t) :
    ∃ l₁ p l₂, hd :: rest = l₁ ++ p :: t :: l₂ ∧ t ∉ l₁ ++ [p] := by
  obtain ⟨u, v, huv, hu⟩ := List.eq_append_cons_of_mem ht
  rcases List.eq_nil_or_concat u with hnil | ⟨w, p, hwp⟩
  · subst hnil
    exact ⟨[], hd, v, by simp [huv], by simpa using fun hc => hne hc.symm⟩
  · rw [List.concat_eq_append] at hwp
    subst hwp
    refine ⟨hd :: w, p, v, by simp [huv], ?_⟩
    simp only [List.cons_append, List.mem_cons, not_or]
    exact ⟨fun hc => hne hc.symm, hu⟩

theorem empty_ready (tasks : τ → TaskData τ) (mem : Word → Byte) (sreg : Byte) :
    (empty tasks mem sreg).Ready [] := rfl

variable [DecidableEq τ]

theorem SameLinks.modify (s : Sched τ) (t : τ) (f : TaskData τ → TaskData τ)
    (h : (f (s.tasks t)).nextNode = (s.tasks t).nextNode) : SameLinks s (s.modify t f) :=
  ⟨modify_next s t f h, rfl, rfl⟩

/-! ### The walks -/

/-- The loop stops at the first node whose link is the target. -/
theorem seekPreceding_walk {s : Sched τ} {target : Option τ} {p : τ} (hp : s.next p = target) :
    ∀ (l : List τ) (fuel : Nat) (a : Option τ), Seg s.next a l (some p) →
      (∀ q ∈ l, s.next q ≠ target) → l.length < fuel →
      s.seekPreceding target fuel a = .ok (some p) := by
  intro l
  induction l with
  | nil =>
      intro fuel a ha _ hfuel
      obtain ⟨k, rfl⟩ : ∃ k, fuel = k + 1 := ⟨fuel - 1, by simp at hfuel; omega⟩
      rw [seg_nil.mp ha]
      unfold seekPreceding
      rw [if_neg (by simpa using hp)]
  | cons q rest ih =>
      intro fuel a ha hne hfuel
      obtain ⟨k, rfl⟩ : ∃ k, fuel = k + 1 := ⟨fuel - 1, by simp at hfuel; omega⟩
      rw [ha.1]
      unfold seekPreceding
      rw [if_pos (hne q (by simp))]
      exact ih k _ ha.2 (fun r hr => hne r (by simp [hr])) (by simpa using hfuel)

theorem findPrecedingTask_ready {s : Sched τ} (l₁ l₂ : List τ) {p : τ} {fuel : Nat}
    (h : s.Ready (l₁ ++ p :: l₂)) (hfuel : l₁.length < fuel) :
    s.findPrecedingTask fuel l₂.head? = .ok (some p) := by
  obtain ⟨c, hl, hc⟩ := seg_append.mp h
  have hseg : Seg s.next s.readyListHead l₁ (some p) := by
    rw [← hc.1]
    exact hl
  have hwalk := seekPreceding_walk (Chain.link h) l₁ fuel _ hseg (fun q hq => h.link_ne hq) hfuel
  unfold findPrecedingTask getHeadTask
  cases hhead : s.readyListHead with
  | none =>
      have hhd := h.head
      rw [getHeadTask, hhead] at hhd
      cases l₁ <;> simp at hhd
  | some hd =>
      rw [hhead] at hwalk
      exact hwalk

/-! ### `_add_task` and `_remove_task_from_ready_list` -/

theorem addTask_ready {s : Sched τ} {q : List τ} {t : τ} {fuel : Nat} (h : s.Ready q)
    (ht : t ∉ q) (hend : s.next t = none) (hfuel : q.length ≤ fuel) :
    ∃ s', s.addTask fuel t = .ok s' ∧ s'.Ready (q ++ [t]) ∧ s'.cTask = s.cTask ∧
      ∀ x, x ∉ q → s'.next x = s.next x := by
  rcases List.eq_nil_or_concat q with hnil | ⟨l, y, hly⟩
  · subst hnil
    have hhead : s.getHeadTask = none := h.head
    refine ⟨{ s with readyListHead := some t }, ?_, ?_, rfl, fun _ _ => rfl⟩
    · unfold addTask
      rw [hhead]
    · exact ⟨rfl, hend⟩
  · rw [List.concat_eq_append] at hly
    subst hly
    have htail : s.getTail fuel = .ok (some y) := by
      have hlen : l.length < fuel := by
        simp at hfuel
        omega
      exact findPrecedingTask_ready l [] h hlen
    obtain ⟨hd, hhd⟩ : ∃ hd, s.getHeadTask = some hd := by
      rw [h.head]
      cases l with
      | nil => exact ⟨y, rfl⟩
      | cons z rest => exact ⟨z, rfl⟩
    refine ⟨s.setNext y (some t), ?_, ?_, rfl, ?_⟩
    · unfold addTask
      rw [hhd]
      simp only [htail]
    · unfold Ready
      rw [setNext_next, setNext_readyListHead]
      exact Chain.snoc h ht hend
    · intro x hx
      have hxy : x ≠ y := by
        rintro rfl
        exact hx (by simp)
      rw [setNext_next, Function.update_of_ne hxy]

/-- Removing the head moves `ready_list_head` on and keeps the block's link. -/
theorem removeTask_head {s : Sched τ} {rest : List τ} {t : τ} (fuel : Nat)
    (h : s.Ready (t :: rest)) :
    s.removeTask fuel (some t) =
      .ok (false, ({ s with readyListHead := s.next t } : Sched τ).setTaskState (some t)
        .undefined) := by
  have hhead : s.getHeadTask = some t := h.head
  unfold removeTask removeTaskFromReadyList
  rw [hhead]
  simp [getNextTask]

/-- Removing any other task links its predecessor past it and clears its link. -/
theorem removeTask_behind {s : Sched τ} {l₁ l₂ : List τ} {p t : τ} {fuel : Nat}
    (h : s.Ready (l₁ ++ p :: t :: l₂)) (hfuel : l₁.length < fuel) :
    s.removeTask fuel (some t) =
      .ok (false, ((s.setNext p (s.next t)).setNext t none).setTaskState (some t)
        .undefined) := by
  have hfind : s.findPrecedingTask fuel (some t) = .ok (some p) :=
    findPrecedingTask_ready l₁ (t :: l₂) h hfuel
  have hne : ¬ some t = s.getHeadTask := by
    have hnd := h.nodup
    rw [h.head]
    intro hc
    cases l₁ with
    | nil =>
        have htp : t = p := by simpa using hc
        subst htp
        simp at hnd
    | cons x rest =>
        have htx : t = x := by simpa using hc
        subst htx
        simp at hnd
  simp only [removeTask, removeTaskFromReadyList, if_neg hne, hfind]
  rfl

/-- The link `remove_task` leaves in a block: kept at the head, cleared elsewhere. -/
def leftLink (q : List τ) (t : τ) : Option τ :=
  if q.head? = some t then (q.erase t).head? else none

theorem removeTask_ready {s : Sched τ} {q : List τ} {t : τ} {fuel : Nat} (h : s.Ready q)
    (ht : t ∈ q) (hfuel : q.length ≤ fuel) :
    ∃ s', s.removeTask fuel (some t) = .ok (false, s') ∧ s'.Ready (q.erase t) ∧
      s'.cTask = s.cTask ∧ s'.next t = leftLink q t ∧ ∀ x, x ∉ q → s'.next x = s.next x := by
  cases q with
  | nil => simp at ht
  | cons hd rest =>
      by_cases hhd : hd = t
      · subst hhd
        have hlink : s.next hd = rest.head? := Chain.head_eq h.2
        refine ⟨_, removeTask_head fuel h, ?_, by simp, ?_, ?_⟩
        · refine Ready.of_eq (s := { s with readyListHead := s.next hd }) ?_ (by simp) (by simp)
          rw [List.erase_cons_head]
          exact h.2
        · rw [setTaskState_next]
          show s.next hd = leftLink (hd :: rest) hd
          simp [leftLink, hlink]
        · intro x _
          rw [setTaskState_next]
          rfl
      · have htr : t ∈ rest := by
          rcases List.mem_cons.mp ht with rfl | htr
          · exact absurd rfl hhd
          · exact htr
        obtain ⟨l₁, p, l₂, hsplit, htl⟩ := exists_pred htr hhd
        have hready := h
        rw [hsplit] at hready
        have hlen : l₁.length < fuel := by
          have := congrArg List.length hsplit
          simp at this hfuel
          omega
        have herase : (hd :: rest).erase t = l₁ ++ p :: l₂ := by
          rw [hsplit, show l₁ ++ p :: t :: l₂ = (l₁ ++ [p]) ++ t :: l₂ by simp,
            List.erase_append_right _ htl]
          simp
        have htnew : t ∉ l₁ ++ p :: l₂ := by
          rw [← herase]
          exact h.nodup.not_mem_erase
        refine ⟨_, removeTask_behind hready hlen, ?_, by simp, ?_, ?_⟩
        · rw [herase]
          refine Ready.of_eq (s := (s.setNext p (s.next t)).setNext t none) ?_ (by simp) (by simp)
          unfold Ready
          rw [setNext_next, setNext_next]
          exact Seg.update (Chain.unlink hready) htnew
        · rw [setTaskState_next, setNext_next, Function.update_self, leftLink, if_neg]
          simpa using hhd
        · intro x hx
          rw [hsplit] at hx
          have hxt : x ≠ t := by
            rintro rfl
            exact hx (by simp)
          have hxp : x ≠ p := by
            rintro rfl
            exact hx (by simp)
          rw [setTaskState_next, setNext_next, setNext_next, Function.update_of_ne hxt,
            Function.update_of_ne hxp]

/-! ### `create_task` -/

@[simp] theorem prepareContext_next (s : Sched τ) (t : τ) (a : CreateArgs) :
    (s.prepareContext t a).next = s.next :=
  modify_next s t
    (fun d => { d with
      name := strcpy d.name a.name
      cpuState := { d.cpuState with sp := a.stackArray + (a.stackSize - 3) } }) rfl

/-- `create_task` clears the link of its block before it queues it. -/
theorem resetTask_next (s : Sched τ) (t : τ) (a : CreateArgs) :
    (s.resetTask t a).next = Function.update s.next t none := by
  funext x
  by_cases hx : x = t
  · subst hx
    simp [next, resetTask]
  · simp [next, resetTask, modify_tasks_of_ne _ _ _ hx, Function.update_of_ne hx]

theorem createTask_ready {s : Sched τ} {q : List τ} {t : τ} {a : CreateArgs} {fuel : Nat}
    (h : s.Ready q) (ht : t ∉ q) (hname : a.name.length < confTaskNameMaxLength)
    (hfuel : q.length ≤ fuel) :
    ∃ s', s.createTask fuel t a = .ok (false, s') ∧ s'.Ready (q ++ [t]) ∧
      s'.cTask = s.cTask.or (q ++ [t]).head? ∧ ∀ x, x ∉ q ++ [t] → s'.next x = s.next x := by
  have hprep : ((s.cli.resetTask t a).prepareContext t a).Ready q := by
    unfold Ready
    rw [prepareContext_next, resetTask_next]
    exact Seg.update h ht
  have hend : ((s.cli.resetTask t a).prepareContext t a).next t = none := by
    rw [prepareContext_next, resetTask_next, Function.update_self]
  obtain ⟨s', hadd, hready, hc, hnext⟩ := addTask_ready hprep ht hend hfuel
  have hc' : s'.cTask = s.cTask := hc
  refine ⟨(if s'.cTask = none then { s' with cTask := s'.getHeadTask } else s').setSreg s.sreg,
    ?_, ?_, ?_, ?_⟩
  · unfold createTask
    rw [if_neg (Nat.not_le.mpr hname)]
    simp only [hadd]
  · refine hready.of_eq ?_ ?_ <;> split <;> rfl
  · rw [← hready.head, ← hc']
    cases hcur : s'.cTask <;> simp [hcur]
  · intro x hx
    have hxt : x ≠ t := by
      rintro rfl
      exact hx (by simp)
    have hs' : s'.next x = s.next x := by
      rw [hnext x (fun hq => hx (by simp [hq])), prepareContext_next, resetTask_next,
        Function.update_of_ne hxt, cli_next]
    rw [setSreg_next, ← hs']
    split <;> rfl

/-- A name that does not fit is found when the block has been reset already. -/
theorem createTask_refused {s : Sched τ} {t : τ} {a : CreateArgs} {fuel : Nat}
    (hname : confTaskNameMaxLength ≤ a.name.length) :
    s.createTask fuel t a = .ok (true, s.resetTask t a) := by
  unfold createTask
  rw [if_pos hname]
  rfl

theorem createTaskArgs_refused {s : Sched τ} {t : τ} {a : CreateArgs} {fuel : Nat}
    (args : List Arg) (hname : confTaskNameMaxLength ≤ a.name.length) :
    s.createTaskArgs fuel t a args = .ok (true, s.resetTask t a) := by
  unfold createTaskArgs
  rw [createTask_refused hname]
  rfl

/-- A block that is not queued can be reset. -/
theorem resetTask_ready {s : Sched τ} {q : List τ} {t : τ} {a : CreateArgs} (h : s.Ready q)
    (ht : t ∉ q) : (s.resetTask t a).Ready q := by
  unfold Ready
  rw [resetTask_next]
  exact Seg.update h ht

/-- Laying out the arguments writes registers and stack bytes, never a link. -/
theorem placeArgs_links (s : Sched τ) (t : τ) (entry : Word) (args : List Arg) :
    SameLinks s (s.placeArgs t entry args) where
  next :=
    placeArgs_keeps (f := next) (fun s _ _ => modify_next s t _ rfl) (fun _ _ => rfl) s entry args
  head := placeArgs_keeps (f := readyListHead) (fun _ _ _ => rfl) (fun _ _ => rfl) s entry args
  cTask := placeArgs_keeps (f := cTask) (fun _ _ _ => rfl) (fun _ _ => rfl) s entry args

/-- The variadic overload does to the list what the plain one does. -/
theorem createTaskArgs_ready {s : Sched τ} {q : List τ} {t : τ} {a : CreateArgs}
    (args : List Arg) {fuel : Nat} (h : s.Ready q) (ht : t ∉ q)
    (hname : a.name.length < confTaskNameMaxLength) (hfuel : q.length ≤ fuel) :
    ∃ s', s.createTaskArgs fuel t a args = .ok (false, s') ∧ s'.Ready (q ++ [t]) ∧
      s'.cTask = s.cTask.or (q ++ [t]).head? ∧ ∀ x, x ∉ q ++ [t] → s'.next x = s.next x := by
  obtain ⟨s', hcreate, hready, hc, hnext⟩ :=
    createTask_ready (s := s.cli) (a := a) h ht hname hfuel
  have hlinks := placeArgs_links s' t a.entry args
  refine ⟨(s'.placeArgs t a.entry args).setSreg (setI s.sreg), ?_, hlinks.ready hready, ?_, ?_⟩
  · unfold createTaskArgs
    simp only [hcreate]
  · rw [setSreg_cTask, hlinks.cTask, hc, cli_cTask]
  · intro x hx
    rw [setSreg_next, hlinks.next, hnext x hx, cli_next]

/-! ### A context switch changes no link -/

theorem saveCtx_links (s : Sched τ) (cpu : CpuRegisters) : SameLinks s (s.saveCtx cpu) := by
  unfold saveCtx
  cases s.cTask with
  | none => exact SameLinks.refl s
  | some t => exact SameLinks.modify s t _ rfl

omit [DecidableEq τ] in
theorem charge_nextNode (d : TaskData τ) (time : BitVec 32) :
    (charge d time).nextNode = d.nextNode := by
  cases d with
  | mk n name state stack cpu total overflows start slice =>
      -- Kept away from a comparison of the two records, whose accounts differ.
      show (charge ⟨n, name, state, stack, cpu, total, overflows, start, slice⟩ time).nextNode = n
      rfl

theorem calculateTaskExecutionTime_links (s : Sched τ) (task : Option τ) (us : BitVec 32) :
    SameLinks s (s.calculateTaskExecutionTime task us) := by
  unfold calculateTaskExecutionTime
  cases task with
  | none => exact SameLinks.refl s
  | some t =>
      exact SameLinks.modify s t (fun d => charge d (execTime d.execStartTimeUs us))
        (charge_nextNode _ _)

theorem stampStart_links (s : Sched τ) (us : BitVec 32) : SameLinks s (s.stampStart us) := by
  unfold stampStart
  cases s.cTask with
  | none => exact SameLinks.refl s
  | some t => exact SameLinks.modify s t _ rfl

omit [DecidableEq τ] in
theorem scheduleRoundRobin_cTask (s : Sched τ) :
    s.scheduleRoundRobin.cTask = (s.getNextTask s.cTask).or s.getHeadTask := by
  unfold scheduleRoundRobin
  cases s.getNextTask s.cTask <;> rfl

/-- **A context switch only moves `c_task`:** to its successor, or else to the head. -/
theorem contextSwitch_links (s : Sched τ) (cpu : CpuRegisters) (usOut usIn : BitVec 32) :
    (s.contextSwitch cpu usOut usIn).next = s.next ∧
      (s.contextSwitch cpu usOut usIn).readyListHead = s.readyListHead ∧
      (s.contextSwitch cpu usOut usIn).cTask = (s.getNextTask s.cTask).or s.getHeadTask := by
  unfold contextSwitch
  set s₂ := (s.saveCtx cpu).calculateTaskExecutionTime s.cTask usOut
  have h : SameLinks s s₂ :=
    (saveCtx_links s cpu).trans (calculateTaskExecutionTime_links _ s.cTask usOut)
  have hstamp := stampStart_links s₂.scheduleRoundRobin usIn
  have hsched : s₂.scheduleRoundRobin.next = s₂.next ∧
      s₂.scheduleRoundRobin.readyListHead = s₂.readyListHead := by
    unfold scheduleRoundRobin
    cases s₂.getNextTask s₂.cTask <;> exact ⟨rfl, rfl⟩
  refine ⟨?_, ?_, ?_⟩
  · rw [hstamp.next, hsched.1, h.next]
  · rw [hstamp.head, hsched.2, h.head]
  · rw [hstamp.cTask, scheduleRoundRobin_cTask, h.cTask, h.getNextTask, getHeadTask, h.head]
    rfl

/-! ### Runs -/

/-- What an operation does to the list. -/
def Op.queue (q : List τ) : Op τ → List τ
  | .createTask task _ => q ++ [task]
  | .createTaskArgs task _ _ => q ++ [task]
  | .removeTask task => q.erase task
  | .startScheduler => q
  | .contextSwitch _ _ _ => q

/-- Created tasks are not queued and have a name that fits; removed ones are queued. -/
def Op.Allowed (q : List τ) : Op τ → Prop
  | .createTask task a => task ∉ q ∧ a.name.length < confTaskNameMaxLength
  | .createTaskArgs task a _ => task ∉ q ∧ a.name.length < confTaskNameMaxLength
  | .removeTask task => task ∈ q
  | .startScheduler => True
  | .contextSwitch _ _ _ => True

instance (q : List τ) : (op : Op τ) → Decidable (op.Allowed q)
  | .createTask task a => inferInstanceAs (Decidable (task ∉ q ∧ a.name.length < _))
  | .createTaskArgs task a _ => inferInstanceAs (Decidable (task ∉ q ∧ a.name.length < _))
  | .removeTask task => inferInstanceAs (Decidable (task ∈ q))
  | .startScheduler => .isTrue trivial
  | .contextSwitch _ _ _ => .isTrue trivial

/-- The list after a run. -/
def queueAfter (q : List τ) (ops : List (Op τ)) : List τ := ops.foldl Op.queue q

/-- Every operation of the run is allowed where it happens. -/
def Allowed : List τ → List (Op τ) → Prop
  | _, [] => True
  | q, op :: ops => op.Allowed q ∧ Allowed (op.queue q) ops

instance decidableAllowed : (q : List τ) → (ops : List (Op τ)) → Decidable (Allowed q ops)
  | _, [] => .isTrue trivial
  | q, op :: ops =>
      haveI := decidableAllowed (op.queue q) ops
      inferInstanceAs (Decidable (op.Allowed q ∧ Allowed (op.queue q) ops))

theorem allowed_append {q : List τ} {ops₁ ops₂ : List (Op τ)} :
    Allowed q (ops₁ ++ ops₂) ↔ Allowed q ops₁ ∧ Allowed (queueAfter q ops₁) ops₂ := by
  induction ops₁ generalizing q with
  | nil => simp [Allowed, queueAfter]
  | cons op rest ih =>
      show op.Allowed q ∧ Allowed (op.queue q) (rest ++ ops₂) ↔ _
      rw [ih, ← and_assoc]
      rfl

theorem queueAfter_append (q : List τ) (ops₁ ops₂ : List (Op τ)) :
    queueAfter q (ops₁ ++ ops₂) = queueAfter (queueAfter q ops₁) ops₂ :=
  List.foldl_append

theorem length_queue_le (q : List τ) (op : Op τ) : (op.queue q).length ≤ q.length + 1 := by
  cases op <;> simp [Op.queue, List.length_erase]
  split <;> omega

theorem length_queueAfter_le (q : List τ) (ops : List (Op τ)) :
    (queueAfter q ops).length ≤ q.length + ops.length := by
  induction ops generalizing q with
  | nil => exact Nat.le_refl _
  | cons op rest ih =>
      have hop := length_queue_le q op
      have hrest := ih (op.queue q)
      show (queueAfter (op.queue q) rest).length ≤ q.length + (rest.length + 1)
      omega

theorem step_ready {s : Sched τ} {q : List τ} {op : Op τ} {fuel : Nat} (h : s.Ready q)
    (hop : op.Allowed q) (hfuel : q.length ≤ fuel) :
    ∃ s', s.step fuel op = .ok s' ∧ s'.Ready (op.queue q) := by
  cases op with
  | createTask t a =>
      obtain ⟨s', hs', hready, -, -⟩ := createTask_ready h hop.1 hop.2 hfuel
      exact ⟨s', by simp [step, hs', Except.map], hready⟩
  | createTaskArgs t a args =>
      obtain ⟨s', hs', hready, -, -⟩ := createTaskArgs_ready args h hop.1 hop.2 hfuel
      exact ⟨s', by simp [step, hs', Except.map], hready⟩
  | removeTask t =>
      obtain ⟨s', hs', hready, -, -, -⟩ := removeTask_ready h hop hfuel
      exact ⟨s', by simp [step, hs', Except.map], hready⟩
  | startScheduler => exact ⟨s, rfl, h⟩
  | contextSwitch cpu usOut usIn =>
      obtain ⟨f₁, f₂, -⟩ := contextSwitch_links s cpu usOut usIn
      exact ⟨_, rfl, h.of_eq f₁ f₂⟩

theorem run_ready {fuel : Nat} (ops : List (Op τ)) :
    ∀ {s : Sched τ} {q : List τ}, s.Ready q → Allowed q ops → q.length + ops.length ≤ fuel →
      ∃ s', s.run fuel ops = .ok s' ∧ s'.Ready (queueAfter q ops) := by
  induction ops with
  | nil => intro s q h _ _; exact ⟨s, rfl, h⟩
  | cons op rest ih =>
      intro s q h hops hfuel
      simp only [List.length_cons] at hfuel
      obtain ⟨s', hs', hready⟩ := step_ready h hops.1 (by omega : q.length ≤ fuel)
      have hlen := length_queue_le q op
      obtain ⟨s'', hs'', hready'⟩ := ih hready hops.2 (by omega)
      refine ⟨s'', ?_, hready'⟩
      unfold run
      rw [hs']
      exact hs''

/--
**The ready list refines a duplicate-free sequence.**  After any run of allowed
operations from the empty scheduler, following the links from `ready_list_head`
visits exactly the abstract list, ends in null and visits no task twice, and no
walk on the way read through null or failed to end.
-/
theorem run_refines (tasks : τ → TaskData τ) (mem : Word → Byte) (sreg : Byte)
    (ops : List (Op τ)) (fuel : Nat) (hops : Allowed [] ops) (hfuel : ops.length ≤ fuel) :
    ∃ s, (empty tasks mem sreg).run fuel ops = .ok s ∧
      Chain s.next s.readyListHead (queueAfter [] ops) ∧ (queueAfter [] ops).Nodup := by
  obtain ⟨s, hs, hready⟩ :=
    run_ready ops (empty_ready tasks mem sreg) hops (by simpa using hfuel)
  exact ⟨s, hs, hready, hready.nodup⟩

/-- A head removed with its link still set, and then created again. -/
def recreateRun : List (Op (Fin 2)) :=
  [.createTask 0 ⟨0x200, 64, [0x61], 1, 1, 0x100⟩, .createTask 1 ⟨0x240, 64, [0x62], 1, 1, 0x120⟩,
    .removeTask 0, .createTask 0 ⟨0x200, 64, [0x61], 1, 1, 0x100⟩]

theorem run_refines_recreate :
    ∃ s, (empty (fun _ => TaskData.zero) (fun _ => 0) 0x80).run 4 recreateRun = .ok s ∧
      Chain s.next s.readyListHead [1, 0] ∧ [(1 : Fin 2), 0].Nodup :=
  run_refines (fun _ => TaskData.zero) (fun _ => 0) 0x80 recreateRun 4 (by decide) (by decide)

/-! ### Runs in which a creation may fail -/

/-- The list after a call that may fail. -/
def Op.listAfter (q : List τ) : Op τ → List τ
  | .createTask t a => if a.name.length < confTaskNameMaxLength then q ++ [t] else q
  | .createTaskArgs t a _ => if a.name.length < confTaskNameMaxLength then q ++ [t] else q
  | .removeTask t => q.erase t
  | .startScheduler => q
  | .contextSwitch _ _ _ => q

/-- Created tasks are not queued, whatever their names; removed ones are queued. -/
def Op.Callable (q : List τ) : Op τ → Prop
  | .createTask task _ => task ∉ q
  | .createTaskArgs task _ _ => task ∉ q
  | .removeTask task => task ∈ q
  | .startScheduler => True
  | .contextSwitch _ _ _ => True

instance (q : List τ) : (op : Op τ) → Decidable (op.Callable q)
  | .createTask task _ => inferInstanceAs (Decidable (task ∉ q))
  | .createTaskArgs task _ _ => inferInstanceAs (Decidable (task ∉ q))
  | .removeTask task => inferInstanceAs (Decidable (task ∈ q))
  | .startScheduler => .isTrue trivial
  | .contextSwitch _ _ _ => .isTrue trivial

/-- Every operation of the run is callable where it happens. -/
def Callable : List τ → List (Op τ) → Prop
  | _, [] => True
  | q, op :: ops => op.Callable q ∧ Callable (op.listAfter q) ops

instance decidableCallable : (q : List τ) → (ops : List (Op τ)) → Decidable (Callable q ops)
  | _, [] => .isTrue trivial
  | q, op :: ops =>
      haveI := decidableCallable (op.listAfter q) ops
      inferInstanceAs (Decidable (op.Callable q ∧ Callable (op.listAfter q) ops))

theorem length_listAfter (q : List τ) (op : Op τ) : (op.listAfter q).length ≤ q.length + 1 := by
  have hcreate : ∀ (t : τ) (a : CreateArgs),
      (if a.name.length < confTaskNameMaxLength then q ++ [t] else q).length ≤ q.length + 1 := by
    intro t a
    by_cases hname : a.name.length < confTaskNameMaxLength
    · rw [if_pos hname, List.length_append]
      exact Nat.le_refl _
    · rw [if_neg hname]
      exact Nat.le_succ _
  cases op with
  | createTask t a => exact hcreate t a
  | createTaskArgs t a args => exact hcreate t a
  | removeTask t => exact Nat.le_trans List.length_erase_le (Nat.le_succ _)
  | startScheduler => exact Nat.le_succ _
  | contextSwitch cpu usOut usIn => exact Nat.le_succ _

end Sched

end AtmegaScheduler
