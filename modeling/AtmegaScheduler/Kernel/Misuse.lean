/-
Calls on blocks that are not where the call expects them.

`create_task` clears the link of its block, sets most other fields and only then looks at
the name.  So a call that fails has changed the block, and if the block was queued, the
list ends at it.  A call that succeeds on a queued block finds that block as the tail and
links it to itself, and no walk over the list ends after that.

`remove_task` searches for the task whose link is the one to remove.  Nobody's link is,
when the task is not queued, and the search reads the link of the null pointer before it
compares the pointer with null.
-/
import AtmegaScheduler.Kernel.Frame

namespace AtmegaScheduler

open Avr

namespace Sched

variable {τ : Type} [DecidableEq τ] {s s' : Sched τ} {q : List τ} {t : τ} {fuel : Nat}
  {a : CreateArgs} {args : List Arg}

/-! ### A `create_task` that fails -/

/-- Either `create_task` returns 1. -/
def Fails (s : Sched τ) (fuel : Nat) (t : τ) (a : CreateArgs) (args : List Arg) (s' : Sched τ) :
    Prop :=
  (args = [] ∧ s.createTask fuel t a = .ok (true, s')) ∨
    s.createTaskArgs fuel t a args = .ok (true, s')

/-- The block holds what `create_task` writes before it looks at the name. -/
structure AlreadyReset (d : TaskData τ) (a : CreateArgs) : Prop where
  timeSliceMs : d.timeSliceMs = a.sliceMs
  execTimeUs : d.execTimeUs = 0
  execTimeOverflowCount : d.execTimeOverflowCount = 0
  execStartTimeUs : d.execStartTimeUs = 0
  nextNode : d.nextNode = none
  stack : d.stack = ⟨a.stackArray, a.stackSize⟩
  state : d.state = .ready
  sreg : d.cpuState.sreg = 0x80

/-- The tasks reached from the head, the current task and every control block are the same. -/
structure Unchanged (s s' : Sched τ) : Prop where
  walks : ∀ l b, Seg s'.next s'.readyListHead l b ↔ Seg s.next s.readyListHead l b
  cTask : s'.cTask = s.cTask
  tasks : s'.tasks = s.tasks

/-- A plain call that fails has reset its block. -/
theorem createTask_fails (h : s.createTask fuel t a = .ok (true, s')) : s' = s.resetTask t a := by
  rcases createTask_cases h with ⟨-, hr⟩ | ⟨-, _, -, hr⟩
  · rw [(Prod.mk.inj hr).2]
    rfl
  · exact absurd (Prod.mk.inj hr).1 (by simp)

/-- **A call that fails** has reset its block and done nothing else. -/
theorem Fails.eq (h : s.Fails fuel t a args s') : s' = s.resetTask t a := by
  rcases h with ⟨-, h⟩ | h
  · exact createTask_fails h
  · rcases createTaskArgs_cases h with ⟨s₁, hs₁, hr⟩ | ⟨s₁, -, hr⟩
    · rw [(Prod.mk.inj hr).2, createTask_fails hs₁]
      rfl
    · exact absurd (Prod.mk.inj hr).1 (by simp)

theorem modify_eq_self {f : TaskData τ → TaskData τ} (h : f (s.tasks t) = s.tasks t) :
    s.modify t f = s := by
  unfold modify
  rw [h, Function.update_eq_self]

theorem resetTask_self (h : AlreadyReset (s.tasks t) a) : s.resetTask t a = s := by
  refine modify_eq_self ?_
  generalize s.tasks t = d at h
  obtain ⟨next, name, state, stack, ⟨regs, sp, sreg⟩, total, overflows, start, slice⟩ := d
  obtain ⟨rfl, rfl, rfl, rfl, rfl, rfl, rfl, rfl⟩ := h
  rfl

/--
**A failed `create_task` changes nothing if and only if there is nothing to change.**  After
any call of either overload that returns 1, the list, the current task and every control
block are as before exactly if the block held the values that the call writes before it
looks at the name.
-/
theorem failed_create_iff (h : s.Fails fuel t a args s') :
    Unchanged s s' ↔ AlreadyReset (s.tasks t) a := by
  rw [h.eq]
  constructor
  · intro hsame
    have hblock : (s.resetTask t a).tasks t = s.tasks t := congrFun hsame.tasks t
    rw [← hblock]
    unfold resetTask
    rw [modify_tasks_self]
    exact ⟨rfl, rfl, rfl, rfl, rfl, rfl, rfl, rfl⟩
  · intro hreset
    rw [resetTask_self hreset]
    exact ⟨fun _ _ => Iff.rfl, rfl, rfl⟩

/-- A name of 15 characters. -/
def longName : CreateArgs :=
  { stackArray := 0x200, stackSize := 64, name := List.replicate 15 0x61, priority := 1,
    sliceMs := 1, entry := 0x456 }

/-- The second of two calls that fail alike has nothing to change. -/
theorem failed_create_again : ∃ s', argsSched.Fails 0 () longName [] s' ∧
    s'.Fails 0 () longName [[7]] s' ∧ Unchanged s' s' := by
  have hagain : (argsSched.resetTask () longName).Fails 0 () longName [[7]]
      (argsSched.resetTask () longName) := by
    refine Or.inr ?_
    unfold createTaskArgs createTask
    rfl
  refine ⟨_, Or.inl ⟨rfl, rfl⟩, hagain, (failed_create_iff hagain).mpr ?_⟩
  exact ⟨rfl, rfl, rfl, rfl, rfl, rfl, rfl, rfl⟩

/-- Tasks 0 and 1 are queued. -/
def twoTasks : Sched (Fin 2) where
  tasks := fun t => { (TaskData.zero : TaskData (Fin 2)) with
    nextNode := if t = 0 then some 1 else none }
  readyListHead := some 0
  cTask := some 0
  mem := fun _ => 0
  sreg := 0x80

/-- A call that fails on the first of two queued tasks takes the second off the list. -/
theorem failed_create_truncates : ∃ s', twoTasks.Fails 0 0 longName [] s' ∧
    twoTasks.Ready [0, 1] ∧ s'.Ready [0] ∧ (s'.tasks 0).stack.size = 64 ∧
    (twoTasks.tasks 0).stack.size = 0 ∧ ¬ Unchanged twoTasks s' := by
  refine ⟨_, Or.inl ⟨rfl, rfl⟩, ⟨rfl, rfl, rfl⟩, ⟨rfl, rfl⟩, rfl, rfl, fun h => ?_⟩
  exact absurd (congrArg (fun tasks => (tasks 0).nextNode) h.tasks) (by decide)

/-! ### A `remove_task` of a task that is not queued -/

omit [DecidableEq τ] in
/-- No task of the list links to one outside it. -/
theorem Ready.next_ne {x : τ} (h : s.Ready q) (hx : x ∈ q) (ht : t ∉ q) : s.next x ≠ some t := by
  obtain ⟨l₁, l₂, rfl⟩ := List.append_of_mem hx
  rw [Chain.link h]
  intro hc
  exact ht (List.mem_append_right _ (List.mem_cons_of_mem _ (List.mem_of_head? hc)))

/-- A search for a link that no task of the chain has ends at the null pointer. -/
theorem seekPreceding_missing {target : Option τ} (l : List τ) :
    ∀ (fuel : Nat) (p : Option τ), Chain s.next p l → (∀ x ∈ l, s.next x ≠ target) →
      s.seekPreceding target fuel p =
        .error (if l.length < fuel then .nullDeref else .outOfFuel) := by
  induction l with
  | nil =>
      intro fuel p hp _
      rw [seg_nil.mp hp]
      cases fuel with
      | zero => rfl
      | succ k => rfl
  | cons x rest ih =>
      intro fuel p hp hne
      cases fuel with
      | zero =>
          rw [hp.1]
          rfl
      | succ k =>
          rw [hp.1, seekPreceding, if_pos (hne x List.mem_cons_self)]
          refine (ih k _ hp.2 fun y hy => hne y (List.mem_cons_of_mem _ hy)).trans ?_
          simp only [List.length_cons, Nat.succ_lt_succ_iff]

/--
**`remove_task` of a task that is not queued never returns 1.**  Whatever the list is, the
search or the write behind it goes through the null pointer.
-/
theorem removeTask_absent (h : s.Ready q) (ht : t ∉ q) :
    (∀ fuel b s', s.removeTask fuel (some t) ≠ .ok (b, s')) ∧
      ∀ fuel, q.length < fuel → s.removeTask fuel (some t) = .error .nullDeref := by
  have hhead : ¬ some t = s.getHeadTask := by
    rw [h.head]
    intro hc
    exact ht (List.mem_of_head? hc.symm)
  have hseek : ∀ fuel, s.removeTask fuel (some t) = .error .nullDeref ∨
      s.removeTask fuel (some t) = .error (if q.length < fuel then .nullDeref else .outOfFuel) := by
    intro fuel
    simp only [removeTask, removeTaskFromReadyList, if_neg hhead, findPrecedingTask]
    cases hhd : s.getHeadTask with
    | none => exact Or.inl rfl
    | some hd =>
        right
        have hchain : Chain s.next (some hd) q := by
          rw [← hhd]
          exact h
        dsimp only
        rw [seekPreceding_missing q fuel _ hchain fun x hx => h.next_ne hx ht]
  refine ⟨fun fuel b s' hok => ?_, fun fuel hfuel => ?_⟩
  · rcases hseek fuel with hnull | hnull
    · rw [hnull] at hok
      exact absurd hok (by simp)
    · rw [hnull] at hok
      exact absurd hok (by simp)
  · rcases hseek fuel with hnull | hnull
    · exact hnull
    · rw [hnull, if_pos hfuel]

/-- A task that was removed once is removed again. -/
theorem removeTask_twice : ∃ s', twoTasks.removeTask 3 (some 1) = .ok (false, s') ∧
    s'.Ready [0] ∧ s'.removeTask 3 (some 1) = .error .nullDeref := by
  have hready : twoTasks.Ready [0, 1] := ⟨rfl, rfl, rfl⟩
  obtain ⟨s', hs', hleft, -, -, -⟩ :=
    removeTask_ready hready (List.mem_cons_of_mem _ List.mem_cons_self)
    (by decide : _ ≤ 3)
  have hone : s'.Ready [0] := hleft
  exact ⟨s', hs', hone, (removeTask_absent hone (by decide)).2 3 (by decide)⟩

/-- No task exists, and one is removed. -/
theorem removeTask_empty : argsSched.Ready [] ∧
    argsSched.removeTask 1 (some ()) = .error .nullDeref ∧
    ∀ s', argsSched.removeTask 1 (some ()) ≠ .ok (true, s') := by
  have hnull : argsSched.removeTask 1 (some ()) = .error .nullDeref := rfl
  refine ⟨rfl, hnull, fun s' hok => ?_⟩
  rw [hnull] at hok
  exact absurd hok (by simp)

/-! ### A `create_task` of a queued task -/

/-- Walking from the head comes to a task that links to itself. -/
def Looped (s : Sched τ) : Prop :=
  ∃ l t, Seg s.next s.readyListHead l (some t) ∧ s.next t = some t

omit [DecidableEq τ] in
theorem Looped.of_eq (h : s.Looped) (hnext : s'.next = s.next)
    (hhead : s'.readyListHead = s.readyListHead) : s'.Looped := by
  unfold Looped
  rw [hnext, hhead]
  exact h

omit [DecidableEq τ] in
/-- **A list with a loop never reaches the null pointer.** -/
theorem Looped.not_ready (h : s.Looped) (q : List τ) : ¬ s.Ready q := by
  intro hq
  obtain ⟨l, t, hseg, hself⟩ := h
  obtain ⟨l₂, hl₂⟩ := Chain.rest hq hseg
  exact hl₂.ne_self hself

/-- The end of a list with a loop is never found. -/
theorem Looped.getTail (h : s.Looped) (fuel : Nat) : s.getTail fuel = .error .outOfFuel := by
  obtain ⟨l, t, hseg, hself⟩ := h
  have hloop : ∀ fuel, s.seekPreceding none fuel (some t) = .error .outOfFuel := by
    intro fuel
    induction fuel with
    | zero => rfl
    | succ k ih =>
        have hne : s.next t ≠ none := by
          rw [hself]
          simp
        rw [seekPreceding, if_pos hne]
        show s.seekPreceding none k (s.next t) = _
        rw [hself, ih]
  have hwalk : ∀ (l : List τ) (fuel : Nat) (p : Option τ), Seg s.next p l (some t) →
      s.seekPreceding none fuel p = .error .outOfFuel := by
    intro l
    induction l with
    | nil =>
        intro fuel p hp
        rw [seg_nil.mp hp, hloop]
    | cons x rest ih =>
        intro fuel p hp
        cases fuel with
        | zero =>
            rw [hp.1]
            rfl
        | succ k =>
            have hne : s.next x ≠ none := by
              intro hc
              have hrest := hp.2
              rw [hc] at hrest
              cases rest with
              | nil => exact absurd (seg_nil.mp hrest) (by simp)
              | cons y rest => exact absurd hrest.1 (by simp)
            rw [hp.1, seekPreceding, if_pos hne]
            exact ih k _ hp.2
  unfold Sched.getTail findPrecedingTask
  cases hhd : s.getHeadTask with
  | none =>
      have hhead : s.readyListHead = none := hhd
      rw [hhead] at hseg
      cases l with
      | nil => exact absurd (seg_nil.mp hseg) (by simp)
      | cons x rest => exact absurd hseg.1 (by simp)
  | some hd =>
      have hhead : s.readyListHead = some hd := hhd
      rw [hhead] at hseg
      exact hwalk l fuel _ hseg

/-- What a call of `create_task` has done to the list `q`. -/
inductive Outcome (q : List τ) (t : τ) (a : CreateArgs) (s' : Sched τ) : Prop
  /-- A task that was not queued is the last. -/
  | queued (new : t ∉ q) (name : a.name.length < confTaskNameMaxLength) (ready : s'.Ready (q ++ [t]))
  /-- The call has failed. -/
  | refused (new : t ∉ q) (name : confTaskNameMaxLength ≤ a.name.length) (ready : s'.Ready q)
  /-- The call has failed on a queued task, and the list ends there. -/
  | cut {l₁ l₂ : List τ} (old : q = l₁ ++ t :: l₂) (name : confTaskNameMaxLength ≤ a.name.length)
      (ready : s'.Ready (l₁ ++ [t]))
  /-- A queued task links to itself. -/
  | looped (old : t ∈ q) (name : a.name.length < confTaskNameMaxLength) (loop : s'.Looped)

omit [DecidableEq τ] in
theorem Outcome.of_links {s₁ : Sched τ} (h : SameLinks s₁ s') (ho : Outcome q t a s₁) :
    Outcome q t a s' := by
  cases ho with
  | queued new name ready => exact .queued new name (h.ready ready)
  | refused new name ready => exact .refused new name (h.ready ready)
  | cut old name ready => exact .cut old name (h.ready ready)
  | looped old name loop => exact .looped old name (loop.of_eq h.next h.head)

/-- Clearing the link of a queued task ends the list there. -/
theorem resetTask_cut {l₁ l₂ : List τ} (h : s.Ready (l₁ ++ t :: l₂)) :
    (s.resetTask t a).Ready (l₁ ++ [t]) := by
  have ht : t ∉ l₁ := Split.notMem_before h.nodup
  obtain ⟨c, hl₁, hc⟩ := seg_append.mp h
  unfold Ready
  rw [resetTask_next]
  refine seg_append.mpr ⟨c, hl₁.update ht, hc.1, ?_⟩
  rw [Function.update_self]
  exact seg_nil.mpr rfl

/-- Queueing a task that ends the list links it to itself. -/
theorem addTask_last {l₁ : List τ} (h : s.Ready (l₁ ++ [t])) (hfuel : l₁.length < fuel) :
    s.addTask fuel t = .ok (s.setNext t (some t)) ∧ (s.setNext t (some t)).Looped := by
  have htail : s.getTail fuel = .ok (some t) := findPrecedingTask_ready l₁ [] h hfuel
  obtain ⟨hd, hhd⟩ : ∃ hd, s.getHeadTask = some hd := by
    rw [h.head]
    cases l₁ with
    | nil => exact ⟨t, rfl⟩
    | cons x rest => exact ⟨x, rfl⟩
  have ht : t ∉ l₁ := Split.notMem_before h.nodup
  obtain ⟨c, hl₁, hc⟩ := seg_append.mp h
  refine ⟨?_, l₁, t, ?_, ?_⟩
  · unfold addTask
    rw [hhd]
    simp only [htail]
  · rw [setNext_next, setNext_readyListHead]
    rw [hc.1] at hl₁
    exact hl₁.update ht
  · rw [setNext_next, Function.update_self]

/-- **What the plain `create_task` does to the list.** -/
theorem createTask_outcome (h : s.Ready q) (t : τ) (a : CreateArgs) (hfuel : q.length ≤ fuel) :
    ∃ b s', s.createTask fuel t a = .ok (b, s') ∧ Outcome q t a s' := by
  by_cases hname : a.name.length < confTaskNameMaxLength
  · by_cases ht : t ∈ q
    · obtain ⟨l₁, l₂, rfl⟩ := List.append_of_mem ht
      have hcut : (s.cli.resetTask t a).Ready (l₁ ++ [t]) := resetTask_cut (s := s.cli) h
      have hprep : ((s.cli.resetTask t a).prepareContext t a).Ready (l₁ ++ [t]) :=
        hcut.of_eq (prepareContext_next _ t a) rfl
      rw [List.length_append, List.length_cons] at hfuel
      have hlt : l₁.length < fuel := by omega
      obtain ⟨hadd, hloop⟩ := addTask_last hprep hlt
      unfold createTask
      rw [if_neg (Nat.not_le.mpr hname)]
      simp only [hadd]
      refine ⟨false, _, rfl, .looped ht hname (hloop.of_eq ?_ ?_)⟩ <;> split <;> rfl
    · obtain ⟨s', hs', hready, -, -⟩ := createTask_ready h ht hname hfuel
      exact ⟨false, s', hs', .queued ht hname hready⟩
  · have hlong := Nat.le_of_not_lt hname
    refine ⟨true, _, createTask_refused hlong, ?_⟩
    by_cases ht : t ∈ q
    · obtain ⟨l₁, l₂, rfl⟩ := List.append_of_mem ht
      exact .cut rfl hlong (resetTask_cut h)
    · exact .refused ht hlong (resetTask_ready h ht)

/-- The variadic overload does to the list what the plain one does. -/
theorem createTaskArgs_outcome (h : s.Ready q) (t : τ) (a : CreateArgs) (args : List Arg)
    (hfuel : q.length ≤ fuel) :
    ∃ b s', s.createTaskArgs fuel t a args = .ok (b, s') ∧ Outcome q t a s' := by
  obtain ⟨b, s₁, hs₁, hout⟩ := createTask_outcome (s := s.cli) h t a hfuel
  unfold createTaskArgs
  simp only [hs₁]
  cases b with
  | true =>
      have hsreg : SameLinks s₁ (s₁.setSreg s.sreg) := ⟨rfl, rfl, rfl⟩
      exact ⟨true, _, rfl, hout.of_links hsreg⟩
  | false =>
      exact ⟨false, _, rfl, hout.of_links
        ((placeArgs_links s₁ t a.entry args).trans ⟨rfl, rfl, rfl⟩)⟩

/-! ### Runs with any creations -/

/-- `remove_task` is called on queued tasks only. -/
def Op.RemovesQueued (q : List τ) : Op τ → Prop
  | .removeTask t => t ∈ q
  | _ => True

/-- The block a call is about. -/
def Op.block : Op τ → Option τ
  | .createTask t _ => some t
  | .createTaskArgs t _ _ => some t
  | .removeTask t => some t
  | .startScheduler => none
  | .contextSwitch _ _ _ => none

/-- A created task is not queued, or the call fails and it is the last one. -/
def NewOrLast (q : List τ) (t : τ) (a : CreateArgs) : Prop :=
  t ∉ q ∨ (confTaskNameMaxLength ≤ a.name.length ∧ q.getLast? = some t)

/-- `create_task` is called on blocks it may be called on. -/
def Op.CreatesNew (q : List τ) : Op τ → Prop
  | .createTask t a => NewOrLast q t a
  | .createTaskArgs t a _ => NewOrLast q t a
  | _ => True

/-- Every creation of the run is of a block it may be of, as long as removals are of queued
tasks. -/
def AllNew : List τ → List (Op τ) → Prop
  | _, [] => True
  | q, op :: ops => op.RemovesQueued q → op.CreatesNew q ∧ AllNew (op.listAfter q) ops

/-- The list ends, and every walk over it does. -/
structure Ends (fuel : Nat) (s : Sched τ) (q : List τ) : Prop where
  ready : s.Ready q
  tail : ∃ p, s.getTail fuel = .ok p
  find : ∀ t, ∃ p, s.findTask fuel t = .ok p

/-- In every state of the run the list ends, and a call takes no task off it but its own, as
long as removals are of queued tasks. -/
def WalksEnd (fuel : Nat) : Sched τ → List (Op τ) → Prop
  | s, [] => ∃ q, Ends fuel s q
  | s, op :: ops => ∃ q, Ends fuel s q ∧ (op.RemovesQueued q →
      ∃ s', s.step fuel op = .ok s' ∧
        (∃ q', s'.Ready q' ∧ ∀ x ∈ q, op.block ≠ some x → x ∈ q') ∧ WalksEnd fuel s' ops)

omit [DecidableEq τ] in
/-- **One creation**: the list ends and has lost no other task exactly if the block was new,
or the call failed on the last one. -/
theorem Outcome.keeps_iff (h : Outcome q t a s') (hnd : q.Nodup) :
    (∃ q', s'.Ready q' ∧ ∀ x ∈ q, some t ≠ some x → x ∈ q') ↔ NewOrLast q t a := by
  cases h with
  | queued new name ready =>
      exact ⟨fun _ => Or.inl new, fun _ => ⟨_, ready, fun x hx _ => List.mem_append_left _ hx⟩⟩
  | refused new name ready =>
      exact ⟨fun _ => Or.inl new, fun _ => ⟨_, ready, fun x hx _ => hx⟩⟩
  | @cut l₁ l₂ old name ready =>
      subst old
      constructor
      · intro ⟨q', hq', hkept⟩
        have hq'' : q' = l₁ ++ [t] := Chain.unique hq' ready
        refine Or.inr ⟨name, (Split.getLast?_eq_iff hnd).mpr ?_⟩
        cases l₂ with
        | nil => rfl
        | cons y rest =>
            -- The task behind is off the list.
            exfalso
            have hyt : t ≠ y := by
              rintro rfl
              exact Split.notMem_behind hnd List.mem_cons_self
            have hy : y ∈ l₁ ++ t :: y :: rest := by simp
            have hmem := hkept y hy fun hc => hyt (Option.some.inj hc)
            rw [hq''] at hmem
            rcases List.mem_append.mp hmem with hy₁ | hy₁
            · have hnd' : ((l₁ ++ [t]) ++ y :: rest).Nodup := by
                rw [List.append_assoc]
                exact hnd
              exact Split.notMem_before hnd' (List.mem_append_left _ hy₁)
            · exact hyt (List.mem_singleton.mp hy₁).symm
      · intro hnew
        rcases hnew with hnew | ⟨-, hlast⟩
        · exact absurd (List.mem_append_right _ List.mem_cons_self) hnew
        · rw [Split.getLast?_eq_iff hnd] at hlast
          subst hlast
          exact ⟨_, ready, fun x hx _ => hx⟩
  | looped old name loop =>
      constructor
      · intro ⟨q', hq', _⟩
        exact absurd hq' (loop.not_ready q')
      · intro hnew
        rcases hnew with hnew | ⟨hlong, -⟩
        · exact absurd old hnew
        · exact absurd name (Nat.not_lt.mpr hlong)

omit [DecidableEq τ] in
theorem Outcome.ready_after (h : Outcome q t a s') (hnd : q.Nodup) (hnew : NewOrLast q t a) :
    s'.Ready (if a.name.length < confTaskNameMaxLength then q ++ [t] else q) := by
  cases h with
  | queued new name ready =>
      rw [if_pos name]
      exact ready
  | refused new name ready =>
      rw [if_neg (Nat.not_lt.mpr name)]
      exact ready
  | @cut l₁ l₂ old name ready =>
      subst old
      rw [if_neg (Nat.not_lt.mpr name)]
      rcases hnew with hnew | ⟨-, hlast⟩
      · exact absurd (List.mem_append_right _ List.mem_cons_self) hnew
      · rw [Split.getLast?_eq_iff hnd] at hlast
        subst hlast
        exact ready
  | looped old name loop =>
      rcases hnew with hnew | ⟨hlong, -⟩
      · exact absurd old hnew
      · exact absurd name (Nat.not_lt.mpr hlong)

/-- A call of a run, in one formula for both overloads of `create_task`. -/
structure Op.Done (op : Op τ) (q : List τ) (s' : Sched τ) : Prop where
  keeps : (∃ q', s'.Ready q' ∧ ∀ x ∈ q, op.block ≠ some x → x ∈ q') ↔ op.CreatesNew q
  after : op.CreatesNew q → s'.Ready (op.listAfter q)

theorem step_done (h : s.Ready q) (op : Op τ) (hop : op.RemovesQueued q) (hfuel : q.length ≤ fuel) :
    ∃ s', s.step fuel op = .ok s' ∧ op.Done q s' := by
  have hnd := h.nodup
  cases op with
  | createTask t a =>
      obtain ⟨b, s', hs', hout⟩ := createTask_outcome h t a hfuel
      exact ⟨s', by simp [step, hs', Except.map], hout.keeps_iff hnd, hout.ready_after hnd⟩
  | createTaskArgs t a args =>
      obtain ⟨b, s', hs', hout⟩ := createTaskArgs_outcome h t a args hfuel
      exact ⟨s', by simp [step, hs', Except.map], hout.keeps_iff hnd, hout.ready_after hnd⟩
  | removeTask t =>
      obtain ⟨s', hs', hready, -, -, -⟩ := removeTask_ready h hop hfuel
      refine ⟨s', by simp [step, hs', Except.map], iff_of_true ⟨_, hready, fun x hx hne => ?_⟩
        trivial, fun _ => hready⟩
      have hxt : x ≠ t := by
        rintro rfl
        exact hne rfl
      exact (List.mem_erase_of_ne hxt).mpr hx
  | startScheduler => exact ⟨s, rfl, iff_of_true ⟨q, h, fun _ hx _ => hx⟩ trivial, fun _ => h⟩
  | contextSwitch cpu usOut usIn =>
      obtain ⟨f₁, f₂, -⟩ := contextSwitch_links s cpu usOut usIn
      have hready := h.of_eq f₁ f₂
      exact ⟨_, rfl, iff_of_true ⟨q, hready, fun _ hx _ => hx⟩ trivial, fun _ => hready⟩

/-- `_find_task` walks to the task or to the end. -/
theorem seekTask_ends {target : Option τ} (l : List τ) :
    ∀ (fuel : Nat) (p : Option τ), Chain s.next p l → l.length < fuel →
      ∃ r, s.seekTask target fuel p = .ok r := by
  induction l with
  | nil =>
      intro fuel p hp hfuel
      obtain ⟨k, rfl⟩ : ∃ k, fuel = k + 1 := ⟨fuel - 1, by omega⟩
      rw [seg_nil.mp hp]
      exact ⟨none, rfl⟩
  | cons x rest ih =>
      intro fuel p hp hfuel
      rw [List.length_cons] at hfuel
      obtain ⟨k, rfl⟩ : ∃ k, fuel = k + 1 := ⟨fuel - 1, by omega⟩
      rw [hp.1, seekTask]
      by_cases hx : some x = target
      · rw [if_pos hx]
        exact ⟨_, rfl⟩
      · rw [if_neg hx]
        exact ih k _ hp.2 (by omega)

theorem Ready.ends (h : s.Ready q) (hfuel : q.length < fuel) : Ends fuel s q := by
  refine ⟨h, ?_, fun t => ?_⟩
  · rcases List.eq_nil_or_concat q with hnil | ⟨l, y, hly⟩
    · subst hnil
      have hhead : s.getHeadTask = none := h.head
      refine ⟨none, ?_⟩
      unfold getTail findPrecedingTask
      rw [hhead]
    · rw [List.concat_eq_append] at hly
      subst hly
      rw [List.length_append] at hfuel
      exact ⟨_, findPrecedingTask_ready l [] h (by omega)⟩
  · unfold findTask
    by_cases hhd : s.getHeadTask = t
    · rw [if_pos hhd]
      exact ⟨_, rfl⟩
    · rw [if_neg hhd]
      exact seekTask_ends q fuel _ h hfuel

/--
**When list walks end.**  In any run with removals of queued tasks, the list ends in every
state and no call takes a task off it but its own, exactly if every `create_task` is called
on a block that is not queued, or fails and is called on the last one.
-/
theorem walks_end_iff (ops : List (Op τ)) : ∀ {s : Sched τ} {q : List τ}, s.Ready q →
    q.length + ops.length < fuel → (WalksEnd fuel s ops ↔ AllNew q ops) := by
  induction ops with
  | nil =>
      intro s q h hfuel
      exact iff_of_true ⟨q, h.ends hfuel⟩ trivial
  | cons op ops ih =>
      intro s q h hfuel
      rw [List.length_cons] at hfuel
      have hlen := length_listAfter q op
      constructor
      · intro ⟨q', hends, hrun⟩ hop
        obtain rfl : q' = q := Chain.unique hends.ready h
        obtain ⟨s', hs', hkeeps, hrest⟩ := hrun hop
        obtain ⟨s₁, hs₁, hdone⟩ := step_done h op hop (by omega : q'.length ≤ fuel)
        obtain rfl : s₁ = s' := Except.ok.inj (hs₁.symm.trans hs')
        have hnew := hdone.keeps.mp hkeeps
        exact ⟨hnew, (ih (hdone.after hnew) (by omega)).mp hrest⟩
      · intro hnew
        refine ⟨q, h.ends (by omega), fun hop => ?_⟩
        obtain ⟨hfresh, hrest⟩ := hnew hop
        obtain ⟨s', hs', hdone⟩ := step_done h op hop (by omega : q.length ≤ fuel)
        exact ⟨s', hs', hdone.keeps.mpr hfresh, (ih (hdone.after hfresh) (by omega)).mpr hrest⟩

/-- A task is removed and created again, and then a call fails on it. -/
def reuseRun : List (Op (Fin 2)) :=
  [.removeTask 1, .createTaskArgs 1 ⟨0x240, 64, [0x62], 1, 1, 0x120⟩ [[7]], .createTask 1 longName,
    .removeTask 0]

theorem walksEnd_reuse : WalksEnd 7 twoTasks reuseRun := by
  have hready : twoTasks.Ready [0, 1] := ⟨rfl, rfl, rfl⟩
  refine (walks_end_iff reuseRun hready (by decide)).mpr ?_
  refine fun _ => ⟨trivial, fun _ => ⟨Or.inl (by decide), fun _ => ⟨?_, fun _ => ⟨trivial, trivial⟩⟩⟩⟩
  exact Or.inr ⟨by decide, by decide⟩

/-- The same task is created twice, and its link points to itself. -/
theorem created_twice_loops : ∃ s',
    argsSched.run 4 [.createTask () argsTask, .createTask () argsTask] = .ok s' ∧
      s'.next () = some () ∧ (∀ q, ¬ s'.Ready q) ∧
      ∀ fuel, s'.getTail fuel = .error .outOfFuel := by
  obtain ⟨s', hs', hself, hhead⟩ : ∃ s',
      argsSched.run 4 [.createTask () argsTask, .createTask () argsTask] = .ok s' ∧
        s'.next () = some () ∧ s'.readyListHead = some () := ⟨_, rfl, rfl, rfl⟩
  have hloop : s'.Looped := ⟨[], (), hhead, hself⟩
  exact ⟨s', hs', hself, hloop.not_ready, hloop.getTail⟩

end Sched

end AtmegaScheduler
