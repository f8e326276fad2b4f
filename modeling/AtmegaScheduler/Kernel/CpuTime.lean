/-
The account of a task's CPU time.

`calculate_task_execution_time` adds the length of a slice to a 32-bit account.  The
length is right even when the clock wraps during the slice.  The account is right until
it overflows: the overflow is counted, but the account starts afresh with the slice that
overflowed it, and what it held before is lost.

What is charged is the time since the stamp that the last dispatch left in the control
block.  Both ways to switch leave one.  `kernel_start` does not, so the first slice of
the first task is measured from the zero that `create_task` put there.
-/
import AtmegaScheduler.Kernel.ReadyList

namespace AtmegaScheduler

open Avr

/-- What the two fields of the account stand for, in microseconds. -/
def TaskData.account {τ : Type} (d : TaskData τ) : Nat :=
  d.execTimeOverflowCount.toNat * 2 ^ 32 + d.execTimeUs.toNat

namespace Sched

/-! ### One slice -/

/-- **The length of a slice** is the difference of the two readings modulo `2 ^ 32`. -/
theorem execTime_eq (start now : BitVec 32) : execTime start now = now - start := by
  unfold execTime
  by_cases hle : now ≥ start
  · rw [if_pos hle]
  · rw [if_neg hle]
    grind

theorem accountOverflows_iff (total time : BitVec 32) :
    accountOverflows total time = true ↔ 2 ^ 32 ≤ total.toNat + time.toNat := by
  have hmax : (0xFFFFFFFF#32 - time).toNat = 2 ^ 32 - 1 - time.toNat := by
    have hlt := time.isLt
    rw [BitVec.toNat_sub, BitVec.toNat_ofNat]
    omega
  unfold accountOverflows
  rw [decide_eq_true_eq, gt_iff_lt, BitVec.lt_def, hmax]
  have hlt := time.isLt
  omega

variable {τ : Type}

theorem charge_account (d : TaskData τ) (time : BitVec 32) :
    (charge d time).execTimeUs =
        (if accountOverflows d.execTimeUs time then time else d.execTimeUs + time) ∧
      (charge d time).execTimeOverflowCount =
        if accountOverflows d.execTimeUs time then d.execTimeOverflowCount + 1
        else d.execTimeOverflowCount :=
  ⟨rfl, rfl⟩

/-- A slice that the account has room for. -/
theorem charge_fits (d : TaskData τ) (time : BitVec 32)
    (h : d.execTimeUs.toNat + time.toNat < 2 ^ 32) :
    (charge d time).execTimeUs.toNat = d.execTimeUs.toNat + time.toNat ∧
      (charge d time).execTimeOverflowCount = d.execTimeOverflowCount := by
  have hno : ¬ accountOverflows d.execTimeUs time = true :=
    mt (accountOverflows_iff _ _).mp (Nat.not_le.mpr h)
  obtain ⟨hus, hcount⟩ := charge_account d time
  rw [hus, hcount, if_neg hno, if_neg hno, BitVec.toNat_add, Nat.mod_eq_of_lt h]
  exact ⟨rfl, rfl⟩

/-- A slice that the account has no room for. -/
theorem charge_overflows (d : TaskData τ) (time : BitVec 32)
    (h : 2 ^ 32 ≤ d.execTimeUs.toNat + time.toNat) :
    (charge d time).execTimeUs = time ∧
      (charge d time).execTimeOverflowCount = d.execTimeOverflowCount + 1 := by
  have hyes : accountOverflows d.execTimeUs time = true := (accountOverflows_iff _ _).mpr h
  obtain ⟨hus, hcount⟩ := charge_account d time
  rw [hus, hcount, if_pos hyes, if_pos hyes]
  exact ⟨rfl, rfl⟩

/-! ### Many slices -/

/-- One call of `calculate_task_execution_time`: the stamp in the control block, and the
reading of the clock. -/
abbrev ChargeCall := BitVec 32 × BitVec 32

/-- The true length of the slice. -/
def sliceLength (c : ChargeCall) : Nat := (c.2 - c.1).toNat

variable [DecidableEq τ]

/-- The call. -/
def chargeCall (t : τ) (s : Sched τ) (c : ChargeCall) : Sched τ :=
  (s.modify t fun d => { d with execStartTimeUs := c.1 }).calculateTaskExecutionTime (some t) c.2

/-- The calls one after another. -/
def chargeCalls (s : Sched τ) (t : τ) (calls : List ChargeCall) : Sched τ :=
  calls.foldl (chargeCall t) s

/-- The fields of the account after a call. -/
theorem chargeCall_tasks (s : Sched τ) (t : τ) (c : ChargeCall) :
    (chargeCall t s c).tasks t =
      charge { s.tasks t with execStartTimeUs := c.1 } (c.2 - c.1) := by
  unfold chargeCall calculateTaskExecutionTime
  dsimp only
  rw [modify_tasks_self, modify_tasks_self, execTime_eq]

theorem chargeCall_fits {s : Sched τ} {t : τ} {c : ChargeCall}
    (h : (s.tasks t).execTimeUs.toNat + sliceLength c < 2 ^ 32) :
    ((chargeCall t s c).tasks t).execTimeUs.toNat = (s.tasks t).execTimeUs.toNat + sliceLength c ∧
      ((chargeCall t s c).tasks t).account = (s.tasks t).account + sliceLength c := by
  obtain ⟨hus, hcount⟩ := charge_fits { s.tasks t with execStartTimeUs := c.1 }
    (c.2 - c.1) h
  rw [← chargeCall_tasks] at hus hcount
  refine ⟨hus, ?_⟩
  unfold TaskData.account
  rw [hus, hcount, Nat.add_assoc]
  rfl

/-- A call that overflows the account makes it wrong by what the account lacked to
`2 ^ 32`. -/
theorem chargeCall_overflows {s : Sched τ} {t : τ} {c : ChargeCall}
    (h : 2 ^ 32 ≤ (s.tasks t).execTimeUs.toNat + sliceLength c) :
    ((chargeCall t s c).tasks t).account % 2 ^ 40 ≠
      ((s.tasks t).account + sliceLength c) % 2 ^ 40 := by
  obtain ⟨hus, hcount⟩ := charge_overflows { s.tasks t with execStartTimeUs := c.1 }
    (c.2 - c.1) h
  rw [← chargeCall_tasks] at hus hcount
  have hlen : (c.2 - c.1).toNat = sliceLength c := rfl
  have htotal := (s.tasks t).execTimeUs.isLt
  have hone : ((s.tasks t).execTimeOverflowCount + 1).toNat =
      ((s.tasks t).execTimeOverflowCount.toNat + 1) % 2 ^ 8 := BitVec.toNat_add _ _
  have hcount' : ((chargeCall t s c).tasks t).execTimeOverflowCount.toNat =
      ((s.tasks t).execTimeOverflowCount.toNat + 1) % 2 ^ 8 := by
    rw [hcount]
    exact hone
  unfold TaskData.account
  rw [hus, hcount', hlen]
  omega

/-- The account is exact after each of the calls. -/
def ExactAccount (s : Sched τ) (t : τ) (calls : List ChargeCall) : Prop :=
  ∀ i, i ≤ calls.length → ((s.chargeCalls t (calls.take i)).tasks t).account % 2 ^ 40 =
    ((s.tasks t).account + ((calls.take i).map sliceLength).sum) % 2 ^ 40

theorem exactAccount_cons {s : Sched τ} {t : τ} {c : ChargeCall} {calls : List ChargeCall}
    (h : ((chargeCall t s c).tasks t).account = (s.tasks t).account + sliceLength c) :
    ExactAccount s t (c :: calls) ↔ ExactAccount (chargeCall t s c) t calls := by
  constructor
  · intro hex i hi
    have hnext := hex (i + 1) (Nat.succ_le_succ hi)
    rw [List.take_succ_cons, List.map_cons, List.sum_cons, ← Nat.add_assoc] at hnext
    rw [h]
    exact hnext
  · intro hex i hi
    cases i with
    | zero => exact congrArg (· % 2 ^ 40) (Nat.add_zero (s.tasks t).account).symm
    | succ i =>
        have hnext := hex i (Nat.le_of_succ_le_succ hi)
        rw [h] at hnext
        rw [List.take_succ_cons, List.map_cons, List.sum_cons, ← Nat.add_assoc]
        exact hnext

/--
**When the account is exact.**  Whatever the account of a task holds, it is exact modulo
`2 ^ 40` after each of a sequence of calls just when the 32-bit part never overflows:
when what it holds and the true lengths of all slices add up to less than `2 ^ 32`.
-/
theorem exactAccount_iff (s : Sched τ) (t : τ) (calls : List ChargeCall) :
    ExactAccount s t calls ↔
      (s.tasks t).execTimeUs.toNat + (calls.map sliceLength).sum < 2 ^ 32 := by
  induction calls generalizing s with
  | nil =>
      refine iff_of_true (fun i hi => ?_) (s.tasks t).execTimeUs.isLt
      obtain rfl : i = 0 := Nat.le_zero.mp hi
      exact congrArg (· % 2 ^ 40) (Nat.add_zero (s.tasks t).account).symm
  | cons c calls ih =>
      rw [List.map_cons, List.sum_cons]
      by_cases hfits : (s.tasks t).execTimeUs.toNat + sliceLength c < 2 ^ 32
      · obtain ⟨hus, haccount⟩ := chargeCall_fits hfits
        rw [exactAccount_cons haccount, ih, hus, Nat.add_assoc]
      · refine iff_of_false (fun hex => ?_) (by omega)
        have hone := hex 1 (Nat.succ_le_succ (Nat.zero_le _))
        rw [List.take_succ_cons, List.take_zero, List.map_singleton, List.sum_singleton] at hone
        exact chargeCall_overflows (Nat.le_of_not_lt hfits) hone

/-- A task in its second hour: a slice of `2 ^ 32 - 1` microseconds and one of 1. -/
theorem overflow_drops_total :
    ¬ ExactAccount (empty (fun _ : Unit => TaskData.zero) (fun _ => 0) 0x80) ()
      [(0, 0xFFFFFFFF), (0xFFFFFFFF, 0)] := by
  intro hex
  have htwo := hex 2 (by decide)
  exact absurd htwo (by decide)

/-! ### What a call leaves of the account and the stamp -/

/-- The account and the stamp. -/
def times (d : TaskData τ) : BitVec 32 × BitVec 32 := (d.execTimeUs, d.execStartTimeUs)

/-- A write to a control block that keeps the account and the stamp. -/
theorem modify_times (s : Sched τ) (t u : τ) {f : TaskData τ → TaskData τ}
    (h : times (f (s.tasks t)) = times (s.tasks t)) :
    times ((s.modify t f).tasks u) = times (s.tasks u) := by
  by_cases hu : u = t
  · subst hu
    rw [modify_tasks_self]
    exact h
  · rw [modify_tasks_of_ne _ _ _ hu]

theorem resetTask_times (s : Sched τ) (t u : τ) (a : CreateArgs) :
    times ((s.resetTask t a).tasks u) = if u = t then (0, 0) else times (s.tasks u) := by
  unfold resetTask
  by_cases hu : u = t
  · subst hu
    rw [modify_tasks_self, if_pos rfl]
    rfl
  · rw [modify_tasks_of_ne _ _ _ hu, if_neg hu]

theorem addTask_times {s s' : Sched τ} {fuel : Nat} {t : τ}
    (h : s.addTask fuel t = .ok s') (u : τ) :
    times (s'.tasks u) = times (s.tasks u) := by
  rcases addTask_cases h with ⟨-, rfl⟩ | ⟨ptr, rfl⟩
  · rfl
  · exact modify_times s ptr u rfl

/-- `create_task` resets the account and the stamp of its task, and no other. -/
theorem createTask_times {s s' : Sched τ} {fuel : Nat} {t : τ} {a : CreateArgs}
    (h : s.createTask fuel t a = .ok (false, s')) (u : τ) :
    times (s'.tasks u) = if u = t then (0, 0) else times (s.tasks u) := by
  obtain ⟨s₂, hadd, htasks, -⟩ := createTask_succeeds h
  have hprep : times (((s.cli.resetTask t a).prepareContext t a).tasks u) =
      times ((s.cli.resetTask t a).tasks u) :=
    modify_times _ t u (f := fun d => { d with
      name := strcpy d.name a.name
      cpuState := { d.cpuState with sp := a.stackArray + (a.stackSize - 3) } }) rfl
  rw [htasks, addTask_times hadd, hprep]
  exact resetTask_times s.cli t u a

theorem placeArgs_times (s : Sched τ) (t u : τ) (entry : Word) (args : List Arg) :
    times ((s.placeArgs t entry args).tasks u) = times (s.tasks u) :=
  placeArgs_keeps (f := fun s => times (s.tasks u)) (fun s _ _ => modify_times s t u rfl)
    (fun _ _ => rfl) s entry args

theorem createTaskArgs_times {s s' : Sched τ} {fuel : Nat} {t : τ} {a : CreateArgs}
    {args : List Arg} (h : s.createTaskArgs fuel t a args = .ok (false, s')) (u : τ) :
    times (s'.tasks u) = if u = t then (0, 0) else times (s.tasks u) := by
  obtain ⟨s₁, hs₁, rfl⟩ := createTaskArgs_succeeds h
  exact (placeArgs_times s₁ t u a.entry args).trans (createTask_times hs₁ u)

omit [DecidableEq τ] in
theorem scheduleRoundRobin_tasks (s : Sched τ) : s.scheduleRoundRobin.tasks = s.tasks := by
  unfold scheduleRoundRobin
  split <;> rfl

/-- A switch charges the task it leaves. -/
theorem contextSwitch_execTimeUs {s : Sched τ} {c : τ} (hc : s.cTask = some c) (cpu : CpuRegisters)
    (usOut usIn : BitVec 32) (u : τ) :
    ((s.contextSwitch cpu usOut usIn).tasks u).execTimeUs =
      if u = c then (charge (s.tasks c) (execTime (s.tasks c).execStartTimeUs usOut)).execTimeUs
      else (s.tasks u).execTimeUs := by
  have hsave : ∀ v, times ((s.saveCtx cpu).tasks v) = times (s.tasks v) := by
    intro v
    unfold saveCtx
    rw [hc]
    exact modify_times s c v rfl
  have hus : ∀ v, ((s.saveCtx cpu).tasks v).execTimeUs = (s.tasks v).execTimeUs := fun v =>
    congrArg Prod.fst (hsave v)
  have hstart : ∀ v, ((s.saveCtx cpu).tasks v).execStartTimeUs = (s.tasks v).execStartTimeUs :=
    fun v => congrArg Prod.snd (hsave v)
  have hstamp : ∀ s' : Sched τ,
      ((s'.stampStart usIn).tasks u).execTimeUs = (s'.tasks u).execTimeUs := by
    intro s'
    unfold stampStart
    cases s'.cTask with
    | none => rfl
    | some c' =>
        dsimp only
        by_cases hu : u = c'
        · subst hu
          rw [modify_tasks_self]
        · rw [modify_tasks_of_ne _ _ _ hu]
  unfold contextSwitch
  rw [hstamp, scheduleRoundRobin_tasks, hc]
  unfold calculateTaskExecutionTime
  dsimp only
  by_cases hu : u = c
  · subst hu
    rw [modify_tasks_self, if_pos rfl]
    unfold charge
    dsimp only
    rw [hus, hstart]
  · rw [modify_tasks_of_ne _ _ _ hu, if_neg hu, hus]

/-- A switch stamps the task it dispatches. -/
theorem contextSwitch_stamp {s : Sched τ} {cpu : CpuRegisters} {usOut usIn : BitVec 32} {c : τ}
    (hc : (s.contextSwitch cpu usOut usIn).cTask = some c) :
    ((s.contextSwitch cpu usOut usIn).tasks c).execStartTimeUs = usIn := by
  unfold contextSwitch at hc ⊢
  generalize ((s.saveCtx cpu).calculateTaskExecutionTime s.cTask usOut).scheduleRoundRobin =
    s' at hc ⊢
  have hc' : s'.cTask = some c := by
    rw [← (stampStart_links s' usIn).cTask]
    exact hc
  unfold stampStart
  rw [hc']
  dsimp only
  rw [modify_tasks_self]

end Sched

end AtmegaScheduler
