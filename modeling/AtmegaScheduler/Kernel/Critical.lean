/-
Critical sections and the interrupt flag.

Every function of the kernel that must not be interrupted saves the status register,
disables interrupts and writes the saved value back on its way out.  So it returns with
the flag it was called with, whatever it did in between, and one such section inside
another leaves the flag clear.

The wait loop of `mtx_lock` gives the processor away in the middle of its section, and
gets it back with interrupts enabled.  It still holds the value it saved.

The variadic `create_task` writes that value back as well, and then enables interrupts.
-/
import AtmegaScheduler.Kernel.Frame
import AtmegaScheduler.Drivers.Clock
import AtmegaScheduler.Drivers.Mutex

namespace AtmegaScheduler

open Avr

/-! ### The mutex functions -/

namespace MtxPc

/-- The first statement of a function, which saves the flag. -/
def entering : MtxPc → Bool
  | .lock .save | .tryLock .save | .release .save => true
  | _ => false

end MtxPc

namespace Sys

variable {τ σ π ε : Type} [DecidableEq τ] {C : Client τ σ π ε} {s s' : Sys τ σ π} {t : τ}
  {flag : Bool}

/-- The interrupt flag as `t` has it, or will find it when it is switched to. -/
def flagOf (s : Sys τ σ π) (t : τ) : Bool := if s.cTask = t then s.iflag else true

/-- A call in progress of a function that `t` called with `flag`. -/
structure Holds (flag : Bool) (t : τ) (s : Sys τ σ π) (pc : MtxPc) (sreg : Bool) : Prop where
  /-- The flag is saved. -/
  saved : pc.entering = false → pc.result = none → sreg = flag
  /-- It is not touched yet, or restored. -/
  edge : pc.entering = true ∨ pc.result ≠ none → s.flagOf t = flag

/-- The task is in a function that it called with `flag`. -/
def Inside (flag : Bool) (t : τ) (s : Sys τ σ π) : Prop :=
  ∃ pc sreg k, s.place t = .inside pc sreg k ∧ Holds flag t s pc sreg

theorem flagOf_cTask (s : Sys τ σ π) : s.flagOf s.cTask = s.iflag := if_pos rfl

theorem flagOf_other (h : t ≠ s.cTask) : s.flagOf t = true := if_neg h.symm

theorem flagOf_congr (h : t ≠ s.cTask) (hc : s'.cTask = s.cTask) : s'.flagOf t = s.flagOf t := by
  rw [flagOf_other h, flagOf_other (hc ▸ h)]

theorem flagOf_switchTo (s : Sys τ σ π) (u t : τ) : (s.switchTo u).flagOf t = true := by
  unfold flagOf switchTo
  split <;> rfl

/-- What another task does leaves the call as it is. -/
theorem Inside.other (h : Inside flag t s) (hplace : s'.place t = s.place t)
    (hflag : s'.flagOf t = s.flagOf t) : Inside flag t s' := by
  obtain ⟨pc, sreg, k, hat, hheld⟩ := h
  refine ⟨pc, sreg, k, hplace.trans hat, hheld.saved, fun hedge => ?_⟩
  rw [hflag]
  exact hheld.edge hedge

omit [DecidableEq τ] in
/-- A call that has saved the flag and does not return yet. -/
theorem holds_inside {c : MtxCall τ} (hpc : c.pc.entering = false) (hret : c.pc.result = none)
    (hsaved : c.sreg = flag) :
    (c.pc.entering = false ∧ (c.pc.result = none → c.sreg = flag)) ∧
      (c.pc.result ≠ none → c.iflag = flag) :=
  ⟨⟨hpc, fun _ => hsaved⟩, fun h => absurd hret h⟩

omit [DecidableEq τ] in
/-- A call that has restored the flag. -/
theorem holds_restored {c : MtxCall τ} (hpc : c.pc.entering = false) (hsaved : c.sreg = flag)
    (hrestored : c.iflag = c.sreg) :
    (c.pc.entering = false ∧ (c.pc.result = none → c.sreg = flag)) ∧
      (c.pc.result ≠ none → c.iflag = flag) :=
  ⟨⟨hpc, fun _ => hsaved⟩, fun _ => hrestored.trans hsaved⟩

/-- **One statement** of a function saves the flag, keeps the saved one, or restores it. -/
theorem mtxStmt_holds {c : MtxCall τ} (self : τ) (hyield : c.pc ≠ .lock .yield)
    (hret : c.pc.result = none) (hsaved : c.pc.entering = false → c.sreg = flag)
    (henter : c.pc.entering = true → c.iflag = flag) :
    ((mtxStmt self c).pc.entering = false ∧ ((mtxStmt self c).pc.result = none →
      (mtxStmt self c).sreg = flag)) ∧
      ((mtxStmt self c).pc.result ≠ none → (mtxStmt self c).iflag = flag) := by
  obtain ⟨mutex, iflag, sreg, pc⟩ := c
  cases pc with
  | lock pc =>
      cases pc with
      | save => exact holds_inside rfl rfl (henter rfl)
      | cli => exact holds_inside rfl rfl (hsaved rfl)
      | testOwn =>
          unfold mtxStmt lockStmt
          dsimp only
          split
          · exact holds_inside rfl rfl (hsaved rfl)
          · exact holds_inside rfl rfl (hsaved rfl)
      | restoreOwn => exact holds_restored rfl (hsaved rfl) rfl
      | testFree =>
          unfold mtxStmt lockStmt
          dsimp only
          split
          · exact holds_inside rfl rfl (hsaved rfl)
          · exact holds_inside rfl rfl (hsaved rfl)
      | yield => exact absurd rfl hyield
      | recli => exact holds_inside rfl rfl (hsaved rfl)
      | take => exact holds_inside rfl rfl (hsaved rfl)
      | restore => exact holds_restored rfl (hsaved rfl) rfl
      | ret => exact absurd hret (by simp [MtxPc.result])
  | tryLock pc =>
      cases pc with
      | save => exact holds_inside rfl rfl (henter rfl)
      | cli => exact holds_inside rfl rfl (hsaved rfl)
      | test =>
          unfold mtxStmt tryLockStmt
          dsimp only
          split
          · exact holds_inside rfl rfl (hsaved rfl)
          · exact holds_inside rfl rfl (hsaved rfl)
      | restoreLocked => exact holds_restored rfl (hsaved rfl) rfl
      | take => exact holds_inside rfl rfl (hsaved rfl)
      | restore => exact holds_restored rfl (hsaved rfl) rfl
      | ret r => exact absurd hret (by simp [MtxPc.result])
  | release pc =>
      cases pc with
      | save => exact holds_inside rfl rfl (henter rfl)
      | cli => exact holds_inside rfl rfl (hsaved rfl)
      | test =>
          unfold mtxStmt releaseStmt
          dsimp only
          split
          · exact holds_inside rfl rfl (hsaved rfl)
          · exact holds_inside rfl rfl (hsaved rfl)
      | restoreNotOwner => exact holds_restored rfl (hsaved rfl) rfl
      | clear => exact holds_inside rfl rfl (hsaved rfl)
      | restore => exact holds_restored rfl (hsaved rfl) rfl
      | ret r => exact absurd hret (by simp [MtxPc.result])

/-- **One step** of the system, other than the return of `t`. -/
theorem Inside.step {l : Label τ ε} (h : Inside flag t s) (hstep : Step C s l s')
    (hl : ∀ op r, l ≠ .ret t op r) : Inside flag t s' := by
  by_cases ht : t = s.cTask
  · obtain ⟨pc, sreg, k, hat, hheld⟩ := h
    subst ht
    cases hstep with
    | own hown => exact absurd (hown.symm.trans hat) (by simp)
    | call hown => exact absurd (hown.symm.trans hat) (by simp)
    | stmt hin hyield hret =>
        obtain ⟨rfl, rfl, rfl⟩ := Place.inside.inj (hat.symm.trans hin)
        have hflag : pc.entering = true → s.iflag = flag := by
          intro henter
          rw [← hheld.edge (Or.inl henter), flagOf_cTask]
        obtain ⟨⟨hnext, hsaved⟩, hrestored⟩ := mtxStmt_holds (c := ⟨s.mutex, s.iflag, sreg, pc⟩)
          s.cTask hyield hret (fun hnot => hheld.saved hnot hret) hflag
        refine ⟨_, _, k, goto_self s _, fun _ hnot => hsaved hnot, fun hedge => ?_⟩
        rcases hedge with henter | hresult
        · exact absurd (henter.symm.trans hnext) (by simp)
        · exact (flagOf_cTask _).trans (hrestored hresult)
    | ret hin hret => exact absurd rfl (hl _ _)
    | yield u hin =>
        obtain ⟨rfl, rfl, rfl⟩ := Place.inside.inj (hat.symm.trans hin)
        refine ⟨.lock .recli, sreg, k, goto_self s _,
          fun _ _ => hheld.saved rfl rfl, fun hedge => ?_⟩
        rcases hedge with henter | hresult
        · exact absurd henter (by simp [MtxPc.entering])
        · exact absurd rfl hresult
    | switch u hopen =>
        refine ⟨pc, sreg, k, hat, hheld.saved, fun hedge => ?_⟩
        have hset : s.iflag = true := by
          rcases hopen with hset | ⟨p, hown⟩
          · exact hset
          · exact absurd (hown.symm.trans hat) (by simp)
        rw [flagOf_switchTo, ← hheld.edge hedge, flagOf_cTask, hset]
  · cases hstep with
    | own hown => exact h.other (goto_other ht) (flagOf_congr ht rfl)
    | call hown => exact h.other (goto_other ht) (flagOf_congr ht rfl)
    | stmt hin hyield hret => exact h.other (goto_other ht) (flagOf_congr ht rfl)
    | ret hin hret => exact h.other (goto_other ht) (flagOf_congr ht rfl)
    | yield u hin =>
        exact h.other (goto_other ht) ((flagOf_switchTo _ _ _).trans (flagOf_other ht).symm)
    | switch u hopen => exact h.other rfl ((flagOf_switchTo _ _ _).trans (flagOf_other ht).symm)

theorem Inside.run {h : List (Label τ ε)} (hin : Inside flag t s) (hrun : Run C s h s')
    (hl : ∀ op r, Label.ret t op r ∉ h) : Inside flag t s' := by
  induction hrun with
  | nil => exact hin
  | @snoc s₁ s₂ h l hrun hstep ih =>
      refine (ih fun op r hmem => hl op r (List.mem_append_left _ hmem)).step hstep
        fun op r hc => ?_
      exact hl op r (List.mem_append_right _ (List.mem_singleton.mpr hc.symm))

/-- **A mutex function returns with the flag it was called with**, however often the task
has waited, been interrupted and switched back to in between. -/
theorem mtx_flag {s₁ s₂ s₃ s₄ : Sys τ σ π} {op op' : MtxOp} {r : MtxResult}
    {h : List (Label τ ε)} (hcall : Step C s₁ (.call t op) s₂) (hrun : Run C s₂ h s₃)
    (hl : ∀ op r, Label.ret t op r ∉ h) (hret : Step C s₃ (.ret t op' r) s₄) :
    s₄.iflag = s₁.iflag := by
  have hstart : Inside s₁.iflag t s₂ := by
    cases hcall with
    | @call p op k hown hclient =>
        refine ⟨op.entry, false, k, goto_self s₁ _, fun hnot _ => ?_, fun _ => flagOf_cTask s₁⟩
        exact absurd hnot (by cases op <;> simp [MtxOp.entry, MtxPc.entering])
  obtain ⟨pc, sreg, k, hat, hheld⟩ := hstart.run hrun hl
  cases hret with
  | ret hin hresult =>
      obtain ⟨rfl, rfl, rfl⟩ := Place.inside.inj (hat.symm.trans hin)
      have hedge := hheld.edge (Or.inr (by rw [hresult]; exact Option.some_ne_none _))
      rw [flagOf_cTask] at hedge
      exact hedge

end Sys

/-! ### The other functions -/

namespace Sched

variable {τ : Type}

/-- `get_current_task` -/
def getCurrentTask (s : Sched τ) : Option τ × Sched τ :=
  let sreg := s.sreg
  let s := s.cli
  let task := s.cTask
  (task, s.setSreg sreg)

variable [DecidableEq τ]

/-- The states the plain `create_task` goes through once it has saved the status register. -/
def createTaskStates (fuel : Nat) (s : Sched τ) (task : τ) (a : CreateArgs) : List (Sched τ) :=
  let sreg := s.sreg
  let s₁ := s.cli
  let s₂ := s₁.resetTask task a
  if a.name.length ≥ confTaskNameMaxLength then
    [s₁, s₂, s₂.setSreg sreg]
  else
    let s₃ := s₂.prepareContext task a
    match s₃.addTask fuel task with
    | .error _ => [s₁, s₂, s₃]
    | .ok s₄ =>
        let s₅ := if s₄.cTask = none then { s₄ with cTask := s₄.getHeadTask } else s₄
        [s₁, s₂, s₃, s₄, s₅, s₅.setSreg sreg]

/-- The states of the second pass over the arguments. -/
def writeArgsStates (s : Sched τ) (task : τ) (args : List Arg) : List (Sched τ) :=
  (args.scanl (processArg task) (s, ⟨false, 0, stackBytes args⟩)).map (·.1)

/-- The states the variadic `create_task` goes through, with those of the plain one inside. -/
def createTaskArgsStates (fuel : Nat) (s : Sched τ) (task : τ) (a : CreateArgs) (args : List Arg) :
    List (Sched τ) :=
  let sreg := s.sreg
  s.cli :: s.cli.createTaskStates fuel task a ++
    match s.cli.createTask fuel task a with
    | .error _ => []
    | .ok (true, s₁) => [s₁.setSreg sreg]
    | .ok (false, s₁) =>
        let s₂ := s₁.placeArgs task a.entry args
        s₁.writeArgsStates task args ++ [s₂, s₂.setSreg sreg, s₂.setSreg (setI sreg)]

/-- Interrupts are disabled, or the block and the memory are what the call leaves. -/
def ClosedUntil (s' x : Sched τ) : Prop :=
  iFlag x.sreg = true → x.tasks = s'.tasks ∧ x.mem = s'.mem

variable {s s' : Sched τ} {fuel : Nat} {t : τ} {a : CreateArgs} {args : List Arg} {b : Bool}

omit [DecidableEq τ] in
theorem closed_of_flag {x : Sched τ} (h : iFlag x.sreg = false) : ClosedUntil s' x :=
  fun hset => absurd (h.symm.trans hset) Bool.false_ne_true

theorem addTask_sreg {newNode : τ} (h : s.addTask fuel newNode = .ok s') : s'.sreg = s.sreg := by
  rcases addTask_cases h with ⟨-, rfl⟩ | ⟨ptr, rfl⟩
  · rfl
  · rfl

/-- **The plain `create_task`** returns the status register it was called with. -/
theorem createTask_sreg (h : s.createTask fuel t a = .ok (b, s')) : s'.sreg = s.sreg := by
  rcases createTask_cases h with ⟨-, hr⟩ | ⟨-, s₂, -, hr⟩
  · rw [(Prod.mk.inj hr).2]
    rfl
  · rw [(Prod.mk.inj hr).2]
    rfl

/-- And it keeps interrupts disabled in between. -/
theorem createTaskStates_closed (h : s.createTask fuel t a = .ok (b, s')) :
    (s.createTaskStates fuel t a).getLast? = some s' ∧
      ∀ x ∈ s.createTaskStates fuel t a, x = s' ∨ iFlag x.sreg = false := by
  have hcli : iFlag (clearI s.sreg) = false := iFlag_clearI s.sreg
  rcases createTask_cases h with ⟨hlong, hr⟩ | ⟨hshort, s₄, hadd, hr⟩
  · rw [(Prod.mk.inj hr).2]
    unfold createTaskStates
    simp only [if_pos hlong]
    refine ⟨rfl, fun x hx => ?_⟩
    simp only [List.mem_cons, List.not_mem_nil, or_false] at hx
    rcases hx with rfl | rfl | rfl
    · exact Or.inr hcli
    · exact Or.inr hcli
    · exact Or.inl rfl
  · have hadded : iFlag s₄.sreg = false := by
      rw [addTask_sreg hadd]
      exact hcli
    have hcur : iFlag (if s₄.cTask = none then { s₄ with cTask := s₄.getHeadTask } else s₄).sreg =
        false := by
      split
      · exact hadded
      · exact hadded
    rw [(Prod.mk.inj hr).2]
    unfold createTaskStates
    simp only [if_neg (Nat.not_le.mpr hshort), hadd]
    refine ⟨rfl, fun x hx => ?_⟩
    simp only [List.mem_cons, List.not_mem_nil, or_false] at hx
    rcases hx with rfl | rfl | rfl | rfl | rfl | rfl
    · exact Or.inr hcli
    · exact Or.inr hcli
    · exact Or.inr hcli
    · exact Or.inr hadded
    · exact Or.inr hcur
    · exact Or.inl rfl

theorem storeArgs_sreg (ps : List Arg) : ∀ st : Sched τ × ArgCursor,
    ∀ x ∈ (ps.scanl (processArg t) st).map (·.1), x.sreg = st.1.sreg := by
  induction ps with
  | nil =>
      intro st x hx
      rw [List.scanl_nil, List.map_cons, List.map_nil, List.mem_singleton] at hx
      rw [hx]
  | cons arg ps ih =>
      intro st x hx
      rw [List.scanl_cons, List.map_cons, List.mem_cons] at hx
      rcases hx with rfl | hx
      · rfl
      · rw [ih _ x hx]
        unfold processArg
        split
        · rfl
        · rfl

/-- **The nested sections**: interrupts stay disabled until the block and the stack of the
new task are what the call leaves. -/
theorem createTaskArgsStates_closed (h : s.createTaskArgs fuel t a args = .ok (b, s')) :
    (s.createTaskArgsStates fuel t a args).getLast? = some s' ∧
      ∀ x ∈ s.createTaskArgsStates fuel t a args, ClosedUntil s' x := by
  have hcli : iFlag (clearI s.sreg) = false := iFlag_clearI s.sreg
  have hinner : ∀ b' s₁, s.cli.createTask fuel t a = .ok (b', s₁) → iFlag s₁.sreg = false ∧
      ∀ x ∈ s.cli.createTaskStates fuel t a, iFlag x.sreg = false := by
    intro b' s₁ hs₁
    have hs₁' : iFlag s₁.sreg = false := by
      rw [createTask_sreg hs₁]
      exact hcli
    refine ⟨hs₁', fun x hx => ?_⟩
    rcases (createTaskStates_closed hs₁).2 x hx with rfl | hclosed
    · exact hs₁'
    · exact hclosed
  unfold createTaskArgsStates
  rcases createTaskArgs_cases h with ⟨s₁, hs₁, hr⟩ | ⟨s₁, hs₁, hr⟩
  · obtain ⟨hflag, hstates⟩ := hinner true s₁ hs₁
    rw [(Prod.mk.inj hr).2]
    simp only [hs₁]
    refine ⟨List.getLast?_append_of_ne_nil _ (List.cons_ne_nil _ _), fun x hx => ?_⟩
    rw [List.cons_append, List.mem_cons, List.mem_append, List.mem_singleton] at hx
    rcases hx with rfl | hx | rfl
    · exact closed_of_flag hcli
    · exact closed_of_flag (hstates x hx)
    · exact fun _ => ⟨rfl, rfl⟩
  · obtain ⟨hflag, hstates⟩ := hinner false s₁ hs₁
    rw [(Prod.mk.inj hr).2]
    simp only [hs₁]
    refine ⟨?_, ?_⟩
    · rw [← List.append_assoc, List.getLast?_append_of_ne_nil _ (List.cons_ne_nil _ _)]
      rfl
    · intro x hx
      simp only [List.cons_append, List.mem_cons, List.mem_append, List.not_mem_nil, or_false] at hx
      rcases hx with rfl | hx | hx | rfl | rfl | rfl
      · exact closed_of_flag hcli
      · exact closed_of_flag (hstates x hx)
      · refine closed_of_flag ?_
        rw [storeArgs_sreg args _ x hx]
        exact hflag
      · exact fun _ => ⟨rfl, rfl⟩
      · exact fun _ => ⟨rfl, rfl⟩
      · exact fun _ => ⟨rfl, rfl⟩

end Sched

/-- The scheduler, the clock and the timer. -/
structure Kernel (τ : Type) where
  sched : Sched τ
  clock : Clock
  timer : TimerRegs

namespace Kernel

variable {τ : Type}

/-- `cli()` -/
def cli (k : Kernel τ) : Kernel τ := { k with sched := k.sched.cli }

/-- `SREG = sreg` -/
def setSreg (k : Kernel τ) (sreg : Byte) : Kernel τ := { k with sched := k.sched.setSreg sreg }

/-- `get_ms` -/
def getMs (k : Kernel τ) : BitVec 32 × Kernel τ :=
  let sreg := k.sched.sreg
  let k := k.cli
  let ms := k.clock.getMs
  (ms, k.setSreg sreg)

/-- `get_us`, with `ticks` ticks of the timer between its reads. -/
def getUs (fCpu ticks : Nat) (k : Kernel τ) : BitVec 32 × Kernel τ :=
  let sreg := k.sched.sreg
  let k := k.cli
  let us := AtmegaScheduler.getUs fCpu k.clock k.timer ticks
  (us, { k with timer := TimerRegs.tick^[ticks] k.timer }.setSreg sreg)

/-- A call that does not wait. -/
inductive Call (τ : Type)
  | getCurrentTask
  | createTask (task : τ) (a : CreateArgs)
  | createTaskArgs (task : τ) (a : CreateArgs) (args : List Arg)
  | getMs
  | getUs (fCpu ticks : Nat)

variable [DecidableEq τ]

/-- The state in which a call returns. -/
def Call.exec (fuel : Nat) (k : Kernel τ) : Call τ → Except Fault (Kernel τ)
  | .getCurrentTask => .ok { k with sched := k.sched.getCurrentTask.2 }
  | .createTask task a =>
      (k.sched.createTask fuel task a).map fun r => { k with sched := r.2 }
  | .createTaskArgs task a args =>
      (k.sched.createTaskArgs fuel task a args).map fun r => { k with sched := r.2 }
  | .getMs => .ok k.getMs.2
  | .getUs fCpu ticks => .ok (k.getUs fCpu ticks).2

/-- A call of the variadic `create_task` with a name that fits and with interrupts disabled. -/
def Call.Opens (sreg : Byte) : Call τ → Prop
  | .createTaskArgs _ a _ => a.name.length < confTaskNameMaxLength ∧ iFlag sreg = false
  | _ => False

omit [DecidableEq τ] in
theorem map_sched {k k' : Kernel τ} {x : Except Fault (Bool × Sched τ)}
    (h : (x.map fun r => { k with sched := r.2 }) = .ok k') :
    ∃ b s', x = .ok (b, s') ∧ k' = { k with sched := s' } := by
  cases x with
  | error e => exact absurd h (by simp [Except.map])
  | ok r => exact ⟨r.1, r.2, rfl, (Except.ok.inj h).symm⟩

/-- **When a call returns with the interrupt flag it was called with.** -/
theorem Call.flag_iff {fuel : Nat} {k k' : Kernel τ} {call : Call τ}
    (h : call.exec fuel k = .ok k') :
    iFlag k'.sched.sreg = iFlag k.sched.sreg ↔ ¬ call.Opens k.sched.sreg := by
  cases call with
  | getCurrentTask =>
      rw [← Except.ok.inj h]
      exact iff_of_true rfl id
  | createTask task a =>
      obtain ⟨b, s', hs', rfl⟩ := map_sched h
      rw [show iFlag s'.sreg = _ from congrArg iFlag (Sched.createTask_sreg hs')]
      exact iff_of_true rfl id
  | createTaskArgs task a args =>
      obtain ⟨b, s', hs', rfl⟩ := map_sched h
      rcases Sched.createTaskArgs_cases hs' with ⟨s₁, hs₁, hr⟩ | ⟨s₁, hs₁, hr⟩
      · -- The name is too long.
        rw [(Prod.mk.inj hr).2]
        refine iff_of_true rfl fun hopens => ?_
        rcases Sched.createTask_cases hs₁ with ⟨hlong, -⟩ | ⟨-, _, -, hr'⟩
        · exact absurd hopens.1 (Nat.not_lt.mpr hlong)
        · exact absurd (Prod.mk.inj hr').1 (by simp)
      · rw [(Prod.mk.inj hr).2]
        show iFlag (setI k.sched.sreg) = _ ↔ _
        rw [iFlag_setI]
        have hshort : a.name.length < confTaskNameMaxLength := by
          rcases Sched.createTask_cases hs₁ with ⟨-, hr'⟩ | ⟨hshort, -⟩
          · exact absurd (Prod.mk.inj hr').1 (by simp)
          · exact hshort
        constructor
        · intro hset hopens
          rw [hopens.2] at hset
          exact absurd hset (by simp)
        · intro hopens
          cases hflag : iFlag k.sched.sreg with
          | false => exact absurd ⟨hshort, hflag⟩ hopens
          | true => rfl
  | getMs =>
      rw [← Except.ok.inj h]
      exact iff_of_true rfl id
  | getUs fCpu ticks =>
      rw [← Except.ok.inj h]
      exact iff_of_true rfl id

/--
**Critical sections and the interrupt flag.**  A call that returns does so with the flag it
was called with, unless it is a variadic `create_task` that succeeds with interrupts
disabled.  Within that call the plain one does not enable them either: they are disabled
until the block, the stack arguments and the entry address are in place.  And a mutex
function returns with the flag it was called with after any number of waits.
-/
theorem critical_sections_iff {σ π ε : Type} (C : Client τ σ π ε) :
    (∀ (fuel : Nat) (k k' : Kernel τ) (call : Call τ), call.exec fuel k = .ok k' →
      (iFlag k'.sched.sreg = iFlag k.sched.sreg ↔ ¬ call.Opens k.sched.sreg)) ∧
    (∀ (fuel : Nat) (s s' : Sched τ) (t : τ) (a : CreateArgs) (args : List Arg) (b : Bool),
      s.createTaskArgs fuel t a args = .ok (b, s') →
      (s.createTaskArgsStates fuel t a args).getLast? = some s' ∧
        ∀ x ∈ s.createTaskArgsStates fuel t a args, Sched.ClosedUntil s' x) ∧
    (∀ (s₁ s₂ s₃ s₄ : Sys τ σ π) (t : τ) (op op' : MtxOp) (r : MtxResult) (h : List (Label τ ε)),
      Sys.Step C s₁ (.call t op) s₂ → Sys.Run C s₂ h s₃ → (∀ op r, Label.ret t op r ∉ h) →
      Sys.Step C s₃ (.ret t op' r) s₄ → s₄.iflag = s₁.iflag) :=
  ⟨fun _ _ _ _ h => Call.flag_iff h, fun _ _ _ _ _ _ _ h => Sched.createTaskArgsStates_closed h,
    fun _ _ _ _ _ _ _ _ _ hcall hrun hl hret => Sys.mtx_flag hcall hrun hl hret⟩

/-- A call of the variadic `create_task` with interrupts disabled returns with interrupts
enabled. -/
theorem create_opens_section : ∃ s',
    ({ Sched.argsSched with sreg := 0 } : Sched Unit).createTaskArgs 0 ()
      Sched.argsTask [[7]] = .ok (false, s') ∧
    iFlag ({ Sched.argsSched with sreg := 0 } : Sched Unit).sreg = false ∧ iFlag s'.sreg = true :=
  ⟨_, rfl, rfl, by decide⟩

end Kernel

end AtmegaScheduler
