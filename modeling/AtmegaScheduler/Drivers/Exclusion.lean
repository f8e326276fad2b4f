/-
Mutual exclusion, and what it leaves of nested locking.

Everything about other tasks follows from the invariant: a task in its section is the
owner, and no statement of another task changes who that is.  What a call of
`mtx_release` returns needs one thing more, because other tasks run between its first
statement and its test: whether the caller is the owner is settled when it makes the
call, since nobody else can change it.

The mutex has no count of how often its owner has locked it.  So the first release of
a nest gives it up, however deep the nest is.
-/
import AtmegaScheduler.Drivers.Mutex

namespace AtmegaScheduler

namespace Sys

variable {τ σ π ε : Type} [DecidableEq τ] {C : Client τ σ π ε} {s s' : Sys τ σ π}
  {h : List (Label τ ε)} {l : Label τ ε} {t : τ}

/-! ### What a section excludes -/

/-- Two tasks are not in their sections at once. -/
theorem Inv.unique (hinv : Inv h s) {u : τ} (ht : InSection t h) (hu : InSection u h) : t = u :=
  Option.some.inj ((hinv.section_owner t ht).symm.trans (hinv.section_owner u hu))

/-- A task in code of its own is the owner just when it is in its section. -/
theorem Inv.owner_iff (hinv : Inv h s) {p : π} (hat : s.place t = .own p) :
    s.mutex.owner = some t ↔ InSection t h := by
  refine ⟨fun hown => ?_, hinv.section_owner t⟩
  rcases hinv.owner_section t hown with hsec | ⟨pc, sreg, k, hpl, _⟩
  · exact hsec
  · exact absurd (hat.symm.trans hpl) (by simp)

/-- While a task is in its section no step changes the mutex, its own steps included. -/
theorem Inv.unchanged (hinv : Inv h s) (ht : InSection t h) (hstep : Step C s l s') :
    s'.mutex = s.mutex := by
  cases hstep with
  | stmt hat hyield hret =>
      rename_i pc sreg k
      have hown := hinv.section_owner t ht
      have howner := (hinv.after_fits hat).2
      refine Mutex.ext (?_ : (s.after pc sreg).mutex.owner = _) (mtxStmt_blockedHead _ _)
      rw [hown] at howner ⊢
      generalize (s.after pc sreg).mutex.owner = o at howner ⊢
      cases howner with
      | keep => rfl
      | clear hop => exact absurd hop (hinv.section_place _ ht _ _ _ hat)
  | _ => rfl

/-- A call that acquires while a task is in its section is the task's own. -/
theorem Inv.acquires_self (hinv : Inv h s) (ht : InSection t h) {u : τ} {op : MtxOp} {r : MtxResult}
    (hstep : Step C s (.ret u op r) s') (hacq : op.acquires r = true) : u = t :=
  (inv_step hinv hstep).unique (inSection_ret.mpr (Or.inl ⟨rfl, hacq⟩))
    (inSection_ret.mpr (Or.inr ht))

end Sys

/-! ### A call of `mtx_release` from its first statement to its return -/

/-- At this statement of `mtx_release`, `u` was the owner at the call (`owned`) or was
not: until the test it still is or is not, and at the end it is not. -/
def MtxPc.Releasing {τ : Type} (owned : Bool) (u : τ) (owner : Option τ) : MtxPc → Prop
  | .release .save | .release .cli | .release .test => owner = some u ↔ owned = true
  | .release .restoreNotOwner => owned = false ∧ owner ≠ some u
  | .release .clear => owned = true ∧ owner = some u
  | .release .restore => owned = true ∧ owner ≠ some u
  | .release (.ret r) => r = (if owned then .ok else .errNotOwner) ∧ owner ≠ some u
  | _ => False

section Releasing

variable {τ : Type} [DecidableEq τ] {u : τ} {c : MtxCall τ} {owned : Bool}

omit [DecidableEq τ] in
theorem releasing_congr {o o' : Option τ} {pc : MtxPc} (hiff : o' = some u ↔ o = some u)
    (h : pc.Releasing owned u o) : pc.Releasing owned u o' := by
  unfold MtxPc.Releasing at h ⊢
  rw [ne_eq, hiff]
  exact h

theorem releaseStmt_releasing {pc : ReleasePc} 
    (h : (MtxPc.release pc).Releasing owned u c.mutex.owner)
    (hpc : c.pc = .release pc) :
    (releaseStmt u c pc).pc.Releasing owned u (releaseStmt u c pc).mutex.owner ∧
      (owned = false → (releaseStmt u c pc).mutex = c.mutex) := by
  cases pc with
  | save => exact ⟨h, fun _ => rfl⟩
  | cli => exact ⟨h, fun _ => rfl⟩
  | test =>
      have hiff : c.mutex.owner = some u ↔ owned = true := h
      unfold releaseStmt
      by_cases hown : some u ≠ c.mutex.owner
      · rw [if_pos hown]
        have hne : owned = false := Bool.eq_false_iff.mpr fun hc => hown (hiff.mpr hc).symm
        exact ⟨⟨hne, hown.symm⟩, fun _ => rfl⟩
      · rw [if_neg hown]
        have heq : c.mutex.owner = some u := (not_ne_iff.mp hown).symm
        exact ⟨⟨hiff.mp heq, heq⟩, fun _ => rfl⟩
  | restoreNotOwner =>
      obtain ⟨hfalse, hne⟩ := h
      refine ⟨⟨?_, hne⟩, fun _ => rfl⟩
      rw [hfalse]
      rfl
  | clear =>
      obtain ⟨htrue, _⟩ := h
      exact ⟨⟨htrue, (Option.some_ne_none u).symm⟩,
        fun hc => absurd (htrue.symm.trans hc) (by decide)⟩
  | restore =>
      obtain ⟨htrue, hne⟩ := h
      refine ⟨⟨?_, hne⟩, fun _ => rfl⟩
      rw [htrue]
      rfl
  | ret r =>
      unfold releaseStmt
      rw [hpc]
      exact ⟨h, fun _ => rfl⟩

/-- **One statement** of the call. -/
theorem mtxStmt_releasing (h : c.pc.Releasing owned u c.mutex.owner) :
    (mtxStmt u c).pc.Releasing owned u (mtxStmt u c).mutex.owner ∧
      (owned = false → (mtxStmt u c).mutex = c.mutex) := by
  unfold mtxStmt
  cases hpc : c.pc with
  | release pc =>
      rw [hpc] at h
      exact releaseStmt_releasing h hpc
  | lock pc =>
      rw [hpc] at h
      exact absurd h not_false
  | tryLock pc =>
      rw [hpc] at h
      exact absurd h not_false

end Releasing

namespace Sys

variable {τ σ π ε : Type} [DecidableEq τ]

/-- `u` is in a call of `mtx_release` that it made as the owner, or not as the owner. -/
def Releasing (owned : Bool) (u : τ) (s : Sys τ σ π) : Prop :=
  ∃ pc sreg k, s.place u = .inside pc sreg k ∧ pc.Releasing owned u s.mutex.owner

variable {C : Client τ σ π ε} {s s' : Sys τ σ π} {h h' : List (Label τ ε)} {l : Label τ ε}
  {t u : τ} {owned : Bool}

/-- The call begins. -/
theorem releasing_call (howned : s.mutex.owner = some u ↔ owned = true)
    (hstep : Step C s (.call u .release) s') : s'.Releasing owned u := by
  cases hstep with
  | call hat _ => exact ⟨_, _, _, goto_self s _, howned⟩

omit [DecidableEq τ] in
/-- A task inside a function is not the one in code of its own. -/
theorem ne_of_inside {p : π} {v : τ} {pc : MtxPc} {sreg : Bool} {k : MtxResult → π}
    (hat : s.place v = .own p) (hpl : s.place u = .inside pc sreg k) : u ≠ v := by
  rintro rfl
  exact absurd (hat.symm.trans hpl) (by simp)

/-- **One step** of any task, up to the return. -/
theorem releasing_step (hinv : Inv h s) (hrel : s.Releasing owned u) (hstep : Step C s l s')
    (hret : ∀ op r, l ≠ .ret u op r) : s'.Releasing owned u := by
  obtain ⟨pc, sreg, k, hpl, hpc⟩ := hrel
  cases hstep with
  | own hat _ =>
      exact ⟨pc, sreg, k, (goto_other (ne_of_inside hat hpl)).trans hpl, hpc⟩
  | call hat _ =>
      exact ⟨pc, sreg, k, (goto_other (ne_of_inside hat hpl)).trans hpl, hpc⟩
  | stmt hat _ _ =>
      by_cases hself : u = s.cTask
      · subst hself
        obtain ⟨rfl, rfl, rfl⟩ := Place.inside.inj (hat.symm.trans hpl)
        exact ⟨_, _, _, goto_self s _, (mtxStmt_releasing hpc).1⟩
      · refine ⟨pc, sreg, k, (goto_other hself).trans hpl, ?_⟩
        exact releasing_congr ((hinv.after_fits hat).2.other hself) hpc
  | ret hat _ =>
      have hself : u ≠ s.cTask := by
        rintro rfl
        exact hret _ _ rfl
      exact ⟨pc, sreg, k, (goto_other hself).trans hpl, hpc⟩
  | yield v hat =>
      have hself : u ≠ s.cTask := by
        rintro rfl
        obtain ⟨rfl, -, -⟩ := Place.inside.inj (hat.symm.trans hpl)
        exact hpc
      exact ⟨pc, sreg, k, (goto_other hself).trans hpl, hpc⟩
  | switch v _ => exact ⟨pc, sreg, k, hpl, hpc⟩

/-- **A run**, up to the return. -/
theorem releasing_run (hinv : Inv h s) (hrel : s.Releasing owned u) (hrun : Run C s h' s')
    (hret : ∀ op r, .ret u op r ∉ h') : s'.Releasing owned u := by
  induction hrun with
  | nil => exact hrel
  | snoc hrun hstep ih =>
      refine releasing_step (inv_run hinv hrun) (ih fun op r hc => ?_) hstep fun op r hc => ?_
      · exact hret op r (List.mem_append_left _ hc)
      · exact hret op r (List.mem_append_right _ (List.mem_singleton.mpr hc.symm))

/-- What the caller does in the call: nothing to the mutex if it was not the owner, and
the return tells whether it was. -/
theorem releasing_self (hrel : s.Releasing owned u) (hstep : Step C s l s') :
    (l = .stmt u → owned = false → s'.mutex = s.mutex) ∧
      ∀ op r, l = .ret u op r → op = .release ∧
        r = some (if owned then .ok else .errNotOwner) ∧ s'.mutex = s.mutex ∧
          s'.mutex.owner ≠ some u := by
  obtain ⟨pc', sreg', k', hpl, hpc⟩ := hrel
  refine ⟨?_, ?_⟩
  · rintro rfl hfalse
    cases hstep with
    | stmt hat _ _ =>
        obtain ⟨rfl, rfl, rfl⟩ := Place.inside.inj (hat.symm.trans hpl)
        exact (mtxStmt_releasing (c := ⟨s.mutex, s.iflag, _, _⟩) hpc).2 hfalse
  · rintro op r rfl
    cases hstep with
    | ret hat hres =>
        rename_i pc sreg k
        obtain ⟨rfl, -, -⟩ := Place.inside.inj (hat.symm.trans hpl)
        cases pc with
        | release pc =>
            cases pc with
            | ret e =>
                obtain ⟨rfl, hne⟩ := hpc
                exact ⟨rfl, (Option.some.inj hres).symm, rfl, hne⟩
            | _ => exact absurd hres (by simp [MtxPc.result])
        | _ => exact absurd hpc not_false

end Sys

/-! ### Runs that can be computed -/

/-- A client whose tasks have at most one thing to do at each place of their own. -/
structure Script (τ σ π ε : Type) where
  step : τ → π → σ → Bool → Option (ε × π × σ × Bool)
  call : τ → π → Option (MtxOp × (MtxResult → π))

/-- The tasks of a script do what it says. -/
def Script.client {τ σ π ε : Type} (S : Script τ σ π ε) : Client τ σ π ε where
  step t p mem i e p' mem' i' := S.step t p mem i = some (e, p', mem', i')
  call t p op k := S.call t p = some (op, k)

namespace Sys

variable {τ σ π ε : Type} [DecidableEq τ] (S : Script τ σ π ε)

/-- What the running task does next.  At the `yield` of the wait loop it does nothing:
the next step is the switch. -/
def proceed (s : Sys τ σ π) : Option (Label τ ε × Sys τ σ π) :=
  match s.place s.cTask with
  | .own p =>
      match S.call s.cTask p with
      | some (op, k) => some (.call s.cTask op, s.goto (.inside op.entry false k))
      | none =>
          match S.step s.cTask p s.mem s.iflag with
          | some (e, p', mem', i') =>
              some (.own s.cTask e, { s.goto (.own p') with mem := mem', iflag := i' })
          | none => none
  | .inside pc sreg k =>
      match pc.result with
      | some r => some (.ret s.cTask pc.op r, s.goto (.own (k r)))
      | none => if pc = .lock .yield then none else some (.stmt s.cTask, s.stmt pc sreg k)

/-- The switch to `u`, where one is possible. -/
def preempt (u : τ) (s : Sys τ σ π) : Option (Sys τ σ π) :=
  match s.place s.cTask with
  | .own _ => some (s.switchTo u)
  | .inside pc sreg k =>
      if pc = .lock .yield then some ((s.goto (.inside (.lock .recli) sreg k)).switchTo u)
      else if s.iflag then some (s.switchTo u) else none

/-- The running task takes `n` steps. -/
def proceedFor : Nat → List (Label τ ε) × Sys τ σ π → Option (List (Label τ ε) × Sys τ σ π)
  | 0, c => some c
  | n + 1, c => do
      let (l, s') ← c.2.proceed S
      proceedFor n (c.1 ++ [l], s')

/-- Turn after turn: a switch to a task, and how many steps it takes. -/
def play : List (τ × Nat) → List (Label τ ε) × Sys τ σ π → Option (List (Label τ ε) × Sys τ σ π)
  | [], c => some c
  | (u, n) :: turns, c => do
      let s' ← c.2.preempt u
      let c' ← proceedFor S n (c.1 ++ [.switch u], s')
      play turns c'

variable {S} {s₀ s s' : Sys τ σ π} {h h' : List (Label τ ε)} {l : Label τ ε}

theorem proceed_step (hp : s.proceed S = some (l, s')) : Step S.client s l s' := by
  unfold proceed at hp
  split at hp
  · rename_i p hat
    split at hp
    · rename_i op k hcall
      obtain ⟨rfl, rfl⟩ := Prod.mk.inj (Option.some.inj hp)
      exact .call hat hcall
    · split at hp
      · rename_i e p' mem' i' hstep
        obtain ⟨rfl, rfl⟩ := Prod.mk.inj (Option.some.inj hp)
        exact .own hat hstep
      · exact absurd hp (by simp)
  · rename_i pc sreg k hat
    split at hp
    · rename_i r hres
      obtain ⟨rfl, rfl⟩ := Prod.mk.inj (Option.some.inj hp)
      exact .ret hat hres
    · rename_i hres
      by_cases hyield : pc = .lock .yield
      · rw [if_pos hyield] at hp
        exact absurd hp (by simp)
      · rw [if_neg hyield] at hp
        obtain ⟨rfl, rfl⟩ := Prod.mk.inj (Option.some.inj hp)
        exact .stmt hat hyield hres

theorem preempt_step {u : τ} (hp : s.preempt u = some s') : Step S.client s (.switch u) s' := by
  unfold preempt at hp
  split at hp
  · rename_i p hat
    rw [← Option.some.inj hp]
    exact .switch u (Or.inr ⟨p, hat⟩)
  · rename_i pc sreg k hat
    by_cases hyield : pc = .lock .yield
    · subst hyield
      rw [if_pos rfl] at hp
      rw [← Option.some.inj hp]
      exact .yield u hat
    · rw [if_neg hyield] at hp
      by_cases hi : s.iflag = true
      · rw [if_pos hi] at hp
        rw [← Option.some.inj hp]
        exact .switch u (Or.inl hi)
      · rw [if_neg hi] at hp
        exact absurd hp (by simp)

theorem proceedFor_run {n : Nat} {c c' : List (Label τ ε) × Sys τ σ π}
    (hrun : Run S.client s₀ c.1 c.2) (hp : proceedFor S n c = some c') :
    Run S.client s₀ c'.1 c'.2 := by
  induction n generalizing c with
  | zero => exact Option.some.inj hp ▸ hrun
  | succ n ih =>
      obtain ⟨⟨l, s'⟩, hstep, hrest⟩ := Option.bind_eq_some_iff.mp hp
      exact ih (hrun.snoc (proceed_step hstep)) hrest

/-- **What is played is a run.** -/
theorem play_run {turns : List (τ × Nat)} {c c' : List (Label τ ε) × Sys τ σ π}
    (hrun : Run S.client s₀ c.1 c.2) (hp : play S turns c = some c') :
    Run S.client s₀ c'.1 c'.2 := by
  induction turns generalizing c with
  | nil => exact Option.some.inj hp ▸ hrun
  | cons turn turns ih =>
      obtain ⟨s', hpre, hrest⟩ := Option.bind_eq_some_iff.mp hp
      obtain ⟨c'', hfor, hplay⟩ := Option.bind_eq_some_iff.mp hrest
      exact ih (proceedFor_run (hrun.snoc (preempt_step hpre)) hfor) hplay

end Sys

/-- Every task makes its calls of the three functions one after another. -/
def callsOnly (τ : Type) : Script τ Unit (List MtxOp) Unit where
  step _ _ _ _ := none
  call _ p :=
    match p with
    | [] => none
    | op :: rest => some (op, fun _ => rest)

/-- The tasks before their first calls. -/
def Sys.start {τ : Type} (first : τ) (prog : τ → List MtxOp) : Sys τ Unit (List MtxOp) :=
  ⟨mtxInit, true, first, (), fun t => .own (prog t)⟩

theorem Sys.start_initial {τ : Type} (first : τ) (prog : τ → List MtxOp) :
    (Sys.start first prog).Initial :=
  ⟨rfl, fun t => ⟨prog t, rfl⟩⟩

namespace Sys

variable {τ σ π ε : Type} [DecidableEq τ] {C : Client τ σ π ε} {s s' : Sys τ σ π}
  {h : List (Label τ ε)} {l : Label τ ε} {t : τ}

/-! ### Mutual exclusion -/

/-- **Mutual exclusion.** At every point of every run at most one task is in its section,
it is the owner, and until it calls `mtx_release` no step of any task changes the mutex.
A call of `mtx_release` that another task makes meanwhile leaves the mutex as it is with
every statement, and returns `MUTEX_ERR_NOT_OWNER`, whatever happens before it returns. -/
theorem mutual_exclusion {s₀ : Sys τ σ π} (h₀ : s₀.Initial) (hrun : Run C s₀ h s) :
    (∀ t u, InSection t h → InSection u h → t = u) ∧
    (∀ t, InSection t h → s.mutex.owner = some t) ∧
    (∀ t l s', InSection t h → Step C s l s' → s'.mutex = s.mutex) ∧
    (∀ t u s₁ h' s₂ l s₃, InSection t h → u ≠ t → Step C s (.call u .release) s₁ →
      Run C s₁ h' s₂ → (∀ op r, .ret u op r ∉ h') → Step C s₂ l s₃ →
      (l = .stmt u → s₃.mutex = s₂.mutex) ∧
      ∀ op r, l = .ret u op r → r = some .errNotOwner ∧ s₃.mutex = s₂.mutex) := by
  have hinv := inv_reached h₀ hrun
  refine ⟨fun t u => hinv.unique, hinv.section_owner, fun t l s' => hinv.unchanged, ?_⟩
  intro t u s₁ h' s₂ l s₃ ht hne hcall hrun' hret hstep
  have howned : s.mutex.owner = some u ↔ false = true := by
    rw [hinv.section_owner t ht]
    exact ⟨fun hc => absurd (Option.some.inj hc).symm hne, fun hc => absurd hc Bool.false_ne_true⟩
  have hrel : s₂.Releasing false u :=
    releasing_run (inv_step hinv hcall) (releasing_call howned hcall) hrun' hret
  obtain ⟨hstmt, hreturn⟩ := releasing_self hrel hstep
  refine ⟨fun hl => hstmt hl rfl, fun op r hl => ?_⟩
  obtain ⟨-, hr, hmutex, -⟩ := hreturn op r hl
  exact ⟨hr, hmutex⟩

/-- Task 0 locks; task 1 tries, locks, and waits in the loop; task 0 runs on. -/
def contended (t : Fin 2) : List MtxOp :=
  if t = 0 then [.lock, .release] else [.tryLock, .release, .lock]

theorem mutual_exclusion_contended :
    ∃ h s, Run (callsOnly (Fin 2)).client (start 0 contended) h s ∧
      .ret 1 .release (some .errNotOwner) ∈ h ∧ s.cTask = 0 ∧
      s.mutex.owner = some 0 ∧ ∀ u, InSection u h → u = 0 := by
  have hplay : ((play (callsOnly (Fin 2)) [(0, 8), (1, 17), (0, 0)]
      ([], start 0 contended)).map fun c => decide (InSection 0 c.1 ∧
        .ret 1 .release (some .errNotOwner) ∈ c.1 ∧ c.2.cTask = 0)) = some true := by decide +kernel
  obtain ⟨⟨h, s⟩, hc, hdec⟩ := Option.map_eq_some_iff.mp hplay
  obtain ⟨hsec, hret, hself⟩ := of_decide_eq_true hdec
  have hrun : Run (callsOnly (Fin 2)).client (start 0 contended) h s := play_run (.nil _) hc
  obtain ⟨hone, hown, -, -⟩ := mutual_exclusion (start_initial _ _) hrun
  exact ⟨h, s, hrun, hret, hself, hown 0 hsec, fun u hu => hone u 0 hu hsec⟩

/-! ### Nested locking -/

/-- **The first release of a nest.** From the `mtx_lock` or `mtx_try_lock` by which a task
acquires until its next call of `mtx_release`, however often it calls `mtx_lock` in
between, it is the owner, no call of another task acquires, and no step of any task, its
own nested calls included, changes the mutex.  That release returns `MUTEX_OK` and gives
the mutex up; one that is called outside a section returns `MUTEX_ERR_NOT_OWNER` and
leaves the mutex as it is with every statement. -/
theorem first_release_gives_up {s₀ : Sys τ σ π} (h₀ : s₀.Initial) (hrun : Run C s₀ h s) :
    (∀ t, InSection t h → s.mutex.owner = some t) ∧
    (∀ t u op r s', InSection t h → Step C s (.ret u op r) s' → op.acquires r = true → u = t) ∧
    (∀ t l s', InSection t h → Step C s l s' → s'.mutex = s.mutex) ∧
    (∀ t s₁ h' s₂ l s₃, Step C s (.call t .release) s₁ → Run C s₁ h' s₂ →
      (∀ op r, .ret t op r ∉ h') → Step C s₂ l s₃ →
      (InSection t h → ∀ op r, l = .ret t op r →
        r = some .ok ∧ s₃.mutex.owner ≠ some t) ∧
      (¬ InSection t h → (l = .stmt t → s₃.mutex = s₂.mutex) ∧
        ∀ op r, l = .ret t op r → r = some .errNotOwner ∧ s₃.mutex = s₂.mutex)) := by
  have hinv := inv_reached h₀ hrun
  refine ⟨hinv.section_owner, fun t u op r s' ht => hinv.acquires_self ht,
    fun t l s' => hinv.unchanged, ?_⟩
  intro t s₁ h' s₂ l s₃ hcall hrun' hret hstep
  have hiff : s.mutex.owner = some t ↔ InSection t h := by
    cases hcall with
    | call hat _ => exact hinv.owner_iff hat
  have hrel : ∀ owned, (InSection t h ↔ owned = true) → s₂.Releasing owned t := fun owned howned =>
    releasing_run (inv_step hinv hcall) (releasing_call (hiff.trans howned) hcall) hrun' hret
  refine ⟨fun hsec op r hl => ?_, fun hsec => ?_⟩
  · have hown := hrel true (iff_of_true hsec rfl)
    obtain ⟨-, hr, -, hne⟩ := (releasing_self hown hstep).2 op r hl
    exact ⟨hr, hne⟩
  · have hnot := hrel false (iff_of_false hsec Bool.false_ne_true)
    obtain ⟨hstmt, hreturn⟩ := releasing_self hnot hstep
    refine ⟨fun hl => hstmt hl rfl, fun op r hl => ?_⟩
    obtain ⟨-, hr, hmutex, -⟩ := hreturn op r hl
    exact ⟨hr, hmutex⟩

/-- The calls of `mtx_lock` that have returned and have no call of `mtx_release` yet. -/
def depthStep (t : τ) (d : Nat) : Label τ ε → Nat
  | .ret u .lock _ => if u = t then d + 1 else d
  | .call u .release => if u = t then d - 1 else d
  | _ => d

/-- How deep `t` has nested its locking after what the labels show. -/
def depth (t : τ) (h : List (Label τ ε)) : Nat := h.foldl (depthStep t) 0

/-- Is every `mtx_release` of the program the end of a bracket that a `mtx_lock` has
opened, and every bracket closed? -/
def brackets : Nat → List MtxOp → Bool
  | 0, [] => true
  | d, .lock :: p => brackets (d + 1) p
  | d + 1, .release :: p => brackets d p
  | _, _ => false

/-- Task 0 nests two pairs; task 1 has one. -/
def nested (t : Fin 2) : List MtxOp :=
  if t = 0 then [.lock, .lock, .release, .release] else [.lock, .release]

/-- After the inner `mtx_release` of the nest task 1 acquires the mutex, while task 0 is
still inside its outer pair, and the outer `mtx_release` returns
`MUTEX_ERR_NOT_OWNER`. -/
theorem inner_release_gives_up :
    (∀ t, brackets 0 (nested t) = true) ∧
    (∃ h s, Run (callsOnly (Fin 2)).client (start 0 nested) h s ∧
      0 < depth 0 h ∧ s.mutex.owner = some 1) ∧
    (∃ h s, Run (callsOnly (Fin 2)).client (start 0 nested) h s ∧
      .ret 0 .release (some .errNotOwner) ∈ h) := by
  refine ⟨by decide, ?_, ?_⟩
  · have hplay : ((play (callsOnly (Fin 2)) [(0, 21), (1, 8)] ([], start 0 nested)).map
        fun c => decide (0 < depth 0 c.1 ∧ c.2.mutex.owner = some 1)) = some true := by decide +kernel
    obtain ⟨⟨h, s⟩, hc, hdec⟩ := Option.map_eq_some_iff.mp hplay
    exact ⟨h, s, play_run (.nil _) hc, of_decide_eq_true hdec⟩
  · have hplay : ((play (callsOnly (Fin 2)) [(0, 21), (1, 8), (0, 6)] ([], start 0 nested)).map
        fun c => decide (.ret 0 .release (some .errNotOwner) ∈ c.1)) = some true := by decide +kernel
    obtain ⟨⟨h, s⟩, hc, hdec⟩ := Option.map_eq_some_iff.mp hplay
    exact ⟨h, s, play_run (.nil _) hc, of_decide_eq_true hdec⟩

theorem first_release_gives_up_nested :
    ∃ h s, Run (callsOnly (Fin 2)).client (start 0 nested) h s ∧ depth 0 h = 2 ∧
      s.mutex.owner = some 0 := by
  have hplay : ((play (callsOnly (Fin 2)) [(0, 14)] ([], start 0 nested)).map
      fun c => decide (InSection 0 c.1 ∧ depth 0 c.1 = 2)) = some true := by decide +kernel
  obtain ⟨⟨h, s⟩, hc, hdec⟩ := Option.map_eq_some_iff.mp hplay
  obtain ⟨hsec, hdepth⟩ := of_decide_eq_true hdec
  have hrun : Run (callsOnly (Fin 2)).client (start 0 nested) h s := play_run (.nil _) hc
  exact ⟨h, s, hrun, hdepth, (first_release_gives_up (start_initial _ _) hrun).1 0 hsec⟩

end Sys

end AtmegaScheduler
