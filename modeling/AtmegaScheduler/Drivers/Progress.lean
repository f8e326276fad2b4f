/-
No deadlock.

Mutual exclusion alone would be kept by a mutex that nobody ever gets.  What is shown here
is that a task which waits in `mtx_lock` waits for a task that can give the mutex back:
wherever a run stands, it can go on so that every task finishes, as long as no task ends
while it is in its section.

A program is followed from place to place.  In its section a task knows the memory, since
nobody else touches it; outside it knows only what every section leaves behind.
-/
import AtmegaScheduler.Drivers.Delivery
import Mathlib.Data.Fintype.Basic

namespace AtmegaScheduler

open Avr

section Programs

variable {τ σ π ε : Type}

namespace Script

variable (S : Script τ σ π ε) (t : τ) (p : π)

/-- The task has nothing more to do. -/
def Stops : Prop := S.call t p = none ∧ ∀ mem i, S.step t p mem i = none

/-- The task calls a function of the mutex, and does nothing else. -/
def Calls (op : MtxOp) (k : MtxResult → π) : Prop :=
  S.call t p = some (op, k) ∧ ∀ mem i, S.step t p mem i = none

/-- The task does a step of its own, whatever the interrupt flag is. -/
def Moves (mem : σ) (p' : π) (mem' : σ) : Prop :=
  ∀ i, ∃ e i', S.step t p mem i = some (e, p', mem', i')

end Script

/-- What a task that calls `op` knows of the memory before and after: after an acquisition
it finds what the sections leave behind. -/
inductive Learns (J : σ → Prop) (op : MtxOp) (r : MtxResult) : Option σ → Option σ → Prop
  | takes {mem : σ} (hacq : op.acquires r = true) (hmem : J mem) : Learns J op r none (some mem)
  | keepsIn {mem : σ} (hop : op ≠ .release) : Learns J op r (some mem) (some mem)
  | keepsOut (hacq : op.acquires r = false) : Learns J op r none none
  | gives {mem : σ} (hop : op = .release) : Learns J op r (some mem) none

/-- Running alone, the task comes to an end outside of its section.  In the section it is
at a place with a memory; outside it leaves the memory as it is. -/
inductive Winds (S : Script τ σ π ε) (J : σ → Prop) (t : τ) : Option σ → π → Prop
  | stop {p : π} (hstop : S.Stops t p) : Winds S J t none p
  | moveOut {p p' : π} (hcall : S.call t p = none) (hmove : ∀ mem, S.Moves t p mem p' mem)
      (hrest : Winds S J t none p') : Winds S J t none p
  | moveIn {p p' : π} {mem mem' : σ} (hcall : S.call t p = none) (hmove : S.Moves t p mem p' mem')
      (hrest : Winds S J t (some mem') p') : Winds S J t (some mem) p
  | call {known : Option σ} {p : π} {op : MtxOp} {k : MtxResult → π} (hcalls : S.Calls t p op k)
      (hmem : op = .release → ∀ mem, known = some mem → J mem)
      (hrest : ∀ r known', Learns J op r known known' → Winds S J t known' (k r)) :
      Winds S J t known p

/-- The same of a task that may be in the middle of a function of the mutex. -/
def Place.Winds (S : Script τ σ π ε) (J : σ → Prop) (t : τ) (known : Option σ) :
    Place π → Prop
  | .own p => AtmegaScheduler.Winds S J t known p
  | .inside pc _ k =>
      ∀ r known', Learns J pc.op r known known' → AtmegaScheduler.Winds S J t known' (k r)

/-- A label with which the task itself calls nothing and returns from nothing. -/
def Label.OtherThan (t : τ) : Label τ ε → Prop
  | .call u _ => u ≠ t
  | .ret u _ _ => u ≠ t
  | _ => True

variable {S : Script τ σ π ε} {J : σ → Prop} {t : τ} {p p' : π} {mem mem' : σ} {i i' : Bool}
  {e : ε} {known : Option σ} {op : MtxOp} {k : MtxResult → π}

/-- A step of the task's own. -/
theorem Winds.step (h : Winds S J t known p) (hstep : S.step t p mem i = some (e, p', mem', i'))
    (hknown : ∀ m, known = some m → m = mem) :
    (known = none → mem' = mem) ∧ Winds S J t (known.map fun _ => mem') p' := by
  cases h with
  | stop hstop => exact absurd (hstep.symm.trans (hstop.2 mem i)) (by simp)
  | moveOut hcall hmove hrest =>
      obtain ⟨e₁, i₁, hmoved⟩ := hmove mem i
      have heq := Option.some.inj (hstep.symm.trans hmoved)
      simp only [Prod.mk.injEq] at heq
      obtain ⟨_, rfl, rfl, _⟩ := heq
      exact ⟨fun _ => rfl, hrest⟩
  | moveIn hcall hmove hrest =>
      obtain rfl := hknown _ rfl
      obtain ⟨e₁, i₁, hmoved⟩ := hmove i
      have heq := Option.some.inj (hstep.symm.trans hmoved)
      simp only [Prod.mk.injEq] at heq
      obtain ⟨_, rfl, rfl, _⟩ := heq
      exact ⟨fun hc => absurd hc (by simp), hrest⟩
  | call hcalls _ _ => exact absurd (hstep.symm.trans (hcalls.2 mem i)) (by simp)

/-- A call of a function of the mutex. -/
theorem Winds.called (h : Winds S J t known p) (hcall : S.call t p = some (op, k)) :
    (op = .release → ∀ mem, known = some mem → J mem) ∧
      ∀ r known', Learns J op r known known' → Winds S J t known' (k r) := by
  cases h with
  | stop hstop => exact absurd (hcall.symm.trans hstop.1) (by simp)
  | moveOut hnone _ _ => exact absurd (hcall.symm.trans hnone) (by simp)
  | moveIn hnone _ _ => exact absurd (hcall.symm.trans hnone) (by simp)
  | call hcalls hmem hrest =>
      have heq := Option.some.inj (hcall.symm.trans hcalls.1)
      obtain ⟨rfl, rfl⟩ := Prod.mk.inj heq
      exact ⟨hmem, hrest⟩

end Programs

namespace Sys

variable {τ σ π ε : Type} [DecidableEq τ] {S : Script τ σ π ε} {J : σ → Prop}

/-- What a task knows of the memory. -/
def known (h : List (Label τ ε)) (s : Sys τ σ π) (t : τ) : Option σ :=
  if InSection t h then some s.mem else none

/-- Every task can come to an end, and what the sections leave behind satisfies `J`. -/
structure Ready (S : Script τ σ π ε) (J : σ → Prop) (h : List (Label τ ε)) (s : Sys τ σ π) :
    Prop where
  winds : ∀ t, (s.place t).Winds S J t (known h s t)
  mem : (∀ t, ¬ InSection t h) → J s.mem

section Steps

variable {s s' : Sys τ σ π} {h : List (Label τ ε)} {l : Label τ ε} {t : τ}

theorem known_none (ht : ¬ InSection t h) : known h s t = none := if_neg ht

theorem known_some (ht : InSection t h) : known h s t = some s.mem := if_pos ht

/-- What a task knows is so. -/
theorem known_eq {m : σ} (hknown : known h s t = some m) : InSection t h ∧ m = s.mem := by
  unfold known at hknown
  by_cases ht : InSection t h
  · rw [if_pos ht] at hknown
    exact ⟨ht, (Option.some.inj hknown).symm⟩
  · rw [if_neg ht] at hknown
    exact absurd hknown (by simp)

theorem inSection_other (hl : l.OtherThan t) : InSection t (h ++ [l]) ↔ InSection t h := by
  cases l with
  | own u e => exact inSection_own
  | call u op =>
      rw [inSection_call]
      exact ⟨fun hc => hc.1, fun hc => ⟨hc, fun hu => hl hu.1⟩⟩
  | stmt u => exact inSection_stmt
  | ret u op r =>
      rw [inSection_ret]
      exact ⟨fun hc => hc.resolve_left fun hu => hl hu.1, Or.inr⟩
  | switch u => exact inSection_switch

/-- The others stay ready when the running task moves, and does not touch the memory of
another one's section. -/
theorem Ready.others (hready : Ready S J h s) (hl : l.OtherThan t) (hplace : s'.place t = s.place t)
    (hmem : InSection t h → s'.mem = s.mem) : (s'.place t).Winds S J t (known (h ++ [l]) s' t) := by
  have hknown : known (h ++ [l]) s' t = known h s t := by
    unfold known
    by_cases ht : InSection t h
    · rw [if_pos ((inSection_other hl).mpr ht), if_pos ht, hmem ht]
    · rw [if_neg (mt (inSection_other hl).mp ht), if_neg ht]
  rw [hknown, hplace]
  exact hready.winds t

theorem ready_own {p p' : π} {e : ε} {mem' : σ} {i' : Bool} (hinv : Inv h s)
    (hready : Ready S J h s) (hat : s.place s.cTask = .own p)
    (hstep : S.step s.cTask p s.mem s.iflag = some (e, p', mem', i')) :
    Ready S J (h ++ [.own s.cTask e]) { s.goto (.own p') with mem := mem', iflag := i' } := by
  have hw := hready.winds s.cTask
  rw [hat] at hw
  obtain ⟨hkeep, hwinds⟩ := Winds.step hw hstep fun m hm => (known_eq hm).2
  -- Outside of its own section the task leaves the memory as it is.
  have hmem : ¬ InSection s.cTask h → mem' = s.mem := fun hno => hkeep (known_none hno)
  refine ⟨fun t => ?_, fun hno => ?_⟩
  · by_cases ht : t = s.cTask
    · rw [ht]
      show ((s.goto (.own p')).place s.cTask).Winds S J _ _
      rw [goto_self]
      have hknown : known (h ++ [.own s.cTask e])
          { s.goto (.own p') with mem := mem', iflag := i' } s.cTask =
          (known h s s.cTask).map fun _ => mem' := by
        unfold known
        by_cases hin : InSection s.cTask h
        · rw [if_pos (inSection_own.mpr hin), if_pos hin]
          rfl
        · rw [if_neg (mt inSection_own.mp hin), if_neg hin]
          rfl
      rw [hknown]
      exact hwinds
    · have hplace : ({ s.goto (.own p') with mem := mem', iflag := i' } : Sys τ σ π).place t =
          s.place t := goto_other ht
      refine hready.others trivial hplace fun hin => hmem fun hself => ?_
      exact ht (hinv.unique hin hself)
  · have hnone : ∀ t, ¬ InSection t h := fun t ht => hno t (inSection_own.mpr ht)
    show J mem'
    rw [hmem (hnone s.cTask)]
    exact hready.mem hnone

omit [DecidableEq τ] in
theorem entry_op (op : MtxOp) : op.entry.op = op := by
  cases op with
  | lock => rfl
  | tryLock => rfl
  | release => rfl

theorem ready_call {p : π} {op : MtxOp} {k : MtxResult → π} (hready : Ready S J h s)
    (hat : s.place s.cTask = .own p) (hcall : S.call s.cTask p = some (op, k)) :
    Ready S J (h ++ [.call s.cTask op]) (s.goto (.inside op.entry false k)) := by
  have hw := hready.winds s.cTask
  rw [hat] at hw
  obtain ⟨hgive, hwinds⟩ := Winds.called hw hcall
  refine ⟨fun t => ?_, fun hno => ?_⟩
  · by_cases ht : t = s.cTask
    · rw [ht, goto_self]
      intro r known' hlearns
      rw [entry_op] at hlearns
      by_cases hrel : op = .release
      · have hafter : known (h ++ [.call s.cTask op]) (s.goto (.inside op.entry false k)) s.cTask =
            none := known_none fun hin => (inSection_call.mp hin).2 ⟨rfl, hrel⟩
        rw [hafter] at hlearns
        cases hlearns with
        | takes hacq _ =>
            rw [hrel] at hacq
            exact absurd hacq Bool.false_ne_true
        | keepsOut hacq =>
            cases hbefore : known h s s.cTask with
            | none =>
                apply hwinds r none
                rw [hbefore]
                exact .keepsOut hacq
            | some m =>
                apply hwinds r none
                rw [hbefore]
                exact .gives hrel
      · have hsame : known (h ++ [.call s.cTask op]) (s.goto (.inside op.entry false k)) s.cTask =
            known h s s.cTask := by
          unfold known
          by_cases hin : InSection s.cTask h
          · rw [if_pos (inSection_call.mpr ⟨hin, fun hc => hrel hc.2⟩), if_pos hin]
            rfl
          · rw [if_neg fun hc => hin (inSection_call.mp hc).1, if_neg hin]
        rw [hsame] at hlearns
        exact hwinds r known' hlearns
    · exact hready.others (l := .call s.cTask op) (Ne.symm ht) (goto_other ht) fun _ => rfl
  · by_cases hin : InSection s.cTask h
    · have hrel : op = .release := by
        by_contra hc
        exact hno s.cTask (inSection_call.mpr ⟨hin, fun hc' => hc hc'.2⟩)
      exact hgive hrel s.mem (known_some hin)
    · refine hready.mem fun t ht => ?_
      have hne : ¬ (s.cTask = t ∧ op = .release) := by
        rintro ⟨rfl, _⟩
        exact hin ht
      exact hno t (inSection_call.mpr ⟨ht, hne⟩)

theorem ready_stmt {pc : MtxPc} {sreg : Bool} {k : MtxResult → π} (hready : Ready S J h s)
    (hat : s.place s.cTask = .inside pc sreg k) :
    Ready S J (h ++ [.stmt s.cTask]) (s.stmt pc sreg k) := by
  have hw := hready.winds s.cTask
  rw [hat] at hw
  refine ⟨fun t => ?_, fun hno => hready.mem fun t ht => hno t (inSection_stmt.mpr ht)⟩
  by_cases ht : t = s.cTask
  · have hplace : (s.stmt pc sreg k).place s.cTask =
        .inside (s.after pc sreg).pc (s.after pc sreg).sreg k := goto_self _ _
    have hop : (s.after pc sreg).pc.op = pc.op := mtxStmt_op _ _
    have hsame : known (h ++ [.stmt s.cTask]) (s.stmt pc sreg k) s.cTask = known h s s.cTask := by
      unfold known
      by_cases hin : InSection s.cTask h
      · rw [if_pos (inSection_stmt.mpr hin), if_pos hin]
        rfl
      · rw [if_neg (mt inSection_stmt.mp hin), if_neg hin]
    rw [ht, hplace, hsame]
    intro r known' hlearns
    rw [hop] at hlearns
    exact hw r known' hlearns
  · exact hready.others (l := .stmt s.cTask) trivial (goto_other ht) fun _ => rfl

theorem ready_ret {pc : MtxPc} {r : MtxResult} {sreg : Bool} {k : MtxResult → π} (hinv : Inv h s)
    (hready : Ready S J h s) (hat : s.place s.cTask = .inside pc sreg k)
    (hret : pc.result = some r) :
    Ready S J (h ++ [.ret s.cTask pc.op r]) (s.goto (.own (k r))) := by
  have hw := hready.winds s.cTask
  rw [hat] at hw
  have hinv' := inv_ret hinv hat hret
  have hold : ∀ t, InSection t h → InSection t (h ++ [.ret s.cTask pc.op r]) :=
    fun t ht => inSection_ret.mpr (Or.inr ht)
  refine ⟨fun t => ?_, fun hno => hready.mem fun t ht => hno t (hold t ht)⟩
  by_cases ht : t = s.cTask
  · rw [ht, goto_self]
    refine hw r _ ?_
    by_cases hin : InSection s.cTask h
    · rw [known_some hin, known_some (hold _ hin)]
      exact .keepsIn (hinv.section_place _ hin _ _ _ hat)
    · rw [known_none hin]
      by_cases hacq : pc.op.acquires r = true
      · have hnow : InSection s.cTask (h ++ [.ret s.cTask pc.op r]) :=
          inSection_ret.mpr (Or.inl ⟨rfl, hacq⟩)
        rw [known_some hnow]
        refine .takes hacq (hready.mem fun u hu => ?_)
        have hself : u = s.cTask := hinv'.unique (hold u hu) hnow
        rw [hself] at hu
        exact hin hu
      · have hnot : ¬ InSection s.cTask (h ++ [.ret s.cTask pc.op r]) := by
          intro hc
          rcases inSection_ret.mp hc with ⟨_, ha⟩ | hc
          · exact hacq ha
          · exact hin hc
        rw [known_none hnot]
        exact .keepsOut (Bool.not_eq_true _ ▸ hacq)
  · exact hready.others (l := .ret s.cTask pc.op r) (Ne.symm ht) (goto_other ht) fun _ => rfl

theorem ready_switch (hready : Ready S J h s) (u : τ) :
    Ready S J (h ++ [.switch u]) (s.switchTo u) :=
  ⟨fun _ => hready.others (l := .switch u) trivial rfl fun _ => rfl,
    fun hno => hready.mem fun t ht => hno t (inSection_switch.mpr ht)⟩

theorem ready_yield {sreg : Bool} {k : MtxResult → π} (hready : Ready S J h s) (u : τ)
    (hat : s.place s.cTask = .inside (.lock .yield) sreg k) :
    Ready S J (h ++ [.switch u]) ((s.goto (.inside (.lock .recli) sreg k)).switchTo u) := by
  refine ⟨fun t => ?_, fun hno => hready.mem fun t ht => hno t (inSection_switch.mpr ht)⟩
  by_cases ht : t = s.cTask
  · have hw := hready.winds s.cTask
    rw [hat] at hw
    have hsame : known (h ++ [.switch u])
        ((s.goto (.inside (.lock .recli) sreg k)).switchTo u) s.cTask = known h s s.cTask := by
      unfold known
      by_cases hin : InSection s.cTask h
      · rw [if_pos (inSection_switch.mpr hin), if_pos hin]
        rfl
      · rw [if_neg (mt inSection_switch.mp hin), if_neg hin]
    rw [ht, hsame]
    show ((s.goto (.inside (.lock .recli) sreg k)).place s.cTask).Winds S J _ _
    rw [goto_self]
    exact hw
  · have hplace : ((s.goto (.inside (.lock .recli) sreg k)).switchTo u).place t = s.place t :=
      goto_other ht
    exact hready.others (l := .switch u) trivial hplace fun _ => rfl

/-- **One step** leaves every task ready. -/
theorem ready_step (hinv : Inv h s) (hready : Ready S J h s) (hstep : Step S.client s l s') :
    Ready S J (h ++ [l]) s' := by
  cases hstep with
  | own hat hstep => exact ready_own hinv hready hat hstep
  | call hat hcall => exact ready_call hready hat hcall
  | stmt hat _ _ => exact ready_stmt hready hat
  | ret hat hret => exact ready_ret hinv hready hat hret
  | yield u hat => exact ready_yield hready u hat
  | switch u _ => exact ready_switch hready u

/-- **A run** leaves every task ready. -/
theorem ready_run {h' : List (Label τ ε)} (hinv : Inv h s) (hready : Ready S J h s)
    (hrun : Run S.client s h' s') : Ready S J (h ++ h') s' := by
  induction hrun with
  | nil =>
      rw [List.append_nil]
      exact hready
  | snoc hrun hstep ih =>
      rw [← List.append_assoc]
      exact ready_step (inv_run hinv hrun) ih hstep

end Steps

end Sys

/-! ### One task at a time -/

namespace MtxPc

/-- How far a statement is from the return of its function, when the task does not have
to wait. -/
def left : MtxPc → Nat
  | .lock .save => 9
  | .lock .cli => 8
  | .lock .testOwn => 7
  | .lock .yield => 6
  | .lock .recli => 5
  | .lock .testFree => 4
  | .lock .take => 3
  | .lock .restoreOwn | .lock .restore => 2
  | .lock .ret => 0
  | .tryLock .save => 5
  | .tryLock .cli => 4
  | .tryLock .test => 3
  | .tryLock .take => 2
  | .tryLock .restoreLocked | .tryLock .restore => 1
  | .tryLock (.ret _) => 0
  | .release .save => 5
  | .release .cli => 4
  | .release .test => 3
  | .release .clear => 2
  | .release .restoreNotOwner | .release .restore => 1
  | .release (.ret _) => 0

end MtxPc

section Statements

variable {τ : Type} [DecidableEq τ] {self : τ} {c : MtxCall τ}

/-- A statement is on the way to the return, or on the way to `yield` because another
task has the mutex. -/
theorem mtxStmt_left (hfits : c.Fits self) (hret : c.pc.result = none)
    (hyield : c.pc ≠ .lock .yield) : (mtxStmt self c).pc.left < c.pc.left ∨
      (mtxStmt self c).pc = .lock .yield ∧ c.mutex.owner ≠ none ∧ c.mutex.owner ≠ some self := by
  obtain ⟨m, i, sreg, pc⟩ := c
  have hknows := hfits.knows
  cases pc with
  | lock pc =>
      cases pc with
      | testOwn =>
          left
          show (if _ then _ else _ : MtxCall τ).pc.left < 7
          split
          · exact Nat.le_of_ble_eq_true rfl
          · exact Nat.le_of_ble_eq_true rfl
      | testFree =>
          show (if _ then _ else _ : MtxCall τ).pc.left < 4 ∨
            (if _ then _ else _ : MtxCall τ).pc = _ ∧ _
          by_cases hfree : m.owner ≠ none
          · rw [if_pos hfree]
            exact Or.inr ⟨rfl, hfree, hknows⟩
          · rw [if_neg hfree]
            exact Or.inl (Nat.le_of_ble_eq_true rfl)
      | yield => exact absurd rfl hyield
      | ret => exact absurd hret (by simp [MtxPc.result])
      | _ => exact Or.inl (Nat.le_of_ble_eq_true rfl)
  | tryLock pc =>
      cases pc with
      | test =>
          left
          show (if _ then _ else _ : MtxCall τ).pc.left < 3
          split
          · exact Nat.le_of_ble_eq_true rfl
          · exact Nat.le_of_ble_eq_true rfl
      | ret r => exact absurd hret (by simp [MtxPc.result])
      | _ => exact Or.inl (Nat.le_of_ble_eq_true rfl)
  | release pc =>
      cases pc with
      | test =>
          left
          show (if _ then _ else _ : MtxCall τ).pc.left < 3
          split
          · exact Nat.le_of_ble_eq_true rfl
          · exact Nat.le_of_ble_eq_true rfl
      | ret r => exact absurd hret (by simp [MtxPc.result])
      | _ => exact Or.inl (Nat.le_of_ble_eq_true rfl)

end Statements

namespace Sys

section Alone

variable {τ σ π ε : Type} [DecidableEq τ] {S : Script τ σ π ε} {J : σ → Prop}
  {s s' s'' : Sys τ σ π} {h h' h'' : List (Label τ ε)} {l : Label τ ε} {t : τ} {C : Client τ σ π ε}

theorem Run.trans (hrun : Run C s h s') (hrun' : Run C s' h' s'') : Run C s (h ++ h') s'' := by
  induction hrun' with
  | nil =>
      rw [List.append_nil]
      exact hrun
  | snoc _ hstep ih =>
      rw [← List.append_assoc]
      exact .snoc ih hstep

theorem Run.single (hstep : Step C s l s') : Run C s [l] s' := .snoc (.nil s) hstep

/-- The mutex is free, or the task has it. -/
def Clear (s : Sys τ σ π) (t : τ) : Prop := s.mutex.owner = none ∨ s.mutex.owner = some t

/-- The running task goes on alone from `s` to `s'`: no other task moves. -/
structure Goes (S : Script τ σ π ε) (s : Sys τ σ π) (h : List (Label τ ε)) (s' : Sys τ σ π) :
    Prop where
  run : Run S.client s h s'
  running : s'.cTask = s.cTask
  others : ∀ u, u ≠ s.cTask → s'.place u = s.place u
  labels : ∀ u, u ≠ s.cTask → ∀ l ∈ h, l.OtherThan u

theorem Goes.refl (s : Sys τ σ π) : Goes S s [] s :=
  ⟨.nil s, rfl, fun _ _ => rfl, fun _ _ _ hl => absurd hl List.not_mem_nil⟩

theorem Goes.trans (hgoes : Goes S s h s') (hgoes' : Goes S s' h' s'') :
    Goes S s (h ++ h') s'' := by
  obtain ⟨hrun, hsame, hothers, hlabels⟩ := hgoes
  obtain ⟨hrun', hsame', hothers', hlabels'⟩ := hgoes'
  refine ⟨hrun.trans hrun', hsame'.trans hsame, fun u hu => ?_, fun u hu l hl => ?_⟩
  · rw [hothers' u (by rw [hsame]; exact hu), hothers u hu]
  · rcases List.mem_append.mp hl with hl | hl
    · exact hlabels u hu l hl
    · exact hlabels' u (by rw [hsame]; exact hu) l hl

/-- What a step shows, it shows of the running task. -/
theorem step_otherThan {u : τ} (hstep : Step C s l s') (hu : u ≠ s.cTask) : l.OtherThan u := by
  cases hstep with
  | call _ _ => exact hu.symm
  | ret _ _ => exact hu.symm
  | _ => trivial

theorem Goes.single (hstep : Step S.client s l s') (hrunning : s'.cTask = s.cTask)
    (hothers : ∀ u, u ≠ s.cTask → s'.place u = s.place u) : Goes S s [l] s' :=
  ⟨.single hstep, hrunning, hothers, fun _ hu _ hl =>
    List.mem_singleton.mp hl ▸ step_otherThan hstep hu⟩

/-- A statement does not take the mutex from another task. -/
theorem clear_stmt {pc : MtxPc} {sreg : Bool} {k : MtxResult → π} (hinv : Inv h s)
    (hat : s.place s.cTask = .inside pc sreg k) (hclear : s.Clear s.cTask) :
    (s.stmt pc sreg k).Clear s.cTask := by
  obtain ⟨_, howner⟩ := hinv.after_fits hat
  unfold Clear at hclear ⊢
  show (s.after pc sreg).mutex.owner = none ∨ (s.after pc sreg).mutex.owner = some s.cTask
  generalize s.mutex.owner = o at howner hclear
  generalize (s.after pc sreg).mutex.owner = o' at howner ⊢
  cases howner with
  | keep => exact hclear
  | take => exact Or.inr rfl
  | clear _ => exact Or.inl rfl

/-- The running task's call has returned `r`. -/
structure Returned (h : List (Label τ ε)) (s : Sys τ σ π) (op : MtxOp) (k : MtxResult → π)
    (h' : List (Label τ ε)) (s' : Sys τ σ π) (r : MtxResult) : Prop where
  place : s'.place s.cTask = .own (k r)
  clear : s'.Clear s.cTask
  mem : s'.mem = s.mem
  section_iff : InSection s.cTask (h ++ h') ↔ op.acquires r = true ∨ InSection s.cTask h

/-- **A call comes to its return** when no other task has the mutex. -/
theorem goes_return {pc : MtxPc} {sreg : Bool} {k : MtxResult → π} (hinv : Inv h s)
    (hat : s.place s.cTask = .inside pc sreg k) (hclear : s.Clear s.cTask) :
    ∃ h' s' r, Goes S s h' s' ∧ Returned h s pc.op k h' s' r := by
  induction hn : pc.left using Nat.strong_induction_on generalizing s h pc sreg with
  | _ n ih =>
      cases hret : pc.result with
      | some r =>
          have hstep : Step S.client s (.ret s.cTask pc.op r) (s.goto (.own (k r))) := .ret hat hret
          refine ⟨_, _, r, .single hstep rfl fun u hu => goto_other hu,
            goto_self _ _, hclear, rfl, ?_⟩
          rw [inSection_ret]
          exact or_congr (and_iff_right rfl) Iff.rfl
      | none =>
          by_cases hyield : pc = .lock .yield
          · subst hyield
            -- the task yields to itself
            have hstep : Step S.client s (.switch s.cTask)
                ((s.goto (.inside (.lock .recli) sreg k)).switchTo s.cTask) := .yield _ hat
            have hat' : ((s.goto (.inside (.lock .recli) sreg k)).switchTo s.cTask).place s.cTask =
                .inside (.lock .recli) sreg k := goto_self s _
            obtain ⟨h', s', r, hgoes, hplace, hfree, hmem, hiff⟩ := ih 5 (by rw [← hn]; decide)
              (inv_step hinv hstep) hat' hclear rfl
            refine ⟨_, s', r, .trans (.single hstep rfl fun u hu => goto_other hu) hgoes, hplace,
              hfree, hmem, ?_⟩
            rw [← List.append_assoc]
            exact hiff.trans (or_congr Iff.rfl inSection_switch)
          · have hstep : Step S.client s (.stmt s.cTask) (s.stmt pc sreg k) := .stmt hat hyield hret
            have hless : (s.after pc sreg).pc.left < n := by
              rcases mtxStmt_left (hinv.fits hat) hret hyield with hlt | ⟨_, hne, hother⟩
              · rw [← hn]
                exact hlt
              · rcases hclear with hnone | hself
                · exact absurd hnone hne
                · exact absurd hself hother
            have hat' : (s.stmt pc sreg k).place s.cTask =
                .inside (s.after pc sreg).pc (s.after pc sreg).sreg k := goto_self s _
            obtain ⟨h', s', r, hgoes, hplace, hfree, hmem, hiff⟩ := ih _ hless
              (inv_step hinv hstep) hat' (clear_stmt hinv hat hclear) rfl
            have hop : (s.after pc sreg).pc.op = pc.op := mtxStmt_op _ _
            rw [hop] at hiff
            refine ⟨_, s', r, .trans (.single hstep rfl fun u hu => goto_other hu) hgoes, hplace,
              hfree, hmem, ?_⟩
            rw [← List.append_assoc]
            exact hiff.trans (or_congr Iff.rfl inSection_stmt)

/-- In code of its own, a task that is not in its section leaves the mutex free. -/
theorem owner_none {p : π} (hinv : Inv h s) (hat : s.place s.cTask = .own p)
    (hclear : s.Clear s.cTask) (hno : ¬ InSection s.cTask h) : s.mutex.owner = none := by
  rcases hclear with hnone | hself
  · exact hnone
  · exact absurd ((hinv.owner_iff hat).mp hself) hno

/-- A step of the running task's own. -/
theorem goes_move {p p' : π} {e : ε} {mem' : σ} {i' : Bool} (hat : s.place s.cTask = .own p)
    (hclear : s.Clear s.cTask)
    (hmoved : S.step s.cTask p s.mem s.iflag = some (e, p', mem', i')) :
    ∃ h' s', Goes S s h' s' ∧ s'.place s.cTask = .own p' ∧ s'.Clear s.cTask ∧
      known (h ++ h') s' s.cTask = (known h s s.cTask).map fun _ => mem' := by
  have hstep : Step S.client s (.own s.cTask e)
      { s.goto (.own p') with mem := mem', iflag := i' } := .own hat hmoved
  refine ⟨_, _, .single hstep rfl fun u hu => goto_other hu, goto_self s _, hclear, ?_⟩
  unfold known
  by_cases hin : InSection s.cTask h
  · rw [if_pos (inSection_own.mpr hin), if_pos hin]
    rfl
  · rw [if_neg (mt inSection_own.mp hin), if_neg hin]
    rfl

/-- **A call of the running task**, from its first statement to its return. -/
theorem goes_call {p : π} {op : MtxOp} {k : MtxResult → π} (hinv : Inv h s)
    (hready : Ready S J h s) (hat : s.place s.cTask = .own p) (hclear : s.Clear s.cTask)
    (hcall : S.call s.cTask p = some (op, k)) :
    ∃ h' s' r, Goes S s h' s' ∧ s'.place s.cTask = .own (k r) ∧ s'.Clear s.cTask ∧
      Learns J op r (known h s s.cTask) (known (h ++ h') s' s.cTask) := by
  have hstep : Step S.client s (.call s.cTask op) (s.goto (.inside op.entry false k)) :=
    .call hat hcall
  have hat' : (s.goto (.inside op.entry false k)).place s.cTask = .inside op.entry false k :=
    goto_self s _
  obtain ⟨h', s', r, hgoes, hplace, hfree, hmem, hiff⟩ :=
    goes_return (S := S) (inv_step hinv hstep) hat' hclear
  rw [entry_op, List.append_assoc] at hiff
  have hiff : InSection s.cTask (h ++ ([.call s.cTask op] ++ h')) ↔ op.acquires r = true ∨
      InSection s.cTask h ∧ op ≠ .release := by
    refine hiff.trans (or_congr Iff.rfl (inSection_call.trans (and_congr Iff.rfl ?_)))
    exact not_congr (and_iff_right rfl)
  refine ⟨_, s', r, .trans (.single hstep rfl fun u hu => goto_other hu) hgoes, hplace, hfree, ?_⟩
  by_cases hin : InSection s.cTask h
  · rw [known_some hin]
    by_cases hrel : op = .release
    · have hnot : ¬ InSection s.cTask (h ++ ([.call s.cTask op] ++ h')) := by
        rw [hiff, hrel]
        rintro (hacq | ⟨_, hne⟩)
        · exact Bool.false_ne_true hacq
        · exact hne rfl
      rw [known_none hnot]
      exact .gives hrel
    · rw [known_some (hiff.mpr (Or.inr ⟨hin, hrel⟩)), hmem]
      exact .keepsIn hrel
  · rw [known_none hin]
    by_cases hacq : op.acquires r = true
    · rw [known_some (hiff.mpr (Or.inl hacq)), hmem]
      refine .takes hacq (hready.mem fun u hu => ?_)
      -- another task in its section would be the owner
      have howner := hinv.section_owner u hu
      unfold Clear at hclear
      rw [howner] at hclear
      rcases hclear with hnone | hself
      · exact absurd hnone (by simp)
      · rw [Option.some.inj hself] at hu
        exact hin hu
    · have hnot : ¬ InSection s.cTask (h ++ ([.call s.cTask op] ++ h')) := by
        rw [hiff]
        rintro (ha | ⟨hc, _⟩)
        · exact hacq ha
        · exact hin hc
      rw [known_none hnot]
      exact .keepsOut (Bool.not_eq_true _ ▸ hacq)

/-- The task has come to its end, and the mutex is free. -/
structure Ended (S : Script τ σ π ε) (t : τ) (s : Sys τ σ π) : Prop where
  stops : ∃ p, s.place t = .own p ∧ S.Stops t p
  free : s.mutex.owner = none

/-- From `p`, knowing `kn`, the task `t` can come to its end alone. -/
def EndsFrom (S : Script τ σ π ε) (J : σ → Prop) (t : τ) (kn : Option σ) (p : π) : Prop :=
  ∀ (s : Sys τ σ π) (h : List (Label τ ε)), Inv h s → Ready S J h s → s.cTask = t →
    s.place s.cTask = .own p → known h s s.cTask = kn → s.Clear s.cTask →
    ∃ h' s', Goes S s h' s' ∧ Ended S t s'

/-- One thing more, and then what is left to do. -/
theorem EndsFrom.after {p' : π} {kn' : Option σ} (hends : EndsFrom S J t kn' p') (hinv : Inv h s)
    (hready : Ready S J h s) (hrunning : s.cTask = t) (hgoes : Goes S s h' s')
    (hplace : s'.place s.cTask = .own p') (hclear : s'.Clear s.cTask)
    (hkn : known (h ++ h') s' s.cTask = kn') : ∃ h' s', Goes S s h' s' ∧ Ended S t s' := by
  have hsame := hgoes.running
  rw [← hsame] at hplace hclear hkn
  obtain ⟨h'', s'', hgoes', hended⟩ := hends _ _ (inv_run hinv hgoes.run)
    (ready_run hinv hready hgoes.run) (hsame.trans hrunning) hplace hkn hclear
  exact ⟨_, s'', hgoes.trans hgoes', hended⟩

/-- **A task comes to its end** when no other task has the mutex, and gives it back. -/
theorem ends_from {p : π} {kn : Option σ} (hwinds : Winds S J t kn p) : EndsFrom S J t kn p := by
  induction hwinds with
  | stop hstop =>
      intro s h hinv _ hrunning hat hkn hclear
      have hno : ¬ InSection s.cTask h := by
        intro hin
        rw [known_some hin] at hkn
        exact absurd hkn (by simp)
      have hfree := owner_none hinv hat hclear hno
      rw [hrunning] at hat
      exact ⟨[], s, .refl s, ⟨_, hat, hstop⟩, hfree⟩
  | moveOut _ hmove _ ih =>
      intro s h hinv hready hrunning hat hkn hclear
      obtain ⟨e, i', hmoved⟩ := hmove s.mem s.iflag
      rw [← hrunning] at hmoved
      obtain ⟨h', s', hgoes, hplace, hfree, hknown⟩ := goes_move (h := h) hat hclear hmoved
      rw [hkn] at hknown
      exact ih.after hinv hready hrunning hgoes hplace hfree hknown
  | moveIn _ hmove _ ih =>
      intro s h hinv hready hrunning hat hkn hclear
      obtain ⟨_, rfl⟩ := known_eq hkn
      obtain ⟨e, i', hmoved⟩ := hmove s.iflag
      rw [← hrunning] at hmoved
      obtain ⟨h', s', hgoes, hplace, hfree, hknown⟩ := goes_move (h := h) hat hclear hmoved
      rw [hkn] at hknown
      exact ih.after hinv hready hrunning hgoes hplace hfree hknown
  | call hcalls _ _ ih =>
      intro s h hinv hready hrunning hat hkn hclear
      have hcall := hcalls.1
      rw [← hrunning] at hcall
      obtain ⟨h', s', r, hgoes, hplace, hfree, hlearns⟩ := goes_call hinv hready hat hclear hcall
      rw [hkn] at hlearns
      exact (ih r _ hlearns).after hinv hready hrunning hgoes hplace hfree rfl

/-- The same wherever the task is. -/
theorem goes_end (hinv : Inv h s) (hready : Ready S J h s) (hclear : s.Clear s.cTask) :
    ∃ h' s', Goes S s h' s' ∧ Ended S s.cTask s' := by
  have hwinds := hready.winds s.cTask
  cases hat : s.place s.cTask with
  | own p =>
      rw [hat] at hwinds
      exact ends_from hwinds _ _ hinv hready rfl hat rfl hclear
  | inside pc sreg k =>
      obtain ⟨h', s', r, hgoes, hplace, hfree, _, _⟩ := goes_return (S := S) hinv hat hclear
      have hsame := hgoes.running
      have hready' := ready_run hinv hready hgoes.run
      have hwinds' := hready'.winds s.cTask
      rw [hplace] at hwinds'
      exact (ends_from hwinds').after hinv hready rfl hgoes hplace hfree rfl

/-- While another task has the mutex the running one comes to a point where it can be
switched away from. -/
theorem reach_owner {o : τ} (hinv : Inv h s) (howner : s.mutex.owner = some o)
    (ho : o ≠ s.cTask) :
      ∃ h' s', Run S.client s h' s' ∧ s'.cTask = o ∧ s'.mutex.owner = some o := by
  cases hat : s.place s.cTask with
  | own p => exact ⟨_, _, .single (.switch o (Or.inr ⟨p, hat⟩)), rfl, howner⟩
  | inside pc sreg k =>
      induction hn : pc.left using Nat.strong_induction_on generalizing s h pc sreg with
      | _ n ih =>
          by_cases hyield : pc = .lock .yield
          · subst hyield
            exact ⟨_, _, .single (.yield o hat), rfl, howner⟩
          · cases hret : pc.result with
            | some r =>
                have hstep : Step S.client s (.ret s.cTask pc.op r) (s.goto (.own (k r))) :=
                  .ret hat hret
                have hat' : (s.goto (.own (k r))).place s.cTask = .own (k r) := goto_self s _
                exact ⟨_, _, (Run.single hstep).snoc (.switch o (Or.inr ⟨_, hat'⟩)), rfl, howner⟩
            | none =>
                have hstep : Step S.client s (.stmt s.cTask) (s.stmt pc sreg k) :=
                  .stmt hat hyield hret
                have hat' : (s.stmt pc sreg k).place s.cTask =
                    .inside (s.after pc sreg).pc (s.after pc sreg).sreg k := goto_self s _
                have howner' : (s.stmt pc sreg k).mutex.owner = some o :=
                  ((hinv.after_fits hat).2.other ho).mpr howner
                rcases mtxStmt_left (hinv.fits hat) hret hyield with hlt | ⟨hwait, _, _⟩
                · obtain ⟨h', s', hrun, hrunning, hsame⟩ := ih _ (hn ▸ hlt)
                    (inv_step hinv hstep) howner' ho _ _ hat' rfl
                  exact ⟨_, s', (Run.single hstep).trans hrun, hrunning, hsame⟩
                · have hpc : (s.after pc sreg).pc = .lock .yield := hwait
                  rw [hpc] at hat'
                  exact ⟨_, _, (Run.single hstep).snoc (.yield o hat'), rfl, howner'⟩

/-- **One task after another** comes to its end, and those that have ended stay there. -/
theorem all_end (ts : List τ) : ∀ {s : Sys τ σ π} {h : List (Label τ ε)}, Inv h s →
    Ready S J h s → Ended S s.cTask s →
    ∃ h' s', Run S.client s h' s' ∧ Ended S s'.cTask s' ∧ (∀ t ∈ ts, Ended S t s') ∧
      ∀ t, Ended S t s → Ended S t s' := by
  induction ts with
  | nil =>
      intro s h hinv _ hended
      exact ⟨[], s, .nil s, hended, fun t ht => absurd ht List.not_mem_nil, fun t ht => ht⟩
  | cons u ts ih =>
      intro s h hinv hready hended
      obtain ⟨⟨p, hat, _⟩, hfree⟩ := id hended
      have hstep : Step S.client s (.switch u) (s.switchTo u) := .switch u (Or.inr ⟨p, hat⟩)
      have hinv' := inv_step hinv hstep
      have hready' := ready_step hinv hready hstep
      obtain ⟨h₁, s₁, hgoes, hended₁⟩ := goes_end hinv' hready' (Or.inl hfree)
      have hrunning : s₁.cTask = u := hgoes.running
      have hkeep : ∀ t, Ended S t s → Ended S t s₁ := by
        intro t ht
        by_cases htu : t = u
        · rw [htu]
          exact hended₁
        · obtain ⟨p', hat', hstops⟩ := ht.stops
          exact ⟨⟨p', (hgoes.others t htu).trans hat', hstops⟩, hended₁.free⟩
      obtain ⟨h₂, s₂, hrun, hlast, hall, hstay⟩ := ih (inv_run hinv' hgoes.run)
        (ready_run hinv' hready' hgoes.run) (by rw [hrunning]; exact hended₁)
      refine ⟨_, s₂, ((Run.single hstep).trans hgoes.run).trans hrun, hlast, fun t ht => ?_,
        fun t ht => hstay t (hkeep t ht)⟩
      rcases List.mem_cons.mp ht with rfl | hin
      · exact hstay t hended₁
      · exact hall t hin

/-- A task that has stopped stays where it is. -/
theorem stopped_step {p : π} (hat : s.place t = .own p) (hstops : S.Stops t p)
    (hstep : Step S.client s l s') : s'.place t = .own p ∧ l.OtherThan t := by
  cases hstep with
  | own hat' hmoved =>
      have hne : t ≠ s.cTask := by
        rintro rfl
        obtain rfl := Place.own.inj (hat.symm.trans hat')
        exact absurd (hmoved.symm.trans (hstops.2 _ _)) (by simp)
      exact ⟨(goto_other hne).trans hat, trivial⟩
  | call hat' hcall =>
      have hne : t ≠ s.cTask := by
        rintro rfl
        obtain rfl := Place.own.inj (hat.symm.trans hat')
        exact absurd (hcall.symm.trans hstops.1) (by simp)
      exact ⟨(goto_other hne).trans hat, Ne.symm hne⟩
  | stmt hat' _ _ =>
      have hne : t ≠ s.cTask := by
        rintro rfl
        exact absurd (hat.symm.trans hat') (by simp)
      exact ⟨(goto_other hne).trans hat, trivial⟩
  | ret hat' _ =>
      have hne : t ≠ s.cTask := by
        rintro rfl
        exact absurd (hat.symm.trans hat') (by simp)
      exact ⟨(goto_other hne).trans hat, Ne.symm hne⟩
  | yield u hat' =>
      have hne : t ≠ s.cTask := by
        rintro rfl
        exact absurd (hat.symm.trans hat') (by simp)
      exact ⟨(goto_other hne).trans hat, trivial⟩
  | switch u _ => exact ⟨hat, trivial⟩

/-- **A task that ends in its section** keeps the mutex for ever: no `mtx_lock` of another
task returns any more, and no `mtx_try_lock` succeeds. -/
theorem held_for_ever {s₀ : Sys τ σ π} (h₀ : s₀.Initial) (hrun : Run S.client s₀ h s) {p : π}
    (hat : s.place t = .own p) (hstops : S.Stops t p) (hin : InSection t h)
    (hrun' : Run S.client s h' s') :
    s'.mutex.owner = some t ∧ ∀ u op r, .ret u op r ∈ h' → op.acquires r = false := by
  have hinv := inv_reached h₀ hrun
  have hstay : s'.place t = .own p ∧ InSection t (h ++ h') ∧
      ∀ u op r, .ret u op r ∈ h' → op.acquires r = false := by
    induction hrun' with
    | nil =>
        rw [List.append_nil]
        exact ⟨hat, hin, fun u op r hmem => absurd hmem List.not_mem_nil⟩
    | @snoc s₁ s₂ h₁ l hrun₁ hstep ih =>
        obtain ⟨hat₁, hin₁, hnone⟩ := ih
        have hinv₁ := inv_run hinv hrun₁
        obtain ⟨hat₂, hother⟩ := stopped_step hat₁ hstops hstep
        rw [← List.append_assoc]
        refine ⟨hat₂, (inSection_other hother).mpr hin₁, fun u op r hmem => ?_⟩
        rcases List.mem_append.mp hmem with hold | hnew
        · exact hnone u op r hold
        · obtain rfl := List.mem_singleton.mp hnew
          by_contra hacq
          exact hother (hinv₁.acquires_self hin₁ hstep (Bool.not_eq_false _ ▸ hacq))
  exact ⟨(inv_run hinv hrun').section_owner t hstay.2.1, hstay.2.2⟩

/-- Task 0 locks and ends; task 1 tries. -/
def forgotten (t : Fin 2) : List MtxOp := if t = 0 then [.lock] else [.tryLock]

/-- The task has made all its calls. -/
def allCalled : Place (List MtxOp) → Bool
  | .own [] => true
  | _ => false

theorem allCalled_iff {p : Place (List MtxOp)} : allCalled p = true ↔ p = .own [] := by
  unfold allCalled
  split
  · exact ⟨fun _ => rfl, fun _ => rfl⟩
  · rename_i hne
    exact ⟨fun h => absurd h Bool.false_ne_true, fun h => absurd h hne⟩

theorem held_for_ever_forgotten : ∃ h s h' s',
    Run (callsOnly (Fin 2)).client (start 0 forgotten) h s ∧
    Run (callsOnly (Fin 2)).client s h' s' ∧ s'.place 1 = .own [] ∧
    s'.mutex.owner = some 0 ∧ ∀ u op r, .ret u op r ∈ h' → op.acquires r = false := by
  have hplay : ((play (callsOnly (Fin 2)) [(0, 8)] ([], start 0 forgotten)).bind fun c =>
      (play (callsOnly (Fin 2)) [(1, 6)] ([], c.2)).map fun c' => decide (InSection 0 c.1 ∧
        allCalled (c.2.place 0) = true ∧ allCalled (c'.2.place 1) = true)) = some true := by
    decide +kernel
  obtain ⟨⟨h, s⟩, hc, hmore⟩ := Option.bind_eq_some_iff.mp hplay
  obtain ⟨⟨h', s'⟩, hc', hdec⟩ := Option.map_eq_some_iff.mp hmore
  obtain ⟨hin, hat, hend⟩ := of_decide_eq_true hdec
  have hrun : Run (callsOnly (Fin 2)).client (start 0 forgotten) h s := play_run (.nil _) hc
  have hrun' : Run (callsOnly (Fin 2)).client s h' s' := play_run (.nil _) hc'
  obtain ⟨howner, hnone⟩ := held_for_ever (start_initial _ _) hrun (allCalled_iff.mp hat)
    ⟨rfl, fun _ _ => rfl⟩ hin hrun'
  exact ⟨h, s, h', s', hrun, hrun', allCalled_iff.mp hend, howner, hnone⟩

/-- **Every task can come to its end**, wherever a run stands. -/
theorem completes [Fintype τ] (hinv : Inv h s) (hready : Ready S J h s) :
    ∃ h' s', Run S.client s h' s' ∧ ∀ t, Ended S t s' := by
  have hfirst : ∃ h' s', Run S.client s h' s' ∧ Ended S s'.cTask s' := by
    by_cases hclear : s.Clear s.cTask
    · obtain ⟨h', s', hgoes, hended⟩ := goes_end hinv hready hclear
      rw [← hgoes.running] at hended
      exact ⟨h', s', hgoes.run, hended⟩
    · cases howner : s.mutex.owner with
      | none => exact absurd (Or.inl howner) hclear
      | some o =>
          have ho : o ≠ s.cTask := by
            rintro rfl
            exact hclear (Or.inr howner)
          obtain ⟨h₁, s₁, hrun, hrunning, howner₁⟩ := reach_owner (S := S) hinv howner ho
          rw [← hrunning] at howner₁
          obtain ⟨h₂, s₂, hgoes, hended⟩ := goes_end (inv_run hinv hrun)
            (ready_run hinv hready hrun) (Or.inr howner₁)
          rw [← hgoes.running] at hended
          exact ⟨_, s₂, hrun.trans hgoes.run, hended⟩
  obtain ⟨h₁, s₁, hrun, hended⟩ := hfirst
  obtain ⟨h₂, s₂, hrun', _, hall, _⟩ := all_end Finset.univ.toList (inv_run hinv hrun)
    (ready_run hinv hready hrun) hended
  exact ⟨_, s₂, hrun.trans hrun', fun t => hall t (Finset.mem_toList.mpr (Finset.mem_univ t))⟩

end Alone

end Sys

/-! ### Calls of the mutex -/

section CallsOnly

variable {τ : Type}

theorem stops_callsOnly (t : τ) : (callsOnly τ).Stops t [] := ⟨rfl, fun _ _ => rfl⟩

theorem calls_callsOnly (t : τ) (op : MtxOp) (rest : List MtxOp) :
    (callsOnly τ).Calls t (op :: rest) op fun _ => rest := ⟨rfl, fun _ _ => rfl⟩

/-- A program whose last call is `mtx_release` ends outside of its section. -/
theorem winds_callsOnly {t : τ} {kn : Option Unit} (prog : List MtxOp)
    (hlast : ∀ op, prog.getLast? = some op → op = .release) (hnil : prog = [] → kn = none) :
    Winds (callsOnly τ) (fun _ => True) t kn prog := by
  induction prog generalizing kn with
  | nil =>
      rw [hnil rfl]
      exact .stop (stops_callsOnly t)
  | cons op rest ih =>
      refine .call (calls_callsOnly t op rest) (fun _ _ _ => trivial) fun r kn' hlearns => ?_
      apply ih
      · intro op' hop'
        apply hlast
        rw [List.getLast?_cons, hop']
        rfl
      · rintro rfl
        obtain rfl := hlast op rfl
        cases hlearns with
        | takes hacq _ => exact absurd hacq Bool.false_ne_true
        | keepsIn hop => exact absurd rfl hop
        | keepsOut _ => rfl
        | gives _ => rfl

end CallsOnly

/-! ### Calls of `ipc_fifo_t` -/

section IpcFifo

variable {τ α : Type} {t : τ} {J : Fifo α → Prop}

/-- In the section, an operation that runs through gives the queue back. -/
theorem winds_body {op : FifoOp α} {todo : List (FifoOp α)} {r : FifoResult α} {f' : Fifo α}
    (hrest : Winds (ipcFifo τ α) J t none (.idle todo)) (hmem : J f')
    (p : FifoAccess α (FifoResult α)) :
    ∀ f, p.run f = .ok (r, f') → Winds (ipcFifo τ α) J t (some f) (.body op p todo) := by
  induction p with
  | done r' =>
      intro f hrun
      obtain ⟨rfl, rfl⟩ := Prod.mk.inj (Except.ok.inj hrun)
      have hcalls : (ipcFifo τ α).Calls t (.body op (.done r') todo) .release
          fun _ => .returning op r' todo := ⟨rfl, fun _ _ => rfl⟩
      refine .call hcalls ?_ ?_
      · intro _ m hm
        rw [← Option.some.inj hm]
        exact hmem
      · intro res kn' hlearns
        have hnone : kn' = none := by
          cases hlearns with
          | keepsIn hop => exact absurd rfl hop
          | gives _ => rfl
        rw [hnone]
        exact .moveOut rfl (fun _ _ => ⟨_, _, rfl⟩) hrest
  | fail e =>
      intro f hrun
      exact absurd rfl (Access.ne_fail hrun e)
  | load next ih =>
      intro f hrun
      exact .moveIn rfl (fun _ => ⟨_, _, rfl⟩) (ih f f hrun)
  | store g next ih =>
      intro f hrun
      exact .moveIn rfl (fun _ => ⟨_, _, rfl⟩) (ih (g f) hrun)

/-- A task that makes its calls one after another. -/
theorem winds_ipcFifo {n : Nat} (hmax : n ≤ 32767) (todo : List (FifoOp α)) :
    Winds (ipcFifo τ α) (fun f => ∃ q, Fifo.Laid n f q) t none (.idle todo) := by
  induction todo with
  | nil => exact .stop ⟨rfl, fun _ _ => rfl⟩
  | cons op todo ih =>
      have hcalls : (ipcFifo τ α).Calls t (.idle (op :: todo)) .lock
          fun _ => .body op op.access todo := ⟨rfl, fun _ _ => rfl⟩
      refine .call hcalls (fun hop => absurd hop (by decide)) fun r kn' hlearns => ?_
      cases hlearns with
      | @takes f _ hmem =>
          obtain ⟨q, hq⟩ := hmem
          obtain ⟨res, f', q', hcall, _, hq'⟩ := Fifo.call_laid hq hmax op
          rw [← access_run] at hcall
          exact winds_body ih ⟨q', hq'⟩ op.access f hcall
      | keepsOut hacq => exact absurd hacq (by simp [MtxOp.acquires])

end IpcFifo

namespace Sys

variable {τ : Type} [DecidableEq τ] [Fintype τ]

/-- **No deadlock.**  When the last call of every task is `mtx_release`, a run can go on
from wherever it stands so that all calls of all tasks return, and the mutex is free. -/
theorem mutex_completes (first : τ) (prog : τ → List MtxOp)
    (hlast : ∀ t op, (prog t).getLast? = some op → op = .release)
    {h : List (Label τ Unit)} {s : Sys τ Unit (List MtxOp)}
    (hrun : Run (callsOnly τ).client (start first prog) h s) :
    ∃ h' s', Run (callsOnly τ).client s h' s' ∧ (∀ t, s'.place t = .own []) ∧
      s'.mutex.owner = none := by
  have hinv := inv_initial (ε := Unit) (start_initial first prog)
  have hready : Ready (callsOnly τ) (fun _ => True) [] (start first prog) := by
    refine ⟨fun t => ?_, fun _ => trivial⟩
    exact winds_callsOnly (prog t) (hlast t) fun _ => rfl
  obtain ⟨h', s', hrun', hended⟩ := completes (inv_run hinv hrun) (ready_run hinv hready hrun)
  refine ⟨h', s', hrun', fun t => ?_, (hended first).free⟩
  obtain ⟨p, hat, hstops⟩ := (hended t).stops
  cases p with
  | nil => exact hat
  | cons op rest => exact absurd hstops.1 (by simp [callsOnly])

/-- Both tasks lock, and task 1 waits. -/
def bothLock (_ : Fin 2) : List MtxOp := [.lock, .release]

theorem mutex_completes_bothLock : ∃ h s h' s',
    Run (callsOnly (Fin 2)).client (start 0 bothLock) h s ∧ InSection 0 h ∧
    Run (callsOnly (Fin 2)).client s h' s' ∧ (∀ t, s'.place t = .own []) ∧
    s'.mutex.owner = none := by
  have hplay : ((play (callsOnly (Fin 2)) [(0, 8), (1, 5)] ([], start 0 bothLock)).map fun c =>
      decide (InSection 0 c.1 ∧ c.2.cTask = 1)) = some true := by decide +kernel
  obtain ⟨⟨h, s⟩, hc, hdec⟩ := Option.map_eq_some_iff.mp hplay
  have hrun : Run (callsOnly (Fin 2)).client (start 0 bothLock) h s := play_run (.nil _) hc
  obtain ⟨h', s', hrun', hend, hfree⟩ := mutex_completes 0 bothLock
    (fun _ op hop => (Option.some.inj hop).symm) hrun
  exact ⟨h, s, h', s', hrun, (of_decide_eq_true hdec).1, hrun', hend, hfree⟩

/-- **No call of `ipc_fifo_t` is stuck.**  A run can go on from wherever it stands so that
all calls of all tasks return, and the mutex is free. -/
theorem ipcFifo_completes {α : Type} (first : τ) (prog : τ → List (FifoOp α)) (buf : List α)
    (n : Word) (hpos : 1 ≤ n.toNat) (hmax : n.toNat ≤ 32767) (hbuf : buf.length = n.toNat)
    {h : List (Label τ (IpcEvent α))} {s : Sys τ (Fifo α) (IpcPlace α)}
    (hrun : Run (ipcFifo τ α).client (ipcStart first prog buf n) h s) :
    ∃ h' s', Run (ipcFifo τ α).client s h' s' ∧ (∀ t, s'.place t = .own (.idle [])) ∧
      s'.mutex.owner = none := by
  have hinv := inv_initial (ε := IpcEvent α) (ipcStart_initial first prog buf n)
  have hready : Ready (ipcFifo τ α) (fun f => ∃ q, Fifo.Laid n.toNat f q) []
      (ipcStart first prog buf n) :=
    ⟨fun t => winds_ipcFifo hmax (prog t), fun _ => ⟨[], Fifo.laid_init hpos hmax hbuf⟩⟩
  obtain ⟨h', s', hrun', hended⟩ := completes (inv_run hinv hrun) (ready_run hinv hready hrun)
  refine ⟨h', s', hrun', fun t => ?_, (hended first).free⟩
  obtain ⟨p, hat, hstops⟩ := (hended t).stops
  cases p with
  | idle todo =>
      cases todo with
      | nil => exact hat
      | cons op todo => exact absurd hstops.1 (by simp [ipcFifo])
  | body op p todo =>
      -- a task in the middle of an operation has the mutex
      obtain ⟨_, _, _, _, _, hr⟩ := replays_run hmax (ipcStart_initial first prog buf n)
        (ipcStart_replays first prog hpos hmax hbuf) (hrun.trans hrun')
      have htracks := hr.tracks t
      rw [hat] at htracks
      have hin := htracks.in_section ⟨op, p, todo, rfl⟩
      have howner := (inv_run hinv (hrun.trans hrun')).section_owner t hin
      rw [(hended t).free] at howner
      exact absurd howner (by simp)
  | returning op r todo => exact absurd (hstops.2 s'.mem true) (by simp [ipcFifo])

theorem ipcFifo_completes_handOver : ∃ h s h' s',
    Run (ipcFifo (Fin 2) Nat).client (ipcStart 0 handOver [0] 1) h s ∧ s.mutex.owner = some 0 ∧
    Run (ipcFifo (Fin 2) Nat).client s h' s' ∧ (∀ t, s'.place t = .own (.idle [])) ∧
    s'.mutex.owner = none := by
  have hplay : ((play (ipcFifo (Fin 2) Nat) [(0, 10), (1, 5)]
      ([], ipcStart 0 handOver [0] 1)).map fun c => decide (c.2.mutex.owner = some 0)) =
      some true := by decide +kernel
  obtain ⟨⟨h, s⟩, hc, hdec⟩ := Option.map_eq_some_iff.mp hplay
  have hrun : Run (ipcFifo (Fin 2) Nat).client (ipcStart 0 handOver [0] 1) h s :=
    play_run (.nil _) hc
  obtain ⟨h', s', hrun', hend, hfree⟩ :=
    ipcFifo_completes 0 handOver [0] 1 (by decide) (by decide) rfl hrun
  exact ⟨h, s, h', s', hrun, of_decide_eq_true hdec, hrun', hend, hfree⟩

end Sys

end AtmegaScheduler
