/-
A task that removes itself.

`remove_task` takes the running task off the list, and the next switch still reads the
link of that task to find whom to dispatch.  The head keeps its link, so the switch finds
the task that followed.  Any other task has its link cleared, and the switch starts at the
head again: that is where it has to go after the last task, but not after one in the
middle.

Either way the head of the remaining list is dispatched first, and from there on the
switches go around that list.
-/
import AtmegaScheduler.Kernel.Fairness
import AtmegaScheduler.Kernel.Misuse

namespace AtmegaScheduler

open Avr RoundRobin

namespace Sched

variable {τ : Type} [DecidableEq τ] {s s' : Sched τ} {q u v : List τ} {t : τ} {fuel : Nat}

/-- The task that follows `t` on the list, or else the head. -/
def follower (q : List τ) (t : τ) : Option τ := q[q.idxOf t + 1]?.or q.head?

/-- The rotation goes on as if `t` had been left out of it. -/
structure KeepsRotation (s s' : Sched τ) (q : List τ) (t : τ) : Prop where
  /-- The next switch dispatches the task that followed `t`. -/
  first : ∀ cpu usOut usIn, (s'.contextSwitch cpu usOut usIn).cTask = follower q t
  /-- The switches after it go through the remaining tasks in the order of the list. -/
  order : ∀ fuel ops, (∀ op ∈ ops, op.IsSwitch) → ops ≠ [] → q.length + ops.length ≤ fuel →
    ∃ s'', s'.run fuel ops = .ok s'' ∧
      s''.cTask = (q.erase t)[(q.idxOf t + (ops.length - 1)) % (q.erase t).length]?
  /-- What is dispatched is what would have been with `t` queued, apart from `t`. -/
  turns : ∀ fuel ops ops', (∀ op ∈ ops, op.IsSwitch) → (∀ op ∈ ops', op.IsSwitch) →
    q.length + ops.length ≤ fuel →
    ops'.length = ((s.dispatches fuel ops).filter fun x => decide (x ≠ t)).length →
    s'.dispatches fuel ops' = (s.dispatches fuel ops).filter fun x => decide (x ≠ t)

/-- The state after `t` has removed itself. -/
structure Removed (s' : Sched τ) (q : List τ) (t : τ) : Prop where
  ready : s'.Ready (q.erase t)
  cTask : s'.cTask = some t
  link : s'.next t = leftLink q t

/-! ### The list around the task -/

theorem follower_split (hnd : (u ++ t :: v).Nodup) :
    follower (u ++ t :: v) t = v.head?.or (u ++ t :: v).head? := by
  unfold follower
  rw [Split.idxOf_eq hnd, List.getElem?_append_right (Nat.le_add_right _ 1), Nat.add_sub_cancel_left,
    List.getElem?_cons_succ, ← List.head?_eq_getElem?]

/-- **Whose turn it is** once `t` is gone: the head's, which is the follower of `t` only if
`t` was first or last. -/
theorem follower_iff (hnd : (u ++ t :: v).Nodup) (hne : u ++ v ≠ []) :
    (u ++ v).head? = follower (u ++ t :: v) t ↔ u = [] ∨ v = [] := by
  rw [follower_split hnd]
  cases u with
  | nil =>
      cases v with
      | nil => exact absurd rfl hne
      | cons x v => exact iff_of_true rfl (Or.inl rfl)
  | cons h u =>
      cases v with
      | nil =>
          rw [List.append_nil]
          exact iff_of_true rfl (Or.inr rfl)
      | cons x v =>
          refine iff_of_false (fun hc => ?_) (by simp)
          have hhx : h = x := Option.some.inj hc
          rw [hhx, List.cons_append, List.nodup_cons] at hnd
          exact hnd.1 (by simp)

/-! ### The switches after the removal -/

theorem allowed_switches (q : List τ) {ops : List (Op τ)}
    (h : ∀ op ∈ ops, op.IsSwitch) : Allowed q ops ∧ queueAfter q ops = q := by
  induction ops with
  | nil => exact ⟨trivial, rfl⟩
  | cons op rest ih =>
      obtain ⟨hrest, hqueue⟩ := ih fun op hop => h op (List.mem_cons_of_mem _ hop)
      obtain ⟨cpu, usOut, usIn, rfl⟩ := (h op List.mem_cons_self).eq
      exact ⟨⟨trivial, hrest⟩, hqueue⟩

/-- Switches take turns. -/
theorem Walks.switches {w : Turn τ} (h : Walks s w) {ops : List (Op τ)}
    (hops : ∀ op ∈ ops, op.IsSwitch) (hfuel : w.queue.length + ops.length ≤ fuel) :
    ∃ s'', s.run fuel ops = .ok s'' ∧ Walks s'' (w.run (List.replicate ops.length .pass)) ∧
      s.dispatches fuel ops = w.turns (List.replicate ops.length .pass) := by
  rw [← turns_switches hops]
  obtain ⟨s'', hs'', hwalks, -, hturns⟩ := h.run (fun op hop => Or.inr (hops op hop))
    (allowed_switches w.queue hops).1 hfuel
  exact ⟨s'', hs'', hwalks, hturns⟩

/-- **After `t` has removed itself** the next switch dispatches the head. -/
theorem Removed.first (h : Removed s' q t) (cpu : CpuRegisters) (usOut usIn : BitVec 32) :
    (s'.contextSwitch cpu usOut usIn).cTask = (q.erase t).head? := by
  obtain ⟨-, -, hcur⟩ := contextSwitch_links s' cpu usOut usIn
  have hlink : s'.getNextTask (some t) = leftLink q t := h.link
  rw [hcur, h.cTask, hlink, h.ready.head]
  unfold leftLink
  split
  · cases (q.erase t).head? <;> rfl
  · rfl

/-- And from there the switches go around the list. -/
theorem Removed.walks (h : Removed s' q t) {x : τ} {r : List τ} (hr : q.erase t = x :: r)
    (cpu : CpuRegisters) (usOut usIn : BitVec 32) :
    Walks (s'.contextSwitch cpu usOut usIn) ⟨x :: r, x⟩ := by
  obtain ⟨hnext, hhead, -⟩ := contextSwitch_links s' cpu usOut usIn
  refine ⟨?_, ?_, List.mem_cons_self⟩
  · rw [← hr]
    exact h.ready.of_eq hnext hhead
  · rw [h.first, hr]
    rfl

theorem Removed.dispatches (h : Removed s' q t) (hne : q.erase t ≠ []) {ops : List (Op τ)}
    (hops : ∀ op ∈ ops, op.IsSwitch) (hfuel : (q.erase t).length + ops.length ≤ fuel) :
    s'.dispatches fuel ops = Turn.cycle ops.length (q.erase t) := by
  obtain ⟨x, r, hr⟩ := List.exists_cons_of_ne_nil hne
  cases ops with
  | nil => rfl
  | cons op rest =>
      obtain ⟨cpu, usOut, usIn, rfl⟩ := (hops op List.mem_cons_self).eq
      have hwalks := h.walks hr cpu usOut usIn
      rw [hr, List.length_cons] at hfuel
      obtain ⟨-, -, -, hturns⟩ := hwalks.switches
        (fun op hop => hops op (List.mem_cons_of_mem _ hop))
        (by simp only [List.length_cons] at hfuel ⊢; omega : _ ≤ fuel)
      have hcycle := Turn.turns_cycle rest.length (w := ⟨x :: r, x⟩) (u := []) (v := r) rfl
        hwalks.ready.nodup
      rw [hr, List.length_cons, Turn.cycle]
      show (s'.contextSwitch cpu usOut usIn).cTask.toList ++ _ = _
      rw [hwalks.cur, hturns, hcycle, List.append_nil]
      rfl

theorem Removed.order (h : Removed s' q t) (hne : q.erase t ≠ []) {i : Nat}
    (hstart : i % (q.erase t).length = 0) {ops : List (Op τ)} (hops : ∀ op ∈ ops, op.IsSwitch)
    (hsome : ops ≠ []) (hfuel : (q.erase t).length + ops.length ≤ fuel) :
    ∃ s'', s'.run fuel ops = .ok s'' ∧
      s''.cTask = (q.erase t)[(i + (ops.length - 1)) % (q.erase t).length]? := by
  obtain ⟨op, rest, rfl⟩ := List.exists_cons_of_ne_nil hsome
  obtain ⟨x, r, hr⟩ := List.exists_cons_of_ne_nil hne
  obtain ⟨cpu, usOut, usIn, rfl⟩ := (hops op List.mem_cons_self).eq
  rw [hr] at hstart hfuel ⊢
  rw [@List.length_cons _ (Op.contextSwitch cpu usOut usIn), Nat.add_sub_cancel, Nat.add_mod,
    hstart, Nat.zero_add, Nat.mod_mod]
  rw [@List.length_cons _ (Op.contextSwitch cpu usOut usIn)] at hfuel
  have hwalks := h.walks hr cpu usOut usIn
  have hfuel' : (x :: r).length + rest.length ≤ fuel := by omega
  obtain ⟨s'', hs'', hwalks', -⟩ := hwalks.switches
    (fun op hop => hops op (List.mem_cons_of_mem _ hop)) hfuel'
  have hpos := (Turn.run_position (w := ⟨x :: r, x⟩) (i := 0) hwalks.ready.nodup rfl
    rest.length).2
  rw [Nat.zero_add] at hpos
  exact ⟨s'', hs'', hwalks'.cur.trans hpos.symm⟩

/-- The dispatches of a run with `t`, apart from `t`. -/
theorem dispatches_without (hs : s.Ready (u ++ t :: v)) (hc : s.cTask = some t)
    {ops : List (Op τ)} (hops : ∀ op ∈ ops, op.IsSwitch)
    (hfuel : (u ++ t :: v).length + ops.length ≤ fuel) :
    (s.dispatches fuel ops).filter (fun x => decide (x ≠ t)) =
        Turn.cycle ((s.dispatches fuel ops).filter fun x => decide (x ≠ t)).length (v ++ u) ∧
      ((s.dispatches fuel ops).filter fun x => decide (x ≠ t)).length ≤ ops.length := by
  have hnd := hs.nodup
  have hwalks : Walks s ⟨u ++ t :: v, t⟩ := ⟨hs, hc, by simp⟩
  obtain ⟨-, -, -, hturns⟩ := hwalks.switches hops hfuel
  have hcycle : s.dispatches fuel ops = Turn.cycle ops.length (v ++ u ++ [t]) :=
    hturns.trans (Turn.turns_cycle ops.length (w := ⟨u ++ t :: v, t⟩) rfl hnd)
  have hsome : v ++ u ++ [t] ≠ [] := List.append_ne_nil_of_right_ne_nil _ (List.cons_ne_nil t [])
  have hothers : (v ++ u ++ [t]).filter (fun x => decide (x ≠ t)) = v ++ u := by
    have hall : ∀ x ∈ v ++ u, decide (x ≠ t) = true := by
      intro x hx
      rw [decide_eq_true_eq]
      rintro rfl
      exact Split.notMem_append hnd (List.mem_append.mpr (List.mem_append.mp hx).symm)
    rw [List.filter_append, List.filter_eq_self.mpr hall]
    simp
  have hfilter := Turn.filter_cycle (fun x => decide (x ≠ t)) ops.length (v ++ u ++ [t])
  rw [hothers] at hfilter
  rw [hcycle]
  exact ⟨hfilter, (List.length_filter_le _ _).trans (Nat.le_of_eq (Turn.length_cycle _ hsome))⟩

/-- **Where the removed task was first or last**, the rotation goes on. -/
theorem Removed.keepsRotation (h : Removed s' (u ++ t :: v) t) (hs : s.Ready (u ++ t :: v))
    (hc : s.cTask = some t) (hne : u ++ v ≠ []) (hend : u = [] ∨ v = []) :
    KeepsRotation s s' (u ++ t :: v) t := by
  have hnd := hs.nodup
  have herase := Split.erase_eq hnd
  have hne' : (u ++ t :: v).erase t ≠ [] := by
    rw [herase]
    exact hne
  have hlen : ((u ++ t :: v).erase t).length ≤ (u ++ t :: v).length := List.length_erase_le
  -- One side is empty: the turns after `t` come in the order of the list, from its head.
  have hround : v ++ u = u ++ v := by
    rcases hend with rfl | rfl
    · exact List.append_nil v
    · exact (List.append_nil u).symm
  have hstart : (u ++ t :: v).idxOf t % ((u ++ t :: v).erase t).length = 0 := by
    rw [Split.idxOf_eq hnd, herase]
    rcases hend with rfl | rfl
    · exact Nat.zero_mod _
    · rw [List.append_nil, Nat.mod_self]
  refine ⟨fun cpu usOut usIn => ?_, fun fuel ops hops hsome hfuel => ?_,
    fun fuel ops ops' hops hops' hfuel hcount => ?_⟩
  · rw [h.first, herase]
    exact (follower_iff hnd hne).mpr hend
  · exact h.order hne' hstart hops hsome (by omega)
  · obtain ⟨hfilter, hfew⟩ := dispatches_without hs hc hops hfuel
    rw [h.dispatches hne' hops' (by omega : _ ≤ fuel), herase, hcount, ← hround]
    exact hfilter.symm

/--
**A task that removes itself keeps the rotation if and only if it is first or last.**  Take
any ready list of at least two tasks and the running task at any position of it.  After
`remove_task`, the next switch dispatches the task that followed, and the later ones the
remaining tasks in the order and number of turns they would have had, exactly then.
-/
theorem self_removal_iff (h : s.Ready q) (hc : s.cTask = some t) (ht : t ∈ q)
    (hlen : 2 ≤ q.length) (hfuel : q.length ≤ fuel) :
    ∃ s', s.removeTask fuel s.cTask = .ok (false, s') ∧
      (KeepsRotation s s' q t ↔ q.head? = some t ∨ q.getLast? = some t) := by
  obtain ⟨s', hs', hready, hcur, hlink, -⟩ := removeTask_ready h ht hfuel
  have hgone : Removed s' q t := ⟨hready, hcur.trans hc, hlink⟩
  rw [hc]
  refine ⟨s', hs', ?_⟩
  obtain ⟨u, v, rfl⟩ := List.append_of_mem ht
  have hnd := h.nodup
  rw [List.length_append, List.length_cons] at hlen
  have hne : u ++ v ≠ [] := by
    intro hnil
    have hzero := congrArg List.length hnil
    rw [List.length_append, List.length_nil] at hzero
    omega
  have hends : (u ++ t :: v).head? = some t ∨ (u ++ t :: v).getLast? = some t ↔
      u = [] ∨ v = [] := by
    refine or_congr ?_ (Split.getLast?_eq_iff hnd)
    cases u with
    | nil => exact iff_of_true rfl rfl
    | cons x u =>
        refine iff_of_false (fun hx => ?_) (List.cons_ne_nil x u)
        have hxt : x = t := Option.some.inj hx
        rw [hxt, List.cons_append, List.nodup_cons] at hnd
        exact hnd.1 (by simp)
  rw [hends]
  constructor
  · intro hkeeps
    rw [← follower_iff hnd hne, ← hkeeps.first ⟨fun _ => 0, 0, 0⟩ 0 0, hgone.first,
      Split.erase_eq hnd]
  · intro hend
    exact hgone.keepsRotation h hc hne hend

theorem self_removal_first : ∃ s', twoQueued.removeTask 2 twoQueued.cTask = .ok (false, s') ∧
    KeepsRotation twoQueued s' [0, 1] 0 := by
  have hready : twoQueued.Ready [0, 1] := ⟨rfl, rfl, rfl⟩
  obtain ⟨s', hs', hkeeps⟩ := self_removal_iff hready rfl List.mem_cons_self (by decide)
    (by decide : _ ≤ 2)
  exact ⟨s', hs', hkeeps.mpr (Or.inl rfl)⟩

/-- Tasks 0, 1 and 2 are queued, and 1 is running. -/
def threeQueued : Sched (Fin 3) where
  tasks := fun t => { (TaskData.zero : TaskData (Fin 3)) with
    nextNode := if t = 0 then some 1 else if t = 1 then some 2 else none }
  readyListHead := some 0
  cTask := some 1
  mem := fun _ => 0
  sreg := 0x80

/-- Task 1 removes itself, and 0 is dispatched instead of 2. -/
theorem self_removal_middle : ∃ s', threeQueued.removeTask 3 threeQueued.cTask = .ok (false, s') ∧
    threeQueued.Ready [0, 1, 2] ∧ follower [0, 1, 2] (1 : Fin 3) = some 2 ∧
    (s'.contextSwitch ⟨fun _ => 0, 0x23D, 0x80⟩ 1000 1004).cTask = some 0 ∧
    ¬ KeepsRotation threeQueued s' [0, 1, 2] 1 := by
  have hready : threeQueued.Ready [0, 1, 2] := ⟨rfl, rfl, rfl, rfl⟩
  obtain ⟨s', hs', hleft, hcur, hlink, -⟩ := removeTask_ready (t := (1 : Fin 3)) hready (by decide)
    (by decide : _ ≤ 3)
  have hgone : Removed s' [0, 1, 2] 1 := ⟨hleft, hcur, hlink⟩
  have hhead : (s'.contextSwitch ⟨fun _ => 0, 0x23D, 0x80⟩ 1000 1004).cTask = some 0 :=
    hgone.first _ _ _
  refine ⟨s', hs', hready, by decide, hhead, fun hkeeps => ?_⟩
  have hnext := hkeeps.first ⟨fun _ => 0, 0x23D, 0x80⟩ 1000 1004
  rw [hhead] at hnext
  exact absurd hnext (by decide)

end Sched

end AtmegaScheduler
