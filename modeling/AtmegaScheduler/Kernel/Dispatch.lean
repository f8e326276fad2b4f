/-
Which task a dispatch picks.

`schedule_round_robin` follows the link of `c_task`, and nothing stops the running
task from having left the list by then.  What that link holds depends on how the
task left: removal behind the head clears it, removal at the head keeps it.  And a
`create_task` that fails because of the name has cleared it too.  So the abstract
scheduler below carries, besides the list, what each task outside it was left
pointing at.

With it the question of the source becomes one about histories.  A switch picks a
queued task unless the running task still points at the one that followed it when
it was removed at the head of the list, and that one has been removed since.  And
`kernel_start` picks the current task, which at first is the first one created,
queued or not.

The last section asks when a switch picks a task at all: nothing guards the null that is
left in `c_task` when the list is empty.
-/
import AtmegaScheduler.Kernel.ReadyList

namespace AtmegaScheduler

open Avr

namespace Sched

variable {τ : Type} [DecidableEq τ]

/-- The scheduler as the history of calls determines it. -/
structure Abs (τ : Type) where
  queue : List τ
  /-- The task running, or to be started first. -/
  cur : Option τ
  /-- Every task created so far. -/
  created : List τ
  /-- What a task outside the queue was left pointing at. -/
  left : τ → Option τ

namespace Abs

/-- No task has been created. -/
def init : Abs τ where
  queue := []
  cur := none
  created := []
  left := fun _ => none

/-- The task a switch away from `t` prefers: the next in the queue, or what `t` was left with. -/
def succ (a : Abs τ) (t : τ) : Option τ :=
  if t ∈ a.queue then a.queue[a.queue.idxOf t + 1]? else a.left t

/-- A call of `create_task`: with a name that does not fit, the block only loses its link. -/
def create (a : Abs τ) (t : τ) (args : CreateArgs) : Abs τ :=
  if args.name.length < confTaskNameMaxLength then
    { a with
      queue := a.queue ++ [t]
      cur := a.cur.or (a.queue ++ [t]).head?
      created := t :: a.created }
  else
    { a with left := Function.update a.left t none }

def step (a : Abs τ) : Op τ → Abs τ
  | .createTask t args => a.create t args
  | .createTaskArgs t args _ => a.create t args
  | .removeTask t =>
      { a with
        queue := a.queue.erase t
        left := Function.update a.left t (leftLink a.queue t) }
  | .startScheduler => a
  | .contextSwitch _ _ _ => { a with cur := (a.cur.bind a.succ).or a.queue.head? }

def run (a : Abs τ) (ops : List (Op τ)) : Abs τ := ops.foldl step a

theorem create_of_fits {args : CreateArgs} (a : Abs τ) (t : τ)
    (hname : args.name.length < confTaskNameMaxLength) :
    a.create t args =
      { a with
        queue := a.queue ++ [t]
        cur := a.cur.or (a.queue ++ [t]).head?
        created := t :: a.created } := if_pos hname

theorem create_of_long {args : CreateArgs} (a : Abs τ) (t : τ)
    (hname : confTaskNameMaxLength ≤ args.name.length) :
    a.create t args = { a with left := Function.update a.left t none } :=
  if_neg (Nat.not_lt.mpr hname)

theorem step_queue (a : Abs τ) (op : Op τ) : (a.step op).queue = op.listAfter a.queue := by
  have hcreate : ∀ t (args : CreateArgs), (a.create t args).queue =
      if args.name.length < confTaskNameMaxLength then a.queue ++ [t] else a.queue := by
    intro t args
    unfold create
    split <;> rfl
  cases op with
  | createTask t args => exact hcreate t args
  | createTaskArgs t args _ => exact hcreate t args
  | removeTask t => rfl
  | startScheduler => rfl
  | contextSwitch _ _ _ => rfl

/-- Only tasks that were created are ever queued, current, or pointed at. -/
structure Known (a : Abs τ) : Prop where
  queue : ∀ t ∈ a.queue, t ∈ a.created
  cur : ∀ t, a.cur = some t → t ∈ a.created
  left : ∀ t x, a.left t = some x → x ∈ a.created

omit [DecidableEq τ] in
theorem known_init : Known (init : Abs τ) :=
  ⟨by simp [init], by simp [init], by simp [init]⟩

omit [DecidableEq τ] in
theorem mem_of_or_head {q : List τ} {o : Option τ} {t : τ} (h : o.or q.head? = some t) :
    o = some t ∨ t ∈ q := by
  cases o with
  | none => exact Or.inr (List.mem_of_mem_head? (by simpa using h))
  | some x => exact Or.inl (by simpa using h)

theorem known_create {a : Abs τ} (h : Known a) (t : τ) (args : CreateArgs) :
    Known (a.create t args) := by
  by_cases hname : args.name.length < confTaskNameMaxLength
  · rw [create_of_fits a t hname]
    have hq : ∀ x ∈ a.queue ++ [t], x ∈ t :: a.created := by
      intro x hx
      rcases List.mem_append.mp hx with hx | hx
      · exact List.mem_cons_of_mem _ (h.queue x hx)
      · simp [List.mem_singleton.mp hx]
    refine ⟨hq, ?_, fun x y hy => List.mem_cons_of_mem _ (h.left x y hy)⟩
    intro x hx
    rcases mem_of_or_head hx with hc | hc
    · exact List.mem_cons_of_mem _ (h.cur x hc)
    · exact hq x hc
  · rw [create_of_long a t (Nat.le_of_not_lt hname)]
    refine ⟨h.queue, h.cur, fun x y hy => ?_⟩
    have hy' : Function.update a.left t none x = some y := hy
    by_cases hxt : x = t
    · rw [hxt, Function.update_self] at hy'
      exact absurd hy' (by simp)
    · rw [Function.update_of_ne hxt] at hy'
      exact h.left x y hy'

theorem known_step {a : Abs τ} (h : Known a) (op : Op τ) : Known (a.step op) := by
  cases op with
  | createTask t args => exact known_create h t args
  | createTaskArgs t args _ => exact known_create h t args
  | removeTask t =>
      refine ⟨fun x hx => h.queue x (List.mem_of_mem_erase hx), h.cur, ?_⟩
      intro x y hy
      have hy' : Function.update a.left t (leftLink a.queue t) x = some y := hy
      by_cases hxt : x = t
      · rw [hxt, Function.update_self, leftLink] at hy'
        split at hy'
        · exact h.queue y (List.mem_of_mem_erase (List.mem_of_mem_head? hy'))
        · simp at hy'
      · rw [Function.update_of_ne hxt] at hy'
        exact h.left x y hy'
  | startScheduler => exact h
  | contextSwitch _ _ _ =>
      refine ⟨h.queue, ?_, h.left⟩
      intro x hx
      rcases mem_of_or_head hx with hc | hc
      · obtain ⟨c, -, hsucc⟩ := Option.bind_eq_some_iff.mp hc
        unfold succ at hsucc
        split at hsucc
        · exact h.queue x (List.mem_of_getElem? hsucc)
        · exact h.left c x hsucc
      · exact h.queue x hc

end Abs

/-! ### The pointers follow the abstract scheduler -/

/-- The pointers of `s` are those the history `a` leaves behind. -/
structure Sim (s : Sched τ) (a : Abs τ) : Prop where
  ready : s.Ready a.queue
  cur : s.cTask = a.cur
  left : ∀ t ∈ a.created, t ∉ a.queue → s.next t = a.left t
  known : a.Known

omit [DecidableEq τ] in
theorem sim_empty (tasks : τ → TaskData τ) (mem : Word → Byte) (sreg : Byte) :
    Sim (empty tasks mem sreg) Abs.init :=
  ⟨empty_ready tasks mem sreg, rfl, by simp [Abs.init], Abs.known_init⟩

theorem Ready.next_of_mem {s : Sched τ} {q : List τ} {t : τ} (h : s.Ready q) (ht : t ∈ q) :
    s.next t = q[q.idxOf t + 1]? := by
  obtain ⟨l₁, l₂, hq, hl₁⟩ := List.eq_append_cons_of_mem ht
  subst hq
  rw [Chain.link h, Split.idxOf_eq h.nodup, List.getElem?_append_right (by omega)]
  simp [List.head?_eq_getElem?]

/-- Where a switch goes from the current task, in abstract terms. -/
theorem Sim.getNextTask {s : Sched τ} {a : Abs τ} (h : Sim s a) :
    s.getNextTask s.cTask = a.cur.bind a.succ := by
  rw [h.cur]
  cases hcur : a.cur with
  | none => rfl
  | some t =>
      show s.next t = a.succ t
      unfold Abs.succ
      by_cases ht : t ∈ a.queue
      · rw [if_pos ht]
        exact h.ready.next_of_mem ht
      · rw [if_neg ht]
        exact h.left t (h.known.cur t hcur) ht

theorem Sim.create {s s' : Sched τ} {a : Abs τ} {t : τ} {args : CreateArgs} (h : Sim s a)
    (hname : args.name.length < confTaskNameMaxLength) (hready : s'.Ready (a.queue ++ [t]))
    (hcur : s'.cTask = s.cTask.or (a.queue ++ [t]).head?)
    (hnext : ∀ x, x ∉ a.queue ++ [t] → s'.next x = s.next x) : Sim s' (a.create t args) := by
  have hknown := Abs.known_create h.known t args
  rw [Abs.create_of_fits a t hname] at hknown ⊢
  refine ⟨hready, by rw [hcur, h.cur], ?_, hknown⟩
  intro x hx hxq
  have hxt : x ≠ t := by
    rintro rfl
    exact hxq (by simp)
  have hxc : x ∈ a.created := by
    rcases List.mem_cons.mp hx with hc | hc
    · exact absurd hc hxt
    · exact hc
  rw [hnext x hxq]
  exact h.left x hxc (fun hc => hxq (by simp [hc]))

/-- A call that fails leaves the block without a link. -/
theorem Sim.refuse {s : Sched τ} {a : Abs τ} {t : τ} {args : CreateArgs} (h : Sim s a)
    (hname : confTaskNameMaxLength ≤ args.name.length) (ht : t ∉ a.queue) :
    Sim (s.resetTask t args) (a.create t args) := by
  have hknown := Abs.known_create h.known t args
  rw [Abs.create_of_long a t hname] at hknown ⊢
  refine ⟨resetTask_ready h.ready ht, h.cur, ?_, hknown⟩
  intro x hx hxq
  show (s.resetTask t args).next x = Function.update a.left t none x
  rw [resetTask_next]
  by_cases hxt : x = t
  · rw [hxt, Function.update_self, Function.update_self]
  · rw [Function.update_of_ne hxt, Function.update_of_ne hxt]
    exact h.left x hx hxq

theorem step_sim {s : Sched τ} {a : Abs τ} (op : Op τ) {fuel : Nat} (h : Sim s a)
    (hop : op.Callable a.queue) (hfuel : a.queue.length ≤ fuel) :
    ∃ s', s.step fuel op = .ok s' ∧ Sim s' (a.step op) := by
  cases op with
  | createTask t args =>
      by_cases hname : args.name.length < confTaskNameMaxLength
      · obtain ⟨s', hs', hready, hcur, hnext⟩ := createTask_ready h.ready hop hname hfuel
        exact ⟨s', by simp [step, hs', Except.map], h.create hname hready hcur hnext⟩
      · have hlong := Nat.le_of_not_lt hname
        exact ⟨_, by simp [step, createTask_refused hlong, Except.map], h.refuse hlong hop⟩
  | createTaskArgs t args l =>
      by_cases hname : args.name.length < confTaskNameMaxLength
      · obtain ⟨s', hs', hready, hcur, hnext⟩ := createTaskArgs_ready l h.ready hop hname hfuel
        exact ⟨s', by simp [step, hs', Except.map], h.create hname hready hcur hnext⟩
      · have hlong := Nat.le_of_not_lt hname
        exact ⟨_, by simp [step, createTaskArgs_refused l hlong, Except.map], h.refuse hlong hop⟩
  | removeTask t =>
      obtain ⟨s', hs', hready, hcur, hleft, hnext⟩ := removeTask_ready h.ready hop hfuel
      refine ⟨s', by simp [step, hs', Except.map], hready, hcur.trans h.cur, ?_,
        Abs.known_step h.known (.removeTask t)⟩
      intro x hx hxq
      show s'.next x = Function.update a.left t (leftLink a.queue t) x
      by_cases hxt : x = t
      · rw [hxt, hleft, Function.update_self]
      · have hxq' : x ∉ a.queue := fun hc => hxq ((List.mem_erase_of_ne hxt).mpr hc)
        rw [hnext x hxq', Function.update_of_ne hxt]
        exact h.left x hx hxq'
  | startScheduler => exact ⟨s, rfl, h⟩
  | contextSwitch cpu usOut usIn =>
      obtain ⟨hnext, hhead, hcur⟩ := contextSwitch_links s cpu usOut usIn
      refine ⟨_, rfl, h.ready.of_eq hnext hhead, ?_, ?_,
        Abs.known_step h.known (.contextSwitch cpu usOut usIn)⟩
      · rw [hcur, h.getNextTask, h.ready.head]
        rfl
      · intro x hx hxq
        rw [hnext]
        exact h.left x hx hxq

/-- The first call of a run, and what the rest of the run needs. -/
theorem Sim.step {s : Sched τ} {a : Abs τ} {op : Op τ} {ops : List (Op τ)} {fuel : Nat}
    (h : Sim s a) (hops : Callable a.queue (op :: ops))
    (hfuel : a.queue.length + (op :: ops).length ≤ fuel) :
    ∃ s', s.step fuel op = .ok s' ∧ Sim s' (a.step op) ∧ Callable (a.step op).queue ops ∧
      (a.step op).queue.length + ops.length ≤ fuel := by
  rw [List.length_cons] at hfuel
  obtain ⟨s', hs', hsim⟩ := step_sim op h hops.1 (by omega : a.queue.length ≤ fuel)
  have hlen := length_listAfter a.queue op
  rw [Abs.step_queue]
  exact ⟨s', hs', hsim, hops.2, by omega⟩

/-- **The scheduler does what the abstract one does**, over any run of callable calls. -/
theorem run_sim {fuel : Nat} (ops : List (Op τ)) :
    ∀ {s : Sched τ} {a : Abs τ}, Sim s a → Callable a.queue ops →
      a.queue.length + ops.length ≤ fuel →
      ∃ s', s.run fuel ops = .ok s' ∧ Sim s' (a.run ops) := by
  induction ops with
  | nil => intro s a h _ _; exact ⟨s, rfl, h⟩
  | cons op rest ih =>
      intro s a h hops hfuel
      obtain ⟨s', hs', hsim, hops', hfuel'⟩ := h.step hops hfuel
      obtain ⟨s'', hs'', hsim'⟩ := ih hsim hops' hfuel'
      refine ⟨s'', ?_, hsim'⟩
      unfold run
      rw [hs']
      exact hs''

theorem run_sim_recreate : ∃ s' : Sched (Fin 2),
    (empty (fun _ => TaskData.zero) (fun _ => 0) 0x80).run 4 recreateRun = .ok s' ∧
      Sim s' (Abs.init.run recreateRun) :=
  run_sim recreateRun (sim_empty (fun _ => TaskData.zero) (fun _ => 0) 0x80) (by decide)
    (by decide)

/-! ### Dispatches -/

/-- `start_scheduler` and every context switch make a task run. -/
def Op.Dispatch : Op τ → Prop
  | .startScheduler => True
  | .contextSwitch _ _ _ => True
  | _ => False

instance : (op : Op τ) → Decidable op.Dispatch
  | .createTask _ _ => .isFalse not_false
  | .createTaskArgs _ _ _ => .isFalse not_false
  | .removeTask _ => .isFalse not_false
  | .startScheduler => .isTrue trivial
  | .contextSwitch _ _ _ => .isTrue trivial

/-- The current task is on the list the pointers spell. -/
def CurrentQueued (s : Sched τ) : Prop := ∃ q t, s.Ready q ∧ s.cTask = some t ∧ t ∈ q

/-- What has to hold before a dispatch for it to pick a queued task. -/
def Abs.DispatchSafe (a : Abs τ) : Op τ → Prop
  | .startScheduler => ∃ t, a.cur = some t ∧ t ∈ a.queue
  | .contextSwitch _ _ _ =>
      ∀ t, a.cur = some t → t ∉ a.queue → ∀ x, a.left t = some x → x ∈ a.queue
  | _ => True

instance (a : Abs τ) : (op : Op τ) → Decidable (a.DispatchSafe op)
  | .createTask _ _ => .isTrue trivial
  | .createTaskArgs _ _ _ => .isTrue trivial
  | .removeTask _ => .isTrue trivial
  | .startScheduler =>
      decidable_of_iff (a.cur.any (· ∈ a.queue) = true)
        (by cases h : a.cur <;> simp [Abs.DispatchSafe, h])
  | .contextSwitch _ _ _ =>
      decidable_of_iff
        ((a.cur.all fun t => decide (t ∈ a.queue) || (a.left t).all (· ∈ a.queue)) = true)
        (by
          cases h : a.cur with
          | none => simp [Abs.DispatchSafe, h]
          | some t => cases hl : a.left t <;> simp [Abs.DispatchSafe, h, hl, or_iff_not_imp_left])

omit [DecidableEq τ] in
theorem Sim.currentQueued_iff {s : Sched τ} {a : Abs τ} (h : Sim s a) :
    s.CurrentQueued ↔ ∃ t, a.cur = some t ∧ t ∈ a.queue := by
  constructor
  · rintro ⟨q, t, hq, ht, htq⟩
    rw [Chain.unique hq h.ready] at htq
    exact ⟨t, by rw [← h.cur, ht], htq⟩
  · rintro ⟨t, ht, htq⟩
    exact ⟨a.queue, t, h.ready, by rw [h.cur, ht], htq⟩

/-- A switch from a state with a queued task lands on a queued one, unless the
running task's link is stale. -/
theorem Abs.switch_queued_iff {a : Abs τ} (hne : a.queue ≠ []) :
    (∃ t, (a.cur.bind a.succ).or a.queue.head? = some t ∧ t ∈ a.queue) ↔
      ∀ t, a.cur = some t → t ∉ a.queue → ∀ x, a.left t = some x → x ∈ a.queue := by
  obtain ⟨hd, rest, hq⟩ := List.exists_cons_of_ne_nil hne
  have hhd : a.queue.head? = some hd := by rw [hq]; rfl
  have hmem : hd ∈ a.queue := by rw [hq]; simp
  cases hcur : a.cur with
  | none => simp [hhd, hmem]
  | some c =>
      by_cases hc : c ∈ a.queue
      · have hsucc : (a.succ c).or a.queue.head? = some hd ∨
            ∃ x, (a.succ c).or a.queue.head? = some x ∧ x ∈ a.queue := by
          unfold Abs.succ
          rw [if_pos hc]
          cases hx : a.queue[a.queue.idxOf c + 1]? with
          | none => exact Or.inl (by simp [hhd])
          | some x => exact Or.inr ⟨x, rfl, List.mem_of_getElem? hx⟩
        constructor
        · intro _ t ht htq
          rw [← Option.some.inj ht] at htq
          exact absurd hc htq
        · intro _
          rcases hsucc with hs | ⟨x, hs, hx⟩
          · exact ⟨hd, hs, hmem⟩
          · exact ⟨x, hs, hx⟩
      · have hsucc : a.succ c = a.left c := if_neg hc
        rw [show ((some c).bind a.succ) = a.left c from hsucc]
        constructor
        · rintro ⟨t, ht, htq⟩ t' ht' _ x hx
          rw [← Option.some.inj ht'] at hx
          rw [hx] at ht
          rw [show x = t from Option.some.inj ht]
          exact htq
        · intro h
          cases hl : a.left c with
          | none => exact ⟨hd, by simp [hhd], hmem⟩
          | some x => exact ⟨x, by simp, h c rfl hc x hl⟩

/-- **One dispatch**: it picks a queued task exactly when it is safe. -/
theorem dispatch_iff {s s' : Sched τ} {a : Abs τ} {op : Op τ} {fuel : Nat} (h : Sim s a)
    (hop : op.Dispatch) (hne : a.queue ≠ []) (hs' : s.step fuel op = .ok s') :
    s'.CurrentQueued ↔ a.DispatchSafe op := by
  cases op with
  | createTask _ _ => exact hop.elim
  | createTaskArgs _ _ _ => exact hop.elim
  | removeTask _ => exact hop.elim
  | startScheduler =>
      rw [← (Except.ok.inj hs' : s = s')]
      exact h.currentQueued_iff
  | contextSwitch cpu usOut usIn =>
      obtain ⟨s'', hs'', hsim⟩ :=
        step_sim (.contextSwitch cpu usOut usIn) h trivial (Nat.le_refl a.queue.length)
      rw [← (Except.ok.inj hs' : s.contextSwitch cpu usOut usIn = s'),
        (Except.ok.inj hs'' : s.contextSwitch cpu usOut usIn = s''), hsim.currentQueued_iff]
      exact Abs.switch_queued_iff hne

/-- Every dispatch of the run makes or leaves current a task of the ready list. -/
def DispatchesQueued (fuel : Nat) (s : Sched τ) : List (Op τ) → Prop
  | [] => True
  | op :: ops =>
      ∃ s', s.step fuel op = .ok s' ∧ (op.Dispatch → s'.CurrentQueued) ∧
        DispatchesQueued fuel s' ops

/-- Every dispatch of the run happens where it is safe. -/
def DispatchesSafe (a : Abs τ) : List (Op τ) → Prop
  | [] => True
  | op :: ops => a.DispatchSafe op ∧ DispatchesSafe (a.step op) ops

instance decidableDispatchesSafe : (a : Abs τ) → (ops : List (Op τ)) →
    Decidable (DispatchesSafe a ops)
  | _, [] => .isTrue trivial
  | a, op :: ops =>
      haveI := decidableDispatchesSafe (a.step op) ops
      inferInstanceAs (Decidable (a.DispatchSafe op ∧ DispatchesSafe (a.step op) ops))

/-- The ready list is non-empty whenever a dispatch happens. -/
def DispatchesNonempty (q : List τ) : List (Op τ) → Prop
  | [] => True
  | op :: ops => (op.Dispatch → q ≠ []) ∧ DispatchesNonempty (op.listAfter q) ops

instance decidableDispatchesNonempty : (q : List τ) → (ops : List (Op τ)) →
    Decidable (DispatchesNonempty q ops)
  | _, [] => .isTrue trivial
  | q, op :: ops =>
      haveI := decidableDispatchesNonempty (op.listAfter q) ops
      inferInstanceAs (Decidable ((op.Dispatch → q ≠ []) ∧ DispatchesNonempty (op.listAfter q) ops))

theorem dispatchesQueued_iff_safe {fuel : Nat} (ops : List (Op τ)) :
    ∀ {s : Sched τ} {a : Abs τ}, Sim s a → Callable a.queue ops →
      DispatchesNonempty a.queue ops → a.queue.length + ops.length ≤ fuel →
      (DispatchesQueued fuel s ops ↔ DispatchesSafe a ops) := by
  induction ops with
  | nil => intro s a _ _ _ _; exact Iff.rfl
  | cons op rest ih =>
      intro s a h hops hne hfuel
      obtain ⟨s', hs', hsim, hops', hfuel'⟩ := h.step hops hfuel
      have hrest : DispatchesQueued fuel s' rest ↔ DispatchesSafe (a.step op) rest :=
        ih hsim hops' (by rw [Abs.step_queue]; exact hne.2) hfuel'
      have hstep : (op.Dispatch → s'.CurrentQueued) ↔ a.DispatchSafe op := by
        by_cases hd : op.Dispatch
        · rw [← dispatch_iff h hd (hne.1 hd) hs']
          exact ⟨fun k => k hd, fun k _ => k⟩
        · refine ⟨fun _ => ?_, fun _ k => absurd k hd⟩
          cases op <;> first | exact trivial | exact absurd trivial hd
      constructor
      · rintro ⟨s'', hs'', hq, hqs⟩
        have hss : s' = s'' := Except.ok.inj (hs'.symm.trans hs'')
        subst hss
        exact ⟨hstep.mp hq, hrest.mp hqs⟩
      · rintro ⟨hsafe, hsafes⟩
        exact ⟨s', hs', hstep.mpr hsafe, hrest.mpr hsafes⟩

/--
**When a removed task is never dispatched.**  In a run of callable operations whose
dispatches find the ready list non-empty, every dispatch picks a queued task
exactly when every dispatch is safe: `start_scheduler` finds the current task
queued, and a switch away from a task that is not queued finds the task it still
points at queued.
-/
theorem dispatches_queued_iff (tasks : τ → TaskData τ) (mem : Word → Byte) (sreg : Byte)
    (ops : List (Op τ)) (fuel : Nat) (hops : Callable [] ops) (hne : DispatchesNonempty [] ops)
    (hfuel : ops.length ≤ fuel) :
    DispatchesQueued fuel (empty tasks mem sreg) ops ↔ DispatchesSafe Abs.init ops :=
  dispatchesQueued_iff_safe ops (sim_empty tasks mem sreg) hops hne
    (by simpa [Abs.init] using hfuel)

/-- The running head removes itself, and its successor stays. -/
def selfRemovalRun : List (Op (Fin 3)) :=
  [.createTask 0 ⟨0x200, 64, [0x61], 1, 1, 0x100⟩, .createTask 1 ⟨0x240, 64, [0x62], 1, 1, 0x120⟩,
    .startScheduler, .removeTask 0, .contextSwitch ⟨fun _ => 0, 0x23D, 0x80⟩ 1000 1004]

/-- The running head removes itself and then its successor, and a creation of the head that
fails clears the link that has become stale. -/
def clearedLinkRun : List (Op (Fin 3)) :=
  [.createTask 0 ⟨0x200, 64, [0x61], 1, 1, 0x100⟩, .createTask 1 ⟨0x240, 64, [0x62], 1, 1, 0x120⟩,
    .createTask 2 ⟨0x280, 64, [0x63], 1, 1, 0x140⟩, .startScheduler, .removeTask 0, .removeTask 1,
    .createTask 0 ⟨0x200, 64, List.replicate 15 0x61, 1, 1, 0x100⟩,
    .contextSwitch ⟨fun _ => 0, 0x23D, 0x80⟩ 1000 1004]

theorem dispatches_queued_cleared :
    DispatchesQueued 8 (empty (fun _ => TaskData.zero) (fun _ => 0) 0x80) clearedLinkRun :=
  (dispatches_queued_iff (fun _ => TaskData.zero) (fun _ => 0) 0x80 clearedLinkRun 8 (by decide)
    (by decide) (by decide)).mpr (by decide)

/-- The running head removes itself and then its successor. -/
def staleLinkRun : List (Op (Fin 3)) :=
  [.createTask 0 ⟨0x200, 64, [0x61], 1, 1, 0x100⟩, .createTask 1 ⟨0x240, 64, [0x62], 1, 1, 0x120⟩,
    .createTask 2 ⟨0x280, 64, [0x63], 1, 1, 0x140⟩, .startScheduler, .removeTask 0, .removeTask 1,
    .contextSwitch ⟨fun _ => 0, 0x23D, 0x80⟩ 1000 1004]

/-- The first created task is removed before the scheduler starts. -/
def removedFirstRun : List (Op (Fin 3)) :=
  [.createTask 0 ⟨0x200, 64, [0x61], 1, 1, 0x100⟩, .createTask 1 ⟨0x240, 64, [0x62], 1, 1, 0x120⟩,
    .removeTask 0, .startScheduler]

/-- In both runs every call is callable and a task is queued, and a removed one runs. -/
theorem removed_task_dispatched :
    (Callable [] staleLinkRun ∧ DispatchesNonempty [] staleLinkRun ∧
      ¬ DispatchesQueued 7 (empty (fun _ => TaskData.zero) (fun _ => 0) 0x80) staleLinkRun) ∧
    (Callable [] removedFirstRun ∧ DispatchesNonempty [] removedFirstRun ∧
      ¬ DispatchesQueued 7 (empty (fun _ => TaskData.zero) (fun _ => 0) 0x80)
        removedFirstRun) := by
  refine ⟨⟨by decide, by decide, ?_⟩, ⟨by decide, by decide, ?_⟩⟩
  -- the last switch leaves task 0, which still points at the removed task 1
  · rw [dispatchesQueued_iff_safe staleLinkRun (sim_empty _ _ _) (by decide) (by decide)
      (by decide)]
    decide
  -- `c_task` has been 0 since its creation
  · rw [dispatchesQueued_iff_safe removedFirstRun (sim_empty _ _ _) (by decide) (by decide)
      (by decide)]
    decide

/-! ### A switch with nobody to dispatch -/

/-- Somebody is queued, or the running task was removed at the head of the list while
another followed it. -/
def Abs.HasSuccessor (a : Abs τ) : Prop :=
  a.queue ≠ [] ∨ ∃ t x, a.cur = some t ∧ a.left t = some x

/-- Every switch of the run leaves a task in `c_task`. -/
def SwitchesFindTask (fuel : Nat) (s : Sched τ) : List (Op τ) → Prop
  | [] => True
  | op :: ops =>
      ∃ s', s.step fuel op = .ok s' ∧ (op.IsSwitch → s'.cTask ≠ none) ∧
        SwitchesFindTask fuel s' ops

/-- Every switch of the run happens where there is a task to dispatch. -/
def SwitchesHaveSuccessor (a : Abs τ) : List (Op τ) → Prop
  | [] => True
  | op :: ops => (op.IsSwitch → a.HasSuccessor) ∧ SwitchesHaveSuccessor (a.step op) ops

theorem Abs.hasSuccessor_iff (a : Abs τ) :
    (a.cur.bind a.succ).or a.queue.head? ≠ none ↔ a.HasSuccessor := by
  unfold HasSuccessor
  cases hq : a.queue with
  | cons hd rest =>
      refine iff_of_true ?_ (Or.inl (List.cons_ne_nil hd rest))
      rw [List.head?_cons, Option.or_some]
      exact Option.some_ne_none _
  | nil =>
      have hsucc : ∀ t, a.succ t = a.left t := by
        intro t
        unfold succ
        rw [hq, if_neg List.not_mem_nil]
      rw [List.head?_nil, Option.or_none]
      cases hcur : a.cur with
      | none => simp
      | some t =>
          rw [Option.bind_some, hsucc]
          cases hl : a.left t with
          | none => simp [hl]
          | some x => simp [hl]

/-- **One switch** leaves a task in `c_task` exactly when there is one to dispatch. -/
theorem Sim.switch_iff {s : Sched τ} {a : Abs τ} (h : Sim s a) (cpu : CpuRegisters)
    (usOut usIn : BitVec 32) : (s.contextSwitch cpu usOut usIn).cTask ≠ none ↔ a.HasSuccessor := by
  obtain ⟨-, -, hcur⟩ := contextSwitch_links s cpu usOut usIn
  rw [hcur, h.getNextTask, h.ready.head]
  exact a.hasSuccessor_iff

theorem switchesFindTask_iff {fuel : Nat} (ops : List (Op τ)) :
    ∀ {s : Sched τ} {a : Abs τ}, Sim s a → Callable a.queue ops →
      a.queue.length + ops.length ≤ fuel →
      (SwitchesFindTask fuel s ops ↔ SwitchesHaveSuccessor a ops) := by
  induction ops with
  | nil => intro s a _ _ _; exact Iff.rfl
  | cons op rest ih =>
      intro s a h hops hfuel
      obtain ⟨s', hs', hsim, hops', hfuel'⟩ := h.step hops hfuel
      have hrest : SwitchesFindTask fuel s' rest ↔ SwitchesHaveSuccessor (a.step op) rest :=
        ih hsim hops' hfuel'
      have hswitch : (op.IsSwitch → s'.cTask ≠ none) ↔ (op.IsSwitch → a.HasSuccessor) := by
        refine imp_congr_right fun hop => ?_
        obtain ⟨cpu, usOut, usIn, rfl⟩ := hop.eq
        rw [← (Except.ok.inj hs' : s.contextSwitch cpu usOut usIn = s')]
        exact h.switch_iff cpu usOut usIn
      unfold SwitchesHaveSuccessor
      rw [← hswitch, ← hrest]
      constructor
      · rintro ⟨s'', hs'', hq, hqs⟩
        rw [hs'] at hs''
        rw [Except.ok.inj hs'']
        exact ⟨hq, hqs⟩
      · rintro ⟨hq, hqs⟩
        exact ⟨s', hs', hq, hqs⟩

/--
**When a switch has a task to run.**  In a run of callable operations, every switch
leaves a task in `c_task` exactly when, at each of them, somebody is queued or the
running task still points at the one that followed it when it was removed.
-/
theorem switches_find_task_iff (tasks : τ → TaskData τ) (mem : Word → Byte) (sreg : Byte)
    (ops : List (Op τ)) (fuel : Nat) (hops : Callable [] ops) (hfuel : ops.length ≤ fuel) :
    SwitchesFindTask fuel (empty tasks mem sreg) ops ↔ SwitchesHaveSuccessor Abs.init ops :=
  switchesFindTask_iff ops (sim_empty tasks mem sreg) hops (by simpa [Abs.init] using hfuel)

theorem switches_find_task_selfRemoval :
    SwitchesFindTask 5 (empty (fun _ => TaskData.zero) (fun _ => 0) 0x80) selfRemovalRun ↔
      SwitchesHaveSuccessor Abs.init selfRemovalRun :=
  switches_find_task_iff (fun _ => TaskData.zero) (fun _ => 0) 0x80 selfRemovalRun 5 (by decide)
    (by decide)

/-- The only task removes itself. -/
def lastRemovalRun : List (Op (Fin 3)) :=
  [.createTask 0 ⟨0x200, 64, [0x61], 1, 1, 0x100⟩, .startScheduler, .removeTask 0,
    .contextSwitch ⟨fun _ => 0, 0x23D, 0x80⟩ 1000 1004]

/-- The switch that follows writes the stamp and loads the context through null. -/
theorem last_task_leaves_null : Callable [] lastRemovalRun ∧
    ¬ SwitchesFindTask 4 (empty (fun _ => TaskData.zero) (fun _ => 0) 0x80) lastRemovalRun := by
  refine ⟨by decide, ?_⟩
  rw [switchesFindTask_iff lastRemovalRun (sim_empty _ _ _) (by decide) (by decide)]
  rintro ⟨-, -, -, hlast, -⟩
  rcases hlast trivial with hq | ⟨t, x, ht, hx⟩
  · exact hq rfl
  · obtain rfl : 0 = t := Option.some.inj ht
    exact absurd (hx.symm.trans rfl) (Option.some_ne_none x)

end Sched

end AtmegaScheduler
