/-
Round robin over the ready list.

A switch takes `c_task` to its successor on the list, or from the tail back to the head,
and `create_task` appends.  So switches and creations take turns along a queue that grows
at its end, and what is fair there is fair here.
-/
import AtmegaScheduler.Lib.RoundRobin
import AtmegaScheduler.Kernel.Dispatch

namespace AtmegaScheduler

open Avr RoundRobin

namespace Sched

variable {τ : Type} [DecidableEq τ]

/-- What an operation is to the queue. -/
def Op.event : Op τ → Option (RoundRobin.Event τ)
  | .createTask t _ => some (.join t)
  | .createTaskArgs t _ _ => some (.join t)
  | .contextSwitch _ _ _ => some .pass
  | _ => none

/-- The task that a switch dispatches, in the state it leads to. -/
def Op.dispatched (s' : Sched τ) : Op τ → List τ
  | .contextSwitch _ _ _ => s'.cTask.toList
  | _ => []

/-- The tasks that the switches of a run dispatch, one after another. -/
def dispatches (fuel : Nat) (s : Sched τ) : List (Op τ) → List τ
  | [] => []
  | op :: ops =>
      match s.step fuel op with
      | .error _ => []
      | .ok s' => op.dispatched s' ++ dispatches fuel s' ops

/-- The ready list is the queue, and `c_task` has its turn. -/
structure Walks (s : Sched τ) (w : Turn τ) : Prop where
  ready : s.Ready w.queue
  cur : s.cTask = some w.cur
  queued : w.cur ∈ w.queue

variable {s s' : Sched τ} {w : Turn τ} {fuel : Nat}

omit [DecidableEq τ] in
theorem Walks.create (h : Walks s w) {t : τ} (hready : s'.Ready (w.queue ++ [t]))
    (hcur : s'.cTask = s.cTask.or (w.queue ++ [t]).head?) :
    Walks s' { w with queue := w.queue ++ [t] } := by
  refine ⟨hready, ?_, List.mem_append_left _ h.queued⟩
  rw [hcur, h.cur]
  rfl

theorem Walks.switch (h : Walks s w) (cpu : CpuRegisters) (usOut usIn : BitVec 32) :
    Walks (s.contextSwitch cpu usOut usIn) (w.step .pass) := by
  obtain ⟨hnext, hhead, hcur⟩ := contextSwitch_links s cpu usOut usIn
  refine ⟨h.ready.of_eq hnext hhead, ?_, Turn.next_mem h.queued⟩
  have hlink : s.getNextTask (some w.cur) = w.queue[w.queue.idxOf w.cur + 1]? :=
    Ready.next_of_mem h.ready h.queued
  rw [hcur, h.cur, hlink, h.ready.head]
  exact Turn.some_next h.queued

/-- What one creation or switch does to the queue, and whom it dispatches. -/
structure Op.Moves (op : Op τ) (w : Turn τ) (s' : Sched τ) (e : RoundRobin.Event τ) : Prop where
  event : op.event = some e
  walks : Walks s' (w.step e)
  queue : (w.step e).queue = op.queue w.queue
  turns : ∀ es, w.turns (e :: es) = op.dispatched s' ++ (w.step e).turns es

theorem Walks.step (h : Walks s w) {op : Op τ} (hkind : op.IsCreate ∨ op.IsSwitch)
    (hop : op.Allowed w.queue) (hfuel : w.queue.length ≤ fuel) :
    ∃ s' e, s.step fuel op = .ok s' ∧ op.Moves w s' e := by
  cases op with
  | createTask t a =>
      obtain ⟨s', hs', hready, hcur, -⟩ := createTask_ready h.ready hop.1 hop.2 hfuel
      exact ⟨s', .join t, by simp [Sched.step, hs', Except.map],
        ⟨rfl, h.create hready hcur, rfl, fun _ => rfl⟩⟩
  | createTaskArgs t a args =>
      obtain ⟨s', hs', hready, hcur, -⟩ := createTaskArgs_ready args h.ready hop.1 hop.2 hfuel
      exact ⟨s', .join t, by simp [Sched.step, hs', Except.map],
        ⟨rfl, h.create hready hcur, rfl, fun _ => rfl⟩⟩
  | removeTask _ => exact absurd hkind (by simp [Op.IsCreate, Op.IsSwitch])
  | startScheduler => exact absurd hkind (by simp [Op.IsCreate, Op.IsSwitch])
  | contextSwitch cpu usOut usIn =>
      have hwalks := h.switch cpu usOut usIn
      refine ⟨_, .pass, rfl, ⟨rfl, hwalks, rfl, fun es => ?_⟩⟩
      unfold Op.dispatched
      rw [hwalks.cur]
      rfl

/-- The events of a run. -/
def Op.turns (ops : List (Op τ)) : List (RoundRobin.Event τ) := ops.filterMap Op.event

theorem Walks.run {ops : List (Op τ)} :
    ∀ {s : Sched τ} {w : Turn τ}, Walks s w → (∀ op ∈ ops, op.IsCreate ∨ op.IsSwitch) →
      Allowed w.queue ops → w.queue.length + ops.length ≤ fuel →
      ∃ s', s.run fuel ops = .ok s' ∧ Walks s' (w.run (Op.turns ops)) ∧
        (w.run (Op.turns ops)).queue = queueAfter w.queue ops ∧
        s.dispatches fuel ops = w.turns (Op.turns ops) := by
  induction ops with
  | nil => intro s w h _ _ _; exact ⟨s, rfl, h, rfl, rfl⟩
  | cons op rest ih =>
      intro s w h hkind hops hfuel
      rw [List.length_cons] at hfuel
      obtain ⟨s₁, e, hs₁, hmoves⟩ := h.step (hkind op List.mem_cons_self) hops.1
        (by omega : w.queue.length ≤ fuel)
      have hlen := length_queue_le w.queue op
      rw [← hmoves.queue] at hlen
      obtain ⟨s₂, hs₂, hwalks, hqueue, hturns⟩ := ih hmoves.walks
        (fun op hop => hkind op (List.mem_cons_of_mem _ hop))
        (by rw [hmoves.queue]; exact hops.2) (by omega)
      have hevents : Op.turns (op :: rest) = e :: Op.turns rest :=
        List.filterMap_cons_some hmoves.event
      refine ⟨s₂, ?_, ?_, ?_, ?_⟩
      · unfold Sched.run
        rw [hs₁]
        exact hs₂
      · rw [hevents]
        exact hwalks
      · rw [hevents, ← hqueue.trans (by rw [hmoves.queue]; rfl : _ = queueAfter w.queue (op :: rest))]
        rfl
      · unfold dispatches
        rw [hs₁, hevents, hmoves.turns, ← hturns]

omit [DecidableEq τ] in
/-- A run of switches. -/
theorem turns_switches {ops : List (Op τ)} (h : ∀ op ∈ ops, op.IsSwitch) :
    Op.turns ops = List.replicate ops.length .pass := by
  induction ops with
  | nil => rfl
  | cons op rest ih =>
      obtain ⟨cpu, usOut, usIn, rfl⟩ := (h op List.mem_cons_self).eq
      rw [List.length_cons, List.replicate_succ,
        ← ih fun op hop => h op (List.mem_cons_of_mem _ hop)]
      rfl

/--
**Round robin is fair.**  Take a ready list with `c_task` in it, and any run of switches
and creations.  Where it has come to a task `a` and goes on until a switch dispatches `a`
again, every other task that was queued has been dispatched once in between, and no task
more than once.  And switches alone move `c_task` by their number, modulo the length of
the list.
-/
theorem round_robin_fair {s : Sched τ} {q : List τ} {c : τ} (h : s.Ready q)
    (hc : s.cTask = some c) (hmem : c ∈ q) (pre mid : List (Op τ))
    (hkind : ∀ op ∈ pre ++ mid, op.IsCreate ∨ op.IsSwitch) (hops : Allowed q (pre ++ mid))
    {fuel : Nat} (hfuel : q.length + (pre ++ mid).length ≤ fuel) :
    ∃ s₁ s₂, s.run fuel pre = .ok s₁ ∧ s₁.run fuel mid = .ok s₂ ∧
      (∀ a cpu usOut usIn, s₁.cTask = some a → a ∉ s₁.dispatches fuel mid →
        (s₂.contextSwitch cpu usOut usIn).cTask = some a →
        (∀ b ∈ queueAfter q pre, b ≠ a → (s₁.dispatches fuel mid).count b = 1) ∧
        ∀ b, (s₁.dispatches fuel mid).count b ≤ 1) ∧
      ∀ i, q[i]? = some c → (∀ op ∈ pre, op.IsSwitch) →
        s₁.cTask = q[(i + pre.length) % q.length]? := by
  have hwalks : Walks s ⟨q, c⟩ := ⟨h, hc, hmem⟩
  obtain ⟨hpre, hmid⟩ := allowed_append.mp hops
  rw [List.length_append] at hfuel
  obtain ⟨s₁, hs₁, hw₁, hqueue, -⟩ := hwalks.run
    (fun op hop => hkind op (List.mem_append_left _ hop)) hpre
    (by omega : q.length + pre.length ≤ fuel)
  have hlen := length_queueAfter_le q pre
  rw [← hqueue] at hmid hlen
  obtain ⟨s₂, hs₂, hw₂, -, hturns⟩ := hw₁.run
    (fun op hop => hkind op (List.mem_append_right _ hop)) hmid
    (by omega : _ + mid.length ≤ fuel)
  refine ⟨s₁, s₂, hs₁, hs₂, ?_, ?_⟩
  · intro a cpu usOut usIn ha hnot hback
    obtain rfl : ((⟨q, c⟩ : Turn τ).run (Op.turns pre)).cur = a := by
      rw [hw₁.cur] at ha
      exact Option.some.inj ha
    rw [(hw₂.switch cpu usOut usIn).cur] at hback
    rw [hturns] at hnot ⊢
    have hserved := Turn.served_between hw₁.queued hw₂.ready.nodup hnot (Option.some.inj hback)
    rw [← hqueue]
    refine ⟨fun b hb hne => ?_, fun b => List.nodup_iff_count_le_one.mp hserved.once b⟩
    exact List.count_eq_one_of_mem hserved.once (hserved.all b hb hne)
  · intro i hi hswitch
    obtain ⟨-, hpos⟩ := Turn.run_position (w := ⟨q, c⟩) h.nodup hi pre.length
    rw [hw₁.cur, turns_switches hswitch]
    exact hpos.symm

/-- Tasks 0 and 1 are queued, and 0 is running. -/
def twoQueued : Sched (Fin 3) where
  tasks := fun t =>
    { (TaskData.zero : TaskData (Fin 3)) with nextNode := if t = 0 then some 1 else none }
  readyListHead := some 0
  cTask := some 0
  mem := fun _ => 0
  sreg := 0x80

/-- A switch with nothing in the registers. -/
def plainSwitch : Op (Fin 3) := .contextSwitch ⟨fun _ => 0, 0x23D, 0x80⟩ 1000 1004

/-- Task 2 joins while 1 is running. -/
def joinRun : List (Op (Fin 3)) :=
  [.createTask 2 ⟨0x280, 64, [0x63], 1, 1, 0x140⟩, plainSwitch, plainSwitch]

theorem round_robin_fair_join : ∃ s₁ s₂, twoQueued.run 9 [plainSwitch] = .ok s₁ ∧
    s₁.run 9 joinRun = .ok s₂ ∧ s₁.cTask = some 1 ∧ s₁.dispatches 9 joinRun = [2, 0] ∧
    (s₁.dispatches 9 joinRun).count 0 = 1 ∧ (s₁.dispatches 9 joinRun).count 2 ≤ 1 := by
  have hready : twoQueued.Ready [0, 1] := ⟨rfl, rfl, rfl⟩
  obtain ⟨s₁, s₂, hs₁, hs₂, hfair, hpos⟩ := round_robin_fair hready rfl List.mem_cons_self
    [plainSwitch] joinRun
    (by simp [plainSwitch, joinRun, Op.IsCreate, Op.IsSwitch]) (by decide)
    (by decide : _ ≤ 9)
  have hcur : s₁.cTask = some 1 := hpos 0 rfl (by simp [plainSwitch, Op.IsSwitch])
  obtain rfl : _ = s₁ := Except.ok.inj hs₁
  have hmid : dispatches 9 (twoQueued.contextSwitch ⟨fun _ => 0, 0x23D, 0x80⟩ 1000 1004) joinRun =
      [2, 0] := by decide
  obtain rfl : _ = s₂ := Except.ok.inj hs₂
  obtain ⟨honce, hmost⟩ := hfair 1 ⟨fun _ => 0, 0x23D, 0x80⟩ 1000 1004 hcur
    (by rw [hmid]; decide) (by decide)
  exact ⟨_, _, rfl, rfl, hcur, hmid, honce 0 (by decide) (by decide), hmost 2⟩

end Sched

end AtmegaScheduler
