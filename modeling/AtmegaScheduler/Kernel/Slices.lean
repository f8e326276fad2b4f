/-
Who is charged for what time.

Time is a number of microseconds that does not wrap; `get_us` reads it modulo `2 ^ 32`.
The ledger of a run says when the running task was dispatched and which slices are over.
The accounts agree with it by an invariant that ties the stamp of the running task to
the ledger: every switch charges the task it leaves from the stamp, and stamps the one
it dispatches.

The first dispatch is the exception, since `kernel_start` leaves no stamp.  The zero that
stands there instead is right just when the clock reads zero at that moment.
-/
import AtmegaScheduler.Kernel.CpuTime
import AtmegaScheduler.Kernel.Dispatch

namespace AtmegaScheduler

open Avr

namespace Sched

variable {τ : Type} [DecidableEq τ]

/-- What `get_us` reads `n` microseconds after the clock was at zero. -/
def reading (n : Nat) : BitVec 32 := BitVec.ofNat 32 n

/-- A dispatch of a task that is over. -/
structure Slice (τ : Type) where
  task : τ
  start : Nat
  stop : Nat

/-- When the running task was dispatched, and the dispatches that are over. -/
structure Ledger (τ : Type) where
  dispatched : Nat
  slices : List (Slice τ)

/-- The time a task has been running, up to its last switch. -/
def Ledger.total (l : Ledger τ) (t : τ) : Nat :=
  ((l.slices.filter fun x => x.task = t).map fun x => x.stop - x.start).sum

/-- The events after `start_scheduler`: a switch reads the clock at `stop`, before it
charges the task it leaves, and at `start`, to stamp the one it dispatches. -/
inductive Timed (τ : Type)
  | createTask (task : τ) (a : CreateArgs)
  | createTaskArgs (task : τ) (a : CreateArgs) (args : List Arg)
  | contextSwitch (cpu : CpuRegisters) (stop start : Nat)

namespace Timed

/-- The operation, with what the clock reads. -/
def op : Timed τ → Op τ
  | .createTask task a => .createTask task a
  | .createTaskArgs task a args => .createTaskArgs task a args
  | .contextSwitch cpu stop start => .contextSwitch cpu (reading stop) (reading start)

def IsSwitch : Timed τ → Prop
  | .contextSwitch _ _ _ => True
  | _ => False

/-- The clock goes forward, and by less than `2 ^ 32` microseconds from one switch to the
next. -/
def Advances (l : Ledger τ) : Timed τ → Prop
  | .contextSwitch _ stop start =>
      l.dispatched ≤ stop ∧ stop < l.dispatched + 2 ^ 32 ∧ stop ≤ start
  | _ => True

/-- The account of the running task does not overflow. -/
def Roomy (s : Sched τ) : Timed τ → Prop
  | .contextSwitch _ stop _ => ∀ t, s.cTask = some t →
      accountOverflows (s.tasks t).execTimeUs
        (execTime (s.tasks t).execStartTimeUs (reading stop)) = false
  | _ => True

end Timed

/-- What an event adds to the ledger, while `cur` is running. -/
def Ledger.step (l : Ledger τ) (cur : Option τ) : Timed τ → Ledger τ
  | .contextSwitch _ stop start =>
      ⟨start, l.slices ++ cur.toList.map fun t => ⟨t, l.dispatched, stop⟩⟩
  | _ => l

/-- A run: the events, each with the state and the ledger it happens in. -/
inductive TimedRun (fuel : Nat) (s₀ : Sched τ) (l₀ : Ledger τ) :
    List (Sched τ × Ledger τ × Timed τ) → Sched τ → Ledger τ → Prop
  | nil : TimedRun fuel s₀ l₀ [] s₀ l₀
  | snoc {s s' : Sched τ} {l : Ledger τ} {h : List (Sched τ × Ledger τ × Timed τ)} {e : Timed τ}
      (hrun : TimedRun fuel s₀ l₀ h s l) (hstep : s.step fuel e.op = .ok s') :
      TimedRun fuel s₀ l₀ (h ++ [(s, l, e)]) s' (l.step s.cTask e)

/-- Every task has been charged for its slices. -/
def Charged (s : Sched τ) (l : Ledger τ) : Prop :=
  ∀ q, s.Ready q → ∀ t ∈ q, (s.tasks t).execTimeUs.toNat = l.total t

/-- The operations of a history. -/
def events (h : List (Sched τ × Ledger τ × Timed τ)) : List (Op τ) := h.map fun x => x.2.2.op

/-- Every switch of the history happened with every account right. -/
def AllCharged (h : List (Sched τ × Ledger τ × Timed τ)) : Prop := ∀ x ∈ h, Charged x.1 x.2.1

/-- The stamp of a task is the time it was dispatched. -/
def Stamped (c : τ) (s : Sched τ) (l : Ledger τ) : Prop :=
  (s.tasks c).execStartTimeUs = reading l.dispatched

/-! ### The ledger -/

section Ledger

variable {l : Ledger τ} {c t : τ} {cpu : CpuRegisters} {stop start : Nat}

theorem total_switch (l : Ledger τ) (c t : τ) (cpu : CpuRegisters) (stop start : Nat) :
    (l.step (some c) (.contextSwitch cpu stop start)).total t =
      l.total t + if t = c then stop - l.dispatched else 0 := by
  have hslices : (l.step (some c) (.contextSwitch cpu stop start)).slices =
      l.slices ++ [⟨c, l.dispatched, stop⟩] := rfl
  unfold Ledger.total
  rw [hslices, List.filter_append, List.map_append, List.sum_append]
  by_cases ht : t = c
  · subst ht
    rw [if_pos rfl, List.filter_cons_of_pos (by simp)]
    simp
  · rw [if_neg ht, List.filter_cons_of_neg (by simpa using Ne.symm ht)]
    simp

/-- A task that has never been left has no time. -/
theorem total_eq_zero (h : ∀ x ∈ l.slices, x.task ≠ t) : l.total t = 0 := by
  unfold Ledger.total
  rw [List.filter_eq_nil_iff.mpr fun x hx => by simpa using h x hx]
  rfl

omit [DecidableEq τ] in
/-- A creation adds nothing to the ledger. -/
theorem Ledger.step_create {e : Timed τ} (he : ¬ e.IsSwitch) (cur : Option τ) :
    l.step cur e = l := by
  cases e with
  | createTask _ _ => rfl
  | createTaskArgs _ _ _ => rfl
  | contextSwitch _ _ _ => exact absurd trivial he

/-- The slices of a run follow one another. -/
structure Ledger.Ordered (first : Nat) (l : Ledger τ) : Prop where
  disjoint : l.slices.Pairwise fun x y => x.stop ≤ y.start
  after : ∀ x ∈ l.slices, first ≤ x.start ∧ x.start ≤ x.stop ∧ x.stop ≤ l.dispatched
  first : first ≤ l.dispatched

omit [DecidableEq τ] in
theorem Ledger.Ordered.step {first : Nat} (h : l.Ordered first) {e : Timed τ} (ha : e.Advances l)
    (cur : Option τ) : (l.step cur e).Ordered first := by
  cases e with
  | createTask _ _ => exact h
  | createTaskArgs _ _ _ => exact h
  | contextSwitch cpu stop start =>
      obtain ⟨hle, _, hstart⟩ := ha
      have hnew : ∀ x ∈ cur.toList.map fun t => (⟨t, l.dispatched, stop⟩ : Slice τ),
          x.start = l.dispatched ∧ x.stop = stop := by
        intro x hx
        obtain ⟨t, _, rfl⟩ := List.mem_map.mp hx
        exact ⟨rfl, rfl⟩
      refine ⟨List.pairwise_append.mpr ⟨h.disjoint, ?_, fun x hx y hy => ?_⟩, fun x hx => ?_, ?_⟩
      · cases cur with
        | none => exact List.Pairwise.nil
        | some c => exact List.pairwise_singleton _ _
      · rw [(hnew y hy).1]
        exact (h.after x hx).2.2
      · show _ ∧ _ ∧ x.stop ≤ start
        rcases List.mem_append.mp hx with hx | hx
        · obtain ⟨hfirst, hlen, hstop⟩ := h.after x hx
          exact ⟨hfirst, hlen, by omega⟩
        · obtain ⟨hxs, hxe⟩ := hnew x hx
          have hfirst := h.first
          rw [hxs, hxe]
          omega
      · have hfirst := h.first
        show first ≤ start
        omega

end Ledger

/-! ### One event -/

/-- The accounts agree with the ledger, `c` is running, and only queued tasks have been. -/
structure Charging (q : List τ) (c : τ) (s : Sched τ) (l : Ledger τ) : Prop where
  ready : s.Ready q
  cur : s.cTask = some c
  queued : c ∈ q
  slices : ∀ x ∈ l.slices, x.task ∈ q
  charged : ∀ t ∈ q, (s.tasks t).execTimeUs.toNat = l.total t

variable {q : List τ} {c : τ} {s s' : Sched τ} {l : Ledger τ} {fuel : Nat}

omit [DecidableEq τ] in
theorem Ready.queue_unique {q' : List τ} (h : s.Ready q) (h' : s.Ready q') : q' = q :=
  Chain.unique h' h

theorem Charging.exact (h : Charging q c s l) : Charged s l := by
  intro q' hq' t ht
  rw [h.ready.queue_unique hq'] at ht
  exact h.charged t ht

/-- A creation, of a task that was not queued. -/
theorem Charging.create (h : Charging q c s l) {t : τ} (ht : t ∉ q) (hready : s'.Ready (q ++ [t]))
    (hcur : s'.cTask = s.cTask.or (q ++ [t]).head?)
    (htimes : ∀ u, times (s'.tasks u) = if u = t then (0, 0) else times (s.tasks u)) :
    Charging (q ++ [t]) c s' l ∧
      (s'.tasks c).execStartTimeUs = (s.tasks c).execStartTimeUs := by
  have hct : c ≠ t := fun hc => ht (hc ▸ h.queued)
  refine ⟨⟨hready, ?_, List.mem_append_left _ h.queued,
    fun x hx => List.mem_append_left _ (h.slices x hx), fun u hu => ?_⟩, ?_⟩
  · rw [hcur, h.cur]
    rfl
  · by_cases hut : u = t
    · have hzero : (s'.tasks u).execTimeUs = 0 := by
        have htu := htimes u
        rw [if_pos hut] at htu
        exact congrArg Prod.fst htu
      have hnever : ∀ x ∈ l.slices, x.task ≠ u := by
        intro x hx hc
        have hmem := h.slices x hx
        rw [hc, hut] at hmem
        exact ht hmem
      rw [hzero, total_eq_zero hnever]
      rfl
    · have hsame : (s'.tasks u).execTimeUs = (s.tasks u).execTimeUs := by
        have htu := htimes u
        rw [if_neg hut] at htu
        exact congrArg Prod.fst htu
      rw [hsame]
      rcases List.mem_append.mp hu with hu | hu
      · exact h.charged u hu
      · exact absurd (List.mem_singleton.mp hu) hut
  · have htc := htimes c
    rw [if_neg hct] at htc
    exact congrArg Prod.snd htc

/-- An event that is not a switch. -/
theorem Charging.step_create (h : Charging q c s l) {e : Timed τ} (he : ¬ e.IsSwitch)
    (hop : e.op.Allowed q) (hfuel : q.length ≤ fuel) (hstep : s.step fuel e.op = .ok s') :
    Charging (e.op.queue q) c s' (l.step s.cTask e) ∧
      (s'.tasks c).execStartTimeUs = (s.tasks c).execStartTimeUs := by
  cases e with
  | createTask t a =>
      obtain ⟨s'', hs'', hready, hcur, -⟩ := createTask_ready h.ready hop.1 hop.2 hfuel
      obtain rfl : s'' = s' := by
        have hstep' : (s.createTask fuel t a).map (·.2) = .ok s' := hstep
        rw [hs''] at hstep'
        exact Except.ok.inj hstep'
      exact h.create hop.1 hready hcur (createTask_times hs'')
  | createTaskArgs t a args =>
      obtain ⟨s'', hs'', hready, hcur, -⟩ := createTaskArgs_ready args h.ready hop.1 hop.2 hfuel
      obtain rfl : s'' = s' := by
        have hstep' : (s.createTaskArgs fuel t a args).map (·.2) = .ok s' := hstep
        rw [hs''] at hstep'
        exact Except.ok.inj hstep'
      exact h.create hop.1 hready hcur (createTaskArgs_times hs'')
  | contextSwitch _ _ _ => exact absurd trivial he

/-- The task a switch dispatches is queued. -/
theorem Charging.dispatched (h : Charging q c s l) (cpu : CpuRegisters) (usOut usIn : BitVec 32) :
    ∃ c' ∈ q, (s.contextSwitch cpu usOut usIn).cTask = some c' := by
  obtain ⟨-, -, hcur⟩ := contextSwitch_links s cpu usOut usIn
  rw [hcur, h.cur]
  have hnext : s.getNextTask (some c) = q[q.idxOf c + 1]? := Ready.next_of_mem h.ready h.queued
  rw [hnext, h.ready.head]
  cases hx : q[q.idxOf c + 1]? with
  | some x => exact ⟨x, List.mem_of_getElem? hx, rfl⟩
  | none =>
      obtain ⟨hd, rest, hq⟩ := List.exists_cons_of_ne_nil (List.ne_nil_of_mem h.queued)
      rw [hq]
      exact ⟨hd, List.mem_cons_self, rfl⟩

/-- A switch whose stamp is right charges the task that it leaves for its slice. -/
theorem Charging.switch (h : Charging q c s l) {cpu : CpuRegisters} {stop start : Nat}
    (hstamp : Stamped c s l)
    (ha : (Timed.contextSwitch cpu stop start).Advances l)
    (hroom : (Timed.contextSwitch cpu stop start).Roomy s) :
    ∃ c', Charging q c' (s.contextSwitch cpu (reading stop) (reading start))
        (l.step s.cTask (.contextSwitch cpu stop start)) ∧
      Stamped c' (s.contextSwitch cpu (reading stop) (reading start))
        (l.step s.cTask (.contextSwitch cpu stop start)) := by
  obtain ⟨hle, hlt, -⟩ := ha
  obtain ⟨hnext, hhead, -⟩ := contextSwitch_links s cpu (reading stop) (reading start)
  obtain ⟨c', hc', hcur⟩ := h.dispatched cpu (reading stop) (reading start)
  have hlen :
      (execTime (s.tasks c).execStartTimeUs (reading stop)).toNat = stop - l.dispatched := by
    unfold Stamped at hstamp
    rw [execTime_eq, hstamp]
    unfold reading
    rw [BitVec.toNat_sub, BitVec.toNat_ofNat, BitVec.toNat_ofNat]
    omega
  have hfits : (s.tasks c).execTimeUs.toNat +
      (execTime (s.tasks c).execStartTimeUs (reading stop)).toNat < 2 ^ 32 := by
    have hno := hroom c h.cur
    rw [← Bool.not_eq_true, accountOverflows_iff] at hno
    omega
  refine ⟨c', ⟨h.ready.of_eq hnext hhead, hcur, hc', fun x hx => ?_, fun t ht => ?_⟩,
    contextSwitch_stamp hcur⟩
  · rw [h.cur] at hx
    rcases List.mem_append.mp hx with hx | hx
    · exact h.slices x hx
    · obtain ⟨u, hu, rfl⟩ := List.mem_map.mp hx
      obtain rfl : u = c := by simpa using hu
      exact h.queued
  · rw [contextSwitch_execTimeUs h.cur, h.cur, total_switch]
    by_cases htc : t = c
    · subst htc
      rw [if_pos rfl, if_pos rfl, (charge_fits _ _ hfits).1, h.charged t ht, hlen]
    · rw [if_neg htc, if_neg htc, h.charged t ht, Nat.add_zero]

/-- The first switch, when the clock did not read zero at the start, charges the first
task for another time than it ran. -/
theorem Charging.first_switch (h : Charging q c s l) {cpu : CpuRegisters} {stop start : Nat}
    (hnone : l.slices = []) (hstamp : (s.tasks c).execStartTimeUs = 0)
    (ha : (Timed.contextSwitch cpu stop start).Advances l)
    (hclock : l.dispatched % 2 ^ 32 ≠ 0) :
    ¬ Charged (s.contextSwitch cpu (reading stop) (reading start))
      (l.step s.cTask (.contextSwitch cpu stop start)) := by
  obtain ⟨hle, hlt, -⟩ := ha
  obtain ⟨hnext, hhead, -⟩ := contextSwitch_links s cpu (reading stop) (reading start)
  have hempty : l.total c = 0 := total_eq_zero fun x hx => by simp [hnone] at hx
  have hzero : (s.tasks c).execTimeUs.toNat = 0 := (h.charged c h.queued).trans hempty
  intro hcharged
  have hc := hcharged q (h.ready.of_eq hnext hhead) c h.queued
  rw [contextSwitch_execTimeUs h.cur, h.cur, total_switch, if_pos rfl, if_pos rfl, hempty,
    execTime_eq, hstamp] at hc
  have hlen : (reading stop - 0).toNat = stop % 2 ^ 32 := by
    unfold reading
    rw [show (0 : BitVec 32) = 0#32 from rfl, BitVec.sub_zero, BitVec.toNat_ofNat]
  have hfits : (s.tasks c).execTimeUs.toNat + (reading stop - 0).toNat < 2 ^ 32 := by
    rw [hzero, hlen]
    omega
  rw [(charge_fits _ _ hfits).1, hzero, hlen] at hc
  omega

/-! ### Runs -/

/-- An event, when the stamp of the running task is right. -/
theorem Charging.step (h : Charging q c s l) (hstamp : Stamped c s l) {e : Timed τ}
    (ha : e.Advances l) (hroom : e.Roomy s) (hop : e.op.Allowed q) (hfuel : q.length ≤ fuel)
    (hstep : s.step fuel e.op = .ok s') :
    ∃ c', Charging (e.op.queue q) c' s' (l.step s.cTask e) ∧
      Stamped c' s' (l.step s.cTask e) := by
  by_cases he : e.IsSwitch
  · cases e with
    | createTask _ _ => exact he.elim
    | createTaskArgs _ _ _ => exact he.elim
    | contextSwitch cpu stop start =>
        rw [← (Except.ok.inj hstep :
          s.contextSwitch cpu (reading stop) (reading start) = s')]
        exact h.switch hstamp ha hroom
  · obtain ⟨hnext, hkept⟩ := h.step_create he hop hfuel hstep
    refine ⟨c, hnext, ?_⟩
    unfold Stamped
    rw [hkept, Ledger.step_create he]
    exact hstamp

section Run

variable {s₀ : Sched τ} {l₀ : Ledger τ} {q₀ : List τ} {c₀ : τ}
  {h : List (Sched τ × Ledger τ × Timed τ)}

omit [DecidableEq τ] in
theorem events_snoc (h : List (Sched τ × Ledger τ × Timed τ)) (s : Sched τ) (l : Ledger τ)
    (e : Timed τ) : events (h ++ [(s, l, e)]) = events h ++ [e.op] :=
  List.map_append

theorem length_queueAfter_events (q₀ : List τ) (h : List (Sched τ × Ledger τ × Timed τ)) :
    (queueAfter q₀ (events h)).length ≤ q₀.length + h.length := by
  have hle := length_queueAfter_le q₀ (events h)
  unfold events at hle ⊢
  rw [List.length_map] at hle
  exact hle

theorem AllCharged.snoc (hall : AllCharged h) (hcharged : Charged s l) (e : Timed τ) :
    AllCharged (h ++ [(s, l, e)]) := by
  intro x hx
  rcases List.mem_append.mp hx with hx | hx
  · exact hall x hx
  · rw [List.mem_singleton.mp hx]
    exact hcharged

/-- The slices of a run follow one another. -/
theorem TimedRun.ordered (hrun : TimedRun fuel s₀ l₀ h s l) {first : Nat}
    (h₀ : l₀.Ordered first) (hadv : ∀ x ∈ h, x.2.2.Advances x.2.1) : l.Ordered first := by
  induction hrun with
  | nil => exact h₀
  | snoc _ _ ih =>
      refine (ih fun x hx => hadv x (List.mem_append_left _ hx)).step ?_ _
      exact hadv _ (List.mem_append_right _ List.mem_cons_self)

/-- From a right stamp on, every account stays right. -/
theorem TimedRun.exact (hrun : TimedRun fuel s₀ l₀ h s l) (h₀ : Charging q₀ c₀ s₀ l₀)
    (hstamp : Stamped c₀ s₀ l₀) (hadv : ∀ x ∈ h, x.2.2.Advances x.2.1)
    (hroom : ∀ x ∈ h, x.2.2.Roomy x.1) (hops : Allowed q₀ (events h))
    (hfuel : q₀.length + h.length ≤ fuel) :
    AllCharged h ∧ ∃ c, Charging (queueAfter q₀ (events h)) c s l ∧ Stamped c s l := by
  induction hrun with
  | nil => exact ⟨fun _ hx => absurd hx List.not_mem_nil, c₀, h₀, hstamp⟩
  | @snoc s s' l h e hrun hstep ih =>
      rw [events_snoc] at hops ⊢
      rw [List.length_append, List.length_singleton] at hfuel
      obtain ⟨hops, hop, -⟩ := allowed_append.mp hops
      obtain ⟨hall, c, hcharging, hstamped⟩ := ih
        (fun x hx => hadv x (List.mem_append_left _ hx))
        (fun x hx => hroom x (List.mem_append_left _ hx)) hops (by omega)
      have hlast : (s, l, e) ∈ h ++ [(s, l, e)] := List.mem_append_right _ List.mem_cons_self
      have hlen := length_queueAfter_events q₀ h
      refine ⟨hall.snoc hcharging.exact e, ?_⟩
      rw [queueAfter_append]
      exact hcharging.step hstamped (hadv _ hlast) (hroom _ hlast) hop (by omega) hstep

/-- Before the first switch nobody has been charged. -/
theorem TimedRun.waiting (hrun : TimedRun fuel s₀ l₀ h s l) (h₀ : Charging q₀ c₀ s₀ l₀)
    (hops : Allowed q₀ (events h)) (hfuel : q₀.length + h.length ≤ fuel)
    (hno : ∀ x ∈ h, ¬ x.2.2.IsSwitch) :
    AllCharged h ∧ Charging (queueAfter q₀ (events h)) c₀ s l ∧ l = l₀ ∧
      (s.tasks c₀).execStartTimeUs = (s₀.tasks c₀).execStartTimeUs := by
  induction hrun with
  | nil => exact ⟨fun _ hx => absurd hx List.not_mem_nil, h₀, rfl, rfl⟩
  | @snoc s s' l h e hrun hstep ih =>
      rw [events_snoc] at hops ⊢
      rw [List.length_append, List.length_singleton] at hfuel
      obtain ⟨hops, hop, -⟩ := allowed_append.mp hops
      obtain ⟨hall, hcharging, hl, hkept⟩ := ih hops (by omega)
        (fun x hx => hno x (List.mem_append_left _ hx))
      have hlen := length_queueAfter_events q₀ h
      have he : ¬ e.IsSwitch := hno (s, l, e) (List.mem_append_right _ List.mem_cons_self)
      obtain ⟨hnext, hsame⟩ := hcharging.step_create he hop (by omega) hstep
      refine ⟨hall.snoc hcharging.exact e, ?_, ?_, hsame.trans hkept⟩
      · rw [queueAfter_append]
        exact hnext
      · rw [Ledger.step_create he, hl]

/-- With a stamp of zero at another time, the first switch makes an account wrong. -/
theorem TimedRun.inexact (hrun : TimedRun fuel s₀ l₀ h s l) (h₀ : Charging q₀ c₀ s₀ l₀)
    (hnone : l₀.slices = []) (hstamp : (s₀.tasks c₀).execStartTimeUs = 0)
    (hclock : l₀.dispatched % 2 ^ 32 ≠ 0) (hadv : ∀ x ∈ h, x.2.2.Advances x.2.1)
    (hops : Allowed q₀ (events h)) (hfuel : q₀.length + h.length ≤ fuel)
    (hsome : ∃ x ∈ h, x.2.2.IsSwitch) : ¬ (AllCharged h ∧ Charged s l) := by
  induction hrun with
  | nil => simp at hsome
  | @snoc s s' l h e hrun hstep ih =>
      rw [events_snoc] at hops
      rw [List.length_append, List.length_singleton] at hfuel
      obtain ⟨hops, hop, -⟩ := allowed_append.mp hops
      by_cases hearlier : ∃ x ∈ h, x.2.2.IsSwitch
      · rintro ⟨hall, -⟩
        refine ih (fun x hx => hadv x (List.mem_append_left _ hx)) hops (by omega) hearlier
          ⟨fun x hx => hall x (List.mem_append_left _ hx), ?_⟩
        exact hall (s, l, e) (List.mem_append_right _ List.mem_cons_self)
      · have hno : ∀ x ∈ h, ¬ x.2.2.IsSwitch := fun x hx hs => hearlier ⟨x, hx, hs⟩
        obtain ⟨-, hcharging, hl, hkept⟩ := hrun.waiting h₀ hops (by omega) hno
        obtain ⟨x, hx, hswitch⟩ := hsome
        have hxe : x = (s, l, e) := by
          rcases List.mem_append.mp hx with hx | hx
          · exact absurd hswitch (hno x hx)
          · exact List.mem_singleton.mp hx
        have hadv' := hadv x hx
        rw [hxe] at hswitch hadv'
        cases e with
        | createTask _ _ => exact hswitch.elim
        | createTaskArgs _ _ _ => exact hswitch.elim
        | contextSwitch cpu stop start =>
            rintro ⟨-, hcharged⟩
            rw [← (Except.ok.inj hstep :
              s.contextSwitch cpu (reading stop) (reading start) = s')] at hcharged
            refine hcharging.first_switch ?_ (hkept.trans hstamp) hadv' ?_ hcharged
            · rw [hl]
              exact hnone
            · rw [hl]
              exact hclock

end Run

/-! ### From the creation of the first task -/

/-- Tasks have been created, and nothing else has happened. -/
structure Unstarted (q : List τ) (s : Sched τ) : Prop where
  ready : s.Ready q
  cur : s.cTask = q.head?
  zero : ∀ t ∈ q, times (s.tasks t) = (0, 0)

theorem Unstarted.create (h : Unstarted q s) {t : τ} (hready : s'.Ready (q ++ [t]))
    (hcur : s'.cTask = s.cTask.or (q ++ [t]).head?)
    (htimes : ∀ u, times (s'.tasks u) = if u = t then (0, 0) else times (s.tasks u)) :
    Unstarted (q ++ [t]) s' := by
  refine ⟨hready, ?_, fun u hu => ?_⟩
  · rw [hcur, h.cur]
    cases q <;> rfl
  · rw [htimes]
    by_cases hut : u = t
    · rw [if_pos hut]
    · rw [if_neg hut]
      rcases List.mem_append.mp hu with hu | hu
      · exact h.zero u hu
      · exact absurd (List.mem_singleton.mp hu) hut

theorem Unstarted.step (h : Unstarted q s) {op : Op τ} (hcreate : op.IsCreate)
    (hop : op.Allowed q) (hfuel : q.length ≤ fuel) :
    ∃ s', s.step fuel op = .ok s' ∧ Unstarted (op.queue q) s' := by
  cases op with
  | createTask t a =>
      obtain ⟨s', hs', hready, hcur, -⟩ := createTask_ready h.ready hop.1 hop.2 hfuel
      exact ⟨s', by simp [Sched.step, hs', Except.map],
        h.create hready hcur (createTask_times hs')⟩
  | createTaskArgs t a args =>
      obtain ⟨s', hs', hready, hcur, -⟩ := createTaskArgs_ready args h.ready hop.1 hop.2 hfuel
      exact ⟨s', by simp [Sched.step, hs', Except.map],
        h.create hready hcur (createTaskArgs_times hs')⟩
  | removeTask _ => exact hcreate.elim
  | startScheduler => exact hcreate.elim
  | contextSwitch _ _ _ => exact hcreate.elim

theorem Unstarted.run (h : Unstarted q s) {pre : List (Op τ)} (hcreate : ∀ op ∈ pre, op.IsCreate)
    (hops : Allowed q pre) (hfuel : q.length + pre.length ≤ fuel) :
    ∃ s', s.run fuel (pre ++ [.startScheduler]) = .ok s' ∧ Unstarted (queueAfter q pre) s' := by
  induction pre generalizing s q with
  | nil => exact ⟨s, rfl, h⟩
  | cons op rest ih =>
      rw [List.length_cons] at hfuel
      obtain ⟨s₁, hs₁, h₁⟩ := h.step (hcreate op List.mem_cons_self) hops.1
        (by omega : q.length ≤ fuel)
      have hlen := length_queue_le q op
      obtain ⟨s₂, hs₂, h₂⟩ := ih h₁ (fun op hop => hcreate op (List.mem_cons_of_mem _ hop))
        hops.2 (by omega)
      refine ⟨s₂, ?_, h₂⟩
      rw [List.cons_append]
      unfold Sched.run
      rw [hs₁]
      exact hs₂

omit [DecidableEq τ] in
theorem unstarted_empty (tasks : τ → TaskData τ) (mem : Word → Byte) (sreg : Byte) :
    Unstarted [] (empty tasks mem sreg) :=
  ⟨empty_ready tasks mem sreg, rfl, fun _ ht => absurd ht List.not_mem_nil⟩

theorem length_queueAfter_creates (q : List τ) {pre : List (Op τ)}
    (hcreate : ∀ op ∈ pre, op.IsCreate) : (queueAfter q pre).length = q.length + pre.length := by
  induction pre generalizing q with
  | nil => rfl
  | cons op rest ih =>
      have hop : (op.queue q).length = q.length + 1 := by
        have hc := hcreate op List.mem_cons_self
        cases op with
        | createTask _ _ => exact List.length_append
        | createTaskArgs _ _ _ => exact List.length_append
        | removeTask _ => exact hc.elim
        | startScheduler => exact hc.elim
        | contextSwitch _ _ _ => exact hc.elim
      show (queueAfter (op.queue q) rest).length = _
      rw [ih _ fun op hop => hcreate op (List.mem_cons_of_mem _ hop), hop, List.length_cons]
      omega

/-- `kernel_start` dispatches the first task and leaves the stamp as it is. -/
theorem Unstarted.charging (h : Unstarted q s) (hne : q ≠ []) (first : Nat) :
    ∃ c, Charging q c s ⟨first, []⟩ ∧ (s.tasks c).execStartTimeUs = 0 := by
  obtain ⟨c, rest, hq⟩ := List.exists_cons_of_ne_nil hne
  have hmem : c ∈ q := by
    rw [hq]
    exact List.mem_cons_self
  refine ⟨c, ⟨h.ready, ?_, hmem, fun _ hx => absurd hx List.not_mem_nil, fun t ht => ?_⟩,
    congrArg Prod.snd (h.zero c hmem)⟩
  · rw [h.cur, hq]
    rfl
  · have hzero : (s.tasks t).execTimeUs = 0 := congrArg Prod.fst (h.zero t ht)
    rw [hzero]
    rfl

omit [DecidableEq τ] in
theorem ordered_nil (first : Nat) : Ledger.Ordered (τ := τ) first ⟨first, []⟩ :=
  ⟨List.Pairwise.nil, fun _ hx => absurd hx List.not_mem_nil, Nat.le_refl first⟩

/--
**When the accounts are right.**  Take any run that creates some tasks, starts the
scheduler at time `first`, and goes on with switches and creations.  The slices of the
run follow one another.  Every task has been charged for exactly its slices, in every
state of the run, just when the clock read zero at `first` or no switch has happened
yet.
-/
theorem charged_iff (tasks : τ → TaskData τ) (mem : Word → Byte) (sreg : Byte)
    {pre : List (Op τ)} (hcreate : ∀ op ∈ pre, op.IsCreate) (hne : pre ≠ []) {fuel first : Nat}
    {s₀ s : Sched τ} {l : Ledger τ} {h : List (Sched τ × Ledger τ × Timed τ)}
    (hstart : (empty tasks mem sreg).run fuel (pre ++ [.startScheduler]) = .ok s₀)
    (hrun : TimedRun fuel s₀ ⟨first, []⟩ h s l) (hops : Allowed [] (pre ++ events h))
    (hadv : ∀ x ∈ h, x.2.2.Advances x.2.1) (hroom : ∀ x ∈ h, x.2.2.Roomy x.1)
    (hfuel : pre.length + h.length ≤ fuel) :
    l.Ordered first ∧
      (AllCharged h ∧ Charged s l ↔ first % 2 ^ 32 = 0 ∨ ∀ x ∈ h, ¬ x.2.2.IsSwitch) := by
  obtain ⟨hpre, hops⟩ := allowed_append.mp hops
  have hlen := length_queueAfter_creates [] hcreate
  rw [List.length_nil, Nat.zero_add] at hlen
  obtain ⟨s₁, hs₁, hun⟩ := (unstarted_empty tasks mem sreg).run hcreate hpre
    (by rw [List.length_nil]; omega : ([] : List τ).length + pre.length ≤ fuel)
  obtain rfl : s₁ = s₀ := Except.ok.inj (hs₁.symm.trans hstart)
  have hqueue : queueAfter [] pre ≠ [] := by
    intro hc
    rw [hc, List.length_nil] at hlen
    exact hne (List.length_eq_zero_iff.mp hlen.symm)
  obtain ⟨c₀, h₀, hstamp⟩ := hun.charging hqueue first
  have hfuel' : (queueAfter [] pre).length + h.length ≤ fuel := by
    rw [hlen]
    exact hfuel
  refine ⟨hrun.ordered (ordered_nil first) hadv, ?_⟩
  by_cases hclock : first % 2 ^ 32 = 0
  · refine iff_of_true ?_ (Or.inl hclock)
    have hstamped : Stamped c₀ s₁ ⟨first, []⟩ := by
      unfold Stamped reading
      rw [hstamp]
      refine BitVec.eq_of_toNat_eq ?_
      rw [BitVec.toNat_ofNat]
      exact hclock.symm
    obtain ⟨hall, c, hcharging, -⟩ := hrun.exact h₀ hstamped hadv hroom hops hfuel'
    exact ⟨hall, hcharging.exact⟩
  · by_cases hno : ∀ x ∈ h, ¬ x.2.2.IsSwitch
    · refine iff_of_true ?_ (Or.inr hno)
      obtain ⟨hall, hcharging, -, -⟩ := hrun.waiting h₀ hops hfuel' hno
      exact ⟨hall, hcharging.exact⟩
    · refine iff_of_false ?_ (fun hc => hc.elim hclock hno)
      push Not at hno
      exact hrun.inexact h₀ rfl hstamp hclock hadv hops hfuel' hno

/-- Two tasks, created before the start. -/
def twoCreations : List (Op (Fin 2)) :=
  [.createTask 0 ⟨0x200, 64, [0x61], 1, 1, 0x100⟩, .createTask 1 ⟨0x240, 64, [0x62], 1, 1, 0x120⟩]

/-- The first task runs for a millisecond. -/
def switchAfter (first : Nat) : Timed (Fin 2) :=
  .contextSwitch ⟨fun _ => 0, 0x23D, 0x80⟩ (first + 1000) (first + 1004)

theorem twoCreations_started : ∃ s₀,
    (empty (fun _ => TaskData.zero) (fun _ => 0) 0x80).run 3 (twoCreations ++ [.startScheduler]) =
      .ok s₀ ∧ Unstarted [0, 1] s₀ :=
  (unstarted_empty (fun _ => TaskData.zero) (fun _ => 0) 0x80).run
    (by simp [twoCreations, Op.IsCreate]) (by decide) (by decide)

theorem switchAfter_advances (first : Nat) :
    (switchAfter first).Advances (⟨first, []⟩ : Ledger (Fin 2)) :=
  ⟨Nat.le_add_right first 1000, Nat.add_lt_add_left (by omega) first,
    Nat.add_le_add_left (by omega) first⟩

theorem switchAfter_allowed (first : Nat) :
    Allowed [] (twoCreations ++ [(switchAfter first).op]) := by
  simp [twoCreations, Allowed, Op.Allowed, Op.queue, switchAfter, Timed.op,
    confTaskNameMaxLength]

theorem switchAfter_roomy {s₀ : Sched (Fin 2)} (h : Unstarted [0, 1] s₀) (first : Nat) :
    (switchAfter first).Roomy s₀ := by
  intro t ht
  rw [h.cur] at ht
  obtain rfl : 0 = t := Option.some.inj ht
  have hzero : (s₀.tasks 0).execTimeUs = 0 := congrArg Prod.fst (h.zero 0 List.mem_cons_self)
  have hlt := (execTime (s₀.tasks 0).execStartTimeUs (reading (first + 1000))).isLt
  rw [← Bool.not_eq_true, accountOverflows_iff, hzero]
  show ¬ 2 ^ 32 ≤ 0 + _
  omega

theorem charged_iff_atWrap : ∃ s₀ s l h,
    (empty (fun _ => TaskData.zero) (fun _ => 0) 0x80).run 3 (twoCreations ++ [.startScheduler]) =
      .ok s₀ ∧ TimedRun 3 s₀ ⟨2 ^ 32, []⟩ h s l ∧ h.length = 1 ∧ l.Ordered (2 ^ 32) ∧
      (AllCharged h ∧ Charged s l ↔ 2 ^ 32 % 2 ^ 32 = 0 ∨ ∀ x ∈ h, ¬ x.2.2.IsSwitch) := by
  obtain ⟨s₀, hs₀, hun⟩ := twoCreations_started
  have hrun : TimedRun 3 s₀ ⟨2 ^ 32, []⟩ [(s₀, ⟨2 ^ 32, []⟩, switchAfter (2 ^ 32))] _ _ :=
    .snoc .nil rfl
  refine ⟨s₀, _, _, _, hs₀, hrun, rfl, ?_⟩
  refine charged_iff (fun _ => TaskData.zero) (fun _ => 0) 0x80
    (by simp [twoCreations, Op.IsCreate]) (by simp [twoCreations]) hs₀ hrun
    (switchAfter_allowed (2 ^ 32)) ?_ ?_ (Nat.le_refl 3)
  · intro x hx
    rw [List.mem_singleton.mp hx]
    exact switchAfter_advances (2 ^ 32)
  · intro x hx
    rw [List.mem_singleton.mp hx]
    exact switchAfter_roomy hun (2 ^ 32)

/-- A start five milliseconds after the clock: the first task is charged for six. -/
theorem first_slice_from_zero : ∃ s₀ s l h,
    (empty (fun _ => TaskData.zero) (fun _ => 0) 0x80).run 3 (twoCreations ++ [.startScheduler]) =
      .ok s₀ ∧ TimedRun 3 s₀ ⟨5000, []⟩ h s l ∧ Allowed [] (twoCreations ++ events h) ∧
      (∀ x ∈ h, x.2.2.Advances x.2.1) ∧ (∀ x ∈ h, x.2.2.Roomy x.1) ∧
      (s.tasks 0).execTimeUs = 6000 ∧ l.total 0 = 1000 ∧ ¬ Charged s l := by
  obtain ⟨s₀, hs₀, hun⟩ := twoCreations_started
  have hrun : TimedRun 3 s₀ ⟨5000, []⟩ [(s₀, ⟨5000, []⟩, switchAfter 5000)] _ _ := .snoc .nil rfl
  obtain ⟨hnext, hhead, -⟩ := contextSwitch_links s₀ ⟨fun _ => 0, 0x23D, 0x80⟩ (reading 6000)
    (reading 6004)
  have hcharge := contextSwitch_execTimeUs hun.cur ⟨fun _ => 0, 0x23D, 0x80⟩ (reading 6000)
    (reading 6004) 0
  have hzero : (s₀.tasks 0).execTimeUs = 0 ∧ (s₀.tasks 0).execStartTimeUs = 0 :=
    ⟨congrArg Prod.fst (hun.zero 0 List.mem_cons_self),
      congrArg Prod.snd (hun.zero 0 List.mem_cons_self)⟩
  have hus : ((s₀.contextSwitch ⟨fun _ => 0, 0x23D, 0x80⟩ (reading 6000)
      (reading 6004)).tasks 0).execTimeUs = 6000 := by
    rw [hcharge, if_pos rfl]
    unfold charge
    dsimp only
    rw [hzero.1, hzero.2]
    decide
  have htotal : (Ledger.step ⟨5000, []⟩ (some 0) (switchAfter 5000)).total 0 = 1000 := by decide
  have hcur : s₀.cTask = some 0 := hun.cur
  rw [hcur] at hrun
  refine ⟨s₀, _, _, _, hs₀, hrun, switchAfter_allowed 5000, ?_, ?_, hus, htotal, fun hc => ?_⟩
  · intro x hx
    rw [List.mem_singleton.mp hx]
    exact switchAfter_advances 5000
  · intro x hx
    rw [List.mem_singleton.mp hx]
    exact switchAfter_roomy hun 5000
  · have hwrong := hc [0, 1] (hun.ready.of_eq hnext hhead) 0 List.mem_cons_self
    rw [htotal] at hwrong
    have hsix : 6000 = 1000 := (congrArg BitVec.toNat hus).symm.trans hwrong
    exact absurd hsix (by decide)

end Sched

end AtmegaScheduler
