/-
The runner of the mutex test.

`test_mutex_violation` lets the simulator run until a pin changes, counts the pins that are
high, and goes on until the time is over.  A callback that comes with the flag of another
pin still set is not lost: the flag makes the next call of `avr_run` the last one before
the count.  So the pins are counted after every call of `avr_run` that reports any of
them, and between the counts nothing changes.

simavr is a parameter: what `avr_run` makes of its state, and the callbacks it makes
meanwhile.
-/
import AtmegaScheduler.Tools.MutexTask

namespace AtmegaScheduler

open Avr

/-- What the runner uses of simavr: `avr_run`, the fields `cycle` and `frequency`, and the
pins of port B whose callbacks a call of `avr_run` makes, with `irq->value`. -/
structure Simavr (A : Type) where
  run : A → A
  cycle : A → BitVec 64
  frequency : A → BitVec 32
  irqs : A → List (Fin 8 × BitVec 32)

/-- `struct pin_state_change` -/
structure PinStateChange where
  pinNumber : Nat
  value : Nat
  stateChanged : Bool
  changeCount : Nat
  deriving DecidableEq, Repr

/-- `{0}` -/
def PinStateChange.zero : PinStateChange := ⟨0, 0, false, 0⟩

/-- What the callback of a pin does. -/
def stateChangeCb (pin : Nat) (irqValue : BitVec 32) (ptr : PinStateChange) : PinStateChange where
  pinNumber := pin
  value := if irqValue = 0 then 1 else 0
  stateChanged := true
  changeCount := ptr.changeCount + 1

/-- `pb4_state_change_cb` -/
def pb4StateChangeCb : BitVec 32 → PinStateChange → PinStateChange := stateChangeCb 4

/-- `pb3_state_change_cb` -/
def pb3StateChangeCb : BitVec 32 → PinStateChange → PinStateChange := stateChangeCb 3

/-- An entry of `pb_change`, with the pin it is registered for. -/
structure Watched where
  pin : Fin 8
  cb : BitVec 32 → PinStateChange → PinStateChange
  ptr : PinStateChange

/-- One callback. -/
def Watched.notify (w : Watched) (irq : Fin 8 × BitVec 32) : Watched :=
  if w.pin = irq.1 then { w with ptr := w.cb irq.2 w.ptr } else w

/-- The simulator and the array `pb_change`. -/
structure PinRunner (A : Type) where
  avr : A
  pbChange : List Watched

section Functions

variable {A : Type} (S : Simavr A)

/-- `avr_run(avr)`, with the callbacks it makes. -/
def avrRun (r : PinRunner A) : PinRunner A where
  avr := S.run r.avr
  pbChange := (S.irqs r.avr).foldl (fun ws irq => ws.map (·.notify irq)) r.pbChange

/-- The inner loop of `run_avr_until_pin_change`: the first entry that has changed, with its
flag cleared. -/
def acknowledge : List Watched → Option (List Watched)
  | [] => none
  | w :: ws =>
      if w.ptr.stateChanged then some ({ w with ptr := { w.ptr with stateChanged := false } } :: ws)
      else (acknowledge ws).map (w :: ·)

/-- The loop of `run_avr_until_pin_change`. -/
def untilPinChangeLoop (timeoutCycles : BitVec 64) :
    Nat → PinRunner A → Option (Bool × PinRunner A)
  | 0, _ => none
  | fuel + 1, r =>
      if S.cycle r.avr < timeoutCycles then
        match acknowledge (avrRun S r).pbChange with
        | some pb => some (false, { avrRun S r with pbChange := pb })
        | none => untilPinChangeLoop timeoutCycles fuel (avrRun S r)
      else some (true, r)

/-- `avr->cycle + (avr->frequency / 1000) * ms` -/
def Simavr.deadline (a : A) (ms : BitVec 64) : BitVec 64 :=
  S.cycle a + (S.frequency a / 1000).setWidth 64 * ms

/-- `run_avr_until_pin_change` -/
def runAvrUntilPinChange (fuel : Nat) (r : PinRunner A) (timeoutMs : BitVec 64) :
    Option (Bool × PinRunner A) :=
  untilPinChangeLoop S (S.deadline r.avr timeoutMs) fuel r

/-- How many pins are high. -/
def highCount (ws : List Watched) : Nat := ws.countP fun w => w.ptr.value ≠ 0

/-- Where `test_mutex_violation` returns. -/
inductive PinVerdict
  /-- "Mutex violation high count: %d" -/
  | violation (count : Nat)
  /-- "Did not change pin output in timeout" -/
  | unchanged
  /-- "PIN %d: Did not acquire mutex even once" -/
  | neverAcquired (pin : Nat)
  | passed
  deriving DecidableEq, Repr

/-- What it returns there. -/
def PinVerdict.ret (v : PinVerdict) : Bool := v ≠ .passed

/-- The last loop of `test_mutex_violation`. -/
def allAcquired : List Watched → PinVerdict
  | [] => .passed
  | w :: ws => if w.ptr.changeCount = 0 then .neverAcquired w.ptr.pinNumber else allAcquired ws

/-- The main loop of `test_mutex_violation`. -/
def mutexLoop (testTimeoutCycles pinChangeTimeoutMs : BitVec 64) (limit : Nat) :
    Nat → PinRunner A → Option (PinVerdict × PinRunner A)
  | 0, _ => none
  | fuel + 1, r =>
      if S.cycle r.avr < testTimeoutCycles then
        match runAvrUntilPinChange S limit r pinChangeTimeoutMs with
        | none => none
        | some (true, r) => some (.unchanged, r)
        | some (false, r) =>
            if 1 < highCount r.pbChange then some (.violation (highCount r.pbChange), r)
            else mutexLoop testTimeoutCycles pinChangeTimeoutMs limit fuel r
      else some (allAcquired r.pbChange, r)

/-- `test_mutex_violation` -/
def testMutexViolation (limit fuel : Nat) (r : PinRunner A)
    (testTimeMs pinChangeTimeoutMs : BitVec 64) : Option (PinVerdict × PinRunner A) :=
  mutexLoop S (S.deadline r.avr testTimeMs) pinChangeTimeoutMs limit fuel r

end Functions

/-- `pb_state` as `main` registers it. -/
def pbState : List Watched :=
  [⟨pb4, pb4StateChangeCb, .zero⟩, ⟨pb3, pb3StateChangeCb, .zero⟩]

/-! ### What the simulator has reported -/

/-- Every entry is registered with the callback of its own pin. -/
def Watched.Registered (w : Watched) : Prop := w.cb = stateChangeCb w.pin

/-- What the last of these callbacks makes of the value of a pin. -/
def level (pin : Fin 8) (irqs : List (Fin 8 × BitVec 32)) : Nat :=
  irqs.foldl (fun v irq => if pin = irq.1 then (if irq.2 = 0 then 1 else 0) else v) 0

/-- The callbacks of the first `k` calls of `avr_run`. -/
def Simavr.reports {A : Type} (S : Simavr A) (a : A) (k : Nat) : List (Fin 8 × BitVec 32) :=
  (List.range k).flatMap fun j => S.irqs (S.run^[j] a)

/-- How many of the pins are high after these callbacks. -/
def highPins (pins : List (Fin 8)) (irqs : List (Fin 8 × BitVec 32)) : Nat :=
  pins.countP fun pin => level pin irqs ≠ 0

/-- What the entry says of its pin is what has been reported. -/
structure Watched.Follows (w : Watched) (irqs : List (Fin 8 × BitVec 32)) : Prop where
  registered : w.Registered
  value : w.ptr.value = level w.pin irqs
  count : w.ptr.changeCount = irqs.countP fun irq => w.pin = irq.1
  unnamed : w.ptr.changeCount = 0 → w.ptr.pinNumber = 0

section Reported

variable {w : Watched} {ws ws' : List Watched} {irq : Fin 8 × BitVec 32}
  {irqs irqs' : List (Fin 8 × BitVec 32)} {pin : Fin 8}

theorem level_snoc : level pin (irqs ++ [irq]) =
    if pin = irq.1 then (if irq.2 = 0 then 1 else 0) else level pin irqs := by
  unfold level
  rw [List.foldl_append]
  rfl

theorem notify_pin (w : Watched) (irq : Fin 8 × BitVec 32) : (w.notify irq).pin = w.pin := by
  unfold Watched.notify
  split <;> rfl

/-- One callback. -/
theorem Watched.Follows.notify (h : w.Follows irqs) : (w.notify irq).Follows (irqs ++ [irq]) := by
  obtain ⟨hreg, hvalue, hcount, hunnamed⟩ := h
  unfold Watched.notify
  by_cases hpin : w.pin = irq.1
  · rw [if_pos hpin]
    refine ⟨hreg, ?_, ?_, fun hzero => ?_⟩
    · show (w.cb irq.2 w.ptr).value = level w.pin _
      rw [level_snoc, if_pos hpin, hreg]
      rfl
    · show (w.cb irq.2 w.ptr).changeCount = _
      rw [hreg, List.countP_append, List.countP_singleton, if_pos (decide_eq_true hpin), ← hcount]
      rfl
    · have hcb : (w.cb irq.2 w.ptr).changeCount = 0 := hzero
      rw [hreg] at hcb
      exact absurd hcb (Nat.succ_ne_zero _)
  · rw [if_neg hpin]
    refine ⟨hreg, ?_, ?_, hunnamed⟩
    · rw [level_snoc, if_neg hpin, hvalue]
    · rw [List.countP_append, List.countP_singleton, if_neg (by simpa using hpin), hcount]
      rfl

/-- A callback that leaves no flag set has changed nothing. -/
theorem notify_quiet (hreg : w.Registered) (hflag : (w.notify irq).ptr.stateChanged = false) :
    w.notify irq = w := by
  unfold Watched.notify at hflag ⊢
  by_cases hpin : w.pin = irq.1
  · rw [if_pos hpin, hreg] at hflag
    exact absurd hflag (by simp [stateChangeCb])
  · rw [if_neg hpin]

theorem acknowledge_none (h : acknowledge ws = none) : ∀ w ∈ ws, w.ptr.stateChanged = false := by
  induction ws with
  | nil => exact fun _ hw => absurd hw List.not_mem_nil
  | cons w ws ih =>
      unfold acknowledge at h
      by_cases hflag : w.ptr.stateChanged = true
      · rw [if_pos hflag] at h
        exact absurd h (by simp)
      · rw [if_neg hflag] at h
        intro w' hw'
        rcases List.mem_cons.mp hw' with rfl | hw'
        · exact Bool.not_eq_true _ ▸ hflag
        · exact ih (Option.map_eq_none_iff.mp h) w' hw'

end Reported

/-! ### When `run_avr_until_pin_change` returns -/

section Returns

variable {A : Type} {S : Simavr A} {w : Watched} {ws : List Watched} {irq : Fin 8 × BitVec 32}
  {cs : List (Fin 8 × BitVec 32)} {r : PinRunner A} {timeoutCycles : BitVec 64}

/-- A flag is set by a callback of the pin, and by nothing else; only `acknowledge` clears
one. -/
theorem notify_flag (hreg : w.Registered) : (w.notify irq).ptr.stateChanged = true ↔
    w.ptr.stateChanged = true ∨ w.pin = irq.1 := by
  unfold Watched.notify
  by_cases hpin : w.pin = irq.1
  · rw [if_pos hpin, hreg]
    exact iff_of_true rfl (Or.inr hpin)
  · rw [if_neg hpin, or_iff_left hpin]

theorem notify_registered (hreg : w.Registered) (irq : Fin 8 × BitVec 32) :
    (w.notify irq).Registered := by
  unfold Watched.notify
  split <;> exact hreg

/-- The flags after the callbacks of one `avr_run`. -/
theorem notifyAll_flag (hreg : ∀ w ∈ ws, w.Registered) :
    (∃ w ∈ cs.foldl (fun ws irq => ws.map (·.notify irq)) ws, w.ptr.stateChanged = true) ↔
      (∃ w ∈ ws, w.ptr.stateChanged = true) ∨ ∃ irq ∈ cs, ∃ w ∈ ws, w.pin = irq.1 := by
  induction cs generalizing ws with
  | nil => simp
  | cons c cs ih =>
      have hreg' : ∀ w ∈ ws.map (·.notify c), w.Registered := by
        intro w hw
        obtain ⟨w₀, hw₀, rfl⟩ := List.mem_map.mp hw
        exact notify_registered (hreg w₀ hw₀) c
      have hfirst : (∃ w ∈ ws.map (·.notify c), w.ptr.stateChanged = true) ↔
          (∃ w ∈ ws, w.ptr.stateChanged = true) ∨ ∃ w ∈ ws, w.pin = c.1 := by
        simp only [List.mem_map, exists_exists_and_eq_and]
        rw [← exists_or]
        refine exists_congr fun w => ?_
        rw [← and_or_left]
        exact and_congr_right fun hw => notify_flag (hreg w hw)
      have hrest : (∃ irq ∈ cs, ∃ w ∈ ws.map (·.notify c), w.pin = irq.1) ↔
          ∃ irq ∈ cs, ∃ w ∈ ws, w.pin = irq.1 := by
        simp only [List.mem_map, exists_exists_and_eq_and, notify_pin]
      rw [List.foldl_cons, ih hreg', hfirst, hrest, or_assoc]
      simp only [List.mem_cons, exists_eq_or_imp]

theorem acknowledge_isSome :
    (acknowledge ws).isSome = true ↔ ∃ w ∈ ws, w.ptr.stateChanged = true := by
  induction ws with
  | nil => simp [acknowledge]
  | cons w ws ih =>
      unfold acknowledge
      simp only [List.mem_cons, exists_eq_or_imp]
      rw [← ih]
      by_cases hflag : w.ptr.stateChanged = true
      · rw [if_pos hflag]
        exact iff_of_true rfl (Or.inl hflag)
      · rw [if_neg hflag, Option.isSome_map, or_iff_right hflag]

/-- A watched pin changes in this call of `avr_run`. -/
def Simavr.Notifies (S : Simavr A) (a : A) (ws : List Watched) : Prop :=
  ∃ irq ∈ S.irqs a, ∃ w ∈ ws, w.pin = irq.1

theorem avrRun_registered (hreg : ∀ w ∈ r.pbChange, w.Registered) :
    ∀ w ∈ (avrRun S r).pbChange, w.Registered := by
  unfold avrRun
  dsimp only
  generalize S.irqs r.avr = cs
  generalize r.pbChange = ws at hreg ⊢
  induction cs generalizing ws with
  | nil => exact hreg
  | cons c cs ih =>
      refine ih (ws.map (·.notify c)) fun w hw => ?_
      obtain ⟨w₀, hw₀, rfl⟩ := List.mem_map.mp hw
      exact notify_registered (hreg w₀ hw₀) c

theorem avrRun_pins (r : PinRunner A) :
    (avrRun S r).pbChange.map Watched.pin = r.pbChange.map Watched.pin := by
  unfold avrRun
  dsimp only
  generalize S.irqs r.avr = cs
  generalize r.pbChange = ws
  induction cs generalizing ws with
  | nil => rfl
  | cons c cs ih =>
      rw [List.foldl_cons, ih, List.map_map]
      exact List.map_congr_left fun w _ => notify_pin w c

theorem notifies_avrRun (a : A) : S.Notifies a (avrRun S r).pbChange ↔ S.Notifies a r.pbChange := by
  have hpins : ∀ pin,
      (∃ w ∈ (avrRun S r).pbChange, w.pin = pin) ↔ ∃ w ∈ r.pbChange, w.pin = pin := by
    intro pin
    rw [← List.mem_map, avrRun_pins, List.mem_map]
  unfold Simavr.Notifies
  simp only [hpins]

/-- A flag after `avr_run`: one that was set before, or a callback. -/
theorem avrRun_flag (hreg : ∀ w ∈ r.pbChange, w.Registered) :
    (acknowledge (avrRun S r).pbChange).isSome = true ↔
      (∃ w ∈ r.pbChange, w.ptr.stateChanged = true) ∨ S.Notifies r.avr r.pbChange :=
  acknowledge_isSome.trans (notifyAll_flag hreg)

/-- With a flag set the loop returns at once. -/
theorem returns_flagged (hreg : ∀ w ∈ r.pbChange, w.Registered)
    (hflag : (∃ w ∈ r.pbChange, w.ptr.stateChanged = true) ∨ S.Notifies r.avr r.pbChange) :
    ∃ res, untilPinChangeLoop S timeoutCycles 1 r = some res := by
  obtain ⟨pb, hpb⟩ := Option.isSome_iff_exists.mp ((avrRun_flag hreg).mpr hflag)
  unfold untilPinChangeLoop
  by_cases htime : S.cycle r.avr < timeoutCycles
  · rw [if_pos htime, hpb]
    exact ⟨_, rfl⟩
  · rw [if_neg htime]
    exact ⟨_, rfl⟩

/-- The loop returns if it is to return after `k` more calls of `avr_run`. -/
theorem returns_after (k : Nat) : ∀ {r : PinRunner A}, (∀ w ∈ r.pbChange, w.Registered) →
    (¬ S.cycle (S.run^[k] r.avr) < timeoutCycles ∨ S.Notifies (S.run^[k] r.avr) r.pbChange) →
    ∃ fuel res, untilPinChangeLoop S timeoutCycles fuel r = some res := by
  induction k with
  | zero =>
      rintro r hreg (htime | hirq)
      · refine ⟨1, (true, r), ?_⟩
        unfold untilPinChangeLoop
        exact if_neg htime
      · exact ⟨1, returns_flagged hreg (Or.inr hirq)⟩
  | succ k ih =>
      intro r hreg hk
      obtain ⟨fuel, res, hres⟩ := ih (r := avrRun S r) (avrRun_registered hreg) (by
        rw [notifies_avrRun]
        exact hk)
      refine ⟨fuel + 1, ?_⟩
      unfold untilPinChangeLoop
      by_cases htime : S.cycle r.avr < timeoutCycles
      · rw [if_pos htime]
        cases acknowledge (avrRun S r).pbChange with
        | some pb => exact ⟨_, rfl⟩
        | none => exact ⟨res, hres⟩
      · rw [if_neg htime]
        exact ⟨_, rfl⟩

/-- The loop returns for no other reason. -/
theorem returns_why {fuel : Nat} {res : Bool × PinRunner A}
    (hreg : ∀ w ∈ r.pbChange, w.Registered)
    (hres : untilPinChangeLoop S timeoutCycles fuel r = some res) :
    (∃ w ∈ r.pbChange, w.ptr.stateChanged = true) ∨
      ∃ k, ¬ S.cycle (S.run^[k] r.avr) < timeoutCycles ∨
        S.Notifies (S.run^[k] r.avr) r.pbChange := by
  induction fuel generalizing r with
  | zero => exact absurd hres (by simp [untilPinChangeLoop])
  | succ fuel ih =>
      unfold untilPinChangeLoop at hres
      by_cases htime : S.cycle r.avr < timeoutCycles
      · rw [if_pos htime] at hres
        cases hack : acknowledge (avrRun S r).pbChange with
        | some pb =>
            refine ((avrRun_flag hreg).mp (by rw [hack]; rfl)).imp_right fun hirq => ?_
            exact ⟨0, Or.inr hirq⟩
        | none =>
            rw [hack] at hres
            rcases ih (avrRun_registered hreg) hres with hflag | ⟨k, hk⟩
            · have hsome := acknowledge_isSome.mpr hflag
              rw [hack] at hsome
              exact absurd hsome Bool.false_ne_true
            · rw [notifies_avrRun] at hk
              exact Or.inr ⟨k + 1, hk⟩
      · exact Or.inr ⟨0, Or.inl htime⟩

/-- **When `run_avr_until_pin_change` returns.**  It does not look at `avr->state`: it
returns just when a flag is set already, or the cycles get to the time limit, or a
callback of a watched pin is made.  A simulator that has stopped before keeps it for
ever. -/
theorem until_pin_change_returns_iff (hreg : ∀ w ∈ r.pbChange, w.Registered) :
    (∃ fuel res, untilPinChangeLoop S timeoutCycles fuel r = some res) ↔
      (∃ w ∈ r.pbChange, w.ptr.stateChanged = true) ∨
        ∃ k, ¬ S.cycle (S.run^[k] r.avr) < timeoutCycles ∨ S.Notifies (S.run^[k] r.avr) r.pbChange := by
  constructor
  · rintro ⟨fuel, res, hres⟩
    exact returns_why hreg hres
  · rintro (hflag | ⟨k, hk⟩)
    · exact ⟨1, returns_flagged hreg (Or.inl hflag)⟩
    · exact returns_after k hreg hk

/-- The entries `main` registers. -/
theorem pbState_registered : ∀ w ∈ pbState, w.Registered := by
  intro w hw
  rcases List.mem_cons.mp hw with rfl | hw
  · rfl
  · rw [List.mem_singleton.mp hw]
    rfl

/-- A simulator that has stopped at its first cycle. -/
def stoppedSim : Simavr Unit := ⟨id, fun _ => 1, fun _ => 16000000, fun _ => []⟩

theorem until_pin_change_returns_iff_stopped :
    ¬ ∃ fuel res, untilPinChangeLoop stoppedSim 16000 fuel ⟨(), pbState⟩ = some res := by
  rw [until_pin_change_returns_iff pbState_registered]
  rintro (⟨w, hw, hflag⟩ | ⟨k, htime | ⟨irq, hirq, _⟩⟩)
  · rcases List.mem_cons.mp hw with rfl | hw
    · exact absurd hflag (by decide)
    · rw [List.mem_singleton.mp hw] at hflag
      exact absurd hflag (by decide)
  · exact htime (show (1 : BitVec 64) < 16000 by decide)
  · exact absurd hirq List.not_mem_nil

end Returns

/-! ### What the runner sees -/

section Seen

variable {A : Type} {S : Simavr A} {a : A} {ws ws' : List Watched} {pins : List (Fin 8)}
  {irqs cs : List (Fin 8 × BitVec 32)} {r r' : PinRunner A} {k : Nat}

/-- The array is about these pins, and says of them what has been reported. -/
structure Seen (pins : List (Fin 8)) (irqs : List (Fin 8 × BitVec 32)) (ws : List Watched) :
    Prop where
  pins : ws.map Watched.pin = pins
  follows : ∀ w ∈ ws, w.Follows irqs

theorem highCount_eq (h : Seen pins irqs ws) : highCount ws = highPins pins irqs := by
  unfold highCount highPins
  rw [← h.pins, List.countP_map]
  refine List.countP_congr fun w hw => ?_
  rw [(h.follows w hw).value]
  rfl

/-- One callback. -/
theorem Seen.notify (h : Seen pins irqs ws) (irq : Fin 8 × BitVec 32) :
    Seen pins (irqs ++ [irq]) (ws.map (·.notify irq)) := by
  refine ⟨?_, fun w hw => ?_⟩
  · rw [List.map_map, ← h.pins]
    exact List.map_congr_left fun w _ => notify_pin w irq
  · obtain ⟨w₀, hw₀, rfl⟩ := List.mem_map.mp hw
    exact (h.follows w₀ hw₀).notify

/-- All callbacks of one `avr_run`. -/
theorem Seen.notifyAll (h : Seen pins irqs ws) :
    Seen pins (irqs ++ cs) (cs.foldl (fun ws irq => ws.map (·.notify irq)) ws) := by
  induction cs generalizing irqs ws with
  | nil =>
      rw [List.append_nil]
      exact h
  | cons c cs ih =>
      rw [List.append_cons]
      exact ih (h.notify c)

/-- Callbacks that leave no flag set have changed nothing. -/
theorem notifyAll_quiet (h : Seen pins irqs ws)
    (hflag : ∀ w ∈ cs.foldl (fun ws irq => ws.map (·.notify irq)) ws, w.ptr.stateChanged = false) :
    cs.foldl (fun ws irq => ws.map (·.notify irq)) ws = ws := by
  induction cs generalizing irqs ws with
  | nil => rfl
  | cons c cs ih =>
      have hrest := ih (h.notify c) hflag
      rw [List.foldl_cons] at hflag ⊢
      rw [hrest] at hflag ⊢
      refine (List.map_congr_left fun w hw => ?_).trans (List.map_id ws)
      exact notify_quiet (h.follows w hw).registered (hflag _ (List.mem_map_of_mem hw))

/-- Clearing a flag does not change what an entry says. -/
theorem acknowledge_seen (hack : acknowledge ws = some ws') (h : Seen pins irqs ws) :
    Seen pins irqs ws' := by
  induction ws generalizing ws' pins with
  | nil => exact absurd hack (by simp [acknowledge])
  | cons w ws ih =>
      obtain ⟨hpins, hfollows⟩ := h
      have hw := hfollows w List.mem_cons_self
      unfold acknowledge at hack
      by_cases hflag : w.ptr.stateChanged = true
      · rw [if_pos hflag] at hack
        rw [← Option.some.inj hack]
        refine ⟨hpins, fun w' hw' => ?_⟩
        rcases List.mem_cons.mp hw' with rfl | hw'
        · exact ⟨hw.registered, hw.value, hw.count, hw.unnamed⟩
        · exact hfollows w' (List.mem_cons_of_mem _ hw')
      · rw [if_neg hflag] at hack
        obtain ⟨ws₁, hws₁, rfl⟩ := Option.map_eq_some_iff.mp hack
        obtain ⟨hpins₁, hfollows₁⟩ :=
          ih hws₁ ⟨rfl, fun w' hw' => hfollows w' (List.mem_cons_of_mem _ hw')⟩
        refine ⟨?_, fun w' hw' => ?_⟩
        · rw [List.map_cons, hpins₁, ← hpins, List.map_cons]
        · rcases List.mem_cons.mp hw' with rfl | hw'
          · exact hw
          · exact hfollows₁ w' hw'

/-- The runner after `k` calls of `avr_run`. -/
structure RunnerAt (S : Simavr A) (a : A) (pins : List (Fin 8)) (k : Nat) (r : PinRunner A) :
    Prop where
  avr : r.avr = S.run^[k] a
  seen : Seen pins (S.reports a k) r.pbChange

theorem reports_succ (S : Simavr A) (a : A) (k : Nat) :
    S.reports a (k + 1) = S.reports a k ++ S.irqs (S.run^[k] a) := by
  unfold Simavr.reports
  rw [List.range_succ, List.flatMap_append, List.flatMap_singleton]

theorem RunnerAt.run (h : RunnerAt S a pins k r) : RunnerAt S a pins (k + 1) (avrRun S r) := by
  obtain ⟨havr, hseen⟩ := h
  refine ⟨?_, ?_⟩
  · show S.run r.avr = _
    rw [havr, Function.iterate_succ_apply']
  · rw [reports_succ, ← havr]
    exact hseen.notifyAll

/-- A call of `avr_run` after which no flag is set has left the levels as they were. -/
theorem RunnerAt.quiet (h : RunnerAt S a pins k r)
    (hack : acknowledge (avrRun S r).pbChange = none) :
    highPins pins (S.reports a (k + 1)) = highPins pins (S.reports a k) := by
  rw [← highCount_eq h.run.seen, ← highCount_eq h.seen]
  exact congrArg highCount (notifyAll_quiet h.seen (acknowledge_none hack))

/-- **`run_avr_until_pin_change`.**  Up to where it returns, no more pins are high than
where it began; and if it has timed out, then also there. -/
theorem untilPinChange_seen {timeoutCycles : BitVec 64} {b : Bool} (fuel : Nat) :
    ∀ {r : PinRunner A} {k : Nat}, RunnerAt S a pins k r →
      untilPinChangeLoop S timeoutCycles fuel r = some (b, r') →
      ∃ k', k ≤ k' ∧ RunnerAt S a pins k' r' ∧
        (∀ j, k ≤ j → j < k' → highPins pins (S.reports a j) = highPins pins (S.reports a k)) ∧
        (b = true → highPins pins (S.reports a k') = highPins pins (S.reports a k)) := by
  induction fuel with
  | zero => exact fun _ hres => absurd hres (by simp [untilPinChangeLoop])
  | succ fuel ih =>
      intro r k hat hres
      unfold untilPinChangeLoop at hres
      by_cases htime : S.cycle r.avr < timeoutCycles
      · rw [if_pos htime] at hres
        cases hack : acknowledge (avrRun S r).pbChange with
        | some pb =>
            rw [hack] at hres
            obtain ⟨rfl, rfl⟩ := Prod.mk.inj (Option.some.inj hres)
            refine ⟨k + 1, Nat.le_succ k, ⟨hat.run.avr, acknowledge_seen hack hat.run.seen⟩,
              fun j hj hlt => ?_, fun hc => absurd hc Bool.false_ne_true⟩
            rw [Nat.le_antisymm (Nat.le_of_lt_succ hlt) hj]
        | none =>
            rw [hack] at hres
            obtain ⟨k', hk', hat', hbetween, hend⟩ := ih hat.run hres
            rw [hat.quiet hack] at hbetween hend
            refine ⟨k', by omega, hat', fun j hj hlt => ?_, hend⟩
            rcases Nat.eq_or_lt_of_le hj with rfl | hj
            · rfl
            · exact hbetween j hj hlt
      · rw [if_neg htime] at hres
        obtain ⟨rfl, rfl⟩ := Prod.mk.inj (Option.some.inj hres)
        refine ⟨k, Nat.le_refl k, hat, fun j hj hlt => absurd hlt (by omega), fun _ => rfl⟩

/-- What the last loop finds. -/
theorem allAcquired_seen (h : Seen pins irqs ws) :
    (∀ n, allAcquired ws ≠ .violation n) ∧
      (allAcquired ws = .passed → ∀ pin ∈ pins, ∃ irq ∈ irqs, irq.1 = pin) ∧
      ∀ n, allAcquired ws = .neverAcquired n → n = 0 := by
  induction ws generalizing pins with
  | nil =>
      rw [← h.pins]
      exact ⟨fun _ => by simp [allAcquired], fun _ _ hpin => absurd hpin List.not_mem_nil,
        fun _ hc => absurd hc (by simp [allAcquired])⟩
  | cons w ws ih =>
      obtain ⟨hpins, hfollows⟩ := h
      have hw := hfollows w List.mem_cons_self
      obtain ⟨hviolation, hpassed, hnever⟩ :=
        ih ⟨rfl, fun w' hw' => hfollows w' (List.mem_cons_of_mem _ hw')⟩
      unfold allAcquired
      by_cases hcount : w.ptr.changeCount = 0
      · rw [if_pos hcount]
        refine ⟨by simp, by simp, fun n hn => ?_⟩
        rw [← PinVerdict.neverAcquired.inj hn]
        exact hw.unnamed hcount
      · rw [if_neg hcount]
        refine ⟨hviolation, fun hp pin hpin => ?_, hnever⟩
        rw [← hpins] at hpin
        rcases List.mem_cons.mp hpin with rfl | hpin
        · rw [hw.count] at hcount
          obtain ⟨irq, hirq, heq⟩ := List.countP_pos_iff.mp (Nat.pos_of_ne_zero hcount)
          exact ⟨irq, hirq, (of_decide_eq_true heq).symm⟩
        · exact hpassed hp pin hpin

/-- What a verdict given after `k` calls of `avr_run` says, when the counts began after `i`. -/
structure PinVerdict.Tells (S : Simavr A) (a : A) (pins : List (Fin 8))
    (testTimeoutCycles : BitVec 64) (v : PinVerdict) (i k : Nat) : Prop where
  before : ∀ j, i ≤ j → j < k → highPins pins (S.reports a j) ≤ 1
  violation : (∃ n, v = .violation n) ↔ 1 < highPins pins (S.reports a k)
  passed : v = .passed → ¬ S.cycle (S.run^[k] a) < testTimeoutCycles ∧
    ∀ pin ∈ pins, ∃ irq ∈ S.reports a k, irq.1 = pin
  neverAcquired : ∀ n, v = .neverAcquired n → n = 0

/-- **The main loop of `test_mutex_violation`.** -/
theorem mutexLoop_tells {testTimeoutCycles pinChangeTimeoutMs : BitVec 64} {limit : Nat}
    {v : PinVerdict} (fuel : Nat) : ∀ {r : PinRunner A} {i : Nat}, RunnerAt S a pins i r →
      highPins pins (S.reports a i) ≤ 1 →
      mutexLoop S testTimeoutCycles pinChangeTimeoutMs limit fuel r = some (v, r') →
      ∃ k, i ≤ k ∧ RunnerAt S a pins k r' ∧ v.Tells S a pins testTimeoutCycles i k := by
  induction fuel with
  | zero => exact fun _ _ hres => absurd hres (by simp [mutexLoop])
  | succ fuel ih =>
      intro r i hat hlow hres
      unfold mutexLoop at hres
      by_cases htime : S.cycle r.avr < testTimeoutCycles
      · rw [if_pos htime] at hres
        cases huntil : runAvrUntilPinChange S limit r pinChangeTimeoutMs with
        | none =>
            rw [huntil] at hres
            exact absurd hres (by simp)
        | some res =>
            obtain ⟨b, r₁⟩ := res
            obtain ⟨k₁, hk₁, hat₁, hbetween, hend⟩ := untilPinChange_seen limit hat huntil
            have hbefore : ∀ j, i ≤ j → j < k₁ → highPins pins (S.reports a j) ≤ 1 := by
              intro j hj hlt
              rw [hbetween j hj hlt]
              exact hlow
            rw [huntil] at hres
            cases b with
            | true =>
                obtain ⟨rfl, rfl⟩ := Prod.mk.inj (Option.some.inj hres)
                refine ⟨k₁, hk₁, hat₁, hbefore, ?_, by simp, by simp⟩
                rw [hend rfl]
                exact iff_of_false (by simp) (Nat.not_lt.mpr hlow)
            | false =>
                dsimp only at hres
                rw [highCount_eq hat₁.seen] at hres
                by_cases hhigh : 1 < highPins pins (S.reports a k₁)
                · rw [if_pos hhigh] at hres
                  obtain ⟨rfl, rfl⟩ := Prod.mk.inj (Option.some.inj hres)
                  exact ⟨k₁, hk₁, hat₁, hbefore, iff_of_true ⟨_, rfl⟩ hhigh, by simp, by simp⟩
                · rw [if_neg hhigh] at hres
                  obtain ⟨k, hk, hat', htells⟩ := ih hat₁ (Nat.not_lt.mp hhigh) hres
                  refine ⟨k, by omega, hat', ⟨fun j hj hlt => ?_, htells.violation,
                    htells.passed, htells.neverAcquired⟩⟩
                  rcases Nat.lt_or_ge j k₁ with hjk | hjk
                  · exact hbefore j hj hjk
                  · exact htells.before j hjk hlt
      · rw [if_neg htime] at hres
        obtain ⟨rfl, rfl⟩ := Prod.mk.inj (Option.some.inj hres)
        obtain ⟨hviolation, hpassed, hnever⟩ := allAcquired_seen hat.seen
        refine ⟨i, Nat.le_refl i, hat,
          fun j hj hlt => absurd hlt (by omega), ?_, fun hp => ?_, hnever⟩
        · exact iff_of_false (fun ⟨n, hn⟩ => hviolation n hn) (Nat.not_lt.mpr hlow)
        · refine ⟨?_, hpassed hp⟩
          rw [← hat.avr]
          exact htime

/-- The pins `main` watches. -/
def pbPins : List (Fin 8) := [pb4, pb3]

theorem pbState_at (S : Simavr A) (a : A) : RunnerAt S a pbPins 0 ⟨a, pbState⟩ := by
  refine ⟨rfl, rfl, fun w hw => ?_⟩
  rcases List.mem_cons.mp hw with rfl | hw
  · exact ⟨rfl, rfl, rfl, fun _ => rfl⟩
  · rw [List.mem_singleton.mp hw]
    exact ⟨rfl, rfl, rfl, fun _ => rfl⟩

/-- **The verdict of `test_mutex_violation`.**  When it returns after `k` calls of
`avr_run`, at no call before were both pins high, and it is "Mutex violation" just when
they are now.  When it passes, the time was over and both pins have changed.  A pin that
never has is reported as pin 0. -/
theorem mutex_violation_verdict (S : Simavr A) (a : A) (limit fuel : Nat)
    (testTimeMs pinChangeTimeoutMs : BitVec 64) {v : PinVerdict}
    (hres : testMutexViolation S limit fuel ⟨a, pbState⟩ testTimeMs pinChangeTimeoutMs =
      some (v, r')) :
    ∃ k, r'.avr = S.run^[k] a ∧ (∀ j < k, highPins pbPins (S.reports a j) ≤ 1) ∧
      ((∃ n, v = .violation n) ↔ 1 < highPins pbPins (S.reports a k)) ∧
      (v = .passed → ¬ S.cycle r'.avr < S.deadline a testTimeMs ∧
        ∀ pin ∈ pbPins, ∃ irq ∈ S.reports a k, irq.1 = pin) ∧
      ∀ n, v = .neverAcquired n → n = 0 := by
  have hlow : highPins pbPins (S.reports a 0) ≤ 1 := by
    show highPins pbPins [] ≤ 1
    decide
  obtain ⟨k, _, hat, htells⟩ := mutexLoop_tells fuel (pbState_at S a) hlow hres
  refine ⟨k, hat.avr, fun j hj => htells.before j (Nat.zero_le j) hj, htells.violation,
    fun hp => ?_, htells.neverAcquired⟩
  rw [hat.avr]
  exact htells.passed hp

/-- A simulator on which `PB3` rises while `PB4` is high. -/
def bothSim : Simavr Nat where
  run := (· + 1)
  cycle n := BitVec.ofNat 64 (5000 * n)
  frequency _ := 16000000
  irqs n := if n = 0 then [(pb4, 0)] else if n = 1 then [(pb3, 0)] else []

theorem mutex_violation_verdict_both : ∃ r' k,
    testMutexViolation bothSim 10 10 ⟨0, pbState⟩ 1 1 = some (.violation 2, r') ∧
      1 < highPins pbPins (bothSim.reports 0 k) := by
  have hverdict : (testMutexViolation bothSim 10 10 ⟨0, pbState⟩ 1 1).map Prod.fst =
      some (.violation 2) := by decide
  obtain ⟨⟨v, r'⟩, hres, rfl⟩ := Option.map_eq_some_iff.mp hverdict
  obtain ⟨k, -, -, hiff, -⟩ := mutex_violation_verdict bothSim 0 10 10 1 1 hres
  exact ⟨r', k, hres, hiff.mp ⟨2, rfl⟩⟩

end Seen

/-! ### The test of the mutex -/

section Shown

variable {A : Type} {S : Simavr A} {a : A} {port : Nat → Byte} {pin : Fin 8}

/-- The simulator shows a port: every change of a pin makes a callback, and at a callback
`irq->value` is the inverse of the level the pin has got. -/
structure Simavr.Shows (S : Simavr A) (a : A) (port : Nat → Byte) : Prop where
  changes : ∀ k (pin : Fin 8), (port (k + 1)).getLsbD pin ≠ (port k).getLsbD pin →
    ∃ irq ∈ S.irqs (S.run^[k] a), irq.1 = pin
  inverse : ∀ k, ∀ irq ∈ S.irqs (S.run^[k] a),
    irq.2 = 0 ↔ (port (k + 1)).getLsbD irq.1 = true

/-- Callbacks that agree on a level leave the pin there, if any of them is its own. -/
theorem level_append {irqs cs : List (Fin 8 × BitVec 32)} {b : Bool}
    (hagree : ∀ irq ∈ cs, irq.1 = pin → (irq.2 = 0 ↔ b = true)) :
    ((∃ irq ∈ cs, irq.1 = pin) → (level pin (irqs ++ cs) ≠ 0 ↔ b = true)) ∧
      ((¬ ∃ irq ∈ cs, irq.1 = pin) → level pin (irqs ++ cs) = level pin irqs) := by
  induction cs using List.reverseRecOn with
  | nil =>
      rw [List.append_nil]
      exact ⟨fun ⟨_, hc, _⟩ => absurd hc List.not_mem_nil, fun _ => rfl⟩
  | append_singleton cs c ih =>
      obtain ⟨hsome, hnone⟩ := ih fun irq hirq => hagree irq (List.mem_append_left _ hirq)
      have hlast := hagree c (List.mem_append_right _ (List.mem_singleton_self c))
      rw [← List.append_assoc, level_snoc]
      by_cases hc : pin = c.1
      · rw [if_pos hc]
        refine ⟨fun _ => ?_, fun hno => ?_⟩
        · rw [← hlast hc.symm]
          by_cases hzero : c.2 = 0
          · rw [if_pos hzero]
            exact iff_of_true (by decide) hzero
          · rw [if_neg hzero]
            exact iff_of_false (by decide) hzero
        · exact absurd ⟨c, List.mem_append_right _ (List.mem_singleton_self c), hc.symm⟩ hno
      · rw [if_neg hc]
        have hmem : (∃ irq ∈ cs ++ [c], irq.1 = pin) ↔ ∃ irq ∈ cs, irq.1 = pin := by
          refine ⟨fun ⟨irq, hirq, heq⟩ => ?_, fun ⟨irq, hirq, heq⟩ => ?_⟩
          · rcases List.mem_append.mp hirq with hirq | hirq
            · exact ⟨irq, hirq, heq⟩
            · rw [List.mem_singleton.mp hirq] at heq
              exact absurd heq.symm hc
          · exact ⟨irq, List.mem_append_left _ hirq, heq⟩
        rw [hmem]
        exact ⟨hsome, hnone⟩

/-- **What has been reported** of a pin is its level. -/
theorem level_shown (hshows : S.Shows a port) (hlow : (port 0).getLsbD pin = false) (k : Nat) :
    level pin (S.reports a k) ≠ 0 ↔ (port k).getLsbD pin = true := by
  induction k with
  | zero =>
      rw [hlow]
      exact iff_of_false (fun hc => hc rfl) (by decide)
  | succ k ih =>
      rw [reports_succ]
      have hagree : ∀ irq ∈ S.irqs (S.run^[k] a), irq.1 = pin →
          (irq.2 = 0 ↔ (port (k + 1)).getLsbD pin = true) := by
        rintro irq hirq rfl
        exact hshows.inverse k irq hirq
      obtain ⟨hsome, hnone⟩ := level_append hagree
      by_cases hirq : ∃ irq ∈ S.irqs (S.run^[k] a), irq.1 = pin
      · exact hsome hirq
      · rw [hnone hirq, ih, not_ne_iff.mp (mt (hshows.changes k pin) hirq)]

theorem highPins_le {irqs : List (Fin 8 × BitVec 32)}
    (h : level pb4 irqs ≠ 0 → level pb3 irqs ≠ 0 → False) : highPins pbPins irqs ≤ 1 := by
  unfold highPins pbPins
  rw [List.countP_cons, List.countP_singleton]
  by_cases h₄ : level pb4 irqs ≠ 0
  · have h₃ : ¬ level pb3 irqs ≠ 0 := h h₄
    rw [if_neg (by simpa using h₃)]
    split <;> omega
  · rw [if_neg (show ¬ decide (level pb4 irqs ≠ 0) = true by simpa using h₄)]
    split <;> omega

/-- **The test of the mutex reports no violation.**  When the simulator shows the port of
runs of `mutex.cpp`, whatever the switches between its tasks, `test_mutex_violation` does
not end with "Mutex violation". -/
theorem mutex_test_no_violation {first : Fin 2} {portb : Byte}
    (hlow : ∀ t, portb.getLsbD (mutexTasks t).pin = false) (hfirst : port 0 = portb)
    (hport : ∀ k, ∃ h s, Sys.Run (pinTasks mutexTasks).client (Sys.pinStart first portb) h s ∧
      s.mem = port k)
    (hshows : S.Shows a port) {limit fuel : Nat} {testTimeMs pinChangeTimeoutMs : BitVec 64}
    {v : PinVerdict} {r' : PinRunner A}
    (hres : testMutexViolation S limit fuel ⟨a, pbState⟩ testTimeMs pinChangeTimeoutMs =
      some (v, r')) (n : Nat) : v ≠ .violation n := by
  rintro rfl
  have hstart : highPins pbPins (S.reports a 0) ≤ 1 := by
    show highPins pbPins [] ≤ 1
    decide
  obtain ⟨k, _, _, htells⟩ := mutexLoop_tells fuel (pbState_at S a) hstart hres
  refine absurd (htells.violation.mp ⟨n, rfl⟩) (Nat.not_lt.mpr (highPins_le fun h₄ h₃ => ?_))
  obtain ⟨h, s, hrun, hmem⟩ := hport k
  have hpin : ∀ t u, (mutexTasks t).pin = (mutexTasks u).pin → t = u := by decide
  have hpin₀ : (mutexTasks 0).pin = pb4 := rfl
  have hpin₁ : (mutexTasks 1).pin = pb3 := rfl
  rw [← hpin₀] at h₄
  rw [← hpin₁] at h₃
  have hhigh₀ := (level_shown hshows (hfirst ▸ hlow 0) k).mp h₄
  have hhigh₁ := (level_shown hshows (hfirst ▸ hlow 1) k).mp h₃
  rw [← hmem] at hhigh₀ hhigh₁
  exact absurd (Sys.pin_unique hpin first hlow hrun hhigh₀ hhigh₁) (by decide)

/-- The port while `task_1` and then `task_2` have their first turns. -/
def turnsPort (k : Nat) : Byte := if k = 1 then 0x10 else if k = 3 then 0x08 else 0

/-- A simulator that shows it. -/
def turnsSim : Simavr Nat where
  run := (· + 1)
  cycle n := BitVec.ofNat 64 (5000 * n)
  frequency _ := 16000000
  irqs n :=
    if n = 0 then [(pb4, 0)] else if n = 1 then [(pb4, 1)]
    else if n = 2 then [(pb3, 0)] else if n = 3 then [(pb3, 1)] else []

theorem turnsSim_iterate (k : Nat) : turnsSim.run^[k] 0 = k := by
  induction k with
  | zero => rfl
  | succ k ih =>
      rw [Function.iterate_succ_apply', ih]
      rfl

theorem turnsSim_shows : turnsSim.Shows 0 turnsPort := by
  refine ⟨fun k pin hne => ?_, fun k irq hirq => ?_⟩
  · rw [turnsSim_iterate]
    match k with
    | 0 => revert pin; decide
    | 1 => revert pin; decide
    | 2 => revert pin; decide
    | 3 => revert pin; decide
    | k + 4 => exact absurd rfl hne
  · rw [turnsSim_iterate] at hirq
    match k with
    | 0 => rw [List.mem_singleton.mp hirq]; decide
    | 1 => rw [List.mem_singleton.mp hirq]; decide
    | 2 => rw [List.mem_singleton.mp hirq]; decide
    | 3 => rw [List.mem_singleton.mp hirq]; decide
    | k + 4 => exact absurd hirq List.not_mem_nil

/-- A turn of one task from the start makes its pin high. -/
theorem turnsPort_reached (k : Nat) :
    ∃ h s, Sys.Run (pinTasks mutexTasks).client (Sys.pinStart 0 0) h s ∧ s.mem = turnsPort k := by
  have hturn : ∀ t : Fin 2, ((Sys.play (pinTasks mutexTasks) [(t, 10)]
      ([], Sys.pinStart 0 0)).map fun c => c.2.mem) = some ((mutexTasks t).mask) := by
    decide +kernel
  have hreach : ∀ t : Fin 2, ∃ h s,
      Sys.Run (pinTasks mutexTasks).client (Sys.pinStart 0 0) h s ∧ s.mem = (mutexTasks t).mask := by
    intro t
    obtain ⟨⟨h, s⟩, hc, hmem⟩ := Option.map_eq_some_iff.mp (hturn t)
    exact ⟨h, s, Sys.play_run (.nil _) hc, hmem⟩
  unfold turnsPort
  by_cases hone : k = 1
  · rw [if_pos hone]
    exact hreach 0
  · rw [if_neg hone]
    by_cases hthree : k = 3
    · rw [if_pos hthree]
      exact hreach 1
    · rw [if_neg hthree]
      exact ⟨[], _, .nil _, rfl⟩

theorem mutex_test_no_violation_turns : ∃ v r',
    testMutexViolation turnsSim 10 10 ⟨0, pbState⟩ 1 1 = some (v, r') ∧ v = .passed ∧
      ∀ n, v ≠ .violation n := by
  have hverdict : (testMutexViolation turnsSim 10 10 ⟨0, pbState⟩ 1 1).map Prod.fst =
      some .passed := by decide
  obtain ⟨⟨v, r'⟩, hres, hv⟩ := Option.map_eq_some_iff.mp hverdict
  exact ⟨v, r', hres, hv, mutex_test_no_violation (by decide) rfl turnsPort_reached turnsSim_shows
    hres⟩

end Shown

end AtmegaScheduler
