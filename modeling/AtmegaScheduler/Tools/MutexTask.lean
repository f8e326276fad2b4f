/-
The tasks of the mutex test.

`task_1` and `task_2` of `mutex.cpp` take the mutex, raise a pin of their own, wait,
lower it and give the mutex back, again and again.  The pins are bits of one port, and
`PORTB |=` and `PORTB &=` are a read and a write between which a task can be switched
out; a compiler that makes one instruction of them has only fewer runs.

The tasks are a client of the system of the mutex.  A task that is past its read is in
its section, so the port still is what it has read, and a pin is high only between the
two writes of its task.
-/
import AtmegaScheduler.Avr.Cpu
import AtmegaScheduler.Lib.BitUpdate
import AtmegaScheduler.Drivers.Progress

namespace AtmegaScheduler

open Avr

/-- A task function of `mutex.cpp`: the bit of `PORTB` it drives, and whether it looks at
what `mtx_release` returns. -/
structure PinTask where
  pin : Fin 8
  checks : Bool
  deriving DecidableEq, Repr

/-- `PB3` -/
def pb3 : Fin 8 := 3

/-- `PB4` -/
def pb4 : Fin 8 := 4

/-- `task_1` drives `PB4`. -/
def task1 : PinTask := ⟨pb4, true⟩

/-- `task_2` drives `PB3`. -/
def task2 : PinTask := ⟨pb3, false⟩

/-- The tasks of `mutex.cpp`. -/
def mutexTasks (t : Fin 2) : PinTask := if t = 0 then task1 else task2

/-- `1 << PBn` -/
def PinTask.mask (T : PinTask) : Byte := BitVec.twoPow 8 T.pin

/-- Where a task is in its loop, outside the functions of the mutex. -/
inductive PinPlace
  /-- `while (1)`, before `mtx_lock` -/
  | top
  /-- `PORTB |= (1u << PBn)`: the read, and the write of what was read -/
  | readHigh
  | writeHigh (portb : Byte)
  /-- `_NOP()` in the `for` loop -/
  | nops (i : Byte)
  /-- `PORTB &= ~(1 << PBn)`: the read, and the write of what was read -/
  | readLow
  | writeLow (portb : Byte)
  /-- before `mtx_release` -/
  | leave
  /-- `printf("MUTEX_ERR_NOT_OWNER")` -/
  | report
  deriving DecidableEq, Repr

/-- What a task shows of its own steps. -/
inductive PinEvent
  | quiet
  | wrote (portb : Byte)
  | printed
  deriving DecidableEq, Repr

/-- Where `mtx_release` returns to. -/
def PinTask.released (T : PinTask) (r : MtxResult) : PinPlace :=
  if T.checks ∧ r = some .errNotOwner then .report else .top

/-- The port after a task has raised its pin in the value `portb`. -/
def PinTask.raise (T : PinTask) (portb : Byte) : Byte := (BitUpdate.orBits T.mask).apply portb

/-- The port after a task has lowered its pin in the value `portb`. -/
def PinTask.lower (T : PinTask) (portb : Byte) : Byte := (BitUpdate.clearBits T.mask).apply portb

/-- The tasks; what they share is `PORTB`. -/
def pinTasks {τ : Type} (ts : τ → PinTask) : Script τ Byte PinPlace PinEvent where
  step t place portb iflag :=
    match place with
    | .top => none
    | .readHigh => some (.quiet, .writeHigh portb, portb, iflag)
    | .writeHigh v => some (.wrote ((ts t).raise v), .nops 0, (ts t).raise v, iflag)
    | .nops i => some (.quiet, if i < 255 then .nops (i + 1) else .readLow, portb, iflag)
    | .readLow => some (.quiet, .writeLow portb, portb, iflag)
    | .writeLow v => some (.wrote ((ts t).lower v), .leave, (ts t).lower v, iflag)
    | .leave => none
    | .report => some (.printed, .top, portb, iflag)
  call t place :=
    match place with
    | .top => some (.lock, fun _ => .readHigh)
    | .leave => some (.release, (ts t).released)
    | _ => none

/-- `main` of `mutex.cpp` before the first task runs: the mutex is initialised and every
task is at its beginning. -/
def Sys.pinStart {τ : Type} (first : τ) (portb : Byte) : Sys τ Byte PinPlace :=
  ⟨mtxInit, true, first, portb, fun _ => .own .top⟩

theorem Sys.pinStart_initial {τ : Type} (first : τ) (portb : Byte) :
    (Sys.pinStart first portb).Initial :=
  ⟨rfl, fun _ => ⟨.top, rfl⟩⟩

/-! ### The writes to the port -/

namespace PinTask

variable (T : PinTask) (portb : Byte)

theorem mask_bit (i : Fin 8) : T.mask.getLsbD i = decide (i = T.pin) := by
  unfold mask
  rw [BitVec.getLsbD_twoPow]
  by_cases hi : i = T.pin
  · rw [hi]
    simp
  · have hne : (T.pin : Nat) ≠ i := fun hc => hi (Fin.ext hc.symm)
    simp [hi, hne]

theorem raise_bit (i : Fin 8) :
    (T.raise portb).getLsbD i = if i = T.pin then true else portb.getLsbD i := by
  unfold raise
  rw [BitUpdate.apply_orBits, BitVec.getLsbD_or, mask_bit]
  by_cases hi : i = T.pin
  · rw [if_pos hi, decide_eq_true hi, Bool.or_true]
  · rw [if_neg hi, decide_eq_false hi, Bool.or_false]

theorem lower_bit (i : Fin 8) :
    (T.lower portb).getLsbD i = if i = T.pin then false else portb.getLsbD i := by
  unfold lower
  rw [BitUpdate.apply_clearBits, BitVec.getLsbD_and, BitVec.getLsbD_not, mask_bit]
  by_cases hi : i = T.pin
  · rw [if_pos hi, decide_eq_true hi]
    simp
  · rw [if_neg hi, decide_eq_false hi]
    simp

end PinTask

/-! ### What holds of a task at its place -/

namespace PinPlace

/-- The pin of the task is high between its two writes. -/
def high : PinPlace → Bool
  | .nops _ | .readLow | .writeLow _ => true
  | _ => false

/-- In its loop a task is in its section, and what it has read of the port is still
what the port is; nothing is ever reported. -/
def Fits (insec : Prop) (portb : Byte) : PinPlace → Prop
  | .top => True
  | .writeHigh v | .writeLow v => insec ∧ v = portb
  | .report => False
  | _ => insec

theorem Fits.frame {insec insec' : Prop} {portb portb' : Byte} {p : PinPlace}
    (h : p.Fits insec portb) (hsec : insec → insec' ∧ portb' = portb) : p.Fits insec' portb' := by
  cases p with
  | top => trivial
  | writeHigh v => exact ⟨(hsec h.1).1, h.2.trans (hsec h.1).2.symm⟩
  | writeLow v => exact ⟨(hsec h.1).1, h.2.trans (hsec h.1).2.symm⟩
  | report => exact h
  | _ => exact (hsec h).1

end PinPlace

namespace Place

/-- A task in a function of the mutex does not drive its pin. -/
def high : Place PinPlace → Bool
  | .own p => p.high
  | .inside _ _ _ => false

/-- The same of a task that may be in a function of the mutex. -/
def Fits (T : PinTask) (insec : Prop) (portb : Byte) : Place PinPlace → Prop
  | .own p => p.Fits insec portb
  | .inside pc _ k =>
      (pc.op = .lock ∧ k = fun _ => .readHigh) ∨ (pc.op = .release ∧ k = T.released)

theorem Fits.frame {T : PinTask} {insec insec' : Prop} {portb portb' : Byte} {p : Place PinPlace}
    (h : p.Fits T insec portb) (hsec : insec → insec' ∧ portb' = portb) :
    p.Fits T insec' portb' := by
  cases p with
  | own p => exact PinPlace.Fits.frame h hsec
  | inside pc sreg k => exact h

end Place

namespace Sys

section Driven

variable {τ : Type} [DecidableEq τ]

/-- A label that tells of `MUTEX_ERR_NOT_OWNER`: `mtx_release` returns it to a task, or a
task prints it. -/
def NotOwner (l : Label τ PinEvent) : Prop :=
  ∃ t, l = .ret t .release (some .errNotOwner) ∨ l = .own t .printed

/-- Every task fits its place, a call of `mtx_release` is one of the owner, a pin is high
just between the writes of its task, the other bits are as at the start, and
`MUTEX_ERR_NOT_OWNER` has been neither returned nor printed. -/
structure Driven (ts : τ → PinTask) (portb : Byte) (h : List (Label τ PinEvent))
    (s : Sys τ Byte PinPlace) : Prop where
  fits : ∀ t, (s.place t).Fits (ts t) (InSection t h) s.mem
  releasing : ∀ t pc sreg k, s.place t = .inside pc sreg k → pc.op = .release →
    s.Releasing true t
  lit : ∀ t, s.mem.getLsbD (ts t).pin = (s.place t).high
  others : ∀ i : Fin 8, (∀ t, (ts t).pin ≠ i) → s.mem.getLsbD i = portb.getLsbD i
  silent : ∀ l ∈ h, ¬ NotOwner l

variable {ts : τ → PinTask} {portb : Byte} {s s' : Sys τ Byte PinPlace}
  {h : List (Label τ PinEvent)} {l : Label τ PinEvent} {t : τ}

omit [DecidableEq τ] in
theorem silent_snoc (hsilent : ∀ l ∈ h, ¬ NotOwner l) (hl : ¬ NotOwner l) :
    ∀ l' ∈ h ++ [l], ¬ NotOwner l' := by
  intro l' hl'
  rcases List.mem_append.mp hl' with hl' | hl'
  · exact hsilent l' hl'
  · rw [List.mem_singleton.mp hl']
    exact hl

/-- A task that calls `mtx_release`, or is in it already, stays there as the owner up to
the return. -/
theorem Driven.releasing_next (hd : Driven ts portb h s) (hinv : Inv h s)
    (hstep : Step (pinTasks ts).client s l s') (t : τ) (pc : MtxPc) (sreg : Bool)
    (k : MtxResult → PinPlace) (hat' : s'.place t = .inside pc sreg k) (hop : pc.op = .release) :
    s'.Releasing true t := by
  have hkeep : ∀ pc₀ sreg₀ k₀, s.place t = .inside pc₀ sreg₀ k₀ → pc₀.op = .release →
      (∀ op r, l ≠ .ret t op r) → s'.Releasing true t := by
    intro pc₀ sreg₀ k₀ hat₀ hop₀ hret
    exact releasing_step hinv (hd.releasing t pc₀ sreg₀ k₀ hat₀ hop₀) hstep hret
  have hstep' := hstep
  cases hstep with
  | own hat _ =>
      rcases inside_goto hat' with ⟨_, hp⟩ | ⟨_, hpl⟩
      · exact absurd hp (by simp)
      · exact hkeep _ _ _ hpl hop (by simp)
  | call hat hcall =>
      rename_i p op k₀
      rcases inside_goto hat' with ⟨hself, hp⟩ | ⟨_, hpl⟩
      · obtain ⟨rfl, -, -⟩ := Place.inside.inj hp
        rw [entry_op] at hop
        subst hop hself
        -- only from its section does a task call `mtx_release`
        have hfits := hd.fits s.cTask
        rw [hat] at hfits
        have hin : InSection s.cTask h := by
          cases p with
          | leave => exact hfits
          | top => exact absurd hcall (by simp [pinTasks, Script.client])
          | _ => exact absurd hcall (by simp [pinTasks, Script.client])
        exact releasing_call (iff_of_true (hinv.section_owner _ hin) rfl) hstep'
      · exact hkeep _ _ _ hpl hop (by simp)
  | stmt hat hyield hres =>
      rcases inside_goto hat' with ⟨hself, hp⟩ | ⟨_, hpl⟩
      · obtain ⟨rfl, -, -⟩ := Place.inside.inj hp
        rw [show (s.after _ _).pc.op = _ from mtxStmt_op _ _] at hop
        exact hkeep _ _ _ (hself ▸ hat) hop (by simp)
      · exact hkeep _ _ _ hpl hop (by simp)
  | ret hat hres =>
      rcases inside_goto hat' with ⟨_, hp⟩ | ⟨hne, hpl⟩
      · exact absurd hp (by simp)
      · refine hkeep _ _ _ hpl hop fun op r hc => ?_
        exact hne (Label.ret.inj hc).1.symm
  | yield u hat =>
      rcases inside_goto (show (s.goto _).place t = _ from hat') with ⟨_, hp⟩ | ⟨_, hpl⟩
      · obtain ⟨rfl, -, -⟩ := Place.inside.inj hp
        exact absurd hop (by decide)
      · exact hkeep _ _ _ hpl hop (by simp)
  | switch u _ => exact hkeep _ _ _ hat' hop (by simp)

/-- A step with which no task but the running one moves, and the port stays as it is. -/
theorem Driven.move (hd : Driven ts portb h s) (hinv : Inv h s)
    (hstep : Step (pinTasks ts).client s l s') (hmem : s'.mem = s.mem)
    (hother : ∀ t, t ≠ s.cTask → s'.place t = s.place t)
    (hsec : ∀ t, t ≠ s.cTask → InSection t h → InSection t (h ++ [l]))
    (hself : (s'.place s.cTask).Fits (ts s.cTask) (InSection s.cTask (h ++ [l])) s.mem)
    (hhigh : (s'.place s.cTask).high = (s.place s.cTask).high)
    (hl : ¬ NotOwner l) : Driven ts portb (h ++ [l]) s' := by
  refine ⟨fun t => ?_, hd.releasing_next hinv hstep, fun t => ?_, ?_, silent_snoc hd.silent hl⟩
  · rw [hmem]
    by_cases ht : t = s.cTask
    · rw [ht]
      exact hself
    · rw [hother t ht]
      exact (hd.fits t).frame fun hin => ⟨hsec t ht hin, rfl⟩
  · rw [hmem, hd.lit t]
    by_cases ht : t = s.cTask
    · rw [ht, hhigh]
    · rw [hother t ht]
  · rw [hmem]
    exact hd.others

/-- A write to the port, by a task in its section. -/
theorem Driven.write {p' : PinPlace} {e : PinEvent} {portb' : Byte} {i' : Bool}
    (hpin : ∀ t u, (ts t).pin = (ts u).pin → t = u) (hd : Driven ts portb h s) (hinv : Inv h s)
    (hstep : Step (pinTasks ts).client s (.own s.cTask e)
      { s.goto (.own p') with mem := portb', iflag := i' })
    (hin : InSection s.cTask h) (hself : ∀ insec : Prop, insec → p'.Fits insec portb')
    (hbit : portb'.getLsbD (ts s.cTask).pin = p'.high)
    (hkeep : ∀ i : Fin 8, i ≠ (ts s.cTask).pin → portb'.getLsbD i = s.mem.getLsbD i)
    (he : e ≠ .printed) :
    Driven ts portb (h ++ [.own s.cTask e])
      { s.goto (.own p') with mem := portb', iflag := i' } := by
  refine ⟨fun t => ?_, hd.releasing_next hinv hstep, fun t => ?_, fun i hi => ?_,
    silent_snoc hd.silent (by simpa [NotOwner] using he)⟩
  · show ((s.goto (.own p')).place t).Fits _ _ portb'
    by_cases ht : t = s.cTask
    · rw [ht, goto_self]
      exact hself _ (inSection_own.mpr hin)
    · rw [goto_other ht]
      -- nobody else is in its section
      exact (hd.fits t).frame fun hother => absurd (hinv.unique hother hin) ht
  · show portb'.getLsbD _ = ((s.goto (.own p')).place t).high
    by_cases ht : t = s.cTask
    · rw [ht, goto_self]
      exact hbit
    · rw [goto_other ht, hkeep _ fun hc => ht (hpin _ _ hc)]
      exact hd.lit t
  · show portb'.getLsbD i = _
    rw [hkeep i (hi _).symm]
    exact hd.others i hi

/-- A task whose pin is high is in its section. -/
theorem Driven.high_inSection (hd : Driven ts portb h s)
    (ht : s.mem.getLsbD (ts t).pin = true) : InSection t h := by
  rw [hd.lit t] at ht
  have hfits := hd.fits t
  cases hat : s.place t with
  | inside pc sreg k =>
      rw [hat] at ht
      exact absurd ht Bool.false_ne_true
  | own p =>
      rw [hat] at ht hfits
      cases p with
      | nops i => exact hfits
      | readLow => exact hfits
      | writeLow v => exact hfits.1
      | _ => exact absurd ht Bool.false_ne_true

/-- A step of a task's own. -/
theorem Driven.own {p p' : PinPlace} {e : PinEvent} {portb' : Byte} {i' : Bool}
    (hpin : ∀ t u, (ts t).pin = (ts u).pin → t = u) (hd : Driven ts portb h s) (hinv : Inv h s)
    (hat : s.place s.cTask = .own p)
    (hown : (pinTasks ts).step s.cTask p s.mem s.iflag = some (e, p', portb', i')) :
    Driven ts portb (h ++ [.own s.cTask e])
      { s.goto (.own p') with mem := portb', iflag := i' } := by
  have hstep : Step (pinTasks ts).client s (.own s.cTask e)
      { s.goto (.own p') with mem := portb', iflag := i' } := .own hat hown
  have hfits := hd.fits s.cTask
  rw [hat] at hfits
  -- a step that leaves the port as it is, from and to a place of the loop
  have hquiet : e = .quiet → portb' = s.mem → p'.Fits (InSection s.cTask h) s.mem →
      p'.high = p.high → Driven ts portb (h ++ [.own s.cTask e])
        { s.goto (.own p') with mem := portb', iflag := i' } := by
    rintro rfl rfl hself hhigh
    refine hd.move hinv hstep rfl (fun t ht => goto_other ht) (fun t _ => inSection_own.mpr) ?_ ?_
      (by simp [NotOwner])
    · show ((s.goto (.own p')).place s.cTask).Fits _ _ s.mem
      rw [goto_self]
      exact hself.frame fun hin => ⟨inSection_own.mpr hin, rfl⟩
    · show ((s.goto (.own p')).place s.cTask).high = _
      rw [goto_self, hat]
      exact hhigh
  cases p with
  | top => exact absurd hown (by simp [pinTasks])
  | leave => exact absurd hown (by simp [pinTasks])
  | report => exact absurd hfits not_false
  | readHigh =>
      obtain ⟨rfl, rfl, rfl, -⟩ : PinEvent.quiet = e ∧ PinPlace.writeHigh s.mem = p' ∧
        s.mem = portb' ∧ s.iflag = i' := by simpa [pinTasks] using hown
      exact hquiet rfl rfl ⟨hfits, rfl⟩ rfl
  | nops i =>
      obtain ⟨rfl, rfl, rfl, -⟩ : PinEvent.quiet = e ∧
        (if i < 255 then PinPlace.nops (i + 1) else .readLow) = p' ∧
        s.mem = portb' ∧ s.iflag = i' := by simpa [pinTasks] using hown
      by_cases hi : i < 255
      · rw [if_pos hi] at hquiet ⊢
        exact hquiet rfl rfl hfits rfl
      · rw [if_neg hi] at hquiet ⊢
        exact hquiet rfl rfl hfits rfl
  | readLow =>
      obtain ⟨rfl, rfl, rfl, -⟩ : PinEvent.quiet = e ∧ PinPlace.writeLow s.mem = p' ∧
        s.mem = portb' ∧ s.iflag = i' := by simpa [pinTasks] using hown
      exact hquiet rfl rfl ⟨hfits, rfl⟩ rfl
  | writeHigh v =>
      obtain ⟨hin, rfl⟩ := hfits
      obtain ⟨rfl, rfl, rfl, -⟩ : PinEvent.wrote ((ts s.cTask).raise s.mem) = e ∧
        PinPlace.nops 0 = p' ∧ (ts s.cTask).raise s.mem = portb' ∧ s.iflag = i' := by
          simpa [pinTasks] using hown
      refine hd.write hpin hinv hstep hin (fun _ hin => hin) ?_ (fun i hi => ?_) (by simp)
      · rw [PinTask.raise_bit, if_pos rfl]
        rfl
      · rw [PinTask.raise_bit, if_neg hi]
  | writeLow v =>
      obtain ⟨hin, rfl⟩ := hfits
      obtain ⟨rfl, rfl, rfl, -⟩ : PinEvent.wrote ((ts s.cTask).lower s.mem) = e ∧
        PinPlace.leave = p' ∧ (ts s.cTask).lower s.mem = portb' ∧ s.iflag = i' := by
          simpa [pinTasks] using hown
      refine hd.write hpin hinv hstep hin (fun _ hin => hin) ?_ (fun i hi => ?_) (by simp)
      · rw [PinTask.lower_bit, if_pos rfl]
        rfl
      · rw [PinTask.lower_bit, if_neg hi]

/-- A call of the mutex. -/
theorem Driven.call {p : PinPlace} {op : MtxOp} {k : MtxResult → PinPlace}
    (hd : Driven ts portb h s) (hinv : Inv h s) (hat : s.place s.cTask = .own p)
    (hcall : (pinTasks ts).call s.cTask p = some (op, k)) :
    Driven ts portb (h ++ [.call s.cTask op]) (s.goto (.inside op.entry false k)) := by
  have hpl : (Place.inside op.entry false k).Fits (ts s.cTask)
      (InSection s.cTask (h ++ [Label.call s.cTask op])) s.mem ∧ p.high = false := by
    cases p with
    | top =>
        obtain ⟨rfl, rfl⟩ := Prod.mk.inj (Option.some.inj hcall)
        exact ⟨Or.inl ⟨rfl, rfl⟩, rfl⟩
    | leave =>
        obtain ⟨rfl, rfl⟩ := Prod.mk.inj (Option.some.inj hcall)
        exact ⟨Or.inr ⟨rfl, rfl⟩, rfl⟩
    | _ => exact absurd hcall (by simp [pinTasks])
  refine hd.move hinv (.call hat hcall) rfl (fun t ht => goto_other ht) (fun t ht hin => ?_) ?_ ?_
    (by simp [NotOwner])
  · exact inSection_call.mpr ⟨hin, fun hc => ht hc.1.symm⟩
  · rw [goto_self]
    exact hpl.1
  · rw [goto_self, hat]
    exact hpl.2.symm

/-- A function of the mutex returns: `mtx_lock` into the section, and `mtx_release` with
`MUTEX_OK`. -/
theorem Driven.ret {pc : MtxPc} {r : MtxResult} {sreg : Bool} {k : MtxResult → PinPlace}
    (hd : Driven ts portb h s) (hinv : Inv h s) (hat : s.place s.cTask = .inside pc sreg k)
    (hres : pc.result = some r) :
    Driven ts portb (h ++ [.ret s.cTask pc.op r]) (s.goto (.own (k r))) := by
  have hstep : Step (pinTasks ts).client s (.ret s.cTask pc.op r) (s.goto (.own (k r))) :=
    .ret hat hres
  have hfits := hd.fits s.cTask
  rw [hat] at hfits
  have hpl : (k r).Fits (InSection s.cTask (h ++ [Label.ret s.cTask pc.op r])) s.mem ∧
      (k r).high = false ∧ (pc.op = .release → r ≠ some .errNotOwner) := by
    rcases hfits with ⟨hop, rfl⟩ | ⟨hop, rfl⟩
    · refine ⟨inSection_ret.mpr (Or.inl ⟨rfl, ?_⟩), rfl, fun hc => ?_⟩
      · rw [hop]
        rfl
      · exact absurd (hop.symm.trans hc) (by decide)
    · obtain ⟨_, hr, _, _⟩ :=
        (releasing_self (hd.releasing _ _ _ _ hat hop) hstep).2 pc.op r rfl
      have hok : r ≠ some .errNotOwner := by
        rw [hr]
        decide
      have htop : (ts s.cTask).released r = .top := if_neg fun hc => hok hc.2
      rw [htop]
      exact ⟨trivial, rfl, fun _ => hok⟩
  refine hd.move hinv hstep rfl (fun t ht => goto_other ht)
    (fun t _ hin => inSection_ret.mpr (Or.inr hin)) ?_ ?_ ?_
  · rw [goto_self]
    exact hpl.1
  · rw [goto_self, hat]
    exact hpl.2.1
  · rintro ⟨t, hc | hc⟩
    · obtain ⟨-, hop, hr⟩ := Label.ret.inj hc
      exact hpl.2.2 hop hr
    · exact absurd hc (by simp)

/-- **One step.** -/
theorem Driven.next (hpin : ∀ t u, (ts t).pin = (ts u).pin → t = u) (hd : Driven ts portb h s)
    (hinv : Inv h s) (hstep : Step (pinTasks ts).client s l s') :
    Driven ts portb (h ++ [l]) s' := by
  have hstep' := hstep
  cases hstep with
  | own hat hown => exact hd.own hpin hinv hat hown
  | call hat hcall => exact hd.call hinv hat hcall
  | ret hat hres => exact hd.ret hinv hat hres
  | stmt hat hyield hres =>
      have hfits := hd.fits s.cTask
      rw [hat] at hfits
      refine hd.move hinv hstep' rfl (fun t ht => goto_other ht) (fun t _ => inSection_stmt.mpr)
        ?_ ?_ (by simp [NotOwner])
      · show ((s.goto _).place s.cTask).Fits _ _ _
        rw [goto_self]
        unfold Place.Fits at hfits ⊢
        dsimp only at hfits ⊢
        rw [show (s.after _ _).pc.op = _ from mtxStmt_op _ _]
        exact hfits
      · show ((s.goto _).place s.cTask).high = _
        rw [goto_self, hat]
        rfl
  | yield u hat =>
      have hfits := hd.fits s.cTask
      rw [hat] at hfits
      refine hd.move hinv hstep' rfl (fun t ht => goto_other ht)
        (fun t _ => inSection_switch.mpr) ?_ ?_ (by simp [NotOwner])
      · show ((s.goto _).place s.cTask).Fits _ _ _
        rw [goto_self]
        exact hfits
      · show ((s.goto _).place s.cTask).high = _
        rw [goto_self, hat]
        rfl
  | switch u _ =>
      refine hd.move hinv hstep' rfl (fun t _ => rfl) (fun t _ => inSection_switch.mpr) ?_ rfl
        (by simp [NotOwner])
      exact (hd.fits s.cTask).frame fun hin => ⟨inSection_switch.mpr hin, rfl⟩

/-- The tasks before their first calls, with their pins low. -/
theorem driven_start (first : τ) (hlow : ∀ t, portb.getLsbD (ts t).pin = false) :
    Driven ts portb [] (pinStart first portb) where
  fits _ := trivial
  releasing _ _ _ _ hat _ := absurd hat (by simp [pinStart])
  lit := hlow
  others _ _ := rfl
  silent := nofun

/-- **A run** from wherever the tasks stand. -/
theorem Driven.onward {h' : List (Label τ PinEvent)}
    (hpin : ∀ t u, (ts t).pin = (ts u).pin → t = u) (hd : Driven ts portb h s) (hinv : Inv h s)
    (hrun : Run (pinTasks ts).client s h' s') : Driven ts portb (h ++ h') s' := by
  induction hrun with
  | nil =>
      rw [List.append_nil]
      exact hd
  | snoc hrun hstep ih =>
      rw [← List.append_assoc]
      exact ih.next hpin (inv_run hinv hrun) hstep

/-- **A run** from the start. -/
theorem driven_run (hpin : ∀ t u, (ts t).pin = (ts u).pin → t = u) (first : τ)
    (hlow : ∀ t, portb.getLsbD (ts t).pin = false)
    (hrun : Run (pinTasks ts).client (pinStart first portb) h s) : Driven ts portb h s := by
  exact (driven_start first hlow).onward hpin (inv_initial (pinStart_initial first portb)) hrun

/-- Two pins are not high at once. -/
theorem pin_unique (hpin : ∀ t u, (ts t).pin = (ts u).pin → t = u) (first : τ)
    (hlow : ∀ t, portb.getLsbD (ts t).pin = false)
    (hrun : Run (pinTasks ts).client (pinStart first portb) h s) {t u : τ}
    (ht : s.mem.getLsbD (ts t).pin = true) (hu : s.mem.getLsbD (ts u).pin = true) : t = u := by
  have hd := driven_run hpin first hlow hrun
  have hinv := inv_reached (pinStart_initial first portb) hrun
  exact hinv.unique (hd.high_inSection ht) (hd.high_inSection hu)

/-- **The mutex keeps the port.**  In every run, at every point: a pin that is high is that
of the task in its section, so at most one is; the other bits of the port are as at the
start, although every write stores a byte read before; and `mtx_release` has never
returned `MUTEX_ERR_NOT_OWNER` to any task, so none has printed it. -/
theorem pins_exclusive (hpin : ∀ t u, (ts t).pin = (ts u).pin → t = u) (first : τ)
    (hlow : ∀ t, portb.getLsbD (ts t).pin = false)
    (hrun : Run (pinTasks ts).client (pinStart first portb) h s) :
    (∀ t, s.mem.getLsbD (ts t).pin = true → InSection t h) ∧
    (∀ t u, s.mem.getLsbD (ts t).pin = true → s.mem.getLsbD (ts u).pin = true → t = u) ∧
    (∀ i : Fin 8, (∀ t, (ts t).pin ≠ i) → s.mem.getLsbD i = portb.getLsbD i) ∧
    (∀ t, Label.ret t .release (some .errNotOwner) ∉ h) ∧
    (∀ t, Label.own t .printed ∉ h) := by
  have hd := driven_run hpin first hlow hrun
  refine ⟨fun t => hd.high_inSection, fun t u => pin_unique hpin first hlow hrun, hd.others,
    fun t ht => ?_, fun t ht => ?_⟩
  · exact hd.silent _ ht ⟨t, Or.inl rfl⟩
  · exact hd.silent _ ht ⟨t, Or.inr rfl⟩

end Driven

/-- Task 1 waits in `mtx_lock`, and the pin of task 0 is high. -/
def waitsBeside (s : Sys (Fin 2) Byte PinPlace) : Bool :=
  match s.place 0, s.place 1 with
  | .own (.nops _), .inside (.lock .recli) _ _ => true
  | _, _ => false

theorem waitsBeside_places {s : Sys (Fin 2) Byte PinPlace} (hs : waitsBeside s = true) :
    (∃ i, s.place 0 = .own (.nops i)) ∧ ∃ sreg k, s.place 1 = .inside (.lock .recli) sreg k := by
  unfold waitsBeside at hs
  split at hs
  · rename_i i sreg k h₀ h₁
    exact ⟨⟨i, h₀⟩, sreg, k, h₁⟩
  · exact absurd hs Bool.false_ne_true

/-- `task_1` is switched out between its read of the port and its write, and `task_2` finds
the mutex taken; `PB0` and `PB5` are not theirs. -/
theorem played_beside : ∃ h s, Run (pinTasks mutexTasks).client (pinStart 0 0x21) h s ∧
    s.mem = 0x31 ∧ s.cTask = 0 ∧ waitsBeside s = true := by
  have hplay : ((play (pinTasks mutexTasks) [(0, 9), (1, 5), (0, 1)]
      ([], pinStart 0 0x21)).map fun c => decide (
        c.2.mem = 0x31 ∧ c.2.cTask = 0 ∧ waitsBeside c.2 = true)) = some true := by
    decide +kernel
  obtain ⟨⟨h, s⟩, hc, hdec⟩ := Option.map_eq_some_iff.mp hplay
  exact ⟨h, s, play_run (.nil _) hc, of_decide_eq_true hdec⟩

theorem pins_exclusive_interrupted : ∃ h s,
    Run (pinTasks mutexTasks).client (pinStart 0 0x21) h s ∧ s.mem = 0x31 ∧ InSection 0 h ∧
      ∀ t, Label.ret t .release (some .errNotOwner) ∉ h := by
  obtain ⟨h, s, hrun, hmem, -, -⟩ := played_beside
  obtain ⟨hin, -, -, hreturned, -⟩ := pins_exclusive (by decide) 0 (by decide) hrun
  exact ⟨h, s, hrun, hmem, hin 0 (by rw [hmem]; decide), hreturned⟩

end Sys

/-! ### A task that waits can be passed over -/

/-- What is left of the loop, at most, up to the call of `mtx_release`. -/
def PinPlace.left : PinPlace → Nat
  | .readHigh => 300
  | .writeHigh _ => 299
  | .nops i => 2 + (256 - i.toNat)
  | .readLow => 2
  | .writeLow _ => 1
  | _ => 0

/-- Between `mtx_lock` and `mtx_release`. -/
def PinPlace.Loop (p : PinPlace) : Prop := p ≠ .top ∧ p ≠ .report

namespace PinPlace

variable {τ : Type} {p : PinPlace}

/-- In the loop a task that is not before `mtx_release` has a step, which brings it
nearer. -/
theorem Loop.step (hp : p.Loop) (ts : τ → PinTask) (hleave : p ≠ .leave) (t : τ) (portb : Byte)
    (iflag : Bool) :
    ∃ e p' portb' i', (pinTasks ts).step t p portb iflag = some (e, p', portb', i') ∧
      p'.Loop ∧ p'.left < p.left := by
  cases p with
  | top => exact absurd rfl hp.1
  | report => exact absurd rfl hp.2
  | leave => exact absurd rfl hleave
  | readHigh => exact ⟨_, _, _, _, rfl, ⟨by simp, by simp⟩, show 299 < 300 by decide⟩
  | writeHigh v => exact ⟨_, _, _, _, rfl, ⟨by simp, by simp⟩, show 258 < 299 by decide⟩
  | readLow => exact ⟨_, _, _, _, rfl, ⟨by simp, by simp⟩, show 1 < 2 by decide⟩
  | writeLow v => exact ⟨_, _, _, _, rfl, ⟨by simp, by simp⟩, show 0 < 1 by decide⟩
  | nops i =>
      refine ⟨_, _, _, _, rfl, ?_⟩
      by_cases hi : i < 255
      · rw [if_pos hi]
        refine ⟨⟨by simp, by simp⟩, ?_⟩
        show 2 + (256 - (i + 1).toNat) < 2 + (256 - i.toNat)
        bv_omega
      · rw [if_neg hi]
        refine ⟨⟨by simp, by simp⟩, ?_⟩
        show 2 < 2 + (256 - i.toNat)
        have := i.isLt
        omega

/-- `mtx_release` returns to the beginning of the loop, since nothing is reported. -/
theorem released_top {T : PinTask} {r : MtxResult} {insec : Prop} {portb : Byte}
    (h : (T.released r).Fits insec portb) : T.released r = .top := by
  unfold PinTask.released at h ⊢
  by_cases hr : T.checks ∧ r = some .errNotOwner
  · rw [if_pos hr] at h
    exact absurd h not_false
  · rw [if_neg hr]

/-- In the loop a task is in its section. -/
theorem Loop.insec {insec : Prop} {portb : Byte} (hp : p.Loop) (h : p.Fits insec portb) :
    insec := by
  cases p with
  | top => exact absurd rfl hp.1
  | report => exact absurd rfl hp.2
  | writeHigh v => exact h.1
  | writeLow v => exact h.1
  | _ => exact h

end PinPlace

namespace Sys

section Passed

variable {τ : Type} [DecidableEq τ] {ts : τ → PinTask} {s s' : Sys τ Byte PinPlace}
  {h h' : List (Label τ PinEvent)} {t u : τ}

variable (ts) in
/-- The loop of the running task up to its call of `mtx_release`. -/
theorem goes_leave {p : PinPlace} (hat : s.place s.cTask = .own p) (hp : p.Loop) :
    ∃ h' s', Goes (pinTasks ts) s h' s' ∧ s'.place s.cTask = .own .leave ∧
      s'.mutex = s.mutex := by
  induction hn : p.left using Nat.strong_induction_on generalizing s p with
  | _ n ih =>
      by_cases hleave : p = .leave
      · subst hleave
        exact ⟨_, s, .refl s, hat, rfl⟩
      · obtain ⟨e, p', portb', i', hown, hp', hless⟩ :=
          hp.step ts hleave s.cTask s.mem s.iflag
        have hstep : Step (pinTasks ts).client s (.own s.cTask e)
            { s.goto (.own p') with mem := portb', iflag := i' } := .own hat hown
        obtain ⟨h', s', hgoes, hat', hmutex⟩ :=
          ih _ (hn ▸ hless) (s := { s.goto (.own p') with mem := portb', iflag := i' })
            (goto_self s _) hp' rfl
        exact ⟨_, s', .trans (.single hstep rfl fun u hu => goto_other hu) hgoes, hat', hmutex⟩

variable (ts) in
/-- A call of the running task goes to its return when no other task has the mutex. -/
theorem goes_called {p : PinPlace} {op : MtxOp} {k : MtxResult → PinPlace} (hinv : Inv h s)
    (hat : s.place s.cTask = .own p) (hclear : s.Clear s.cTask)
    (hcall : (pinTasks ts).call s.cTask p = some (op, k)) :
    ∃ h' s' r, Goes (pinTasks ts) s h' s' ∧ s'.place s.cTask = .own (k r) ∧
      s'.Clear s.cTask ∧ (InSection s.cTask (h ++ h') ↔ op.acquires r = true ∨
        (InSection s.cTask h ∧ op ≠ .release)) := by
  have hstep : Step (pinTasks ts).client s (.call s.cTask op)
      (s.goto (.inside op.entry false k)) := .call hat hcall
  obtain ⟨h', s', r, hgoes, hplace, hfree, -, hiff⟩ :=
    goes_return (S := pinTasks ts) (inv_step hinv hstep) (goto_self s _) hclear
  refine ⟨_, s', r, .trans (.single hstep rfl fun u hu => goto_other hu) hgoes, hplace, hfree, ?_⟩
  rw [entry_op, List.append_assoc] at hiff
  refine hiff.trans (or_congr Iff.rfl (inSection_call.trans (and_congr Iff.rfl ?_)))
  exact not_congr (and_iff_right rfl)

/-- The label is a return with which `u` has acquired the mutex. -/
def Acquires (u : τ) : Label τ PinEvent → Bool
  | .ret v op r => v = u ∧ op.acquires r = true
  | _ => false

/-- A task that has come into its section has acquired the mutex. -/
theorem acquired_of_inSection (hnot : ¬ InSection u h) :
    InSection u (h ++ h') → 1 ≤ h'.countP (Acquires u) := by
  induction h' using List.reverseRecOn with
  | nil =>
      rw [List.append_nil]
      exact fun hin => absurd hin hnot
  | append_singleton h' l ih =>
      intro hin
      rw [← List.append_assoc] at hin
      rw [List.countP_append]
      by_cases hbefore : InSection u (h ++ h')
      · have := ih hbefore
        omega
      · cases l with
        | ret v op r =>
            obtain hacq := (inSection_ret.mp hin).resolve_right hbefore
            have : [Label.ret v op r].countP (Acquires u) = 1 := by
              rw [List.countP_singleton]
              exact if_pos (decide_eq_true hacq)
            omega
        | call v op => exact absurd (inSection_call.mp hin).1 hbefore
        | own v e => exact absurd (inSection_own.mp hin) hbefore
        | stmt v => exact absurd (inSection_stmt.mp hin) hbefore
        | switch v => exact absurd (inSection_switch.mp hin) hbefore

variable (ts) in
/-- The turn of a task that waits: it finds the mutex taken and yields. -/
theorem turn_wasted {p : PinPlace} {sreg : Bool} {k : MtxResult → PinPlace}
    (hat : s.place s.cTask = .own p) (howner : s.mutex.owner = some s.cTask)
    (hwait : s.place t = .inside (.lock .recli) sreg k) :
    ∃ s', Run (pinTasks ts).client s [.switch t, .stmt t, .stmt t, .switch s.cTask] s' ∧
      s'.cTask = s.cTask ∧ s'.mutex = s.mutex ∧ s'.place = s.place := by
  obtain ⟨s₁, hs₁⟩ : ∃ s₁, s₁ = s.switchTo t := ⟨_, rfl⟩
  have hat₁ : s₁.place s₁.cTask = .inside (.lock .recli) sreg k := by
    rw [hs₁]
    exact hwait
  have hstep₁ : Step (pinTasks ts).client s (.switch t) s₁ := hs₁ ▸ .switch t (Or.inr ⟨p, hat⟩)
  obtain ⟨s₂, hs₂⟩ : ∃ s₂, s₂ = s₁.stmt (.lock .recli) sreg k := ⟨_, rfl⟩
  have hat₂ : s₂.place s₂.cTask = .inside (.lock .testFree) sreg k := by
    rw [hs₂]
    exact goto_self s₁ _
  have hstep₂ : Step (pinTasks ts).client s₁ (.stmt s₁.cTask) s₂ :=
    hs₂ ▸ .stmt hat₁ (by decide) rfl
  have howner₂ : s₂.mutex.owner = some s.cTask := by
    rw [hs₂, hs₁]
    exact howner
  have hafter : s₂.after (.lock .testFree) sreg = ⟨s₂.mutex, s₂.iflag, sreg, .lock .yield⟩ := by
    show (if s₂.mutex.owner ≠ none then _ else _ : MtxCall τ) = _
    rw [if_pos (by rw [howner₂]; exact Option.some_ne_none _)]
  obtain ⟨s₃, hs₃⟩ : ∃ s₃, s₃ = s₂.stmt (.lock .testFree) sreg k := ⟨_, rfl⟩
  have hat₃ : s₃.place s₃.cTask = .inside (.lock .yield) sreg k := by
    have hself := goto_self s₂ (.inside (s₂.after (.lock .testFree) sreg).pc
      (s₂.after (.lock .testFree) sreg).sreg k)
    rw [hafter] at hself
    rw [hs₃]
    unfold stmt
    rw [hafter]
    exact hself
  have hstep₃ : Step (pinTasks ts).client s₂ (.stmt s₂.cTask) s₃ :=
    hs₃ ▸ .stmt hat₂ (by decide) rfl
  have hstep₄ : Step (pinTasks ts).client s₃ (.switch s.cTask)
      ((s₃.goto (.inside (.lock .recli) sreg k)).switchTo s.cTask) := .yield _ hat₃
  have hcur₁ : s₁.cTask = t := by rw [hs₁]; rfl
  have hcur₂ : s₂.cTask = t := by rw [hs₂]; exact hcur₁
  have hcur₃ : s₃.cTask = t := by rw [hs₃]; exact hcur₂
  rw [hcur₁] at hstep₂
  rw [hcur₂] at hstep₃
  refine ⟨_, .snoc (.snoc (.snoc (.single hstep₁) hstep₂) hstep₃) hstep₄, rfl, ?_, ?_⟩
  · show s₃.mutex = _
    rw [hs₃, show (s₂.stmt (.lock .testFree) sreg k).mutex = _ from congrArg MtxCall.mutex hafter,
      hs₂, hs₁]
    rfl
  · funext u
    show (s₃.goto (.inside (.lock .recli) sreg k)).place u = _
    by_cases hu : u = t
    · rw [hu, ← hcur₃, goto_self, hcur₃, hwait]
    · rw [goto_other (hcur₃ ▸ hu), hs₃]
      show (s₂.goto _).place u = _
      rw [goto_other (hcur₂ ▸ hu), hs₂]
      show (s₁.goto _).place u = _
      rw [goto_other (hcur₁ ▸ hu), hs₁]
      rfl

/-- The task gives the mutex back and has it again, since nobody else comes between. -/
theorem takes_again {portb : Byte} (hpin : ∀ t u, (ts t).pin = (ts u).pin → t = u)
    (hd : Driven ts portb h s) (hinv : Inv h s) (hat : s.place s.cTask = .own .leave)
    (howner : s.mutex.owner = some s.cTask) :
    ∃ h' s', Goes (pinTasks ts) s h' s' ∧ s'.place s.cTask = .own .readHigh ∧
      1 ≤ h'.countP (Acquires s.cTask) := by
  obtain ⟨h₁, s₁, r, hgoes₁, hat₁, hclear₁, hiff₁⟩ :=
    goes_called ts hinv hat (Or.inr howner) rfl
  have hcur₁ := hgoes₁.running
  have hout : ¬ InSection s.cTask (h ++ h₁) := by
    rw [hiff₁]
    rintro (hc | ⟨_, hc⟩)
    · exact Bool.false_ne_true hc
    · exact hc rfl
  have htop : s₁.place s.cTask = .own .top := by
    have hfits := (hd.onward hpin hinv hgoes₁.run).fits s.cTask
    rw [hat₁] at hfits ⊢
    exact congrArg Place.own (PinPlace.released_top hfits)
  rw [← hcur₁] at htop hclear₁
  obtain ⟨h₂, s₂, r', hgoes₂, hat₂, -, hiff₂⟩ :=
    goes_called ts (inv_run hinv hgoes₁.run) htop hclear₁ rfl
  rw [hcur₁] at hat₂ hiff₂
  have hacq := acquired_of_inSection hout (hiff₂.mpr (Or.inl rfl))
  refine ⟨_, s₂, .trans hgoes₁ hgoes₂, hat₂, ?_⟩
  rw [List.countP_append]
  omega

/-- One round: the waiting task has its turn while the running one is in its loop, which
then gives the mutex back and has it again. -/
theorem passed_over {portb : Byte} {p : PinPlace} {sreg : Bool} {k : MtxResult → PinPlace}
    (hpin : ∀ t u, (ts t).pin = (ts u).pin → t = u) (hd : Driven ts portb h s) (hinv : Inv h s)
    (hat : s.place s.cTask = .own p) (hp : p.Loop)
    (hwait : s.place t = .inside (.lock .recli) sreg k) :
    ∃ h' s', Run (pinTasks ts).client s h' s' ∧ s'.cTask = s.cTask ∧
      s'.place s.cTask = .own .readHigh ∧ s'.place t = .inside (.lock .recli) sreg k ∧
      1 ≤ h'.countP (Acquires s.cTask) ∧ 1 ≤ h'.count (.switch t) ∧ ∀ op r, .ret t op r ∉ h' := by
  have hin : InSection s.cTask h := by
    have hfits := hd.fits s.cTask
    rw [hat] at hfits
    exact hp.insec hfits
  have howner := hinv.section_owner _ hin
  have hne : t ≠ s.cTask := ne_of_inside hat hwait
  obtain ⟨s₁, hturn, hcur₁, hmutex₁, hplace₁⟩ := turn_wasted ts hat howner hwait
  rw [← hcur₁] at hne
  have hat₁ : s₁.place s₁.cTask = .own p := by rw [hcur₁, hplace₁, hat]
  have howner₁ : s₁.mutex.owner = some s₁.cTask := by rw [hcur₁, hmutex₁, howner]
  obtain ⟨h₂, s₂, hgoes₂, hat₂, hmutex₂⟩ := goes_leave ts hat₁ hp
  have hcur₂ := hgoes₂.running
  have hrun₂ := hturn.trans hgoes₂.run
  rw [← hmutex₂, ← hcur₂] at howner₁
  rw [← hcur₂] at hat₂
  obtain ⟨h₃, s₃, hgoes₃, hat₃, hacq⟩ :=
    takes_again hpin (hd.onward hpin hinv hrun₂) (inv_run hinv hrun₂) hat₂ howner₁
  have hgoes : Goes (pinTasks ts) s₁ (h₂ ++ h₃) s₃ := .trans hgoes₂ hgoes₃
  rw [hcur₂, hcur₁] at hat₃ hacq
  refine ⟨_, s₃, hturn.trans hgoes.run, hgoes.running.trans hcur₁, hat₃, ?_, ?_, ?_, ?_⟩
  · rw [hgoes.others t hne, hplace₁]
    exact hwait
  · rw [List.countP_append, List.countP_append]
    omega
  · rw [List.count_append, List.count_cons_self]
    omega
  · intro op r hret
    rcases List.mem_append.mp hret with hret | hret
    · simp at hret
    · exact hgoes.labels t hne _ hret rfl

/-- **Nothing keeps a waiting task from being passed over.**  Whenever a task that has the
mutex runs and another one waits, the run can go on so that the waiting task has its turn
any number of times and the other one acquires the mutex as often, without a return of
the `mtx_lock` that waits. -/
theorem waiting_passed_over (hpin : ∀ t u, (ts t).pin = (ts u).pin → t = u) (first : τ)
    {portb : Byte} (hlow : ∀ t, portb.getLsbD (ts t).pin = false)
    (hrun : Run (pinTasks ts).client (pinStart first portb) h s) {p : PinPlace} {sreg : Bool}
    {k : MtxResult → PinPlace} (hat : s.place s.cTask = .own p) (hp : p.Loop)
    (hwait : s.place t = .inside (.lock .recli) sreg k) (n : Nat) :
    ∃ h' s', Run (pinTasks ts).client s h' s' ∧ s'.place t = .inside (.lock .recli) sreg k ∧
      n ≤ h'.countP (Acquires s.cTask) ∧ n ≤ h'.count (.switch t) ∧ ∀ op r, .ret t op r ∉ h' := by
  have hd := driven_run hpin first hlow hrun
  have hinv := inv_reached (pinStart_initial first portb) hrun
  clear hrun
  induction n generalizing h s p with
  | zero => exact ⟨[], s, .nil s, hwait, Nat.zero_le _, Nat.zero_le _, fun _ _ => List.not_mem_nil⟩
  | succ n ih =>
      obtain ⟨h₁, s₁, hrun₁, hcur₁, hat₁, hwait₁, hacq₁, hturn₁, hret₁⟩ :=
        passed_over hpin hd hinv hat hp hwait
      rw [← hcur₁] at hat₁
      obtain ⟨h₂, s₂, hrun₂, hwait₂, hacq₂, hturn₂, hret₂⟩ := ih hat₁ ⟨by simp, by simp⟩ hwait₁
        (hd.onward hpin hinv hrun₁) (inv_run hinv hrun₁)
      rw [hcur₁] at hacq₂
      refine ⟨h₁ ++ h₂, s₂, hrun₁.trans hrun₂, hwait₂, ?_, ?_, fun op r hc => ?_⟩
      · rw [List.countP_append]
        omega
      · rw [List.count_append]
        omega
      · rcases List.mem_append.mp hc with hc | hc
        · exact hret₁ op r hc
        · exact hret₂ op r hc

end Passed

/-- `task_2` waits, and `task_1` has the mutex a thousand times. -/
theorem waiting_passed_over_thousand : ∃ h s h' s',
    Run (pinTasks mutexTasks).client (pinStart 0 0x21) h s ∧
    Run (pinTasks mutexTasks).client s h' s' ∧ 1000 ≤ h'.countP (Acquires 0) ∧
    1000 ≤ h'.count (.switch 1) ∧ ∀ op r, .ret 1 op r ∉ h' := by
  obtain ⟨h, s, hrun, -, hcur, hwaits⟩ := played_beside
  obtain ⟨⟨i, h₀⟩, sreg, k, h₁⟩ := waitsBeside_places hwaits
  rw [← hcur] at h₀
  obtain ⟨h', s', hrun', -, hacq, hturn, hret⟩ :=
    waiting_passed_over (by decide) 0 (by decide) hrun h₀ ⟨by simp, by simp⟩ h₁ 1000
  rw [hcur] at hacq
  exact ⟨h, s, h', s', hrun, hrun', hacq, hturn, hret⟩

end Sys

end AtmegaScheduler
