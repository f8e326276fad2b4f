/-
Calls of `uart0_putc` that the transmitter cannot stand.

With interrupts disabled nothing takes a byte from the ring, so a call that finds the
ring full waits forever; and a call that does not wait ends with `reti`, which enables
interrupts in the middle of the section of its caller.

A call that has read `tx0_Head` and is then preempted by a whole call of another task uses
the same slot, so the byte stored there first is lost: the other one, or its own if it had
stored it already.  If the byte in the slot has been sent in between, the index the call
stores makes the ring look empty with the interrupt enabled, and the interrupt goes once
around the whole buffer.
-/
import AtmegaScheduler.Drivers.UsartTx

namespace AtmegaScheduler

open Avr Preemption

namespace Usart

variable {τ : Type} [DecidableEq τ] {zt zr : BufferSize}

/-- A byte in slot `head`, and `head` in `tx0_Head`. -/
def putAt (u : Usart zt zr) (head : Index zt) (data : Byte) : Usart zt zr :=
  { u with tx := { u.tx.write head data with head := head }, ucsr0b := u.ucsr0b ||| udrie }

/-! ### What a sequence of events shows -/

/-- The events lead from `s` to `s'`; the calls among them put the bytes `bs`, and the
interrupts send the bytes `out`. -/
def Shows (es : List (Step τ zt zr)) (s s' : World τ zt zr) (bs out : List Byte) : Prop :=
  ∀ h : Trace τ zt zr, ∃ h', play (usartCode zt zr) es (h, s) = some (h', s') ∧
    accepted h' = accepted h ++ bs ∧ sent h' = sent h ++ out

namespace Shows

variable {es es' : List (Step τ zt zr)} {s s' s'' : World τ zt zr} {bs bs' out out' : List Byte}
  {u u' : Usart zt zr} {i i' : Bool} {p : UsartPc zt zr} {goes : UsartPc zt zr ⊕ UsartResult}
  {e : Step τ zt zr}

theorem nil (s : World τ zt zr) : Shows [] s s [] [] := by
  intro h
  exact ⟨h, rfl, (List.append_nil _).symm, (List.append_nil _).symm⟩

/-- One event first. -/
theorem cons (hnext : s.next (usartCode zt zr) e = some s') (hrest : Shows es s' s'' bs out) :
    Shows (e :: es) s s'' ((acceptedBy (s, e)).toList ++ bs) ((sentBy (s, e)).toList ++ out) := by
  intro h
  obtain ⟨h', hplay, hacc, hsent⟩ := hrest (h ++ [(s, e)])
  refine ⟨h', ?_, ?_, ?_⟩
  · rw [play, hnext]
    exact hplay
  · rw [hacc, accepted_snoc, List.append_assoc]
  · rw [hsent, sent_snoc, List.append_assoc]

/-- A statement first. -/
theorem stmt (hstmt : usartStmt u i p = ⟨u', i', goes⟩)
    (hrest : Shows es (s.put u' i' goes.getLeft?) s'' bs out) :
    Shows (.stmt :: es) (s.put u i (some p)) s'' ((returning p).toList ++ bs) out := by
  have hcons := cons (next_put (C := usartCode zt zr) (s := s) hstmt) hrest
  rwa [acceptedBy_stmt (put_here ..)] at hcons

/-- One sequence after another. -/
theorem append (hfirst : Shows es s s' bs out) (hrest : Shows es' s' s'' bs' out') :
    Shows (es ++ es') s s'' (bs ++ bs') (out ++ out') := by
  intro h
  obtain ⟨h₁, hplay₁, hacc₁, hsent₁⟩ := hfirst h
  obtain ⟨h₂, hplay₂, hacc₂, hsent₂⟩ := hrest h₁
  refine ⟨h₂, ?_, ?_, ?_⟩
  · rw [play_append, hplay₁]
    exact hplay₂
  · rw [hacc₂, hacc₁, List.append_assoc]
  · rw [hsent₂, hsent₁, List.append_assoc]

/-- A switch to another task. -/
theorem switch (hi : s.iflag = true) (t : τ) :
    Shows [.switch t] s { s with cTask := t } [] [] := by
  have hnext : s.next (usartCode zt zr) (.switch t) = some { s with cTask := t } := by
    rw [State.next, hi]
    rfl
  exact cons hnext (nil _)

/-- The interrupt that sends. -/
theorem udre (hi : s.iflag = true) (hset : s.mem.ucsr0b &&& udrie ≠ 0) :
    Shows [.irq .udre] s { s with mem := (udre0 s.mem).1 } [] [(udre0 s.mem).2] := by
  have hnext : s.next (usartCode zt zr) (.irq .udre) =
      some { s with mem := (udre0 s.mem).1 } := by
    rw [State.next, if_pos hi]
    show (usartIrq s.mem .udre).map _ = _
    rw [usartIrq, if_pos hset]
    rfl
  exact cons hnext (nil _)

/-- A call begins. -/
theorem call (hout : s.here = none) (data : Byte) :
    Shows [.call (.put (uart0Putc data))] s
      (s.put s.mem s.iflag (some (.put (uart0Putc data)))) [] [] := by
  have hnext : s.next (usartCode zt zr) (.call (.put (uart0Putc data))) =
      some (s.put s.mem s.iflag (some (.put (uart0Putc data)))) := by
    rw [State.next, hout]
    rfl
  exact cons hnext (nil _)

end Shows

/-! ### A call without interruption -/

section Call

variable {s : World τ zt zr} {u : Usart zt zr} {data : Byte} {head : Index zt}

/-- From `st X, data` on. -/
theorem shows_store (s : World τ zt zr) (u : Usart zt zr) (i : Bool) (head : Index zt)
    (data : Byte) : Shows (List.replicate 6 .stmt)
      (s.put u i (some (.put ⟨true, data, .store head⟩))) (s.put (u.putAt head data) true none)
      [data] [] :=
  .stmt rfl <| .stmt rfl <| .stmt rfl <| .stmt rfl <| .stmt rfl <| .stmt rfl <| .nil _

/-- From the test on, when the ring is not full. -/
theorem shows_test (s : World τ zt zr) (i : Bool) (data : Byte) (hfree : u.tx.tail ≠ head) :
    Shows (List.replicate 7 .stmt) (s.put u i (some (.put ⟨true, data, .test head⟩)))
      (s.put (u.putAt head data) true none) [data] [] := by
  refine .stmt (?_ : usartStmt u i _ = ⟨u, i, .inl (.put ⟨true, data, .store head⟩)⟩)
    (shows_store s u i head data)
  show putStmt u i ⟨true, data, .test head⟩ = _
  unfold putStmt
  exact if_neg hfree

/-- A whole call. -/
theorem shows_putc (s : World τ zt zr) (i : Bool) (data : Byte)
    (hfree : u.tx.tail ≠ u.tx.head.next) :
    Shows (List.replicate 8 .stmt) (s.put u i (some (.put (uart0Putc data))))
      (s.put (u.putAt u.tx.head.next data) true none) [data] [] :=
  .stmt rfl (shows_test s i data hfree)

/-- What it leaves in the ring. -/
theorem holds_putAt {q : List Byte} (hq : u.tx.Holds q) (hfree : u.tx.tail ≠ u.tx.head.next)
    (data : Byte) : (u.putAt u.tx.head.next data).tx.Holds (q ++ [data]) :=
  (hq.write data).push hfree (UsartRing.read_write_self _ _ _)

end Call

/-! ### The interrupts until the ring is empty -/

/-- With `UDRIE0` set just when bytes are waiting, as many interrupts as there are bytes
send them all and then stay off. -/
theorem shows_drain (q : List Byte) : ∀ s : World τ zt zr, s.iflag = true → s.mem.tx.Holds q →
    (s.mem.ucsr0b &&& udrie ≠ 0 ↔ q ≠ []) →
    ∃ s', Shows (List.replicate q.length (.irq .udre)) s s' [] q ∧
      s'.mem.tx.Holds [] ∧ s'.mem.ucsr0b &&& udrie = 0 := by
  induction q with
  | nil =>
      intro s _ hq hflag
      exact ⟨s, Shows.nil s, hq, not_not.mp fun hc => hflag.mp hc rfl⟩
  | cons b rest ih =>
      intro s hi hq hflag
      have hset : s.mem.ucsr0b &&& udrie ≠ 0 := hflag.mpr (List.cons_ne_nil b rest)
      have hctl : (udre0 s.mem).1.ucsr0b &&& udrie ≠ 0 ↔ rest ≠ [] := by
        rw [(udre0_control s.mem).1]
        have hempty := hq.pop.empty_iff
        exact ⟨fun hne hnil => hne.1 (hempty.mpr hnil).symm,
          fun hne => ⟨fun heq => hne (hempty.mp heq.symm), hset⟩⟩
      obtain ⟨s', hshows, hdone⟩ := ih { s with mem := (udre0 s.mem).1 } hi hq.pop hctl
      have hbyte : (udre0 s.mem).2 = b := hq.front
      have hfirst := Shows.udre hi hset
      rw [hbyte] at hfirst
      exact ⟨s', hfirst.append hshows, hdone⟩

/-- **No byte gets stuck.**  Wherever a run stands with interrupts enabled, the next
interrupts that send, one for each byte in the ring, send all that has been put. -/
theorem drained {s₀ s : World τ zt zr} {h : Trace τ zt zr} (hrun : Run (usartCode zt zr) s₀ h s)
    (h₀ : s₀.mem.Idle) (hout : s₀.Outside) (hapart : TxApart h) (hi : s.iflag = true) :
    ∃ h' s', play (usartCode zt zr)
        (List.replicate s.mem.tx.bytes.length (.irq .udre)) (h, s) = some (h', s') ∧
      sent h' = accepted h' ∧ accepted h' = accepted h ∧ usartIrq s'.mem .udre = none := by
  have hk := tx_kept hrun h₀ hout hapart
  obtain ⟨q, hq, hall, hflag, _⟩ := hk.quiet fun p hp => hk.unmasked hi hp
  obtain ⟨s', hshows, _, hoff⟩ := shows_drain q s hi hq hflag
  obtain ⟨h', hplay, hacc, hsent⟩ := hshows h
  rw [List.append_nil] at hacc
  refine ⟨h', s', ?_, ?_, hacc, ?_⟩
  · rw [hq.bytes_eq]
    exact hplay
  · rw [hsent, hacc, hall]
  · rw [usartIrq, if_neg (not_not.mpr hoff)]

theorem drained_two : ∃ h s h' s', Run (usartCode four four) afterInit h s ∧
    accepted h = [65, 66] ∧
    play (usartCode four four) (List.replicate s.mem.tx.bytes.length (.irq .udre)) (h, s) =
      some (h', s') ∧ sent h' = [65, 66] ∧ usartIrq s'.mem .udre = none := by
  have hplay : ((play (usartCode four four) (wholeCall false 65 ++ wholeCall true 66)
      ([], afterInit)).map fun c => decide (
        accepted c.1 = [65, 66] ∧ TxApart c.1 ∧ c.2.iflag = true)) = some true := by decide +kernel
  obtain ⟨⟨h, s⟩, hc, hdec⟩ := Option.map_eq_some_iff.mp hplay
  obtain ⟨hacc, hapart, hi⟩ := of_decide_eq_true hdec
  have hrun := afterInit_run hc
  obtain ⟨h', s', hdrain, hsent, hsame, hoff⟩ :=
    drained hrun uart0Init_idle afterInit_outside hapart hi
  exact ⟨h, s, h', s', hrun, hacc, hdrain, hsent.trans (hsame.trans hacc), hoff⟩

/-! ### With interrupts disabled -/

/-- A call that waits with interrupts disabled. -/
structure Stuck (u : Usart zt zr) (t : τ) (data : Byte) (s : World τ zt zr) : Prop where
  mem : s.mem = u
  iflag : s.iflag = false
  cTask : s.cTask = t
  here : s.here = some (.put (uart0Putc data)) ∨
    s.here = some (.put ⟨true, data, .test u.tx.head.next⟩)

/-- It goes on waiting, whatever happens. -/
theorem Stuck.next {u : Usart zt zr} {t : τ} {data : Byte} {s s' : World τ zt zr}
    {e : Step τ zt zr} (hs : Stuck u t data s) (hfull : u.tx.tail = u.tx.head.next)
    (hnext : s.next (usartCode zt zr) e = some s') : Stuck u t data s' := by
  obtain ⟨rfl, hi, rfl, hhere⟩ := hs
  have htest : usartStmt s.mem s.iflag (.put ⟨true, data, .test s.mem.tx.head.next⟩) =
      ⟨s.mem, s.iflag, .inl (.put ⟨true, data, .test s.mem.tx.head.next⟩)⟩ := by
    show putStmt s.mem s.iflag ⟨true, data, .test s.mem.tx.head.next⟩ = _
    unfold putStmt
    exact if_pos hfull
  have hafter : ∀ p, usartStmt s.mem s.iflag p =
        ⟨s.mem, s.iflag, .inl (.put ⟨true, data, .test s.mem.tx.head.next⟩)⟩ →
      Stuck s.mem s.cTask data (s.after (usartCode zt zr) p) := by
    intro p hp
    have hstmt : (usartCode zt zr).stmt s.mem s.iflag p =
        ⟨s.mem, s.iflag, .inl (.put ⟨true, data, .test s.mem.tx.head.next⟩)⟩ := hp
    refine ⟨?_, ?_, rfl, Or.inr ?_⟩
    · show ((usartCode zt zr).stmt s.mem s.iflag p).mem = _
      rw [hstmt]
    · show ((usartCode zt zr).stmt s.mem s.iflag p).iflag = _
      rw [hstmt]
      exact hi
    · show (s.goto ((usartCode zt zr).stmt s.mem s.iflag p).goes.getLeft?).here = _
      rw [goto_here, hstmt]
      rfl
  rcases hhere with hp | hp
  · obtain ⟨_, rfl⟩ := next_locked hi hp hnext
    exact hafter _ rfl
  · obtain ⟨_, rfl⟩ := next_locked hi hp hnext
    exact hafter _ htest

theorem Stuck.run {u : Usart zt zr} {t : τ} {data : Byte} {s₀ s : World τ zt zr}
    {h : Trace τ zt zr} (hs : Stuck u t data s₀) (hfull : u.tx.tail = u.tx.head.next)
    (hrun : Run (usartCode zt zr) s₀ h s) : Stuck u t data s := by
  induction hrun with
  | nil => exact hs
  | snoc _ hnext ih => exact ih.next hfull hnext

/-- **A call with interrupts disabled** returns just when the ring is not full, and it
returns with interrupts enabled. -/
theorem putc_disabled {s : World τ zt zr} {q : List Byte} (hout : s.here = none)
    (hi : s.iflag = false) (hq : s.mem.tx.Holds q) (data : Byte) :
    ((∃ h s', Run (usartCode zt zr) (s.goto (some (.put (uart0Putc data)))) h s' ∧
        s'.here = none) ↔ q.length + 1 < zt.size) ∧
      (q.length + 1 < zt.size → ∃ h s',
        play (usartCode zt zr) (.call (.put (uart0Putc data)) :: List.replicate 8 .stmt) ([], s) =
          some (h, s') ∧ s'.here = none ∧ s'.iflag = true ∧ s'.mem.tx.Holds (q ++ [data])) := by
  have hcall : s.goto (some (.put (uart0Putc data))) =
      s.put s.mem s.iflag (some (.put (uart0Putc data))) := rfl
  have hfree : q.length + 1 < zt.size → s.mem.tx.tail ≠ s.mem.tx.head.next :=
    fun hroom hfull => absurd (hq.full_iff.mp hfull) (by omega)
  refine ⟨⟨fun hret => ?_, fun hroom => ?_⟩, fun hroom => ?_⟩
  · obtain ⟨h, s', hrun, hnone⟩ := hret
    by_contra hc
    have hshort := hq.short
    have hfull : s.mem.tx.tail = s.mem.tx.head.next := hq.full_iff.mpr (by omega)
    have hstuck : Stuck s.mem s.cTask data (s.goto (some (.put (uart0Putc data)))) :=
      ⟨rfl, hi, rfl, Or.inl (goto_here s _)⟩
    rcases (hstuck.run hfull hrun).here with hp | hp
    · exact absurd (hnone.symm.trans hp) (by simp)
    · exact absurd (hnone.symm.trans hp) (by simp)
  · obtain ⟨h', hplay, -⟩ := shows_putc s s.iflag data (hfree hroom) []
    rw [hcall]
    exact ⟨_, _, play_run (.nil) hplay, put_here ..⟩
  · obtain ⟨h', hplay, -⟩ :=
      (Shows.call hout data).append (shows_putc s s.iflag data (hfree hroom)) []
    exact ⟨h', _, hplay, put_here .., rfl, holds_putAt hq (hfree hroom) data⟩

/-- The first call after `uart_init`, in a section with interrupts disabled. -/
theorem putc_disabled_first : ∃ h s',
    play (usartCode four four) (.call (.put (uart0Putc 65)) :: List.replicate 8 .stmt)
      ([], { afterInit with iflag := false }) = some (h, s') ∧ s'.iflag = true := by
  obtain ⟨-, hroom⟩ := putc_disabled (s := { afterInit with iflag := false }) rfl rfl
    uart0Init_idle.tx 65
  obtain ⟨h, s', hplay, -, hi, -⟩ := hroom (by decide)
  exact ⟨h, s', hplay, hi⟩

/-! ### Two calls at once -/

section Overlap

variable {s : World τ zt zr} {t v : τ} {q : List Byte} {b c : Byte}

/-- A switch back to `t`, and `n` statements there. -/
def resume (t : τ) (n : Nat) : List (Step τ zt zr) := .switch t :: List.replicate n .stmt

/-- The interrupt that sends, `n` times. -/
def sends (n : Nat) : List (Step τ zt zr) := List.replicate n (.irq .udre)

/-- Another task puts `c` from beginning to end. -/
theorem shows_between (v : τ) (hi : s.iflag = true) (hout : s.place v = none)
    (hfree : s.mem.tx.tail ≠ s.mem.tx.head.next) (c : Byte) :
    Shows (wholeCall v c) s (({ s with cTask := v } : World τ zt zr).put
        (s.mem.putAt s.mem.tx.head.next c) true none) [c] [] :=
  ((Shows.switch hi v).append (Shows.call (s := { s with cTask := v }) hout c)).append
    (shows_putc _ s.iflag c hfree)

/-- Back in the call that was preempted. -/
theorem back {m : Usart zt zr} {p : UsartPc zt zr} (hvt : v ≠ t) (hp : s.place t = some p) :
    ({ ({ s with cTask := v } : World τ zt zr).put m true none with cTask := t } : World τ zt zr) =
      ({ ({ s with cTask := v } : World τ zt zr).put m true none with
        cTask := t } : World τ zt zr).put m true (some p) := by
  refine (put_self ?_).symm
  show (({ s with cTask := v } : World τ zt zr).put m true none).place t = some p
  rw [put_place hvt.symm]
  exact hp

/-- Only the byte stored last stays. -/
theorem putAt_putAt (u : Usart zt zr) (head : Index zt) (c b : Byte) :
    ((u.putAt head c).putAt head b).tx = (u.putAt head b).tx := by
  unfold putAt UsartRing.write
  simp only [Vector.set_set]

/-- `head` in `tx0_Head`, and nothing in its slot. -/
def publishAt (u : Usart zt zr) (head : Index zt) : Usart zt zr :=
  { u with tx := { u.tx with head := head }, ucsr0b := u.ucsr0b ||| udrie }

/-- From `cli` on. -/
theorem shows_cli (s : World τ zt zr) (u : Usart zt zr) (i : Bool) (head : Index zt)
    (data : Byte) : Shows (List.replicate 5 .stmt)
      (s.put u i (some (.put ⟨true, data, .cli head true⟩))) (s.put (u.publishAt head) true none)
      [data] [] :=
  .stmt rfl <| .stmt rfl <| .stmt rfl <| .stmt rfl <| .stmt rfl <| .nil _

/-- What is at the index `head` once a call that has read it and was preempted at `pc` is
over: its own byte `b`, or the byte `c` of the other call if `b` had been stored before. -/
def kept (pc : PutPc zt) (b c : Byte) : Byte :=
  match pc with
  | .cli _ _ => c
  | _ => b

/-- **A byte is lost.**  A task has read `tx0_Head` in order to put `b` and is preempted
before it stores it; another task puts `c` meanwhile, and the first goes on.  Both calls
return, and the ring has only one of the two bytes: `c` if the first task had stored `b` in
the ring before, and `b` otherwise. -/
theorem putc_overlap (hvt : v ≠ s.cTask) (hi : s.iflag = true) (hout : s.place v = none)
    (hq : s.mem.tx.Holds q) (hroom : q.length + 1 < zt.size) {pc : PutPc zt}
    (hpc : pc = .test s.mem.tx.head.next ∨ pc = .store s.mem.tx.head.next ∨
      pc = .cli s.mem.tx.head.next true)
    (hat : s.here = some (.put ⟨true, b, pc⟩)) (c : Byte) :
    ∃ n s', Shows (wholeCall v c ++ resume s.cTask n) s s' [c, b] [] ∧
      s'.mem.tx.Holds (q ++ [kept pc b c]) := by
  have hfree : s.mem.tx.tail ≠ s.mem.tx.head.next :=
    fun hfull => absurd (hq.full_iff.mp hfull) (by omega)
  have hfirst := shows_between v hi hout hfree c
  have hswitch := Shows.switch (s := ({ s with cTask := v } : World τ zt zr).put
    (s.mem.putAt s.mem.tx.head.next c) true none) rfl s.cTask
  rw [back hvt hat] at hswitch
  have hlast : ((s.mem.putAt s.mem.tx.head.next c).putAt s.mem.tx.head.next b).tx.Holds
      (q ++ [b]) := by
    rw [putAt_putAt]
    exact holds_putAt hq hfree b
  rcases hpc with rfl | rfl | rfl
  · exact ⟨7, _, hfirst.append (hswitch.append (shows_test _ true b hfree)), hlast⟩
  · exact ⟨6, _, hfirst.append (hswitch.append (shows_store _ _ true _ b)), hlast⟩
  · exact ⟨5, _, hfirst.append (hswitch.append (shows_cli _ _ true _ b)), holds_putAt hq hfree c⟩

/-- Task `false` is preempted in front of the test. -/
theorem putc_overlap_first : ∃ n s', Shows (wholeCall true 67 ++ resume false n)
      (afterInit.goto (some (.put ⟨true, 66, .test (Index.next .zero)⟩))) s' [67, 66] [] ∧
    s'.mem.tx.Holds ([] ++ [66]) :=
  putc_overlap (s := afterInit.goto (some (.put ⟨true, 66, .test (Index.next .zero)⟩)))
    (by decide) rfl rfl uart0Init_idle.tx (by decide) (Or.inl rfl) rfl 67

/-- With equal indices and `UDRIE0` set the interrupt sends every slot, the one at the
indices last. -/
theorem shows_round (hi : s.iflag = true) (hsame : s.mem.tx.tail = s.mem.tx.head)
    (hset : s.mem.ucsr0b &&& udrie ≠ 0) (hz : 1 < zt.size) :
    ∃ s' stale, Shows (sends 1 ++ sends (zt.size - 1)) s s' []
        (stale ++ [s.mem.tx.read s.mem.tx.head]) ∧ stale.length + 1 = zt.size := by
  have hne : s.mem.tx.tail.next ≠ s.mem.tx.head := by
    rw [hsame]
    exact Index.next_ne hz _
  obtain ⟨q, hq⟩ := (udre0 s.mem).1.tx.exists_holds
  have hfull : q.length + 1 = zt.size := by
    refine hq.full_iff.mp ?_
    show s.mem.tx.tail.next = s.mem.tx.head.next
    rw [hsame]
  have hq0 : q ≠ [] := by
    intro hnil
    rw [hnil, List.length_nil] at hfull
    omega
  have hctl : (udre0 s.mem).1.ucsr0b &&& udrie ≠ 0 :=
    (udre0_control s.mem).1.mpr ⟨hne, hset⟩
  obtain ⟨s', hdrain, -⟩ := shows_drain q { s with mem := (udre0 s.mem).1 } hi hq
    ⟨fun _ => hq0, fun _ => hctl⟩
  obtain ⟨init, b, rfl⟩ : ∃ init b, q = init ++ [b] :=
    ⟨q.dropLast, q.getLast hq0, (List.dropLast_append_getLast hq0).symm⟩
  have hlast : s.mem.tx.read s.mem.tx.head = b := hq.last
  have hlen : (init ++ [b]).length = zt.size - 1 := by omega
  rw [hlen] at hdrain
  refine ⟨s', (udre0 s.mem).2 :: init, ?_, ?_⟩
  · rw [hlast]
    exact (Shows.udre hi hset).append hdrain
  · rw [List.length_append, List.length_singleton] at hfull
    exact hfull

end Overlap

end Usart

end AtmegaScheduler
