/-
What the transmitter sends.

The bytes written to `UDR0` are those of the calls that have put one, in the order in
which the calls returned, and what has been put but not sent is in the ring.  No byte is
lost, sent twice or sent out of order, wherever the interrupts fall between the
statements of the calls.

The library is not written for calls from several tasks at once: the index a call has
read from `tx0_Head` is good until another call stores one.  So this holds of the runs
in which a task reads `tx0_Head` to put a byte while no other task is between its own
read and its own store.

`uart0_flush` and `uart0_BytesToSend` may be called at any time.  They read both indices,
and what they find is right if nobody has put a byte between the two reads.
-/
import AtmegaScheduler.Drivers.Usart
import Mathlib.Data.Fintype.Basic

namespace AtmegaScheduler

open Avr Preemption

namespace Usart

variable {τ : Type} [DecidableEq τ] {zt zr : BufferSize}

/-- A state of tasks that use the driver. -/
abbrev World (τ : Type) (zt zr : BufferSize) : Type := State τ (Usart zt zr) (UsartPc zt zr)

abbrev Step (τ : Type) (zt zr : BufferSize) : Type := Preemption.Event τ (UsartPc zt zr) UsartIrq

abbrev Trace (τ : Type) (zt zr : BufferSize) : Type :=
  History τ (Usart zt zr) (UsartPc zt zr) UsartIrq

/-- The byte of a call that has put it and is about to return. -/
def returning : UsartPc zt zr → Option Byte
  | .put ⟨_, data, .restore _⟩ => some data
  | _ => none

/-- The byte of a call that returns with this event. -/
def acceptedBy (c : World τ zt zr × Step τ zt zr) : Option Byte :=
  match c.2 with
  | .stmt => c.1.here.bind returning
  | _ => none

/-- The bytes that have been put. -/
def accepted (h : Trace τ zt zr) : List Byte := shown acceptedBy h

/-- The byte an interrupt writes to `UDR0`. -/
def sentBy (c : World τ zt zr × Step τ zt zr) : Option Byte :=
  match c.2 with
  | .irq .udre => some (udre0 c.1.mem).2
  | _ => none

/-- The bytes that have been sent. -/
def sent (h : Trace τ zt zr) : List Byte := shown sentBy h

/-- A call that has read `tx0_Head` to put a byte and has not stored it yet. -/
def txHeld : UsartPc zt zr → Bool
  | .put ⟨_, _, .test _⟩ | .put ⟨_, _, .store _⟩ | .put ⟨_, _, .save _⟩
  | .put ⟨_, _, .cli _ _⟩ | .put ⟨_, _, .publish _ _⟩ => true
  | _ => false

/-- The read with which that begins. -/
def txAcquires : UsartPc zt zr → Bool
  | .put ⟨_, _, .load⟩ => true
  | _ => false

/-- Behind the `cli` of a call. -/
def txMasked : UsartPc zt zr → Bool
  | .put ⟨_, _, .publish _ _⟩ | .put ⟨_, _, .loadControl _⟩ | .put ⟨_, _, .storeControl _ _⟩
  | .put ⟨_, _, .restore _⟩ => true
  | _ => false

/-- No task reads `tx0_Head` to put a byte while another task is between its read and its
store. -/
def TxApart (h : Trace τ zt zr) : Prop := Exclusive txHeld txAcquires h

instance [Fintype τ] (h : Trace τ zt zr) : Decidable (TxApart h) :=
  inferInstanceAs (Decidable (Exclusive txHeld txAcquires h))

/-! ### What holds where -/

/-- The ring holds what has been put and not sent, and the interrupt is enabled when
that is anything at all; `k` are the other bits of the register. -/
def TxSteady (k : Byte) (h : Trace τ zt zr) (u : Usart zt zr) : Prop :=
  ∃ q, u.tx.Holds q ∧ accepted h = sent h ++ q ∧ (u.ucsr0b &&& udrie ≠ 0 ↔ q ≠ []) ∧
    u.ucsr0b &&& ~~~udrie = k

/-- What a call knows before its `cli`. -/
def txLearnt (u : Usart zt zr) : UsartPc zt zr → Prop
  | .put ⟨_, _, .test head⟩ => head = u.tx.head.next
  | .put ⟨_, _, .store head⟩ => head = u.tx.head.next ∧ u.tx.tail ≠ head
  | .put ⟨_, data, .save head⟩ | .put ⟨_, data, .cli head _⟩ =>
      head = u.tx.head.next ∧ u.tx.tail ≠ head ∧ u.tx.read head = data
  | _ => True

/-- The byte of the call is in the ring, and everything before it has been accounted
for. -/
def TxPending (k : Byte) (h : Trace τ zt zr) (u : Usart zt zr) (data : Byte) : Prop :=
  ∃ q, u.tx.Holds (q ++ [data]) ∧ accepted h = sent h ++ q ∧ u.ucsr0b &&& ~~~udrie = k

/-- What holds behind the `cli`. -/
def txInside (k : Byte) (h : Trace τ zt zr) (u : Usart zt zr) : UsartPc zt zr → Prop
  | .put ⟨_, data, .publish head _⟩ => TxSteady k h u ∧
      head = u.tx.head.next ∧ u.tx.tail ≠ head ∧ u.tx.read head = data
  | .put ⟨_, data, .loadControl _⟩ => TxPending k h u data
  | .put ⟨_, data, .storeControl r25 _⟩ => TxPending k h u data ∧ r25 = u.ucsr0b
  | .put ⟨_, data, .restore _⟩ => TxPending k h u data ∧ u.ucsr0b &&& udrie ≠ 0
  | _ => False

variable (τ zt zr) in
def txAssertions (k : Byte) : Assertions τ (Usart zt zr) (UsartPc zt zr) UsartIrq where
  held := txHeld
  acquires := txAcquires
  masked := txMasked
  steady := TxSteady k
  learnt := txLearnt
  inside := txInside k

section Steps

variable {k : Byte} {h : Trace τ zt zr} {s : World τ zt zr} {e : Step τ zt zr}
  {u u' : Usart zt zr} {i : Bool} {q : List Byte} {p p' : UsartPc zt zr}

omit [DecidableEq τ] in
theorem accepted_snoc (h : Trace τ zt zr) (c : World τ zt zr × Step τ zt zr) :
    accepted (h ++ [c]) = accepted h ++ (acceptedBy c).toList := shown_snoc ..

omit [DecidableEq τ] in
theorem sent_snoc (h : Trace τ zt zr) (c : World τ zt zr × Step τ zt zr) :
    sent (h ++ [c]) = sent h ++ (sentBy c).toList := shown_snoc ..

omit [DecidableEq τ] in
/-- An event that shows nothing. -/
theorem silent (hacc : acceptedBy (s, e) = none) (hsent : sentBy (s, e) = none)
    (hall : accepted h = sent h ++ q) : accepted (h ++ [(s, e)]) = sent (h ++ [(s, e)]) ++ q := by
  rw [accepted_snoc, sent_snoc, hacc, hsent, Option.toList_none, List.append_nil, List.append_nil,
    hall]

omit [DecidableEq τ] in
theorem TxSteady.quiet (hst : TxSteady k h u) (hacc : acceptedBy (s, e) = none)
    (hsent : sentBy (s, e) = none) (hring : ∀ q, u.tx.Holds q → u'.tx.Holds q)
    (hctl : u'.ucsr0b = u.ucsr0b) : TxSteady k (h ++ [(s, e)]) u' := by
  obtain ⟨q, hq, hall, hflag, hbits⟩ := hst
  exact ⟨q, hring q hq, silent hacc hsent hall,
    by rw [hctl]; exact hflag, by rw [hctl]; exact hbits⟩

omit [DecidableEq τ] in
theorem TxPending.quiet {data : Byte} (hp : TxPending k h u data)
    (hacc : acceptedBy (s, e) = none) (hsent : sentBy (s, e) = none) (hring : u'.tx = u.tx)
    (hctl : u'.ucsr0b &&& ~~~udrie = u.ucsr0b &&& ~~~udrie) :
    TxPending k (h ++ [(s, e)]) u' data := by
  obtain ⟨q, hq, hall, hbits⟩ := hp
  exact ⟨q, by rw [hring]; exact hq, silent hacc hsent hall, hctl.trans hbits⟩

omit [DecidableEq τ] in
theorem acceptedBy_stmt (hat : s.here = some p) :
    acceptedBy (s, (.stmt : Step τ zt zr)) = returning p := by
  unfold acceptedBy
  rw [hat]
  rfl

/-- Setting `UDRIE0` sets it and leaves the other bits alone. -/
theorem or_udrie (v : Byte) :
    (v ||| udrie) &&& udrie ≠ 0 ∧ (v ||| udrie) &&& ~~~udrie = v &&& ~~~udrie := by
  revert v
  decide

/-- Clearing it does the same. -/
theorem and_not_udrie (v : Byte) :
    (v &&& ~~~udrie) &&& udrie = 0 ∧ (v &&& ~~~udrie) &&& ~~~udrie = v &&& ~~~udrie := by
  revert v
  decide

/-! ### One statement -/

omit [DecidableEq τ] in
/-- **A statement** of a call that puts a byte. -/
theorem put_stays {c : PutCall zt} (hat : s.here = some (.put c))
    (hP : (txAssertions τ zt zr k).At h s.mem s.iflag (.put c))
    (hgoes : (putStmt s.mem s.iflag c).goes = .inl p') :
    (txHeld p' = true → txHeld (.put c : UsartPc zt zr) = true ∨
      txAcquires (.put c : UsartPc zt zr) = true) ∧
    (txAssertions τ zt zr k).At (h ++ [(s, .stmt)]) (putStmt s.mem s.iflag c).mem
      (putStmt s.mem s.iflag c).iflag p' := by
  obtain ⟨blocking, data, pc⟩ := c
  cases pc with
  | load =>
      obtain rfl := Sum.inl.inj hgoes
      obtain ⟨hst, _⟩ := (at_free rfl).mp hP
      refine ⟨fun _ => Or.inr rfl, (at_free rfl).mpr ⟨?_, rfl⟩⟩
      exact hst.quiet (acceptedBy_stmt hat) rfl (fun _ hq => hq) rfl
  | test head =>
      obtain ⟨hst, hhead⟩ := (at_free rfl).mp hP
      have hnext : TxSteady k (h ++ [(s, .stmt)]) s.mem :=
        hst.quiet (acceptedBy_stmt hat) rfl (fun _ hq => hq) rfl
      unfold putStmt at hgoes ⊢
      by_cases hfull : s.mem.tx.tail = head
      · cases blocking with
        | false =>
            simp only [if_pos hfull] at hgoes
            exact absurd hgoes (by simp)
        | true =>
            simp only [if_pos hfull] at hgoes ⊢
            obtain rfl := Sum.inl.inj hgoes
            exact ⟨fun _ => Or.inl rfl, (at_free rfl).mpr ⟨hnext, hhead⟩⟩
      · simp only [if_neg hfull] at hgoes ⊢
        obtain rfl := Sum.inl.inj hgoes
        exact ⟨fun _ => Or.inl rfl, (at_free rfl).mpr ⟨hnext, hhead, hfull⟩⟩
  | store head =>
      obtain ⟨hst, hhead, hfree⟩ := (at_free rfl).mp hP
      obtain rfl := Sum.inl.inj hgoes
      have hnext : TxSteady k (h ++ [(s, .stmt)])
          { s.mem with tx := s.mem.tx.write head data } := by
        refine hst.quiet (acceptedBy_stmt hat) rfl (fun q hq => ?_) rfl
        rw [hhead]
        exact hq.write data
      have hread : (s.mem.tx.write head data).read head = data :=
        UsartRing.read_write_self _ _ _
      cases blocking with
      | true => exact ⟨fun _ => Or.inl rfl, (at_free rfl).mpr ⟨hnext, hhead, hfree, hread⟩⟩
      | false => exact ⟨fun _ => Or.inl rfl, (at_free rfl).mpr ⟨hnext, hhead, hfree, hread⟩⟩
  | save head =>
      obtain ⟨hst, hlearnt⟩ := (at_free rfl).mp hP
      obtain rfl := Sum.inl.inj hgoes
      refine ⟨fun _ => Or.inl rfl, (at_free rfl).mpr ⟨?_, hlearnt⟩⟩
      exact hst.quiet (acceptedBy_stmt hat) rfl (fun _ hq => hq) rfl
  | cli head sreg =>
      obtain ⟨hst, hlearnt⟩ := (at_free rfl).mp hP
      obtain rfl := Sum.inl.inj hgoes
      refine ⟨fun _ => Or.inl rfl, (at_masked rfl).mpr ⟨rfl, ?_, hlearnt⟩⟩
      exact hst.quiet (acceptedBy_stmt hat) rfl (fun _ hq => hq) rfl
  | publish head sreg =>
      obtain ⟨hi, hst, hhead, hfree, hread⟩ := (at_masked rfl).mp hP
      obtain rfl := Sum.inl.inj hgoes
      obtain ⟨q, hq, hall, _, hbits⟩ := hst
      refine ⟨fun hc => absurd hc (by simp [txHeld, PutCall.at]),
        (at_masked rfl).mpr ⟨hi, q, ?_, silent (acceptedBy_stmt hat) rfl hall, hbits⟩⟩
      subst hhead
      exact hq.push hfree hread
  | loadControl sreg =>
      obtain ⟨hi, hpend⟩ := (at_masked rfl).mp hP
      obtain rfl := Sum.inl.inj hgoes
      refine ⟨fun hc => absurd hc (by simp [txHeld, PutCall.at]), (at_masked rfl).mpr ⟨hi, ?_, rfl⟩⟩
      exact TxPending.quiet hpend (acceptedBy_stmt hat) rfl rfl rfl
  | storeControl r25 sreg =>
      obtain ⟨hi, hpend, hr25⟩ := (at_masked rfl).mp hP
      obtain rfl := Sum.inl.inj hgoes
      refine ⟨fun hc => absurd hc (by simp [txHeld, PutCall.at]),
        (at_masked rfl).mpr ⟨hi, ?_, (or_udrie r25).1⟩⟩
      refine TxPending.quiet hpend (acceptedBy_stmt hat) rfl rfl ?_
      rw [← hr25]
      exact (or_udrie r25).2
  | restore sreg => exact absurd hgoes (by simp [putStmt])

omit [DecidableEq τ] in
/-- Where a call that puts a byte ends. -/
theorem put_leaves {c : PutCall zt} {r : UsartResult} (hat : s.here = some (.put c))
    (hP : (txAssertions τ zt zr k).At h s.mem s.iflag (.put c))
    (hgoes : (putStmt s.mem s.iflag c).goes = .inr r) :
    TxSteady k (h ++ [(s, .stmt)]) (putStmt s.mem s.iflag c).mem := by
  obtain ⟨blocking, data, pc⟩ := c
  rw [putStmt_mem]
  cases pc with
  | test head =>
      obtain ⟨hst, _⟩ := (at_free rfl).mp hP
      exact hst.quiet (acceptedBy_stmt hat) rfl (fun _ hq => hq) rfl
  | restore sreg =>
      obtain ⟨_, ⟨q, hq, hall, hbits⟩, hset⟩ := (at_masked rfl).mp hP
      refine ⟨q ++ [data], hq, ?_, ⟨fun _ => by simp, fun _ => hset⟩, hbits⟩
      rw [accepted_snoc, sent_snoc, acceptedBy_stmt hat, hall]
      simp [returning, sentBy]
  | _ => exact absurd hgoes (by simp [putStmt])

/-- Only calls that have read `tx0_Head` to put a byte change the ring. -/
theorem tx_of_unheld (hp : txHeld p = false) : (usartStmt u i p).mem.tx = u.tx := by
  by_cases hput : p.isPut = false
  · exact (usartStmt_tx hput).1
  · cases p with
    | put c =>
        show (putStmt u i c : UsartEffect zt zr).mem.tx = u.tx
        obtain ⟨blocking, data, pc⟩ := c
        rw [putStmt_mem]
        cases pc with
        | store head => exact absurd hp (by simp [txHeld])
        | publish head sreg => exact absurd hp (by simp [txHeld])
        | _ => rfl
    | _ => exact absurd rfl hput

/-- Nothing is asserted at the other places. -/
theorem txLearnt_of_unheld (hp : txHeld p = false) : txLearnt u p := by
  unfold txLearnt
  split
  · exact absurd hp (by simp [txHeld])
  · exact absurd hp (by simp [txHeld])
  · exact absurd hp (by simp [txHeld])
  · exact absurd hp (by simp [txHeld])
  · trivial

theorem txLearnt_congr (htx : u'.tx = u.tx) (hp : txLearnt u p) : txLearnt u' p := by
  unfold txLearnt at hp ⊢
  rw [htx]
  exact hp

/-- A call that puts nothing asserts nothing and masks nothing. -/
theorem reader_free (hp : p.isPut = false) :
    returning p = none ∧ txMasked p = false ∧ txHeld p = false := by
  cases p with
  | put c => exact absurd hp (by simp [UsartPc.isPut])
  | _ => exact ⟨rfl, rfl, rfl⟩

omit [DecidableEq τ] in
theorem reader_steady (hat : s.here = some p) (hp : p.isPut = false)
    (hP : (txAssertions τ zt zr k).At h s.mem s.iflag p) :
    TxSteady k (h ++ [(s, .stmt)]) (usartStmt s.mem s.iflag p).mem := by
  obtain ⟨hret, hfree, -⟩ := reader_free hp
  have hst : TxSteady k h s.mem := ((at_free hfree).mp hP).1
  obtain ⟨htx, hctl⟩ := usartStmt_tx (u := s.mem) (i := s.iflag) hp
  exact hst.quiet ((acceptedBy_stmt hat).trans hret) rfl (fun q hq => by rw [htx]; exact hq) hctl

omit [DecidableEq τ] in
theorem tx_stays (hat : s.here = some p) (hP : (txAssertions τ zt zr k).At h s.mem s.iflag p)
    (hgoes : (usartStmt s.mem s.iflag p).goes = .inl p') :
    (txHeld p' = true → txHeld p = true ∨ txAcquires p = true) ∧
    (txAssertions τ zt zr k).At (h ++ [(s, .stmt)]) (usartStmt s.mem s.iflag p).mem
      (usartStmt s.mem s.iflag p).iflag p' := by
  by_cases hput : p.isPut = false
  · obtain ⟨-, hmask, hheld⟩ := reader_free ((usartStmt_goes hgoes).1.trans hput)
    refine ⟨fun hc => absurd (hheld.symm.trans hc) (by decide), (at_free hmask).mpr ⟨?_, ?_⟩⟩
    · exact reader_steady hat hput hP
    · exact txLearnt_of_unheld hheld
  · cases p with
    | put c => exact put_stays hat hP hgoes
    | _ => exact absurd rfl hput

omit [DecidableEq τ] in
theorem tx_leaves {r : UsartResult} (hat : s.here = some p)
    (hP : (txAssertions τ zt zr k).At h s.mem s.iflag p)
    (hgoes : (usartStmt s.mem s.iflag p).goes = .inr r) :
    TxSteady k (h ++ [(s, .stmt)]) (usartStmt s.mem s.iflag p).mem := by
  cases p with
  | put c => exact put_leaves hat hP hgoes
  | _ => exact reader_steady hat rfl hP

/-! ### The interrupts -/

/-- `UDRIE0` after the interrupt tells whether there is anything left. -/
theorem udre0_control (u : Usart zt zr) : ((udre0 u).1.ucsr0b &&& udrie ≠ 0 ↔
      u.tx.tail.next ≠ u.tx.head ∧ u.ucsr0b &&& udrie ≠ 0) ∧
    (udre0 u).1.ucsr0b &&& ~~~udrie = u.ucsr0b &&& ~~~udrie := by
  by_cases hlast : u.tx.tail.next = u.tx.head
  · have hctl : (udre0 u).1.ucsr0b = u.ucsr0b &&& ~~~udrie := if_pos hlast
    obtain ⟨hclear, hrest⟩ := and_not_udrie u.ucsr0b
    rw [hctl, hclear, hrest]
    exact ⟨⟨fun hc => absurd rfl hc, fun hc => absurd hlast hc.1⟩, rfl⟩
  · have hctl : (udre0 u).1.ucsr0b = u.ucsr0b := if_neg hlast
    rw [hctl]
    exact ⟨⟨fun hset => ⟨hlast, hset⟩, fun hset => hset.2⟩, rfl⟩

/-- What is asserted at a place survives the interrupt that sends a byte. -/
theorem txLearnt_udre {b : Byte} (hq : u.tx.Holds (b :: q)) (hp : txLearnt u p) :
    txLearnt (udre0 u).1 p := by
  have hpop : (udre0 u).1.tx.Holds q := hq.pop
  -- Where there was room there still is.
  have hroom : u.tx.tail ≠ u.tx.head.next → (udre0 u).1.tx.tail ≠ u.tx.head.next := by
    intro hfree hfull
    have hlen := hpop.full_iff.mp hfull
    have hlt := hq.room hfree
    rw [List.length_cons] at hlt
    omega
  unfold txLearnt at hp ⊢
  split at hp
  · exact hp
  · exact ⟨hp.1, hp.1 ▸ hroom (hp.1 ▸ hp.2)⟩
  · exact ⟨hp.1, hp.1 ▸ hroom (hp.1 ▸ hp.2.1), hp.2.2⟩
  · exact ⟨hp.1, hp.1 ▸ hroom (hp.1 ▸ hp.2.1), hp.2.2⟩
  · trivial

omit [DecidableEq τ] in
/-- **An interrupt** that sends a byte sends the one put first. -/
theorem tx_udre (hst : TxSteady k h s.mem) (hset : s.mem.ucsr0b &&& udrie ≠ 0) :
    TxSteady k (h ++ [(s, .irq .udre)]) (udre0 s.mem).1 ∧
      ∀ p, txLearnt s.mem p → txLearnt (udre0 s.mem).1 p := by
  obtain ⟨q, hq, hall, hflag, hbits⟩ := hst
  obtain ⟨b, rest, rfl⟩ := List.exists_cons_of_ne_nil (hflag.mp hset)
  refine ⟨⟨rest, hq.pop, ?_, ?_, ?_⟩, fun p hp => txLearnt_udre hq hp⟩
  · have hbyte : (udre0 s.mem).2 = b := hq.front
    rw [accepted_snoc, sent_snoc, hall]
    simp [acceptedBy, sentBy, hbyte]
  · rw [(udre0_control s.mem).1]
    have hempty := hq.pop.empty_iff
    constructor
    · intro hne hnil
      exact hne.1 (hempty.mpr hnil).symm
    · intro hne
      exact ⟨fun heq => hne (hempty.mp heq.symm), hset⟩
  · rw [(udre0_control s.mem).2]
    exact hbits

/-- The interrupt that receives leaves the transmitter alone. -/
theorem rx0_tx (u : Usart zt zr) (b : Byte) :
    (rx0 u b).tx = u.tx ∧ (rx0 u b).ucsr0b = u.ucsr0b := by
  unfold rx0
  by_cases hfull : u.rx.tail = u.rx.head.next
  · simp only [if_pos hfull, and_self]
  · simp only [if_neg hfull, and_self]

omit [DecidableEq τ] in
theorem tx_irq {j : UsartIrq} (hm : usartIrq s.mem j = some u') (hst : TxSteady k h s.mem) :
    TxSteady k (h ++ [(s, .irq j)]) u' ∧ ∀ p, txLearnt s.mem p → txLearnt u' p := by
  cases j with
  | udre =>
      rw [usartIrq, Option.ite_none_right_eq_some] at hm
      obtain ⟨hset, hu⟩ := hm
      obtain rfl := Option.some.inj hu
      exact tx_udre hst hset
  | rx b =>
      rw [usartIrq, Option.ite_none_right_eq_some] at hm
      obtain rfl := Option.some.inj hm.2
      obtain ⟨htx, hctl⟩ := rx0_tx s.mem b
      refine ⟨?_, fun p hp => txLearnt_congr htx hp⟩
      exact hst.quiet rfl rfl (fun q hq => by rw [htx]; exact hq) hctl

omit [DecidableEq τ] in
theorem tx_outline (k : Byte) : Outline (usartCode zt zr) (txAssertions τ zt zr k) where
  entry := by
    intro m p hentry
    cases p with
    | put c =>
        obtain ⟨b, data, pc⟩ := c
        obtain rfl : pc = .load := of_decide_eq_true hentry
        exact ⟨rfl, rfl, trivial⟩
    | _ => exact ⟨rfl, rfl, trivial⟩
  stays := fun _ _ _ _ hat hP hgoes => tx_stays hat hP hgoes
  leaves := fun _ _ _ _ hat hP hgoes => tx_leaves hat hP hgoes
  other := by
    intro m i p p' happart hfree hp'
    by_cases hheld : txHeld p' = true
    · have hp : txHeld p = false := by
        by_contra hc
        exact absurd (hheld.symm.trans (happart (Bool.not_eq_false _ ▸ hc))) (by decide)
      exact txLearnt_congr (tx_of_unheld hp) hp'
    · exact txLearnt_of_unheld (Bool.not_eq_true _ ▸ hheld)
  irq := by
    intro h s j m hm hst
    obtain ⟨hnext, hkeep⟩ := tx_irq hm hst
    exact ⟨hnext, fun p _ hp => hkeep p hp⟩
  idle := by
    intro h s e hstmt hirq hst
    have hacc : acceptedBy (s, e) = none := by
      cases e with
      | stmt => exact absurd rfl hstmt
      | _ => rfl
    have hsent : sentBy (s, e) = none := by
      cases e with
      | irq j => exact absurd rfl (hirq j)
      | _ => rfl
    exact hst.quiet hacc hsent (fun _ hq => hq) rfl

/-! ### Reading both indices -/

/-- Since a flush has read `tx0_Tail` the interrupt may have taken some bytes. -/
def Passed (u : Usart zt zr) (tail : Index zt) : Prop :=
  ∃ q n, u.tx.Holds q ∧ n + q.length < zt.size ∧
    u.tx.tail.val.toNat = (tail.val.toNat + n) % zt.size

/-- What the first read shows. -/
def txSeen (u : Usart zt zr) : UsartPc zt zr → Prop
  | .flush (.loadHead tail) => Passed u tail
  | .toSend (.loadTail head) => head = u.tx.head
  | _ => True

/-- The store of `tx0_Head`. -/
def publishes : UsartPc zt zr → Bool
  | .put ⟨_, _, .publish _ _⟩ => true
  | _ => false

omit [DecidableEq τ] in
/-- The other statements leave in the ring what is there. -/
theorem tx_unpublished (hP : (txAssertions τ zt zr k).At h s.mem s.iflag p)
    (hp : publishes p = false) :
    (usartStmt s.mem s.iflag p).mem.tx.head = s.mem.tx.head ∧
      (usartStmt s.mem s.iflag p).mem.tx.tail = s.mem.tx.tail ∧
      ∀ q, s.mem.tx.Holds q → (usartStmt s.mem s.iflag p).mem.tx.Holds q := by
  by_cases hput : p.isPut = false
  · rw [(usartStmt_tx hput).1]
    exact ⟨rfl, rfl, fun _ hq => hq⟩
  · cases p with
    | put c =>
        show (putStmt s.mem s.iflag c : UsartEffect zt zr).mem.tx.head = s.mem.tx.head ∧
          (putStmt s.mem s.iflag c : UsartEffect zt zr).mem.tx.tail = s.mem.tx.tail ∧
          ∀ q, s.mem.tx.Holds q → (putStmt s.mem s.iflag c : UsartEffect zt zr).mem.tx.Holds q
        obtain ⟨blocking, data, pc⟩ := c
        rw [putStmt_mem]
        cases pc with
        | store head =>
            obtain ⟨_, hhead, _⟩ := (at_free rfl).mp hP
            refine ⟨rfl, rfl, fun q hq => ?_⟩
            rw [hhead]
            exact hq.write data
        | publish head sreg => exact absurd hp (by simp [publishes])
        | _ => exact ⟨rfl, rfl, fun _ hq => hq⟩
    | _ => exact absurd rfl hput

theorem txSeen_congr (hhead : u'.tx.head = u.tx.head) (htail : u'.tx.tail = u.tx.tail)
    (hring : ∀ q, u.tx.Holds q → u'.tx.Holds q) (hp : txSeen u p) : txSeen u' p := by
  unfold txSeen at hp ⊢
  split at hp
  · obtain ⟨q, n, hq, hn, hpassed⟩ := hp
    exact ⟨q, n, hring q hq, hn, by rw [htail]; exact hpassed⟩
  · exact hp.trans hhead.symm
  · trivial

/-- What has been seen survives the interrupt that sends a byte. -/
theorem txSeen_udre {b : Byte} (hq : u.tx.Holds (b :: q)) (hp : txSeen u p) :
    txSeen (udre0 u).1 p := by
  unfold txSeen at hp ⊢
  split at hp
  · obtain ⟨q', n, hq', hn, htail⟩ := hp
    obtain rfl := hq.unique hq'
    rw [List.length_cons] at hn
    refine ⟨q, n + 1, hq.pop, by omega, ?_⟩
    show u.tx.tail.next.val.toNat = _
    rw [u.tx.tail.next_toNat, htail, Nat.mod_add_mod, Nat.add_assoc]
  · exact hp
  · trivial

/-- The statement that reads the first index. -/
theorem txSeen_stmt (hgoes : (usartStmt u i p).goes = .inl p') : txSeen u p' := by
  cases p with
  | put c =>
      obtain ⟨c', rfl⟩ := putStmt_goes hgoes
      trivial
  | get pc =>
      obtain ⟨pc', rfl⟩ := getStmt_goes hgoes
      trivial
  | flush pc =>
      obtain rfl | rfl := flushStmt_goes hgoes
      · obtain ⟨q, hq⟩ := u.tx.exists_holds
        refine ⟨q, 0, hq, ?_, ?_⟩
        · rw [Nat.zero_add]
          exact hq.short
        · rw [Nat.add_zero, Nat.mod_eq_of_lt u.tx.tail.lt]
      · trivial
  | available pc =>
      obtain rfl := availableStmt_goes hgoes
      trivial
  | toSend pc =>
      obtain rfl := bytesToSendStmt_goes hgoes
      rfl
  | peek pc =>
      obtain rfl := peekStmt_goes hgoes
      trivial

/-- Nothing is seen in a function that puts a byte. -/
theorem txSeen_of_put (hp : p.isPut = true) : txSeen u p := by
  cases p with
  | put c => trivial
  | _ => exact absurd hp (by simp [UsartPc.isPut])

omit [DecidableEq τ] in
theorem tx_reading (k : Byte) : Reading (usartCode zt zr) (txAssertions τ zt zr k)
    (fun _ => publishes) txSeen where
  entry := by
    intro m p hentry
    cases p with
    | flush pc =>
        obtain rfl : pc = .loadTail := of_decide_eq_true hentry
        trivial
    | toSend pc =>
        obtain rfl : pc = .loadHead := of_decide_eq_true hentry
        trivial
    | _ => trivial
  reads := by
    intro h s p p' _ _ hgoes
    by_cases hput : p.isPut = false
    · have htx := (usartStmt_tx (u := s.mem) (i := s.iflag) hput).1
      exact txSeen_congr (congrArg UsartRing.head htx) (congrArg UsartRing.tail htx)
        (fun q hq => by rw [usartCode, htx]; exact hq) (txSeen_stmt hgoes)
    · rw [Bool.not_eq_false] at hput
      exact txSeen_of_put ((usartStmt_goes hgoes).1.trans hput)
  other := by
    intro h s p p' _ hP hspoils hp'
    obtain ⟨hhead, htail, hring⟩ := tx_unpublished hP hspoils
    exact txSeen_congr hhead htail hring hp'
  irq := by
    intro h s j m hm hst p hp
    replace hm : usartIrq s.mem j = some m := hm
    cases j with
    | udre =>
        rw [usartIrq, Option.ite_none_right_eq_some] at hm
        obtain ⟨hset, hu⟩ := hm
        obtain rfl := Option.some.inj hu
        obtain ⟨q, hq, -, hflag, -⟩ := hst
        obtain ⟨b, rest, rfl⟩ := List.exists_cons_of_ne_nil (hflag.mp hset)
        exact txSeen_udre hq hp
    | rx b =>
        rw [usartIrq, Option.ite_none_right_eq_some] at hm
        obtain rfl := Option.some.inj hm.2
        obtain ⟨htx, -⟩ := rx0_tx s.mem b
        exact txSeen_congr (by rw [htx]) (by rw [htx]) (fun q hq => by rw [htx]; exact hq) hp

end Steps

/-! ### Runs -/

section Runs

variable {s₀ s : World τ zt zr} {h : Trace τ zt zr}

/-- A run from rings that are empty. -/
theorem tx_kept (hrun : Run (usartCode zt zr) s₀ h s) (h₀ : s₀.mem.Idle) (hout : s₀.Outside)
    (hapart : TxApart h) : Kept (txAssertions τ zt zr (s₀.mem.ucsr0b &&& ~~~udrie)) h s := by
  refine (tx_outline (s₀.mem.ucsr0b &&& ~~~udrie)).sound hrun hout ⟨[], h₀.tx, rfl, ?_, rfl⟩ hapart
  exact ⟨fun hc => absurd h₀.control hc, fun hc => absurd rfl hc⟩

omit [DecidableEq τ] in
/-- Behind the `cli` too the bytes sent come first. -/
theorem rest_of_inside {k : Byte} {u : Usart zt zr} {p : UsartPc zt zr}
    (hin : txInside k h u p) : ∃ q, accepted h = sent h ++ q := by
  unfold txInside at hin
  split at hin
  · obtain ⟨⟨q, _, hall, _⟩, _⟩ := hin
    exact ⟨q, hall⟩
  · obtain ⟨q, _, hall, _⟩ := hin
    exact ⟨q, hall⟩
  · obtain ⟨⟨q, _, hall, _⟩, _⟩ := hin
    exact ⟨q, hall⟩
  · obtain ⟨⟨q, _, hall, _⟩, _⟩ := hin
    exact ⟨q, hall⟩
  · exact hin.elim

omit [DecidableEq τ] in
/-- The interrupt can occur just when `UDRIE0` is set. -/
theorem udre_isSome (u : Usart zt zr) :
    (usartIrq u .udre).isSome = true ↔ u.ucsr0b &&& udrie ≠ 0 := by
  unfold usartIrq
  by_cases hset : u.ucsr0b &&& udrie ≠ 0
  · rw [if_pos hset]
    exact ⟨fun _ => hset, fun _ => rfl⟩
  · rw [if_neg hset]
    exact ⟨fun hc => absurd hc (by simp), fun hc => absurd hc hset⟩

/-- Outside of what is behind the `cli`, the ring has what has been put and not sent. -/
theorem tx_quiet (hrun : Run (usartCode zt zr) s₀ h s) (h₀ : s₀.mem.Idle) (hout : s₀.Outside)
    (hapart : TxApart h) (hfree : s.here.any txMasked = false) :
    TxSteady (s₀.mem.ucsr0b &&& ~~~udrie) h s.mem := by
  apply (tx_kept hrun h₀ hout hapart).quiet
  intro p hp
  rw [hp] at hfree
  exact hfree

/-- No byte is sent that has not been put, and none out of order. -/
theorem sent_accepted (hrun : Run (usartCode zt zr) s₀ h s) (h₀ : s₀.mem.Idle)
    (hout : s₀.Outside) (hapart : TxApart h) : sent h <+: accepted h := by
  by_cases hfree : s.here.any txMasked = false
  · obtain ⟨q, _, hall, _⟩ := tx_quiet hrun h₀ hout hapart hfree
    exact ⟨q, hall.symm⟩
  · cases hp : s.here with
    | none =>
        rw [hp] at hfree
        exact absurd rfl hfree
    | some p =>
        rw [hp] at hfree
        obtain ⟨_, hin⟩ := (at_masked (Bool.not_eq_false _ ▸ hfree)).mp
          ((tx_kept hrun h₀ hout hapart).here p hp)
        obtain ⟨q, hall⟩ := rest_of_inside hin
        exact ⟨q, hall.symm⟩

/-- **What is sent** is what has been put, in the same order, and the ring has the rest.
The interrupt that sends can occur just when there is a rest, so it never finds the
ring empty and never stays off while a byte waits. -/
theorem sent_exact (hrun : Run (usartCode zt zr) s₀ h s) (h₀ : s₀.mem.Idle) (hout : s₀.Outside)
    (hapart : TxApart h) : sent h <+: accepted h ∧
      (s.here.any txMasked = false → accepted h = sent h ++ s.mem.tx.bytes ∧
        ((usartIrq s.mem .udre).isSome = true ↔ s.mem.tx.bytes ≠ []) ∧
        s.mem.ucsr0b &&& ~~~udrie = s₀.mem.ucsr0b &&& ~~~udrie) := by
  refine ⟨sent_accepted hrun h₀ hout hapart, fun hfree => ?_⟩
  obtain ⟨q, hq, hall, hflag, hbits⟩ := tx_quiet hrun h₀ hout hapart hfree
  rw [hq.bytes_eq, udre_isSome]
  exact ⟨hall, hflag, hbits⟩

/-- Rings of four slots. -/
def four : BufferSize := ⟨2, by decide⟩

/-- Two tasks, and neither uses the driver yet. -/
def afterInit : World Bool four four := ⟨uart0Init, true, false, fun _ => none⟩

theorem afterInit_outside : afterInit.Outside := fun _ => rfl

theorem afterInit_run {es : List (Step Bool four four)}
    {c : Trace Bool four four × World Bool four four}
    (hplay : play (usartCode four four) es ([], afterInit) = some c) :
    Run (usartCode four four) afterInit c.1 c.2 := play_run .nil hplay

/-- A switch to `v`, and a call there that puts `c` from beginning to end. -/
def wholeCall (v : τ) (c : Byte) : List (Step τ zt zr) :=
  .switch v :: .call (.put (uart0Putc c)) :: List.replicate 8 .stmt

/-- One task puts a byte, and another one is interrupted by the transmitter in its own
call. -/
theorem sent_exact_interrupted : ∃ h s, Run (usartCode four four) afterInit h s ∧
    sent h = [65] ∧ accepted h = [65, 66] ∧ accepted h = sent h ++ s.mem.tx.bytes := by
  have hplay : ((play (usartCode four four) (wholeCall false 65 ++
      .switch true :: .call (.put (uart0PutcNoblock 66)) :: .stmt :: .irq .udre ::
        List.replicate 8 .stmt) ([], afterInit)).map fun c => decide (
      sent c.1 = [65] ∧ accepted c.1 = [65, 66] ∧ TxApart c.1 ∧
        c.2.here.any txMasked = false)) = some true := by decide +kernel
  obtain ⟨⟨h, s⟩, hc, hdec⟩ := Option.map_eq_some_iff.mp hplay
  obtain ⟨hsent, hacc, hapart, hfree⟩ := of_decide_eq_true hdec
  have hrun := afterInit_run hc
  obtain ⟨-, hrest⟩ := sent_exact hrun uart0Init_idle afterInit_outside hapart
  exact ⟨h, s, hrun, hsent, hacc, (hrest hfree).1⟩

/-- What the first read of a function that reads both indices has shown. -/
theorem tx_seen (hrun : Run (usartCode zt zr) s₀ h s) (h₀ : s₀.mem.Idle) (hout : s₀.Outside)
    (hapart : TxApart h) {p : UsartPc zt zr} (hat : s.here = some p)
    (hun : Unspoilt publishes s.cTask h) : txSeen s.mem p := by
  refine (tx_reading _).sound (tx_outline (s₀.mem.ucsr0b &&& ~~~udrie)) hrun hout
    ⟨[], h₀.tx, rfl, ?_, rfl⟩ hapart s.cTask p hat hun
  exact ⟨fun hc => absurd h₀.control hc, fun hc => absurd rfl hc⟩

/-- **`uart0_BytesToSend` is off by one.**  If nobody has put a byte since the call has read
`tx0_Head`, it returns the size of the buffer less one when there is nothing to send, and
otherwise one less than the number of bytes that are put and not sent. -/
theorem bytes_to_send_one_less (hrun : Run (usartCode zt zr) s₀ h s) (h₀ : s₀.mem.Idle)
    (hout : s₀.Outside) (hapart : TxApart h) {head : Index zt}
    (hat : s.here = some (.toSend (.loadTail head))) (hun : Unspoilt publishes s.cTask h) :
    ∃ n, (usartStmt s.mem s.iflag (.toSend (.loadTail head)) : UsartEffect zt zr).goes =
        .inr (.toSend n) ∧
      n.toNat = if sent h = accepted h then zt.size - 1
        else (accepted h).length - (sent h).length - 1 := by
  obtain rfl : head = s.mem.tx.head := tx_seen hrun h₀ hout hapart hat hun
  obtain ⟨q, hq, hall, _⟩ := tx_quiet hrun h₀ hout hapart (by rw [hat]; rfl)
  have hpos := zt.size_pos
  have hshort : q.length < zt.size := hq.short
  refine ⟨_, rfl, ?_⟩
  unfold uart0BytesToSend
  have hcount : ((s.mem.tx.head.val - s.mem.tx.tail.val) &&& zt.mask).toNat = q.length := hq.count
  rw [zt.and_mask_sub_one, hcount, hall, List.length_append]
  by_cases hnil : q = []
  · rw [hnil, List.append_nil, if_pos rfl, List.length_nil, Nat.zero_add,
      Nat.mod_eq_of_lt (by omega)]
  · have hlen : q.length ≠ 0 := mt List.length_eq_zero_iff.mp hnil
    have hne : sent h ≠ sent h ++ q := fun hc => hnil (List.append_right_eq_self.mp hc.symm)
    rw [if_neg hne, show q.length + (zt.size - 1) = q.length - 1 + zt.size by omega,
      Nat.add_mod_right, Nat.mod_eq_of_lt (by omega)]
    omega

/-- Two bytes wait in a buffer of the usual size, and one is sent between the two reads. -/
theorem bytes_to_send_one_less_waiting : ∃ h s n,
    Run (usartCode .default .default) ⟨uart0Init, true, false, fun _ => none⟩ h s ∧
      accepted h = [65, 66] ∧ sent h = [65] ∧
      (usartStmt s.mem s.iflag (.toSend (.loadTail s.mem.tx.head)) :
        UsartEffect .default .default).goes = .inr (.toSend n) ∧ n.toNat = 0 := by
  have hplay : ((play (usartCode .default .default) (wholeCall false 65 ++ wholeCall true 66 ++
      [.call (.toSend .loadHead), .stmt, .irq .udre])
      ([], ⟨uart0Init, true, false, fun _ => none⟩)).map fun c => decide (
      accepted c.1 = [65, 66] ∧ sent c.1 = [65] ∧ TxApart c.1 ∧
        c.2.here = some (.toSend (.loadTail c.2.mem.tx.head)) ∧
        Unspoilt publishes c.2.cTask c.1)) = some true := by decide +kernel
  obtain ⟨⟨h, s⟩, hc, hdec⟩ := Option.map_eq_some_iff.mp hplay
  obtain ⟨hacc, hsent, hapart, hat, hun⟩ := of_decide_eq_true hdec
  have hrun := play_run .nil hc
  obtain ⟨n, hgoes, hcount⟩ :=
    bytes_to_send_one_less hrun uart0Init_idle (fun _ => rfl) hapart hat hun
  rw [hacc, hsent] at hcount
  exact ⟨h, s, n, hrun, hacc, hsent, hgoes, hcount⟩

/-- **When `uart0_flush` returns** everything put has been sent, if nobody has put a byte
since the call has read `tx0_Tail`. -/
theorem flush_sent (hrun : Run (usartCode zt zr) s₀ h s) (h₀ : s₀.mem.Idle) (hout : s₀.Outside)
    (hapart : TxApart h) (hat : s.here = some (.flush (.loadHead s.mem.tx.head)))
    (hun : Unspoilt publishes s.cTask h) : sent h = accepted h := by
  obtain ⟨q, hq, hall, _⟩ := tx_quiet hrun h₀ hout hapart (by rw [hat]; rfl)
  obtain ⟨q', n, hq', hn, htail⟩ : Passed s.mem s.mem.tx.head :=
    tx_seen hrun h₀ hout hapart hat hun
  obtain rfl := hq.unique hq'
  have hpos := zt.size_pos
  -- The interrupt has not gone a whole round, so the indices meet only when it has caught up.
  have hsame : (s.mem.tx.head.val.toNat + (n + q'.length)) % zt.size =
      (s.mem.tx.head.val.toNat + 0) % zt.size := by
    have hhead := Ring.Between.head_eq hq
    rw [UsartRing.length_buffer, htail, Nat.mod_add_mod] at hhead
    rw [← Nat.add_assoc, ← hhead, Nat.add_zero, Nat.mod_eq_of_lt s.mem.tx.head.lt]
  have hround : n + q'.length = 0 := Ring.slot_inj hn hpos hsame
  have hnil : q' = [] := List.length_eq_zero_iff.mp (by omega)
  rw [hall, hnil, List.append_nil]

/-- The interrupt comes in the middle of the loop, and another task has put the byte
between two rounds. -/
theorem flush_sent_interrupted : ∃ h s, Run (usartCode four four) afterInit h s ∧
    accepted h = [65, 66] ∧ sent h = accepted h := by
  have hplay : ((play (usartCode four four) (wholeCall false 65 ++
      [.call (.flush .loadTail), .stmt] ++ wholeCall true 66 ++ [.switch false, .stmt, .irq .udre,
        .stmt, .irq .udre, .stmt, .stmt]) ([], afterInit)).map
        fun c => decide (accepted c.1 = [65, 66] ∧ TxApart c.1 ∧
          c.2.here = some (.flush (.loadHead c.2.mem.tx.head)) ∧
          Unspoilt publishes c.2.cTask c.1)) = some true := by decide +kernel
  obtain ⟨⟨h, s⟩, hc, hdec⟩ := Option.map_eq_some_iff.mp hplay
  obtain ⟨hacc, hapart, hat, hun⟩ := of_decide_eq_true hdec
  have hrun := afterInit_run hc
  exact ⟨h, s, hrun, hacc, flush_sent hrun uart0Init_idle afterInit_outside hapart hat hun⟩

end Runs

end Usart

end AtmegaScheduler
