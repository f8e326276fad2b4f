/-
What the receiver delivers.

The bytes that `uart0_getc`, `uart0_getData` and `uart0_LoadData` return are those that
the interrupt has put into the ring, in the order in which they arrived, and the rest is
in the ring.  A byte that arrives when the ring is full is dropped, and nothing tells.

As for the transmitter, two tasks that take a byte at once would take the same one: a task
reads `rx0_Tail` to take a byte while no other task is between its own read and its own
store.  Nothing here is masked, so everything a call has learnt has to survive the
interrupt.

`uart0_AvailableBytes` and `uart0_peek` may be called at any time, and are right if no
other task has taken a byte between their two reads.
-/
import AtmegaScheduler.Drivers.UsartTx

namespace AtmegaScheduler

open Avr Preemption

namespace Usart

variable {τ : Type} [DecidableEq τ] {zt zr : BufferSize}

/-- The byte that arrives with an interrupt. -/
def arrivedBy (c : World τ zt zr × Step τ zt zr) : Option Byte :=
  match c.2 with
  | .irq (.rx b) => some b
  | _ => none

/-- The bytes that have arrived. -/
def arrived (h : Trace τ zt zr) : List Byte := shown arrivedBy h

/-- The byte that the interrupt puts into the ring, if it is not full. -/
def receivedBy (c : World τ zt zr × Step τ zt zr) : Option Byte :=
  match c.2 with
  | .irq (.rx b) => if c.1.mem.rx.tail = c.1.mem.rx.head.next then none else some b
  | _ => none

/-- The bytes that have been put into the ring. -/
def received (h : Trace τ zt zr) : List Byte := shown receivedBy h

/-- The byte of a call that is about to take it. -/
def taking : UsartPc zt zr → Option Byte
  | .get (.store _ byte) => some byte
  | _ => none

/-- The byte that a call returns with this event. -/
def takenBy (c : World τ zt zr × Step τ zt zr) : Option Byte :=
  match c.2 with
  | .stmt => c.1.here.bind taking
  | _ => none

/-- The bytes that calls have returned. -/
def taken (h : Trace τ zt zr) : List Byte := shown takenBy h

/-- A call that has read `rx0_Tail` to take a byte and has not stored it yet. -/
def rxHeld : UsartPc zt zr → Bool
  | .get .load => false
  | .get _ => true
  | _ => false

/-- The read with which that begins. -/
def rxAcquires : UsartPc zt zr → Bool
  | .get .load => true
  | _ => false

/-- No task reads `rx0_Tail` to take a byte while another task is between its read and its
store. -/
def RxApart (h : Trace τ zt zr) : Prop := Exclusive rxHeld rxAcquires h

instance [Fintype τ] (h : Trace τ zt zr) : Decidable (RxApart h) :=
  inferInstanceAs (Decidable (Exclusive rxHeld rxAcquires h))

/-! ### What holds where -/

/-- The ring holds what has been received and not taken. -/
def RxSteady (h : Trace τ zt zr) (u : Usart zt zr) : Prop :=
  ∃ q, u.rx.Holds q ∧ received h = taken h ++ q

/-- What a call has learnt. -/
def rxLearnt (u : Usart zt zr) : UsartPc zt zr → Prop
  | .get (.test tail) => tail = u.rx.tail
  | .get (.fetch tail) => tail = u.rx.tail.next ∧ u.rx.head ≠ u.rx.tail
  | .get (.store tail byte) => tail = u.rx.tail.next ∧ u.rx.head ≠ u.rx.tail ∧
      u.rx.read tail = byte
  | _ => True

variable (τ zt zr) in
def rxAssertions : Assertions τ (Usart zt zr) (UsartPc zt zr) UsartIrq where
  held := rxHeld
  acquires := rxAcquires
  masked := fun _ => false
  steady := RxSteady
  learnt := rxLearnt
  inside := fun _ _ _ => False

section Steps

variable {h : Trace τ zt zr} {s : World τ zt zr} {e : Step τ zt zr}
  {u u' : Usart zt zr} {i : Bool} {q : List Byte} {p p' : UsartPc zt zr} {b : Byte}

omit [DecidableEq τ] in
/-- An event that shows nothing and leaves the ring alone. -/
theorem RxSteady.quiet (hst : RxSteady h u) (hrec : receivedBy (s, e) = none)
    (htake : takenBy (s, e) = none) (hring : u'.rx = u.rx) : RxSteady (h ++ [(s, e)]) u' := by
  obtain ⟨q, hq, hall⟩ := hst
  refine ⟨q, by rw [hring]; exact hq, ?_⟩
  rw [received, taken, shown_snoc, shown_snoc, hrec, htake, Option.toList_none, List.append_nil,
    List.append_nil]
  exact hall

omit [DecidableEq τ] in
theorem takenBy_stmt (hat : s.here = some p) :
    takenBy (s, (.stmt : Step τ zt zr)) = taking p := by
  unfold takenBy
  rw [hat]
  rfl

/-- Only a call that has read `rx0_Tail` to take a byte changes the ring. -/
theorem rx_of_unheld (hp : rxHeld p = false) : (usartStmt u i p).mem.rx = u.rx := by
  by_cases hget : p.isGet = false
  · exact usartStmt_rx hget
  · cases p with
    | get pc =>
        cases pc with
        | load => rfl
        | _ => exact absurd hp (by simp [rxHeld])
    | _ => exact absurd rfl hget

theorem rxLearnt_of_unheld (hp : rxHeld p = false) : rxLearnt u p := by
  unfold rxLearnt
  split
  · exact absurd hp (by simp [rxHeld])
  · exact absurd hp (by simp [rxHeld])
  · exact absurd hp (by simp [rxHeld])
  · trivial

theorem rxLearnt_congr (hrx : u'.rx = u.rx) (hp : rxLearnt u p) : rxLearnt u' p := by
  unfold rxLearnt at hp ⊢
  rw [hrx]
  exact hp

/-- The other functions take nothing. -/
theorem taking_of_not_get (hp : p.isGet = false) : taking p = none ∧ rxHeld p = false := by
  cases p with
  | get pc => exact absurd hp (by simp [UsartPc.isGet])
  | _ => exact ⟨rfl, rfl⟩

/-- Only the last statement of a call that takes a byte changes the ring. -/
theorem rx_of_goes (hgoes : (usartStmt u i p).goes = .inl p') :
    (usartStmt u i p).mem.rx = u.rx ∧ taking p = none := by
  by_cases hget : p.isGet = false
  · exact ⟨usartStmt_rx hget, (taking_of_not_get hget).1⟩
  · cases p with
    | get pc =>
        show (getStmt u i pc : UsartEffect zt zr).mem.rx = u.rx ∧ _
        rw [getStmt_mem]
        cases pc with
        | store tail byte => exact absurd hgoes (by simp [usartStmt, getStmt])
        | _ => exact ⟨rfl, rfl⟩
    | _ => exact absurd rfl hget

/-! ### One statement -/

/-- **A statement** makes true what the next one relies on. -/
theorem rxLearnt_stmt (hp : rxLearnt u p) (hgoes : (usartStmt u i p).goes = .inl p') :
    (rxHeld p' = true → rxHeld p = true ∨ rxAcquires p = true) ∧ rxLearnt u p' := by
  by_cases hget : p.isGet = false
  · have hfree := (taking_of_not_get ((usartStmt_goes hgoes).2.trans hget)).2
    exact ⟨fun hc => absurd (hfree.symm.trans hc) (by decide), rxLearnt_of_unheld hfree⟩
  · cases p with
    | get pc =>
        cases pc with
        | load =>
            obtain rfl := Sum.inl.inj hgoes
            exact ⟨fun _ => Or.inr rfl, rfl⟩
        | test tail =>
            obtain rfl : tail = u.rx.tail := hp
            by_cases hempty : u.rx.tail = u.rx.head
            · simp only [usartStmt, getStmt, if_pos hempty] at hgoes
              exact absurd hgoes (by simp)
            · simp only [usartStmt, getStmt, if_neg hempty] at hgoes
              obtain rfl := Sum.inl.inj hgoes
              exact ⟨fun _ => Or.inl rfl, rfl, Ne.symm hempty⟩
        | fetch tail =>
            obtain rfl := Sum.inl.inj hgoes
            exact ⟨fun _ => Or.inl rfl, hp.1, hp.2, rfl⟩
        | store tail byte => exact absurd hgoes (by simp [usartStmt, getStmt])
    | _ => exact absurd rfl hget

omit [DecidableEq τ] in
/-- **The last statement** of a call takes the byte received first. -/
theorem rx_leaves {r : UsartResult} (hat : s.here = some p) (hst : RxSteady h s.mem)
    (hp : rxLearnt s.mem p) (hgoes : (usartStmt s.mem s.iflag p).goes = .inr r) :
    RxSteady (h ++ [(s, .stmt)]) (usartStmt s.mem s.iflag p).mem := by
  by_cases hget : p.isGet = false
  · exact hst.quiet rfl ((takenBy_stmt hat).trans (taking_of_not_get hget).1) (usartStmt_rx hget)
  · cases p with
    | get pc =>
        show RxSteady (h ++ [(s, .stmt)]) (getStmt s.mem s.iflag pc : UsartEffect zt zr).mem
        rw [getStmt_mem]
        cases pc with
        | store tail byte =>
            obtain ⟨rfl, hne, hread⟩ := hp
            obtain ⟨q, hq, hall⟩ := hst
            obtain ⟨b, rest, rfl⟩ := List.exists_cons_of_ne_nil (mt hq.empty_iff.mpr hne)
            obtain rfl : b = byte := hq.front.symm.trans hread
            refine ⟨rest, hq.pop, ?_⟩
            rw [received, taken, shown_snoc, shown_snoc, takenBy_stmt hat]
            show received h ++ [] = taken h ++ [b] ++ rest
            rw [List.append_nil, hall, List.append_assoc]
            rfl
        | _ => exact hst.quiet rfl (takenBy_stmt hat) rfl
    | _ => exact absurd rfl hget

/-! ### The interrupts -/

/-- A byte that finds room is the last one in the ring. -/
theorem holds_rx0 (hq : u.rx.Holds q) (hfree : u.rx.tail ≠ u.rx.head.next) (b : Byte) :
    (rx0 u b).rx.Holds (q ++ [b]) := by
  have hrx : (rx0 u b).rx = { u.rx.write u.rx.head.next b with head := u.rx.head.next } := by
    simp only [rx0, if_neg hfree]
  rw [hrx]
  exact (hq.write b).push hfree (UsartRing.read_write_self _ _ _)

/-- What a call has learnt survives the interrupt that receives. -/
theorem rxLearnt_rx0 (hq : u.rx.Holds q) (hfree : u.rx.tail ≠ u.rx.head.next) (b : Byte)
    (hp : rxLearnt u p) : rxLearnt (rx0 u b) p := by
  have hpush := holds_rx0 hq hfree b
  have htail : (rx0 u b).rx.tail = u.rx.tail := by
    simp only [rx0, if_neg hfree, UsartRing.write_tail]
  have hne : (rx0 u b).rx.head ≠ (rx0 u b).rx.tail := by
    intro heq
    exact absurd (hpush.empty_iff.mp heq) (by simp)
  unfold rxLearnt at hp ⊢
  split at hp
  · exact hp.trans htail.symm
  · exact ⟨by rw [htail]; exact hp.1, hne⟩
  · rename_i tail byte
    obtain ⟨rfl, hnonempty, hread⟩ := hp
    obtain ⟨x, rest, rfl⟩ := List.exists_cons_of_ne_nil (mt hq.empty_iff.mpr hnonempty)
    refine ⟨by rw [htail], hne, ?_⟩
    rw [← hread, hq.front, ← htail]
    exact hpush.front
  · trivial

omit [DecidableEq τ] in
theorem rx_irq {j : UsartIrq} (hm : usartIrq s.mem j = some u') (hst : RxSteady h s.mem) :
    RxSteady (h ++ [(s, .irq j)]) u' ∧ ∀ p, rxLearnt s.mem p → rxLearnt u' p := by
  cases j with
  | udre =>
      rw [usartIrq, Option.ite_none_right_eq_some] at hm
      obtain rfl := Option.some.inj hm.2
      exact ⟨hst.quiet rfl rfl rfl, fun p hp => rxLearnt_congr rfl hp⟩
  | rx b =>
      rw [usartIrq, Option.ite_none_right_eq_some] at hm
      obtain rfl := Option.some.inj hm.2
      by_cases hfull : s.mem.rx.tail = s.mem.rx.head.next
      · have hsame : rx0 s.mem b = s.mem := if_pos hfull
        rw [hsame]
        exact ⟨hst.quiet (if_pos hfull) rfl rfl, fun p hp => hp⟩
      · obtain ⟨q, hq, hall⟩ := hst
        refine ⟨⟨q ++ [b], holds_rx0 hq hfull b, ?_⟩, fun p hp => rxLearnt_rx0 hq hfull b hp⟩
        have hrec : receivedBy (s, (.irq (.rx b) : Step τ zt zr)) = some b := if_neg hfull
        rw [received, taken, shown_snoc, shown_snoc, hrec]
        show received h ++ [b] = taken h ++ [] ++ (q ++ [b])
        rw [hall, List.append_nil, List.append_assoc]

omit [DecidableEq τ] in
theorem rx_outline : Outline (usartCode zt zr) (rxAssertions τ zt zr) where
  entry := by
    intro m p hentry
    cases p with
    | get pc =>
        obtain rfl : pc = .load := of_decide_eq_true hentry
        exact ⟨rfl, rfl, trivial⟩
    | _ => exact ⟨rfl, rfl, trivial⟩
  stays := by
    intro h s p p' hat hP hgoes
    obtain ⟨hst, hp⟩ := (at_free rfl).mp hP
    obtain ⟨hrx, htake⟩ := rx_of_goes hgoes
    obtain ⟨hheld, hp'⟩ := rxLearnt_stmt hp hgoes
    refine ⟨hheld, (at_free rfl).mpr ⟨?_, rxLearnt_congr hrx hp'⟩⟩
    exact RxSteady.quiet hst rfl ((takenBy_stmt hat).trans htake) hrx
  leaves := by
    intro h s p r hat hP hgoes
    obtain ⟨hst, hp⟩ := (at_free rfl).mp hP
    exact rx_leaves hat hst hp hgoes
  other := by
    intro m i p p' happart _ hp'
    by_cases hheld : rxHeld p' = true
    · have hp : rxHeld p = false := by
        by_contra hc
        exact absurd (hheld.symm.trans (happart (Bool.not_eq_false _ ▸ hc))) (by decide)
      exact rxLearnt_congr (rx_of_unheld hp) hp'
    · exact rxLearnt_of_unheld (Bool.not_eq_true _ ▸ hheld)
  irq := by
    intro h s j m hm hst
    obtain ⟨hnext, hkeep⟩ := rx_irq hm hst
    exact ⟨hnext, fun p _ hp => hkeep p hp⟩
  idle := by
    intro h s e hstmt hirq hst
    have hrec : receivedBy (s, e) = none := by
      cases e with
      | irq j => exact absurd rfl (hirq j)
      | _ => rfl
    have htake : takenBy (s, e) = none := by
      cases e with
      | stmt => exact absurd rfl hstmt
      | _ => rfl
    exact RxSteady.quiet hst hrec htake rfl

/-! ### Reading twice -/

/-- Since a count has read `rx0_Head` some bytes may have come. -/
def Counted (u : Usart zt zr) (head : Index zr) : Prop :=
  ∃ q n, u.rx.Holds q ∧ n ≤ q.length ∧ head.val.toNat = (u.rx.tail.val.toNat + n) % zr.size

/-- What the first read shows. -/
def rxSeen (u : Usart zt zr) : UsartPc zt zr → Prop
  | .available (.loadTail head) => Counted u head
  | .peek (.loadSlot tail) => tail = u.rx.tail.next
  | _ => True

/-- The store of `rx0_Tail`. -/
def takes : UsartPc zt zr → Bool
  | .get (.store _ _) => true
  | _ => false

/-- The other statements leave the ring alone. -/
theorem rx_untaken (hp : takes p = false) : (usartStmt u i p).mem.rx = u.rx := by
  by_cases hget : p.isGet = false
  · exact usartStmt_rx hget
  · cases p with
    | get pc =>
        show (getStmt u i pc : UsartEffect zt zr).mem.rx = u.rx
        rw [getStmt_mem]
        cases pc with
        | store tail byte => exact absurd hp (by simp [takes])
        | _ => rfl
    | _ => exact absurd rfl hget

theorem rxSeen_congr (hrx : u'.rx = u.rx) (hp : rxSeen u p) : rxSeen u' p := by
  unfold rxSeen Counted at hp ⊢
  rw [hrx]
  exact hp

/-- What has been seen survives the interrupt that receives. -/
theorem rxSeen_rx0 (hq : u.rx.Holds q) (hfree : u.rx.tail ≠ u.rx.head.next) (b : Byte)
    (hp : rxSeen u p) : rxSeen (rx0 u b) p := by
  have htail : (rx0 u b).rx.tail = u.rx.tail := by
    simp only [rx0, if_neg hfree, UsartRing.write_tail]
  unfold rxSeen at hp ⊢
  split at hp
  · obtain ⟨q', n, hq', hn, hhead⟩ := hp
    obtain rfl := hq.unique hq'
    refine ⟨q' ++ [b], n, holds_rx0 hq hfree b, ?_, by rw [htail]; exact hhead⟩
    rw [List.length_append]
    exact Nat.le_add_right_of_le hn
  · rw [htail]
    exact hp
  · trivial

/-- The first read. -/
theorem rxSeen_stmt (hgoes : (usartStmt u i p).goes = .inl p') : rxSeen u p' := by
  cases p with
  | put c =>
      obtain ⟨c', rfl⟩ := putStmt_goes hgoes
      trivial
  | get pc =>
      obtain ⟨pc', rfl⟩ := getStmt_goes hgoes
      trivial
  | flush pc =>
      obtain rfl | rfl := flushStmt_goes hgoes
      · trivial
      · trivial
  | available pc =>
      obtain rfl := availableStmt_goes hgoes
      obtain ⟨q, hq⟩ := u.rx.exists_holds
      refine ⟨q, q.length, hq, Nat.le_refl _, ?_⟩
      have hhead := Ring.Between.head_eq hq
      rwa [UsartRing.length_buffer] at hhead
  | toSend pc =>
      obtain rfl := bytesToSendStmt_goes hgoes
      trivial
  | peek pc =>
      obtain rfl := peekStmt_goes hgoes
      rfl

omit [DecidableEq τ] in
theorem rx_reading : Reading (usartCode zt zr) (rxAssertions τ zt zr) (fun _ => takes) rxSeen where
  entry := by
    intro m p hentry
    cases p with
    | available pc =>
        obtain rfl : pc = .loadHead := of_decide_eq_true hentry
        trivial
    | peek pc =>
        obtain rfl : pc = .loadTail := of_decide_eq_true hentry
        trivial
    | _ => trivial
  reads := fun _ _ _ _ _ _ hgoes => rxSeen_congr (rx_of_goes hgoes).1 (rxSeen_stmt hgoes)
  other := fun _ _ _ _ _ _ hspoils hp' => rxSeen_congr (rx_untaken hspoils) hp'
  irq := by
    intro h s j m hm hst p hp
    replace hm : usartIrq s.mem j = some m := hm
    cases j with
    | udre =>
        rw [usartIrq, Option.ite_none_right_eq_some] at hm
        obtain rfl := Option.some.inj hm.2
        exact rxSeen_congr rfl hp
    | rx b =>
        rw [usartIrq, Option.ite_none_right_eq_some] at hm
        obtain rfl := Option.some.inj hm.2
        obtain ⟨q, hq, -⟩ := hst
        by_cases hfull : s.mem.rx.tail = s.mem.rx.head.next
        · rw [show rx0 s.mem b = s.mem from if_pos hfull]
          exact hp
        · exact rxSeen_rx0 hq hfull b hp

end Steps

/-! ### Runs -/

section Runs

variable {s₀ s : World τ zt zr} {h : Trace τ zt zr}

theorem rx_kept (hrun : Run (usartCode zt zr) s₀ h s) (h₀ : s₀.mem.Idle) (hout : s₀.Outside)
    (hapart : RxApart h) : Kept (rxAssertions τ zt zr) h s :=
  rx_outline.sound hrun hout ⟨[], h₀.rx, rfl⟩ hapart

/-- The ring, and what has been learnt by a task wherever it is. -/
theorem rx_reached (hrun : Run (usartCode zt zr) s₀ h s) (h₀ : s₀.mem.Idle) (hout : s₀.Outside)
    (hapart : RxApart h) : RxSteady h s.mem ∧
      ∀ t p, s.place t = some p → rxLearnt s.mem p := by
  have hk := rx_kept hrun h₀ hout hapart
  exact ⟨hk.quiet fun p _ => rfl, fun t p hp => (hk.asserted (fun p _ => rfl) hp).2⟩

/-- What has been received is what has been returned, and then what is in the ring. -/
theorem received_eq (hrun : Run (usartCode zt zr) s₀ h s) (h₀ : s₀.mem.Idle) (hout : s₀.Outside)
    (hapart : RxApart h) : received h = taken h ++ s.mem.rx.bytes := by
  obtain ⟨⟨q, hq, hall⟩, _⟩ := rx_reached hrun h₀ hout hapart
  rw [hq.bytes_eq]
  exact hall

/-- What the first read of a function that reads twice has shown. -/
theorem rx_seen (hrun : Run (usartCode zt zr) s₀ h s) (h₀ : s₀.mem.Idle) (hout : s₀.Outside)
    (hapart : RxApart h) {p : UsartPc zt zr} (hat : s.here = some p)
    (hun : Unspoilt takes s.cTask h) : rxSeen s.mem p :=
  rx_reading.sound rx_outline hrun hout ⟨[], h₀.rx, rfl⟩ hapart s.cTask p hat hun

/-- A call returns the first byte in the ring. -/
theorem got_first {u : Usart zt zr} {i : Bool} {q : List Byte} {pc : GetPc zr} {r : Option Byte}
    (hq : u.rx.Holds q) (hp : rxLearnt u (.get pc))
    (hgoes : (getStmt u i pc : UsartEffect zt zr).goes = .inr (.got r)) : r = q.head? := by
  cases pc with
  | test tail =>
      obtain rfl : tail = u.rx.tail := hp
      by_cases hempty : u.rx.tail = u.rx.head
      · simp only [getStmt, if_pos hempty] at hgoes
        obtain rfl := UsartResult.got.inj (Sum.inr.inj hgoes)
        rw [hq.empty_iff.mp hempty.symm]
        rfl
      · simp only [getStmt, if_neg hempty] at hgoes
        exact absurd hgoes (by simp)
  | store tail byte =>
      obtain ⟨rfl, hne, hread⟩ := hp
      obtain rfl := UsartResult.got.inj (Sum.inr.inj hgoes)
      rw [hq.peek (mt hq.empty_iff.mpr hne), hread]
  | _ => exact absurd hgoes (by simp [getStmt])

omit [DecidableEq τ] in
theorem receivedBy_or (c : World τ zt zr × Step τ zt zr) :
    receivedBy c = arrivedBy c ∨ receivedBy c = none := by
  unfold receivedBy arrivedBy
  split
  · by_cases hfull : c.1.mem.rx.tail = c.1.mem.rx.head.next
    · exact Or.inr (if_pos hfull)
    · exact Or.inl (if_neg hfull)
  · exact Or.inr rfl

omit [DecidableEq τ] in
/-- A byte is dropped just when it finds all slots but one taken. -/
theorem receivedBy_eq_iff (c : World τ zt zr × Step τ zt zr) : receivedBy c = arrivedBy c ↔
    ∀ b, c.2 = .irq (.rx b) → c.1.mem.rx.bytes.length + 1 < zr.size := by
  unfold receivedBy arrivedBy
  split
  · rename_i b hb
    have hlt := c.1.mem.rx.length_bytes_lt
    by_cases hfull : c.1.mem.rx.tail = c.1.mem.rx.head.next
    · have hlen := c.1.mem.rx.full_iff.mp hfull
      rw [if_pos hfull]
      exact ⟨fun hc => absurd hc (by simp), fun hall => absurd (hall b hb) (by omega)⟩
    · have hlen := mt c.1.mem.rx.full_iff.mpr hfull
      rw [if_neg hfull]
      exact ⟨fun _ _ _ => by omega, fun _ => rfl⟩
  · rename_i hno
    exact ⟨fun _ b hb => absurd hb (hno b), fun _ => rfl⟩

/-- **Nothing is dropped** just when every byte finds less than all slots but one taken:
what is returned, with what is in the ring, is then all that has arrived.  Otherwise it
is what has arrived with some bytes left out. -/
theorem lossless_iff (hrun : Run (usartCode zt zr) s₀ h s) (h₀ : s₀.mem.Idle)
    (hout : s₀.Outside) (hapart : RxApart h) :
    (taken h ++ s.mem.rx.bytes).Sublist (arrived h) ∧
      (arrived h = taken h ++ s.mem.rx.bytes ↔
        ∀ c ∈ h, ∀ b, c.2 = .irq (.rx b) → c.1.mem.rx.bytes.length + 1 < zr.size) := by
  have hsub : ∀ c ∈ h, receivedBy c = arrivedBy c ∨ receivedBy c = none :=
    fun c _ => receivedBy_or c
  rw [← received_eq hrun h₀ hout hapart]
  refine ⟨shown_sublist hsub, ?_⟩
  rw [eq_comm]
  refine (shown_eq_iff hsub).trans ⟨fun heq c hc => ?_, fun hall c hc => ?_⟩
  · exact (receivedBy_eq_iff c).mp (heq c hc)
  · exact (receivedBy_eq_iff c).mpr (hall c hc)

/-- The fourth byte finds three in the ring. -/
theorem lossless_iff_full : ∃ h s, Run (usartCode four four) afterInit h s ∧
    arrived h = [65, 66, 67, 68] ∧ (taken h ++ s.mem.rx.bytes).Sublist (arrived h) ∧
    arrived h ≠ taken h ++ s.mem.rx.bytes := by
  have hplay : ((play (usartCode four four) [.irq (.rx 65), .irq (.rx 66), .irq (.rx 67),
      .irq (.rx 68)] ([], afterInit)).map fun c => decide (
        arrived c.1 = [65, 66, 67, 68] ∧ RxApart c.1 ∧ ∃ c' ∈ c.1, c'.2 = .irq (.rx 68) ∧
          c'.1.mem.rx.bytes.length + 1 = four.size)) = some true := by decide +kernel
  obtain ⟨⟨h, s⟩, hc, hdec⟩ := Option.map_eq_some_iff.mp hplay
  obtain ⟨harr, hapart, c, hmem, hlast, hfull⟩ := of_decide_eq_true hdec
  have hrun := afterInit_run hc
  obtain ⟨hsub, hiff⟩ := lossless_iff hrun uart0Init_idle afterInit_outside hapart
  refine ⟨h, s, hrun, harr, hsub, fun heq => ?_⟩
  have hroom := hiff.mp heq c hmem 68 hlast
  omega

/-- **The count** that `uart0_AvailableBytes` returns is never more than what is there, if
nobody has taken a byte since it has read `rx0_Head`. -/
theorem available_le (hrun : Run (usartCode zt zr) s₀ h s) (h₀ : s₀.mem.Idle)
    (hout : s₀.Outside) (hapart : RxApart h) {head : Index zr}
    (hat : s.here = some (.available (.loadTail head))) (hun : Unspoilt takes s.cTask h) :
    ∃ n, (availableStmt s.mem s.iflag (.loadTail head) : UsartEffect zt zr).goes =
        .inr (.available n) ∧ n.toNat ≤ s.mem.rx.bytes.length := by
  obtain ⟨q, n, hq, hn, hhead⟩ : Counted s.mem head := rx_seen hrun h₀ hout hapart hat hun
  have hshort := hq.short
  have htail := s.mem.rx.tail.lt
  refine ⟨_, rfl, ?_⟩
  rw [hq.bytes_eq, head.dist_toNat, hhead, Nat.mod_add_mod,
    show s.mem.rx.tail.val.toNat + n + (zr.size - s.mem.rx.tail.val.toNat) = n + zr.size by omega,
    Nat.add_mod_right, Nat.mod_eq_of_lt (by omega)]
  exact hn

/-- A byte arrives between the two reads. -/
theorem available_le_between : ∃ h s n head, Run (usartCode four four) afterInit h s ∧
    s.here = some (.available (.loadTail head)) ∧
    (availableStmt s.mem s.iflag (.loadTail head) : UsartEffect four four).goes =
      .inr (.available n) ∧ n.toNat ≤ s.mem.rx.bytes.length := by
  have hplay : ((play (usartCode four four) [.irq (.rx 65), .call (.available .loadHead), .stmt,
      .irq (.rx 66)] ([], afterInit)).map fun c => decide (RxApart c.1 ∧
        c.2.here = some (.available (.loadTail (Index.next .zero))) ∧
        Unspoilt takes c.2.cTask c.1)) = some true := by
    decide +kernel
  obtain ⟨⟨h, s⟩, hc, hdec⟩ := Option.map_eq_some_iff.mp hplay
  obtain ⟨hapart, hat, hun⟩ := of_decide_eq_true hdec
  have hrun := afterInit_run hc
  obtain ⟨n, hgoes, hle⟩ := available_le hrun uart0Init_idle afterInit_outside hapart hat hun
  exact ⟨h, s, n, _, hrun, hat, hgoes, hle⟩

end Runs

end Usart

end AtmegaScheduler
