/-
The UART library: two circular buffers between the tasks and the interrupts.

A task puts bytes behind `tx0_Head`, and the data register empty interrupt takes them
from behind `tx0_Tail`; the receive interrupt puts bytes behind `rx0_Head`, and a task
takes them from behind `rx0_Tail`.  Neither side waits for the other inside of an
interrupt, and `uart0_putc` only disables interrupts to move `tx0_Head` and to set
`UDRIE0`, so the places of a call are the accesses it makes.

This is the configuration the repository builds: one USART, no flow control, no echo in
`getc`, and the inline assembly in place of the plain C.
-/
import AtmegaScheduler.Avr.Cpu
import AtmegaScheduler.Lib.HeadTail
import AtmegaScheduler.Lib.Preemption

namespace AtmegaScheduler

open Avr

/-- A size of a buffer: a power of two, and a byte can be an index. -/
structure BufferSize where
  log2 : Nat
  fits : log2 ≤ 8

namespace BufferSize

/-- `TX0_BUFFER_SIZE` and `RX0_BUFFER_SIZE` when nothing else is configured. -/
def default : BufferSize := ⟨5, by decide⟩

def size (z : BufferSize) : Nat := 2 ^ z.log2

/-- `TX0_BUFFER_MASK`, `RX0_BUFFER_MASK` -/
def mask (z : BufferSize) : Byte := BitVec.ofNat 8 (z.size - 1)

theorem size_pos (z : BufferSize) : 0 < z.size := Nat.two_pow_pos _

theorem size_le (z : BufferSize) : z.size ≤ 256 :=
  Nat.pow_le_pow_right (by decide) z.fits

theorem size_dvd (z : BufferSize) : z.size ∣ 256 :=
  Nat.pow_dvd_pow 2 z.fits

/-- Masking is taking the remainder. -/
theorem and_mask (z : BufferSize) (i : Byte) : (i &&& z.mask).toNat = i.toNat % z.size := by
  have hmask : z.mask.toNat = 2 ^ z.log2 - 1 := by
    have hle := z.size_le
    have hpos := z.size_pos
    unfold mask
    rw [BitVec.toNat_ofNat, Nat.mod_eq_of_lt (by omega)]
    rfl
  rw [BitVec.toNat_and, hmask, Nat.and_two_pow_sub_one_eq_mod]
  rfl

/-- A byte counts through a buffer a whole number of times. -/
theorem rounds (z : BufferSize) : ∃ c, 256 = z.size + z.size * c := by
  have hle := z.size_le
  obtain ⟨c, hc⟩ := z.size_dvd
  refine ⟨c - 1, ?_⟩
  rw [Nat.mul_sub, Nat.mul_one, ← hc]
  omega

/-- One less is the last index if there was nothing. -/
theorem and_mask_sub_one (z : BufferSize) (i : Byte) :
    ((i - 1) &&& z.mask).toNat = ((i &&& z.mask).toNat + (z.size - 1)) % z.size := by
  have hpos := z.size_pos
  obtain ⟨c, hc⟩ := z.rounds
  rw [z.and_mask, z.and_mask, BitVec.toNat_sub, Nat.mod_add_mod]
  show (256 - 1 + i.toNat) % 256 % z.size = _
  rw [Nat.mod_mod_of_dvd _ z.size_dvd, show 256 - 1 + i.toNat =
    i.toNat + (z.size - 1) + z.size * c by omega, Nat.add_mul_mod_self_left]

end BufferSize

/-- An index into a buffer of this size. -/
structure Index (z : BufferSize) where
  val : Byte
  lt : val.toNat < z.size
  deriving DecidableEq

namespace Index

variable {z : BufferSize}

/-- The index a reset leaves. -/
def zero : Index z := ⟨0, z.size_pos⟩

/-- `(i + 1) & mask` -/
def next (i : Index z) : Index z where
  val := (i.val + 1) &&& z.mask
  lt := by
    rw [z.and_mask]
    exact Nat.mod_lt _ z.size_pos

/-- `(i - j) & mask`, the number of steps from `j` to `i`. -/
def dist (i j : Index z) : Byte := (i.val - j.val) &&& z.mask

theorem next_toNat (i : Index z) : i.next.val.toNat = (i.val.toNat + 1) % z.size := by
  show ((i.val + 1) &&& z.mask).toNat = _
  rw [z.and_mask, BitVec.toNat_add]
  exact Nat.mod_mod_of_dvd _ z.size_dvd

theorem dist_toNat (i j : Index z) :
    (i.dist j).toNat = (i.val.toNat + (z.size - j.val.toNat)) % z.size := by
  have hj := j.lt
  have hle := z.size_le
  obtain ⟨c, hc⟩ := z.rounds
  show ((i.val - j.val) &&& z.mask).toNat = _
  rw [z.and_mask, BitVec.toNat_sub]
  show (256 - j.val.toNat + i.val.toNat) % 256 % z.size = _
  rw [Nat.mod_mod_of_dvd _ z.size_dvd, show 256 - j.val.toNat + i.val.toNat =
      i.val.toNat + (z.size - j.val.toNat) + z.size * c by omega, Nat.add_mul_mod_self_left]

theorem ext_toNat {i j : Index z} (h : i.val.toNat = j.val.toNat) : i = j := by
  cases i
  cases j
  rw [mk.injEq]
  exact BitVec.eq_of_toNat_eq h

/-- Only in a buffer of one slot is the next slot the same. -/
theorem next_ne (hz : 1 < z.size) (i : Index z) : i.next ≠ i := by
  intro heq
  have hmod : (i.val.toNat + 1) % z.size = i.val.toNat := by rw [← i.next_toNat, heq]
  have hlt := i.lt
  rcases Nat.lt_or_ge (i.val.toNat + 1) z.size with hin | hend
  · rw [Nat.mod_eq_of_lt hin] at hmod
    omega
  · rw [show i.val.toNat + 1 = z.size by omega, Nat.mod_self] at hmod
    omega

theorem toNat_inj {i j : Index z} : i = j ↔ i.val.toNat = j.val.toNat :=
  ⟨fun h => by rw [h], ext_toNat⟩

end Index

/-- A buffer with its two indices: `tx0_buffer`, `tx0_Head` and `tx0_Tail`, or the same
of `rx0`. -/
structure UsartRing (z : BufferSize) where
  buffer : Ring.Slots Byte z.size
  head : Index z
  tail : Index z
  deriving DecidableEq

namespace UsartRing

variable {z : BufferSize}

/-- Before `main`. -/
def zero : UsartRing z := ⟨Vector.replicate z.size 0, .zero, .zero⟩

/-- `buffer[i]` -/
def read (r : UsartRing z) (i : Index z) : Byte := r.buffer.get ⟨i.val.toNat, i.lt⟩

/-- `buffer[i] = x` -/
def write (r : UsartRing z) (i : Index z) (x : Byte) : UsartRing z :=
  { r with buffer := r.buffer.set i.val.toNat x i.lt }

/-- The bytes in the ring, from `tail` on. -/
def bytes (r : UsartRing z) : List Byte :=
  (List.range (r.head.dist r.tail).toNat).filterMap fun i =>
    r.buffer.toList[(r.tail.val.toNat + 1 + i) % r.buffer.toList.length]?

/-- The bytes `q` are in the ring. -/
def Holds (r : UsartRing z) (q : List Byte) : Prop :=
  Ring.Between r.buffer.toList r.head.val.toNat r.tail.val.toNat q

variable {r : UsartRing z} {q : List Byte} {x : Byte}

@[simp] theorem write_tail (i : Index z) : (r.write i x).tail = r.tail := rfl

theorem length_buffer (r : UsartRing z) : r.buffer.toList.length = z.size :=
  Vector.length_toList

theorem read_write_self (r : UsartRing z) (i : Index z) (x : Byte) : (r.write i x).read i = x :=
  Vector.getElem_set_self i.lt

theorem read_eq (r : UsartRing z) (i : Index z) :
    r.buffer.toList[i.val.toNat]? = some (r.read i) := by
  rw [List.getElem?_eq_getElem (by rw [r.length_buffer]; exact i.lt)]
  exact congrArg some (Vector.getElem_toList _)

theorem next_slot (r : UsartRing z) (i : Index z) :
    i.next.val.toNat = (i.val.toNat + 1) % r.buffer.toList.length := by
  rw [r.length_buffer, i.next_toNat]

/-- Whatever the indices are, they have some bytes between them. -/
theorem exists_holds (r : UsartRing z) : ∃ q, r.Holds q :=
  Ring.Between.exists_of_lt (by rw [r.length_buffer]; exact r.head.lt)
    (by rw [r.length_buffer]; exact r.tail.lt)

theorem holds_zero : (zero : UsartRing z).Holds [] :=
  Ring.Between.nil (by rw [length_buffer]; exact z.size_pos)

namespace Holds

theorem short (h : r.Holds q) : q.length < z.size := by
  have hshort := Ring.Between.short h
  rwa [r.length_buffer] at hshort

theorem empty_iff (h : r.Holds q) : r.head = r.tail ↔ q = [] :=
  Index.toNat_inj.trans (Ring.Between.empty_iff h)

theorem full_iff (h : r.Holds q) : r.tail = r.head.next ↔ q.length + 1 = z.size := by
  rw [Index.toNat_inj, r.next_slot, eq_comm, Ring.Between.full_iff h, r.length_buffer]

theorem room (h : r.Holds q) (hfree : r.tail ≠ r.head.next) : q.length + 1 < z.size := by
  have hshort := h.short
  have hne := mt h.full_iff.mpr hfree
  omega

theorem write (h : r.Holds q) (x : Byte) : (r.write r.head.next x).Holds q := by
  have hstore := Ring.Between.store h x
  rw [← r.next_slot] at hstore
  unfold Holds UsartRing.write
  rwa [Vector.toList_set]

theorem push (h : r.Holds q) (hfree : r.tail ≠ r.head.next) (hx : r.read r.head.next = x) :
    ({ r with head := r.head.next } : UsartRing z).Holds (q ++ [x]) := by
  unfold Holds
  rw [r.next_slot]
  refine Ring.Between.push h ?_ ?_
  · rw [r.length_buffer]
    exact h.room hfree
  · rw [← r.next_slot, r.read_eq, hx]

theorem front (h : r.Holds (x :: q)) : r.read r.tail.next = x := by
  have hfront := Ring.Between.front h
  rw [← r.next_slot, r.read_eq] at hfront
  exact Option.some.inj hfront

theorem pop (h : r.Holds (x :: q)) : ({ r with tail := r.tail.next } : UsartRing z).Holds q := by
  unfold Holds
  rw [r.next_slot]
  exact Ring.Between.pop h

theorem unique {q' : List Byte} (h : r.Holds q) (h' : r.Holds q') : q' = q :=
  Ring.Between.unique h h'

/-- The indices tell how many bytes there are. -/
theorem count (h : r.Holds q) : (r.head.dist r.tail).toNat = q.length := by
  rw [r.head.dist_toNat]
  have hcount := Ring.Between.count h
  rwa [r.length_buffer] at hcount

theorem bytes_eq (h : r.Holds q) : r.bytes = q := by
  unfold bytes
  rw [h.count]
  exact (Ring.Between.window h).read

theorem peek (h : r.Holds q) (hne : q ≠ []) : q.head? = some (r.read r.tail.next) := by
  obtain ⟨x, rest, rfl⟩ := List.exists_cons_of_ne_nil hne
  rw [h.front]
  rfl

theorem last (h : r.Holds (q ++ [x])) : r.read r.head = x := by
  have hlast := Ring.Between.last h
  rw [r.read_eq] at hlast
  exact Option.some.inj hlast

end Holds

/-- The ring is full when all slots but one are taken. -/
theorem full_iff (r : UsartRing z) : r.tail = r.head.next ↔ r.bytes.length + 1 = z.size := by
  obtain ⟨q, hq⟩ := r.exists_holds
  rw [hq.bytes_eq]
  exact hq.full_iff

theorem length_bytes_lt (r : UsartRing z) : r.bytes.length < z.size := by
  obtain ⟨q, hq⟩ := r.exists_holds
  rw [hq.bytes_eq]
  exact hq.short

end UsartRing

/-! ### The registers -/

/-- `(1 << UDRIE0)` -/
def udrie : Byte := 0x20

/-- `(1 << RXCIE0)` -/
def rxcie : Byte := 0x80

/-- `USART0_CONFIG_B`: `TXEN0`, `RXEN0` and `RXCIE0` -/
def usart0ConfigB : Byte := 0x98

/-- The two rings, and the register that enables the interrupts. -/
structure Usart (zt zr : BufferSize) where
  tx : UsartRing zt
  rx : UsartRing zr
  ucsr0b : Byte
  deriving DecidableEq

/-- What a call returns: `COMPLETED` or `BUFFER_FULL`, a byte or that there is none,
nothing, a number of bytes, or the byte that comes next. -/
inductive UsartResult
  | put (completed : Bool)
  | got (byte : Option Byte)
  | flushed
  | available (n : Byte)
  | toSend (n : Byte)
  | peeked (byte : Byte)
  deriving DecidableEq, Repr

/-! ### The code -/

/-- In `uart0_putc` and `uart0_putc_noblock`.  `head` is the register with the index to
write at, `sreg` what the interrupt flag is at the end: `uart0_putc` ends with `reti`,
which sets it, and the atomic block of `uart0_putc_noblock` puts back what it has found. -/
inductive PutPc (z : BufferSize)
  /-- `lds head, tx0_Head`, and its increment. -/
  | load
  /-- `waitforspace:`, or `if (tx0_Tail == tmp_tx_Head) return BUFFER_FULL` -/
  | test (head : Index z)
  /-- `st X, data` -/
  | store (head : Index z)
  /-- `sreg_save = SREG` of the atomic block. -/
  | save (head : Index z)
  | cli (head : Index z) (sreg : Bool)
  /-- `tx0_Head = tmp_tx_Head` -/
  | publish (head : Index z) (sreg : Bool)
  /-- `lds r25, UCSR0B` -/
  | loadControl (sreg : Bool)
  /-- `ori r25, (1 << UDRIE0)` and `sts UCSR0B, r25` -/
  | storeControl (r25 : Byte) (sreg : Bool)
  /-- `reti`, or the end of the atomic block. -/
  | restore (sreg : Bool)
  deriving DecidableEq

/-- A call that puts a byte; a blocking one waits for room. -/
structure PutCall (z : BufferSize) where
  blocking : Bool
  data : Byte
  pc : PutPc z
  deriving DecidableEq

def uart0Putc {z : BufferSize} (data : Byte) : PutCall z := ⟨true, data, .load⟩

def uart0PutcNoblock {z : BufferSize} (data : Byte) : PutCall z := ⟨false, data, .load⟩

/-- In `uart0_getc`, `uart0_getData` and `uart0_LoadData`, which differ in how they tell
that there is no byte. -/
inductive GetPc (z : BufferSize)
  /-- `tmp_rx_Tail = rx0_Tail` -/
  | load
  /-- `if (tmp_rx_Tail == rx0_Head)` -/
  | test (tail : Index z)
  /-- `ld temp, X` -/
  | fetch (tail : Index z)
  /-- `rx0_Tail = tmp_rx_Tail` -/
  | store (tail : Index z) (byte : Byte)
  deriving DecidableEq

/-- What `uart0_getc` makes of it. -/
def uart0Getc (r : Option Byte) : Byte := r.getD 0

/-- What `uart0_getData` makes of it. -/
def uart0GetData : Option Byte → Int
  | none => -1
  | some b => b.toNat

/-- What `uart0_LoadData` makes of it: the status, and what is stored through `data`. -/
def uart0LoadData (data : Byte) : Option Byte → Byte × Byte
  | none => (0, data)
  | some b => (1, b)

/-- `uart0_getData` and `uart0_LoadData` tell that there was no byte. -/
theorem no_byte_iff (r : Option Byte) (data : Byte) :
    (uart0GetData r = -1 ↔ r = none) ∧ ((uart0LoadData data r).1 = 0 ↔ r = none) := by
  cases r with
  | none => exact ⟨iff_of_true rfl rfl, iff_of_true rfl rfl⟩
  | some b =>
      have hnone : some b ≠ none := Option.some_ne_none b
      have hnat : (b.toNat : Int) ≠ -1 := by omega
      exact ⟨iff_of_false hnat hnone, iff_of_false (show (1 : Byte) ≠ 0 by decide) hnone⟩

/-- In `uart0_flush`: the two reads of `tx0_Tail != tx0_Head`. -/
inductive FlushPc (z : BufferSize)
  | loadTail
  | loadHead (tail : Index z)
  deriving DecidableEq

/-- In `uart0_AvailableBytes`: the two reads of `rx0_Head - rx0_Tail`. -/
inductive AvailablePc (z : BufferSize)
  | loadHead
  | loadTail (head : Index z)
  deriving DecidableEq

/-- In `uart0_BytesToSend`: the two reads of `tx0_Head - tx0_Tail - 1`. -/
inductive BytesToSendPc (z : BufferSize)
  | loadHead
  | loadTail (head : Index z)
  deriving DecidableEq

/-- In `uart0_peek`: the read of `rx0_Tail`, and that of the slot behind it. -/
inductive PeekPc (z : BufferSize)
  | loadTail
  | loadSlot (tail : Index z)
  deriving DecidableEq

/-- Where a task can be. -/
inductive UsartPc (zt zr : BufferSize)
  | put (c : PutCall zt)
  | get (pc : GetPc zr)
  | flush (pc : FlushPc zt)
  | available (pc : AvailablePc zr)
  | toSend (pc : BytesToSendPc zt)
  | peek (pc : PeekPc zr)
  deriving DecidableEq

section Code

variable {zt zr : BufferSize}

/-- What a statement leaves behind. -/
abbrev UsartEffect (zt zr : BufferSize) : Type :=
  Preemption.Effect (Usart zt zr) (UsartPc zt zr) UsartResult

/-- The call goes on. -/
def PutCall.at {z : BufferSize} (c : PutCall z) (pc : PutPc z) : PutCall z := { c with pc := pc }

def putStmt (u : Usart zt zr) (i : Bool) (c : PutCall zt) : UsartEffect zt zr :=
  match c.pc with
  | .load => ⟨u, i, .inl (.put (c.at (.test u.tx.head.next)))⟩
  | .test head =>
      if u.tx.tail = head then
        if c.blocking then ⟨u, i, .inl (.put (c.at (.test head)))⟩ else ⟨u, i, .inr (.put false)⟩
      else ⟨u, i, .inl (.put (c.at (.store head)))⟩
  | .store head =>
      ⟨{ u with tx := u.tx.write head c.data }, i,
        .inl (.put (c.at (if c.blocking then .cli head true else .save head)))⟩
  | .save head => ⟨u, i, .inl (.put (c.at (.cli head i)))⟩
  | .cli head sreg => ⟨u, false, .inl (.put (c.at (.publish head sreg)))⟩
  | .publish head sreg =>
      ⟨{ u with tx := { u.tx with head := head } }, i, .inl (.put (c.at (.loadControl sreg)))⟩
  | .loadControl sreg => ⟨u, i, .inl (.put (c.at (.storeControl u.ucsr0b sreg)))⟩
  | .storeControl r25 sreg =>
      ⟨{ u with ucsr0b := r25 ||| udrie }, i, .inl (.put (c.at (.restore sreg)))⟩
  | .restore sreg => ⟨u, sreg, .inr (.put true)⟩

def getStmt (u : Usart zt zr) (i : Bool) : GetPc zr → UsartEffect zt zr
  | .load => ⟨u, i, .inl (.get (.test u.rx.tail))⟩
  | .test tail =>
      if tail = u.rx.head then ⟨u, i, .inr (.got none)⟩ else ⟨u, i, .inl (.get (.fetch tail.next))⟩
  | .fetch tail => ⟨u, i, .inl (.get (.store tail (u.rx.read tail)))⟩
  | .store tail byte => ⟨{ u with rx := { u.rx with tail := tail } }, i, .inr (.got (some byte))⟩

def flushStmt (u : Usart zt zr) (i : Bool) : FlushPc zt → UsartEffect zt zr
  | .loadTail => ⟨u, i, .inl (.flush (.loadHead u.tx.tail))⟩
  | .loadHead tail =>
      if tail = u.tx.head then ⟨u, i, .inr .flushed⟩ else ⟨u, i, .inl (.flush .loadTail)⟩

def availableStmt (u : Usart zt zr) (i : Bool) : AvailablePc zr → UsartEffect zt zr
  | .loadHead => ⟨u, i, .inl (.available (.loadTail u.rx.head))⟩
  | .loadTail head => ⟨u, i, .inr (.available (head.dist u.rx.tail))⟩

/-- `(tx0_Head - tx0_Tail - 1) & TX0_BUFFER_MASK` -/
def uart0BytesToSend (head tail : Index zt) : Byte := (head.val - tail.val - 1) &&& zt.mask

def bytesToSendStmt (u : Usart zt zr) (i : Bool) : BytesToSendPc zt → UsartEffect zt zr
  | .loadHead => ⟨u, i, .inl (.toSend (.loadTail u.tx.head))⟩
  | .loadTail head => ⟨u, i, .inr (.toSend (uart0BytesToSend head u.tx.tail))⟩

def peekStmt (u : Usart zt zr) (i : Bool) : PeekPc zr → UsartEffect zt zr
  | .loadTail => ⟨u, i, .inl (.peek (.loadSlot u.rx.tail.next))⟩
  | .loadSlot tail => ⟨u, i, .inr (.peeked (u.rx.read tail))⟩

/-- One statement. -/
def usartStmt (u : Usart zt zr) (i : Bool) : UsartPc zt zr → UsartEffect zt zr
  | .put c => putStmt u i c
  | .get pc => getStmt u i pc
  | .flush pc => flushStmt u i pc
  | .available pc => availableStmt u i pc
  | .toSend pc => bytesToSendStmt u i pc
  | .peek pc => peekStmt u i pc

/-- In a function that puts a byte. -/
def UsartPc.isPut : UsartPc zt zr → Bool
  | .put _ => true
  | _ => false

/-- In a function that takes one. -/
def UsartPc.isGet : UsartPc zt zr → Bool
  | .get _ => true
  | _ => false

/-! What a statement does to the memory. -/

section Statements

variable {u : Usart zt zr} {i : Bool} {p' : UsartPc zt zr}

theorem putStmt_mem (c : PutCall zt) : (putStmt u i c : UsartEffect zt zr).mem =
    match c.pc with
    | .store head => { u with tx := u.tx.write head c.data }
    | .publish head _ => { u with tx := { u.tx with head := head } }
    | .storeControl r25 _ => { u with ucsr0b := r25 ||| udrie }
    | _ => u := by
  obtain ⟨blocking, data, pc⟩ := c
  cases pc with
  | test head =>
      by_cases hfull : u.tx.tail = head
      · cases blocking with
        | true => simp only [putStmt, if_pos hfull, if_true]
        | false => simp only [putStmt, if_pos hfull, Bool.false_eq_true, if_false]
      · simp only [putStmt, if_neg hfull]
  | _ => rfl

theorem getStmt_mem (pc : GetPc zr) : (getStmt u i pc : UsartEffect zt zr).mem =
    match pc with
    | .store tail _ => { u with rx := { u.rx with tail := tail } }
    | _ => u := by
  cases pc with
  | test tail =>
      by_cases hempty : tail = u.rx.head
      · simp only [getStmt, if_pos hempty]
      · simp only [getStmt, if_neg hempty]
  | _ => rfl

theorem flushStmt_mem (pc : FlushPc zt) : (flushStmt u i pc : UsartEffect zt zr).mem = u := by
  cases pc with
  | loadTail => rfl
  | loadHead tail =>
      by_cases hsame : tail = u.tx.head
      · simp only [flushStmt, if_pos hsame]
      · simp only [flushStmt, if_neg hsame]

/-- The functions that only read. -/
theorem usartStmt_mem (p : UsartPc zt zr) (hput : p.isPut = false) (hget : p.isGet = false) :
    (usartStmt u i p).mem = u := by
  cases p with
  | put c => exact absurd hput (by simp [UsartPc.isPut])
  | get pc => exact absurd hget (by simp [UsartPc.isGet])
  | flush pc => exact flushStmt_mem pc
  | available pc => cases pc <;> rfl
  | toSend pc => cases pc <;> rfl
  | peek pc => cases pc <;> rfl

/-- A call that puts nothing leaves the transmitter alone. -/
theorem usartStmt_tx {p : UsartPc zt zr} (hp : p.isPut = false) :
    (usartStmt u i p).mem.tx = u.tx ∧ (usartStmt u i p).mem.ucsr0b = u.ucsr0b := by
  by_cases hget : p.isGet = false
  · rw [usartStmt_mem p hp hget]
    exact ⟨rfl, rfl⟩
  · cases p with
    | get pc =>
        show (getStmt u i pc : UsartEffect zt zr).mem.tx = _ ∧
          (getStmt u i pc : UsartEffect zt zr).mem.ucsr0b = _
        rw [getStmt_mem]
        cases pc <;> exact ⟨rfl, rfl⟩
    | _ => exact absurd rfl hget

/-- A call that takes nothing leaves the receiver alone. -/
theorem usartStmt_rx {p : UsartPc zt zr} (hp : p.isGet = false) :
    (usartStmt u i p).mem.rx = u.rx := by
  by_cases hput : p.isPut = false
  · rw [usartStmt_mem p hput hp]
  · cases p with
    | put c =>
        show (putStmt u i c : UsartEffect zt zr).mem.rx = u.rx
        obtain ⟨blocking, data, pc⟩ := c
        rw [putStmt_mem]
        cases pc <;> rfl
    | _ => exact absurd rfl hput

/-! A call goes on with the same function. -/

theorem putStmt_goes {c : PutCall zt} (hgoes : (putStmt u i c : UsartEffect zt zr).goes = .inl p') :
    ∃ c', p' = .put c' := by
  obtain ⟨blocking, data, pc⟩ := c
  cases pc with
  | test head =>
      unfold putStmt at hgoes
      by_cases hfull : u.tx.tail = head
      · cases blocking with
        | true =>
            simp only [if_pos hfull, if_true] at hgoes
            exact ⟨_, (Sum.inl.inj hgoes).symm⟩
        | false =>
            simp only [if_pos hfull, Bool.false_eq_true, if_false] at hgoes
            exact absurd hgoes (by simp)
      · simp only [if_neg hfull] at hgoes
        exact ⟨_, (Sum.inl.inj hgoes).symm⟩
  | restore sreg => exact absurd hgoes (by simp [putStmt])
  | _ => exact ⟨_, (Sum.inl.inj hgoes).symm⟩

theorem flushStmt_goes {pc : FlushPc zt}
    (hgoes : (flushStmt u i pc : UsartEffect zt zr).goes = .inl p') :
    p' = .flush (.loadHead u.tx.tail) ∨ p' = .flush .loadTail := by
  cases pc with
  | loadTail => exact Or.inl (Sum.inl.inj hgoes).symm
  | loadHead tail =>
      by_cases hsame : tail = u.tx.head
      · simp only [flushStmt, if_pos hsame] at hgoes
        exact absurd hgoes (by simp)
      · simp only [flushStmt, if_neg hsame] at hgoes
        exact Or.inr (Sum.inl.inj hgoes).symm

theorem availableStmt_goes {pc : AvailablePc zr}
    (hgoes : (availableStmt u i pc : UsartEffect zt zr).goes = .inl p') :
    p' = .available (.loadTail u.rx.head) := by
  cases pc with
  | loadHead => exact (Sum.inl.inj hgoes).symm
  | loadTail head => exact absurd hgoes (by simp [availableStmt])

theorem bytesToSendStmt_goes {pc : BytesToSendPc zt}
    (hgoes : (bytesToSendStmt u i pc : UsartEffect zt zr).goes = .inl p') :
    p' = .toSend (.loadTail u.tx.head) := by
  cases pc with
  | loadHead => exact (Sum.inl.inj hgoes).symm
  | loadTail head => exact absurd hgoes (by simp [bytesToSendStmt])

theorem peekStmt_goes {pc : PeekPc zr}
    (hgoes : (peekStmt u i pc : UsartEffect zt zr).goes = .inl p') :
    p' = .peek (.loadSlot u.rx.tail.next) := by
  cases pc with
  | loadTail => exact (Sum.inl.inj hgoes).symm
  | loadSlot tail => exact absurd hgoes (by simp [peekStmt])

theorem getStmt_goes {pc : GetPc zr} (hgoes : (getStmt u i pc : UsartEffect zt zr).goes = .inl p') :
    ∃ pc', p' = .get pc' := by
  cases pc with
  | test tail =>
      by_cases hempty : tail = u.rx.head
      · simp only [getStmt, if_pos hempty] at hgoes
        exact absurd hgoes (by simp)
      · simp only [getStmt, if_neg hempty] at hgoes
        exact ⟨_, (Sum.inl.inj hgoes).symm⟩
  | store tail byte => exact absurd hgoes (by simp [getStmt])
  | _ => exact ⟨_, (Sum.inl.inj hgoes).symm⟩

theorem usartStmt_goes {p : UsartPc zt zr} (hgoes : (usartStmt u i p).goes = .inl p') :
    p'.isPut = p.isPut ∧ p'.isGet = p.isGet := by
  cases p with
  | put c =>
      obtain ⟨c', rfl⟩ := putStmt_goes hgoes
      exact ⟨rfl, rfl⟩
  | get pc =>
      obtain ⟨pc', rfl⟩ := getStmt_goes hgoes
      exact ⟨rfl, rfl⟩
  | flush pc =>
      obtain rfl | rfl := flushStmt_goes hgoes
      · exact ⟨rfl, rfl⟩
      · exact ⟨rfl, rfl⟩
  | available pc =>
      obtain rfl := availableStmt_goes hgoes
      exact ⟨rfl, rfl⟩
  | toSend pc =>
      obtain rfl := bytesToSendStmt_goes hgoes
      exact ⟨rfl, rfl⟩
  | peek pc =>
      obtain rfl := peekStmt_goes hgoes
      exact ⟨rfl, rfl⟩

end Statements

/-- Where a call begins. -/
def UsartPc.entry : UsartPc zt zr → Bool
  | .put c => decide (c.pc = .load)
  | .get pc => decide (pc = .load)
  | .flush pc => decide (pc = .loadTail)
  | .available pc => decide (pc = .loadHead)
  | .toSend pc => decide (pc = .loadHead)
  | .peek pc => decide (pc = .loadTail)

/-! ### The interrupts -/

/-- The interrupts: the data register can take a byte, or a byte has arrived. -/
inductive UsartIrq
  | udre
  | rx (byte : Byte)
  deriving DecidableEq, Repr

/-- `ISR(UDRE0_INTERRUPT)`, with the byte it writes to `UDR0`. -/
def udre0 (u : Usart zt zr) : Usart zt zr × Byte :=
  let tail := u.tx.tail.next
  ({ u with
      tx := { u.tx with tail := tail }
      ucsr0b := if tail = u.tx.head then u.ucsr0b &&& ~~~udrie else u.ucsr0b },
    u.tx.read tail)

/-- `ISR(RX0_INTERRUPT)`, which has read `byte` from `UDR0`. -/
def rx0 (u : Usart zt zr) (byte : Byte) : Usart zt zr :=
  let head := u.rx.head.next
  if u.rx.tail = head then u else { u with rx := { u.rx.write head byte with head := head } }

/-- A handler runs when its interrupt is enabled. -/
def usartIrq (u : Usart zt zr) : UsartIrq → Option (Usart zt zr)
  | .udre => if u.ucsr0b &&& udrie ≠ 0 then some (udre0 u).1 else none
  | .rx byte => if u.ucsr0b &&& rxcie ≠ 0 then some (rx0 u byte) else none

variable (zt zr) in
/-- The driver. -/
def usartCode : Preemption.Code (Usart zt zr) (UsartPc zt zr) UsartResult UsartIrq where
  entry := UsartPc.entry
  stmt := usartStmt
  irq := usartIrq

/-- `uart_init`, on rings nobody has used. -/
def uart0Init : Usart zt zr := ⟨.zero, .zero, usart0ConfigB⟩

/-- Nothing is in the rings and `UDRIE0` is clear. -/
structure Usart.Idle (u : Usart zt zr) : Prop where
  tx : u.tx.Holds []
  rx : u.rx.Holds []
  control : u.ucsr0b &&& udrie = 0

theorem uart0Init_idle : (uart0Init : Usart zt zr).Idle where
  tx := UsartRing.holds_zero
  rx := UsartRing.holds_zero
  control := by
    show usart0ConfigB &&& udrie = 0
    decide

end Code

end AtmegaScheduler
