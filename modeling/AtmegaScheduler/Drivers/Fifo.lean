/-
The circular buffer `fifo_t`, as `fifo.h` has it.

Its counters are 16-bit signed integers, so every sum, remainder and index is checked
here: what would overflow, divide by zero or leave the buffer is a fault.  A queue
that has been initialised with a buffer of its size never faults, and behaves as a
bounded queue of items does.  `head` is redundant: it is `tail` plus `count`, wrapped.
-/
import AtmegaScheduler.Avr.Cpu
import AtmegaScheduler.Lib.Ring

namespace AtmegaScheduler

open Avr

/-- What the target does not define. -/
inductive FifoFault
  | overflow
  | divByZero
  | nullBuffer
  | outOfBounds
  deriving DecidableEq, Repr

/-- `fifo_t`: the buffer is its slots, or null. -/
structure Fifo (α : Type) where
  buffer : Option (List α)
  size : Int
  count : Int
  head : Int
  tail : Int
  deriving DecidableEq, Repr

/-- The result of a sum, which has to be a 16-bit `int`. -/
def checked (v : Int) : Except FifoFault Int :=
  if -32768 ≤ v ∧ v ≤ 32767 then .ok v else .error .overflow

/-- `a % b`, which takes the sign of `a`. -/
def rem (a b : Int) : Except FifoFault Int :=
  if b = 0 then .error .divByZero else .ok (a.tmod b)

namespace Fifo

variable {α : Type}

/-- `buffer[i]` -/
def readSlot (f : Fifo α) (i : Int) : Except FifoFault α :=
  match f.buffer with
  | none => .error .nullBuffer
  | some buf =>
      if i < 0 then .error .outOfBounds
      else match buf[i.toNat]? with
        | none => .error .outOfBounds
        | some item => .ok item

/-- `buffer[i] = item` -/
def writeSlot (f : Fifo α) (i : Int) (item : α) : Except FifoFault (Fifo α) :=
  match f.buffer with
  | none => .error .nullBuffer
  | some buf =>
      if i < 0 ∨ buf.length ≤ i.toNat then .error .outOfBounds
      else .ok { f with buffer := some (buf.set i.toNat item) }

/-- `init`: a `size_t` becomes an `int`. -/
def init (buf : Option (List α)) (n : Word) : Fifo α where
  buffer := buf
  size := n.toInt
  count := 0
  head := 0
  tail := 0

/-- `get_size` -/
def getSize (f : Fifo α) : Int := f.size

/-- `get_used_size` -/
def getUsedSize (f : Fifo α) : Int := f.count

/-- `is_full` -/
def isFull (f : Fifo α) : Bool := decide (f.getUsedSize = f.size)

/-- `increment_head` -/
def incrementHead (f : Fifo α) : Except FifoFault (Bool × Fifo α) :=
  if f.getUsedSize = f.size then .ok (true, f)
  else do
    let next ← checked (f.head + 1)
    let head ← rem next f.size
    let count ← checked (f.count + 1)
    .ok (false, { f with head := head, count := count })

/-- `increment_tail` -/
def incrementTail (f : Fifo α) : Except FifoFault (Bool × Fifo α) :=
  if f.getUsedSize = 0 then .ok (true, f)
  else do
    let next ← checked (f.tail + 1)
    let tail ← rem next f.size
    let count ← checked (f.count - 1)
    .ok (false, { f with tail := tail, count := count })

/-- `enqueue` -/
def enqueue (f : Fifo α) (item : α) : Except FifoFault (Bool × Fifo α) :=
  if f.buffer.isNone then .ok (true, f)
  else if f.getUsedSize = f.size then .ok (true, f)
  else do
    let f ← f.writeSlot f.head item
    let (_, f) ← f.incrementHead
    .ok (false, f)

/-- `dequeue`: an empty queue has nothing to return, and returns what `tail` points to. -/
def dequeue (f : Fifo α) : Except FifoFault (α × Fifo α) :=
  if f.getUsedSize = 0 then do
    let item ← f.readSlot f.tail
    .ok (item, f)
  else do
    let item ← f.readSlot f.tail
    let (_, f) ← f.incrementTail
    .ok (item, f)

end Fifo

/-! ### Calls and runs -/

/-- The calls on a queue. -/
inductive FifoOp (α : Type)
  | enqueue (item : α)
  | dequeue
  | isFull
  | getUsedSize
  | getSize
  deriving DecidableEq, Repr

/-- What a call returns. -/
inductive FifoResult (α : Type)
  | flag (b : Bool)
  | item (x : α)
  | int (v : Int)
  deriving DecidableEq, Repr

namespace Fifo

variable {α : Type}

/-- One call. -/
def call (f : Fifo α) : FifoOp α → Except FifoFault (FifoResult α × Fifo α)
  | .enqueue item => do
      let (err, f) ← f.enqueue item
      .ok (.flag err, f)
  | .dequeue => do
      let (item, f) ← f.dequeue
      .ok (.item item, f)
  | .isFull => .ok (.flag f.isFull, f)
  | .getUsedSize => .ok (.int f.getUsedSize, f)
  | .getSize => .ok (.int f.getSize, f)

/-- Calls one after another, with their results. -/
def run (f : Fifo α) : List (FifoOp α) → Except FifoFault (List (FifoResult α) × Fifo α)
  | [] => .ok ([], f)
  | op :: ops => do
      let (r, f) ← f.call op
      let (rs, f) ← f.run ops
      .ok (r :: rs, f)

/-- The stored items, in order from `tail`. -/
def items (f : Fifo α) : List α :=
  (List.range f.count.toNat).filterMap fun (i : Nat) =>
    match f.readSlot ((f.tail + (i : Int)) % f.size) with
    | .ok item => some item
    | .error _ => none

/-! ### The bounded queue -/

/-- What a caller sees of a queue of capacity `n` that holds the items `q`. -/
structure Holds (n : Nat) (f : Fifo α) (q : List α) : Prop where
  items : f.items = q
  size : f.size = n
  count : f.count = q.length
  count_le : q.length ≤ n
  head : 0 ≤ f.head ∧ f.head < n
  tail : 0 ≤ f.tail ∧ f.tail < n

/-- What a bounded queue of `n` items does on a call: `q` are its items before and `q'`
after the call.  A call that leaves them alone leaves the whole queue `f` alone. -/
inductive Served (n : Nat) (f : Fifo α) : List α → FifoOp α → FifoResult α → Fifo α → List α → Prop
  | full {q : List α} {x : α} (h : q.length = n) : Served n f q (.enqueue x) (.flag true) f q
  | append {q : List α} {x : α} {f' : Fifo α} (h : q.length ≠ n) :
      Served n f q (.enqueue x) (.flag false) f' (q ++ [x])
  | empty {x : α} : Served n f [] .dequeue (.item x) f []
  | oldest {q : List α} {x : α} {f' : Fifo α} : Served n f (x :: q) .dequeue (.item x) f' q
  | isFull {q : List α} : Served n f q .isFull (.flag (decide (q.length = n))) f q
  | usedSize {q : List α} : Served n f q .getUsedSize (.int q.length) f q
  | size {q : List α} : Served n f q .getSize (.int n) f q

/-- A bounded queue serves call after call, and holds its items in between. -/
inductive Serves (n : Nat) :
    Fifo α → List α → List (FifoOp α) → List (FifoResult α) → Fifo α → List α → Prop
  | nil {f : Fifo α} {q : List α} (h : Holds n f q) : Serves n f q [] [] f q
  | cons {f f' f'' : Fifo α} {q q' q'' : List α} {op : FifoOp α} {ops : List (FifoOp α)}
      {r : FifoResult α} {rs : List (FifoResult α)} (h : Holds n f q)
      (hserved : Served n f q op r f' q') (hs : Serves n f' q' ops rs f'' q'') :
      Serves n f q (op :: ops) (r :: rs) f'' q''

/-! ### The layout -/

/-- The queue with `k` items in `buf` from slot `t` on. -/
def laidOut (buf : List α) (t k : Nat) : Fifo α where
  buffer := some buf
  size := buf.length
  count := k
  head := ((t + k) % buf.length : Nat)
  tail := t

/-- The invariant: `n` slots, of which those from `tail` on hold the items. -/
def Laid (n : Nat) (f : Fifo α) (q : List α) : Prop :=
  ∃ buf t, f = laidOut buf t q.length ∧ buf.length = n ∧ t < n ∧ q.length ≤ n ∧
    Ring.Window buf t q

/-- A step that does not fault goes on with its value. -/
theorem ok_bind {ε β γ : Type} (x : β) (k : β → Except ε γ) : (Except.ok x >>= k) = k x := rfl

theorem checked_ok {v : Int} (h : -32768 ≤ v ∧ v ≤ 32767) : checked v = .ok v := if_pos h

theorem rem_nat (a b : Nat) (hb : 0 < b) : rem a b = .ok ((a % b : Nat) : Int) := by
  unfold rem
  rw [if_neg (by omega), Int.ofNat_tmod]

section Steps

variable {buf : List α} {t k : Nat} {x : α}

theorem readSlot_laidOut {i : Nat} (h : buf[i]? = some x) :
    (laidOut buf t k).readSlot i = .ok x := by
  unfold readSlot laidOut
  dsimp only
  rw [if_neg (by omega), Int.toNat_natCast, h]

theorem writeSlot_laidOut {i : Nat} (hi : i < buf.length) (x : α) :
    (laidOut buf t k).writeSlot i x = .ok (laidOut (buf.set i x) t k) := by
  unfold writeSlot laidOut
  dsimp only
  rw [Int.toNat_natCast, if_neg (by omega), List.length_set]

/-- One more item, and `head` one slot further. -/
theorem incrementHead_laidOut (hk : k < buf.length) (hmax : buf.length ≤ 32767) :
    (laidOut buf t k).incrementHead = .ok (false, laidOut buf t (k + 1)) := by
  have hlt : (t + k) % buf.length < buf.length := Nat.mod_lt _ (by omega)
  have hne : ¬ (laidOut buf t k).getUsedSize = (laidOut buf t k).size := by
    show ¬ (k : Int) = buf.length
    omega
  have hnext : checked ((laidOut buf t k).head + 1) =
      .ok (((t + k) % buf.length + 1 : Nat) : Int) :=
    by
    refine checked_ok (v := (((t + k) % buf.length : Nat) : Int) + 1) ?_
    omega
  have hcount : checked ((laidOut buf t k).count + 1) = .ok ((k + 1 : Nat) : Int) :=
    by
    refine checked_ok (v := (k : Int) + 1) ?_
    omega
  have hhead : rem (((t + k) % buf.length + 1 : Nat) : Int) (laidOut buf t k).size =
      .ok (((t + (k + 1)) % buf.length : Nat) : Int) := by
    show rem _ (buf.length : Int) = _
    rw [rem_nat _ _ (by omega), Nat.mod_add_mod, Nat.add_assoc]
  unfold incrementHead
  rw [if_neg hne, hnext, ok_bind, hhead, ok_bind, hcount, ok_bind]
  rfl

/-- One item fewer, and `tail` one slot further. -/
theorem incrementTail_laidOut (ht : t < buf.length) (hk : k < buf.length)
    (hmax : buf.length ≤ 32767) :
    (laidOut buf t (k + 1)).incrementTail = .ok (false, laidOut buf ((t + 1) % buf.length) k) := by
  have hne : ¬ (laidOut buf t (k + 1)).getUsedSize = 0 := by
    show ¬ ((k + 1 : Nat) : Int) = 0
    omega
  have hnext : checked ((laidOut buf t (k + 1)).tail + 1) = .ok ((t + 1 : Nat) : Int) :=
    by
    refine checked_ok (v := (t : Int) + 1) ?_
    omega
  have hcount : checked ((laidOut buf t (k + 1)).count - 1) = .ok (k : Int) := by
    rw [show (laidOut buf t (k + 1)).count - 1 = (k : Int) by
      show ((k + 1 : Nat) : Int) - 1 = k
      omega]
    exact checked_ok (by omega)
  have htail : rem ((t + 1 : Nat) : Int) (laidOut buf t (k + 1)).size =
      .ok (((t + 1) % buf.length : Nat) : Int) := rem_nat _ _ (by omega)
  have hhead : ((t + 1) % buf.length + k) % buf.length = (t + (k + 1)) % buf.length := by
    rw [Nat.mod_add_mod, Nat.add_assoc, Nat.add_comm 1 k]
  unfold incrementTail
  rw [if_neg hne, hnext, ok_bind, htail, ok_bind, hcount, ok_bind]
  unfold laidOut
  rw [hhead]

end Steps

variable {n : Nat} {f : Fifo α} {q : List α}

theorem laid_init {buf : List α} {n : Word} (hpos : 1 ≤ n.toNat) (hmax : n.toNat ≤ 32767)
    (hbuf : buf.length = n.toNat) : Laid n.toNat (init (some buf) n) [] := by
  refine ⟨buf, 0, ?_, hbuf, hpos, Nat.zero_le _, Ring.window_nil _ _⟩
  have hint : n.toInt = (buf.length : Int) := by
    rw [BitVec.toInt_eq_toNat_of_lt (by omega), hbuf]
  unfold init laidOut
  rw [hint]
  simp

/-- **The items** are read off the slots from `tail` on. -/
theorem items_laidOut {buf : List α} {t : Nat} (h : Ring.Window buf t q)
    (hq : q.length ≤ buf.length) : (laidOut buf t q.length).items = q := by
  have hread : (List.range q.length).filterMap (fun (i : Nat) =>
      match (laidOut buf t q.length).readSlot (((t : Int) + i) % (buf.length : Int)) with
        | .ok item => some item
        | .error _ => none) =
      (List.range q.length).filterMap fun i => buf[(t + i) % buf.length]? := by
    apply List.filterMap_congr
    intro i hi
    have hi' : i < q.length := List.mem_range.mp hi
    have hslot : (t + i) % buf.length < buf.length := Nat.mod_lt _ (by omega)
    have hsome : buf[(t + i) % buf.length]? = some buf[(t + i) % buf.length] :=
      List.getElem?_eq_getElem hslot
    rw [show ((t : Int) + i) % (buf.length : Int) = (((t + i) % buf.length : Nat) : Int) by
      rw [Int.natCast_emod, Int.natCast_add], readSlot_laidOut hsome, hsome]
  unfold items
  exact hread.trans h.read

theorem Laid.holds (h : Laid n f q) : Holds n f q := by
  obtain ⟨buf, t, rfl, rfl, ht, hq, hw⟩ := h
  refine ⟨items_laidOut hw hq, rfl, rfl, hq, ?_, ?_⟩
  · have hlt := Nat.mod_lt (t + q.length) (by omega : 0 < buf.length)
    show 0 ≤ (((t + q.length) % buf.length : Nat) : Int) ∧
      (((t + q.length) % buf.length : Nat) : Int) < _
    omega
  · show 0 ≤ (t : Int) ∧ (t : Int) < _
    omega

/-! ### One call -/

theorem enqueue_full (h : Laid n f q) (hq : q.length = n) (x : α) :
    f.enqueue x = .ok (true, f) := by
  obtain ⟨buf, t, rfl, rfl, _, _, _⟩ := h
  have hfull : (laidOut buf t q.length).getUsedSize = (laidOut buf t q.length).size :=
    congrArg Nat.cast hq
  unfold enqueue
  rw [if_neg (by simp [laidOut]), if_pos hfull]

theorem enqueue_append (h : Laid n f q) (hmax : n ≤ 32767) (hq : q.length ≠ n) (x : α) :
    ∃ f', f.enqueue x = .ok (false, f') ∧ Laid n f' (q ++ [x]) := by
  obtain ⟨buf, t, rfl, rfl, ht, hle, hw⟩ := h
  have hlt : q.length < buf.length := by omega
  have hslot : (t + q.length) % buf.length < buf.length := Nat.mod_lt _ (by omega)
  have hnot : ¬ (laidOut buf t q.length).getUsedSize = (laidOut buf t q.length).size := by
    show ¬ (q.length : Int) = buf.length
    omega
  refine ⟨laidOut (buf.set ((t + q.length) % buf.length) x) t (q.length + 1), ?_, ?_⟩
  · unfold enqueue
    rw [if_neg (by simp [laidOut]), if_neg hnot]
    show (writeSlot _ (((t + q.length) % buf.length : Nat) : Int) x >>= _) = _
    rw [writeSlot_laidOut hslot, ok_bind,
      incrementHead_laidOut (by rwa [List.length_set]) (by rwa [List.length_set]), ok_bind]
  · refine ⟨_, t, ?_, List.length_set, ht, ?_, hw.snoc hlt x⟩
    · rw [List.length_append, List.length_singleton]
    · rw [List.length_append, List.length_singleton]
      exact hlt

/-- On an empty queue the slot `tail` points to is returned, and nothing changes. -/
theorem dequeue_empty (h : Laid n f []) :
    ∃ x, f.readSlot f.tail = .ok x ∧ f.dequeue = .ok (x, f) := by
  obtain ⟨buf, t, rfl, rfl, ht, _, _⟩ := h
  have hread : (laidOut buf t 0).readSlot (laidOut buf t 0).tail = .ok buf[t] :=
    readSlot_laidOut (List.getElem?_eq_getElem ht)
  refine ⟨buf[t], hread, ?_⟩
  unfold dequeue
  rw [if_pos (show (laidOut buf t ([] : List α).length).getUsedSize = 0 from rfl)]
  show ((laidOut buf t 0).readSlot (laidOut buf t 0).tail >>= _) = _
  rw [hread, ok_bind]

theorem dequeue_oldest {x : α} (h : Laid n f (x :: q)) (hmax : n ≤ 32767) :
    ∃ f', f.dequeue = .ok (x, f') ∧ Laid n f' q := by
  obtain ⟨buf, t, rfl, rfl, ht, hle, hw⟩ := h
  rw [List.length_cons] at hle
  have hitem : buf[t]? = some x := by
    have hhead := hw.head
    rwa [Nat.mod_eq_of_lt ht] at hhead
  have hnot : ¬ (laidOut buf t (q.length + 1)).getUsedSize = 0 := by
    show ¬ ((q.length + 1 : Nat) : Int) = 0
    omega
  refine ⟨laidOut buf ((t + 1) % buf.length) q.length, ?_, ?_⟩
  · unfold dequeue
    rw [List.length_cons, if_neg hnot]
    show ((laidOut buf t (q.length + 1)).readSlot (t : Int) >>= _) = _
    rw [readSlot_laidOut hitem, ok_bind, incrementTail_laidOut ht hle hmax, ok_bind]
  · exact ⟨buf, _, rfl, rfl, Nat.mod_lt _ (by omega), by omega, hw.tail⟩

/-- **One call** is served as a bounded queue serves it, without a fault. -/
theorem call_laid (h : Laid n f q) (hmax : n ≤ 32767) (op : FifoOp α) :
    ∃ r f' q', f.call op = .ok (r, f') ∧ Served n f q op r f' q' ∧ Laid n f' q' := by
  cases op with
  | enqueue x =>
      by_cases hq : q.length = n
      · refine ⟨.flag true, f, q, ?_, .full hq, h⟩
        show (f.enqueue x >>= _) = _
        rw [enqueue_full h hq]
        rfl
      · obtain ⟨f', hf', h'⟩ := enqueue_append h hmax hq x
        refine ⟨.flag false, f', q ++ [x], ?_, .append hq, h'⟩
        show (f.enqueue x >>= _) = _
        rw [hf']
        rfl
  | dequeue =>
      cases q with
      | nil =>
          obtain ⟨x, _, hx⟩ := dequeue_empty h
          refine ⟨.item x, f, [], ?_, .empty, h⟩
          show (f.dequeue >>= _) = _
          rw [hx]
          rfl
      | cons x q =>
          obtain ⟨f', hf', h'⟩ := dequeue_oldest h hmax
          refine ⟨.item x, f', q, ?_, .oldest, h'⟩
          show (f.dequeue >>= _) = _
          rw [hf']
          rfl
  | isFull =>
      have hfull : f.isFull = decide (q.length = n) := by
        have hv := h.holds
        unfold isFull getUsedSize
        rw [hv.count, hv.size]
        exact decide_eq_decide.mpr Int.natCast_inj
      exact ⟨.flag f.isFull, f, q, rfl, hfull ▸ .isFull, h⟩
  | getUsedSize =>
      exact ⟨.int f.count, f, q, rfl, h.holds.count ▸ .usedSize, h⟩
  | getSize =>
      exact ⟨.int f.size, f, q, rfl, h.holds.size ▸ .size, h⟩

/-! ### Runs -/

/-- A run that begins with a call. -/
theorem run_cons {op : FifoOp α} {ops : List (FifoOp α)} {f f'' : Fifo α}
    {rs : List (FifoResult α)} :
    f.run (op :: ops) = .ok (rs, f'') ↔
      ∃ r f' rs', f.call op = .ok (r, f') ∧ f'.run ops = .ok (rs', f'') ∧ rs = r :: rs' := by
  have hbind : f.run (op :: ops) =
    f.call op >>= fun c => c.2.run ops >>= fun c' => .ok (c.1 :: c'.1, c'.2) := rfl
  rw [hbind]
  constructor
  · intro h
    cases hcall : f.call op with
    | error e =>
        rw [hcall] at h
        exact absurd h (by simp [bind, Except.bind])
    | ok c =>
        rw [hcall, ok_bind] at h
        cases hrun : c.2.run ops with
        | error e =>
            rw [hrun] at h
            exact absurd h (by simp [bind, Except.bind])
        | ok c' =>
            rw [hrun, ok_bind] at h
            obtain ⟨rfl, rfl⟩ := Prod.mk.inj (Except.ok.inj h)
            exact ⟨c.1, c.2, c'.1, rfl, hrun, rfl⟩
  · rintro ⟨r, f', rs', hcall, hrun, rfl⟩
    rw [hcall, ok_bind, hrun, ok_bind]

theorem run_length {ops : List (FifoOp α)} :
    ∀ {f f' : Fifo α} {rs : List (FifoResult α)},
      f.run ops = .ok (rs, f') → rs.length = ops.length := by
  induction ops with
  | nil =>
      intro f f' rs h
      obtain ⟨rfl, -⟩ := Prod.mk.inj (Except.ok.inj h)
      rfl
  | cons op ops ih =>
      intro f f' rs h
      obtain ⟨r, f₁, rs', -, hrun, rfl⟩ := run_cons.mp h
      rw [List.length_cons, List.length_cons, ih hrun]

/-- One more call. -/
theorem run_snoc {ops : List (FifoOp α)} {op : FifoOp α} {r : FifoResult α} {f' f'' : Fifo α}
    (hcall : f'.call op = .ok (r, f'')) :
    ∀ {f : Fifo α} {rs : List (FifoResult α)}, f.run ops = .ok (rs, f') →
      f.run (ops ++ [op]) = .ok (rs ++ [r], f'') := by
  induction ops with
  | nil =>
      intro f rs h
      obtain ⟨rfl, rfl⟩ := Prod.mk.inj (Except.ok.inj h)
      exact run_cons.mpr ⟨r, f'', [], hcall, rfl, rfl⟩
  | cons op' ops ih =>
      intro f rs h
      obtain ⟨r', f₁, rs', hcall', hrun, rfl⟩ := run_cons.mp h
      exact run_cons.mpr ⟨r', f₁, rs' ++ [r], hcall', ih hrun, rfl⟩

theorem run_laid (hmax : n ≤ 32767) (ops : List (FifoOp α)) :
    ∀ f q, Laid n f q →
      ∃ rs f' q', f.run ops = .ok (rs, f') ∧ Serves n f q ops rs f' q' ∧ Laid n f' q' := by
  induction ops with
  | nil =>
      intro f q h
      exact ⟨[], f, q, rfl, .nil h.holds, h⟩
  | cons op ops ih =>
      intro f q h
      obtain ⟨r, f₁, q₁, hcall, hserved, h₁⟩ := call_laid h hmax op
      obtain ⟨rs, f', q', hrun, hserves, h'⟩ := ih f₁ q₁ h₁
      refine ⟨r :: rs, f', q', ?_, .cons h.holds hserved hserves, h'⟩
      exact run_cons.mpr ⟨r, f₁, rs, hcall, hrun, rfl⟩

/--
**`fifo_t` is a bounded queue.**  After `init` with a buffer of 1 to 32767 slots, every
sequence of calls runs without a fault, every call is answered as a bounded queue
answers it, and in between the items in order from `tail` are those of the queue.
-/
theorem run_serves (buf : List α) (n : Word) (hpos : 1 ≤ n.toNat) (hmax : n.toNat ≤ 32767)
    (hbuf : buf.length = n.toNat) (ops : List (FifoOp α)) :
    ∃ rs f q, (init (some buf) n).run ops = .ok (rs, f) ∧
      Serves n.toNat (init (some buf) n) [] ops rs f q := by
  obtain ⟨rs, f, q, hrun, hserves, _⟩ := run_laid hmax ops _ _ (laid_init hpos hmax hbuf)
  exact ⟨rs, f, q, hrun, hserves⟩

/-- A queue of three slots that fills, wraps around and runs empty. -/
theorem run_serves_wrap :
    ∃ rs f q, (init (some [0, 0, 0]) 3).run
        [.enqueue 10, .enqueue 20, .enqueue 30, .enqueue 40, .dequeue, .enqueue 40, .isFull,
          .dequeue, .dequeue, .dequeue, .dequeue, .getUsedSize] = .ok (rs, f) ∧
      Serves 3 (init (some [0, 0, 0]) 3) []
        [.enqueue 10, .enqueue 20, .enqueue 30, .enqueue 40, .dequeue, .enqueue 40, .isFull,
          .dequeue, .dequeue, .dequeue, .dequeue, .getUsedSize] rs f q :=
  run_serves [0, 0, 0] 3 (by decide) (by decide) rfl _

end Fifo

end AtmegaScheduler
