/-
What comes out of the queue between tasks, and where it came from.

A dequeue that finds an item delivers the item of an earlier enqueue that was accepted.
Which one is a function of its position in the sequence of calls; the function is
strictly increasing, so nothing is delivered twice or out of order, and it skips no
accepted enqueue.  The induction carries the positions of the enqueues whose items are
still stored, next to the items.

A dequeue that finds the queue empty has no way to say so.  It returns what the slot at
`tail` happens to hold: an item that was delivered long ago, or one that nobody sent.
-/
import Mathlib.Data.List.Forall2
import Mathlib.Data.List.Induction
import AtmegaScheduler.Drivers.IpcFifo

namespace AtmegaScheduler

open Avr

namespace Fifo

variable {α : Type}

/-- The queue that call number `i` finds. -/
def Finds (f₀ : Fifo α) (ops : List (FifoOp α)) (i : Nat) (f : Fifo α) : Prop :=
  ∃ rs, f₀.run (ops.take i) = .ok (rs, f)

/-- Call number `i` is a dequeue that finds an item. -/
def Delivers (f₀ : Fifo α) (ops : List (FifoOp α)) (i : Nat) : Prop :=
  ops[i]? = some .dequeue ∧ ∃ f, Finds f₀ ops i f ∧ f.count ≠ 0

/-- Call number `j` is an enqueue of `x` that is accepted. -/
def Accepts (ops : List (FifoOp α)) (rs : List (FifoResult α)) (j : Nat) (x : α) : Prop :=
  ops[j]? = some (.enqueue x) ∧ rs[j]? = some (.flag false)

/-- Call number `src i` is where the item comes from that call number `i` delivers. -/
structure Matched (f₀ : Fifo α) (ops : List (FifoOp α)) (rs : List (FifoResult α))
    (src : Nat → Nat) : Prop where
  source : ∀ i, Delivers f₀ ops i →
    src i < i ∧ ∃ x, Accepts ops rs (src i) x ∧ rs[i]? = some (.item x)
  order : ∀ i j, Delivers f₀ ops i → Delivers f₀ ops j → i < j → src i < src j
  /-- No accepted enqueue is passed over. -/
  oldest : ∀ i j x, Delivers f₀ ops i → Accepts ops rs j x → j < src i →
    ∃ i', i' < i ∧ Delivers f₀ ops i' ∧ src i' = j
  /-- A dequeue that finds no item returns what the slot at `tail` holds. -/
  empty : ∀ i f, ops[i]? = some .dequeue → Finds f₀ ops i f → f.count = 0 →
    ∃ x, f.readSlot f.tail = .ok x ∧ rs[i]? = some (.item x)

section Snoc

variable {f₀ f : Fifo α} {ops : List (FifoOp α)} {op : FifoOp α} {rs : List (FifoResult α)}
  {r : FifoResult α} {i j : Nat} {x : α}

theorem finds_snoc (hi : i ≤ ops.length) : Finds f₀ (ops ++ [op]) i f ↔ Finds f₀ ops i f := by
  unfold Finds
  rw [List.take_append_of_le_length hi]

theorem finds_last (hrun : f₀.run ops = .ok (rs, f)) {g : Fifo α}
    (h : Finds f₀ ops ops.length g) : g = f := by
  obtain ⟨rs', hg⟩ := h
  rw [List.take_length, hrun] at hg
  exact (Prod.mk.inj (Except.ok.inj hg)).2.symm

/-- The calls before the last one deliver as before. -/
theorem delivers_snoc (hi : i < ops.length) :
    Delivers f₀ (ops ++ [op]) i ↔ Delivers f₀ ops i := by
  unfold Delivers
  rw [List.getElem?_append_left hi]
  simp only [finds_snoc (Nat.le_of_lt hi)]

/-- The last call delivers when it is a dequeue and finds an item. -/
theorem delivers_last (hrun : f₀.run ops = .ok (rs, f)) :
    Delivers f₀ (ops ++ [op]) ops.length ↔ op = .dequeue ∧ f.count ≠ 0 := by
  unfold Delivers
  rw [List.getElem?_concat_length, Option.some.injEq]
  refine and_congr_right fun _ => ⟨?_, fun hc => ?_⟩
  · rintro ⟨g, hg, hc⟩
    rwa [finds_last hrun ((finds_snoc (Nat.le_refl _)).mp hg)] at hc
  · refine ⟨f, ⟨rs, ?_⟩, hc⟩
    rw [List.take_append_of_le_length (Nat.le_refl _), List.take_length]
    exact hrun

theorem delivers_lt (h : Delivers f₀ ops i) : i < ops.length :=
  (List.getElem?_eq_some_iff.mp h.1).1

/-- A call that delivers is the last one, or delivered before. -/
theorem delivers_cases (hrun : f₀.run ops = .ok (rs, f)) (h : Delivers f₀ (ops ++ [op]) i) :
    Delivers f₀ ops i ∨ (i = ops.length ∧ op = .dequeue ∧ f.count ≠ 0) := by
  have hlt := delivers_lt h
  rw [List.length_append, List.length_singleton] at hlt
  by_cases hi : i < ops.length
  · exact Or.inl ((delivers_snoc hi).mp h)
  · obtain rfl : i = ops.length := by omega
    exact Or.inr ⟨rfl, (delivers_last hrun).mp h⟩

theorem accepts_lt (h : Accepts ops rs j x) : j < ops.length :=
  (List.getElem?_eq_some_iff.mp h.1).1

theorem accepts_mono (h : Accepts ops rs j x) : Accepts (ops ++ [op]) (rs ++ [r]) j x :=
  ⟨List.getElem?_append_left (accepts_lt h) ▸ h.1,
    List.getElem?_append_left (List.getElem?_eq_some_iff.mp h.2).1 ▸ h.2⟩

/-- A call that is accepted is the last one, or was accepted before. -/
theorem accepts_cases (hlen : rs.length = ops.length)
    (h : Accepts (ops ++ [op]) (rs ++ [r]) j x) :
    Accepts ops rs j x ∨ (j = ops.length ∧ op = .enqueue x ∧ r = .flag false) := by
  have hlt := accepts_lt h
  rw [List.length_append, List.length_singleton] at hlt
  obtain ⟨hop, hr⟩ := h
  by_cases hj : j < ops.length
  · rw [List.getElem?_append_left hj] at hop
    rw [List.getElem?_append_left (hlen ▸ hj)] at hr
    exact Or.inl ⟨hop, hr⟩
  · obtain rfl : j = ops.length := by omega
    rw [List.getElem?_concat_length] at hop
    rw [← hlen, List.getElem?_concat_length] at hr
    exact Or.inr ⟨rfl, Option.some.inj hop, Option.some.inj hr⟩

end Snoc

/-! ### The induction -/

/-- After the calls `ops` the queue holds the items `q`, which the calls `pend` stored;
every accepted call is one of these or has been delivered, before all of them. -/
structure Pending (n : Nat) (f₀ : Fifo α) (ops : List (FifoOp α)) (rs : List (FifoResult α))
    (f : Fifo α) (q : List α) (src : Nat → Nat) (pend : List Nat) : Prop where
  run : f₀.run ops = .ok (rs, f)
  laid : Laid n f q
  stored : List.Forall₂ (Accepts ops rs) pend q
  sorted : pend.Pairwise (· < ·)
  source : ∀ i, Delivers f₀ ops i →
    src i < i ∧ ∃ x, Accepts ops rs (src i) x ∧ rs[i]? = some (.item x)
  order : ∀ i j, Delivers f₀ ops i → Delivers f₀ ops j → i < j → src i < src j
  before : ∀ i, Delivers f₀ ops i → ∀ j ∈ pend, src i < j
  accounted : ∀ j x, Accepts ops rs j x → j ∈ pend ∨ ∃ i, Delivers f₀ ops i ∧ src i = j
  empty : ∀ i g, ops[i]? = some .dequeue → Finds f₀ ops i g → g.count = 0 →
    ∃ x, g.readSlot g.tail = .ok x ∧ rs[i]? = some (.item x)

variable {n : Nat} {f₀ f f' : Fifo α} {ops : List (FifoOp α)} {op : FifoOp α}
  {rs : List (FifoResult α)} {r : FifoResult α} {q q' : List α} {src : Nat → Nat} {pend : List Nat}

theorem Pending.length (h : Pending n f₀ ops rs f q src pend) : rs.length = ops.length :=
  run_length h.run

/-- The stored items were accepted by calls that have been made. -/
theorem Pending.lt (h : Pending n f₀ ops rs f q src pend) {j : Nat} (hj : j ∈ pend) :
    j < ops.length := by
  obtain ⟨i, hi, rfl⟩ := List.getElem_of_mem hj
  have hlen := h.stored.length_eq
  exact accepts_lt (h.stored.get hi (hlen ▸ hi))

/-- A dequeue of an empty queue, among the calls and one more. -/
theorem Pending.empty_snoc (h : Pending n f₀ ops rs f q src pend)
    (hlast : op = .dequeue → f.count = 0 → ∃ x, f.readSlot f.tail = .ok x ∧ r = .item x)
    {i : Nat} {g : Fifo α} (hop : (ops ++ [op])[i]? = some .dequeue)
    (hg : Finds f₀ (ops ++ [op]) i g) (hc : g.count = 0) :
    ∃ x, g.readSlot g.tail = .ok x ∧ (rs ++ [r])[i]? = some (.item x) := by
  have hlt : i < (ops ++ [op]).length := (List.getElem?_eq_some_iff.mp hop).1
  rw [List.length_append, List.length_singleton] at hlt
  by_cases hi : i < ops.length
  · rw [List.getElem?_append_left hi] at hop
    obtain ⟨x, hx, hr⟩ := h.empty i g hop ((finds_snoc (Nat.le_of_lt hi)).mp hg) hc
    exact ⟨x, hx, List.getElem?_append_left (h.length.symm ▸ hi) ▸ hr⟩
  · obtain rfl : i = ops.length := by omega
    rw [List.getElem?_concat_length] at hop
    obtain rfl : g = f := finds_last h.run ((finds_snoc (Nat.le_refl _)).mp hg)
    obtain ⟨x, hx, rfl⟩ := hlast (Option.some.inj hop) hc
    refine ⟨x, hx, ?_⟩
    rw [← h.length, List.getElem?_concat_length]

/-- A call that delivers nothing and stores nothing. -/
theorem Pending.idle (h : Pending n f₀ ops rs f q src pend) (hcall : f.call op = .ok (r, f))
    (hdeq : op = .dequeue → f.count = 0)
    (hlast : op = .dequeue → f.count = 0 → ∃ x, f.readSlot f.tail = .ok x ∧ r = .item x)
    (hacc : ∀ x, op = .enqueue x → r ≠ .flag false) :
    Pending n f₀ (ops ++ [op]) (rs ++ [r]) f q src pend := by
  have hdel : ∀ i, Delivers f₀ (ops ++ [op]) i → Delivers f₀ ops i := fun i hi =>
    (delivers_cases h.run hi).resolve_right fun hc => hc.2.2 (hdeq hc.2.1)
  refine ⟨run_snoc hcall h.run, h.laid, h.stored.imp fun _ _ => accepts_mono, h.sorted,
    fun i hi => ?_, fun i j hi hj => h.order i j (hdel i hi) (hdel j hj),
    fun i hi => h.before i (hdel i hi), fun j x hj => ?_, fun i g => h.empty_snoc hlast⟩
  · obtain ⟨hlt, x, hx, hr⟩ := h.source i (hdel i hi)
    refine ⟨hlt, x, accepts_mono hx, ?_⟩
    exact List.getElem?_append_left (List.getElem?_eq_some_iff.mp hr).1 ▸ hr
  · rcases accepts_cases h.length hj with hj | ⟨_, hop, hr⟩
    · refine (h.accounted j x hj).imp_right ?_
      rintro ⟨i, hi, hsrc⟩
      exact ⟨i, (delivers_snoc (delivers_lt hi)).mpr hi, hsrc⟩
    · exact absurd hr (hacc x hop)

/-- An enqueue that is accepted. -/
theorem Pending.append {x : α} (h : Pending n f₀ ops rs f q src pend)
    (hcall : f.call (.enqueue x) = .ok (.flag false, f')) (hlaid : Laid n f' (q ++ [x])) :
    Pending n f₀ (ops ++ [.enqueue x]) (rs ++ [.flag false]) f' (q ++ [x]) src
      (pend ++ [ops.length]) := by
  have hdel : ∀ i, Delivers f₀ (ops ++ [.enqueue x]) i → Delivers f₀ ops i := fun i hi =>
    (delivers_cases h.run hi).resolve_right fun hc => absurd hc.2.1 (by simp)
  have hnew : Accepts (ops ++ [.enqueue x]) (rs ++ [.flag false]) ops.length x := by
    refine ⟨List.getElem?_concat_length, ?_⟩
    rw [← h.length, List.getElem?_concat_length]
  refine ⟨run_snoc hcall h.run, hlaid, ?_, ?_, fun i hi => ?_,
    fun i j hi hj => h.order i j (hdel i hi) (hdel j hj), fun i hi j hj => ?_, fun j y hj => ?_,
    fun i g => h.empty_snoc fun hc => absurd hc (by simp)⟩
  · exact List.rel_append (h.stored.imp fun _ _ => accepts_mono) (.cons hnew .nil)
  · refine List.pairwise_append.mpr ⟨h.sorted, List.pairwise_singleton _ _, ?_⟩
    intro i hi j hj
    rw [List.mem_singleton.mp hj]
    exact h.lt hi
  · obtain ⟨hlt, y, hy, hr⟩ := h.source i (hdel i hi)
    refine ⟨hlt, y, accepts_mono hy, ?_⟩
    exact List.getElem?_append_left (List.getElem?_eq_some_iff.mp hr).1 ▸ hr
  · rcases List.mem_append.mp hj with hj | hj
    · exact h.before i (hdel i hi) j hj
    · obtain ⟨_, y, hy, _⟩ := h.source i (hdel i hi)
      rw [List.mem_singleton.mp hj]
      exact accepts_lt hy
  · rcases accepts_cases h.length hj with hj | ⟨rfl, _, _⟩
    · rcases h.accounted j y hj with hp | ⟨i, hi, hsrc⟩
      · exact Or.inl (List.mem_append_left _ hp)
      · exact Or.inr ⟨i, (delivers_snoc (delivers_lt hi)).mpr hi, hsrc⟩
    · exact Or.inl (List.mem_append_right _ (List.mem_singleton.mpr rfl))

/-- A dequeue that delivers the oldest item. -/
theorem Pending.deliver {x : α} {j : Nat} (h : Pending n f₀ ops rs f (x :: q) src (j :: pend))
    (hcall : f.call .dequeue = .ok (.item x, f')) (hlaid : Laid n f' q) :
    Pending n f₀ (ops ++ [.dequeue]) (rs ++ [.item x]) f' q
      (Function.update src ops.length j) pend := by
  have hcount : f.count ≠ 0 := by
    rw [h.laid.holds.count, List.length_cons]
    omega
  obtain ⟨hhead, htail⟩ := List.forall₂_cons.mp h.stored
  obtain ⟨hfirst, hsorted⟩ := List.pairwise_cons.mp h.sorted
  have hj : j < ops.length := h.lt List.mem_cons_self
  have hold : ∀ i, i < ops.length → Function.update src ops.length j i = src i := fun i hi =>
    Function.update_of_ne (Nat.ne_of_lt hi) _ _
  have hlast : Function.update src ops.length j ops.length = j := Function.update_self _ _ _
  refine ⟨run_snoc hcall h.run, hlaid, htail.imp fun _ _ => accepts_mono, hsorted, fun i hi => ?_,
    fun i k hi hk hik => ?_, fun i hi k hk => ?_, fun k y hk => ?_,
    fun i g => h.empty_snoc fun _ hc => absurd hc hcount⟩
  · rcases delivers_cases h.run hi with hi | ⟨rfl, _, _⟩
    · obtain ⟨hlt, y, hy, hr⟩ := h.source i hi
      rw [hold i (delivers_lt hi)]
      refine ⟨hlt, y, accepts_mono hy, ?_⟩
      exact List.getElem?_append_left (List.getElem?_eq_some_iff.mp hr).1 ▸ hr
    · rw [hlast]
      refine ⟨hj, x, accepts_mono hhead, ?_⟩
      rw [← h.length, List.getElem?_concat_length]
  · rcases delivers_cases h.run hi with hi | ⟨rfl, _, _⟩
    · rcases delivers_cases h.run hk with hk | ⟨rfl, _, _⟩
      · rw [hold i (delivers_lt hi), hold k (delivers_lt hk)]
        exact h.order i k hi hk hik
      · rw [hold i (delivers_lt hi), hlast]
        exact h.before i hi j List.mem_cons_self
    · have hlt := delivers_lt hk
      rw [List.length_append, List.length_singleton] at hlt
      omega
  · rcases delivers_cases h.run hi with hi | ⟨rfl, _, _⟩
    · rw [hold i (delivers_lt hi)]
      exact h.before i hi k (List.mem_cons_of_mem _ hk)
    · rw [hlast]
      exact hfirst k hk
  · have hnew : Delivers f₀ (ops ++ [.dequeue]) ops.length :=
      (delivers_last h.run).mpr ⟨rfl, hcount⟩
    rcases accepts_cases h.length hk with hk | ⟨_, hc, _⟩
    · rcases h.accounted k y hk with hp | ⟨i, hi, hsrc⟩
      · rcases List.mem_cons.mp hp with rfl | hp
        · exact Or.inr ⟨ops.length, hnew, hlast⟩
        · exact Or.inl hp
      · exact Or.inr ⟨i, (delivers_snoc (delivers_lt hi)).mpr hi,
          (hold i (delivers_lt hi)).trans hsrc⟩
    · exact absurd hc (by simp)

/-- **One call.** -/
theorem Pending.snoc (hmax : n ≤ 32767) (h : Pending n f₀ ops rs f q src pend) (op : FifoOp α) :
    ∃ r f' q' src' pend', Pending n f₀ (ops ++ [op]) (rs ++ [r]) f' q' src' pend' := by
  obtain ⟨r, f', q', hcall, hserved, hlaid⟩ := call_laid h.laid hmax op
  cases hserved with
  | full _ =>
      exact ⟨_, _, _, _, _, h.idle hcall (fun hc => absurd hc (by simp))
        (fun hc => absurd hc (by simp)) fun x _ hr => absurd hr (by simp)⟩
  | append _ => exact ⟨_, _, _, _, _, h.append hcall hlaid⟩
  | empty =>
      have hzero : f.count = 0 := h.laid.holds.count
      obtain ⟨x, hx, hdeq⟩ := dequeue_empty h.laid
      have hcall' : f.call .dequeue = .ok (.item x, f) := by
        show (f.dequeue >>= _) = _
        rw [hdeq]
        rfl
      exact ⟨_, _, _, _, _, h.idle hcall' (fun _ => hzero) (fun _ _ => ⟨x, hx, rfl⟩)
        fun y hc => absurd hc (by simp)⟩
  | oldest =>
      cases pend with
      | nil => exact absurd h.stored.length_eq (by simp)
      | cons j pend => exact ⟨_, _, _, _, _, h.deliver hcall hlaid⟩
  | isFull =>
      exact ⟨_, _, _, _, _, h.idle hcall (fun hc => absurd hc (by simp))
        (fun hc => absurd hc (by simp)) fun x hc => absurd hc (by simp)⟩
  | usedSize =>
      exact ⟨_, _, _, _, _, h.idle hcall (fun hc => absurd hc (by simp))
        (fun hc => absurd hc (by simp)) fun x hc => absurd hc (by simp)⟩
  | size =>
      exact ⟨_, _, _, _, _, h.idle hcall (fun hc => absurd hc (by simp))
        (fun hc => absurd hc (by simp)) fun x hc => absurd hc (by simp)⟩

theorem pending_nil (h : Laid n f₀ []) : Pending n f₀ [] [] f₀ [] id [] where
  run := rfl
  laid := h
  stored := .nil
  sorted := List.Pairwise.nil
  source := fun _ hi => absurd (delivers_lt hi) (Nat.not_lt_zero _)
  order := fun _ _ hi => absurd (delivers_lt hi) (Nat.not_lt_zero _)
  before := fun _ hi => absurd (delivers_lt hi) (Nat.not_lt_zero _)
  accounted := fun _ _ hj => absurd (accepts_lt hj) (Nat.not_lt_zero _)
  empty := fun _ _ hop => absurd hop (by simp)

theorem pending_run (hmax : n ≤ 32767) (h : Laid n f₀ []) (ops : List (FifoOp α)) :
    ∃ rs f q src pend, Pending n f₀ ops rs f q src pend := by
  induction ops using List.reverseRecOn with
  | nil => exact ⟨_, _, _, _, _, pending_nil h⟩
  | append_singleton ops op ih =>
      obtain ⟨rs, f, q, src, pend, hp⟩ := ih
      obtain ⟨r, f', q', src', pend', hp'⟩ := hp.snoc hmax op
      exact ⟨_, _, _, _, _, hp'⟩

theorem Pending.matched (h : Pending n f₀ ops rs f q src pend) : Matched f₀ ops rs src where
  source := h.source
  order := h.order
  oldest := by
    intro i j x hi hj hlt
    rcases h.accounted j x hj with hp | ⟨i', hi', rfl⟩
    · have hbefore := h.before i hi j hp
      omega
    · refine ⟨i', ?_, hi', rfl⟩
      by_contra hc
      rcases Nat.lt_or_eq_of_le (Nat.le_of_not_lt hc) with hgt | rfl
      · have horder := h.order i i' hi hi' hgt
        omega
      · exact absurd hlt (Nat.lt_irrefl _)
  empty := h.empty

/-- **Deliveries match enqueues**, in any sequence of calls. -/
theorem run_matched (hmax : n ≤ 32767) (h : Laid n f₀ []) (ops : List (FifoOp α)) :
    ∃ rs f src, f₀.run ops = .ok (rs, f) ∧ Matched f₀ ops rs src := by
  obtain ⟨rs, f, q, src, pend, hp⟩ := pending_run hmax h ops
  exact ⟨rs, f, src, hp.run, hp.matched⟩

end Fifo

/-! ### Deliveries in a run of tasks -/

namespace Sys

variable {τ α : Type} [DecidableEq τ] {h : List (Label τ (IpcEvent α))}
  {s : Sys τ (Fifo α) (IpcPlace α)}

/--
**Delivery is at most once.**  In the order in which the calls acquired the mutex, each
dequeue that finds an item returns the item of an accepted enqueue before it, no two
of them that of the same one, in the order of the enqueues and without passing one over;
each dequeue that finds none returns what the slot at `tail` holds.  What the calls of a
task have returned are the results of its first calls in this order.
-/
theorem delivered_once (first : τ) (prog : τ → List (FifoOp α)) (buf : List α) (n : Word)
    (hpos : 1 ≤ n.toNat) (hmax : n.toNat ≤ 32767) (hbuf : buf.length = n.toNat)
    (hrun : Run (ipcFifo τ α).client (ipcStart first prog buf n) h s) :
    ∃ rs f src, (Fifo.init (some buf) n).run ((acquired prog h).map Prod.snd) = .ok (rs, f) ∧
      Fifo.Matched (Fifo.init (some buf) n) ((acquired prog h).map Prod.snd) rs src ∧
      ∀ t, returned t h <+: answers t (acquired prog h) rs := by
  obtain ⟨todo, seq, rs, f, q, hr⟩ := replays_run hmax (ipcStart_initial first prog buf n)
    (ipcStart_replays first prog hpos hmax hbuf) hrun
  have hseq : acquired prog h = seq := congrArg Prod.snd hr.replay
  obtain ⟨rs', f', src, hrun', hmatch⟩ :=
    Fifo.run_matched hmax (Fifo.laid_init hpos hmax hbuf) (seq.map Prod.snd)
  obtain ⟨rfl, rfl⟩ : rs = rs' ∧ f = f' := Prod.mk.inj (Except.ok.inj (hr.run.symm.trans hrun'))
  rw [hseq]
  exact ⟨rs, f, src, hr.run, hmatch, fun t => (hr.tracks t).begins⟩

/-- One task that enqueues once and dequeues twice. -/
def outrun (t : Fin 2) : List (FifoOp Nat) := if t = 0 then [.enqueue 7, .dequeue, .dequeue] else []

/-- A dequeue that finds the queue empty returns an item that nobody has enqueued, or one
that another dequeue has returned; and a dequeue can return an item before the enqueue
that it comes from has returned. -/
theorem empty_dequeue_returns_slot :
    (∃ h s, Run (ipcFifo (Fin 2) Nat).client (ipcStart 0 (fun _ => [.dequeue]) [0] 1) h s ∧
      returned 0 h = [(.dequeue, .item 0)]) ∧
    (∃ h s, Run (ipcFifo (Fin 2) Nat).client (ipcStart 0 outrun [0] 1) h s ∧
      returned 1 h = [] ∧
      returned 0 h = [(.enqueue 7, .flag false), (.dequeue, .item 7), (.dequeue, .item 7)]) ∧
    (∃ h s, Run (ipcFifo (Fin 2) Nat).client (ipcStart 0 handOver [0] 1) h s ∧
      returned 1 h = [(.dequeue, .item 7)] ∧ returned 0 h = []) := by
  refine ⟨?_, ?_, ?_⟩
  · have hplay : ((play (ipcFifo (Fin 2) Nat) [(0, 20)]
        ([], ipcStart 0 (fun _ => [.dequeue]) [0] 1)).map fun c =>
          decide (returned 0 c.1 = [(.dequeue, .item 0)])) = some true := by decide +kernel
    obtain ⟨⟨h, s⟩, hc, hdec⟩ := Option.map_eq_some_iff.mp hplay
    exact ⟨h, s, play_run (.nil _) hc, of_decide_eq_true hdec⟩
  · have hplay : ((play (ipcFifo (Fin 2) Nat) [(0, 75)] ([], ipcStart 0 outrun [0] 1)).map
        fun c => decide (returned 1 c.1 = [] ∧ returned 0 c.1 =
          [(.enqueue 7, .flag false), (.dequeue, .item 7), (.dequeue, .item 7)])) = some true := by
      decide +kernel
    obtain ⟨⟨h, s⟩, hc, hdec⟩ := Option.map_eq_some_iff.mp hplay
    exact ⟨h, s, play_run (.nil _) hc, of_decide_eq_true hdec⟩
  · have hplay : ((play (ipcFifo (Fin 2) Nat) [(0, 27), (1, 26)]
        ([], ipcStart 0 handOver [0] 1)).map fun c => decide (
          returned 1 c.1 = [(.dequeue, .item 7)] ∧ returned 0 c.1 = [])) = some true := by
      decide +kernel
    obtain ⟨⟨h, s⟩, hc, hdec⟩ := Option.map_eq_some_iff.mp hplay
    exact ⟨h, s, play_run (.nil _) hc, of_decide_eq_true hdec⟩

theorem delivered_once_outrun :
    ∃ h s rs f src, Run (ipcFifo (Fin 2) Nat).client (ipcStart 0 outrun [0] 1) h s ∧
      returned 0 h = [(.enqueue 7, .flag false), (.dequeue, .item 7), (.dequeue, .item 7)] ∧
      (Fifo.init (some [0]) 1).run ((acquired outrun h).map Prod.snd) = .ok (rs, f) ∧
      Fifo.Matched (Fifo.init (some [0]) 1) ((acquired outrun h).map Prod.snd) rs src := by
  have hplay : ((play (ipcFifo (Fin 2) Nat) [(0, 75)] ([], ipcStart 0 outrun [0] 1)).map
      fun c => decide (returned 0 c.1 =
        [(.enqueue 7, .flag false), (.dequeue, .item 7), (.dequeue, .item 7)])) = some true := by
    decide +kernel
  obtain ⟨⟨h, s⟩, hc, hdec⟩ := Option.map_eq_some_iff.mp hplay
  have hrun : Run (ipcFifo (Fin 2) Nat).client (ipcStart 0 outrun [0] 1) h s :=
    play_run (.nil _) hc
  obtain ⟨rs, f, src, hseq, hmatch, -⟩ :=
    delivered_once 0 outrun [0] 1 (by decide) (by decide) rfl hrun
  exact ⟨h, s, rs, f, src, hrun, of_decide_eq_true hdec, hseq, hmatch⟩

end Sys

end AtmegaScheduler
