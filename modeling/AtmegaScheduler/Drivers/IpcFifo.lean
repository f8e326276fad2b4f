/-
The queue between tasks, as `ipc_fifo.h` has it.

Every operation is the operation of `fifo_t` between `mtx_lock` and `mtx_release`, and
runs with interrupts enabled: a task can be switched out between any two accesses to
the fields of the queue.  The operations of `fifo_t` are therefore given here access by
access, and agree with the functions of `Drivers/Fifo.lean` when they run alone.

That they do run alone is mutual exclusion.  So a task in the middle of an operation
knows what the rest of it will compute, and the queue is, whenever nobody is in the
middle of one, what the operations make of it in the order in which they acquired the
mutex.
-/
import AtmegaScheduler.Lib.Access
import AtmegaScheduler.Drivers.Fifo
import AtmegaScheduler.Drivers.Exclusion

namespace AtmegaScheduler

open Avr

/-! ### `fifo_t`, access by access -/

/-- An operation on a queue in memory. -/
abbrev FifoAccess (α β : Type) := Access (Fifo α) FifoFault β

namespace FifoAccess

variable {α : Type}

/-- `get_size` -/
def getSize : FifoAccess α Int := Access.get fun f => f.size

/-- `get_used_size` -/
def getUsedSize : FifoAccess α Int := Access.get fun f => f.count

/-- `is_full` -/
def isFull : FifoAccess α Bool := do
  let used ← getUsedSize
  let size ← Access.get fun f => f.size
  return decide (used = size)

/-- `increment_head` -/
def incrementHead : FifoAccess α Bool := do
  let used ← getUsedSize
  let size ← Access.get fun f => f.size
  if used = size then return true
  else do
    let head ← Access.get fun f => f.head
    let next ← Access.eval (checked (head + 1))
    let size ← Access.get fun f => f.size
    let head ← Access.eval (rem next size)
    Access.set fun f => { f with head := head }
    let count ← Access.get fun f => f.count
    let count ← Access.eval (checked (count + 1))
    Access.set fun f => { f with count := count }
    return false

/-- `increment_tail` -/
def incrementTail : FifoAccess α Bool := do
  let used ← getUsedSize
  if used = 0 then return true
  else do
    let tail ← Access.get fun f => f.tail
    let next ← Access.eval (checked (tail + 1))
    let size ← Access.get fun f => f.size
    let tail ← Access.eval (rem next size)
    Access.set fun f => { f with tail := tail }
    let count ← Access.get fun f => f.count
    let count ← Access.eval (checked (count - 1))
    Access.set fun f => { f with count := count }
    return false

/-- `buffer[i]`: the pointer, then the slot. -/
def readSlot (i : Int) : FifoAccess α α := do
  let null ← Access.get fun f => f.buffer.isNone
  if null then .fail .nullBuffer
  else .load fun f => Access.eval (f.readSlot i)

/-- `buffer[i] = item`: the pointer, then the slot. -/
def writeSlot (i : Int) (item : α) : FifoAccess α Unit :=
  .load fun f =>
    match f.buffer with
    | none => .fail .nullBuffer
    | some buf =>
        if i < 0 ∨ buf.length ≤ i.toNat then .fail .outOfBounds
        else Access.set fun f => { f with buffer := f.buffer.map fun buf => buf.set i.toNat item }

/-- `enqueue` -/
def enqueue (item : α) : FifoAccess α Bool := do
  let null ← Access.get fun f => f.buffer.isNone
  if null then return true
  else do
    let used ← getUsedSize
    let size ← Access.get fun f => f.size
    if used = size then return true
    else do
      let head ← Access.get fun f => f.head
      writeSlot head item
      let _ ← incrementHead
      return false

/-- `dequeue` -/
def dequeue : FifoAccess α α := do
  let used ← getUsedSize
  if used = 0 then do
    let tail ← Access.get fun f => f.tail
    readSlot tail
  else do
    let tail ← Access.get fun f => f.tail
    let item ← readSlot tail
    let _ ← incrementTail
    return item

end FifoAccess

/-- The operation a call of `ipc_fifo_t` makes with the mutex held. -/
def FifoOp.access {α : Type} : FifoOp α → FifoAccess α (FifoResult α)
  | .enqueue item => do
      let err ← FifoAccess.enqueue item
      return .flag err
  | .dequeue => do
      let item ← FifoAccess.dequeue
      return .item item
  | .isFull => do
      let full ← FifoAccess.isFull
      return .flag full
  | .getUsedSize => do
      let used ← FifoAccess.getUsedSize
      return .int used
  | .getSize => do
      let size ← FifoAccess.getSize
      return .int size

section Alone

variable {α : Type} (f : Fifo α)

theorem incrementHead_run : FifoAccess.incrementHead.run f = f.incrementHead := by
  unfold FifoAccess.incrementHead FifoAccess.getUsedSize Fifo.incrementHead Fifo.getUsedSize
  rw [Access.run_get_bind, Access.run_get_bind]
  by_cases hfull : f.count = f.size
  · rw [if_pos hfull, if_pos hfull]
    rfl
  · rw [if_neg hfull, if_neg hfull, Access.run_get_bind, Access.run_eval_bind]
    refine bind_congr fun next => ?_
    rw [Access.run_get_bind, Access.run_eval_bind]
    refine bind_congr fun head => ?_
    rw [Access.run_set_bind, Access.run_get_bind, Access.run_eval_bind]
    rfl

theorem incrementTail_run : FifoAccess.incrementTail.run f = f.incrementTail := by
  unfold FifoAccess.incrementTail FifoAccess.getUsedSize Fifo.incrementTail Fifo.getUsedSize
  rw [Access.run_get_bind]
  by_cases hempty : f.count = 0
  · rw [if_pos hempty, if_pos hempty]
    rfl
  · rw [if_neg hempty, if_neg hempty, Access.run_get_bind, Access.run_eval_bind]
    refine bind_congr fun next => ?_
    rw [Access.run_get_bind, Access.run_eval_bind]
    refine bind_congr fun tail => ?_
    rw [Access.run_set_bind, Access.run_get_bind, Access.run_eval_bind]
    rfl

theorem readSlot_run (i : Int) :
    (FifoAccess.readSlot i).run f = f.readSlot i >>= fun item => .ok (item, f) := by
  unfold FifoAccess.readSlot
  rw [Access.run_get_bind]
  cases hbuf : f.buffer with
  | none =>
      unfold Fifo.readSlot
      rw [hbuf]
      rfl
  | some buf =>
      show (Access.eval (f.readSlot i)).run f = _
      cases f.readSlot i with
      | ok item => rfl
      | error e => rfl

theorem writeSlot_run (i : Int) (item : α) :
    (FifoAccess.writeSlot i item).run f = f.writeSlot i item >>= fun f' => .ok ((), f') := by
  obtain ⟨buffer, size, count, head, tail⟩ := f
  cases buffer with
  | none => rfl
  | some buf =>
      unfold Fifo.writeSlot
      show Access.run (if _ then Access.fail FifoFault.outOfBounds else Access.set _) _ = _
      by_cases hi : i < 0 ∨ buf.length ≤ i.toNat
      · rw [if_pos hi]
        dsimp only
        rw [if_pos hi]
        rfl
      · rw [if_neg hi]
        dsimp only
        rw [if_neg hi]
        rfl

theorem enqueue_run (item : α) : (FifoAccess.enqueue item).run f = f.enqueue item := by
  unfold FifoAccess.enqueue FifoAccess.getUsedSize Fifo.enqueue Fifo.getUsedSize
  rw [Access.run_get_bind]
  by_cases hnull : f.buffer.isNone = true
  · rw [if_pos hnull, if_pos hnull]
    rfl
  · rw [if_neg hnull, if_neg hnull, Access.run_get_bind, Access.run_get_bind]
    by_cases hfull : f.count = f.size
    · rw [if_pos hfull, if_pos hfull]
      rfl
    · rw [if_neg hfull, if_neg hfull, Access.run_get_bind, Access.run_bind,
        writeSlot_run, bind_assoc]
      refine bind_congr fun f' => ?_
      rw [Fifo.ok_bind, Access.run_bind, incrementHead_run]
      rfl

theorem dequeue_run : FifoAccess.dequeue.run f = f.dequeue := by
  unfold FifoAccess.dequeue FifoAccess.getUsedSize Fifo.dequeue Fifo.getUsedSize
  rw [Access.run_get_bind]
  by_cases hempty : f.count = 0
  · rw [if_pos hempty, if_pos hempty, Access.run_get_bind, readSlot_run]
  · rw [if_neg hempty, if_neg hempty, Access.run_get_bind, Access.run_bind,
      readSlot_run, bind_assoc]
    refine bind_congr fun item => ?_
    rw [Fifo.ok_bind, Access.run_bind, incrementTail_run]
    rfl

/-- **Alone**, the accesses compute what the operation does. -/
theorem access_run (op : FifoOp α) : op.access.run f = f.call op := by
  cases op with
  | enqueue item =>
      show (FifoAccess.enqueue item >>= _).run f = _
      rw [Access.run_bind, enqueue_run]
      rfl
  | dequeue =>
      show (FifoAccess.dequeue >>= _).run f = _
      rw [Access.run_bind, dequeue_run]
      rfl
  | isFull => rfl
  | getUsedSize => rfl
  | getSize => rfl

end Alone

/-! ### The tasks -/

/-- Where a task is in its calls of `ipc_fifo_t`, outside the functions of the mutex:
between two calls, in the middle of the operation, or after `mtx_release` with what the
call is about to return. -/
inductive IpcPlace (α : Type)
  | idle (todo : List (FifoOp α))
  | body (op : FifoOp α) (p : FifoAccess α (FifoResult α)) (todo : List (FifoOp α))
  | returning (op : FifoOp α) (r : FifoResult α) (todo : List (FifoOp α))

/-- What a task shows: an access, or that a call returns. -/
inductive IpcEvent (α : Type)
  | access
  | returned (op : FifoOp α) (r : FifoResult α)
  deriving DecidableEq

/-- Tasks that make their calls one after another: `mtx_lock`, the operation,
`mtx_release`, and the return. -/
def ipcFifo (τ α : Type) : Script τ (Fifo α) (IpcPlace α) (IpcEvent α) where
  step _ place f iflag :=
    match place with
    | .idle _ => none
    | .body op p todo => (p.step f).map fun (p', f') => (.access, .body op p' todo, f', iflag)
    | .returning op r todo => some (.returned op r, .idle todo, f, iflag)
  call _ place :=
    match place with
    | .idle (op :: todo) => some (.lock, fun _ => .body op op.access todo)
    | .body op (.done r) todo => some (.release, fun _ => .returning op r todo)
    | _ => none

/-- `init` of `ipc_fifo_t`, and the tasks before their first calls. -/
def Sys.ipcStart {τ α : Type} (first : τ) (prog : τ → List (FifoOp α)) (buf : List α) (n : Word) :
    Sys τ (Fifo α) (IpcPlace α) :=
  ⟨mtxInit, true, first, Fifo.init (some buf) n, fun t => .own (.idle (prog t))⟩

/-! ### What a run shows -/

section Histories

variable {τ α : Type} [DecidableEq τ]

/-- One more label: a return of `mtx_lock` is the next call of the task's program. -/
def acquire (c : (τ → List (FifoOp α)) × List (τ × FifoOp α)) :
    Label τ (IpcEvent α) → (τ → List (FifoOp α)) × List (τ × FifoOp α)
  | .ret t .lock _ =>
      match c.1 t with
      | [] => c
      | op :: todo => (Function.update c.1 t todo, c.2 ++ [(t, op)])
  | _ => c

/-- The calls in the order in which they acquired the mutex. -/
def acquired (prog : τ → List (FifoOp α)) (h : List (Label τ (IpcEvent α))) : List (τ × FifoOp α) :=
  (h.foldl acquire (prog, [])).2

/-- What the calls of `t` have returned, in order. -/
def returned (t : τ) (h : List (Label τ (IpcEvent α))) : List (FifoOp α × FifoResult α) :=
  h.filterMap fun l =>
    match l with
    | .own u (.returned op r) => if u = t then some (op, r) else none
    | _ => none

/-- The calls of `t` among `seq`, with their results among `rs`. -/
def answers (t : τ) (seq : List (τ × FifoOp α)) (rs : List (FifoResult α)) :
    List (FifoOp α × FifoResult α) :=
  (seq.zip rs).filterMap fun c => if c.1.1 = t then some (c.1.2, c.2) else none

theorem answers_snoc {seq : List (τ × FifoOp α)} {rs : List (FifoResult α)}
    (hlen : seq.length = rs.length) (t u : τ) (op : FifoOp α) (r : FifoResult α) :
    answers t (seq ++ [(u, op)]) (rs ++ [r]) =
      answers t seq rs ++ if u = t then [(op, r)] else [] := by
  unfold answers
  rw [List.zip_append hlen, List.filterMap_append]
  by_cases hu : u = t
  · simp [hu]
  · simp [hu]

end Histories

/-! ### What every place can rely on -/

/-- A task, with its calls `todo` that have not acquired the mutex yet, the results
`done` that have been returned and the results `ans` of those that have acquired it: at
most one has acquired it and not returned, and in the middle of its operation the rest
of it leads to `f`. -/
inductive Tracks {α : Type} (insec : Prop) (mem f : Fifo α) :
    List (FifoOp α) → List (FifoOp α × FifoResult α) → List (FifoOp α × FifoResult α) →
      Place (IpcPlace α) → Prop
  | idle {todo : List (FifoOp α)} {done : List (FifoOp α × FifoResult α)} :
      Tracks insec mem f todo done done (.own (.idle todo))
  | locking {op : FifoOp α} {todo : List (FifoOp α)} {done : List (FifoOp α × FifoResult α)}
      {pc : MtxPc} {sreg : Bool} (hop : pc.op = .lock) :
      Tracks insec mem f (op :: todo) done done (.inside pc sreg fun _ => .body op op.access todo)
  | body {op : FifoOp α} {p : FifoAccess α (FifoResult α)} {todo : List (FifoOp α)}
      {done : List (FifoOp α × FifoResult α)} {r : FifoResult α} (hsec : insec)
      (hrun : p.run mem = .ok (r, f)) :
      Tracks insec mem f todo done (done ++ [(op, r)]) (.own (.body op p todo))
  | releasing {op : FifoOp α} {r : FifoResult α} {todo : List (FifoOp α)}
      {done : List (FifoOp α × FifoResult α)} {pc : MtxPc} {sreg : Bool} (hop : pc.op = .release) :
      Tracks insec mem f todo done (done ++ [(op, r)])
        (.inside pc sreg fun _ => .returning op r todo)
  | returning {op : FifoOp α} {r : FifoResult α} {todo : List (FifoOp α)}
      {done : List (FifoOp α × FifoResult α)} :
      Tracks insec mem f todo done (done ++ [(op, r)]) (.own (.returning op r todo))

/-- In the middle of an operation. -/
def Place.Body {α : Type} (pl : Place (IpcPlace α)) : Prop :=
  ∃ op p todo, pl = .own (.body op p todo)

section Tracks

variable {α : Type} {insec insec' : Prop} {mem mem' f f' : Fifo α} {todo : List (FifoOp α)}
  {done ans : List (FifoOp α × FifoResult α)} {pl : Place (IpcPlace α)}

/-- Only a task in the middle of an operation looks at the queue. -/
theorem Tracks.frame (h : Tracks insec mem f todo done ans pl) (hsec : insec → insec')
    (hbody : pl.Body → mem' = mem ∧ f' = f) : Tracks insec' mem' f' todo done ans pl := by
  cases h with
  | idle => exact .idle
  | locking hop => exact .locking hop
  | body hin hrun =>
      obtain ⟨rfl, rfl⟩ := hbody ⟨_, _, _, rfl⟩
      exact .body (hsec hin) hrun
  | releasing hop => exact .releasing hop
  | returning => exact .returning

/-- A statement of a function of the mutex leaves the task in the function. -/
theorem Tracks.stmt {pc pc' : MtxPc} {sreg sreg' : Bool} {k : MtxResult → IpcPlace α}
    (h : Tracks insec mem f todo done ans (.inside pc sreg k)) (hop : pc'.op = pc.op) :
    Tracks insec' mem' f' todo done ans (.inside pc' sreg' k) := by
  cases h with
  | locking hlock => exact .locking (hop.trans hlock)
  | releasing hrel => exact .releasing (hop.trans hrel)

/-- In the middle of an operation a task is in its section. -/
theorem Tracks.in_section (h : Tracks insec mem f todo done ans pl) (hbody : pl.Body) : insec := by
  obtain ⟨op, p, rest, rfl⟩ := hbody
  cases h with
  | body hin _ => exact hin

/-- What is known of a task at each place. -/
theorem Tracks.of_idle {rest : List (FifoOp α)}
    (h : Tracks insec mem f todo done ans (.own (.idle rest))) : todo = rest ∧ ans = done := by
  cases h with
  | idle => exact ⟨rfl, rfl⟩

theorem Tracks.of_body {op : FifoOp α} {p : FifoAccess α (FifoResult α)} {rest : List (FifoOp α)}
    (h : Tracks insec mem f todo done ans (.own (.body op p rest))) :
    insec ∧ todo = rest ∧ ∃ r, p.run mem = .ok (r, f) ∧ ans = done ++ [(op, r)] := by
  cases h with
  | body hin hrun => exact ⟨hin, rfl, _, hrun, rfl⟩

theorem Tracks.of_returning {op : FifoOp α} {r : FifoResult α} {rest : List (FifoOp α)}
    (h : Tracks insec mem f todo done ans (.own (.returning op r rest))) :
    todo = rest ∧ ans = done ++ [(op, r)] := by
  cases h with
  | returning => exact ⟨rfl, rfl⟩

theorem Tracks.of_inside {pc : MtxPc} {sreg : Bool} {k : MtxResult → IpcPlace α}
    (h : Tracks insec mem f todo done ans (.inside pc sreg k)) :
    (pc.op = .lock ∧ ∃ op rest, todo = op :: rest ∧ ans = done ∧
        k = fun _ => .body op op.access rest) ∨
      (pc.op = .release ∧ ∃ op r, ans = done ++ [(op, r)] ∧ k = fun _ => .returning op r todo) := by
  cases h with
  | locking hop => exact Or.inl ⟨hop, _, _, rfl, rfl, rfl⟩
  | releasing hop => exact Or.inr ⟨hop, _, _, rfl, rfl⟩

/-- The results of a task begin with those that have been returned. -/
theorem Tracks.begins (h : Tracks insec mem f todo done ans pl) : done <+: ans := by
  cases h with
  | idle => exact List.prefix_refl _
  | locking => exact List.prefix_refl _
  | body => exact List.prefix_append _ _
  | releasing => exact List.prefix_append _ _
  | returning => exact List.prefix_append _ _

end Tracks

namespace Sys

variable {τ α : Type} [DecidableEq τ]

/-- The queue is what the calls `seq` make of it, one after another, with the results
`rs`, unless a task is in the middle of the last of them. -/
structure Replays (n : Nat) (f₀ : Fifo α) (prog : τ → List (FifoOp α))
    (h : List (Label τ (IpcEvent α))) (s : Sys τ (Fifo α) (IpcPlace α))
    (todo : τ → List (FifoOp α)) (seq : List (τ × FifoOp α)) (rs : List (FifoResult α))
    (f : Fifo α) (q : List α) : Prop where
  replay : h.foldl acquire (prog, []) = (todo, seq)
  run : f₀.run (seq.map Prod.snd) = .ok (rs, f)
  laid : Fifo.Laid n f q
  tracks : ∀ t, Tracks (InSection t h) s.mem f (todo t) (returned t h) (answers t seq rs) (s.place t)
  quiet : (∀ t, ¬ (s.place t).Body) → s.mem = f

variable {n : Nat} {f₀ f : Fifo α} {prog todo : τ → List (FifoOp α)}
  {h : List (Label τ (IpcEvent α))} {l : Label τ (IpcEvent α)} {s s' : Sys τ (Fifo α) (IpcPlace α)}
  {seq : List (τ × FifoOp α)} {rs : List (FifoResult α)} {q : List α}

theorem Replays.length (hr : Replays n f₀ prog h s todo seq rs f q) : seq.length = rs.length := by
  have hlen := Fifo.run_length hr.run
  rw [List.length_map] at hlen
  exact hlen.symm

/-- Two tasks are not in the middle of an operation at once. -/
theorem Replays.unique (hr : Replays n f₀ prog h s todo seq rs f q) (hinv : Inv h s) {t u : τ}
    (ht : (s.place t).Body) (hu : (s.place u).Body) : t = u :=
  hinv.unique ((hr.tracks t).in_section ht) ((hr.tracks u).in_section hu)

/-- A step that is neither an access nor an acquisition nor a return of a call moves
only the running task, to a place that is tracked. -/
theorem Replays.move {pl : Place (IpcPlace α)} (hr : Replays n f₀ prog h s todo seq rs f q)
    (hacq : acquire (todo, seq) l = (todo, seq)) (hret : ∀ t, returned t (h ++ [l]) = returned t h)
    (hsec : ∀ t, InSection t h → InSection t (h ++ [l]) ∨ t = s.cTask)
    (hself : Tracks (InSection s.cTask (h ++ [l])) s.mem f (todo s.cTask) (returned s.cTask h)
      (answers s.cTask seq rs) pl)
    (hquiet : (s.place s.cTask).Body → ¬ pl.Body → s.mem = f) :
    Replays n f₀ prog (h ++ [l]) (s.goto pl) todo seq rs f q := by
  refine ⟨?_, hr.run, hr.laid, fun t => ?_, fun hno => ?_⟩
  · rw [List.foldl_append, hr.replay]
    exact hacq
  · rw [hret]
    by_cases ht : t = s.cTask
    · subst ht
      rw [goto_self]
      exact hself
    · rw [goto_other ht]
      exact (hr.tracks t).frame (fun hin => (hsec t hin).resolve_right ht) fun _ => ⟨rfl, rfl⟩
  · have hpl : ¬ pl.Body := by
      have h := hno s.cTask
      rwa [goto_self] at h
    by_cases hb : (s.place s.cTask).Body
    · exact hquiet hb hpl
    · refine hr.quiet fun t ht => ?_
      by_cases hself : t = s.cTask
      · exact hb (hself ▸ ht)
      · exact hno t ((goto_other hself (p := pl)).symm ▸ ht)

/-! ### One step -/

variable {C : Client τ (Fifo α) (IpcPlace α) (IpcEvent α)}

theorem returned_snoc (t : τ) (h : List (Label τ (IpcEvent α))) (l : Label τ (IpcEvent α)) :
    returned t (h ++ [l]) = returned t h ++ returned t [l] := by
  unfold returned
  rw [List.filterMap_append]

/-- One access. -/
theorem Replays.access {op : FifoOp α} {p p' : FifoAccess α (FifoResult α)} {rest : List (FifoOp α)}
    {mem' : Fifo α} {i' : Bool} (hr : Replays n f₀ prog h s todo seq rs f q) (hinv : Inv h s)
    (hat : s.place s.cTask = .own (.body op p rest)) (hstep : p.step s.mem = some (p', mem')) :
    Replays n f₀ prog (h ++ [.own s.cTask .access])
      { s.goto (.own (.body op p' rest)) with mem := mem', iflag := i' } todo seq rs f q := by
  have hbody : (s.place s.cTask).Body := ⟨op, p, rest, hat⟩
  refine ⟨?_, hr.run, hr.laid, fun t => ?_, fun hno => ?_⟩
  · rw [List.foldl_append, hr.replay]
    rfl
  · rw [returned_snoc, show returned t [Label.own s.cTask IpcEvent.access] = [] from rfl,
      List.append_nil]
    have ht := hr.tracks t
    by_cases hself : t = s.cTask
    · subst hself
      show Tracks _ mem' f _ _ _ ((s.goto _).place s.cTask)
      rw [goto_self]
      rw [hat] at ht
      obtain ⟨hin, htodo, r, hrun, hans⟩ := ht.of_body
      rw [htodo, hans]
      exact .body (inSection_own.mpr hin) ((Access.run_step hstep).trans hrun)
    · show Tracks _ mem' f _ _ _ ((s.goto _).place t)
      rw [goto_other hself]
      exact ht.frame inSection_own.mpr fun hb => absurd (hr.unique hinv hb hbody) hself
  · refine absurd ?_ (hno s.cTask)
    exact ⟨op, p', rest, goto_self s _⟩

/-- A call returns. -/
theorem Replays.returned {op : FifoOp α} {r : FifoResult α} {rest : List (FifoOp α)}
    (hr : Replays n f₀ prog h s todo seq rs f q)
    (hat : s.place s.cTask = .own (.returning op r rest)) :
    Replays n f₀ prog (h ++ [.own s.cTask (.returned op r)]) (s.goto (.own (.idle rest)))
      todo seq rs f q := by
  refine ⟨?_, hr.run, hr.laid, fun t => ?_, fun hno => ?_⟩
  · rw [List.foldl_append, hr.replay]
    rfl
  · have ht := hr.tracks t
    rw [returned_snoc]
    by_cases hself : t = s.cTask
    · subst hself
      rw [goto_self, show AtmegaScheduler.returned s.cTask [Label.own s.cTask (IpcEvent.returned op r)]
        = [(op, r)] by simp [AtmegaScheduler.returned]]
      rw [hat] at ht
      obtain ⟨htodo, hans⟩ := ht.of_returning
      rw [htodo, hans]
      exact .idle
    · rw [goto_other hself, show AtmegaScheduler.returned t [Label.own s.cTask (IpcEvent.returned op r)]
        = [] by simp [AtmegaScheduler.returned, Ne.symm hself], List.append_nil]
      exact ht.frame inSection_own.mpr fun _ => ⟨rfl, rfl⟩
  · refine hr.quiet fun t ht => ?_
    by_cases hself : t = s.cTask
    · subst hself
      obtain ⟨op', p', rest', hpl⟩ := ht
      exact absurd (hat.symm.trans hpl) (by simp)
    · exact hno t ((goto_other hself).symm ▸ ht)

/-- The mutex is acquired: one more call, which will find the queue as the others left
it. -/
theorem Replays.locked {pc : MtxPc} {sreg : Bool} {k : MtxResult → IpcPlace α} {r : MtxResult}
    (hmax : n ≤ 32767) (hr : Replays n f₀ prog h s todo seq rs f q)
    (hinv' : Inv (h ++ [.ret s.cTask pc.op r]) (s.goto (.own (k r))))
    (hat : s.place s.cTask = .inside pc sreg k) (hop : pc.op = .lock) :
    ∃ todo' seq' rs' f' q',
      Replays n f₀ prog (h ++ [.ret s.cTask pc.op r]) (s.goto (.own (k r)))
        todo' seq' rs' f' q' := by
  have hself := hr.tracks s.cTask
  rw [hat] at hself
  rcases hself.of_inside with ⟨-, op, rest, htodo, hans, rfl⟩ | ⟨hrel, -⟩
  · have hsec : InSection s.cTask (h ++ [Label.ret s.cTask pc.op r]) :=
      inSection_ret.mpr (Or.inl ⟨rfl, by rw [hop]; rfl⟩)
    -- nobody else is in the middle of an operation, since the mutex is ours now
    have hquiet : ∀ t, ¬ (s.place t).Body := by
      intro t hb
      have ht : InSection t (h ++ [Label.ret s.cTask pc.op r]) :=
        inSection_ret.mpr (Or.inr ((hr.tracks t).in_section hb))
      obtain ⟨op', p', rest', hpl⟩ := hinv'.unique ht hsec ▸ hb
      exact absurd (hat.symm.trans hpl) (by simp)
    obtain ⟨res, f', q', hcall, _, hlaid⟩ := Fifo.call_laid hr.laid hmax op
    refine ⟨Function.update todo s.cTask rest, seq ++ [(s.cTask, op)], rs ++ [res], f', q',
      ?_, ?_, hlaid, fun t => ?_, fun hno => ?_⟩
    · rw [List.foldl_append, hr.replay, hop]
      unfold acquire
      dsimp only [List.foldl]
      rw [htodo]
    · rw [List.map_append]
      exact Fifo.run_snoc hcall hr.run
    · rw [returned_snoc, show AtmegaScheduler.returned t [Label.ret s.cTask pc.op r] = [] from rfl,
        List.append_nil, answers_snoc hr.length]
      by_cases ht : t = s.cTask
      · subst ht
        rw [goto_self, Function.update_self, if_pos rfl, hans]
        refine .body hsec ?_
        show (FifoOp.access op).run s.mem = _
        rw [hr.quiet hquiet, access_run, hcall]
      · rw [goto_other ht, Function.update_of_ne ht, if_neg (Ne.symm ht), List.append_nil]
        exact (hr.tracks t).frame (fun hin => inSection_ret.mpr (Or.inr hin))
          fun hb => absurd hb (hquiet t)
    · exact absurd ⟨_, _, _, goto_self s _⟩ (hno s.cTask)
  · exact absurd (hop.symm.trans hrel) (by decide)

/-- A call of a function of the mutex. -/
theorem Replays.call {op : MtxOp} {k : MtxResult → IpcPlace α} {p : IpcPlace α}
    (hr : Replays n f₀ prog h s todo seq rs f q) (hat : s.place s.cTask = .own p)
    (hcall : (ipcFifo τ α).call s.cTask p = some (op, k)) :
    Replays n f₀ prog (h ++ [.call s.cTask op]) (s.goto (.inside op.entry false k))
      todo seq rs f q := by
  have hself := hr.tracks s.cTask
  rw [hat] at hself
  have hsec : ∀ t, InSection t h → InSection t (h ++ [Label.call s.cTask op]) ∨ t = s.cTask := by
    intro t ht
    by_cases hself : t = s.cTask
    · exact Or.inr hself
    · exact Or.inl (inSection_call.mpr ⟨ht, fun hc => hself hc.1.symm⟩)
  have hret : ∀ t, AtmegaScheduler.returned t (h ++ [Label.call s.cTask op]) =
      AtmegaScheduler.returned t h := by
    intro t
    rw [returned_snoc]
    exact List.append_nil _
  cases p with
  | idle rest =>
      cases rest with
      | nil => exact absurd hcall (by simp [ipcFifo])
      | cons fop rest =>
          obtain ⟨rfl, rfl⟩ := Prod.mk.inj (Option.some.inj hcall)
          refine hr.move rfl hret hsec ?_ fun hb => ?_
          · obtain ⟨htodo, hans⟩ := hself.of_idle
            rw [htodo, hans]
            exact .locking rfl
          · obtain ⟨op', p', rest', hpl⟩ := hb
            exact absurd (hat.symm.trans hpl) (by simp)
  | body fop p rest =>
      cases p with
      | done r =>
          obtain ⟨rfl, rfl⟩ := Prod.mk.inj (Option.some.inj hcall)
          obtain ⟨-, htodo, r', hrun, hans⟩ := hself.of_body
          -- the operation is over: the queue is what it was to lead to
          obtain ⟨rfl, hmem⟩ := Prod.mk.inj (Except.ok.inj hrun)
          refine hr.move rfl hret hsec ?_ fun _ _ => hmem
          rw [hans, htodo]
          exact .releasing rfl
      | fail e => exact absurd hcall (by simp [ipcFifo])
      | load next => exact absurd hcall (by simp [ipcFifo])
      | store w next => exact absurd hcall (by simp [ipcFifo])
  | returning fop r rest => exact absurd hcall (by simp [ipcFifo])

/-- `mtx_release` returns. -/
theorem Replays.released {pc : MtxPc} {sreg : Bool} {k : MtxResult → IpcPlace α} {r : MtxResult}
    (hr : Replays n f₀ prog h s todo seq rs f q)
    (hat : s.place s.cTask = .inside pc sreg k) (hop : pc.op = .release) :
    Replays n f₀ prog (h ++ [.ret s.cTask pc.op r]) (s.goto (.own (k r))) todo seq rs f q := by
  have hself := hr.tracks s.cTask
  rw [hat] at hself
  have hret : ∀ t, AtmegaScheduler.returned t (h ++ [Label.ret s.cTask pc.op r]) =
      AtmegaScheduler.returned t h := by
    intro t
    rw [returned_snoc]
    exact List.append_nil _
  refine hr.move ?_ hret (fun t ht => Or.inl (inSection_ret.mpr (Or.inr ht))) ?_ fun hb => ?_
  · rw [hop]
    rfl
  · rcases hself.of_inside with ⟨hlock, -⟩ | ⟨-, op, res, hans, rfl⟩
    · exact absurd (hop.symm.trans hlock) (by decide)
    · rw [hans]
      exact .returning
  · obtain ⟨op', p', rest', hpl⟩ := hb
    exact absurd (hat.symm.trans hpl) (by simp)

/-- A statement of a function of the mutex, or its `yield`. -/
theorem Replays.inside {pc pc' : MtxPc} {sreg sreg' : Bool} {k : MtxResult → IpcPlace α}
    (hr : Replays n f₀ prog h s todo seq rs f q) (hat : s.place s.cTask = .inside pc sreg k)
    (hop : pc'.op = pc.op) (hacq : acquire (todo, seq) l = (todo, seq))
    (hret : ∀ t, AtmegaScheduler.returned t [l] = [])
    (hsec : ∀ t, InSection t h → InSection t (h ++ [l])) :
    Replays n f₀ prog (h ++ [l]) (s.goto (.inside pc' sreg' k)) todo seq rs f q := by
  have hself := hr.tracks s.cTask
  rw [hat] at hself
  refine hr.move hacq (fun t => ?_) (fun t ht => Or.inl (hsec t ht)) (hself.stmt hop) fun hb => ?_
  · rw [returned_snoc, hret, List.append_nil]
  · obtain ⟨op', p', rest', hpl⟩ := hb
    exact absurd (hat.symm.trans hpl) (by simp)

/-- A switch between tasks. -/
theorem Replays.switch (hr : Replays n f₀ prog h s todo seq rs f q) (u : τ) :
    Replays n f₀ prog (h ++ [.switch u]) (s.switchTo u) todo seq rs f q := by
  refine ⟨?_, hr.run, hr.laid, fun t => ?_, hr.quiet⟩
  · rw [List.foldl_append, hr.replay]
    rfl
  · rw [returned_snoc, show AtmegaScheduler.returned t [Label.switch u] = [] from rfl,
      List.append_nil]
    exact (hr.tracks t).frame inSection_switch.mpr fun _ => ⟨rfl, rfl⟩

/-- **One step.** -/
theorem Replays.next (hmax : n ≤ 32767)
    (hr : Replays n f₀ prog h s todo seq rs f q) (hinv : Inv h s)
    (hstep : Step (ipcFifo τ α).client s l s') :
    ∃ todo' seq' rs' f' q', Replays n f₀ prog (h ++ [l]) s' todo' seq' rs' f' q' := by
  cases hstep with
  | own hat hown =>
      rename_i p p' e mem' i'
      have hdo : (ipcFifo τ α).step s.cTask p s.mem s.iflag = some (e, p', mem', i') := hown
      cases p with
      | idle rest => exact absurd hdo (by simp [ipcFifo])
      | body op prg rest =>
          obtain ⟨⟨prg', m'⟩, hacc, heq⟩ := Option.map_eq_some_iff.mp hdo
          obtain ⟨rfl, rfl, rfl, rfl⟩ : IpcEvent.access = e ∧ IpcPlace.body op prg' rest = p' ∧
              m' = mem' ∧ s.iflag = i' := by simpa using heq
          exact ⟨_, _, _, _, _, hr.access hinv hat hacc⟩
      | returning op r rest =>
          obtain ⟨rfl, rfl, rfl, rfl⟩ : IpcEvent.returned op r = e ∧ IpcPlace.idle rest = p' ∧
              s.mem = mem' ∧ s.iflag = i' := by simpa [ipcFifo] using hdo
          exact ⟨_, _, _, _, _, hr.returned hat⟩
  | call hat hcall => exact ⟨_, _, _, _, _, hr.call hat hcall⟩
  | stmt hat hyield hres =>
      rename_i pc sreg k
      refine ⟨todo, seq, rs, f, q, ?_⟩
      have hgo : Replays n f₀ prog (h ++ [.stmt s.cTask])
          (s.goto (.inside (s.after pc sreg).pc (s.after pc sreg).sreg k)) todo seq rs f q :=
        hr.inside hat (mtxStmt_op _ _) rfl (fun _ => rfl) fun t => inSection_stmt.mpr
      exact ⟨hgo.replay, hgo.run, hgo.laid, hgo.tracks, hgo.quiet⟩
  | ret hat hres =>
      rename_i pc r sreg k
      have hinv' := inv_ret hinv hat hres
      cases hop : pc.op with
      | lock =>
          rw [← hop]
          exact hr.locked hmax hinv' hat hop
      | release =>
          rw [← hop]
          exact ⟨_, _, _, _, _, hr.released hat hop⟩
      | tryLock =>
          have hself := hr.tracks s.cTask
          rw [hat] at hself
          rcases hself.of_inside with ⟨hlock, -⟩ | ⟨hrel, -⟩
          · exact absurd (hop.symm.trans hlock) (by decide)
          · exact absurd (hop.symm.trans hrel) (by decide)
  | yield u hat =>
      rename_i sreg k
      refine ⟨todo, seq, rs, f, q, ?_⟩
      have hgo : Replays n f₀ prog (h ++ [.switch u]) (s.goto (.inside (.lock .recli) sreg k))
          todo seq rs f q :=
        hr.inside hat rfl rfl (fun _ => rfl) fun t => inSection_switch.mpr
      exact ⟨hgo.replay, hgo.run, hgo.laid, hgo.tracks, hgo.quiet⟩
  | switch u _ => exact ⟨_, _, _, _, _, hr.switch u⟩

/-! ### Runs -/

omit [DecidableEq τ] in
theorem ipcStart_initial (first : τ) (prog : τ → List (FifoOp α)) (buf : List α) (n : Word) :
    (ipcStart first prog buf n).Initial :=
  ⟨rfl, fun t => ⟨.idle (prog t), rfl⟩⟩

theorem ipcStart_replays (first : τ) (prog : τ → List (FifoOp α)) {buf : List α} {n : Word}
    (hpos : 1 ≤ n.toNat) (hmax : n.toNat ≤ 32767) (hbuf : buf.length = n.toNat) :
    Replays n.toNat (Fifo.init (some buf) n) prog [] (ipcStart first prog buf n) prog [] []
      (Fifo.init (some buf) n) [] where
  replay := rfl
  run := rfl
  laid := Fifo.laid_init hpos hmax hbuf
  tracks := fun _ => .idle
  quiet := fun _ => rfl

theorem replays_run (hmax : n ≤ 32767) {s₀ : Sys τ (Fifo α) (IpcPlace α)} (h₀ : s₀.Initial)
    (hr₀ : Replays n f₀ prog [] s₀ todo seq rs f q) (hrun : Run (ipcFifo τ α).client s₀ h s) :
    ∃ todo' seq' rs' f' q', Replays n f₀ prog h s todo' seq' rs' f' q' := by
  induction hrun with
  | nil => exact ⟨_, _, _, _, _, hr₀⟩
  | snoc hrun hstep ih =>
      obtain ⟨_, _, _, _, _, hr⟩ := ih
      exact hr.next hmax (inv_reached h₀ hrun) hstep

/--
**The operations are atomic.**  In every run the calls, one after another in the order
in which they acquired the mutex, go through without a fault; whenever the mutex is free
the queue is what they make of it; and what the calls of a task have returned is what
its first calls among them return there.  No access of any task is faulty.
-/
theorem operations_atomic (first : τ) (prog : τ → List (FifoOp α)) (buf : List α) (n : Word)
    (hpos : 1 ≤ n.toNat) (hmax : n.toNat ≤ 32767) (hbuf : buf.length = n.toNat)
    (hrun : Run (ipcFifo τ α).client (ipcStart first prog buf n) h s) :
    ∃ rs f, (Fifo.init (some buf) n).run ((acquired prog h).map Prod.snd) = .ok (rs, f) ∧
      (s.mutex.owner = none → s.mem = f) ∧
      (∀ t, AtmegaScheduler.returned t h <+: answers t (acquired prog h) rs) ∧
      ∀ t op e rest, s.place t ≠ .own (.body op (.fail e) rest) := by
  have h₀ := ipcStart_initial first prog buf n
  have hinv := inv_reached h₀ hrun
  obtain ⟨todo, seq, rs, f, q, hr⟩ :=
    replays_run hmax h₀ (ipcStart_replays first prog hpos hmax hbuf) hrun
  have hseq : acquired prog h = seq := congrArg Prod.snd hr.replay
  rw [hseq]
  refine ⟨rs, f, hr.run, fun hfree => hr.quiet fun t hb => ?_,
    fun t => (hr.tracks t).begins, fun t op e rest hpl => ?_⟩
  · have hown := hinv.section_owner t ((hr.tracks t).in_section hb)
    rw [hfree] at hown
    exact absurd hown (by simp)
  · have ht := hr.tracks t
    rw [hpl] at ht
    obtain ⟨-, -, r, hfail, -⟩ := ht.of_body
    exact Access.ne_fail hfail e rfl

/-- Task 0 is switched out in the middle of its `enqueue`; the `dequeue` of task 1 waits,
and returns the item. -/
def handOver (t : Fin 2) : List (FifoOp Nat) := if t = 0 then [.enqueue 7] else [.dequeue]

theorem operations_atomic_handOver :
    ∃ h s, Run (ipcFifo (Fin 2) Nat).client (ipcStart 0 handOver [0] 1) h s ∧
      AtmegaScheduler.returned 1 h = [(.dequeue, .item 7)] ∧
      ∃ rs, (Fifo.init (some [0]) 1).run ((acquired handOver h).map Prod.snd) =
        .ok (rs, s.mem) := by
  have hplay : ((play (ipcFifo (Fin 2) Nat) [(0, 12), (1, 5), (0, 17), (1, 23)]
      ([], ipcStart 0 handOver [0] 1)).map fun c => decide (
        AtmegaScheduler.returned 1 c.1 = [(.dequeue, .item 7)] ∧ c.2.mutex.owner = none)) =
      some true := by decide +kernel
  obtain ⟨⟨h, s⟩, hc, hdec⟩ := Option.map_eq_some_iff.mp hplay
  obtain ⟨hret, hfree⟩ := of_decide_eq_true hdec
  have hrun : Run (ipcFifo (Fin 2) Nat).client (ipcStart 0 handOver [0] 1) h s :=
    play_run (.nil _) hc
  obtain ⟨rs, f, hseq, hmem, -, -⟩ :=
    operations_atomic 0 handOver [0] 1 (by decide) (by decide) rfl hrun
  exact ⟨h, s, hrun, hret, rs, hmem hfree ▸ hseq⟩

end Sys

end AtmegaScheduler
