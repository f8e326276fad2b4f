/-
Taking turns along a queue that grows at its end.

The turn passes from a member to the one behind it, and from the last one back to the
first.  Whoever joins does so at the end.

Between two turns of one member the others have theirs exactly once.  The walk from the
one turn to the other has two phases.  On its way out, the members that had a turn are
the part of the queue right behind `a`.  Once it has wrapped around, they are everything
that was behind `a` at that moment, and the beginning of the queue.  Members that join
before the wrap are met on the way out, and those that join after it are not met at all.
-/
import AtmegaScheduler.Lib.Split
import Mathlib.Data.List.Induction

namespace RoundRobin

variable {α : Type} [DecidableEq α]

/-- A queue, and the member whose turn it is. -/
structure Turn (α : Type) where
  queue : List α
  cur : α

/-- Somebody joins, or the turn passes on. -/
inductive Event (α : Type)
  | join (x : α)
  | pass

namespace Turn

/-- Whose turn is next. -/
def next (w : Turn α) : α := (w.queue[w.queue.idxOf w.cur + 1]?.or w.queue.head?).getD w.cur

def step (w : Turn α) : Event α → Turn α
  | .join x => { w with queue := w.queue ++ [x] }
  | .pass => { w with cur := w.next }

def run (w : Turn α) (es : List (Event α)) : Turn α := es.foldl step w

/-- Who had a turn, one after another. -/
def turns (w : Turn α) : List (Event α) → List α
  | [] => []
  | .join x :: es => (w.step (.join x)).turns es
  | .pass :: es => w.next :: (w.step .pass).turns es

/-! ### One turn -/

variable {w : Turn α} {a x : α} {u v : List α}

theorem next_of_split (hq : w.queue = u ++ w.cur :: v) (hnd : w.queue.Nodup) :
    w.next = (v.head?.or w.queue.head?).getD w.cur := by
  have hidx : w.queue.idxOf w.cur = u.length := by
    rw [hq] at hnd ⊢
    exact Split.idxOf_eq hnd
  have hlink : w.queue[u.length + 1]? = v.head? := by
    rw [hq, List.getElem?_append_right (Nat.le_add_right _ 1), Nat.add_sub_cancel_left,
      List.getElem?_cons_succ, List.head?_eq_getElem?]
  unfold next
  rw [hidx, hlink]

theorem next_of_cons (hq : w.queue = u ++ w.cur :: x :: v) (hnd : w.queue.Nodup) : w.next = x := by
  rw [next_of_split hq hnd]
  rfl

theorem next_of_last (hq : w.queue = x :: v) (hlast : w.queue = u ++ [w.cur])
    (hnd : w.queue.Nodup) : w.next = x := by
  rw [next_of_split hlast hnd, hq]
  rfl

theorem some_next (hmem : w.cur ∈ w.queue) :
    w.queue[w.queue.idxOf w.cur + 1]?.or w.queue.head? = some w.next := by
  unfold next
  cases hx : w.queue[w.queue.idxOf w.cur + 1]? with
  | some x => rfl
  | none =>
      obtain ⟨hd, rest, hq⟩ := List.exists_cons_of_ne_nil (List.ne_nil_of_mem hmem)
      rw [hq]
      rfl

theorem next_mem (hmem : w.cur ∈ w.queue) : w.next ∈ w.queue := by
  rcases Option.or_eq_some_iff.mp (some_next hmem) with hx | ⟨-, hx⟩
  · exact List.mem_of_getElem? hx
  · exact List.mem_of_mem_head? hx

/-- The turn goes to the next position, modulo the length of the queue. -/
theorem next_position {i : Nat} (hnd : w.queue.Nodup) (hi : w.queue[i]? = some w.cur) :
    w.queue[(i + 1) % w.queue.length]? = some w.next := by
  have hlt : i < w.queue.length := (List.getElem?_eq_some_iff.mp hi).1
  have hmem : w.cur ∈ w.queue := List.mem_of_getElem? hi
  rw [← some_next hmem]
  have hidx : w.queue.idxOf w.cur = i := by
    rw [← (List.getElem?_eq_some_iff.mp hi).2]
    exact hnd.idxOf_getElem i hlt
  rw [hidx]
  by_cases hlast : i + 1 < w.queue.length
  · rw [Nat.mod_eq_of_lt hlast, List.getElem?_eq_getElem hlast]
    rfl
  · have hwrap : i + 1 = w.queue.length := by omega
    rw [hwrap, Nat.mod_self, List.getElem?_eq_none (Nat.le_refl _), ← List.head?_eq_getElem?]
    rfl

/-! ### From one turn of a member to its next -/

/-- Where the walk is since the turn of `a`, when `old` were the members and `d` have had
their turn. -/
inductive Lap (a : α) (old : List α) (w : Turn α) (d : List α) : Prop
  /-- It has not wrapped around: `d` is the part of the queue behind `a`. -/
  | out (l u v : List α) (queue : w.queue = u ++ w.cur :: v) (walked : u ++ [w.cur] = l ++ a :: d)
      (members : ∀ x ∈ old, x ∈ w.queue)
  /-- It has: what was behind `a` then has been walked, and what joined since has not. -/
  | home (u r d₁ j : List α) (queue : w.queue = u ++ w.cur :: (r ++ a :: (d₁ ++ j)))
      (walked : d = d₁ ++ (u ++ [w.cur])) (members : ∀ x ∈ old, x ∈ u ++ w.cur :: (r ++ a :: d₁))

omit [DecidableEq α] in
theorem lap_start (hmem : w.cur ∈ w.queue) : Lap w.cur w.queue w [] := by
  obtain ⟨u, v, hq⟩ := List.append_of_mem hmem
  exact .out u u v hq rfl fun _ hx => hx

theorem Lap.join {old d : List α} (h : Lap a old w d) (x : α) : Lap a old (w.step (.join x)) d := by
  have hqueue : (w.step (.join x)).queue = w.queue ++ [x] := rfl
  cases h with
  | out l u v hq hwalked hold =>
      refine .out l u (v ++ [x]) ?_ hwalked fun y hy => List.mem_append_left _ (hold y hy)
      rw [hqueue, hq, List.append_assoc]
      rfl
  | home u r d₁ j hq hwalked hold =>
      refine .home u r d₁ (j ++ [x]) ?_ hwalked hold
      rw [hqueue, hq]
      simp [step]

/-- The others had their turn, each of them once. -/
structure Served (a : α) (old d : List α) : Prop where
  once : d.Nodup
  all : ∀ x ∈ old, x ≠ a → x ∈ d

omit [DecidableEq α] in
/-- The walk has not come back to `a`. -/
theorem Lap.cur_ne {old d : List α} (h : Lap a old w (d ++ [w.cur])) (hnd : w.queue.Nodup) :
    w.cur ≠ a := by
  cases h with
  | out l u v hq hwalked hold =>
      intro hc
      have hpart : (u ++ [w.cur]).Nodup := by
        refine hnd.sublist ?_
        rw [hq]
        exact (List.Sublist.refl u).append (List.singleton_sublist.mpr List.mem_cons_self)
      rw [hwalked] at hpart
      exact Split.notMem_behind hpart (List.mem_append_right _ (List.mem_singleton.mpr hc.symm))
  | home u r d₁ j hq hwalked hold =>
      rw [hq] at hnd
      intro hc
      refine Split.notMem_behind hnd ?_
      rw [hc]
      exact List.mem_append_right _ List.mem_cons_self

/-- The turn passes on: to `a`, when everybody has been served, or further along. -/
theorem Lap.pass {old d : List α} (h : Lap a old w d) (hnd : w.queue.Nodup) :
    (w.next = a ∧ Served a old d) ∨ Lap a old (w.step .pass) (d ++ [w.next]) := by
  have hcur : (w.step .pass).cur = w.next := rfl
  have hqueue : (w.step .pass).queue = w.queue := rfl
  cases h with
  | out l u v hq hwalked hold =>
      cases v with
      | cons x v =>
          have hnext := next_of_cons hq hnd
          refine Or.inr (.out l (u ++ [w.cur]) v ?_ ?_ hold)
          · rw [hcur, hqueue, hnext, hq, List.append_assoc]
            rfl
          · rw [hcur, hwalked, List.append_assoc]
            rfl
      | nil =>
          have hlist : w.queue = l ++ a :: d := hq.trans hwalked
          cases l with
          | nil =>
              refine Or.inl ⟨next_of_last hlist hq hnd, ?_, fun x hx hne => ?_⟩
              · rw [hlist] at hnd
                exact (List.nodup_cons.mp hnd).2
              · have hxq := hold x hx
                rw [hlist] at hxq
                exact (List.mem_cons.mp hxq).resolve_left hne
          | cons y l =>
              have hnext := next_of_last hlist hq hnd
              refine Or.inr (.home [] l d [] ?_ ?_ fun x hx => ?_)
              · rw [hcur, hqueue, hnext, hlist, List.append_nil]
                rfl
              · rw [hcur, List.nil_append]
              · have hxq := hold x hx
                rw [hlist] at hxq
                rw [hcur, hnext]
                exact hxq
  | home u r d₁ j hq hwalked hold =>
      cases r with
      | nil =>
          have hd : d.Nodup := by
            rw [hwalked, List.nodup_append_comm]
            refine hnd.sublist ?_
            rw [hq, List.append_assoc]
            refine (List.Sublist.refl u).append (List.Sublist.cons_cons w.cur ?_)
            exact (List.sublist_append_left d₁ j).cons a
          refine Or.inl ⟨next_of_cons hq hnd, hd, fun x hx hne => ?_⟩
          rw [hwalked]
          have hxq := hold x hx
          simp only [List.nil_append, List.mem_append, List.mem_cons] at hxq ⊢
          tauto
      | cons y r =>
          have hnext := next_of_cons hq hnd
          refine Or.inr (.home (u ++ [w.cur]) r d₁ j ?_ ?_ fun x hx => ?_)
          · rw [hcur, hqueue, hnext, hq, List.append_assoc]
            rfl
          · rw [hcur, hwalked, List.append_assoc, List.append_assoc]
          · have hxq := hold x hx
            rw [hcur, hnext, List.append_assoc]
            exact hxq

/-! ### Runs -/

theorem run_append (w : Turn α) (es₁ es₂ : List (Event α)) :
    w.run (es₁ ++ es₂) = (w.run es₁).run es₂ :=
  List.foldl_append

theorem turns_snoc_pass (w : Turn α) (es : List (Event α)) :
    w.turns (es ++ [.pass]) = w.turns es ++ [(w.run es).next] := by
  induction es generalizing w with
  | nil => rfl
  | cons e es ih =>
      cases e with
      | join x => exact ih (w.step (.join x))
      | pass => exact congrArg (w.next :: ·) (ih (w.step .pass))

theorem turns_snoc_join (w : Turn α) (es : List (Event α)) (x : α) :
    w.turns (es ++ [.join x]) = w.turns es := by
  induction es generalizing w with
  | nil => rfl
  | cons e es ih =>
      cases e with
      | join x => exact ih (w.step (.join x))
      | pass => exact congrArg (w.next :: ·) (ih (w.step .pass))

theorem lap_run (hmem : w.cur ∈ w.queue) {es : List (Event α)} (hnd : (w.run es).queue.Nodup)
    (ha : w.cur ∉ w.turns es) : Lap w.cur w.queue (w.run es) (w.turns es) := by
  induction es using List.reverseRecOn with
  | nil => exact lap_start hmem
  | append_singleton es e ih =>
      rw [run_append] at hnd ⊢
      cases e with
      | join x =>
          rw [turns_snoc_join] at ha ⊢
          have hnd' : ((w.run es).queue ++ [x]).Nodup := hnd
          exact (ih (List.nodup_append.mp hnd').1 ha).join x
      | pass =>
          rw [turns_snoc_pass] at ha ⊢
          have hlap := ih hnd fun hc => ha (List.mem_append_left _ hc)
          rcases hlap.pass hnd with ⟨hnext, -⟩ | hlap'
          · rw [hnext] at ha
            exact absurd (List.mem_append_right _ List.mem_cons_self) ha
          · exact hlap'

/-- **Between two turns of a member** every other member has one turn, and whoever joins in
between at most one. -/
theorem served_between (hmem : w.cur ∈ w.queue) {es : List (Event α)}
    (hnd : (w.run es).queue.Nodup) (ha : w.cur ∉ w.turns es) (hback : (w.run es).next = w.cur) :
    Served w.cur w.queue (w.turns es) := by
  rcases (lap_run hmem hnd ha).pass hnd with ⟨-, hserved⟩ | hlap
  · exact hserved
  · exact absurd hback (hlap.cur_ne hnd)

/-- Without newcomers, the turn is `k` positions further after `k` turns. -/
theorem run_position {i : Nat} (hnd : w.queue.Nodup) (hi : w.queue[i]? = some w.cur) (k : Nat) :
    (w.run (List.replicate k .pass)).queue = w.queue ∧
      w.queue[(i + k) % w.queue.length]? = some (w.run (List.replicate k .pass)).cur := by
  induction k with
  | zero =>
      refine ⟨rfl, ?_⟩
      rw [Nat.add_zero, Nat.mod_eq_of_lt (List.getElem?_eq_some_iff.mp hi).1]
      exact hi
  | succ k ih =>
      obtain ⟨hqueue, hcur⟩ := ih
      rw [List.replicate_succ', run_append]
      refine ⟨hqueue, ?_⟩
      rw [← hqueue] at hnd hcur ⊢
      have hnext := next_position hnd hcur
      rw [Nat.mod_add_mod] at hnext
      exact hnext

/-! ### One member left out -/

/-- The first `n` items of a list that is repeated for ever. -/
def cycle : Nat → List α → List α
  | 0, _ => []
  | _ + 1, [] => []
  | n + 1, x :: l => x :: cycle n (l ++ [x])

omit [DecidableEq α] in
theorem length_cycle (n : Nat) : ∀ {l : List α}, l ≠ [] → (cycle n l).length = n := by
  induction n with
  | zero => intro l _; rfl
  | succ n ih =>
      intro l hl
      cases l with
      | nil => exact absurd rfl hl
      | cons x l =>
          rw [cycle, List.length_cons,
            ih (List.append_ne_nil_of_right_ne_nil _ (List.cons_ne_nil _ _))]

omit [DecidableEq α] in
/-- **Leaving members out** of a cycle is the cycle of the others. -/
theorem filter_cycle (p : α → Bool) (n : Nat) : ∀ l : List α,
    (cycle n l).filter p = cycle ((cycle n l).filter p).length (l.filter p) := by
  induction n with
  | zero => intro l; rfl
  | succ n ih =>
      intro l
      cases l with
      | nil => rfl
      | cons x l =>
          have hrest := ih (l ++ [x])
          rw [List.filter_append] at hrest
          rw [cycle]
          by_cases hx : p x = true
          · rw [List.filter_cons_of_pos hx, List.filter_nil] at hrest
            rw [List.filter_cons_of_pos hx, List.filter_cons_of_pos hx, List.length_cons, cycle,
              ← hrest]
          · rw [List.filter_cons_of_neg hx, List.filter_nil, List.append_nil] at hrest
            rw [List.filter_cons_of_neg hx, List.filter_cons_of_neg hx, ← hrest]

/-- The turns of a queue that nobody joins. -/
theorem turns_cycle (n : Nat) : ∀ {w : Turn α} {u v : List α}, w.queue = u ++ w.cur :: v →
    w.queue.Nodup → w.turns (List.replicate n .pass) = cycle n (v ++ u ++ [w.cur]) := by
  induction n with
  | zero => intro w u v _ _; rfl
  | succ n ih =>
      intro w u v hq hnd
      rw [List.replicate_succ]
      show w.next :: (w.step .pass).turns (List.replicate n .pass) = _
      cases v with
      | cons x v =>
          have hnext : w.next = x := next_of_cons hq hnd
          have hq' : (w.step .pass).queue = (u ++ [w.cur]) ++ (w.step .pass).cur :: v := by
            show w.queue = (u ++ [w.cur]) ++ w.next :: v
            rw [hnext, hq, List.append_assoc]
            rfl
          rw [ih hq' hnd]
          show w.next :: cycle n (v ++ (u ++ [w.cur]) ++ [w.next]) = _
          rw [hnext, ← List.append_assoc]
          rfl
      | nil =>
          cases u with
          | nil =>
              have hnext : w.next = w.cur := next_of_last hq hq hnd
              have hq' : (w.step .pass).queue = [] ++ (w.step .pass).cur :: [] := by
                show w.queue = [w.next]
                rw [hnext, hq]
                rfl
              rw [ih hq' hnd]
              show w.next :: cycle n [w.next] = _
              rw [hnext]
              rfl
          | cons x u =>
              have hnext : w.next = x := next_of_last hq hq hnd
              have hq' : (w.step .pass).queue = [] ++ (w.step .pass).cur :: (u ++ [w.cur]) := by
                show w.queue = w.next :: (u ++ [w.cur])
                rw [hnext, hq]
                rfl
              rw [ih hq' hnd]
              show w.next :: cycle n ((u ++ [w.cur]) ++ [] ++ [w.next]) = _
              rw [hnext, List.append_nil]
              rfl

end Turn

end RoundRobin
