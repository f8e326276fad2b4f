/-
Items in a circular buffer.

`Window buf start q` says that the slots of `buf` from `start` on, wrapping around at
the end, hold the items `q`.  Writing the slot behind the last item appends one, and
moving `start` on drops one, as long as the items never outnumber the slots.
-/
import Mathlib.Data.List.Basic
import Mathlib.Data.Nat.ModEq

namespace Ring

variable {α : Type} {buf : List α} {start : Nat} {q : List α} {x : α}

/-- The items `q` lie in `buf` from slot `start` on. -/
def Window (buf : List α) (start : Nat) (q : List α) : Prop :=
  ∀ i, i < q.length → buf[(start + i) % buf.length]? = q[i]?

theorem window_nil (buf : List α) (start : Nat) : Window buf start [] := by
  intro i hi
  exact absurd hi (Nat.not_lt_zero i)

/-- Different items lie in different slots. -/
theorem slot_inj {n i j : Nat} (hi : i < n) (hj : j < n)
    (h : (start + i) % n = (start + j) % n) : i = j := by
  have hmod : i % n = j % n := Nat.ModEq.add_left_cancel' start h
  rwa [Nat.mod_eq_of_lt hi, Nat.mod_eq_of_lt hj] at hmod

/-- The first item is in the slot the window starts at. -/
theorem Window.head (h : Window buf start (x :: q)) : buf[start % buf.length]? = some x :=
  h 0 (Nat.succ_pos _)

/-- Dropping the first item. -/
theorem Window.tail (h : Window buf start (x :: q)) :
    Window buf ((start + 1) % buf.length) q := by
  intro i hi
  have hnext := h (i + 1) (Nat.succ_lt_succ hi)
  rw [List.getElem?_cons_succ] at hnext
  rw [← hnext, Nat.mod_add_mod, show start + 1 + i = start + (i + 1) by omega]

/-- Writing the slot behind the last item. -/
theorem Window.snoc (h : Window buf start q) (hq : q.length < buf.length) (x : α) :
    Window (buf.set ((start + q.length) % buf.length) x) start (q ++ [x]) := by
  intro i hi
  rw [List.length_append, List.length_singleton] at hi
  rw [List.length_set]
  have hslot : (start + q.length) % buf.length < buf.length := Nat.mod_lt _ (by omega)
  by_cases hlast : i = q.length
  · rw [hlast, List.getElem?_set_self hslot, List.getElem?_append_right (Nat.le_refl _),
      Nat.sub_self]
    rfl
  · have hlt : i < q.length := by omega
    have hne : (start + q.length) % buf.length ≠ (start + i) % buf.length := by
      intro hc
      exact hlast (slot_inj hq (by omega) hc).symm
    rw [List.getElem?_set_ne hne, List.getElem?_append_left hlt]
    exact h i hlt

/-- The slots a window covers, read one after another. -/
theorem Window.read (h : Window buf start q) :
    (List.range q.length).filterMap (fun i => buf[(start + i) % buf.length]?) = q := by
  have hq : (List.range q.length).filterMap (fun i => buf[(start + i) % buf.length]?) =
      (List.range q.length).filterMap (fun i => q[i]?) := by
    apply List.filterMap_congr
    intro i hi
    exact h i (List.mem_range.mp hi)
  rw [hq]
  clear hq h
  induction q with
  | nil => rfl
  | cons y rest ih =>
      rw [List.length_cons, List.range_succ_eq_map, List.filterMap_cons, List.filterMap_map]
      exact congrArg (y :: ·) ih

end Ring
