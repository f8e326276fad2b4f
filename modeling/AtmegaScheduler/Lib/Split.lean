/-
A list without repetitions, split at one of its elements.

The element is neither before nor behind itself.  So its index is the length of what is
before it, erasing it joins the two parts, and it is the last element only if nothing is
behind it.
-/
import Mathlib.Data.List.Basic
import Mathlib.Data.List.Nodup

namespace Split

variable {α : Type*} {u v : List α} {t : α}

theorem notMem_append (hnd : (u ++ t :: v).Nodup) : t ∉ u ++ v :=
  (List.nodup_cons.mp (List.nodup_middle.mp hnd)).1

theorem notMem_before (hnd : (u ++ t :: v).Nodup) : t ∉ u :=
  fun hc => notMem_append hnd (List.mem_append_left v hc)

theorem notMem_behind (hnd : (u ++ t :: v).Nodup) : t ∉ v :=
  fun hc => notMem_append hnd (List.mem_append_right u hc)

theorem getLast?_eq_iff (hnd : (u ++ t :: v).Nodup) :
    (u ++ t :: v).getLast? = some t ↔ v = [] := by
  constructor
  · intro h
    cases v with
    | nil => rfl
    | cons y rest =>
        rw [List.getLast?_append_of_ne_nil _ (List.cons_ne_nil _ _), List.getLast?_cons_cons] at h
        exact absurd (List.mem_of_getLast? h) (notMem_behind hnd)
  · intro h
    rw [h, List.getLast?_append_of_ne_nil _ (List.cons_ne_nil _ _)]
    rfl

variable [DecidableEq α]

theorem erase_eq (hnd : (u ++ t :: v).Nodup) : (u ++ t :: v).erase t = u ++ v := by
  rw [List.erase_append_right _ (notMem_before hnd), List.erase_cons_head]

theorem idxOf_eq (hnd : (u ++ t :: v).Nodup) : (u ++ t :: v).idxOf t = u.length := by
  rw [List.idxOf_append_of_notMem (notMem_before hnd), List.idxOf_cons_self, Nat.add_zero]

end Split
