/-
A circular buffer known by two indices.

The items are in the slots behind `tail`, and the last of them is in the slot `head`.
Equal indices mean an empty buffer, so one slot always stays free: the slot behind
`head` may be written before `head` moves on to it, without touching an item.
-/
import AtmegaScheduler.Lib.Ring

namespace Ring

/-- The slots of a buffer whose size does not change. -/
abbrev Slots (α : Type) (n : Nat) : Type := Vector α n

variable {α : Type} {buf : List α} {start head tail : Nat} {q : List α} {x : α}

/-- The slot behind the last item holds `x`: one item more. -/
theorem Window.extend (h : Window buf start q) (hq : q.length < buf.length)
    (hx : buf[(start + q.length) % buf.length]? = some x) : Window buf start (q ++ [x]) := by
  have hset : buf.set ((start + q.length) % buf.length) x = buf := by
    obtain ⟨hlt, rfl⟩ := List.getElem?_eq_some_iff.mp hx
    exact List.set_getElem_self hlt
  have hsnoc := h.snoc hq x
  rwa [hset] at hsnoc

/-- Writing the slot behind the last item leaves the items alone. -/
theorem Window.keep (h : Window buf start q) (hq : q.length < buf.length) (x : α) :
    Window (buf.set ((start + q.length) % buf.length) x) start q := by
  intro i hi
  have hall := h.snoc hq x i (by rw [List.length_append]; exact Nat.lt_add_right _ hi)
  rwa [List.getElem?_append_left hi] at hall

/-- The items `q` are in the slots behind `tail` up to `head`, and a slot is free. -/
structure Between (buf : List α) (head tail : Nat) (q : List α) : Prop where
  short : q.length < buf.length
  tail_lt : tail < buf.length
  head_eq : head = (tail + q.length) % buf.length
  window : Window buf (tail + 1) q

namespace Between

theorem nil (h : tail < buf.length) : Between buf tail tail ([] : List α) where
  short := Nat.zero_lt_of_lt h
  tail_lt := h
  head_eq := (Nat.mod_eq_of_lt h).symm
  window := window_nil buf _

theorem pos (h : Between buf head tail q) : 0 < buf.length := Nat.zero_lt_of_lt h.tail_lt

/-- The slot behind `head` is the one behind the last item. -/
theorem next_head (h : Between buf head tail q) :
    (head + 1) % buf.length = (tail + 1 + q.length) % buf.length := by
  rw [h.head_eq, Nat.mod_add_mod]
  congr 1
  omega

/-- Equal indices mean that there is nothing in the buffer. -/
theorem empty_iff (h : Between buf head tail q) : head = tail ↔ q = [] := by
  rw [← List.length_eq_zero_iff]
  constructor
  · intro heq
    have hslot : (tail + q.length) % buf.length = (tail + 0) % buf.length := by
      rw [← h.head_eq, heq, Nat.add_zero, Nat.mod_eq_of_lt h.tail_lt]
    exact slot_inj h.short h.pos hslot
  · intro hlen
    rw [h.head_eq, hlen, Nat.add_zero, Nat.mod_eq_of_lt h.tail_lt]

/-- `tail` right behind `head` means that all slots but one are taken. -/
theorem full_iff (h : Between buf head tail q) :
    (head + 1) % buf.length = tail ↔ q.length + 1 = buf.length := by
  have hslot : (head + 1) % buf.length = (tail + (q.length + 1)) % buf.length := by
    rw [h.next_head]
    congr 1
    omega
  constructor
  · intro heq
    by_contra hne
    have hshort := h.short
    have hround : (tail + (q.length + 1)) % buf.length = (tail + 0) % buf.length := by
      rw [← hslot, heq, Nat.add_zero, Nat.mod_eq_of_lt h.tail_lt]
    have hinj : q.length + 1 = 0 := slot_inj (by omega) h.pos hround
    exact absurd hinj (Nat.succ_ne_zero _)
  · intro hlen
    rw [hslot, hlen, Nat.add_mod_right, Nat.mod_eq_of_lt h.tail_lt]

/-- **Writing** the slot behind `head`. -/
theorem store (h : Between buf head tail q) (x : α) :
    Between (buf.set ((head + 1) % buf.length) x) head tail q where
  short := by
    rw [List.length_set]
    exact h.short
  tail_lt := by
    rw [List.length_set]
    exact h.tail_lt
  head_eq := by
    rw [List.length_set]
    exact h.head_eq
  window := by
    rw [h.next_head]
    exact h.window.keep h.short x

/-- **Moving** `head` on to a slot that has been written. -/
theorem push (h : Between buf head tail q) (hroom : q.length + 1 < buf.length)
    (hx : buf[(head + 1) % buf.length]? = some x) :
    Between buf ((head + 1) % buf.length) tail (q ++ [x]) where
  short := by
    rw [List.length_append]
    exact hroom
  tail_lt := h.tail_lt
  head_eq := by
    rw [h.next_head, List.length_append, List.length_singleton]
    congr 1
    omega
  window := h.window.extend h.short (by rw [← h.next_head]; exact hx)

/-- The item to take. -/
theorem front (h : Between buf head tail (x :: q)) :
    buf[(tail + 1) % buf.length]? = some x := h.window.head

/-- **Moving** `tail` on. -/
theorem pop (h : Between buf head tail (x :: q)) :
    Between buf head ((tail + 1) % buf.length) q where
  short := by
    have hshort := h.short
    rw [List.length_cons] at hshort
    omega
  tail_lt := Nat.mod_lt _ h.pos
  head_eq := by
    rw [h.head_eq, List.length_cons, Nat.mod_add_mod]
    congr 1
    omega
  window := by
    have htail := h.window.tail
    intro i hi
    rw [← htail i hi, Nat.add_assoc _ 1 i, Nat.mod_add_mod, Nat.mod_add_mod,
      Nat.add_assoc (tail + 1) 1 i]

/-- How many items there are, from the two indices. -/
theorem count (h : Between buf head tail q) :
    (head + (buf.length - tail)) % buf.length = q.length := by
  have htail := h.tail_lt
  rw [h.head_eq, Nat.mod_add_mod,
    show tail + q.length + (buf.length - tail) = q.length + buf.length by omega,
    Nat.add_mod_right, Nat.mod_eq_of_lt h.short]

/-- Any two indices have something between them. -/
theorem exists_of_lt (hhead : head < buf.length) (htail : tail < buf.length) :
    ∃ q : List α, Between buf head tail q := by
  have hpos : 0 < buf.length := Nat.zero_lt_of_lt hhead
  refine ⟨(List.range ((head + (buf.length - tail)) % buf.length)).map fun i =>
    buf.get ⟨(tail + 1 + i) % buf.length, Nat.mod_lt _ hpos⟩, ?_, htail, ?_, ?_⟩
  · rw [List.length_map, List.length_range]
    exact Nat.mod_lt _ hpos
  · rw [List.length_map, List.length_range, Nat.add_mod_mod,
      show tail + (head + (buf.length - tail)) = head + buf.length by omega, Nat.add_mod_right,
      Nat.mod_eq_of_lt hhead]
  · intro i hi
    rw [List.length_map, List.length_range] at hi
    rw [List.getElem?_map, List.getElem?_range hi, Option.map_some]
    exact List.getElem?_eq_getElem (Nat.mod_lt _ hpos)

/-- The last item is in the slot `head`. -/
theorem last (h : Between buf head tail (q ++ [x])) : buf[head]? = some x := by
  have hlast := h.window q.length (by rw [List.length_append]; exact Nat.lt_succ_self _)
  rw [List.getElem?_concat_length] at hlast
  rw [← hlast, h.head_eq, List.length_append, List.length_singleton]
  congr 2
  omega

/-- What lies between two indices is settled by the buffer. -/
theorem unique (h : Between buf head tail q) {q' : List α} (h' : Between buf head tail q') :
    q' = q := by
  have hlen : q'.length = q.length := h'.count.symm.trans h.count
  refine List.ext_getElem? fun i => ?_
  by_cases hi : i < q.length
  · exact (h'.window i (hlen ▸ hi)).symm.trans (h.window i hi)
  · rw [List.getElem?_eq_none (by omega), List.getElem?_eq_none (by omega)]

end Between

end Ring
