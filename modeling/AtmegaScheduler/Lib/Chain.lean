/-
Singly linked chains.

A heap of nodes with one link each is a function `next : ν → Option ν`, with
`none` for the null pointer.  `Seg next a l b` says that following the links from
the pointer `a` visits exactly the nodes of `l`, in order, and then holds the
pointer `b`; a chain is a segment that ends in null.

Two facts carry everything else.

  * A pointer determines its chain.  So a chain never visits a node twice: the
    rest of the list after two visits of one node would be two different chains
    from the same pointer.
  * A segment depends only on the links of its own nodes.  So a write to any
    other node leaves it alone, and inserting or unlinking a node is a matter of
    splitting the list at that node.
-/
import AtmegaScheduler.Lib.Split
import Mathlib.Logic.Function.Basic

namespace AtmegaScheduler

variable {ν : Type*}

/-- Following `next` from `a` visits exactly `l` and then holds `b`. -/
def Seg (next : ν → Option ν) : Option ν → List ν → Option ν → Prop
  | a, [], b => a = b
  | a, x :: l, b => a = some x ∧ Seg next (next x) l b

/-- A nil-terminated segment. -/
abbrev Chain (next : ν → Option ν) (a : Option ν) (l : List ν) : Prop := Seg next a l none

variable {next next' : ν → Option ν} {a b : Option ν} {l l₁ l₂ : List ν} {x y p : ν}

@[simp] theorem seg_nil : Seg next a [] b ↔ a = b := Iff.rfl

@[simp] theorem seg_cons : Seg next a (x :: l) b ↔ a = some x ∧ Seg next (next x) l b := Iff.rfl

theorem seg_append : Seg next a (l₁ ++ l₂) b ↔ ∃ c, Seg next a l₁ c ∧ Seg next c l₂ b := by
  induction l₁ generalizing a with
  | nil => simp
  | cons x rest ih => simp only [List.cons_append, seg_cons, ih, and_assoc, exists_and_left]

/-- A segment reads no link but those of its own nodes. -/
theorem Seg.congr (h : Seg next a l b) (hnext : ∀ x ∈ l, next' x = next x) :
    Seg next' a l b := by
  induction l generalizing a with
  | nil => exact h
  | cons x rest ih =>
      refine ⟨h.1, ?_⟩
      rw [hnext x (by simp)]
      exact ih h.2 (fun y hy => hnext y (by simp [hy]))

theorem Seg.update [DecidableEq ν] {v : Option ν} (h : Seg next a l b) (hx : x ∉ l) :
    Seg (Function.update next x v) a l b := by
  refine h.congr fun y hy => ?_
  have hyx : y ≠ x := by
    rintro rfl
    exact hx hy
  exact Function.update_of_ne hyx v next

namespace Chain

theorem head_eq (h : Chain next a l) : a = l.head? := by
  cases l with
  | nil => exact h
  | cons x rest => exact h.1

/-- **A pointer determines its chain.** -/
theorem unique (h₁ : Chain next a l₁) (h₂ : Chain next a l₂) : l₁ = l₂ := by
  induction l₁ generalizing a l₂ with
  | nil =>
      cases l₂ with
      | nil => rfl
      | cons y rest =>
          have hnone : a = none := h₁
          rw [h₂.1] at hnone
          exact absurd hnone (by simp)
  | cons x rest ih =>
      cases l₂ with
      | nil =>
          have hnone : a = none := h₂
          rw [h₁.1] at hnone
          exact absurd hnone (by simp)
      | cons y rest' =>
          have hxy : x = y := Option.some.inj (h₁.1.symm.trans h₂.1)
          subst hxy
          rw [ih h₁.2 h₂.2]

/-- Every node of a chain starts the chain of what follows it. -/
theorem drop (h : Chain next a (l₁ ++ x :: l₂)) : Chain next (next x) l₂ := by
  obtain ⟨c, -, hc⟩ := seg_append.mp h
  exact hc.2

/-- The link of a node of a chain is the node that follows it. -/
theorem link (h : Chain next a (l₁ ++ x :: l₂)) : next x = l₂.head? :=
  h.drop.head_eq

/-- **A chain never visits a node twice.** -/
theorem nodup (h : Chain next a l) : l.Nodup := by
  induction l generalizing a with
  | nil => exact List.nodup_nil
  | cons x rest ih =>
      refine List.nodup_cons.mpr ⟨?_, ih h.2⟩
      intro hmem
      obtain ⟨s, t, hst⟩ := List.append_of_mem hmem
      -- Both `rest` and the shorter `t` would be the chain from `next x`.
      have hrest : Chain next (next x) rest := h.2
      have ht : Chain next (next x) t := by
        rw [hst] at hrest
        exact hrest.drop
      have hlen := congrArg List.length (unique hrest ht)
      rw [hst] at hlen
      simp at hlen
      omega

/-- No node of a chain links to itself. -/
theorem ne_self (h : Chain next (some x) l) : next x ≠ some x := by
  intro hself
  cases l with
  | nil => exact absurd (seg_nil.mp h) (by simp)
  | cons y rest =>
      have hyx : y = x := (Option.some.inj h.1).symm
      have hrest : Chain next (some x) rest := by
        rw [← hself, ← hyx]
        exact h.2
      have hlen := congrArg List.length (unique hrest h)
      rw [List.length_cons] at hlen
      omega

/-- What follows a segment of a chain. -/
theorem rest (h : Chain next a l) (h₁ : Seg next a l₁ b) : ∃ l₂, Chain next b l₂ := by
  induction l₁ generalizing a l with
  | nil =>
      rw [seg_nil.mp h₁] at h
      exact ⟨l, h⟩
  | cons y l₁ ih =>
      cases l with
      | nil => exact absurd (h₁.1.symm.trans h) (by simp)
      | cons z l =>
          have hyz : y = z := Option.some.inj (h₁.1.symm.trans h.1)
          rw [← hyz] at h
          exact ih h.2 h₁.2

/-- Linking a fresh node behind the last one appends it. -/
theorem snoc [DecidableEq ν] (h : Chain next a (l ++ [y])) (hx : x ∉ l ++ [y])
    (hend : next x = none) :
    Chain (Function.update next y (some x)) a (l ++ [y] ++ [x]) := by
  have hnd := h.nodup
  obtain ⟨c, hl, hc⟩ := seg_append.mp h
  have hyl : y ∉ l := Split.notMem_before hnd
  have hxy : x ≠ y := by
    rintro rfl
    exact hx (by simp)
  rw [List.append_assoc]
  refine seg_append.mpr ⟨c, hl.update hyl, hc.1, ?_, ?_⟩
  · simp
  · simp [Function.update_of_ne hxy, hend]

/-- Pointing a node past its successor unlinks the successor. -/
theorem unlink [DecidableEq ν] (h : Chain next a (l₁ ++ p :: x :: l₂)) :
    Chain (Function.update next p (next x)) a (l₁ ++ p :: l₂) := by
  have hnd := h.nodup
  have hp₁ : p ∉ l₁ := Split.notMem_before hnd
  have hp₂ : p ∉ l₂ := fun hp => Split.notMem_behind hnd (List.mem_cons_of_mem x hp)
  obtain ⟨c, hl, hc⟩ := seg_append.mp h
  refine seg_append.mpr ⟨c, hl.update hp₁, hc.1, ?_⟩
  have hx : Chain next (next x) l₂ := hc.2.2
  rw [Function.update_self]
  exact hx.update hp₂

end Chain

end AtmegaScheduler
