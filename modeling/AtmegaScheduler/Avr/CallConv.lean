/-
Where a function finds its arguments.

Arguments go from left to right into r25 down to r8.  Each takes an even number of
registers and starts in an even one.  The first argument for which too few registers
are left goes on the stack, and so do all after it; there they lie one after another,
the leftmost lowest, right above the return address.
-/
import Mathlib.Data.List.Forall2

namespace AtmegaScheduler.Avr

/-- Where a function finds the lowest byte of an argument on its first instruction. -/
inductive Loc
  | reg (rn : Nat)
  /-- At this distance from `SP + 3`. -/
  | stack (offset : Nat)
  deriving DecidableEq, Repr

/-- A size rounded up to even. -/
def roundUp (size : Nat) : Nat := size + size % 2

/-- Arguments on the stack. -/
def stackLocs : Nat → List Nat → List Loc
  | _, [] => []
  | offset, size :: sizes => .stack offset :: stackLocs (offset + size) sizes

/-- Arguments of the given sizes, when `rn` is the lowest register in use. -/
def argLocs : Nat → List Nat → List Loc
  | _, [] => []
  | rn, size :: sizes =>
      if roundUp size + 8 ≤ rn then
        .reg (rn - roundUp size) :: argLocs (rn - roundUp size) sizes
      else stackLocs 0 (size :: sizes)

theorem argLocs_reg {rn size : Nat} (h : roundUp size + 8 ≤ rn) (sizes : List Nat) :
    argLocs rn (size :: sizes) = .reg (rn - roundUp size) :: argLocs (rn - roundUp size) sizes :=
  if_pos h

theorem argLocs_stack {rn size : Nat} (h : ¬ roundUp size + 8 ≤ rn) (sizes : List Nat) :
    argLocs rn (size :: sizes) = stackLocs 0 (size :: sizes) :=
  if_neg h

/-- The argument that brings the total of the rounded sizes over a limit: the total
with it, and the sizes from it on. -/
def spill (limit : Nat) : Nat → List Nat → Option (Nat × List Nat)
  | _, [] => none
  | used, size :: sizes =>
      if used + roundUp size ≤ limit then spill limit (used + roundUp size) sizes
      else some (used + roundUp size, size :: sizes)

theorem spill_le {limit used size : Nat} (h : used + roundUp size ≤ limit) (sizes : List Nat) :
    spill limit used (size :: sizes) = spill limit (used + roundUp size) sizes :=
  if_pos h

theorem spill_gt {limit used size : Nat} (h : ¬ used + roundUp size ≤ limit) (sizes : List Nat) :
    spill limit used (size :: sizes) = some (used + roundUp size, size :: sizes) :=
  if_neg h

theorem roundUp_even (size : Nat) : roundUp size % 2 = 0 := by
  unfold roundUp
  omega

/-- What spills is the end of the list. -/
theorem spill_suffix {limit : Nat} {sizes : List Nat} :
    ∀ {used total : Nat} {rest : List Nat}, spill limit used sizes = some (total, rest) →
      rest <:+ sizes := by
  induction sizes with
  | nil =>
      intro used total rest h
      exact absurd h (by simp [spill])
  | cons size sizes ih =>
      intro used total rest h
      by_cases hle : used + roundUp size ≤ limit
      · rw [spill_le hle] at h
        exact (ih h).trans (List.suffix_cons size sizes)
      · rw [spill_gt hle] at h
        obtain ⟨-, rfl⟩ := Prod.mk.inj (Option.some.inj h)
        exact List.suffix_refl _

/-- Sizes are even, so a limit of 16 is one of 18 unless the total is just that. -/
theorem spill_of_ne {sizes : List Nat} :
    ∀ {used : Nat}, used % 2 = 0 →
      (∀ total rest, spill 16 used sizes = some (total, rest) → total ≠ 18) →
      spill 18 used sizes = spill 16 used sizes := by
  induction sizes with
  | nil => intro used _ _; rfl
  | cons size sizes ih =>
      intro used heven hne
      have hround := roundUp_even size
      by_cases hle : used + roundUp size ≤ 16
      · rw [spill_le hle] at hne ⊢
        rw [spill_le (by omega)]
        exact ih (by omega) hne
      · rw [spill_gt hle] at hne ⊢
        have h18 := hne _ _ rfl
        rw [spill_gt (by omega)]

/-- The sizes that spill over the 18 registers are those on the stack. -/
theorem argLocs_spill {sizes : List Nat} :
    ∀ {used total : Nat} {rest : List Nat}, used ≤ 18 →
      spill 18 used sizes = some (total, rest) →
      ∃ pre locs, sizes = pre ++ rest ∧ locs.length = pre.length ∧
        argLocs (26 - used) sizes = locs ++ stackLocs 0 rest := by
  induction sizes with
  | nil =>
      intro used total rest _ h
      exact absurd h (by simp [spill])
  | cons size sizes ih =>
      intro used total rest hused h
      by_cases hle : used + roundUp size ≤ 18
      · rw [spill_le hle] at h
        obtain ⟨pre, locs, rfl, hlen, hlocs⟩ := ih hle h
        refine ⟨size :: pre, .reg (26 - used - roundUp size) :: locs, rfl, ?_, ?_⟩
        · rw [List.length_cons, List.length_cons, hlen]
        · rw [argLocs_reg (by omega), Nat.sub_sub, hlocs]
          rfl
      · rw [spill_gt hle] at h
        rw [← (Prod.mk.inj (Option.some.inj h)).2]
        exact ⟨[], [], rfl, rfl, argLocs_stack (by omega) sizes⟩

end AtmegaScheduler.Avr
