/-
Numerals for elements of `Fin n`.

Registers, displacements and the tasks of a small system are numbered, and a numeral of
such a type needs to know that the type is not empty.
-/
import Mathlib.Algebra.GroupWithZero.Nat

namespace AtmegaScheduler

instance neZero_two : NeZero 2 := ⟨Nat.succ_ne_zero 1⟩

instance neZero_three : NeZero 3 := ⟨Nat.succ_ne_zero 2⟩

/-- The registers. -/
instance neZero_thirtyTwo : NeZero 32 := ⟨Nat.succ_ne_zero 31⟩

/-- The displacements. -/
instance neZero_sixtyFour : NeZero 64 := ⟨Nat.succ_ne_zero 63⟩

end AtmegaScheduler
