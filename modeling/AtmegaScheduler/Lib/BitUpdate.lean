/-
Updates of single bits of a word.

An update keeps some bits, clears the others and then sets some.  After any number of
updates every bit is what the last one that wrote it has made of it.
-/
import Mathlib.Data.List.Basic

/-- Keep these bits, and set those. -/
structure BitUpdate (w : Nat) where
  keep : BitVec w
  set : BitVec w
  deriving DecidableEq, Repr

namespace BitUpdate

variable {w : Nat}

/-- `v = (v & keep) | set` -/
def apply (u : BitUpdate w) (v : BitVec w) : BitVec w := (v &&& u.keep) ||| u.set

/-- `v |= bits` -/
def orBits (bits : BitVec w) : BitUpdate w := ⟨BitVec.allOnes w, bits⟩

/-- `v &= ~bits` -/
def clearBits (bits : BitVec w) : BitUpdate w := ⟨~~~bits, 0⟩

/-- The update does not keep the bit as it is. -/
def Writes (i : Nat) (u : BitUpdate w) : Prop := u.keep.getLsbD i = false ∨ u.set.getLsbD i = true

instance (i : Nat) (u : BitUpdate w) : Decidable (u.Writes i) :=
  inferInstanceAs (Decidable (_ ∨ _))

/-- One update after another. -/
def applyAll (us : List (BitUpdate w)) (v : BitVec w) : BitVec w :=
  us.foldl (fun v u => u.apply v) v

/-- What the last update that writes bit `i` makes of it, or what it was. -/
def lastWritten (i : Nat) (us : List (BitUpdate w)) (before : Bool) : Bool :=
  us.foldl (fun b u => if u.Writes i then u.set.getLsbD i else b) before

variable {u : BitUpdate w} {us us' : List (BitUpdate w)} {v : BitVec w} {i : Nat} {b : Bool}

theorem getLsbD_apply (u : BitUpdate w) (v : BitVec w) (i : Nat) :
    (u.apply v).getLsbD i = if u.Writes i then u.set.getLsbD i else v.getLsbD i := by
  unfold apply
  rw [BitVec.getLsbD_or, BitVec.getLsbD_and]
  by_cases hw : u.Writes i
  · rw [if_pos hw]
    rcases hw with hkeep | hset
    · rw [hkeep, Bool.and_false, Bool.false_or]
    · rw [hset, Bool.or_true]
  · obtain ⟨hkeep, hset⟩ := not_or.mp hw
    rw [if_neg hw, Bool.not_eq_false _ |>.mp hkeep, Bool.and_true, Bool.not_eq_true _ |>.mp hset,
      Bool.or_false]

theorem apply_orBits (bits v : BitVec w) : (orBits bits).apply v = v ||| bits := by
  unfold apply orBits
  rw [BitVec.and_allOnes]

theorem apply_clearBits (bits v : BitVec w) : (clearBits bits).apply v = v &&& ~~~bits :=
  BitVec.or_zero

theorem applyAll_append (us us' : List (BitUpdate w)) (v : BitVec w) :
    applyAll (us ++ us') v = applyAll us' (applyAll us v) := List.foldl_append

/-- **Every bit** is what the last update that writes it has made of it. -/
theorem getLsbD_applyAll (us : List (BitUpdate w)) (v : BitVec w) (i : Nat) :
    (applyAll us v).getLsbD i = lastWritten i us (v.getLsbD i) := by
  induction us generalizing v with
  | nil => rfl
  | cons u us ih =>
      show (applyAll us (u.apply v)).getLsbD i = lastWritten i us _
      rw [ih, getLsbD_apply]

end BitUpdate
