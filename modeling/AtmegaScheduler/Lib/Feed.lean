/-
A reader that takes items from a stream until it is done.

What it makes of a stream depends only on the items up to the point where it is done, and
items that it passes over may be put in or left out anywhere.
-/
import Mathlib.Data.List.Basic

namespace Feed

variable {ρ β : Type} {next : ρ → β → ρ} {done : ρ → Bool} {r : ρ} {b : β} {bs bs' : List β}

/-- The reader after it has taken what it wants, and what is left. -/
def feed (next : ρ → β → ρ) (done : ρ → Bool) (r : ρ) : List β → ρ × List β
  | [] => (r, [])
  | b :: bs => if done r then (r, b :: bs) else feed next done (next r b) bs

theorem feed_done (hr : done r = true) (bs : List β) : feed next done r bs = (r, bs) := by
  cases bs with
  | nil => rfl
  | cons b bs => rw [feed, if_pos hr]

theorem feed_cons (hr : done r = false) :
    feed next done r (b :: bs) = feed next done (next r b) bs := by
  rw [feed, if_neg (by rw [hr]; exact Bool.false_ne_true)]

/-- What is left of a longer stream. -/
theorem feed_append (hr : done (feed next done r bs).1 = true) (bs' : List β) :
    feed next done r (bs ++ bs') = ((feed next done r bs).1, (feed next done r bs).2 ++ bs') := by
  induction bs generalizing r with
  | nil => exact feed_done hr bs'
  | cons b bs ih =>
      by_cases hdone : done r = true
      · rw [feed_done hdone, feed_done hdone]
      · have hopen : done r = false := Bool.not_eq_true _ ▸ hdone
        rw [feed_cons hopen] at hr
        rw [List.cons_append, feed_cons hopen, feed_cons hopen]
        exact ih hr

/-- What every item keeps true of the reader is true of it in the end. -/
theorem feed_keeps {P : ρ → Prop} (hnext : ∀ r b, done r = false → P r → P (next r b)) (hr : P r)
    (bs : List β) : P (feed next done r bs).1 := by
  induction bs generalizing r with
  | nil => exact hr
  | cons b bs ih =>
      by_cases hdone : done r = true
      · rw [feed_done hdone]
        exact hr
      · have hopen : done r = false := Bool.not_eq_true _ ▸ hdone
        rw [feed_cons hopen]
        exact ih (hnext r b hopen hr)

/-- Items that the reader passes over make no difference. -/
theorem feed_filter {keep : β → Bool}
    (hskip : ∀ r b, done r = false → keep b = false → next r b = r) (r : ρ) (bs : List β) :
    feed next done r (bs.filter keep) =
      ((feed next done r bs).1, (feed next done r bs).2.filter keep) := by
  induction bs generalizing r with
  | nil => rfl
  | cons b bs ih =>
      by_cases hdone : done r = true
      · rw [feed_done hdone, feed_done hdone]
      · have hopen : done r = false := Bool.not_eq_true _ ▸ hdone
        by_cases hb : keep b = true
        · rw [List.filter_cons_of_pos hb, feed_cons hopen, feed_cons hopen]
          exact ih (next r b)
        · rw [List.filter_cons_of_neg hb, feed_cons hopen,
            hskip r b hopen (Bool.not_eq_true _ ▸ hb)]
          exact ih r

/-- One reader after another, each from the beginning. -/
def feeds (next : ρ → β → ρ) (done : ρ → Bool) (r : ρ) : Nat → List β → List ρ × List β
  | 0, bs => ([], bs)
  | n + 1, bs =>
      ((feed next done r bs).1 :: (feeds next done r n (feed next done r bs).2).1,
        (feeds next done r n (feed next done r bs).2).2)

/-- Nor do they for one reader after another. -/
theorem feeds_filter {keep : β → Bool}
    (hskip : ∀ r b, done r = false → keep b = false → next r b = r) (r : ρ) (n : Nat)
    (bs : List β) : feeds next done r n (bs.filter keep) =
      ((feeds next done r n bs).1, (feeds next done r n bs).2.filter keep) := by
  induction n generalizing bs with
  | zero => rfl
  | succ n ih =>
      rw [feeds, feed_filter hskip, ih]
      rfl

theorem feeds_add (m n : Nat) (bs : List β) : feeds next done r (m + n) bs =
    ((feeds next done r m bs).1 ++ (feeds next done r n (feeds next done r m bs).2).1,
      (feeds next done r n (feeds next done r m bs).2).2) := by
  induction m generalizing bs with
  | zero =>
      rw [Nat.zero_add]
      rfl
  | succ m ih =>
      rw [Nat.succ_add, feeds, ih]
      rfl

theorem feeds_append {n : Nat} (hall : ∀ r' ∈ (feeds next done r n bs).1, done r' = true)
    (bs' : List β) : feeds next done r n (bs ++ bs') =
      ((feeds next done r n bs).1, (feeds next done r n bs).2 ++ bs') := by
  induction n generalizing bs with
  | zero => rfl
  | succ n ih =>
      have hfirst := hall _ (List.mem_cons_self ..)
      have hrest := ih fun r' hr' => hall r' (List.mem_cons_of_mem _ hr')
      rw [feeds, feed_append hfirst, hrest]
      rfl

/-- **A stream that goes on** shows no more than what is still to come: readers that are
done with a part of it are the first of those that read all of it. -/
theorem feeds_prefix {m n : Nat} (hopen : done r = false)
    (hall : ∀ r' ∈ (feeds next done r n bs).1, done r' = true)
    (hend : (feeds next done r m (bs ++ bs')).2 = []) :
    (feeds next done r n bs).1 <+: (feeds next done r m (bs ++ bs')).1 := by
  have happend := feeds_append hall bs'
  have hle : n ≤ m := by
    by_contra hlt
    obtain ⟨k, rfl⟩ : ∃ k, n = m + (k + 1) := ⟨n - m - 1, by omega⟩
    rw [feeds_add, hend] at happend
    have hlast : r ∈ (feeds next done r (m + (k + 1)) bs).1 := by
      rw [← congrArg Prod.fst happend]
      exact List.mem_append_right _ (List.mem_cons_self ..)
    rw [hall r hlast] at hopen
    exact Bool.false_ne_true hopen.symm
  obtain ⟨k, rfl⟩ := Nat.exists_eq_add_of_le hle
  rw [feeds_add, happend]
  exact List.prefix_append _ _

end Feed
