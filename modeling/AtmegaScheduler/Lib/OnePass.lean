/-
Searching for a pattern in one pass.

A search that never looks back compares the text with the pattern from one start on, and
at the first mismatch starts again, at the very place of the mismatch.  What it takes for
the first symbol there is not compared with anything.

The starts are the places reached from the beginning of the window by going from one start
to its first mismatch, as often as there is one.  From each start there is at most one such
step, so the starts lie in a row, and only the last of them can be followed by the rest of
the pattern.

An occurrence of the pattern is met unless the search runs over it as part of an earlier
partial match.  That takes a pattern whose first symbol comes again.
-/
import Mathlib.Logic.Relation
import Mathlib.Data.Nat.Find

namespace AtmegaScheduler

/-- A text, a pattern of `len` symbols, and the window from `lo` up to `hi`. -/
structure Search (α : Type*) where
  text : Nat → α
  pat : Nat → α
  len : Nat
  lo : Nat
  hi : Nat

namespace Search

variable {α : Type*} (S : Search α)

/-- The pattern is in the window, at `p`. -/
def OccursAt (p : Nat) : Prop :=
  S.lo ≤ p ∧ p + S.len ≤ S.hi ∧ ∀ k, k < S.len → S.text (p + k) = S.pat k

/-- The pattern without its first symbol is in the window, behind `r`. -/
def FollowsAt (r : Nat) : Prop :=
  r + S.len ≤ S.hi ∧ ∀ k, 1 ≤ k → k < S.len → S.text (r + k) = S.pat k

/-- Behind `r`, the pattern goes on as far as `p`. -/
def MatchesTo (r p : Nat) : Prop :=
  ∀ k, 1 ≤ k → k < S.len → r + k ≤ p → S.text (r + k) = S.pat k

/-- The pattern is in the window at `p`, and not behind. -/
def LastAt (p : Nat) : Prop := S.OccursAt p ∧ ∀ p', p < p' → ¬ S.OccursAt p'

/-- Behind `r`, the first symbol that is not that of the pattern is at `r'`. -/
def Mismatch (r r' : Nat) : Prop :=
  ∃ j, r' = r + j ∧ 1 ≤ j ∧ j < S.len ∧ r' < S.hi ∧ S.text (r + j) ≠ S.pat j ∧
    ∀ k, 1 ≤ k → k < j → S.text (r + k) = S.pat k

/-- A place where the search starts. -/
def Start (r : Nat) : Prop := Relation.ReflTransGen S.Mismatch S.lo r

/-- The last start: no mismatch behind it is in the window. -/
def LastStart (r : Nat) : Prop := S.Start r ∧ ∀ r', ¬ S.Mismatch r r'

variable {S} {p r r' : Nat}

theorem OccursAt.follows (h : S.OccursAt p) : S.FollowsAt p :=
  ⟨h.2.1, fun k _ hk => h.2.2 k hk⟩

/-- The first mismatch is unique. -/
theorem Mismatch.unique : Relator.RightUnique S.Mismatch := by
  intro r r₁ r₂ h₁ h₂
  obtain ⟨j₁, rfl, hpos₁, -, -, hne₁, hbefore₁⟩ := h₁
  obtain ⟨j₂, rfl, hpos₂, -, -, hne₂, hbefore₂⟩ := h₂
  rcases Nat.lt_trichotomy j₁ j₂ with hlt | heq | hgt
  · exact absurd (hbefore₂ j₁ hpos₁ hlt) hne₁
  · rw [heq]
  · exact absurd (hbefore₁ j₂ hpos₂ hgt) hne₂

/-- There is none in front of the end of the pattern. -/
theorem FollowsAt.not_mismatch (h : S.FollowsAt r) : ¬ S.Mismatch r r' := by
  intro ⟨j, _, hpos, hlt, _, hne, _⟩
  exact hne (h.2 j hpos hlt)

/-- The starts move forward. -/
theorem Start.le (h : S.Start r) : S.lo ≤ r := by
  induction h with
  | refl => exact Nat.le_refl _
  | tail _ hm ih =>
      obtain ⟨j, rfl, -⟩ := hm
      exact Nat.le_add_right_of_le ih

/-- **The last start is unique.** -/
theorem LastStart.unique (h : S.LastStart r) (h' : S.LastStart r') : r = r' := by
  rcases Relation.ReflTransGen.total_of_right_unique Mismatch.unique h.1 h'.1 with hto | hto
  · rcases Relation.ReflTransGen.cases_head hto with heq | ⟨x, hx, -⟩
    · exact heq
    · exact absurd hx (h.2 x)
  · rcases Relation.ReflTransGen.cases_head hto with heq | ⟨x, hx, -⟩
    · exact heq.symm
    · exact absurd hx (h'.2 x)

/-- A start that the rest of the pattern follows is the last one. -/
theorem Start.last (h : S.Start r) (hf : S.FollowsAt r) : S.LastStart r :=
  ⟨h, fun _ => hf.not_mismatch⟩

/-- A start that the window ends behind, in the middle of a match, is the last one, and the
rest of the pattern does not follow it. -/
theorem Start.last_of_end {c : Nat} (h : S.Start r) (hend : r + c = S.hi) (hc : c < S.len)
    (hmatch : ∀ k, 1 ≤ k → k < c → S.text (r + k) = S.pat k) :
    S.LastStart r ∧ ¬ S.FollowsAt r := by
  refine ⟨⟨h, fun r' hm => ?_⟩, fun hf => ?_⟩
  · obtain ⟨j, rfl, hpos, _, hhi, hne, _⟩ := hm
    exact hne (hmatch j hpos (by omega))
  · have hfit : r + S.len ≤ S.hi := hf.1
    omega

theorem FollowsAt.matchesTo (h : S.FollowsAt r) : S.MatchesTo r p :=
  fun k hpos hlen _ => h.2 k hpos hlen

/-- A match that has gone on for the whole pattern. -/
theorem MatchesTo.follows (h : S.MatchesTo r p) (hlen : r + S.len ≤ p) (hp : p < S.hi) :
    S.FollowsAt r :=
  ⟨by omega, fun k hpos hlt => h k hpos hlt (by omega)⟩

/-- A search that matches as far as `p` starts again behind it. -/
theorem MatchesTo.lt_mismatch (h : S.MatchesTo r p) (hm : S.Mismatch r r') : p < r' := by
  obtain ⟨j, rfl, hpos, hlen, -, hne, -⟩ := hm
  by_contra hle
  exact hne (h j hpos hlen (by omega))

/-- From a start in front of `p`, the search matches as far as `p`, or starts again, at `p`
at the latest. -/
theorem matchesTo_or_mismatch (r p : Nat) (hp : p < S.hi) :
    S.MatchesTo r p ∨ ∃ r', S.Mismatch r r' ∧ r < r' ∧ r' ≤ p := by
  by_cases hex : ∃ k, (1 ≤ k ∧ k < S.len ∧ r + k ≤ p) ∧ S.text (r + k) ≠ S.pat k
  · right
    classical
    obtain ⟨⟨hpos, hlen, hle⟩, hne⟩ := Nat.find_spec hex
    refine ⟨r + Nat.find hex, ⟨_, rfl, hpos, hlen, by omega, hne, fun k hk hlt => ?_⟩, by omega,
      hle⟩
    by_contra hc
    exact Nat.find_min hex hlt ⟨⟨hk, by omega, by omega⟩, hc⟩
  · left
    intro k hpos hlen hle
    by_contra hc
    exact hex ⟨k, ⟨hpos, hlen, hle⟩, hc⟩

/-- Starts come after their predecessors. -/
theorem Start.cases_first (h : S.Start r) : r = S.lo ∨ ∃ r', S.Mismatch S.lo r' ∧ r' ≤ r := by
  rcases Relation.ReflTransGen.cases_head h with heq | ⟨r', hm, hrest⟩
  · exact Or.inl heq.symm
  · refine Or.inr ⟨r', hm, ?_⟩
    have hle : ({ S with lo := r' } : Search α).Start r := hrest
    exact hle.le

/-- **No occurrence is run over**: if every partial match that reaches over `p` is a whole
one, and the rest of the pattern follows `p`, it follows a start at `p` at the latest. -/
theorem exists_start (hlo : S.lo ≤ p) (hp : p < S.hi) (hf : S.FollowsAt p)
    (hover : ∀ r, S.lo ≤ r → r < p → S.MatchesTo r p → S.FollowsAt r) :
    ∃ r, S.Start r ∧ S.FollowsAt r ∧ r ≤ p := by
  -- Going from start to start, the distance to `p` gets less.
  have hfrom : ∀ n r, p - r ≤ n → r ≤ p → S.Start r → ∃ r, S.Start r ∧ S.FollowsAt r ∧ r ≤ p := by
    intro n
    induction n with
    | zero =>
        intro r hn hr hstart
        obtain rfl : r = p := by omega
        exact ⟨r, hstart, hf, hr⟩
    | succ n ih =>
        intro r hn hr hstart
        by_cases hrp : r = p
        · subst hrp
          exact ⟨r, hstart, hf, hr⟩
        rcases matchesTo_or_mismatch (S := S) r p hp with hm | ⟨r', hm, hlt, hle⟩
        · exact ⟨r, hstart, hover r hstart.le (by omega) hm, hr⟩
        · exact ih r' (by omega) hle (hstart.tail hm)
  exact hfrom _ S.lo (Nat.le_refl _) hlo .refl

/-- A pattern whose first symbol does not come again is not run over. -/
theorem OccursAt.not_over (h : S.OccursAt p) (hlen : 0 < S.len)
    (hfresh : ∀ k, 1 ≤ k → k < S.len → S.pat k ≠ S.pat 0) (hr : r < p) (hm : S.MatchesTo r p) :
    S.FollowsAt r := by
  obtain ⟨-, hhi, hpat⟩ := h
  by_cases hover : p < r + S.len
  · have hsame := hm (p - r) (by omega) (by omega) (by omega)
    have hfirst := hpat 0 hlen
    rw [Nat.add_sub_cancel' (Nat.le_of_lt hr)] at hsame
    rw [Nat.add_zero, hsame] at hfirst
    exact absurd hfirst (hfresh (p - r) (by omega) (by omega))
  · exact hm.follows (by omega) (by omega)

/-- Where the pattern is in the window, it is there a last time. -/
theorem OccursAt.exists_last (h : S.OccursAt p) : ∃ q, p ≤ q ∧ S.LastAt q := by
  have hfrom : ∀ n p, S.hi - p ≤ n → S.OccursAt p → ∃ q, p ≤ q ∧ S.LastAt q := by
    intro n
    induction n with
    | zero =>
        intro p hn h
        refine ⟨p, Nat.le_refl p, h, fun p' hlt h' => ?_⟩
        have hfit := h'.2.1
        omega
    | succ n ih =>
        intro p hn h
        by_cases hex : ∃ p', p < p' ∧ S.OccursAt p'
        · obtain ⟨p', hlt, h'⟩ := hex
          have hfit := h'.2.1
          obtain ⟨q, hle, hq⟩ := ih p' (by omega) h'
          exact ⟨q, by omega, hq⟩
        · exact ⟨p, Nat.le_refl p, h, fun p' hlt h' => hex ⟨p', hlt, h'⟩⟩
  exact hfrom _ p (Nat.le_refl _) h

end Search

end AtmegaScheduler
