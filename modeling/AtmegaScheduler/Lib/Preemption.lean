/-
Tasks that share code on one processor.

The running task executes the code one statement at a time.  While interrupts are
enabled a handler may run between two statements, or the processor may switch to
another task.  A task outside of the code does what it likes with the interrupt flag.

Two things protect what a task has learnt about the memory.  At a *masked* place
interrupts are disabled, so nobody else runs at all.  At a *held* place the others are
to keep away by themselves: no other task goes on to a held place meanwhile.  Against
handlers a held place has no protection, and what is asserted there has to survive
them.

An `Outline` collects what is then left to check, one obligation for each kind of
event, and `Outline.sound` is the induction over a run.

A call that reads two things and writes nothing needs no protection, but what it makes of
them holds only if nobody has changed the first before it reads the second.  A `Reading`
says which statements would, and `Reading.sound` that nothing else does.
-/
import Mathlib.Logic.Function.Basic
import Mathlib.Data.Fintype.Defs
import Mathlib.Data.List.Basic

namespace Preemption

/-- What a statement leaves: the memory, the interrupt flag, and either the place that
comes next or what the code returns. -/
structure Effect (σ π ρ : Type) where
  mem : σ
  iflag : Bool
  goes : π ⊕ ρ

/-- The code: where a call may begin, what a statement does, and what the handlers do,
`none` where the interrupt cannot occur. -/
structure Code (σ π ρ ι : Type) where
  entry : π → Bool
  stmt : σ → Bool → π → Effect σ π ρ
  irq : σ → ι → Option σ

/-- The memory, the interrupt flag, the running task, and where in the code each task
is. -/
structure State (τ σ π : Type) where
  mem : σ
  iflag : Bool
  cTask : τ
  place : τ → Option π

/-- What happens next. -/
inductive Event (τ π ι : Type)
  /-- The running task is outside of the code, and leaves the interrupt flag like this. -/
  | own (i : Bool)
  | call (p : π)
  | stmt
  | irq (i : ι)
  | switch (u : τ)
  deriving DecidableEq, Repr

/-- Events, each with the state it happens in. -/
abbrev History (τ σ π ι : Type) : Type := List (State τ σ π × Event τ π ι)

variable {τ σ π ρ ι : Type} [DecidableEq τ]

section Shown

variable {β : Type}

/-- What the events of a history show, one after another. -/
def shown (f : State τ σ π × Event τ π ι → Option β) (h : History τ σ π ι) : List β :=
  h.filterMap f

omit [DecidableEq τ] in
theorem shown_snoc (f : State τ σ π × Event τ π ι → Option β) (h : History τ σ π ι)
    (c : State τ σ π × Event τ π ι) : shown f (h ++ [c]) = shown f h ++ (f c).toList := by
  unfold shown
  rw [List.filterMap_append]
  cases hc : f c with
  | none => rw [List.filterMap_cons_none hc]; rfl
  | some b => rw [List.filterMap_cons_some hc]; rfl

omit [DecidableEq τ] in
theorem shown_cons (f : State τ σ π × Event τ π ι → Option β) (c : State τ σ π × Event τ π ι)
    (h : History τ σ π ι) : shown f (c :: h) = (f c).toList ++ shown f h := by
  unfold shown
  cases hc : f c with
  | none => rw [List.filterMap_cons_none hc]; rfl
  | some b => rw [List.filterMap_cons_some hc]; rfl

omit [DecidableEq τ] in
/-- Leaving out events leaves out what they show. -/
theorem shown_sublist {f g : State τ σ π × Event τ π ι → Option β} {h : History τ σ π ι}
    (hsub : ∀ c ∈ h, f c = g c ∨ f c = none) : (shown f h).Sublist (shown g h) := by
  induction h with
  | nil => exact List.Sublist.refl _
  | cons c h ih =>
      have hrest := ih fun d hd => hsub d (List.mem_cons_of_mem c hd)
      rw [shown_cons, shown_cons]
      rcases hsub c List.mem_cons_self with heq | hnone
      · rw [heq]
        exact hrest.append_left _
      · rw [hnone]
        exact hrest.trans (List.sublist_append_right _ _)

omit [DecidableEq τ] in
/-- The same is shown just when nothing is left out. -/
theorem shown_eq_iff {f g : State τ σ π × Event τ π ι → Option β} {h : History τ σ π ι}
    (hsub : ∀ c ∈ h, f c = g c ∨ f c = none) :
    shown f h = shown g h ↔ ∀ c ∈ h, f c = g c := by
  induction h with
  | nil => exact ⟨fun _ c hc => absurd hc List.not_mem_nil, fun _ => rfl⟩
  | cons c h ih =>
      have htail : ∀ d ∈ h, f d = g d ∨ f d = none := fun d hd => hsub d (List.mem_cons_of_mem c hd)
      rw [shown_cons, shown_cons, List.forall_mem_cons, ← ih htail]
      constructor
      · intro heq
        rcases hsub c List.mem_cons_self with hsame | hnone
        · rw [hsame] at heq
          exact ⟨hsame, List.append_cancel_left heq⟩
        · cases hg : g c with
          | none =>
              rw [hnone, hg] at heq
              exact ⟨hnone, heq⟩
          | some b =>
              -- One item more on the right, and no more than that on the left.
              have hle := (shown_sublist htail).length_le
              rw [hnone, hg, Option.toList_none, List.nil_append, Option.toList_some] at heq
              have hlen := congrArg List.length heq
              rw [List.length_append, List.length_singleton] at hlen
              omega
      · intro heq
        rw [heq.1, heq.2]

end Shown

namespace State

/-- Where the running task is. -/
def here (s : State τ σ π) : Option π := s.place s.cTask

/-- The running task goes on to a place, or leaves the code. -/
def goto (s : State τ σ π) (p : Option π) : State τ σ π :=
  { s with place := Function.update s.place s.cTask p }

/-- The statement at `p`. -/
def after (C : Code σ π ρ ι) (s : State τ σ π) (p : π) : State τ σ π :=
  { s.goto (C.stmt s.mem s.iflag p).goes.getLeft? with
    mem := (C.stmt s.mem s.iflag p).mem
    iflag := (C.stmt s.mem s.iflag p).iflag }

/-- One event.  A switch needs interrupts enabled, or is made by a task outside of the
code, and enables them. -/
def next (C : Code σ π ρ ι) (s : State τ σ π) : Event τ π ι → Option (State τ σ π)
  | .own i => if s.here.isNone then some { s with iflag := i } else none
  | .call p => if s.here.isNone && C.entry p then some (s.goto (some p)) else none
  | .stmt => s.here.map (s.after C)
  | .irq i => if s.iflag then (C.irq s.mem i).map fun m => { s with mem := m } else none
  | .switch u =>
      if s.iflag || s.here.isNone then some { s with cTask := u, iflag := true } else none

/-- The running task is at `p` or has left the code, with this memory and this flag. -/
def put (s : State τ σ π) (m : σ) (i : Bool) (p : Option π) : State τ σ π :=
  { s.goto p with mem := m, iflag := i }

/-- No task is in the code. -/
def Outside (s : State τ σ π) : Prop := ∀ t, s.place t = none

end State

/-- A run of the system. -/
inductive Run (C : Code σ π ρ ι) (s₀ : State τ σ π) : History τ σ π ι → State τ σ π → Prop
  | nil : Run C s₀ [] s₀
  | snoc {h : History τ σ π ι} {s s' : State τ σ π} {e : Event τ π ι} (hrun : Run C s₀ h s)
      (hnext : s.next C e = some s') : Run C s₀ (h ++ [(s, e)]) s'

/-- The states and events one after another, from events alone. -/
def play (C : Code σ π ρ ι) : List (Event τ π ι) → History τ σ π ι × State τ σ π →
    Option (History τ σ π ι × State τ σ π)
  | [], c => some c
  | e :: es, c => (c.2.next C e).bind fun s' => play C es (c.1 ++ [(c.2, e)], s')

section Cases

variable {C : Code σ π ρ ι} {s s' s₀ : State τ σ π} {e : Event τ π ι} {h : History τ σ π ι}

/-- What an event can do. -/
theorem next_cases (hnext : s.next C e = some s') :
    (∃ i, e = .own i ∧ s.here = none ∧ s' = { s with iflag := i }) ∨
    (∃ p, e = .call p ∧ s.here = none ∧ C.entry p = true ∧ s' = s.goto (some p)) ∨
    (∃ p, e = .stmt ∧ s.here = some p ∧ s' = s.after C p) ∨
    (∃ i m, e = .irq i ∧ s.iflag = true ∧ C.irq s.mem i = some m ∧ s' = { s with mem := m }) ∨
    (∃ u, e = .switch u ∧ (s.iflag = true ∨ s.here = none) ∧
      s' = { s with cTask := u, iflag := true }) := by
  cases e with
  | own i =>
      rw [State.next, Option.ite_none_right_eq_some, Option.isNone_iff_eq_none] at hnext
      exact Or.inl ⟨i, rfl, hnext.1, (Option.some.inj hnext.2).symm⟩
  | call p =>
      rw [State.next, Option.ite_none_right_eq_some, Bool.and_eq_true,
        Option.isNone_iff_eq_none] at hnext
      exact Or.inr (Or.inl ⟨p, rfl, hnext.1.1, hnext.1.2, (Option.some.inj hnext.2).symm⟩)
  | stmt =>
      obtain ⟨p, hp, hs⟩ := Option.map_eq_some_iff.mp hnext
      exact Or.inr (Or.inr (Or.inl ⟨p, rfl, hp, hs.symm⟩))
  | irq i =>
      rw [State.next, Option.ite_none_right_eq_some] at hnext
      obtain ⟨m, hm, hs⟩ := Option.map_eq_some_iff.mp hnext.2
      exact Or.inr (Or.inr (Or.inr (Or.inl ⟨i, m, rfl, hnext.1, hm, hs.symm⟩)))
  | switch u =>
      rw [State.next, Option.ite_none_right_eq_some, Bool.or_eq_true,
        Option.isNone_iff_eq_none] at hnext
      exact Or.inr (Or.inr (Or.inr (Or.inr ⟨u, rfl, hnext.1, (Option.some.inj hnext.2).symm⟩)))

theorem play_run {es : List (Event τ π ι)} {c c' : History τ σ π ι × State τ σ π}
    (hrun : Run C s₀ c.1 c.2) (hplay : play C es c = some c') : Run C s₀ c'.1 c'.2 := by
  induction es generalizing c with
  | nil =>
      rw [← Option.some.inj hplay]
      exact hrun
  | cons e es ih =>
      obtain ⟨s', hnext, hrest⟩ := Option.bind_eq_some_iff.mp hplay
      exact ih (hrun.snoc hnext) hrest

theorem goto_here (s : State τ σ π) (p : Option π) : (s.goto p).here = p := by
  unfold State.here State.goto
  exact Function.update_self ..

theorem goto_other {t : τ} (ht : t ≠ s.cTask) (p : Option π) : (s.goto p).place t = s.place t := by
  unfold State.goto
  exact Function.update_of_ne ht ..

theorem put_here (s : State τ σ π) (m : σ) (i : Bool) (p : Option π) : (s.put m i p).here = p :=
  Function.update_self ..

theorem put_self {p : Option π} (hp : s.here = p) : s.put s.mem s.iflag p = s := by
  unfold State.put State.goto
  rw [← hp, show s.here = s.place s.cTask from rfl, Function.update_eq_self]

theorem put_place {m : σ} {i : Bool} {p : Option π} {t : τ} (ht : t ≠ s.cTask) :
    (s.put m i p).place t = s.place t :=
  Function.update_of_ne ht ..

theorem put_place_self (m : σ) (i : Bool) (p : Option π) : (s.put m i p).place s.cTask = p :=
  Function.update_self ..

/-- One statement of the running task. -/
theorem next_put {m m' : σ} {i i' : Bool} {p : π} {goes : π ⊕ ρ}
    (hstmt : C.stmt m i p = ⟨m', i', goes⟩) :
    (s.put m i (some p)).next C (.stmt : Event τ π ι) = some (s.put m' i' goes.getLeft?) := by
  have hhere : (s.put m i (some p)).here = some p := put_here ..
  have hafter : (s.put m i (some p)).after C p = s.put m' i' goes.getLeft? := by
    show State.mk (C.stmt m i p).mem (C.stmt m i p).iflag s.cTask
      (Function.update (Function.update s.place s.cTask (some p)) s.cTask
        (C.stmt m i p).goes.getLeft?) = _
    rw [hstmt, Function.update_idem]
    rfl
  show (s.put m i (some p)).here.map _ = _
  rw [hhere, ← hafter]
  rfl

theorem play_append {es es' : List (Event τ π ι)} {c : History τ σ π ι × State τ σ π} :
    play C (es ++ es') c = (play C es c).bind (play C es') := by
  induction es generalizing c with
  | nil => rfl
  | cons e es ih =>
      rw [List.cons_append, play, play, Option.bind_assoc]
      congr 1
      funext s'
      exact ih

/-- As long as there are only statements, one task executes them. -/
theorem Run.same_task {h₁ h₂ : History τ σ π ι} (hrun : Run C s₀ (h₁ ++ h₂) s)
    (hstmts : ∀ c ∈ h₂, c.2 = .stmt) : ∀ c ∈ h₂, c.1.cTask = s.cTask := by
  generalize hall : h₁ ++ h₂ = h at hrun
  induction hrun generalizing h₂ with
  | nil =>
      rw [(List.append_eq_nil_iff.mp hall).2]
      nofun
  | @snoc h s s' e hrun hnext ih =>
      rcases List.eq_nil_or_concat h₂ with rfl | ⟨h₂, c, rfl⟩
      · nofun
      · rw [List.concat_eq_append] at hstmts hall ⊢
        rw [← List.append_assoc] at hall
        obtain ⟨hinit, hlast⟩ := List.append_inj' hall rfl
        obtain rfl := List.singleton_inj.mp hlast
        obtain rfl : e = .stmt := hstmts (s, e) (List.mem_append_right _ List.mem_cons_self)
        obtain ⟨p, -, rfl⟩ := Option.map_eq_some_iff.mp hnext
        intro c hc
        rcases List.mem_append.mp hc with hc | hc
        · exact ih (fun d hd => hstmts d (List.mem_append_left _ hd)) hinit c hc
        · rw [List.mem_singleton.mp hc]
          rfl

/-- With interrupts disabled in the code, there is only the next statement. -/
theorem next_locked {p : π} (hi : s.iflag = false) (hp : s.here = some p)
    (hnext : s.next C e = some s') : e = .stmt ∧ s' = s.after C p := by
  have hsome : s.here ≠ none := by rw [hp]; exact Option.some_ne_none p
  rcases next_cases hnext with ⟨i, -, hout, -⟩ | ⟨p', -, hout, -⟩ | ⟨p', rfl, hp', rfl⟩ |
    ⟨i, m, -, hopen, -⟩ | ⟨u, -, hopen, -⟩
  · exact absurd hout hsome
  · exact absurd hout hsome
  · obtain rfl := Option.some.inj (hp.symm.trans hp')
    exact ⟨rfl, rfl⟩
  · exact absurd (hi.symm.trans hopen) (by decide)
  · rcases hopen with hopen | hout
    · exact absurd (hi.symm.trans hopen) (by decide)
    · exact absurd hout hsome

end Cases

/-! ### Proof outlines -/

/-- When a task goes on from outside of the held places to one, no other task is at a
held place: `acquires` tells the statements that do so. -/
def Exclusive (held acquires : π → Bool) (h : History τ σ π ι) : Prop :=
  ∀ c ∈ h, c.2 = .stmt → c.1.here.any acquires = true →
    ∀ u, u ≠ c.1.cTask → (c.1.place u).any held = false

instance [Fintype τ] [DecidableEq π] [DecidableEq ι] (held acquires : π → Bool)
    (h : History τ σ π ι) : Decidable (Exclusive held acquires h) :=
  inferInstanceAs (Decidable (∀ c ∈ h, _))

/-- The masked and the held places, and what is to hold where: `steady` whenever the
running task is not at a masked place, `learnt` at a place that is not masked, `inside`
at one that is. -/
structure Assertions (τ σ π ι : Type) where
  held : π → Bool
  acquires : π → Bool
  masked : π → Bool
  steady : History τ σ π ι → σ → Prop
  learnt : σ → π → Prop
  inside : History τ σ π ι → σ → π → Prop

/-- What is to hold when the running task is at `p`. -/
def Assertions.At (P : Assertions τ σ π ι)
    (h : History τ σ π ι) (m : σ) (i : Bool) (p : π) : Prop :=
  if P.masked p = true then i = false ∧ P.inside h m p else P.steady h m ∧ P.learnt m p

/-- What there is to check. -/
structure Outline (C : Code σ π ρ ι) (P : Assertions τ σ π ι) : Prop where
  entry : ∀ m p, C.entry p = true → P.held p = false ∧ P.masked p = false ∧ P.learnt m p
  /-- A statement makes true what is asserted where it leads. -/
  stays : ∀ h (s : State τ σ π) p p', s.here = some p → P.At h s.mem s.iflag p →
    (C.stmt s.mem s.iflag p).goes = .inl p' →
    (P.held p' = true → P.held p = true ∨ P.acquires p = true) ∧
      P.At (h ++ [(s, .stmt)]) (C.stmt s.mem s.iflag p).mem (C.stmt s.mem s.iflag p).iflag p'
  leaves : ∀ h (s : State τ σ π) p r, s.here = some p → P.At h s.mem s.iflag p →
    (C.stmt s.mem s.iflag p).goes = .inr r →
    P.steady (h ++ [(s, .stmt)]) (C.stmt s.mem s.iflag p).mem
  /-- A statement leaves alone what is asserted of other tasks. -/
  other : ∀ m i p p', (P.held p = true → P.held p' = false) → P.masked p' = false →
    P.learnt m p' → P.learnt (C.stmt m i p).mem p'
  /-- So does a handler. -/
  irq : ∀ h (s : State τ σ π) i m, C.irq s.mem i = some m → P.steady h s.mem →
    P.steady (h ++ [(s, .irq i)]) m ∧
      ∀ p, P.masked p = false → P.learnt s.mem p → P.learnt m p
  /-- The other events show nothing. -/
  idle : ∀ h (s : State τ σ π) e, e ≠ .stmt → (∀ i, e ≠ .irq i) → P.steady h s.mem →
    P.steady (h ++ [(s, e)]) s.mem

/-- What an outline makes true of every state reached. -/
structure Kept (P : Assertions τ σ π ι) (h : History τ σ π ι) (s : State τ σ π) : Prop where
  here : ∀ p, s.here = some p → P.At h s.mem s.iflag p
  away : s.here = none → P.steady h s.mem
  others : ∀ t p, t ≠ s.cTask → s.place t = some p → P.masked p = false ∧ P.learnt s.mem p
  unique : ∀ t p u p', s.place t = some p → s.place u = some p' → P.held p = true →
    P.held p' = true → t = u

section Outline

variable {C : Code σ π ρ ι} {P : Assertions τ σ π ι} {s s' s₀ : State τ σ π}
  {e : Event τ π ι} {h : History τ σ π ι} {m : σ} {i : Bool} {p : π}

omit [DecidableEq τ] in
theorem at_masked (hp : P.masked p = true) :
    P.At h m i p ↔ i = false ∧ P.inside h m p := by
  unfold Assertions.At
  rw [if_pos hp]

omit [DecidableEq τ] in
theorem at_free (hp : P.masked p = false) :
    P.At h m i p ↔ P.steady h m ∧ P.learnt m p := by
  unfold Assertions.At
  rw [if_neg (by rw [hp]; exact Bool.false_ne_true)]

namespace Kept

omit [DecidableEq τ] in
/-- Outside of the masked places nothing is left half done. -/
theorem quiet (hk : Kept P h s) (hp : ∀ p, s.here = some p → P.masked p = false) :
    P.steady h s.mem := by
  cases hat : s.here with
  | none => exact hk.away hat
  | some p => exact ((at_free (hp p hat)).mp (hk.here p hat)).1

omit [DecidableEq τ] in
/-- With interrupts enabled no task is at a masked place. -/
theorem unmasked (hk : Kept P h s) (hi : s.iflag = true) {p : π} (hp : s.here = some p) :
    P.masked p = false := by
  by_contra hc
  have hoff := ((at_masked (Bool.not_eq_false _ ▸ hc)).mp (hk.here p hp)).1
  exact absurd (hi.symm.trans hoff) (by decide)

omit [DecidableEq τ] in
/-- What is asserted at the places that are not masked. -/
theorem asserted (hk : Kept P h s) (hq : ∀ p, s.here = some p → P.masked p = false)
    {t : τ} {p : π} (hp : s.place t = some p) : P.masked p = false ∧ P.learnt s.mem p := by
  by_cases ht : t = s.cTask
  · subst ht
    exact ⟨hq p hp, ((at_free (hq p hp)).mp (hk.here p hp)).2⟩
  · exact hk.others t p ht hp

end Kept

omit [DecidableEq τ] in
/-- A task that has moved is at a held place only if no other task is. -/
theorem held_after (O : Outline C P) (hk : Kept P h s) (hp : s.here = some p)
    (hex : P.acquires p = true → ∀ u, u ≠ s.cTask → (s.place u).any P.held = false)
    {p' : π} (hgoes : (C.stmt s.mem s.iflag p).goes = .inl p') (hheld : P.held p' = true)
    {u : τ} {p'' : π} (hu : u ≠ s.cTask) (hplace : s.place u = some p'') : P.held p'' = false := by
  rcases (O.stays h s p p' hp (hk.here p hp) hgoes).1 hheld with hwas | hacq
  · by_contra hc
    exact hu (hk.unique _ _ _ _ hplace hp (Bool.not_eq_false _ ▸ hc) hwas)
  · have hoff := hex hacq u hu
    rwa [hplace] at hoff

theorem kept_stmt (O : Outline C P) (hk : Kept P h s) (hp : s.here = some p)
    (hex : P.acquires p = true → ∀ u, u ≠ s.cTask → (s.place u).any P.held = false) :
    Kept P (h ++ [(s, .stmt)]) (s.after C p) := by
  have hplace : ∀ t, t ≠ s.cTask → (s.after C p).place t = s.place t := by
    intro t ht
    exact goto_other ht _
  have hat : (s.after C p).here = (C.stmt s.mem s.iflag p).goes.getLeft? :=
    Function.update_self ..
  have hmoved : ∀ p', (s.after C p).here = some p' →
      (C.stmt s.mem s.iflag p).goes = .inl p' := by
    intro p' hp'
    rw [hat] at hp'
    exact Sum.getLeft?_eq_some_iff.mp hp'
  refine ⟨?_, ?_, ?_, ?_⟩
  · intro p' hp'
    exact (O.stays h s p p' hp (hk.here p hp) (hmoved p' hp')).2
  · intro hnone
    rw [hat] at hnone
    obtain ⟨r, hr⟩ := Sum.isRight_iff.mp (Sum.getLeft?_eq_none_iff.mp hnone)
    exact O.leaves h s p r hp (hk.here p hp) hr
  · intro t p' ht hp'
    have hp'' : s.place t = some p' := (hplace t ht).symm.trans hp'
    obtain ⟨hfree, hlearnt⟩ := hk.others t p' ht hp''
    refine ⟨hfree, O.other _ _ _ _ ?_ hfree hlearnt⟩
    intro hheld
    by_contra hc
    exact ht (hk.unique _ _ _ _ hp'' hp (Bool.not_eq_false _ ▸ hc) hheld)
  · intro t p₁ u p₂ ht hu h₁ h₂
    by_cases htc : t = s.cTask
    · by_cases huc : u = s.cTask
      · rw [htc, huc]
      · subst htc
        have hoff := held_after O hk hp hex (hmoved p₁ ht) h₁ huc ((hplace u huc).symm.trans hu)
        exact absurd (h₂.symm.trans hoff) (by decide)
    · by_cases huc : u = s.cTask
      · subst huc
        have hoff := held_after O hk hp hex (hmoved p₂ hu) h₂ htc ((hplace t htc).symm.trans ht)
        exact absurd (h₁.symm.trans hoff) (by decide)
      · exact hk.unique t p₁ u p₂ ((hplace t htc).symm.trans ht)
          ((hplace u huc).symm.trans hu) h₁ h₂

theorem kept_call (O : Outline C P) (hk : Kept P h s) (hout : s.here = none)
    (hentry : C.entry p = true) : Kept P (h ++ [(s, .call p)]) (s.goto (some p)) := by
  have hq := O.idle h s (.call p) (by simp) (by simp) (hk.away hout)
  obtain ⟨hfree, hopen, hlearnt⟩ := O.entry s.mem p hentry
  -- Who is at a held place now was there before.
  have hwas : ∀ w p', (s.goto (some p)).place w = some p' → P.held p' = true →
      s.place w = some p' := by
    intro w p' hw hheld
    by_cases hwc : w = s.cTask
    · subst hwc
      obtain rfl : p = p' := Option.some.inj ((goto_here s (some p)).symm.trans hw)
      exact absurd (hheld.symm.trans hfree) (by decide)
    · exact (goto_other hwc _).symm.trans hw
  refine ⟨?_, ?_, ?_, ?_⟩
  · intro p' hp'
    obtain rfl : p = p' := Option.some.inj ((goto_here s (some p)).symm.trans hp')
    exact (at_free hopen).mpr ⟨hq, hlearnt⟩
  · intro hnone
    exact absurd ((goto_here s (some p)).symm.trans hnone) (by simp)
  · intro t p' ht hp'
    have hsame : (s.goto (some p)).place t = s.place t := goto_other (s := s) ht _
    exact hk.others t p' ht (hsame.symm.trans hp')
  · intro t p₁ v p₂ ht hv h₁ h₂
    exact hk.unique t p₁ v p₂ (hwas t p₁ ht h₁) (hwas v p₂ hv h₂) h₁ h₂

omit [DecidableEq τ] in
theorem kept_irq (O : Outline C P) (hk : Kept P h s) (hi : s.iflag = true) {j : ι}
    (hm : C.irq s.mem j = some m) :
    Kept P (h ++ [(s, .irq j)]) { s with mem := m } := by
  have hfree : ∀ p, s.here = some p → P.masked p = false := fun p hp => hk.unmasked hi hp
  obtain ⟨hq, hkeep⟩ := O.irq h s j m hm (hk.quiet hfree)
  refine ⟨?_, fun _ => hq, ?_, hk.unique⟩
  · intro p hp
    exact (at_free (hfree p hp)).mpr ⟨hq, hkeep p (hfree p hp) (hk.asserted hfree hp).2⟩
  · intro t p ht hp
    obtain ⟨hmask, hlearnt⟩ := hk.others t p ht hp
    exact ⟨hmask, hkeep p hmask hlearnt⟩

omit [DecidableEq τ] in
theorem kept_switch (O : Outline C P) (hk : Kept P h s) (hopen : s.iflag = true ∨ s.here = none)
    (u : τ) : Kept P (h ++ [(s, .switch u)]) { s with cTask := u, iflag := true } := by
  have hfree : ∀ p, s.here = some p → P.masked p = false := by
    intro p hp
    rcases hopen with hi | hout
    · exact hk.unmasked hi hp
    · exact absurd (hout.symm.trans hp) (by simp)
  have hq := O.idle h s (.switch u) (by simp) (by simp) (hk.quiet hfree)
  refine ⟨?_, fun _ => hq, ?_, hk.unique⟩
  · intro p hp
    obtain ⟨hmask, hlearnt⟩ := hk.asserted hfree hp
    exact (at_free hmask).mpr ⟨hq, hlearnt⟩
  · intro t p _ hp
    exact hk.asserted hfree hp

/-- **One event** keeps what the outline asserts. -/
theorem kept_next (O : Outline C P) (hk : Kept P h s) (hnext : s.next C e = some s')
    (hex : Exclusive P.held P.acquires (h ++ [(s, e)])) : Kept P (h ++ [(s, e)]) s' := by
  rcases next_cases hnext with ⟨i, rfl, hout, rfl⟩ | ⟨p, rfl, hout, hentry, rfl⟩ |
    ⟨p, rfl, hp, rfl⟩ | ⟨i, m, rfl, hi, hm, rfl⟩ | ⟨u, rfl, hopen, rfl⟩
  · have hq := O.idle h s (.own i) (by simp) (by simp) (hk.away hout)
    refine ⟨fun p hp => ?_, fun _ => hq, hk.others, hk.unique⟩
    exact absurd (hout.symm.trans hp) (by simp)
  · exact kept_call O hk hout hentry
  · refine kept_stmt O hk hp fun hacq => ?_
    exact hex _ (List.mem_append_right _ List.mem_cons_self) rfl (by rw [hp]; exact hacq)
  · exact kept_irq O hk hi hm
  · exact kept_switch O hk hopen u

omit [DecidableEq τ] in
theorem Exclusive.take {held acquires : π → Bool} {h' : History τ σ π ι}
    (hex : Exclusive held acquires (h ++ h')) : Exclusive held acquires h :=
  fun c hc => hex c (List.mem_append_left _ hc)

/-- **A whole run** keeps what the outline asserts. -/
theorem Outline.sound (O : Outline C P) (hrun : Run C s₀ h s) (hout : s₀.Outside)
    (h₀ : P.steady [] s₀.mem) (hex : Exclusive P.held P.acquires h) : Kept P h s := by
  induction hrun with
  | nil =>
      have hnone : ∀ t p, s₀.place t ≠ some p := by
        intro t p hp
        exact absurd ((hout t).symm.trans hp) (by simp)
      refine ⟨fun p hp => ?_, fun _ => h₀, fun t p _ hp => ?_, fun t p u p' hp => ?_⟩
      · exact absurd hp (hnone _ p)
      · exact absurd hp (hnone t p)
      · exact absurd hp (hnone t p)
  | snoc _ hnext ih => exact kept_next O (ih hex.take) hnext hex

/-! ### Two reads -/

/-- What has happened since the last statement of `t`, the latest first. -/
def since [DecidableEq π] [DecidableEq ι] (t : τ) (h : History τ σ π ι) : History τ σ π ι :=
  h.reverse.takeWhile fun c => !(decide (c.2 = .stmt) && decide (c.1.cTask = t))

/-- Since then no other task has executed a statement that spoils what `t` has seen. -/
def Unspoilt [DecidableEq π] [DecidableEq ι] (spoils : π → Bool) (t : τ)
    (h : History τ σ π ι) : Prop :=
  ∀ c ∈ since t h, c.2 = .stmt → c.1.here.any spoils = false

instance [DecidableEq π] [DecidableEq ι] (spoils : π → Bool) (t : τ) (h : History τ σ π ι) :
    Decidable (Unspoilt spoils t h) :=
  inferInstanceAs (Decidable (∀ c ∈ since t h, _))

theorem since_snoc [DecidableEq π] [DecidableEq ι] {t : τ} (ht : e = .stmt → s.cTask ≠ t) :
    since t (h ++ [(s, e)]) = (s, e) :: since t h := by
  unfold since
  rw [List.reverse_append, List.reverse_singleton, List.singleton_append,
    List.takeWhile_cons_of_pos ?_]
  by_cases he : e = .stmt
  · simp [he, ht he]
  · simp [he]

theorem Unspoilt.last [DecidableEq π] [DecidableEq ι] {spoils : π → Bool} {t : τ}
    (hun : Unspoilt spoils t (h ++ [(s, e)])) (ht : e = .stmt → s.cTask ≠ t) :
    Unspoilt spoils t h ∧ (e = .stmt → s.here.any spoils = false) := by
  unfold Unspoilt at hun
  rw [since_snoc ht, List.forall_mem_cons] at hun
  exact ⟨hun.2, hun.1⟩

/-- What a task has `seen` with its last statement, and the statements of others that spoil
it. -/
structure Reading (C : Code σ π ρ ι) (P : Assertions τ σ π ι) (spoils : π → π → Bool)
    (seen : σ → π → Prop) : Prop where
  entry : ∀ m p, C.entry p = true → seen m p
  reads : ∀ h (s : State τ σ π) p p', s.here = some p → P.At h s.mem s.iflag p →
    (C.stmt s.mem s.iflag p).goes = .inl p' → seen (C.stmt s.mem s.iflag p).mem p'
  other : ∀ h (s : State τ σ π) p p', s.here = some p → P.At h s.mem s.iflag p →
    spoils p' p = false → seen s.mem p' → seen (C.stmt s.mem s.iflag p).mem p'
  irq : ∀ h (s : State τ σ π) i m, C.irq s.mem i = some m → P.steady h s.mem →
    ∀ p, seen s.mem p → seen m p

/-- **What has been seen still holds** if no other task has spoilt it since. -/
theorem Reading.sound [DecidableEq π] [DecidableEq ι] {spoils : π → π → Bool}
    {seen : σ → π → Prop} (R : Reading C P spoils seen) (O : Outline C P) (hrun : Run C s₀ h s)
    (hout : s₀.Outside) (h₀ : P.steady [] s₀.mem) (hex : Exclusive P.held P.acquires h) :
    ∀ t p, s.place t = some p → Unspoilt (spoils p) t h → seen s.mem p := by
  induction hrun with
  | nil =>
      intro t p hp
      exact absurd ((hout t).symm.trans hp) (by simp)
  | @snoc h s s' e hrun hnext ih =>
      have hk := O.sound hrun hout h₀ hex.take
      have hseen := ih hex.take
      intro t p hp hun
      rcases next_cases hnext with ⟨i, rfl, -, rfl⟩ | ⟨q, rfl, -, hentry, rfl⟩ |
        ⟨q, rfl, hq, rfl⟩ | ⟨i, m, rfl, hi, hm, rfl⟩ | ⟨u, rfl, -, rfl⟩
      · exact hseen t p hp (hun.last (by simp)).1
      · by_cases ht : t = s.cTask
        · subst ht
          rw [Option.some.inj (hp.symm.trans (goto_here s (some q)))]
          exact R.entry _ q hentry
        · exact hseen t p ((goto_other ht _).symm.trans hp) (hun.last (by simp)).1
      · by_cases ht : t = s.cTask
        · subst ht
          have hat : (s.after C q).here = (C.stmt s.mem s.iflag q).goes.getLeft? :=
            Function.update_self ..
          refine R.reads h s q p hq (hk.here q hq) (Sum.getLeft?_eq_some_iff.mp ?_)
          exact hat.symm.trans hp
        · obtain ⟨hbefore, hlast⟩ := hun.last fun _ => Ne.symm ht
          have hspoils := hlast rfl
          rw [hq] at hspoils
          have hplace : s.place t = some p := (goto_other ht _).symm.trans hp
          exact R.other h s q p hq (hk.here q hq) hspoils (hseen t p hplace hbefore)
      · have hsteady := hk.quiet fun q hq => hk.unmasked hi hq
        exact R.irq h s i m hm hsteady p (hseen t p hp (hun.last (by simp)).1)
      · exact hseen t p hp (hun.last (by simp)).1

end Outline

end Preemption
