/-
Programs that read and write a memory one access at a time.

A program can be stopped between any two of its accesses.  `run` is what it computes
when nobody else touches the memory meanwhile, and one access leaves that unchanged:
whoever knows the result of the whole program at one point knows it at the next.
-/

/-- A program over a memory `σ` that fails with an `ε` or ends with a `β`. -/
inductive Access (σ ε β : Type) : Type
  | done (b : β)
  | fail (e : ε)
  | load (next : σ → Access σ ε β)
  | store (f : σ → σ) (next : Access σ ε β)

namespace Access

variable {σ ε β γ : Type}

/-- One program after another. -/
def bind : Access σ ε β → (β → Access σ ε γ) → Access σ ε γ
  | .done b, k => k b
  | .fail e, _ => .fail e
  | .load next, k => .load fun m => (next m).bind k
  | .store f next, k => .store f (next.bind k)

instance : Monad (Access σ ε) where
  pure := .done
  bind := bind

/-- Reading a part of the memory. -/
def get (read : σ → γ) : Access σ ε γ := .load fun m => .done (read m)

/-- Writing a part of the memory. -/
def set (write : σ → σ) : Access σ ε Unit := .store write (.done ())

/-- A value computed without the memory. -/
def eval : Except ε γ → Access σ ε γ
  | .ok x => .done x
  | .error e => .fail e

/-- What the program computes when it runs alone. -/
def run : Access σ ε β → σ → Except ε (β × σ)
  | .done b, m => .ok (b, m)
  | .fail e, _ => .error e
  | .load next, m => (next m).run m
  | .store f next, m => next.run (f m)

/-- The next access. -/
def step : Access σ ε β → σ → Option (Access σ ε β × σ)
  | .done _, _ => none
  | .fail _, _ => none
  | .load next, m => some (next m, m)
  | .store f next, m => some (next, f m)

/-- **One access** leaves what the program computes unchanged. -/
theorem run_step {p p' : Access σ ε β} {m m' : σ} (h : p.step m = some (p', m')) :
    p'.run m' = p.run m := by
  cases p with
  | done b => exact absurd h (by simp [step])
  | fail e => exact absurd h (by simp [step])
  | load next =>
      obtain ⟨rfl, rfl⟩ := Prod.mk.inj (Option.some.inj h)
      rfl
  | store f next =>
      obtain ⟨rfl, rfl⟩ := Prod.mk.inj (Option.some.inj h)
      rfl

/-- A program that is to return something has not failed. -/
theorem ne_fail {p : Access σ ε β} {m : σ} {x : β × σ} (h : p.run m = .ok x) (e : ε) :
    p ≠ .fail e := by
  intro hc
  rw [hc] at h
  exact absurd h (by simp [run])

/-- What a sequence computes. -/
theorem run_bind (p : Access σ ε β) (k : β → Access σ ε γ) (m : σ) :
    (p >>= k).run m = p.run m >>= fun x => (k x.1).run x.2 := by
  show (p.bind k).run m = _
  induction p generalizing m with
  | done b => rfl
  | fail e => rfl
  | load next ih => exact ih m m
  | store f next ih => exact ih (f m)

/-- Reading first. -/
theorem run_get_bind (read : σ → β) (k : β → Access σ ε γ) (m : σ) :
    (get read >>= k).run m = (k (read m)).run m := rfl

/-- Writing first. -/
theorem run_set_bind (write : σ → σ) (k : Unit → Access σ ε γ) (m : σ) :
    (set write >>= k).run m = (k ()).run (write m) := rfl

/-- Computing first. -/
theorem run_eval_bind (x : Except ε β) (k : β → Access σ ε γ) (m : σ) :
    (eval x >>= k).run m = x >>= fun v => (k v).run m := by
  cases x with
  | ok x => rfl
  | error e => rfl

end Access
