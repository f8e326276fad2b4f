/-
Interrupts between the instructions of a routine.

An interrupt that has become pending is served at the first instruction boundary
where interrupts are enabled, and enabling them takes effect one instruction late:
the instruction after the one that sets the flag always runs.  So a boundary is
open when the flag is set there and was set at the boundary before it.
-/
import AtmegaScheduler.Avr.Cpu

namespace AtmegaScheduler.Avr

/-- The boundary at which a handler first runs, when its interrupt becomes pending
at boundary `arrival`.  `i` is the boundary the routine is at, and `armed` says
whether the interrupt flag was set at the one before. -/
def handlerAt (arrival : Nat) : Nat → Bool → List Instr → Cpu → Option Nat
  | _, _, [], _ => none
  | i, armed, ins :: prog, c =>
      if arrival ≤ i ∧ armed = true ∧ iFlag c.sreg = true then some i
      else handlerAt arrival (i + 1) (iFlag c.sreg) prog (exec1 c ins)

theorem handlerAt_closed {arrival i : Nat} {armed : Bool} {ins : Instr} {prog : List Instr}
    {c : Cpu} (h : armed = false ∨ iFlag c.sreg = false) :
    handlerAt arrival i armed (ins :: prog) c =
      handlerAt arrival (i + 1) (iFlag c.sreg) prog (exec1 c ins) := by
  rw [handlerAt]
  refine if_neg fun hif => ?_
  rcases h with h | h
  · rw [h] at hif
    exact absurd hif.2.1 (by decide)
  · rw [h] at hif
    exact absurd hif.2.2 (by decide)

theorem handlerAt_open {arrival i : Nat} {ins : Instr} {prog : List Instr} {c : Cpu}
    (hi : arrival ≤ i) (hc : iFlag c.sreg = true) :
    handlerAt arrival i true (ins :: prog) c = some i := by
  unfold handlerAt
  exact if_pos ⟨hi, rfl, hc⟩

/-- The interrupt flag is clear whenever an instruction of the routine begins. -/
def Masked (prog : List Instr) (c : Cpu) : Prop :=
  ∀ n, n < prog.length → iFlag (exec (prog.take n) c).sreg = false

theorem masked_cons {ins : Instr} {prog : List Instr} {c : Cpu} :
    Masked (ins :: prog) c ↔ iFlag c.sreg = false ∧ Masked prog (exec1 c ins) := by
  constructor
  · intro h
    refine ⟨h 0 (Nat.succ_pos _), fun n hn => ?_⟩
    exact h (n + 1) (Nat.succ_lt_succ hn)
  · intro ⟨hc, h⟩ n hn
    cases n with
    | zero => exact hc
    | succ n => exact h n (Nat.lt_of_succ_lt_succ hn)

/-- No handler runs inside a routine during which interrupts stay disabled. -/
theorem handlerAt_of_masked (arrival : Nat) (prog : List Instr) :
    ∀ (i : Nat) (armed : Bool) (c : Cpu), Masked prog c →
      handlerAt arrival i armed prog c = none := by
  induction prog with
  | nil => intro i armed c _; rfl
  | cons ins rest ih =>
      intro i armed c h
      obtain ⟨hc, hrest⟩ := masked_cons.mp h
      rw [handlerAt_closed (Or.inr hc)]
      exact ih _ _ _ hrest

/-- Instructions that do not write the status register. -/
def KeepsSreg : Instr → Prop
  | .cli | .sei | .reti | .out .sreg _ => False
  | _ => True

theorem exec1_sreg {ins : Instr} (h : KeepsSreg ins) (c : Cpu) :
    (exec1 c ins).sreg = c.sreg := by
  cases ins with
  | cli => exact h.elim
  | sei => exact h.elim
  | reti => exact h.elim
  | out io r =>
      cases io with
      | sreg => exact h.elim
      | spl => rfl
      | sph => rfl
  | _ => rfl

theorem exec_sreg {prog : List Instr} (h : ∀ ins ∈ prog, KeepsSreg ins) (c : Cpu) :
    (exec prog c).sreg = c.sreg := by
  induction prog generalizing c with
  | nil => rfl
  | cons ins rest ih =>
      rw [exec_cons, ih (fun j hj => h j (by simp [hj])), exec1_sreg (h ins (by simp))]

/-- Without such instructions the flag stays as it is. -/
theorem masked_of_keepsSreg {prog : List Instr} (h : ∀ ins ∈ prog, KeepsSreg ins) {c : Cpu}
    (hc : iFlag c.sreg = false) : Masked prog c := by
  intro n _
  rw [exec_sreg (fun ins hins => h ins (List.mem_of_mem_take hins))]
  exact hc

/-! ### Memory a routine does not look at

A handler that returns leaves the registers, the stack pointer and the status
register as they were, so what it can do to the routine it interrupts is change
memory.  A routine that reads only bytes the handler left alone does not notice.
-/

/-- The machines are equal up to memory outside `K`. -/
structure Agree (K : Word → Prop) (c c' : Cpu) : Prop where
  r : c'.r = c.r
  sp : c'.sp = c.sp
  sreg : c'.sreg = c.sreg
  pc : c'.pc = c.pc
  mem : ∀ a, K a → c'.mem a = c.mem a

/-- The addresses an instruction reads. -/
def reads (c : Cpu) : Instr → List Word
  | .pop _ => [c.sp + 1]
  | .lds _ k => [k]
  | .ldd _ q => [c.z + disp q]
  | .ret | .reti => [c.sp + 1, c.sp + 1 + 1]
  | _ => []

/-- The addresses an instruction writes. -/
def writes (c : Cpu) : Instr → List Word
  | .push _ => [c.sp]
  | .std q _ => [c.z + disp q]
  | _ => []

namespace Agree

variable {K K' : Word → Prop} {c c' c'' : Cpu}

theorem refl (K : Word → Prop) (c : Cpu) : Agree K c c := ⟨rfl, rfl, rfl, rfl, fun _ _ => rfl⟩

theorem trans (h : Agree K c c') (h' : Agree K c' c'') : Agree K c c'' :=
  ⟨h'.r.trans h.r, h'.sp.trans h.sp, h'.sreg.trans h.sreg, h'.pc.trans h.pc,
    fun a ha => (h'.mem a ha).trans (h.mem a ha)⟩

theorem mono (h : Agree K c c') (hK : ∀ a, K' a → K a) : Agree K' c c' :=
  ⟨h.r, h.sp, h.sreg, h.pc, fun a ha => h.mem a (hK a ha)⟩

theorem z (h : Agree K c c') : c'.z = c.z := by
  unfold Cpu.z
  rw [h.r]

/-- One instruction that reads only bytes on which the machines agree. -/
theorem exec1 {ins : Instr} (h : Agree K c c') (hreads : ∀ a ∈ reads c ins, K a) :
    Agree (fun a => K a ∨ a ∈ writes c ins) (exec1 c ins) (exec1 c' ins) := by
  have hz := h.z
  obtain ⟨r', sp', sreg', pc', mem'⟩ := c'
  obtain ⟨hr, hsp, hsreg, hpc, hm⟩ := h
  simp only at hr hsp hsreg hpc hm
  subst hr hsp hsreg hpc
  have hstore : ∀ w b a, (K a ∨ a ∈ [w]) →
      Function.update mem' w b a = Function.update c.mem w b a := by
    intro w b a ha
    rw [List.mem_singleton] at ha
    by_cases haw : a = w
    · rw [haw, Function.update_self, Function.update_self]
    · rw [Function.update_of_ne haw, Function.update_of_ne haw, hm a (ha.resolve_right haw)]
  have hload : ∀ a, (K a ∨ a ∈ ([] : List Word)) → mem' a = c.mem a := by
    intro a ha
    exact hm a (ha.resolve_right List.not_mem_nil)
  cases ins with
  | push r =>
      exact ⟨rfl, rfl, rfl, rfl, hstore _ _⟩
  | std q r =>
      exact ⟨rfl, rfl, rfl, rfl, hstore _ _⟩
  | pop r =>
      have hv := hm _ (hreads (c.sp + 1) List.mem_cons_self)
      refine ⟨?_, rfl, rfl, rfl, hload⟩
      exact congrArg (Function.update c.r r) hv
  | lds r k =>
      have hv := hm _ (hreads k List.mem_cons_self)
      refine ⟨?_, rfl, rfl, rfl, hload⟩
      exact congrArg (Function.update c.r r) hv
  | ldd r q =>
      have hv := hm _ (hreads (c.z + disp q) List.mem_cons_self)
      refine ⟨?_, rfl, rfl, rfl, hload⟩
      exact congrArg (Function.update c.r r) hv
  | ret =>
      have hhi := hm _ (hreads (c.sp + 1) List.mem_cons_self)
      have hlo := hm _ (hreads (c.sp + 1 + 1) (List.mem_cons_of_mem _ List.mem_cons_self))
      refine ⟨rfl, rfl, rfl, ?_, hload⟩
      show word (mem' (c.sp + 1)) (mem' (c.sp + 1 + 1)) = word _ _
      rw [hhi, hlo]
  | reti =>
      have hhi := hm _ (hreads (c.sp + 1) List.mem_cons_self)
      have hlo := hm _ (hreads (c.sp + 1 + 1) (List.mem_cons_of_mem _ List.mem_cons_self))
      refine ⟨rfl, rfl, rfl, ?_, hload⟩
      show word (mem' (c.sp + 1)) (mem' (c.sp + 1 + 1)) = word _ _
      rw [hhi, hlo]
  | «in» r io =>
      refine ⟨?_, rfl, rfl, rfl, hload⟩
      cases io <;> rfl
  | out io r =>
      cases io <;> exact ⟨rfl, rfl, rfl, rfl, hload⟩
  | cli => exact ⟨rfl, rfl, rfl, rfl, hload⟩
  | sei => exact ⟨rfl, rfl, rfl, rfl, hload⟩

end Agree

/-- Along the routine, each instruction reads only bytes of `K` and writes none of
`P`, and what enters `K` has just been written. -/
def Sees (K : Cpu → Word → Prop) (P : Word → Prop) : List Instr → Cpu → Prop
  | [], _ => True
  | ins :: prog, c =>
      (∀ a ∈ reads c ins, K c a) ∧ (∀ a ∈ writes c ins, ¬ P a) ∧
        (∀ a, K (exec1 c ins) a → K c a ∨ a ∈ writes c ins) ∧ Sees K P prog (exec1 c ins)

theorem sees_append {K : Cpu → Word → Prop} {P : Word → Prop} {p q : List Instr} {c : Cpu}
    (hp : Sees K P p c) (hq : Sees K P q (exec p c)) : Sees K P (p ++ q) c := by
  induction p generalizing c with
  | nil => exact hq
  | cons ins rest ih =>
      obtain ⟨hr, hw, hk, hrest⟩ := hp
      exact ⟨hr, hw, hk, ih hrest hq⟩

/-- Along the routine, no instruction writes a byte of `P`. -/
def Spares (P : Word → Prop) : List Instr → Cpu → Prop
  | [], _ => True
  | ins :: prog, c => (∀ a ∈ writes c ins, ¬ P a) ∧ Spares P prog (exec1 c ins)

theorem Sees.spares {K : Cpu → Word → Prop} {P : Word → Prop} {prog : List Instr} {c : Cpu}
    (h : Sees K P prog c) : Spares P prog c := by
  induction prog generalizing c with
  | nil => trivial
  | cons ins rest ih => exact ⟨h.2.1, ih h.2.2.2⟩

theorem spares_append {P : Word → Prop} {p q : List Instr} {c : Cpu} (hp : Spares P p c)
    (hq : Spares P q (exec p c)) : Spares P (p ++ q) c := by
  induction p generalizing c with
  | nil => exact hq
  | cons ins rest ih => exact ⟨hp.1, ih hp.2 hq⟩

/-- An instruction changes memory only where it writes. -/
theorem exec1_mem {ins : Instr} {c : Cpu} {a : Word} (ha : a ∉ writes c ins) :
    (exec1 c ins).mem a = c.mem a := by
  cases ins with
  | push r => exact Function.update_of_ne (fun hc => ha (List.mem_singleton.mpr hc)) _ _
  | std q r => exact Function.update_of_ne (fun hc => ha (List.mem_singleton.mpr hc)) _ _
  | out io r => cases io <;> rfl
  | _ => rfl

/-- Interrupts are enabled whenever an instruction of the routine begins, and after it. -/
def Enabled : List Instr → Cpu → Prop
  | [], c => iFlag c.sreg = true
  | ins :: prog, c => iFlag c.sreg = true ∧ Enabled prog (exec1 c ins)

theorem enabled_append {p q : List Instr} {c : Cpu} (hp : Enabled p c)
    (hq : Enabled q (exec p c)) : Enabled (p ++ q) c := by
  induction p generalizing c with
  | nil => exact hq
  | cons ins rest ih => exact ⟨hp.1, ih hp.2 hq⟩

theorem enabled_of_keepsSreg {prog : List Instr} (h : ∀ ins ∈ prog, KeepsSreg ins) {c : Cpu}
    (hc : iFlag c.sreg = true) : Enabled prog c := by
  induction prog generalizing c with
  | nil => exact hc
  | cons ins rest ih =>
      refine ⟨hc, ih (fun j hj => h j (by simp [hj])) ?_⟩
      rw [exec1_sreg (h ins (by simp))]
      exact hc

/-- The stack pointer whenever an instruction of the routine begins. -/
def spTrace : List Instr → Cpu → List Word
  | [], _ => []
  | ins :: prog, c => c.sp :: spTrace prog (exec1 c ins)

theorem spTrace_append (p q : List Instr) (c : Cpu) :
    spTrace (p ++ q) c = spTrace p c ++ spTrace q (exec p c) := by
  induction p generalizing c with
  | nil => rfl
  | cons ins rest ih =>
      show c.sp :: spTrace (rest ++ q) _ = c.sp :: (spTrace rest _ ++ _)
      rw [ih]
      rfl

theorem length_spTrace (prog : List Instr) (c : Cpu) : (spTrace prog c).length = prog.length := by
  induction prog generalizing c with
  | nil => rfl
  | cons ins rest ih => exact congrArg Nat.succ (ih _)

end AtmegaScheduler.Avr
