/-
The arguments of a task's entry function.

The variadic `create_task` walks over the arguments twice.  The first pass counts
the bytes that go on the stack, so that the second can put the leftmost stack
argument lowest and leave room for the entry address below it.  What is proved here
is where every argument ends up, compared with where the entry function looks for it,
and when that function finds the bytes there.

They are the same places, except around one boundary: the test that decides between
registers and stack stops one pair short of r8, and all its arithmetic is modulo 2^16.
Arguments that fill the address space are written over by the entry address, or by one
another.
-/
import Mathlib.Data.List.GetD
import Mathlib.Data.List.SplitLengths
import AtmegaScheduler.Avr.CallConv
import AtmegaScheduler.Kernel.Scheduler

namespace AtmegaScheduler

open Avr

/-! ### The places the second pass chooses -/

/-- The destinations `_process_arg` computes, one argument after another. -/
def argPlaces (stackSize : Word) : ArgCursor → List Arg → List ArgLoc
  | _, [] => []
  | c, arg :: args => argLoc stackSize c arg.size :: argPlaces stackSize (c.advance arg.size) args

/-- The byte `create_task` writes first is the byte the entry function reads first,
on a stack at `memoryPtr` and with the stack pointer at `sp` on its first instruction. -/
def Meets (memoryPtr sp : Word) : ArgLoc → Loc → Prop
  | .regs base, .reg rn => base.toNat = rn
  | .stack index, .stack offset => memoryPtr + index = sp + 3 + BitVec.ofNat 16 offset
  | _, _ => False

namespace Sched

/-- The places of all arguments: the second pass starts with the count of the first. -/
def places (stackSize : Word) (args : List Arg) : List ArgLoc :=
  argPlaces stackSize ⟨false, 0, stackBytes args⟩ args

variable {τ : Type} [DecidableEq τ]

/-- Copy an argument to its place. -/
def storeArg (task : τ) (s : Sched τ) (p : ArgLoc × Arg) : Sched τ :=
  match p.1 with
  | .regs base =>
      s.modify task fun d =>
        { d with cpuState := { d.cpuState with regs := copyToRegs d.cpuState.regs base p.2 } }
  | .stack index =>
      { s with mem := memcpy s.mem ((s.tasks task).stack.memoryPtr + index) p.2 }

theorem processArg_eq (task : τ) (st : Sched τ × ArgCursor) (arg : Arg) :
    processArg task st arg =
      (storeArg task st.1 (argLoc (st.1.tasks task).stack.size st.2 arg.size, arg),
        st.2.advance arg.size) := by
  unfold processArg storeArg
  split <;> simp_all

theorem storeArg_regs (task : τ) (s : Sched τ) (base : Byte) (arg : Arg) :
    ((storeArg task s (.regs base, arg)).tasks task).cpuState.regs =
      copyToRegs (s.tasks task).cpuState.regs base arg := by
  unfold storeArg
  dsimp only
  rw [modify_tasks_self]

/-- Of the control block, copying an argument writes the registers only. -/
theorem storeArg_task (task : τ) (s : Sched τ) (p : ArgLoc × Arg) :
    ∃ regs, (storeArg task s p).tasks task =
      { s.tasks task with cpuState := { (s.tasks task).cpuState with regs := regs } } := by
  unfold storeArg
  split
  · exact ⟨_, modify_tasks_self s task _⟩
  · exact ⟨_, rfl⟩

@[simp] theorem storeArg_stack (task : τ) (s : Sched τ) (p : ArgLoc × Arg) :
    ((storeArg task s p).tasks task).stack = (s.tasks task).stack := by
  obtain ⟨regs, h⟩ := storeArg_task task s p
  rw [h]

/-- **The second pass** copies every argument to its place. -/
theorem processArgs_eq (task : τ) (args : List Arg) :
    ∀ (s : Sched τ) (c : ArgCursor),
      (args.foldl (processArg task) (s, c)).1 =
        ((argPlaces (s.tasks task).stack.size c args).zip args).foldl (storeArg task) s := by
  induction args with
  | nil => intro s c; rfl
  | cons arg rest ih =>
      intro s c
      rw [List.foldl_cons, processArg_eq, ih, storeArg_stack]
      rfl

theorem writeArgs_eq (s : Sched τ) (task : τ) (args : List Arg) :
    s.writeArgs task args =
      ((places (s.tasks task).stack.size args).zip args).foldl (storeArg task) s :=
  processArgs_eq task args s _

theorem storeArgs_task (task : τ) (l : List (ArgLoc × Arg)) (s : Sched τ) :
    ∃ regs, (l.foldl (storeArg task) s).tasks task =
      { s.tasks task with cpuState := { (s.tasks task).cpuState with regs := regs } } := by
  induction l generalizing s with
  | nil => exact ⟨_, rfl⟩
  | cons p rest ih =>
      obtain ⟨regs, h⟩ := ih (storeArg task s p)
      obtain ⟨regs', h'⟩ := storeArg_task task s p
      rw [List.foldl_cons, h, h']
      exact ⟨regs, rfl⟩

/-! ### The stack pointer -/

theorem setNext_cpuState (s : Sched τ) (t u : τ) (v : Option τ) :
    ((s.setNext t v).tasks u).cpuState = (s.tasks u).cpuState ∧
      ((s.setNext t v).tasks u).stack = (s.tasks u).stack := by
  by_cases hu : u = t
  · subst hu
    unfold setNext
    rw [modify_tasks_self]
    exact ⟨rfl, rfl⟩
  · unfold setNext
    rw [modify_tasks_of_ne _ _ _ hu]
    exact ⟨rfl, rfl⟩

/-- Queueing a task changes links only. -/
theorem addTask_keeps {s s' : Sched τ} {fuel : Nat} {t : τ} (h : s.addTask fuel t = .ok s')
    (u : τ) : (s'.tasks u).cpuState = (s.tasks u).cpuState ∧
      (s'.tasks u).stack = (s.tasks u).stack ∧ s'.mem = s.mem := by
  rcases addTask_cases h with ⟨-, rfl⟩ | ⟨ptr, rfl⟩
  · exact ⟨rfl, rfl, rfl⟩
  · obtain ⟨hcpu, hstack⟩ := setNext_cpuState s ptr u (some t)
    exact ⟨hcpu, hstack, rfl⟩

/-- **What the plain `create_task` leaves** in the control block and on the stack. -/
theorem createTask_prepares {s s' : Sched τ} {fuel : Nat} {t : τ} {a : CreateArgs}
    (h : s.createTask fuel t a = .ok (false, s')) :
    (s'.tasks t).stack = ⟨a.stackArray, a.stackSize⟩ ∧
      (s'.tasks t).cpuState.sreg = 0x80 ∧
      (s'.tasks t).cpuState.sp = a.stackArray + (a.stackSize - 3) ∧
      s'.mem = Function.update
        (Function.update s.mem (a.stackArray + (a.stackSize - 1)) (lo8 a.entry))
        (a.stackArray + (a.stackSize - 2)) (hi8 a.entry) := by
  obtain ⟨s₂, hadd, htasks, hmem'⟩ := createTask_succeeds h
  obtain ⟨hcpu, hstack, hmem⟩ := addTask_keeps hadd t
  have hprep : (((s.cli.resetTask t a).prepareContext t a).tasks t).stack =
      ⟨a.stackArray, a.stackSize⟩ ∧
      (((s.cli.resetTask t a).prepareContext t a).tasks t).cpuState.sreg = 0x80 ∧
      (((s.cli.resetTask t a).prepareContext t a).tasks t).cpuState.sp =
        a.stackArray + (a.stackSize - 3) := by
    simp [prepareContext, resetTask]
  rw [htasks, hmem', hcpu, hstack, hmem]
  exact ⟨hprep.1, hprep.2.1, hprep.2.2, rfl⟩

/-- The stack pointer of a task with arguments. -/
def preparedSp (a : CreateArgs) (args : List Arg) : Word :=
  a.stackArray + if stackBytes args ≠ 0 then a.stackSize - stackBytes args - 6 else a.stackSize - 3

/-- The scheduler once the plain `create_task` has succeeded and every argument is copied. -/
def argsStored (s : Sched τ) (t : τ) (a : CreateArgs) (args : List Arg) : Sched τ :=
  ((places a.stackSize args).zip args).foldl (storeArg t) s

/-- **What the variadic `create_task` leaves**: the arguments are copied, the stack
pointer is below them all, and the entry address is right above it. -/
theorem createTaskArgs_prepares {s s' : Sched τ} {fuel : Nat} {t : τ} {a : CreateArgs}
    {args : List Arg} (h : s.createTaskArgs fuel t a args = .ok (false, s')) :
    (s'.tasks t).cpuState.sp = preparedSp a args ∧
      ∃ s₁, s.cli.createTask fuel t a = .ok (false, s₁) ∧
        (s'.tasks t).cpuState.regs = ((s₁.argsStored t a args).tasks t).cpuState.regs ∧
        (s'.tasks t).cpuState.sreg = ((s₁.argsStored t a args).tasks t).cpuState.sreg ∧
        s'.mem = if stackBytes args ≠ 0 then
          Function.update
            (Function.update (s₁.argsStored t a args).mem (preparedSp a args + 2) (lo8 a.entry))
            (preparedSp a args + 1) (hi8 a.entry)
        else (s₁.argsStored t a args).mem := by
  obtain ⟨s₁, hs₁, rfl⟩ := createTaskArgs_succeeds h
  obtain ⟨hstack, _, hsp, _⟩ := createTask_prepares hs₁
  have hwrite : s₁.writeArgs t args = s₁.argsStored t a args := by
    rw [writeArgs_eq, hstack]
    rfl
  obtain ⟨regs, hkeep⟩ := storeArgs_task t ((places a.stackSize args).zip args) s₁
  have hstack' : ((s₁.argsStored t a args).tasks t).stack = ⟨a.stackArray, a.stackSize⟩ := by
    unfold argsStored
    rw [hkeep]
    exact hstack
  have hsp' : ((s₁.argsStored t a args).tasks t).cpuState.sp =
      a.stackArray + (a.stackSize - 3) := by
    unfold argsStored
    rw [hkeep]
    exact hsp
  unfold placeArgs preparedSp
  rw [hwrite]
  by_cases hbase : stackBytes args ≠ 0
  · rw [if_pos hbase, if_pos hbase]
    refine ⟨?_, s₁, hs₁, ?_, ?_, ?_⟩
    · simp [setSreg, placeEntry, hstack']
    · simp [setSreg, placeEntry]
    · simp [setSreg, placeEntry]
    · rw [if_pos hbase]
      simp [setSreg, placeEntry, hstack', BitVec.add_assoc]
      rfl
  · rw [if_neg hbase, if_neg hbase]
    refine ⟨hsp', s₁, hs₁, rfl, rfl, ?_⟩
    rw [if_neg hbase]
    rfl

/-! ### Counting both ways -/

/-- The registers used so far, after one more argument in registers. -/
theorem regsUsed_succ (used : Nat) (arg : Arg) (hlen : arg.length < 2 ^ 16) :
    BitVec.ofNat 16 used + arg.size + padding arg.size =
      BitVec.ofNat 16 (used + roundUp arg.length) := by
  have hsize : arg.size.toNat = arg.length := Nat.mod_eq_of_lt hlen
  have hpad : (padding arg.size).toNat = arg.length % 2 := by
    show arg.size.toNat % 2 = _
    rw [hsize]
  apply BitVec.eq_of_toNat_eq
  rw [BitVec.toNat_add, BitVec.toNat_add, BitVec.toNat_ofNat, BitVec.toNat_ofNat, hsize, hpad]
  unfold roundUp
  omega

/-- The test between registers and stack, in numbers. -/
theorem fits_iff (used : Nat) {arg : Arg} (hlen : arg.length < 2 ^ 16) (u : Word) :
    (ArgCursor.mk false (BitVec.ofNat 16 used) u).fits arg.size = true ↔
      (used + roundUp arg.length) % 2 ^ 16 < 17 := by
  unfold ArgCursor.fits
  rw [Bool.not_false, Bool.and_true, decide_eq_true_eq, regsUsed_succ used arg hlen, BitVec.lt_def,
    BitVec.toNat_ofNat]
  rfl

theorem onStack_fits (regsUsed stackUsed argSize : Word) :
    (ArgCursor.mk true regsUsed stackUsed).fits argSize = false := by
  unfold ArgCursor.fits
  rw [Bool.not_true, Bool.and_false]

theorem argLoc_onStack (stackSize regsUsed stackUsed argSize : Word) :
    argLoc stackSize ⟨true, regsUsed, stackUsed⟩ argSize = .stack (stackSize - stackUsed - 1) := by
  rw [argLoc_of_spills]
  rw [onStack_fits]
  simp

theorem advance_onStack (regsUsed stackUsed argSize : Word) :
    ArgCursor.advance ⟨true, regsUsed, stackUsed⟩ argSize =
      ⟨true, regsUsed, stackUsed - argSize⟩ := by
  rw [ArgCursor.advance_of_spills]
  rw [onStack_fits]
  simp

/-- Once on the stack, the first pass only adds up. -/
theorem calcSizes_onStack (args : List Arg) :
    ∀ regsUsed stackUsed : Word,
      ((args.map Arg.size).foldl calcSizes ⟨true, regsUsed, stackUsed⟩).stackUsed =
        stackUsed + BitVec.ofNat 16 (args.map List.length).sum := by
  induction args with
  | nil =>
      intro regsUsed stackUsed
      exact (BitVec.add_zero stackUsed).symm
  | cons arg rest ih =>
      intro regsUsed stackUsed
      rw [List.map_cons, List.foldl_cons, calcSizes, onStack_fits, if_neg (by simp), ih,
        List.map_cons, List.sum_cons, BitVec.ofNat_add, ← BitVec.add_assoc]
      rfl

/-- **The first pass** counts the bytes from the first argument that does not fit on. -/
theorem calcSizes_spill (args : List Arg) :
    ∀ (used : Nat) (u : Word), used ≤ 16 → (∀ arg ∈ args, arg.length < 2 ^ 16) →
      ∀ total rest, spill 16 used (args.map List.length) = some (total, rest) → total < 2 ^ 16 →
        ((args.map Arg.size).foldl calcSizes ⟨false, BitVec.ofNat 16 used, u⟩).stackUsed =
          u + BitVec.ofNat 16 rest.sum := by
  induction args with
  | nil =>
      intro used u _ _ total rest hspill
      exact absurd hspill (by simp [spill])
  | cons arg args ih =>
      intro used u hused hlen total rest hspill htotal
      have hlen₀ : arg.length < 2 ^ 16 := hlen arg (by simp)
      rw [List.map_cons] at hspill
      rw [List.map_cons, List.foldl_cons, calcSizes]
      by_cases hle : used + roundUp arg.length ≤ 16
      · rw [spill_le hle] at hspill
        rw [if_pos ((fits_iff _ hlen₀ u).mpr (by omega)), regsUsed_succ used arg hlen₀]
        exact ih _ u hle (fun x hx => hlen x (by simp [hx])) total rest hspill htotal
      · rw [spill_gt hle] at hspill
        obtain ⟨rfl, rfl⟩ := Prod.mk.inj (Option.some.inj hspill)
        rw [if_neg (fun hc => ?_), calcSizes_onStack, List.sum_cons, BitVec.ofNat_add,
          ← BitVec.add_assoc]
        · rfl
        · have := (fits_iff _ hlen₀ u).mp hc
          omega

/-- An argument that goes into registers: its place, and the cursor after it. -/
theorem argLoc_fits (stackSize u : Word) {used : Nat} {arg : Arg} (hlen : arg.length < 2 ^ 16)
    (hle : used + roundUp arg.length ≤ 16) :
    ∃ base : Byte, base.toNat = 26 - used - roundUp arg.length ∧
      argLoc stackSize ⟨false, BitVec.ofNat 16 used, u⟩ arg.size = .regs base ∧
      ArgCursor.advance ⟨false, BitVec.ofNat 16 used, u⟩ arg.size =
        ⟨false, BitVec.ofNat 16 (used + roundUp arg.length), u⟩ := by
  have hpos := (fits_iff used hlen u).mpr (by omega)
  refine ⟨(25 - BitVec.ofNat 16 used - arg.size - padding arg.size + 1).setWidth 8, ?_, ?_, ?_⟩
  · have hsub : 25 - BitVec.ofNat 16 used - arg.size - padding arg.size + 1 =
        26 - (BitVec.ofNat 16 used + arg.size + padding arg.size) := by
      grind
    rw [hsub, regsUsed_succ used arg hlen, BitVec.toNat_setWidth, BitVec.toNat_sub,
      BitVec.toNat_ofNat]
    show (2 ^ 16 - (used + roundUp arg.length) % 2 ^ 16 + 26) % 2 ^ 16 % 2 ^ 8 = _
    omega
  · exact argLoc_of_fits hpos
  · rw [ArgCursor.advance_of_fits hpos, ← regsUsed_succ used arg hlen]

/-! ### Where the entry function looks -/

/-- What is said of the argument that spills. -/
theorem spilled_iff {total : Nat} {rest : List Nat} {P : Nat → Prop} :
    (∀ total' rest', some (total, rest) = some (total', rest') → P total') ↔ P total := by
  constructor
  · intro h
    exact h total rest rfl
  · intro h total' rest' heq
    rw [← (Prod.mk.inj (Option.some.inj heq)).1]
    exact h

section Meet

variable (memoryPtr sp stackSize : Word)

/-- On the stack, one argument in the right place puts all after it in theirs. -/
theorem meets_onStack (args : List Arg) :
    ∀ (offset : Nat) (r u : Word),
      memoryPtr + (stackSize - u - 1) = sp + 3 + BitVec.ofNat 16 offset →
      List.Forall₂ (Meets memoryPtr sp) (argPlaces stackSize ⟨true, r, u⟩ args)
        (stackLocs offset (args.map List.length)) := by
  induction args with
  | nil => intro offset r u _; exact .nil
  | cons arg rest ih =>
      intro offset r u h
      rw [List.map_cons, stackLocs, argPlaces, argLoc_onStack, advance_onStack]
      refine .cons h (ih _ r _ ?_)
      have hshift : memoryPtr + (stackSize - (u - arg.size) - 1) =
          memoryPtr + (stackSize - u - 1) + arg.size := by
        grind
      rw [hshift, h, BitVec.ofNat_add, ← BitVec.add_assoc]
      rfl

/-- **From registers to stack**: the places are right up to the first argument for
which the registers are too few, and from there on if that argument's place is. -/
theorem meets_iff (u : Word) (args : List Arg) :
    ∀ used, used % 2 = 0 → used ≤ 16 → (∀ arg ∈ args, arg.length < 2 ^ 16) →
      (List.Forall₂ (Meets memoryPtr sp)
          (argPlaces stackSize ⟨false, BitVec.ofNat 16 used, u⟩ args)
          (argLocs (26 - used) (args.map List.length)) ↔
        ∀ total rest, spill 16 used (args.map List.length) = some (total, rest) →
          total ≠ 18 ∧ total < 2 ^ 16 ∧ memoryPtr + (stackSize - u - 1) = sp + 3) := by
  induction args with
  | nil =>
      intro used _ _ _
      exact ⟨fun _ total rest h => absurd h (by simp [spill]), fun _ => .nil⟩
  | cons arg args ih =>
      intro used heven hused hlen
      have hlen₀ : arg.length < 2 ^ 16 := hlen arg (by simp)
      have hround : roundUp arg.length % 2 = 0 := by
        unfold roundUp
        omega
      have hmax : roundUp arg.length ≤ 2 ^ 16 := by
        unfold roundUp
        omega
      have hfits := fits_iff used hlen₀ u
      rw [List.map_cons, argPlaces]
      by_cases hle : used + roundUp arg.length ≤ 16
      · -- Both in registers.
        obtain ⟨base, hbase, hplace, hnext⟩ := argLoc_fits stackSize u hlen₀ hle
        rw [hplace, hnext, argLocs_reg (by omega), spill_le hle, List.forall₂_cons,
          show 26 - used - roundUp arg.length = 26 - (used + roundUp arg.length) by omega,
          ih _ (by omega) hle (fun x hx => hlen x (by simp [hx]))]
        refine and_iff_right ?_
        show _ = _
        rw [hbase]
        omega
      · rw [spill_gt hle, spilled_iff]
        by_cases h18 : used + roundUp arg.length = 18
        · -- The code spills, the entry function reads r8.
          have hneg : ¬ _ := fun hc => absurd (hfits.mp hc) (by omega)
          rw [argLoc_of_spills hneg, argLocs_reg (by omega), List.forall₂_cons]
          exact ⟨fun h => h.1.elim, fun h => absurd h18 h.1⟩
        rw [argLocs_stack (by omega), stackLocs, List.forall₂_cons]
        by_cases hwrap : used + roundUp arg.length < 2 ^ 16
        · -- Both spill.
          have hneg : ¬ _ := fun hc => absurd (hfits.mp hc) (by omega)
          rw [argLoc_of_spills hneg, ArgCursor.advance_of_spills hneg]
          constructor
          · intro h
            exact ⟨h18, hwrap, h.1.trans (BitVec.add_zero _)⟩
          · intro h
            have hall :=
              meets_onStack memoryPtr sp stackSize (arg :: args) 0 (BitVec.ofNat 16 used) u
              (h.2.2.trans (BitVec.add_zero _).symm)
            rw [List.map_cons, stackLocs, argPlaces, List.forall₂_cons] at hall
            have hplace' := argLoc_onStack stackSize (BitVec.ofNat 16 used) u arg.size
            have hnext' := advance_onStack (BitVec.ofNat 16 used) u arg.size
            rw [hplace', hnext'] at hall
            exact hall
        · -- The sum wraps and the code finds registers.
          have hpos := hfits.mpr (by omega)
          rw [argLoc_of_fits hpos]
          exact ⟨fun h => h.1.elim, fun h => absurd h.2.1 hwrap⟩

end Meet

/-! ### The places of all arguments -/

/-- Every argument is where the entry function looks for it on its first instruction,
which the return into it reaches with two bytes popped. -/
def ArgsInPlace {τ : Type} (s : Sched τ) (t : τ) (a : CreateArgs) (args : List Arg) : Prop :=
  List.Forall₂ (Meets a.stackArray ((s.tasks t).cpuState.sp + 2)) (places a.stackSize args)
    (argLocs 26 (args.map List.length))

/-- The first stack argument is right unless the count of stack bytes has wrapped to 0. -/
theorem stackBase_iff (a : CreateArgs) (args : List Arg) :
    a.stackArray + (a.stackSize - stackBytes args - 1) = preparedSp a args + 2 + 3 ↔
      stackBytes args ≠ 0 := by
  unfold preparedSp
  by_cases hbase : stackBytes args ≠ 0
  · rw [if_pos hbase]
    refine ⟨fun _ => hbase, fun _ => ?_⟩
    grind
  · rw [if_neg hbase]
    refine ⟨fun h => ?_, fun h => absurd h hbase⟩
    rw [not_ne_iff.mp hbase] at h
    grind

/-- The count of stack bytes, modulo 2^16. -/
theorem stackBytes_spill {args : List Arg} (hsize : ∀ arg ∈ args, arg.length < 2 ^ 16)
    {total : Nat} {rest : List Nat}
    (hspill : spill 16 0 (args.map List.length) = some (total, rest))
    (htotal : total < 2 ^ 16) : stackBytes args = 0 ↔ 2 ^ 16 ∣ rest.sum := by
  have hcount : stackBytes args = BitVec.ofNat 16 rest.sum :=
    (calcSizes_spill args 0 0 (by omega) hsize total rest hspill htotal).trans (BitVec.zero_add _)
  rw [hcount, Nat.dvd_iff_mod_eq_zero]
  constructor
  · intro hz
    exact congrArg BitVec.toNat hz
  · intro hz
    exact BitVec.eq_of_toNat_eq hz

/-- **The places of the arguments.**  With the argument that brings the total of the
rounded sizes over 16 bytes, if there is one, the sizes go on to the stack.  Every place is
right if and only if there is none, or that total is not 18, has not wrapped, and neither
has the count of stack bytes. -/
theorem argsInPlace_iff {s s' : Sched τ} {fuel : Nat} {t : τ} {a : CreateArgs} {args : List Arg}
    (h : s.createTaskArgs fuel t a args = .ok (false, s'))
    (hsize : ∀ arg ∈ args, arg.length < 2 ^ 16) :
    s'.ArgsInPlace t a args ↔
      ∀ total rest, spill 16 0 (args.map List.length) = some (total, rest) →
        total ≠ 18 ∧ total < 2 ^ 16 ∧ ¬ 2 ^ 16 ∣ rest.sum := by
  obtain ⟨hsp, _⟩ := createTaskArgs_prepares h
  have hmeets := meets_iff a.stackArray (preparedSp a args + 2) a.stackSize (stackBytes args)
    args 0 rfl (by omega) hsize
  unfold ArgsInPlace
  rw [hsp]
  refine hmeets.trans (forall₂_congr fun total rest => forall_congr' fun hspill => ?_)
  refine and_congr_right fun _ => and_congr_right fun htotal => ?_
  rw [stackBase_iff, ne_eq, stackBytes_spill hsize hspill htotal]

/-! ### What the entry function finds -/

/-- The entry function finds the bytes of an argument at a location. -/
def Found {τ : Type} (s : Sched τ) (t : τ) (sp : Word) : Loc → Arg → Prop
  | .reg rn, arg => ∀ k : Reg, rn ≤ k.val → k.val < rn + arg.length →
      (s.tasks t).cpuState.regs k = arg.getD (k.val - rn) 0
  | .stack offset, arg => ∀ j, j < arg.length →
      s.mem (sp + 3 + BitVec.ofNat 16 (offset + j)) = arg.getD j 0

/-- The distance of two bytes of the argument area. -/
theorem toNat_offset_sub {i j : Nat} (x : Word) (hi : i < 2 ^ 16) (hj : j < 2 ^ 16) :
    (x + BitVec.ofNat 16 j - (x + BitVec.ofNat 16 i)).toNat =
      if i ≤ j then j - i else 2 ^ 16 + j - i := by
  rw [show x + BitVec.ofNat 16 j - (x + BitVec.ofNat 16 i) =
    BitVec.ofNat 16 j - BitVec.ofNat 16 i by grind, BitVec.toNat_sub, BitVec.toNat_ofNat,
    BitVec.toNat_ofNat]
  split <;> omega

section Stored

variable {t : τ} {memoryPtr sp : Word}

/-- Copying stack arguments leaves what lies below them. -/
theorem stored_onStack (args : List Arg) :
    ∀ (offset : Nat) (ps : List ArgLoc) (s : Sched τ),
      (s.tasks t).stack.memoryPtr = memoryPtr →
      List.Forall₂ (Meets memoryPtr sp) ps (stackLocs offset (args.map List.length)) →
      offset + (args.map List.length).sum < 2 ^ 16 →
      (∀ j, j < offset →
        ((ps.zip args).foldl (storeArg t) s).mem (sp + 3 + BitVec.ofNat 16 j) =
          s.mem (sp + 3 + BitVec.ofNat 16 j)) ∧
        (((ps.zip args).foldl (storeArg t) s).tasks t).cpuState.regs =
          (s.tasks t).cpuState.regs ∧
        List.Forall₂ (Found ((ps.zip args).foldl (storeArg t) s) t sp)
          (stackLocs offset (args.map List.length)) args := by
  induction args with
  | nil =>
      intro offset ps s _ _ _
      rw [List.zip_nil_right]
      exact ⟨fun _ _ => rfl, rfl, .nil⟩
  | cons arg args ih =>
      intro offset ps s hptr h hsum
      rw [List.map_cons, List.sum_cons] at hsum
      rw [List.map_cons, stackLocs] at h
      rw [List.map_cons, stackLocs]
      cases h with
      | @cons p _ ps' _ hp h =>
          cases p with
          | regs base => exact hp.elim
          | stack index =>
              have hp' : memoryPtr + index = sp + 3 + BitVec.ofNat 16 offset := hp
              have hmem : (storeArg t s (.stack index, arg)).mem =
                  memcpy s.mem (sp + 3 + BitVec.ofNat 16 offset) arg := by
                show memcpy s.mem ((s.tasks t).stack.memoryPtr + index) arg = _
                rw [hptr, hp']
              obtain ⟨hbelow, hregs, hfound⟩ := ih (offset + arg.length) ps'
                (storeArg t s (.stack index, arg)) hptr h (by omega)
              rw [List.zip_cons_cons, List.foldl_cons]
              refine ⟨fun j hj => ?_, hregs, .cons (fun j hj => ?_) hfound⟩
              · rw [hbelow j (by omega), hmem]
                refine if_neg ?_
                rw [toNat_offset_sub _ (by omega) (by omega), if_neg (by omega)]
                omega
              · rw [hbelow _ (by omega), hmem]
                have hdist := toNat_offset_sub (sp + 3) (i := offset) (j := offset + j) (by omega)
                  (by omega)
                rw [if_pos (by omega), Nat.add_sub_cancel_left] at hdist
                unfold memcpy
                rw [hdist, if_pos hj]

/-- Copying arguments leaves the registers above them. -/
theorem stored (args : List Arg) :
    ∀ (used : Nat) (ps : List ArgLoc) (s : Sched τ), used ≤ 18 →
      (s.tasks t).stack.memoryPtr = memoryPtr →
      List.Forall₂ (Meets memoryPtr sp) ps (argLocs (26 - used) (args.map List.length)) →
      (∀ total rest, spill 18 used (args.map List.length) = some (total, rest) →
        rest.sum < 2 ^ 16) →
      (∀ k : Reg, 26 - used ≤ k.val →
        (((ps.zip args).foldl (storeArg t) s).tasks t).cpuState.regs k =
          (s.tasks t).cpuState.regs k) ∧
        List.Forall₂ (Found ((ps.zip args).foldl (storeArg t) s) t sp)
          (argLocs (26 - used) (args.map List.length)) args := by
  induction args with
  | nil =>
      intro used ps s _ _ _ _
      rw [List.zip_nil_right]
      exact ⟨fun _ _ => rfl, .nil⟩
  | cons arg args ih =>
      intro used ps s hused hptr h hsum
      rw [List.map_cons] at h hsum ⊢
      by_cases hfit : used + roundUp arg.length ≤ 18
      · rw [argLocs_reg (by omega), Nat.sub_sub] at h ⊢
        rw [spill_le hfit] at hsum
        cases h with
        | @cons p _ ps' _ hp h =>
            cases p with
            | stack index => exact hp.elim
            | regs base =>
                have hbase : base.toNat = 26 - (used + roundUp arg.length) := hp
                have hregs := storeArg_regs t s base arg
                have hptr' : ((storeArg t s (.regs base, arg)).tasks t).stack.memoryPtr =
                    memoryPtr := by rw [storeArg_stack, hptr]
                obtain ⟨habove, hfound⟩ := ih (used + roundUp arg.length) ps'
                  (storeArg t s (.regs base, arg)) hfit hptr' h hsum
                have hle : arg.length ≤ roundUp arg.length := Nat.le_add_right _ _
                rw [List.zip_cons_cons, List.foldl_cons]
                refine ⟨fun k hk => ?_, .cons (fun k hk hlt => ?_) hfound⟩
                · rw [habove k (by omega), hregs]
                  exact if_neg (by omega)
                · rw [habove k hk, hregs]
                  unfold copyToRegs
                  rw [if_pos (by omega), hbase]
      · rw [argLocs_stack (by omega), ← List.map_cons] at h ⊢
        rw [spill_gt hfit] at hsum
        have hrest := hsum _ _ rfl
        rw [← List.map_cons] at hrest
        obtain ⟨_, hregs, hfound⟩ := stored_onStack (arg :: args) 0 ps s hptr h (by omega)
        refine ⟨fun k _ => ?_, hfound⟩
        rw [hregs]

omit [DecidableEq τ] in
/-- The stack arguments are the bytes of all of them, one after another. -/
theorem found_onStack_iff {s : Sched τ} (args : List Arg) :
    ∀ offset, List.Forall₂ (s.Found t sp) (stackLocs offset (args.map List.length)) args ↔
      ∀ i, i < args.flatten.length →
        s.mem (sp + 3 + BitVec.ofNat 16 (offset + i)) = args.flatten.getD i 0 := by
  induction args with
  | nil => intro offset; exact ⟨fun _ i hi => absurd hi (Nat.not_lt_zero i), fun _ => .nil⟩
  | cons arg args ih =>
      intro offset
      rw [List.map_cons, stackLocs, List.forall₂_cons, ih, List.flatten_cons, List.length_append]
      constructor
      · rintro ⟨harg, hrest⟩ i hi
        by_cases hlt : i < arg.length
        · rw [harg i hlt, List.getD_append _ _ _ _ hlt]
        · have hbyte := hrest (i - arg.length) (by omega)
          rw [show offset + arg.length + (i - arg.length) = offset + i by omega] at hbyte
          rw [hbyte, List.getD_append_right _ _ _ _ (by omega)]
      · intro h
        refine ⟨fun j hj => ?_, fun i hi => ?_⟩
        · rw [h j (by omega), List.getD_append _ _ _ _ hj]
        · rw [Nat.add_assoc, h (arg.length + i) (by omega),
            List.getD_append_right _ _ _ _ (Nat.le_add_right _ _), Nat.add_sub_cancel_left]

omit [DecidableEq τ] in
/-- What is found depends on the registers and on the bytes of the stack arguments. -/
theorem found_congr {s s' : Sched τ}
    (hregs : (s'.tasks t).cpuState.regs = (s.tasks t).cpuState.regs) (args : List Arg) :
    ∀ used, used ≤ 18 →
      (∀ total rest, spill 18 used (args.map List.length) = some (total, rest) →
        ∀ j, j < rest.sum →
          s'.mem (sp + 3 + BitVec.ofNat 16 j) = s.mem (sp + 3 + BitVec.ofNat 16 j)) →
      List.Forall₂ (s.Found t sp) (argLocs (26 - used) (args.map List.length)) args →
      List.Forall₂ (s'.Found t sp) (argLocs (26 - used) (args.map List.length)) args := by
  induction args with
  | nil => intro _ _ _ _; exact .nil
  | cons arg args ih =>
      intro used hused hmem h
      rw [List.map_cons] at hmem h ⊢
      by_cases hfit : used + roundUp arg.length ≤ 18
      · rw [argLocs_reg (by omega), Nat.sub_sub, List.forall₂_cons] at h ⊢
        rw [spill_le hfit] at hmem
        refine ⟨fun k hk hlt => ?_, ih _ hfit hmem h.2⟩
        rw [hregs]
        exact h.1 k hk hlt
      · rw [argLocs_stack (by omega), ← List.map_cons] at h ⊢
        rw [spill_gt hfit, ← List.map_cons] at hmem
        rw [found_onStack_iff] at h ⊢
        intro i hi
        rw [Nat.zero_add, hmem _ _ rfl i (by rwa [← List.length_flatten])]
        simpa using h i hi

/-- **The entry function finds its arguments**, byte for byte, when they are in place and
the stack arguments and the entry address below them fit in memory. -/
theorem found_of_inPlace {s s' : Sched τ} {fuel : Nat} {a : CreateArgs} {args : List Arg}
    (h : s.createTaskArgs fuel t a args = .ok (false, s')) (hplace : s'.ArgsInPlace t a args)
    (hsum : ∀ total rest, spill 18 0 (args.map List.length) = some (total, rest) →
      rest.sum + 4 ≤ 2 ^ 16) :
    List.Forall₂ (s'.Found t ((s'.tasks t).cpuState.sp + 2)) (argLocs 26 (args.map List.length))
      args := by
  obtain ⟨hsp, s₁, hs₁, hregs, _, hmem⟩ := createTaskArgs_prepares h
  have hptr : (s₁.tasks t).stack.memoryPtr = a.stackArray := by rw [(createTask_prepares hs₁).1]
  obtain ⟨_, hfound⟩ := stored args 0 _ s₁ (by omega) hptr hplace fun total rest hspill => by
    have := hsum total rest hspill
    omega
  refine found_congr (s := s₁.argsStored t a args) hregs args 0 (by omega)
    (fun total rest hspill j hj => ?_) hfound
  have hroom := hsum total rest hspill
  rw [hmem]
  by_cases hbase : stackBytes args ≠ 0
  · -- The entry address lies below the arguments.
    have hbelow : ∀ i : Nat, (i = 1 ∨ i = 2) →
        preparedSp a args + 2 + 3 + BitVec.ofNat 16 j ≠ preparedSp a args + BitVec.ofNat 16 i := by
      intro i hi hc
      have hz : BitVec.ofNat 16 (j + 5) = BitVec.ofNat 16 i := by
        rw [BitVec.ofNat_add]
        grind
      have hnat := congrArg BitVec.toNat hz
      rw [BitVec.toNat_ofNat, BitVec.toNat_ofNat] at hnat
      omega
    have h₁ : preparedSp a args + 2 + 3 + BitVec.ofNat 16 j ≠ preparedSp a args + 1 :=
      hbelow 1 (Or.inl rfl)
    have h₂ : preparedSp a args + 2 + 3 + BitVec.ofNat 16 j ≠ preparedSp a args + 2 :=
      hbelow 2 (Or.inr rfl)
    rw [if_pos hbase, hsp, Function.update_of_ne h₁, Function.update_of_ne h₂]
  · rw [if_neg hbase]

/-- **The entry function finds its arguments**, byte for byte, when they are in place. -/
theorem args_found {s s' : Sched τ} {fuel : Nat} {a : CreateArgs} {args : List Arg}
    (h : s.createTaskArgs fuel t a args = .ok (false, s')) (hplace : s'.ArgsInPlace t a args)
    (hsum : (args.map List.length).sum + 4 ≤ 2 ^ 16) :
    List.Forall₂ (s'.Found t ((s'.tasks t).cpuState.sp + 2)) (argLocs 26 (args.map List.length))
      args := by
  refine found_of_inPlace h hplace fun total rest hspill => ?_
  obtain ⟨pre, hpre⟩ := spill_suffix hspill
  rw [← hpre, List.sum_append] at hsum
  omega

end Stored

/-! ### Arguments of any sizes -/

section Passed

variable {s s₁ s' : Sched τ} {fuel : Nat} {t : τ} {a : CreateArgs} {args : List Arg}
  {sizes rest : List Nat} {total : Nat}

/-- Every argument was put where the entry function looks for it on its first instruction,
and the function finds its bytes there. -/
structure ArgsPassed (s : Sched τ) (t : τ) (a : CreateArgs) (args : List Arg) : Prop where
  inPlace : s.ArgsInPlace t a args
  found : List.Forall₂ (s.Found t ((s.tasks t).cpuState.sp + 2))
    (argLocs 26 (args.map List.length)) args

/-- Once the plain `create_task` has succeeded, the variadic one does. -/
theorem createTaskArgs_of_createTask (h : s.cli.createTask fuel t a = .ok (false, s₁))
    (args : List Arg) : ∃ s', s.createTaskArgs fuel t a args = .ok (false, s') := by
  unfold createTaskArgs
  dsimp only
  rw [h]
  exact ⟨_, rfl⟩

/-- Arguments of given sizes with given bytes. -/
theorem exists_args {bytes : List Byte} (h : bytes.length = sizes.sum) :
    ∃ args : List Arg, args.map List.length = sizes ∧ args.flatten = bytes :=
  ⟨sizes.splitLengths bytes, List.map_splitLengths_length _ _ (Nat.le_of_eq h.symm),
    List.flatten_splitLengths _ _ (Nat.le_of_eq h)⟩

omit [DecidableEq τ] in
/-- Arguments of given sizes, of which those on the stack have given bytes. -/
theorem exists_spilled (hspill : spill 18 0 sizes = some (total, rest)) {bytes : List Byte}
    (hbytes : bytes.length = rest.sum) :
    ∃ args : List Arg, args.map List.length = sizes ∧ ∀ (s : Sched τ) (t : τ) (sp : Word),
      List.Forall₂ (s.Found t sp) (argLocs 26 sizes) args →
        ∀ i, i < bytes.length → s.mem (sp + 3 + BitVec.ofNat 16 i) = bytes.getD i 0 := by
  obtain ⟨pre, locs, rfl, hlen, hlocs⟩ := argLocs_spill (by omega) hspill
  obtain ⟨inRegs, hregs, -⟩ := exists_args (List.length_replicate (a := (0 : Byte)) (n := pre.sum))
  obtain ⟨onStack, hstack, hflat⟩ := exists_args hbytes
  refine ⟨inRegs ++ onStack, by rw [List.map_append, hregs, hstack], ?_⟩
  intro s t sp hfound i hi
  have hlen' : locs.length = inRegs.length := by
    rw [hlen, ← hregs, List.length_map]
  rw [hlocs] at hfound
  have hdrop := List.forall₂_drop locs.length hfound
  rw [List.drop_left, List.drop_left' hlen'.symm, ← hstack, found_onStack_iff, hflat] at hdrop
  have hbyte := hdrop i hi
  rwa [Nat.zero_add] at hbyte

/-- The total with the argument that spills has not wrapped, and something spills. -/
theorem spill_bounds {used : Nat} (hsize : ∀ size ∈ sizes, size ≤ 2 ^ 16 - 0x100)
    (hspill : spill 16 used sizes = some (total, rest)) (hused : used ≤ 16) :
    0 < rest.sum ∧ total < 2 ^ 16 := by
  induction sizes generalizing used with
  | nil => exact absurd hspill (by simp [spill])
  | cons size sizes ih =>
      by_cases hle : used + roundUp size ≤ 16
      · rw [spill_le hle] at hspill
        exact ih (fun x hx => hsize x (List.mem_cons_of_mem _ hx)) hspill hle
      · rw [spill_gt hle] at hspill
        obtain ⟨rfl, rfl⟩ := Prod.mk.inj (Option.some.inj hspill)
        have hmax := hsize size List.mem_cons_self
        unfold roundUp at hle ⊢
        rw [List.sum_cons]
        omega

/-- Where all bytes are found on the stack, they and the entry address fit in memory. -/
theorem fit_of_passed (h : s.cli.createTask fuel t a = .ok (false, s₁))
    (hsize : ∀ size ∈ sizes, size < 2 ^ 16)
    (hpass : ∀ args s', args.map List.length = sizes →
      s.createTaskArgs fuel t a args = .ok (false, s') → s'.ArgsPassed t a args)
    (hspill : spill 16 0 sizes = some (total, rest))
    (hspill' : spill 18 0 sizes = some (total, rest))
    (htotal : total < 2 ^ 16) (hdvd : ¬ 2 ^ 16 ∣ rest.sum) : rest.sum + 4 ≤ 2 ^ 16 := by
  by_contra hover
  by_cases hwrap : 2 ^ 16 < rest.sum
  · -- The first byte and the one 2^16 above it are the same byte of memory.
    have hlen : (1 :: List.replicate (rest.sum - 1) (0 : Byte)).length = rest.sum := by
      rw [List.length_cons, List.length_replicate]
      omega
    obtain ⟨args, hargs, hbyte⟩ := exists_spilled (τ := τ) hspill' hlen
    obtain ⟨s', hs'⟩ := createTaskArgs_of_createTask h args
    have hfound := (hpass args s' hargs hs').found
    rw [hargs] at hfound
    have hfirst := hbyte s' t _ hfound 0 (by omega)
    have hlast := hbyte s' t _ hfound (2 ^ 16) (by omega)
    have hsame : BitVec.ofNat 16 (2 ^ 16) = BitVec.ofNat 16 0 := by decide
    rw [hsame, hfirst, show 2 ^ 16 = (2 ^ 16 - 1) + 1 by rfl, List.getD_cons_zero,
      List.getD_cons_succ, List.getD_replicate _ (by omega)] at hlast
    exact absurd hlast (by decide)
  · -- A byte 4 below the end of the address space is one of the entry address.
    obtain ⟨args, hargs, hbyte⟩ := exists_spilled (τ := τ) hspill'
      (List.length_replicate (a := hi8 a.entry + 1))
    obtain ⟨s', hs'⟩ := createTaskArgs_of_createTask h args
    have hfound := (hpass args s' hargs hs').found
    rw [hargs] at hfound
    obtain ⟨hsp, s₂, -, -, -, hmem⟩ := createTaskArgs_prepares hs'
    have hbase : stackBytes args ≠ 0 := by
      rw [ne_eq, stackBytes_spill (fun arg harg => ?_) (by rw [hargs]; exact hspill) htotal]
      · exact hdvd
      · exact hsize _ (by rw [← hargs]; exact List.mem_map_of_mem harg)
    have hroom : 2 ^ 16 - 4 < rest.sum := by omega
    have hlast := hbyte s' t _ hfound (2 ^ 16 - 4) (by rwa [List.length_replicate])
    have haddr : preparedSp a args + 2 + 3 + BitVec.ofNat 16 (2 ^ 16 - 4) =
        preparedSp a args + 1 := by
      have hwrap : (2 : Word) + 3 + BitVec.ofNat 16 (2 ^ 16 - 4) = 1 := by decide
      rw [BitVec.add_assoc, BitVec.add_assoc, ← BitVec.add_assoc 2, hwrap]
    rw [List.getD_replicate _ hroom, hmem, if_pos hbase, hsp, haddr, Function.update_self] at hlast
    exact absurd hlast (by simp)

/--
**The arguments of a created task.**  Let the sizes of the arguments be given.  Whatever
their bytes, a successful `create_task` passes them if and only if the total of the rounded
sizes never exceeds 16, or the first total that does is not 18 and the sizes from there on
add up to at most 2^16 - 4.
-/
theorem argsPassed_iff (h : s.cli.createTask fuel t a = .ok (false, s₁))
    (hsize : ∀ size ∈ sizes, size ≤ 2 ^ 16 - 0x100) :
    (∀ args s', args.map List.length = sizes →
        s.createTaskArgs fuel t a args = .ok (false, s') → s'.ArgsPassed t a args) ↔
      ∀ total rest, spill 16 0 sizes = some (total, rest) →
        total ≠ 18 ∧ rest.sum + 4 ≤ 2 ^ 16 := by
  have hlen : ∀ size ∈ sizes, size < 2 ^ 16 := by
    intro size hmem
    have := hsize size hmem
    omega
  have hplace : ∀ args s', args.map List.length = sizes →
      s.createTaskArgs fuel t a args = .ok (false, s') →
      (s'.ArgsInPlace t a args ↔ ∀ total rest, spill 16 0 sizes = some (total, rest) →
        total ≠ 18 ∧ total < 2 ^ 16 ∧ ¬ 2 ^ 16 ∣ rest.sum) := by
    intro args s' hargs hs'
    rw [← hargs]
    refine argsInPlace_iff hs' fun arg harg => hlen _ ?_
    rw [← hargs]
    exact List.mem_map_of_mem harg
  constructor
  · intro hpass total rest hspill
    obtain ⟨args, hargs, -⟩ :=
      exists_args (List.length_replicate (a := (0 : Byte)) (n := sizes.sum))
    obtain ⟨s', hs'⟩ := createTaskArgs_of_createTask h args
    have hin := (hplace args s' hargs hs').mp (hpass args s' hargs hs').inPlace
    obtain ⟨h18, htotal, hdvd⟩ := hin total rest hspill
    refine ⟨h18, fit_of_passed h hlen hpass hspill ?_ htotal hdvd⟩
    rw [spill_of_ne rfl fun total rest hspill => (hin total rest hspill).1]
    exact hspill
  · intro hfit args s' hargs hs'
    have heq : spill 18 0 sizes = spill 16 0 sizes :=
      spill_of_ne rfl fun total rest hspill => (hfit total rest hspill).1
    have hin : s'.ArgsInPlace t a args := by
      refine (hplace args s' hargs hs').mpr fun total rest hspill => ?_
      obtain ⟨h18, hroom⟩ := hfit total rest hspill
      obtain ⟨hpos, htotal⟩ := spill_bounds hsize hspill (by omega)
      exact ⟨h18, htotal, Nat.not_dvd_of_pos_of_lt hpos (by omega)⟩
    refine ⟨hin, found_of_inPlace hs' hin fun total rest hspill => ?_⟩
    rw [hargs, heq] at hspill
    exact (hfit total rest hspill).2

end Passed

/-! ### Two argument lists -/

/-- A task with a stack of 64 bytes. -/
def argsTask : CreateArgs where
  stackArray := 0x200
  stackSize := 64
  name := [0x61]
  priority := 1
  sliceMs := 1
  entry := 0x456

/-- No task exists yet. -/
def argsSched : Sched Unit := empty (fun _ => TaskData.zero) (fun _ => 0) 0x80

theorem createTaskArgs_argsSched (args : List Arg) :
    ∃ s', argsSched.createTaskArgs 0 () argsTask args = .ok (false, s') := ⟨_, rfl⟩

/-- The last three bytes are found on the stack. -/
theorem args_found_stack : ∃ s', argsSched.createTaskArgs 0 () argsTask
      [[1], List.replicate 14 2, [3, 4, 5]] = .ok (false, s') ∧
    List.Forall₂ (s'.Found () ((s'.tasks ()).cpuState.sp + 2)) [.reg 24, .reg 10, .stack 0]
      [[1], List.replicate 14 2, [3, 4, 5]] := by
  obtain ⟨s', hs'⟩ := createTaskArgs_argsSched [[1], List.replicate 14 2, [3, 4, 5]]
  refine ⟨s', hs', args_found hs' ?_ (by decide)⟩
  unfold ArgsInPlace
  rw [(createTaskArgs_prepares hs').1, show places argsTask.stackSize
    [[1], List.replicate 14 2, [3, 4, 5]] = [.regs 24, .regs 10, .stack 60] by decide]
  exact .cons rfl (.cons rfl (.cons rfl .nil))

/-- A byte, 14 bytes, 5 bytes and a word: the first two arguments use r25 down to r10,
the others the stack. -/
theorem argsPassed_spilled :
    ∃ s', argsSched.createTaskArgs 0 () argsTask
        [[1], List.replicate 14 2, List.replicate 5 3, [4, 4]] = .ok (false, s') ∧
      s'.ArgsPassed () argsTask [[1], List.replicate 14 2, List.replicate 5 3, [4, 4]] := by
  obtain ⟨s', hs'⟩ :=
    createTaskArgs_argsSched [[1], List.replicate 14 2, List.replicate 5 3, [4, 4]]
  obtain ⟨s₁, hs₁, -⟩ := createTaskArgs_succeeds hs'
  have hsize : ∀ size ∈ [1, 14, 5, 2], size ≤ 2 ^ 16 - 0x100 := by decide
  refine ⟨s', hs', (argsPassed_iff hs₁ hsize).mpr ?_ _ s' rfl hs'⟩
  intro total rest h
  obtain ⟨rfl, rfl⟩ := Prod.mk.inj (Option.some.inj h)
  decide

/-- After 16 bytes in r25 down to r10, the word that belongs in r9 and r8 goes on the stack. -/
theorem last_pair_unused :
    argLocs 26 [16, 2] = [.reg 10, .reg 8] ∧
      places argsTask.stackSize [List.replicate 16 1, [0x34, 0x12]] = [.regs 10, .stack 61] ∧
      ∃ s', argsSched.createTaskArgs 0 () argsTask [List.replicate 16 1, [0x34, 0x12]] =
          .ok (false, s') ∧ (s'.tasks ()).cpuState.regs 8 = 0 ∧
        ¬ s'.ArgsPassed () argsTask [List.replicate 16 1, [0x34, 0x12]] := by
  obtain ⟨s', hs'⟩ := createTaskArgs_argsSched [List.replicate 16 1, [0x34, 0x12]]
  have hr8 : (s'.tasks ()).cpuState.regs 8 = 0 := by
    rw [← (Prod.mk.inj (Except.ok.inj hs')).2]
    rfl
  refine ⟨by decide, by decide, s', hs', hr8, fun h => ?_⟩
  have hfound := h.found
  rw [show argLocs 26 (List.map List.length [List.replicate 16 (1 : Byte), [0x34, 0x12]]) =
    [.reg 10, .reg 8] by decide] at hfound
  have hlow := (List.forall₂_cons.mp (List.forall₂_cons.mp hfound).2).1 8 (by decide) (by decide)
  rw [hr8] at hlow
  exact absurd hlow (by decide)

end Sched

end AtmegaScheduler
