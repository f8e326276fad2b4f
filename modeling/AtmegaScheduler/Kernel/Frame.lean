/-
The first frame of a task.

The two passes over the arguments are separate recursions with separate counts of the
stack bytes.  They agree because the test both make reads neither count: it reads the
registers used so far and whether an argument has gone to the stack, and both passes move
these alike.

So the second pass subtracts exactly what the first one added.  The registers are handed
out from the top down and the stack bytes from the bottom up, and the places of the
arguments follow one another without gaps.  Below the first stack argument lie the two
bytes of the entry address, and one more for the restore, which passes r30 and r31
through the two bytes below that address.
-/
import AtmegaScheduler.Kernel.Args
import AtmegaScheduler.Kernel.Restore
import AtmegaScheduler.Kernel.Startup

namespace AtmegaScheduler

open Avr

/-- An object has a size, and lies in the data space above the registers and the I/O. -/
def Arg.IsObject (arg : Arg) : Prop := 1 ≤ arg.length ∧ arg.length ≤ 2 ^ 16 - 0x100

/-! ### The two passes -/

/-- Which arguments a pass sends to the stack, when `next` moves its three variables. -/
def toStack (next : ArgCursor → Word → ArgCursor) : ArgCursor → List Arg → List Bool
  | _, [] => []
  | c, arg :: args => (!c.fits arg.size) :: toStack next (next c arg.size) args

/-- The total size of the arguments that go to the stack. -/
def spilled : ArgCursor → List Arg → Nat
  | _, [] => 0
  | c, arg :: args =>
      (if c.fits arg.size then 0 else arg.length) + spilled (calcSizes c arg.size) args

/-- `stack_used` comes down to 0, and nothing is subtracted that it does not hold. -/
def CountsDown : ArgCursor → List Arg → Prop
  | c, [] => c.stackUsed = 0
  | c, arg :: args =>
      (c.fits arg.size = false → arg.length ≤ c.stackUsed.toNat) ∧
        CountsDown (c.advance arg.size) args

/-- What the test reads is the same in both cursors. -/
structure Alike (c c' : ArgCursor) : Prop where
  argsToStack : c.argsToStack = c'.argsToStack
  regsUsed : c.regsUsed = c'.regsUsed

theorem Alike.fits {c c' : ArgCursor} (h : Alike c c') (argSize : Word) :
    c.fits argSize = c'.fits argSize := by
  unfold ArgCursor.fits
  rw [h.argsToStack, h.regsUsed]

theorem Alike.calcSizes {c c' : ArgCursor} (h : Alike c c') (argSize : Word) :
    Alike (calcSizes c argSize) (AtmegaScheduler.calcSizes c' argSize) := by
  unfold AtmegaScheduler.calcSizes
  rw [h.fits]
  split
  · exact ⟨h.argsToStack, by rw [h.regsUsed]⟩
  · exact ⟨rfl, h.regsUsed⟩

theorem alike_advance (c : ArgCursor) (argSize : Word) :
    Alike (calcSizes c argSize) (c.advance argSize) := by
  unfold calcSizes ArgCursor.advance
  split
  · exact ⟨rfl, rfl⟩
  · exact ⟨rfl, rfl⟩

theorem Alike.symm {c c' : ArgCursor} (h : Alike c c') : Alike c' c :=
  ⟨h.argsToStack.symm, h.regsUsed.symm⟩

theorem Alike.trans {c₁ c₂ c₃ : ArgCursor} (h : Alike c₁ c₂) (h' : Alike c₂ c₃) : Alike c₁ c₃ :=
  ⟨h.argsToStack.trans h'.argsToStack, h.regsUsed.trans h'.regsUsed⟩

/-- **The two passes take the same branch** at every argument. -/
theorem toStack_eq (args : List Arg) : ∀ {c c' : ArgCursor}, Alike c c' →
    toStack calcSizes c args = toStack ArgCursor.advance c' args := by
  induction args with
  | nil => intro c c' _; rfl
  | cons arg args ih =>
      intro c c' h
      rw [toStack, toStack, h.fits, ih ((h.calcSizes arg.size).trans (alike_advance c' arg.size))]

theorem spilled_congr (args : List Arg) : ∀ {c c' : ArgCursor}, Alike c c' →
    spilled c args = spilled c' args := by
  induction args with
  | nil => intro c c' _; rfl
  | cons arg args ih =>
      intro c c' h
      rw [spilled, spilled, h.fits, ih (h.calcSizes arg.size)]

/-- What the first pass counts. -/
theorem calcSizes_counts (args : List Arg) : ∀ c : ArgCursor,
    ((args.map Arg.size).foldl calcSizes c).stackUsed =
      c.stackUsed + BitVec.ofNat 16 (spilled c args) := by
  induction args with
  | nil => intro c; exact (BitVec.add_zero c.stackUsed).symm
  | cons arg args ih =>
      intro c
      rw [List.map_cons, List.foldl_cons, ih, spilled]
      by_cases hfits : c.fits arg.size = true
      · have hused : (calcSizes c arg.size).stackUsed = c.stackUsed := by
          unfold calcSizes
          rw [if_pos hfits]
        rw [hused, if_pos hfits, Nat.zero_add]
      · have hused : (calcSizes c arg.size).stackUsed = c.stackUsed + arg.size := by
          unfold calcSizes
          rw [if_neg hfits]
        rw [hused, if_neg hfits, BitVec.ofNat_add, BitVec.add_assoc]
        rfl

/-- An argument that goes to the stack in the second pass. -/
theorem spilled_cons {c : ArgCursor} {arg : Arg} {args : List Arg} :
    spilled c (arg :: args) =
      (if c.fits arg.size then 0 else arg.length) + spilled (c.advance arg.size) args := by
  rw [spilled, spilled_congr args (alike_advance c arg.size)]

/-- The count that the second pass has left, after one more argument. -/
theorem stackUsed_advance {c : ArgCursor} {arg : Arg} {args : List Arg} (hlen : arg.length < 2 ^ 16)
    (hused : c.stackUsed.toNat = spilled c (arg :: args)) :
    (c.advance arg.size).stackUsed.toNat = spilled (c.advance arg.size) args := by
  rw [spilled_cons] at hused
  by_cases hfits : c.fits arg.size = true
  · rw [if_pos hfits, Nat.zero_add] at hused
    rw [← hused, ArgCursor.advance_of_fits hfits]
  · rw [if_neg hfits] at hused
    have hsize : arg.size.toNat = arg.length := Nat.mod_eq_of_lt hlen
    have hsub : (c.advance arg.size).stackUsed = c.stackUsed - arg.size := by
      rw [ArgCursor.advance_of_spills hfits]
    have hlt := c.stackUsed.isLt
    rw [hsub, BitVec.toNat_sub, hsize]
    omega

theorem countsDown (args : List Arg) : ∀ c : ArgCursor, (∀ arg ∈ args, arg.length < 2 ^ 16) →
    c.stackUsed.toNat = spilled c args → CountsDown c args := by
  induction args with
  | nil =>
      intro c _ hused
      exact BitVec.eq_of_toNat_eq hused
  | cons arg args ih =>
      intro c hlen hused
      refine ⟨fun hfits => ?_, ih _ (fun x hx => hlen x (List.mem_cons_of_mem _ hx))
        (stackUsed_advance (hlen arg List.mem_cons_self) hused)⟩
      rw [hused, spilled_cons, hfits, if_neg Bool.false_ne_true]
      exact Nat.le_add_right _ _

/-! ### The places -/

/-- The destination of every argument. -/
def placed (stackSize : Word) (args : List Arg) : List (ArgLoc × Arg) :=
  (Sched.places stackSize args).zip args

/-- Registers from the top down, the next argument below the last, and stack bytes from
index `start` up to `stop`, without a gap. -/
def Laid : Nat → Nat → Nat → List (ArgLoc × Arg) → Prop
  | _, start, stop, [] => start = stop
  | top, start, stop, (.regs base, arg) :: ps =>
      8 ≤ base.toNat ∧ base.toNat + arg.length ≤ top ∧ Laid base.toNat start stop ps
  | top, start, stop, (.stack index, arg) :: ps =>
      index.toNat = start ∧ Laid top (start + arg.length) stop ps

theorem laid_places (stackSize : Word) (args : List Arg) :
    ∀ (used : Nat) (c : ArgCursor), c.regsUsed = BitVec.ofNat 16 used → used ≤ 16 →
      (∀ arg ∈ args, arg.IsObject) → c.stackUsed.toNat = spilled c args →
      spilled c args + 1 ≤ stackSize.toNat →
      Laid (26 - used) (stackSize.toNat - spilled c args - 1) (stackSize.toNat - 1)
        ((argPlaces stackSize c args).zip args) := by
  induction args with
  | nil =>
      intro used c _ _ _ _ hroom
      show stackSize.toNat - 0 - 1 = _
      rw [Nat.sub_zero]
  | cons arg args ih =>
      intro used c hused hle hobj hcount hroom
      obtain ⟨-, hmax⟩ := hobj arg List.mem_cons_self
      have hlen : arg.length < 2 ^ 16 := by omega
      have hcount' := stackUsed_advance hlen hcount
      rw [argPlaces, List.zip_cons_cons]
      rw [spilled_cons] at hcount hroom ⊢
      by_cases hfits : c.fits arg.size = true
      · rw [if_pos hfits, Nat.zero_add] at hcount hroom ⊢
        have hc : c = ⟨false, BitVec.ofNat 16 used, c.stackUsed⟩ := by
          have hregs : c.argsToStack = false := by
            unfold ArgCursor.fits at hfits
            simpa using (Bool.and_eq_true_iff.mp hfits).2
          rw [← hused, ← hregs]
        have hround : used + roundUp arg.length ≤ 16 := by
          rw [hc] at hfits
          have hsmall := (Sched.fits_iff used hlen c.stackUsed).mp hfits
          unfold roundUp at hsmall ⊢
          omega
        obtain ⟨base, hbase, hplace, hnext⟩ := Sched.argLoc_fits stackSize c.stackUsed hlen hround
        rw [← hc] at hplace hnext
        have hrest := ih (used + roundUp arg.length) (c.advance arg.size) (by rw [hnext]) hround
          (fun x hx => hobj x (List.mem_cons_of_mem _ hx)) hcount' hroom
        have hup : arg.length ≤ roundUp arg.length := Nat.le_add_right _ _
        rw [hplace]
        refine ⟨by omega, by omega, ?_⟩
        rw [hbase, show 26 - used - roundUp arg.length = 26 - (used + roundUp arg.length) by omega]
        exact hrest
      · rw [if_neg hfits] at hcount hroom ⊢
        have hregs : (c.advance arg.size).regsUsed = BitVec.ofNat 16 used := by
          rw [ArgCursor.advance_of_spills hfits]
          exact hused
        have hrest := ih used (c.advance arg.size) hregs hle
          (fun x hx => hobj x (List.mem_cons_of_mem _ hx)) hcount' (by omega)
        have hone : (1 : Word).toNat = 1 := rfl
        have hlt := stackSize.isLt
        rw [argLoc_of_spills hfits]
        refine ⟨?_, ?_⟩
        · rw [BitVec.toNat_sub, BitVec.toNat_sub, hone, hcount]
          omega
        · rw [show stackSize.toNat - (arg.length + spilled (c.advance arg.size) args) - 1 + arg.length =
            stackSize.toNat - spilled (c.advance arg.size) args - 1 by omega]
          exact hrest

section Laid

variable {top start stop : Nat} {ps : List (ArgLoc × Arg)}

theorem Laid.start_le (h : Laid top start stop ps) : start ≤ stop := by
  induction ps generalizing top start with
  | nil => exact Nat.le_of_eq h
  | cons p ps ih =>
      obtain ⟨l, arg⟩ := p
      cases l with
      | regs base => exact ih h.2.2
      | stack index => exact Nat.le_of_add_right_le (ih h.2)

/-- The registers of an argument. -/
theorem Laid.regs (h : Laid top start stop ps) {base : Byte} {arg : Arg}
    (hp : (ArgLoc.regs base, arg) ∈ ps) : 8 ≤ base.toNat ∧ base.toNat + arg.length ≤ top := by
  induction ps generalizing top start with
  | nil => exact absurd hp List.not_mem_nil
  | cons p ps ih =>
      obtain ⟨l, arg'⟩ := p
      cases l with
      | regs base' =>
          obtain ⟨hlo, hhi, hrest⟩ := h
          rcases List.mem_cons.mp hp with heq | hp
          · obtain ⟨hl, harg⟩ := Prod.mk.inj heq
            rw [ArgLoc.regs.inj hl, harg]
            exact ⟨hlo, hhi⟩
          · obtain ⟨hlo', hhi'⟩ := ih hrest hp
            exact ⟨hlo', by omega⟩
      | stack index =>
          rcases List.mem_cons.mp hp with heq | hp
          · exact absurd (Prod.mk.inj heq).1 (by simp)
          · exact ih h.2 hp

/-- The stack bytes of an argument. -/
theorem Laid.stack (h : Laid top start stop ps) {index : Word} {arg : Arg}
    (hp : (ArgLoc.stack index, arg) ∈ ps) :
    start ≤ index.toNat ∧ index.toNat + arg.length ≤ stop := by
  induction ps generalizing top start with
  | nil => exact absurd hp List.not_mem_nil
  | cons p ps ih =>
      obtain ⟨l, arg'⟩ := p
      cases l with
      | regs base =>
          rcases List.mem_cons.mp hp with heq | hp
          · exact absurd (Prod.mk.inj heq).1 (by simp)
          · exact ih h.2.2 hp
      | stack index' =>
          obtain ⟨hindex, hrest⟩ := h
          rcases List.mem_cons.mp hp with heq | hp
          · obtain ⟨hl, harg⟩ := Prod.mk.inj heq
            rw [ArgLoc.stack.inj hl, harg, hindex]
            exact ⟨Nat.le_refl _, hrest.start_le⟩
          · obtain ⟨hlo, hhi⟩ := ih hrest hp
            exact ⟨by omega, hhi⟩

/-- The registers of a later argument are below those of an earlier one. -/
def Below (p q : ArgLoc × Arg) : Prop :=
  ∀ base base', p.1 = .regs base → q.1 = .regs base' → base'.toNat + q.2.length ≤ base.toNat

theorem Laid.pairwise (h : Laid top start stop ps) : ps.Pairwise Below := by
  induction ps generalizing top start with
  | nil => exact .nil
  | cons p ps ih =>
      obtain ⟨l, arg⟩ := p
      cases l with
      | regs base =>
          refine .cons (fun q hq base₁ base₂ h₁ h₂ => ?_) (ih h.2.2)
          obtain ⟨l', arg'⟩ := q
          obtain rfl : l' = .regs base₂ := h₂
          rw [← ArgLoc.regs.inj h₁]
          exact (h.2.2.regs hq).2
      | stack index =>
          exact .cons (fun q _ base₁ _ h₁ _ => absurd h₁ (by simp)) (ih h.2)

/-- The index and the size of every stack argument. -/
def stackSpans (ps : List (ArgLoc × Arg)) : List (Nat × Nat) :=
  ps.filterMap fun p =>
    match p.1 with
    | .regs _ => none
    | .stack index => some (index.toNat, p.2.length)

/-- One span after another, from `start` up to `stop`. -/
def Contiguous : Nat → Nat → List (Nat × Nat) → Prop
  | start, stop, [] => start = stop
  | start, stop, (index, size) :: spans => index = start ∧ Contiguous (start + size) stop spans

theorem Laid.contiguous (h : Laid top start stop ps) : Contiguous start stop (stackSpans ps) := by
  induction ps generalizing top start with
  | nil => exact h
  | cons p ps ih =>
      obtain ⟨l, arg⟩ := p
      cases l with
      | regs base => exact ih h.2.2
      | stack index => exact ⟨h.1, ih h.2⟩

end Laid

namespace Sched

variable {τ : Type} [DecidableEq τ] {t : τ}

/-- The bytes of an argument are at its place, on a stack at `memoryPtr`. -/
def HoldsArg (s : Sched τ) (t : τ) (memoryPtr : Word) : ArgLoc × Arg → Prop
  | (.regs base, arg) => ∀ k : Reg, base.toNat ≤ k.val → k.val < base.toNat + arg.length →
      (s.tasks t).cpuState.regs k = arg.getD (k.val - base.toNat) 0
  | (.stack index, arg) => ∀ j, j < arg.length →
      s.mem (memoryPtr + BitVec.ofNat 16 (index.toNat + j)) = arg.getD j 0

/-- **Copying the arguments** to places that do not overlap: each is there in the end, and
nothing else has changed. -/
theorem stored_laid {memoryPtr : Word} {stop : Nat} (hstop : stop < 2 ^ 16)
    (ps : List (ArgLoc × Arg)) :
    ∀ (top start : Nat) (s : Sched τ), (s.tasks t).stack.memoryPtr = memoryPtr →
      Laid top start stop ps →
      (∀ k : Reg, top ≤ k.val → ((ps.foldl (storeArg t) s).tasks t).cpuState.regs k =
        (s.tasks t).cpuState.regs k) ∧
      (∀ m, m < 2 ^ 16 → (m < start ∨ stop ≤ m) →
        (ps.foldl (storeArg t) s).mem (memoryPtr + BitVec.ofNat 16 m) =
          s.mem (memoryPtr + BitVec.ofNat 16 m)) ∧
      ∀ p ∈ ps, (ps.foldl (storeArg t) s).HoldsArg t memoryPtr p := by
  induction ps with
  | nil => intro top start s _ _; exact ⟨fun _ _ => rfl, fun _ _ _ => rfl, by simp⟩
  | cons p ps ih =>
      intro top start s hptr h
      obtain ⟨l, arg⟩ := p
      have hptr' : ((storeArg t s (l, arg)).tasks t).stack.memoryPtr = memoryPtr := by
        rw [storeArg_stack, hptr]
      rw [List.foldl_cons]
      cases l with
      | regs base =>
          obtain ⟨hlo, hhi, hrest⟩ := h
          have hregs := storeArg_regs t s base arg
          obtain ⟨habove, hmem, hheld⟩ := ih base.toNat start _ hptr' hrest
          refine ⟨fun k hk => ?_, hmem, fun p hp => ?_⟩
          · rw [habove k (by omega), hregs]
            exact if_neg (by omega)
          · rcases List.mem_cons.mp hp with rfl | hp
            · intro k hk hlt
              rw [habove k hk, hregs]
              exact if_pos ⟨hk, hlt⟩
            · exact hheld p hp
      | stack index =>
          obtain ⟨hindex, hrest⟩ := h
          have hle := hrest.start_le
          have hstored : (storeArg t s (.stack index, arg)).mem =
              memcpy s.mem (memoryPtr + BitVec.ofNat 16 start) arg := by
            show memcpy s.mem ((s.tasks t).stack.memoryPtr + index) arg = _
            rw [hptr, ← hindex, BitVec.ofNat_toNat, BitVec.setWidth_eq]
          have hdist : ∀ m, m < 2 ^ 16 → (memoryPtr + BitVec.ofNat 16 m -
              (memoryPtr + BitVec.ofNat 16 start)).toNat =
                if start ≤ m then m - start else 2 ^ 16 + m - start :=
            fun m hm => toNat_offset_sub memoryPtr (by omega) hm
          obtain ⟨habove, hmem, hheld⟩ := ih top (start + arg.length) _ hptr' hrest
          refine ⟨habove, fun m hm hout => ?_, fun p hp => ?_⟩
          · rw [hmem m hm (by omega), hstored]
            refine if_neg ?_
            rw [hdist m hm]
            split <;> omega
          · rcases List.mem_cons.mp hp with rfl | hp
            · intro j hj
              rw [hindex, hmem _ (by omega) (by omega), hstored]
              unfold memcpy
              rw [hdist _ (by omega), if_pos (by omega : start ≤ start + j),
                Nat.add_sub_cancel_left, if_pos hj]
            · exact hheld p hp

/-! ### What `create_task` leaves -/

/-- The stack bytes of all arguments. -/
def frameBytes (args : List Arg) : Nat := spilled ⟨false, 0, 0⟩ args

/-- The index of the stack pointer. -/
def spIndex (stackSize : Word) (args : List Arg) : Nat :=
  if frameBytes args ≠ 0 then stackSize.toNat - frameBytes args - 6 else stackSize.toNat - 3

/-- Either `create_task`; overload resolution takes the plain one without arguments. -/
def Creates (s : Sched τ) (fuel : Nat) (t : τ) (a : CreateArgs) (args : List Arg) (s' : Sched τ) :
    Prop :=
  (args = [] ∧ s.createTask fuel t a = .ok (false, s')) ∨
    s.createTaskArgs fuel t a args = .ok (false, s')

section Created

variable {s s' : Sched τ} {fuel : Nat} {a : CreateArgs} {args : List Arg}

/-- The count of the first pass does not wrap. -/
theorem stackBytes_toNat (hsize : frameBytes args + 7 ≤ a.stackSize.toNat) :
    (stackBytes args).toNat = frameBytes args := by
  have hcount : stackBytes args = BitVec.ofNat 16 (frameBytes args) :=
    (calcSizes_counts args ⟨false, 0, 0⟩).trans (BitVec.zero_add _)
  have hlt := a.stackSize.isLt
  rw [hcount, BitVec.toNat_ofNat]
  omega

theorem stackBytes_ne_zero (hsize : frameBytes args + 7 ≤ a.stackSize.toNat) :
    stackBytes args ≠ 0 ↔ frameBytes args ≠ 0 := by
  rw [← stackBytes_toNat hsize]
  refine not_congr ⟨fun h => by rw [h]; rfl, fun h => BitVec.eq_of_toNat_eq h⟩

theorem frame_laid (hobj : ∀ arg ∈ args, arg.IsObject)
    (hsize : frameBytes args + 7 ≤ a.stackSize.toNat) :
    Laid 26 (a.stackSize.toNat - frameBytes args - 1) (a.stackSize.toNat - 1)
      (placed a.stackSize args) := by
  have halike : Alike ⟨false, 0, stackBytes args⟩ ⟨false, 0, 0⟩ := ⟨rfl, rfl⟩
  have hspilled : spilled ⟨false, 0, stackBytes args⟩ args = frameBytes args :=
    spilled_congr args halike
  have hlaid := laid_places a.stackSize args 0 ⟨false, 0, stackBytes args⟩ rfl (by omega) hobj
    (by rw [hspilled]; exact stackBytes_toNat hsize) (by rw [hspilled]; omega)
  rw [hspilled] at hlaid
  exact hlaid

/-- The stack pointer that `create_task` sets. -/
theorem preparedSp_eq (hsize : frameBytes args + 7 ≤ a.stackSize.toNat) :
    preparedSp a args = a.stackArray + BitVec.ofNat 16 (spIndex a.stackSize args) := by
  have hlt := a.stackSize.isLt
  have hsix : (6 : Word).toNat = 6 := rfl
  have hthree : (3 : Word).toNat = 3 := rfl
  unfold preparedSp spIndex
  refine congrArg (a.stackArray + ·) (BitVec.eq_of_toNat_eq ?_)
  by_cases hbase : frameBytes args ≠ 0
  · rw [if_pos ((stackBytes_ne_zero hsize).mpr hbase), if_pos hbase, BitVec.toNat_sub,
      BitVec.toNat_sub, hsix, stackBytes_toNat hsize, BitVec.toNat_ofNat]
    omega
  · rw [if_neg (mt (stackBytes_ne_zero hsize).mp hbase), if_neg hbase, BitVec.toNat_sub, hthree,
      BitVec.toNat_ofNat]
    omega

theorem offset_inj (ptr : Word) {m n : Nat} (hm : m < 2 ^ 16) (hn : n < 2 ^ 16) (hne : m ≠ n) :
    ptr + BitVec.ofNat 16 m ≠ ptr + BitVec.ofNat 16 n := by
  intro h
  have hmn := congrArg BitVec.toNat ((BitVec.add_right_inj ptr).mp h)
  rw [BitVec.toNat_ofNat, BitVec.toNat_ofNat] at hmn
  omega

/-- The registers and the stack that a task starts with. -/
structure Framed (s' : Sched τ) (t : τ) (a : CreateArgs) (args : List Arg) : Prop where
  sreg : (s'.tasks t).cpuState.sreg = 0x80
  sp : (s'.tasks t).cpuState.sp = a.stackArray + BitVec.ofNat 16 (spIndex a.stackSize args)
  pcHi : s'.mem (a.stackArray + BitVec.ofNat 16 (spIndex a.stackSize args + 1)) = hi8 a.entry
  pcLo : s'.mem (a.stackArray + BitVec.ofNat 16 (spIndex a.stackSize args + 2)) = lo8 a.entry
  args : ∀ p ∈ placed a.stackSize args, s'.HoldsArg t a.stackArray p

/-- The plain `create_task` puts the entry address at the end of the stack. -/
theorem createTask_entry (h : s.createTask fuel t a = .ok (false, s'))
    (hsize : 7 ≤ a.stackSize.toNat) :
    s'.mem (a.stackArray + BitVec.ofNat 16 (a.stackSize.toNat - 2)) = hi8 a.entry ∧
      s'.mem (a.stackArray + BitVec.ofNat 16 (a.stackSize.toNat - 1)) = lo8 a.entry := by
  obtain ⟨-, -, -, hmem⟩ := createTask_prepares h
  have hlt := a.stackSize.isLt
  have hone : a.stackSize - 1 = BitVec.ofNat 16 (a.stackSize.toNat - 1) := by
    refine BitVec.eq_of_toNat_eq ?_
    rw [BitVec.toNat_sub, BitVec.toNat_ofNat, show (1 : Word).toNat = 1 from rfl]
    omega
  have htwo : a.stackSize - 2 = BitVec.ofNat 16 (a.stackSize.toNat - 2) := by
    refine BitVec.eq_of_toNat_eq ?_
    rw [BitVec.toNat_sub, BitVec.toNat_ofNat, show (2 : Word).toNat = 2 from rfl]
    omega
  have hne := offset_inj a.stackArray (by omega) (by omega)
    (by omega : a.stackSize.toNat - 1 ≠ a.stackSize.toNat - 2)
  rw [hmem, hone, htwo, Function.update_self, Function.update_of_ne hne, Function.update_self]
  exact ⟨rfl, rfl⟩

/-- The memory with the entry address below the stack arguments, if there are any. -/
def entryBelow (mem : Word → Byte) (a : CreateArgs) (args : List Arg) : Word → Byte :=
  if frameBytes args ≠ 0 then
    Function.update
      (Function.update mem
        (a.stackArray + BitVec.ofNat 16 (spIndex a.stackSize args + 2)) (lo8 a.entry))
      (a.stackArray + BitVec.ofNat 16 (spIndex a.stackSize args + 1)) (hi8 a.entry)
  else mem

/-- The entry address does not overlap the arguments. -/
theorem entryBelow_args (mem : Word → Byte) (hsize : frameBytes args + 7 ≤ a.stackSize.toNat)
    {m : Nat} (hlo : a.stackSize.toNat - frameBytes args - 1 ≤ m) (hhi : m < a.stackSize.toNat) :
    entryBelow mem a args (a.stackArray + BitVec.ofNat 16 m) =
      mem (a.stackArray + BitVec.ofNat 16 m) := by
  have hlt := a.stackSize.isLt
  unfold entryBelow
  by_cases hbase : frameBytes args ≠ 0
  · have hidx : spIndex a.stackSize args = a.stackSize.toNat - frameBytes args - 6 :=
      if_pos hbase
    rw [if_pos hbase, Function.update_of_ne (offset_inj _ (by omega) (by omega) (by omega)),
      Function.update_of_ne (offset_inj _ (by omega) (by omega) (by omega))]
  · rw [if_neg hbase]

/-- The entry address is where the stack pointer says. -/
theorem entryBelow_entry (mem : Word → Byte) (hsize : frameBytes args + 7 ≤ a.stackSize.toNat)
    (hhi : frameBytes args = 0 →
      mem (a.stackArray + BitVec.ofNat 16 (a.stackSize.toNat - 2)) = hi8 a.entry)
    (hlo : frameBytes args = 0 →
      mem (a.stackArray + BitVec.ofNat 16 (a.stackSize.toNat - 1)) = lo8 a.entry) :
    entryBelow mem a args (a.stackArray + BitVec.ofNat 16 (spIndex a.stackSize args + 1)) =
        hi8 a.entry ∧
      entryBelow mem a args (a.stackArray + BitVec.ofNat 16 (spIndex a.stackSize args + 2)) =
        lo8 a.entry := by
  have hlt := a.stackSize.isLt
  unfold entryBelow
  by_cases hbase : frameBytes args ≠ 0
  · have hidx : spIndex a.stackSize args = a.stackSize.toNat - frameBytes args - 6 :=
      if_pos hbase
    rw [if_pos hbase, Function.update_self,
      Function.update_of_ne (offset_inj _ (by omega) (by omega) (by omega)), Function.update_self]
    exact ⟨rfl, rfl⟩
  · have hidx : spIndex a.stackSize args = a.stackSize.toNat - 3 := if_neg hbase
    rw [if_neg hbase, hidx, show a.stackSize.toNat - 3 + 1 = a.stackSize.toNat - 2 by omega,
      show a.stackSize.toNat - 3 + 2 = a.stackSize.toNat - 1 by omega]
    exact ⟨hhi (not_ne_iff.mp hbase), hlo (not_ne_iff.mp hbase)⟩

/-- **Either `create_task`** leaves the frame. -/
theorem Creates.framed (h : s.Creates fuel t a args s') (hobj : ∀ arg ∈ args, arg.IsObject)
    (hsize : frameBytes args + 7 ≤ a.stackSize.toNat) : s'.Framed t a args := by
  have hlt := a.stackSize.isLt
  have hsp₀ := preparedSp_eq hsize
  rcases h with ⟨rfl, h⟩ | h
  · obtain ⟨hhi, hlo⟩ := createTask_entry h (by omega)
    obtain ⟨-, hsreg, hsp, -⟩ := createTask_prepares h
    obtain ⟨hpcHi, hpcLo⟩ := entryBelow_entry s'.mem hsize (fun _ => hhi) (fun _ => hlo)
    exact ⟨hsreg, hsp.trans hsp₀, hpcHi, hpcLo, fun p hp => absurd hp List.not_mem_nil⟩
  · obtain ⟨hsp, s₁, hs₁, hregs, hsreg, hmem⟩ := createTaskArgs_prepares h
    have hsreg' : (s'.tasks t).cpuState.sreg = 0x80 := by
      obtain ⟨regs, hkeep⟩ := storeArgs_task t ((places a.stackSize args).zip args) s₁
      rw [hsreg]
      unfold argsStored
      rw [hkeep]
      exact (createTask_prepares hs₁).2.1
    have hlaid := frame_laid hobj hsize
    have hptr : (s₁.tasks t).stack.memoryPtr = a.stackArray := by
      rw [(createTask_prepares hs₁).1]
    obtain ⟨-, hkept, hheld⟩ := stored_laid (t := t) (by omega) _ 26 _ s₁ hptr hlaid
    have hnext : ∀ n, preparedSp a args + BitVec.ofNat 16 n =
        a.stackArray + BitVec.ofNat 16 (spIndex a.stackSize args + n) := by
      intro n
      rw [hsp₀, BitVec.add_assoc, ← BitVec.ofNat_add]
    have hmem' : s'.mem = entryBelow (s₁.argsStored t a args).mem a args := by
      unfold entryBelow
      rw [hmem, ← hnext 1, ← hnext 2]
      exact if_congr (stackBytes_ne_zero hsize) rfl rfl
    -- Without stack arguments the entry address is the one the plain `create_task` has put.
    obtain ⟨hhi, hlo⟩ := createTask_entry hs₁ (by omega)
    obtain ⟨hpcHi, hpcLo⟩ := entryBelow_entry (s₁.argsStored t a args).mem hsize
      (fun _ => (hkept _ (by omega) (by omega)).trans hhi)
      (fun _ => (hkept _ (by omega) (by omega)).trans hlo)
    refine ⟨hsreg', hsp.trans hsp₀, by rw [hmem', hpcHi], by rw [hmem', hpcLo], fun p hp => ?_⟩
    have hplace := hheld p hp
    obtain ⟨l, arg⟩ := p
    cases l with
    | regs base =>
        intro k hk hlt
        rw [hregs]
        exact hplace k hk hlt
    | stack index =>
        intro j hj
        obtain ⟨hstart, hstop⟩ := hlaid.stack hp
        rw [hmem', entryBelow_args _ hsize (by omega) (by omega)]
        exact hplace j hj

end Created

/-! ### The first dispatch -/

/-- The memory of the machine has the control block of `t` at `z`, apart from its stack. -/
structure Loaded (s : Sched τ) (t : τ) (a : CreateArgs) (ctask z : Word) (k : Cpu) : Prop where
  current : cTaskPtr k.mem ctask = z
  context : ctxOf k.mem z = (s.tasks t).cpuState
  stack : ∀ i, i < a.stackSize.toNat →
    k.mem (a.stackArray + BitVec.ofNat 16 i) = s.mem (a.stackArray + BitVec.ofNat 16 i)
  apart : ∀ q, InCpuState q → ∀ i, i < a.stackSize.toNat →
    z + disp q ≠ a.stackArray + BitVec.ofNat 16 i

/-- The entry function is about to run: with the registers and the stack above its return
address as `create_task` left them. -/
structure Entered (s : Sched τ) (t : τ) (a : CreateArgs) (args : List Arg) (c : Cpu) : Prop where
  pc : c.pc = a.entry
  regs : c.r = (s.tasks t).cpuState.regs
  stack : ∀ i, spIndex a.stackSize args < i → i < a.stackSize.toNat →
    c.mem (a.stackArray + BitVec.ofNat 16 i) = s.mem (a.stackArray + BitVec.ofNat 16 i)
  first : 0 < frameBytes args →
    c.sp + 3 = a.stackArray + BitVec.ofNat 16 (a.stackSize.toNat - frameBytes args - 1)

/-- What follows `_RESTORE_CTX`: in `kernel_start`, in `yield` and in the handler. -/
def returns : List (List Instr) := [[.ret], [.sei, .ret], [.reti]]

theorem exec_returns {tail : List Instr} (h : tail ∈ returns) (c : Cpu) :
    ∃ sreg, exec tail c = { c.popPc with sreg := sreg } := by
  simp only [returns, List.mem_cons, List.not_mem_nil, or_false] at h
  rcases h with rfl | rfl | rfl
  · exact ⟨c.sreg, rfl⟩
  · exact ⟨setI c.sreg, rfl⟩
  · exact ⟨setI c.sreg, rfl⟩

section Dispatched

variable {s : Sched τ} {a : CreateArgs} {args : List Arg} {ctask z : Word} {k : Cpu}

/-- The stack pointer and the byte below it are in the stack. -/
theorem spIndex_bounds (hsize : frameBytes args + 7 ≤ a.stackSize.toNat) :
    1 ≤ spIndex a.stackSize args ∧ spIndex a.stackSize args + 2 < a.stackSize.toNat := by
  unfold spIndex
  split <;> omega

omit [DecidableEq τ] in
theorem Framed.above (h : s.Framed t a args) (n : Nat) :
    (s.tasks t).cpuState.sp + BitVec.ofNat 16 n =
      a.stackArray + BitVec.ofNat 16 (spIndex a.stackSize args + n) := by
  rw [h.sp, BitVec.add_assoc, ← BitVec.ofNat_add]

omit [DecidableEq τ] in
/-- A return pops the entry address, wherever the stack above the stack pointer is intact. -/
theorem Framed.popped (h : s.Framed t a args) (hsize : frameBytes args + 7 ≤ a.stackSize.toNat)
    {mem : Word → Byte} (hmem : ∀ i, spIndex a.stackSize args < i → i < a.stackSize.toNat →
      mem (a.stackArray + BitVec.ofNat 16 i) = s.mem (a.stackArray + BitVec.ofNat 16 i)) :
    word (mem ((s.tasks t).cpuState.sp + 1)) (mem ((s.tasks t).cpuState.sp + 1 + 1)) =
      a.entry := by
  obtain ⟨-, hhi⟩ := spIndex_bounds hsize
  have hone : (s.tasks t).cpuState.sp + 1 =
      a.stackArray + BitVec.ofNat 16 (spIndex a.stackSize args + 1) := h.above 1
  have htwo : (s.tasks t).cpuState.sp + 1 + 1 =
      a.stackArray + BitVec.ofNat 16 (spIndex a.stackSize args + 2) :=
    (BitVec.add_assoc _ _ _).trans (h.above 2)
  rw [htwo, hone, hmem _ (by omega) (by omega), hmem _ (by omega) (by omega), h.pcHi, h.pcLo,
    word_hi8_lo8]

omit [DecidableEq τ] in
/-- **Restore and return** enter the entry function. -/
theorem Framed.entered (h : s.Framed t a args) (hsize : frameBytes args + 7 ≤ a.stackSize.toNat)
    (hk : s.Loaded t a ctask z k) {tail : List Instr} (htail : tail ∈ returns) :
    s.Entered t a args (exec (restoreCtx ctask ++ tail) k) := by
  obtain ⟨hlo, hhi⟩ := spIndex_bounds hsize
  have hlt := a.stackSize.isLt
  have hbelow : (s.tasks t).cpuState.sp - 1 =
      a.stackArray + BitVec.ofNat 16 (spIndex a.stackSize args - 1) := by
    rw [h.sp]
    obtain ⟨n, hn⟩ : ∃ n, spIndex a.stackSize args = n + 1 := ⟨_, (Nat.sub_add_cancel hlo).symm⟩
    rw [hn, Nat.add_sub_cancel, BitVec.ofNat_add, ← BitVec.add_assoc]
    exact BitVec.add_sub_cancel _ _
  have hctx : ctxOf k.mem (cTaskPtr k.mem ctask) = (s.tasks t).cpuState := by
    rw [hk.current]
    exact hk.context
  have hfree : PassFree k.mem (cTaskPtr k.mem ctask) := by
    refine ⟨fun q hq => ?_, fun q hq => ?_⟩
    · rw [hctx, h.sp, hk.current]
      exact hk.apart q hq _ (by omega)
    · rw [hctx, hbelow, hk.current]
      exact hk.apart q hq _ (by omega)
  -- The restore writes the two bytes at and below the stack pointer only.
  have hpass : ∀ i, spIndex a.stackSize args < i → i < a.stackSize.toNat →
      passMem k.mem (s.tasks t).cpuState (a.stackArray + BitVec.ofNat 16 i) =
        s.mem (a.stackArray + BitVec.ofNat 16 i) := by
    intro i hi hi'
    rw [passMem_of_ne, hk.stack i hi']
    · rw [h.sp]
      exact offset_inj _ (by omega) (by omega) (by omega)
    · rw [hbelow]
      exact offset_inj _ (by omega) (by omega) (by omega)
  obtain ⟨sreg, hexec⟩ := exec_returns htail (exec (restoreCtx ctask) k)
  rw [exec_append, hexec, exec_restoreCtx hctx hfree]
  refine ⟨h.popped hsize hpass, rfl, hpass, fun hpos => ?_⟩
  show (s.tasks t).cpuState.sp + 1 + 1 + BitVec.ofNat 16 3 = _
  have hfive : (s.tasks t).cpuState.sp + 1 + 1 + BitVec.ofNat 16 3 =
      (s.tasks t).cpuState.sp + BitVec.ofNat 16 5 := by
    rw [BitVec.add_assoc, BitVec.add_assoc]
    rfl
  have hidx : spIndex a.stackSize args = a.stackSize.toNat - frameBytes args - 6 :=
    if_pos (by omega)
  rw [hfive, h.above, hidx, show a.stackSize.toNat - frameBytes args - 6 + 5 =
    a.stackSize.toNat - frameBytes args - 1 by omega]

omit [DecidableEq τ] in
/-- **A task that `create_task` has set up** is one that `kernel_start` can start. -/
theorem Framed.created (h : s.Framed t a args) (hsize : frameBytes args + 7 ≤ a.stackSize.toNat)
    {L : Layout τ} (hlo : L.stackLo t = a.stackArray.toNat)
    (hhi : L.stackHi t = a.stackArray.toNat + a.stackSize.toNat)
    (hk : s.Loaded t a ctask (L.block t) k) : L.Created t a.entry k.mem := by
  obtain ⟨hpos, hroom⟩ := spIndex_bounds hsize
  have hle := L.stackHi_le t
  have hidx : ((s.tasks t).cpuState.sp).toNat = a.stackArray.toNat + spIndex a.stackSize args := by
    rw [h.sp, BitVec.toNat_add, BitVec.toNat_ofNat]
    omega
  refine ⟨?_, ?_, ?_⟩
  · rw [hk.context]
    omega
  · rw [hk.context]
    exact h.sreg
  · rw [hk.context]
    exact h.popped hsize fun i _ hi => hk.stack i hi

end Dispatched

/-- The places of the arguments and of the entry address. -/
structure FirstFrame (stackSize : Word) (args : List Arg) : Prop where
  /-- Both passes send the same arguments to the stack. -/
  toStack : toStack calcSizes ⟨false, 0, 0⟩ args =
    toStack ArgCursor.advance ⟨false, 0, stackBytes args⟩ args
  countsDown : CountsDown ⟨false, 0, stackBytes args⟩ args
  regs : ∀ base arg, (ArgLoc.regs base, arg) ∈ placed stackSize args →
    8 ≤ base.toNat ∧ base.toNat + arg.length ≤ 26
  regsDisjoint : (placed stackSize args).Pairwise Below
  stack : Contiguous (stackSize.toNat - frameBytes args - 1) (stackSize.toNat - 1)
    (stackSpans (placed stackSize args))
  /-- The bytes of the entry address end below the first stack argument. -/
  pcBelow : 0 < frameBytes args →
    spIndex stackSize args + 2 < stackSize.toNat - frameBytes args - 1

/--
**The first frame of a task.**  Take any arguments, any entry address and any stack with
room for the stack arguments and 7 bytes more.  The two passes agree, no two arguments
overlap, and after the first restore and return the entry function runs, with each
argument where it was put and the first stack argument at `SP + 3`.
-/
theorem first_frame {s s' : Sched τ} {fuel : Nat} {a : CreateArgs} {args : List Arg}
    (h : s.Creates fuel t a args s') (hobj : ∀ arg ∈ args, arg.IsObject)
    (hsize : frameBytes args + 7 ≤ a.stackSize.toNat) :
    FirstFrame a.stackSize args ∧
      (∀ p ∈ placed a.stackSize args, s'.HoldsArg t a.stackArray p) ∧
      ∀ ctask z k, s'.Loaded t a ctask z k → ∀ tail ∈ returns,
        s'.Entered t a args (exec (restoreCtx ctask ++ tail) k) := by
  have hlaid := frame_laid hobj hsize
  have hframed := h.framed hobj hsize
  have hcount : (stackBytes args).toNat = spilled ⟨false, 0, stackBytes args⟩ args := by
    rw [stackBytes_toNat hsize]
    exact spilled_congr args ⟨rfl, rfl⟩
  refine ⟨⟨toStack_eq args ⟨rfl, rfl⟩, ?_, fun base arg hp => hlaid.regs hp, hlaid.pairwise,
    hlaid.contiguous, fun hpos => ?_⟩, hframed.args,
    fun ctask z k hk tail htail => hframed.entered hsize hk htail⟩
  · refine countsDown args _ (fun arg harg => ?_) hcount
    have hmax := (hobj arg harg).2
    omega
  · have hidx : spIndex a.stackSize args = a.stackSize.toNat - frameBytes args - 6 :=
      if_pos (by omega)
    omega

/-- A machine about to dispatch the task below for the first time. -/
def firstCpu (s : Sched Unit) : Cpu :=
  { restoringCpu (s.tasks ()).cpuState with
    mem := fun addr =>
      if addr.toNat < 0x200 then (restoringCpu (s.tasks ()).cpuState).mem addr else s.mem addr }

theorem firstCpu_loaded (s : Sched Unit) :
    s.Loaded () argsTask 0 restoringBlock (firstCpu s) := by
  have hblock : ∀ q : Fin 64, (restoringBlock + disp q).toNat < 0x200 := by decide
  have hstack : ∀ i, i < 64 → (argsTask.stackArray + BitVec.ofNat 16 i).toNat = 0x200 + i := by
    intro i hi
    show (0x200#16 + BitVec.ofNat 16 i).toNat = 0x200 + i
    rw [BitVec.toNat_add, BitVec.toNat_ofNat, BitVec.toNat_ofNat]
    omega
  refine ⟨cTaskPtr_restoringCpu (s.tasks ()).cpuState, ?_, fun i hi => ?_, fun q _ i hi heq => ?_⟩
  · have hctx := ctxOf_restoringCpu (s.tasks ()).cpuState
    rw [cTaskPtr_restoringCpu] at hctx
    rw [← hctx]
    exact ctxOf_congr fun q _ => if_pos (hblock q)
  · refine if_neg ?_
    rw [hstack i hi]
    omega
  · have hlt := hblock q
    rw [heq, hstack i hi] at hlt
    omega

theorem first_frame_spilled : ∃ s', argsSched.Creates 0 () argsTask
      [[1], List.replicate 14 2, List.replicate 5 3, [4, 4]] s' ∧
    FirstFrame argsTask.stackSize [[1], List.replicate 14 2, List.replicate 5 3, [4, 4]] ∧
    s'.Entered () argsTask [[1], List.replicate 14 2, List.replicate 5 3, [4, 4]]
      (exec (restoreCtx 0 ++ [.reti]) (firstCpu s')) := by
  obtain ⟨s', hs'⟩ :=
    createTaskArgs_argsSched [[1], List.replicate 14 2, List.replicate 5 3, [4, 4]]
  obtain ⟨hframe, -, henter⟩ := first_frame (Or.inr hs' : argsSched.Creates 0 () argsTask _ s')
    (by simp [Arg.IsObject]) (by decide)
  exact ⟨s', Or.inr hs', hframe,
    henter 0 restoringBlock _ (firstCpu_loaded s') _ (by simp [returns])⟩

end Sched

end AtmegaScheduler
