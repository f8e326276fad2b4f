/-
Where `create_task` writes.

The size of the stack is never compared with anything.  Every index is a difference of
16-bit words: the entry address goes 1 and 2 bytes below the end, an argument goes the
bytes of itself and of those after it below, and the entry address of a task with stack
arguments 6 bytes below them all.  The first restore passes two registers through the
bytes at and below the stack pointer, so these belong to the frame as well.

The differences stay in the stack, and none of them wraps, exactly when the stack has
room for 4 bytes, or for the stack arguments and 7 bytes more.
-/
import AtmegaScheduler.Kernel.Frame

namespace AtmegaScheduler

open Avr

/-- The byte at `x` is one of `stack_array`. -/
def Inside (a : CreateArgs) (x : Word) : Prop := (x - a.stackArray).toNat < a.stackSize.toNat

instance (a : CreateArgs) (x : Word) : Decidable (Inside a x) := inferInstanceAs (Decidable (_ < _))

theorem inside_add {a : CreateArgs} {i : Word} :
    Inside a (a.stackArray + i) ↔ i.toNat < a.stackSize.toNat := by
  unfold Inside
  rw [show a.stackArray + i - a.stackArray = i by grind]

/-- `stack.size - stack_used - 1` does not wrap for any argument that goes to the stack. -/
def ArgsInRange (stackSize : Word) : ArgCursor → List Arg → Prop
  | _, [] => True
  | c, arg :: args =>
      (c.fits arg.size = false → c.stackUsed ≤ stackSize ∧ 1 ≤ stackSize - c.stackUsed) ∧
        ArgsInRange stackSize (c.advance arg.size) args

/-- Every byte of every stack argument has an index in the stack. -/
def ArgsInside (stackSize : Word) (ps : List (ArgLoc × Arg)) : Prop :=
  ∀ index arg, (ArgLoc.stack index, arg) ∈ ps → ∀ j, j < arg.length →
    (index + BitVec.ofNat 16 j).toNat < stackSize.toNat

theorem argsInside_cons {stackSize : Word} {p : ArgLoc × Arg} {ps : List (ArgLoc × Arg)} :
    ArgsInside stackSize (p :: ps) ↔
      (∀ index, p.1 = .stack index → ∀ j, j < p.2.length →
        (index + BitVec.ofNat 16 j).toNat < stackSize.toNat) ∧ ArgsInside stackSize ps := by
  constructor
  · intro h
    refine ⟨fun index hp j hj => h index p.2 ?_ j hj, fun index arg hmem => h index arg ?_⟩
    · rw [← hp]
      exact List.mem_cons_self
    · exact List.mem_cons_of_mem _ hmem
  · intro h index arg hmem
    rcases List.mem_cons.mp hmem with heq | hmem
    · rw [← heq] at h
      exact h.1 index rfl
    · exact h.2 index arg hmem

/-! ### The arguments -/

/-- The second pass has left what it still has to place, modulo 2^16. -/
theorem stackUsed_advance_ofNat {c : ArgCursor} {arg : Arg} {args : List Arg}
    (hused : c.stackUsed = BitVec.ofNat 16 (spilled c (arg :: args))) :
    (c.advance arg.size).stackUsed = BitVec.ofNat 16 (spilled (c.advance arg.size) args) := by
  rw [spilled_cons] at hused
  by_cases hfits : c.fits arg.size = true
  · rw [if_pos hfits, Nat.zero_add] at hused
    rw [← hused, ArgCursor.advance_of_fits hfits]
  · rw [if_neg hfits, BitVec.ofNat_add] at hused
    have hsub : (c.advance arg.size).stackUsed = c.stackUsed - arg.size := by
      rw [ArgCursor.advance_of_spills hfits]
    rw [hsub, hused]
    unfold Arg.size
    grind

/-- The place of an argument. -/
theorem argLoc_eq (stackSize : Word) (c : ArgCursor) (argSize : Word) :
    (c.fits argSize = true ∧ ∃ base, argLoc stackSize c argSize = .regs base) ∨
      (c.fits argSize = false ∧
        argLoc stackSize c argSize = .stack (stackSize - c.stackUsed - 1)) := by
  by_cases hfits : c.fits argSize = true
  · exact Or.inl ⟨hfits, _, argLoc_of_fits hfits⟩
  · exact Or.inr ⟨Bool.not_eq_true _ ▸ hfits, argLoc_of_spills hfits⟩

/-- The index of a stack argument, as a number. -/
theorem stackIndex_toNat {stackSize used : Word} (h : used.toNat + 1 ≤ stackSize.toNat) :
    (stackSize - used - 1).toNat = stackSize.toNat - used.toNat - 1 := by
  have hlt := stackSize.isLt
  rw [BitVec.toNat_sub, BitVec.toNat_sub, show (1 : Word).toNat = 1 from rfl]
  omega

/-- The two subtractions of an index do not wrap. -/
theorem inRange_iff {stackSize used : Word} :
    (used ≤ stackSize ∧ 1 ≤ stackSize - used) ↔ used.toNat + 1 ≤ stackSize.toNat := by
  have hlt := stackSize.isLt
  rw [BitVec.le_def, BitVec.le_def, BitVec.toNat_sub, show (1 : Word).toNat = 1 from rfl]
  omega

/-- **Arguments inside the stack are fewer bytes than the stack.**  An argument that
straddled the end of the address space would put a byte at index 65535. -/
theorem spilled_lt {stackSize : Word} (args : List Arg) : ∀ c : ArgCursor,
    c.stackUsed = BitVec.ofNat 16 (spilled c args) → (∀ arg ∈ args, arg.length < 2 ^ 16) →
    ArgsInRange stackSize c args → ArgsInside stackSize ((argPlaces stackSize c args).zip args) →
    spilled c args ≠ 0 → spilled c args + 1 ≤ stackSize.toNat := by
  induction args with
  | nil => intro c _ _ _ _ hne; exact absurd rfl hne
  | cons arg args ih =>
      intro c hused hlen hrange hinside hne
      rw [argPlaces, List.zip_cons_cons, argsInside_cons] at hinside
      have hrest := ih _ (stackUsed_advance_ofNat hused)
        (fun x hx => hlen x (List.mem_cons_of_mem _ hx)) hrange.2 hinside.2
      have hlen₀ := hlen arg List.mem_cons_self
      have hlt := stackSize.isLt
      rw [spilled_cons] at hused hne ⊢
      rcases argLoc_eq stackSize c arg.size with ⟨hfits, -⟩ | ⟨hfits, hplace⟩
      · rw [if_pos hfits, Nat.zero_add] at hne ⊢
        exact hrest hne
      · have hnot : ¬ c.fits arg.size = true := by
          rw [hfits]
          exact Bool.false_ne_true
        rw [if_neg hnot] at hused hne ⊢
        have hroom := inRange_iff.mp (hrange.1 hfits)
        have hmod : c.stackUsed.toNat =
            (arg.length + spilled (c.advance arg.size) args) % 2 ^ 16 := by
          rw [hused, BitVec.toNat_ofNat]
        by_contra hbig
        -- The count has wrapped, and index 65535 is one of this argument's.
        have hbyte := hinside.1 _ hplace (2 ^ 16 - 1 - (stackSize - c.stackUsed - 1).toNat)
        rw [BitVec.toNat_add, BitVec.toNat_ofNat, stackIndex_toNat hroom] at hbyte
        by_cases hzero : spilled (c.advance arg.size) args = 0
        · rw [hzero] at hmod hbig
          omega
        · have hfew := hrest hzero
          dsimp only at hbyte
          omega

/-- **Arguments that leave a byte of the stack are inside it.** -/
theorem argsInside_of_room {stackSize : Word} (args : List Arg) : ∀ c : ArgCursor,
    c.stackUsed.toNat = spilled c args → (∀ arg ∈ args, arg.length < 2 ^ 16) →
    spilled c args + 1 ≤ stackSize.toNat →
    ArgsInRange stackSize c args ∧
      ArgsInside stackSize ((argPlaces stackSize c args).zip args) := by
  induction args with
  | nil => intro c _ _ _; exact ⟨trivial, fun _ _ h => absurd h List.not_mem_nil⟩
  | cons arg args ih =>
      intro c hused hlen hroom
      have hlen₀ := hlen arg List.mem_cons_self
      have hcount := stackUsed_advance hlen₀ hused
      rw [spilled_cons] at hused hroom
      obtain ⟨hrange, hinside⟩ := ih _ hcount (fun x hx => hlen x (List.mem_cons_of_mem _ hx))
        (by omega)
      rw [argPlaces, List.zip_cons_cons, argsInside_cons]
      refine ⟨⟨fun _ => inRange_iff.mpr (by omega), hrange⟩, fun index hplace j hj => ?_, hinside⟩
      rcases argLoc_eq stackSize c arg.size with ⟨-, base, hplace'⟩ | ⟨hfits, hplace'⟩
      · exact absurd (hplace'.symm.trans hplace) (by simp)
      · rw [hfits, if_neg Bool.false_ne_true] at hused hroom
        have hindex : index = stackSize - c.stackUsed - 1 :=
          ArgLoc.stack.inj (hplace.symm.trans hplace')
        have hlt := stackSize.isLt
        dsimp only at hj
        rw [hindex, BitVec.toNat_add, BitVec.toNat_ofNat, stackIndex_toNat (by omega)]
        omega

/-! ### The bytes that are written -/

namespace Sched

/-- The addresses `create_task` writes through `stack.memory_ptr`. -/
inductive Written (a : CreateArgs) (args : List Arg) : Word → Prop
  | pcLo : Written a args (a.stackArray + (a.stackSize - 1))
  | pcHi : Written a args (a.stackArray + (a.stackSize - 2))
  | arg {index : Word} {arg : Arg} {x : Word}
      (place : (ArgLoc.stack index, arg) ∈ placed a.stackSize args)
      (byte : (x - (a.stackArray + index)).toNat < arg.length) : Written a args x
  | entryLo (base : stackBytes args ≠ 0) :
      Written a args (a.stackArray + (a.stackSize - stackBytes args - 6 + 2))
  | entryHi (base : stackBytes args ≠ 0) :
      Written a args (a.stackArray + (a.stackSize - stackBytes args - 6 + 1))

/-- The bytes that the first restore passes r30 and r31 through. -/
def firstPushes (a : CreateArgs) (args : List Arg) : List Word :=
  [preparedSp a args, preparedSp a args - 1]

/-- Nothing is written outside the stack, and no index wraps. -/
structure InBounds (a : CreateArgs) (args : List Arg) : Prop where
  written : ∀ x, Written a args x → Inside a x
  pushed : ∀ x ∈ firstPushes a args, Inside a x
  /-- `stack_size - 1`, `- 2` and `- 3`. -/
  plain : (3 : Word) ≤ a.stackSize
  /-- `stack.size - stack_base - 6`. -/
  base : stackBytes args ≠ 0 →
    stackBytes args ≤ a.stackSize ∧ 6 ≤ a.stackSize - stackBytes args
  /-- `stack.size - stack_used - 1`. -/
  used : ArgsInRange a.stackSize ⟨false, 0, stackBytes args⟩ args

/-- The stack has room for the first frame. -/
structure HasRoom (a : CreateArgs) (args : List Arg) : Prop where
  plain : 4 ≤ a.stackSize.toNat
  base : frameBytes args ≠ 0 → frameBytes args + 7 ≤ a.stackSize.toNat

/-- Both passes send the same bytes to the stack. -/
theorem spilled_stackBytes (args : List Arg) :
    spilled ⟨false, 0, stackBytes args⟩ args = frameBytes args :=
  spilled_congr args ⟨rfl, rfl⟩

theorem stackBytes_eq (args : List Arg) : stackBytes args = BitVec.ofNat 16 (frameBytes args) :=
  (calcSizes_counts args ⟨false, 0, 0⟩).trans (BitVec.zero_add _)

theorem stackBytes_none {args : List Arg} (h : frameBytes args = 0) : stackBytes args = 0 := by
  rw [stackBytes_eq, h]
  rfl

theorem stackBytes_small {args : List Arg} (h : frameBytes args < 2 ^ 16) :
    (stackBytes args).toNat = frameBytes args := by
  rw [stackBytes_eq, BitVec.toNat_ofNat, Nat.mod_eq_of_lt h]

/-! ### Room is what it takes -/

section Room

variable {a : CreateArgs} {args : List Arg}

theorem InBounds.argsInside (h : InBounds a args) :
    ArgsInside a.stackSize (placed a.stackSize args) := by
  intro index arg hplace j hj
  have hin := h.written (a.stackArray + (index + BitVec.ofNat 16 j)) (.arg hplace ?_)
  · exact inside_add.mp hin
  · rw [show a.stackArray + (index + BitVec.ofNat 16 j) - (a.stackArray + index) =
      BitVec.ofNat 16 j by grind, BitVec.toNat_ofNat]
    exact Nat.lt_of_le_of_lt (Nat.mod_le _ _) hj

/-- The byte below the stack pointer is in the stack only if the stack pointer is not its
first byte. -/
theorem pos_of_inside_pred {i : Word} (h : Inside a (a.stackArray + i - 1)) : 1 ≤ i.toNat := by
  rw [show a.stackArray + i - 1 = a.stackArray + (i - 1) by grind, inside_add, BitVec.toNat_sub,
    show (1 : Word).toNat = 1 from rfl] at h
  have hlt := a.stackSize.isLt
  omega

theorem InBounds.hasRoom (h : InBounds a args) (hlen : ∀ arg ∈ args, arg.length < 2 ^ 16) :
    HasRoom a args := by
  have hplain : 3 ≤ a.stackSize.toNat := h.plain
  have hlt := a.stackSize.isLt
  have hspilled := spilled_lt args ⟨false, 0, stackBytes args⟩
    (by rw [spilled_stackBytes]; exact stackBytes_eq args) hlen h.used h.argsInside
  rw [spilled_stackBytes] at hspilled
  have hbelow : Inside a (preparedSp a args - 1) := h.pushed _ (by simp [firstPushes])
  unfold preparedSp at hbelow
  by_cases hframe : frameBytes args = 0
  · rw [if_neg (not_not.mpr (stackBytes_none hframe))] at hbelow
    have hpos := pos_of_inside_pred hbelow
    rw [BitVec.toNat_sub, show (3 : Word).toNat = 3 from rfl] at hpos
    exact ⟨by omega, fun hne => absurd hframe hne⟩
  · have hcount : (stackBytes args).toNat = frameBytes args :=
      stackBytes_small (by have := hspilled hframe; omega)
    have hsome : stackBytes args ≠ 0 := by
      intro hc
      rw [hc] at hcount
      exact hframe hcount.symm
    obtain ⟨hused, hsix⟩ := h.base hsome
    rw [if_pos hsome] at hbelow
    have hpos := pos_of_inside_pred hbelow
    rw [BitVec.le_def] at hused hsix
    rw [BitVec.toNat_sub, show (6 : Word).toNat = 6 from rfl] at hpos
    rw [BitVec.toNat_sub, show (6 : Word).toNat = 6 from rfl] at hsix
    rw [BitVec.toNat_sub] at hpos
    exact ⟨by omega, fun _ => by omega⟩

theorem HasRoom.frame (h : HasRoom a args) : frameBytes args + 1 ≤ a.stackSize.toNat := by
  have hplain := h.plain
  by_cases hframe : frameBytes args = 0
  · omega
  · have := h.base hframe
    omega

theorem HasRoom.count (h : HasRoom a args) : (stackBytes args).toNat = frameBytes args := by
  have hframe := h.frame
  have hlt := a.stackSize.isLt
  exact stackBytes_small (by omega)

theorem HasRoom.below (h : HasRoom a args) (hsome : stackBytes args ≠ 0) :
    frameBytes args + 7 ≤ a.stackSize.toNat :=
  h.base fun hc => hsome (stackBytes_none hc)

/-- The index of the entry address below the arguments. -/
theorem HasRoom.index (h : HasRoom a args) (hsome : stackBytes args ≠ 0) :
    (a.stackSize - stackBytes args - 6).toNat = a.stackSize.toNat - frameBytes args - 6 := by
  have hbelow := h.below hsome
  have hcount := h.count
  have hlt := a.stackSize.isLt
  rw [BitVec.toNat_sub, BitVec.toNat_sub, hcount, show (6 : Word).toNat = 6 from rfl]
  omega

/-- The stack pointer has a byte of the stack below it. -/
theorem HasRoom.preparedSp (h : HasRoom a args) : ∃ i : Word,
    preparedSp a args = a.stackArray + i ∧ 1 ≤ i.toNat ∧ i.toNat < a.stackSize.toNat := by
  have hplain := h.plain
  have hlt := a.stackSize.isLt
  unfold Sched.preparedSp
  by_cases hsome : stackBytes args ≠ 0
  · have hbelow := h.below hsome
    have hindex := h.index hsome
    rw [if_pos hsome]
    exact ⟨_, rfl, by omega, by omega⟩
  · rw [if_neg hsome]
    have hthree : (a.stackSize - 3).toNat = a.stackSize.toNat - 3 := by
      rw [BitVec.toNat_sub, show (3 : Word).toNat = 3 from rfl]
      omega
    exact ⟨_, rfl, by omega, by omega⟩

/-- The two bytes that the first switch pushes. -/
theorem HasRoom.pushed (h : HasRoom a args) : ∀ x ∈ firstPushes a args, Inside a x := by
  intro x hx
  obtain ⟨i, hi, hpos, hin⟩ := h.preparedSp
  have hlt := a.stackSize.isLt
  simp only [firstPushes, hi, List.mem_cons, List.not_mem_nil, or_false] at hx
  rcases hx with rfl | rfl
  · exact inside_add.mpr hin
  · rw [show a.stackArray + i - 1 = a.stackArray + (i - 1) by grind, inside_add,
      BitVec.toNat_sub, show (1 : Word).toNat = 1 from rfl]
    omega

theorem HasRoom.inBounds (h : HasRoom a args) (hlen : ∀ arg ∈ args, arg.length < 2 ^ 16) :
    InBounds a args := by
  have hplain := h.plain
  have hlt := a.stackSize.isLt
  have hcount := h.count
  obtain ⟨hused, hinside⟩ := @argsInside_of_room a.stackSize args
    ⟨false, 0, stackBytes args⟩ (by rw [spilled_stackBytes]; exact hcount) hlen
    (by rw [spilled_stackBytes]; exact h.frame)
  refine ⟨fun x hx => ?_, h.pushed, hplain.trans' (by decide), fun hsome => ?_, hused⟩
  · cases hx with
    | pcLo =>
        rw [inside_add, BitVec.toNat_sub, show (1 : Word).toNat = 1 from rfl]
        omega
    | pcHi =>
        rw [inside_add, BitVec.toNat_sub, show (2 : Word).toNat = 2 from rfl]
        omega
    | @arg index arg _ place byte =>
        have hin := hinside index arg place _ byte
        rw [BitVec.ofNat_toNat, BitVec.setWidth_eq] at hin
        unfold Inside
        rwa [show x - a.stackArray = index + (x - (a.stackArray + index)) by grind]
    | entryLo base =>
        have hbelow := h.below base
        rw [inside_add, BitVec.toNat_add, h.index base, show (2 : Word).toNat = 2 from rfl]
        omega
    | entryHi base =>
        have hbelow := h.below base
        rw [inside_add, BitVec.toNat_add, h.index base, show (1 : Word).toNat = 1 from rfl]
        omega
  · have hbelow := h.below hsome
    rw [BitVec.le_def, BitVec.le_def, BitVec.toNat_sub, hcount, show (6 : Word).toNat = 6 from rfl]
    omega

end Room

/-! ### The memory after a call -/

/-- Write the two bytes of an entry address. -/
def writeEntry (entry lo hi : Word) (mem : Word → Byte) : Word → Byte :=
  Function.update (Function.update mem lo (lo8 entry)) hi (hi8 entry)

/-- Copy an argument, if it goes to the stack. -/
def copyToStack (ptr : Word) (mem : Word → Byte) (p : ArgLoc × Arg) : Word → Byte :=
  match p.1 with
  | .regs _ => mem
  | .stack index => memcpy mem (ptr + index) p.2

/-- The memory once the call has returned. -/
def createdMem (a : CreateArgs) (args : List Arg) (mem : Word → Byte) : Word → Byte :=
  let copied := (placed a.stackSize args).foldl (copyToStack a.stackArray)
    (writeEntry a.entry (a.stackArray + (a.stackSize - 1)) (a.stackArray + (a.stackSize - 2)) mem)
  if stackBytes args ≠ 0 then
    writeEntry a.entry (a.stackArray + (a.stackSize - stackBytes args - 6 + 2))
      (a.stackArray + (a.stackSize - stackBytes args - 6 + 1)) copied
  else copied

section Memory

variable {a : CreateArgs} {args : List Arg} {mem mem₁ mem₂ : Word → Byte} {x ptr : Word}

theorem writeEntry_congr {entry lo hi : Word} (h : x = lo ∨ x = hi ∨ mem₁ x = mem₂ x) :
    writeEntry entry lo hi mem₁ x = writeEntry entry lo hi mem₂ x := by
  unfold writeEntry
  by_cases hhi : x = hi
  · rw [hhi, Function.update_self, Function.update_self]
  rw [Function.update_of_ne hhi, Function.update_of_ne hhi]
  by_cases hlo : x = lo
  · rw [hlo, Function.update_self, Function.update_self]
  rw [Function.update_of_ne hlo, Function.update_of_ne hlo]
  exact (h.resolve_left hlo).resolve_left hhi

theorem writeEntry_of_not {entry lo hi : Word} (hlo : x ≠ lo) (hhi : x ≠ hi) :
    writeEntry entry lo hi mem x = mem x := by
  unfold writeEntry
  rw [Function.update_of_ne hhi, Function.update_of_ne hlo]

/-- The byte at `x` is one of an argument at a place of `ps`. -/
def Copied (ptr x : Word) (ps : List (ArgLoc × Arg)) : Prop :=
  ∃ index arg, (ArgLoc.stack index, arg) ∈ ps ∧ (x - (ptr + index)).toNat < arg.length

theorem copies_congr (ps : List (ArgLoc × Arg)) : ∀ {mem₁ mem₂ : Word → Byte},
    (Copied ptr x ps ∨ mem₁ x = mem₂ x) →
    ps.foldl (copyToStack ptr) mem₁ x = ps.foldl (copyToStack ptr) mem₂ x := by
  induction ps with
  | nil =>
      intro mem₁ mem₂ h
      rcases h with ⟨_, _, hmem, _⟩ | h
      · exact absurd hmem List.not_mem_nil
      · exact h
  | cons p ps ih =>
      intro mem₁ mem₂ h
      obtain ⟨l, arg⟩ := p
      rw [List.foldl_cons, List.foldl_cons]
      apply ih
      cases l with
      | regs base =>
          rcases h with ⟨index, arg', hmem, hbyte⟩ | h
          · rcases List.mem_cons.mp hmem with heq | hmem
            · exact absurd (Prod.mk.inj heq).1 (by simp)
            · exact Or.inl ⟨index, arg', hmem, hbyte⟩
          · exact Or.inr h
      | stack index =>
          unfold copyToStack memcpy
          by_cases hbyte : (x - (ptr + index)).toNat < arg.length
          · right
            dsimp only
            rw [if_pos hbyte, if_pos hbyte]
          · rcases h with ⟨index', arg', hmem, hbyte'⟩ | h
            · rcases List.mem_cons.mp hmem with heq | hmem
              · obtain ⟨hindex, harg⟩ := Prod.mk.inj heq
                rw [ArgLoc.stack.inj hindex, harg] at hbyte'
                exact absurd hbyte' hbyte
              · exact Or.inl ⟨index', arg', hmem, hbyte'⟩
            · right
              dsimp only
              rw [if_neg hbyte, if_neg hbyte]
              exact h

theorem copies_of_not (ps : List (ArgLoc × Arg)) : ∀ {mem : Word → Byte},
    ¬ Copied ptr x ps → ps.foldl (copyToStack ptr) mem x = mem x := by
  induction ps with
  | nil => intro mem _; rfl
  | cons p ps ih =>
      intro mem h
      obtain ⟨l, arg⟩ := p
      have hrest : ¬ Copied ptr x ps := by
        intro ⟨index, arg', hmem, hbyte⟩
        exact h ⟨index, arg', List.mem_cons_of_mem _ hmem, hbyte⟩
      rw [List.foldl_cons, ih hrest]
      cases l with
      | regs base => rfl
      | stack index => exact if_neg fun hbyte => h ⟨index, arg, List.mem_cons_self, hbyte⟩

/-- **A written byte** ends up the same, whatever was there. -/
theorem createdMem_written (h : Written a args x) :
    createdMem a args mem₁ x = createdMem a args mem₂ x := by
  unfold createdMem
  by_cases hbase : stackBytes args ≠ 0
  · rw [if_pos hbase, if_pos hbase]
    cases h with
    | pcLo =>
        exact writeEntry_congr (.inr (.inr (copies_congr _ (.inr (writeEntry_congr (.inl rfl))))))
    | pcHi =>
        exact writeEntry_congr
          (.inr (.inr (copies_congr _ (.inr (writeEntry_congr (.inr (.inl rfl)))))))
    | arg place byte =>
        exact writeEntry_congr (.inr (.inr (copies_congr _ (.inl ⟨_, _, place, byte⟩))))
    | entryLo => exact writeEntry_congr (.inl rfl)
    | entryHi => exact writeEntry_congr (.inr (.inl rfl))
  · rw [if_neg hbase, if_neg hbase]
    cases h with
    | pcLo => exact copies_congr _ (.inr (writeEntry_congr (.inl rfl)))
    | pcHi => exact copies_congr _ (.inr (writeEntry_congr (.inr (.inl rfl))))
    | arg place byte => exact copies_congr _ (.inl ⟨_, _, place, byte⟩)
    | entryLo base => exact absurd base hbase
    | entryHi base => exact absurd base hbase

/-- **Any other byte** is as before. -/
theorem createdMem_of_not (h : ¬ Written a args x) : createdMem a args mem x = mem x := by
  have hcopied : ¬ Copied a.stackArray x (placed a.stackSize args) :=
    fun ⟨_, _, place, byte⟩ => h (.arg place byte)
  have hlo : x ≠ a.stackArray + (a.stackSize - 1) := fun hc => h (by rw [hc]; exact .pcLo)
  have hhi : x ≠ a.stackArray + (a.stackSize - 2) := fun hc => h (by rw [hc]; exact .pcHi)
  unfold createdMem
  by_cases hbase : stackBytes args ≠ 0
  · rw [if_pos hbase, writeEntry_of_not (fun hc => h (by rw [hc]; exact .entryLo hbase))
      (fun hc => h (by rw [hc]; exact .entryHi hbase)), copies_of_not _ hcopied,
      writeEntry_of_not hlo hhi]
  · rw [if_neg hbase, copies_of_not _ hcopied, writeEntry_of_not hlo hhi]

variable {τ : Type} [DecidableEq τ] {s s' : Sched τ} {fuel : Nat} {t : τ}

/-- The memory that copying the arguments leaves. -/
theorem storeArgs_mem (ps : List (ArgLoc × Arg)) : ∀ s : Sched τ,
    (ps.foldl (storeArg t) s).mem = ps.foldl (copyToStack (s.tasks t).stack.memoryPtr) s.mem := by
  induction ps with
  | nil => intro s; rfl
  | cons p ps ih =>
      intro s
      obtain ⟨l, arg⟩ := p
      rw [List.foldl_cons, List.foldl_cons, ih, storeArg_stack]
      cases l with
      | regs base => rfl
      | stack index => rfl

theorem Creates.mem_eq (h : s.Creates fuel t a args s') : s'.mem = createdMem a args s.mem := by
  rcases h with ⟨rfl, h⟩ | h
  · obtain ⟨-, -, -, hmem⟩ := createTask_prepares h
    exact hmem
  · obtain ⟨-, s₁, hs₁, -, -, hmem⟩ := createTaskArgs_prepares h
    obtain ⟨hstack, -, -, hmem₁⟩ := createTask_prepares hs₁
    have hcopies : (s₁.argsStored t a args).mem =
        (placed a.stackSize args).foldl (copyToStack a.stackArray) s₁.mem := by
      unfold argsStored
      rw [storeArgs_mem, hstack]
      rfl
    rw [hmem, hcopies, hmem₁]
    unfold createdMem
    by_cases hbase : stackBytes args ≠ 0
    · rw [if_pos hbase, if_pos hbase]
      unfold preparedSp
      rw [if_pos hbase, BitVec.add_assoc, BitVec.add_assoc]
      rfl
    · rw [if_neg hbase, if_neg hbase]
      rfl

theorem Creates.sp (h : s.Creates fuel t a args s') :
    (s'.tasks t).cpuState.sp = preparedSp a args := by
  rcases h with ⟨rfl, h⟩ | h
  · exact (createTask_prepares h).2.2.1
  · exact (createTaskArgs_prepares h).1

end Memory

/-- Of memory, a restore writes the two bytes at and below the stack pointer it loads. -/
theorem exec_restoreCtx_mem (ctask : Word) (c : Cpu) :
    (exec (restoreCtx ctask) c).mem = passMem c.mem (ctxOf c.mem (cTaskPtr c.mem ctask)) := by
  obtain ⟨r₁, h₁, hz₁⟩ := exec_restoreEnter ctask c
  obtain ⟨v, w, h₂⟩ := exec_restoreHigh (exec (restoreEnter ctask) c)
  have hz : (exec (restoreEnter ctask) c).z = cTaskPtr c.mem ctask := by
    rw [h₁]
    exact hz₁
  have hmem : (exec (restoreEnter ctask) c).mem = c.mem := by rw [h₁]
  unfold restoreCtx
  rw [exec_append, exec_append, exec_append, h₂, exec_ldd_block _ _ lowLoads_ne, exec_pop_pop]
  simp only [restoring, hz, hmem]

variable {τ : Type} [DecidableEq τ] {a : CreateArgs} {args : List Arg}

/-- What a call writes, and the first restore after it; `v` is what the call puts there. -/
structure Writes (s s' : Sched τ) (t : τ) (a : CreateArgs) (args : List Arg) (v : Word → Byte) :
    Prop where
  written : ∀ x, Written a args x → s'.mem x = v x
  kept : ∀ x, ¬ Written a args x → s'.mem x = s.mem x
  pushed : ∀ ctask k, ctxOf k.mem (cTaskPtr k.mem ctask) = (s'.tasks t).cpuState →
    ∀ x, x ∉ firstPushes a args → (exec (restoreCtx ctask) k).mem x = k.mem x

theorem Creates.writes {s s' : Sched τ} {fuel : Nat} {t : τ} (h : s.Creates fuel t a args s') :
    Writes s s' t a args (createdMem a args fun _ => 0) := by
  refine ⟨fun x hx => ?_, fun x hx => ?_, fun ctask k hk x hx => ?_⟩
  · rw [h.mem_eq]
    exact createdMem_written hx
  · rw [h.mem_eq]
    exact createdMem_of_not hx
  · simp only [firstPushes, List.mem_cons, List.not_mem_nil, or_false, not_or] at hx
    rw [exec_restoreCtx_mem, hk]
    refine passMem_of_ne ?_ ?_
    · rw [h.sp]
      exact hx.1
    · rw [h.sp]
      exact hx.2

/--
**A call stays in its stack if and only if the stack has room for the first frame.**  Any
call that succeeds writes the bytes `Written`, whatever they held, and no others, and the
first restore passes two registers through `firstPushes`.  All of these are in the stack,
with no index wrapping, exactly if the stack has 4 bytes, or 7 more than the stack
arguments when there are any.
-/
theorem create_in_bounds_iff (a : CreateArgs) (args : List Arg)
    (hlen : ∀ arg ∈ args, arg.length < 2 ^ 16) :
    (∃ v, ∀ (s s' : Sched τ) (fuel : Nat) (t : τ), s.Creates fuel t a args s' →
      Writes s s' t a args v) ∧
      (InBounds a args ↔ HasRoom a args) :=
  ⟨⟨_, fun _ _ _ _ h => h.writes⟩, fun h => h.hasRoom hlen, fun h => h.inBounds hlen⟩

theorem create_in_bounds_spilled :
    InBounds argsTask [[1], List.replicate 14 2, List.replicate 5 3, [4, 4]] := by
  refine (create_in_bounds_iff (τ := Unit) argsTask _ ?_).2.mpr ⟨by decide, fun _ => by decide⟩
  decide

/-- A stack of one byte. -/
def tinyTask : CreateArgs := { argsTask with stackSize := 1 }

/-- The entry address of a task with a stack of one byte overwrites the byte below it. -/
theorem create_out_of_bounds :
    ∃ s', argsSched.Creates 0 () tinyTask [] s' ∧ argsSched.mem 0x1FF = 0 ∧
      s'.mem 0x1FF = 0x04 ∧ ¬ Inside tinyTask 0x1FF ∧ ¬ InBounds tinyTask [] := by
  refine ⟨_, Or.inl ⟨rfl, rfl⟩, rfl, rfl, by decide, fun h => ?_⟩
  exact absurd h.plain (by decide)

end Sched

end AtmegaScheduler
