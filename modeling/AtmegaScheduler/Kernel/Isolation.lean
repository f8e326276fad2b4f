/-
Task contexts survive switches.

The machine runs task code and context switches, in any order.  Task code is
arbitrary up to where it may write; a switch is the timer interrupt or a call of
`yield`, and between its save and its restore runs C code about which only two
things are assumed: it leaves the saved registers and the live stack bytes of
every task alone, and it points `c_task` at some task.

A task that has been switched out is suspended: its registers are in its control
block, its return address is on its stack, and both stay there until the task is
dispatched.  The argument is that no other task's save or restore reaches them.
A save writes below the stack pointer of the task it saves, a restore below the
one it restores, and each of these is that task's own stack.
-/
import AtmegaScheduler.Kernel.Context
import AtmegaScheduler.Kernel.Scheduler

namespace AtmegaScheduler

open Avr

variable {τ : Type}

/-! ### Placement -/

/-- The addresses of `c_task`, of the control blocks and of the stacks. -/
structure Addresses (τ : Type) where
  ctask : Word
  block : τ → Word
  stackLo : τ → Nat
  stackHi : τ → Nat

namespace Addresses

variable (A : Addresses τ) (t : τ) (a : Word)

/-- One of the two bytes of `c_task`. -/
def InCell : Prop := a = A.ctask ∨ a = A.ctask + 1

/-- A byte of the control block of `t`. -/
def InBlock : Prop :=
  (A.block t).toNat ≤ a.toNat ∧ a.toNat < (A.block t).toNat + sizeofTaskData

/-- A byte of the stack of `t`. -/
def InStack : Prop := A.stackLo t ≤ a.toNat ∧ a.toNat < A.stackHi t

/-- `c_task` points to `t`. -/
def Current (c : Cpu) : Prop := cTaskPtr c.mem A.ctask = A.block t

/-- At `sp` there is room on the stack of `t` for a return address and three bytes. -/
def Room (sp : Word) : Prop := A.stackLo t + 4 ≤ sp.toNat ∧ sp.toNat < A.stackHi t

/-- The stack pointer in the control block of `t` has room for two bytes on its stack. -/
def Parked (mem : Word → Byte) : Prop :=
  A.stackLo t + 1 ≤ (ctxOf mem (A.block t)).sp.toNat ∧
    (ctxOf mem (A.block t)).sp.toNat < A.stackHi t

end Addresses

/-- Addresses at which nothing overlaps.  No stack is at address 0, which is r0. -/
structure Layout (τ : Type) extends Addresses τ where
  block_le : ∀ t, (block t).toNat + sizeofTaskData ≤ 2 ^ 16
  stackLo_pos : ∀ t, 0 < stackLo t
  stackHi_le : ∀ t, stackHi t ≤ 2 ^ 16
  block_inj : ∀ t u a, toAddresses.InBlock t a → toAddresses.InBlock u a → t = u
  stack_inj : ∀ t u a, toAddresses.InStack t a → toAddresses.InStack u a → t = u
  block_stack : ∀ t u a, toAddresses.InBlock t a → ¬ toAddresses.InStack u a
  cell_block : ∀ t a, toAddresses.InCell a → ¬ toAddresses.InBlock t a
  cell_stack : ∀ t a, toAddresses.InCell a → ¬ toAddresses.InStack t a

namespace Layout

variable {L : Layout τ} {t u w : τ} {c c' k x : Cpu} {mem mem' : Word → Byte} {q : Fin 64}
  {a : Word}

theorem inBlock_disp (hq : InCpuState q) : L.InBlock t (L.block t + disp q) := by
  have hle := L.block_le t
  have hq' : q.val ≤ 56 := hq.2
  have hs : sizeofTaskData = 67 := rfl
  have hto : (L.block t + disp q).toNat = (L.block t).toNat + q.val := by
    simp only [disp, BitVec.toNat_add, BitVec.toNat_ofNat]
    omega
  unfold Addresses.InBlock
  omega

theorem disp_ne_stack (hq : InCpuState q) (ha : L.InStack u a) : L.block t + disp q ≠ a := by
  intro hc
  exact L.block_stack t u a (hc ▸ inBlock_disp hq) ha

theorem disp_ne_disp {q' : Fin 64} (htu : t ≠ u) (hq : InCpuState q) (hq' : InCpuState q') :
    L.block t + disp q ≠ L.block u + disp q' := by
  intro hc
  exact htu (L.block_inj t u _ (inBlock_disp hq) (hc ▸ inBlock_disp hq'))

theorem current_congr (h : ∀ a, L.InCell a → c'.mem a = c.mem a) (hc : L.Current t c) :
    L.Current t c' := by
  unfold Addresses.Current cTaskPtr at *
  rw [h _ (Or.inl rfl), h _ (Or.inr rfl), hc]

theorem current_inj (ht : L.Current t c) (hu : L.Current u c) : t = u := by
  have hb : L.block t = L.block u := ht.symm.trans hu
  have hmem : L.InBlock t (L.block t + disp sregOffset) := inBlock_disp (by decide)
  refine L.block_inj t u _ hmem ?_
  rw [hb]
  exact inBlock_disp (by decide)

end Layout

/-! ### Steps and runs -/

/-- How a switch is entered and left. -/
inductive Path
  /-- `TIMER0_COMPB_vect` -/
  | isr
  /-- A call of `yield`. -/
  | yield
  deriving DecidableEq, Repr

/-- An interrupt is taken with interrupts enabled; a call needs nothing. -/
def Path.Taken : Path → Cpu → Prop
  | .isr, c => iFlag c.sreg = true
  | .yield, _ => True

/-- The hardware's part of the entry. -/
def Path.enter : Path → Cpu → Cpu
  | .isr, c => c.enterInterrupt
  | .yield, c => c.pushPc

/-- What follows `_RESTORE_CTX`. -/
def Path.leave : Path → List Instr
  | .isr => [.reti]
  | .yield => [.sei, .ret]

/-- What a run is made of: code of the current task, or a switch to some task. -/
inductive Event (τ : Type)
  | task
  | switch (path : Path) (target : τ)
  deriving DecidableEq, Repr

/-- The task an event dispatches. -/
def Event.dispatched : Event τ → Option τ
  | .task => none
  | .switch _ target => some target

namespace Layout

variable (L : Layout τ)

/-- Code of `t` writes its own stack and memory that belongs to no task. -/
def TaskCode (t : τ) (c c' : Cpu) : Prop :=
  ∀ a, (L.InCell a ∨ (∃ u, L.InBlock u a) ∨ ∃ u, u ≠ t ∧ L.InStack u a) → c'.mem a = c.mem a

/-- The C code of a switch, which chooses the task `u`. -/
structure KernelCode (u : τ) (c c' : Cpu) : Prop where
  saved : ∀ t q, InCpuState q → c'.mem (L.block t + disp q) = c.mem (L.block t + disp q)
  live : ∀ t a, L.InStack t a → (ctxOf c.mem (L.block t)).sp.toNat < a.toNat → c'.mem a = c.mem a
  current : L.Current u c'

/-- The machine once a switch out of the current task has saved its context. -/
def afterSave (path : Path) (c : Cpu) : Cpu := exec (saveCtx L.ctask) (path.enter c)

/-- The machine once a switch has restored a context and returned. -/
def afterRestore (path : Path) (k : Cpu) : Cpu := exec path.leave (exec (restoreCtx L.ctask) k)

/-- One event. -/
inductive Step : Cpu → Event τ → Cpu → Prop
  | task {t : τ} {c c' : Cpu} (hcur : L.Current t c) (hcode : L.TaskCode t c c') :
      Step c .task c'
  | switch {t u : τ} {c k : Cpu} (path : Path) (hcur : L.Current t c) (htaken : path.Taken c)
      (hroom : L.Room t c.sp) (hcode : L.KernelCode u (L.afterSave path c) k) :
      Step c (.switch path u) (L.afterRestore path k)

/-- A run: the events one after another. -/
inductive Run : Cpu → List (Event τ) → Cpu → Prop
  | nil (c : Cpu) : Run c [] c
  | cons {c c' c'' : Cpu} {e : Event τ} {es : List (Event τ)} (h : L.Step c e c')
      (hs : Run c' es c'') : Run c (e :: es) c''

/-- One task is current, and every other has a stack pointer with room on its stack:
its own from when it was switched out, or the one it was created with. -/
def Inv (c : Cpu) : Prop := ∃ t, L.Current t c ∧ ∀ u, u ≠ t → L.Parked u c.mem

/-- The last of the events dispatches `t`, and no other one does. -/
def FirstDispatch (t : τ) (events : List (Event τ)) : Prop :=
  ∃ mid path, events = mid ++ [.switch path t] ∧ ∀ e ∈ mid, e.dispatched ≠ some t

/-- The context `x` of `t` is put away: the registers in the control block, and the
live part of the stack, which starts with the return address, as it is in `ref`. -/
structure Suspended (t : τ) (x : CpuRegisters) (ref mem : Word → Byte) : Prop where
  fits : L.stackLo t + 1 ≤ x.sp.toNat ∧ x.sp.toNat + 2 < L.stackHi t
  ctx : ctxOf mem (L.block t) = x
  live : ∀ a, L.InStack t a → x.sp.toNat < a.toNat → mem a = ref a

/-- The context a switch out of the machine state `c` puts away. -/
def switchedOut (c : Cpu) : CpuRegisters := ⟨c.r, c.sp - 1 - 1, clearI c.sreg⟩

variable {L}
variable {t u w : τ} {c c' k : Cpu} {path : Path} {x : CpuRegisters} {ref : Word → Byte}

/-! ### The entry and the save -/

theorem enter_r (path : Path) (c : Cpu) : (path.enter c).r = c.r := by
  cases path <;> rfl

theorem enter_sp (path : Path) (c : Cpu) : (path.enter c).sp = c.sp - 1 - 1 := by
  cases path <;> rfl

theorem enter_sreg (path : Path) (c : Cpu) : clearI (path.enter c).sreg = clearI c.sreg := by
  cases path with
  | isr => exact clearI_clearI c.sreg
  | yield => rfl

theorem enter_mem (path : Path) (c : Cpu) :
    (path.enter c).mem =
      Function.update (Function.update c.mem c.sp (lo8 c.pc)) (c.sp - 1) (hi8 c.pc) := by
  cases path <;> rfl

/-- The entry and the save together push at most five bytes. -/
theorem inStack_of_sub (hroom : L.Room t c.sp) {n : Nat} (hn : n ≤ 4) :
    L.InStack t (c.sp - BitVec.ofNat 16 n) := by
  obtain ⟨hlo, hhi⟩ := hroom
  have hto : (c.sp - BitVec.ofNat 16 n).toNat = c.sp.toNat - n := by
    rw [BitVec.toNat_sub, BitVec.toNat_ofNat]
    have := c.sp.isLt
    omega
  unfold Addresses.InStack
  omega

theorem inStack_pcLo (hroom : L.Room t c.sp) : L.InStack t c.sp := by
  have h := inStack_of_sub hroom (by omega : 0 ≤ 4)
  rwa [BitVec.sub_zero] at h

theorem inStack_pcHi (hroom : L.Room t c.sp) : L.InStack t (c.sp - 1) :=
  inStack_of_sub hroom (by omega : 1 ≤ 4)

theorem inStack_scratch (hroom : L.Room t c.sp) {a : Word} (ha : Scratch (path.enter c) a) :
    L.InStack t a := by
  unfold Scratch at ha
  rw [enter_sp] at ha
  rcases ha with rfl | rfl | rfl
  · rw [show c.sp - 1 - 1 = c.sp - BitVec.ofNat 16 2 by bv_omega]
    exact inStack_of_sub hroom (by omega)
  · rw [show c.sp - 1 - 1 - 1 = c.sp - BitVec.ofNat 16 3 by bv_omega]
    exact inStack_of_sub hroom (by omega)
  · rw [show c.sp - 1 - 1 - 1 - 1 = c.sp - BitVec.ofNat 16 4 by bv_omega]
    exact inStack_of_sub hroom (by omega)

/-- The entry writes the stack of the interrupted task only. -/
theorem enter_mem_of_not (hroom : L.Room t c.sp) {a : Word} (ha : ¬ L.InStack t a) :
    (path.enter c).mem a = c.mem a := by
  have h₁ : a ≠ c.sp - 1 := fun hc => ha (hc ▸ inStack_pcHi hroom)
  have h₂ : a ≠ c.sp := fun hc => ha (hc ▸ inStack_pcLo hroom)
  rw [enter_mem, Function.update_of_ne h₁, Function.update_of_ne h₂]

theorem enter_cTaskPtr (hcur : L.Current t c) (hroom : L.Room t c.sp) :
    cTaskPtr (path.enter c).mem L.ctask = L.block t := by
  unfold cTaskPtr
  rw [enter_mem_of_not hroom (L.cell_stack t _ (Or.inl rfl)),
    enter_mem_of_not hroom (L.cell_stack t _ (Or.inr rfl))]
  exact hcur

theorem scratchFree (path : Path) (hcur : L.Current t c) (hroom : L.Room t c.sp) :
    ScratchFree L.ctask (path.enter c) where
  cellLo := fun hs => L.cell_stack t _ (Or.inl rfl) (inStack_scratch hroom hs)
  cellHi := fun hs => L.cell_stack t _ (Or.inr rfl) (inStack_scratch hroom hs)
  block := by
    intro q hq hs
    rw [enter_cTaskPtr hcur hroom] at hs
    exact disp_ne_stack hq (inStack_scratch hroom hs) rfl

theorem afterSave_mem (hcur : L.Current t c) (hroom : L.Room t c.sp) :
    (L.afterSave path c).mem = savedMem (path.enter c) (L.block t) := by
  obtain ⟨r, hr⟩ := exec_saveCtx (scratchFree path hcur hroom)
  unfold afterSave
  rw [hr, enter_cTaskPtr hcur hroom]

/-- A switch out of `t` writes the stack and the control block of `t` only. -/
theorem afterSave_of_not (hcur : L.Current t c) (hroom : L.Room t c.sp) {a : Word}
    (hs : ¬ L.InStack t a) (hb : ∀ q, InCpuState q → a ≠ L.block t + disp q) :
    (L.afterSave path c).mem a = c.mem a := by
  rw [afterSave_mem hcur hroom,
    savedMem_of_not (fun hc => hs (inStack_scratch hroom hc)) hb, enter_mem_of_not hroom hs]

/-- **Switching out suspends.** -/
theorem suspended_afterSave (path : Path) (hcur : L.Current t c) (hroom : L.Room t c.sp) :
    L.Suspended t (switchedOut c) (path.enter c).mem (L.afterSave path c).mem := by
  obtain ⟨hlo, hhi⟩ := hroom
  have hsp₁ : (c.sp - 1).toNat = c.sp.toNat - 1 := toNat_sub_one (by omega)
  have hsp : (c.sp - 1 - 1).toNat = c.sp.toNat - 1 - 1 := by
    rw [toNat_sub_one (by omega), hsp₁]
  refine ⟨?_, ?_, fun a ha hlive => ?_⟩
  · show L.stackLo t + 1 ≤ (c.sp - 1 - 1).toNat ∧ (c.sp - 1 - 1).toNat + 2 < L.stackHi t
    omega
  · rw [afterSave_mem hcur ⟨hlo, hhi⟩, ctxOf_savedMem, enter_r, enter_sp, enter_sreg]
    rfl
  · -- The scratch bytes lie at and below the saved stack pointer.
    have hlive' : (c.sp - 1 - 1).toNat < a.toNat := hlive
    rw [afterSave_mem hcur ⟨hlo, hhi⟩]
    refine savedMem_of_not ?_ fun q hq hc => disp_ne_stack hq ha hc.symm
    unfold Scratch
    rw [enter_sp]
    rintro (rfl | rfl | rfl)
    · omega
    · have hs : (c.sp - 1 - 1 - 1).toNat ≤ (c.sp - 1 - 1).toNat := by
        rw [toNat_sub_one (by omega)]
        exact Nat.sub_le _ _
      omega
    · have hs : (c.sp - 1 - 1 - 1).toNat = (c.sp - 1 - 1).toNat - 1 := toNat_sub_one (by omega)
      have hs' : (c.sp - 1 - 1 - 1 - 1).toNat = (c.sp - 1 - 1 - 1).toNat - 1 :=
        toNat_sub_one (by omega)
      omega

/-! ### Who leaves a suspended context alone -/

/-- A context is spoilt only through its `cpu_state` or its stack. -/
theorem Suspended.congr {mem mem' : Word → Byte} (h : L.Suspended t x ref mem)
    (hb : ∀ q, InCpuState q → mem' (L.block t + disp q) = mem (L.block t + disp q))
    (hs : ∀ a, L.InStack t a → x.sp.toNat < a.toNat → mem' a = mem a) :
    L.Suspended t x ref mem' :=
  ⟨h.fits, (ctxOf_congr hb).trans h.ctx, fun a ha hl => (hs a ha hl).trans (h.live a ha hl)⟩

theorem Suspended.taskCode (h : L.Suspended t x ref c.mem) (htu : t ≠ u)
    (hcode : L.TaskCode u c c') : L.Suspended t x ref c'.mem := by
  refine h.congr (fun q hq => hcode _ (Or.inr (Or.inl ⟨t, inBlock_disp hq⟩))) ?_
  exact fun a ha _ => hcode a (Or.inr (Or.inr ⟨t, htu, ha⟩))

theorem Suspended.afterSave (h : L.Suspended t x ref c.mem) (htu : t ≠ u) (hcur : L.Current u c)
    (hroom : L.Room u c.sp) : L.Suspended t x ref (L.afterSave path c).mem := by
  refine h.congr (fun q hq => ?_) (fun a ha _ => ?_)
  · exact afterSave_of_not hcur hroom (L.block_stack t u _ (inBlock_disp hq))
      fun q' hq' => disp_ne_disp htu hq hq'
  · refine afterSave_of_not hcur hroom (fun hc => htu (L.stack_inj t u a ha hc)) ?_
    exact fun q hq hc => disp_ne_stack hq ha hc.symm

theorem Suspended.kernelCode (h : L.Suspended t x ref c.mem) (hcode : L.KernelCode u c k) :
    L.Suspended t x ref k.mem := by
  refine h.congr (hcode.saved t) fun a ha hl => hcode.live t a ha ?_
  rw [h.ctx]
  exact hl

/-! ### The restore and the exit -/

theorem inStack_parked (h : L.Parked t c.mem) : L.InStack t (ctxOf c.mem (L.block t)).sp := by
  unfold Addresses.Parked at h
  unfold Addresses.InStack
  omega

theorem inStack_parked_sub (h : L.Parked t c.mem) :
    L.InStack t ((ctxOf c.mem (L.block t)).sp - 1) := by
  unfold Addresses.Parked at h
  unfold Addresses.InStack
  rw [toNat_sub_one (by omega)]
  omega

theorem passFree (h : L.Parked t c.mem) : PassFree c.mem (L.block t) where
  r30 := fun _ hq => disp_ne_stack hq (inStack_parked h)
  r31 := fun _ hq => disp_ne_stack hq (inStack_parked_sub h)

/-- The machine after a dispatch of `t`. -/
theorem afterRestore_eq (hcur : L.Current t k) (hpark : L.Parked t k.mem) {x : CpuRegisters}
    (hx : ctxOf k.mem (L.block t) = x) :
    L.afterRestore path k =
      { r := x.regs
        sp := x.sp + 1 + 1
        sreg := setI x.sreg
        pc := word (passMem k.mem x (x.sp + 1)) (passMem k.mem x (x.sp + 1 + 1))
        mem := passMem k.mem x } := by
  have hz : cTaskPtr k.mem L.ctask = L.block t := hcur
  unfold afterRestore
  rw [exec_restoreCtx (x := x) (by rw [hz]; exact hx) (by rw [hz]; exact passFree hpark)]
  cases path <;> rfl

/-- A dispatch of `t` writes the stack of `t` only. -/
theorem afterRestore_of_not (hcur : L.Current t k) (hpark : L.Parked t k.mem) {a : Word}
    (ha : ¬ L.InStack t a) : (L.afterRestore path k).mem a = k.mem a := by
  rw [afterRestore_eq hcur hpark rfl]
  refine passMem_of_ne ?_ ?_
  · intro hc
    exact ha (hc ▸ inStack_parked hpark)
  · intro hc
    exact ha (hc ▸ inStack_parked_sub hpark)

theorem Suspended.afterRestore (h : L.Suspended t x ref k.mem) (htu : t ≠ u)
    (hcur : L.Current u k) (hpark : L.Parked u k.mem) :
    L.Suspended t x ref (L.afterRestore path k).mem := by
  refine h.congr (fun q hq => ?_) (fun a ha _ => ?_)
  · exact afterRestore_of_not hcur hpark (L.block_stack t u _ (inBlock_disp hq))
  · exact afterRestore_of_not hcur hpark fun hc => htu (L.stack_inj t u a ha hc)

theorem Suspended.parked {mem : Word → Byte} (h : L.Suspended t x ref mem) : L.Parked t mem := by
  obtain ⟨hlo, hhi⟩ := h.fits
  unfold Addresses.Parked
  rw [h.ctx]
  omega

/-- The machine `c'` runs `t` from the context `x`, with interrupts enabled. -/
structure Resumed (L : Layout τ) (t : τ) (x : CpuRegisters) (ref : Word → Byte) (c' : Cpu) :
    Prop where
  r : c'.r = x.regs
  sp : c'.sp = x.sp + 1 + 1
  pc : c'.pc = word (ref (x.sp + 1)) (ref (x.sp + 1 + 1))
  sreg : c'.sreg = setI x.sreg
  live : ∀ a, L.InStack t a → x.sp.toNat < a.toNat → c'.mem a = ref a

/-- **Dispatching resumes** a suspended context. -/
theorem Suspended.resume (h : L.Suspended t x ref k.mem) (hcur : L.Current t k) :
    L.Resumed t x ref (L.afterRestore path k) := by
  have hpass : ∀ a, L.InStack t a → x.sp.toNat < a.toNat → passMem k.mem x a = ref a := by
    intro a ha hl
    obtain ⟨hlo, _⟩ := h.fits
    rw [passMem_of_ne, h.live a ha hl]
    · rintro rfl
      omega
    · rintro rfl
      have hs : (x.sp - 1).toNat = x.sp.toNat - 1 := toNat_sub_one (by omega)
      omega
  have hle := L.stackHi_le t
  obtain ⟨hlo, hhi⟩ := h.fits
  have h₁ : (x.sp + 1).toNat = x.sp.toNat + 1 := toNat_add_one (by omega)
  have h₂ : (x.sp + 1 + 1).toNat = x.sp.toNat + 1 + 1 := by
    rw [toNat_add_one (by omega), h₁]
  rw [afterRestore_eq hcur h.parked h.ctx]
  refine ⟨rfl, rfl, ?_, rfl, hpass⟩
  show word (passMem k.mem x (x.sp + 1)) (passMem k.mem x (x.sp + 1 + 1)) = _
  rw [hpass _ ⟨by omega, by omega⟩ (by omega), hpass _ ⟨by omega, by omega⟩ (by omega)]

/-! ### Steps and runs keep the invariant -/

theorem Parked.congr {mem mem' : Word → Byte} (h : L.Parked t mem)
    (hctx : ctxOf mem' (L.block t) = ctxOf mem (L.block t)) : L.Parked t mem' := by
  unfold Addresses.Parked
  rw [hctx]
  exact h

/-- Once the current task has been saved, every task is parked. -/
theorem parked_afterSave (h : ∀ u, u ≠ t → L.Parked u c.mem) (hcur : L.Current t c)
    (hroom : L.Room t c.sp) (w : τ) : L.Parked w (L.afterSave path c).mem := by
  by_cases hw : w = t
  · rw [hw]
    exact (suspended_afterSave path hcur hroom).parked
  · refine Parked.congr (h w hw) (ctxOf_congr fun q hq => ?_)
    exact afterSave_of_not hcur hroom (L.block_stack w t _ (inBlock_disp hq))
      fun q' hq' => disp_ne_disp hw hq hq'

theorem KernelCode.parked (h : ∀ w, L.Parked w c.mem) (hcode : L.KernelCode u c k) (w : τ) :
    L.Parked w k.mem :=
  Parked.congr (h w) (ctxOf_congr (hcode.saved w))

theorem current_afterRestore (hcur : L.Current u k) (hpark : L.Parked u k.mem) :
    L.Current u (L.afterRestore path k) :=
  current_congr (fun a ha => afterRestore_of_not hcur hpark (L.cell_stack u a ha)) hcur

theorem inv_step {e : Event τ} (h : L.Inv c) (hstep : L.Step c e c') : L.Inv c' := by
  obtain ⟨t, hcur, hpark⟩ := h
  cases hstep with
  | task hcur' hcode =>
      have ht := current_inj hcur hcur'
      subst ht
      refine ⟨t, current_congr (fun a ha => hcode a (Or.inl ha)) hcur, fun u hu => ?_⟩
      refine Parked.congr (hpark u hu) (ctxOf_congr fun q hq => ?_)
      exact hcode _ (Or.inr (Or.inl ⟨u, inBlock_disp hq⟩))
  | @switch t' u _ k path hcur' _ hroom hcode =>
      have ht := current_inj hcur hcur'
      subst ht
      have hall := KernelCode.parked (parked_afterSave hpark hcur hroom) hcode
      refine ⟨u, current_afterRestore hcode.current (hall u), fun w hw => ?_⟩
      refine Parked.congr (hall w) (ctxOf_congr fun q hq => ?_)
      exact afterRestore_of_not hcode.current (hall u) (L.block_stack w u _ (inBlock_disp hq))

theorem inv_run {es : List (Event τ)} (h : L.Inv c) (hrun : L.Run c es c') : L.Inv c' := by
  induction hrun with
  | nil => exact h
  | cons hstep _ ih => exact ih (inv_step h hstep)

/-! ### Out and back -/

theorem firstDispatch_cons {e : Event τ} {es : List (Event τ)}
    (h : FirstDispatch t (e :: es)) :
    (es = [] ∧ e.dispatched = some t) ∨ (e.dispatched ≠ some t ∧ FirstDispatch t es) := by
  obtain ⟨mid, path, hmid, hne⟩ := h
  cases mid with
  | nil =>
      obtain ⟨rfl, rfl⟩ := List.cons.inj hmid
      exact Or.inl ⟨rfl, rfl⟩
  | cons d mid =>
      obtain ⟨rfl, rfl⟩ := List.cons.inj hmid
      exact Or.inr ⟨hne _ (by simp), mid, path, rfl, fun e' he' => hne e' (by simp [he'])⟩

/-- The second half of a switch, when `t` is suspended at its middle. -/
theorem Suspended.dispatch (path : Path) (h : L.Suspended t x ref k.mem) (hcur : L.Current u k)
    (hpark : L.Parked u k.mem) :
    (u = t ∧ L.Resumed t x ref (L.afterRestore path k)) ∨
      (u ≠ t ∧ L.Suspended t x ref (L.afterRestore path k).mem ∧
        ¬ L.Current t (L.afterRestore path k)) := by
  by_cases hu : u = t
  · subst hu
    exact Or.inl ⟨rfl, h.resume hcur⟩
  · refine Or.inr ⟨hu, h.afterRestore (fun hc => hu hc.symm) hcur hpark, fun hc => ?_⟩
    exact hu (current_inj (current_afterRestore hcur hpark) hc)

/-- One step of a run while `t` is suspended. -/
theorem suspended_step {e : Event τ} (h : L.Suspended t x ref c.mem) (hinv : L.Inv c)
    (hout : ¬ L.Current t c) (hstep : L.Step c e c') :
    (e.dispatched = some t ∧ L.Resumed t x ref c') ∨
      (e.dispatched ≠ some t ∧ L.Suspended t x ref c'.mem ∧ ¬ L.Current t c') := by
  obtain ⟨s, hcur, hpark⟩ := hinv
  have hts : t ≠ s := by
    rintro rfl
    exact hout hcur
  cases hstep with
  | task hcur' hcode =>
      have hs := current_inj hcur hcur'
      subst hs
      refine Or.inr ⟨by simp [Event.dispatched], h.taskCode hts hcode, fun hc => ?_⟩
      exact hts (current_inj hc (current_congr (fun a ha => hcode a (Or.inl ha)) hcur))
  | @switch _ u _ k path hcur' _ hroom hcode =>
      have hs := current_inj hcur hcur'
      subst hs
      have hall := KernelCode.parked (parked_afterSave hpark hcur hroom) hcode
      have hk : L.Suspended t x ref k.mem := (h.afterSave hts hcur hroom).kernelCode hcode
      rcases hk.dispatch path hcode.current (hall u) with ⟨rfl, hres⟩ | ⟨hu, hrest⟩
      · exact Or.inl ⟨rfl, hres⟩
      · exact Or.inr ⟨by simpa [Event.dispatched] using hu, hrest⟩

/-- **A run that ends with the first dispatch of a suspended task resumes it.** -/
theorem suspended_run {es : List (Event τ)} (hrun : L.Run c es c') :
    L.Inv c → L.Suspended t x ref c.mem → ¬ L.Current t c → FirstDispatch t es →
      L.Resumed t x ref c' := by
  induction hrun with
  | nil c =>
      intro _ _ _ hfirst
      obtain ⟨mid, path, hmid, _⟩ := hfirst
      exact absurd hmid (by simp)
  | cons hstep hs ih =>
      intro hinv h hout hfirst
      rcases suspended_step h hinv hout hstep with ⟨he, hres⟩ | ⟨he, h', hout'⟩
      · rcases firstDispatch_cons hfirst with ⟨rfl, _⟩ | ⟨he', _⟩
        · cases hs
          exact hres
        · exact absurd he he'
      · rcases firstDispatch_cons hfirst with ⟨_, he'⟩ | ⟨_, hfirst'⟩
        · exact absurd he' he
        · exact ih (inv_step hinv hstep) h' hout' hfirst'

/-- A run that switches out of `t` and ends with its next dispatch resumes it. -/
theorem switch_run {es : List (Event τ)} (hinv : L.Inv c) (hcur : L.Current t c)
    (hrun : L.Run c (.switch path u :: es) c') (hfirst : FirstDispatch t (.switch path u :: es)) :
    L.Room t c.sp ∧ L.Resumed t (switchedOut c) (path.enter c).mem c' := by
  obtain ⟨s, hcur₁, hpark⟩ := hinv
  have hs := current_inj hcur hcur₁
  subst hs
  cases hrun with
  | cons hstep hs =>
      have hinv' := inv_step ⟨t, hcur, hpark⟩ hstep
      cases hstep with
      | @switch _ _ _ k _ hcur' _ hroom hcode =>
          have hs := current_inj hcur hcur'
          subst hs
          have hall := KernelCode.parked (parked_afterSave hpark hcur hroom) hcode
          have hk := (suspended_afterSave path hcur hroom).kernelCode hcode
          refine ⟨hroom, ?_⟩
          rcases hk.dispatch path hcode.current (hall u) with ⟨rfl, hres⟩ | ⟨hu, h, hout⟩
          · rcases firstDispatch_cons hfirst with ⟨rfl, _⟩ | ⟨he, _⟩
            · cases hs
              exact hres
            · exact absurd rfl he
          · rcases firstDispatch_cons hfirst with ⟨_, he⟩ | ⟨_, hfirst'⟩
            · exact absurd (Option.some.inj he) hu
            · exact suspended_run hs hinv' h hout hfirst'

/--
**Context isolation.**  In any run, take a switch out of a task `t` and the next
dispatch of `t`, by whichever paths.  Every register, the stack pointer and the
return address are then what they were when `t` was switched out, and so is the
status register, with the interrupt flag set.
-/
theorem switched_out_resumes (L : Layout τ) {c₀ c c' : Cpu} {t u : τ} {path : Path}
    {before after : List (Event τ)} (h₀ : L.Inv c₀) (hbefore : L.Run c₀ before c)
    (hcur : L.Current t c) (hafter : L.Run c (.switch path u :: after) c')
    (hfirst : FirstDispatch t (.switch path u :: after)) :
    c'.r = c.r ∧ c'.sp = c.sp ∧ c'.pc = c.pc ∧ c'.sreg = setI c.sreg := by
  obtain ⟨hroom, h⟩ := switch_run (inv_run h₀ hbefore) hcur hafter hfirst
  have hsp₁ : c.sp - 1 - 1 + 1 = c.sp - 1 := BitVec.sub_add_cancel _ _
  have hsp₂ : c.sp - 1 + 1 = c.sp := BitVec.sub_add_cancel _ _
  refine ⟨h.r, ?_, ?_, h.sreg.trans (setI_clearI c.sreg)⟩
  · rw [h.sp]
    show c.sp - 1 - 1 + 1 + 1 = c.sp
    rw [hsp₁, hsp₂]
  · -- The return address is what the entry pushed.
    rw [h.pc]
    show word ((path.enter c).mem (c.sp - 1 - 1 + 1)) ((path.enter c).mem (c.sp - 1 - 1 + 1 + 1)) = _
    rw [hsp₁, hsp₂, enter_mem, Function.update_self,
      Function.update_of_ne (ne_sub_self c.sp (by decide)), Function.update_self, word_hi8_lo8]

/-! ### Two tasks -/

/-- The least C code a switch can run: it points `c_task` at `u`. -/
def pointTo (L : Layout τ) (u : τ) (c : Cpu) : Cpu :=
  { c with
    mem := Function.update (Function.update c.mem L.ctask (lo8 (L.block u))) (L.ctask + 1)
      (hi8 (L.block u)) }

theorem pointTo_mem (u : τ) (c : Cpu) {a : Word} (ha : ¬ L.InCell a) :
    (L.pointTo u c).mem a = c.mem a := by
  have h₁ : a ≠ L.ctask + 1 := fun hc => ha (Or.inr hc)
  have h₂ : a ≠ L.ctask := fun hc => ha (Or.inl hc)
  show Function.update (Function.update c.mem L.ctask _) (L.ctask + 1) _ a = c.mem a
  rw [Function.update_of_ne h₁, Function.update_of_ne h₂]

theorem kernelCode_pointTo (u : τ) (c : Cpu) : L.KernelCode u c (L.pointTo u c) where
  saved := fun t _ hq => pointTo_mem u c fun hc => L.cell_block t _ hc (inBlock_disp hq)
  live := fun t a ha _ => pointTo_mem u c fun hc => L.cell_stack t a hc ha
  current := by
    simp [Addresses.Current, cTaskPtr, pointTo]

/-- A switch out of `t` that does no more than choose `u`. -/
def switchTo (L : Layout τ) (path : Path) (u : τ) (c : Cpu) : Cpu :=
  L.afterRestore path (L.pointTo u (L.afterSave path c))

theorem step_switchTo (path : Path) (u : τ) (hcur : L.Current t c) (htaken : path.Taken c)
    (hroom : L.Room t c.sp) : L.Step c (.switch path u) (L.switchTo path u c) :=
  .switch path hcur htaken hroom (kernelCode_pointTo u _)

/-- A task that has not run yet starts two bytes above its stack pointer. -/
theorem switchTo_fresh (path : Path) (hut : u ≠ t) (hcur : L.Current t c) (hroom : L.Room t c.sp)
    (hpark : L.Parked u c.mem) :
    L.Current u (L.switchTo path u c) ∧
      (L.switchTo path u c).sp = (ctxOf c.mem (L.block u)).sp + 1 + 1 := by
  have hcode := kernelCode_pointTo (L := L) u (L.afterSave path c)
  have hctx : ctxOf (L.pointTo u (L.afterSave path c)).mem (L.block u) =
      ctxOf c.mem (L.block u) := by
    refine (ctxOf_congr (hcode.saved u)).trans (ctxOf_congr fun q hq => ?_)
    exact afterSave_of_not hcur hroom (L.block_stack u t _ (inBlock_disp hq))
      fun q' hq' => disp_ne_disp hut hq hq'
  have hpark' := Parked.congr hpark hctx
  refine ⟨current_afterRestore hcode.current hpark', ?_⟩
  unfold switchTo
  rw [afterRestore_eq hcode.current hpark' hctx]

/-- Two control blocks and two stacks of 64 bytes. -/
def twoTasks : Layout Bool where
  ctask := 0x100
  block := fun t => if t then 0x160 else 0x110
  stackLo := fun t => if t then 0x240 else 0x200
  stackHi := fun t => if t then 0x280 else 0x240
  block_le := by decide
  stackLo_pos := by decide
  stackHi_le := by decide
  block_inj := by
    intro t u a
    cases t <;> cases u <;> simp [Addresses.InBlock, sizeofTaskData] <;> omega
  stack_inj := by
    intro t u a
    cases t <;> cases u <;> simp [Addresses.InStack] <;> omega
  block_stack := by
    intro t u a
    cases t <;> cases u <;>
      simp [Addresses.InBlock, Addresses.InStack, sizeofTaskData] <;> omega
  cell_block := by
    intro t a ha
    rcases ha with rfl | rfl <;> cases t <;> simp [Addresses.InBlock]
  cell_stack := by
    intro t a ha
    rcases ha with rfl | rfl <;> cases t <;> simp [Addresses.InStack]

/-- The first task runs, and the second has just been created. -/
def twoTasksCpu : Cpu where
  r := fun k => BitVec.ofNat 8 k.val
  sp := 0x230
  sreg := 0x83
  pc := 0x1234
  mem := fun a =>
    if a = 0x100 then 0x10 else if a = 0x101 then 0x01
    else if a = 0x196 then 0x7D else if a = 0x197 then 0x02 else 0

theorem twoTasksCpu_current : twoTasks.Current false twoTasksCpu := rfl

theorem twoTasksCpu_parked : twoTasks.Parked true twoTasksCpu.mem := by
  unfold Addresses.Parked
  decide

theorem twoTasksCpu_inv : twoTasks.Inv twoTasksCpu := by
  refine ⟨false, twoTasksCpu_current, fun u hu => ?_⟩
  cases u with
  | false => exact absurd rfl hu
  | true => exact twoTasksCpu_parked

/-- Task code that overwrites every register. -/
def scramble (c : Cpu) : Cpu := { c with r := fun _ => 0xFF }

theorem step_scramble (hcur : L.Current t c) : L.Step c .task (scramble c) :=
  .task hcur fun _ _ => rfl

theorem current_scramble (hcur : L.Current t c) : L.Current t (scramble c) := hcur

theorem scramble_sp (c : Cpu) : (scramble c).sp = c.sp := rfl

/-- The first task is interrupted, the second overwrites every register and yields. -/
theorem switched_out_resumes_twoTasks :
    let c' := twoTasks.switchTo .yield false (scramble (twoTasks.switchTo .isr true twoTasksCpu))
    c'.r = twoTasksCpu.r ∧ c'.sp = 0x230 ∧ c'.pc = 0x1234 ∧ c'.sreg = 0x83 := by
  have hroom : twoTasks.Room false twoTasksCpu.sp := by
    unfold Addresses.Room
    decide
  have hout := step_switchTo .isr true twoTasksCpu_current rfl hroom
  obtain ⟨hcur, hsp⟩ :=
    switchTo_fresh .isr (by decide) twoTasksCpu_current hroom twoTasksCpu_parked
  generalize twoTasks.switchTo .isr true twoTasksCpu = c₁ at *
  have hroom' : twoTasks.Room true (scramble c₁).sp := by
    rw [scramble_sp, hsp]
    unfold Addresses.Room
    decide
  have hback := step_switchTo .yield false (current_scramble hcur) trivial hroom'
  exact switched_out_resumes twoTasks twoTasksCpu_inv (Run.nil _) twoTasksCpu_current
    (.cons hout (.cons (step_scramble hcur) (.cons hback (.nil _))))
    ⟨[.switch .isr true, .task], .yield, rfl, by decide⟩

end Layout

end AtmegaScheduler
