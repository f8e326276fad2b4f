/-
The two halves of a context switch, instruction by instruction.

`_SAVE_CTX` and `_RESTORE_CTX` are transcribed with the offsets the compiler
substitutes: the build packs structures and shortens enumerations, so a control
block starts with two bytes of link, fifteen of name, one of state and four of
stack, and the saved registers come next.

Registers 28 to 31 are scratch and payload at once.  The save keeps r29, r30 and
r31 on the stack of the task it saves while it needs them, and the restore passes
r30 and r31 through the stack of the task it restores, because Z is what the
loads go through.
-/
import AtmegaScheduler.Kernel.Task
import Mathlib.Data.List.FinRange

namespace AtmegaScheduler

open Avr

/-! ### Offsets -/

/-- `offsetof(task_data_t, cpu_state.regs[0])` -/
def r0Offset : Nat := 22

/-- `offsetof(task_data_t, cpu_state.regs[k])` -/
def regOffset (k : Reg) : Fin 64 := ⟨r0Offset + k.val, by unfold r0Offset; omega⟩

/-- `offsetof(task_data_t, cpu_state.sp)` -/
def spOffset : Fin 64 := 54

/-- `offsetof(task_data_t, cpu_state.sreg)` -/
def sregOffset : Fin 64 := 56

/-- `sizeof(task_data_t)` -/
def sizeofTaskData : Nat := 67

theorem regOffset_inj {k k' : Reg} : regOffset k = regOffset k' ↔ k = k' := by
  unfold regOffset
  rw [Fin.mk.injEq, Nat.add_left_cancel_iff, Fin.ext_iff]

theorem regOffset_lt (k : Reg) : (regOffset k).val < spOffset.val := by
  show 22 + k.val < 54
  omega

theorem regOffset_ne_sp (k : Reg) : regOffset k ≠ spOffset := by
  have h := regOffset_lt k
  intro hc
  rw [hc] at h
  omega

theorem regOffset_ne_spHi (k : Reg) : regOffset k ≠ spOffset + 1 := by
  have h := regOffset_lt k
  intro hc
  rw [hc] at h
  exact absurd h (by decide)

theorem regOffset_ne_sreg (k : Reg) : regOffset k ≠ sregOffset := by
  have h := regOffset_lt k
  intro hc
  rw [hc] at h
  exact absurd h (by decide)

/-- The bytes of `cpu_state` in a control block. -/
def InCpuState (q : Fin 64) : Prop := r0Offset ≤ q.val ∧ q.val ≤ sregOffset.val

instance (q : Fin 64) : Decidable (InCpuState q) :=
  inferInstanceAs (Decidable (r0Offset ≤ q.val ∧ q.val ≤ sregOffset.val))

theorem inCpuState_reg (k : Reg) : InCpuState (regOffset k) := by
  show 22 ≤ 22 + k.val ∧ 22 + k.val ≤ 56
  omega

/-- The saved registers of the control block at `z`. -/
def ctxOf (mem : Word → Byte) (z : Word) : CpuRegisters where
  regs := fun k => mem (z + disp (regOffset k))
  sp := word (mem (z + disp (spOffset + 1))) (mem (z + disp spOffset))
  sreg := mem (z + disp sregOffset)

/-- The saved registers depend on the bytes of `cpu_state` only. -/
theorem ctxOf_congr {mem mem' : Word → Byte} {z : Word}
    (h : ∀ q, InCpuState q → mem' (z + disp q) = mem (z + disp q)) :
    ctxOf mem' z = ctxOf mem z := by
  unfold ctxOf
  rw [h (spOffset + 1) (by decide), h spOffset (by decide), h sregOffset (by decide)]
  congr 1
  funext k
  exact h _ (inCpuState_reg k)

/-! ### The code -/

/-- The stores of r0 to r28. -/
def lowStores : List (Fin 64 × Reg) :=
  (List.finRange 29).map fun k => (regOffset (k.castLE (by decide)), k.castLE (by decide))

/-- The loads of r0 to r29. -/
def lowLoads : List (Reg × Fin 64) :=
  (List.finRange 30).map fun k => (k.castLE (by decide), regOffset (k.castLE (by decide)))

/-- `_SAVE_CTX` up to the loads of Z. -/
def saveEnter (ctask : Word) : List Instr :=
  [.cli, .push 29, .push 30, .push 31, .lds 30 ctask, .lds 31 (ctask + 1)]

/-- What `_SAVE_CTX` stores by way of r29. -/
def saveHigh : List Instr :=
  [.in 29 .sreg, .std sregOffset 29,
   .pop 29, .std (regOffset 31) 29,
   .pop 29, .std (regOffset 30) 29,
   .pop 29, .std (regOffset 29) 29,
   .in 29 .spl, .std spOffset 29,
   .in 29 .sph, .std (spOffset + 1) 29]

/-- `_SAVE_CTX` -/
def saveCtx (ctask : Word) : List Instr :=
  saveEnter ctask ++ saveHigh ++ lowStores.map fun p => .std p.1 p.2

/-- `_RESTORE_CTX` up to the write of the status register. -/
def restoreEnter (ctask : Word) : List Instr :=
  [.lds 30 ctask, .lds 31 (ctask + 1), .ldd 29 sregOffset, .out .sreg 29]

/-- What `_RESTORE_CTX` loads by way of r28 and r29: the stack pointer, and r30
and r31, which go on the stack. -/
def restoreHigh : List Instr :=
  [.ldd 28 spOffset, .ldd 29 (spOffset + 1), .out .spl 28, .out .sph 29,
   .ldd 28 (regOffset 30), .ldd 29 (regOffset 30 + 1), .push 28, .push 29]

/-- `_RESTORE_CTX` -/
def restoreCtx (ctask : Word) : List Instr :=
  restoreEnter ctask ++ restoreHigh ++ (lowLoads.map fun p => .ldd p.1 p.2) ++ [.pop 31, .pop 30]

/-- The pointer stored in the cell `c_task`. -/
def cTaskPtr (mem : Word → Byte) (ctask : Word) : Word := word (mem (ctask + 1)) (mem ctask)

/-! ### What the save does -/

/-- The three bytes `_SAVE_CTX` uses below the stack pointer. -/
def Scratch (c : Cpu) (a : Word) : Prop := a = c.sp ∨ a = c.sp - 1 ∨ a = c.sp - 1 - 1

/-- The scratch bytes overlap neither `c_task` nor the block it points to. -/
structure ScratchFree (ctask : Word) (c : Cpu) : Prop where
  cellLo : ¬ Scratch c ctask
  cellHi : ¬ Scratch c (ctask + 1)
  block : ∀ q, InCpuState q → ¬ Scratch c (cTaskPtr c.mem ctask + disp q)

theorem ScratchFree.ne {ctask : Word} {c : Cpu} (h : ScratchFree ctask c) {a : Word}
    {q : Fin 64} (ha : Scratch c a) (hq : InCpuState q) : a ≠ cTaskPtr c.mem ctask + disp q := by
  intro hc
  rw [hc] at ha
  exact h.block q hq ha

/-- The memory once r29, r30 and r31 are on the stack. -/
def pushScratch (c : Cpu) : Word → Byte :=
  Function.update (Function.update (Function.update c.mem c.sp (c.r 29)) (c.sp - 1) (c.r 30))
    (c.sp - 1 - 1) (c.r 31)

theorem pushScratch_of_not {c : Cpu} {a : Word} (h : ¬ Scratch c a) :
    pushScratch c a = c.mem a := by
  unfold Scratch at h
  push Not at h
  unfold pushScratch
  rw [Function.update_of_ne h.2.2, Function.update_of_ne h.2.1, Function.update_of_ne h.1]

theorem pushScratch_r31 (c : Cpu) : pushScratch c (c.sp - 1 - 1) = c.r 31 :=
  Function.update_self _ _ _

theorem pushScratch_r30 (c : Cpu) : pushScratch c (c.sp - 1) = c.r 30 := by
  unfold pushScratch
  rw [Function.update_of_ne (by bv_omega), Function.update_self]

theorem pushScratch_r29 (c : Cpu) : pushScratch c c.sp = c.r 29 := by
  unfold pushScratch
  rw [Function.update_of_ne (by bv_omega), Function.update_of_ne (by bv_omega),
    Function.update_self]

/-- A save in progress: only r29, the stack pointer and the memory change. -/
def saving (c : Cpu) (v : Byte) (sp : Word) (mem : Word → Byte) : Cpu :=
  { c with r := Function.update c.r 29 v, sp := sp, mem := mem }

section Saving

variable (c : Cpu) (v : Byte) (sp : Word) (mem : Word → Byte) (q : Fin 64) (prog : List Instr)

theorem saving_self : saving c (c.r 29) c.sp c.mem = c := by
  unfold saving
  rw [Function.update_eq_self]

@[simp] theorem saving_z : (saving c v sp mem).z = c.z := rfl
@[simp] theorem saving_readSreg : (saving c v sp mem).readIo .sreg = c.sreg := rfl
@[simp] theorem saving_readSpl : (saving c v sp mem).readIo .spl = lo8 sp := rfl
@[simp] theorem saving_readSph : (saving c v sp mem).readIo .sph = hi8 sp := rfl

theorem saving_in_std (io : IoReg) :
    exec (.in 29 io :: .std q 29 :: prog) (saving c v sp mem) =
      exec prog (saving c ((saving c v sp mem).readIo io) sp
        (Function.update mem (c.z + disp q) ((saving c v sp mem).readIo io))) := by
  simp [saving, exec1, Cpu.z]

theorem saving_pop_std :
    exec (.pop 29 :: .std q 29 :: prog) (saving c v sp mem) =
      exec prog (saving c (mem (sp + 1)) (sp + 1)
        (Function.update mem (c.z + disp q) (mem (sp + 1)))) := by
  simp [saving, exec1, Cpu.z]

end Saving

/-- What `saveHigh` writes to the control block at `z`. -/
def saveHighMem (c : Cpu) (z : Word) : Word → Byte :=
  Function.update
    (Function.update
      (Function.update
        (Function.update
          (Function.update
            (Function.update (pushScratch c) (z + disp sregOffset) (clearI c.sreg))
            (z + disp (regOffset 31)) (c.r 31))
          (z + disp (regOffset 30)) (c.r 30))
        (z + disp (regOffset 29)) (c.r 29))
      (z + disp spOffset) (lo8 c.sp))
    (z + disp (spOffset + 1)) (hi8 c.sp)

theorem exec_saveEnter_z {ctask : Word} {c : Cpu} (h : ScratchFree ctask c) :
    (exec (saveEnter ctask) c).z = cTaskPtr c.mem ctask := by
  show word (pushScratch c (ctask + 1)) (pushScratch c ctask) = _
  rw [pushScratch_of_not h.cellLo, pushScratch_of_not h.cellHi]
  rfl

theorem exec_saveHigh {ctask : Word} {c : Cpu} (h : ScratchFree ctask c) :
    exec saveHigh (exec (saveEnter ctask) c) =
      saving (exec (saveEnter ctask) c) (hi8 c.sp) c.sp
        (saveHighMem c (cTaskPtr c.mem ctask)) := by
  have hz := exec_saveEnter_z h
  have hm : (exec (saveEnter ctask) c).mem = pushScratch c := rfl
  have hsp : (exec (saveEnter ctask) c).sp = c.sp - 1 - 1 - 1 := rfl
  have hsreg : (exec (saveEnter ctask) c).sreg = clearI c.sreg := rfl
  have h₁ : c.sp - 1 + 1 = c.sp := BitVec.sub_add_cancel _ _
  have h₂ : c.sp - 1 - 1 + 1 = c.sp - 1 := BitVec.sub_add_cancel _ _
  have h₃ : c.sp - 1 - 1 - 1 + 1 = c.sp - 1 - 1 := BitVec.sub_add_cancel _ _
  generalize exec (saveEnter ctask) c = c₁ at *
  have hself := saving_self c₁
  rw [hm, hsp] at hself
  nth_rewrite 1 [← hself]
  unfold saveHigh
  rw [saving_in_std, saving_pop_std, saving_pop_std, saving_pop_std, saving_in_std,
    saving_in_std, exec_nil]
  simp only [saving_readSreg, saving_readSpl, saving_readSph, hz, hsreg, h₁, h₂, h₃]
  -- The three pops read below what has been written to the block so far.
  have hr31 : Scratch c (c.sp - 1 - 1) := Or.inr (Or.inr rfl)
  have hr30 : Scratch c (c.sp - 1) := Or.inr (Or.inl rfl)
  have hr29 : Scratch c c.sp := Or.inl rfl
  rw [Function.update_of_ne (h.ne hr31 (by decide)), pushScratch_r31]
  rw [Function.update_of_ne (h.ne hr30 (by decide)), Function.update_of_ne (h.ne hr30 (by decide)),
    pushScratch_r30]
  rw [Function.update_of_ne (h.ne hr29 (by decide)), Function.update_of_ne (h.ne hr29 (by decide)),
    Function.update_of_ne (h.ne hr29 (by decide)), pushScratch_r29]
  rfl

theorem mem_lowStores {p : Fin 64 × Reg} :
    p ∈ lowStores ↔ p.2.val < 29 ∧ p.1 = regOffset p.2 := by
  unfold lowStores
  rw [List.mem_map]
  constructor
  · intro ⟨k, _, hk⟩
    rw [← hk]
    exact ⟨k.isLt, rfl⟩
  · intro ⟨hk, hq⟩
    exact ⟨⟨p.2.val, hk⟩, List.mem_finRange _, Prod.ext hq.symm rfl⟩

theorem nodup_lowStores : (lowStores.map (·.1)).Nodup := by
  decide

/-- What a save leaves in memory. -/
def savedMem (c : Cpu) (z : Word) : Word → Byte :=
  storeAll z c.r (saveHighMem c z) lowStores

theorem saveHighMem_of_not {c : Cpu} {z a : Word} (hs : ¬ Scratch c a)
    (hq : ∀ q, InCpuState q → a ≠ z + disp q) : saveHighMem c z a = c.mem a := by
  unfold saveHighMem
  rw [Function.update_of_ne (hq _ (by decide)), Function.update_of_ne (hq _ (by decide)),
    Function.update_of_ne (hq _ (by decide)), Function.update_of_ne (hq _ (by decide)),
    Function.update_of_ne (hq _ (by decide)), Function.update_of_ne (hq _ (by decide)),
    pushScratch_of_not hs]

/-- A save writes nothing but its scratch bytes and one `cpu_state`. -/
theorem savedMem_of_not {c : Cpu} {z a : Word} (hs : ¬ Scratch c a)
    (hq : ∀ q, InCpuState q → a ≠ z + disp q) : savedMem c z a = c.mem a := by
  unfold savedMem
  rw [storeAll_of_forall_ne, saveHighMem_of_not hs hq]
  intro p hp
  rw [(mem_lowStores.mp hp).2]
  exact hq _ (inCpuState_reg p.2)

/-- The stores of r0 to r28 leave the other bytes of `cpu_state` alone. -/
theorem savedMem_high (c : Cpu) (z : Word) {q : Fin 64}
    (hq : ∀ k : Reg, k.val < 29 → q ≠ regOffset k) :
    savedMem c z (z + disp q) = saveHighMem c z (z + disp q) := by
  refine storeAll_of_forall_ne _ _ fun p hp hc => ?_
  obtain ⟨hk, hp₁⟩ := mem_lowStores.mp hp
  rw [hp₁] at hc
  exact hq p.2 hk (disp_inj.mp hc)

theorem savedMem_reg (c : Cpu) (z : Word) (k : Reg) :
    savedMem c z (z + disp (regOffset k)) = c.r k := by
  by_cases hk : k.val < 29
  · exact storeAll_of_mem _ _ (mem_lowStores.mpr ⟨hk, rfl⟩) nodup_lowStores
  · have hne : ∀ j : Reg, j.val < 29 → regOffset k ≠ regOffset j := by
      intro j hj hc
      rw [regOffset_inj.mp hc] at hk
      exact hk hj
    rw [savedMem_high c z hne]
    unfold saveHighMem
    simp only [Function.update_apply, disp_inj]
    have hcases : k = 29 ∨ k = 30 ∨ k = 31 := by
      simp only [Fin.ext_iff]
      show k.val = 29 ∨ k.val = 30 ∨ k.val = 31
      omega
    rcases hcases with rfl | rfl | rfl
    · rfl
    · rfl
    · rfl

/-- **What a save leaves in the control block.** -/
theorem ctxOf_savedMem (c : Cpu) (z : Word) :
    ctxOf (savedMem c z) z = ⟨c.r, c.sp, clearI c.sreg⟩ := by
  have hlo : savedMem c z (z + disp spOffset) = lo8 c.sp := by
    rw [savedMem_high c z fun k _ hc => regOffset_ne_sp k hc.symm]
    unfold saveHighMem
    rw [Function.update_of_ne (disp_inj.not.mpr (by decide)), Function.update_self]
  have hhi : savedMem c z (z + disp (spOffset + 1)) = hi8 c.sp := by
    rw [savedMem_high c z fun k _ hc => regOffset_ne_spHi k hc.symm]
    exact Function.update_self _ _ _
  have hsreg : savedMem c z (z + disp sregOffset) = clearI c.sreg := by
    rw [savedMem_high c z fun k _ hc => regOffset_ne_sreg k hc.symm]
    unfold saveHighMem
    simp only [Function.update_apply, disp_inj]
    rfl
  unfold ctxOf
  rw [hlo, hhi, hsreg, word_hi8_lo8]
  congr 1
  funext k
  exact savedMem_reg c z k

/-- **A save**: the context goes to the block `c_task` points to, and of the rest
of the machine only the scratch registers, the scratch bytes and the interrupt
flag change. -/
theorem exec_saveCtx {ctask : Word} {c : Cpu} (h : ScratchFree ctask c) :
    ∃ r, exec (saveCtx ctask) c =
      { r := r, sp := c.sp, sreg := clearI c.sreg, pc := c.pc,
        mem := savedMem c (cTaskPtr c.mem ctask) } := by
  unfold saveCtx
  rw [exec_append, exec_append, exec_saveHigh h, exec_std_block, saving_z, exec_saveEnter_z h]
  generalize hc₁ : saving (exec (saveEnter ctask) c) (hi8 c.sp) c.sp
    (saveHighMem c (cTaskPtr c.mem ctask)) = c₁
  -- r0 to r28 still hold what the task left in them.
  have hlow : ∀ p ∈ lowStores, c₁.r p.2 = c.r p.2 := by
    intro p hp
    have hk := (mem_lowStores.mp hp).1
    have h₂₉ : p.2 ≠ 29 := fun hc => by rw [hc] at hk; exact absurd hk (by decide)
    have h₃₀ : p.2 ≠ 30 := fun hc => by rw [hc] at hk; exact absurd hk (by decide)
    have h₃₁ : p.2 ≠ 31 := fun hc => by rw [hc] at hk; exact absurd hk (by decide)
    rw [← hc₁]
    show Function.update (Function.update (Function.update c.r 30 _) 31 _) 29 _ p.2 = c.r p.2
    rw [Function.update_of_ne h₂₉, Function.update_of_ne h₃₁, Function.update_of_ne h₃₀]
  rw [storeAll_congr lowStores _ hlow, ← hc₁]
  exact ⟨_, rfl⟩

/-! ### What the restore does -/

/-- The two bytes `_RESTORE_CTX` uses below the stack pointer it loads overlap no
byte it has still to read. -/
structure PassFree (mem : Word → Byte) (z : Word) : Prop where
  r30 : ∀ q, InCpuState q → z + disp q ≠ (ctxOf mem z).sp
  r31 : ∀ q, InCpuState q → z + disp q ≠ (ctxOf mem z).sp - 1

/-- The memory once r30 and r31 of the context `x` are on its stack. -/
def passMem (mem : Word → Byte) (x : CpuRegisters) : Word → Byte :=
  Function.update (Function.update mem x.sp (x.regs 30)) (x.sp - 1) (x.regs 31)

theorem passMem_of_ne {mem : Word → Byte} {x : CpuRegisters} {a : Word} (h₁ : a ≠ x.sp)
    (h₂ : a ≠ x.sp - 1) : passMem mem x a = mem a := by
  unfold passMem
  rw [Function.update_of_ne h₂, Function.update_of_ne h₁]

theorem passMem_r31 (mem : Word → Byte) (x : CpuRegisters) : passMem mem x (x.sp - 1) = x.regs 31 :=
  Function.update_self _ _ _

theorem passMem_r30 (mem : Word → Byte) (x : CpuRegisters) : passMem mem x x.sp = x.regs 30 := by
  unfold passMem
  rw [Function.update_of_ne (by bv_omega), Function.update_self]

theorem ctxOf_passMem {mem : Word → Byte} {z : Word} (h : PassFree mem z) :
    ctxOf (passMem mem (ctxOf mem z)) z = ctxOf mem z :=
  ctxOf_congr fun q hq => passMem_of_ne (h.r30 q hq) (h.r31 q hq)

/-- A restore in progress: r28 and r29 are scratch. -/
def restoring (c : Cpu) (v w : Byte) (sp : Word) (mem : Word → Byte) : Cpu :=
  { c with r := Function.update (Function.update c.r 28 v) 29 w, sp := sp, mem := mem }

section Restoring

variable (c : Cpu) (v w : Byte) (sp : Word) (mem : Word → Byte) (q q' : Fin 64)
  (prog : List Instr)

theorem restoring_self : restoring c (c.r 28) (c.r 29) c.sp c.mem = c := by
  unfold restoring
  rw [Function.update_eq_self, Function.update_eq_self]

@[simp] theorem restoring_z : (restoring c v w sp mem).z = c.z := rfl

theorem restoring_ldd_ldd :
    exec (.ldd 28 q :: .ldd 29 q' :: prog) (restoring c v w sp mem) =
      exec prog (restoring c (mem (c.z + disp q)) (mem (c.z + disp q')) sp mem) := by
  have h : ∀ r : Reg → Byte, ∀ a b a' b' : Byte,
      Function.update (Function.update (Function.update (Function.update r 28 a) 29 b) 28 a') 29 b'
        = Function.update (Function.update r 28 a') 29 b' := by
    intro r a b a' b'
    rw [Function.update_comm (by decide : (29 : Reg) ≠ 28), Function.update_idem,
      Function.update_idem]
  simp only [restoring, exec_cons, exec1, h]
  rfl

theorem restoring_out_out :
    exec (.out .spl 28 :: .out .sph 29 :: prog) (restoring c v w sp mem) =
      exec prog (restoring c v w (word w v) mem) := by
  simp [restoring, exec1, Cpu.writeIo]

theorem restoring_push_push :
    exec (.push 28 :: .push 29 :: prog) (restoring c v w sp mem) =
      exec prog (restoring c v w (sp - 1 - 1)
        (Function.update (Function.update mem sp v) (sp - 1) w)) := by
  simp [restoring, exec1, Cpu.pushByte]

end Restoring

theorem exec_restoreEnter (ctask : Word) (c : Cpu) :
    ∃ r, exec (restoreEnter ctask) c =
      { c with r := r, sreg := (ctxOf c.mem (cTaskPtr c.mem ctask)).sreg } ∧
      word (r 31) (r 30) = cTaskPtr c.mem ctask :=
  ⟨_, rfl, rfl⟩

theorem exec_restoreHigh (c : Cpu) :
    ∃ v w, exec restoreHigh c =
      restoring c v w ((ctxOf c.mem c.z).sp - 1 - 1) (passMem c.mem (ctxOf c.mem c.z)) := by
  refine ⟨(ctxOf c.mem c.z).regs 30, (ctxOf c.mem c.z).regs 31, ?_⟩
  nth_rewrite 1 [← restoring_self c]
  unfold restoreHigh
  rw [restoring_ldd_ldd, restoring_out_out, restoring_ldd_ldd, restoring_push_push, exec_nil]
  rfl

theorem mem_lowLoads {p : Reg × Fin 64} :
    p ∈ lowLoads ↔ p.1.val < 30 ∧ p.2 = regOffset p.1 := by
  unfold lowLoads
  rw [List.mem_map]
  constructor
  · intro ⟨k, _, hk⟩
    rw [← hk]
    exact ⟨k.isLt, rfl⟩
  · intro ⟨hk, hq⟩
    exact ⟨⟨p.1.val, hk⟩, List.mem_finRange _, Prod.ext rfl hq.symm⟩

theorem nodup_lowLoads : (lowLoads.map (·.1)).Nodup := by
  decide

theorem lowLoads_ne : ∀ p ∈ lowLoads, p.1 ≠ 30 ∧ p.1 ≠ 31 := by
  intro p hp
  have hk := (mem_lowLoads.mp hp).1
  constructor
  · intro hc
    rw [hc] at hk
    exact absurd hk (by decide)
  · intro hc
    rw [hc] at hk
    exact absurd hk (by decide)

/-- The last two instructions of a restore. -/
theorem exec_pop_pop (c : Cpu) :
    exec [.pop 31, .pop 30] c =
      { c with
        r := Function.update (Function.update c.r 31 (c.mem (c.sp + 1))) 30 (c.mem (c.sp + 1 + 1))
        sp := c.sp + 1 + 1 } := rfl

/-- **A restore**: every register, the stack pointer and the status register come
from the block `c_task` points to, and of memory only the two bytes below the new
stack pointer change. -/
theorem exec_restoreCtx {ctask : Word} {c : Cpu} {x : CpuRegisters}
    (hx : ctxOf c.mem (cTaskPtr c.mem ctask) = x) (h : PassFree c.mem (cTaskPtr c.mem ctask)) :
    exec (restoreCtx ctask) c =
      { r := x.regs, sp := x.sp, sreg := x.sreg, pc := c.pc, mem := passMem c.mem x } := by
  obtain ⟨r₁, h₁, hz₁⟩ := exec_restoreEnter ctask c
  obtain ⟨v, w, h₂⟩ := exec_restoreHigh (exec (restoreEnter ctask) c)
  unfold restoreCtx
  rw [exec_append, exec_append, exec_append, h₂, exec_ldd_block _ _ lowLoads_ne, exec_pop_pop]
  have hz : (exec (restoreEnter ctask) c).z = cTaskPtr c.mem ctask := by
    rw [h₁]
    exact hz₁
  have hm : (exec (restoreEnter ctask) c).mem = c.mem := by rw [h₁]
  have hpc : (exec (restoreEnter ctask) c).pc = c.pc := by rw [h₁]
  have hs : (exec (restoreEnter ctask) c).sreg = x.sreg := by rw [h₁, hx]
  have hctx : ctxOf (passMem c.mem x) (cTaskPtr c.mem ctask) = x := by
    rw [← hx]
    exact ctxOf_passMem h
  have hsp₁ : x.sp - 1 - 1 + 1 = x.sp - 1 := BitVec.sub_add_cancel _ _
  have hsp₂ : x.sp - 1 + 1 = x.sp := BitVec.sub_add_cancel _ _
  simp only [restoring, hz, hm, hpc, hs, hx, hsp₁, hsp₂, passMem_r31, passMem_r30]
  congr 1
  funext k
  by_cases h30 : k = 30
  · rw [h30, Function.update_self]
  by_cases h31 : k = 31
  · rw [h31, Function.update_of_ne (by decide), Function.update_self]
  rw [Function.update_of_ne h30, Function.update_of_ne h31]
  have hk : k.val < 30 := by
    have := Fin.val_ne_of_ne h30
    have := Fin.val_ne_of_ne h31
    omega
  have hmem : (k, regOffset k) ∈ lowLoads := mem_lowLoads.mpr ⟨hk, rfl⟩
  rw [loadAll_of_mem _ _ hmem nodup_lowLoads]
  exact congrFun (congrArg CpuRegisters.regs hctx) k

end AtmegaScheduler
