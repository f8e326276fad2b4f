/-
The part of the AVR that a context switch uses.

Registers, stack pointer, status register, program counter and data memory, and
the dozen instructions that move bytes between them.  The data space is modelled
as RAM only: the register file and the I/O registers, which the hardware also
maps into it, are fields of their own, so nothing here says what a pointer below
the RAM would hit.

`pc` is the address execution resumes at when a routine returns.  Inside a
straight-line routine the position is the list of instructions still to run, so
`pc` moves only where the hardware stacks or unstacks it.
-/
import AtmegaScheduler.Lib.Numerals
import Mathlib.Logic.Function.Basic

namespace AtmegaScheduler.Avr

abbrev Byte := BitVec 8
abbrev Word := BitVec 16

/-- The low byte of a word. -/
def lo8 (w : Word) : Byte := w.extractLsb' 0 8

/-- The high byte of a word. -/
def hi8 (w : Word) : Byte := w.extractLsb' 8 8

/-- The word with the given high and low byte. -/
def word (h l : Byte) : Word := h ++ l

@[simp] theorem lo8_word (h l : Byte) : lo8 (word h l) = l :=
  BitVec.extractLsb'_append_eq_right

@[simp] theorem hi8_word (h l : Byte) : hi8 (word h l) = h :=
  BitVec.extractLsb'_append_eq_left

@[simp] theorem word_hi8_lo8 (w : Word) : word (hi8 w) (lo8 w) = w :=
  (BitVec.extractLsb'_append_extractLsb' : w.extractLsb' 8 8 ++ w.extractLsb' 0 8 = w)

/-- An address is not its own predecessor at any distance. -/
theorem ne_sub_self (w : Word) {n : Word} (hn : n ≠ 0) : w ≠ w - n := by
  intro h
  have h₀ : w - 0#16 = w - n := (BitVec.sub_zero w).trans h
  exact hn ((BitVec.sub_right_inj w).mp h₀).symm

theorem toNat_add_one {w : Word} (h : w.toNat + 1 < 2 ^ 16) : (w + 1).toNat = w.toNat + 1 :=
  BitVec.toNat_add_of_lt h

theorem toNat_sub_one {w : Word} (h : 0 < w.toNat) : (w - 1).toNat = w.toNat - 1 :=
  BitVec.toNat_sub_of_le (BitVec.le_def.mpr h)

/-! ### The interrupt flag -/

/-- The global interrupt enable bit of a status register value. -/
def iFlag (sreg : Byte) : Bool := sreg.getLsbD 7

/-- The status register with interrupts disabled. -/
def clearI (sreg : Byte) : Byte := sreg &&& 0x7F#8

/-- The status register with interrupts enabled. -/
def setI (sreg : Byte) : Byte := sreg ||| 0x80#8

@[simp] theorem iFlag_clearI (sreg : Byte) : iFlag (clearI sreg) = false := by
  simp [iFlag, clearI]

@[simp] theorem iFlag_setI (sreg : Byte) : iFlag (setI sreg) = true := by
  simp [iFlag, setI]

@[simp] theorem clearI_clearI (sreg : Byte) : clearI (clearI sreg) = clearI sreg := by
  simp [clearI, BitVec.and_assoc]

/-- Disabling and enabling leaves every bit but the interrupt flag as it was. -/
@[simp] theorem setI_clearI (sreg : Byte) : setI (clearI sreg) = setI sreg := by
  revert sreg
  decide

/-! ### Machine state -/

/-- The name of a register, `r0` to `r31`. -/
abbrev Reg := Fin 32

/-- The CPU and its data memory. -/
structure Cpu where
  r : Reg → Byte
  sp : Word
  sreg : Byte
  pc : Word
  mem : Word → Byte

namespace Cpu

/-- The pointer register Z. -/
def z (c : Cpu) : Word := word (c.r 31) (c.r 30)

/-- Put a byte on the stack; the stack pointer is decremented afterwards. -/
def pushByte (c : Cpu) (b : Byte) : Cpu :=
  { c with mem := Function.update c.mem c.sp b, sp := c.sp - 1 }

/-- Stack the program counter, low byte first, as an interrupt or a call does. -/
def pushPc (c : Cpu) : Cpu :=
  (c.pushByte (lo8 c.pc)).pushByte (hi8 c.pc)

/-- Unstack the program counter, high byte first. -/
def popPc (c : Cpu) : Cpu :=
  { c with pc := word (c.mem (c.sp + 1)) (c.mem (c.sp + 1 + 1)), sp := c.sp + 1 + 1 }

/-- The hardware's entry into an interrupt handler. -/
def enterInterrupt (c : Cpu) : Cpu :=
  { c.pushPc with sreg := clearI c.sreg }

end Cpu

/-- The I/O registers a context switch reads and writes. -/
inductive IoReg
  | sreg
  | spl
  | sph
  deriving DecidableEq, Repr

/-- The instructions of the context switch code. -/
inductive Instr
  | cli
  | sei
  | push (r : Reg)
  | pop (r : Reg)
  | lds (r : Reg) (k : Word)
  | std (q : Fin 64) (r : Reg)
  | ldd (r : Reg) (q : Fin 64)
  | «in» (r : Reg) (io : IoReg)
  | out (io : IoReg) (r : Reg)
  | ret
  | reti
  deriving DecidableEq, Repr

/-- Read an I/O register. -/
def Cpu.readIo (c : Cpu) : IoReg → Byte
  | .sreg => c.sreg
  | .spl => lo8 c.sp
  | .sph => hi8 c.sp

/-- Write an I/O register. -/
def Cpu.writeIo (c : Cpu) (v : Byte) : IoReg → Cpu
  | .sreg => { c with sreg := v }
  | .spl => { c with sp := word (hi8 c.sp) v }
  | .sph => { c with sp := word v (lo8 c.sp) }

/-- The displacement of an indirect load or store, as an address. -/
def disp (q : Fin 64) : Word := BitVec.ofNat 16 q.val

/-- One instruction. -/
def exec1 (c : Cpu) : Instr → Cpu
  | .cli => { c with sreg := clearI c.sreg }
  | .sei => { c with sreg := setI c.sreg }
  | .push r => c.pushByte (c.r r)
  | .pop r => { c with r := Function.update c.r r (c.mem (c.sp + 1)), sp := c.sp + 1 }
  | .lds r k => { c with r := Function.update c.r r (c.mem k) }
  | .std q r => { c with mem := Function.update c.mem (c.z + disp q) (c.r r) }
  | .ldd r q => { c with r := Function.update c.r r (c.mem (c.z + disp q)) }
  | .in r io => { c with r := Function.update c.r r (c.readIo io) }
  | .out io r => c.writeIo (c.r r) io
  | .ret => c.popPc
  | .reti => { c.popPc with sreg := setI c.sreg }

/-- A straight-line routine. -/
def exec (prog : List Instr) (c : Cpu) : Cpu := prog.foldl exec1 c

@[simp] theorem exec_nil (c : Cpu) : exec [] c = c := rfl

@[simp] theorem exec_cons (i : Instr) (prog : List Instr) (c : Cpu) :
    exec (i :: prog) c = exec prog (exec1 c i) := rfl

theorem exec_append (p q : List Instr) (c : Cpu) : exec (p ++ q) c = exec q (exec p c) := by
  simp [exec, List.foldl_append]

/-! ### Blocks of loads and stores through Z

A context is copied by a run of `std` or `ldd` instructions with one base.  A
block of stores changes exactly the bytes it names, and a block of loads that
leaves Z alone changes exactly its target registers.
-/

/-- The memory after storing the registers of `l` at their displacements from `z`. -/
def storeAll (z : Word) (r : Reg → Byte) (mem : Word → Byte) (l : List (Fin 64 × Reg)) :
    Word → Byte :=
  l.foldl (fun m p => Function.update m (z + disp p.1) (r p.2)) mem

theorem exec_std_block (l : List (Fin 64 × Reg)) (c : Cpu) :
    exec (l.map fun p => .std p.1 p.2) c = { c with mem := storeAll c.z c.r c.mem l } := by
  induction l generalizing c with
  | nil => rfl
  | cons p rest ih =>
      rw [List.map_cons, exec_cons, ih]
      rfl

theorem disp_inj {z : Word} {q q' : Fin 64} : z + disp q = z + disp q' ↔ q = q' := by
  constructor
  · intro h
    have hq : disp q = disp q' := by
      have h' := congrArg (fun w => w - z) h
      simpa [BitVec.add_comm z, BitVec.add_sub_cancel] using h'
    have hn := congrArg BitVec.toNat hq
    simp only [disp, BitVec.toNat_ofNat] at hn
    exact Fin.ext (by omega)
  · rintro rfl
    rfl

theorem storeAll_of_forall_ne {z : Word} {r : Reg → Byte} {a : Word} (l : List (Fin 64 × Reg))
    (mem : Word → Byte) (h : ∀ p ∈ l, a ≠ z + disp p.1) :
    storeAll z r mem l a = mem a := by
  induction l generalizing mem with
  | nil => rfl
  | cons p rest ih =>
      show storeAll z r (Function.update mem (z + disp p.1) (r p.2)) rest a = mem a
      rw [ih _ (fun q hq => h q (by simp [hq])), Function.update_of_ne (h p (by simp))]

theorem storeAll_of_mem {z : Word} {r : Reg → Byte} {q : Fin 64} {k : Reg}
    (l : List (Fin 64 × Reg)) (mem : Word → Byte) (hmem : (q, k) ∈ l)
    (hnd : (l.map (·.1)).Nodup) : storeAll z r mem l (z + disp q) = r k := by
  induction l generalizing mem with
  | nil => simp at hmem
  | cons p rest ih =>
      obtain ⟨hp, hnd'⟩ := List.nodup_cons.mp hnd
      show storeAll z r (Function.update mem (z + disp p.1) (r p.2)) rest (z + disp q) = r k
      rcases List.mem_cons.mp hmem with rfl | hrest
      · rw [storeAll_of_forall_ne rest _ (fun q' hq' hc => ?_), Function.update_self]
        exact hp (List.mem_map.mpr ⟨q', hq', (disp_inj.mp hc).symm⟩)
      · exact ih _ hrest hnd'

/-- A block of stores reads no register but its own. -/
theorem storeAll_congr {z : Word} {r r' : Reg → Byte} (l : List (Fin 64 × Reg))
    (mem : Word → Byte) (h : ∀ p ∈ l, r p.2 = r' p.2) :
    storeAll z r mem l = storeAll z r' mem l := by
  induction l generalizing mem with
  | nil => rfl
  | cons p rest ih =>
      show storeAll z r (Function.update mem (z + disp p.1) (r p.2)) rest = _
      rw [ih _ (fun q hq => h q (by simp [hq])), h p (by simp)]
      rfl

/-- The registers after loading those of `l` from their displacements from `z`. -/
def loadAll (z : Word) (mem : Word → Byte) (r : Reg → Byte) (l : List (Reg × Fin 64)) :
    Reg → Byte :=
  l.foldl (fun r p => Function.update r p.1 (mem (z + disp p.2))) r

theorem exec_ldd_block (l : List (Reg × Fin 64)) (c : Cpu)
    (hz : ∀ p ∈ l, p.1 ≠ 30 ∧ p.1 ≠ 31) :
    exec (l.map fun p => .ldd p.1 p.2) c = { c with r := loadAll c.z c.mem c.r l } := by
  induction l generalizing c with
  | nil => rfl
  | cons p rest ih =>
      have hp := hz p (by simp)
      have hzeq : (exec1 c (.ldd p.1 p.2)).z = c.z := by
        simp [exec1, Cpu.z, Function.update_of_ne hp.1.symm, Function.update_of_ne hp.2.symm]
      rw [List.map_cons, exec_cons, ih _ (fun q hq => hz q (by simp [hq])), hzeq]
      rfl

theorem loadAll_of_notMem {z : Word} {mem : Word → Byte} {k : Reg} (l : List (Reg × Fin 64))
    (r : Reg → Byte) (h : k ∉ l.map (·.1)) : loadAll z mem r l k = r k := by
  induction l generalizing r with
  | nil => rfl
  | cons p rest ih =>
      simp only [List.map_cons, List.mem_cons, not_or] at h
      show loadAll z mem (Function.update r p.1 (mem (z + disp p.2))) rest k = r k
      rw [ih _ h.2, Function.update_of_ne h.1]

theorem loadAll_of_mem {z : Word} {mem : Word → Byte} {k : Reg} {q : Fin 64}
    (l : List (Reg × Fin 64)) (r : Reg → Byte) (hmem : (k, q) ∈ l)
    (hnd : (l.map (·.1)).Nodup) : loadAll z mem r l k = mem (z + disp q) := by
  induction l generalizing r with
  | nil => simp at hmem
  | cons p rest ih =>
      obtain ⟨hp, hnd'⟩ := List.nodup_cons.mp hnd
      show loadAll z mem (Function.update r p.1 (mem (z + disp p.2))) rest k = mem (z + disp q)
      rcases List.mem_cons.mp hmem with rfl | hrest
      · rw [loadAll_of_notMem rest _ hp, Function.update_self]
      · exact ih _ hrest hnd'

end AtmegaScheduler.Avr
