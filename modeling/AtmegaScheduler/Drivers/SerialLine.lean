/-
Two controllers and a line between them.

The tasks of one controller print lines through `uart_putchar`, which puts a carriage
return before a newline, and a task of the other one reads them with `uart0_getln`.  Each
controller runs on its own: its tasks are preempted, its interrupts come, and the ring is
now empty and now full.  What holds the two together is only that the bytes that arrive at
one of them are bytes that the other one has sent.
-/
import AtmegaScheduler.Drivers.UsartLines
import AtmegaScheduler.Drivers.UsartRx

namespace AtmegaScheduler

open Avr Preemption Feed LineReader

/-- `uart_putchar`: what it hands to `uart0_putc`. -/
def uartPutchar (data : Byte) : List Byte := if data = lf then [cr, data] else [data]

namespace Usart

section Results

variable {τ : Type} [DecidableEq τ] {zt zr : BufferSize}

/-- What `uart0_getc` returns when this is its last statement. -/
def getting (u : Usart zt zr) (i : Bool) : UsartPc zt zr → Option Byte
  | .get pc =>
      match (getStmt u i pc : UsartEffect zt zr).goes with
      | .inr (.got r) => some (uart0Getc r)
      | _ => none
  | _ => none

/-- What `uart0_getc` returns with this event. -/
def getcBy (c : World τ zt zr × Step τ zt zr) : Option Byte :=
  match c.2 with
  | .stmt => c.1.here.bind (getting c.1.mem c.1.iflag)
  | _ => none

/-- What the calls of `uart0_getc` have returned. -/
def getcs (h : Trace τ zt zr) : List Byte := shown getcBy h

theorem nonzero_getting (u : Usart zt zr) (i : Bool) (p : UsartPc zt zr) :
    nonzero (getting u i p).toList = nonzero (taking p).toList := by
  cases p with
  | get pc =>
      cases pc with
      | test tail =>
          by_cases hempty : tail = u.rx.head
          · have hnone : (getStmt u i (.test tail) : UsartEffect zt zr) =
                ⟨u, i, .inr (.got none)⟩ := if_pos hempty
            simp only [getting, hnone]
            rfl
          · have hmore : (getStmt u i (.test tail) : UsartEffect zt zr) =
                ⟨u, i, .inl (.get (.fetch tail.next))⟩ := if_neg hempty
            simp only [getting, hmore]
            rfl
      | _ => rfl
  | _ => rfl

omit [DecidableEq τ] in
/-- Between the bytes that have been taken `uart0_getc` returns zeros. -/
theorem nonzero_getcs (h : Trace τ zt zr) : nonzero (getcs h) = nonzero (taken h) := by
  induction h with
  | nil => rfl
  | cons c h ih =>
      have hc : nonzero (getcBy c).toList = nonzero (takenBy c).toList := by
        obtain ⟨s, e⟩ := c
        unfold getcBy takenBy
        cases e with
        | stmt =>
            cases hat : s.here with
            | none => simp only [Option.bind_none]
            | some p =>
                simp only [Option.bind_some]
                exact nonzero_getting s.mem s.iflag p
        | _ => rfl
      unfold getcs taken at ih ⊢
      unfold nonzero at hc ih ⊢
      rw [shown_cons, shown_cons, List.filter_append, List.filter_append, hc, ih]

end Results

/-! ### The lines -/

variable {τ τ' : Type} [DecidableEq τ] [DecidableEq τ'] {zt zr zt' zr' : BufferSize}
  {s₀ s : World τ zt zr} {h : Trace τ zt zr} {r₀ r : World τ' zt' zr'} {g : Trace τ' zt' zr'}

/-- What the lines are on the way. -/
def printed (ls : List (List Byte)) : List Byte :=
  ls.flatMap fun l => (l ++ [lf]).flatMap uartPutchar

theorem putchar_line {l : List Byte} (hl : ∀ c ∈ l, c ≠ lf) :
    (l ++ [lf]).flatMap uartPutchar = l ++ [cr, lf] := by
  rw [List.flatMap_append]
  congr 1
  induction l with
  | nil => rfl
  | cons c l ih =>
      have hc : uartPutchar c = [c] := if_neg (hl c (List.mem_cons_self ..))
      rw [List.flatMap_cons, hc, ih fun d hd => hl d (List.mem_cons_of_mem _ hd)]
      rfl

theorem printed_eq {ls : List (List Byte)} (hls : ∀ l ∈ ls, ∀ c ∈ l, c ≠ lf) :
    printed ls = ls.flatMap (· ++ [cr, lf]) := by
  induction ls with
  | nil => rfl
  | cons l ls ih =>
      have hrest := ih fun l' hl' => hls l' (List.mem_cons_of_mem _ hl')
      unfold printed at hrest ⊢
      rw [List.flatMap_cons, List.flatMap_cons, putchar_line (hls l (List.mem_cons_self ..)), hrest]

/-- No null is printed. -/
theorem nonzero_printed {ls : List (List Byte)} (hls : ∀ l ∈ ls, ∀ c ∈ l, c ≠ 0 ∧ c ≠ lf) :
    nonzero (printed ls) = printed ls := by
  rw [printed_eq fun l hl c hc => (hls l hl c hc).2]
  apply List.filter_eq_self.mpr
  intro c hc
  obtain ⟨l, hl, hcl⟩ := List.mem_flatMap.mp hc
  rcases List.mem_append.mp hcl with hin | hend
  · exact decide_eq_true (hls l hl c hin).1
  · rcases List.mem_cons.mp hend with rfl | hend
    · decide
    · rw [List.mem_singleton.mp hend]
      decide

/-- What has been taken are the first bytes of what has been put. -/
theorem taken_accepted (hsend : Run (usartCode zt zr) s₀ h s) (hs : s₀.mem.Idle)
    (hsout : s₀.Outside) (hsapart : TxApart h) (hread : Run (usartCode zt' zr') r₀ g r)
    (hr : r₀.mem.Idle) (hrout : r₀.Outside) (hrapart : RxApart g)
    (hline : arrived g <+: sent h) (hkept : received g = arrived g) : taken g <+: accepted h := by
  have htaken : taken g <+: received g := ⟨_, (received_eq hread hr hrout hrapart).symm⟩
  rw [hkept] at htaken
  exact (htaken.trans hline).trans (sent_accepted hsend hs hsout hsapart)

/-- **Lines from one controller to the other.**  The lines are printed whole, one after
another, calls that put or take a byte are kept apart, and no byte that arrives is dropped.
Whatever has then been read, it is the first of the lines, complete and in their order; and
once all bytes have been taken it is all of them. -/
theorem lines_delivered (hsend : Run (usartCode zt zr) s₀ h s) (hs : s₀.mem.Idle)
    (hsout : s₀.Outside) (hsapart : TxApart h) (hread : Run (usartCode zt' zr') r₀ g r)
    (hr : r₀.mem.Idle) (hrout : r₀.Outside) (hrapart : RxApart g)
    (hline : arrived g <+: sent h) (hkept : received g = arrived g)
    (ls : List (List Byte)) (hls : ∀ l ∈ ls, ∀ c ∈ l, c ≠ 0 ∧ c ≠ cr ∧ c ≠ lf)
    (hput : accepted h <+: printed ls) {limit : Byte} (hlimit : limit ≠ 1) :
    let texts := ls.flatMap (pieces (limit - 1).toNat)
    (∀ n, (∀ r' ∈ (getlns limit n (getcs g)).1, r'.returned = true) →
      (getlns limit n (getcs g)).1.map LineReader.buffer <+: texts.map (· ++ [0])) ∧
    (taken g = printed ls →
      (∀ r' ∈ (getlns limit texts.length (getcs g)).1, r'.returned = true) ∧
      (getlns limit texts.length (getcs g)).1.map LineReader.buffer = texts.map (· ++ [0])) := by
  intro texts
  have htext : nonzero (printed ls) = printed ls :=
    nonzero_printed fun l hl c hc => ⟨(hls l hl c hc).1, (hls l hl c hc).2.2⟩
  obtain ⟨more, hmore⟩ :=
    (taken_accepted hsend hs hsout hsapart hread hr hrout hrapart hline hkept).trans hput
  have hreads :=
    reads_lines hlimit ls (fun l hl c hc => ⟨(hls l hl c hc).1, (hls l hl c hc).2.1⟩) []
  rw [List.append_nil, ← printed_eq fun l hl c hc => (hls l hl c hc).2.2] at hreads
  obtain ⟨hret, hbuf, hleft⟩ := hreads
  constructor
  · intro n hall
    have hnz : nonzero (getcs g) ++ nonzero more = printed ls := by
      rw [nonzero_getcs, ← htext, ← hmore]
      exact (List.filter_append ..).symm
    have hopen : LineReader.returned (lineStart limit).loop = false := by
      rw [loop_lineStart hlimit]
      rfl
    have hcalls : (feeds (next fun _ => false) LineReader.returned (lineStart limit).loop n
        (nonzero (getcs g))).1 = (getlns limit n (getcs g)).1 := by
      rw [feeds_nonzero]
      rfl
    rw [← hnz] at hbuf hleft
    rw [← hcalls] at hall ⊢
    have hprefix := feeds_prefix hopen hall hleft
    rw [← hbuf]
    exact hprefix.map _
  · intro hdone
    have hnz : nonzero (getcs g) = printed ls := by
      rw [nonzero_getcs, hdone, htext]
    rw [← hnz, feeds_nonzero] at hret hbuf
    exact ⟨hret, hbuf⟩

/-- A line of one character; the reader looks once before the first byte has come. -/
theorem lines_delivered_one : ∃ h s g r, Run (usartCode four four) afterInit h s ∧
    Run (usartCode four four) afterInit g r ∧ getcs g = [0, 65, 13, 10] ∧
    (getlns 0 1 (getcs g)).1.map LineReader.buffer = [[65, 0]] := by
  have hsends : ((play (usartCode four four) (wholeCall false 65 ++ (wholeCall true 13 ++
      .irq .udre :: wholeCall true 10) ++ [.irq .udre, .irq .udre]) ([], afterInit)).map fun c =>
        decide (accepted c.1 = [65, 13, 10] ∧ sent c.1 = [65, 13, 10] ∧ TxApart c.1)) =
      some true := by decide +kernel
  have hreads : ((play (usartCode four four) [.call (.get .load), .stmt, .stmt, .irq (.rx 65),
      .irq (.rx 13), .call (.get .load), .stmt, .stmt, .irq (.rx 10), .stmt, .stmt,
      .call (.get .load), .stmt, .stmt, .stmt, .stmt, .call (.get .load), .stmt, .stmt, .stmt,
      .stmt] ([], afterInit)).map fun c => decide (getcs c.1 = [0, 65, 13, 10] ∧
        taken c.1 = [65, 13, 10] ∧ arrived c.1 = [65, 13, 10] ∧ received c.1 = [65, 13, 10] ∧
        RxApart c.1)) = some true := by decide +kernel
  obtain ⟨⟨h, s⟩, hc, hdec⟩ := Option.map_eq_some_iff.mp hsends
  obtain ⟨hacc, hsent, hsapart⟩ := of_decide_eq_true hdec
  obtain ⟨⟨g, r⟩, hc', hdec'⟩ := Option.map_eq_some_iff.mp hreads
  obtain ⟨hget, htake, harr, hrec, hrapart⟩ := of_decide_eq_true hdec'
  have hsend := afterInit_run hc
  have hread := afterInit_run hc'
  obtain ⟨-, hall⟩ := lines_delivered hsend uart0Init_idle afterInit_outside hsapart hread
    uart0Init_idle afterInit_outside hrapart (by rw [harr, hsent]) (by rw [hrec, harr])
    [[65]] (by decide) (by rw [hacc]; exact ⟨[], rfl⟩) (show (0 : Byte) ≠ 1 by decide)
  exact ⟨h, s, g, r, hsend, hread, hget, (hall htake).2⟩

end Usart

end AtmegaScheduler
