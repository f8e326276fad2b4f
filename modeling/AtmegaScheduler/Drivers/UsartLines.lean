/-
Lines, words and numbers that a task reads from the receiver.

`uart0_gets`, `uart0_getln` and `uart0_getlnToFirstWhiteSpace` call `uart0_getc` in a loop
and count `bufferlimit` down in one byte.  `uart0_getc` returns zero when nothing has been
received, so the two that wait pass over zeros, and what they make of the received bytes
does not depend on when the bytes come.

The newline is the pair of carriage return and line feed, as the repository configures it.
-/
import AtmegaScheduler.Avr.Libc
import AtmegaScheduler.Drivers.Usart
import AtmegaScheduler.Lib.Feed

namespace AtmegaScheduler

open Avr Feed

/-- `'\r'` -/
def cr : Byte := 0x0d

/-- `'\n'` -/
def lf : Byte := 0x0a

/-- Where a reader is when it calls `uart0_getc`, and where it is when it has returned. -/
inductive LinePc
  | skipWhitespaces
  | wait
  /-- `wait_loop2`, `exit_wait_loop` -/
  | wait2
  | ret
  deriving DecidableEq, Repr

structure LineReader where
  pc : LinePc
  limit : Byte
  /-- What `st Z+` and `st Z` have stored from the beginning of the buffer. -/
  buffer : List Byte
  deriving DecidableEq, Repr

namespace LineReader

def returned (r : LineReader) : Bool := r.pc = .ret

/-- `st Z+, r24` -/
def store (r : LineReader) (c : Byte) : LineReader := { r with buffer := r.buffer ++ [c] }

/-- `dec %[limit]` -/
def dec (r : LineReader) : LineReader := { r with limit := r.limit - 1 }

/-- `store_NULL` -/
def storeNull (r : LineReader) : LineReader := { r.store 0 with pc := .ret }

/-- `loop` -/
def loop (r : LineReader) : LineReader :=
  if r.dec.limit = 0 then r.dec.storeNull else { r.dec with pc := .wait }

/-- `uart0_gets` with what `uart0_getc` has returned. -/
def gets (r : LineReader) (c : Byte) : LineReader :=
  if c = 0 then (r.store c).storeNull else (r.store c).loop

/-- The two readers that wait, which differ in the characters that end a word. -/
def next (ends : Byte → Bool) (r : LineReader) (c : Byte) : LineReader :=
  match r.pc with
  | .skipWhitespaces => if c < 0x21 then r else (r.store c).dec.loop
  | .wait =>
      if c = 0 then r
      else if c = cr then { r with pc := .wait2 }
      else if ends c then r.storeNull
      else (r.store c).loop
  | .wait2 => if c = 0 then r else r.storeNull
  | .ret => r

end LineReader

open LineReader

/-- The place before the first `dec`. -/
def lineStart (limit : Byte) : LineReader := ⟨.wait, limit, []⟩

/-- `uart0_getlnToFirstWhiteSpace` before its first `uart0_getc`. -/
def wordStart (limit : Byte) : LineReader := ⟨.skipWhitespaces, limit, []⟩

/-- What `cpi r24, 0x21` finds to end a word. -/
def white (c : Byte) : Bool := c < 0x21

/-- `uart0_gets`: the reader, and what is left of the results of `uart0_getc`. -/
def uart0Gets (limit : Byte) (cs : List Byte) : LineReader × List Byte :=
  feed gets LineReader.returned (lineStart limit).loop cs

/-- `uart0_getln` -/
def uart0Getln (limit : Byte) (cs : List Byte) : LineReader × List Byte :=
  feed (next fun _ => false) LineReader.returned (lineStart limit).loop cs

/-- `uart0_getlnToFirstWhiteSpace` -/
def uart0GetlnToFirstWhiteSpace (limit : Byte) (cs : List Byte) : LineReader × List Byte :=
  feed (next white) LineReader.returned (wordStart limit) cs

/-- `n` calls of `uart0_getln`, one after another. -/
def getlns (limit : Byte) (n : Nat) (cs : List Byte) : List LineReader × List Byte :=
  feeds (next fun _ => false) LineReader.returned (lineStart limit).loop n cs

/-- `n` calls of `uart0_getlnToFirstWhiteSpace`, one after another. -/
def words (limit : Byte) (n : Nat) (cs : List Byte) : List LineReader × List Byte :=
  feeds (next white) LineReader.returned (wordStart limit) n cs

/-- `uart0_putstr`: what it hands to `uart0_putc`, up to the null. -/
def uart0Putstr (string : List Byte) : List Byte := string.takeWhile fun c => decide (c ≠ 0)

/-- `uart0_putint` -/
def uart0Putint (data : BitVec 16) : List Byte := uart0Putstr (itoa data.toInt ++ [0])

/-- `uart0_putlong` -/
def uart0Putlong (data : BitVec 32) : List Byte := uart0Putstr (itoa data.toInt ++ [0])

/-- `uart0_getint`, once its reader with a buffer of seven bytes has returned. -/
def uart0Getint (r : LineReader) : BitVec 16 := BitVec.ofInt 16 (atoi r.buffer)

/-- `uart0_getlong`, once its reader with a buffer of twelve bytes has returned. -/
def uart0Getlong (r : LineReader) : BitVec 32 := BitVec.ofInt 32 (atoi r.buffer)

/-! ### One call -/

namespace LineReader

variable {ends : Byte → Bool} {r : LineReader} {c : Byte} {cs rest text s : List Byte}

/-- A character that neither ends a line nor a word. -/
structure Inner (ends : Byte → Bool) (c : Byte) : Prop where
  ne_zero : c ≠ 0
  ne_cr : c ≠ cr
  goes_on : ends c = false

/-- What ends a line or a word. -/
inductive Terminator (ends : Byte → Bool) : List Byte → Prop
  | newline (x : Byte) (hx : x ≠ 0) : Terminator ends [cr, x]
  | single (c : Byte) (hzero : c ≠ 0) (hcr : c ≠ cr) (hends : ends c = true) :
      Terminator ends [c]

/-- The reader returns with this text and a null in the buffer, and the rest is left. -/
structure Returns (ends : Byte → Bool) (r : LineReader) (cs text rest : List Byte) : Prop where
  returned : (feed (next ends) returned r cs).1.returned = true
  buffer : (feed (next ends) LineReader.returned r cs).1.buffer = text ++ [0]
  left : (feed (next ends) LineReader.returned r cs).2 = rest

theorem Returns.null (r : LineReader) (cs : List Byte) :
    Returns ends r.storeNull cs r.buffer cs := by
  have hfeed : feed (next ends) LineReader.returned r.storeNull cs = (r.storeNull, cs) :=
    feed_done rfl cs
  refine ⟨?_, ?_, ?_⟩
  · rw [hfeed]
    rfl
  · rw [hfeed]
    rfl
  · rw [hfeed]

theorem Returns.cons (hopen : r.returned = false) (h : Returns ends (next ends r c) cs text rest) :
    Returns ends r (c :: cs) text rest := by
  obtain ⟨hret, hbuf, hleft⟩ := h
  rw [← feed_cons hopen] at hret hbuf hleft
  exact ⟨hret, hbuf, hleft⟩

theorem open_of_wait (hwait : r.pc = .wait) : r.returned = false := by
  unfold LineReader.returned
  rw [hwait]
  rfl

theorem loop_more (hlimit : 1 < r.limit.toNat) : r.loop = { r.dec with pc := .wait } := by
  have hne : r.dec.limit ≠ 0 := by
    unfold dec
    bv_omega
  unfold loop
  rw [if_neg hne]

theorem loop_full (hlimit : r.limit = 1) : r.loop = r.dec.storeNull := by
  have hzero : r.dec.limit = 0 := by
    unfold dec
    rw [hlimit]
    rfl
  unfold loop
  rw [if_pos hzero]

theorem next_text (hwait : r.pc = .wait) (hc : Inner ends c) :
    next ends r c = (r.store c).loop := by
  unfold next
  rw [hwait]
  simp only [if_neg hc.ne_zero, if_neg hc.ne_cr, hc.goes_on, Bool.false_eq_true, if_false]

/-- **The text of a line.**  As long as there is room it goes into the buffer, and what
has no room is left. -/
theorem returns_text (hwait : r.pc = .wait) (hs : ∀ c ∈ s, Inner ends c)
    (hroom : r.limit ≠ 0)
    (hend : ∀ r' : LineReader, r'.pc = .wait → r'.buffer = r.buffer ++ s →
      Returns ends r' cs (r.buffer ++ s) rest) :
    Returns ends r (s ++ cs) (r.buffer ++ s.take r.limit.toNat)
      (if s.length < r.limit.toNat then rest else s.drop r.limit.toNat ++ cs) := by
  induction s generalizing r with
  | nil =>
      have hpos : ([] : List Byte).length < r.limit.toNat := by
        show 0 < r.limit.toNat
        bv_omega
      rw [if_pos hpos, List.take_nil]
      exact hend r hwait (List.append_nil _).symm
  | cons c s ih =>
      have hc : Inner ends c := hs c (List.mem_cons_self ..)
      have hrest : ∀ d ∈ s, Inner ends d := fun d hd => hs d (List.mem_cons_of_mem _ hd)
      rw [List.cons_append]
      apply Returns.cons (open_of_wait hwait)
      rw [next_text hwait hc]
      by_cases hone : r.limit = 1
      · have hlen : ¬ (c :: s).length < r.limit.toNat := by
          rw [hone, List.length_cons]
          show ¬ s.length + 1 < 1
          omega
        rw [loop_full (r := r.store c) hone, if_neg hlen, hone]
        exact Returns.null _ _
      · have hmore : 1 < r.limit.toNat := by bv_omega
        have hdec : (r.limit - 1).toNat + 1 = r.limit.toNat := by bv_omega
        have hcons : r.buffer ++ c :: s = r.buffer ++ [c] ++ s := by
          rw [List.append_assoc]
          rfl
        have hih := ih (r := { (r.store c).dec with pc := .wait }) rfl hrest
          (show r.limit - 1 ≠ 0 by bv_omega) (fun r' hpc hbuf => by
            have := hend r' hpc (by rw [hbuf, hcons]; rfl)
            rw [hcons] at this
            exact this)
        rw [loop_more (r := r.store c) hmore, ← hdec, List.take_succ_cons, List.length_cons,
          List.drop_succ_cons]
        have hbuf : r.buffer ++ c :: s.take (r.limit - 1).toNat =
            r.buffer ++ [c] ++ s.take (r.limit - 1).toNat := by
          rw [List.append_assoc]
          rfl
        simp only [Nat.add_lt_add_iff_right]
        rw [hbuf]
        exact hih

theorem returns_wait2 (hpc : r.pc = .wait2) (hc : c ≠ 0) (cs : List Byte) :
    Returns ends r (c :: cs) r.buffer cs := by
  have hopen : r.returned = false := by
    unfold LineReader.returned
    rw [hpc]
    rfl
  have hnext : next ends r c = r.storeNull := by
    unfold next
    rw [hpc]
    exact if_neg hc
  apply Returns.cons hopen
  rw [hnext]
  exact Returns.null r cs

/-- What ends a line is read with it. -/
theorem returns_terminator {t : List Byte} (hwait : r.pc = .wait) (ht : Terminator ends t)
    (cs : List Byte) : Returns ends r (t ++ cs) r.buffer cs := by
  cases ht with
  | newline x hx =>
      have hnext : next ends r cr = { r with pc := .wait2 } := by
        unfold next
        rw [hwait]
        exact (if_neg (by decide)).trans (if_pos rfl)
      apply Returns.cons (open_of_wait hwait)
      rw [hnext]
      exact returns_wait2 (r := { r with pc := .wait2 }) rfl hx cs
  | single c hzero hcr hends =>
      have hnext : next ends r c = r.storeNull := by
        unfold next
        rw [hwait]
        simp only [if_neg hzero, if_neg hcr, hends, if_true]
      apply Returns.cons (open_of_wait hwait)
      rw [hnext]
      exact Returns.null r cs

/-- **A line and what ends it.** -/
theorem returns_line {t : List Byte} (hwait : r.pc = .wait) (hs : ∀ c ∈ s, Inner ends c)
    (hroom : r.limit ≠ 0) (ht : Terminator ends t) (cs : List Byte) :
    Returns ends r (s ++ (t ++ cs)) (r.buffer ++ s.take r.limit.toNat)
      (if s.length < r.limit.toNat then cs else s.drop r.limit.toNat ++ (t ++ cs)) := by
  apply returns_text hwait hs hroom
  intro r' hpc hbuf
  rw [← hbuf]
  exact returns_terminator hpc ht cs

/-! ### One call after another -/

/-- The calls return with these texts and a null after each, and the rest is left. -/
structure Reads (ends : Byte → Bool) (r : LineReader) (cs : List Byte) (texts : List (List Byte))
    (rest : List Byte) : Prop where
  returned : ∀ r' ∈ (feeds (next ends) returned r texts.length cs).1, r'.returned = true
  buffers : (feeds (next ends) LineReader.returned r texts.length cs).1.map LineReader.buffer =
    texts.map (· ++ [0])
  left : (feeds (next ends) LineReader.returned r texts.length cs).2 = rest

variable {texts : List (List Byte)} {cs' : List Byte}

theorem Reads.nil (r : LineReader) (cs : List Byte) : Reads ends r cs [] cs := by
  refine ⟨?_, rfl, rfl⟩
  intro r' hr'
  exact absurd hr' List.not_mem_nil

theorem Reads.cons (h : Returns ends r cs text cs') (hrest : Reads ends r cs' texts rest) :
    Reads ends r cs (text :: texts) rest := by
  obtain ⟨hret, hbuf, hleft⟩ := h
  obtain ⟨hrets, hbufs, hlefts⟩ := hrest
  rw [← hleft] at hrets hbufs hlefts
  refine ⟨?_, ?_, hlefts⟩
  · intro r' hr'
    rcases List.mem_cons.mp hr' with rfl | hin
    · exact hret
    · exact hrets r' hin
  · show _ :: _ = _ :: _
    rw [hbuf, hbufs]

/-- What a buffer with this many characters makes of a line. -/
def pieces (k : Nat) (s : List Byte) : List (List Byte) :=
  (List.range (s.length / k + 1)).map fun i => (s.drop (i * k)).take k

theorem pieces_short {k : Nat} (h : s.length < k) : pieces k s = [s] := by
  unfold pieces
  rw [Nat.div_eq_of_lt h]
  show [(s.drop (0 * k)).take k] = [s]
  rw [Nat.zero_mul, List.drop_zero, List.take_of_length_le (Nat.le_of_lt h)]

theorem pieces_long {k : Nat} (hk : 0 < k) (h : k ≤ s.length) :
    pieces k s = s.take k :: pieces k (s.drop k) := by
  have hdiv : s.length / k = (s.length - k) / k + 1 := by
    conv_lhs => rw [← Nat.sub_add_cancel h]
    rw [Nat.add_div_right _ hk]
  unfold pieces
  rw [List.length_drop, hdiv, List.range_succ_eq_map, List.map_cons, List.map_map, Nat.zero_mul,
    List.drop_zero]
  congr 1
  apply List.map_congr_left
  intro i _
  show (s.drop ((i + 1) * k)).take k = ((s.drop k).drop (i * k)).take k
  rw [List.drop_drop, Nat.succ_mul, Nat.add_comm]

/-- **A line in pieces**, and then the lines after it. -/
theorem Reads.line {t : List Byte} (hwait : r.pc = .wait) (hempty : r.buffer = [])
    (hroom : r.limit ≠ 0) (ht : Terminator ends t) (hs : ∀ c ∈ s, Inner ends c)
    (hrest : Reads ends r cs texts rest) :
    Reads ends r (s ++ (t ++ cs)) (pieces r.limit.toNat s ++ texts) rest := by
  have hpos : 0 < r.limit.toNat := by bv_omega
  induction hn : s.length using Nat.strong_induction_on generalizing s with
  | _ n ih =>
      have hline := returns_line hwait hs hroom ht cs
      rw [hempty, List.nil_append] at hline
      by_cases hlt : s.length < r.limit.toNat
      · rw [if_pos hlt, List.take_of_length_le (Nat.le_of_lt hlt)] at hline
        rw [pieces_short hlt]
        exact Reads.cons hline hrest
      · rw [if_neg hlt] at hline
        have hdrop : (s.drop r.limit.toNat).length < n := by
          rw [List.length_drop]
          omega
        rw [pieces_long hpos (Nat.le_of_not_lt hlt), List.cons_append]
        exact Reads.cons hline
          (ih _ hdrop (fun c hc => hs c (List.mem_of_mem_drop hc)) rfl)

theorem next_zero (r : LineReader) : next ends r 0 = r := by
  unfold next
  cases hpc : r.pc with
  | skipWhitespaces => exact if_pos (by decide)
  | wait => exact if_pos rfl
  | wait2 => exact if_pos rfl
  | ret => rfl

/-- The results of `uart0_getc` that are not zero. -/
def nonzero (cs : List Byte) : List Byte := cs.filter fun c => decide (c ≠ 0)

/-- Zeros make no difference. -/
theorem feeds_nonzero (r : LineReader) (n : Nat) (cs : List Byte) :
    feeds (next ends) LineReader.returned r n (nonzero cs) =
      ((feeds (next ends) LineReader.returned r n cs).1,
        nonzero (feeds (next ends) LineReader.returned r n cs).2) := by
  apply feeds_filter
  intro r b _ hb
  have hzero : b = 0 := by simpa using hb
  rw [hzero]
  exact next_zero r

/-! ### How much is stored -/

/-- What a reader may still store, at most. -/
def toStore (r : LineReader) : Nat :=
  match r.pc with
  | .skipWhitespaces => r.limit.toNat
  | .wait => r.limit.toNat + 1
  | .wait2 => 1
  | .ret => 0

/-- What is stored and what may still be stored is within `n` bytes. -/
structure Within (n : Nat) (r : LineReader) : Prop where
  fits : r.buffer.length + r.toStore ≤ n
  two : r.pc = .skipWhitespaces → 2 ≤ r.limit.toNat
  one : r.pc = .wait → 1 ≤ r.limit.toNat

variable {n : Nat}

theorem Within.storeNull (h : r.buffer.length + 1 ≤ n) : Within n r.storeNull := by
  refine ⟨?_, ?_, ?_⟩
  · show (r.buffer ++ [0]).length + 0 ≤ n
    rw [List.length_append]
    exact h
  · intro hpc
    cases hpc
  · intro hpc
    cases hpc

theorem Within.loop (h : r.buffer.length + r.limit.toNat ≤ n) (hlimit : 1 ≤ r.limit.toNat) :
    Within n r.loop := by
  unfold LineReader.loop
  by_cases hzero : r.dec.limit = 0
  · rw [if_pos hzero]
    apply Within.storeNull
    show r.buffer.length + 1 ≤ n
    omega
  · rw [if_neg hzero]
    have hdec : r.dec.limit.toNat + 1 = r.limit.toNat := by
      unfold dec
      bv_omega
    refine ⟨?_, ?_, ?_⟩
    · show r.buffer.length + (r.dec.limit.toNat + 1) ≤ n
      rw [hdec]
      exact h
    · intro hpc
      cases hpc
    · intro _
      show 1 ≤ r.dec.limit.toNat
      have hne : r.dec.limit.toNat ≠ 0 := fun h0 => hzero (BitVec.eq_of_toNat_eq h0)
      omega

theorem length_store (r : LineReader) (c : Byte) :
    (r.store c).buffer.length = r.buffer.length + 1 := by
  unfold store
  rw [List.length_append]
  rfl

/-- **A character** is stored within the same bytes. -/
theorem Within.next (h : Within n r) (c : Byte) : Within n (next ends r c) := by
  obtain ⟨hfits, htwo, hone⟩ := id h
  unfold toStore at hfits
  unfold LineReader.next
  have hlen := length_store r c
  cases hpc : r.pc with
  | skipWhitespaces =>
      show Within n (if c < 0x21 then r else (r.store c).dec.loop)
      have hlimit := htwo hpc
      rw [hpc] at hfits
      have hfits : r.buffer.length + r.limit.toNat ≤ n := hfits
      have hdec : (r.store c).dec.limit.toNat + 1 = r.limit.toNat := by
        show (r.limit - 1).toNat + 1 = r.limit.toNat
        bv_omega
      by_cases hc : c < 0x21
      · rw [if_pos hc]
        exact h
      · rw [if_neg hc]
        apply Within.loop
        · show (r.store c).buffer.length + (r.store c).dec.limit.toNat ≤ n
          omega
        · omega
  | wait =>
      show Within n (if c = 0 then r else if c = cr then { r with pc := .wait2 }
        else if ends c then r.storeNull else (r.store c).loop)
      have hlimit := hone hpc
      rw [hpc] at hfits
      have hfits : r.buffer.length + (r.limit.toNat + 1) ≤ n := hfits
      by_cases hzero : c = 0
      · rw [if_pos hzero]
        exact h
      · rw [if_neg hzero]
        by_cases hcr : c = cr
        · rw [if_pos hcr]
          refine ⟨?_, ?_, ?_⟩
          · show r.buffer.length + 1 ≤ n
            omega
          · intro hpc'
            cases hpc'
          · intro hpc'
            cases hpc'
        · rw [if_neg hcr]
          by_cases hends : ends c = true
          · rw [if_pos hends]
            apply Within.storeNull
            omega
          · rw [if_neg hends]
            apply Within.loop
            · show (r.store c).buffer.length + r.limit.toNat ≤ n
              omega
            · exact hlimit
  | wait2 =>
      show Within n (if c = 0 then r else r.storeNull)
      rw [hpc] at hfits
      by_cases hzero : c = 0
      · rw [if_pos hzero]
        exact h
      · rw [if_neg hzero]
        exact Within.storeNull hfits
  | ret => exact h

theorem Within.feed (h : Within n r) (cs : List Byte) :
    (feed (LineReader.next ends) returned r cs).1.buffer.length ≤ n := by
  have hfeed : Within n (Feed.feed (LineReader.next ends) LineReader.returned r cs).1 :=
    feed_keeps (P := Within n) (fun _ c _ hr => hr.next c) h cs
  exact Nat.le_trans (Nat.le_add_right ..) hfeed.fits

/-- What `uart0_gets` stores, the second null after an empty receiver too. -/
theorem Within.gets (h : Within n r) (hwait : r.pc = .wait) (c : Byte) : Within n (gets r c) := by
  obtain ⟨hfits, _, hone⟩ := h
  unfold toStore at hfits
  rw [hwait] at hfits
  simp only at hfits
  have hlimit := hone hwait
  have hlen := length_store r c
  unfold LineReader.gets
  by_cases hzero : c = 0
  · rw [if_pos hzero]
    apply Within.storeNull
    omega
  · rw [if_neg hzero]
    apply Within.loop
    · show (r.store c).buffer.length + r.limit.toNat ≤ n
      omega
    · exact hlimit

theorem wait_or_ret_loop (r : LineReader) : r.loop.pc = .wait ∨ r.loop.pc = .ret := by
  unfold LineReader.loop
  by_cases hzero : r.dec.limit = 0
  · rw [if_pos hzero]
    exact Or.inr rfl
  · rw [if_neg hzero]
    exact Or.inl rfl

theorem wait_or_ret_gets (r : LineReader) (c : Byte) :
    (gets r c).pc = .wait ∨ (gets r c).pc = .ret := by
  unfold LineReader.gets
  by_cases hzero : c = 0
  · rw [if_pos hzero]
    exact Or.inr rfl
  · rw [if_neg hzero]
    exact wait_or_ret_loop _

theorem Within.feed_gets (h : Within n r) (hpc : r.pc = .wait ∨ r.pc = .ret) (cs : List Byte) :
    (Feed.feed LineReader.gets returned r cs).1.buffer.length ≤ n := by
  have hfeed : Within n (Feed.feed LineReader.gets returned r cs).1 ∧
      ((Feed.feed LineReader.gets returned r cs).1.pc = .wait ∨
        (Feed.feed LineReader.gets returned r cs).1.pc = .ret) := by
    apply feed_keeps (P := fun r => Within n r ∧ (r.pc = .wait ∨ r.pc = .ret)) ?_ ⟨h, hpc⟩ cs
    intro r c hopen hr
    obtain ⟨hwithin, hwait | hret⟩ := hr
    · exact ⟨hwithin.gets hwait c, wait_or_ret_gets r c⟩
    · unfold returned at hopen
      rw [hret] at hopen
      exact absurd hopen (by decide)
  exact Nat.le_trans (Nat.le_add_right ..) hfeed.1.fits

/-! ### Words -/

/-- What stands between two words: a lone carriage return would take the first character
of the next word with it. -/
structure Blanks (b : List Byte) : Prop where
  ne_nil : b ≠ []
  all_white : ∀ c ∈ b, white c = true
  ne_zero : ∀ c ∈ b, c ≠ 0
  ne_cr : b ≠ [cr]

theorem inner_of_not_white (hc : white c = false) : Inner white c := by
  refine ⟨?_, ?_, hc⟩
  · intro hzero
    rw [hzero] at hc
    exact absurd hc (by decide)
  · intro hcr
    rw [hcr] at hc
    exact absurd hc (by decide)

/-- Blanks are what ends the word, and then white space that the next call skips. -/
theorem Blanks.split {b : List Byte} (hb : Blanks b) :
    ∃ t w, b = t ++ w ∧ Terminator white t ∧ ∀ c ∈ w, white c = true := by
  obtain ⟨hne, hwhite, hzero, hcr⟩ := hb
  cases b with
  | nil => exact absurd rfl hne
  | cons c b =>
      by_cases hc : c = cr
      · cases b with
        | nil => exact absurd (by rw [hc]) hcr
        | cons x w =>
            refine ⟨[cr, x], w, by rw [hc]; rfl, .newline x (hzero x (by simp)), ?_⟩
            intro d hd
            exact hwhite d (List.mem_cons_of_mem _ (List.mem_cons_of_mem _ hd))
      · refine ⟨[c], b, rfl, .single c (hzero c (List.mem_cons_self ..)) hc
          (hwhite c (List.mem_cons_self ..)), ?_⟩
        intro d hd
        exact hwhite d (List.mem_cons_of_mem _ hd)

/-- White space before a word is skipped. -/
theorem Returns.skip {w : List Byte} {limit : Byte} (hw : ∀ c ∈ w, white c = true)
    (h : Returns white (wordStart limit) cs text rest) :
    Returns white (wordStart limit) (w ++ cs) text rest := by
  induction w with
  | nil => exact h
  | cons c w ih =>
      have hc : c < 0x21 := of_decide_eq_true (hw c (List.mem_cons_self ..))
      rw [List.cons_append]
      apply Returns.cons (r := wordStart limit) rfl
      have hnext : next white (wordStart limit) c = wordStart limit := if_pos hc
      rw [hnext]
      exact ih fun d hd => hw d (List.mem_cons_of_mem _ hd)

/-- The first character of a word is read as in the middle of a line with one place less. -/
theorem Returns.first {limit : Byte} (hc : white c = false)
    (h : Returns white (lineStart (limit - 1)) (c :: cs) text rest) :
    Returns white (wordStart limit) (c :: cs) text rest := by
  have hnext : next white (wordStart limit) c = next white (lineStart (limit - 1)) c := by
    have hskip : next white (wordStart limit) c = ((wordStart limit).store c).dec.loop :=
      if_neg (of_decide_eq_false hc)
    rw [hskip, next_text (r := lineStart (limit - 1)) rfl (inner_of_not_white hc)]
    rfl
  obtain ⟨hret, hbuf, hleft⟩ := h
  rw [feed_cons (r := lineStart (limit - 1)) rfl, ← hnext] at hret hbuf hleft
  exact Returns.cons (r := wordStart limit) rfl ⟨hret, hbuf, hleft⟩

/-- The pieces of a word: no empty one after a full buffer. -/
def wordPieces (k : Nat) (s : List Byte) : List (List Byte) := (pieces k s).filter (· ≠ [])

theorem wordPieces_nil {k : Nat} (hk : 0 < k) : wordPieces k [] = [] := by
  unfold wordPieces
  rw [pieces_short (s := []) hk]
  rfl

theorem wordPieces_short {k : Nat} (hne : s ≠ []) (h : s.length < k) : wordPieces k s = [s] := by
  unfold wordPieces
  rw [pieces_short h, List.filter_cons_of_pos (by simpa using hne)]
  rfl

theorem wordPieces_long {k : Nat} (hk : 0 < k) (hne : s ≠ []) (h : k ≤ s.length) :
    wordPieces k s = s.take k :: wordPieces k (s.drop k) := by
  unfold wordPieces
  rw [pieces_long hk h, List.filter_cons_of_pos]
  have htake : s.take k ≠ [] := by
    intro hnil
    rcases List.take_eq_nil_iff.mp hnil with hzero | hs
    · omega
    · exact hne hs
  simpa using htake

/-- A word that fits into the buffer is not cut. -/
theorem wordPieces_fits {k : Nat} (hne : s ≠ []) (h : s.length ≤ k) : wordPieces k s = [s] := by
  have hpos : 0 < s.length := List.length_pos_iff.mpr hne
  rcases Nat.lt_or_eq_of_le h with hlt | heq
  · exact wordPieces_short hne hlt
  · rw [wordPieces_long (by omega) hne (Nat.le_of_eq heq.symm),
      List.take_of_length_le h, List.drop_of_length_le h, wordPieces_nil (by omega)]

/-- **A word and what ends it**, after white space. -/
theorem returns_word {limit : Byte} {t w : List Byte} (hlimit : 2 ≤ limit.toNat)
    (hs : ∀ c ∈ s, white c = false) (hne : s ≠ []) (ht : Terminator white t)
    (hw : ∀ c ∈ w, white c = true) (cs : List Byte) :
    Returns white (wordStart limit) (w ++ (s ++ (t ++ cs))) (s.take (limit - 1).toNat)
      (if s.length < (limit - 1).toNat then cs else s.drop (limit - 1).toNat ++ (t ++ cs)) := by
  have hinner : ∀ c ∈ s, Inner white c := fun c hc => inner_of_not_white (hs c hc)
  have hline : Returns white (lineStart (limit - 1)) (s ++ (t ++ cs)) (s.take (limit - 1).toNat)
      (if s.length < (limit - 1).toNat then cs else s.drop (limit - 1).toNat ++ (t ++ cs)) :=
    returns_line (r := lineStart (limit - 1)) rfl hinner (show limit - 1 ≠ 0 by bv_omega) ht cs
  apply Returns.skip hw
  obtain ⟨c, s', rfl⟩ := List.exists_cons_of_ne_nil hne
  exact Returns.first (hs c (List.mem_cons_self ..)) hline

/-- The calls return with these texts, and only white space is left. -/
def ReadsWords (limit : Byte) (cs : List Byte) (texts : List (List Byte)) : Prop :=
  ∃ rest, Reads white (wordStart limit) cs texts rest ∧ ∀ c ∈ rest, white c = true

/-- **A word in pieces**, and then the words after it. -/
theorem ReadsWords.word {limit : Byte} {b w : List Byte} (hlimit : 2 ≤ limit.toNat)
    (hs : ∀ c ∈ s, white c = false) (hne : s ≠ []) (hb : Blanks b)
    (hw : ∀ c ∈ w, white c = true)
    (hrest : ∀ w : List Byte, (∀ c ∈ w, white c = true) → ReadsWords limit (w ++ cs) texts) :
    ReadsWords limit (w ++ (s ++ (b ++ cs))) (wordPieces (limit - 1).toNat s ++ texts) := by
  have hpos : 0 < (limit - 1).toNat := by bv_omega
  obtain ⟨t, w', hsplit, ht, hw'⟩ := hb.split
  induction hn : s.length using Nat.strong_induction_on generalizing s w with
  | _ n ih =>
      have hread := returns_word hlimit hs hne ht hw (w' ++ cs)
      rw [← List.append_assoc t, ← hsplit] at hread
      by_cases hlt : s.length < (limit - 1).toNat
      · obtain ⟨rest, hreads, hwhite⟩ := hrest w' hw'
        rw [if_pos hlt, List.take_of_length_le (Nat.le_of_lt hlt)] at hread
        rw [wordPieces_short hne hlt]
        exact ⟨rest, Reads.cons hread hreads, hwhite⟩
      · rw [if_neg hlt] at hread
        rw [wordPieces_long hpos hne (Nat.le_of_not_lt hlt), List.cons_append]
        -- a full buffer leaves the blanks, and the next call skips them
        by_cases hnil : s.drop (limit - 1).toNat = []
        · rw [hnil, List.nil_append] at hread
          obtain ⟨rest, hreads, hwhite⟩ := hrest b hb.all_white
          rw [hnil, wordPieces_nil hpos, List.nil_append]
          exact ⟨rest, Reads.cons hread hreads, hwhite⟩
        · have hdrop : (s.drop (limit - 1).toNat).length < n := by
            rw [List.length_drop]
            omega
          obtain ⟨rest, hreads, hwhite⟩ := ih _ hdrop (w := [])
            (fun c hc => hs c (List.mem_of_mem_drop hc)) hnil
            (fun c hc => absurd hc List.not_mem_nil) rfl
          exact ⟨rest, Reads.cons hread hreads, hwhite⟩

end LineReader

/-! ### What the calls return -/

open LineReader

theorem loop_lineStart {limit : Byte} (hlimit : limit ≠ 1) :
    (lineStart limit).loop = lineStart (limit - 1) :=
  if_neg (show limit - 1 ≠ 0 by bv_omega)

/-- The calls return the lines, and a long line in pieces. -/
theorem reads_lines {limit : Byte} (hlimit : limit ≠ 1) (ls : List (List Byte))
    (hls : ∀ l ∈ ls, ∀ c ∈ l, c ≠ 0 ∧ c ≠ cr) (rest : List Byte) :
    Reads (fun _ => false) (lineStart limit).loop (ls.flatMap (· ++ [cr, lf]) ++ rest)
      (ls.flatMap (pieces (limit - 1).toNat)) rest := by
  rw [loop_lineStart hlimit]
  induction ls with
  | nil => exact Reads.nil _ rest
  | cons l ls ih =>
      have hl : ∀ c ∈ l, Inner (fun _ => false) c := by
        intro c hc
        obtain ⟨hzero, hcr⟩ := hls l (List.mem_cons_self ..) c hc
        exact ⟨hzero, hcr, rfl⟩
      have hline := Reads.line (r := lineStart (limit - 1)) rfl rfl
        (show limit - 1 ≠ 0 by bv_omega) (.newline lf (by decide)) hl
        (ih fun l' hl' => hls l' (List.mem_cons_of_mem _ hl'))
      rw [List.flatMap_cons, List.append_assoc, List.append_assoc]
      exact hline

/-- **Lines.**  Whatever zeros come between, the calls return the lines, and a line that
does not fit into the buffer is returned in pieces. -/
theorem getln_lines {limit : Byte} (hlimit : limit ≠ 1) (ls : List (List Byte))
    (hls : ∀ l ∈ ls, ∀ c ∈ l, c ≠ 0 ∧ c ≠ cr) {cs rest : List Byte}
    (hcs : nonzero cs = ls.flatMap (· ++ [cr, lf]) ++ rest) :
    let texts := ls.flatMap (pieces (limit - 1).toNat)
    (∀ r ∈ (getlns limit texts.length cs).1, r.returned = true) ∧
      (getlns limit texts.length cs).1.map LineReader.buffer = texts.map (· ++ [0]) ∧
      nonzero (getlns limit texts.length cs).2 = rest := by
  intro texts
  have hreads := reads_lines hlimit ls hls rest
  rw [← hcs] at hreads
  obtain ⟨hret, hbuf, hleft⟩ := hreads
  rw [feeds_nonzero] at hret hbuf hleft
  exact ⟨hret, hbuf, hleft⟩

/-- A line of four characters, read with room for three, and an empty one. -/
theorem getln_lines_pieces :
    (getlns 4 3 [0, 65, 66, 0, 67, 68, 13, 0, 10, 13, 10]).1.map LineReader.buffer =
      [[65, 66, 67, 0], [68, 0], [0]] := by
  obtain ⟨-, hbuf, -⟩ := getln_lines (show (4 : Byte) ≠ 1 by decide) [[65, 66, 67, 68], []]
    (by decide) (show nonzero [0, 65, 66, 0, 67, 68, 13, 0, 10, 13, 10] = _ ++ [] by decide)
  exact hbuf

/-- Whatever zeros come between, the calls return the words. -/
theorem reads_words {limit : Byte} (hlimit : 2 ≤ limit.toNat) (ws : List (List Byte × List Byte))
    (hword : ∀ p ∈ ws, p.1 ≠ [] ∧ ∀ c ∈ p.1, white c = false) (hblanks : ∀ p ∈ ws, Blanks p.2)
    {cs lead : List Byte} (hlead : ∀ c ∈ lead, white c = true)
    (hcs : nonzero cs = lead ++ ws.flatMap fun p => p.1 ++ p.2) :
    ReadsWords limit (nonzero cs) (ws.flatMap fun p => wordPieces (limit - 1).toNat p.1) := by
  rw [hcs]
  clear hcs
  induction ws generalizing lead with
  | nil =>
      refine ⟨lead, ?_, hlead⟩
      rw [List.flatMap_nil, List.append_nil]
      exact Reads.nil _ lead
  | cons p ws ih =>
      obtain ⟨hne, hs⟩ := hword p (List.mem_cons_self ..)
      rw [List.flatMap_cons, List.append_assoc]
      exact ReadsWords.word hlimit hs hne (hblanks p (List.mem_cons_self ..)) hlead
        fun w hw => ih (fun q hq => hword q (List.mem_cons_of_mem _ hq))
          (fun q hq => hblanks q (List.mem_cons_of_mem _ hq)) hw

theorem putstr_itoa (x : Int) : uart0Putstr (itoa x ++ [0]) = itoa x := by
  unfold uart0Putstr
  rw [List.takeWhile_append_of_pos]
  · exact List.append_nil _
  · intro c hc
    have hge := ge_of_mem_itoa hc
    apply decide_eq_true
    bv_omega

theorem white_of_mem_itoa {x : Int} {c : Byte} (hc : c ∈ itoa x) : white c = false := by
  have hge := ge_of_mem_itoa hc
  apply decide_eq_false
  bv_omega

/-- A number that fits into the buffer is returned as it was written. -/
theorem reads_numbers {w k : Nat} {limit : Byte} (hk : 0 < k) (hfits : limit.toNat = k + 2)
    (hw : 2 ^ (w - 1) < 10 ^ k) (ns : List (BitVec w × List Byte))
    (hblanks : ∀ p ∈ ns, Blanks p.2) {cs lead : List Byte} (hlead : ∀ c ∈ lead, white c = true)
    (hcs : nonzero cs =
      lead ++ ns.flatMap fun p => uart0Putstr (itoa p.1.toInt ++ [0]) ++ p.2) :
    (words limit ns.length cs).1.map (fun r => BitVec.ofInt w (atoi r.buffer)) =
      ns.map Prod.fst := by
  have hlimit : (limit - 1).toNat = k + 1 := by bv_omega
  have hlen : ∀ x : BitVec w, (itoa x.toInt).length ≤ k + 1 := by
    intro x
    have hlow := BitVec.le_toInt x
    have hhigh := BitVec.toInt_lt (x := x)
    have hpow : (2 : Int) ^ (w - 1) = ((2 ^ (w - 1) : Nat) : Int) := by push_cast; rfl
    apply length_itoa_le hk
    omega
  have hstream : nonzero cs =
      lead ++ (ns.map fun p => (itoa p.1.toInt, p.2)).flatMap fun p => p.1 ++ p.2 := by
    rw [hcs, List.flatMap_map]
    simp only [putstr_itoa]
  have hreads := reads_words (show 2 ≤ limit.toNat by omega) (ns.map fun p => (itoa p.1.toInt, p.2))
    (by
      intro p hp
      obtain ⟨q, hq, rfl⟩ := List.mem_map.mp hp
      exact ⟨itoa_ne_nil _, fun c hc => white_of_mem_itoa hc⟩)
    (by
      intro p hp
      obtain ⟨q, hq, rfl⟩ := List.mem_map.mp hp
      exact hblanks q hq)
    hlead hstream
  have htexts : (ns.map fun p => (itoa p.1.toInt, p.2)).flatMap
      (fun p => wordPieces (limit - 1).toNat p.1) = ns.map fun p => itoa p.1.toInt := by
    rw [List.flatMap_map, hlimit]
    simp only [wordPieces_fits (itoa_ne_nil _) (hlen _)]
    exact List.flatMap_pure_eq_map ..
  rw [htexts] at hreads
  obtain ⟨rest, ⟨_, hbuf, _⟩, _⟩ := hreads
  rw [feeds_nonzero, List.length_map] at hbuf
  have hvalues := congrArg (List.map fun s => BitVec.ofInt w (atoi s)) hbuf
  rw [List.map_map, List.map_map, List.map_map] at hvalues
  refine hvalues.trans (List.map_congr_left ?_)
  intro p _
  show BitVec.ofInt w (atoi (itoa p.1.toInt ++ [0])) = p.1
  rw [atoi_itoa, BitVec.ofInt_toInt]

/-- **Numbers.**  What `uart0_putint` and `uart0_putlong` write, with blanks after each
number, `uart0_getint` and `uart0_getlong` return. -/
theorem numbers_read {lead : List Byte} (hlead : ∀ c ∈ lead, white c = true) (cs : List Byte) :
    (∀ ns : List (BitVec 16 × List Byte), (∀ p ∈ ns, Blanks p.2) →
      nonzero cs = lead ++ ns.flatMap (fun p => uart0Putint p.1 ++ p.2) →
        (words 7 ns.length cs).1.map uart0Getint = ns.map Prod.fst) ∧
    (∀ ns : List (BitVec 32 × List Byte), (∀ p ∈ ns, Blanks p.2) →
      nonzero cs = lead ++ ns.flatMap (fun p => uart0Putlong p.1 ++ p.2) →
        (words 12 ns.length cs).1.map uart0Getlong = ns.map Prod.fst) := by
  constructor
  · intro ns hblanks hcs
    exact reads_numbers (k := 5) (by decide) (by decide) (by decide) ns hblanks hlead hcs
  · intro ns hblanks hcs
    exact reads_numbers (k := 10) (by decide) (by decide) (by decide) ns hblanks hlead hcs

theorem numbers_read_two :
    (words 7 2 [0x20, 0x2d, 0, 0x35, cr, lf, 0x33, 0x30, 0x30, 0x20]).1.map uart0Getint =
      [-5, 300] := by
  obtain ⟨hint, -⟩ := numbers_read (show ∀ c ∈ [0x20], white c = true by decide)
    [0x20, 0x2d, 0, 0x35, cr, lf, 0x33, 0x30, 0x30, 0x20]
  refine hint [(-5, [cr, lf]), (300, [0x20])] (fun p hp => ?_) (by decide)
  rcases List.mem_cons.mp hp with rfl | hp
  · exact ⟨by decide, by decide, by decide, by decide⟩
  · rw [List.mem_singleton.mp hp]
    exact ⟨by decide, by decide, by decide, by decide⟩

/-- **Within the buffer.**  Whatever is received, the readers store within `bufferlimit`
bytes just when the limit does not wrap: it is counted down once before the first
character, and `uart0_getlnToFirstWhiteSpace` counts it down twice. -/
theorem stored_within (limit : Byte) :
    ((∀ cs, (uart0Gets limit cs).1.buffer.length ≤ limit.toNat) ↔ limit ≠ 0) ∧
      ((∀ cs, (uart0Getln limit cs).1.buffer.length ≤ limit.toNat) ↔ limit ≠ 0) ∧
      ((∀ cs, (uart0GetlnToFirstWhiteSpace limit cs).1.buffer.length ≤ limit.toNat) ↔
        2 ≤ limit.toNat) := by
  have hstart : limit ≠ 0 → Within limit.toNat (lineStart limit).loop := by
    intro hne
    apply Within.loop
    · show 0 + limit.toNat ≤ limit.toNat
      omega
    · show 1 ≤ limit.toNat
      bv_omega
  refine ⟨⟨?_, ?_⟩, ⟨?_, ?_⟩, ⟨?_, ?_⟩⟩
  · intro hall hzero
    have htwo := hall [0]
    rw [hzero] at htwo
    exact absurd htwo (by decide)
  · intro hne cs
    exact (hstart hne).feed_gets (wait_or_ret_loop _) cs
  · intro hall hzero
    have hone := hall [cr, lf]
    rw [hzero] at hone
    exact absurd hone (by decide)
  · intro hne cs
    exact (hstart hne).feed cs
  · intro hall
    by_contra hlt
    have hword := hall [0x61, cr, lf]
    have hsmall : limit = 0 ∨ limit = 1 := by bv_omega
    rcases hsmall with rfl | rfl
    · exact absurd hword (by decide)
    · exact absurd hword (by decide)
  · intro htwo cs
    have hword : Within limit.toNat (wordStart limit) := by
      refine ⟨?_, fun _ => htwo, ?_⟩
      · show 0 + limit.toNat ≤ limit.toNat
        omega
      · intro hpc
        cases hpc
    exact hword.feed cs

end AtmegaScheduler
