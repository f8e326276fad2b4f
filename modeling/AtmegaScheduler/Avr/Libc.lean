/-
Numbers as text: what the conversions of the C library do with base ten.

`itoa` and `ltoa` write a minus sign before the digits of a negative number, and `atoi`
and `atol` skip white space, take a sign, and read digits up to the first character that
is none.  They differ in the width of the number.
-/
import AtmegaScheduler.Avr.Cpu
import Mathlib.Data.Nat.Digits.Lemmas

namespace AtmegaScheduler

open Avr

def digitChar (d : Nat) : Byte := BitVec.ofNat 8 (48 + d)

def isDigit (c : Byte) : Bool := 0x30 ≤ c && c ≤ 0x39

def isSpace (c : Byte) : Bool := c = 0x20 || 0x09 ≤ c && c ≤ 0x0d

/-- The digits of a number, the highest first. -/
def decimal (n : Nat) : List Byte :=
  if n = 0 then [digitChar 0] else (Nat.digits 10 n).reverse.map digitChar

/-- `itoa`, `ltoa` -/
def itoa (x : Int) : List Byte :=
  if x < 0 then 0x2d :: decimal x.natAbs else decimal x.natAbs

/-- The number that the digits at the beginning make. -/
def digitsValue (s : List Byte) : Nat :=
  (s.takeWhile isDigit).foldl (fun n c => 10 * n + (c.toNat - 48)) 0

/-- The number after the white space. -/
def signedValue (s : List Byte) : Int :=
  if s.head? = some 0x2d then -(digitsValue s.tail : Int)
  else if s.head? = some 0x2b then digitsValue s.tail
  else digitsValue s

/-- `atoi`, `atol` -/
def atoi (s : List Byte) : Int := signedValue (s.dropWhile isSpace)

theorem toNat_digitChar {d : Nat} (hd : d < 10) : (digitChar d).toNat = 48 + d := by
  unfold digitChar
  rw [BitVec.toNat_ofNat, Nat.mod_eq_of_lt (by omega)]

theorem isDigit_digitChar {d : Nat} (hd : d < 10) : isDigit (digitChar d) = true := by
  have h := toNat_digitChar hd
  unfold isDigit
  rw [Bool.and_eq_true, decide_eq_true_eq, decide_eq_true_eq]
  constructor
  · bv_omega
  · bv_omega

theorem isDigit_of_mem_decimal {n : Nat} {c : Byte} (hc : c ∈ decimal n) : isDigit c = true := by
  unfold decimal at hc
  by_cases hn : n = 0
  · rw [if_pos hn, List.mem_singleton] at hc
    rw [hc]
    decide
  · rw [if_neg hn] at hc
    obtain ⟨d, hd, rfl⟩ := List.mem_map.mp hc
    exact isDigit_digitChar (Nat.digits_lt_base (by decide) (List.mem_reverse.mp hd))

theorem decimal_ne_nil (n : Nat) : decimal n ≠ [] := by
  unfold decimal
  by_cases hn : n = 0
  · rw [if_pos hn]
    exact List.cons_ne_nil _ _
  · rw [if_neg hn]
    intro hnil
    rw [List.map_eq_nil_iff, List.reverse_eq_nil_iff, Nat.digits_eq_nil_iff_eq_zero] at hnil
    exact hn hnil

/-- Digits do not begin with a sign. -/
theorem head_decimal_ne {c : Byte} (n : Nat) (hc : isDigit c = false) :
    (decimal n ++ [0]).head? ≠ some c := by
  obtain ⟨d, s, hcons⟩ := List.exists_cons_of_ne_nil (decimal_ne_nil n)
  have hd : isDigit d = true := by
    apply isDigit_of_mem_decimal (n := n)
    rw [hcons]
    exact List.mem_cons_self ..
  rw [hcons]
  intro hhead
  have hdc : d = c := Option.some.inj hhead
  rw [hdc, hc] at hd
  exact Bool.false_ne_true hd

theorem length_decimal_le {n k : Nat} (hk : 0 < k) (hn : n < 10 ^ k) : (decimal n).length ≤ k := by
  unfold decimal
  by_cases hzero : n = 0
  · rw [if_pos hzero]
    exact hk
  · rw [if_neg hzero, List.length_map, List.length_reverse]
    exact (Nat.digits_length_le_iff (by decide) n).mpr hn

theorem foldl_digits {ds : List Nat} (hds : ∀ d ∈ ds, d < 10) (n : Nat) :
    (ds.map digitChar).foldl (fun n c => 10 * n + (c.toNat - 48)) n =
      ds.foldl (fun n d => 10 * n + d) n := by
  induction ds generalizing n with
  | nil => rfl
  | cons d ds ih =>
      rw [List.map_cons, List.foldl_cons, List.foldl_cons,
        toNat_digitChar (hds d (List.mem_cons_self ..)), Nat.add_sub_cancel_left]
      exact ih (fun d' hd' => hds d' (List.mem_cons_of_mem _ hd')) _

/-- The digits and a null are read as the number. -/
theorem digitsValue_decimal (n : Nat) : digitsValue (decimal n ++ [0]) = n := by
  have htake : (decimal n ++ [0]).takeWhile isDigit = decimal n := by
    rw [List.takeWhile_append_of_pos fun c hc => isDigit_of_mem_decimal hc]
    exact List.append_nil _
  unfold digitsValue
  rw [htake]
  unfold decimal
  by_cases hn : n = 0
  · rw [if_pos hn, hn]
    rfl
  · rw [if_neg hn, foldl_digits, List.foldl_reverse]
    · have hswap : (fun d m : Nat => 10 * m + d) = fun d m => (d : Nat) + 10 * m := by
        funext d m
        exact Nat.add_comm _ _
      rw [hswap]
      exact (Nat.ofDigits_eq_foldr 10 (Nat.digits 10 n)).symm.trans (Nat.ofDigits_digits 10 n)
    · intro d hd
      exact Nat.digits_lt_base (by decide) (List.mem_reverse.mp hd)

/-! ### A number and its text -/

variable {x : Int} {c : Byte}

/-- Neither white space nor a null is in the text of a number. -/
theorem ge_of_mem_itoa (hc : c ∈ itoa x) : 0x21 ≤ c.toNat := by
  have hdigit : ∀ c ∈ decimal x.natAbs, 0x21 ≤ c.toNat := by
    intro d hd
    have hd := isDigit_of_mem_decimal hd
    unfold isDigit at hd
    rw [Bool.and_eq_true, decide_eq_true_eq, decide_eq_true_eq] at hd
    bv_omega
  unfold itoa at hc
  by_cases hneg : x < 0
  · rw [if_pos hneg] at hc
    rcases List.mem_cons.mp hc with rfl | hc
    · decide
    · exact hdigit c hc
  · rw [if_neg hneg] at hc
    exact hdigit c hc

theorem isSpace_of_ge (hc : 0x21 ≤ c.toNat) : isSpace c = false := by
  unfold isSpace
  rw [Bool.or_eq_false_iff, Bool.and_eq_false_iff, decide_eq_false_iff_not,
    decide_eq_false_iff_not, decide_eq_false_iff_not]
  constructor
  · bv_omega
  · right
    bv_omega

theorem itoa_ne_nil (x : Int) : itoa x ≠ [] := by
  unfold itoa
  by_cases hneg : x < 0
  · rw [if_pos hneg]
    exact List.cons_ne_nil _ _
  · rw [if_neg hneg]
    exact decimal_ne_nil _

theorem length_itoa_le {k : Nat} (hk : 0 < k) (hx : x.natAbs < 10 ^ k) :
    (itoa x).length ≤ k + 1 := by
  have hlen := length_decimal_le hk hx
  unfold itoa
  by_cases hneg : x < 0
  · rw [if_pos hneg]
    exact Nat.succ_le_succ hlen
  · rw [if_neg hneg]
    exact Nat.le_succ_of_le hlen

/-- **The text of a number** is read as the number. -/
theorem atoi_itoa (x : Int) : atoi (itoa x ++ [0]) = x := by
  have hspace : (itoa x ++ [0]).dropWhile isSpace = itoa x ++ [0] := by
    obtain ⟨c, s, hcons⟩ := List.exists_cons_of_ne_nil (itoa_ne_nil x)
    have hc : 0x21 ≤ c.toNat := by
      apply ge_of_mem_itoa (x := x)
      rw [hcons]
      exact List.mem_cons_self ..
    rw [hcons, List.cons_append, List.dropWhile_cons_of_neg]
    rw [isSpace_of_ge hc]
    exact Bool.false_ne_true
  unfold atoi
  rw [hspace]
  unfold itoa signedValue
  by_cases hneg : x < 0
  · rw [if_pos hneg, if_pos (by rfl)]
    show -(digitsValue (decimal x.natAbs ++ [0]) : Int) = x
    rw [digitsValue_decimal]
    omega
  · rw [if_neg hneg, if_neg (head_decimal_ne _ (by decide)), if_neg (head_decimal_ne _ (by decide)),
      digitsValue_decimal]
    omega

end AtmegaScheduler
