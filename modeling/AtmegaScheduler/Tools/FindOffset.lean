/-
The memory search of the native tests.

`find_offset_off` looks for a pattern in the memory of a simulated controller.  It counts
how many bytes have matched; a mismatch sets the count to zero, and the increment that
follows counts the byte at hand as a match of the first byte of the pattern, whatever it
is.  So the first byte is compared with nothing, and an occurrence that begins inside a
failed partial match is missed.

Where the search starts again depends on all it has read, and a window that begins one byte
later may give another answer.  What makes it right in all of them is said of the memory
and the pattern alone.
-/
import AtmegaScheduler.Avr.Cpu
import AtmegaScheduler.Lib.OnePass

namespace AtmegaScheduler

open Avr

/-- The fields of an `avr_t` that the search reads. -/
structure AvrSim where
  data : Word → Byte
  ioOffset : Word
  ramend : Word

/-- The loop of `find_offset_off`. -/
def seekLoop (avr : AvrSim) (array : Word → Byte) (size i count : Word) : Word :=
  if i < avr.ramend then
    let count := if avr.data i ≠ array count then 0 else count
    let count := count + 1
    if count = size then i - size + 1 else seekLoop avr array size (i + 1) count
  else 0
termination_by avr.ramend.toNat - i.toNat
decreasing_by bv_omega

/-- `find_offset_off` -/
def findOffsetOff (avr : Option AvrSim) (array : Word → Byte) (size : Word) : Word :=
  match avr with
  | none => 0
  | some avr => seekLoop avr array size (avr.ioOffset - 1) 0

/-- What is searched, and where. -/
def AvrSim.search (avr : AvrSim) (array : Word → Byte) (size : Word) : Search Byte where
  text := fun n => avr.data (BitVec.ofNat 16 n)
  pat := fun k => array (BitVec.ofNat 16 k)
  len := size.toNat
  lo := (avr.ioOffset - 1).toNat
  hi := avr.ramend.toNat

/-- The offset of the last start, if the rest of the pattern follows it. -/
def Reports (S : Search Byte) (o : Word) : Prop :=
  ∃ r, S.LastStart r ∧ ((S.FollowsAt r ∧ o = BitVec.ofNat 16 r) ∨ (¬ S.FollowsAt r ∧ o = 0))

section Loop

variable {avr : AvrSim} {array : Word → Byte} {size : Word}

theorem ofNat_lt_ramend {i : Nat} (hi : i ≤ avr.ramend.toNat) :
    BitVec.ofNat 16 i < avr.ramend ↔ i < avr.ramend.toNat := by
  have hlt := avr.ramend.isLt
  rw [BitVec.lt_def, BitVec.toNat_ofNat, Nat.mod_eq_of_lt (by omega)]

theorem ofNat_eq_size {c : Nat} (hc : c < 2 ^ 16) : BitVec.ofNat 16 c = size ↔ c = size.toNat := by
  constructor
  · intro h
    rw [← h, BitVec.toNat_ofNat, Nat.mod_eq_of_lt hc]
  · intro h
    rw [h, BitVec.ofNat_toNat, BitVec.setWidth_eq]

/-- **The loop**, with `c` bytes matched since the start `r`. -/
theorem seekLoop_reports (n : Nat) : ∀ r c : Nat, r + c + n = avr.ramend.toNat → 1 ≤ c →
    c < size.toNat → (avr.search array size).Start r →
    (∀ k, 1 ≤ k → k < c → avr.data (BitVec.ofNat 16 (r + k)) = array (BitVec.ofNat 16 k)) →
    Reports (avr.search array size)
      (seekLoop avr array size (BitVec.ofNat 16 (r + c)) (BitVec.ofNat 16 c)) := by
  have hsize := size.isLt
  induction n with
  | zero =>
      intro r c hend hpos hc hstart hmatch
      -- The window ends in the middle of the match.
      have hstop : ¬ BitVec.ofNat 16 (r + c) < avr.ramend := by
        rw [ofNat_lt_ramend (by omega)]
        omega
      obtain ⟨hlast, hnot⟩ := hstart.last_of_end hend hc hmatch
      rw [seekLoop, if_neg hstop]
      exact ⟨r, hlast, Or.inr ⟨hnot, rfl⟩⟩
  | succ n ih =>
      intro r c hend hpos hc hstart hmatch
      have hgo : BitVec.ofNat 16 (r + c) < avr.ramend := by
        rw [ofNat_lt_ramend (by omega)]
        omega
      rw [seekLoop, if_pos hgo]
      dsimp only
      have hnext : ∀ m : Nat, BitVec.ofNat 16 m + 1 = BitVec.ofNat 16 (m + 1) := by
        intro m
        rw [BitVec.ofNat_add]
        rfl
      by_cases hbyte : avr.data (BitVec.ofNat 16 (r + c)) ≠ array (BitVec.ofNat 16 c)
      · -- The search starts again at the mismatch.
        have hmis : (avr.search array size).Mismatch r (r + c) :=
          ⟨c, rfl, hpos, hc, show r + c < avr.ramend.toNat by omega, hbyte, hmatch⟩
        have hone : ¬ (0 : Word) + 1 = size := by
          show ¬ BitVec.ofNat 16 1 = size
          rw [ofNat_eq_size (by omega)]
          omega
        rw [if_pos hbyte, if_neg hone, hnext]
        refine ih (r + c) 1 (by omega) (Nat.le_refl 1) (by omega) (hstart.tail hmis) ?_
        intro k hk hlt
        omega
      · rw [if_neg hbyte, hnext]
        rw [not_not] at hbyte
        have hmatch' : ∀ k, 1 ≤ k → k < c + 1 →
            avr.data (BitVec.ofNat 16 (r + k)) = array (BitVec.ofNat 16 k) := by
          intro k hk hlt
          by_cases hkc : k = c
          · rw [hkc]
            exact hbyte
          · exact hmatch k hk (by omega)
        by_cases hall : c + 1 = size.toNat
        · -- The pattern is complete.
          have hfull : BitVec.ofNat 16 (c + 1) = size := (ofNat_eq_size (by omega)).mpr hall
          have hf : (avr.search array size).FollowsAt r := by
            refine ⟨?_, fun k hk hlt => hmatch' k hk ?_⟩
            · show r + size.toNat ≤ avr.ramend.toNat
              omega
            · rw [hall]
              exact hlt
          rw [if_pos hfull]
          refine ⟨r, hstart.last hf, Or.inl ⟨hf, ?_⟩⟩
          rw [← hfull, BitVec.ofNat_add, BitVec.ofNat_add]
          grind
        · have hmore : ¬ BitVec.ofNat 16 (c + 1) = size := by
            rw [ofNat_eq_size (by omega)]
            exact hall
          rw [if_neg hmore, hnext, Nat.add_assoc]
          exact ih r (c + 1) (by omega) (by omega) (by omega) hstart hmatch'

/-- **`find_offset_off`** reports the last start, if the rest of the pattern follows it. -/
theorem findOffsetOff_reports (avr : AvrSim) (array : Word → Byte) (hsize : 1 ≤ size.toNat) :
    Reports (avr.search array size) (findOffsetOff (some avr) array size) := by
  have hlt := avr.ramend.isLt
  have hstart : (avr.search array size).Start (avr.ioOffset - 1).toNat := .refl
  unfold findOffsetOff
  dsimp only
  by_cases hgo : avr.ioOffset - 1 < avr.ramend
  · have hlo : (avr.ioOffset - 1).toNat < avr.ramend.toNat := hgo
    -- Whatever the first byte is, one byte has matched after it.
    have hcount : (if avr.data (avr.ioOffset - 1) ≠ array 0 then (0 : Word) else 0) = 0 :=
      ite_self 0
    rw [seekLoop, if_pos hgo]
    dsimp only
    rw [hcount]
    by_cases hone : size.toNat = 1
    · have hfull : BitVec.ofNat 16 1 = size := (ofNat_eq_size (by omega)).mpr hone.symm
      have hf : (avr.search array size).FollowsAt (avr.ioOffset - 1).toNat := by
        refine ⟨?_, fun k hk hlt => ?_⟩
        · show (avr.ioOffset - 1).toNat + size.toNat ≤ avr.ramend.toNat
          omega
        · have hk' : k < size.toNat := hlt
          omega
      rw [if_pos (show (0 : Word) + 1 = size from hfull)]
      refine ⟨_, hstart.last hf, Or.inl ⟨hf, ?_⟩⟩
      rw [BitVec.ofNat_toNat, BitVec.setWidth_eq, ← hfull]
      exact BitVec.sub_add_cancel _ _
    · have hmore : ¬ (0 : Word) + 1 = size := by
        show ¬ BitVec.ofNat 16 1 = size
        rw [ofNat_eq_size (by omega)]
        omega
      rw [if_neg hmore]
      have hloop : Reports (avr.search array size) _ :=
        seekLoop_reports (avr.ramend.toNat - (avr.ioOffset - 1).toNat - 1)
          (avr.ioOffset - 1).toNat 1 (by omega) (Nat.le_refl 1) (by omega) hstart
          (fun k hk hlt => by omega)
      rw [BitVec.ofNat_add, BitVec.ofNat_toNat, BitVec.setWidth_eq] at hloop
      exact hloop
  · have hlo : avr.ramend.toNat ≤ (avr.ioOffset - 1).toNat := BitVec.not_lt.mp hgo
    rw [seekLoop, if_neg hgo]
    refine ⟨_, ⟨hstart, fun r' hm => ?_⟩, Or.inr ⟨fun hf => ?_, rfl⟩⟩
    · obtain ⟨j, rfl, hj, -, hhi, -, -⟩ := hm
      have hhi' : (avr.ioOffset - 1).toNat + j < avr.ramend.toNat := hhi
      omega
    · have hfit : (avr.ioOffset - 1).toNat + size.toNat ≤ avr.ramend.toNat := hf.1
      omega

end Loop

/-! ### What the search finds -/

/-- The search reports occurrences only, and reports one if there is one. -/
structure FindsPattern (avr : AvrSim) (array : Word → Byte) (size : Word) : Prop where
  real : ∀ o, findOffsetOff (some avr) array size = o → o ≠ 0 → ∀ k, k < size.toNat →
    avr.data (o + BitVec.ofNat 16 k) = array (BitVec.ofNat 16 k)
  found : ∀ p, (avr.search array size).OccursAt p → p ≠ 0 → findOffsetOff (some avr) array size ≠ 0

/-- What the memory, the window and the pattern have to be like for the search to be right.
Wherever the rest of the pattern is, the first byte is too; and a partial match that reaches
over the last occurrence is a whole one.  At 0 the search reports nothing. -/
structure Clear (S : Search Byte) : Prop where
  first : ∀ r, S.lo ≤ r → r ≠ 0 → S.FollowsAt r → S.text r = S.pat 0
  last : ∀ p, S.LastAt p → p ≠ 0 → ∀ r, S.lo ≤ r → r < p → S.MatchesTo r p →
    r ≠ 0 ∧ S.FollowsAt r

theorem ofNat_follows_ne {avr : AvrSim} {array : Word → Byte} {size : Word} {r : Nat}
    (hsize : 1 ≤ size.toNat) (h : (avr.search array size).FollowsAt r) :
    BitVec.ofNat 16 r ≠ 0 ↔ r ≠ 0 := by
  have hfit : r + size.toNat ≤ avr.ramend.toNat := h.1
  have hlt := avr.ramend.isLt
  refine not_congr ⟨fun hz => ?_, fun hz => by rw [hz]; rfl⟩
  have hnat := congrArg BitVec.toNat hz
  rw [BitVec.toNat_ofNat, Nat.mod_eq_of_lt (by omega)] at hnat
  exact hnat

section Window

variable {avr : AvrSim} {array : Word → Byte} {size : Word}

/-- Where the search is clear, it finds the pattern. -/
theorem Clear.finds (h : Clear (avr.search array size)) (hsize : 1 ≤ size.toNat) :
    FindsPattern avr array size := by
  obtain ⟨r, hlast, hcase⟩ := findOffsetOff_reports avr array hsize
  have hlo : (avr.search array size).lo ≤ r := hlast.1.le
  refine ⟨fun o ho hne k hk => ?_, fun p hp hne => ?_⟩
  · rcases hcase with ⟨hf, ho'⟩ | ⟨-, ho'⟩
    · rw [← ho, ho'] at hne ⊢
      rw [← BitVec.ofNat_add]
      by_cases hzero : k = 0
      · rw [hzero]
        exact h.first r hlo ((ofNat_follows_ne hsize hf).mp hne) hf
      · exact hf.2 k (by omega) hk
    · exact absurd (ho.symm.trans ho') hne
  · obtain ⟨q, hpq, hq⟩ := hp.exists_last
    have hq0 : q ≠ 0 := by omega
    have hqlo : (avr.search array size).lo ≤ q := hq.1.1
    have hqhi : q < (avr.search array size).hi := by
      have hfit := hq.1.2.1
      have hlen : (avr.search array size).len = size.toNat := rfl
      omega
    obtain ⟨r', hs, hf, hle⟩ := Search.exists_start hqlo hqhi hq.1.follows
      fun r hr hrq hm => (h.last q hq hq0 r hr hrq hm).2
    have hr' : r' ≠ 0 := by
      by_cases heq : r' = q
      · rwa [heq]
      · exact (h.last q hq hq0 r' hs.le (by omega) hf.matchesTo).1
    obtain rfl := (hs.last hf).unique hlast
    rcases hcase with ⟨-, ho⟩ | ⟨hnot, -⟩
    · rw [ho]
      exact (ofNat_follows_ne hsize hf).mpr hr'
    · exact absurd hf hnot

/-- It is clear in every window that begins later. -/
theorem Clear.later {S : Search Byte} (h : Clear S) {lo : Nat} (hlo : S.lo ≤ lo) :
    Clear { S with lo := lo } := by
  refine ⟨fun r hr hne hf => h.first r (Nat.le_trans hlo hr) hne hf, fun p hp hne r hr hrp hm => ?_⟩
  have hlast : S.LastAt p := by
    refine ⟨⟨Nat.le_trans hlo hp.1.1, hp.1.2⟩, fun p' hlt hp' => hp.2 p' hlt ⟨?_, hp'.2⟩⟩
    exact Nat.le_trans hp.1.1 (Nat.le_of_lt hlt)
  exact h.last p hlast hne r (Nat.le_trans hlo hr) hrp hm

/-- The search in the window that begins at `r`. -/
theorem search_from {r : Nat} (hr : r < 2 ^ 16) :
    ({ avr with ioOffset := BitVec.ofNat 16 r + 1 } : AvrSim).search array size =
      { avr.search array size with lo := r } := by
  have hlo : (BitVec.ofNat 16 r + 1 - 1).toNat = r := by
    rw [BitVec.add_sub_cancel, BitVec.toNat_ofNat, Nat.mod_eq_of_lt hr]
  unfold AvrSim.search
  rw [hlo]

theorem le_from {r : Nat} (hr : r < 2 ^ 16) (hlo : (avr.search array size).lo ≤ r) :
    avr.ioOffset - 1 ≤ BitVec.ofNat 16 r + 1 - 1 := by
  rw [BitVec.add_sub_cancel, BitVec.le_def, BitVec.toNat_ofNat, Nat.mod_eq_of_lt hr]
  exact hlo

/-- Where the search is right from `r` on, and the rest of the pattern follows `r`, the first
byte is there. -/
theorem first_of_finds {r : Nat} (hsize : 1 ≤ size.toNat) (hr : r < 2 ^ 16)
    (h : FindsPattern { avr with ioOffset := BitVec.ofNat 16 r + 1 } array size) (hne : r ≠ 0)
    (hf : (avr.search array size).FollowsAt r) :
    (avr.search array size).text r = (avr.search array size).pat 0 := by
  obtain ⟨r', hlast, hcase⟩ :=
    findOffsetOff_reports { avr with ioOffset := BitVec.ofNat 16 r + 1 } array hsize
  rw [search_from hr] at hlast hcase
  have hstart : ({ avr.search array size with lo := r } : Search Byte).Start r := .refl
  obtain rfl := (hstart.last hf).unique hlast
  rcases hcase with ⟨-, ho⟩ | ⟨hnot, -⟩
  · have hbyte := h.real _ ho ((ofNat_follows_ne hsize hf).mpr hne) 0 (by omega)
    rw [← BitVec.ofNat_add] at hbyte
    exact hbyte
  · exact absurd hf hnot

/-- Where the search is right from `r` on, and reports a last occurrence, a partial match
behind `r` that reaches over it is what it reports. -/
theorem last_of_finds {p r : Nat} (hsize : 1 ≤ size.toNat)
    (h : FindsPattern { avr with ioOffset := BitVec.ofNat 16 r + 1 } array size)
    (hfirst : ∀ r', r ≤ r' → r' ≠ 0 → (avr.search array size).FollowsAt r' →
      (avr.search array size).text r' = (avr.search array size).pat 0)
    (hp : (avr.search array size).LastAt p) (hne : p ≠ 0) (hlo : (avr.search array size).lo ≤ r)
    (hrp : r < p) (hm : (avr.search array size).MatchesTo r p) :
    r ≠ 0 ∧ (avr.search array size).FollowsAt r := by
  have hfit : p + size.toNat ≤ avr.ramend.toNat := hp.1.2.1
  have hlt := avr.ramend.isLt
  have hr : r < 2 ^ 16 := by omega
  obtain ⟨r', hlast, hcase⟩ :=
    findOffsetOff_reports { avr with ioOffset := BitVec.ofNat 16 r + 1 } array hsize
  have hfound := h.found p
  rw [search_from hr] at hlast hcase hfound
  have hsome := hfound ⟨Nat.le_of_lt hrp, hp.1.2⟩ hne
  rcases hcase with ⟨hf, ho⟩ | ⟨-, ho⟩
  · rw [ho] at hsome
    have hr' : r' ≠ 0 := (@ofNat_follows_ne avr array size r' hsize hf).mp hsome
    have hle : r ≤ r' := hlast.1.le
    rcases hlast.1.cases_first with heq | ⟨x, hx, hxr⟩
    · obtain rfl : r' = r := heq
      exact ⟨hr', hf⟩
    · -- Behind `p` there is no occurrence to be reported.
      have hpx : p < x := hm.lt_mismatch hx
      refine absurd ?_ (hp.2 r' (Nat.lt_of_lt_of_le hpx hxr))
      refine ⟨Nat.le_trans hlo hle, hf.1, fun k hk => ?_⟩
      by_cases hzero : k = 0
      · rw [hzero]
        exact hfirst r' hle hr' hf
      · exact hf.2 k (by omega) hk
  · exact absurd ho hsome

end Window

/-- The bytes `l` from address 31 on, and zeros. -/
def simWith (l : List Byte) : AvrSim where
  data := fun a => if 31 ≤ a.toNat then l.getD (a.toNat - 31) 0 else 0
  ioOffset := 0x20
  ramend := 36

/-- The bytes of a pattern. -/
def patternOf (l : List Byte) (k : Word) : Byte := l.getD k.toNat 0

end AtmegaScheduler
