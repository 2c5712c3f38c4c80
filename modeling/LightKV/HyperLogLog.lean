import LightKV.Basic
import Mathlib.Tactic.IntervalCases

/-!
# HyperLogLog ranks

The rank of a hash is meant to be one more than the number of leading zeros in its low 50 bits.
The loop that counts them is bounded by `HLL_BITS`, the width of a register and not the greatest
value of one, so no rank is above seven.
-/

namespace LightKV.HyperLogLog

/-- `HLL_P`. -/
def hllP : Nat := 14

/-- `HLL_BITS`. -/
def hllBits : Nat := 6

/-- The loop of `count_leading_zeros_plus_one`. -/
def countLoop (remaining : BitVec 64) (count : Nat) : Nat :=
  if remaining &&& 1#64 <<< 63 = 0 ∧ count ≤ hllBits then countLoop (remaining <<< 1) (count + 1)
  else count
termination_by hllBits + 1 - count

def countLeadingZerosPlusOne (hash : BitVec 64) : Nat := countLoop (hash <<< hllP) 1

/-- The leading zeros of the low 50 bits. -/
def leadingZeros (hash : BitVec 64) : Nat := (hash.setWidth 50).clz.toNat

theorem and_top_eq_zero_iff (word : BitVec 64) : word &&& 1#64 <<< 63 = 0 ↔ word.msb = false := by
  rw [show 1#64 <<< 63 = BitVec.twoPow 64 63 from rfl, BitVec.and_twoPow,
    BitVec.msb_eq_getLsbD_last]
  cases word.getLsbD 63 <;> decide

/-- The loop counts zeros up to the first one or up to its bound. -/
theorem countLoop_eq {word : BitVec 64} {count zeros : Nat}
    (clear : ∀ place < zeros, word.getMsbD place = false)
    (ends : word.getMsbD zeros = true ∨ count + zeros = hllBits + 1)
    (bounded : count + zeros ≤ hllBits + 1) : countLoop word count = count + zeros := by
  induction zeros generalizing word count with
  | zero =>
    rw [countLoop, if_neg]
    · rfl
    · rw [and_top_eq_zero_iff, BitVec.msb]
      grind
  | succ zeros inductionHypothesis =>
    have shifted : ∀ place ≤ zeros, (word <<< 1).getMsbD place = word.getMsbD (place + 1) := by
      simp
    have rest := @inductionHypothesis (word <<< 1) (count + 1)
      (fun place inside => by
        rw [shifted place inside.le]
        exact clear (place + 1) (Nat.succ_lt_succ inside))
      (ends.imp (shifted zeros le_rfl).trans (by omega)) (by omega)
    have first : word.msb = false := clear 0 (Nat.succ_pos _)
    rw [countLoop, if_pos ⟨(and_top_eq_zero_iff _).mpr first, by omega⟩, rest]
    omega

theorem getMsbD_shiftLeft_hllP {hash : BitVec 64} {place : Nat} :
    (hash <<< hllP).getMsbD place = (hash.setWidth 50).getMsbD place := by
  simp [hllP]

theorem clear_of_lt_leadingZeros {hash : BitVec 64} {place : Nat}
    (before : place < leadingZeros hash) :
    (hash.setWidth 50).getMsbD place = false := by
  have small := BitVec.toNat_lt_two_pow_sub_clz (x := hash.setWidth 50)
  rw [BitVec.getMsbD_eq_getLsbD, BitVec.getLsbD, Nat.testBit_lt_two_pow, Bool.and_false]
  refine small.trans_le (Nat.pow_le_pow_right two_pos ?_)
  unfold leadingZeros at before
  omega

theorem set_at_leadingZeros {hash : BitVec 64} (some : leadingZeros hash < 50) :
    (hash.setWidth 50).getMsbD (leadingZeros hash) = true := by
  rw [BitVec.getMsbD_eq_getLsbD, decide_eq_true some, Bool.true_and]
  exact BitVec.getLsbD_true_clz_of_ne_zero (by decide) (BitVec.clz_lt_iff_ne_zero.mp some)

theorem countLeadingZerosPlusOne_eq (hash : BitVec 64) :
    countLeadingZerosPlusOne hash = 1 + min (leadingZeros hash) hllBits := by
  have bits : hllBits = 6 := rfl
  apply countLoop_eq
  · intro place before
    rw [getMsbD_shiftLeft_hllP]
    exact clear_of_lt_leadingZeros (by omega)
  · by_cases few : leadingZeros hash ≤ hllBits
    · left
      rw [min_eq_left few, getMsbD_shiftLeft_hllP]
      exact set_at_leadingZeros (by omega)
    · omega
  · omega

/-- The rank of a hash is as documented exactly if it has at most six leading zeros; the ranks that
are taken are those from one to seven. -/
theorem rank_eq_leadingZeros (hash : BitVec 64) :
    (countLeadingZerosPlusOne hash = 1 + leadingZeros hash ↔ leadingZeros hash ≤ hllBits) ∧
      ∀ rank, (∃ other, countLeadingZerosPlusOne other = rank) ↔ 1 ≤ rank ∧ rank ≤ hllBits + 1 := by
  refine ⟨?_, fun rank => ⟨?_, fun ⟨positive, small⟩ => ⟨1#64 <<< (50 - rank), ?_⟩⟩⟩
  · rw [countLeadingZerosPlusOne_eq]
    omega
  · rintro ⟨other, rfl⟩
    rw [countLeadingZerosPlusOne_eq]
    omega
  · rw [countLeadingZerosPlusOne_eq]
    unfold hllBits at small
    interval_cases rank <;> decide

/-- The hash zero has 50 leading zeros and the rank seven. No hash has a higher rank. -/
theorem rank_of_zero : leadingZeros 0 = 50 ∧ countLeadingZerosPlusOne 0 = 7 ∧
    ∀ hash, countLeadingZerosPlusOne hash ≤ 7 := by
  have zeros : leadingZeros 0 = 50 := by decide
  refine ⟨zeros, ?_, fun hash => ?_⟩
  · rw [countLeadingZerosPlusOne_eq, zeros]
    rfl
  · rw [countLeadingZerosPlusOne_eq]
    exact Nat.add_le_add_left (min_le_right _ hllBits) 1

end LightKV.HyperLogLog
