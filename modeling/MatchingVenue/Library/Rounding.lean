import MatchingVenue.Library.Double
import Mathlib.Algebra.Order.Field.Power
import Mathlib.Data.Int.Log
import Mathlib.Data.Rat.Floor
import Mathlib.Tactic.Linarith

/-!
# Fractions as double precision numbers

A quotient or a product of doubles is the double nearest to the fraction: 53 bits of it, a tie to
the even one. Subnormal and infinite results are out of the range of `round`. An integer of 53 bits
is its own double (`round_intCast`), and rounding does not go beyond one (`round_le`), so that a
share of a whole stays one (`round_pos`).
-/

namespace MatchingVenue

namespace Double

/-- The integer nearest to a fraction, and of two the even one. -/
def roundEven (q : ℚ) : ℤ :=
  if q - ⌊q⌋ < 1 / 2 ∨ q - ⌊q⌋ = 1 / 2 ∧ ⌊q⌋ % 2 = 0 then ⌊q⌋ else ⌊q⌋ + 1

/-- The exponent of the last of the 53 bits of a fraction. -/
def lastBit (q : ℚ) : ℤ := Int.log 2 |q| + 1 - precision

/-- The double nearest to a fraction. -/
def round (q : ℚ) : ℚ := roundEven (q / 2 ^ lastBit q) * 2 ^ lastBit q

/-- An integer is the nearest to itself. -/
@[simp]
theorem roundEven_intCast (n : ℤ) : roundEven n = n := by
  rw [roundEven, Int.floor_intCast, if_pos (.inl (by norm_num))]

/-- The nearest integer is not above an integer that is not below the fraction. -/
theorem roundEven_le {q : ℚ} {n : ℤ} (h : q ≤ n) : roundEven q ≤ n := by
  have hfloor : ⌊q⌋ ≤ n := Int.floor_le_iff.mpr (h.trans_lt (lt_add_one _))
  unfold roundEven
  split_ifs with hdown
  · exact hfloor
  · -- It rounds up, so that the fraction is no integer.
    rw [not_or, not_lt] at hdown
    rcases hfloor.lt_or_eq with hlt | heq
    · exact hlt
    · have hfrac : q - ⌊q⌋ ≤ 0 := by
        rw [heq]
        linarith
      linarith [hdown.1]

/-- The nearest integer is not below an integer that is not above the fraction. -/
theorem le_roundEven {q : ℚ} {n : ℤ} (h : (n : ℚ) ≤ q) : n ≤ roundEven q := by
  have hfloor : n ≤ ⌊q⌋ := Int.le_floor.mpr h
  unfold roundEven
  split_ifs
  · exact hfloor
  · exact hfloor.trans (Int.le_add_one (le_refl _))

/-- A fraction that is not zero has 53 bits down to its last one. -/
theorem lastBit_bounds {q : ℚ} (h : q ≠ 0) :
    (2 : ℚ) ^ (52 : ℤ) * 2 ^ lastBit q ≤ |q| ∧ |q| < (2 : ℚ) ^ (53 : ℤ) * 2 ^ lastBit q := by
  have hlow : (52 : ℤ) + lastBit q = Int.log 2 |q| := by
    unfold lastBit precision
    omega
  have hhigh : (53 : ℤ) + lastBit q = Int.log 2 |q| + 1 := by
    unfold lastBit precision
    omega
  rw [← zpow_add₀ two_ne_zero, ← zpow_add₀ two_ne_zero, hlow, hhigh]
  exact ⟨Int.zpow_log_le_self (by norm_num) (abs_pos.mpr h),
    Int.lt_zpow_succ_log_self (by norm_num) _⟩

/-- A multiple of its last bit is its own double. -/
theorem round_of_multiple {q : ℚ} {k : ℤ} (h : q = k * 2 ^ lastBit q) : round q = q := by
  have hpow : (2 : ℚ) ^ lastBit q ≠ 0 := zpow_ne_zero _ two_ne_zero
  have hquot : q / 2 ^ lastBit q = k := (eq_div_of_mul_eq hpow h.symm).symm
  rw [round, hquot, roundEven_intCast, ← h]

/-- An integer of 53 bits is its own double. -/
theorem round_intCast {n : ℤ} (h : n.natAbs < 2 ^ precision) : round n = n := by
  by_cases hzero : n = 0
  · subst hzero
    simp [round, roundEven]
  have hlog : Int.log 2 |(n : ℚ)| = Nat.log 2 n.natAbs := by
    rw [← Int.cast_abs, Int.abs_eq_natAbs, Int.cast_natCast, Int.log_natCast]
  have hbits : Nat.log 2 n.natAbs < precision :=
    Nat.log_lt_of_lt_pow (Int.natAbs_ne_zero.mpr hzero) h
  -- Its last bit is behind the point, if it has one there.
  obtain ⟨e, he⟩ : ∃ e : ℕ, lastBit n = -e := by
    refine ⟨precision - 1 - Nat.log 2 n.natAbs, ?_⟩
    unfold lastBit
    rw [hlog]
    omega
  refine round_of_multiple (k := n * 2 ^ e) ?_
  have hpow : (2 : ℚ) ^ e ≠ 0 := pow_ne_zero _ two_ne_zero
  rw [he, zpow_neg, zpow_natCast]
  push_cast
  field_simp

/-- Rounding does not go beyond an integer of 53 bits. -/
theorem round_le {q : ℚ} {n : ℕ} (hq : 0 < q) (hn : n ≤ 2 ^ precision) (h : q ≤ n) :
    round q ≤ n := by
  obtain ⟨hlow, -⟩ := lastBit_bounds hq.ne'
  rw [abs_of_pos hq] at hlow
  have hpow : (0 : ℚ) < 2 ^ lastBit q := zpow_pos two_pos _
  have hquot : q / 2 ^ lastBit q ≤ n / 2 ^ lastBit q := div_le_div_of_nonneg_right h hpow.le
  by_cases hbit : lastBit q ≤ 0
  · -- The integer is a multiple of the last bit.
    obtain ⟨e, he⟩ : ∃ e : ℕ, lastBit q = -e := ⟨(lastBit q).natAbs, by omega⟩
    have hmultiple : (n : ℚ) / 2 ^ lastBit q = ((n * 2 ^ e : ℕ) : ℤ) := by
      rw [he, zpow_neg, zpow_natCast, div_inv_eq_mul]
      push_cast
      ring
    have hround := roundEven_le (hmultiple ▸ hquot)
    calc round q ≤ ((n * 2 ^ e : ℕ) : ℤ) * 2 ^ lastBit q :=
          mul_le_mul_of_nonneg_right (Int.cast_le.mpr hround) hpow.le
      _ = n := by rw [← hmultiple, div_mul_cancel₀ _ hpow.ne']
  · -- The fraction has 53 bits before the point, so it is the integer.
    have htwo : (2 : ℚ) ≤ 2 ^ lastBit q := by
      calc (2 : ℚ) = 2 ^ (1 : ℤ) := (zpow_one 2).symm
        _ ≤ 2 ^ lastBit q := zpow_le_zpow_right₀ one_le_two (by omega)
    have hmax : (n : ℚ) ≤ 2 ^ (53 : ℤ) := by exact_mod_cast hn
    have hfull : q = ((2 ^ 52 : ℤ) : ℚ) * 2 ^ lastBit q := by
      have hup : (2 : ℚ) ^ (53 : ℤ) ≤ 2 ^ (52 : ℤ) * 2 ^ lastBit q := by
        calc (2 : ℚ) ^ (53 : ℤ) = 2 ^ (52 : ℤ) * 2 := by norm_num
          _ ≤ 2 ^ (52 : ℤ) * 2 ^ lastBit q := mul_le_mul_of_nonneg_left htwo (by positivity)
      have hcast : ((2 ^ 52 : ℤ) : ℚ) = 2 ^ (52 : ℤ) := by norm_num
      rw [hcast]
      exact le_antisymm (h.trans (hmax.trans hup)) hlow
    rw [round_of_multiple hfull]
    exact h

/-- The double of a positive fraction is positive. -/
theorem round_pos {q : ℚ} (hq : 0 < q) : 0 < round q := by
  obtain ⟨hlow, -⟩ := lastBit_bounds hq.ne'
  rw [abs_of_pos hq] at hlow
  have hpow : (0 : ℚ) < 2 ^ lastBit q := zpow_pos two_pos _
  have hbits : ((2 ^ 52 : ℤ) : ℚ) ≤ q / 2 ^ lastBit q := by
    rw [le_div_iff₀ hpow]
    exact_mod_cast hlow
  have hround : 0 < roundEven (q / 2 ^ lastBit q) :=
    (by decide : (0 : ℤ) < 2 ^ 52).trans_le (le_roundEven hbits)
  exact mul_pos (Int.cast_pos.mpr hround) hpow

end Double

end MatchingVenue
