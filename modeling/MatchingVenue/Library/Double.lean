import Mathlib.Algebra.BigOperators.Group.List.Basic
import Mathlib.Algebra.Order.BigOperators.Group.List
import Mathlib.Algebra.Ring.Int.Defs
import Mathlib.Algebra.Ring.Nat
import Mathlib.Data.List.Induction
import Mathlib.Data.Nat.Log
import Mathlib.Tactic.Common

/-!
# Integers as double precision numbers

A double holds 53 bits of an integer. A larger one is rounded to the nearest that is held, a tie to
the even one, and from `2^1024` on there is none. The integers up to `2^53 - 1` are the safe ones:
they are held as they are, and no other one is rounded to them (`filter_isSafe`).

A sum of doubles is rounded too (`add`), so that a running sum may stop short of the sum. It is the
sum as long as all that it comes to on the way is safe (`sum_eq`), which for numbers that are not
negative is to say that the sum is (`SumsSafe.of_nonneg`). With such numbers it never goes back
(`le_add`).
-/

namespace MatchingVenue

namespace Double

/-- The bits that are held. -/
def precision : ℕ := 53

/-- The power of two from which on a double is infinite. -/
def infinity : ℕ := 1024

/-- The largest safe integer. -/
def maxSafe : ℕ := 2^precision - 1

/-- The multiple of a step that is nearest to a number, and of two the even one. -/
def roundTo (step n : ℕ) : ℕ :=
  if 2 * (n % step) < step ∨ 2 * (n % step) = step ∧ n / step % 2 = 0 then n / step * step
  else (n / step + 1) * step

/-- The number with 53 bits that is nearest to a number. -/
def nearest (n : ℕ) : ℕ := if n < 2^precision then n
    else roundTo (2 ^ (Nat.log 2 n + 1 - precision)) n

/-- The double of a number, or none where it is infinite. -/
def ofNat (n : ℕ) : Option ℕ := if nearest n < 2^infinity then some (nearest n) else none

/-- Whether a double is a safe integer. -/
def isSafe (n : ℕ) : Bool := n ≤ maxSafe

/-- A multiple of the step that is no greater than a number is no greater than the number
rounded. -/
theorem le_roundTo {step n k : ℕ} (hstep : 0 < step) (h : k * step ≤ n) :
    k * step ≤ roundTo step n := by
  have hquot : k ≤ n / step := (Nat.le_div_iff_mul_le hstep).mpr h
  have hfloor : k * step ≤ n / step * step := Nat.mul_le_mul_right step hquot
  unfold roundTo
  split_ifs
  · exact hfloor
  · exact hfloor.trans (Nat.mul_le_mul_right step (Nat.le_succ _))

/-! ## What is held -/

/-- A number that a double holds: at most 53 bits, and zeros behind them. -/
def Held (n : ℕ) : Prop := ∃ bits exponent, bits ≤ 2^precision ∧ n = bits * 2^exponent

/-- A number of 53 bits is held. -/
theorem Held.of_lt {n : ℕ} (h : n < 2^precision) : Held n := ⟨n, 0, h.le, by rw [pow_zero, mul_one]⟩

/-- The distance of the numbers that are held around a number, as an exponent. -/
def ulpExponent (n : ℕ) : ℕ := Nat.log 2 n + 1 - precision

/-- A number of more than 53 bits lies between two powers of two. -/
theorem ulp_bounds {n : ℕ} (h : 2^precision ≤ n) :
    2 ^ (precision - 1) * 2 ^ ulpExponent n ≤ n ∧ n < 2^precision * 2 ^ ulpExponent n := by
  have hlog : precision ≤ Nat.log 2 n := Nat.le_log_of_pow_le (by decide) h
  have hne : n ≠ 0 := by
    have hpos : 0 < 2^precision := Nat.two_pow_pos _
    omega
  have hlow : precision - 1 + ulpExponent n = Nat.log 2 n := by
    unfold ulpExponent
    unfold precision at hlog ⊢
    omega
  have hhigh : precision + ulpExponent n = Nat.log 2 n + 1 := by
    unfold precision at hlow ⊢
    omega
  rw [← pow_add, ← pow_add, hlow, hhigh]
  exact ⟨Nat.pow_log_le_self 2 hne, Nat.lt_pow_succ_log_self (by decide) n⟩

/-- What a number is rounded to is held. -/
theorem held_nearest (n : ℕ) : Held (nearest n) := by
  unfold nearest
  split_ifs with hsmall
  · exact .of_lt hsmall
  have hquot : n / 2 ^ ulpExponent n < 2^precision :=
    (Nat.div_lt_iff_lt_mul (Nat.two_pow_pos _)).mpr (ulp_bounds (Nat.not_lt.mp hsmall)).2
  unfold roundTo
  split_ifs
  · exact ⟨_, ulpExponent n, hquot.le, rfl⟩
  · exact ⟨_, ulpExponent n, hquot, rfl⟩

/-- Rounding does not go below a number that is held. -/
theorem Held.le_nearest {k n : ℕ} (hk : Held k) (h : k ≤ n) : k ≤ nearest n := by
  unfold nearest
  split_ifs with hsmall
  · exact h
  obtain ⟨bits, exponent, hbits, rfl⟩ := hk
  by_cases hexp : ulpExponent n ≤ exponent
  · -- It is a multiple of the distance.
    have hmul : bits * 2 ^ exponent =
        bits * 2 ^ (exponent - ulpExponent n) * 2 ^ ulpExponent n := by
      rw [mul_assoc, ← pow_add, Nat.sub_add_cancel hexp]
    rw [hmul] at h ⊢
    exact le_roundTo (Nat.two_pow_pos _) h
  · -- It is no more than the power of two below the number, which is one.
    have hpow : bits * 2 ^ exponent ≤ 2 ^ (precision - 1) * 2 ^ ulpExponent n := by
      calc bits * 2 ^ exponent ≤ 2^precision * 2 ^ exponent := Nat.mul_le_mul_right _ hbits
        _ = 2 ^ (precision - 1) * 2 ^ (exponent + 1) := by
          rw [← pow_add, ← pow_add]
          congr 1
          unfold precision
          omega
        _ ≤ 2 ^ (precision - 1) * 2 ^ ulpExponent n :=
          Nat.mul_le_mul_left _ (Nat.pow_le_pow_right (by decide) (Nat.not_le.mp hexp))
    exact hpow.trans (le_roundTo (Nat.two_pow_pos _) (ulp_bounds (Nat.not_lt.mp hsmall)).1)

/-- A number that is held is a multiple of the distance around it. -/
theorem Held.ulp_dvd {n : ℕ} (h : Held n) (hlarge : 2^precision ≤ n) : 2 ^ ulpExponent n ∣ n := by
  obtain ⟨hlow, -⟩ := ulp_bounds hlarge
  obtain ⟨bits, exponent, hbits, hn⟩ := h
  by_cases hexp : ulpExponent n ≤ exponent
  · have hdvd : 2 ^ ulpExponent n ∣ bits * 2 ^ exponent := (pow_dvd_pow 2 hexp).mul_left bits
    rwa [← hn] at hdvd
  · -- It is the least number with its distance.
    have hpow : n ≤ 2 ^ (precision - 1) * 2 ^ ulpExponent n := by
      calc n = bits * 2 ^ exponent := hn
        _ ≤ 2^precision * 2 ^ exponent := Nat.mul_le_mul_right _ hbits
        _ = 2 ^ (precision - 1) * 2 ^ (exponent + 1) := by
          rw [← pow_add, ← pow_add]
          congr 1
          unfold precision
          omega
        _ ≤ 2 ^ (precision - 1) * 2 ^ ulpExponent n :=
          Nat.mul_le_mul_left _ (Nat.pow_le_pow_right (by decide) (Nat.not_le.mp hexp))
    exact Dvd.intro_left _ (le_antisymm hlow hpow)

/-- A number that is held is its own double. -/
theorem Held.nearest_eq {n : ℕ} (h : Held n) : nearest n = n := by
  unfold nearest
  split_ifs with hsmall
  · rfl
  · have hdvd := h.ulp_dvd (Nat.not_lt.mp hsmall)
    have hmod : n % 2 ^ (Nat.log 2 n + 1 - precision) = 0 := Nat.mod_eq_zero_of_dvd hdvd
    rw [roundTo, if_pos (.inl (by rw [hmod]; exact Nat.two_pow_pos _))]
    exact Nat.div_mul_cancel hdvd

/-- A number that is not held as it is stays above those that are. -/
theorem le_nearest {n : ℕ} (h : 2^precision ≤ n) : 2^precision ≤ nearest n := by
  have hheld : Held (2^precision) := ⟨2^precision, 0, le_refl _, by rw [pow_zero, mul_one]⟩
  exact hheld.le_nearest h

/-- A number becomes a safe integer exactly if it is one, and then it is held as it is. -/
theorem filter_isSafe (n : ℕ) : (ofNat n).filter isSafe = if n ≤ maxSafe then some n else none := by
  have hmax : ∀ k, k ≤ maxSafe ↔ k < 2^precision := by
    intro k
    unfold maxSafe precision
    omega
  have hbound : 2^precision ≤ 2^infinity := Nat.pow_le_pow_right (by decide) (by decide)
  unfold ofNat
  by_cases hsmall : n < 2^precision
  · have hnearest : nearest n = n := if_pos hsmall
    rw [hnearest, if_pos (hsmall.trans_le hbound), if_pos ((hmax n).mpr hsmall)]
    exact Option.filter_some_pos (decide_eq_true ((hmax n).mpr hsmall))
  · -- What it is rounded to is not safe either, if it is finite.
    have hlarge := le_nearest (Nat.not_lt.mp hsmall)
    have hover : ¬ nearest n ≤ maxSafe := fun hle => Nat.not_lt.mpr hlarge ((hmax _).mp hle)
    rw [if_neg fun hle => hsmall ((hmax n).mp hle)]
    split_ifs with hfinite
    · exact Option.filter_some_neg (by simpa [isSafe] using hover)
    · rfl

/-! ## Sums -/

/-- The double of an integer, where it is finite. -/
def ofInt (n : ℤ) : ℤ := n.sign * nearest n.natAbs

/-- The sum of two doubles that are integers, where it is finite. -/
def add (m n : ℤ) : ℤ := ofInt (m + n)

/-- The running sum of some doubles. -/
def sum (xs : List ℤ) : ℤ := xs.foldl add 0

/-- All that a running sum comes to is safe. -/
def SumsSafe (xs : List ℤ) : Prop := ∀ k, isSafe (xs.take k).sum.natAbs

/-- An integer that is held is its own double. -/
theorem Held.ofInt_eq {n : ℤ} (h : Held n.natAbs) : ofInt n = n := by
  rw [ofInt, h.nearest_eq, Int.sign_mul_natAbs]

/-- A safe integer is held. -/
theorem held_of_isSafe {n : ℕ} (h : isSafe n) : Held n := by
  have hle : n ≤ maxSafe := of_decide_eq_true h
  refine .of_lt ?_
  unfold maxSafe precision at hle
  unfold precision
  omega

/-- A safe sum is exact. -/
theorem add_eq {m n : ℤ} (h : isSafe (m + n).natAbs) : add m n = m + n :=
  (held_of_isSafe h).ofInt_eq

/-- The sum of doubles is a double. -/
theorem held_add (m n : ℤ) : Held (add m n).natAbs := by
  have habs : (add m n).natAbs = if m + n = 0 then 0 else nearest (m + n).natAbs := by
    rw [add, ofInt, Int.natAbs_mul, Int.natAbs_natCast]
    split_ifs with hzero
    · rw [hzero, Int.sign_zero, Int.natAbs_zero, zero_mul]
    · rw [Int.natAbs_sign_of_ne_zero hzero, one_mul]
  rw [habs]
  split_ifs
  · exact .of_lt (Nat.two_pow_pos _)
  · exact held_nearest _

/-- To add a number that is not negative does not make a double smaller. -/
theorem le_add {m n : ℤ} (hm : 0 ≤ m) (hheld : Held m.natAbs) (hn : 0 ≤ n) : m ≤ add m n := by
  obtain ⟨k, rfl⟩ := Int.eq_ofNat_of_zero_le hm
  obtain ⟨l, rfl⟩ := Int.eq_ofNat_of_zero_le hn
  by_cases hzero : k + l = 0
  · obtain ⟨rfl, rfl⟩ := Nat.add_eq_zero_iff.mp hzero
    exact le_refl _
  · have hadd : add k l = nearest (k + l) := by
      rw [add, ofInt, ← Nat.cast_add, Int.natAbs_natCast,
        Int.sign_natCast_of_ne_zero hzero, one_mul]
    rw [hadd]
    exact Int.ofNat_le.mpr (Held.le_nearest hheld (Nat.le_add_right k l))

/-- The last summand is added last. -/
theorem sum_append (xs : List ℤ) (x : ℤ) : sum (xs ++ [x]) = add (sum xs) x := by
  rw [sum, List.foldl_append]
  rfl

/-- What comes first of a safe running sum is safe. -/
theorem SumsSafe.of_append {xs ys : List ℤ} (h : SumsSafe (xs ++ ys)) : SumsSafe xs := by
  intro k
  have hpart := h (min k xs.length)
  rwa [List.take_append_of_le_length (min_le_right _ _), ← List.take_eq_take_min] at hpart

/-- A safe running sum has a safe sum. -/
theorem SumsSafe.isSafe_sum {xs : List ℤ} (h : SumsSafe xs) : isSafe xs.sum.natAbs := by
  have hall := h xs.length
  rwa [List.take_length] at hall

/-- A safe running sum is the sum. -/
theorem sum_eq {xs : List ℤ} (h : SumsSafe xs) : sum xs = xs.sum := by
  induction xs using List.reverseRecOn with
  | nil => rfl
  | append_singleton xs x ih =>
    have hlast := h.isSafe_sum
    rw [List.sum_append, List.sum_singleton] at hlast ⊢
    rw [sum_append, ih h.of_append, add_eq hlast]

/-- The running sum of numbers that are not negative is safe where their sum is. -/
theorem SumsSafe.of_nonneg {xs : List ℤ} (hnonneg : ∀ x ∈ xs, 0 ≤ x) (h : xs.sum ≤ maxSafe) :
    SumsSafe xs := by
  intro k
  have hfront : 0 ≤ (xs.take k).sum :=
    List.sum_nonneg fun x hx => hnonneg x (List.mem_of_mem_take hx)
  have hback : 0 ≤ (xs.drop k).sum :=
    List.sum_nonneg fun x hx => hnonneg x (List.mem_of_mem_drop hx)
  have hsplit : (xs.take k).sum + (xs.drop k).sum = xs.sum := by
    rw [← List.sum_append, List.take_append_drop]
  refine decide_eq_true ?_
  omega

end Double

end MatchingVenue
