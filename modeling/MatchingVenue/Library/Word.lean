import Mathlib.Algebra.Ring.Int.Defs
import Mathlib.Algebra.Ring.Nat
import Mathlib.Tactic.Common

/-!
# Fixed-width two's complement integers

The `int` and `long` of the source are 32 and 64 bit two's complement integers. A value of either is
an integer here, and the operations that can leave the range wrap explicitly: `toLong` and `toInt`
are the balanced residues modulo `2^64` and `2^32`.
-/

namespace MatchingVenue

/-- The largest `long`. -/
def longMax : ℤ := 2^63 - 1

/-- The largest `int`. -/
def intMax : ℤ := 2^31 - 1

/-- A `long`. -/
abbrev Long := { x : ℤ // -2^63 ≤ x ∧ x ≤ longMax }

/-- An integer as a 64 bit `long`, keeping its low 64 bits. -/
def toLong (x : ℤ) : ℤ := x.bmod (2^64)

/-- An integer as a 32 bit `int`, keeping its low 32 bits: the narrowing cast `(int)`. -/
def toInt (x : ℤ) : ℤ := x.bmod (2^32)

/-- A value in the range of `long` is unchanged. -/
theorem toLong_of_le {x : ℤ} (h0 : 0 ≤ x) (h : x ≤ longMax) : toLong x = x := by
  unfold longMax at h
  exact Int.bmod_eq_of_le (by omega) (by omega)

/-- So is a negative one. -/
theorem toLong_of_fits {x : ℤ} (h0 : -2^63 ≤ x) (h : x ≤ longMax) : toLong x = x := by
  unfold longMax at h
  exact Int.bmod_eq_of_le (by omega) (by omega)

/-- A value in the range of `int` is unchanged. -/
theorem toInt_of_le {x : ℤ} (h0 : 0 ≤ x) (h : x ≤ intMax) : toInt x = x := by
  unfold intMax at h
  exact Int.bmod_eq_of_le (by omega) (by omega)

/-- The range of `int`. -/
def FitsInt (x : ℤ) : Prop := -2^31 ≤ x ∧ x < 2^31

/-- Whether a number fits an int can be decided. -/
instance : DecidablePred FitsInt := fun _ => by
  unfold FitsInt
  infer_instance

/-- Exactly the values in the range of `int` are unchanged. -/
theorem toInt_eq_iff {x : ℤ} : toInt x = x ↔ FitsInt x := by
  unfold toInt FitsInt
  constructor
  · intro h
    have hle : -((2^32 : ℕ) : ℤ) / 2 ≤ x.bmod (2^32) := by
      have := Int.le_bmod (x := x) (m := 2^32) (by decide)
      omega
    have hlt : x.bmod (2^32) < ((2^32 : ℕ) + 1 : ℤ) / 2 := Int.bmod_lt (by decide)
    omega
  · rintro ⟨hle, hlt⟩
    exact Int.bmod_eq_of_le (by omega) (by omega)

/-- Wrapping each sum of a running total as an `int` wraps the total. -/
theorem toInt_add (x y : ℤ) : toInt (toInt x + y) = toInt (x + y) := Int.bmod_add_bmod

/-- An `int` has the low byte of the integer it keeps. -/
theorem toInt_emod (x : ℤ) : toInt x % 256 = x % 256 := by
  have hmod : (x.bmod (2^32)) % 2^32 = x % 2^32 := by
    exact_mod_cast Int.bmod_emod
  unfold toInt
  omega

/-- A wrapped value is at most the largest `long`. -/
theorem toLong_le (x : ℤ) : toLong x ≤ longMax := by
  have h : x.bmod (2^64) < ((2^64 : ℕ) + 1 : ℤ) / 2 := Int.bmod_lt (by decide)
  unfold toLong longMax
  omega

/-- A wrapped value is at least the smallest `long`. -/
theorem le_toLong (x : ℤ) : -2^63 ≤ toLong x := by
  have h : -((2^64 : ℕ) : ℤ) / 2 ≤ x.bmod (2^64) := by
    have := Int.le_bmod (x := x) (m := 2^64) (by decide)
    omega
  unfold toLong
  omega

/-- A `long` differs from the integer it keeps by a multiple of `2^64`. -/
theorem toLong_eq_sub (x : ℤ) : ∃ k : ℤ, toLong x = x - 2^64 * k := by
  have hmod : (x.bmod (2^64)) % 2^64 = x % 2^64 := by
    exact_mod_cast Int.bmod_emod
  exact ⟨(x - x.bmod (2^64)) / 2^64, by unfold toLong; omega⟩

/-- Wrapping makes no integer greater that is at least the smallest `long`. -/
theorem toLong_le_self {x : ℤ} (h : -2^63 ≤ x) : toLong x ≤ x := by
  obtain ⟨k, hk⟩ := toLong_eq_sub x
  have hmax := toLong_le x
  unfold longMax at hmax
  omega

/-- Wrapping each sum of a running total wraps the total. -/
theorem foldl_toLong {α : Type*} (f : α → ℕ) (items : List α) (total : ℤ) :
    items.foldl (fun total x => toLong (total + f x)) (toLong total) =
      toLong (total + ((items.map f).sum : ℕ)) := by
  induction items generalizing total with
  | nil => simp
  | cons x items ih =>
    have hnext : toLong (toLong total + f x) = toLong (total + f x) := by
      unfold toLong
      exact Int.bmod_add_bmod
    rw [List.foldl_cons, hnext, ih, List.map_cons, List.sum_cons, Nat.cast_add, Int.add_assoc]

end MatchingVenue
