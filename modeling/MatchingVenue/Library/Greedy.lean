import Mathlib.Algebra.Ring.Nat
import Mathlib.Data.Nat.Notation
import Mathlib.Tactic.Common

/-!
# Taking from a line of lots

A line is a list of lots, each of some size, and a need is met from the front of it: the first lot
is taken as far as it goes, then the next one, until the need is met or the line is at its end.
`taken` says how much of which lot goes, and `left` what is left of the line.

A walk that takes the first lot in several bites, and puts back what it leaves of it, comes to the
same in the end (`left_bite`), and so does a need that is met in two parts (`left_add`).
-/

namespace MatchingVenue

universe u

/-- Lots of sizes, of which some may be cut off. -/
structure Lots (α : Type u) where
  size : α → ℕ
  cut : α → ℕ → α
  size_cut : ∀ a m, size (cut a m) = size a - m
  cut_cut : ∀ a m k, cut (cut a m) k = cut a (m + k)

namespace Lots

variable {α : Type u} (L : Lots α)

/-- How much of which lots meets a need. -/
def taken : ℕ → List α → List (α × ℕ)
  | _, [] => []
  | need, a :: line =>
    if need = 0 then [] else (a, min need (L.size a)) :: taken (need - L.size a) line

/-- What a need leaves of a line. -/
def left : ℕ → List α → List α
  | _, [] => []
  | need, a :: line =>
    if need = 0 then a :: line
    else if need < L.size a then L.cut a need :: line else left (need - L.size a) line

/-- The size of a line. -/
def total (line : List α) : ℕ := (line.map L.size).sum

/-- What is left of a lot, where there is something left of it. -/
def rest (a : α) : List α := if L.size a = 0 then [] else [a]

variable {L}

/-- Nothing is taken for no need. -/
theorem taken_zero (line : List α) : L.taken 0 line = [] := by
  cases line <;> rfl

/-- No need leaves the line as it is. -/
theorem left_zero (line : List α) : L.left 0 line = line := by
  cases line <;> rfl

/-- The first of the line gives what it has, up to the need, and the others what is needed then. -/
theorem taken_cons {need : ℕ} (h : need ≠ 0) (a : α) (line : List α) :
    L.taken need (a :: line) = (a, min need (L.size a)) :: L.taken (need - L.size a) line :=
  if_neg h

/-- A lot that the need exhausts goes. -/
theorem left_cons_of_le {need : ℕ} {a : α} (h : L.size a ≤ need) (hpos : 0 < L.size a)
    (line : List α) :
    L.left need (a :: line) = L.left (need - L.size a) line := by
  rw [left, if_neg (by omega), if_neg (Nat.not_lt.mpr h)]

/-- A lot that is more than the need is cut. -/
theorem left_cons_of_lt {need : ℕ} {a : α} (h : need < L.size a) (hpos : 0 < need) (line : List α) :
    L.left need (a :: line) = L.cut a need :: line := by
  rw [left, if_neg (Nat.pos_iff_ne_zero.mp hpos), if_pos h]

/-- The total of a line begins with the size of its first. -/
theorem total_cons (a : α) (line : List α) : L.total (a :: line) = L.size a + L.total line :=
  List.sum_cons

/-- A need met in two parts, one after the other. -/
theorem left_add {line : List α} (hpos : ∀ a ∈ line, 0 < L.size a) (n m : ℕ) :
    L.left (n + m) line = L.left m (L.left n line) := by
  induction line generalizing n with
  | nil => rfl
  | cons a line ih =>
    obtain ⟨ha, hline⟩ := List.forall_mem_cons.mp hpos
    rcases Nat.eq_zero_or_pos n with rfl | hn
    · rw [left_zero, Nat.zero_add]
    rcases Nat.eq_zero_or_pos m with rfl | hm
    · rw [left_zero, Nat.add_zero]
    rcases Nat.lt_or_ge n (L.size a) with hlt | hge
    · -- The first part ends within the first lot, of which the second part takes some more or all.
      have hcut := L.size_cut a n
      rw [left_cons_of_lt hlt hn]
      rcases Nat.lt_or_ge (n + m) (L.size a) with hlt' | hge'
      · rw [left_cons_of_lt hlt' (by omega), left_cons_of_lt (by omega) hm, L.cut_cut]
      · rw [left_cons_of_le hge' ha, left_cons_of_le (by omega) (by omega), hcut]
        congr 1
        omega
    · rw [left_cons_of_le hge ha, left_cons_of_le (by omega) ha, ← ih hline]
      congr 1
      omega

/-- What a need within the first lot leaves. -/
theorem left_of_le_head {m : ℕ} {a : α} (h : m ≤ L.size a) (hpos : 0 < m) (line : List α) :
    L.left m (a :: line) = L.rest (L.cut a m) ++ line := by
  unfold rest
  rw [L.size_cut]
  rcases Nat.lt_or_ge m (L.size a) with hlt | hge
  · rw [left_cons_of_lt hlt hpos, if_neg (by omega)]
    rfl
  · have hm : m = L.size a := by omega
    rw [left_cons_of_le hge (by omega), if_pos (by omega), hm, Nat.sub_self, left_zero]
    rfl

/-- A bite off the first lot, with what is left of the lot back in its place, leaves the same in the
end. -/
theorem left_bite {need m : ℕ} {a : α} (hneed : m ≤ need) (hsize : m ≤ L.size a) (hpos : 0 < m)
    (line : List α) :
    L.left (need - m) (L.rest (L.cut a m) ++ line) = L.left need (a :: line) := by
  unfold rest
  rw [L.size_cut]
  by_cases hall : L.size a - m = 0
  · have hm : m = L.size a := by omega
    rw [if_pos hall, List.nil_append, hm, left_cons_of_le (by omega) (by omega)]
  rw [if_neg hall, List.cons_append, List.nil_append]
  rcases Nat.lt_trichotomy need (L.size a) with hlt | heq | hgt
  · rw [left_cons_of_lt hlt (by omega)]
    by_cases hmet : need - m = 0
    · have hm : m = need := by omega
      rw [hmet, left_zero, hm]
    · have hcut : need - m < L.size (L.cut a m) := by
        rw [L.size_cut]
        omega
      rw [left_cons_of_lt hcut (by omega), L.cut_cut, Nat.add_sub_cancel' hneed]
  all_goals
    have hcut : L.size (L.cut a m) ≤ need - m := by
      rw [L.size_cut]
      omega
    have hpos' : 0 < L.size (L.cut a m) := by
      rw [L.size_cut]
      omega
    rw [left_cons_of_le hcut hpos', left_cons_of_le (by omega) (by omega), L.size_cut]
    congr 1
    omega

/-- The first lot is taken as far as it goes, and the rest of the need from the rest of the line. -/
theorem taken_bite {need m : ℕ} {a : α} (hm : m = min need (L.size a)) (hpos : 0 < m)
    (line : List α) :
    L.taken need (a :: line) = (a, m) :: L.taken (need - m) (L.rest (L.cut a m) ++ line) := by
  rw [taken_cons (by omega), ← hm]
  unfold rest
  rw [L.size_cut]
  rcases Nat.le_total (L.size a) need with hle | hge
  · have hall : m = L.size a := by omega
    rw [if_pos (by omega), hall, List.nil_append]
  · have hmet : need - m = 0 := by omega
    have hnone : need - L.size a = 0 := by omega
    rw [hmet, hnone, taken_zero, taken_zero]

end Lots

end MatchingVenue
