import Mathlib.Algebra.Order.BigOperators.Group.Finset
import Mathlib.Data.Fintype.Basic
import Mathlib.Logic.Relation
import Mathlib.Order.WellFounded

/-!
# Runs that come to an end

Where every step of a relation lessens a measure with well-founded values, no run is endless
(`not_endless_of_measure`), and from any state some run comes to where there is no step
(`exists_stuck_of_measure`).

The measure of some parties is often the sum of what each of them has to do. It is lessened by a
step of one of them (`sum_lt_of_one`).
-/

namespace MatchingVenue

universe u v

section Runs

variable {σ : Type u} {α : Type v} {r : σ → σ → Prop} [Preorder α] [WellFoundedLT α]
  {measure : σ → α}

/-- There is no endless run. -/
theorem not_endless_of_measure (hstep : ∀ s t, r s t → measure t < measure s) (f : ℕ → σ) :
    ¬ ∀ i, r (f i) (f (i + 1)) := by
  intro hf
  obtain ⟨i, hi⟩ := WellFounded.not_rel_apply_succ (r := (· < ·)) fun i => measure (f i)
  exact hi (hstep _ _ (hf i))

/-- And some run has an end. -/
theorem exists_stuck_of_measure (hstep : ∀ s t, r s t → measure t < measure s) (s : σ) :
    ∃ t, Relation.ReflTransGen r s t ∧ ∀ u, ¬ r t u := by
  induction hleft : measure s using WellFoundedLT.induction generalizing s with
  | ind left ih =>
    by_cases hmore : ∃ u, r s u
    · obtain ⟨u, hu⟩ := hmore
      obtain ⟨t, hrun, hstuck⟩ := ih (measure u) (hleft ▸ hstep s u hu) u rfl
      exact ⟨t, hrun.head hu, hstuck⟩
    · exact ⟨s, .refl, fun u hu => hmore ⟨u, hu⟩⟩

end Runs

/-- One party has less to do, and the others have as much as before. -/
theorem sum_lt_of_one {κ : Type u} [Fintype κ] {work work' : κ → ℕ} {k : κ}
    (hless : work' k < work k) (hothers : ∀ j, j ≠ k → work' j = work j) :
    ∑ j, work' j < ∑ j, work j := by
  refine Finset.sum_lt_sum (fun j _ => ?_) ⟨k, Finset.mem_univ k, hless⟩
  rcases eq_or_ne j k with rfl | hne
  · exact hless.le
  · exact (hothers j hne).le

end MatchingVenue
