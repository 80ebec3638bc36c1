import Mathlib.Algebra.BigOperators.Group.List.Basic
import Mathlib.Algebra.Ring.Int.Defs
import Mathlib.Data.List.Nodup

/-!
# Sums over the entries of a list

A sum over the entries whose key is one of some distinct keys is a sum for each key (`sum_by_key`).
-/

namespace MatchingVenue

universe u v

variable {α : Type u} {κ : Type v}

/-- A sum over the entries with one of some distinct keys, one key at a time. -/
theorem sum_by_key [DecidableEq κ] (key : α → κ) (f : α → ℤ) (entries : List α) {keys : List κ}
    (hkeys : keys.Nodup) :
    (keys.map fun k => ((entries.filter fun x => key x = k).map f).sum).sum =
      ((entries.filter fun x => key x ∈ keys).map f).sum := by
  induction keys with
  | nil => simp
  | cons k keys ih =>
    obtain ⟨hk, hkeys⟩ := List.nodup_cons.mp hkeys
    rw [List.map_cons, List.sum_cons, ih hkeys]
    clear ih
    simp only [List.mem_cons]
    induction entries with
    | nil => rfl
    | cons x entries ih =>
      by_cases hx : key x = k
      · have hnot : key x ∉ keys := hx ▸ hk
        simp [hx, hk] at ih ⊢
        omega
      · by_cases hmem : key x ∈ keys <;> simp [hx, hmem] at ih ⊢ <;> omega

/-- A sum that counts some entries as zero is one over the others. -/
theorem sum_map_unless (p : α → Prop) [DecidablePred p] (f : α → ℤ) (entries : List α) :
    (entries.map fun x => if p x then 0 else f x).sum =
      ((entries.filter fun x => ¬ p x).map f).sum := by
  induction entries with
  | nil => rfl
  | cons x entries ih => by_cases hx : p x <;> simp [hx, ih]

end MatchingVenue
