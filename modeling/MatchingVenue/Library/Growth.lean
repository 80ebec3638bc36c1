import Mathlib.Data.List.Forall2
import Mathlib.Data.List.Infix
import Mathlib.Logic.Relation

/-!
# Lists that grow at the front

A list to which entries are added at the front, while those that are there may change in a given way
but stay in their places. `Grows.foldl` is the rule for a run: what each step does to the list, the
run does.
-/

namespace MatchingVenue

universe u v w

/-- Lists that are related to one list are related to each other through its entries. -/
theorem forall₂_through {α : Type u} {β : Type v} {γ : Type w} {R : α → β → Prop} {S : β → γ → Prop}
    {xs : List α} {ys : List β} {zs : List γ} (hR : List.Forall₂ R xs ys)
    (hS : List.Forall₂ S ys zs) :
    List.Forall₂ (Relation.Comp R S) xs zs := by
  induction hR generalizing zs with
  | nil =>
    rw [List.forall₂_nil_left_iff.mp hS]
    exact .nil
  | @cons x y xs ys hxy _ ih =>
    obtain ⟨z, rest, hyz, hrest, rfl⟩ := List.forall₂_cons_left_iff.mp hS
    exact .cons ⟨y, hxy, hyz⟩ (ih hrest)

/-- Related entries are entries of the lists. -/
theorem forall₂_mem {α : Type u} {β : Type v} {R : α → β → Prop} {xs : List α} {ys : List β}
    (h : List.Forall₂ R xs ys) : List.Forall₂ (fun x y => x ∈ xs ∧ y ∈ ys ∧ R x y) xs ys := by
  induction h with
  | nil => exact .nil
  | cons hxy _ ih =>
    refine .cons ⟨List.mem_cons_self, List.mem_cons_self, hxy⟩ (ih.imp ?_)
    rintro x y ⟨hx, hy, hR⟩
    exact ⟨List.mem_cons_of_mem _ hx, List.mem_cons_of_mem _ hy, hR⟩

variable {α : Type u} {R : α → α → Prop} {old mid new : List α}

/-- The later list ends with the entries of the earlier one, each as it may have become. -/
def Grows (R : α → α → Prop) (old new : List α) : Prop :=
  ∃ added kept, new = added ++ kept ∧ List.Forall₂ R old kept

namespace Grows

/-- A list whose entries change, each as it may. -/
theorem of_map {f : α → α} (h : ∀ x ∈ old, R x (f x)) : Grows R old (old.map f) :=
  ⟨[], old.map f, rfl, List.forall₂_map_right_iff.mpr (List.forall₂_same.mpr h)⟩

/-- A list grows into itself. -/
theorem refl [Std.Refl R] (old : List α) : Grows R old old := ⟨[], old, rfl, List.forall₂_refl old⟩

/-- A list with one more entry. -/
theorem cons [Std.Refl R] (x : α) (old : List α) : Grows R old (x :: old) :=
  ⟨[x], old, rfl, List.forall₂_refl old⟩

/-- A list that is related to one which is related to a third is related to the third. -/
theorem forall₂_trans [IsTrans α R] (h : List.Forall₂ R old mid) (h' : List.Forall₂ R mid new) :
    List.Forall₂ R old new := by
  induction h generalizing new with
  | nil => exact h'
  | cons hxy _ ih =>
    obtain ⟨z, rest, hyz, hrest, rfl⟩ := List.forall₂_cons_left_iff.mp h'
    exact .cons (Trans.trans hxy hyz) (ih hrest)

/-- What grew twice has grown. -/
theorem trans [IsTrans α R] (h : Grows R old mid) (h' : Grows R mid new) : Grows R old new := by
  obtain ⟨added, kept, rfl, hkept⟩ := h
  obtain ⟨added', kept', rfl, hkept'⟩ := h'
  -- What became of the entries that had been added is in front of what became of those that were
  -- kept.
  have hbehind : List.Forall₂ R kept (kept'.drop added.length) := by
    have hdrop := List.forall₂_drop added.length hkept'
    rwa [List.drop_left] at hdrop
  refine ⟨added' ++ kept'.take added.length, kept'.drop added.length, ?_,
    forall₂_trans hkept hbehind⟩
  rw [List.append_assoc, List.take_append_drop]

/-- What the entries keep is kept in its places. -/
theorem suffix_map {κ : Type v} {key : α → κ} (h : Grows R old new)
    (hkey : ∀ x y, R x y → key y = key x) :
    old.map key <:+ new.map key := by
  obtain ⟨added, kept, rfl, hkept⟩ := h
  have hmap : kept.map key = old.map key := by
    have hsame : List.Forall₂ Eq (kept.map key) (old.map key) :=
      List.forall₂_map_left_iff.mpr (List.forall₂_map_right_iff.mpr (hkept.imp hkey).flip)
    rwa [List.forall₂_eq_eq_eq] at hsame
  rw [List.map_append, hmap]
  exact List.suffix_append _ _

/-- The rule for a run: under an invariant of the steps, where the list grows with each step it
grows with a run. -/
theorem foldl [Std.Refl R] [IsTrans α R] {σ : Type v} {ι : Type w} {step : σ → ι → σ}
    {entries : σ → List α} {I : σ → Prop} (hI : ∀ s i, I s → I (step s i))
    (hstep : ∀ s i, I s → Grows R (entries s) (entries (step s i))) {s : σ} (hs : I s)
    (inputs : List ι) :
    Grows R (entries s) (entries (inputs.foldl step s)) := by
  induction inputs generalizing s with
  | nil => exact refl _
  | cons i inputs ih => exact (hstep s i hs).trans (ih (hI s i hs))

end Grows

end MatchingVenue
