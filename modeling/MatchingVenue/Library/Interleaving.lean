import Mathlib.Data.List.Basic

/-!
# Interleavings

An interleaving of two sequences keeps the order of each. What a run over it comes to does not
depend on the interleaving where the steps of one sequence commute with those of the other.
`Interleaves.foldl_eq` says so for what is seen of the state through a view, so that the rest of the
state may differ.
-/

namespace MatchingVenue

universe u v w

/-- The third list is a merge of the first two that keeps the order of each. -/
inductive Interleaves {α : Type u} : List α → List α → List α → Prop where
  | nil : Interleaves [] [] []
  | left {a : α} {xs ys zs : List α} : Interleaves xs ys zs → Interleaves (a :: xs) ys (a :: zs)
  | right {b : α} {xs ys zs : List α} : Interleaves xs ys zs → Interleaves xs (b :: ys) (b :: zs)

namespace Interleaves

variable {α : Type u} {σ : Type v} {τ : Type w} {xs ys zs : List α}

/-- An interleaving has the elements of both lists. -/
theorem mem_iff (h : Interleaves xs ys zs) {c : α} : c ∈ zs ↔ c ∈ xs ∨ c ∈ ys := by
  induction h with
  | nil => simp
  | left _ ih => simp only [List.mem_cons, ih, or_assoc]
  | right _ ih => simp only [List.mem_cons, ih, or_left_comm]

/-! ## Folds -/

variable {f : σ → α → σ} {view : σ → τ}

/-- A view of the state that steps respect is the same after the same run. -/
theorem foldl_congr (hview : ∀ s t a, view s = view t → view (f s a) = view (f t a))
    (zs : List α) {s t : σ} (h : view s = view t) : view (zs.foldl f s) = view (zs.foldl f t) := by
  induction zs generalizing s t with
  | nil => exact h
  | cons c zs ih => exact ih (hview s t c h)

/-- A step that commutes with those of a run may come after it. -/
theorem foldl_cons_comm (hview : ∀ s t a, view s = view t → view (f s a) = view (f t a)) {b : α}
    (hcomm : ∀ a ∈ xs, ∀ s, view (f (f s a) b) = view (f (f s b) a)) (s : σ) :
    view (xs.foldl f (f s b)) = view (f (xs.foldl f s) b) := by
  induction xs generalizing s with
  | nil => rfl
  | cons a xs ih =>
    have hhead : view (f (f s b) a) = view (f (f s a) b) := (hcomm a List.mem_cons_self s).symm
    calc view (xs.foldl f (f (f s b) a)) = view (xs.foldl f (f (f s a) b)) :=
      foldl_congr hview xs hhead
      _ = view (f (xs.foldl f (f s a)) b) := ih (fun a ha => hcomm a (List.mem_cons_of_mem _ ha)) _

/-- Where the steps of two sequences commute, every interleaving comes to what the first sequence
and then the second come to. -/
theorem foldl_eq (h : Interleaves xs ys zs)
    (hview : ∀ s t a, view s = view t → view (f s a) = view (f t a))
    (hcomm : ∀ a ∈ xs, ∀ b ∈ ys, ∀ s, view (f (f s a) b) = view (f (f s b) a)) (s : σ) :
    view (zs.foldl f s) = view (ys.foldl f (xs.foldl f s)) := by
  induction h generalizing s with
  | nil => rfl
  | left _ ih => exact ih (fun a ha => hcomm a (List.mem_cons_of_mem _ ha)) _
  | @right b xs ys zs _ ih =>
    have hrest := ih (fun a ha c hc => hcomm a ha c (List.mem_cons_of_mem _ hc)) (f s b)
    -- The step moves back over the first sequence.
    have hmove : view (xs.foldl f (f s b)) = view (f (xs.foldl f s) b) :=
      foldl_cons_comm hview (fun a ha => hcomm a ha b List.mem_cons_self) s
    calc view (zs.foldl f (f s b)) = view (ys.foldl f (xs.foldl f (f s b))) := hrest
      _ = view (ys.foldl f (f (xs.foldl f s) b)) := foldl_congr hview ys hmove

end Interleaves

end MatchingVenue
