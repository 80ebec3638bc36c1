import Mathlib.Tactic.Common

/-!
# Computations that may throw

How a computation in `Except` that returned a value got there, and the two rules for a fold of a
step that may throw over a list of inputs: `foldlM_inv`, for a fold that returned, and
`foldlM_total`, for a step that an invariant keeps from throwing.
-/

namespace MatchingVenue

universe u v

variable {ε : Type v} {α β : Type u}

/-- A guarded throw returns a value exactly when the guard is down and the rest returns it. -/
theorem ite_error_eq_ok {c : Prop} [Decidable c] {e : ε} {x : Except ε α} {a : α} :
    (if c then .error e else x) = .ok a ↔ ¬ c ∧ x = .ok a := by
  split_ifs with hc <;> simp [hc]

/-- A branch that does not return a value is not the one that returned it. -/
theorem ite_eq_ok_of_ne {c : Prop} [Decidable c] {x y : Except ε α} {a : α} (hy : y ≠ .ok a) :
    (if c then y else x) = .ok a ↔ ¬ c ∧ x = .ok a := by
  split_ifs with hc <;> simp [hc, hy]

/-- A sequence whose first part returns a value goes on from it. -/
theorem ok_bind (a : α) (f : α → Except ε β) : ((.ok a : Except ε α) >>= f) = f a := rfl

/-- A sequence whose first part throws stops there. -/
theorem error_bind (e : ε) (f : α → Except ε β) : ((.error e : Except ε α) >>= f) = .error e := rfl

/-- A sequence returns a value exactly when its first part returns one from which the rest returns
it. -/
theorem bind_eq_ok {x : Except ε α} {f : α → Except ε β} {b : β} :
    (x >>= f) = .ok b ↔ ∃ a, x = .ok a ∧ f a = .ok b := by
  cases x with
  | error e => simp [Bind.bind, Except.bind]
  | ok a => simp [Bind.bind, Except.bind]

/-- A sequence that returns no such value where its first part finds nothing has found something. -/
theorem exists_of_bind_option {x : Except ε (Option α)} {f : Option α → Except ε β} {b : β}
    (h : (x >>= f) = .ok b) (hnone : f none ≠ .ok b) :
    ∃ a, x = .ok (some a) ∧ f (some a) = .ok b := by
  obtain ⟨found, hx, hf⟩ := bind_eq_ok.mp h
  cases found with
  | none => exact absurd hf hnone
  | some a => exact ⟨a, hx, hf⟩

/-- A mapped computation returns a value exactly when it returns one that maps to it. -/
theorem map_eq_ok {x : Except ε α} {f : α → β} {b : β} :
    x.map f = .ok b ↔ ∃ a, x = .ok a ∧ f a = b := by
  cases x with
  | error e => simp [Except.map]
  | ok a => simp [Except.map]

/-- A guard that is met goes on. -/
theorem guard_bind_pos {c : Prop} [Decidable c] (h : c) (x : Option α) :
    ((guard c : Option Unit).bind fun _ => x) = x := by
  simp [guard, h]

/-- A guard that is not met gives nothing. -/
theorem guard_bind_neg {c : Prop} [Decidable c] (h : ¬ c) (x : Option α) :
    ((guard c : Option Unit).bind fun _ => x) = none := by
  simp [guard, h, failure]

section Fold

variable {γ : Type u} {f : α → γ → Except ε α} {inputs : List γ} {a b : α}

/-- A fold over two lists in turn stops between them. -/
theorem foldlM_append_eq_ok {inputs' : List γ} :
    (inputs ++ inputs').foldlM f a = .ok b ↔
      ∃ c, inputs.foldlM f a = .ok c ∧ inputs'.foldlM f c = .ok b := by
  rw [List.foldlM_append]
  exact bind_eq_ok

/-- What every step preserves holds where a fold that returned ends. -/
theorem foldlM_inv (I : α → Prop) (h : inputs.foldlM f a = .ok b) (ha : I a)
    (hstep : ∀ x input y, I x → f x input = .ok y → I y) : I b := by
  induction inputs generalizing a with
  | nil =>
    rw [List.foldlM_nil] at h
    exact Except.ok.inj h ▸ ha
  | cons input inputs ih =>
    rw [List.foldlM_cons] at h
    obtain ⟨c, hc, hrest⟩ := bind_eq_ok.mp h
    exact ih hrest (hstep _ _ _ ha hc)

/-- Under an invariant that every step keeps and that keeps every step from throwing, a fold
returns. -/
theorem foldlM_total (I : α → Prop) (ha : I a)
    (hstep : ∀ x input, I x → ∃ y, f x input = .ok y ∧ I y) :
    ∃ b, inputs.foldlM f a = .ok b := by
  induction inputs generalizing a with
  | nil => exact ⟨a, rfl⟩
  | cons input inputs ih =>
    obtain ⟨c, hc, hI⟩ := hstep a input ha
    obtain ⟨b, hb⟩ := ih hI
    refine ⟨b, ?_⟩
    rw [List.foldlM_cons]
    exact bind_eq_ok.mpr ⟨c, hc, hb⟩

end Fold

end MatchingVenue
