import Mathlib.Data.List.Basic

/-!
# Framing a stream that arrives in chunks

A framer looks at the items at hand and either waits for more or takes some of them off the front,
with a frame or without. What it has once decided must not change with the items behind: that is
`stable`, and it is all that is needed for the frames of a stream not to depend on how the stream is
cut. `frames_append` says so for one cut, and `Splits.frames_eq` for a reader that is given the
chunks one after the other and may leave some of what it could take for later.
-/

namespace MatchingVenue

universe u v

/-- A way to take frames off the front of a stream. A step says how many items it takes, and the
frame that they are, if any; it says nothing where it waits for more. -/
structure Framer (α : Type u) (φ : Type v) where
  step : List α → Option (ℕ × Option φ)
  /-- A step takes something, and no more than there is. -/
  takes : ∀ {w k frame}, step w = some (k, frame) → 0 < k ∧ k ≤ w.length
  /-- A decision stands when more items arrive. -/
  stable : ∀ {w r}, step w = some r → ∀ x, step (w ++ x) = some r

namespace Framer

variable {α : Type u} {φ : Type v} (F : Framer α φ)

/-- Takes steps as long as there are any: the frames, and the items that are left. -/
def run (w : List α) : List φ × List α :=
  match _h : F.step w with
  | none => ([], w)
  | some (k, frame) =>
    let r := run (w.drop k)
    (frame.toList ++ r.1, r.2)
termination_by w.length
decreasing_by
  obtain ⟨hpos, hle⟩ := F.takes _h
  rw [List.length_drop]
  omega

/-- The frames of a stream. -/
def frames (w : List α) : List φ := (F.run w).1

/-- What a stream leaves. -/
def rest (w : List α) : List α := (F.run w).2

variable {F} {w x : List α} {k : ℕ} {frame : Option φ}

/-- A window without a step is all rest. -/
theorem run_of_none (h : F.step w = none) : F.run w = ([], w) := by
  rw [run]
  split
  · rfl
  · rename_i heq
    rw [h] at heq
    cases heq

/-- A step is followed by the run of what it leaves. -/
theorem run_of_some (h : F.step w = some (k, frame)) :
    F.run w = (frame.toList ++ F.frames (w.drop k), F.rest (w.drop k)) := by
  rw [run]
  split
  · rename_i heq
    rw [h] at heq
    cases heq
  · rename_i heq
    rw [h] at heq
    cases heq
    rfl

/-- A window without a step has no frames. -/
theorem frames_of_none (h : F.step w = none) : F.frames w = [] := by
  rw [frames, run_of_none h]

/-- A window without a step is left as it is. -/
theorem rest_of_none (h : F.step w = none) : F.rest w = w := by
  rw [rest, run_of_none h]

/-- The frame of a step comes before the frames of what it leaves. -/
theorem frames_of_some (h : F.step w = some (k, frame)) :
    F.frames w = frame.toList ++ F.frames (w.drop k) := by
  rw [frames, run_of_some h]

/-- What a step leaves has the rest of the window. -/
theorem rest_of_some (h : F.step w = some (k, frame)) : F.rest w = F.rest (w.drop k) := by
  rw [rest, run_of_some h]

/-- An induction along the steps that are taken of a stream. -/
theorem run_induction {P : List α → Prop} (hwait : ∀ w, F.step w = none → P w)
    (htake : ∀ w k frame, F.step w = some (k, frame) → P (w.drop k) → P w) (w : List α) : P w := by
  induction h : w.length using Nat.strongRecOn generalizing w with
  | ind n ih =>
    cases hstep : F.step w with
    | none => exact hwait w hstep
    | some r =>
      obtain ⟨k, frame⟩ := r
      have hlt : (w.drop k).length < n := by
        obtain ⟨hpos, hle⟩ := F.takes hstep
        rw [List.length_drop]
        omega
      exact htake w k frame hstep (ih _ hlt _ rfl)

/-- What is left is a suffix of the stream. -/
theorem rest_suffix (w : List α) : F.rest w <:+ w := by
  induction w using run_induction (F := F) with
  | hwait w h =>
    have hrest : F.rest w = w := rest_of_none h
    exact hrest.symm ▸ List.suffix_refl w
  | htake w k frame h ih =>
    rw [rest_of_some h]
    exact ih.trans (List.drop_suffix k w)

/-- No step is left to take of what is left. -/
theorem step_rest (w : List α) : F.step (F.rest w) = none := by
  induction w using run_induction (F := F) with
  | hwait w h =>
    rw [rest_of_none h]
    exact h
  | htake w k frame h ih =>
    rw [rest_of_some h]
    exact ih

/-- A stream may be cut: its frames are those of the first part, and then those of what this leaves
and the second part. -/
theorem frames_append (w x : List α) :
    F.frames (w ++ x) = F.frames w ++ F.frames (F.rest w ++ x) := by
  induction w using run_induction (F := F) with
  | hwait w h => rw [frames_of_none h, rest_of_none h, List.nil_append]
  | htake w k frame h ih =>
    obtain ⟨-, hle⟩ := F.takes h
    rw [frames_of_some (F.stable h x), frames_of_some h, rest_of_some h,
      List.drop_append_of_le_length hle, ih, List.append_assoc]

/-! ## Readers of chunks -/

variable (F)

/-- A reader has split a stream into the frames that it has emitted and what it has not read yet,
with nothing lost in between, whatever comes behind. -/
def Splits (stream : List α) (emitted : List φ) (unread : List α) : Prop :=
  ∀ x, F.frames (stream ++ x) = emitted ++ F.frames (unread ++ x)

variable {F} {stream chunk unread : List α} {emitted : List φ}

/-- The empty window splits into nothing. -/
theorem Splits.nil : F.Splits [] [] [] := fun _ => rfl

/-- A chunk that is only stored. -/
theorem Splits.store (h : F.Splits stream emitted unread) (chunk : List α) :
    F.Splits (stream ++ chunk) emitted (unread ++ chunk) := by
  intro x
  rw [List.append_assoc, h, List.append_assoc]

/-- A reader that takes what can be taken of the items it has not read. -/
theorem Splits.drain (h : F.Splits stream emitted unread) :
    F.Splits stream (emitted ++ F.frames unread) (F.rest unread) := by
  intro x
  rw [h, frames_append, List.append_assoc]

/-- Where nothing more can be taken, all the frames of the stream have been emitted. -/
theorem Splits.frames_eq (h : F.Splits stream emitted unread) (hunread : F.frames unread = []) :
    emitted = F.frames stream := by
  have hend := h []
  rw [List.append_nil, List.append_nil, hunread, List.append_nil] at hend
  exact hend.symm

end Framer

end MatchingVenue
