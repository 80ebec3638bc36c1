import Mathlib.Data.List.Nodup
import Mathlib.Order.Basic
import Mathlib.Tactic.Common

/-!
# Who stands ahead in a queue

`Ahead l a b` says that `a` stands ahead of `b` in the queue `l`. A queue changes at its front and
at its back: the head leaves, the head goes to the back, someone new arrives. Only the second
changes who of two stands ahead, so that in the end it goes by the one of them who went to the back
last (`Overtaken`, `ahead_turn_iff`).
-/

namespace MatchingVenue

universe u

variable {α : Type u} {l l' moved : List α} {a b x : α}

/-- One element of a queue stands ahead of another. -/
def Ahead (l : List α) (a b : α) : Prop := [a, b].Sublist l

/-- What is ahead is in the list. -/
theorem Ahead.mem_left (h : Ahead l a b) : a ∈ l := h.subset (by simp)

/-- What something is ahead of is in the list. -/
theorem Ahead.mem_right (h : Ahead l a b) : b ∈ l := h.subset (by simp)

/-- A map keeps who is ahead. -/
theorem Ahead.map {β : Type*} (h : Ahead l a b) (f : α → β) : Ahead (l.map f) (f a) (f b) :=
  List.Sublist.map f h

/-- No one stands ahead of himself. -/
theorem Ahead.ne (h : Ahead l a b) (hnodup : l.Nodup) : a ≠ b := by
  have hpair := hnodup.sublist h
  simpa using hpair

/-- One is ahead of another where it is the first and the other follows, or where it is so in the
rest. -/
theorem ahead_cons : Ahead (x :: l) a b ↔ a = x ∧ b ∈ l ∨ Ahead l a b := by
  unfold Ahead
  rw [List.sublist_cons_iff]
  constructor
  · rintro (h | ⟨r, hr, hsub⟩)
    · exact .inr h
    · obtain ⟨rfl, rfl⟩ := List.cons.inj hr
      exact .inl ⟨rfl, List.singleton_sublist.mp hsub⟩
  · rintro (⟨rfl, hb⟩ | h)
    · exact .inr ⟨[b], rfl, List.singleton_sublist.mpr hb⟩
    · exact .inl h

/-- One is ahead of another where it was so, or where the other is a new last element. -/
theorem ahead_concat : Ahead (l ++ [x]) a b ↔ Ahead l a b ∨ a ∈ l ∧ b = x := by
  induction l with
  | nil => simp [Ahead]
  | cons y l ih =>
    rw [List.cons_append, ahead_cons, ih, ahead_cons, List.mem_append, List.mem_singleton,
      List.mem_cons]
    tauto

/-- Someone ahead stays ahead where others leave. -/
theorem Ahead.of_sublist (h : Ahead l a b) (hnodup : l.Nodup) (hsub : l'.Sublist l) (ha : a ∈ l')
    (hb : b ∈ l') :
    Ahead l' a b := by
  induction hsub with
  | slnil => exact h
  | @cons l' l y hsub ih =>
    obtain ⟨hy, hnodup⟩ := List.nodup_cons.mp hnodup
    rcases ahead_cons.mp h with ⟨rfl, -⟩ | h
    · exact absurd (hsub.subset ha) hy
    · exact ih h hnodup ha hb
  | @cons_cons l' l y hsub ih =>
    obtain ⟨hy, hnodup⟩ := List.nodup_cons.mp hnodup
    rcases ahead_cons.mp h with ⟨rfl, hbl⟩ | h
    · have hne : b ≠ a := fun heq => hy (heq ▸ hbl)
      exact ahead_cons.mpr (.inl ⟨rfl, (List.mem_cons.mp hb).resolve_left hne⟩)
    · have hna : a ≠ y := fun heq => hy (heq ▸ h.mem_left)
      have hnb : b ≠ y := fun heq => hy (heq ▸ h.mem_right)
      exact ahead_cons.mpr (.inr (ih h hnodup ((List.mem_cons.mp ha).resolve_left hna)
        ((List.mem_cons.mp hb).resolve_left hnb)))

/-- In a list that goes up, the lesser one stands ahead. -/
theorem ahead_of_lt {β : Type*} [Preorder β] {f : α → β} (h : (l.map f).Pairwise fun x y => x < y)
    (ha : a ∈ l) (hb : b ∈ l) (hlt : f a < f b) : Ahead l a b := by
  induction l with
  | nil => exact absurd ha List.not_mem_nil
  | cons y l ih =>
    obtain ⟨hy, hl⟩ := List.pairwise_cons.mp h
    rw [ahead_cons]
    rcases List.mem_cons.mp ha with rfl | hal
    · have hne : b ≠ a := fun heq => lt_irrefl _ (heq ▸ hlt)
      exact .inl ⟨rfl, (List.mem_cons.mp hb).resolve_left hne⟩
    · have hne : b ≠ y := fun heq => lt_asymm hlt (heq ▸ hy _ (List.mem_map_of_mem hal))
      exact .inr (ih hl hal ((List.mem_cons.mp hb).resolve_left hne))

/-- A new one at the back changes nothing for those who are there. -/
theorem ahead_concat_of_notMem (hb : b ≠ x) : Ahead (l ++ [x]) a b ↔ Ahead l a b := by
  rw [ahead_concat]
  exact or_iff_left fun h => hb h.2

/-- One of those who went to the back, in the order in which they did, did so and another one did
not do so after it. -/
def FellBehind (moved : List α) (a b : α) : Prop := ∃ before after,
    moved = before ++ a :: after ∧ b ∉ after

/-- Nobody falls behind where nothing moves. -/
theorem not_fellBehind_nil : ¬ FellBehind ([] : List α) a b := by
  rintro ⟨before, after, h, -⟩
  simp at h

/-- Who fell behind was moved. -/
theorem FellBehind.mem (h : FellBehind moved a b) : a ∈ moved := by
  obtain ⟨before, after, rfl, -⟩ := h
  simp

/-- One falls behind another with a move of its own, or fell behind and the other does not move. -/
theorem fellBehind_concat (hne : a ≠ b) :
    FellBehind (moved ++ [x]) a b ↔ x = a ∨ x ≠ b ∧ FellBehind moved a b := by
  constructor
  · rintro ⟨before, after, h, hb⟩
    -- The move of `a` is the last one of all, or the last one of all is a later one.
    rcases List.eq_nil_or_concat after with rfl | ⟨after, y, rfl⟩
    · obtain ⟨-, hx⟩ := List.append_inj' h rfl
      exact .inl (List.singleton_inj.mp hx)
    · rw [List.concat_eq_append, ← List.cons_append, ← List.append_assoc] at h
      obtain ⟨hmoved, hx⟩ := List.append_inj' h rfl
      obtain rfl := List.singleton_inj.mp hx
      rw [List.concat_eq_append, List.mem_append, not_or] at hb
      exact .inr ⟨fun heq => hb.2 (by simp [heq]), before, after, hmoved, hb.1⟩
  · rintro (rfl | ⟨hx, before, after, rfl, hb⟩)
    · exact ⟨moved, [], rfl, List.not_mem_nil⟩
    · refine ⟨before, after ++ [x], by simp, ?_⟩
      rw [List.mem_append, not_or, List.mem_singleton]
      exact ⟨hb, hx.symm⟩

/-- The head goes to the back. -/
theorem ahead_turn_iff (hnodup : (x :: l).Nodup) (ha : a ∈ x :: l) (hb : b ∈ x :: l) (hne : a ≠ b)
    (h : Ahead (x :: l) a b ↔ ¬ FellBehind moved a b) :
    Ahead (l ++ [x]) a b ↔ ¬ FellBehind (moved ++ [x]) a b := by
  have hx := (List.nodup_cons.mp hnodup).1
  rw [fellBehind_concat hne, ahead_concat, not_or, not_and, ← h, ahead_cons]
  constructor
  · rintro (hahead | ⟨hal, rfl⟩)
    · exact ⟨fun heq => hx (heq ▸ hahead.mem_left), fun _ => .inr hahead⟩
    · exact ⟨fun heq => hx (heq ▸ hal), fun hxb => absurd rfl hxb⟩
  · rintro ⟨hxa, hkeep⟩
    have hal := (List.mem_cons.mp ha).resolve_left (Ne.symm hxa)
    by_cases hxb : x = b
    · exact .inr ⟨hal, hxb.symm⟩
    · exact .inl ((hkeep hxb).resolve_left fun heq => hxa heq.1.symm)

/-- The head leaves, or is passed over where neither of the two is the head. -/
theorem ahead_tail_iff (hxa : x ≠ a) : Ahead (x :: l) a b ↔ Ahead l a b := by
  rw [ahead_cons]
  exact or_iff_right fun h => hxa h.1.symm

end MatchingVenue
