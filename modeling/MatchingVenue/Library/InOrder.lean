import Mathlib.Data.List.Basic

/-!
# Parts of a stream

What a reader has got of a stream when it got the items in the order of the stream: some not at all,
and some more than once.
-/

namespace MatchingVenue

universe u

variable {α : Type u}

/-- The items are items of the stream, at positions that do not decrease. -/
def InOrder (stream items : List α) : Prop :=
  ∃ positions : List ℕ, positions.Pairwise (· ≤ ·) ∧ items.map some = positions.map (stream[·]?)

namespace InOrder

variable {stream xs ys : List α}

/-- The stream itself. -/
theorem refl (stream : List α) : InOrder stream stream := by
  refine ⟨List.range stream.length, List.pairwise_lt_range.imp Nat.le_of_lt, ?_⟩
  refine List.ext_getElem (by simp) fun i hi _ => ?_
  have hlt : i < stream.length := by simpa using hi
  simp [hlt]

/-- Fewer of the items. -/
theorem sublist (h : InOrder stream ys) (hsub : xs.Sublist ys) : InOrder stream xs := by
  obtain ⟨positions, hsorted, hitems⟩ := h
  have hmap := hsub.map some
  rw [hitems] at hmap
  obtain ⟨fewer, hfewer, heq⟩ := List.sublist_map_iff.mp hmap
  exact ⟨fewer, hsorted.sublist hfewer, heq⟩

/-- A part of a stream is in its order. -/
theorem of_sublist (h : xs.Sublist stream) : InOrder stream xs := (refl stream).sublist h

/-- The first of the items once more. -/
theorem again {x : α} (h : InOrder stream (x :: xs)) : InOrder stream (x :: x :: xs) := by
  obtain ⟨positions, hsorted, hitems⟩ := h
  cases positions with
  | nil => cases hitems
  | cons p ps =>
    have hfirst := (List.pairwise_cons.mp hsorted).1
    refine ⟨p :: p :: ps,
      List.pairwise_cons.mpr ⟨List.forall_mem_cons.mpr ⟨Nat.le_refl p, hfirst⟩, hsorted⟩, ?_⟩
    rw [List.map_cons, hitems]
    exact congrArg (· :: _) (List.cons.inj hitems).1

/-- The last of the first `n` items, and then the items behind it. -/
theorem last_append_drop (stream : List α) {n k : ℕ} (h : n ≤ k) :
    InOrder stream ((stream.take n).getLast?.toList ++ stream.drop k) := by
  have hlast : (stream.take n).getLast?.toList.Sublist (stream.take n) := by
    cases hn : (stream.take n).getLast? with
    | none => exact List.nil_sublist _
    | some x => exact List.singleton_sublist.mpr (List.mem_of_getLast? hn)
  have hrest : (stream.drop k).Sublist (stream.drop n) :=
    (List.drop_suffix_drop_left stream h).sublist
  have hboth := hlast.append hrest
  rw [List.take_append_drop] at hboth
  exact of_sublist hboth

/-- The same where the items from the last one itself on follow. -/
theorem last_append_drop_pred (stream : List α) {n k : ℕ} (h : n ≤ k + 1) :
    InOrder stream ((stream.take n).getLast?.toList ++ stream.drop k) := by
  rcases Nat.lt_or_ge k n with hlt | hle
  · obtain rfl : n = k + 1 := by omega
    have hnext := last_append_drop stream (Nat.le_refl (k + 1))
    rcases Nat.lt_or_ge k stream.length with hk | hk
    · -- The item comes twice, from the start of the stream and from the rest of it.
      have hsame : (stream.take (k + 1)).getLast? = some stream[k] := by
        rw [List.take_succ_eq_append_getElem hk, List.getLast?_concat]
      rw [hsame] at hnext ⊢
      rw [List.drop_eq_getElem_cons hk]
      exact again hnext
    · rw [List.drop_eq_nil_of_le (by omega)] at hnext ⊢
      exact hnext
  · exact last_append_drop stream hle

/-- A reader that gets the second of two items first and the first one then has not got them in
order. -/
theorem not_swapped {a b : α} (hne : a ≠ b) (rest : List α) :
    ¬ InOrder [a, b] (b :: a :: rest) := by
  rintro ⟨positions, hsorted, hitems⟩
  match positions, hsorted, hitems with
  | [_], _, hitems => cases (List.cons.inj hitems).2
  | p :: q :: _, hsorted, hitems =>
    have hp : some b = [a, b][p]? := (List.cons.inj hitems).1
    have hq : some a = [a, b][q]? := (List.cons.inj (List.cons.inj hitems).2).1
    have hle : p ≤ q := (List.pairwise_cons.mp hsorted).1 q List.mem_cons_self
    -- The first item is at position zero only, and the second one is not there.
    have hzero : q = 0 := by
      by_contra hpositive
      obtain ⟨q, rfl⟩ := Nat.exists_eq_succ_of_ne_zero hpositive
      rw [List.getElem?_cons_succ] at hq
      exact hne (List.mem_singleton.mp (List.mem_of_getElem? hq.symm))
    obtain rfl : p = 0 := by omega
    exact hne (Option.some.inj hp).symm

end InOrder

end MatchingVenue
