import MatchingVenue.Library.Greedy
import Mathlib.Data.List.Nodup

/-!
# Two lines taken against each other

Two lines of lots meet at their heads: as much goes from either head as the smaller one has, the one
that is used up leaves its line, and so on until a line is empty. `Pairs` is such a run, with what
it took of which two lots. In the end it took the smaller of the two totals (`Pairs.total_eq`), from
the front of each line and no further (`Pairs.left_eq`).
-/

namespace MatchingVenue

universe u v

variable {α : Type u} {β : Type v} {L : Lots α} {M : Lots β}

/-- A run of two lines against each other: what it took of which heads, in order, and what it
left. -/
inductive Pairs (L : Lots α) (M : Lots β) (as : List α) (bs : List β) :
    List (α × β × ℕ) → List α → List β → Prop where
  | start : Pairs L M as bs [] as bs
  | take {taken : List (α × β × ℕ)} {a : α} {as' : List α} {b : β} {bs' : List β} {m : ℕ} :
    Pairs L M as bs taken (a :: as') (b :: bs') → m = min (L.size a) (M.size b) → 0 < m →
    Pairs L M as bs (taken ++ [(a, b, m)]) (L.rest (L.cut a m) ++ as') (M.rest (M.cut b m) ++ bs')

/-- How much a run took. -/
def takenTotal (taken : List (α × β × ℕ)) : ℕ := (taken.map fun t => t.2.2).sum

/-- A last pair adds its amount to the total. -/
theorem takenTotal_concat (taken : List (α × β × ℕ)) (a : α) (b : β) (m : ℕ) :
    takenTotal (taken ++ [(a, b, m)]) = takenTotal taken + m := by
  simp [takenTotal]

/-- What a lot and the line behind it lose by a bite. -/
theorem Lots.total_bite {m : ℕ} {a : α} (h : m ≤ L.size a) (line : List α) :
    m + L.total (L.rest (L.cut a m) ++ line) = L.total (a :: line) := by
  have hcut := L.size_cut a m
  rw [L.total_cons]
  unfold Lots.rest
  split_ifs with hnone
  · rw [List.nil_append]
    omega
  · rw [List.cons_append, List.nil_append, L.total_cons]
    omega

namespace Pairs

variable {as as' : List α} {bs bs' : List β} {taken : List (α × β × ℕ)}

/-- What was taken and what is left make the line. -/
theorem total_add (h : Pairs L M as bs taken as' bs') :
    takenTotal taken + L.total as' = L.total as ∧ takenTotal taken + M.total bs' = M.total bs := by
  induction h with
  | start => exact ⟨Nat.zero_add _, Nat.zero_add _⟩
  | @take taken a as' b bs' m _ hm _ ih =>
    have ha := Lots.total_bite (L := L) (m := m) (a := a) (by omega) as'
    have hb := Lots.total_bite (L := M) (m := m) (a := b) (by omega) bs'
    rw [takenTotal_concat]
    omega

/-- A run that has emptied a line has taken the smaller total. -/
theorem total_eq (h : Pairs L M as bs taken as' bs') (hend : as' = [] ∨ bs' = []) :
    takenTotal taken = min (L.total as) (M.total bs) := by
  obtain ⟨ha, hb⟩ := h.total_add
  rcases hend with rfl | rfl
  · have hnil : L.total [] = 0 := rfl
    omega
  · have hnil : M.total [] = 0 := rfl
    omega

/-- The two lines in the other order. -/
theorem swap (h : Pairs L M as bs taken as' bs') :
    Pairs M L bs as (taken.map fun t => (t.2.1, t.1, t.2.2)) bs' as' := by
  induction h with
  | start => exact .start
  | @take taken a as' b bs' m _ hm hpos ih =>
    rw [List.map_append]
    exact ih.take (hm.trans (Nat.min_comm _ _)) hpos

/-- A lot that was taken to its end has left its line. -/
theorem gone {γ : Type*} {key : α → γ} (hcut : ∀ a m, key (L.cut a m) = key a)
    (h : Pairs L M as bs taken as' bs') (hnodup : (as.map key).Nodup) :
    (as'.map key).Nodup ∧ ∀ t ∈ taken, L.size t.1 = t.2.2 → key t.1 ∉ as'.map key := by
  induction h with
  | start => exact ⟨hnodup, by simp⟩
  | @take taken a as' b bs' m _ hm _ ih =>
    obtain ⟨hkeys, hgone⟩ := ih
    have hsub : ((L.rest (L.cut a m) ++ as').map key).Sublist ((a :: as').map key) := by
      unfold Lots.rest
      split_ifs
      · exact List.sublist_cons_self _ _
      · rw [List.cons_append, List.nil_append, List.map_cons, List.map_cons, hcut]
    refine ⟨hkeys.sublist hsub, fun t ht hall => ?_⟩
    rcases List.mem_append.mp ht with ht | ht
    · exact fun hmem => hgone t ht hall (hsub.subset hmem)
    · obtain rfl := List.mem_singleton.mp ht
      have hsize : L.size a = m := hall
      have hnone : L.size (L.cut a m) = 0 := by rw [L.size_cut, hsize, Nat.sub_self]
      rw [Lots.rest, if_pos hnone, List.nil_append]
      exact (List.nodup_cons.mp hkeys).1

/-- Each line is taken from its front. -/
theorem left_eq (h : Pairs L M as bs taken as' bs') (ha : ∀ a ∈ as, 0 < L.size a)
    (hb : ∀ b ∈ bs, 0 < M.size b) :
    as' = L.left (takenTotal taken) as ∧ bs' = M.left (takenTotal taken) bs := by
  induction h with
  | start => exact ⟨(L.left_zero _).symm, (M.left_zero _).symm⟩
  | @take taken a as' b bs' m _ hm hpos ih =>
    obtain ⟨iha, ihb⟩ := ih
    rw [takenTotal_concat, Lots.left_add ha, Lots.left_add hb, ← iha, ← ihb,
      Lots.left_of_le_head (by omega) hpos, Lots.left_of_le_head (by omega) hpos]
    exact ⟨rfl, rfl⟩

end Pairs

end MatchingVenue
