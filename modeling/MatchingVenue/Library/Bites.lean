import Mathlib.Data.Nat.Notation
import Mathlib.Tactic.Common

/-!
# A need that is met bite by bite

A store meets a need in bites: each bite takes some amount from one supplier, as much as the need
and the supplier allow, and leaves another store. Where a bite for a greater need is the bite for a
smaller one, or that and a second bite from the same supplier (`Bites.bite_whole`,
`Bites.bite_split`), a need met at once and the same need met in two parts come to the same store,
and to the same bites but for that one, which the boundary of the parts may divide (`Meal.add`).
-/

namespace MatchingVenue

universe u v

variable {κ : Type u} {σ : Type v}

/-- The keys of the units that a list counts, in order. -/
def units (l : List (κ × ℕ)) : List κ := l.flatMap fun x => List.replicate x.2 x.1

/-- The units of a list begin with those of its first entry. -/
theorem units_cons (x : κ × ℕ) (l : List (κ × ℕ)) :
    units (x :: l) = List.replicate x.2 x.1 ++ units l :=
  List.flatMap_cons

/-- The units of two lists after each other are the units of both. -/
theorem units_append (l r : List (κ × ℕ)) : units (l ++ r) = units l ++ units r :=
  List.flatMap_append

/-- A unit is of the key of an entry. -/
theorem mem_of_mem_units {k : κ} {l : List (κ × ℕ)} (h : k ∈ units l) : ∃ x ∈ l, x.1 = k := by
  obtain ⟨x, hx, hk⟩ := List.mem_flatMap.mp h
  exact ⟨x, hx, (List.eq_of_mem_replicate hk).symm⟩

section Merging

variable [DecidableEq κ] {l l' r r' : List (κ × ℕ)}

/-- Puts an entry in front of a list, or adds it to the first one where that is of the same key. -/
def pushEntry (x : κ × ℕ) : List (κ × ℕ) → List (κ × ℕ)
  | [] => [x]
  | y :: l => if x.1 = y.1 then (x.1, x.2 + y.2) :: l else x :: y :: l

/-- A list with each run of adjacent entries of one key as one entry. -/
def merged (l : List (κ × ℕ)) : List (κ × ℕ) := l.foldr pushEntry []

/-- Merging a list pushes its first entry onto the merged rest. -/
theorem merged_cons (x : κ × ℕ) (l : List (κ × ℕ)) : merged (x :: l) = pushEntry x (merged l) := rfl

/-- Two entries of one key go in as one. -/
theorem pushEntry_add (k : κ) (m n : ℕ) (l : List (κ × ℕ)) :
    pushEntry (k, m) (pushEntry (k, n) l) = pushEntry (k, m + n) l := by
  cases l with
  | nil => simp [pushEntry]
  | cons y l =>
    by_cases hy : k = y.1
    · simp [pushEntry, hy, Nat.add_assoc]
    · simp [pushEntry, hy]

/-- Two entries of one key in front merge to what their sum merges to. -/
theorem merged_split (k : κ) (m n : ℕ) (l : List (κ × ℕ)) :
    merged ((k, m) :: (k, n) :: l) = merged ((k, m + n) :: l) :=
  pushEntry_add k m n (merged l)

/-- Merging keeps the units. -/
theorem units_merged (l : List (κ × ℕ)) : units (merged l) = units l := by
  have hpush : ∀ (x : κ × ℕ) (l : List (κ × ℕ)), units (pushEntry x l) =
      List.replicate x.2 x.1 ++ units l := by
    intro x l
    cases l with
    | nil => rfl
    | cons y l =>
      simp only [pushEntry]
      split_ifs with hxy
      · rw [units_cons, units_cons, ← List.append_assoc, ← hxy, List.replicate_append_replicate]
      · rw [units_cons]
  induction l with
  | nil => rfl
  | cons x l ih => rw [merged_cons, hpush, ih, units_cons]

/-- It does not matter whether the list in front is merged first. -/
theorem foldr_merged (l r : List (κ × ℕ)) : (merged l).foldr pushEntry r = l.foldr pushEntry r := by
  induction l with
  | nil => rfl
  | cons x l ih =>
    rw [merged_cons, List.foldr_cons, ← ih]
    cases merged l with
    | nil => rfl
    | cons y m =>
      by_cases hxy : x.1 = y.1
      · obtain ⟨k, a⟩ := x
        obtain ⟨k', b⟩ := y
        obtain rfl : k = k' := hxy
        simp only [pushEntry, if_true, List.foldr_cons]
        exact (pushEntry_add k a b _).symm
      · simp only [pushEntry, if_neg hxy, List.foldr_cons]

/-- What two lists come to when merged goes by what each of them does. -/
theorem merged_append (hl : merged l = merged l') (hr : merged r = merged r') :
    merged (l ++ r) = merged (l' ++ r') := by
  calc merged (l ++ r) = l.foldr pushEntry (merged r) := List.foldr_append
    _ = l'.foldr pushEntry (merged r') := by rw [← foldr_merged l, ← foldr_merged l', hl, hr]
    _ = merged (l' ++ r') := List.foldr_append.symm

end Merging

/-- Bites: what a store gives for a need, that is from whom, how much, and which store is left. -/
structure Bites (κ : Type u) (σ : Type v) where
  bite : ℕ → σ → Option (κ × ℕ × σ)
  bite_pos : ∀ {n s k m t}, bite n s = some (k, m, t) → 0 < m ∧ m ≤ n
  bite_none : ∀ {n s}, 0 < n → bite n s = none → ∀ n', bite n' s = none
  bite_whole : ∀ {n n' s k m t}, bite (n + n') s = some (k, m, t) → m ≤ n →
    bite n s = some (k, m, t)
  bite_split : ∀ {n n' s k m t}, bite (n + n') s = some (k, m, t) → 0 < n → n < m →
    ∃ u, bite n s = some (k, n, u) ∧ bite n' u = some (k, m - n, t)

/-- No bites at all. -/
def Bites.idle (κ : Type u) (σ : Type v) : Bites κ σ where
  bite _ _ := none
  bite_pos := nofun
  bite_none _ _ _ := rfl
  bite_whole := nofun
  bite_split := nofun

/-- The bites for a need, until it is met or the store has no more: from whom how much, what is left
of the need, and which store is left. -/
inductive Meal (B : Bites κ σ) : ℕ → σ → List (κ × ℕ) → ℕ → σ → Prop where
  | done {n : ℕ} {s : σ} : B.bite n s = none → Meal B n s [] n s
  | bite {n n' m : ℕ} {s t u : σ} {k : κ} {l : List (κ × ℕ)} : B.bite n s = some (k, m, t) →
    Meal B (n - m) t l n' u → Meal B n s ((k, m) :: l) n' u

namespace Meal

variable {B : Bites κ σ} {n n' n₁ n₂ r r' : ℕ} {s t t' : σ} {l l' : List (κ × ℕ)}

/-- A meal of nothing takes no bite. -/
theorem zero (h : Meal B 0 s l r t) : l = [] ∧ r = 0 ∧ t = s := by
  cases h with
  | done => exact ⟨rfl, rfl, rfl⟩
  | bite hbite =>
    have hpos := B.bite_pos hbite
    omega

/-- Where there is no first bite, there is none. -/
theorem of_none (h : Meal B n s l r t) (hnone : B.bite n s = none) : l = [] ∧ r = n ∧ t = s := by
  cases h with
  | done => exact ⟨rfl, rfl, rfl⟩
  | bite hbite =>
    rw [hnone] at hbite
    exact absurd hbite nofun

/-- A need has one meal. -/
theorem unique (h : Meal B n s l r t) (h' : Meal B n s l' r' t') : l' = l ∧ r' = r ∧ t' = t := by
  induction h generalizing l' with
  | done hnone => exact h'.of_none hnone
  | @bite n n' m s t u k l hbite _ ih =>
    cases h' with
    | done hnone =>
      rw [hbite] at hnone
      exact absurd hnone nofun
    | bite hbite' hrest =>
      rw [hbite] at hbite'
      obtain ⟨rfl, rfl, rfl⟩ := by simpa using hbite'
      obtain ⟨rfl, rfl, rfl⟩ := ih hrest
      exact ⟨rfl, rfl, rfl⟩

/-- What every bite keeps of a store. -/
theorem inv {P : σ → Prop} (h : Meal B n s l r t) (hs : P s)
    (hstep : ∀ n s k m t, P s → B.bite n s = some (k, m, t) → P t) : P t := by
  induction h with
  | done => exact hs
  | bite hbite _ ih => exact ih (hstep _ _ _ _ _ hs hbite)

/-- The units of a meal and what is left make the need. -/
theorem length_units (h : Meal B n s l r t) : (units l).length + r = n := by
  induction h with
  | done => exact Nat.zero_add _
  | bite hbite _ ih =>
    have hpos := B.bite_pos hbite
    rw [units_cons, List.length_append, List.length_replicate]
    omega

/-- Every need has a meal. -/
theorem total (B : Bites κ σ) (n : ℕ) (s : σ) : ∃ l r t, Meal B n s l r t := by
  induction n using Nat.strongRecOn generalizing s with
  | ind n ih =>
    cases hbite : B.bite n s with
    | none => exact ⟨[], n, s, .done hbite⟩
    | some x =>
      obtain ⟨k, m, t⟩ := x
      have hpos := B.bite_pos hbite
      obtain ⟨l, r, u, hmeal⟩ := ih (n - m) (by omega) t
      exact ⟨(k, m) :: l, r, u, .bite hbite hmeal⟩

/-- A need that is not met in full has come to a store that has nothing for it. -/
theorem stuck (h : Meal B n s l r t) (hleft : 0 < r) : ∀ n', B.bite n' t = none := by
  induction h with
  | done hnone => exact B.bite_none hleft hnone
  | bite _ _ ih => exact ih hleft

/-- A need met in two parts is met as at once, but that the boundary may divide one bite. -/
theorem add [DecidableEq κ] {r₁ r₂ : ℕ} {u v w : σ} {l₁ l₂ : List (κ × ℕ)}
    (h₁ : Meal B n₁ s l₁ r₁ u) (h₂ : Meal B n₂ u l₂ r₂ v) (h : Meal B (n₁ + n₂) s l r w) :
    w = v ∧ r = r₁ + r₂ ∧ merged l = merged (l₁ ++ l₂) := by
  induction h₁ generalizing l with
  | @done n s hnone =>
    rcases Nat.eq_zero_or_pos n with rfl | hpos
    · rw [Nat.zero_add] at h
      obtain ⟨rfl, rfl, rfl⟩ := h₂.unique h
      exact ⟨rfl, (Nat.zero_add _).symm, rfl⟩
    · -- The store has nothing for the first part, nor for the second.
      obtain ⟨rfl, rfl, rfl⟩ := h₂.of_none (B.bite_none hpos hnone _)
      obtain ⟨rfl, rfl, rfl⟩ := h.of_none (B.bite_none hpos hnone _)
      exact ⟨rfl, rfl, rfl⟩
  | @bite n r₁ m s t u k l₁ hbite hrest ih =>
    obtain ⟨hpos, hle⟩ := B.bite_pos hbite
    cases h with
    | done hnone =>
      rw [B.bite_none (by omega) hnone n] at hbite
      exact absurd hbite nofun
    | @bite _ _ m' _ t' _ k' l' hbite' hrest' =>
      rcases Nat.lt_or_ge n m' with hlt | hge
      · -- The boundary divides this bite: the first part ends with it, and the second begins with
        -- the rest of it.
        obtain ⟨u', hfirst, hsecond⟩ := B.bite_split hbite' (by omega) hlt
        rw [hfirst] at hbite
        obtain ⟨rfl, rfl, rfl⟩ := by simpa using hbite
        rw [Nat.sub_self] at hrest
        obtain ⟨rfl, rfl, rfl⟩ := hrest.zero
        cases h₂ with
        | done hnone =>
          rw [hsecond] at hnone
          exact absurd hnone nofun
        | bite hbite₂ hrest₂ =>
          rw [hsecond] at hbite₂
          obtain ⟨rfl, rfl, rfl⟩ := by simpa using hbite₂
          rw [show n₂ - (m' - n) = n + n₂ - m' by omega] at hrest₂
          obtain ⟨rfl, rfl, rfl⟩ := hrest₂.unique hrest'
          refine ⟨rfl, (Nat.zero_add _).symm, ?_⟩
          rw [List.singleton_append, merged_split, show n + (m' - n) = m' by omega]
      · have hwhole := B.bite_whole hbite' hge
        rw [hbite] at hwhole
        obtain ⟨rfl, rfl, rfl⟩ := by simpa using hwhole
        rw [show n + n₂ - m = n - m + n₂ by omega] at hrest'
        obtain ⟨rfl, rfl, hmerged⟩ := ih h₂ hrest'
        refine ⟨rfl, rfl, ?_⟩
        rw [List.cons_append, merged_cons, merged_cons, hmerged]

/-- A smaller need is met by the first units of a greater one. -/
theorem units_le [DecidableEq κ] {n r : ℕ} {t t' : σ} {l l' : List (κ × ℕ)} (h : Meal B n s l r t)
    (h' : Meal B n' s l' r' t') (hle : n ≤ n') :
    ∃ more, units l' = units l ++ more ∧ more.length ≤ n' - n := by
  obtain ⟨k, rfl⟩ := Nat.exists_eq_add_of_le hle
  obtain ⟨l₂, r₂, v, hrest⟩ := total B k t
  obtain ⟨-, -, hmerged⟩ := h.add hrest h'
  have hlength := hrest.length_units
  refine ⟨units l₂, ?_, by omega⟩
  rw [← units_merged l', hmerged, units_merged, units_append]

end Meal

end MatchingVenue
