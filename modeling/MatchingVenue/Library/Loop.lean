import Mathlib.Logic.Relation
import Mathlib.Data.Nat.Notation

/-!
# While loops that may throw

A `while` loop of an imperative program is a body run again and again on a state. The body either
throws, or finds that the loop is over, or returns the state for the next iteration. `whileLoop`
runs it with a bound on the iterations, and gives the error `diverged` when the bound is too small.

What every step of a run preserves holds at its end (`steps_inv`).

Two rules reason about a loop. `whileLoop_inv` is the partial one: what every iteration preserves
holds where the loop ends, together with the exit condition. `whileLoop_total` is the total one:
under an invariant and a measure that every iteration decreases, the loop ends within the measure
and throws nothing. `whileLoop_log` is for what a loop writes to a log, and `whileLoop_related`
compares two loops. `whileLoop_steps` keeps the whole run, for the properties that relate the two
ends of it.
-/

namespace MatchingVenue

universe u v w

variable {σ : Type u} {ε : Type v}

/-- A loop of at most `fuel` iterations. The body returns `none` where the loop is over, and the
next state otherwise. -/
def whileLoop (diverged : ε) (body : σ → Except ε (Option σ)) : ℕ → σ → Except ε σ
  | 0, s =>
    match body s with
    | .error e => .error e
    | .ok none => .ok s
    | .ok (some _) => .error diverged
  | fuel + 1, s =>
    match body s with
    | .error e => .error e
    | .ok none => .ok s
    | .ok (some s') => whileLoop diverged body fuel s'

/-- One iteration of a loop. -/
def Iterates (body : σ → Except ε (Option σ)) (s s' : σ) : Prop := body s = .ok (some s')

variable {diverged : ε} {body : σ → Except ε (Option σ)}

/-- A loop that is over at the start changes nothing. -/
theorem whileLoop_done {s : σ} (h : body s = .ok none) (fuel : ℕ) :
    whileLoop diverged body fuel s = .ok s := by
  cases fuel <;> simp [whileLoop, h]

/-- A loop that ends has run some iterations, and its body says at the end that it is over. -/
theorem whileLoop_steps {fuel : ℕ} {s t : σ} (h : whileLoop diverged body fuel s = .ok t) :
    Relation.ReflTransGen (Iterates body) s t ∧ body t = .ok none := by
  induction fuel generalizing s with
  | zero =>
    -- No fuel is left, so the loop returned because its body said so.
    unfold whileLoop at h
    split at h
    · simp at h
    · rename_i hb
      obtain rfl : s = t := by simpa using h
      exact ⟨.refl, hb⟩
    · simp at h
  | succ fuel ih =>
    unfold whileLoop at h
    split at h
    · simp at h
    · rename_i hb
      obtain rfl : s = t := by simpa using h
      exact ⟨.refl, hb⟩
    · rename_i s' hb
      obtain ⟨hrun, hend⟩ := ih h
      exact ⟨.head hb hrun, hend⟩

/-- What every step preserves holds at the end of a run. -/
theorem steps_inv {r : σ → σ → Prop} {s t : σ} (h : Relation.ReflTransGen r s t)
    (I : σ → Prop) (hs : I s) (hstep : ∀ u v, I u → r u v → I v) : I t := by
  induction h with
  | refl => exact hs
  | tail _ hlast ih => exact hstep _ _ ih hlast

/-- The rule of partial correctness: what every iteration preserves holds where the loop ends. -/
theorem whileLoop_inv {fuel : ℕ} {s t : σ} (h : whileLoop diverged body fuel s = .ok t)
    (I : σ → Prop) (hs : I s) (hstep : ∀ u v, I u → body u = .ok (some v) → I v) :
    I t ∧ body t = .ok none := by
  obtain ⟨hrun, hend⟩ := whileLoop_steps h
  exact ⟨steps_inv hrun I hs hstep, hend⟩

/-- The rule for a log: where each iteration that keeps the invariant appends an entry with a
property, the loop appends entries that all have it. -/
theorem whileLoop_log {ι : Type w} {fuel : ℕ} {s t : σ} (h : whileLoop diverged body fuel s = .ok t)
    (I : σ → Prop) (log : σ → List ι) (P : ι → Prop) (hs : I s)
    (hstep : ∀ u v, I u → body u = .ok (some v) → I v ∧ ∃ entry,
    log v = log u ++ [entry] ∧ P entry) :
    ∃ entries, log t = log s ++ entries ∧ ∀ entry ∈ entries, P entry := by
  refine (whileLoop_inv h (fun u => I u ∧ ∃ entries, log u = log s ++ entries ∧
    ∀ entry ∈ entries, P entry)
    ⟨hs, [], (List.append_nil _).symm, by simp⟩ ?_).1.2
  rintro u v ⟨hI, entries, hlog, hentries⟩ hbody
  obtain ⟨hI', entry, hlog', hentry⟩ := hstep u v hI hbody
  refine ⟨hI', entries ++ [entry], by rw [hlog', hlog, List.append_assoc], ?_⟩
  exact List.forall_mem_append.mpr ⟨hentries, List.forall_mem_singleton.mpr hentry⟩

/-- A loop that keeps an invariant has run iterations on states that satisfy it. -/
theorem whileLoop_steps_inv {fuel : ℕ} {s t : σ} (h : whileLoop diverged body fuel s = .ok t)
    (I : σ → Prop) (hs : I s) (hstep : ∀ u v, I u → body u = .ok (some v) → I v) :
    Relation.ReflTransGen (fun u v => I u ∧ Iterates body u v) s t := by
  obtain ⟨hrun, -⟩ := whileLoop_steps h
  refine (steps_inv hrun (fun u => Relation.ReflTransGen (fun u v => I u ∧ Iterates body u v) s u ∧
    I u)
    ⟨.refl, hs⟩ ?_).1
  rintro u v ⟨hrun, hI⟩ hiter
  exact ⟨hrun.tail ⟨hI, hiter⟩, hstep u v hI hiter⟩

/-- The rule of total correctness: under an invariant `I` that the body keeps and a measure `μ` that
it decreases, a loop with fuel for the measure ends. -/
theorem whileLoop_total (I : σ → Prop) (μ : σ → ℕ)
    (hstep : ∀ s, I s → body s = .ok none ∨ ∃ s', body s = .ok (some s') ∧ I s' ∧ μ s' < μ s)
    {fuel : ℕ} {s : σ} (hs : I s) (hfuel : μ s ≤ fuel) :
    ∃ t, whileLoop diverged body fuel s = .ok t := by
  induction fuel generalizing s with
  | zero =>
    -- The measure is zero, and no iteration makes it smaller.
    rcases hstep s hs with hb | ⟨s', -, -, hlt⟩
    · exact ⟨s, by simp [whileLoop, hb]⟩
    · omega
  | succ fuel ih =>
    rcases hstep s hs with hb | ⟨s', hb, hs', hlt⟩
    · exact ⟨s, by simp [whileLoop, hb]⟩
    · obtain ⟨t, ht⟩ := ih hs' (by omega)
      exact ⟨t, by simp [whileLoop, hb, ht]⟩

/-- What an observer notes down of a loop: `observe` of the state before each iteration. -/
def whileTrace {β : Type w} (body : σ → Except ε (Option σ)) (observe : σ → List β) : ℕ → σ → List β
  | 0, _ => []
  | fuel + 1, s =>
    match body s with
    | .ok (some s') => observe s ++ whileTrace body observe fuel s'
    | _ => []

/-- The rule for notes: what the notes so far and the state satisfy, and every iteration keeps,
holds of all notes and the end of the loop. -/
theorem whileLoop_trace {β : Type w} {observe : σ → List β} {I : List β → σ → Prop}
    {fuel : ℕ} {s t : σ} {notes : List β} (h : whileLoop diverged body fuel s = .ok t)
    (hs : I notes s)
    (hstep : ∀ notes u v, I notes u → body u = .ok (some v) → I (notes ++ observe u) v) :
    I (notes ++ whileTrace body observe fuel s) t := by
  induction fuel generalizing s notes with
  | zero =>
    obtain rfl : s = t := by
      unfold whileLoop at h
      split at h <;> simp_all
    rw [whileTrace, List.append_nil]
    exact hs
  | succ fuel ih =>
    unfold whileLoop at h
    unfold whileTrace
    split at h
    · simp at h
    · rename_i hb
      obtain rfl : s = t := by simpa using h
      rw [hb, List.append_nil]
      exact hs
    · rename_i s' hb
      rw [hb, ← List.append_assoc]
      exact ih h (hstep notes s s' hs hb)

/-- The rule for a loop that runs on part of a state: where the two bodies do the same to that part,
so do the loops. -/
theorem whileLoop_map {τ : Type w} (f : σ → τ) {body' : τ → Except ε (Option τ)}
    (hbody : ∀ s, body' (f s) = (body s).map (Option.map f)) (fuel : ℕ) (s : σ) :
    whileLoop diverged body' fuel (f s) = (whileLoop diverged body fuel s).map f := by
  induction fuel generalizing s with
  | zero =>
    unfold whileLoop
    rw [hbody]
    rcases body s with e | (- | s')
    · rfl
    · rfl
    · rfl
  | succ fuel ih =>
    unfold whileLoop
    rw [hbody]
    rcases body s with e | (- | s')
    · rfl
    · rfl
    · exact ih s'

/-- The rule for two loops: where iterations take related states to related states, and related
states are both at the end or both not, two loops that start in related states end in related
states. -/
theorem whileLoop_related {τ : Type w} {diverged' : ε} {body' : τ → Except ε (Option τ)}
    {R : σ → τ → Prop} (hstep : ∀ s s' x x', R s s' → body s = .ok x → body' s' = .ok x' →
      (x = none ∧ x' = none) ∨ ∃ t t', x = some t ∧ x' = some t' ∧ R t t')
    {fuel fuel' : ℕ} {s t : σ} {s' t' : τ} (h : whileLoop diverged body fuel s = .ok t)
    (h' : whileLoop diverged' body' fuel' s' = .ok t') (hR : R s s') : R t t' := by
  obtain ⟨hrun, hend⟩ := whileLoop_steps h
  obtain ⟨hrun', hend'⟩ := whileLoop_steps h'
  clear h h'
  induction hrun using Relation.ReflTransGen.head_induction_on generalizing s' with
  | refl =>
    -- The first loop is over, and so is the second.
    rcases hrun'.cases_head with rfl | ⟨u', hiter', -⟩
    · exact hR
    · rcases hstep _ _ _ _ hR hend hiter' with ⟨-, hnone⟩ | ⟨_, _, hsome, -⟩
      · exact absurd hnone (by simp)
      · exact absurd hsome (by simp)
  | @head s u hiter hrun ih =>
    rcases hrun'.cases_head with rfl | ⟨u', hiter', hrun'⟩
    · rcases hstep _ _ _ _ hR hiter hend' with ⟨hnone, -⟩ | ⟨_, _, -, hsome, -⟩
      · exact absurd hnone (by simp)
      · exact absurd hsome (by simp)
    · rcases hstep _ _ _ _ hR hiter hiter' with ⟨hnone, -⟩ | ⟨_, _, ht, ht', hnext⟩
      · exact absurd hnone (by simp)
      · obtain rfl := Option.some.inj ht
        obtain rfl := Option.some.inj ht'
        exact ih hnext hrun'

end MatchingVenue
