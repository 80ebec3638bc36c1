import MatchingVenue.Engine.Runs

/-!
# Progress

In every state that a loop of an admission comes to, the loop is over, or its iteration matches at
least one unit and at most what either order has left (`LitProgress`, `PoolProgress`,
`CrossProgress`). So neither fill of the iteration throws and the queue that it reads has a head. An
iteration of the lit walk may put an iceberg back in its queue, so that neither orders nor levels
become fewer; what becomes less is the quantity of the incoming order. With the bound on the
iterations that follows from it, an admission is never left half done (`matching_progresses`).
-/

namespace MatchingVenue.MatchingEngine

/-- The next iteration of the lit walk, for an incoming order and an engine. -/
def LitProgress (side : Side) (o : Order) (s : MatchingEngine) : Prop :=
  matchLitBody side (o, s) = .ok none ∨
    ∃ price resting behind levels m s',
      (s.book side.opposite).entries = (price, resting :: behind) :: levels ∧
      m = min o.quantity resting.visibleQty ∧ 1 ≤ m ∧ m ≤ o.quantity ∧ m ≤ resting.quantity ∧
      matchLitBody side (o, s) = .ok (some (o.filled m, s'))

/-- The next iteration over the opposite pool. -/
def PoolProgress (mid : ℤ) (o : Order) (s : MatchingEngine) : Prop :=
  matchPegPoolBody mid (o, s) = .ok none ∨
    ∃ resting behind m s',
      s.pool o.side.opposite = resting :: behind ∧
      m = min o.quantity resting.quantity ∧ 1 ≤ m ∧ m ≤ o.quantity ∧ m ≤ resting.quantity ∧
      matchPegPoolBody mid (o, s) = .ok (some (o.filled m, s'))

/-- The next iteration of the pool cross. -/
def CrossProgress (mid : ℤ) (s : MatchingEngine) : Prop :=
  crossPegPoolsBody mid s = .ok none ∨
    ∃ bid bids ask asks m s',
      s.pegBids = bid :: bids ∧ s.pegAsks = ask :: asks ∧
      m = min bid.quantity ask.quantity ∧ 1 ≤ m ∧ m ≤ bid.quantity ∧ m ≤ ask.quantity ∧
      crossPegPoolsBody mid s = .ok (some s')

/-- In a well-formed engine every iteration over the opposite levels makes progress. -/
theorem Queued.litProgress {s : MatchingEngine} (h : s.Queued) (side : Side) (o : Order) :
    LitProgress side o s := by
  apply (h.matchLitBody_progress side o).imp_right
  rintro ⟨o', s', hbody⟩
  obtain ⟨price, resting, behind, levels, m, hentries, -, hm, hpos, hle, rfl, -⟩ :=
    matchLitBody_some hbody
  exact ⟨price, resting, behind, levels, m, s', hentries, hm, hpos, by omega, hle, hbody⟩

/-- In a well-formed engine every iteration over the opposite pool makes progress. -/
theorem Queued.poolProgress {s : MatchingEngine} (h : s.Queued) (mid : ℤ) (o : Order) :
    PoolProgress mid o s := by
  apply (h.matchPegPoolBody_progress mid o).imp_right
  rintro ⟨o', s', hbody⟩
  obtain ⟨resting, behind, m, hpool, hm, hpos, rfl, -⟩ := matchPegPoolBody_some hbody
  exact ⟨resting, behind, m, s', hpool, hm, hpos, by omega, by omega, hbody⟩

/-- In a well-formed engine every iteration of the pool cross makes progress. -/
theorem Queued.crossProgress {s : MatchingEngine} (h : s.Queued) (mid : ℤ) :
    CrossProgress mid s := by
  apply (h.crossPegPoolsBody_progress mid).imp_right
  rintro ⟨s', hbody⟩
  obtain ⟨bid, bids, ask, asks, m, hbids, hasks, hm, hpos, -⟩ := crossPegPoolsBody_some hbody
  exact ⟨bid, bids, ask, asks, m, s', hbids, hasks, hm, hpos, by omega, by omega, hbody⟩

/-- Every state that the lit walk comes to. -/
abbrev LitRun (side : Side) := Relation.ReflTransGen (Iterates (matchLitBody side))

/-- Every state that the walk over a pool comes to. -/
abbrev PoolRun (mid : ℤ) := Relation.ReflTransGen (Iterates (matchPegPoolBody mid))

/-- Every state that the pool cross comes to. -/
abbrev CrossRun (mid : ℤ) := Relation.ReflTransGen (Iterates (crossPegPoolsBody mid))

/-- Matching always makes progress and never throws: in every state that one of the three loops of
an admission comes to, the loop is over or its next iteration matches between one unit and what both
orders have left; each loop ends; and so does the admission. -/
theorem matching_progresses {s : MatchingEngine} (h : s.Reachable) {o : Order}
    (ho : o.Constructed) :
    (∃ t, s.addOrder o = .ok t) ∧
    (∀ a u, PoolRun s.mid (o, s) (a, u) → PoolProgress s.mid a u) ∧
      (∃ x, matchPegPool o s.mid s = .ok x) ∧
    ∃ o₁ s₁, pegStep o s = .ok (o₁, s₁) ∧
      (∀ a u, LitRun o.side (o₁, s₁) (a, u) → LitProgress o.side a u) ∧
      ∃ o₂ s₂, matchLit o.side o₁ s₁ = .ok (o₂, s₂) ∧
        (o.ordType = .limit →
          (∀ mid u, CrossRun mid (s₂.disposeLit o₂) u → CrossProgress mid u) ∧
          ∃ t, (s₂.disposeLit o₂).crossPegPools = .ok t) := by
  have hq := h.queued
  have hv := ho.valid.1
  obtain ⟨x, y, hpool⟩ := hq.matchPegPool_total s.mid o
  obtain ⟨o₁, s₁, hpeg⟩ := hq.pegStep_total o
  have hq₁ := hq.pegStep hpeg
  obtain ⟨o₂, s₂, hlit⟩ := hq₁.matchLit_total o.side o₁
  refine ⟨h.addOrder_total ho, ?_, ⟨_, hpool⟩, o₁, s₁, hpeg, ?_, o₂, s₂, hlit,
    fun htype => ⟨?_, ?_⟩⟩
  · intro a u hrun
    have hu := steps_inv hrun (fun x => x.2.Queued) hq fun _ _ hu hbody => hu.matchPegPoolBody hbody
    exact hu.poolProgress s.mid a
  · intro a u hrun
    have hu := steps_inv hrun (fun x => x.2.Queued) hq₁ fun _ _ hu hbody => hu.matchLitBody hbody
    exact hu.litProgress o.side a
  all_goals
    have hfrom := (pegStep_filledFrom hpeg).trans (matchLit_filledFrom hlit)
    have hq₂ := (hq₁.matchLit hlit).disposeLit (hfrom.valid hv) (hfrom.ordType.trans htype)
  · intro mid u hrun
    have hu := steps_inv hrun Queued hq₂ fun _ _ hu hbody => hu.crossPegPoolsBody hbody
    exact hu.crossProgress mid
  · exact hq₂.crossPegPools_total

/-- A sell that first meets the peg bid of `quotedCalls`. -/
theorem matching_progresses_quoted :
    (∃ t, (after quotedCalls).addOrder (.built 5 5 .sell 24 10000 1 .ioc 0 .limit) = .ok t) ∧
      PoolProgress (after quotedCalls).mid (.built 5 5 .sell 24 10000 1 .ioc 0 .limit)
      (after quotedCalls) := by
  obtain ⟨hadd, hpool, -⟩ := matching_progresses (reachable_after quotedCalls)
    (o := .built 5 5 .sell 24 10000 1 .ioc 0 .limit)
    ⟨5, 5, some .sell, 24, 10000, 1, some .ioc, 0, some .limit, rfl⟩
  exact ⟨hadd, hpool _ _ .refl⟩

end MatchingVenue.MatchingEngine
