import MatchingVenue.Engine.Crossing

/-!
# Depth snapshots

After each inbound event the engine writes the best levels of both sides, with the displayed
quantity of each, into a slot that is used again and again. The arrays of a slot have a fixed
length; only their prefixes up to the level counts are valid.
-/

namespace MatchingVenue

namespace BookSnapshotEvent

/-- The levels that a slot holds on each side at most. -/
def maxDepthLevels : ℕ := 20

end BookSnapshotEvent

/-- A slot of the snapshot ring. -/
structure BookSnapshotEvent where
  bidPrices : Vector ℤ BookSnapshotEvent.maxDepthLevels
  bidQtys : Vector ℤ BookSnapshotEvent.maxDepthLevels
  askPrices : Vector ℤ BookSnapshotEvent.maxDepthLevels
  askQtys : Vector ℤ BookSnapshotEvent.maxDepthLevels
  bidLevelCount : ℕ
  askLevelCount : ℕ
  bestBid : ℤ
  bestAsk : ℤ
  timestamp : ℤ

namespace BookSnapshotEvent

/-- The pairs that two arrays hold below an index. -/
def pairsBelow {n : ℕ} (count : ℕ) (prices qtys : Vector ℤ n) : List (ℤ × ℤ) :=
  (prices.toList.zip qtys.toList).take count

/-- Writing at an index adds a pair to those below it. -/
theorem pairsBelow_set {n : ℕ} {i : ℕ} (h : i < n) (prices qtys : Vector ℤ n) (price qty : ℤ) :
    pairsBelow (i + 1) (prices.set i price h) (qtys.set i qty h) =
      pairsBelow i prices qtys ++ [(price, qty)] := by
  have hlength : (prices.toList.zip qtys.toList).length = n := by simp
  unfold pairsBelow
  apply List.ext_getElem
  · simp only [List.length_take, List.length_append, List.length_zip, Vector.length_toList]
    simp
    omega
  · intro j hj hj'
    simp only [List.getElem_take, List.getElem_zip, List.getElem_append, List.length_take, hlength]
    have hji : j < i + 1 := by
      simp at hj
      omega
    by_cases heq : j = i
    · subst heq
      simp
    · have hlt : j < i := by omega
      have hmin : j < min i n := by omega
      have hne : i ≠ j := Ne.symm heq
      simp [hmin, hne]

/-- The levels that a slot holds on a side: the pairs below its count. -/
def levels (event : BookSnapshotEvent) : Side → List (ℤ × ℤ)
  | .buy => pairsBelow event.bidLevelCount event.bidPrices event.bidQtys
  | .sell => pairsBelow event.askLevelCount event.askPrices event.askQtys

end BookSnapshotEvent

namespace MatchingEngine

open BookSnapshotEvent (pairsBelow pairsBelow_set)

/-- Writes the levels from index `i` on, up to `maxLevels` of them, and returns the number
written. -/
def fillSide {n : ℕ} (maxLevels : ℤ) : List (ℤ × List RestingOrder) → ℕ → Vector ℤ n → Vector ℤ n →
    Except Exn (ℕ × Vector ℤ n × Vector ℤ n)
  | [], i, prices, qtys => .ok (i, prices, qtys)
  | (price, queue) :: levels, i, prices, qtys =>
    if (i : ℤ) = maxLevels then .ok (i, prices, qtys)
    else
      let levelQty := queue.foldl (fun levelQty o => toLong (levelQty + o.visibleQty)) 0
      if h : i < n then
        fillSide maxLevels levels (i + 1) (prices.set i price h) (qtys.set i levelQty h)
      else .error .indexOutOfBounds

/-- Writes a snapshot of the book into a slot, at the time `nanoTime`. -/
def snapshotInto (s : MatchingEngine) (target : BookSnapshotEvent) (maxLevels nanoTime : ℤ) :
    Except Exn BookSnapshotEvent := do
  let levels := min maxLevels BookSnapshotEvent.maxDepthLevels
  let (bidLevelCount, bidPrices, bidQtys) ←
    fillSide levels s.bids.entries 0 target.bidPrices target.bidQtys
  let (askLevelCount, askPrices, askQtys) ←
    fillSide levels s.asks.entries 0 target.askPrices target.askQtys
  return { bidPrices, bidQtys, askPrices, askQtys, bidLevelCount, askLevelCount,
           bestBid := s.getBestBid, bestAsk := s.getBestAsk, timestamp := nanoTime }

/-- No level is written past the end of the arrays. -/
theorem fillSide_total {n : ℕ} {maxLevels : ℤ} (hmax : maxLevels ≤ n)
    (levels : List (ℤ × List RestingOrder)) {i : ℕ} (hi : (i : ℤ) ≤ maxLevels)
    (prices qtys : Vector ℤ n) : ∃ r, fillSide maxLevels levels i prices qtys = .ok r := by
  induction levels generalizing i prices qtys with
  | nil => exact ⟨_, rfl⟩
  | cons level levels ih =>
    obtain ⟨price, queue⟩ := level
    unfold fillSide
    -- By induction on the levels: the index stays within the bound, and the bound within the
    -- arrays.
    split_ifs with heq hlt
    · exact ⟨_, rfl⟩
    · exact ih (by push_cast; omega) _ _
    · omega

/-- A snapshot returns, and its tops are those of the engine. -/
theorem snapshotInto_spec (s : MatchingEngine) (target : BookSnapshotEvent) (maxLevels nanoTime : ℤ)
    (hmax : 0 ≤ maxLevels) :
    ∃ event, s.snapshotInto target maxLevels nanoTime = .ok event ∧
      event.bestBid = s.getBestBid ∧ event.bestAsk = s.getBestAsk := by
  have hle : min maxLevels BookSnapshotEvent.maxDepthLevels ≤ BookSnapshotEvent.maxDepthLevels :=
    Int.min_le_right _ _
  have h0 : ((0 : ℕ) : ℤ) ≤ min maxLevels BookSnapshotEvent.maxDepthLevels :=
    Int.le_min.mpr ⟨hmax, Int.natCast_nonneg _⟩
  obtain ⟨rb, hb⟩ := fillSide_total hle s.bids.entries h0 target.bidPrices target.bidQtys
  obtain ⟨ra, ha⟩ := fillSide_total hle s.asks.entries h0 target.askPrices target.askQtys
  unfold snapshotInto
  simp only [hb, ha, Bind.bind, Except.bind, pure, Except.pure]
  exact ⟨_, rfl, rfl, rfl⟩

/-! ## The valid prefix of a slot -/

/-- The displayed quantity of some orders. -/
def displayed (orders : List RestingOrder) : ℕ := (orders.map fun r => r.visibleQty).sum

/-- What is written on a side: the best levels behind those that were written, at most `maxLevels`
in all. -/
theorem fillSide_eq {n : ℕ} {maxLevels : ℕ} (hmax : maxLevels ≤ n)
    (levels : List (ℤ × List RestingOrder)) {i : ℕ} (hi : i ≤ maxLevels)
    (prices qtys : Vector ℤ n) :
    ∃ count prices' qtys', fillSide maxLevels levels i prices qtys = .ok (count, prices', qtys') ∧
      count = i + (levels.take (maxLevels - i)).length ∧
      pairsBelow count prices' qtys' = pairsBelow i prices qtys ++
        (levels.take (maxLevels - i)).map fun level => (level.1, toLong (displayed level.2)) := by
  induction levels generalizing i prices qtys with
  | nil => exact ⟨i, prices, qtys, rfl, by simp, by simp⟩
  | cons level levels ih =>
    obtain ⟨price, queue⟩ := level
    unfold fillSide
    by_cases hdone : i = maxLevels
    · -- The count has reached the bound.
      subst hdone
      exact ⟨i, prices, qtys, by rw [if_pos rfl], by simp, by simp⟩
    have hlt : i < n := by omega
    have hqty : queue.foldl (fun levelQty o => toLong (levelQty + o.visibleQty)) 0 =
        toLong (displayed queue) := by
      have h := foldl_toLong (fun o : RestingOrder => o.visibleQty) queue 0
      rwa [Int.zero_add] at h
    obtain ⟨count, prices', qtys', hfill, hcount, hpairs⟩ :=
      ih (i := i + 1) (by omega) (prices.set i price hlt)
        (qtys.set i (toLong (displayed queue)) hlt)
    have hsucc : maxLevels - i = maxLevels - (i + 1) + 1 := by omega
    refine ⟨count, prices', qtys', ?_, ?_, ?_⟩
    · rw [if_neg (by exact_mod_cast hdone)]
      simp only [hqty]
      rw [dif_pos hlt]
      exact hfill
    · rw [hcount, hsucc, List.take_succ_cons, List.length_cons]
      omega
    · rw [hpairs, pairsBelow_set, hsucc, List.take_succ_cons, List.map_cons, List.append_assoc]
      rfl

/-- A snapshot holds the best levels of each side, with the quantity displayed at each, whatever the
slot held before. -/
theorem snapshotInto_levels (s : MatchingEngine) (target : BookSnapshotEvent) {maxLevels : ℤ}
    (hmax : 0 ≤ maxLevels) (nanoTime : ℤ) :
    ∃ event, s.snapshotInto target maxLevels nanoTime = .ok event ∧
      (∀ side, event.levels side =
        ((s.book side).entries.take (min maxLevels.toNat BookSnapshotEvent.maxDepthLevels)).map
          fun level => (level.1, toLong (displayed level.2))) ∧
      event.bidLevelCount ≤ BookSnapshotEvent.maxDepthLevels ∧
      event.askLevelCount ≤ BookSnapshotEvent.maxDepthLevels ∧
      event.bestBid = s.getBestBid ∧ event.bestAsk = s.getBestAsk := by
  have hbound : min maxLevels.toNat BookSnapshotEvent.maxDepthLevels ≤
      BookSnapshotEvent.maxDepthLevels :=
    Nat.min_le_right _ _
  have hcast : min maxLevels (BookSnapshotEvent.maxDepthLevels : ℤ) =
      (min maxLevels.toNat BookSnapshotEvent.maxDepthLevels : ℕ) := by
    omega
  obtain ⟨bidCount, bidPrices, bidQtys, hbids, hbidCount, hbidPairs⟩ :=
    fillSide_eq hbound s.bids.entries (Nat.zero_le _) target.bidPrices target.bidQtys
  obtain ⟨askCount, askPrices, askQtys, hasks, haskCount, haskPairs⟩ :=
    fillSide_eq hbound s.asks.entries (Nat.zero_le _) target.askPrices target.askQtys
  have hcount : ∀ levels : List (ℤ × List RestingOrder),
      0 + (levels.take (min maxLevels.toNat BookSnapshotEvent.maxDepthLevels - 0)).length ≤
        BookSnapshotEvent.maxDepthLevels := by
    intro levels
    rw [List.length_take]
    omega
  unfold snapshotInto
  simp only [hcast, hbids, hasks, Bind.bind, Except.bind, pure, Except.pure]
  refine ⟨_, rfl, ?_, hbidCount ▸ hcount _, haskCount ▸ hcount _, rfl, rfl⟩
  intro side
  cases side with
  | buy => exact hbidPairs
  | sell => exact haskPairs

end MatchingEngine

end MatchingVenue
