import MatchingVenue.Engine.Snapshot

/-!
# The midpoint

The engine prices every peg execution at the midpoint of the lit tops, and the market data service
derives the same midpoint from the snapshot of the book. Both add the tops in 64 bit arithmetic
before they halve the sum. `printsAtMid_iff` says when the results are what they are documented to
be, the exact mean: in the runs in which no state has tops whose sum is beyond the largest `long`.
-/

namespace MatchingVenue

namespace MarketDataService

/-- What the service derives from a snapshot. -/
structure Quote where
  bestBid : ℤ
  bestAsk : ℤ
  spread : ℤ
  midpoint : ℤ
  timestamp : ℤ
  deriving DecidableEq, Repr

/-- The quote of a snapshot, in 64 bit arithmetic. -/
def onEvent (event : BookSnapshotEvent) : Quote :=
  let bestBid := event.bestBid
  let bestAsk := event.bestAsk
  if bestBid = -1 ∨ bestAsk = -1 then ⟨bestBid, bestAsk, -1, -1, event.timestamp⟩
  else ⟨bestBid, bestAsk, toLong (bestAsk - bestBid), (toLong (bestBid + bestAsk)).tdiv 2,
    event.timestamp⟩

end MarketDataService

namespace MatchingEngine

/-- The midpoint that the service derives from the tops of an engine is the engine's. -/
theorem midpoint_onEvent {s : MatchingEngine} {event : BookSnapshotEvent}
    (hbid : event.bestBid = s.getBestBid) (hask : event.bestAsk = s.getBestAsk) :
    (MarketDataService.onEvent event).midpoint = s.mid := by
  unfold MarketDataService.onEvent
  by_cases hna : s.getBestBid = -1 ∨ s.getBestAsk = -1
  · have hmid : s.mid = -1 := if_pos hna
    simp [hbid, hask, hna, hmid]
  · have hmid : s.mid = (toLong (s.getBestBid + s.getBestAsk)).tdiv 2 := if_neg hna
    simp [hbid, hask, hna, hmid]

/-! ## The peg prints -/

/-- The trades recorded since an earlier state. -/
def tradesSince (t s : MatchingEngine) : List Trade := t.trades.drop s.trades.length

/-- The trades since a state are those that were appended to its trades. -/
theorem tradesSince_eq {s t : MatchingEngine} {prints : List Trade}
    (h : t.trades = s.trades ++ prints) : t.tradesSince s = prints := by
  rw [tradesSince, h, List.drop_left]

/-- `PegPrint s o ref trade`: the admission of `o` to `s` records `trade` in a peg pool, and the lit
tops as they then stand are those of `ref`. They are those before the admission for `matchPegPool`,
and those after the order came to its end for `crossPegPools`. -/
inductive PegPrint (s : MatchingEngine) (o : Order) : MatchingEngine → Trade → Prop where
  | matchPegPool {o₁ : Order} {s₁ : MatchingEngine} {trade : Trade} :
    (o.tif = .fok → s.canFillCompletely o = true) → pegStep o s = .ok (o₁, s₁) →
    trade ∈ s₁.tradesSince s → PegPrint s o s trade
  | crossPegPools {o₁ o₂ : Order} {s₁ s₂ t : MatchingEngine} {trade : Trade} :
    (o.tif = .fok → s.canFillCompletely o = true) → o.ordType = .limit →
    pegStep o s = .ok (o₁, s₁) → matchLit o.side o₁ s₁ = .ok (o₂, s₂) →
    (s₂.disposeLit o₂).crossPegPools = .ok t → trade ∈ t.tradesSince (s₂.disposeLit o₂) →
    PegPrint s o (s₂.disposeLit o₂) trade

@[simp]
theorem fillTrade_price (s : MatchingEngine) (aggressor passive : Order) (price : ℤ) (m : ℕ) :
    (s.fillTrade aggressor passive price m).price = price := by
  unfold fillTrade
  cases aggressor.side <;> rfl

/-- Every trade of a walk over a pool is at the midpoint that it was given. -/
theorem matchPegPool_price {mid : ℤ} {o o' : Order} {s s' : MatchingEngine}
    (h : matchPegPool o mid s = .ok (o', s')) : ∀ trade ∈ s'.tradesSince s, trade.price = mid := by
  have hlog := whileLoop_log h (fun _ => True) (fun x => x.2.trades)
    (fun trade => trade.price = mid) trivial ?_
  · obtain ⟨prints, htrades, hprice⟩ := hlog
    rw [tradesSince_eq htrades]
    exact hprice
  · rintro ⟨u, su⟩ ⟨v, sv⟩ - hbody
    obtain ⟨r, _, m, -, -, -, -, rfl⟩ := matchPegPoolBody_some hbody
    refine ⟨trivial, su.fillTrade (u.filled m) (r.filled m).toOrder mid m, ?_,
      fillTrade_price _ _ _ _ _⟩
    rw [trades_settleHead, trades_recordFill]

/-- Every trade of a peg step is at the midpoint, and there is one then. -/
theorem pegStep_price {o o' : Order} {s s' : MatchingEngine} (h : pegStep o s = .ok (o', s')) :
    ∀ trade ∈ s'.tradesSince s, trade.price = s.mid ∧ s.mid ≠ Prices.na := by
  simp only [pegStep] at h
  split_ifs at h with hmid
  · exact fun trade htrade => ⟨matchPegPool_price h trade htrade, hmid.1⟩
  · obtain ⟨rfl, rfl⟩ := Prod.mk.inj (Except.ok.inj h)
    simp [tradesSince]

/-- Every trade of a pool cross is at the midpoint, and there is one then. -/
theorem crossPegPools_price {s t : MatchingEngine} (h : s.crossPegPools = .ok t) :
    ∀ trade ∈ t.tradesSince s, trade.price = s.mid ∧ s.mid ≠ Prices.na := by
  simp only [crossPegPools] at h
  split_ifs at h with hmid
  · obtain rfl := Except.ok.inj h
    simp [tradesSince]
  -- The source reads the midpoint once, before the loop.
  have hlog := whileLoop_log h (fun _ => True) (fun u => u.trades)
    (fun trade => trade.price = s.mid) trivial ?_
  · obtain ⟨prints, htrades, hprice⟩ := hlog
    rw [tradesSince_eq htrades]
    exact fun trade htrade => ⟨hprice trade htrade, hmid⟩
  · rintro u v - hbody
    obtain ⟨bid, _, ask, _, m, -, -, -, -, rfl⟩ := crossPegPoolsBody_some hbody
    refine ⟨trivial, u.crossTrade s.mid m (bid.filled m).toOrder (ask.filled m).toOrder, ?_, rfl⟩
    rw [trades_settleHead, trades_settleHead, trades_recordTrade]

/-- Every peg print is at the midpoint of the tops as they then stand. -/
theorem PegPrint.price_eq {s ref : MatchingEngine} {o : Order} {trade : Trade}
    (h : PegPrint s o ref trade) : trade.price = ref.mid ∧ ref.mid ≠ Prices.na := by
  cases h with
  | matchPegPool _ hpeg htrade => exact pegStep_price hpeg trade htrade
  | crossPegPools _ _ _ _ hcross htrade => exact crossPegPools_price hcross trade htrade

/-! ## When the midpoint is the mean -/

/-- The documented midpoint of a state: exactly the mean of the best bid and the best ask, a
multiple of 50 units, and strictly between them. -/
def TrueMid (s : MatchingEngine) (price : ℤ) : Prop :=
  2 * price = s.getBestBid + s.getBestAsk ∧ price % 50 = 0 ∧ s.getBestBid < price ∧
    price < s.getBestAsk

/-- The sum of the tops, where there are both, is a `long`. -/
def TopsFit (s : MatchingEngine) : Prop :=
  s.bids.entries ≠ [] → s.asks.entries ≠ [] → s.getBestBid + s.getBestAsk ≤ longMax

/-- The engine's midpoint of a reachable state is the mean exactly where the sum of the tops
fits. -/
theorem Reachable.trueMid_iff {s : MatchingEngine} (h : s.Reachable) (hbids : s.bids.entries ≠ [])
    (hasks : s.asks.entries ≠ []) :
    s.TrueMid s.mid ↔ s.getBestBid + s.getBestAsk ≤ longMax := by
  have hq := h.queued
  obtain ⟨hbid, hbid'⟩ := hq.getBestBid_price hbids
  obtain ⟨hask, hask'⟩ := hq.getBestAsk_price hasks
  have hlt := (lit_book_not_crossed h).1 hbids hasks
  obtain ⟨k, hk⟩ := toLong_eq_sub (s.getBestBid + s.getBestAsk)
  have hhalf : (toLong (s.getBestBid + s.getBestAsk)).tdiv 2 =
      toLong (s.getBestBid + s.getBestAsk) / 2 := Int.tdiv_eq_ediv_of_dvd (by omega)
  rw [hq.mid_eq hbids hasks, hhalf]
  constructor
  · rintro ⟨hmean, -, -, -⟩
    -- A wrapped sum is below the true one by a multiple of 2^64, so its half is not the mean.
    have hle := toLong_le (s.getBestBid + s.getBestAsk)
    omega
  · intro hfit
    -- The tops are on the tick of 100 and apart, so that the half is on the 50 and between them.
    rw [toLong_of_le (by omega) hfit]
    unfold TrueMid
    omega

/-- The midpoint depends on the books. -/
theorem mid_congr {s t : MatchingEngine} (hbook : ∀ x, t.book x = s.book x) : t.mid = s.mid := by
  have hbids : t.bids = s.bids := hbook .buy
  have hasks : t.asks = s.asks := hbook .sell
  have hbid : t.getBestBid = s.getBestBid := by rw [getBestBid, getBestBid, hbids]
  have hask : t.getBestAsk = s.getBestAsk := by rw [getBestAsk, getBestAsk, hasks]
  unfold mid
  rw [hbid, hask]

/-- The documented midpoint depends on the books. -/
theorem trueMid_congr {s t : MatchingEngine} (hbook : ∀ x, t.book x = s.book x) (price : ℤ) :
    t.TrueMid price ↔ s.TrueMid price := by
  have hbids : t.bids = s.bids := hbook .buy
  have hasks : t.asks = s.asks := hbook .sell
  simp only [TrueMid, getBestBid, getBestAsk, hbids, hasks]

/-- The tops at a peg print are those before the admission or those after it. -/
theorem PegPrint.ref_eq {s t ref : MatchingEngine} {o : Order} {trade : Trade}
    (h : PegPrint s o ref trade) (hadd : s.addOrder o = .ok t) :
    ref = s ∨ ∀ x, ref.book x = t.book x := by
  cases h with
  | matchPegPool => exact .inl rfl
  | crossPegPools hprobe htype hpeg hlit hcross _ =>
    right
    -- The admission goes through the same phases; the pool cross after it leaves the lit book
    -- alone.
    rcases addOrder_cases hadd with ⟨hfok, hfail, -⟩ | ⟨-, o₁, s₁, hpeg', hrest⟩
    · simp [hprobe hfok] at hfail
    obtain ⟨rfl, rfl⟩ := Prod.mk.inj (Except.ok.inj (hpeg.symm.trans hpeg'))
    rcases hrest with ⟨htype', -⟩ | ⟨-, o₂, s₂, hlit', hcross'⟩
    · simp [htype] at htype'
    obtain ⟨rfl, rfl⟩ := Prod.mk.inj (Except.ok.inj (hlit.symm.trans hlit'))
    exact fun x => ((pools_crossPegPools hcross').1 x).symm

/-- A midpoint is the mean where the tops fit. -/
theorem Reachable.trueMid {s : MatchingEngine} (h : s.Reachable) (hfit : s.TopsFit)
    (hmid : s.mid ≠ Prices.na) : s.TrueMid s.mid := by
  rw [Ne, h.queued.mid_eq_na_iff, not_or] at hmid
  exact (h.trueMid_iff hmid.1 hmid.2).mpr (hfit hmid.1 hmid.2)

/-- The midpoint that the service derives from the snapshot of a state with orders on both sides is
the documented one. -/
def QuoteAtMid (s : MatchingEngine) : Prop :=
  ∀ target nanoTime event,
    s.snapshotInto target BookSnapshotEvent.maxDepthLevels nanoTime = .ok event →
    s.bids.entries ≠ [] → s.asks.entries ≠ [] →
    s.TrueMid (MarketDataService.onEvent event).midpoint

/-- In a reachable state the derived midpoint is the documented one exactly where the sum of the
tops is a `long`. -/
theorem Reachable.quoteAtMid_iff {s : MatchingEngine} (h : s.Reachable) :
    s.QuoteAtMid ↔ s.TopsFit := by
  have hspec := fun target nanoTime => s.snapshotInto_spec target BookSnapshotEvent.maxDepthLevels
    nanoTime (Int.natCast_nonneg _)
  constructor
  · intro hquote hbids hasks
    -- Some slot holds a snapshot, whose midpoint is the engine's.
    obtain ⟨event, hevent, hbid, hask⟩ :=
      hspec ⟨.replicate _ 0, .replicate _ 0, .replicate _ 0, .replicate _ 0, 0, 0, 0, 0, 0⟩ 0
    have := hquote _ _ event hevent hbids hasks
    rw [midpoint_onEvent hbid hask] at this
    exact (h.trueMid_iff hbids hasks).mp this
  · intro hfit target nanoTime event hevent hbids hasks
    obtain ⟨event', hevent', hbid, hask⟩ := hspec target nanoTime
    obtain rfl := Except.ok.inj (hevent.symm.trans hevent')
    rw [midpoint_onEvent hbid hask]
    exact (h.trueMid_iff hbids hasks).mpr (hfit hbids hasks)

/-- In a run, every peg execution prints at the documented midpoint of the tops as they stand when
it prints, and every snapshot gives that midpoint. -/
def PrintsAtMid (calls : List Call) : Prop :=
  ∀ pre, pre <+: calls → (after pre).QuoteAtMid ∧
    ∀ o ref trade, pre ++ [.addOrder o] <+: calls → PegPrint (after pre) o.1 ref trade →
      ref.TrueMid trade.price

/-- A run prints at the documented midpoint exactly when the tops fit in each of its states. -/
theorem printsAtMid_iff (calls : List Call) :
    PrintsAtMid calls ↔ ∀ pre, pre <+: calls → (after pre).TopsFit := by
  constructor
  · exact fun h pre hpre => (reachable_after pre).quoteAtMid_iff.mp (h pre hpre).1
  · intro h pre hpre
    refine ⟨(reachable_after pre).quoteAtMid_iff.mpr (h pre hpre), ?_⟩
    intro o ref trade hpost hprint
    obtain ⟨hprice, hmid⟩ := hprint.price_eq
    rw [hprice]
    -- The tops at the print are those of a state of the run, before the call or after it.
    rcases hprint.ref_eq (call_after pre (.addOrder o)) with rfl | hbook
    · exact (reachable_after pre).trueMid (h pre hpre) hmid
    · rw [trueMid_congr hbook, mid_congr hbook]
      rw [mid_congr hbook] at hmid
      exact (reachable_after _).trueMid (h _ hpost) hmid

/-- A run with a bid and an ask near the largest `long`, whose sum is beyond it, and a peg on each
side. -/
def overflowCalls : List Call :=
  [.addOrder ⟨.built 1 1 .buy 10 9223372036854775700 1 .gtc 0 .limit,
    1, 1, some .buy, 10, 9223372036854775700, 1, some .gtc, 0, some .limit, rfl⟩,
   .addOrder ⟨.built 2 2 .sell 10 9223372036854775800 1 .gtc 0 .limit,
    2, 2, some .sell, 10, 9223372036854775800, 1, some .gtc, 0, some .limit, rfl⟩,
   .addOrder ⟨.built 3 3 .buy 5 Prices.na 1 .gtc 0 .pegMid,
    3, 3, some .buy, 5, Prices.na, 1, some .gtc, 0, some .pegMid, rfl⟩,
   .addOrder ⟨.built 4 4 .sell 5 Prices.na 1 .gtc 0 .pegMid,
    4, 4, some .sell, 5, Prices.na, 1, some .gtc, 0, some .pegMid, rfl⟩]

/-- In that run the two pegs trade at -58 units. -/
theorem not_printsAtMid_overflow :
    (after overflowCalls).trades.map Trade.price = [-58] ∧ ¬ PrintsAtMid overflowCalls := by
  refine ⟨by decide, fun h => ?_⟩
  let o : { o : Order // o.Constructed } := ⟨.built 4 4 .sell 5 Prices.na 1 .gtc 0 .pegMid,
    4, 4, some .sell, 5, Prices.na, 1, some .gtc, 0, some .pegMid, rfl⟩
  have hprint : PegPrint (after (overflowCalls.take 3)) o.1 (after (overflowCalls.take 3))
      ⟨1, 3, 4, 1, 1, -58, 5⟩ :=
    .matchPegPool (by decide) rfl (by decide)
  obtain ⟨hmean, -⟩ := (h (overflowCalls.take 3) (List.take_prefix _ _)).2 o _ _
    List.prefix_rfl hprint
  revert hmean
  decide

end MatchingEngine

end MatchingVenue
