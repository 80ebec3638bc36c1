import MatchingVenue.Engine.QueueOrder
import MatchingVenue.Engine.Priority
import MatchingVenue.Library.Pairing
import MatchingVenue.Market.Midpoint

/-!
# The pool cross

When an order comes to rest in the lit book and there is a midpoint then, the two peg pools are
crossed. The cross is a run of the two pools as lines against each other (`Pairs`), each from its
front, and it goes on until one is empty, so that it executes the smaller of the two totals
(`PoolsCrossed`). It names as the aggressor the peg with the later time stamp, which in a run with
increasing receipt times is the one that arrived later (`pool_cross_fair`).
-/

namespace MatchingVenue.MatchingEngine

/-- The trade of two pool heads. -/
structure CrossTrade (price : ℤ) (trade : Trade) (fill : RestingOrder × RestingOrder × ℕ) :
    Prop where
  buyOrderId : trade.buyOrderId = fill.1.orderID
  sellOrderId : trade.sellOrderId = fill.2.1.orderID
  buyParticipantId : trade.buyParticipantId = fill.1.participantID
  sellParticipantId : trade.sellParticipantId = fill.2.1.participantID
  price : trade.price = price
  quantity : trade.quantity = fill.2.2

/-- The report of a fill of two pool heads, with the later arrival as the aggressor. -/
def CrossReport (price : ℤ) (callback : Callback) (fill : RestingOrder × RestingOrder × ℕ) : Prop :=
  ∃ tradeId, callback = .onFill (crossRoles fill.1 fill.2.1 fill.2.2).1.orderID
    (crossRoles fill.1 fill.2.1 fill.2.2).2.orderID tradeId price fill.2.2
    (crossRoles fill.1 fill.2.1 fill.2.2).1.quantity

/-- The ids of the pegs that a fill finishes. -/
def finished (fill : RestingOrder × RestingOrder × ℕ) : List ℤ :=
  ([fill.1, fill.2.1].filter fun r => r.quantity = fill.2.2).map fun r => r.orderID

/-- What a pool cross does: a run of the two pools against each other, with a trade and a report for
each fill. The pegs that it finishes leave the registry, and no others. -/
structure PoolsCrossed (s t : MatchingEngine) (price : ℤ)
    (fills : List (RestingOrder × RestingOrder × ℕ)) : Prop where
  /-- The pools are run against each other, each from its front. -/
  pairs : Pairs lots lots s.pegBids s.pegAsks fills t.pegBids t.pegAsks
  /-- There is a trade for each fill. -/
  trades : ∃ trades, t.trades = s.trades ++ trades ∧ List.Forall₂ (CrossTrade price) trades fills
  /-- There is a report for each fill. -/
  reports : ∃ callbacks, t.executionListener = s.executionListener ++ callbacks ∧
    List.Forall₂ (CrossReport price) callbacks fills
  /-- The pegs that are finished leave the registry, and no other order does. -/
  registry : ∀ orderID, t.openOrders orderID = if orderID ∈ fills.flatMap finished then none
    else s.openOrders orderID
  /-- The lit book stays as it is. -/
  book : ∀ x, t.book x = s.book x

/-- A fill finishes the pegs whose quantity it is. -/
theorem mem_finished {bid ask : RestingOrder} {m : ℕ} {orderID : ℤ} :
    orderID ∈ finished (bid, ask, m) ↔
      bid.quantity = m ∧ orderID = bid.orderID ∨ ask.quantity = m ∧ orderID = ask.orderID := by
  unfold finished
  by_cases hb : bid.quantity = m
  · by_cases ha : ask.quantity = m <;> simp [hb, ha]
  · by_cases ha : ask.quantity = m <;> simp [hb, ha]

/-- What the registry holds after a fill. -/
theorem unlessDone_filled {r : RestingOrder} {m : ℕ} (hm : m ≤ r.quantity)
    (openOrders : ℤ → Option Ref) (orderID : ℤ) :
    unlessDone (r.filled m) openOrders orderID =
      if r.quantity = m ∧ orderID = r.orderID then none else openOrders orderID := by
  have hdone : (r.filled m).quantity = 0 ↔ r.quantity = m := by
    rw [quantity_filled]
    omega
  unfold unlessDone
  simp only [hdone]
  split_ifs with hq hboth hboth
  · rw [hboth.2]
    exact Function.update_self ..
  · exact Function.update_of_ne (fun hid => hboth ⟨hq, hid⟩) ..
  · exact absurd hboth.1 hq
  · rfl

/-- A peg queue after a fill at its head is what is left of the head, and the others. -/
theorem pegQueue_eq_rest (r : RestingOrder) (behind : List RestingOrder) :
    pegQueue r behind = lots.rest r ++ behind := by
  unfold pegQueue Lots.rest
  show (if r.quantity = 0 then behind else r :: behind) =
    (if r.quantity = 0 then [] else [r]) ++ behind
  split_ifs <;> rfl

/-- One more fill of the two heads. -/
theorem PoolsCrossed.step {s u v : MatchingEngine} {mid : ℤ}
    {fills : List (RestingOrder × RestingOrder × ℕ)} (h : PoolsCrossed s u mid fills)
    (hbody : crossPegPoolsBody mid u = .ok (some v)) :
    ∃ fill, PoolsCrossed s v mid (fills ++ [fill]) ∧ fill.1 ∈ u.pegBids ∧ fill.2.1 ∈ u.pegAsks := by
  obtain ⟨bid, bids, ask, asks, m, hbids, hasks, hm, hpos, rfl⟩ := crossPegPoolsBody_some hbody
  obtain ⟨trades, htrades, hprints⟩ := h.trades
  obtain ⟨callbacks, hlistener, hreports⟩ := h.reports
  refine ⟨(bid, ask, m), ⟨?_, ?_, ?_, ?_, ?_⟩, by simp [hbids], by simp [hasks]⟩
  · have hpairs := h.pairs
    rw [hbids, hasks] at hpairs
    have hnext := hpairs.take hm hpos
    rw [← pegQueue_eq_rest, ← pegQueue_eq_rest] at hnext
    have hb := pool_settleHead_of_ne
      (settleHead (u.recordTrade (bid.filled m).toOrder (ask.filled m).toOrder
      (crossRoles bid ask m).1.toOrder (crossRoles bid ask m).2.toOrder mid m) .buy
        (bid.filled m) bids) .sell
      (ask.filled m) asks (x := .buy) (by decide)
    rw [pool_settleHead] at hb
    have ha :=
      pool_settleHead (settleHead (u.recordTrade (bid.filled m).toOrder (ask.filled m).toOrder
      (crossRoles bid ask m).1.toOrder (crossRoles bid ask m).2.toOrder mid m) .buy
        (bid.filled m) bids) .sell
      (ask.filled m) asks
    simp only [pool] at hb ha
    rw [hb, ha]
    exact hnext
  · refine ⟨trades ++ [u.crossTrade mid m (bid.filled m).toOrder (ask.filled m).toOrder], ?_, ?_⟩
    · rw [trades_settleHead, trades_settleHead, trades_recordTrade, htrades, List.append_assoc]
    · exact List.rel_append hprints (.cons ⟨rfl, rfl, rfl, rfl, rfl, rfl⟩ .nil)
  · refine ⟨callbacks ++ [.onFill (crossRoles bid ask m).1.orderID (crossRoles bid ask m).2.orderID
      (toLong (u.tradeIDCounter + 1)) mid m (crossRoles bid ask m).1.quantity], ?_, ?_⟩
    · rw [executionListener_settleHead, executionListener_settleHead,
        executionListener_recordTrade, hlistener, List.append_assoc]
    · exact List.rel_append hreports (.cons ⟨_, rfl⟩ .nil)
  · intro orderID
    rw [openOrders_settleHead, openOrders_settleHead, openOrders_recordTrade,
      unlessDone_filled (by omega), unlessDone_filled (by omega), h.registry]
    simp only [List.flatMap_append, List.flatMap_singleton, List.mem_append, mem_finished]
    by_cases hask : ask.quantity = m ∧ orderID = ask.orderID
    · simp only [hask, and_self, or_true, if_true]
    by_cases hbid : bid.quantity = m ∧ orderID = bid.orderID
    · simp only [hbid, and_self, or_true, true_or, if_true, ite_self]
    · simp only [hask, hbid, or_false, if_false]
  · intro x
    rw [book_settleHead, book_settleHead, book_recordTrade]
    exact h.book x

/-- The pool cross where there is a midpoint: it goes on until a pool is empty. What holds of the
pegs of a side, however much of them is left, holds of the pegs that it fills. -/
theorem crossPegPools_crossed {P : Side → Order → Prop}
    (hfill : ∀ side o m, P side o → P side (o.filled m)) {s t : MatchingEngine}
    (hmid : s.mid ≠ Prices.na) (h : s.crossPegPools = .ok t)
    (hP : ∀ side, ∀ r ∈ s.pool side, P side r.toOrder) :
    ∃ fills, PoolsCrossed s t s.mid fills ∧ (t.pegBids = [] ∨ t.pegAsks = []) ∧
      ∀ fill ∈ fills, P .buy fill.1.toOrder ∧ P .sell fill.2.1.toOrder := by
  simp only [crossPegPools] at h
  rw [if_neg hmid] at h
  have hinv := whileLoop_inv h (fun u => (∃ fills, PoolsCrossed s u s.mid fills ∧
      ∀ fill ∈ fills, P .buy fill.1.toOrder ∧ P .sell fill.2.1.toOrder) ∧ ∀ side, ∀ r ∈ u.pool side,
        P side r.toOrder)
    ⟨⟨[], ⟨.start, ⟨[], by simp, .nil⟩, ⟨[], by simp, .nil⟩, by simp, fun _ => rfl⟩, by simp⟩, hP⟩
      ?_
  · obtain ⟨⟨⟨fills, hcrossed, hfills⟩, -⟩, hend⟩ := hinv
    exact ⟨fills, hcrossed, crossPegPoolsBody_none hend, hfills⟩
  rintro u v ⟨⟨fills, hcrossed, hfills⟩, hu⟩ hbody
  obtain ⟨fill, hnext, hbid, hask⟩ := hcrossed.step hbody
  refine ⟨⟨fills ++ [fill], hnext, ?_⟩, ?_⟩
  · rw [List.forall_mem_append, List.forall_mem_singleton]
    exact ⟨hfills, hu .buy _ hbid, hu .sell _ hask⟩
  obtain ⟨bid, bids, ask, asks, m, hbids, hasks, -, -, rfl⟩ := crossPegPoolsBody_some hbody
  have hsettled : ∀ {x : Side} {r : RestingOrder} {behind : List RestingOrder},
      u.pool x = r :: behind →
      ∀ y ∈ pegQueue (r.filled m) behind, P x y.toOrder := by
    intro x r behind hpool y hy
    have hold := hu x
    rw [hpool, List.forall_mem_cons] at hold
    rcases mem_pegQueue hy with rfl | hy
    · exact hfill x _ m hold.1
    · exact hold.2 y hy
  rw [forall_side .sell]
  constructor
  · rw [pool_settleHead]
    exact hsettled (x := .sell) hasks
  · rw [pool_settleHead_of_ne _ _ _ _ (by decide), Side.opposite, pool_settleHead]
    exact hsettled (x := .buy) hbids

/-! ## The cross of a run -/

/-- A limit order is admitted and comes to rest in the lit book: `u` is the engine when what is left
of it has been acknowledged, before the pools are crossed. -/
def ComesToRest (s : MatchingEngine) (o : Order) (u : MatchingEngine) : Prop :=
  o.ordType = .limit ∧ o.tif = .gtc ∧ ∃ o₁ s₁ o₂ s₂, pegStep o s = .ok (o₁, s₁) ∧
    matchLit o.side o₁ s₁ = .ok (o₂, s₂) ∧ 0 < o₂.quantity ∧ u = (s₂.addToBook o₂).onAccepted o₂

/-- The end of the admission of an order that comes to rest is the pool cross. -/
theorem ComesToRest.crosses {s t u : MatchingEngine} {o : Order} (h : ComesToRest s o u)
    (hadd : s.addOrder o = .ok t) :
    u.crossPegPools = .ok t := by
  obtain ⟨htype, htif, o₁, s₁, o₂, s₂, hpeg, hlit, hleft, rfl⟩ := h
  have htif₂ := ((pegStep_filledFrom hpeg).trans (matchLit_filledFrom hlit)).tif.trans htif
  have hcross := addOrder_limit_end hadd htype
    (fun hfok => absurd (htif.symm.trans hfok) (by decide)) hpeg hlit
  unfold disposeLit at hcross
  rwa [if_pos ⟨hleft, htif₂⟩] at hcross

/-- Up to the pool cross, the admission takes the steps that every admission takes. -/
theorem ComesToRest.steps {s u : MatchingEngine} {o : Order} (h : ComesToRest s o u) (hq : s.Queued)
    (hv : o.Valid) :
    u.Queued ∧ Steps (some o, s) (none, u) := by
  obtain ⟨htype, htif, o₁, s₁, o₂, s₂, hpeg, hlit, hleft, rfl⟩ := h
  have hfrom₁ := pegStep_filledFrom hpeg
  have hfrom₂ := hfrom₁.trans (matchLit_filledFrom hlit)
  have hq₁ := hq.pegStep hpeg
  have hsteps : Steps (some o, s) (some o₂, s₂) :=
    (pegStep_steps hq hpeg).trans (matchLit_steps hq₁ (by rw [hfrom₁.side]; exact hlit))
  have hrests : (s₂.addToBook o₂).onAccepted o₂ = s₂.disposeLit o₂ :=
    (if_pos ⟨hleft, hfrom₂.tif.trans htif⟩).symm
  rw [hrests]
  exact ⟨(hq₁.matchLit hlit).disposeLit (hfrom₂.valid hv) (hfrom₂.ordType.trans htype),
    hsteps.tail (disposeLit_step s₂ o₂)⟩

/-- Of two pegs on the two sides, the one that the cross names as the aggressor arrived after the
other one, where the receipt times of the arrivals go up. -/
theorem crossRoles_ahead {arrived : List Order}
    (htimes : (arrived.map fun o => o.timeStamp).Pairwise fun x y => x < y)
    {bid ask : RestingOrder} (m : ℕ)
    (hbid : bid.side = .buy ∧ ∃ o ∈ arrived, FilledFrom o bid.toOrder)
    (hask : ask.side = .sell ∧ ∃ o ∈ arrived, FilledFrom o ask.toOrder) :
    Ahead (arrived.map fun o => o.orderID) (crossRoles bid ask m).2.orderID
      (crossRoles bid ask m).1.orderID := by
  obtain ⟨hbuy, b, hb, hfromb⟩ := hbid
  obtain ⟨hsell, a, ha, hfroma⟩ := hask
  have hnodup : (arrived.map fun o => o.timeStamp).Nodup := htimes.imp ne_of_lt
  have hts : bid.timeStamp ≠ ask.timeStamp := by
    intro heq
    rw [hfromb.timeStamp, hfroma.timeStamp] at heq
    -- One arrival at that time, which would be on both sides.
    obtain rfl := List.inj_on_of_nodup_map hnodup hb ha heq
    have hside := hfromb.side.trans hfroma.side.symm
    rw [hbuy, hsell] at hside
    exact absurd hside (by decide)
  unfold crossRoles laterArrival
  rw [if_pos hts]
  rcases lt_or_gt_of_ne hts with hlt | hgt
  · rw [decide_eq_false (not_lt_of_gt hlt), if_neg Bool.false_ne_true]
    show Ahead _ bid.orderID ask.orderID
    rw [hfromb.orderID, hfroma.orderID]
    have hahead := ahead_of_lt htimes hb ha (by rwa [hfromb.timeStamp, hfroma.timeStamp] at hlt)
    exact hahead.map _
  · rw [decide_eq_true hgt, if_pos rfl]
    show Ahead _ ask.orderID bid.orderID
    rw [hfromb.orderID, hfroma.orderID]
    have hahead := ahead_of_lt htimes ha hb (by rwa [hfromb.timeStamp, hfroma.timeStamp] at hgt)
    exact hahead.map _

/-- A pool holds each peg once. -/
theorem nodup_pool {s : MatchingEngine} (hi : Identified s.resting s.openOrders s.nextRef)
    (side : Side) :
    (refs (s.pool side)).Nodup := by
  have hperm := ((s.resting_perm_pools side).map fun r => r.ref).nodup_iff.mp hi.nodup
  rw [List.map_append] at hperm
  exact (List.nodup_append.mp hperm).1

/-- A pool cross that is complete and fair. It executes the smaller of the two totals, from the
front of each pool, and what is left of the longer one keeps its order; the aggressor of each fill
arrived after the passive peg; a peg that is executed in full leaves its pool and the registry, and
the pegs that stay are registered. -/
structure CrossedFairly (arrived : List ℤ) (u t : MatchingEngine)
    (fills : List (RestingOrder × RestingOrder × ℕ)) :
    Prop where
  /-- The cross is a run of the two pools against each other. -/
  crossed : PoolsCrossed u t u.mid fills
  /-- It executes the smaller of the two totals. -/
  total : takenTotal fills = min (quantityOf u.pegBids) (quantityOf u.pegAsks)
  /-- Each pool is taken from its front. -/
  fifo : ∀ side, t.pool side = lots.left (takenTotal fills) (u.pool side)
  /-- The aggressor of a fill arrived after the other order. -/
  roles : ∀ fill ∈ fills, Ahead arrived (crossRoles fill.1 fill.2.1 fill.2.2).2.orderID
    (crossRoles fill.1 fill.2.1 fill.2.2).1.orderID
  /-- A buy peg that is filled leaves the pool and the registry. -/
  bidGone : ∀ fill ∈ fills, fill.1.quantity = fill.2.2 →
    fill.1.ref ∉ refs t.pegBids ∧ t.openOrders fill.1.orderID = none
  /-- A sell peg that is filled leaves the pool and the registry. -/
  askGone : ∀ fill ∈ fills, fill.2.1.quantity = fill.2.2 →
    fill.2.1.ref ∉ refs t.pegAsks ∧ t.openOrders fill.2.1.orderID = none
  /-- What is left is registered. -/
  left : ∀ side, ∀ r ∈ t.pool side, t.openOrders r.orderID = some r.ref

/-- Where a run with distinct ids and increasing receipt times ends with a lit order that comes to
rest, and there is a midpoint then, the pools are crossed completely and fairly, and the lit book
stays as it is. It does not matter whether there was a midpoint before. -/
theorem pool_cross_fair (calls : List Call) (order : { o : Order // o.Constructed })
    (hids : ((added (calls ++ [.addOrder order])).map fun o => o.orderID).Nodup)
    (htimes : ((added (calls ++ [.addOrder order])).map fun o => o.timeStamp).Pairwise fun x y =>
    x < y)
    {u : MatchingEngine} (hrests : ComesToRest (after calls) order.1 u) (hmid : u.mid ≠ Prices.na) :
    u.crossPegPools = .ok (after (calls ++ [.addOrder order])) ∧
      (∀ side, (after (calls ++ [.addOrder order])).book side = u.book side) ∧
      ∃ fills, CrossedFairly ((added (calls ++ [.addOrder order])).map fun o => o.orderID) u
        (after (calls ++ [.addOrder order])) fills := by
  have hr := reachable_after calls
  have hcross := hrests.crosses (addOrder_after calls order)
  obtain ⟨hq, hsteps⟩ := hrests.steps hr.queued order.2.valid.1
  have hi := hsteps.identified hr.identified
  have hlawful := lawful_of_nodup _ hids
  refine ⟨hcross, (pools_crossPegPools hcross).1, ?_⟩
  have harrived := origin_of_steps (origin calls) hsteps
  obtain ⟨fills, hcrossed, hend, hfills⟩ := crossPegPools_crossed
    (P := fun side a => a.side = side ∧ ∃ o ∈ added (calls ++ [.addOrder order]), FilledFrom o a)
    (fun side a m ⟨hside, o, ho, hfrom⟩ => ⟨hside, o, ho, hfrom.filled m⟩) hmid hcross
    fun side r hmem =>
      ⟨(hq.pool side r hmem).side_eq, harrived r (mem_resting.mpr ⟨side, .inr hmem⟩)⟩
  have hpos : ∀ side, ∀ r ∈ u.pool side, 0 < lots.size r := fun side r hmem =>
    (hq.pool side r hmem).quantity_pos
  have hrefs : ∀ side, ((u.pool side).map fun r => r.ref).Nodup := fun side =>
    nodup_pool hi side
  obtain ⟨hbids, hasks⟩ := hcrossed.pairs.left_eq (hpos .buy) (hpos .sell)
  have hbidsGone := hcrossed.pairs.gone (fun _ _ => rfl) (hrefs .buy)
  have hasksGone := hcrossed.pairs.swap.gone (fun _ _ => rfl) (hrefs .sell)
  refine ⟨fills, hcrossed, hcrossed.pairs.total_eq hend, (forall_side .buy).mpr ⟨hbids, hasks⟩,
    ?_, ?_, ?_, ?_⟩
  · exact fun fill hfill => crossRoles_ahead htimes _ (hfills fill hfill).1 (hfills fill hfill).2
  · intro fill hfill hall
    refine ⟨hbidsGone.2 fill hfill hall, ?_⟩
    rw [hcrossed.registry,
      if_pos (List.mem_flatMap.mpr ⟨fill, hfill, mem_finished.mpr (.inl ⟨hall, rfl⟩)⟩)]
  · intro fill hfill hall
    refine ⟨hasksGone.2 _ (List.mem_map_of_mem hfill) hall, ?_⟩
    rw [hcrossed.registry,
      if_pos (List.mem_flatMap.mpr ⟨fill, hfill, mem_finished.mpr (.inr ⟨hall, rfl⟩)⟩)]
  · exact fun side r hmem => hlawful r (mem_resting.mpr ⟨side, .inr hmem⟩)

/-- Two bid pegs, an ask peg as large as the first one and half of the second one, and a bid that
rests alone. -/
def crossedCalls : List Call :=
  [.addOrder ⟨.built 1 1 .buy 30 Prices.na 1 .gtc 0 .pegMid,
    1, 1, some .buy, 30, Prices.na, 1, some .gtc, 0, some .pegMid, rfl⟩,
   .addOrder ⟨.built 2 2 .sell 40 Prices.na 2 .gtc 0 .pegMid,
    2, 2, some .sell, 40, Prices.na, 2, some .gtc, 0, some .pegMid, rfl⟩,
   .addOrder ⟨.built 3 3 .buy 20 Prices.na 3 .gtc 0 .pegMid,
    3, 3, some .buy, 20, Prices.na, 3, some .gtc, 0, some .pegMid, rfl⟩,
   .addOrder ⟨.built 4 4 .buy 10 9900 4 .gtc 0 .limit,
    4, 4, some .buy, 10, 9900, 4, some .gtc, 0, some .limit, rfl⟩]

/-- The ask at the end gives `crossedCalls` a midpoint. The ask peg is the aggressor against the
older bid peg, and the passive one against the newer. -/
theorem pool_cross_fair_crossed : ∃ u fills,
    ComesToRest (after crossedCalls) (.built 5 5 .sell 10 10100 5 .gtc 0 .limit) u ∧
      CrossedFairly [1, 2, 3, 4, 5] u (after (crossedCalls ++
        [.addOrder ⟨.built 5 5 .sell 10 10100 5 .gtc 0 .limit,
          5, 5, some .sell, 10, 10100, 5, some .gtc, 0, some .limit, rfl⟩])) fills ∧
            takenTotal fills = 40 := by
  have hrests : ComesToRest (after crossedCalls) (.built 5 5 .sell 10 10100 5 .gtc 0 .limit)
      (((after crossedCalls).addToBook (.built 5 5 .sell 10 10100 5 .gtc 0 .limit)).onAccepted
        (.built 5 5 .sell 10 10100 5 .gtc 0 .limit)) :=
    ⟨rfl, rfl, _, _, _, _, rfl, rfl, by decide, rfl⟩
  obtain ⟨-, -, fills, hfair⟩ := pool_cross_fair crossedCalls
    ⟨.built 5 5 .sell 10 10100 5 .gtc 0 .limit, 5, 5, some .sell, 10, 10100, 5, some .gtc, 0,
      some .limit, rfl⟩ (by decide) (by decide) hrests (by decide)
  exact ⟨_, fills, hrests, hfair, hfair.total⟩

end MatchingVenue.MatchingEngine
