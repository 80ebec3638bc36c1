import MatchingVenue.Market.Midpoint
import MatchingVenue.Engine.Collisions

/-!
# Limit protection

A limit order first takes the pegs of the other side at the midpoint, where it reaches it, and then
walks the lit book. It never trades beyond its limit, and its prices get no better on the way: the
midpoint is no worse than any lit level, and the walk takes the levels best first. What is left of
it finds nothing more within its limit (`limit_protected`).
-/

namespace MatchingVenue

/-- Whether a price is no worse for an incoming order of a side than another: no higher for a buy,
and no lower for a sell. -/
def NoWorse : Side → ℤ → ℤ → Prop
  | .buy, p, q => p ≤ q
  | .sell, p, q => q ≤ p

/-- No price is worse than itself. -/
theorem NoWorse.refl (side : Side) (p : ℤ) : NoWorse side p p := by
  cases side <;> exact le_refl p

/-- A better level of the other side is no worse. -/
theorem Better.noWorse {side : Side} {p q : ℤ} (h : Better side.opposite p q) :
    NoWorse side p q := by
  cases side <;> exact le_of_lt h

namespace MatchingEngine

/-- A price is marketable where it is no worse than the limit. -/
theorem marketable_iff {side : Side} {limit price : ℤ} :
    marketable side limit price = true ↔ NoWorse side price limit := by
  cases side <;> exact decide_eq_true_iff

/-- A midpoint is crossed where it is no worse than the limit. -/
theorem crossesMid_iff {side : Side} {limit mid : ℤ} :
    crossesMid side limit mid = true ↔ NoWorse side mid limit := by
  cases side <;> exact decide_eq_true_iff

/-! ## The midpoint against the lit book -/

/-- The prices of the resting orders are `long`s. -/
def LongPriced (s : MatchingEngine) : Prop := ∀ r ∈ s.resting, r.price ≤ longMax

/-- The first level is no worse than any other. -/
theorem noWorse_of_first {s : MatchingEngine} {side : Side} {p : ℤ} {queue : List RestingOrder}
    {levels : List (ℤ × List RestingOrder)}
    (h : (s.book side.opposite).entries = (p, queue) :: levels) :
    ∀ key ∈ (s.book side.opposite).keys, NoWorse side p key := by
  intro key hkey
  obtain ⟨level, hlevel⟩ := SortedMap.mem_keys.mp hkey
  rw [h] at hlevel
  rcases List.mem_cons.mp hlevel with heq | hrest
  · obtain ⟨rfl, -⟩ := Prod.mk.inj heq
    exact .refl side _
  · exact (SortedMap.lt_of_mem_rest h hrest).noWorse

/-- Half of a sum, in 64 bits, is no more than half of it, and it is half of it where it is
positive. -/
theorem tdiv_toLong_bounds {bid ask : ℤ} (hbid : 0 < bid) (hlt : bid < ask) :
    (toLong (bid + ask)).tdiv 2 ≤ ask ∧
      (ask ≤ longMax → 0 < (toLong (bid + ask)).tdiv 2 → bid ≤ (toLong (bid + ask)).tdiv 2) := by
  obtain ⟨k, hk⟩ := toLong_eq_sub (bid + ask)
  have hle := toLong_le (bid + ask)
  generalize toLong (bid + ask) = x at hk hle ⊢
  unfold longMax at hle ⊢
  rcases Int.lt_or_le x 0 with hneg | hnonneg
  · -- The sum has wrapped around.
    have hhalf : x.tdiv 2 ≤ 0 := Int.tdiv_le_tdiv (by decide) hneg.le
    exact ⟨by omega, fun _ hpos => by omega⟩
  · rw [Int.tdiv_eq_ediv_of_nonneg hnonneg]
    exact ⟨by omega, fun hlong hpos => by omega⟩

/-- The midpoint that an order reaches is no worse for it than any level of the other side. -/
theorem mid_noWorse {s : MatchingEngine} (hs : s.Reachable) (hlong : s.LongPriced)
    {side : Side} {limit : ℤ} (hlimit : 0 < limit) (hmid : s.mid ≠ Prices.na)
    (hreach : NoWorse side s.mid limit) :
    ∀ key ∈ (s.book side.opposite).keys, NoWorse side s.mid key := by
  have hq := hs.queued
  have hboth : s.bids.entries ≠ [] ∧ s.asks.entries ≠ [] := by
    by_contra hnone
    refine hmid (hq.mid_eq_na_iff.mpr ?_)
    tauto
  obtain ⟨⟨bid, bids⟩, restBids, hbids⟩ := List.exists_cons_of_ne_nil hboth.1
  obtain ⟨⟨ask, asks⟩, restAsks, hasks⟩ := List.exists_cons_of_ne_nil hboth.2
  have hlt : bid < ask := hs.uncrossed bid (by simp [hbids]) ask (by simp [hasks])
  have hpos : 0 < bid := (hq.level_price .buy (bid, bids) (by simp [book, hbids])).1
  have hlongAsk : ask ≤ longMax := by
    obtain ⟨hne, hat⟩ := hq.level .sell (ask, asks) (by simp [book, hasks])
    obtain ⟨r, hr⟩ := List.exists_mem_of_ne_nil _ hne
    have hprice : r.price = ask := (hat r hr).price_eq
    rw [← hprice]
    refine hlong r (mem_resting.mpr ⟨.sell, .inl (mem_orders.mpr ⟨(ask, asks), ?_, hr⟩)⟩)
    simp [book, hasks]
  have hvalue : s.mid = (toLong (bid + ask)).tdiv 2 := by
    rw [← getBestBid_eq hbids, ← getBestAsk_eq hasks]
    exact mid_eq_of_ne (by rw [getBestBid_eq hbids, Prices.na]; omega)
      (by rw [getBestAsk_eq hasks, Prices.na]; omega)
  obtain ⟨hbelow, habove⟩ := tdiv_toLong_bounds hpos hlt
  rw [← hvalue] at hbelow habove
  intro key hkey
  cases side with
  | buy =>
    have hlevels : (s.book Side.buy.opposite).entries = (ask, asks) :: restAsks := hasks
    exact le_trans hbelow (noWorse_of_first hlevels key hkey)
  | sell =>
    -- A sell reaches the midpoint from a positive limit, so the sum has not wrapped around.
    have hpositive : 0 < s.mid := lt_of_lt_of_le hlimit hreach
    have hlevels : (s.book Side.sell.opposite).entries = (bid, bids) :: restBids := hbids
    exact le_trans (noWorse_of_first hlevels key hkey) (habove hlongAsk hpositive)

/-! ## The trades of the order -/

/-- A trade of an incoming order with a resting one of the other side. -/
structure TradesWith (o : Order) (r : RestingOrder) (trade : Trade) : Prop where
  /-- The order trades with the other side. -/
  side : r.side = o.side.opposite
  /-- The buyer is the one that buys. -/
  ids : (trade.buyOrderId, trade.sellOrderId) =
    if o.side = .buy then (o.orderID, r.orderID) else (r.orderID, o.orderID)

/-- What a loop over resting orders of a kind has made of an order and the engine: `prints` are the
trades, each with an order that rested at first, at a price that `Priced` allows it. -/
structure Taking (Priced : Order → ℤ → Prop) (o : Order) (s : MatchingEngine) (u : Order)
    (t : MatchingEngine) (prints : List Trade) : Prop where
  /-- The engine stays well formed. -/
  queued : t.Queued
  /-- Fills are all that happens to the order. -/
  from_order : FilledFrom o u
  /-- No order comes to rest. -/
  descends : ∀ x ∈ t.resting, ∃ r ∈ s.resting, FilledFrom r.toOrder x.toOrder
  /-- The trades are appended to the old ones. -/
  trades : t.trades = s.trades ++ prints
  /-- Each trade is with an order that rested, at a price that it is allowed. -/
  own : ∀ trade ∈ prints, ∃ r ∈ s.resting, Priced r.toOrder trade.price ∧ TradesWith o r trade

/-- A trade of what the order and the resting order have become is a trade of them. -/
theorem TradesWith.of_filledFrom {o o₁ : Order} {r x : RestingOrder} {trade : Trade}
    (h : TradesWith o₁ x trade) (ho : FilledFrom o o₁) (hr : FilledFrom r.toOrder x.toOrder) :
    TradesWith o r trade := by
  have hside : r.side = o₁.side.opposite := hr.side.symm.trans h.side
  have hid : x.orderID = r.orderID := hr.orderID
  refine ⟨by rw [hside, ho.side], ?_⟩
  rw [h.ids, ho.side, ho.orderID, hid]

/-- Before its first fill a loop has taken nothing. -/
theorem Taking.start {Priced : Order → ℤ → Prop} {o : Order} {s : MatchingEngine} (hq : s.Queued) :
    Taking Priced o s o s [] :=
  ⟨hq, .refl o, fun x hx => ⟨x, hx, .refl _⟩, (List.append_nil _).symm, by simp⟩

/-- A fill of a resting order is one trade more. -/
theorem Taking.hit {Priced : Order → ℤ → Prop} {o u v : Order} {s t t' : MatchingEngine}
    {prints : List Trade} (h : Taking Priced o s u t prints) (hq : t'.Queued)
    (hstep : Step (some u, t) (some v, t')) {r : RestingOrder}
    (hr : r ∈ t.resting) (hside : r.side = o.side.opposite) (price : ℤ) {m : ℕ}
    (hv : v = u.filled m) (htrades : t'.trades = t.trades ++ [t.fillTrade u r.toOrder price m])
    (hpriced : ∀ b, FilledFrom b r.toOrder → Priced b price) :
    Taking Priced o s v t' (prints ++ [t.fillTrade u r.toOrder price m]) := by
  obtain ⟨b, hb, hfrom⟩ := h.descends r hr
  refine ⟨hq, hv ▸ h.from_order.filled m, ?_, ?_, ?_⟩
  · intro x hx
    obtain ⟨y, hy, -, hyx⟩ := hstep.descends hx
    obtain ⟨z, hz, hzy⟩ := h.descends y hy
    exact ⟨z, hz, hzy.trans hyx⟩
  · rw [htrades, h.trades, List.append_assoc]
  · refine List.forall_mem_append.mpr ⟨h.own, List.forall_mem_singleton.mpr ⟨b, hb, ?_, ?_⟩⟩
    · rw [fillTrade_price]
      exact hpriced _ hfrom
    · refine ⟨hfrom.side.symm.trans hside, ?_⟩
      rw [fillTrade, h.from_order.side, h.from_order.orderID, ← hfrom.orderID]
      cases o.side <;> rfl

/-- The walk over a pool trades with pegs, at the midpoint that it was given. -/
theorem matchPegPool_taking {mid : ℤ} {o o' : Order} {s s' : MatchingEngine} (hq : s.Queued)
    (h : matchPegPool o mid s = .ok (o', s')) :
    ∃ prints, Taking (fun b price => b.ordType = .pegMid ∧ price = mid) o s o' s' prints := by
  refine (whileLoop_inv h (fun x => ∃ prints,
    Taking (fun b price => b.ordType = .pegMid ∧ price = mid) o s x.1 x.2
    prints) ⟨[], .start hq⟩ ?_).1
  rintro ⟨u, t⟩ ⟨v, t'⟩ ⟨prints, htaking⟩ hbody
  have hstep := matchPegPoolBody_step htaking.queued hbody
  have hq' := htaking.queued.matchPegPoolBody hbody
  obtain ⟨r, behind, m, hpool, -, -, hv, rfl⟩ := matchPegPoolBody_some hbody
  have hmem : r ∈ t.pool u.side.opposite := by
    rw [hpool]
    exact List.mem_cons_self
  have hat := htaking.queued.pool _ r hmem
  refine ⟨_, htaking.hit hq' hstep (mem_resting.mpr ⟨_, .inr hmem⟩) ?_ mid hv ?_ ?_⟩
  · rw [hat.side_eq, htaking.from_order.side]
  · rw [trades_settleHead, trades_recordFill]
    rfl
  · exact fun b hfrom => ⟨hfrom.ordType.symm.trans hat.ordType_eq, rfl⟩

/-- The peg step trades with pegs at the midpoint only. -/
theorem pegStep_taking {o o' : Order} {s s' : MatchingEngine} (hq : s.Queued)
    (h : pegStep o s = .ok (o', s')) :
    ∃ prints, Taking (fun b price => b.ordType = .pegMid ∧ price = s.mid) o s o' s' prints := by
  simp only [pegStep] at h
  split_ifs at h
  · exact matchPegPool_taking hq h
  · obtain ⟨rfl, rfl⟩ := Prod.mk.inj (Except.ok.inj h)
    exact ⟨[], .start hq⟩

/-- The trades of a walk over the lit book so far: none is beyond the limit, they get no better, and
none is worse than a level that is left. -/
structure Sorted (o : Order) (t : MatchingEngine) (prints : List Trade) : Prop where
  /-- No trade is worse than the limit. -/
  limit : ∀ trade ∈ prints, NoWorse o.side trade.price o.price
  /-- No level that is left is better than a trade. -/
  ahead : ∀ trade ∈ prints, ∀ key ∈ (t.book o.side.opposite).keys, NoWorse o.side trade.price key
  /-- No trade is better than one before it. -/
  pairwise : prints.Pairwise fun a b => NoWorse o.side a.price b.price

/-- The lit walk trades with limit orders, each at its own price, within the limit and best
first. -/
theorem matchLit_taking {o o' : Order} {s s' : MatchingEngine} (hq : s.Queued)
    (h : matchLit o.side o s = .ok (o', s')) :
    ∃ prints, Taking (fun b price => b.ordType = .limit ∧ price = b.price) o s o' s' prints ∧
      Sorted o s' prints := by
  refine (whileLoop_inv h (fun x => ∃ prints,
    Taking (fun b price => b.ordType = .limit ∧ price = b.price) o s x.1 x.2
    prints ∧ Sorted o x.2 prints) ⟨[], .start hq, by simp, by simp, .nil⟩ ?_).1
  rintro ⟨u, t⟩ ⟨v, t'⟩ ⟨prints, htaking, hsorted⟩ hbody
  have hfrom := htaking.from_order
  have hbody' : matchLitBody u.side (u, t) = .ok (some (v, t')) := by
    rw [hfrom.side]
    exact hbody
  have hstep := matchLitBody_step htaking.queued hbody'
  have hq' := htaking.queued.matchLitBody hbody
  have hkeys := (keys_matchLitBody hbody).2.2
  obtain ⟨p, r, behind, levels, m, hentries, hmarket, -, -, -, hv, rfl⟩ := matchLitBody_some hbody
  have hlevel : (p, r :: behind) ∈ (t.book o.side.opposite).entries := by
    rw [hentries]
    exact List.mem_cons_self
  have hat : RestingOrder.RestsAt o.side.opposite p r :=
    (htaking.queued.level _ _ hlevel).2 r List.mem_cons_self
  have hmem : r ∈ t.resting :=
    mem_resting.mpr ⟨_, .inl (mem_orders.mpr ⟨_, hlevel, List.mem_cons_self⟩)⟩
  have hwithin : NoWorse o.side p o.price := by
    rw [← marketable_iff, ← hfrom.price]
    exact hmarket
  have hfirst := noWorse_of_first hentries
  have hkey : p ∈ (t.book o.side.opposite).keys := SortedMap.mem_keys.mpr ⟨_, hlevel⟩
  refine ⟨_, htaking.hit hq' hstep hmem hat.side_eq p hv ?_ ?_, ?_, ?_, ?_⟩
  · rw [trades_settleLit, trades_recordFill]
    rfl
  · exact fun b hb => ⟨hb.ordType.symm.trans hat.ordType_eq, hat.price_eq.symm.trans hb.price⟩
  · refine List.forall_mem_append.mpr ⟨hsorted.limit, List.forall_mem_singleton.mpr ?_⟩
    rw [fillTrade_price]
    exact hwithin
  · -- The levels that are left are among those before, of which this one was the best.
    refine List.forall_mem_append.mpr ⟨fun trade htrade key hmem =>
      hsorted.ahead trade htrade key (hkeys hmem), List.forall_mem_singleton.mpr fun key hmem => ?_⟩
    rw [fillTrade_price]
    exact hfirst key (hkeys hmem)
  · refine List.pairwise_append.mpr ⟨hsorted.pairwise, List.pairwise_singleton _ _,
      fun trade htrade next hnext => ?_⟩
    obtain rfl := List.mem_singleton.mp hnext
    rw [fillTrade_price]
    exact hsorted.ahead trade htrade p hkey

/-! ## The pool cross -/

/-- A trade of two resting pegs. -/
def TradesPegs (s : MatchingEngine) (trade : Trade) : Prop :=
  ∃ bid ∈ s.pool .buy, ∃ ask ∈ s.pool .sell, trade.buyOrderId = bid.orderID ∧
    trade.sellOrderId = ask.orderID

/-- The pool cross trades pegs that rested with each other. -/
theorem crossPegPools_pegs {s t : MatchingEngine} (h : s.crossPegPools = .ok t) :
    ∃ prints, t.trades = s.trades ++ prints ∧ ∀ trade ∈ prints, s.TradesPegs trade := by
  simp only [crossPegPools] at h
  split_ifs at h
  · obtain rfl := Except.ok.inj h
    exact ⟨[], (List.append_nil _).symm, by simp⟩
  -- Every peg that is left has the id of one that was there.
  refine whileLoop_log h (fun v => ∀ x, ∀ r ∈ v.pool x, ∃ b ∈ s.pool x, b.orderID = r.orderID)
    (fun v => v.trades) s.TradesPegs (fun x r hr => ⟨r, hr, rfl⟩) ?_
  intro u v hids hbody
  obtain ⟨bid, bids, ask, asks, m, hbids, hasks, -, -, rfl⟩ := crossPegPoolsBody_some hbody
  have hbid : ∀ r ∈ bid :: bids, ∃ b ∈ s.pool .buy, b.orderID = r.orderID := by
    rw [← hbids]
    exact hids .buy
  have hask : ∀ r ∈ ask :: asks, ∃ b ∈ s.pool .sell, b.orderID = r.orderID := by
    rw [← hasks]
    exact hids .sell
  refine ⟨fun x r hr => ?_, u.crossTrade s.mid m (bid.filled m).toOrder (ask.filled m).toOrder, ?_,
    ?_⟩
  · cases x with
    | buy =>
      rw [pool_settleHead_of_ne _ _ _ _ (by decide), pool_settleHead] at hr
      rcases mem_pegQueue hr with rfl | hr
      · exact hbid bid List.mem_cons_self
      · exact hbid r (List.mem_cons_of_mem _ hr)
    | sell =>
      rw [pool_settleHead] at hr
      rcases mem_pegQueue hr with rfl | hr
      · exact hask ask List.mem_cons_self
      · exact hask r (List.mem_cons_of_mem _ hr)
  · rw [trades_settleHead, trades_settleHead, trades_recordTrade]
  · obtain ⟨b, hb, hbuy⟩ := hbid bid List.mem_cons_self
    obtain ⟨a, ha, hsell⟩ := hask ask List.mem_cons_self
    exact ⟨b, hb, a, ha, hbuy.symm, hsell.symm⟩

/-! ## An admission -/

/-- What the admission of a limit order does, from the state `s` before it to `t` after it: `s₁` is
the state after the peg step, `s₂` the state after the lit walk, and `o₂` what is left of the order
then. -/
structure Protected (o : Order) (s s₁ : MatchingEngine) (o₂ : Order) (s₂ t : MatchingEngine) :
    Prop where
  /-- The trades with pegs are at the midpoint that there was on arrival. -/
  pegs : ∀ trade ∈ s₁.tradesSince s, trade.price = s.mid ∧ ∃ r ∈ s.resting,
    r.ordType = .pegMid ∧ TradesWith o r trade
  /-- The lit trades are at the limit price of the resting order. -/
  lits : ∀ trade ∈ s₂.tradesSince s₁, ∃ r ∈ s.resting, r.ordType = .limit ∧ trade.price = r.price ∧
    TradesWith o r trade
  /-- These are the trades of the order: the ones behind them are of two resting pegs. -/
  trades : t.trades = s.trades ++ s₁.tradesSince s ++ s₂.tradesSince s₁ ++ t.tradesSince s₂
  /-- The trades behind them are of two resting pegs. -/
  crossed : ∀ trade ∈ t.tradesSince s₂, s₂.TradesPegs trade
  /-- The order is reported as the aggressor of them. -/
  reported : ReportsFills o o₂ s s₂
  /-- No trade is worse than the limit of the order. -/
  limit : ∀ trade ∈ s₁.tradesSince s ++ s₂.tradesSince s₁, NoWorse o.side trade.price o.price
  /-- No trade is better than one before it. -/
  inOrder : (s₁.tradesSince s ++ s₂.tradesSince s₁).Pairwise fun a b =>
    NoWorse o.side a.price b.price
  /-- Where something of the order is left, nothing is left for it. -/
  litCleared : 0 < o₂.quantity → ∀ r ∈ t.resting, r.ordType = .limit → r.side = o.side.opposite →
    ¬ NoWorse o.side r.price o.price
  /-- No peg is left either, where the midpoint is within the limit. -/
  pegsCleared : 0 < o₂.quantity → s.mid ≠ Prices.na → crossesMid o.side o.price s.mid = true →
    ∀ r ∈ t.resting, r.ordType = .pegMid → r.side ≠ o.side.opposite

section Admission

variable {s s₁ s₂ t : MatchingEngine} {o o₁ o₂ : Order}

/-- The trades of the two walks of a limit order, those with pegs and then the lit ones. -/
theorem walks_taking (hq : s.Queued) (hpeg : pegStep o s = .ok (o₁, s₁))
    (hlit : matchLit o.side o₁ s₁ = .ok (o₂, s₂)) :
    ∃ pegs lits, s₁.trades = s.trades ++ pegs ∧ s₂.trades = s₁.trades ++ lits ∧
      (∀ trade ∈ pegs, trade.price = s.mid ∧ ∃ r ∈ s.resting,
        r.ordType = .pegMid ∧ TradesWith o r trade) ∧
      (∀ trade ∈ lits, ∃ r ∈ s.resting, r.ordType = .limit ∧ trade.price = r.price ∧
        TradesWith o r trade) ∧
      (∀ trade ∈ lits, NoWorse o.side trade.price o.price) ∧
      lits.Pairwise fun a b => NoWorse o.side a.price b.price := by
  have hfrom := pegStep_filledFrom hpeg
  obtain ⟨pegs, htaking⟩ := pegStep_taking hq hpeg
  rw [← hfrom.side] at hlit
  obtain ⟨lits, hwalk, hsorted⟩ := matchLit_taking htaking.queued hlit
  refine ⟨pegs, lits, htaking.trades, hwalk.trades, ?_, ?_, ?_, ?_⟩
  · intro trade htrade
    obtain ⟨r, hr, ⟨htype, hprice⟩, hwith⟩ := htaking.own trade htrade
    exact ⟨hprice, r, hr, htype, hwith⟩
  · -- An order that rested after the peg step rested before it.
    intro trade htrade
    obtain ⟨x, hx, ⟨htype, hprice⟩, hwith⟩ := hwalk.own trade htrade
    obtain ⟨r, hr, hrx⟩ := htaking.descends x hx
    exact ⟨r, hr, hrx.ordType.symm.trans htype, hprice.trans hrx.price,
      hwith.of_filledFrom hfrom hrx⟩
  · rw [← hfrom.side, ← hfrom.price]
    exact hsorted.limit
  · rw [← hfrom.side]
    exact hsorted.pairwise

/-- Where the peg step of a limit order trades, there is a midpoint, and it is within the limit. -/
theorem pegStep_reaches (htype : o.ordType = .limit) (hpeg : pegStep o s = .ok (o₁, s₁))
    {pegs : List Trade} (htrades : s₁.trades = s.trades ++ pegs) {trade : Trade}
    (htrade : trade ∈ pegs) :
    s.mid ≠ Prices.na ∧ NoWorse o.side s.mid o.price := by
  simp only [pegStep] at hpeg
  split_ifs at hpeg with hcond
  · have hcross := hcond.2.resolve_left (by rw [htype]; decide)
    exact ⟨hcond.1, crossesMid_iff.mp hcross⟩
  · -- The order did not walk the pool, so it has not traded with it.
    obtain ⟨-, rfl⟩ := Prod.mk.inj (Except.ok.inj hpeg)
    rw [List.self_eq_append_right.mp htrades] at htrade
    exact absurd htrade List.not_mem_nil

/-- What the disposal of the order and the pool cross leave of the other side: where something of
the order is left, nothing that it may trade with. -/
theorem cleared (hs : s.Reachable) (ho : o.Constructed) (htype : o.ordType = .limit)
    (hadd : s.addOrder o = .ok t) (hpeg : pegStep o s = .ok (o₁, s₁))
    (hlit : matchLit o.side o₁ s₁ = .ok (o₂, s₂))
    (hcross : (s₂.disposeLit o₂).crossPegPools = .ok t) (hleft : 0 < o₂.quantity) :
    (∀ r ∈ t.resting, r.ordType = .limit → r.side = o.side.opposite →
      ¬ NoWorse o.side r.price o.price) ∧
      (s.mid ≠ Prices.na → crossesMid o.side o.price s.mid = true →
        ∀ r ∈ t.resting, r.ordType = .pegMid → r.side ≠ o.side.opposite) := by
  have hqt : t.Queued := hs.queued.addOrder ho.valid.1 hadd
  have hq₂ : s₂.Queued := (hs.queued.pegStep hpeg).matchLit hlit
  have hnone : ∀ x ∈ s₂.resting, ¬ s.MayTrade o x := fun x hx =>
    matchLit_leaves_none hq₂ hpeg hlit hleft hx
  have hside : o₂.side = o.side := (matchLit_filledFrom hlit).side.trans
    (pegStep_filledFrom hpeg).side
  obtain ⟨hbook, hpool, -⟩ := s₂.disposeLit_frame o₂
  rw [hside] at hbook
  constructor
  · -- The levels of the other side are still those that the walk left.
    intro r hr hlimit hopp hwithin
    obtain ⟨queue, hlevel, hmem⟩ := hqt.mem_level hr hlimit
    rw [hopp, (pools_crossPegPools hcross).1, hbook] at hlevel
    refine hnone r (mem_resting.mpr ⟨_, .inl (mem_orders.mpr ⟨_, hlevel, hmem⟩)⟩) ⟨hopp, ?_⟩
    rw [hlimit]
    exact ⟨htype, marketable_iff.mpr hwithin⟩
  · -- The peg step emptied the pool, and with a pool empty the pool cross does nothing.
    intro hmid hreach r hr hpegMid hopp
    have hempty : s₂.pool o.side.opposite = [] := by
      refine List.eq_nil_iff_forall_not_mem.mpr fun x hx => ?_
      have hat := hq₂.pool _ x hx
      refine hnone x (mem_resting.mpr ⟨_, .inr hx⟩) ⟨hat.side_eq, ?_⟩
      rw [hat.ordType_eq]
      exact ⟨hmid, .inr hreach⟩
    have hnil : (s₂.disposeLit o₂).pool o.side.opposite = [] := (hpool _).trans hempty
    have hdone : (s₂.disposeLit o₂).pegBids = [] ∨ (s₂.disposeLit o₂).pegAsks = [] := by
      cases hbuy : o.side with
      | buy =>
        rw [hbuy] at hnil
        exact .inr hnil
      | sell =>
        rw [hbuy] at hnil
        exact .inl hnil
    obtain rfl := Except.ok.inj ((crossPegPools_of_empty hdone).symm.trans hcross)
    have hin := hqt.mem_pool hr hpegMid
    rw [hopp, hnil] at hin
    exact absurd hin List.not_mem_nil

end Admission

/-- Every limit order is protected by its limit and filled best first: either it is a fill-or-kill
order that the probe refuses, and nothing is traded, or what it trades as the aggressor is as
`Protected` says. -/
theorem limit_protected {s : MatchingEngine} (hs : s.Reachable) (hlong : s.LongPriced) {o : Order}
    (ho : o.Constructed) (htype : o.ordType = .limit) :
    ∃ t, s.addOrder o = .ok t ∧
      (o.tif = .fok ∧ s.canFillCompletely o = false ∧ t.trades = s.trades ∨
        ∃ o₁ s₁ o₂ s₂, pegStep o s = .ok (o₁, s₁) ∧ matchLit o.side o₁ s₁ = .ok (o₂, s₂) ∧
          (s₂.disposeLit o₂).crossPegPools = .ok t ∧ Protected o s s₁ o₂ s₂ t) := by
  have hq := hs.queued
  obtain ⟨t, hadd⟩ := hs.addOrder_total ho
  refine ⟨t, hadd, ?_⟩
  rcases addOrder_limit_cases hadd htype with ⟨hfok, hfails, rfl⟩
    | ⟨o₁, s₁, o₂, s₂, hpeg, hlit, hcross⟩
  · exact .inl ⟨hfok, hfails, rfl⟩
  right
  obtain ⟨pegs, lits, hpegs, hlits, hpegOwn, hlitOwn, hlitLimit, hlitOrder⟩ :=
    walks_taking hq hpeg hlit
  obtain ⟨-, hpool, hframe⟩ := s₂.disposeLit_frame o₂
  obtain ⟨crosses, hcrosses, hcrossed⟩ := crossPegPools_pegs hcross
  rw [hframe] at hcrosses
  have hsince₁ := tradesSince_eq hpegs
  have hsince₂ := tradesSince_eq hlits
  have hlimit : 0 < o.price := (ho.valid.1.limit_price htype).1
  have hreaches : ∀ trade ∈ pegs, s.mid ≠ Prices.na ∧ NoWorse o.side s.mid o.price :=
    fun trade htrade => pegStep_reaches htype hpeg hpegs htrade
  refine ⟨o₁, s₁, o₂, s₂, hpeg, hlit, hcross, ?_, ?_, ?_, ?_, ?_, ?_, ?_, ?_, ?_⟩
  · rw [hsince₁]
    exact hpegOwn
  · rw [hsince₂]
    exact hlitOwn
  · rw [hsince₁, hsince₂, tradesSince_eq hcrosses, hcrosses, hlits, hpegs]
  · rw [tradesSince_eq hcrosses]
    intro trade htrade
    obtain ⟨bid, hbid, ask, hask, hids⟩ := hcrossed trade htrade
    rw [hpool] at hbid hask
    exact ⟨bid, hbid, ask, hask, hids⟩
  · exact (pegStep_quantity hpeg).2.trans (pegStep_filledFrom hpeg).orderID
      (matchLit_quantity hlit).2
  · rw [hsince₁, hsince₂]
    refine List.forall_mem_append.mpr ⟨fun trade htrade => ?_, hlitLimit⟩
    rw [(hpegOwn trade htrade).1]
    exact (hreaches trade htrade).2
  · rw [hsince₁, hsince₂]
    refine List.pairwise_append.mpr ⟨?_, hlitOrder, fun a ha b hb => ?_⟩
    · refine List.pairwise_of_forall_mem_list fun a ha b hb => ?_
      rw [(hpegOwn a ha).1, (hpegOwn b hb).1]
      exact .refl _ _
    · -- A lit trade is at a level that was there on arrival, and the midpoint is no worse than
      -- that.
      obtain ⟨r, hr, hlimitType, hprice, hwith⟩ := hlitOwn b hb
      obtain ⟨queue, hlevel, -⟩ := hq.mem_level hr hlimitType
      rw [hwith.side] at hlevel
      rw [(hpegOwn a ha).1, hprice]
      obtain ⟨hmid, hreach⟩ := hreaches a ha
      exact mid_noWorse hs hlong hlimit hmid hreach r.price (SortedMap.mem_keys.mpr ⟨queue, hlevel⟩)
  · exact fun hleft => (cleared hs ho htype hadd hpeg hlit hcross hleft).1
  · exact fun hleft => (cleared hs ho htype hadd hpeg hlit hcross hleft).2

/-- A sell of fifty after `quotedCalls` takes the peg at the midpoint and then the iceberg bid,
slice by slice. -/
theorem limit_protected_quoted :
    ∃ t s₁ o₂ s₂, (after quotedCalls).addOrder (.built 5 5 .sell 50 10000 1 .gtc 0 .limit) = .ok t ∧
      Protected (.built 5 5 .sell 50 10000 1 .gtc 0 .limit) (after quotedCalls) s₁ o₂ s₂ t ∧
      (t.tradesSince (after quotedCalls)).map (fun trade => (trade.price, trade.quantity)) =
        [(10100, 4), (10000, 10), (10000, 10), (10000, 10)] := by
  have hlong : LongPriced (after quotedCalls) := by
    unfold LongPriced
    decide
  obtain ⟨t, hadd, ⟨hfok, -⟩ | ⟨-, s₁, o₂, s₂, -, -, -, hprotected⟩⟩ :=
    limit_protected (reachable_after quotedCalls) hlong
      (o := .built 5 5 .sell 50 10000 1 .gtc 0 .limit)
      ⟨5, 5, some .sell, 50, 10000, 1, some .gtc, 0, some .limit, rfl⟩ rfl
  · exact absurd hfok (by decide)
  refine ⟨t, s₁, o₂, s₂, hadd, hprotected, ?_⟩
  have hprints : ((after quotedCalls).addOrder
      (.built 5 5 .sell 50 10000 1 .gtc 0 .limit)).toOption.map
      (fun u => (u.tradesSince (after quotedCalls)).map fun trade =>
        (trade.price, trade.quantity)) =
        some [(10100, 4), (10000, 10), (10000, 10), (10000, 10)] := by decide
  rw [hadd] at hprints
  exact Option.some.inj hprints

end MatchingEngine

end MatchingVenue
