import MatchingVenue.Engine.Crossing
import MatchingVenue.Engine.Registry

/-!
# Buy and sell are mirror images

The engine branches on the side of an order in many places: which limits are marketable, which side
reaches the midpoint, which book and which pool to walk, who is the buyer of a trade. Exchanging the
sides and reflecting the prices in a point takes each branch to its twin: a run of mirrored orders
leads to the mirrored engine (`runs_mirrored`).

One decision does not have two sides. Of two pegs that cross, the later arrival is the aggressor, by
the time stamp and then by the order id, and where both are equal it is the ask. So the report of
such a fill names the remaining quantity of the ask in the run and in its mirror image, where the
ask is the other party (`Excused`).
-/

namespace MatchingVenue

/-- An order with the other side, and its price reflected. A peg has no price. -/
def Order.mirror (C : ℤ) (o : Order) : Order :=
  { o with
    side := o.side.opposite
    price := if o.ordType = .limit then C - o.price else o.price }

/-- A resting order with the other side, and its price reflected. -/
def RestingOrder.mirror (C : ℤ) (r : RestingOrder) : RestingOrder :=
  { r with toOrder := r.toOrder.mirror C }

/-- A trade with its parties exchanged, and its price reflected. -/
def Trade.mirror (C : ℤ) (t : Trade) : Trade where
  tradeId := t.tradeId
  buyOrderId := t.sellOrderId
  sellOrderId := t.buyOrderId
  buyParticipantId := t.sellParticipantId
  sellParticipantId := t.buyParticipantId
  price := C - t.price
  quantity := t.quantity

/-- A callback with its price reflected, where there is one. -/
def Callback.mirror (C : ℤ) : Callback → Callback
  | .onFill aggressor passive tradeId price m remaining =>
    .onFill aggressor passive tradeId (C - price) m remaining
  | .onAccepted orderId price remaining =>
    .onAccepted orderId (if price = Prices.na then price else C - price) remaining
  | .onExpired orderId expired => .onExpired orderId expired

/-- The levels of a side with the prices reflected. -/
def mirrorLevels (C : ℤ) (levels : List (ℤ × List RestingOrder)) : List (ℤ × List RestingOrder) :=
  levels.map fun level => (C - level.1, level.2.map (RestingOrder.mirror C))

/-- Callbacks of a run and of its mirror image: the price is reflected, unless the two are
excused. -/
def MirrorsCallback (C : ℤ) (excused : Callback → Callback → Prop) (c c' : Callback) : Prop :=
  c' = c.mirror C ∨ excused c c'

namespace MatchingEngine

/-- An engine and its mirror image: the sides exchanged, the prices reflected, and the same order in
every queue. -/
structure Mirrored (C : ℤ) (excused : Callback → Callback → Prop) (s s' : MatchingEngine) :
    Prop where
  /-- The levels of a side are the reflected ones of the other. -/
  book : ∀ side, (s'.book side.opposite).entries = mirrorLevels C (s.book side).entries
  /-- So are the queues of the pools. -/
  pool : ∀ side, s'.pool side.opposite = (s.pool side).map (RestingOrder.mirror C)
  /-- The trades are reflected, buyer and seller exchanged. -/
  trades : s'.trades = s.trades.map (Trade.mirror C)
  /-- The registry is the same. -/
  openOrders : s'.openOrders = s.openOrders
  /-- The callbacks are reflected, but for those that are excused. -/
  executionListener : List.Forall₂ (MirrorsCallback C excused) s.executionListener
    s'.executionListener
  /-- The next reference is the same. -/
  nextRef : s'.nextRef = s.nextRef
  /-- The next trade id is the same. -/
  tradeIDCounter : s'.tradeIDCounter = s.tradeIDCounter

variable {C : ℤ} {excused : Callback → Callback → Prop} {s s' : MatchingEngine}

section Fields

variable (C) (o : Order) (r : RestingOrder) (m : ℕ)

@[simp] theorem mirror_orderID : (o.mirror C).orderID = o.orderID := rfl
@[simp] theorem mirror_timeStamp : (o.mirror C).timeStamp = o.timeStamp := rfl
@[simp] theorem mirror_side : (o.mirror C).side = o.side.opposite := rfl
@[simp] theorem mirror_quantity : (o.mirror C).quantity = o.quantity := rfl
@[simp] theorem mirror_participantID : (o.mirror C).participantID = o.participantID := rfl
@[simp] theorem mirror_tif : (o.mirror C).tif = o.tif := rfl
@[simp] theorem mirror_ordType : (o.mirror C).ordType = o.ordType := rfl
@[simp] theorem mirror_filled : (o.mirror C).filled m = (o.filled m).mirror C := rfl
@[simp] theorem mirror_refreshDisplay : (o.mirror C).refreshDisplay = o.refreshDisplay.mirror C :=
  rfl
@[simp] theorem mirror_cancel : (o.mirror C).cancel = o.cancel.mirror C := rfl
@[simp] theorem mirror_toOrder : (r.mirror C).toOrder = r.toOrder.mirror C := rfl
@[simp] theorem mirror_ref : (r.mirror C).ref = r.ref := rfl
@[simp] theorem mirror_filled_resting : (r.mirror C).filled m = (r.filled m).mirror C := rfl
@[simp] theorem mirror_refreshDisplay_resting :
    (r.mirror C).refreshDisplay = r.refreshDisplay.mirror C := rfl

variable {o}

/-- The limit of a mirrored order is reflected. -/
theorem mirror_price (h : o.ordType = .limit) : (o.mirror C).price = C - o.price := if_pos h

/-- A peg has no limit to reflect. -/
theorem mirror_price_peg (h : o.ordType = .pegMid) : (o.mirror C).price = o.price :=
  if_neg (by rw [h]; decide)

end Fields

/-- What is at the front of a side is at the front of its mirror image. -/
theorem Mirrored.firstKey (h : Mirrored C excused s s') (side : Side) :
    (s'.book side.opposite).firstKey = (s.book side).firstKey.map fun price => C - price := by
  simp only [SortedMap.firstKey, h.book, mirrorLevels, List.head?_map, Option.map_map]
  rfl

/-- A limit reaches a price exactly where the reflected limit of the other side reaches the
reflected price. -/
theorem marketable_mirror (C : ℤ) (side : Side) (limit price : ℤ) :
    marketable side.opposite (C - limit) (C - price) = marketable side limit price := by
  cases side
  · simp only [Side.opposite, marketable, decide_eq_decide]
    omega
  · simp only [Side.opposite, marketable, decide_eq_decide]
    omega

/-- A limit reaches a midpoint exactly where the reflected limit of the other side reaches the
reflected midpoint. -/
theorem crossesMid_mirror (C : ℤ) (side : Side) (limit mid : ℤ) :
    crossesMid side.opposite (C - limit) (C - mid) = crossesMid side limit mid := by
  cases side
  · simp only [Side.opposite, crossesMid, decide_eq_decide]
    omega
  · simp only [Side.opposite, crossesMid, decide_eq_decide]
    omega

/-- One price is better than another on a side exactly where their reflections are so on the other
side. -/
theorem better_mirror (C : ℤ) (side : Side) (p q : ℤ) :
    Better side.opposite (C - p) (C - q) ↔ Better side p q := by
  cases side
  · simp only [Side.opposite, Better]
    omega
  · simp only [Side.opposite, Better]
    omega

/-- The resting limit orders have prices below the point of reflection. -/
def Below (C : ℤ) (s : MatchingEngine) : Prop := ∀ r ∈ s.resting, r.ordType = .limit → r.price < C

/-- The midpoint is between two prices below the point of reflection, and so is twice a whole number
of cents. -/
theorem Queued.mid_cases (h : s.Queued) (hbelow : s.Below C) (hC : C ≤ 2^62) :
    (s.bids.entries = [] ∨ s.asks.entries = []) ∧ s.mid = Prices.na ∨
      ∃ bid ask, s.bids.firstKey = some bid ∧ s.asks.firstKey = some ask ∧ 0 < bid ∧ bid < C ∧
      bid % 100 = 0 ∧
        0 < ask ∧ ask < C ∧ ask % 100 = 0 ∧ 2 * s.mid = bid + ask := by
  have hlevel : ∀ side, ∀ level ∈ (s.book side).entries, level.1 < C := by
    intro side level hlevel
    obtain ⟨hne, hrests⟩ := h.level side level hlevel
    obtain ⟨r, hr⟩ := List.exists_mem_of_ne_nil _ hne
    have hat := hrests r hr
    rw [← hat.price_eq]
    exact hbelow r (mem_resting.mpr ⟨side, .inl (mem_orders.mpr ⟨level, hlevel, hr⟩)⟩)
      hat.ordType_eq
  by_cases hna : s.mid = Prices.na
  · exact .inl ⟨h.mid_eq_na_iff.mp hna, hna⟩
  right
  have hboth := hna
  rw [h.mid_eq_na_iff, not_or] at hboth
  obtain ⟨⟨bid, bidQueue⟩, bids, hbids⟩ := List.exists_cons_of_ne_nil hboth.1
  obtain ⟨⟨ask, askQueue⟩, asks, hasks⟩ := List.exists_cons_of_ne_nil hboth.2
  have hbid : (bid, bidQueue) ∈ (s.book .buy).entries := hbids ▸ List.mem_cons_self
  have hask : (ask, askQueue) ∈ (s.book .sell).entries := hasks ▸ List.mem_cons_self
  obtain ⟨hbidPos, hbidTick⟩ := h.level_price .buy _ hbid
  obtain ⟨haskPos, haskTick⟩ := h.level_price .sell _ hask
  have hbidLt := hlevel .buy _ hbid
  have haskLt := hlevel .sell _ hask
  simp only at hbidPos hbidTick haskPos haskTick hbidLt haskLt
  have hmid := h.mid_eq hboth.1 hboth.2
  rw [getBestBid_eq hbids, getBestAsk_eq hasks, toLong_of_le (by omega) (by unfold longMax; omega),
    Int.tdiv_eq_ediv_of_nonneg (by omega)] at hmid
  refine ⟨bid, ask, ?_, ?_, hbidPos, hbidLt, hbidTick, haskPos, haskLt, haskTick, by omega⟩
  · rw [SortedMap.firstKey, hbids]
    rfl
  · rw [SortedMap.firstKey, hasks]
    rfl

/-- The midpoint of the mirror image is the reflected midpoint, where there is one. -/
theorem Mirrored.mid (h : Mirrored C excused s s') (hq : s.Queued) (hbelow : s.Below C)
    (hC : C ≤ 2^62) :
    (s.mid = Prices.na ∧ s'.mid = Prices.na) ∨
      (s.mid ≠ Prices.na ∧ s'.mid = C - s.mid ∧ s'.mid ≠ Prices.na) := by
  have hbid' : s'.getBestBid = (s.asks.firstKey.map fun price => C - price).getD Prices.na :=
    congrArg (fun key => key.getD Prices.na) (h.firstKey .sell)
  have hask' : s'.getBestAsk = (s.bids.firstKey.map fun price => C - price).getD Prices.na :=
    congrArg (fun key => key.getD Prices.na) (h.firstKey .buy)
  rcases hq.mid_cases hbelow hC with ⟨hempty, hna⟩
    | ⟨bid, ask, hbid, hask, hbid0, hbidC, hbid100, hask0, haskC,
    hask100, hmid⟩
  · refine .inl ⟨hna, ?_⟩
    unfold MatchingEngine.mid
    rcases hempty with hempty | hempty
    · have hnone : s'.getBestAsk = Prices.na := by
        rw [hask', SortedMap.firstKey, hempty]
        rfl
      exact if_pos (.inr hnone)
    · have hnone : s'.getBestBid = Prices.na := by
        rw [hbid', SortedMap.firstKey, hempty]
        rfl
      exact if_pos (.inl hnone)
  · right
    rw [hask, Option.map_some, Option.getD_some] at hbid'
    rw [hbid, Option.map_some, Option.getD_some] at hask'
    have hmid' : s'.mid = (2 * C - (bid + ask)) / 2 := by
      rw [mid_eq_of_ne (by rw [hbid', Prices.na]; omega) (by rw [hask', Prices.na]; omega),
        hbid', hask', toLong_of_le (by omega) (by unfold longMax; omega),
        Int.tdiv_eq_ediv_of_nonneg (by omega)]
      congr 1
      omega
    unfold Prices.na
    omega

/-! ## Updates -/

/-- The trade of a mirrored fill is the mirrored trade. -/
theorem fillTrade_mirror (hcounter : s'.tradeIDCounter = s.tradeIDCounter)
    (aggressor passive : Order) (price : ℤ) (m : ℕ) :
    s'.fillTrade (aggressor.mirror C) (passive.mirror C) (C - price) m =
      (s.fillTrade aggressor passive price m).mirror C := by
  unfold fillTrade
  rw [hcounter, mirror_side]
  cases aggressor.side
  · rfl
  · rfl

/-- A new callback and its mirror image. -/
theorem Mirrored.callback (h : Mirrored C excused s s') (c : Callback) :
    List.Forall₂ (MirrorsCallback C excused) (s.executionListener ++ [c])
      (s'.executionListener ++ [c.mirror C]) :=
  List.rel_append h.executionListener (.cons (.inl rfl) .nil)

/-- The two sides of a mirror image, seen from a side of the engine. -/
theorem Mirrored.of_side {t t' : MatchingEngine} (side : Side)
    (hbook : (t'.book side.opposite).entries = mirrorLevels C (t.book side).entries)
    (hbook' : (t'.book side).entries = mirrorLevels C (t.book side.opposite).entries)
    (hpool : t'.pool side.opposite = (t.pool side).map (RestingOrder.mirror C))
    (hpool' : t'.pool side = (t.pool side.opposite).map (RestingOrder.mirror C))
    (htrades : t'.trades = t.trades.map (Trade.mirror C)) (hopen : t'.openOrders = t.openOrders)
    (hlistener : List.Forall₂ (MirrorsCallback C excused) t.executionListener t'.executionListener)
    (href : t'.nextRef = t.nextRef) (hcounter : t'.tradeIDCounter = t.tradeIDCounter) :
    Mirrored C excused t t' where
  book := (forall_side side).mpr ⟨hbook, side.opposite_opposite.symm ▸ hbook'⟩
  pool := (forall_side side).mpr ⟨hpool, side.opposite_opposite.symm ▸ hpool'⟩
  trades := htrades
  openOrders := hopen
  executionListener := hlistener
  nextRef := href
  tradeIDCounter := hcounter

/-- A fill and its mirror image lead to an engine and its mirror image. -/
theorem Mirrored.recordFill (h : Mirrored C excused s s') (aggressor passive : Order)
    (price : ℤ) (m : ℕ) :
    Mirrored C excused (s.recordFill aggressor passive price m)
      (s'.recordFill (aggressor.mirror C) (passive.mirror C) (C - price) m) where
  book side := by
    rw [book_recordFill, book_recordFill]
    exact h.book side
  pool side := by
    rw [pool_recordFill, pool_recordFill]
    exact h.pool side
  trades := by
    rw [trades_recordFill, trades_recordFill, h.trades, List.map_append,
      fillTrade_mirror h.tradeIDCounter]
    rfl
  openOrders := by
    rw [openOrders_recordFill, openOrders_recordFill]
    exact h.openOrders
  executionListener := by
    rw [executionListener_recordFill, executionListener_recordFill, h.tradeIDCounter]
    exact h.callback _
  nextRef := by
    rw [nextRef_recordFill, nextRef_recordFill]
    exact h.nextRef
  tradeIDCounter := by
    rw [tradeIDCounter_recordFill, tradeIDCounter_recordFill, h.tradeIDCounter]

/-- The queue of a level after a mirrored fill is the mirrored queue. -/
theorem litQueue_mirror (C : ℤ) (r : RestingOrder) (behind : List RestingOrder) :
    litQueue (r.mirror C) (behind.map (RestingOrder.mirror C)) =
      (litQueue r behind).map (RestingOrder.mirror C) := by
  have hquantity : (r.mirror C).quantity = r.quantity := rfl
  have hvisible : (r.mirror C).visibleQty = r.visibleQty := rfl
  unfold litQueue
  rw [hquantity, hvisible]
  split_ifs
  · rfl
  · rw [List.map_append]
    rfl
  · rfl

/-- The queue of a pool after a mirrored fill is the mirrored queue. -/
theorem pegQueue_mirror (C : ℤ) (r : RestingOrder) (behind : List RestingOrder) :
    pegQueue (r.mirror C) (behind.map (RestingOrder.mirror C)) =
      (pegQueue r behind).map (RestingOrder.mirror C) := by
  have hquantity : (r.mirror C).quantity = r.quantity := rfl
  unfold pegQueue
  rw [hquantity]
  split_ifs
  · rfl
  · rfl

/-- The head of a level settles as its mirror image does. -/
theorem Mirrored.settleLit (h : Mirrored C excused s s') (side : Side) {price : ℤ}
    {r₀ : RestingOrder} (r : RestingOrder) {behind : List RestingOrder}
    {levels : List (ℤ × List RestingOrder)}
    (hentries : (s.book side).entries = (price, r₀ :: behind) :: levels) :
    Mirrored C excused (s.settleLit side r behind)
      (s'.settleLit side.opposite (r.mirror C) (behind.map (RestingOrder.mirror C))) := by
  have hentries' : (s'.book side.opposite).entries =
      (C - price, r₀.mirror C :: behind.map (RestingOrder.mirror C)) :: mirrorLevels C levels := by
    rw [h.book, hentries]
    rfl
  refine .of_side side ?_ ?_ ?_ ?_ ?_ ?_ ?_ ?_ ?_
  · rw [entries_settleLit _ _ _ _ hentries, entries_settleLit _ _ _ _ hentries', litQueue_mirror]
    by_cases hempty : litQueue r behind = []
    · rw [if_pos hempty, if_pos (by rw [hempty]; rfl)]
    · rw [if_neg hempty, if_neg fun hnil => hempty (List.map_eq_nil_iff.mp hnil)]
      rfl
  · rw [book_settleLit_of_ne _ _ _ _ (Side.opposite_ne _),
      book_settleLit_of_ne _ _ _ _ (Side.ne_opposite _)]
    have hother := h.book side.opposite
    rwa [Side.opposite_opposite] at hother
  · rw [pool_settleLit, pool_settleLit]
    exact h.pool side
  · rw [pool_settleLit, pool_settleLit]
    have hother := h.pool side.opposite
    rwa [Side.opposite_opposite] at hother
  · rw [trades_settleLit, trades_settleLit]
    exact h.trades
  · rw [openOrders_settleLit, openOrders_settleLit, h.openOrders]
    rfl
  · rw [executionListener_settleLit, executionListener_settleLit]
    exact h.executionListener
  · rw [nextRef_settleLit, nextRef_settleLit]
    exact h.nextRef
  · rw [tradeIDCounter_settleLit, tradeIDCounter_settleLit]
    exact h.tradeIDCounter

/-- The head of a pool settles as its mirror image does. -/
theorem Mirrored.settleHead (h : Mirrored C excused s s') (side : Side) (r : RestingOrder)
    (behind : List RestingOrder) :
    Mirrored C excused (s.settleHead side r behind)
      (s'.settleHead side.opposite (r.mirror C) (behind.map (RestingOrder.mirror C))) := by
  have hbook := h.book side.opposite
  have hpool := h.pool side.opposite
  rw [Side.opposite_opposite] at hbook hpool
  refine .of_side side ?_ ?_ ?_ ?_ ?_ ?_ ?_ ?_ ?_
  · rw [book_settleHead, book_settleHead]
    exact h.book side
  · rw [book_settleHead, book_settleHead]
    exact hbook
  · rw [pool_settleHead, pool_settleHead]
    exact pegQueue_mirror C r behind
  · rw [pool_settleHead_of_ne _ _ _ _ (Side.ne_opposite _),
      pool_settleHead_of_ne _ _ _ _ (Side.opposite_ne _)]
    exact hpool
  · rw [trades_settleHead, trades_settleHead]
    exact h.trades
  · rw [openOrders_settleHead, openOrders_settleHead, h.openOrders]
    rfl
  · rw [executionListener_settleHead, executionListener_settleHead]
    exact h.executionListener
  · rw [nextRef_settleHead, nextRef_settleHead]
    exact h.nextRef
  · rw [tradeIDCounter_settleHead, tradeIDCounter_settleHead]
    exact h.tradeIDCounter

/-! ## The walks -/

/-- The lit walks of an order and of its mirror image do the same. -/
theorem Mirrored.matchLit (h : Mirrored C excused s s') {side : Side} {o a a' : Order}
    {t t' : MatchingEngine} (htype : o.ordType = .limit) (hlit : matchLit side o s = .ok (a, t))
    (hlit' : matchLit side.opposite (o.mirror C) s' = .ok (a', t')) :
    a' = a.mirror C ∧ Mirrored C excused t t' := by
  let R (x x' : Order × MatchingEngine) : Prop :=
    x.1.ordType = .limit ∧ x'.1 = x.1.mirror C ∧ Mirrored C excused x.2 x'.2
  have hrelated := whileLoop_related (R := R) ?_ hlit hlit' ⟨htype, rfl, h⟩
  · exact hrelated.2
  rintro ⟨u, su⟩ ⟨w, su'⟩ x x' ⟨hu, hw, hmir⟩ hbody hbody'
  obtain rfl : w = u.mirror C := hw
  simp only at hu hmir
  have hbook := hmir.book side.opposite
  have hmarketable : ∀ price, marketable side.opposite (u.mirror C).price (C - price) =
      marketable side u.price price := by
    intro price
    rw [mirror_price C hu]
    exact marketable_mirror C side u.price price
  cases x with
  | none =>
    cases x' with
    | none => exact .inl ⟨rfl, rfl⟩
    | some y' =>
      -- The walk is over, so its mirror image has nothing to fill.
      obtain ⟨v', sv'⟩ := y'
      obtain ⟨p', r', behind', levels', m, hentries', hmarket', hm, hpos, -⟩ :=
        matchLitBody_some hbody'
      rw [hbook] at hentries'
      obtain ⟨⟨p, queue⟩, levels, hentries, hhead, -⟩ := List.map_eq_cons_iff.mp hentries'
      obtain ⟨rfl, -⟩ := Prod.mk.inj hhead
      rcases matchLitBody_none hbody with hdone | hout
      · rw [mirror_quantity] at hm
        omega
      · rw [hentries] at hout
        have hbeyond := hout (p, queue) rfl
        rw [hmarketable, hbeyond] at hmarket'
        exact absurd hmarket' Bool.false_ne_true
  | some y =>
    obtain ⟨v, sv⟩ := y
    obtain ⟨p, r, behind, levels, m, hentries, hmarket, hm, hpos, hle, rfl, rfl⟩ :=
      matchLitBody_some hbody
    have hentries' : (su'.book side.opposite.opposite).entries =
        (C - p, r.mirror C :: behind.map (RestingOrder.mirror C)) :: mirrorLevels C levels := by
      rw [hbook, hentries]
      rfl
    cases x' with
    | none =>
      rcases matchLitBody_none hbody' with hdone | hout
      · rw [mirror_quantity] at hdone
        omega
      · rw [hentries'] at hout
        have hbeyond := hout _ rfl
        rw [hmarketable, hmarket] at hbeyond
        exact absurd hbeyond.symm Bool.false_ne_true
    | some y' =>
      obtain ⟨v', sv'⟩ := y'
      obtain ⟨p', r', behind', levels', m', hsame, -, hm', -, -, rfl, rfl⟩ :=
        matchLitBody_some hbody'
      rw [hentries'] at hsame
      obtain ⟨hlevel, -⟩ := List.cons.inj hsame
      obtain ⟨rfl, hqueue⟩ := Prod.mk.inj hlevel
      obtain ⟨rfl, rfl⟩ := List.cons.inj hqueue
      obtain rfl : m' = m := hm'.trans hm.symm
      refine .inr ⟨_, _, rfl, rfl, hu, rfl, ?_⟩
      exact (hmir.recordFill (u.filled m') (r.filled m').toOrder p m').settleLit side.opposite
        (r.filled m')
        (by simpa using hentries)

/-- The walks over a pool of an order and of its mirror image do the same. -/
theorem Mirrored.matchPegPool (h : Mirrored C excused s s') {mid : ℤ} {o a a' : Order}
    {t t' : MatchingEngine} (hpool : matchPegPool o mid s = .ok (a, t))
    (hpool' : matchPegPool (o.mirror C) (C - mid) s' = .ok (a', t')) :
    a' = a.mirror C ∧ Mirrored C excused t t' := by
  let R (x x' : Order × MatchingEngine) : Prop := x'.1 = x.1.mirror C ∧ Mirrored C excused x.2 x'.2
  have hrelated := whileLoop_related (R := R) ?_ hpool hpool' ⟨rfl, h⟩
  · exact hrelated
  rintro ⟨u, su⟩ ⟨w, su'⟩ x x' ⟨hw, hmir⟩ hbody hbody'
  obtain rfl : w = u.mirror C := hw
  simp only at hmir
  have hpools := hmir.pool u.side.opposite
  cases x with
  | none =>
    cases x' with
    | none => exact .inl ⟨rfl, rfl⟩
    | some y' =>
      obtain ⟨v', sv'⟩ := y'
      obtain ⟨r', behind', m, hsame, hm, hpos, -⟩ := matchPegPoolBody_some hbody'
      rcases matchPegPoolBody_none hbody with hdone | hempty
      · rw [mirror_quantity] at hm
        omega
      · rw [mirror_side, hpools, hempty] at hsame
        exact absurd hsame.symm (List.cons_ne_nil _ _)
  | some y =>
    obtain ⟨v, sv⟩ := y
    obtain ⟨r, behind, m, hqueue, hm, hpos, rfl, rfl⟩ := matchPegPoolBody_some hbody
    rw [hqueue] at hpools
    cases x' with
    | none =>
      rcases matchPegPoolBody_none hbody' with hdone | hempty
      · rw [mirror_quantity] at hdone
        omega
      · rw [mirror_side, hpools] at hempty
        exact absurd hempty (List.cons_ne_nil _ _)
    | some y' =>
      obtain ⟨v', sv'⟩ := y'
      obtain ⟨r', behind', m', hsame, hm', -, rfl, rfl⟩ := matchPegPoolBody_some hbody'
      rw [mirror_side, hpools] at hsame
      obtain ⟨rfl, rfl⟩ := List.cons.inj hsame
      obtain rfl : m' = m := hm'.trans hm.symm
      refine .inr ⟨_, _, rfl, rfl, rfl, ?_⟩
      exact (hmir.recordFill (u.filled m') (r.filled m').toOrder mid m').settleHead u.side.opposite
        (r.filled m') behind

/-- An order reaches the midpoint exactly where its mirror image reaches the reflected one. -/
theorem reaches_mirror (C mid : ℤ) (o : Order) :
    ((o.mirror C).ordType = .pegMid ∨
      crossesMid (o.mirror C).side (o.mirror C).price (C - mid) = true) ↔
      (o.ordType = .pegMid ∨ crossesMid o.side o.price mid = true) := by
  cases htype : o.ordType with
  | pegMid =>
    rw [mirror_ordType, htype]
    exact ⟨fun _ => .inl rfl, fun _ => .inl rfl⟩
  | limit =>
    rw [mirror_ordType, mirror_price C htype, mirror_side, crossesMid_mirror, htype]

/-- The peg steps of an order and of its mirror image do the same. -/
theorem Mirrored.pegStep (h : Mirrored C excused s s') (hq : s.Queued) (hbelow : s.Below C)
    (hC : C ≤ 2^62) {o a a' : Order} {t t' : MatchingEngine} (hpeg : pegStep o s = .ok (a, t))
    (hpeg' : pegStep (o.mirror C) s' = .ok (a', t')) :
    a' = a.mirror C ∧ Mirrored C excused t t' := by
  have hsame : Except.ok (a, t) = (.ok (o, s) : Except Exn (Order × MatchingEngine)) →
      Except.ok (a', t') = (.ok (o.mirror C, s') : Except Exn (Order × MatchingEngine)) →
      a' = a.mirror C ∧ Mirrored C excused t t' := by
    intro hstay hstay'
    obtain ⟨rfl, rfl⟩ := Prod.mk.inj (Except.ok.inj hstay)
    obtain ⟨rfl, rfl⟩ := Prod.mk.inj (Except.ok.inj hstay')
    exact ⟨rfl, h⟩
  simp only [MatchingEngine.pegStep] at hpeg hpeg'
  rcases h.mid hq hbelow hC with ⟨hna, hna'⟩ | ⟨hna, hmid, hna'⟩
  · rw [if_neg (not_and_of_not_left _ (not_not.mpr hna))] at hpeg
    rw [if_neg (not_and_of_not_left _ (not_not.mpr hna'))] at hpeg'
    exact hsame hpeg.symm hpeg'.symm
  · have hreach := reaches_mirror C s.mid o
    rw [← hmid] at hreach
    by_cases hmeets : o.ordType = .pegMid ∨ crossesMid o.side o.price s.mid = true
    · rw [if_pos ⟨hna, hmeets⟩] at hpeg
      rw [if_pos ⟨hna', hreach.mpr hmeets⟩, hmid] at hpeg'
      exact h.matchPegPool hpeg hpeg'
    · rw [if_neg (not_and_of_not_right _ hmeets)] at hpeg
      rw [if_neg (not_and_of_not_right _ fun hmeets' => hmeets (hreach.mp hmeets'))] at hpeg'
      exact hsame hpeg.symm hpeg'.symm

/-! ## The pool cross -/

/-- Of two pegs that are not tied, one is the later arrival in the run and in its mirror image. -/
theorem laterArrival_swap {a b : Order}
    (h : ¬ (a.timeStamp = b.timeStamp ∧ a.orderID = b.orderID)) :
    laterArrival b a = !laterArrival a b := by
  unfold laterArrival
  by_cases hts : a.timeStamp = b.timeStamp
  · have hid : a.orderID ≠ b.orderID := fun hid => h ⟨hts, hid⟩
    rw [if_neg (by simp [hts]), if_neg (by simp [hts])]
    grind
  · rw [if_pos (Ne.symm hts), if_pos hts]
    grind

/-- The reports of the next fill of a pool cross at a midpoint, and of its mirror image, where the
two pegs are tied: the ask is the aggressor in the run, and in the mirror image the ask is what was
the bid. All but the remaining quantity is mirrored. -/
def TiedCross (C mid : ℤ) (s : MatchingEngine) (c c' : Callback) : Prop :=
  ∃ bid bids ask asks m, s.pegBids = bid :: bids ∧ s.pegAsks = ask :: asks ∧
    bid.timeStamp = ask.timeStamp ∧ bid.orderID = ask.orderID ∧ m = min bid.quantity ask.quantity ∧
    c = .onFill ask.orderID bid.orderID (toLong (s.tradeIDCounter + 1)) mid m (ask.quantity - m) ∧
    c' = .onFill bid.orderID ask.orderID (toLong (s.tradeIDCounter + 1)) (C - mid) m
      (bid.quantity - m)

/-- The report of a pool cross and of its mirror image. -/
theorem crossRoles_mirror (C : ℤ) {bid ask : RestingOrder} {tradeId mid : ℤ} {m : ℕ}
    (htied : bid.timeStamp = ask.timeStamp → bid.orderID = ask.orderID →
      excused (.onFill ask.orderID bid.orderID tradeId mid m (ask.quantity - m))
        (.onFill bid.orderID ask.orderID tradeId (C - mid) m (bid.quantity - m))) :
    MirrorsCallback C excused
      (.onFill (crossRoles bid ask m).1.orderID (crossRoles bid ask m).2.orderID tradeId mid m
        (crossRoles bid ask m).1.quantity)
      (.onFill (crossRoles (ask.mirror C) (bid.mirror C) m).1.orderID
        (crossRoles (ask.mirror C) (bid.mirror C) m).2.orderID tradeId (C - mid) m
        (crossRoles (ask.mirror C) (bid.mirror C) m).1.quantity) := by
  have hlater : laterArrival (ask.mirror C).toOrder (bid.mirror C).toOrder =
      laterArrival ask.toOrder bid.toOrder := rfl
  unfold crossRoles
  rw [hlater]
  by_cases heq : bid.timeStamp = ask.timeStamp ∧ bid.orderID = ask.orderID
  · -- The ask is the aggressor in both, and it is the other party in the mirror image.
    right
    obtain ⟨hts, hid⟩ := heq
    have hnone : laterArrival bid.toOrder ask.toOrder = false := by simp [laterArrival, hts, hid]
    have hnone' : laterArrival ask.toOrder bid.toOrder = false := by simp [laterArrival, hts, hid]
    rw [hnone, hnone', if_neg Bool.false_ne_true, if_neg Bool.false_ne_true]
    exact htied hts hid
  · left
    rw [laterArrival_swap heq]
    cases laterArrival bid.toOrder ask.toOrder
    · rfl
    · rfl

/-- Two orders leave the registry in either order. -/
theorem unlessDone_comm (a b : RestingOrder) (openOrders : ℤ → Option Ref) :
    unlessDone a (unlessDone b openOrders) = unlessDone b (unlessDone a openOrders) := by
  unfold unlessDone
  split_ifs
  · by_cases hid : a.orderID = b.orderID
    · rw [hid]
    · exact Function.update_comm (Ne.symm hid) _ _ _
  · rfl
  · rfl
  · rfl

/-- The heads of the two pools settle in either order. -/
theorem Mirrored.swap {t : MatchingEngine} {a b : RestingOrder} {as bs : List RestingOrder}
    (h : Mirrored C excused s ((t.settleHead .sell a as).settleHead .buy b bs)) :
    Mirrored C excused s ((t.settleHead .buy b bs).settleHead .sell a as) where
  book side := by
    have hbook := h.book side
    rw [book_settleHead, book_settleHead] at hbook ⊢
    exact hbook
  pool side := by
    rw [← h.pool side]
    cases side with
    | buy =>
      show MatchingEngine.pool _ .sell = MatchingEngine.pool _ .sell
      rw [pool_settleHead, pool_settleHead_of_ne _ _ _ _ (by decide), pool_settleHead]
    | sell =>
      show MatchingEngine.pool _ .buy = MatchingEngine.pool _ .buy
      rw [pool_settleHead, pool_settleHead_of_ne _ _ _ _ (by decide), pool_settleHead]
  trades := by
    have htrades := h.trades
    rw [trades_settleHead, trades_settleHead] at htrades ⊢
    exact htrades
  openOrders := by
    rw [← h.openOrders]
    rw [openOrders_settleHead, openOrders_settleHead, openOrders_settleHead, openOrders_settleHead]
    exact unlessDone_comm _ _ _
  executionListener := by
    have hlistener := h.executionListener
    rw [executionListener_settleHead, executionListener_settleHead] at hlistener ⊢
    exact hlistener
  nextRef := by
    have href := h.nextRef
    rw [nextRef_settleHead, nextRef_settleHead] at href ⊢
    exact href
  tradeIDCounter := by
    have hcounter := h.tradeIDCounter
    rw [tradeIDCounter_settleHead, tradeIDCounter_settleHead] at hcounter ⊢
    exact hcounter

/-- The pool crosses of an engine and of its mirror image do the same. -/
theorem Mirrored.crossPegPoolsBody (h : Mirrored C excused s s') {mid : ℤ}
    (hties : ∀ c c', TiedCross C mid s c c' → excused c c') {x x' : Option MatchingEngine}
    (hbody : crossPegPoolsBody mid s = .ok x) (hbody' : crossPegPoolsBody (C - mid) s' = .ok x') :
    (x = none ∧ x' = none) ∨ ∃ t t', x = some t ∧ x' = some t' ∧ Mirrored C excused t t' := by
  have hbids : s'.pegBids = s.pegAsks.map (RestingOrder.mirror C) := h.pool .sell
  have hasks : s'.pegAsks = s.pegBids.map (RestingOrder.mirror C) := h.pool .buy
  cases x with
  | none =>
    cases x' with
    | none => exact .inl ⟨rfl, rfl⟩
    | some t' =>
      obtain ⟨bid', bids', ask', asks', m, hbid', hask', -⟩ := crossPegPoolsBody_some hbody'
      rcases crossPegPoolsBody_none hbody with hempty | hempty
      · rw [hasks, hempty] at hask'
        exact absurd hask'.symm (List.cons_ne_nil _ _)
      · rw [hbids, hempty] at hbid'
        exact absurd hbid'.symm (List.cons_ne_nil _ _)
  | some t =>
    obtain ⟨bid, bids, ask, asks, m, hbid, hask, hm, hpos, rfl⟩ := crossPegPoolsBody_some hbody
    rw [hask] at hbids
    rw [hbid] at hasks
    cases x' with
    | none =>
      rcases crossPegPoolsBody_none hbody' with hempty | hempty
      · rw [hbids] at hempty
        exact absurd hempty (List.cons_ne_nil _ _)
      · rw [hasks] at hempty
        exact absurd hempty (List.cons_ne_nil _ _)
    | some t' =>
      obtain ⟨bid', bids', ask', asks', m', hbid', hask', hm', -, rfl⟩ :=
        crossPegPoolsBody_some hbody'
      rw [hbids] at hbid'
      rw [hasks] at hask'
      obtain ⟨rfl, rfl⟩ := List.cons.inj hbid'
      obtain ⟨rfl, rfl⟩ := List.cons.inj hask'
      obtain rfl : m' = m := by
        rw [hm', hm]
        exact Nat.min_comm _ _
      refine .inr ⟨_, _, rfl, rfl, ?_⟩
      have hrecord : Mirrored C excused
          (s.recordTrade (bid.filled m').toOrder (ask.filled m').toOrder
            (crossRoles bid ask m').1.toOrder
            (crossRoles bid ask m').2.toOrder mid m')
          (s'.recordTrade ((ask.mirror C).filled m').toOrder ((bid.mirror C).filled m').toOrder
            (crossRoles (ask.mirror C) (bid.mirror C) m').1.toOrder
            (crossRoles (ask.mirror C) (bid.mirror C) m').2.toOrder (C - mid) m') := by
        refine ⟨h.book, h.pool, ?_, h.openOrders, ?_, h.nextRef, ?_⟩
        · rw [trades_recordTrade, trades_recordTrade, h.trades, List.map_append]
          unfold crossTrade
          rw [h.tradeIDCounter]
          rfl
        · rw [executionListener_recordTrade, executionListener_recordTrade, h.tradeIDCounter]
          refine List.rel_append h.executionListener (.cons (crossRoles_mirror C ?_) .nil)
          exact fun hts hid =>
            hties _ _ ⟨bid, bids, ask, asks, m', hbid, hask, hts, hid, hm, rfl, rfl⟩
        · rw [tradeIDCounter_recordTrade, tradeIDCounter_recordTrade, h.tradeIDCounter]
      exact ((hrecord.settleHead .buy (bid.filled m') bids).settleHead .sell
        (ask.filled m') asks).swap

/-- The states of a pool cross: those that its loop reaches at the midpoint of its start. -/
def CrossReaches (s : MatchingEngine) (mid : ℤ) (u : MatchingEngine) : Prop :=
  mid = s.mid ∧ mid ≠ Prices.na ∧ Relation.ReflTransGen (Iterates (crossPegPoolsBody mid)) s u

/-- The pool crosses of an engine and of its mirror image do the same. -/
theorem Mirrored.crossPegPools (h : Mirrored C excused s s') (hq : s.Queued) (hbelow : s.Below C)
    (hC : C ≤ 2^62)
    (hties : ∀ mid u c c', s.CrossReaches mid u → TiedCross C mid u c c' → excused c c')
    {t t' : MatchingEngine} (hcross : s.crossPegPools = .ok t)
    (hcross' : s'.crossPegPools = .ok t') : Mirrored C excused t t' := by
  simp only [MatchingEngine.crossPegPools] at hcross hcross'
  rcases h.mid hq hbelow hC with ⟨hna, hna'⟩ | ⟨hna, hmid, hna'⟩
  · rw [if_pos hna] at hcross
    rw [if_pos hna'] at hcross'
    obtain rfl := Except.ok.inj hcross
    obtain rfl := Except.ok.inj hcross'
    exact h
  · rw [if_neg hna] at hcross
    rw [if_neg hna', hmid] at hcross'
    let R (u u' : MatchingEngine) : Prop := Mirrored C excused u u' ∧ s.CrossReaches s.mid u
    have hrelated := whileLoop_related (R := R) ?_ hcross hcross' ⟨h, rfl, hna, .refl⟩
    · exact hrelated.1
    rintro u u' x x' ⟨hu, hreached⟩ hbody hbody'
    rcases hu.crossPegPoolsBody (fun c c' => hties s.mid u c c' hreached) hbody hbody' with
      hnone | ⟨v, v', rfl, rfl, hv⟩
    · exact .inl hnone
    · exact .inr ⟨v, v', rfl, rfl, hv, rfl, hna, hreached.2.2.tail hbody⟩

/-! ## The probe -/

/-- The probe finds the same in a mirrored queue. -/
theorem probeQueue_mirror (C : ℤ) (needed available : ℤ) (queue : List RestingOrder) :
    probeQueue needed available (queue.map (RestingOrder.mirror C)) =
      probeQueue needed available queue := by
  induction queue generalizing available with
  | nil => rfl
  | cons r queue ih =>
    have hquantity : (r.mirror C).quantity = r.quantity := rfl
    rw [List.map_cons]
    unfold probeQueue
    rw [hquantity]
    simp only
    split_ifs
    · rfl
    · exact ih _

/-- The probe finds the same at the mirrored levels. -/
theorem probeLevels_mirror (C : ℤ) (side : Side) (limit needed available : ℤ)
    (levels : List (ℤ × List RestingOrder)) :
    probeLevels side.opposite (C - limit) needed available (mirrorLevels C levels) =
      probeLevels side limit needed available levels := by
  induction levels generalizing available with
  | nil => rfl
  | cons level levels ih =>
    have hcons : mirrorLevels C (level :: levels) =
        (C - level.1, level.2.map (RestingOrder.mirror C)) :: mirrorLevels C levels := rfl
    rw [hcons]
    unfold probeLevels
    rw [marketable_mirror, probeQueue_mirror]
    split_ifs
    · cases probeQueue needed available level.2 with
      | none => rfl
      | some available => exact ih available
    · rfl

/-- The probe of a peg. -/
theorem canFillCompletely_pegMid {o : Order} (h : o.ordType = .pegMid) : s.canFillCompletely o =
    if s.mid = Prices.na then false else decide (s.pegPoolTotal o.side ≥ o.quantity) := by
  simp only [MatchingEngine.canFillCompletely, h]

/-- The probe of a limit order. -/
theorem canFillCompletely_limit {o : Order} (h : o.ordType = .limit) : s.canFillCompletely o =
    if s.mid ≠ Prices.na ∧ crossesMid o.side o.price s.mid then
      if toLong (0 + s.pegPoolTotal o.side) ≥ o.quantity then true
      else probeLevels o.side o.price o.quantity (toLong (0 + s.pegPoolTotal o.side))
        (s.book o.side.opposite).entries
    else probeLevels o.side o.price o.quantity 0 (s.book o.side.opposite).entries := by
  simp only [MatchingEngine.canFillCompletely, h]

/-- The fill-or-kill probes of an order and of its mirror image say the same. -/
theorem Mirrored.canFillCompletely (h : Mirrored C excused s s') (hq : s.Queued)
    (hbelow : s.Below C) (hC : C ≤ 2^62) (o : Order) :
    s'.canFillCompletely (o.mirror C) = s.canFillCompletely o := by
  have htotal : s'.pegPoolTotal o.side.opposite = s.pegPoolTotal o.side := by
    unfold pegPoolTotal
    rw [h.pool, List.foldl_map]
    rfl
  have hlevels : ∀ available, o.ordType = .limit →
      probeLevels o.side.opposite (o.mirror C).price o.quantity available
      (s'.book o.side.opposite.opposite).entries =
        probeLevels o.side o.price o.quantity available (s.book o.side.opposite).entries := by
    intro available htype
    rw [mirror_price C htype, h.book]
    exact probeLevels_mirror C o.side o.price o.quantity available _
  have hmid := h.mid hq hbelow hC
  cases htype : o.ordType with
  | pegMid =>
    have htype' : (o.mirror C).ordType = .pegMid := htype
    rw [canFillCompletely_pegMid htype, canFillCompletely_pegMid htype']
    show (if s'.mid = Prices.na then false
      else decide (s'.pegPoolTotal o.side.opposite ≥ o.quantity)) = _
    rw [htotal]
    rcases hmid with ⟨hna, hna'⟩ | ⟨hna, -, hna'⟩
    · rw [if_pos hna, if_pos hna']
    · rw [if_neg hna, if_neg hna']
  | limit =>
    have htype' : (o.mirror C).ordType = .limit := htype
    rw [canFillCompletely_limit htype, canFillCompletely_limit htype']
    show (if s'.mid ≠ Prices.na ∧ crossesMid o.side.opposite (o.mirror C).price s'.mid then
        if toLong (0 + s'.pegPoolTotal o.side.opposite) ≥ o.quantity then true
        else probeLevels o.side.opposite (o.mirror C).price o.quantity
          (toLong (0 + s'.pegPoolTotal o.side.opposite))
          (s'.book o.side.opposite.opposite).entries
      else probeLevels o.side.opposite (o.mirror C).price o.quantity 0
        (s'.book o.side.opposite.opposite).entries) = _
    rw [htotal, hlevels _ htype, hlevels _ htype]
    rcases hmid with ⟨hna, hna'⟩ | ⟨hna, hmid, hna'⟩
    · rw [if_neg (not_and_of_not_left _ (not_not.mpr hna)),
        if_neg (not_and_of_not_left _ (not_not.mpr hna'))]
    · have hreach : crossesMid o.side.opposite (o.mirror C).price s'.mid =
          crossesMid o.side o.price s.mid := by
        rw [hmid, mirror_price C htype]
        exact crossesMid_mirror C o.side o.price s.mid
      rw [hreach]
      refine if_congr ?_ rfl rfl
      rw [and_iff_right hna, and_iff_right hna']

/-! ## The end of an order -/

/-- An order is inserted into the mirrored levels where its reflected price belongs. -/
theorem upsertEntries_mirror (C : ℤ) (side : Side) (price : ℤ) (r : RestingOrder)
    (levels : List (ℤ × List RestingOrder)) :
    SortedMap.upsertEntries (Better side.opposite) (C - price)
      (fun queue => queue.getD [] ++ [r.mirror C])
        (mirrorLevels C levels) =
      mirrorLevels C
      (SortedMap.upsertEntries (Better side) price (fun queue => queue.getD [] ++ [r]) levels) := by
  induction levels with
  | nil => rfl
  | cons level levels ih =>
    have hcons : mirrorLevels C (level :: levels) =
        (C - level.1, level.2.map (RestingOrder.mirror C)) :: mirrorLevels C levels := rfl
    rw [hcons]
    unfold SortedMap.upsertEntries
    by_cases heq : level.1 = price
    · rw [if_pos heq, if_pos (by rw [heq])]
      simp [mirrorLevels]
    · rw [if_neg heq, if_neg (by omega)]
      by_cases hbetter : Better side price level.1
      · rw [if_pos hbetter, if_pos ((better_mirror C side _ _).mpr hbetter)]
        simp [mirrorLevels]
      · rw [if_neg hbetter, if_neg fun h => hbetter ((better_mirror C side _ _).mp h), ih]
        rfl

/-- A limit order and its mirror image come to rest at reflected prices. -/
theorem Mirrored.addToBook (h : Mirrored C excused s s') {o : Order} (htype : o.ordType = .limit) :
    Mirrored C excused (s.addToBook o) (s'.addToBook (o.mirror C)) := by
  have hobject : s'.nextObject (o.mirror C).refreshDisplay =
      (s.nextObject o.refreshDisplay).mirror C := by
    unfold nextObject
    rw [h.nextRef]
    rfl
  have hbook := h.book o.side.opposite
  have hpool := h.pool o.side.opposite
  rw [Side.opposite_opposite] at hbook hpool
  refine .of_side o.side ?_ ?_ ?_ ?_ ?_ ?_ ?_ ?_ ?_
  · have hentries := upsert_addToBook s' (o.mirror C)
    rw [mirror_price C htype, mirror_side, h.book, hobject, upsertEntries_mirror] at hentries
    rw [upsert_addToBook]
    exact hentries
  · rw [book_addToBook_of_ne _ _ (Side.opposite_ne _),
      book_addToBook_of_ne _ _ (Side.ne_opposite _)]
    exact hbook
  · rw [pool_addToBook, pool_addToBook]
    exact h.pool o.side
  · rw [pool_addToBook, pool_addToBook]
    exact hpool
  · rw [trades_addToBook, trades_addToBook]
    exact h.trades
  · rw [openOrders_addToBook, openOrders_addToBook, h.openOrders, h.nextRef]
    rfl
  · rw [executionListener_addToBook, executionListener_addToBook]
    exact h.executionListener
  · rw [nextRef_addToBook, nextRef_addToBook, h.nextRef]
  · rw [tradeIDCounter_addToBook, tradeIDCounter_addToBook]
    exact h.tradeIDCounter

/-- The price of an acknowledgement is reflected where there is one. -/
theorem acceptance_mirror (C : ℤ) {o : Order} (hv : o.Valid) :
    Callback.onAccepted (o.mirror C).orderID (o.mirror C).price (o.mirror C).quantity =
      (Callback.onAccepted o.orderID o.price o.quantity).mirror C := by
  have hprice : (o.mirror C).price = if o.price = Prices.na then o.price else C - o.price := by
    cases htype : o.ordType with
    | limit =>
      have hpos := (hv.limit_price htype).1
      rw [mirror_price C htype, if_neg (by unfold Prices.na; omega)]
    | pegMid => rw [mirror_price_peg C htype, if_pos (hv.peg_price htype).1]
  show Callback.onAccepted o.orderID (o.mirror C).price o.quantity = _
  rw [hprice]
  rfl

/-- The acknowledgements of an order and of its mirror image have reflected prices. -/
theorem Mirrored.onAccepted (h : Mirrored C excused s s') {o : Order} (hv : o.Valid) :
    Mirrored C excused (s.onAccepted o) (s'.onAccepted (o.mirror C)) := by
  refine ⟨h.book, h.pool, h.trades, h.openOrders, ?_, h.nextRef, h.tradeIDCounter⟩
  have hlistener := h.callback (.onAccepted o.orderID o.price o.quantity)
  rw [← acceptance_mirror C hv] at hlistener
  exact hlistener

/-- A peg and its mirror image come to rest at the ends of opposite pools. -/
theorem Mirrored.restPeg (h : Mirrored C excused s s') {o : Order} (hv : o.Valid) :
    Mirrored C excused (s.restPeg o) (s'.restPeg (o.mirror C)) := by
  have hobject : s'.nextObject (o.mirror C) = (s.nextObject o).mirror C := by
    unfold nextObject
    rw [h.nextRef]
    rfl
  have hbook := h.book o.side.opposite
  have hpool := h.pool o.side.opposite
  rw [Side.opposite_opposite] at hbook hpool
  refine .of_side o.side ?_ ?_ ?_ ?_ ?_ ?_ ?_ ?_ ?_
  · rw [book_restPeg, book_restPeg]
    exact h.book o.side
  · rw [book_restPeg, book_restPeg]
    exact hbook
  · have hqueue := pool_restPeg s' (o.mirror C)
    rw [mirror_side, h.pool, hobject] at hqueue
    rw [hqueue, pool_restPeg, List.map_append]
    rfl
  · rw [pool_restPeg_of_ne _ _ (Side.opposite_ne _), pool_restPeg_of_ne _ _ (Side.ne_opposite _)]
    exact hpool
  · rw [trades_restPeg, trades_restPeg]
    exact h.trades
  · rw [openOrders_restPeg, openOrders_restPeg, h.openOrders, h.nextRef]
    rfl
  · have hlistener := h.callback (.onAccepted o.orderID o.price o.quantity)
    rw [← acceptance_mirror C hv] at hlistener
    rw [executionListener_restPeg, executionListener_restPeg]
    exact hlistener
  · rw [nextRef_restPeg, nextRef_restPeg, h.nextRef]
  · rw [tradeIDCounter_restPeg, tradeIDCounter_restPeg]
    exact h.tradeIDCounter

/-- An order and its mirror image end alike where they do not rest. -/
theorem Mirrored.dispose (h : Mirrored C excused s s') (o : Order) :
    Mirrored C excused (s.dispose o) (s'.dispose (o.mirror C)) := by
  unfold MatchingEngine.dispose
  rw [mirror_quantity]
  split_ifs
  · exact ⟨h.book, h.pool, h.trades, h.openOrders, h.callback (.onExpired o.orderID o.quantity),
      h.nextRef, h.tradeIDCounter⟩
  · exact ⟨h.book, h.pool, h.trades, h.openOrders, h.executionListener, h.nextRef, h.tradeIDCounter⟩

/-! ## Where the resting orders come from -/

/-- An order has come in as one of some orders, whatever has been filled of it since. -/
def Stems (orders : List Order) (a : Order) : Prop :=
  ∃ o ∈ orders, a.orderID = o.orderID ∧ a.timeStamp = o.timeStamp ∧ a.side = o.side ∧
    a.ordType = o.ordType ∧
    a.price = o.price

/-- Every resting order has come in as one of some orders. -/
def Stemmed (orders : List Order) (s : MatchingEngine) : Prop :=
  ∀ r ∈ s.resting, Stems orders r.toOrder

variable {orders : List Order}

/-- An order of the list stems from it. -/
theorem Stems.of_mem {o : Order} (h : o ∈ orders) : Stems orders o :=
  ⟨o, h, rfl, rfl, rfl, rfl, rfl⟩

/-- Where the limits of all orders are below the point of reflection, those of the resting ones
are. -/
theorem Stemmed.below (h : s.Stemmed orders)
    (hprices : ∀ o ∈ orders, o.ordType = .limit → o.price < C) :
    s.Below C := by
  intro r hr htype
  obtain ⟨o, ho, -, -, -, hord, hprice⟩ := h r hr
  rw [hprice]
  exact hprices o ho (hord.symm.trans htype)

/-- What is left of the incoming order and what rests after some steps have come in as they did
before. -/
theorem Steps.stemmed {x y : Option Order × MatchingEngine} (h : Steps x y)
    (hx : (∀ o ∈ x.1, Stems orders o) ∧ x.2.Stemmed orders) :
    (∀ o ∈ y.1, Stems orders o) ∧ y.2.Stemmed orders :=
  h.keeps (fun _ _ h => h) (fun _ h => h) hx

/-! ## The entry points -/

/-- An engine at the end of the admission of a lit order, where the pools are crossed: the order has
been filled, and what is left of it disposed of. -/
def BeforeCross (s : MatchingEngine) (o : Order) (u : MatchingEngine) : Prop :=
  o.ordType = .limit ∧ (o.tif = .fok → s.canFillCompletely o = true) ∧
    ∃ o₁ s₁ o₂ s₂, pegStep o s = .ok (o₁, s₁) ∧ matchLit o.side o₁ s₁ = .ok (o₂, s₂) ∧
      u = s₂.disposeLit o₂

/-- Two callbacks that a run and its mirror image may have in one place: the reports of one fill of
a pool cross of the run, between two pegs with one id and one time stamp. -/
def Excused (C : ℤ) (calls : List Call) (c c' : Callback) : Prop :=
  ∃ pre order post u mid v, calls = pre ++ .addOrder order :: post ∧
    (after pre).BeforeCross order.1 u ∧ u.CrossReaches mid v ∧ TiedCross C mid v c c'

/-- An admission and the admission of the mirror image do the same. -/
theorem Mirrored.addOrder (h : Mirrored C excused s s') (hq : s.Queued) (hstems : s.Stemmed orders)
    (hprices : ∀ o ∈ orders, o.ordType = .limit → o.price < C) (hC : C ≤ 2^62) {o : Order}
    (ho : o ∈ orders) (hv : o.Valid)
    (hties : ∀ u mid v c c', s.BeforeCross o u → u.CrossReaches mid v → TiedCross C mid v c c' →
      excused c c')
    {t t' : MatchingEngine} (hadd : s.addOrder o = .ok t)
    (hadd' : s'.addOrder (o.mirror C) = .ok t') : Mirrored C excused t t' := by
  have hprobe := h.canFillCompletely hq (hstems.below hprices) hC o
  rcases addOrder_cases hadd with ⟨hfok, hfail, rfl⟩ | ⟨hpass, o₁, s₁, hpeg, hrest⟩
  · rcases addOrder_cases hadd' with ⟨-, -, rfl⟩ | ⟨hpass', -⟩
    · exact ⟨h.book, h.pool, h.trades, h.openOrders, h.callback (.onExpired o.orderID o.quantity),
        h.nextRef, h.tradeIDCounter⟩
    · rw [hprobe, hfail] at hpass'
      exact absurd (hpass' hfok) Bool.false_ne_true
  rcases addOrder_cases hadd' with ⟨hfok, hfail, -⟩ | ⟨-, o₁', s₁', hpeg', hrest'⟩
  · rw [hprobe, hpass hfok] at hfail
    exact absurd hfail.symm Bool.false_ne_true
  obtain ⟨rfl, hs₁⟩ := h.pegStep hq (hstems.below hprices) hC hpeg hpeg'
  have hfrom := pegStep_filledFrom hpeg
  rcases hrest with ⟨htype, rfl⟩ | ⟨htype, o₂, s₂, hlit, hcross⟩
  · rcases hrest' with ⟨-, rfl⟩ | ⟨htype', -⟩
    · unfold disposePeg
      rw [mirror_quantity, mirror_tif]
      split_ifs
      · exact hs₁.restPeg (hfrom.valid hv)
      · exact hs₁.dispose o₁
    · rw [mirror_ordType, htype] at htype'
      exact absurd htype' (by decide)
  · rcases hrest' with ⟨htype', -⟩ | ⟨-, o₂', s₂', hlit', hcross'⟩
    · rw [mirror_ordType, htype] at htype'
      exact absurd htype' (by decide)
    obtain ⟨rfl, hs₂⟩ := hs₁.matchLit (hfrom.ordType.trans htype) hlit hlit'
    have hfrom₂ := hfrom.trans (matchLit_filledFrom hlit)
    have hv₂ := hfrom₂.valid hv
    have hs₃ : Mirrored C excused (s₂.disposeLit o₂) (s₂'.disposeLit (o₂.mirror C)) := by
      unfold disposeLit
      rw [mirror_quantity, mirror_tif]
      split_ifs
      · exact (hs₂.addToBook (hfrom₂.ordType.trans htype)).onAccepted hv₂
      · exact hs₂.dispose o₂
    have hq₁ := hq.pegStep hpeg
    have hq₃ := (hq₁.matchLit hlit).disposeLit hv₂ (hfrom₂.ordType.trans htype)
    -- What rests before the pool cross has come in with the orders of the run.
    have hstems₃ : (s₂.disposeLit o₂).Stemmed orders := by
      rw [← hfrom.side] at hlit
      have hrun := (pegStep_steps hq hpeg).trans
        ((matchLit_steps hq₁ hlit).tail (disposeLit_step s₂ o₂))
      exact (Steps.stemmed hrun ⟨fun a ha => Option.mem_some.mp ha ▸ .of_mem ho, hstems⟩).2
    have hbefore : s.BeforeCross o (s₂.disposeLit o₂) :=
      ⟨htype, hpass, o₁, s₁, o₂, s₂, hpeg, hlit, rfl⟩
    exact hs₃.crossPegPools hq₃ (hstems₃.below hprices) hC
      (fun mid v c c' => hties _ mid v c c' hbefore) hcross hcross'

/-- A pool and the opposite one may be set to a queue and its mirror image. -/
theorem Mirrored.setPool (h : Mirrored C excused s s') (side : Side) (pool : List RestingOrder) :
    Mirrored C excused (s.setPool side pool)
      (s'.setPool side.opposite (pool.map (RestingOrder.mirror C))) := by
  have hbook := h.book side.opposite
  have hpool := h.pool side.opposite
  rw [Side.opposite_opposite] at hbook hpool
  refine .of_side side ?_ ?_ ?_ ?_ ?_ ?_ ?_ ?_ ?_
  · simpa using h.book side
  · simpa using hbook
  · rw [pool_setPool, pool_setPool]
  · rw [pool_setPool_of_ne _ _ _ (Side.ne_opposite _),
      pool_setPool_of_ne _ _ _ (Side.opposite_ne _)]
    exact hpool
  · simpa using h.trades
  · simpa using h.openOrders
  · simpa using h.executionListener
  · simpa using h.nextRef
  · simpa using h.tradeIDCounter

/-- A book and the opposite one may be set to levels and their mirror image. -/
theorem Mirrored.setBook (h : Mirrored C excused s s') (side : Side) {book : Book side}
    {book' : Book side.opposite} (hentries : book'.entries = mirrorLevels C book.entries) :
    Mirrored C excused (s.setBook side book) (s'.setBook side.opposite book') := by
  have hbook := h.book side.opposite
  have hpool := h.pool side.opposite
  rw [Side.opposite_opposite] at hbook hpool
  refine .of_side side ?_ ?_ ?_ ?_ ?_ ?_ ?_ ?_ ?_
  · rw [book_setBook, book_setBook]
    exact hentries
  · rw [book_setBook_of_ne _ _ _ (Side.ne_opposite _),
      book_setBook_of_ne _ _ _ (Side.opposite_ne _)]
    exact hbook
  · simpa using h.pool side
  · simpa using hpool
  · simpa using h.trades
  · simpa using h.openOrders
  · simpa using h.executionListener
  · simpa using h.nextRef
  · simpa using h.tradeIDCounter

/-- The level of a price is the mirror image of the level of the reflected price. -/
theorem Mirrored.get? (h : Mirrored C excused s s') (side : Side) (price : ℤ) :
    (s'.book side.opposite).get? (C - price) =
      ((s.book side).get? price).map fun queue => queue.map (RestingOrder.mirror C) := by
  have hkey : ((fun e : ℤ × List RestingOrder => decide (e.1 = C - price)) ∘
      fun level : ℤ × List RestingOrder => (C - level.1, level.2.map (RestingOrder.mirror C))) =
        fun e => decide (e.1 = price) := by
    funext e
    simp only [Function.comp_apply, decide_eq_decide]
    omega
  unfold SortedMap.get?
  rw [h.book, mirrorLevels, List.find?_map, hkey, Option.map_map, Option.map_map]
  rfl

/-- The search by identity finds the mirror image of what it finds. -/
theorem eraseP_mirror (C : ℤ) (ref : Ref) (queue : List RestingOrder) :
    (queue.map (RestingOrder.mirror C)).eraseP (fun o => o.ref = ref) =
      (queue.eraseP fun o => o.ref = ref).map (RestingOrder.mirror C) := by
  rw [List.eraseP_map]
  rfl

/-- A limit order leaves its level, and an empty level the book. -/
theorem withdraw_of_level {r : RestingOrder} (htype : r.ordType = .limit)
    {queue : List RestingOrder} (hlevel : (s.book r.side).get? r.price = some queue) :
    s.withdraw r =
      if (queue.eraseP fun o => o.ref = r.ref).isEmpty then
      s.setBook r.side ((s.book r.side).erase r.price)
      else s.setBook r.side
        ((s.book r.side).replace r.price (queue.eraseP fun o => o.ref = r.ref)) := by
  simp only [MatchingEngine.withdraw, htype, hlevel]

/-- The withdrawal of a limit order changes nothing where its price is no level. -/
theorem withdraw_of_no_level {r : RestingOrder} (htype : r.ordType = .limit)
    (hlevel : (s.book r.side).get? r.price = none) : s.withdraw r = s := by
  simp only [MatchingEngine.withdraw, htype, hlevel]

/-- The level of a price is erased where that of the reflected price is. -/
theorem Mirrored.erase (h : Mirrored C excused s s') (side : Side) (price : ℤ) :
    ((s'.book side.opposite).erase (C - price)).entries =
      mirrorLevels C ((s.book side).erase price).entries := by
  rw [SortedMap.entries_erase, SortedMap.entries_erase, h.book, mirrorLevels, mirrorLevels,
    List.filter_map]
  congr 1
  refine List.filter_congr fun level _ => ?_
  simp only [Function.comp_apply, decide_eq_decide]
  omega

/-- The level of a price is replaced where that of the reflected price is. -/
theorem Mirrored.replace (h : Mirrored C excused s s') (side : Side) (price : ℤ)
    (queue : List RestingOrder) :
    ((s'.book side.opposite).replace (C - price) (queue.map (RestingOrder.mirror C))).entries =
      mirrorLevels C ((s.book side).replace price queue).entries := by
  rw [SortedMap.entries_replace, SortedMap.entries_replace, h.book, mirrorLevels, mirrorLevels,
    List.map_map, List.map_map]
  refine List.map_congr_left fun level _ => ?_
  simp only [Function.comp_apply]
  by_cases hprice : level.1 = price
  · rw [if_pos hprice, if_pos (by rw [hprice])]
  · rw [if_neg hprice, if_neg (by omega)]

/-- An order leaves its queue as its mirror image does. -/
theorem Mirrored.withdraw (h : Mirrored C excused s s') (r : RestingOrder) :
    Mirrored C excused (s.withdraw r) (s'.withdraw (r.mirror C)) := by
  cases htype : r.ordType with
  | pegMid =>
    have htype' : (r.mirror C).ordType = .pegMid := htype
    have hpool := h.setPool r.side ((s.pool r.side).eraseP fun o => o.ref = r.ref)
    rw [← eraseP_mirror, ← h.pool] at hpool
    simp only [MatchingEngine.withdraw, htype, htype']
    exact hpool
  | limit =>
    have htype' : (r.mirror C).ordType = .limit := htype
    have hprice : (r.mirror C).price = C - r.price := mirror_price C htype
    have hget := h.get? r.side r.price
    rw [← hprice] at hget
    cases hlevel : (s.book r.side).get? r.price with
    | none =>
      rw [hlevel, Option.map_none] at hget
      rw [withdraw_of_no_level htype hlevel, withdraw_of_no_level htype' hget]
      exact h
    | some queue =>
      rw [hlevel, Option.map_some] at hget
      rw [withdraw_of_level htype hlevel, withdraw_of_level htype' hget, hprice]
      have hempty : ((queue.map (RestingOrder.mirror C)).eraseP fun o =>
          o.ref = (r.mirror C).ref).isEmpty = (queue.eraseP fun o => o.ref = r.ref).isEmpty := by
        show ((queue.map (RestingOrder.mirror C)).eraseP fun o => o.ref = r.ref).isEmpty = _
        rw [eraseP_mirror, List.isEmpty_map]
      rw [hempty]
      split_ifs
      · exact h.setBook r.side (h.erase r.side r.price)
      · refine h.setBook r.side ?_
        rw [← h.replace r.side r.price, ← eraseP_mirror]
        rfl

/-- A resting order rests in the mirror image too. -/
theorem Mirrored.mem_resting (h : Mirrored C excused s s') {r : RestingOrder} (hr : r ∈ s.resting) :
    r.mirror C ∈ s'.resting := by
  obtain ⟨side, hr | hr⟩ := MatchingEngine.mem_resting.mp hr
  · obtain ⟨level, hlevel, hr⟩ := mem_orders.mp hr
    refine MatchingEngine.mem_resting.mpr ⟨side.opposite, .inl (mem_orders.mpr ?_)⟩
    rw [h.book]
    exact ⟨_, List.mem_map_of_mem hlevel, List.mem_map_of_mem hr⟩
  · refine MatchingEngine.mem_resting.mpr ⟨side.opposite, .inr ?_⟩
    rw [h.pool]
    exact List.mem_map_of_mem hr

/-- A cancel has the same result in the mirror image, and does the same. -/
theorem Mirrored.cancelOrder (h : Mirrored C excused s s') (hr : s.Reachable) (hr' : s'.Reachable)
    (orderID : ℤ) :
    (s'.cancelOrder orderID).2 = (s.cancelOrder orderID).2 ∧
      Mirrored C excused (s.cancelOrder orderID).1 (s'.cancelOrder orderID).1 := by
  cases hreg : s.openOrders orderID with
  | none =>
    have hreg' : s'.openOrders orderID = none := by rw [h.openOrders, hreg]
    have hnone : ∀ {u : MatchingEngine}, u.openOrders orderID = none →
        u.cancelOrder orderID = (u, false) := by
      intro u hu
      unfold MatchingEngine.cancelOrder
      rw [hu]
    rw [hnone hreg, hnone hreg']
    exact ⟨rfl, h⟩
  | some ref =>
    obtain ⟨r, hrest, rfl, -⟩ := hr.identified.registered orderID ref hreg
    have hreg' : s'.openOrders orderID = some (r.mirror C).ref := by
      rw [h.openOrders, hreg]
      rfl
    rw [cancelOrder_eq hr.queued hr.identified hrest hreg,
      cancelOrder_eq hr'.queued hr'.identified (h.mem_resting hrest) hreg']
    refine ⟨rfl, ?_⟩
    have hretired : Mirrored C excused ((s.unregister orderID).retire r.toOrder.cancel)
        ((s'.unregister orderID).retire (r.mirror C).toOrder.cancel) := by
      refine ⟨h.book, h.pool, h.trades, ?_, h.executionListener, h.nextRef, h.tradeIDCounter⟩
      exact congrArg (Function.update · orderID none) h.openOrders
    exact hretired.withdraw r

/-! ## Runs -/

/-- A call and its mirror image. -/
inductive MirrorsCall (C : ℤ) : Call → Call → Prop
  | addOrder {order order' : { o : Order // o.Constructed }} :
    order'.1 = order.1.mirror C → MirrorsCall C (.addOrder order) (.addOrder order')
  | cancelOrder (orderID : ℤ) : MirrorsCall C (.cancelOrder orderID) (.cancelOrder orderID)

/-- The constructor accepts the mirror image of an order below the point of reflection. -/
theorem constructed_mirror (htick : C % 100 = 0) {o : Order} (ho : o.Constructed)
    (hprice : o.ordType = .limit → o.price < C) : (o.mirror C).Constructed := by
  obtain ⟨orderID, timeStamp, side, quantity, price, participantID, tif, peak, ordType, hnew⟩ := ho
  obtain ⟨side, tif, ordType, rfl, rfl, rfl⟩ := Order.exists_of_new_eq_ok hnew
  obtain ⟨hadm, rfl⟩ := Order.new_eq_ok_iff.mp hnew
  have hlimit : ordType = .limit → price < C := hprice
  refine ⟨orderID, timeStamp, some side.opposite, quantity,
    if ordType = .limit then C - price else price,
    participantID, some tif, peak, some ordType, Order.new_eq_ok_iff.mpr ⟨?_, rfl⟩⟩
  refine { hadm with limit_price := fun htype => ?_, peg_price := fun htype => ?_ }
  · have hvalid := hadm.limit_price htype
    have hlt := hlimit htype
    rw [if_pos htype]
    omega
  · rw [if_neg (by rw [htype]; decide)]
    exact hadm.peg_price htype

/-- A run below the point of reflection has a mirror image. -/
theorem exists_mirror (htick : C % 100 = 0) (calls : List Call)
    (hprices : ∀ o ∈ added calls, o.ordType = .limit → o.price < C) :
    ∃ calls', List.Forall₂ (MirrorsCall C) calls calls' := by
  induction calls with
  | nil => exact ⟨[], .nil⟩
  | cons c calls ih =>
    cases c with
    | addOrder order =>
      have hadded : added (.addOrder order :: calls) = order.1 :: added calls := rfl
      rw [hadded, List.forall_mem_cons] at hprices
      obtain ⟨calls', hcalls⟩ := ih hprices.2
      exact ⟨.addOrder ⟨order.1.mirror C, constructed_mirror htick order.2 hprices.1⟩ :: calls',
        .cons (.addOrder rfl) hcalls⟩
    | cancelOrder orderID =>
      obtain ⟨calls', hcalls⟩ := ih hprices
      exact ⟨.cancelOrder orderID :: calls', .cons (.cancelOrder orderID) hcalls⟩

/-- What rests after a cancel has rested before. -/
theorem Stemmed.cancelOrder (h : s.Stemmed orders) (hr : s.Reachable) (orderID : ℤ) :
    (s.cancelOrder orderID).1.Stemmed orders := by
  rcases cancelOrder_spec hr.queued hr.identified orderID
    with ⟨-, hnone⟩ | ⟨r, t, -, -, hperm, hsome, -⟩
  · rw [hnone]
    exact h
  · rw [hsome]
    exact fun x hx => h x (hperm.mem_iff.mpr (List.mem_cons_of_mem _ hx))

/-- A call and its mirror image take an engine and its mirror image to such. -/
theorem Mirrored.call (h : Mirrored C excused s s') (hr : s.Reachable) (hr' : s'.Reachable)
    (hstems : s.Stemmed orders) (hprices : ∀ o ∈ orders, o.ordType = .limit → o.price < C)
    (hC : C ≤ 2^62) {c c' : Call} (hmem : ∀ o ∈ c.added, o ∈ orders)
    (hties : ∀ order u mid v d d', c = .addOrder order → s.BeforeCross order.1 u →
      u.CrossReaches mid v → TiedCross C mid v d d' → excused d d')
    (hmirrors : MirrorsCall C c c') {t t' : MatchingEngine} (hc : s.call c = .ok t)
    (hc' : s'.call c' = .ok t') : Mirrored C excused t t' ∧ t.Stemmed orders := by
  cases hmirrors with
  | @addOrder order order' heq =>
    have ho : order.1 ∈ orders := hmem order.1 rfl
    obtain ⟨hv, hpos⟩ := order.2.valid
    have hadd' : s'.addOrder (order.1.mirror C) = .ok t' := by
      rw [← heq]
      exact hc'
    have hrun := addOrder_steps hr.queued hv hpos hc
    exact ⟨h.addOrder hr.queued hstems hprices hC ho hv
        (fun u mid v d d' => hties order u mid v d d' rfl) hc hadd',
      (Steps.stemmed hrun ⟨fun a ha => Option.mem_some.mp ha ▸ .of_mem ho, hstems⟩).2⟩
  | cancelOrder orderID =>
    obtain rfl := Except.ok.inj hc
    obtain rfl := Except.ok.inj hc'
    exact ⟨(h.cancelOrder hr hr' orderID).2, hstems.cancelOrder hr orderID⟩

/-- The calls of a run and of its mirror image keep an engine and its mirror image such. -/
theorem Mirrored.run (hprices : ∀ o ∈ orders, o.ordType = .limit → o.price < C) (hC : C ≤ 2^62)
    {calls calls' : List Call} (hmirrors : List.Forall₂ (MirrorsCall C) calls calls')
    (hmem : ∀ o ∈ added calls, o ∈ orders) {s s' t t' : MatchingEngine}
    (h : Mirrored C excused s s') (hr : s.Reachable) (hr' : s'.Reachable)
    (hstems : s.Stemmed orders)
    (hties : ∀ pre order post w u mid v d d', calls = pre ++ .addOrder order :: post →
      pre.foldlM MatchingEngine.call s = .ok w → w.BeforeCross order.1 u → u.CrossReaches mid v →
      TiedCross C mid v d d' → excused d d')
    (hrun : calls.foldlM MatchingEngine.call s = .ok t)
    (hrun' : calls'.foldlM MatchingEngine.call s' = .ok t') : Mirrored C excused t t' := by
  induction hmirrors generalizing s s' with
  | nil =>
    obtain rfl := Except.ok.inj hrun
    obtain rfl := Except.ok.inj hrun'
    exact h
  | @cons c c' calls calls' hcall _ ih =>
    rw [List.foldlM_cons] at hrun hrun'
    obtain ⟨u, hu, hrun⟩ := bind_eq_ok.mp hrun
    obtain ⟨u', hu', hrun'⟩ := bind_eq_ok.mp hrun'
    have hfirst : ∀ o ∈ c.added, o ∈ orders := fun o ho =>
      hmem o (List.mem_filterMap.mpr ⟨c, List.mem_cons_self, ho⟩)
    have hrest : ∀ o ∈ added calls, o ∈ orders := by
      intro o ho
      obtain ⟨d, hd, hdo⟩ := List.mem_filterMap.mp ho
      exact hmem o (List.mem_filterMap.mpr ⟨d, List.mem_cons_of_mem _ hd, hdo⟩)
    obtain ⟨hnext, hstems'⟩ := h.call hr hr' hstems hprices hC hfirst
      (fun order u mid v d d' hc => hties [] order calls s u mid v d d' (hc ▸ rfl) rfl) hcall hu hu'
    refine ih hrest hnext (hr.call hu) (hr'.call hu') hstems' ?_ hrun hrun'
    -- A crossing after the first call is a crossing of the whole run.
    intro pre order post w v mid x d d' hcalls hw
    refine hties (c :: pre) order post w v mid x d d' (by rw [hcalls]; rfl) ?_
    rw [List.foldlM_cons, hu]
    exact hw

/-- Buy and sell are mirror images. Let a run have all its limit prices below a multiple of 100 that
is at most `2^62`, and exchange the sides of its orders and reflect the prices in that point. At
every moment the run of the mirrored orders has the mirrored engine: the same trades with buyer and
seller exchanged and the prices reflected, the same callbacks with the prices reflected, the two
sides exchanged with the same order in every queue, and the same result for every cancel. Only the
fill of a pool cross between a buy peg and a sell peg with one id and one time stamp tells what
remains of the other of the two. -/
theorem runs_mirrored (htick : C % 100 = 0) (hC : C ≤ 2^62) (calls : List Call)
    (hprices : ∀ o ∈ added calls, o.ordType = .limit → o.price < C) :
    (∃ calls', List.Forall₂ (MirrorsCall C) calls calls') ∧
      ∀ calls', List.Forall₂ (MirrorsCall C) calls calls' → ∀ n,
        Mirrored C (Excused C calls) (after (calls.take n)) (after (calls'.take n)) ∧
          ∀ orderID, ((after (calls'.take n)).cancelOrder orderID).2 =
            ((after (calls.take n)).cancelOrder orderID).2 := by
  refine ⟨exists_mirror htick calls hprices, fun calls' hmirrors n => ?_⟩
  have hmem : ∀ o ∈ added (calls.take n), o ∈ added calls := by
    intro o ho
    obtain ⟨c, hc, hco⟩ := List.mem_filterMap.mp ho
    exact List.mem_filterMap.mpr ⟨c, List.mem_of_mem_take hc, hco⟩
  have hempty : Mirrored C (Excused C calls) {} {} :=
    ⟨fun side => by cases side <;> rfl, fun side => by cases side <;> rfl, rfl, rfl, .nil, rfl, rfl⟩
  have hstems : Stemmed (added calls) {} := fun r hr => absurd hr List.not_mem_nil
  have hties : ∀ pre order post w u mid v d d', calls.take n = pre ++ .addOrder order :: post →
      pre.foldlM MatchingEngine.call {} = .ok w → w.BeforeCross order.1 u → u.CrossReaches mid v →
      TiedCross C mid v d d' → Excused C calls d d' := by
    intro pre order post w u mid v d d' hcalls hw hbefore hreaches htied
    obtain rfl : after pre = w := Except.ok.inj ((run_eq_after pre).symm.trans hw)
    have hsplit : calls = pre ++ .addOrder order :: (post ++ calls.drop n) := by
      calc calls = calls.take n ++ calls.drop n := (List.take_append_drop n calls).symm
        _ = pre ++ .addOrder order :: (post ++ calls.drop n) := by
          rw [hcalls, List.append_assoc, List.cons_append]
    exact ⟨pre, order, post ++ calls.drop n, u, mid, v, hsplit, hbefore, hreaches, htied⟩
  have hrun := Mirrored.run hprices hC (List.forall₂_take n hmirrors) hmem hempty .empty
    .empty hstems
    hties (run_eq_after _) (run_eq_after _)
  exact ⟨hrun, fun orderID => (hrun.cancelOrder (reachable_after _) (reachable_after _) orderID).1⟩

/-- The run of `quotedCalls` and its mirror image in 202 cents. -/
theorem runs_mirrored_quoted :
    ∃ calls', List.Forall₂ (MirrorsCall 20200) quotedCalls calls' ∧
      Mirrored 20200 (Excused 20200 quotedCalls) (after quotedCalls) (after calls') := by
  obtain ⟨⟨calls', hmirrors⟩, hall⟩ := runs_mirrored (C := 20200) rfl (by decide)
    quotedCalls (by decide)
  have hmirrored := (hall calls' hmirrors 4).1
  have hlength : calls'.length = 4 := hmirrors.length_eq.symm
  rw [List.take_of_length_le (Nat.le_of_eq hlength)] at hmirrored
  exact ⟨calls', hmirrors, hmirrored⟩

/-- A buy peg of 5 and a sell peg of 3 with one id and one time stamp, and a bid and an ask that let
them cross. -/
def tiedCalls : List Call :=
  [.addOrder ⟨.built 1 1 .buy 5 Prices.na 1 .gtc 0 .pegMid,
    1, 1, some .buy, 5, Prices.na, 1, some .gtc, 0, some .pegMid, rfl⟩,
   .addOrder ⟨.built 1 1 .sell 3 Prices.na 1 .gtc 0 .pegMid,
    1, 1, some .sell, 3, Prices.na, 1, some .gtc, 0, some .pegMid, rfl⟩,
   .addOrder ⟨.built 2 2 .buy 1 9900 1 .gtc 0 .limit,
    2, 2, some .buy, 1, 9900, 1, some .gtc, 0, some .limit, rfl⟩,
   .addOrder ⟨.built 3 3 .sell 1 10100 1 .gtc 0 .limit,
    3, 3, some .sell, 1, 10100, 1, some .gtc, 0, some .limit, rfl⟩]

/-- The mirror image of `tiedCalls` in two dollars. -/
def tiedMirrorCalls : List Call :=
  [.addOrder ⟨.built 1 1 .sell 5 Prices.na 1 .gtc 0 .pegMid,
    1, 1, some .sell, 5, Prices.na, 1, some .gtc, 0, some .pegMid, rfl⟩,
   .addOrder ⟨.built 1 1 .buy 3 Prices.na 1 .gtc 0 .pegMid,
    1, 1, some .buy, 3, Prices.na, 1, some .gtc, 0, some .pegMid, rfl⟩,
   .addOrder ⟨.built 2 2 .sell 1 10100 1 .gtc 0 .limit,
    2, 2, some .sell, 1, 10100, 1, some .gtc, 0, some .limit, rfl⟩,
   .addOrder ⟨.built 3 3 .buy 1 9900 1 .gtc 0 .limit,
    3, 3, some .buy, 1, 9900, 1, some .gtc, 0, some .limit, rfl⟩]

/-- The sell peg is the aggressor of the cross in the run and in its mirror image: nothing of it
remains in the one, and 2 in the other. -/
theorem tied_pegs_not_mirrored :
    List.Forall₂ (MirrorsCall 20000) tiedCalls tiedMirrorCalls ∧
      (∀ o ∈ added tiedCalls, o.ordType = .limit → 0 < o.price ∧ o.price < 20000) ∧
      (after tiedCalls).executionListener.getLast? = some (.onFill 1 1 1 10000 3 0) ∧
      (after tiedMirrorCalls).executionListener.getLast? = some (.onFill 1 1 1 10000 3 2) ∧
      (after tiedMirrorCalls).executionListener ≠
      (after tiedCalls).executionListener.map (Callback.mirror 20000) := by
  refine ⟨?_, by decide, by decide, by decide, by decide⟩
  exact .cons (.addOrder rfl)
    (.cons (.addOrder rfl) (.cons (.addOrder rfl) (.cons (.addOrder rfl) .nil)))

end MatchingEngine

end MatchingVenue
