import MatchingVenue.Ledger.Conservation
import MatchingVenue.Ledger.Reports

/-!
# The trade log and the execution stream

A fill is written down twice: as a trade of the engine's list and as a report of the handler's
stream. The buyer and the seller of the one are the aggressor and the passive order of the other, in
one order or the other, and the fill sites decide which. `Confirms` relates the two records of a
fill, and `Confirmed` the two lists.

The trade ids come from a counter in 64 bit arithmetic, so they increase as long as it does not
wrap.
-/

namespace MatchingVenue

namespace MatchingEngine

/-! ## Trade ids -/

/-- The trade ids count the trades. -/
def Counted (s : MatchingEngine) : Prop :=
  s.tradeIDCounter = toLong s.trades.length ∧
    s.trades.map Trade.tradeId = (List.range s.trades.length).map fun i => toLong (i + 1 : ℕ)

/-- The empty engine has counted no trade. -/
theorem counted_empty : ({} : MatchingEngine).Counted := ⟨rfl, rfl⟩

/-- What adds no trade and leaves the counter alone keeps the count. -/
theorem Counted.congr {s t : MatchingEngine} (h : s.Counted) (htrades : t.trades = s.trades)
    (hcounter : t.tradeIDCounter = s.tradeIDCounter) : t.Counted := by
  unfold Counted
  rw [htrades, hcounter]
  exact h

/-- One more trade under the next id keeps the count. -/
theorem Counted.record {s t : MatchingEngine} (h : s.Counted) {trade : Trade}
    (htrades : t.trades = s.trades ++ [trade]) (hid : trade.tradeId = toLong (s.tradeIDCounter + 1))
    (hcounter : t.tradeIDCounter = toLong (s.tradeIDCounter + 1)) : t.Counted := by
  obtain ⟨hlength, hids⟩ := h
  have hnext : toLong (s.tradeIDCounter + 1) = toLong (s.trades.length + 1 : ℕ) := by
    rw [hlength, Nat.cast_succ, toLong, toLong, toLong, Int.bmod_add_bmod]
  unfold Counted
  rw [htrades, hcounter, hnext, List.length_append, List.length_singleton]
  refine ⟨rfl, ?_⟩
  rw [List.map_append, hids, List.range_succ, List.map_append, List.map_singleton,
    List.map_singleton, hid, hnext]

/-- A trade has the next id. -/
theorem fillTrade_tradeId (s : MatchingEngine) (aggressor passive : Order) (price : ℤ) (m : ℕ) :
    (s.fillTrade aggressor passive price m).tradeId = toLong (s.tradeIDCounter + 1) := by
  unfold fillTrade
  cases aggressor.side <;> rfl

/-- An admission counts its trades. -/
theorem Counted.addOrder {s t : MatchingEngine} (h : s.Counted) (hq : s.Queued) {o : Order}
    (hv : o.Valid) (hadd : s.addOrder o = .ok t) : t.Counted := by
  refine hq.addOrder_induction hv hadd h ?_ ?_ ?_ ?_ ?_ ?_ ?_
  · intro mid a u b v _ hu hbody
    obtain ⟨r, behind, m, -, -, -, -, rfl⟩ := matchPegPoolBody_some hbody
    have htrades := (trades_settleHead _ a.side.opposite (r.filled m) behind).trans
      (u.trades_recordFill (a.filled m) (r.filled m).toOrder mid m)
    exact hu.record htrades (fillTrade_tradeId u _ _ mid m) (by simp)
  · intro side a u b v _ hu hbody
    obtain ⟨p, r, behind, levels, m, -, -, -, -, -, -, rfl⟩ := matchLitBody_some hbody
    have htrades := (trades_settleLit _ side.opposite (r.filled m) behind).trans
      (u.trades_recordFill (a.filled m) (r.filled m).toOrder p m)
    exact hu.record htrades (fillTrade_tradeId u _ _ p m) (by simp)
  · intro mid u v _ hu hbody
    obtain ⟨bid, bids, ask, asks, m, -, -, -, -, rfl⟩ := crossPegPoolsBody_some hbody
    exact hu.record ((trades_settleHead _ _ _ _).trans (trades_settleHead _ _ _ _)) rfl (by simp)
  · exact fun u a _ hu _ => hu.congr (by simp) (by simp)
  · exact fun u a _ hu _ => hu.congr (by simp [onAccepted]) (by simp [onAccepted])
  · exact fun u a hu => hu.congr rfl rfl
  · exact fun u a hu => hu.congr rfl rfl

/-- A cancel makes no trade. -/
theorem Counted.cancelOrder {s : MatchingEngine} (h : s.Counted) (orderID : ℤ) :
    (s.cancelOrder orderID).1.Counted := by
  unfold MatchingEngine.cancelOrder
  split
  · exact h
  simp only
  split
  · exact h
  split_ifs
  · exact h
  · exact h.congr (by simp [retire, unregister]) (by simp [retire, unregister])

/-- In a reachable engine the trade ids count the trades. -/
theorem Reachable.counted {s : MatchingEngine} (h : s.Reachable) : s.Counted :=
  h.induction counted_empty (fun _ _ _ hr hs ho hadd => hs.addOrder hr.queued ho.valid.1 hadd)
    fun _ orderID _ hs => hs.cancelOrder orderID

/-- Fewer than `2^63` trades have increasing ids. -/
theorem Counted.increasing {s : MatchingEngine} (h : s.Counted) (hlength : s.trades.length < 2^63) :
    (s.trades.map Trade.tradeId).Pairwise (· < ·) := by
  rw [h.2, List.pairwise_map]
  refine List.Pairwise.imp_of_mem ?_ List.pairwise_lt_range
  intro i j hi hj hij
  rw [List.mem_range] at hi hj
  rw [toLong_of_le (by omega) (by simp only [longMax]; omega),
    toLong_of_le (by omega) (by simp only [longMax]; omega)]
  exact_mod_cast Nat.succ_lt_succ hij

/-! ## The two records of a fill -/

open MatchingEngineHandler (report)

/-- A report and the trade that it reports: the same trade id, price and quantity, about the
aggressor, who is the buyer or the seller while the passive order is the other one. -/
structure Confirms (r : ExecutionEvent) (trade : Trade) : Prop where
  tradeId : r.tradeId = trade.tradeId
  price : r.price = trade.price
  quantity : r.filledQuantity = trade.quantity
  orderId : r.orderId = r.aggressorOrderId
  parties : r.aggressorOrderId = trade.buyOrderId ∧ r.passiveOrderId = trade.sellOrderId ∨
    r.aggressorOrderId = trade.sellOrderId ∧ r.passiveOrderId = trade.buyOrderId

/-- The reports of trades among the reports of some callbacks. -/
def fillReports (callbacks : List Callback) : List ExecutionEvent :=
  (callbacks.map report).filter ExecutionEvent.isFill

/-- The fill reports of two stretches of callbacks are those of both. -/
theorem fillReports_append (callbacks callbacks' : List Callback) :
    fillReports (callbacks ++ callbacks') = fillReports callbacks ++ fillReports callbacks' := by
  simp only [fillReports, List.map_append, List.filter_append]

/-- A fill callback is one fill report. -/
theorem fillReports_onFill (aggressor passive tradeId price : ℤ) (m remaining : ℕ) :
    fillReports [.onFill aggressor passive tradeId price m remaining] =
      [MatchingEngineHandler.onFill aggressor passive tradeId price m remaining] := by
  have hfill := MatchingEngineHandler.isFill_onFill aggressor passive tradeId price m remaining
  exact List.filter_cons_of_pos hfill

/-- The listener has heard of every trade, in order, and of no other fill. -/
def Confirmed (s : MatchingEngine) : Prop :=
  List.Forall₂ Confirms (fillReports s.executionListener) s.trades

/-- The listener of the empty engine has heard of nothing, and there is nothing to hear of. -/
theorem confirmed_empty : ({} : MatchingEngine).Confirmed := .nil

/-- What adds neither a trade nor the report of one. -/
theorem Confirmed.other {s t : MatchingEngine} (h : s.Confirmed) {callbacks : List Callback}
    (hcallbacks : fillReports callbacks = []) {left : List Order}
    (hlogs : Logs s t [] callbacks left) :
    t.Confirmed := by
  unfold Confirmed
  rw [hlogs.executionListener, hlogs.trades, fillReports_append, hcallbacks, List.append_nil,
    List.append_nil]
  exact h

/-- One more fill, written down in both places. -/
theorem Confirmed.fill {s t : MatchingEngine} (h : s.Confirmed)
    {aggressor passive tradeId price : ℤ} {m remaining : ℕ} {trade : Trade} {left : List Order}
    (hconfirms : Confirms (MatchingEngineHandler.onFill aggressor passive tradeId price m remaining)
    trade)
    (hlogs : Logs s t [trade] [.onFill aggressor passive tradeId price m remaining] left) :
    t.Confirmed := by
  unfold Confirmed
  rw [hlogs.executionListener, hlogs.trades, fillReports_append, fillReports_onFill]
  exact List.rel_append h (.cons hconfirms .nil)

/-- The fill of an incoming order: the buyer of the trade is the one on the buy side. -/
theorem confirms_fillTrade (s : MatchingEngine) (o r : Order) (price : ℤ) (m remaining : ℕ) :
    Confirms
      (MatchingEngineHandler.onFill o.orderID r.orderID (toLong (s.tradeIDCounter + 1)) price m
      remaining) (s.fillTrade o r price m) := by
  unfold fillTrade
  cases o.side with
  | buy => exact ⟨rfl, rfl, rfl, rfl, .inl ⟨rfl, rfl⟩⟩
  | sell => exact ⟨rfl, rfl, rfl, rfl, .inr ⟨rfl, rfl⟩⟩

/-- The fill of two pegs: the later arrival is the aggressor, on whichever side it is. -/
theorem confirms_crossTrade (s : MatchingEngine) (bid ask : RestingOrder) (price : ℤ)
    (m remaining : ℕ) :
    Confirms (MatchingEngineHandler.onFill (crossRoles bid ask m).1.orderID
      (crossRoles bid ask m).2.orderID
      (toLong (s.tradeIDCounter + 1)) price m remaining)
        (s.crossTrade price m bid.toOrder ask.toOrder) := by
  unfold crossRoles
  by_cases hlater : laterArrival bid.toOrder ask.toOrder = true
  · rw [if_pos hlater]
    exact ⟨rfl, rfl, rfl, rfl, .inl ⟨rfl, rfl⟩⟩
  · rw [if_neg hlater]
    exact ⟨rfl, rfl, rfl, rfl, .inr ⟨rfl, rfl⟩⟩

/-- A step that makes a trade tells the listener of it. -/
theorem Step.confirmed {x y : Option Order × MatchingEngine} (h : Step x y) (hx : x.2.Confirmed) :
    y.2.Confirmed := by
  cases h with
  | @hit o s s' r r' others price m _ _ _ _ _ _ hlogs _ _ _ =>
    exact hx.fill (confirms_fillTrade s o r.toOrder price m _) hlogs
  | @cross s s' bid ask others price m _ _ _ _ _ hlogs _ _ _ _ =>
    exact hx.fill (confirms_crossTrade s bid ask price m _) hlogs
  | rest _ _ _ _ _ _ hlogs => exact hx.other rfl hlogs
  | expire _ _ _ _ hlogs => exact hx.other rfl hlogs
  | finish _ _ hlogs => exact hx.other rfl hlogs

/-- In a reachable engine the listener has heard of every trade. -/
theorem Reachable.confirmed {s : MatchingEngine} (h : s.Reachable) : s.Confirmed := by
  refine h.step_induction confirmed_empty (fun _ _ hu hstep => hstep.confirmed hu) ?_
  intro u orderID hr hu
  rcases cancelOrder_spec hr.queued hr.identified orderID with
    ⟨-, hcancel⟩ | ⟨r, t, -, -, -, hcancel, hlogs, -, -⟩
  · rw [hcancel]
    exact hu
  · rw [hcancel]
    exact hu.other rfl hlogs

end MatchingEngine

namespace MatchingEngineHandler

open MatchingEngine (Confirms fillReports fillReports_append addOrder_steps
  executionListener_cancelOrder added
  sourced_after)

/-- The reports of trades that were published are those of the listener's fills. -/
theorem filter_outbound_after (events : List OrderEvent) :
    (after events).outbound.filter ExecutionEvent.isFill =
      fillReports (after events).engine.executionListener := by
  induction events using List.reverseRecOn with
  | nil => rfl
  | append_singleton pre event ih =>
    have hr := reachable_after pre
    rcases onEvent_cases (onEvent_after pre event) with ⟨-, hengine, hout⟩ | ⟨-, -, hengine, hout⟩ |
      ⟨-, o, ho, hadd, hout⟩
    · rw [hengine, hout, executionListener_cancelOrder hr, List.filter_append, ih]
      split_ifs <;> exact List.append_nil _
    · rw [hengine, hout, List.filter_append, ih]
      exact List.append_nil _
    · obtain ⟨hvalid, hpos⟩ := (order_constructed ho).valid
      obtain ⟨⟨callbacks, hlistener, -⟩, -⟩ :=
        steps_dispose (addOrder_steps hr.queued hvalid hpos hadd)
      simp only at hlistener
      rw [hout, callbacksSince, hlistener, List.drop_left, List.filter_append,
        fillReports_append, ih]
      rfl

/-- An order that was added was built from its event. -/
theorem order_of_added {event : OrderEvent} {c : Call} (hcall : call event = some c) {o : Order}
    (hadded : c.added = some o) : event.eventType = .newOrder ∧ order event = .ok o := by
  cases htype : event.eventType with
  | cancelOrder =>
    obtain rfl := Option.some.inj ((call_of_cancel htype).symm.trans hcall)
    simp [Call.added] at hadded
  | newOrder =>
    cases ho : order event with
    | error e => simp [call_of_error htype ho] at hcall
    | ok o' =>
      obtain rfl := Option.some.inj ((call_of_ok htype ho).symm.trans hcall)
      exact ⟨rfl, congrArg Except.ok (Option.some.inj hadded)⟩

/-- So every order of a run was built from one of the events. -/
theorem exists_event_of_added {events : List OrderEvent} {o : Order}
    (ho : o ∈ added (events.filterMap call)) :
    ∃ event ∈ events, event.eventType = .newOrder ∧ order event = .ok o := by
  obtain ⟨c, hc, hadded⟩ := List.mem_filterMap.mp ho
  obtain ⟨event, hevent, hcall⟩ := List.mem_filterMap.mp hc
  exact ⟨event, hevent, order_of_added hcall hadded⟩

/-- An id is that of new orders of one side only. -/
def IsOrderOn (side : Side) (events : List OrderEvent) (X : ℤ) : Prop :=
  (∃ event ∈ events, event.eventType = .newOrder ∧ event.orderId = X) ∧
    ∀ event ∈ events, event.eventType = .newOrder → event.orderId = X → event.side = some side

/-- Under distinct ids, one new order tells the side of its id. -/
theorem isOrderOn_of_added {events : List OrderEvent} (hids : (newIds events).Nodup) {o : Order}
    (ho : o ∈ added (events.filterMap call)) : IsOrderOn o.side events o.orderID := by
  obtain ⟨c, hc, hadded⟩ := List.mem_filterMap.mp ho
  obtain ⟨event, hevent, hcall⟩ := List.mem_filterMap.mp hc
  obtain ⟨htype, horder⟩ := order_of_added hcall hadded
  have hid := order_orderID horder
  refine ⟨⟨event, hevent, htype, hid.symm⟩, ?_⟩
  intro event' hevent' htype' hid'
  -- The ids are distinct, so it is the same event.
  have hmem : ∀ e ∈ events, e.eventType = .newOrder →
      e ∈ events.filter fun event => event.eventType = .newOrder := by
    intro e he hnew
    exact List.mem_filter.mpr ⟨he, by simpa using hnew⟩
  obtain rfl : event' = event := List.inj_on_of_nodup_map hids (hmem _ hevent' htype')
    (hmem _ hevent htype) (hid'.trans hid)
  exact order_side horder

/-- The trade log and the execution stream tell the same fills: for every run whose new orders have
distinct ids, the reports of trades and the trades agree one by one, the buyer of each trade is a
buy order and the seller a sell order, and fewer than `2^63` trades have increasing ids. -/
theorem trades_confirmed (events : List OrderEvent) (hids : (newIds events).Nodup) :
    List.Forall₂ Confirms ((after events).outbound.filter ExecutionEvent.isFill)
        (after events).engine.trades ∧
      (∀ trade ∈ (after events).engine.trades,
        IsOrderOn .buy events trade.buyOrderId ∧ IsOrderOn .sell events trade.sellOrderId) ∧
      ((after events).engine.trades.length < 2^63 →
        ((after events).engine.trades.map Trade.tradeId).Pairwise (· < ·)) := by
  have hr := reachable_after events
  refine ⟨?_, ?_, hr.counted.increasing⟩
  · rw [filter_outbound_after]
    exact hr.confirmed
  · have hsourced := sourced_after (events.filterMap call)
    rw [← engine_after] at hsourced
    intro trade htrade
    obtain ⟨buy, hbuy, hbuyId, hbuySide⟩ := hsourced.bought trade htrade
    obtain ⟨sell, hsell, hsellId, hsellSide⟩ := hsourced.sold trade htrade
    have hbuyer := isOrderOn_of_added hids hbuy
    have hseller := isOrderOn_of_added hids hsell
    rw [hbuyId, hbuySide] at hbuyer
    rw [hsellId, hsellSide] at hseller
    exact ⟨hbuyer, hseller⟩

/-- Two pegs that wait for a midpoint, the two limit orders that make one, and a sell that takes the
bid. -/
def pegCrossEvents : List OrderEvent :=
  [⟨.newOrder, 1, some .buy, some .pegMid, some .gtc, -1, 5, 0, 1, -1⟩,
   ⟨.newOrder, 2, some .sell, some .pegMid, some .gtc, -1, 3, 0, 2, -1⟩,
   ⟨.newOrder, 3, some .buy, some .limit, some .gtc, 10000, 10, 0, 3, -1⟩,
   ⟨.newOrder, 4, some .sell, some .limit, some .gtc, 10200, 10, 0, 4, -1⟩,
   ⟨.newOrder, 5, some .sell, some .limit, some .ioc, 10000, 4, 0, 5, -1⟩]

/-- The later peg, a sell, is the aggressor of the cross, and its trade and report agree. -/
theorem trades_confirmed_pegCross :
    (after pegCrossEvents).engine.trades.map Trade.quantity = [3, 2, 2] ∧
      List.Forall₂ Confirms ((after pegCrossEvents).outbound.filter ExecutionEvent.isFill)
        (after pegCrossEvents).engine.trades ∧
      ((after pegCrossEvents).engine.trades.map Trade.tradeId).Pairwise (· < ·) := by
  obtain ⟨hconfirms, -, hincreasing⟩ := trades_confirmed pegCrossEvents (by decide)
  exact ⟨by decide, hconfirms, hincreasing (by decide)⟩

end MatchingEngineHandler

end MatchingVenue
