import MatchingVenue.Ledger.TradeLog
import MatchingVenue.Library.Growth
import MatchingVenue.Market.Prints
import MatchingVenue.Terminal.Blotter
import MatchingVenue.Terminal.PriceSeries

/-!
# The figures of a session and the trades of the venue

A terminal knows the trades from the EXEC frames of the aggressors only, and the sides of none of
them. It works out the session's figures, and for the trades of its own orders who the aggressor
was. Where it has seen the whole stream the figures are those of the engine's own list of trades,
and each print of the tape says the true side of the aggressor, exactly where an order of the
terminal is in the trade (`Watches.trades_shown`).
-/

namespace MatchingVenue

namespace MatchingEngineHandler

open MatchingEngine (Confirms added sourced_after)

/-- The id of the order on a side of a trade. -/
def party (trade : Trade) : Side → ℤ
  | .buy => trade.buyOrderId
  | .sell => trade.sellOrderId

/-- The orders of a trade are orders of the run, each on its side and under a positive id. -/
theorem party_isOrderOn {events : List OrderEvent} (hids : (newIds events).Nodup) {trade : Trade}
    (htrade : trade ∈ (after events).engine.trades) (side : Side) :
    IsOrderOn side events (party trade side) ∧ 0 < party trade side := by
  have hsourced := sourced_after (events.filterMap call)
  rw [← engine_after] at hsourced
  have hside : ∃ o ∈ added (events.filterMap call), o.orderID = party trade side ∧
      o.side = side := by
    cases side with
    | buy => exact hsourced.bought trade htrade
    | sell => exact hsourced.sold trade htrade
  obtain ⟨o, ho, hid, rfl⟩ := hside
  refine ⟨hid ▸ isOrderOn_of_added hids ho, ?_⟩
  obtain ⟨event, -, -, horder⟩ := exists_event_of_added ho
  rw [← hid]
  exact (order_constructed horder).valid.1.orderID_pos

/-- An order has the price of its event. -/
theorem order_price {event : OrderEvent} {o : Order} (h : order event = .ok o) :
    o.price = event.price := by
  obtain ⟨side, -, -, hside, -, -⟩ := Order.exists_of_new_eq_ok h
  unfold order at h
  rw [hside] at h
  obtain ⟨-, rfl⟩ := Order.new_eq_ok_iff.mp h
  rfl

/-- A bound on the prices of the new orders of a run is one on those of its orders. -/
theorem price_of_added {events : List OrderEvent} {C : ℤ}
    (hprices : ∀ event ∈ events, event.eventType = .newOrder → event.price < C) {o : Order}
    (ho : o ∈ added (events.filterMap call)) : o.price < C := by
  obtain ⟨event, hevent, htype, horder⟩ := exists_event_of_added ho
  rw [order_price horder]
  exact hprices event hevent htype

end MatchingEngineHandler

namespace Terminal

open MatchingEngineHandler

/-! ## What is given -/

/-- A terminal that has seen the whole stream of a run, as in `Fed`, whose orders the venue reads
with their sides. The limit prices of the run are safe integers. -/
structure Watches (events : List OrderEvent) (actions : List Action) :
    Prop extends Fed events actions where
  sides : ∀ pre frame sentAtNanos, pre ++ [.sent (.new frame) sentAtNanos] <+: actions →
    ∀ event ∈ events, event.eventType = .newOrder → event.orderId = frame.clOrdId →
    event.side = some frame.side
  safe : ∀ event ∈ events, event.eventType = .newOrder → event.price < 2^53

/-- The ids of the rows of a terminal. -/
def rowIds (actions : List Action) : List ℤ := (reduce actions).myOrders.map MyOrder.clOrdId

/-- What the tape shows of a trade: the trade as the engine recorded it, whether one of the
terminal's orders is in it, and the side of the aggressor if so. -/
structure ShowsTrade (own : List ℤ) (entry : TapeEntry) (trade : Trade) : Prop where
  tradeId : entry.tradeId = trade.tradeId
  pricePx : entry.pricePx = trade.price
  quantity : entry.quantity = trade.quantity
  /-- The print is marked where an order of the terminal is in it. -/
  mine : entry.mine = true ↔ party trade .buy ∈ own ∨ party trade .sell ∈ own
  /-- The aggressor is on one side, and the marked prints tell which. -/
  aggressor : ∃ side, entry.aggressorOrderId = party trade side ∧
    entry.passiveOrderId = party trade side.opposite ∧
    entry.aggressorSide = if entry.mine = true then some side else none

/-- The quantity of some trades. -/
def volumeOf (trades : List Trade) : ℤ := (trades.map fun trade => (trade.quantity : ℤ)).sum

/-- The figures of a session are those of some trades, the volume and the count as long as they are
safe integers. -/
structure HasFigures (state : AppState) (trades : List Trade) : Prop where
  /-- The volume is that of the trades, where that is safe. -/
  volume : volumeOf trades ≤ Double.maxSafe → state.sessionVolume = volumeOf trades
  /-- The count is that of the trades, where that is safe. -/
  count : trades.length ≤ Double.maxSafe → state.sessionTradeCount = trades.length
  /-- The first price is that of the first trade. -/
  openPx : state.sessionOpenPx = (trades.map Trade.price).head?.getD sessionOpenUnset
  /-- The high is the greatest price. -/
  highPx : state.sessionHighPx = (trades.map Trade.price).max?.getD sessionOpenUnset
  /-- The low is the least price. -/
  lowPx : state.sessionLowPx = (trades.map Trade.price).min?.getD sessionOpenUnset

/-- The figures of a session are those of some trades, and the tape shows the newest of them, newest
first. -/
structure ShowsTrades (own : List ℤ) (state : AppState) (trades : List Trade) : Prop extends
    HasFigures state trades where
  tape : List.Forall₂ (ShowsTrade own) state.tape (trades.reverse.take tapeCap)

/-- What the entries and the trades have in common is the same of both. -/
theorem map_shown {own : List ℤ} {tape : List TapeEntry} {trades : List Trade}
    (h : List.Forall₂ (ShowsTrade own) tape trades) {α : Type*} (get : TapeEntry → α)
    (of : Trade → α) (hget : ∀ entry trade, ShowsTrade own entry trade → get entry = of trade) :
    tape.map get = trades.map of := by
  rw [← List.forall₂_eq_eq_eq, List.forall₂_map_left_iff, List.forall₂_map_right_iff]
  exact h.imp hget

/-- The newest entry is that of the last trade. -/
theorem head?_shown {own : List ℤ} {tape : List TapeEntry} {trades : List Trade}
    (h : List.Forall₂ (ShowsTrade own) tape (trades.reverse.take tapeCap)) {α : Type*}
    (get : TapeEntry → α) (of : Trade → α)
    (hget : ∀ entry trade, ShowsTrade own entry trade → get entry = of trade) :
    tape.head?.map get = trades.getLast?.map of := by
  rw [← List.head?_map, map_shown h get of hget, List.head?_map, List.head?_take,
    if_neg (by decide), List.head?_reverse]

/-! ## Rows and fills -/

section Rows

variable {actions : List Action}

/-- The ids of the rows stay. -/
theorem rowIds_suffix (actions more : List Action) :
    rowIds actions <:+ rowIds (actions ++ more) := by
  have hgrows : Grows Becomes (reduce actions).myOrders (reduce (actions ++ more)).myOrders := by
    rw [reduce, reduce, List.foldl_append]
    exact Grows.foldl nodup_reducer grows_reducer (nodup_reduce actions) more
  exact hgrows.suffix_map fun _ _ h => h.clOrdId

/-- An order that was sent has a row. -/
theorem mem_rowIds_sent (pre : List Action) (frame : NewOrderFrame) (sentAtNanos : Option ℤ) :
    frame.clOrdId ∈ rowIds (pre ++ [.sent (.new frame) sentAtNanos]) := by
  rw [rowIds, reduce_append]
  simp only [reducer, applySent]
  split_ifs with hknown
  · obtain ⟨row, hrow, hid⟩ := List.any_eq_true.mp hknown
    exact List.mem_map.mpr ⟨row, hrow, by simpa using hid⟩
  · exact List.mem_map.mpr ⟨_, List.mem_cons_self, rfl⟩

/-- What becomes of a row under some reports. -/
theorem becomes_foldl (frames : List ExecFrame) (row : MyOrder) :
    Becomes row (frames.foldl rowExec row) := by
  induction frames generalizing row with
  | nil => exact Std.Refl.refl row
  | cons frame frames ih => exact Trans.trans (becomes_rowExec row frame) (ih _)

/-- A fill of a session is a report that came with one of its actions. -/
theorem prefix_of_fill {f : Fill} (hf : f ∈ fills actions) :
    f.before ++ [.frame (.exec f.frame)] <+: actions ∧ isFill f.frame = true := by
  induction actions using List.reverseRecOn with
  | nil => exact absurd hf List.not_mem_nil
  | append_singleton actions action ih =>
    cases h : action.fill with
    | none =>
      rw [fills_append_of_none h] at hf
      exact (ih hf).imp_left fun hpre => hpre.trans (List.prefix_append _ _)
    | some frame =>
      rw [fills_append_of_some h, List.mem_append] at hf
      obtain ⟨rfl, hfill⟩ := fill_eq_some_iff.mp h
      rcases hf with hf | hf
      · exact (ih hf).imp_left fun hpre => hpre.trans (List.prefix_append _ _)
      · obtain rfl := List.mem_singleton.mp hf
        exact ⟨List.prefix_rfl, hfill⟩

end Rows

section Fills

variable {events : List OrderEvent} {actions : List Action} {f : Fill} {X : ℤ}

/-- Whether one of the terminal's orders is in a fill is known by the time of the fill. -/
theorem Fed.mem_rowIds_before (h : Fed events actions) (hf : f ∈ fills actions)
    (hX : f.frame.toExecutionEvent.Involves X) : X ∈ rowIds f.before ↔ X ∈ rowIds actions := by
  obtain ⟨hpre, -⟩ := prefix_of_fill hf
  constructor
  · intro hmem
    obtain ⟨rest, hrest⟩ := (List.prefix_append _ _).trans hpre
    rw [← hrest]
    exact (rowIds_suffix f.before rest).subset hmem
  intro hmem
  obtain ⟨row, hrow, hid⟩ := List.mem_map.mp hmem
  obtain ⟨pre, frame, sentAtNanos, post, hsplit, hfold⟩ := mem_reduce hrow
  have hframe : frame.clOrdId = X := by
    rw [← hid, hfold, clOrdId_foldl]
    rfl
  have hsent : pre ++ [.sent (.new frame) sentAtNanos] <+: actions := ⟨post, by rw [hsplit]; simp⟩
  -- The order was sent before the fill, for no report that came before it was sent is about it.
  have hbefore : pre ++ [.sent (.new frame) sentAtNanos] <+: f.before := by
    rcases List.prefix_or_prefix_of_prefix hsent hpre with hfirst | hlast
    · rcases List.prefix_concat_iff.mp hfirst with heq | hfirst
      · exact nomatch (List.append_inj_right' heq rfl)
      · exact hfirst
    · rcases List.prefix_concat_iff.mp hlast with heq | hlast
      · exact nomatch (List.append_inj_right' heq rfl)
      · have hexec : f.frame ∈ execs pre :=
          List.mem_filterMap.mpr ⟨_, hlast.subset (List.mem_append_right _ List.mem_cons_self), rfl⟩
        exact absurd (hframe ▸ hX) ((h.sent pre frame sentAtNanos hsent).1 _ hexec)
  obtain ⟨rest, hrest⟩ := hbefore
  rw [← hframe, ← hrest]
  exact (rowIds_suffix _ rest).subset (mem_rowIds_sent pre frame sentAtNanos)

/-- A row is on the side on which the venue has its order. -/
theorem Watches.side_of_row (h : Watches events actions) {before : List Action}
    (hbefore : before <+: actions) {row : MyOrder} (hrow : row ∈ (reduce before).myOrders)
    {side : Side} (hside : IsOrderOn side events row.clOrdId) :
    row.side = side := by
  obtain ⟨pre, frame, sentAtNanos, post, hsplit, hfold⟩ := mem_reduce hrow
  have hbecomes := becomes_foldl (execs post) (newRow frame sentAtNanos)
  rw [← hfold] at hbecomes
  have hsent : pre ++ [.sent (.new frame) sentAtNanos] <+: actions := by
    refine List.IsPrefix.trans ⟨post, ?_⟩ hbefore
    rw [hsplit]
    simp
  obtain ⟨⟨event, hevent, htype, hid⟩, hall⟩ := hside
  have hread := h.sides pre frame sentAtNanos hsent event hevent htype (hid.trans hbecomes.clOrdId)
  exact hbecomes.side.trans (Option.some.inj (hread.symm.trans (hall event hevent htype hid)))

end Fills

/-- The side of the aggressor that rows tell which are on their sides. -/
theorem aggressorSideFor_eq {rows : List MyOrder} {aggressor passive : ℤ} {side : Side}
    (haggressor : 0 < aggressor) (hpassive : 0 < passive)
    (hside : ∀ row ∈ rows, row.clOrdId = aggressor → row.side = side)
    (hother : ∀ row ∈ rows, row.clOrdId = passive → row.side = side.opposite) :
    aggressorSideFor rows aggressor passive =
      if aggressor ∈ rows.map MyOrder.clOrdId ∨ passive ∈ rows.map MyOrder.clOrdId then some side
      else none := by
  have hfind : ∀ (id : ℤ) (x : Side), (∀ row ∈ rows, row.clOrdId = id → row.side = x) →
      (rows.find? fun o => o.clOrdId = id).map MyOrder.side =
        if id ∈ rows.map MyOrder.clOrdId then some x else none := by
    intro id x hx
    cases hrow : rows.find? fun o => o.clOrdId = id with
    | none =>
      have hnone := List.find?_eq_none.mp hrow
      refine (if_neg fun hmem => ?_).symm
      obtain ⟨row, hmem, hid⟩ := List.mem_map.mp hmem
      exact hnone row hmem (by simpa using hid)
    | some row =>
      have hmem := List.mem_of_find?_eq_some hrow
      have hid : row.clOrdId = id := by simpa using List.find?_some hrow
      rw [if_pos (List.mem_map.mpr ⟨row, hmem, hid⟩), Option.map_some, hx row hmem hid]
  unfold aggressorSideFor
  simp only [if_pos haggressor.gt, if_pos hpassive.gt, hfind aggressor side hside,
    hfind passive side.opposite hother]
  by_cases ha : aggressor ∈ rows.map MyOrder.clOrdId
  · simp only [if_pos ha, if_pos (Or.inl ha)]
  · by_cases hp : passive ∈ rows.map MyOrder.clOrdId
    · simp only [if_neg ha, if_pos hp, if_pos (Or.inr hp), Side.opposite_opposite]
    · simp only [if_neg ha, if_neg hp, if_neg (not_or.mpr ⟨ha, hp⟩)]

/-- What the tape says of the aggressor of a fill is worked out from the rows at the time of the
fill. -/
def TellsSide (entry : TapeEntry) (f : Fill) : Prop :=
  entry.aggressorSide = aggressorSideFor (reduce f.before).myOrders f.frame.aggressorOrderId
    f.frame.passiveOrderId

/-- The tape of a session has the prints of its newest fills. -/
theorem prints_reduce (actions : List Action) :
    List.Forall₂ (fun entry f => Prints entry f ∧ TellsSide entry f) (reduce actions).tape
      ((fills actions).reverse.take tapeCap) := by
  induction actions using List.reverseRecOn with
  | nil => exact .nil
  | append_singleton actions action ih =>
    rw [reduce_append]
    cases h : action.fill with
    | none =>
      rw [fills_append_of_none h, (sameFigures_reducer _ h).tape]
      exact ih
    | some frame =>
      rw [fills_append_of_some h, List.reverse_append]
      obtain ⟨rfl, hfill⟩ := fill_eq_some_iff.mp h
      obtain ⟨entry, htape, hprints⟩ := prints_fill actions frame hfill
      -- It is the entry that the reducer makes.
      have hside : TellsSide entry ⟨actions, frame⟩ := by
        have hhead := congrArg List.head? htape
        simp only [applyFill, if_pos hfill] at hhead
        obtain rfl := Option.some.inj hhead
        rfl
      have hrest := List.forall₂_take (tapeCap - 1) ih
      rw [List.take_take] at hrest
      exact htape ▸ .cons ⟨hprints, hside⟩ hrest

/-! ## The trades of the stream -/

section Trades

variable {events : List OrderEvent} {actions : List Action}

/-- The fills that a terminal has seen report the trades of the engine, one by one. -/
theorem Fed.confirms (h : Fed events actions) :
    List.Forall₂ (fun f trade => MatchingEngine.Confirms f.frame.toExecutionEvent trade)
      (fills actions)
      (after events).engine.trades := by
  have hreports : (fills actions).map (fun f => f.frame.toExecutionEvent) =
      (after events).outbound.filter ExecutionEvent.isFill := by
    calc (fills actions).map (fun f => f.frame.toExecutionEvent) =
        ((fills actions).map Fill.frame).map ExecFrame.toExecutionEvent := (List.map_map ..).symm
      _ = ((execs actions).filter isFill).map ExecFrame.toExecutionEvent := by rw [frame_fills]
      _ = ((execs actions).map ExecFrame.toExecutionEvent).filter ExecutionEvent.isFill := by
        rw [List.filter_map]
        rfl
      _ = (after events).outbound.filter ExecutionEvent.isFill := by rw [h.stream]
  rw [← List.forall₂_map_left_iff (f := fun f : Fill => f.frame.toExecutionEvent), hreports,
    filter_outbound_after]
  exact (reachable_after events).confirmed

/-- What the fills and the trades have in common is the same list of both. -/
theorem Fed.map_fills (h : Fed events actions) {α : Type*} (get : ExecutionEvent → α)
    (of : Trade → α) (hget : ∀ r trade, MatchingEngine.Confirms r trade → get r = of trade) :
    (fills actions).map (fun f => get f.frame.toExecutionEvent) =
      (after events).engine.trades.map of := by
  have hmap : List.Forall₂ Eq ((fills actions).map fun f => get f.frame.toExecutionEvent)
      ((after events).engine.trades.map of) := by
    rw [List.forall₂_map_left_iff, List.forall₂_map_right_iff]
    exact h.confirms.imp fun f trade hconfirms => hget _ _ hconfirms
  rwa [List.forall₂_eq_eq_eq] at hmap

/-- The trades of the run have positive prices that are safe integers. -/
theorem Watches.price_pos (h : Watches events actions) {trade : Trade}
    (htrade : trade ∈ (after events).engine.trades) :
    0 < trade.price ∧ trade.price < 2^53 := by
  rw [engine_after] at htrade
  have hC : (2^53 : ℤ) ≤ 2^62 := by decide
  exact MatchingEngine.trades_priced _ hC (fun o ho _ => price_of_added h.safe ho) trade htrade

/-- The print of a fill shows the trade that the fill reports. -/
theorem Watches.showsTrade (h : Watches events actions) {f : Fill} (hf : f ∈ fills actions)
    {trade : Trade} (htrade : trade ∈ (after events).engine.trades)
    (hconfirms : MatchingEngine.Confirms f.frame.toExecutionEvent trade) {entry : TapeEntry}
    (hprints : Prints entry f) (hside : TellsSide entry f) :
    ShowsTrade (rowIds actions) entry trade := by
  obtain ⟨hpre, hfill⟩ := prefix_of_fill hf
  obtain ⟨side, haggressor, hpassive⟩ : ∃ side, f.frame.aggressorOrderId = party trade side ∧
      f.frame.passiveOrderId = party trade side.opposite := by
    rcases hconfirms.parties with ⟨hbuy, hsell⟩ | ⟨hsell, hbuy⟩
    · exact ⟨.buy, hbuy, hsell⟩
    · exact ⟨.sell, hsell, hbuy⟩
  have hown : ∀ x, party trade x = f.frame.aggressorOrderId ∨
      party trade x = f.frame.passiveOrderId := by
    intro x
    cases side <;> cases x <;> simp [haggressor, hpassive, Side.opposite]
  have hbefore : ∀ x, party trade x ∈ rowIds f.before ↔ party trade x ∈ rowIds actions := fun x =>
    h.mem_rowIds_before hf (.inr ⟨hfill, (hown x).imp Eq.symm Eq.symm⟩)
  have hmine : entry.mine = true ↔ party trade side ∈ rowIds actions ∨
      party trade side.opposite ∈ rowIds actions := by
    rw [hprints.mine, ← hbefore side, ← hbefore side.opposite, ← haggressor, ← hpassive]
    constructor
    · rintro ⟨row, hrow, -, hid | hid⟩
      · exact .inl (List.mem_map.mpr ⟨row, hrow, hid⟩)
      · exact .inr (List.mem_map.mpr ⟨row, hrow, hid⟩)
    · have hpos : ∀ x, 0 < party trade x := fun x => (party_isOrderOn h.distinct htrade x).2
      rintro (hmem | hmem) <;> obtain ⟨row, hrow, hid⟩ := List.mem_map.mp hmem
      · exact ⟨row, hrow, by rw [hid, haggressor]; exact hpos side, .inl hid⟩
      · exact ⟨row, hrow, by rw [hid, hpassive]; exact hpos side.opposite, .inr hid⟩
  refine ⟨hprints.tradeId.trans hconfirms.tradeId, hprints.pricePx.trans hconfirms.price,
    hprints.quantity.trans hconfirms.quantity, ?_, side, hprints.aggressorOrderId.trans haggressor,
    hprints.passiveOrderId.trans hpassive, ?_⟩
  · rw [hmine]
    cases side with
    | buy => rfl
    | sell => exact or_comm
  · obtain ⟨hagg, haggPos⟩ := party_isOrderOn h.distinct htrade side
    obtain ⟨hpas, hpasPos⟩ := party_isOrderOn h.distinct htrade side.opposite
    have hprefix : f.before <+: actions := (List.prefix_append _ _).trans hpre
    rw [hside, haggressor, hpassive, aggressorSideFor_eq haggPos hpasPos
      (fun row hrow hid => h.side_of_row hprefix hrow (hid ▸ hagg))
      (fun row hrow hid => h.side_of_row hprefix hrow (hid ▸ hpas))]
    have hiff : (party trade side ∈ (reduce f.before).myOrders.map MyOrder.clOrdId ∨
        party trade side.opposite ∈ (reduce f.before).myOrders.map MyOrder.clOrdId) ↔
            entry.mine = true := by
      rw [hmine, ← hbefore side, ← hbefore side.opposite]
      rfl
    exact if_congr hiff rfl rfl

/-- The figures are those of the trades of the engine. -/
theorem Watches.figures (h : Watches events actions) :
    HasFigures (reduce actions) (after events).engine.trades := by
  have hprices : prices (fills actions) = (after events).engine.trades.map Trade.price :=
    h.map_fills _ _ fun _ _ hconfirms => hconfirms.price
  have hpos : ∀ f ∈ fills actions, 0 < f.frame.price := by
    intro f hf
    have hmem : f.frame.price ∈ prices (fills actions) := List.mem_map_of_mem hf
    rw [hprices] at hmem
    obtain ⟨trade, htrade, heq⟩ := List.mem_map.mp hmem
    exact heq ▸ (h.price_pos htrade).1
  obtain ⟨hvolume, hcount, hopen, hhigh, hlow, -⟩ := statistics_reduce hpos
  have hquantities : quantities (fills actions) =
      (after events).engine.trades.map fun trade => (trade.quantity : ℤ) :=
    h.map_fills _ _ fun _ _ hconfirms => hconfirms.quantity
  refine ⟨fun hsafe => ?_, fun hsafe => ?_, hprices ▸ hopen, hprices ▸ hhigh, hprices ▸ hlow⟩
  · -- No quantity is negative, so that all running sums are within the last one.
    have hsums : Double.SumsSafe (quantities (fills actions)) := by
      refine .of_nonneg ?_ (hquantities ▸ hsafe)
      rw [hquantities, List.forall_mem_map]
      exact fun trade _ => Int.natCast_nonneg _
    rw [hvolume hsums, hquantities, volumeOf]
  · rw [← h.confirms.length_eq] at hsafe ⊢
    exact hcount hsafe

/-- The tape shows the newest trades of the engine. -/
theorem Watches.shows_tape (h : Watches events actions) :
    List.Forall₂ (ShowsTrade (rowIds actions)) (reduce actions).tape
      ((after events).engine.trades.reverse.take tapeCap) := by
  -- A print, the fill that it is of, and the trade that the fill reports.
  have hconfirms := List.forall₂_take tapeCap
    (List.forall₂_reverse_iff.mpr (forall₂_mem h.confirms))
  refine (forall₂_through (prints_reduce actions) hconfirms).imp ?_
  rintro entry trade ⟨f, ⟨hprints, hside⟩, hf, htrade, hconfirms⟩
  exact h.showsTrade hf htrade hconfirms hprints hside

end Trades

/-- The terminal watches `blotterEvents`. -/
theorem watches_blotterActions : Watches blotterEvents blotterActions where
  toFed := fed_blotterActions
  sides := by
    intro pre frame sentAtNanos h
    have hcases := h.subset (List.mem_append_right pre List.mem_cons_self)
    have hframe : frame = ⟨1, .sell, .limit, .gtc, 10000, 10, 0⟩ ∨
        frame = ⟨3, .buy, .limit, .ioc, 10000, 3, 0⟩ := by
      simp only [blotterActions, List.mem_cons, Action.sent.injEq, ClientFrame.new.injEq,
        reduceCtorEq, false_or, false_and, List.not_mem_nil, or_false] at hcases
      exact hcases.imp And.left And.left
    rcases hframe with rfl | rfl <;> decide
  safe := by decide

end Terminal

end MatchingVenue
