import MatchingVenue.Market.Prints
import MatchingVenue.Terminal.Depth
import MatchingVenue.Terminal.TradeFigures

/-!
# The numbers on the wire

A browser keeps an integer exactly where it is safe. Where the numbers of the new orders and the
cancels are safe, and fewer than `2^53 - 1` trades have been made, so are all numbers of all reports
(`legible_after`), and a terminal reads what was published. A level of the book displays the sum of
many quantities. With at most `2^22` events that is safe as well (`safe_level`), for no more orders
rest than there were events, and each is an `int`.
-/

namespace MatchingVenue

/-- Less than a safe quantity is safe. -/
theorem Safe.of_le {m n : ℕ} (h : Safe n) (hle : m ≤ n) : Safe m := by
  obtain ⟨-, hlt⟩ := h
  unfold Safe
  omega

/-! ## The callbacks -/

/-- An order whose numbers are safe. -/
structure Order.Legible (o : Order) : Prop where
  orderID : Safe o.orderID
  quantity : Safe o.quantity
  price : Safe o.price

/-- A fill keeps the numbers of an order legible. -/
theorem Order.Legible.filled {o : Order} (h : o.Legible) (m : ℕ) : (o.filled m).Legible :=
  ⟨h.orderID, h.quantity.of_le (Nat.sub_le _ _), h.price⟩

/-- A reload keeps the numbers of an order legible. -/
theorem Order.Legible.refreshDisplay {o : Order} (h : o.Legible) : o.refreshDisplay.Legible :=
  ⟨h.orderID, h.quantity, h.price⟩

/-- The numbers that a callback has from the orders that it is about are safe. -/
def Callback.Plain : Callback → Prop
  | .onFill aggressorOrderId passiveOrderId _ _ filledQuantity remaining =>
    Safe aggressorOrderId ∧ Safe passiveOrderId ∧ Safe filledQuantity ∧ Safe remaining
  | .onAccepted orderId price remainingQuantity =>
    Safe orderId ∧ Safe price ∧ Safe remainingQuantity
  | .onExpired orderId expiredQuantity => Safe orderId ∧ Safe expiredQuantity

namespace MatchingEngine

/-- All orders of the engine and all that it has reported of them. -/
structure Legible (incoming : Option Order) (s : MatchingEngine) : Prop where
  incoming : ∀ o ∈ incoming, o.Legible
  resting : ∀ r ∈ s.resting, r.toOrder.Legible
  reported : ∀ c ∈ s.executionListener, c.Plain

/-- A fill of two orders is reported with numbers of theirs. -/
theorem plain_onFill {aggressor passive : Order} (haggressor : aggressor.Legible)
    (hpassive : passive.Legible) {m : ℕ} (hm : m ≤ aggressor.quantity) (tradeId price : ℤ) :
    (Callback.onFill aggressor.orderID passive.orderID tradeId price m
      (aggressor.quantity - m)).Plain :=
  ⟨haggressor.orderID, hpassive.orderID, haggressor.quantity.of_le hm,
    haggressor.quantity.of_le (Nat.sub_le _ _)⟩

/-- A step keeps the numbers of all orders and callbacks legible. -/
theorem Step.legible {x y : Option Order × MatchingEngine} (h : Step x y) (hx : Legible x.1 x.2) :
    Legible y.1 y.2 := by
  obtain ⟨hincoming, hresting⟩ := h.keeps (P := Order.Legible) (fun _ m ho => ho.filled m)
    (fun _ ho => ho.refreshDisplay) ⟨hx.incoming, hx.resting⟩
  have hmore : ∀ {callbacks trades left}, Logs x.2 y.2 trades callbacks left →
      (∀ c ∈ callbacks, c.Plain) →
      ∀ c ∈ y.2.executionListener, c.Plain := by
    intro callbacks trades left hlogs hplain
    rw [hlogs.executionListener]
    exact List.forall_mem_append.mpr ⟨hx.reported, hplain⟩
  refine ⟨hincoming, hresting, ?_⟩
  cases h with
  | @hit o s s' r r' others price m hrest _ _ _ hm _ hlogs _ _ _ =>
    have hr := hx.resting r (hrest.mem_iff.mpr List.mem_cons_self)
    exact hmore hlogs (List.forall_mem_singleton.mpr (plain_onFill (hx.incoming o rfl) hr hm _ _))
  | @cross s s' bid ask others price m hrest _ _ hmb hma hlogs _ _ _ _ =>
    have hbid := hx.resting bid (hrest.mem_iff.mpr List.mem_cons_self)
    have hask := hx.resting ask (hrest.mem_iff.mpr (List.mem_cons_of_mem _ List.mem_cons_self))
    refine hmore hlogs (List.forall_mem_singleton.mpr ?_)
    rcases crossRoles_cases bid ask m with hroles | hroles
    · rw [hroles]
      exact plain_onFill hbid hask hmb _ _
    · rw [hroles]
      exact plain_onFill hask hbid hma _ _
  | @rest o s s' r _ _ _ _ _ hlogs _ _ =>
    have ho := hx.incoming o rfl
    exact hmore hlogs (List.forall_mem_singleton.mpr ⟨ho.orderID, ho.price, ho.quantity⟩)
  | @expire o left s s' _ _ _ _ hlogs _ _ =>
    have ho := hx.incoming o rfl
    exact hmore hlogs (List.forall_mem_singleton.mpr ⟨ho.orderID, ho.quantity⟩)
  | finish _ _ hlogs => exact hmore hlogs (by simp)

/-- A run whose orders have safe numbers reports nothing else of them. -/
theorem legible_after (calls : List Call) (horders : ∀ o ∈ added calls, o.Legible) :
    Legible none (after calls) := by
  induction calls using List.reverseRecOn with
  | nil =>
    exact ⟨by simp, fun r hr => absurd hr List.not_mem_nil, fun c hc => absurd hc List.not_mem_nil⟩
  | append_singleton pre c ih =>
    have hpre := ih fun o ho => horders o (added_subset pre c ho)
    have hr := reachable_after pre
    have hcall := call_after pre c
    cases c with
    | addOrder o =>
      obtain ⟨hv, hpos⟩ := o.2.valid
      have ho : o.1.Legible := horders _ (List.mem_filterMap.mpr ⟨.addOrder o, by simp, rfl⟩)
      exact steps_inv (addOrder_steps hr.queued hv hpos hcall) (fun x => Legible x.1 x.2)
        ⟨fun a ha => Option.mem_some.mp ha ▸ ho, hpre.resting, hpre.reported⟩ fun _ _ hx hstep =>
          hstep.legible hx
    | cancelOrder orderID =>
      rw [← Except.ok.inj hcall]
      rcases cancelOrder_spec hr.queued hr.identified orderID
        with ⟨-, hnone⟩ | ⟨r, t, -, -, hperm, hsome, hlogs, -⟩
      · rw [hnone]
        exact hpre
      · rw [hsome]
        refine ⟨by simp, fun x hx => hpre.resting x (hperm.mem_iff.mpr (List.mem_cons_of_mem _ hx)),
          ?_⟩
        rw [hlogs.executionListener, List.append_nil]
        exact hpre.reported

end MatchingEngine

/-! ## The reports -/

/-- The numbers of an event that the reports of it have are safe. -/
structure OrderEvent.Legible (event : OrderEvent) : Prop where
  orderId : Safe event.orderId
  originalOrderId : Safe event.originalOrderId
  price : Safe event.price

/-- The numbers of a report but for its time. -/
def ExecutionEvent.numbers (r : ExecutionEvent) : List ℤ :=
  [r.orderId, r.tradeId, r.price, r.filledQuantity, r.remainingQuantity, r.aggressorOrderId,
    r.passiveOrderId]

namespace MatchingEngineHandler

open MatchingEngine (added addOrder_steps executionListener_cancelOrder Confirms)

/-- A narrowed quantity is safe. -/
theorem safe_toInt (n : ℤ) : Safe (toInt n) := by
  have hfits : FitsInt (toInt n) := toInt_eq_iff.mp (Int.bmod_bmod ..)
  obtain ⟨hlower, hupper⟩ := hfits
  unfold Safe
  omega

/-- The orders of legible events are legible. -/
theorem legible_of_added {events : List OrderEvent}
    (hevents : ∀ event ∈ events, event.Legible) {o : Order}
    (ho : o ∈ added (events.filterMap call)) : o.Legible := by
  obtain ⟨event, hevent, -, horder⟩ := exists_event_of_added ho
  have hlegible := hevents event hevent
  refine ⟨?_, ?_, ?_⟩
  · rw [order_orderID horder]
    exact hlegible.orderId
  · rw [(order_sizes horder).1]
    exact safe_toInt _
  · rw [order_price horder]
    exact hlegible.price

/-- Every report is of a callback, or it answers an event with one of its ids. -/
theorem answers_after {events : List OrderEvent} {r : ExecutionEvent}
    (hr : r ∈ (after events).outbound) :
    (∃ c ∈ (after events).engine.executionListener, r = report c) ∨
      ∃ event ∈ events, ∃ id ∈ [event.orderId, event.originalOrderId],
      r ∈ [cancelled id, rejected id] := by
  induction events using List.reverseRecOn with
  | nil => exact absurd hr List.not_mem_nil
  | append_singleton pre event ih =>
    have hreachable := reachable_after pre
    have hlast : event ∈ pre ++ [event] := by simp
    have hold : ∀ {callbacks : List Callback}, (after (pre ++ [event])).engine.executionListener =
        (after pre).engine.executionListener ++ callbacks → r ∈ (after pre).outbound →
        (∃ c ∈ (after (pre ++ [event])).engine.executionListener, r = report c) ∨
          ∃ e ∈ pre ++ [event], ∃ id ∈ [e.orderId, e.originalOrderId],
          r ∈ [cancelled id, rejected id] := by
      intro callbacks hlistener hmem
      rcases ih hmem with ⟨c, hc, hreport⟩ | ⟨e, he, hanswer⟩
      · exact .inl ⟨c, hlistener ▸ List.mem_append_left _ hc, hreport⟩
      · exact .inr ⟨e, List.mem_append_left _ he, hanswer⟩
    rcases onEvent_cases (onEvent_after pre event) with ⟨-, hengine, hout⟩ | ⟨-, -, hengine, hout⟩ |
      ⟨-, o, ho, hadd, hout⟩
    · rw [hout, List.mem_append, List.mem_singleton] at hr
      rcases hr with hr | hr
      · exact hold (by rw [hengine, executionListener_cancelOrder hreachable, List.append_nil]) hr
      · refine .inr ⟨event, hlast, event.originalOrderId, by simp, ?_⟩
        rw [hr]
        split_ifs <;> simp
    · rw [hout, List.mem_append, List.mem_singleton] at hr
      rcases hr with hr | hr
      · exact hold (by rw [hengine, List.append_nil]) hr
      · exact .inr ⟨event, hlast, event.orderId, by simp, by simp [hr]⟩
    · obtain ⟨hvalid, hpos⟩ := (order_constructed ho).valid
      obtain ⟨⟨callbacks, hlistener, -⟩, -⟩ :=
        steps_dispose (addOrder_steps hreachable.queued hvalid hpos hadd)
      simp only at hlistener
      rw [hout, List.mem_append, callbacksSince, hlistener, List.drop_left] at hr
      rcases hr with hr | hr
      · exact hold hlistener hr
      · obtain ⟨c, hc, hreport⟩ := List.mem_map.mp hr
        exact .inl ⟨c, hlistener ▸ List.mem_append_right _ hc, hreport.symm⟩

/-- The trades of a run have safe prices. -/
theorem safe_price {events : List OrderEvent} (hevents : ∀ event ∈ events, event.Legible)
    {trade : Trade} (htrade : trade ∈ (after events).engine.trades) : Safe trade.price := by
  rw [engine_after] at htrade
  have hC : (2^53 : ℤ) ≤ 2^62 := by decide
  obtain ⟨hpos, hbound⟩ := MatchingEngine.trades_priced _ hC
    (fun o ho _ => (legible_of_added hevents ho).price.2) trade htrade
  exact ⟨by omega, hbound⟩

/-- They have safe ids as well where they are few. -/
theorem safe_tradeId {events : List OrderEvent}
    (hcount : (after events).engine.trades.length < 2^53 - 1)
    {trade : Trade} (htrade : trade ∈ (after events).engine.trades) : Safe trade.tradeId := by
  have hid : trade.tradeId ∈ (after events).engine.trades.map Trade.tradeId :=
    List.mem_map_of_mem htrade
  rw [(reachable_after events).counted.2, List.mem_map] at hid
  obtain ⟨i, hi, hid⟩ := hid
  rw [List.mem_range] at hi
  rw [toLong_of_le (by omega) (by unfold longMax; omega)] at hid
  unfold Safe
  omega

/-- A published report of a trade confirms a trade of the run. -/
theorem exists_confirms {events : List OrderEvent} {r : ExecutionEvent}
    (hr : r ∈ (after events).outbound) (hfill : r.isFill = true) :
    ∃ trade ∈ (after events).engine.trades, Confirms r trade := by
  have hmem : r ∈ MatchingEngine.fillReports (after events).engine.executionListener := by
    rw [← filter_outbound_after]
    exact List.mem_filter.mpr ⟨hr, hfill⟩
  obtain ⟨i, hi, hget⟩ := List.mem_iff_getElem.mp hmem
  obtain ⟨hlength, hconfirms⟩ := List.forall₂_iff_get.mp (reachable_after events).confirmed
  have hlt : i < (after events).engine.trades.length := hlength ▸ hi
  exact ⟨_, List.getElem_mem hlt, hget ▸ hconfirms i hi hlt⟩

/-- Trades stay. -/
theorem trades_length_mono {pre events : List OrderEvent} (h : pre <+: events) :
    (after pre).engine.trades.length ≤ (after events).engine.trades.length := by
  have hlength : ∀ run, (after run).engine.trades.length =
      ((after run).outbound.filter ExecutionEvent.isFill).length := by
    intro run
    rw [filter_outbound_after]
    exact (reachable_after run).confirmed.length_eq.symm
  rw [hlength, hlength]
  exact ((outbound_mono h).filter _).length_le

/-- Where the numbers of the events are safe and the trades are few, all numbers of all reports are
safe. -/
theorem legible_after {events : List OrderEvent} (hevents : ∀ event ∈ events, event.Legible)
    (hcount : (after events).engine.trades.length < 2^53 - 1) {r : ExecutionEvent}
    (hr : r ∈ (after events).outbound) : ∀ n ∈ r.numbers, Safe n := by
  have hna : Safe na := by decide
  rcases answers_after hr with ⟨c, hc, rfl⟩ | ⟨event, hevent, id, hid, hanswer⟩
  · rw [engine_after] at hc
    have hplain := (MatchingEngine.legible_after _ fun o ho => legible_of_added hevents ho).reported
      c hc
    cases c with
    | onFill aggressor passive tradeId price m remaining =>
      obtain ⟨haggressor, hpassive, hm, hremaining⟩ := hplain
      obtain ⟨trade, htrade, hconfirms⟩ := exists_confirms hr (isFill_onFill ..)
      have hid : tradeId = trade.tradeId := hconfirms.tradeId
      have hprice : price = trade.price := hconfirms.price
      have htradeId := safe_tradeId hcount htrade
      have htradePrice := safe_price hevents htrade
      simp_all [report, onFill, ExecutionEvent.numbers]
    | onAccepted orderId price remaining =>
      obtain ⟨horder, hprice, hremaining⟩ := hplain
      simp_all [report, onAccepted, ExecutionEvent.numbers]
    | onExpired orderId expired =>
      obtain ⟨horder, hexpired⟩ := hplain
      simp_all [report, onExpired, ExecutionEvent.numbers]
  · have hsafe : Safe id := by
      have hlegible := hevents event hevent
      simp only [List.mem_cons, List.not_mem_nil, or_false] at hid
      rcases hid with rfl | rfl
      · exact hlegible.orderId
      · exact hlegible.originalOrderId
    simp only [List.mem_cons, List.not_mem_nil, or_false] at hanswer
    rcases hanswer with rfl | rfl
    · simp [cancelled, ExecutionEvent.numbers, hsafe, hna]
    · simp [rejected, ExecutionEvent.numbers, hsafe, hna]

end MatchingEngineHandler

/-! ## The levels -/

namespace MatchingEngine

/-- At most one order is kept of one. -/
theorem length_kept (r : RestingOrder) : (kept r).length ≤ 1 := by
  unfold kept
  split_ifs
  · exact Nat.zero_le 1
  · exact le_refl 1

/-- A step makes no orders. -/
theorem Step.count_le {x y : Option Order × MatchingEngine} (h : Step x y) :
    y.2.resting.length + y.1.toList.length ≤ x.2.resting.length + x.1.toList.length := by
  cases h with
  | @hit o s s' r r' others price m hrest hrest' =>
    have hkept := length_kept r'
    have hbefore := hrest.length_eq
    have hafter := hrest'.length_eq
    rw [List.length_cons] at hbefore
    rw [List.length_append] at hafter
    simp only [Option.toList_some, List.length_singleton]
    omega
  | @cross s s' bid ask others price m hrest hrest' =>
    have hbid := length_kept (bid.filled m)
    have hask := length_kept (ask.filled m)
    have hbefore := hrest.length_eq
    have hafter := hrest'.length_eq
    rw [List.length_cons, List.length_cons] at hbefore
    rw [List.length_append, List.length_append] at hafter
    simp only [Option.toList_none, List.length_nil]
    omega
  | @rest o s s' r _ _ hrest =>
    simp only [hrest.length_eq, List.length_cons, Option.toList_none, List.length_nil,
      Option.toList_some]
    exact le_refl _
  | expire _ _ hrest =>
    simp only [hrest]
    exact Nat.add_le_add_left (Nat.zero_le _) _
  | finish _ hrest =>
    simp only [hrest]
    exact Nat.add_le_add_left (Nat.zero_le _) _

/-- No more orders rest than there were calls. -/
theorem length_resting_after (calls : List Call) : (after calls).resting.length ≤ calls.length := by
  induction calls using List.reverseRecOn with
  | nil => exact le_refl 0
  | append_singleton pre c ih =>
    have hr := reachable_after pre
    have hcall := call_after pre c
    rw [List.length_append, List.length_singleton]
    cases c with
    | addOrder o =>
      obtain ⟨hv, hpos⟩ := o.2.valid
      have hcount := steps_inv (addOrder_steps hr.queued hv hpos hcall)
        (fun x => x.2.resting.length + x.1.toList.length ≤ (after pre).resting.length + 1)
          (le_refl _)
        fun _ _ hx hstep => hstep.count_le.trans hx
      exact (Nat.le_add_right _ _).trans (hcount.trans (Nat.add_le_add_right ih 1))
    | cancelOrder orderID =>
      rw [← Except.ok.inj hcall]
      rcases cancelOrder_spec hr.queued hr.identified orderID
        with ⟨-, hnone⟩ | ⟨r, t, -, -, hperm, hsome, -⟩
      · rw [hnone]
        exact ih.trans (Nat.le_succ _)
      · rw [hsome]
        have hlength := hperm.length_eq
        rw [List.length_cons] at hlength
        simp only
        omega

/-- A level is a part of what rests. -/
theorem length_level_le (s : MatchingEngine) {side : Side} {level : ℤ × List RestingOrder}
    (hlevel : level ∈ (s.book side).entries) : level.2.length ≤ s.resting.length := by
  have hqueue : level.2.Sublist (s.book side).orders :=
    List.sublist_flatten_of_mem (List.mem_map_of_mem hlevel)
  have horders := (s.resting_perm side).length_eq
  rw [List.length_append] at horders
  exact hqueue.length_le.trans (by omega)

end MatchingEngine

namespace MatchingEngineHandler

open MatchingEngine (displayed displayed_le keeps_after length_resting_after length_level_le)

section Levels

variable {events : List OrderEvent} {side : Side} {level : ℤ × List RestingOrder}

/-- The orders of a level, and their quantities. -/
theorem level_after (hlevel : level ∈ ((after events).engine.book side).entries) :
    level.2.length ≤ events.length ∧ ∀ r ∈ level.2, (r.quantity : ℤ) ≤ intMax := by
  have hcalls : (events.filterMap call).length ≤ events.length := List.length_filterMap_le _ _
  have hlength := length_level_le _ hlevel
  rw [engine_after] at hlength
  refine ⟨hlength.trans ((length_resting_after _).trans hcalls), fun r hr => ?_⟩
  have hmem : r ∈ (after events).engine.resting :=
    MatchingEngine.mem_resting.mpr ⟨side, .inl (MatchingEngine.mem_orders.mpr ⟨level, hlevel, hr⟩)⟩
  rw [engine_after] at hmem
  refine keeps_after (P := fun o => (o.quantity : ℤ) ≤ intMax) (fun o m ho => ?_) (fun _ ho => ho) _
    (fun o ho => ?_) r hmem
  · exact le_trans (Nat.cast_le.mpr (Nat.sub_le _ _)) ho
  · obtain ⟨event, -, -, horder⟩ := exists_event_of_added ho
    obtain ⟨-, hupper⟩ : FitsInt (toInt event.quantity) := toInt_eq_iff.mp (Int.bmod_bmod ..)
    rw [(order_sizes horder).1]
    unfold intMax
    omega

/-- The sizes of the levels are those that the types of the source bound. -/
theorem sized_after (hfew : events.length ≤ 2^22) : (after events).engine.Sized := by
  intro side level hlevel
  obtain ⟨hlength, hquantity⟩ := level_after hlevel
  refine ⟨?_, hquantity⟩
  unfold intMax
  omega

/-- The price of a level and what it displays are safe. -/
theorem safe_level (hfew : events.length ≤ 2^22)
    (hprices : ∀ event ∈ events, event.eventType = .newOrder → event.price < 2^53)
    (hlevel : level ∈ ((after events).engine.book side).entries) :
    Safe level.1 ∧ Safe (displayed level.2) := by
  have hq := (reachable_after events).queued
  obtain ⟨hlength, hquantity⟩ := level_after hlevel
  obtain ⟨hne, hrests⟩ := hq.level side level hlevel
  constructor
  · obtain ⟨r, hr⟩ := List.exists_mem_of_ne_nil _ hne
    have hat := hrests r hr
    have hbelow : (after events).engine.Below (2^53) := by
      rw [engine_after]
      exact (MatchingEngine.stemmed_after _).below fun o ho _ => price_of_added hprices ho
    have hupper := hbelow r
      (MatchingEngine.mem_resting.mpr
        ⟨side, .inl (MatchingEngine.mem_orders.mpr ⟨level, hlevel, hr⟩)⟩) hat.ordType_eq
    obtain ⟨hpos, -⟩ := hq.level_price side _ hlevel
    rw [hat.price_eq] at hupper
    exact ⟨by omega, hupper⟩
  · have hvisible : ∀ r ∈ level.2, r.visibleQty ≤ 2^31 - 1 := by
      intro r hr
      have hle := (hrests r hr).valid.visible_le
      have hint := hquantity r hr
      unfold intMax at hint
      omega
    have hsum := displayed_le hvisible
    have hproduct : level.2.length * (2^31 - 1) ≤ 2^22 * (2^31 - 1) :=
      Nat.mul_le_mul_right _ (hlength.trans hfew)
    unfold Safe
    omega

end Levels

end MatchingEngineHandler

end MatchingVenue
