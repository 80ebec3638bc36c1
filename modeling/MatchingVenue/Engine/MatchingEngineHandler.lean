import MatchingVenue.Engine.Runs
import MatchingVenue.Library.Word
import Mathlib.Data.List.Induction

/-!
# The matching engine handler

The handler takes the inbound events one by one, builds an `Order` where the event is a new order,
and publishes what the engine reports. It narrows the quantity and the display size of the event to
`int` on the way, and answers with a rejection where the constructor throws or a cancel finds
nothing.

`outbound` is the outbound ring: all that was published, in order, without the times of publication.
The depth snapshot that follows each event is read off the engine (`MatchingEngine.snapshotInto`)
and changes nothing.
-/

namespace MatchingVenue

/-- The kind of an inbound event. -/
inductive OrderEventType where
  | newOrder
  | cancelOrder
  deriving DecidableEq, Repr

/-- An event of the inbound ring. The fields of reference types may be `null`. -/
structure OrderEvent where
  eventType : OrderEventType
  orderId : ℤ
  side : Option Side
  ordType : Option OrdType
  tif : Option TimeInForce
  price : ℤ
  quantity : ℤ
  maxFloor : ℤ
  timestamp : ℤ
  originalOrderId : ℤ
  deriving DecidableEq, Repr

/-- The kind of an execution report. -/
inductive ExecutionEventType where
  | orderAccepted
  | orderFilled
  | orderPartiallyFilled
  | orderCancelled
  | orderRejected
  | orderExpired
  deriving DecidableEq, Repr

/-- An execution report. Fields that do not apply are `-1`. -/
structure ExecutionEvent where
  eventType : ExecutionEventType
  orderId : ℤ
  tradeId : ℤ
  price : ℤ
  filledQuantity : ℤ
  remainingQuantity : ℤ
  aggressorOrderId : ℤ
  passiveOrderId : ℤ
  deriving DecidableEq, Repr

/-- The handler: its engine and what it has published. -/
structure MatchingEngineHandler where
  engine : MatchingEngine := {}
  outbound : List ExecutionEvent := []

namespace MatchingEngineHandler

/-- The participant of every order that comes through the gateway. -/
def gatewayParticipantId : ℤ := 1

/-- The sentinel of a field that does not apply. -/
def na : ℤ := -1

/-- Publishes a report. -/
def publish (h : MatchingEngineHandler) (report : ExecutionEvent) : MatchingEngineHandler :=
  { h with outbound := h.outbound ++ [report] }

/-- The report of a fill. -/
def onFill (aggressorOrderId passiveOrderId tradeId price filledQuantity
    aggressorRemainingQuantity : ℤ) : ExecutionEvent :=
  { eventType := if aggressorRemainingQuantity = 0 then .orderFilled else .orderPartiallyFilled
    orderId := aggressorOrderId, tradeId, price, filledQuantity
    remainingQuantity := aggressorRemainingQuantity, aggressorOrderId, passiveOrderId }

/-- The report of an order that came to rest. -/
def onAccepted (orderId price remainingQuantity : ℤ) : ExecutionEvent :=
  ⟨.orderAccepted, orderId, na, price, na, remainingQuantity, na, na⟩

/-- The report of an order that expired. -/
def onExpired (orderId expiredQuantity : ℤ) : ExecutionEvent :=
  ⟨.orderExpired, orderId, na, na, na, expiredQuantity, na, na⟩

/-- The report of a cancelled order. -/
def cancelled (orderId : ℤ) : ExecutionEvent := ⟨.orderCancelled, orderId, na, na, na, na, na, na⟩

/-- The report of a refused request. -/
def rejected (orderId : ℤ) : ExecutionEvent := ⟨.orderRejected, orderId, na, na, na, na, na, na⟩

/-- The report that a callback of the engine publishes. -/
def report : Callback → ExecutionEvent
  | .onFill aggressorOrderId passiveOrderId tradeId price filledQuantity remaining =>
    onFill aggressorOrderId passiveOrderId tradeId price filledQuantity remaining
  | .onAccepted orderId price remainingQuantity => onAccepted orderId price remainingQuantity
  | .onExpired orderId expiredQuantity => onExpired orderId expiredQuantity

/-- The order that the handler builds from an event: a missing time in force is good-til-cancelled,
a missing order type is a limit order, and the two sizes are narrowed to `int`. -/
def order (event : OrderEvent) : Except Exn Order :=
  Order.new event.orderId event.timestamp event.side (toInt event.quantity) event.price
    gatewayParticipantId (some (event.tif.getD .gtc)) (toInt event.maxFloor)
    (some (event.ordType.getD .limit))

/-- What the engine has reported since an earlier state. -/
def callbacksSince (t s : MatchingEngine) : List Callback :=
  t.executionListener.drop s.executionListener.length

/-- Processes one inbound event. -/
def process (h : MatchingEngineHandler) (event : OrderEvent) : Except Exn MatchingEngineHandler :=
  match event.eventType with
  | .cancelOrder =>
    let (engine, done) := h.engine.cancelOrder event.originalOrderId
    .ok ({ h with engine }.publish
      (if done then cancelled event.originalOrderId else rejected event.originalOrderId))
  | .newOrder =>
    match order event with
    | .error (.illegalArgument _) => .ok (h.publish (rejected event.orderId))
    | .error e => .error e
    | .ok order => do
      let engine ← h.engine.addOrder order
      return { engine, outbound := h.outbound ++ (callbacksSince engine h.engine).map report }

/-- Takes one event off the inbound ring. -/
def onEvent (h : MatchingEngineHandler) (event : OrderEvent) : Except Exn MatchingEngineHandler :=
  h.process event

/-- The handler after a sequence of events. -/
def run (events : List OrderEvent) : Except Exn MatchingEngineHandler := events.foldlM onEvent {}

/-- An order of an event is one that the constructor returned. -/
theorem order_constructed {event : OrderEvent} {o : Order} (h : order event = .ok o) :
    o.Constructed :=
  ⟨_, _, _, _, _, _, _, _, _, h⟩

/-- An order has the id of its event. -/
theorem order_orderID {event : OrderEvent} {o : Order} (h : order event = .ok o) :
    o.orderID = event.orderId := by
  obtain ⟨side, -, -, hside, -, -⟩ := Order.exists_of_new_eq_ok h
  unfold order at h
  rw [hside] at h
  obtain ⟨-, rfl⟩ := Order.new_eq_ok_iff.mp h
  rfl

/-- An order has the side of its event. -/
theorem order_side {event : OrderEvent} {o : Order} (h : order event = .ok o) :
    event.side = some o.side := by
  obtain ⟨side, -, -, hside, -, -⟩ := Order.exists_of_new_eq_ok h
  unfold order at h
  rw [hside] at h ⊢
  obtain ⟨-, rfl⟩ := Order.new_eq_ok_iff.mp h
  rfl

/-- The sizes of the order are those of the event, narrowed. A display size of the whole quantity
means none. -/
theorem order_sizes {event : OrderEvent} {o : Order} (h : order event = .ok o) :
    (o.quantity : ℤ) = toInt event.quantity ∧
      (o.peak : ℤ) = if toInt event.maxFloor = toInt event.quantity then 0
        else toInt event.maxFloor := by
  obtain ⟨side, -, -, hside, -, -⟩ := Order.exists_of_new_eq_ok h
  unfold order at h
  rw [hside] at h
  obtain ⟨hadm, rfl⟩ := Order.new_eq_ok_iff.mp h
  have hquantity := hadm.quantity_pos
  have hpeak := hadm.peak_nonneg
  constructor
  · exact Int.toNat_of_nonneg hquantity.le
  · apply Int.toNat_of_nonneg
    split_ifs
    · exact le_refl 0
    · exact hpeak

/-- What one event does: a cancel is answered by its outcome, a new order that the constructor
refuses by a rejection, and any other is admitted. -/
theorem onEvent_cases {h h' : MatchingEngineHandler} {event : OrderEvent}
    (hev : h.onEvent event = .ok h') :
    (event.eventType = .cancelOrder ∧
      h'.engine = (h.engine.cancelOrder event.originalOrderId).1 ∧
      h'.outbound = h.outbound ++ [if (h.engine.cancelOrder event.originalOrderId).2 then
        cancelled event.originalOrderId else rejected event.originalOrderId]) ∨
    (event.eventType = .newOrder ∧ (∃ e, order event = .error e) ∧ h'.engine = h.engine ∧
      h'.outbound = h.outbound ++ [rejected event.orderId]) ∨
    (event.eventType = .newOrder ∧ ∃ o, order event = .ok o ∧ h.engine.addOrder o = .ok h'.engine ∧
      h'.outbound = h.outbound ++ (callbacksSince h'.engine h.engine).map report) := by
  unfold onEvent process at hev
  cases htype : event.eventType with
  | cancelOrder =>
    left
    simp only [htype] at hev
    obtain rfl := Except.ok.inj hev
    exact ⟨rfl, rfl, rfl⟩
  | newOrder =>
    right
    simp only [htype] at hev
    -- The source catches what the constructor throws, and only that.
    split at hev
    · rename_i message herr
      obtain rfl := Except.ok.inj hev
      exact .inl ⟨rfl, ⟨_, herr⟩, rfl, rfl⟩
    · simp at hev
    · rename_i o ho
      obtain ⟨engine, hadd, hok⟩ := bind_eq_ok.mp hev
      obtain rfl := Except.ok.inj hok
      exact .inr ⟨rfl, o, ho, hadd, rfl⟩

/-- An event takes a handler with a reachable engine to another, and is never thrown at. -/
theorem onEvent_total {h : MatchingEngineHandler} (hr : h.engine.Reachable) (event : OrderEvent) :
    ∃ h', h.onEvent event = .ok h' ∧ h'.engine.Reachable := by
  unfold onEvent process
  cases event.eventType with
  | cancelOrder => exact ⟨_, rfl, hr.cancelOrder _⟩
  | newOrder =>
    cases hord : order event with
    | error e =>
      -- The constructor throws nothing but the exception that the handler catches.
      obtain ⟨message, rfl⟩ := Order.new_refuses _ _ _ _ _ _ _ _ _ e hord
      exact ⟨_, rfl, hr⟩
    | ok o =>
      have ho := order_constructed hord
      obtain ⟨t, ht⟩ := hr.addOrder_total ho
      refine ⟨⟨t, h.outbound ++ (callbacksSince t h.engine).map report⟩, ?_, hr.addOrder ho ht⟩
      simp only [ht, Bind.bind, Except.bind, pure, Except.pure]

/-- No event makes the handler throw. -/
theorem run_total (events : List OrderEvent) : ∃ h, run events = .ok h :=
  foldlM_total (fun h => h.engine.Reachable) .empty fun _ event hr => onEvent_total hr event

/-- The handler that a sequence of events leads to. The second branch is never taken
(`run_eq_after`). -/
def after (events : List OrderEvent) : MatchingEngineHandler :=
  match run events with
  | .ok h => h
  | .error _ => {}

/-- A run of events returns the handler after them. -/
theorem run_eq_after (events : List OrderEvent) : run events = .ok (after events) := by
  obtain ⟨h, hh⟩ := run_total events
  rw [after, hh]

/-- One more event takes a run on from the handler that it led to. -/
theorem onEvent_after (events : List OrderEvent) (event : OrderEvent) :
    (after events).onEvent event = .ok (after (events ++ [event])) := by
  obtain ⟨h, hh, hev⟩ := foldlM_append_eq_ok.mp (run_eq_after (events ++ [event]))
  -- A run over one more event is the run before it and the event.
  obtain rfl := Except.ok.inj ((run_eq_after events).symm.trans hh)
  rw [List.foldlM_cons] at hev
  obtain ⟨h', hh', hnil⟩ := bind_eq_ok.mp hev
  rw [hh', ← Except.ok.inj hnil]

/-- The engine behind the handler is always in a reachable state. -/
theorem reachable_after (events : List OrderEvent) : (after events).engine.Reachable := by
  refine foldlM_inv (fun h => h.engine.Reachable) (run_eq_after events) .empty ?_
  intro h event h' hr hev
  obtain ⟨h'', hev', hr'⟩ := onEvent_total hr event
  obtain rfl := Except.ok.inj (hev.symm.trans hev')
  exact hr'

/-- The call of the engine that an event leads to, where the constructor takes a new order. -/
def call (event : OrderEvent) : Option Call :=
  match event.eventType with
  | .cancelOrder => some (.cancelOrder event.originalOrderId)
  | .newOrder =>
    match h : order event with
    | .error _ => none
    | .ok o => some (.addOrder ⟨o, order_constructed h⟩)

/-- A new order that can be built is a call that adds it. -/
theorem call_of_ok {event : OrderEvent} (htype : event.eventType = .newOrder) {o : Order}
    (ho : order event = .ok o) : call event = some (.addOrder ⟨o, order_constructed ho⟩) := by
  unfold call
  rw [htype]
  simp only
  split
  · rename_i e he
    simp [ho] at he
  · rename_i o' ho'
    obtain rfl := Except.ok.inj (ho.symm.trans ho')
    rfl

/-- A new order that cannot be built is no call. -/
theorem call_of_error {event : OrderEvent} (htype : event.eventType = .newOrder) {e : Exn}
    (he : order event = .error e) : call event = none := by
  unfold call
  rw [htype]
  simp only
  split
  · rfl
  · rename_i o ho
    simp [he] at ho

/-- A cancel event is a call that cancels the original order. -/
theorem call_of_cancel {event : OrderEvent} (htype : event.eventType = .cancelOrder) :
    call event = some (.cancelOrder event.originalOrderId) := by
  unfold call
  rw [htype]

/-- The engine behind the handler has run the calls that the events led to. -/
theorem engine_after (events : List OrderEvent) :
    (after events).engine = MatchingEngine.after (events.filterMap call) := by
  induction events using List.reverseRecOn with
  | nil => rfl
  | append_singleton pre event ih =>
    rw [List.filterMap_append]
    rcases onEvent_cases (onEvent_after pre event)
      with ⟨htype, hengine, -⟩ | ⟨htype, ⟨e, he⟩, hengine, -⟩ |
      ⟨htype, o, ho, hadd, -⟩
    · rw [hengine, ih, List.filterMap_cons_some (call_of_cancel htype), List.filterMap_nil,
        MatchingEngine.cancelOrder_after]
    · rw [hengine, ih, List.filterMap_cons_none (call_of_error htype he), List.filterMap_nil,
        List.append_nil]
    · rw [ih] at hadd
      have hafter := MatchingEngine.addOrder_after (pre.filterMap call) ⟨o, order_constructed ho⟩
      rw [List.filterMap_cons_some (call_of_ok htype ho), List.filterMap_nil]
      exact Except.ok.inj (hadd.symm.trans hafter)

end MatchingEngineHandler

end MatchingVenue
