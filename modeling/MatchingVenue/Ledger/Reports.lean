import MatchingVenue.Ledger.Tracking
import MatchingVenue.Engine.MatchingEngineHandler

/-!
# The execution reports about an order

Each report that the handler publishes is an entry of the account of the orders it names
(`ExecutionEvent.entry`), and the admission of an order is the one entry without a report. The
answers to cancels that found nothing are left aside. `onEvent_tracks` posts the reports of one
event, and `reportsFrom_tracks` those of a run.

`execution_report_protocol` reads the shape of the record off the account of a new order: a
rejection, or the fills of its own event down to what is left, the end of the event (acceptance,
expiry or nothing, by time in force), and after an acceptance the fills of what waits and at most a
cancel.
-/

namespace MatchingVenue

namespace ExecutionEvent

/-- Whether a report is one of a trade. -/
def isFill (report : ExecutionEvent) : Bool :=
  report.eventType == .orderFilled || report.eventType == .orderPartiallyFilled

/-- The entry that a report makes. -/
def entry (report : ExecutionEvent) : Entry ℤ :=
  match report.eventType with
  | .orderAccepted => .accepted report.orderId report.remainingQuantity.toNat
  | .orderFilled | .orderPartiallyFilled =>
    .executed report.orderId report.passiveOrderId report.filledQuantity.toNat
      report.remainingQuantity.toNat
  | .orderCancelled => .cancelled report.orderId
  | .orderRejected => .refused report.orderId
  | .orderExpired => .expired report.orderId report.remainingQuantity.toNat

/-- Whether a report involves an order: it is about it, or it is a fill with it on either side. -/
def Involves (X : ℤ) (report : ExecutionEvent) : Prop :=
  report.orderId = X ∨
    report.isFill = true ∧ (report.aggressorOrderId = X ∨ report.passiveOrderId = X)

/-- Whether a report names an id can be decided. -/
instance (X : ℤ) : DecidablePred (Involves X) := fun _ => by
  unfold Involves
  infer_instance

end ExecutionEvent

namespace MatchingEngineHandler

open MatchingEngine ExecutionEvent

/-- The reports that the handler makes: one for each callback of the engine, and the answers to a
request. -/
def Published (r : ExecutionEvent) : Prop :=
  (∃ callback, r = report callback) ∨ (∃ orderId, r = cancelled orderId) ∨
    ∃ orderId, r = rejected orderId

/-- The entry of a report is that of its callback. -/
theorem entry_report (callback : Callback) : (report callback).entry = callback.entry := by
  cases callback with
  | onFill aggressorOrderId passiveOrderId tradeId price filledQuantity remaining =>
    simp only [report, onFill, entry, Callback.entry]
    split_ifs <;> simp
  | onAccepted orderId price remainingQuantity => simp [report, onAccepted, entry, Callback.entry]
  | onExpired orderId expiredQuantity => simp [report, onExpired, entry, Callback.entry]

/-- The answer to a cancel is the entry of a cancel. -/
theorem entry_cancelled (orderId : ℤ) : (cancelled orderId).entry = .cancelled orderId := rfl

/-- A rejection is the entry of a refusal. -/
theorem entry_rejected (orderId : ℤ) : (rejected orderId).entry = .refused orderId := rfl

/-- The entries of reports are those of their callbacks. -/
theorem map_entry_report (callbacks : List Callback) :
    (callbacks.map report).map entry = callbacks.map Callback.entry := by
  rw [List.map_map]
  exact List.map_congr_left fun callback _ => entry_report callback

/-- A published report involves exactly the orders that its entry names. -/
theorem Published.involves_iff {r : ExecutionEvent} (h : Published r) (X : ℤ) :
    r.Involves X ↔ r.entry.Names X := by
  rcases h with ⟨callback, rfl⟩ | ⟨orderId, rfl⟩ | ⟨orderId, rfl⟩
  · rw [entry_report]
    cases callback with
    | onFill aggressorOrderId passiveOrderId tradeId price filledQuantity remaining =>
      have hfill : (report (.onFill aggressorOrderId passiveOrderId tradeId price filledQuantity
          remaining)).isFill = true := by
        simp only [report, onFill, isFill]
        split_ifs <;> rfl
      unfold Involves
      rw [hfill]
      simp [report, onFill, Callback.entry, Entry.Names]
    | onAccepted orderId price remainingQuantity =>
      simp [Involves, report, onAccepted, isFill, Callback.entry, Entry.Names]
    | onExpired orderId expiredQuantity =>
      simp [Involves, report, onExpired, isFill, Callback.entry, Entry.Names]
  · simp [Involves, cancelled, isFill, entry, Entry.Names]
  · simp [Involves, rejected, isFill, entry, Entry.Names]

/-! ## The end of an order in its reports -/

/-- What a callback of an admission says of the end of the admitted order. -/
def Disposes (o : Order) : Callback → Prop
  | .onFill _ _ _ _ _ _ => True
  | .onAccepted orderId price _ => orderId = o.orderID ∧ price = o.price ∧ o.tif = .gtc
  | .onExpired orderId _ => orderId = o.orderID ∧ o.tif ≠ .gtc

/-- The acknowledgement among the ends of an order is that of its rest, which is good till
cancelled. -/
theorem Disposes.accepted {o : Order} {callback : Callback} (h : Disposes o callback)
    {X : ℤ} {n : ℕ} (hentry : callback.entry = .accepted X n) :
    report callback = onAccepted o.orderID o.price n ∧ o.tif = .gtc := by
  cases callback with
  | onAccepted orderId price remainingQuantity =>
    obtain ⟨rfl, rfl⟩ := Entry.accepted.inj hentry
    obtain ⟨rfl, rfl, htif⟩ := h
    exact ⟨rfl, htif⟩
  | _ => simp [Callback.entry] at hentry

/-- The expiry among the ends of an order is that of its rest, which is not good till cancelled. -/
theorem Disposes.expired {o : Order} {callback : Callback} (h : Disposes o callback) {X : ℤ} {n : ℕ}
    (hentry : callback.entry = .expired X n) :
    report callback = onExpired o.orderID n ∧ o.tif ≠ .gtc := by
  cases callback with
  | onExpired orderId expiredQuantity =>
    obtain ⟨rfl, rfl⟩ := Entry.expired.inj hentry
    obtain ⟨rfl, htif⟩ := h
    exact ⟨rfl, htif⟩
  | _ => simp [Callback.entry] at hentry

/-- A step adds to the callbacks, and only the end of the incoming order is reported as an end. -/
theorem step_disposes {x y : Option Order × MatchingEngine} (h : Step x y) {o : Order}
    (hx : ∀ w, x.1 = some w → w.orderID = o.orderID ∧ w.price = o.price ∧ w.tif = o.tif) :
    (∃ callbacks, y.2.executionListener = x.2.executionListener ++ callbacks ∧
      ∀ callback ∈ callbacks, Disposes o callback) ∧
    ∀ w, y.1 = some w → w.orderID = o.orderID ∧ w.price = o.price ∧ w.tif = o.tif := by
  cases h with
  | @hit w s s' r r' others price m _ _ _ _ _ _ hlogs =>
    refine ⟨⟨_, hlogs.executionListener, ?_⟩, ?_⟩
    · -- A fill says nothing of the end, and what is left of the order keeps the three fields.
      simp [Disposes]
    · intro v hv
      obtain rfl := Option.some.inj hv
      exact hx w rfl
  | cross bid ask others price m _ _ _ _ _ hlogs =>
    exact ⟨⟨_, hlogs.executionListener, by simp [Disposes]⟩, by simp⟩
  | @rest w s s' r _ htif _ _ _ hlogs =>
    obtain ⟨hid, hprice, hwtif⟩ := hx w rfl
    exact ⟨⟨_, hlogs.executionListener, by simp [Disposes, hid, hprice, ← hwtif, htif]⟩, by simp⟩
  | @expire w left s s' _ htif _ _ hlogs =>
    obtain ⟨hid, -, hwtif⟩ := hx w rfl
    exact ⟨⟨_, hlogs.executionListener, by simp [Disposes, hid, ← hwtif, htif]⟩, by simp⟩
  | finish _ _ hlogs => exact ⟨⟨[], hlogs.executionListener, by simp⟩, by simp⟩

/-- The callbacks of an admission report no other end than that of the admitted order. -/
theorem steps_dispose {o : Order} {s : MatchingEngine} {y : Option Order × MatchingEngine}
    (h : Steps (some o, s) y) :
    (∃ callbacks, y.2.executionListener = s.executionListener ++ callbacks ∧
      ∀ callback ∈ callbacks, Disposes o callback) ∧
    ∀ w, y.1 = some w → w.orderID = o.orderID ∧ w.price = o.price ∧ w.tif = o.tif := by
  induction h with
  | refl =>
    refine ⟨⟨[], by simp, by simp⟩, fun w hw => ?_⟩
    obtain rfl := Option.some.inj hw
    exact ⟨rfl, rfl, rfl⟩
  | tail _ hstep ih =>
    obtain ⟨⟨callbacks, hlistener, hdispose⟩, hin⟩ := ih
    obtain ⟨⟨callbacks', hlistener', hdispose'⟩, hout⟩ := step_disposes hstep hin
    refine ⟨⟨callbacks ++ callbacks', by rw [hlistener', hlistener, List.append_assoc], ?_⟩, hout⟩
    intro callback hmem
    exact (List.mem_append.mp hmem).elim (hdispose callback) (hdispose' callback)

/-! ## The reports of a run -/

/-- What the handler publishes on an event that follows others. -/
def published (pre : List OrderEvent) (event : OrderEvent) : List ExecutionEvent :=
  (after (pre ++ [event])).outbound.drop (after pre).outbound.length

/-- A cancel that finds nothing to cancel. -/
def FailedCancel (pre : List OrderEvent) (event : OrderEvent) : Prop :=
  event.eventType = .cancelOrder ∧
    ((after pre).engine.cancelOrder event.originalOrderId).2 = false

/-- Whether a cancel fails can be decided. -/
instance (pre : List OrderEvent) (event : OrderEvent) : Decidable (FailedCancel pre event) := by
  unfold FailedCancel
  infer_instance

/-- The reports of an event, but for the answer to a failed cancel. -/
def reportsOf (pre : List OrderEvent) (event : OrderEvent) : List ExecutionEvent :=
  if FailedCancel pre event then [] else published pre event

/-- The reports of the events that follow `pre`, but for the answers to failed cancels. -/
def reportsFrom (pre : List OrderEvent) : List OrderEvent → List ExecutionEvent
  | [] => []
  | event :: events => reportsOf pre event ++ reportsFrom (pre ++ [event]) events

/-- The entry that the admission of a new order makes. -/
def admission (event : OrderEvent) : List (Entry ℤ) :=
  match event.eventType, order event with
  | .newOrder, .ok order => [.admitted order.orderID order.quantity]
  | _, _ => []

/-- The reports of some events that involve an order. -/
def involving (X : ℤ) (reports : List ExecutionEvent) : List ExecutionEvent :=
  reports.filter fun r => r.Involves X

/-- The ids of the new orders among some events. -/
def newIds (events : List OrderEvent) : List ℤ :=
  (events.filter fun event => event.eventType = .newOrder).map fun event => event.orderId

/-- The reports that an event adds are those that it publishes. -/
theorem published_eq {pre : List OrderEvent} {event : OrderEvent} {reports : List ExecutionEvent}
    (h : (after (pre ++ [event])).outbound = (after pre).outbound ++ reports) :
    published pre event = reports := by
  rw [published, h, List.drop_left]

/-- What one event of a run does to the engine, and what is reported of it. -/
theorem reportsOf_cases (pre : List OrderEvent) (event : OrderEvent) :
    (event.eventType = .cancelOrder ∧
      (after (pre ++ [event])).engine =
        ((after pre).engine.cancelOrder event.originalOrderId).1 ∧
      reportsOf pre event = (if ((after pre).engine.cancelOrder event.originalOrderId).2 then
        [cancelled event.originalOrderId] else [])) ∨
    (event.eventType = .newOrder ∧ (∃ e, order event = .error e) ∧
      (after (pre ++ [event])).engine = (after pre).engine ∧
      reportsOf pre event = [rejected event.orderId]) ∨
    (event.eventType = .newOrder ∧ ∃ o callbacks, order event = .ok o ∧
      (after pre).engine.addOrder o = .ok (after (pre ++ [event])).engine ∧
      (after (pre ++ [event])).engine.executionListener =
        (after pre).engine.executionListener ++ callbacks ∧
      reportsOf pre event = callbacks.map report ∧
      ∀ callback ∈ callbacks, Disposes o callback) := by
  rcases onEvent_cases (onEvent_after pre event) with ⟨htype, hengine, hout⟩ |
    ⟨htype, herr, hengine, hout⟩ | ⟨htype, o, ho, hadd, hout⟩
  · refine .inl ⟨htype, hengine, ?_⟩
    unfold reportsOf
    -- The answer to a cancel that finds nothing is left aside.
    cases hdone : ((after pre).engine.cancelOrder event.originalOrderId).2 with
    | false =>
      have hfailed : FailedCancel pre event := ⟨htype, hdone⟩
      rw [if_pos hfailed]
      rfl
    | true =>
      have hfailed : ¬ FailedCancel pre event := fun h => absurd (hdone.symm.trans h.2) (by decide)
      rw [hdone] at hout
      rw [if_neg hfailed, published_eq hout]
      rfl
  · have hfailed : ¬ FailedCancel pre event := fun h => absurd (htype.symm.trans h.1) (by decide)
    refine .inr (.inl ⟨htype, herr, hengine, ?_⟩)
    rw [reportsOf, if_neg hfailed, published_eq hout]
  · have hfailed : ¬ FailedCancel pre event := fun h => absurd (htype.symm.trans h.1) (by decide)
    have hr := reachable_after pre
    have hc := order_constructed ho
    obtain ⟨⟨callbacks, hlistener, hdispose⟩, -⟩ :=
      steps_dispose (addOrder_steps hr.queued hc.valid.1 hc.valid.2 hadd)
    simp only at hlistener
    refine .inr (.inr ⟨htype, o, callbacks, ho, hadd, hlistener, ?_, hdispose⟩)
    rw [callbacksSince, hlistener, List.drop_left] at hout
    rw [reportsOf, if_neg hfailed, published_eq hout]

/-- Every report of an event is one that the handler makes. -/
theorem reportsOf_published {pre : List OrderEvent} {event : OrderEvent} {r : ExecutionEvent}
    (hr : r ∈ reportsOf pre event) : Published r := by
  rcases reportsOf_cases pre event with ⟨-, -, hreports⟩ | ⟨-, -, -, hreports⟩ |
    ⟨-, o, callbacks, -, -, -, hreports, -⟩
  · rw [hreports] at hr
    split_ifs at hr
    · exact .inr (.inl ⟨_, List.mem_singleton.mp hr⟩)
    · simp at hr
  · rw [hreports] at hr
    exact .inr (.inr ⟨_, List.mem_singleton.mp hr⟩)
  · rw [hreports] at hr
    obtain ⟨callback, -, rfl⟩ := List.mem_map.mp hr
    exact .inl ⟨callback, rfl⟩

/-- The reports of an admission are callbacks that tell the end of the admitted order only. -/
theorem reportsOf_disposes {pre : List OrderEvent} {event : OrderEvent}
    (hnew : event.eventType = .newOrder) {o : Order} (ho : order event = .ok o) {r : ExecutionEvent}
    (hr : r ∈ reportsOf pre event) : ∃ callback, Disposes o callback ∧ r = report callback := by
  rcases reportsOf_cases pre event with ⟨htype, -, -⟩ | ⟨-, ⟨e, he⟩, -, -⟩ |
    ⟨-, o', callbacks, ho', -, -, hreports, hdispose⟩
  · simp [hnew] at htype
  · simp [ho] at he
  · obtain rfl := Except.ok.inj (ho.symm.trans ho')
    rw [hreports] at hr
    obtain ⟨callback, hmem, rfl⟩ := List.mem_map.mp hr
    exact ⟨callback, hdispose callback hmem, rfl⟩

/-- Every report is one that the handler makes. -/
theorem reportsFrom_published {pre events : List OrderEvent} {r : ExecutionEvent}
    (hr : r ∈ reportsFrom pre events) : Published r := by
  induction events generalizing pre with
  | nil => simp [reportsFrom] at hr
  | cons event events ih =>
    rcases List.mem_append.mp hr with hr | hr
    · exact reportsOf_published hr
    · exact ih hr

/-- The reports that involve an order are the records about it. -/
theorem involving_eq {reports : List ExecutionEvent} (h : ∀ r ∈ reports, Published r) (X : ℤ) :
    involving X reports = Ticket.about entry X reports := by
  refine List.filter_congr fun r hr => ?_
  rw [decide_eq_decide]
  exact (h r hr).involves_iff X

/-- An event posts its admission and its reports to the account of an order, which was unknown where
the event is the order's own. -/
theorem onEvent_tracks (pre : List OrderEvent) (event : OrderEvent) {X : ℤ} {a : Account}
    (ha : Tracks X (none, (after pre).engine) a)
    (hnew : event.eventType = .newOrder → event.orderId = X → a = .unknown) :
    ∃ a', a.replay X (admission event ++ (reportsOf pre event).map entry) = some a' ∧
      Tracks X (none, (after (pre ++ [event])).engine) a' := by
  have hr := reachable_after pre
  rcases reportsOf_cases pre event with ⟨htype, hengine, hreports⟩
    | ⟨htype, ⟨e, he⟩, hengine, hreports⟩ |
    ⟨htype, o, callbacks, ho, hadd, hlistener, hreports, -⟩
  · -- A cancel posts its success.
    obtain ⟨a', hreplay, ha'⟩ := cancelOrder_tracks hr event.originalOrderId ha
    refine ⟨a', ?_, hengine ▸ ha'⟩
    rw [admission, htype, hreports, List.nil_append, ← hreplay]
    split_ifs <;> rfl
  · have hadmission : admission event = [] := by
      rw [admission, htype, he]
    rw [hadmission, hreports, hengine, List.nil_append]
    -- A refusal is posted to the account of its own id and to no other; the engine stays as it was.
    by_cases hid : event.orderId = X
    · obtain rfl := hnew htype hid
      have hnames : (rejected event.orderId).entry.Names X := hid
      refine ⟨.refused, ?_, ha.places, ha.executed⟩
      rw [List.map_singleton, Account.replay_cons, Account.post_of_names hnames]
      rfl
    · have hnames : ¬ (rejected event.orderId).entry.Names X := hid
      refine ⟨a, ?_, ha⟩
      rw [List.map_singleton, Account.replay_cons, Account.post_of_not_names hnames]
      rfl
  · obtain ⟨callbacks', a', hlistener', hreplay, ha'⟩ :=
      addOrder_tracks hr (order_constructed ho) hadd ha
      fun hid => hnew htype ((order_orderID ho).symm.trans hid)
    -- Both lemmas speak of the same callbacks, those since the state before.
    obtain rfl := List.append_cancel_left (hlistener.symm.trans hlistener')
    refine ⟨a', ?_, ha'⟩
    rw [admission, htype, ho, hreports, map_entry_report]
    exact hreplay

/-- The new ids of some events are the ids of their new orders. -/
theorem mem_newIds {events : List OrderEvent} {X : ℤ} :
    X ∈ newIds events ↔ ∃ event ∈ events, event.eventType = .newOrder ∧ event.orderId = X := by
  simp [newIds, and_assoc]

/-- The new ids of two stretches of events are those of both. -/
theorem newIds_append (events events' : List OrderEvent) :
    newIds (events ++ events') = newIds events ++ newIds events' := by
  rw [newIds, List.filter_append, List.map_append]
  rfl

/-- A first new order has the first new id. -/
theorem newIds_cons {event : OrderEvent} (h : event.eventType = .newOrder)
    (events : List OrderEvent) : newIds (event :: events) = event.orderId :: newIds events := by
  rw [newIds, List.filter_cons_of_pos (by simpa using h), List.map_cons, newIds]

/-- A part of a run from its start has a part of the new ids from their start. -/
theorem newIds_mono {pre events : List OrderEvent} (h : pre <+: events) :
    newIds pre <+: newIds events := by
  obtain ⟨post, rfl⟩ := h
  rw [newIds_append]
  exact List.prefix_append ..

/-- Under distinct ids a new order is the only one of its id. -/
theorem newIds_fresh {pre post : List OrderEvent} {event : OrderEvent}
    (htype : event.eventType = .newOrder) (hids : (newIds (pre ++ event :: post)).Nodup) :
    event.orderId ∉ newIds pre ∧ event.orderId ∉ newIds post := by
  rw [newIds_append, newIds_cons htype, List.nodup_append, List.nodup_cons] at hids
  obtain ⟨-, ⟨hpost, -⟩, hdisjoint⟩ := hids
  exact ⟨fun hmem => hdisjoint _ hmem _ List.mem_cons_self rfl, hpost⟩

/-- The admission of another order does not name this one. -/
theorem admission_not_names {event : OrderEvent} {X : ℤ}
    (h : event.eventType = .newOrder → event.orderId ≠ X) : ∀ e ∈ admission event, ¬ e.Names X := by
  intro e he
  unfold admission at he
  split at he
  · rename_i o htype ho
    obtain rfl := List.mem_singleton.mp he
    have hid : o.orderID ≠ X := by
      rw [order_orderID ho]
      exact h htype
    exact hid
  · simp at he

/-- Events without a new order of an id post their reports to the account of that id. -/
theorem reportsFrom_tracks {pre events : List OrderEvent} {X : ℤ} {a : Account}
    (ha : Tracks X (none, (after pre).engine) a) (hno : X ∉ newIds events) :
    ∃ a', a.replay X ((reportsFrom pre events).map entry) = some a' ∧
      Tracks X (none, (after (pre ++ events)).engine) a' := by
  induction events generalizing pre a with
  | nil =>
    rw [List.append_nil]
    exact ⟨a, rfl, ha⟩
  | cons event events ih =>
    have hother : event.eventType = .newOrder → event.orderId ≠ X := fun htype hid =>
      hno (mem_newIds.mpr ⟨event, List.mem_cons_self, htype, hid⟩)
    have hrest : X ∉ newIds events := fun hmem => by
      obtain ⟨e, he, hnew⟩ := mem_newIds.mp hmem
      exact hno (mem_newIds.mpr ⟨e, List.mem_cons_of_mem _ he, hnew⟩)
    obtain ⟨b, hb, htracks⟩ := onEvent_tracks pre event ha fun htype hid =>
      absurd hid (hother htype)
    -- The admission, if any, is of another order.
    rw [Account.replay_append, Account.replay_of_not_names (admission_not_names hother)] at hb
    obtain ⟨a', hreplay, ha'⟩ := ih htracks hrest
    rw [List.append_assoc, List.singleton_append] at ha'
    refine ⟨a', ?_, ha'⟩
    rw [reportsFrom, List.map_append, Account.replay_append]
    exact Option.bind_eq_some_iff.mpr ⟨b, hb, hreplay⟩

/-! ## From entries back to reports -/

/-- A published report with the entry of an execution is one of a fill. -/
theorem Published.executed {r : ExecutionEvent} (h : Published r) {aggressor passive : ℤ}
    {m remaining : ℕ} (hr : r.entry = .executed aggressor passive m remaining) :
    ∃ tradeId price, r = onFill aggressor passive tradeId price m remaining := by
  rcases h with ⟨callback, rfl⟩ | ⟨orderId, rfl⟩ | ⟨orderId, rfl⟩
  · rw [entry_report] at hr
    cases callback with
    | onFill aggressorOrderId passiveOrderId tradeId price filledQuantity remaining =>
      obtain ⟨rfl, rfl, rfl, rfl⟩ := Entry.executed.inj hr
      exact ⟨tradeId, price, rfl⟩
    | _ => simp [Callback.entry] at hr
  · simp [cancelled, entry] at hr
  · simp [rejected, entry] at hr

/-- A report that says that an order was cancelled is the answer to the cancel. -/
theorem Published.cancelled {r : ExecutionEvent} (h : Published r) {X : ℤ}
    (hr : r.entry = .cancelled X) : r = MatchingEngineHandler.cancelled X := by
  rcases h with ⟨callback, rfl⟩ | ⟨orderId, rfl⟩ | ⟨orderId, rfl⟩
  · rw [entry_report] at hr
    cases callback <;> simp [Callback.entry] at hr
  · obtain rfl := Entry.cancelled.inj hr
    rfl
  · simp [rejected, entry] at hr

/-- Only a new order of an id is refused under it. -/
theorem reportsOf_refused {pre : List OrderEvent} {event : OrderEvent} {r : ExecutionEvent} {X : ℤ}
    (hr : r ∈ reportsOf pre event) (hentry : r.entry = .refused X) :
    event.eventType = .newOrder ∧ event.orderId = X := by
  rcases reportsOf_cases pre event with ⟨-, -, hreports⟩ | ⟨htype, -, -, hreports⟩ |
    ⟨-, o, callbacks, -, -, -, hreports, -⟩
  · rw [hreports] at hr
    split_ifs at hr
    · obtain rfl := List.mem_singleton.mp hr
      simp [MatchingEngineHandler.cancelled, entry] at hentry
    · simp at hr
  · rw [hreports] at hr
    obtain rfl := List.mem_singleton.mp hr
    exact ⟨htype, Entry.refused.inj hentry⟩
  · rw [hreports] at hr
    obtain ⟨callback, -, rfl⟩ := List.mem_map.mp hr
    rw [entry_report] at hentry
    cases callback <;> simp [Callback.entry] at hentry

/-- An id of new orders that is refused is the id of one of them. -/
theorem reportsFrom_refused {pre events : List OrderEvent} {r : ExecutionEvent} {X : ℤ}
    (hr : r ∈ reportsFrom pre events) (hentry : r.entry = .refused X) : X ∈ newIds events := by
  induction events generalizing pre with
  | nil => simp [reportsFrom] at hr
  | cons event events ih =>
    rcases List.mem_append.mp hr with hr | hr
    · obtain ⟨htype, hid⟩ := reportsOf_refused hr hentry
      exact mem_newIds.mpr ⟨event, List.mem_cons_self, htype, hid⟩
    · obtain ⟨e, he, hnew⟩ := mem_newIds.mp (ih hr)
      exact mem_newIds.mpr ⟨e, List.mem_cons_of_mem _ he, hnew⟩

/-- No report admits an order. -/
theorem entry_ne_admitted (r : ExecutionEvent) (X : ℤ) (q : ℕ) : r.entry ≠ .admitted X q := by
  unfold entry
  cases r.eventType <;> simp

/-- Before its new order an id is unknown, and no report involves it. -/
theorem reportsFrom_unknown {pre : List OrderEvent} {X : ℤ} (hno : X ∉ newIds pre) :
    Tracks X (none, (after pre).engine) .unknown ∧ involving X (reportsFrom [] pre) = [] := by
  have hempty : Tracks X (none, (after []).engine) .unknown := tracks_empty X
  obtain ⟨a, hreplay, ha⟩ := reportsFrom_tracks hempty hno
  -- The handler refuses only the ids of new orders, and there was none of this one.
  have hnew : ∀ e ∈ (reportsFrom [] pre).map entry, (∀ q, e ≠ .admitted X q) ∧ e ≠ .refused X := by
    intro e he
    obtain ⟨r, hr, rfl⟩ := List.mem_map.mp he
    exact ⟨entry_ne_admitted r X, fun hrefused => hno (reportsFrom_refused hr hrefused)⟩
  obtain ⟨hnames, rfl⟩ := Account.replay_unknown hreplay hnew
  refine ⟨ha, ?_⟩
  rw [involving_eq fun r hr => reportsFrom_published hr]
  exact Ticket.about_eq_nil hnames

/-! ## The protocol -/

/-- Fills of an order as the aggressor, whose remaining quantity goes down from the first quantity
to the last by what each fills. -/
inductive RunsDown (X : ℤ) : ℤ → List ExecutionEvent → ℤ → Prop where
  | nil (q : ℤ) : RunsDown X q [] q
  | cons {r : ExecutionEvent} {rs : List ExecutionEvent} {q q' : ℤ} :
    r.isFill = true → r.orderId = X → 0 < r.filledQuantity →
    r.remainingQuantity = q - r.filledQuantity → RunsDown X r.remainingQuantity rs q' →
    RunsDown X q (r :: rs) q'

/-- The aggressor of a fill is the order that comes in. When two resting orders fill each other,
which the pools do when no order comes in any more, it is one of these. -/
theorem step_aggressor {x y : Option Order × MatchingEngine} (h : Step x y)
    {aggressor passive tradeId price : ℤ} {m remaining : ℕ}
    (hlog : y.2.executionListener =
      x.2.executionListener ++ [.onFill aggressor passive tradeId price m remaining]) :
    (∃ o, x.1 = some o ∧ aggressor = o.orderID) ∨
      x.1 = none ∧ ∃ r ∈ x.2.resting, r.orderID = aggressor := by
  cases h with
  | hit r r' others price m _ _ _ _ _ _ hlogs =>
    have heq := List.append_cancel_left (hlogs.executionListener.symm.trans hlog)
    exact .inl ⟨_, rfl, (Callback.onFill.inj (List.singleton_inj.mp heq)).1.symm⟩
  | cross bid ask others price m hperm _ _ _ _ hlogs =>
    have heq := List.append_cancel_left (hlogs.executionListener.symm.trans hlog)
    have haggressor := (Callback.onFill.inj (List.singleton_inj.mp heq)).1
    refine .inr ⟨rfl, ?_⟩
    rw [← haggressor]
    unfold crossRoles
    split_ifs
    · exact ⟨bid, hperm.mem_iff.mpr List.mem_cons_self, rfl⟩
    · exact ⟨ask, hperm.mem_iff.mpr (List.mem_cons_of_mem _ List.mem_cons_self), rfl⟩
  | rest r _ _ _ _ _ hlogs =>
    cases List.append_cancel_left (hlogs.executionListener.symm.trans hlog)
  | expire _ _ _ _ hlogs =>
    cases List.append_cancel_left (hlogs.executionListener.symm.trans hlog)
  | finish _ _ hlogs =>
    cases List.append_cancel_left (hlogs.executionListener.symm.trans hlog)

/-- Fills that involve an order, of at most a quantity together, and then at most a cancel of the
order, where something of the quantity is left. An order that waits does not come in any more, so it
is the passive side of each fill but for those of a cross of the pools, in which it may be the
aggressor (`step_aggressor`). -/
def Waits (X : ℤ) (q : ℤ) (reports : List ExecutionEvent) : Prop :=
  ∃ fills ends, reports = fills ++ ends ∧
    (∀ r ∈ fills, r.isFill = true ∧ (r.orderId = X ∨ r.passiveOrderId = X) ∧ 0 < r.filledQuantity) ∧
    (fills.map ExecutionEvent.filledQuantity).sum ≤ q ∧
    (ends = [] ∨ ends = [cancelled X] ∧ (fills.map ExecutionEvent.filledQuantity).sum < q)

/-- The report of what is left of an order after its match: it is accepted or expires by its time in
force, and where nothing is left there is none. -/
def disposition (o : Order) (left : ℕ) : List ExecutionEvent :=
  if left = 0 then []
  else if o.tif = .gtc then [onAccepted o.orderID o.price left]
  else [onExpired o.orderID left]

/-- A report of a fill is one. -/
theorem isFill_onFill (aggressor passive tradeId price m remaining : ℤ) :
    (onFill aggressor passive tradeId price m remaining).isFill = true := by
  unfold onFill isFill
  split_ifs <;> rfl

/-- Fills of an order as the aggressor run down from its quantity to what they leave. -/
theorem runsDown_of_fills {X : ℤ} {q left : ℕ} {fills : List ExecutionEvent}
    (h : Ticket.Fills entry X q fills left) (hpub : ∀ r ∈ fills, Published r)
    (hagg : ∀ r ∈ fills, ∃ passive m remaining, r.entry = .executed X passive m remaining) :
    RunsDown X q fills left := by
  induction h with
  | nil q => exact .nil _
  | @cons r rs aggressor passive m remaining q q' hr hnames hpos hle hleft hfills ih =>
    obtain ⟨hpubr, hpubs⟩ := List.forall_mem_cons.mp hpub
    obtain ⟨⟨passive', m', remaining', hr'⟩, haggs⟩ := List.forall_mem_cons.mp hagg
    -- The two descriptions of the entry are of one execution.
    obtain ⟨rfl, rfl, rfl, rfl⟩ := Entry.executed.inj (hr.symm.trans hr')
    obtain ⟨tradeId, price, rfl⟩ := hpubr.executed hr
    have hremaining := hleft rfl
    refine .cons (isFill_onFill ..) rfl ?_ ?_ ?_
    · simpa [onFill] using hpos
    · simp only [onFill]
      omega
    · simp only [onFill, hremaining]
      exact ih hpubs haggs

/-- The fills of a waiting order are of what they take from it. -/
theorem sum_of_fills {X : ℤ} {q left : ℕ} {fills : List ExecutionEvent}
    (h : Ticket.Fills entry X q fills left) (hpub : ∀ r ∈ fills, Published r) :
    (∀ r ∈ fills, r.isFill = true ∧ (r.orderId = X ∨ r.passiveOrderId = X) ∧ 0 < r.filledQuantity) ∧
      (fills.map ExecutionEvent.filledQuantity).sum + left = q := by
  induction h with
  | nil q => simp
  | @cons r rs aggressor passive m remaining q q' hr hnames hpos hle hleft hfills ih =>
    obtain ⟨hpubr, hpubs⟩ := List.forall_mem_cons.mp hpub
    obtain ⟨hall, hsum⟩ := ih hpubs
    obtain ⟨tradeId, price, rfl⟩ := hpubr.executed hr
    refine ⟨List.forall_mem_cons.mpr ⟨⟨isFill_onFill .., hnames, ?_⟩, hall⟩, ?_⟩
    · simpa [onFill] using hpos
    · rw [List.map_cons, List.sum_cons]
      simp only [onFill]
      omega

/-- The record of a waiting order, in terms of reports. -/
theorem waits_of_rests {X : ℤ} {q : ℕ} {reports : List ExecutionEvent} {t : Ticket}
    (h : Ticket.Rests entry X q reports t) (hpub : ∀ r ∈ reports, Published r) :
    Waits X q reports := by
  obtain ⟨fills, ends, rfl, hfills, hends⟩ := h
  obtain ⟨hall, hsum⟩ := sum_of_fills hfills fun r hr => hpub r (List.mem_append_left _ hr)
  refine ⟨fills, ends, rfl, hall, by omega, ?_⟩
  rcases hends with ⟨hnil, -⟩ | ⟨r, rfl, hr, hcancelled⟩
  · exact .inl hnil
  · -- A cancelled order had something left.
    have hleft : t.remaining ≠ 0 := by
      rw [ne_eq, t.outstanding, hcancelled]
      decide
    refine .inr ⟨?_, by omega⟩
    rw [(hpub r (List.mem_append_right _ List.mem_cons_self)).cancelled hr]

/-- What the own event of a new order posts where the constructor refuses it. -/
theorem replay_refused {pre : List OrderEvent} {event : OrderEvent}
    (hnew : event.eventType = .newOrder) {e : Exn} (he : order event = .error e) {a : Account}
    (h : Account.unknown.replay event.orderId
      (admission event ++ (reportsOf pre event).map entry) = some a) :
    reportsOf pre event = [rejected event.orderId] ∧ a = .refused := by
  rcases reportsOf_cases pre event with ⟨htype, -, -⟩ | ⟨-, -, -, hreports⟩ | ⟨-, o, -, ho, -⟩
  · simp [hnew] at htype
  · refine ⟨hreports, ?_⟩
    have hadmission : admission event = [] := by rw [admission, hnew, he]
    have hnames : (rejected event.orderId).entry.Names event.orderId := rfl
    rw [hadmission, hreports, List.nil_append, List.map_singleton, Account.replay_cons,
      Account.post_of_names hnames] at h
    exact (Option.some.inj h).symm
  · simp [he] at ho

/-- What the own event of a new order posts where the constructor takes it. -/
theorem replay_opened {pre : List OrderEvent} {event : OrderEvent}
    (hnew : event.eventType = .newOrder) {o : Order} (ho : order event = .ok o) {a : Account}
    (h : Account.unknown.replay event.orderId
      (admission event ++ (reportsOf pre event).map entry) = some a) :
    (Account.admitted (.opened o.quantity (order_constructed ho).valid.2)).replay event.orderId
      ((reportsOf pre event).map entry) = some a := by
  have hadmission : admission event = [.admitted o.orderID o.quantity] := by
    rw [admission, hnew, ho]
  have hnames : (Entry.admitted o.orderID o.quantity).Names event.orderId := order_orderID ho
  rw [hadmission, List.singleton_append, Account.replay_cons, Account.post_of_names hnames,
    Account.book, dif_pos (order_constructed ho).valid.2] at h
  exact h

/-- A new order that the constructor refuses has one report. -/
theorem reports_of_refused {pre post : List OrderEvent} {event : OrderEvent}
    (hnew : event.eventType = .newOrder) {e : Exn} (he : order event = .error e)
    (hunknown : Tracks event.orderId (none, (after pre).engine) .unknown)
    (hpost : event.orderId ∉ newIds post) :
    involving event.orderId (reportsOf pre event) = [rejected event.orderId] ∧
      involving event.orderId (reportsFrom (pre ++ [event]) post) = [] := by
  obtain ⟨a, hreplay, ha⟩ := onEvent_tracks pre event hunknown fun _ _ => rfl
  obtain ⟨b, hreplayPost, -⟩ := reportsFrom_tracks ha hpost
  rw [involving_eq (fun r hr => reportsOf_published hr), involving_eq fun r hr =>
    reportsFrom_published hr]
  obtain ⟨hreports, rfl⟩ := replay_refused hnew he hreplay
  have hnames : (rejected event.orderId).entry.Names event.orderId := rfl
  -- The account is over with the refusal.
  refine ⟨?_, (Ticket.about_of_closed (a := .refused) trivial hreplayPost).1⟩
  rw [hreports, Ticket.about_cons_of_names hnames, Ticket.about_nil]

/-- The reports about an admitted order: its fills as the aggressor, the report of what is left, and
what follows while it waits. -/
theorem reports_of_admitted {pre post : List OrderEvent} {event : OrderEvent}
    (hnew : event.eventType = .newOrder) {o : Order} (ho : order event = .ok o)
    (hunknown : Tracks event.orderId (none, (after pre).engine) .unknown)
    (hpost : event.orderId ∉ newIds post) :
    ∃ fills left rest,
      involving event.orderId (reportsOf pre event) = fills ++ disposition o left ++ rest ∧
      RunsDown event.orderId o.quantity fills left ∧
      (0 < left ∧ o.tif = .gtc →
        Waits event.orderId
        left (rest ++ involving event.orderId (reportsFrom (pre ++ [event]) post))) ∧
      (left = 0 ∨ o.tif ≠ .gtc →
        rest = [] ∧ involving event.orderId (reportsFrom (pre ++ [event]) post) = []) := by
  obtain ⟨a, hreplay, ha⟩ := onEvent_tracks pre event hunknown fun _ _ => rfl
  obtain ⟨b, hreplayPost, -⟩ := reportsFrom_tracks ha hpost
  rw [involving_eq (fun r hr => reportsOf_published hr), involving_eq fun r hr =>
    reportsFrom_published hr]
  -- The shape of the record of an order that is being matched.
  obtain ⟨t, rfl, -, fills, ends, left, habout, hfills, haggs, hends⟩ :=
    Ticket.replay_working rfl (replay_opened hnew ho hreplay)
  have hpub : ∀ r ∈ Ticket.about entry event.orderId (reportsOf pre event), Published r :=
    fun r hr => reportsOf_published (List.mem_filter.mp hr).1
  have hcallback : ∀ r ∈ Ticket.about entry event.orderId (reportsOf pre event),
      ∃ callback, Disposes o callback ∧ r = report callback := by
    intro r hr
    exact reportsOf_disposes hnew ho (List.mem_filter.mp hr).1
  rw [habout] at hpub hcallback ⊢
  have hruns : RunsDown event.orderId o.quantity fills left :=
    runsDown_of_fills hfills (fun r hr => hpub r (List.mem_append_left _ hr)) haggs
  have hout := t.outstanding
  refine ⟨fills, left, ?_⟩
  rcases hends with ⟨rfl, rfl, hstage⟩ | ⟨x, rfl, hx, rfl, hstage⟩
    | ⟨x, later, rfl, hleft, hx, hrests⟩
  · -- Nothing is left.
    have hfilled := hstage.resolve_left ha.not_working
    have hzero := hout.mpr hfilled
    have hclosed : (Account.admitted t).Closed := by simp [Account.Closed, hfilled]
    refine ⟨[], ?_, hruns, fun hwait => absurd hwait.1 (by omega),
      fun _ => ⟨rfl, (Ticket.about_of_closed hclosed hreplayPost).1⟩⟩
    rw [disposition, if_pos hzero]
    simp
  · -- The rest has expired.
    obtain ⟨callback, hend, rfl⟩ := hcallback x (List.mem_append_right _ List.mem_cons_self)
    rw [entry_report] at hx
    obtain ⟨hreport, htif⟩ := hend.expired hx
    have hleft : t.remaining ≠ 0 := by
      rw [ne_eq, hout, hstage]
      decide
    have hclosed : (Account.admitted t).Closed := by simp [Account.Closed, hstage]
    refine ⟨[], ?_, hruns, fun hwait => absurd hwait.2 htif,
      fun _ => ⟨rfl, (Ticket.about_of_closed hclosed hreplayPost).1⟩⟩
    rw [disposition, if_neg hleft, if_neg htif, List.append_nil, hreport]
  · -- The rest waits.
    obtain ⟨callback, hend, rfl⟩ := hcallback x (List.mem_append_right _ List.mem_cons_self)
    rw [entry_report] at hx
    obtain ⟨hreport, htif⟩ := hend.accepted hx
    obtain ⟨t', hall⟩ := hrests.replay ha.not_working hreplayPost
    refine ⟨later, ?_, hruns, fun _ => waits_of_rests hall ?_, fun hno => ?_⟩
    · rw [disposition, if_neg hleft.ne', if_pos htif, List.append_assoc, hreport]
      rfl
    · rw [List.forall_mem_append]
      exact ⟨fun r hr => hpub r (List.mem_append_right _ (List.mem_cons_of_mem _ hr)),
        fun r hr => reportsFrom_published (List.mem_filter.mp hr).1⟩
    · exact absurd hno (not_or.mpr ⟨hleft.ne', fun hne => hne htif⟩)

/-- The reports about a new order `X` in a run whose new orders have distinct ids, but for the
answers to cancels that found nothing. There are none before its own event. If the constructor
refuses it, there is one rejection and nothing else. Otherwise the reports of its own event are
fills in which it is the aggressor, from its quantity down to what is left, then the report of what
is left, and whatever comes after, in this event or a later one, is nothing unless it was accepted
with something left, and the fills of a waiting order with at most a cancel in the end if it was. -/
theorem execution_report_protocol (pre : List OrderEvent) (event : OrderEvent)
    (post : List OrderEvent) (hnew : event.eventType = .newOrder)
    (hids : (newIds (pre ++ event :: post)).Nodup) :
    involving event.orderId (reportsFrom [] pre) = [] ∧
    (((∃ e, order event = .error e) ∧
        involving event.orderId (reportsOf pre event) = [rejected event.orderId] ∧
        involving event.orderId (reportsFrom (pre ++ [event]) post) = []) ∨
      ∃ o, order event = .ok o ∧ ∃ fills left rest,
        involving event.orderId (reportsOf pre event) = fills ++ disposition o left ++ rest ∧
        RunsDown event.orderId o.quantity fills left ∧
        (0 < left ∧ o.tif = .gtc →
          Waits event.orderId
          left (rest ++ involving event.orderId (reportsFrom (pre ++ [event]) post))) ∧
        (left = 0 ∨ o.tif ≠ .gtc →
          rest = [] ∧ involving event.orderId (reportsFrom (pre ++ [event]) post) = [])) := by
  obtain ⟨hpre, hpost⟩ := newIds_fresh hnew hids
  obtain ⟨hunknown, hbefore⟩ := reportsFrom_unknown hpre
  refine ⟨hbefore, ?_⟩
  cases hord : order event with
  | error e => exact .inl ⟨⟨e, rfl⟩, reports_of_refused hnew hord hunknown hpost⟩
  | ok o => exact .inr ⟨o, rfl, reports_of_admitted hnew hord hunknown hpost⟩

/-- A buy that comes to rest, a sell that fills part of it, and a cancel of the rest. -/
def restedEvents : OrderEvent × List OrderEvent :=
  (⟨.newOrder, 1, some .buy, some .limit, some .gtc, 10000, 10, 0, 1, -1⟩,
   [⟨.newOrder, 2, some .sell, some .limit, some .gtc, 10000, 4, 0, 2, -1⟩,
    ⟨.cancelOrder, -1, none, none, none, -1, -1, -1, 3, 1⟩])

/-- All of the buy is accepted; what follows are the fill of four and the cancel. -/
theorem execution_report_protocol_rested :
    (∃ left rest, involving 1 (reportsOf [] restedEvents.1) = [onAccepted 1 10000 10] ∧
      Waits 1 left (rest ++ involving 1 (reportsFrom [restedEvents.1] restedEvents.2))) ∧
    involving 1 (reportsFrom [restedEvents.1] restedEvents.2) =
      [onFill 2 1 1 10000 4 0, cancelled 1] := by
  refine ⟨?_, by decide⟩
  obtain ⟨-, ⟨⟨e, he⟩, -⟩ | ⟨o, ho, fills, left, rest, -, hruns, hwait, hdone⟩⟩ :=
    execution_report_protocol [] restedEvents.1 restedEvents.2 rfl (by decide)
  · exact nomatch he
  · obtain rfl := Except.ok.inj ho
    refine ⟨left, rest, by decide, hwait ⟨Nat.pos_of_ne_zero fun hzero => ?_, rfl⟩⟩
    obtain ⟨-, hnone⟩ := hdone (.inl hzero)
    revert hnone
    decide

end MatchingEngineHandler

end MatchingVenue
