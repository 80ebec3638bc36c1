import MatchingVenue.Net.RoundTrip
import MatchingVenue.Publisher.WebSocketPublisher
import MatchingVenue.Terminal.Blotter
import MatchingVenue.Terminal.Messages
import Mathlib.Logic.Relation

/-!
# Sessions

The clients of the venue send their requests whenever they like. The requests of one client reach
the handler in the order in which they were sent, and those of several clients in any order. Each
client receives the stream of reports from its beginning, and may be behind by any part of it
(`Session.Step`).

A report that rejects an id answers the new order of that id or a cancel that names it, and the
terminal does not tell the two apart. A cancel may be processed before the order that it names.
Where its answer reaches the client of that order when the order is sent already, the row is
rejected before the venue has seen the order (`Overtaken`). That is the only way in which a row of
an order that the venue admits comes to be rejected.
-/

namespace MatchingVenue

universe u

namespace Terminal

open MatchingEngineHandler

/-! ## Requests and reports -/

/-- The event that the gateway makes of a frame that a terminal has sent, where it takes the
frame. -/
def request (timestamp : ℤ) : ClientFrame → Option OrderEvent
  | .new frame =>
    if 0 ≤ frame.clOrdId ∧ 0 < frame.qty ∧ (0 < frame.maxFloor → frame.maxFloor ≤ frame.qty) ∧
        (frame.ordType = .pegMid ∨ 0 < frame.price ∧ frame.price % 100 = 0) then
      some
        { eventType := .newOrder
          orderId := frame.clOrdId
          side := some frame.side
          ordType := some frame.ordType
          tif := some frame.tif
          price := if frame.ordType = .pegMid then Prices.na else frame.price
          quantity := frame.qty
          maxFloor := if frame.maxFloor > 0 then frame.maxFloor else 0
          timestamp
          originalOrderId := -1 }
    else none
  | .cancel clOrdId origClOrdId =>
    if 0 ≤ clOrdId ∧ 0 ≤ origClOrdId then
      some
        { eventType := .cancelOrder
          orderId := clOrdId
          side := none
          ordType := none
          tif := none
          price := -1
          quantity := -1
          maxFloor := 0
          timestamp
          originalOrderId := origClOrdId }
    else none

/-- The request of a new order is what the parser makes of the message that the encoder writes for
it. -/
theorem parse_new (p : FixParser) (target : OrderEvent) (side : Side) (ordType : OrdType)
    (tif : TimeInForce) (clOrdId price qty maxFloor : Long) :
    ∃ p', p.parse
      (JsonToFix.newOrderSingle clOrdId side ordType price qty (Text.lit "ASML") tif maxFloor) 0
        (JsonToFix.newOrderSingle clOrdId side ordType price qty (Text.lit "ASML") tif
      maxFloor).length target = .ok (p',
        request target.timestamp (.new ⟨clOrdId, side, ordType, tif, price, qty, maxFloor⟩)) := by
  obtain ⟨p', ⟨⟨hid, hsound⟩, hrun⟩ | ⟨hno, hrun⟩⟩ :=
    JsonToFix.parse_legitimate p clOrdId side ordType price qty tif maxFloor target
  · have htaken : request target.timestamp
        (.new ⟨clOrdId, side, ordType, tif, price, qty, maxFloor⟩) =
        some (JsonToFix.newOrderEvent side ordType price qty tif maxFloor clOrdId target) :=
      if_pos ⟨hid, hsound⟩
    exact ⟨p', by rw [hrun, htaken]⟩
  · have hdropped : request target.timestamp
        (.new ⟨clOrdId, side, ordType, tif, price, qty, maxFloor⟩) = none :=
      if_neg hno
    exact ⟨p', by rw [hrun, hdropped]⟩

/-- So is the request of a cancel. -/
theorem parse_cancel (p : FixParser) (target : OrderEvent) (clOrdId origClOrdId : Long) :
    ∃ p', p.parse (JsonToFix.orderCancelRequest clOrdId origClOrdId) 0
        (JsonToFix.orderCancelRequest clOrdId origClOrdId).length target =
      .ok (p', request target.timestamp (.cancel clOrdId origClOrdId)) := by
  obtain ⟨p', ⟨hids, hrun⟩ | ⟨hno, hrun⟩⟩ :=
    JsonToFix.parse_orderCancelRequest p clOrdId origClOrdId target
  · have htaken : request target.timestamp (.cancel clOrdId origClOrdId) =
        some (JsonToFix.cancelEvent clOrdId origClOrdId target) := if_pos hids
    exact ⟨p', by rw [hrun, htaken]⟩
  · have hdropped : request target.timestamp (.cancel clOrdId origClOrdId) = none := if_neg hno
    exact ⟨p', by rw [hrun, hdropped]⟩

/-- A reader that rounds keeps the report of an EXEC frame whose numbers it does not round. -/
theorem rounded_exec {round : ℤ → ℤ} {report : ExecutionEvent} (timestamp : ℤ)
    (h : ∀ n ∈ [report.orderId, report.tradeId, report.price, report.filledQuantity,
    report.remainingQuantity, report.aggressorOrderId, report.passiveOrderId], round n = n) :
    (WebSocketPublisher.serializeExecution report timestamp).rounded round =
      WebSocketPublisher.serializeExecution report (round timestamp) := by
  simp only [List.forall_mem_cons] at h
  obtain ⟨horder, htrade, hprice, hfilled, hremaining, haggressor, hpassive, -⟩ := h
  simp [WebSocketPublisher.serializeExecution, Json.rounded, Json.roundedFields, horder, htrade,
    hprice, hfilled, hremaining, haggressor, hpassive]

/-- The terminal reads the report that the publisher wrote. -/
theorem parseServerFrame_exec {parse : String → Option Json} {raw : String} {round : ℤ → ℤ}
    {report : ExecutionEvent} {timestamp : ℤ}
    (h : parse raw = some ((WebSocketPublisher.serializeExecution report timestamp).rounded round))
    (hkept : ∀ n ∈ [report.orderId, report.tradeId, report.price, report.filledQuantity,
    report.remainingQuantity, report.aggressorOrderId, report.passiveOrderId], round n = n) :
    parseServerFrame parse raw = some (.exec ⟨report, round timestamp⟩) := by
  have hkind : execTypeOf (some (.str report.eventType.name)) = some report.eventType := by
    cases report.eventType <;> rfl
  rw [rounded_exec timestamp hkept] at h
  simp [parseServerFrame, h, WebSocketPublisher.serializeExecution, frameOf,
    Json.field?, int, hkind]

/-- The id under which an action sends a new order. -/
def Action.sentId : Action → Option ℤ
  | .sent (.new order) _ => some order.clOrdId
  | _ => none

/-- The ids of the orders that a terminal has sent. -/
def sentIds (actions : List Action) : List ℤ := actions.filterMap Action.sentId

/-- A last action adds the id that it sends. -/
theorem sentIds_append (actions : List Action) (action : Action) :
    sentIds (actions ++ [action]) = sentIds actions ++ action.sentId.toList := by
  rw [sentIds, List.filterMap_append]
  cases h : action.sentId <;> simp [sentIds, h]

/-- A new order goes out under the id of its frame. -/
theorem newIds_request (timestamp : ℤ) (frame : ClientFrame) (sentAtNanos : Option ℤ) :
    newIds (request timestamp frame).toList ⊆ (Action.sent frame sentAtNanos).sentId.toList := by
  cases frame with
  | new frame =>
    rw [request]
    split_ifs <;> simp [newIds, Action.sentId]
  | cancel clOrdId origClOrdId =>
    rw [request]
    split_ifs <;> simp [newIds]

/-- The event of one frame has at most one new id. -/
theorem nodup_newIds_request (timestamp : ℤ) (frame : ClientFrame) :
    (newIds (request timestamp frame).toList).Nodup := by
  cases request timestamp frame with
  | none => exact List.nodup_nil
  | some event =>
    rw [Option.toList_some, newIds]
    exact ((List.nodup_singleton event).filter _).map_on (by simp +contextual)

/-! ## Rejections -/

/-- A rejection of the id of a row rejects it before anything else is known of its order. -/
theorem rowExec_rejected {row : MyOrder} {frame : ExecFrame}
    (h : frame.toExecutionEvent = rejected row.clOrdId)
    (hstatus : row.status = .pending ∨ row.status = .rejected) :
    (rowExec row frame).status = .rejected := by
  obtain ⟨report, timestamp⟩ := frame
  obtain rfl : report = rejected row.clOrdId := h
  rcases hstatus with hstatus | hstatus
  · rw [rowExec_own rfl]
    simp [nextOrder, hstatus, isTerminal, rejected]
  · rw [rowExec_of_terminal (by rw [hstatus]; rfl), hstatus]

/-- Rejections do no more than that. -/
theorem foldl_rejected {row : MyOrder} {frames : List ExecFrame}
    (hstatus : row.status = .pending ∨ row.status = .rejected)
    (h : ∀ frame ∈ frames, frame.toExecutionEvent.Involves row.clOrdId →
      frame.toExecutionEvent = rejected row.clOrdId) :
    (frames.foldl rowExec row).status = .pending ∨
    (frames.foldl rowExec row).status = .rejected := by
  induction frames generalizing row with
  | nil => exact hstatus
  | cons frame frames ih =>
    obtain ⟨hframe, hframes⟩ := List.forall_mem_cons.mp h
    rw [List.foldl_cons]
    refine ih ?_ (by rwa [clOrdId_rowExec])
    by_cases hinvolves : frame.toExecutionEvent.Involves row.clOrdId
    · exact .inr (rowExec_rejected (hframe hinvolves) hstatus)
    · rw [rowExec_of_not_involves hinvolves]
      exact hstatus

/-- What is between two places of a list. -/
theorem exists_of_mem_drop_take {α : Type*} {xs : List α} {n k : ℕ} {x : α}
    (h : x ∈ (xs.take k).drop n) :
    ∃ j, n ≤ j ∧ j < k ∧ xs[j]? = some x := by
  obtain ⟨i, hi⟩ := List.mem_iff_getElem?.mp h
  rw [List.getElem?_drop, List.getElem?_take] at hi
  split_ifs at hi with hlt
  exact ⟨n + i, by omega, hlt, hi⟩

/-- What is left after some elements is a middle part and what is left after more. -/
theorem drop_eq_append {α : Type*} (xs : List α) {n k : ℕ} (h : n ≤ k) :
    xs.drop n = (xs.take k).drop n ++ xs.drop k := by
  have hk : n + (k - n) = k := by omega
  calc xs.drop n = (xs.drop n).take (k - n) ++ (xs.drop n).drop (k - n) :=
    (List.take_append_drop ..).symm
    _ = (xs.take k).drop n ++ xs.drop k := by rw [List.drop_take, List.drop_drop, hk]

/-- The first element of a list is before each element that differs from it in kind. -/
theorem mem_of_later {event last : OrderEvent} {mid post : List OrderEvent}
    (h : mid ++ [last] <+: event :: post) (hkind : event.eventType ≠ last.eventType) :
    event ∈ mid := by
  obtain ⟨rest, hrest⟩ := h
  cases mid with
  | nil =>
    obtain rfl := (List.cons.inj hrest).1
    exact absurd rfl hkind
  | cons first mid =>
    obtain rfl := (List.cons.inj hrest).1
    exact List.mem_cons_self

/-! ## What was sent -/

/-- A new order that was sent has an id that was sent. -/
theorem mem_sentIds {start actions : List Action} {frame : NewOrderFrame} {sentAtNanos : Option ℤ}
    (h : start ++ [.sent (.new frame) sentAtNanos] <+: actions) : frame.clOrdId ∈ sentIds actions :=
  List.mem_filterMap.mpr
    ⟨.sent (.new frame) sentAtNanos, h.subset (List.mem_append_right _ List.mem_cons_self), rfl⟩

/-- Under distinct ids an order is sent once. -/
theorem start_length_le {actions start start' : List Action} (hnodup : (sentIds actions).Nodup)
    {frame frame' : NewOrderFrame} {sentAtNanos sentAtNanos' : Option ℤ}
    (hstart : start ++ [.sent (.new frame) sentAtNanos] <+: actions)
    (hstart' : start' ++ [.sent (.new frame') sentAtNanos'] <+: actions)
    (hid : frame.clOrdId = frame'.clOrdId) : start'.length ≤ start.length := by
  by_contra hlt
  have hbefore : start ++ [.sent (.new frame) sentAtNanos] <+: start' :=
    List.prefix_of_prefix_length_le hstart ((List.prefix_append ..).trans hstart') (by
      rw [List.length_append]
      exact Nat.not_le.mp hlt)
  -- The second time would repeat the id.
  obtain ⟨later, rfl⟩ := hstart'
  rw [sentIds, List.filterMap_append] at hnodup
  have htwo := (List.nodup_append.mp hnodup).1
  rw [← sentIds, sentIds_append, List.nodup_append] at htwo
  exact htwo.2.2 _ (hid ▸ mem_sentIds hbefore) _ (Option.mem_toList.mpr rfl) rfl

/-- A row is an order that was sent, moved by what was received since. -/
theorem row_of_mem {actions : List Action} {row : MyOrder}
    (hrow : row ∈ (reduce actions).myOrders) :
    ∃ start frame sentAtNanos, start ++ [.sent (.new frame) sentAtNanos] <+: actions ∧
      row.clOrdId = frame.clOrdId ∧
      row = ((execs actions).drop (execs start).length).foldl rowExec
      (newRow frame sentAtNanos) := by
  obtain ⟨start, frame, sentAtNanos, post, rfl, rfl⟩ := mem_reduce hrow
  refine ⟨start, frame, sentAtNanos, ⟨post, by simp⟩, clOrdId_foldl _ _, ?_⟩
  have hexecs : execs (start ++ .sent (.new frame) sentAtNanos :: post) =
      execs start ++ execs post := by
    rw [execs, List.filterMap_append, List.filterMap_cons_none rfl]
    rfl
  rw [hexecs, List.drop_left]

/-! ## Steps -/

/-- A venue with its clients: the events that the handler has processed, the requests of each client
that are on their way, oldest first, and what the terminal of each client has done and received. -/
structure Session (Client : Type u) where
  events : List OrderEvent := []
  inFlight : Client → List OrderEvent := fun _ => []
  actions : Client → List Action := fun _ => []

namespace Session

variable {Client : Type u} [DecidableEq Client]

/-- The session after an action on the terminal of a client. -/
def act (s : Session Client) (c : Client) (action : Action) : Session Client :=
  { s with actions := Function.update s.actions c (s.actions c ++ [action]) }

/-- The session after a client has sent a frame. -/
def send (s : Session Client) (c : Client) (frame : ClientFrame) (sentAtNanos : Option ℤ)
    (timestamp : ℤ) :
    Session Client :=
  { s.act c (.sent frame sentAtNanos) with
    inFlight := Function.update s.inFlight c (s.inFlight c ++ (request timestamp frame).toList) }

/-- The session after the handler has processed the oldest request of a client. -/
def process (s : Session Client) (c : Client) (event : OrderEvent) (rest : List OrderEvent) :
    Session Client :=
  { s with events := s.events ++ [event], inFlight := Function.update s.inFlight c rest }

/-- What can happen: a client sends a frame, a new order under an id that no client has used; the
handler processes the oldest request of a client; a client receives the next report of the stream;
anything else happens at a terminal. -/
inductive Step : Session Client → Session Client → Prop where
  /-- A client sends a frame, a new order under an id that no client has sent. -/
  | send {s : Session Client} {c : Client} {frame : ClientFrame} {sentAtNanos : Option ℤ}
    {timestamp : ℤ} :
    (∀ X ∈ (Action.sent frame sentAtNanos).sentId, ∀ d, X ∉ sentIds (s.actions d)) →
    Step s (s.send c frame sentAtNanos timestamp)
  /-- The handler processes the oldest request of a client. -/
  | process {s : Session Client} {c : Client} {event : OrderEvent} {rest : List OrderEvent} :
    s.inFlight c = event :: rest → Step s (s.process c event rest)
  /-- A client receives the next report. -/
  | receive {s : Session Client} {c : Client} {frame : ExecFrame} :
    (after s.events).outbound[(execs (s.actions c)).length]? = some frame.toExecutionEvent →
    Step s (s.act c (.frame (.exec frame)))
  /-- Anything else happens at a terminal. -/
  | other {s : Session Client} {c : Client} {action : Action} :
    action.execFrame = none → (∀ frame sentAtNanos, action ≠ .sent frame sentAtNanos) →
      Step s (s.act c action)

/-- The sessions that come about. -/
def Reachable (s : Session Client) : Prop := Relation.ReflTransGen Step {} s

/-! ## What holds of every session -/

/-- The terminals know the stream up to some point, the ids of the new orders are distinct, and no
new order is processed before a terminal has sent it. -/
structure Coherent (s : Session Client) : Prop where
  /-- A terminal has received a part of the stream from its start. -/
  stream : ∀ c, (execs (s.actions c)).map ExecFrame.toExecutionEvent <+: (after s.events).outbound
  /-- No client has sent two new orders of one id. -/
  nodup : ∀ c, (sentIds (s.actions c)).Nodup
  /-- No two clients have sent new orders of one id. -/
  disjoint : ∀ c d X, X ∈ sentIds (s.actions c) → X ∈ sentIds (s.actions d) → c = d
  /-- A new order on its way was sent by its client. -/
  queued : ∀ c, newIds (s.inFlight c) ⊆ sentIds (s.actions c)
  /-- A new order that was processed was sent by a client. -/
  processed : ∀ X ∈ newIds s.events, ∃ c, X ∈ sentIds (s.actions c)
  /-- No id was processed or is on its way twice. -/
  distinct : ∀ c, (newIds (s.events ++ s.inFlight c)).Nodup
  /-- A new order is processed no earlier than the reports were published that its client had
  received when it sent it. -/
  sentFirst : ∀ c start frame sentAtNanos pre event,
    start ++ [.sent (.new frame) sentAtNanos] <+: s.actions c → pre ++ [event] <+: s.events →
    event.eventType = .newOrder → event.orderId = frame.clOrdId →
    (execs start).length ≤ (after pre).outbound.length

omit [DecidableEq Client] in
/-- The empty session is coherent. -/
theorem coherent_start : ({} : Session Client).Coherent where
  stream _ := List.nil_prefix
  nodup _ := List.nodup_nil
  disjoint _ _ _ hX := absurd hX List.not_mem_nil
  queued _ := List.Subset.refl _
  processed _ hX := absurd hX List.not_mem_nil
  distinct _ := List.nodup_nil
  sentFirst c start frame sentAtNanos pre event hstart := by simp at hstart

section Steps

variable {s s' : Session Client} {c d : Client}

/-- A client that acts has done one more thing. -/
theorem actions_act_self (s : Session Client) (c : Client) (action : Action) :
    (s.act c action).actions c = s.actions c ++ [action] := Function.update_self ..

/-- The other clients have done what they had. -/
theorem actions_act_of_ne (h : d ≠ c) (action : Action) :
    (s.act c action).actions d = s.actions d :=
  Function.update_of_ne h ..

/-- A request that is sent is the last on its way. -/
theorem inFlight_send_self (s : Session Client) (c : Client) (frame : ClientFrame)
    (sentAtNanos : Option ℤ) (timestamp : ℤ) : (s.send c frame sentAtNanos timestamp).inFlight c =
      s.inFlight c ++ (request timestamp frame).toList := Function.update_self ..

/-- A request of another client does not change what is on its way. -/
theorem inFlight_send_of_ne (h : d ≠ c) (frame : ClientFrame) (sentAtNanos : Option ℤ)
    (timestamp : ℤ) :
    (s.send c frame sentAtNanos timestamp).inFlight d = s.inFlight d := Function.update_of_ne h ..

/-- The oldest request of a client is off its way when it is processed. -/
theorem inFlight_process_self (s : Session Client) (c : Client) (event : OrderEvent)
    (rest : List OrderEvent) :
    (s.process c event rest).inFlight c = rest := Function.update_self ..

/-- The requests of the other clients stay on their way. -/
theorem inFlight_process_of_ne (h : d ≠ c) (event : OrderEvent) (rest : List OrderEvent) :
    (s.process c event rest).inFlight d = s.inFlight d := Function.update_of_ne h ..

omit [DecidableEq Client] in
/-- No two new orders that were processed have one id. -/
theorem Coherent.nodup_events (h : s.Coherent) (c : Client) : (newIds s.events).Nodup :=
  (newIds_mono (List.prefix_append ..)).sublist.nodup (h.distinct c)

/-- An order that is sent now was not processed yet, and one that was sent earlier was sent before
this action. -/
theorem Coherent.sentFirst_act (h : s.Coherent) {action : Action}
    (hfresh : ∀ X ∈ action.sentId, X ∉ newIds s.events) {start : List Action}
    {frame : NewOrderFrame} {sentAtNanos : Option ℤ} {pre : List OrderEvent} {event : OrderEvent}
    (hstart : start ++ [.sent (.new frame) sentAtNanos] <+: (s.act c action).actions d)
    (hpre : pre ++ [event] <+: s.events) (htype : event.eventType = .newOrder)
    (hid : event.orderId = frame.clOrdId) : (execs start).length ≤ (after pre).outbound.length := by
  by_cases hd : d = c
  · subst hd
    rw [actions_act_self, List.prefix_concat_iff] at hstart
    rcases hstart with hlast | hstart
    · obtain ⟨-, hlast⟩ := List.append_inj' hlast rfl
      obtain rfl := List.singleton_inj.mp hlast
      have hmem : frame.clOrdId ∈ newIds s.events :=
        mem_newIds.mpr ⟨event, hpre.subset (List.mem_append_right _ List.mem_cons_self), htype, hid⟩
      exact absurd hmem (hfresh _ rfl)
    · exact h.sentFirst d start frame sentAtNanos pre event hstart hpre htype hid
  · rw [actions_act_of_ne hd] at hstart
    exact h.sentFirst d start frame sentAtNanos pre event hstart hpre htype hid

/-- What a client knows of the stream after an action. -/
theorem Coherent.stream_act (h : s.Coherent) {action : Action}
    (hnext : ∀ frame ∈ action.execFrame,
      (after s.events).outbound[(execs (s.actions c)).length]? = some frame.toExecutionEvent)
    (d : Client) :
    (execs ((s.act c action).actions d)).map ExecFrame.toExecutionEvent <+:
      (after s.events).outbound := by
  by_cases hd : d = c
  · subst hd
    have hknown := h.stream d
    rw [actions_act_self, execs_append, List.map_append]
    cases hframe : action.execFrame with
    | none => simpa using hknown
    | some frame =>
      obtain ⟨rest, hrest⟩ := hknown
      have hhead := hnext frame hframe
      rw [← hrest, List.getElem?_append_right (by simp), List.length_map, Nat.sub_self] at hhead
      obtain ⟨report, rest, rfl⟩ := List.exists_cons_of_ne_nil (show rest ≠ [] by
        rintro rfl
        simp at hhead)
      obtain rfl := Option.some.inj hhead
      exact ⟨rest, by rw [← hrest]; simp⟩
  · rw [actions_act_of_ne hd]
    exact h.stream d

/-- An action by which nothing is sent. -/
theorem Coherent.act (h : s.Coherent) {action : Action} (hsent : action.sentId = none)
    (hnext : ∀ frame ∈ action.execFrame,
      (after s.events).outbound[(execs (s.actions c)).length]? = some frame.toExecutionEvent) :
    (s.act c action).Coherent := by
  have hids : ∀ d, sentIds ((s.act c action).actions d) = sentIds (s.actions d) := by
    intro d
    by_cases hd : d = c
    · subst hd
      rw [actions_act_self, sentIds_append, hsent]
      exact List.append_nil _
    · rw [actions_act_of_ne hd]
  have hfresh : ∀ X ∈ action.sentId, X ∉ newIds s.events := by simp [hsent]
  exact {
    stream := h.stream_act hnext
    nodup := fun d => hids d ▸ h.nodup d
    disjoint := fun d e X hd he => h.disjoint d e X (hids d ▸ hd) (hids e ▸ he)
    queued := fun d => hids d ▸ h.queued d
    processed := fun X hX => by simpa only [hids] using h.processed X hX
    distinct := h.distinct
    sentFirst := fun _ _ _ _ _ _ hstart hpre htype hid =>
      h.sentFirst_act hfresh hstart hpre htype hid }

/-- A frame that is sent, with a fresh id where it is a new order. -/
theorem Coherent.send (h : s.Coherent) {frame : ClientFrame} {sentAtNanos : Option ℤ}
    {timestamp : ℤ}
    (hfresh : ∀ X ∈ (Action.sent frame sentAtNanos).sentId, ∀ d, X ∉ sentIds (s.actions d)) :
    (s.send c frame sentAtNanos timestamp).Coherent := by
  have hprocessed : ∀ X ∈ (Action.sent frame sentAtNanos).sentId, X ∉ newIds s.events := by
    intro X hX hmem
    obtain ⟨d, hd⟩ := h.processed X hmem
    exact hfresh X hX d hd
  have hids : ∀ d X, X ∈ sentIds ((s.send c frame sentAtNanos timestamp).actions d) ↔
      X ∈ sentIds (s.actions d) ∨ d = c ∧ X ∈ (Action.sent frame sentAtNanos).sentId := by
    intro d X
    show X ∈ sentIds ((s.act c (.sent frame sentAtNanos)).actions d) ↔ _
    by_cases hd : d = c
    · subst hd
      rw [actions_act_self, sentIds_append, List.mem_append, Option.mem_toList]
      simp
    · rw [actions_act_of_ne hd]
      simp [hd]
  have hnew : ∀ X ∈ newIds (request timestamp frame).toList,
      X ∈ (Action.sent frame sentAtNanos).sentId :=
    fun X hX => Option.mem_toList.mp (newIds_request timestamp frame sentAtNanos hX)
  have hstream := @Coherent.stream_act _ _ s c h (.sent frame sentAtNanos)
    (by simp [Action.execFrame])
  refine {
    stream := hstream
    nodup := fun d => ?_
    disjoint := fun d e X hd he => ?_
    queued := fun d X hX => (hids d X).mpr ?_
    processed := fun X hX => ?_
    distinct := fun d => ?_
    sentFirst := fun _ _ _ _ _ _ hstart hpre htype hid =>
      h.sentFirst_act hprocessed hstart hpre htype hid }
  · show (sentIds ((s.act c (.sent frame sentAtNanos)).actions d)).Nodup
    by_cases hd : d = c
    · subst hd
      rw [actions_act_self, sentIds_append, List.nodup_append]
      refine ⟨h.nodup d, Option.toList_nodup _, ?_⟩
      rintro X hX Y hY rfl
      exact hfresh X (Option.mem_toList.mp hY) d hX
    · rw [actions_act_of_ne hd]
      exact h.nodup d
  · rcases (hids d X).mp hd with hd | ⟨rfl, hX⟩
    · rcases (hids e X).mp he with he | ⟨-, hX⟩
      · exact h.disjoint d e X hd he
      · exact absurd hd (hfresh X hX d)
    · rcases (hids e X).mp he with he | ⟨rfl, -⟩
      · exact absurd he (hfresh X hX e)
      · rfl
  · by_cases hd : d = c
    · subst hd
      rw [inFlight_send_self, newIds_append, List.mem_append] at hX
      exact hX.imp (fun hX => h.queued d hX) fun hX => ⟨rfl, hnew X hX⟩
    · rw [inFlight_send_of_ne hd] at hX
      exact .inl (h.queued d hX)
  · obtain ⟨d, hd⟩ := h.processed X hX
    exact ⟨d, (hids d X).mpr (.inl hd)⟩
  · show (newIds (s.events ++ (s.send c frame sentAtNanos timestamp).inFlight d)).Nodup
    by_cases hd : d = c
    · subst hd
      rw [inFlight_send_self, ← List.append_assoc, newIds_append, List.nodup_append]
      refine ⟨h.distinct d, nodup_newIds_request timestamp frame, ?_⟩
      rintro X hX Y hY rfl
      -- An id on its way or processed is one that was sent.
      rw [newIds_append, List.mem_append] at hX
      rcases hX with hX | hX
      · exact hprocessed X (hnew X hY) hX
      · exact hfresh X (hnew X hY) d (h.queued d hX)
    · rw [inFlight_send_of_ne hd]
      exact h.distinct d

/-- The oldest request of a client is processed. -/
theorem Coherent.process (h : s.Coherent) {event : OrderEvent} {rest : List OrderEvent}
    (hoffers : s.inFlight c = event :: rest) : (s.process c event rest).Coherent := by
  have hsplit : newIds (s.inFlight c) = newIds [event] ++ newIds rest := by
    rw [hoffers, ← newIds_append]
    rfl
  have hown : ∀ X ∈ newIds [event], X ∈ sentIds (s.actions c) := by
    intro X hX
    refine h.queued c ?_
    rw [hsplit]
    exact List.mem_append_left _ hX
  have hstream : (after s.events).outbound <+: (after (s.events ++ [event])).outbound := by
    obtain ⟨reports, hreports⟩ := outbound_suffix s.events [event]
    exact ⟨reports, hreports.symm⟩
  refine {
    stream := fun d => (h.stream d).trans hstream
    nodup := h.nodup
    disjoint := h.disjoint
    queued := fun d => ?_
    processed := fun X hX => ?_
    distinct := fun d => ?_
    sentFirst := fun d start frame sentAtNanos pre last hstart hpre htype hid => ?_ }
  · show newIds ((s.process c event rest).inFlight d) ⊆ sentIds (s.actions d)
    by_cases hd : d = c
    · subst hd
      rw [inFlight_process_self]
      refine List.Subset.trans ?_ (h.queued d)
      rw [hsplit]
      exact List.subset_append_right ..
    · rw [inFlight_process_of_ne hd]
      exact h.queued d
  · rw [Session.process, newIds_append, List.mem_append] at hX
    exact hX.elim (h.processed X) fun hX => ⟨c, hown X hX⟩
  · show (newIds (s.events ++ [event] ++ (s.process c event rest).inFlight d)).Nodup
    have hc := h.distinct c
    by_cases hd : d = c
    · subst hd
      rw [inFlight_process_self, List.append_assoc]
      rw [hoffers] at hc
      exact hc
    · rw [inFlight_process_of_ne hd, newIds_append, List.nodup_append]
      rw [newIds_append, hsplit, ← List.append_assoc, ← newIds_append, List.nodup_append] at hc
      have hd' := h.distinct d
      rw [newIds_append, List.nodup_append] at hd'
      refine ⟨hc.1, hd'.2.1, ?_⟩
      rintro X hX Y hY rfl
      rw [newIds_append, List.mem_append] at hX
      -- The requests of two clients have different ids.
      rcases hX with hX | hX
      · exact hd'.2.2 X hX X hY rfl
      · exact hd (h.disjoint d c X (h.queued d hY) (hown X hX))
  · rw [Session.process, List.prefix_concat_iff] at hpre
    rcases hpre with hlast | hpre
    · obtain ⟨rfl, -⟩ := List.append_inj' hlast rfl
      -- What a client knew when it sent the order is part of the stream up to now.
      have hknown := (h.stream d).length_le
      have hstarts : (execs start).length ≤ (execs (s.actions d)).length := by
        obtain ⟨later, hlater⟩ := hstart
        have hall : s.actions d = start ++ [.sent (.new frame) sentAtNanos] ++ later := hlater.symm
        rw [hall, execs, execs, List.filterMap_append, List.filterMap_append, List.length_append,
          List.length_append]
        omega
      rw [List.length_map] at hknown
      exact hstarts.trans hknown
    · exact h.sentFirst d start frame sentAtNanos pre last hstart hpre htype hid

/-- Every step keeps a session coherent. -/
theorem Coherent.step (h : s.Coherent) (hstep : Step s s') : s'.Coherent := by
  cases hstep with
  | send hfresh => exact h.send hfresh
  | process hoffers => exact h.process hoffers
  | receive hnext =>
    refine h.act rfl ?_
    rintro frame hframe
    obtain rfl := Option.some.inj hframe
    exact hnext
  | @other c action hexec hsent =>
    refine h.act ?_ (by simp [hexec])
    cases action with
    | sent frame sentAtNanos => exact absurd rfl (hsent frame sentAtNanos)
    | connection status => rfl
    | frame frame => rfl

/-- Steps keep a session coherent. -/
theorem Coherent.steps (h : s.Coherent) (hsteps : Relation.ReflTransGen Step s s') : s'.Coherent :=
  steps_inv hsteps Coherent h fun _ _ h hstep => h.step hstep

/-- A session that is reached is coherent. -/
theorem Reachable.coherent (h : s.Reachable) : s.Coherent := coherent_start.steps h

/-! ## Orders on their way -/

/-- The new orders under an id that a client has sent: those that the handler has processed and
those on their way from that client. -/
def ordersOf (s : Session Client) (c : Client) (X : ℤ) : List OrderEvent :=
  (s.events ++ s.inFlight c).filter fun event => event.eventType = .newOrder ∧ event.orderId = X

omit [DecidableEq Client] in
/-- The orders of an id are the new orders under it that were processed or are on their way. -/
theorem mem_ordersOf {X : ℤ} {event : OrderEvent} : event ∈ s.ordersOf c X ↔
    (event ∈ s.events ∨ event ∈ s.inFlight c) ∧ event.eventType = .newOrder ∧
      event.orderId = X := by
  simp [ordersOf, or_and_right]

/-- No order comes about later under an id that was sent. -/
theorem Coherent.ordersOf_step (h : s.Coherent) (hstep : Step s s') {X : ℤ}
    (hX : X ∈ sentIds (s.actions c)) :
    X ∈ sentIds (s'.actions c) ∧ s'.ordersOf c X ⊆ s.ordersOf c X := by
  have hact : ∀ d (action : Action), X ∈ sentIds ((s.act d action).actions c) := by
    intro d action
    by_cases hc : c = d
    · subst hc
      rw [actions_act_self, sentIds_append]
      exact List.mem_append_left _ hX
    · rw [actions_act_of_ne hc]
      exact hX
  cases hstep with
  | @send d frame sentAtNanos timestamp hfresh =>
    refine ⟨hact d _, fun event hevent => ?_⟩
    rw [mem_ordersOf] at hevent ⊢
    obtain ⟨hmem, htype, hid⟩ := hevent
    refine ⟨hmem.imp_right fun hmem => ?_, htype, hid⟩
    by_cases hc : c = d
    · subst hc
      rw [inFlight_send_self, List.mem_append] at hmem
      refine hmem.resolve_right fun hnew => ?_
      -- A new order goes out under an id that was not sent.
      have hids : X ∈ newIds (request timestamp frame).toList :=
        mem_newIds.mpr ⟨event, hnew, htype, hid⟩
      exact hfresh X (Option.mem_toList.mp (newIds_request timestamp frame sentAtNanos hids)) c hX
    · rw [inFlight_send_of_ne hc] at hmem
      exact hmem
  | @process d event rest hoffers =>
    refine ⟨hX, fun order horder => ?_⟩
    rw [mem_ordersOf] at horder ⊢
    obtain ⟨hmem, htype, hid⟩ := horder
    refine ⟨?_, htype, hid⟩
    have hevents : (s.process d event rest).events = s.events ++ [event] := rfl
    rw [hevents, List.mem_append, List.mem_singleton] at hmem
    by_cases hc : c = d
    · subst hc
      rw [inFlight_process_self] at hmem
      rw [hoffers, List.mem_cons, ← or_assoc]
      exact hmem
    · rw [inFlight_process_of_ne hc] at hmem
      refine hmem.imp_left fun hmem => hmem.resolve_right ?_
      rintro rfl
      -- A request of another client has another id.
      have hown : X ∈ sentIds (s.actions d) := h.queued d (mem_newIds.mpr
        ⟨order, by rw [hoffers]; exact List.mem_cons_self, htype, hid⟩)
      exact hc (h.disjoint c d X hX hown)
  | receive hnext => exact ⟨hact _ _, List.Subset.refl _⟩
  | other hexec hsent => exact ⟨hact _ _, List.Subset.refl _⟩

/-- Later the orders of an id that was sent are no others. -/
theorem Coherent.ordersOf_steps (h : s.Coherent) (hsteps : Relation.ReflTransGen Step s s') {X : ℤ}
    (hX : X ∈ sentIds (s.actions c)) :
    X ∈ sentIds (s'.actions c) ∧ s'.ordersOf c X ⊆ s.ordersOf c X := by
  refine (steps_inv hsteps
    (fun u => u.Coherent ∧ X ∈ sentIds (u.actions c) ∧ u.ordersOf c X ⊆ s.ordersOf c X)
    ⟨h, hX, List.Subset.refl _⟩ ?_).2
  rintro u v ⟨hu, hsent, hsub⟩ hstep
  obtain ⟨hsent', hsub'⟩ := hu.ordersOf_step hstep hsent
  exact ⟨hu.step hstep, hsent', List.Subset.trans hsub' hsub⟩

/-- A request that is on its way may come to be processed. -/
theorem exists_processed {event : OrderEvent} (hevent : event ∈ s.inFlight c) :
    ∃ s', Relation.ReflTransGen Step s s' ∧ event ∈ s'.events := by
  generalize hoffers : s.inFlight c = requests at hevent
  -- By induction on the requests of the client, which are processed in order.
  induction requests generalizing s with
  | nil => exact absurd hevent List.not_mem_nil
  | cons first rest ih =>
    have hstep : Step s (s.process c first rest) := .process hoffers
    rcases List.mem_cons.mp hevent with rfl | hevent
    · exact ⟨_, .single hstep, List.mem_append_right _ List.mem_cons_self⟩
    · obtain ⟨s', hsteps, hmem⟩ := ih (inFlight_process_self s c first rest) hevent
      exact ⟨s', .head hstep hsteps, hmem⟩

/-- The order of an id is not admitted, and never will be: from this session on no new order of the
id is taken, nothing rests under it and no fill names it. -/
def NeverAdmitted (s : Session Client) (X : ℤ) : Prop :=
  ∀ s', Relation.ReflTransGen Step s s' →
    (∀ event ∈ s'.events, event.eventType = .newOrder → event.orderId = X → ∃ e,
      order event = .error e) ∧
    (∀ r ∈ (after s'.events).engine.resting, r.orderID ≠ X) ∧
    ∀ report ∈ (after s'.events).outbound, report.isFill = true → ¬ report.Involves X

/-- An order that was sent is never admitted exactly if the constructor refuses it. -/
theorem Coherent.neverAdmitted_iff (h : s.Coherent) {X : ℤ} (hX : X ∈ sentIds (s.actions c)) :
    s.NeverAdmitted X ↔ ∀ event ∈ s.ordersOf c X, ∃ e, order event = .error e := by
  constructor
  · intro hnever event hevent
    obtain ⟨hmem | hmem, htype, hid⟩ := mem_ordersOf.mp hevent
    · exact (hnever s .refl).1 event hmem htype hid
    · obtain ⟨s', hsteps, hmem⟩ := exists_processed hmem
      exact (hnever s' hsteps).1 event hmem htype hid
  · intro hrefused s' hsteps
    have hlater : ∀ event ∈ s'.events, event.eventType = .newOrder → event.orderId = X →
        ∃ e, order event = .error e := by
      intro event hevent htype hid
      exact hrefused event
        ((h.ordersOf_steps hsteps hX).2 (mem_ordersOf.mpr ⟨.inl hevent, htype, hid⟩))
    exact ⟨hlater, idle_of_not_admitted ((h.steps hsteps).nodup_events c) hlater⟩

/-! ## Rows and answers to cancels -/

/-- A cancel has overtaken an order of a client: it names the order and was processed before it, and
its answer reached the client after the client had sent the order. The answer has the place in the
stream that the cancel has in the run. -/
def Overtaken (s : Session Client) (c : Client) (X : ℤ) : Prop :=
  ∃ pre cancel start frame sentAtNanos,
    pre ++ [cancel] <+: s.events ∧ cancel.eventType = .cancelOrder ∧ cancel.originalOrderId = X ∧
    X ∉ newIds pre ∧
    start ++ [.sent (.new frame) sentAtNanos] <+: s.actions c ∧ frame.clOrdId = X ∧
    (execs start).length ≤ (after pre).outbound.length ∧
    (after pre).outbound.length < (execs (s.actions c)).length

omit [DecidableEq Client] in
/-- What a client has received at a place is what the stream has there. -/
theorem Coherent.getElem?_outbound (h : s.Coherent) {k : ℕ} {frame : ExecFrame}
    (hk : (execs (s.actions c))[k]? = some frame) :
    (after s.events).outbound[k]? = some frame.toExecutionEvent := by
  obtain ⟨rest, hrest⟩ := h.stream c
  have hlt : k < (execs (s.actions c)).length := (List.getElem?_eq_some_iff.mp hk).1
  rw [← hrest, List.getElem?_append_left (by simpa using hlt), List.getElem?_map, hk]
  rfl

omit [DecidableEq Client] in
/-- An order is sent once. -/
theorem Coherent.start_unique (h : s.Coherent) {start start' : List Action}
    {frame frame' : NewOrderFrame} {sentAtNanos sentAtNanos' : Option ℤ}
    (hstart : start ++ [.sent (.new frame) sentAtNanos] <+: s.actions c)
    (hstart' : start' ++ [.sent (.new frame') sentAtNanos'] <+: s.actions c)
    (hid : frame.clOrdId = frame'.clOrdId) : start = start' := by
  have hlength : start.length = start'.length := Nat.le_antisymm
    (start_length_le (h.nodup c) hstart' hstart hid.symm)
      (start_length_le (h.nodup c) hstart hstart' hid)
  have hbefore : start <+: start' := List.prefix_of_prefix_length_le
    ((List.prefix_append ..).trans hstart)
    ((List.prefix_append ..).trans hstart') hlength.le
  exact hbefore.eq_of_length hlength

omit [DecidableEq Client] in
/-- A report about an order of a client that was published before the order was processed, and
received after it was sent, is the answer to a cancel that has overtaken the order. -/
theorem Coherent.overtaken_of_involves (h : s.Coherent) {start : List Action}
    {frame : NewOrderFrame} {sentAtNanos : Option ℤ}
    (hstart : start ++ [.sent (.new frame) sentAtNanos] <+: s.actions c)
    {pre : List OrderEvent} (hpre : pre <+: s.events) (hno : frame.clOrdId ∉ newIds pre) {k : ℕ}
    {exec : ExecFrame} (hk : (execs (s.actions c))[k]? = some exec)
    (hsince : (execs start).length ≤ k) (hlt : k < (after pre).outbound.length)
    (hinvolves : exec.toExecutionEvent.Involves frame.clOrdId) :
    s.Overtaken c frame.clOrdId := by
  have hreport := h.getElem?_outbound hk
  obtain ⟨later, hlater⟩ := outbound_mono hpre
  rw [← hlater, List.getElem?_append_left hlt] at hreport
  obtain ⟨-, early, cancel, hearly, htype, hid, rfl⟩ := answer_of_unknown hno hreport hinvolves
  have hreceived : (after early).outbound.length < (execs (s.actions c)).length :=
    (List.getElem?_eq_some_iff.mp hk).1
  have hunknown : frame.clOrdId ∉ newIds early := fun hmem =>
    hno ((newIds_mono ((List.prefix_append ..).trans hearly)).subset hmem)
  exact ⟨early, cancel, start, frame, sentAtNanos, hearly.trans hpre, htype, hid, hunknown, hstart,
    rfl, hsince, hreceived⟩

omit [DecidableEq Client] in
/-- A row whose order a cancel has overtaken is rejected. -/
theorem Coherent.rejected_of_overtaken (h : s.Coherent) {row : MyOrder}
    (hrow : row ∈ (reduce (s.actions c)).myOrders) (hovertaken : s.Overtaken c row.clOrdId) :
    row.status = .rejected := by
  obtain ⟨start, frame, sentAtNanos, hstart, hid, hfold⟩ := row_of_mem hrow
  obtain ⟨pre, cancel, start', frame', sentAtNanos', hcancel, htype, horig, hno, hstart', hid',
      hsince, hreceived⟩ :=
    hovertaken
  obtain rfl := h.start_unique hstart' hstart (hid'.trans hid)
  -- The answer is a rejection of the id.
  have hanswer : (after s.events).outbound[(after pre).outbound.length]? =
      some (rejected row.clOrdId) := by
    obtain ⟨later, hlater⟩ := outbound_mono hcancel
    rw [← hlater, outbound_after, if_pos (failed_of_unknown htype (horig ▸ hno)), horig,
      List.append_assoc, List.getElem?_append_right (Nat.le_refl _), Nat.sub_self]
    rfl
  generalize hk : (after pre).outbound.length = k at hsince hreceived hanswer
  generalize hframes : execs (s.actions c) = frames at hreceived hfold
  have hsplit : frames.drop (execs start').length =
      (frames.take k).drop (execs start').length ++ frames[k] :: frames.drop (k + 1) := by
    rw [← List.drop_eq_getElem_cons]
    exact drop_eq_append frames hsince
  have hnext : frames[k].toExecutionEvent = rejected row.clOrdId := by
    have hget : (execs (s.actions c))[k]? = some frames[k] := by
      rw [hframes, List.getElem?_eq_getElem hreceived]
    exact Option.some.inj ((h.getElem?_outbound hget).symm.trans hanswer)
  -- What came before it can only be the answers to other cancels.
  have hearlier : ∀ exec ∈ (frames.take k).drop (execs start').length,
      exec.toExecutionEvent.Involves row.clOrdId →
      exec.toExecutionEvent = rejected row.clOrdId := by
    intro exec hexec hinvolves
    obtain ⟨j, -, hjk, hj⟩ := exists_of_mem_drop_take hexec
    rw [← hframes] at hj
    have hreport := h.getElem?_outbound hj
    obtain ⟨later, hlater⟩ := outbound_mono ((List.prefix_append ..).trans hcancel)
    rw [← hlater, List.getElem?_append_left (by omega)] at hreport
    exact (answer_of_unknown hno hreport hinvolves).1
  have hrowId : (newRow frame sentAtNanos).clOrdId = row.clOrdId := hid.symm
  have hbefore := foldl_rejected (.inl rfl) (hrowId ▸ hearlier)
  rw [hsplit, List.foldl_append, List.foldl_cons] at hfold
  have hrejected := rowExec_rejected (by rw [clOrdId_foldl, hrowId]; exact hnext) hbefore
  rw [hfold, foldl_of_terminal (by rw [hrejected]; rfl), hrejected]

omit [DecidableEq Client] in
/-- A row that no cancel has overtaken and whose order was admitted is not rejected: it waits for
the report of the admission, and from there on follows the account of the order. -/
theorem Coherent.not_rejected (h : s.Coherent) {start : List Action} {frame : NewOrderFrame}
    {sentAtNanos : Option ℤ} (hstart : start ++ [.sent (.new frame) sentAtNanos] <+: s.actions c)
    (hovertaken : ¬ s.Overtaken c frame.clOrdId) {pre post : List OrderEvent} {event : OrderEvent}
    (hevents : s.events = pre ++ event :: post) (htype : event.eventType = .newOrder)
    (hid : event.orderId = frame.clOrdId) {o : Order} (ho : order event = .ok o) :
    (((execs (s.actions c)).drop (execs start).length).foldl rowExec
      (newRow frame sentAtNanos)).status ≠
      .rejected := by
  have hpre : pre ++ [event] <+: s.events := ⟨post, by rw [hevents]; simp⟩
  have hids : (newIds (pre ++ event :: post)).Nodup := hevents ▸ h.nodup_events c
  have hunknown : frame.clOrdId ∉ newIds pre := hid ▸ (newIds_fresh htype hids).1
  have hsince := h.sentFirst c start frame sentAtNanos pre event hstart hpre htype hid
  generalize hm : (after pre).outbound.length = m at hsince
  -- What was received up to the event of the order is not about it.
  have hnone : ∀ exec ∈ ((execs (s.actions c)).take m).drop (execs start).length,
      ¬ exec.toExecutionEvent.Involves frame.clOrdId := by
    intro exec hexec hinvolves
    obtain ⟨j, hj, hjm, hget⟩ := exists_of_mem_drop_take hexec
    exact hovertaken (h.overtaken_of_involves hstart ((List.prefix_append ..).trans hpre)
      hunknown hget hj
      (hm ▸ hjm) hinvolves)
  have hwaits : (((execs (s.actions c)).take m).drop (execs start).length).foldl rowExec
      (newRow frame sentAtNanos) = newRow frame sentAtNanos := foldl_of_not_involves hnone
  -- The rest of the stream, with what the client has not received yet.
  obtain ⟨later, hlater⟩ := outbound_suffix pre (event :: post)
  obtain ⟨missing, hmissing⟩ : ((execs (s.actions c)).drop m).map ExecFrame.toExecutionEvent
      <+: later := by
    have hknown := (h.stream c).drop m
    rw [hevents, hlater, ← hm, List.drop_left, hm, ← List.map_drop] at hknown
    exact hknown
  have hwhole : ((execs (s.actions c)).drop m ++ missing.map fun report =>
      (⟨report, 0⟩ : ExecFrame)).map
      ExecFrame.toExecutionEvent = later := by
    rw [List.map_append, List.map_map, ← hmissing]
    exact congrArg _ (List.map_id missing)
  obtain ⟨a, ha⟩ := exists_standing ((newIds_mono (List.prefix_append ..)).sublist.nodup hids)
    frame.clOrdId
  obtain rfl := ha.unknown.mpr hunknown
  have hcancels : ∀ mid cancel, mid ++ [cancel] <+: event :: post →
      cancel.eventType = .cancelOrder →
      cancel.originalOrderId = frame.clOrdId → cancel.originalOrderId ∈ newIds (pre ++ mid) := by
    intro mid cancel hmid hcancel horig
    have hmem : event ∈ mid := mem_of_later hmid (by simp [htype, hcancel])
    rw [horig, ← hid]
    exact mem_newIds.mpr ⟨event, List.mem_append_right _ hmem, htype, rfl⟩
  obtain ⟨a', ha', hshows, -⟩ := @Shows.run False pre (event :: post) hids
    (newRow frame sentAtNanos) .unknown ha
    (shows_newRow False frame sentAtNanos) hcancels (fun hfalse => hfalse.elim) _
      (by rw [hlater, hwhole])
  obtain ⟨t, rfl⟩ := ha'.admitted.mpr ⟨event, by simp, htype, hid, o, ho⟩
  have hstatus := hshows.1.not_rejected
  intro hrejected
  rw [drop_eq_append _ hsince, List.foldl_append, hwaits] at hrejected
  -- A rejected row would stay so.
  rw [List.foldl_append, foldl_of_terminal (by rw [hrejected]; rfl)] at hstatus
  exact hstatus hrejected

omit [DecidableEq Client] in
/-- A row is rejected where a cancel has overtaken its order, or its order was refused. -/
theorem Coherent.rejected_cases (h : s.Coherent) {row : MyOrder}
    (hrow : row ∈ (reduce (s.actions c)).myOrders) (hrejected : row.status = .rejected) :
    s.Overtaken c row.clOrdId ∨
      ∃ event ∈ s.ordersOf c row.clOrdId, ∃ e, order event = .error e := by
  obtain ⟨start, frame, sentAtNanos, hstart, hid, hfold⟩ := row_of_mem hrow
  rw [hid]
  by_contra hno
  obtain ⟨hovertaken, hrefused⟩ := not_or.mp hno
  by_cases hmem : frame.clOrdId ∈ newIds s.events
  · obtain ⟨event, hevent, htype, heid⟩ := mem_newIds.mp hmem
    cases ho : order event with
    | error e => exact hrefused ⟨event, mem_ordersOf.mpr ⟨.inl hevent, htype, heid⟩, e, ho⟩
    | ok o =>
      obtain ⟨pre, post, hevents⟩ := List.append_of_mem hevent
      rw [hfold] at hrejected
      exact h.not_rejected hstart hovertaken hevents htype heid ho hrejected
  · -- The order is on its way, so nothing but the answers to cancels is known of it.
    have hnone : ∀ exec ∈ (execs (s.actions c)).drop (execs start).length,
        ¬ exec.toExecutionEvent.Involves frame.clOrdId := by
      intro exec hexec hinvolves
      obtain ⟨i, hi⟩ := List.mem_iff_getElem?.mp hexec
      rw [List.getElem?_drop] at hi
      have hlt := (List.getElem?_eq_some_iff.mp (h.getElem?_outbound hi)).1
      exact hovertaken
        (h.overtaken_of_involves hstart List.prefix_rfl hmem hi (Nat.le_add_right ..) hlt hinvolves)
    rw [hfold, foldl_of_not_involves hnone] at hrejected
    exact absurd hrejected (by simp [newRow])

omit [DecidableEq Client] in
/-- A client has one new order under an id. -/
theorem Coherent.ordersOf_unique (h : s.Coherent) {X : ℤ} {event event' : OrderEvent}
    (hevent : event ∈ s.ordersOf c X) (hevent' : event' ∈ s.ordersOf c X) : event = event' := by
  have hnodup := h.distinct c
  unfold newIds at hnodup
  unfold ordersOf at hevent hevent'
  simp only [Bool.decide_and, List.mem_filter, Bool.and_eq_true, decide_eq_true_eq]
    at hevent hevent'
  obtain ⟨hmem, htype, hid⟩ := hevent
  obtain ⟨hmem', htype', hid'⟩ := hevent'
  exact List.inj_on_of_nodup_map hnodup (List.mem_filter.mpr ⟨hmem, decide_eq_true htype⟩)
    (List.mem_filter.mpr ⟨hmem', decide_eq_true htype'⟩) (hid.trans hid'.symm)

/-- In every session a row of a client that is rejected is one of an order that is never admitted,
exactly where no cancel has overtaken the order, unless the constructor refuses it. -/
theorem rejected_rows_refused (h : s.Reachable) {row : MyOrder}
    (hrow : row ∈ (reduce (s.actions c)).myOrders) :
    (row.status = .rejected → s.NeverAdmitted row.clOrdId) ↔
      (s.Overtaken c row.clOrdId → ∀ event ∈ s.ordersOf c row.clOrdId, ∃ e,
        order event = .error e) := by
  have hc := h.coherent
  have hsent : row.clOrdId ∈ sentIds (s.actions c) := by
    obtain ⟨start, frame, sentAtNanos, hstart, hid, -⟩ := row_of_mem hrow
    rw [hid]
    exact mem_sentIds hstart
  rw [hc.neverAdmitted_iff hsent]
  constructor
  · exact fun hrows hovertaken => hrows (hc.rejected_of_overtaken hrow hovertaken)
  · intro hcondition hrejected
    rcases hc.rejected_cases hrow hrejected with hovertaken | ⟨event, hevent, e, he⟩
    · exact hcondition hovertaken
    · intro event' hevent'
      obtain rfl := hc.ordersOf_unique hevent hevent'
      exact ⟨e, he⟩

end Steps

/-! ## Two sessions -/

/-- A client sends an order that the constructor refuses, for an immediate order has no display
size, and receives the answer. -/
def refusedSession : Session Bool :=
  ((({} : Session Bool).send true (.new ⟨7, .buy, .limit, .ioc, 10000, 10, 5⟩) none 1).process true
    ⟨.newOrder, 7, some .buy, some .limit, some .ioc, 10000, 10, 5, 1, -1⟩ []).act true
      (.frame (.exec ⟨rejected 7, 2⟩))

/-- `refusedSession` is reached. -/
theorem reachable_refusedSession : refusedSession.Reachable :=
  (((Relation.ReflTransGen.refl.tail (.send (by simp [sentIds]))).tail (.process (by decide))).tail
    (.receive (by decide)))

/-- The row of that order is rejected, and the order is never admitted. -/
theorem rejected_rows_refused_immediate :
    (∃ row ∈ (reduce (refusedSession.actions true)).myOrders,
      row.clOrdId = 7 ∧ row.status = .rejected) ∧
      refusedSession.NeverAdmitted 7 := by
  have hrow : (⟨7, .buy, 10000, 10, 10, .rejected, .limit, .ioc, 5, none⟩ : MyOrder) ∈
      (reduce (refusedSession.actions true)).myOrders := by decide
  refine ⟨⟨_, hrow, rfl, rfl⟩, (rejected_rows_refused reachable_refusedSession hrow).mpr ?_ rfl⟩
  intro _ event hevent
  obtain rfl := List.mem_singleton.mp hevent
  exact ⟨_, rfl⟩

/-- A client sends an order, and another client a cancel that names it. The cancel is processed
first. The first client receives the answer to the cancel, and then the report that its order was
accepted. -/
def crossedSession : Session Bool :=
  ((((({} : Session Bool).send true (.new ⟨7, .buy, .limit, .gtc, 10000, 10, 0⟩) none 1).send false
    (.cancel 3 7) none 2).process false ⟨.cancelOrder, 3, none, none, none, -1, -1, 0, 2, 7⟩
      []).process true
      ⟨.newOrder, 7, some .buy, some .limit, some .gtc, 10000, 10, 0, 1, -1⟩ []).act true
        (.frame (.exec ⟨rejected 7, 3⟩)) |>.act true (.frame (.exec ⟨onAccepted 7 10000 10, 4⟩))

/-- `crossedSession` is reached. -/
theorem reachable_crossedSession : crossedSession.Reachable :=
  ((((((Relation.ReflTransGen.refl.tail (.send (by simp [sentIds]))).tail
    (.send (by simp [Action.sentId]))).tail
    (.process (by decide))).tail (.process (by decide))).tail (.receive (by decide))).tail
      (.receive (by decide)))

/-- The first client has received the whole stream, its row is rejected, and its order rests. -/
theorem crossed_row_rejected :
    crossedSession.Reachable ∧
      (execs (crossedSession.actions true)).map ExecFrame.toExecutionEvent =
        (after crossedSession.events).outbound ∧
      (∃ row ∈ (reduce (crossedSession.actions true)).myOrders,
        row.clOrdId = 7 ∧ row.status = .rejected) ∧
      (∃ r ∈ (after crossedSession.events).engine.resting, r.orderID = 7) ∧
      ¬ crossedSession.NeverAdmitted 7 := by
  have hrow : (⟨7, .buy, 10000, 10, 10, .rejected, .limit, .gtc, 0, none⟩ : MyOrder) ∈
      (reduce (crossedSession.actions true)).myOrders := by decide
  have hrests : ∃ r ∈ (after crossedSession.events).engine.resting, r.orderID = 7 := by decide
  refine ⟨reachable_crossedSession, by decide, ⟨_, hrow, rfl, rfl⟩, hrests, fun hnever => ?_⟩
  obtain ⟨r, hr, hid⟩ := hrests
  exact (hnever _ .refl).2.1 r hr hid

end Session

end Terminal

end MatchingVenue
