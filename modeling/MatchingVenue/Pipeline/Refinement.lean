import MatchingVenue.Pipeline.Venue
import MatchingVenue.Ledger.Standing
import MatchingVenue.Terminal.Depth

/-!
# The venue refines the handler

Whatever the interleaving of its threads, the venue does what the handler does with one event after
the other. The engine is the one behind the handler after some of the events that the frames come
to, each consumer of the outbound ring has got a prefix of what the handler publishes, and each
consumer of the snapshot ring a snapshot of every one of the states that the handler has gone
through, up to some event (`Runs.refines`).

`Mirrors` is the invariant. It names the logs of the three rings and says what each thread has made
of its log.
-/

namespace MatchingVenue

open MatchingEngineHandler (after)

/-- A snapshot holds the best levels of both sides of an engine and its tops. -/
structure BookSnapshotEvent.Shows (event : BookSnapshotEvent) (s : MatchingEngine) : Prop where
  /-- The levels are the best ones of the book, with what they display. -/
  levels : ∀ side, event.levels side =
    ((s.book side).entries.take BookSnapshotEvent.maxDepthLevels).map
      fun level => (level.1, toLong (MatchingEngine.displayed level.2))
  /-- There is room for the bids. -/
  bidLevelCount : event.bidLevelCount ≤ BookSnapshotEvent.maxDepthLevels
  /-- There is room for the asks. -/
  askLevelCount : event.askLevelCount ≤ BookSnapshotEvent.maxDepthLevels
  /-- The best bid is that of the engine. -/
  bestBid : event.bestBid = s.getBestBid
  /-- The best ask is that of the engine. -/
  bestAsk : event.bestAsk = s.getBestAsk

namespace MatchingEngineHandler

/-- Whatever a slot held before, what is written is a snapshot of the engine. -/
theorem shows_snapshotSlot (engine : MatchingEngine) (nanos now : ℤ) (s : BookSnapshotEvent) :
    (snapshotSlot engine nanos now s).Shows engine := by
  have hmax : (0 : ℤ) ≤ BookSnapshotEvent.maxDepthLevels := Int.natCast_nonneg _
  obtain ⟨event, hevent, hlevels, hbids, hasks, hbid, hask⟩ :=
    engine.snapshotInto_levels s hmax nanos
  rw [Int.toNat_natCast, Nat.min_self] at hlevels
  unfold snapshotSlot
  rw [hevent]
  exact ⟨fun side => (by cases side <;> rfl : _ = event.levels side).trans (hlevels side), hbids,
    hasks, hbid, hask⟩

/-- The stamp of a snapshot is that of the clock, not that of the engine. -/
theorem timestamp_snapshotSlot (engine : MatchingEngine) (nanos now : ℤ) (s : BookSnapshotEvent) :
    (snapshotSlot engine nanos now s).timestamp = now := by
  obtain ⟨event, hevent, -⟩ := engine.snapshotInto_spec s BookSnapshotEvent.maxDepthLevels nanos
    (Int.natCast_nonneg _)
  unfold snapshotSlot
  rw [hevent]

/-- What a slot of the outbound ring is made to hold is the report. -/
@[simp]
theorem toExecutionEvent_publishInto (report : ExecutionEvent) (now : ℤ) (e : OutboundSlot) :
    (publishInto report now e).toExecutionEvent = report := rfl

/-- What was published before an event has no part in what the handler does with it. -/
theorem onEvent_outbound (engine : MatchingEngine) (outbound : List ExecutionEvent)
    (event : OrderEvent) :
    onEvent { engine, outbound } event =
      (onEvent { engine } event).map fun h => { h with outbound := outbound ++ h.outbound } := by
  unfold onEvent process
  cases event.eventType with
  | cancelOrder => rfl
  | newOrder =>
    cases order event with
    | error e => cases e <;> rfl
    | ok o =>
      simp only
      cases engine.addOrder o <;> rfl

/-- The handler one event on, by what that event comes to for its engine alone. -/
theorem after_concat {events : List OrderEvent} {event : OrderEvent} {h : MatchingEngineHandler}
    (hevent : onEvent { engine := (after events).engine } event = .ok h) :
    (after (events ++ [event])).engine = h.engine ∧
      (after (events ++ [event])).outbound = (after events).outbound ++ h.outbound := by
  have hnext := onEvent_after events event
  have hsplit := onEvent_outbound (after events).engine (after events).outbound event
  rw [hevent] at hsplit
  rw [← Except.ok.inj (hsplit.symm.trans hnext)]
  exact ⟨rfl, rfl⟩

end MatchingEngineHandler

namespace WebSocketPublisher

/-- The frame of a slot of the outbound ring. -/
def execFrame (e : OutboundSlot) : Json := serializeExecution e.toExecutionEvent e.timestamp

/-- The frames of those reports that found a channel in the group. -/
def heardFrames (executions : List OutboundSlot) (audience : List Bool) : List Json :=
  ((executions.zip audience).filter Prod.snd).map fun heard => execFrame heard.1

/-- One more report, which there was someone for or not. -/
theorem heardFrames_concat {executions : List OutboundSlot} {audience : List Bool}
    (hlength : executions.length = audience.length) (x : OutboundSlot) (isEmpty : Bool) :
    heardFrames (executions ++ [x]) (audience ++ [!isEmpty]) =
      onExecution isEmpty (heardFrames executions audience) x := by
  rw [heardFrames, List.zip_append hlength, List.filter_append, List.map_append, ← heardFrames]
  cases isEmpty with
  | true => exact List.append_nil _
  | false => rfl

/-- Where there was always someone, these are the frames of all reports. -/
theorem heardFrames_of_heard {executions : List OutboundSlot} {audience : List Bool}
    (hlength : executions.length = audience.length) (hheard : ∀ heard ∈ audience, heard = true) :
    heardFrames executions audience = executions.map execFrame := by
  have hall : (executions.zip audience).filter Prod.snd = executions.zip audience :=
    List.filter_eq_self.mpr fun pair hpair => hheard _ (List.of_mem_zip hpair).2
  have hfirst : (fun heard : OutboundSlot × Bool => execFrame heard.1) = execFrame ∘ Prod.fst := rfl
  rw [heardFrames, hall, hfirst, ← List.map_map, List.map_fst_zip hlength.le]

/-- The frame of a snapshot whose counts are within its arrays. -/
def bookFrame (event : BookSnapshotEvent) : Json :=
  .obj [("type", .str "BOOK"), ("bestBid", .int event.bestBid), ("bestAsk", .int event.bestAsk),
    ("bids", .arr ((event.levels .buy).map levelNode)),
    ("asks", .arr ((event.levels .sell).map levelNode)),
    ("timestamp", .int event.timestamp)]

/-- No snapshot of an engine is dropped. -/
theorem onSnapshot_of_shows {event : BookSnapshotEvent} {s : MatchingEngine} (h : event.Shows s)
    (frames : List Json) :
    onSnapshot frames event = frames ++ [bookFrame event] := by
  rw [onSnapshot, serializeSnapshot_eq h.bidLevelCount h.askLevelCount]
  rfl

end WebSocketPublisher

/-- What the gateway publishes of a frame, whatever was left in it. -/
theorem OrderGateway.exists_onFrame (g : OrderGateway) (fresh : OrderEvent)
    (frame : Option (List Byte)) (now : ℤ) :
    ∃ g', g.onFrame frame now = .ok (g', Inbound.publishedOf fresh (frame, now)) := by
  cases frame with
  | none => exact ⟨g, rfl⟩
  | some frame =>
    obtain ⟨p', hparse⟩ := FixParser.exists_parse_contents g.parser fresh g.scratch frame
    unfold OrderGateway.onFrame Inbound.publishedOf
    simp only [hparse, ok_bind, Option.bind_some]
    cases FixParser.contents fresh frame with
    | none => exact ⟨_, rfl⟩
    | some event => exact ⟨_, rfl⟩

/-- The logger writes the fills. -/
theorem TradeLogger.onEvent_eq (sink : List OutboundSlot) (event : OutboundSlot) :
    onEvent sink event = sink ++ [event].filter (·.isFill) := by
  rw [onEvent, List.filter_singleton]
  by_cases hfill : event.eventType = .orderFilled ∨ event.eventType = .orderPartiallyFilled
  · have htrue : event.isFill = true := by simpa [ExecutionEvent.isFill] using hfill
    rw [if_pos hfill, htrue]
    rfl
  · have hfalse : event.isFill = false := by simpa [ExecutionEvent.isFill] using hfill
    rw [if_neg hfill, hfalse]
    exact (List.append_nil sink).symm

namespace Venue

open WebSocketPublisher (bookFrame heardFrames heardFrames_concat)

variable {inboundSize outboundSize snapshotSize : ℕ}

/-- How many events the engine thread has taken. -/
def taken (s : Venue inboundSize outboundSize snapshotSize) : ℕ := (s.inbound.cursors ()).handled

/-- What the market data service quotes when it has got some snapshots. -/
def quoteOf (depths : List BookSnapshotEvent) : MarketDataService.Quote :=
  (depths.getLast?.map MarketDataService.onEvent).getD .empty

/-- The events that were received, the logs of the other two rings, and what the threads have made
of them. All events but the one in hand are on the inbound ring, and the engine has run those that
it has taken off it. Of what the handler publishes for them, some is on the outbound ring and the
rest is still to be published. There is a snapshot of the state after each of them, but for the last
one where that is still due, and it comes behind what is published for that event. -/
structure Mirrors (s : Venue inboundSize outboundSize snapshotSize) (events : List OrderEvent)
    (executions : List OutboundSlot) (depths : List BookSnapshotEvent) : Prop where
  /-- The events that were published are on the inbound ring. -/
  inbound : s.inbound.Carries (events.take s.inbound.next)
  /-- What was received and not published is in the hand of the worker thread. -/
  pending : events.drop s.inbound.next = s.pending.toList
  /-- The reports that were published are on the outbound ring. -/
  outbound : s.outbound.Carries executions
  /-- The snapshots that were published are on their ring. -/
  snapshots : s.snapshots.Carries depths
  /-- The engine is the handler's after the events that were taken. -/
  engine : s.engine = (after (events.take s.taken)).engine
  /-- What was published of the reports, with what is to be published, is what the handler
  publishes. -/
  reports : executions.map (·.toExecutionEvent) ++ s.reports =
    (after (events.take s.taken)).outbound
  /-- A snapshot was published for each event that was taken, but for one that is due. -/
  snapshotDue : depths.length + s.snapshotDue.toNat = s.taken
  /-- Each snapshot shows the engine after its event. -/
  shows : ∀ (i : ℕ) (depth : BookSnapshotEvent), depths[i]? = some depth →
    depth.Shows (after (events.take (i + 1))).engine
  /-- The reports of an event are published before its snapshot. -/
  published : (after (events.take depths.length)).outbound.length ≤ executions.length
  /-- While there are reports to publish, a snapshot is due. -/
  due : s.reports ≠ [] → s.snapshotDue = true
  /-- An event whose snapshot is due has not been released. -/
  busy : s.snapshotDue = true → (s.inbound.cursors ()).released < s.taken
  /-- The publisher has looked for channels once for each report that it has handled. -/
  audience : s.audience.length = (s.outbound.cursors .publisher).handled
  /-- The EXEC frames are those of the reports that found a channel. -/
  execFrames : s.execFrames =
    heardFrames (executions.take (s.outbound.cursors .publisher).handled) s.audience
  /-- The logged trades are the fills among the reports that the logger has handled. -/
  trades : s.trades = (executions.take (s.outbound.cursors .tradeLogger).handled).filter (·.isFill)
  /-- The BOOK frames are those of the snapshots that the publisher has handled. -/
  bookFrames : s.bookFrames = (depths.take (s.snapshots.cursors .publisher).handled).map bookFrame
  /-- The quote is that of the last snapshot that the market data has handled. -/
  quote : s.quote = quoteOf (depths.take (s.snapshots.cursors .marketData).handled)

section Mirrors

variable {s t : Venue inboundSize outboundSize snapshotSize} {events : List OrderEvent}
  {executions : List OutboundSlot} {depths : List BookSnapshotEvent}

/-- A fresh venue mirrors the run without events. -/
theorem Fresh.mirrors (h : s.Fresh) : s.Mirrors [] [] [] := by
  obtain ⟨hpending, ⟨hin, slots, hinbound⟩, hengine, hreports, hdue, ⟨hout, slots', houtbound⟩,
    ⟨hsnap, slots'', hsnapshots⟩, haudience, hexec, htrades, hbook, hquote⟩ := h
  have htaken : s.taken = 0 := by
    rw [taken, hinbound]
    rfl
  constructor
  · rw [hinbound]
    exact SlotRing.carries_fresh hin slots
  · rw [hpending, List.drop_nil]
    rfl
  · rw [houtbound]
    exact SlotRing.carries_fresh hout slots'
  · rw [hsnapshots]
    exact SlotRing.carries_fresh hsnap slots''
  · rw [hengine, List.take_nil]
    rfl
  · rw [hreports, List.take_nil]
    rfl
  · rw [hdue, htaken]
    rfl
  · intro i depth hdepth
    simp at hdepth
  · exact le_refl 0
  · exact fun hne => absurd hreports hne
  · intro htrue
    rw [hdue] at htrue
    cases htrue
  · rw [haudience, houtbound]
    rfl
  · rw [hexec, List.take_nil]
    rfl
  · rw [htrades, List.take_nil]
    rfl
  · rw [hbook, List.take_nil]
    rfl
  · rw [hquote, List.take_nil]
    rfl

/-- No more events are on the ring than were received. -/
theorem Mirrors.next_le (h : s.Mirrors events executions depths) :
    s.inbound.next ≤ events.length := by
  have hnext := h.inbound.next
  rw [List.length_take] at hnext
  omega

/-- And no more were taken than are on the ring. -/
theorem Mirrors.taken_le_next (h : s.Mirrors events executions depths) :
    s.taken ≤ s.inbound.next := by
  have hhandled := h.inbound.handled_le ()
  rw [← h.inbound.next] at hhandled
  exact hhandled

/-- No more events are taken than there are. -/
theorem Mirrors.taken_le (h : s.Mirrors events executions depths) : s.taken ≤ events.length :=
  h.taken_le_next.trans h.next_le

/-- All events are on the ring unless there is one in hand. -/
theorem Mirrors.length_of_none (h : s.Mirrors events executions depths)
    (hpending : s.pending = none) :
    events.length = s.inbound.next := by
  have hdrop := h.pending
  rw [hpending, Option.toList_none, List.drop_eq_nil_iff] at hdrop
  exact Nat.le_antisymm hdrop h.next_le

/-- The publisher has handled as many reports as it has tested the group. -/
theorem Mirrors.length_handled (h : s.Mirrors events executions depths) :
    (executions.take (s.outbound.cursors .publisher).handled).length = s.audience.length := by
  have hhandled := h.outbound.handled_le .publisher
  rw [h.audience, List.length_take, Nat.min_eq_left hhandled]

/-- No more snapshots are published than events are taken. -/
theorem Mirrors.depths_le (h : s.Mirrors events executions depths) : depths.length ≤ s.taken := by
  have hdue := h.snapshotDue
  omega

/-- The events that were taken stay the first ones when more are published. -/
theorem Mirrors.shows_append (h : s.Mirrors events executions depths)
    (more : List OrderEvent) {i : ℕ} {depth : BookSnapshotEvent}
    (hdepth : depths[i]? = some depth) :
    depth.Shows (after ((events ++ more).take (i + 1))).engine := by
  obtain ⟨hlt, -⟩ := List.getElem?_eq_some_iff.mp hdepth
  have hle : i + 1 ≤ events.length := by
    have htaken := h.taken_le
    have hdepths := h.depths_le
    omega
  rw [List.take_append_of_le_length hle]
  exact h.shows i depth hdepth

/-- A frame adds to the events what it says, and nothing where it is dropped. -/
theorem Mirrors.onFrame (h : s.Mirrors events executions depths) (fresh : OrderEvent)
    {frame : Option (List Byte)} {nanos : ℤ} (hframe : OnFrame frame nanos s t) :
    t.Mirrors (events ++ (Inbound.publishedOf fresh (frame, s.clock.getAsLong nanos)).toList)
      executions depths := by
  cases hframe with
  | @dropped gateway hpending hgateway =>
    obtain ⟨g, hevent⟩ :=
      OrderGateway.exists_onFrame s.gateway fresh frame (s.clock.getAsLong nanos)
    obtain ⟨-, hnone⟩ := Prod.mk.inj (Except.ok.inj (hgateway.symm.trans hevent))
    rw [← hnone, Option.toList_none, List.append_nil]
    exact { h with }
  | @stamped gateway event hpending hgateway hnanos =>
    obtain ⟨g, hevent⟩ :=
      OrderGateway.exists_onFrame s.gateway fresh frame (s.clock.getAsLong nanos)
    obtain ⟨-, hsome⟩ := Prod.mk.inj (Except.ok.inj (hgateway.symm.trans hevent))
    rw [← hsome, Option.toList_some]
    have htake : (events ++ [event]).take s.taken = events.take s.taken :=
      List.take_append_of_le_length h.taken_le
    have hon : (events ++ [event]).take s.inbound.next = events.take s.inbound.next :=
      List.take_append_of_le_length h.next_le
    exact { h with
      inbound := by
        show s.inbound.Carries ((events ++ [event]).take s.inbound.next)
        rw [hon]
        exact h.inbound
      pending := by
        show (events ++ [event]).drop s.inbound.next = [event]
        rw [← h.length_of_none hpending, List.drop_left]
      engine := h.engine.trans (by rw [← htake]; rfl)
      reports := h.reports.trans (by rw [← htake]; rfl)
      shows := fun i depth hdepth => h.shows_append [event] hdepth
      published := by
        rw [List.take_append_of_le_length (h.depths_le.trans h.taken_le)]
        exact h.published }

/-- Publishing the event in hand puts it on the ring, behind those that were received before it. -/
theorem Mirrors.gatewayStep (h : s.Mirrors events executions depths) (hstep : GatewayStep s t) :
    t.Mirrors events executions depths := by
  cases hstep with
  | @publishEvent event hpending room =>
    have hdrop := h.pending
    rw [hpending, Option.toList_some] at hdrop
    have hget : events[s.inbound.next]? = some event := by
      rw [← List.head?_drop, hdrop]
      rfl
    have htake : events.take (s.inbound.next + 1) = events.take s.inbound.next ++ [event] := by
      rw [List.take_add_one, hget]
      rfl
    have hpublished : (s.inbound.publish room fun slot => copyIntoSlot slot event).Carries
        (events.take s.inbound.next ++ [event]) := h.inbound.publish room _
    rw [← htake] at hpublished
    refine { h with inbound := hpublished, pending := ?_ }
    · show events.drop (s.inbound.next + 1) = []
      rw [← List.drop_drop, hdrop]
      rfl

/-- What a step adds to the logs of the outbound and the snapshot ring: nothing, a report or a
snapshot, stamped at a reading of the source that is no earlier than the last one. -/
inductive Logs (s t : Venue inboundSize outboundSize snapshotSize) :
    List OutboundSlot → List BookSnapshotEvent → Prop where
  /-- Nothing is published. -/
  | nothing : t.nanos = s.nanos → Logs s t [] []
  /-- A report is, with the time for its stamp. -/
  | execution {x : OutboundSlot} : s.nanos ≤ t.nanos → x.timestamp = s.clock.getAsLong t.nanos →
    Logs s t [x] []
  /-- A snapshot is. -/
  | depth {d : BookSnapshotEvent} : s.nanos ≤ t.nanos → d.timestamp = s.clock.getAsLong t.nanos →
    Logs s t [] [d]

/-- A step of the engine thread logs its reports and its snapshot, and the venue mirrors the run
with them. -/
theorem Mirrors.engineStep (h : s.Mirrors events executions depths) (hstep : EngineStep s t) :
    ∃ reports snapshots, Logs s t reports snapshots ∧
      t.Mirrors events (executions ++ reports) (depths ++ snapshots) := by
  cases hstep with
  | @onEvent g hreports hdue hlt hevent =>
    -- The events taken are now one more, and the handler has been through that one as well.
    have havailable := s.inbound.available_le ()
    have htake : events.take (s.taken + 1) = events.take s.taken ++ [s.inbound.peek ()] := by
      have hsucc := h.inbound.take_succ hlt
      rwa [List.take_take, List.take_take, Nat.min_eq_left (by omega), Nat.min_eq_left (by omega)]
        at hsucc
    rw [h.engine] at hevent
    obtain ⟨hengine, houtbound⟩ := MatchingEngineHandler.after_concat hevent
    have hpublished := h.reports
    rw [hreports, List.append_nil] at hpublished
    have hcount := h.snapshotDue
    rw [hdue] at hcount
    have htaken : (s.inbound.handle () hlt |>.cursors ()).handled = s.taken + 1 :=
      SlotRing.handled_handle hlt
    refine ⟨[], [], .nothing rfl, ?_⟩
    rw [List.append_nil, List.append_nil]
    refine { h with
      inbound := h.inbound.handle hlt
      engine := ?_
      reports := ?_
      snapshotDue := ?_
      due := fun _ => rfl
      busy := fun _ => ?_ }
    · show g.engine = (after (events.take ((s.inbound.handle () hlt).cursors ()).handled)).engine
      rw [htaken, htake, hengine]
    · show executions.map (·.toExecutionEvent) ++ g.outbound =
        (after (events.take ((s.inbound.handle () hlt).cursors ()).handled)).outbound
      rw [htaken, htake, houtbound, hpublished]
    · show depths.length + 1 = ((s.inbound.handle () hlt).cursors ()).handled
      rw [htaken, ← hcount]
      rfl
    · show ((s.inbound.handle () hlt).cursors ()).released <
        ((s.inbound.handle () hlt).cursors ()).handled
      rw [htaken, SlotRing.handle, SlotRing.cursors_move_self]
      exact Nat.lt_succ_of_le (s.inbound.cursors ()).released_le
  | @publish report rest nanos hreports hnanos room =>
    have hpublished := h.reports
    rw [hreports] at hpublished
    let slot := s.outbound.slots (s.outbound.slot s.outbound.next)
    refine ⟨[MatchingEngineHandler.publishInto report (s.clock.getAsLong nanos) slot], [],
      .execution hnanos rfl, ?_⟩
    rw [List.append_nil]
    refine { h with
      outbound := h.outbound.publish room
        (MatchingEngineHandler.publishInto report (s.clock.getAsLong nanos))
      reports := ?_
      published := h.published.trans (by rw [List.length_append]; exact Nat.le_add_right _ _)
      due := fun _ => h.due (by rw [hreports]; exact List.cons_ne_nil report rest)
      execFrames := ?_
      trades := ?_ }
    · rw [List.map_append, List.append_assoc]
      exact hpublished
    · exact h.execFrames.trans
        (congrArg (heardFrames · s.audience) (h.outbound.take_append .publisher _))
    · exact h.trades.trans
        (congrArg (List.filter (·.isFill)) (h.outbound.take_append .tradeLogger _))
  | @publishSnapshot nanos hreports hdue hnanos room =>
    have hcount := h.snapshotDue
    rw [hdue] at hcount
    let slot := s.snapshots.slots (s.snapshots.slot s.snapshots.next)
    refine ⟨[], [MatchingEngineHandler.snapshotSlot s.engine nanos (s.clock.getAsLong nanos) slot],
      .depth hnanos (MatchingEngineHandler.timestamp_snapshotSlot ..), ?_⟩
    rw [List.append_nil]
    refine { h with
      snapshots := h.snapshots.publish room
        (MatchingEngineHandler.snapshotSlot s.engine nanos (s.clock.getAsLong nanos))
      snapshotDue := ?_
      shows := ?_
      published := ?_
      due := fun hne => absurd hreports hne
      busy := fun hbusy => absurd hbusy Bool.false_ne_true
      bookFrames := ?_
      quote := ?_ }
    · rw [List.length_append, List.length_singleton]
      exact hcount
    · intro i depth hdepth
      rcases Nat.lt_or_ge i depths.length with hlt | hge
      · rw [List.getElem?_append_left hlt] at hdepth
        exact h.shows i depth hdepth
      · -- The new snapshot is one of the state after the last event taken.
        have hlast : i = depths.length := by
          obtain ⟨hlt, -⟩ := List.getElem?_eq_some_iff.mp hdepth
          rw [List.length_append, List.length_singleton] at hlt
          omega
        subst hlast
        rw [List.getElem?_concat_length] at hdepth
        obtain rfl := Option.some.inj hdepth
        have htaken : depths.length + 1 = s.taken := hcount
        rw [htaken, ← h.engine]
        exact MatchingEngineHandler.shows_snapshotSlot _ _ _ _
    · have hpublished := h.reports
      rw [hreports, List.append_nil] at hpublished
      have htaken : depths.length + 1 = s.taken := hcount
      rw [List.length_append, List.length_singleton, htaken, ← hpublished, List.length_map]
    · exact h.bookFrames.trans
        (congrArg (List.map bookFrame) (h.snapshots.take_append .publisher _))
    · exact h.quote.trans (congrArg quoteOf (h.snapshots.take_append .marketData _))
  | @turn inbound hreports hdue hturn =>
    have htaken : (inbound.cursors ()).handled = s.taken := hturn.handled ()
    have hnext : inbound.next = s.inbound.next := hturn.next
    refine ⟨[], [], .nothing rfl, ?_⟩
    rw [List.append_nil, List.append_nil]
    refine { h with
      inbound := ?_
      pending := ?_
      engine := ?_
      reports := ?_
      snapshotDue := h.snapshotDue.trans htaken.symm
      busy := ?_ }
    · show inbound.Carries (events.take inbound.next)
      rw [hnext]
      exact h.inbound.turns hturn
    · show events.drop inbound.next = s.pending.toList
      rw [hnext]
      exact h.pending
    · show s.engine = (after (events.take (inbound.cursors ()).handled)).engine
      rw [htaken]
      exact h.engine
    · show _ = (after (events.take (inbound.cursors ()).handled)).outbound
      rw [htaken]
      exact h.reports
    · intro htrue
      rw [hdue] at htrue
      cases htrue

/-- A consumer of the outbound ring makes of the next report what it makes of each. -/
theorem Mirrors.outboundStep (h : s.Mirrors events executions depths) (hstep : OutboundStep s t) :
    t.Mirrors events executions depths := by
  cases hstep with
  | onExecution isEmpty hlt =>
    have hother :=
      SlotRing.cursors_handle_of_ne (r := s.outbound) (j := .tradeLogger) (by decide) hlt
    refine { h with
      outbound := h.outbound.handle hlt, audience := ?_, execFrames := ?_, trades := ?_ }
    · rw [List.length_append, h.audience, SlotRing.handled_handle]
      rfl
    · rw [SlotRing.handled_handle, h.outbound.take_succ hlt, heardFrames_concat h.length_handled,
        ← h.execFrames]
    · rw [hother]
      exact h.trades
  | logTrade hlt =>
    have hother :=
      SlotRing.cursors_handle_of_ne (r := s.outbound) (j := .publisher) (by decide) hlt
    refine { h with
      outbound := h.outbound.handle hlt, audience := ?_, execFrames := ?_, trades := ?_ }
    · rw [hother]
      exact h.audience
    · rw [hother]
      exact h.execFrames
    · rw [SlotRing.handled_handle, h.outbound.take_succ hlt, List.filter_append, ← h.trades]
      exact TradeLogger.onEvent_eq _ _
  | turn hturn =>
    refine { h with
      outbound := h.outbound.turns hturn, audience := ?_, execFrames := ?_, trades := ?_ }
    · rw [hturn.handled]
      exact h.audience
    · rw [hturn.handled]
      exact h.execFrames
    · rw [hturn.handled]
      exact h.trades

/-- So does a consumer of the snapshot ring of the next snapshot. -/
theorem Mirrors.snapshotStep (h : s.Mirrors events executions depths) (hstep : SnapshotStep s t) :
    t.Mirrors events executions depths := by
  cases hstep with
  | onSnapshot hlt =>
    have hother := SlotRing.cursors_handle_of_ne (r := s.snapshots) (j := .marketData)
      (by decide) hlt
    refine { h with snapshots := h.snapshots.handle hlt, bookFrames := ?_, quote := ?_ }
    · rw [SlotRing.handled_handle, h.snapshots.take_succ hlt, List.map_append, ← h.bookFrames]
      exact WebSocketPublisher.onSnapshot_of_shows (h.shows _ _ (h.snapshots.peek hlt)) _
    · rw [hother]
      exact h.quote
  | onQuote hlt =>
    have hother := SlotRing.cursors_handle_of_ne (r := s.snapshots) (j := .publisher)
      (by decide) hlt
    refine { h with snapshots := h.snapshots.handle hlt, bookFrames := ?_, quote := ?_ }
    · rw [hother]
      exact h.bookFrames
    · rw [SlotRing.handled_handle, h.snapshots.take_succ hlt, quoteOf, List.getLast?_concat]
      rfl
  | turn hturn =>
    refine { h with snapshots := h.snapshots.turns hturn, bookFrames := ?_, quote := ?_ }
    · rw [hturn.handled]
      exact h.bookFrames
    · rw [hturn.handled]
      exact h.quote

/-- A step of the venue logs what it publishes, and the venue mirrors the run with it. -/
theorem Mirrors.step (h : s.Mirrors events executions depths) (hstep : Step s t) :
    ∃ reports snapshots, Logs s t reports snapshots ∧
      t.Mirrors events (executions ++ reports) (depths ++ snapshots) := by
  cases hstep with
  | gateway hgateway =>
    refine ⟨[], [], .nothing (by cases hgateway; rfl), ?_⟩
    rw [List.append_nil, List.append_nil]
    exact h.gatewayStep hgateway
  | engine hengine => exact h.engineStep hengine
  | outbound houtbound =>
    refine ⟨[], [], .nothing (by cases houtbound <;> rfl), ?_⟩
    rw [List.append_nil, List.append_nil]
    exact h.outboundStep houtbound
  | snapshots hsnapshots =>
    refine ⟨[], [], .nothing (by cases hsnapshots <;> rfl), ?_⟩
    rw [List.append_nil, List.append_nil]
    exact h.snapshotStep hsnapshots

end Mirrors

/-! ## Runs -/

/-- The events that some frames come to, received at some times. -/
def eventsOf (fresh : OrderEvent) (inputs : List (Option (List Byte) × ℤ)) : List OrderEvent :=
  inputs.filterMap (Inbound.publishedOf fresh)

/-- The events of two stretches of frames are those of both. -/
theorem eventsOf_append (fresh : OrderEvent) (inputs more : List (Option (List Byte) × ℤ)) :
    eventsOf fresh (inputs ++ more) = eventsOf fresh inputs ++ eventsOf fresh more :=
  List.filterMap_append

/-- The event of one frame is what the gateway publishes for it. -/
theorem eventsOf_singleton (fresh : OrderEvent) (input : Option (List Byte) × ℤ) :
    eventsOf fresh [input] = (Inbound.publishedOf fresh input).toList := by
  rw [eventsOf, List.filterMap_cons, List.filterMap_nil]
  cases Inbound.publishedOf fresh input <;> rfl

/-- In every run the venue mirrors the run of its events. -/
theorem Runs.mirrors {start s : Venue inboundSize outboundSize snapshotSize} (hstart : start.Fresh)
    {inputs : List (Option (List Byte) × ℤ)} (h : Runs start inputs s) (fresh : OrderEvent) :
    ∃ executions depths, s.Mirrors (eventsOf fresh inputs) executions depths := by
  induction h with
  | start => exact ⟨[], [], hstart.mirrors⟩
  | @frame inputs s t frame nanos _ hframe ih =>
    obtain ⟨executions, depths, hmirrors⟩ := ih
    refine ⟨executions, depths, ?_⟩
    rw [eventsOf_append, eventsOf_singleton]
    exact hmirrors.onFrame fresh hframe
  | step _ hstep ih =>
    obtain ⟨executions, depths, hmirrors⟩ := ih
    obtain ⟨reports, snapshots, -, hnext⟩ := hmirrors.step hstep
    exact ⟨executions ++ reports, depths ++ snapshots, hnext⟩

/-- What a quote says of an engine: its tops, what is between them and its midpoint. -/
structure Quotes (quote : MarketDataService.Quote) (engine : MatchingEngine) : Prop where
  bestBid : quote.bestBid = engine.getBestBid
  bestAsk : quote.bestAsk = engine.getBestAsk
  spread : quote.spread = if engine.getBestBid = -1 ∨ engine.getBestAsk = -1 then -1
    else toLong (engine.getBestAsk - engine.getBestBid)
  midpoint : quote.midpoint = engine.mid

/-- A snapshot that shows an engine is quoted as that engine. -/
theorem quotes_onEvent {depth : BookSnapshotEvent} {engine : MatchingEngine}
    (h : depth.Shows engine) :
    Quotes (MarketDataService.onEvent depth) engine := by
  have hmid := MatchingEngine.midpoint_onEvent h.bestBid h.bestAsk
  unfold MarketDataService.onEvent at hmid ⊢
  simp only [h.bestBid, h.bestAsk] at hmid ⊢
  by_cases hna : engine.getBestBid = -1 ∨ engine.getBestAsk = -1
  · rw [if_pos hna] at hmid ⊢
    exact ⟨rfl, rfl, (if_pos hna).symm, hmid⟩
  · rw [if_neg hna] at hmid ⊢
    exact ⟨rfl, rfl, (if_neg hna).symm, hmid⟩

/-- The quote of some snapshots is about the state after as many events. -/
theorem Mirrors.quotes {s : Venue inboundSize outboundSize snapshotSize} {events : List OrderEvent}
    {executions : List OutboundSlot} {depths : List BookSnapshotEvent}
    (h : s.Mirrors events executions depths) {n : ℕ} (hpos : 0 < n) (hle : n ≤ depths.length) :
    Quotes (quoteOf (depths.take n)) (after (events.take n)).engine := by
  obtain ⟨n, rfl⟩ : ∃ m, n = m + 1 := ⟨n - 1, by omega⟩
  have hget : depths[n]? = some depths[n] := List.getElem?_eq_getElem hle
  rw [quoteOf, List.take_add_one, hget, Option.toList_some, List.getLast?_concat]
  exact quotes_onEvent (h.shows n _ hget)

/-- The venue does what the handler does with some events. Its engine is that of the handler after
the first of them; the frames of the reports are those of the reports in a prefix of what the
handler publishes for these that found a channel in the group, and the trades that were logged those
of another prefix; and the frames of the book and the quote are those of snapshots of the states
that the handler goes through, one after each event. -/
def Refines (s : Venue inboundSize outboundSize snapshotSize) (events : List OrderEvent) : Prop :=
  ∃ (n : ℕ) (executions : List OutboundSlot) (depths : List BookSnapshotEvent), n ≤ events.length ∧
    s.engine = (after (events.take n)).engine ∧
    executions.map OutboundSlot.toExecutionEvent <+: (after (events.take n)).outbound ∧
    s.execFrames = heardFrames (executions.take s.audience.length) s.audience ∧
    (∃ j, s.trades = (executions.take j).filter (·.isFill)) ∧
    depths.length ≤ n ∧
    (∀ (i : ℕ) (depth : BookSnapshotEvent), depths[i]? = some depth →
      depth.Shows (after (events.take (i + 1))).engine) ∧
    (∃ k, s.bookFrames = (depths.take k).map bookFrame) ∧
    (s.quote = .empty ∨ ∃ l, 0 < l ∧ l ≤ n ∧ Quotes s.quote (after (events.take l)).engine)

/-- Whatever the threads of the venue have done so far, it does what the handler does with the
events that the frames come to, each parsed on its own. -/
theorem Runs.refines {start s : Venue inboundSize outboundSize snapshotSize} (hstart : start.Fresh)
    {inputs : List (Option (List Byte) × ℤ)} (h : Runs start inputs s) (fresh : OrderEvent) :
    s.Refines (eventsOf fresh inputs) := by
  obtain ⟨executions, depths, hm⟩ := h.mirrors hstart fresh
  refine ⟨s.taken, executions, depths, hm.taken_le, hm.engine, ⟨s.reports, hm.reports⟩, ?_,
    ⟨_, hm.trades⟩, hm.depths_le, hm.shows, ⟨_, hm.bookFrames⟩, ?_⟩
  · rw [hm.audience]
    exact hm.execFrames
  have hquote := hm.quote
  have hhandled := hm.snapshots.handled_le .marketData
  have hle := hm.depths_le
  rcases Nat.eq_zero_or_pos (s.snapshots.cursors .marketData).handled with hzero | hpos
  · left
    rw [hquote, hzero, List.take_zero]
    rfl
  · right
    refine ⟨_, hpos, hhandled.trans hle, ?_⟩
    rw [hquote]
    exact hm.quotes hpos hhandled

/-- A venue that was just put together, with rings of one slot. -/
def idle : Venue 1 1 1 where
  clock := .new 0 0
  nanos := 0
  gateway := .idle
  pending := none
  inbound := .fresh Unit Nat.one_pos fun _ => OrderGateway.idle.scratch
  engine := {}
  reports := []
  snapshotDue := false
  outbound := .fresh ExecutionConsumer Nat.one_pos fun _ => ⟨MatchingEngineHandler.rejected 0, 0⟩
  snapshots := .fresh SnapshotConsumer Nat.one_pos fun _ =>
    ⟨.replicate _ 0, .replicate _ 0, .replicate _ 0, .replicate _ 0, 0, 0, 0, 0, 0⟩
  audience := []
  execFrames := []
  trades := []
  bookFrames := []
  quote := .empty

/-- The idle venue is fresh. -/
theorem fresh_idle : idle.Fresh :=
  ⟨rfl, ⟨_, _, rfl⟩, rfl, rfl, rfl, ⟨_, _, rfl⟩, ⟨_, _, rfl⟩, rfl, rfl, rfl, rfl, rfl⟩

/-- An iceberg order is stamped. -/
theorem exists_stamped :
    ∃ s, OnFrame (some OrderGateway.icebergFrame) 1 idle s ∧ s.clock = idle.clock ∧
      s.nanos = 1 := by
  have haccepted :
      (OrderGateway.idle.onFrame (some OrderGateway.icebergFrame) (idle.clock.getAsLong 1)).map
        Prod.snd =
      .ok (some ⟨.newOrder, 1, some .buy, some .limit, some .gtc, 10000, 10, 4, 1, -1⟩) := by
    decide +kernel
  obtain ⟨⟨g, event⟩, h, hevent⟩ := map_eq_ok.mp haccepted
  have hgateway :
      idle.gateway.onFrame (some OrderGateway.icebergFrame) (idle.clock.getAsLong 1) =
        .ok (g, some ⟨.newOrder, 1, some .buy, some .limit, some .gtc, 10000, 10, 4, 1, -1⟩) := by
    rw [← hevent]
    exact h
  exact ⟨_, .stamped rfl hgateway (by decide), rfl, rfl⟩

/-- The venue when it has received it. -/
theorem exists_received :
    ∃ s, Runs idle [(some OrderGateway.icebergFrame, 1)] s ∧ s.clock = idle.clock ∧
      s.nanos = 1 := by
  obtain ⟨s, hs, hclock, hnanos⟩ := exists_stamped
  have hrun := Runs.frame .start hs
  have hstamp : idle.clock.getAsLong 1 = 1 := by decide
  rw [hstamp] at hrun
  exact ⟨s, hrun, hclock, hnanos⟩

/-- The iceberg that a fresh venue receives is handled as the handler does. -/
theorem refines_received :
    ∃ s, Runs idle [(some OrderGateway.icebergFrame, 1)] s ∧
      s.Refines (eventsOf OrderGateway.idle.scratch [(some OrderGateway.icebergFrame, 1)]) := by
  obtain ⟨s, hs, -⟩ := exists_received
  exact ⟨s, hs, hs.refines fresh_idle OrderGateway.idle.scratch⟩

end Venue

end MatchingVenue
