import MatchingVenue.Gateway.Reuse
import MatchingVenue.Ledger.Reports
import MatchingVenue.Library.Ring
import MatchingVenue.Market.Midpoint
import MatchingVenue.Publisher.WebSocketPublisher
import Mathlib.Data.Fintype.Basic

/-!
# The venue

The three rings and the threads between them, as `Main` wires them: the gateway feeds the inbound
ring, the engine thread takes the events off it and feeds the outbound and the snapshot ring, and
each of those has two consumers. The rings are those of a library, which is not part of the
repository. What is taken from its documentation is what `SlotRing` says of a ring with one
producer: `next` and `publishEvent` wait for room (`SlotRing.HasRoom`), `waitFor` returns no
sequence that is not published (`available_le`), no slot is claimed before every consumer has let go
of it (`next_le`), and consumers that are registered together do not wait for each other.

A step of the venue is a step of one thread. The worker thread stamps an event when it has parsed it
and publishes it when there is room, so there are two steps of the gateway, and whatever happens
between them happens while the event is in hand. The engine is seen by no other thread, so all that
it does for an event is one step; what it reports is published one by one behind that, and then the
snapshot, each stamped in a slot that is claimed already.
-/

namespace MatchingVenue

/-! ## The clock -/

/-- The clock of all stamps: the wall-clock time at its construction, carried on by a source of
nanoseconds. -/
structure EpochNanoClock where
  anchorEpochNanos : ℤ
  anchorNanos : ℤ

namespace EpochNanoClock

/-- The nanoseconds of a millisecond. -/
def nanosPerMilli : ℤ := 1000000

/-- A clock that is anchored at a wall-clock time in milliseconds and a reading of the source. -/
def new (epochMillis nanos : ℤ) : EpochNanoClock := ⟨toLong (epochMillis * nanosPerMilli), nanos⟩

/-- The stamp of a reading of the source. -/
def getAsLong (clock : EpochNanoClock) (nanos : ℤ) : ℤ :=
  toLong (clock.anchorEpochNanos + toLong (nanos - clock.anchorNanos))

end EpochNanoClock

/-! ## The slots -/

/-- A slot of the outbound ring: a report and the time of its publication. -/
structure OutboundSlot extends ExecutionEvent where
  timestamp : ℤ
  deriving DecidableEq, Repr

/-- The outbound publish point of the handler: it writes every field of a slot. -/
def MatchingEngineHandler.publishInto (report : ExecutionEvent) (now : ℤ)
    (e : OutboundSlot) : OutboundSlot :=
  let e := { e with eventType := report.eventType }
  let e := { e with orderId := report.orderId }
  let e := { e with tradeId := report.tradeId }
  let e := { e with price := report.price }
  let e := { e with filledQuantity := report.filledQuantity }
  let e := { e with remainingQuantity := report.remainingQuantity }
  let e := { e with aggressorOrderId := report.aggressorOrderId }
  let e := { e with passiveOrderId := report.passiveOrderId }
  { e with timestamp := now }

/-- Reads the book into a slot of the snapshot ring, at a reading of the source of nanoseconds, and
stamps it. A slot that could not be written would be published as it is; `snapshotInto` never throws
with this bound. -/
def MatchingEngineHandler.snapshotSlot (engine : MatchingEngine) (nanos now : ℤ)
    (s : BookSnapshotEvent) :
    BookSnapshotEvent :=
  match engine.snapshotInto s BookSnapshotEvent.maxDepthLevels nanos with
  | .ok s => { s with timestamp := now }
  | .error _ => s

/-! ## The consumers -/

/-- The consumers of the outbound ring. -/
inductive ExecutionConsumer where
  | publisher
  | tradeLogger
  deriving DecidableEq

/-- The consumers of the reports are a finite type. -/
instance : Fintype ExecutionConsumer := ⟨{.publisher, .tradeLogger}, fun k => by cases k <;> decide⟩

/-- The consumers of the snapshot ring. -/
inductive SnapshotConsumer where
  | publisher
  | marketData
  deriving DecidableEq

/-- The consumers of the snapshots are a finite type. -/
instance : Fintype SnapshotConsumer := ⟨{.publisher, .marketData}, fun k => by cases k <;> decide⟩

/-- The trade logger hands fills to its sink, and nothing else. -/
def TradeLogger.onEvent (sink : List OutboundSlot) (event : OutboundSlot) : List OutboundSlot :=
  if event.eventType = .orderFilled ∨ event.eventType = .orderPartiallyFilled then
    sink ++ [event] else sink

namespace WebSocketPublisher

/-- The frame of a report joins those that are broadcast. There is none where the group of channels
is empty. -/
def onExecution (isEmpty : Bool) (frames : List Json) (event : OutboundSlot) : List Json :=
  if isEmpty then frames
  else frames ++ [serializeExecution event.toExecutionEvent event.timestamp]

/-- The frame of a snapshot joins those that are cached, which is done for an empty group as well.
It is dropped where it cannot be serialized. -/
def onSnapshot (frames : List Json) (event : BookSnapshotEvent) : List Json :=
  match serializeSnapshot event with
  | .ok json => frames ++ [json]
  | .error _ => frames

end WebSocketPublisher

/-- The quote before the first snapshot. -/
def MarketDataService.Quote.empty : MarketDataService.Quote := ⟨-1, -1, -1, -1, -1⟩

/-! ## The state and its steps -/

/-- The venue. `nanos` is the last reading of the source of nanoseconds, `pending` the event that
the worker thread has stamped and has yet to publish, `reports` what is left to publish of the event
that the engine thread is at, and `snapshotDue` whether the snapshot of that event is. The last five
fields are what the consumers have made of what they got; `audience` says of each report that the
publisher has handled whether there was a channel in the group then. -/
structure Venue (inboundSize outboundSize snapshotSize : ℕ) where
  clock : EpochNanoClock
  nanos : ℤ
  gateway : OrderGateway
  pending : Option OrderEvent
  inbound : SlotRing Unit OrderEvent inboundSize
  engine : MatchingEngine
  reports : List ExecutionEvent
  snapshotDue : Bool
  outbound : SlotRing ExecutionConsumer OutboundSlot outboundSize
  snapshots : SlotRing SnapshotConsumer BookSnapshotEvent snapshotSize
  audience : List Bool
  execFrames : List Json
  trades : List OutboundSlot
  bookFrames : List Json
  quote : MarketDataService.Quote

namespace Venue

variable {inboundSize outboundSize snapshotSize : ℕ}

/-- A venue that was just put together: with anything in its gateway and its slots, and nothing
done. -/
structure Fresh (s : Venue inboundSize outboundSize snapshotSize) : Prop where
  pending : s.pending = none
  inbound : ∃ size_pos slots, s.inbound = SlotRing.fresh Unit size_pos slots
  engine : s.engine = {}
  reports : s.reports = []
  snapshotDue : s.snapshotDue = false
  outbound : ∃ size_pos slots, s.outbound = SlotRing.fresh ExecutionConsumer size_pos slots
  snapshots : ∃ size_pos slots, s.snapshots = SlotRing.fresh SnapshotConsumer size_pos slots
  audience : s.audience = []
  execFrames : s.execFrames = []
  trades : s.trades = []
  bookFrames : s.bookFrames = []
  quote : s.quote = .empty

/-- The worker thread hands a frame to the gateway, at a reading of the source. It is dropped, or
what it says is stamped and in hand. A thread that has an event in hand takes no frame. -/
inductive OnFrame (frame : Option (List Byte)) (nanos : ℤ)
    (s : Venue inboundSize outboundSize snapshotSize) :
    Venue inboundSize outboundSize snapshotSize → Prop where
  /-- Nothing is made of the frame. -/
  | dropped {gateway : OrderGateway} (hpending : s.pending = none)
    (hgateway : s.gateway.onFrame frame (s.clock.getAsLong nanos) = .ok (gateway, none)) :
    OnFrame frame nanos s { s with gateway }
  /-- An event is made of it and stamped; the worker thread has it in hand. -/
  | stamped {gateway : OrderGateway} {event : OrderEvent} (hpending : s.pending = none)
    (hgateway : s.gateway.onFrame frame (s.clock.getAsLong nanos) = .ok (gateway, some event))
    (hnanos : s.nanos ≤ nanos) :
    OnFrame frame nanos s { s with gateway, nanos, pending := some event }

/-- The worker thread publishes the event in hand, once there is room. -/
inductive GatewayStep (s : Venue inboundSize outboundSize snapshotSize) :
    Venue inboundSize outboundSize snapshotSize → Prop where
  /-- The event in hand is copied into the next slot, once there is room. -/
  | publishEvent {event : OrderEvent} (hpending : s.pending = some event)
    (room : s.inbound.HasRoom) :
    GatewayStep s
      { s with
        pending := none
        inbound := s.inbound.publish room fun slot => copyIntoSlot slot event }

/-- A step of the engine thread. -/
inductive EngineStep (s : Venue inboundSize outboundSize snapshotSize) :
    Venue inboundSize outboundSize snapshotSize → Prop where
  /-- The handler takes the next event and matches it. -/
  | onEvent {h : MatchingEngineHandler} (hreports : s.reports = []) (hdue : s.snapshotDue = false)
    (hlt : (s.inbound.cursors ()).handled < (s.inbound.cursors ()).available)
    (hevent : MatchingEngineHandler.onEvent { engine := s.engine } (s.inbound.peek ()) = .ok h) :
    EngineStep s
      { s with
        inbound := s.inbound.handle () hlt, engine := h.engine, reports := h.outbound,
        snapshotDue := true }
  /-- It publishes the next report, stamped then, once there is room. -/
  | publish {report : ExecutionEvent} {rest : List ExecutionEvent} {nanos : ℤ}
    (hreports : s.reports = report :: rest)
    (hnanos : s.nanos ≤ nanos) (room : s.outbound.HasRoom) :
    EngineStep s
      { s with
        reports := rest
        nanos
        outbound := s.outbound.publish room
          (MatchingEngineHandler.publishInto report (s.clock.getAsLong nanos)) }
  /-- Behind the last report it publishes the snapshot. -/
  | publishSnapshot {nanos : ℤ} (hreports : s.reports = []) (hdue : s.snapshotDue = true)
    (hnanos : s.nanos ≤ nanos)
    (room : s.snapshots.HasRoom) :
    EngineStep s
      { s with
        snapshotDue := false
        nanos
        snapshots := s.snapshots.publish room
          (MatchingEngineHandler.snapshotSlot s.engine nanos (s.clock.getAsLong nanos)) }
  /-- It waits for events, or releases those that it has taken. -/
  | turn {inbound : SlotRing Unit OrderEvent inboundSize} (hreports : s.reports = [])
    (hdue : s.snapshotDue = false)
    (hturn : SlotRing.Turns () s.inbound inbound) : EngineStep s { s with inbound }

/-- A step of a consumer of the outbound ring. Clients come and go at any time, so whether the
publisher finds the group empty is anything. -/
inductive OutboundStep (s : Venue inboundSize outboundSize snapshotSize) :
    Venue inboundSize outboundSize snapshotSize → Prop where
  /-- The publisher handles the next report, which it drops where no channel is in the group. -/
  | onExecution (isEmpty : Bool)
    (hlt : (s.outbound.cursors .publisher).handled < (s.outbound.cursors .publisher).available) :
    OutboundStep s
      { s with
        outbound := s.outbound.handle .publisher hlt
        audience := s.audience ++ [!isEmpty]
        execFrames :=
          WebSocketPublisher.onExecution isEmpty s.execFrames (s.outbound.peek .publisher) }
  /-- The logger handles the next report. -/
  | logTrade
    (hlt : (s.outbound.cursors .tradeLogger).handled <
      (s.outbound.cursors .tradeLogger).available) :
    OutboundStep s
      { s with
        outbound := s.outbound.handle .tradeLogger hlt
        trades := TradeLogger.onEvent s.trades (s.outbound.peek .tradeLogger) }
  /-- One of them waits for reports, or releases those that it has handled. -/
  | turn {k : ExecutionConsumer} {outbound : SlotRing ExecutionConsumer OutboundSlot outboundSize}
    (hturn : SlotRing.Turns k s.outbound outbound) : OutboundStep s { s with outbound }

/-- A step of a consumer of the snapshot ring. -/
inductive SnapshotStep (s : Venue inboundSize outboundSize snapshotSize) :
    Venue inboundSize outboundSize snapshotSize → Prop where
  /-- The publisher handles the next snapshot. -/
  | onSnapshot
    (hlt : (s.snapshots.cursors .publisher).handled < (s.snapshots.cursors .publisher).available) :
    SnapshotStep s
      { s with
        snapshots := s.snapshots.handle .publisher hlt
        bookFrames := WebSocketPublisher.onSnapshot s.bookFrames (s.snapshots.peek .publisher) }
  /-- The market data handles the next snapshot. -/
  | onQuote
    (hlt : (s.snapshots.cursors .marketData).handled <
      (s.snapshots.cursors .marketData).available) :
    SnapshotStep s
      { s with
        snapshots := s.snapshots.handle .marketData hlt
        quote := MarketDataService.onEvent (s.snapshots.peek .marketData) }
  /-- One of them waits for snapshots, or releases those that it has handled. -/
  | turn {k : SnapshotConsumer}
    {snapshots : SlotRing SnapshotConsumer BookSnapshotEvent snapshotSize}
    (hturn : SlotRing.Turns k s.snapshots snapshots) : SnapshotStep s { s with snapshots }

/-- A step of the threads of the venue, but for the next frame. -/
inductive Step (s t : Venue inboundSize outboundSize snapshotSize) : Prop where
  | gateway (h : GatewayStep s t)
  | engine (h : EngineStep s t)
  | outbound (h : OutboundStep s t)
  | snapshots (h : SnapshotStep s t)

/-- The runs of a venue, with the frames that the gateway was given and the times at which it was
given them, in any interleaving of its threads. -/
inductive Runs (start : Venue inboundSize outboundSize snapshotSize) :
    List (Option (List Byte) × ℤ) → Venue inboundSize outboundSize snapshotSize → Prop where
  | start : Runs start [] start
  | frame {inputs : List (Option (List Byte) × ℤ)}
    {s t : Venue inboundSize outboundSize snapshotSize} {frame : Option (List Byte)} {nanos : ℤ} :
    Runs start inputs s → OnFrame frame nanos s t →
    Runs start (inputs ++ [(frame, s.clock.getAsLong nanos)]) t
  | step {inputs : List (Option (List Byte) × ℤ)}
    {s t : Venue inboundSize outboundSize snapshotSize} :
    Runs start inputs s → Step s t → Runs start inputs t

end Venue

end MatchingVenue
