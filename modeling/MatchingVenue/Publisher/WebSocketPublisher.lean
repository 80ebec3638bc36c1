import MatchingVenue.Engine.MatchingEngineHandler
import MatchingVenue.Engine.Snapshot
import MatchingVenue.Library.Json

/-!
# The publisher's frames

The publisher turns the events of the two outbound rings into JSON. A BOOK frame has the valid
prefix of each side of a snapshot slot and nothing of what is behind it.
-/

namespace MatchingVenue

/-- The name of a kind of report in the source's enumeration. -/
def ExecutionEventType.name : ExecutionEventType → String
  | .orderAccepted => "ORDER_ACCEPTED"
  | .orderFilled => "ORDER_FILLED"
  | .orderPartiallyFilled => "ORDER_PARTIALLY_FILLED"
  | .orderCancelled => "ORDER_CANCELLED"
  | .orderRejected => "ORDER_REJECTED"
  | .orderExpired => "ORDER_EXPIRED"

namespace WebSocketPublisher

/-- An EXEC frame, with the time of its report. -/
def serializeExecution (e : ExecutionEvent) (timestamp : ℤ) : Json :=
  .obj [("type", .str "EXEC"), ("execType", .str e.eventType.name), ("orderId", .int e.orderId),
    ("tradeId", .int e.tradeId), ("price", .int e.price), ("filledQuantity", .int e.filledQuantity),
    ("remainingQuantity", .int e.remainingQuantity), ("aggressorOrderId", .int e.aggressorOrderId),
    ("passiveOrderId", .int e.passiveOrderId), ("timestamp", .int timestamp)]

/-- The levels of one side from index `i` on, `n` of them. -/
def levelNodes {size : ℕ} (prices qtys : Vector ℤ size) : (n i : ℕ) → Except Exn (List Json)
  | 0, _ => .ok []
  | n + 1, i =>
    if h : i < size then do
      let rest ← levelNodes prices qtys n (i + 1)
      return .arr [.int prices[i], .int qtys[i]] :: rest
    else .error .indexOutOfBounds

/-- A BOOK frame. -/
def serializeSnapshot (s : BookSnapshotEvent) : Except Exn Json := do
  let bids ← levelNodes s.bidPrices s.bidQtys s.bidLevelCount 0
  let asks ← levelNodes s.askPrices s.askQtys s.askLevelCount 0
  return .obj [("type", .str "BOOK"), ("bestBid", .int s.bestBid), ("bestAsk", .int s.bestAsk),
    ("bids", .arr bids), ("asks", .arr asks), ("timestamp", .int s.timestamp)]

end WebSocketPublisher

end MatchingVenue
