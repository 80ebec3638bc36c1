import MatchingVenue.Library.Json
import MatchingVenue.Terminal.Reducer

/-!
# The frames that a terminal accepts

The one place where the text of the socket becomes a typed frame. Whatever is not exactly a frame is
dropped, and an accepted frame is built anew from the fields that were checked.
-/

namespace MatchingVenue

namespace Terminal

/-- The integer of a field, which is absent where the field is or where it is no integer. -/
def int (value : Option Json) : Option ℤ := value.bind Json.int?

/-- The string of a field. The empty string does not count. -/
def str (value : Option Json) : Option String :=
  match value with
  | some (.str text) => if text.length > 0 then some text else none
  | _ => none

/-- The kind of report of a name. -/
def execTypeOf (value : Option Json) : Option ExecutionEventType :=
  match value with
  | some (.str "ORDER_ACCEPTED") => some .orderAccepted
  | some (.str "ORDER_FILLED") => some .orderFilled
  | some (.str "ORDER_PARTIALLY_FILLED") => some .orderPartiallyFilled
  | some (.str "ORDER_CANCELLED") => some .orderCancelled
  | some (.str "ORDER_REJECTED") => some .orderRejected
  | some (.str "ORDER_EXPIRED") => some .orderExpired
  | _ => none

/-- One level: an array of exactly two integers. -/
def level (raw : Json) : Option (ℤ × ℤ) :=
  match raw with
  | .arr [price, qty] => do
    let price ← int (some price)
    let qty ← int (some qty)
    return (price, qty)
  | _ => none

/-- The levels of one side. -/
def levels (value : Option Json) : Option (List (ℤ × ℤ)) :=
  match value with
  | some (.arr items) => items.mapM level
  | _ => none

/-- The frame of an object, by its type. -/
def frameOf (parsed : Json) : Option ServerFrame :=
  match parsed.field? "type" with
  | some (.str "BOOK") => do
    let bestBid ← int (parsed.field? "bestBid")
    let bestAsk ← int (parsed.field? "bestAsk")
    let timestamp ← int (parsed.field? "timestamp")
    let bids ← levels (parsed.field? "bids")
    let asks ← levels (parsed.field? "asks")
    return .book { bestBid, bestAsk, bids, asks, timestamp }
  | some (.str "EXEC") => do
    let eventType ← execTypeOf (parsed.field? "execType")
    let orderId ← int (parsed.field? "orderId")
    let tradeId ← int (parsed.field? "tradeId")
    let price ← int (parsed.field? "price")
    let filledQuantity ← int (parsed.field? "filledQuantity")
    let remainingQuantity ← int (parsed.field? "remainingQuantity")
    let aggressorOrderId ← int (parsed.field? "aggressorOrderId")
    let passiveOrderId ← int (parsed.field? "passiveOrderId")
    let timestamp ← int (parsed.field? "timestamp")
    return .exec {
      eventType, orderId, tradeId, price, filledQuantity, remainingQuantity,
      aggressorOrderId, passiveOrderId, timestamp }
  | some (.str "FIX") =>
    match parsed.field? "direction" with
    | some (.str "INBOUND") => do
      let raw ← str (parsed.field? "raw")
      let seqNum ← int (parsed.field? "seqNum")
      let timestamp ← int (parsed.field? "timestamp")
      return .fix { raw, seqNum, timestamp }
    | _ => none
  | _ => none

/-- The frame that a text is, where `parse` reads JSON and fails on anything else. -/
def parseServerFrame (parse : String → Option Json) (raw : String) : Option ServerFrame :=
  match parse raw with
  | some (.obj fields) => frameOf (.obj fields)
  | _ => none

end Terminal

end MatchingVenue
