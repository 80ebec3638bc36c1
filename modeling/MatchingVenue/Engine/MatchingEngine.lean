import MatchingVenue.Library.Loop
import MatchingVenue.Library.SortedMap
import MatchingVenue.Model.Order
import Mathlib.Logic.Function.Basic
import Mathlib.Order.RelClasses
import Mathlib.Algebra.Order.Ring.Int

/-!
# The matching engine

`MatchingEngine` holds the lit book (`bids` and `asks`, price levels with a FIFO queue each), the
two midpoint-peg pools, the registry `openOrders` and the trade list, as the source does. `addOrder`
and `cancelOrder` are its two entry points.

The source's queues and its registry share mutable `Order` objects. Here the queues own the orders:
an order that comes to rest becomes a `RestingOrder`, which adds the identity `ref` of the object,
and `openOrders` maps an order id to the identity of the object that the source's map holds. An
order that leaves the engine goes to `retired` in its last state, where the source's callers still
see it.

The listener's callbacks are recorded in `executionListener`, in the order in which they are made.
The two lit loops of the source are one loop here, `matchLit`, at the side of the incoming order.
-/

namespace MatchingVenue

/-- The identity of an `Order` object, which the source's `==` and `Deque.remove` compare. -/
abbrev Ref := ℕ

/-- An order that rests in a queue of the engine. -/
structure RestingOrder extends Order where
  ref : Ref
  deriving DecidableEq, Repr

namespace RestingOrder

/-- The resting order after a fill, for a quantity that `fill` accepts. -/
def filled (r : RestingOrder) (fillQty : ℕ) : RestingOrder :=
  { r with toOrder := r.toOrder.filled fillQty }

/-- Executes `fillQty` of the resting order. -/
def fill (r : RestingOrder) (fillQty : ℕ) : Except Exn RestingOrder :=
  match r.toOrder.fill fillQty with
  | .error e => .error e
  | .ok o => .ok { r with toOrder := o }

/-- The resting order with its displayed slice computed again. -/
def refreshDisplay (r : RestingOrder) : RestingOrder :=
  { r with toOrder := r.toOrder.refreshDisplay }

/-- A fill is taken exactly where it is positive and no more than the quantity. -/
theorem fill_eq_ok {r r' : RestingOrder} {fillQty : ℕ} :
    r.fill fillQty = .ok r' ↔ 0 < fillQty ∧ fillQty ≤ r.quantity ∧ r' = r.filled fillQty := by
  unfold fill
  constructor
  · intro h
    split at h
    · simp at h
    · rename_i o ho
      obtain ⟨h0, hle, rfl⟩ := Order.fill_eq_ok.mp ho
      exact ⟨h0, hle, (Except.ok.inj h).symm⟩
  · rintro ⟨h0, hle, rfl⟩
    rw [Order.fill_eq_ok.mpr ⟨h0, hle, rfl⟩]
    rfl

/-- `fill` does not throw on a positive quantity that the resting order has. -/
theorem fill_of_le (r : RestingOrder) {fillQty : ℕ} (hpos : 0 < fillQty)
    (hle : fillQty ≤ r.quantity) : r.fill fillQty = .ok (r.filled fillQty) :=
  fill_eq_ok.mpr ⟨hpos, hle, rfl⟩

section Fields

variable (r : RestingOrder) (m : ℕ)

@[simp] theorem toOrder_filled : (r.filled m).toOrder = r.toOrder.filled m := rfl
@[simp] theorem ref_filled : (r.filled m).ref = r.ref := rfl
@[simp] theorem toOrder_refreshDisplay : r.refreshDisplay.toOrder = r.toOrder.refreshDisplay := rfl
@[simp] theorem ref_refreshDisplay : r.refreshDisplay.ref = r.ref := rfl

end Fields

end RestingOrder

/-- A call on the engine's `ExecutionListener`. -/
inductive Callback where
  /-- One trade: the two order ids, the trade, and what remains of the aggressor after it. -/
  | onFill (aggressorOrderId passiveOrderId tradeId price : ℤ)
      (filledQuantity aggressorRemainingQuantity : ℕ)
  /-- An order, or its remainder, came to rest. -/
  | onAccepted (orderId price : ℤ) (remainingQuantity : ℕ)
  /-- An order, or its remainder, expired by time in force. -/
  | onExpired (orderId : ℤ) (expiredQuantity : ℕ)
  deriving DecidableEq, Repr

/-- The order of the prices of a side, best first: highest bid, lowest ask. -/
def Better : Side → ℤ → ℤ → Prop
  | .buy, p, q => q < p
  | .sell, p, q => p < q

/-- Whether a price is better than another can be decided. -/
instance : (side : Side) → DecidableRel (Better side)
  | .buy => fun p q => inferInstanceAs (Decidable (q < p))
  | .sell => fun p q => inferInstanceAs (Decidable (p < q))

/-- The prices of a side are ordered strictly and totally. -/
instance (side : Side) : IsStrictTotalOrder ℤ (Better side) := by
  cases side
  · exact inferInstanceAs (IsStrictTotalOrder ℤ (· > ·))
  · exact inferInstanceAs (IsStrictTotalOrder ℤ (· < ·))

/-- One side of the lit book: the price levels, best first, each with its queue. -/
abbrev Book (side : Side) := SortedMap (Better side) (List RestingOrder)

/-- The orders of one side of the book, best level first and in queue order. -/
def Book.orders {side : Side} (book : Book side) : List RestingOrder :=
  book.entries.flatMap Prod.snd

/-- The engine. The fields after `executionListener` stand for what lies outside the object: the
orders that left it, the identity of the next object, and the trade counter of `IDGenerator`. -/
structure MatchingEngine where
  bids : Book .buy := ∅
  asks : Book .sell := ∅
  trades : List Trade := []
  openOrders : ℤ → Option Ref := fun _ => none
  pegBids : List RestingOrder := []
  pegAsks : List RestingOrder := []
  executionListener : List Callback := []
  retired : List Order := []
  nextRef : Ref := 0
  tradeIDCounter : ℤ := 0

namespace MatchingEngine

/-! ## Sides

The source chooses between `bids` and `asks`, or between the two pools, by the side of an order. -/

/-- The lit book of a side. -/
def book (s : MatchingEngine) : (side : Side) → Book side
  | .buy => s.bids
  | .sell => s.asks

/-- The engine with another lit book at a side. -/
def setBook (s : MatchingEngine) : (side : Side) → Book side → MatchingEngine
  | .buy, book => { s with bids := book }
  | .sell, book => { s with asks := book }

/-- The peg pool of a side. -/
def pool (s : MatchingEngine) : Side → List RestingOrder
  | .buy => s.pegBids
  | .sell => s.pegAsks

/-- The engine with another peg pool at a side. -/
def setPool (s : MatchingEngine) : Side → List RestingOrder → MatchingEngine
  | .buy, pool => { s with pegBids := pool }
  | .sell, pool => { s with pegAsks := pool }

/-- Every order in a queue of the engine. -/
def resting (s : MatchingEngine) : List RestingOrder :=
  s.bids.orders ++ s.asks.orders ++ (s.pegBids ++ s.pegAsks)

/-! ## Prices -/

/-- The best bid, or `-1` where there is none. -/
def getBestBid (s : MatchingEngine) : ℤ := (s.bids.firstKey).getD Prices.na

/-- The best ask, or `-1` where there is none. -/
def getBestAsk (s : MatchingEngine) : ℤ := (s.asks.firstKey).getD Prices.na

/-- The venue midpoint of the lit tops, in 64 bit arithmetic, or `-1` where a side is empty. -/
def mid (s : MatchingEngine) : ℤ :=
  let bestBid := s.getBestBid
  let bestAsk := s.getBestAsk
  if bestBid = Prices.na ∨ bestAsk = Prices.na then Prices.na
  else (toLong (bestBid + bestAsk)).tdiv 2

/-- Whether an incoming order may trade against a lit price. -/
def marketable (aggressorSide : Side) (limit contraPrice : ℤ) : Bool :=
  match aggressorSide with
  | .buy => decide (contraPrice ≤ limit)
  | .sell => decide (contraPrice ≥ limit)

/-- Whether a limit reaches the midpoint. -/
def crossesMid (side : Side) (limit mid : ℤ) : Bool :=
  match side with
  | .buy => decide (limit ≥ mid)
  | .sell => decide (limit ≤ mid)

/-! ## Recording -/

/-- Adds a trade to the list and reports it. The four orders are in their state after the fill. -/
def recordTrade (s : MatchingEngine) (buy sell aggressor passive : Order) (price : ℤ)
    (quantityMatched : ℕ) : MatchingEngine :=
  let tradeID := toLong (s.tradeIDCounter + 1)
  { s with
    tradeIDCounter := tradeID
    trades := s.trades ++
      [⟨tradeID, buy.orderID, sell.orderID, buy.participantID, sell.participantID, price,
        quantityMatched⟩]
    executionListener := s.executionListener ++
      [.onFill aggressor.orderID passive.orderID tradeID price quantityMatched
        aggressor.quantity] }

/-- The fill of an incoming order against a resting one: the buyer is the one on the buy side. -/
def recordFill (s : MatchingEngine) (aggressor passive : Order) (price : ℤ)
    (quantityMatched : ℕ) : MatchingEngine :=
  match aggressor.side with
  | .buy => s.recordTrade aggressor passive aggressor passive price quantityMatched
  | .sell => s.recordTrade passive aggressor aggressor passive price quantityMatched

/-- Reports that an order came to rest. -/
def onAccepted (s : MatchingEngine) (order : Order) : MatchingEngine :=
  { s with executionListener :=
      s.executionListener ++ [.onAccepted order.orderID order.price order.quantity] }

/-- Reports that an order expired. -/
def onExpired (s : MatchingEngine) (order : Order) : MatchingEngine :=
  { s with executionListener := s.executionListener ++ [.onExpired order.orderID order.quantity] }

/-- `openOrders.put`. -/
def register (s : MatchingEngine) (orderID : ℤ) (ref : Ref) : MatchingEngine :=
  { s with openOrders := Function.update s.openOrders orderID (some ref) }

/-- `openOrders.remove`. -/
def unregister (s : MatchingEngine) (orderID : ℤ) : MatchingEngine :=
  { s with openOrders := Function.update s.openOrders orderID none }

/-- The engine lets go of an order. -/
def retire (s : MatchingEngine) (order : Order) : MatchingEngine :=
  { s with retired := s.retired ++ [order] }

/-! ## The lit walk -/

/-- The head of the best level after its fill: it leaves the queue, and an empty queue its level,
when nothing is left of it; it goes to the back of the queue with a fresh slice when its displayed
slice is used up; and it stays in front otherwise. `behind` is the queue after it. -/
def settleLit (s : MatchingEngine) (side : Side) (resting : RestingOrder)
    (behind : List RestingOrder) : MatchingEngine :=
  if resting.quantity = 0 then
    let s := (s.unregister resting.orderID).retire resting.toOrder
    if behind.isEmpty then s.setBook side (s.book side).pollFirst
    else s.setBook side ((s.book side).setFirst behind)
  else if resting.visibleQty = 0 then
    s.setBook side ((s.book side).setFirst (behind ++ [resting.refreshDisplay]))
  else s.setBook side ((s.book side).setFirst (resting :: behind))

/-- The body of the loop of `matchBuy` and `matchSell`. -/
def matchLitBody (side : Side) :
    Order × MatchingEngine → Except Exn (Option (Order × MatchingEngine))
  | (order, s) =>
    if order.quantity = 0 then .ok none
    else match (s.book side.opposite).firstEntry with
    | none => .ok none
    | some (price, queue) =>
      if ¬ marketable side order.price price then .ok none
      else match queue with
      | [] => .error .noSuchElement
      | resting :: behind => do
        let quantityMatched := min order.quantity resting.visibleQty
        let order ← order.fill quantityMatched
        let resting ← resting.fill quantityMatched
        let s := s.recordFill order resting.toOrder price quantityMatched
        return some (order, s.settleLit side.opposite resting behind)

/-- The lit walk of an incoming order. Each iteration fills at least one unit of it. -/
def matchLit (side : Side) (order : Order) (s : MatchingEngine) :
    Except Exn (Order × MatchingEngine) :=
  whileLoop .diverged (matchLitBody side) order.quantity (order, s)

/-- The lit walk of an incoming buy over the asks. -/
def matchBuy : Order → MatchingEngine → Except Exn (Order × MatchingEngine) := matchLit .buy

/-- The lit walk of an incoming sell over the bids. -/
def matchSell : Order → MatchingEngine → Except Exn (Order × MatchingEngine) := matchLit .sell

/-! ## The fill-or-kill probe -/

/-- Adds up the quantities of a level, and stops with `none` as soon as they cover `needed`. -/
def probeQueue (needed : ℤ) : ℤ → List RestingOrder → Option ℤ
  | available, [] => some available
  | available, resting :: behind =>
    let available := toLong (available + resting.quantity)
    if available ≥ needed then none else probeQueue needed available behind

/-- Walks the levels within the limit, best first. -/
def probeLevels (side : Side) (limit needed : ℤ) :
    ℤ → List (ℤ × List RestingOrder) → Bool
  | available, [] => decide (available ≥ needed)
  | available, (price, queue) :: levels =>
    if ¬ marketable side limit price then decide (available ≥ needed)
    else match probeQueue needed available queue with
    | none => true
    | some available => probeLevels side limit needed available levels

/-- The quantity resting in the peg pool opposite to a side. -/
def pegPoolTotal (s : MatchingEngine) (aggressorSide : Side) : ℤ :=
  (s.pool aggressorSide.opposite).foldl (fun total o => toLong (total + o.quantity)) 0

/-- Whether the quantity that an order may trade with covers it. -/
def canFillCompletely (s : MatchingEngine) (order : Order) : Bool :=
  let needed : ℤ := order.quantity
  let mid := s.mid
  match order.ordType with
  | .pegMid =>
    if mid = Prices.na then false else decide (s.pegPoolTotal order.side ≥ needed)
  | .limit =>
    let contra := (s.book order.side.opposite).entries
    if mid ≠ Prices.na ∧ crossesMid order.side order.price mid then
      let available := toLong (0 + s.pegPoolTotal order.side)
      if available ≥ needed then true
      else probeLevels order.side order.price needed available contra
    else probeLevels order.side order.price needed 0 contra

/-! ## The peg pools -/

/-- The body of the loop of `matchPegPool`. -/
def matchPegPoolBody (mid : ℤ) :
    Order × MatchingEngine → Except Exn (Option (Order × MatchingEngine))
  | (aggressor, s) =>
    if aggressor.quantity = 0 then .ok none
    else match s.pool aggressor.side.opposite with
    | [] => .ok none
    | resting :: behind => do
      let quantityMatched := min aggressor.quantity resting.quantity
      let aggressor ← aggressor.fill quantityMatched
      let resting ← resting.fill quantityMatched
      let s := s.recordFill aggressor resting.toOrder mid quantityMatched
      if resting.quantity = 0 then
        let s := (s.unregister resting.orderID).retire resting.toOrder
        return some (aggressor, s.setPool aggressor.side.opposite behind)
      else
        return some (aggressor, s.setPool aggressor.side.opposite (resting :: behind))

/-- Fills an incoming order against the opposite pool at a fixed midpoint, in FIFO order. -/
def matchPegPool (aggressor : Order) (mid : ℤ) (s : MatchingEngine) :
    Except Exn (Order × MatchingEngine) :=
  whileLoop .diverged (matchPegPoolBody mid) aggressor.quantity (aggressor, s)

/-- An order becomes an object of the engine, with an identity of its own. -/
def nextObject (s : MatchingEngine) (order : Order) : RestingOrder :=
  { order with ref := s.nextRef }

/-- Rests an incoming peg at the back of its pool and acknowledges it. -/
def restPeg (s : MatchingEngine) (order : Order) : MatchingEngine :=
  let resting := s.nextObject order
  let s := { s with nextRef := s.nextRef + 1 }
  let s := s.setPool order.side (s.pool order.side ++ [resting])
  let s := s.register order.orderID resting.ref
  s.onAccepted order

/-- Whether the first of two resting pegs arrived later: a greater time stamp, and at equal time
stamps a greater order id. -/
def laterArrival (a b : Order) : Bool :=
  if a.timeStamp ≠ b.timeStamp then decide (a.timeStamp > b.timeStamp)
  else decide (a.orderID > b.orderID)

/-- The head of a pool after a fill in `crossPegPools`: it leaves when nothing is left of it. -/
def settleHead (s : MatchingEngine) (side : Side) (head : RestingOrder)
    (behind : List RestingOrder) : MatchingEngine :=
  if head.quantity = 0 then
    ((s.unregister head.orderID).retire head.toOrder).setPool side behind
  else s.setPool side (head :: behind)

/-- The body of the loop of `crossPegPools`. -/
def crossPegPoolsBody (mid : ℤ) (s : MatchingEngine) : Except Exn (Option MatchingEngine) :=
  match s.pegBids, s.pegAsks with
  | bid :: bids, ask :: asks => do
    let bidIsLater := laterArrival bid.toOrder ask.toOrder
    let quantityMatched := min bid.quantity ask.quantity
    let bid ← bid.fill quantityMatched
    let ask ← ask.fill quantityMatched
    let (aggressor, passive) := if bidIsLater then (bid, ask) else (ask, bid)
    let s := s.recordTrade bid.toOrder ask.toOrder aggressor.toOrder passive.toOrder mid
      quantityMatched
    return some ((s.settleHead .buy bid bids).settleHead .sell ask asks)
  | _, _ => .ok none

/-- Crosses the heads of the two pools at the midpoint until one pool is empty. Each iteration
finishes at least one head. -/
def crossPegPools (s : MatchingEngine) : Except Exn MatchingEngine :=
  let mid := s.mid
  if mid = Prices.na then .ok s
  else whileLoop .diverged (crossPegPoolsBody mid) (s.pegBids.length + s.pegAsks.length) s

/-! ## The entry points -/

/-- Rests an order at the back of its price level, which is opened where it is missing. -/
def addToBook (s : MatchingEngine) (order : Order) : MatchingEngine :=
  let resting := s.nextObject order.refreshDisplay
  let s := { s with nextRef := s.nextRef + 1 }
  let s := s.setBook order.side
    ((s.book order.side).upsert order.price fun queue => queue.getD [] ++ [resting])
  s.register order.orderID resting.ref

/-- The step of `addOrder` before the lit walk, and the whole match of a peg: the opposite pool at
the midpoint, where there is one and the order reaches it. -/
def pegStep (order : Order) (s : MatchingEngine) : Except Exn (Order × MatchingEngine) :=
  let mid := s.mid
  if mid ≠ Prices.na ∧ (order.ordType = .pegMid ∨ crossesMid order.side order.price mid) then
    matchPegPool order mid s
  else .ok (order, s)

/-- The end of an order that does not rest: what is left of it expires. -/
def dispose (s : MatchingEngine) (order : Order) : MatchingEngine :=
  if order.quantity > 0 then (s.onExpired order.expire).retire order.expire
  else s.retire order

/-- Admits one order: the probe of a fill-or-kill order, the match, and what time in force says of
the remainder. -/
def addOrder (s : MatchingEngine) (order : Order) : Except Exn MatchingEngine := do
  let tif := order.tif
  if tif = .fok ∧ ¬ s.canFillCompletely order then
    return (s.onExpired order).retire order
  match order.ordType with
  | .pegMid =>
    let (order, s) ← pegStep order s
    if order.quantity > 0 ∧ tif = .gtc then
      return s.restPeg order
    else
      return s.dispose order
  | .limit =>
    let (order, s) ← pegStep order s
    let (order, s) ← match order.side with
      | .buy => matchBuy order s
      | .sell => matchSell order s
    let s :=
      if order.quantity > 0 ∧ tif = .gtc then (s.addToBook order).onAccepted order
      else s.dispose order
    s.crossPegPools

/-- Takes an order out of its queue by identity: out of its pool, or out of its level, which goes
with its last order. -/
def withdraw (s : MatchingEngine) (order : RestingOrder) : MatchingEngine :=
  match order.ordType with
  | .pegMid => s.setPool order.side ((s.pool order.side).eraseP fun o => o.ref = order.ref)
  | .limit =>
    match (s.book order.side).get? order.price with
    | none => s
    | some queue =>
      let queue := queue.eraseP fun o => o.ref = order.ref
      if queue.isEmpty then s.setBook order.side ((s.book order.side).erase order.price)
      else s.setBook order.side ((s.book order.side).replace order.price queue)

/-- Cancels the order that the registry holds under an id. `true` means that there was one with
something left, which is then out of its queue. The registry's objects all rest
(`Identified.registered`), so the search by identity finds the object that the source's map
returns. -/
def cancelOrder (s : MatchingEngine) (orderID : ℤ) : MatchingEngine × Bool :=
  match s.openOrders orderID with
  | none => (s, false)
  | some ref =>
    let s := s.unregister orderID
    match s.resting.find? fun o => o.ref = ref with
    | none => (s, false)
    | some order =>
      if order.quantity = 0 then (s, false)
      else ((s.retire order.cancel).withdraw order, true)

end MatchingEngine

end MatchingVenue
