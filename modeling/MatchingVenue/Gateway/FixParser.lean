import MatchingVenue.Engine.MatchingEngineHandler

/-!
# The FIX parser

The parser of the gateway takes one framed message apart and fills an inbound event. A buffer is a
list of signed bytes, and the ranges of it that the functions are given are read index by index,
each read through `load`, which throws outside of the array. The scanner keeps its fields in three
arrays of a fixed length that belong to the parser and outlive the message.

An index that the source gives as `-1` is an `Option`, and so is the slot that is filled, which is
`none` where the message is rejected. Numbers keep the sentinel `-1`.
-/

namespace MatchingVenue

/-- A signed byte. -/
abbrev Byte := Int8

/-- Reads an element of an array, and throws outside of it. -/
def load {α coll : Type} {valid : coll → ℕ → Prop} [GetElem? coll ℕ α valid] (xs : coll) (i : ℕ) :
    Except Exn α :=
  match xs[i]? with
  | some x => .ok x
  | none => .error .indexOutOfBounds

/-- A load succeeds exactly at an index of the array. -/
theorem load_eq_ok {α coll : Type} {valid : coll → ℕ → Prop} [GetElem? coll ℕ α valid] {xs : coll}
    {i : ℕ} {x : α} :
    load xs i = .ok x ↔ xs[i]? = some x := by
  unfold load
  cases xs[i]? <;> simp

namespace FixConstants

/-- The byte that ends a field. -/
def soh : Byte := 1

/-- The byte between a tag and its value. -/
def equals : Byte := 61

/-! The tags that are in scope. -/

/-- What kind of message this is. -/
def messageType : ℤ := 35
/-- The id of a request. -/
def clOrdId : ℤ := 11
/-- Whether to buy or to sell. -/
def side : ℤ := 54
/-- The limit, in dollars. -/
def price : ℤ := 44
/-- The quantity of an order. -/
def orderQty : ℤ := 38
/-- The instrument. -/
def symbol : ℤ := 55
/-- The id of the order that a cancel names. -/
def origClOrdId : ℤ := 41
/-- What happens to what is not filled at once. -/
def timeInForce : ℤ := 59
/-- How much of an iceberg is shown. -/
def maxFloor : ℤ := 111
/-- Whether an order has a limit or is pegged. -/
def ordType : ℤ := 40
/-- To what an order is pegged. -/
def execInst : ℤ := 18

/-- The message type of a new order, `D`. -/
def msgTypeNewOrder : Byte := 68

/-- The message type of a cancel, `F`. -/
def msgTypeCancel : Byte := 70

/-- The symbol of the one instrument, `ASML`. -/
def symbolBytes : List Byte := [65, 83, 77, 76]

/-- The largest number of fields of a message. -/
def maxFields : ℕ := 32

/-- The body of the loop of `parseLong`, on one byte after `val`: the next value, or none where the
number is refused. -/
def parseLongBody (val : ℤ) (b : Byte) : Option ℤ :=
  let digit := b.toInt - 48
  if digit < 0 ∨ digit > 9 then none
  else if val > (toLong (longMax - digit)).tdiv 10 then none
  else some (toLong (toLong (val * 10) + digit))

/-- The rest of the loop of `parseLong`: `n` bytes from `i` on, after `val`. -/
def parseLongFrom (buf : List Byte) : (n i : ℕ) → (val : ℤ) → Except Exn ℤ
  | 0, _, val => .ok val
  | n + 1, i, val => do
    let some val := parseLongBody val (← load buf i) | return -1
    parseLongFrom buf n (i + 1) val

/-- The number that the digits in `[start, stop)` write, and `-1` where there is none, a byte is no
digit, or the number is no `long`. -/
def parseLong (buf : List Byte) (start stop : ℕ) : Except Exn ℤ :=
  if start ≥ stop then .ok (-1) else parseLongFrom buf (stop - start) start 0

end FixConstants

open FixConstants in
/-- The parser with the arrays of its scanner. -/
structure FixParser where
  tags : Vector ℤ maxFields := .replicate _ 0
  valStarts : Vector ℕ maxFields := .replicate _ 0
  valEnds : Vector ℕ maxFields := .replicate _ 0

namespace FixParser

open FixConstants

/-- The same code as `FixConstants.parseLong` stands in the parser too. -/
def parseLong (buf : List Byte) (start stop : ℕ) : Except Exn ℤ :=
  FixConstants.parseLong buf start stop

/-- The decimals that a price may have. -/
def maxDecimals : ℕ := 2

/-- The decimal point. -/
def dot : Byte := 46

/-- The first dot among `n` bytes from `i` on. -/
def indexOfDot (buf : List Byte) : (n i : ℕ) → Except Exn (Option ℕ)
  | 0, _ => .ok none
  | n + 1, i => do
    if (← load buf i) = dot then return some i
    indexOfDot buf n (i + 1)

/-- The price in `[start, stop)` in units, and `-1` where it is malformed or not positive. -/
def parsePrice (buf : List Byte) (start stop : ℕ) : Except Exn ℤ := do
  if start ≥ stop then return -1
  let units (intPart fracScaled : ℤ) : ℤ := toLong (toLong (intPart * Prices.scale) + fracScaled)
  let policy (units : ℤ) : ℤ := if units > 0 then units else -1
  match ← indexOfDot buf (stop - start) start with
  | none =>
    let intPart ← parseLong buf start stop
    if intPart = -1 then return -1
    return policy (units intPart 0)
  | some dot =>
    let intPart ← parseLong buf start dot
    if intPart = -1 then return -1
    let fracStart := dot + 1
    let fracLen := stop - fracStart
    if fracLen = 0 ∨ fracLen > maxDecimals then return -1
    let frac ← parseLong buf fracStart stop
    if frac = -1 then return -1
    return policy (units intPart (if fracLen = 1 then frac * 1000 else frac * 100))

/-- The search for the `=` that ends a tag, over `n` bytes from `i` on: its position, the end where
the bytes run out, or none where a field ends first. -/
def seekEquals (buf : List Byte) : (n i : ℕ) → Except Exn (Option ℕ)
  | 0, i => .ok (some i)
  | n + 1, i => do
    let b ← load buf i
    if b = equals then return some i
    if b = soh then return none
    seekEquals buf n (i + 1)

/-- The search for the end of a value, over `n` bytes from `i` on. -/
def seekSoh (buf : List Byte) : (n i : ℕ) → Except Exn ℕ
  | 0, i => .ok i
  | n + 1, i => do
    if (← load buf i) = soh then return i
    seekSoh buf n (i + 1)

/-- Writes one field into the arrays, and throws outside of them. -/
def record (p : FixParser) (count : ℕ) (tag : ℤ) (valStart valEnd : ℕ) : Except Exn FixParser :=
  if h : count < maxFields then
    .ok
      { tags := p.tags.set count tag
        valStarts := p.valStarts.set count valStart
        valEnds := p.valEnds.set count valEnd }
  else .error .indexOutOfBounds

/-- The rest of the loop of `scan`, from `pos` on, after `count` fields. -/
def scanFrom (buf : List Byte) (stop : ℕ) :
    (fuel pos : ℕ) → (p : FixParser) → (count : ℕ) → Except Exn (FixParser × Option ℕ)
  | 0, _, _, _ => .error .diverged
  | fuel + 1, pos, p, count =>
    if pos < stop then do
      let some eq ← seekEquals buf (stop - pos) pos | return (p, none)
      if eq = stop then return (p, none)
      let valStart := eq + 1
      let soh ← seekSoh buf (stop - valStart) valStart
      if soh = stop then return (p, none)
      let tag ← parseLong buf pos eq
      if tag < 0 then return (p, none)
      if count = maxFields then return (p, none)
      let p ← p.record count (toInt tag) valStart soh
      scanFrom buf stop fuel (soh + 1) p (count + 1)
    else .ok (p, some count)

/-- Takes a message apart into its fields, and counts them. -/
def scan (p : FixParser) (buf : List Byte) (offset length : ℕ) :
    Except Exn (FixParser × Option ℕ) :=
  scanFrom buf (offset + length) (length + 1) offset p 0

/-- The sum of `n` unsigned bytes from `i` on, after `sum`, as an `int`. -/
def sumFrom (buf : List Byte) : (n i : ℕ) → (sum : ℤ) → Except Exn ℤ
  | 0, _, sum => .ok sum
  | n + 1, i, sum => do
    let b ← load buf i
    sumFrom buf n (i + 1) (toInt (sum + b.toInt % 256))

/-- Whether the trailer of a message has the sum of the bytes before it. -/
def validateChecksum (buf : List Byte) (offset length : ℕ) : Except Exn Bool := do
  if length < 8 then return false
  let stop := offset + length
  let trailerStart := stop - 7
  let sum ← sumFrom buf (trailerStart - offset) offset 0
  let expected ← parseLong buf (stop - 4) (stop - 1)
  return expected = sum % 256

/-- The first field of a tag among `n` fields from `i` on. -/
def findTagFrom (p : FixParser) (tag : ℤ) : (n i : ℕ) → Except Exn (Option ℕ)
  | 0, _ => .ok none
  | n + 1, i => do
    if (← load p.tags i) = tag then return some i
    findTagFrom p tag n (i + 1)

/-- The first field of a tag. -/
def findTag (p : FixParser) (tag : ℤ) (count : ℕ) : Except Exn (Option ℕ) :=
  p.findTagFrom tag count 0

/-- Whether the bytes from `i` on are those of the symbol. -/
def symbolMatchesFrom (buf : List Byte) : (sym : List Byte) → (i : ℕ) → Except Exn Bool
  | [], _ => .ok true
  | b :: sym, i => do
    if (← load buf i) ≠ b then return false
    symbolMatchesFrom buf sym (i + 1)

/-- Whether a value is the symbol. -/
def symbolMatches (buf : List Byte) (start stop : ℕ) : Except Exn Bool :=
  if stop - start ≠ symbolBytes.length then .ok false else symbolMatchesFrom buf symbolBytes start

/-- The meaning of a value of one byte. -/
def mapByte {α : Type} (code : Byte → Option α) (buf : List Byte) (start stop : ℕ) :
    Except Exn (Option α) := do
  if stop - start ≠ 1 then return none
  return code (← load buf start)

/-- The side of a code, `1` or `2`. -/
def mapSide : (buf : List Byte) → (start stop : ℕ) → Except Exn (Option Side) :=
  mapByte fun b => if b = 49 then some .buy else if b = 50 then some .sell else none

/-- The time in force of a code, `1`, `3` or `4`. -/
def mapTif : (buf : List Byte) → (start stop : ℕ) → Except Exn (Option TimeInForce) :=
  mapByte fun b =>
    if b = 49 then some .gtc else if b = 51 then some .ioc else if b = 52 then some .fok else none

/-- The order type of a code, `2` or `P`. -/
def mapOrdType : (buf : List Byte) → (start stop : ℕ) → Except Exn (Option OrdType) :=
  mapByte fun b => if b = 50 then some .limit else if b = 80 then some .pegMid else none

/-- Whether a value is the midpoint qualifier, `M`. -/
def isMidPeg (buf : List Byte) (start stop : ℕ) : Except Exn Bool := do
  return (← mapByte (fun b => if b = 77 then some () else none) buf start stop).isSome

/-- Applies a function of a range to the value of a field. -/
def value {α : Type} (p : FixParser) (f : (start stop : ℕ) → Except Exn α) (i : ℕ) : Except Exn α :=
  do
  f (← load p.valStarts i) (← load p.valEnds i)

/-- The order type of a new order: limit where it is not given. -/
def readOrdType (p : FixParser) (buf : List Byte) (count : ℕ) : Except Exn (Option OrdType) := do
  match ← p.findTag FixConstants.ordType count with
  | none => return some .limit
  | some iOrdType => p.value (mapOrdType buf) iOrdType

/-- The price of a new order: a limit order must have one, and a peg must have the midpoint
qualifier instead. -/
def readPrice (p : FixParser) (buf : List Byte) (count : ℕ) (ordType : OrdType) :
    Except Exn (Option ℤ) := do
  match ordType, ← p.findTag FixConstants.price count with
  | .limit, none => return none
  | .limit, some iPrice =>
    let price ← p.value (parsePrice buf) iPrice
    return if price < 0 then none else some price
  | .pegMid, some _ => return none
  | .pegMid, none =>
    let some iExec ← p.findTag execInst count | return none
    return if ← p.value (isMidPeg buf) iExec then some Prices.na else none

/-- The time in force of a new order: good-til-cancelled where it is not given. -/
def readTif (p : FixParser) (buf : List Byte) (count : ℕ) : Except Exn (Option TimeInForce) := do
  match ← p.findTag timeInForce count with
  | none => return some .gtc
  | some iTif => p.value (mapTif buf) iTif

/-- The display size of a new order: none where it is not given, and otherwise positive and at most
the quantity. -/
def readMaxFloor (p : FixParser) (buf : List Byte) (count : ℕ) (qty : ℤ) : Except Exn (Option ℤ) :=
  do
  match ← p.findTag FixConstants.maxFloor count with
  | none => return some 0
  | some iMaxFloor =>
    let maxFloor ← p.value (FixConstants.parseLong buf) iMaxFloor
    return if maxFloor ≤ 0 ∨ maxFloor > qty then none else some maxFloor

/-- Fills the slot from a new order whose fields have been scanned. -/
def parseNewOrder (p : FixParser) (buf : List Byte) (count : ℕ) (target : OrderEvent) :
    Except Exn (Option OrderEvent) := do
  let some iId ← p.findTag clOrdId count | return none
  let some iSide ← p.findTag FixConstants.side count | return none
  let some iQty ← p.findTag orderQty count | return none
  let some iSym ← p.findTag symbol count | return none
  if !(← p.value (symbolMatches buf) iSym) then return none
  let orderId ← p.value (FixConstants.parseLong buf) iId
  if orderId < 0 then return none
  let some side ← p.value (mapSide buf) iSide | return none
  let qty ← p.value (FixConstants.parseLong buf) iQty
  if qty ≤ 0 then return none
  let some ordType ← p.readOrdType buf count | return none
  let some price ← p.readPrice buf count ordType | return none
  let some tif ← p.readTif buf count | return none
  let some maxFloor ← p.readMaxFloor buf count qty | return none
  return some
    { target with
      eventType := .newOrder
      orderId
      side := some side
      ordType := some ordType
      tif := some tif
      price
      quantity := qty
      maxFloor
      originalOrderId := -1 }

/-- Fills the slot from a cancel whose fields have been scanned. -/
def parseCancel (p : FixParser) (buf : List Byte) (count : ℕ) (target : OrderEvent) :
    Except Exn (Option OrderEvent) := do
  let some iId ← p.findTag clOrdId count | return none
  let some iOrig ← p.findTag origClOrdId count | return none
  let orderId ← p.value (FixConstants.parseLong buf) iId
  if orderId < 0 then return none
  let origId ← p.value (FixConstants.parseLong buf) iOrig
  if origId < 0 then return none
  return some
    { target with
      eventType := .cancelOrder
      orderId
      originalOrderId := origId
      side := none
      ordType := none
      tif := none
      price := -1
      quantity := -1
      maxFloor := 0 }

/-- Parses one framed message into the slot, which is left as it is where the message is
rejected. -/
def parse (p : FixParser) (buf : List Byte) (offset length : ℕ) (target : OrderEvent) :
    Except Exn (FixParser × Option OrderEvent) := do
  if !(← validateChecksum buf offset length) then return (p, none)
  let (p, scanned) ← p.scan buf offset length
  let some count := scanned | return (p, none)
  let some i ← p.findTag messageType count | return (p, none)
  let start ← load p.valStarts i
  if (← load p.valEnds i) - start ≠ 1 then return (p, none)
  let msgType ← load buf start
  if msgType = msgTypeNewOrder then return (p, ← p.parseNewOrder buf count target)
  if msgType = msgTypeCancel then return (p, ← p.parseCancel buf count target)
  return (p, none)

end FixParser

end MatchingVenue
