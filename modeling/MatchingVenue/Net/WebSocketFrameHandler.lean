import MatchingVenue.Gateway.OrderGateway
import MatchingVenue.Terminal.OrderEntry
import Mathlib.Data.Rat.Cast.Defs

/-!
# Orders that come in as JSON

A text frame of a terminal is a JSON object. The handler reads the fields of a NEW or a CANCEL,
makes a FIX message of them and hands it to the gateway (`translate_frameNode`). The JSON library
makes a `long` of whatever node a number is read from, so the checks of the gateway are on what the
library made of the nodes. `unaltered_iff` says for which objects the numbers that reach the inbound
ring are those of the object.
-/

namespace MatchingVenue

open Text
open Terminal (asLong)

/-! ## The JSON library -/

/-- A node of a JSON tree. A number with a decimal point or an exponent is `fractional`, whatever
its value, and the names of an object are distinct. -/
inductive JsonNode where
  | null
  | boolean (b : Bool)
  | integral (n : ℤ)
  | fractional (q : ℚ)
  | text (s : Text)
  | array (items : List JsonNode)
  | object (fields : List (String × JsonNode))

namespace JsonNode

/-- The value of a field of an object. -/
def get (name : String) : JsonNode → Option JsonNode
  | .object fields => (fields.find? fun f => f.1 = name).map Prod.snd
  | _ => none

/-- Whether a node is the JSON null. -/
def isNull : JsonNode → Bool
  | .null => true
  | _ => false

/-- The value of a field that is neither missing nor null. -/
def present (name : String) (node : JsonNode) : Option JsonNode :=
  (node.get name).filter fun v => !v.isNull

/-- The exact value of a number. -/
def value : JsonNode → Option ℚ
  | .integral n => some n
  | .fractional q => some q
  | _ => none

/-- A number whose value is an integer in the range of a `long`. -/
def Whole (node : JsonNode) : Prop := ∃ n : ℤ, node.value = some (n : ℚ) ∧ -2^63 ≤ n ∧ n ≤ longMax

end JsonNode

/-- What the handler calls of the JSON library on a node. -/
structure Jackson where
  asText : JsonNode → Text
  asLong : JsonNode → Long

/-- What the library is documented to do: a text is itself, an integer keeps its low 64 bits, and a
fractional number is truncated towards zero, where that is a `long`. -/
structure Jackson.Documented (jackson : Jackson) : Prop where
  /-- The text of a text node is that text. -/
  asText_text : ∀ s, jackson.asText (.text s) = s
  /-- An integral number is narrowed to a `long`. -/
  asLong_integral : ∀ n, jackson.asLong (.integral n) = Terminal.asLong n
  /-- A fractional number is cut to its whole part where that is a `long`. -/
  asLong_fractional : ∀ q : ℚ, -2^63 ≤ q.num.tdiv q.den → q.num.tdiv q.den ≤ longMax →
    (jackson.asLong (.fractional q)).1 = q.num.tdiv q.den

/-! ## The handler -/

/-- Why a frame is dropped. -/
inductive Dropped where
  | invalidSide
  | unknownOrdType (ordTypeStr : Text)
  | unknownTif (tifStr : Text)
  | unknownType (type : Text)
  | malformed
  deriving DecidableEq, Repr

/-- The handler of a connection: the gateway that all of them share, and the number of the last
echo. -/
structure WebSocketFrameHandler where
  gateway : OrderGateway
  fixSeqNum : ℤ := 0

/-- The echo of a message to the connection that it came from. Its text has a character for each
byte. -/
structure FixEcho where
  raw : List Byte
  seqNum : ℤ
  timestamp : ℤ
  deriving DecidableEq, Repr

namespace WebSocketFrameHandler

/-- The side of its text. -/
def mapSide (s : Option Text) : Option Side :=
  if s = some (lit "BUY") then some .buy
  else if s = some (lit "SELL") then some .sell
  else none

/-- The time in force of its text. -/
def mapTif (s : Text) : Option TimeInForce :=
  if s = lit "GTC" then some .gtc
  else if s = lit "IOC" then some .ioc
  else if s = lit "FOK" then some .fok
  else none

/-- The order type of its text. -/
def mapOrdType (s : Text) : Option OrdType :=
  if s = lit "LIMIT" then some .limit
  else if s = lit "PEG_MID" then some .pegMid
  else none

/-- What there is, or the frame is dropped. -/
def required {α : Type} (reason : Dropped) : Option α → Except Dropped α
  | some a => .ok a
  | none => .error reason

@[simp]
theorem required_eq_ok {α : Type} {reason : Dropped} {o : Option α} {a : α} :
    required reason o = .ok a ↔ o = some a := by
  cases o <;> simp [required]

/-- What is read of a NEW. -/
structure NewOrderFields where
  clOrdId : Long
  side : Side
  ordType : OrdType
  price : Long
  qty : Long
  symbol : Text
  tif : TimeInForce
  maxFloor : Long

/-- Reads the price. A peg carries none, and its frame may leave the field out. -/
def readPrice (jackson : Jackson) (node : JsonNode) (ordType : OrdType) : Except Dropped Long :=
  if ordType = .pegMid then .ok (asLong (-1))
  else required .malformed ((node.get "price").map jackson.asLong)

/-- Reads a NEW. A field that is not there is a null pointer, which drops the frame as malformed. -/
def readNewOrder (jackson : Jackson) (node : JsonNode) : Except Dropped NewOrderFields := do
  let side ← required .invalidSide (mapSide ((node.present "side").map jackson.asText))
  let ordTypeStr := ((node.present "ordType").map jackson.asText).getD (lit "LIMIT")
  let ordType ← required (.unknownOrdType ordTypeStr) (mapOrdType ordTypeStr)
  let tifStr := ((node.present "tif").map jackson.asText).getD (lit "GTC")
  let tif ← required (.unknownTif tifStr) (mapTif tifStr)
  let maxFloor := ((node.present "maxFloor").map jackson.asLong).getD (asLong 0)
  let price ← readPrice jackson node ordType
  let clOrdId ← required .malformed ((node.get "clOrdId").map jackson.asLong)
  let qty ← required .malformed ((node.get "qty").map jackson.asLong)
  let symbol ← required .malformed ((node.get "symbol").map jackson.asText)
  return { clOrdId, side, ordType, price, qty, symbol, tif, maxFloor }

/-- Reads the two ids of a CANCEL. -/
def readCancel (jackson : Jackson) (node : JsonNode) : Except Dropped (Long × Long) := do
  let clOrdId ← required .malformed ((node.get "clOrdId").map jackson.asLong)
  let origClOrdId ← required .malformed ((node.get "origClOrdId").map jackson.asLong)
  return (clOrdId, origClOrdId)

/-- The type of a frame. That of a missing field is the empty text. -/
def typeOf (jackson : Jackson) (node : JsonNode) : Text :=
  ((node.get "type").map jackson.asText).getD []

/-- The FIX message of a frame. -/
def translate (jackson : Jackson) (node : JsonNode) : Except Dropped (List Byte) :=
  if typeOf jackson node = lit "NEW" then do
    let f ← readNewOrder jackson node
    return JsonToFix.newOrderSingle f.clOrdId f.side f.ordType f.price f.qty f.symbol
      f.tif f.maxFloor
  else if typeOf jackson node = lit "CANCEL" then do
    let ids ← readCancel jackson node
    return JsonToFix.orderCancelRequest ids.1 ids.2
  else .error (.unknownType (typeOf jackson node))

/-- Handles the tree of a frame, which the gateway takes at `now` and which is echoed at `echoed`:
what is published to the inbound ring, if anything, and the echo. -/
def handleOrderJson (jackson : Jackson) (h : WebSocketFrameHandler) (node : JsonNode)
    (now echoed : ℤ) :
    Except Dropped (WebSocketFrameHandler × Option OrderEvent × FixEcho) := do
  let fix ← translate jackson node
  match h.gateway.onFrame (some fix) now with
  | .error _ => .error .malformed
  | .ok (gateway, published) =>
    let fixSeqNum := toLong (h.fixSeqNum + 1)
    .ok ({ gateway, fixSeqNum }, published, ⟨fix, fixSeqNum, echoed⟩)

/-! ## What is read -/

section Read

variable {jackson : Jackson} {node : JsonNode}

/-- What was read of a NEW, and of which fields. -/
structure Reads (jackson : Jackson) (node : JsonNode) (f : NewOrderFields) : Prop where
  clOrdId : ∃ v, node.get "clOrdId" = some v ∧ jackson.asLong v = f.clOrdId
  qty : ∃ v, node.get "qty" = some v ∧ jackson.asLong v = f.qty
  price : f.ordType = .limit → ∃ v, node.get "price" = some v ∧ jackson.asLong v = f.price
  symbol : ∃ v, node.get "symbol" = some v ∧ jackson.asText v = f.symbol
  maxFloor : f.maxFloor = ((node.present "maxFloor").map jackson.asLong).getD (asLong 0)

/-- What is read of a new order is in the fields of its object. -/
theorem readNewOrder_reads {f : NewOrderFields} (h : readNewOrder jackson node = .ok f) :
    Reads jackson node f := by
  unfold readNewOrder at h
  obtain ⟨side, -, h⟩ := bind_eq_ok.mp h
  obtain ⟨ordType, -, h⟩ := bind_eq_ok.mp h
  obtain ⟨tif, -, h⟩ := bind_eq_ok.mp h
  obtain ⟨price, hprice, h⟩ := bind_eq_ok.mp h
  obtain ⟨clOrdId, hid, h⟩ := bind_eq_ok.mp h
  obtain ⟨qty, hqty, h⟩ := bind_eq_ok.mp h
  obtain ⟨symbol, hsymbol, h⟩ := bind_eq_ok.mp h
  obtain rfl := Except.ok.inj h
  rw [required_eq_ok, Option.map_eq_some_iff] at hid hqty hsymbol
  refine ⟨hid, hqty, fun hlimit => ?_, hsymbol, rfl⟩
  have hne : ¬ ordType = .pegMid := by
    have hlimit : ordType = .limit := hlimit
    simp [hlimit]
  rwa [readPrice, if_neg hne, required_eq_ok, Option.map_eq_some_iff] at hprice

/-- A cancel is read where its two ids are there. -/
theorem readCancel_eq_ok {a b : Long} : readCancel jackson node = .ok (a, b) ↔
    (∃ v, node.get "clOrdId" = some v ∧ jackson.asLong v = a) ∧
      ∃ v, node.get "origClOrdId" = some v ∧ jackson.asLong v = b := by
  simp only [readCancel, bind_eq_ok, required_eq_ok, Option.map_eq_some_iff]
  constructor
  · rintro ⟨x, hx, y, hy, hxy⟩
    obtain ⟨rfl, rfl⟩ := Prod.mk.inj (Except.ok.inj hxy)
    exact ⟨hx, hy⟩
  · rintro ⟨ha, hb⟩
    exact ⟨a, ha, b, hb, rfl⟩

end Read

/-! ## The frames of a terminal -/

/-- The text of a side. -/
def sideText : Side → Text
  | .buy => lit "BUY"
  | .sell => lit "SELL"

/-- The text of an order type. -/
def ordTypeText : OrdType → Text
  | .limit => lit "LIMIT"
  | .pegMid => lit "PEG_MID"

/-- The text of a time in force. -/
def tifText : TimeInForce → Text
  | .gtc => lit "GTC"
  | .ioc => lit "IOC"
  | .fok => lit "FOK"

/-- The object that a terminal sends for a NEW frame. -/
def frameNode (frame : NewOrderFrame) : JsonNode :=
  .object [("type", .text (lit "NEW")), ("clOrdId", .integral frame.clOrdId),
    ("side", .text (sideText frame.side)), ("ordType", .text (ordTypeText frame.ordType)),
    ("tif", .text (tifText frame.tif)),
    ("price", .integral frame.price), ("qty", .integral frame.qty),
    ("maxFloor", .integral frame.maxFloor), ("symbol", .text (lit "ASML"))]

/-- What is read of a terminal's frame is what the terminal wrote. -/
theorem readNewOrder_frameNode {jackson : Jackson} (hj : jackson.Documented)
    (frame : NewOrderFrame) :
    readNewOrder jackson (frameNode frame) =
      .ok ⟨asLong frame.clOrdId, frame.side, frame.ordType,
        if frame.ordType = .pegMid then asLong (-1) else asLong frame.price, asLong frame.qty,
        lit "ASML", frame.tif, asLong frame.maxFloor⟩ := by
  have hside : mapSide (some (sideText frame.side)) = some frame.side := by
    cases frame.side <;> decide
  have hordType : mapOrdType (ordTypeText frame.ordType) = some frame.ordType := by
    cases frame.ordType <;> decide
  have htif : mapTif (tifText frame.tif) = some frame.tif := by cases frame.tif <;> decide
  have hprice : readPrice jackson (frameNode frame) frame.ordType =
      .ok (if frame.ordType = .pegMid then asLong (-1) else asLong frame.price) := by
    have hget : (frameNode frame).get "price" = some (.integral frame.price) := rfl
    simp only [readPrice, hget, Option.map_some, hj.asLong_integral, required]
    split_ifs <;> rfl
  -- None of the fields is missing or null.
  have hpresent : (frameNode frame).present "side" = some (.text (sideText frame.side)) ∧
      (frameNode frame).present "ordType" = some (.text (ordTypeText frame.ordType)) ∧
      (frameNode frame).present "tif" = some (.text (tifText frame.tif)) ∧
      (frameNode frame).present "maxFloor" = some (.integral frame.maxFloor) := ⟨rfl, rfl, rfl, rfl⟩
  have hget : (frameNode frame).get "clOrdId" = some (.integral frame.clOrdId) ∧
      (frameNode frame).get "qty" = some (.integral frame.qty) ∧
      (frameNode frame).get "symbol" = some (.text (lit "ASML")) := ⟨rfl, rfl, rfl⟩
  simp only [readNewOrder, hpresent, hget, hprice, Option.map_some, Option.getD_some,
    hj.asText_text, hj.asLong_integral, hside, hordType, htif, required, ok_bind]
  rfl

/-- The handler makes the message of a terminal's frame that the order ticket is about. -/
theorem translate_frameNode {jackson : Jackson} (hj : jackson.Documented) (frame : NewOrderFrame) :
    translate jackson (frameNode frame) = .ok (Terminal.fixOf frame) := by
  have htype : typeOf jackson (frameNode frame) = lit "NEW" := hj.asText_text _
  rw [translate, if_pos htype, readNewOrder_frameNode hj]
  rfl

/-! ## What is published -/

/-- The gateway takes an order with these fields. -/
def NewOrderFields.Taken (f : NewOrderFields) : Prop :=
  0 ≤ f.clOrdId.1 ∧ JsonToFix.Sound f.ordType f.price f.qty f.maxFloor

/-- The event of an order with these fields. -/
def NewOrderFields.event (f : NewOrderFields) (now : ℤ) (target : OrderEvent) : OrderEvent :=
  { JsonToFix.newOrderEvent f.side f.ordType f.price f.qty f.tif f.maxFloor f.clOrdId target
    with timestamp := now }

/-- The gateway publishes what its parser accepts. -/
theorem onFrame_eq {g : OrderGateway} {fix : List Byte} {p' : FixParser}
    {filled : Option OrderEvent} (now : ℤ)
    (h : g.parser.parse fix 0 fix.length g.scratch = .ok (p', filled)) :
    ∃ g', g.onFrame (some fix) now =
      .ok (g', filled.map fun event => { event with timestamp := now }) := by
  simp only [OrderGateway.onFrame, h, ok_bind]
  cases filled with
  | none => exact ⟨_, rfl⟩
  | some event => exact ⟨_, rfl⟩

/-- What the handler publishes of a frame whose message the parser decides on. -/
theorem handleOrderJson_eq {jackson : Jackson} {h : WebSocketFrameHandler} {node : JsonNode}
    {fix : List Byte} {p' : FixParser} {filled : Option OrderEvent} (now echoed : ℤ)
    (hfix : translate jackson node = .ok fix)
    (hparse : h.gateway.parser.parse fix 0 fix.length h.gateway.scratch = .ok (p', filled)) :
    ∃ h' echo, handleOrderJson jackson h node now echoed =
      .ok (h', filled.map fun event => { event with timestamp := now }, echo) := by
  obtain ⟨g', hg'⟩ := onFrame_eq now hparse
  rw [handleOrderJson, hfix, ok_bind, hg']
  exact ⟨_, _, rfl⟩

/-! ## Numbers that are kept -/

/-- A field is a number with exactly this value. -/
def IsNumber (node : JsonNode) (name : String) (x : ℤ) : Prop :=
  ∃ v, node.get name = some v ∧ v.value = some (x : ℚ)

/-- The numbers of an event are those of the object that it came from. -/
structure Carries (node : JsonNode) (event : OrderEvent) : Prop where
  clOrdId : IsNumber node "clOrdId" event.orderId
  origClOrdId : event.eventType = .cancelOrder → IsNumber node "origClOrdId" event.originalOrderId
  qty : event.eventType = .newOrder → IsNumber node "qty" event.quantity
  price : event.eventType = .newOrder → event.ordType = some .limit →
    IsNumber node "price" event.price
  maxFloor : event.eventType = .newOrder →
    ∀ v, node.present "maxFloor" = some v → v.value = some (event.maxFloor : ℚ)

/-- What is published of an object has the numbers of the object. -/
def Unaltered (jackson : Jackson) (h : WebSocketFrameHandler) (node : JsonNode)
    (now echoed : ℤ) : Prop :=
  ∀ h' event echo, handleOrderJson jackson h node now echoed = .ok (h', some event, echo) →
    Carries node event

/-- A field is an integer in the range of a `long`. -/
def WholeField (node : JsonNode) (name : String) : Prop := ∃ v, node.get name = some v ∧ v.Whole

/-- The numbers that are read of a NEW are integers in the range of a `long`, and its display size
is not negative. -/
structure WholeOrder (node : JsonNode) (ordType : OrdType) : Prop where
  clOrdId : WholeField node "clOrdId"
  qty : WholeField node "qty"
  price : ordType = .limit → WholeField node "price"
  maxFloor : ∀ v, node.present "maxFloor" = some v → ∃ n : ℤ,
    v.value = some (n : ℚ) ∧ 0 ≤ n ∧ n ≤ longMax

/-- The ids of a CANCEL are integers in the range of a `long`. -/
structure WholeCancel (node : JsonNode) : Prop where
  clOrdId : WholeField node "clOrdId"
  origClOrdId : WholeField node "origClOrdId"

/-- The gateway takes what is read of an object, and not all of that are whole numbers. -/
def Alters (jackson : Jackson) (node : JsonNode) : Prop :=
  (typeOf jackson node = lit "NEW" ∧
    ∃ f, readNewOrder jackson node = .ok f ∧ f.Taken ∧ ¬ WholeOrder node f.ordType) ∨
  (typeOf jackson node = lit "CANCEL" ∧
    ∃ a b : Long, readCancel jackson node = .ok (a, b) ∧ (0 ≤ a.1 ∧ 0 ≤ b.1) ∧ ¬ WholeCancel node)

/-- What is published of a frame whose message the parser decides on is what the parser accepts. -/
theorem unaltered_iff_of_parse {jackson : Jackson} {h : WebSocketFrameHandler} {node : JsonNode}
    {fix : List Byte} {p' : FixParser} {filled : Option OrderEvent} (now echoed : ℤ)
    (hfix : translate jackson node = .ok fix)
    (hparse : h.gateway.parser.parse fix 0 fix.length h.gateway.scratch = .ok (p', filled)) :
    Unaltered jackson h node now echoed ↔ ∀ event ∈ filled,
      Carries node { event with timestamp := now } := by
  obtain ⟨h', echo, hhandled⟩ := handleOrderJson_eq now echoed hfix hparse
  unfold Unaltered
  rw [hhandled]
  constructor
  · rintro hall event hevent
    obtain rfl := Option.mem_def.mp hevent
    exact hall _ _ _ rfl
  · intro hall _ event _ heq
    obtain ⟨-, hrest⟩ := Prod.mk.inj (Except.ok.inj heq)
    obtain ⟨accepted, hfilled, rfl⟩ := Option.map_eq_some_iff.mp (Prod.mk.inj hrest).1
    exact hall accepted hfilled

/-- So where the message is taken on a condition, and for one event, that event alone matters. -/
theorem unaltered_iff_of_decided {jackson : Jackson} {h : WebSocketFrameHandler} {node : JsonNode}
    {fix : List Byte} {taken : Prop} {event : OrderEvent} (now echoed : ℤ)
    (hfix : translate jackson node = .ok fix) (hdecided : ∃ p',
      (taken ∧ h.gateway.parser.parse fix 0 fix.length h.gateway.scratch = .ok (p', some event)) ∨
        ¬ taken ∧ h.gateway.parser.parse fix 0 fix.length h.gateway.scratch = .ok (p', none)) :
    Unaltered jackson h node now echoed ↔
    (taken → Carries node { event with timestamp := now }) := by
  obtain ⟨p', ⟨htaken, hparse⟩ | ⟨hrefused, hparse⟩⟩ := hdecided
  · rw [unaltered_iff_of_parse now echoed hfix hparse]
    simp [htaken]
  · rw [unaltered_iff_of_parse now echoed hfix hparse]
    simp [hrefused]

/-- Where a message is dropped nothing is published, so that nothing is altered. -/
theorem unaltered_of_dropped {jackson : Jackson} {h : WebSocketFrameHandler} {node : JsonNode}
    {reason : Dropped} (now echoed : ℤ) (hdrop : translate jackson node = .error reason) :
    Unaltered jackson h node now echoed := by
  intro h' event echo hhandled
  rw [handleOrderJson, hdrop, error_bind] at hhandled
  cases hhandled

section Documented

variable {jackson : Jackson} (hj : jackson.Documented)
include hj

/-- The library reads a whole number as it is. -/
theorem asLong_of_value {v : JsonNode} {n : ℤ} (h : v.value = some (n : ℚ)) (hlow : -2^63 ≤ n)
    (hhigh : n ≤ longMax) : (jackson.asLong v).1 = n := by
  cases v with
  | integral m =>
    obtain rfl : m = n := by simpa [JsonNode.value] using h
    rw [hj.asLong_integral]
    exact toLong_of_fits hlow hhigh
  | fractional q =>
    obtain rfl : q = n := by simpa [JsonNode.value] using h
    have htrunc : (n : ℚ).num.tdiv (n : ℚ).den = n := by simp
    rw [hj.asLong_fractional n (by rwa [htrunc]) (by rwa [htrunc]), htrunc]
  | _ => simp [JsonNode.value] at h

/-- A node has the value that the library reads exactly where it is a whole number. -/
theorem value_eq_asLong_iff {v : JsonNode} :
    v.value = some (((jackson.asLong v).1 : ℤ) : ℚ) ↔ v.Whole := by
  constructor
  · intro h
    exact ⟨_, h, (jackson.asLong v).2⟩
  · rintro ⟨n, hn, hlow, hhigh⟩
    rw [asLong_of_value hj hn hlow hhigh]
    exact hn

/-- A number is read as it is written where its field is whole. -/
theorem isNumber_iff {node : JsonNode} {name : String} {x : Long}
    (h : ∃ v, node.get name = some v ∧ jackson.asLong v = x) :
    IsNumber node name x.1 ↔ WholeField node name := by
  obtain ⟨v, hv, rfl⟩ := h
  unfold IsNumber WholeField
  simp only [hv, Option.some.injEq, exists_eq_left']
  exact value_eq_asLong_iff hj

/-- The display size of the event is that of the object where it is a whole number that is not
negative. -/
theorem value_eq_maxFloor_iff {v : JsonNode} :
    v.value = some ((if (jackson.asLong v).1 > 0 then (jackson.asLong v).1 else 0 : ℤ) : ℚ) ↔
      ∃ n : ℤ, v.value = some (n : ℚ) ∧ 0 ≤ n ∧ n ≤ longMax := by
  constructor
  · intro h
    have hlong := (jackson.asLong v).2.2
    exact ⟨_, h, by split_ifs <;> omega, by split_ifs <;> simp only [longMax] at hlong ⊢ <;> omega⟩
  · rintro ⟨n, hn, hlow, hhigh⟩
    rw [asLong_of_value hj hn (by omega) hhigh, hn]
    split_ifs with hpos
    · rfl
    · have hzero : n = 0 := by omega
      rw [hzero]

/-- The event of a new order has the numbers of the object where that is whole. -/
theorem carries_event_iff {node : JsonNode} {f : NewOrderFields}
    (h : Reads jackson node f) (now : ℤ) (target : OrderEvent) :
    Carries node (f.event now target) ↔ WholeOrder node f.ordType := by
  have hfloor : (∀ v, node.present "maxFloor" = some v →
      v.value = some ((f.event now target).maxFloor : ℚ)) ↔
      ∀ v, node.present "maxFloor" = some v → ∃ n : ℤ, v.value = some (n : ℚ) ∧ 0 ≤ n ∧
          n ≤ longMax := by
    refine forall_congr' fun v => forall_congr' fun hv => ?_
    have hread : f.maxFloor = jackson.asLong v := by rw [h.maxFloor, hv]; rfl
    show v.value = some ((if (f.maxFloor : ℤ) > 0 then (f.maxFloor : ℤ) else 0 : ℤ) : ℚ) ↔ _
    rw [hread]
    exact value_eq_maxFloor_iff hj
  have hprice : f.ordType = .limit → (f.event now target).price = f.price.1 := fun hlimit =>
    if_neg (by simp [hlimit])
  constructor
  · intro hc
    refine ⟨(isNumber_iff hj h.clOrdId).mp hc.clOrdId, (isNumber_iff hj h.qty).mp (hc.qty rfl), ?_,
      hfloor.mp (hc.maxFloor rfl)⟩
    intro hlimit
    have hnumber := hc.price rfl (congrArg some hlimit)
    rw [hprice hlimit] at hnumber
    exact (isNumber_iff hj (h.price hlimit)).mp hnumber
  · intro hw
    refine ⟨(isNumber_iff hj h.clOrdId).mpr hw.clOrdId, nofun,
      fun _ => (isNumber_iff hj h.qty).mpr hw.qty, ?_, fun _ => hfloor.mpr hw.maxFloor⟩
    intro _ htype
    have hlimit : f.ordType = .limit := Option.some.inj htype
    rw [hprice hlimit]
    exact (isNumber_iff hj (h.price hlimit)).mpr (hw.price hlimit)

/-- The event of a cancel has the numbers of the object where that is whole. -/
theorem carries_cancel_iff {node : JsonNode} {a b : Long}
    (h : readCancel jackson node = .ok (a, b)) (now : ℤ) (target : OrderEvent) :
    Carries node { JsonToFix.cancelEvent a b target with timestamp := now } ↔ WholeCancel node := by
  obtain ⟨ha, hb⟩ := readCancel_eq_ok.mp h
  constructor
  · intro hc
    exact ⟨(isNumber_iff hj ha).mp hc.clOrdId, (isNumber_iff hj hb).mp (hc.origClOrdId rfl)⟩
  · rintro ⟨hid, horig⟩
    exact ⟨(isNumber_iff hj ha).mpr hid, fun _ => (isNumber_iff hj hb).mpr horig, nofun,
      nofun, nofun⟩

/-- A NEW of the one instrument keeps its numbers exactly if they are whole where the gateway takes
them. -/
theorem unaltered_newOrder_iff {h : WebSocketFrameHandler} {node : JsonNode}
    (hnew : typeOf jackson node = lit "NEW")
    (hsymbol : node.get "symbol" = some (.text (lit "ASML"))) (now echoed : ℤ) :
    Unaltered jackson h node now echoed ↔
      ∀ f, readNewOrder jackson node = .ok f → f.Taken → WholeOrder node f.ordType := by
  cases hread : readNewOrder jackson node with
  | error reason =>
    have hdrop : translate jackson node = .error reason := by
      rw [translate, if_pos hnew, hread]
      rfl
    exact ⟨fun _ _ hf => (nomatch hf), fun _ => unaltered_of_dropped now echoed hdrop⟩
  | ok f =>
    have hreads := readNewOrder_reads hread
    have hname : f.symbol = lit "ASML" := by
      obtain ⟨v, hv, htext⟩ := hreads.symbol
      obtain rfl := Option.some.inj (hv.symm.trans hsymbol)
      rw [← htext, hj.asText_text]
    have hfix : translate jackson node =
        .ok (JsonToFix.newOrderSingle f.clOrdId f.side f.ordType f.price f.qty (lit "ASML") f.tif
            f.maxFloor) := by
      rw [translate, if_pos hnew, hread, ok_bind, hname]
      rfl
    have hdecided := JsonToFix.parse_legitimate h.gateway.parser f.clOrdId f.side f.ordType
      f.price f.qty f.tif
      f.maxFloor h.gateway.scratch
    have hcarries := carries_event_iff hj hreads now h.gateway.scratch
    rw [unaltered_iff_of_decided now echoed hfix hdecided]
    constructor
    · intro hkept _ hf htaken
      obtain rfl := Except.ok.inj hf
      exact hcarries.mp (hkept htaken)
    · exact fun hwhole htaken => hcarries.mpr (hwhole f rfl htaken)

/-- A CANCEL keeps its ids exactly if they are whole where the gateway takes them. -/
theorem unaltered_cancel_iff {h : WebSocketFrameHandler} {node : JsonNode}
    (hcancel : typeOf jackson node = lit "CANCEL") (now echoed : ℤ) :
    Unaltered jackson h node now echoed ↔ ∀ a b : Long, readCancel jackson node = .ok (a, b) →
      0 ≤ a.1 ∧ 0 ≤ b.1 →
      WholeCancel node := by
  have hnew : ¬ typeOf jackson node = lit "NEW" := by
    rw [hcancel]
    decide
  cases hread : readCancel jackson node with
  | error reason =>
    have hdrop : translate jackson node = .error reason := by
      rw [translate, if_neg hnew, if_pos hcancel, hread]
      rfl
    exact ⟨fun _ _ _ hab => (nomatch hab), fun _ => unaltered_of_dropped now echoed hdrop⟩
  | ok ids =>
    obtain ⟨a, b⟩ := ids
    have hfix : translate jackson node = .ok (JsonToFix.orderCancelRequest a b) := by
      rw [translate, if_neg hnew, if_pos hcancel, hread]
      rfl
    have hdecided := JsonToFix.parse_orderCancelRequest h.gateway.parser a b h.gateway.scratch
    have hcarries := carries_cancel_iff hj hread now h.gateway.scratch
    rw [unaltered_iff_of_decided now echoed hfix hdecided]
    constructor
    · intro hkept _ _ hab htaken
      obtain ⟨rfl, rfl⟩ := Prod.mk.inj (Except.ok.inj hab)
      exact hcarries.mp (hkept htaken)
    · exact fun hwhole htaken => hcarries.mpr (hwhole a b rfl htaken)

/-- A terminal's frame of safe integers keeps its numbers. -/
theorem unaltered_frameNode (h : WebSocketFrameHandler) {frame : NewOrderFrame}
    (hid : Terminal.PositiveSafe frame.clOrdId) (hqty : Terminal.PositiveSafe frame.qty)
    (hprice : frame.ordType = .limit → Terminal.PositiveSafe frame.price)
    (hfloor : 0 ≤ frame.maxFloor ∧ frame.maxFloor ≤ Double.maxSafe) (now echoed : ℤ) :
    Unaltered jackson h (frameNode frame) now echoed := by
  have hmax : (Double.maxSafe : ℤ) ≤ longMax := by decide
  have hwhole : ∀ {n : ℤ}, Terminal.PositiveSafe n → (JsonNode.integral n).Whole := fun {n} hn =>
    ⟨n, rfl, (by decide : (-2^63 : ℤ) ≤ 0).trans hn.1.le, hn.2.trans hmax⟩
  have htype : typeOf jackson (frameNode frame) = lit "NEW" := hj.asText_text _
  refine (unaltered_newOrder_iff hj htype rfl now echoed).mpr ?_
  intro f hread _
  obtain rfl := Except.ok.inj ((readNewOrder_frameNode hj frame).symm.trans hread)
  refine ⟨⟨_, rfl, hwhole hid⟩, ⟨_, rfl, hwhole hqty⟩, fun hlimit =>
    ⟨_, rfl, hwhole (hprice hlimit)⟩, ?_⟩
  intro v hv
  obtain rfl := Option.some.inj hv
  exact ⟨frame.maxFloor, rfl, hfloor.1, hfloor.2.trans hmax⟩

end Documented

/-- The numbers that are published of an order of the one instrument or of a cancel are those of the
object, unless the gateway takes what the library read and not all of it was whole. -/
theorem unaltered_iff {jackson : Jackson} (hj : jackson.Documented) (h : WebSocketFrameHandler)
    (node : JsonNode) (hsymbol : typeOf jackson node = lit "NEW" →
    node.get "symbol" = some (.text (lit "ASML"))) (now echoed : ℤ) :
    Unaltered jackson h node now echoed ↔ ¬ Alters jackson node := by
  have hdistinct : lit "NEW" ≠ lit "CANCEL" := by decide
  unfold Alters
  by_cases hnew : typeOf jackson node = lit "NEW"
  · rw [unaltered_newOrder_iff hj hnew (hsymbol hnew) now echoed]
    simp only [hnew, hdistinct, true_and, false_and, or_false, not_exists, not_and, not_not]
  by_cases hcancel : typeOf jackson node = lit "CANCEL"
  · rw [unaltered_cancel_iff hj hcancel now echoed]
    simp only [hcancel, hdistinct.symm, true_and, false_and, false_or, not_exists, not_and, not_not]
  · -- A frame of any other type is dropped.
    have hdrop : translate jackson node = .error (.unknownType (typeOf jackson node)) := by
      rw [translate, if_neg hnew, if_neg hcancel]
    simp only [hnew, hcancel, false_and, or_false, not_false_eq_true, iff_true]
    exact unaltered_of_dropped now echoed hdrop

/-- A library as it is documented, on texts that are no numbers. A fractional number beyond the
range of a `long` is read as the end of the range. -/
def textualJackson : Jackson where
  asText node := match node with
    | .text s => s
    | _ => []
  asLong node := match node with
    | .integral n => asLong n
    | .fractional q =>
      ⟨max (-2^63) (min longMax (q.num.tdiv q.den)), by unfold longMax; omega,
        by unfold longMax; omega⟩
    | .boolean true => asLong 1
    | _ => asLong 0

/-- `textualJackson` does what is documented. -/
theorem textualJackson_documented : textualJackson.Documented where
  asText_text _ := rfl
  asLong_integral _ := rfl
  asLong_fractional q hlow hhigh := by
    show max (-2^63) (min longMax (q.num.tdiv q.den)) = q.num.tdiv q.den
    omega

/-- An order of some quantity, with some display size. -/
def orderOf (qty maxFloor : JsonNode) : JsonNode :=
  .object [("type", .text (lit "NEW")), ("clOrdId", .integral 7), ("symbol", .text (lit "ASML")),
    ("side", .text (lit "BUY")), ("price", .integral 1502500), ("qty", qty), ("maxFloor", maxFloor)]

/-- The iceberg of 10 that shows 4 is published as it was sent, and is no order that is altered. -/
theorem unaltered_iff_iceberg :
    Unaltered textualJackson ⟨OrderGateway.idle, 0⟩ (orderOf (.integral 10) (.integral 4)) 1 2 ↔
      ¬ Alters textualJackson (orderOf (.integral 10) (.integral 4)) :=
  unaltered_iff textualJackson_documented _ (orderOf (.integral 10) (.integral 4))
    (fun _ => rfl) 1 2

/-- Ten and a half. -/
def tenAndHalf : JsonNode := .fractional ⟨21, 2, by decide, by decide⟩

/-- An order for ten and a half with a display size in words goes out for ten, all of it
displayed. -/
theorem altered_tenAndHalf : textualJackson.Documented ∧ ∃ h' event echo,
    handleOrderJson textualJackson ⟨OrderGateway.idle, 0⟩
      (orderOf tenAndHalf (.text (lit "four"))) 1 2 =
      .ok (h', some event, echo) ∧
    event.quantity = 10 ∧ event.maxFloor = 0 ∧
      ¬ Carries (orderOf tenAndHalf (.text (lit "four"))) event := by
  refine ⟨textualJackson_documented, ?_⟩
  have hread : translate textualJackson (orderOf tenAndHalf (.text (lit "four"))) =
      .ok (JsonToFix.newOrderSingle (asLong 7) .buy .limit (asLong 1502500) (asLong 10)
        (lit "ASML") .gtc
        (asLong 0)) := rfl
  obtain ⟨p', ⟨-, hparse⟩ | ⟨hrefused, -⟩⟩ :=
    JsonToFix.parse_legitimate OrderGateway.idle.parser (asLong 7)
    .buy .limit (asLong 1502500) (asLong 10) .gtc (asLong 0) OrderGateway.idle.scratch
  swap
  · exact absurd ⟨by decide, by decide, by decide, .inr ⟨by decide, by decide⟩⟩ hrefused
  obtain ⟨h', echo, hhandled⟩ := handleOrderJson_eq (h := ⟨OrderGateway.idle, 0⟩) 1 2 hread hparse
  refine ⟨h', _, echo, hhandled, rfl, rfl, fun hcarries => ?_⟩
  obtain ⟨v, hv, hvalue⟩ := hcarries.qty rfl
  obtain rfl := Option.some.inj hv
  have hden := congrArg Rat.den (Option.some.inj hvalue)
  exact absurd hden (by decide)

end WebSocketFrameHandler

end MatchingVenue
