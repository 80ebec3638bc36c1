import MatchingVenue.Net.RoundTrip
import MatchingVenue.Terminal.Format
import MatchingVenue.Terminal.Reducer

/-!
# The order ticket

The ticket of a terminal holds the texts that were typed, and a submit makes an intent of them or
says what is wrong. An intent becomes a NEW frame, and the server makes a FIX message of the frame
and parses it. Both ends have checks of their own, and `submit_ready` is where they meet: an intent
of the ticket is one that the venue takes (`submit_taken`), as long as its quantity is an `int`. Of
a limit order the price that was typed is the price that is traded (`price_typed_traded`).
-/

namespace MatchingVenue

/-- What the ticket resolves an order to. -/
structure OrderIntent where
  side : Side
  ordType : OrdType
  tif : TimeInForce
  pricePx : ℤ
  qty : ℤ
  displayQty : ℤ
  deriving DecidableEq, Repr

namespace Terminal

open Text

/-! ## The ticket -/

/-- What a bad price is refused with. -/
def priceReason : String := "Price must be greater than 0 with at most 2 decimals"

/-- What a bad quantity is refused with. -/
def qtyReason : String := "Quantity must be a positive whole number"

/-- What a bad display quantity is refused with. -/
def displayReason : String := "Display must be a whole number from 1 to the order quantity"

/-- The quantity that was typed. -/
def validateQtyInput (qtyInput : Text) : Except String ℕ :=
  let qtyTrimmed := trim qtyInput
  if ¬ matchDigits qtyTrimmed then .error qtyReason
  else match positiveSafe (number qtyTrimmed) with
  | none => .error qtyReason
  | some qty => .ok qty

/-- The price and the quantity that were typed. -/
def validateOrderInput (priceInput qtyInput : Text) : Except String (ℕ × ℕ) :=
  match parsePrice priceInput with
  | none => .error priceReason
  | some pricePx =>
    match validateQtyInput qtyInput with
    | .error reason => .error reason
    | .ok qty => .ok (pricePx, qty)

/-- The display size that was typed for a quantity. None and one of the whole quantity hide
nothing. -/
def validateDisplayQty (displayInput : Text) (qty : ℕ) : Except String ℕ :=
  let trimmed := trim displayInput
  if trimmed = [] then .ok 0
  else if ¬ matchDigits trimmed then .error displayReason
  else match positiveSafe (number trimmed) with
  | none => .error displayReason
  | some display =>
    if display > qty then .error displayReason
    else .ok (if display = qty then 0 else display)

/-- The state of the ticket. -/
structure Ticket where
  side : Side := .buy
  tif : TimeInForce := .gtc
  ordType : OrdType := .limit
  priceInput : Text := []
  qtyInput : Text := []
  displayInput : Text := []
  error : Option String := none
  deriving DecidableEq, Repr

/-- A submit: the ticket after it, where the call that emits the intent returns, and the intent. The
fields are emptied behind that call. -/
def submit (disabled : Bool) (t : Ticket) : Ticket × Option OrderIntent :=
  if disabled then (t, none)
  else if t.ordType = .pegMid then
    match validateQtyInput t.qtyInput with
    | .error reason => ({ t with error := some reason }, none)
    | .ok qty =>
      ({ t with error := none, qtyInput := [] },
        some ⟨t.side, .pegMid, t.tif, MatchingEngineHandler.na, qty, 0⟩)
  else match validateOrderInput t.priceInput t.qtyInput with
  | .error reason => ({ t with error := some reason }, none)
  | .ok (pricePx, qty) =>
    match if t.tif = .gtc then validateDisplayQty t.displayInput qty else .ok 0 with
    | .error reason => ({ t with error := some reason }, none)
    | .ok displayQty =>
      ({ t with error := none, priceInput := [], qtyInput := [], displayInput := [] },
        some ⟨t.side, .limit, t.tif, pricePx, qty, displayQty⟩)

/-! ## The frame -/

/-- A positive safe integer. -/
def PositiveSafe (x : ℤ) : Prop := 0 < x ∧ x ≤ Double.maxSafe

/-- Throws where a value is no positive safe integer. -/
def requirePositiveInt (value : ℤ) (label : String) : Except String Unit :=
  if ¬ Double.isSafe value.natAbs ∨ value ≤ 0 then
    .error s!"{label} must be a positive safe integer, got {value}"
  else .ok ()

/-- The NEW frame of an intent. A peg carries no price. -/
def newOrderFrame (clOrdId : ℤ) (intent : OrderIntent) : Except String NewOrderFrame := do
  requirePositiveInt clOrdId "clOrdId"
  if ¬ intent.ordType = .pegMid then
    requirePositiveInt intent.pricePx "pricePx"
  requirePositiveInt intent.qty "qty"
  return {
    clOrdId
    side := intent.side
    ordType := intent.ordType
    tif := intent.tif
    price := if intent.ordType = .pegMid then MatchingEngineHandler.na else intent.pricePx
    qty := intent.qty
    maxFloor := intent.displayQty }

/-- The `long` that the server reads of an integer in a frame. -/
def asLong (x : ℤ) : Long := ⟨toLong x, le_toLong x, toLong_le x⟩

/-- The FIX message that the server makes of a NEW frame. The price of a peg is not read. -/
def fixOf (frame : NewOrderFrame) : List Byte :=
  JsonToFix.newOrderSingle (asLong frame.clOrdId) frame.side frame.ordType
    (if frame.ordType = .pegMid then asLong (-1) else asLong frame.price) (asLong frame.qty)
      (lit "ASML") frame.tif
    (asLong frame.maxFloor)

/-! ## What the ticket emits -/

/-- A quantity that is accepted is positive and safe. -/
theorem validateQtyInput_eq_ok {s : Text} {qty : ℕ} (h : validateQtyInput s = .ok qty) :
    PositiveSafe qty := by
  simp only [validateQtyInput] at h
  split_ifs at h with hdigits
  have hall : ((trim s).all isDigit) = true := by
    simp only [matchDigits, Bool.and_eq_true] at hdigits
    exact hdigits.2
  obtain ⟨digits, hs⟩ := exists_digitUnits hall
  rw [← hs, number_map, positiveSafe_ofNat] at h
  split_ifs at h with hsafe
  obtain rfl := Except.ok.inj h
  exact ⟨by exact_mod_cast hsafe.1, by exact_mod_cast hsafe.2⟩

/-- A display quantity that is accepted is less than the quantity. -/
theorem validateDisplayQty_eq_ok {s : Text} {qty displayQty : ℕ} (hqty : 0 < qty)
    (h : validateDisplayQty s qty = .ok displayQty) : displayQty < qty := by
  simp only [validateDisplayQty] at h
  split_ifs at h with hnil hdigits
  · obtain rfl := Except.ok.inj h
    exact hqty
  · cases hnumber : positiveSafe (number (trim s)) with
    | none => simp [hnumber] at h
    | some display =>
      simp only [hnumber] at h
      split_ifs at h with hle heq <;> obtain rfl := Except.ok.inj h <;> omega

/-- What a price that was typed comes to. -/
theorem parsePrice_onTick {s : Text} {px : ℕ} (h : parsePrice s = some px) :
    PositiveSafe px ∧ (px : ℤ) % 100 = 0 := by
  obtain ⟨d, -, rfl, hpos, hsafe⟩ := parsePrice_eq_some.mp h
  have hdvd : 10 ^ (4 - 2) ∣ d.scaled 4 := d.dvd_scaled
  refine ⟨⟨by exact_mod_cast hpos, by exact_mod_cast hsafe⟩, ?_⟩
  omega

/-- An intent that the venue takes: its sizes and its price are in order for its type and its time
in force. -/
structure Ready (intent : OrderIntent) : Prop where
  /-- The quantity is positive and safe. -/
  qty : PositiveSafe intent.qty
  /-- A limit is positive, safe and on the tick. -/
  price : intent.ordType = .limit → PositiveSafe intent.pricePx ∧ intent.pricePx % 100 = 0
  /-- A peg has neither a price nor a slice. -/
  peg : intent.ordType = .pegMid → intent.pricePx = MatchingEngineHandler.na ∧ intent.displayQty = 0
  /-- The slice is not negative. -/
  display_nonneg : 0 ≤ intent.displayQty
  /-- The slice is less than the quantity. -/
  display_lt : intent.displayQty < intent.qty
  /-- Only an order that is good till cancelled shows a slice. -/
  display_gtc : 0 < intent.displayQty → intent.tif = .gtc

/-- Where a submit emits an intent, it is ready, and it has the choices of the ticket and the price
in it. -/
theorem submit_ready {disabled : Bool} {t t' : Ticket} {intent : OrderIntent}
    (h : submit disabled t = (t', some intent)) :
    Ready intent ∧ intent.side = t.side ∧ intent.ordType = t.ordType ∧ intent.tif = t.tif ∧
      (t.ordType = .limit → ∃ px, parsePrice t.priceInput = some px ∧ intent.pricePx = px) := by
  have hdisabled : ¬ disabled = true := by
    rintro rfl
    exact absurd (congrArg Prod.snd h) (by simp [submit])
  rw [submit, if_neg hdisabled] at h
  by_cases hpeg : t.ordType = .pegMid
  · rw [if_pos hpeg] at h
    cases hqtyInput : validateQtyInput t.qtyInput with
    | error reason => simp [hqtyInput] at h
    | ok qty =>
      simp only [hqtyInput, Prod.mk.injEq, Option.some.injEq] at h
      obtain ⟨-, rfl⟩ := h
      have hqty := validateQtyInput_eq_ok hqtyInput
      exact ⟨⟨hqty, by simp, fun _ => ⟨rfl, rfl⟩, le_refl 0, hqty.1, by simp⟩, rfl, hpeg.symm, rfl,
        by simp [hpeg]⟩
  · rw [if_neg hpeg] at h
    have hlimit : t.ordType = .limit := by
      cases htype : t.ordType with
      | limit => rfl
      | pegMid => exact absurd htype hpeg
    cases hprice : parsePrice t.priceInput with
    | none => simp [validateOrderInput, hprice] at h
    | some pricePx =>
      cases hqtyInput : validateQtyInput t.qtyInput with
      | error reason => simp [validateOrderInput, hprice, hqtyInput] at h
      | ok qty =>
        simp only [validateOrderInput, hprice, hqtyInput] at h
        have hqty := validateQtyInput_eq_ok hqtyInput
        have hpositive : 0 < qty := by exact_mod_cast hqty.1
        cases hdisplay :
            (if t.tif = .gtc then validateDisplayQty t.displayInput qty else .ok 0) with
        | error reason => simp [hdisplay] at h
        | ok displayQty =>
          simp only [hdisplay, Prod.mk.injEq, Option.some.injEq] at h
          obtain ⟨-, rfl⟩ := h
          -- A display size is read for a GTC order only.
          have hlt : displayQty < qty ∧ (0 < displayQty → t.tif = .gtc) := by
            split_ifs at hdisplay with htif
            · exact ⟨validateDisplayQty_eq_ok hpositive hdisplay, fun _ => htif⟩
            · obtain rfl := Except.ok.inj hdisplay
              exact ⟨hpositive, by simp⟩
          refine ⟨⟨hqty, fun _ => parsePrice_onTick hprice, by simp, Int.natCast_nonneg _, ?_, ?_⟩,
            rfl, hlimit.symm, rfl, fun _ => ⟨pricePx, rfl, rfl⟩⟩
          · exact Int.ofNat_lt.mpr hlt.1
          · exact fun hpos => hlt.2 (Int.ofNat_lt.mp hpos)

/-! ## What becomes of it -/

/-- A positive safe integer passes. -/
theorem requirePositiveInt_of_safe {value : ℤ} (label : String) (h : PositiveSafe value) :
    requirePositiveInt value label = .ok () := by
  obtain ⟨hpos, hsafe⟩ := h
  have hnat : Double.isSafe value.natAbs = true := by
    rw [Double.isSafe, decide_eq_true_eq]
    omega
  rw [requirePositiveInt, if_neg]
  rintro (hsize | hneg)
  · exact hsize hnat
  · omega

/-- The frame of an intent with a quantity and, for a limit order, a price. -/
theorem newOrderFrame_eq {clOrdId : ℤ} {intent : OrderIntent} (hid : PositiveSafe clOrdId)
    (hqty : PositiveSafe intent.qty)
    (hprice : intent.ordType = .limit → PositiveSafe intent.pricePx) :
    newOrderFrame clOrdId intent = .ok ⟨clOrdId, intent.side, intent.ordType, intent.tif,
      if intent.ordType = .pegMid then MatchingEngineHandler.na else intent.pricePx, intent.qty,
      intent.displayQty⟩ := by
  rw [newOrderFrame, requirePositiveInt_of_safe _ hid, ok_bind]
  cases htype : intent.ordType with
  | pegMid =>
    simp only [not_true_eq_false, if_false, requirePositiveInt_of_safe _ hqty]
    rfl
  | limit =>
    have hpriced := requirePositiveInt_of_safe "pricePx" (hprice htype)
    simp only [reduceCtorEq, not_false_eq_true, if_true, hpriced, requirePositiveInt_of_safe _ hqty]
    rfl

/-- A safe number that is not negative is narrowed to itself. -/
theorem asLong_val {x : ℤ} (h0 : 0 ≤ x) (h : x ≤ Double.maxSafe) : (asLong x).1 = x := by
  have hmax : (Double.maxSafe : ℤ) ≤ longMax := by decide
  exact toLong_of_le h0 (h.trans hmax)

/-- The event of an intent. -/
def eventOf (clOrdId : ℤ) (intent : OrderIntent) (target : OrderEvent) : OrderEvent :=
  { target with
    eventType := .newOrder
    orderId := clOrdId
    side := some intent.side
    ordType := some intent.ordType
    tif := some intent.tif
    price := if intent.ordType = .pegMid then Prices.na else intent.pricePx
    quantity := intent.qty
    maxFloor := intent.displayQty
    originalOrderId := -1 }

/-- The message of an intent that is ready is parsed to its event. -/
theorem parse_ready {intent : OrderIntent} (h : Ready intent) {clOrdId : ℤ}
    (hid : PositiveSafe clOrdId) (p : FixParser) (target : OrderEvent) :
    ∃ frame p', newOrderFrame clOrdId intent = .ok frame ∧
      p.parse (fixOf frame) 0 (fixOf frame).length target =
      .ok (p', some (eventOf clOrdId intent target)) := by
  obtain ⟨hqty, hprice, -, hnonneg, hlt, -⟩ := h
  have hqtyLong := asLong_val hqty.1.le hqty.2
  have hidLong := asLong_val hid.1.le hid.2
  have hfloorLong := asLong_val hnonneg (hlt.le.trans hqty.2)
  have hpriceLong : intent.ordType = .limit → (asLong intent.pricePx).1 = intent.pricePx :=
    fun hlimit => asLong_val (hprice hlimit).1.1.le (hprice hlimit).1.2
  let frame : NewOrderFrame := ⟨clOrdId, intent.side, intent.ordType, intent.tif,
    if intent.ordType = .pegMid then MatchingEngineHandler.na else intent.pricePx, intent.qty,
    intent.displayQty⟩
  let priceUnits := if intent.ordType = .pegMid then asLong (-1) else asLong frame.price
  have hunits : intent.ordType = .limit → priceUnits.1 = intent.pricePx := by
    intro hlimit
    have hne : intent.ordType ≠ .pegMid := by simp [hlimit]
    simp only [priceUnits, frame, if_neg hne]
    exact hpriceLong hlimit
  have hsound : JsonToFix.Sound intent.ordType priceUnits (asLong intent.qty)
      (asLong intent.displayQty) := by
    refine ⟨by rw [hqtyLong]; exact hqty.1, fun _ => by rw [hqtyLong, hfloorLong]; exact hlt.le, ?_⟩
    cases htype : intent.ordType with
    | pegMid => exact .inl rfl
    | limit =>
      rw [hunits htype]
      exact .inr ⟨(hprice htype).1.1, (hprice htype).2⟩
  obtain ⟨p', ⟨-, hparse⟩ | ⟨hrefused, -⟩⟩ :=
    JsonToFix.parse_legitimate p (asLong clOrdId) intent.side
    intent.ordType priceUnits (asLong intent.qty) intent.tif (asLong intent.displayQty) target
  swap
  · exact absurd ⟨by rw [hidLong]; exact hid.1.le, hsound⟩ hrefused
  refine ⟨frame, p', newOrderFrame_eq hid hqty fun hlimit => (hprice hlimit).1, hparse.trans ?_⟩
  have hfloor : (if (asLong intent.displayQty : ℤ) > 0 then (asLong intent.displayQty : ℤ) else 0) =
      intent.displayQty := by
    rw [hfloorLong]
    split_ifs <;> omega
  have hpriced : (if intent.ordType = .pegMid then Prices.na else (priceUnits : ℤ)) =
      if intent.ordType = .pegMid then Prices.na else intent.pricePx := by
    cases htype : intent.ordType with
    | pegMid => rfl
    | limit => exact hunits htype
  rw [JsonToFix.newOrderEvent, eventOf, hfloor, hpriced, hqtyLong, hidLong]

/-- The order that the handler builds of the event of an intent that is ready. -/
theorem order_ready {intent : OrderIntent} (h : Ready intent) (hqty : intent.qty ≤ intMax)
    {clOrdId timestamp : ℤ} (hid : PositiveSafe clOrdId) (htime : 0 < timestamp)
    (target : OrderEvent) :
    MatchingEngineHandler.order { eventOf clOrdId intent target with timestamp } =
      .ok (Order.built clOrdId timestamp intent.side intent.qty
        (if intent.ordType = .pegMid then Prices.na else intent.pricePx)
          MatchingEngineHandler.gatewayParticipantId
        intent.tif intent.displayQty intent.ordType) := by
  have hqtyInt : toInt intent.qty = intent.qty := toInt_of_le h.qty.1.le hqty
  have hfloorInt : toInt intent.displayQty = intent.displayQty :=
    toInt_of_le h.display_nonneg (h.display_lt.le.trans hqty)
  have hadmissible : Order.Admissible clOrdId timestamp intent.qty
      (if intent.ordType = .pegMid then Prices.na else intent.pricePx)
        MatchingEngineHandler.gatewayParticipantId
      intent.tif intent.displayQty intent.ordType := by
    refine ⟨hid.1, htime, by decide, h.qty.1, fun hlimit => ?_, fun hpeg => ?_, h.display_nonneg,
      h.display_lt.le,
      fun hpos _ => h.display_gtc hpos⟩
    · rw [if_neg (by simp [hlimit])]
      exact ⟨(h.price hlimit).1.1, (h.price hlimit).2⟩
    · rw [if_pos hpeg]
      exact ⟨rfl, (h.peg hpeg).2⟩
  show Order.new clOrdId timestamp (some intent.side) (toInt intent.qty) _ _ (some intent.tif)
    (toInt intent.displayQty) (some intent.ordType) = _
  rw [hqtyInt, hfloorInt]
  exact Order.new_eq_ok_iff.mpr ⟨hadmissible, rfl⟩

/-- What the ticket emits is taken by the venue, where its quantity is an `int`: for every positive
safe id the parser accepts the message and the constructor does not throw, and the order is that of
the intent. -/
theorem submit_taken {disabled : Bool} {t t' : Ticket} {intent : OrderIntent}
    (h : submit disabled t = (t', some intent)) (hqty : intent.qty ≤ intMax) {clOrdId timestamp : ℤ}
    (hid : PositiveSafe clOrdId) (htime : 0 < timestamp) (p : FixParser) (target : OrderEvent) :
    ∃ frame p' event o, newOrderFrame clOrdId intent = .ok frame ∧
      p.parse (fixOf frame) 0 (fixOf frame).length target = .ok (p', some event) ∧
      MatchingEngineHandler.order { event with timestamp } = .ok o ∧ o.side = intent.side ∧
      (o.quantity : ℤ) = intent.qty ∧ o.ordType = intent.ordType ∧ o.tif = intent.tif ∧
      o.price = (if intent.ordType = .pegMid then Prices.na else intent.pricePx) ∧
      (o.peak : ℤ) = intent.displayQty := by
  obtain ⟨hready, -⟩ := submit_ready h
  obtain ⟨frame, p', hframe, hparse⟩ := parse_ready hready hid p target
  have horder := order_ready hready hqty hid htime target
  have hpeak : (if intent.displayQty = intent.qty then 0 else intent.displayQty) =
      intent.displayQty :=
    if_neg (Int.ne_of_lt hready.display_lt)
  refine ⟨frame, p', _, _, hframe, hparse, horder, rfl, Int.toNat_of_nonneg hready.qty.1.le, rfl,
    rfl, rfl, ?_⟩
  show (((if intent.displayQty = intent.qty then 0 else intent.displayQty).toNat : ℕ) : ℤ) = _
  rw [hpeak]
  exact Int.toNat_of_nonneg hready.display_nonneg

/-- An iceberg that is filled in. -/
def icebergTicket : Ticket :=
  { priceInput := lit "150.2", qtyInput := lit " 10", displayInput := lit "4" }

/-- An iceberg of 10 that shows 4, to buy at 150.20. -/
def icebergIntent : OrderIntent := ⟨.buy, .limit, .gtc, 1502000, 10, 4⟩

/-- The venue takes the iceberg. -/
theorem submit_taken_iceberg :
    ∃ frame p' event o, newOrderFrame 7 icebergIntent = .ok frame ∧
      ({} : FixParser).parse (fixOf frame) 0 (fixOf frame).length OrderGateway.idle.scratch =
      .ok (p', some event) ∧
      MatchingEngineHandler.order { event with timestamp := 1 } = .ok o ∧
      o.side = icebergIntent.side ∧
      (o.quantity : ℤ) = icebergIntent.qty ∧ o.ordType = icebergIntent.ordType ∧
      o.tif = icebergIntent.tif ∧
      o.price = (if icebergIntent.ordType = .pegMid then Prices.na else icebergIntent.pricePx) ∧
      (o.peak : ℤ) = icebergIntent.displayQty := by
  have hsubmit : submit false icebergTicket = ({}, some icebergIntent) := by decide +kernel
  exact submit_taken hsubmit (by decide) ⟨by decide, by decide⟩ (by decide) {}
    OrderGateway.idle.scratch

/-! ## The price -/

/-- The refusals of the constructor that are for the price. -/
def priceRefusals : List Exn :=
  [.illegalArgument "Price must be positive", .illegalArgument "Price must be on the one-cent tick",
    .illegalArgument "A midpoint peg order carries no price (expected Prices.NA)"]

/-- An order is built with a price, or it is refused but not for the price. -/
def KeepsPrice (px : ℤ) : Except Exn Order → Prop
  | .ok o => o.price = px
  | .error e => e ∉ priceRefusals

/-- A check that fails for another reason than the price keeps the price, and what follows it keeps
it where it does. -/
theorem KeepsPrice.guard {c : Prop} [Decidable c] {px : ℤ} {e : Exn} {x : Except Exn Order}
    (he : e ∉ priceRefusals) (h : KeepsPrice px x) : KeepsPrice px (if c then .error e else x) := by
  split_ifs
  · exact he
  · exact h

/-- A limit order with a positive price on the tick keeps it. -/
theorem order_keepsPrice {event : OrderEvent} (htype : event.ordType = some .limit)
    (hpos : 0 < event.price) (htick : event.price % 100 = 0) :
    KeepsPrice event.price (MatchingEngineHandler.order event) := by
  have honTick : Prices.isOnTick event.price = true := (Prices.isOnTick_iff _).mpr ⟨hpos, htick⟩
  unfold MatchingEngineHandler.order Order.new
  rw [htype]
  refine .guard (by decide) (.guard (by decide) (.guard (by decide) (.guard (by decide) ?_)))
  cases event.side with
  | none => exact show _ ∉ priceRefusals by decide
  | some side =>
    -- The checks of the price pass, and those behind them are of the display size.
    simp only [Option.getD_some, true_and, if_neg (Int.not_le.mpr hpos), honTick, not_true_eq_false,
      reduceCtorEq, false_and, if_false]
    exact .guard (by decide) (.guard (by decide) (.guard (by decide) rfl))

/-- A price in units is what was typed, and it stays what it is up to the engine. -/
structure Traded (s : Text) (px : ℕ) : Prop where
  /-- It is ten thousand times the decimal that was typed. -/
  written : ∃ d : Decimal 2, d.text digitUnit point = trim s ∧ (px : ℚ) = 10000 * d.value
  /-- The price is positive. -/
  positive : 0 < px
  /-- It is on the tick. -/
  onTick : 100 ∣ px
  /-- It is a safe integer. -/
  safe : px ≤ 2^53 - 1
  /-- The frame carries it, and the gateway parses what the server prints of it as the same. -/
  carried : ∀ (clOrdId : ℤ) (intent : OrderIntent), PositiveSafe clOrdId → PositiveSafe intent.qty →
    intent.ordType = .limit → intent.pricePx = px →
    ∃ frame, newOrderFrame clOrdId intent = .ok frame ∧ frame.price = px ∧
      FixParser.parsePrice (getBytes (JsonToFix.formatPrice (asLong frame.price))) 0
        (getBytes (JsonToFix.formatPrice (asLong frame.price))).length = .ok px
  /-- A limit order of the ticket passes the gateway with it, and the handler keeps it. -/
  traded : ∀ (disabled : Bool) (t t' : Ticket) (intent : OrderIntent), t.priceInput = s →
    t.ordType = .limit →
    submit disabled t = (t', some intent) → ∀ clOrdId, PositiveSafe clOrdId →
    ∀ (p : FixParser) (target : OrderEvent),
    ∃ frame p' event, newOrderFrame clOrdId intent = .ok frame ∧
      p.parse (fixOf frame) 0 (fixOf frame).length target = .ok (p', some event) ∧
      event.price = px ∧
      ∀ timestamp, KeepsPrice px (MatchingEngineHandler.order { event with timestamp })

/-- The price that was typed is the price that is traded. -/
theorem price_typed_traded {s : Text} {px : ℕ} (h : parsePrice s = some px) : Traded s px := by
  obtain ⟨hsafe, htick⟩ := parsePrice_onTick h
  have hlong := asLong_val hsafe.1.le hsafe.2
  obtain ⟨d, hd, hunits, hpos, hmax⟩ := parsePrice_eq_some.mp h
  have hmaximum : px ≤ 2^53 - 1 := by
    unfold Double.maxSafe Double.precision at hmax
    exact hmax
  refine ⟨⟨d, hd, ?_⟩, hpos, by omega, hmaximum, ?_, ?_⟩
  · have hvalue := d.scaled_eq_value (k := 4) (by decide)
    rw [hunits, hvalue]
    norm_num
  · intro clOrdId intent hid hqty hlimit hprice
    have hframe := newOrderFrame_eq hid hqty fun _ => hprice ▸ hsafe
    have hne : intent.ordType ≠ .pegMid := by simp [hlimit]
    rw [if_neg hne] at hframe
    refine ⟨_, hframe, hprice, ?_⟩
    have hprinted : (asLong intent.pricePx).1 = px := by rw [hprice, hlong]
    have hread := JsonToFix.priceOf_onTick hsafe.1 htick (hlong ▸ (asLong px).2.2)
    show FixParser.parsePrice (getBytes (JsonToFix.formatPrice (asLong intent.pricePx).1)) 0 _ = _
    rw [hprinted, Wire.parsePrice_eq (le_refl _), Wire.window, Nat.sub_zero, List.drop_zero,
      List.take_length, hread]
  · intro disabled t t' intent hs hlimit hsubmit clOrdId hid p target
    obtain ⟨hready, -, htype, -, hpriced⟩ := submit_ready hsubmit
    obtain ⟨px', hpx', hpricePx⟩ := hpriced hlimit
    have hsame : px' = px := by
      rw [hs, h] at hpx'
      exact (Option.some.inj hpx').symm
    obtain ⟨frame, p', hframe, hparse⟩ := parse_ready hready hid p target
    have hprice : (eventOf clOrdId intent target).price = px := by
      have hne : intent.ordType ≠ .pegMid := by simp [htype, hlimit]
      rw [← hsame, ← hpricePx]
      exact if_neg hne
    refine ⟨frame, p', _, hframe, hparse, hprice, fun timestamp => ?_⟩
    have hkeeps := @order_keepsPrice { eventOf clOrdId intent target with timestamp }
      (congrArg some (htype.trans hlimit)) (hprice ▸ hsafe.1) (hprice ▸ htick)
    exact hprice ▸ hkeeps

/-- `150.25` is traded as typed. -/
theorem price_typed_traded_cents : Traded (lit " 150.25 ") 1502500 :=
  price_typed_traded (by decide +kernel)

end Terminal

end MatchingVenue
