import MatchingVenue.Library.Throwing
import MatchingVenue.Library.Word

/-!
# Orders

The domain model of the venue: `Prices`, the enumerations, `Order` with its constructor and its
three state changes, and `Trade`. The constructor is where domain validation fires, so its checks
stand in the source's order with the source's messages, and `Order.Valid` collects what an order
that passed them keeps for the rest of its life.
-/

namespace MatchingVenue

/-- What the source throws, and what the model adds for a loop that would not end. -/
inductive Exn where
  /-- `IllegalArgumentException`, with its message. -/
  | illegalArgument (message : String)
  /-- `NoSuchElementException`, thrown by `getFirst` on an empty deque. -/
  | noSuchElement
  /-- `ArrayIndexOutOfBoundsException`. -/
  | indexOutOfBounds
  /-- A loop that has not ended within its bound. -/
  | diverged
  deriving DecidableEq, Repr

namespace Prices

/-- Units per dollar. -/
def scale : ℤ := 10000

/-- The least increment of a limit price, one cent. -/
def tick : ℤ := 100

/-- The sentinel of an absent price. -/
def na : ℤ := -1

/-- Whether a price is positive and on the one-cent tick. -/
def isOnTick (price : ℤ) : Bool := decide (price > 0) && price % tick == 0

@[simp]
theorem isOnTick_iff (price : ℤ) : isOnTick price = true ↔ 0 < price ∧ price % 100 = 0 := by
  simp only [isOnTick, tick, gt_iff_lt, Bool.and_eq_true, decide_eq_true_eq, beq_iff_eq]

end Prices

/-- The side of an order. -/
inductive Side where
  | buy
  | sell
  deriving DecidableEq, Repr

/-- The side that an order of this side trades with. -/
def Side.opposite : Side → Side
  | .buy => .sell
  | .sell => .buy

@[simp]
theorem Side.opposite_opposite (side : Side) : side.opposite.opposite = side := by
  cases side <;> rfl

@[simp]
theorem Side.opposite_ne (side : Side) : side.opposite ≠ side := by
  cases side <;> decide

@[simp]
theorem Side.ne_opposite (side : Side) : side ≠ side.opposite := side.opposite_ne.symm

/-- There are two sides. -/
theorem Side.eq_opposite_of_ne {x side : Side} (h : x ≠ side) : x = side.opposite := by
  cases x <;> cases side <;> simp_all [Side.opposite]

/-- Time in force: good til cancelled, immediate or cancel, fill or kill. -/
inductive TimeInForce where
  | gtc
  | ioc
  | fok
  deriving DecidableEq, Repr

/-- Order type: a priced lit order, or a midpoint peg. -/
inductive OrdType where
  | limit
  | pegMid
  deriving DecidableEq, Repr

/-- The status of an order. -/
inductive Status where
  | «open»
  | partiallyFilled
  | filled
  | cancelled
  | expired
  deriving DecidableEq, Repr

/-- An order. `quantity` is what remains of it, `peak` its iceberg display size (`0` for a plain
order) and `visibleQty` the slice currently displayed. -/
structure Order where
  orderID : ℤ
  timeStamp : ℤ
  side : Side
  quantity : ℕ
  price : ℤ
  status : Status
  participantID : ℤ
  tif : TimeInForce
  peak : ℕ
  visibleQty : ℕ
  ordType : OrdType
  deriving DecidableEq, Repr

/-- One execution. -/
structure Trade where
  tradeId : ℤ
  buyOrderId : ℤ
  sellOrderId : ℤ
  buyParticipantId : ℤ
  sellParticipantId : ℤ
  price : ℤ
  quantity : ℕ
  deriving DecidableEq, Repr

namespace Order

/-- The displayed slice, computed again from the quantity and the display size. -/
def refreshDisplay (o : Order) : Order :=
  { o with visibleQty := if o.peak > 0 then min o.peak o.quantity else o.quantity }

/-- The constructor, with its checks in the source's order. The reference types may be `null`, and
`quantity` and `peak` are the source's `int`s, which may be negative. -/
def new (orderID timeStamp : ℤ) (side : Option Side) (quantity price participantID : ℤ)
    (tif : Option TimeInForce) (peak : ℤ) (ordType : Option OrdType) : Except Exn Order :=
  if orderID ≤ 0 then .error (.illegalArgument "model.Order ID must be positive")
  else if timeStamp ≤ 0 then .error (.illegalArgument "Timestamp must be positive")
  else if participantID ≤ 0 then .error (.illegalArgument "Participant ID must be positive")
  else if quantity ≤ 0 then .error (.illegalArgument "Quantity must be positive")
  else match side, tif, ordType with
  | none, _, _ => .error (.illegalArgument "model.Side cannot be null")
  | some _, none, _ => .error (.illegalArgument "Time in force cannot be null")
  | some _, some _, none => .error (.illegalArgument "Order type cannot be null")
  | some side, some tif, some ordType =>
    if ordType = .limit ∧ price ≤ 0 then
      .error (.illegalArgument "Price must be positive")
    else if ordType = .limit ∧ ¬ Prices.isOnTick price then
      .error (.illegalArgument "Price must be on the one-cent tick")
    else if ordType = .pegMid ∧ price ≠ Prices.na then
      .error (.illegalArgument "A midpoint peg order carries no price (expected Prices.NA)")
    else if ordType = .pegMid ∧ peak ≠ 0 then
      .error (.illegalArgument "A midpoint peg order cannot be an iceberg")
    else if peak < 0 then
      .error (.illegalArgument "Display quantity cannot be negative")
    else if peak > quantity then
      .error (.illegalArgument "Display quantity cannot exceed order quantity")
    else
      -- A peak of the whole quantity hides nothing, and is dropped before the time-in-force rule.
      let peak := if peak = quantity then 0 else peak
      if peak > 0 ∧ tif ≠ .gtc then
        .error (.illegalArgument "An iceberg order must be GTC")
      else
        .ok (refreshDisplay
          { orderID, timeStamp, side, quantity := quantity.toNat, price, status := .open,
            participantID, tif, peak := peak.toNat, visibleQty := 0, ordType })

/-- The order after a fill of `fillQty`, for a quantity that `fill` accepts. -/
def filled (o : Order) (fillQty : ℕ) : Order :=
  { o with
    quantity := o.quantity - fillQty
    visibleQty := o.visibleQty - min fillQty o.visibleQty
    status := if o.quantity - fillQty = 0 then .filled else .partiallyFilled }

/-- Executes `fillQty` of the order. -/
def fill (o : Order) (fillQty : ℕ) : Except Exn Order :=
  if fillQty = 0 then .error (.illegalArgument "Fill quantity must be positive")
  else if fillQty > o.quantity then
    .error (.illegalArgument "Fill quantity exceeds remaining quantity")
  else .ok (o.filled fillQty)

/-- Marks the order cancelled. Its quantity stays. -/
def cancel (o : Order) : Order := { o with status := .cancelled }

/-- Marks the order expired. Its quantity stays, as the amount that expired. -/
def expire (o : Order) : Order := { o with status := .expired }

/-- `fill` returns exactly for the quantities from one to what remains. -/
theorem fill_eq_ok {o o' : Order} {fillQty : ℕ} :
    o.fill fillQty = .ok o' ↔ 0 < fillQty ∧ fillQty ≤ o.quantity ∧ o' = o.filled fillQty := by
  unfold fill
  split_ifs with h0 hle
  · simp [h0]
  · simp only [false_iff]
    omega
  · simp only [Except.ok.injEq]
    constructor
    · rintro rfl
      exact ⟨by omega, by omega, rfl⟩
    · rintro ⟨-, -, rfl⟩
      rfl

/-- `fill` does not throw on a positive quantity that the order has. -/
theorem fill_of_le (o : Order) {fillQty : ℕ} (hpos : 0 < fillQty) (hle : fillQty ≤ o.quantity) :
    o.fill fillQty = .ok (o.filled fillQty) :=
  fill_eq_ok.mpr ⟨hpos, hle, rfl⟩

section Fields

variable (o : Order) (m : ℕ)

@[simp] theorem filled_orderID : (o.filled m).orderID = o.orderID := rfl
@[simp] theorem filled_timeStamp : (o.filled m).timeStamp = o.timeStamp := rfl
@[simp] theorem filled_side : (o.filled m).side = o.side := rfl
@[simp] theorem filled_quantity : (o.filled m).quantity = o.quantity - m := rfl
@[simp] theorem filled_price : (o.filled m).price = o.price := rfl
@[simp] theorem filled_participantID : (o.filled m).participantID = o.participantID := rfl
@[simp] theorem filled_tif : (o.filled m).tif = o.tif := rfl
@[simp] theorem filled_peak : (o.filled m).peak = o.peak := rfl
@[simp] theorem filled_ordType : (o.filled m).ordType = o.ordType := rfl

@[simp] theorem filled_visibleQty : (o.filled m).visibleQty = o.visibleQty - m := by
  simp only [filled]
  omega

@[simp] theorem refreshDisplay_orderID : o.refreshDisplay.orderID = o.orderID := rfl
@[simp] theorem refreshDisplay_side : o.refreshDisplay.side = o.side := rfl
@[simp] theorem refreshDisplay_quantity : o.refreshDisplay.quantity = o.quantity := rfl
@[simp] theorem refreshDisplay_price : o.refreshDisplay.price = o.price := rfl
@[simp] theorem refreshDisplay_tif : o.refreshDisplay.tif = o.tif := rfl
@[simp] theorem refreshDisplay_peak : o.refreshDisplay.peak = o.peak := rfl
@[simp] theorem refreshDisplay_ordType : o.refreshDisplay.ordType = o.ordType := rfl
@[simp] theorem cancel_orderID : o.cancel.orderID = o.orderID := rfl
@[simp] theorem cancel_quantity : o.cancel.quantity = o.quantity := rfl
@[simp] theorem expire_orderID : o.expire.orderID = o.orderID := rfl
@[simp] theorem expire_quantity : o.expire.quantity = o.quantity := rfl

end Fields

/-- What the constructor establishes and every state change keeps: the identifiers are positive, the
price and the display size fit the order type and the time in force, and the displayed slice is at
most the quantity, the whole of it for a plain order and at most the peak for an iceberg. -/
structure Valid (o : Order) : Prop where
  orderID_pos : 0 < o.orderID
  timeStamp_pos : 0 < o.timeStamp
  limit_price : o.ordType = .limit → 0 < o.price ∧ o.price % 100 = 0
  peg_price : o.ordType = .pegMid → o.price = Prices.na ∧ o.peak = 0
  iceberg_tif : 0 < o.peak → o.tif = .gtc
  plain_visible : o.peak = 0 → o.visibleQty = o.quantity
  iceberg_visible : 0 < o.peak → o.visibleQty ≤ o.peak ∧ o.visibleQty ≤ o.quantity

/-- The displayed slice never exceeds the quantity. -/
theorem Valid.visible_le {o : Order} (h : o.Valid) : o.visibleQty ≤ o.quantity := by
  rcases Nat.eq_zero_or_pos o.peak with hp | hp
  · exact Nat.le_of_eq (h.plain_visible hp)
  · exact (h.iceberg_visible hp).2

/-- A fill keeps an order valid. -/
theorem Valid.filled {o : Order} (h : o.Valid) (m : ℕ) : (o.filled m).Valid where
  orderID_pos := h.orderID_pos
  timeStamp_pos := h.timeStamp_pos
  limit_price := h.limit_price
  peg_price := h.peg_price
  iceberg_tif := h.iceberg_tif
  plain_visible := by
    intro hp
    have := h.plain_visible hp
    simp only [filled_visibleQty, filled_quantity]
    omega
  iceberg_visible := by
    intro hp
    have := h.iceberg_visible hp
    simp only [filled_visibleQty, filled_quantity, filled_peak] at hp ⊢
    omega

/-- A refreshed display keeps an order valid. -/
theorem Valid.refreshDisplay {o : Order} (h : o.Valid) : o.refreshDisplay.Valid where
  orderID_pos := h.orderID_pos
  timeStamp_pos := h.timeStamp_pos
  limit_price := h.limit_price
  peg_price := h.peg_price
  iceberg_tif := h.iceberg_tif
  plain_visible := by
    intro hp
    simp only [refreshDisplay_peak] at hp
    simp [Order.refreshDisplay, hp]
  iceberg_visible := by
    intro hp
    simp only [refreshDisplay_peak] at hp
    simp only [Order.refreshDisplay, gt_iff_lt, hp, if_true]
    omega

/-- A refreshed display shows something of an order that has something left. -/
theorem refreshDisplay_visible_pos {o : Order} (h : 0 < o.quantity) :
    0 < o.refreshDisplay.visibleQty := by
  simp only [Order.refreshDisplay]
  split_ifs <;> omega

/-- The checks of the constructor on arguments that are not `null`, as one condition: what a new
order must satisfy. -/
structure Admissible (orderID timeStamp quantity price participantID : ℤ) (tif : TimeInForce)
    (peak : ℤ) (ordType : OrdType) : Prop where
  orderID_pos : 0 < orderID
  timeStamp_pos : 0 < timeStamp
  participantID_pos : 0 < participantID
  quantity_pos : 0 < quantity
  limit_price : ordType = .limit → 0 < price ∧ price % 100 = 0
  peg_price : ordType = .pegMid → price = Prices.na ∧ peak = 0
  peak_nonneg : 0 ≤ peak
  peak_le : peak ≤ quantity
  iceberg_tif : 0 < peak → peak ≠ quantity → tif = .gtc

/-- The order that the constructor builds from admissible arguments. -/
def built (orderID timeStamp : ℤ) (side : Side) (quantity price participantID : ℤ)
    (tif : TimeInForce) (peak : ℤ) (ordType : OrdType) : Order :=
  refreshDisplay
    { orderID, timeStamp, side, quantity := quantity.toNat, price, status := .open, participantID,
      tif, peak := (if peak = quantity then 0 else peak).toNat, visibleQty := 0, ordType }

/-- The constructor returns exactly on admissible arguments. -/
theorem new_eq_ok_iff {orderID timeStamp quantity price participantID peak : ℤ} {side : Side}
    {tif : TimeInForce} {ordType : OrdType} {o : Order} :
    new orderID timeStamp (some side) quantity price participantID (some tif) peak (some ordType)
        = .ok o ↔
      Admissible orderID timeStamp quantity price participantID tif peak ordType ∧
        o = built orderID timeStamp side quantity price participantID tif peak ordType := by
  simp only [new, ite_error_eq_ok, Except.ok.injEq, not_and, Int.not_le, Int.not_lt, ne_eq,
    Classical.not_not, Classical.not_imp, Prices.isOnTick_iff, gt_iff_lt]
  constructor
  · rintro ⟨hid, hts, hpid, hqty, hlim, htick, hna, hpk, hpeak, hle, htif, rfl⟩
    refine ⟨⟨hid, hts, hpid, hqty, htick, fun h => ⟨hna h, hpk h⟩, hpeak, hle, ?_⟩, rfl⟩
    intro hpos hne
    -- A display size of the whole quantity is dropped before the check of the time in force.
    rw [if_neg hne] at htif
    exact htif hpos
  · rintro ⟨⟨hid, hts, hpid, hqty, hlim, hpeg, hpeak, hle, htif⟩, rfl⟩
    refine ⟨hid, hts, hpid, hqty, fun h => (hlim h).1, hlim, fun h => (hpeg h).1,
      fun h => (hpeg h).2, hpeak, hle, ?_, rfl⟩
    split_ifs with heq
    · simp
    · exact fun hpos => htif hpos heq

/-- The constructor returns only on arguments that are not `null`. -/
theorem exists_of_new_eq_ok {orderID timeStamp quantity price participantID peak : ℤ}
    {side : Option Side} {tif : Option TimeInForce} {ordType : Option OrdType} {o : Order}
    (h : new orderID timeStamp side quantity price participantID tif peak ordType = .ok o) :
    ∃ side' tif' ordType', side = some side' ∧ tif = some tif' ∧ ordType = some ordType' := by
  rcases side with - | side <;> rcases tif with - | tif <;> rcases ordType with - | ordType <;>
    simp [new, ite_error_eq_ok] at h ⊢

/-- A computation that throws nothing but `IllegalArgumentException`. -/
def Refuses (x : Except Exn Order) : Prop := ∀ e, x = .error e → ∃ message,
    e = .illegalArgument message

/-- An order that is built is no refusal. -/
theorem Refuses.ok (o : Order) : Refuses (.ok o) := fun _ h => by simp at h

/-- An illegal argument is a refusal. -/
theorem Refuses.error (message : String) : Refuses (.error (.illegalArgument message)) :=
  fun _ h => ⟨message, (Except.error.inj h).symm⟩

/-- A check that throws an illegal argument refuses, and what follows it refuses where it does. -/
theorem Refuses.guard {c : Prop} [Decidable c] {message : String} {x : Except Exn Order}
    (h : Refuses x) : Refuses (if c then .error (.illegalArgument message) else x) := by
  split_ifs
  · exact .error message
  · exact h

/-- The constructor throws nothing but `IllegalArgumentException`. -/
theorem new_refuses (orderID timeStamp : ℤ) (side : Option Side) (quantity price participantID : ℤ)
    (tif : Option TimeInForce) (peak : ℤ) (ordType : Option OrdType) :
    Refuses (new orderID timeStamp side quantity price participantID tif peak ordType) := by
  refine .guard (.guard (.guard (.guard ?_)))
  split
  · exact .error _
  · exact .error _
  · exact .error _
  · exact .guard (.guard (.guard (.guard (.guard (.guard (.guard (.ok _)))))))

/-- An order built from admissible arguments is valid. -/
theorem valid_built {orderID timeStamp quantity price participantID peak : ℤ} {side : Side}
    {tif : TimeInForce} {ordType : OrdType}
    (h : Admissible orderID timeStamp quantity price participantID tif peak ordType) :
    (built orderID timeStamp side quantity price participantID tif peak ordType).Valid where
  orderID_pos := h.orderID_pos
  timeStamp_pos := h.timeStamp_pos
  limit_price := h.limit_price
  peg_price := by
    intro hpeg
    obtain ⟨hna, hpeak⟩ := h.peg_price hpeg
    exact ⟨hna, by simp [built, hpeak]⟩
  iceberg_tif := by
    intro hpos
    simp only [built, refreshDisplay_peak] at hpos
    split_ifs at hpos with heq
    · simp at hpos
    · exact h.iceberg_tif (by omega) heq
  plain_visible := by
    intro hpeak
    simp only [built, refreshDisplay_peak] at hpeak
    simp [built, Order.refreshDisplay, hpeak]
  iceberg_visible := by
    intro hpos
    simp only [built, refreshDisplay_peak] at hpos
    simp only [built, Order.refreshDisplay, gt_iff_lt, hpos, if_true]
    omega

/-- An order that the constructor accepts, as the callers of the engine pass it. -/
def Constructed (o : Order) : Prop :=
  ∃ orderID timeStamp side quantity price participantID tif peak ordType,
    new orderID timeStamp side quantity price participantID tif peak ordType = .ok o

/-- A constructed order is valid and has something to trade. -/
theorem Constructed.valid {o : Order} (h : o.Constructed) : o.Valid ∧ 0 < o.quantity := by
  obtain ⟨orderID, timeStamp, side, quantity, price, participantID, tif, peak, ordType, h⟩ := h
  obtain ⟨side, tif, ordType, rfl, rfl, rfl⟩ := exists_of_new_eq_ok h
  obtain ⟨hadm, rfl⟩ := new_eq_ok_iff.mp h
  refine ⟨valid_built hadm, ?_⟩
  have := hadm.quantity_pos
  simp only [built, refreshDisplay_quantity]
  omega

/-- A constructed order is open. -/
theorem Constructed.status {o : Order} (h : o.Constructed) : o.status = .open := by
  obtain ⟨orderID, timeStamp, side, quantity, price, participantID, tif, peak, ordType, h⟩ := h
  obtain ⟨side, tif, ordType, rfl, rfl, rfl⟩ := exists_of_new_eq_ok h
  obtain ⟨-, rfl⟩ := new_eq_ok_iff.mp h
  rfl

end Order

end MatchingVenue
