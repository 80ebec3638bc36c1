import MatchingVenue.Library.Rounding
import MatchingVenue.Terminal.OrderEntry

/-!
# Prices that are not typed

A chip, a nudge or a click on the depth curve puts a price in units into the ticket. It does so
through the one seam that typing goes through: the price is printed into the field of the price, and
read from there at the submit. So what is submitted is the price in units or nothing
(`submitsAt_formatPrice`), for the print is exact and the ticket reads it back.
-/

namespace MatchingVenue

namespace Terminal

open Text

/-- One cent in units. -/
def tickPx : ℤ := 100

/-- The price of the mid chip: the midpoint, or the next price on the tick above it. -/
def midChipPx (bestBid bestAsk : ℤ) : Option ℤ :=
  if bestBid ≤ 0 ∨ bestAsk ≤ 0 then none
  else
    let mid : ℚ := (Double.add bestBid bestAsk : ℤ) / 2
    some (Double.ofInt (⌈Double.round (mid / tickPx)⌉ * tickPx))

/-- A price that is nudged by some ticks, and not below one. -/
def nudgePx (px steps tick : ℤ) : ℤ := max tick (Double.add px (Double.ofInt (steps * tick)))

/-- Writes a price into the ticket. -/
def applyPrice (t : Ticket) (pricePx : ℤ) : Ticket :=
  { t with priceInput := formatPrice pricePx, error := none }

/-- What writes a price: the chips, the nudges, and the depth curve through the handle of the
ticket. -/
inductive Affordance where
  | bidChip
  | midChip
  | askChip
  | nudge (steps : ℤ)
  | setPrice (pricePx : ℤ)

/-- The price that is written. The buttons of a peg and those of a disabled ticket write none. -/
def writtenPx (disabled : Bool) (bestBidPx bestAskPx : ℤ) (t : Ticket) : Affordance → Option ℤ
  | .bidChip => if disabled ∨ t.ordType = .pegMid ∨ bestBidPx ≤ 0 then none else some bestBidPx
  | .midChip => if disabled ∨ t.ordType = .pegMid then none else midChipPx bestBidPx bestAskPx
  | .askChip => if disabled ∨ t.ordType = .pegMid ∨ bestAskPx ≤ 0 then none else some bestAskPx
  | .nudge steps =>
    if disabled ∨ t.ordType = .pegMid then none
    else (parsePrice t.priceInput).map fun current => nudgePx current steps tickPx
  | .setPrice pricePx => some pricePx

/-- The ticket after one of them. -/
def press (disabled : Bool) (bestBidPx bestAskPx : ℤ) (t : Ticket) (a : Affordance) : Ticket :=
  match writtenPx disabled bestBidPx bestAskPx t a with
  | some pricePx => applyPrice t pricePx
  | none => t

/-- A text is that of a price in units: a decimal that comes to it, with at least two digits behind
the point and at most four, and no zero at the end beyond the second. -/
def Printed (s : Text) (px : ℕ) : Prop :=
  ∃ d : Decimal 4, s = d.text digitUnit point ∧ d.value = (px : ℚ) / 10000 ∧ d.Trimmed 2

/-- A limit order of a ticket with this text as its price is submitted at the price, which is
positive and on the tick, or not at all. -/
def SubmitsAt (s : Text) (px : ℕ) : Prop :=
  ∀ (disabled : Bool) (t t' : Ticket) (intent : OrderIntent), t.priceInput = s →
    t.ordType = .limit →
    submit disabled t = (t', some intent) → intent.pricePx = px ∧ 0 < px ∧ 100 ∣ px

/-- What `formatPrice` writes prints the price. -/
theorem printed_formatPrice (px : ℕ) : Printed (formatPrice px) px := by
  obtain ⟨d, htext, hscaled, htrimmed⟩ := formatPrice_eq px
  have hvalue := d.scaled_eq_value (le_refl 4)
  rw [hscaled] at hvalue
  refine ⟨d, htext, ?_, htrimmed⟩
  rw [hvalue]
  norm_num

/-- A text is that of one price. -/
theorem Printed.unique {s : Text} {px px' : ℕ} (h : Printed s px) (h' : Printed s px') :
    px = px' := by
  obtain ⟨d, rfl, hvalue, -⟩ := h
  obtain ⟨e, htext, hvalue', -⟩ := h'
  obtain rfl : d = e := Decimal.text_injective digitUnit_injective digitUnit_ne_point htext
  have hsame : (px : ℚ) / 10000 = (px' : ℚ) / 10000 := hvalue.symm.trans hvalue'
  exact_mod_cast (div_left_inj' (by norm_num)).mp hsame

/-- What `formatPrice` writes of a safe price is submitted at that price. -/
theorem submitsAt_formatPrice {px : ℕ} (h : px ≤ Double.maxSafe) :
    SubmitsAt (formatPrice px) px := by
  intro disabled t t' intent htext hlimit hsubmit
  obtain ⟨-, -, -, -, hpriced⟩ := submit_ready hsubmit
  obtain ⟨units, hread, hprice⟩ := hpriced hlimit
  rw [htext, parsePrice_formatPrice h] at hread
  split_ifs at hread with htick
  obtain rfl := Option.some.inj hread
  exact ⟨hprice, htick⟩

/-- A price that is printed is exact, and reading is the inverse of printing: the text comes to the
price and to no other, it is read as the price where that is positive and on the tick and else
refused, and so whatever writes a price into the ticket has it submitted at that price or not at
all. -/
theorem formatPrice_exact {px : ℕ} (h : px ≤ Double.maxSafe) :
    Printed (formatPrice px) px ∧
    (∀ other : ℕ, other ≤ Double.maxSafe → formatPrice other = formatPrice px → other = px) ∧
    parsePrice (formatPrice px) = (if 0 < px ∧ 100 ∣ px then some px else none) ∧
    ∀ (disabled : Bool) (bestBidPx bestAskPx : ℤ) (t : Ticket) (a : Affordance),
      writtenPx disabled bestBidPx bestAskPx t a = some (px : ℤ) →
        SubmitsAt (press disabled bestBidPx bestAskPx t a).priceInput px := by
  refine ⟨printed_formatPrice px, fun other _ hsame => ?_, parsePrice_formatPrice h, ?_⟩
  · exact (printed_formatPrice other).unique (hsame ▸ printed_formatPrice px)
  · intro disabled bestBidPx bestAskPx t a hwritten
    have hpressed : (press disabled bestBidPx bestAskPx t a).priceInput = formatPrice px := by
      rw [press, hwritten]
      rfl
    rw [hpressed]
    exact submitsAt_formatPrice h

/-- The mid of a bid of `150.00` and an ask of `150.01` has half a cent. It is printed in full and
not read as a price, and the chip of the mid writes the next price on the tick. -/
theorem formatPrice_exact_mid :
    Printed (formatPrice 1500050) 1500050 ∧ parsePrice (formatPrice 1500050) = none ∧
      SubmitsAt (press false 1500000 1500100 {} .midChip).priceInput 1500100 := by
  obtain ⟨hprinted, -, hread, -⟩ := @formatPrice_exact 1500050 (by decide)
  obtain ⟨-, -, -, hsubmits⟩ := @formatPrice_exact 1500100 (by decide)
  exact ⟨hprinted, hread, hsubmits false 1500000 1500100 {} .midChip (by decide +kernel)⟩

end Terminal

end MatchingVenue
