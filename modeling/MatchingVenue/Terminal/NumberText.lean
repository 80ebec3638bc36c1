import MatchingVenue.Library.Rounding
import MatchingVenue.Terminal.Format

/-!
# The texts of numbers

How a number that is no integer is printed, and the clock. `numberText` is what the language makes
of a number, the shortest digits that are read as it, and `toFixed` rounds it to some places. An
integer of 53 bits has its digits as its text (`numberText_intCast`).
-/

namespace MatchingVenue

namespace Terminal

open Text

/-- The digits of a positive number and its number of digits before the point: of the shortest
digits that are read as the number, those nearest to it. The search is over `width`, and 17 digits
always do. -/
def shortestFrom (x : ℚ) (before : ℤ) : ℕ → ℕ → ℕ × ℤ
  | 0, width => ((Double.roundEven (x / 10 ^ (before - width))).natAbs, before)
  | fuel + 1, width =>
    let s := (Double.roundEven (x / 10 ^ (before - width))).natAbs
    if Double.round (s * 10 ^ (before - width)) = x then
      -- The digits may have gone up to the next power of ten.
      if s = 10 ^ width then (1, before + 1) else (s, before)
    else shortestFrom x before fuel (width + 1)

/-- The shortest digits of a positive number. -/
def shortestDigits (x : ℚ) : ℕ × ℤ := shortestFrom x (Int.log 10 x + 1) 16 1

/-- The text of a positive number with these digits, of which so many are before the point. -/
def digitsText (s : ℕ) (before : ℤ) : Text :=
  let ds := digits s
  if ds.length ≤ before ∧ before ≤ 21 then ds ++ List.replicate (before - ds.length).toNat zero
  else if 0 < before ∧ before ≤ 21 then ds.take before.toNat ++ point :: ds.drop before.toNat
  else if -6 < before ∧ before ≤ 0 then zero :: point :: (List.replicate before.natAbs zero ++ ds)
  else
    let exponent := lit "e" ++ (if 0 < before then lit "+" else []) ++ toText (before - 1)
    match ds with
    | [d] => d :: exponent
    | d :: rest => d :: point :: (rest ++ exponent)
    | [] => exponent

/-- `String` of a number. -/
def numberText (x : ℚ) : Text :=
  if x.den = 1 ∧ x.num.natAbs < 2 ^ Double.precision then toText x.num
  else
    let (s, before) := shortestDigits |x|
    if x < 0 then minus :: digitsText s before else digitsText s before

/-- `Number.prototype.toFixed`. -/
def toFixed (places : ℕ) (x : ℚ) : Text :=
  if 10 ^ 21 ≤ |x| then numberText x
  else
    -- Of two integers that are as near the larger one is taken.
    let n := ⌊|x| * 10 ^ places + 1 / 2⌋
    let ds := pad (places + 1) (toText n)
    let text := if places = 0 then ds
      else ds.take (ds.length - places) ++ point :: ds.drop (ds.length - places)
    if x < 0 then minus :: text else text

/-- A time of day. -/
structure LocalTime where
  hours : ℕ
  minutes : ℕ
  seconds : ℕ
  milliseconds : ℕ

/-- How precise the text of a time is. -/
inductive ClockPrecision where
  | ms
  | ns
  deriving DecidableEq, Repr

/-- The text of a time of the engine's clock. `localTime` is the time of day of the browser at some
milliseconds of the epoch. -/
def formatClockNanos (localTime : ℤ → LocalTime) (nanos : ℤ) (precision : ClockPrecision) : Text :=
  if nanos ≤ 0 then emptyPrice
  else
    let d := localTime ⌊Double.round (nanos / 1000000)⌋
    let hms := pad 2 (digits d.hours) ++ lit ":" ++ pad 2 (digits d.minutes) ++ lit ":" ++
      pad 2 (digits d.seconds)
    match precision with
    | .ms => hms ++ point :: pad 3 (digits d.milliseconds)
    | .ns => hms ++ point :: pad 9 (toText (nanos % 1000000000))

/-- The text of an integer of 53 bits. -/
theorem numberText_intCast {n : ℤ} (h : n.natAbs < 2 ^ Double.precision) :
    numberText n = toText n := by
  rw [numberText, if_pos ⟨Rat.den_intCast n, h⟩, Rat.num_intCast]

/-- The texts of a half, of a number with an exponent, and of two thirds with two places. -/
example : numberText (1 / 2) = lit "0.5" ∧ numberText (10 ^ 22) = lit "1e+22" ∧
    numberText (Double.round (1 / 10)) = lit "0.1" ∧
      toFixed 2 (Double.round (2 / 3)) = lit "0.67" := by
  decide +kernel

end Terminal

end MatchingVenue
