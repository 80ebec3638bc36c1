import Mathlib.Data.Int.Notation
import Mathlib.Data.Rat.Init

/-!
# JSON values

The trees that JSON texts stand for. A number is the rational that its text denotes, so an integer
is a number without a denominator, however it is written. Writing and reading the texts is left to
libraries. A reader that keeps numbers in floating point rounds the large ones: `rounded` is what it
gets from a tree.
-/

namespace MatchingVenue

/-- A JSON value. -/
inductive Json where
  | null
  | bool (b : Bool)
  | num (q : ℚ)
  | str (text : String)
  | arr (items : List Json)
  | obj (fields : List (String × Json))

namespace Json

/-- An integer. -/
def int (n : ℤ) : Json := .num n

/-- The value of a field of an object. -/
def field? (name : String) : Json → Option Json
  | .obj fields => (fields.find? fun f => f.1 = name).map Prod.snd
  | _ => none

/-- The integer that a value is. -/
def int? : Json → Option ℤ
  | .num q => if q.den = 1 then some q.num else none
  | _ => none

@[simp]
theorem int?_int (n : ℤ) : (int n).int? = some n := rfl

mutual

/-- The value with each integer rounded. -/
def rounded (round : ℤ → ℤ) : Json → Json
  | .null => .null
  | .bool b => .bool b
  | .num q => if q.den = 1 then int (round q.num) else .num q
  | .str text => .str text
  | .arr items => .arr (roundedItems round items)
  | .obj fields => .obj (roundedFields round fields)

/-- The items with each integer rounded. -/
def roundedItems (round : ℤ → ℤ) : List Json → List Json
  | [] => []
  | item :: items => rounded round item :: roundedItems round items

/-- The fields with each integer rounded. -/
def roundedFields (round : ℤ → ℤ) : List (String × Json) → List (String × Json)
  | [] => []
  | (name, value) :: fields => (name, rounded round value) :: roundedFields round fields

end

@[simp]
theorem rounded_int (round : ℤ → ℤ) (n : ℤ) : (int n).rounded round = int (round n) := by
  simp [int, rounded]

/-! ## Texts -/

/-- A hexadecimal digit. -/
def hexDigit (n : ℕ) : String := String.ofList (Nat.toDigits 16 n) |>.toUpper

/-- A character within a string. Quotes, backslashes and control characters are escaped. -/
def charText (c : Char) : String :=
  match c.toNat with
  | 8 => "\\b"
  | 9 => "\\t"
  | 10 => "\\n"
  | 12 => "\\f"
  | 13 => "\\r"
  | 34 => "\\\x22"
  | 92 => "\\\\"
  | n => if n < 32 then "\\u00" ++ hexDigit (n / 16) ++ hexDigit (n % 16) else c.toString

/-- A string in quotes. -/
def quoted (text : String) : String :=
  "\x22" ++ String.join (text.toList.map charText) ++ "\x22"

mutual

/-- The text that a writer makes of a value, without blanks. The numbers are integers. -/
def text? : Json → Option String
  | .null => some "null"
  | .bool b => some (if b then "true" else "false")
  | .num q => if q.den = 1 then some (toString q.num) else none
  | .str text => some (quoted text)
  | .arr items => (itemTexts? items).map fun texts => "[" ++ ",".intercalate texts ++ "]"
  | .obj fields => (fieldTexts? fields).map fun texts => "\x7b" ++ ",".intercalate texts ++ "\x7d"

/-- The texts of the items. -/
def itemTexts? : List Json → Option (List String)
  | [] => some []
  | item :: items => do return (← text? item) :: (← itemTexts? items)

/-- The texts of the fields, each behind its name. -/
def fieldTexts? : List (String × Json) → Option (List String)
  | [] => some []
  | (name, value) :: fields => do
    return (quoted name ++ ":" ++ (← text? value)) :: (← fieldTexts? fields)

end

end Json

end MatchingVenue
