import MatchingVenue.Library.Decimal
import MatchingVenue.Library.Double
import MatchingVenue.Net.Text
import Mathlib.Data.List.DropRight
import Mathlib.Data.Set.List

/-!
# The texts of the terminal's fields

What the terminal reads of a text that was typed. A price is digits and at most two more behind a
point, and it is read in units of a hundredth of a cent: the digits are put behind each other, with
zeros for the places that are not written. No double is in the way of it: a number that a double
does not hold is no safe integer, and is refused. So the terminal reads exactly the decimals that
come to a safe integer, as their units (`parsePrice_eq_some`).

The other way a price is printed with up to four digits behind the point, and no zero at the end
beyond the second (`formatPrice_eq`). What is printed reads as the price again if it is positive and
on the tick, and else as no price (`parsePrice_formatPrice`).
-/

namespace MatchingVenue

namespace Terminal

open Text

/-- White space and line ends, as `trim` removes them. -/
def isSpace (c : UInt16) : Bool :=
  ([0x0009, 0x000A, 0x000B, 0x000C, 0x000D, 0x0020, 0x00A0, 0x1680, 0x2000, 0x2001, 0x2002, 0x2003,
    0x2004, 0x2005, 0x2006, 0x2007, 0x2008, 0x2009, 0x200A, 0x2028, 0x2029, 0x202F, 0x205F, 0x3000,
    0xFEFF] : List UInt16).contains c

/-- `String.prototype.trim`. -/
def trim (s : Text) : Text := (s.dropWhile isSpace).rdropWhile isSpace

/-- `\d` of a regular expression. -/
def isDigit (c : UInt16) : Bool := 48 ≤ c && c ≤ 57

/-- The decimal point. -/
def point : UInt16 := 46

/-- The code unit of a digit. -/
def digitUnit (d : Fin 10) : UInt16 := UInt16.ofNat (48 + d.val)

/-- The groups of `^(\d+)(?:\.(\d{1,2}))?$`: the digits, and those behind the point if there is
one. -/
def matchPrice (s : Text) : Option (Text × Option Text) :=
  let whole := s.takeWhile isDigit
  if whole = [] then none
  else match s.dropWhile isDigit with
  | [] => some (whole, none)
  | c :: frac =>
    if c = point ∧ (frac.all isDigit) = true ∧ 1 ≤ frac.length ∧ frac.length ≤ 2 then
      some (whole, some frac) else none

/-- `^\d+$`. -/
def matchDigits (s : Text) : Bool := s ≠ [] && s.all isDigit

/-- `padEnd`. -/
def padEnd (width : ℕ) (c : UInt16) (s : Text) : Text := s ++ List.replicate (width - s.length) c

/-- `Number` of digits, or none where it is infinite. -/
def number (digits : Text) : Option ℕ :=
  Double.ofNat (digits.foldl (fun n c => n * 10 + (c.toNat - 48)) 0)

/-- A number that is a safe integer and positive. -/
def positiveSafe (x : Option ℕ) : Option ℕ := x.filter fun n => Double.isSafe n && 0 < n

/-- The units of a price that was typed. -/
def parsePrice (input : Text) : Option ℕ :=
  match matchPrice (trim input) with
  | none => none
  | some (wholePart, fraction) =>
    let fractionPart := padEnd 2 zero (fraction.getD [])
    positiveSafe (number (wholePart ++ fractionPart ++ lit "00"))

/-- What stands for a price that is none. -/
def emptyPrice : Text := [0x2014]

/-- The text of a price in units. -/
def formatPrice (px : ℤ) : Text :=
  if px < 0 then emptyPrice
  else
    -- At least five digits, so that there is one before the point.
    let digits := pad 5 (toText px)
    let whole := digits.take (digits.length - 4)
    let fraction := digits.drop (digits.length - 4)
    let trimmed := padEnd 2 zero (fraction.rdropWhile fun c => c = zero)
    whole ++ point :: trimmed

/-! ## Digits -/

/-- The character of a digit is 48 more than the digit. -/
theorem toNat_digitUnit : ∀ d : Fin 10, (digitUnit d).toNat = 48 + d.val := by decide

/-- The character of a digit is a digit. -/
theorem isDigit_digitUnit : ∀ d : Fin 10, isDigit (digitUnit d) = true := by decide

/-- A code unit that is a digit is that of one. -/
theorem exists_digitUnit {c : UInt16} (h : isDigit c = true) : ∃ d, digitUnit d = c := by
  simp only [isDigit, Bool.and_eq_true, decide_eq_true_eq, UInt16.le_iff_toNat_le] at h
  obtain ⟨hlow, hhigh⟩ := h
  have h48 : (48 : UInt16).toNat = 48 := rfl
  have h57 : (57 : UInt16).toNat = 57 := rfl
  refine ⟨⟨c.toNat - 48, by omega⟩, UInt16.toNat_inj.mp ?_⟩
  rw [toNat_digitUnit]
  show 48 + (c.toNat - 48) = c.toNat
  omega

/-- Written digits are digits. -/
theorem all_digitUnit (digits : List (Fin 10)) : ((digits.map digitUnit).all isDigit) = true := by
  rw [List.all_map]
  exact List.all_eq_true.mpr fun d _ => isDigit_digitUnit d

/-- Code units that are digits are those of some. -/
theorem exists_digitUnits {s : Text} (h : (s.all isDigit) = true) :
    ∃ digits, List.map digitUnit digits = s := by
  have hrange : s ∈ Set.range (List.map digitUnit) := by
    rw [Set.range_list_map]
    exact fun c hc => exists_digitUnit (List.all_eq_true.mp h c hc)
  exact hrange

/-- Digits are the number that they write, as a double. -/
theorem number_map (digits : List (Fin 10)) :
    number (digits.map digitUnit) = Double.ofNat (natOf digits) := by
  rw [number, List.foldl_map, natOf]
  congr 2
  funext n d
  rw [toNat_digitUnit]
  omega

/-- A number that becomes a safe integer and is positive is one. -/
theorem positiveSafe_ofNat (n : ℕ) :
    positiveSafe (Double.ofNat n) = if 0 < n ∧ n ≤ Double.maxSafe then some n else none := by
  have hfilter : positiveSafe (Double.ofNat n) =
      ((Double.ofNat n).filter Double.isSafe).filter fun k => decide (0 < k) := by
    rw [positiveSafe, Option.filter_filter]
  rw [hfilter, Double.filter_isSafe]
  by_cases hsafe : n ≤ Double.maxSafe
  · rw [if_pos hsafe]
    by_cases hpos : 0 < n
    · rw [if_pos ⟨hpos, hsafe⟩]
      exact Option.filter_some_pos (decide_eq_true hpos)
    · rw [if_neg fun hand => hpos hand.1]
      exact Option.filter_some_neg (by simpa using hpos)
  · rw [if_neg hsafe, if_neg fun hand => hsafe hand.2]
    rfl

/-- Digits have different characters. -/
theorem digitUnit_injective : Function.Injective digitUnit := by
  intro d e h
  have hunits := congrArg UInt16.toNat h
  rw [toNat_digitUnit, toNat_digitUnit] at hunits
  exact Fin.ext (by omega)

/-- No digit is the point. -/
theorem digitUnit_ne_point : ∀ d : Fin 10, digitUnit d ≠ point := by decide

/-- The digits of a number are those of some that write it. -/
theorem exists_digits (n : ℕ) :
    ∃ ds : List (Fin 10), ds.map digitUnit = digits n ∧ natOf ds = n := by
  have hvalue : ∀ (cs : List Char) (val : ℕ), (∀ c ∈ cs, c.isDigit = true) →
      ∃ ds : List (Fin 10), ds.map digitUnit = cs.map (fun c => UInt16.ofNat c.toNat) ∧
        ds.foldl (fun n d => n * 10 + d.val) val = Nat.ofDigitChars 10 cs val := by
    intro cs
    induction cs with
    | nil => exact fun val _ => ⟨[], rfl, rfl⟩
    | cons c cs ih =>
      intro val hcs
      obtain ⟨-, -, hle, hge⟩ := digit_spec (hcs c List.mem_cons_self)
      obtain ⟨ds, hmap, hfold⟩ := ih (val * 10 + (c.toNat - 48)) fun d hd =>
        hcs d (List.mem_cons_of_mem _ hd)
      refine ⟨⟨c.toNat - 48, by omega⟩ :: ds, ?_, ?_⟩
      · have hback : 48 + (c.toNat - 48) = c.toNat := by omega
        rw [List.map_cons, List.map_cons, hmap, digitUnit, hback]
      · have hstep : 10 * val + (c.toNat - '0'.toNat) = val * 10 + (c.toNat - 48) := by
          have hzero : '0'.toNat = 48 := rfl
          omega
        rw [List.foldl_cons, Nat.ofDigitChars_cons, hstep, ← hfold]
  obtain ⟨ds, hmap, hfold⟩ := hvalue (Nat.toDigits 10 n) 0 fun c hc =>
    Nat.isDigit_of_mem_toDigits (by decide) (by decide) hc
  exact ⟨ds, hmap, hfold.trans Nat.ofDigitChars_ten_toDigits⟩

/-! ## Numbers that were typed -/

/-- A price as it is typed: digits, and behind a point at most two more. -/
def priceTyped (d : Decimal 2) : Text := d.text digitUnit point

/-- The groups are the parts of a decimal. -/
theorem matchPrice_typed (d : Decimal 2) : matchPrice (priceTyped d) =
    some (d.whole.map digitUnit, if d.frac = [] then none else some (d.frac.map digitUnit)) := by
  have hall : ∀ c ∈ d.whole.map digitUnit, isDigit c = true :=
    List.all_eq_true.mp (all_digitUnit d.whole)
  have hne : d.whole.map digitUnit ≠ [] := by simpa using d.whole_ne
  unfold priceTyped Decimal.text
  by_cases hfrac : d.frac = []
  · have htake : (d.whole.map digitUnit).takeWhile isDigit = d.whole.map digitUnit :=
      List.takeWhile_eq_self_iff.mpr hall
    have hdrop : (d.whole.map digitUnit).dropWhile isDigit = [] :=
      List.dropWhile_eq_nil_iff.mpr hall
    rw [if_pos hfrac, if_pos hfrac, List.append_nil]
    simp only [matchPrice, htake, if_neg hne, hdrop]
  · have hpoint : isDigit point = false := by decide
    have htake : (d.whole.map digitUnit ++ point :: d.frac.map digitUnit).takeWhile isDigit =
        d.whole.map digitUnit := by
      rw [List.takeWhile_append_of_pos hall, List.takeWhile_cons_of_neg (by simp [hpoint]),
        List.append_nil]
    have hdrop : (d.whole.map digitUnit ++ point :: d.frac.map digitUnit).dropWhile isDigit =
        point :: d.frac.map digitUnit := by
      rw [List.dropWhile_append_of_pos hall, List.dropWhile_cons_of_neg (by simp [hpoint])]
    have hlength : 1 ≤ (d.frac.map digitUnit).length ∧ (d.frac.map digitUnit).length ≤ 2 := by
      rw [List.length_map]
      exact ⟨List.length_pos_iff.mpr hfrac, d.frac_le⟩
    rw [if_neg hfrac, if_neg hfrac]
    simp only [matchPrice, htake, if_neg hne, hdrop]
    exact if_pos ⟨trivial, all_digitUnit d.frac, hlength⟩

/-- What matches is a decimal. -/
theorem exists_of_matchPrice {s : Text} {groups : Text × Option Text}
    (h : matchPrice s = some groups) :
    ∃ d, priceTyped d = s := by
  have hsplit : s.takeWhile isDigit ++ s.dropWhile isDigit = s := List.takeWhile_append_dropWhile
  obtain ⟨whole, hwhole⟩ := exists_digitUnits (s := s.takeWhile isDigit) List.all_takeWhile
  simp only [matchPrice] at h
  split_ifs at h with hnil
  have hne : whole ≠ [] := by
    rintro rfl
    exact hnil hwhole.symm
  cases hrest : s.dropWhile isDigit with
  | nil =>
    refine ⟨⟨whole, [], hne, Nat.zero_le 2⟩, ?_⟩
    rw [priceTyped, Decimal.text, if_pos rfl, hwhole, ← hrest, hsplit]
  | cons c rest =>
    simp only [hrest] at h
    split_ifs at h with hmatch
    obtain ⟨rfl, hall, hpos, hle⟩ := hmatch
    obtain ⟨frac, rfl⟩ := exists_digitUnits hall
    rw [List.length_map] at hpos hle
    refine ⟨⟨whole, frac, hne, hle⟩, ?_⟩
    rw [priceTyped, Decimal.text, if_neg (List.length_pos_iff.mp hpos), hwhole, ← hrest, hsplit]

/-- The digits of the two groups, with zeros for the places that are not written, are the units. -/
theorem digits_of_groups (d : Decimal 2) :
    d.whole.map digitUnit ++ padEnd 2 zero (d.frac.map digitUnit) ++ lit "00" =
      (d.whole ++ d.frac ++ List.replicate (4 - d.frac.length) 0).map digitUnit := by
  have hzeros : 4 - d.frac.length = 2 - d.frac.length + 2 := by
    have hle := d.frac_le
    omega
  have htail : lit "00" = List.replicate 2 (digitUnit 0) := rfl
  have hzero : zero = digitUnit 0 := rfl
  rw [padEnd, htail, hzero, List.length_map, hzeros, List.replicate_add]
  simp only [List.map_append, List.map_replicate, List.append_assoc]

/-- A price is read as its units where they are a positive safe integer. -/
theorem parsePrice_eq_some {s : Text} {px : ℕ} : parsePrice s = some px ↔
    ∃ d, priceTyped d = trim s ∧ px = d.scaled 4 ∧ 0 < px ∧ px ≤ Double.maxSafe := by
  have hread : ∀ d, priceTyped d = trim s → parsePrice s =
      if 0 < d.scaled 4 ∧ d.scaled 4 ≤ Double.maxSafe then some (d.scaled 4) else none := by
    intro d hd
    have hgroups : ∀ frac : List (Fin 10),
        Option.getD (if frac = [] then none else some (frac.map digitUnit)) [] =
        frac.map digitUnit := by
      intro frac
      split_ifs with hfrac
      · rw [hfrac]
        rfl
      · rfl
    rw [parsePrice, ← hd, matchPrice_typed]
    simp only [hgroups]
    rw [digits_of_groups, number_map, positiveSafe_ofNat]
    rfl
  constructor
  · intro h
    cases hmatch : matchPrice (trim s) with
    | none => simp [parsePrice, hmatch] at h
    | some groups =>
      obtain ⟨d, hd⟩ := exists_of_matchPrice hmatch
      rw [hread d hd] at h
      split_ifs at h with hsafe
      obtain rfl := Option.some.inj h
      exact ⟨d, hd, rfl, hsafe⟩
  · rintro ⟨d, hd, rfl, hsafe⟩
    rw [hread d hd, if_pos hsafe]

/-! ## Prices that are printed -/

/-- The zeros at the end of some digits are those of their code units. -/
theorem rdropWhile_map (ds : List (Fin 10)) :
    (ds.map digitUnit).rdropWhile (fun c => c = zero) =
      (ds.rdropWhile fun d => d = 0).map digitUnit := by
  have hzero : ((fun c : UInt16 => decide (c = zero)) ∘ digitUnit) = fun d => decide (d = 0) :=
    funext fun d => decide_eq_decide.mpr ⟨fun h => digitUnit_injective h, fun h => h ▸ rfl⟩
  rw [List.rdropWhile, List.rdropWhile, ← List.map_reverse, List.dropWhile_map, hzero,
    List.map_reverse]

/-- A price is printed as the decimal that it is, without a zero at the end beyond the second
place. -/
theorem formatPrice_eq (px : ℕ) :
    ∃ d : Decimal 4, formatPrice px = d.text digitUnit point ∧ d.scaled 4 = px ∧ d.Trimmed 2 := by
  obtain ⟨ds, hds, hvalue⟩ := exists_digits px
  let all := List.replicate (5 - ds.length) 0 ++ ds
  have hall : natOf all = px := by
    rw [natOf_append, natOf_zeros, hvalue, Nat.zero_mul, Nat.zero_add]
  have hlength : 4 < all.length := by
    rw [List.length_append, List.length_replicate]
    omega
  have hprinted : pad 5 (toText px) = all.map digitUnit := by
    have hzero : zero = digitUnit 0 := rfl
    rw [toText, if_neg (Int.not_lt.mpr (Int.natCast_nonneg px)), Int.natAbs_natCast, pad, ← hds,
      List.length_map, List.map_append, List.map_replicate, hzero]
  let d := Decimal.shortest 2 all hlength (by decide : 2 ≤ 4)
  have htrimmed : d.Trimmed 2 := Decimal.trimmed_shortest hlength _
  have hleast := htrimmed.least_le
  refine ⟨d, ?_, (Decimal.scaled_shortest hlength _).trans hall, htrimmed⟩
  have hfraction : padEnd 2 zero (((all.map digitUnit).drop (all.length - 4)).rdropWhile fun c =>
      c = zero) = d.frac.map digitUnit := by
    rw [← List.map_drop, rdropWhile_map, padEnd, List.length_map]
    show _ = (trimmed 2 _).map digitUnit
    rw [trimmed, List.map_append, List.map_replicate]
    rfl
  rw [formatPrice, if_neg (Int.not_lt.mpr (Int.natCast_nonneg px)), Decimal.text,
    if_neg (List.length_pos_iff.mp (by omega))]
  simp only [hprinted, List.length_map, hfraction]
  rw [← List.map_take]
  rfl

/-- There is no white space around a decimal. -/
theorem trim_text {places : ℕ} (d : Decimal places) :
    trim (d.text digitUnit point) = d.text digitUnit point := by
  have hdigits : ∀ (ds : List (Fin 10)), ∀ c ∈ ds.map digitUnit, ¬ isSpace c = true := by
    intro ds c hc
    obtain ⟨i, -, rfl⟩ := List.mem_map.mp hc
    exact (by decide : ∀ i : Fin 10, ¬ isSpace (digitUnit i) = true) i
  have hall : ∀ c ∈ d.text digitUnit point, ¬ isSpace c = true := by
    intro c hc
    rcases List.mem_append.mp hc with hwhole | hrest
    · exact hdigits _ c hwhole
    split_ifs at hrest with hfrac
    · exact absurd hrest List.not_mem_nil
    · rcases List.mem_cons.mp hrest with rfl | hfraction
      · decide
      · exact hdigits _ c hfraction
  have hfront : (d.text digitUnit point).dropWhile isSpace = d.text digitUnit point :=
    List.dropWhile_eq_self_iff.mpr fun hlt => hall _ (List.getElem_mem hlt)
  rw [trim, hfront]
  exact List.rdropWhile_eq_self_iff.mpr fun hne => hall _ (List.getLast_mem hne)

/-- A price that is printed is read as itself if it is positive and on the tick, and else as
none. -/
theorem parsePrice_formatPrice {px : ℕ} (h : px ≤ Double.maxSafe) :
    parsePrice (formatPrice px) = if 0 < px ∧ 100 ∣ px then some px else none := by
  obtain ⟨d, htext, hscaled, htrimmed⟩ := formatPrice_eq px
  have htick : 100 ∣ px ↔ d.frac.length ≤ 2 := by
    have hdvd := htrimmed.dvd_scaled_iff
    rwa [hscaled] at hdvd
  split_ifs with hread
  · refine parsePrice_eq_some.mpr ⟨⟨d.whole, d.frac, d.whole_ne, htick.mp hread.2⟩, ?_,
      hscaled.symm, hread.1, h⟩
    rw [htext, trim_text]
    rfl
  · refine Option.eq_none_iff_forall_ne_some.mpr fun units hunits => hread ?_
    -- A decimal that is read has two places at most, and the text is that of one decimal.
    obtain ⟨e, he, rfl, hpos, -⟩ := parsePrice_eq_some.mp hunits
    rw [htext, trim_text] at he
    obtain rfl : e.widen (by decide : 2 ≤ 4) = d :=
      Decimal.text_injective digitUnit_injective digitUnit_ne_point he
    have hsame : e.scaled 4 = px := hscaled
    exact ⟨hsame ▸ hpos, htick.mpr e.frac_le⟩

end Terminal

end MatchingVenue
