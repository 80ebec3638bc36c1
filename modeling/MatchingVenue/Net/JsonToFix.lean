import MatchingVenue.Gateway.FixFrameDecoder
import MatchingVenue.Gateway.Price
import MatchingVenue.Net.Text

/-!
# From the terminal's orders to FIX

The encoder writes an order of a terminal as a FIX message. It joins the texts of the fields and
closes each with a field end, and puts the length before them and the sum behind.

`fields_assemble` says what the parser sees of it. A text that has a field end in it becomes several
fields, and only the symbol can be such a text. So the parser sees the fields of a symbol before
those that the encoder wrote behind it (`parse_newOrderSingle`), and without any it finds the order
that was encoded (`orderBehind_eq`).
-/

namespace MatchingVenue

open FixConstants FixFrameDecoder Wire Text

namespace JsonToFix

/-- The field end as a character. -/
def sohC : UInt16 := 1

/-- The one version that is spoken. -/
def beginString : Text := lit "FIX.4.2"

/-- The code of a side. -/
def sideCode : Side → UInt16
  | .buy => 49
  | .sell => 50

/-- The code of an order type. -/
def ordTypeCode : OrdType → UInt16
  | .pegMid => 80
  | .limit => 50

/-- The code of a time in force. -/
def tifCode : TimeInForce → UInt16
  | .ioc => 51
  | .fok => 52
  | .gtc => 49

/-- The price in dollars: with two decimals where it is on the tick, and with four where it is
not. -/
def formatPrice (px : ℤ) : Text :=
  let dollars := px.tdiv Prices.scale
  let frac := px.tmod Prices.scale
  if frac.tmod 100 = 0 then
    let centPart := frac.tdiv 100
    toText dollars ++ lit "." ++ (if centPart < 10 then lit "0" ++ toText centPart
      else toText centPart)
  else toText dollars ++ lit "." ++ zeroPadded 4 frac

/-- The message with some body fields. -/
def assemble (bodyFields : List Text) : List Byte :=
  let body := getBytes (bodyFields.flatMap fun f => f ++ [sohC])
  let header :=
    getBytes (lit "8=" ++ beginString ++ [sohC] ++ lit "9=" ++ toText body.length ++ [sohC])
  let sum := sumOf header + sumOf body
  let trailer := getBytes (lit "10=" ++ zeroPadded 3 (sum % 256) ++ [sohC])
  header ++ body ++ trailer

/-- A new order. -/
def newOrderSingle (clOrdId : Long) (side : Side) (ordType : OrdType) (priceUnits qty : Long)
    (symbol : Text) (tif : TimeInForce) (maxFloor : Long) : List Byte :=
  let priceField := if ordType = .pegMid then lit "18=M" else lit "44=" ++ formatPrice priceUnits
  if (maxFloor : ℤ) > 0 then
    assemble
      [lit "35=D", lit "11=" ++ toText clOrdId, lit "55=" ++ symbol, lit "54=" ++ [sideCode side],
        lit "38=" ++ toText qty, lit "40=" ++ [ordTypeCode ordType], priceField,
        lit "59=" ++ [tifCode tif], lit "111=" ++ toText maxFloor]
  else
    assemble
      [lit "35=D", lit "11=" ++ toText clOrdId, lit "55=" ++ symbol, lit "54=" ++ [sideCode side],
        lit "38=" ++ toText qty, lit "40=" ++ [ordTypeCode ordType], priceField,
        lit "59=" ++ [tifCode tif]]

/-- A cancel. -/
def orderCancelRequest (clOrdId origClOrdId : Long) : List Byte :=
  assemble [lit "35=F", lit "11=" ++ toText clOrdId, lit "41=" ++ toText origClOrdId]

/-! ## What is assembled -/

/-- Some segments, each with a field end. -/
def closed (segments : List (List Byte)) : List Byte := segments.flatMap fun s => s ++ [soh]

/-- The segments of two stretches are closed as those of both. -/
theorem closed_append (segments more : List (List Byte)) :
    closed (segments ++ more) = closed segments ++ closed more := List.flatMap_append

/-- The first segment comes first, with a field end behind it. -/
theorem closed_cons (segment : List Byte) (segments : List (List Byte)) :
    closed (segment :: segments) = segment ++ soh :: closed segments := by
  rw [closed, List.flatMap_cons, List.append_assoc]
  rfl

/-- A segment with field ends in it is closed as its parts are. -/
theorem closed_splitOn (segment : List Byte) : closed (segment.splitOn soh) = segment ++ [soh] := by
  have hparts := @List.intercalate_splitOn Byte segment _ _ soh
  have hclosed : ∀ parts : List (List Byte), parts ≠ [] →
      closed parts = [soh].intercalate parts ++ [soh] := by
    intro parts
    induction parts with
    | nil => exact fun h => absurd rfl h
    | cons part parts ih =>
      intro _
      rw [closed_cons]
      cases parts with
      | nil => simp [closed, List.intercalate]
      | cons next parts =>
        rw [ih (List.cons_ne_nil _ _)]
        simp [List.intercalate]
  rw [hclosed _ (List.splitOn_ne_nil soh segment), hparts]

/-- Closed segments are those of their message. -/
theorem splitOn_closed {segments : List (List Byte)} (h : ∀ s ∈ segments, soh ∉ s) :
    (closed segments).splitOn soh = segments ++ [[]] := by
  induction segments with
  | nil => rfl
  | cons segment segments ih =>
    rw [closed_cons, List.splitOn_append_cons_self_of_not_mem (h segment List.mem_cons_self),
      ih fun s hs => h s (List.mem_cons_of_mem _ hs), List.cons_append]

/-- The fields of closed segments are those of the segments. -/
theorem fields_closed {segments : List (List Byte)} (h : ∀ s ∈ segments, soh ∉ s) :
    fields (closed segments) = segments.map field := by
  rw [fields, splitOn_closed h, List.dropLast_concat]

/-- Closed segments are scanned where each has a number for its tag and there is room for all. -/
theorem scannable_closed {segments : List (List Byte)} (h : ∀ s ∈ segments, soh ∉ s) {room : ℕ} :
    Scannable room (closed segments) ↔ (∀ s ∈ segments, Numbered s) ∧ segments.length ≤ room := by
  have hsplit := splitOn_closed h
  constructor
  · rintro ⟨-, hnumbered, hfits⟩
    rw [hsplit, List.dropLast_concat] at hnumbered hfits
    exact ⟨hnumbered, hfits⟩
  · rintro ⟨hnumbered, hfits⟩
    refine ⟨?_, ?_, ?_⟩
    · rw [hsplit, List.getLast?_concat]
    · rw [hsplit, List.dropLast_concat]
      exact hnumbered
    · rw [hsplit, List.dropLast_concat]
      exact hfits

/-- Joined texts, each with a field end, are closed segments. -/
theorem getBytes_flatMap (texts : List Text) :
    getBytes (texts.flatMap fun f => f ++ [sohC]) = closed (texts.map getBytes) := by
  induction texts with
  | nil => rfl
  | cons text texts ih =>
    rw [List.flatMap_cons, List.append_assoc, List.singleton_append,
      getBytes_append_cons (by decide), ih, List.map_cons, closed_cons]
    rfl

/-- The segments of the header of a body of `n` bytes. -/
def headerSegments (n : ℕ) : List (List Byte) :=
  [getBytes (lit "8=" ++ beginString), getBytes (lit "9=" ++ toText n)]

/-- The segment of the trailer of a sum. -/
def trailerSegment (sum : ℤ) : List Byte := getBytes (lit "10=" ++ zeroPadded 3 sum)

/-- What stands before the trailer. -/
def untrailed (texts : List Text) : List Byte :=
  closed (headerSegments (closed (texts.map getBytes)).length ++ texts.map getBytes)

/-- A message is what the sum is taken of, and the sum. -/
theorem assemble_eq (texts : List Text) :
    assemble texts = untrailed texts ++
      closed [trailerSegment (sumOf (untrailed texts) % 256)] := by
  have hheader : ∀ n : ℕ,
      getBytes (lit "8=" ++ beginString ++ [sohC] ++ lit "9=" ++ toText n ++ [sohC]) =
      closed (headerSegments n) := by
    intro n
    have hfields := getBytes_flatMap [lit "8=" ++ beginString, lit "9=" ++ toText n]
    simp only [List.flatMap_cons, List.flatMap_nil, List.append_nil, List.append_assoc] at hfields ⊢
    exact hfields
  have htrailer : ∀ sum, getBytes (lit "10=" ++ zeroPadded 3 sum ++ [sohC]) =
      closed [trailerSegment sum] := by
    intro sum
    have hfields := getBytes_flatMap [lit "10=" ++ zeroPadded 3 sum]
    simp only [List.flatMap_cons, List.flatMap_nil, List.append_nil] at hfields
    exact hfields
  unfold assemble untrailed
  simp only [getBytes_flatMap, hheader, htrailer, closed_append, sumOf_append]

/-- The trailer has three digits, and they write the sum. -/
theorem trailerSegment_spec (sum : ℤ) :
    ∃ sumDigits, trailerSegment (sum % 256) = [b1, b0, equals] ++ sumDigits ∧
    sumDigits.length = 3 ∧ longOf sumDigits = sum % 256 ∧ soh ∉ sumDigits := by
  have hlow : 0 ≤ sum % 256 := Int.emod_nonneg _ (by decide)
  have hhigh : sum % 256 < 256 := Int.emod_lt_of_pos _ (by decide)
  generalize sum % 256 = n at hlow hhigh
  have hpadded : zeroPadded 3 n = pad 3 (digits n.natAbs) := if_neg (by omega)
  have hlength := length_digits_le (n := n.natAbs) (k := 3) (by decide) (by omega)
  have habs : (n.natAbs : ℤ) = n := by omega
  have hvalue := longOf_pad 3 n.natAbs (by unfold longMax; omega)
  refine ⟨getBytes (pad 3 (digits n.natAbs)), ?_, ?_, ?_, ?_⟩
  · rw [trailerSegment, hpadded, getBytes_append (by decide)]
    rfl
  · rw [length_getBytes (ascii_pad (ascii_digits _) _), length_pad]
    omega
  · rw [hvalue, habs]
  · exact fun hmem => absurd (isDigit_pad 3 _ _ hmem) (by decide)

/-- A trailer with the sum of what is before it makes a message that has its sum. -/
theorem checked_trailed {front sumDigits : List Byte} (hpos : 0 < front.length)
    (hthree : sumDigits.length = 3) (hvalue : longOf sumDigits = sumOf front % 256) :
    Checked (front ++ [b1, b0, equals] ++ (sumDigits ++ [soh])) := by
  have hlength : (front ++ [b1, b0, equals] ++ (sumDigits ++ [soh])).length = front.length + 7 := by
    simp only [List.length_append, List.length_cons, List.length_nil, hthree]
  have htake : (front ++ [b1, b0, equals] ++ (sumDigits ++ [soh])).take front.length = front := by
    rw [List.append_assoc, List.take_left]
  have hwindow : window (front ++ [b1, b0, equals] ++ (sumDigits ++ [soh])) (front.length + 3)
      (front.length + 6) = sumDigits := by
    have hstart : front.length + 3 = (front ++ [b1, b0, equals]).length := by
      rw [List.length_append]
      rfl
    have hcount : front.length + 6 - (front ++ [b1, b0, equals]).length = sumDigits.length := by
      rw [← hstart]
      omega
    rw [window, hstart, hcount, List.drop_left, List.take_left]
  have hstart : front.length + 7 - 4 = front.length + 3 := by omega
  have hstop : front.length + 7 - 1 = front.length + 6 := by omega
  have hfront : front.length + 7 - 7 = front.length := by omega
  unfold Checked
  rw [hlength, hstart, hstop, hfront, htake, hwindow]
  exact ⟨by omega, hvalue⟩

/-- A message that was assembled has its sum. -/
theorem checked_assemble (texts : List Text) : Checked (assemble texts) := by
  obtain ⟨sumDigits, htrailer, hthree, hvalue, -⟩ := trailerSegment_spec (sumOf (untrailed texts))
  have hmessage : assemble texts = untrailed texts ++ [b1, b0, equals] ++ (sumDigits ++ [soh]) := by
    rw [assemble_eq, htrailer, closed_cons]
    simp [closed]
  have hpos : 0 < (untrailed texts).length := by
    rw [untrailed, headerSegments, List.cons_append, closed_cons, List.length_append,
      List.length_cons]
    omega
  rw [hmessage]
  exact checked_trailed hpos hthree hvalue

/-! ## Prices -/

/-- The digits behind the decimal point. -/
def cents (px : ℤ) : Text :=
  let frac := px.tmod Prices.scale
  if frac.tmod 100 = 0 then
    if frac.tdiv 100 < 10 then lit "0" ++ toText (frac.tdiv 100) else toText (frac.tdiv 100)
  else zeroPadded 4 frac

/-- A price is written as its dollars, a dot and its cents. -/
theorem getBytes_formatPrice (px : ℤ) : getBytes (formatPrice px) =
    getBytes (toText (px.tdiv Prices.scale)) ++ FixParser.dot :: getBytes (cents px) := by
  have htext : formatPrice px = toText (px.tdiv Prices.scale) ++ 46 :: cents px := by
    unfold formatPrice cents
    simp only
    split_ifs <;> simp [lit]
  rw [htext, getBytes_append_cons (by decide)]
  rfl

/-- No dot is in a written number. -/
theorem dot_notMem_toText (x : ℤ) : FixParser.dot ∉ getBytes (toText x) := fun hmem =>
  absurd (printed_toText x _ hmem) (by decide)

/-- A price that is positive and on the tick is read as it is printed. -/
theorem priceOf_onTick {px : ℤ} (hpos : 0 < px) (htick : px % 100 = 0) (hlong : px ≤ longMax) :
    priceOf (getBytes (formatPrice px)) = px := by
  have hdollars : px.tdiv Prices.scale = px / 10000 := Int.tdiv_eq_ediv_of_nonneg hpos.le
  have hfrac : px.tmod Prices.scale = px % 10000 := Int.tmod_eq_emod_of_nonneg hpos.le
  have hrest : (px % 10000).tmod 100 = px % 10000 % 100 := Int.tmod_eq_emod_of_nonneg (by omega)
  have hcent : (px % 10000).tdiv 100 = px % 10000 / 100 := Int.tdiv_eq_ediv_of_nonneg (by omega)
  have hcents : cents px = pad 2 (digits (px % 10000 / 100).natAbs) := by
    simp only [cents, hfrac, hrest, hcent]
    rw [if_pos (by omega)]
    exact pad_two (by omega) (by omega)
  unfold longMax at hlong
  have hlength : (getBytes (cents px)).length = 2 := by
    have htwo := length_digits_le (n := (px % 10000 / 100).natAbs) (k := 2) (by decide) (by omega)
    rw [hcents, length_getBytes (ascii_pad (ascii_digits _) _), length_pad]
    omega
  have hcentsValue : longOf (getBytes (cents px)) = px % 10000 / 100 := by
    have hpad := longOf_pad 2 (px % 10000 / 100).natAbs (by unfold longMax; omega)
    rw [hcents, hpad]
    omega
  have hdollarsValue : longOf (getBytes (toText (px / 10000))) = px / 10000 := by
    have htext := longOf_toText ⟨px / 10000, by omega, by unfold longMax; omega⟩
    rw [htext, if_pos (by show 0 ≤ px / 10000; omega)]
  rw [getBytes_formatPrice, hdollars, priceOf_dot (dot_notMem_toText _), hlength, hcentsValue,
    hdollarsValue, if_neg (by unfold FixParser.maxDecimals; omega)]
  -- Nothing is lost in the 64 bits.
  have hscaled : toLong (px / 10000 * Prices.scale) = px / 10000 * 10000 := by
    unfold Prices.scale
    exact toLong_of_le (by omega) (by unfold longMax; omega)
  have hsum : toLong (px / 10000 * 10000 + px % 10000 / 100 * 100) = px := by
    have heq : px / 10000 * 10000 + px % 10000 / 100 * 100 = px := by omega
    rw [heq]
    exact toLong_of_le hpos.le hlong
  simp only [hscaled, if_neg (show ¬ (2 : ℕ) = 1 by decide), hsum, if_pos hpos]

/-- No other price is read. -/
theorem priceOf_offTick {px : ℤ} (h : ¬ (0 < px ∧ px % 100 = 0)) :
    priceOf (getBytes (formatPrice px)) = -1 := by
  rw [getBytes_formatPrice, priceOf_dot (dot_notMem_toText _)]
  by_cases htick : (px.tmod Prices.scale).tmod 100 = 0
  swap
  · -- Off the tick there are four decimals.
    have hlength : (getBytes (cents px)).length > FixParser.maxDecimals := by
      have hcents : cents px = zeroPadded 4 (px.tmod Prices.scale) := if_neg htick
      rw [hcents, length_getBytes (ascii_zeroPadded _ _), zeroPadded]
      unfold FixParser.maxDecimals
      split_ifs
      · rw [List.length_cons, length_pad]
        omega
      · rw [length_pad]
        omega
    rw [if_pos (.inr (.inr (.inl hlength)))]
  have hmod : px % 100 = 0 := by
    have hdvd : (100 : ℤ) ∣ px.tmod Prices.scale := Int.dvd_of_tmod_eq_zero htick
    have hscale := Int.tmod_add_mul_tdiv px Prices.scale
    unfold Prices.scale at hdvd hscale
    omega
  have hneg : px ≤ 0 := by
    by_contra hpos
    exact h ⟨by omega, hmod⟩
  by_cases hzero : px = 0
  · subst hzero
    decide
  obtain ⟨m, rfl⟩ : ∃ m, px = -m := ⟨-px, by omega⟩
  have hdollars : (-m).tdiv Prices.scale = -(m / 10000) := by
    rw [Int.neg_tdiv, Int.tdiv_eq_ediv_of_nonneg (by omega)]
    rfl
  have hfrac : (-m).tmod Prices.scale = -(m % 10000) := by
    rw [Int.neg_tmod, Int.tmod_eq_emod_of_nonneg (by omega)]
    rfl
  -- The sign is at the dollars, or at the cents where there are no dollars.
  by_cases hsign : 0 < m / 10000
  · have htext : toText (-(m / 10000)) = minus :: digits (-(m / 10000)).natAbs := if_pos (by omega)
    have hbad : longOf (getBytes (toText (-(m / 10000)))) = -1 := by
      rw [htext, getBytes_cons (by decide)]
      exact longOf_of_minus_mem List.mem_cons_self
    rw [hdollars, if_pos (.inl hbad)]
  · have hcent : (-(m % 10000)).tdiv 100 = -(m % 10000 / 100) := by
      rw [Int.neg_tdiv, Int.tdiv_eq_ediv_of_nonneg (by omega)]
    have hcents : cents (-m) = zero :: minus :: digits (-(m % 10000 / 100)).natAbs := by
      have htext : toText (-(m % 10000 / 100)) = minus :: digits (-(m % 10000 / 100)).natAbs :=
        if_pos (by omega)
      rw [hfrac] at htick
      simp only [cents, hfrac, hcent]
      rw [if_pos htick, if_pos (by omega), htext]
      rfl
    have hbad : longOf (getBytes (cents (-m))) = -1 := by
      rw [hcents, getBytes_cons (by decide), getBytes_cons (by decide)]
      exact longOf_of_minus_mem (by simp)
    rw [if_pos (.inr (.inr (.inr hbad)))]

/-! ## The fields of a message -/

/-- No field end is in a written number. -/
theorem soh_notMem_toText (x : ℤ) : soh ∉ getBytes (toText x) := fun hmem =>
  absurd (printed_toText x soh hmem) (by decide)

/-- No field end is in a written price. -/
theorem soh_notMem_formatPrice (px : ℤ) : soh ∉ getBytes (formatPrice px) := by
  rw [getBytes_formatPrice]
  simp only [List.mem_append, List.mem_cons, not_or]
  refine ⟨soh_notMem_toText _, by decide, ?_⟩
  have hzero : soh ∉ getBytes (lit "0") := by decide
  simp only [cents]
  split_ifs
  · rw [getBytes_append (by decide), List.mem_append, not_or]
    exact ⟨hzero, soh_notMem_toText _⟩
  · exact soh_notMem_toText _
  · exact fun hmem => absurd (printed_zeroPadded 4 _ soh hmem) (by decide)

/-- A text is written as one field. -/
structure IsField (text : Text) (f : Field) : Prop where
  field_eq : field (getBytes text) = f
  numbered : Numbered (getBytes text)
  soh_notMem : soh ∉ getBytes text

/-- A text that starts with the number of a tag and an `=` is a field of that tag. -/
theorem isField_named {name : Text} {tag : List Byte}
    (h : Ascii name ∧ getBytes name = tag ++ [equals] ∧
    equals ∉ tag ∧ soh ∉ tag ∧ 0 ≤ longOf tag) {text : Text} (htext : soh ∉ getBytes text) :
    IsField (name ++ text) ⟨tag, getBytes text⟩ := by
  obtain ⟨hascii, hname, hequals, hsoh, hnumber⟩ := h
  have hbytes : getBytes (name ++ text) = tag ++ equals :: getBytes text := by
    rw [getBytes_append hascii, hname, List.append_assoc]
    rfl
  have hfield := field_eq hequals (getBytes text)
  refine ⟨?_, ⟨?_, ?_⟩, ?_⟩
  · rw [hbytes, hfield]
  · rw [hbytes]
    simp
  · rw [hbytes, hfield]
    exact hnumber
  · rw [hbytes]
    simp only [List.mem_append, List.mem_cons, not_or]
    exact ⟨hsoh, by decide, htext⟩

section NewOrder

variable (side : Side) (ordType : OrdType) (priceUnits qty : Long) (tif : TimeInForce)
  (maxFloor : Long)

/-- The text of the price. -/
def priceText : Text := if ordType = .pegMid then lit "18=M"
    else lit "44=" ++ formatPrice priceUnits

/-- The texts behind the symbol. -/
def behind : List Text :=
  [lit "54=" ++ [sideCode side], lit "38=" ++ toText qty, lit "40=" ++ [ordTypeCode ordType],
    priceText ordType priceUnits, lit "59=" ++ [tifCode tif]] ++
    if (maxFloor : ℤ) > 0 then [lit "111=" ++ toText maxFloor] else []

/-- The fields behind the symbol. -/
def fieldsBehind : List Field :=
  [⟨[53, 52], [byte (sideCode side)]⟩, ⟨[51, 56], getBytes (toText qty)⟩,
    ⟨[52, 48], [byte (ordTypeCode ordType)]⟩,
    if ordType = .pegMid then ⟨[49, 56], [77]⟩ else ⟨[52, 52], getBytes (formatPrice priceUnits)⟩,
    ⟨[53, 57], [byte (tifCode tif)]⟩] ++
    if (maxFloor : ℤ) > 0 then [⟨[49, 49, 49], getBytes (toText maxFloor)⟩] else []

/-- A new order is assembled from its type, its id and symbol, and the texts behind. -/
theorem newOrderSingle_eq (clOrdId : Long) (symbol : Text) :
    newOrderSingle clOrdId side ordType priceUnits qty symbol tif maxFloor =
      assemble ([lit "35=D", lit "11=" ++ toText clOrdId, lit "55=" ++ symbol] ++
        behind side ordType priceUnits qty tif maxFloor) := by
  unfold newOrderSingle behind priceText
  split_ifs <;> rfl

/-- The texts behind the symbol are fields. -/
theorem isField_behind : List.Forall₂ IsField (behind side ordType priceUnits qty tif maxFloor)
    (fieldsBehind side ordType priceUnits qty tif maxFloor) := by
  have hside : IsField (lit "54=" ++ [sideCode side]) ⟨[53, 52], [byte (sideCode side)]⟩ := by
    have hcode : getBytes [sideCode side] = [byte (sideCode side)] := by cases side <;> rfl
    rw [← hcode]
    exact isField_named (by decide) (by cases side <;> decide)
  have hordType : IsField (lit "40=" ++ [ordTypeCode ordType])
      ⟨[52, 48], [byte (ordTypeCode ordType)]⟩ := by
    have hcode : getBytes [ordTypeCode ordType] = [byte (ordTypeCode ordType)] := by
      cases ordType <;> rfl
    rw [← hcode]
    exact isField_named (by decide) (by cases ordType <;> decide)
  have htif : IsField (lit "59=" ++ [tifCode tif]) ⟨[53, 57], [byte (tifCode tif)]⟩ := by
    have hcode : getBytes [tifCode tif] = [byte (tifCode tif)] := by cases tif <;> rfl
    rw [← hcode]
    exact isField_named (by decide) (by cases tif <;> decide)
  have hprice : IsField (priceText ordType priceUnits) (if ordType = .pegMid then ⟨[49, 56], [77]⟩
      else ⟨[52, 52], getBytes (formatPrice priceUnits)⟩) := by
    unfold priceText
    split_ifs
    · exact ⟨by decide, by decide, by decide⟩
    · exact isField_named (by decide) (soh_notMem_formatPrice _)
  have hqty : IsField (lit "38=" ++ toText qty) ⟨[51, 56], getBytes (toText qty)⟩ :=
    isField_named (by decide) (soh_notMem_toText _)
  have hmaxFloor : IsField (lit "111=" ++ toText maxFloor)
      ⟨[49, 49, 49], getBytes (toText maxFloor)⟩ :=
    isField_named (by decide) (soh_notMem_toText _)
  unfold behind fieldsBehind
  by_cases hfloor : (maxFloor : ℤ) > 0
  · rw [if_pos hfloor, if_pos hfloor]
    exact .cons hside
      (.cons hqty (.cons hordType (.cons hprice (.cons htif (.cons hmaxFloor .nil)))))
  · rw [if_neg hfloor, if_neg hfloor]
    exact .cons hside (.cons hqty (.cons hordType (.cons hprice (.cons htif .nil))))

end NewOrder

/-- The fields of the header of a body of `n` bytes. -/
def fieldsBefore (n : ℕ) : List Field :=
  [⟨[56], getBytes beginString⟩, ⟨[57], getBytes (toText n)⟩]

/-- The fields of the header are proper. -/
theorem isField_before (n : ℕ) : IsField (lit "8=" ++ beginString) ⟨[56], getBytes beginString⟩ ∧
    IsField (lit "9=" ++ toText n) ⟨[57], getBytes (toText n)⟩ :=
  ⟨isField_named (by decide) (by decide), isField_named (by decide) (soh_notMem_toText _)⟩

/-- The trailer is a field. -/
theorem isField_trailer (sum : ℤ) :
    ∃ sumDigits, field (trailerSegment (sum % 256)) = ⟨[49, 48], sumDigits⟩ ∧
    Numbered (trailerSegment (sum % 256)) ∧ soh ∉ trailerSegment (sum % 256) := by
  obtain ⟨sumDigits, htrailer, -, -, hsoh⟩ := trailerSegment_spec sum
  have hbytes : trailerSegment (sum % 256) = [49, 48] ++ equals :: sumDigits := htrailer
  have hfield := @field_eq [49, 48] (by decide) sumDigits
  rw [hbytes]
  refine ⟨sumDigits, hfield, ⟨by simp, ?_⟩, ?_⟩
  · rw [hfield]
    show 0 ≤ longOf [49, 48]
    decide
  · simp only [List.mem_append, List.mem_cons, not_or]
    exact ⟨by decide, by decide, hsoh⟩

/-- The fields of some texts are found in their segments, which have numbers for their tags. -/
theorem forall_isField {texts : List Text} {fs : List Field} (h : List.Forall₂ IsField texts fs) :
    (texts.map getBytes).map field = fs ∧ ∀ s ∈ texts.map getBytes, Numbered s ∧ soh ∉ s := by
  induction h with
  | nil => simp
  | cons hfield _ ih =>
    obtain ⟨hfields, hall⟩ := ih
    rw [List.map_cons, List.map_cons, hfield.field_eq, hfields]
    exact ⟨rfl, List.forall_mem_cons.mpr ⟨⟨hfield.numbered, hfield.soh_notMem⟩, hall⟩⟩

/-- The parts of a text between its field ends have none. -/
theorem soh_notMem_part {bytes s : List Byte} (h : s ∈ bytes.splitOn soh) : soh ∉ s := by
  induction hn : bytes.length using Nat.strongRecOn generalizing bytes with
  | ind n ih =>
    by_cases hsoh : soh ∈ bytes
    · obtain ⟨first, rest, rfl, hfirst⟩ := List.eq_append_cons_of_mem hsoh
      rw [List.splitOn_append_cons_self_of_not_mem hfirst] at h
      rcases List.mem_cons.mp h with rfl | h
      · exact hfirst
      · rw [List.length_append, List.length_cons] at hn
        exact ih rest.length (by omega) h rfl
    · rw [List.splitOn_eq_singleton hsoh, List.mem_singleton] at h
      rw [h]
      exact hsoh

/-- The segments of a message in which one text may have field ends. -/
theorem assemble_splitOn {name : Text} {tag : List Byte} (pre post : List Text) {text : Text}
    {part : List Byte} {extra : List (List Byte)} (hascii : Ascii name)
    (hbytes : getBytes name = tag ++ [equals])
    (htext : (getBytes text).splitOn soh = part :: extra) :
    assemble (pre ++ [name ++ text] ++ post) =
      closed (headerSegments (closed ((pre ++ [name ++ text] ++ post).map getBytes)).length ++
        pre.map getBytes ++ ((tag ++ equals :: part) :: extra) ++ post.map getBytes ++
          [trailerSegment (sumOf (untrailed (pre ++ [name ++ text] ++ post)) % 256)]) := by
  -- The text with its tag is closed as its first part with the tag and the other parts.
  have hclosed : closed [getBytes (name ++ text)] = closed ((tag ++ equals :: part) :: extra) := by
    have hsplit := closed_splitOn (getBytes text)
    rw [htext, closed_cons] at hsplit
    rw [closed_cons, closed_cons, getBytes_append hascii, hbytes]
    simp only [List.append_assoc, List.cons_append, List.nil_append]
    rw [hsplit]
    rfl
  have hmap : (pre ++ [name ++ text] ++ post).map getBytes =
      pre.map getBytes ++ [getBytes (name ++ text)] ++ post.map getBytes := by
    simp only [List.map_append, List.map_cons, List.map_nil]
  rw [assemble_eq, untrailed, hmap]
  simp only [closed_append, hclosed, List.append_assoc]

/-- The parser sees of a message with the texts of some fields between header and trailer, one of
which may have field ends in it, the parts of that text. -/
theorem fields_assemble (name : Text) (tag : List Byte) {pre post : List Text}
    {prefields postfields : List Field} {text : Text} {part : List Byte} {extra : List (List Byte)}
    (hpre : List.Forall₂ IsField pre prefields) (hpost : List.Forall₂ IsField post postfields)
    (hname : Ascii name ∧ getBytes name = tag ++ [equals] ∧ equals ∉ tag ∧ soh ∉ tag ∧
    0 ≤ longOf tag)
    (htext : (getBytes text).splitOn soh = part :: extra) :
    ∃ n sumDigits, fields (assemble (pre ++ [name ++ text] ++ post)) =
        fieldsBefore n ++ prefields ++ [⟨tag, part⟩] ++ extra.map field ++ postfields ++
        [⟨[49, 48], sumDigits⟩] ∧
      (Scannable maxFields (assemble (pre ++ [name ++ text] ++ post)) ↔
        (∀ s ∈ extra, Numbered s) ∧ 4 + prefields.length + extra.length + postfields.length ≤
          maxFields) := by
  have hparts : ∀ s ∈ part :: extra, soh ∉ s := fun s hs => soh_notMem_part (htext ▸ hs)
  obtain ⟨hascii, hbytes, hequals, hsohTag, hnumber⟩ := hname
  obtain ⟨hprefields, hpreAll⟩ := forall_isField hpre
  obtain ⟨hpostfields, hpostAll⟩ := forall_isField hpost
  have hlengths : pre.length = prefields.length ∧ post.length = postfields.length :=
    ⟨hpre.length_eq, hpost.length_eq⟩
  let texts := pre ++ [name ++ text] ++ post
  let n := (closed (texts.map getBytes)).length
  let sum := sumOf (untrailed texts)
  obtain ⟨hversion, hbodyLength⟩ := isField_before n
  obtain ⟨sumDigits, htrailer, htrailerNumbered, htrailerSoh⟩ := isField_trailer sum
  let segments := headerSegments n ++ pre.map getBytes ++ ((tag ++ equals :: part) :: extra) ++
    post.map getBytes ++ [trailerSegment (sum % 256)]
  have hmessage : assemble texts = closed segments := assemble_splitOn pre post hascii hbytes htext
  have hsegment : field (tag ++ equals :: part) = ⟨tag, part⟩ := field_eq hequals part
  have hfirst : Numbered (tag ++ equals :: part) ∧ soh ∉ tag ++ equals :: part := by
    refine ⟨⟨by simp, ?_⟩, ?_⟩
    · rw [hsegment]
      exact hnumber
    · simp only [List.mem_append, List.mem_cons, not_or]
      exact ⟨hsohTag, by decide, hparts part List.mem_cons_self⟩
  have hfree : ∀ s ∈ segments, soh ∉ s := by
    simp only [segments, headerSegments, List.forall_mem_append, List.forall_mem_cons]
    exact ⟨⟨⟨⟨⟨hversion.soh_notMem, hbodyLength.soh_notMem, by simp⟩, fun s hs => (hpreAll s hs).2⟩,
      hfirst.2, fun s hs => hparts s (List.mem_cons_of_mem _ hs)⟩, fun s hs => (hpostAll s hs).2⟩,
      htrailerSoh, by simp⟩
  refine ⟨n, sumDigits, ?_, ?_⟩
  · show fields (assemble texts) = _
    rw [hmessage, fields_closed hfree]
    simp only [segments, List.map_append, List.map_cons, List.map_nil, hprefields, hpostfields,
      hsegment, htrailer, headerSegments, hversion.field_eq, hbodyLength.field_eq, fieldsBefore,
      List.append_assoc, List.cons_append, List.nil_append]
  · show Scannable maxFields (assemble texts) ↔ _
    have hcount : segments.length = 4 + prefields.length + extra.length + postfields.length := by
      simp only [segments, headerSegments, List.length_append, List.length_cons, List.length_nil,
        List.length_map, hlengths.1, hlengths.2]
      omega
    rw [hmessage, scannable_closed hfree, hcount]
    refine and_congr_left fun _ => ⟨fun h s hs => h s ?_, fun h => ?_⟩
    · simp only [segments, List.mem_append, List.mem_cons]
      exact .inl (.inl (.inr (.inr hs)))
    · simp only [segments, headerSegments, List.forall_mem_append, List.forall_mem_cons]
      exact ⟨⟨⟨⟨⟨hversion.numbered, hbodyLength.numbered, by simp⟩, fun s hs => (hpreAll s hs).1⟩,
        hfirst.1, h⟩, fun s hs => (hpostAll s hs).1⟩, htrailerNumbered, by simp⟩

/-! ## Orders -/

/-- What some fields come to as those of a new order, where its id is known. -/
def orderBehind (fs : List Field) (orderId : ℤ) (target : OrderEvent) : Option OrderEvent := do
  let side ← lookup FixConstants.side fs
  let qty ← lookup orderQty fs
  let side ← sideOf side
  guard (0 < longOf qty)
  let ordType ← ordTypeIn fs
  let price ← priceIn fs ordType
  let tif ← tifIn fs
  let maxFloor ← maxFloorIn fs (longOf qty)
  some
    { target with
      eventType := .newOrder
      orderId
      side := some side
      ordType := some ordType
      tif := some tif
      price
      quantity := longOf qty
      maxFloor
      originalOrderId := -1 }

/-- A field is of the tag that its digits write. -/
theorem tagged_mk {tag : ℤ} {digits value : List Byte} {n : ℤ} (h : toInt (number digits) = n) :
    Field.Tagged tag ⟨digits, value⟩ ↔ n = tag := by
  rw [Field.Tagged, h]

/-- The event of a new order with some fields behind its symbol. -/
theorem eventOf_newOrder (n : ℕ) (idText part sumDigits : List Byte) (fs : List Field)
    (target : OrderEvent) :
    eventOf (fieldsBefore n ++ [⟨[51, 53], [68]⟩, ⟨[49, 49], idText⟩] ++ [⟨[53, 53], part⟩] ++ fs ++
      [⟨[49, 48], sumDigits⟩]) target =
      if part = symbolBytes ∧ 0 ≤ longOf idText then orderBehind fs (longOf idText) target
      else none := by
  have h8 : toInt (number [56]) = 8 := by decide
  have h9 : toInt (number [57]) = 9 := by decide
  have h35 : toInt (number [51, 53]) = 35 := by decide
  have h11 : toInt (number [49, 49]) = 11 := by decide
  have h55 : toInt (number [53, 53]) = 55 := by decide
  have h10 : toInt (number [49, 48]) = 10 := by decide
  let front : List Field := fieldsBefore n ++ [⟨[51, 53], [68]⟩, ⟨[49, 49], idText⟩] ++
    [⟨[53, 53], part⟩]
  let all := front ++ fs ++ [⟨[49, 48], sumDigits⟩]
  -- The type, the id and the symbol come first, and what the parser looks up else comes from the
  -- fields behind.
  have hfront : ∀ tag : ℤ, lookup tag all = if tag = 8 then some (getBytes beginString) else
      if tag = 9 then some (getBytes (toText n)) else if tag = 35 then some [68] else
      if tag = 11 then some idText else if tag = 55 then some part else
        (lookup tag fs).or (if tag = 10 then some sumDigits else none) := by
    intro tag
    simp only [all, front, fieldsBefore, List.cons_append, List.nil_append, lookup_cons,
      lookup_append, lookup_nil, tagged_mk h8, tagged_mk h9, tagged_mk h35, tagged_mk h11,
      tagged_mk h55, tagged_mk h10, eq_comm (b := tag)]
  have hbehind : ∀ tag : ℤ, tag ∉ [8, 9, 35, 11, 55, 10] → lookup tag all = lookup tag fs := by
    intro tag htag
    simp only [List.mem_cons, not_or, List.not_mem_nil] at htag
    obtain ⟨h8, h9, h35, h11, h55, h10, -⟩ := htag
    rw [hfront, if_neg h8, if_neg h9, if_neg h35, if_neg h11, if_neg h55, if_neg h10,
      Option.or_none]
  show eventOf all target = _
  have htype : lookup messageType all = some [msgTypeNewOrder] := hfront 35
  have hid : lookup clOrdId all = some idText := hfront 11
  have hsymbol : lookup symbol all = some part := hfront 55
  have hside := hbehind FixConstants.side (by decide)
  have hqty := hbehind orderQty (by decide)
  have hordType : ordTypeIn all = ordTypeIn fs := by
    rw [ordTypeIn, ordTypeIn, hbehind FixConstants.ordType (by decide)]
  have hprice : ∀ ordType, priceIn all ordType = priceIn fs ordType := by
    intro ordType
    cases ordType <;> simp only [priceIn, hbehind FixConstants.price (by decide),
      hbehind execInst (by decide)]
  have htif : tifIn all = tifIn fs := by
    rw [tifIn, tifIn, hbehind timeInForce (by decide)]
  have hmaxFloor : ∀ qty, maxFloorIn all qty = maxFloorIn fs qty := by
    intro qty
    rw [maxFloorIn, maxFloorIn, hbehind FixConstants.maxFloor (by decide)]
  rw [eventOf, htype]
  simp only [Option.bind_eq_bind, Option.bind_some, if_true]
  rw [newOrderOf]
  simp only [hid, hsymbol, hside, hqty, hordType, hprice, htif, hmaxFloor, Option.bind_eq_bind,
    Option.bind_some]
  unfold orderBehind
  cases lookup FixConstants.side fs with
  | none => exact (ite_self none).symm
  | some side =>
  cases lookup orderQty fs with
  | none => exact (ite_self none).symm
  | some qty =>
  simp only [Option.bind_some]
  by_cases hguard : part = symbolBytes ∧ 0 ≤ longOf idText
  · rw [guard_bind_pos hguard, if_pos hguard]
    rfl
  · rw [guard_bind_neg hguard, if_neg hguard]

/-- The parser takes a new order apart, and the symbol and the id of it pass: the first part of the
symbol is the one symbol there is, and its other parts are fields. -/
def Opens (clOrdId : Long) (part : List Byte) (extra : List (List Byte))
    (behind : List Field) : Prop :=
  part = symbolBytes ∧ 0 ≤ clOrdId.1 ∧ (∀ s ∈ extra, Numbered s) ∧
    6 + extra.length + behind.length ≤ maxFields

/-- The parser accepts a new order where it opens so and the fields behind the symbol come to an
order. -/
theorem parse_newOrderSingle (p : FixParser) (clOrdId : Long) (side : Side) (ordType : OrdType)
    (priceUnits qty : Long) (tif : TimeInForce) (maxFloor : Long) (target : OrderEvent)
    {symbol : Text} {part : List Byte} {extra : List (List Byte)}
    (hsymbol : (getBytes symbol).splitOn soh = part :: extra) :
    ∃ p', (Opens clOrdId part extra (fieldsBehind side ordType priceUnits qty tif maxFloor) ∧
        p.parse (newOrderSingle clOrdId side ordType priceUnits qty symbol tif maxFloor) 0
          (newOrderSingle clOrdId side ordType priceUnits qty symbol tif maxFloor).length target =
          .ok (p',
            orderBehind (extra.map field ++ fieldsBehind side ordType priceUnits qty tif maxFloor)
            clOrdId target)) ∨
      ¬ Opens clOrdId part extra (fieldsBehind side ordType priceUnits qty tif maxFloor) ∧
        p.parse (newOrderSingle clOrdId side ordType priceUnits qty symbol tif maxFloor) 0
          (newOrderSingle clOrdId side ordType priceUnits qty symbol tif maxFloor).length target =
          .ok (p', none) := by
  have htype : IsField (lit "35=D") ⟨[51, 53], [68]⟩ :=
    ⟨by decide, by decide, by decide⟩
  have hid : IsField (lit "11=" ++ toText clOrdId) ⟨[49, 49], getBytes (toText clOrdId)⟩ :=
    isField_named (by decide) (soh_notMem_toText _)
  obtain ⟨n, sumDigits, hfields, hscan⟩ :=
    fields_assemble (lit "55=") [53, 53] (.cons htype (.cons hid .nil))
    (isField_behind side ordType priceUnits qty tif maxFloor) (by decide) hsymbol
  have hmessage := newOrderSingle_eq side ordType priceUnits qty tif maxFloor clOrdId symbol
  have hchecked :=
    checked_assemble ([lit "35=D", lit "11=" ++ toText clOrdId, lit "55=" ++ symbol] ++
      behind side ordType priceUnits qty tif maxFloor)
  rw [← hmessage] at hchecked
  have hfields' :
      fields (newOrderSingle clOrdId side ordType priceUnits qty symbol tif maxFloor) = _ :=
    (congrArg fields hmessage).trans hfields
  have hscan' : Scannable maxFields
      (newOrderSingle clOrdId side ordType priceUnits qty symbol tif maxFloor) ↔ _ :=
    (iff_of_eq (congrArg (Scannable maxFields) hmessage)).trans hscan
  have hevent := eventOf_newOrder n (getBytes (toText clOrdId)) part sumDigits
    (extra.map field ++ fieldsBehind side ordType priceUnits qty tif maxFloor) target
  have hidValue : longOf (getBytes (toText clOrdId)) = if 0 ≤ clOrdId.1 then clOrdId.1 else -1 :=
    longOf_toText clOrdId
  have hpos : 0 ≤ longOf (getBytes (toText clOrdId)) ↔ 0 ≤ clOrdId.1 := by
    rw [hidValue]
    split_ifs with h <;> simp [h]
  have hcount : 4 + [(⟨[51, 53], [68]⟩ : Field), ⟨[49, 49], getBytes (toText clOrdId)⟩].length +
      extra.length + (fieldsBehind side ordType priceUnits qty tif maxFloor).length =
      6 + extra.length + (fieldsBehind side ordType priceUnits qty tif maxFloor).length := rfl
  rw [hcount] at hscan'
  obtain ⟨p', ⟨-, hcan, hrun⟩ | ⟨hcannot, hrun⟩⟩ :=
    parse_eq p (newOrderSingle clOrdId side ordType priceUnits qty symbol tif maxFloor) target
  · obtain ⟨hnumbered, hfits⟩ := hscan'.mp hcan
    refine ⟨p', ?_⟩
    rw [hrun, hfields']
    simp only [List.append_assoc] at hevent ⊢
    rw [hevent]
    by_cases haccepted : part = symbolBytes ∧ 0 ≤ longOf (getBytes (toText clOrdId))
    · rw [if_pos haccepted, hidValue, if_pos (hpos.mp haccepted.2)]
      exact .inl ⟨⟨haccepted.1, hpos.mp haccepted.2, hnumbered, hfits⟩, rfl⟩
    · rw [if_neg haccepted]
      exact .inr ⟨fun hopens => haccepted ⟨hopens.1, hpos.mpr hopens.2.1⟩, rfl⟩
  · exact ⟨p', .inr ⟨fun hopens => hcannot ⟨hchecked, hscan'.mpr hopens.2.2⟩, hrun⟩⟩

section NewOrder

variable (side : Side) (ordType : OrdType) (priceUnits qty : Long) (tif : TimeInForce)
  (maxFloor : Long)

/-- What the fields behind the symbol have under a tag. -/
theorem lookup_fieldsBehind (tag : ℤ) :
    lookup tag (fieldsBehind side ordType priceUnits qty tif maxFloor) =
    if tag = 54 then some [byte (sideCode side)] else
    if tag = 38 then some (getBytes (toText qty)) else
    if tag = 40 then some [byte (ordTypeCode ordType)] else
    if ordType = .pegMid ∧ tag = 18 then some [77] else
    if ordType = .limit ∧ tag = 44 then some (getBytes (formatPrice priceUnits)) else
    if tag = 59 then some [byte (tifCode tif)] else
    if (maxFloor : ℤ) > 0 ∧ tag = 111 then some (getBytes (toText maxFloor)) else none := by
  have h54 : toInt (number [53, 52]) = 54 := by decide
  have h38 : toInt (number [51, 56]) = 38 := by decide
  have h40 : toInt (number [52, 48]) = 40 := by decide
  have h18 : toInt (number [49, 56]) = 18 := by decide
  have h44 : toInt (number [52, 52]) = 44 := by decide
  have h59 : toInt (number [53, 57]) = 59 := by decide
  have h111 : toInt (number [49, 49, 49]) = 111 := by decide
  unfold fieldsBehind
  cases ordType <;> by_cases hfloor : (maxFloor : ℤ) > 0 <;>
    simp [hfloor, lookup_cons, lookup_nil, tagged_mk h54, tagged_mk h38, tagged_mk h40,
      tagged_mk h18, tagged_mk h44, tagged_mk h59, tagged_mk h111, eq_comm (b := tag)]

/-- The event of a new order. -/
def newOrderEvent (clOrdId : Long) (target : OrderEvent) : OrderEvent :=
  { target with
    eventType := .newOrder
    orderId := clOrdId
    side := some side
    ordType := some ordType
    tif := some tif
    price := if ordType = .pegMid then Prices.na else priceUnits
    quantity := qty
    maxFloor := if (maxFloor : ℤ) > 0 then maxFloor else 0
    originalOrderId := -1 }

/-- The sizes and the price of a new order are in order. -/
def Sound : Prop :=
  0 < qty.1 ∧ (0 < maxFloor.1 → maxFloor.1 ≤ qty.1) ∧
    (ordType = .pegMid ∨ 0 < priceUnits.1 ∧ priceUnits.1 % 100 = 0)

/-- A written limit is read back where it is on the tick and positive, and refused otherwise. -/
theorem priceIn_limit {priceUnits : Long} {fs : List Field}
    (h : lookup FixConstants.price fs = some (getBytes (formatPrice priceUnits))) :
    priceIn fs .limit = if 0 < priceUnits.1 ∧ priceUnits.1 % 100 = 0 then some priceUnits.1
      else none := by
  simp only [priceIn, h]
  by_cases htick : 0 < priceUnits.1 ∧ priceUnits.1 % 100 = 0
  · rw [priceOf_onTick htick.1 htick.2 priceUnits.2.2, if_neg (Int.not_lt.mpr htick.1.le),
      if_pos htick]
  · rw [priceOf_offTick htick, if_neg htick]
    rfl

/-- A peg is read without a price. -/
theorem priceIn_pegMid {fs : List Field} (hprice : lookup FixConstants.price fs = none)
    (hexec : lookup execInst fs = some [77]) : priceIn fs .pegMid = some Prices.na := by
  simp [priceIn, hprice, hexec, IsMid]

/-- The price that the fields behind the symbol come to. -/
theorem priceIn_fieldsBehind :
    priceIn (fieldsBehind side ordType priceUnits qty tif maxFloor) ordType =
    if ordType = .pegMid ∨ 0 < priceUnits.1 ∧ priceUnits.1 % 100 = 0 then
      some (if ordType = .pegMid then Prices.na else priceUnits.1) else none := by
  have hlookup := lookup_fieldsBehind side ordType priceUnits qty tif maxFloor
  cases ordType with
  | pegMid =>
    have h44 : lookup 44 (fieldsBehind side .pegMid priceUnits qty tif maxFloor) = none := by
      simpa using hlookup 44
    have h18 : lookup 18 (fieldsBehind side .pegMid priceUnits qty tif maxFloor) = some [77] := by
      simpa using hlookup 18
    rw [if_pos (.inl rfl), if_pos rfl]
    exact priceIn_pegMid h44 h18
  | limit =>
    have h44 : lookup 44 (fieldsBehind side .limit priceUnits qty tif maxFloor) =
        some (getBytes (formatPrice priceUnits)) := by
      simpa using hlookup 44
    rw [priceIn_limit h44]
    by_cases htick : 0 < priceUnits.1 ∧ priceUnits.1 % 100 = 0
    · rw [if_pos htick, if_pos (.inr htick), if_neg (by decide)]
    · rw [if_neg htick, if_neg (not_or.mpr ⟨by decide, htick⟩)]

/-- The display size that they come to. -/
theorem maxFloorIn_fieldsBehind :
    maxFloorIn (fieldsBehind side ordType priceUnits qty tif maxFloor) qty =
    if 0 < maxFloor.1 → maxFloor.1 ≤ qty.1 then some (if maxFloor.1 > 0 then maxFloor.1 else 0)
      else none := by
  have hlookup : lookup FixConstants.maxFloor
      (fieldsBehind side ordType priceUnits qty tif maxFloor) =
      if maxFloor.1 > 0 then some (getBytes (toText maxFloor)) else none := by
    have h111 : lookup 111 (fieldsBehind side ordType priceUnits qty tif maxFloor) =
        if maxFloor.1 > 0 then some (getBytes (toText maxFloor)) else none := by
      simpa using lookup_fieldsBehind side ordType priceUnits qty tif maxFloor 111
    exact h111
  rw [maxFloorIn, hlookup]
  by_cases hfloor : maxFloor.1 > 0
  · have hvalue : longOf (getBytes (toText maxFloor)) = maxFloor :=
      (longOf_toText maxFloor).trans (if_pos hfloor.le)
    simp only [if_pos hfloor, hvalue]
    by_cases hle : maxFloor.1 ≤ qty.1
    · rw [if_neg (by omega), if_pos fun _ => hle]
    · rw [if_pos (by omega), if_neg fun h => hle (h hfloor)]
  · rw [if_neg hfloor, if_pos fun h => absurd h hfloor, if_neg hfloor]

/-- The fields that the encoder writes behind the symbol come to the order that it was given. -/
theorem orderBehind_eq (clOrdId : Long) (target : OrderEvent) :
    (Sound ordType priceUnits qty maxFloor ∧
      orderBehind (fieldsBehind side ordType priceUnits qty tif maxFloor) clOrdId target =
        some (newOrderEvent side ordType priceUnits qty tif maxFloor clOrdId target)) ∨
    ¬ Sound ordType priceUnits qty maxFloor ∧
      orderBehind (fieldsBehind side ordType priceUnits qty tif maxFloor) clOrdId target =
      none := by
  have hlookup := lookup_fieldsBehind side ordType priceUnits qty tif maxFloor
  have hprice := priceIn_fieldsBehind side ordType priceUnits qty tif maxFloor
  have hmaxFloor := maxFloorIn_fieldsBehind side ordType priceUnits qty tif maxFloor
  have hside : sideOf [byte (sideCode side)] = some side := by cases side <;> rfl
  have htif : tifOf [byte (tifCode tif)] = some tif := by cases tif <;> rfl
  have hordType : ordTypeOf [byte (ordTypeCode ordType)] = some ordType := by cases ordType <;> rfl
  generalize fieldsBehind side ordType priceUnits qty tif maxFloor = fs at hlookup hprice hmaxFloor
  have h54 : lookup FixConstants.side fs = some [byte (sideCode side)] := hlookup 54
  have h38 : lookup orderQty fs = some (getBytes (toText qty)) := hlookup 38
  have h40 : lookup FixConstants.ordType fs = some [byte (ordTypeCode ordType)] := hlookup 40
  have h59 : lookup timeInForce fs = some [byte (tifCode tif)] := by
    have htag : lookup 59 fs = some [byte (tifCode tif)] := by simpa using hlookup 59
    exact htag
  have hqty : longOf (getBytes (toText qty)) = if 0 ≤ qty.1 then qty.1 else -1 := longOf_toText qty
  unfold orderBehind
  simp only [h54, h38, hside, Option.bind_eq_bind, Option.bind_some]
  -- The quantity, the price and the display size may each be refused, in this order.
  by_cases hpos : 0 < qty.1
  swap
  · have hno : ¬ 0 < longOf (getBytes (toText qty)) := by
      rw [hqty]
      split_ifs <;> omega
    exact .inr ⟨fun hsound => hpos hsound.1, guard_bind_neg hno _⟩
  have hvalue : longOf (getBytes (toText qty)) = qty := hqty.trans (if_pos hpos.le)
  rw [hvalue, guard_bind_pos hpos, ordTypeIn, h40]
  simp only [hordType, Option.bind_some]
  rw [hprice, hmaxFloor, tifIn, h59]
  simp only [htif]
  by_cases hpriced : ordType = .pegMid ∨ 0 < priceUnits.1 ∧ priceUnits.1 % 100 = 0
  swap
  · rw [if_neg hpriced]
    exact .inr ⟨fun hsound => hpriced hsound.2.2, rfl⟩
  by_cases hfloor : 0 < maxFloor.1 → maxFloor.1 ≤ qty.1
  · rw [if_pos hpriced, if_pos hfloor]
    exact .inl ⟨⟨hpos, hfloor, hpriced⟩, rfl⟩
  · rw [if_pos hpriced, if_neg hfloor]
    exact .inr ⟨fun hsound => hfloor hsound.2.1, rfl⟩

end NewOrder

end JsonToFix

end MatchingVenue
