import MatchingVenue.Gateway.OrderGateway

/-!
# What the parser accepts

The parser as a function of the bytes of a message. `Scannable` says which messages the scanner
takes apart, and `newOrderOf` and `cancelOf` what the fields of one come to. `parse_eq` puts them
together: the parser never throws, and it accepts exactly what these accept, with the same event.
-/

namespace MatchingVenue

open FixConstants

namespace Wire

/-! ## Messages that can be taken apart -/

/-- A field end closes a tag that is a number, and a value. -/
def Numbered (segment : List Byte) : Prop := equals ∈ segment ∧ 0 ≤ longOf (field segment).tag

/-- Whether a segment has a number for its tag can be decided. -/
instance : DecidablePred Numbered := fun _ => by
  unfold Numbered
  infer_instance

/-- The scanner takes a message apart where it has room for some fields: nothing is behind the last
field end, and before each stands a field. -/
structure Scannable (room : ℕ) (message : List Byte) : Prop where
  /-- The message ends with a field end. -/
  ends : (message.splitOn soh).getLast? = some []
  /-- Every segment has a number for its tag. -/
  numbered : ∀ segment ∈ (message.splitOn soh).dropLast, Numbered segment
  /-- There is room for the fields. -/
  fits : (message.splitOn soh).dropLast.length ≤ room

section Scannable

variable {room : ℕ} {segment rest : List Byte}

/-- Nothing is scanned where there is nothing. -/
theorem scannable_nil : Scannable room [] := ⟨rfl, by simp, by simp⟩

/-- Bytes with no field end are no field. -/
theorem not_scannable (hne : segment ≠ []) (h : soh ∉ segment) : ¬ Scannable room segment := by
  intro hscan
  have hends := hscan.ends
  rw [List.splitOn_eq_singleton h] at hends
  exact hne (Option.some.inj hends)

/-- Bytes are scanned where their first segment has a number for its tag, there is room for it, and
the rest is scanned in what room is left. -/
theorem scannable_cons (h : soh ∉ segment) :
    Scannable room (segment ++ soh :: rest) ↔
      Numbered segment ∧ 0 < room ∧ Scannable (room - 1) rest := by
  have hsplit := List.splitOn_append_cons_self_of_not_mem h rest
  have hne := List.splitOn_ne_nil soh rest
  have hlast : (segment :: rest.splitOn soh).getLast? = (rest.splitOn soh).getLast? := by
    rw [List.getLast?_cons_of_ne_nil hne]
  have hdrop := List.dropLast_cons_of_ne_nil (x := segment) hne
  constructor
  · rintro ⟨hends, hnumbered, hfits⟩
    rw [hsplit, hlast] at hends
    rw [hsplit, hdrop] at hnumbered hfits
    rw [List.length_cons] at hfits
    exact ⟨hnumbered _ List.mem_cons_self, by omega, hends,
      fun x hx => hnumbered x (List.mem_cons_of_mem _ hx), by omega⟩
  · rintro ⟨hnumber, hroom, hends, hnumbered, hfits⟩
    refine ⟨?_, ?_, ?_⟩
    · rw [hsplit, hlast]
      exact hends
    · rw [hsplit, hdrop]
      exact List.forall_mem_cons.mpr ⟨hnumber, hnumbered⟩
    · rw [hsplit, hdrop, List.length_cons]
      omega

end Scannable

/-! ## The scanner -/

section Scan

variable {buf tag value rest : List Byte}

/-- The search for the `=` stops at it. -/
theorem seekEquals_found (n : ℕ) {i : ℕ} (h : i + n ≤ buf.length) (hequals : equals ∉ tag)
    (hsoh : soh ∉ tag) (hwindow : window buf i (i + n) = tag ++ equals :: rest) :
    FixParser.seekEquals buf n i = .ok (some (i + tag.length)) := by
  induction n generalizing i tag with
  | zero =>
    rw [Nat.add_zero, window_self] at hwindow
    simp at hwindow
  | succ n ih =>
    obtain ⟨b, hload, hcons⟩ := window_succ h
    rw [hcons] at hwindow
    rw [FixParser.seekEquals, hload, ok_bind]
    cases tag with
    | nil =>
      obtain ⟨rfl, -⟩ := List.cons.inj hwindow
      rw [if_pos rfl]
      rfl
    | cons c tag =>
      obtain ⟨rfl, hrest⟩ := List.cons.inj hwindow
      simp only [List.mem_cons, not_or] at hequals hsoh
      rw [if_neg (Ne.symm hequals.1), if_neg (Ne.symm hsoh.1), ih (by omega) hequals.2 hsoh.2 hrest,
        List.length_cons]
      refine congrArg (fun j => Except.ok (some j)) ?_
      omega

/-- The search for the `=` gives up at a field end. -/
theorem seekEquals_soh (n : ℕ) {i : ℕ} (h : i + n ≤ buf.length) (hequals : equals ∉ tag)
    (hwindow : window buf i (i + n) = tag ++ soh :: rest) :
    FixParser.seekEquals buf n i = .ok none := by
  induction n generalizing i tag with
  | zero =>
    rw [Nat.add_zero, window_self] at hwindow
    simp at hwindow
  | succ n ih =>
    obtain ⟨b, hload, hcons⟩ := window_succ h
    rw [hcons] at hwindow
    rw [FixParser.seekEquals, hload, ok_bind]
    cases tag with
    | nil =>
      obtain ⟨rfl, -⟩ := List.cons.inj hwindow
      rfl
    | cons c tag =>
      obtain ⟨rfl, hrest⟩ := List.cons.inj hwindow
      simp only [List.mem_cons, not_or] at hequals
      rw [if_neg (Ne.symm hequals.1)]
      split_ifs with hb
      · rfl
      · exact ih (by omega) hequals.2 hrest

/-- The search for the `=` finds none where the bytes run out. -/
theorem seekEquals_end (n : ℕ) {i : ℕ} (h : i + n ≤ buf.length)
    (hequals : equals ∉ window buf i (i + n)) (hsoh : soh ∉ window buf i (i + n)) :
    FixParser.seekEquals buf n i = .ok (some (i + n)) := by
  induction n generalizing i with
  | zero => rfl
  | succ n ih =>
    obtain ⟨b, hload, hcons⟩ := window_succ h
    rw [hcons] at hequals hsoh
    simp only [List.mem_cons, not_or] at hequals hsoh
    rw [FixParser.seekEquals, hload, ok_bind, if_neg (Ne.symm hequals.1), if_neg (Ne.symm hsoh.1),
      ih (by omega) hequals.2 hsoh.2]
    refine congrArg (fun j => Except.ok (some j)) ?_
    omega

/-- The search for the end of a value stops at the first field end, or where the bytes run out. -/
theorem seekSoh_eq (n : ℕ) {i : ℕ} (h : i + n ≤ buf.length) (hvalue : soh ∉ value)
    (hwindow : window buf i (i + n) = value ∨ window buf i (i + n) = value ++ soh :: rest) :
    FixParser.seekSoh buf n i = .ok (i + value.length) := by
  induction n generalizing i value with
  | zero =>
    rw [Nat.add_zero, window_self] at hwindow
    obtain rfl : value = [] := by
      rcases hwindow with hnil | hcons
      · exact hnil.symm
      · simp at hcons
    rfl
  | succ n ih =>
    obtain ⟨b, hload, hcons⟩ := window_succ h
    rw [hcons] at hwindow
    rw [FixParser.seekSoh, hload, ok_bind]
    cases value with
    | nil =>
      obtain ⟨hb, -⟩ : b = soh ∧ window buf (i + 1) (i + 1 + n) = rest := by simpa using hwindow
      rw [if_pos hb]
      rfl
    | cons c value =>
      simp only [List.cons_append, List.cons.injEq, ← and_or_left] at hwindow
      obtain ⟨rfl, hrest⟩ := hwindow
      simp only [List.mem_cons, not_or] at hvalue
      rw [if_neg (Ne.symm hvalue.1), ih (by omega) hvalue.2 hrest, List.length_cons]
      refine congrArg Except.ok ?_
      omega

/-- There is room for a field below the end of the arrays. -/
theorem record_ok (p : FixParser) {count : ℕ} (h : count < maxFields) (n : ℤ)
    (valStart valEnd : ℕ) :
    ∃ p', p.record count n valStart valEnd = .ok p' := by
  rw [FixParser.record, dif_pos h]
  exact ⟨_, rfl⟩

/-- The turn of the loop of the scanner at a field: a tag that is no number and a field too many end
it. -/
theorem scanFrom_field {stop fuel pos count : ℕ} (p : FixParser) (hstop : stop ≤ buf.length)
    (hpos : pos ≤ stop) (htag : equals ∉ tag) (hsohTag : soh ∉ tag) (hsohValue : soh ∉ value)
    (hwindow : window buf pos stop = tag ++ equals :: (value ++ soh :: rest)) :
    window buf (pos + tag.length + 1 + value.length + 1) stop = rest ∧
      pos + tag.length + 1 + value.length + 1 ≤ stop ∧
      FixParser.scanFrom buf stop (fuel + 1) pos p count =
        if longOf tag < 0 ∨ count = maxFields then .ok (p, none)
        else (do
          let p ← p.record count (toInt (longOf tag)) (pos + tag.length + 1)
            (pos + tag.length + 1 + value.length)
          FixParser.scanFrom buf stop fuel (pos + tag.length + 1 + value.length + 1) p
            (count + 1)) := by
  have hsize := congrArg List.length hwindow
  simp only [length_window _ hstop, List.length_append, List.length_cons] at hsize
  -- The tag ends at the `=`, and the value at the field end.
  have hvalue := window_after hwindow
  have hrange : pos + (stop - pos) = stop := by omega
  have hafter : pos + tag.length + 1 + (stop - (pos + tag.length + 1)) = stop := by omega
  have hfound := seekEquals_found (stop - pos) (by omega) htag hsohTag (hrange.symm ▸ hwindow)
  have hend := seekSoh_eq (stop - (pos + tag.length + 1)) (by omega) hsohValue
    (.inr (hafter.symm ▸ hvalue))
  refine ⟨window_after hvalue, by omega, ?_⟩
  rw [FixParser.scanFrom, if_pos (by omega), hfound, ok_bind]
  simp only
  rw [if_neg (by omega), hend, ok_bind, if_neg (by omega), FixParser.parseLong,
    parseLong_eq (by omega), window_left hstop hwindow, ok_bind]
  by_cases hnumber : longOf tag < 0
  · rw [if_pos hnumber, if_pos (.inl hnumber)]
    rfl
  · rw [if_neg hnumber]
    by_cases hfull : count = maxFields
    · rw [if_pos hfull, if_pos (.inr hfull)]
      rfl
    · rw [if_neg hfull, if_neg (not_or.mpr ⟨hnumber, hfull⟩)]

/-- The scanner gives up where no field end is left. -/
theorem scanFrom_open {stop fuel pos count : ℕ} (p : FixParser) (hstop : stop ≤ buf.length)
    (hpos : pos < stop) (hsoh : soh ∉ window buf pos stop) :
    FixParser.scanFrom buf stop (fuel + 1) pos p count = .ok (p, none) := by
  have hrange : pos + (stop - pos) = stop := by omega
  rw [FixParser.scanFrom, if_pos hpos]
  by_cases hequals : equals ∈ window buf pos stop
  · obtain ⟨tag, value, hwindow, htag⟩ := List.eq_append_cons_of_mem hequals
    rw [hwindow] at hsoh
    simp only [List.mem_append, List.mem_cons, not_or] at hsoh
    obtain ⟨hsohTag, -, hsohValue⟩ := hsoh
    have hsize := congrArg List.length hwindow
    rw [length_window _ hstop, List.length_append, List.length_cons] at hsize
    have hvalue := window_after hwindow
    have hafter : pos + tag.length + 1 + (stop - (pos + tag.length + 1)) = stop := by omega
    have hfound := seekEquals_found (stop - pos) (by omega) htag hsohTag (hrange.symm ▸ hwindow)
    have hend := @seekSoh_eq buf value [] (stop - (pos + tag.length + 1)) (pos + tag.length + 1)
      (by omega) hsohValue
      (.inl (hafter.symm ▸ hvalue))
    rw [hfound, ok_bind]
    simp only
    rw [if_neg (by omega), hend, ok_bind, if_pos (by omega)]
    rfl
  · rw [← hrange] at hequals hsoh
    rw [seekEquals_end (stop - pos) (by omega) hequals hsoh, ok_bind, hrange]
    simp only [if_true]
    rfl

/-- The scanner returns, and it has counted the fields exactly where the bytes are those of fields
that it has room for. -/
theorem scanFrom_eq {stop fuel pos count : ℕ} (p : FixParser) (hstop : stop ≤ buf.length)
    (hpos : pos ≤ stop) (hfuel : stop - pos < fuel) (hcount : count ≤ maxFields) :
    ∃ p', (Scannable (maxFields - count) (window buf pos stop) ∧
        FixParser.scanFrom buf stop fuel pos p count =
          .ok (p', some (count + (fields (window buf pos stop)).length))) ∨
      ¬ Scannable (maxFields - count) (window buf pos stop) ∧
        FixParser.scanFrom buf stop fuel pos p count = .ok (p', none) := by
  induction fuel generalizing pos p count with
  | zero => omega
  | succ fuel ih =>
    by_cases hlt : pos < stop
    swap
    · -- All bytes have been read.
      obtain rfl : pos = stop := by omega
      rw [FixParser.scanFrom, if_neg hlt, window_self]
      exact ⟨p, .inl ⟨scannable_nil, rfl⟩⟩
    have hlength := length_window pos hstop
    by_cases hsoh : soh ∈ window buf pos stop
    swap
    · have hne : window buf pos stop ≠ [] := by
        rw [← List.length_pos_iff, hlength]
        omega
      exact ⟨p, .inr ⟨not_scannable hne hsoh, scanFrom_open p hstop hlt hsoh⟩⟩
    obtain ⟨segment, rest, hwindow, hsegment⟩ := List.eq_append_cons_of_mem hsoh
    have hscan := @scannable_cons (maxFields - count) segment rest hsegment
    rw [← hwindow] at hscan
    by_cases hequals : equals ∈ segment
    swap
    · -- The field end comes before an `=`.
      have hrange : pos + (stop - pos) = stop := by omega
      have hseek := seekEquals_soh (stop - pos) (by omega) hequals (hrange.symm ▸ hwindow)
      refine ⟨p, .inr ⟨fun hand => hequals (hscan.mp hand).1.1, ?_⟩⟩
      rw [FixParser.scanFrom, if_pos hlt, hseek]
      rfl
    obtain ⟨tag, value, rfl, htag⟩ := List.eq_append_cons_of_mem hequals
    have hnumbered : Numbered (tag ++ equals :: value) ↔ 0 ≤ longOf tag := by
      rw [Numbered, field_eq htag]
      exact and_iff_right hequals
    rw [hnumbered] at hscan
    simp only [List.mem_append, List.mem_cons, not_or] at hsegment
    obtain ⟨hsohTag, -, hsohValue⟩ := hsegment
    rw [List.append_assoc, List.cons_append] at hwindow
    obtain ⟨hrest, hnext, hturn⟩ :=
      @scanFrom_field buf tag value rest stop fuel pos count p hstop hpos htag hsohTag
        hsohValue hwindow
    rw [hturn]
    by_cases hstops : longOf tag < 0 ∨ count = maxFields
    · refine ⟨p, .inr ⟨fun hand => ?_, if_pos hstops⟩⟩
      obtain ⟨hnumber, hroom, -⟩ := hscan.mp hand
      omega
    rw [if_neg hstops]
    obtain ⟨hnumber, hfull⟩ := not_or.mp hstops
    obtain ⟨p₁, hrecord⟩ := @record_ok p count (by omega) (toInt (longOf tag))
      (pos + tag.length + 1) (pos + tag.length + 1 + value.length)
    have hroom : maxFields - count - 1 = maxFields - (count + 1) := by omega
    rw [hroom, ← hrest] at hscan
    have hfields : fields (window buf pos stop) =
        ⟨tag, value⟩ :: fields (window buf (pos + tag.length + 1 + value.length + 1) stop) := by
      rw [hwindow, fields_cons hsohTag htag hsohValue, hrest]
    obtain ⟨p', hrun⟩ := @ih (pos + tag.length + 1 + value.length + 1) (count + 1) p₁
      hnext (by omega) (by omega)
    rw [hrecord, ok_bind, hfields, List.length_cons]
    rcases hrun with ⟨hcan, hrun⟩ | ⟨hcannot, hrun⟩
    · refine ⟨p', .inl ⟨hscan.mpr ⟨by omega, by omega, hcan⟩, ?_⟩⟩
      rw [hrun]
      refine congrArg (fun n => Except.ok (p', some n)) ?_
      omega
    · exact ⟨p', .inr ⟨fun hand => hcannot (hscan.mp hand).2.2, hrun⟩⟩

end Scan

/-! ## What the fields come to -/

/-- The value of the first field of a tag. -/
def lookup (tag : ℤ) (fs : List Field) : Option (List Byte) :=
  (fs.find? fun f => f.Tagged tag).map Field.value

/-- No field is found among none. -/
theorem lookup_nil (tag : ℤ) : lookup tag [] = none := rfl

/-- A tag is looked up in the first field, and in the others where that has another tag. -/
theorem lookup_cons (tag : ℤ) (f : Field) (fs : List Field) :
    lookup tag (f :: fs) = if f.Tagged tag then some f.value else lookup tag fs := by
  unfold lookup
  split_ifs with htag <;> simp [htag]

/-- The first field of a tag stands in the first of two lists that has one. -/
theorem lookup_append (tag : ℤ) (fs more : List Field) :
    lookup tag (fs ++ more) = (lookup tag fs).or (lookup tag more) := by
  rw [lookup, List.find?_append, Option.map_or]
  rfl

/-- The meaning of a text of one byte. -/
def byteOf {α : Type} (code : Byte → Option α) : List Byte → Option α
  | [b] => code b
  | _ => none

/-- The side of a code. -/
def sideOf : List Byte → Option Side :=
  byteOf fun b => if b = 49 then some .buy else if b = 50 then some .sell else none

/-- The time in force of a code. -/
def tifOf : List Byte → Option TimeInForce :=
  byteOf fun b =>
    if b = 49 then some .gtc else if b = 51 then some .ioc else if b = 52 then some .fok else none

/-- The order type of a code. -/
def ordTypeOf : List Byte → Option OrdType :=
  byteOf fun b => if b = 50 then some .limit else if b = 80 then some .pegMid else none

/-- Whether a text is the midpoint qualifier. -/
def IsMid (text : List Byte) : Prop := text = [77]

/-- Whether a value asks for the midpoint can be decided. -/
instance : DecidablePred IsMid := fun _ => by
  unfold IsMid
  infer_instance

/-- The price that a text writes, in units, or `-1`. -/
def priceOf (text : List Byte) : ℤ :=
  let units (intPart fracScaled : ℤ) : ℤ :=
    let units := toLong (toLong (intPart * Prices.scale) + fracScaled)
    if units > 0 then units else -1
  if FixParser.dot ∈ text then
    let intPart := longOf (text.takeWhile fun b => b ≠ FixParser.dot)
    let fracText := (text.dropWhile fun b => b ≠ FixParser.dot).tail
    let frac := longOf fracText
    if intPart = -1 ∨ fracText.length = 0 ∨ fracText.length > FixParser.maxDecimals ∨ frac = -1 then
      -1
    else units intPart (if fracText.length = 1 then frac * 1000 else frac * 100)
  else if longOf text = -1 then -1
  else units (longOf text) 0

/-- The order type of some fields. -/
def ordTypeIn (fs : List Field) : Option OrdType :=
  match lookup FixConstants.ordType fs with
  | none => some .limit
  | some text => ordTypeOf text

/-- The price of some fields, by the order type. -/
def priceIn (fs : List Field) : OrdType → Option ℤ
  | .limit =>
    match lookup FixConstants.price fs with
    | none => none
    | some text => if priceOf text < 0 then none else some (priceOf text)
  | .pegMid =>
    match lookup FixConstants.price fs, lookup execInst fs with
    | none, some text => if IsMid text then some Prices.na else none
    | _, _ => none

/-- The time in force of some fields. -/
def tifIn (fs : List Field) : Option TimeInForce :=
  match lookup timeInForce fs with
  | none => some .gtc
  | some text => tifOf text

/-- The display size of some fields, for a quantity. -/
def maxFloorIn (fs : List Field) (qty : ℤ) : Option ℤ :=
  match lookup FixConstants.maxFloor fs with
  | none => some 0
  | some text => if longOf text ≤ 0 ∨ longOf text > qty then none else some (longOf text)

/-- The new order of some fields, in a slot. -/
def newOrderOf (fs : List Field) (target : OrderEvent) : Option OrderEvent := do
  let id ← lookup clOrdId fs
  let side ← lookup FixConstants.side fs
  let qty ← lookup orderQty fs
  let name ← lookup symbol fs
  guard (name = symbolBytes ∧ 0 ≤ longOf id)
  let side ← sideOf side
  guard (0 < longOf qty)
  let ordType ← ordTypeIn fs
  let price ← priceIn fs ordType
  let tif ← tifIn fs
  let maxFloor ← maxFloorIn fs (longOf qty)
  some
    { target with
      eventType := .newOrder
      orderId := longOf id
      side := some side
      ordType := some ordType
      tif := some tif
      price
      quantity := longOf qty
      maxFloor
      originalOrderId := -1 }

/-- The cancel of some fields, in a slot. -/
def cancelOf (fs : List Field) (target : OrderEvent) : Option OrderEvent := do
  let id ← lookup clOrdId fs
  let orig ← lookup origClOrdId fs
  guard (0 ≤ longOf id ∧ 0 ≤ longOf orig)
  some
    { target with
      eventType := .cancelOrder
      orderId := longOf id
      originalOrderId := longOf orig
      side := none
      ordType := none
      tif := none
      price := -1
      quantity := -1
      maxFloor := 0 }

/-- The event of some fields, by the message type. -/
def eventOf (fs : List Field) (target : OrderEvent) : Option OrderEvent := do
  let msgType ← lookup messageType fs
  if msgType = [msgTypeNewOrder] then newOrderOf fs target
  else if msgType = [msgTypeCancel] then cancelOf fs target
  else none

/-- The sum of some bytes, each of them unsigned. -/
def sumOf (bytes : List Byte) : ℤ := (bytes.map fun b => b.toInt % 256).sum

/-- The sum of two stretches of bytes is that of both. -/
theorem sumOf_append (bytes more : List Byte) :
    sumOf (bytes ++ more) = sumOf bytes + sumOf more := by
  rw [sumOf, List.map_append, List.sum_append]
  rfl

/-- The trailer of a message has the sum of the bytes before it. -/
def Checked (message : List Byte) : Prop :=
  8 ≤ message.length ∧
    longOf (window message (message.length - 4) (message.length - 1)) =
      sumOf (message.take (message.length - 7)) % 256

/-! ### The parser reads them so -/

section Reads

variable {p : FixParser} {buf : List Byte} {fs : List Field}

/-- A value of a message is at an index of the arrays. -/
def Stored (p : FixParser) (buf : List Byte) (i : ℕ) (text : List Byte) : Prop :=
  ∃ valStart valEnd, load p.valStarts i = .ok valStart ∧ load p.valEnds i = .ok valEnd ∧
    valEnd ≤ buf.length ∧ window buf valStart valEnd = text

/-- A tag is found where the fields have it. -/
theorem findTag_cases (h : HoldsFrom p buf 0 fs) (tag : ℤ) :
    (p.findTag tag fs.length = .ok none ∧ lookup tag fs = none) ∨
      ∃ i text, p.findTag tag fs.length = .ok (some i) ∧ lookup tag fs = some text ∧
      Stored p buf i text := by
  rcases findTagFrom_spec h tag with ⟨hnone, hfind⟩ | ⟨i, f, hfound, hfind, hf⟩
  · exact .inl ⟨hnone, by rw [lookup, hfind]; rfl⟩
  · exact .inr ⟨i, f.value, hfound, by rw [lookup, hfind]; rfl, hf.2⟩

/-- A stored value is read as its bytes. -/
theorem Stored.value {α : Type} {i : ℕ} {text : List Byte} {f : (start stop : ℕ) → Except Exn α}
    {g : List Byte → α} (h : Stored p buf i text)
    (hf : ∀ start stop, stop ≤ buf.length → f start stop = .ok (g (window buf start stop))) :
    p.value f i = .ok (g text) := by
  obtain ⟨valStart, valEnd, hstart, hend, hle, htext⟩ := h
  rw [FixParser.value, hstart, ok_bind, hend, ok_bind, hf _ _ hle, htext]

/-- A code of one byte is read off its window. -/
theorem mapByte_eq {α : Type} (code : Byte → Option α) {start stop : ℕ} (h : stop ≤ buf.length) :
    FixParser.mapByte code buf start stop = .ok (byteOf code (window buf start stop)) := by
  have hlength := length_window start h
  rw [FixParser.mapByte]
  by_cases hone : stop - start = 1
  · obtain ⟨b, hload, hwindow⟩ := @window_succ buf start 0 (by omega)
    have hstop : start + (0 + 1) = stop := by omega
    rw [hstop, window_self] at hwindow
    rw [if_neg (not_not.mpr hone), hload, hwindow]
    rfl
  · rw [if_pos hone]
    rcases hw : window buf start stop with _ | ⟨b, _ | ⟨c, w⟩⟩
    · rfl
    · rw [hw] at hlength
      exact absurd hlength.symm hone
    · rfl

/-- Whether a message has its sum in the trailer can be decided. -/
instance : DecidablePred Checked := fun _ => by
  unfold Checked
  infer_instance

/-- The peg instruction is read off its window. -/
theorem isMidPeg_eq {start stop : ℕ} (h : stop ≤ buf.length) :
    FixParser.isMidPeg buf start stop = .ok (decide (IsMid (window buf start stop))) := by
  rw [FixParser.isMidPeg, mapByte_eq _ h, ok_bind]
  rcases window buf start stop with _ | ⟨b, _ | ⟨c, w⟩⟩
  · rfl
  · by_cases hb : b = 77 <;> simp [byteOf, IsMid, hb, pure, Except.pure]
  · simp [byteOf, IsMid, pure, Except.pure]

/-- A name is compared with the bytes from an index on. -/
theorem symbolMatchesFrom_eq (name : List Byte) {i : ℕ} (h : i + name.length ≤ buf.length) :
    FixParser.symbolMatchesFrom buf name i =
      .ok (decide (window buf i (i + name.length) = name)) := by
  induction name generalizing i with
  | nil =>
    rw [List.length_nil, Nat.add_zero, window_self]
    rfl
  | cons b name ih =>
    rw [List.length_cons] at h ⊢
    obtain ⟨c, hload, hwindow⟩ := window_succ h
    rw [FixParser.symbolMatchesFrom, hload, ok_bind, hwindow]
    by_cases hb : c = b
    · rw [if_neg (not_not.mpr hb), ih (by omega)]
      simp [hb]
    · rw [if_pos hb]
      simp [hb, pure, Except.pure]

/-- The symbol is compared with its window. -/
theorem symbolMatches_eq {start stop : ℕ} (h : stop ≤ buf.length) :
    FixParser.symbolMatches buf start stop =
      .ok (decide (window buf start stop = symbolBytes)) := by
  rw [FixParser.symbolMatches]
  by_cases hlength : stop - start = symbolBytes.length
  · have hstop : start + symbolBytes.length = stop := by
      have hfour : symbolBytes.length = 4 := rfl
      omega
    rw [if_neg (not_not.mpr hlength), symbolMatchesFrom_eq _ (hstop.le.trans h), hstop]
  · have hne : window buf start stop ≠ symbolBytes := by
      intro heq
      rw [← heq, length_window _ h] at hlength
      exact hlength rfl
    rw [if_pos hlength, decide_eq_false hne]

/-- The dot is sought from the start of the window. -/
theorem indexOfDot_eq (n : ℕ) {i : ℕ} (h : i + n ≤ buf.length) :
    FixParser.indexOfDot buf n i = .ok (if FixParser.dot ∈ window buf i (i + n) then
      some (i + ((window buf i (i + n)).takeWhile fun b => b ≠ FixParser.dot).length)
        else none) := by
  induction n generalizing i with
  | zero =>
    rw [Nat.add_zero, window_self, if_neg (by simp)]
    rfl
  | succ n ih =>
    obtain ⟨b, hload, hwindow⟩ := window_succ h
    rw [FixParser.indexOfDot, hload, ok_bind, hwindow]
    by_cases hb : b = FixParser.dot
    · rw [if_pos hb, if_pos (by simp [hb]), List.takeWhile_cons_of_neg (by simp [hb])]
      rfl
    · rw [if_neg hb, ih (by omega)]
      simp only [List.mem_cons, Ne.symm hb, false_or]
      split_ifs with hdot
      · rw [List.takeWhile_cons_of_pos (by simp [hb]), List.length_cons]
        refine congrArg (fun j => Except.ok (some j)) ?_
        omega
      · rfl

/-- `parsePrice` reads the price of its window. -/
theorem parsePrice_eq {start stop : ℕ} (h : stop ≤ buf.length) :
    FixParser.parsePrice buf start stop = .ok (priceOf (window buf start stop)) := by
  rw [FixParser.parsePrice]
  by_cases hempty : start ≥ stop
  · have hnil : window buf start stop = [] := by
      rw [window, Nat.sub_eq_zero_of_le hempty, List.take_zero]
    rw [if_pos hempty, hnil]
    rfl
  rw [if_neg hempty]
  have hrange : start + (stop - start) = stop := by omega
  have hdot := indexOfDot_eq (stop - start) (hrange.le.trans h)
  rw [hrange] at hdot
  simp only [hdot, ok_bind]
  unfold priceOf
  by_cases hmem : FixParser.dot ∈ window buf start stop
  · rw [if_pos hmem, if_pos hmem]
    obtain ⟨dollars, frac, hwindow, hdollars⟩ := List.eq_append_cons_of_mem hmem
    have hall : ∀ b ∈ dollars, decide (b ≠ FixParser.dot) = true := fun b hb =>
      decide_eq_true fun heq => hdollars (heq ▸ hb)
    have htake : (window buf start stop).takeWhile (fun b => b ≠ FixParser.dot) = dollars := by
      rw [hwindow, List.takeWhile_append_of_pos hall, List.takeWhile_cons_of_neg (by simp),
        List.append_nil]
    have hdrop : ((window buf start stop).dropWhile fun b => b ≠ FixParser.dot).tail = frac := by
      rw [hwindow, List.dropWhile_append_of_pos hall, List.dropWhile_cons_of_neg (by simp),
        List.tail_cons]
    have hsize := congrArg List.length hwindow
    rw [length_window _ h, List.length_append, List.length_cons] at hsize
    have hfracLen : stop - (start + dollars.length + 1) = frac.length := by omega
    have hint := @parseLong_eq buf start (start + dollars.length) (by omega)
    have hfrac := @parseLong_eq buf (start + dollars.length + 1) stop h
    rw [window_left h hwindow] at hint
    rw [window_after hwindow] at hfrac
    simp only [htake, hdrop, FixParser.parseLong, hint, hfrac, ok_bind, hfracLen]
    -- The checks of the source stand one after the other.
    by_cases hintPart : longOf dollars = -1
    · rw [if_pos hintPart, if_pos (.inl hintPart)]
      rfl
    by_cases hlength : frac.length = 0 ∨ frac.length > FixParser.maxDecimals
    · rw [if_neg hintPart, if_pos hlength, if_pos (.inr (or_assoc.mp (.inl hlength)))]
      rfl
    by_cases hfracPart : longOf frac = -1
    · rw [if_neg hintPart, if_neg hlength, if_pos hfracPart,
        if_pos (c := longOf dollars = -1 ∨ _) (.inr (.inr (.inr hfracPart)))]
      rfl
    · have hpasses : ¬ (longOf dollars = -1 ∨ frac.length = 0 ∨
          frac.length > FixParser.maxDecimals ∨
          longOf frac = -1) := by
        rintro (hbad | hbad | hbad | hbad)
        · exact hintPart hbad
        · exact hlength (.inl hbad)
        · exact hlength (.inr hbad)
        · exact hfracPart hbad
      rw [if_neg hintPart, if_neg hlength, if_neg hfracPart, if_neg hpasses]
      rfl
  · rw [if_neg hmem, if_neg hmem]
    simp only [FixParser.parseLong, parseLong_eq h, ok_bind]
    split_ifs <;> rfl

/-- The order type is read off the fields. -/
theorem readOrdType_eq (h : HoldsFrom p buf 0 fs) :
    p.readOrdType buf fs.length = .ok (ordTypeIn fs) := by
  rw [FixParser.readOrdType, ordTypeIn]
  rcases findTag_cases h FixConstants.ordType with ⟨hnone, hlookup⟩
    | ⟨i, text, hfound, hlookup, hstored⟩
  · rw [hnone, hlookup]
    rfl
  · rw [hfound, hlookup]
    exact hstored.value (g := ordTypeOf) fun start stop hstop => mapByte_eq _ hstop

/-- The price is read off the fields. -/
theorem readPrice_eq (h : HoldsFrom p buf 0 fs) (ordType : OrdType) :
    p.readPrice buf fs.length ordType = .ok (priceIn fs ordType) := by
  rw [FixParser.readPrice]
  rcases findTag_cases h FixConstants.price with ⟨hnone, hlookup⟩
    | ⟨i, text, hfound, hlookup, hstored⟩
  · rw [hnone, ok_bind]
    cases ordType with
    | limit => simp [priceIn, hlookup, pure, Except.pure]
    | pegMid =>
      simp only [priceIn, hlookup]
      rcases findTag_cases h execInst with ⟨hnone', hlookup'⟩
        | ⟨j, exec, hfound', hlookup', hstored'⟩
      · rw [hnone', hlookup']
        rfl
      · rw [hfound', hlookup', ok_bind]
        simp only
        rw [hstored'.value (g := fun text => decide (IsMid text)) fun start stop hstop =>
          isMidPeg_eq hstop, ok_bind]
        by_cases hmid : IsMid exec <;> simp [hmid, pure, Except.pure]
  · rw [hfound, ok_bind]
    cases ordType with
    | limit =>
      simp only [priceIn, hlookup]
      rw [hstored.value fun start stop hstop => parsePrice_eq hstop]
      rfl
    | pegMid => simp [priceIn, hlookup, pure, Except.pure]

/-- The time in force is read off the fields. -/
theorem readTif_eq (h : HoldsFrom p buf 0 fs) : p.readTif buf fs.length = .ok (tifIn fs) := by
  rw [FixParser.readTif, tifIn]
  rcases findTag_cases h timeInForce with ⟨hnone, hlookup⟩ | ⟨i, text, hfound, hlookup, hstored⟩
  · rw [hnone, hlookup]
    rfl
  · rw [hfound, hlookup]
    exact hstored.value (g := tifOf) fun start stop hstop => mapByte_eq _ hstop

/-- The floor is read off the fields. -/
theorem readMaxFloor_eq (h : HoldsFrom p buf 0 fs) (qty : ℤ) :
    p.readMaxFloor buf fs.length qty = .ok (maxFloorIn fs qty) := by
  rw [FixParser.readMaxFloor, maxFloorIn]
  rcases findTag_cases h FixConstants.maxFloor with ⟨hnone, hlookup⟩
    | ⟨i, text, hfound, hlookup, hstored⟩
  · rw [hnone, hlookup]
    rfl
  · rw [hfound, hlookup, ok_bind]
    simp only
    rw [hstored.value fun start stop hstop => parseLong_eq hstop]
    rfl

/-- A new order is what its fields come to. -/
theorem parseNewOrder_eq (h : HoldsFrom p buf 0 fs) (target : OrderEvent) :
    p.parseNewOrder buf fs.length target = .ok (newOrderOf fs target) := by
  rw [FixParser.parseNewOrder, newOrderOf]
  -- The required tags.
  rcases findTag_cases h clOrdId with ⟨hnone, hlookup⟩ | ⟨iId, id, hfound, hlookup, hid⟩
  · rw [hnone, hlookup]
    rfl
  rw [hfound, hlookup, ok_bind]
  rcases findTag_cases h FixConstants.side with ⟨hnone, hlookup⟩
    | ⟨iSide, side, hfound, hlookup, hside⟩
  · simp only [hnone, hlookup]
    rfl
  simp only [hfound, hlookup, ok_bind]
  rcases findTag_cases h orderQty with ⟨hnone, hlookup⟩ | ⟨iQty, qty, hfound, hlookup, hqty⟩
  · simp only [hnone, hlookup]
    rfl
  simp only [hfound, hlookup, ok_bind]
  rcases findTag_cases h symbol with ⟨hnone, hlookup⟩ | ⟨iSym, name, hfound, hlookup, hsym⟩
  · simp only [hnone, hlookup]
    rfl
  simp only [hfound, hlookup, ok_bind]
  have hsymbol := hsym.value (g := fun text => decide (text = symbolBytes)) fun start stop hstop =>
    symbolMatches_eq hstop
  have horderId := hid.value (g := longOf) fun start stop hstop => parseLong_eq hstop
  have hsideOf : p.value (FixParser.mapSide buf) iSide = .ok (sideOf side) :=
    hside.value (g := sideOf) fun start stop hstop => mapByte_eq _ hstop
  have hquantity := hqty.value (g := longOf) fun start stop hstop => parseLong_eq hstop
  simp only [hsymbol, horderId, hsideOf, hquantity, readOrdType_eq h, readPrice_eq h, readTif_eq h,
    readMaxFloor_eq h, ok_bind]
  simp only [Option.bind_eq_bind, Option.bind_some]
  -- The checks of the source, in their order.
  by_cases hguard : name = symbolBytes ∧ 0 ≤ longOf id
  swap
  · rw [guard_bind_neg hguard]
    by_cases hname : name = symbolBytes
    · have hnegative : longOf id < 0 := by
        by_contra hid
        exact hguard ⟨hname, by omega⟩
      simp [hname, hnegative, pure, Except.pure]
    · simp [hname, pure, Except.pure]
  have hid := hguard.2
  have hmatched : ¬ (!decide (name = symbolBytes)) = true := by simp [hguard.1]
  rw [guard_bind_pos hguard, if_neg hmatched, if_neg (Int.not_lt.mpr hid)]
  cases sideOf side with
  | none => rfl
  | some side =>
  simp only [Option.bind_some]
  by_cases hpos : 0 < longOf qty
  swap
  · rw [guard_bind_neg hpos, if_pos (Int.not_lt.mp hpos)]
    rfl
  rw [guard_bind_pos hpos, if_neg (Int.not_le.mpr hpos)]
  cases ordTypeIn fs with
  | none => rfl
  | some ordType =>
  simp only [Option.bind_some]
  cases priceIn fs ordType with
  | none => rfl
  | some price =>
  cases tifIn fs with
  | none => rfl
  | some tif =>
  cases maxFloorIn fs (longOf qty) with
  | none => rfl
  | some maxFloor => rfl

/-- A cancel is what its fields come to. -/
theorem parseCancel_eq (h : HoldsFrom p buf 0 fs) (target : OrderEvent) :
    p.parseCancel buf fs.length target = .ok (cancelOf fs target) := by
  rw [FixParser.parseCancel, cancelOf]
  rcases findTag_cases h clOrdId with ⟨hnone, hlookup⟩ | ⟨iId, id, hfound, hlookup, hid⟩
  · rw [hnone, hlookup]
    rfl
  rw [hfound, hlookup, ok_bind]
  rcases findTag_cases h origClOrdId with ⟨hnone, hlookup⟩ | ⟨iOrig, orig, hfound, hlookup, horig⟩
  · simp only [hnone, hlookup]
    rfl
  have horderId := hid.value (g := longOf) fun start stop hstop => parseLong_eq hstop
  have horigId := horig.value (g := longOf) fun start stop hstop => parseLong_eq hstop
  simp only [hfound, hlookup, ok_bind, horderId, horigId]
  simp only [Option.bind_eq_bind, Option.bind_some]
  by_cases hguard : 0 ≤ longOf id ∧ 0 ≤ longOf orig
  · rw [guard_bind_pos hguard, if_neg (Int.not_lt.mpr hguard.1), if_neg (Int.not_lt.mpr hguard.2)]
    rfl
  · rw [guard_bind_neg hguard]
    by_cases hnegative : longOf id < 0
    · rw [if_pos hnegative]
      rfl
    · rw [if_neg hnegative, if_pos (by omega)]
      rfl

/-- The sum of some bytes in turn is their sum, as an `int`. -/
theorem sumFrom_eq (n : ℕ) {i : ℕ} (h : i + n ≤ buf.length) (sum : ℤ) :
    FixParser.sumFrom buf n i (toInt sum) = .ok (toInt (sum + sumOf (window buf i (i + n)))) := by
  induction n generalizing i sum with
  | zero =>
    rw [Nat.add_zero, window_self]
    simp [FixParser.sumFrom, sumOf]
  | succ n ih =>
    obtain ⟨b, hload, hwindow⟩ := window_succ h
    rw [FixParser.sumFrom, hload, ok_bind, toInt_add, ih (by omega), hwindow]
    simp only [sumOf, List.map_cons, List.sum_cons]
    rw [Int.add_assoc]

/-- What it is for a window to be checked, in the buffer. -/
theorem checked_window {offset length : ℕ} (h : offset + length ≤ buf.length) :
    Checked (window buf offset (offset + length)) ↔ 8 ≤ length ∧
      longOf (window buf (offset + length - 4) (offset + length - 1)) =
        sumOf (window buf offset (offset + length - 7)) % 256 := by
  have hwidth := length_window offset h
  rw [Nat.add_sub_cancel_left] at hwidth
  unfold Checked
  rw [hwidth]
  refine and_congr_right fun hlong => ?_
  have hfront : (window buf offset (offset + length)).take (length - 7) =
      window buf offset (offset + (length - 7)) :=
    @window_window buf offset (offset + length) 0 (length - 7) (by omega)
  rw [hfront, window_window (by omega), Nat.add_sub_assoc (by omega), Nat.add_sub_assoc (by omega),
    Nat.add_sub_assoc (by omega)]

/-- The checksum of a window says whether it is checked. -/
theorem validateChecksum_window {offset length : ℕ} (h : offset + length ≤ buf.length) :
    FixParser.validateChecksum buf offset length =
      .ok (decide (Checked (window buf offset (offset + length)))) := by
  have hchecked := checked_window h
  rw [FixParser.validateChecksum]
  by_cases hshort : length < 8
  · rw [if_pos hshort, decide_eq_false fun hand => Nat.not_le.mpr hshort (hchecked.mp hand).1]
    rfl
  · rw [and_iff_right (Nat.not_lt.mp hshort)] at hchecked
    have hfront : offset + (offset + length - 7 - offset) = offset + length - 7 := by omega
    have hsum : FixParser.sumFrom buf (offset + length - 7 - offset) offset 0 =
        .ok (toInt (0 + sumOf
        (window buf offset (offset + (offset + length - 7 - offset))))) :=
      sumFrom_eq (offset + length - 7 - offset) (by omega) 0
    have hexpected := @parseLong_eq buf (offset + length - 4) (offset + length - 1) (by omega)
    rw [hfront, Int.zero_add] at hsum
    rw [if_neg hshort]
    simp only [hsum, FixParser.parseLong, hexpected, ok_bind, toInt_emod, hchecked]
    rfl

/-- The checksum of a whole message is checked against its trailer. -/
theorem validateChecksum_eq (message : List Byte) :
    FixParser.validateChecksum message 0 message.length = .ok (decide (Checked message)) := by
  have hwhole : window message 0 (0 + message.length) = message := by
    rw [window, Nat.zero_add, Nat.sub_zero, List.drop_zero, List.take_length]
  have hvalid := @validateChecksum_window message 0 message.length (by omega)
  rwa [hwhole] at hvalid

/-- The parser never throws, and it accepts a message that has its sum, can be taken apart and has
the fields of an event. -/
theorem parse_eq (p : FixParser) (message : List Byte) (target : OrderEvent) :
    ∃ p', (Checked message ∧ Scannable maxFields message ∧
        p.parse message 0 message.length target = .ok (p', eventOf (fields message) target)) ∨
      ¬ (Checked message ∧ Scannable maxFields message) ∧
        p.parse message 0 message.length target = .ok (p', none) := by
  rw [FixParser.parse, validateChecksum_eq, ok_bind]
  by_cases hchecked : Checked message
  swap
  · exact ⟨p, .inr ⟨fun h => hchecked h.1, by simp [hchecked, pure, Except.pure]⟩⟩
  have hpasses : ¬ (!decide (Checked message)) = true := by simp [hchecked]
  rw [if_neg hpasses]
  -- The scan covers the whole message.
  have hwhole : window message 0 (0 + message.length) = message := by
    rw [window, Nat.zero_add, Nat.sub_zero, List.drop_zero, List.take_length]
  obtain ⟨p', hscan⟩ := @scanFrom_eq message (0 + message.length) (message.length + 1) 0 0
    p (by omega)
    (by omega) (by omega) (by omega)
  rw [hwhole, Nat.sub_zero] at hscan
  rw [FixParser.scan]
  rcases hscan with ⟨hcan, hrun⟩ | ⟨hcannot, hrun⟩
  swap
  · exact ⟨p', .inr ⟨fun h => hcannot h.2, by rw [hrun]; rfl⟩⟩
  obtain ⟨-, -, hholds⟩ := scanFrom_fields (by omega) (by omega) hrun
  rw [hwhole] at hholds
  refine ⟨p', .inl ⟨hchecked, hcan, ?_⟩⟩
  rw [hrun, ok_bind]
  simp only [Nat.zero_add]
  rw [eventOf]
  rcases findTag_cases hholds messageType with ⟨hnone, hlookup⟩
    | ⟨i, msgType, hfound, hlookup, hstored⟩
  · rw [hnone, hlookup]
    rfl
  obtain ⟨valStart, valEnd, hstart, hend, hle, htext⟩ := hstored
  have hlength := length_window valStart hle
  simp only [hfound, hlookup, hstart, hend, ok_bind, Option.bind_eq_bind, Option.bind_some]
  by_cases hone : valEnd - valStart = 1
  · obtain ⟨b, hload, hwindow⟩ := @window_succ message valStart 0 (by omega)
    have hstop : valStart + (0 + 1) = valEnd := by omega
    rw [hstop, window_self, htext] at hwindow
    obtain rfl : msgType = [b] := hwindow
    rw [if_neg (not_not.mpr hone), hload, ok_bind, parseNewOrder_eq hholds, parseCancel_eq hholds]
    simp only [List.cons.injEq, and_true, ok_bind]
    split_ifs <;> rfl
  · -- A message type has one byte.
    have hno : ∀ b : Byte, msgType ≠ [b] := by
      rintro b rfl
      rw [htext] at hlength
      exact hone hlength.symm
    rw [if_pos hone, if_neg (hno _), if_neg (hno _)]
    rfl

end Reads

end Wire

end MatchingVenue
