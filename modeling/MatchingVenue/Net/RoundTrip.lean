import MatchingVenue.Net.JsonToFix

/-!
# What the gateway makes of an encoded order

`frameLength_assemble` says that the frame decoder takes an encoded message whole, where its body is
no longer than a frame may be. The orders of the one instrument and the cancels are never so long,
and the parser takes exactly those with a sound content and gives back what was encoded
(`round_trip`). Any other symbol is refused, except one that ends the field of the symbol itself and
goes on with fields of its own (`uninjected_iff`).
-/

namespace MatchingVenue

open FixConstants Wire Text

namespace FixFrameDecoder

/-- A message whose body is as long as its second field says is decided to be a frame. -/
theorem verdict_message {version digits body sumDigits : List Byte} (hversion : soh ∉ version)
    (hdigits : soh ∉ digits) (hlength : longOf digits = body.length) (hpos : 0 < body.length)
    (hfits : body.length ≤ maxFrame) (hsum : sumDigits.length = 3) :
    verdict ([b8, equals] ++ version ++ [soh, b9, equals] ++ digits ++ [soh] ++ body ++
      [b1, b0, equals] ++ sumDigits ++ [soh]) =
      .length ([b8, equals] ++ version ++ [soh, b9, equals] ++ digits ++ [soh] ++ body ++
        [b1, b0, equals] ++ sumDigits ++ [soh]).length := by
  have hne : digits ≠ [] := by
    rintro rfl
    have hnil : longOf [] = -1 := by decide
    omega
  obtain ⟨x, y, z, rfl⟩ := List.length_eq_three.mp hsum
  have hcut : cut (version ++ soh ::
      (b9 :: equals :: (digits ++ soh :: (body ++ [b1, b0, equals, x, y, z, soh])))) =
      some (version, b9 :: equals :: (digits ++ soh :: (body ++ [b1, b0, equals, x, y, z, soh]))) :=
    cut_eq_some.mpr ⟨rfl, hversion⟩
  have hcutLength : cut (digits ++ soh :: (body ++ [b1, b0, equals, x, y, z, soh])) =
      some (digits, body ++ [b1, b0, equals, x, y, z, soh]) := cut_eq_some.mpr ⟨rfl, hdigits⟩
  have hnat : (longOf digits).toNat = body.length := by omega
  have hget : ∀ i, (body ++ [b1, b0, equals, x, y, z, soh])[body.length + i]? =
      [b1, b0, equals, x, y, z, soh][i]? := by
    intro i
    rw [List.getElem?_append_right (by omega), Nat.add_sub_cancel_left]
  have htrailer : ∀ i < trailerLen, (body ++ [b1, b0, equals, x, y, z, soh])[body.length + i]? =
      [b1, b0, equals, x, y, z, soh][i]? := fun i _ => hget i
  have hget0 := htrailer 0 (by decide)
  rw [Nat.add_zero] at hget0
  have hshape : [b8, equals] ++ version ++ [soh, b9, equals] ++ digits ++ [soh] ++ body ++
      [b1, b0, equals] ++ [x, y, z] ++ [soh] = b8 :: equals ::
      (version ++ soh :: (b9 :: equals :: (digits ++ soh :: (body ++
        [b1, b0, equals, x, y, z, soh])))) := by simp
  rw [hshape, verdict, if_pos ⟨rfl, rfl⟩, verdictOfVersion, hcut]
  show (if b9 = b9 ∧ equals = equals then _ else _) = _
  rw [if_pos ⟨rfl, rfl⟩, verdictOfLength, hcutLength]
  simp only
  rw [if_neg hne, if_neg (by omega), hnat, hget0, htrailer 1 (by decide), htrailer 2 (by decide),
    htrailer 6 (by decide), if_neg, if_pos ⟨rfl, rfl, rfl, rfl⟩]
  · simp only [List.length_append, List.length_cons, List.length_nil, trailerLen]
    congr 1
    omega
  · rw [List.length_append]
    show ¬ body.length + 7 < body.length + trailerLen
    unfold trailerLen
    omega

end FixFrameDecoder

namespace JsonToFix

open FixFrameDecoder

/-! ## Frames -/

/-- An assembled message is a frame, where its body is no longer than a frame may be. -/
theorem frameLength_assemble {texts : List Text} (hne : texts ≠ [])
    (hfits : (closed (texts.map getBytes)).length ≤ maxFrame) :
    frameLength (assemble texts) 0 (assemble texts).length =
      .ok (.length (assemble texts).length) := by
  obtain ⟨sumDigits, htrailer, hthree, -, -⟩ := trailerSegment_spec (sumOf (untrailed texts))
  let body := closed (texts.map getBytes)
  have hpos : 0 < body.length := by
    obtain ⟨text, rest, rfl⟩ := List.exists_cons_of_ne_nil hne
    show 0 < (closed (getBytes text :: rest.map getBytes)).length
    rw [closed_cons, List.length_append, List.length_cons]
    omega
  have hversion : getBytes (lit "8=" ++ beginString) = [b8, equals] ++ getBytes beginString := by
    decide
  have hlengthText : getBytes (lit "9=" ++ toText body.length) =
      [b9, equals] ++ getBytes (toText body.length) :=
    getBytes_append (by decide) _
  have hvalue : longOf (getBytes (toText body.length)) = body.length := by
    have htext : toText body.length = digits body.length := if_neg (by omega)
    rw [htext]
    have hbody : body.length ≤ maxFrame := hfits
    refine longOf_digits ?_
    unfold maxFrame at hbody
    unfold longMax
    omega
  have hmessage : assemble texts = [b8, equals] ++ getBytes beginString ++ [soh, b9, equals] ++
      getBytes (toText body.length) ++ [soh] ++ body ++ [b1, b0, equals] ++ sumDigits ++ [soh] := by
    rw [assemble_eq, htrailer, untrailed, headerSegments, List.cons_append, List.cons_append,
      List.nil_append, closed_cons, closed_cons, closed_cons, hversion, hlengthText]
    simp only [List.append_assoc, List.cons_append, List.nil_append]
    rfl
  have hwhole : window (assemble texts) 0 (0 + (assemble texts).length) = assemble texts := by
    rw [window, Nat.zero_add, Nat.sub_zero, List.drop_zero, List.take_length]
  rw [frameLength_eq (by omega), hwhole, hmessage]
  exact congrArg Except.ok
    (verdict_message (by decide) (soh_notMem_toText _) hvalue hpos hfits hthree)

/-- The length of some closed texts. -/
theorem length_closed (texts : List Text) : (closed (texts.map getBytes)).length =
    (texts.map fun text => (getBytes text).length + 1).sum := by
  induction texts with
  | nil => rfl
  | cons text texts ih =>
    rw [List.map_cons, closed_cons, List.length_append, List.length_cons, ih, List.map_cons,
      List.sum_cons]
    omega

/-- A number below a power of ten is written in no more characters than its exponent and a sign. -/
theorem length_toText_le {x : ℤ} {k : ℕ} (hk : 0 < k) (h : x.natAbs < 10 ^ k) :
    (getBytes (toText x)).length ≤ k + 1 := by
  have hdigits := length_digits_le hk h
  rw [length_getBytes (ascii_toText x), toText]
  split_ifs
  · rw [List.length_cons]
    omega
  · omega

/-- A `long` has at most 19 digits and a sign. -/
theorem length_long_le (x : Long) : (getBytes (toText x)).length ≤ 20 := by
  obtain ⟨x, hlow, hhigh⟩ := x
  unfold longMax at hhigh
  exact length_toText_le (k := 19) (by decide) (by show x.natAbs < 10 ^ 19; omega)

/-- A price is as long as its dollars, the decimal point and at most five characters. -/
theorem length_formatPrice_le (px : Long) : (getBytes (formatPrice px)).length ≤ 26 := by
  obtain ⟨px, hlow, hhigh⟩ := px
  unfold longMax at hhigh
  show (getBytes (formatPrice px)).length ≤ 26
  have hscale := Int.tmod_add_mul_tdiv px Prices.scale
  have hfrac : (px.tmod Prices.scale).natAbs < 10000 := by
    have hlt := Int.natAbs_tmod px Prices.scale
    rw [hlt]
    exact Nat.mod_lt _ (by decide)
  have hdollars : (getBytes (toText (px.tdiv Prices.scale))).length ≤ 20 := by
    refine length_toText_le (k := 19) (by decide) ?_
    unfold Prices.scale at hscale hfrac ⊢
    omega
  have hcents : (getBytes (cents px)).length ≤ 5 := by
    unfold cents
    have htwo : (getBytes (toText ((px.tmod Prices.scale).tdiv 100))).length ≤ 3 := by
      refine length_toText_le (k := 2) (by decide) ?_
      rw [Int.natAbs_tdiv]
      exact Nat.div_lt_of_lt_mul hfrac
    have hfour := length_digits_le (n := (px.tmod Prices.scale).natAbs) (k := 4)
      (by decide) (by omega)
    have hzero : (getBytes (lit "0")).length = 1 := by decide
    simp only
    split_ifs
    · rw [getBytes_append (by decide), List.length_append, hzero]
      omega
    · omega
    · rw [length_getBytes (ascii_zeroPadded _ _), zeroPadded]
      split_ifs
      · rw [List.length_cons, length_pad]
        omega
      · rw [length_pad]
        omega
  rw [getBytes_formatPrice, List.length_append, List.length_cons]
  omega

/-- The text of a field with a number. -/
theorem length_named {name text : Text} (h : Ascii name) :
    (getBytes (name ++ text)).length = name.length + (getBytes text).length := by
  rw [getBytes_append h, List.length_append, length_getBytes h]

/-- The fields behind the symbol are short. -/
theorem length_behind_le (side : Side) (ordType : OrdType) (priceUnits qty : Long)
    (tif : TimeInForce) (maxFloor : Long) :
    (closed ((behind side ordType priceUnits qty tif maxFloor).map getBytes)).length ≤ 99 := by
  have hside : (getBytes (lit "54=" ++ [sideCode side])).length = 4 := by cases side <;> rfl
  have hordType : (getBytes (lit "40=" ++ [ordTypeCode ordType])).length = 4 := by
    cases ordType <;> rfl
  have htif : (getBytes (lit "59=" ++ [tifCode tif])).length = 4 := by cases tif <;> rfl
  have hqty : (getBytes (lit "38=" ++ toText qty)).length = 3 + (getBytes (toText qty)).length :=
    length_named (by decide)
  have hqtyLong := length_long_le qty
  have hmaxFloor : (getBytes (lit "111=" ++ toText maxFloor)).length =
      4 + (getBytes (toText maxFloor)).length :=
    length_named (by decide)
  have hmaxFloorLong := length_long_le maxFloor
  have hprice : (getBytes (priceText ordType priceUnits)).length ≤ 29 := by
    unfold priceText
    split_ifs
    · decide
    · have hformat := length_formatPrice_le priceUnits
      have hnamed : (getBytes (lit "44=" ++ formatPrice priceUnits)).length =
          3 + (getBytes (formatPrice priceUnits)).length := length_named (by decide)
      omega
  rw [length_closed, behind]
  simp only [List.map_append, List.map_cons, List.map_nil, List.sum_append, List.sum_cons,
    List.sum_nil, hside, hordType, htif, hqty]
  split_ifs
  · simp only [List.map_cons, List.map_nil, List.sum_cons, List.sum_nil, hmaxFloor]
    omega
  · simp only [List.map_nil, List.sum_nil]
    omega

/-- A new order of the one instrument is a frame. -/
theorem frameLength_newOrderSingle (clOrdId : Long) (side : Side) (ordType : OrdType)
    (priceUnits qty : Long) (tif : TimeInForce) (maxFloor : Long) :
    frameLength (newOrderSingle clOrdId side ordType priceUnits qty (lit "ASML") tif maxFloor) 0
        (newOrderSingle clOrdId side ordType priceUnits qty (lit "ASML") tif maxFloor).length =
      .ok (.length
        (newOrderSingle clOrdId side ordType priceUnits qty (lit "ASML") tif maxFloor).length) := by
  rw [newOrderSingle_eq]
  refine frameLength_assemble (List.cons_ne_nil _ _) ?_
  have hbehind := length_behind_le side ordType priceUnits qty tif maxFloor
  have hid : (getBytes (lit "11=" ++ toText clOrdId)).length =
      3 + (getBytes (toText clOrdId)).length :=
    length_named (by decide)
  have hidLong := length_long_le clOrdId
  have hfront : (closed
      (([lit "35=D", lit "11=" ++ toText clOrdId, lit "55=" ++ lit "ASML"] : List Text).map
      getBytes)).length ≤ 37 := by
    have htype : (getBytes (lit "35=D")).length = 4 := by decide
    have hsymbol : (getBytes (lit "55=" ++ lit "ASML")).length = 7 := by decide
    rw [length_closed]
    simp only [List.map_cons, List.map_nil, List.sum_cons, List.sum_nil, htype, hid, hsymbol]
    omega
  rw [List.map_append, closed_append, List.length_append, maxFrame]
  omega

/-- A cancel is a frame. -/
theorem frameLength_orderCancelRequest (clOrdId origClOrdId : Long) :
    frameLength (orderCancelRequest clOrdId origClOrdId) 0
      (orderCancelRequest clOrdId origClOrdId).length =
      .ok (.length (orderCancelRequest clOrdId origClOrdId).length) := by
  refine frameLength_assemble (List.cons_ne_nil _ _) ?_
  have htype : (getBytes (lit "35=F")).length = 4 := by decide
  have hid : (getBytes (lit "11=" ++ toText clOrdId)).length =
      3 + (getBytes (toText clOrdId)).length :=
    length_named (by decide)
  have horig : (getBytes (lit "41=" ++ toText origClOrdId)).length =
      3 + (getBytes (toText origClOrdId)).length :=
    length_named (by decide)
  have hidLong := length_long_le clOrdId
  have horigLong := length_long_le origClOrdId
  rw [length_closed, maxFrame]
  simp only [List.map_cons, List.map_nil, List.sum_cons, List.sum_nil, htype, hid, horig]
  omega

/-! ## What the parser makes of them -/

/-- The event of a cancel. -/
def cancelEvent (clOrdId origClOrdId : Long) (target : OrderEvent) : OrderEvent :=
  { target with
    eventType := .cancelOrder
    orderId := clOrdId
    originalOrderId := origClOrdId
    side := none
    ordType := none
    tif := none
    price := -1
    quantity := -1
    maxFloor := 0 }

/-- The parser takes a new order of the one instrument where its id is not negative and its content
is sound. -/
theorem parse_legitimate (p : FixParser) (clOrdId : Long) (side : Side) (ordType : OrdType)
    (priceUnits qty : Long) (tif : TimeInForce) (maxFloor : Long) (target : OrderEvent) :
    ∃ p', ((0 ≤ clOrdId.1 ∧ Sound ordType priceUnits qty maxFloor) ∧
        p.parse (newOrderSingle clOrdId side ordType priceUnits qty (lit "ASML") tif maxFloor) 0
          (newOrderSingle clOrdId side ordType priceUnits qty (lit "ASML") tif maxFloor).length
            target =
          .ok (p', some (newOrderEvent side ordType priceUnits qty tif maxFloor clOrdId target))) ∨
      ¬ (0 ≤ clOrdId.1 ∧ Sound ordType priceUnits qty maxFloor) ∧
        p.parse (newOrderSingle clOrdId side ordType priceUnits qty (lit "ASML") tif maxFloor) 0
          (newOrderSingle clOrdId side ordType priceUnits qty (lit "ASML") tif maxFloor).length
          target = .ok (p', none) := by
  have hsymbol : (getBytes (lit "ASML")).splitOn soh = [symbolBytes] := by decide
  obtain ⟨p', ⟨hopens, hrun⟩ | ⟨hopens, hrun⟩⟩ :=
    parse_newOrderSingle p clOrdId side ordType priceUnits qty tif maxFloor target hsymbol
  · refine ⟨p', ?_⟩
    rw [hrun, List.map_nil, List.nil_append]
    rcases orderBehind_eq side ordType priceUnits qty tif maxFloor clOrdId target with
      ⟨hsound, hevent⟩ | ⟨hunsound, hnone⟩
    · exact .inl ⟨⟨hopens.2.1, hsound⟩, by rw [hevent]⟩
    · exact .inr ⟨fun h => hunsound h.2, by rw [hnone]⟩
  · have hfits : (fieldsBehind side ordType priceUnits qty tif maxFloor).length ≤ 6 := by
      unfold fieldsBehind
      split_ifs <;> simp
    have hroom : 6 + ([] : List (List Byte)).length +
        (fieldsBehind side ordType priceUnits qty tif maxFloor).length ≤ maxFields := by
      rw [List.length_nil, maxFields]
      omega
    exact ⟨p', .inr ⟨fun h => hopens ⟨rfl, h.1, by simp, hroom⟩, hrun⟩⟩

/-- The event of a cancel with some ids. -/
theorem eventOf_cancel (n : ℕ) (idText origText sumDigits : List Byte) (target : OrderEvent) :
    eventOf (fieldsBefore n ++ [⟨[51, 53], [70]⟩, ⟨[49, 49], idText⟩] ++ [⟨[52, 49], origText⟩] ++
      [⟨[49, 48], sumDigits⟩]) target =
      cancelOf [⟨[49, 49], idText⟩, ⟨[52, 49], origText⟩] target := by
  have h8 : toInt (number [56]) = 8 := by decide
  have h9 : toInt (number [57]) = 9 := by decide
  have h35 : toInt (number [51, 53]) = 35 := by decide
  have h11 : toInt (number [49, 49]) = 11 := by decide
  have h41 : toInt (number [52, 49]) = 41 := by decide
  simp only [eventOf, cancelOf, fieldsBefore, List.cons_append, List.nil_append, lookup_cons,
    tagged_mk h8, tagged_mk h9, tagged_mk h35, tagged_mk h11, tagged_mk h41, messageType, clOrdId,
    origClOrdId]
  rfl

/-- The parser takes a cancel where none of its ids is negative. -/
theorem parse_orderCancelRequest (p : FixParser) (a b : Long) (target : OrderEvent) :
    ∃ p', ((0 ≤ a.1 ∧ 0 ≤ b.1) ∧
        p.parse (orderCancelRequest a b) 0 (orderCancelRequest a b).length target =
          .ok (p', some (cancelEvent a b target))) ∨
      ¬ (0 ≤ a.1 ∧ 0 ≤ b.1) ∧
        p.parse (orderCancelRequest a b) 0 (orderCancelRequest a b).length target =
        .ok (p', none) := by
  have htype : IsField (lit "35=F") ⟨[51, 53], [70]⟩ :=
    ⟨by decide, by decide, by decide⟩
  have hid : IsField (lit "11=" ++ toText a) ⟨[49, 49], getBytes (toText a)⟩ :=
    isField_named (by decide) (soh_notMem_toText _)
  have horig : (getBytes (toText b)).splitOn soh = [getBytes (toText b)] :=
    List.splitOn_eq_singleton (soh_notMem_toText _)
  obtain ⟨n, sumDigits, hfields, hscan⟩ :=
    fields_assemble (lit "41=") [52, 49] (.cons htype (.cons hid .nil)) .nil
    (by decide) horig
  have hchecked := checked_assemble [lit "35=F", lit "11=" ++ toText a, lit "41=" ++ toText b]
  have hfields' : fields (orderCancelRequest a b) = _ := hfields
  have hcan : Scannable maxFields (orderCancelRequest a b) :=
    hscan.mpr ⟨by simp, show 6 ≤ maxFields by decide⟩
  obtain ⟨p', ⟨-, hrun⟩ | ⟨hcannot, -⟩⟩ := parse_eq p (orderCancelRequest a b) target
  swap
  · exact absurd ⟨hchecked, hcan⟩ hcannot
  refine ⟨p', ?_⟩
  have hevent := eventOf_cancel n (getBytes (toText a)) (getBytes (toText b)) sumDigits target
  rw [hrun.2, hfields']
  simp only [List.map_nil, List.append_nil] at hevent ⊢
  have hnonneg : ∀ x : Long, 0 ≤ longOf (getBytes (toText x)) ↔ 0 ≤ x.1 := by
    intro x
    rw [longOf_toText]
    split_ifs with hx <;> simp [hx]
  have h11 : toInt (number [49, 49]) = 11 := by decide
  have h41 : toInt (number [52, 49]) = 41 := by decide
  have hlookupId : lookup clOrdId [⟨[49, 49], getBytes (toText a)⟩,
      ⟨[52, 49], getBytes (toText b)⟩] = some (getBytes (toText a)) := by
    rw [lookup_cons, if_pos ((tagged_mk h11 : Field.Tagged clOrdId _ ↔ _).mpr rfl)]
  have hlookupOrig : lookup origClOrdId [⟨[49, 49], getBytes (toText a)⟩,
      ⟨[52, 49], getBytes (toText b)⟩] = some (getBytes (toText b)) := by
    rw [lookup_cons, if_neg (mt (tagged_mk h11).mp (by decide)), lookup_cons,
      if_pos ((tagged_mk h41 : Field.Tagged origClOrdId _ ↔ _).mpr rfl)]
  rw [hevent, cancelOf, hlookupId, hlookupOrig]
  simp only [Option.bind_eq_bind, Option.bind_some]
  by_cases hguard : 0 ≤ a.1 ∧ 0 ≤ b.1
  · have hread : 0 ≤ longOf (getBytes (toText a)) ∧ 0 ≤ longOf (getBytes (toText b)) :=
      ⟨(hnonneg a).mpr hguard.1, (hnonneg b).mpr hguard.2⟩
    rw [guard_bind_pos hread, longOf_toText, longOf_toText, if_pos hguard.1, if_pos hguard.2]
    exact .inl ⟨hguard, rfl⟩
  · have hunread : ¬ (0 ≤ longOf (getBytes (toText a)) ∧ 0 ≤ longOf (getBytes (toText b))) :=
      fun h => hguard ⟨(hnonneg a).mp h.1, (hnonneg b).mp h.2⟩
    rw [guard_bind_neg hunread]
    exact .inr ⟨hguard, rfl⟩

/-- What the encoder writes for the one instrument is one frame, and the parser takes a new order
exactly where its id is not negative, its quantity is positive, its display size is not above its
quantity, and it is pegged or its price is positive and on the tick. It takes a cancel exactly where
its ids are not negative. What it takes it gives back as it was encoded. -/
theorem round_trip (p : FixParser) (target : OrderEvent) (side : Side) (ordType : OrdType)
    (tif : TimeInForce) (clOrdId priceUnits qty maxFloor a b : Long) :
    (∃ p' accepted,
      p.parse (newOrderSingle clOrdId side ordType priceUnits qty (lit "ASML") tif maxFloor) 0
        (newOrderSingle clOrdId side ordType priceUnits qty (lit "ASML") tif maxFloor).length
        target = .ok (p', accepted) ∧
      (accepted.isSome ↔ 0 ≤ clOrdId.1 ∧ 0 < qty.1 ∧ (0 < maxFloor.1 → maxFloor.1 ≤ qty.1) ∧
        (ordType = .pegMid ∨ 0 < priceUnits.1 ∧ priceUnits.1 % 100 = 0)) ∧
      ∀ event ∈ accepted,
      event = newOrderEvent side ordType priceUnits qty tif maxFloor clOrdId target) ∧
    (∃ p' accepted,
      p.parse (orderCancelRequest a b) 0 (orderCancelRequest a b).length target =
      .ok (p', accepted) ∧
      (accepted.isSome ↔ 0 ≤ a.1 ∧ 0 ≤ b.1) ∧ ∀ event ∈ accepted, event = cancelEvent a b target) ∧
    frameLength (newOrderSingle clOrdId side ordType priceUnits qty (lit "ASML") tif maxFloor) 0
        (newOrderSingle clOrdId side ordType priceUnits qty (lit "ASML") tif maxFloor).length =
      .ok (.length
        (newOrderSingle clOrdId side ordType priceUnits qty (lit "ASML") tif maxFloor).length) ∧
    frameLength (orderCancelRequest a b) 0 (orderCancelRequest a b).length =
      .ok (.length (orderCancelRequest a b).length) := by
  refine ⟨?_, ?_, frameLength_newOrderSingle clOrdId side ordType priceUnits qty tif maxFloor,
    frameLength_orderCancelRequest a b⟩
  · obtain ⟨p', ⟨hsound, hrun⟩ | ⟨hunsound, hrun⟩⟩ :=
      parse_legitimate p clOrdId side ordType priceUnits qty tif maxFloor target
    · exact ⟨p', _, hrun, ⟨fun _ => hsound, fun _ => rfl⟩,
        fun event hevent => (Option.some.inj hevent).symm⟩
    · exact ⟨p', _, hrun,
        ⟨fun hsome => absurd hsome Bool.false_ne_true, fun h => absurd h hunsound⟩,
        fun event hevent => absurd hevent (Option.not_mem_none event)⟩
  · obtain ⟨p', ⟨hsound, hrun⟩ | ⟨hunsound, hrun⟩⟩ := parse_orderCancelRequest p a b target
    · exact ⟨p', _, hrun, ⟨fun _ => hsound, fun _ => rfl⟩,
        fun event hevent => (Option.some.inj hevent).symm⟩
    · exact ⟨p', _, hrun,
        ⟨fun hsome => absurd hsome Bool.false_ne_true, fun h => absurd h hunsound⟩,
        fun event hevent => absurd hevent (Option.not_mem_none event)⟩

/-! ## Symbols -/

/-- The first fields of their tags pass the checks of a new order. -/
def Passes (fs : List Field) : Prop :=
  ∃ sideText qtyText ordType, lookup FixConstants.side fs = some sideText ∧
    (sideOf sideText).isSome ∧
    lookup orderQty fs = some qtyText ∧ 0 < longOf qtyText ∧
    ordTypeIn fs = some ordType ∧ (priceIn fs ordType).isSome ∧ (tifIn fs).isSome ∧
    (maxFloorIn fs (longOf qtyText)).isSome

/-- An order is found behind the symbol where the fields there pass. -/
theorem isSome_orderBehind {fs : List Field} {orderId : ℤ} {target : OrderEvent} :
    (orderBehind fs orderId target).isSome ↔ Passes fs := by
  unfold orderBehind Passes
  cases lookup FixConstants.side fs with
  | none => simp
  | some sideText =>
  cases lookup orderQty fs with
  | none => simp
  | some qtyText =>
  cases hside : sideOf sideText with
  | none => simp [hside]
  | some side =>
  by_cases hpos : 0 < longOf qtyText
  swap
  · simp [hpos]
  cases ordTypeIn fs with
  | none => simp
  | some ordType =>
  cases hprice : priceIn fs ordType with
  | none => simp [hprice]
  | some price =>
  cases tifIn fs with
  | none => simp
  | some tif =>
    cases hmaxFloor : maxFloorIn fs (longOf qtyText) <;> simp [hpos, hside, hprice, hmaxFloor]

/-- A text is read back off its bytes where none of them stands for what is not ASCII. -/
theorem ascii_of_getBytes {s : Text} (h : replacement ∉ getBytes s) : Ascii s := by
  induction s using getBytes.induct with
  | case1 => exact fun c hc => absurd hc (List.not_mem_nil)
  | case2 c =>
    intro d hd
    rw [List.mem_singleton.mp hd]
    by_contra hc
    simp [getBytes, hc] at h
  | case3 c d s hc ih =>
    rw [getBytes, if_pos hc, List.mem_cons, not_or] at h
    exact List.forall_mem_cons.mpr ⟨hc, ih h.2⟩
  | case4 c d s hc hpair ih => simp [getBytes, hc, hpair] at h
  | case5 c d s hc hpair ih => simp [getBytes, hc, hpair] at h

/-- Two ASCII characters with one byte are the same. -/
theorem byte_injective {c d : UInt16} (hc : c < 128) (hd : d < 128) (h : byte c = byte d) :
    c = d := by
  have hint : ∀ n < 128, (Int8.ofNat n).toInt = n := by decide
  have hcInt := hint c.toNat (UInt16.lt_iff_toNat_lt.mp hc)
  have hdInt := hint d.toNat (UInt16.lt_iff_toNat_lt.mp hd)
  have heq : (byte c).toInt = (byte d).toInt := congrArg Int8.toInt h
  rw [byte, byte, hcInt, hdInt] at heq
  exact UInt16.toNat_inj.mp (Int.ofNat.inj heq)

/-- Only the one symbol has its bytes. -/
theorem eq_of_getBytes {s : Text} (h : getBytes s = symbolBytes) : s = lit "ASML" := by
  have hascii : Ascii s := ascii_of_getBytes (by rw [h]; decide)
  have hname : Ascii (lit "ASML") := by decide
  have hmap : s.map byte = (lit "ASML").map byte := by
    rw [← getBytes_ascii hascii, h]
    decide
  have hinj : ∀ {s t : Text}, Ascii s → Ascii t → s.map byte = t.map byte → s = t := by
    intro s
    induction s with
    | nil => exact fun _ _ h => (List.map_eq_nil_iff.mp h.symm).symm
    | cons c s ih =>
      intro t hs ht h
      cases t with
      | nil => exact absurd h (by simp)
      | cons d t =>
        obtain ⟨hbyte, hrest⟩ := List.cons.inj h
        obtain ⟨hc, hs⟩ := List.forall_mem_cons.mp hs
        obtain ⟨hd, ht⟩ := List.forall_mem_cons.mp ht
        rw [byte_injective hc hd hbyte, ih hs ht hrest]
  exact hinj hascii hname hmap

section Symbols

variable (side : Side) (ordType : OrdType) (priceUnits qty : Long) (tif : TimeInForce)
  (maxFloor clOrdId : Long)
  (symbol : Text)

/-- A symbol injects fields: it is the one symbol, a field end and further fields, there is room for
them among the fields of the message, and with those of them that come before the fields of the
order the message passes the checks. -/
def Injects : Prop :=
  ∃ extra ≠ [], (getBytes symbol).splitOn soh = symbolBytes :: extra ∧ (∀ s ∈ extra, Numbered s) ∧
    6 + extra.length + (fieldsBehind side ordType priceUnits qty tif maxFloor).length ≤ maxFields ∧
    0 ≤ clOrdId.1 ∧
    Passes (extra.map field ++ fieldsBehind side ordType priceUnits qty tif maxFloor)

/-- What the parser accepts is an order of the one instrument, and has the content that was
encoded. -/
def Uninjected (p : FixParser) (target : OrderEvent) : Prop :=
  ∀ p' event, p.parse (newOrderSingle clOrdId side ordType priceUnits qty symbol tif maxFloor) 0
      (newOrderSingle clOrdId side ordType priceUnits qty symbol tif maxFloor).length target =
      .ok (p', some event) →
    symbol = lit "ASML" ∧ event = newOrderEvent side ordType priceUnits qty tif maxFloor
    clOrdId target

/-- The parser accepts nothing but what was meant exactly where the symbol does not inject
fields. -/
theorem uninjected_iff (p : FixParser) (target : OrderEvent) :
    Uninjected side ordType priceUnits qty tif maxFloor clOrdId symbol p target ↔
      ¬ Injects side ordType priceUnits qty tif maxFloor clOrdId symbol := by
  constructor
  · rintro hmeant ⟨extra, hne, hsymbol, hnumbered, hroom, hid, hpasses⟩
    obtain ⟨p', ⟨-, hrun⟩ | ⟨hopens, -⟩⟩ :=
      parse_newOrderSingle p clOrdId side ordType priceUnits qty tif maxFloor target hsymbol
    · obtain ⟨event, hevent⟩ := Option.isSome_iff_exists.mp (isSome_orderBehind.mpr hpasses)
      obtain ⟨rfl, -⟩ := hmeant p' event (by rw [hrun, hevent])
      have hone : (getBytes (lit "ASML")).splitOn soh = [symbolBytes] := by decide
      rw [hone] at hsymbol
      exact hne (List.cons.inj hsymbol).2.symm
    · exact hopens ⟨rfl, hid, hnumbered, hroom⟩
  · intro hclean p' event haccepted
    obtain ⟨part, extra, hsymbol⟩ := List.exists_cons_of_ne_nil
      (List.splitOn_ne_nil soh (getBytes symbol))
    obtain ⟨q, ⟨⟨rfl, hid, hnumbered, hroom⟩, hrun⟩ | ⟨-, hrun⟩⟩ :=
      parse_newOrderSingle p clOrdId side ordType priceUnits qty tif maxFloor target hsymbol
    swap
    · rw [hrun] at haccepted
      exact absurd (congrArg Prod.snd (Except.ok.inj haccepted)) (by simp)
    have hevent := congrArg Prod.snd (Except.ok.inj (hrun.symm.trans haccepted))
    -- Without further fields the symbol is the one there is, and with some it injects them.
    by_cases hextra : extra = []
    · subst hextra
      have hparts := @List.intercalate_splitOn Byte (getBytes symbol) _ _ soh
      rw [hsymbol] at hparts
      have hname : symbol = lit "ASML" := eq_of_getBytes (by rw [← hparts]; rfl)
      refine ⟨hname, ?_⟩
      rw [List.map_nil, List.nil_append] at hevent
      rcases orderBehind_eq side ordType priceUnits qty tif maxFloor clOrdId target with
        ⟨-, hsome⟩ | ⟨-, hnone⟩
      · rw [hsome] at hevent
        exact (Option.some.inj hevent).symm
      · rw [hnone] at hevent
        exact absurd hevent (by simp)
    · have hpasses : Passes
          (extra.map field ++ fieldsBehind side ordType priceUnits qty tif maxFloor) :=
        isSome_orderBehind.mp (Option.isSome_iff_exists.mpr ⟨event, hevent⟩)
      exact absurd ⟨extra, hextra, hsymbol, hnumbered, hroom, hid, hpasses⟩ hclean

end Symbols

/-- The one symbol there is, a field end and the field `54=2`. -/
def sellSymbol : Text := lit "ASML" ++ [1] ++ lit "54=2"

/-- The message of a buy order with that symbol. -/
def sellMessage : List Byte :=
  newOrderSingle ⟨1, by decide⟩ .buy .limit ⟨1000000, by decide⟩ ⟨100, by decide⟩ sellSymbol .gtc
    ⟨0, by decide⟩

/-- A slot that was never filled. -/
def emptySlot : OrderEvent := ⟨.newOrder, 0, none, none, none, 0, 0, 0, 0, 0⟩

/-- The buy order with the symbol that has a field of its own is accepted as a sell order. -/
theorem injected_side :
    (∃ p' event, FixParser.parse {} sellMessage 0 sellMessage.length emptySlot =
      .ok (p', some event) ∧
      event.side = some .sell) ∧
    ¬ Uninjected .buy .limit ⟨1000000, by decide⟩ ⟨100, by decide⟩ .gtc ⟨0, by decide⟩
      ⟨1, by decide⟩ sellSymbol {}
      emptySlot := by
  have hsold : ∃ p' event, FixParser.parse {} sellMessage 0 sellMessage.length emptySlot =
      .ok (p', some event) ∧
      event.side = some .sell := by
    have hsymbol : (getBytes sellSymbol).splitOn soh = [symbolBytes, [53, 52, 61, 50]] := by decide
    have hsell : (orderBehind ([[53, 52, 61, 50]].map field ++
        fieldsBehind .buy .limit ⟨1000000, by decide⟩
        ⟨100, by decide⟩ .gtc ⟨0, by decide⟩) 1 emptySlot).map (fun event => event.side) =
        some (some .sell) := by
      decide +kernel
    obtain ⟨event, hevent, hside⟩ := Option.map_eq_some_iff.mp hsell
    obtain ⟨p', ⟨-, hrun⟩ | ⟨hopens, -⟩⟩ := parse_newOrderSingle {} ⟨1, by decide⟩ .buy .limit
      ⟨1000000, by decide⟩ ⟨100, by decide⟩ .gtc ⟨0, by decide⟩ emptySlot hsymbol
    · exact ⟨p', event, hrun.trans (by rw [hevent]), hside⟩
    · exact absurd ⟨rfl, by decide, by decide, by decide⟩ hopens
  refine ⟨hsold, fun hmeant => ?_⟩
  obtain ⟨p', event, hrun, -⟩ := hsold
  exact absurd (hmeant p' event hrun).1 (by decide)

end JsonToFix

end MatchingVenue
