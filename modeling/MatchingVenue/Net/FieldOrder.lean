import MatchingVenue.Gateway.Scanning
import MatchingVenue.Net.JsonToFix

/-!
# The order of the fields

The parser looks its fields up by their tags, so that neither their order nor any other field
matters: `field_order_agnostic`, for two messages with the same fields among those that the parser
reads.
-/

namespace MatchingVenue

open FixConstants FixFrameDecoder Wire Text

namespace Wire

/-- The tags that the parser reads. -/
def readTags : List ℤ :=
  [messageType, clOrdId, origClOrdId, FixConstants.side, orderQty, symbol, FixConstants.price,
    FixConstants.ordType, execInst, timeInForce, FixConstants.maxFloor]

section Congruence

variable {fs gs : List Field}

/-- The price depends on the first fields of its two tags. -/
theorem priceIn_congr (hprice : lookup FixConstants.price fs = lookup FixConstants.price gs)
    (hexec : lookup execInst fs = lookup execInst gs) (ordType : OrdType) :
    priceIn fs ordType = priceIn gs ordType := by
  cases ordType <;> simp only [priceIn, hprice, hexec]

/-- What some fields come to depends on what is looked up of them. -/
theorem eventOf_congr (h : ∀ tag ∈ readTags, lookup tag fs = lookup tag gs) (target : OrderEvent) :
    eventOf fs target = eventOf gs target := by
  have htype := h messageType (by decide)
  have hid := h clOrdId (by decide)
  have horig := h origClOrdId (by decide)
  have hside := h FixConstants.side (by decide)
  have hqty := h orderQty (by decide)
  have hsymbol := h symbol (by decide)
  have hordType := h FixConstants.ordType (by decide)
  have hprice := priceIn_congr (h FixConstants.price (by decide)) (h execInst (by decide))
  have htif := h timeInForce (by decide)
  have hmaxFloor := h FixConstants.maxFloor (by decide)
  have hnew : newOrderOf fs target = newOrderOf gs target := by
    simp only [newOrderOf, ordTypeIn, tifIn, maxFloorIn, hid, hside, hqty, hsymbol, hordType,
      hprice, htif, hmaxFloor]
  have hcancel : cancelOf fs target = cancelOf gs target := by
    simp only [cancelOf, hid, horig]
  rw [eventOf, eventOf, htype, hnew, hcancel]

end Congruence

end Wire

namespace FieldOrder

/-- A tag and a value as a field of a message. -/
def bodyField (f : ℕ × List Byte) : Field := ⟨getBytes (digits f.1), f.2⟩

/-- Some tags with their values in bytes. -/
def body (fs : List (ℕ × List Byte)) : List Byte := joined (fs.map bodyField)

/-- The trailer of some bytes: their sum in three digits. -/
def trailer (bytes : List Byte) : Field := ⟨[b1, b0], getBytes (zeroPadded 3 (sumOf bytes % 256))⟩

/-- The message of some tags with their values. -/
def message (fs : List (ℕ × List Byte)) : List Byte := body fs ++ (trailer (body fs)).bytes

/-- Some tags with their values that make a message: the tags are an `int`, different from each
other and not that of the trailer, no value has a field end in it, and there is room for all of them
and the trailer. -/
structure Carried (fs : List (ℕ × List Byte)) : Prop where
  /-- There is a field. -/
  ne_nil : fs ≠ []
  /-- The tags are an `int`. -/
  tag_lt : ∀ f ∈ fs, f.1 < 2^31
  /-- No tag is there twice. -/
  distinct : (fs.map Prod.fst).Nodup
  /-- No tag is that of the trailer. -/
  untrailed : ∀ f ∈ fs, f.1 ≠ 10
  /-- No value has a field end in it. -/
  value : ∀ f ∈ fs, soh ∉ f.2
  /-- There is room for the fields and the trailer. -/
  fits : fs.length + 1 ≤ maxFields

section Message

variable {fs : List (ℕ × List Byte)}

/-- A message is its fields and the trailer, joined. -/
theorem message_eq (fs : List (ℕ × List Byte)) :
    message fs = joined (fs.map bodyField ++ [trailer (body fs)]) := by
  simp [message, body, joined]

/-- The trailer has three digits, for the sum of the bytes before it. -/
theorem trailer_spec (bytes : List Byte) : (trailer bytes).value.length = 3 ∧
    longOf (trailer bytes).value = sumOf bytes % 256 ∧ soh ∉ (trailer bytes).value := by
  obtain ⟨sumDigits, htrailer, hthree, hvalue, hsoh⟩ := JsonToFix.trailerSegment_spec (sumOf bytes)
  have hsplit : [b1, b0, equals] ++ getBytes (zeroPadded 3 (sumOf bytes % 256)) =
      [b1, b0, equals] ++ sumDigits := by
    rw [← htrailer, JsonToFix.trailerSegment, getBytes_append (by decide)]
    rfl
  have hdigits : (trailer bytes).value = sumDigits := List.append_cancel_left hsplit
  rw [hdigits]
  exact ⟨hthree, hvalue, hsoh⟩

/-- The fields of a message and its trailer are proper. -/
theorem Carried.proper (h : Carried fs) :
    ∀ f ∈ fs.map bodyField ++ [trailer (body fs)], f.Proper := by
  rw [List.forall_mem_append, List.forall_mem_map, List.forall_mem_singleton]
  have hdigits : ∀ b ∈ [b1, b0], IsDigit b :=
    List.forall_mem_cons.mpr ⟨by decide, List.forall_mem_singleton.mpr (by decide)⟩
  have hten : (number [b1, b0] : ℤ) ≤ longMax := by
    have hnumber : number [b1, b0] = 10 := by decide
    rw [hnumber, longMax]
    omega
  refine ⟨fun f hf => ?_, ⟨List.cons_ne_nil _ _, hdigits, hten, (trailer_spec _).2.2⟩⟩
  obtain ⟨hdigit, hnumber⟩ := getBytes_digits f.1
  have hne : getBytes (digits f.1) ≠ [] := by
    rw [getBytes_ascii (ascii_digits _), ne_eq, List.map_eq_nil_iff]
    exact digits_ne_nil _
  have hlt := h.tag_lt f hf
  refine ⟨hne, hdigit, ?_, h.value f hf⟩
  show (number (getBytes (digits f.1)) : ℤ) ≤ longMax
  rw [hnumber, longMax]
  omega

/-- A message is taken apart into its fields. -/
theorem Carried.joins (h : Carried fs) :
    Joins maxFields (fs.map bodyField ++ [trailer (body fs)]) (message fs) := by
  refine ⟨h.proper, ?_, (message_eq fs).symm⟩
  rw [List.length_append, List.length_map, List.length_singleton]
  exact h.fits

/-- A message has its sum in the trailer. -/
theorem Carried.checked (h : Carried fs) : Checked (message fs) := by
  obtain ⟨hthree, hvalue, -⟩ := trailer_spec (body fs)
  have hpos : 0 < (body fs).length := by
    obtain ⟨f, more, rfl⟩ := List.exists_cons_of_ne_nil h.ne_nil
    rw [body, List.map_cons, joined_cons, List.length_append, List.length_cons]
    omega
  have hmessage : message fs = body fs ++ [b1, b0, equals] ++
      ((trailer (body fs)).value ++ [soh]) := by
    rw [message, Field.bytes, List.append_assoc]
    rfl
  rw [hmessage]
  exact JsonToFix.checked_trailed hpos hthree hvalue

/-- A field of the body has its own tag for the scanner. -/
theorem tagged_bodyField {f : ℕ × List Byte} (h : f.1 < 2^31) (tag : ℕ) :
    (bodyField f).Tagged tag ↔ f.1 = tag := by
  have hnumber : number (bodyField f).tag = f.1 := (getBytes_digits f.1).2
  have hint : toInt f.1 = f.1 := toInt_of_le (Int.natCast_nonneg _) (by unfold intMax; omega)
  rw [Field.Tagged, hnumber, hint, Nat.cast_inj]

/-- Where the tags are different, a value is looked up exactly if it is there. -/
theorem lookup_eq_some_iff (htags : ∀ f ∈ fs, f.1 < 2^31)
    (hdistinct : (fs.map Prod.fst).Nodup) (tag : ℕ) (value : List Byte) :
    lookup tag (fs.map bodyField) = some value ↔ (tag, value) ∈ fs := by
  induction fs with
  | nil => simp [lookup_nil]
  | cons f fs ih =>
    obtain ⟨hf, htags⟩ := List.forall_mem_cons.mp htags
    rw [List.map_cons, List.nodup_cons] at hdistinct
    obtain ⟨hnew, hdistinct⟩ := hdistinct
    rw [List.map_cons, lookup_cons, List.mem_cons]
    by_cases htag : f.1 = tag
    · -- It is the field of the tag, and no field behind it is.
      have hno : (tag, value) ∉ fs := fun hmem => hnew (htag ▸ List.mem_map_of_mem hmem)
      rw [if_pos ((tagged_bodyField hf tag).mpr htag), or_iff_left hno, Option.some.injEq, ← htag]
      constructor
      · rintro rfl
        rfl
      · exact fun heq => (congrArg Prod.snd heq).symm
    · have hne : (tag, value) ≠ f := fun heq => htag (heq ▸ rfl)
      rw [if_neg fun htagged => htag ((tagged_bodyField hf tag).mp htagged), ih htags hdistinct,
        or_iff_right hne]

/-- The trailer is none of the fields that are read. -/
theorem Carried.lookup_message (h : Carried fs) {tag : ℕ} (htag : (tag : ℤ) ∈ readTags)
    (value : List Byte) :
    lookup tag (fields (message fs)) = some value ↔ (tag, value) ∈ fs := by
  have hother : lookup tag [trailer (body fs)] = none := by
    have hten : ¬ (trailer (body fs)).Tagged tag := by
      have hnumber : toInt (number [b1, b0]) = 10 := by decide
      have htrailer : (trailer (body fs)).tag = [b1, b0] := rfl
      rw [Field.Tagged, htrailer, hnumber]
      intro heq
      rw [← heq] at htag
      revert htag
      decide
    rw [lookup_cons, if_neg hten, lookup_nil]
  rw [h.joins.fields_eq, lookup_append, hother, Option.or_none,
    lookup_eq_some_iff h.tag_lt h.distinct]

end Message

/-- For any two messages that carry the same fields among those with a tag that the parser reads, in
whatever order and with whatever other fields between them: the parser accepts both or rejects both,
and it fills an event with the same. -/
theorem field_order_agnostic {fs gs : List (ℕ × List Byte)} (hfs : Carried fs) (hgs : Carried gs)
    (hsame : ∀ f : ℕ × List Byte, (f.1 : ℤ) ∈ readTags → (f ∈ fs ↔ f ∈ gs)) (p q : FixParser)
    (target : OrderEvent) :
    ∃ p' q' filled, p.parse (message fs) 0 (message fs).length target = .ok (p', filled) ∧
      q.parse (message gs) 0 (message gs).length target = .ok (q', filled) := by
  obtain ⟨p', hp⟩ := parse_eq p (message fs) target
  obtain ⟨q', hq⟩ := parse_eq q (message gs) target
  obtain ⟨-, -, hp⟩ := hp.resolve_right fun hand => hand.1 ⟨hfs.checked, hfs.joins.scannable⟩
  obtain ⟨-, -, hq⟩ := hq.resolve_right fun hand => hand.1 ⟨hgs.checked, hgs.joins.scannable⟩
  -- Every tag that is read is a number, and is looked up the same in both.
  have hlookup : ∀ tag ∈ readTags, lookup tag (fields (message fs)) =
      lookup tag (fields (message gs)) := by
    intro tag htag
    have hnat : ∀ tag ∈ readTags, ((tag.toNat : ℕ) : ℤ) = tag := by decide
    obtain ⟨n, rfl⟩ : ∃ n : ℕ, (n : ℤ) = tag := ⟨tag.toNat, hnat tag htag⟩
    refine Option.ext fun value => ?_
    rw [hfs.lookup_message htag, hgs.lookup_message htag]
    exact hsame (n, value) htag
  refine ⟨p', q', eventOf (fields (message fs)) target, hp, ?_⟩
  rw [hq, eventOf_congr hlookup]

/-- A cancel of order 1 by request 2. -/
def cancelFields : List (ℕ × List Byte) := [(35, [70]), (11, [50]), (41, [49])]

/-- The same with the fields in another order, and with a field that is not known. -/
def reorderedFields : List (ℕ × List Byte) := [(41, [49]), (5001, [61]), (35, [70]), (11, [50])]

/-- A cancel and the same in another order are parsed alike. -/
theorem field_order_agnostic_cancel :
    ∃ p' q' filled, ({} : FixParser).parse (message cancelFields) 0 (message cancelFields).length
        OrderGateway.idle.scratch = .ok (p', filled) ∧
      ({} : FixParser).parse (message reorderedFields) 0 (message reorderedFields).length
        OrderGateway.idle.scratch = .ok (q', filled) := by
  have hcarried : Carried cancelFields :=
    ⟨by decide, by decide, by decide, by decide, by decide, by decide⟩
  have hreordered : Carried reorderedFields :=
    ⟨by decide, by decide, by decide, by decide, by decide, by decide⟩
  refine field_order_agnostic hcarried hreordered (fun f htag => ?_) {} {} OrderGateway.idle.scratch
  have hunknown : f ≠ (5001, [61]) := by
    rintro rfl
    revert htag
    decide
  simp only [cancelFields, reorderedFields, List.mem_cons, List.not_mem_nil, or_false,
    hunknown, false_or]
  tauto

end FieldOrder

end MatchingVenue
