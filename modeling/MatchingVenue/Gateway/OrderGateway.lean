import MatchingVenue.Gateway.Wire
import MatchingVenue.Ledger.Reports

/-!
# The order gateway

The gateway parses each frame into its scratch event and publishes a stamped copy of what the parser
accepts.

The sizes of a new order come through the parser as they are written (`onFrame_sizes`), and the
handler narrows them to `int`. `sizes_kept_iff` says for which messages the order of the book has
the sizes of the wire, or is refused.
-/

namespace MatchingVenue

open FixConstants Wire

/-- The gateway: its parser and the event that it parses into. -/
structure OrderGateway where
  parser : FixParser := {}
  scratch : OrderEvent

/-- Handles one frame at a time of receipt: what is published, if anything. A missing frame is
dropped. -/
def OrderGateway.onFrame (g : OrderGateway) (frame : Option (List Byte)) (now : ℤ) :
    Except Exn (OrderGateway × Option OrderEvent) :=
  match frame with
  | none => .ok (g, none)
  | some frame => do
    let (parser, filled) ← g.parser.parse frame 0 frame.length g.scratch
    match filled with
    | none => return ({ g with parser }, none)
    | some event =>
      let scratch := { event with timestamp := now }
      return ({ parser, scratch }, some scratch)

/-- The size that a field of a message gives: that of a field that is there, and zero where there
is none. -/
def sizeIn (field : Option Field) : Option ℕ :=
  match field with
  | none => some 0
  | some f => f.number?

/-- What the parser takes for the sizes of a message. -/
structure FindsSizes (message : List Byte) (q m : ℕ) : Prop where
  /-- The parser finds this quantity. -/
  quantity : (found orderQty message).bind Field.number? = some q
  /-- The parser finds this floor, or none where it is 0. -/
  display : sizeIn (found maxFloor message) = some m
  /-- The floor is no more than the quantity. -/
  le : m ≤ q

/-- A message gives the parser one pair of sizes. -/
theorem FindsSizes.unique {message : List Byte} {q m q' m' : ℕ} (h : FindsSizes message q m)
    (h' : FindsSizes message q' m') : q = q' ∧ m = m' :=
  ⟨Option.some.inj (h.quantity.symm.trans h'.quantity),
    Option.some.inj (h.display.symm.trans h'.display)⟩

namespace FixParser

section Parse

variable {p p' : FixParser} {buf : List Byte} {count : ℕ} {target event : OrderEvent}

/-- What the parser has checked of the sizes of a new order that it accepts. -/
theorem parseNewOrder_sizes (h : p.parseNewOrder buf count target = .ok (some event)) :
    (∃ side, event.side = some side) ∧ (∃ iQty, p.findTag orderQty count = .ok (some iQty) ∧
      p.value (FixConstants.parseLong buf) iQty = .ok event.quantity) ∧
      0 < event.quantity ∧ p.readMaxFloor buf count event.quantity = .ok (some event.maxFloor) := by
  -- What is returned wherever the message is rejected.
  have hnone : (pure none : Except Exn (Option OrderEvent)) ≠ .ok (some event) := by
    simp [pure, Except.pure]
  unfold parseNewOrder at h
  obtain ⟨iId, -, h⟩ := exists_of_bind_option h hnone
  obtain ⟨iSide, -, h⟩ := exists_of_bind_option h hnone
  obtain ⟨iQty, hiQty, h⟩ := exists_of_bind_option h hnone
  obtain ⟨iSym, -, h⟩ := exists_of_bind_option h hnone
  -- The required tags are there; now the checks in the order of the source.
  obtain ⟨matched, -, h⟩ := bind_eq_ok.mp h
  obtain ⟨-, h⟩ := (ite_eq_ok_of_ne hnone).mp h
  obtain ⟨orderId, -, h⟩ := bind_eq_ok.mp h
  obtain ⟨-, h⟩ := (ite_eq_ok_of_ne hnone).mp h
  obtain ⟨side, -, h⟩ := exists_of_bind_option h hnone
  obtain ⟨qty, hqty, h⟩ := bind_eq_ok.mp h
  obtain ⟨hpos, h⟩ := (ite_eq_ok_of_ne hnone).mp h
  obtain ⟨ordType, -, h⟩ := exists_of_bind_option h hnone
  obtain ⟨price, -, h⟩ := exists_of_bind_option h hnone
  obtain ⟨tif, -, h⟩ := exists_of_bind_option h hnone
  obtain ⟨maxFloor, hmaxFloor, h⟩ := exists_of_bind_option h hnone
  obtain rfl := Option.some.inj (Except.ok.inj h)
  exact ⟨⟨side, rfl⟩, ⟨iQty, hiQty, hqty⟩, Int.not_le.mp hpos, hmaxFloor⟩

/-- A cancel is not a new order. -/
theorem eventType_parseCancel (h : p.parseCancel buf count target = .ok (some event)) :
    event.eventType = .cancelOrder := by
  have hnone : (pure none : Except Exn (Option OrderEvent)) ≠ .ok (some event) := by
    simp [pure, Except.pure]
  unfold parseCancel at h
  obtain ⟨iId, -, h⟩ := exists_of_bind_option h hnone
  obtain ⟨iOrig, -, h⟩ := exists_of_bind_option h hnone
  obtain ⟨orderId, -, h⟩ := bind_eq_ok.mp h
  obtain ⟨-, h⟩ := (ite_eq_ok_of_ne hnone).mp h
  obtain ⟨origId, -, h⟩ := bind_eq_ok.mp h
  obtain ⟨-, h⟩ := (ite_eq_ok_of_ne hnone).mp h
  obtain rfl := Option.some.inj (Except.ok.inj h)
  rfl

/-- A message that is accepted as a new order has been taken apart into its fields. -/
theorem parse_newOrder (h : p.parse buf 0 buf.length target = .ok (p', some event))
    (hnew : event.eventType = .newOrder) :
    HoldsFrom p' buf 0 (fields buf) ∧
      p'.parseNewOrder buf (fields buf).length target = .ok (some event) := by
  have hnone : ∀ q : FixParser,
      (pure (q, none) : Except Exn (FixParser × Option OrderEvent)) ≠ .ok (p', some event) := by
    simp [pure, Except.pure]
  unfold parse at h
  obtain ⟨valid, -, h⟩ := bind_eq_ok.mp h
  obtain ⟨-, h⟩ := (ite_eq_ok_of_ne (hnone p)).mp h
  obtain ⟨⟨q, scanned⟩, hscan, h⟩ := bind_eq_ok.mp h
  cases scanned with
  | none => exact absurd h (hnone q)
  | some count =>
  obtain ⟨i, -, h⟩ := exists_of_bind_option h (hnone q)
  obtain ⟨start, -, h⟩ := bind_eq_ok.mp h
  obtain ⟨stop, -, h⟩ := bind_eq_ok.mp h
  obtain ⟨-, h⟩ := (ite_eq_ok_of_ne (hnone q)).mp h
  obtain ⟨msgType, -, h⟩ := bind_eq_ok.mp h
  -- The scan covered the whole message.
  have hwindow : window buf 0 (0 + buf.length) = buf := by
    rw [window, Nat.zero_add, Nat.sub_zero, List.drop_zero, List.take_length]
  obtain ⟨hcount, -, hholds⟩ := scanFrom_fields (by omega) (by omega) hscan
  rw [hwindow] at hcount hholds
  -- Only type D leads to a new order: F makes a cancel, and the others nothing.
  by_cases hd : msgType = msgTypeNewOrder
  · rw [if_pos hd] at h
    obtain ⟨r, hr, h⟩ := bind_eq_ok.mp h
    obtain ⟨rfl, rfl⟩ := Prod.mk.inj (Except.ok.inj h)
    rw [hcount, Nat.zero_add] at hr
    exact ⟨hholds, hr⟩
  · rw [if_neg hd] at h
    by_cases hf : msgType = msgTypeCancel
    · rw [if_pos hf] at h
      obtain ⟨r, hr, h⟩ := bind_eq_ok.mp h
      obtain ⟨rfl, rfl⟩ := Prod.mk.inj (Except.ok.inj h)
      simp [eventType_parseCancel hr] at hnew
    · rw [if_neg hf] at h
      exact absurd h (hnone q)

end Parse

/-- The sizes of a new order that the parser accepts are those of the fields that it finds. -/
theorem parse_sizes {p p' : FixParser} {buf : List Byte} {target event : OrderEvent}
    (h : p.parse buf 0 buf.length target = .ok (p', some event))
    (hnew : event.eventType = .newOrder) :
    (∃ side, event.side = some side) ∧ ∃ q m : ℕ, event.quantity = q ∧ event.maxFloor = m ∧
      FindsSizes buf q m := by
  obtain ⟨hholds, hparse⟩ := parse_newOrder h hnew
  obtain ⟨hside, ⟨iQty, hiQty, hqty⟩, hpos, hmaxFloor⟩ := parseNewOrder_sizes hparse
  refine ⟨hside, ?_⟩
  -- The quantity is required, so its tag was found.
  rcases findTagFrom_spec hholds orderQty with ⟨hnone, -⟩ | ⟨j, f, hfound, hfind, hf⟩
  · simp [findTag, hnone] at hiQty
  obtain rfl : j = iQty := by simpa [findTag, hfound] using hiQty
  rw [hf.parseLong] at hqty
  have hlong := Except.ok.inj hqty
  have hnonneg : 0 ≤ longOf f.value := by omega
  have hquantity : event.quantity = number f.value :=
    hlong.symm.trans (longOf_of_nonneg hnonneg).1
  have hfindsQty : (found orderQty buf).bind Field.number? = some (number f.value) := by
    rw [found, hfind, Option.bind_some, Field.number?_of_nonneg hnonneg]
  unfold readMaxFloor at hmaxFloor
  obtain ⟨iMaxFloor, hiMaxFloor, hmaxFloor⟩ := bind_eq_ok.mp hmaxFloor
  -- The display size is zero where its tag is missing, and at most the quantity where it is not.
  rcases findTagFrom_spec hholds FixConstants.maxFloor with ⟨hnone, hfind'⟩ |
    ⟨k, g, hfound', hfind', hg⟩
  · obtain rfl : none = iMaxFloor := by simpa [findTag, hnone] using hiMaxFloor
    have hzero := Option.some.inj (Except.ok.inj hmaxFloor)
    refine ⟨number f.value, 0, hquantity, hzero.symm, hfindsQty, ?_, Nat.zero_le _⟩
    rw [found, hfind']
    rfl
  · obtain rfl : some k = iMaxFloor := by simpa [findTag, hfound'] using hiMaxFloor
    simp only [hg.parseLong] at hmaxFloor
    have hmax := Except.ok.inj hmaxFloor
    split_ifs at hmax with hrange
    have hmax := Option.some.inj hmax
    have hnonneg' : 0 ≤ longOf g.value := by omega
    have hnumber : longOf g.value = number g.value := (longOf_of_nonneg hnonneg').1
    refine ⟨number f.value, number g.value, hquantity, hmax.symm.trans hnumber, hfindsQty, ?_,
      by omega⟩
    rw [found, hfind', sizeIn, Field.number?_of_nonneg hnonneg']

end FixParser

namespace MatchingEngineHandler

open MatchingEngine

/-- The constructor's checks on the order of an event, with the sizes narrowed. -/
theorem order_ok_iff {event : OrderEvent} {side : Side} (h : event.side = some side) :
    (∃ o, order event = .ok o) ↔ Order.Admissible event.orderId event.timestamp
      (toInt event.quantity) event.price gatewayParticipantId (event.tif.getD .gtc)
      (toInt event.maxFloor) (event.ordType.getD .limit) := by
  unfold order
  rw [h]
  constructor
  · rintro ⟨o, ho⟩
    exact (Order.new_eq_ok_iff.mp ho).1
  · exact fun hadm => ⟨_, Order.new_eq_ok_iff.mpr ⟨hadm, rfl⟩⟩

/-- The handler answers a new order with a rejection exactly if the constructor throws. -/
theorem published_rejected_iff (pre : List OrderEvent) {event : OrderEvent}
    (hnew : event.eventType = .newOrder) :
    rejected event.orderId ∈ published pre event ↔ ∃ e, order event = .error e := by
  have hfailed : ¬ FailedCancel pre event := fun h => absurd (hnew.symm.trans h.1) (by decide)
  have hpublished : published pre event = reportsOf pre event := by rw [reportsOf, if_neg hfailed]
  rw [hpublished]
  rcases reportsOf_cases pre event with ⟨htype, -, -⟩ | ⟨-, herr, -, hreports⟩ |
    ⟨-, o, callbacks, ho, -, -, hreports, -⟩
  · exact absurd (hnew.symm.trans htype) (by decide)
  · rw [hreports]
    exact ⟨fun _ => herr, fun _ => List.mem_singleton_self _⟩
  · rw [hreports]
    constructor
    · intro hmem
      obtain ⟨callback, -, hreport⟩ := List.mem_map.mp hmem
      -- An admission publishes callbacks, and no callback is a rejection.
      have hentry := entry_report callback
      rw [hreport, entry_rejected] at hentry
      cases callback <;> simp [Callback.entry] at hentry
    · rintro ⟨e, he⟩
      rw [ho] at he
      simp at he

end MatchingEngineHandler

namespace OrderGateway

open MatchingEngineHandler

/-- The event that a gateway publishes of a new order. -/
theorem onFrame_sizes {g g' : OrderGateway} {frame : List Byte} {now : ℤ} {event : OrderEvent}
    (h : g.onFrame (some frame) now = .ok (g', some event)) (hnew : event.eventType = .newOrder) :
    (∃ side, event.side = some side) ∧ ∃ q m : ℕ, event.quantity = q ∧ event.maxFloor = m ∧
      FindsSizes frame q m := by
  unfold onFrame at h
  obtain ⟨⟨parser, filled⟩, hparse, h⟩ := bind_eq_ok.mp h
  cases filled with
  | none => simp [pure, Except.pure] at h
  | some parsed =>
    obtain ⟨-, hevent⟩ := Prod.mk.inj (Except.ok.inj h)
    obtain rfl := Option.some.inj hevent
    have hsizes := FixParser.parse_sizes hparse hnew
    exact hsizes

/-- The display size of an order of a quantity: none where it is that of the whole order. -/
def peakOf (quantity maxFloor : ℤ) : ℤ := if maxFloor = quantity then 0 else maxFloor

/-- The sizes of a message reach the book: the handler rejects the order, or builds it with the
quantity and the display size that are written under their tags. A display size that is not
written, or is that of the whole quantity, is zero. -/
def SizesKept (frame : List Byte) (pre : List OrderEvent) (event : OrderEvent) : Prop :=
  rejected event.orderId ∈ published pre event ∨
    ∃ o m, order event = .ok o ∧
      (written orderQty frame).bind Field.number? = some o.quantity ∧
      sizeIn (written FixConstants.maxFloor frame) = some m ∧ o.peak = peakOf o.quantity m

/-- The constructor's checks on the order of a message, with the sizes of the fields that the
parser finds narrowed to `int`. -/
def PassesNarrowed (frame : List Byte) (event : OrderEvent) : Prop :=
  ∃ q m, FindsSizes frame q m ∧
    Order.Admissible event.orderId event.timestamp (toInt q) event.price gatewayParticipantId
      (event.tif.getD .gtc) (toInt m) (event.ordType.getD .limit)

/-- The low 32 bits of the sizes that the parser finds are the sizes that are written: no other
tag that the cast makes one of theirs stands before them with another size, and the sizes have no
more bits. -/
def ReadsWritten (frame : List Byte) : Prop :=
  ∃ q m q' m', FindsSizes frame q m ∧ (written orderQty frame).bind Field.number? = some q' ∧
    sizeIn (written FixConstants.maxFloor frame) = some m' ∧ toInt q = q' ∧
    peakOf q' (toInt m) = peakOf q' m'

/-- A message has no other tag that the cast makes one of the two tags of the sizes. -/
def PlainTags (frame : List Byte) : Prop :=
  ∀ f ∈ fields frame, ∀ tag ∈ [orderQty, FixConstants.maxFloor], f.Tagged tag → f.Writes tag

/-- Whether all tags of a frame are plain can be decided. -/
instance : DecidablePred PlainTags := fun _ => by
  unfold PlainTags
  infer_instance

/-- To pass narrowed is to be built, for the sizes of the event are those that were found. -/
theorem passesNarrowed_iff {frame : List Byte} {event : OrderEvent} {side : Side} {q m : ℕ}
    (hside : event.side = some side) (hquantity : event.quantity = q)
    (hmaxFloor : event.maxFloor = m) (hfinds : FindsSizes frame q m) :
    PassesNarrowed frame event ↔ ∃ o, order event = .ok o := by
  rw [order_ok_iff hside, hquantity, hmaxFloor]
  constructor
  · rintro ⟨q', m', hfinds', hadm⟩
    obtain ⟨rfl, rfl⟩ := hfinds.unique hfinds'
    exact hadm
  · exact fun hadm => ⟨q, m, hfinds, hadm⟩

/-- Where no other tag is cast to one of the two, the sizes that the parser finds are those that
are written, and only a quantity beyond an `int` is lost. -/
theorem readsWritten_iff {frame : List Byte} {q m : ℕ} (hplain : PlainTags frame)
    (hfinds : FindsSizes frame q m) : ReadsWritten frame ↔ (q : ℤ) ≤ intMax := by
  have hqty : found orderQty frame = written orderQty frame :=
    found_eq_written (by decide) fun f hf => hplain f hf _ (by simp)
  have hfloor : found FixConstants.maxFloor frame = written FixConstants.maxFloor frame :=
    found_eq_written (by decide) fun f hf => hplain f hf _ (by simp)
  constructor
  · rintro ⟨q₁, m₁, q', m', hfinds₁, hwritten, -, hnarrow, -⟩
    obtain ⟨rfl, rfl⟩ := hfinds.unique hfinds₁
    rw [← hqty, hfinds.quantity] at hwritten
    obtain rfl := Option.some.inj hwritten
    exact Int.le_sub_one_of_lt (toInt_eq_iff.mp hnarrow).2
  · intro hle
    have hm : (m : ℤ) ≤ intMax := le_trans (Int.ofNat_le.mpr hfinds.le) hle
    refine ⟨q, m, q, m, hfinds, hqty ▸ hfinds.quantity, hfloor ▸ hfinds.display,
      toInt_of_le (Int.natCast_nonneg q) hle, ?_⟩
    rw [toInt_of_le (Int.natCast_nonneg m) hm]

/-- For any gateway, any frame that it accepts as a new order, and any run of the handler before
it: the sizes of the message reach the book exactly if the low 32 bits of those that the parser
finds are those that are written, or the narrowed sizes do not pass the constructor. Where no
other tag is cast to one of the two, that is to say that the quantity fits an `int`. -/
theorem sizes_kept_iff {g g' : OrderGateway} {frame : List Byte} {now : ℤ} {event : OrderEvent}
    (h : g.onFrame (some frame) now = .ok (g', some event)) (hnew : event.eventType = .newOrder)
    (pre : List OrderEvent) :
    (SizesKept frame pre event ↔ ReadsWritten frame ∨ ¬ PassesNarrowed frame event) ∧
      (PlainTags frame → (ReadsWritten frame ↔
        ∃ q : ℕ, (written orderQty frame).bind Field.number? = some q ∧ (q : ℤ) ≤ intMax)) := by
  obtain ⟨⟨side, hside⟩, q, m, hquantity, hmaxFloor, hfinds⟩ := onFrame_sizes h hnew
  refine ⟨?_, fun hplain => ?_⟩
  · rw [SizesKept, published_rejected_iff pre hnew,
      passesNarrowed_iff hside hquantity hmaxFloor hfinds]
    constructor
    · rintro (⟨e, he⟩ | ⟨o, m', ho, hwritten, hdisplay, hpeak⟩)
      · exact .inr fun ⟨o, ho⟩ => by simp [ho] at he
      · -- The order has the narrowed sizes, so these are the ones that are written.
        obtain ⟨hsize, hnarrow⟩ := order_sizes ho
        rw [hquantity] at hsize hnarrow
        rw [hmaxFloor, ← hsize, hpeak] at hnarrow
        exact .inl ⟨q, m, o.quantity, m', hfinds, hwritten, hdisplay, hsize.symm, hnarrow.symm⟩
    · intro hcond
      cases ho : order event with
      | error e => exact .inl ⟨e, rfl⟩
      | ok o =>
        obtain ⟨q₁, m₁, q', m', hfinds₁, hwritten, hdisplay, hnarrow, hpeak⟩ :=
          hcond.resolve_right fun hno => hno ⟨o, ho⟩
        obtain ⟨rfl, rfl⟩ := hfinds.unique hfinds₁
        obtain ⟨hsize, hfloor⟩ := order_sizes ho
        rw [hquantity, hnarrow] at hsize hfloor
        obtain rfl := Int.natCast_inj.mp hsize
        rw [hmaxFloor] at hfloor
        exact .inr ⟨o, m', rfl, hwritten, hdisplay, hfloor.trans hpeak⟩
  · have hqty : found orderQty frame = written orderQty frame :=
      found_eq_written (by decide) fun f hf => hplain f hf _ (by simp)
    rw [readsWritten_iff hplain hfinds, ← hqty, hfinds.quantity]
    simp

/-- The bytes of a text, with `|` for the end of a field. -/
def ofText (text : String) : List Byte :=
  text.toList.map fun c => if c = '|' then soh else Int8.ofNat c.toNat

/-- A gateway that has seen no message. -/
def idle : OrderGateway where
  scratch := ⟨.newOrder, 0, none, none, none, 0, 0, 0, 0, 0⟩

/-- A buy of ten that displays four. -/
def icebergFrame : List Byte :=
  ofText "8=FIX.4.4|9=40|35=D|11=1|54=1|38=10|111=4|55=ASML|44=1|10=074|"

/-- The ten and the four reach the book. -/
theorem sizes_kept_iceberg :
    SizesKept icebergFrame [] ⟨.newOrder, 1, some .buy, some .limit, some .gtc, 10000, 10, 4,
      1, -1⟩ := by
  have haccepted : (idle.onFrame (some icebergFrame) 1).map Prod.snd =
      .ok (some ⟨.newOrder, 1, some .buy, some .limit, some .gtc, 10000, 10, 4, 1, -1⟩) := by
    decide +kernel
  obtain ⟨⟨g, event⟩, h, rfl⟩ := map_eq_ok.mp haccepted
  obtain ⟨hkept, hplain⟩ := sizes_kept_iff h rfl []
  exact hkept.mpr (.inl ((hplain (by decide +kernel)).mpr ⟨10, by decide +kernel, by decide⟩))

/-- A buy of `2^32 + 1`. -/
def overflowFrame : List Byte :=
  ofText "8=FIX.4.4|9=42|35=D|11=1|54=1|38=4294967297|55=ASML|44=1|10=001|"

/-- It is accepted, and rests in the book as a buy of one. -/
theorem not_sizesKept_overflow : ∃ g event,
    idle.onFrame (some overflowFrame) 1 = .ok (g, some event) ∧ event.eventType = .newOrder ∧
      ¬ SizesKept overflowFrame [] event ∧
      published [] event = [onAccepted 1 10000 1] := by
  have haccepted : (idle.onFrame (some overflowFrame) 1).map Prod.snd =
      .ok (some ⟨.newOrder, 1, some .buy, some .limit, some .gtc, 10000, 4294967297, 0,
          1, -1⟩) := by
    decide +kernel
  obtain ⟨⟨g, event⟩, h, rfl⟩ := map_eq_ok.mp haccepted
  refine ⟨g, _, h, rfl, ?_, by decide⟩
  rintro (hrejected | ⟨o, m, ho, hquantity, -⟩)
  · revert hrejected
    decide
  · obtain rfl := Except.ok.inj ho
    revert hquantity
    decide +kernel

end OrderGateway

end MatchingVenue
