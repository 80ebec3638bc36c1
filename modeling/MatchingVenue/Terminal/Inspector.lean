import MatchingVenue.Net.WebSocketFrameHandler
import MatchingVenue.Terminal.Messages

/-!
# The inspector

A client gets back the message that the handler made of its order, as text with a character for each
byte, and the terminal's inspector takes it apart for its eyes only. What it shows is what the
gateway parsed: the text gives back the bytes, its rows are the fields of the parser, and its
filters tell the orders from the cancels (`echo_inspected`). The echoes of a connection are numbered
from one on, and no connection sees the orders of another one (`Echoing.numbered_echoes`).
-/

namespace MatchingVenue

open FixConstants Wire Text

/-! ## Bytes as text -/

/-- The character of a byte. -/
def latin1Char (b : Byte) : Char := Char.ofNat b.toUInt8.toNat

/-- A text with a character for each byte, `new String(fix, ISO_8859_1)`. -/
def latin1 (bytes : List Byte) : String := String.ofList (bytes.map latin1Char)

/-- The bytes of such a text. -/
def toLatin1 (text : String) : List Byte := text.toList.map fun c => (UInt8.ofNat c.toNat).toInt8

@[simp]
theorem toList_latin1 (bytes : List Byte) : (latin1 bytes).toList = bytes.map latin1Char :=
  String.toList_ofList

/-- A byte is shown as the character of its unsigned value. -/
theorem toNat_latin1Char (b : Byte) : (latin1Char b).toNat = b.toUInt8.toNat := by
  have hlt := b.toUInt8.toNat_lt
  have hvalid : b.toUInt8.toNat.isValidChar := .inl (by omega)
  rw [latin1Char, Char.ofNat, dif_pos hvalid]
  rfl

/-- The byte of a character is the byte that it shows. -/
theorem toInt8_latin1Char (b : Byte) : (UInt8.ofNat (latin1Char b).toNat).toInt8 = b := by
  rw [toNat_latin1Char, UInt8.ofNat_toNat, Int8.toInt8_toUInt8]

/-- The bytes survive. -/
theorem toLatin1_latin1 (bytes : List Byte) : toLatin1 (latin1 bytes) = bytes := by
  rw [toLatin1, toList_latin1, List.map_map]
  exact (List.map_congr_left fun b _ => toInt8_latin1Char b).trans (List.map_id _)

/-- Different bytes are shown as different characters. -/
theorem latin1Char_injective : Function.Injective latin1Char := fun a b h => by
  rw [← toInt8_latin1Char a, h, toInt8_latin1Char]

/-- Bytes are the same where they are shown as the same character. -/
theorem latin1Char_eq_iff {a b : Byte} : latin1Char a = latin1Char b ↔ a = b :=
  latin1Char_injective.eq_iff

/-! ## The echo -/

namespace WebSocketFrameHandler

/-- The frame of an echo. -/
def echoRawFix (echo : FixEcho) : Json :=
  .obj [("type", .str "FIX"), ("direction", .str "INBOUND"), ("raw", .str (latin1 echo.raw)),
    ("seqNum", .int echo.seqNum), ("timestamp", .int echo.timestamp)]

end WebSocketFrameHandler

namespace Terminal

/-! ## What the inspector makes of it -/

/-- The names of the tags. -/
def fixTagNames : List (String × String) :=
  [("8", "BeginString"), ("9", "BodyLength"), ("10", "CheckSum"), ("11", "ClOrdID"),
    ("18", "ExecInst"), ("35", "MsgType"), ("38", "OrderQty"), ("40", "OrdType"),
    ("41", "OrigClOrdID"), ("44", "Price"), ("54", "Side"),
    ("55", "Symbol"), ("59", "TimeInForce"), ("111", "MaxFloor")]

/-- The name of a tag, if it has one. The tags are those of digits: the source's table also answers
to the members that every object inherits, as `constructor`. -/
def tagName (tag : String) : Option String := (fixTagNames.find? fun n => n.1 = tag).map Prod.snd

/-- A row of the table. -/
structure FixTagRow where
  tag : String
  name : Option String
  value : String
  deriving DecidableEq, Repr

/-- The character between two fields. -/
def sohChar : Char := Char.ofNat 1

/-- The row of a field. -/
def fixTagRow (field : List Char) : FixTagRow :=
  if '=' ∈ field then
    let tag := String.ofList (field.takeWhile fun c => c ≠ '=')
    ⟨tag, tagName tag, String.ofList (field.dropWhile fun c => c ≠ '=').tail⟩
  else ⟨String.ofList field, none, ""⟩

/-- The rows of a message, in its order. -/
def parseFixTags (raw : String) : List FixTagRow :=
  ((raw.toList.splitOn sohChar).filter fun field => 0 < field.length).map fixTagRow

/-- The type of a message. -/
def fixMsgType (raw : String) : Option String :=
  ((parseFixTags raw).find? fun row => row.tag = "35").map FixTagRow.value

/-- What the inspector can be narrowed to. -/
inductive InspectorFilter where
  | all
  | new
  | cancel
  | exec
  deriving DecidableEq, Repr

/-- Whether an entry passes a filter. -/
def matchesFilter (entry : InspectorEntry) (filter : InspectorFilter) : Bool :=
  match filter, entry with
  | .all, _ => true
  | .exec, .exec _ => true
  | .exec, .fix _ => false
  | _, .exec _ => false
  | .new, .fix frame => fixMsgType frame.raw = some "D"
  | .cancel, .fix frame => fixMsgType frame.raw = some "F"

/-- The rows as the message that they are of. -/
def joinRows (rows : List FixTagRow) : String :=
  String.ofList (rows.flatMap fun row => row.tag.toList ++ '=' :: (row.value.toList ++ [sohChar]))

end Terminal

namespace Wire

open Terminal

/-- The row of a field of the parser. -/
def Field.row (f : Field) : FixTagRow := ⟨latin1 f.tag, tagName (latin1 f.tag), latin1 f.value⟩

end Wire

namespace Terminal

/-! ## Rows and fields -/

/-- The field end is shown as its control character. -/
theorem latin1Char_soh : latin1Char soh = sohChar := by decide

/-- The byte `=` is shown as `=`. -/
theorem latin1Char_equals : latin1Char equals = '=' := by decide

/-- Splitting the characters splits the bytes. -/
theorem splitOn_map_latin1Char (bytes : List Byte) :
    (bytes.map latin1Char).splitOn sohChar = (bytes.splitOn soh).map (List.map latin1Char) := by
  induction bytes with
  | nil => rfl
  | cons b bytes ih =>
    rw [List.map_cons, List.splitOn_cons_eq_if_modifyHead, List.splitOn_cons_eq_if_modifyHead, ih]
    have hsoh : (latin1Char b == sohChar) = (b == soh) := by
      rw [← latin1Char_soh, beq_eq_decide, beq_eq_decide]
      exact decide_eq_decide.mpr latin1Char_eq_iff
    rw [hsoh]
    split_ifs
    · rfl
    · cases bytes.splitOn soh <;> rfl

/-- The row of a segment that has an `=`. -/
theorem fixTagRow_map {segment : List Byte} (hequals : equals ∈ segment) :
    fixTagRow (segment.map latin1Char) = (field segment).row := by
  have hmem : '=' ∈ segment.map latin1Char := by
    rw [← latin1Char_equals]
    exact List.mem_map_of_mem hequals
  have hcongr : (fun c => decide (c ≠ '=')) ∘ latin1Char = fun b => decide (b ≠ equals) := by
    funext b
    rw [Function.comp_apply, ← latin1Char_equals]
    exact decide_eq_decide.mpr (not_congr latin1Char_eq_iff)
  rw [fixTagRow, if_pos hmem]
  simp only [List.takeWhile_map, List.dropWhile_map, hcongr, ← List.map_tail]
  rfl

/-- The inspector shows a row for each segment of a message that is not empty. -/
theorem parseFixTags_latin1 (message : List Byte) : parseFixTags (latin1 message) =
    ((message.splitOn soh).filter fun segment => 0 < segment.length).map
      fun segment => fixTagRow (segment.map latin1Char) := by
  rw [parseFixTags, toList_latin1, splitOn_map_latin1Char, List.filter_map, List.map_map]
  congr 2
  funext segment
  rw [Function.comp_apply, List.length_map]

/-- The rows of a message that the parser takes apart are its fields. -/
theorem parseFixTags_scannable {room : ℕ} {message : List Byte} (h : Scannable room message) :
    parseFixTags (latin1 message) = (fields message).map Field.row := by
  have hsplit : message.splitOn soh = (message.splitOn soh).dropLast ++ [[]] :=
    (List.dropLast_append_getLast? [] h.ends).symm
  have hall : ∀ segment ∈ (message.splitOn soh).dropLast,
      decide (0 < segment.length) = true := fun segment hs =>
    decide_eq_true (List.length_pos_of_mem (h.numbered segment hs).1)
  rw [parseFixTags_latin1, fields, List.map_map]
  nth_rewrite 1 [hsplit]
  rw [List.filter_append, List.filter_eq_self.mpr hall]
  show ((message.splitOn soh).dropLast ++ []).map _ = _
  rw [List.append_nil]
  exact List.map_congr_left fun segment hs => fixTagRow_map (h.numbered segment hs).1

/-- Joined again, the rows of such a message are the message. -/
theorem joinRows_scannable {room : ℕ} {message : List Byte} (h : Scannable room message) :
    joinRows (parseFixTags (latin1 message)) = latin1 message := by
  have hsplit : message.splitOn soh = (message.splitOn soh).dropLast ++ [[]] :=
    (List.dropLast_append_getLast? [] h.ends).symm
  have hmessage : JsonToFix.closed (message.splitOn soh).dropLast = message := by
    have hclosed := JsonToFix.closed_splitOn message
    rw [hsplit, JsonToFix.closed_append] at hclosed
    exact List.append_cancel_right hclosed
  have hjoin : ∀ segments : List (List Byte), (∀ segment ∈ segments, Numbered segment) →
      ((segments.map field).map Field.row).flatMap
        (fun row => row.tag.toList ++ '=' :: (row.value.toList ++ [sohChar])) =
        (JsonToFix.closed segments).map latin1Char := by
    intro segments hnumbered
    induction segments with
    | nil => rfl
    | cons segment segments ih =>
      obtain ⟨hsegment, hrest⟩ := List.forall_mem_cons.mp hnumbered
      obtain ⟨tag, value, rfl, htag⟩ := List.eq_append_cons_of_mem hsegment.1
      rw [List.map_cons, List.map_cons, List.flatMap_cons, ih hrest, JsonToFix.closed_cons,
        field_eq htag]
      simp [Field.row, latin1Char_soh, latin1Char_equals]
  rw [joinRows, parseFixTags_scannable h, fields, hjoin _ h.numbered, hmessage]
  rfl

/-- The row of a field of the encoder. -/
theorem isField_row {text : Text} {f : Field} (h : JsonToFix.IsField text f) :
    decide (0 < (getBytes text).length) = true ∧
      fixTagRow ((getBytes text).map latin1Char) = f.row := by
  refine ⟨decide_eq_true (List.length_pos_of_mem h.numbered.1), ?_⟩
  rw [fixTagRow_map h.numbered.1, h.field_eq]

/-- The type of a message that opens with it. -/
theorem fixMsgType_assemble {kind : Text} (hkind : soh ∉ getBytes kind) (texts : List Text) :
    fixMsgType (latin1 (JsonToFix.assemble ((lit "35=" ++ kind) :: texts))) =
      some (latin1 (getBytes kind)) := by
  have htype : JsonToFix.IsField (lit "35=" ++ kind) ⟨[51, 53], getBytes kind⟩ :=
    JsonToFix.isField_named (by decide) hkind
  obtain ⟨n, rest, hmessage⟩ : ∃ (n : ℕ) (rest : List Byte),
    JsonToFix.assemble ((lit "35=" ++ kind) :: texts) =
      getBytes (lit "8=" ++ JsonToFix.beginString) ++ soh ::
        (getBytes (lit "9=" ++ toText n) ++ soh ::
        (getBytes (lit "35=" ++ kind) ++ soh :: rest)) := by
    rw [JsonToFix.assemble_eq, JsonToFix.untrailed, JsonToFix.headerSegments, List.map_cons]
    simp only [List.cons_append, List.nil_append, JsonToFix.closed_cons, List.append_assoc]
    exact ⟨_, _, rfl⟩
  obtain ⟨hversion, hbodyLength⟩ := JsonToFix.isField_before n
  have h8 : decide (latin1 [56] = "35") = false := by decide
  have h9 : decide (latin1 [57] = "35") = false := by decide
  have h35 : decide (latin1 [51, 53] = "35") = true := by decide
  rw [fixMsgType, parseFixTags_latin1, hmessage,
    List.splitOn_append_cons_self_of_not_mem hversion.soh_notMem,
    List.splitOn_append_cons_self_of_not_mem hbodyLength.soh_notMem,
    List.splitOn_append_cons_self_of_not_mem htype.soh_notMem]
  simp only [List.filter_cons, (isField_row hversion).1, (isField_row hbodyLength).1,
    (isField_row htype).1, if_true, List.map_cons, (isField_row hversion).2,
    (isField_row hbodyLength).2, (isField_row htype).2, Field.row,
    List.find?_cons, h8, h9, h35, Option.map_some]

end Terminal

/-! ## The echo of an order -/

namespace WebSocketFrameHandler

open Terminal

variable {jackson : Jackson} {h h' : WebSocketFrameHandler} {node : JsonNode} {now echoed : ℤ}
  {published : Option OrderEvent} {echo : FixEcho}

/-- What is found behind a symbol is a new order. -/
theorem eventType_orderBehind {fs : List Field} {orderId : ℤ} {target event : OrderEvent}
    (h : JsonToFix.orderBehind fs orderId target = some event) : event.eventType = .newOrder := by
  simp only [JsonToFix.orderBehind, Option.bind_eq_bind, Option.bind_eq_some_iff] at h
  obtain ⟨_, _, _, _, _, _, _, _, _, _, _, _, _, _, _, _, hevent⟩ := h
  rw [← Option.some.inj hevent]

/-- The kind of a message, in its text and in the event that the parser makes of it. -/
structure Kind (fix : List Byte) (code : Text) (eventType : OrderEventType) : Prop where
  /-- The inspector reads the type of the message off its text. -/
  fixMsgType : fixMsgType (latin1 fix) = some (latin1 (getBytes code))
  /-- The event of the message is of the type. -/
  eventType : ∀ {p p' : FixParser} {target event : OrderEvent},
    p.parse fix 0 fix.length target = .ok (p', some event) → event.eventType = eventType

/-- A new order says that it is one, and is published as one. -/
theorem kind_newOrderSingle (f : NewOrderFields) :
    Kind (JsonToFix.newOrderSingle f.clOrdId f.side f.ordType f.price f.qty f.symbol f.tif
      f.maxFloor) (lit "D")
      .newOrder where
  fixMsgType := by
    rw [JsonToFix.newOrderSingle_eq]
    exact fixMsgType_assemble (by decide) _
  eventType {p p' target event} hparse := by
    obtain ⟨part, extra, hsymbol⟩ := List.exists_cons_of_ne_nil
      (List.splitOn_ne_nil soh (getBytes f.symbol))
    obtain ⟨q, ⟨-, htaken⟩ | ⟨-, hrefused⟩⟩ :=
      JsonToFix.parse_newOrderSingle p f.clOrdId f.side f.ordType f.price f.qty
      f.tif f.maxFloor target hsymbol
    · rw [htaken] at hparse
      exact eventType_orderBehind (Prod.mk.inj (Except.ok.inj hparse)).2
    · rw [hrefused] at hparse
      cases (Prod.mk.inj (Except.ok.inj hparse)).2

/-- A cancel says that it is one, and is published as one. -/
theorem kind_orderCancelRequest (ids : Long × Long) :
    Kind (JsonToFix.orderCancelRequest ids.1 ids.2) (lit "F") .cancelOrder where
  fixMsgType := fixMsgType_assemble (by decide) _
  eventType {p p' target event} hparse := by
    obtain ⟨q, ⟨-, htaken⟩ | ⟨-, hrefused⟩⟩ :=
      JsonToFix.parse_orderCancelRequest p ids.1 ids.2 target
    · rw [htaken] at hparse
      rw [← Option.some.inj (Prod.mk.inj (Except.ok.inj hparse)).2]
      rfl
    · rw [hrefused] at hparse
      cases (Prod.mk.inj (Except.ok.inj hparse)).2

/-- What the handler makes of a frame has the kind that its type names. -/
theorem translate_kind {fix : List Byte} (h : translate jackson node = .ok fix) :
    (typeOf jackson node = lit "NEW" ∧ Kind fix (lit "D") .newOrder) ∨
      (typeOf jackson node = lit "CANCEL" ∧ Kind fix (lit "F") .cancelOrder) := by
  unfold translate at h
  split_ifs at h with hnew hcancel
  · obtain ⟨f, -, hf⟩ := bind_eq_ok.mp h
    obtain rfl := Except.ok.inj hf
    exact .inl ⟨hnew, kind_newOrderSingle f⟩
  · obtain ⟨ids, -, hids⟩ := bind_eq_ok.mp h
    obtain rfl := Except.ok.inj hids
    exact .inr ⟨hcancel, kind_orderCancelRequest ids⟩

/-- The filters of the inspector, on a message of a kind. -/
theorem Kind.matchesFilter {fix : List Byte} {code : Text} {eventType : OrderEventType}
    (h : Kind fix code eventType) (seqNum timestamp : ℤ) :
    (matchesFilter (.fix ⟨latin1 fix, seqNum, timestamp⟩) .new = true ↔
      latin1 (getBytes code) = "D") ∧
      (matchesFilter (.fix ⟨latin1 fix, seqNum, timestamp⟩) .cancel = true ↔
        latin1 (getBytes code) = "F") := by
  constructor <;> simp only [Terminal.matchesFilter, h.fixMsgType, decide_eq_true_eq,
    Option.some.injEq]

/-- What the filters say of a message, its frame and its event say as well. -/
structure Told (jackson : Jackson) (node : JsonNode) (fix : List Byte) (seqNum timestamp : ℤ) :
    Prop where
  /-- The filter for new orders shows the echo of a NEW frame. -/
  new : matchesFilter (.fix ⟨latin1 fix, seqNum, timestamp⟩) .new = true ↔
    typeOf jackson node = lit "NEW"
  /-- The filter for cancels shows the echo of a CANCEL frame. -/
  cancel : matchesFilter (.fix ⟨latin1 fix, seqNum, timestamp⟩) .cancel = true ↔
    typeOf jackson node = lit "CANCEL"
  /-- The event is of the type of the frame. -/
  eventType : ∀ {p p' : FixParser} {target event : OrderEvent},
    p.parse fix 0 fix.length target = .ok (p', some event) →
      (event.eventType = .newOrder ↔ typeOf jackson node = lit "NEW") ∧
      (event.eventType = .cancelOrder ↔ typeOf jackson node = lit "CANCEL")

/-- The echo of a message tells what was translated. -/
theorem translate_told {fix : List Byte} (h : translate jackson node = .ok fix)
    (seqNum timestamp : ℤ) :
    Told jackson node fix seqNum timestamp := by
  rcases translate_kind h with ⟨htype, hkind⟩ | ⟨htype, hkind⟩
  · obtain ⟨hnew, hcancel⟩ := hkind.matchesFilter seqNum timestamp
    refine ⟨hnew.trans ?_, hcancel.trans ?_, fun hparse => ?_⟩
    · exact iff_of_true (by decide) htype
    · rw [htype]
      exact iff_of_false (by decide) (by decide)
    · rw [hkind.eventType hparse, htype]
      exact ⟨iff_of_true rfl rfl, iff_of_false (by decide) (by decide)⟩
  · obtain ⟨hnew, hcancel⟩ := hkind.matchesFilter seqNum timestamp
    refine ⟨hnew.trans ?_, hcancel.trans ?_, fun hparse => ?_⟩
    · rw [htype]
      exact iff_of_false (by decide) (by decide)
    · exact iff_of_true (by decide) htype
    · rw [hkind.eventType hparse, htype]
      exact ⟨iff_of_false (by decide) (by decide), iff_of_true rfl rfl⟩

/-- The echo has the message that the handler made of the frame, and the next number. -/
theorem handleOrderJson_echo
    (htaken : handleOrderJson jackson h node now echoed = .ok (h', published, echo)) :
    translate jackson node = .ok echo.raw ∧ h'.fixSeqNum = toLong (h.fixSeqNum + 1) ∧
      echo.seqNum = toLong (h.fixSeqNum + 1) ∧ echo.timestamp = echoed ∧
      h.gateway.onFrame (some echo.raw) now = .ok (h'.gateway, published) := by
  obtain ⟨fix, hfix, hrest⟩ := bind_eq_ok.mp htaken
  cases hframe : h.gateway.onFrame (some fix) now with
  | error e =>
    rw [hframe] at hrest
    cases hrest
  | ok result =>
    rw [hframe] at hrest
    obtain ⟨hhandler, hpublished⟩ := Prod.mk.inj (Except.ok.inj hrest)
    obtain ⟨rfl, rfl⟩ := Prod.mk.inj hpublished
    obtain rfl := hhandler
    exact ⟨hfix, rfl, rfl, rfl, hframe⟩

/-- What is published of a message is an event that the parser makes of it, and it takes the message
apart. -/
theorem onFrame_published {g g' : OrderGateway} {fix : List Byte} {event : OrderEvent}
    (h : g.onFrame (some fix) now = .ok (g', some event)) :
    Scannable maxFields fix ∧ ∃ (p' : FixParser) (filled : OrderEvent),
      g.parser.parse fix 0 fix.length g.scratch = .ok (p', some filled) ∧
      event = { filled with timestamp := now } := by
  obtain ⟨p', ⟨-, hscan, hparse⟩ | ⟨-, hparse⟩⟩ := parse_eq g.parser fix g.scratch
  · obtain ⟨g'', hframe⟩ := onFrame_eq now hparse
    rw [hframe] at h
    obtain ⟨filled, hfilled, rfl⟩ := Option.map_eq_some_iff.mp (Prod.mk.inj (Except.ok.inj h)).2
    rw [hfilled] at hparse
    exact ⟨hscan, p', filled, hparse, rfl⟩
  · obtain ⟨g'', hframe⟩ := onFrame_eq now hparse
    rw [hframe] at h
    cases (Prod.mk.inj (Except.ok.inj h)).2

/-- The terminal reads the echo that the handler wrote. -/
theorem parseServerFrame_echo {parse : String → Option Json} {raw : String} {round : ℤ → ℤ}
    (hraw : echo.raw ≠ []) (hparse : parse raw = some ((echoRawFix echo).rounded round)) :
    parseServerFrame parse raw =
      some (.fix ⟨latin1 echo.raw, round echo.seqNum, round echo.timestamp⟩) := by
  have hlength : 0 < (latin1 echo.raw).length := by
    rw [← String.length_toList, toList_latin1, List.length_map]
    exact List.length_pos_iff.mpr hraw
  simp [parseServerFrame, hparse, echoRawFix, frameOf, Json.rounded, Json.roundedFields,
    Json.field?, int, str, hlength]

/-- What the inspector shows of an order is what the gateway got: the text of the echo gives back
the bytes of the message, its number is that of the echo where that is held, its filters tell the
orders from the cancels as the handler and the parser do, and where something is published the rows
are the fields that the parser took it from, and joined again they are the message. -/
theorem echo_inspected {parse : String → Option Json} {raw : String} {round : ℤ → ℤ}
    (htaken : handleOrderJson jackson h node now echoed = .ok (h', published, echo))
    (hparse : parse raw = some ((echoRawFix echo).rounded round)) :
    ∃ frame : FixFrame, parseServerFrame parse raw = some (.fix frame) ∧
      (round echo.seqNum = echo.seqNum → frame.seqNum = echo.seqNum) ∧
      translate jackson node = .ok (toLatin1 frame.raw) ∧
      (matchesFilter (.fix frame) .new = true ↔ typeOf jackson node = lit "NEW") ∧
      (matchesFilter (.fix frame) .cancel = true ↔ typeOf jackson node = lit "CANCEL") ∧
      ∀ event : OrderEvent, published = some event →
        (matchesFilter (.fix frame) .new = true ↔ event.eventType = .newOrder) ∧
        (matchesFilter (.fix frame) .cancel = true ↔ event.eventType = .cancelOrder) ∧
        parseFixTags frame.raw = (fields (toLatin1 frame.raw)).map Field.row ∧
        joinRows (parseFixTags frame.raw) = frame.raw := by
  obtain ⟨hfix, -, -, -, hframe⟩ := handleOrderJson_echo htaken
  have hkind := translate_kind hfix
  have hraw : echo.raw ≠ [] := by
    intro hempty
    rcases hkind with ⟨-, hkind⟩ | ⟨-, hkind⟩ <;>
    · have htype := hkind.fixMsgType
      rw [hempty] at htype
      cases htype
  refine ⟨_, parseServerFrame_echo hraw hparse, fun hseqNum => hseqNum, ?_⟩
  simp only [toLatin1_latin1]
  have htold := translate_told hfix (round echo.seqNum) (round echo.timestamp)
  refine ⟨hfix, htold.new, htold.cancel, fun event hevent => ?_⟩
  rw [hevent] at hframe
  obtain ⟨hscan, p', filled, hparsed, rfl⟩ := onFrame_published hframe
  obtain ⟨hnew, hcancel⟩ := htold.eventType hparsed
  exact ⟨htold.new.trans hnew.symm, htold.cancel.trans hcancel.symm, parseFixTags_scannable hscan,
    joinRows_scannable hscan⟩

/-- The text of the echo of an order. -/
def echoText : String :=
  "\x7b\"type\":\"FIX\",\"direction\":\"INBOUND\",\"raw\":\"8=FIX.4.2\\u00019=55" ++
    "\\u000135=D\\u000111=7\\u000155=ASML\\u000154=1\\u000138=10\\u000140=2" ++
    "\\u000144=150.25\\u000159=1\\u0001111=4\\u000110=255" ++
    "\\u0001\",\"seqNum\":1,\"timestamp\":1767225600000000123\x7d"

/-- What the terminal reads in it. The time is no safe integer, and rounded. -/
def echoJson : Json :=
  .obj [("type", .str "FIX"), ("direction", .str "INBOUND"),
    ("raw",
      .str ("8=FIX.4.2\x019=55\x0135=D\x0111=7\x0155=ASML\x0154=1\x0138=10\x0140=2\x0144=150.25" ++
      "\x0159=1\x01111=4\x0110=255\x01")),
    ("seqNum", .int 1), ("timestamp", .int 1767225600000000000)]

/-- An order that the inspector shows. -/
theorem echo_inspected_order :
    ∃ (h' : WebSocketFrameHandler) (published : Option OrderEvent) (echo : FixEcho),
      handleOrderJson textualJackson ⟨OrderGateway.idle, 0⟩ (orderOf (.integral 10) (.integral 4)) 1
          1767225600000000123 = .ok (h', published, echo) ∧
      ∃ frame : FixFrame,
        parseServerFrame (fun raw => if raw = echoText then some echoJson else none) echoText =
          some (.fix frame) ∧ frame.seqNum = 1 ∧
        (matchesFilter (.fix frame) .new = true ↔
          typeOf textualJackson (orderOf (.integral 10) (.integral 4)) = lit "NEW") := by
  let fix := JsonToFix.newOrderSingle (asLong 7) .buy .limit (asLong 1502500) (asLong 10)
    (lit "ASML")
    .gtc (asLong 4)
  have htranslate : translate textualJackson (orderOf (.integral 10) (.integral 4)) = .ok fix := rfl
  have hlatin1 : latin1 fix =
      "8=FIX.4.2\x019=55\x0135=D\x0111=7\x0155=ASML\x0154=1\x0138=10\x0140=2" ++
      "\x0144=150.25\x0159=1\x01111=4\x0110=255\x01" := by decide +kernel
  have hrounded : Double.ofInt 1 = 1 := by decide
  obtain ⟨p', filled, hparse⟩ : ∃ p' filled,
      OrderGateway.idle.parser.parse fix 0 fix.length OrderGateway.idle.scratch =
      .ok (p', filled) := by
    obtain ⟨p', ⟨-, -, hparse⟩ | ⟨-, hparse⟩⟩ :=
      parse_eq OrderGateway.idle.parser fix OrderGateway.idle.scratch
    · exact ⟨p', _, hparse⟩
    · exact ⟨p', _, hparse⟩
  obtain ⟨h', echo, hhandled⟩ := handleOrderJson_eq (h := ⟨OrderGateway.idle, 0⟩) 1
    1767225600000000123
    htranslate hparse
  obtain ⟨hraw, -, hseqNum, htimestamp, -⟩ := handleOrderJson_echo hhandled
  have hraw' : fix = echo.raw := Except.ok.inj (htranslate.symm.trans hraw)
  have hone : echo.seqNum = 1 := hseqNum
  have htree : echoJson = (echoRawFix echo).rounded Double.ofInt := by
    simp only [echoRawFix, Json.rounded, Json.roundedFields, ← hraw', hlatin1, hone, htimestamp]
    rfl
  obtain ⟨frame, hframe, hnumber, -, hnew, -⟩ :=
    @echo_inspected _ _ _ _ _ _ _ _ (fun raw => if raw = echoText then some echoJson else none)
      echoText
      Double.ofInt hhandled (by rw [if_pos rfl, htree])
  refine ⟨h', _, echo, hhandled, frame, hframe, ?_, hnew⟩
  rw [hnumber (by rw [hone]; exact hrounded), hone]

/-! ## The echoes of all connections -/

/-- The handlers of the connections, with the gateway that they share, and the echoes, each with the
connection that it was written to. -/
structure Echoing where
  gateway : OrderGateway
  fixSeqNums : ℕ → ℤ := fun _ => 0
  echoes : List (ℕ × FixEcho) := []

/-- A frame that came in on a connection: its tree, when it is taken, and when it is echoed. -/
structure Received where
  connection : ℕ
  node : JsonNode
  now : ℤ
  echoed : ℤ

namespace Echoing

/-- One handler after the other, as the one worker thread calls them. A frame that is dropped leaves
them alone. -/
def receive (jackson : Jackson) (s : Echoing) (r : Received) : Echoing :=
  match handleOrderJson jackson ⟨s.gateway, s.fixSeqNums r.connection⟩ r.node r.now r.echoed with
  | .error _ => s
  | .ok (h, _, echo) =>
    { gateway := h.gateway
      fixSeqNums := Function.update s.fixSeqNums r.connection h.fixSeqNum
      echoes := s.echoes ++ [(r.connection, echo)] }

/-- The echoes that a connection got. -/
def echoesOf (s : Echoing) (connection : ℕ) : List FixEcho :=
  (s.echoes.filter fun e => e.1 = connection).map Prod.snd

/-- The messages that the frames of a connection come to, each with the time of its echo. -/
def messagesOf (jackson : Jackson) (received : List Received) (connection : ℕ) :
    List (List Byte × ℤ) :=
  (received.filter fun r => r.connection = connection).filterMap fun r =>
    (translate jackson r.node).toOption.map fun fix => (fix, r.echoed)

variable {jackson : Jackson} {received : List Received} {connection : ℕ}

/-- A frame that is received adds a message to its connection, where it is translated. -/
theorem messagesOf_append (r : Received) : messagesOf jackson (received ++ [r]) connection =
    messagesOf jackson received connection ++ if r.connection = connection then
      ((translate jackson r.node).toOption.map fun fix => (fix, r.echoed)).toList else [] := by
  rw [messagesOf, List.filter_append, List.filterMap_append]
  congr 1
  simp only [List.filter_cons, List.filter_nil, decide_eq_true_eq]
  split_ifs with hsame
  · rw [List.filterMap_cons]
    cases (translate jackson r.node).toOption <;> rfl
  · rfl

/-- A frame that is translated is echoed. -/
theorem receive_translated (s : Echoing) (r : Received) {fix : List Byte}
    (hfix : translate jackson r.node = .ok fix) :
    ∃ gateway, receive jackson s r =
      { gateway
        fixSeqNums :=
  Function.update s.fixSeqNums r.connection (toLong (s.fixSeqNums r.connection + 1))
        echoes := s.echoes ++
            [(r.connection, ⟨fix, toLong (s.fixSeqNums r.connection + 1), r.echoed⟩)] } := by
  obtain ⟨p', hparse⟩ : ∃ p' filled, s.gateway.parser.parse fix 0 fix.length s.gateway.scratch =
      .ok (p', filled) := by
    obtain ⟨p', ⟨-, -, hparse⟩ | ⟨-, hparse⟩⟩ := parse_eq s.gateway.parser fix s.gateway.scratch
    · exact ⟨p', _, hparse⟩
    · exact ⟨p', _, hparse⟩
  obtain ⟨filled, hparse⟩ := hparse
  obtain ⟨h', echo, hhandled⟩ :=
    handleOrderJson_eq (h := ⟨s.gateway, s.fixSeqNums r.connection⟩) r.now r.echoed hfix hparse
  obtain ⟨hraw, hnext, hseqNum, htimestamp, -⟩ := handleOrderJson_echo hhandled
  rw [hfix] at hraw
  obtain ⟨raw, seqNum, timestamp⟩ := echo
  obtain rfl : fix = raw := Except.ok.inj hraw
  obtain rfl : seqNum = _ := hseqNum
  obtain rfl : timestamp = r.echoed := htimestamp
  refine ⟨h'.gateway, ?_⟩
  rw [receive, hhandled]
  simp only [hnext]

/-- A frame that is not leaves no trace. -/
theorem receive_dropped (s : Echoing) (r : Received) {reason : Dropped}
    (hfix : translate jackson r.node = .error reason) : receive jackson s r = s := by
  rw [receive, handleOrderJson, hfix, error_bind]

/-- The numbers and the echoes of a connection, after some of its messages. -/
structure UpTo (s : Echoing) (connection : ℕ) (messages : List (List Byte × ℤ)) : Prop where
  /-- The counter counts the messages. -/
  fixSeqNum : s.fixSeqNums connection = toLong (messages.length : ℤ)
  /-- The echoes are those of the messages, numbered from one on. -/
  echoes : s.echoesOf connection = messages.mapIdx fun i message =>
    ⟨message.1, toLong ((i : ℤ) + 1), message.2⟩

/-- Each frame that comes in adds the message that it comes to. -/
theorem UpTo.receive {s : Echoing} {messages : List (List Byte × ℤ)}
    (h : s.UpTo connection messages) (r : Received) :
    (s.receive jackson r).UpTo connection (messages ++ if r.connection = connection then
      ((translate jackson r.node).toOption.map fun fix => (fix, r.echoed)).toList else []) := by
  cases hfix : translate jackson r.node with
  | error reason =>
    rw [receive_dropped s r hfix]
    simpa [Except.toOption] using h
  | ok fix =>
    obtain ⟨gateway, hreceive⟩ := receive_translated s r hfix
    rw [hreceive]
    split_ifs with hsame
    · obtain rfl := hsame
      have hnext : toLong (s.fixSeqNums r.connection + 1) = toLong ((messages.length : ℤ) + 1) := by
        rw [h.fixSeqNum]
        exact Int.bmod_add_bmod
      refine ⟨?_, ?_⟩
      · show Function.update s.fixSeqNums r.connection _ r.connection = _
        rw [Function.update_self, hnext]
        simp [Except.toOption]
      · have hechoes := h.echoes
        rw [echoesOf] at hechoes
        simp [echoesOf, hnext, Except.toOption, hechoes, List.mapIdx_append]
    · refine ⟨?_, ?_⟩
      · show Function.update s.fixSeqNums r.connection _ connection = _
        rw [Function.update_of_ne fun heq => hsame heq.symm, List.append_nil]
        exact h.fixSeqNum
      · have hechoes := h.echoes
        rw [echoesOf] at hechoes
        simp [echoesOf, hsame, hechoes]

/-- The frames of some connections that are taken. -/
def taken (jackson : Jackson) (received : List Received) : List Received :=
  received.filter fun r => (translate jackson r.node).toOption.isSome

/-- Frames that are dropped leave no trace: all is as if they had not come in. -/
theorem foldl_receive_taken (jackson : Jackson) (s : Echoing) (received : List Received) :
    received.foldl (receive jackson) s = (taken jackson received).foldl (receive jackson) s := by
  rw [taken, List.foldl_filter]
  refine List.foldl_ext _ _ _ fun s' r _ => ?_
  cases hfix : translate jackson r.node with
  | error reason =>
    rw [receive_dropped s' r hfix]
    rfl
  | ok fix => rfl

/-- The echoes that a connection gets are those of its own messages, all of them in their order,
numbered from one on, whatever the other connections send meanwhile. A frame that is dropped takes
no number, and leaves the gateway that all share as it was. -/
theorem numbered_echoes (jackson : Jackson) (gateway : OrderGateway) (received : List Received)
    (connection : ℕ) :
    (received.foldl (receive jackson) { gateway }).echoesOf connection =
        ((messagesOf jackson received connection).mapIdx fun i message =>
          ⟨message.1, toLong ((i : ℤ) + 1), message.2⟩) ∧
      received.foldl (receive jackson) { gateway } =
        (taken jackson received).foldl (receive jackson) { gateway } := by
  have hupTo : (received.foldl (receive jackson) { gateway }).UpTo connection
      (messagesOf jackson received connection) := by
    induction received using List.reverseRecOn with
    | nil => exact ⟨(toLong_of_le le_rfl (by unfold longMax; omega)).symm, rfl⟩
    | append_singleton received r ih =>
      rw [List.foldl_append, messagesOf_append]
      exact ih.receive r
  exact ⟨hupTo.echoes, foldl_receive_taken jackson _ received⟩

end Echoing

end WebSocketFrameHandler

end MatchingVenue
