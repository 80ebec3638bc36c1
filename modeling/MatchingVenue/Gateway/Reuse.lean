import MatchingVenue.Gateway.Decoding

/-!
# Storage that is reused

The gateway allocates once: the arrays of the scanner, the event that it parses into, and the slots
of the ring. Here they are written in place, with whatever an earlier message left in them.
`runsAs_parseInto` says that the event is written as a whole or not at all, and `gateway_stateless`
that of what was left nothing shows.
-/

namespace MatchingVenue

open FixConstants

namespace FixParser

/-! ## The parser in place -/

/-- A computation that writes an event in place, and says whether the message was accepted. -/
abbrev Filling := StateT OrderEvent (Except Exn) Bool

/-- Fills the event from a new order whose fields have been scanned. -/
def parseNewOrderInto (p : FixParser) (buf : List Byte) (count : ℕ) : Filling := do
  let some iId ← p.findTag clOrdId count | return false
  let some iSide ← p.findTag FixConstants.side count | return false
  let some iQty ← p.findTag orderQty count | return false
  let some iSym ← p.findTag symbol count | return false
  if !(← p.value (symbolMatches buf) iSym) then return false
  let orderId ← p.value (FixConstants.parseLong buf) iId
  if orderId < 0 then return false
  let some side ← p.value (mapSide buf) iSide | return false
  let qty ← p.value (FixConstants.parseLong buf) iQty
  if qty ≤ 0 then return false
  let some ordType ← p.readOrdType buf count | return false
  let some price ← p.readPrice buf count ordType | return false
  let some tif ← p.readTif buf count | return false
  let some maxFloor ← p.readMaxFloor buf count qty | return false
  modify fun target => { target with eventType := .newOrder }
  modify fun target => { target with orderId }
  modify fun target => { target with side := some side }
  modify fun target => { target with ordType := some ordType }
  modify fun target => { target with tif := some tif }
  modify fun target => { target with price }
  modify fun target => { target with quantity := qty }
  modify fun target => { target with maxFloor }
  modify fun target => { target with originalOrderId := -1 }
  return true

/-- Fills the event from a cancel whose fields have been scanned. -/
def parseCancelInto (p : FixParser) (buf : List Byte) (count : ℕ) : Filling := do
  let some iId ← p.findTag clOrdId count | return false
  let some iOrig ← p.findTag origClOrdId count | return false
  let orderId ← p.value (FixConstants.parseLong buf) iId
  if orderId < 0 then return false
  let origId ← p.value (FixConstants.parseLong buf) iOrig
  if origId < 0 then return false
  modify fun target => { target with eventType := .cancelOrder }
  modify fun target => { target with orderId }
  modify fun target => { target with originalOrderId := origId }
  modify fun target => { target with side := none }
  modify fun target => { target with ordType := none }
  modify fun target => { target with tif := none }
  modify fun target => { target with price := -1 }
  modify fun target => { target with quantity := -1 }
  modify fun target => { target with maxFloor := 0 }
  return true

/-- Parses one framed message into the event. -/
def parseInto (p : FixParser) (buf : List Byte) (offset length : ℕ) :
    StateT OrderEvent (Except Exn) (FixParser × Bool) := do
  if !(← validateChecksum buf offset length) then return (p, false)
  let (p, scanned) ← p.scan buf offset length
  let some count := scanned | return (p, false)
  let some i ← p.findTag messageType count | return (p, false)
  let start ← load p.valStarts i
  if (← load p.valEnds i) - start ≠ 1 then return (p, false)
  let msgType ← load buf start
  if msgType = msgTypeNewOrder then return (p, ← p.parseNewOrderInto buf count)
  if msgType = msgTypeCancel then return (p, ← p.parseCancelInto buf count)
  return (p, false)

/-! ## The event is written as a whole or not at all -/

/-- A computation in place comes to what another one returns: the result and the event are read off
it. -/
def RunsAs {α β : Type} (target : OrderEvent) (out : α → β × OrderEvent)
    (m : StateT OrderEvent (Except Exn) β) (e : Except Exn α) : Prop :=
  m.run target = e.map out

/-- Whether an event was filled, and the event after it. -/
def filledIn (target : OrderEvent) (filled : Option OrderEvent) : Bool × OrderEvent :=
  (filled.isSome, filled.getD target)

section RunsAs

variable {target : OrderEvent} {α β γ : Type} {out : α → β × OrderEvent}

/-- A result in place is a result. -/
theorem runsAs_pure {a : α} {b : β} (h : out a = (b, target)) :
    RunsAs target out (pure b) (pure a) :=
  congrArg Except.ok h.symm

/-- A computation that does not touch the event may come first. -/
theorem RunsAs.bind {x : Except Exn γ} {m : γ → StateT OrderEvent (Except Exn) β}
    {e : γ → Except Exn α} (h : ∀ c, RunsAs target out (m c) (e c)) :
    RunsAs target out (liftM x >>= m) (x >>= e) := by
  cases x with
  | error exn => rfl
  | ok c => exact h c

/-- A choice in place is a choice. -/
theorem RunsAs.ite {c : Prop} [Decidable c] {m m' : StateT OrderEvent (Except Exn) β}
    {e e' : Except Exn α} (h : RunsAs target out m e) (h' : RunsAs target out m' e') :
    RunsAs target out (if c then m else m') (if c then e else e') := by
  split_ifs
  · exact h
  · exact h'

/-- What is done with the results of both. -/
theorem RunsAs.map {δ ε : Type} {out' : δ → ε × OrderEvent} {f : β → ε} {g : α → δ}
    {m : StateT OrderEvent (Except Exn) β} {e : Except Exn α} (h : RunsAs target out m e)
    (hout : ∀ a, out' (g a) = (f (out a).1, (out a).2)) :
    RunsAs target out' (m >>= fun b => pure (f b)) (e >>= fun a => pure (g a)) := by
  have hrun : (m >>= fun b => pure (f b)).run target = (m.run target).map fun r =>
      (f r.1, r.2) := by
    rw [StateT.run_bind]
    cases m.run target with
    | error exn => rfl
    | ok r => rfl
  rw [RunsAs, hrun, h]
  cases e with
  | error exn => rfl
  | ok a => exact congrArg Except.ok (hout a).symm

variable (p : FixParser) (buf : List Byte) (count : ℕ)

/-- A cancel is parsed in place as it is parsed. -/
theorem runsAs_parseCancelInto : RunsAs target (filledIn target) (p.parseCancelInto buf count)
    (p.parseCancel buf count target) := by
  have hreject : RunsAs target (filledIn target) (pure false) (pure none) := runsAs_pure rfl
  refine RunsAs.bind fun iId => ?_
  cases iId with
  | none => exact hreject
  | some iId =>
  refine RunsAs.bind fun iOrig => ?_
  cases iOrig with
  | none => exact hreject
  | some iOrig =>
  refine RunsAs.bind fun orderId =>
    RunsAs.ite hreject (RunsAs.bind fun origId => RunsAs.ite hreject ?_)
  rfl

/-- A new order is parsed in place as it is parsed. -/
theorem runsAs_parseNewOrderInto :
    RunsAs target (filledIn target) (p.parseNewOrderInto buf count)
      (p.parseNewOrder buf count target) := by
  have hreject : RunsAs target (filledIn target) (pure false) (pure none) := runsAs_pure rfl
  refine RunsAs.bind fun iId => ?_
  cases iId with
  | none => exact hreject
  | some iId =>
  refine RunsAs.bind fun iSide => ?_
  cases iSide with
  | none => exact hreject
  | some iSide =>
  refine RunsAs.bind fun iQty => ?_
  cases iQty with
  | none => exact hreject
  | some iQty =>
  refine RunsAs.bind fun iSym => ?_
  cases iSym with
  | none => exact hreject
  | some iSym =>
  -- The required tags are there; now the checks in the order of the source.
  refine RunsAs.bind fun matched =>
    RunsAs.ite hreject (RunsAs.bind fun orderId => RunsAs.ite hreject
    (RunsAs.bind fun side => ?_))
  cases side with
  | none => exact hreject
  | some side =>
  refine RunsAs.bind fun qty => RunsAs.ite hreject (RunsAs.bind fun ordType => ?_)
  cases ordType with
  | none => exact hreject
  | some ordType =>
  refine RunsAs.bind fun price => ?_
  cases price with
  | none => exact hreject
  | some price =>
  refine RunsAs.bind fun tif => ?_
  cases tif with
  | none => exact hreject
  | some tif =>
  refine RunsAs.bind fun maxFloor => ?_
  cases maxFloor with
  | none => exact hreject
  | some maxFloor => rfl

end RunsAs

/-- What is left of a message: the parser, whether it was accepted, and the event after it. -/
def parsedInto (target : OrderEvent) (r : FixParser × Option OrderEvent) :
    (FixParser × Bool) × OrderEvent :=
  ((r.1, r.2.isSome), r.2.getD target)

/-- The parser in place leaves the event as it is where it rejects a message, and writes all of it
but the timestamp where it accepts one. -/
theorem runsAs_parseInto (p : FixParser) (buf : List Byte) (offset length : ℕ)
    (target : OrderEvent) :
    RunsAs target (parsedInto target) (p.parseInto buf offset length)
      (p.parse buf offset length target) := by
  have hreject : ∀ q : FixParser,
      RunsAs target (parsedInto target) (pure (q, false)) (pure (q, none)) := fun q =>
    runsAs_pure rfl
  refine RunsAs.bind fun valid => RunsAs.ite (hreject p) (RunsAs.bind fun ⟨q, scanned⟩ => ?_)
  cases scanned with
  | none => exact hreject q
  | some count =>
  refine RunsAs.bind fun i => ?_
  cases i with
  | none => exact hreject q
  | some i =>
  refine RunsAs.bind fun start => RunsAs.bind fun stop =>
    RunsAs.ite (hreject q) (RunsAs.bind fun msgType => ?_)
  refine RunsAs.ite ?_ (RunsAs.ite ?_ (hreject q))
  · exact (runsAs_parseNewOrderInto q buf count).map fun r => rfl
  · exact (runsAs_parseCancelInto q buf count).map fun r => rfl

end FixParser

/-! ## The gateway and its ring -/

/-- The translator of the gateway: it copies all ten fields of an event into a slot. -/
def copyIntoSlot (slot src : OrderEvent) : OrderEvent :=
  let slot := { slot with eventType := src.eventType }
  let slot := { slot with orderId := src.orderId }
  let slot := { slot with side := src.side }
  let slot := { slot with ordType := src.ordType }
  let slot := { slot with tif := src.tif }
  let slot := { slot with price := src.price }
  let slot := { slot with quantity := src.quantity }
  let slot := { slot with maxFloor := src.maxFloor }
  let slot := { slot with timestamp := src.timestamp }
  { slot with originalOrderId := src.originalOrderId }

/-- A copy leaves nothing of what the slot held. -/
theorem copyIntoSlot_eq (slot src : OrderEvent) : copyIntoSlot slot src = src := rfl

/-- A ring: its slots with what is in them, and the sequence that is claimed next. -/
structure RingBuffer (size : ℕ) where
  slots : Fin size → OrderEvent
  next : ℕ
  size_pos : 0 < size

/-- Claims the next slot, translates an event into it and publishes it. -/
def RingBuffer.publishEvent {size : ℕ} (ring : RingBuffer size)
    (translate : OrderEvent → OrderEvent → OrderEvent) (src : OrderEvent) :
    RingBuffer size × OrderEvent :=
  let i : Fin size := ⟨ring.next % size, Nat.mod_lt _ ring.size_pos⟩
  let slot := translate (ring.slots i) src
  ({ ring with slots := fun j => if j = i then slot else ring.slots j, next := ring.next + 1 },
    slot)

/-- The gateway with the ring that it publishes to. -/
structure Inbound (size : ℕ) where
  gateway : OrderGateway
  ring : RingBuffer size

namespace Inbound

variable {size : ℕ}

/-- Handles one frame at a time of receipt: what is published, if anything. -/
def onFrame (s : Inbound size) (frame : Option (List Byte)) (now : ℤ) :
    Except Exn (Inbound size × Option OrderEvent) :=
  match frame with
  | none => .ok (s, none)
  | some frame => do
    let ((parser, accepted), scratch) ← (s.gateway.parser.parseInto frame 0 frame.length).run
      s.gateway.scratch
    if !accepted then return ({ s with gateway := { parser, scratch } }, none)
    let scratch := { scratch with timestamp := now }
    let (ring, event) := s.ring.publishEvent copyIntoSlot scratch
    return ({ gateway := { parser, scratch }, ring }, some event)

/-- Handles some frames one after the other: the events that are published. -/
def run (s : Inbound size) :
    List (Option (List Byte) × ℤ) → Except Exn (Inbound size × List OrderEvent)
  | [] => .ok (s, [])
  | (frame, now) :: inputs => do
    let (s, published) ← s.onFrame frame now
    let (s, events) ← s.run inputs
    return (s, published.toList ++ events)

end Inbound

/-! ## Nothing of what was left shows -/

/-- An event received at a time. -/
def OrderEvent.stamped (now : ℤ) (event : OrderEvent) : OrderEvent :=
  { event with timestamp := now }

namespace Wire

/-- A new order depends on the event that it is written to by its stamp only. -/
theorem newOrderOf_stamped (fs : List Field) (target fresh : OrderEvent) :
    newOrderOf fs target = (newOrderOf fs fresh).map (·.stamped target.timestamp) := by
  simp only [newOrderOf, Option.bind_eq_bind, Option.map_bind, Function.comp_def, Option.map_some,
    OrderEvent.stamped]

/-- A cancel depends on the event that it is written to by its stamp only. -/
theorem cancelOf_stamped (fs : List Field) (target fresh : OrderEvent) :
    cancelOf fs target = (cancelOf fs fresh).map (·.stamped target.timestamp) := by
  simp only [cancelOf, Option.bind_eq_bind, Option.map_bind, Function.comp_def, Option.map_some,
    OrderEvent.stamped]

/-- Of the event that is filled in only the timestamp stays. -/
theorem eventOf_stamped (fs : List Field) (target fresh : OrderEvent) :
    eventOf fs target = (eventOf fs fresh).map (·.stamped target.timestamp) := by
  rw [eventOf, eventOf]
  cases lookup messageType fs with
  | none => rfl
  | some msgType =>
    simp only [Option.bind_eq_bind, Option.bind_some]
    split_ifs
    · exact newOrderOf_stamped fs target fresh
    · exact cancelOf_stamped fs target fresh
    · rfl

end Wire

namespace FixParser

/-- What a fresh parser fills a fresh event with from a frame, if it accepts it. -/
def contents (fresh : OrderEvent) (frame : List Byte) : Option OrderEvent :=
  match (({} : FixParser).parseInto frame 0 frame.length).run fresh with
  | .ok ((_, true), event) => some event
  | _ => none

/-- Any parser fills any event with the same, but for the timestamp of the event. -/
theorem exists_parse_contents (p : FixParser) (fresh target : OrderEvent) (frame : List Byte) :
    ∃ p', p.parse frame 0 frame.length target =
      .ok (p', (contents fresh frame).map (·.stamped target.timestamp)) := by
  have hinto := runsAs_parseInto {} frame 0 frame.length fresh
  obtain ⟨q, hfresh⟩ := Wire.parse_eq {} frame fresh
  obtain ⟨p', htarget⟩ := Wire.parse_eq p frame target
  refine ⟨p', ?_⟩
  rw [contents, hinto]
  -- The frame is taken apart in both runs or in neither.
  rcases hfresh with ⟨hchecked, hscannable, hfresh⟩ | ⟨hno, hfresh⟩
  · obtain ⟨-, -, htarget⟩ := htarget.resolve_right fun hand => hand.1 ⟨hchecked, hscannable⟩
    rw [htarget, hfresh, Wire.eventOf_stamped _ target fresh]
    cases Wire.eventOf (Wire.fields frame) fresh with
    | none => rfl
    | some event => rfl
  · obtain ⟨-, htarget⟩ := htarget.resolve_left fun hand => hno ⟨hand.1, hand.2.1⟩
    rw [htarget, hfresh]
    rfl

end FixParser

namespace Inbound

variable {size : ℕ}

/-- What is published of a frame, as a function of the frame and the time of receipt. -/
def publishedOf (fresh : OrderEvent) (input : Option (List Byte) × ℤ) : Option OrderEvent :=
  (input.1.bind (FixParser.contents fresh)).map (·.stamped input.2)

/-- One frame publishes what it publishes on its own. -/
theorem exists_onFrame (s : Inbound size) (fresh : OrderEvent)
    (frame : Option (List Byte)) (now : ℤ) :
    ∃ s', s.onFrame frame now = .ok (s', publishedOf fresh (frame, now)) := by
  cases frame with
  | none => exact ⟨s, rfl⟩
  | some frame =>
    obtain ⟨p', hparse⟩ := FixParser.exists_parse_contents s.gateway.parser fresh
      s.gateway.scratch frame
    have hinto : (s.gateway.parser.parseInto frame 0 frame.length).run s.gateway.scratch = _ :=
      FixParser.runsAs_parseInto s.gateway.parser frame 0 frame.length s.gateway.scratch
    rw [hparse] at hinto
    rw [publishedOf, Option.bind_some]
    cases hcontents : FixParser.contents fresh frame with
    | none =>
      rw [hcontents] at hinto
      rw [onFrame, hinto]
      exact ⟨_, rfl⟩
    | some event =>
      -- The copy in the slot has all of the scratch event and nothing of the slot.
      rw [hcontents] at hinto
      rw [onFrame, hinto]
      exact ⟨_, rfl⟩

/-- In place the gateway does what it does on values. -/
theorem onFrame_gateway (s : Inbound size) (frame : Option (List Byte)) (now : ℤ) :
    (s.onFrame frame now).map (fun r => (r.1.gateway, r.2)) = s.gateway.onFrame frame now := by
  cases frame with
  | none => rfl
  | some frame =>
    have hinto : (s.gateway.parser.parseInto frame 0 frame.length).run s.gateway.scratch = _ :=
      FixParser.runsAs_parseInto s.gateway.parser frame 0 frame.length s.gateway.scratch
    rw [onFrame, OrderGateway.onFrame, hinto]
    cases s.gateway.parser.parse frame 0 frame.length s.gateway.scratch with
    | error exn => rfl
    | ok r =>
      obtain ⟨parser, filled⟩ := r
      cases filled with
      | none => rfl
      | some event => rfl

/-- The gateway is stateless across messages: whatever is in the arrays, the scratch event and the
slots before, the events that are published of some frames are those of each frame parsed on its
own, in order and stamped with its time of receipt. And where the parser rejects a message, the
event is left as it is. -/
theorem gateway_stateless (fresh : OrderEvent) :
    (∀ (size : ℕ) (s : Inbound size) (inputs : List (Option (List Byte) × ℤ)), ∃ s',
      s.run inputs = .ok (s', inputs.filterMap (publishedOf fresh))) ∧
    ∀ (p p' : FixParser) (frame : List Byte) (target target' : OrderEvent),
      (p.parseInto frame 0 frame.length).run target = .ok ((p', false), target') →
      target' = target := by
  refine ⟨fun size s inputs => ?_, fun p p' frame target target' h => ?_⟩
  · induction inputs generalizing s with
    | nil => exact ⟨s, rfl⟩
    | cons input inputs ih =>
      obtain ⟨frame, now⟩ := input
      obtain ⟨s₁, hframe⟩ := s.exists_onFrame fresh frame now
      obtain ⟨s', hrun⟩ := ih s₁
      refine ⟨s', ?_⟩
      rw [run, hframe, ok_bind]
      simp only
      rw [hrun, ok_bind, List.filterMap_cons]
      cases publishedOf fresh (frame, now) with
      | none => rfl
      | some event => rfl
  · have hinto : (p.parseInto frame 0 frame.length).run target = _ :=
      FixParser.runsAs_parseInto p frame 0 frame.length target
    obtain ⟨q, hparse⟩ := FixParser.exists_parse_contents p target target frame
    rw [hinto, hparse] at h
    obtain ⟨haccepted, hevent⟩ := Prod.mk.inj (Except.ok.inj h)
    obtain ⟨-, hnone⟩ := Prod.mk.inj haccepted
    rw [← hevent]
    simp only [Option.isSome_eq_false_iff, Option.isNone_iff_eq_none] at hnone
    rw [hnone]
    rfl

end Inbound

end MatchingVenue
