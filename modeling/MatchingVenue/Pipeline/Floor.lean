import MatchingVenue.Net.WebSocketFrameHandler
import MatchingVenue.Pipeline.Delivery
import MatchingVenue.Pipeline.Legible
import MatchingVenue.Terminal.App
import MatchingVenue.Terminal.Restamping

/-!
# The floor

The venue with the terminals of its clients, from what a terminal writes to its socket to what comes
back to it. A frame that a control has asked for goes as JSON to the worker thread, which makes a
FIX message of it for the gateway; what the threads of the venue make of it is broadcast as JSON,
and each terminal reads the EXEC frames in the order in which they were broadcast. All this refines
the sessions, in which a handler processes one request after the other and its reports are there at
once (`Runs.refines_sessions`).

Every client is connected before the first report and stays so, and the group is not empty then.
What a client gets besides EXEC frames (depth, and the echoes of its messages) is anything.
-/

namespace MatchingVenue

universe u

open MatchingEngineHandler (after newIds newIds_append mem_newIds)
open Terminal

/-! ## The wire -/

/-- How the two sides write and read: what the server reads of the numbers and texts of a node, the
text of a tree that it writes, and the tree that a browser reads in a text, whose integers it
rounds. -/
structure Codec where
  jackson : Jackson
  write : Json → String
  parse : String → Option Json
  round : ℤ → ℤ

/-- What the libraries are documented to do with some trees. -/
structure Codec.Documented (codec : Codec) (trees : List Json) : Prop where
  /-- The reader of the server does what is documented. -/
  jackson : codec.jackson.Documented
  /-- A safe integer is not rounded. -/
  round_safe : ∀ n, Safe n → codec.round n = n
  /-- A tree that is written is read back, with its numbers rounded. -/
  parse_write : ∀ json ∈ trees, codec.parse (codec.write json) = some (json.rounded codec.round)

/-- What holds of the text of some trees holds of fewer. -/
theorem Codec.Documented.mono {codec : Codec} {trees trees' : List Json}
    (h : codec.Documented trees') (hsub : trees ⊆ trees') : codec.Documented trees :=
  ⟨h.jackson, h.round_safe, fun json hjson => h.parse_write json (hsub hjson)⟩

/-- A wire that carries a tree: the server writes it as it writes every tree, and a browser reads it
with its integers rounded to the next doubles. -/
def wireOf (tree : Json) : Codec where
  jackson := WebSocketFrameHandler.textualJackson
  round := Double.ofInt
  write json := json.text?.getD ""
  parse raw := if some raw = tree.text? then some (tree.rounded Double.ofInt) else none

/-- It does what the libraries are documented to do with the tree. -/
theorem documented_wireOf {tree : Json} {text : String} (htext : tree.text? = some text) :
    (wireOf tree).Documented [tree] where
  jackson := WebSocketFrameHandler.textualJackson_documented
  round_safe n hsafe := by
    have hmax : Double.isSafe n.natAbs := by
      obtain ⟨hlower, hupper⟩ := hsafe
      have hbound : n.natAbs ≤ 2^53 - 1 := by omega
      exact decide_eq_true hbound
    exact (Double.held_of_isSafe hmax).ofInt_eq
  parse_write json hjson := by
    obtain rfl := List.mem_singleton.mp hjson
    simp [wireOf, htext]

namespace WebSocketFrameHandler

/-- The object that a terminal sends for a frame. -/
def clientNode : ClientFrame → JsonNode
  | .new frame => frameNode frame
  | .cancel clOrdId origClOrdId =>
    .object [("type", .text (Text.lit "CANCEL")), ("clOrdId", .integral clOrdId),
      ("origClOrdId", .integral origClOrdId)]

/-- The handler makes a message of whatever a terminal sends. -/
theorem translate_clientNode {jackson : Jackson} (hj : jackson.Documented) (frame : ClientFrame) :
    translate jackson (clientNode frame) = .ok (bytesOf frame) := by
  cases frame with
  | new frame => exact translate_frameNode hj frame
  | cancel clOrdId origClOrdId =>
    have htype : typeOf jackson (clientNode (.cancel clOrdId origClOrdId)) = Text.lit "CANCEL" :=
      hj.asText_text _
    have hnew : Text.lit "CANCEL" ≠ Text.lit "NEW" := by decide
    have hread : readCancel jackson (clientNode (.cancel clOrdId origClOrdId)) =
        .ok (asLong clOrdId, asLong origClOrdId) :=
      readCancel_eq_ok.mpr ⟨⟨_, rfl, hj.asLong_integral _⟩, _, rfl, hj.asLong_integral _⟩
    rw [translate, htype, if_neg hnew, if_pos rfl, hread]
    rfl

end WebSocketFrameHandler

namespace Terminal

/-- What a control can ask for, under the id that it takes. -/
def Sendable (frame : ClientFrame) : Prop := ∃ r clOrdId,
    Request.Ready r ∧ PositiveSafe clOrdId ∧ frame = r.frame clOrdId

/-- The request of a frame is the event of what was asked for. -/
theorem Request.Ready.request_eq {r : Request} (h : r.Ready) {clOrdId : ℤ}
    (hid : PositiveSafe clOrdId) (target : OrderEvent) :
    request target.timestamp (r.frame clOrdId) = some (r.event clOrdId target) := by
  cases r with
  | order intent =>
    obtain ⟨hqty, hprice, hpeg, hnonneg, hlt, -⟩ : Terminal.Ready intent := h
    have hfloor : (if intent.displayQty > 0 then intent.displayQty else 0) = intent.displayQty := by
      split_ifs <;> omega
    cases htype : intent.ordType with
    | limit =>
      have hne : ¬ intent.ordType = .pegMid := by simp [htype]
      have hpriced : 0 < (if intent.ordType = .pegMid then MatchingEngineHandler.na
          else intent.pricePx) ∧
          (if intent.ordType = .pegMid then MatchingEngineHandler.na else intent.pricePx) % 100 =
          0 := by
        rw [if_neg hne]
        exact ⟨(hprice htype).1.1, (hprice htype).2⟩
      rw [Request.frame, request, if_pos ⟨hid.1.le, hqty.1, fun _ => hlt.le, .inr hpriced⟩]
      simp only [Request.event, eventOf, if_neg hne, hfloor]
    | pegMid =>
      rw [Request.frame, request, if_pos ⟨hid.1.le, hqty.1, fun _ => hlt.le, .inl htype⟩]
      simp only [Request.event, eventOf, htype, hfloor, if_true]
  | cancel origClOrdId =>
    have horig : PositiveSafe origClOrdId := h
    rw [Request.frame, request, if_pos ⟨hid.1.le, horig.1.le⟩]
    rfl

/-- The gateway publishes the request of a frame that a terminal can send. -/
theorem Sendable.publishedOf {frame : ClientFrame} (h : Sendable frame)
    (fresh : OrderEvent) (now : ℤ) :
    Inbound.publishedOf fresh (some (bytesOf frame), now) = request now frame := by
  obtain ⟨r, clOrdId, hready, hid, rfl⟩ := h
  obtain ⟨p', hcontents⟩ := FixParser.exists_parse_contents {} fresh (fresh.stamped now)
    (bytesOf (r.frame clOrdId))
  obtain ⟨q', hparse⟩ := hready.parse hid {} (fresh.stamped now)
  rw [hparse] at hcontents
  rw [Inbound.publishedOf, Option.bind_some]
  exact (Prod.mk.inj (Except.ok.inj hcontents)).2.symm.trans
    (hready.request_eq hid (fresh.stamped now)).symm

/-- A positive safe number is safe. -/
theorem PositiveSafe.safe {n : ℤ} (h : PositiveSafe n) : Safe n := by
  have hmax : (Double.maxSafe : ℤ) = 2^53 - 1 := by decide
  obtain ⟨hpos, hle⟩ := h
  unfold Safe
  omega

/-- The numbers of what a control asks for are safe. -/
theorem Request.Ready.legible {r : Request} (h : r.Ready) {clOrdId : ℤ} (hid : PositiveSafe clOrdId)
    (target : OrderEvent) : (r.event clOrdId target).Legible := by
  have hna : Safe (-1) := by decide
  cases r with
  | order intent =>
    refine ⟨hid.safe, hna, ?_⟩
    have hready : Terminal.Ready intent := h
    show Safe (if intent.ordType = .pegMid then Prices.na else intent.pricePx)
    cases htype : intent.ordType with
    | limit =>
      rw [if_neg (by decide)]
      exact (hready.price htype).1.safe
    | pegMid => exact hna
  | cancel origClOrdId => exact ⟨hid.safe, PositiveSafe.safe h, hna⟩

/-- A frame that a terminal can send has a request at any time, with safe numbers. -/
theorem Sendable.exists_request {frame : ClientFrame} (h : Sendable frame) :
    ∃ event : OrderEvent, event.Legible ∧ ∀ now, request now frame = some (event.stamped now) := by
  obtain ⟨r, clOrdId, hready, hid, rfl⟩ := h
  have hrequest := hready.request_eq hid OrderGateway.idle.scratch
  exact ⟨_, hready.legible hid _, fun now => by
    rw [← request_stamped _ now, hrequest, Option.map_some]⟩

end Terminal

namespace Venue

variable {inboundSize outboundSize snapshotSize : ℕ}
  {s t : Venue inboundSize outboundSize snapshotSize}

/-- A frame is not taken by the engine thread yet. -/
theorem OnFrame.taken {frame : Option (List Byte)} {nanos : ℤ} (h : OnFrame frame nanos s t) :
    t.taken = s.taken := by
  cases h <;> rfl

/-- A step takes an event, or none. -/
theorem Step.taken (h : Step s t) : t.taken = s.taken ∨ t.taken = s.taken + 1 := by
  cases h with
  | gateway h => cases h; exact .inl rfl
  | engine h =>
    cases h with
    | onEvent _ _ hlt _ => exact .inr (SlotRing.handled_handle hlt)
    | publish _ _ _ => exact .inl rfl
    | publishSnapshot _ _ _ _ => exact .inl rfl
    | turn _ _ hturn => exact .inl (hturn.handled ())
  | outbound h => cases h <;> exact .inl rfl
  | snapshots h => cases h <;> exact .inl rfl

/-- A frame is broadcast by nobody. -/
theorem OnFrame.broadcast {frame : Option (List Byte)} {nanos : ℤ} (h : OnFrame frame nanos s t) :
    t.execFrames = s.execFrames ∧ t.audience = s.audience := by
  cases h <;> exact ⟨rfl, rfl⟩

/-- What was broadcast stays so. -/
theorem Step.execFrames (h : Step s t) : s.execFrames <+: t.execFrames := by
  cases h with
  | gateway h => cases h; exact List.prefix_rfl
  | engine h => cases h <;> exact List.prefix_rfl
  | outbound h =>
    cases h with
    | onExecution isEmpty _ =>
      cases isEmpty with
      | true => exact List.prefix_rfl
      | false => exact List.prefix_append ..
    | logTrade _ => exact List.prefix_rfl
    | turn _ => exact List.prefix_rfl
  | snapshots h => cases h <;> exact List.prefix_rfl

/-- The publisher has always found a channel in the group. -/
def Heard (s : Venue inboundSize outboundSize snapshotSize) : Prop :=
  ∀ heard ∈ s.audience, heard = true

/-- A step with a channel in the group. -/
def HeardStep (s t : Venue inboundSize outboundSize snapshotSize) : Prop := Step s t ∧ t.Heard

/-- Nobody is needed for a step, so there is one with a channel in the group where there is any. -/
theorem Step.exists_heard (h : Step s t) (hheard : s.Heard) : ∃ u, HeardStep s u := by
  cases h with
  | gateway h => exact ⟨t, .gateway h, by cases h; exact hheard⟩
  | engine h => exact ⟨t, .engine h, by cases h <;> exact hheard⟩
  | outbound h =>
    cases h with
    | onExecution _ hlt =>
      refine ⟨_, .outbound (.onExecution false hlt), ?_⟩
      exact List.forall_mem_append.mpr ⟨hheard, List.forall_mem_singleton.mpr rfl⟩
    | logTrade hlt => exact ⟨_, .outbound (.logTrade hlt), hheard⟩
    | turn hturn => exact ⟨_, .outbound (.turn hturn), hheard⟩
  | snapshots h => exact ⟨t, .snapshots h, by cases h <;> exact hheard⟩

/-- And some way of going on with a channel in the group has an end. -/
theorem exists_heard_stuck (hheard : s.Heard) :
    ∃ t, Relation.ReflTransGen HeardStep s t ∧ t.Heard ∧ ∀ u, ¬ Step t u := by
  obtain ⟨t, hrun, hstuck⟩ := exists_stuck_of_measure (r := HeardStep)
    (fun _ _ h => h.1.left) s
  have ht : t.Heard := steps_inv hrun Heard hheard fun _ _ _ hstep => hstep.2
  refine ⟨t, hrun, ht, fun u hu => ?_⟩
  obtain ⟨v, hv⟩ := hu.exists_heard ht
  exact hstuck v hv

/-- Every report is broadcast then. -/
theorem Mirrors.execFrames_of_heard {events : List OrderEvent} {executions : List OutboundSlot}
    {depths : List BookSnapshotEvent} (h : s.Mirrors events executions depths)
    (hheard : s.Heard) : s.execFrames =
      (executions.take (s.outbound.cursors .publisher).handled).map
      WebSocketPublisher.execFrame := by
  rw [h.execFrames, WebSocketPublisher.heardFrames_of_heard h.length_handled hheard]

end Venue

/-! ## The state and its steps -/

/-- The venue with its clients: the frames of each client that the worker thread has not come to,
oldest first, and what the terminal of each client has done and received. -/
structure Floor (Client : Type u) (inboundSize outboundSize snapshotSize : ℕ) where
  venue : Venue inboundSize outboundSize snapshotSize
  outgoing : Client → List ClientFrame := fun _ => []
  actions : Client → List Action := fun _ => []

namespace Floor

variable {Client : Type u} [DecidableEq Client] {inboundSize outboundSize snapshotSize : ℕ}

/-- The floor after an action on the terminal of a client. -/
def act (f : Floor Client inboundSize outboundSize snapshotSize) (c : Client) (action : Action) :
    Floor Client inboundSize outboundSize snapshotSize :=
  { f with actions := Function.update f.actions c (f.actions c ++ [action]) }

/-- The floor after a client has written a frame to its socket. -/
def send (f : Floor Client inboundSize outboundSize snapshotSize) (c : Client) (frame : ClientFrame)
    (sentAtNanos : Option ℤ) : Floor Client inboundSize outboundSize snapshotSize :=
  { f.act c (.sent frame sentAtNanos) with
    outgoing := Function.update f.outgoing c (f.outgoing c ++ [frame]) }

/-- The runs of a floor, with the messages that the gateway was given: whose they were and when. A
client writes a frame that its controls can ask for; the worker thread hands the message of the
oldest frame of a client to the gateway; a thread of the venue does a step; a client reads the next
EXEC frame that was broadcast; anything else happens at a terminal. -/
inductive Runs (codec : Codec) (may : (Client → List Action) → Client → ClientFrame → Prop)
    (start : Venue inboundSize outboundSize snapshotSize) :
    List (Client × Option (List Byte) × ℤ) → Floor Client inboundSize outboundSize snapshotSize →
      Prop where
  | start : Runs codec may start [] { venue := start }
  /-- A client sends a frame. -/
  | send {inputs : List (Client × Option (List Byte) × ℤ)}
    {f : Floor Client inboundSize outboundSize snapshotSize}
    {c : Client} {frame : ClientFrame} {sentAtNanos : Option ℤ} :
    Runs codec may start inputs f → Sendable frame → may f.actions c frame →
    Runs codec may start inputs (f.send c frame sentAtNanos)
  /-- The oldest frame of a client is translated and handed to the gateway. -/
  | serve {inputs : List (Client × Option (List Byte) × ℤ)}
    {f : Floor Client inboundSize outboundSize snapshotSize}
    {c : Client} {frame : ClientFrame} {rest : List ClientFrame} {fix : List Byte} {nanos : ℤ}
    {venue : Venue inboundSize outboundSize snapshotSize} :
    Runs codec may start inputs f → f.outgoing c = frame :: rest →
    WebSocketFrameHandler.translate codec.jackson (WebSocketFrameHandler.clientNode frame) =
      .ok fix →
    Venue.OnFrame (some fix) nanos f.venue venue →
    Runs codec may start (inputs ++ [(c, some fix, f.venue.clock.getAsLong nanos)])
      { f with venue, outgoing := Function.update f.outgoing c rest }
  /-- A thread of the venue takes a step, and no report finds the group empty. -/
  | venue {inputs : List (Client × Option (List Byte) × ℤ)}
    {f : Floor Client inboundSize outboundSize snapshotSize}
    {venue : Venue inboundSize outboundSize snapshotSize} :
    Runs codec may start inputs f → Venue.HeardStep f.venue venue →
    Runs codec may start inputs { f with venue }
  /-- A client reads the next EXEC frame that was broadcast. -/
  | receive {inputs : List (Client × Option (List Byte) × ℤ)}
    {f : Floor Client inboundSize outboundSize snapshotSize}
    {c : Client} {json : Json} {exec : ExecFrame} :
    Runs codec may start inputs f → f.venue.execFrames[(execs (f.actions c)).length]? = some json →
    parseServerFrame codec.parse (codec.write json) = some (.exec exec) →
    Runs codec may start inputs (f.act c (.frame (.exec exec)))
  /-- Anything else happens at a terminal. -/
  | other {inputs : List (Client × Option (List Byte) × ℤ)}
    {f : Floor Client inboundSize outboundSize snapshotSize}
    {c : Client} {action : Action} :
    Runs codec may start inputs f → action.execFrame = none →
      (∀ frame sentAtNanos, action ≠ .sent frame sentAtNanos) →
    Runs codec may start inputs (f.act c action)

/-! ## The session of a floor -/

/-- The events of a client among those that are behind the first `n`. -/
def waiting (log : List (Client × OrderEvent)) (n : ℕ) (c : Client) : List OrderEvent :=
  ((log.drop n).filter fun entry => entry.1 = c).map Prod.snd

/-- The requests of some frames. Their stamps are of no account. -/
def requestsOf (frames : List ClientFrame) : List OrderEvent :=
  frames.flatMap fun frame => (request 0 frame).toList

variable {may : (Client → List Action) → Client → ClientFrame → Prop}
  {f : Floor Client inboundSize outboundSize snapshotSize} {log : List (Client × OrderEvent)}
  {s : Session Client}
  {executions : List OutboundSlot} {depths : List BookSnapshotEvent} {c : Client}

/-- The session that a floor comes to, given whose events there were. Its handler has processed what
the engine thread has taken, and the other events of a client and its frames are on their way. -/
structure Follows (may : (Client → List Action) → Client → ClientFrame → Prop)
    (f : Floor Client inboundSize outboundSize snapshotSize) (log : List (Client × OrderEvent))
    (s : Session Client) (executions : List OutboundSlot) (depths : List BookSnapshotEvent) :
    Prop where
  /-- The session is reached by steps in which clients send what they may. -/
  reachable : s.ReachableBy may
  /-- The venue mirrors the run of the events of the log. -/
  mirrors : f.venue.Mirrors (log.map Prod.snd) executions depths
  /-- Every report found a channel. -/
  heard : f.venue.Heard
  /-- The handler of the session has processed what the engine thread has taken. -/
  events : s.events = (log.map Prod.snd).take f.venue.taken
  /-- The terminals have done the same. -/
  actions : s.actions = f.actions
  /-- On their way are the events of a client that wait for the engine, and then its frames. -/
  inFlight : ∀ c, s.inFlight c = waiting log f.venue.taken c ++ requestsOf (f.outgoing c)
  /-- What a client has queued can be sent. -/
  sendable : ∀ c, ∀ frame ∈ f.outgoing c, Sendable frame
  /-- The numbers of the events are legible. -/
  legible : ∀ event ∈ log.map Prod.snd, event.Legible
  /-- What a client has sent is on the log or queued. -/
  sent : ∀ c, sentIds (f.actions c) ⊆ newIds (log.map Prod.snd ++ requestsOf (f.outgoing c))

/-- A further event waits for its own client. -/
theorem waiting_append {n : ℕ} (h : n ≤ log.length) (c d : Client) (event : OrderEvent) :
    waiting (log ++ [(c, event)]) n d = waiting log n d ++ if c = d then [event] else [] := by
  rw [waiting, List.drop_append_of_le_length h, List.filter_append, List.map_append, ← waiting]
  congr 1
  by_cases hc : c = d <;> simp [hc]

/-- A fresh venue follows the empty session. -/
theorem follows_start {start : Venue inboundSize outboundSize snapshotSize} (h : start.Fresh) :
    Follows may ({ venue := start } : Floor Client inboundSize outboundSize snapshotSize) []
      {} [] [] where
  reachable := .refl
  mirrors := h.mirrors
  heard _ hheard := by
    rw [h.audience] at hheard
    cases hheard
  events := (List.take_nil).symm
  actions := rfl
  inFlight _ := by
    rw [waiting, List.drop_nil]
    rfl
  sendable _ _ hframe := absurd hframe List.not_mem_nil
  legible _ hevent := absurd hevent List.not_mem_nil
  sent _ _ hX := absurd hX List.not_mem_nil

/-- The requests of two stretches of frames are those of both. -/
theorem requestsOf_append (frames frames' : List ClientFrame) :
    requestsOf (frames ++ frames') = requestsOf frames ++ requestsOf frames' := List.flatMap_append

/-- A stamp does not change the ids of new orders. -/
theorem newIds_stamped (event : OrderEvent) (now : ℤ) :
    newIds [event.stamped now] = newIds [event] := by
  have htype : (event.stamped now).eventType = event.eventType := rfl
  unfold newIds
  by_cases h : event.eventType = .newOrder
  · rw [List.filter_cons_of_pos (by simpa [htype] using h),
      List.filter_cons_of_pos (by simpa using h)]
    rfl
  · rw [List.filter_cons_of_neg (by simpa [htype] using h),
      List.filter_cons_of_neg (by simpa using h)]

/-- A new order that can be sent has its id in its request. -/
theorem sentId_sendable {frame : ClientFrame} (h : Sendable frame) (sentAtNanos : Option ℤ) :
    (Action.sent frame sentAtNanos).sentId.toList ⊆ newIds (requestsOf [frame]) := by
  obtain ⟨r, clOrdId, hready, hid, rfl⟩ := h
  have hrequest := hready.request_eq hid { OrderGateway.idle.scratch with timestamp := 0 }
  rw [requestsOf, List.flatMap_singleton, hrequest]
  cases r with
  | order intent => exact List.Subset.refl _
  | cancel origClOrdId => exact List.nil_subset _

/-- A frame that a client of the floor sends is sent in the session. -/
theorem Follows.send (h : Follows may f log s executions depths) {frame : ClientFrame}
    (sentAtNanos : Option ℤ) (hframe : Sendable frame) (hmay : may f.actions c frame) :
    Follows may (f.send c frame sentAtNanos) log (s.send c frame sentAtNanos 0) executions
      depths := by
  refine ⟨h.reachable.tail (.send (h.actions ▸ hmay)), h.mirrors, h.heard, h.events, ?_,
    fun d => ?_, fun d => ?_, h.legible, fun d => ?_⟩
  · show Function.update s.actions c (s.actions c ++ _) =
      Function.update f.actions c (f.actions c ++ _)
    rw [h.actions]
  · show _ = waiting log f.venue.taken d ++
      requestsOf (Function.update f.outgoing c (f.outgoing c ++ [frame]) d)
    by_cases hd : d = c
    · subst hd
      rw [Session.inFlight_send_self, Function.update_self, h.inFlight, requestsOf, requestsOf,
        List.flatMap_append, List.append_assoc, List.flatMap_singleton]
    · rw [Session.inFlight_send_of_ne hd, Function.update_of_ne hd, h.inFlight]
  · show ∀ x ∈ Function.update f.outgoing c (f.outgoing c ++ [frame]) d, Sendable x
    by_cases hd : d = c
    · subst hd
      rw [Function.update_self]
      exact List.forall_mem_append.mpr ⟨h.sendable d, List.forall_mem_singleton.mpr hframe⟩
    · rw [Function.update_of_ne hd]
      exact h.sendable d
  · show sentIds (Function.update f.actions c (f.actions c ++ [_]) d) ⊆
      newIds (_ ++ requestsOf (Function.update f.outgoing c (f.outgoing c ++ [frame]) d))
    by_cases hd : d = c
    · subst hd
      rw [Function.update_self, Function.update_self, sentIds_append, requestsOf_append,
        ← List.append_assoc, newIds_append _ (requestsOf [frame])]
      exact List.append_subset.mpr ⟨List.Subset.trans (h.sent d) (List.subset_append_left ..),
        List.Subset.trans (sentId_sendable hframe _) (List.subset_append_right ..)⟩
    · rw [Function.update_of_ne hd, Function.update_of_ne hd]
      exact h.sent d

/-- A frame that the worker thread hands on stays where it is among the requests of its client, and
has the stamp of the gateway from then on. -/
theorem Follows.serve (h : Follows may f log s executions depths) {frame : ClientFrame}
    {rest : List ClientFrame} (hnext : f.outgoing c = frame :: rest) {nanos : ℤ}
    {venue : Venue inboundSize outboundSize snapshotSize}
    (hserved : Venue.OnFrame (some (bytesOf frame)) nanos f.venue venue) :
    ∃ event inFlight, request (f.venue.clock.getAsLong nanos) frame = some event ∧
      Follows may { f with venue, outgoing := Function.update f.outgoing c rest }
      (log ++ [(c, event)])
        { s with inFlight } executions depths := by
  have hsendable : Sendable frame := h.sendable c frame (by rw [hnext]; exact List.mem_cons_self)
  obtain ⟨event, hlegible, hrequest⟩ := hsendable.exists_request
  have htaken : venue.taken = f.venue.taken := hserved.taken
  have hle : f.venue.taken ≤ log.length := by
    have hle := h.mirrors.taken_le
    rwa [List.length_map] at hle
  have hqueue : s.inFlight c = waiting log f.venue.taken c ++
      event.stamped 0 :: requestsOf rest := by
    rw [h.inFlight, hnext, requestsOf, List.flatMap_cons, hrequest]
    rfl
  refine ⟨event.stamped (f.venue.clock.getAsLong nanos),
    Function.update s.inFlight c (waiting log f.venue.taken c ++
    event.stamped (f.venue.clock.getAsLong nanos) :: requestsOf rest), hrequest _, ?_, ?_, ?_, ?_,
    h.actions, fun d => ?_, fun d => ?_, ?_, fun d => ?_⟩
  · refine h.reachable.restamp fun d => ?_
    by_cases hd : d = c
    · subst hd
      rw [hqueue, Function.update_self]
      refine List.rel_append (List.forall₂_same.mpr fun e _ => .refl e) (.cons ⟨_, rfl⟩ ?_)
      exact List.forall₂_same.mpr fun e _ => .refl e
    · rw [Function.update_of_ne hd]
      exact List.forall₂_same.mpr fun e _ => .refl e
  · have hmirrors := h.mirrors.onFrame event hserved
    rw [hsendable.publishedOf, hrequest, Option.toList_some] at hmirrors
    rw [List.map_append, List.map_singleton]
    exact hmirrors
  · show ∀ heard ∈ venue.audience, heard = true
    rw [hserved.broadcast.2]
    exact h.heard
  · show s.events = _
    rw [htaken, h.events, List.map_append, List.take_append_of_le_length (by rwa [List.length_map])]
  · show Function.update s.inFlight c _ d = waiting _ venue.taken d ++
      requestsOf (Function.update f.outgoing c rest d)
    rw [htaken, waiting_append hle]
    by_cases hd : d = c
    · subst hd
      rw [Function.update_self, Function.update_self, if_pos rfl, List.append_assoc]
      rfl
    · rw [Function.update_of_ne hd, Function.update_of_ne hd, if_neg (Ne.symm hd),
        List.append_nil, h.inFlight]
  · show ∀ x ∈ Function.update f.outgoing c rest d, Sendable x
    by_cases hd : d = c
    · subst hd
      rw [Function.update_self]
      exact fun x hx => h.sendable d x (by rw [hnext]; exact List.mem_cons_of_mem _ hx)
    · rw [Function.update_of_ne hd]
      exact h.sendable d
  · rw [List.map_append]
    exact List.forall_mem_append.mpr ⟨h.legible, List.forall_mem_singleton.mpr
      ⟨hlegible.orderId, hlegible.originalOrderId, hlegible.price⟩⟩
  · show sentIds (f.actions d) ⊆ newIds (_ ++ requestsOf (Function.update f.outgoing c rest d))
    have hsent := h.sent d
    rw [List.map_append, List.map_singleton, List.append_assoc, newIds_append, newIds_append [_],
      newIds_stamped]
    rw [newIds_append] at hsent
    by_cases hd : d = c
    · subst hd
      rw [hnext, requestsOf, List.flatMap_cons, hrequest, Option.toList_some, newIds_append [_],
        newIds_stamped] at hsent
      rw [Function.update_self]
      exact hsent
    · rw [Function.update_of_ne hd]
      exact fun X hX =>
        List.mem_append.mpr ((List.mem_append.mp (hsent hX)).imp_right (List.mem_append_right _))

/-- The engine thread takes the oldest request of a client, as the handler of the session does; what
else the threads of the venue do is nothing to the session. -/
theorem Follows.venueStep (h : Follows may f log s executions depths)
    {venue : Venue inboundSize outboundSize snapshotSize} (hstep : Venue.HeardStep f.venue venue) :
    ∃ s' executions' depths', Follows may { f with venue } log s' executions' depths' := by
  obtain ⟨reports, snapshots, -, hmirrors⟩ := h.mirrors.step hstep.1
  rcases hstep.1.taken with htaken | htaken
  · exact ⟨s, _, _, h.reachable, hmirrors, hstep.2, by rw [htaken]; exact h.events, h.actions,
      fun d => by rw [htaken]; exact h.inFlight d, h.sendable, h.legible, h.sent⟩
  · have hlt : f.venue.taken < log.length := by
      have hle := hmirrors.taken_le
      rw [List.length_map] at hle
      omega
    obtain ⟨⟨c, event⟩, hentry⟩ : ∃ entry, log[f.venue.taken]? = some entry :=
      ⟨_, List.getElem?_eq_getElem hlt⟩
    have hdrop : log.drop f.venue.taken = (c, event) :: log.drop (f.venue.taken + 1) := by
      rw [List.drop_eq_getElem_cons hlt]
      rw [List.getElem?_eq_getElem hlt, Option.some.injEq] at hentry
      rw [hentry]
    have hoffers : s.inFlight c = event ::
        (waiting log (f.venue.taken + 1) c ++ requestsOf (f.outgoing c)) := by
      rw [h.inFlight, waiting, hdrop, List.filter_cons_of_pos (by simp)]
      rfl
    refine ⟨_, _, _, h.reachable.tail (.process hoffers), hmirrors, hstep.2, ?_, h.actions,
      fun d => ?_, h.sendable, h.legible, h.sent⟩
    · show s.events ++ [event] = _
      rw [htaken, List.take_add_one, List.getElem?_map, hentry, h.events]
      rfl
    · show _ = waiting log venue.taken d ++ requestsOf (f.outgoing d)
      rw [htaken]
      by_cases hd : d = c
      · subst hd
        rw [Session.inFlight_process_self]
      · have hother : ¬ c = d := fun heq => hd heq.symm
        rw [Session.inFlight_process_of_ne hd, h.inFlight, waiting, hdrop,
          List.filter_cons_of_neg (by simpa using hother)]
        rfl

/-- What a terminal does but send. -/
theorem Follows.act (h : Follows may f log s executions depths) {action : Action}
    (hstep : Session.StepBy may s (s.act c action)) (hsent : action.sentId = none) :
    Follows may (f.act c action) log (s.act c action) executions depths := by
  refine { h with reachable := h.reachable.tail hstep, actions := ?_, sent := fun d => ?_ }
  · show Function.update s.actions c (s.actions c ++ [action]) =
      Function.update f.actions c (f.actions c ++ [action])
    rw [h.actions]
  · show sentIds (Function.update f.actions c (f.actions c ++ [action]) d) ⊆ _
    by_cases hd : d = c
    · subst hd
      rw [Function.update_self, sentIds_append, hsent, Option.toList_none, List.append_nil]
      exact h.sent d
    · rw [Function.update_of_ne hd]
      exact h.sent d

/-- A frame that was broadcast is that of a report of the session, and a terminal reads this
report. -/
theorem Follows.read (h : Follows may f log s executions depths) {codec : Codec}
    (hcodec : codec.Documented f.venue.execFrames)
    (hlegible : ∀ r ∈ (after (log.map Prod.snd)).outbound, ∀ n ∈ r.numbers, Safe n) {i : ℕ}
    {json : Json} (hnext : f.venue.execFrames[i]? = some json) :
    ∃ exec : ExecFrame, parseServerFrame codec.parse (codec.write json) = some (.exec exec) ∧
      (after s.events).outbound[i]? = some exec.toExecutionEvent := by
  have hwritten := hcodec.parse_write json (List.mem_of_getElem? hnext)
  rw [h.mirrors.execFrames_of_heard h.heard, List.getElem?_map, Option.map_eq_some_iff] at hnext
  obtain ⟨slot, hslot, rfl⟩ := hnext
  have hpublished : (after s.events).outbound[i]? = some slot.toExecutionEvent := by
    obtain ⟨rest, hrest⟩ := List.take_prefix (f.venue.outbound.cursors .publisher).handled
      executions
    obtain ⟨hlt, -⟩ := List.getElem?_eq_some_iff.mp hslot
    rw [h.events, ← h.mirrors.reports, ← hrest, List.map_append, List.append_assoc,
      List.getElem?_append_left (by rwa [List.length_map]), List.getElem?_map, hslot,
      Option.map_some]
  have hmem : slot.toExecutionEvent ∈ (after (log.map Prod.snd)).outbound := by
    have hprefix := MatchingEngineHandler.outbound_mono
      (List.take_prefix f.venue.taken (log.map Prod.snd))
    rw [← h.events] at hprefix
    exact hprefix.subset (List.mem_of_getElem? hpublished)
  exact ⟨_, parseServerFrame_exec hwritten fun n hn => hcodec.round_safe n (hlegible _ hmem n hn),
    hpublished⟩

/-- An EXEC frame that a client of the floor reads is received in the session. -/
theorem Follows.receive (h : Follows may f log s executions depths) {codec : Codec}
    (hcodec : codec.Documented f.venue.execFrames)
    (hlegible : ∀ r ∈ (after (log.map Prod.snd)).outbound, ∀ n ∈ r.numbers, Safe n) {json : Json}
    {exec : ExecFrame} (hnext : f.venue.execFrames[(execs (f.actions c)).length]? = some json)
    (hparse : parseServerFrame codec.parse (codec.write json) = some (.exec exec)) :
    Follows may (f.act c (.frame (.exec exec))) log (s.act c (.frame (.exec exec))) executions
      depths := by
  obtain ⟨exec', hread, hpublished⟩ := h.read hcodec hlegible hnext
  obtain rfl := ServerFrame.exec.inj (Option.some.inj (hparse.symm.trans hread))
  exact h.act (.receive (by rw [h.actions]; exact hpublished)) rfl

/-- Every run of a floor follows a session. By induction on the run, as each step does. -/
theorem Runs.follows {codec : Codec} {start : Venue inboundSize outboundSize snapshotSize}
    (hstart : start.Fresh) {inputs : List (Client × Option (List Byte) × ℤ)}
    (h : Runs codec may start inputs f) (hcodec : codec.Documented f.venue.execFrames)
    (fresh : OrderEvent)
    (hfew : (after (Venue.eventsOf fresh (inputs.map Prod.snd))).engine.trades.length < 2^53 - 1) :
    ∃ log s executions depths, Follows may f log s executions depths ∧
      log.map Prod.snd = Venue.eventsOf fresh (inputs.map Prod.snd) := by
  induction h with
  | start => exact ⟨[], {}, [], [], follows_start hstart, rfl⟩
  | @send inputs f c frame sentAtNanos _ hframe hmay ih =>
    obtain ⟨log, s, executions, depths, hf, hlog⟩ := ih hcodec hfew
    exact ⟨_, _, _, _, hf.send sentAtNanos hframe hmay, hlog⟩
  | @serve inputs f c frame rest fix nanos venue _ hnext hfix hserved ih =>
    rw [List.map_append, List.map_singleton, Venue.eventsOf_append, Venue.eventsOf_singleton]
      at hfew ⊢
    obtain ⟨log, s, executions, depths, hf, hlog⟩ := ih (hserved.broadcast.1 ▸ hcodec)
      (lt_of_le_of_lt (MatchingEngineHandler.trades_length_mono (List.prefix_append ..)) hfew)
    obtain rfl : bytesOf frame = fix :=
      Except.ok.inj
        ((WebSocketFrameHandler.translate_clientNode hcodec.jackson frame).symm.trans hfix)
    have hsendable : Sendable frame := hf.sendable c frame (by rw [hnext]; exact List.mem_cons_self)
    obtain ⟨event, inFlight, hrequest, hserve⟩ := hf.serve hnext hserved
    refine ⟨_, _, _, _, hserve, ?_⟩
    rw [List.map_append, hlog, hsendable.publishedOf, hrequest]
    rfl
  | @venue inputs f venue _ hstep ih =>
    obtain ⟨log, s, executions, depths, hf, hlog⟩ := ih (hcodec.mono hstep.1.execFrames.subset) hfew
    obtain ⟨s', executions', depths', hf'⟩ := hf.venueStep hstep
    exact ⟨log, s', executions', depths', hf', hlog⟩
  | @receive inputs f c json exec _ hnext hparse ih =>
    obtain ⟨log, s, executions, depths, hf, hlog⟩ := ih hcodec hfew
    rw [← hlog] at hfew
    have hreceived := hf.receive hcodec
      (fun r hr => MatchingEngineHandler.legible_after hf.legible hfew hr) hnext hparse
    exact ⟨_, _, _, _, hreceived, hlog⟩
  | @other inputs f c action _ hexec hsent ih =>
    obtain ⟨log, s, executions, depths, hf, hlog⟩ := ih hcodec hfew
    refine ⟨_, _, _, _, hf.act (.other hexec hsent) ?_, hlog⟩
    cases action with
    | sent frame sentAtNanos => exact absurd rfl (hsent frame sentAtNanos)
    | _ => rfl

/-- Whatever its threads, its sockets and its clients have done so far, and in whatever order, a
floor has come to what a session comes to: the engine has run the events that the session has
processed, which are the first of those that the messages come to, and every terminal has done and
received what it has in the session. What a browser reads in the text of a frame that was broadcast
is the report of the session that it was written of. -/
theorem Runs.refines_sessions {codec : Codec} {start : Venue inboundSize outboundSize snapshotSize}
    (hstart : start.Fresh) {inputs : List (Client × Option (List Byte) × ℤ)}
    (h : Runs codec Session.SendsFresh start inputs f)
    (hcodec : codec.Documented f.venue.execFrames) (fresh : OrderEvent)
    (hfew : (after (Venue.eventsOf fresh (inputs.map Prod.snd))).engine.trades.length < 2^53 - 1) :
    ∃ s : Session Client, s.Reachable ∧ s.actions = f.actions ∧
      s.events = (Venue.eventsOf fresh (inputs.map Prod.snd)).take f.venue.taken ∧
      f.venue.engine = (after s.events).engine ∧
      ∀ (i : ℕ) (json : Json), f.venue.execFrames[i]? = some json →
        ∃ exec : ExecFrame, parseServerFrame codec.parse (codec.write json) = some (.exec exec) ∧
          (after s.events).outbound[i]? = some exec.toExecutionEvent := by
  obtain ⟨log, s, executions, depths, hf, hlog⟩ := h.follows hstart hcodec fresh hfew
  rw [← hlog] at hfew
  refine ⟨s, hf.reachable.reachable, hf.actions, hlog ▸ hf.events, ?_, fun i json hnext => ?_⟩
  · rw [hf.events]
    exact hf.mirrors.engine
  · exact hf.read hcodec
      (fun r hr => MatchingEngineHandler.legible_after hf.legible hfew hr) hnext

/-! ## A run -/

/-- The threads of the venue may do several steps. -/
theorem Runs.steps {codec : Codec} {start : Venue inboundSize outboundSize snapshotSize}
    {inputs : List (Client × Option (List Byte) × ℤ)} (h : Runs codec may start inputs f)
    {venue : Venue inboundSize outboundSize snapshotSize}
    (hsteps : Relation.ReflTransGen Venue.HeardStep f.venue venue) :
    Runs codec may start inputs { f with venue } := by
  refine steps_inv hsteps (fun v => Runs codec may start inputs { f with venue := v }) h
    fun v w hrun hstep => ?_
  have hnext := Runs.venue hrun hstep
  exact hnext

/-- Nothing is left to do but for the clients. -/
structure AtRest (f : Floor Client inboundSize outboundSize snapshotSize) : Prop where
  /-- Every frame was served. -/
  served : ∀ c, f.outgoing c = []
  /-- No thread of the venue has a step. -/
  stuck : ∀ venue, ¬ Venue.Step f.venue venue
  /-- Every terminal has received what was broadcast. -/
  received : ∀ c, (execs (f.actions c)).length = f.venue.execFrames.length

/-- A buy of ten at a dollar. -/
def bid : Request := .order ⟨.buy, .limit, .gtc, 10000, 10, 0⟩

/-- The ticket of `bid` is one that the parser takes. -/
theorem ready_bid : bid.Ready where
  qty := ⟨by decide, by decide⟩
  price _ := ⟨⟨by decide, by decide⟩, by decide⟩
  peg htype := by cases htype
  display_nonneg := by decide
  display_lt := by decide
  display_gtc _ := rfl

/-- The report of its rest, at some time. -/
def bidSlot (timestamp : ℤ) : OutboundSlot :=
  ⟨MatchingEngineHandler.onAccepted 7 10000 10, timestamp⟩

/-- The frame of that report has a text. -/
theorem exists_text_bid (timestamp : ℤ) :
    ∃ text, (WebSocketPublisher.execFrame (bidSlot timestamp)).text? = some text := by
  simp [WebSocketPublisher.execFrame, WebSocketPublisher.serializeExecution, Json.text?,
    Json.fieldTexts?, Json.int]

example : (WebSocketPublisher.execFrame (bidSlot 1)).text? = some
    ("\x7b\x22type\x22:\x22EXEC\x22,\x22execType\x22:\x22ORDER_ACCEPTED\x22,\x22orderId\x22:7," ++
      "\x22tradeId\x22:-1,\x22price\x22:10000,\x22filledQuantity\x22:-1," ++
      "\x22remainingQuantity\x22:10,\x22aggressorOrderId\x22:-1,\x22passiveOrderId\x22:-1," ++
      "\x22timestamp\x22:1\x7d") := by decide +kernel

/-- A wire for it. -/
def bidWire (timestamp : ℤ) : Codec := wireOf (WebSocketPublisher.execFrame (bidSlot timestamp))

/-- It is documented to carry the report. -/
theorem documented_bidWire (timestamp : ℤ) :
    (bidWire timestamp).Documented [WebSocketPublisher.execFrame (bidSlot timestamp)] := by
  obtain ⟨text, htext⟩ := exists_text_bid timestamp
  exact documented_wireOf htext

/-- What was received in the run. -/
def bidInputs : List (Bool × Option (List Byte) × ℤ) := [(true, some (bytesOf (bid.frame 7)), 1)]

/-- The event that it comes to. -/
def bidEvent : OrderEvent := ⟨.newOrder, 7, some .buy, some .limit, some .gtc, 10000, 10, 0, 1, -1⟩

/-- The frame of `bid` can be sent. -/
theorem sendable_bid : Sendable (bid.frame 7) := ⟨bid, 7, ready_bid, ⟨by decide, by decide⟩, rfl⟩

/-- The gateway publishes `bidEvent` for the frame of `bid`. -/
theorem publishedOf_bid :
    Inbound.publishedOf OrderGateway.idle.scratch (some (bytesOf (bid.frame 7)), 1) =
    some bidEvent := by
  rw [sendable_bid.publishedOf]
  decide

/-- The one event of `bidInputs` is `bidEvent`. -/
theorem eventsOf_bidInputs :
    Venue.eventsOf OrderGateway.idle.scratch (bidInputs.map Prod.snd) = [bidEvent] := by
  rw [bidInputs, List.map_singleton, Venue.eventsOf_singleton, publishedOf_bid]
  rfl

/-- `bidInputs` has no trade. -/
theorem few_bidInputs :
    (after (Venue.eventsOf OrderGateway.idle.scratch (bidInputs.map Prod.snd))).engine.trades.length
      < 2^53 - 1 := by
  rw [eventsOf_bidInputs]
  decide

/-- The clock of the idle venue reads one nanosecond after its anchor. -/
theorem getAsLong_idle : Venue.idle.clock.getAsLong 1 = 1 := by decide

/-- The gateway can take the frame of `bid`. -/
theorem exists_onFrame_bid : ∃ v, Venue.OnFrame (some (bytesOf (bid.frame 7))) 1 Venue.idle v := by
  obtain ⟨gateway, hgateway⟩ := OrderGateway.exists_onFrame Venue.idle.gateway
    OrderGateway.idle.scratch
    (some (bytesOf (bid.frame 7))) (Venue.idle.clock.getAsLong 1)
  rw [getAsLong_idle, publishedOf_bid, ← getAsLong_idle] at hgateway
  exact ⟨_, .stamped rfl hgateway (by decide)⟩

/-- A client sends the buy, the venue comes to rest, and the two clients receive the report. -/
theorem exists_bidRun {may : (Bool → List Action) → Bool → ClientFrame → Prop}
    (hmay : may (fun _ => []) true (bid.frame 7)) :
    ∃ (timestamp : ℤ) (f : Floor Bool 1 1 1), Runs (bidWire timestamp) may Venue.idle bidInputs f ∧
      (bidWire timestamp).Documented f.venue.execFrames ∧ f.AtRest := by
  -- The gateway takes the message, and the venue comes to rest.
  obtain ⟨v, hserved⟩ := exists_onFrame_bid
  have hfirstHeard : v.Heard := by
    rw [Venue.Heard, hserved.broadcast.2]
    exact fun heard hheard => absurd hheard List.not_mem_nil
  obtain ⟨t, hsteps, hheard, hstuck⟩ := Venue.exists_heard_stuck hfirstHeard
  have hrun : Venue.Runs Venue.idle (bidInputs.map Prod.snd) t := by
    have hreceived := Venue.Runs.frame .start hserved
    rw [getAsLong_idle] at hreceived
    exact steps_inv hsteps (Venue.Runs Venue.idle _) hreceived
      fun _ _ hu hstep => .step hu hstep.1
  -- There is one report then.
  obtain ⟨executions, depths, hm⟩ := hrun.mirrors Venue.fresh_idle OrderGateway.idle.scratch
  obtain ⟨-, ⟨-, slots, -, hpublished, haudience, hbroadcast, -⟩, -⟩ :=
    hm.delivers_of_stuck hstuck
  rw [WebSocketPublisher.heardFrames_of_heard haudience.symm hheard] at hbroadcast
  have haccepted : (after [bidEvent]).outbound = [MatchingEngineHandler.onAccepted 7 10000 10] := by
    decide
  rw [eventsOf_bidInputs, haccepted, List.map_eq_singleton_iff] at hpublished
  obtain ⟨slot, rfl, hslot⟩ := hpublished
  obtain ⟨timestamp, rfl⟩ : ∃ timestamp, slot = bidSlot timestamp := by
    cases slot
    exact ⟨_, congrArg (OutboundSlot.mk · _) hslot⟩
  rw [List.map_singleton] at hbroadcast
  have hdocumented := documented_bidWire timestamp
  have hsafe : ∀ n ∈ (MatchingEngineHandler.onAccepted 7 10000 10).numbers, Safe n := by decide
  have hread : parseServerFrame (bidWire timestamp).parse
      ((bidWire timestamp).write (WebSocketPublisher.execFrame (bidSlot timestamp))) =
        some (.exec ⟨(bidSlot timestamp).toExecutionEvent, Double.ofInt timestamp⟩) :=
    parseServerFrame_exec (hdocumented.parse_write _ List.mem_cons_self)
      fun n hn => hdocumented.round_safe n (hsafe n hn)
  have hsent : Runs (bidWire timestamp) may Venue.idle []
      (({ venue := Venue.idle } : Floor Bool 1 1 1).send true (bid.frame 7) none) :=
        .send .start sendable_bid hmay
  have hserve := hsent.serve (Function.update_self ..)
    (WebSocketFrameHandler.translate_clientNode hdocumented.jackson _) hserved
  have hstamp : (({ venue := Venue.idle } : Floor Bool 1 1 1).send true (bid.frame 7)
      none).venue.clock.getAsLong 1 = 1 :=
    getAsLong_idle
  rw [hstamp] at hserve
  have hrest := hserve.steps hsteps
  have hnext : t.execFrames[0]? = some (WebSocketPublisher.execFrame (bidSlot timestamp)) := by
    rw [hbroadcast]
    rfl
  have hfirst := hrest.receive (c := true) hnext hread
  have hsecond := hfirst.receive (c := false) hnext hread
  refine ⟨timestamp, _, hsecond, hbroadcast ▸ hdocumented, fun c => ?_, hstuck, fun c => ?_⟩
  · cases c <;> rfl
  · show _ = t.execFrames.length
    rw [hbroadcast]
    cases c <;> rfl

/-- A client that sends `bid` has a session. -/
theorem refines_sessions_bid : ∃ (timestamp : ℤ) (f : Floor Bool 1 1 1) (s : Session Bool),
    Runs (bidWire timestamp) Session.SendsFresh Venue.idle bidInputs f ∧ s.Reachable ∧
      s.actions = f.actions ∧
      s.events = (Venue.eventsOf OrderGateway.idle.scratch (bidInputs.map Prod.snd)).take
      f.venue.taken ∧
      f.venue.engine = (after s.events).engine ∧
      ∀ (i : ℕ) (json : Json), f.venue.execFrames[i]? = some json →
        ∃ exec : ExecFrame, parseServerFrame (bidWire timestamp).parse
          ((bidWire timestamp).write json) = some (.exec exec) ∧
          (after s.events).outbound[i]? = some exec.toExecutionEvent := by
  obtain ⟨timestamp, f, hrun, hcodec, -⟩ :=
    @exists_bidRun Session.SendsFresh (by intro X _ d hX; cases hX)
  obtain ⟨s, hs⟩ := hrun.refines_sessions Venue.fresh_idle hcodec OrderGateway.idle.scratch
    few_bidInputs
  exact ⟨timestamp, f, s, hrun, hs⟩

end Floor

end MatchingVenue
