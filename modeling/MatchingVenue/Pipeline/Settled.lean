import MatchingVenue.Pipeline.Floor
import MatchingVenue.Terminal.Header

/-!
# A floor at rest

What the clients have set going comes to an end: the sockets, the threads and the browsers do only
so much by themselves, and have no step left only when every frame was served, the venue is at rest
and every terminal has received what was broadcast (`Runs.comes_to_rest`). Then all blotters
together say of the orders what the engine does, and each order that rests is in one of them
(`Runs.blotters_agree`), where the clients cancel from their blotters.
-/

namespace MatchingVenue

universe u

open MatchingEngine (tradedQuantity)
open MatchingEngineHandler (after newIds reachable_after)
open Terminal

namespace MatchingEngineHandler

/-- An order that rests was processed. -/
theorem mem_newIds_of_resting {events : List OrderEvent} {r : RestingOrder}
    (hr : r ∈ (after events).engine.resting) : r.orderID ∈ newIds events := by
  rw [engine_after] at hr
  obtain ⟨o, ho, hid, -⟩ := MatchingEngine.stemmed_after _ r hr
  obtain ⟨event, hevent, htype, horder⟩ := exists_event_of_added ho
  exact mem_newIds.mpr ⟨event, hevent, htype, (order_orderID horder).symm.trans hid.symm⟩

end MatchingEngineHandler

namespace Terminal

/-- An action that sends an id sends a new order of that id. -/
theorem sentId_eq_some {action : Action} {X : ℤ} (h : action.sentId = some X) :
    ∃ frame sentAtNanos, action = .sent (.new frame) sentAtNanos ∧ frame.clOrdId = X := by
  cases action with
  | sent frame sentAtNanos =>
    cases frame with
    | new frame => exact ⟨frame, sentAtNanos, rfl, Option.some.inj h⟩
    | cancel clOrdId origClOrdId => cases h
  | _ => cases h

/-- The row of an order that was sent is there. -/
theorem mem_rowIds_of_sent {actions : List Action} {X : ℤ} (hX : X ∈ sentIds actions) :
    X ∈ rowIds actions := by
  obtain ⟨action, haction, hid⟩ := List.mem_filterMap.mp hX
  obtain ⟨frame, sentAtNanos, rfl, rfl⟩ := sentId_eq_some hid
  obtain ⟨pre, post, rfl⟩ := List.append_of_mem haction
  have hrow := (rowIds_suffix (pre ++ [.sent (.new frame) sentAtNanos]) post).subset
    (mem_rowIds_sent pre frame sentAtNanos)
  rwa [List.append_assoc, List.singleton_append] at hrow

/-- And there are no others. -/
theorem mem_sentIds_of_row {actions : List Action} {X : ℤ} (hX : X ∈ rowIds actions) :
    X ∈ sentIds actions := by
  obtain ⟨row, hrow, rfl⟩ := List.mem_map.mp hX
  obtain ⟨start, frame, sentAtNanos, hstart, hid, -⟩ := row_of_mem hrow
  rw [hid]
  exact mem_sentIds hstart

/-- What a row says of its order is what there is of it in an engine: its fills, what of it waits,
and whether there is something to cancel. -/
structure Tells (row : MyOrder) (engine : MatchingEngine) : Prop where
  /-- The row was answered. -/
  answered : row.status ≠ .pending
  /-- Its executed quantity is what the trades of its order come to. -/
  filled : row.originalQty - row.remainingQty = tradedQuantity row.clOrdId engine.trades
  /-- What it shows as working is what rests under its id. -/
  waits : workingQty row = restingQty row.clOrdId engine
  /-- It can be cancelled exactly if its order rests. -/
  cancellable : isCancellable row.status = true ↔ ∃ r ∈ engine.resting, r.orderID = row.clOrdId

/-- The row of an order that was processed, on a terminal that has received all reports. -/
theorem Fed.tells {events : List OrderEvent} {actions : List Action} (h : Fed events actions)
    {row : MyOrder} (hrow : row ∈ (reduce actions).myOrders)
    (hknown : row.clOrdId ∈ newIds events) :
    Tells row (after events).engine := by
  obtain ⟨a, ha, hmirrors⟩ := h.mirrors hrow
  have hnot : ∀ t, a = .admitted t → t.stage ≠ .working := fun t ht => (ht ▸ ha.tracks).not_working
  refine ⟨fun hpending => ?_, ?_, ?_, ?_⟩
  · cases a with
    | unknown => exact ha.unknown.mp rfl hknown
    | refused =>
      rw [hmirrors.1] at hpending
      cases hpending
    | admitted t =>
      have hstage := hnot t rfl
      rw [hmirrors.1, statusOf] at hpending
      cases hcase : t.stage <;> by_cases hzero : t.executed = 0 <;> simp_all
  · rw [hmirrors.executed, ha.tracks.executed]
  · rw [h.working_row hrow, if_pos hknown, Int.add_zero]
  · rw [hmirrors.cancellable hnot]
    simp only [ha.tracks.at_resting (reachable_after events).queued]
    constructor
    · rintro ⟨_, r, hr, hid, -⟩
      exact ⟨r, hr, hid⟩
    · rintro ⟨r, hr, hid⟩
      exact ⟨_, r, hr, hid, rfl⟩

end Terminal

namespace Floor

variable {Client : Type u} [DecidableEq Client] {inboundSize outboundSize snapshotSize : ℕ}

/-! ## What goes on without the clients -/

/-- What happens by itself: the worker thread serves the oldest frame of a client, a thread of the
venue does a step, or a client reads the next EXEC frame. -/
inductive Proceeds (codec : Codec) (f : Floor Client inboundSize outboundSize snapshotSize) :
    Floor Client inboundSize outboundSize snapshotSize → Prop where
  | serve {c : Client} {frame : ClientFrame} {rest : List ClientFrame} {fix : List Byte} {nanos : ℤ}
    {venue : Venue inboundSize outboundSize snapshotSize} :
    f.outgoing c = frame :: rest →
    WebSocketFrameHandler.translate codec.jackson (WebSocketFrameHandler.clientNode frame) =
      .ok fix →
    Venue.OnFrame (some fix) nanos f.venue venue →
    Proceeds codec f { f with venue, outgoing := Function.update f.outgoing c rest }
  | venue {venue : Venue inboundSize outboundSize snapshotSize} :
    Venue.HeardStep f.venue venue → Proceeds codec f { f with venue }
  | receive {c : Client} {json : Json} {exec : ExecFrame} :
    f.venue.execFrames[(execs (f.actions c)).length]? = some json →
    parseServerFrame codec.parse (codec.write json) = some (.exec exec) →
    Proceeds codec f (f.act c (.frame (.exec exec)))

variable {codec : Codec} {may : (Client → List Action) → Client → ClientFrame → Prop}
  {start : Venue inboundSize outboundSize snapshotSize}
  {inputs : List (Client × Option (List Byte) × ℤ)}
  {f g : Floor Client inboundSize outboundSize snapshotSize}

/-- It is part of a run. -/
theorem Proceeds.runs (hstep : Proceeds codec f g) (h : Runs codec may start inputs f) :
    ∃ more, Runs codec may start (inputs ++ more) g := by
  cases hstep with
  | serve hnext hfix hserved => exact ⟨_, .serve h hnext hfix hserved⟩
  | venue hstep => exact ⟨[], by rw [List.append_nil]; exact .venue h hstep⟩
  | receive hnext hparse => exact ⟨[], by rw [List.append_nil]; exact .receive h hnext hparse⟩

/-- What a terminal has received after an action on one. -/
theorem execs_act (f : Floor Client inboundSize outboundSize snapshotSize) (c d : Client)
    (action : Action) :
    execs ((f.act c action).actions d) = execs (f.actions d) ++ if d = c then
      action.execFrame.toList else [] := by
  show execs (Function.update f.actions c (f.actions c ++ [action]) d) = _
  by_cases hd : d = c
  · subst hd
    rw [Function.update_self, execs_append, if_pos rfl]
  · rw [Function.update_of_ne hd, if_neg hd, List.append_nil]

section Progress

variable [Fintype Client]

/-- What is left to do: the frames to serve, then what the venue has to do, then the EXEC frames to
read. -/
def left (f : Floor Client inboundSize outboundSize snapshotSize) :
    ℕ ×ₗ (ℕ ×ₗ ℕ ×ₗ ℕ ×ₗ ℕ) ×ₗ ℕ :=
  toLex (∑ c, (f.outgoing c).length,
    toLex (f.venue.left, ∑ c, (f.venue.execFrames.length - (execs (f.actions c)).length)))

/-- A step leaves less to do. -/
theorem Proceeds.left (h : Proceeds codec f g) : g.left < f.left := by
  cases h with
  | @serve c frame rest fix nanos venue hnext _ _ =>
    refine Prod.Lex.toLex_lt_toLex.mpr (.inl (sum_lt_of_one (k := c) ?_ fun d hd => ?_))
    · show (Function.update f.outgoing c rest c).length < _
      rw [Function.update_self, hnext, List.length_cons]
      exact Nat.lt_succ_self _
    · show (Function.update f.outgoing c rest d).length = _
      rw [Function.update_of_ne hd]
  | venue hstep =>
    exact Prod.Lex.toLex_lt_toLex.mpr (.inr ⟨rfl, Prod.Lex.toLex_lt_toLex.mpr (.inl hstep.1.left)⟩)
  | @receive c json exec hnext _ =>
    obtain ⟨hlt, -⟩ := List.getElem?_eq_some_iff.mp hnext
    refine Prod.Lex.toLex_lt_toLex.mpr (.inr ⟨rfl, Prod.Lex.toLex_lt_toLex.mpr (.inr ⟨rfl, ?_⟩)⟩)
    refine sum_lt_of_one (k := c) ?_ fun d hd => ?_
    · rw [execs_act, List.length_append, if_pos rfl]
      exact Nat.sub_lt_sub_left hlt (Nat.lt_succ_self _)
    · rw [execs_act, if_neg hd, List.append_nil]
      rfl

end Progress

/-- No terminal has received more than was broadcast. -/
theorem Runs.received_le (h : Runs codec may start inputs f) (c : Client) :
    (execs (f.actions c)).length ≤ f.venue.execFrames.length := by
  induction h with
  | start => exact Nat.zero_le _
  | @send inputs f d frame sentAtNanos _ _ _ ih =>
    have hsame := execs_act f d c (.sent frame sentAtNanos)
    have hnone : (if c = d then (Action.sent frame sentAtNanos).execFrame.toList else []) = [] := by
      split_ifs <;> rfl
    rw [hnone, List.append_nil] at hsame
    exact hsame ▸ ih
  | serve _ _ _ hserved ih => exact hserved.broadcast.1 ▸ ih
  | venue _ hstep ih => exact ih.trans hstep.1.execFrames.length_le
  | @receive inputs f d json exec _ hnext _ ih =>
    obtain ⟨hlt, -⟩ := List.getElem?_eq_some_iff.mp hnext
    rw [execs_act, List.length_append]
    by_cases hd : c = d
    · subst hd
      rw [if_pos rfl]
      exact hlt
    · rw [if_neg hd]
      exact ih
  | @other inputs f d action _ hexec _ ih =>
    rw [execs_act, hexec, Option.toList_none, ite_self, List.append_nil]
    exact ih

/-- A worker thread with no event in hand takes any frame. -/
theorem exists_onFrame {v : Venue inboundSize outboundSize snapshotSize}
    (hpending : v.pending = none) (frame : Option (List Byte)) :
    ∃ w, Venue.OnFrame frame v.nanos v w := by
  obtain ⟨gateway, hgateway⟩ :=
    v.gateway.exists_onFrame OrderGateway.idle.scratch frame (v.clock.getAsLong v.nanos)
  cases hpublished :
      Inbound.publishedOf OrderGateway.idle.scratch (frame, v.clock.getAsLong v.nanos) with
  | none => exact ⟨_, .dropped hpending (hpublished ▸ hgateway)⟩
  | some event => exact ⟨_, .stamped hpending (hpublished ▸ hgateway) (le_refl _)⟩

/-- What the clients have set going comes to an end, however it goes on: not for ever, and only when
nothing is left to do but for the clients. No frame stays on a socket for good, no request in the
gateway, no report in the venue or unread. -/
theorem Runs.comes_to_rest [Fintype Client] (hstart : start.Fresh)
    (h : Runs codec may start inputs f) (hcodec : codec.Documented f.venue.execFrames)
    (fresh : OrderEvent)
    (hfew : (after (Venue.eventsOf fresh (inputs.map Prod.snd))).engine.trades.length < 2^53 - 1) :
    (¬ ∃ g : ℕ → Floor Client inboundSize outboundSize snapshotSize, g 0 = f ∧ ∀ i,
      Proceeds codec (g i) (g (i + 1))) ∧
      ((∀ g, ¬ Proceeds codec f g) → f.AtRest) := by
  refine ⟨fun ⟨g, _, hg⟩ => not_endless_of_measure (fun _ _ hstep => hstep.left) g hg,
    fun hstuck => ?_⟩
  · obtain ⟨log, s, executions, depths, hf, hlog⟩ := h.follows hstart hcodec fresh hfew
    rw [← hlog] at hfew
    have hvenue : ∀ venue, ¬ Venue.Step f.venue venue := by
      intro venue hstep
      obtain ⟨w, hw⟩ := hstep.exists_heard hf.heard
      exact hstuck _ (.venue hw)
    obtain ⟨-, -, hpending, -⟩ := hf.mirrors.delivers_of_stuck hvenue
    refine ⟨fun c => ?_, hvenue, fun c => ?_⟩
    · by_contra hne
      obtain ⟨frame, rest, hnext⟩ := List.exists_cons_of_ne_nil hne
      obtain ⟨venue, hserved⟩ := exists_onFrame hpending (some (bytesOf frame))
      exact hstuck _
        (.serve hnext (WebSocketFrameHandler.translate_clientNode hcodec.jackson frame) hserved)
    · refine Nat.le_antisymm (h.received_le c) (Nat.le_of_not_lt fun hlt => ?_)
      have hnext := List.getElem?_eq_getElem hlt
      obtain ⟨exec, hread, -⟩ :=
        hf.read hcodec (fun r hr => MatchingEngineHandler.legible_after hf.legible hfew hr) hnext
      exact hstuck _ (.receive hnext hread)

/-- The buy is on its socket. -/
def bidSent : Floor Bool 1 1 1 :=
  ({ venue := Venue.idle } : Floor Bool 1 1 1).send true (bid.frame 7) none

/-- The floor on which `bid` was sent comes to rest. -/
theorem comes_to_rest_bid : Runs (bidWire 0) Session.SendsFresh Venue.idle [] bidSent ∧
    (¬ ∃ g : ℕ → Floor Bool 1 1 1, g 0 = bidSent ∧ ∀ i, Proceeds (bidWire 0) (g i) (g (i + 1))) ∧
      ((∀ g, ¬ Proceeds (bidWire 0) bidSent g) → bidSent.AtRest) := by
  have hrun : Runs (bidWire 0) Session.SendsFresh Venue.idle [] bidSent :=
    .send .start sendable_bid fun X _ d hX => absurd hX List.not_mem_nil
  exact ⟨hrun, hrun.comes_to_rest Venue.fresh_idle ((documented_bidWire 0).mono (List.nil_subset _))
    OrderGateway.idle.scratch (by decide)⟩

/-! ## What the blotters say then -/

/-- Every row of every blotter tells what there is of its order in the engine, and each order that
rests has a row, at one client only. -/
structure Settled (f : Floor Client inboundSize outboundSize snapshotSize) : Prop where
  /-- Every row of every client tells of the engine. -/
  tells : ∀ c, ∀ row ∈ (reduce (f.actions c)).myOrders, Tells row f.venue.engine
  /-- Every resting order has a row at exactly one client. -/
  shown : ∀ r ∈ f.venue.engine.resting, ∃! c, r.orderID ∈ rowIds (f.actions c)

/-- A floor at rest is settled, whatever happened on the way: the clients may have sent their orders
and cancels, and read the reports, at any time and in any order. -/
theorem Runs.blotters_agree {codec : Codec} {start : Venue inboundSize outboundSize snapshotSize}
    (hstart : start.Fresh) {inputs : List (Client × Option (List Byte) × ℤ)}
    {f : Floor Client inboundSize outboundSize snapshotSize}
    (h : Runs codec Session.SendsOwn start inputs f) (hcodec : codec.Documented f.venue.execFrames)
    (fresh : OrderEvent)
    (hfew : (after (Venue.eventsOf fresh (inputs.map Prod.snd))).engine.trades.length < 2^53 - 1)
    (hfits : ∀ event ∈ Venue.eventsOf fresh (inputs.map Prod.snd), event.eventType = .newOrder →
    FitsInt event.quantity)
    (hrest : f.AtRest) : f.Settled := by
  obtain ⟨log, s, executions, depths, hf, hlog⟩ := h.follows hstart hcodec fresh hfew
  rw [← hlog] at hfits
  -- The engine has taken all events, and all reports were broadcast.
  obtain ⟨htaken, ⟨hengine, executions', -, hpublished, haudience, hbroadcast, -⟩, -⟩ :=
    hf.mirrors.delivers_of_stuck hrest.stuck
  rw [WebSocketPublisher.heardFrames_of_heard haudience.symm hf.heard] at hbroadcast
  have hevents : s.events = log.map Prod.snd := by rw [hf.events, htaken, List.take_length]
  have horderly := hf.reachable.ownReachable.orderly
  have hfed : ∀ c, Fed (log.map Prod.snd) (f.actions c) := by
    intro c
    rw [← hevents, ← hf.actions]
    refine horderly.fed c (by rwa [hevents]) ?_
    rw [hf.actions, hrest.received c, hbroadcast, hevents, ← hpublished, List.length_map,
      List.length_map]
  have hsent : ∀ c, sentIds (f.actions c) ⊆ newIds (log.map Prod.snd) := by
    intro c
    have hsub := hf.sent c
    rwa [hrest.served c, requestsOf, List.flatMap_nil, List.append_nil] at hsub
  refine ⟨fun c row hrow => ?_, fun r hr => ?_⟩
  · rw [hengine]
    exact (hfed c).tells hrow (hsent c (mem_sentIds_of_row (List.mem_map_of_mem hrow)))
  · rw [hengine] at hr
    obtain ⟨c, hc⟩ := horderly.coherent.processed r.orderID
      (hevents ▸ MatchingEngineHandler.mem_newIds_of_resting hr)
    have hone : ∀ d, r.orderID ∈ rowIds (f.actions d) → d = c := by
      intro d hd
      rw [← hf.actions] at hd
      exact horderly.coherent.disjoint d c r.orderID (mem_sentIds_of_row hd) hc
    rw [hf.actions] at hc
    exact ⟨c, mem_rowIds_of_sent hc, hone⟩

/-- The floor on which `bid` was sent and served settles. -/
theorem blotters_agree_bid : ∃ (timestamp : ℤ) (f : Floor Bool 1 1 1),
    Runs (bidWire timestamp) Session.SendsOwn Venue.idle bidInputs f ∧ f.AtRest ∧ f.Settled := by
  obtain ⟨timestamp, f, hrun, hcodec, hrest⟩ := @exists_bidRun Session.SendsOwn fun _ =>
    List.not_mem_nil
  have hfits : ∀ event ∈ Venue.eventsOf OrderGateway.idle.scratch (bidInputs.map Prod.snd),
      event.eventType = .newOrder → FitsInt event.quantity := by
    rw [eventsOf_bidInputs]
    decide
  exact ⟨timestamp, f, hrun, hrest,
    hrun.blotters_agree Venue.fresh_idle hcodec OrderGateway.idle.scratch few_bidInputs hfits
    hrest⟩

end Floor

end MatchingVenue
