import MatchingVenue.Terminal.Session

/-!
# Cancels from the blotter

The blotter has a button to cancel a row while its status is open or partly filled, and only the
ticket for cancels takes an id from anywhere. In a session whose clients keep to the buttons every
cancel names an order that the handler has processed before (`Orderly`), for a row is pending until
a report about its order has come in. So no cancel overtakes an order, a row that is rejected is one
of an order that the venue refused (`OwnReachable.rejected_refused`), and a terminal that has caught
up is one whose blotter agrees with the venue (`OwnReachable.fed_caughtUp`).
-/

namespace MatchingVenue

universe u

namespace Terminal

open MatchingEngineHandler

namespace Session

variable {Client : Type u} [DecidableEq Client]

/-- What can happen where a client cancels only from its blotter. -/
inductive OwnStep : Session Client → Session Client → Prop where
  /-- A client sends a new order, under an id that no client has sent. -/
  | new {s : Session Client} {c : Client} {frame : NewOrderFrame} {sentAtNanos : Option ℤ}
    {timestamp : ℤ} :
    (∀ d, frame.clOrdId ∉ sentIds (s.actions d)) →
      OwnStep s (s.send c (.new frame) sentAtNanos timestamp)
  /-- A client cancels an order from its blotter. -/
  | cancel {s : Session Client} {c : Client} {row : MyOrder} {clOrdId : ℤ} {sentAtNanos : Option ℤ}
    {timestamp : ℤ} :
    row ∈ (reduce (s.actions c)).myOrders → isCancellable row.status = true →
    OwnStep s (s.send c (.cancel clOrdId row.clOrdId) sentAtNanos timestamp)
  /-- The handler processes the oldest request of a client. -/
  | process {s : Session Client} {c : Client} {event : OrderEvent} {rest : List OrderEvent} :
    s.inFlight c = event :: rest → OwnStep s (s.process c event rest)
  /-- A client receives the next report. -/
  | receive {s : Session Client} {c : Client} {frame : ExecFrame} :
    (after s.events).outbound[(execs (s.actions c)).length]? = some frame.toExecutionEvent →
    OwnStep s (s.act c (.frame (.exec frame)))
  /-- Anything else happens at a terminal. -/
  | other {s : Session Client} {c : Client} {action : Action} :
    action.execFrame = none → (∀ frame sentAtNanos, action ≠ .sent frame sentAtNanos) →
      OwnStep s (s.act c action)

/-- The sessions that come about so. -/
def OwnReachable (s : Session Client) : Prop := Relation.ReflTransGen OwnStep {} s

variable {s s' : Session Client} {c d : Client}

/-- A step with own cancels is a step. -/
theorem OwnStep.step (h : OwnStep s s') : Step s s' := by
  cases h with
  | new hfresh => exact .send fun X hX d => (Option.mem_some.mp hX) ▸ hfresh d
  | cancel _ _ => exact .send fun X hX => absurd hX (by simp [Action.sentId])
  | process hoffers => exact .process hoffers
  | receive hnext => exact .receive hnext
  | other hexec hsent => exact .other hexec hsent

/-- What is reached with own cancels is reached. -/
theorem OwnReachable.reachable (h : s.OwnReachable) : s.Reachable :=
  Relation.ReflTransGen.mono (fun _ _ => OwnStep.step) _ _ h

/-- Every cancel names an order that was processed before, and the events of an order have its
quantity. -/
structure Orderly (s : Session Client) : Prop where
  /-- The session is coherent. -/
  coherent : s.Coherent
  /-- Every cancel that was processed names an order that was processed before. -/
  processed : ∀ pre event, pre ++ [event] <+: s.events → event.eventType = .cancelOrder →
    event.originalOrderId ∈ newIds pre
  /-- Every cancel on its way does. -/
  queued : ∀ c, ∀ event ∈ s.inFlight c, event.eventType = .cancelOrder →
    event.originalOrderId ∈ newIds s.events
  /-- The event of an order that was sent has its quantity. -/
  quantity : ∀ c start frame sentAtNanos,
    start ++ [.sent (.new frame) sentAtNanos] <+: s.actions c →
    ∀ event ∈ s.ordersOf c frame.clOrdId, event.quantity = frame.qty

omit [DecidableEq Client] in
/-- At the start nothing is out of order. -/
theorem orderly_start : ({} : Session Client).Orderly where
  coherent := coherent_start
  processed pre event hpre := by simp at hpre
  queued _ _ hevent := absurd hevent List.not_mem_nil
  quantity _ start frame sentAtNanos hstart := by simp at hstart

omit [DecidableEq Client] in
/-- A report about an order comes after the order. -/
theorem Orderly.known (h : s.Orderly) {pre : List OrderEvent} (hpre : pre <+: s.events) {k : ℕ}
    {report : ExecutionEvent} (hk : (after pre).outbound[k]? = some report) {X : ℤ}
    (hinvolves : report.Involves X) : X ∈ newIds pre := by
  by_contra hno
  obtain ⟨-, early, cancel, hearly, htype, hid, -⟩ := answer_of_unknown hno hk hinvolves
  have hknown := h.processed early cancel (hearly.trans hpre) htype
  rw [hid] at hknown
  exact hno ((newIds_mono ((List.prefix_append ..).trans hearly)).subset hknown)

omit [DecidableEq Client] in
/-- A row that is not pending is one of an order that was processed. -/
theorem Orderly.row_known (h : s.Orderly) {row : MyOrder}
    (hrow : row ∈ (reduce (s.actions c)).myOrders) (hstatus : row.status ≠ .pending) :
    row.clOrdId ∈ newIds s.events := by
  obtain ⟨start, frame, sentAtNanos, -, hid, hfold⟩ := row_of_mem hrow
  by_contra hno
  have hnone : ∀ exec ∈ (execs (s.actions c)).drop (execs start).length,
      ¬ exec.toExecutionEvent.Involves (newRow frame sentAtNanos).clOrdId := by
    intro exec hexec hinvolves
    obtain ⟨i, hi⟩ := List.mem_iff_getElem?.mp hexec
    rw [List.getElem?_drop] at hi
    rw [hid] at hno
    exact hno (h.known List.prefix_rfl (h.coherent.getElem?_outbound hi) hinvolves)
  rw [hfold, foldl_of_not_involves hnone] at hstatus
  exact hstatus rfl

/-- A frame that was sent after an action was sent before it or by it. -/
theorem prefix_act {action : Action} {start : List Action} {frame : NewOrderFrame}
    {sentAtNanos : Option ℤ}
    (hstart : start ++ [.sent (.new frame) sentAtNanos] <+: (s.act c action).actions d) :
    start ++ [.sent (.new frame) sentAtNanos] <+: s.actions d ∨
      d = c ∧ start = s.actions c ∧ action = .sent (.new frame) sentAtNanos := by
  by_cases hd : d = c
  · subst hd
    rw [actions_act_self, List.prefix_concat_iff] at hstart
    refine hstart.symm.imp_right fun heq => ⟨rfl, ?_⟩
    obtain ⟨hinit, hlast⟩ := List.append_inj' heq rfl
    exact ⟨hinit, (List.cons.inj hlast).1.symm⟩
  · rw [actions_act_of_ne hd] at hstart
    exact .inl hstart

/-- What was sent keeps the quantity of its events. -/
theorem Orderly.quantity_step (h : s.Orderly) (hstep : Step s s') {start : List Action}
    {frame : NewOrderFrame} {sentAtNanos : Option ℤ}
    (hstart : start ++ [.sent (.new frame) sentAtNanos] <+: s.actions c) :
    ∀ event ∈ s'.ordersOf c frame.clOrdId, event.quantity = frame.qty := fun event hevent =>
  h.quantity c start frame sentAtNanos hstart event
    ((h.coherent.ordersOf_step hstep (mem_sentIds hstart)).2 hevent)

/-- A cancel that is sent names an order that was processed. -/
theorem Orderly.cancel (h : s.Orderly) {clOrdId X : ℤ} {sentAtNanos : Option ℤ} {timestamp : ℤ}
    (hX : X ∈ newIds s.events) : (s.send c (.cancel clOrdId X) sentAtNanos timestamp).Orderly := by
  have hstep : Step s (s.send c (.cancel clOrdId X) sentAtNanos timestamp) :=
    .send fun X hX => absurd hX (by simp [Action.sentId])
  refine ⟨h.coherent.step hstep, h.processed, fun d event hevent htype => ?_,
    fun d start frame at' hstart => ?_⟩
  · show event.originalOrderId ∈ newIds s.events
    by_cases hd : d = c
    · subst hd
      rw [inFlight_send_self, List.mem_append] at hevent
      rcases hevent with hevent | hevent
      · exact h.queued d event hevent htype
      · have hrequest := Option.mem_toList.mp hevent
        rw [request, Option.ite_none_right_eq_some] at hrequest
        rw [← Option.some.inj hrequest.2]
        exact hX
    · rw [inFlight_send_of_ne hd] at hevent
      exact h.queued d event hevent htype
  · rcases prefix_act hstart with hstart | ⟨-, -, heq⟩
    · exact h.quantity_step hstep hstart
    · cases heq

/-- A new order has its quantity. -/
theorem Orderly.new (h : s.Orderly) {frame : NewOrderFrame} {sentAtNanos : Option ℤ} {timestamp : ℤ}
    (hfresh : ∀ d, frame.clOrdId ∉ sentIds (s.actions d)) :
    (s.send c (.new frame) sentAtNanos timestamp).Orderly := by
  have hstep : Step s (s.send c (.new frame) sentAtNanos timestamp) :=
    .send fun X hX d => (Option.mem_some.mp hX) ▸ hfresh d
  have hevents : ∀ event ∈ (request timestamp (.new frame)).toList,
      event.eventType = .newOrder ∧ event.quantity = frame.qty := by
    intro event hevent
    have hrequest := Option.mem_toList.mp hevent
    rw [request, Option.ite_none_right_eq_some] at hrequest
    rw [← Option.some.inj hrequest.2]
    exact ⟨rfl, rfl⟩
  refine ⟨h.coherent.step hstep, h.processed, fun d event hevent htype => ?_,
    fun d start frame' at' hstart => ?_⟩
  · show event.originalOrderId ∈ newIds s.events
    by_cases hd : d = c
    · subst hd
      rw [inFlight_send_self, List.mem_append] at hevent
      refine hevent.elim (fun hevent => h.queued d event hevent htype) fun hevent => ?_
      rw [(hevents event hevent).1] at htype
      cases htype
    · rw [inFlight_send_of_ne hd] at hevent
      exact h.queued d event hevent htype
  · rcases prefix_act hstart with hstart | ⟨rfl, -, heq⟩
    · exact h.quantity_step hstep hstart
    · -- The new order is the only one under its id.
      obtain ⟨hframe, -⟩ := Action.sent.inj heq
      obtain rfl := ClientFrame.new.inj hframe
      intro event hevent
      obtain ⟨hmem, htype, hid⟩ := mem_ordersOf.mp hevent
      rw [inFlight_send_self, List.mem_append] at hmem
      rcases hmem with hmem | hmem | hmem
      · obtain ⟨e, he⟩ := h.coherent.processed _ (mem_newIds.mpr ⟨event, hmem, htype, hid⟩)
        exact absurd he (hfresh e)
      · exact absurd (h.coherent.queued d (mem_newIds.mpr ⟨event, hmem, htype, hid⟩)) (hfresh d)
      · exact (hevents event hmem).2

/-- Processing a request keeps the order of things. -/
theorem Orderly.process (h : s.Orderly) {event : OrderEvent} {rest : List OrderEvent}
    (hoffers : s.inFlight c = event :: rest) : (s.process c event rest).Orderly := by
  have hmono : newIds s.events ⊆ newIds (s.events ++ [event]) :=
    (newIds_mono (List.prefix_append ..)).subset
  refine ⟨h.coherent.step (.process hoffers), fun pre last hpre htype => ?_,
    fun d queued hqueued htype => ?_,
    fun d start frame at' hstart => h.quantity_step (.process hoffers) hstart⟩
  · have hevents : (s.process c event rest).events = s.events ++ [event] := rfl
    rw [hevents, List.prefix_concat_iff] at hpre
    rcases hpre with heq | hpre
    · obtain ⟨rfl, hlast⟩ := List.append_inj' heq rfl
      obtain rfl := (List.cons.inj hlast).1
      exact h.queued c last (by rw [hoffers]; exact List.mem_cons_self) htype
    · exact h.processed pre last hpre htype
  · show queued.originalOrderId ∈ newIds (s.events ++ [event])
    by_cases hd : d = c
    · subst hd
      rw [inFlight_process_self] at hqueued
      exact hmono (h.queued d queued (by rw [hoffers]; exact List.mem_cons_of_mem _ hqueued) htype)
    · rw [inFlight_process_of_ne hd] at hqueued
      exact hmono (h.queued d queued hqueued htype)

/-- So does what a terminal does but send. -/
theorem Orderly.act (h : s.Orderly) {action : Action} (hstep : Step s (s.act c action))
    (hsent : ∀ frame sentAtNanos, action ≠ .sent frame sentAtNanos) : (s.act c action).Orderly where
  coherent := h.coherent.step hstep
  processed := h.processed
  queued := h.queued
  quantity d start frame sentAtNanos hstart := by
    rcases prefix_act hstart with hstart | ⟨-, -, heq⟩
    · exact h.quantity_step hstep hstart
    · exact absurd heq (hsent _ _)

/-- A step with own cancels keeps the session orderly. -/
theorem Orderly.step (h : s.Orderly) (hstep : OwnStep s s') : s'.Orderly := by
  cases hstep with
  | new hfresh => exact h.new hfresh
  | cancel hrow hstatus =>
    exact h.cancel (h.row_known hrow fun hpending => by rw [hpending] at hstatus; cases hstatus)
  | process hoffers => exact h.process hoffers
  | receive hnext => exact h.act (.receive hnext) (by simp)
  | other hexec hsent => exact h.act (.other hexec hsent) hsent

/-- A session that is reached with own cancels is orderly. -/
theorem OwnReachable.orderly (h : s.OwnReachable) : s.Orderly :=
  steps_inv h Orderly orderly_start fun _ _ => Orderly.step

omit [DecidableEq Client] in
/-- What a terminal received before it sent an order is not about the order. -/
theorem Orderly.not_before (h : s.Orderly) {start : List Action} {frame : NewOrderFrame}
    {sentAtNanos : Option ℤ} (hstart : start ++ [.sent (.new frame) sentAtNanos] <+: s.actions c)
    {exec : ExecFrame} (hexec : exec ∈ execs start) :
    ¬ exec.toExecutionEvent.Involves frame.clOrdId := by
  intro hinvolves
  obtain ⟨i, hi⟩ := List.mem_iff_getElem?.mp hexec
  have hlt : i < (execs start).length := (List.getElem?_eq_some_iff.mp hi).1
  obtain ⟨more, hmore⟩ : execs start <+: execs (s.actions c) :=
    List.IsPrefix.filterMap _ ((List.prefix_append ..).trans hstart)
  have hreport : (after s.events).outbound[i]? = some exec.toExecutionEvent := by
    have hreceived : (execs (s.actions c))[i]? = some exec := by
      rw [← hmore, List.getElem?_append_left hlt]
      exact hi
    exact h.coherent.getElem?_outbound hreceived
  obtain ⟨event, hevent, htype, hid⟩ := mem_newIds.mp (h.known List.prefix_rfl hreport hinvolves)
  obtain ⟨pre, post, hevents⟩ := List.append_of_mem hevent
  have hpre : pre ++ [event] <+: s.events := ⟨post, by rw [hevents]; simp⟩
  -- The report is from before the order was processed, so the order would have been processed
  -- twice.
  have hbefore := h.coherent.sentFirst c start frame sentAtNanos pre event hstart hpre htype hid
  obtain ⟨later, hlater⟩ := outbound_mono ((List.prefix_append pre [event]).trans hpre)
  rw [← hlater, List.getElem?_append_left (hlt.trans_le hbefore)] at hreport
  have hknown := h.known ((List.prefix_append pre [event]).trans hpre) hreport hinvolves
  have hnodup := h.coherent.nodup_events c
  rw [hevents, newIds_append, List.nodup_append] at hnodup
  exact hnodup.2.2 _ hknown _ (mem_newIds.mpr ⟨event, List.mem_cons_self, htype, hid⟩) rfl

/-! ## The results -/

omit [DecidableEq Client] in
/-- No cancel overtakes an order. -/
theorem Orderly.not_overtaken (h : s.Orderly) (c : Client) (X : ℤ) : ¬ s.Overtaken c X := by
  rintro ⟨pre, cancel, -, -, -, hpre, htype, hid, hno, -⟩
  have hknown := h.processed pre cancel hpre htype
  rw [hid] at hknown
  exact hno hknown

/-- Where clients cancel only from their blotters, however their requests and the reports are
interleaved, every cancel that the handler processes names an order that it processed before, and a
row of a client that is rejected is one of an order that is never admitted. -/
theorem OwnReachable.rejected_refused (h : s.OwnReachable) :
    (∀ (pre : List OrderEvent) (event : OrderEvent), pre ++ [event] <+: s.events →
      event.eventType = .cancelOrder →
      event.originalOrderId ∈ newIds pre) ∧
    ∀ (c : Client), ∀ row ∈ (reduce (s.actions c)).myOrders, row.status = .rejected →
      s.NeverAdmitted row.clOrdId := by
  refine ⟨h.orderly.processed, fun c row hrow hrejected => ?_⟩
  have hc := h.orderly.coherent
  obtain ⟨start, frame, sentAtNanos, hstart, hid, -⟩ := row_of_mem hrow
  have hsent : row.clOrdId ∈ sentIds (s.actions c) := by
    rw [hid]
    exact mem_sentIds hstart
  rw [hc.neverAdmitted_iff hsent]
  rcases hc.rejected_cases hrow hrejected with hovertaken | ⟨event, hevent, e, he⟩
  · exact absurd hovertaken (h.orderly.not_overtaken c row.clOrdId)
  · intro event' hevent'
    obtain rfl := hc.ordersOf_unique hevent hevent'
    exact ⟨e, he⟩

/-- `refusedSession` is reached with own cancels. -/
theorem ownReachable_refusedSession : refusedSession.OwnReachable :=
  (((Relation.ReflTransGen.refl.tail (.new (by simp [sentIds]))).tail (.process (by decide))).tail
    (.receive (by decide)))

/-- The row of an order that was refused is rejected, and the order is never admitted. -/
theorem rejected_refusedSession :
    ∃ row ∈ (reduce (refusedSession.actions true)).myOrders, row.status = .rejected ∧
    refusedSession.NeverAdmitted row.clOrdId := by
  have hrow : (⟨7, .buy, 10000, 10, 10, .rejected, .limit, .ioc, 5, none⟩ : MyOrder) ∈
      (reduce (refusedSession.actions true)).myOrders := by decide
  exact ⟨_, hrow, rfl, ownReachable_refusedSession.rejected_refused.2 true _ hrow rfl⟩

omit [DecidableEq Client] in
/-- A terminal that has received the whole stream has what it needs to agree with the venue. -/
theorem Orderly.fed (h : s.Orderly) (c : Client)
    (hfits : ∀ event ∈ s.events, event.eventType = .newOrder → FitsInt event.quantity)
    (hcaughtUp : (execs (s.actions c)).length = (after s.events).outbound.length) :
    Fed s.events (s.actions c) where
  distinct := h.coherent.nodup_events c
  fits := hfits
  cancels := h.processed
  stream := (h.coherent.stream c).eq_of_length (by rw [List.length_map, hcaughtUp])
  sent pre frame sentAtNanos hstart := by
    refine ⟨fun exec hexec hinvolves => ?_, fun event hevent htype hid => ?_⟩
    · exact h.not_before hstart hexec hinvolves
    · exact h.quantity c pre frame sentAtNanos hstart event
        (mem_ordersOf.mpr ⟨.inl hevent, htype, hid⟩)

/-- And a terminal that has received the whole stream is one whose blotter agrees with the venue,
where the quantities are those of an `int`. -/
theorem OwnReachable.fed_caughtUp (h : s.OwnReachable) (c : Client)
    (hfits : ∀ event ∈ s.events, event.eventType = .newOrder → FitsInt event.quantity)
    (hcaughtUp : (execs (s.actions c)).length = (after s.events).outbound.length) :
    Fed s.events (s.actions c) :=
  h.orderly.fed c hfits hcaughtUp

/-- A client sends an order, sees it accepted, cancels it from its blotter and sees the cancel
answered. -/
def ownSession : Session Bool :=
  ((((((({} : Session Bool).send true (.new ⟨7, .buy, .limit, .gtc, 10000, 10, 0⟩) none 1).process
    true ⟨.newOrder, 7, some .buy, some .limit, some .gtc, 10000, 10, 0, 1, -1⟩ []).act true
      (.frame (.exec ⟨onAccepted 7 10000 10, 2⟩))).send true (.cancel 8 7) none 3).process true
        ⟨.cancelOrder, 8, none, none, none, -1, -1, 0, 3, 7⟩ []).act true
          (.frame (.exec ⟨cancelled 7, 4⟩)))

/-- `ownSession` is reached with own cancels. -/
theorem ownReachable_ownSession : ownSession.OwnReachable :=
  ((((((Relation.ReflTransGen.refl.tail (.new (by simp [sentIds]))).tail
    (.process (by decide))).tail
    (.receive (by decide))).tail
      (@OwnStep.cancel Bool _ _ true ⟨7, .buy, 10000, 10, 10, .open, .limit, .gtc, 0, none⟩
      8 none 3 (by decide) rfl)).tail (.process (by decide))).tail (.receive (by decide)))

/-- Its blotter has what it needs to agree with the venue. -/
theorem fed_ownSession : Fed ownSession.events (ownSession.actions true) :=
  ownReachable_ownSession.fed_caughtUp true (by decide) (by decide)

end Session

end Terminal

end MatchingVenue
