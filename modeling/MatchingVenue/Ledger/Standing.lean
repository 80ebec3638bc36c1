import MatchingVenue.Ledger.Conservation
import MatchingVenue.Ledger.Reports
import MatchingVenue.Engine.Collisions

/-!
# How an order stands with the venue

For runs of the handler whose new orders have distinct ids, `Standing` collects what is known about
the account of one id: it describes the engine, it is unknown until the new order of that id comes,
it is admitted exactly if the constructor took that order, and it expired exactly if the engine said
so.

Such runs never collide (`lawful_after`), so a cancel that finds nothing names an order that is over
(`Standing.closed_of_failed`).
-/

namespace MatchingVenue

namespace MatchingEngineHandler

open MatchingEngine ExecutionEvent

/-- What a run has made of the order of one id. -/
structure Standing (events : List OrderEvent) (X : ℤ) (a : Account) : Prop where
  /-- The account describes the engine. -/
  tracks : Tracks X (none, (after events).engine) a
  /-- An id of no new order is unknown. -/
  unknown : a = .unknown ↔ X ∉ newIds events
  /-- An order is admitted where it can be built. -/
  admitted : (∃ t, a = .admitted t) ↔
    ∃ event ∈ events, event.eventType = .newOrder ∧ event.orderId = X ∧ ∃ o, order event = .ok o
  /-- An order expired where the listener was told so. -/
  expired : ∀ n, .onExpired X n ∈ (after events).engine.executionListener ↔ a.At .expired n

/-- Before the first event nothing is known of an id. -/
theorem standing_nil (X : ℤ) : Standing [] X .unknown where
  tracks := tracks_empty X
  unknown := ⟨fun _ => List.not_mem_nil, fun _ => rfl⟩
  admitted := by simp
  expired n := by
    have hnil : (after []).engine.executionListener = [] := rfl
    simp [hnil, Account.At]

/-- Only orders of a positive id are admitted. -/
theorem Standing.pos {events : List OrderEvent} {X : ℤ} {a : Account} (h : Standing events X a)
    (ha : ∃ t, a = .admitted t) : 0 < X := by
  obtain ⟨event, -, -, rfl, o, ho⟩ := h.admitted.mp ha
  rw [← order_orderID ho]
  exact (order_constructed ho).valid.1.orderID_pos

/-- The expiries that the listener has heard of after one more event. -/
theorem mem_expired_after (pre : List OrderEvent) (event : OrderEvent) (X : ℤ) (n : ℕ) :
    .onExpired X n ∈ (after (pre ++ [event])).engine.executionListener ↔
      .onExpired X n ∈ (after pre).engine.executionListener ∨
        .expired X n ∈ admission event ++ (reportsOf pre event).map entry := by
  rcases reportsOf_cases pre event with ⟨htype, hengine, hreports⟩ |
    ⟨htype, ⟨e, he⟩, hengine, hreports⟩ | ⟨htype, o, callbacks, ho, -, hlistener, hreports, -⟩
  · rw [hengine, executionListener_cancelOrder (reachable_after pre), admission, htype, hreports]
    split_ifs <;> simp [cancelled, entry]
  · rw [hengine, admission, htype, he, hreports]
    simp [rejected, entry]
  · rw [hlistener, admission, htype, ho, hreports, map_entry_report, List.mem_append,
      List.mem_append, expired_mem_map_entry]
    simp

/-- An event that is not the new order of an id neither admits nor refuses it. -/
theorem entries_not_new {pre : List OrderEvent} {event : OrderEvent} {X : ℤ}
    (h : event.eventType = .newOrder → event.orderId ≠ X) :
    ∀ e ∈ admission event ++ (reportsOf pre event).map entry,
      (∀ q, e ≠ .admitted X q) ∧ e ≠ .refused X := by
  intro e he
  rcases List.mem_append.mp he with he | he
  · have hnames := admission_not_names h e he
    refine ⟨fun q heq => hnames ?_, fun heq => hnames ?_⟩ <;> rw [heq] <;> exact rfl
  · obtain ⟨r, hr, rfl⟩ := List.mem_map.mp he
    refine ⟨entry_ne_admitted r X, fun hrefused => ?_⟩
    obtain ⟨htype, hid⟩ := reportsOf_refused hr hrefused
    exact h htype hid

section Step

variable {pre : List OrderEvent} {event : OrderEvent} {X : ℤ} {a : Account}

/-- Events that are not the new order of an id change nothing about whether it was admitted. -/
theorem Standing.other (h : Standing pre X a)
    (hother : event.eventType = .newOrder → event.orderId ≠ X) :
    ∃ a', a.replay X (admission event ++ (reportsOf pre event).map entry) = some a' ∧
      Standing (pre ++ [event]) X a' := by
  obtain ⟨a', hreplay, ha'⟩ := onEvent_tracks pre event h.tracks fun htype hid =>
    absurd hid (hother htype)
  have hnewIds : X ∈ newIds (pre ++ [event]) ↔ X ∈ newIds pre := by
    rw [newIds_append, List.mem_append]
    refine or_iff_left fun hmem => ?_
    obtain ⟨e, he, htype, hid⟩ := mem_newIds.mp hmem
    obtain rfl := List.mem_singleton.mp he
    exact hother htype hid
  -- The event is not one that could have admitted the order.
  have hadmits : (∃ e ∈ pre ++ [event], e.eventType = .newOrder ∧ e.orderId = X ∧ ∃ o,
      order e = .ok o) ↔
      ∃ e ∈ pre, e.eventType = .newOrder ∧ e.orderId = X ∧ ∃ o, order e = .ok o := by
    constructor
    · rintro ⟨e, he, htype, hid, ho⟩
      rcases List.mem_append.mp he with he | he
      · exact ⟨e, he, htype, hid, ho⟩
      · obtain rfl := List.mem_singleton.mp he
        exact absurd hid (hother htype)
    · rintro ⟨e, he, hnew⟩
      exact ⟨e, List.mem_append_left _ he, hnew⟩
  -- The account stays of its kind.
  have hkind : (a' = .unknown ↔ a = .unknown) ∧
      ((∃ t, a' = .admitted t) ↔ ∃ t, a = .admitted t) := by
    cases a with
    | unknown =>
      obtain ⟨-, rfl⟩ := Account.replay_unknown hreplay (entries_not_new hother)
      exact ⟨.rfl, .rfl⟩
    | refused =>
      obtain ⟨-, rfl⟩ := Account.Closed.replay (a := .refused) trivial hreplay
      exact ⟨.rfl, .rfl⟩
    | admitted t =>
      obtain ⟨t', rfl, -⟩ := Account.replay_admitted hreplay
      exact ⟨by simp, ⟨fun _ => ⟨t, rfl⟩, fun _ => ⟨t', rfl⟩⟩⟩
  refine ⟨a', hreplay, ha', ?_, ?_, fun n => ?_⟩
  · rw [hkind.1, h.unknown, hnewIds]
  · rw [hkind.2, h.admitted, hadmits]
  · rw [mem_expired_after, h.expired, Account.replay_expired_iff hreplay]

/-- The new order of an id is the first event about it, and is admitted or refused. -/
theorem Standing.own (h : Standing pre X a) (htype : event.eventType = .newOrder)
    (hid : event.orderId = X) (hfresh : X ∉ newIds pre) :
    ∃ a', a.replay X (admission event ++ (reportsOf pre event).map entry) = some a' ∧
      Standing (pre ++ [event]) X a' := by
  obtain rfl := h.unknown.mpr hfresh
  obtain ⟨a', hreplay, ha'⟩ := onEvent_tracks pre event h.tracks fun _ _ => rfl
  have hmem : X ∈ newIds (pre ++ [event]) :=
    mem_newIds.mpr ⟨event, List.mem_append_right _ List.mem_cons_self, htype, hid⟩
  -- The only new order of the id is this one.
  have hadmits : (∃ e ∈ pre ++ [event], e.eventType = .newOrder ∧ e.orderId = X ∧ ∃ o,
      order e = .ok o) ↔
      ∃ o, order event = .ok o := by
    constructor
    · rintro ⟨e, he, hetype, heid, ho⟩
      rcases List.mem_append.mp he with he | he
      · exact absurd (mem_newIds.mpr ⟨e, he, hetype, heid⟩) hfresh
      · obtain rfl := List.mem_singleton.mp he
        exact ho
    · exact fun ho => ⟨event, List.mem_append_right _ List.mem_cons_self, htype, hid, ho⟩
  have hkind : a' ≠ .unknown ∧ ((∃ t, a' = .admitted t) ↔ ∃ o, order event = .ok o) := by
    subst hid
    -- The constructor decides.
    cases hord : order event with
    | error e =>
      obtain ⟨-, rfl⟩ := replay_refused htype hord hreplay
      simp
    | ok o =>
      obtain ⟨t', rfl, -⟩ := Account.replay_admitted (replay_opened htype hord hreplay)
      exact ⟨by simp, ⟨fun _ => ⟨o, rfl⟩, fun _ => ⟨t', rfl⟩⟩⟩
  refine ⟨a', hreplay, ha', ?_, ?_, fun n => ?_⟩
  · exact ⟨fun heq => absurd heq hkind.1, fun hno => absurd hmem hno⟩
  · rw [hkind.2, hadmits]
  · rw [mem_expired_after, h.expired, Account.replay_expired_iff hreplay]

/-- One more event of a run with distinct ids. -/
theorem Standing.step (h : Standing pre X a) (hids : (newIds (pre ++ [event])).Nodup) :
    ∃ a', a.replay X (admission event ++ (reportsOf pre event).map entry) = some a' ∧
      Standing (pre ++ [event]) X a' := by
  by_cases hown : event.eventType = .newOrder ∧ event.orderId = X
  · obtain ⟨htype, hid⟩ := hown
    subst hid
    exact h.own htype rfl (newIds_fresh htype hids).1
  · exact h.other fun htype hid => hown ⟨htype, hid⟩

end Step

/-- A new order under a fresh id meets no order of its id. -/
theorem lawful_after (events : List OrderEvent) (hids : (newIds events).Nodup) :
    Lawful (after events).engine.resting (after events).engine.openOrders := by
  induction events using List.reverseRecOn with
  | nil =>
    have hnil : (after []).engine.resting = [] := rfl
    rw [hnil]
    exact fun r hr => absurd hr List.not_mem_nil
  | append_singleton pre event ih =>
    have hpre := (newIds_mono (List.prefix_append pre [event])).sublist.nodup hids
    apply (onEvent_lawful_iff (reachable_after pre) (ih hpre) (onEvent_after pre event)).mpr
    rintro htype o ho ⟨-, -, r, hr, hid, -⟩
    -- The id was never used, so nothing rests under it.
    have hfresh : o.orderID ∉ newIds pre := order_orderID ho ▸ (newIds_fresh htype hids).1
    have hsettled := (reportsFrom_unknown hfresh).1.settled_eq
    have hmem : r.toOrder.place .queue ∈ (after pre).engine.settled o.orderID :=
      mem_settled.mpr (.inl ⟨r, hr, hid, rfl⟩)
    rw [hsettled] at hmem
    simp [Account.places] at hmem

/-- A cancel that finds nothing to cancel, of an order that was sent before, comes too late. -/
theorem Standing.closed_of_failed {pre : List OrderEvent} {event : OrderEvent} {a : Account}
    (hids : (newIds pre).Nodup) (h : Standing pre event.originalOrderId a)
    (hsent : event.originalOrderId ∈ newIds pre) (hfailed : FailedCancel pre event) : a.Closed := by
  have hr := reachable_after pre
  cases a with
  | unknown => exact absurd hsent (h.unknown.mp rfl)
  | refused => trivial
  | admitted t =>
    refine ⟨h.tracks.not_working, fun hstage => ?_⟩
    -- If it waited, the registry would have it and the cancel would not fail.
    obtain ⟨r, hrest, hid, -⟩ := (h.tracks.at_resting hr.queued t.remaining).mp
      ⟨t, rfl, hstage, rfl⟩
    have hagrees := hr.registryAgrees_iff.mpr (lawful_after pre hids)
    have hdone := (hagrees.cancellable r hrest).1
    rw [hid, hfailed.2] at hdone
    simp at hdone

/-- What an event publishes: its reports, or the answer to a failed cancel. -/
theorem outbound_after (pre : List OrderEvent) (event : OrderEvent) :
    (after (pre ++ [event])).outbound = (after pre).outbound ++
      if FailedCancel pre event then [rejected event.originalOrderId] else reportsOf pre event := by
  have hcases := onEvent_cases (onEvent_after pre event)
  -- The handler only appends to what it has published.
  have happend : ∃ reports, (after (pre ++ [event])).outbound =
      (after pre).outbound ++ reports := by
    rcases hcases with ⟨-, -, hout⟩ | ⟨-, -, -, hout⟩ | ⟨-, o, -, -, hout⟩ <;> exact ⟨_, hout⟩
  obtain ⟨reports, hreports⟩ := happend
  rw [hreports]
  refine congrArg _ ?_
  by_cases hfailed : FailedCancel pre event
  · rw [if_pos hfailed]
    rcases hcases with ⟨-, -, hout⟩ | ⟨htype, -, -, -⟩ | ⟨htype, -⟩
    · rw [hfailed.2] at hout
      exact List.append_cancel_left (hreports.symm.trans hout)
    · exact absurd (htype.symm.trans hfailed.1) (by decide)
    · exact absurd (htype.symm.trans hfailed.1) (by decide)
  · rw [if_neg hfailed, reportsOf, if_neg hfailed, published_eq hreports]

/-- The handler only appends to what it has published. -/
theorem outbound_suffix (pre post : List OrderEvent) :
    ∃ reports, (after (pre ++ post)).outbound = (after pre).outbound ++ reports := by
  induction post using List.reverseRecOn with
  | nil => exact ⟨[], by rw [List.append_nil, List.append_nil]⟩
  | append_singleton post event ih =>
    obtain ⟨reports, hreports⟩ := ih
    rw [← List.append_assoc, outbound_after, hreports, List.append_assoc]
    exact ⟨_, rfl⟩

/-- A part of a run from its start has a part of the reports from their start. -/
theorem outbound_mono {pre events : List OrderEvent} (h : pre <+: events) :
    (after pre).outbound <+: (after events).outbound := by
  obtain ⟨post, rfl⟩ := h
  obtain ⟨reports, hreports⟩ := outbound_suffix pre post
  exact ⟨reports, hreports.symm⟩

/-- What an id has come to is known for each run with distinct ids. -/
theorem exists_standing {events : List OrderEvent} (hids : (newIds events).Nodup) (X : ℤ) :
    ∃ a, Standing events X a := by
  induction events using List.reverseRecOn with
  | nil => exact ⟨.unknown, standing_nil X⟩
  | append_singleton pre event ih =>
    obtain ⟨a, ha⟩ := ih ((newIds_mono (List.prefix_append pre [event])).sublist.nodup hids)
    obtain ⟨a', -, ha'⟩ := ha.step hids
    exact ⟨a', ha'⟩

/-! ## Orders that were not admitted -/

/-- The reports of two stretches of events are those of both. -/
theorem reportsFrom_append (pre events more : List OrderEvent) :
    reportsFrom pre (events ++ more) = reportsFrom pre events ++
      reportsFrom (pre ++ events) more := by
  induction events generalizing pre with
  | nil =>
    rw [List.append_nil]
    rfl
  | cons event events ih =>
    have hsplit : pre ++ event :: events = pre ++ [event] ++ events := by simp
    rw [List.cons_append, reportsFrom, reportsFrom, ih, hsplit]
    exact (List.append_assoc ..).symm

/-- What was published is a report of an event or the answer to a failed cancel. -/
theorem mem_outbound_after {events : List OrderEvent} {r : ExecutionEvent}
    (hr : r ∈ (after events).outbound) :
    r ∈ reportsFrom [] events ∨ ∃ X, r = rejected X := by
  induction events using List.reverseRecOn with
  | nil => exact absurd hr List.not_mem_nil
  | append_singleton pre event ih =>
    rw [outbound_after, List.mem_append] at hr
    rw [reportsFrom_append, List.mem_append]
    rcases hr with hr | hr
    · exact (ih hr).imp_left .inl
    · by_cases hfailed : FailedCancel pre event
      · rw [if_pos hfailed] at hr
        exact .inr ⟨_, List.mem_singleton.mp hr⟩
      · rw [if_neg hfailed] at hr
        exact .inl (.inr (List.mem_append_left _ hr))

/-- A report of an event that is not known to involve an id does not involve it. -/
theorem not_involves_of_unknown {events : List OrderEvent} {X : ℤ} (hno : X ∉ newIds events)
    {r : ExecutionEvent} (hr : r ∈ reportsFrom [] events) : ¬ r.Involves X := by
  intro hinvolves
  have hmem : r ∈ involving X (reportsFrom [] events) :=
    List.mem_filter.mpr ⟨hr, decide_eq_true hinvolves⟩
  rw [(reportsFrom_unknown hno).2] at hmem
  exact List.not_mem_nil hmem

/-- A cancel that comes before the order that it names fails. -/
theorem failed_of_unknown {pre : List OrderEvent} {cancel : OrderEvent}
    (htype : cancel.eventType = .cancelOrder) (hno : cancel.originalOrderId ∉ newIds pre) :
    FailedCancel pre cancel := by
  rcases reportsOf_cases pre cancel with ⟨-, -, hreports⟩ | ⟨hnew, -⟩ | ⟨hnew, -⟩
  · refine ⟨htype, ?_⟩
    cases hdone : ((after pre).engine.cancelOrder cancel.originalOrderId).2 with
    | false => rfl
    | true =>
      rw [if_pos hdone] at hreports
      -- Its success would be a report about an id that is not known.
      have hcancel : newIds (pre ++ [cancel]) = newIds pre := by
        rw [newIds_append]
        simp [newIds, htype]
      have hmem : cancelled cancel.originalOrderId ∈ reportsFrom [] (pre ++ [cancel]) := by
        rw [reportsFrom_append, List.nil_append, reportsFrom, hreports]
        simp
      exact absurd (.inl rfl) (not_involves_of_unknown (hcancel ▸ hno) hmem)
  · exact absurd (htype.symm.trans hnew) (by decide)
  · exact absurd (htype.symm.trans hnew) (by decide)

/-- A report about an id that is not known is the answer to a cancel, at the place in the stream
that the cancel has in the run. -/
theorem answer_of_unknown {events : List OrderEvent} {X : ℤ} (hno : X ∉ newIds events) {k : ℕ}
    {r : ExecutionEvent} (hk : (after events).outbound[k]? = some r) (hinvolves : r.Involves X) :
    r = rejected X ∧ ∃ pre cancel, pre ++ [cancel] <+: events ∧ cancel.eventType = .cancelOrder ∧
      cancel.originalOrderId = X ∧ (after pre).outbound.length = k := by
  induction events using List.reverseRecOn with
  | nil => simp [show (after []).outbound = [] from rfl] at hk
  | append_singleton pre event ih =>
    have hpre : X ∉ newIds pre := fun hmem =>
      hno ((newIds_mono (List.prefix_append ..)).subset hmem)
    rw [outbound_after] at hk
    by_cases hlt : k < (after pre).outbound.length
    · rw [List.getElem?_append_left hlt] at hk
      obtain ⟨hr, start, cancel, hstart, hcancel⟩ := ih hpre hk
      exact ⟨hr, start, cancel, hstart.trans (List.prefix_append ..), hcancel⟩
    · rw [List.getElem?_append_right (Nat.not_lt.mp hlt)] at hk
      have hmem := List.mem_of_getElem? hk
      -- The last event has published it.
      by_cases hfailed : FailedCancel pre event
      · rw [if_pos hfailed] at hk hmem
        obtain rfl := List.mem_singleton.mp hmem
        have hid : event.originalOrderId = X := by
          simpa [ExecutionEvent.Involves, rejected, ExecutionEvent.isFill] using hinvolves
        have hlast : k - (after pre).outbound.length < 1 := (List.getElem?_eq_some_iff.mp hk).1
        exact ⟨by rw [hid], pre, event, List.prefix_rfl, hfailed.1, hid, by omega⟩
      · rw [if_neg hfailed] at hmem
        refine absurd hinvolves (not_involves_of_unknown hno ?_)
        rw [reportsFrom_append, reportsFrom]
        exact List.mem_append_right _ (List.mem_append_left _ hmem)

/-- Where the constructor took no order of an id, nothing rests under the id and no fill names
it. -/
theorem idle_of_not_admitted {events : List OrderEvent} (hids : (newIds events).Nodup) {X : ℤ}
    (hrefused : ∀ event ∈ events, event.eventType = .newOrder → event.orderId = X → ∃ e,
    order event = .error e) :
    (∀ r ∈ (after events).engine.resting, r.orderID ≠ X) ∧
      ∀ r ∈ (after events).outbound, r.isFill = true → ¬ r.Involves X := by
  constructor
  · intro r hr hid
    obtain ⟨a, ha⟩ := exists_standing hids X
    have hq := (reachable_after events).queued
    obtain ⟨t, ht, -⟩ := (ha.tracks.at_resting hq r.quantity).mpr ⟨r, hr, hid, rfl⟩
    obtain ⟨event, hevent, htype, heid, o, ho⟩ := ha.admitted.mp ⟨t, ht⟩
    obtain ⟨e, he⟩ := hrefused event hevent htype heid
    simp [ho] at he
  · intro r hr hfill hinvolves
    rcases mem_outbound_after hr with hr | ⟨Y, rfl⟩
    · by_cases hmem : X ∈ newIds events
      · obtain ⟨event, hevent, htype, rfl⟩ := mem_newIds.mp hmem
        obtain ⟨e, he⟩ := hrefused event hevent htype rfl
        obtain ⟨pre, post, rfl⟩ := List.append_of_mem hevent
        obtain ⟨hpre, hpost⟩ := newIds_fresh htype hids
        obtain ⟨hunknown, hbefore⟩ := reportsFrom_unknown hpre
        obtain ⟨hown, hlater⟩ := reports_of_refused htype he hunknown hpost
        -- The one report that involves the id is the refusal, and that is no fill.
        have hinvolving : involving event.orderId (reportsFrom [] (pre ++ event :: post)) =
            [rejected event.orderId] := by
          rw [reportsFrom_append, reportsFrom, List.nil_append]
          unfold involving at hbefore hown hlater ⊢
          rw [List.filter_append, List.filter_append, hbefore, hown, hlater]
          rfl
        have hone : r ∈ involving event.orderId (reportsFrom [] (pre ++ event :: post)) :=
          List.mem_filter.mpr ⟨hr, decide_eq_true hinvolves⟩
        rw [hinvolving] at hone
        obtain rfl := List.mem_singleton.mp hone
        simp [rejected, ExecutionEvent.isFill] at hfill
      · exact not_involves_of_unknown hmem hr hinvolves
    · simp [rejected, ExecutionEvent.isFill] at hfill

/-! ## What a report does to an account -/

/-- What one report does to the account of an order: nothing where it does not involve the order,
and otherwise what its kind says. -/
inductive Moved (X : ℤ) : Account → ExecutionEvent → Account → Prop where
  | other {a : Account} {r : ExecutionEvent} : ¬ r.Involves X → Moved X a r a
  | refused : Moved X .unknown (rejected X) .refused
  | aggressor {t : Ticket} {passive tradeId price : ℤ} {m : ℕ} (hm : m ≤ t.remaining) :
    passive ≠ X → 0 < m → t.stage = .working ∨ t.stage = .resting →
    Moved X (.admitted t) (onFill X passive tradeId price m ((t.remaining - m : ℕ) : ℤ))
      (.admitted (t.execute m hm))
  | passive {t : Ticket} {aggressor tradeId price remaining : ℤ} {m : ℕ} (hm : m ≤ t.remaining) :
    aggressor ≠ X → 0 < m → t.stage = .resting →
    Moved X (.admitted t) (onFill aggressor X tradeId price m remaining)
    (.admitted (t.execute m hm))
  | accepted {t : Ticket} {price : ℤ} (hw : t.stage = .working) :
    Moved X (.admitted t) (onAccepted X price t.remaining)
      (.admitted (t.moveTo .resting (by decide) (by simp [hw])))
  | expired {t : Ticket} (hw : t.stage = .working) :
    Moved X (.admitted t) (onExpired X t.remaining)
      (.admitted (t.moveTo .expired (by decide) (by simp [hw])))
  | cancelled {t : Ticket} (hr : t.stage = .resting) :
    Moved X (.admitted t) (MatchingEngineHandler.cancelled X)
      (.admitted (t.moveTo .cancelled (by decide) (by simp [hr])))

/-- A report that says that an order was accepted is the acknowledgement of it. -/
theorem Published.accepted {r : ExecutionEvent} (h : Published r) {X : ℤ} {n : ℕ}
    (hr : r.entry = .accepted X n) : ∃ price, r = onAccepted X price n := by
  rcases h with ⟨callback, rfl⟩ | ⟨orderId, rfl⟩ | ⟨orderId, rfl⟩
  · rw [entry_report] at hr
    cases callback with
    | onAccepted orderId price q =>
      obtain ⟨rfl, rfl⟩ := Entry.accepted.inj hr
      exact ⟨price, rfl⟩
    | _ => simp [Callback.entry] at hr
  · simp [entry_cancelled] at hr
  · simp [entry_rejected] at hr

/-- A report that says that an order expired is the expiry of it. -/
theorem Published.expired {r : ExecutionEvent} (h : Published r) {X : ℤ} {n : ℕ}
    (hr : r.entry = .expired X n) : r = onExpired X n := by
  rcases h with ⟨callback, rfl⟩ | ⟨orderId, rfl⟩ | ⟨orderId, rfl⟩
  · rw [entry_report] at hr
    cases callback with
    | onExpired orderId q =>
      obtain ⟨rfl, rfl⟩ := Entry.expired.inj hr
      rfl
    | _ => simp [Callback.entry] at hr
  · simp [entry_cancelled] at hr
  · simp [entry_rejected] at hr

/-- A report that says that a request was refused is the rejection of it. -/
theorem Published.refused {r : ExecutionEvent} (h : Published r) {X : ℤ}
    (hr : r.entry = .refused X) :
    r = rejected X := by
  rcases h with ⟨callback, rfl⟩ | ⟨orderId, rfl⟩ | ⟨orderId, rfl⟩
  · rw [entry_report] at hr
    cases callback <;> simp [Callback.entry] at hr
  · simp [entry_cancelled] at hr
  · obtain rfl := Entry.refused.inj hr
    rfl

/-- A report whose entry the account takes moves it. -/
theorem Published.moved {r : ExecutionEvent} (h : Published r) {X : ℤ} {a a' : Account}
    (hpost : a.post X r.entry = some a') : Moved X a r a' := by
  rcases Account.post_cases hpost with ⟨hnames, rfl⟩ | ⟨-, q, -, he, -⟩ | ⟨rfl, he, rfl⟩ |
    ⟨hnames, t, t', rfl, ht', rfl⟩
  · exact .other fun hinvolves => hnames ((h.involves_iff X).mp hinvolves)
  · exact absurd he (entry_ne_admitted r X q)
  · rw [h.refused he]
    exact .refused
  · -- Each entry that a ticket takes tells which report made it.
    rcases Ticket.book_cases ht' with ⟨aggressor, passive, m, remaining, hmay, he, rfl⟩ |
      ⟨id, he, hw, rfl⟩ | ⟨id, he, hw, rfl⟩ | ⟨id, he, hr, rfl⟩
    · obtain ⟨tradeId, price, rfl⟩ := h.executed he
      rw [he] at hnames
      have hside := hmay.2.2
      by_cases hagg : aggressor = X
      · rw [if_pos hagg] at hside
        obtain ⟨hpassive, rfl, hstage⟩ := hside
        subst hagg
        exact .aggressor hmay.2.1 hpassive hmay.1 hstage
      · rw [if_neg hagg] at hside
        obtain rfl := hnames.resolve_left hagg
        exact .passive hmay.2.1 hagg hmay.1 hside
    · obtain rfl : id = X := by rwa [he] at hnames
      obtain ⟨price, rfl⟩ := h.accepted he
      exact .accepted hw
    · obtain rfl : id = X := by rwa [he] at hnames
      rw [h.expired he]
      exact .expired hw
    · obtain rfl : id = X := by rwa [he] at hnames
      rw [h.cancelled he]
      exact .cancelled hr

/-- No report admits an order. -/
theorem Moved.admitted {X : ℤ} {a a' : Account} {r : ExecutionEvent} (h : Moved X a r a')
    (ha' : ∃ t, a' = .admitted t) : ∃ t, a = .admitted t := by
  cases h with
  | other => exact ha'
  | refused => simp at ha'
  | _ => exact ⟨_, rfl⟩

/-- What the fills among some reports that name an order, on either side, have filled. -/
def filledOn (X : ℤ) (reports : List ExecutionEvent) : ℤ :=
  ((reports.filter fun r => r.isFill ∧ (r.aggressorOrderId = X ∨ r.passiveOrderId = X)).map
    ExecutionEvent.filledQuantity).sum

/-- What two stretches of reports filled of an order adds up. -/
theorem filledOn_append (X : ℤ) (reports reports' : List ExecutionEvent) :
    filledOn X (reports ++ reports') = filledOn X reports + filledOn X reports' := by
  rw [filledOn, List.filter_append, List.map_append, List.sum_append]
  rfl

/-- A fill of an order fills its quantity. -/
theorem filledOn_onFill {X aggressor passive : ℤ} (hnames : aggressor = X ∨ passive = X)
    (tradeId price m remaining : ℤ) :
    filledOn X [onFill aggressor passive tradeId price m remaining] = m := by
  have hfill := isFill_onFill aggressor passive tradeId price m remaining
  have hsides : (onFill aggressor passive tradeId price m remaining).aggressorOrderId = X ∨
      (onFill aggressor passive tradeId price m remaining).passiveOrderId = X := hnames
  rw [filledOn, List.filter_cons_of_pos (by simpa using ⟨hfill, hsides⟩)]
  simp [onFill]

/-- A report that does not name an order fills nothing of it. -/
theorem filledOn_of_not_involves {X : ℤ} {r : ExecutionEvent} (h : ¬ r.Involves X) :
    filledOn X [r] = 0 := by
  have hno : ¬ (r.isFill = true ∧ (r.aggressorOrderId = X ∨ r.passiveOrderId = X)) := fun hand =>
    h (.inr hand)
  rw [filledOn, List.filter_cons_of_neg (by simpa using hno)]
  rfl

/-- A report that is no fill fills nothing. -/
theorem filledOn_of_not_fill {X : ℤ} {r : ExecutionEvent} (h : r.isFill = false) :
    filledOn X [r] = 0 := by
  simp [filledOn, h]

/-- An account executes what the fills fill. -/
theorem Moved.filledOn {X : ℤ} {a a' : Account} {r : ExecutionEvent} (h : Moved X a r a') :
    (a'.executed : ℤ) = a.executed + MatchingEngineHandler.filledOn X [r] := by
  cases h with
  | other hno => rw [filledOn_of_not_involves hno, Int.add_zero]
  | refused => rfl
  | aggressor hm =>
    rw [filledOn_onFill (.inl rfl)]
    exact Int.natCast_add ..
  | passive hm =>
    rw [filledOn_onFill (.inr rfl)]
    exact Int.natCast_add ..
  | accepted | expired | cancelled =>
    rw [filledOn_of_not_fill rfl, Int.add_zero]
    rfl

end MatchingEngineHandler

end MatchingVenue
