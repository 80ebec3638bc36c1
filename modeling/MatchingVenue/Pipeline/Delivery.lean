import MatchingVenue.Library.Measure
import MatchingVenue.Pipeline.Refinement
import Mathlib.Data.Prod.Lex

/-!
# The venue delivers

The engine thread waits for room on two rings, and the gateway for room on a third, so it is not
plain that no thread ever waits for good. None does: as long as anything is left to do some thread
has a step (`Mirrors.drained_of_stuck`), and what is left to do becomes less with each step
(`Step.left`). A venue that is given no more frames comes to rest, and then all that the handler
publishes has reached every consumer (`Runs.delivers`).

The venue is shut down by halting the consumers of one ring after the other, each ring some time
after it was found without a backlog. All that was on the inbound ring when this one was found
without a backlog has reached every consumer in the end (`ShutdownRuns.lossless`).
-/

namespace MatchingVenue

open MatchingEngineHandler (after)

namespace Venue

open WebSocketPublisher (bookFrame heardFrames)

variable {inboundSize outboundSize snapshotSize : ℕ}
  {s t : Venue inboundSize outboundSize snapshotSize}
  {events : List OrderEvent} {executions : List OutboundSlot} {depths : List BookSnapshotEvent}

/-! ## What is left to do -/

/-- What is left to do: the event to publish, then the events to take, then what is to be published
of the one that was taken, then what there is for the consumers to do. -/
def left (s : Venue inboundSize outboundSize snapshotSize) : ℕ ×ₗ ℕ ×ₗ ℕ ×ₗ ℕ :=
  toLex (s.pending.toList.length,
    toLex (s.inbound.next - s.taken,
      toLex (s.reports.length + s.snapshotDue.toNat,
        s.inbound.work + s.outbound.work + s.snapshots.work)))

/-- One event less to take. -/
theorem left_lt_of_taken (hpending : t.pending = s.pending)
    (h : t.inbound.next - t.taken < s.inbound.next - s.taken) : t.left < s.left :=
  Prod.Lex.toLex_lt_toLex.mpr (.inr ⟨by rw [hpending], Prod.Lex.toLex_lt_toLex.mpr (.inl h)⟩)

/-- One report or snapshot less to publish. -/
theorem left_lt_of_publish (hpending : t.pending = s.pending)
    (htaken : t.inbound.next - t.taken = s.inbound.next - s.taken)
    (h : t.reports.length + t.snapshotDue.toNat < s.reports.length + s.snapshotDue.toNat) :
    t.left < s.left :=
  Prod.Lex.toLex_lt_toLex.mpr (.inr ⟨by rw [hpending],
    Prod.Lex.toLex_lt_toLex.mpr (.inr ⟨htaken, Prod.Lex.toLex_lt_toLex.mpr (.inl h)⟩)⟩)

/-- Less work for the consumers. -/
theorem left_lt_of_work (hpending : t.pending = s.pending)
    (htaken : t.inbound.next - t.taken = s.inbound.next - s.taken)
    (hpublish : t.reports.length + t.snapshotDue.toNat = s.reports.length + s.snapshotDue.toNat)
    (h : t.inbound.work + t.outbound.work + t.snapshots.work <
      s.inbound.work + s.outbound.work + s.snapshots.work) : t.left < s.left :=
  Prod.Lex.toLex_lt_toLex.mpr (.inr ⟨by rw [hpending], Prod.Lex.toLex_lt_toLex.mpr
    (.inr ⟨htaken, Prod.Lex.toLex_lt_toLex.mpr (.inr ⟨hpublish, h⟩)⟩)⟩)

/-- The event in hand is on the ring then. -/
theorem GatewayStep.left (h : GatewayStep s t) : t.left < s.left := by
  cases h with
  | publishEvent hpending room =>
    refine Prod.Lex.toLex_lt_toLex.mpr (.inl ?_)
    rw [hpending]
    exact Nat.one_pos

/-- A step of the engine thread leaves less to do. -/
theorem EngineStep.left (h : EngineStep s t) : t.left < s.left := by
  cases h with
  | onEvent hreports hdue hlt hevent =>
    have havailable := s.inbound.available_le ()
    refine left_lt_of_taken rfl ?_
    show s.inbound.next - ((s.inbound.handle () hlt).cursors ()).handled < _
    rw [SlotRing.handled_handle, taken]
    omega
  | publish hreports hnanos room =>
    refine left_lt_of_publish rfl rfl ?_
    rw [hreports, List.length_cons]
    exact Nat.add_lt_add_right (Nat.lt_succ_self _) _
  | publishSnapshot hreports hdue hnanos room =>
    refine left_lt_of_publish rfl rfl ?_
    rw [hdue]
    exact Nat.lt_succ_self _
  | turn hreports hdue hturn =>
    refine left_lt_of_work rfl ?_ rfl ?_
    · show _ - (SlotRing.cursors _ ()).handled = s.inbound.next - (s.inbound.cursors ()).handled
      rw [hturn.handled, hturn.next]
    · have hwork := hturn.work_lt
      exact Nat.add_lt_add_right (Nat.add_lt_add_right hwork _) _

/-- A step of a consumer of reports leaves less to do. -/
theorem OutboundStep.left (h : OutboundStep s t) : t.left < s.left := by
  have hwork : t.outbound.work < s.outbound.work := by
    cases h with
    | onExecution _ hlt => exact SlotRing.work_handle_lt hlt
    | logTrade hlt => exact SlotRing.work_handle_lt hlt
    | turn hturn => exact hturn.work_lt
  have hsame : t.pending = s.pending ∧ t.inbound = s.inbound ∧ t.reports = s.reports ∧
      t.snapshotDue = s.snapshotDue ∧ t.snapshots = s.snapshots := by
    cases h <;> exact ⟨rfl, rfl, rfl, rfl, rfl⟩
  obtain ⟨hpending, hinbound, hreports, hdue, hsnapshots⟩ := hsame
  refine left_lt_of_work hpending (by rw [taken, taken, hinbound]) (by rw [hreports, hdue]) ?_
  rw [hinbound, hsnapshots]
  omega

/-- A step of a consumer of snapshots leaves less to do. -/
theorem SnapshotStep.left (h : SnapshotStep s t) : t.left < s.left := by
  have hwork : t.snapshots.work < s.snapshots.work := by
    cases h with
    | onSnapshot hlt => exact SlotRing.work_handle_lt hlt
    | onQuote hlt => exact SlotRing.work_handle_lt hlt
    | turn hturn => exact hturn.work_lt
  have hsame : t.pending = s.pending ∧ t.inbound = s.inbound ∧ t.reports = s.reports ∧
      t.snapshotDue = s.snapshotDue ∧ t.outbound = s.outbound := by
    cases h <;> exact ⟨rfl, rfl, rfl, rfl, rfl⟩
  obtain ⟨hpending, hinbound, hreports, hdue, houtbound⟩ := hsame
  refine left_lt_of_work hpending (by rw [taken, taken, hinbound]) (by rw [hreports, hdue]) ?_
  rw [hinbound, houtbound]
  omega

/-- Every step leaves less to do. -/
theorem Step.left (h : Step s t) : t.left < s.left := by
  cases h with
  | gateway h => exact h.left
  | engine h => exact h.left
  | outbound h => exact h.left
  | snapshots h => exact h.left

/-- So the threads do not go on for ever. -/
theorem not_endless (f : ℕ → Venue inboundSize outboundSize snapshotSize) :
    ¬ ∀ i, Step (f i) (f (i + 1)) :=
  not_endless_of_measure (fun _ _ h => h.left) f

/-- And some way of going on has an end. -/
theorem exists_stuck (s : Venue inboundSize outboundSize snapshotSize) :
    ∃ t, Relation.ReflTransGen Step s t ∧ ∀ u, ¬ Step t u :=
  exists_stuck_of_measure (fun _ _ h => h.left) s

/-! ## No thread waits for good -/

/-- A thread that waits for room waits for a consumer, which has a step then. -/
theorem exists_step_of_outbound (h : ¬ s.outbound.Drained) : ∃ t, OutboundStep s t := by
  obtain ⟨k, hk⟩ := not_forall.mp h
  rcases SlotRing.exists_turn hk with hlt | ⟨r, hturn⟩
  · cases k with
    | publisher => exact ⟨_, .onExecution false hlt⟩
    | tradeLogger => exact ⟨_, .logTrade hlt⟩
  · exact ⟨_, .turn hturn⟩

/-- While a consumer has snapshots to handle, one can. -/
theorem exists_step_of_snapshots (h : ¬ s.snapshots.Drained) : ∃ t, SnapshotStep s t := by
  obtain ⟨k, hk⟩ := not_forall.mp h
  rcases SlotRing.exists_turn hk with hlt | ⟨r, hturn⟩
  · cases k with
    | publisher => exact ⟨_, .onSnapshot hlt⟩
    | marketData => exact ⟨_, .onQuote hlt⟩
  · exact ⟨_, .turn hturn⟩

/-- With room on its rings the engine thread goes on until it has let go of all events. -/
theorem Mirrors.exists_engineStep (h : s.Mirrors events executions depths)
    (houtbound : s.outbound.HasRoom) (hsnapshots : s.snapshots.HasRoom)
    (hinbound : ¬ s.inbound.Drained) : ∃ t, EngineStep s t := by
  cases hreports : s.reports with
  | cons report rest => exact ⟨_, .publish hreports (le_refl _) houtbound⟩
  | nil =>
    cases hdue : s.snapshotDue with
    | true => exact ⟨_, .publishSnapshot hreports hdue (le_refl _) hsnapshots⟩
    | false =>
      obtain ⟨k, hk⟩ := not_forall.mp hinbound
      rcases SlotRing.exists_turn hk with hlt | ⟨r, hturn⟩
      · -- The handler never throws on the engine of a run.
        have hreachable : s.engine.Reachable := by
          rw [h.engine]
          exact MatchingEngineHandler.reachable_after _
        obtain ⟨g, hevent, -⟩ :=
          MatchingEngineHandler.onEvent_total (h := { engine := s.engine }) hreachable
            (s.inbound.peek ())
        exact ⟨_, .onEvent hreports hdue hlt hevent⟩
      · exact ⟨_, .turn hreports hdue hturn⟩

/-- The engine thread has nothing in hand when it has let go of all events. -/
theorem Mirrors.handed_of_drained (h : s.Mirrors events executions depths)
    (hinbound : s.inbound.Drained) :
    s.reports = [] ∧ s.snapshotDue = false ∧ s.taken = s.inbound.next := by
  have htaken : s.taken = s.inbound.next := hinbound.handled ()
  have hdue : s.snapshotDue = false := by
    by_contra hne
    have hbusy := h.busy (Bool.eq_true_of_not_eq_false hne)
    have hreleased := hinbound ()
    omega
  refine ⟨?_, hdue, htaken⟩
  by_contra hne
  have htrue := h.due hne
  rw [hdue] at htrue
  cases htrue

/-- A venue in which no thread has a step has no event in hand and has drained its rings. -/
theorem Mirrors.drained_of_stuck (h : s.Mirrors events executions depths)
    (hstuck : ∀ t, ¬ Step s t) :
    s.pending = none ∧ s.inbound.Drained ∧ s.outbound.Drained ∧ s.snapshots.Drained := by
  have houtbound : s.outbound.Drained := by
    by_contra hne
    obtain ⟨t, ht⟩ := exists_step_of_outbound hne
    exact hstuck t (.outbound ht)
  have hsnapshots : s.snapshots.Drained := by
    by_contra hne
    obtain ⟨t, ht⟩ := exists_step_of_snapshots hne
    exact hstuck t (.snapshots ht)
  have hinbound : s.inbound.Drained := by
    by_contra hne
    obtain ⟨t, ht⟩ := h.exists_engineStep houtbound.hasRoom hsnapshots.hasRoom hne
    exact hstuck t (.engine ht)
  refine ⟨?_, hinbound, houtbound, hsnapshots⟩
  by_contra hne
  obtain ⟨event, hpending⟩ := Option.ne_none_iff_exists'.mp hne
  exact hstuck _ (.gateway (.publishEvent hpending hinbound.hasRoom))

/-! ## What has been delivered then -/

/-- All that the handler does with some events has reached the consumers: each report that found a
channel in the group is broadcast, each fill is logged, and there is a snapshot of the state after
each event, the last of which is quoted. -/
def Delivers (s : Venue inboundSize outboundSize snapshotSize) (events : List OrderEvent) : Prop :=
  s.engine = (after events).engine ∧
    ∃ (executions : List OutboundSlot) (depths : List BookSnapshotEvent),
      executions.map OutboundSlot.toExecutionEvent = (after events).outbound ∧
      s.audience.length = executions.length ∧
      s.execFrames = heardFrames executions s.audience ∧
      s.trades = executions.filter (·.isFill) ∧
      depths.length = events.length ∧
      (∀ (i : ℕ) (depth : BookSnapshotEvent), depths[i]? = some depth →
        depth.Shows (after (events.take (i + 1))).engine) ∧
      s.bookFrames = depths.map bookFrame ∧
      (events ≠ [] → Quotes s.quote (after events).engine)

/-- What was taken has been delivered when the engine thread has nothing in hand and the other two
rings are drained. -/
theorem Mirrors.all_delivered (h : s.Mirrors events executions depths) (hreports : s.reports = [])
    (hdue : s.snapshotDue = false) (houtbound : s.outbound.Drained)
    (hsnapshots : s.snapshots.Drained) :
    s.Delivers (events.take s.taken) := by
  have hpublished := h.reports
  rw [hreports, List.append_nil] at hpublished
  have hcount := h.snapshotDue
  rw [hdue] at hcount
  have hexecutions : ∀ k, executions.take (s.outbound.cursors k).handled = executions := by
    intro k
    rw [houtbound.handled k, h.outbound.next, List.take_length]
  have hdepths : ∀ k, depths.take (s.snapshots.cursors k).handled = depths := by
    intro k
    rw [hsnapshots.handled k, h.snapshots.next, List.take_length]
  have htaken := h.taken_le
  have hlength : depths.length = s.taken := hcount
  refine ⟨h.engine, executions, depths, hpublished, ?_, ?_, ?_, ?_, ?_, ?_, ?_⟩
  · rw [h.audience, houtbound.handled, h.outbound.next]
  · rw [h.execFrames, hexecutions]
  · rw [h.trades, hexecutions]
  · rw [List.length_take, hlength]
    omega
  · intro i depth hdepth
    obtain ⟨hlt, -⟩ := List.getElem?_eq_some_iff.mp hdepth
    rw [List.take_take, Nat.min_eq_left (by omega)]
    exact h.shows i depth hdepth
  · rw [h.bookFrames, hdepths]
  · intro hne
    have hpos : 0 < s.taken := by
      by_contra hzero
      rw [Nat.eq_zero_of_not_pos hzero, List.take_zero] at hne
      exact hne rfl
    rw [h.quote, hdepths, ← hlength]
    have hquotes := h.quotes (n := depths.length) (by omega) (le_refl _)
    rwa [List.take_length] at hquotes

/-- So when no thread has a step any more, everything has been taken and delivered. -/
theorem Mirrors.delivers_of_stuck (h : s.Mirrors events executions depths)
    (hstuck : ∀ t, ¬ Step s t) :
    s.taken = events.length ∧ s.Delivers events ∧ s.pending = none ∧ s.inbound.HasRoom := by
  obtain ⟨hpending, hinbound, houtbound, hsnapshots⟩ := h.drained_of_stuck hstuck
  obtain ⟨hreports, hdue, htaken⟩ := h.handed_of_drained hinbound
  rw [← h.length_of_none hpending] at htaken
  have hdelivers := h.all_delivered hreports hdue houtbound hsnapshots
  rw [htaken, List.take_length] at hdelivers
  exact ⟨htaken, hdelivers, hpending, hinbound.hasRoom⟩

/-- No thread of the venue waits for good, and nothing is lost or done twice. Given no more frames,
its threads come to rest however they are scheduled and whoever comes and goes; and when no thread
has a step any more, all that the handler does with the events that the frames come to has been
delivered, the worker thread has no event in hand, and there is room for the next one. -/
theorem Runs.delivers {start : Venue inboundSize outboundSize snapshotSize} (hstart : start.Fresh)
    {inputs : List (Option (List Byte) × ℤ)} (h : Runs start inputs s) (fresh : OrderEvent) :
    (¬ ∃ f : ℕ → Venue inboundSize outboundSize snapshotSize,
      f 0 = s ∧ ∀ i, Step (f i) (f (i + 1))) ∧
      ∀ t, Relation.ReflTransGen Step s t → (∀ u, ¬ Step t u) →
        t.Delivers (eventsOf fresh inputs) ∧ t.pending = none ∧ t.inbound.HasRoom := by
  refine ⟨fun ⟨f, _, hf⟩ => not_endless f hf, fun t hrun hstuck => ?_⟩
  have ht : Runs start inputs t :=
    steps_inv hrun (Runs start inputs) h fun _ _ hu hstep => .step hu hstep
  obtain ⟨executions, depths, hm⟩ := ht.mirrors hstart fresh
  exact (hm.delivers_of_stuck hstuck).2

/-! ## A run -/

/-- The iceberg that a fresh venue receives is delivered. -/
theorem delivers_received :
    ∃ s, Runs idle [(some OrderGateway.icebergFrame, 1)] s ∧
      (¬ ∃ f : ℕ → Venue 1 1 1, f 0 = s ∧ ∀ i, Step (f i) (f (i + 1))) ∧
      ∀ t, Relation.ReflTransGen Step s t → (∀ u, ¬ Step t u) →
        t.Delivers (eventsOf OrderGateway.idle.scratch [(some OrderGateway.icebergFrame, 1)]) ∧
          t.pending = none ∧ t.inbound.HasRoom := by
  obtain ⟨s, hs, -⟩ := exists_received
  exact ⟨s, hs, hs.delivers fresh_idle OrderGateway.idle.scratch⟩

end Venue

end MatchingVenue
