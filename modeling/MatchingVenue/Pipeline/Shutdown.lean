import MatchingVenue.Pipeline.Delivery

/-!
# The shutdown of the venue

`awaitShutdown` shuts down the inbound ring, then the snapshot ring, then the outbound ring. What is
taken from the documentation of the rings is how one is shut down: it waits until the ring has no
backlog, which is when every consumer has let go of all that was published (`SlotRing.Drained`), and
then it halts the consumers. These are two steps (`Hook`), and other threads may do something
between them. A consumer that is halted ends before it looks for more; it may be in the middle of
something then, so it is taken to go on for as long as it likes (`Teardown`), while nothing that
must happen rests on it (`Goes`).

The workers of the server are not waited for, so a frame may come in at any time, even behind the
halt. What the shutdown promises is about the events that were on the inbound ring when this ring
was found without a backlog: all that they come to has reached every consumer when the last ring is
halted (`ShutdownRuns.lossless`).
-/

namespace MatchingVenue

open MatchingEngineHandler (after)

namespace Venue

open WebSocketPublisher (bookFrame heardFrames)

variable {inboundSize outboundSize snapshotSize : ℕ}

/-! ## The steps -/

/-- How far the shutdown is: which rings were found without a backlog, and which of them are
halted. -/
inductive Shutdown where
  | serving
  | inboundDrained
  | inboundHalted
  | snapshotsDrained
  | snapshotsHalted
  | outboundDrained
  | outboundHalted
  deriving DecidableEq

/-- How many steps the shutdown has taken itself. -/
def Shutdown.stage : Shutdown → ℕ
  | .serving => 0
  | .inboundDrained => 1
  | .inboundHalted => 2
  | .snapshotsDrained => 3
  | .snapshotsHalted => 4
  | .outboundDrained => 5
  | .outboundHalted => 6

/-- A venue and its shutdown. `count` is how many events were on the inbound ring when this ring was
found without a backlog. -/
structure Closing (inboundSize outboundSize snapshotSize : ℕ) where
  venue : Venue inboundSize outboundSize snapshotSize
  phase : Shutdown := .serving
  count : ℕ := 0

/-- A step of the shutdown itself. -/
inductive Hook (x : Closing inboundSize outboundSize snapshotSize) :
    Closing inboundSize outboundSize snapshotSize → Prop where
  /-- The inbound ring has no backlog: the events that are on it are counted. -/
  | inboundDrained (hphase : x.phase = .serving) (hdrained : x.venue.inbound.Drained) :
    Hook x { x with phase := .inboundDrained, count := x.venue.inbound.next }
  /-- Its consumer is told to halt. -/
  | inboundHalted (hphase : x.phase = .inboundDrained) : Hook x { x with phase := .inboundHalted }
  /-- The snapshot ring has no backlog. -/
  | snapshotsDrained (hphase : x.phase = .inboundHalted) (hdrained : x.venue.snapshots.Drained) :
    Hook x { x with phase := .snapshotsDrained }
  /-- Its consumers are told to halt. -/
  | snapshotsHalted (hphase : x.phase = .snapshotsDrained) :
    Hook x { x with phase := .snapshotsHalted }
  /-- The outbound ring has no backlog. -/
  | outboundDrained (hphase : x.phase = .snapshotsHalted) (hdrained : x.venue.outbound.Drained) :
    Hook x { x with phase := .outboundDrained }
  /-- Its consumers are told to halt. -/
  | outboundHalted (hphase : x.phase = .outboundDrained) :
    Hook x { x with phase := .outboundHalted }

/-- A step of the venue while it is shut down. Any thread may go on, whether it is halted or not. -/
inductive Teardown (x : Closing inboundSize outboundSize snapshotSize) :
    Closing inboundSize outboundSize snapshotSize → Prop where
  /-- The shutdown takes a step. -/
  | hook {y : Closing inboundSize outboundSize snapshotSize} (h : Hook x y) : Teardown x y
  /-- A thread of the venue does. -/
  | venue {venue : Venue inboundSize outboundSize snapshotSize} (h : Step x.venue venue) :
    Teardown x { x with venue }

/-- A step that is sure to come: one of the shutdown itself, or of a thread that is not halted. -/
inductive Goes (x : Closing inboundSize outboundSize snapshotSize) :
    Closing inboundSize outboundSize snapshotSize → Prop where
  | hook {y : Closing inboundSize outboundSize snapshotSize} (h : Hook x y) : Goes x y
  /-- The engine thread goes on until it is halted. -/
  | engine {venue : Venue inboundSize outboundSize snapshotSize}
    (hrunning : x.phase.stage < Shutdown.inboundHalted.stage) (h : EngineStep x.venue venue) :
    Goes x { x with venue }
  /-- So do the consumers of the snapshots. -/
  | snapshots {venue : Venue inboundSize outboundSize snapshotSize}
    (hrunning : x.phase.stage < Shutdown.snapshotsHalted.stage) (h : SnapshotStep x.venue venue) :
    Goes x { x with venue }
  /-- And those of the reports. -/
  | outbound {venue : Venue inboundSize outboundSize snapshotSize}
    (hrunning : x.phase.stage < Shutdown.outboundHalted.stage) (h : OutboundStep x.venue venue) :
    Goes x { x with venue }

/-- The runs of a venue that is shut down at some time, with the frames that the gateway was given
before and meanwhile. -/
inductive ShutdownRuns (start : Venue inboundSize outboundSize snapshotSize) :
    List (Option (List Byte) × ℤ) → Closing inboundSize outboundSize snapshotSize → Prop where
  | start : ShutdownRuns start [] { venue := start }
  /-- A frame comes in. -/
  | frame {inputs : List (Option (List Byte) × ℤ)}
    {x : Closing inboundSize outboundSize snapshotSize} {frame : Option (List Byte)} {nanos : ℤ}
    {venue : Venue inboundSize outboundSize snapshotSize} :
    ShutdownRuns start inputs x → OnFrame frame nanos x.venue venue →
    ShutdownRuns start (inputs ++ [(frame, x.venue.clock.getAsLong nanos)]) { x with venue }
  /-- The venue or its shutdown takes a step. -/
  | step {inputs : List (Option (List Byte) × ℤ)}
    {x y : Closing inboundSize outboundSize snapshotSize} :
    ShutdownRuns start inputs x → Teardown x y → ShutdownRuns start inputs y

/-! ## What the consumers have got -/

section Handled

variable {s t : Venue inboundSize outboundSize snapshotSize}

/-- A frame gives the consumers nothing. -/
theorem OnFrame.rings {frame : Option (List Byte)} {nanos : ℤ} (h : OnFrame frame nanos s t) :
    t.outbound = s.outbound ∧ t.snapshots = s.snapshots ∧ t.taken = s.taken := by
  cases h <;> exact ⟨rfl, rfl, rfl⟩

/-- What a consumer of the outbound ring has handled stays handled. -/
theorem Step.handled_outbound (h : Step s t) (k : ExecutionConsumer) :
    (s.outbound.cursors k).handled ≤ (t.outbound.cursors k).handled := by
  cases h with
  | gateway h => cases h; exact le_refl _
  | engine h => cases h <;> exact le_refl _
  | outbound h =>
    cases h with
    | onExecution _ hlt => exact SlotRing.handled_le_handle hlt k
    | logTrade hlt => exact SlotRing.handled_le_handle hlt k
    | turn hturn => exact (hturn.handled k).ge
  | snapshots h => cases h <;> exact le_refl _

/-- So does what a consumer of the snapshot ring has handled. -/
theorem Step.handled_snapshots (h : Step s t) (k : SnapshotConsumer) :
    (s.snapshots.cursors k).handled ≤ (t.snapshots.cursors k).handled := by
  cases h with
  | gateway h => cases h; exact le_refl _
  | engine h => cases h <;> exact le_refl _
  | outbound h => cases h <;> exact le_refl _
  | snapshots h =>
    cases h with
    | onSnapshot hlt => exact SlotRing.handled_le_handle hlt k
    | onQuote hlt => exact SlotRing.handled_le_handle hlt k
    | turn hturn => exact (hturn.handled k).ge

/-- And what the engine thread has taken. -/
theorem Step.taken_le (h : Step s t) : s.taken ≤ t.taken := by
  cases h with
  | gateway h => cases h; exact le_refl _
  | engine h =>
    cases h with
    | onEvent _ _ hlt _ => exact SlotRing.handled_le_handle hlt ()
    | publish _ _ _ => exact le_refl _
    | publishSnapshot _ _ _ _ => exact le_refl _
    | turn _ _ hturn => exact (hturn.handled ()).ge
  | outbound h => cases h <;> exact le_refl _
  | snapshots h => cases h <;> exact le_refl _

end Handled

/-! ## The invariant -/

section Covers

variable {x y : Closing inboundSize outboundSize snapshotSize} {events : List OrderEvent}
  {executions : List OutboundSlot} {depths : List BookSnapshotEvent}

/-- The reports that the handler publishes for the first events. -/
def reportsOf (events : List OrderEvent) (count : ℕ) : ℕ :=
  (after (events.take count)).outbound.length

/-- What the shutdown has seen to for the events that it counted. They were taken, and all that they
come to is on the other rings, once the inbound ring was found without a backlog; and the consumers
of each of the others have handled that, once this ring was. -/
structure Covers (x : Closing inboundSize outboundSize snapshotSize) (events : List OrderEvent)
    (executions : List OutboundSlot) (depths : List BookSnapshotEvent) : Prop where
  /-- The engine thread has taken the events that were there. -/
  taken : Shutdown.inboundDrained.stage ≤ x.phase.stage → x.count ≤ x.venue.taken
  /-- Their reports are published. -/
  published : Shutdown.inboundDrained.stage ≤ x.phase.stage →
    reportsOf events x.count ≤ executions.length
  /-- So are their snapshots. -/
  shown : Shutdown.inboundDrained.stage ≤ x.phase.stage → x.count ≤ depths.length
  /-- The consumers have handled these snapshots. -/
  snapshots : Shutdown.snapshotsDrained.stage ≤ x.phase.stage →
    ∀ k, x.count ≤ (x.venue.snapshots.cursors k).handled
  /-- The consumers have handled these reports. -/
  outbound : Shutdown.outboundDrained.stage ≤ x.phase.stage →
    ∀ k, reportsOf events x.count ≤ (x.venue.outbound.cursors k).handled

/-- Before the shutdown nothing is promised. -/
theorem covers_serving (hphase : x.phase = .serving) : Covers x events executions depths := by
  constructor <;> intro hle <;> rw [hphase] at hle <;> exact absurd hle (by decide)

/-- More events do not matter to those that were counted. -/
theorem Covers.onFrame (h : Covers x events executions depths)
    (hm : x.venue.Mirrors events executions depths) (more : List OrderEvent)
    {frame : Option (List Byte)} {nanos : ℤ} {venue : Venue inboundSize outboundSize snapshotSize}
    (hframe : OnFrame frame nanos x.venue venue) :
    Covers { x with venue } (events ++ more) executions depths := by
  obtain ⟨houtbound, hsnapshots, htaken⟩ := hframe.rings
  have hsame : Shutdown.inboundDrained.stage ≤ x.phase.stage →
      reportsOf (events ++ more) x.count = reportsOf events x.count := by
    intro hle
    have hcount := (h.taken hle).trans hm.taken_le
    rw [reportsOf, List.take_append_of_le_length hcount, ← reportsOf]
  refine ⟨fun hle => ?_, fun hle => ?_, h.shown, fun hle k => ?_, fun hle k => ?_⟩
  · rw [htaken]
    exact h.taken hle
  · rw [hsame hle]
    exact h.published hle
  · rw [hsnapshots]
    exact h.snapshots hle k
  · rw [houtbound, hsame (le_trans (by decide) hle)]
    exact h.outbound hle k

/-- A step of the venue takes nothing back. -/
theorem Covers.venueStep (h : Covers x events executions depths)
    {venue : Venue inboundSize outboundSize snapshotSize} (hstep : Step x.venue venue)
    (reports : List OutboundSlot) (snapshots : List BookSnapshotEvent) :
    Covers { x with venue } events (executions ++ reports) (depths ++ snapshots) where
  taken hle := (h.taken hle).trans hstep.taken_le
  published hle := (h.published hle).trans (by rw [List.length_append]; exact Nat.le_add_right _ _)
  shown hle := (h.shown hle).trans (by rw [List.length_append]; exact Nat.le_add_right _ _)
  snapshots hle k := (h.snapshots hle k).trans (hstep.handled_snapshots k)
  outbound hle k := (h.outbound hle k).trans (hstep.handled_outbound k)

/-- A step of the shutdown finds what it waits for. -/
theorem Covers.hook (h : Covers x events executions depths)
    (hm : x.venue.Mirrors events executions depths) (hstep : Hook x y) :
    y.venue = x.venue ∧ Covers y events executions depths := by
  cases hstep with
  | inboundDrained hphase hdrained =>
    -- The engine thread has nothing in hand, so what it was given is on the other two rings.
    obtain ⟨hreports, hdue, htaken⟩ := hm.handed_of_drained hdrained
    have hpublished := congrArg List.length hm.reports
    rw [hreports, List.append_nil, List.length_map, htaken] at hpublished
    have hshown := hm.snapshotDue
    rw [hdue, htaken] at hshown
    exact ⟨rfl, fun _ => htaken.ge, fun _ => hpublished.ge, fun _ => hshown.ge,
      fun hle => absurd (show 3 ≤ 1 from hle) (by decide),
      fun hle => absurd (show 5 ≤ 1 from hle) (by decide)⟩
  | inboundHalted hphase =>
    have hdone : Shutdown.inboundDrained.stage ≤ x.phase.stage := by rw [hphase]
    exact ⟨rfl, fun _ => h.taken hdone, fun _ => h.published hdone, fun _ => h.shown hdone,
      fun hle => absurd (show 3 ≤ 2 from hle) (by decide),
      fun hle => absurd (show 5 ≤ 2 from hle) (by decide)⟩
  | snapshotsDrained hphase hdrained =>
    have hdone : Shutdown.inboundDrained.stage ≤ x.phase.stage := by
      rw [hphase]
      decide
    refine ⟨rfl, fun _ => h.taken hdone, fun _ => h.published hdone, fun _ => h.shown hdone,
      fun _ k => ?_, fun hle => absurd (show 5 ≤ 3 from hle) (by decide)⟩
    show x.count ≤ (x.venue.snapshots.cursors k).handled
    rw [hdrained.handled k, hm.snapshots.next]
    exact h.shown hdone
  | snapshotsHalted hphase =>
    have hdone : Shutdown.snapshotsDrained.stage ≤ x.phase.stage := by rw [hphase]
    have hfirst : Shutdown.inboundDrained.stage ≤ x.phase.stage := le_trans (by decide) hdone
    exact ⟨rfl, fun _ => h.taken hfirst, fun _ => h.published hfirst, fun _ => h.shown hfirst,
      fun _ => h.snapshots hdone, fun hle => absurd (show 5 ≤ 4 from hle) (by decide)⟩
  | outboundDrained hphase hdrained =>
    have hdone : Shutdown.snapshotsDrained.stage ≤ x.phase.stage := by
      rw [hphase]
      decide
    have hfirst : Shutdown.inboundDrained.stage ≤ x.phase.stage := le_trans (by decide) hdone
    refine ⟨rfl, fun _ => h.taken hfirst, fun _ => h.published hfirst, fun _ => h.shown hfirst,
      fun _ => h.snapshots hdone, fun _ k => ?_⟩
    show reportsOf events x.count ≤ (x.venue.outbound.cursors k).handled
    rw [hdrained.handled k, hm.outbound.next]
    exact h.published hfirst
  | outboundHalted hphase =>
    have hdone : Shutdown.outboundDrained.stage ≤ x.phase.stage := by rw [hphase]
    have hsecond : Shutdown.snapshotsDrained.stage ≤ x.phase.stage := le_trans (by decide) hdone
    have hfirst : Shutdown.inboundDrained.stage ≤ x.phase.stage := le_trans (by decide) hdone
    exact ⟨rfl, fun _ => h.taken hfirst, fun _ => h.published hfirst, fun _ => h.shown hfirst,
      fun _ => h.snapshots hsecond, fun _ => h.outbound hdone⟩

end Covers

/-- What holds of every state of a shutdown. By induction on the run, as each step keeps it. -/
theorem ShutdownRuns.covers {start : Venue inboundSize outboundSize snapshotSize}
    (hstart : start.Fresh) {inputs : List (Option (List Byte) × ℤ)}
    {x : Closing inboundSize outboundSize snapshotSize} (h : ShutdownRuns start inputs x)
    (fresh : OrderEvent) :
    ∃ executions depths, x.venue.Mirrors (eventsOf fresh inputs) executions depths ∧
      Covers x (eventsOf fresh inputs) executions depths := by
  induction h with
  | start => exact ⟨[], [], hstart.mirrors, covers_serving rfl⟩
  | @frame inputs x frame nanos venue _ hframe ih =>
    obtain ⟨executions, depths, hm, hcovers⟩ := ih
    rw [eventsOf_append, eventsOf_singleton]
    exact ⟨executions, depths, hm.onFrame fresh hframe, hcovers.onFrame hm _ hframe⟩
  | step _ hstep ih =>
    obtain ⟨executions, depths, hm, hcovers⟩ := ih
    cases hstep with
    | hook hhook =>
      obtain ⟨hvenue, hnext⟩ := hcovers.hook hm hhook
      exact ⟨executions, depths, hvenue ▸ hm, hnext⟩
    | venue hvenue =>
      obtain ⟨reports, snapshots, -, hnext⟩ := hm.step hvenue
      exact ⟨_, _, hnext, hcovers.venueStep hvenue reports snapshots⟩

/-! ## The end of the shutdown -/

section End

variable {x y : Closing inboundSize outboundSize snapshotSize}

/-- What there is to go for a shutdown, and then for the venue. -/
def Closing.left (x : Closing inboundSize outboundSize snapshotSize) :
    ℕ ×ₗ ℕ ×ₗ ℕ ×ₗ ℕ ×ₗ ℕ :=
  toLex (Shutdown.outboundHalted.stage - x.phase.stage, x.venue.left)

/-- A step of the shutdown brings it on. -/
theorem Hook.stage (h : Hook x y) : y.phase.stage = x.phase.stage + 1 := by
  cases h with
  | inboundDrained hphase => rw [hphase]; rfl
  | inboundHalted hphase => rw [hphase]; rfl
  | snapshotsDrained hphase => rw [hphase]; rfl
  | snapshotsHalted hphase => rw [hphase]; rfl
  | outboundDrained hphase => rw [hphase]; rfl
  | outboundHalted hphase => rw [hphase]; rfl

/-- No stage is behind the last. -/
theorem Shutdown.stage_le (phase : Shutdown) : phase.stage ≤ Shutdown.outboundHalted.stage := by
  cases phase <;> decide

/-- So it has less to go. -/
theorem Hook.left (h : Hook x y) : y.left < x.left := by
  have hstage := h.stage
  have hle := y.phase.stage_le
  refine Prod.Lex.toLex_lt_toLex.mpr (.inl ?_)
  show Shutdown.outboundHalted.stage - y.phase.stage < Shutdown.outboundHalted.stage - x.phase.stage
  omega

/-- Every step leaves less to do. -/
theorem Teardown.left (h : Teardown x y) : y.left < x.left := by
  cases h with
  | hook h => exact h.left
  | venue h => exact Prod.Lex.toLex_lt_toLex.mpr (.inr ⟨rfl, h.left⟩)

/-- So the shutdown does not go on for ever. -/
theorem not_endless_teardown (f : ℕ → Closing inboundSize outboundSize snapshotSize) :
    ¬ ∀ i, Teardown (f i) (f (i + 1)) :=
  not_endless_of_measure (fun _ _ h => h.left) f

/-- What is sure to come is part of a shutdown. -/
theorem Goes.teardown (h : Goes x y) : Teardown x y := by
  cases h with
  | hook h => exact .hook h
  | engine _ h => exact .venue (.engine h)
  | snapshots _ h => exact .venue (.snapshots h)
  | outbound _ h => exact .venue (.outbound h)

/-- Something is sure to come until the last ring is halted. -/
theorem outboundHalted_of_stuck {events : List OrderEvent} {executions : List OutboundSlot}
    {depths : List BookSnapshotEvent} (hm : x.venue.Mirrors events executions depths)
    (hstuck : ∀ y, ¬ Goes x y) : x.phase = .outboundHalted := by
  cases hphase : x.phase with
  | serving =>
    have houtbound : x.venue.outbound.Drained := by
      by_contra hne
      obtain ⟨t, ht⟩ := exists_step_of_outbound hne
      exact hstuck _ (.outbound (by rw [hphase]; decide) ht)
    have hsnapshots : x.venue.snapshots.Drained := by
      by_contra hne
      obtain ⟨t, ht⟩ := exists_step_of_snapshots hne
      exact hstuck _ (.snapshots (by rw [hphase]; decide) ht)
    -- With both rings behind it drained the engine thread is never held up.
    by_cases hinbound : x.venue.inbound.Drained
    · exact absurd (.hook (.inboundDrained hphase hinbound)) (hstuck _)
    · obtain ⟨t, ht⟩ := hm.exists_engineStep houtbound.hasRoom hsnapshots.hasRoom hinbound
      exact absurd (.engine (by rw [hphase]; decide) ht) (hstuck _)
  | inboundDrained => exact absurd (.hook (.inboundHalted hphase)) (hstuck _)
  | inboundHalted =>
    by_cases hdrained : x.venue.snapshots.Drained
    · exact absurd (.hook (.snapshotsDrained hphase hdrained)) (hstuck _)
    · obtain ⟨t, ht⟩ := exists_step_of_snapshots hdrained
      exact absurd (.snapshots (by rw [hphase]; decide) ht) (hstuck _)
  | snapshotsDrained => exact absurd (.hook (.snapshotsHalted hphase)) (hstuck _)
  | snapshotsHalted =>
    by_cases hdrained : x.venue.outbound.Drained
    · exact absurd (.hook (.outboundDrained hphase hdrained)) (hstuck _)
    · obtain ⟨t, ht⟩ := exists_step_of_outbound hdrained
      exact absurd (.outbound (by rw [hphase]; decide) ht) (hstuck _)
  | outboundDrained => exact absurd (.hook (.outboundHalted hphase)) (hstuck _)
  | outboundHalted => rfl

end End

/-- All that the handler does with the first of some events has reached the consumers, and whatever
they got besides is what it does with more of them: each of their reports that found a channel in
the group is broadcast, each of their fills is logged, the frame of a snapshot of the state after
each of them is published, and the quote is about such a state or a later one. -/
def DeliversFirst (s : Venue inboundSize outboundSize snapshotSize) (events : List OrderEvent)
    (count : ℕ) : Prop :=
  ∃ (m : ℕ) (executions : List OutboundSlot) (depths : List BookSnapshotEvent),
    count ≤ m ∧ m ≤ events.length ∧ s.engine = (after (events.take m)).engine ∧
    executions.map OutboundSlot.toExecutionEvent <+: (after (events.take m)).outbound ∧
    (∃ i, reportsOf events count ≤ i ∧ i ≤ executions.length ∧ s.audience.length = i ∧
      s.execFrames = heardFrames (executions.take i) s.audience) ∧
    (∃ j, reportsOf events count ≤ j ∧ j ≤ executions.length ∧
      s.trades = (executions.take j).filter (·.isFill)) ∧
    (∀ (i : ℕ) (depth : BookSnapshotEvent), depths[i]? = some depth →
      depth.Shows (after (events.take (i + 1))).engine) ∧
    (∃ k, count ≤ k ∧ k ≤ depths.length ∧ s.bookFrames = (depths.take k).map bookFrame) ∧
    (0 < count → ∃ l, count ≤ l ∧ l ≤ m ∧ Quotes s.quote (after (events.take l)).engine)

/-- What the shutdown has seen to in the end. -/
theorem Covers.deliversFirst {x : Closing inboundSize outboundSize snapshotSize}
    {events : List OrderEvent} {executions : List OutboundSlot} {depths : List BookSnapshotEvent}
    (h : Covers x events executions depths) (hm : x.venue.Mirrors events executions depths)
    (hphase : x.phase = .outboundHalted) : x.venue.DeliversFirst events x.count := by
  have hlast : Shutdown.outboundDrained.stage ≤ x.phase.stage := by
    rw [hphase]
    decide
  have hsecond : Shutdown.snapshotsDrained.stage ≤ x.phase.stage := le_trans (by decide) hlast
  have hfirst : Shutdown.inboundDrained.stage ≤ x.phase.stage := le_trans (by decide) hlast
  refine ⟨x.venue.taken, executions, depths, h.taken hfirst, hm.taken_le, hm.engine,
    ⟨_, hm.reports⟩, ⟨_, h.outbound hlast .publisher, hm.outbound.handled_le .publisher,
      hm.audience, hm.execFrames⟩, ⟨_, h.outbound hlast .tradeLogger,
      hm.outbound.handled_le .tradeLogger, hm.trades⟩, hm.shows, ⟨_, h.snapshots hsecond .publisher,
      hm.snapshots.handled_le .publisher, hm.bookFrames⟩, fun hpos => ?_⟩
  have hquoted := h.snapshots hsecond .marketData
  have hhandled := hm.snapshots.handled_le .marketData
  refine ⟨_, hquoted, hhandled.trans hm.depths_le, ?_⟩
  rw [hm.quote]
  exact hm.quotes (lt_of_lt_of_le hpos hquoted) hhandled

/-- The shutdown loses nothing that was on the inbound ring when this ring was found without a
backlog, however late other frames come in. Once no more frames come in it does not go on for ever,
and what is sure to come does not end before all rings are halted. -/
theorem ShutdownRuns.lossless {start : Venue inboundSize outboundSize snapshotSize}
    (hstart : start.Fresh) {inputs : List (Option (List Byte) × ℤ)}
    {x : Closing inboundSize outboundSize snapshotSize} (h : ShutdownRuns start inputs x)
    (fresh : OrderEvent) :
    (x.phase = .outboundHalted → x.venue.DeliversFirst (eventsOf fresh inputs) x.count) ∧
      ((∀ y, ¬ Goes x y) → x.phase = .outboundHalted) ∧
      ¬ ∃ f : ℕ → Closing inboundSize outboundSize snapshotSize,
        f 0 = x ∧ ∀ i, Teardown (f i) (f (i + 1)) := by
  obtain ⟨executions, depths, hm, hcovers⟩ := h.covers hstart fresh
  exact ⟨hcovers.deliversFirst hm, outboundHalted_of_stuck hm,
    fun ⟨f, _, hf⟩ => not_endless_teardown f hf⟩

/-! ## A run -/

/-- The iceberg that a fresh venue receives is not lost in a shutdown. -/
theorem lossless_received :
    ∃ x : Closing 1 1 1, ShutdownRuns idle [(some OrderGateway.icebergFrame, 1)] x ∧
      x.phase = .outboundHalted ∧ x.count = 1 ∧
      (x.phase = .outboundHalted → x.venue.DeliversFirst
        (eventsOf OrderGateway.idle.scratch [(some OrderGateway.icebergFrame, 1)]) x.count) ∧
      ((∀ y, ¬ Goes x y) → x.phase = .outboundHalted) ∧
      ¬ ∃ f : ℕ → Closing 1 1 1, f 0 = x ∧ ∀ i, Teardown (f i) (f (i + 1)) := by
  obtain ⟨s, hframe, -⟩ := exists_stamped
  obtain ⟨t, hsteps, hstuck⟩ := exists_stuck s
  have hserving : ShutdownRuns idle [(some OrderGateway.icebergFrame, 1)] { venue := t } := by
    have hserved : ShutdownRuns idle [] { venue := idle } := .start
    have hreceived := hserved.frame hframe
    exact steps_inv hsteps (fun v => ShutdownRuns idle _ { venue := v }) hreceived
      fun _ _ hu hstep => .step hu (.venue hstep)
  obtain ⟨executions, depths, hm, -⟩ := hserving.covers fresh_idle OrderGateway.idle.scratch
  obtain ⟨hpending, hinbound, houtbound, hsnapshots⟩ := hm.drained_of_stuck hstuck
  -- Nothing is left to do when it is shut down.
  have hrun := (((((hserving.step (.hook (.inboundDrained rfl hinbound))).step
    (.hook (.inboundHalted rfl))).step (.hook (.snapshotsDrained rfl hsnapshots))).step
    (.hook (.snapshotsHalted rfl))).step (.hook (.outboundDrained rfl houtbound))).step
    (.hook (.outboundHalted rfl))
  have hcount : t.inbound.next = 1 := by
    rw [← hm.length_of_none hpending]
    decide +kernel
  exact ⟨_, hrun, rfl, hcount, hrun.lossless fresh_idle OrderGateway.idle.scratch⟩

end Venue

end MatchingVenue
