import MatchingVenue.Pipeline.Refinement

/-!
# The stamps of the venue

All stamps come from one clock, which carries the wall-clock time at its construction on by a source
of nanoseconds. As long as the sums of the clock fit a `long`, it is affine
(`EpochNanoClock.getAsLong_of_fits`). So the stamps of each ring never go back, an order is stamped
before all that it leads to, and its reports before the snapshot behind them
(`Runs.chronological_stamps`).

An event is stamped before the worker thread waits for room on its ring, so reports and snapshots of
earlier events may be stamped between that and its publication. What is stated is about the events
that were received, the one in hand among them.
-/

namespace MatchingVenue

open MatchingEngineHandler (after)

namespace EpochNanoClock

/-- A reading of the source whose stamp is computed without overflow. -/
structure Fits (clock : EpochNanoClock) (nanos : ℤ) : Prop where
  /-- The time is not before the anchor. -/
  anchored : clock.anchorNanos ≤ nanos
  /-- The anchor is a `long` after the epoch. -/
  epoch : -2^63 ≤ clock.anchorEpochNanos
  /-- What has passed since the anchor is a `long`. -/
  elapsed : nanos - clock.anchorNanos ≤ longMax
  /-- The sum of both is a `long`. -/
  stamp : clock.anchorEpochNanos + (nanos - clock.anchorNanos) ≤ longMax

variable {clock : EpochNanoClock} {nanos earlier : ℤ}

/-- So does every earlier reading since the construction. -/
theorem Fits.mono (h : clock.Fits nanos) (hanchored : clock.anchorNanos ≤ earlier)
    (hle : earlier ≤ nanos) :
    clock.Fits earlier where
  anchored := hanchored
  epoch := h.epoch
  elapsed := by
    have helapsed := h.elapsed
    omega
  stamp := by
    have hstamp := h.stamp
    omega

/-- The stamp is the reading, moved to the epoch. -/
theorem getAsLong_of_fits (h : clock.Fits nanos) :
    clock.getAsLong nanos = clock.anchorEpochNanos + (nanos - clock.anchorNanos) := by
  have hanchored := h.anchored
  have hepoch := h.epoch
  have helapsed : toLong (nanos - clock.anchorNanos) = nanos - clock.anchorNanos :=
    toLong_of_le (by omega) h.elapsed
  rw [getAsLong, helapsed]
  exact toLong_of_fits (by omega) h.stamp

/-- Later readings have later stamps. -/
theorem getAsLong_mono (h : clock.Fits nanos) (hanchored : clock.anchorNanos ≤ earlier)
    (hle : earlier ≤ nanos) :
    clock.getAsLong earlier ≤ clock.getAsLong nanos := by
  rw [getAsLong_of_fits h, getAsLong_of_fits (h.mono hanchored hle)]
  omega

end EpochNanoClock

namespace Venue

variable {inboundSize outboundSize snapshotSize : ℕ}

/-- The stamps of the events, of the reports and of the snapshots never go back. An event is stamped
no later than any report from its own on and than its snapshot, and that snapshot no earlier than
any report up to its own. -/
structure Chronological (events : List OrderEvent) (executions : List OutboundSlot)
    (depths : List BookSnapshotEvent) :
    Prop where
  /-- The stamps of the events do not go back. -/
  received : (events.map OrderEvent.timestamp).Pairwise (· ≤ ·)
  /-- The stamps of the reports do not go back. -/
  reported : (executions.map OutboundSlot.timestamp).Pairwise (· ≤ ·)
  /-- The stamps of the snapshots do not go back. -/
  shown : (depths.map BookSnapshotEvent.timestamp).Pairwise (· ≤ ·)
  /-- A report from an event on is not stamped before the event. -/
  answered : ∀ (i j : ℕ) (event : OrderEvent) (x : OutboundSlot), events[i]? = some event →
    executions[j]? = some x →
    (after (events.take i)).outbound.length ≤ j → event.timestamp ≤ x.timestamp
  /-- The snapshot of an event is not stamped before the event. -/
  closed : ∀ (i : ℕ) (event : OrderEvent) (d : BookSnapshotEvent), events[i]? = some event →
    depths[i]? = some d →
    event.timestamp ≤ d.timestamp
  /-- A snapshot is not stamped before the reports up to its event. -/
  settled : ∀ (i j : ℕ) (d : BookSnapshotEvent) (x : OutboundSlot), depths[i]? = some d →
    executions[j]? = some x →
    j < (after (events.take (i + 1))).outbound.length → x.timestamp ≤ d.timestamp

/-- No stamp is later than some time. -/
structure Until (now : ℤ) (events : List OrderEvent) (executions : List OutboundSlot)
    (depths : List BookSnapshotEvent) : Prop where
  events : ∀ event ∈ events, event.timestamp ≤ now
  executions : ∀ x ∈ executions, x.timestamp ≤ now
  depths : ∀ d ∈ depths, d.timestamp ≤ now

section Steps

variable {s t : Venue inboundSize outboundSize snapshotSize} {events : List OrderEvent}
  {executions : List OutboundSlot} {depths : List BookSnapshotEvent}

/-- What is no later than a time is no later than a later one. -/
theorem Until.mono {now later : ℤ} (h : Until now events executions depths) (hle : now ≤ later) :
    Until later events executions depths where
  events event hevent := (h.events event hevent).trans hle
  executions x hx := (h.executions x hx).trans hle
  depths d hd := (h.depths d hd).trans hle

/-- One more stamp, no earlier than the ones before it. -/
theorem pairwise_concat {stamps : List ℤ} (h : stamps.Pairwise (· ≤ ·)) {now : ℤ}
    (hle : ∀ stamp ∈ stamps, stamp ≤ now) :
    (stamps ++ [now]).Pairwise (· ≤ ·) := by
  refine List.pairwise_append.mpr ⟨h, List.pairwise_singleton _ now,
    fun stamp hstamp last hlast => ?_⟩
  rw [List.mem_singleton.mp hlast]
  exact hle stamp hstamp

/-- What is there at an index of a list with one more entry. -/
theorem getElem?_concat_cases {α : Type} {xs : List α} {x y : α} {i : ℕ}
    (h : (xs ++ [x])[i]? = some y) :
    xs[i]? = some y ∨ i = xs.length ∧ y = x := by
  rcases Nat.lt_trichotomy i xs.length with hlt | rfl | hgt
  · left
    rwa [List.getElem?_append_left hlt] at h
  · right
    rw [List.getElem?_concat_length] at h
    exact ⟨rfl, (Option.some.inj h).symm⟩
  · have hnone : (xs ++ [x])[i]? = none := by
      rw [List.getElem?_eq_none_iff, List.length_append, List.length_singleton]
      omega
    rw [hnone] at h
    cases h

/-- All that was published so far was published for the events taken so far. -/
theorem Mirrors.executions_le (h : s.Mirrors events executions depths) {i : ℕ} (hi : s.taken ≤ i) :
    executions.length ≤ (after (events.take i)).outbound.length := by
  have hlength := congrArg List.length h.reports
  rw [List.length_append, List.length_map] at hlength
  have hprefix : events.take s.taken <+: events.take i := List.take_prefix_take_left hi
  have hle := (MatchingEngineHandler.outbound_mono hprefix).length_le
  omega

/-- An event that comes in has led to nothing yet. -/
theorem Chronological.receive (h : Chronological events executions depths)
    (hm : s.Mirrors events executions depths) {event : OrderEvent}
    (huntil : Until event.timestamp events executions depths) :
    Chronological (events ++ [event]) executions depths where
  received := by
    rw [List.map_append, List.map_singleton]
    exact pairwise_concat h.received fun stamp hstamp => by
      obtain ⟨e, he, rfl⟩ := List.mem_map.mp hstamp
      exact huntil.events e he
  reported := h.reported
  shown := h.shown
  answered i j e x he hx hj := by
    have hlt : j < executions.length := (List.getElem?_eq_some_iff.mp hx).1
    rcases getElem?_concat_cases he with hold | ⟨rfl, rfl⟩
    · have hi : i < events.length := (List.getElem?_eq_some_iff.mp hold).1
      rw [List.take_append_of_le_length hi.le] at hj
      exact h.answered i j e x hold hx hj
    · rw [List.take_append_of_le_length (le_refl _)] at hj
      have hle := hm.executions_le hm.taken_le
      omega
  closed i e d he hd := by
    have hlt : i < depths.length := (List.getElem?_eq_some_iff.mp hd).1
    have hle := hm.depths_le.trans hm.taken_le
    rcases getElem?_concat_cases he with hold | ⟨rfl, rfl⟩
    · exact h.closed i e d hold hd
    · omega
  settled i j d x hd hx hj := by
    have hlt : i < depths.length := (List.getElem?_eq_some_iff.mp hd).1
    have hle := hm.depths_le.trans hm.taken_le
    rw [List.take_append_of_le_length (by omega)] at hj
    exact h.settled i j d x hd hx hj

/-- A report comes behind the snapshots of the events before its own. -/
theorem Chronological.report (h : Chronological events executions depths)
    (hm : s.Mirrors events executions depths) {x : OutboundSlot}
    (huntil : Until x.timestamp events executions depths) :
    Chronological events (executions ++ [x]) depths where
  received := h.received
  reported := by
    rw [List.map_append, List.map_singleton]
    exact pairwise_concat h.reported fun stamp hstamp => by
      obtain ⟨y, hy, rfl⟩ := List.mem_map.mp hstamp
      exact huntil.executions y hy
  shown := h.shown
  answered i j event y hevent hy hj := by
    rcases getElem?_concat_cases hy with hold | ⟨rfl, rfl⟩
    · exact h.answered i j event y hevent hold hj
    · exact huntil.events event (List.mem_of_getElem? hevent)
  closed := h.closed
  settled i j d y hd hy hj := by
    rcases getElem?_concat_cases hy with hold | ⟨rfl, rfl⟩
    · exact h.settled i j d y hd hold hj
    · -- The reports of the events that have a snapshot are all there.
      have hlt : i < depths.length := (List.getElem?_eq_some_iff.mp hd).1
      have hprefix : events.take (i + 1) <+: events.take depths.length :=
        List.take_prefix_take_left hlt
      have hle := (MatchingEngineHandler.outbound_mono hprefix).length_le
      have hpublished := hm.published
      omega

/-- A snapshot that is stamped last keeps the stamps in order. -/
theorem Chronological.show (h : Chronological events executions depths) {d : BookSnapshotEvent}
    (huntil : Until d.timestamp events executions depths) :
    Chronological events executions (depths ++ [d]) where
  received := h.received
  reported := h.reported
  shown := by
    rw [List.map_append, List.map_singleton]
    exact pairwise_concat h.shown fun stamp hstamp => by
      obtain ⟨y, hy, rfl⟩ := List.mem_map.mp hstamp
      exact huntil.depths y hy
  answered := h.answered
  closed i event y hevent hy := by
    rcases getElem?_concat_cases hy with hold | ⟨rfl, rfl⟩
    · exact h.closed i event y hevent hold
    · exact huntil.events event (List.mem_of_getElem? hevent)
  settled i j y x hy hx hj := by
    rcases getElem?_concat_cases hy with hold | ⟨rfl, rfl⟩
    · exact h.settled i j y x hold hx hj
    · exact huntil.executions x (List.mem_of_getElem? hx)

/-- What is known of the stamps in a state of a run whose last reading fits. -/
structure Stamped (s : Venue inboundSize outboundSize snapshotSize) (events : List OrderEvent)
    (executions : List OutboundSlot) (depths : List BookSnapshotEvent) : Prop where
  /-- The stamps are in order. -/
  chronological : Chronological events executions depths
  /-- No stamp is later than the time. -/
  until_now : Until (s.clock.getAsLong s.nanos) events executions depths

/-- A frame that the gateway takes keeps the stamps in order. -/
theorem Stamped.onFrame (h : s.Stamped events executions depths)
    (hm : s.Mirrors events executions depths) (fresh : OrderEvent) {frame : Option (List Byte)}
    {nanos : ℤ} (hframe : OnFrame frame nanos s t) (hanchored : s.clock.anchorNanos ≤ s.nanos)
    (hfits : t.clock.Fits t.nanos) :
    t.Stamped (events ++ (Inbound.publishedOf fresh (frame, s.clock.getAsLong nanos)).toList)
      executions depths := by
  cases hframe with
  | @dropped gateway hpending hgateway =>
    obtain ⟨g, hevent⟩ := OrderGateway.exists_onFrame s.gateway fresh frame
      (s.clock.getAsLong nanos)
    obtain ⟨-, hnone⟩ := Prod.mk.inj (Except.ok.inj (hgateway.symm.trans hevent))
    rw [← hnone, Option.toList_none, List.append_nil]
    exact { h with }
  | @stamped gateway event hpending hgateway hnanos =>
    obtain ⟨g, hevent⟩ := OrderGateway.exists_onFrame s.gateway fresh frame
      (s.clock.getAsLong nanos)
    obtain ⟨-, hsome⟩ := Prod.mk.inj (Except.ok.inj (hgateway.symm.trans hevent))
    -- The event is stamped at the reading.
    have hstamp : event.timestamp = s.clock.getAsLong nanos := by
      obtain ⟨contents, -, hcontents⟩ := Option.map_eq_some_iff.mp hsome.symm
      rw [← hcontents]
      rfl
    have huntil : Until event.timestamp events executions depths := by
      rw [hstamp]
      exact h.until_now.mono (EpochNanoClock.getAsLong_mono hfits hanchored hnanos)
    rw [← hsome, Option.toList_some]
    refine ⟨h.chronological.receive hm huntil, ⟨fun e he => ?_, ?_, ?_⟩⟩
    · rcases List.mem_append.mp he with hold | hnew
      · exact (huntil.events e hold).trans_eq hstamp
      · rw [List.mem_singleton.mp hnew]
        exact hstamp.le
    · exact fun x hx => (huntil.executions x hx).trans_eq hstamp
    · exact fun d hd => (huntil.depths d hd).trans_eq hstamp

/-- A step of the venue keeps the stamps in order. -/
theorem Stamped.step (h : s.Stamped events executions depths)
    (hm : s.Mirrors events executions depths) {reports : List OutboundSlot}
    {snapshots : List BookSnapshotEvent} (hlogs : Logs s t reports snapshots)
    (hclock : t.clock = s.clock) (hanchored : s.clock.anchorNanos ≤ s.nanos)
    (hfits : t.clock.Fits t.nanos) :
    t.Stamped events (executions ++ reports) (depths ++ snapshots) := by
  rw [hclock] at hfits
  cases hlogs with
  | nothing hnanos =>
    rw [List.append_nil, List.append_nil]
    refine ⟨h.chronological, ?_⟩
    rw [hclock, hnanos]
    exact h.until_now
  | @execution x hnanos hstamp =>
    have huntil : Until x.timestamp events executions depths := by
      rw [hstamp]
      exact h.until_now.mono (EpochNanoClock.getAsLong_mono hfits hanchored hnanos)
    rw [List.append_nil]
    refine ⟨h.chronological.report hm huntil, ?_⟩
    rw [hclock, ← hstamp]
    refine ⟨huntil.events, fun y hy => ?_, huntil.depths⟩
    rcases List.mem_append.mp hy with hold | hnew
    · exact huntil.executions y hold
    · rw [List.mem_singleton.mp hnew]
  | @depth d hnanos hstamp =>
    have huntil : Until d.timestamp events executions depths := by
      rw [hstamp]
      exact h.until_now.mono (EpochNanoClock.getAsLong_mono hfits hanchored hnanos)
    rw [List.append_nil]
    refine ⟨h.chronological.show huntil, ?_⟩
    rw [hclock, ← hstamp]
    refine ⟨huntil.events, huntil.executions, fun y hy => ?_⟩
    rcases List.mem_append.mp hy with hold | hnew
    · exact huntil.depths y hold
    · rw [List.mem_singleton.mp hnew]

/-- No step sets the clock, and none goes back in time. -/
theorem Step.clock (h : Step s t) : t.clock = s.clock := by
  cases h with
  | gateway h => cases h; rfl
  | engine h => cases h <;> rfl
  | outbound h => cases h <;> rfl
  | snapshots h => cases h <;> rfl

/-- The gateway leaves the anchor of the clock. -/
theorem OnFrame.clock {frame : Option (List Byte)} {nanos : ℤ} (h : OnFrame frame nanos s t) :
    t.clock = s.clock := by
  cases h <;> rfl

/-- A step does not turn the time back. -/
theorem Step.nanos (h : Step s t) : s.nanos ≤ t.nanos := by
  cases h with
  | gateway h =>
    cases h
    exact le_refl _
  | engine h =>
    cases h with
    | onEvent => exact le_refl _
    | publish _ hnanos _ => exact hnanos
    | publishSnapshot _ _ hnanos _ => exact hnanos
    | turn => exact le_refl _
  | outbound h => cases h <;> exact le_refl _
  | snapshots h => cases h <;> exact le_refl _

/-- The gateway does not turn the time back. -/
theorem OnFrame.nanos {frame : Option (List Byte)} {nanos : ℤ} (h : OnFrame frame nanos s t) :
    s.nanos ≤ t.nanos := by
  cases h with
  | dropped => exact le_refl _
  | stamped _ _ hnanos => exact hnanos

end Steps

/-- A run reads the source no earlier than its start. -/
theorem Runs.anchored {start s : Venue inboundSize outboundSize snapshotSize}
    {inputs : List (Option (List Byte) × ℤ)} (h : Runs start inputs s)
    (hanchored : start.clock.anchorNanos ≤ start.nanos) : s.clock.anchorNanos ≤ s.nanos := by
  induction h with
  | start => exact hanchored
  | frame _ hframe ih =>
    rw [hframe.clock]
    exact ih.trans hframe.nanos
  | step _ hstep ih =>
    rw [hstep.clock]
    exact ih.trans hstep.nanos

/-- No stamps are in order. -/
theorem chronological_nil : Chronological [] [] [] where
  received := .nil
  reported := .nil
  shown := .nil
  answered i j event x hevent := by cases hevent
  closed i event d hevent := by cases hevent
  settled i j d x hd := by cases hd

/-- No stamps are no later than any time. -/
theorem until_nil (now : ℤ) : Until now [] [] [] where
  events _ h := absurd h List.not_mem_nil
  executions _ h := absurd h List.not_mem_nil
  depths _ h := absurd h List.not_mem_nil

/-- In every run whose readings fit, the stamps on the three rings are in chronological order,
within each ring and from one to the other. -/
theorem Runs.chronological_stamps {start s : Venue inboundSize outboundSize snapshotSize}
    (hstart : start.Fresh) (hanchored : start.clock.anchorNanos ≤ start.nanos)
    {inputs : List (Option (List Byte) × ℤ)} (h : Runs start inputs s)
    (hfits : s.clock.Fits s.nanos) (fresh : OrderEvent) :
    ∃ executions depths, s.Mirrors (eventsOf fresh inputs) executions depths ∧
      Chronological (eventsOf fresh inputs) executions depths := by
  suffices hrun : ∃ executions depths, s.Mirrors (eventsOf fresh inputs) executions depths ∧
      s.Stamped (eventsOf fresh inputs) executions depths by
    obtain ⟨executions, depths, hm, hstamped⟩ := hrun
    exact ⟨executions, depths, hm, hstamped.chronological⟩
  induction h with
  | start => exact ⟨[], [], hstart.mirrors, chronological_nil, until_nil _⟩
  | @frame inputs s t frame nanos hrun hframe ih =>
    have hs := hrun.anchored hanchored
    obtain ⟨executions, depths, hm, hstamped⟩ := ih ((hframe.clock ▸ hfits).mono hs hframe.nanos)
    rw [eventsOf_append, eventsOf_singleton]
    exact ⟨executions, depths, hm.onFrame fresh hframe, hstamped.onFrame hm fresh hframe hs hfits⟩
  | step hrun hstep ih =>
    have hs := hrun.anchored hanchored
    obtain ⟨executions, depths, hm, hstamped⟩ := ih ((hstep.clock ▸ hfits).mono hs hstep.nanos)
    obtain ⟨reports, snapshots, hlogs, hnext⟩ := hm.step hstep
    exact ⟨_, _, hnext, hstamped.step hm hlogs hstep.clock hs hfits⟩

/-- The stamps are in order after a fresh venue receives the iceberg. -/
theorem chronological_received :
    ∃ s executions depths,
      s.Mirrors (eventsOf OrderGateway.idle.scratch [(some OrderGateway.icebergFrame, 1)])
        executions depths ∧
      Chronological (eventsOf OrderGateway.idle.scratch [(some OrderGateway.icebergFrame, 1)])
      executions depths ∧
      Runs idle [(some OrderGateway.icebergFrame, 1)] s := by
  obtain ⟨s, hs, hclock, hnanos⟩ := exists_received
  have hepoch : idle.clock.anchorEpochNanos = 0 := by decide
  have hanchor : idle.clock.anchorNanos = 0 := rfl
  have hfits : s.clock.Fits s.nanos := by
    rw [hclock, hnanos]
    constructor <;> simp only [hepoch, hanchor, longMax] <;> omega
  obtain ⟨executions, depths, h⟩ := hs.chronological_stamps fresh_idle (le_refl 0) hfits
    OrderGateway.idle.scratch
  exact ⟨s, executions, depths, h.1, h.2, hs⟩

end Venue

end MatchingVenue
