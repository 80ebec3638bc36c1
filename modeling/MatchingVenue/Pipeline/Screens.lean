import MatchingVenue.Pipeline.Floor
import MatchingVenue.Pipeline.Legible
import MatchingVenue.Publisher.FeedProgress
import MatchingVenue.Terminal.Streams

/-!
# The books on the screens

What a browser reads in the frame of a snapshot is the depth of the engine, as long as there are not
more than `2^22` events, all of whose prices are numbers that a double has (`showsDepth_bookRead`).

A change of the book is written to a slot of the snapshot ring, from there to the cache and to the
channels of the group, and from there to the pages, each of which reads its socket when it likes. A
client may connect at any time on that way, and what its handshake reads may be ahead of what it is
sent. Once there is nothing left to do but for the clients, every page that is connected shows the
depth of the engine all the same (`Runs.screens_agree`).
-/

namespace MatchingVenue

universe u

open MatchingEngineHandler (after)
open Terminal

/-! ## What a browser reads in the frame of a snapshot -/

namespace WebSocketPublisher

/-- The levels of a frame are rounded one by one. -/
theorem roundedItems_levels (round : ℤ → ℤ) (levels : List (ℤ × ℤ)) :
    Json.roundedItems round (levels.map levelNode) =
      (levels.map fun level => (round level.1, round level.2)).map levelNode := by
  induction levels with
  | nil => rfl
  | cons level levels ih => simp [Json.roundedItems, Json.rounded, levelNode, ih]

end WebSocketPublisher

namespace Terminal

/-- The book of the frame of a snapshot, its numbers rounded. -/
def bookRead (round : ℤ → ℤ) (event : BookSnapshotEvent) : BookState where
  bestBid := round event.bestBid
  bestAsk := round event.bestAsk
  bids := (event.levels .buy).map fun level => (round level.1, round level.2)
  asks := (event.levels .sell).map fun level => (round level.1, round level.2)
  timestamp := round event.timestamp

open WebSocketPublisher (bookFrame)

/-- A page reads the book of a BOOK frame, rounded. -/
theorem parseServerFrame_bookFrame {parse : String → Option Json} {raw : String} {round : ℤ → ℤ}
    {event : BookSnapshotEvent} (h : parse raw = some ((bookFrame event).rounded round)) :
    parseServerFrame parse raw = some (.book (bookRead round event)) := by
  refine parseServerFrame_book (h.trans (congrArg some ?_))
  simp [bookFrame, Json.rounded, Json.roundedFields, WebSocketPublisher.roundedItems_levels]

/-- The book in a text that the server writes. -/
def bookIn (codec : Codec) (json : Json) : Option BookState :=
  match parseServerFrame codec.parse (codec.write json) with
  | some (.book book) => some book
  | _ => none

/-- The book in a frame is what a page reads of its text. -/
theorem bookIn_eq_some {codec : Codec} {json : Json} {book : BookState} :
    bookIn codec json = some book ↔
      parseServerFrame codec.parse (codec.write json) = some (.book book) := by
  unfold bookIn
  split
  · next book' hparse => rw [hparse, Option.some_inj, Option.some_inj, ServerFrame.book.injEq]
  · next hnone => exact ⟨fun hin => absurd hin (by simp), fun hparse => absurd hparse (hnone book)⟩

/-- A book has the best levels of both sides of an engine and its tops. -/
structure ShowsDepth (book : BookState) (engine : MatchingEngine) : Prop where
  /-- The bids are the depth of the engine. -/
  bids : MatchingEngine.Depth engine .buy BookSnapshotEvent.maxDepthLevels book.bids
  /-- The asks are the depth of the engine. -/
  asks : MatchingEngine.Depth engine .sell BookSnapshotEvent.maxDepthLevels book.asks
  /-- The best bid is the top of the engine. -/
  bestBid : MatchingEngine.IsTop engine .buy book.bestBid
  /-- The best ask is the top of the engine. -/
  bestAsk : MatchingEngine.IsTop engine .sell book.bestAsk

section ShowsDepth

variable {events : List OrderEvent} {round : ℤ → ℤ}

/-- The levels of a side and its top are not rounded. -/
theorem exact_side (hround : ∀ n, Safe n → round n = n) (hfew : events.length ≤ 2^22)
    (hprices : ∀ event ∈ events, event.eventType = .newOrder → event.price < 2^53)
    (side : Side) (k : ℕ) :
    ((((after events).engine.book side).entries.take k).map
      fun level => (level.1, toLong (MatchingEngine.displayed level.2))).map
        (fun level => (round level.1, round level.2)) =
        (((after events).engine.book side).entries.take k).map
          (fun level => (level.1, toLong (MatchingEngine.displayed level.2))) ∧
      round ((((after events).engine.book side).firstKey).getD Prices.na) =
        (((after events).engine.book side).firstKey).getD Prices.na := by
  have hsafe := fun level (hlevel : level ∈ ((after events).engine.book side).entries) =>
    MatchingEngineHandler.safe_level hfew hprices hlevel
  constructor
  · rw [List.map_map]
    refine List.map_congr_left fun level hlevel => ?_
    obtain ⟨hprice, hquantity⟩ := hsafe level (List.mem_of_mem_take hlevel)
    have hlong : toLong (MatchingEngine.displayed level.2) = MatchingEngine.displayed level.2 := by
      obtain ⟨-, hlt⟩ := hquantity
      refine toLong_of_le (Int.natCast_nonneg _) ?_
      unfold longMax
      omega
    simp only [Function.comp_apply, hlong, hround _ hprice, hround _ hquantity]
  · unfold SortedMap.firstKey
    cases hentries : ((after events).engine.book side).entries with
    | nil => exact hround _ (by decide)
    | cons level levels => exact hround _ (hsafe level (hentries ▸ List.mem_cons_self)).1

/-- What is read of a snapshot of the state after some events is the depth of that state. -/
theorem showsDepth_bookRead (hround : ∀ n, Safe n → round n = n) (hfew : events.length ≤ 2^22)
    (hprices : ∀ event ∈ events, event.eventType = .newOrder → event.price < 2^53)
    {depth : BookSnapshotEvent} (hshows : depth.Shows (after events).engine) :
    ShowsDepth (bookRead round depth) (after events).engine := by
  have hq := (MatchingEngineHandler.reachable_after events).queued
  have hsized := MatchingEngineHandler.sized_after hfew
  have hdepth : ∀ side, MatchingEngine.Depth (after events).engine side
      BookSnapshotEvent.maxDepthLevels
      ((depth.levels side).map fun level => (round level.1, round level.2)) := by
    intro side
    rw [hshows.levels side, (exact_side hround hfew hprices side _).1]
    exact hq.depth hsized _
  have htop : ∀ side, MatchingEngine.IsTop (after events).engine side
      (round ((((after events).engine.book side).firstKey).getD Prices.na)) := by
    intro side
    rw [(exact_side hround hfew hprices side 0).2]
    exact hq.isTop
  refine ⟨hdepth .buy, hdepth .sell, ?_, ?_⟩
  · rw [bookRead, hshows.bestBid]
    exact htop .buy
  · rw [bookRead, hshows.bestAsk]
    exact htop .sell

/-- Before the first book there is nothing to see, as there is nothing in an engine that has had no
event. -/
theorem showsDepth_initial : ShowsDepth (reduce []).book (after []).engine where
  bids := (MatchingEngineHandler.reachable_after []).queued.depth
    (MatchingEngineHandler.sized_after (Nat.zero_le _)) _
  asks := (MatchingEngineHandler.reachable_after []).queued.depth
    (MatchingEngineHandler.sized_after (Nat.zero_le _)) _
  bestBid := (MatchingEngineHandler.reachable_after []).queued.isTop
  bestAsk := (MatchingEngineHandler.reachable_after []).queued.isTop

/-- A page that had some book and has read frames of the book since, the last one that of the
snapshot of the last event, shows the depth. What came before the last one does not matter. -/
theorem showsDepth_getLastD {codec : Codec} {received : List Json} {depths : List BookSnapshotEvent}
    {book : BookState} (hround : ∀ n, Safe n → codec.round n = n) (hfew : events.length ≤ 2^22)
    (hprices : ∀ event ∈ events, event.eventType = .newOrder → event.price < 2^53)
    (hreads : ∀ depth ∈ depths, bookIn codec (bookFrame depth) = some (bookRead codec.round depth))
    (hlength : depths.length = events.length)
    (hshows : ∀ (i : ℕ) (depth : BookSnapshotEvent), depths[i]? = some depth →
      depth.Shows (after (events.take (i + 1))).engine)
    (hlast : received.getLast? = (depths.map bookFrame).getLast?)
    (hbook : events ≠ [] ∨ book = (reduce []).book) :
    ShowsDepth ((received.filterMap (bookIn codec)).getLastD book) (after events).engine := by
  rcases List.eq_nil_or_concat depths with rfl | ⟨front, depth, rfl⟩
  · obtain rfl : events = [] := List.length_eq_zero_iff.mp hlength.symm
    rw [List.getLast?_eq_none_iff.mp hlast, hbook.resolve_left (absurd rfl)]
    exact showsDepth_initial
  · rw [List.concat_eq_append] at hlength hshows hlast hreads
    rw [List.map_append, List.map_singleton, List.getLast?_concat] at hlast
    obtain ⟨got, rfl⟩ := List.getLast?_eq_some_iff.mp hlast
    have hread := hreads depth (List.mem_append_right _ (List.mem_singleton_self _))
    have hcount : front.length + 1 = events.length := by
      rw [← hlength, List.length_append]
      rfl
    have hshow := hshows front.length depth List.getElem?_concat_length
    rw [hcount, List.take_length] at hshow
    rw [List.filterMap_append, List.filterMap_cons_some hread, List.filterMap_nil,
      List.getLastD_concat]
    exact showsDepth_bookRead hround hfew hprices hshow

end ShowsDepth

/-- Only a BOOK frame changes the book. -/
theorem book_reducer (state : AppState) {action : Action} (h : ∀ book, action ≠ bookAction book) :
    (reducer state action).book = state.book := by
  cases action with
  | connection status => rw [reducer_connection]
  | sent frame sentAtNanos => exact (@reducer_aboutOrders state (.sent frame sentAtNanos) trivial).1
  | frame frame =>
    cases frame with
    | book book => exact absurd rfl (h book)
    | fix frame => rfl
    | exec frame => exact (@reducer_aboutOrders state (.frame (.exec frame)) trivial).1

end Terminal

namespace Venue

variable {inboundSize outboundSize snapshotSize : ℕ}
  {s t : Venue inboundSize outboundSize snapshotSize}

/-- The gateway publishes no BOOK frame. -/
theorem OnFrame.bookFrames {frame : Option (List Byte)} {nanos : ℤ} (h : OnFrame frame nanos s t) :
    t.bookFrames = s.bookFrames := by
  cases h <;> rfl

/-- A step publishes the frame of one snapshot, or none. -/
theorem Step.bookFrames (h : Step s t) : t.bookFrames = s.bookFrames ∨
    ∃ event json, WebSocketPublisher.serializeSnapshot event = .ok json ∧
      t.bookFrames = s.bookFrames ++ [json] := by
  cases h with
  | gateway h => cases h; exact .inl rfl
  | engine h => cases h <;> exact .inl rfl
  | outbound h => cases h <;> exact .inl rfl
  | snapshots h =>
    cases h with
    | onSnapshot _ =>
      cases hserialized : WebSocketPublisher.serializeSnapshot (s.snapshots.peek .publisher) with
      | ok json =>
        refine .inr ⟨_, json, hserialized, ?_⟩
        simp only [WebSocketPublisher.onSnapshot, hserialized]
      | error e =>
        refine .inl ?_
        simp only [WebSocketPublisher.onSnapshot, hserialized]
    | onQuote _ => exact .inl rfl
    | turn _ => exact .inl rfl

end Venue

/-! ## The state and its steps -/

/-- The venue with the pages of its clients: where the frames of the book are on their way to them,
how many of them a page has read, and what it has done and received. A client that connects once
more is another one, whose page goes on from where it was. -/
structure Screens (Client : Type u) (inboundSize outboundSize snapshotSize : ℕ) where
  venue : Venue inboundSize outboundSize snapshotSize
  feed : BookFeed Client := {}
  read : Client → ℕ := fun _ => 0
  actions : Client → List Action := fun _ => []

namespace Screens

open WebSocketPublisher (bookFrame)

variable {Client : Type u} [DecidableEq Client] {inboundSize outboundSize snapshotSize : ℕ}

/-- The screens after an action on that of a client. -/
def act (s : Screens Client inboundSize outboundSize snapshotSize) (c : Client) (action : Action) :
    Screens Client inboundSize outboundSize snapshotSize :=
  { s with actions := Function.update s.actions c (s.actions c ++ [action]) }

/-- The screens after the page of a client has read a book. -/
def receive (s : Screens Client inboundSize outboundSize snapshotSize) (c : Client)
    (book : BookState) :
    Screens Client inboundSize outboundSize snapshotSize :=
  { s.act c (bookAction book) with read := Function.update s.read c (s.read c + 1) }

/-- What happens by itself: a thread of the venue does a step, which for the publisher may be to
cache a frame once it has done with the one before; the feed goes on; or a page reads the next frame
that it has got. -/
inductive Proceeds (codec : Codec) (s : Screens Client inboundSize outboundSize snapshotSize) :
    Screens Client inboundSize outboundSize snapshotSize → Prop where
  /-- A thread of the venue takes a step without a BOOK frame. -/
  | venue {venue : Venue inboundSize outboundSize snapshotSize} :
    Venue.Step s.venue venue → venue.bookFrames = s.venue.bookFrames →
      Proceeds codec s { s with venue }
  /-- The publisher gets the next BOOK frame, and caches it. -/
  | onSnapshot {venue : Venue inboundSize outboundSize snapshotSize} {json : Json} :
    Venue.Step s.venue venue → venue.bookFrames = s.venue.bookFrames ++ [json] →
      s.feed.onSnapshot = .idle →
    Proceeds codec s { s with venue, feed := s.feed.set json }
  /-- The feed goes on. -/
  | feed {feed : BookFeed Client} : s.feed.Works feed → Proceeds codec s { s with feed }
  /-- A page reads the next frame that it has received. -/
  | receive {c : Client} {json : Json} {book : BookState} :
    (s.feed.channels c).received[s.read c]? = some json →
    parseServerFrame codec.parse (codec.write json) = some (.book book) →
    Proceeds codec s (s.receive c book)

/-- The runs of the screens, with the messages that the gateway was given and when. Clients come and
go at any time, and what happens at a page besides is anything. -/
inductive Runs (codec : Codec) (start : Venue inboundSize outboundSize snapshotSize)
    (earlier : Client → List Action) :
    List (Option (List Byte) × ℤ) → Screens Client inboundSize outboundSize snapshotSize →
      Prop where
  | start : Runs codec start earlier [] { venue := start, actions := earlier }
  /-- A frame comes in. -/
  | frame {inputs : List (Option (List Byte) × ℤ)}
    {s : Screens Client inboundSize outboundSize snapshotSize}
    {frame : Option (List Byte)} {nanos : ℤ} {venue : Venue inboundSize outboundSize snapshotSize} :
    Runs codec start earlier inputs s → Venue.OnFrame frame nanos s.venue venue →
    Runs codec start earlier (inputs ++ [(frame, s.venue.clock.getAsLong nanos)]) { s with venue }
  /-- A client joins. -/
  | join {inputs : List (Option (List Byte) × ℤ)}
    {s : Screens Client inboundSize outboundSize snapshotSize}
    {c : Client} :
    Runs codec start earlier inputs s → (s.feed.channels c).handshake = .upgrading →
    Runs codec start earlier inputs { s with feed := s.feed.add c }
  /-- A client leaves. -/
  | close {inputs : List (Option (List Byte) × ℤ)}
    {s : Screens Client inboundSize outboundSize snapshotSize}
    {c : Client} :
    Runs codec start earlier inputs s → (s.feed.channels c).handshake = .returned →
    Runs codec start earlier inputs { s with feed := s.feed.close c }
  /-- Anything else happens at a page. -/
  | other {inputs : List (Option (List Byte) × ℤ)}
    {s : Screens Client inboundSize outboundSize snapshotSize}
    {c : Client} {action : Action} :
    Runs codec start earlier inputs s → (∀ book, action ≠ bookAction book) →
    Runs codec start earlier inputs (s.act c action)
  /-- One of the steps that are sure to come is taken. -/
  | proceed {inputs : List (Option (List Byte) × ℤ)}
    {s t : Screens Client inboundSize outboundSize snapshotSize} :
    Runs codec start earlier inputs s → Proceeds codec s t → Runs codec start earlier inputs t

variable {codec : Codec} {start : Venue inboundSize outboundSize snapshotSize}
  {earlier : Client → List Action}
  {inputs : List (Option (List Byte) × ℤ)}
  {s t : Screens Client inboundSize outboundSize snapshotSize} {c : Client}

/-! ## What holds in every run -/

/-- The feed has the frames that the venue has published, and a page has the book of the last frame
that it has read. -/
structure Coupled (codec : Codec) (earlier : Client → List Action)
    (s : Screens Client inboundSize outboundSize snapshotSize) : Prop where
  /-- The feed is one that can be reached. -/
  reachable : s.feed.Reachable
  /-- What the feed has published is what the venue has. -/
  published : s.feed.published = s.venue.bookFrames
  /-- A page has read no more than it has received. -/
  read_le : ∀ c, s.read c ≤ (s.feed.channels c).received.length
  /-- The book of a page is that of the last frame that it has read, or an earlier one. -/
  book : ∀ c, (reduce (s.actions c)).book =
    (((s.feed.channels c).received.take (s.read c)).filterMap (bookIn codec)).getLastD
      (reduce (earlier c)).book

/-- What holds of every run holds at the start. -/
theorem coupled_start (h : start.Fresh) : Coupled codec earlier
    ({ venue := start, actions := earlier } : Screens Client inboundSize outboundSize snapshotSize)
      where
  reachable := .refl
  published := h.bookFrames.symm
  read_le _ := Nat.zero_le _
  book _ := rfl

/-- A step of the feed leaves what the pages have read. -/
theorem Coupled.feedStep (h : s.Coupled codec earlier) {feed : BookFeed Client}
    (hstep : BookFeed.Step s.feed feed) {venue : Venue inboundSize outboundSize snapshotSize}
    (hpublished : feed.published = venue.bookFrames) :
    { s with venue, feed }.Coupled codec earlier where
  reachable := h.reachable.tail hstep
  published := hpublished
  read_le c := (h.read_le c).trans (hstep.received c).length_le
  book c := by
    obtain ⟨later, hreceived⟩ := hstep.received c
    show _ = (((feed.channels c).received.take (s.read c)).filterMap _).getLastD _
    rw [← hreceived, List.take_append_of_le_length (h.read_le c)]
    exact h.book c

/-- Nor does anything change the book of a page but a frame of the book. -/
theorem Coupled.act (h : s.Coupled codec earlier) (c : Client) {action : Action}
    (hother : ∀ book, action ≠ bookAction book) : (s.act c action).Coupled codec earlier := by
  refine ⟨h.reachable, h.published, h.read_le, fun d => ?_⟩
  show (reduce (Function.update s.actions c (s.actions c ++ [action]) d)).book = _
  by_cases hd : d = c
  · subst hd
    rw [Function.update_self, reduce_append, book_reducer _ hother]
    exact h.book d
  · rw [Function.update_of_ne hd]
    exact h.book d

/-- A page that reads the next frame has the book of it. -/
theorem Coupled.receive (h : s.Coupled codec earlier) {json : Json} {book : BookState}
    (hnext : (s.feed.channels c).received[s.read c]? = some json)
    (hparse : parseServerFrame codec.parse (codec.write json) = some (.book book)) :
    (s.receive c book).Coupled codec earlier := by
  obtain ⟨hlt, -⟩ := List.getElem?_eq_some_iff.mp hnext
  have hin := bookIn_eq_some.mpr hparse
  refine ⟨h.reachable, h.published, fun d => ?_, fun d => ?_⟩
  · show Function.update s.read c (s.read c + 1) d ≤ _
    by_cases hd : d = c
    · subst hd
      rw [Function.update_self]
      exact hlt
    · rw [Function.update_of_ne hd]
      exact h.read_le d
  · show (reduce (Function.update s.actions c (s.actions c ++ [bookAction book]) d)).book =
      (((s.feed.channels d).received.take
        (Function.update s.read c (s.read c + 1) d)).filterMap _).getLastD _
    by_cases hd : d = c
    · subst hd
      rw [Function.update_self, Function.update_self, reduce_append, List.take_add_one, hnext,
        Option.toList_some, List.filterMap_append, List.filterMap_cons_some hin, List.filterMap_nil,
        List.getLastD_concat]
      rfl
    · rw [Function.update_of_ne hd, Function.update_of_ne hd]
      exact h.book d

/-- A step keeps what holds of every run. -/
theorem Coupled.proceeds (h : s.Coupled codec earlier) (hstep : Proceeds codec s t) :
    t.Coupled codec earlier := by
  cases hstep with
  | venue _ hsame => exact ⟨h.reachable, h.published.trans hsame.symm, h.read_le, h.book⟩
  | @onSnapshot venue json hstep hpublished hidle =>
    have hserialized : ∃ event, WebSocketPublisher.serializeSnapshot event = .ok json := by
      rcases hstep.bookFrames with hsame | ⟨event, json', hserialized, hnext⟩
      · rw [hpublished] at hsame
        exact absurd (List.append_right_eq_self.mp hsame) (List.cons_ne_nil _ _)
      · rw [hpublished] at hnext
        obtain rfl := List.singleton_inj.mp (List.append_cancel_left hnext)
        exact ⟨event, hserialized⟩
    obtain ⟨event, hserialized⟩ := hserialized
    refine h.feedStep (.set hidle hserialized) ?_
    rw [hpublished, ← h.published]
    rfl
  | feed hworks => exact h.feedStep hworks.step (hworks.published.trans h.published)
  | receive hnext hparse => exact h.receive hnext hparse

/-- What holds of every run holds in a run. -/
theorem Runs.coupled (h : Runs codec start earlier inputs s) (hstart : start.Fresh) :
    s.Coupled codec earlier := by
  induction h with
  | start => exact coupled_start hstart
  | frame _ hframe ih =>
    exact ⟨ih.reachable, ih.published.trans hframe.bookFrames.symm, ih.read_le, ih.book⟩
  | join _ hupgrading ih => exact ih.feedStep (.add hupgrading) ih.published
  | close _ hreturned ih => exact ih.feedStep (.close hreturned) ih.published
  | other _ hother ih => exact ih.act _ hother
  | proceed _ hstep ih => exact ih.proceeds hstep

/-- A run of the screens is one of the venue. -/
theorem Runs.venue_runs (h : Runs codec start earlier inputs s) :
    Venue.Runs start inputs s.venue := by
  induction h with
  | start => exact .start
  | frame _ hframe ih => exact .frame ih hframe
  | join _ _ ih => exact ih
  | close _ _ ih => exact ih
  | other _ _ ih => exact ih
  | proceed _ hstep ih =>
    cases hstep with
    | venue hstep _ => exact .step ih hstep
    | onSnapshot hstep _ _ => exact .step ih hstep
    | feed _ => exact ih
    | receive _ _ => exact ih

/-! ## What is left to do -/

section Progress

variable [Fintype Client]

/-- What is left to do: in the venue, then on the way to the clients, then what they have to
read. -/
def left (s : Screens Client inboundSize outboundSize snapshotSize) :
    (ℕ ×ₗ ℕ ×ₗ ℕ ×ₗ ℕ) ×ₗ (ℕ ×ₗ ℕ) ×ₗ ℕ :=
  toLex (s.venue.left, toLex (s.feed.left, ∑ c, ((s.feed.channels c).received.length - s.read c)))

/-- A step leaves less to do. -/
theorem Proceeds.left (h : Proceeds codec s t) : t.left < s.left := by
  cases h with
  | venue hstep _ => exact Prod.Lex.toLex_lt_toLex.mpr (.inl hstep.left)
  | onSnapshot hstep _ _ => exact Prod.Lex.toLex_lt_toLex.mpr (.inl hstep.left)
  | feed hworks =>
    exact Prod.Lex.toLex_lt_toLex.mpr (.inr ⟨rfl, Prod.Lex.toLex_lt_toLex.mpr (.inl hworks.left)⟩)
  | @receive c json book hnext _ =>
    obtain ⟨hlt, -⟩ := List.getElem?_eq_some_iff.mp hnext
    refine Prod.Lex.toLex_lt_toLex.mpr (.inr ⟨rfl, Prod.Lex.toLex_lt_toLex.mpr (.inr ⟨rfl, ?_⟩)⟩)
    refine sum_lt_of_one (k := c) ?_ fun d hd => ?_
    · show _ - Function.update s.read c (s.read c + 1) c < _
      rw [Function.update_self]
      exact Nat.sub_lt_sub_left hlt (Nat.lt_succ_self _)
    · show _ - Function.update s.read c (s.read c + 1) d = _
      rw [Function.update_of_ne hd]
      rfl

end Progress

/-! ## The books in the end -/

/-- A frame of the book that is not on its way any more has left the venue. -/
theorem venue_stuck (hidle : s.feed.onSnapshot = .idle) (hstuck : ∀ t, ¬ Proceeds codec s t)
    (venue : Venue inboundSize outboundSize snapshotSize) : ¬ Venue.Step s.venue venue := by
  intro hstep
  rcases hstep.bookFrames with hsame | ⟨_, _, _, hnext⟩
  · exact hstuck _ (.venue hstep hsame)
  · exact hstuck _ (.onSnapshot hstep hnext hidle)

/-- A page that can read whatever it has got, and has nothing left to read, has the book of the last
frame. -/
theorem Coupled.book_of_stuck (h : s.Coupled codec earlier) (hstuck : ∀ t, ¬ Proceeds codec s t)
    (hreads : ∀ json ∈ (s.feed.channels c).received, ∃ book, bookIn codec json = some book) :
    (reduce (s.actions c)).book =
      ((s.feed.channels c).received.filterMap (bookIn codec)).getLastD
      (reduce (earlier c)).book := by
  have hall : s.read c = (s.feed.channels c).received.length := by
    refine Nat.le_antisymm (h.read_le c) (Nat.le_of_not_lt fun hlt => ?_)
    obtain ⟨book, hbook⟩ := hreads _ (List.getElem_mem hlt)
    exact hstuck _ (.receive (List.getElem?_eq_getElem hlt) (bookIn_eq_some.mp hbook))
  have hbook := h.book c
  rwa [hall, List.take_length] at hbook

/-- Every page comes to show the depth of the engine. What goes on by itself ends, in whatever order
it happens; and when there is nothing left to do but for the clients, the engine has taken all
events, and what a client of the group sees is the depth that they have made, whenever it has
connected and whatever it was sent meanwhile. Where there was no event a page that was open before
may show what it showed. -/
theorem Runs.screens_agree [Fintype Client] (hstart : start.Fresh)
    (h : Runs codec start earlier inputs s) (hcodec : codec.Documented s.venue.bookFrames)
    (fresh : OrderEvent) (hfew : (Venue.eventsOf fresh inputs).length ≤ 2^22)
    (hprices : ∀ event ∈ Venue.eventsOf fresh inputs, event.eventType = .newOrder →
    event.price < 2^53) :
    (¬ ∃ g : ℕ → Screens Client inboundSize outboundSize snapshotSize,
      g 0 = s ∧ ∀ i, Proceeds codec (g i) (g (i + 1))) ∧
      ((∀ t, ¬ Proceeds codec s t) → s.venue.engine = (after (Venue.eventsOf fresh inputs)).engine ∧
        ∀ c ∈ s.feed.channelGroup, Venue.eventsOf fresh inputs ≠ [] ∨ earlier c = [] →
          ShowsDepth (reduce (s.actions c)).book s.venue.engine) := by
  refine ⟨fun ⟨g, _, hg⟩ => not_endless_of_measure (fun _ _ hstep => hstep.left) g hg,
    fun hstuck => ?_⟩
  have hcoupled := h.coupled hstart
  have hworks : ∀ feed, ¬ BookFeed.Works s.feed feed := fun feed hstep => hstuck _ (.feed hstep)
  obtain ⟨executions, depths, hm⟩ := h.venue_runs.mirrors hstart fresh
  -- The venue has published the snapshots of all events.
  obtain ⟨-, ⟨hengine, -, depths', -, -, -, -, hlength, hshows, hframes, -⟩, -⟩ :=
    hm.delivers_of_stuck (venue_stuck (BookFeed.idle_of_stuck hworks) hstuck)
  have hreads : ∀ depth ∈ depths', bookIn codec (bookFrame depth) =
      some (bookRead codec.round depth) := by
    intro depth hdepth
    refine bookIn_eq_some.mpr (parseServerFrame_bookFrame (hcodec.parse_write _ ?_))
    rw [hframes]
    exact List.mem_map_of_mem hdepth
  refine ⟨hengine, fun c hc hshown => ?_⟩
  obtain ⟨hpublished, hlast⟩ := hcoupled.reachable.received_of_stuck hworks hc
  rw [hcoupled.published, hframes] at hpublished hlast
  have hbook := hcoupled.book_of_stuck hstuck (c := c) fun json hjson => by
    obtain ⟨depth, hdepth, rfl⟩ := List.mem_map.mp (hpublished hjson)
    exact ⟨_, hreads depth hdepth⟩
  rw [hengine, hbook]
  exact showsDepth_getLastD hcodec.round_safe hfew hprices hreads hlength hshows hlast
    (hshown.imp_right fun hfirst => by rw [hfirst])

/-! ## A client sees the book -/

/-- The publisher comes to be between events, whatever there is in the venue. -/
theorem exists_idle (codec : Codec) (s : Screens Client inboundSize outboundSize snapshotSize) :
    ∃ t, Relation.ReflTransGen (Proceeds codec) s t ∧ t.venue = s.venue ∧
      t.feed.onSnapshot = .idle := by
  cases hcase : s.feed.onSnapshot with
  | idle => exact ⟨s, .refl, rfl, hcase⟩
  | dispatching json => exact ⟨_, .single (.feed (.writeAndFlush hcase)), rfl, rfl⟩
  | cached json =>
    have hfirst : Proceeds codec s { s with feed := s.feed.isEmpty json } := .feed (.isEmpty hcase)
    by_cases hempty : s.feed.channelGroup.isEmpty
    · exact ⟨_, .single hfirst, rfl, if_pos hempty⟩
    · exact ⟨_, (Relation.ReflTransGen.single hfirst).tail (.feed (.writeAndFlush (if_neg hempty))),
        rfl, rfl⟩

/-- No client holds up the threads of the venue. -/
theorem exists_steps (codec : Codec) (s : Screens Client inboundSize outboundSize snapshotSize)
    {venue : Venue inboundSize outboundSize snapshotSize}
    (hsteps : Relation.ReflTransGen Venue.Step s.venue venue) :
    ∃ t, Relation.ReflTransGen (Proceeds codec) s t ∧ t.venue = venue := by
  induction hsteps with
  | refl => exact ⟨s, .refl, rfl⟩
  | @tail _ venue _ hstep ih =>
    obtain ⟨t, hrun, rfl⟩ := ih
    obtain ⟨u, hmore, hvenue, hidle⟩ := t.exists_idle codec
    rw [← hvenue] at hstep
    rcases hstep.bookFrames with hsame | ⟨_, _, _, hnext⟩
    · exact ⟨_, (hrun.trans hmore).tail (.venue hstep hsame), rfl⟩
    · exact ⟨_, (hrun.trans hmore).tail (.onSnapshot hstep hnext hidle), rfl⟩

/-- A step leaves the clients that are there. -/
theorem Proceeds.channelGroup (h : Proceeds codec s t) :
    t.feed.channelGroup = s.feed.channelGroup := by
  cases h with
  | venue _ _ => rfl
  | onSnapshot _ _ _ => rfl
  | feed hworks => exact hworks.channelGroup
  | receive _ _ => rfl

/-- The frame of a snapshot has a text. -/
theorem exists_text_bookFrame (depth : BookSnapshotEvent) :
    ∃ text, (bookFrame depth).text? = some text := by
  have hlevels : ∀ levels : List (ℤ × ℤ),
      ∃ texts, Json.itemTexts? (levels.map WebSocketPublisher.levelNode) = some texts := by
    intro levels
    induction levels with
    | nil => exact ⟨[], rfl⟩
    | cons level levels ih =>
      obtain ⟨texts, htexts⟩ := ih
      simp [WebSocketPublisher.levelNode, Json.itemTexts?, Json.text?, Json.int, htexts]
  obtain ⟨bids, hbids⟩ := hlevels (depth.levels .buy)
  obtain ⟨asks, hasks⟩ := hlevels (depth.levels .sell)
  simp [bookFrame, Json.text?, Json.fieldTexts?, Json.int, hbids, hasks]

/-- A wire for it. -/
def depthWire (depth : BookSnapshotEvent) : Codec := wireOf (bookFrame depth)

/-- It is documented to carry the book of the snapshot. -/
theorem documented_depthWire (depth : BookSnapshotEvent) :
    (depthWire depth).Documented [bookFrame depth] := by
  obtain ⟨text, htext⟩ := exists_text_bookFrame depth
  exact documented_wireOf htext

/-- A client connects and sends the buy, and its page shows it in the end. -/
theorem screens_agree_bid : ∃ (depth : BookSnapshotEvent) (s : Screens Unit 1 1 1),
    Runs (depthWire depth) Venue.idle (fun _ => []) (Floor.bidInputs.map Prod.snd) s ∧
      () ∈ s.feed.channelGroup ∧
      (∀ t, ¬ Proceeds (depthWire depth) s t) ∧
      ShowsDepth (reduce (s.actions ())).book s.venue.engine := by
  obtain ⟨v, hserved⟩ := Floor.exists_onFrame_bid
  obtain ⟨w, hsteps, hstuck⟩ := Venue.exists_stuck v
  have hrun : Venue.Runs Venue.idle (Floor.bidInputs.map Prod.snd) w := by
    have hreceived := Venue.Runs.frame .start hserved
    rw [Floor.getAsLong_idle] at hreceived
    exact steps_inv hsteps (Venue.Runs Venue.idle _) hreceived fun _ _ hu hstep => .step hu hstep
  -- There is one snapshot then.
  obtain ⟨executions, depths, hm⟩ := hrun.mirrors Venue.fresh_idle OrderGateway.idle.scratch
  obtain ⟨-, ⟨-, -, depths', -, -, -, -, hlength, -, hframes, -⟩, -⟩ := hm.delivers_of_stuck hstuck
  rw [Floor.eventsOf_bidInputs] at hlength
  obtain ⟨depth, rfl⟩ := List.length_eq_one_iff.mp hlength
  have hjoined : Runs (depthWire depth) Venue.idle (fun _ => []) []
      ({ venue := Venue.idle, feed := ({} : BookFeed Unit).add () } : Screens Unit 1 1 1) :=
        .join .start rfl
  have hstarted := hjoined.frame hserved
  obtain ⟨t, hcome, hvenue⟩ := exists_steps (depthWire depth)
    ({ venue := v, feed := ({} : BookFeed Unit).add () } : Screens Unit 1 1 1) hsteps
  obtain ⟨s, hgo, hend⟩ := exists_stuck_of_measure (r := Proceeds (depthWire depth))
    (fun _ _ h => h.left) t
  -- The venue stays as it is then.
  obtain ⟨hruns, hgroup⟩ := steps_inv (hcome.trans hgo) (fun u =>
    Runs (depthWire depth) Venue.idle (fun _ => []) (Floor.bidInputs.map Prod.snd) u ∧
      u.feed.channelGroup = [()])
    ⟨hstarted, rfl⟩ fun _ _ hu hstep => ⟨.proceed hu.1 hstep, hstep.channelGroup.trans hu.2⟩
  have hsame : s.venue = w := steps_inv hgo (fun u => u.venue = w) hvenue fun x y hx hstep => by
    cases hstep with
    | venue hstep _ => exact absurd hstep (hx ▸ hstuck _)
    | onSnapshot hstep _ _ => exact absurd hstep (hx ▸ hstuck _)
    | feed _ => exact hx
    | receive _ _ => exact hx
  have hmem : () ∈ s.feed.channelGroup := by
    rw [hgroup]
    exact List.mem_singleton_self _
  have hcodec : (depthWire depth).Documented s.venue.bookFrames := by
    rw [hsame, hframes]
    exact documented_depthWire depth
  refine ⟨depth, s, hruns, hmem, hend, ?_⟩
  refine ((hruns.screens_agree Venue.fresh_idle hcodec OrderGateway.idle.scratch ?_ ?_).2 hend).2 ()
    hmem (.inr rfl)
  · rw [Floor.eventsOf_bidInputs]
    decide
  · rw [Floor.eventsOf_bidInputs]
    decide

end Screens

end MatchingVenue
