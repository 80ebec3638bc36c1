import MatchingVenue.Library.InOrder
import MatchingVenue.Publisher.WebSocketPublisher
import Mathlib.Logic.Function.Basic
import Mathlib.Logic.Relation

/-!
# Snapshot on connect

The publisher keeps the newest BOOK frame in a cache and broadcasts each to the channels of a group.
The handshake of a client adds its channel to the group, reads the cache and writes what it read
straight to the channel, while broadcasts that the publisher makes meanwhile wait on the event loop
until the handshake has returned. However the two interleave, the client ends on the last snapshot
published. The one written by the handshake may be newer than the broadcasts that were already
waiting when the cache was read, which the client then gets after it.
-/

namespace MatchingVenue

universe u

/-- The slot for the newest BOOK frame. -/
structure BookFrameCache where
  latest : Option Json := none

namespace BookFrameCache

/-- The cache after a frame is stored. -/
def set (_ : BookFrameCache) (bookFrameJson : Json) : BookFrameCache :=
  { latest := some bookFrameJson }

/-- The frame stored last, if any. -/
def get (cache : BookFrameCache) : Option Json := cache.latest

end BookFrameCache

/-- Where the handshake of a channel stands: not complete, in the group, past the read of the cache,
returned. -/
inductive Handshake where
  | upgrading
  | added
  | read (json : Option Json)
  | returned
  | closed

/-- The channel of a client: its handshake, the BOOK frames that wait on its event loop, oldest
first, and those that its client has got. -/
structure Channel where
  handshake : Handshake := .upgrading
  tasks : List Json := []
  received : List Json := []

/-- Where the snapshot handler of the publisher stands: between events, past the cache, past the
test of the group. -/
inductive OnSnapshot where
  | idle
  | cached (json : Json)
  | dispatching (json : Json)

/-- The frame that the handler has yet to broadcast. -/
def OnSnapshot.unsent : OnSnapshot → List Json
  | .idle => []
  | .cached json => [json]
  | .dispatching json => [json]

/-- The publisher and the channels of its clients, with the BOOK frames published so far, oldest
first. -/
structure BookFeed (Client : Type u) where
  bookCache : BookFrameCache := {}
  channelGroup : List Client := []
  onSnapshot : OnSnapshot := .idle
  channels : Client → Channel := fun _ => {}
  published : List Json := []

namespace BookFeed

open WebSocketPublisher (serializeSnapshot)

variable {Client : Type u} [DecidableEq Client]

/-! ## Steps -/

/-- The handler has cached a frame. -/
def set (s : BookFeed Client) (json : Json) : BookFeed Client :=
  { s with bookCache := s.bookCache.set json, onSnapshot := .cached json,
           published := s.published ++ [json] }

/-- The handler has tested whether the group is empty. -/
def isEmpty (s : BookFeed Client) (json : Json) : BookFeed Client :=
  { s with onSnapshot := if s.channelGroup.isEmpty then .idle else .dispatching json }

/-- The handler has broadcast a frame: it waits on the event loop of each channel of the group. -/
def writeAndFlush (s : BookFeed Client) (json : Json) : BookFeed Client :=
  { s with
    onSnapshot := .idle
    channels := fun c =>
      if c ∈ s.channelGroup then { s.channels c with tasks := (s.channels c).tasks ++ [json] }
        else s.channels c }

/-- The feed with another state of a channel. -/
def setChannel (s : BookFeed Client) (c : Client) (channel : Channel) : BookFeed Client :=
  { s with channels := Function.update s.channels c channel }

/-- The handshake has added the channel to the group. -/
def add (s : BookFeed Client) (c : Client) : BookFeed Client :=
  { s.setChannel c { s.channels c with handshake := .added } with
    channelGroup := c :: s.channelGroup }

/-- The handshake has read the cache. -/
def get (s : BookFeed Client) (c : Client) : BookFeed Client :=
  s.setChannel c { s.channels c with handshake := .read s.bookCache.get }

/-- The handshake has written what it read, if anything, and returned. -/
def sendBookSnapshot (s : BookFeed Client) (c : Client) (json : Option Json) : BookFeed Client :=
  s.setChannel c
    { s.channels c with handshake := .returned, received := (s.channels c).received ++ json.toList }

/-- The event loop of a channel has run its oldest task. -/
def runTask (s : BookFeed Client) (c : Client) (json : Json) (rest : List Json) : BookFeed Client :=
  s.setChannel c { s.channels c with tasks := rest, received := (s.channels c).received ++ [json] }

/-- The channel of a client is closed, which takes it out of the group. -/
def close (s : BookFeed Client) (c : Client) : BookFeed Client :=
  { s.setChannel c { s.channels c with handshake := .closed, tasks := [] } with
    channelGroup := s.channelGroup.filter (· ≠ c) }

/-- What can happen next. The publisher handles one snapshot after the other, in atomic steps, and
drops those that it cannot serialize. The event loop of a channel runs no task before the handshake
has returned. -/
inductive Step : BookFeed Client → BookFeed Client → Prop where
  /-- A snapshot that cannot be serialised is dropped. -/
  | drop {s : BookFeed Client} {event : BookSnapshotEvent} {e : Exn} :
    s.onSnapshot = .idle → serializeSnapshot event = .error e → Step s s
  /-- A snapshot is serialised and cached. -/
  | set {s : BookFeed Client} {event : BookSnapshotEvent} {json : Json} :
    s.onSnapshot = .idle → serializeSnapshot event = .ok json → Step s (s.set json)
  /-- The publisher tests whether the group is empty. -/
  | isEmpty {s : BookFeed Client} {json : Json} : s.onSnapshot = .cached json →
    Step s (s.isEmpty json)
  /-- It writes to all channels. -/
  | writeAndFlush {s : BookFeed Client} {json : Json} :
    s.onSnapshot = .dispatching json → Step s (s.writeAndFlush json)
  /-- A handshake adds its channel to the group. -/
  | add {s : BookFeed Client} {c : Client} : (s.channels c).handshake = .upgrading →
    Step s (s.add c)
  /-- It reads the cache. -/
  | get {s : BookFeed Client} {c : Client} : (s.channels c).handshake = .added → Step s (s.get c)
  /-- It writes what it read, if there was a frame. -/
  | sendBookSnapshot {s : BookFeed Client} {c : Client} {json : Option Json} :
    (s.channels c).handshake = .read json → Step s (s.sendBookSnapshot c json)
  /-- The event loop of a client writes the next frame. -/
  | runTask {s : BookFeed Client} {c : Client} {json : Json} {rest : List Json} :
    (s.channels c).handshake = .returned → (s.channels c).tasks = json :: rest →
      Step s (s.runTask c json rest)
  /-- A client leaves. -/
  | close {s : BookFeed Client} {c : Client} : (s.channels c).handshake = .returned →
    Step s (s.close c)

/-- The states that come about. -/
def Reachable (s : BookFeed Client) : Prop := Relation.ReflTransGen Step {} s

section Steps

variable {s t : BookFeed Client} {c d : Client}

/-- A channel that is set is what it was set to. -/
theorem channels_setChannel_self (s : BookFeed Client) (c : Client) (channel : Channel) :
    (s.setChannel c channel).channels c = channel := Function.update_self ..

/-- Setting a channel leaves the others. -/
theorem channels_setChannel_of_ne (h : d ≠ c) (channel : Channel) :
    (s.setChannel c channel).channels d = s.channels d := Function.update_of_ne h ..

/-- A broadcast adds a task for every channel of the group. -/
theorem channels_writeAndFlush_of_mem (h : c ∈ s.channelGroup) (json : Json) :
    (s.writeAndFlush json).channels c =
      { s.channels c with tasks := (s.channels c).tasks ++ [json] } := if_pos h

/-- A broadcast leaves the channels outside the group. -/
theorem channels_writeAndFlush_of_not_mem (h : c ∉ s.channelGroup) (json : Json) :
    (s.writeAndFlush json).channels c = s.channels c := if_neg h

/-- A broadcast leaves the handshakes. -/
theorem handshake_writeAndFlush (s : BookFeed Client) (json : Json) (c : Client) :
    ((s.writeAndFlush json).channels c).handshake = (s.channels c).handshake := by
  by_cases hmem : c ∈ s.channelGroup
  · rw [channels_writeAndFlush_of_mem hmem]
  · rw [channels_writeAndFlush_of_not_mem hmem]

/-! ## What holds of every state -/

/-- A channel between its addition to the group and its end. -/
def Joined : Handshake → Prop
  | .added => True
  | .read _ => True
  | .returned => True
  | _ => False

/-- The cache holds the last frame published, and the handler has no other one in hand. The group is
made of the channels that have joined and are open. A channel waits for all frames since it joined,
and has none before it has read the cache. -/
structure Coherent (s : BookFeed Client) : Prop where
  /-- The cache holds the last frame. -/
  latest : s.bookCache.get = s.published.getLast?
  /-- What the publisher has not sent was published last. -/
  unsent : s.onSnapshot.unsent <:+ s.published
  /-- The group has the channels whose handshake added them. -/
  joined : ∀ c, c ∈ s.channelGroup ↔ Joined (s.channels c).handshake
  /-- A channel that upgrades has got nothing. -/
  upgrading : ∀ c, (s.channels c).handshake = .upgrading →
    (s.channels c).tasks = [] ∧ (s.channels c).received = []
  /-- A channel that was added is to get the last frames, and has got none. -/
  added : ∀ c, (s.channels c).handshake = .added →
    (s.channels c).tasks ++ s.onSnapshot.unsent <:+ s.published ∧ (s.channels c).received = []

omit [DecidableEq Client] in
/-- What holds of every feed holds at the start. -/
theorem coherent_start : ({} : BookFeed Client).Coherent where
  latest := rfl
  unsent := List.nil_suffix
  joined _ := by simp [Joined]
  upgrading _ _ := ⟨rfl, rfl⟩
  added _ h := by cases h

omit [DecidableEq Client] in
/-- Before an event the handler has no frame in hand. -/
theorem unsent_eq_nil (h : s.onSnapshot = .idle) : s.onSnapshot.unsent = [] := by rw [h]; rfl

omit [DecidableEq Client] in
/-- The test of the group keeps the frame for the channels that are in it. -/
theorem unsent_isEmpty {json : Json} (h : s.onSnapshot = .cached json) (hmem : c ∈ s.channelGroup) :
    (s.isEmpty json).onSnapshot.unsent = s.onSnapshot.unsent := by
  have hne : s.channelGroup.isEmpty = false := by
    cases hgroup : s.channelGroup with
    | nil => simp [hgroup] at hmem
    | cons => rfl
  simp [isEmpty, hne, h, OnSnapshot.unsent]

/-- A step of one channel keeps what holds of the others. -/
theorem Coherent.setChannel (h : s.Coherent) {channel : Channel} {group : List Client}
    (hothers : ∀ d ≠ c, d ∈ group ↔ d ∈ s.channelGroup)
    (hjoined : c ∈ group ↔ Joined channel.handshake)
    (hupgrading : channel.handshake = .upgrading → channel.tasks = [] ∧ channel.received = [])
    (hadded : channel.handshake = .added →
      channel.tasks ++ s.onSnapshot.unsent <:+ s.published ∧ channel.received = []) :
    { s.setChannel c channel with channelGroup := group }.Coherent := by
  refine ⟨h.latest, h.unsent, fun d => ?_, fun d => ?_, fun d => ?_⟩
    <;> rcases eq_or_ne d c with rfl | hne
  · show d ∈ group ↔ Joined ((s.setChannel d channel).channels d).handshake
    rw [channels_setChannel_self]
    exact hjoined
  · show d ∈ group ↔ Joined ((s.setChannel c channel).channels d).handshake
    rw [channels_setChannel_of_ne hne, hothers d hne]
    exact h.joined d
  · show ((s.setChannel d channel).channels d).handshake = .upgrading → _
    rw [channels_setChannel_self]
    exact hupgrading
  · show ((s.setChannel c channel).channels d).handshake = .upgrading → _
    rw [channels_setChannel_of_ne hne]
    exact h.upgrading d
  · show ((s.setChannel d channel).channels d).handshake = .added → _
    rw [channels_setChannel_self]
    exact hadded
  · show ((s.setChannel c channel).channels d).handshake = .added → _
    rw [channels_setChannel_of_ne hne]
    exact h.added d

omit [DecidableEq Client] in
/-- A frame is published: the channels that wait for all frames now wait for this one as well. -/
theorem Coherent.set (h : s.Coherent) (hidle : s.onSnapshot = .idle) (json : Json) :
    (s.set json).Coherent := by
  refine ⟨List.getLast?_concat.symm, List.suffix_append _ _, h.joined, h.upgrading,
    fun c hadded => ?_⟩
  obtain ⟨hwaits, hreceived⟩ := h.added c hadded
  -- The handler had no frame in hand.
  rw [unsent_eq_nil hidle, List.append_nil] at hwaits
  exact ⟨List.suffix_append_self_iff.mpr hwaits, hreceived⟩

omit [DecidableEq Client] in
/-- The frame in hand is dropped only where there is no channel for it. -/
theorem Coherent.isEmpty (h : s.Coherent) {json : Json} (hcached : s.onSnapshot = .cached json) :
    (s.isEmpty json).Coherent := by
  refine ⟨h.latest, ?_, h.joined, h.upgrading, fun c hadded => ?_⟩
  · have hunsent := h.unsent
    rw [hcached] at hunsent
    unfold BookFeed.isEmpty
    split_ifs
    · exact List.nil_suffix
    · exact hunsent
  · have hbefore : (s.channels c).handshake = .added := hadded
    have hmem : c ∈ s.channelGroup := (h.joined c).mpr (by rw [hbefore]; trivial)
    rw [unsent_isEmpty hcached hmem]
    exact h.added c hadded

/-- The frame in hand is broadcast to every channel that waits for it. -/
theorem Coherent.writeAndFlush (h : s.Coherent) {json : Json}
    (hdispatching : s.onSnapshot = .dispatching json) :
    (s.writeAndFlush json).Coherent := by
  refine ⟨h.latest, List.nil_suffix, fun c => ?_, fun c hupgrading => ?_, fun c hadded => ?_⟩
  · rw [handshake_writeAndFlush]
    exact h.joined c
  · rw [handshake_writeAndFlush] at hupgrading
    have hmem : c ∉ s.channelGroup := by
      rw [h.joined, hupgrading]
      exact id
    rw [channels_writeAndFlush_of_not_mem hmem]
    exact h.upgrading c hupgrading
  · rw [handshake_writeAndFlush] at hadded
    have hmem : c ∈ s.channelGroup := (h.joined c).mpr (by rw [hadded]; trivial)
    rw [channels_writeAndFlush_of_mem hmem]
    obtain ⟨hwaits, hreceived⟩ := h.added c hadded
    rw [hdispatching] at hwaits
    refine ⟨?_, hreceived⟩
    show (_ ++ [json]) ++ [] <:+ s.published
    rw [List.append_nil]
    exact hwaits

/-- A step of the feed keeps what holds of it. -/
theorem Coherent.step (h : s.Coherent) (hstep : Step s t) : t.Coherent := by
  cases hstep with
  | drop _ _ => exact h
  | @set _ json hidle _ => exact h.set hidle json
  | isEmpty hcached => exact h.isEmpty hcached
  | writeAndFlush hdispatching => exact h.writeAndFlush hdispatching
  | @add c hupgrading =>
    obtain ⟨htasks, hreceived⟩ := h.upgrading c hupgrading
    refine h.setChannel (fun d hne => ?_) ⟨fun _ => trivial, fun _ => List.mem_cons_self⟩ nofun
      fun _ => ⟨?_, hreceived⟩
    · rw [List.mem_cons]
      exact or_iff_right hne
    · show (s.channels c).tasks ++ _ <:+ _
      rw [htasks]
      exact h.unsent
  | @get c hadded =>
    have hmem : c ∈ s.channelGroup := (h.joined c).mpr (by rw [hadded]; trivial)
    exact h.setChannel (fun _ _ => Iff.rfl) ⟨fun _ => trivial, fun _ => hmem⟩ nofun nofun
  | @sendBookSnapshot c json hread =>
    have hmem : c ∈ s.channelGroup := (h.joined c).mpr (by rw [hread]; trivial)
    exact h.setChannel (fun _ _ => Iff.rfl) ⟨fun _ => trivial, fun _ => hmem⟩ nofun nofun
  | @runTask c json rest hreturned htasks =>
    have hmem : c ∈ s.channelGroup := (h.joined c).mpr (by rw [hreturned]; trivial)
    refine h.setChannel (fun _ _ => Iff.rfl) ⟨fun _ => ?_, fun _ => hmem⟩ (fun hup => ?_) fun hup =>
      ?_
    · show Joined (s.channels c).handshake
      rw [hreturned]
      trivial
    · exact absurd (hreturned.symm.trans hup) (by simp)
    · exact absurd (hreturned.symm.trans hup) (by simp)
  | @close c hreturned =>
    refine h.setChannel (fun d hne => ?_) ⟨fun hmem => ?_, fun hjoined => hjoined.elim⟩ nofun nofun
    · rw [List.mem_filter, decide_eq_true_iff]
      exact and_iff_left hne
    · exact (of_decide_eq_true (List.mem_filter.mp hmem).2 rfl).elim

/-- What holds of every feed holds of a reachable one. -/
theorem Reachable.coherent (h : s.Reachable) : s.Coherent := by
  induction h with
  | refl => exact coherent_start
  | tail _ hstep ih => exact ih.step hstep

/-! ## A channel past the read of the cache -/

/-- The frames that a client has got and those that it is about to get: the one that the handshake
has read comes before the broadcasts. -/
def due (channel : Channel) : List Json :=
  match channel.handshake with
  | .read json => channel.received ++ json.toList ++ channel.tasks
  | _ => channel.received ++ channel.tasks

omit [DecidableEq Client] in
/-- A broadcast comes last. -/
theorem due_append (channel : Channel) (json : Json) : due { channel with tasks :=
  channel.tasks ++ [json] } = due channel ++ [json] := by
  unfold due
  cases channel.handshake <;> exact (List.append_assoc _ _ _).symm

/-- What the cache held when `n` frames had been published, `connect`, and the broadcasts that a
channel has been given, `sent`. They are the end of the stream but for a frame that is still in
hand, and leave no gap behind `connect`. At most `early` of them are older than it. -/
structure Fed (published unsent : List Json) (n early : ℕ) (connect : Option Json)
    (sent : List Json) : Prop where
  /-- The handshake read the last of the first `n` frames. -/
  read : connect = (published.take n).getLast?
  /-- There were so many. -/
  le : n ≤ published.length
  /-- What was sent since, and what is to be sent, was published last. -/
  suffix : sent ++ unsent <:+ published
  /-- It goes back to the read of the cache. -/
  covers : published.length ≤ n + (sent ++ unsent).length
  /-- It goes back no further than the frames that were sent early, and one more. -/
  early : n + (sent ++ unsent).length ≤ published.length + early + 1

section Fed

variable {published unsent sent : List Json} {n early : ℕ} {connect : Option Json}

/-- One more frame is published. -/
theorem Fed.publish (h : Fed published [] n early connect sent) (json : Json) :
    Fed (published ++ [json]) [json] n early connect sent := by
  obtain ⟨hread, hle, hsuffix, hcovers, hearly⟩ := h
  rw [List.append_nil] at hsuffix hcovers hearly
  refine ⟨?_, ?_, List.suffix_append_self_iff.mpr hsuffix, ?_, ?_⟩
  · rw [List.take_append_of_le_length hle]
    exact hread
  · rw [List.length_append]
    omega
  · rw [List.length_append, List.length_append]
    omega
  · rw [List.length_append, List.length_append]
    omega

/-- The frame in hand is broadcast. -/
theorem Fed.broadcast {json : Json} (h : Fed published [json] n early connect sent) :
    Fed published [] n early connect (sent ++ [json]) := by
  obtain ⟨hread, hle, hsuffix, hcovers, hearly⟩ := h
  exact ⟨hread, hle, by rwa [List.append_nil], by rwa [List.append_nil], by rwa [List.append_nil]⟩

/-- Where no frame is in hand, the last frame that a channel has been given is the last one
published. -/
theorem Fed.getLast? (h : Fed published [] n early connect sent) :
    (connect.toList ++ sent).getLast? = published.getLast? := by
  obtain ⟨hread, hle, hsuffix, hcovers, -⟩ := h
  rw [List.append_nil] at hsuffix hcovers
  rcases List.eq_nil_or_concat sent with rfl | ⟨front, json, rfl⟩
  · -- Nothing was broadcast since the read, so that nothing was published since.
    rw [List.append_nil, hread, List.take_of_length_le (by simpa using hcovers)]
    cases published.getLast? <;> rfl
  · obtain ⟨older, rfl⟩ := hsuffix
    rw [List.concat_eq_append, ← List.append_assoc, ← List.append_assoc, List.getLast?_concat,
      List.getLast?_concat]

/-- The broadcasts are in order. -/
theorem Fed.sent_inOrder (h : Fed published unsent n early connect sent) : InOrder published sent :=
  InOrder.of_sublist ((List.sublist_append_left sent unsent).trans h.suffix.sublist)

/-- Without the early broadcasts, the frame that was read and the broadcasts are in order. -/
theorem Fed.inOrder (h : Fed published unsent n early connect sent) :
    InOrder published (connect.toList ++ sent.drop early) := by
  obtain ⟨hread, hle, hsuffix, -, hearly⟩ := h
  have hdrop : sent ++ unsent = published.drop (published.length - (sent ++ unsent).length) :=
    List.suffix_iff_eq_drop.mp hsuffix
  have hlength := hsuffix.length_le
  have hrest : (sent.drop early).Sublist
      (published.drop (published.length - (sent ++ unsent).length + early)) := by
    rw [← List.drop_drop, ← hdrop, List.drop_append]
    exact List.sublist_append_left _ _
  rw [hread]
  exact (InOrder.last_append_drop_pred published (by omega)).sublist (hrest.append_left _)

end Fed

/-- The handshake has read the cache. -/
def Past (handshake : Handshake) : Prop := handshake ≠ .upgrading ∧ handshake ≠ .added

/-- What holds of a channel from the read of the cache on. -/
structure Tracked (s : BookFeed Client) (c : Client) (n early : ℕ) (connect : Option Json) :
    Prop where
  /-- The cache has been read. -/
  past : Past (s.channels c).handshake
  /-- Before the handshake returns nothing was received. -/
  reading : ∀ json, (s.channels c).handshake = .read json →
    (s.channels c).received = [] ∧ json = connect
  /-- When it has returned, what it read comes first. -/
  returned : (s.channels c).handshake = .returned → connect.toList <+: (s.channels c).received
  /-- A member is due what the handshake read, and then what is broadcast. -/
  fed : c ∈ s.channelGroup →
    ∃ sent, due (s.channels c) = connect.toList ++ sent ∧
    Fed s.published s.onSnapshot.unsent n early connect sent

section Tracked

variable {n early : ℕ} {connect : Option Json}

/-- The read of the cache begins to track the channel. -/
theorem Coherent.tracked_get (h : s.Coherent) (hadded : (s.channels c).handshake = .added) :
    (s.get c).Tracked c s.published.length (s.channels c).tasks.length s.bookCache.get := by
  obtain ⟨hwaits, hreceived⟩ := h.added c hadded
  have hchannel : (s.get c).channels c = { s.channels c with handshake := .read s.bookCache.get } :=
    channels_setChannel_self ..
  refine ⟨?_, fun json hread => ?_, fun hreturned => ?_, fun _ =>
    ⟨(s.channels c).tasks, ?_, ?_, le_refl _, hwaits,
    Nat.le_add_right _ _, ?_⟩⟩
  · rw [hchannel]
    exact ⟨nofun, nofun⟩
  · rw [hchannel] at hread ⊢
    exact ⟨hreceived, (Handshake.read.inj hread).symm⟩
  · rw [hchannel] at hreturned
    cases hreturned
  · rw [hchannel]
    show (s.channels c).received ++ _ ++ _ = _
    rw [hreceived, List.nil_append]
  · rw [h.latest]
    exact congrArg List.getLast? (List.take_of_length_le (le_refl _)).symm
  · -- At most one frame is in hand.
    have hone : s.onSnapshot.unsent.length ≤ 1 := by cases s.onSnapshot <;> simp [OnSnapshot.unsent]
    rw [List.length_append]
    show s.published.length + (_ + s.onSnapshot.unsent.length) ≤ s.published.length + _ + 1
    omega

/-- A step of another channel. -/
theorem Tracked.setChannel_of_ne (h : s.Tracked c n early connect) (hne : c ≠ d) {channel : Channel}
    {group : List Client} (hgroup : c ∈ group → c ∈ s.channelGroup) :
    { s.setChannel d channel with channelGroup := group }.Tracked c n early connect := by
  have hchannel : ({ s.setChannel d channel with channelGroup := group } : BookFeed Client).channels
    c = s.channels c := channels_setChannel_of_ne hne channel
  refine ⟨?_, ?_, ?_, fun hmem => ?_⟩ <;> rw [hchannel]
  · exact h.past
  · exact h.reading
  · exact h.returned
  · exact h.fed (hgroup hmem)

/-- A step of the channel itself that leaves what it has got and is about to get as it is. -/
theorem Tracked.setChannel_self (h : s.Tracked c n early connect) {channel : Channel}
    (hdue : due channel =
      due (s.channels c)) (hreturned : channel.handshake = .returned) (hconnect :
    connect.toList <+: channel.received) :
    (s.setChannel c channel).Tracked c n early connect := by
  have hchannel : (s.setChannel c channel).channels c = channel := channels_setChannel_self ..
  refine ⟨?_, fun json hread => ?_, fun _ => ?_, fun hmem => ?_⟩ <;> rw [hchannel] at *
  · rw [hreturned]
    exact ⟨nofun, nofun⟩
  · rw [hreturned] at hread
    cases hread
  · exact hconnect
  · rw [hdue]
    exact h.fed hmem

/-- The frame in hand comes last of those that the channel has been given. -/
theorem Tracked.writeAndFlush (h : s.Tracked c n early connect) {json : Json}
    (hdispatching : s.onSnapshot = .dispatching json) :
    (s.writeAndFlush json).Tracked c n early connect := by
  by_cases hmem : c ∈ s.channelGroup
  · obtain ⟨sent, hdue, hfed⟩ := h.fed hmem
    have hchannel := channels_writeAndFlush_of_mem hmem json
    refine ⟨?_, ?_, ?_, fun _ => ⟨sent ++ [json], ?_, ?_⟩⟩
    · rw [hchannel]
      exact h.past
    · rw [hchannel]
      exact h.reading
    · rw [hchannel]
      exact h.returned
    · rw [hchannel, due_append, hdue, List.append_assoc]
    · rw [hdispatching] at hfed
      exact hfed.broadcast
  · have hchannel := channels_writeAndFlush_of_not_mem hmem json
    refine ⟨?_, ?_, ?_, fun hin => absurd hin hmem⟩ <;> rw [hchannel]
    · exact h.past
    · exact h.reading
    · exact h.returned

/-- A closed channel is no longer in the group. -/
theorem tracked_close (s : BookFeed Client) (c : Client) (n early : ℕ) (connect : Option Json) :
    (s.close c).Tracked c n early connect := by
  have hchannel : (s.close c).channels c =
      { s.channels c with handshake := .closed, tasks := [] } :=
    channels_setChannel_self ..
  refine ⟨?_, ?_, ?_, fun hmem => ?_⟩
  · rw [hchannel]
    exact ⟨nofun, nofun⟩
  · rw [hchannel]
    nofun
  · rw [hchannel]
    nofun
  · exact (of_decide_eq_true (List.mem_filter.mp hmem).2 rfl).elim

/-- A step of the feed keeps what holds of a channel from the read of the cache on. -/
theorem Tracked.step (h : s.Tracked c n early connect) (hstep : Step s t) :
    t.Tracked c n early connect := by
  cases hstep with
  | drop _ _ => exact h
  | @set _ json hidle _ =>
    refine ⟨h.past, h.reading, h.returned, fun hmem => ?_⟩
    obtain ⟨sent, hdue, hfed⟩ := h.fed hmem
    rw [unsent_eq_nil hidle] at hfed
    exact ⟨sent, hdue, hfed.publish json⟩
  | @isEmpty json hcached =>
    refine ⟨h.past, h.reading, h.returned, fun hmem => ?_⟩
    rw [unsent_isEmpty hcached hmem]
    exact h.fed hmem
  | writeAndFlush hdispatching => exact h.writeAndFlush hdispatching
  | @add d hupgrading =>
    have hne : c ≠ d := by
      rintro rfl
      exact h.past.1 hupgrading
    exact h.setChannel_of_ne hne fun hmem => (List.mem_cons.mp hmem).resolve_left hne
  | @get d hadded =>
    have hne : c ≠ d := by
      rintro rfl
      exact h.past.2 hadded
    exact h.setChannel_of_ne hne id
  | @sendBookSnapshot d json hread =>
    rcases eq_or_ne c d with rfl | hne
    · obtain ⟨hreceived, rfl⟩ := h.reading json hread
      refine h.setChannel_self ?_ rfl ?_
      · unfold due
        rw [hread]
      · show json.toList <+: (s.channels c).received ++ json.toList
        rw [hreceived]
        exact List.prefix_refl _
    · exact h.setChannel_of_ne hne id
  | @runTask d json rest hreturned htasks =>
    rcases eq_or_ne c d with rfl | hne
    · refine h.setChannel_self ?_ hreturned ((h.returned hreturned).trans (List.prefix_append _ _))
      unfold due
      rw [hreturned, htasks]
      exact List.append_assoc _ _ _
    · exact h.setChannel_of_ne hne id
  | @close d hreturned =>
    rcases eq_or_ne c d with rfl | hne
    · exact tracked_close s c n early connect
    · exact h.setChannel_of_ne hne fun hmem => (List.mem_filter.mp hmem).1

/-- Steps of the feed keep what holds of a channel from the read of the cache on. -/
theorem Tracked.steps (h : s.Tracked c n early connect) (hrun : Relation.ReflTransGen Step s t) :
    t.Tracked c n early connect := by
  induction hrun with
  | refl => exact h
  | tail _ hstep ih => exact ih.step hstep

omit [DecidableEq Client] in
/-- What the client has got of the frames it is due, once the handshake has returned. -/
theorem Tracked.received (h : s.Tracked c n early connect) (hmem : c ∈ s.channelGroup)
    (hreturned : (s.channels c).handshake = .returned) :
    ∃ delivered, (s.channels c).received = connect.toList ++ delivered ∧
      Fed s.published s.onSnapshot.unsent n early connect (delivered ++ (s.channels c).tasks) := by
  obtain ⟨sent, hdue, hfed⟩ := h.fed hmem
  obtain ⟨delivered, hreceived⟩ := h.returned hreturned
  unfold due at hdue
  rw [hreturned, ← hreceived, List.append_assoc] at hdue
  refine ⟨delivered, hreceived.symm, ?_⟩
  rw [List.append_cancel_left hdue]
  exact hfed

/-- The step by which a channel comes past the read of the cache is that read. -/
theorem Step.eq_get (hstep : Step s t) (hbefore : ¬ Past (s.channels c).handshake)
    (hafter : Past (t.channels c).handshake) : (s.channels c).handshake = .added ∧ t = s.get c := by
  -- The other steps leave the handshake of the channel, or were past the read before, or end before
  -- it.
  cases hstep with
  | drop _ _ => exact absurd hafter hbefore
  | set _ _ => exact absurd hafter hbefore
  | isEmpty _ => exact absurd hafter hbefore
  | writeAndFlush _ =>
    rw [handshake_writeAndFlush] at hafter
    exact absurd hafter hbefore
  | @add d _ =>
    rcases eq_or_ne c d with rfl | hne
    · have hchannel : (s.add c).channels c = { s.channels c with handshake := .added } :=
        channels_setChannel_self ..
      rw [hchannel] at hafter
      exact absurd rfl hafter.2
    · have hchannel : (s.add d).channels c = s.channels c := channels_setChannel_of_ne hne _
      rw [hchannel] at hafter
      exact absurd hafter hbefore
  | @get d hadded =>
    rcases eq_or_ne c d with rfl | hne
    · exact ⟨hadded, rfl⟩
    · have hchannel : (s.get d).channels c = s.channels c := channels_setChannel_of_ne hne _
      rw [hchannel] at hafter
      exact absurd hafter hbefore
  | @sendBookSnapshot d json hread =>
    rcases eq_or_ne c d with rfl | hne
    · rw [hread] at hbefore
      exact absurd ⟨nofun, nofun⟩ hbefore
    · have hchannel : (s.sendBookSnapshot d json).channels c = s.channels c :=
        channels_setChannel_of_ne hne _
      rw [hchannel] at hafter
      exact absurd hafter hbefore
  | @runTask d json rest hreturned _ =>
    rcases eq_or_ne c d with rfl | hne
    · rw [hreturned] at hbefore
      exact absurd ⟨nofun, nofun⟩ hbefore
    · have hchannel : (s.runTask d json rest).channels c = s.channels c :=
        channels_setChannel_of_ne hne _
      rw [hchannel] at hafter
      exact absurd hafter hbefore
  | @close d hreturned =>
    rcases eq_or_ne c d with rfl | hne
    · rw [hreturned] at hbefore
      exact absurd ⟨nofun, nofun⟩ hbefore
    · have hchannel : (s.close d).channels c = s.channels c := channels_setChannel_of_ne hne _
      rw [hchannel] at hafter
      exact absurd hafter hbefore

/-- A channel past the read of the cache has read it in some state before. -/
theorem Reachable.exists_get (h : t.Reachable) (hpast : Past (t.channels c).handshake) :
    ∃ u : BookFeed Client, u.Reachable ∧ (u.channels c).handshake = .added ∧
      Relation.ReflTransGen Step (u.get c) t := by
  induction h with
  | refl => exact absurd rfl hpast.1
  | @tail s t hrun hstep ih =>
    by_cases hbefore : Past (s.channels c).handshake
    · obtain ⟨u, hu, hadded, hsteps⟩ := ih hbefore
      exact ⟨u, hu, hadded, hsteps.tail hstep⟩
    · obtain ⟨hadded, rfl⟩ := hstep.eq_get hbefore hpast
      exact ⟨s, hrun, hadded, .refl⟩

/-- A connected client has got what its handshake has read and then broadcasts, of which those that
wait are the rest. -/
theorem Reachable.exists_fed (h : t.Reachable) (hreturned : (t.channels c).handshake = .returned) :
    ∃ (u : BookFeed Client) (delivered : List Json), u.Reachable ∧
      (u.channels c).handshake = .added ∧
      Relation.ReflTransGen Step (u.get c) t ∧
      (t.channels c).received = u.bookCache.get.toList ++ delivered ∧
      Fed t.published t.onSnapshot.unsent u.published.length (u.channels c).tasks.length
      u.bookCache.get
        (delivered ++ (t.channels c).tasks) := by
  have hpast : Past (t.channels c).handshake := by
    rw [hreturned]
    exact ⟨nofun, nofun⟩
  have hmem : c ∈ t.channelGroup := (h.coherent.joined c).mpr (by rw [hreturned]; trivial)
  obtain ⟨u, hu, hadded, hrun⟩ := h.exists_get hpast
  obtain ⟨delivered, hreceived, hfed⟩ := ((hu.coherent.tracked_get hadded).steps hrun).received
    hmem hreturned
  exact ⟨u, delivered, hu, hadded, hrun, hreceived, hfed⟩

end Tracked

/-! ## The end of every interleaving -/

/-- Once the publisher is between events and the event loop of an open channel has run its tasks,
the last BOOK frame that the client got is the last one published. Of the frames that it has got at
any time, those that were broadcast are in the order of publication, and so is the one that the
handshake has read with them, but for the broadcasts that were waiting when it read the cache: those
may be older than it. -/
theorem ends_on_last {t : BookFeed Client} (h : t.Reachable) {c : Client}
    (hreturned : (t.channels c).handshake = .returned) :
    (t.onSnapshot = .idle → (t.channels c).tasks = [] →
      (t.channels c).received.getLast? = t.published.getLast?) ∧
    ∃ (u : BookFeed Client) (delivered : List Json), u.Reachable ∧
      (u.channels c).handshake = .added ∧
      Relation.ReflTransGen Step (u.get c) t ∧
      (t.channels c).received = u.bookCache.get.toList ++ delivered ∧
      InOrder t.published delivered ∧
      InOrder t.published
      (u.bookCache.get.toList ++ delivered.drop (u.channels c).tasks.length) := by
  obtain ⟨u, delivered, hu, hadded, hrun, hreceived, hfed⟩ := h.exists_fed hreturned
  refine ⟨fun hidle htasks => ?_, u, delivered, hu, hadded, hrun, hreceived, ?_, ?_⟩
  · rw [unsent_eq_nil hidle, htasks, List.append_nil] at hfed
    rw [hreceived]
    exact hfed.getLast?
  · exact hfed.sent_inOrder.sublist (List.sublist_append_left _ _)
  · have hinOrder := hfed.inOrder
    rw [List.drop_append, ← List.append_assoc] at hinOrder
    exact hinOrder.sublist (List.sublist_append_left _ _)

end Steps

/-- A snapshot of an empty book but for its best bid. -/
def quote (bestBid : ℤ) : BookSnapshotEvent :=
  { bidPrices := Vector.replicate _ 0, bidQtys := Vector.replicate _ 0,
    askPrices := Vector.replicate _ 0, askQtys := Vector.replicate _ 0, bidLevelCount := 0,
    askLevelCount := 0, bestBid := bestBid, bestAsk := -1,
    timestamp := 0 }

/-- The BOOK frame of `quote`. -/
def frame (bestBid : ℤ) : Json :=
  .obj [("type", .str "BOOK"), ("bestBid", .int bestBid), ("bestAsk", .int (-1)), ("bids", .arr []),
    ("asks", .arr []), ("timestamp", .int 0)]

/-- The frame of `quote` is its serialisation. -/
theorem serializeSnapshot_quote (bestBid : ℤ) :
    serializeSnapshot (quote bestBid) = .ok (frame bestBid) := rfl

/-- The first snapshot is broadcast between the addition of the channel and the read of the cache,
and the second one is cached between that broadcast and the read. -/
def overtaking : BookFeed Unit :=
  (((((({} : BookFeed Unit).add ()).set (frame 100)).isEmpty (frame 100)).writeAndFlush
    (frame 100)).set (frame 200)).get ()

/-- The handshake returns, and the event loop of the channel runs its tasks. -/
def overtaken : BookFeed Unit :=
  ((((overtaking.sendBookSnapshot () (some (frame 200))).runTask () (frame 100) []).isEmpty
    (frame 200)).writeAndFlush (frame 200)).runTask () (frame 200) []

/-- The feed comes to `overtaken`. -/
theorem overtaken_reachable : overtaken.Reachable := by
  have hadd : Reachable (({} : BookFeed Unit).add ()) := .single (.add rfl)
  have hset := hadd.tail (.set rfl (serializeSnapshot_quote 100))
  have hsent := (hset.tail (.isEmpty rfl)).tail (.writeAndFlush rfl)
  have hread : overtaking.Reachable :=
    (hsent.tail (.set rfl (serializeSnapshot_quote 200))).tail (.get rfl)
  have hreturned : (overtaking.sendBookSnapshot () (some (frame 200))).Reachable :=
    hread.tail (.sendBookSnapshot rfl)
  have hfirst : ((overtaking.sendBookSnapshot () (some (frame 200))).runTask () (frame 100)
      []).Reachable :=
    hreturned.tail (.runTask rfl rfl)
  exact ((hfirst.tail (.isEmpty rfl)).tail (.writeAndFlush rfl)).tail (.runTask rfl rfl)

/-- The client gets the second snapshot, then the first one, and then the second one again. -/
theorem not_inOrder_overtaken :
    overtaken.Reachable ∧ overtaken.onSnapshot = .idle ∧
      (overtaken.channels ()).handshake = .returned ∧
      (overtaken.channels ()).tasks = [] ∧
      ¬ InOrder overtaken.published (overtaken.channels ()).received := by
  refine ⟨overtaken_reachable, rfl, rfl, rfl, ?_⟩
  have hne : frame 100 ≠ frame 200 := by
    simp [frame, Json.int]
  exact InOrder.not_swapped hne [frame 200]

/-- The client ends on the second snapshot all the same. -/
theorem ends_on_last_overtaken :
    (overtaken.channels ()).received.getLast? = some (frame 200) :=
  (ends_on_last overtaken_reachable rfl).1 rfl rfl

end BookFeed

end MatchingVenue
