import MatchingVenue.Library.Measure
import MatchingVenue.Publisher.SnapshotOnConnect
import Mathlib.Data.Prod.Lex

/-!
# The feed goes on

The publisher, the handshakes and the event loops of the channels bring what was published to the
clients by themselves. They do not go on for ever (`Works.left`); and where they end every client of
the group is connected, has got nothing that was not published, and has got the last frame published
last (`Reachable.received_of_stuck`).
-/

namespace MatchingVenue

universe u

/-- What the publisher has to do for an event that it is at. -/
def OnSnapshot.left : OnSnapshot → ℕ
  | .idle => 0
  | .cached _ => 2
  | .dispatching _ => 1

/-- What a handshake has to do from the group on. -/
def Handshake.left : Handshake → ℕ
  | .added => 2
  | .read _ => 1
  | _ => 0

/-- What is left to do for a channel. -/
def Channel.left (channel : Channel) : ℕ := channel.handshake.left + channel.tasks.length

namespace BookFeed

variable {Client : Type u} [DecidableEq Client] {s t : BookFeed Client} {c : Client}

/-- What goes on when there is no other snapshot and no client comes or goes: the publisher ends
what it does for the event that it is at, handshakes return and event loops run their tasks. -/
inductive Works : BookFeed Client → BookFeed Client → Prop where
  /-- The publisher tests whether the group is empty. -/
  | isEmpty {s : BookFeed Client} {json : Json} : s.onSnapshot = .cached json →
    Works s (s.isEmpty json)
  /-- It writes to all channels. -/
  | writeAndFlush {s : BookFeed Client} {json : Json} :
    s.onSnapshot = .dispatching json → Works s (s.writeAndFlush json)
  /-- A handshake reads the cache. -/
  | get {s : BookFeed Client} {c : Client} : (s.channels c).handshake = .added → Works s (s.get c)
  /-- It writes what it read. -/
  | sendBookSnapshot {s : BookFeed Client} {c : Client} {json : Option Json} :
    (s.channels c).handshake = .read json → Works s (s.sendBookSnapshot c json)
  /-- An event loop runs its next task. -/
  | runTask {s : BookFeed Client} {c : Client} {json : Json} {rest : List Json} :
    (s.channels c).handshake = .returned → (s.channels c).tasks = json :: rest →
      Works s (s.runTask c json rest)

/-- Each of these steps is one of the feed. -/
theorem Works.step (h : Works s t) : Step s t := by
  cases h with
  | isEmpty hcached => exact .isEmpty hcached
  | writeAndFlush hdispatching => exact .writeAndFlush hdispatching
  | get hadded => exact .get hadded
  | sendBookSnapshot hread => exact .sendBookSnapshot hread
  | runTask hreturned htasks => exact .runTask hreturned htasks

/-- No snapshot is published meanwhile. -/
theorem Works.published (h : Works s t) : t.published = s.published := by
  cases h <;> rfl

/-- No client comes or goes meanwhile. -/
theorem Works.channelGroup (h : Works s t) : t.channelGroup = s.channelGroup := by
  cases h <;> rfl

/-- Where a channel keeps what it has received, all do when it is set. -/
theorem received_setChannel {channel : Channel} (h : (s.channels c).received <+: channel.received)
    (d : Client) :
    (s.channels d).received <+: ((s.setChannel c channel).channels d).received := by
  rcases eq_or_ne d c with rfl | hne
  · rw [channels_setChannel_self]
    exact h
  · rw [channels_setChannel_of_ne hne]

/-- What a client has got it keeps. -/
theorem Step.received (h : Step s t) (c : Client) :
    (s.channels c).received <+: (t.channels c).received := by
  cases h with
  | drop _ _ => exact List.prefix_rfl
  | set _ _ => exact List.prefix_rfl
  | isEmpty _ => exact List.prefix_rfl
  | @writeAndFlush json _ =>
    by_cases hmem : c ∈ s.channelGroup
    · rw [channels_writeAndFlush_of_mem hmem]
    · rw [channels_writeAndFlush_of_not_mem hmem]
  | @add d _ =>
    exact @received_setChannel _ _ s d { s.channels d with handshake := .added } List.prefix_rfl c
  | @get d _ =>
    exact @received_setChannel _ _ s d { s.channels d with handshake := .read s.bookCache.get }
      List.prefix_rfl c
  | sendBookSnapshot _ => exact received_setChannel (List.prefix_append ..) c
  | runTask _ _ => exact received_setChannel (List.prefix_append ..) c
  | @close d _ =>
    exact @received_setChannel _ _ s d { s.channels d with handshake := .closed, tasks := [] }
      List.prefix_rfl c

/-! ## What is left to do -/

section Progress

variable [Fintype Client]

/-- What is left to do in the feed: what the publisher has in hand, then what there is to do for the
channels. -/
def left (s : BookFeed Client) : ℕ ×ₗ ℕ := toLex (s.onSnapshot.left, ∑ c, (s.channels c).left)

/-- Less to do for one channel is less to do in the feed. -/
theorem left_setChannel {channel : Channel} (h : channel.left < (s.channels c).left) :
    (s.setChannel c channel).left < s.left := by
  refine Prod.Lex.toLex_lt_toLex.mpr (.inr ⟨rfl, sum_lt_of_one (k := c) ?_ fun d hd => ?_⟩)
  · rwa [channels_setChannel_self]
  · rw [channels_setChannel_of_ne hd]

/-- Each of these steps leaves less to do. -/
theorem Works.left (h : Works s t) : t.left < s.left := by
  cases h with
  | @isEmpty json hcached =>
    refine Prod.Lex.toLex_lt_toLex.mpr (.inl ?_)
    rw [hcached]
    show (if s.channelGroup.isEmpty then OnSnapshot.idle else .dispatching json).left < 2
    split_ifs
    · exact Nat.zero_lt_two
    · exact Nat.one_lt_two
  | writeAndFlush hdispatching =>
    refine Prod.Lex.toLex_lt_toLex.mpr (.inl ?_)
    rw [hdispatching]
    exact Nat.zero_lt_one
  | @get c hadded =>
    refine left_setChannel ?_
    simp [Channel.left, Handshake.left, hadded]
  | @sendBookSnapshot c json hread =>
    refine left_setChannel ?_
    simp [Channel.left, Handshake.left, hread]
  | @runTask c json rest hreturned htasks =>
    refine left_setChannel ?_
    simp [Channel.left, Handshake.left, hreturned, htasks]

end Progress

/-! ## Where it ends -/

/-- With nothing left to do the publisher is between events. -/
theorem idle_of_stuck (hstuck : ∀ t, ¬ Works s t) : s.onSnapshot = .idle := by
  cases hcase : s.onSnapshot with
  | idle => rfl
  | cached json => exact absurd (.isEmpty hcase) (hstuck _)
  | dispatching json => exact absurd (.writeAndFlush hcase) (hstuck _)

/-- And each client of the group is connected, and has got what was sent to it. -/
theorem Reachable.settled_of_stuck (h : s.Reachable) (hstuck : ∀ t, ¬ Works s t)
    (hmem : c ∈ s.channelGroup) :
    (s.channels c).handshake = .returned ∧ (s.channels c).tasks = [] := by
  have hjoined : Joined (s.channels c).handshake := (h.coherent.joined c).mp hmem
  cases hcase : (s.channels c).handshake with
  | upgrading => rw [hcase] at hjoined; exact hjoined.elim
  | closed => rw [hcase] at hjoined; exact hjoined.elim
  | added => exact absurd (.get hcase) (hstuck _)
  | read json => exact absurd (.sendBookSnapshot hcase) (hstuck _)
  | returned =>
    refine ⟨rfl, ?_⟩
    by_contra hne
    obtain ⟨json, rest, htasks⟩ := List.exists_cons_of_ne_nil hne
    exact hstuck _ (.runTask hcase htasks)

/-- Then it has got frames that were published, the last one last. -/
theorem Reachable.received_of_stuck (h : s.Reachable) (hstuck : ∀ t, ¬ Works s t)
    (hmem : c ∈ s.channelGroup) :
    (s.channels c).received ⊆ s.published ∧ (s.channels c).received.getLast? =
      s.published.getLast? := by
  obtain ⟨hreturned, htasks⟩ := h.settled_of_stuck hstuck hmem
  obtain ⟨u, delivered, -, -, -, hreceived, hfed⟩ := h.exists_fed hreturned
  rw [htasks, List.append_nil, unsent_eq_nil (idle_of_stuck hstuck)] at hfed
  rw [hreceived]
  refine ⟨List.append_subset.mpr ⟨fun json hjson => ?_, ?_⟩, hfed.getLast?⟩
  · rw [hfed.read] at hjson
    exact List.mem_of_mem_take (List.mem_of_getLast? (Option.mem_toList.mp hjson))
  · have hsuffix := hfed.suffix
    rw [List.append_nil] at hsuffix
    exact hsuffix.subset

end BookFeed

end MatchingVenue
