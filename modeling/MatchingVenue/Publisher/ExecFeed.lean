import MatchingVenue.Library.Loop
import MatchingVenue.Publisher.WebSocketPublisher
import Mathlib.Logic.Function.Basic
import Mathlib.Logic.Relation

/-!
# The broadcast of the reports

The publisher writes each EXEC frame to the channels of its group one after the other, while clients
join the group and leave it. A channel that is in the group throughout gets the frame, and one that
joins meanwhile may or may not. Unlike the BOOK frames nothing is kept for those who come later.
However this interleaves, what a client gets is a stretch of the stream without a gap, from when it
joined until it leaves (`Reachable.stretch`).
-/

namespace MatchingVenue

universe u

/-- The channel of a client: how many reports had been published when it joined the group, if it
has, and the one that the publisher had in hand then, the frames that wait on its event loop, oldest
first, and those that its client has got. -/
structure ExecChannel where
  joinedAt : Option ℕ := none
  inHand : List Json := []
  tasks : List Json := []
  received : List Json := []

/-- The frames that a channel got or has waiting. -/
def ExecChannel.got (channel : ExecChannel) : List Json := channel.received ++ channel.tasks

/-- Where the execution handler of the publisher stands: between reports, before the test of the
group, in the loop over the group, with the channels that were in it at the start of the loop and
those that it has been at. -/
inductive OnExecution (Client : Type u) where
  /-- It has no report in hand. -/
  | idle
  /-- It tests whether there is a channel. -/
  | testing (json : Json)
  /-- It writes to the channels that were there, and has been at some. -/
  | dispatching (json : Json) (due visited : List Client)

/-- The frame in hand. -/
def OnExecution.current {Client : Type u} : OnExecution Client → List Json
  | .idle => []
  | .testing json => [json]
  | .dispatching json _ _ => [json]

/-- The publisher and the channels of its clients, with the EXEC frames published so far, oldest
first. -/
structure ExecFeed (Client : Type u) where
  channelGroup : List Client := []
  onExecution : OnExecution Client := .idle
  channels : Client → ExecChannel := fun _ => {}
  published : List Json := []

namespace ExecFeed

open WebSocketPublisher (serializeExecution)

variable {Client : Type u} [DecidableEq Client]

/-! ## Steps -/

/-- The handler gets a report. -/
def take (s : ExecFeed Client) (json : Json) : ExecFeed Client :=
  { s with onExecution := .testing json, published := s.published ++ [json] }

/-- The handler has tested whether the group is empty. -/
def isEmpty (s : ExecFeed Client) (json : Json) : ExecFeed Client :=
  { s with
    onExecution := if s.channelGroup.isEmpty then .idle
      else .dispatching json s.channelGroup [] }

/-- The feed with another state of a channel. -/
def setChannel (s : ExecFeed Client) (c : Client) (channel : ExecChannel) : ExecFeed Client :=
  { s with channels := Function.update s.channels c channel }

/-- The loop writes to a channel: the frame waits on its event loop. -/
def write (s : ExecFeed Client) (c : Client) (json : Json) (due visited : List Client) :
    ExecFeed Client :=
  { s.setChannel c { s.channels c with tasks := (s.channels c).tasks ++ [json] } with
    onExecution := .dispatching json due (c :: visited) }

/-- The loop is through. -/
def done (s : ExecFeed Client) : ExecFeed Client := { s with onExecution := .idle }

/-- The handshake of a client adds its channel to the group. -/
def add (s : ExecFeed Client) (c : Client) : ExecFeed Client :=
  { s.setChannel c { s.channels c with
      joinedAt := some s.published.length
      inHand := s.onExecution.current } with
    channelGroup := c :: s.channelGroup }

/-- The event loop of a channel has run its oldest task. -/
def runTask (s : ExecFeed Client) (c : Client) (json : Json) (rest : List Json) : ExecFeed Client :=
  s.setChannel c { s.channels c with tasks := rest, received := (s.channels c).received ++ [json] }

/-- The channel of a client is closed, which takes it out of the group. -/
def close (s : ExecFeed Client) (c : Client) : ExecFeed Client :=
  { s.setChannel c { s.channels c with tasks := [] } with
    channelGroup := s.channelGroup.filter (· ≠ c) }

/-- What can happen next. The loop is at no channel twice, and it is not through before it has been
at all channels that were in the group at its start and still are. -/
inductive Step : ExecFeed Client → ExecFeed Client → Prop where
  /-- The handler gets the next report. -/
  | take {s : ExecFeed Client} {report : ExecutionEvent} {timestamp : ℤ} :
    s.onExecution = .idle → Step s (s.take (serializeExecution report timestamp))
  /-- It tests whether the group is empty. -/
  | isEmpty {s : ExecFeed Client} {json : Json} : s.onExecution = .testing json →
    Step s (s.isEmpty json)
  /-- It writes to the next channel. -/
  | write {s : ExecFeed Client} {c : Client} {json : Json} {due visited : List Client} :
    s.onExecution = .dispatching json due visited → c ∈ s.channelGroup → c ∉ visited →
    Step s (s.write c json due visited)
  /-- It has written to all. -/
  | done {s : ExecFeed Client} {json : Json} {due visited : List Client} :
    s.onExecution = .dispatching json due visited → (∀ c ∈ s.channelGroup, c ∈ due → c ∈ visited) →
      Step s s.done
  /-- A client joins. -/
  | add {s : ExecFeed Client} {c : Client} : (s.channels c).joinedAt = none → Step s (s.add c)
  /-- The event loop of a client writes the next frame. -/
  | runTask {s : ExecFeed Client} {c : Client} {json : Json} {rest : List Json} :
    (s.channels c).tasks = json :: rest → Step s (s.runTask c json rest)
  /-- A client leaves. -/
  | close {s : ExecFeed Client} {c : Client} : c ∈ s.channelGroup → Step s (s.close c)

/-- The states that come about. -/
def Reachable (s : ExecFeed Client) : Prop := Relation.ReflTransGen Step {} s

/-! ## What holds of every state -/

end ExecFeed

namespace OnExecution

variable {Client : Type u} [DecidableEq Client]

/-- What the handler has yet to write to a channel of the group. -/
def owed (c : Client) : OnExecution Client → List Json
  | .idle => []
  | .testing json => [json]
  | .dispatching json _ visited => if c ∈ visited then [] else [json]

/-- The loop has been at a channel. -/
def Visited (c : Client) : OnExecution Client → Prop
  | .dispatching _ _ visited => c ∈ visited
  | _ => False

/-- A channel that is in the group now was not at the start of the loop, and the loop has not been
at it. -/
def Late (c : Client) : OnExecution Client → Prop
  | .dispatching _ due visited => c ∉ due ∧ c ∉ visited
  | _ => False

/-- A channel that the loop has not been at is owed the report in hand. -/
theorem owed_of_not_visited {onExecution : OnExecution Client} {c : Client}
    (h : ¬ onExecution.Visited c) :
    onExecution.owed c = onExecution.current := by
  cases onExecution with
  | idle => rfl
  | testing json => rfl
  | dispatching json due visited => exact if_neg h

end OnExecution

namespace ExecFeed

variable {Client : Type u} [DecidableEq Client] {s t : ExecFeed Client} {c d : Client}

/-- A channel has a stretch of the stream, from where it joined, or from the report that was in hand
just then, if one was. -/
def Stretch (published got post : List Json) (joinedAt : ℕ) (inHand : List Json) : Prop :=
  ∃ pre, published = pre ++ got ++ post ∧ pre.length ≤ joinedAt ∧
    joinedAt ≤ pre.length + inHand.length

/-- What holds of a channel, which is a member of the group or not. -/
structure Fits (published : List Json) (onExecution : OnExecution Client) (c : Client)
    (member : Prop) (channel : ExecChannel) : Prop where
  /-- At most one report was in hand at the join. -/
  single : channel.inHand.length ≤ 1
  /-- A member has joined. -/
  joined : member → channel.joinedAt ≠ none
  /-- A channel that the loop has been at has joined. -/
  visited : onExecution.Visited c → channel.joinedAt ≠ none
  /-- What has not joined has got nothing. -/
  fresh : channel.joinedAt = none → channel.got = []
  /-- A member got a stretch that goes on to what it is owed. -/
  inside : member → ∀ n, channel.joinedAt = some n →
    Stretch published channel.got (onExecution.owed c) n channel.inHand
  /-- What has left got a stretch that others may follow. -/
  gone : ¬ member → ∀ n, channel.joinedAt = some n → ∃ post,
    Stretch published channel.got post n channel.inHand
  /-- What joined behind the start of the loop has got nothing yet. -/
  late : member → onExecution.Late c → channel.got = [] ∧ channel.joinedAt = some published.length

/-- The invariant: the last frame published is in hand, if any is, and every channel is as it should
be. -/
structure Coherent (s : ExecFeed Client) : Prop where
  /-- What the handler has in hand was published last. -/
  current : s.onExecution.current <:+ s.published
  /-- Every channel fits what was published. -/
  fits : ∀ c, Fits s.published s.onExecution c (c ∈ s.channelGroup) (s.channels c)

/-- What holds of every feed holds at the start. -/
theorem coherent_start : ({} : ExecFeed Client).Coherent where
  current := List.nil_suffix
  fits _ := ⟨Nat.zero_le _, fun hc => absurd hc List.not_mem_nil, False.elim, fun _ => rfl,
    fun hc => absurd hc List.not_mem_nil,
    fun _ _ => nofun, fun hc => absurd hc List.not_mem_nil⟩

/-- A channel that is set is what it was set to. -/
theorem channels_setChannel_self (s : ExecFeed Client) (c : Client) (channel : ExecChannel) :
    (s.setChannel c channel).channels c = channel := Function.update_self ..

/-- Setting a channel leaves the others. -/
theorem channels_setChannel_of_ne (h : d ≠ c) (channel : ExecChannel) :
    (s.setChannel c channel).channels d = s.channels d := Function.update_of_ne h ..

/-- More frames behind a stretch. -/
theorem Stretch.more {published got post inHand : List Json} {n : ℕ}
    (h : Stretch published got post n inHand) (more : List Json) :
    Stretch (published ++ more) got (post ++ more) n inHand := by
  obtain ⟨pre, rfl, hbounds⟩ := h
  exact ⟨pre, by simp, hbounds⟩

/-- The handler gets a report, which every channel of the group is owed. -/
theorem Coherent.take (h : s.Coherent) (hidle : s.onExecution = .idle) (json : Json) :
    (s.take json).Coherent := by
  refine ⟨List.suffix_append _ _, fun c => ?_⟩
  obtain ⟨hsingle, hjoined, -, hfresh, hmember, hgone, -⟩ := h.fits c
  rw [hidle] at hmember
  refine ⟨hsingle, hjoined, False.elim, hfresh, fun hc n hn => ?_, fun hc n hn => ?_,
    fun _ => False.elim⟩
  · exact (hmember hc n hn).more [json]
  · obtain ⟨post, hstretch⟩ := hgone hc n hn
    exact ⟨_, hstretch.more [json]⟩

/-- The loop starts with the group as it is, unless the group is empty. -/
theorem Coherent.isEmpty (h : s.Coherent) {json : Json} (htesting : s.onExecution = .testing json) :
    (s.isEmpty json).Coherent := by
  have hcurrent := h.current
  rw [htesting] at hcurrent
  have hfits : ∀ c, Fits s.published (.testing json) c (c ∈ s.channelGroup) (s.channels c) :=
    htesting ▸ h.fits
  cases hgroup : s.channelGroup with
  | nil =>
    have hstep : s.isEmpty json = { s with onExecution := .idle } := by
      rw [ExecFeed.isEmpty, hgroup]; rfl
    rw [hstep]
    refine ⟨List.nil_suffix, fun c => ?_⟩
    obtain ⟨hsingle, hjoined, -, hfresh, -, hgone, -⟩ := hfits c
    have hnot : c ∉ s.channelGroup := by
      rw [hgroup]
      exact List.not_mem_nil
    exact ⟨hsingle, hjoined, False.elim, hfresh, fun hc => absurd hc hnot, hgone,
      fun _ => False.elim⟩
  | cons first group =>
    have hstep : s.isEmpty json =
        { s with onExecution := .dispatching json s.channelGroup [] } := by
      rw [ExecFeed.isEmpty, hgroup]
      rfl
    rw [hstep]
    refine ⟨hcurrent, fun c => ?_⟩
    obtain ⟨hsingle, hjoined, -, hfresh, hmember, hgone, -⟩ := hfits c
    exact ⟨hsingle, hjoined, fun hvisited => absurd hvisited List.not_mem_nil, hfresh,
      hmember, hgone,
      fun hc hlate => absurd hc hlate.1⟩

/-- A channel that the loop writes to has the frame in hand. -/
theorem Coherent.write (h : s.Coherent) {json : Json} {due visited : List Client}
    (hloop : s.onExecution = .dispatching json due visited) (hc : c ∈ s.channelGroup)
    (hnot : c ∉ visited) :
    (s.write c json due visited).Coherent := by
  have hcurrent := h.current
  rw [hloop] at hcurrent
  refine ⟨hcurrent, fun d => ?_⟩
  have hfits := h.fits d
  rw [hloop] at hfits
  obtain ⟨hsingle, hjoined, hvisited, hfresh, hmember, hgone, hlate⟩ := hfits
  show Fits s.published (.dispatching json due (c :: visited)) d (d ∈ s.channelGroup)
    ((s.setChannel c { s.channels c with tasks := (s.channels c).tasks ++ [json] }).channels d)
  rcases eq_or_ne d c with rfl | hne
  · rw [channels_setChannel_self]
    refine ⟨hsingle, hjoined, fun _ => hjoined hc, fun hnone => absurd hnone (hjoined hc),
      fun _ n hn => ?_,
      fun hgone => absurd hc hgone, fun _ hlate => absurd List.mem_cons_self hlate.2⟩
    obtain ⟨pre, hpublished, hbounds⟩ := hmember hc n hn
    rw [OnExecution.owed, if_neg hnot] at hpublished
    refine ⟨pre, ?_, hbounds⟩
    rw [OnExecution.owed, if_pos List.mem_cons_self, List.append_nil, hpublished]
    simp [ExecChannel.got]
  · rw [channels_setChannel_of_ne hne]
    have hiff : d ∈ c :: visited ↔ d ∈ visited := by simp [hne]
    refine ⟨hsingle, hjoined, fun hd => hvisited (hiff.mp hd), hfresh, fun hd n hn => ?_, hgone,
      fun hd hlater => hlate hd ⟨hlater.1, fun hmem => hlater.2 (hiff.mpr hmem)⟩⟩
    have hstretch := hmember hd n hn
    rw [OnExecution.owed] at hstretch ⊢
    simp only [hiff]
    exact hstretch

/-- At the end of the loop nothing is owed: the channels that it was not at joined behind its
start. -/
theorem Coherent.done (h : s.Coherent) {json : Json} {due visited : List Client}
    (hloop : s.onExecution = .dispatching json due visited)
    (hall : ∀ c ∈ s.channelGroup, c ∈ due → c ∈ visited) :
    s.done.Coherent := by
  refine ⟨List.nil_suffix, fun c => ?_⟩
  have hfits := h.fits c
  rw [hloop] at hfits
  obtain ⟨hsingle, hjoined, -, hfresh, hmember, hgone, hlate⟩ := hfits
  refine ⟨hsingle, hjoined, False.elim, hfresh, fun hc n hn => ?_, hgone, fun _ => False.elim⟩
  by_cases hvisited : c ∈ visited
  · have hstretch := hmember hc n hn
    rw [OnExecution.owed, if_pos hvisited] at hstretch
    exact hstretch
  · obtain ⟨hgot, hat⟩ := hlate hc ⟨fun hdue => hvisited (hall c hc hdue), hvisited⟩
    obtain rfl : s.published.length = n := Option.some.inj (hat.symm.trans hn)
    exact ⟨s.published, by
      rw [show (s.done.channels c).got = [] from hgot]; simp [ExecFeed.done, OnExecution.owed],
      le_refl _, Nat.le_add_right _ _⟩

/-- A step of one channel that the handler is not part of. -/
theorem Coherent.setChannel (h : s.Coherent) {channel : ExecChannel} {group : List Client}
    (hothers : ∀ d, d ≠ c → (d ∈ group ↔ d ∈ s.channelGroup))
    (hfits : Fits s.published s.onExecution c (c ∈ group) channel) :
    { s.setChannel c channel with channelGroup := group }.Coherent := by
  refine ⟨h.current, fun d => ?_⟩
  show Fits s.published s.onExecution d (d ∈ group) ((s.setChannel c channel).channels d)
  rcases eq_or_ne d c with rfl | hne
  · rw [channels_setChannel_self]
    exact hfits
  · rw [channels_setChannel_of_ne hne, hothers d hne]
    exact h.fits d

/-- A channel joins with nothing, and is owed the frame in hand. -/
theorem Coherent.add (h : s.Coherent) (hnew : (s.channels c).joinedAt = none) :
    (s.add c).Coherent := by
  obtain ⟨-, -, hvisited, hfresh, -, -, -⟩ := h.fits c
  have hgot := hfresh hnew
  have hnot : ¬ s.onExecution.Visited c := fun hv => hvisited hv hnew
  have hlength : s.onExecution.current.length ≤ 1 := by
    cases s.onExecution <;> simp [OnExecution.current]
  refine h.setChannel (fun d hne => by simp [hne]) ⟨hlength, fun _ => nofun, fun _ => nofun, nofun,
    fun _ n hn => ?_, fun hout => absurd List.mem_cons_self hout, fun _ _ => ⟨hgot, rfl⟩⟩
  obtain rfl : s.published.length = n := Option.some.inj hn
  obtain ⟨pre, hpre⟩ := h.current
  have hnothing : ({ s.channels c with
      joinedAt := some s.published.length
      inHand := s.onExecution.current } : ExecChannel).got = [] := hgot
  refine ⟨pre, ?_, ?_, ?_⟩
  · rw [OnExecution.owed_of_not_visited hnot, hnothing, List.append_nil, hpre]
  · rw [← hpre, List.length_append]
    omega
  · rw [← hpre, List.length_append]

/-- A task that runs moves a frame to what the client has. -/
theorem Coherent.runTask (h : s.Coherent) {json : Json} {rest : List Json}
    (htasks : (s.channels c).tasks = json :: rest) : (s.runTask c json rest).Coherent := by
  have hgot : ({ s.channels c with
      tasks := rest, received := (s.channels c).received ++ [json] } : ExecChannel).got =
      (s.channels c).got := by
    simp [ExecChannel.got, htasks]
  obtain ⟨hsingle, hjoined, hvisited, hfresh, hmember, hgone, hlate⟩ := h.fits c
  refine h.setChannel (fun d _ => Iff.rfl) ⟨hsingle, hjoined, hvisited, fun hnone => ?_,
    fun hc n hn => ?_, fun hc n hn => ?_,
    fun hc hl => ?_⟩
  all_goals rw [hgot]
  · exact hfresh hnone
  · exact hmember hc n hn
  · exact hgone hc n hn
  · exact hlate hc hl

/-- A channel that is closed keeps what its client has. -/
theorem Coherent.close (h : s.Coherent) (hc : c ∈ s.channelGroup) : (s.close c).Coherent := by
  obtain ⟨hsingle, hjoined, -, -, hmember, -, -⟩ := h.fits c
  have hout : c ∉ s.channelGroup.filter (· ≠ c) := by simp
  refine h.setChannel (fun d hne => by simp [hne])
    ⟨hsingle, fun hin => absurd hin hout, fun _ => hjoined hc,
    fun hnone => absurd hnone (hjoined hc), fun hin => absurd hin hout, fun _ n hn => ?_,
    fun hin => absurd hin hout⟩
  obtain ⟨pre, hpublished, hbounds⟩ := hmember hc n hn
  exact ⟨(s.channels c).tasks ++ s.onExecution.owed c, pre,
    by rw [hpublished]; simp [ExecChannel.got], hbounds⟩

/-- A step of the feed keeps what holds of it. -/
theorem Coherent.step (h : s.Coherent) (hstep : Step s t) : t.Coherent := by
  cases hstep with
  | take hidle => exact h.take hidle _
  | isEmpty htesting => exact h.isEmpty htesting
  | write hloop hc hnot => exact h.write hloop hc hnot
  | done hloop hall => exact h.done hloop hall
  | add hnew => exact h.add hnew
  | runTask htasks => exact h.runTask htasks
  | close hc => exact h.close hc

/-- What holds of every feed holds of a reachable one. -/
theorem Reachable.coherent (h : s.Reachable) : s.Coherent :=
  steps_inv h Coherent coherent_start fun _ _ => Coherent.step

/-- However reports, joins, writes and closes interleave: a client that has not joined the group has
nothing. What a client has that has joined, with what waits for it, is a stretch of the stream of
EXEC frames without a gap and without a repetition. It starts with the first report behind the join,
or with the one that the publisher had in hand at the join, if it had one, and as long as the client
is in the group it ends with the last report but for the one in hand. -/
theorem Reachable.stretch (h : s.Reachable) (c : Client) :
    ((s.channels c).joinedAt = none → (s.channels c).received = []) ∧
    ∀ n : ℕ, (s.channels c).joinedAt = some n → ∃ pre post : List Json,
      s.published = pre ++ ((s.channels c).received ++ (s.channels c).tasks) ++ post ∧
      pre.length ≤ n ∧ n ≤ pre.length + (s.channels c).inHand.length ∧
      (s.channels c).inHand.length ≤ 1 ∧
      (c ∈ s.channelGroup → post.length ≤ 1 ∧ (s.onExecution = .idle → post = [])) := by
  obtain ⟨hsingle, -, -, hfresh, hinside, hgone, -⟩ := h.coherent.fits c
  refine ⟨fun hnone => (List.append_eq_nil_iff.mp (hfresh hnone)).1, fun n hn => ?_⟩
  by_cases hc : c ∈ s.channelGroup
  · obtain ⟨pre, hpublished, hlow, hhigh⟩ := hinside hc n hn
    refine ⟨pre, _, hpublished, hlow, hhigh, hsingle, fun _ => ⟨?_, fun hidle => ?_⟩⟩
    · cases s.onExecution with
      | idle => exact Nat.zero_le 1
      | testing json => exact le_refl 1
      | dispatching json due visited =>
        rw [OnExecution.owed]
        split_ifs
        · exact Nat.zero_le 1
        · exact le_refl 1
    · rw [hidle]
      rfl
  · obtain ⟨post, pre, hpublished, hlow, hhigh⟩ := hgone hc n hn
    exact ⟨pre, post, hpublished, hlow, hhigh, hsingle, fun hin => absurd hin hc⟩

/-- Of two clients one joins before the first report and one while it is in hand, behind the start
of the loop. Once the loop is through the first one has it waiting, and the other one nothing. -/
theorem stretch_first : ∃ s : ExecFeed Bool, s.Reachable ∧
    (s.channels true).joinedAt = some 0 ∧ (s.channels true).tasks.length = 1 ∧
    (s.channels false).joinedAt = some 1 ∧ (s.channels false).tasks.length = 0 ∧
    ∀ c n, (s.channels c).joinedAt = some n → ∃ pre post : List Json,
      s.published = pre ++ ((s.channels c).received ++ (s.channels c).tasks) ++ post ∧
      pre.length ≤ n ∧ n ≤ pre.length + (s.channels c).inHand.length ∧
      (s.channels c).inHand.length ≤ 1 ∧
      (c ∈ s.channelGroup → post.length ≤ 1 ∧ (s.onExecution = .idle → post = [])) := by
  let joined : ExecFeed Bool := ExecFeed.add {} true
  let json : Json := WebSocketPublisher.serializeExecution (MatchingEngineHandler.rejected 7) 1
  let dispatching : ExecFeed Bool := ((joined.take json).isEmpty json).add false
  have hrun : (dispatching.write true json [true] []).done.Reachable :=
    (((((Relation.ReflTransGen.refl.tail (Step.add rfl)).tail (Step.take rfl)).tail
      (Step.isEmpty rfl)).tail
      (Step.add rfl)).tail
        (Step.write rfl (List.mem_cons_of_mem _ List.mem_cons_self) List.not_mem_nil)).tail
      (Step.done rfl fun c _ hdue => hdue)
  exact ⟨_, hrun, rfl, rfl, rfl, rfl, fun c n hn => (Reachable.stretch hrun c).2 n hn⟩

end ExecFeed

end MatchingVenue
