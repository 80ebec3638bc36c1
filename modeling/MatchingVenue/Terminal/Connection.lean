import MatchingVenue.Terminal.Messages
import Mathlib.Logic.Function.Basic

/-!
# The socket of a terminal

The hook that owns the socket: it connects when it is mounted, connects again some time after each
close, turns what comes in into actions of the reducer and writes what is sent. React may mount it,
clean it up and mount it again, and each mount is an effect with variables of its own, which the
handlers of its sockets and its timer share. The browser decides when a socket opens, gets a message
or closes, and when a timer goes off.

However these interleave there is never more than one socket in use, a mounted hook has either a
socket or one timer, and an unmounted one neither (`Runs.one_socket`). The frames that reach the
reducer are those that came in (`Runs.streams`).
-/

namespace MatchingVenue

namespace Terminal

/-- The delay of the first retry, in milliseconds. -/
def baseBackoffMs : ℕ := 250

/-- The longest delay of a retry. -/
def maxBackoffMs : ℕ := 4000

/-- The delay of a retry after some attempts. -/
def backoffMs (attempt : ℕ) : ℕ := min (baseBackoffMs * 2 ^ attempt) maxBackoffMs

/-- The state of a socket, as the browser has it. -/
inductive ReadyState where
  | connecting
  | open
  | closing
  | closed
  deriving DecidableEq, Repr

/-- A socket: the effect that made it, its state, and whether it still has its handlers. -/
structure WebSocket where
  effect : ℕ
  readyState : ReadyState
  attached : Bool

/-- The variables of an effect. A timer that is set is pending with its delay. -/
structure Effect where
  disposed : Bool := false
  socket : Option ℕ := none
  timer : Option ℕ := none
  attempt : ℕ := 0

/-- The hook: the sockets and the effects that were ever made, by number, which effect is mounted,
the socket that `send` uses, the actions that were dispatched and the frames that were written, each
with its socket. -/
structure Hook where
  sockets : ℕ → WebSocket := fun _ => ⟨0, .closed, false⟩
  created : ℕ := 0
  effects : ℕ → Effect := fun _ => {}
  mounts : ℕ := 0
  mounted : Option ℕ := none
  socketRef : Option ℕ := none
  actions : List Action := []
  written : List (ℕ × ClientFrame) := []

namespace Hook

/-! ## The code of the hook -/

/-- Dispatches an action. -/
def dispatch (h : Hook) (action : Action) : Hook := { h with actions := h.actions ++ [action] }

/-- The hook with other variables of an effect. -/
def setEffect (h : Hook) (i : ℕ) (effect : Effect) : Hook :=
  { h with effects := Function.update h.effects i effect }

/-- The hook with another state of a socket. -/
def setSocket (h : Hook) (j : ℕ) (socket : WebSocket) : Hook :=
  { h with sockets := Function.update h.sockets j socket }

/-- Makes a socket for an effect. -/
def connect (h : Hook) (i : ℕ) : Hook :=
  if (h.effects i).disposed then h
  else
    let h :=
      h.dispatch (.connection (if (h.effects i).attempt = 0 then .connecting else .reconnecting))
    let h := h.setEffect i { h.effects i with socket := some h.created }
    { h.setSocket h.created ⟨i, .connecting, true⟩ with
      created := h.created + 1, socketRef := some h.created }

/-- The handler of the open event of a socket of an effect. -/
def onOpen (h : Hook) (i : ℕ) : Hook :=
  if (h.effects i).disposed then h
  else (h.setEffect i { h.effects i with attempt := 0 }).dispatch (.connection .open)

/-- The handler of a message. Only a text that is a frame is dispatched. -/
def onMessage (parse : String → Option Json) (h : Hook) (i : ℕ) (data : Option String) : Hook :=
  if (h.effects i).disposed then h
  else
    match data with
    | none => h
    | some text =>
      match parseServerFrame parse text with
      | none => h
      | some frame => h.dispatch (.frame frame)

/-- The handler of the close event of a socket: it sets the timer for the next attempt. -/
def onClose (h : Hook) (i j : ℕ) : Hook :=
  if (h.effects i).disposed then h
  else
    let h := h.setSocket j { h.sockets j with attached := false }
    let h := { h with socketRef := if h.socketRef = some j then none else h.socketRef }
    let h := h.setEffect i { h.effects i with socket := none }
    let h := h.dispatch (.connection .reconnecting)
    let delay := backoffMs (h.effects i).attempt
    h.setEffect i { h.effects i with attempt := (h.effects i).attempt + 1, timer := some delay }

/-- An effect with new variables. -/
def mount (h : Hook) : Hook :=
  let effects := Function.update h.effects h.mounts {}
  connect { h with effects, mounts := h.mounts + 1, mounted := some h.mounts } h.mounts

/-- The cleanup of an effect. -/
def cleanup (h : Hook) (i : ℕ) : Hook :=
  let socket := (h.effects i).socket
  let h := h.setEffect i { h.effects i with disposed := true, timer := none }
  let h := { h with socketRef := none }
  match socket with
  | none => h
  | some j => h.setSocket j { h.sockets j with attached := false, readyState := .closing }

/-- Writes a frame to the socket if it is open, and says whether it was. -/
def send (h : Hook) (frame : ClientFrame) (sentAtNanos : Option ℤ) : Hook × Bool :=
  match h.socketRef with
  | none => (h, false)
  | some j =>
    if (h.sockets j).readyState ≠ .open then (h, false)
    else ({ h with written := h.written ++ [(j, frame)] }.dispatch (.sent frame sentAtNanos), true)

/-! ## What can happen -/

/-- What React, the browser and the user do. A frame is sent with an answer. -/
inductive Event where
  | mount
  | unmount
  | opened (j : ℕ)
  | message (j : ℕ) (data : Option String)
  | closing (j : ℕ)
  | closed (j : ℕ)
  | timeout (i : ℕ)
  | send (frame : ClientFrame) (sentAtNanos : Option ℤ) (answer : Bool)

/-- A socket with another state of its own, whose handler, if it still has one, has run. -/
def fire (h : Hook) (j : ℕ) (readyState : ReadyState) (handler : Hook → ℕ → Hook) : Hook :=
  let attached := (h.sockets j).attached
  let h := h.setSocket j { h.sockets j with readyState }
  if attached then handler h (h.sockets j).effect else h

/-- A step of the hook. A socket opens once, gets messages while it is open, and closes once; it may
be closing for a while before. -/
inductive Step (parse : String → Option Json) (h : Hook) : Event → Hook → Prop where
  /-- The hook is mounted. -/
  | mount : h.mounted = none → Step parse h .mount h.mount
  /-- It is cleaned up. -/
  | unmount {i : ℕ} : h.mounted = some i →
    Step parse h .unmount { h.cleanup i with mounted := none }
  /-- A socket opens. -/
  | opened {j : ℕ} : (h.sockets j).readyState = .connecting →
    Step parse h (.opened j) (h.fire j .open onOpen)
  /-- A message comes in. -/
  | message {j : ℕ} {data : Option String} : (h.sockets j).readyState = .open →
    Step parse h (.message j data) (h.fire j .open fun h i => h.onMessage parse i data)
  /-- A socket begins to close. -/
  | closing {j : ℕ} : (h.sockets j).readyState = .connecting ∨ (h.sockets j).readyState = .open →
    Step parse h (.closing j) (h.setSocket j { h.sockets j with readyState := .closing })
  /-- It has closed. -/
  | closed {j : ℕ} : (h.sockets j).readyState ≠ .closed →
    Step parse h (.closed j) (h.fire j .closed fun h i => h.onClose i j)
  /-- A timer goes off. -/
  | timeout {i delay : ℕ} : (h.effects i).timer = some delay →
    Step parse h (.timeout i) ((h.setEffect i { h.effects i with timer := none }).connect i)
  /-- A frame is sent. -/
  | send {frame : ClientFrame} {sentAtNanos : Option ℤ} :
    Step parse h (.send frame sentAtNanos (h.send frame sentAtNanos).2) (h.send frame sentAtNanos).1

/-- A run of the hook from its start. -/
inductive Runs (parse : String → Option Json) : List Event → Hook → Prop where
  | start : Runs parse [] {}
  | step {events : List Event} {event : Event} {h h' : Hook} :
    Runs parse events h → Step parse h event h' → Runs parse (events ++ [event]) h'

/-! ## The status -/

/-- The status that the terminal shows. -/
def connection (h : Hook) : ConnectionStatus := (reduce h.actions).connection

end Hook

/-- The status of a connection action is taken over. -/
theorem connection_reducer (state : AppState) (status : ConnectionStatus) :
    (reducer state (.connection status)).connection = status := by
  simp only [reducer]
  split_ifs with h
  · exact h.symm
  · rfl

/-- A fill does not change the connection. -/
theorem connection_applyFill (state : AppState) (frame : ExecFrame) :
    (applyFill state frame).connection = state.connection := by
  unfold applyFill
  simp only
  split_ifs <;> rfl

/-- Frames and sent orders leave the status alone. -/
theorem connection_reducer_frame (state : AppState) (frame : ServerFrame) :
    (reducer state (.frame frame)).connection = state.connection := by
  cases frame with
  | book frame => rfl
  | fix frame => rfl
  | exec frame => exact connection_applyFill state frame

/-- A frame that is sent does not change the connection. -/
theorem connection_reducer_sent (state : AppState) (frame : ClientFrame) (sentAtNanos : Option ℤ) :
    (reducer state (.sent frame sentAtNanos)).connection = state.connection := by
  cases frame with
  | cancel => rfl
  | new frame =>
    simp only [reducer, applySent]
    split_ifs <;> rfl

namespace Hook

@[simp]
theorem connection_dispatch_connection (h : Hook) (status : ConnectionStatus) :
    (h.dispatch (.connection status)).connection = status := by
  rw [connection, dispatch, reduce_append, connection_reducer]

@[simp]
theorem connection_dispatch_frame (h : Hook) (frame : ServerFrame) :
    (h.dispatch (.frame frame)).connection = h.connection := by
  rw [connection, dispatch, reduce_append, connection_reducer_frame]
  rfl

@[simp]
theorem connection_dispatch_sent (h : Hook) (frame : ClientFrame) (sentAtNanos : Option ℤ) :
    (h.dispatch (.sent frame sentAtNanos)).connection = h.connection := by
  rw [connection, dispatch, reduce_append, connection_reducer_sent]
  rfl

/-! ## One socket or one timer -/

/-- A socket that a mounted hook uses: it has its handlers, and the terminal shows that it is open
as soon as it is. -/
structure Uses (h : Hook) (i j : ℕ) : Prop where
  /-- The effect is the one that is mounted. -/
  mounted : h.mounted = some i
  /-- The socket is the one that `send` uses. -/
  socketRef : h.socketRef = some j
  /-- The effect was not cleaned up. -/
  disposed : (h.effects i).disposed = false
  /-- The socket is the one of the effect. -/
  socket : (h.effects i).socket = some j
  /-- No timer runs. -/
  timer : (h.effects i).timer = none
  /-- The handlers of the socket are those of the effect. -/
  effect : (h.sockets j).effect = i
  /-- They are attached. -/
  attached : (h.sockets j).attached = true
  /-- The socket has not closed. -/
  readyState : (h.sockets j).readyState ≠ .closed
  /-- The terminal shows an open socket as open. -/
  isOpen : (h.sockets j).readyState = .open → h.connection = .open
  /-- It shows no other one as open. -/
  notOpen : (h.sockets j).readyState = .connecting → h.connection ≠ .open

/-- A hook that waits for its timer. -/
structure Waits (h : Hook) (i : ℕ) : Prop where
  /-- The effect is the one that is mounted. -/
  mounted : h.mounted = some i
  /-- `send` has no socket. -/
  socketRef : h.socketRef = none
  /-- The effect was not cleaned up. -/
  disposed : (h.effects i).disposed = false
  /-- The effect has no socket. -/
  socket : (h.effects i).socket = none
  /-- A timer runs, with the delay of the last attempt. -/
  timer : ∃ attempt, (h.effects i).attempt = attempt + 1 ∧
    (h.effects i).timer = some (backoffMs attempt)
  /-- The terminal shows that it reconnects. -/
  connection : h.connection = .reconnecting

/-- What a hook is doing. -/
inductive Phase (h : Hook) : Prop where
  /-- The hook is not mounted. -/
  | unmounted (hmounted : h.mounted = none) (href : h.socketRef = none)
  /-- It has a socket. -/
  | live {i j : ℕ} (huses : h.Uses i j)
  /-- It waits for its timer. -/
  | waiting {i : ℕ} (hwaits : h.Waits i)

/-- A socket that nobody uses: it has no handlers and is on its way out. -/
structure Discarded (socket : WebSocket) : Prop where
  /-- The handlers are gone. -/
  attached : socket.attached = false
  /-- The socket is on its way out. -/
  readyState : socket.readyState = .closing ∨ socket.readyState = .closed

/-- The invariant: what the hook is doing, and that nothing else goes on. -/
structure Sound (h : Hook) : Prop where
  /-- The hook uses a socket, waits for a timer, or does neither. -/
  phase : h.Phase
  /-- Every other socket is discarded. -/
  discarded : ∀ j, h.socketRef ≠ some j → Discarded (h.sockets j)
  /-- Only the mounted effect has a timer. -/
  timers : ∀ i, h.mounted ≠ some i → (h.effects i).timer = none

/-- The hook is sound before it is mounted. -/
theorem sound_start : ({} : Hook).Sound where
  phase := .unmounted rfl rfl
  discarded _ _ := ⟨rfl, .inr rfl⟩
  timers _ _ := rfl

variable {parse : String → Option Json} {h h' : Hook} {i j : ℕ}

/-- A socket that is not on its way out is the one in use. -/
theorem Sound.socketRef_of_readyState (hs : h.Sound)
    (hclosing : (h.sockets j).readyState ≠ .closing)
    (hclosed : (h.sockets j).readyState ≠ .closed) : h.socketRef = some j := by
  by_contra hne
  exact (hs.discarded j hne).readyState.elim hclosing hclosed

/-- The socket in use is one of a mounted hook. -/
theorem Sound.uses (hs : h.Sound) (href : h.socketRef = some j) : ∃ i, h.Uses i j := by
  cases hs.phase with
  | unmounted _ hnone =>
    rw [hnone] at href
    cases href
  | @live i k huses =>
    obtain rfl : j = k := Option.some.inj (href.symm.trans huses.socketRef)
    exact ⟨i, huses⟩
  | waiting hwaits =>
    rw [hwaits.socketRef] at href
    cases href

/-- An unmounted hook has no socket. -/
theorem Sound.socketRef_of_unmounted (hs : h.Sound) (hmounted : h.mounted = none) :
    h.socketRef = none := by
  cases hs.phase with
  | unmounted _ href => exact href
  | live huses => exact absurd (hmounted.symm.trans huses.mounted) nofun
  | waiting hwaits => exact hwaits.socketRef

/-- A timer that is set is that of a mounted hook that waits. -/
theorem Sound.waits (hs : h.Sound) {delay : ℕ} (htimer : (h.effects i).timer = some delay) :
    h.Waits i := by
  have hmounted : h.mounted = some i := by
    by_contra hne
    rw [hs.timers i hne] at htimer
    cases htimer
  cases hs.phase with
  | unmounted hnone _ =>
    rw [hnone] at hmounted
    cases hmounted
  | @live k j huses =>
    obtain rfl : i = k := Option.some.inj (hmounted.symm.trans huses.mounted)
    rw [huses.timer] at htimer
    cases htimer
  | @waiting k hwaits =>
    obtain rfl : i = k := Option.some.inj (hmounted.symm.trans hwaits.mounted)
    exact hwaits

@[simp]
theorem effects_setEffect_self (h : Hook) (i : ℕ) (effect : Effect) :
    (h.setEffect i effect).effects i = effect :=
  Function.update_self ..

/-- Setting an effect leaves the others. -/
theorem effects_setEffect_of_ne (hne : j ≠ i) (h : Hook) (effect : Effect) :
    (h.setEffect i effect).effects j = h.effects j := Function.update_of_ne hne ..

@[simp]
theorem sockets_setSocket_self (h : Hook) (j : ℕ) (socket : WebSocket) :
    (h.setSocket j socket).sockets j = socket :=
  Function.update_self ..

/-- Setting a socket leaves the others. -/
theorem sockets_setSocket_of_ne (hne : i ≠ j) (h : Hook) (socket : WebSocket) :
    (h.setSocket j socket).sockets i = h.sockets i := Function.update_of_ne hne ..

/-- A mounted hook without a socket and without a timer connects. -/
theorem sound_connect (hmounted : h.mounted = some i) (hdisposed : (h.effects i).disposed = false)
    (htimer : (h.effects i).timer = none) (hdiscarded : ∀ j, Discarded (h.sockets j))
    (htimers : ∀ k, k ≠ i → (h.effects k).timer = none) : (h.connect i).Sound := by
  have hconnect : h.connect i = _ := if_neg (by rw [hdisposed]; exact Bool.false_ne_true)
  rw [hconnect]
  refine ⟨.live (i := i) (j := h.created) ⟨hmounted, rfl, ?_, ?_, ?_, ?_, ?_, ?_, ?_, ?_⟩,
    fun j hj => ?_,
    fun k hk => ?_⟩
  · exact (congrArg Effect.disposed (effects_setEffect_self ..)).trans hdisposed
  · exact congrArg Effect.socket (effects_setEffect_self ..)
  · exact (congrArg Effect.timer (effects_setEffect_self ..)).trans htimer
  · exact congrArg WebSocket.effect (sockets_setSocket_self ..)
  · exact congrArg WebSocket.attached (sockets_setSocket_self ..)
  · show ((Hook.setSocket _ h.created _).sockets h.created).readyState ≠ .closed
    rw [sockets_setSocket_self]
    exact nofun
  · show ((Hook.setSocket _ h.created _).sockets h.created).readyState = .open → _
    rw [sockets_setSocket_self]
    exact nofun
  · intro _
    show (h.dispatch _).connection ≠ .open
    rw [connection_dispatch_connection]
    split_ifs <;> exact nofun
  · have hne : j ≠ h.created := fun heq => hj (congrArg some heq.symm)
    show Discarded ((Hook.setSocket _ h.created _).sockets j)
    rw [sockets_setSocket_of_ne hne]
    exact hdiscarded j
  · have hne : k ≠ i := fun heq => hk (heq ▸ hmounted)
    show ((Hook.setEffect _ i _).effects k).timer = none
    rw [effects_setEffect_of_ne hne]
    exact htimers k hne

/-- Mounting keeps the hook sound. -/
theorem Sound.mount (hs : h.Sound) (hmounted : h.mounted = none) : h.mount.Sound := by
  have href := hs.socketRef_of_unmounted hmounted
  have htimers : ∀ i, (h.effects i).timer = none := fun i =>
    hs.timers i (by rw [hmounted]; exact nofun)
  refine sound_connect rfl ?_ ?_ (fun j => hs.discarded j (by rw [href]; exact nofun)) fun k hk =>
    ?_
  · exact congrArg Effect.disposed (Function.update_self h.mounts {} h.effects)
  · exact congrArg Effect.timer (Function.update_self h.mounts {} h.effects)
  · exact (congrArg Effect.timer (Function.update_of_ne hk {} h.effects)).trans (htimers k)

/-- Unmounting keeps the hook sound. -/
theorem Sound.unmount (hs : h.Sound) (hmounted : h.mounted = some i) :
    ({ h.cleanup i with mounted := none } : Hook).Sound := by
  have htimer : ∀ k, ((h.cleanup i).effects k).timer = none := by
    intro k
    have heffects : (h.cleanup i).effects = Function.update h.effects i
        { h.effects i with disposed := true, timer := none } := by
      unfold cleanup
      cases (h.effects i).socket <;> rfl
    rw [heffects]
    rcases eq_or_ne k i with rfl | hne
    · rw [Function.update_self]
    · rw [Function.update_of_ne hne]
      exact hs.timers k fun heq => hne (Option.some.inj (heq.symm.trans hmounted))
  have href : (h.cleanup i).socketRef = none := by
    unfold cleanup
    cases (h.effects i).socket <;> rfl
  refine ⟨.unmounted rfl href, fun j _ => ?_, fun k _ => htimer k⟩
  show Discarded ((h.cleanup i).sockets j)
  cases hs.phase with
  | unmounted hnone _ =>
    rw [hnone] at hmounted
    cases hmounted
  | @live k l huses =>
    obtain rfl : i = k := Option.some.inj (hmounted.symm.trans huses.mounted)
    have hcleanup : (h.cleanup i).sockets = Function.update h.sockets l
        { h.sockets l with attached := false, readyState := .closing } := by
      unfold cleanup
      rw [huses.socket]
      rfl
    rw [hcleanup]
    rcases eq_or_ne j l with rfl | hne
    · rw [Function.update_self]
      exact ⟨rfl, .inl rfl⟩
    · rw [Function.update_of_ne hne]
      exact hs.discarded j fun heq => hne (Option.some.inj (heq.symm.trans huses.socketRef))
  | @waiting k hwaits =>
    obtain rfl : i = k := Option.some.inj (hmounted.symm.trans hwaits.mounted)
    have hcleanup : (h.cleanup i).sockets = h.sockets := by
      unfold cleanup
      rw [hwaits.socket]
      rfl
    rw [hcleanup]
    exact hs.discarded j (by rw [hwaits.socketRef]; exact nofun)

/-- The socket in use gets another state and its handler touches neither it nor the variables but
the attempts. -/
theorem Sound.keep (hs : h.Sound) (huses : h.Uses i j) (hmounted : h'.mounted = h.mounted)
    (href : h'.socketRef = h.socketRef) (hdisposed : (h'.effects i).disposed = false)
    (hsocket : (h'.effects i).socket = (h.effects i).socket)
    (htimers : ∀ k, (h'.effects k).timer = (h.effects k).timer)
    (hothers : ∀ k, k ≠ j → h'.sockets k = h.sockets k) (heffect : (h'.sockets j).effect = i)
    (hattached : (h'.sockets j).attached = true) (hready : (h'.sockets j).readyState ≠ .closed)
    (hopen : (h'.sockets j).readyState = .open → h'.connection = .open)
    (hconnecting : (h'.sockets j).readyState = .connecting → h'.connection ≠ .open) : h'.Sound where
  phase := .live (i := i) (j := j) ⟨hmounted.trans huses.mounted,
    href.trans huses.socketRef, hdisposed, hsocket.trans huses.socket,
    (htimers i).trans huses.timer, heffect, hattached, hready, hopen, hconnecting⟩
  discarded k hk := by
    rw [href] at hk
    rw [hothers k fun heq => hk (heq ▸ huses.socketRef)]
    exact hs.discarded k hk
  timers k hk := by
    rw [hmounted] at hk
    exact (htimers k).trans (hs.timers k hk)

/-- A socket that nobody uses gets another state. -/
theorem Sound.discard (hs : h.Sound) (href : h.socketRef ≠ some j) {socket : WebSocket}
    (hsocket : Discarded socket) :
    (h.setSocket j socket).Sound := by
  refine ⟨?_, fun k hk => ?_, hs.timers⟩
  · cases hs.phase with
    | unmounted hmounted hnone => exact .unmounted hmounted hnone
    | @live i l huses =>
      have hne : l ≠ j := fun heq => href (heq ▸ huses.socketRef)
      have hsame : (h.setSocket j socket).sockets l = h.sockets l :=
        sockets_setSocket_of_ne hne h socket
      exact .live ⟨huses.mounted, huses.socketRef, huses.disposed, huses.socket, huses.timer,
        hsame ▸ huses.effect, hsame ▸ huses.attached, hsame ▸ huses.readyState,
        hsame ▸ huses.isOpen, hsame ▸ huses.notOpen⟩
    | waiting hwaits => exact .waiting { hwaits with }
  · rcases eq_or_ne k j with rfl | hne
    · rw [sockets_setSocket_self]
      exact hsocket
    · rw [sockets_setSocket_of_ne hne]
      exact hs.discarded k hk

/-- An attached handler runs for the effect of its socket. -/
theorem fire_attached (hattached : (h.sockets j).attached = true) (readyState : ReadyState)
    (handler : Hook → ℕ → Hook) :
    h.fire j readyState handler =
      handler (h.setSocket j { h.sockets j with readyState }) (h.sockets j).effect := by
  rw [fire, if_pos hattached, sockets_setSocket_self]

/-- A detached handler does not run. -/
theorem fire_detached (hattached : (h.sockets j).attached = false) (readyState : ReadyState)
    (handler : Hook → ℕ → Hook) :
    h.fire j readyState handler = h.setSocket j { h.sockets j with readyState } := by
  rw [fire, if_neg (by rw [hattached]; exact Bool.false_ne_true)]

/-- A socket that opens keeps the hook sound. -/
theorem Sound.opened (hs : h.Sound) (hready : (h.sockets j).readyState = .connecting) :
    (h.fire j .open onOpen).Sound := by
  have href := hs.socketRef_of_readyState (by rw [hready]; exact nofun)
    (by rw [hready]; exact nofun)
  obtain ⟨i, huses⟩ := hs.uses href
  have hopened : h.fire j .open onOpen =
      ((h.setSocket j { h.sockets j with readyState := .open }).setEffect i
        { h.effects i with attempt := 0 }).dispatch (.connection .open) := by
    have hdisposed : ((h.setSocket j { h.sockets j with readyState := .open }).effects i).disposed =
        false :=
      huses.disposed
    rw [fire_attached huses.attached, huses.effect, onOpen,
      if_neg (by rw [hdisposed]; exact Bool.false_ne_true)]
    rfl
  rw [hopened]
  refine hs.keep huses rfl rfl ?_ ?_ (fun k => ?_) (fun k hne => ?_) ?_ ?_ ?_ (fun _ => ?_) ?_
  · exact (congrArg Effect.disposed (effects_setEffect_self ..)).trans huses.disposed
  · show (Function.update h.effects i _ i).socket = _
    rw [Function.update_self]
  · show (Function.update h.effects i _ k).timer = _
    rcases eq_or_ne k i with rfl | hne
    · rw [Function.update_self]
    · rw [Function.update_of_ne hne]
  · exact sockets_setSocket_of_ne hne h _
  · exact (congrArg WebSocket.effect (sockets_setSocket_self ..)).trans huses.effect
  · exact (congrArg WebSocket.attached (sockets_setSocket_self ..)).trans huses.attached
  · show ((h.setSocket j _).sockets j).readyState ≠ .closed
    rw [sockets_setSocket_self]
    exact nofun
  · exact connection_dispatch_connection _ _
  · show ((h.setSocket j _).sockets j).readyState = .connecting → _
    rw [sockets_setSocket_self]
    exact nofun

/-- A message leaves the hook as it is, or adds the frame that it is. -/
theorem onMessage_cases (parse : String → Option Json) (h : Hook) (i : ℕ) (data : Option String) :
    h.onMessage parse i data = h ∨ ∃ frame,
      h.onMessage parse i data = h.dispatch (.frame frame) := by
  unfold onMessage
  split_ifs
  · exact .inl rfl
  · split
    · exact .inl rfl
    · split
      · exact .inl rfl
      · exact .inr ⟨_, rfl⟩

/-- What dispatches no status keeps the invariant where it does nothing else. -/
theorem Sound.dispatch (hs : h.Sound) {action : Action}
    (hconnection : (h.dispatch action).connection = h.connection) :
    (h.dispatch action).Sound := by
  refine ⟨?_, hs.discarded, hs.timers⟩
  cases hs.phase with
  | unmounted hmounted href => exact .unmounted hmounted href
  | live huses =>
    exact .live { huses with
      isOpen := fun hopen => hconnection.trans (huses.isOpen hopen)
      notOpen := fun hconnecting => hconnection.trans_ne (huses.notOpen hconnecting) }
  | waiting hwaits =>
    exact .waiting { hwaits with connection := hconnection.trans hwaits.connection }

/-- A socket that is set to the state that it has. -/
theorem setSocket_self (h : Hook) (j : ℕ) : h.setSocket j (h.sockets j) = h := by
  unfold setSocket
  rw [Function.update_eq_self]

/-- The handler of the socket in use runs for its effect. -/
theorem fire_open (huses : h.Uses i j) (hready : (h.sockets j).readyState = .open)
    (handler : Hook → ℕ → Hook) :
    h.fire j .open handler = handler h i := by
  have hsame : { h.sockets j with readyState := .open } = h.sockets j := by rw [← hready]
  rw [fire_attached huses.attached, hsame, setSocket_self, huses.effect]

/-- A message keeps the hook sound. -/
theorem Sound.message (hs : h.Sound) (hready : (h.sockets j).readyState = .open)
    (data : Option String) :
    (h.fire j .open fun h i => h.onMessage parse i data).Sound := by
  have href := hs.socketRef_of_readyState (by rw [hready]; exact nofun)
    (by rw [hready]; exact nofun)
  obtain ⟨i, huses⟩ := hs.uses href
  rw [fire_open huses hready]
  rcases onMessage_cases parse h i data with hsame | ⟨frame, hframe⟩
  · rw [hsame]
    exact hs
  · rw [hframe]
    exact hs.dispatch (connection_dispatch_frame h frame)

/-- A socket that begins to close keeps the hook sound. -/
theorem Sound.closing (hs : h.Sound)
    (hready : (h.sockets j).readyState = .connecting ∨ (h.sockets j).readyState = .open) :
    (h.setSocket j { h.sockets j with readyState := .closing }).Sound := by
  have href := hs.socketRef_of_readyState
    (fun heq => by rw [heq] at hready; rcases hready with h | h <;> cases h)
    (fun heq => by rw [heq] at hready; rcases hready with h | h <;> cases h)
  obtain ⟨i, huses⟩ := hs.uses href
  refine hs.keep huses rfl rfl huses.disposed rfl (fun _ => rfl) (fun k hne => ?_) ?_ ?_ ?_ ?_ ?_
  · exact sockets_setSocket_of_ne hne h _
  · exact (congrArg WebSocket.effect (sockets_setSocket_self ..)).trans huses.effect
  · exact (congrArg WebSocket.attached (sockets_setSocket_self ..)).trans huses.attached
  all_goals
    rw [sockets_setSocket_self]
    exact nofun

/-- The handler of the close event where its effect is not disposed. -/
theorem onClose_eq (h : Hook) (hdisposed : (h.effects i).disposed = false) :
    h.onClose i j =
      ((({ h.setSocket j { h.sockets j with attached := false } with
        socketRef := if h.socketRef = some j then none else h.socketRef } : Hook).dispatch
          (.connection .reconnecting)).setEffect i
        { disposed := false, socket := none, timer := some (backoffMs (h.effects i).attempt)
          attempt := (h.effects i).attempt + 1 }) := by
  rw [onClose, if_neg (by rw [hdisposed]; exact Bool.false_ne_true)]
  simp only [setEffect, dispatch, setSocket, Function.update_idem, Function.update_self, hdisposed]
  rfl

/-- A socket that has closed keeps the hook sound. -/
theorem Sound.closed (hs : h.Sound) : (h.fire j .closed fun h i => h.onClose i j).Sound := by
  by_cases href : h.socketRef = some j
  · obtain ⟨i, huses⟩ := hs.uses href
    have hclosed : h.fire j .closed (fun h i => h.onClose i j) =
        onClose (h.setSocket j { h.sockets j with readyState := .closed }) i j := by
      rw [fire_attached huses.attached, huses.effect]
    rw [hclosed, onClose_eq (h.setSocket j { h.sockets j with readyState := .closed })
      huses.disposed]
    refine ⟨.waiting (i := i) ⟨huses.mounted, if_pos href, ?_, ?_, ⟨(h.effects i).attempt, ?_, ?_⟩,
      ?_⟩, fun k _ => ?_,
      fun k hk => ?_⟩
    · exact congrArg Effect.disposed (effects_setEffect_self ..)
    · exact congrArg Effect.socket (effects_setEffect_self ..)
    · exact congrArg Effect.attempt (effects_setEffect_self ..)
    · exact congrArg Effect.timer (effects_setEffect_self ..)
    · exact connection_dispatch_connection _ _
    · show Discarded ((setSocket (h.setSocket j _) j _).sockets k)
      rcases eq_or_ne k j with rfl | hne
      · rw [sockets_setSocket_self, sockets_setSocket_self]
        exact ⟨rfl, .inr rfl⟩
      · rw [sockets_setSocket_of_ne hne, sockets_setSocket_of_ne hne]
        exact hs.discarded k fun heq => hne (Option.some.inj (heq.symm.trans href))
    · have hne : k ≠ i := fun heq => hk (heq ▸ huses.mounted)
      show ((Hook.setEffect _ i _).effects k).timer = none
      rw [effects_setEffect_of_ne hne]
      exact hs.timers k hk
  · have hdiscarded := hs.discarded j href
    rw [fire_detached hdiscarded.attached]
    refine hs.discard href ⟨hdiscarded.attached, .inr rfl⟩

/-- A timer that fires keeps the hook sound. -/
theorem Sound.timeout (hs : h.Sound) {delay : ℕ} (htimer : (h.effects i).timer = some delay) :
    ((h.setEffect i { h.effects i with timer := none }).connect i).Sound := by
  have hwaits := hs.waits htimer
  refine sound_connect hwaits.mounted ?_ ?_
    (fun j => hs.discarded j (by rw [hwaits.socketRef]; exact nofun))
    fun k hne => ?_
  · exact (congrArg Effect.disposed (effects_setEffect_self ..)).trans hwaits.disposed
  · exact congrArg Effect.timer (effects_setEffect_self ..)
  · rw [effects_setEffect_of_ne hne]
    exact hs.timers k fun heq => hne (Option.some.inj (heq.symm.trans hwaits.mounted))

/-- A frame that is written goes to the socket in use, and one that is not leaves the hook as it
is. -/
theorem send_cases (h : Hook) (frame : ClientFrame) (sentAtNanos : Option ℤ) :
    h.send frame sentAtNanos = (h, false) ∨
      ∃ j, h.socketRef = some j ∧ (h.sockets j).readyState = .open ∧
        h.send frame sentAtNanos =
          ({ h with written := h.written ++ [(j, frame)] }.dispatch (.sent frame sentAtNanos),
            true) := by
  unfold send
  cases href : h.socketRef with
  | none => exact .inl rfl
  | some j =>
    simp only
    split_ifs with hready
    · exact .inl rfl
    · exact .inr ⟨j, rfl, not_not.mp hready, rfl⟩

/-- A send keeps the hook sound. -/
theorem Sound.send (hs : h.Sound) (frame : ClientFrame) (sentAtNanos : Option ℤ) :
    (h.send frame sentAtNanos).1.Sound := by
  rcases send_cases h frame sentAtNanos with hsame | ⟨j, -, -, hsend⟩
  · rw [hsame]
    exact hs
  · rw [hsend]
    have hwritten : Sound { h with written := h.written ++ [(j, frame)] } := by
      refine ⟨?_, hs.discarded, hs.timers⟩
      cases hs.phase with
      | unmounted hmounted href => exact .unmounted hmounted href
      | live huses => exact .live { huses with }
      | waiting hwaits => exact .waiting { hwaits with }
    exact hwritten.dispatch (connection_dispatch_sent _ frame sentAtNanos)

/-- Each step keeps the invariant. -/
theorem Sound.step {event : Event} (hs : h.Sound) (hstep : Step parse h event h') : h'.Sound := by
  cases hstep with
  | mount hmounted => exact hs.mount hmounted
  | unmount hmounted => exact hs.unmount hmounted
  | opened hready => exact hs.opened hready
  | message hready => exact hs.message hready _
  | closing hready => exact hs.closing hready
  | closed _ => exact hs.closed
  | timeout htimer => exact hs.timeout htimer
  | send => exact hs.send _ _

/-- The hook is sound in every run. -/
theorem Runs.sound {events : List Event} (hrun : Runs parse events h) : h.Sound := by
  induction hrun with
  | start => exact sound_start
  | step _ hstep ih => exact ih.step hstep

/-- The backoff is between its base and its maximum. -/
theorem backoffMs_bounds (attempt : ℕ) :
    baseBackoffMs ≤ backoffMs attempt ∧ backoffMs attempt ≤ maxBackoffMs := by
  refine ⟨le_min (Nat.le_mul_of_pos_right _ (Nat.two_pow_pos attempt)) (by decide),
    min_le_right _ _⟩

/-! ## What is dispatched and written -/

/-- The frames and the sent orders among some actions. -/
def traffic (actions : List Action) : List Action :=
  actions.filter fun
    | .connection _ => false
    | .frame _ => true
    | .sent _ _ => true

/-- What an event has the reducer learn: the frame that a message is, and the order of a send that
said yes. -/
def Event.traffic (parse : String → Option Json) : Event → List Action
  | .message _ (some text) => (parseServerFrame parse text).toList.map .frame
  | .send frame sentAtNanos true => [.sent frame sentAtNanos]
  | _ => []

/-- The frames that an event writes. -/
def Event.written : Event → List ClientFrame
  | .send frame _ true => [frame]
  | _ => []

/-- The traffic of two stretches of actions is that of both. -/
theorem traffic_append (actions more : List Action) :
    traffic (actions ++ more) = traffic actions ++ traffic more :=
  List.filter_append ..

/-- A connection action is no traffic. -/
theorem traffic_connection (actions : List Action) (status : ConnectionStatus) :
    traffic (actions ++ [.connection status]) = traffic actions := by
  rw [traffic_append]
  exact List.append_nil _

/-- What a step may not do without traffic. -/
structure Quiet (h h' : Hook) : Prop where
  traffic : traffic h'.actions = traffic h.actions
  written : h'.written = h.written

/-- Where nothing happens there is no traffic. -/
theorem quiet_refl (h : Hook) : h.Quiet h := ⟨rfl, rfl⟩

/-- Where the actions and what is written are the same there is no traffic. -/
theorem Quiet.of_eq {g : Hook} (hq : g.Quiet h') (hactions : g.actions = h.actions)
    (hwritten : g.written = h.written) :
    h.Quiet h' := ⟨hq.traffic.trans (congrArg Hook.traffic hactions), hq.written.trans hwritten⟩

/-- Connecting is no traffic. -/
theorem quiet_connect (h : Hook) (i : ℕ) : h.Quiet (h.connect i) := by
  unfold connect
  split_ifs
  · exact quiet_refl h
  · exact ⟨traffic_connection _ _, rfl⟩
  · exact ⟨traffic_connection _ _, rfl⟩

/-- The opening of a socket is no traffic. -/
theorem quiet_onOpen (h : Hook) (i : ℕ) : h.Quiet (h.onOpen i) := by
  unfold onOpen
  split_ifs
  · exact quiet_refl h
  · exact ⟨traffic_connection _ _, rfl⟩

/-- The closing of a socket is no traffic. -/
theorem quiet_onClose (h : Hook) (i j : ℕ) : h.Quiet (h.onClose i j) := by
  cases hdisposed : (h.effects i).disposed with
  | true =>
    rw [onClose, if_pos hdisposed]
    exact quiet_refl h
  | false =>
    rw [onClose_eq h hdisposed]
    exact ⟨traffic_connection _ _, rfl⟩

/-- The cleanup of an effect is no traffic. -/
theorem quiet_cleanup (h : Hook) (i : ℕ) : h.Quiet (h.cleanup i) := by
  unfold cleanup
  cases (h.effects i).socket <;> exact ⟨rfl, rfl⟩

/-- A quiet handler that is fired is no traffic. -/
theorem quiet_fire {readyState : ReadyState} {handler : Hook → ℕ → Hook}
    (hquiet : ∀ h i, Quiet h (handler h i)) (h : Hook) (j : ℕ) :
    h.Quiet (h.fire j readyState handler) := by
  unfold fire
  simp only
  split_ifs
  · exact (hquiet _ _).of_eq rfl rfl
  · exact ⟨rfl, rfl⟩

/-- What a step adds to the traffic and to what is written. -/
theorem Sound.traffic_step {event : Event} (hs : h.Sound) (hstep : Step parse h event h') :
    traffic h'.actions = traffic h.actions ++ event.traffic parse ∧
      h'.written.map Prod.snd = h.written.map Prod.snd ++ event.written := by
  have hquiet : ∀ {event : Event}, h.Quiet h' → event.traffic parse = [] → event.written = [] →
      traffic h'.actions = traffic h.actions ++ event.traffic parse ∧
        h'.written.map Prod.snd = h.written.map Prod.snd ++ event.written := by
    intro event hq htraffic hwritten
    rw [htraffic, hwritten, List.append_nil, List.append_nil]
    exact ⟨hq.traffic, congrArg _ hq.written⟩
  cases hstep with
  | mount _ => exact hquiet ((quiet_connect _ _).of_eq rfl rfl) rfl rfl
  | @unmount i _ =>
    have hcleanup := quiet_cleanup h i
    exact hquiet ⟨hcleanup.traffic, hcleanup.written⟩ rfl rfl
  | @opened j _ => exact hquiet (quiet_fire quiet_onOpen h j) rfl rfl
  | closing _ => exact hquiet ⟨rfl, rfl⟩ rfl rfl
  | @closed j _ => exact hquiet (quiet_fire (fun h i => quiet_onClose h i j) h j) rfl rfl
  | timeout _ => exact hquiet ((quiet_connect _ _).of_eq rfl rfl) rfl rfl
  | @message j data hready =>
    have href := hs.socketRef_of_readyState (by rw [hready]; exact nofun)
      (by rw [hready]; exact nofun)
    obtain ⟨i, huses⟩ := hs.uses href
    have hdisposed : ¬ (h.effects i).disposed := by
      rw [huses.disposed]
      exact Bool.false_ne_true
    rw [fire_open huses hready]
    unfold onMessage
    rw [if_neg hdisposed]
    cases data with
    | none => exact ⟨(List.append_nil _).symm, (List.append_nil _).symm⟩
    | some text =>
      simp only [Event.traffic]
      cases parseServerFrame parse text with
      | none => exact ⟨(List.append_nil _).symm, (List.append_nil _).symm⟩
      | some frame => exact ⟨traffic_append _ _, (List.append_nil _).symm⟩
  | @send frame sentAtNanos =>
    rcases send_cases h frame sentAtNanos with hsame | ⟨j, -, -, hsend⟩
    · rw [hsame]
      exact ⟨(List.append_nil _).symm, (List.append_nil _).symm⟩
    · rw [hsend]
      exact ⟨traffic_append _ _, List.map_append ..⟩

/-- An unmounted hook does nothing until it is mounted again. -/
theorem Sound.idle_step {event : Event} (hs : h.Sound) (hmounted : h.mounted = none)
    (hstep : Step parse h event h') (hne : event ≠ .mount) :
    h'.actions = h.actions ∧ h'.written = h.written ∧ h'.mounted = none := by
  have href := hs.socketRef_of_unmounted hmounted
  have hidle : ∀ {j : ℕ} {readyState : ReadyState} {handler : Hook → ℕ → Hook},
      (h.fire j readyState handler).actions = h.actions ∧
      (h.fire j readyState handler).written = h.written ∧
        (h.fire j readyState handler).mounted = none := by
    intro j readyState handler
    rw [fire_detached (hs.discarded j (by rw [href]; exact nofun)).attached]
    exact ⟨rfl, rfl, hmounted⟩
  cases hstep with
  | mount _ => exact absurd rfl hne
  | unmount hsome =>
    rw [hmounted] at hsome
    cases hsome
  | opened _ => exact hidle
  | message _ => exact hidle
  | closing _ => exact ⟨rfl, rfl, hmounted⟩
  | closed _ => exact hidle
  | timeout htimer =>
    rw [hs.timers _ (by rw [hmounted]; exact nofun)] at htimer
    cases htimer
  | @send frame sentAtNanos =>
    rcases send_cases h frame sentAtNanos with hsame | ⟨j, hsome, -, -⟩
    · rw [hsame]
      exact ⟨rfl, rfl, hmounted⟩
    · rw [href] at hsome
      cases hsome

/-! ## The results -/

/-- However the sockets open, fail and close, the timers go off and the hook is mounted and cleaned
up: at most one socket has handlers or is not on its way out, and it is the one that `send` uses. A
mounted hook has this socket and no timer, or it has one timer of 250 to 4000 milliseconds and shows
that it reconnects. An unmounted one has neither, and nothing but another mount has it dispatch or
write. -/
theorem Runs.one_socket {events : List Event} (hrun : Runs parse events h) :
    (∀ j : ℕ, (h.sockets j).attached = true ∨ (h.sockets j).readyState = .connecting ∨
        (h.sockets j).readyState = .open → h.socketRef = some j) ∧
    (∀ j : ℕ, h.socketRef = some j → (h.sockets j).attached = true ∧
      (h.sockets j).readyState ≠ .closed ∧
      ((h.sockets j).readyState = .open → h.connection = .open) ∧
      ((h.sockets j).readyState = .connecting → h.connection ≠ .open)) ∧
    (∀ i : ℕ, h.mounted = some i →
      (∃ j : ℕ, h.socketRef = some j ∧ (h.sockets j).effect = i ∧ ∀ k : ℕ,
        (h.effects k).timer = none) ∨
      (h.socketRef = none ∧ h.connection = .reconnecting ∧
        (∀ k : ℕ, k ≠ i → (h.effects k).timer = none) ∧
        ∃ delay : ℕ, (h.effects i).timer = some delay ∧ 250 ≤ delay ∧ delay ≤ 4000)) ∧
    (h.mounted = none → h.socketRef = none ∧ (∀ i : ℕ, (h.effects i).timer = none) ∧
      ∀ (event : Event) (h' : Hook), Step parse h event h' → event ≠ .mount →
        h'.actions = h.actions ∧ h'.written = h.written ∧ h'.mounted = none) := by
  have hs := hrun.sound
  refine ⟨fun j hj => ?_, fun j href => ?_, fun i hmounted => ?_, fun hmounted => ?_⟩
  · by_contra hne
    obtain ⟨hattached, hready⟩ := hs.discarded j hne
    rw [hattached] at hj
    rcases hj with hj | hj | hj
    · cases hj
    all_goals
      rw [hj] at hready
      rcases hready with hready | hready <;> cases hready
  · obtain ⟨i, huses⟩ := hs.uses href
    exact ⟨huses.attached, huses.readyState, huses.isOpen, huses.notOpen⟩
  · cases hs.phase with
    | unmounted hnone _ =>
      rw [hnone] at hmounted
      cases hmounted
    | @live k j huses =>
      obtain rfl : i = k := Option.some.inj (hmounted.symm.trans huses.mounted)
      refine .inl ⟨j, huses.socketRef, huses.effect, fun k => ?_⟩
      rcases eq_or_ne k i with rfl | hne
      · exact huses.timer
      · exact hs.timers k fun heq => hne (Option.some.inj (heq.symm.trans hmounted))
    | @waiting k hwaits =>
      obtain rfl : i = k := Option.some.inj (hmounted.symm.trans hwaits.mounted)
      obtain ⟨attempt, -, htimer⟩ := hwaits.timer
      obtain ⟨hmin, hmax⟩ := backoffMs_bounds attempt
      refine .inr ⟨hwaits.socketRef, hwaits.connection, fun k hne => ?_, _, htimer, hmin, hmax⟩
      exact hs.timers k fun heq => hne (Option.some.inj (heq.symm.trans hmounted))
  · have href : h.socketRef = none := hs.socketRef_of_unmounted hmounted
    have htimers : ∀ i, (h.effects i).timer = none := fun i =>
      hs.timers i (by rw [hmounted]; exact nofun)
    exact ⟨href, htimers, fun event h' hstep hne => hs.idle_step hmounted hstep hne⟩

/-- A terminal whose first socket opened and closed waits for its timer. -/
theorem one_socket_closed :
    ∃ h : Hook, Runs (fun _ => none) [.mount, .opened 0, .closed 0] h ∧ h.mounted = some 0 ∧
    ((∃ j : ℕ, h.socketRef = some j ∧ (h.sockets j).effect = 0 ∧ ∀ k : ℕ,
      (h.effects k).timer = none) ∨
      (h.socketRef = none ∧ h.connection = .reconnecting ∧
        (∀ k : ℕ, k ≠ 0 → (h.effects k).timer = none) ∧
        ∃ delay : ℕ, (h.effects 0).timer = some delay ∧ 250 ≤ delay ∧ delay ≤ 4000)) := by
  have hstart : Runs (fun _ => none) [] {} := .start
  have hrun := (hstart.step (.mount rfl)).step (.opened (j := 0) rfl)
  have hclosed := hrun.step (.closed (j := 0) (by decide))
  exact ⟨_, hclosed, rfl, hclosed.one_socket.2.2.1 0 rfl⟩

/-- The frames and sent orders that the reducer got are exactly the messages that are frames and the
sends that said yes, in the order in which they happened, whatever sockets came and went meanwhile;
and the frames that were written are those of the sends that said yes. A send says yes only while
the terminal shows that it is open, and a mounted terminal that shows it says no only while its
socket is closing. -/
theorem Runs.streams {events : List Event} (hrun : Runs parse events h) :
    traffic h.actions = events.flatMap (Event.traffic parse) ∧
    h.written.map Prod.snd = events.flatMap Event.written ∧
    ∀ (frame : ClientFrame) (sentAtNanos : Option ℤ),
      ((h.send frame sentAtNanos).2 = true → h.connection = .open) ∧
      (h.mounted ≠ none → h.connection = .open → (h.send frame sentAtNanos).2 = false →
        ∃ j : ℕ, h.socketRef = some j ∧ (h.sockets j).readyState = .closing) := by
  refine ⟨?_, ?_, fun frame sentAtNanos => ⟨fun hyes => ?_, fun hmounted hopen hno => ?_⟩⟩
  · induction hrun with
    | start => rfl
    | step hrun hstep ih =>
      rw [(hrun.sound.traffic_step hstep).1, ih, List.flatMap_append, List.flatMap_singleton]
  · induction hrun with
    | start => rfl
    | step hrun hstep ih =>
      rw [(hrun.sound.traffic_step hstep).2, ih, List.flatMap_append, List.flatMap_singleton]
  · rcases send_cases h frame sentAtNanos with hsame | ⟨j, href, hready, -⟩
    · rw [hsame] at hyes
      cases hyes
    · obtain ⟨i, huses⟩ := hrun.sound.uses href
      exact huses.isOpen hready
  · cases hrun.sound.phase with
    | unmounted hnone _ => exact absurd hnone hmounted
    | waiting hwaits =>
      rw [hwaits.connection] at hopen
      cases hopen
    | @live i j huses =>
      refine ⟨j, huses.socketRef, ?_⟩
      cases hready : (h.sockets j).readyState with
      | connecting => exact absurd hopen (huses.notOpen hready)
      | closing => rfl
      | closed => exact absurd hready huses.readyState
      | «open» =>
        have hyes : (h.send frame sentAtNanos).2 = true := by
          unfold send
          rw [huses.socketRef]
          exact congrArg Prod.snd (if_neg (not_not.mpr hready))
        rw [hyes] at hno
        cases hno

/-- The frame of an empty book. -/
def emptyFrame : Json :=
  .obj [("type", .str "BOOK"), ("bestBid", .int (-1)), ("bestAsk", .int (-1)), ("bids", .arr []),
    ("asks", .arr []), ("timestamp", .int 5)]

/-- Its text. -/
def emptyText : String :=
  "\x7b\x22type\x22:\x22BOOK\x22,\x22bestBid\x22:-1,\x22bestAsk\x22:-1,\x22bids\x22:[]," ++
    "\x22asks\x22:[],\x22timestamp\x22:5\x7d"

example : emptyFrame.text? = some emptyText := by decide +kernel

/-- A terminal that got a frame and something else, sent a cancel, lost its socket and got the frame
again on another one. -/
theorem streams_sent : ∃ (h : Hook) (book : BookState),
    Runs (fun raw => if raw = emptyText then some emptyFrame else none)
      [.mount, .opened 0, .message 0 (some emptyText), .message 0 (some ""),
        .send (.cancel 2 1) none true, .closed 0, .timeout 0, .opened 1,
        .message 1 (some emptyText)] h ∧
    traffic h.actions =
      [.frame (.book book), .sent (.cancel 2 1) none, .frame (.book book)] ∧
    h.written.map Prod.snd = [.cancel 2 1] := by
  have hstart : Runs (fun raw => if raw = emptyText then some emptyFrame else none) [] {} := .start
  have hopen := (hstart.step (.mount rfl)).step (.opened (j := 0) rfl)
  have hmessages := (hopen.step (@Step.message _ _ 0 (some emptyText) rfl)).step
    (@Step.message _ _ 0 (some "") (by decide +kernel))
  have hsent := hmessages.step (@Step.send _ _ (.cancel 2 1) none)
  have hagain := ((hsent.step (.closed (j := 0) (by decide +kernel))).step
    (@Step.timeout _ _ 0 250 (by decide +kernel))).step (.opened (j := 1) (by decide +kernel))
  have hlast := hagain.step (@Step.message _ _ 1 (some emptyText) (by decide +kernel))
  exact ⟨_, _, hlast, hlast.streams.1, hlast.streams.2.1⟩

end Hook

end Terminal

end MatchingVenue
