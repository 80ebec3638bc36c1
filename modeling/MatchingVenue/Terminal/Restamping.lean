import MatchingVenue.Gateway.Reuse
import MatchingVenue.Terminal.OwnCancels

/-!
# Sessions up to the stamps of their requests

The venue stamps a request when it takes it in, while a request of a session has its stamp from the
moment when it is sent. That is no difference: whatever a session can come to, it can come to with
any other stamps on the requests that are still on their way (`ReachableBy.restamp`). What the
clients may send is a parameter here. `SendsFresh` is any frame whose order has an id that is new,
and `SendsOwn` leaves them no cancel but those of their blotters.
-/

namespace MatchingVenue

universe u

namespace Terminal

open MatchingEngineHandler

/-- The request of a frame at another time. -/
theorem request_stamped (timestamp now : ℤ) (frame : ClientFrame) :
    (request timestamp frame).map (·.stamped now) = request now frame := by
  cases frame <;> simp only [request, apply_ite (Option.map _), Option.map_some, Option.map_none]
    <;> rfl

namespace Session

variable {Client : Type u} [DecidableEq Client]

/-- What can happen where a client may send some frames, given what the terminals have done so
far. -/
inductive StepBy (may : (Client → List Action) → Client → ClientFrame → Prop) :
    Session Client → Session Client → Prop where
  /-- A client sends what it may. -/
  | send {s : Session Client} {c : Client} {frame : ClientFrame} {sentAtNanos : Option ℤ}
    {timestamp : ℤ} :
    may s.actions c frame → StepBy may s (s.send c frame sentAtNanos timestamp)
  /-- The handler processes the oldest request of a client. -/
  | process {s : Session Client} {c : Client} {event : OrderEvent} {rest : List OrderEvent} :
    s.inFlight c = event :: rest → StepBy may s (s.process c event rest)
  /-- A client receives the next report. -/
  | receive {s : Session Client} {c : Client} {frame : ExecFrame} :
    (after s.events).outbound[(execs (s.actions c)).length]? = some frame.toExecutionEvent →
    StepBy may s (s.act c (.frame (.exec frame)))
  /-- Anything else happens at a terminal. -/
  | other {s : Session Client} {c : Client} {action : Action} :
    action.execFrame = none → (∀ frame sentAtNanos, action ≠ .sent frame sentAtNanos) →
      StepBy may s (s.act c action)

/-- The sessions that come about so. -/
def ReachableBy (may : (Client → List Action) → Client → ClientFrame → Prop)
    (s : Session Client) : Prop :=
  Relation.ReflTransGen (StepBy may) {} s

omit [DecidableEq Client] in
/-- A frame whose order has an id that no client has used. -/
def SendsFresh (actions : Client → List Action) (_ : Client) (frame : ClientFrame) : Prop :=
  ∀ X ∈ (Action.sent frame none).sentId, ∀ d, X ∉ sentIds (actions d)

omit [DecidableEq Client] in
/-- A new order under an id that no client has used, or the cancel of a row with a button. -/
def SendsOwn (actions : Client → List Action) (c : Client) : ClientFrame → Prop
  | .new order => ∀ d, order.clOrdId ∉ sentIds (actions d)
  | .cancel _ origClOrdId =>
    ∃ row ∈ (reduce (actions c)).myOrders, isCancellable row.status = true ∧
      row.clOrdId = origClOrdId

variable {may : (Client → List Action) → Client → ClientFrame → Prop} {s : Session Client}

/-- A session that is reached with fresh ids is reached. -/
theorem ReachableBy.reachable (h : s.ReachableBy SendsFresh) : s.Reachable := by
  refine Relation.ReflTransGen.mono (fun u v hstep => ?_) _ _ h
  cases hstep with
  | @send c frame sentAtNanos timestamp hmay =>
    exact .send fun X hX => hmay X (by cases frame <;> exact hX)
  | process hoffers => exact .process hoffers
  | receive hnext => exact .receive hnext
  | other hexec hsent => exact .other hexec hsent

/-- A session that is reached with own cancels in this way is reached with own cancels. -/
theorem ReachableBy.ownReachable (h : s.ReachableBy SendsOwn) : s.OwnReachable := by
  refine Relation.ReflTransGen.mono (fun u v hstep => ?_) _ _ h
  cases hstep with
  | @send c frame sentAtNanos timestamp hmay =>
    cases frame with
    | new order => exact .new hmay
    | cancel clOrdId origClOrdId =>
      obtain ⟨row, hrow, hstatus, rfl⟩ := hmay
      exact .cancel hrow hstatus
  | process hoffers => exact .process hoffers
  | receive hnext => exact .receive hnext
  | other hexec hsent => exact .other hexec hsent

/-! ## Other stamps -/

/-- The same event at another time. -/
def Restamped (event event' : OrderEvent) : Prop := ∃ now, event' = event.stamped now

/-- An event is itself with another stamp. -/
theorem Restamped.refl (event : OrderEvent) : Restamped event event := ⟨event.timestamp, rfl⟩

/-- A request with another stamp is the request at another time. -/
theorem exists_request_of_restamped {timestamp : ℤ} {frame : ClientFrame} {events : List OrderEvent}
    (h : List.Forall₂ Restamped (request timestamp frame).toList events) :
    ∃ now, events = (request now frame).toList := by
  cases hrequest : request timestamp frame with
  | none =>
    rw [hrequest] at h
    exact ⟨timestamp, by rw [hrequest]; exact List.forall₂_nil_left_iff.mp h⟩
  | some event =>
    rw [hrequest, Option.toList_some] at h
    obtain ⟨event', events', ⟨now, rfl⟩, hrest, rfl⟩ := List.forall₂_cons_left_iff.mp h
    obtain rfl := List.forall₂_nil_left_iff.mp hrest
    exact ⟨now, by rw [← request_stamped timestamp now, hrequest]; rfl⟩

/-- What can come about can come about with other stamps on the requests that are on their way. By
induction on the steps: the stamps of these requests are chosen when they are sent, and a request
that was processed is on its way no more. -/
theorem ReachableBy.restamp (h : s.ReachableBy may) {inFlight : Client → List OrderEvent}
    (hinFlight : ∀ c, List.Forall₂ Restamped (s.inFlight c) (inFlight c)) :
    ({ s with inFlight } : Session Client).ReachableBy may := by
  induction h generalizing inFlight with
  | refl =>
    have hnone : inFlight = fun _ => [] := funext fun c =>
      List.forall₂_nil_left_iff.mp (hinFlight c)
    rw [hnone]
    exact .refl
  | @tail s t hs hstep ih =>
    cases hstep with
    | @send c frame sentAtNanos timestamp hmay =>
      have hqueue := hinFlight c
      rw [inFlight_send_self] at hqueue
      have hbefore := (List.forall₂_take_append _ _ _ hqueue.flip).flip
      obtain ⟨now, hlast⟩ := exists_request_of_restamped
        (List.forall₂_drop_append _ _ _ hqueue.flip).flip
      have hsplit := List.take_append_drop (s.inFlight c).length (inFlight c)
      rw [hlast] at hsplit
      generalize (inFlight c).take (s.inFlight c).length = before at hbefore hsplit
      have hstart : ({ s with inFlight := Function.update inFlight c before } : Session
          Client).ReachableBy may := by
        refine ih fun d => ?_
        by_cases hd : d = c
        · subst hd
          rw [Function.update_self]
          exact hbefore
        · rw [Function.update_of_ne hd, ← inFlight_send_of_ne hd frame sentAtNanos timestamp]
          exact hinFlight d
      have hqueues : Function.update (Function.update inFlight c before) c
          (Function.update inFlight c before c ++ (request now frame).toList) = inFlight := by
        rw [Function.update_idem, Function.update_self, hsplit, Function.update_eq_self]
      have hnext := hstart.tail (@StepBy.send _ _ _ _ c frame sentAtNanos now hmay)
      rw [send, act, hqueues] at hnext
      exact hnext
    | @process c event rest hoffers =>
      have hrest := hinFlight c
      rw [inFlight_process_self] at hrest
      have hstart : ({ s with inFlight := Function.update inFlight c (event :: inFlight c) } :
          Session Client).ReachableBy may := by
        refine ih fun d => ?_
        by_cases hd : d = c
        · subst hd
          rw [Function.update_self, hoffers]
          exact .cons (.refl event) hrest
        · rw [Function.update_of_ne hd, ← inFlight_process_of_ne hd event rest]
          exact hinFlight d
      have hnext := hstart.tail (.process (Function.update_self ..))
      rw [process, Function.update_idem, Function.update_eq_self] at hnext
      exact hnext
    | @receive c frame hnext => exact (ih hinFlight).tail (.receive hnext)
    | @other c action hexec hsent => exact (ih hinFlight).tail (.other hexec hsent)

end Session

end Terminal

end MatchingVenue
