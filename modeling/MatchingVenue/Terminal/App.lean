import MatchingVenue.Terminal.Connection
import MatchingVenue.Terminal.OrderEntry
import MatchingVenue.Terminal.Session

/-!
# The terminal as a whole

The root of the terminal makes the id of each message that it sends. Three controls ask it to send
something: the order ticket, the ticket for cancels and the buttons of the blotter. Each request
takes the next id, whether the socket takes its frame or not. So the frames that are written have
the ids of their requests, strictly increasing from the seed on, and the gateway takes every one of
them (`Runs.ids_increase`, `Runs.frames_taken`).
-/

namespace MatchingVenue

namespace Terminal

/-! ## The ids -/

/-- The next id, with the one after it. -/
def nextClOrdId (next : ℤ) : Except String (ℤ × ℤ) :=
  if ¬ Double.isSafe next.natAbs then .error "clOrdId exhausted the safe-integer range"
    else .ok (next, next + 1)

/-- The CANCEL frame of an order. -/
def cancelOrderFrame (clOrdId origClOrdId : ℤ) : Except String ClientFrame := do
  requirePositiveInt clOrdId "clOrdId"
  requirePositiveInt origClOrdId "origClOrdId"
  return .cancel clOrdId origClOrdId

/-! ## The ticket for cancels -/

/-- What a cancel of no valid id is refused with. -/
def idReason : String := "Order ID must be a positive whole number"

/-- The id that was typed. -/
def validateOrigClOrdId (input : Text) : Except String ℕ :=
  let trimmed := trim input
  if ¬ matchDigits trimmed then .error idReason
  else match positiveSafe (number trimmed) with
  | none => .error idReason
  | some id => .ok id

/-- The state of the ticket. -/
structure CancelTicket where
  idInput : Text := []
  error : Option String := none
  deriving DecidableEq, Repr

/-- A submit: the ticket after it, and the id that it asks to cancel. The field is emptied behind
the call of `onCancel`, so an error of that call leaves the text in it. -/
def CancelTicket.submit (disabled : Bool) (onCancel : ℤ → Except String Unit) (t : CancelTicket) :
    CancelTicket × Option ℕ :=
  if disabled then (t, none)
  else match validateOrigClOrdId t.idInput with
  | .error reason => ({ t with error := some reason }, none)
  | .ok origClOrdId =>
    match onCancel origClOrdId with
    | .error _ => ({ t with error := none }, some origClOrdId)
    | .ok () => ({ idInput := [], error := none }, some origClOrdId)

/-! ## The root -/

/-- What the controls ask for. -/
inductive Request where
  /-- A new order of a ticket. -/
  | order (intent : OrderIntent)
  /-- A cancel of an order. -/
  | cancel (origClOrdId : ℤ)

/-- The root: the socket with the state that it feeds, and the source of ids. -/
structure App where
  hook : Hook := {}
  next : ℤ

namespace App

/-- Sends an order under the next id, and says whether it was written. An error leaves the rest
undone. -/
def handleSubmit (a : App) (intent : OrderIntent) (sentAtNanos : Option ℤ) : App × Bool :=
  match nextClOrdId a.next with
  | .error _ => (a, false)
  | .ok (clOrdId, next) =>
    match newOrderFrame clOrdId intent with
    | .error _ => ({ a with next }, false)
    | .ok frame =>
      ({ hook := (a.hook.send (.new frame) sentAtNanos).1, next },
        (a.hook.send (.new frame) sentAtNanos).2)

/-- Sends a cancel under the next id. -/
def handleCancel (a : App) (origClOrdId : ℤ) (sentAtNanos : Option ℤ) : App × Bool :=
  match nextClOrdId a.next with
  | .error _ => (a, false)
  | .ok (clOrdId, next) =>
    match cancelOrderFrame clOrdId origClOrdId with
    | .error _ => ({ a with next }, false)
    | .ok frame =>
      ({ hook := (a.hook.send frame sentAtNanos).1, next }, (a.hook.send frame sentAtNanos).2)

/-- The error of that, where the ids are exhausted or one of them is no id. -/
def onCancel (a : App) (origClOrdId : ℤ) : Except String Unit := do
  let (clOrdId, _) ← nextClOrdId a.next
  let _ ← cancelOrderFrame clOrdId origClOrdId

/-- What becomes of a request. -/
def perform (a : App) (sentAtNanos : Option ℤ) : Request → App × Bool
  | .order intent => a.handleSubmit intent sentAtNanos
  | .cancel origClOrdId => a.handleCancel origClOrdId sentAtNanos

/-- Whether the tickets are disabled. -/
def disabled (a : App) : Bool := a.hook.connection ≠ .open

/-- The requests that the controls can make: an intent that the order ticket emits, an id that was
typed, and the order of a row with a button. -/
inductive Asks (a : App) : Request → Prop where
  /-- The ticket is submitted. -/
  | order {t t' : Ticket} {intent : OrderIntent} : submit a.disabled t = (t', some intent) →
    Asks a (.order intent)
  /-- An id is typed into the cancel ticket. -/
  | typed {t t' : CancelTicket} {id : ℕ} : t.submit a.disabled a.onCancel = (t', some id) →
    Asks a (.cancel id)
  /-- The button of a row is pressed. -/
  | row {row : MyOrder} : row ∈ (reduce a.hook.actions).myOrders → isCancellable row.status = true →
    Asks a (.cancel row.clOrdId)

/-- A run of the root from a seed, with the requests of it and whether their frames were written. -/
inductive Runs (parse : String → Option Json) (seed : ℤ) : List (Request × Bool) → App → Prop where
  /-- The seed of the ids is checked. -/
  | start : requirePositiveInt seed "clOrdId seed" = .ok () → Runs parse seed [] { next := seed }
  /-- Anything but a send happens at the hook. -/
  | browser {requests : List (Request × Bool)} {a : App} {event : Hook.Event} {hook : Hook} :
    Runs parse seed requests a → Hook.Step parse a.hook event hook →
    (∀ frame sentAtNanos answer, event ≠ .send frame sentAtNanos answer) →
    Runs parse seed requests { a with hook }
  /-- A request is made, and the socket takes it or not. -/
  | ask {requests : List (Request × Bool)} {a : App} {r : Request} {sentAtNanos : Option ℤ} :
    Runs parse seed requests a → Asks a r →
    Runs parse seed (requests ++ [(r, (a.perform sentAtNanos r).2)]) (a.perform sentAtNanos r).1

/-! ## Requests that are in order -/

end App

/-- The frame of a request. -/
def Request.frame (clOrdId : ℤ) : Request → ClientFrame
  | .order intent => .new ⟨clOrdId, intent.side, intent.ordType, intent.tif,
      if intent.ordType = .pegMid then MatchingEngineHandler.na else intent.pricePx, intent.qty,
      intent.displayQty⟩
  | .cancel origClOrdId => .cancel clOrdId origClOrdId

/-- The message that the server makes of a frame. -/
def bytesOf : ClientFrame → List Byte
  | .new frame => fixOf frame
  | .cancel clOrdId origClOrdId =>
    JsonToFix.orderCancelRequest (asLong clOrdId) (asLong origClOrdId)

/-- The event of a request. -/
def Request.event (clOrdId : ℤ) (target : OrderEvent) : Request → OrderEvent
  | .order intent => eventOf clOrdId intent target
  | .cancel origClOrdId =>
    { target with
      eventType := .cancelOrder
      orderId := clOrdId
      originalOrderId := origClOrdId
      side := none
      ordType := none
      tif := none
      price := -1
      quantity := -1
      maxFloor := 0 }

/-- A request that the venue takes. -/
def Request.Ready : Request → Prop
  | .order intent => Terminal.Ready intent
  | .cancel origClOrdId => PositiveSafe origClOrdId

/-- A safe id is issued, and the next one is one more. -/
theorem nextClOrdId_of_safe {next : ℤ} (h : PositiveSafe next) :
    nextClOrdId next = .ok (next, next + 1) := by
  obtain ⟨hpos, hsafe⟩ := h
  have hnat : Double.isSafe next.natAbs = true := by
    rw [Double.isSafe, decide_eq_true_eq]
    omega
  rw [nextClOrdId, if_neg (not_not.mpr hnat)]

/-- Ids that are no longer safe are not issued. -/
theorem nextClOrdId_of_exhausted {next : ℤ} (h : Double.maxSafe < next) :
    nextClOrdId next = .error "clOrdId exhausted the safe-integer range" := by
  have hnat : ¬ Double.isSafe next.natAbs = true := by
    rw [Double.isSafe, decide_eq_true_eq]
    omega
  rw [nextClOrdId, if_pos hnat]

/-- A cancel of safe ids is framed. -/
theorem cancelOrderFrame_eq {clOrdId origClOrdId : ℤ} (hid : PositiveSafe clOrdId)
    (horig : PositiveSafe origClOrdId) :
    cancelOrderFrame clOrdId origClOrdId = .ok (.cancel clOrdId origClOrdId) := by
  rw [cancelOrderFrame, requirePositiveInt_of_safe _ hid, ok_bind,
    requirePositiveInt_of_safe _ horig]
  rfl

/-- The id that was typed is that of the digits, and it is positive and safe. -/
theorem validateOrigClOrdId_eq_ok {s : Text} {id : ℕ} (h : validateOrigClOrdId s = .ok id) :
    PositiveSafe id ∧ ∃ digits : List (Fin 10), trim s = digits.map digitUnit ∧
      id = natOf digits := by
  simp only [validateOrigClOrdId] at h
  split_ifs at h with hdigits
  have hall : ((trim s).all isDigit) = true := by
    simp only [matchDigits, Bool.and_eq_true] at hdigits
    exact hdigits.2
  obtain ⟨digits, hs⟩ := exists_digitUnits hall
  rw [← hs, number_map, positiveSafe_ofNat] at h
  split_ifs at h with hsafe
  obtain rfl := Except.ok.inj h
  exact ⟨⟨by exact_mod_cast hsafe.1, by exact_mod_cast hsafe.2⟩, digits, hs.symm, rfl⟩

/-- The message of a request that is ready is parsed to its event. -/
theorem Request.Ready.parse {r : Request} (h : r.Ready) {clOrdId : ℤ} (hid : PositiveSafe clOrdId)
    (p : FixParser) (target : OrderEvent) :
    ∃ p', p.parse (bytesOf (r.frame clOrdId)) 0 (bytesOf (r.frame clOrdId)).length target =
      .ok (p', some (r.event clOrdId target)) := by
  cases r with
  | order intent =>
    have hready : Terminal.Ready intent := h
    obtain ⟨frame, p', hframe, hparse⟩ := parse_ready hready hid p target
    rw [newOrderFrame_eq hid hready.qty fun hlimit => (hready.price hlimit).1] at hframe
    obtain rfl := Except.ok.inj hframe
    exact ⟨p', hparse⟩
  | cancel origClOrdId =>
    have hready : PositiveSafe origClOrdId := h
    have hidLong := asLong_val hid.1.le hid.2
    have horigLong := asLong_val hready.1.le hready.2
    obtain ⟨p', ⟨-, hparse⟩ | ⟨hrefused, -⟩⟩ :=
      JsonToFix.parse_orderCancelRequest p (asLong clOrdId) (asLong origClOrdId) target
    · refine ⟨p', hparse.trans ?_⟩
      rw [JsonToFix.cancelEvent, hidLong, horigLong]
      rfl
    · exact absurd ⟨by rw [hidLong]; exact hid.1.le, by rw [horigLong]; exact hready.1.le⟩ hrefused

namespace App

variable {parse : String → Option Json} {seed : ℤ} {requests : List (Request × Bool)} {a : App}
  {r : Request}

/-- What becomes of a request that is ready, under an id that is safe. -/
theorem perform_ready (hid : PositiveSafe a.next) (hready : r.Ready) (sentAtNanos : Option ℤ) :
    a.perform sentAtNanos r =
      ({ hook := (a.hook.send (r.frame a.next) sentAtNanos).1, next := a.next + 1 },
      (a.hook.send (r.frame a.next) sentAtNanos).2) := by
  cases r with
  | order intent =>
    have hintent : Terminal.Ready intent := hready
    rw [perform, handleSubmit, nextClOrdId_of_safe hid]
    simp only [newOrderFrame_eq hid hintent.qty fun hlimit => (hintent.price hlimit).1]
    rfl
  | cancel origClOrdId =>
    rw [perform, handleCancel, nextClOrdId_of_safe hid]
    simp only [cancelOrderFrame_eq hid hready]
    rfl

/-- Where the ids are exhausted nothing is sent any more. -/
theorem perform_exhausted (h : Double.maxSafe < a.next) (sentAtNanos : Option ℤ) (r : Request) :
    a.perform sentAtNanos r = (a, false) := by
  cases r with
  | order intent => rw [perform, handleSubmit, nextClOrdId_of_exhausted h]
  | cancel origClOrdId => rw [perform, handleCancel, nextClOrdId_of_exhausted h]

/-- The frames that some requests come to, of which each takes the next id. -/
def framesOf (seed : ℤ) (requests : List (Request × Bool)) : List ClientFrame :=
  requests.zipIdx.filterMap fun r => if r.1.2 then some (r.1.1.frame (seed + r.2)) else none

/-- A last request adds its frame where it is written. -/
theorem framesOf_append (r : Request) (answer : Bool) : framesOf seed (requests ++ [(r, answer)]) =
    framesOf seed requests ++ if answer then [r.frame (seed + requests.length)] else [] := by
  rw [framesOf, List.zipIdx_append, List.filterMap_append]
  congr 1
  cases answer <;> simp

/-- What a run comes to: the ids that were taken, the frames that were written under them, and that
everything was in order. -/
structure Issued (seed : ℤ) (requests : List (Request × Bool)) (a : App) : Prop where
  /-- The seed is positive and safe. -/
  positive : PositiveSafe seed
  /-- The hook is sound. -/
  sound : a.hook.Sound
  /-- The next id is as many above the seed as there were requests, up to the first that is not
  safe. -/
  next : a.next = min (seed + requests.length) (Double.maxSafe + 1)
  /-- The frames that were written are those of the requests that the socket took. -/
  written : a.hook.written.map Prod.snd = framesOf seed requests
  /-- Every request is one that the terminal lets through. -/
  ready : ∀ r ∈ requests, r.1.Ready
  /-- Every id that was written is safe. -/
  inRange : ∀ r ∈ requests.zipIdx, r.1.2 = true → seed + r.2 ≤ Double.maxSafe
  /-- Every order that was sent has a positive safe id. -/
  sent : ∀ (frame : NewOrderFrame) (sentAtNanos : Option ℤ),
    .sent (.new frame) sentAtNanos ∈ a.hook.actions →
    PositiveSafe frame.clOrdId

/-- With a valid seed nothing has been issued at first. -/
theorem issued_start (h : requirePositiveInt seed "clOrdId seed" = .ok ()) :
    Issued seed [] { next := seed } := by
  have hseed : PositiveSafe seed := by
    rw [requirePositiveInt] at h
    split_ifs at h with hno
    rw [not_or, not_not, Double.isSafe, decide_eq_true_eq] at hno
    unfold PositiveSafe
    omega
  refine ⟨hseed, Hook.sound_start, ?_, rfl, fun _ hr => absurd hr List.not_mem_nil,
    fun _ hr => absurd hr List.not_mem_nil, fun _ _ hsent => absurd hsent List.not_mem_nil⟩
  have hle := hseed.2
  show seed = min (seed + 0) _
  omega

/-- The rows have ids that were taken. -/
theorem Issued.row (h : Issued seed requests a) {row : MyOrder}
    (hrow : row ∈ (reduce a.hook.actions).myOrders) :
    PositiveSafe row.clOrdId := by
  obtain ⟨pre, frame, sentAtNanos, post, hactions, rfl⟩ := mem_reduce hrow
  rw [clOrdId_foldl]
  exact h.sent frame sentAtNanos
    (by rw [hactions]; exact List.mem_append_right _ List.mem_cons_self)

/-- What the ticket for cancels asks for was typed. -/
theorem submit_typed {disabled : Bool} {onCancel : ℤ → Except String Unit} {t t' : CancelTicket}
    {id : ℕ} (h : t.submit disabled onCancel = (t', some id)) :
    validateOrigClOrdId t.idInput = .ok id := by
  cases disabled with
  | true => exact absurd (congrArg Prod.snd h) nofun
  | false =>
    rw [CancelTicket.submit, if_neg Bool.false_ne_true] at h
    cases hvalid : validateOrigClOrdId t.idInput with
    | error reason =>
      rw [hvalid] at h
      exact absurd (congrArg Prod.snd h) nofun
    | ok found =>
      simp only [hvalid] at h
      cases hcancel : onCancel found with
      | error reason =>
        rw [hcancel] at h
        exact congrArg Except.ok (Option.some.inj (Prod.mk.inj h).2)
      | ok =>
        rw [hcancel] at h
        exact congrArg Except.ok (Option.some.inj (Prod.mk.inj h).2)

/-- What the controls ask for is ready. -/
theorem Issued.asks (h : Issued seed requests a) (hasks : a.Asks r) : r.Ready := by
  cases hasks with
  | order hsubmit => exact (submit_ready hsubmit).1
  | typed hsubmit => exact (validateOrigClOrdId_eq_ok (submit_typed hsubmit)).1
  | row hrow _ => exact h.row hrow

/-- What the browser does takes no id and writes nothing. -/
theorem Issued.browser (h : Issued seed requests a) {event : Hook.Event} {hook : Hook}
    (hstep : Hook.Step parse a.hook event hook)
    (hnot : ∀ frame sentAtNanos answer, event ≠ .send frame sentAtNanos answer) :
    Issued seed requests { a with hook } := by
  obtain ⟨htraffic, hwritten⟩ := h.sound.traffic_step hstep
  have hnone : event.written = [] := by
    cases event with
    | send frame sentAtNanos answer => exact absurd rfl (hnot frame sentAtNanos answer)
    | _ => rfl
  have hframes : ∀ frame sentAtNanos, Action.sent frame sentAtNanos ∉ event.traffic parse := by
    intro frame sentAtNanos
    cases event with
    | send frame sentAtNanos answer => exact absurd rfl (hnot frame sentAtNanos answer)
    | message j data =>
      cases data with
      | none => exact List.not_mem_nil
      | some text =>
        rw [Hook.Event.traffic]
        cases parseServerFrame parse text <;> simp
    | _ => exact List.not_mem_nil
  have hkept : ∀ {actions : List Action} {frame : ClientFrame} {sentAtNanos : Option ℤ},
      .sent frame sentAtNanos ∈ actions ↔ .sent frame sentAtNanos ∈ Hook.traffic actions := by
    intro actions frame sentAtNanos
    rw [Hook.traffic, List.mem_filter, and_iff_left rfl]
  refine ⟨h.positive, h.sound.step hstep, h.next, ?_, h.ready, h.inRange,
    fun frame sentAtNanos hsent => ?_⟩
  · show hook.written.map Prod.snd = _
    rw [hwritten, hnone, List.append_nil]
    exact h.written
  · have hmem := hkept.mp hsent
    rw [htraffic, List.mem_append] at hmem
    exact h.sent frame sentAtNanos (hkept.mpr (hmem.resolve_right (hframes _ _)))

/-- A request takes the next id, where there is one. -/
theorem Issued.ask (h : Issued seed requests a) (hasks : a.Asks r) (sentAtNanos : Option ℤ) :
    Issued seed (requests ++ [(r, (a.perform sentAtNanos r).2)]) (a.perform sentAtNanos r).1 := by
  have hready := h.asks hasks
  have hnext := h.next
  obtain ⟨hpos, -⟩ := h.positive
  have hall : ∀ r' ∈ requests ++ [(r, (a.perform sentAtNanos r).2)], r'.1.Ready := by
    simp only [List.forall_mem_append, List.forall_mem_singleton]
    exact ⟨h.ready, hready⟩
  have hlength : ((requests ++ [(r, (a.perform sentAtNanos r).2)]).length : ℤ) =
      requests.length + 1 := by
    rw [List.length_append]
    rfl
  have hinRange : ∀ answer : Bool, (answer = true → seed + requests.length ≤ Double.maxSafe) →
      ∀ r' ∈ (requests ++ [(r, answer)]).zipIdx, r'.1.2 = true → seed + r'.2 ≤ Double.maxSafe := by
    intro answer hanswer r' hr' hyes
    rw [List.zipIdx_append, List.mem_append, Nat.zero_add] at hr'
    rcases hr' with hr' | hr'
    · exact h.inRange r' hr' hyes
    · obtain rfl := List.mem_singleton.mp hr'
      exact hanswer hyes
  by_cases hsafe : a.next ≤ Double.maxSafe
  · have hid : PositiveSafe a.next := ⟨by omega, hsafe⟩
    have htaken : a.next = seed + requests.length := by omega
    rw [perform_ready hid hready] at hall hlength ⊢
    refine ⟨h.positive, h.sound.send _ _, ?_, ?_, hall, hinRange _ fun _ => by omega,
      fun frame at' hsent => ?_⟩
    · show a.next + 1 = _
      rw [hlength]
      omega
    · show (a.hook.send _ _).1.written.map Prod.snd = _
      rw [framesOf_append, ← htaken, ← h.written]
      rcases Hook.send_cases a.hook (r.frame a.next) sentAtNanos with hsend | ⟨j, -, -, hsend⟩
      · rw [hsend, if_neg Bool.false_ne_true, List.append_nil]
      · rw [hsend, if_pos rfl]
        exact List.map_append ..
    · rcases Hook.send_cases a.hook (r.frame a.next) sentAtNanos with hsend | ⟨j, -, -, hsend⟩
      · rw [hsend] at hsent
        exact h.sent frame at' hsent
      · rw [hsend] at hsent
        rcases List.mem_append.mp hsent with hsent | hsent
        · exact h.sent frame at' hsent
        · cases r with
          | order intent =>
            obtain ⟨hframe, -⟩ := Action.sent.inj (List.mem_singleton.mp hsent)
            obtain rfl := ClientFrame.new.inj hframe
            exact hid
          | cancel origClOrdId =>
            obtain ⟨hframe, -⟩ := Action.sent.inj (List.mem_singleton.mp hsent)
            cases hframe
  · rw [perform_exhausted (not_le.mp hsafe)] at hall hlength ⊢
    refine ⟨h.positive, h.sound, ?_, ?_, hall, hinRange false nofun, h.sent⟩
    · show a.next = _
      rw [hlength]
      omega
    · show a.hook.written.map Prod.snd = _
      rw [h.written, framesOf_append, if_neg Bool.false_ne_true, List.append_nil]

/-- What is known of the ids holds in every run. -/
theorem Runs.issued (h : Runs parse seed requests a) : Issued seed requests a := by
  induction h with
  | start hseed => exact issued_start hseed
  | browser _ hstep hnot ih => exact ih.browser hstep hnot
  | ask _ hasks ih => exact ih.ask hasks _

/-! ## The results -/

/-- The id of a frame. -/
def clOrdIdOf : ClientFrame → ℤ
  | .new frame => frame.clOrdId
  | .cancel clOrdId _ => clOrdId

/-- The ids of the frames of some requests increase and are among those that the requests took. -/
theorem ids_framesOf (seed : ℤ) (requests : List (Request × Bool)) :
    ((framesOf seed requests).map clOrdIdOf).Pairwise (· < ·) ∧
      ∀ id ∈ (framesOf seed requests).map clOrdIdOf, seed ≤ id ∧ id < seed + requests.length := by
  induction requests using List.reverseRecOn with
  | nil => exact ⟨.nil, fun _ hid => absurd hid List.not_mem_nil⟩
  | append_singleton requests r ih =>
    obtain ⟨r, answer⟩ := r
    obtain ⟨hpairwise, hbounds⟩ := ih
    have hid : clOrdIdOf (r.frame (seed + requests.length)) = seed + requests.length := by
      cases r <;> rfl
    have hlength : ((requests ++ [(r, answer)]).length : ℤ) = requests.length + 1 := by
      rw [List.length_append]
      rfl
    rw [framesOf_append, hlength]
    cases answer with
    | false =>
      rw [if_neg Bool.false_ne_true, List.append_nil]
      exact ⟨hpairwise, fun id hmem => ⟨(hbounds id hmem).1, by linarith [(hbounds id hmem).2]⟩⟩
    | true =>
      rw [if_pos rfl, List.map_append, List.map_singleton, hid, List.pairwise_append]
      refine ⟨⟨hpairwise, List.pairwise_singleton _ _, fun id hmem last hlast => ?_⟩,
        fun id hmem => ?_⟩
      · rw [List.mem_singleton.mp hlast]
        exact (hbounds id hmem).2
      · rcases List.mem_append.mp hmem with hmem | hmem
        · obtain ⟨hlow, hhigh⟩ := hbounds id hmem
          exact ⟨hlow, by omega⟩
        · rw [List.mem_singleton.mp hmem]
          omega

/-- However the socket comes and goes between them, the frames that are written are those of the
requests that the socket took, in their order, each under the seed and the number of all requests
before it; so their ids strictly increase. The next id, which the ticket shows, is above all of
them, and it stops behind the safe integers. -/
theorem Runs.ids_increase (h : Runs parse seed requests a) :
    a.hook.written.map Prod.snd = framesOf seed requests ∧
    ((a.hook.written.map Prod.snd).map clOrdIdOf).Pairwise (· < ·) ∧
    a.next = min (seed + requests.length) (Double.maxSafe + 1) ∧
    ∀ frame ∈ a.hook.written.map Prod.snd, PositiveSafe (clOrdIdOf frame) ∧
      clOrdIdOf frame < a.next := by
  obtain ⟨hpairwise, hbounds⟩ := ids_framesOf seed requests
  have hissued := h.issued
  rw [hissued.written]
  refine ⟨rfl, hpairwise, hissued.next, fun frame hframe => ?_⟩
  obtain ⟨hlow, hhigh⟩ := hbounds _ (List.mem_map_of_mem hframe)
  have hpos := hissued.positive.1
  have hsafe : clOrdIdOf frame ≤ Double.maxSafe := by
    obtain ⟨⟨⟨r, answer⟩, i⟩, hr, heq⟩ := List.mem_filterMap.mp hframe
    cases answer with
    | false => cases heq
    | true =>
      have hid : clOrdIdOf (r.frame (seed + i)) = seed + i := by
        cases r <;> rfl
      rw [← Option.some.inj heq, hid]
      exact hissued.inRange _ hr rfl
  have hnext := hissued.next
  exact ⟨⟨by omega, hsafe⟩, by omega⟩

/-- The requests of a run: the socket is on its way out at the second, and another is open at the
third. -/
def typedRequests : List (Request × Bool) :=
  [(.cancel 5, true), (.cancel 6, false), (.cancel 5, true)]

/-- A root that made them. -/
theorem exists_typed : ∃ a : App, Runs (fun _ => none) 7 typedRequests a := by
  have hstart : Runs (fun _ => none) 7 [] { next := 7 } := .start (by decide)
  have hopen := (hstart.browser (.mount rfl) (by simp)).browser (.opened (j := 0) rfl) (by simp)
  have hfirst := @Runs.ask _ _ _ _ (.cancel 5) none hopen
    (@Asks.typed _ { idInput := Text.lit " 5" } {} 5 (by decide +kernel))
  have hclosing := hfirst.browser (.closing (j := 0) (by decide +kernel)) (by simp)
  have hsecond := @Runs.ask _ _ _ _ (.cancel 6) none hclosing
    (@Asks.typed _ { idInput := Text.lit "6" } {} 6 (by decide +kernel))
  have hclosed := hsecond.browser (.closed (j := 0) (by decide +kernel)) (by simp)
  have hagain := (hclosed.browser (.timeout (i := 0) rfl) (by simp)).browser
    (.opened (j := 1) (by decide +kernel)) (by simp)
  have hthird := @Runs.ask _ _ _ _ (.cancel 5) none hagain
    (@Asks.typed _ { idInput := Text.lit "5" } {} 5 (by decide +kernel))
  exact ⟨_, hthird⟩

/-- Of three cancels the second finds no socket: its id is not written, and the ids of the others
increase. -/
theorem ids_typed : ∃ a : App, Runs (fun _ => none) 7 typedRequests a ∧
    a.hook.written.map Prod.snd = [.cancel 7 5, .cancel 9 5] ∧
    ((a.hook.written.map Prod.snd).map clOrdIdOf).Pairwise (· < ·) ∧ a.next = 10 := by
  obtain ⟨a, hrun⟩ := exists_typed
  obtain ⟨hwritten, hincrease, hnext, -⟩ := hrun.ids_increase
  exact ⟨a, hrun, hwritten, hincrease, hnext⟩

/-- The gateway takes every frame that is written: its message is parsed to the event of its
request, with the numbers that were typed or shown and the id that the request took. -/
theorem Runs.frames_taken (h : Runs parse seed requests a) {i : ℕ} {r : Request}
    (hwritten : requests[i]? = some (r, true)) (p : FixParser) (target : OrderEvent) :
    r.frame (seed + i) ∈ a.hook.written.map Prod.snd ∧
    ∃ p' : FixParser,
      p.parse (bytesOf (r.frame (seed + i))) 0 (bytesOf (r.frame (seed + i))).length target =
      .ok (p', some (r.event (seed + i) target)) := by
  have hissued := h.issued
  have hmem : ((r, true), i) ∈ requests.zipIdx := List.mem_zipIdx_iff_getElem?.mpr hwritten
  have hpos := hissued.positive.1
  have hid : PositiveSafe (seed + i) := ⟨by omega, hissued.inRange _ hmem rfl⟩
  refine ⟨?_, (hissued.ready _ (List.mem_of_getElem? hwritten)).parse hid p target⟩
  rw [hissued.written]
  exact List.mem_filterMap.mpr ⟨_, hmem, rfl⟩

/-- The first cancel of that root. -/
theorem taken_typed : ∃ p' : FixParser,
    OrderGateway.idle.parser.parse (bytesOf (.cancel 7 5)) 0 (bytesOf (.cancel 7 5)).length
      OrderGateway.idle.scratch =
      .ok (p', some ((Request.cancel 5).event 7 OrderGateway.idle.scratch)) := by
  obtain ⟨a, hrun⟩ := exists_typed
  exact (@Runs.frames_taken _ _ _ _ hrun 0 (.cancel 5) rfl OrderGateway.idle.parser
    OrderGateway.idle.scratch).2

end App

end Terminal

end MatchingVenue
