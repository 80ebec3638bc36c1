import MatchingVenue.Engine.MatchingEngineHandler
import MatchingVenue.Library.Double
import Mathlib.Data.List.Induction
import Mathlib.Data.List.Nodup

/-!
# The terminal's reducer

The state of a terminal and the pure function that takes it from one action to the next. The
terminal keeps a row for each order that it has sent, and moves the row by the execution reports:
those about the order itself, and the fills that name it as the passive side, which it books on its
own.

Numbers are integers. The ids that a terminal makes and the quantities of the venue are safe
integers, on which the arithmetic of the source is exact. What grows with the session, its volume
and its two counters, is added up as doubles are.
-/

namespace MatchingVenue

/-- The state of the socket. -/
inductive ConnectionStatus where
  | connecting
  | open
  | reconnecting
  deriving DecidableEq, Repr

/-- The status of a row. -/
inductive OrderStatus where
  | pending
  | open
  | partiallyFilled
  | filled
  | cancelled
  | rejected
  | expired
  deriving DecidableEq, Repr

/-- Whether no report moves the row any more. -/
def isTerminal : OrderStatus → Bool
  | .filled | .cancelled | .rejected | .expired => true
  | .pending | .open | .partiallyFilled => false

/-- Whether the terminal offers to cancel the row. -/
def isCancellable (status : OrderStatus) : Bool := status == .open || status == .partiallyFilled

/-- The book as the last BOOK frame had it. A level is a price and a quantity. -/
structure BookState where
  bestBid : ℤ
  bestAsk : ℤ
  bids : List (ℤ × ℤ)
  asks : List (ℤ × ℤ)
  timestamp : ℤ
  deriving DecidableEq, Repr

/-- A print of the tape. -/
structure TapeEntry where
  tradeId : ℤ
  pricePx : ℤ
  quantity : ℤ
  aggressorOrderId : ℤ
  passiveOrderId : ℤ
  timestamp : ℤ
  mine : Bool
  aggressorSide : Option Side
  deriving DecidableEq, Repr

/-- A row: an order that this terminal has sent. -/
structure MyOrder where
  clOrdId : ℤ
  side : Side
  pricePx : ℤ
  originalQty : ℤ
  remainingQty : ℤ
  status : OrderStatus
  ordType : OrdType
  tif : TimeInForce
  displayQty : ℤ
  sentAtNanos : Option ℤ
  deriving DecidableEq, Repr

/-- An EXEC frame: an execution report with the time of its publication. -/
structure ExecFrame extends ExecutionEvent where
  timestamp : ℤ
  deriving DecidableEq, Repr

/-- A FIX frame: the echo of an inbound packet. -/
structure FixFrame where
  raw : String
  seqNum : ℤ
  timestamp : ℤ
  deriving DecidableEq, Repr

/-- A frame from the server. A BOOK frame carries the fields of the book state. -/
inductive ServerFrame where
  | book (frame : BookState)
  | exec (frame : ExecFrame)
  | fix (frame : FixFrame)

/-- A NEW frame. -/
structure NewOrderFrame where
  clOrdId : ℤ
  side : Side
  ordType : OrdType
  tif : TimeInForce
  price : ℤ
  qty : ℤ
  maxFloor : ℤ
  deriving DecidableEq, Repr

/-- A frame to the server. -/
inductive ClientFrame where
  | new (frame : NewOrderFrame)
  | cancel (clOrdId origClOrdId : ℤ)

/-- An entry of the inspector. -/
inductive InspectorEntry where
  | fix (frame : FixFrame)
  | exec (frame : ExecFrame)

namespace Terminal

/-- The length of the tape. -/
def tapeCap : ℕ := 200

/-- The length of the inspector's log. -/
def inspectorCap : ℕ := 500

/-- The sentinel of a session price before the first trade. -/
def sessionOpenUnset : ℤ := -1

/-- The state of a terminal. Its lists are newest first. -/
structure AppState where
  connection : ConnectionStatus := .connecting
  book : BookState := ⟨-1, -1, [], [], 0⟩
  tape : List TapeEntry := []
  myOrders : List MyOrder := []
  sessionVolume : ℤ := 0
  sessionOpenPx : ℤ := sessionOpenUnset
  sessionHighPx : ℤ := sessionOpenUnset
  sessionLowPx : ℤ := sessionOpenUnset
  sessionTradeCount : ℤ := 0
  msgSeqNum : ℤ := 0
  lastFrameNanos : ℤ := 0
  inspectorLog : List InspectorEntry := []

/-- The state at the start. -/
def initialState : AppState := {}

/-- An action on the state. -/
inductive Action where
  | connection (status : ConnectionStatus)
  | frame (frame : ServerFrame)
  | sent (frame : ClientFrame) (sentAtNanos : Option ℤ)

/-- Whether a frame is that of a trade. -/
def isFill (frame : ExecFrame) : Bool :=
  frame.eventType == .orderFilled || frame.eventType == .orderPartiallyFilled

/-- The aggressor's side of a trade, where one of the terminal's orders is in it. -/
def aggressorSideFor (myOrders : List MyOrder) (aggressorOrderId passiveOrderId : ℤ) :
    Option Side :=
  let sideOf (id : ℤ) : Option Side :=
    if id > 0 then (myOrders.find? fun o => o.clOrdId = id).map MyOrder.side else none
  match sideOf aggressorOrderId, sideOf passiveOrderId with
  | some aggressor, _ => some aggressor
  | none, some passive => some passive.opposite
  | none, none => none

/-- The row after a report about its own order. -/
def nextOrder (order : MyOrder) (frame : ExecFrame) : MyOrder :=
  if isTerminal order.status then order
  else match frame.eventType with
  | .orderAccepted =>
    -- An acceptance after a partial fill keeps the more telling status.
    { order with
      status := if order.status = .partiallyFilled then .partiallyFilled else .open
      remainingQty := frame.remainingQuantity }
  | .orderPartiallyFilled =>
    { order with status := .partiallyFilled, remainingQty := frame.remainingQuantity }
  | .orderFilled => { order with status := .filled, remainingQty := 0 }
  | .orderCancelled => { order with status := .cancelled }
  | .orderRejected => { order with status := .rejected }
  | .orderExpired => { order with status := .expired, remainingQty := frame.remainingQuantity }

/-- The row after a fill that names its order as the passive side. -/
def passiveFill (order : MyOrder) (filledQty : ℤ) : MyOrder :=
  if isTerminal order.status then order
  else
    let remainingQty := max 0 (order.remainingQty - filledQty)
    { order with remainingQty, status := if remainingQty = 0 then .filled else .partiallyFilled }

/-- The tape and the session figures after an EXEC frame, which only a fill moves. -/
def applyFill (state : AppState) (frame : ExecFrame) : AppState :=
  let knows (id : ℤ) : Bool := decide (id > 0) && state.myOrders.any fun o => o.clOrdId = id
  if isFill frame then
    let entry : TapeEntry :=
      { tradeId := frame.tradeId
        pricePx := frame.price
        quantity := frame.filledQuantity
        aggressorOrderId := frame.aggressorOrderId
        passiveOrderId := frame.passiveOrderId
        timestamp := frame.timestamp
        mine := knows frame.aggressorOrderId || knows frame.passiveOrderId
        aggressorSide :=
          aggressorSideFor state.myOrders frame.aggressorOrderId frame.passiveOrderId }
    -- The first fill seeds the session's high and low, since the sentinel would win every minimum.
    let seeds := state.sessionHighPx ≤ 0 ∨ state.sessionLowPx ≤ 0
    { state with
      tape := (entry :: state.tape).take tapeCap
      sessionVolume := Double.add state.sessionVolume frame.filledQuantity
      sessionOpenPx := if state.sessionOpenPx ≤ 0 then frame.price else state.sessionOpenPx
      sessionHighPx := if seeds then frame.price else max state.sessionHighPx frame.price
      sessionLowPx := if seeds then frame.price else min state.sessionLowPx frame.price
      sessionTradeCount := Double.add state.sessionTradeCount 1 }
  else state

/-- The state after an EXEC frame. -/
def applyExec (state : AppState) (frame : ExecFrame) : AppState :=
  let aggIndex := state.myOrders.findIdx? fun o => o.clOrdId = frame.orderId
  let passiveIndex :=
    if isFill frame ∧ frame.passiveOrderId > 0 ∧ frame.passiveOrderId ≠ frame.orderId then
      state.myOrders.findIdx? fun o => o.clOrdId = frame.passiveOrderId
    else none
  let myOrders :=
    if aggIndex ≠ none ∨ passiveIndex ≠ none then
      state.myOrders.mapIdx fun i o =>
        if some i = aggIndex then nextOrder o frame
        else if some i = passiveIndex then passiveFill o frame.filledQuantity
        else o
    else state.myOrders
  { applyFill state frame with
    myOrders
    lastFrameNanos := frame.timestamp
    inspectorLog := (.exec frame :: state.inspectorLog).take inspectorCap }

/-- The row of an order as it is sent. -/
def newRow (frame : NewOrderFrame) (sentAtNanos : Option ℤ) : MyOrder :=
  { clOrdId := frame.clOrdId
    side := frame.side
    pricePx := frame.price
    originalQty := frame.qty
    remainingQty := frame.qty
    status := .pending
    ordType := frame.ordType
    tif := frame.tif
    displayQty := frame.maxFloor
    sentAtNanos }

/-- The state after a frame was sent. Only a new order under a new id makes a row. -/
def applySent (state : AppState) (frame : ClientFrame) (sentAtNanos : Option ℤ) : AppState :=
  let state := { state with msgSeqNum := Double.add state.msgSeqNum 1 }
  match frame with
  | .new frame =>
    if state.myOrders.any fun o => o.clOrdId = frame.clOrdId then state
    else { state with myOrders := newRow frame sentAtNanos :: state.myOrders }
  | .cancel _ _ => state

/-- The state after an action. -/
def reducer (state : AppState) : Action → AppState
  | .connection status =>
    if status = state.connection then state else { state with connection := status }
  | .frame (.book frame) => { state with book := frame, lastFrameNanos := frame.timestamp }
  | .frame (.fix frame) =>
    { state with
      lastFrameNanos := frame.timestamp
      inspectorLog := (.fix frame :: state.inspectorLog).take inspectorCap }
  | .frame (.exec frame) => applyExec state frame
  | .sent frame sentAtNanos => applySent state frame sentAtNanos

/-- The state after a sequence of actions. -/
def reduce (actions : List Action) : AppState := actions.foldl reducer initialState

/-! ## Rows

What the reducer does to its rows is what each EXEC frame does to one row, `rowExec`. -/

/-- The frame of a row after an EXEC frame. -/
def rowExec (row : MyOrder) (frame : ExecFrame) : MyOrder :=
  if row.clOrdId = frame.orderId then nextOrder row frame
  else if isFill frame ∧ frame.passiveOrderId > 0 ∧ row.clOrdId = frame.passiveOrderId then
    passiveFill row frame.filledQuantity
  else row

/-- The EXEC frame that an action brings. -/
def Action.execFrame : Action → Option ExecFrame
  | .frame (.exec exec) => some exec
  | _ => none

/-- The EXEC frames of some actions. -/
def execs (actions : List Action) : List ExecFrame := actions.filterMap Action.execFrame

@[simp]
theorem clOrdId_nextOrder (row : MyOrder) (frame : ExecFrame) :
    (nextOrder row frame).clOrdId = row.clOrdId := by
  unfold nextOrder
  by_cases hterminal : isTerminal row.status = true
  · rw [if_pos hterminal]
  · rw [if_neg hterminal]
    cases frame.eventType <;> rfl

@[simp]
theorem clOrdId_passiveFill (row : MyOrder) (m : ℤ) :
    (passiveFill row m).clOrdId = row.clOrdId := by
  unfold passiveFill
  split_ifs <;> rfl

@[simp]
theorem clOrdId_rowExec (row : MyOrder) (frame : ExecFrame) :
    (rowExec row frame).clOrdId = row.clOrdId := by
  unfold rowExec
  split_ifs <;> simp

/-- In rows with distinct ids the first row of an id is the row of that id. -/
theorem findIdx_eq_some_iff {rows : List MyOrder} (h : (rows.map MyOrder.clOrdId).Nodup) {X : ℤ}
    {i : ℕ} (hi : i < rows.length) :
    (rows.findIdx? fun o => o.clOrdId = X) = some i ↔ rows[i].clOrdId = X := by
  rw [List.findIdx?_eq_some_iff_getElem]
  constructor
  · rintro ⟨hlt, hid, -⟩
    simpa using hid
  · intro hid
    refine ⟨hi, by simpa using hid, ?_⟩
    -- No earlier row has the id, for the ids are distinct.
    intro j hji
    have hj : j < rows.length := by omega
    have hne : rows[j].clOrdId ≠ X := by
      intro heq
      have hrow : rows[j] = rows[i] := List.inj_on_of_nodup_map h (List.getElem_mem hj)
        (List.getElem_mem hi) (heq.trans hid.symm)
      have hrows : rows.Nodup := List.Nodup.of_map _ h
      have hidx := (List.Nodup.getElem_inj_iff hrows).mp hrow
      omega
    simpa using hne

/-- A map over rows by the indices of two of them. -/
theorem mapIdx_two {rows : List MyOrder} {first second : Option ℕ} {f g k : MyOrder → MyOrder}
    (hk : ∀ (i : ℕ) (hi : i < rows.length), k rows[i] =
      if some i = first then f rows[i] else if some i = second then g rows[i] else rows[i]) :
    (if first ≠ none ∨ second ≠ none then
      rows.mapIdx fun i o => if some i = first then f o else if some i = second then g o else o
    else rows) = rows.map k := by
  refine List.ext_getElem (by split_ifs <;> simp) fun i hi hi' => ?_
  have hlt : i < rows.length := by simpa using hi'
  rw [List.getElem_map, hk i hlt]
  by_cases hindex : first ≠ none ∨ second ≠ none
  · simp only [if_pos hindex, List.getElem_mapIdx]
  · -- The source leaves the rows as they are where neither is found.
    obtain ⟨hfirst, hsecond⟩ := not_or.mp hindex
    obtain rfl := not_not.mp hfirst
    obtain rfl := not_not.mp hsecond
    simp

/-- What an EXEC frame does to the rows. -/
theorem myOrders_applyExec (state : AppState) (frame : ExecFrame)
    (h : (state.myOrders.map MyOrder.clOrdId).Nodup) :
    (applyExec state frame).myOrders = state.myOrders.map fun o => rowExec o frame := by
  have hrow : ∀ (X : ℤ) (i : ℕ) (hi : i < state.myOrders.length),
      some i = (state.myOrders.findIdx? fun o => o.clOrdId = X) ↔
      state.myOrders[i].clOrdId = X := by
    intro X i hi
    rw [eq_comm]
    exact findIdx_eq_some_iff h hi
  refine mapIdx_two fun i hi => ?_
  unfold rowExec
  -- The report's own row first, then the passive one, as in the source.
  by_cases hagg : state.myOrders[i].clOrdId = frame.orderId
  · rw [if_pos hagg, if_pos ((hrow _ i hi).mpr hagg)]
  rw [if_neg hagg, if_neg (fun hsome => hagg ((hrow _ i hi).mp hsome))]
  by_cases hpassive : isFill frame = true ∧ frame.passiveOrderId > 0 ∧
      state.myOrders[i].clOrdId = frame.passiveOrderId
  · have hpassive' := hpassive
    obtain ⟨hfill, hpos, hid⟩ := hpassive'
    -- The source excludes a fill of an order with itself here, where the row is not the report's
    -- own.
    have hne : frame.passiveOrderId ≠ frame.orderId := by
      rw [← hid]
      exact hagg
    have hguard : isFill frame = true ∧ frame.passiveOrderId > 0 ∧
        frame.passiveOrderId ≠ frame.orderId := ⟨hfill, hpos, hne⟩
    rw [if_pos hpassive, if_pos hguard, if_pos ((hrow _ i hi).mpr hid)]
  · rw [if_neg hpassive]
    refine (if_neg ?_).symm
    intro hsome
    split_ifs at hsome with hfill
    exact hpassive ⟨hfill.1, hfill.2.1, (hrow _ i hi).mp hsome⟩

/-- What an action does to the rows: an EXEC frame moves them, a new order sent under a new id adds
one, and nothing else touches them. -/
theorem myOrders_reducer (state : AppState) (action : Action)
    (h : (state.myOrders.map MyOrder.clOrdId).Nodup) :
    (∃ frame, action = .frame (.exec frame) ∧
      (reducer state action).myOrders = state.myOrders.map fun o => rowExec o frame) ∨
    (∃ frame sentAtNanos, action = .sent (.new frame) sentAtNanos ∧
      (∀ o ∈ state.myOrders, o.clOrdId ≠ frame.clOrdId) ∧
      (reducer state action).myOrders = newRow frame sentAtNanos :: state.myOrders) ∨
    action.execFrame = none ∧ (reducer state action).myOrders = state.myOrders := by
  cases action with
  | connection status =>
    refine .inr (.inr ⟨rfl, ?_⟩)
    simp only [reducer]
    split_ifs <;> rfl
  | frame frame =>
    cases frame with
    | exec frame => exact .inl ⟨frame, rfl, myOrders_applyExec state frame h⟩
    | book frame => exact .inr (.inr ⟨rfl, rfl⟩)
    | fix frame => exact .inr (.inr ⟨rfl, rfl⟩)
  | sent frame sentAtNanos =>
    right
    cases frame with
    | cancel clOrdId origClOrdId => exact .inr ⟨rfl, rfl⟩
    | new frame =>
      simp only [reducer, applySent]
      split_ifs with hknown
      · exact .inr ⟨rfl, rfl⟩
      · refine .inl ⟨frame, sentAtNanos, rfl, ?_, rfl⟩
        simpa using hknown

/-- A last action is reduced last. -/
theorem reduce_append (actions : List Action) (action : Action) :
    reduce (actions ++ [action]) = reducer (reduce actions) action := by
  rw [reduce, List.foldl_append]
  rfl

/-- A last action adds the report that it receives. -/
theorem execs_append (actions : List Action) (action : Action) :
    execs (actions ++ [action]) = execs actions ++ action.execFrame.toList := by
  rw [execs, List.filterMap_append]
  cases h : action.execFrame <;> simp [execs, h]

/-- An action keeps the ids of the rows distinct. -/
theorem nodup_reducer (state : AppState) (action : Action)
    (h : (state.myOrders.map MyOrder.clOrdId).Nodup) :
    ((reducer state action).myOrders.map MyOrder.clOrdId).Nodup := by
  rcases myOrders_reducer state action h with ⟨frame, -, hrows⟩
    | ⟨frame, sentAtNanos, -, hfresh, hrows⟩ | ⟨-, hrows⟩
  · rw [hrows, List.map_map]
    have hid : (MyOrder.clOrdId ∘ fun o => rowExec o frame) = MyOrder.clOrdId :=
      funext fun o => clOrdId_rowExec o frame
    rw [hid]
    exact h
  · rw [hrows, List.map_cons, List.nodup_cons]
    refine ⟨fun hmem => ?_, h⟩
    obtain ⟨o, ho, hid⟩ := List.mem_map.mp hmem
    exact hfresh o ho hid
  · rw [hrows]
    exact h

/-- The rows of a terminal have distinct ids. -/
theorem nodup_reduce (actions : List Action) :
    ((reduce actions).myOrders.map MyOrder.clOrdId).Nodup := by
  induction actions using List.reverseRecOn with
  | nil => exact List.nodup_nil
  | append_singleton actions action ih =>
    rw [reduce_append]
    exact nodup_reducer _ action ih

/-- Each row is a sent order, moved by the EXEC frames that came after it was sent. -/
theorem mem_reduce {actions : List Action} {row : MyOrder} (h : row ∈ (reduce actions).myOrders) :
    ∃ pre frame sentAtNanos post, actions = pre ++ .sent (.new frame) sentAtNanos :: post ∧
      row = (execs post).foldl rowExec (newRow frame sentAtNanos) := by
  induction actions using List.reverseRecOn generalizing row with
  | nil => simp [reduce, initialState] at h
  | append_singleton actions action ih =>
    -- A row that was there before the action has seen one action more.
    have hextend : ∀ o ∈ (reduce actions).myOrders, ∃ pre frame sentAtNanos post,
        actions ++ [action] = pre ++ .sent (.new frame) sentAtNanos :: post ∧
          action.execFrame.toList.foldl rowExec o =
            (execs post).foldl rowExec (newRow frame sentAtNanos) := by
      intro o ho
      obtain ⟨pre, frame, sentAtNanos, post, rfl, rfl⟩ := ih ho
      refine ⟨pre, frame, sentAtNanos, post ++ [action], by simp, ?_⟩
      rw [execs_append, List.foldl_append]
    rw [reduce_append] at h
    rcases myOrders_reducer (reduce actions) action (nodup_reduce actions)
      with ⟨frame, rfl, hrows⟩ |
      ⟨frame, sentAtNanos, rfl, -, hrows⟩ | ⟨hnone, hrows⟩
    · rw [hrows] at h
      obtain ⟨o, ho, rfl⟩ := List.mem_map.mp h
      exact hextend o ho
    · rw [hrows] at h
      rcases List.mem_cons.mp h with rfl | h
      · exact ⟨actions, frame, sentAtNanos, [], rfl, rfl⟩
      · exact hextend row h
    · rw [hrows] at h
      have hrow := hextend row h
      rw [hnone] at hrow
      exact hrow

end Terminal

end MatchingVenue
