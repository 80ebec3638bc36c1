import MatchingVenue.Library.Interleaving
import MatchingVenue.Terminal.Reducer

/-!
# The streams of a terminal

The depth snapshots and the execution reports come from independent consumers, so a terminal may see
them in any order against each other. `AppState.timeless` is its state without the time of the last
frame, the one field that every frame writes. Up to that field the frames of the book commute with
everything else, and so do the changes of the connection.
-/

namespace MatchingVenue

namespace Terminal

/-- The state apart from the time of the last frame. -/
def AppState.timeless (state : AppState) : AppState := { state with lastFrameNanos := 0 }

/-- An action that is about orders: an EXEC frame, a FIX frame, or a frame that was sent. -/
def Action.AboutOrders : Action → Prop
  | .connection _ => False
  | .frame (.book _) => False
  | .frame (.exec _) => True
  | .frame (.fix _) => True
  | .sent _ _ => True

/-- Whether an action is about orders can be decided. -/
instance : DecidablePred Action.AboutOrders := fun action => by
  unfold Action.AboutOrders
  split <;> infer_instance

/-- The action of a BOOK frame. -/
def bookAction (frame : BookState) : Action := .frame (.book frame)

/-- An interleaving of BOOK frames, actions about orders and changes of the connection. -/
def Interleaving (books : List BookState) (orders : List Action)
    (connections : List ConnectionStatus) (actions : List Action) : Prop :=
  ∃ rest, Interleaves orders (connections.map Action.connection) rest ∧
    Interleaves rest (books.map bookAction) actions

/-! ## One action -/

/-- The tape and the session figures do not come from the fields of the other streams. -/
theorem applyFill_comm (state : AppState) (frame : ExecFrame) (book : BookState)
    (connection : ConnectionStatus) (lastFrameNanos : ℤ) :
    applyFill { state with book, connection, lastFrameNanos } frame =
      { applyFill state frame with book, connection, lastFrameNanos } := by
  unfold applyFill
  by_cases hfill : isFill frame = true
  · simp only [if_pos hfill]
  · simp only [if_neg hfill]

/-- No action reads the time of the last frame. -/
theorem timeless_reducer (state : AppState) (action : Action) :
    (reducer state.timeless action).timeless = (reducer state action).timeless := by
  cases action with
  | connection status =>
    by_cases hsame : status = state.connection <;> simp [reducer, AppState.timeless, hsame]
  | frame frame =>
    cases frame with
    | book frame => rfl
    | fix frame => rfl
    | exec frame =>
      have hfill := applyFill_comm state frame state.book state.connection 0
      simp only [reducer, applyExec, AppState.timeless, hfill]
      by_cases h : isFill frame = true <;> simp [applyFill, h]
  | sent frame sentAtNanos =>
    cases frame with
    | cancel clOrdId origClOrdId => rfl
    | new frame =>
      by_cases hknown : (state.myOrders.any fun o => o.clOrdId = frame.clOrdId) = true <;>
        simp [reducer, applySent, AppState.timeless, hknown]

/-- Times aside, the reducer makes of states that are the same states that are the same. -/
theorem reducer_congr (s t : AppState) (action : Action) (h : s.timeless = t.timeless) :
    (reducer s action).timeless = (reducer t action).timeless := by
  rw [← timeless_reducer s, h, timeless_reducer t]

/-- An action about orders leaves the book and the connection. -/
theorem reducer_aboutOrders (state : AppState) {action : Action} (h : action.AboutOrders) :
    (reducer state action).book = state.book ∧
      (reducer state action).connection = state.connection := by
  cases action with
  | connection status => exact absurd h id
  | frame frame =>
    cases frame with
    | book frame => exact absurd h id
    | fix frame => exact ⟨rfl, rfl⟩
    | exec frame =>
      by_cases hfill : isFill frame = true <;> simp [reducer, applyExec, applyFill, hfill]
  | sent frame sentAtNanos =>
    cases frame with
    | cancel clOrdId origClOrdId => exact ⟨rfl, rfl⟩
    | new frame =>
      simp only [reducer, applySent]
      split_ifs <;> exact ⟨rfl, rfl⟩

/-- An action about orders does not read the book or the connection. -/
theorem reducer_orders_comm (state : AppState) {action : Action} (h : action.AboutOrders)
    (book : BookState) (connection : ConnectionStatus) :
    reducer { state with book, connection } action =
      { reducer state action with book, connection } := by
  cases action with
  | connection status => exact absurd h id
  | frame frame =>
    cases frame with
    | book frame => exact absurd h id
    | fix frame => rfl
    | exec frame =>
      have hfill := applyFill_comm state frame book connection state.lastFrameNanos
      simp only [reducer, applyExec, hfill]
  | sent frame sentAtNanos =>
    cases frame with
    | cancel clOrdId origClOrdId => rfl
    | new frame =>
      by_cases hknown : (state.myOrders.any fun o => o.clOrdId = frame.clOrdId) = true <;>
        simp [reducer, applySent, hknown]

/-- A connection action changes the connection only. -/
theorem reducer_connection (state : AppState) (status : ConnectionStatus) :
    reducer state (.connection status) = { state with connection := status } := by
  simp only [reducer]
  split_ifs with hsame
  · rw [hsame]
  · rfl

/-- Changes of the connection commute with actions about orders. -/
theorem connection_comm (state : AppState) {action : Action} (h : action.AboutOrders)
    (status : ConnectionStatus) :
    reducer (reducer state action) (.connection status) =
      reducer (reducer state (.connection status)) action := by
  obtain ⟨hbook, -⟩ := reducer_aboutOrders state h
  rw [reducer_connection, reducer_connection, reducer_orders_comm state h state.book status,
    ← hbook]

/-- BOOK frames commute with every action that is not one, apart from the time of the last frame. -/
theorem book_comm (state : AppState) {action : Action}
    (h : action.AboutOrders ∨ ∃ status, action = .connection status) (frame : BookState) :
    (reducer (reducer state action) (bookAction frame)).timeless =
      (reducer (reducer state (bookAction frame)) action).timeless := by
  rcases h with h | ⟨status, rfl⟩
  · obtain ⟨-, hconnection⟩ := reducer_aboutOrders state h
    have hlast : (reducer state (bookAction frame)).timeless =
        ({ state with book := frame, connection := state.connection } : AppState).timeless := rfl
    rw [reducer_congr _ _ action hlast, reducer_orders_comm state h frame state.connection,
      ← hconnection]
    rfl
  · rw [reducer_connection, reducer_connection]
    rfl

/-! ## Whole streams -/

/-- Actions about orders leave the book and the connection. -/
theorem foldl_aboutOrders {orders : List Action} (h : ∀ action ∈ orders, action.AboutOrders)
    (state : AppState) :
    (orders.foldl reducer state).book = state.book ∧
      (orders.foldl reducer state).connection = state.connection := by
  induction orders generalizing state with
  | nil => exact ⟨rfl, rfl⟩
  | cons action orders ih =>
    obtain ⟨hbook, hconnection⟩ := reducer_aboutOrders state (h action List.mem_cons_self)
    have hrest := ih (fun a ha => h a (List.mem_cons_of_mem _ ha)) (reducer state action)
    rw [hbook, hconnection] at hrest
    exact hrest

/-- Of some connection actions the last one stays. -/
theorem foldl_connections (connections : List ConnectionStatus) (state : AppState) :
    (connections.map Action.connection).foldl reducer state =
      { state with connection := connections.getLastD state.connection } := by
  induction connections generalizing state with
  | nil => rfl
  | cons status connections ih =>
    rw [List.map_cons, List.foldl_cons, ih, reducer_connection, List.getLastD_cons]

/-- Times aside, of some books the last one stays. -/
theorem foldl_books (books : List BookState) (state : AppState) :
    ((books.map bookAction).foldl reducer state).timeless =
      ({ state with book := books.getLastD state.book } : AppState).timeless := by
  induction books generalizing state with
  | nil => rfl
  | cons frame books ih =>
    rw [List.map_cons, List.foldl_cons, ih, List.getLastD_cons]
    rfl

/-- What an interleaving comes to: the run of the actions about orders alone, with the last book and
the last connection. -/
theorem foldl_interleaving {books : List BookState} {orders : List Action}
    {connections : List ConnectionStatus} {actions : List Action}
    (horders : ∀ action ∈ orders, action.AboutOrders)
    (h : Interleaving books orders connections actions) (state : AppState) :
    (actions.foldl reducer state).timeless =
      ({ orders.foldl reducer state with
          book := books.getLastD state.book
          connection := connections.getLastD state.connection } : AppState).timeless := by
  obtain ⟨rest, hrest, hactions⟩ := h
  obtain ⟨hbook, hconnection⟩ := foldl_aboutOrders horders state
  -- First the book goes behind all else, then the connection behind the orders.
  have hkind : ∀ action ∈ rest, action.AboutOrders ∨ ∃ status, action = .connection status := by
    intro action haction
    rcases hrest.mem_iff.mp haction with h | h
    · exact .inl (horders action h)
    · obtain ⟨status, -, rfl⟩ := List.mem_map.mp h
      exact .inr ⟨status, rfl⟩
  have hlast : (actions.foldl reducer state).timeless =
      ((books.map bookAction).foldl reducer (rest.foldl reducer state)).timeless := by
    refine hactions.foldl_eq reducer_congr (fun action haction b hb s => ?_) state
    obtain ⟨frame, -, rfl⟩ := List.mem_map.mp hb
    exact book_comm s (hkind action haction) frame
  have hmiddle : (rest.foldl reducer state).timeless =
      ((connections.map Action.connection).foldl reducer
          (orders.foldl reducer state)).timeless := by
    refine hrest.foldl_eq reducer_congr (fun action haction b hb s => ?_) state
    obtain ⟨status, -, rfl⟩ := List.mem_map.mp hb
    exact congrArg AppState.timeless (connection_comm s (horders action haction) status)
  rw [hlast, Interleaves.foldl_congr reducer_congr _ hmiddle, foldl_books, foldl_connections, hbook,
    hconnection]

/-- The streams of a terminal commute: every interleaving of the same BOOK frames, the same actions
about orders and the same changes of the connection ends in the same state, but for the time of the
last frame. It is the state of the orders alone, with the last book and the last connection. -/
theorem streams_commute {books : List BookState} {orders : List Action}
    {connections : List ConnectionStatus} {actions actions' : List Action}
    (horders : ∀ action ∈ orders, action.AboutOrders)
    (h : Interleaving books orders connections actions)
    (h' : Interleaving books orders connections actions') (state : AppState) :
    (actions.foldl reducer state).timeless = (actions'.foldl reducer state).timeless ∧
      (actions.foldl reducer state).timeless =
        ({ orders.foldl reducer state with
            book := books.getLastD state.book
            connection := connections.getLastD state.connection } : AppState).timeless := by
  have hfirst := foldl_interleaving horders h state
  have hsecond := foldl_interleaving horders h' state
  exact ⟨hfirst.trans hsecond.symm, hfirst⟩

/-- An order that is sent and filled, as the book empties. -/
def fillActions : List Action :=
  [.sent (.new ⟨2, .buy, .limit, .gtc, 10000, 4, 0⟩) none,
   .frame (.exec ⟨MatchingEngineHandler.onFill 2 1 1 10000 4 0, 7⟩)]

/-- The book before and after it. -/
def fillBooks : List BookState := [⟨-1, 10000, [], [(10000, 4)], 6⟩, ⟨-1, -1, [], [], 8⟩]

/-- The snapshots may come before and after a change of the connection, or all at the end. -/
theorem streams_commute_fill :
    ((fillActions.take 1 ++ fillBooks.map bookAction ++ [Action.connection .open] ++
        fillActions.drop 1).foldl reducer initialState).timeless =
      (([Action.connection .open] ++ fillActions ++ fillBooks.map bookAction).foldl reducer
        initialState).timeless := by
  have horders : ∀ action ∈ fillActions, action.AboutOrders := by decide
  have h : Interleaving fillBooks fillActions [.open]
      (fillActions.take 1 ++ fillBooks.map bookAction ++ [Action.connection .open] ++
        fillActions.drop 1) :=
    ⟨_, .left (.right (.left .nil)), .left (.right (.right (.left (.left .nil))))⟩
  have h' : Interleaving fillBooks fillActions [.open]
      ([Action.connection .open] ++ fillActions ++ fillBooks.map bookAction) :=
    ⟨_, .right (.left (.left .nil)), .left (.left (.left (.right (.right .nil))))⟩
  exact (streams_commute horders h h' initialState).1

end Terminal

end MatchingVenue
