import MatchingVenue.Engine.MatchingEngine

/-!
# The fields of the engine after each update

One lemma for each field that an update of the engine leaves alone or sets. The proofs about the
engine read its fields through these lemmas and do not unfold the updates.
-/

namespace MatchingVenue.MatchingEngine

variable (s : MatchingEngine)

/-- The two sides are the whole of `Side`, seen from either of them. -/
theorem forall_side {P : Side → Prop} (side : Side) : (∀ x, P x) ↔ P side ∧ P side.opposite := by
  constructor
  · exact fun h => ⟨h _, h _⟩
  · rintro ⟨h, h'⟩ x
    cases side <;> cases x <;> assumption

section SetBook

variable (side : Side) (book : Book side)

@[simp]
theorem book_setBook : (s.setBook side book).book side = book := by cases side <;> rfl

@[simp]
theorem book_setBook_of_ne {x : Side} (hx : x ≠ side) :
    (s.setBook side book).book x = s.book x := by
  cases side <;> cases x <;> first | rfl | contradiction

@[simp]
theorem pool_setBook (x : Side) : (s.setBook side book).pool x = s.pool x := by
  cases side <;> cases x <;> rfl

@[simp]
theorem trades_setBook : (s.setBook side book).trades = s.trades := by cases side <;> rfl

@[simp]
theorem openOrders_setBook : (s.setBook side book).openOrders = s.openOrders := by
  cases side <;> rfl

@[simp]
theorem executionListener_setBook :
    (s.setBook side book).executionListener = s.executionListener := by
  cases side <;> rfl

@[simp]
theorem retired_setBook : (s.setBook side book).retired = s.retired := by cases side <;> rfl

@[simp]
theorem nextRef_setBook : (s.setBook side book).nextRef = s.nextRef := by cases side <;> rfl

@[simp]
theorem tradeIDCounter_setBook : (s.setBook side book).tradeIDCounter = s.tradeIDCounter := by
  cases side <;> rfl

end SetBook

section SetPool

variable (side : Side) (pool : List RestingOrder)

@[simp]
theorem book_setPool (x : Side) : (s.setPool side pool).book x = s.book x := by
  cases side <;> cases x <;> rfl

@[simp]
theorem pool_setPool : (s.setPool side pool).pool side = pool := by cases side <;> rfl

@[simp]
theorem pool_setPool_of_ne {x : Side} (hx : x ≠ side) :
    (s.setPool side pool).pool x = s.pool x := by
  cases side <;> cases x <;> first | rfl | contradiction

@[simp]
theorem trades_setPool : (s.setPool side pool).trades = s.trades := by cases side <;> rfl

@[simp]
theorem openOrders_setPool : (s.setPool side pool).openOrders = s.openOrders := by
  cases side <;> rfl

@[simp]
theorem executionListener_setPool :
    (s.setPool side pool).executionListener = s.executionListener := by
  cases side <;> rfl

@[simp]
theorem retired_setPool : (s.setPool side pool).retired = s.retired := by cases side <;> rfl

@[simp]
theorem nextRef_setPool : (s.setPool side pool).nextRef = s.nextRef := by cases side <;> rfl

@[simp]
theorem tradeIDCounter_setPool : (s.setPool side pool).tradeIDCounter = s.tradeIDCounter := by
  cases side <;> rfl

end SetPool

section Record

variable (aggressor passive : Order) (price : ℤ) (m : ℕ) (order : Order) (orderID : ℤ) (ref : Ref)

/-- The trade that a fill of an incoming order records, under the next trade id. -/
def fillTrade : Trade :=
  match aggressor.side with
  | .buy => ⟨toLong (s.tradeIDCounter + 1), aggressor.orderID, passive.orderID,
      aggressor.participantID, passive.participantID, price, m⟩
  | .sell => ⟨toLong (s.tradeIDCounter + 1), passive.orderID, aggressor.orderID,
      passive.participantID, aggressor.participantID, price, m⟩

@[simp]
theorem book_recordFill (x : Side) :
    (s.recordFill aggressor passive price m).book x = s.book x := by
  unfold recordFill
  cases aggressor.side <;> cases x <;> rfl

@[simp]
theorem pool_recordFill (x : Side) :
    (s.recordFill aggressor passive price m).pool x = s.pool x := by
  unfold recordFill
  cases aggressor.side <;> cases x <;> rfl

@[simp]
theorem trades_recordFill : (s.recordFill aggressor passive price m).trades =
    s.trades ++ [s.fillTrade aggressor passive price m] := by
  unfold recordFill fillTrade
  cases aggressor.side <;> rfl

@[simp]
theorem openOrders_recordFill :
    (s.recordFill aggressor passive price m).openOrders = s.openOrders := by
  unfold recordFill
  cases aggressor.side <;> rfl

@[simp]
theorem executionListener_recordFill :
    (s.recordFill aggressor passive price m).executionListener = s.executionListener ++
      [.onFill aggressor.orderID passive.orderID (toLong (s.tradeIDCounter + 1)) price m
        aggressor.quantity] := by
  unfold recordFill
  cases aggressor.side <;> rfl

@[simp]
theorem retired_recordFill : (s.recordFill aggressor passive price m).retired = s.retired := by
  unfold recordFill
  cases aggressor.side <;> rfl

@[simp]
theorem nextRef_recordFill : (s.recordFill aggressor passive price m).nextRef = s.nextRef := by
  unfold recordFill
  cases aggressor.side <;> rfl

@[simp]
theorem tradeIDCounter_recordFill :
    (s.recordFill aggressor passive price m).tradeIDCounter = toLong (s.tradeIDCounter + 1) := by
  unfold recordFill
  cases aggressor.side <;> rfl

/-- The trade of a pool cross, under the next trade id. -/
def crossTrade (bid ask : Order) : Trade :=
  ⟨toLong (s.tradeIDCounter + 1), bid.orderID, ask.orderID, bid.participantID, ask.participantID,
    price, m⟩

section RecordTrade

variable (buy sell : Order)

@[simp]
theorem book_recordTrade (x : Side) :
    (s.recordTrade buy sell aggressor passive price m).book x = s.book x := by
  cases x <;> rfl

@[simp]
theorem pool_recordTrade (x : Side) :
    (s.recordTrade buy sell aggressor passive price m).pool x = s.pool x := by
  cases x <;> rfl

@[simp]
theorem trades_recordTrade : (s.recordTrade buy sell aggressor passive price m).trades =
    s.trades ++ [s.crossTrade price m buy sell] := rfl

@[simp]
theorem openOrders_recordTrade :
    (s.recordTrade buy sell aggressor passive price m).openOrders = s.openOrders := rfl

@[simp]
theorem executionListener_recordTrade :
    (s.recordTrade buy sell aggressor passive price m).executionListener = s.executionListener ++
      [.onFill aggressor.orderID passive.orderID (toLong (s.tradeIDCounter + 1)) price m
        aggressor.quantity] := rfl

@[simp]
theorem retired_recordTrade :
    (s.recordTrade buy sell aggressor passive price m).retired = s.retired := rfl

@[simp]
theorem nextRef_recordTrade :
    (s.recordTrade buy sell aggressor passive price m).nextRef = s.nextRef := rfl

@[simp]
theorem tradeIDCounter_recordTrade :
    (s.recordTrade buy sell aggressor passive price m).tradeIDCounter =
      toLong (s.tradeIDCounter + 1) := rfl

end RecordTrade

@[simp] theorem book_onAccepted (x : Side) : (s.onAccepted order).book x = s.book x := by
  cases x <;> rfl
@[simp] theorem pool_onAccepted (x : Side) : (s.onAccepted order).pool x = s.pool x := by
  cases x <;> rfl
@[simp] theorem book_onExpired (x : Side) : (s.onExpired order).book x = s.book x := by
  cases x <;> rfl
@[simp] theorem pool_onExpired (x : Side) : (s.onExpired order).pool x = s.pool x := by
  cases x <;> rfl
@[simp] theorem book_register (x : Side) : (s.register orderID ref).book x = s.book x := by
  cases x <;> rfl
@[simp] theorem pool_register (x : Side) : (s.register orderID ref).pool x = s.pool x := by
  cases x <;> rfl
@[simp] theorem book_unregister (x : Side) : (s.unregister orderID).book x = s.book x := by
  cases x <;> rfl
@[simp] theorem pool_unregister (x : Side) : (s.unregister orderID).pool x = s.pool x := by
  cases x <;> rfl
@[simp] theorem book_retire (x : Side) : (s.retire order).book x = s.book x := by cases x <;> rfl
@[simp] theorem pool_retire (x : Side) : (s.retire order).pool x = s.pool x := by cases x <;> rfl

@[simp]
theorem book_dispose (x : Side) : (s.dispose order).book x = s.book x := by
  unfold dispose
  split_ifs <;> simp

@[simp]
theorem pool_dispose (x : Side) : (s.dispose order).pool x = s.pool x := by
  unfold dispose
  split_ifs <;> simp

end Record

/-! ## The head of a queue after its fill -/

section Settle

variable (side : Side) (r : RestingOrder) (behind : List RestingOrder)

/-- The queue of a level after the fill of its head, which is `r` now. -/
def litQueue : List RestingOrder :=
  if r.quantity = 0 then behind
  else if r.visibleQty = 0 then behind ++ [r.refreshDisplay]
  else r :: behind

/-- The queue of a pool after the fill of its head, which is `r` now. -/
def pegQueue : List RestingOrder := if r.quantity = 0 then behind else r :: behind

variable {r behind} in
/-- What is in a peg queue after a fill at its head is the filled order or was behind it. -/
theorem mem_pegQueue {x : RestingOrder} (h : x ∈ pegQueue r behind) : x = r ∨ x ∈ behind := by
  unfold pegQueue at h
  split_ifs at h
  · exact .inr h
  · exact List.mem_cons.mp h

/-- A peg queue keeps its head after a fill where something of it remains. -/
theorem length_pegQueue :
    (pegQueue r behind).length = behind.length + if r.quantity = 0 then 0 else 1 := by
  unfold pegQueue
  split_ifs <;> rfl

/-- The registry after the fill of a head, which is `r` now. -/
def unlessDone (openOrders : ℤ → Option Ref) : ℤ → Option Ref :=
  if r.quantity = 0 then Function.update openOrders r.orderID none else openOrders

/-- What a filled head adds to the orders that left. -/
def leaving : List Order := if r.quantity = 0 then [r.toOrder] else []

/-- The level of the head keeps its price with the new queue, or goes with its last order. -/
theorem entries_settleLit {p : ℤ} {r₀ : RestingOrder} {levels : List (ℤ × List RestingOrder)}
    (h : (s.book side).entries = (p, r₀ :: behind) :: levels) :
    ((s.settleLit side r behind).book side).entries =
      if litQueue r behind = [] then levels else (p, litQueue r behind) :: levels := by
  unfold settleLit litQueue
  split_ifs with hq hb hv <;> simp_all [SortedMap.entries_setFirst h]

@[simp]
theorem book_settleLit_of_ne {x : Side} (hx : x ≠ side) :
    (s.settleLit side r behind).book x = s.book x := by
  unfold settleLit
  split_ifs <;> simp [hx]

@[simp]
theorem pool_settleLit (x : Side) : (s.settleLit side r behind).pool x = s.pool x := by
  unfold settleLit
  split_ifs <;> simp

@[simp]
theorem trades_settleLit : (s.settleLit side r behind).trades = s.trades := by
  unfold settleLit
  split_ifs <;> simp [retire, unregister]

@[simp]
theorem openOrders_settleLit :
    (s.settleLit side r behind).openOrders = unlessDone r s.openOrders := by
  unfold settleLit unlessDone
  split_ifs <;> simp [retire, unregister]

@[simp]
theorem executionListener_settleLit :
    (s.settleLit side r behind).executionListener = s.executionListener := by
  unfold settleLit
  split_ifs <;> simp [retire, unregister]

@[simp]
theorem retired_settleLit : (s.settleLit side r behind).retired = s.retired ++ leaving r := by
  unfold settleLit leaving
  split_ifs <;> simp [retire, unregister]

@[simp]
theorem nextRef_settleLit : (s.settleLit side r behind).nextRef = s.nextRef := by
  unfold settleLit
  split_ifs <;> simp [retire, unregister]

@[simp]
theorem tradeIDCounter_settleLit :
    (s.settleLit side r behind).tradeIDCounter = s.tradeIDCounter := by
  unfold settleLit
  split_ifs <;> simp [retire, unregister]

@[simp]
theorem book_settleHead (x : Side) : (s.settleHead side r behind).book x = s.book x := by
  unfold settleHead
  split_ifs <;> simp

@[simp]
theorem pool_settleHead : (s.settleHead side r behind).pool side = pegQueue r behind := by
  unfold settleHead pegQueue
  split_ifs <;> simp

@[simp]
theorem pool_settleHead_of_ne {x : Side} (hx : x ≠ side) :
    (s.settleHead side r behind).pool x = s.pool x := by
  unfold settleHead
  split_ifs <;> simp [hx]

@[simp]
theorem trades_settleHead : (s.settleHead side r behind).trades = s.trades := by
  unfold settleHead
  split_ifs <;> simp [retire, unregister]

@[simp]
theorem openOrders_settleHead :
    (s.settleHead side r behind).openOrders = unlessDone r s.openOrders := by
  unfold settleHead unlessDone
  split_ifs <;> simp [retire, unregister]

@[simp]
theorem executionListener_settleHead :
    (s.settleHead side r behind).executionListener = s.executionListener := by
  unfold settleHead
  split_ifs <;> simp [retire, unregister]

@[simp]
theorem retired_settleHead : (s.settleHead side r behind).retired = s.retired ++ leaving r := by
  unfold settleHead leaving
  split_ifs <;> simp [retire, unregister]

@[simp]
theorem nextRef_settleHead : (s.settleHead side r behind).nextRef = s.nextRef := by
  unfold settleHead
  split_ifs <;> simp [retire, unregister]

@[simp]
theorem tradeIDCounter_settleHead :
    (s.settleHead side r behind).tradeIDCounter = s.tradeIDCounter := by
  unfold settleHead
  split_ifs <;> simp [retire, unregister]

end Settle

/-! ## An order that comes to rest -/

section Rest

variable (order : Order)

@[simp]
theorem book_addToBook_of_ne {x : Side} (hx : x ≠ order.side) :
    (s.addToBook order).book x = s.book x := by
  simp only [addToBook, book_register, book_setBook_of_ne _ _ _ hx]
  cases x <;> rfl

@[simp]
theorem pool_addToBook (x : Side) : (s.addToBook order).pool x = s.pool x := by
  simp only [addToBook, pool_register, pool_setBook]
  cases x <;> rfl

@[simp]
theorem trades_addToBook : (s.addToBook order).trades = s.trades := by simp [addToBook, register]

@[simp]
theorem openOrders_addToBook :
    (s.addToBook order).openOrders =
      Function.update s.openOrders order.orderID (some s.nextRef) := by
  simp [addToBook, register, nextObject]

@[simp]
theorem executionListener_addToBook :
    (s.addToBook order).executionListener = s.executionListener := by
  simp [addToBook, register]

@[simp]
theorem retired_addToBook : (s.addToBook order).retired = s.retired := by simp [addToBook, register]

@[simp]
theorem nextRef_addToBook : (s.addToBook order).nextRef = s.nextRef + 1 := by
  simp [addToBook, register]

@[simp]
theorem tradeIDCounter_addToBook : (s.addToBook order).tradeIDCounter = s.tradeIDCounter := by
  simp [addToBook, register]

/-- The book of a side after an order came to rest there. -/
theorem book_addToBook : (s.addToBook order).book order.side =
    (s.book order.side).upsert order.price fun queue =>
      queue.getD [] ++ [s.nextObject order.refreshDisplay] := by
  -- Counting the new object does not touch the book.
  have hbook : ∀ side, ({ s with nextRef := s.nextRef + 1 } : MatchingEngine).book side =
      s.book side := by
    intro side
    cases side <;> rfl
  simp only [addToBook, book_register, book_setBook, hbook]

/-- An order that comes to rest is put at the end of the level of its price, which is opened where
there is none. -/
theorem upsert_addToBook :
    ((s.addToBook order).book order.side).entries =
      SortedMap.upsertEntries (Better order.side) order.price
      (fun queue => queue.getD [] ++ [s.nextObject order.refreshDisplay])
        (s.book order.side).entries := by
  rw [book_addToBook]
  rfl

/-- The level of an order that comes to rest: a new one in its place, or the old one with the order
at its back. -/
theorem entries_addToBook :
    (∃ pre post, (s.book order.side).entries = pre ++ post ∧
        (∀ level ∈ (s.book order.side).entries, level.1 ≠ order.price) ∧
        ((s.addToBook order).book order.side).entries =
          pre ++ (order.price, [s.nextObject order.refreshDisplay]) :: post) ∨
      ∃ pre queue post, (s.book order.side).entries = pre ++ (order.price, queue) :: post ∧
        ((s.addToBook order).book order.side).entries =
          pre ++ (order.price, queue ++ [s.nextObject order.refreshDisplay]) :: post := by
  rw [upsert_addToBook]
  exact SortedMap.upsertEntries_split (s.book order.side).sorted

@[simp]
theorem book_restPeg (x : Side) : (s.restPeg order).book x = s.book x := by
  simp only [restPeg, book_onAccepted, book_register, book_setPool]
  cases x <;> rfl

@[simp]
theorem pool_restPeg :
    (s.restPeg order).pool order.side = s.pool order.side ++ [s.nextObject order] := by
  simp only [restPeg, pool_onAccepted, pool_register, pool_setPool]
  cases order.side <;> rfl

@[simp]
theorem pool_restPeg_of_ne {x : Side} (hx : x ≠ order.side) :
    (s.restPeg order).pool x = s.pool x := by
  simp only [restPeg, pool_onAccepted, pool_register, pool_setPool_of_ne _ _ _ hx]
  cases x <;> rfl

@[simp]
theorem trades_restPeg : (s.restPeg order).trades = s.trades := by
  simp [restPeg, register, onAccepted]

@[simp]
theorem openOrders_restPeg :
    (s.restPeg order).openOrders =
      Function.update s.openOrders order.orderID (some s.nextRef) := by
  simp [restPeg, register, onAccepted, nextObject]

@[simp]
theorem executionListener_restPeg :
    (s.restPeg order).executionListener =
      s.executionListener ++ [.onAccepted order.orderID order.price order.quantity] := by
  simp [restPeg, register, onAccepted]

@[simp]
theorem retired_restPeg : (s.restPeg order).retired = s.retired := by
  simp [restPeg, register, onAccepted]

@[simp]
theorem nextRef_restPeg : (s.restPeg order).nextRef = s.nextRef + 1 := by
  simp [restPeg, register, onAccepted]

@[simp]
theorem tradeIDCounter_restPeg : (s.restPeg order).tradeIDCounter = s.tradeIDCounter := by
  simp [restPeg, register, onAccepted]

end Rest

/-! ## An order that is taken out of its queue -/

section Withdraw

variable (r : RestingOrder)

/-- Taking an order out changes the pool or the book of its side, or nothing. -/
theorem withdraw_cases :
    (∃ queue, s.withdraw r = s.setPool r.side queue) ∨ s.withdraw r = s ∨
      ∃ book, s.withdraw r = s.setBook r.side book := by
  unfold withdraw
  split
  · exact .inl ⟨_, rfl⟩
  right
  split
  · exact .inl rfl
  -- The level with one order less, or no level where that was the last one.
  simp only
  split_ifs
  · exact .inr ⟨_, rfl⟩
  · exact .inr ⟨_, rfl⟩

@[simp]
theorem trades_withdraw : (s.withdraw r).trades = s.trades := by
  obtain ⟨_, h⟩ | h | ⟨_, h⟩ := s.withdraw_cases r
  · simp [h]
  · rw [h]
  · simp [h]

@[simp]
theorem openOrders_withdraw : (s.withdraw r).openOrders = s.openOrders := by
  obtain ⟨_, h⟩ | h | ⟨_, h⟩ := s.withdraw_cases r
  · simp [h]
  · rw [h]
  · simp [h]

@[simp]
theorem executionListener_withdraw : (s.withdraw r).executionListener = s.executionListener := by
  obtain ⟨_, h⟩ | h | ⟨_, h⟩ := s.withdraw_cases r
  · simp [h]
  · rw [h]
  · simp [h]

@[simp]
theorem retired_withdraw : (s.withdraw r).retired = s.retired := by
  obtain ⟨_, h⟩ | h | ⟨_, h⟩ := s.withdraw_cases r
  · simp [h]
  · rw [h]
  · simp [h]

@[simp]
theorem nextRef_withdraw : (s.withdraw r).nextRef = s.nextRef := by
  obtain ⟨_, h⟩ | h | ⟨_, h⟩ := s.withdraw_cases r
  · simp [h]
  · rw [h]
  · simp [h]

@[simp]
theorem tradeIDCounter_withdraw : (s.withdraw r).tradeIDCounter = s.tradeIDCounter := by
  obtain ⟨_, h⟩ | h | ⟨_, h⟩ := s.withdraw_cases r
  · simp [h]
  · rw [h]
  · simp [h]

end Withdraw

/-! ## The resting orders -/

/-- The resting orders, sorted by queue and seen from one side of the book. -/
theorem resting_perm (side : Side) :
    s.resting.Perm ((s.book side).orders ++ ((s.book side.opposite).orders ++
      (s.pool side ++ s.pool side.opposite))) := by
  cases side with
  | buy => simp [resting, book, pool, Side.opposite]
  | sell =>
    simp only [resting, book, pool, Side.opposite]
    -- Seen from the asks, the two books and the two pools change places.
    rw [← List.append_assoc s.asks.orders]
    exact List.perm_append_comm.append List.perm_append_comm

/-- The same with the pools in front. -/
theorem resting_perm_pools (side : Side) :
    s.resting.Perm (s.pool side ++ (s.pool side.opposite ++ ((s.book side).orders ++
      (s.book side.opposite).orders))) := by
  have h := s.resting_perm side
  rw [← List.append_assoc (s.book side).orders] at h
  rw [← List.append_assoc (s.pool side)]
  exact h.trans List.perm_append_comm

/-- An order rests where it is in a book or in a pool. -/
theorem mem_resting {s : MatchingEngine} {r : RestingOrder} :
    r ∈ s.resting ↔ ∃ side, r ∈ (s.book side).orders ∨ r ∈ s.pool side := by
  rw [(s.resting_perm .buy).mem_iff]
  simp only [List.mem_append]
  constructor
  · rintro (h | h | h | h)
    · exact ⟨_, .inl h⟩
    · exact ⟨_, .inl h⟩
    · exact ⟨_, .inr h⟩
    · exact ⟨_, .inr h⟩
  · rintro ⟨_ | _, h | h⟩
    · exact .inl h
    · exact .inr (.inr (.inl h))
    · exact .inr (.inl h)
    · exact .inr (.inr (.inr h))

/-- Two engines with the same queues have the same resting orders. -/
theorem resting_congr {s t : MatchingEngine} (hb : ∀ x, t.book x = s.book x)
    (hp : ∀ x, t.pool x = s.pool x) : t.resting = s.resting := by
  have h1 : t.bids = s.bids := hb .buy
  have h2 : t.asks = s.asks := hb .sell
  have h3 : t.pegBids = s.pegBids := hp .buy
  have h4 : t.pegAsks = s.pegAsks := hp .sell
  simp only [resting, h1, h2, h3, h4]

/-- An order is in a book where it is at one of its levels. -/
theorem mem_orders {side : Side} {book : Book side} {r : RestingOrder} :
    r ∈ book.orders ↔ ∃ level ∈ book.entries, r ∈ level.2 := by
  simp [Book.orders]

end MatchingVenue.MatchingEngine
