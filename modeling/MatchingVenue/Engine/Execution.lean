import MatchingVenue.Engine.Runs

/-!
# An admission, one event at a time

Whatever loop it comes from, an admission does only five things: a fill of the incoming order
against a resting one, a fill of two resting pegs against each other, and the three ends of the
incoming order (it rests, it expires, or there is nothing left of it). `Step` is the relation of
these five on the incoming order and the engine. It forgets the queues and keeps which orders rest,
up to their order.

`addOrder_steps` shows that every admission is a run of such steps, and `cancelOrder_spec` says what
a cancel does in the same terms. What holds of the resting orders, the registry, the trades and the
callbacks is then proved once for each kind of step.
-/

namespace MatchingVenue.MatchingEngine

open RestingOrder (RestsIn)

/-- A resting order as far as it still rests. -/
def kept (r : RestingOrder) : List RestingOrder := if r.quantity = 0 then [] else [r]

/-- The records that a step adds: trades, callbacks, and the orders that leave. -/
structure Logs (s s' : MatchingEngine) (trades : List Trade) (callbacks : List Callback)
    (left : List Order) : Prop where
  trades : s'.trades = s.trades ++ trades
  executionListener : s'.executionListener = s.executionListener ++ callbacks
  retired : s'.retired = s.retired ++ left

/-- One event of an admission. The order is there until it comes to its end. -/
inductive Step : Option Order × MatchingEngine → Option Order × MatchingEngine → Prop where
  /-- The incoming order fills a resting one, which may show a fresh slice afterwards. -/
  | hit {o : Order} {s s' : MatchingEngine} (r r' : RestingOrder) (others : List RestingOrder)
      (price : ℤ) (m : ℕ) :
    s.resting.Perm (r :: others) → s'.resting.Perm (kept r' ++ others) →
    (r' = r.filled m ∨ r' = (r.filled m).refreshDisplay) →
    0 < m → m ≤ o.quantity → m ≤ r.quantity →
    Logs s s' [s.fillTrade o r.toOrder price m]
      [.onFill o.orderID r.orderID (toLong (s.tradeIDCounter + 1)) price m (o.quantity - m)]
      (leaving (r.filled m)) →
    s'.openOrders = unlessDone (r.filled m) s.openOrders → s'.nextRef = s.nextRef →
    r.side = o.side.opposite →
    Step (some o, s) (some (o.filled m), s')
  /-- Two resting pegs fill each other. -/
  | cross {s s' : MatchingEngine} (bid ask : RestingOrder) (others : List RestingOrder) (price : ℤ)
      (m : ℕ) :
    s.resting.Perm (bid :: ask :: others) →
    s'.resting.Perm (kept (bid.filled m) ++ (kept (ask.filled m) ++ others)) →
    0 < m → m ≤ bid.quantity → m ≤ ask.quantity →
    Logs s s' [s.crossTrade price m bid.toOrder ask.toOrder]
      [.onFill (crossRoles bid ask m).1.orderID (crossRoles bid ask m).2.orderID
        (toLong (s.tradeIDCounter + 1)) price m (crossRoles bid ask m).1.quantity]
      (leaving (bid.filled m) ++ leaving (ask.filled m)) →
    s'.openOrders = unlessDone (ask.filled m) (unlessDone (bid.filled m) s.openOrders) →
    s'.nextRef = s.nextRef → bid.side = .buy → ask.side = .sell →
    Step (none, s) (none, s')
  /-- What is left of the incoming order comes to rest. -/
  | rest {o : Order} {s s' : MatchingEngine} (r : RestingOrder) :
    0 < o.quantity → o.tif = .gtc → s'.resting.Perm (r :: s.resting) → r.ref = s.nextRef →
    (r.toOrder = o ∨ r.toOrder = o.refreshDisplay) →
    Logs s s' [] [.onAccepted o.orderID o.price o.quantity] [] →
    s'.openOrders = Function.update s.openOrders o.orderID (some r.ref) →
    s'.nextRef = s.nextRef + 1 →
    Step (some o, s) (none, s')
  /-- What is left of the incoming order expires. -/
  | expire {o left : Order} {s s' : MatchingEngine} :
    0 < o.quantity → o.tif ≠ .gtc → s'.resting = s.resting → (left = o ∨ left = o.expire) →
    Logs s s' [] [.onExpired o.orderID o.quantity] [left] →
    s'.openOrders = s.openOrders → s'.nextRef = s.nextRef →
    Step (some o, s) (none, s')
  /-- The incoming order is done. -/
  | finish {o : Order} {s s' : MatchingEngine} :
    o.quantity = 0 → s'.resting = s.resting → Logs s s' [] [] [o] →
    s'.openOrders = s.openOrders → s'.nextRef = s.nextRef →
    Step (some o, s) (none, s')

/-- The events of an admission. -/
abbrev Steps := Relation.ReflTransGen Step

/-- What every fill of the incoming order keeps holds after its match. -/
theorem Steps.match_induction {P : Order → MatchingEngine → Prop} {o o' : Order}
    {s s' : MatchingEngine} (h : Steps (some o, s) (some o', s')) (h0 : P o s)
    (hstep : ∀ a u b v, P a u → Step (some a, u) (some b, v) → P b v) : P o' s' := by
  generalize hy : ((some o', s') : Option Order × MatchingEngine) = y at h
  induction h generalizing o' s' with
  | refl =>
    obtain ⟨ho, rfl⟩ := Prod.mk.inj hy
    exact Option.some.inj ho ▸ h0
  | @tail u v hrun hlast ih =>
    subst hy
    obtain ⟨w, su⟩ := u
    -- Once the order has come to its end, it does not come back.
    cases w with
    | none => cases hlast
    | some a => exact hstep a su o' s' (ih rfl) hlast

/-- What every fill of two pegs keeps holds after the pool cross. -/
theorem Steps.cross_induction {P : MatchingEngine → Prop} {s t : MatchingEngine}
    (h : Steps (none, s) (none, t)) (h0 : P s)
    (hstep : ∀ u v, P u → Step (none, u) (none, v) → P v) : P t := by
  generalize hx : ((none, s) : Option Order × MatchingEngine) = x at h
  -- From the first step on: with no incoming order there is none later.
  induction h using Relation.ReflTransGen.head_induction_on generalizing s with
  | refl =>
    obtain ⟨-, rfl⟩ := Prod.mk.inj hx
    exact h0
  | @head x y hfirst hrun ih =>
    subst hx
    obtain ⟨w, v⟩ := y
    cases w with
    | none => exact ih (hstep s v h0 hfirst) rfl
    | some a => cases hfirst

/-! ## The queues as steps see them -/

/-- The queue of a level after a hit holds what is left of its head, perhaps with a fresh slice, and
the orders behind it. -/
theorem litQueue_perm (r : RestingOrder) (behind : List RestingOrder) :
    ∃ r', (r' = r ∨ r' = r.refreshDisplay) ∧ (litQueue r behind).Perm (kept r' ++ behind) := by
  unfold litQueue
  split_ifs with hq hv
  · -- The head is filled and leaves.
    refine ⟨r, .inl rfl, ?_⟩
    rw [kept, if_pos hq]
    exact .refl _
  · -- Its slice is filled: the order moves to the back with a fresh one.
    refine ⟨r.refreshDisplay, .inr rfl, ?_⟩
    rw [kept, if_neg (by simpa using hq)]
    exact List.perm_append_comm
  · -- It keeps its place.
    refine ⟨r, .inl rfl, ?_⟩
    rw [kept, if_neg hq]
    exact .refl _

/-- A peg queue after a fill at its head is what is kept of the head, and the others. -/
theorem pegQueue_eq (r : RestingOrder) (behind : List RestingOrder) :
    pegQueue r behind = kept r ++ behind := by
  unfold pegQueue kept
  split_ifs <;> rfl

/-- The orders of a book are those of its levels. -/
theorem orders_of_entries {side : Side} {book : Book side} {levels : List (ℤ × List RestingOrder)}
    (h : book.entries = levels) : book.orders = levels.flatMap Prod.snd := by
  rw [Book.orders, h]

/-- The orders of a side after a fill at its head: an empty level is gone, which changes nothing for
them. -/
theorem orders_settleLit {s : MatchingEngine} {side : Side} {r r₀ : RestingOrder} {p : ℤ}
    {behind : List RestingOrder} {levels : List (ℤ × List RestingOrder)}
    (h : (s.book side).entries = (p, r₀ :: behind) :: levels) :
    ((s.settleLit side r behind).book side).orders = litQueue r behind ++
      levels.flatMap Prod.snd := by
  rw [orders_of_entries (entries_settleLit _ _ _ _ h)]
  split_ifs with hempty
  · rw [hempty, List.nil_append]
  · rfl

/-- An iteration of the lit walk is a hit. -/
theorem matchLitBody_step {o o' : Order} {s s' : MatchingEngine} (hq : s.Queued)
    (h : matchLitBody o.side (o, s) = .ok (some (o', s'))) : Step (some o, s) (some o', s') := by
  obtain ⟨p, r, behind, levels, m, hentries, -, hm, hpos, hle, rfl, rfl⟩ := matchLitBody_some h
  have hlevels := hq.level o.side.opposite
  rw [hentries] at hlevels
  obtain ⟨r', hr', hqueue⟩ := litQueue_perm (r.filled m) behind
  -- The other orders: those behind in the queue, the other levels, the other book, and the pools.
  let others := behind ++ (levels.flatMap Prod.snd ++ ((s.book o.side).orders ++
    (s.pool o.side.opposite ++ s.pool o.side)))
  refine .hit r r' others p m ?_ ?_ hr' hpos (by omega) hle ⟨?_, ?_, ?_⟩ ?_ ?_ ?_
  · have hperm := s.resting_perm o.side.opposite
    rw [orders_of_entries hentries, Side.opposite_opposite] at hperm
    simpa [others] using hperm
  · refine (resting_perm _ o.side.opposite).trans ?_
    rw [orders_settleLit (by simpa using hentries), Side.opposite_opposite]
    simpa [others] using hqueue.append_right _
  · rw [trades_settleLit, trades_recordFill]
    rfl
  · rw [executionListener_settleLit, executionListener_recordFill]
    rfl
  · rw [retired_settleLit, retired_recordFill]
  · rw [openOrders_settleLit, openOrders_recordFill]
  · rw [nextRef_settleLit, nextRef_recordFill]
  · exact ((hlevels _ List.mem_cons_self).2 r List.mem_cons_self).side_eq

/-- An iteration over a pool is a hit. -/
theorem matchPegPoolBody_step {mid : ℤ} {o o' : Order} {s s' : MatchingEngine} (hq : s.Queued)
    (h : matchPegPoolBody mid (o, s) = .ok (some (o', s'))) : Step (some o, s) (some o', s') := by
  obtain ⟨r, behind, m, hpool, hm, hpos, rfl, rfl⟩ := matchPegPoolBody_some h
  -- The other orders: those behind in the pool, the other pool, and the lit books.
  let others := behind ++ (s.pool o.side ++ ((s.book o.side.opposite).orders ++
    (s.book o.side).orders))
  refine .hit r (r.filled m) others mid m ?_ ?_ (.inl rfl) hpos (by omega) (by omega)
    ⟨?_, ?_, ?_⟩ ?_ ?_ ?_
  · have hperm := s.resting_perm_pools o.side.opposite
    rw [hpool, Side.opposite_opposite] at hperm
    exact hperm
  · refine (resting_perm_pools _ o.side.opposite).trans ?_
    rw [pool_settleHead, pegQueue_eq, Side.opposite_opposite]
    simp [others]
  · rw [trades_settleHead, trades_recordFill]
    rfl
  · rw [executionListener_settleHead, executionListener_recordFill]
    rfl
  · rw [retired_settleHead, retired_recordFill]
  · rw [openOrders_settleHead, openOrders_recordFill]
  · rw [nextRef_settleHead, nextRef_recordFill]
  · have hpeg := hq.pool o.side.opposite r
    rw [hpool] at hpeg
    exact (hpeg List.mem_cons_self).side_eq

/-- An iteration of the pool cross fills the two heads against each other. -/
theorem crossPegPoolsBody_step {mid : ℤ} {s s' : MatchingEngine} (hq : s.Queued)
    (h : crossPegPoolsBody mid s = .ok (some s')) : Step (none, s) (none, s') := by
  obtain ⟨bid, bids, ask, asks, m, hbids, hasks, hm, hpos, rfl⟩ := crossPegPoolsBody_some h
  let others := bids ++ (asks ++ (s.bids.orders ++ s.asks.orders))
  -- Each head is in front of its pool; the two fronts are brought together.
  have hfront : ∀ {t : MatchingEngine} {b a : List RestingOrder}, (∀ x, t.book x = s.book x) →
      t.pool .buy = b ++ bids → t.pool .sell = a ++ asks →
      t.resting.Perm (b ++ (a ++ others)) := by
    intro t b a hbook hb ha
    refine (t.resting_perm_pools .buy).trans ?_
    rw [hb, Side.opposite, ha, hbook, hbook, List.append_assoc]
    apply List.Perm.append_left b
    have hswap : (bids ++ (a ++ asks)).Perm (a ++ (bids ++ asks)) := by
      rw [← List.append_assoc, ← List.append_assoc]
      exact List.perm_append_comm.append_right asks
    simpa [others, book] using hswap.append_right _
  refine .cross bid ask others mid m ?_ ?_ hpos (by omega) (by omega) ⟨?_, ?_, ?_⟩ ?_ ?_ ?_ ?_
  · exact hfront (b := [bid]) (a := [ask]) (fun _ => rfl) hbids hasks
  · refine hfront ?_ ?_ ?_
    · intro x
      rw [book_settleHead, book_settleHead, book_recordTrade]
    · -- The head of the bids is settled first, and the asks are not touched by that.
      rw [pool_settleHead_of_ne _ _ _ _ (by decide), pool_settleHead, pegQueue_eq]
    · rw [pool_settleHead, pegQueue_eq]
  · rw [trades_settleHead, trades_settleHead, trades_recordTrade]
    rfl
  · rw [executionListener_settleHead, executionListener_settleHead,
      executionListener_recordTrade]
  · rw [retired_settleHead, retired_settleHead, retired_recordTrade, List.append_assoc]
  · rw [openOrders_settleHead, openOrders_settleHead, openOrders_recordTrade]
  · rw [nextRef_settleHead, nextRef_settleHead, nextRef_recordTrade]
  · have hpool : ∀ x ∈ bid :: bids, RestsIn .buy x := hbids ▸ hq.pool .buy
    exact (hpool bid List.mem_cons_self).side_eq
  · have hpool : ∀ x ∈ ask :: asks, RestsIn .sell x := hasks ▸ hq.pool .sell
    exact (hpool ask List.mem_cons_self).side_eq

/-! ## The ends of an order -/

/-- A new order at the back of a level or of a pool rests besides the others. -/
theorem resting_addToBook (s : MatchingEngine) (o : Order) :
    (s.addToBook o).resting.Perm (s.nextObject o.refreshDisplay :: s.resting) := by
  have hbook : ((s.addToBook o).book o.side).orders.Perm
      (s.nextObject o.refreshDisplay :: (s.book o.side).orders) := by
    -- A new level, or the back of the queue of a level that exists.
    rcases s.entries_addToBook o with ⟨pre, post, hold, -, hnew⟩ | ⟨pre, queue, post, hold, hnew⟩
    · rw [orders_of_entries hold, orders_of_entries hnew]
      simp only [List.flatMap_append, List.flatMap_cons]
      exact List.perm_middle
    · rw [orders_of_entries hold, orders_of_entries hnew]
      simp only [List.flatMap_append, List.flatMap_cons, ← List.append_assoc]
      rw [List.append_assoc _ [_], List.singleton_append]
      exact List.perm_middle
  refine (resting_perm _ o.side).trans ?_
  rw [book_addToBook_of_ne _ _ (Side.opposite_ne _), pool_addToBook, pool_addToBook]
  exact (hbook.append_right _).trans ((s.resting_perm o.side).symm.cons _)

/-- A peg that comes to rest is one more resting order. -/
theorem resting_restPeg (s : MatchingEngine) (o : Order) :
    (s.restPeg o).resting.Perm (s.nextObject o :: s.resting) := by
  have hpool : ((s.restPeg o).pool o.side).Perm (s.nextObject o :: s.pool o.side) := by
    rw [pool_restPeg]
    exact List.perm_append_comm
  refine (resting_perm_pools _ o.side).trans ?_
  rw [pool_restPeg_of_ne _ _ (Side.opposite_ne _), book_restPeg, book_restPeg]
  exact (hpool.append_right _).trans ((s.resting_perm_pools o.side).symm.cons _)

/-- An order that does not rest, as its quantity or its time in force says, ends in one step. -/
theorem dispose_step (s : MatchingEngine) (o : Order) (h : ¬ (0 < o.quantity ∧ o.tif = .gtc)) :
    Step (some o, s) (none, s.dispose o) := by
  unfold dispose
  split_ifs with hq
  · exact .expire hq (fun htif => h ⟨hq, htif⟩) rfl (.inr rfl)
      ⟨by simp [retire, onExpired], rfl, rfl⟩
      rfl rfl
  · exact .finish (by omega) rfl ⟨by simp [retire], by simp [retire], rfl⟩ rfl rfl

/-- The end of a limit order is one step. -/
theorem disposeLit_step (s : MatchingEngine) (o : Order) :
    Step (some o, s) (none, s.disposeLit o) := by
  unfold disposeLit
  split_ifs with hrest
  · refine .rest (s.nextObject o.refreshDisplay) hrest.1 hrest.2 (s.resting_addToBook o)
      rfl (.inr rfl)
      ⟨?_, ?_, ?_⟩ ?_ ?_
    · simp [onAccepted]
    · simp [onAccepted]
    · simp [onAccepted]
    · exact openOrders_addToBook s o
    · exact nextRef_addToBook s o
  · exact dispose_step s o hrest

/-- The end of a peg is one step. -/
theorem disposePeg_step (s : MatchingEngine) (o : Order) :
    Step (some o, s) (none, s.disposePeg o) := by
  unfold disposePeg
  split_ifs with hrest
  · refine .rest (s.nextObject o) hrest.1 hrest.2 (s.resting_restPeg o) rfl (.inl rfl)
      ⟨?_, ?_, ?_⟩ ?_ ?_
    · simp
    · simp
    · simp
    · exact openOrders_restPeg s o
    · exact nextRef_restPeg s o
  · exact dispose_step s o hrest

/-! ## An admission -/

/-- The walk over the opposite pool is a run of steps. -/
theorem matchPegPool_steps {mid : ℤ} {o o' : Order} {s s' : MatchingEngine} (hq : s.Queued)
    (h : matchPegPool o mid s = .ok (o', s')) : Steps (some o, s) (some o', s') := by
  have hrun := whileLoop_steps_inv h (fun x => x.2.Queued) hq fun _ _ hu hbody =>
    hu.matchPegPoolBody hbody
  apply hrun.lift (fun x : Order × MatchingEngine => (some x.1, x.2))
  rintro ⟨a, u⟩ ⟨b, v⟩ ⟨hu, hbody⟩
  exact matchPegPoolBody_step hu hbody

/-- The peg step is a run of steps. -/
theorem pegStep_steps {o o' : Order} {s s' : MatchingEngine} (hq : s.Queued)
    (h : pegStep o s = .ok (o', s')) : Steps (some o, s) (some o', s') := by
  simp only [pegStep] at h
  split_ifs at h
  · exact matchPegPool_steps hq h
  · obtain ⟨rfl, rfl⟩ := Prod.mk.inj (Except.ok.inj h)
    exact .refl

/-- The walk over the opposite levels is a run of steps. -/
theorem matchLit_steps {o o' : Order} {s s' : MatchingEngine} (hq : s.Queued)
    (h : matchLit o.side o s = .ok (o', s')) : Steps (some o, s) (some o', s') := by
  -- The walk is called with the side of the order, which the iterations do not change.
  have hrun := whileLoop_steps_inv h (fun x => x.2.Queued ∧ x.1.side = o.side) ⟨hq, rfl⟩ ?_
  · apply hrun.lift (fun x : Order × MatchingEngine => (some x.1, x.2))
    rintro ⟨a, u⟩ ⟨b, v⟩ ⟨⟨hu, hside⟩, hbody⟩
    apply matchLitBody_step hu
    rw [hside]
    exact hbody
  · rintro ⟨a, u⟩ ⟨b, v⟩ ⟨hu, hside⟩ hbody
    refine ⟨hu.matchLitBody hbody, ?_⟩
    obtain ⟨-, -, -, -, -, -, -, -, -, -, rfl, -⟩ := matchLitBody_some hbody
    exact hside

/-- The pool cross is a run of steps. -/
theorem crossPegPools_steps {s t : MatchingEngine} (hq : s.Queued) (h : s.crossPegPools = .ok t) :
    Steps (none, s) (none, t) := by
  simp only [crossPegPools] at h
  split_ifs at h
  · obtain rfl := Except.ok.inj h
    exact .refl
  · have hrun := whileLoop_steps_inv h Queued hq fun _ _ hu hbody => hu.crossPegPoolsBody hbody
    exact hrun.lift (fun x => (none, x)) fun u v huv => crossPegPoolsBody_step huv.1 huv.2

/-- Every admission is a run of steps, from the incoming order to its end. -/
theorem addOrder_steps {s t : MatchingEngine} {o : Order} (hq : s.Queued) (hv : o.Valid)
    (hpos : 0 < o.quantity) (h : s.addOrder o = .ok t) : Steps (some o, s) (none, t) := by
  -- The fill-or-kill check that fails is one step, the expiry.
  rcases addOrder_cases h with ⟨hfok, hfail, rfl⟩ | ⟨-, o₁, s₁, hpeg, hrest⟩
  · exact .single (.expire hpos (by simp [hfok]) rfl (.inl rfl)
      ⟨by simp [retire, onExpired], rfl, rfl⟩
      rfl rfl)
  have hfrom := pegStep_filledFrom hpeg
  have hq₁ := hq.pegStep hpeg
  refine (pegStep_steps hq hpeg).trans ?_
  rcases hrest with ⟨-, rfl⟩ | ⟨htype, o₂, s₂, hlit, hcross⟩
  · exact .single (disposePeg_step s₁ o₁)
  · have hfrom₂ := hfrom.trans (matchLit_filledFrom hlit)
    have hq₂ := (hq₁.matchLit hlit).disposeLit (hfrom₂.valid hv) (hfrom₂.ordType.trans htype)
    rw [← hfrom.side] at hlit
    exact (matchLit_steps hq₁ hlit).trans
      (.head (disposeLit_step s₂ o₂) (crossPegPools_steps hq₂ hcross))

/-- What the new engine satisfies and every step and every cancel keep holds of every reachable
state. -/
theorem Reachable.step_induction {P : MatchingEngine → Prop} (hempty : P {})
    (hstep : ∀ x y : Option Order × MatchingEngine, P x.2 → Step x y → P y.2)
    (hcancel : ∀ s orderID, s.Reachable → P s → P (s.cancelOrder orderID).1)
    {s : MatchingEngine} (h : s.Reachable) : P s := by
  refine h.induction hempty (fun s t o hs hPs ho hadd => ?_) hcancel
  exact steps_inv (addOrder_steps hs.queued ho.valid.1 ho.valid.2 hadd) (fun x => P x.2) hPs hstep

end MatchingVenue.MatchingEngine
