import MatchingVenue.Engine.Collisions

/-!
# Cancels

A cancel takes one order out of the engine and leaves every other one where it is, with its quantity
and its slice (`Without`). It finds an order exactly where one of the id rests, provided that no two
orders of a run share an id (`cancel_exact`): then every resting order is registered
(`lawful_of_nodup`), and without that proviso a resting order may have lost its entry to another of
its id.

Where an order came to rest without a fill, its cancel restores the engine (`add_then_cancel`): it
takes back the one object that the admission put at the back of a queue, with the level that the
admission opened for it.
-/

namespace MatchingVenue

/-- Whether a callback reports a fill. -/
def Callback.isFill : Callback → Bool
  | .onFill .. => true
  | _ => false

namespace MatchingEngine

/-! ## Where resting orders come from -/

/-- While an order is admitted, what rests is left of it or of one that the run admitted before. -/
theorem origin_of_steps {calls : List Call}
    (hold : ∀ r ∈ (after calls).resting, ∃ o ∈ added calls, FilledFrom o r.toOrder)
    {order : { o : Order // o.Constructed }} {y : Option Order × MatchingEngine}
    (hsteps : Steps (some order.1, after calls) y) :
    ∀ r ∈ y.2.resting, ∃ o ∈ added (calls ++ [.addOrder order]), FilledFrom o r.toOrder := by
  -- Fills and fresh slices keep the origin, and the incoming order is its own.
  refine (hsteps.keeps (P := fun a => ∃ o ∈ added (calls ++ [.addOrder order]), FilledFrom o a)
    ?_ ?_ ⟨?_, ?_⟩).2
  · rintro a m ⟨o, ho, hfrom⟩
    exact ⟨o, ho, hfrom.filled m⟩
  · rintro a ⟨o, ho, hfrom⟩
    exact ⟨o, ho, hfrom.refreshDisplay⟩
  · intro a ha
    obtain rfl := Option.some.inj ha
    exact ⟨_, by simp [added_append, Call.added], .refl _⟩
  · intro r hrest
    obtain ⟨o, ho, hfrom⟩ := hold r hrest
    exact ⟨o, by rw [added_append]; exact List.mem_append_left _ ho, hfrom⟩

/-- A resting order of a run is what is left of an order that the run admitted. -/
theorem origin (calls : List Call) :
    ∀ r ∈ (after calls).resting, ∃ o ∈ added calls, FilledFrom o r.toOrder := by
  induction calls using List.reverseRecOn with
  | nil => exact fun r hr => absurd hr List.not_mem_nil
  | append_singleton calls c ih =>
    have hr := reachable_after calls
    cases c with
    | addOrder order =>
      exact origin_of_steps ih
        (addOrder_steps hr.queued order.2.valid.1 order.2.valid.2 (addOrder_after calls order))
    | cancelOrder orderID =>
      intro r hrest
      rw [added_cancelOrder]
      apply ih r
      rw [← cancelOrder_after] at hrest
      rcases cancelOrder_spec hr.queued hr.identified orderID with
        ⟨-, hcancel⟩ | ⟨x, t, -, -, hperm, hcancel, -, -, -⟩
      · rwa [hcancel] at hrest
      · rw [hcancel] at hrest
        exact hperm.mem_iff.mpr (List.mem_cons_of_mem x hrest)

/-- Where no two orders of a run share an id, every resting order is registered. -/
theorem lawful_of_nodup (calls : List Call) (hids : ((added calls).map fun o => o.orderID).Nodup) :
    Lawful (after calls).resting (after calls).openOrders := by
  induction calls using List.reverseRecOn with
  | nil => exact fun r hr => absurd hr List.not_mem_nil
  | append_singleton calls c ih =>
    rw [added_append, List.map_append, List.nodup_append] at hids
    obtain ⟨hpre, -, hnew⟩ := hids
    have hr := reachable_after calls
    cases c with
    | addOrder order =>
      apply (addOrder_lawful_iff hr order.2 (ih hpre) (addOrder_after calls order)).mpr
      rintro ⟨-, -, r, hrest, hid, -⟩
      -- An order that rests under the new id would be left of an earlier order of the run.
      obtain ⟨o, ho, hfrom⟩ := origin calls r hrest
      exact hnew _ (List.mem_map_of_mem ho) _ List.mem_cons_self (hfrom.orderID.symm.trans hid)
    | cancelOrder orderID =>
      rw [← cancelOrder_after]
      exact cancelOrder_lawful hr orderID (ih hpre)

/-! ## What a cancel takes out -/

/-- Two engines hold the same: the books with their levels, queues and slices, the pools, and the
registry. -/
structure SameBooks (s t : MatchingEngine) : Prop where
  bids : t.bids = s.bids
  asks : t.asks = s.asks
  pegBids : t.pegBids = s.pegBids
  pegAsks : t.pegAsks = s.pegAsks
  openOrders : t.openOrders = s.openOrders

/-- Engines with the same sides and the same registry hold the same. -/
theorem SameBooks.of_sides {s t : MatchingEngine} (hbook : ∀ x, t.book x = s.book x)
    (hpool : ∀ x, t.pool x = s.pool x) (hopen : t.openOrders = s.openOrders) : SameBooks s t :=
  ⟨hbook .buy, hbook .sell, hpool .buy, hpool .sell, hopen⟩

/-- An engine holds what it holds. -/
theorem SameBooks.refl (s : MatchingEngine) : SameBooks s s := ⟨rfl, rfl, rfl, rfl, rfl⟩

/-- Holding the same is symmetric. -/
theorem SameBooks.symm {s t : MatchingEngine} (h : SameBooks s t) : SameBooks t s :=
  ⟨h.bids.symm, h.asks.symm, h.pegBids.symm, h.pegAsks.symm, h.openOrders.symm⟩

/-- Holding the same is transitive. -/
theorem SameBooks.trans {s t u : MatchingEngine} (h : SameBooks s t) (h' : SameBooks t u) :
    SameBooks s u :=
  ⟨h'.bids.trans h.bids, h'.asks.trans h.asks, h'.pegBids.trans h.pegBids,
    h'.pegAsks.trans h.pegAsks, h'.openOrders.trans h.openOrders⟩

/-- The engine `t` is the engine `s` without one resting order. A limit order leaves its level, and
its price leaves the book exactly where it was alone there; a peg leaves its pool. Every other order
is where it was, in the same state, and only the id of the order leaves the registry. -/
structure Without (s t : MatchingEngine) (r : RestingOrder) : Prop where
  /-- A limit order leaves its level, and its price the book where it was alone there. -/
  level : r.ordType = .limit →
    (∃ pre ahead behind post,
      (s.book r.side).entries = pre ++ (r.price, ahead ++ r :: behind) :: post ∧
      (t.book r.side).entries = pre ++ levelOf r.price (ahead ++ behind) ++ post ∧
      (r.price ∉ (t.book r.side).keys ↔ ahead ++ behind = [])) ∧
    t.pool r.side = s.pool r.side
  /-- A peg leaves its pool. -/
  pool : r.ordType = .pegMid →
    (∃ ahead behind, s.pool r.side = ahead ++ r :: behind ∧ t.pool r.side = ahead ++ behind) ∧
    t.book r.side = s.book r.side
  /-- The other side of the book stays. -/
  otherBook : t.book r.side.opposite = s.book r.side.opposite
  /-- The other pool stays. -/
  otherPool : t.pool r.side.opposite = s.pool r.side.opposite
  /-- The order was the one that its id is registered for. -/
  registered : s.openOrders r.orderID = some r.ref
  /-- Its id, and no other, leaves the registry. -/
  unregistered : t.openOrders = Function.update s.openOrders r.orderID none

/-- A price is a level of the book after its level lost an order exactly where other orders are at
it. -/
theorem price_notMem_iff {side : Side} {book book' : Book side} {price : ℤ}
    {queue queue' : List RestingOrder} {pre post : List (ℤ × List RestingOrder)}
    (h : book.entries = pre ++ (price, queue) :: post)
    (h' : book'.entries = pre ++ levelOf price queue' ++ post) :
    price ∉ book'.keys ↔ queue' = [] := by
  -- The prices of the other levels are different ones, since the book has each price once.
  have hother : ∀ a, (price, a) ∉ pre ++ post := by
    have hsorted := book.sorted
    rw [h, List.pairwise_append, List.pairwise_cons] at hsorted
    obtain ⟨-, ⟨hpost, -⟩, hpre⟩ := hsorted
    intro a ha
    rcases List.mem_append.mp ha with ha | ha
    · exact irrefl price (hpre _ ha _ List.mem_cons_self)
    · exact irrefl price (hpost _ ha)
  rw [SortedMap.mem_keys, h']
  unfold levelOf
  split_ifs with hnil
  · rw [List.append_nil]
    exact ⟨fun _ => hnil, fun _ ⟨a, ha⟩ => hother a ha⟩
  · exact ⟨fun hno => absurd ⟨queue', by simp⟩ hno, fun hempty => absurd hempty hnil⟩

/-- Taking a resting order out of its queue takes out that order alone. -/
theorem withdraw_without {s : MatchingEngine} (hq : s.Queued)
    (hi : Identified s.resting s.openOrders s.nextRef) {r : RestingOrder} (hr : r ∈ s.resting)
    (hreg : s.openOrders r.orderID = some r.ref) :
    Without s (((s.unregister r.orderID).retire r.toOrder.cancel).withdraw r) r := by
  -- The registry and the log of the orders that left are not part of what rests.
  have hu : ((s.unregister r.orderID).retire r.toOrder.cancel).resting = s.resting :=
    resting_congr (by simp) (by simp)
  have hq' : ((s.unregister r.orderID).retire r.toOrder.cancel).Queued :=
    hq.congr (by simp) (by simp)
  have hopen : (((s.unregister r.orderID).retire r.toOrder.cancel).withdraw r).openOrders =
      Function.update s.openOrders r.orderID none := by
    rw [openOrders_withdraw]
    rfl
  cases htype : r.ordType with
  | limit =>
    obtain ⟨⟨pre, ahead, behind, post, hold, hnew⟩, hcontra, hpool⟩ :=
      withdraw_level hq' (by rw [hu]; exact hi) (hu ▸ hr) htype
    simp only [book_retire, book_unregister, pool_retire, pool_unregister] at hold hcontra hpool
    refine ⟨fun _ => ⟨⟨pre, ahead, behind, post, hold, hnew, price_notMem_iff hold hnew⟩, hpool _⟩,
      ?_, hcontra, hpool _, hreg, hopen⟩
    simp [htype]
  | pegMid =>
    obtain ⟨⟨ahead, behind, hold, hnew⟩, hcontra, hbook⟩ :=
      withdraw_pool hq' (by rw [hu]; exact hi) (hu ▸ hr) htype
    simp only [book_retire, book_unregister, pool_retire, pool_unregister] at hold hcontra hbook
    refine ⟨?_, fun _ => ⟨⟨ahead, behind, hold, hnew⟩, hbook _⟩, hbook _, hcontra, hreg, hopen⟩
    simp [htype]

/-- A cancel is exact, in a run whose orders have distinct ids. It returns true exactly where an
order of the id rests; then it takes out that one order with all that is left of it, and no other.
Where it returns false nothing changes, and in either case nothing is traded or reported. -/
theorem cancel_exact (calls : List Call) (hids : ((added calls).map fun o => o.orderID).Nodup)
    (orderID : ℤ) :
    (((after calls).cancelOrder orderID).2 = true ↔ ∃ r ∈ (after calls).resting,
      r.orderID = orderID) ∧
    (((after calls).cancelOrder orderID).2 = true → ∃ r ∈ (after calls).resting,
      r.orderID = orderID ∧
      (∀ x ∈ (after calls).resting, x.orderID = orderID → x = r) ∧
      Without (after calls) ((after calls).cancelOrder orderID).1 r) ∧
    (((after calls).cancelOrder orderID).2 = false →
      SameBooks (after calls) ((after calls).cancelOrder orderID).1) ∧
    ((after calls).cancelOrder orderID).1.trades = (after calls).trades ∧
    ((after calls).cancelOrder orderID).1.executionListener = (after calls).executionListener := by
  have hr := reachable_after calls
  have hi := hr.identified
  have hl := lawful_of_nodup calls hids
  rcases cancelOrder_spec hr.queued hi orderID with
    ⟨hnone, hcancel⟩ | ⟨r, t, hsome, hid, hperm, hcancel, hlogs, -, -⟩
  · -- No order of the id rests, for it would be registered.
    have hno : ¬ ∃ r ∈ (after calls).resting, r.orderID = orderID := by
      rintro ⟨r, hrest, rfl⟩
      rw [hl r hrest] at hnone
      simp at hnone
    rw [hcancel]
    exact ⟨⟨fun h => absurd h Bool.false_ne_true, fun h => absurd h hno⟩,
      fun h => absurd h Bool.false_ne_true,
      fun _ => ⟨rfl, rfl, rfl, rfl, rfl⟩, rfl, rfl⟩
  · have hrest : r ∈ (after calls).resting := hperm.mem_iff.mpr List.mem_cons_self
    subst hid
    have hwithout := withdraw_without hr.queued hi hrest hsome
    rw [cancelOrder_eq hr.queued hi hrest hsome] at hcancel ⊢
    obtain ⟨rfl, -⟩ := Prod.mk.inj hcancel
    refine ⟨⟨fun _ => ⟨r, hrest, rfl⟩, fun _ => rfl⟩, fun _ => ⟨r, hrest, rfl, ?_, hwithout⟩,
      fun h => absurd h.symm Bool.false_ne_true, ?_, ?_⟩
    · exact fun x hx hxid => hl.eq_of_orderID hi hx hrest hxid
    · rw [hlogs.trades, List.append_nil]
    · rw [hlogs.executionListener, List.append_nil]

/-- The cancel of the iceberg bid of `quotedCalls`. -/
theorem cancel_exact_quoted : ((after quotedCalls).cancelOrder 1).2 = true ∧
    ∃ r ∈ (after quotedCalls).resting, r.orderID = 1 ∧
      Without (after quotedCalls) ((after quotedCalls).cancelOrder 1).1 r := by
  obtain ⟨hiff, hwithout, -⟩ := cancel_exact quotedCalls (by decide) 1
  have htrue := hiff.mpr (by decide)
  obtain ⟨r, hr, hid, -, h⟩ := hwithout htrue
  exact ⟨htrue, r, hr, hid, h⟩

/-! ## The cancel of an order that met nothing -/

/-- The callbacks that the engine has made since an earlier state. -/
def callbacksSince (t s : MatchingEngine) : List Callback :=
  t.executionListener.drop s.executionListener.length

/-- Each trade of a step is reported by one fill. -/
theorem Step.logs {x y : Option Order × MatchingEngine} (h : Step x y) :
    ∃ trades callbacks left, Logs x.2 y.2 trades callbacks left ∧
      callbacks.countP Callback.isFill = trades.length := by
  cases h with
  | hit _ _ _ _ _ _ _ _ _ _ _ hlogs => exact ⟨_, _, _, hlogs, rfl⟩
  | cross _ _ _ _ _ _ _ _ _ _ hlogs => exact ⟨_, _, _, hlogs, rfl⟩
  | rest _ _ _ _ _ _ hlogs => exact ⟨_, _, _, hlogs, rfl⟩
  | expire _ _ _ _ hlogs => exact ⟨_, _, _, hlogs, rfl⟩
  | finish _ _ hlogs => exact ⟨_, _, _, hlogs, rfl⟩

/-- Steps add trades and callbacks at the end of what is logged, one fill callback for each
trade. -/
theorem Steps.logs {x y : Option Order × MatchingEngine} (h : Steps x y) :
    ∃ trades callbacks left, Logs x.2 y.2 trades callbacks left ∧
      callbacks.countP Callback.isFill = trades.length := by
  refine steps_inv h (fun y => ∃ trades callbacks left, Logs x.2 y.2 trades callbacks left ∧
    callbacks.countP Callback.isFill = trades.length)
    ⟨[], [], [], ⟨(List.append_nil _).symm, (List.append_nil _).symm, (List.append_nil _).symm⟩,
      rfl⟩ ?_
  rintro u v ⟨trades, callbacks, left, hlogs, hcount⟩ hstep
  obtain ⟨trades', callbacks', left', hlogs', hcount'⟩ := hstep.logs
  refine ⟨trades ++ trades', callbacks ++ callbacks', left ++ left', ⟨?_, ?_, ?_⟩, ?_⟩
  · rw [hlogs'.trades, hlogs.trades, List.append_assoc]
  · rw [hlogs'.executionListener, hlogs.executionListener, List.append_assoc]
  · rw [hlogs'.retired, hlogs.retired, List.append_assoc]
  · rw [List.countP_append, List.length_append, hcount, hcount']

/-- No step takes a trade back. -/
theorem Steps.trades_le {x y : Option Order × MatchingEngine} (h : Steps x y) :
    x.2.trades.length ≤ y.2.trades.length := by
  obtain ⟨trades, callbacks, left, hlogs, -⟩ := h.logs
  rw [hlogs.trades, List.length_append]
  omega

/-- A match without a trade is no match. -/
theorem Steps.match_quiet {o o' : Order} {s s' : MatchingEngine}
    (h : Steps (some o, s) (some o', s')) (hquiet : s'.trades.length ≤ s.trades.length) :
    o' = o ∧ s' = s := by
  refine (h.match_induction (P := fun a u => s.trades.length ≤ u.trades.length ∧
    (u.trades.length ≤ s.trades.length → a = o ∧ u = s)) ⟨le_rfl, fun _ => ⟨rfl, rfl⟩⟩ ?_).2 hquiet
  rintro a u b v ⟨hle, -⟩ hstep
  cases hstep with
  | hit _ _ _ _ _ _ _ _ _ _ _ hlogs =>
    -- Each step of a match trades, so that one step is more than none.
    have hlength := congrArg List.length hlogs.trades
    rw [List.length_append, List.length_singleton] at hlength
    exact ⟨by omega, fun hle' => by omega⟩

/-- A pool cross without a trade changes nothing. -/
theorem Steps.cross_quiet {s t : MatchingEngine} (h : Steps (none, s) (none, t))
    (hquiet : t.trades.length ≤ s.trades.length) : t = s := by
  refine (h.cross_induction (P := fun u => s.trades.length ≤ u.trades.length ∧
    (u.trades.length ≤ s.trades.length → u = s)) ⟨le_rfl, fun _ => rfl⟩ ?_).2 hquiet
  rintro u v ⟨hle, -⟩ hstep
  cases hstep with
  | cross _ _ _ _ _ _ _ _ _ _ hlogs =>
    have hlength := congrArg List.length hlogs.trades
    rw [List.length_append, List.length_singleton] at hlength
    exact ⟨by omega, fun hle' => by omega⟩

/-- A good-til-cancelled order that is admitted without a fill comes to rest, and nothing else
happens. -/
theorem addOrder_quiet {s t : MatchingEngine} (hq : s.Queued) {o : Order} (ho : o.Constructed)
    (htif : o.tif = .gtc) (hadd : s.addOrder o = .ok t)
    (hquiet : ∀ c ∈ callbacksSince t s, c.isFill = false) :
    t = match o.ordType with
      | .pegMid => s.restPeg o
      | .limit => (s.addToBook o).onAccepted o := by
  obtain ⟨hv, hpos⟩ := ho.valid
  -- The callbacks report no fill, so that the admission traded nothing.
  obtain ⟨trades, callbacks, left, hlogs, hcount⟩ := (addOrder_steps hq hv hpos hadd).logs
  have hzero : callbacks.countP Callback.isFill = 0 := by
    apply List.countP_eq_zero.mpr
    intro c hc
    rw [hquiet c (by rw [callbacksSince, hlogs.executionListener, List.drop_left]; exact hc)]
    exact Bool.false_ne_true
  have hle : t.trades.length ≤ s.trades.length := by
    rw [hlogs.trades, List.length_append]
    simp only
    omega
  rcases addOrder_cases hadd with ⟨hfok, -, -⟩ | ⟨-, o₁, s₁, hpeg, hrest⟩
  · rw [htif] at hfok
    exact absurd hfok (by decide)
  have hpegSteps := pegStep_steps hq hpeg
  have hfrom := pegStep_filledFrom hpeg
  have hq₁ := hq.pegStep hpeg
  rcases hrest with ⟨htype, rfl⟩ | ⟨htype, o₂, s₂, hlit, hcross⟩
  · have hend : s₁.trades.length ≤ (s₁.disposePeg o₁).trades.length :=
      Steps.trades_le (.single (disposePeg_step s₁ o₁))
    obtain ⟨rfl, rfl⟩ := hpegSteps.match_quiet (by omega)
    rw [htype, disposePeg, if_pos ⟨hpos, htif⟩]
  · have hfrom₂ := hfrom.trans (matchLit_filledFrom hlit)
    have hq₂ := (hq₁.matchLit hlit).disposeLit (hfrom₂.valid hv) (hfrom₂.ordType.trans htype)
    have hlitSteps : Steps (some o₁, s₁) (some o₂, s₂) :=
      matchLit_steps hq₁ (by rw [hfrom.side]; exact hlit)
    have hcrossSteps := crossPegPools_steps hq₂ hcross
    -- The trades only grow from phase to phase, so that no phase traded.
    have hle₁ := hpegSteps.trades_le
    have hle₂ := hlitSteps.trades_le
    have hle₃ : s₂.trades.length ≤ (s₂.disposeLit o₂).trades.length :=
      Steps.trades_le (.single (disposeLit_step s₂ o₂))
    have hle₄ := hcrossSteps.trades_le
    simp only at hle₁ hle₂ hle₄
    obtain ⟨rfl, rfl⟩ := hpegSteps.match_quiet (by omega)
    obtain ⟨rfl, rfl⟩ := hlitSteps.match_quiet (by omega)
    obtain rfl := hcrossSteps.cross_quiet (by omega)
    rw [htype, disposeLit, if_pos ⟨hpos, htif⟩]

/-- The search for a new object passes by every older one. -/
theorem eraseP_fresh {s : MatchingEngine} (hi : Identified s.resting s.openOrders s.nextRef)
    {queue : List RestingOrder} (hsub : queue ⊆ s.resting) {r : RestingOrder}
    (href : r.ref = s.nextRef) :
    (queue ++ [r]).eraseP (fun o => o.ref = r.ref) = queue := by
  have hold : ∀ x ∈ queue, ¬ decide (x.ref = r.ref) = true := by
    intro x hx heq
    have hlt := hi.fresh x (hsub hx)
    rw [of_decide_eq_true heq, href] at hlt
    exact Nat.lt_irrefl _ hlt
  rw [List.eraseP_append_right _ hold, List.eraseP_cons_of_pos (by simp), List.append_nil]

/-- Taking a peg that just came to rest out of its pool puts the pool back to what it was. -/
theorem withdraw_restPeg {s u : MatchingEngine}
    (hi : Identified s.resting s.openOrders s.nextRef) {o : Order}
    (htype : o.ordType = .pegMid) (hbook : ∀ x, u.book x = (s.restPeg o).book x)
    (hpool : ∀ x, u.pool x = (s.restPeg o).pool x) :
    (∀ x, (u.withdraw (s.nextObject o)).book x = s.book x) ∧
      ∀ x, (u.withdraw (s.nextObject o)).pool x = s.pool x := by
  have htype' : (s.nextObject o).ordType = .pegMid := htype
  have hside : (s.nextObject o).side = o.side := rfl
  simp only [withdraw, htype', hside]
  constructor
  · intro x
    rw [book_setPool, hbook, book_restPeg]
  · rw [forall_side o.side]
    constructor
    · rw [pool_setPool, hpool, pool_restPeg]
      exact eraseP_fresh hi (fun x hx => mem_resting.mpr ⟨o.side, .inr hx⟩) rfl
    · rw [pool_setPool_of_ne _ _ _ (Side.opposite_ne _), hpool,
        pool_restPeg_of_ne _ _ (Side.opposite_ne _)]

/-- Taking a lit order that just came to rest out of its level puts the book back to what it was,
without the level where the order had opened it. -/
theorem withdraw_addToBook {s u : MatchingEngine} (hq : s.Queued)
    (hi : Identified s.resting s.openOrders s.nextRef) {o : Order} (htype : o.ordType = .limit)
    (hbook : ∀ x, u.book x = (s.addToBook o).book x)
    (hpool : ∀ x, u.pool x = (s.addToBook o).pool x) :
    (∀ x, (u.withdraw (s.nextObject o.refreshDisplay)).book x = s.book x) ∧
      ∀ x, (u.withdraw (s.nextObject o.refreshDisplay)).pool x = s.pool x := by
  have hget : (u.book o.side).get? o.price =
      some (((s.book o.side).get? o.price).getD [] ++ [s.nextObject o.refreshDisplay]) := by
    rw [hbook, book_addToBook, SortedMap.get?_upsert]
  have hcontra : u.book o.side.opposite = s.book o.side.opposite := by
    rw [hbook, book_addToBook_of_ne _ _ (Side.opposite_ne _)]
  have hpool' : ∀ x, u.pool x = s.pool x := fun x => by rw [hpool, pool_addToBook]
  have hwithdraw := withdraw_of_get? (s := u) (r := s.nextObject o.refreshDisplay) htype hget
  -- What is at the level without the order: nothing where it was a new one, and the old queue
  -- otherwise.
  cases hold : (s.book o.side).get? o.price with
  | none =>
    have herase := eraseP_fresh hi (List.nil_subset _) (r := s.nextObject o.refreshDisplay) rfl
    rw [hold, Option.getD_none, herase, if_pos rfl] at hwithdraw
    rw [hwithdraw]
    refine ⟨(forall_side o.side).mpr ⟨?_, ?_⟩, fun x => by rw [pool_setBook, hpool']⟩
    · show (u.setBook o.side ((u.book o.side).erase o.price)).book o.side = s.book o.side
      rw [book_setBook, hbook, book_addToBook, SortedMap.erase_upsert hold]
    · exact (book_setBook_of_ne _ _ _ (Side.opposite_ne _)).trans hcontra
  | some queue =>
    have hlevel := (SortedMap.get?_eq_some_iff _ _ _).mp hold
    have herase := eraseP_fresh hi (r := s.nextObject o.refreshDisplay)
      (fun x hx => mem_resting.mpr ⟨o.side, .inl (mem_orders.mpr ⟨_, hlevel, hx⟩)⟩) rfl
    rw [hold, Option.getD_some, herase, if_neg (hq.level _ _ hlevel).1] at hwithdraw
    rw [hwithdraw]
    refine ⟨(forall_side o.side).mpr ⟨?_, ?_⟩, fun x => by rw [pool_setBook, hpool']⟩
    · show (u.setBook o.side ((u.book o.side).replace o.price queue)).book o.side = s.book o.side
      rw [book_setBook, hbook, book_addToBook, SortedMap.replace_upsert hold]
    · exact (book_setBook_of_ne _ _ _ (Side.opposite_ne _)).trans hcontra

/-- The cancel of an order that just came to rest under a free id, where taking it out of its queue
puts the queues back. -/
theorem cancelOrder_rested {s t : MatchingEngine} (hq : t.Queued)
    (hi : Identified t.resting t.openOrders t.nextRef) {r : RestingOrder} (hr : r ∈ t.resting)
    (hfree : s.openOrders r.orderID = none)
    (hopen : t.openOrders = Function.update s.openOrders r.orderID (some r.ref))
    (hundo : ∀ u : MatchingEngine, (∀ x, u.book x = t.book x) → (∀ x, u.pool x = t.pool x) →
      (∀ x, (u.withdraw r).book x = s.book x) ∧ ∀ x, (u.withdraw r).pool x = s.pool x) :
    (t.cancelOrder r.orderID).2 = true ∧ SameBooks s (t.cancelOrder r.orderID).1 ∧
      (t.cancelOrder r.orderID).1.trades = t.trades := by
  rw [cancelOrder_eq hq hi hr (by rw [hopen, Function.update_self])]
  obtain ⟨hbook, hpool⟩ := hundo ((t.unregister r.orderID).retire r.toOrder.cancel)
    (by simp) (by simp)
  refine ⟨rfl, .of_sides hbook hpool ?_, trades_withdraw _ _⟩
  rw [openOrders_withdraw]
  show Function.update t.openOrders r.orderID none = s.openOrders
  rw [hopen, Function.update_idem, ← hfree, Function.update_eq_self]

/-- A peg comes to rest and is cancelled. -/
theorem restPeg_cancel {s : MatchingEngine} (hq : s.Queued)
    (hi : Identified s.resting s.openOrders s.nextRef) {o : Order} (hv : o.Valid)
    (hpos : 0 < o.quantity) (htif : o.tif = .gtc) (htype : o.ordType = .pegMid)
    (hfree : s.openOrders o.orderID = none) :
    ((s.restPeg o).cancelOrder o.orderID).2 = true ∧
      SameBooks s ((s.restPeg o).cancelOrder o.orderID).1 ∧
      ((s.restPeg o).cancelOrder o.orderID).1.trades = s.trades := by
  have hmem : s.nextObject o ∈ (s.restPeg o).resting :=
    (s.resting_restPeg o).mem_iff.mpr List.mem_cons_self
  have hrests : s.disposePeg o = s.restPeg o := if_pos ⟨hpos, htif⟩
  have hi' := (disposePeg_step s o).identified hi
  rw [hrests] at hi'
  have hcancel := cancelOrder_rested (s := s) (hq.restPeg hv hpos htif htype) hi' hmem hfree
    (openOrders_restPeg s o)
    fun u hbook hpool => withdraw_restPeg hi htype hbook hpool
  rw [trades_restPeg] at hcancel
  exact hcancel

/-- A limit order comes to rest and is cancelled. -/
theorem addToBook_cancel {s : MatchingEngine} (hq : s.Queued)
    (hi : Identified s.resting s.openOrders s.nextRef) {o : Order} (hv : o.Valid)
    (hpos : 0 < o.quantity) (htif : o.tif = .gtc) (htype : o.ordType = .limit)
    (hfree : s.openOrders o.orderID = none) :
    (((s.addToBook o).onAccepted o).cancelOrder o.orderID).2 = true ∧
      SameBooks s (((s.addToBook o).onAccepted o).cancelOrder o.orderID).1 ∧
      (((s.addToBook o).onAccepted o).cancelOrder o.orderID).1.trades = s.trades := by
  have hmem : s.nextObject o.refreshDisplay ∈ ((s.addToBook o).onAccepted o).resting := by
    rw [resting_congr (s := s.addToBook o) (by simp) (by simp)]
    exact (s.resting_addToBook o).mem_iff.mpr List.mem_cons_self
  have hrests : s.disposeLit o = (s.addToBook o).onAccepted o := if_pos ⟨hpos, htif⟩
  have hi' := (disposeLit_step s o).identified hi
  have hq' := hq.disposeLit hv htype
  rw [hrests] at hi' hq'
  have hcancel := cancelOrder_rested (s := s) hq' hi' hmem hfree (openOrders_addToBook s o)
    fun u hbook hpool => withdraw_addToBook hq hi htype (by simpa using hbook)
      (by simpa using hpool)
  rw [show ((s.addToBook o).onAccepted o).trades = s.trades from trades_addToBook s o] at hcancel
  exact hcancel

/-- Adding a passive order and cancelling it is no operation: where a good-til-cancelled order of an
id that is not registered is admitted without a fill, the cancel of its id returns true and puts the
books with their levels, queues and slices, the pools, the registry and the trades back to what they
were. -/
theorem add_then_cancel {s t : MatchingEngine} (h : s.Reachable) {o : Order} (ho : o.Constructed)
    (htif : o.tif = .gtc) (hfree : s.openOrders o.orderID = none) (hadd : s.addOrder o = .ok t)
    (hquiet : ∀ c ∈ callbacksSince t s, c.isFill = false) :
    (t.cancelOrder o.orderID).2 = true ∧ SameBooks s (t.cancelOrder o.orderID).1 ∧
      (t.cancelOrder o.orderID).1.trades = s.trades := by
  obtain ⟨hv, hpos⟩ := ho.valid
  have hrests := addOrder_quiet h.queued ho htif hadd hquiet
  cases htype : o.ordType with
  | pegMid =>
    simp only [htype] at hrests
    rw [hrests]
    exact restPeg_cancel h.queued h.identified hv hpos htif htype hfree
  | limit =>
    simp only [htype] at hrests
    rw [hrests]
    exact addToBook_cancel h.queued h.identified hv hpos htif htype hfree

/-- An iceberg bid behind the best one, which opens a level of its own. -/
theorem add_then_cancel_quoted : ∃ t,
    (after quotedCalls).addOrder (.built 9 9 .buy 50 9900 1 .gtc 10 .limit) = .ok t ∧
      (t.cancelOrder 9).2 = true ∧ SameBooks (after quotedCalls) (t.cancelOrder 9).1 := by
  have hadd := addOrder_after quotedCalls ⟨.built 9 9 .buy 50 9900 1 .gtc 10 .limit,
    9, 9, some .buy, 50, 9900, 1, some .gtc, 10, some .limit, rfl⟩
  obtain ⟨hcancel, hsame, -⟩ := add_then_cancel (reachable_after quotedCalls)
    ⟨9, 9, some .buy, 50, 9900, 1, some .gtc, 10, some .limit, rfl⟩ rfl (by decide) hadd (by decide)
  exact ⟨_, hadd, hcancel, hsame⟩

end MatchingEngine

end MatchingVenue
