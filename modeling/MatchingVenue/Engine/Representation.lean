import MatchingVenue.Engine.Steps

/-!
# The representation of the book

`Queued` says what the queues hold: no level is empty, the orders at a level are good-til-cancelled
limit orders of its side and price, the orders in a pool are good-til-cancelled pegs of its side,
and each has something left and shows some of it. An iceberg breaks the last part while it is the
aggressor, or while its slice is being used up, and every path by which an order comes to rest or
stays at the front of its queue restores it.

With it no step can throw: the head of a level exists, and the matched quantity is positive and at
most what either order has left. So each loop ends within its bound, and an admission always returns
(`addOrder_total`).
-/

namespace MatchingVenue

namespace RestingOrder

/-- What every resting order satisfies. -/
structure Rests (r : RestingOrder) : Prop where
  valid : r.toOrder.Valid
  tif : r.tif = .gtc
  quantity_pos : 0 < r.quantity
  visible_pos : 0 < r.visibleQty

/-- What an order at a price level satisfies. -/
structure RestsAt (side : Side) (price : ℤ) (r : RestingOrder) : Prop extends Rests r where
  side_eq : r.side = side
  ordType_eq : r.ordType = .limit
  price_eq : r.price = price

/-- What an order in a peg pool satisfies. -/
structure RestsIn (side : Side) (r : RestingOrder) : Prop extends Rests r where
  side_eq : r.side = side
  ordType_eq : r.ordType = .pegMid

/-- A partial hit on the displayed slice leaves the rest of it. -/
theorem RestsAt.filled {side : Side} {price : ℤ} {r : RestingOrder} (h : RestsAt side price r)
    {m : ℕ} (hm : m < r.visibleQty) : RestsAt side price (r.filled m) where
  valid := h.valid.filled m
  tif := h.tif
  quantity_pos := by
    have := h.valid.visible_le
    simp only [toOrder_filled, Order.filled_quantity]
    omega
  visible_pos := by
    simp only [toOrder_filled, Order.filled_visibleQty]
    omega
  side_eq := h.side_eq
  ordType_eq := h.ordType_eq
  price_eq := h.price_eq

/-- A hit that leaves something of the order leaves a fresh slice to show. -/
theorem RestsAt.reloaded {side : Side} {price : ℤ} {r : RestingOrder} (h : RestsAt side price r)
    {m : ℕ} (hm : m < r.quantity) : RestsAt side price (r.filled m).refreshDisplay where
  valid := (h.valid.filled m).refreshDisplay
  tif := h.tif
  quantity_pos := by
    simp only [toOrder_refreshDisplay, toOrder_filled, Order.refreshDisplay_quantity,
      Order.filled_quantity]
    omega
  visible_pos := Order.refreshDisplay_visible_pos (by
    simp only [toOrder_filled, Order.filled_quantity]
    omega)
  side_eq := h.side_eq
  ordType_eq := h.ordType_eq
  price_eq := h.price_eq

/-- A partial fill leaves a resting peg resting. -/
theorem RestsIn.filled {side : Side} {r : RestingOrder} (h : RestsIn side r) {m : ℕ}
    (hm : m < r.quantity) : RestsIn side (r.filled m) where
  valid := h.valid.filled m
  tif := h.tif
  quantity_pos := by
    simp only [toOrder_filled, Order.filled_quantity]
    omega
  visible_pos := by
    -- A peg shows all of itself, so what is left of it is shown.
    have := h.valid.plain_visible (h.valid.peg_price h.ordType_eq).2
    simp only [toOrder_filled, Order.filled_visibleQty]
    omega
  side_eq := h.side_eq
  ordType_eq := h.ordType_eq

end RestingOrder

namespace MatchingEngine

open RestingOrder

/-- What the queues of the engine hold. -/
structure Queued (s : MatchingEngine) : Prop where
  /-- A level is not empty, and its orders belong there. -/
  level : ∀ side, ∀ level ∈ (s.book side).entries,
    level.2 ≠ [] ∧ ∀ r ∈ level.2, RestsAt side level.1 r
  /-- The orders of a pool belong there. -/
  pool : ∀ side, ∀ r ∈ s.pool side, RestsIn side r

/-- Engines with the same queues hold the same. -/
theorem Queued.congr {s t : MatchingEngine} (h : s.Queued) (hb : ∀ x, t.book x = s.book x)
    (hp : ∀ x, t.pool x = s.pool x) : t.Queued :=
  ⟨fun x => hb x ▸ h.level x, fun x => hp x ▸ h.pool x⟩

/-- The empty engine is well formed. -/
theorem queued_empty : ({} : MatchingEngine).Queued :=
  ⟨fun side => by cases side <;> simp [book], fun side => by cases side <;> simp [pool]⟩

/-- Every resting order satisfies what a resting order satisfies. -/
theorem Queued.rests {s : MatchingEngine} (h : s.Queued) {r : RestingOrder} (hr : r ∈ s.resting) :
    r.Rests := by
  obtain ⟨side, hr | hr⟩ := mem_resting.mp hr
  · obtain ⟨level, hlevel, hr⟩ := mem_orders.mp hr
    exact ((h.level side level hlevel).2 r hr).toRests
  · exact (h.pool side r hr).toRests

/-- A resting peg is in the pool of its side. -/
theorem Queued.mem_pool {s : MatchingEngine} (h : s.Queued) {r : RestingOrder} (hr : r ∈ s.resting)
    (htype : r.ordType = .pegMid) : r ∈ s.pool r.side := by
  obtain ⟨side, hr | hr⟩ := mem_resting.mp hr
  · obtain ⟨level, hlevel, hr⟩ := mem_orders.mp hr
    have hlimit := ((h.level side level hlevel).2 r hr).ordType_eq
    simp [htype] at hlimit
  · rw [(h.pool side r hr).side_eq]
    exact hr

/-- A resting limit order is at the level of its side and price. -/
theorem Queued.mem_level {s : MatchingEngine} (h : s.Queued) {r : RestingOrder} (hr : r ∈ s.resting)
    (htype : r.ordType = .limit) :
    ∃ queue, (r.price, queue) ∈ (s.book r.side).entries ∧ r ∈ queue := by
  obtain ⟨side, hr | hr⟩ := mem_resting.mp hr
  · obtain ⟨⟨p, queue⟩, hlevel, hr⟩ := mem_orders.mp hr
    have hat := (h.level side _ hlevel).2 r hr
    rw [hat.side_eq, hat.price_eq]
    exact ⟨queue, hlevel, hr⟩
  · have hpeg := (h.pool side r hr).ordType_eq
    simp [htype] at hpeg

/-! ## Each step keeps it -/

/-- The queue of a level after a hit on the slice of its head. -/
theorem litQueue_restsAt {side : Side} {price : ℤ} {r : RestingOrder} {behind : List RestingOrder}
    {m : ℕ} (h : ∀ x ∈ r :: behind, RestsAt side price x) (hm : m ≤ r.visibleQty) :
    ∀ x ∈ litQueue (r.filled m) behind, RestsAt side price x := by
  obtain ⟨hr, hbehind⟩ := List.forall_mem_cons.mp h
  intro x hx
  unfold litQueue at hx
  split_ifs at hx with hq hv
  · -- The head is done.
    exact hbehind x hx
  · simp only [toOrder_filled, Order.filled_quantity] at hq
    -- The head has used up its slice and shows a fresh one at the back.
    rcases List.mem_append.mp hx with hx | hx
    · exact hbehind x hx
    · rw [List.mem_singleton.mp hx]
      exact hr.reloaded (by omega)
  · simp only [toOrder_filled, Order.filled_visibleQty] at hv
    -- The head keeps its place with the rest of its slice.
    rcases List.mem_cons.mp hx with rfl | hx
    · exact hr.filled (by omega)
    · exact hbehind x hx

/-- The queue of a pool after a fill of its head. -/
theorem pegQueue_restsIn {side : Side} {r : RestingOrder} {behind : List RestingOrder} {m : ℕ}
    (h : ∀ x ∈ r :: behind, RestsIn side x) :
    ∀ x ∈ pegQueue (r.filled m) behind, RestsIn side x := by
  obtain ⟨hr, hbehind⟩ := List.forall_mem_cons.mp h
  intro x hx
  unfold pegQueue at hx
  split_ifs at hx with hq
  · exact hbehind x hx
  · simp only [toOrder_filled, Order.filled_quantity] at hq
    rcases List.mem_cons.mp hx with rfl | hx
    · exact hr.filled (by omega)
    · exact hbehind x hx

/-- An iteration of the lit walk keeps the queues. -/
theorem Queued.matchLitBody {s s' : MatchingEngine} (h : s.Queued) {side : Side} {o o' : Order}
    (hbody : matchLitBody side (o, s) = .ok (some (o', s'))) : s'.Queued := by
  obtain ⟨price, r, behind, levels, m, hentries, -, hm, -, -, rfl, rfl⟩ := matchLitBody_some hbody
  have hlevels := h.level side.opposite
  rw [hentries] at hlevels
  obtain ⟨⟨-, hqueue⟩, hrest⟩ := List.forall_mem_cons.mp hlevels
  constructor
  · rw [forall_side side.opposite]
    constructor
    · -- Only the best level of the other side changes, and it goes when its queue is empty.
      rw [entries_settleLit _ _ _ _ (by simpa using hentries)]
      split_ifs with hempty
      · exact hrest
      · refine List.forall_mem_cons.mpr ⟨⟨hempty, ?_⟩, hrest⟩
        exact litQueue_restsAt hqueue (by omega)
    · simpa using h.level side.opposite.opposite
  · simpa using h.pool

/-- An iteration over a pool keeps the queues. -/
theorem Queued.matchPegPoolBody {s s' : MatchingEngine} (h : s.Queued) {mid : ℤ} {o o' : Order}
    (hbody : matchPegPoolBody mid (o, s) = .ok (some (o', s'))) : s'.Queued := by
  obtain ⟨r, behind, m, hpool, -, -, rfl, rfl⟩ := matchPegPoolBody_some hbody
  have hqueue := h.pool o.side.opposite
  rw [hpool] at hqueue
  constructor
  · simpa using h.level
  · rw [forall_side o.side.opposite]
    constructor
    · rw [pool_settleHead]
      exact pegQueue_restsIn hqueue
    · simpa using h.pool o.side.opposite.opposite

/-- An iteration of the pool cross keeps the queues. -/
theorem Queued.crossPegPoolsBody {s s' : MatchingEngine} (h : s.Queued) {mid : ℤ}
    (hbody : crossPegPoolsBody mid s = .ok (some s')) : s'.Queued := by
  obtain ⟨bid, bids, ask, asks, m, hbids, hasks, -, -, rfl⟩ := crossPegPoolsBody_some hbody
  have hb : ∀ x ∈ bid :: bids, RestsIn .buy x := hbids ▸ h.pool .buy
  have ha : ∀ x ∈ ask :: asks, RestsIn .sell x := hasks ▸ h.pool .sell
  constructor
  · intro x
    rw [book_settleHead, book_settleHead]
    cases x
    · exact h.level .buy
    · exact h.level .sell
  · rw [forall_side .sell]
    constructor
    · -- The asks are settled last, so the bids are read through them.
      rw [pool_settleHead]
      exact pegQueue_restsIn ha
    · rw [pool_settleHead_of_ne _ _ _ _ (by decide), Side.opposite, pool_settleHead]
      exact pegQueue_restsIn hb

/-- An order that comes to rest in the book goes to the back of its level. -/
theorem Queued.addToBook {s : MatchingEngine} (h : s.Queued) {o : Order} (hv : o.Valid)
    (hq : 0 < o.quantity) (htif : o.tif = .gtc) (htype : o.ordType = .limit) :
    (s.addToBook o).Queued := by
  have hnew : RestsAt o.side o.price (s.nextObject o.refreshDisplay) :=
    ⟨⟨hv.refreshDisplay, htif, hq, Order.refreshDisplay_visible_pos hq⟩, rfl, htype, rfl⟩
  have hlevel := h.level o.side
  constructor
  · rw [forall_side o.side]
    constructor
    · -- The order opens a level between those before and behind it, or joins the one that exists.
      rcases s.entries_addToBook o with ⟨pre, post, hold, -, hnew'⟩
        | ⟨pre, queue, post, hold, hnew'⟩
      · rw [hnew']
        rw [hold, List.forall_mem_append] at hlevel
        refine List.forall_mem_append.mpr ⟨hlevel.1, List.forall_mem_cons.mpr ⟨?_, hlevel.2⟩⟩
        simpa using hnew
      · rw [hnew']
        rw [hold, List.forall_mem_append, List.forall_mem_cons] at hlevel
        obtain ⟨hpre, ⟨-, hqueue⟩, hpost⟩ := hlevel
        refine List.forall_mem_append.mpr ⟨hpre, List.forall_mem_cons.mpr ⟨⟨by simp, ?_⟩, hpost⟩⟩
        exact List.forall_mem_append.mpr ⟨hqueue, by simpa using hnew⟩
    · simpa using h.level o.side.opposite
  · simpa using h.pool

/-- A peg that comes to rest goes to the back of its pool. -/
theorem Queued.restPeg {s : MatchingEngine} (h : s.Queued) {o : Order} (hv : o.Valid)
    (hq : 0 < o.quantity) (htif : o.tif = .gtc) (htype : o.ordType = .pegMid) :
    (s.restPeg o).Queued := by
  have hvis := hv.plain_visible (hv.peg_price htype).2
  have hnew : RestsIn o.side (s.nextObject o) := ⟨⟨hv, htif, hq, hvis ▸ hq⟩, rfl, htype⟩
  constructor
  · simpa using h.level
  · rw [forall_side o.side]
    constructor
    · rw [pool_restPeg, List.forall_mem_append]
      exact ⟨h.pool o.side, by simpa using hnew⟩
    · simpa using h.pool o.side.opposite

/-- Taking an order out of its queue keeps the queues. -/
theorem Queued.withdraw {s : MatchingEngine} (h : s.Queued) (r : RestingOrder) :
    (s.withdraw r).Queued := by
  unfold MatchingEngine.withdraw
  split
  · -- A peg: its pool is a sublist of what it was.
    constructor
    · simpa using h.level
    · rw [forall_side r.side]
      constructor
      · rw [pool_setPool]
        exact fun x hx => h.pool r.side x (List.mem_of_mem_eraseP hx)
      · simpa using h.pool r.side.opposite
  · split
    · -- No level at the price of the order.
      exact h
    · rename_i queue hget
      have hmem := (SortedMap.get?_eq_some_iff _ _ _).mp hget
      obtain ⟨pre, post, hsplit, herase, hreplace⟩ := SortedMap.split_of_mem _ hmem
      have hlevel := h.level r.side
      rw [hsplit, List.forall_mem_append, List.forall_mem_cons] at hlevel
      obtain ⟨hpre, ⟨-, hqueue⟩, hpost⟩ := hlevel
      simp only
      -- A level goes with its last order, so that no empty one is left.
      split_ifs with hempty
      · constructor
        · rw [forall_side r.side]
          constructor
          · rw [book_setBook, herase, List.forall_mem_append]
            exact ⟨hpre, hpost⟩
          · simpa using h.level r.side.opposite
        · simpa using h.pool
      · constructor
        · rw [forall_side r.side]
          constructor
          · rw [book_setBook, hreplace, List.forall_mem_append, List.forall_mem_cons]
            refine ⟨hpre, ⟨by simpa using hempty, ?_⟩, hpost⟩
            exact fun x hx => hqueue x (List.mem_of_mem_eraseP hx)
          · simpa using h.level r.side.opposite
        · simpa using h.pool

/-- A cancel keeps the queues. -/
theorem Queued.cancelOrder {s : MatchingEngine} (h : s.Queued) (orderID : ℤ) :
    (s.cancelOrder orderID).1.Queued := by
  have hun : (s.unregister orderID).Queued := h.congr (by simp) (by simp)
  unfold MatchingEngine.cancelOrder
  split
  · exact h
  · simp only
    split
    · exact hun
    · split_ifs
      · exact hun
      · exact (hun.congr (t := MatchingEngine.retire _ _) (by simp) (by simp)).withdraw _

/-! ## Every loop ends -/

/-- The lit walk goes on as long as it is not over. -/
theorem Queued.matchLitBody_progress {s : MatchingEngine} (h : s.Queued) (side : Side) (o : Order) :
    MatchingEngine.matchLitBody side (o, s) = .ok none ∨
      ∃ o' s', MatchingEngine.matchLitBody side (o, s) = .ok (some (o', s')) := by
  simp only [MatchingEngine.matchLitBody, SortedMap.firstEntry]
  split_ifs with hq
  · exact .inl rfl
  cases hfirst : (s.book side.opposite).entries.head? with
  | none => exact .inl rfl
  | some level =>
    obtain ⟨price, queue⟩ := level
    simp only
    split_ifs with hm
    swap
    · exact .inl rfl
    -- The level is not empty and its head shows something, so that neither fill throws.
    obtain ⟨hne, hrests⟩ := h.level _ _ (List.mem_of_head? hfirst)
    right
    obtain ⟨r, behind, rfl⟩ := List.exists_cons_of_ne_nil hne
    have hr := hrests r List.mem_cons_self
    have hvis := hr.visible_pos
    have hle := hr.valid.visible_le
    have hpos : 0 < min o.quantity r.visibleQty := by omega
    simp only [o.fill_of_le hpos (by omega), r.fill_of_le hpos (by omega), Bind.bind, Except.bind,
      pure, Except.pure]
    exact ⟨_, _, rfl⟩

/-- The walk over a pool goes on as long as it is not over. -/
theorem Queued.matchPegPoolBody_progress {s : MatchingEngine} (h : s.Queued) (mid : ℤ) (o : Order) :
    MatchingEngine.matchPegPoolBody mid (o, s) = .ok none ∨
      ∃ o' s', MatchingEngine.matchPegPoolBody mid (o, s) = .ok (some (o', s')) := by
  simp only [MatchingEngine.matchPegPoolBody]
  split_ifs with hq
  · exact .inl rfl
  cases hpool : s.pool o.side.opposite with
  | nil => exact .inl rfl
  | cons r behind =>
    right
    -- The peg at the head has something left, so that neither fill throws.
    have hr := h.pool o.side.opposite r (by simp [hpool])
    have hr' := hr.quantity_pos
    have hpos : 0 < min o.quantity r.quantity := by omega
    simp only [o.fill_of_le hpos (by omega), r.fill_of_le hpos (by omega), Bind.bind, Except.bind,
      pure, Except.pure]
    split_ifs
    · exact ⟨_, _, rfl⟩
    · exact ⟨_, _, rfl⟩

/-- The pool cross goes on as long as it is not over. -/
theorem Queued.crossPegPoolsBody_progress {s : MatchingEngine} (h : s.Queued) (mid : ℤ) :
    MatchingEngine.crossPegPoolsBody mid s = .ok none ∨
      ∃ s', MatchingEngine.crossPegPoolsBody mid s = .ok (some s') := by
  unfold MatchingEngine.crossPegPoolsBody
  split
  · rename_i bid bids ask asks hb ha
    right
    have hbid := (h.pool .buy bid (by simp [MatchingEngine.pool, hb])).quantity_pos
    have hask := (h.pool .sell ask (by simp [MatchingEngine.pool, ha])).quantity_pos
    have hpos : 0 < min bid.quantity ask.quantity := by omega
    simp only [bid.fill_of_le hpos (by omega), ask.fill_of_le hpos (by omega), Bind.bind,
      Except.bind, pure, Except.pure]
    split_ifs
    · exact ⟨_, rfl⟩
    · exact ⟨_, rfl⟩
  · exact .inl rfl

/-- A lit walk keeps the queues. -/
theorem Queued.matchLit {s s' : MatchingEngine} (h : s.Queued) {side : Side} {o o' : Order}
    (hlit : MatchingEngine.matchLit side o s = .ok (o', s')) : s'.Queued :=
  (whileLoop_inv hlit (fun x => x.2.Queued) h fun _ _ hu hbody => hu.matchLitBody hbody).1

/-- A walk over a pool keeps the queues. -/
theorem Queued.matchPegPool {s s' : MatchingEngine} (h : s.Queued) {mid : ℤ} {o o' : Order}
    (hpeg : MatchingEngine.matchPegPool o mid s = .ok (o', s')) : s'.Queued :=
  (whileLoop_inv hpeg (fun x => x.2.Queued) h fun _ _ hu hbody => hu.matchPegPoolBody hbody).1

/-- The peg step keeps the queues. -/
theorem Queued.pegStep {s s' : MatchingEngine} (h : s.Queued) {o o' : Order}
    (hpeg : MatchingEngine.pegStep o s = .ok (o', s')) : s'.Queued := by
  simp only [MatchingEngine.pegStep] at hpeg
  split_ifs at hpeg
  · exact h.matchPegPool hpeg
  · obtain ⟨-, rfl⟩ := Prod.mk.inj (Except.ok.inj hpeg)
    exact h

/-- The pool cross keeps the queues. -/
theorem Queued.crossPegPools {s s' : MatchingEngine} (h : s.Queued)
    (hcross : s.crossPegPools = .ok s') : s'.Queued := by
  simp only [MatchingEngine.crossPegPools] at hcross
  split_ifs at hcross
  · exact Except.ok.inj hcross ▸ h
  · exact (whileLoop_inv hcross Queued h fun _ _ hu hbody => hu.crossPegPoolsBody hbody).1

/-- An order that does not rest leaves the queues alone. -/
theorem Queued.dispose {s : MatchingEngine} (h : s.Queued) (o : Order) : (s.dispose o).Queued :=
  h.congr (by simp) (by simp)

/-- The end of a peg keeps the queues. -/
theorem Queued.disposePeg {s : MatchingEngine} (h : s.Queued) {o : Order} (hv : o.Valid)
    (htype : o.ordType = .pegMid) : (s.disposePeg o).Queued := by
  unfold MatchingEngine.disposePeg
  split_ifs with hrest
  · exact h.restPeg hv hrest.1 hrest.2 htype
  · exact h.dispose o

/-- The end of a lit order keeps the queues. -/
theorem Queued.disposeLit {s : MatchingEngine} (h : s.Queued) {o : Order} (hv : o.Valid)
    (htype : o.ordType = .limit) : (s.disposeLit o).Queued := by
  unfold MatchingEngine.disposeLit
  split_ifs with hrest
  · exact (h.addToBook hv hrest.1 hrest.2 htype).congr (by simp) (by simp)
  · exact h.dispose o

/-- An admission keeps the queues. -/
theorem Queued.addOrder {s t : MatchingEngine} (h : s.Queued) {o : Order} (hv : o.Valid)
    (hadd : s.addOrder o = .ok t) : t.Queued := by
  rcases addOrder_cases hadd with ⟨-, -, rfl⟩ | ⟨-, o₁, s₁, hpeg, hrest⟩
  · exact h.congr (by simp) (by simp)
  · have ho₁ := pegStep_filledFrom hpeg
    have h₁ := h.pegStep hpeg
    -- A peg is disposed of where the peg step left it; a limit order after the lit walk.
    rcases hrest with ⟨htype, rfl⟩ | ⟨htype, o₂, s₂, hlit, hcross⟩
    · exact h₁.disposePeg (ho₁.valid hv) (ho₁.ordType.trans htype)
    · have ho₂ := ho₁.trans (matchLit_filledFrom hlit)
      exact ((h₁.matchLit hlit).disposeLit (ho₂.valid hv)
        (ho₂.ordType.trans htype)).crossPegPools hcross

/-- The lit walk ends within the quantity of the order. -/
theorem Queued.matchLit_total {s : MatchingEngine} (h : s.Queued) (side : Side) (o : Order) :
    ∃ o' s', MatchingEngine.matchLit side o s = .ok (o', s') := by
  have htotal : ∃ x, MatchingEngine.matchLit side o s = .ok x := by
    -- Each iteration takes at least one from the quantity of the order.
    refine whileLoop_total (fun x => x.2.Queued) (fun x => x.1.quantity) ?_ h le_rfl
    rintro ⟨u, su⟩ hu
    apply (hu.matchLitBody_progress side u).imp_right
    rintro ⟨v, sv, hbody⟩
    refine ⟨_, hbody, hu.matchLitBody hbody, ?_⟩
    obtain ⟨_, _, _, _, m, -, -, hm, hpos, -, rfl, -⟩ := matchLitBody_some hbody
    simp only [Order.filled_quantity]
    omega
  obtain ⟨⟨o', s'⟩, hlit⟩ := htotal
  exact ⟨o', s', hlit⟩

/-- The walk over a pool ends within the quantity of the order. -/
theorem Queued.matchPegPool_total {s : MatchingEngine} (h : s.Queued) (mid : ℤ) (o : Order) :
    ∃ o' s', MatchingEngine.matchPegPool o mid s = .ok (o', s') := by
  have htotal : ∃ x, MatchingEngine.matchPegPool o mid s = .ok x := by
    refine whileLoop_total (fun x => x.2.Queued) (fun x => x.1.quantity) ?_ h le_rfl
    rintro ⟨u, su⟩ hu
    apply (hu.matchPegPoolBody_progress mid u).imp_right
    rintro ⟨v, sv, hbody⟩
    refine ⟨_, hbody, hu.matchPegPoolBody hbody, ?_⟩
    obtain ⟨_, _, m, -, hm, hpos, rfl, -⟩ := matchPegPoolBody_some hbody
    simp only [Order.filled_quantity]
    omega
  obtain ⟨⟨o', s'⟩, hpeg⟩ := htotal
  exact ⟨o', s', hpeg⟩

/-- The peg step returns. -/
theorem Queued.pegStep_total {s : MatchingEngine} (h : s.Queued) (o : Order) :
    ∃ o' s', MatchingEngine.pegStep o s = .ok (o', s') := by
  simp only [MatchingEngine.pegStep]
  split_ifs
  · exact h.matchPegPool_total _ o
  · exact ⟨o, s, rfl⟩

/-- The pool cross ends within the number of pegs: each iteration finishes a head. -/
theorem Queued.crossPegPools_total {s : MatchingEngine} (h : s.Queued) :
    ∃ t, s.crossPegPools = .ok t := by
  simp only [MatchingEngine.crossPegPools]
  split_ifs
  · exact ⟨s, rfl⟩
  refine whileLoop_total Queued (fun x => x.pegBids.length + x.pegAsks.length) ?_ h le_rfl
  intro u hu
  apply (hu.crossPegPoolsBody_progress s.mid).imp_right
  rintro ⟨v, hbody⟩
  refine ⟨v, hbody, hu.crossPegPoolsBody hbody, ?_⟩
  obtain ⟨bid, bids, ask, asks, m, hbids, hasks, hm, -, rfl⟩ := crossPegPoolsBody_some hbody
  set t := (settleHead (recordTrade u _ _ _ _ _ _) .buy (bid.filled m) bids).settleHead .sell
    (ask.filled m) asks with ht
  have hb : t.pegBids = pegQueue (bid.filled m) bids := by
    have : t.pool .buy = pegQueue (bid.filled m) bids := by
      rw [ht, pool_settleHead_of_ne _ _ _ _ (by decide), pool_settleHead]
    exact this
  have ha : t.pegAsks = pegQueue (ask.filled m) asks := by
    have : t.pool .sell = pegQueue (ask.filled m) asks := by rw [ht, pool_settleHead]
    exact this
  -- The smaller of the two heads is done and leaves its pool.
  have hdone : (bid.filled m).quantity = 0 ∨ (ask.filled m).quantity = 0 := by
    simp only [toOrder_filled, Order.filled_quantity]
    omega
  rw [hb, ha, hbids, hasks, length_pegQueue, length_pegQueue]
  simp only [List.length_cons]
  split_ifs <;> omega

/-- An admission returns, and does not throw. -/
theorem Queued.addOrder_total {s : MatchingEngine} (h : s.Queued) {o : Order} (hv : o.Valid) :
    ∃ t, s.addOrder o = .ok t := by
  obtain ⟨o₁, s₁, hpeg⟩ := h.pegStep_total o
  refine addOrder_returns ⟨o₁, s₁, hpeg, fun htype => ?_⟩
  have h₁ := h.pegStep hpeg
  have ho₁ := pegStep_filledFrom hpeg
  obtain ⟨o₂, s₂, hlit⟩ := h₁.matchLit_total o.side o₁
  have ho₂ := ho₁.trans (matchLit_filledFrom hlit)
  exact ⟨o₂, s₂, hlit, ((h₁.matchLit hlit).disposeLit (ho₂.valid hv)
    (ho₂.ordType.trans htype)).crossPegPools_total⟩

/-- The rule for admissions: what the iterations of the three loops and the ends of an order keep,
an admission keeps. The queues are there for each of them to use. -/
theorem Queued.addOrder_induction {P : MatchingEngine → Prop} {s t : MatchingEngine} (h : s.Queued)
    {o : Order} (hv : o.Valid) (hadd : s.addOrder o = .ok t) (hs : P s)
    (hpeg : ∀ mid a u b v, u.Queued → P u →
      MatchingEngine.matchPegPoolBody mid (a, u) = .ok (some (b, v)) → P v)
    (hlit : ∀ side a u b v, u.Queued → P u →
      MatchingEngine.matchLitBody side (a, u) = .ok (some (b, v)) → P v)
    (hcross : ∀ mid u v, u.Queued → P u →
      MatchingEngine.crossPegPoolsBody mid u = .ok (some v) → P v)
    (hrestPeg : ∀ u a, u.Queued → P u → FilledFrom o a → P (u.restPeg a))
    (hrestLit : ∀ u a, u.Queued → P u → FilledFrom o a → P ((u.addToBook a).onAccepted a))
    (hexpired : ∀ u a, P u → P (u.onExpired a)) (hretired : ∀ u a, P u → P (u.retire a)) : P t := by
  have hdispose : ∀ u a, P u → P (u.dispose a) := by
    intro u a hu
    unfold MatchingEngine.dispose
    split_ifs
    · exact hretired _ _ (hexpired u a.expire hu)
    · exact hretired u a hu
  rcases addOrder_cases hadd with ⟨-, -, rfl⟩ | ⟨-, o₁, s₁, hpegStep, hrest⟩
  · exact hretired _ _ (hexpired s o hs)
  have hq₁ := h.pegStep hpegStep
  have ho₁ := pegStep_filledFrom hpegStep
  have hs₁ : P s₁ := by
    simp only [MatchingEngine.pegStep] at hpegStep
    split_ifs at hpegStep
    · refine (whileLoop_inv hpegStep (fun x => x.2.Queued ∧ P x.2) ⟨h, hs⟩ ?_).1.2
      rintro ⟨a, u⟩ ⟨b, v⟩ ⟨hu, hPu⟩ hbody
      exact ⟨hu.matchPegPoolBody hbody, hpeg _ a u b v hu hPu hbody⟩
    · obtain ⟨-, rfl⟩ := Prod.mk.inj (Except.ok.inj hpegStep)
      exact hs
  rcases hrest with ⟨htype, rfl⟩ | ⟨htype, o₂, s₂, hwalk, hcrossed⟩
  · unfold MatchingEngine.disposePeg
    split_ifs
    · exact hrestPeg s₁ o₁ hq₁ hs₁ ho₁
    · exact hdispose s₁ o₁ hs₁
  have ho₂ := ho₁.trans (matchLit_filledFrom hwalk)
  have hq₂ := (hq₁.matchLit hwalk).disposeLit (ho₂.valid hv) (ho₂.ordType.trans htype)
  have hs₂ : P s₂ := by
    refine (whileLoop_inv hwalk (fun x => x.2.Queued ∧ P x.2) ⟨hq₁, hs₁⟩ ?_).1.2
    rintro ⟨a, u⟩ ⟨b, v⟩ ⟨hu, hPu⟩ hbody
    exact ⟨hu.matchLitBody hbody, hlit _ a u b v hu hPu hbody⟩
  have hend : P (s₂.disposeLit o₂) := by
    unfold MatchingEngine.disposeLit
    split_ifs
    · exact hrestLit s₂ o₂ (hq₁.matchLit hwalk) hs₂ ho₂
    · exact hdispose s₂ o₂ hs₂
  simp only [MatchingEngine.crossPegPools] at hcrossed
  split_ifs at hcrossed
  · exact Except.ok.inj hcrossed ▸ hend
  · refine (whileLoop_inv hcrossed (fun u => u.Queued ∧ P u) ⟨hq₂, hend⟩ ?_).1.2
    rintro u v ⟨hu, hPu⟩ hbody
    exact ⟨hu.crossPegPoolsBody hbody, hcross _ u v hu hPu hbody⟩

end MatchingEngine

end MatchingVenue
