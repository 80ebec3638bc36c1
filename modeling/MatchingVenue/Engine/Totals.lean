import MatchingVenue.Engine.FillOrKill
import MatchingVenue.Engine.Priority

/-!
# What the totals decide

How the quantity at a price is split among orders, and how much of each order is displayed, decides
who trades with whom. It does not decide how much trades: that depends on the totals alone, the
quantity at each price of the book and in each pool. `Totals` is the engine as far as the totals go,
and `Totals.place` says what an order does to them: how much it executes at which price, what of it
rests or expires, and what totals it leaves. It has no queues, no slices and no loops.

The engine refines it (`addOrder_totals`): the totals of the state after an admission, and what the
admission reports, are what `Totals.place` says of the totals before. So two states with the same
totals stay so, and report the same totals, through any sequence of admissions
(`hidden_size_immaterial`).
-/

namespace MatchingVenue

/-- The totals of an engine: of each side the price levels, best first, with the quantity at each,
and the quantity in the pool. -/
@[ext]
structure Totals where
  levels : Side → List (ℤ × ℕ)
  pool : Side → ℕ

/-- What became of an order: how much was executed at which price, the callbacks that acknowledge or
expire what is left of it, and whether it was killed unfilled. -/
@[ext]
structure Outcome where
  executed : ℤ → ℕ
  ended : List Callback
  killed : Bool

/-- Levels as lots: a lot has the quantity of the level. -/
def levelLots : Lots (ℤ × ℕ) where
  size := Prod.snd
  cut level m := (level.1, level.2 - m)
  size_cut _ _ := rfl
  cut_cut level m k := by rw [Nat.sub_sub]

/-- The quantity of some levels. -/
def quantityAll : List (ℤ × ℕ) → ℕ
  | [] => 0
  | level :: levels => level.2 + quantityAll levels

/-- The quantity of some levels at a price. -/
def depthAt (price : ℤ) : List (ℤ × ℕ) → ℕ
  | [] => 0
  | level :: levels => (if level.1 = price then level.2 else 0) + depthAt price levels

/-- The quantity of some trades at a price. -/
def executedAt (price : ℤ) : List Trade → ℕ
  | [] => 0
  | trade :: trades => (if trade.price = price then trade.quantity else 0) + executedAt price trades

namespace Totals

open MatchingEngine (marketable crossesMid)

variable (t : Totals)

/-- The best price of a side, or `-1` where there is none. -/
def best (side : Side) : ℤ := ((t.levels side).head?.map Prod.fst).getD Prices.na

/-- The midpoint of the best prices, or `-1` where a side is empty. -/
def mid : ℤ :=
  if t.best .buy = Prices.na ∨ t.best .sell = Prices.na then Prices.na
  else (toLong (t.best .buy + t.best .sell)).tdiv 2

/-- The totals with other levels at a side. -/
def setLevels (side : Side) (levels : List (ℤ × ℕ)) : Totals :=
  { t with levels := Function.update t.levels side levels }

/-- The totals with another quantity in a pool. -/
def setPool (side : Side) (quantity : ℕ) : Totals :=
  { t with pool := Function.update t.pool side quantity }

@[simp]
theorem levels_setLevels (side : Side) (levels : List (ℤ × ℕ)) :
    (t.setLevels side levels).levels side = levels := by
  simp [setLevels]

@[simp]
theorem levels_setLevels_of_ne {x side : Side} (hx : x ≠ side) (levels : List (ℤ × ℕ)) :
    (t.setLevels side levels).levels x = t.levels x := by
  simp [setLevels, hx]

@[simp]
theorem pool_setLevels (side : Side) (levels : List (ℤ × ℕ)) :
    (t.setLevels side levels).pool = t.pool := rfl

@[simp]
theorem setLevels_setLevels (side : Side) (levels levels' : List (ℤ × ℕ)) :
    (t.setLevels side levels).setLevels side levels' = t.setLevels side levels' := by
  unfold setLevels
  rw [Function.update_idem]

/-- Setting the levels to what they are changes nothing. -/
theorem setLevels_self (side : Side) : t.setLevels side (t.levels side) = t := by
  unfold setLevels
  rw [Function.update_eq_self]

@[simp]
theorem pool_setPool (side : Side) (quantity : ℕ) :
    (t.setPool side quantity).pool side = quantity := by
  simp [setPool]

@[simp]
theorem pool_setPool_of_ne {x side : Side} (hx : x ≠ side) (quantity : ℕ) :
    (t.setPool side quantity).pool x = t.pool x := by
  simp [setPool, hx]

@[simp]
theorem levels_setPool (side : Side) (quantity : ℕ) : (t.setPool side quantity).levels = t.levels :=
  rfl

@[simp]
theorem setPool_setPool (side : Side) (quantity quantity' : ℕ) :
    (t.setPool side quantity).setPool side quantity' = t.setPool side quantity' := by
  unfold setPool
  rw [Function.update_idem]

/-- Setting the total of a pool to what it is changes nothing. -/
theorem setPool_self (side : Side) : t.setPool side (t.pool side) = t := by
  unfold setPool
  rw [Function.update_eq_self]

/-- The levels that an incoming order may trade with, by its limit. -/
def within (side : Side) (limit : ℤ) : List (ℤ × ℕ) :=
  (t.levels side.opposite).filter fun level => marketable side limit level.1

/-- The levels beyond the limit of an incoming order. -/
def beyond (side : Side) (limit : ℤ) : List (ℤ × ℕ) :=
  (t.levels side.opposite).filter fun level => !marketable side limit level.1

/-- The quantity in the opposite pool that an order may trade with. -/
def pegs (o : Order) : ℕ :=
  if t.mid ≠ Prices.na ∧ (o.ordType = .pegMid ∨ crossesMid o.side o.price t.mid) then
    t.pool o.side.opposite
  else 0

/-- What the fill-or-kill probe says. The pool total is a `long`, which may have wrapped; a sum that
has not reached the need does not wrap any more. -/
def canFill (o : Order) : Bool :=
  match o.ordType with
  | .pegMid => decide (t.mid ≠ Prices.na ∧ toLong (t.pool o.side.opposite) ≥ o.quantity)
  | .limit =>
    let pegs : ℤ :=
      if t.mid ≠ Prices.na ∧ crossesMid o.side o.price t.mid then
        toLong (t.pool o.side.opposite) else 0
    decide (pegs + quantityAll (t.within o.side o.price) ≥ o.quantity)

/-- The totals after an order has taken from the opposite pool what it may. -/
def takePegs (o : Order) : Totals :=
  t.setPool o.side.opposite (t.pool o.side.opposite - min o.quantity (t.pegs o))

/-- The totals after a need has been taken from the levels within a limit, best first. -/
def sweep (side : Side) (limit : ℤ) (need : ℕ) : Totals :=
  t.setLevels side.opposite (levelLots.left need (t.within side limit) ++ t.beyond side limit)

/-- The totals with a quantity more at a price. -/
def restLit (side : Side) (price : ℤ) (quantity : ℕ) : Totals :=
  t.setLevels side (SortedMap.upsertEntries (Better side) price (fun old => old.getD 0 + quantity)
    (t.levels side))

/-- The totals with a quantity more in a pool. -/
def restPeg (side : Side) (quantity : ℕ) : Totals := t.setPool side (t.pool side + quantity)

/-- What the pools cross. -/
def crossing : ℕ := if t.mid = Prices.na then 0 else min (t.pool .buy) (t.pool .sell)

/-- The totals with a quantity less in both pools. -/
def takeBoth (quantity : ℕ) : Totals := { t with pool := fun side => t.pool side - quantity }

@[simp]
theorem pool_takeBoth (quantity : ℕ) (side : Side) :
    (t.takeBoth quantity).pool side = t.pool side - quantity := rfl

@[simp]
theorem levels_takeBoth (quantity : ℕ) : (t.takeBoth quantity).levels = t.levels := rfl

/-- The totals after the pools have crossed. -/
def cross : Totals := t.takeBoth t.crossing

/-- The callbacks for what is left of an order. -/
def ending (o : Order) (left : ℕ) : List Callback :=
  if left = 0 then []
  else if o.tif = .gtc then [.onAccepted o.orderID o.price left]
  else [.onExpired o.orderID left]

/-- What an order does: the totals after it, and what becomes of it. -/
def place (o : Order) : Totals × Outcome :=
  if o.tif = .fok ∧ ¬ t.canFill o then
    (t, ⟨fun _ => 0, [.onExpired o.orderID o.quantity], true⟩)
  else
    let pegged := t.takePegs o
    let need := o.quantity - t.pegs o
    match o.ordType with
    | .pegMid =>
      (if need > 0 ∧ o.tif = .gtc then pegged.restPeg o.side need else pegged,
        ⟨fun price => if price = t.mid then min o.quantity (t.pegs o) else 0, ending o need, false⟩)
    | .limit =>
      let swept := pegged.sweep o.side o.price need
      let left := need - quantityAll (pegged.within o.side o.price)
      let rested := if left > 0 ∧ o.tif = .gtc then swept.restLit o.side o.price left else swept
      (rested.cross,
        ⟨fun price => (if price = t.mid then min o.quantity (t.pegs o) else 0) +
            (depthAt price (pegged.levels o.side.opposite) -
              depthAt price (swept.levels o.side.opposite)) +
            if price = rested.mid then rested.crossing else 0,
          ending o left, false⟩)

end Totals

namespace MatchingEngine

/-! ## The totals of a state -/

/-- The quantity at each of some levels. -/
def levelTotals (levels : List (ℤ × List RestingOrder)) : List (ℤ × ℕ) :=
  levels.map fun level => (level.1, quantityOf level.2)

/-- The totals of a state. -/
def totals (s : MatchingEngine) : Totals where
  levels side := levelTotals (s.book side).entries
  pool side := quantityOf (s.pool side)

/-- Whether a callback says that an order, or its remainder, came to rest or expired. -/
def isEnd : Callback → Bool
  | .onFill _ _ _ _ _ _ => false
  | _ => true

/-- What an admission that takes the engine from `s` to `t` has done, as its trades and callbacks
tell it. -/
def outcome (s : MatchingEngine) (o : Order) (t : MatchingEngine) : Outcome where
  executed price := executedAt price (t.trades.drop s.trades.length)
  ended := (t.executionListener.drop s.executionListener.length).filter isEnd
  killed := decide (o.tif = .fok ∧ ¬ s.canFillCompletely o)

/-- The totals of some levels begin with that of the first. -/
theorem levelTotals_cons (level : ℤ × List RestingOrder) (levels : List (ℤ × List RestingOrder)) :
    levelTotals (level :: levels) = (level.1, quantityOf level.2) :: levelTotals levels := rfl

/-- The levels of a side stand in the order of their prices. -/
theorem totals_sorted (s : MatchingEngine) (side : Side) :
    (s.totals.levels side).Pairwise fun a b => Better side a.1 b.1 :=
  List.pairwise_map.mpr (s.book side).sorted

/-- The midpoint depends on the best prices only. -/
theorem mid_totals (s : MatchingEngine) : s.totals.mid = s.mid := by
  have hbid : s.totals.best .buy = s.getBestBid := by
    simp only [Totals.best, totals, levelTotals, getBestBid, SortedMap.firstKey, List.head?_map,
      Option.map_map]
    rfl
  have hask : s.totals.best .sell = s.getBestAsk := by
    simp only [Totals.best, totals, levelTotals, getBestAsk, SortedMap.firstKey, List.head?_map,
      Option.map_map]
    rfl
  unfold Totals.mid mid
  rw [hbid, hask]

/-- What a pool may give to an order is its total, where it may give anything. -/
theorem pegs_totals (s : MatchingEngine) (o : Order) : s.totals.pegs o = s.tradablePegs o := by
  unfold Totals.pegs tradablePegs
  rw [mid_totals]
  rfl

/-- The levels within a limit, as totals. -/
theorem within_totals (s : MatchingEngine) (side : Side) (limit : ℤ) :
    s.totals.within side limit =
      levelTotals (levelsWithin side limit (s.book side.opposite).entries) := by
  simp only [Totals.within, totals, levelTotals, levelsWithin, List.filter_map]
  rfl

/-- The totals of some levels add up to what their orders have. -/
theorem quantityAll_levelTotals (levels : List (ℤ × List RestingOrder)) :
    quantityAll (levelTotals levels) = quantityOf (levels.flatMap Prod.snd) := by
  induction levels with
  | nil => rfl
  | cons level levels ih =>
    rw [levelTotals_cons, quantityAll, ih, List.flatMap_cons, quantityOf_append]

/-- What the totals have within a limit is what the orders there have. -/
theorem quantityAll_within (s : MatchingEngine) (side : Side) (limit : ℤ) :
    quantityAll (s.totals.within side limit) =
      quantityWithin side limit (s.book side.opposite).entries := by
  rw [within_totals, quantityAll_levelTotals]
  rfl

/-- The levels within a limit stand before those beyond it. -/
theorem within_append_beyond (s : MatchingEngine) (side : Side) (limit : ℤ) :
    s.totals.within side limit ++ s.totals.beyond side limit = s.totals.levels side.opposite := by
  refine (filter_append_of_pairwise ((s.totals_sorted side.opposite).imp fun hbetter hb => ?_)).symm
  by_contra hout
  have hbeyond := marketable_of_better hbetter (by simpa using hout)
  rw [hbeyond] at hb
  exact Bool.false_ne_true hb

/-! ## What is executed -/

/-- Between two states, this much was executed at each price, and these callbacks acknowledged or
expired an order. -/
structure Executes (s t : MatchingEngine) (executed : ℤ → ℕ) (ended : List Callback) : Prop where
  /-- The trades execute so much at each price. -/
  trades : ∃ trades, t.trades = s.trades ++ trades ∧ ∀ price,
    executedAt price trades = executed price
  /-- The callbacks that are no fills are these. -/
  callbacks : ∃ callbacks, t.executionListener = s.executionListener ++ callbacks ∧
    callbacks.filter isEnd = ended

/-- What two stretches of trades executed at a price adds up. -/
theorem executedAt_append (price : ℤ) (trades trades' : List Trade) :
    executedAt price (trades ++ trades') = executedAt price trades + executedAt price trades' := by
  induction trades with
  | nil => exact (Nat.zero_add _).symm
  | cons trade trades ih =>
    rw [List.cons_append, executedAt, executedAt, ih, Nat.add_assoc]

/-- Nothing is executed where only callbacks are added. -/
theorem Executes.ended {s t : MatchingEngine} {callbacks : List Callback}
    (htrades : t.trades = s.trades)
    (hlistener : t.executionListener = s.executionListener ++ callbacks) :
    Executes s t (fun _ => 0) (callbacks.filter isEnd) where
  trades := ⟨[], htrades.trans (List.append_nil _).symm, fun _ => rfl⟩
  callbacks := ⟨callbacks, hlistener, rfl⟩

/-- Between a state and itself nothing was executed. -/
theorem Executes.refl (s : MatchingEngine) : Executes s s (fun _ => 0) [] :=
  .ended rfl (List.append_nil _).symm

/-- A trade executes its quantity at its price. -/
theorem Executes.trade {s t : MatchingEngine} {trade : Trade} {callback : Callback}
    (htrades : t.trades = s.trades ++ [trade])
    (hlistener : t.executionListener = s.executionListener ++ [callback])
    (hfill : isEnd callback = false) :
    Executes s t (fun p => if p = trade.price then trade.quantity else 0) [] where
  trades := by
    refine ⟨[trade], htrades, fun p => ?_⟩
    rw [executedAt, executedAt, Nat.add_zero]
    simp only [eq_comm]
  callbacks := ⟨[callback], hlistener, List.filter_cons_of_neg (by simp [hfill])⟩

/-- What is executed on two stretches adds up. -/
theorem Executes.trans {s t u : MatchingEngine} {executed executed' : ℤ → ℕ}
    {ended ended' : List Callback} (h : Executes s t executed ended)
    (h' : Executes t u executed' ended') :
    Executes s u (fun price => executed price + executed' price) (ended ++ ended') := by
  obtain ⟨trades, htrades, hexecuted⟩ := h.trades
  obtain ⟨trades', htrades', hexecuted'⟩ := h'.trades
  obtain ⟨callbacks, hcallbacks, hended⟩ := h.callbacks
  obtain ⟨callbacks', hcallbacks', hended'⟩ := h'.callbacks
  constructor
  · refine ⟨trades ++ trades', ?_, fun price => ?_⟩
    · rw [htrades', htrades, List.append_assoc]
    · rw [executedAt_append, hexecuted, hexecuted']
  · refine ⟨callbacks ++ callbacks', ?_, ?_⟩
    · rw [hcallbacks', hcallbacks, List.append_assoc]
    · rw [List.filter_append, hended, hended']

/-- What was executed may be written in another way. -/
theorem Executes.congr {s t : MatchingEngine} {executed executed' : ℤ → ℕ} {ended : List Callback}
    (h : Executes s t executed ended) (heq : ∀ price, executed price = executed' price) :
    Executes s t executed' ended := by
  obtain rfl := funext heq
  exact h

/-- The outcome of an admission is read off what it has executed. -/
theorem Executes.outcome {s t : MatchingEngine} {executed : ℤ → ℕ} {ended : List Callback}
    (h : Executes s t executed ended) (o : Order) :
    MatchingEngine.outcome s o t =
      ⟨executed, ended, decide (o.tif = .fok ∧ ¬ s.canFillCompletely o)⟩ := by
  obtain ⟨trades, htrades, hexecuted⟩ := h.trades
  obtain ⟨callbacks, hcallbacks, hended⟩ := h.callbacks
  unfold MatchingEngine.outcome
  rw [htrades, hcallbacks, List.drop_left, List.drop_left, hended]
  congr 1
  exact funext hexecuted

/-! ## The phases of an admission -/

/-- What the fill of an incoming order executes. -/
theorem Executes.recordFill {s t : MatchingEngine} {aggressor passive : Order} {price : ℤ} {m : ℕ}
    (htrades : t.trades = (s.recordFill aggressor passive price m).trades)
    (hlistener : t.executionListener = (s.recordFill aggressor passive price m).executionListener) :
    Executes s t (fun p => if p = price then m else 0) [] := by
  have htrade : (s.fillTrade aggressor passive price m).price = price ∧
      (s.fillTrade aggressor passive price m).quantity = m := by
    unfold fillTrade
    cases aggressor.side
    · exact ⟨rfl, rfl⟩
    · exact ⟨rfl, rfl⟩
  have h := Executes.trade (htrades.trans (trades_recordFill _ _ _ _ _))
    (hlistener.trans (executionListener_recordFill _ _ _ _ _)) rfl
  rwa [htrade.1, htrade.2] at h

/-- A fill against the head of a pool takes from the total of the pool. -/
theorem matchPegPoolBody_totals {mid : ℤ} {o o' : Order} {s s' : MatchingEngine}
    (h : matchPegPoolBody mid (o, s) = .ok (some (o', s'))) :
    ∃ m, 0 < m ∧ m ≤ o.quantity ∧ m ≤ s.totals.pool o.side.opposite ∧ o' = o.filled m ∧
      s'.totals = s.totals.setPool o.side.opposite (s.totals.pool o.side.opposite - m) ∧
      Executes s s' (fun price => if price = mid then m else 0) [] := by
  obtain ⟨r, behind, m, hpool, hm, hpos, rfl, rfl⟩ := matchPegPoolBody_some h
  have hqueue := quantityOf_pegQueue behind (r := r) (m := m) (by omega)
  have htotal : s.totals.pool o.side.opposite = quantityOf (r :: behind) :=
    congrArg quantityOf hpool
  refine ⟨m, hpos, by omega, by omega, rfl, ?_, ?_⟩
  · have hother : ∀ side, side ≠ o.side.opposite →
        ((s.recordFill (o.filled m) (r.filled m).toOrder mid m).settleHead
        o.side.opposite (r.filled m) behind).pool side = s.pool side := by
      intro side hside
      rw [pool_settleHead_of_ne _ _ _ _ hside, pool_recordFill]
    ext1
    · funext side
      simp only [totals, Totals.levels_setPool, book_settleHead, book_recordFill]
    · funext side
      by_cases hside : side = o.side.opposite
      · subst hside
        rw [Totals.pool_setPool, htotal]
        simp only [totals, pool_settleHead]
        omega
      · rw [Totals.pool_setPool_of_ne _ hside]
        exact congrArg quantityOf (hother side hside)
  · exact .recordFill (trades_settleHead _ _ _ _) (executionListener_settleHead _ _ _ _)

/-- A queue of orders that have something left is empty where its total is zero. -/
theorem eq_nil_of_quantityOf {orders : List RestingOrder} (hpos : ∀ r ∈ orders, 0 < r.quantity)
    (hzero : quantityOf orders = 0) : orders = [] := by
  cases orders with
  | nil => rfl
  | cons r orders =>
    rw [quantityOf_cons] at hzero
    have := hpos r List.mem_cons_self
    omega

/-- The level of a hit keeps what is left of its total, or goes when nothing is left of it. -/
theorem levels_settleLit {s : MatchingEngine} {side : Side} {r : RestingOrder}
    {behind : List RestingOrder} {price : ℤ} {levels : List (ℤ × List RestingOrder)} {m : ℕ}
    (hpos : ∀ x ∈ behind, 0 < x.quantity) (hle : m ≤ r.quantity)
    (h : (s.book side).entries = (price, r :: behind) :: levels) :
    (s.settleLit side (r.filled m) behind).totals.levels side =
      levelLots.rest (levelLots.cut (price, quantityOf (r :: behind)) m) ++ levelTotals levels := by
  have hqueue := quantityOf_litQueue behind hle
  have hcut : levelLots.cut (price, quantityOf (r :: behind)) m =
      (price, quantityOf (litQueue (r.filled m) behind)) := by
    show (price, quantityOf (r :: behind) - m) = _
    congr 1
    omega
  simp only [totals, entries_settleLit _ _ _ _ h, hcut, Lots.rest]
  -- The queue is empty exactly where its total is zero.
  by_cases hempty : litQueue (r.filled m) behind = []
  · have hzero : levelLots.size (price, quantityOf (litQueue (r.filled m) behind)) = 0 :=
      congrArg quantityOf hempty
    rw [if_pos hempty, if_pos hzero]
    rfl
  · have hzero : ¬ levelLots.size (price, quantityOf (litQueue (r.filled m) behind)) = 0 := by
      intro hzero
      apply hempty
      refine eq_nil_of_quantityOf (fun x hx => ?_) hzero
      obtain ⟨r', hr', hperm⟩ := litQueue_perm (r.filled m) behind
      rcases List.mem_append.mp (hperm.mem_iff.mp hx) with hx | hx
      · obtain ⟨hne, rfl⟩ := mem_kept.mp hx
        exact Nat.pos_of_ne_zero hne
      · exact hpos x hx
    rw [if_neg hempty, if_neg hzero]
    rfl

/-- An iteration of the lit walk takes from the total of the best level. -/
theorem matchLitBody_totals {side : Side} {o o' : Order} {s s' : MatchingEngine} (hq : s.Queued)
    (h : matchLitBody side (o, s) = .ok (some (o', s'))) :
    ∃ price quantity levels m, s.totals.levels side.opposite = (price, quantity) :: levels ∧
      marketable side o.price price = true ∧ 0 < m ∧ m ≤ o.quantity ∧ m ≤ quantity ∧
      o' = o.filled m ∧
      s'.totals = s.totals.setLevels side.opposite
        (levelLots.rest (levelLots.cut (price, quantity) m) ++ levels) ∧
      Executes s s' (fun p => if p = price then m else 0) [] := by
  obtain ⟨price, r, behind, levels, m, hentries, hmarket, hm, hpos, hle, rfl, rfl⟩ :=
    matchLitBody_some h
  have hlevel : ∀ x ∈ r :: behind, RestingOrder.RestsAt side.opposite price x := by
    have hlevels := hq.level side.opposite
    rw [hentries] at hlevels
    exact (hlevels _ List.mem_cons_self).2
  refine ⟨price, quantityOf (r :: behind), levelTotals levels, m, ?_, hmarket, hpos, by omega, ?_,
    rfl, ?_, ?_⟩
  · simp only [totals, hentries]
    rfl
  · rw [quantityOf_cons]
    omega
  · ext1
    · rw [funext_iff, forall_side side.opposite]
      constructor
      · rw [Totals.levels_setLevels]
        exact levels_settleLit (fun x hx => (hlevel x (List.mem_cons_of_mem _ hx)).quantity_pos) hle
          (by simpa using hentries)
      · rw [Totals.levels_setLevels_of_ne _ (Side.opposite_ne _)]
        simp only [totals, book_settleLit_of_ne _ _ _ _ (Side.opposite_ne _), book_recordFill]
    · funext x
      simp only [totals, Totals.pool_setLevels, pool_settleLit, pool_recordFill]
  · exact .recordFill (trades_settleLit _ _ _ _) (executionListener_settleLit _ _ _ _)

/-- The quantities of two stretches of levels at a price add up. -/
theorem depthAt_append (price : ℤ) (levels levels' : List (ℤ × ℕ)) :
    depthAt price (levels ++ levels') = depthAt price levels + depthAt price levels' := by
  induction levels with
  | nil => exact (Nat.zero_add _).symm
  | cons level levels ih => rw [List.cons_append, depthAt, depthAt, ih, Nat.add_assoc]

/-- What is left of a level after a bite off it. -/
theorem depthAt_bite {price : ℤ} {quantity m : ℕ} (hle : m ≤ quantity) (p : ℤ)
    (levels : List (ℤ × ℕ)) :
    (if p = price then m else 0) +
        depthAt p (levelLots.rest (levelLots.cut (price, quantity) m) ++ levels) =
      depthAt p ((price, quantity) :: levels) := by
  have hrest : depthAt p (levelLots.rest (levelLots.cut (price, quantity) m)) =
      if price = p then quantity - m else 0 := by
    unfold Lots.rest
    split_ifs with hzero hprice hprice
    · exact hzero.symm
    · rfl
    · simp [depthAt, levelLots, hprice]
    · simp [depthAt, levelLots, hprice]
  rw [depthAt_append, hrest, depthAt]
  simp only [eq_comm (a := p)]
  split_ifs <;> omega

/-- A bitten level stays on the side of the limit that it is on, with what is left of it. -/
theorem filter_rest_cut (pass : ℤ → Bool) (price : ℤ) (quantity m : ℕ) :
    (levelLots.rest (levelLots.cut (price, quantity) m)).filter (fun l => pass l.1) =
      if pass price then levelLots.rest (levelLots.cut (price, quantity) m) else [] := by
  unfold Lots.rest
  split_ifs with hzero hpass hpass
  · rfl
  · rfl
  · exact List.filter_cons_of_pos hpass
  · exact List.filter_cons_of_neg hpass

/-- What the lit walk of an order keeps on its way: what the need leaves of the levels within the
limit, the levels beyond it, and at each price the sum of what was executed and what is there. -/
structure Sweeping (side : Side) (o : Order) (s : MatchingEngine) (x : Order × MatchingEngine) :
    Prop where
  /-- The engine stays well formed. -/
  queued : x.2.Queued
  /-- Fills are all that happens to the order. -/
  filled : FilledFrom o x.1
  /-- The need that is left leaves of the levels what the whole need does. -/
  left : levelLots.left x.1.quantity (x.2.totals.within side o.price) =
    levelLots.left o.quantity (s.totals.within side o.price)
  /-- The levels beyond the limit stay. -/
  beyond : x.2.totals.beyond side o.price = s.totals.beyond side o.price
  /-- The other levels and the pools stay. -/
  totals : x.2.totals = s.totals.setLevels side.opposite (x.2.totals.levels side.opposite)
  /-- What was executed at a price and what is there add up to what was there. -/
  executes : ∃ executed, Executes s x.2 executed [] ∧
    ∀ p, executed p + depthAt p (x.2.totals.levels side.opposite) =
    depthAt p (s.totals.levels side.opposite)

/-- Before its first fill the lit walk has taken nothing. -/
theorem Sweeping.refl {s : MatchingEngine} (hq : s.Queued) (side : Side) (o : Order) :
    Sweeping side o s (o, s) :=
  ⟨hq, .refl o, rfl, rfl, (Totals.setLevels_self _ _).symm, _, .refl s, fun _ => Nat.zero_add _⟩

/-- A fill of the lit walk keeps what `Sweeping` says of it. -/
theorem Sweeping.step {side : Side} {o : Order} {s : MatchingEngine} {x y : Order × MatchingEngine}
    (h : Sweeping side o s x) (hbody : matchLitBody side x = .ok (some y)) :
    Sweeping side o s y := by
  obtain ⟨u, su⟩ := x
  obtain ⟨v, sv⟩ := y
  obtain ⟨hqu, hfilled, hleft, hbeyond, htotals, executed, hexecutes, hdepth⟩ := h
  obtain ⟨price, quantity, levels, m, hlevels, hmarket, hpos, hneed, hsize, rfl, hstep, hmore⟩ :=
    matchLitBody_totals hqu hbody
  simp only at hfilled hleft hbeyond htotals hexecutes hdepth
  rw [hfilled.price] at hmarket
  refine ⟨hqu.matchLitBody hbody, hfilled.filled m, ?_, ?_, ?_, _, hexecutes.trans hmore,
    fun p => ?_⟩
  · have hwithin : su.totals.within side o.price =
        (price, quantity) :: levels.filter fun level => marketable side o.price level.1 := by
      rw [Totals.within, hlevels]
      exact List.filter_cons_of_pos hmarket
    rw [← hleft, hwithin, Order.filled_quantity, hstep, Totals.within, Totals.levels_setLevels,
      List.filter_append, filter_rest_cut (marketable side o.price), if_pos hmarket]
    exact Lots.left_bite hneed hsize hpos _
  · have hbeyond' : su.totals.beyond side o.price = levels.filter fun level =>
        !marketable side o.price level.1 := by
      rw [Totals.beyond, hlevels]
      exact List.filter_cons_of_neg (by simp [hmarket])
    rw [← hbeyond, hbeyond', hstep, Totals.beyond, Totals.levels_setLevels, List.filter_append,
      filter_rest_cut fun p => !marketable side o.price p, if_neg (by simp [hmarket])]
    rfl
  · rw [hstep, Totals.levels_setLevels, htotals, Totals.setLevels_setLevels]
  · have hbite := @depthAt_bite price _ _ hsize p levels
    have hbefore := hdepth p
    rw [hlevels] at hbefore
    rw [hstep, Totals.levels_setLevels]
    omega

/-- The lit walk ends with what `Sweeping` says of it. -/
theorem sweeping_matchLit {side : Side} {o o' : Order} {s s' : MatchingEngine} (hq : s.Queued)
    (h : matchLit side o s = .ok (o', s')) : Sweeping side o s (o', s') :=
  (whileLoop_inv h (Sweeping side o s) (.refl hq side o) fun _ _ hu hbody => hu.step hbody).1

/-- The lit walk takes its need from the levels within the limit, best first, and executes at each
price what the level loses. -/
theorem matchLit_totals {side : Side} {o o' : Order} {s s' : MatchingEngine} (hq : s.Queued)
    (h : matchLit side o s = .ok (o', s')) :
    s'.totals = s.totals.sweep side o.price o.quantity ∧
      o'.quantity = o.quantity - quantityAll (s.totals.within side o.price) ∧
      Executes s s' (fun p => depthAt p (s.totals.levels side.opposite) -
        depthAt p (s'.totals.levels side.opposite)) [] := by
  obtain ⟨-, hfilled, hleft, hbeyond, htotals, executed, hexecutes, hdepth⟩ :=
    sweeping_matchLit hq h
  simp only at hfilled hleft hbeyond htotals hexecutes hdepth
  -- At the end nothing is needed any more, or nothing is left within the limit.
  have hwithin : s'.totals.within side o.price =
      levelLots.left o.quantity (s.totals.within side o.price) := by
    rcases matchLit_exhausts h with hdone | hout
    · rw [← hleft, hdone, Lots.left_zero]
    · have hnone : s'.totals.within side o.price = [] := by
        rw [hfilled.price] at hout
        rw [within_totals, levelTotals, levelsWithin, List.map_eq_nil_iff, List.filter_eq_nil_iff]
        intro level hlevel
        rw [hout _ (SortedMap.mem_keys.mpr ⟨_, hlevel⟩)]
        exact Bool.false_ne_true
      rw [← hleft, hnone]
      rfl
  refine ⟨?_, ?_, hexecutes.congr fun p => ?_⟩
  · rw [htotals, ← within_append_beyond s' side o.price, hwithin, hbeyond]
    rfl
  · rw [quantityAll_within]
    exact (matchLit_quantity h).1
  · have := hdepth p
    omega

/-- The walk over a pool takes from its total what the order needs, at the midpoint. -/
theorem matchPegPool_totals {mid : ℤ} {o o' : Order} {s s' : MatchingEngine}
    (h : matchPegPool o mid s = .ok (o', s')) :
    s'.totals = s.totals.setPool o.side.opposite
        (s.totals.pool o.side.opposite - min o.quantity (s.totals.pool o.side.opposite)) ∧
      Executes s s' (fun p => if p = mid then min o.quantity (s.totals.pool o.side.opposite) else 0)
      [] := by
  -- The order and the pool lose the same.
  have hinv := whileLoop_inv h (fun x => FilledFrom o x.1 ∧ ∃ done,
    done + x.1.quantity = o.quantity ∧
    done ≤ s.totals.pool o.side.opposite ∧
    x.2.totals = s.totals.setPool o.side.opposite (s.totals.pool o.side.opposite - done) ∧
    Executes s x.2 (fun p => if p = mid then done else 0) [])
    ⟨.refl o, 0, Nat.zero_add _, Nat.zero_le _, (Totals.setPool_self _ _).symm, ?_⟩ ?_
  · obtain ⟨⟨hfilled, done, hdone, hle, htotals, hexecutes⟩, hend⟩ := hinv
    simp only at hfilled hdone htotals hexecutes
    have hall : done = min o.quantity (s.totals.pool o.side.opposite) := by
      rcases matchPegPoolBody_none hend with hzero | hempty
      · omega
      · rw [hfilled.side] at hempty
        have hpool : s'.totals.pool o.side.opposite = 0 := congrArg quantityOf hempty
        rw [htotals, Totals.pool_setPool] at hpool
        omega
    rw [← hall]
    exact ⟨htotals, hexecutes⟩
  · exact (Executes.refl s).congr fun p => (ite_self 0).symm
  · rintro ⟨u, su⟩ ⟨v, sv⟩ ⟨hfilled, done, hdone, hle, htotals, hexecutes⟩ hbody
    obtain ⟨m, hpos, hneed, hsize, rfl, hstep, hmore⟩ := matchPegPoolBody_totals hbody
    simp only at hfilled hdone htotals hexecutes
    rw [hfilled.side, htotals, Totals.pool_setPool] at hsize
    rw [hfilled.side] at hstep
    refine ⟨hfilled.filled m, done + m, ?_, by omega, ?_, (hexecutes.trans hmore).congr fun p => ?_⟩
    · rw [Order.filled_quantity]
      omega
    · rw [hstep, htotals, Totals.setPool_setPool, Totals.pool_setPool, Nat.sub_sub]
    · split_ifs <;> rfl

/-- The peg step takes from the opposite pool what the order may take. -/
theorem pegStep_totals {o o' : Order} {s s' : MatchingEngine} (h : pegStep o s = .ok (o', s')) :
    s'.totals = s.totals.takePegs o ∧ o'.quantity = o.quantity - s.totals.pegs o ∧
      Executes s s' (fun p => if p = s.mid then min o.quantity (s.totals.pegs o) else 0) [] := by
  have hquantity := (pegStep_quantity h).1
  rw [← pegs_totals] at hquantity
  simp only [pegStep] at h
  unfold Totals.takePegs
  split_ifs at h with hmid
  · have hpegs : s.totals.pegs o = s.totals.pool o.side.opposite := by
      rw [Totals.pegs, mid_totals, if_pos hmid]
    rw [hpegs] at hquantity ⊢
    obtain ⟨htotals, hexecutes⟩ := matchPegPool_totals h
    exact ⟨htotals, hquantity, hexecutes⟩
  · have hpegs : s.totals.pegs o = 0 := by
      rw [Totals.pegs, mid_totals, if_neg hmid]
    obtain ⟨rfl, rfl⟩ := Prod.mk.inj (Except.ok.inj h)
    rw [hpegs, Nat.min_zero, Nat.sub_zero]
    exact ⟨(Totals.setPool_self _ _).symm, rfl, (Executes.refl s).congr fun p => (ite_self 0).symm⟩

/-- A fill of the two heads takes from the totals of both pools. -/
theorem crossPegPoolsBody_totals {mid : ℤ} {s s' : MatchingEngine}
    (h : crossPegPoolsBody mid s = .ok (some s')) :
    ∃ m, m ≤ s.totals.pool .buy ∧ m ≤ s.totals.pool .sell ∧
      s'.totals = s.totals.takeBoth m ∧
      Executes s s' (fun p => if p = mid then m else 0) [] := by
  obtain ⟨bid, bids, ask, asks, m, hbids, hasks, hm, hpos, rfl⟩ := crossPegPoolsBody_some h
  have hbid := quantityOf_pegQueue bids (r := bid) (m := m) (by omega)
  have hask := quantityOf_pegQueue asks (r := ask) (m := m) (by omega)
  have hbuy : s.totals.pool .buy = quantityOf (bid :: bids) := congrArg quantityOf hbids
  have hsell : s.totals.pool .sell = quantityOf (ask :: asks) := congrArg quantityOf hasks
  refine ⟨m, by omega, by omega, ?_, ?_⟩
  · ext1
    · funext side
      simp only [totals, Totals.levels_takeBoth, book_settleHead, book_recordTrade]
    · rw [funext_iff, forall_side .buy]
      simp only [Totals.pool_takeBoth, Side.opposite, hbuy, hsell]
      constructor
      · simp only [totals]
        rw [pool_settleHead_of_ne _ _ _ _ (by decide), pool_settleHead]
        omega
      · simp only [totals]
        rw [pool_settleHead]
        omega
  · have htrades := (trades_settleHead _ .sell (ask.filled m) asks).trans
      ((trades_settleHead _ .buy (bid.filled m) bids).trans
        (s.trades_recordTrade (crossRoles bid ask m).1.toOrder
        (crossRoles bid ask m).2.toOrder mid m (bid.filled m).toOrder (ask.filled m).toOrder))
    have hlistener := (executionListener_settleHead _ .sell (ask.filled m) asks).trans
      ((executionListener_settleHead _ .buy (bid.filled m) bids).trans
        (s.executionListener_recordTrade
        (crossRoles bid ask m).1.toOrder (crossRoles bid ask m).2.toOrder mid m
          (bid.filled m).toOrder
        (ask.filled m).toOrder))
    exact Executes.trade htrades hlistener rfl

/-- The pool cross takes the smaller pool total from both, at the midpoint. -/
theorem crossPegPools_totals {s t : MatchingEngine} (h : s.crossPegPools = .ok t) :
    t.totals = s.totals.cross ∧
      Executes s t (fun p => if p = s.mid then s.totals.crossing else 0) [] := by
  simp only [crossPegPools] at h
  unfold Totals.cross Totals.crossing
  rw [mid_totals]
  split_ifs at h ⊢ with hmid
  · obtain rfl := Except.ok.inj h
    exact ⟨rfl, (Executes.refl s).congr fun p => (ite_self 0).symm⟩
  · have hinv := whileLoop_inv h (fun x => ∃ done, done ≤ s.totals.pool .buy ∧
      done ≤ s.totals.pool .sell ∧
      x.totals = s.totals.takeBoth done ∧ Executes s x (fun p => if p = s.mid then done else 0) [])
      ⟨0, Nat.zero_le _, Nat.zero_le _, rfl, (Executes.refl s).congr fun p => (ite_self 0).symm⟩ ?_
    · obtain ⟨⟨done, hbuy, hsell, htotals, hexecutes⟩, hend⟩ := hinv
      have hall : done = min (s.totals.pool .buy) (s.totals.pool .sell) := by
        rcases crossPegPoolsBody_none hend with hempty | hempty
        · have hpool : t.totals.pool .buy = 0 := congrArg quantityOf hempty
          rw [htotals, Totals.pool_takeBoth] at hpool
          omega
        · have hpool : t.totals.pool .sell = 0 := congrArg quantityOf hempty
          rw [htotals, Totals.pool_takeBoth] at hpool
          omega
      rw [← hall]
      exact ⟨htotals, hexecutes⟩
    · rintro u v ⟨done, hbuy, hsell, htotals, hexecutes⟩ hbody
      obtain ⟨m, hmbuy, hmsell, hstep, hmore⟩ := crossPegPoolsBody_totals hbody
      rw [htotals, Totals.pool_takeBoth] at hmbuy hmsell
      refine ⟨done + m, by omega, by omega, ?_, (hexecutes.trans hmore).congr fun p => ?_⟩
      · rw [hstep, htotals]
        ext1
        · rfl
        · funext side
          exact Nat.sub_sub _ _ _
      · split_ifs <;> rfl

/-! ## The end of an order -/

/-- The object of an order that comes to rest has the quantity of the order. -/
theorem nextObject_quantity (s : MatchingEngine) (o : Order) :
    (s.nextObject o.refreshDisplay).quantity = o.quantity := rfl

/-- What an upsert of a total does to the totals is what the upsert of the queue does to the
queues. -/
theorem levelTotals_upsert {side : Side} {price : ℤ} {r : RestingOrder}
    (levels : List (ℤ × List RestingOrder)) :
    levelTotals
      (SortedMap.upsertEntries (Better side) price (fun queue => queue.getD [] ++ [r]) levels) =
      SortedMap.upsertEntries (Better side) price (fun old => old.getD 0 + r.quantity)
      (levelTotals levels) := by
  induction levels with
  | nil =>
    simp [SortedMap.upsertEntries, levelTotals]
  | cons level levels ih =>
    rw [levelTotals_cons]
    unfold SortedMap.upsertEntries
    split_ifs
    · simp [levelTotals]
    · simp [levelTotals]
    · rw [levelTotals_cons, ih]

/-- An order that comes to rest adds its quantity to its level. -/
theorem totals_addToBook (s : MatchingEngine) (o : Order) :
    (s.addToBook o).totals = s.totals.restLit o.side o.price o.quantity := by
  unfold Totals.restLit
  ext1
  · rw [funext_iff, forall_side o.side]
    constructor
    · rw [Totals.levels_setLevels]
      simp only [totals]
      rw [← s.nextObject_quantity o, ← levelTotals_upsert, upsert_addToBook]
    · rw [Totals.levels_setLevels_of_ne _ (Side.opposite_ne _)]
      simp only [totals, book_addToBook_of_ne _ _ (Side.opposite_ne _)]
  · funext side
    simp only [totals, pool_addToBook, Totals.pool_setLevels]

/-- A peg that comes to rest adds its quantity to its pool. -/
theorem totals_restPeg (s : MatchingEngine) (o : Order) :
    (s.restPeg o).totals = s.totals.restPeg o.side o.quantity := by
  unfold Totals.restPeg
  ext1
  · funext side
    simp only [totals, book_restPeg, Totals.levels_setPool]
  · rw [funext_iff, forall_side o.side]
    constructor
    · rw [Totals.pool_setPool]
      simp only [totals, pool_restPeg, quantityOf_append]
      rfl
    · rw [Totals.pool_setPool_of_ne _ (Side.opposite_ne _)]
      simp only [totals, pool_restPeg_of_ne _ _ (Side.opposite_ne _)]

/-- The totals depend on the books and the pools. -/
theorem totals_congr {s t : MatchingEngine} (hbook : ∀ side, t.book side = s.book side)
    (hpool : ∀ side, t.pool side = s.pool side) : t.totals = s.totals := by
  ext1
  · funext side
    simp only [totals, hbook]
  · funext side
    simp only [totals, hpool]

/-- What does not rest expires, and leaves the totals alone. -/
theorem dispose_totals (s : MatchingEngine) (o : Order) (h : ¬ (o.quantity > 0 ∧ o.tif = .gtc)) :
    (s.dispose o).totals = s.totals ∧
      Executes s (s.dispose o) (fun _ => 0) (Totals.ending o o.quantity) := by
  refine ⟨totals_congr (fun side => book_dispose _ _ side) fun side => pool_dispose _ _ side, ?_⟩
  unfold dispose Totals.ending
  by_cases hpos : o.quantity > 0
  · have hgtc : ¬ o.tif = .gtc := fun hgtc => h ⟨hpos, hgtc⟩
    rw [if_pos hpos, if_neg (by omega), if_neg hgtc]
    exact @Executes.ended s _ [.onExpired o.orderID o.quantity] rfl rfl
  · rw [if_neg hpos, if_pos (by omega)]
    exact @Executes.ended s _ [] rfl (List.append_nil _).symm

/-- What is left of a lit order rests at its price, or is disposed of. -/
theorem disposeLit_totals (s : MatchingEngine) (o : Order) :
    (s.disposeLit o).totals =
        (if o.quantity > 0 ∧ o.tif = .gtc then s.totals.restLit o.side o.price o.quantity
          else s.totals) ∧
      Executes s (s.disposeLit o) (fun _ => 0) (Totals.ending o o.quantity) := by
  unfold disposeLit
  by_cases hrest : o.quantity > 0 ∧ o.tif = .gtc
  · rw [if_pos hrest, if_pos hrest, ← totals_addToBook]
    refine ⟨totals_congr (fun side => book_onAccepted _ _ side) fun side =>
      pool_onAccepted _ _ side, ?_⟩
    rw [Totals.ending, if_neg (Nat.pos_iff_ne_zero.mp hrest.1), if_pos hrest.2]
    have hlistener : ((s.addToBook o).onAccepted o).executionListener =
        s.executionListener ++ [.onAccepted o.orderID o.price o.quantity] :=
      congrArg (· ++ _) (executionListener_addToBook s o)
    exact @Executes.ended s ((s.addToBook o).onAccepted o) _ (trades_addToBook s o) hlistener
  · rw [if_neg hrest, if_neg hrest]
    exact s.dispose_totals o hrest

/-- What is left of a peg rests in its pool, or is disposed of. -/
theorem disposePeg_totals (s : MatchingEngine) (o : Order) :
    (s.disposePeg o).totals =
        (if o.quantity > 0 ∧ o.tif = .gtc then s.totals.restPeg o.side o.quantity else s.totals) ∧
      Executes s (s.disposePeg o) (fun _ => 0) (Totals.ending o o.quantity) := by
  unfold disposePeg
  by_cases hrest : o.quantity > 0 ∧ o.tif = .gtc
  · rw [if_pos hrest, if_pos hrest]
    refine ⟨s.totals_restPeg o, ?_⟩
    rw [Totals.ending, if_neg (Nat.pos_iff_ne_zero.mp hrest.1), if_pos hrest.2]
    exact Executes.ended (trades_restPeg s o) (executionListener_restPeg s o)
  · rw [if_neg hrest, if_neg hrest]
    exact s.dispose_totals o hrest

/-! ## The probe -/

/-- The quantities of the resting orders are `int`s. -/
def IntSized (s : MatchingEngine) : Prop := ∀ r ∈ s.resting, (r.quantity : ℤ) ≤ intMax

/-- A sum below an `int` need does not wrap when an `int` is added. -/
theorem probeQueue_eq_of_int {needed available : ℤ} {queue : List RestingOrder}
    (hneeded : needed ≤ intMax) (h0 : -2^63 ≤ available) (hlt : available < needed)
    (hint : ∀ r ∈ queue, (r.quantity : ℤ) ≤ intMax) :
    probeQueue needed available queue =
      if needed ≤ available + quantityOf queue then none
      else some (available + quantityOf queue) := by
  apply probeQueue_eq hlt
  rintro pre r ⟨post, rfl⟩ hbelow
  have hr := hint r (by simp)
  unfold intMax at hneeded hr
  apply toLong_of_fits
  · omega
  · unfold longMax
    omega

/-- The probe of a fill-or-kill order depends on the totals only. -/
theorem canFill_totals {s : MatchingEngine} (hint : s.IntSized) {o : Order}
    (ho : (o.quantity : ℤ) ≤ intMax) (hpos : 0 < o.quantity) :
    s.totals.canFill o = s.canFillCompletely o := by
  have hsorted := (s.book o.side.opposite).sorted
  have htotal : s.pegPoolTotal o.side = toLong (s.totals.pool o.side.opposite) := by
    have hfold := foldl_toLong (fun r : RestingOrder => r.quantity) (s.pool o.side.opposite) 0
    rw [zero_add] at hfold
    exact hfold
  have hlow := le_toLong (s.totals.pool o.side.opposite)
  have hlevels : ∀ {available : ℤ}, -2^63 ≤ available → available < o.quantity →
      probeLevels o.side o.price o.quantity available (s.book o.side.opposite).entries =
        decide (available + quantityAll (s.totals.within o.side o.price) ≥ o.quantity) := by
    intro available h0 hlt
    rw [probeLevels_eq_probeQueue hsorted, probeQueue_eq_of_int ho h0 hlt, quantityAll_within]
    · unfold quantityWithin
      split_ifs with hle
      · simp [hle]
      · simp only [Option.elim_some]
    · intro r hr
      obtain ⟨level, hlevel, hr⟩ := List.mem_flatMap.mp hr
      exact hint r
        (mem_resting.mpr ⟨_, .inl (mem_orders.mpr ⟨level, List.mem_of_mem_filter hlevel, hr⟩)⟩)
  unfold Totals.canFill canFillCompletely
  rw [mid_totals]
  cases htype : o.ordType with
  | pegMid =>
    simp only
    rw [htotal]
    by_cases hmid : s.mid = Prices.na
    · rw [if_pos hmid]
      simp [hmid]
    · rw [if_neg hmid]
      simp [hmid]
  | limit =>
    simp only
    by_cases hcross : s.mid ≠ Prices.na ∧ crossesMid o.side o.price s.mid = true
    · have hlong : toLong (0 + s.pegPoolTotal o.side) = toLong (s.totals.pool o.side.opposite) := by
        rw [htotal, zero_add]
        exact toLong_of_fits hlow (toLong_le _)
      rw [if_pos hcross, if_pos hcross, hlong]
      -- The levels are not looked at where the pool alone covers the order.
      split_ifs with hge
      · simp only [decide_eq_true_eq]
        omega
      · exact (hlevels hlow (by omega)).symm
    · rw [if_neg hcross, if_neg hcross]
      exact (hlevels (by decide) (by omega)).symm

/-! ## An admission -/

/-- How an order ends does not depend on what was filled of it, but for the quantity left. -/
theorem ending_filledFrom {o o' : Order} (h : FilledFrom o o') (left : ℕ) :
    Totals.ending o' left = Totals.ending o left := by
  unfold Totals.ending
  rw [h.orderID, h.tif, h.price]

/-- The engine refines what the totals say: the totals after an admission, and its outcome, are
those of `Totals.place`. -/
theorem addOrder_totals {s t : MatchingEngine} (hq : s.Queued) (hint : s.IntSized) {o : Order}
    (ho : (o.quantity : ℤ) ≤ intMax) (hpos : 0 < o.quantity) (h : s.addOrder o = .ok t) :
    s.totals.place o = (t.totals, outcome s o t) := by
  have hprobe := canFill_totals hint ho hpos
  unfold Totals.place
  rw [hprobe]
  rcases addOrder_cases h with ⟨hfok, hfail, rfl⟩ | ⟨hpass, o₁, s₁, hpeg, hrest⟩
  · -- The order is killed.
    have hkilled : o.tif = .fok ∧ ¬ s.canFillCompletely o = true := ⟨hfok, by simp [hfail]⟩
    have hexecutes : Executes s ((s.onExpired o).retire o) (fun _ => 0)
        [.onExpired o.orderID o.quantity] :=
      @Executes.ended s _ [.onExpired o.orderID o.quantity] rfl rfl
    rw [if_pos hkilled, hexecutes.outcome, decide_eq_true hkilled]
    exact congrArg (·, _) (totals_congr (fun side => rfl) fun side => rfl).symm
  have hnot : ¬ (o.tif = .fok ∧ ¬ s.canFillCompletely o = true) := fun hkilled =>
    hkilled.2 (hpass hkilled.1)
  rw [if_neg hnot]
  obtain ⟨htotals₁, hneed, hexecutes₁⟩ := pegStep_totals hpeg
  have hfrom := pegStep_filledFrom hpeg
  rcases hrest with ⟨htype, rfl⟩ | ⟨htype, o₂, s₂, hlit, hcross⟩
  · obtain ⟨htotals, hended⟩ := s₁.disposePeg_totals o₁
    have houtcome := (hexecutes₁.trans hended).outcome o
    rw [decide_eq_false hnot] at houtcome
    simp only [htype]
    rw [houtcome, htotals, hfrom.tif, hfrom.side, ending_filledFrom hfrom, hneed,
      htotals₁, mid_totals]
    rfl
  · obtain ⟨htotals₂, hleft, hexecutes₂⟩ := matchLit_totals (hq.pegStep hpeg) hlit
    obtain ⟨htotals₃, hended⟩ := s₂.disposeLit_totals o₂
    obtain ⟨htotals, hexecutes₄⟩ := crossPegPools_totals hcross
    have houtcome := (((hexecutes₁.trans hexecutes₂).trans hended).trans hexecutes₄).outcome o
    have hfrom₂ := hfrom.trans (matchLit_filledFrom hlit)
    have hmid : (s₂.disposeLit o₂).mid = (s₂.disposeLit o₂).totals.mid := (mid_totals _).symm
    rw [hneed, hfrom.price, htotals₁] at htotals₂ hleft
    rw [hfrom₂.tif, hfrom₂.side, hfrom₂.price, hleft, htotals₂] at htotals₃
    rw [decide_eq_false hnot, hmid, htotals₃, htotals₂, htotals₁, ending_filledFrom hfrom₂, hleft]
      at houtcome
    simp only [htype]
    rw [houtcome, htotals, htotals₃, mid_totals]
    simp

/-- An admission of an `int` quantity leaves `int` quantities. -/
theorem IntSized.addOrder {s t : MatchingEngine} (h : s.IntSized) (hq : s.Queued) {o : Order}
    (hv : o.Valid) (hpos : 0 < o.quantity) (ho : (o.quantity : ℤ) ≤ intMax)
    (hadd : s.addOrder o = .ok t) : t.IntSized := by
  have hkeeps := (addOrder_steps hq hv hpos hadd).keeps (P := fun a => (a.quantity : ℤ) ≤ intMax) ?_
    (fun a ha => ha)
    ⟨fun a ha => Option.mem_some.mp ha ▸ ho, h⟩
  · exact hkeeps.2
  · intro a m ha
    rw [Order.filled_quantity]
    omega

/-! ## States with the same totals -/

/-- The remaining quantity at a price of a side of the lit book. -/
def quantityAt (s : MatchingEngine) (side : Side) (price : ℤ) : ℕ :=
  quantityOf ((s.book side).orders.filter fun r => r.price = price)

/-- Two states agree on the quantity at every bid and ask price and in each peg pool. -/
structure SameTotals (s s' : MatchingEngine) : Prop where
  price : ∀ side price, s.quantityAt side price = s'.quantityAt side price
  pool : ∀ side, quantityOf (s.pool side) = quantityOf (s'.pool side)

/-- At a price of no level there is nothing. -/
theorem depthAt_of_ne {price : ℤ} {levels : List (ℤ × ℕ)} (h : ∀ level ∈ levels, level.1 ≠ price) :
    depthAt price levels = 0 := by
  induction levels with
  | nil => rfl
  | cons level levels ih =>
    obtain ⟨hfirst, hrest⟩ := List.forall_mem_cons.mp h
    rw [depthAt, if_neg hfirst, ih hrest]

/-- Among levels in the order of their prices, each with something at it, a level is told by the
depth at its price. -/
theorem mem_levels_iff {side : Side} {levels : List (ℤ × ℕ)}
    (hsorted : levels.Pairwise fun a b => Better side a.1 b.1)
    (hpos : ∀ level ∈ levels, 0 < level.2) (level : ℤ × ℕ) :
    level ∈ levels ↔ 0 < level.2 ∧ depthAt level.1 levels = level.2 := by
  induction levels with
  | nil =>
    refine ⟨fun h => absurd h List.not_mem_nil, ?_⟩
    rintro ⟨hlt, heq⟩
    exact absurd (hlt.trans_eq heq.symm) (Nat.lt_irrefl _)
  | cons first levels ih =>
    obtain ⟨hhead, hrest⟩ := List.pairwise_cons.mp hsorted
    obtain ⟨hfirst, hlevels⟩ := List.forall_mem_cons.mp hpos
    rw [List.mem_cons, ih hrest hlevels, depthAt]
    by_cases hprice : first.1 = level.1
    · have hne : ∀ l ∈ levels, l.1 ≠ level.1 := fun l hl =>
        hprice ▸ (ne_of_irrefl (r := Better side) (hhead l hl)).symm
      rw [if_pos hprice, depthAt_of_ne hne]
      constructor
      · rintro (rfl | ⟨hlt, heq⟩)
        · exact ⟨hfirst, rfl⟩
        · omega
      · rintro ⟨-, heq⟩
        exact .inl (Prod.ext hprice.symm heq.symm)
    · rw [if_neg hprice, Nat.zero_add]
      refine or_iff_right fun heq => hprice ?_
      rw [heq]

/-- The depth of a state at a price is the quantity of the orders with that price. -/
theorem Queued.depthAt_totals {s : MatchingEngine} (h : s.Queued) (side : Side) (price : ℤ) :
    depthAt price (s.totals.levels side) = s.quantityAt side price := by
  have hlevels : ∀ levels : List (ℤ × List RestingOrder),
      (∀ level ∈ levels, ∀ r ∈ level.2, r.price = level.1) →
      depthAt price (levelTotals levels) =
        quantityOf ((levels.flatMap Prod.snd).filter fun r => r.price = price) := by
    intro levels hprice
    induction levels with
    | nil => rfl
    | cons level levels ih =>
      obtain ⟨hfirst, hrest⟩ := List.forall_mem_cons.mp hprice
      rw [levelTotals_cons, depthAt, ih hrest, List.flatMap_cons, List.filter_append,
        quantityOf_append]
      congr 1
      -- The price of the orders at a level is that of the level.
      split_ifs with heq
      · rw [List.filter_eq_self.mpr fun r hr => by simpa using (hfirst r hr).trans heq]
      · rw [List.filter_eq_nil_iff.mpr fun r hr => by simpa [hfirst r hr] using heq]
        rfl
  exact hlevels _ fun level hlevel r hr => ((h.level side level hlevel).2 r hr).price_eq

/-- Each level of a state has something at it. -/
theorem Queued.totals_pos {s : MatchingEngine} (h : s.Queued) (side : Side) :
    ∀ level ∈ s.totals.levels side, 0 < level.2 := by
  refine List.forall_mem_map.mpr fun level hlevel => ?_
  obtain ⟨hne, hrests⟩ := h.level side level hlevel
  refine Nat.pos_of_ne_zero fun hzero => hne ?_
  exact eq_nil_of_quantityOf (fun r hr => (hrests r hr).quantity_pos) hzero

/-- States agree on the quantities exactly where they have the same totals. -/
theorem sameTotals_iff {s s' : MatchingEngine} (h : s.Queued) (h' : s'.Queued) :
    s.SameTotals s' ↔ s.totals = s'.totals := by
  constructor
  · rintro ⟨hprice, hpool⟩
    ext1
    · funext side
      refine SortedMap.eq_of_mem_iff (s.totals_sorted side) (s'.totals_sorted side) fun level => ?_
      rw [mem_levels_iff (s.totals_sorted side) (h.totals_pos side),
        mem_levels_iff (s'.totals_sorted side) (h'.totals_pos side), h.depthAt_totals,
        h'.depthAt_totals, hprice side level.1]
    · exact funext hpool
  · intro heq
    constructor
    · intro side price
      rw [← h.depthAt_totals, ← h'.depthAt_totals, heq]
    · exact fun side => congrFun (congrArg Totals.pool heq) side

/-- Admits orders one after the other, and keeps the outcome of each and the state after it. -/
def admissions : MatchingEngine → List Order → Except Exn (List (Outcome × MatchingEngine))
  | _, [] => .ok []
  | s, o :: orders => do
    let t ← s.addOrder o
    let rest ← t.admissions orders
    return (outcome s o t, t) :: rest

/-- How the quantity at a price is split among orders, and how much of it is displayed, does not
change what is traded in total. The quantities are `int`s, as in the source. From two states that
agree on the quantity at every price and in each pool, any sequence of orders comes to the same:
each order executes the same quantity at each price, leaves the same remainder to rest or to expire,
is killed in both or in none, and leaves states that agree again. -/
theorem hidden_size_immaterial {s s' : MatchingEngine} (h : s.Reachable) (h' : s'.Reachable)
    (hint : s.IntSized) (hint' : s'.IntSized) (hsame : s.SameTotals s') (orders : List Order)
    (horders : ∀ o ∈ orders, o.Constructed ∧ (o.quantity : ℤ) ≤ intMax) :
    ∃ run run', s.admissions orders = .ok run ∧ s'.admissions orders = .ok run' ∧
      List.Forall₂ (fun x x' => x.1 = x'.1 ∧ x.2.SameTotals x'.2) run run' := by
  induction orders generalizing s s' with
  | nil => exact ⟨[], [], rfl, rfl, .nil⟩
  | cons o orders ih =>
    obtain ⟨⟨ho, hsize⟩, hrest⟩ := List.forall_mem_cons.mp horders
    obtain ⟨hv, hpos⟩ := ho.valid
    obtain ⟨t, ht⟩ := h.addOrder_total ho
    obtain ⟨t', ht'⟩ := h'.addOrder_total ho
    have hreach := h.addOrder ho ht
    have hreach' := h'.addOrder ho ht'
    -- Both admissions do what the common totals say.
    have htotals := addOrder_totals h.queued hint hsize hpos ht
    have htotals' := addOrder_totals h'.queued hint' hsize hpos ht'
    rw [(sameTotals_iff h.queued h'.queued).mp hsame, htotals'] at htotals
    obtain ⟨hend, houtcome⟩ := Prod.mk.inj htotals
    have hagain := (sameTotals_iff hreach.queued hreach'.queued).mpr hend.symm
    obtain ⟨run, run', hrun, hrun', hforall⟩ :=
      ih hreach hreach' (hint.addOrder h.queued hv hpos hsize ht)
      (hint'.addOrder h'.queued hv hpos hsize ht') hagain hrest
    refine ⟨(outcome s o t, t) :: run, (outcome s' o t', t') :: run', ?_, ?_,
      .cons ⟨houtcome.symm, hagain⟩ hforall⟩
    · rw [admissions, ht, ok_bind, hrun]
      rfl
    · rw [admissions, ht', ok_bind, hrun']
      rfl

/-- An ask of 30 that shows 10 of it, and a bid. -/
def hiddenCalls : List Call :=
  [.addOrder ⟨.built 1 1 .sell 30 10000 1 .gtc 10 .limit,
    1, 1, some .sell, 30, 10000, 1, some .gtc, 10, some .limit, rfl⟩,
   .addOrder ⟨.built 2 2 .buy 5 9800 1 .gtc 0 .limit,
    2, 2, some .buy, 5, 9800, 1, some .gtc, 0, some .limit, rfl⟩]

/-- Two asks that show the same 30, and the same bid. -/
def shownCalls : List Call :=
  [.addOrder ⟨.built 1 1 .sell 12 10000 1 .gtc 0 .limit,
    1, 1, some .sell, 12, 10000, 1, some .gtc, 0, some .limit, rfl⟩,
   .addOrder ⟨.built 2 2 .buy 5 9800 1 .gtc 0 .limit,
    2, 2, some .buy, 5, 9800, 1, some .gtc, 0, some .limit, rfl⟩,
   .addOrder ⟨.built 3 3 .sell 18 10000 1 .gtc 0 .limit,
    3, 3, some .sell, 18, 10000, 1, some .gtc, 0, some .limit, rfl⟩]

/-- A fill-or-kill buy of 25, and then a buy of 10 of which 5 come to rest. -/
theorem hidden_size_immaterial_shown :
    ∃ run run', (after hiddenCalls).admissions [.built 4 4 .buy 25 10000 1 .fok 0 .limit,
        .built 5 5 .buy 10 10000 1 .gtc 0 .limit] = .ok run ∧
      (after shownCalls).admissions [.built 4 4 .buy 25 10000 1 .fok 0 .limit,
        .built 5 5 .buy 10 10000 1 .gtc 0 .limit] = .ok run' ∧
      List.Forall₂ (fun x x' => x.1 = x'.1 ∧ x.2.SameTotals x'.2) run run' := by
  have hreach := reachable_after hiddenCalls
  have hreach' := reachable_after shownCalls
  have htotals : (after hiddenCalls).totals = (after shownCalls).totals := by
    ext1
    · funext side
      cases side <;> decide
    · funext side
      cases side <;> decide
  refine hidden_size_immaterial hreach hreach' ?_ ?_
    ((sameTotals_iff hreach.queued hreach'.queued).mpr htotals) _ ?_
  · unfold IntSized
    decide
  · unfold IntSized
    decide
  · refine List.forall_mem_cons.mpr
      ⟨⟨⟨4, 4, some .buy, 25, 10000, 1, some .fok, 0, some .limit, rfl⟩, by decide⟩, ?_⟩
    exact List.forall_mem_singleton.mpr
      ⟨⟨5, 5, some .buy, 10, 10000, 1, some .gtc, 0, some .limit, rfl⟩, by decide⟩

end MatchingEngine

end MatchingVenue
