import MatchingVenue.Engine.Runs

/-!
# Nothing stays crossed

Two facts about the prices at which the engine comes to rest. The lit book is neither crossed nor
locked: the lit walk stops only when the incoming order is done or no opposite level is left within
its limit, so what rests is behind every opposite level. And the peg pools are not both occupied
while there is a midpoint: the peg step empties one side of them, and the pool cross runs after the
only event that can create a midpoint, a lit order coming to rest.

Both need to know which part of the engine each phase leaves alone, which the first section says.
-/

namespace MatchingVenue.MatchingEngine

/-! ## What each phase leaves alone -/

/-- An iteration of the lit walk can only remove the best opposite level. -/
theorem keys_matchLitBody {side : Side} {o o' : Order} {s s' : MatchingEngine}
    (h : matchLitBody side (o, s) = .ok (some (o', s'))) :
    s'.book side = s.book side ∧ (∀ x, s'.pool x = s.pool x) ∧
      (s'.book side.opposite).keys ⊆ (s.book side.opposite).keys := by
  obtain ⟨p, r, behind, levels, m, hentries, -, -, -, -, -, rfl⟩ := matchLitBody_some h
  refine ⟨by simp, by simp, ?_⟩
  unfold SortedMap.keys
  rw [entries_settleLit _ _ _ _ (by simpa using hentries), hentries]
  -- The level goes when its queue is empty; otherwise its key stays.
  split_ifs
  · exact List.subset_cons_self _ _
  · exact List.Subset.refl _

/-- The lit walk leaves the own side of the order and the pools alone, and removes opposite
levels. -/
theorem keys_matchLit {side : Side} {o o' : Order} {s s' : MatchingEngine}
    (h : matchLit side o s = .ok (o', s')) :
    s'.book side = s.book side ∧ (∀ x, s'.pool x = s.pool x) ∧
      (s'.book side.opposite).keys ⊆ (s.book side.opposite).keys := by
  refine (whileLoop_inv h (fun x => x.2.book side = s.book side ∧ (∀ y, x.2.pool y = s.pool y) ∧
    (x.2.book side.opposite).keys ⊆ (s.book side.opposite).keys)
    ⟨rfl, fun _ => rfl, List.Subset.refl _⟩ ?_).1
  rintro ⟨u, su⟩ ⟨v, sv⟩ ⟨hbook, hpool, hkeys⟩ hbody
  obtain ⟨hbook', hpool', hkeys'⟩ := keys_matchLitBody hbody
  exact ⟨hbook'.trans hbook, fun y => (hpool' y).trans (hpool y), List.Subset.trans hkeys' hkeys⟩

/-- A level behind a level beyond the limit is beyond it. -/
theorem marketable_of_better {side : Side} {limit p q : ℤ} (hpq : Better side.opposite p q)
    (hp : marketable side limit p = false) : marketable side limit q = false := by
  cases side
  · simp only [marketable, Side.opposite, Better, decide_eq_false_iff_not] at hp hpq ⊢
    omega
  · simp only [marketable, Side.opposite, Better, decide_eq_false_iff_not] at hp hpq ⊢
    omega

/-- Where the lit walk leaves something of the order, no opposite level is within its limit. -/
theorem matchLit_exhausts {side : Side} {o o' : Order} {s s' : MatchingEngine}
    (h : matchLit side o s = .ok (o', s')) :
    o'.quantity = 0 ∨ ∀ p ∈ (s'.book side.opposite).keys, marketable side o'.price p = false := by
  apply (matchLitBody_none (whileLoop_steps h).2).imp_right
  intro hfirst p hp
  obtain ⟨queue, hp⟩ := SortedMap.mem_keys.mp hp
  have hne : (s'.book side.opposite).entries ≠ [] := List.ne_nil_of_mem hp
  -- The walk stopped at the best level, and the others are behind it.
  obtain ⟨⟨best, queue'⟩, levels, hentries⟩ := List.exists_cons_of_ne_nil hne
  have hbest := hfirst (best, queue') (by simp [hentries])
  rw [hentries] at hp
  rcases List.mem_cons.mp hp with heq | hp
  · obtain ⟨rfl, -⟩ := Prod.mk.inj heq
    exact hbest
  · exact marketable_of_better (SortedMap.lt_of_mem_rest hentries hp) hbest

/-- An iteration over a pool leaves the lit book and the own pool alone. -/
theorem pools_matchPegPoolBody {mid : ℤ} {o o' : Order} {s s' : MatchingEngine}
    (h : matchPegPoolBody mid (o, s) = .ok (some (o', s'))) :
    (∀ x, s'.book x = s.book x) ∧ s'.pool o.side = s.pool o.side ∧
      s.pool o.side.opposite ≠ [] := by
  obtain ⟨r, behind, m, hpool, -, -, -, rfl⟩ := matchPegPoolBody_some h
  refine ⟨by simp, by simp, ?_⟩
  rw [hpool]
  exact List.cons_ne_nil _ _

/-- The walk over a pool leaves the lit book and the own pool alone, and an empty pool empty. It
ends with the order done or the pool empty. -/
theorem pools_matchPegPool {mid : ℤ} {o o' : Order} {s s' : MatchingEngine}
    (h : matchPegPool o mid s = .ok (o', s')) :
    (∀ x, s'.book x = s.book x) ∧ s'.pool o.side = s.pool o.side ∧
      (s.pool o.side.opposite = [] → s'.pool o.side.opposite = []) ∧
      (o'.quantity = 0 ∨ s'.pool o.side.opposite = []) := by
  have hinv := whileLoop_inv h (fun x => x.1.side = o.side ∧ (∀ y, x.2.book y = s.book y) ∧
    x.2.pool o.side = s.pool o.side ∧
    (s.pool o.side.opposite = [] → x.2.pool o.side.opposite = []))
    ⟨rfl, fun _ => rfl, rfl, id⟩ ?_
  · obtain ⟨⟨hside, hbook, hown, hempty⟩, hend⟩ := hinv
    refine ⟨hbook, hown, hempty, ?_⟩
    rw [← hside]
    exact matchPegPoolBody_none hend
  · rintro ⟨u, su⟩ ⟨v, sv⟩ ⟨hu, hbook, hown, hempty⟩ hbody
    obtain ⟨hbook', hown', hne⟩ := pools_matchPegPoolBody hbody
    obtain ⟨_, _, _, -, -, -, rfl, -⟩ := matchPegPoolBody_some hbody
    simp only at hbook hown hempty hu
    rw [hu] at hown' hne
    refine ⟨hu, fun y => (hbook' y).trans (hbook y), hown'.trans hown, ?_⟩
    -- An iteration found an order in the pool, so the pool was not empty before it.
    intro hnil
    exact absurd (hempty hnil) hne

/-- The peg step leaves the lit book and the own pool alone, and an empty pool empty. Where it runs,
it ends with the order done or the pool empty. -/
theorem pools_pegStep {o o' : Order} {s s' : MatchingEngine} (h : pegStep o s = .ok (o', s')) :
    (∀ x, s'.book x = s.book x) ∧ s'.pool o.side = s.pool o.side ∧
      (s.pool o.side.opposite = [] → s'.pool o.side.opposite = []) ∧
      (s.mid ≠ Prices.na → o.ordType = .pegMid →
        o'.quantity = 0 ∨ s'.pool o.side.opposite = []) := by
  simp only [pegStep] at h
  split_ifs at h with hmid
  · obtain ⟨hbook, hown, hempty, hend⟩ := pools_matchPegPool h
    exact ⟨hbook, hown, hempty, fun _ _ => hend⟩
  · obtain ⟨rfl, rfl⟩ := Prod.mk.inj (Except.ok.inj h)
    exact ⟨fun _ => rfl, rfl, id, fun hna hpeg => absurd ⟨hna, .inl hpeg⟩ hmid⟩

/-- The pool cross leaves the lit book alone. Where there is a midpoint, it leaves a pool empty. -/
theorem pools_crossPegPools {s t : MatchingEngine} (h : s.crossPegPools = .ok t) :
    (∀ x, t.book x = s.book x) ∧ (s.mid ≠ Prices.na → t.pegBids = [] ∨ t.pegAsks = []) := by
  simp only [crossPegPools] at h
  split_ifs at h with hmid
  · obtain rfl := Except.ok.inj h
    exact ⟨fun _ => rfl, fun hna => absurd hmid hna⟩
  · have hinv := whileLoop_inv h (fun x => ∀ y, x.book y = s.book y) (fun _ => rfl) ?_
    · exact ⟨hinv.1, fun _ => crossPegPoolsBody_none hinv.2⟩
    · intro u v hu hbody y
      obtain ⟨_, _, _, _, _, -, -, -, -, rfl⟩ := crossPegPoolsBody_some hbody
      rw [book_settleHead, book_settleHead]
      exact hu y

/-- The end of a limit order leaves the other side of the book, the pools and the trades as they
are. -/
theorem disposeLit_frame (s : MatchingEngine) (o : Order) :
    (s.disposeLit o).book o.side.opposite = s.book o.side.opposite ∧
      (∀ x, (s.disposeLit o).pool x = s.pool x) ∧ (s.disposeLit o).trades = s.trades := by
  unfold disposeLit
  split_ifs
  · refine ⟨?_, fun x => ?_, ?_⟩
    · rw [book_onAccepted, book_addToBook_of_ne _ _ (Side.opposite_ne _)]
    · rw [pool_onAccepted, pool_addToBook]
    · exact trades_addToBook s o
  · refine ⟨book_dispose s o _, fun x => pool_dispose s o x, ?_⟩
    unfold dispose
    split_ifs <;> rfl

/-- A level of the book after an order came to rest is the level of the order or was there
before. -/
theorem keys_addToBook (s : MatchingEngine) (o : Order) {p : ℤ}
    (hp : p ∈ ((s.addToBook o).book o.side).keys) : p = o.price ∨ p ∈ (s.book o.side).keys := by
  unfold SortedMap.keys at hp ⊢
  rcases s.entries_addToBook o with ⟨pre, post, hold, -, hnew⟩ | ⟨pre, queue, post, hold, hnew⟩
  · rw [hnew] at hp
    rw [hold]
    simp only [List.map_append, List.map_cons, List.mem_append, List.mem_cons] at hp ⊢
    tauto
  · rw [hnew] at hp
    rw [hold]
    simp only [List.map_append, List.map_cons, List.mem_append, List.mem_cons] at hp ⊢
    tauto

/-- Taking an order out of its queue opens no level and fills no pool. -/
theorem keys_withdraw (s : MatchingEngine) (r : RestingOrder) :
    (∀ x, ((s.withdraw r).book x).keys ⊆ (s.book x).keys) ∧
      ∀ x, (s.withdraw r).pool x ⊆ s.pool x := by
  unfold withdraw
  -- A peg leaves its pool. A limit order leaves its level, which goes with its last order.
  split
  · refine ⟨fun x => by simp, ?_⟩
    rw [forall_side r.side]
    exact ⟨by simpa using List.eraseP_subset, by simp⟩
  · split
    · exact ⟨fun _ => List.Subset.refl _, fun _ => List.Subset.refl _⟩
    · simp only
      split_ifs
      · refine ⟨?_, fun x => by simp⟩
        rw [forall_side r.side]
        refine ⟨?_, by simp⟩
        simp only [book_setBook, SortedMap.keys, SortedMap.entries_erase]
        exact (List.filter_sublist.map _).subset
      · refine ⟨?_, fun x => by simp⟩
        rw [forall_side r.side]
        refine ⟨?_, by simp⟩
        simp only [book_setBook, SortedMap.keys, SortedMap.entries_replace, List.map_map]
        exact List.Subset.refl _

/-- A cancel opens no level and fills no pool. -/
theorem keys_cancelOrder (s : MatchingEngine) (orderID : ℤ) :
    (∀ x, ((s.cancelOrder orderID).1.book x).keys ⊆ (s.book x).keys) ∧
      ∀ x, (s.cancelOrder orderID).1.pool x ⊆ s.pool x := by
  unfold cancelOrder
  split
  · -- No order under the id, a reference to nothing, an order that was done: nothing moves.
    exact ⟨fun _ => List.Subset.refl _, fun _ => List.Subset.refl _⟩
  · simp only
    split
    · exact ⟨fun x => by simp, fun x => by simp⟩
    · rename_i r _
      split_ifs
      · exact ⟨fun x => by simp, fun x => by simp⟩
      · simpa using keys_withdraw ((s.unregister orderID).retire r.toOrder.cancel) r

/-! ## The lit book -/

/-- Every bid level is below every ask level. -/
def Uncrossed (s : MatchingEngine) : Prop := ∀ bid ∈ s.bids.keys, ∀ ask ∈ s.asks.keys, bid < ask

/-- The same, seen from either side: no level is marketable against the other side. -/
theorem uncrossed_iff (s : MatchingEngine) (side : Side) :
    s.Uncrossed ↔ ∀ own ∈ (s.book side).keys, ∀ contra ∈ (s.book side.opposite).keys,
      marketable side own contra = false := by
  cases side
  · simp only [Uncrossed, book, Side.opposite, marketable, decide_eq_false_iff_not, Int.not_le]
  · simp only [Uncrossed, book, Side.opposite, marketable, decide_eq_false_iff_not, Int.not_le]
    exact ⟨fun h own hown contra hcontra => h contra hcontra own hown,
      fun h bid hbid ask hask => h ask hask bid hbid⟩

/-- Fewer levels are not crossed either. -/
theorem Uncrossed.mono {s t : MatchingEngine} (h : s.Uncrossed)
    (hkeys : ∀ x, (t.book x).keys ⊆ (s.book x).keys) : t.Uncrossed :=
  fun bid hbid ask hask => h bid (hkeys .buy hbid) ask (hkeys .sell hask)

/-- An order that comes to rest behind every opposite level leaves the book uncrossed. -/
theorem Uncrossed.addToBook {s : MatchingEngine} (h : s.Uncrossed) {o : Order}
    (hbehind : ∀ p ∈ (s.book o.side.opposite).keys, marketable o.side o.price p = false) :
    (s.addToBook o).Uncrossed := by
  rw [uncrossed_iff _ o.side] at h ⊢
  intro own hown contra hcontra
  rw [book_addToBook_of_ne _ _ (Side.opposite_ne _)] at hcontra
  rcases keys_addToBook s o hown with rfl | hown
  · exact hbehind contra hcontra
  · exact h own hown contra hcontra

/-- An admission keeps the lit book uncrossed. -/
theorem Uncrossed.addOrder {s t : MatchingEngine} (h : s.Uncrossed) {o : Order}
    (hadd : s.addOrder o = .ok t) : t.Uncrossed := by
  rcases addOrder_cases hadd with ⟨-, -, rfl⟩ | ⟨-, o₁, s₁, hpeg, hrest⟩
  · exact h.mono fun x => by simp
  have hbook₁ := (pools_pegStep hpeg).1
  rcases hrest with ⟨-, rfl⟩ | ⟨-, o₂, s₂, hlit, hcross⟩
  · unfold disposePeg
    split_ifs
    · exact h.mono fun x => by simp [hbook₁]
    · exact h.mono fun x => by simp [hbook₁]
  -- The lit walk removes levels; the order then rests only if no opposite level was left for it.
  obtain ⟨hown, -, hkeys⟩ := keys_matchLit hlit
  have hside : o₂.side = o.side := ((pegStep_filledFrom hpeg).trans (matchLit_filledFrom hlit)).side
  have h₂ : s₂.Uncrossed := by
    refine h.mono ((forall_side o.side).mpr ⟨?_, ?_⟩)
    · rw [hown, hbook₁]
      exact List.Subset.refl _
    · rw [← hbook₁]
      exact hkeys
  have h₃ : (s₂.disposeLit o₂).Uncrossed := by
    unfold disposeLit
    split_ifs with hrest
    · have hbehind := (matchLit_exhausts hlit).resolve_left (by omega)
      rw [← hside] at hbehind
      exact (h₂.addToBook hbehind).mono fun x => by simp
    · exact h₂.mono fun x => by simp
  exact h₃.mono fun x => by rw [(pools_crossPegPools hcross).1 x]; exact List.Subset.refl _

/-- The lit book of a reachable state is uncrossed. -/
theorem Reachable.uncrossed {s : MatchingEngine} (h : s.Reachable) : s.Uncrossed := by
  refine h.induction (fun bid hbid => ?_) (fun s t o _ hs _ hadd => hs.addOrder hadd)
    fun s orderID _ hs => hs.mono (keys_cancelOrder s orderID).1
  simp at hbid

/-- The best bid is the price of the first level of the bids. -/
theorem getBestBid_eq {s : MatchingEngine} {p : ℤ} {queue levels}
    (h : s.bids.entries = (p, queue) :: levels) : s.getBestBid = p := by
  simp [getBestBid, SortedMap.firstKey, h]

/-- The best ask is the price of the first level of the asks. -/
theorem getBestAsk_eq {s : MatchingEngine} {p : ℤ} {queue levels}
    (h : s.asks.entries = (p, queue) :: levels) : s.getBestAsk = p := by
  simp [getBestAsk, SortedMap.firstKey, h]

/-- In a reachable state every resting bid price is below every resting ask price, and the best bid
below the best ask where there are both. -/
theorem lit_book_not_crossed {s : MatchingEngine} (h : s.Reachable) :
    (s.bids.entries ≠ [] → s.asks.entries ≠ [] → s.getBestBid < s.getBestAsk) ∧
      ∀ bid ∈ s.bids.orders, ∀ ask ∈ s.asks.orders, bid.price < ask.price := by
  have hq := h.queued
  constructor
  · intro hbids hasks
    obtain ⟨⟨p, bids⟩, restBids, hb⟩ := List.exists_cons_of_ne_nil hbids
    obtain ⟨⟨q, asks⟩, restAsks, ha⟩ := List.exists_cons_of_ne_nil hasks
    rw [getBestBid_eq hb, getBestAsk_eq ha]
    apply h.uncrossed
    · simp [hb]
    · simp [ha]
  · intro bid hbid ask hask
    -- The price of a resting limit order is the key of its level.
    obtain ⟨⟨p, bids⟩, hp, hbid⟩ := mem_orders.mp hbid
    obtain ⟨⟨q, asks⟩, hq', hask⟩ := mem_orders.mp hask
    calc bid.price = p := ((hq.level .buy _ hp).2 bid hbid).price_eq
      _ < q := h.uncrossed p (SortedMap.mem_keys.mpr ⟨_, hp⟩) q (SortedMap.mem_keys.mpr ⟨_, hq'⟩)
      _ = ask.price := (((hq.level .sell _ hq').2 ask hask).price_eq).symm

/-- The lit book of `quotedCalls` has both sides and is not crossed. -/
theorem lit_book_not_crossed_quoted :
    (after quotedCalls).getBestBid < (after quotedCalls).getBestAsk :=
  (lit_book_not_crossed (reachable_after quotedCalls)).1 (by decide) (by decide)

/-! ## The peg pools -/

/-- Where both sides of the lit book hold orders, a peg pool is empty. -/
def Settled (s : MatchingEngine) : Prop :=
  s.bids.entries ≠ [] → s.asks.entries ≠ [] → s.pegBids = [] ∨ s.pegAsks = []

/-- The same, seen from either side. -/
theorem settled_iff (s : MatchingEngine) (side : Side) :
    s.Settled ↔ ((s.book side).entries ≠ [] → (s.book side.opposite).entries ≠ [] →
      s.pool side = [] ∨ s.pool side.opposite = []) := by
  cases side
  · exact Iff.rfl
  · exact ⟨fun h hasks hbids => (h hbids hasks).symm, fun h hbids hasks => (h hasks hbids).symm⟩

/-- Half of a `long` that is even in units of two is not the sentinel of an absent price. -/
theorem tdiv_toLong_ne_na {x : ℤ} (h : x % 100 = 0) : (toLong x).tdiv 2 ≠ Prices.na := by
  obtain ⟨k, hk⟩ := toLong_eq_sub x
  rw [hk, Int.tdiv_eq_ediv_of_dvd (by omega), Prices.na]
  omega

/-- A book without prices has no levels. -/
theorem keys_eq_nil {side : Side} {book : Book side} : book.keys = [] ↔ book.entries = [] := by
  simp [SortedMap.keys]

/-- The midpoint between two tops, which are not the sentinel. -/
theorem mid_eq_of_ne {s : MatchingEngine} (hbid : s.getBestBid ≠ Prices.na)
    (hask : s.getBestAsk ≠ Prices.na) : s.mid = (toLong (s.getBestBid + s.getBestAsk)).tdiv 2 :=
  if_neg (not_or.mpr ⟨hbid, hask⟩)

/-- The best bid of a book with bids is a level of it: positive and on the tick. -/
theorem Queued.getBestBid_price {s : MatchingEngine} (h : s.Queued) (hbids : s.bids.entries ≠ []) :
    0 < s.getBestBid ∧ s.getBestBid % 100 = 0 := by
  obtain ⟨⟨p, queue⟩, levels, hb⟩ := List.exists_cons_of_ne_nil hbids
  rw [getBestBid_eq hb]
  exact h.level_price .buy (p, queue) (by simp [book, hb])

/-- The best ask of a book with asks is a level of it: positive and on the tick. -/
theorem Queued.getBestAsk_price {s : MatchingEngine} (h : s.Queued) (hasks : s.asks.entries ≠ []) :
    0 < s.getBestAsk ∧ s.getBestAsk % 100 = 0 := by
  obtain ⟨⟨p, queue⟩, levels, ha⟩ := List.exists_cons_of_ne_nil hasks
  rw [getBestAsk_eq ha]
  exact h.level_price .sell (p, queue) (by simp [book, ha])

/-- The midpoint of a book with orders on both sides. -/
theorem Queued.mid_eq {s : MatchingEngine} (h : s.Queued) (hbids : s.bids.entries ≠ [])
    (hasks : s.asks.entries ≠ []) : s.mid = (toLong (s.getBestBid + s.getBestAsk)).tdiv 2 := by
  have hbid := (h.getBestBid_price hbids).1
  have hask := (h.getBestAsk_price hasks).1
  refine mid_eq_of_ne ?_ ?_
  · unfold Prices.na
    omega
  · unfold Prices.na
    omega

/-- There is no midpoint exactly where a side of the lit book is empty: lit prices are on the tick,
so the sum of the tops, wrapped or not, is never halved to the sentinel. -/
theorem Queued.mid_eq_na_iff {s : MatchingEngine} (h : s.Queued) :
    s.mid = Prices.na ↔ s.bids.entries = [] ∨ s.asks.entries = [] := by
  by_cases hbids : s.bids.entries = []
  · have : s.getBestBid = Prices.na := by simp [getBestBid, SortedMap.firstKey, hbids]
    simp [mid, this, hbids]
  by_cases hasks : s.asks.entries = []
  · have : s.getBestAsk = Prices.na := by simp [getBestAsk, SortedMap.firstKey, hasks]
    simp [mid, this, hasks]
  have hbid := (h.getBestBid_price hbids).2
  have hask := (h.getBestAsk_price hasks).2
  simp only [hbids, hasks, or_self, iff_false]
  rw [h.mid_eq hbids hasks]
  exact tdiv_toLong_ne_na (by omega)

/-- There is a midpoint where both sides of the lit book hold orders. -/
theorem Queued.mid_ne_na {s : MatchingEngine} (h : s.Queued) (side : Side)
    (hown : (s.book side).entries ≠ []) (hcontra : (s.book side.opposite).entries ≠ []) :
    s.mid ≠ Prices.na := by
  rw [Ne, h.mid_eq_na_iff]
  cases side
  · exact not_or.mpr ⟨hown, hcontra⟩
  · exact not_or.mpr ⟨hcontra, hown⟩

/-- Fewer levels and fewer pegs are settled too. -/
theorem Settled.mono {s t : MatchingEngine} (h : s.Settled)
    (hbook : ∀ x, (s.book x).entries = [] → (t.book x).entries = [])
    (hpool : ∀ x, s.pool x = [] → t.pool x = []) : t.Settled :=
  fun hbids hasks => (h (fun hnil => hbids (hbook .buy hnil)) fun hnil =>
    hasks (hbook .sell hnil)).imp
    (hpool .buy) (hpool .sell)

/-- An admission settles the pools. A lit order is followed by the pool cross; a peg meets the
opposite pool where there is a midpoint, so that it does not come to rest while that pool holds
orders; and every other end only takes orders away. -/
theorem Settled.addOrder {s t : MatchingEngine} (h : s.Settled) (hq : s.Queued) {o : Order}
    (hv : o.Valid) (hadd : s.addOrder o = .ok t) : t.Settled := by
  rcases addOrder_cases hadd with ⟨-, -, rfl⟩ | ⟨-, o₁, s₁, hpeg, hrest⟩
  · exact h.mono (fun x => by simp) fun x => by simp
  obtain ⟨hbook, hown, hempty, hend⟩ := pools_pegStep hpeg
  have ho₁ := pegStep_filledFrom hpeg
  rcases hrest with ⟨htype, rfl⟩ | ⟨htype, o₂, s₂, hlit, hcross⟩
  · unfold disposePeg
    split_ifs with hrest
    · -- A peg rests: with a midpoint the peg step ran, and it left something of the order, so it
      -- emptied the other pool.
      rw [settled_iff _ o₁.side]
      simp only [book_restPeg, hbook, pool_restPeg_of_ne _ _ (Side.opposite_ne _)]
      intro hownBook hcontraBook
      right
      rw [ho₁.side]
      exact (hend (hq.mid_ne_na _ hownBook hcontraBook) htype).resolve_left (by omega)
    · apply h.mono (fun x => by simp [hbook])
      rw [forall_side o.side]
      simp only [pool_dispose, hown]
      exact ⟨id, hempty⟩
  · -- The pool cross reads the midpoint of the book in which the limit order came to rest.
    obtain ⟨hbookT, hsettled⟩ := pools_crossPegPools hcross
    have ho₂ := ho₁.trans (matchLit_filledFrom hlit)
    have hq₂ := ((hq.pegStep hpeg).matchLit hlit).disposeLit (ho₂.valid hv)
      (ho₂.ordType.trans htype)
    intro hbids hasks
    refine hsettled (hq₂.mid_ne_na .buy ?_ ?_)
    · rw [← hbookT]
      exact hbids
    · rw [← hbookT]
      exact hasks

/-- A peg pool of a reachable state is empty where both sides of the lit book hold orders. -/
theorem Reachable.settled {s : MatchingEngine} (h : s.Reachable) : s.Settled := by
  refine h.induction (fun hbids => absurd rfl hbids)
    (fun s t o hr hs ho hadd => hs.addOrder hr.queued ho.valid.1 hadd) fun s orderID _ hs => ?_
  obtain ⟨hkeys, hpool⟩ := keys_cancelOrder s orderID
  refine hs.mono (fun x hnil => ?_) fun x hnil => ?_
  · have := hkeys x
    rw [keys_eq_nil.mpr hnil] at this
    exact keys_eq_nil.mp (List.subset_nil.mp this)
  · -- The pools lose orders only.
    have := hpool x
    rw [hnil] at this
    exact List.subset_nil.mp this

/-- In a reachable state whose lit book holds orders on both sides, or which has a midpoint, a peg
pool is empty. -/
theorem peg_pools_not_crossable {s : MatchingEngine} (h : s.Reachable) :
    (s.bids.entries ≠ [] → s.asks.entries ≠ [] → s.pegBids = [] ∨ s.pegAsks = []) ∧
      (s.mid ≠ Prices.na → s.pegBids = [] ∨ s.pegAsks = []) := by
  refine ⟨h.settled, fun hmid => ?_⟩
  rw [Ne, h.queued.mid_eq_na_iff, not_or] at hmid
  exact h.settled hmid.1 hmid.2

/-- One of the peg pools of `quotedCalls` is empty. -/
theorem peg_pools_not_crossable_quoted :
    (after quotedCalls).pegBids = [] ∨ (after quotedCalls).pegAsks = [] :=
  (peg_pools_not_crossable (reachable_after quotedCalls)).1 (by decide) (by decide)

end MatchingVenue.MatchingEngine
