import MatchingVenue.Engine.Fields

/-!
# What one step of each loop does

The loops of the engine fill an incoming order against the head of a queue, or the heads of the two
pools against each other. For each loop, `…_some` says everything that an iteration does and under
which guards, and `…_none` where the loop is over. `addOrder_cases` splits an admission into its
phases. Every later proof about the engine starts from these, and none unfolds a loop body.
-/

namespace MatchingVenue.MatchingEngine

/-! ## The lit walk -/

/-- One iteration of the lit walk fills the head of the best opposite level, within the limit. -/
theorem matchLitBody_some {side : Side} {order order' : Order} {s s' : MatchingEngine}
    (h : matchLitBody side (order, s) = .ok (some (order', s'))) :
    ∃ price resting behind levels m,
      (s.book side.opposite).entries = (price, resting :: behind) :: levels ∧
      marketable side order.price price = true ∧
      m = min order.quantity resting.visibleQty ∧ 0 < m ∧ m ≤ resting.quantity ∧
      order' = order.filled m ∧
      s' = (s.recordFill (order.filled m) (resting.filled m).toOrder price m).settleLit
        side.opposite (resting.filled m) behind := by
  simp only [matchLitBody, SortedMap.firstEntry] at h
  -- The ways out of the loop come first: the order done, no level, a level beyond the limit. Each
  -- returns `none`, so `h` excludes it.
  split_ifs at h with hq
  · simp at h
  split at h
  · simp at h
  rename_i price queue hfirst
  obtain ⟨levels, hentries⟩ := List.head?_eq_some_iff.mp hfirst
  split_ifs at h with hm
  swap
  · simp at h
  split at h
  · simp at h
  rename_i resting behind
  -- The two fills, aggressor first; their guards are what `fill` checks.
  obtain ⟨o, ho, h⟩ := bind_eq_ok.mp h
  obtain ⟨r, hr, h⟩ := bind_eq_ok.mp h
  obtain ⟨hpos, hle, rfl⟩ := Order.fill_eq_ok.mp ho
  obtain ⟨-, hle', rfl⟩ := RestingOrder.fill_eq_ok.mp hr
  obtain ⟨rfl, rfl⟩ := Prod.mk.inj (Option.some.inj (Except.ok.inj h))
  exact ⟨price, resting, behind, levels, _, hentries, hm, rfl, hpos, hle', rfl, rfl⟩

/-- The lit walk is over when the order is done, or no opposite level is left within its limit. -/
theorem matchLitBody_none {side : Side} {order : Order} {s : MatchingEngine}
    (h : matchLitBody side (order, s) = .ok none) :
    order.quantity = 0 ∨ ∀ level ∈ (s.book side.opposite).entries.head?,
      marketable side order.price level.1 = false := by
  simp only [matchLitBody, SortedMap.firstEntry] at h
  split_ifs at h with hq
  · exact .inl hq
  right
  intro level hlevel
  split at h
  · rename_i hnone
    simp [hnone] at hlevel
  rename_i price queue hfirst
  obtain rfl : (price, queue) = level := by
    simpa [hfirst] using hlevel
  -- At a level within the limit the body would have filled something.
  split_ifs at h with hm
  swap
  · simpa using hm
  split at h
  · simp at h
  obtain ⟨o, -, h⟩ := bind_eq_ok.mp h
  obtain ⟨r, -, h⟩ := bind_eq_ok.mp h
  simp [pure, Except.pure] at h

/-! ## The peg pools -/

/-- One iteration over a pool fills its head. -/
theorem matchPegPoolBody_some {mid : ℤ} {order order' : Order} {s s' : MatchingEngine}
    (h : matchPegPoolBody mid (order, s) = .ok (some (order', s'))) :
    ∃ resting behind m,
      s.pool order.side.opposite = resting :: behind ∧
      m = min order.quantity resting.quantity ∧ 0 < m ∧
      order' = order.filled m ∧
      s' = (s.recordFill (order.filled m) (resting.filled m).toOrder mid m).settleHead
        order.side.opposite (resting.filled m) behind := by
  simp only [matchPegPoolBody] at h
  split_ifs at h with hq
  · simp at h
  split at h
  · simp at h
  rename_i resting behind hpool
  obtain ⟨o, ho, h⟩ := bind_eq_ok.mp h
  obtain ⟨r, hr, h⟩ := bind_eq_ok.mp h
  obtain ⟨hpos, hle, rfl⟩ := Order.fill_eq_ok.mp ho
  obtain ⟨-, hle', rfl⟩ := RestingOrder.fill_eq_ok.mp hr
  refine ⟨resting, behind, _, hpool, rfl, hpos, ?_⟩
  -- The source tests the head after the fill; so does `settleHead`.
  unfold settleHead
  split_ifs at h ⊢ with hz
  · obtain ⟨rfl, rfl⟩ := Prod.mk.inj (Option.some.inj (Except.ok.inj h))
    exact ⟨rfl, rfl⟩
  · obtain ⟨rfl, rfl⟩ := Prod.mk.inj (Option.some.inj (Except.ok.inj h))
    exact ⟨rfl, rfl⟩

/-- The walk over a pool is over when the order is done or the pool empty. -/
theorem matchPegPoolBody_none {mid : ℤ} {order : Order} {s : MatchingEngine}
    (h : matchPegPoolBody mid (order, s) = .ok none) :
    order.quantity = 0 ∨ s.pool order.side.opposite = [] := by
  simp only [matchPegPoolBody] at h
  split_ifs at h with hq
  · exact .inl hq
  right
  split at h
  · assumption
  obtain ⟨o, -, h⟩ := bind_eq_ok.mp h
  obtain ⟨r, -, h⟩ := bind_eq_ok.mp h
  simp only [pure, Except.pure] at h
  split_ifs at h
  all_goals simp at h

/-- The two heads of a pool cross after their fill, the later arrival first. -/
def crossRoles (bid ask : RestingOrder) (m : ℕ) : RestingOrder × RestingOrder :=
  if laterArrival bid.toOrder ask.toOrder then (bid.filled m, ask.filled m)
  else (ask.filled m, bid.filled m)

/-- One iteration of the pool cross fills the two heads against each other. -/
theorem crossPegPoolsBody_some {mid : ℤ} {s s' : MatchingEngine}
    (h : crossPegPoolsBody mid s = .ok (some s')) :
    ∃ bid bids ask asks m,
      s.pegBids = bid :: bids ∧ s.pegAsks = ask :: asks ∧
      m = min bid.quantity ask.quantity ∧ 0 < m ∧
      s' = ((s.recordTrade (bid.filled m).toOrder (ask.filled m).toOrder
        (crossRoles bid ask m).1.toOrder (crossRoles bid ask m).2.toOrder mid m).settleHead
          .buy (bid.filled m) bids).settleHead .sell (ask.filled m) asks := by
  unfold crossPegPoolsBody at h
  split at h
  · rename_i bid bids ask asks hb ha
    obtain ⟨b, hb', h⟩ := bind_eq_ok.mp h
    obtain ⟨a, ha', h⟩ := bind_eq_ok.mp h
    obtain ⟨hpos, -, rfl⟩ := RestingOrder.fill_eq_ok.mp hb'
    obtain ⟨-, -, rfl⟩ := RestingOrder.fill_eq_ok.mp ha'
    refine ⟨bid, bids, ask, asks, _, hb, ha, rfl, hpos, ?_⟩
    -- The roles only decide the order of the trade's parties, not which queue changes.
    unfold crossRoles
    split_ifs at h ⊢
    · exact (Option.some.inj (Except.ok.inj h)).symm
    · exact (Option.some.inj (Except.ok.inj h)).symm
  · simp at h

/-- The pool cross is over when a pool is empty. -/
theorem crossPegPoolsBody_none {mid : ℤ} {s : MatchingEngine}
    (h : crossPegPoolsBody mid s = .ok none) : s.pegBids = [] ∨ s.pegAsks = [] := by
  unfold crossPegPoolsBody at h
  split at h
  · obtain ⟨b, -, h⟩ := bind_eq_ok.mp h
    obtain ⟨a, -, h⟩ := bind_eq_ok.mp h
    simp [pure, Except.pure] at h
  · rename_i hne
    -- The fallthrough of the match: not both pools have a head.
    rcases hb : s.pegBids with - | ⟨bid, bids⟩
    · exact .inl rfl
    · rcases ha : s.pegAsks with - | ⟨ask, asks⟩
      · exact .inr rfl
      · exact (hne _ _ _ _ hb ha).elim

/-! ## The phases of an admission -/

/-- What an admission does with the remainder of a peg. -/
def disposePeg (s : MatchingEngine) (order : Order) : MatchingEngine :=
  if order.quantity > 0 ∧ order.tif = .gtc then s.restPeg order else s.dispose order

/-- What an admission does with the remainder of a lit order, before the pool cross. -/
def disposeLit (s : MatchingEngine) (order : Order) : MatchingEngine :=
  if order.quantity > 0 ∧ order.tif = .gtc then (s.addToBook order).onAccepted order
  else s.dispose order

/-- An order and what is left of it after some fills. -/
structure FilledFrom (o o' : Order) : Prop where
  orderID : o'.orderID = o.orderID
  timeStamp : o'.timeStamp = o.timeStamp
  side : o'.side = o.side
  price : o'.price = o.price
  participantID : o'.participantID = o.participantID
  tif : o'.tif = o.tif
  peak : o'.peak = o.peak
  ordType : o'.ordType = o.ordType
  quantity : o'.quantity ≤ o.quantity
  valid : o.Valid → o'.Valid

/-- An order comes from itself by no fill. -/
theorem FilledFrom.refl (o : Order) : FilledFrom o o :=
  ⟨rfl, rfl, rfl, rfl, rfl, rfl, rfl, rfl, le_rfl, id⟩

/-- One more fill of what is left. -/
theorem FilledFrom.filled {o o' : Order} (h : FilledFrom o o') (m : ℕ) :
    FilledFrom o (o'.filled m) where
  orderID := h.orderID
  timeStamp := h.timeStamp
  side := h.side
  price := h.price
  participantID := h.participantID
  tif := h.tif
  peak := h.peak
  ordType := h.ordType
  quantity := (Nat.sub_le _ _).trans h.quantity
  valid := fun hv => (h.valid hv).filled m

/-- A fresh slice of what is left. -/
theorem FilledFrom.refreshDisplay {o o' : Order} (h : FilledFrom o o') :
    FilledFrom o o'.refreshDisplay where
  orderID := h.orderID
  timeStamp := h.timeStamp
  side := h.side
  price := h.price
  participantID := h.participantID
  tif := h.tif
  peak := h.peak
  ordType := h.ordType
  quantity := h.quantity
  valid := fun hv => (h.valid hv).refreshDisplay

/-- Fills after fills are fills. -/
theorem FilledFrom.trans {o o' o'' : Order} (h : FilledFrom o o') (h' : FilledFrom o' o'') :
    FilledFrom o o'' where
  orderID := h'.orderID.trans h.orderID
  timeStamp := h'.timeStamp.trans h.timeStamp
  side := h'.side.trans h.side
  price := h'.price.trans h.price
  participantID := h'.participantID.trans h.participantID
  tif := h'.tif.trans h.tif
  peak := h'.peak.trans h.peak
  ordType := h'.ordType.trans h.ordType
  quantity := h'.quantity.trans h.quantity
  valid := fun hv => h'.valid (h.valid hv)

/-- The walk over a pool only fills the incoming order. -/
theorem matchPegPool_filledFrom {mid : ℤ} {o o' : Order} {s s' : MatchingEngine}
    (h : matchPegPool o mid s = .ok (o', s')) : FilledFrom o o' := by
  refine (whileLoop_inv h (fun x => FilledFrom o x.1) (.refl o) ?_).1
  rintro ⟨u, su⟩ ⟨v, sv⟩ hu hbody
  obtain ⟨_, _, m, -, -, -, rfl, -⟩ := matchPegPoolBody_some hbody
  exact hu.filled m

/-- There is a midpoint, and the order trades there: a peg always, and a limit order where its limit
reaches it. -/
def ReachesMid (s : MatchingEngine) (order : Order) : Prop :=
  s.mid ≠ Prices.na ∧ (order.ordType = .pegMid ∨ crossesMid order.side order.price s.mid)

/-- An order that reaches the midpoint meets the opposite pool. -/
theorem pegStep_of_reaches {s : MatchingEngine} {o : Order} (h : s.ReachesMid o) :
    pegStep o s = matchPegPool o s.mid s := if_pos h

/-- An order that does not reach the midpoint skips the pool. -/
theorem pegStep_of_not_reaches {s : MatchingEngine} {o : Order} (h : ¬ s.ReachesMid o) :
    pegStep o s = .ok (o, s) :=
  if_neg h

/-- The peg step only fills the incoming order. -/
theorem pegStep_filledFrom {o o' : Order} {s s' : MatchingEngine}
    (h : pegStep o s = .ok (o', s')) : FilledFrom o o' := by
  unfold pegStep at h
  simp only at h
  split_ifs at h with hmid
  · exact matchPegPool_filledFrom h
  · obtain ⟨rfl, rfl⟩ := Prod.mk.inj (Except.ok.inj h)
    exact .refl o

/-- The lit walk only fills the incoming order. -/
theorem matchLit_filledFrom {side : Side} {o o' : Order} {s s' : MatchingEngine}
    (h : matchLit side o s = .ok (o', s')) : FilledFrom o o' := by
  refine (whileLoop_inv h (fun x => FilledFrom o x.1) (.refl o) ?_).1
  rintro ⟨u, su⟩ ⟨v, sv⟩ hu hbody
  obtain ⟨_, _, _, _, m, -, -, -, -, -, rfl, -⟩ := matchLitBody_some hbody
  exact hu.filled m

/-- The phases of an admission: a fill-or-kill order that the probe fails expires at once; otherwise
the peg step is followed by the end of a peg, or by the lit walk, the end of a lit order and the
pool cross. -/
theorem addOrder_cases {s t : MatchingEngine} {o : Order} (h : s.addOrder o = .ok t) :
    (o.tif = .fok ∧ s.canFillCompletely o = false ∧ t = (s.onExpired o).retire o) ∨
    ((o.tif = .fok → s.canFillCompletely o = true) ∧
      ∃ o₁ s₁, pegStep o s = .ok (o₁, s₁) ∧
        ((o.ordType = .pegMid ∧ t = s₁.disposePeg o₁) ∨
          (o.ordType = .limit ∧ ∃ o₂ s₂, matchLit o.side o₁ s₁ = .ok (o₂, s₂) ∧
            (s₂.disposeLit o₂).crossPegPools = .ok t))) := by
  simp only [addOrder] at h
  split_ifs at h with hfok
  · exact .inl ⟨hfok.1, by simpa using hfok.2, (Except.ok.inj h).symm⟩
  right
  refine ⟨fun htif => by_contra fun hc => hfok ⟨htif, hc⟩, ?_⟩
  -- The source branches on the type of the order, and for a lit order on its side.
  cases htype : o.ordType with
  | pegMid =>
    simp only [htype] at h
    obtain ⟨⟨o₁, s₁⟩, hpeg, h⟩ := bind_eq_ok.mp h
    refine ⟨o₁, s₁, hpeg, .inl ⟨rfl, ?_⟩⟩
    -- The remainder is disposed of by the time in force of the order that came in.
    unfold disposePeg
    rw [(pegStep_filledFrom hpeg).tif]
    simp only at h
    split_ifs at h ⊢
    · exact (Except.ok.inj h).symm
    · exact (Except.ok.inj h).symm
  | limit =>
    simp only [htype] at h
    obtain ⟨⟨o₁, s₁⟩, hpeg, h⟩ := bind_eq_ok.mp h
    have hside := (pegStep_filledFrom hpeg).side
    obtain ⟨o₂, s₂, hlit, h⟩ : ∃ o₂ s₂, matchLit o.side o₁ s₁ = .ok (o₂, s₂) ∧
        (if o₂.quantity > 0 ∧ o.tif = .gtc then (s₂.addToBook o₂).onAccepted o₂
          else s₂.dispose o₂).crossPegPools = .ok t := by
      -- `matchBuy` and `matchSell` are the lit walk on the two sides.
      cases hs : o.side with
      | buy =>
        simp only [hside, hs] at h
        obtain ⟨⟨o₂, s₂⟩, hlit, h⟩ := bind_eq_ok.mp h
        exact ⟨o₂, s₂, hlit, h⟩
      | sell =>
        simp only [hside, hs] at h
        obtain ⟨⟨o₂, s₂⟩, hlit, h⟩ := bind_eq_ok.mp h
        exact ⟨o₂, s₂, hlit, h⟩
    refine ⟨o₁, s₁, hpeg, .inr ⟨rfl, o₂, s₂, hlit, ?_⟩⟩
    unfold disposeLit
    rw [(matchLit_filledFrom hlit).tif, (pegStep_filledFrom hpeg).tif]
    exact h

/-- The phases of the admission of a limit order. -/
theorem addOrder_limit_cases {s t : MatchingEngine} {o : Order} (h : s.addOrder o = .ok t)
    (htype : o.ordType = .limit) :
    (o.tif = .fok ∧ s.canFillCompletely o = false ∧ t = (s.onExpired o).retire o) ∨
    ∃ o₁ s₁ o₂ s₂, pegStep o s = .ok (o₁, s₁) ∧ matchLit o.side o₁ s₁ = .ok (o₂, s₂) ∧
      (s₂.disposeLit o₂).crossPegPools = .ok t := by
  rcases addOrder_cases h with hkilled | ⟨-, o₁, s₁, hpeg, ⟨hpegMid, -⟩ | ⟨-, o₂, s₂, hlit, hcross⟩⟩
  · exact .inl hkilled
  · rw [htype] at hpegMid
    exact absurd hpegMid (by decide)
  · exact .inr ⟨o₁, s₁, o₂, s₂, hpeg, hlit, hcross⟩

/-- The end of the admission of a peg, from its match on. -/
theorem addOrder_peg_end {s s₁ t : MatchingEngine} {o o₁ : Order} (hadd : s.addOrder o = .ok t)
    (htype : o.ordType = .pegMid) (hpass : o.tif = .fok → s.canFillCompletely o = true)
    (hpeg : pegStep o s = .ok (o₁, s₁)) : t = s₁.disposePeg o₁ := by
  rcases addOrder_cases hadd with ⟨hfok, hfail, -⟩ | ⟨-, o₁', s₁', hpeg', ⟨-, rfl⟩ | ⟨hlimit, -⟩⟩
  · rw [hpass hfok] at hfail
    exact absurd hfail (by decide)
  · obtain ⟨rfl, rfl⟩ := Prod.mk.inj (Except.ok.inj (hpeg'.symm.trans hpeg))
    rfl
  · rw [htype] at hlimit
    exact absurd hlimit (by decide)

/-- The end of the admission of a limit order, from its match on. -/
theorem addOrder_limit_end {s s₁ s₂ t : MatchingEngine} {o o₁ o₂ : Order}
    (hadd : s.addOrder o = .ok t) (htype : o.ordType = .limit)
    (hpass : o.tif = .fok → s.canFillCompletely o = true) (hpeg : pegStep o s = .ok (o₁, s₁))
    (hlit : matchLit o.side o₁ s₁ = .ok (o₂, s₂)) :
    (s₂.disposeLit o₂).crossPegPools = .ok t := by
  rcases addOrder_limit_cases hadd htype with ⟨hfok, hfail, -⟩
    | ⟨o₁', s₁', o₂', s₂', hpeg', hlit', hcross⟩
  · rw [hpass hfok] at hfail
    exact absurd hfail (by decide)
  · obtain ⟨rfl, rfl⟩ := Prod.mk.inj (Except.ok.inj (hpeg'.symm.trans hpeg))
    obtain ⟨rfl, rfl⟩ := Prod.mk.inj (Except.ok.inj (hlit'.symm.trans hlit))
    exact hcross

/-- An admission returns when its phases do. -/
theorem addOrder_returns {s : MatchingEngine} {o : Order}
    (hpeg : ∃ o₁ s₁, pegStep o s = .ok (o₁, s₁) ∧
      (o.ordType = .limit → ∃ o₂ s₂, matchLit o.side o₁ s₁ = .ok (o₂, s₂) ∧
        ∃ t, (s₂.disposeLit o₂).crossPegPools = .ok t)) :
    ∃ t, s.addOrder o = .ok t := by
  obtain ⟨o₁, s₁, hpeg, hlimit⟩ := hpeg
  have hfilled := pegStep_filledFrom hpeg
  unfold addOrder
  simp only
  -- A failed fill-or-kill check returns at once.
  split_ifs
  · exact ⟨_, rfl⟩
  cases htype : o.ordType with
  | pegMid =>
    simp only [hpeg, Bind.bind, Except.bind]
    split_ifs
    · exact ⟨_, rfl⟩
    · exact ⟨_, rfl⟩
  | limit =>
    obtain ⟨o₂, s₂, hlit, t, hcross⟩ := hlimit htype
    refine ⟨t, ?_⟩
    rw [← hcross]
    unfold disposeLit
    rw [(matchLit_filledFrom hlit).tif, hfilled.tif]
    rw [← hfilled.side] at hlit
    simp only [hpeg, Bind.bind, Except.bind]
    cases hside : o₁.side with
    | buy =>
      have hbuy : matchBuy o₁ s₁ = .ok (o₂, s₂) := by rwa [hside] at hlit
      simp only [hbuy]
    | sell =>
      have hsell : matchSell o₁ s₁ = .ok (o₂, s₂) := by rwa [hside] at hlit
      simp only [hsell]

end MatchingVenue.MatchingEngine
