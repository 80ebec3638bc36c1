import MatchingVenue.Library.Rounding
import MatchingVenue.Library.Tally
import MatchingVenue.Market.Protection
import MatchingVenue.Terminal.Depth
import MatchingVenue.Terminal.DepthCurve
import MatchingVenue.Terminal.Format

/-!
# The depth ladder

The ladder shows each level of a snapshot with the running total from the touch to it. Hidden
reserves and pegs are not in it, so there may be more than it shows, but there is never less: as
long as the book is that of the snapshot, a limit order at the price of a row and for no more than
its total executes in full, at that price or better (`ladder_promises`). The totals are sums of
doubles, and what is displayed as long as that is a safe integer.
-/

namespace MatchingVenue

namespace Terminal

open Text MatchingEngine

/-! ## The ladder -/

/-- A row: a level with its running total, and the bar behind it as a share of the deepest total. -/
structure LadderRow extends CumLevel where
  shadeFraction : ℚ
  widthPct : ℚ
  deriving DecidableEq, Repr

/-- The rows of both sides from the touch outward. -/
structure LadderModel where
  asks : List LadderRow
  bids : List LadderRow
  deriving DecidableEq, Repr

/-- The last running total of a side. -/
def deepest (cum : List CumLevel) : ℤ := (cum.getLast?.map CumLevel.cumQty).getD 0

/-- The row of a level where bars are scaled to a total. -/
def withWidth (sharedMax : ℤ) (r : CumLevel) : LadderRow :=
  let shadeFraction := if sharedMax > 0 then Double.round (r.cumQty / sharedMax) else 0
  { toCumLevel := r, shadeFraction, widthPct := Double.round (shadeFraction * 100) }

/-- The ladder of a book. -/
def buildLadder (bids asks : List (ℤ × ℤ)) : LadderModel :=
  let bidCum := cumulate bids
  let askCum := cumulate asks
  let sharedMax := max (deepest bidCum) (deepest askCum)
  { asks := askCum.map (withWidth sharedMax), bids := bidCum.map (withWidth sharedMax) }

/-- The rows of a side. -/
def LadderModel.rows (model : LadderModel) : Side → List LadderRow
  | .buy => model.bids
  | .sell => model.asks

/-- Levels without a negative quantity, whose total is a safe integer. -/
def Summable (levels : List (ℤ × ℤ)) : Prop :=
  (∀ level ∈ levels, 0 ≤ level.2) ∧ (levels.map Prod.snd).sum ≤ Double.maxSafe

/-- Where the total is a safe integer, so is that of what comes first, and it is summed up to it. -/
theorem Summable.sum_eq {front levels : List (ℤ × ℤ)} (h : Summable levels)
    (hfront : front <+: levels) :
    Double.sum (front.map Prod.snd) = (front.map Prod.snd).sum := by
  obtain ⟨rest, rfl⟩ := hfront
  have hsums : Double.SumsSafe ((front ++ rest).map Prod.snd) := by
    refine .of_nonneg (fun q hq => ?_) h.2
    obtain ⟨level, hlevel, rfl⟩ := List.mem_map.mp hq
    exact h.1 level hlevel
  rw [List.map_append] at hsums
  exact Double.sum_eq hsums.of_append

/-- A row is a level with the total up to it. -/
theorem mem_cumulate {levels : List (ℤ × ℤ)} (h : Summable levels) {row : CumLevel}
    (hrow : row ∈ cumulate levels) :
    ∃ pre level post, levels = pre ++ level :: post ∧
      row = ⟨level.1, level.2, ((pre ++ [level]).map Prod.snd).sum⟩ := by
  obtain ⟨i, hi⟩ := List.mem_iff_getElem?.mp hrow
  rw [cumulate, getElem?_cumulateFrom, Option.map_eq_some_iff] at hi
  obtain ⟨level, hlevel, hrow⟩ := hi
  obtain ⟨hlt, hget⟩ := List.getElem?_eq_some_iff.mp hlevel
  refine ⟨levels.take i, level, levels.drop (i + 1), ?_, ?_⟩
  · rw [← hget, List.cons_getElem_drop_succ, List.take_append_drop]
  · have htotal : ((levels.take (i + 1)).map Prod.snd).foldl Double.add 0 =
        ((levels.take (i + 1)).map Prod.snd).sum := h.sum_eq (List.take_prefix _ _)
    rw [← hrow, htotal, ← List.take_concat_get' levels i hlt, hget]

/-- The deepest total of a side is that of all its levels. -/
theorem deepest_cumulate {levels : List (ℤ × ℤ)} (h : Summable levels) :
    deepest (cumulate levels) = (levels.map Prod.snd).sum := by
  have hlength : (cumulate levels).length = levels.length := length_cumulateFrom 0 levels
  have htotal := h.sum_eq (List.prefix_refl levels)
  rw [deepest, List.getLast?_eq_getElem?, hlength, cumulate, getElem?_cumulateFrom]
  cases hlevels : levels with
  | nil => rfl
  | cons level rest =>
    rw [hlevels] at htotal
    rw [List.length_cons, Nat.add_sub_cancel, List.getElem?_eq_getElem (by simp), Option.map_some,
      Option.map_some, Option.getD_some, List.take_of_length_le (by simp)]
    exact htotal

/-- The bar of a total that is positive and no more than the one to which bars are scaled. -/
theorem withWidth_scaled {sharedMax : ℤ} {r : CumLevel} (hpos : 0 < r.cumQty)
    (hle : r.cumQty ≤ sharedMax) :
    0 < (withWidth sharedMax r).shadeFraction ∧ (withWidth sharedMax r).shadeFraction ≤ 1 ∧
      0 < (withWidth sharedMax r).widthPct ∧ (withWidth sharedMax r).widthPct ≤ 100 := by
  have hmax : 0 < sharedMax := hpos.trans_le hle
  have hmax' : (0 : ℚ) < sharedMax := Int.cast_pos.mpr hmax
  have hshare : (0 : ℚ) < r.cumQty / sharedMax := div_pos (Int.cast_pos.mpr hpos) hmax'
  have hshade : (withWidth sharedMax r).shadeFraction = Double.round (r.cumQty / sharedMax) :=
    if_pos hmax
  have hshadePos := Double.round_pos hshare
  have hshadeLe : Double.round ((r.cumQty : ℚ) / sharedMax) ≤ (1 : ℕ) := by
    refine Double.round_le hshare (by decide) ?_
    rw [Nat.cast_one, div_le_one hmax']
    exact Int.cast_le.mpr hle
  rw [Nat.cast_one] at hshadeLe
  have hwidth : (withWidth sharedMax r).widthPct =
      Double.round (Double.round (r.cumQty / sharedMax) * 100) := by
    rw [← hshade]
    rfl
  have hwidthPos : 0 < Double.round ((r.cumQty : ℚ) / sharedMax) * 100 :=
    mul_pos hshadePos (by norm_num)
  rw [hshade, hwidth]
  refine ⟨hshadePos, hshadeLe, Double.round_pos hwidthPos, ?_⟩
  have hround : Double.round (Double.round ((r.cumQty : ℚ) / sharedMax) * 100) ≤ (100 : ℕ) := by
    refine Double.round_le hwidthPos (by decide) ?_
    push_cast
    linarith
  exact_mod_cast hround

end Terminal

/-- What is no worse than something no worse is no worse. -/
theorem NoWorse.trans {side : Side} {p q r : ℤ} (h : NoWorse side p q) (h' : NoWorse side q r) :
    NoWorse side p r := by
  cases side with
  | buy => exact le_trans h h'
  | sell => exact le_trans h' h

namespace MatchingEngine

open Terminal (CumLevel cumulate deepest mem_cumulate deepest_cumulate Summable)

/-! ## The totals -/

/-- A limit order of a side at a price or a better one. -/
abbrev LitUpTo (side : Side) (price : ℤ) (r : RestingOrder) : Prop :=
  LitOn side r ∧ (r.price = price ∨ Better side r.price price)

/-- The limit orders of a side at a price or a better one. -/
def litUpTo (s : MatchingEngine) (side : Side) (price : ℤ) : List RestingOrder :=
  s.resting.filter fun r => LitUpTo side price r

/-- What some orders display is the sum of their slices. -/
theorem natCast_displayed (orders : List RestingOrder) :
    (displayed orders : ℤ) = (orders.map fun r => (r.visibleQty : ℤ)).sum := by
  induction orders with
  | nil => rfl
  | cons r orders ih =>
    rw [List.map_cons, List.sum_cons, ← ih, ← Nat.cast_add]
    rfl

/-- The limit orders of a side for which something more holds. -/
theorem filter_litOn (s : MatchingEngine) (side : Side) (p : RestingOrder → Prop)
    [DecidablePred p] :
    (s.resting.filter fun r => LitOn side r).filter (fun r => p r) = s.resting.filter fun r =>
      LitOn side r ∧ p r := by
  rw [List.filter_filter]
  refine List.filter_congr fun r _ => ?_
  rw [Bool.decide_and, Bool.and_comm]

/-- Of two prices not both are better. -/
theorem better_asymm {side : Side} {p q : ℤ} (h : Better side p q) : ¬ Better side q p := by
  cases side <;> exact not_lt_of_gt h

section Depth

variable {s : MatchingEngine} {side : Side} {k : ℕ} {levels : List (ℤ × ℤ)}

/-- The orders at the prices up to a level are those at its price or a better one. -/
theorem Depth.mem_prices_iff (h : Depth s side k levels) {pre post : List (ℤ × ℤ)} {level : ℤ × ℤ}
    (hlevels : levels = pre ++ level :: post) {r : RestingOrder} (hr : r ∈ s.resting)
    (hlit : LitOn side r) :
    r.price ∈ (pre ++ [level]).map Prod.fst ↔ r.price = level.1 ∨ Better side r.price level.1 := by
  have hsorted := h.sorted
  rw [hlevels, List.map_append, List.map_cons, List.pairwise_append, List.pairwise_cons] at hsorted
  obtain ⟨-, ⟨hbehind, -⟩, hbefore⟩ := hsorted
  rw [List.map_append, List.mem_append, List.map_cons, List.map_nil, List.mem_singleton]
  constructor
  · rintro (hpre | heq)
    · exact .inr (hbefore _ hpre _ List.mem_cons_self)
    · exact .inl heq
  rintro (heq | hbetter)
  · exact .inr heq
  -- A better price than that of a level is the price of a level, and of one before it.
  by_cases hin : r.price ∈ levels.map Prod.fst
  · rw [hlevels, List.map_append, List.mem_append, List.map_cons, List.mem_cons] at hin
    rcases hin with hpre | heq | hpost
    · exact .inl hpre
    · exact .inr heq
    · exact absurd (hbehind _ hpost) (better_asymm hbetter)
  · have hworse := (h.best r hr hlit hin).2 level (by rw [hlevels]; simp)
    exact absurd hworse (better_asymm hbetter)

/-- The levels of a depth have positive quantities, so that they may be summed up where their total
is a safe integer. -/
theorem Depth.summable (h : Depth s side k levels)
    (hsafe : (levels.map Prod.snd).sum ≤ Double.maxSafe) : Summable levels :=
  ⟨fun level hlevel => Int.le_of_lt (h.displays level hlevel).1, hsafe⟩

/-- The total of a row is what is displayed up to its price. -/
theorem Depth.total (h : Depth s side k levels) (hsafe : (levels.map Prod.snd).sum ≤ Double.maxSafe)
    {row : CumLevel} (hrow : row ∈ cumulate levels) :
    row.cumQty = displayed (litUpTo s side row.pricePx) := by
  obtain ⟨pre, level, post, hlevels, rfl⟩ := mem_cumulate (h.summable hsafe) hrow
  have hfront : pre ++ [level] <+: levels := ⟨post, by rw [hlevels]; simp⟩
  let prices := (pre ++ [level]).map Prod.fst
  let lit := s.resting.filter fun r => LitOn side r
  have hnodup : prices.Nodup := by
    refine (h.sorted.sublist (hfront.sublist.map Prod.fst)).imp ?_
    rintro p q hbetter rfl
    exact better_asymm hbetter hbetter
  have hlevel : ∀ l ∈ pre ++ [level],
      l.2 = ((lit.filter fun r => r.price = l.1).map fun r => (r.visibleQty : ℤ)).sum := by
    intro l hl
    rw [(h.displays l (hfront.subset hl)).2, natCast_displayed, filter_litOn]
  calc ((pre ++ [level]).map Prod.snd).sum =
      (prices.map fun p =>
          ((lit.filter fun r => r.price = p).map fun r => (r.visibleQty : ℤ)).sum).sum := by
        rw [List.map_map]
        exact congrArg List.sum (List.map_congr_left hlevel)
    _ = ((lit.filter fun r => r.price ∈ prices).map fun r => (r.visibleQty : ℤ)).sum :=
        sum_by_key _ _ _ hnodup
    _ = displayed (litUpTo s side level.1) := by
      rw [natCast_displayed, litUpTo, filter_litOn]
      refine congrArg (fun orders : List RestingOrder =>
        (orders.map fun r => (r.visibleQty : ℤ)).sum) ?_
      refine List.filter_congr fun r hr => decide_eq_decide.mpr (and_congr_right fun hlit => ?_)
      exact h.mem_prices_iff hlevels hr hlit

/-- The totals of a side are positive and no more than the deepest. -/
theorem Depth.scaled (h : Depth s side k levels)
    (hsafe : (levels.map Prod.snd).sum ≤ Double.maxSafe) {row : CumLevel}
    (hrow : row ∈ cumulate levels) :
    0 < row.cumQty ∧ row.cumQty ≤ deepest (cumulate levels) := by
  obtain ⟨pre, level, post, hlevels, rfl⟩ := mem_cumulate (h.summable hsafe) hrow
  have hnonneg : ∀ part, part ⊆ levels → 0 ≤ (part.map Prod.snd).sum := by
    intro part hpart
    refine List.sum_nonneg fun n hn => ?_
    obtain ⟨l, hl, rfl⟩ := List.mem_map.mp hn
    have hpos := (h.displays l (hpart hl)).1
    omega
  have hpre : 0 ≤ (pre.map Prod.snd).sum :=
    hnonneg pre (by rw [hlevels]; exact List.subset_append_left _ _)
  have hpost : 0 ≤ (post.map Prod.snd).sum := hnonneg post (by rw [hlevels]; intro l hl; simp [hl])
  have hlevel := (h.displays level (by rw [hlevels]; simp)).1
  rw [deepest_cumulate (h.summable hsafe), hlevels]
  simp only [List.map_append, List.map_cons, List.map_nil, List.sum_append, List.sum_cons,
    List.sum_nil]
  omega

end Depth

/-! ## What executes -/

/-- An order executes in full on arrival: it is reported as the aggressor of fills that add up to
it, and of nothing else, and no trade is worse than its limit. -/
def ExecutesInFull (s : MatchingEngine) (o : Order) : Prop :=
  ∃ t fills prints, s.addOrder o = .ok t ∧ t.executionListener = s.executionListener ++ fills ∧
    (∀ c ∈ fills, ∃ passive tradeId price m remaining,
      c = .onFill o.orderID passive tradeId price m remaining) ∧
    (fills.map filledQuantity).sum = o.quantity ∧ t.trades = s.trades ++ prints ∧
    ∀ trade ∈ prints, NoWorse o.side trade.price o.price

section Executes

variable {s : MatchingEngine} {o : Order} {price : ℤ}

/-- Orders display no more than they have. -/
theorem displayed_le_quantityOf {orders : List RestingOrder}
    (h : ∀ r ∈ orders, r.visibleQty ≤ r.quantity) (p : RestingOrder → Bool) :
    displayed (orders.filter p) ≤ quantityOf orders := by
  calc displayed (orders.filter p) ≤ quantityOf (orders.filter p) :=
        List.sum_le_sum fun r hr => h r (List.mem_of_mem_filter hr)
    _ ≤ quantityOf orders := (List.filter_sublist.map _).sum_le_sum fun _ _ => Nat.zero_le _

/-- What the orders of some levels display up to a price within a limit is there at the levels
within the limit. -/
theorem displayed_le_quantityWithin (hprice : NoWorse o.side price o.price)
    {levels : List (ℤ × List RestingOrder)}
    (hat : ∀ level ∈ levels, ∀ r ∈ level.2, r.price = level.1 ∧ r.visibleQty ≤ r.quantity) :
    displayed ((levels.flatMap Prod.snd).filter fun r => LitUpTo o.side.opposite price r) ≤
      quantityWithin o.side o.price levels := by
  induction levels with
  | nil => exact Nat.zero_le _
  | cons level levels ih =>
    obtain ⟨hlevel, hlevels⟩ := List.forall_mem_cons.mp hat
    have hrest := ih hlevels
    have hsplit : ∀ a b, displayed (a ++ b) = displayed a + displayed b := by
      intro a b
      rw [displayed, List.map_append, List.sum_append_nat]
      rfl
    rw [List.flatMap_cons, List.filter_append, hsplit]
    by_cases hm : marketable o.side o.price level.1 = true
    · have hqueue := displayed_le_quantityOf (fun r hr => (hlevel r hr).2)
        fun r => decide (LitUpTo o.side.opposite price r)
      rw [quantityWithin_cons hm]
      omega
    · have hnone : level.2.filter (fun r => LitUpTo o.side.opposite price r) = [] := by
        rw [List.filter_eq_nil_iff]
        intro r hr hkept
        obtain ⟨-, hupTo⟩ := of_decide_eq_true hkept
        -- An order up to the price of the row would be within the limit.
        have hreach : NoWorse o.side r.price price := by
          rcases hupTo with heq | hbetter
          · exact heq ▸ .refl o.side r.price
          · exact hbetter.noWorse
        exact hm (marketable_iff.mpr ((hlevel r hr).1 ▸ hreach.trans hprice))
      have hskip : quantityWithin o.side o.price (level :: levels) =
          quantityWithin o.side o.price levels := by
        simp [quantityWithin, levelsWithin, hm]
      have hnil : displayed [] = 0 := rfl
      rw [hnone, hskip, hnil]
      omega

/-- What is displayed on the other side up to a price within its limit, a limit order may trade
with. -/
theorem displayed_le_tradable (hq : s.Queued) (htype : o.ordType = .limit)
    (hprice : NoWorse o.side price o.price) :
    displayed (litUpTo s o.side.opposite price) ≤ s.tradable o := by
  -- Orders that are no limit orders of the other side are not displayed there.
  have hout : ∀ orders : List RestingOrder, (∀ r ∈ orders, ¬ LitOn o.side.opposite r) →
      orders.filter (fun r => LitUpTo o.side.opposite price r) = [] := by
    intro orders h
    rw [List.filter_eq_nil_iff]
    exact fun r hr hkept => h r hr (of_decide_eq_true hkept).1
  have hpool : ∀ x, ∀ r ∈ s.pool x, ¬ LitOn o.side.opposite r := by
    rintro x r hr ⟨hlimit, -⟩
    have hpeg := (hq.pool x r hr).ordType_eq
    simp [hlimit] at hpeg
  have hown : ∀ r ∈ (s.book o.side).orders, ¬ LitOn o.side.opposite r := by
    rintro r hr ⟨-, hside⟩
    obtain ⟨level, hlevel, hr⟩ := mem_orders.mp hr
    have hat := ((hq.level o.side level hlevel).2 r hr).side_eq
    simp [hside] at hat
  have hperm := (s.resting_perm o.side.opposite).filter fun r => LitUpTo o.side.opposite price r
  rw [Side.opposite_opposite, List.filter_append, List.filter_append, List.filter_append,
    hout _ hown, hout _ (hpool _), hout _ (hpool _), List.append_nil, List.append_nil,
    List.append_nil] at hperm
  have hle := displayed_le_quantityWithin hprice fun level hlevel r hr => by
    have hat := (hq.level o.side.opposite level hlevel).2 r hr
    exact ⟨hat.price_eq, hat.valid.visible_le⟩
  rw [litUpTo, displayed_perm hperm, tradable, tradableLit, if_pos htype]
  exact hle.trans (Nat.le_add_left _ _)

/-- A limit order executes in full where what it may trade with covers it. -/
theorem executesInFull (hs : s.Reachable) (ho : o.Constructed) (htype : o.ordType = .limit)
    (hcovers : o.quantity ≤ s.tradable o)
    (hfit : o.tif = .fok → (quantityOf s.resting : ℤ) ≤ longMax) :
    ExecutesInFull s o := by
  obtain ⟨t, hadd⟩ := hs.addOrder_total ho
  obtain ⟨hv, hpos⟩ := ho.valid
  rcases addOrder_cases hadd with ⟨hfok, hfail, -⟩ | ⟨-, o₁, s₁, hpeg, hrest⟩
  · rw [(canFillCompletely_iff hpos (hfit hfok)).mpr hcovers] at hfail
    exact absurd hfail (by decide)
  rcases hrest with ⟨hpegged, -⟩ | ⟨-, o₂, s₂, hlit, hcross⟩
  · exact absurd (hpegged.symm.trans htype) (by decide)
  obtain ⟨hqty, fills, hlistener, hfills, hsum⟩ := matchLit_tradable htype hpeg hlit
  obtain ⟨pegs, lits, hpegTrades, hlitTrades, hpegs, -, hlits, -⟩ :=
    walks_taking hs.queued hpeg hlit
  have hzero : o₂.quantity = 0 := by omega
  -- Nothing is left of the order, so that it does not rest and the pools do not cross.
  have hlast : s₂.disposeLit o₂ = s₂.dispose o₂ := by rw [disposeLit, if_neg (by omega)]
  rw [hlast, crossPegPools_of_done hs.queued hs.settled hpeg hlit] at hcross
  obtain rfl := Except.ok.inj hcross
  refine ⟨_, fills, pegs ++ lits, hadd, ?_, hfills, by omega, ?_, ?_⟩
  · rw [← hlistener, dispose, if_neg (by omega)]
    rfl
  · rw [dispose, if_neg (by omega), ← List.append_assoc, ← hpegTrades, ← hlitTrades]
    rfl
  · refine List.forall_mem_append.mpr ⟨fun trade htrade => ?_, hlits⟩
    rw [(hpegs trade htrade).1]
    exact (pegStep_reaches htype hpeg hpegTrades htrade).2

end Executes

end MatchingEngine

namespace Terminal

/-! ## What the ladder says -/

open MatchingEngine

/-- What a row of a ladder says about an engine. -/
structure Promises (s : MatchingEngine) (side : Side) (row : LadderRow) : Prop where
  /-- The total is what is displayed at the price of the row or a better one. -/
  total : row.cumQty = displayed (litUpTo s side row.pricePx)
  /-- There is something. -/
  total_pos : 0 < row.cumQty
  /-- The bar is a part of the whole width. -/
  scaled : 0 < row.shadeFraction ∧ row.shadeFraction ≤ 1 ∧ 0 < row.widthPct ∧ row.widthPct ≤ 100
  /-- An order on the other side for no more than the total, whose limit reaches the price, executes
  in full. -/
  executable : ∀ o : Order, o.Constructed → o.ordType = .limit → o.side = side.opposite →
    NoWorse o.side row.pricePx o.price → (o.quantity : ℤ) ≤ row.cumQty →
      (o.tif = .fok → (quantityOf s.resting : ℤ) ≤ longMax) → ExecutesInFull s o

/-- The levels of a book on a side. -/
def levelsOf (book : BookState) : Side → List (ℤ × ℤ)
  | .buy => book.bids
  | .sell => book.asks

/-- The rows of a side are its cumulated levels, with bars that are scaled to the deepest total. -/
theorem rows_buildLadder (book : BookState) (side : Side) :
    (buildLadder book.bids book.asks).rows side = (cumulate (levelsOf book side)).map
      (withWidth (max (deepest (cumulate book.bids)) (deepest (cumulate book.asks)))) := by
  cases side <;> rfl

/-- Each row of the ladder of a book that has the depth of a reachable state says what is there, as
long as what each side displays adds up to a safe integer: its total is what the limit orders of the
side display at its price or a better one, its bar is a part of the whole width, and until the state
changes a limit order for no more than the total that reaches the price executes in full, at no
worse a price. -/
theorem ladder_promises {s : MatchingEngine} (hs : s.Reachable) {k : ℕ} {book : BookState}
    (hdepth : ∀ side, Depth s side k (levelsOf book side))
    (hsafe : ∀ side, ((levelsOf book side).map Prod.snd).sum ≤ Double.maxSafe) {side : Side}
    {row : LadderRow} (hrow : row ∈ (buildLadder book.bids book.asks).rows side) :
    Promises s side row := by
  rw [rows_buildLadder] at hrow
  obtain ⟨level, hlevel, rfl⟩ := List.mem_map.mp hrow
  have htotal := (hdepth side).total (hsafe side) hlevel
  obtain ⟨hpos, hle⟩ := (hdepth side).scaled (hsafe side) hlevel
  have hmax : level.cumQty ≤ max (deepest (cumulate book.bids)) (deepest (cumulate book.asks)) := by
    cases side with
    | buy => exact hle.trans (le_max_left _ _)
    | sell => exact hle.trans (le_max_right _ _)
  refine ⟨htotal, hpos, withWidth_scaled hpos hmax, fun o ho htype hside hprice hqty hfit =>
    executesInFull hs ho htype ?_ hfit⟩
  have hdisplayed := displayed_le_tradable hs.queued htype hprice
  have hqty' : (o.quantity : ℤ) ≤ displayed (litUpTo s side level.pricePx) := htotal ▸ hqty
  rw [hside, Side.opposite_opposite] at hdisplayed
  exact (Int.ofNat_le.mp hqty').trans hdisplayed

/-- The bids of `quotedCalls` on the ladder: the reserve of the iceberg and the peg are not in the
total, and the bar has half of the width. -/
theorem ladder_quotedCalls :
    (buildLadder [(10000, 10)] [(10200, 20)]).rows .buy = [⟨⟨10000, 10, 10⟩, 1 / 2, 50⟩] ∧
      Promises (after quotedCalls) .buy ⟨⟨10000, 10, 10⟩, 1 / 2, 50⟩ := by
  have hq := (reachable_after quotedCalls).queued
  have hsized : (after quotedCalls).Sized := by
    intro side
    cases side <;> decide
  let book : BookState := ⟨10000, 10200, [(10000, 10)], [(10200, 20)], 0⟩
  have hdepth : ∀ side, Depth (after quotedCalls) side 20 (levelsOf book side) := by
    intro side
    have h := @Queued.depth _ hq side hsized 20
    have hlevels : ((((after quotedCalls).book side).entries.take 20).map fun level =>
        (level.1, toLong (displayed level.2))) = levelsOf book side := by
      cases side <;> decide
    rwa [hlevels] at h
  have hrows : (buildLadder [(10000, 10)] [(10200, 20)]).rows .buy =
      [⟨⟨10000, 10, 10⟩, 1 / 2, 50⟩] := by
    decide +kernel
  refine ⟨hrows, ?_⟩
  exact @ladder_promises _ (reachable_after quotedCalls) 20 book hdepth
    (fun side => by cases side <;> decide) .buy _ (hrows ▸ List.mem_singleton_self _)

end Terminal

end MatchingVenue
