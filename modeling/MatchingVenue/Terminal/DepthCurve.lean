import MatchingVenue.Terminal.Reducer
import Mathlib.Algebra.Order.BigOperators.Group.List
import Mathlib.Data.List.Chain

/-!
# The depth curve

The chart of a book. Each side is cumulated outward from the touch, and expanded to the corners of a
staircase, for the depth is constant between two levels. The chart collapses the corners again to
one anchor for each level, and lays a band that takes clicks around each. On levels whose neighbours
have different prices the collapse undoes the expansion (`levelAnchors_stepCorners`), also where a
level is empty, so that both of its corners are the same: the corner at the old depth opens an
anchor at the new price, and the one at the new depth replaces it if it is higher.

The running totals are sums of doubles. They never go back, and they are the totals as long as these
are safe integers (`total_not_sum` is a curve where they are not).

The coordinates of the bands are left out, as is all that is drawn.
-/

namespace MatchingVenue

namespace Terminal

/-! ## Cumulated levels -/

/-- A level with its running total. -/
structure CumLevel where
  pricePx : ℤ
  qty : ℤ
  cumQty : ℤ
  deriving DecidableEq, Repr

/-- The rest of the loop of `cumulate`, after `running`. -/
def cumulateFrom (running : ℤ) : List (ℤ × ℤ) → List CumLevel
  | [] => []
  | level :: levels =>
    { pricePx := level.1, qty := level.2, cumQty := Double.add running level.2 } ::
      cumulateFrom (Double.add running level.2) levels

/-- The levels with their running totals. -/
def cumulate (levels : List (ℤ × ℤ)) : List CumLevel := cumulateFrom 0 levels

/-! ## Corners -/

/-- A vertex of a curve. -/
structure CurvePoint where
  pricePx : ℤ
  cumQty : ℤ
  deriving DecidableEq, Repr

/-- The vertex of a level. -/
def CumLevel.point (level : CumLevel) : CurvePoint := ⟨level.pricePx, level.cumQty⟩

/-- The loop of `stepCorners` behind a level: to the price of the next at the old depth, and up to
its own. -/
def stepCornersAfter (before : CumLevel) : List CumLevel → List CurvePoint
  | [] => []
  | level :: cum => ⟨level.pricePx, before.cumQty⟩ :: level.point :: stepCornersAfter level cum

/-- The corners of the staircase. -/
def stepCorners : List CumLevel → List CurvePoint
  | [] => []
  | level :: cum => level.point :: stepCornersAfter level cum

/-- The curves of both sides. -/
structure DepthCurveModel where
  bids : List CurvePoint
  asks : List CurvePoint
  deriving DecidableEq, Repr

/-- The levels of a side that are plotted: those nearest to the touch, or all of them. -/
def plotted (depth : Option ℕ) (levels : List (ℤ × ℤ)) : List (ℤ × ℤ) :=
  match depth with
  | some limit => levels.take limit
  | none => levels

/-- The curves of a book. -/
def buildDepthCurve (book : BookState) (depth : Option ℕ) : DepthCurveModel where
  bids := stepCorners (cumulate (plotted depth book.bids))
  asks := stepCorners (cumulate (plotted depth book.asks))

/-! ## Anchors -/

/-- The body of the loop of `levelAnchors`: a point of the price of the last anchor replaces it if
it is higher, and any other point is an anchor of its own. -/
def pushAnchor (anchors : List CurvePoint) (p : CurvePoint) : List CurvePoint :=
  match anchors.getLast? with
  | some last =>
    if last.pricePx = p.pricePx then
      if p.cumQty > last.cumQty then anchors.dropLast ++ [p] else anchors
    else anchors ++ [p]
  | none => anchors ++ [p]

/-- The anchors of some points. -/
def levelAnchors (points : List CurvePoint) : List CurvePoint := points.foldl pushAnchor []

/-- The anchors of the click bands, by their prices. -/
def bandAnchors (book : BookState) (depth : Option ℕ) : List CurvePoint :=
  let model := buildDepthCurve book depth
  (levelAnchors model.bids ++ levelAnchors model.asks).mergeSort fun a b =>
    a.pricePx - b.pricePx ≤ 0

/-- The prices that the click bands offer. -/
def bandPrices (book : BookState) (depth : Option ℕ) : List ℤ :=
  (bandAnchors book depth).map CurvePoint.pricePx

/-! ## The collapse undoes the expansion -/

/-- What the levels of a side are like: no quantity is negative, and neighbours have different
prices. -/
structure Ladder (levels : List (ℤ × ℤ)) : Prop where
  qty_nonneg : ∀ level ∈ levels, 0 ≤ level.2
  adjacent : levels.IsChain fun level next => level.1 ≠ next.1

/-- Two cumulated levels in a row: another price, and no less depth. -/
def Ascends (level next : CumLevel) : Prop :=
  level.pricePx ≠ next.pricePx ∧ level.cumQty ≤ next.cumQty

/-- Two vertices in a row: no less depth, and either the price or the depth is the same. -/
def Corner (p q : CurvePoint) : Prop := p.cumQty ≤ q.cumQty ∧
    (q.pricePx = p.pricePx ∨ q.cumQty = p.cumQty)

/-- Each level is cumulated to the running total of its quantity and those before it. -/
theorem getElem?_cumulateFrom (running : ℤ) (levels : List (ℤ × ℤ)) (i : ℕ) :
    (cumulateFrom running levels)[i]? = levels[i]?.map fun level =>
      ⟨level.1, level.2, ((levels.take (i + 1)).map Prod.snd).foldl Double.add running⟩ := by
  induction levels generalizing running i with
  | nil => rfl
  | cons level levels ih =>
    cases i with
    | zero => simp [cumulateFrom]
    | succ i =>
      rw [cumulateFrom, List.getElem?_cons_succ, List.getElem?_cons_succ, ih, List.take_succ_cons,
        List.map_cons, List.foldl_cons]

/-- Every level has its running total. -/
theorem length_cumulateFrom (running : ℤ) (levels : List (ℤ × ℤ)) :
    (cumulateFrom running levels).length = levels.length := by
  induction levels generalizing running with
  | nil => rfl
  | cons level levels ih => rw [cumulateFrom, List.length_cons, List.length_cons, ih]

/-- The levels of a ladder ascend. -/
theorem Ladder.ascends {levels : List (ℤ × ℤ)} (h : Ladder levels) {running : ℤ}
    (hrunning : 0 ≤ running) (hheld : Double.Held running.natAbs) :
    (cumulateFrom running levels).IsChain Ascends := by
  induction levels generalizing running with
  | nil => exact .nil
  | cons level levels ih =>
    obtain ⟨hqty, hadjacent⟩ := h
    have hnonneg : 0 ≤ Double.add running level.2 :=
      hrunning.trans (Double.le_add hrunning hheld (hqty level List.mem_cons_self))
    have hrest := ih ⟨fun l hl => hqty l (List.mem_cons_of_mem _ hl), hadjacent.tail⟩ hnonneg
      (Double.held_add _ _)
    cases levels with
    | nil => exact .singleton _
    | cons next levels =>
      have hnext := hqty next (by simp)
      exact .cons_cons ⟨hadjacent.rel, Double.le_add hnonneg (Double.held_add _ _) hnext⟩ hrest

/-- An anchor at the price of the last one is merged with it, and the greater total stays. -/
theorem pushAnchor_append (front : List CurvePoint) (last p : CurvePoint) :
    pushAnchor (front ++ [last]) p =
      if last.pricePx = p.pricePx then front ++ [if p.cumQty > last.cumQty then p else last]
      else front ++ [last] ++ [p] := by
  unfold pushAnchor
  rw [List.getLast?_concat, List.dropLast_concat]
  by_cases hprice : last.pricePx = p.pricePx
  · simp only [if_pos hprice]
    split_ifs <;> rfl
  · simp only [if_neg hprice]

/-- The two corners of a level come to one anchor. -/
theorem pushAnchor_corners {before level : CumLevel} (h : Ascends before level)
    (front : List CurvePoint) :
    pushAnchor (pushAnchor (front ++ [before.point]) ⟨level.pricePx, before.cumQty⟩) level.point =
      front ++ [before.point] ++ [level.point] := by
  obtain ⟨hprice, hdepth⟩ := h
  have hopen : pushAnchor (front ++ [before.point]) ⟨level.pricePx, before.cumQty⟩ =
      front ++ [before.point] ++ [⟨level.pricePx, before.cumQty⟩] :=
    (pushAnchor_append _ _ _).trans (if_neg hprice)
  -- At the old depth the level has an anchor already. It is replaced if the level adds to the
  -- depth, and else it is the same.
  have hsame : (if level.point.cumQty > before.cumQty then level.point
      else ⟨level.pricePx, before.cumQty⟩) = level.point := by
    split_ifs with hmore
    · rfl
    · have heq : before.cumQty = level.cumQty := le_antisymm hdepth (not_lt.mp hmore)
      rw [heq]
      rfl
  rw [hopen, pushAnchor_append, if_pos (by rfl), hsame]

/-- The corners of a ladder that ascends are pushed as its levels' points. -/
theorem foldl_stepCornersAfter {before : CumLevel} {cum : List CumLevel}
    (h : (before :: cum).IsChain Ascends) (front : List CurvePoint) :
    (stepCornersAfter before cum).foldl pushAnchor (front ++ [before.point]) =
      front ++ (before :: cum).map CumLevel.point := by
  induction cum generalizing before front with
  | nil => rfl
  | cons level cum ih =>
    rw [stepCornersAfter, List.foldl_cons, List.foldl_cons, pushAnchor_corners h.rel, ih h.tail]
    simp

/-- The anchors of the corners are the levels. -/
theorem levelAnchors_stepCorners {cum : List CumLevel} (h : cum.IsChain Ascends) :
    levelAnchors (stepCorners cum) = cum.map CumLevel.point := by
  cases cum with
  | nil => rfl
  | cons level cum => exact foldl_stepCornersAfter h []

/-- There are two corners for each further level. -/
theorem length_stepCornersAfter (before : CumLevel) (cum : List CumLevel) :
    (stepCornersAfter before cum).length = 2 * cum.length := by
  induction cum generalizing before with
  | nil => rfl
  | cons level cum ih =>
    rw [stepCornersAfter, List.length_cons, List.length_cons, List.length_cons, ih]
    omega

/-- The corners are those of a staircase. -/
theorem isChain_stepCornersAfter {before : CumLevel} {cum : List CumLevel}
    (h : (before :: cum).IsChain Ascends) :
    (before.point :: stepCornersAfter before cum).IsChain Corner := by
  induction cum generalizing before with
  | nil => exact .singleton _
  | cons level cum ih =>
    have hacross : Corner before.point ⟨level.pricePx, before.cumQty⟩ := ⟨le_refl _, .inr rfl⟩
    have hup : Corner ⟨level.pricePx, before.cumQty⟩ level.point := ⟨h.rel.2, .inl rfl⟩
    exact .cons_cons hacross (.cons_cons hup (ih h.tail))

/-! ## No level is lost -/

/-- The curve of a side: its vertices are those of a staircase, and its anchors are the levels, each
with the running total of its quantity and those before it. That is their sum as long as it is a
safe integer. -/
structure Curve (levels : List (ℤ × ℤ)) (points : List CurvePoint) : Prop where
  /-- There are two vertices for each level, but for one. -/
  length : points.length = 2 * levels.length - 1
  /-- The total does not go back. -/
  rising : (points.map CurvePoint.cumQty).Pairwise (· ≤ ·)
  /-- A vertex shares its price or its total with the one before. -/
  corners : points.IsChain fun p q => q.pricePx = p.pricePx ∨ q.cumQty = p.cumQty
  /-- There is an anchor for each level, at its price and with its running total. -/
  anchors : ∀ i, (levelAnchors points)[i]? = levels[i]?.map fun level =>
    CurvePoint.mk level.1 (Double.sum ((levels.take (i + 1)).map Prod.snd))
  /-- The running total is the sum of the quantities where that is safe. -/
  total : ∀ i, ((levels.take i).map Prod.snd).sum ≤ Double.maxSafe →
    Double.sum ((levels.take i).map Prod.snd) = ((levels.take i).map Prod.snd).sum

/-- The curve of a ladder has its levels for anchors. -/
theorem Ladder.curve {levels : List (ℤ × ℤ)} (h : Ladder levels) :
    Curve levels (stepCorners (cumulate levels)) := by
  have hascends : (cumulate levels).IsChain Ascends :=
    h.ascends (le_refl 0) (Double.Held.of_lt (Nat.two_pow_pos _))
  have hlength : (cumulate levels).length = levels.length := length_cumulateFrom 0 levels
  have hcorners : (stepCorners (cumulate levels)).IsChain Corner := by
    cases hcum : cumulate levels with
    | nil => exact .nil
    | cons level cum => exact isChain_stepCornersAfter (hcum ▸ hascends)
  refine ⟨?_, ?_, hcorners.imp fun _ _ h => h.2, fun i => ?_, fun i hsafe => ?_⟩
  · rw [← hlength]
    cases cumulate levels with
    | nil => rfl
    | cons level cum =>
      rw [stepCorners, List.length_cons, length_stepCornersAfter, List.length_cons]
      omega
  · rw [← List.isChain_iff_pairwise, List.isChain_map]
    exact hcorners.imp fun _ _ h => h.1
  · rw [levelAnchors_stepCorners hascends, List.getElem?_map, cumulate, getElem?_cumulateFrom,
      Option.map_map]
    rfl
  · refine Double.sum_eq (.of_nonneg (fun q hq => ?_) hsafe)
    obtain ⟨level, hlevel, rfl⟩ := List.mem_map.mp hq
    exact h.qty_nonneg level (List.mem_of_mem_take hlevel)

/-- The part of a ladder that is plotted is one. -/
theorem Ladder.plotted {levels : List (ℤ × ℤ)} (h : Ladder levels) (depth : Option ℕ) :
    Ladder (plotted depth levels) := by
  cases depth with
  | none => exact h
  | some limit =>
    exact ⟨fun l hl => h.qty_nonneg l (List.mem_of_mem_take hl), h.adjacent.take limit⟩

/-- The prices of the anchors are those of the levels. -/
theorem Curve.prices {levels : List (ℤ × ℤ)} {points : List CurvePoint} (h : Curve levels points) :
    (levelAnchors points).map CurvePoint.pricePx = levels.map Prod.fst := by
  refine List.ext_getElem? fun i => ?_
  rw [List.getElem?_map, List.getElem?_map, h.anchors, Option.map_map]
  rfl

/-- The depth curve loses no level: the curve of each side has the corners of its levels and
collapses to them, each with its running total, and the bands of a book offer the prices of the
levels that are plotted and no others, in their order. -/
theorem curve_loses_no_level :
    (∀ levels, Ladder levels → Curve levels (stepCorners (cumulate levels))) ∧
    ∀ (book : BookState) (depth : Option ℕ), Ladder book.bids → Ladder book.asks →
      (bandPrices book depth).Perm
      ((plotted depth book.bids ++ plotted depth book.asks).map Prod.fst) ∧
        (bandPrices book depth).Pairwise (· ≤ ·) := by
  refine ⟨fun levels h => h.curve, fun book depth hbids hasks => ⟨?_, ?_⟩⟩
  · have hperm := (List.mergeSort_perm (levelAnchors (buildDepthCurve book depth).bids ++
      levelAnchors (buildDepthCurve book depth).asks) fun a b => a.pricePx - b.pricePx ≤ 0).map
        CurvePoint.pricePx
    have hbidPrices := (hbids.plotted depth).curve.prices
    have haskPrices := (hasks.plotted depth).curve.prices
    rw [List.map_append] at hperm ⊢
    rw [← hbidPrices, ← haskPrices]
    exact hperm
  · have hsorted := @List.pairwise_mergeSort CurvePoint (fun a b => a.pricePx - b.pricePx ≤ 0)
      (fun a b c => by simp only [decide_eq_true_eq]; omega)
      (fun a b => by simp only [Bool.or_eq_true, decide_eq_true_eq]; omega)
      (levelAnchors (buildDepthCurve book depth).bids ++
        levelAnchors (buildDepthCurve book depth).asks)
    refine List.pairwise_map.mpr (hsorted.imp fun {a b} hle => ?_)
    have hdiff : a.pricePx - b.pricePx ≤ 0 := of_decide_eq_true hle
    omega

/-- A book with an empty level among its bids. -/
def thinBook : BookState :=
  ⟨1500000, 1502500, [(1500000, 10), (1499000, 0), (1498000, 5)], [(1502500, 4)], 1⟩

/-- The curve and the bands of this book. -/
theorem curve_loses_no_level_thin :
    Curve thinBook.bids (stepCorners (cumulate thinBook.bids)) ∧
      (bandPrices thinBook none).Perm [1500000, 1499000, 1498000, 1502500] ∧
      (bandPrices thinBook none).Pairwise (· ≤ ·) :=
  ⟨curve_loses_no_level.1 thinBook.bids ⟨by decide, by decide⟩,
    curve_loses_no_level.2 thinBook none ⟨by decide, by decide⟩ ⟨by decide, by decide⟩⟩

/-- Two levels whose quantities are safe integers, and their sum is not: the second anchor has one
less than the sum. -/
theorem total_not_sum :
    Ladder [(200, 2^53 - 1), (100, 2)] ∧
      levelAnchors (stepCorners (cumulate [(200, 2^53 - 1), (100, 2)])) =
        [⟨200, 9007199254740991⟩, ⟨100, 9007199254740992⟩] ∧
      (([(200, 2^53 - 1), (100, 2)] : List (ℤ × ℤ)).map Prod.snd).sum = 9007199254740993 :=
  ⟨⟨by decide, by decide⟩, by decide +kernel, by decide⟩

end Terminal

end MatchingVenue
