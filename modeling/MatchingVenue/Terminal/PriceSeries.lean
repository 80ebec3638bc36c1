import MatchingVenue.Terminal.Reducer
import Mathlib.Algebra.BigOperators.Group.List.Basic

/-!
# The session figures and the price series

A terminal forgets its fills: the tape keeps the newest of them, and the session's volume, count,
open, high and low are accumulated one fill at a time. `Statistics` says what each of them is of the
whole history, in whatever other actions the fills came (`statistics_reduce`), and
`buildPriceSeries` turns the tape around for the chart. The volume is a sum of doubles, so that it
is the sum of the quantities only as long as that is a safe integer (`volume_not_sum`).
-/

namespace MatchingVenue

namespace Terminal

open MatchingEngineHandler (onFill)

/-! ## The price series -/

/-- A print as the chart plots it. -/
structure PricePoint where
  t : ℤ
  pricePx : ℤ
  deriving DecidableEq, Repr

/-- The prints from the oldest to the newest and their bounds, which are absent where there is no
print. -/
structure PriceSeries where
  points : List PricePoint
  tMin : Option ℤ
  tMax : Option ℤ
  cMin : Option ℤ
  cMax : Option ℤ
  deriving DecidableEq, Repr

/-- The series of no print. -/
def emptySeries : PriceSeries := ⟨[], none, none, none, none⟩

/-- The point of a print. -/
def TapeEntry.point (entry : TapeEntry) : PricePoint := ⟨entry.timestamp, entry.pricePx⟩

/-- The bounds of some points. -/
structure Bounds where
  tMin : ℤ
  tMax : ℤ
  cMin : ℤ
  cMax : ℤ

/-- One turn of the loop over the points. -/
def Bounds.widen (b : Bounds) (p : PricePoint) : Bounds :=
  { tMin := if p.t < b.tMin then p.t else b.tMin
    tMax := if p.t > b.tMax then p.t else b.tMax
    cMin := if p.pricePx < b.cMin then p.pricePx else b.cMin
    cMax := if p.pricePx > b.cMax then p.pricePx else b.cMax }

/-- The series of a tape, whose newest print is the first. -/
def buildPriceSeries (tape : List TapeEntry) : PriceSeries :=
  -- The source takes the prints from the last index down to the first.
  let points := tape.reverse.map TapeEntry.point
  match points with
  | [] => emptySeries
  | first :: _ =>
    -- The loop starts from the bounds of the first point and meets that point again.
    let b := points.foldl Bounds.widen ⟨first.t, first.t, first.pricePx, first.pricePx⟩
    { points, tMin := some b.tMin, tMax := some b.tMax, cMin := some b.cMin, cMax := some b.cMax }

/-- The points are the prints of the tape, oldest first. -/
theorem points_buildPriceSeries (tape : List TapeEntry) :
    (buildPriceSeries tape).points = tape.reverse.map TapeEntry.point := by
  unfold buildPriceSeries
  cases tape.reverse.map TapeEntry.point <;> rfl

@[simp]
theorem Bounds.cMin_widen (b : Bounds) (p : PricePoint) :
    (b.widen p).cMin = min b.cMin p.pricePx := by
  simp only [widen]
  split_ifs <;> omega

@[simp]
theorem Bounds.cMax_widen (b : Bounds) (p : PricePoint) :
    (b.widen p).cMax = max b.cMax p.pricePx := by
  simp only [widen]
  split_ifs <;> omega

/-- A bound after the loop is that bound folded over the prices. -/
theorem Bounds.foldl_widen {get : Bounds → ℤ} {op : ℤ → ℤ → ℤ}
    (h : ∀ b p, get (widen b p) = op (get b) p.pricePx) (points : List PricePoint) (b : Bounds) :
    get (points.foldl widen b) = (points.map PricePoint.pricePx).foldl op (get b) := by
  rw [List.foldl_map]
  exact (List.foldl_hom get fun b p => (h b p).symm).symm

/-- The bounds of the price are the least and the greatest price of the prints. -/
theorem bounds_buildPriceSeries (tape : List TapeEntry) :
    (buildPriceSeries tape).cMin = (tape.reverse.map TapeEntry.pricePx).min? ∧
      (buildPriceSeries tape).cMax = (tape.reverse.map TapeEntry.pricePx).max? := by
  have hprices : tape.reverse.map TapeEntry.pricePx =
      (tape.reverse.map TapeEntry.point).map PricePoint.pricePx := by
    rw [List.map_map]
    rfl
  rw [hprices]
  unfold buildPriceSeries
  cases tape.reverse.map TapeEntry.point with
  | nil => exact ⟨rfl, rfl⟩
  | cons first rest =>
    simp only [Bounds.foldl_widen Bounds.cMin_widen, Bounds.foldl_widen Bounds.cMax_widen,
      Bounds.cMin_widen, Bounds.cMax_widen, List.map_cons, List.foldl_cons, min_self, max_self,
      List.min?_cons', List.max?_cons',
      and_self]

/-! ## The fills and what the state keeps of them -/

/-- The fill that an action brings. -/
def Action.fill (action : Action) : Option ExecFrame := action.execFrame.filter isFill

/-- A fill and the actions before it. -/
structure Fill where
  before : List Action
  frame : ExecFrame

/-- The fills of some actions in the order of their arrival, which come after the actions of
`before`. -/
def fillsFrom (before : List Action) : List Action → List Fill
  | [] => []
  | action :: actions =>
    (action.fill.toList.map fun frame => ⟨before, frame⟩) ++ fillsFrom (before ++ [action]) actions

/-- The fills of a session. -/
def fills (actions : List Action) : List Fill := fillsFrom [] actions

/-- The quantities of some fills. -/
def quantities (fs : List Fill) : List ℤ := fs.map fun f => f.frame.filledQuantity

/-- The prices of some fills. -/
def prices (fs : List Fill) : List ℤ := fs.map fun f => f.frame.price

/-- The newest of some fills, as many as the tape holds. -/
def newest (fs : List Fill) : List Fill := fs.drop (fs.length - tapeCap)

/-- A fill is the terminal's own when a row had one of its two ids, which are positive. -/
def Fill.Mine (f : Fill) : Prop :=
  ∃ row ∈ (reduce f.before).myOrders, 0 < row.clOrdId ∧
    (row.clOrdId = f.frame.aggressorOrderId ∨ row.clOrdId = f.frame.passiveOrderId)

/-- An entry of the tape is the print of a fill. -/
structure Prints (entry : TapeEntry) (f : Fill) : Prop where
  tradeId : entry.tradeId = f.frame.tradeId
  pricePx : entry.pricePx = f.frame.price
  quantity : entry.quantity = f.frame.filledQuantity
  aggressorOrderId : entry.aggressorOrderId = f.frame.aggressorOrderId
  passiveOrderId : entry.passiveOrderId = f.frame.passiveOrderId
  timestamp : entry.timestamp = f.frame.timestamp
  mine : entry.mine = true ↔ f.Mine
  aggressorSide : entry.aggressorSide.isSome = true ↔ f.Mine

/-- The figures of a session are those of all its fills, and the tape has the newest of them, newest
first. The volume and the count are so as long as they are safe integers. -/
structure Statistics (state : AppState) (fs : List Fill) : Prop where
  /-- The volume is the sum of the quantities where no partial sum is unsafe. -/
  volume : Double.SumsSafe (quantities fs) → state.sessionVolume = (quantities fs).sum
  /-- The count is that of the fills, where that is safe. -/
  count : fs.length ≤ Double.maxSafe → state.sessionTradeCount = fs.length
  /-- The first price is that of the first fill. -/
  openPx : state.sessionOpenPx = (prices fs).head?.getD sessionOpenUnset
  /-- The high is the greatest price. -/
  highPx : state.sessionHighPx = (prices fs).max?.getD sessionOpenUnset
  /-- The low is the least price. -/
  lowPx : state.sessionLowPx = (prices fs).min?.getD sessionOpenUnset
  /-- The tape has the newest fills, newest first. -/
  tape : List.Forall₂ Prints state.tape (newest fs).reverse

/-- The chart of a session has the same fills oldest first, between the session's low and high. -/
structure Charted (state : AppState) (fs : List Fill) : Prop where
  /-- The points are the newest fills, oldest first. -/
  points : (buildPriceSeries state.tape).points =
    (newest fs).map fun f => ⟨f.frame.timestamp, f.frame.price⟩
  /-- The lower bound is the least price of them. -/
  cMin : (buildPriceSeries state.tape).cMin = (prices (newest fs)).min?
  /-- The upper bound is the greatest price of them. -/
  cMax : (buildPriceSeries state.tape).cMax = (prices (newest fs)).max?
  /-- Both are within the low and the high of the session. -/
  within : ∀ c, (buildPriceSeries state.tape).cMin = some c ∨
    (buildPriceSeries state.tape).cMax = some c →
    state.sessionLowPx ≤ c ∧ c ≤ state.sessionHighPx

/-- Two states have the same figures and the same tape. -/
structure SameFigures (s t : AppState) : Prop where
  volume : s.sessionVolume = t.sessionVolume
  count : s.sessionTradeCount = t.sessionTradeCount
  openPx : s.sessionOpenPx = t.sessionOpenPx
  highPx : s.sessionHighPx = t.sessionHighPx
  lowPx : s.sessionLowPx = t.sessionLowPx
  tape : s.tape = t.tape

/-- States with the same figures have the same statistics. -/
theorem Statistics.congr {s t : AppState} {fs : List Fill} (h : Statistics t fs)
    (hst : SameFigures s t) :
    Statistics s fs :=
  ⟨hst.volume ▸ h.volume, hst.count ▸ h.count, hst.openPx ▸ h.openPx, hst.highPx ▸ h.highPx,
    hst.lowPx ▸ h.lowPx, hst.tape ▸ h.tape⟩

/-- A state has its own figures. -/
theorem SameFigures.refl (s : AppState) : SameFigures s s := ⟨rfl, rfl, rfl, rfl, rfl, rfl⟩

/-- An action that brings no fill leaves the figures and the tape as they are. -/
theorem sameFigures_reducer (state : AppState) {action : Action} (h : action.fill = none) :
    SameFigures (reducer state action) state := by
  cases action with
  | connection status =>
    simp only [reducer]
    split_ifs <;> exact ⟨rfl, rfl, rfl, rfl, rfl, rfl⟩
  | sent frame sentAtNanos =>
    cases frame with
    | cancel clOrdId origClOrdId => exact ⟨rfl, rfl, rfl, rfl, rfl, rfl⟩
    | new frame =>
      simp only [reducer, applySent]
      split_ifs <;> exact ⟨rfl, rfl, rfl, rfl, rfl, rfl⟩
  | frame frame =>
    cases frame with
    | book frame => exact ⟨rfl, rfl, rfl, rfl, rfl, rfl⟩
    | fix frame => exact ⟨rfl, rfl, rfl, rfl, rfl, rfl⟩
    | exec frame =>
      have hnot : isFill frame = false := by simpa [Action.fill, Action.execFrame] using h
      have hsame : applyFill state frame = state := by simp [applyFill, hnot]
      constructor <;> simp only [reducer, applyExec, hsame]

/-- An action that brings a fill brings an EXEC frame of a trade. -/
theorem fill_eq_some_iff {action : Action} {frame : ExecFrame} :
    action.fill = some frame ↔ action = .frame (.exec frame) ∧ isFill frame = true := by
  rw [Action.fill, Option.filter_eq_some_iff]
  refine and_congr_left fun _ => ?_
  constructor
  · intro h
    cases action with
    | frame frame =>
      cases frame with
      | exec exec => simpa [Action.execFrame] using h
      | _ => simp [Action.execFrame] at h
    | _ => simp [Action.execFrame] at h
  · rintro rfl
    rfl

/-- A last action adds its fill, with the actions before it. -/
theorem fillsFrom_append (before actions : List Action) (action : Action) :
    fillsFrom before (actions ++ [action]) =
      fillsFrom before actions ++ action.fill.toList.map fun frame =>
      ⟨before ++ actions, frame⟩ := by
  induction actions generalizing before with
  | nil => simp [fillsFrom]
  | cons a actions ih => simp [fillsFrom, ih]

/-- An action without a fill adds none. -/
theorem fills_append_of_none {actions : List Action} {action : Action} (h : action.fill = none) :
    fills (actions ++ [action]) = fills actions := by
  simp [fills, fillsFrom_append, h]

/-- An action with a fill adds it. -/
theorem fills_append_of_some {actions : List Action} {action : Action} {frame : ExecFrame}
    (h : action.fill = some frame) :
    fills (actions ++ [action]) = fills actions ++ [⟨actions, frame⟩] := by
  simp [fills, fillsFrom_append, h]

/-- The frames of the fills are the fills among the EXEC frames. -/
theorem frame_fills (actions : List Action) :
    (fills actions).map Fill.frame = (execs actions).filter isFill := by
  induction actions using List.reverseRecOn with
  | nil => rfl
  | append_singleton actions action ih =>
    rw [execs_append, List.filter_append, ← ih]
    cases h : action.fill with
    | none =>
      rw [fills_append_of_none h]
      rw [Action.fill, Option.filter_eq_none_iff] at h
      cases hexec : action.execFrame with
      | none => simp
      | some frame => simp [h frame hexec]
    | some frame =>
      rw [fills_append_of_some h]
      obtain ⟨rfl, hfill⟩ := fill_eq_some_iff.mp h
      simp [Action.execFrame, hfill]

/-! ## One fill -/

/-- The side of the aggressor is known exactly where one of the two ids, being positive, is that of
a row. -/
theorem isSome_aggressorSideFor (rows : List MyOrder) (aggressor passive : ℤ) :
    (aggressorSideFor rows aggressor passive).isSome = true ↔
      ∃ row ∈ rows, 0 < row.clOrdId ∧ (row.clOrdId = aggressor ∨ row.clOrdId = passive) := by
  have hsideOf : ∀ id : ℤ,
      ((if id > 0 then (rows.find? fun o => o.clOrdId = id).map MyOrder.side
        else none).isSome = true ↔
        ∃ row ∈ rows, 0 < row.clOrdId ∧ row.clOrdId = id) := by
    intro id
    by_cases hpos : id > 0
    · simp only [if_pos hpos, Option.isSome_map, List.find?_isSome, decide_eq_true_eq]
      refine exists_congr fun row => and_congr_right fun _ => ?_
      omega
    · simp only [if_neg hpos, Option.isSome_none]
      constructor
      · simp
      · rintro ⟨row, -, hrow, rfl⟩
        exact absurd hrow hpos
  have hor : (∃ row ∈ rows, 0 < row.clOrdId ∧ (row.clOrdId = aggressor ∨ row.clOrdId = passive)) ↔
      (∃ row ∈ rows, 0 < row.clOrdId ∧ row.clOrdId = aggressor) ∨
        ∃ row ∈ rows, 0 < row.clOrdId ∧ row.clOrdId = passive := by
    simp only [and_or_left, exists_or]
  rw [hor, ← hsideOf aggressor, ← hsideOf passive]
  unfold aggressorSideFor
  dsimp only
  generalize (if aggressor > 0 then (rows.find? fun o => o.clOrdId = aggressor).map MyOrder.side
    else none) = a
  generalize (if passive > 0 then (rows.find? fun o => o.clOrdId = passive).map MyOrder.side
    else none) = p
  cases a <;> cases p <;> simp

/-- The print of a fill that the reducer makes. -/
theorem prints_fill (actions : List Action) (frame : ExecFrame) (hfill : isFill frame = true) :
    ∃ entry, (applyFill (reduce actions) frame).tape =
      (entry :: (reduce actions).tape).take tapeCap ∧
      Prints entry ⟨actions, frame⟩ := by
  refine ⟨_, by rw [applyFill, if_pos hfill], rfl, rfl, rfl, rfl, rfl, rfl, ?_, ?_⟩
  · simp only [Bool.or_eq_true, Bool.and_eq_true, decide_eq_true_eq, List.any_eq_true, Fill.Mine]
    constructor
    · rintro (⟨hpos, row, hrow, hid⟩ | ⟨hpos, row, hrow, hid⟩)
      · exact ⟨row, hrow, hid ▸ hpos, .inl hid⟩
      · exact ⟨row, hrow, hid ▸ hpos, .inr hid⟩
    · rintro ⟨row, hrow, hpos, hid | hid⟩
      · exact .inl ⟨hid ▸ hpos, row, hrow, hid⟩
      · exact .inr ⟨hid ▸ hpos, row, hrow, hid⟩
  · exact isSome_aggressorSideFor _ _ _

/-- The greatest of some prices and one more. -/
theorem max?_append_singleton (xs : List ℤ) (x : ℤ) :
    (xs ++ [x]).max? = some ((xs.max?.map fun m => max m x).getD x) := by
  cases xs with
  | nil => rfl
  | cons y xs =>
    rw [List.cons_append, List.max?_cons', List.max?_cons', List.foldl_append]
    rfl

/-- The least of some prices and one more. -/
theorem min?_append_singleton (xs : List ℤ) (x : ℤ) :
    (xs ++ [x]).min? = some ((xs.min?.map fun m => min m x).getD x) := by
  cases xs with
  | nil => rfl
  | cons y xs =>
    rw [List.cons_append, List.min?_cons', List.min?_cons', List.foldl_append]
    rfl

/-- What the reducer accumulates of positive prices: a figure is unset before the first of them
only. -/
theorem accumulated {xs : List ℤ} (hpos : ∀ y ∈ xs, 0 < y) (x : ℤ) :
    ((xs ++ [x]).head?.getD sessionOpenUnset =
      if xs.head?.getD sessionOpenUnset ≤ 0 then x else xs.head?.getD sessionOpenUnset) ∧
    ((xs ++ [x]).max?.getD sessionOpenUnset =
      if xs.max?.getD sessionOpenUnset ≤ 0 ∨ xs.min?.getD sessionOpenUnset ≤ 0 then x
      else max (xs.max?.getD sessionOpenUnset) x) ∧
    ((xs ++ [x]).min?.getD sessionOpenUnset =
      if xs.max?.getD sessionOpenUnset ≤ 0 ∨ xs.min?.getD sessionOpenUnset ≤ 0 then x
      else min (xs.min?.getD sessionOpenUnset) x) := by
  rw [max?_append_singleton, min?_append_singleton]
  cases xs with
  | nil => exact ⟨rfl, rfl, rfl⟩
  | cons y xs =>
    obtain ⟨high, hhigh⟩ : ∃ high, (y :: xs).max? = some high := ⟨_, rfl⟩
    obtain ⟨low, hlow⟩ : ∃ low, (y :: xs).min? = some low := ⟨_, rfl⟩
    have hhighPos := hpos high (List.max?_mem hhigh)
    have hlowPos := hpos low (List.min?_mem hlow)
    have hset : ¬ (high ≤ 0 ∨ low ≤ 0) := by omega
    have hopen : ¬ y ≤ 0 := by
      have := hpos y List.mem_cons_self
      omega
    simp only [hhigh, hlow, List.cons_append, List.head?_cons, Option.getD_some, Option.map_some,
      if_neg hset, and_self, and_true]
    exact (if_neg hopen).symm

/-- The newest fills in reverse are the last ones, the newest first. -/
theorem reverse_newest (fs : List Fill) : (newest fs).reverse = fs.reverse.take tapeCap :=
  List.take_reverse.symm

/-- A last fill adds its price. -/
theorem prices_append (fs : List Fill) (f : Fill) :
    prices (fs ++ [f]) = prices fs ++ [f.frame.price] := by
  simp [prices]

/-- A fill moves the figures and the tape to those of the history with the fill in it. -/
theorem Statistics.applyFill {actions : List Action} {fs : List Fill}
    (h : Statistics (reduce actions) fs) (hpos : ∀ f ∈ fs, 0 < f.frame.price) {frame : ExecFrame}
    (hfill : isFill frame = true) :
    Statistics (applyFill (reduce actions) frame) (fs ++ [⟨actions, frame⟩]) := by
  have hprices : ∀ y ∈ prices fs, 0 < y := by
    intro y hy
    obtain ⟨f, hf, rfl⟩ := List.mem_map.mp hy
    exact hpos f hf
  obtain ⟨hopen, hhigh, hlow⟩ := accumulated hprices frame.price
  refine ⟨?_, ?_, ?_, ?_, ?_, ?_⟩
  · intro hsafe
    have hall : quantities (fs ++ [⟨actions, frame⟩]) = quantities fs ++
        [frame.filledQuantity] := by
      simp [quantities]
    rw [hall] at hsafe ⊢
    have hlast := hsafe.isSafe_sum
    rw [List.sum_append, List.sum_singleton] at hlast ⊢
    have hbefore := h.volume hsafe.of_append
    rw [Terminal.applyFill, if_pos hfill]
    show Double.add (reduce actions).sessionVolume frame.filledQuantity = _
    rw [hbefore, Double.add_eq hlast]
  · intro hcount
    rw [List.length_append, List.length_singleton] at hcount ⊢
    have hbefore := h.count (Nat.le_of_succ_le hcount)
    have hnext : Double.isSafe ((fs.length : ℤ) + 1).natAbs = true := decide_eq_true (by omega)
    rw [Terminal.applyFill, if_pos hfill]
    show Double.add (reduce actions).sessionTradeCount 1 = _
    rw [hbefore, Double.add_eq hnext, Nat.cast_succ]
  · rw [Terminal.applyFill, if_pos hfill, prices_append, hopen, ← h.openPx]
  · rw [Terminal.applyFill, if_pos hfill, prices_append, hhigh, ← h.highPx, ← h.lowPx]
  · rw [Terminal.applyFill, if_pos hfill, prices_append, hlow, ← h.highPx, ← h.lowPx]
  · obtain ⟨entry, htape, hentry⟩ := prints_fill actions frame hfill
    -- The new print is in front, and what the cap drops is at the end on both sides.
    have hrest := List.forall₂_take (tapeCap - 1) h.tape
    rw [reverse_newest, List.take_take] at hrest
    rw [htape, reverse_newest, List.reverse_append]
    exact .cons hentry hrest

/-! ## A session -/

/-- The figures and the tape of a session in which each fill has a positive price. -/
theorem statistics_reduce {actions : List Action} (hpos : ∀ f ∈ fills actions, 0 < f.frame.price) :
    Statistics (reduce actions) (fills actions) := by
  induction actions using List.reverseRecOn with
  | nil => exact ⟨fun _ => rfl, fun _ => rfl, rfl, rfl, rfl, .nil⟩
  | append_singleton actions action ih =>
    rw [reduce_append]
    cases h : action.fill with
    | none =>
      rw [fills_append_of_none h] at hpos ⊢
      exact (ih hpos).congr (sameFigures_reducer _ h)
    | some frame =>
      rw [fills_append_of_some h] at hpos ⊢
      have hbefore : ∀ f ∈ fills actions, 0 < f.frame.price :=
        fun f hf => hpos f (List.mem_append_left _ hf)
      obtain ⟨rfl, hfill⟩ := fill_eq_some_iff.mp h
      -- An EXEC frame moves the rows, the log and the time besides, which no figure reads.
      exact ((ih hbefore).applyFill hbefore hfill).congr ⟨rfl, rfl, rfl, rfl, rfl, rfl⟩

/-- What the tape says of its prints is what it says of the newest fills. -/
theorem Statistics.map_tape {α : Type*} {state : AppState} {fs : List Fill}
    (h : Statistics state fs) {get : TapeEntry → α} {of : Fill → α}
    (hget : ∀ entry f, Prints entry f → get entry = of f) :
    state.tape.reverse.map get = (newest fs).map of := by
  have hmap : List.Forall₂ Eq (state.tape.map get) ((newest fs).reverse.map of) := by
    rw [List.forall₂_map_left_iff, List.forall₂_map_right_iff]
    exact h.tape.imp hget
  rw [List.forall₂_eq_eq_eq] at hmap
  rw [List.map_reverse, hmap, List.map_reverse, List.reverse_reverse]

/-- Each price of a session lies between its low and its high. -/
theorem Statistics.within {state : AppState} {fs : List Fill} (h : Statistics state fs) {c : ℤ}
    (hc : c ∈ prices fs) : state.sessionLowPx ≤ c ∧ c ≤ state.sessionHighPx := by
  have hne : prices fs ≠ [] := List.ne_nil_of_mem hc
  obtain ⟨low, hlow⟩ := Option.ne_none_iff_exists'.mp (mt List.min?_eq_none_iff.mp hne)
  obtain ⟨high, hhigh⟩ := Option.ne_none_iff_exists'.mp (mt List.max?_eq_none_iff.mp hne)
  rw [h.lowPx, h.highPx, hlow, hhigh]
  exact ⟨(List.min?_eq_some_iff.mp hlow).2 c hc, (List.max?_eq_some_iff.mp hhigh).2 c hc⟩

/-- The chart of a state with the statistics of some fills charts the fills. -/
theorem Statistics.charted {state : AppState} {fs : List Fill} (h : Statistics state fs) :
    Charted state fs := by
  obtain ⟨hmin, hmax⟩ := bounds_buildPriceSeries state.tape
  rw [h.map_tape fun entry f hp => hp.pricePx] at hmin hmax
  refine ⟨?_, hmin, hmax, ?_⟩
  · rw [points_buildPriceSeries]
    exact h.map_tape fun entry f hp => by rw [TapeEntry.point, hp.timestamp, hp.pricePx]
  · intro c hc
    have hmem : c ∈ prices (newest fs) := by
      rcases hc with hc | hc
      · exact List.min?_mem (hmin.symm.trans hc)
      · exact List.max?_mem (hmax.symm.trans hc)
    obtain ⟨f, hf, rfl⟩ := List.mem_map.mp hmem
    exact h.within (List.mem_map_of_mem (List.mem_of_mem_drop hf))

/-- The session figures are those of the whole history, whatever came between the fills: the fills
are those of the EXEC frames in the order of their arrival, the figures are folded over all of them
(the volume and the count as long as they are safe integers), the tape has the newest of them, and
the chart has the same oldest first. -/
theorem session_statistics (actions : List Action)
    (hpos : ∀ frame ∈ execs actions, isFill frame = true → 0 < frame.price) :
    (fills actions).map Fill.frame = (execs actions).filter isFill ∧
      Statistics (reduce actions) (fills actions) ∧ Charted (reduce actions) (fills actions) := by
  have hfills : ∀ f ∈ fills actions, 0 < f.frame.price := by
    intro f hf
    have hframe := List.mem_map_of_mem (f := Fill.frame) hf
    rw [frame_fills, List.mem_filter] at hframe
    exact hpos f.frame hframe.1 hframe.2
  have hstatistics := statistics_reduce hfills
  exact ⟨frame_fills actions, hstatistics, hstatistics.charted⟩

/-- A session of two fills, with an order of the terminal in the first of them only. -/
def twoFills : List Action :=
  [.connection .open,
    .sent (.new ⟨7, .buy, .limit, .gtc, 1500000, 10, 0⟩) none,
    .frame (.exec ⟨onFill 7 3 1 1499000 4 6, 100⟩),
    .frame (.book ⟨1500000, 1502500, [(1500000, 6)], [(1502500, 4)], 101⟩),
    .connection .reconnecting,
    .frame (.exec ⟨onFill 9 8 2 1502500 5 0, 102⟩)]

/-- The figures and the chart of these two fills. -/
theorem session_statistics_twoFills :
    (reduce twoFills).sessionVolume = 9 ∧ (reduce twoFills).sessionLowPx = 1499000 ∧
      (reduce twoFills).tape.map TapeEntry.mine = [false, true] ∧
      (fills twoFills).map Fill.frame = (execs twoFills).filter isFill ∧
      Statistics (reduce twoFills) (fills twoFills) ∧ Charted (reduce twoFills) (fills twoFills) :=
  ⟨rfl, rfl, rfl, session_statistics twoFills (by decide)⟩

/-- Two fills whose quantities are safe integers, and their sum is not. -/
def largeFills : List Action :=
  [.frame (.exec ⟨onFill 1 2 1 10000 (2^53 - 1) 0, 100⟩),
    .frame (.exec ⟨onFill 3 4 2 10000 2 0, 101⟩)]

/-- The volume of these is one less than the sum of their quantities. -/
theorem volume_not_sum :
    (∀ frame ∈ execs largeFills, isFill frame = true → 0 < frame.price) ∧
      (execs largeFills).filter isFill = execs largeFills ∧
      ((execs largeFills).map fun frame => frame.filledQuantity).sum = 9007199254740993 ∧
      (reduce largeFills).sessionVolume = 9007199254740992 :=
  ⟨by decide, by decide, by decide, by decide +kernel⟩

end Terminal

end MatchingVenue
