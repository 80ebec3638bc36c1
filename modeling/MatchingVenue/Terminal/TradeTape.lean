import MatchingVenue.Terminal.Header

/-!
# The tape and the statistics

The component of the tape filters the prints by their size and colours each by the next older one
that it shows, and the panel beside the chart prints the figures of the session. In a session as in
`Watches.trades_shown` both say of the engine's trades what they are to say of them
(`Watches.tape_coloured`).
-/

namespace MatchingVenue

namespace Terminal

open Text MatchingEngineHandler

/-! ## The tape -/

/-- Which prints are shown. -/
inductive BlockFilter where
  | all
  | gt200
  | gt500
  deriving DecidableEq, Repr

/-- Whether a print is large enough for the filter. -/
def passesBlockFilter (quantity : ℤ) : BlockFilter → Bool
  | .gt200 => quantity > 200
  | .gt500 => quantity > 500
  | .all => true

/-- Where a print has moved the price. -/
inductive TickDirection where
  | up
  | down
  | flat
  deriving DecidableEq, Repr

/-- Where a price is from the one before it, if there is one. -/
def tickDirection (pricePx : ℤ) : Option ℤ → TickDirection
  | none => .flat
  | some prev => if pricePx > prev then .up else if pricePx < prev then .down else .flat

/-- The directions of some prints, newest first. -/
def tickDirections (entries : List TapeEntry) : List TickDirection :=
  entries.mapIdx fun i entry => tickDirection entry.pricePx (entries[i + 1]?.map TapeEntry.pricePx)

/-- The prints that the component shows. -/
def shownEntries (filter : BlockFilter) (tape : List TapeEntry) : List TapeEntry :=
  tape.filter fun entry => passesBlockFilter entry.quantity filter

/-! ## The statistics -/

/-- The texts of the panel. -/
structure SessionStatsModel where
  high : Text
  low : Text
  trades : Text
  lastPrice : Text
  lastSize : Text

/-- The figures of the session, written. -/
def buildSessionStats (state : AppState) : SessionStatsModel where
  high := formatPrice state.sessionHighPx
  low := formatPrice state.sessionLowPx
  trades := formatQty state.sessionTradeCount
  lastPrice := (state.tape.head?.map fun entry => formatPrice entry.pricePx).getD emptyPrice
  lastSize := (state.tape.head?.map fun entry => formatQty entry.quantity).getD emptyPrice

/-! ## What they say of the trades -/

/-- The newest trades on the tape that pass a filter, newest first. -/
def newestTrades (filter : BlockFilter) (trades : List Trade) : List Trade :=
  (trades.reverse.take tapeCap).filter fun trade => passesBlockFilter trade.quantity filter

/-- The statistics of some trades. -/
structure StatsOf (log : List Trade) (m : SessionStatsModel) : Prop where
  /-- The high is the greatest price. -/
  high : m.high = ((log.map Trade.price).max?.map formatPrice).getD emptyPrice
  /-- The low is the least price. -/
  low : m.low = ((log.map Trade.price).min?.map formatPrice).getD emptyPrice
  /-- The count is that of the trades, where that is safe. -/
  trades : log.length ≤ Double.maxSafe → m.trades = formatQty log.length
  /-- The last price is that of the last trade. -/
  lastPrice : m.lastPrice = (log.getLast?.map fun trade => formatPrice trade.price).getD emptyPrice
  /-- The last size is that of the last trade. -/
  lastSize : m.lastSize = (log.getLast?.map fun trade => formatQty trade.quantity).getD emptyPrice

section Shown

variable {own : List ℤ} {tape : List TapeEntry} {trades : List Trade}

/-- A filter takes the entries of the trades that it takes. -/
theorem shows_filter (h : List.Forall₂ (ShowsTrade own) tape trades) (filter : BlockFilter) :
    List.Forall₂ (ShowsTrade own) (shownEntries filter tape)
      (trades.filter fun trade => passesBlockFilter trade.quantity filter) := by
  refine List.rel_filter ?_ h
  intro entry trade hshows
  show passesBlockFilter entry.quantity filter = true ↔
    passesBlockFilter trade.quantity filter = true
  rw [hshows.quantity]

/-- Each entry has the direction from the next older trade. -/
theorem getElem?_tickDirections (h : List.Forall₂ (ShowsTrade own) tape trades) (i : ℕ) :
    (tickDirections tape)[i]? =
      trades[i]?.map fun trade => tickDirection trade.price (trades[i + 1]?.map Trade.price) := by
  have hprices := map_shown h TapeEntry.pricePx Trade.price fun _ _ hshows => hshows.pricePx
  have hprice : ∀ j : ℕ, tape[j]?.map TapeEntry.pricePx = trades[j]?.map Trade.price := by
    intro j
    rw [← List.getElem?_map, hprices, List.getElem?_map]
  calc (tickDirections tape)[i]?
      = tape[i]?.map fun entry => tickDirection entry.pricePx
          (tape[i + 1]?.map TapeEntry.pricePx) := by
        rw [tickDirections, List.getElem?_mapIdx]
    _ = (tape[i]?.map TapeEntry.pricePx).map fun px =>
        tickDirection px (tape[i + 1]?.map TapeEntry.pricePx) := by
        rw [Option.map_map]
        rfl
    _ = (trades[i]?.map Trade.price).map fun px =>
        tickDirection px (trades[i + 1]?.map Trade.price) := by
        rw [hprice i, hprice (i + 1)]
    _ = trades[i]?.map fun trade => tickDirection trade.price (trades[i + 1]?.map Trade.price) := by
        rw [Option.map_map]
        rfl

end Shown

/-- A price that is not set is written as empty. -/
theorem formatPrice_unset (price : Option ℤ) :
    formatPrice (price.getD sessionOpenUnset) = (price.map formatPrice).getD emptyPrice := by
  cases price with
  | none => exact if_pos (by decide)
  | some px => rfl

/-- In a session as in `Watches.trades_shown` the tape shows, for each filter, the trades among the
newest that pass it, each with the direction of its price from the next older of these, and the
panel has the highest and the lowest price, the number, as long as that is a safe integer, and the
last of all trades. -/
theorem Watches.tape_coloured {events : List OrderEvent} {actions : List Action}
    (h : Watches events actions) :
    (∀ filter,
      List.Forall₂ (ShowsTrade (rowIds actions)) (shownEntries filter (reduce actions).tape)
        (newestTrades filter (after events).engine.trades) ∧
      ∀ i : ℕ, (tickDirections (shownEntries filter (reduce actions).tape))[i]? =
        (newestTrades filter (after events).engine.trades)[i]?.map fun trade =>
          tickDirection trade.price
            ((newestTrades filter (after events).engine.trades)[i + 1]?.map Trade.price)) ∧
      StatsOf (after events).engine.trades (buildSessionStats (reduce actions)) := by
  have hfigures := h.figures
  have htape := h.shows_tape
  refine ⟨fun filter =>
    ⟨shows_filter htape filter, getElem?_tickDirections (shows_filter htape filter)⟩, ?_⟩
  refine ⟨?_, ?_, fun hsafe => congrArg formatQty (hfigures.count hsafe), ?_, ?_⟩
  · rw [buildSessionStats, hfigures.highPx, formatPrice_unset]
  · rw [buildSessionStats, hfigures.lowPx, formatPrice_unset]
  · exact congrArg (Option.getD · emptyPrice)
      (head?_shown htape _ _ fun entry trade hshows => congrArg formatPrice hshows.pricePx)
  · exact congrArg (Option.getD · emptyPrice)
      (head?_shown htape _ _ fun entry trade hshows => congrArg formatQty hshows.quantity)

example : (buildSessionStats (reduce blotterActions)).trades = lit "2" ∧
    tickDirections (shownEntries .all (reduce blotterActions).tape) = [.flat, .flat] := by decide

end Terminal

end MatchingVenue
