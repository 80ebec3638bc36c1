import MatchingVenue.Library.Tally
import MatchingVenue.Terminal.NumberText
import MatchingVenue.Terminal.TradeFigures

/-!
# The header

The header sums the rows of the blotter up: what has been executed of the terminal's orders, and
what of them still waits. No report tells either of the two, and the passive fills are counted by
the terminal itself. Where it has seen the whole stream the sums are those over the engine's trades
and queues, and the other figures of the header are those of the last trade, of all trades and of
the tops of the book (`Watches.header_shown`).
-/

namespace MatchingVenue

namespace Terminal

open Text MatchingEngineHandler MatchingEngine

/-! ## The figures of the header -/

/-- What has been executed of some orders. -/
def sessionFilledQty (orders : List MyOrder) : ℤ :=
  orders.foldl (fun sum o => Double.add sum (max 0 (Double.add o.originalQty (-o.remainingQty)))) 0

/-- What of some orders still waits. -/
def sessionWorkingQty (orders : List MyOrder) : ℤ :=
  orders.foldl (fun sum o => if isTerminal o.status then sum else Double.add sum o.remainingQty) 0

/-- `replace(/\B(?=(\d{3})+(?!\d))/g, ',')` of digits: a comma in front of each digit, but for the
first, from which on the number of digits is a multiple of three. -/
def groupDigits (first : Bool) : Text → Text
  | [] => []
  | c :: rest =>
    if !first && (rest.length + 1) % 3 = 0 then lit "," ++ c :: groupDigits false rest
      else c :: groupDigits false rest

/-- The text of a quantity. -/
def formatQty (n : ℤ) : Text :=
  if n < 0 then minus :: groupDigits true (digits n.natAbs) else groupDigits true (digits n.natAbs)

/-- The text of the midpoint of two tops. A midpoint that is no whole number has no price. -/
def midpointLabel (bestBid bestAsk : ℤ) : Text :=
  if bestBid ≤ 0 ∨ bestAsk ≤ 0 then emptyPrice
  else
    let sum := Double.add bestBid bestAsk
    if sum % 2 = 0 then formatPrice (sum / 2) else emptyPrice

/-- The spread of two tops in ticks. -/
def spreadTicksLabel (bestBid bestAsk : ℤ) : Text :=
  if bestBid ≤ 0 ∨ bestAsk ≤ 0 then emptyPrice
  else numberText (Double.round ((Double.add bestAsk (-bestBid) : ℤ) / 100))

/-- The spread of two tops in basis points of the midpoint. -/
def spreadBpsLabel (bestBid bestAsk : ℤ) : Text :=
  if bestBid ≤ 0 ∨ bestAsk ≤ 0 then emptyPrice
  else
    let spread := Double.ofInt (20000 * Double.add bestAsk (-bestBid))
    toFixed 2 (Double.round ((spread : ℚ) / (Double.add bestAsk bestBid : ℤ)))

/-- Where the price of a session has gone. -/
inductive ChangeDirection where
  | up
  | down
  | flat
  | none
  deriving DecidableEq, Repr

/-- The texts of the change of a session, and its direction. -/
structure ChangeParts where
  abs : Text
  pct : Text
  dir : ChangeDirection

/-- The change of a session in dollars and in percent. -/
def changeLabel (lastPx sessionOpenPx : ℤ) : ChangeParts :=
  if lastPx ≤ 0 ∨ sessionOpenPx ≤ 0 then ⟨emptyPrice, emptyPrice, .none⟩
  else
    let deltaPx := Double.add lastPx (-sessionOpenPx)
    let dir := if deltaPx > 0 then .up else if deltaPx < 0 then .down else .flat
    let sign := if deltaPx > 0 then lit "+" else if deltaPx < 0 then lit "-" else []
    let pctValue := Double.round (Double.round ((deltaPx : ℚ) / sessionOpenPx) * 100)
    { abs := sign ++ formatPrice deltaPx.natAbs
      pct := (if deltaPx > 0 then lit "+" else []) ++ toFixed 2 pctValue ++ lit "%"
      dir }

/-- The texts of the header. -/
structure HeaderModel where
  last : Text
  changeAbs : Text
  changePct : Text
  changeDir : ChangeDirection
  bestBid : Text
  bestAsk : Text
  mid : Text
  spreadTicks : Text
  spreadBps : Text
  volume : Text
  filledQty : Text
  remainingQty : Text
  lastFrame : Text

/-- The header of a state. `localTime` is the clock of the browser. -/
def deriveHeader (localTime : ℤ → LocalTime) (state : AppState) : HeaderModel :=
  let lastPx := (state.tape.head?.map TapeEntry.pricePx).getD (-1)
  let change := changeLabel lastPx state.sessionOpenPx
  { last := formatPrice lastPx
    changeAbs := change.abs
    changePct := change.pct
    changeDir := change.dir
    bestBid := formatPrice state.book.bestBid
    bestAsk := formatPrice state.book.bestAsk
    mid := midpointLabel state.book.bestBid state.book.bestAsk
    spreadTicks := spreadTicksLabel state.book.bestBid state.book.bestAsk
    spreadBps := spreadBpsLabel state.book.bestBid state.book.bestAsk
    volume := formatQty state.sessionVolume
    filledQty := formatQty (sessionFilledQty state.myOrders)
    remainingQty := formatQty (sessionWorkingQty state.myOrders)
    lastFrame := formatClockNanos localTime state.lastFrameNanos .ms }

/-- What an order still has to wait for. -/
def workingQty (row : MyOrder) : ℤ := if isTerminal row.status then 0 else row.remainingQty

/-- Rows whose quantities are not negative and add up to a safe integer. -/
def Sized (rows : List MyOrder) : Prop :=
  (∀ row ∈ rows, 0 ≤ row.originalQty) ∧ (rows.map MyOrder.originalQty).sum ≤ Double.maxSafe

/-- What is at most the quantity of each of such rows is summed up to its sum. -/
theorem Sized.sum_eq {rows : List MyOrder} (h : Sized rows) {f : MyOrder → ℤ}
    (hf : ∀ row ∈ rows, 0 ≤ f row ∧ f row ≤ row.originalQty) {p : MyOrder → Bool} :
    Double.sum ((rows.filter p).map f) = ((rows.filter p).map f).sum := by
  have hle : ((rows.filter p).map f).sum ≤ (rows.map MyOrder.originalQty).sum := by
    calc ((rows.filter p).map f).sum ≤ (rows.map f).sum := by
          refine List.Sublist.sum_le_sum (List.filter_sublist.map f) fun x hx => ?_
          obtain ⟨row, hrow, rfl⟩ := List.mem_map.mp hx
          exact (hf row hrow).1
      _ ≤ (rows.map MyOrder.originalQty).sum := List.sum_le_sum fun row hrow => (hf row hrow).2
  refine Double.sum_eq (.of_nonneg (fun x hx => ?_) (hle.trans h.2))
  obtain ⟨row, hrow, rfl⟩ := List.mem_map.mp hx
  exact (hf row (List.mem_of_mem_filter hrow)).1

/-- A part of the quantity of one of such rows is a safe integer. -/
theorem Sized.isSafe {rows : List MyOrder} (h : Sized rows) {row : MyOrder}
    (hrow : row ∈ rows) {n : ℤ} (hnonneg : 0 ≤ n) (hle : n ≤ row.originalQty) :
    Double.isSafe n.natAbs := by
  have hpart : row.originalQty ≤ (rows.map MyOrder.originalQty).sum := by
    refine List.single_le_sum (fun x hx => ?_) _ (List.mem_map_of_mem hrow)
    obtain ⟨row', hrow', rfl⟩ := List.mem_map.mp hx
    exact h.1 row' hrow'
  have htotal := h.2
  exact decide_eq_true (by omega)

/-- What remains of each row is a part of its quantity. -/
def Parted (rows : List MyOrder) : Prop :=
  ∀ row ∈ rows, 0 ≤ row.remainingQty ∧ row.remainingQty ≤ row.originalQty

/-- What has been executed of such rows. -/
theorem sessionFilledQty_eq {rows : List MyOrder} (h : Sized rows) (hparted : Parted rows) :
    sessionFilledQty rows = (rows.map fun o => o.originalQty - o.remainingQty).sum := by
  have hrow : ∀ row ∈ rows, max 0 (Double.add row.originalQty (-row.remainingQty)) =
      row.originalQty - row.remainingQty := by
    intro row hrow
    obtain ⟨hlow, hhigh⟩ := hparted row hrow
    have hsafe : Double.isSafe (row.originalQty + -row.remainingQty).natAbs :=
      h.isSafe hrow (by omega) (by omega)
    rw [Double.add_eq hsafe]
    omega
  calc sessionFilledQty rows
      = Double.sum (rows.map fun o => max 0 (Double.add o.originalQty (-o.remainingQty))) := by
        rw [Double.sum, List.foldl_map]
        rfl
    _ = Double.sum ((rows.filter fun _ => true).map fun o => o.originalQty - o.remainingQty) := by
        rw [List.filter_true, List.map_congr_left hrow]
    _ = (rows.map fun o => o.originalQty - o.remainingQty).sum := by
        rw [h.sum_eq fun row hrow => ?_, List.filter_true]
        have := hparted row hrow
        omega

/-- What of such rows still waits. -/
theorem sessionWorkingQty_eq {rows : List MyOrder} (h : Sized rows) (hparted : Parted rows) :
    sessionWorkingQty rows = (rows.map workingQty).sum := by
  have hfilter : ∀ (sum : ℤ) (o : MyOrder), (if isTerminal o.status then sum
      else Double.add sum o.remainingQty) =
        if (!isTerminal o.status) = true then Double.add sum o.remainingQty else sum := by
    intro sum o
    cases isTerminal o.status <;> rfl
  calc sessionWorkingQty rows
      = Double.sum ((rows.filter fun o => !isTerminal o.status).map MyOrder.remainingQty) := by
        rw [Double.sum, List.foldl_map, List.foldl_filter, sessionWorkingQty]
        simp only [hfilter]
    _ = ((rows.filter fun o => !isTerminal o.status).map MyOrder.remainingQty).sum :=
        h.sum_eq hparted
    _ = (rows.map workingQty).sum := by
        have hunless := sum_map_unless (fun o : MyOrder => isTerminal o.status = true)
          MyOrder.remainingQty rows
        simp only [Bool.not_eq_true, ← Bool.not_eq_true'] at hunless
        exact (hunless.trans (by simp)).symm

/-! ## One row -/

/-- What rests under an id. -/
def restingQty (X : ℤ) (s : MatchingEngine) : ℤ :=
  ((s.resting.filter fun r => r.orderID = X).map fun r => (r.quantity : ℤ)).sum

/-- What rests under an id is what its account has left, where the account waits. -/
theorem restingQty_eq {X : ℤ} {s : MatchingEngine} {a : Account} (h : Tracks X (none, s) a)
    (hq : s.Queued) :
    (∀ n, a.At .resting n → restingQty X s = n) ∧
      ((∀ n, ¬ a.At .resting n) → restingQty X s = 0) := by
  have hplaces : (s.resting.filter fun r => r.orderID = X).map (fun r => r.toOrder.place .queue) ++
      placesOf X .gone s.retired = a.places := by
    rw [← h.settled_eq, settled]
    refine congrArg (· ++ _) ?_
    rw [placesOf, List.filter_map, List.map_map]
    rfl
  have hmem : ∀ r ∈ s.resting.filter (fun r => r.orderID = X), a.At .resting r.quantity := by
    intro r hr
    obtain ⟨hr, hid⟩ := List.mem_filter.mp hr
    exact (h.at_resting hq _).mpr ⟨r, hr, by simpa using hid, rfl⟩
  cases hrows : s.resting.filter fun r => r.orderID = X with
  | nil =>
    refine ⟨fun n hn => ?_, fun _ => by rw [restingQty, hrows]; rfl⟩
    obtain ⟨r, hr, hid, -⟩ := (h.at_resting hq n).mp hn
    have hin : r ∈ s.resting.filter fun r => r.orderID = X :=
      List.mem_filter.mpr ⟨hr, by simpa using hid⟩
    rw [hrows] at hin
    exact absurd hin List.not_mem_nil
  | cons r rest =>
    have hat := hmem r (hrows ▸ List.mem_cons_self)
    refine ⟨fun n hn => ?_, fun hno => absurd hat (hno _)⟩
    -- Its place is the only one of the account.
    obtain ⟨t, rfl, hstage, hleft⟩ := hat
    rw [hrows, List.map_cons, List.cons_append, Account.places] at hplaces
    have hrest : rest = [] := by
      have hnil := (List.append_eq_nil_iff.mp (List.cons.inj hplaces).2).1
      exact List.map_eq_nil_iff.mp hnil
    rw [restingQty, hrows, hrest]
    rw [Account.at_admitted] at hn
    simp [← hleft, hn.2]

section Session

variable {events : List OrderEvent} {actions : List Action}

/-- A row mirrors the account of its order. -/
theorem Fed.mirrors (h : Fed events actions) {row : MyOrder}
    (hrow : row ∈ (reduce actions).myOrders) :
    ∃ a, Standing events row.clOrdId a ∧ Mirrors row a := by
  obtain ⟨frame, sentAtNanos, hfold, hqty⟩ := h.row hrow
  have hquantity : ∀ event ∈ events, event.eventType = .newOrder →
      event.orderId = (newRow frame sentAtNanos).clOrdId →
        toInt event.quantity = (newRow frame sentAtNanos).originalQty := by
    intro event hevent htype hid
    rw [toInt_eq_iff.mpr (h.fits event hevent htype)]
    exact hqty event hevent htype hid
  obtain ⟨a, ha, hmirrors, -⟩ :=
    mirrors_after h.distinct h.cancels (shows_newRow True frame sentAtNanos) hquantity h.stream
  have hid : row.clOrdId = (newRow frame sentAtNanos).clOrdId := by rw [hfold, clOrdId_foldl]
  rw [← hfold] at hmirrors
  rw [← hid] at ha
  exact ⟨a, ha, hmirrors⟩

/-- What has been executed of a row is what the trades of its order come to. -/
theorem Fed.filled_row (h : Fed events actions) {row : MyOrder}
    (hrow : row ∈ (reduce actions).myOrders) :
    row.originalQty - row.remainingQty =
      tradedQuantity row.clOrdId (after events).engine.trades := by
  obtain ⟨a, ha, hmirrors⟩ := h.mirrors hrow
  rw [hmirrors.executed, ha.tracks.executed]

/-- What remains of rows whose quantities are not negative is a part of these. -/
theorem Fed.parted (h : Fed events actions) (hsized : Sized (reduce actions).myOrders) :
    Parted (reduce actions).myOrders := by
  intro row hrow
  have hqty := hsized.1 row hrow
  obtain ⟨a, -, hmirrors⟩ := h.mirrors hrow
  have hexecuted := hmirrors.executed
  cases a with
  | unknown =>
    obtain ⟨-, hsame⟩ := hmirrors
    omega
  | refused =>
    obtain ⟨-, hsame⟩ := hmirrors
    omega
  | admitted t =>
    obtain ⟨-, -, hremaining⟩ := hmirrors
    omega

/-- What of a row still waits is what rests under its id, or the whole of an order that has not been
processed. -/
theorem Fed.working_row (h : Fed events actions) {row : MyOrder}
    (hrow : row ∈ (reduce actions).myOrders) :
    workingQty row = restingQty row.clOrdId (after events).engine +
      if row.clOrdId ∈ newIds events then 0 else row.originalQty := by
  obtain ⟨a, ha, hmirrors⟩ := h.mirrors hrow
  obtain ⟨hrests, hnone⟩ := restingQty_eq ha.tracks (reachable_after events).queued
  cases a with
  | unknown =>
    have hno : row.clOrdId ∉ newIds events := ha.unknown.mp rfl
    have hopen : isTerminal row.status = false := by
      rw [hmirrors.1]
      rfl
    rw [if_neg hno, hnone (by simp [Account.At]), workingQty, hopen, hmirrors.2]
    simp
  | refused =>
    have hin : row.clOrdId ∈ newIds events := by
      by_contra hno
      cases ha.unknown.mpr hno
    have hended : isTerminal row.status = true := by
      rw [hmirrors.1]
      rfl
    rw [if_pos hin, hnone (by simp [Account.At]), workingQty, hended]
    rfl
  | admitted t =>
    have hin : row.clOrdId ∈ newIds events := by
      by_contra hno
      cases ha.unknown.mpr hno
    have hopen := isTerminal_statusOf (t := t)
    rw [← hmirrors.1] at hopen
    rw [if_pos hin, workingQty]
    by_cases hstage : t.stage = .resting
    · rw [hopen.mpr (.inr hstage), hrests _ (Account.at_admitted.mpr ⟨hstage, rfl⟩), hmirrors.2.2]
      simp
    · have hended : isTerminal row.status = true := by
        rw [← Bool.not_eq_false, hopen, not_or]
        exact ⟨ha.tracks.not_working, hstage⟩
      rw [hended, hnone fun n hn => hstage (Account.at_admitted.mp hn).1]
      rfl

/-! ## All rows -/

/-- The texts of the header say what has come of the orders of some rows at a venue. The volume does
as long as it is a safe integer, and the sums over the rows do as long as their quantities add up to
one. -/
structure ShowsVenue (events : List OrderEvent) (rows : List MyOrder) (m : HeaderModel) : Prop where
  /-- The last price is that of the last trade. -/
  last : m.last =
    ((after events).engine.trades.getLast?.map fun trade => formatPrice trade.price).getD emptyPrice
  /-- The change is that from the first trade to the last. -/
  change : ∀ first last, (after events).engine.trades.head? = some first →
    (after events).engine.trades.getLast? = some last →
      m.changeDir = (if first.price < last.price then .up
        else if last.price < first.price then .down else .flat) ∧
      m.changeAbs = (if first.price < last.price then lit "+"
        else if last.price < first.price then lit "-" else []) ++
          formatPrice |last.price - first.price|
  /-- The volume is that of all trades, where that is safe. -/
  volume : volumeOf (after events).engine.trades ≤ Double.maxSafe →
    m.volume = formatQty (volumeOf (after events).engine.trades)
  /-- What is filled is what the trades have executed of the orders of the rows. -/
  filledQty : Sized rows → m.filledQty =
    formatQty (rows.map fun row =>
      (tradedQuantity row.clOrdId (after events).engine.trades : ℤ)).sum
  /-- The orders of the rows that rest, and those that the venue has not come to yet. -/
  remainingQty : Sized rows → m.remainingQty = formatQty (
    (((after events).engine.resting.filter fun r => r.orderID ∈ rows.map MyOrder.clOrdId).map
        fun r => (r.quantity : ℤ)).sum +
        ((rows.filter fun row => row.clOrdId ∉ newIds events).map MyOrder.originalQty).sum)
  /-- The midpoint is the one at which the engine would print pegs. -/
  mid : m.mid = if (after events).engine.mid = Prices.na then emptyPrice
    else formatPrice (after events).engine.mid
  /-- The spread is that of the tops, in ticks. -/
  spreadTicks : m.spreadTicks = if (after events).engine.mid = Prices.na then emptyPrice
    else toText (((after events).engine.getBestAsk - (after events).engine.getBestBid) / 100)

/-- What the header makes of the tops of an engine whose prices are safe integers: the midpoint of
the engine, and the ticks between the tops. -/
theorem tops_shown {s : MatchingEngine} (hq : s.Queued) (hbelow : s.Below (2^53)) :
    midpointLabel s.getBestBid s.getBestAsk =
        (if s.mid = Prices.na then emptyPrice else formatPrice s.mid) ∧
      spreadTicksLabel s.getBestBid s.getBestAsk =
        (if s.mid = Prices.na then emptyPrice
          else toText ((s.getBestAsk - s.getBestBid) / 100)) := by
  rcases hq.mid_cases hbelow (by decide) with ⟨hempty, hna⟩ |
    ⟨bid, ask, hbid, hask, hbidPos, hbidLt, hbidTick, haskPos, haskLt, haskTick, hmean⟩
  · have hnone : s.getBestBid ≤ 0 ∨ s.getBestAsk ≤ 0 := by
      refine hempty.imp (fun h => ?_) fun h => ?_
      · simp [getBestBid, SortedMap.firstKey, h, Prices.na]
      · simp [getBestAsk, SortedMap.firstKey, h, Prices.na]
    rw [midpointLabel, spreadTicksLabel, if_pos hnone, if_pos hnone, if_pos hna, if_pos hna]
    exact ⟨rfl, rfl⟩
  have hB : s.getBestBid = bid := by rw [getBestBid, hbid]; rfl
  have hA : s.getBestAsk = ask := by rw [getBestAsk, hask]; rfl
  have hpos : ¬ s.mid = Prices.na := by
    unfold Prices.na
    omega
  have htops : ¬ (bid ≤ 0 ∨ ask ≤ 0) := by omega
  -- The sum of the tops is even, so that it has no more than 53 bits before its last zero.
  have hsum : Double.add bid ask = bid + ask := by
    have hheld : Double.Held (bid + ask).natAbs := by
      refine ⟨s.mid.natAbs, 1, ?_, ?_⟩
      · unfold Double.precision
        omega
      · omega
    exact hheld.ofInt_eq
  have hdiff : Double.add ask (-bid) = ask - bid := by
    refine Double.add_eq (decide_eq_true ?_)
    unfold Double.maxSafe Double.precision
    omega
  have hticks : ((ask - bid : ℤ) : ℚ) / 100 = ((ask - bid) / 100 : ℤ) := by
    rw [Int.cast_div (by omega) (by norm_num)]
    norm_num
  have hsafe : ((ask - bid) / 100).natAbs < 2 ^ Double.precision := by
    unfold Double.precision
    omega
  have heven : (bid + ask) % 2 = 0 := by omega
  have hhalf : (bid + ask) / 2 = s.mid := by omega
  rw [hB, hA, if_neg hpos, if_neg hpos]
  constructor
  · simp only [midpointLabel, if_neg htops, hsum, if_pos heven, hhalf]
  · rw [spreadTicksLabel, if_neg htops, hdiff, hticks, Double.round_intCast hsafe,
      numberText_intCast hsafe]

/-- The change between two prices that are safe integers. -/
theorem changeLabel_eq {lastPx firstPx : ℤ} (hlast : 0 < lastPx ∧ lastPx < 2^53)
    (hfirst : 0 < firstPx ∧ firstPx < 2^53) :
    (changeLabel lastPx firstPx).abs = (if firstPx < lastPx then lit "+"
        else if lastPx < firstPx then lit "-" else []) ++ formatPrice |lastPx - firstPx| ∧
      (changeLabel lastPx firstPx).dir = if firstPx < lastPx then .up
        else if lastPx < firstPx then .down else .flat := by
  have hset : ¬ (lastPx ≤ 0 ∨ firstPx ≤ 0) := by omega
  have hdelta : Double.add lastPx (-firstPx) = lastPx - firstPx := by
    refine Double.add_eq (decide_eq_true ?_)
    unfold Double.maxSafe Double.precision
    omega
  rw [changeLabel, if_neg hset, hdelta]
  simp only [gt_iff_lt, sub_pos, sub_neg, Int.natCast_natAbs, and_self]

end Session

/-- A BOOK frame is nothing to the orders. -/
theorem Watches.book {events : List OrderEvent} {actions : List Action} (h : Watches events actions)
    (frame : BookState) : Watches events (actions ++ [.frame (.book frame)]) := by
  have hpre : ∀ pre (new : NewOrderFrame) sentAtNanos,
      pre ++ [.sent (.new new) sentAtNanos] <+: actions ++ [.frame (.book frame)] →
        pre ++ [.sent (.new new) sentAtNanos] <+: actions := by
    intro pre new sentAtNanos hprefix
    rcases List.prefix_concat_iff.mp hprefix with heq | hprefix
    · exact nomatch (List.append_inj_right' heq rfl)
    · exact hprefix
  have hexecs : execs (actions ++ [.frame (.book frame)]) = execs actions := by
    rw [execs_append]
    exact List.append_nil _
  exact ⟨⟨h.distinct, h.fits, h.cancels, hexecs ▸ h.stream,
    fun pre new _ hp => h.sent pre new _ (hpre pre new _ hp)⟩,
    fun pre new _ hp => h.sides pre new _ (hpre pre new _ hp), h.safe⟩

end Terminal

end MatchingVenue
