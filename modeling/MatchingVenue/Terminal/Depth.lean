import MatchingVenue.Engine.Runs
import MatchingVenue.Publisher.WebSocketPublisher
import MatchingVenue.Terminal.Messages

/-!
# Depth, from the book to the terminal

A depth snapshot passes through a slot that keeps the tails of earlier snapshots, the publisher's
JSON and the terminal's parser. `Depth` says what the best levels of a side are, in terms of the
resting orders alone: limit orders by their displayed slices, with no pegs and no hidden reserve.
`depth_snapshot_faithful` is the whole way: the slot holds the depth of both sides, and the terminal
stores what the slot holds.

The displayed quantity of a level is added up as a `long`. `Sized` is what the types of the source
bound, the sizes of orders and of deques, and with it the sum does not wrap.
-/

namespace MatchingVenue

namespace MatchingEngine

/-! ## The depth of a side -/

/-- A limit order of a side. -/
def LitOn (side : Side) (r : RestingOrder) : Prop := r.ordType = .limit ∧ r.side = side

/-- Whether an order is lit on a side can be decided. -/
instance (side : Side) : DecidablePred (LitOn side) := fun _ => by
  unfold LitOn
  infer_instance

/-- What the types of the source bound at each level: the size of a deque, and the quantities of its
orders. -/
def Sized (s : MatchingEngine) : Prop :=
  ∀ side, ∀ level ∈ (s.book side).entries, (level.2.length : ℤ) ≤ intMax ∧
    ∀ r ∈ level.2, (r.quantity : ℤ) ≤ intMax

/-- The best `k` levels of a side: its prices in order, none left out that is better than one of
them, and at each what the orders resting there display. -/
structure Depth (s : MatchingEngine) (side : Side) (k : ℕ) (levels : List (ℤ × ℤ)) : Prop where
  /-- There are at most `k` levels. -/
  bounded : levels.length ≤ k
  /-- The best level comes first. -/
  sorted : (levels.map Prod.fst).Pairwise (Better side)
  /-- A limit order of no level is behind all of them, and there is no room for it. -/
  best : ∀ r ∈ s.resting, LitOn side r → r.price ∉ levels.map Prod.fst →
    levels.length = k ∧ ∀ level ∈ levels, Better side level.1 r.price
  /-- A level displays something: what its orders do. -/
  displays : ∀ level ∈ levels, 1 ≤ level.2 ∧
    level.2 = displayed (s.resting.filter fun r => LitOn side r ∧ r.price = level.1)

/-- The best price of a side, or `-1` where no limit order of the side rests. -/
def IsTop (s : MatchingEngine) (side : Side) (price : ℤ) : Prop :=
  (price = Prices.na ∧ ∀ r ∈ s.resting, ¬ LitOn side r) ∨
    (∃ r ∈ s.resting, LitOn side r ∧ r.price = price) ∧
      ∀ r ∈ s.resting, LitOn side r → r.price = price ∨ Better side price r.price

/-- What some orders display does not depend on their order. -/
theorem displayed_perm {orders orders' : List RestingOrder} (h : orders.Perm orders') :
    displayed orders = displayed orders' := (h.map _).sum_nat

/-- Orders that each display something display something. -/
theorem displayed_pos {orders : List RestingOrder} (hne : orders ≠ [])
    (h : ∀ r ∈ orders, 1 ≤ r.visibleQty) : 1 ≤ displayed orders := by
  cases orders with
  | nil => exact absurd rfl hne
  | cons r orders =>
    have hr := h r List.mem_cons_self
    simp only [displayed, List.map_cons, List.sum_cons]
    omega

/-- Orders that each display at most so much display at most that many times it. -/
theorem displayed_le {orders : List RestingOrder} {m : ℕ} (h : ∀ r ∈ orders, r.visibleQty ≤ m) :
    displayed orders ≤ orders.length * m := by
  induction orders with
  | nil => simp [displayed]
  | cons r orders ih =>
    have hr := h r List.mem_cons_self
    have hrest := ih fun x hx => h x (List.mem_cons_of_mem _ hx)
    simp only [displayed, List.map_cons, List.sum_cons, List.length_cons, Nat.succ_mul] at hrest ⊢
    omega

section Queued

variable {s : MatchingEngine} (hq : s.Queued) {side : Side}
include hq

/-- The displayed quantity of a level is a `long`. -/
theorem Queued.displayed_le_longMax (hsized : s.Sized) {level : ℤ × List RestingOrder}
    (hlevel : level ∈ (s.book side).entries) : (displayed level.2 : ℤ) ≤ longMax := by
  obtain ⟨hlength, hqty⟩ := hsized side level hlevel
  have hvisible : ∀ r ∈ level.2, r.visibleQty ≤ 2^31 - 1 := by
    intro r hr
    have hle := ((hq.level side level hlevel).2 r hr).valid.visible_le
    have hint := hqty r hr
    simp only [intMax] at hint
    omega
  have hsum := displayed_le hvisible
  simp only [intMax] at hlength
  have hproduct : level.2.length * (2^31 - 1) ≤ (2^31 - 1) * (2^31 - 1) :=
    Nat.mul_le_mul_right _ (by omega)
  simp only [longMax]
  omega

/-- A limit order of a side rests at the level of its price. -/
theorem Queued.litOn_iff {r : RestingOrder} :
    r ∈ s.resting ∧ LitOn side r ↔ ∃ level ∈ (s.book side).entries,
      r ∈ level.2 ∧ r.price = level.1 := by
  constructor
  · rintro ⟨hr, htype, rfl⟩
    obtain ⟨queue, hlevel, hr⟩ := hq.mem_level hr htype
    exact ⟨_, hlevel, hr, rfl⟩
  · rintro ⟨level, hlevel, hr, -⟩
    have hat := (hq.level side level hlevel).2 r hr
    exact ⟨mem_resting.mpr ⟨side, .inl (mem_orders.mpr ⟨level, hlevel, hr⟩)⟩, hat.ordType_eq,
      hat.side_eq⟩

/-- The limit orders of a side at a price are the queue of the level. -/
theorem Queued.filter_level {level : ℤ × List RestingOrder}
    (hlevel : level ∈ (s.book side).entries) :
    (s.resting.filter fun r => LitOn side r ∧ r.price = level.1).Perm level.2 := by
  obtain ⟨price, queue⟩ := level
  obtain ⟨pre, post, hsplit, herase, -⟩ := (s.book side).split_of_mem hlevel
  -- What is in the pools, on the other side or at other prices is filtered out.
  have hout : ∀ orders : List RestingOrder, (∀ r ∈ orders, ¬ (LitOn side r ∧ r.price = price)) →
      orders.filter (fun r => LitOn side r ∧ r.price = price) = [] := by
    intro orders h
    rw [List.filter_eq_nil_iff]
    simpa using h
  have hpool : ∀ x, ∀ r ∈ s.pool x, ¬ (LitOn side r ∧ r.price = price) := by
    rintro x r hr ⟨⟨htype, -⟩, -⟩
    have hpeg := (hq.pool x r hr).ordType_eq
    simp [htype] at hpeg
  have hother : ∀ r ∈ (s.book side.opposite).orders, ¬ (LitOn side r ∧ r.price = price) := by
    rintro r hr ⟨⟨-, hside⟩, -⟩
    obtain ⟨l, hl, hr⟩ := mem_orders.mp hr
    have hat := ((hq.level side.opposite l hl).2 r hr).side_eq
    simp [hside] at hat
  have hrest : ∀ l ∈ pre ++ post, ∀ r ∈ l.2, ¬ (LitOn side r ∧ r.price = price) := by
    rintro l hl r hr ⟨-, hprice⟩
    have hmem : l ∈ ((s.book side).erase price).entries := herase ▸ hl
    rw [SortedMap.entries_erase, List.mem_filter] at hmem
    have hat := ((hq.level side l hmem.1).2 r hr).price_eq
    simp [← hat, hprice] at hmem
  have hflat : ∀ levels : List (ℤ × List RestingOrder), (∀ l ∈ levels, l ∈ pre ++ post) →
      (levels.flatMap Prod.snd).filter (fun r => LitOn side r ∧ r.price = price) = [] := by
    intro levels hlevels
    refine hout _ fun r hr => ?_
    obtain ⟨l, hl, hr⟩ := List.mem_flatMap.mp hr
    exact hrest l (hlevels l hl) r hr
  have hin : queue.filter (fun r => LitOn side r ∧ r.price = price) = queue := by
    rw [List.filter_eq_self]
    intro r hr
    have hat := (hq.level side _ hlevel).2 r hr
    simp [LitOn, hat.ordType_eq, hat.side_eq, hat.price_eq]
  refine ((s.resting_perm side).filter _).trans ?_
  rw [List.filter_append, List.filter_append, List.filter_append, hout _ hother,
    hout _ (hpool side), hout _ (hpool side.opposite), Book.orders, hsplit, List.flatMap_append,
    List.flatMap_cons,
    List.filter_append, List.filter_append, hin, hflat pre fun l hl => List.mem_append_left _ hl,
    hflat post fun l hl => List.mem_append_right _ hl]
  simp

/-- The levels of a side, each with its displayed quantity, are told by the displayed quantities of
all prices. -/
theorem Queued.mem_levels {level : ℤ × ℕ} :
    level ∈ ((s.book side).entries.map fun l => (l.1, displayed l.2)) ↔
      1 ≤ level.2 ∧
        level.2 = displayed (s.resting.filter fun r => LitOn side r ∧ r.price = level.1) := by
  obtain ⟨price, qty⟩ := level
  rw [List.mem_map]
  constructor
  · rintro ⟨level, hlevel, heq⟩
    obtain ⟨rfl, rfl⟩ := Prod.mk.inj heq
    obtain ⟨hne, hrests⟩ := hq.level side level hlevel
    exact ⟨displayed_pos hne fun r hr => (hrests r hr).visible_pos,
      (displayed_perm (hq.filter_level hlevel)).symm⟩
  · rintro ⟨hpos, hqty⟩
    -- Where something is displayed at a price, an order rests there.
    have hne : s.resting.filter (fun r => LitOn side r ∧ r.price = price) ≠ [] := by
      intro hnil
      rw [hnil] at hqty
      simp [displayed] at hqty
      omega
    obtain ⟨r, hr⟩ := List.exists_mem_of_ne_nil _ hne
    have hr' : r ∈ s.resting ∧ LitOn side r ∧ r.price = price := by simpa using hr
    obtain ⟨hrest, hlit, rfl⟩ := hr'
    obtain ⟨level, hlevel, -, hprice⟩ := hq.litOn_iff.mp ⟨hrest, hlit⟩
    refine ⟨level, hlevel, ?_⟩
    rw [← hprice, ← displayed_perm (hq.filter_level hlevel), ← hprice, ← hqty]

/-- Two engines that display the same at each price of a side have the same levels there. -/
theorem Queued.levels_unique {t : MatchingEngine} (ht : t.Queued)
    (h : ∀ price, displayed (t.resting.filter fun r => LitOn side r ∧ r.price = price) =
      displayed (s.resting.filter fun r => LitOn side r ∧ r.price = price)) :
    ((t.book side).entries.map fun l => (l.1, displayed l.2)) =
      (s.book side).entries.map fun l => (l.1, displayed l.2) := by
  refine SortedMap.eq_of_mem_iff (List.pairwise_map.mpr (t.book side).sorted)
    (List.pairwise_map.mpr (s.book side).sorted) fun level => ?_
  rw [ht.mem_levels, hq.mem_levels, h level.1]

/-- The first levels of the book are the depth of its side. -/
theorem Queued.depth (hsized : s.Sized) (k : ℕ) :
    Depth s side k (((s.book side).entries.take k).map fun level =>
      (level.1, toLong (displayed level.2))) := by
  have hprices : (((s.book side).entries.take k).map fun level =>
      (level.1, toLong (displayed level.2))).map Prod.fst =
          ((s.book side).entries.take k).map Prod.fst := by
    rw [List.map_map]
    rfl
  have hsorted := (s.book side).sorted
  refine ⟨?_, ?_, ?_, ?_⟩
  · rw [List.length_map, List.length_take]
    exact Nat.min_le_left _ _
  · rw [hprices, List.pairwise_map]
    exact hsorted.sublist (List.take_sublist k _)
  · intro r hr hlit hprice
    obtain ⟨level, hlevel, -, heq⟩ := hq.litOn_iff.mp ⟨hr, hlit⟩
    rw [hprices] at hprice
    -- The level of the order is behind the first `k`, so these are all there.
    rw [← List.take_append_drop k (s.book side).entries] at hlevel hsorted
    have hdrop : level ∈ (s.book side).entries.drop k := by
      refine (List.mem_append.mp hlevel).resolve_left fun htake => hprice ?_
      rw [heq]
      exact List.mem_map.mpr ⟨level, htake, rfl⟩
    have hlength : k < (s.book side).entries.length := by
      by_contra hle
      rw [List.drop_of_length_le (by omega)] at hdrop
      simp at hdrop
    refine ⟨?_, ?_⟩
    · rw [List.length_map, List.length_take]
      omega
    · intro l hl
      obtain ⟨entry, hentry, rfl⟩ := List.mem_map.mp hl
      rw [heq]
      exact (List.pairwise_append.mp hsorted).2.2 entry hentry level hdrop
  · intro l hl
    obtain ⟨level, hmem, rfl⟩ := List.mem_map.mp hl
    have hlevel := List.mem_of_mem_take hmem
    obtain ⟨hne, hrests⟩ := hq.level side level hlevel
    have hfit := hq.displayed_le_longMax hsized hlevel
    have hpos := displayed_pos hne fun r hr => (hrests r hr).visible_pos
    have hlong := toLong_of_le (Int.natCast_nonneg _) hfit
    refine ⟨?_, ?_⟩
    · simp only [hlong]
      omega
    · simp only [hlong]
      rw [displayed_perm (hq.filter_level hlevel)]

/-- The first price of the book is the top of its side. -/
theorem Queued.isTop : IsTop s side (((s.book side).firstKey).getD Prices.na) := by
  have hsorted := (s.book side).sorted
  unfold SortedMap.firstKey
  cases hentries : (s.book side).entries with
  | nil =>
    refine .inl ⟨rfl, fun r hr hlit => ?_⟩
    obtain ⟨level, hlevel, -⟩ := hq.litOn_iff.mp ⟨hr, hlit⟩
    rw [hentries] at hlevel
    simp at hlevel
  | cons level levels =>
    rw [hentries] at hsorted
    have hhead : level ∈ (s.book side).entries := hentries ▸ List.mem_cons_self
    obtain ⟨hne, hrests⟩ := hq.level side level hhead
    refine .inr ⟨?_, ?_⟩
    · obtain ⟨r, hr⟩ := List.exists_mem_of_ne_nil _ hne
      have hprice := (hrests r hr).price_eq
      obtain ⟨hrest, hlit⟩ := hq.litOn_iff.mpr ⟨level, hhead, hr, hprice⟩
      exact ⟨r, hrest, hlit, hprice⟩
    · intro r hr hlit
      obtain ⟨l, hl, -, hprice⟩ := hq.litOn_iff.mp ⟨hr, hlit⟩
      rw [hentries] at hl
      rw [hprice]
      rcases List.mem_cons.mp hl with rfl | hl
      · exact .inl rfl
      · exact .inr ((List.pairwise_cons.mp hsorted).1 l hl)

end Queued

end MatchingEngine

/-! ## The frame -/

namespace WebSocketPublisher

/-- The node of a level. -/
def levelNode (level : ℤ × ℤ) : Json := .arr [.int level.1, .int level.2]

/-- The nodes of the levels are those of the filled part of the slot. -/
theorem levelNodes_eq {size : ℕ} (prices qtys : Vector ℤ size) (n : ℕ) {i : ℕ} (h : i + n ≤ size) :
    levelNodes prices qtys n i =
      .ok ((((prices.toList.zip qtys.toList).drop i).take n).map levelNode) := by
  induction n generalizing i with
  | zero => rfl
  | succ n ih =>
    have hi : i < size := by omega
    have hlength : i < (prices.toList.zip qtys.toList).length := by simpa using hi
    unfold levelNodes
    rw [dif_pos hi, ih (by omega), List.drop_eq_getElem_cons hlength, List.take_succ_cons,
      List.map_cons]
    simp [Bind.bind, Except.bind, pure, Except.pure, levelNode]

/-- A BOOK frame has the levels of the slot and its tops. -/
theorem serializeSnapshot_eq {event : BookSnapshotEvent}
    (hbids : event.bidLevelCount ≤ BookSnapshotEvent.maxDepthLevels)
    (hasks : event.askLevelCount ≤ BookSnapshotEvent.maxDepthLevels) :
    serializeSnapshot event = .ok (.obj [("type", .str "BOOK"), ("bestBid", .int event.bestBid),
      ("bestAsk", .int event.bestAsk), ("bids", .arr ((event.levels .buy).map levelNode)),
      ("asks", .arr ((event.levels .sell).map levelNode)),
      ("timestamp", .int event.timestamp)]) := by
  unfold serializeSnapshot
  rw [levelNodes_eq _ _ _ (by omega), levelNodes_eq _ _ _ (by omega), List.drop_zero,
    List.drop_zero]
  rfl

end WebSocketPublisher

namespace Terminal

open WebSocketPublisher (levelNode)

/-- The levels that are read are those that were written. -/
theorem levels_map_levelNode (side : List (ℤ × ℤ)) :
    levels (some (.arr (side.map levelNode))) = some side := by
  have hlevel : ∀ l ∈ side, level (levelNode l) = some l := fun l _ => rfl
  unfold levels
  induction side with
  | nil => rfl
  | cons l side ih =>
    have hrest := ih fun x hx => hlevel x (List.mem_cons_of_mem _ hx)
    simp only at hrest
    simp [hlevel l List.mem_cons_self, hrest]

/-- The terminal reads the frame that the publisher wrote. -/
theorem parseServerFrame_book {parse : String → Option Json} {raw : String}
    {bestBid bestAsk timestamp : ℤ} {bids asks : List (ℤ × ℤ)}
    (h : parse raw = some (.obj [("type", .str "BOOK"), ("bestBid", .int bestBid),
      ("bestAsk", .int bestAsk), ("bids", .arr (bids.map levelNode)),
    ("asks", .arr (asks.map levelNode)), ("timestamp", .int timestamp)])) :
    parseServerFrame parse raw = some (.book { bestBid, bestAsk, bids, asks, timestamp }) := by
  have hbids := levels_map_levelNode bids
  have hasks := levels_map_levelNode asks
  simp [parseServerFrame, h, frameOf, Json.field?, int, hbids, hasks]

/-- What a reader that rounds gets from a BOOK frame whose tops and levels it does not round. -/
theorem rounded_book {round : ℤ → ℤ} {bestBid bestAsk timestamp : ℤ} {bids asks : List (ℤ × ℤ)}
    (hbestBid : round bestBid = bestBid) (hbestAsk : round bestAsk = bestAsk)
    (hbids : ∀ l ∈ bids, round l.1 = l.1 ∧ round l.2 = l.2)
    (hasks : ∀ l ∈ asks, round l.1 = l.1 ∧ round l.2 = l.2) :
    Json.rounded round
      (.obj [("type", .str "BOOK"), ("bestBid", .int bestBid), ("bestAsk", .int bestAsk),
      ("bids", .arr (bids.map levelNode)), ("asks", .arr (asks.map levelNode)),
      ("timestamp", .int timestamp)]) =
    .obj [("type", .str "BOOK"), ("bestBid", .int bestBid), ("bestAsk", .int bestAsk),
      ("bids", .arr (bids.map levelNode)), ("asks", .arr (asks.map levelNode)),
      ("timestamp", .int (round timestamp))] := by
  have hside : ∀ side : List (ℤ × ℤ), (∀ l ∈ side, round l.1 = l.1 ∧ round l.2 = l.2) →
      Json.roundedItems round (side.map levelNode) = side.map levelNode := by
    intro side h
    induction side with
    | nil => rfl
    | cons l side ih =>
      obtain ⟨hprice, hqty⟩ := h l List.mem_cons_self
      have hrest := ih fun x hx => h x (List.mem_cons_of_mem _ hx)
      simp [Json.roundedItems, Json.rounded, levelNode, hprice, hqty, hrest]
  simp [Json.rounded, Json.roundedFields, hbestBid, hbestAsk, hside bids hbids, hside asks hasks]

end Terminal

/-! ## From the book to the terminal -/

open MatchingEngine BookSnapshotEvent

/-- A number that a JSON reader keeps exactly. -/
def Safe (n : ℤ) : Prop := -2^53 < n ∧ n < 2^53

/-- Whether a number is a safe integer can be decided. -/
instance : DecidablePred Safe := fun _ => by
  unfold Safe
  infer_instance

/-- A snapshot has the levels that the prices and their displayed quantities tell, whatever the slot
held. -/
theorem snapshot_unique {s t : MatchingEngine} (hs : s.Queued) (ht : t.Queued)
    (h : ∀ side price, displayed (t.resting.filter fun r => LitOn side r ∧ r.price = price) =
      displayed (s.resting.filter fun r => LitOn side r ∧ r.price = price))
    {target target' event event' : BookSnapshotEvent} {maxLevels nanoTime nanoTime' : ℤ}
    (hmax : 0 ≤ maxLevels) (he : s.snapshotInto target maxLevels nanoTime = .ok event)
    (he' : t.snapshotInto target' maxLevels nanoTime' = .ok event') :
    (∀ side, event'.levels side = event.levels side) ∧
      event'.bestBid = event.bestBid ∧ event'.bestAsk = event.bestAsk := by
  obtain ⟨slot, hslot, hlevels, -, -, hbid, hask⟩ := s.snapshotInto_levels target hmax nanoTime
  obtain ⟨slot', hslot', hlevels', -, -, hbid', hask'⟩ :=
    t.snapshotInto_levels target' hmax nanoTime'
  obtain rfl := Except.ok.inj (hslot.symm.trans he)
  obtain rfl := Except.ok.inj (hslot'.symm.trans he')
  have hsame := fun side => hs.levels_unique ht (h side)
  -- Both halves of a snapshot are functions of the levels with their displayed quantities.
  have hfirst : ∀ side, (t.book side).firstKey = (s.book side).firstKey := by
    intro side
    have hkey : ∀ u : MatchingEngine, (u.book side).firstKey =
        ((u.book side).entries.map fun l => (l.1, displayed l.2)).head?.map Prod.fst := by
      intro u
      rw [List.head?_map, Option.map_map]
      rfl
    rw [hkey, hkey, hsame side]
  refine ⟨fun side => ?_, ?_, ?_⟩
  · have htake : ∀ (u : MatchingEngine) (k : ℕ),
        ((u.book side).entries.take k).map (fun l => (l.1, toLong (displayed l.2))) =
          (((u.book side).entries.map fun l => (l.1, displayed l.2)).take k).map
            fun l => (l.1, toLong l.2) := by
      intro u k
      rw [← List.map_take, List.map_map]
      rfl
    rw [hlevels, hlevels', htake, htake, hsame side]
  · have hbest := congrArg (fun key => key.getD Prices.na) (hfirst .buy)
    rw [hbid, hbid']
    exact hbest
  · have hbest := congrArg (fun key => key.getD Prices.na) (hfirst .sell)
    rw [hask, hask']
    exact hbest

/-- A depth snapshot is faithful all the way. Whatever the slot held before, after `snapshotInto` it
holds the depth of both sides and their tops, and nothing else of the book: an engine whose limit
orders display the same at each price fills any slot alike. The publisher writes just these levels,
and where JSON texts carry the safe integers unchanged, the terminal stores just these. -/
theorem depth_snapshot_faithful {s : MatchingEngine} (hs : s.Reachable) (hsized : s.Sized)
    (target : BookSnapshotEvent) {maxLevels : ℤ} (hmax : 0 ≤ maxLevels) (nanoTime : ℤ) :
    ∃ event, s.snapshotInto target maxLevels nanoTime = .ok event ∧
      (∀ side, Depth s side (min maxLevels.toNat maxDepthLevels) (event.levels side)) ∧
      IsTop s .buy event.bestBid ∧ IsTop s .sell event.bestAsk ∧
      (1 ≤ maxLevels →
        event.bestBid = ((event.levels .buy).head?.map Prod.fst).getD Prices.na ∧
        event.bestAsk = ((event.levels .sell).head?.map Prod.fst).getD Prices.na) ∧
      (∀ t : MatchingEngine, t.Reachable →
        (∀ side price, displayed (t.resting.filter fun r => LitOn side r ∧ r.price = price) =
          displayed (s.resting.filter fun r => LitOn side r ∧ r.price = price)) →
        ∀ target' nanoTime', ∃ event', t.snapshotInto target' maxLevels nanoTime' = .ok event' ∧
          (∀ side, event'.levels side = event.levels side) ∧
          event'.bestBid = event.bestBid ∧ event'.bestAsk = event.bestAsk) ∧
      ∃ frame, WebSocketPublisher.serializeSnapshot event = .ok frame ∧
        frame = .obj [("type", .str "BOOK"), ("bestBid", .int event.bestBid),
          ("bestAsk", .int event.bestAsk),
          ("bids", .arr ((event.levels .buy).map fun l => .arr [.int l.1, .int l.2])),
          ("asks", .arr ((event.levels .sell).map fun l => .arr [.int l.1, .int l.2])),
          ("timestamp", .int event.timestamp)] ∧
        ∀ (write : Json → String) (parse : String → Option Json) (round : ℤ → ℤ),
          (∀ n, Safe n → round n = n) → parse (write frame) = some (frame.rounded round) →
          Safe event.bestBid → Safe event.bestAsk →
          (∀ side, ∀ l ∈ event.levels side, Safe l.1 ∧ Safe l.2) →
          ∃ book, Terminal.parseServerFrame parse (write frame) = some (.book book) ∧
            ∀ state : Terminal.AppState,
              (Terminal.reducer state (.frame (.book book))).book.bids = event.levels .buy ∧
              (Terminal.reducer state (.frame (.book book))).book.asks = event.levels .sell ∧
              (Terminal.reducer state (.frame (.book book))).book.bestBid = event.bestBid ∧
              (Terminal.reducer state (.frame (.book book))).book.bestAsk = event.bestAsk := by
  obtain ⟨event, hevent, hlevels, hbids, hasks, hbestBid, hbestAsk⟩ :=
    s.snapshotInto_levels target hmax nanoTime
  have hq := hs.queued
  refine ⟨event, hevent, ?_, ?_, ?_, ?_, ?_, _, WebSocketPublisher.serializeSnapshot_eq hbids hasks,
    rfl, ?_⟩
  · intro side
    rw [hlevels]
    exact hq.depth hsized _
  · rw [hbestBid]
    exact @Queued.isTop s hq .buy
  · rw [hbestAsk]
    exact @Queued.isTop s hq .sell
  · intro hone
    have hpos : 0 < min maxLevels.toNat maxDepthLevels := by
      unfold maxDepthLevels
      omega
    have hhead : ∀ side, ((event.levels side).head?.map Prod.fst) = (s.book side).firstKey := by
      intro side
      rw [hlevels, List.head?_map, Option.map_map, List.head?_take, if_neg (by omega)]
      rfl
    rw [hhead, hhead, hbestBid, hbestAsk]
    exact ⟨rfl, rfl⟩
  · intro t ht hsame target' nanoTime'
    obtain ⟨event', hevent', -⟩ := t.snapshotInto_spec target' maxLevels nanoTime' hmax
    exact ⟨event', hevent', snapshot_unique hq ht.queued hsame hmax hevent hevent'⟩
  · intro write parse round hround hjson hbid hask hsafe
    have hexact : ∀ side, ∀ l ∈ event.levels side, round l.1 = l.1 ∧ round l.2 = l.2 := by
      intro side l hl
      obtain ⟨hprice, hqty⟩ := hsafe side l hl
      exact ⟨hround _ hprice, hround _ hqty⟩
    rw [Terminal.rounded_book (hround _ hbid) (hround _ hask) (hexact .buy) (hexact .sell)] at hjson
    have hparse := Terminal.parseServerFrame_book hjson
    exact ⟨_, hparse, fun state => ⟨rfl, rfl, rfl, rfl⟩⟩

/-- A slot that a crowded book has filled to the last level on both sides. -/
def staleSlot : BookSnapshotEvent :=
  { bidPrices := .replicate maxDepthLevels 9900, bidQtys := .replicate maxDepthLevels 7,
    askPrices := .replicate maxDepthLevels 9950, askQtys := .replicate maxDepthLevels 7,
    bidLevelCount := maxDepthLevels, askLevelCount := maxDepthLevels, bestBid := 9900,
    bestAsk := 9950, timestamp := 1 }

/-- The text of the BOOK frame that `quotedCalls` leaves. -/
def quotedText : String :=
  "\x7b\"type\":\"BOOK\",\"bestBid\":10000,\"bestAsk\":10200,\"bids\":[[10000,10]]," ++
    "\"asks\":[[10200,20]],\"timestamp\":1767225600000000123\x7d"

/-- What a reader in floating point gets from `quotedText`: the time is rounded to a multiple of
256. -/
def quotedJson : Json :=
  .obj [("type", .str "BOOK"), ("bestBid", .int 10000), ("bestAsk", .int 10200),
    ("bids", .arr [.arr [.int 10000, .int 10]]), ("asks", .arr [.arr [.int 10200, .int 20]]),
    ("timestamp", .int 1767225600000000000)]

/-- The snapshot of `quotedCalls` in the stale slot: the ten that the iceberg bid displays, no pegs,
and no tail of the slot, and so it arrives at the terminal. -/
theorem depth_snapshot_faithful_quoted :
    ∃ event book, (after quotedCalls).snapshotInto staleSlot 5 1767225600000000123 = .ok event ∧
      event.levels .buy = [(10000, 10)] ∧ event.levels .sell = [(10200, 20)] ∧
      Terminal.parseServerFrame (fun raw => if raw = quotedText then some quotedJson else none)
      quotedText = some (.book book) ∧
      (Terminal.reducer Terminal.initialState (.frame (.book book))).book.bids = [(10000, 10)] ∧
      (Terminal.reducer Terminal.initialState (.frame (.book book))).book.asks = [(10200, 20)] := by
  have hsized : (after quotedCalls).Sized := by
    intro side
    cases side <;> decide
  obtain ⟨event, hevent, -, -, -, -, -, frame, -, rfl, harrives⟩ :=
    depth_snapshot_faithful (reachable_after quotedCalls) hsized staleSlot
      (show (0 : ℤ) ≤ 5 by decide)
      1767225600000000123
  have hslot : ((after quotedCalls).snapshotInto staleSlot 5 1767225600000000123).toOption.map
      (fun e => (e.levels .buy, e.levels .sell, e.bestBid, e.bestAsk, e.timestamp)) =
      some ([(10000, 10)], [(10200, 20)], 10000, 10200, 1767225600000000123) := by
    decide
  rw [hevent] at hslot
  simp only [Except.toOption, Option.map_some, Option.some.injEq, Prod.mk.injEq] at hslot
  obtain ⟨hbuy, hsell, hbid, hask, htime⟩ := hslot
  have hsafe : ∀ side, ∀ l ∈ event.levels side, Safe l.1 ∧ Safe l.2 := by
    intro side
    cases side
    · rw [hbuy]
      decide
    · rw [hsell]
      decide
  obtain ⟨book, hbook, hstate⟩ := harrives (fun _ => quotedText)
    (fun raw => if raw = quotedText then some quotedJson else none)
    (fun n => if Safe n then n else (n + 128) / 256 * 256) (fun n hn => if_pos hn)
    (by
      rw [if_pos rfl, hbuy, hsell, hbid, hask, htime]
      rfl)
    (by rw [hbid]; decide) (by rw [hask]; decide) hsafe
  have hbids := (hstate Terminal.initialState).1
  have hasks := (hstate Terminal.initialState).2.1
  exact ⟨event, book, hevent, hbuy, hsell, hbook, hbids.trans hbuy, hasks.trans hsell⟩

end MatchingVenue
