import MatchingVenue.Engine.Crossing

/-!
# Fill or kill

The probe of a fill-or-kill order reads the queues and the match then changes them. They agree
because both go by one number, `tradable`: the quantity resting where the order may trade. Each walk
takes one unit of the order for each unit of that quantity (`matchPegPool_quantity`,
`matchLit_quantity`), so it ends with the order done or the quantity used up, and the probe compares
the two beforehand (`canFillCompletely_iff`). Where the probe passes, the match fills all of the
order and nothing else happens; where it fails, the order expires and nothing else happens.
-/

namespace MatchingVenue.MatchingEngine

/-! ## Quantities -/

/-- The total quantity of some resting orders, hidden reserve included. -/
def quantityOf (orders : List RestingOrder) : ℕ := (orders.map fun r => r.quantity).sum

@[simp]
theorem quantityOf_nil : quantityOf [] = 0 := rfl

@[simp]
theorem quantityOf_cons (r : RestingOrder) (orders : List RestingOrder) :
    quantityOf (r :: orders) = r.quantity + quantityOf orders := List.sum_cons

@[simp]
theorem quantityOf_append (l l' : List RestingOrder) :
    quantityOf (l ++ l') = quantityOf l + quantityOf l' := by
  simp [quantityOf]

/-- The quantity of some orders does not depend on their order. -/
theorem quantityOf_perm {l l' : List RestingOrder} (h : l.Perm l') : quantityOf l = quantityOf l' :=
  (h.map _).sum_nat

/-- The levels within the limit of an incoming order. -/
def levelsWithin (side : Side) (limit : ℤ) (levels : List (ℤ × List RestingOrder)) :
    List (ℤ × List RestingOrder) :=
  levels.filter fun level => marketable side limit level.1

/-- The quantity at the levels within the limit of an incoming order. -/
def quantityWithin (side : Side) (limit : ℤ) (levels : List (ℤ × List RestingOrder)) : ℕ :=
  quantityOf ((levelsWithin side limit levels).flatMap Prod.snd)

/-- The quantity in the opposite pool that an incoming order may trade with: all of it where there
is a midpoint and the order is a peg or reaches it. -/
def tradablePegs (s : MatchingEngine) (order : Order) : ℕ :=
  if s.mid ≠ Prices.na ∧ (order.ordType = .pegMid ∨ crossesMid order.side order.price s.mid) then
    quantityOf (s.pool order.side.opposite)
  else 0

/-- The quantity in the opposite lit book that an incoming order may trade with: for a limit order,
that of every level within its limit. -/
def tradableLit (s : MatchingEngine) (order : Order) : ℕ :=
  if order.ordType = .limit then
    quantityWithin order.side order.price (s.book order.side.opposite).entries
  else 0

/-- The quantity that an incoming order may trade with. -/
def tradable (s : MatchingEngine) (order : Order) : ℕ := s.tradablePegs order + s.tradableLit order

@[simp]
theorem quantityWithin_cons {side : Side} {limit price : ℤ} {queue : List RestingOrder}
    {levels : List (ℤ × List RestingOrder)} (h : marketable side limit price = true) :
    quantityWithin side limit ((price, queue) :: levels) =
      quantityOf queue + quantityWithin side limit levels := by
  simp [quantityWithin, levelsWithin, h]

/-- Where the best level is beyond the limit, so is every level. -/
theorem quantityWithin_eq_zero {side : Side} {limit : ℤ} {levels : List (ℤ × List RestingOrder)}
    (h : ∀ level ∈ levels, marketable side limit level.1 = false) :
    quantityWithin side limit levels = 0 := by
  have hnil : levelsWithin side limit levels = [] :=
    List.filter_eq_nil_iff.mpr fun level hlevel => by simp [h level hlevel]
  simp [quantityWithin, hnil]

/-- What is within a limit is at most what there is. -/
theorem quantityWithin_le (side : Side) (limit : ℤ) (levels : List (ℤ × List RestingOrder)) :
    quantityWithin side limit levels ≤ quantityOf (levels.flatMap Prod.snd) := by
  induction levels with
  | nil => simp [quantityWithin, levelsWithin]
  | cons level levels ih =>
    obtain ⟨price, queue⟩ := level
    have hall : quantityOf (((price, queue) :: levels).flatMap Prod.snd) =
        quantityOf queue + quantityOf (levels.flatMap Prod.snd) := by
      rw [List.flatMap_cons, quantityOf_append]
    -- A level counts on the left when it is within the limit, and on the right in any case.
    cases hm : marketable side limit price with
    | true =>
      rw [quantityWithin_cons hm]
      omega
    | false =>
      have : quantityWithin side limit ((price, queue) :: levels) =
          quantityWithin side limit levels := by simp [quantityWithin, levelsWithin, hm]
      omega

/-- What an order may trade with rests. -/
theorem tradable_le (s : MatchingEngine) (o : Order) : s.tradable o ≤ quantityOf s.resting := by
  have hperm := quantityOf_perm (s.resting_perm o.side)
  have hlit := quantityWithin_le o.side o.price (s.book o.side.opposite).entries
  simp only [quantityOf_append, Book.orders] at hperm
  unfold tradable tradablePegs tradableLit
  split_ifs <;> omega

/-! ## The probe -/

/-- The running total of a list of orders does not wrap where the end does not. -/
theorem foldl_toLong_eq {orders : List RestingOrder} {total : ℤ} (h0 : 0 ≤ total)
    (hfit : total + quantityOf orders ≤ longMax) :
    orders.foldl (fun total o => toLong (total + o.quantity)) total =
      total + quantityOf orders := by
  induction orders generalizing total with
  | nil => simp
  | cons r orders ih =>
    rw [quantityOf_cons] at hfit ⊢
    push_cast at hfit ⊢
    rw [List.foldl_cons, toLong_of_le (by omega) (by omega), ih (by omega) (by omega)]
    omega

/-- The pool total is the quantity in the pool, where that is a `long`. -/
theorem pegPoolTotal_eq {s : MatchingEngine} {side : Side}
    (hfit : (quantityOf (s.pool side.opposite) : ℤ) ≤ longMax) :
    s.pegPoolTotal side = quantityOf (s.pool side.opposite) := by
  rw [pegPoolTotal, foldl_toLong_eq le_rfl (by omega), zero_add]

/-- The probe of some orders that starts below the need stops where they cover it, as long as no sum
that it comes to below the need wraps with the next order. -/
theorem probeQueue_eq {needed available : ℤ} {queue : List RestingOrder} (hlt : available < needed)
    (hexact : ∀ pre r, pre ++ [r] <+: queue → available + quantityOf pre < needed →
      toLong (available + quantityOf pre + r.quantity) = available + quantityOf pre + r.quantity) :
    probeQueue needed available queue =
      if needed ≤ available + quantityOf queue then none
    else some (available + quantityOf queue) := by
  induction queue generalizing available with
  | nil =>
    rw [probeQueue, quantityOf_nil, if_neg (by omega)]
    simp
  | cons r queue ih =>
    have hlong : toLong (available + r.quantity) = available + r.quantity := by
      have hfirst := hexact [] r (List.prefix_append [r] queue) (by simpa using hlt)
      simpa using hfirst
    have hrest : ∀ pre x, pre ++ [x] <+: queue → available + r.quantity + quantityOf pre < needed →
        toLong (available + r.quantity + quantityOf pre + x.quantity) =
          available + r.quantity + quantityOf pre + x.quantity := by
      intro pre x hpre hbelow
      have hsum : available + quantityOf (r :: pre) = available + r.quantity + quantityOf pre := by
        rw [quantityOf_cons]
        push_cast
        omega
      have hnext := hexact (r :: pre) x (List.cons_prefix_cons.mpr ⟨rfl, hpre⟩)
      rw [hsum] at hnext
      exact hnext hbelow
    rw [quantityOf_cons]
    push_cast
    unfold probeQueue
    rw [hlong]
    simp only
    split_ifs with hge hle hle
    · rfl
    · omega
    · rw [ih (by omega) hrest, if_pos (by omega)]
    · rw [ih (by omega) hrest, if_neg (by omega), add_assoc]

/-- No sum wraps where the last one does not. -/
theorem probeQueue_eq_of_le {needed available : ℤ} {queue : List RestingOrder} (h0 : 0 ≤ available)
    (hlt : available < needed) (hfit : available + quantityOf queue ≤ longMax) :
    probeQueue needed available queue =
      if needed ≤ available + quantityOf queue then none
      else some (available + quantityOf queue) := by
  apply probeQueue_eq hlt
  rintro pre r ⟨post, rfl⟩ -
  simp only [quantityOf_append, quantityOf_cons, quantityOf_nil] at hfit
  push_cast at hfit
  exact toLong_of_le (by omega) (by omega)

/-- The probe goes through two queues one after the other. -/
theorem probeQueue_append (needed available : ℤ) (queue queue' : List RestingOrder) :
    probeQueue needed available (queue ++ queue') =
      (probeQueue needed available queue).bind fun available =>
      probeQueue needed available queue' := by
  induction queue generalizing available with
  | nil => rfl
  | cons r queue ih =>
    have hcons : ∀ rest, probeQueue needed available (r :: rest) =
        if toLong (available + r.quantity) ≥ needed then none
        else probeQueue needed (toLong (available + r.quantity)) rest := fun _ => rfl
    rw [List.cons_append, hcons, hcons]
    split_ifs
    · rfl
    · exact ih _

/-- The probe of the levels, best first, is the probe of the orders within the limit. -/
theorem probeLevels_eq_probeQueue {side : Side} {limit needed available : ℤ}
    {levels : List (ℤ × List RestingOrder)}
    (hsorted : levels.Pairwise fun a b => Better side.opposite a.1 b.1) :
    probeLevels side limit needed available levels =
      (probeQueue needed available ((levelsWithin side limit levels).flatMap Prod.snd)).elim true
        fun available => decide (available ≥ needed) := by
  induction levels generalizing available with
  | nil => rfl
  | cons level levels ih =>
    obtain ⟨price, queue⟩ := level
    obtain ⟨hhead, hsorted⟩ := List.pairwise_cons.mp hsorted
    unfold probeLevels
    cases hm : marketable side limit price with
    | false =>
      -- The walk stops here, and nothing behind is within the limit.
      have hnone : levelsWithin side limit ((price, queue) :: levels) = [] := by
        rw [levelsWithin, List.filter_eq_nil_iff, List.forall_mem_cons]
        refine ⟨by simp [hm], fun level hlevel => ?_⟩
        rw [marketable_of_better (hhead level hlevel) hm]
        exact Bool.false_ne_true
      rw [if_pos (by simp), hnone]
      rfl
    | true =>
      have hcons : levelsWithin side limit ((price, queue) :: levels) =
          (price, queue) :: levelsWithin side limit levels := List.filter_cons_of_pos hm
      rw [if_neg (by simp), hcons, List.flatMap_cons, probeQueue_append]
      cases probeQueue needed available queue with
      | none => rfl
      | some available => exact ih hsorted

/-- The probe of the levels says whether those within the limit cover the need. -/
theorem probeLevels_eq {side : Side} {limit needed available : ℤ}
    {levels : List (ℤ × List RestingOrder)} (h0 : 0 ≤ available) (hlt : available < needed)
    (hsorted : levels.Pairwise fun a b => Better side.opposite a.1 b.1)
    (hfit : available + quantityWithin side limit levels ≤ longMax) :
    probeLevels side limit needed available levels =
      decide (needed ≤ available + quantityWithin side limit levels) := by
  rw [probeLevels_eq_probeQueue hsorted, probeQueue_eq_of_le h0 hlt hfit]
  unfold quantityWithin
  split_ifs with hle
  · simp [hle]
  · simp only [Option.elim_some]

/-- The probe says whether the tradable quantity covers the order. -/
theorem canFillCompletely_iff {s : MatchingEngine} {o : Order} (hpos : 0 < o.quantity)
    (hfit : (quantityOf s.resting : ℤ) ≤ longMax) :
    s.canFillCompletely o = true ↔ o.quantity ≤ s.tradable o := by
  have hle := s.tradable_le o
  have hsorted := (s.book o.side.opposite).sorted
  unfold tradable tradablePegs tradableLit at hle ⊢
  unfold canFillCompletely
  -- The probe of a peg compares with the pool; that of a limit order goes on into the levels.
  cases htype : o.ordType with
  | pegMid =>
    simp only [htype, true_or, and_true, reduceCtorEq, if_false, add_zero] at hle ⊢
    by_cases hmid : s.mid = Prices.na
    · simp only [hmid, ne_eq, not_true, if_true, if_false]
      simp
      omega
    · rw [if_pos hmid] at hle ⊢
      rw [if_neg hmid, pegPoolTotal_eq (by omega)]
      simp
  | limit =>
    simp only [htype, reduceCtorEq, false_or, if_true] at hle ⊢
    by_cases hcross : s.mid ≠ Prices.na ∧ crossesMid o.side o.price s.mid = true
    · rw [if_pos hcross] at hle ⊢
      have htotal : s.pegPoolTotal o.side = quantityOf (s.pool o.side.opposite) :=
        pegPoolTotal_eq (by omega)
      have hlong : toLong (0 + s.pegPoolTotal o.side) = quantityOf (s.pool o.side.opposite) := by
        rw [htotal, zero_add]
        exact toLong_of_le (by omega) (by omega)
      rw [if_pos hcross, hlong]
      -- The levels are not looked at where the pool alone covers the order.
      split_ifs with hge
      · simp only [true_iff]
        omega
      · rw [probeLevels_eq (by omega) (by omega) hsorted (by omega)]
        simp only [decide_eq_true_eq]
        omega
    · rw [if_neg hcross] at hle ⊢
      rw [if_neg hcross, probeLevels_eq (by omega) (by omega) hsorted (by omega)]
      simp only [decide_eq_true_eq]
      omega

/-- A running total that wraps is a `long` that never exceeds the true one. -/
theorem foldl_toLong_le {orders : List RestingOrder} {total : ℤ} (h : -2^63 ≤ total) :
    -2^63 ≤ orders.foldl (fun total o => toLong (total + o.quantity)) total ∧
      orders.foldl (fun total o => toLong (total + o.quantity)) total ≤
      total + quantityOf orders := by
  induction orders generalizing total with
  | nil => simpa using h
  | cons r orders ih =>
    have hnext : toLong (total + r.quantity) ≤ total + r.quantity := toLong_le_self (by omega)
    obtain ⟨hlong, hle⟩ := ih (le_toLong (total + r.quantity))
    rw [List.foldl_cons, quantityOf_cons]
    push_cast
    exact ⟨hlong, by omega⟩

/-- The probe of some orders counts nothing that is not there, whether or not its sums wrap. -/
theorem probeQueue_le {needed available : ℤ} {queue : List RestingOrder} (h : -2^63 ≤ available)
    (hpass : (probeQueue needed available queue).elim True fun available => needed ≤ available) :
    needed ≤ available + quantityOf queue := by
  induction queue generalizing available with
  | nil => simpa [probeQueue] using hpass
  | cons r queue ih =>
    have hnext : toLong (available + r.quantity) ≤ available + r.quantity :=
      toLong_le_self (by omega)
    rw [quantityOf_cons]
    push_cast
    unfold probeQueue at hpass
    simp only at hpass
    split_ifs at hpass with hge
    · omega
    · have hrest := ih (le_toLong _) hpass
      omega

/-- The probe of the levels counts nothing that is not there. -/
theorem probeLevels_le {side : Side} {limit needed available : ℤ}
    {levels : List (ℤ × List RestingOrder)} (h : -2^63 ≤ available)
    (hsorted : levels.Pairwise fun a b => Better side.opposite a.1 b.1)
    (hpass : probeLevels side limit needed available levels = true) :
    needed ≤ available + quantityWithin side limit levels := by
  rw [probeLevels_eq_probeQueue hsorted] at hpass
  apply probeQueue_le h
  cases hprobe :
      probeQueue needed available ((levelsWithin side limit levels).flatMap Prod.snd) with
  | none => trivial
  | some available => simpa [hprobe] using hpass

/-- Where the probe passes, the tradable quantity covers the order. -/
theorem canFillCompletely_le {s : MatchingEngine} {o : Order}
    (hpass : s.canFillCompletely o = true) :
    o.quantity ≤ s.tradable o := by
  have hsorted := (s.book o.side.opposite).sorted
  obtain ⟨hlong, htotal⟩ : -2^63 ≤ s.pegPoolTotal o.side ∧
      s.pegPoolTotal o.side ≤ 0 + quantityOf (s.pool o.side.opposite) := foldl_toLong_le (by omega)
  unfold tradable tradablePegs tradableLit
  unfold canFillCompletely at hpass
  cases htype : o.ordType with
  | pegMid =>
    simp only [htype, true_or, and_true, reduceCtorEq, if_false, add_zero] at hpass ⊢
    split_ifs at hpass with hmid
    rw [if_pos hmid]
    have hge := of_decide_eq_true hpass
    omega
  | limit =>
    simp only [htype, reduceCtorEq, false_or, if_true] at hpass ⊢
    by_cases hcross : s.mid ≠ Prices.na ∧ crossesMid o.side o.price s.mid = true
    · have hwrap : toLong (0 + s.pegPoolTotal o.side) ≤ 0 + s.pegPoolTotal o.side :=
        toLong_le_self (by omega)
      rw [if_pos hcross] at hpass ⊢
      split_ifs at hpass with hge
      · omega
      · have hle := probeLevels_le (le_toLong _) hsorted hpass
        omega
    · rw [if_neg hcross] at hpass ⊢
      have hle := probeLevels_le (by omega) hsorted hpass
      omega

/-! ## The match -/

/-- The quantity that a callback reports as executed. -/
def filledQuantity : Callback → ℕ
  | .onFill _ _ _ _ filledQuantity _ => filledQuantity
  | _ => 0

/-- What a walk of an incoming order reports: fills of the order, for as much as it lost. -/
def ReportsFills (o o' : Order) (s s' : MatchingEngine) : Prop :=
  ∃ fills, s'.executionListener = s.executionListener ++ fills ∧
    (∀ c ∈ fills, ∃ passive tradeId price m remaining,
      c = .onFill o.orderID passive tradeId price m remaining) ∧
    (fills.map filledQuantity).sum + o'.quantity = o.quantity

/-- No walk reports no fills. -/
theorem ReportsFills.refl (o : Order) (s : MatchingEngine) : ReportsFills o o s s :=
  ⟨[], by simp, by simp, by simp⟩

/-- One more fill of what is left. -/
theorem ReportsFills.fill {o u : Order} {s su v : MatchingEngine} (h : ReportsFills o u s su)
    (horder : u.orderID = o.orderID) {passive tradeId price : ℤ} {m remaining : ℕ}
    (hm : m ≤ u.quantity) (hv : v.executionListener = su.executionListener ++
      [.onFill u.orderID passive tradeId price m remaining]) :
    ReportsFills o (u.filled m) s v := by
  obtain ⟨fills, hlistener, hfills, hsum⟩ := h
  refine ⟨fills ++ [.onFill u.orderID passive tradeId price m remaining], ?_, ?_, ?_⟩
  · rw [hv, hlistener, List.append_assoc]
  · rw [List.forall_mem_append]
    refine ⟨hfills, ?_⟩
    rw [List.forall_mem_singleton, horder]
    exact ⟨passive, tradeId, price, m, remaining, rfl⟩
  · -- The order loses what the fill reports.
    simp only [List.map_append, List.sum_append_nat, List.map_cons, List.map_nil, List.sum_cons,
      List.sum_nil, filledQuantity, Order.filled_quantity]
    omega

/-- The walks of an order one after the other. -/
theorem ReportsFills.trans {o o' o'' : Order} {s s' s'' : MatchingEngine}
    (h : ReportsFills o o' s s') (horder : o'.orderID = o.orderID)
    (h' : ReportsFills o' o'' s' s'') : ReportsFills o o'' s s'' := by
  obtain ⟨fills, hlistener, hfills, hsum⟩ := h
  obtain ⟨fills', hlistener', hfills', hsum'⟩ := h'
  refine ⟨fills ++ fills', ?_, ?_, ?_⟩
  · rw [hlistener', hlistener, List.append_assoc]
  · rw [List.forall_mem_append]
    exact ⟨hfills, fun c hc => horder ▸ hfills' c hc⟩
  · rw [List.map_append, List.sum_append_nat]
    omega

/-- The head of a pool loses what it fills. -/
theorem quantityOf_pegQueue {r : RestingOrder} (behind : List RestingOrder) {m : ℕ}
    (hm : m ≤ r.quantity) :
    quantityOf (pegQueue (r.filled m) behind) + m = quantityOf (r :: behind) := by
  have hr : (r.filled m).quantity = r.quantity - m := rfl
  unfold pegQueue
  rw [quantityOf_cons]
  split_ifs with hz
  · omega
  · rw [quantityOf_cons]
    omega

/-- The head of a level loses what it fills, wherever it goes in the queue. -/
theorem quantityOf_litQueue {r : RestingOrder} (behind : List RestingOrder) {m : ℕ}
    (hm : m ≤ r.quantity) :
    quantityOf (litQueue (r.filled m) behind) + m = quantityOf (r :: behind) := by
  have hr : (r.filled m).quantity = r.quantity - m := rfl
  have hr' : (r.filled m).refreshDisplay.quantity = r.quantity - m := rfl
  unfold litQueue
  rw [quantityOf_cons]
  split_ifs with hz hv
  · omega
  · rw [quantityOf_append, quantityOf_cons, quantityOf_nil]
    omega
  · rw [quantityOf_cons]
    omega

/-- The walk over a pool takes from the order what the pool has, as far as the order goes. -/
theorem matchPegPool_quantity {mid : ℤ} {o o' : Order} {s s' : MatchingEngine}
    (h : matchPegPool o mid s = .ok (o', s')) :
    o'.quantity = o.quantity - quantityOf (s.pool o.side.opposite) ∧ ReportsFills o o' s s' := by
  -- What the order still needs beyond the pool stays the same: both lose the same quantity.
  have hinv := whileLoop_inv h
    (fun x => FilledFrom o x.1 ∧ x.1.quantity - quantityOf (x.2.pool o.side.opposite) =
      o.quantity - quantityOf (s.pool o.side.opposite) ∧ ReportsFills o x.1 s x.2)
    ⟨.refl o, rfl, .refl o s⟩ ?_
  · obtain ⟨⟨hfilled, hneed, hreports⟩, hend⟩ := hinv
    simp only at hfilled hneed
    refine ⟨?_, hreports⟩
    rcases matchPegPoolBody_none hend with hdone | hempty
    · omega
    · rw [hfilled.side] at hempty
      rw [hempty, quantityOf_nil] at hneed
      omega
  · rintro ⟨u, su⟩ ⟨v, sv⟩ ⟨hfilled, hneed, hreports⟩ hbody
    obtain ⟨r, behind, m, hpool, hm, -, rfl, rfl⟩ := matchPegPoolBody_some hbody
    simp only at hfilled hneed hreports
    rw [hfilled.side] at hpool
    have hle : m ≤ r.quantity := by omega
    have hqueue := quantityOf_pegQueue behind hle
    refine ⟨hfilled.filled m, ?_, ?_⟩
    · rw [hfilled.side, pool_settleHead, Order.filled_quantity, ← hneed, hpool]
      omega
    · apply hreports.fill hfilled.orderID (by omega)
      rw [executionListener_settleHead, executionListener_recordFill]
      rfl

/-- The lit walk takes from the order what the levels within its limit have, as far as the order
goes. -/
theorem matchLit_quantity {side : Side} {o o' : Order} {s s' : MatchingEngine}
    (h : matchLit side o s = .ok (o', s')) :
    o'.quantity = o.quantity - quantityWithin side o.price (s.book side.opposite).entries ∧
      ReportsFills o o' s s' := by
  -- The need beyond the levels within the limit is the invariant, as for a pool.
  have hinv := whileLoop_inv h
    (fun x => FilledFrom o x.1 ∧
      x.1.quantity - quantityWithin side o.price (x.2.book side.opposite).entries =
        o.quantity - quantityWithin side o.price (s.book side.opposite).entries ∧
      ReportsFills o x.1 s x.2)
    ⟨.refl o, rfl, .refl o s⟩ ?_
  · obtain ⟨⟨hfilled, hneed, hreports⟩, -⟩ := hinv
    simp only at hfilled hneed
    refine ⟨?_, hreports⟩
    rcases matchLit_exhausts h with hdone | hbeyond
    · omega
    · have hzero : quantityWithin side o.price (s'.book side.opposite).entries = 0 := by
        apply quantityWithin_eq_zero
        intro level hlevel
        rw [← hfilled.price]
        exact hbeyond _ (SortedMap.mem_keys.mpr ⟨_, hlevel⟩)
      omega
  · rintro ⟨u, su⟩ ⟨v, sv⟩ ⟨hfilled, hneed, hreports⟩ hbody
    obtain ⟨p, r, behind, levels, m, hentries, hmarket, hm, -, hle, rfl, rfl⟩ :=
      matchLitBody_some hbody
    simp only at hfilled hneed hreports
    rw [hfilled.price] at hmarket
    have hqueue := quantityOf_litQueue behind hle
    refine ⟨hfilled.filled m, ?_, ?_⟩
    · rw [entries_settleLit _ _ _ _ (by simpa using hentries), Order.filled_quantity, ← hneed,
        hentries, quantityWithin_cons hmarket]
      split_ifs with hempty
      · rw [hempty, quantityOf_nil] at hqueue
        omega
      · rw [quantityWithin_cons hmarket]
        omega
    · apply hreports.fill hfilled.orderID (by omega)
      rw [executionListener_settleLit, executionListener_recordFill]
      rfl

/-- The peg step takes from the order what it may trade with in the opposite pool. -/
theorem pegStep_quantity {o o' : Order} {s s' : MatchingEngine} (h : pegStep o s = .ok (o', s')) :
    o'.quantity = o.quantity - s.tradablePegs o ∧ ReportsFills o o' s s' := by
  simp only [pegStep] at h
  unfold tradablePegs
  split_ifs at h ⊢ with hmid
  · exact matchPegPool_quantity h
  · obtain ⟨rfl, rfl⟩ := Prod.mk.inj (Except.ok.inj h)
    exact ⟨rfl, .refl _ _⟩

/-- The whole match of a peg is the peg step, and a pool is all it may trade with. -/
theorem pegStep_tradable {o o' : Order} {s s' : MatchingEngine} (htype : o.ordType = .pegMid)
    (h : pegStep o s = .ok (o', s')) :
    o'.quantity = o.quantity - s.tradable o ∧ ReportsFills o o' s s' := by
  obtain ⟨hquantity, hreports⟩ := pegStep_quantity h
  have hlit : s.tradableLit o = 0 := by
    rw [tradableLit, htype]
    rfl
  refine ⟨?_, hreports⟩
  rw [hquantity, tradable, hlit, Nat.add_zero]

/-- The peg step and the lit walk of a limit order take from it what it may trade with. -/
theorem matchLit_tradable {o o₁ o₂ : Order} {s s₁ s₂ : MatchingEngine} (htype : o.ordType = .limit)
    (hpeg : pegStep o s = .ok (o₁, s₁)) (hlit : matchLit o.side o₁ s₁ = .ok (o₂, s₂)) :
    o₂.quantity = o.quantity - s.tradable o ∧ ReportsFills o o₂ s s₂ := by
  have hfrom := pegStep_filledFrom hpeg
  obtain ⟨hqty₁, hreports₁⟩ := pegStep_quantity hpeg
  obtain ⟨hqty₂, hreports₂⟩ := matchLit_quantity hlit
  refine ⟨?_, hreports₁.trans hfrom.orderID hreports₂⟩
  -- The lit walk reads the levels that the peg step left as they were.
  rw [(pools_pegStep hpeg).1, hfrom.price] at hqty₂
  have hlit : s.tradableLit o =
      quantityWithin o.side o.price (s.book o.side.opposite).entries := by
    rw [tradableLit, if_pos htype]
  calc o₂.quantity = o₁.quantity - s.tradableLit o := by rw [hqty₂, hlit]
    _ = o.quantity - s.tradablePegs o - s.tradableLit o := by rw [hqty₁]
    _ = o.quantity - s.tradable o := Nat.sub_sub _ _ _

/-! ## All or nothing -/

/-- The pool cross does nothing where a pool is empty. -/
theorem crossPegPools_of_empty {s : MatchingEngine} (h : s.pegBids = [] ∨ s.pegAsks = []) :
    s.crossPegPools = .ok s := by
  have hdone : crossPegPoolsBody s.mid s = .ok none := by
    unfold crossPegPoolsBody
    -- The body ends at once, whichever pool is empty.
    rcases h with hnil | hnil
    · rw [hnil]
    · rw [hnil]
      cases s.pegBids <;> rfl
  simp only [crossPegPools]
  split_ifs
  · rfl
  · exact whileLoop_done hdone _

/-- The pool cross does nothing after an order that left nothing to rest: its walks only took orders
away, so that the pools are settled as they were. -/
theorem crossPegPools_of_done {s s₁ s₂ : MatchingEngine} (hq : s.Queued) (hs : s.Settled)
    {o o₁ o₂ : Order} (hpeg : pegStep o s = .ok (o₁, s₁))
    (hlit : matchLit o.side o₁ s₁ = .ok (o₂, s₂)) :
    (s₂.dispose o₂).crossPegPools = .ok (s₂.dispose o₂) := by
  obtain ⟨hbook, hown, hempty, -⟩ := pools_pegStep hpeg
  obtain ⟨hbook', hpool, hkeys⟩ := keys_matchLit hlit
  -- No phase of the match opens a level or fills a pool.
  have hsettled : (s₂.dispose o₂).Settled := by
    refine hs.mono ((forall_side o.side).mpr ⟨?_, ?_⟩) ((forall_side o.side).mpr ⟨?_, ?_⟩)
    · rw [book_dispose, hbook', hbook]
      exact id
    · rw [book_dispose]
      intro hnil
      rw [hbook, keys_eq_nil.mpr hnil] at hkeys
      exact keys_eq_nil.mp (List.subset_nil.mp hkeys)
    · rw [pool_dispose, hpool, hown]
      exact id
    · rw [pool_dispose, hpool]
      exact hempty
  have hq₂ : (s₂.dispose o₂).Queued := ((hq.pegStep hpeg).matchLit hlit).dispose o₂
  -- Without a midpoint the cross does not run; with one, a pool is empty.
  by_cases hmid : (s₂.dispose o₂).mid = Prices.na
  · simp only [crossPegPools]
    rw [if_pos hmid]
  · rw [hq₂.mid_eq_na_iff, not_or] at hmid
    exact crossPegPools_of_empty (hsettled hmid.1 hmid.2)

/-- Fill or kill is all or nothing. Where the tradable quantity covers the order, the admission
reports fills of the order that add up to it, and nothing else. Where it does not, the admission
reports that the whole order expired, and the queues, the registry and the trades stay as they
were. -/
theorem fok_all_or_nothing {s : MatchingEngine} (h : s.Reachable) {o : Order} (ho : o.Constructed)
    (hfok : o.tif = .fok) (hfit : (quantityOf s.resting : ℤ) ≤ longMax) :
    ∃ t, s.addOrder o = .ok t ∧
      ((o.quantity ≤ s.tradable o ∧
          ∃ fills, t.executionListener = s.executionListener ++ fills ∧
            (∀ c ∈ fills, ∃ passive tradeId price m remaining,
              c = .onFill o.orderID passive tradeId price m remaining) ∧
            (fills.map filledQuantity).sum = o.quantity) ∨
        (s.tradable o < o.quantity ∧
          t.executionListener = s.executionListener ++ [.onExpired o.orderID o.quantity] ∧
          t.bids = s.bids ∧ t.asks = s.asks ∧ t.pegBids = s.pegBids ∧ t.pegAsks = s.pegAsks ∧
          t.openOrders = s.openOrders ∧ t.trades = s.trades)) := by
  obtain ⟨t, hadd⟩ := h.addOrder_total ho
  obtain ⟨hv, hpos⟩ := ho.valid
  have hprobe := canFillCompletely_iff hpos hfit
  refine ⟨t, hadd, ?_⟩
  rcases addOrder_cases hadd with ⟨-, hfail, rfl⟩ | ⟨hpass, o₁, s₁, hpeg, hrest⟩
  · right
    have hlt : ¬ o.quantity ≤ s.tradable o := by
      rw [← hprobe, hfail]
      simp
    exact ⟨by omega, rfl, rfl, rfl, rfl, rfl, rfl, rfl⟩
  · left
    have hle := hprobe.mp (hpass hfok)
    refine ⟨hle, ?_⟩
    rcases hrest with ⟨htype, rfl⟩ | ⟨htype, o₂, s₂, hlit, hcross⟩
    · -- A peg has the pool only.
      obtain ⟨hqty, fills, hlistener, hfills, hsum⟩ := pegStep_tradable htype hpeg
      refine ⟨fills, ?_, hfills, by omega⟩
      rw [← hlistener, disposePeg, if_neg (by omega), dispose, if_neg (by omega)]
      rfl
    · -- What the pool leaves of a limit order, the levels within its limit fill.
      obtain ⟨hqty, fills, hlistener, hfills, hsum⟩ := matchLit_tradable htype hpeg hlit
      have hlast : s₂.disposeLit o₂ = s₂.dispose o₂ := by
        rw [disposeLit, if_neg (by omega)]
      rw [hlast, crossPegPools_of_done h.queued h.settled hpeg hlit] at hcross
      obtain rfl := Except.ok.inj hcross
      refine ⟨fills, ?_, hfills, by omega⟩
      rw [← hlistener, dispose, if_neg (by omega)]
      rfl

/-- A fill-or-kill sell of 24 takes the peg at the midpoint and two slices of the iceberg; one of
35, which is one more than there is, expires. -/
theorem fok_all_or_nothing_quoted :
    (∃ t fills, (after quotedCalls).addOrder (.built 5 5 .sell 24 10000 1 .fok 0 .limit) = .ok t ∧
        t.executionListener = (after quotedCalls).executionListener ++ fills ∧
        (fills.map filledQuantity).sum = 24) ∧
      ∃ t, (after quotedCalls).addOrder (.built 5 5 .sell 35 10000 1 .fok 0 .limit) = .ok t ∧
        t.executionListener = (after quotedCalls).executionListener ++ [.onExpired 5 35] := by
  constructor
  · obtain ⟨t, hadd, ⟨-, fills, hlistener, -, hsum⟩ | ⟨hlt, -⟩⟩ :=
      fok_all_or_nothing (reachable_after quotedCalls)
        (o := .built 5 5 .sell 24 10000 1 .fok 0 .limit)
        ⟨5, 5, some .sell, 24, 10000, 1, some .fok, 0, some .limit, rfl⟩ rfl (by decide)
    · exact ⟨t, fills, hadd, hlistener, hsum⟩
    · exact absurd hlt (by decide)
  · obtain ⟨t, hadd, ⟨hle, -⟩ | ⟨-, hlistener, -⟩⟩ :=
      fok_all_or_nothing (reachable_after quotedCalls)
        (o := .built 5 5 .sell 35 10000 1 .fok 0 .limit)
        ⟨5, 5, some .sell, 35, 10000, 1, some .fok, 0, some .limit, rfl⟩ rfl (by decide)
    · exact absurd hle (by decide)
    · exact ⟨t, hadd, hlistener⟩

end MatchingVenue.MatchingEngine
