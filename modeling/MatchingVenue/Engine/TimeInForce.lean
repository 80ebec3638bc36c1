import MatchingVenue.Engine.Cancellation

/-!
# Time in force

The time in force of an order decides whether it is probed, and what becomes of the remainder of it.
The match in between does not read it (`matchLit_withTif`). So an immediate-or-cancel order does
what a good-til-cancelled one does that is cancelled when it has come to rest, and a fill-or-kill
order that passes the probe does what a good-til-cancelled one does (`ioc_eq_gtc_cancel`).
-/

namespace MatchingVenue

/-- The order with another time in force. -/
def Order.withTif (o : Order) (tif : TimeInForce) : Order := { o with tif := tif }

section Fields

variable (o : Order) (tif : TimeInForce)

@[simp] theorem withTif_orderID : (o.withTif tif).orderID = o.orderID := rfl
@[simp] theorem withTif_side : (o.withTif tif).side = o.side := rfl
@[simp] theorem withTif_quantity : (o.withTif tif).quantity = o.quantity := rfl
@[simp] theorem withTif_price : (o.withTif tif).price = o.price := rfl
@[simp] theorem withTif_tif : (o.withTif tif).tif = tif := rfl
@[simp] theorem withTif_ordType : (o.withTif tif).ordType = o.ordType := rfl

end Fields

/-- The quantity that a callback reports as expired. -/
def expiredQuantity : Callback → ℕ
  | .onExpired _ quantity => quantity
  | _ => 0

/-- The quantity that a callback reports as come to rest. -/
def acceptedQuantity : Callback → ℕ
  | .onAccepted _ _ quantity => quantity
  | _ => 0

namespace MatchingEngine

/-! ## The match does not read the time in force -/

/-- A fill does not look at the time in force. -/
theorem fill_withTif (o : Order) (tif : TimeInForce) (m : ℕ) :
    (o.withTif tif).fill m = (o.fill m).map fun a => a.withTif tif := by
  unfold Order.fill
  show (if m = 0 then _ else if m > o.quantity then _ else _) = _
  split_ifs <;> rfl

/-- The record of a fill does not tell the time in force. -/
theorem recordFill_withTif (s : MatchingEngine) (o passive : Order) (tif : TimeInForce)
    (price : ℤ) (m : ℕ) :
    s.recordFill (o.withTif tif) passive price m = s.recordFill o passive price m := by
  unfold recordFill
  rw [withTif_side]
  cases o.side <;> rfl

/-- An iteration over the opposite pool does not look at the time in force. -/
theorem matchPegPoolBody_withTif (mid : ℤ) (tif : TimeInForce) (x : Order × MatchingEngine) :
    matchPegPoolBody mid (x.1.withTif tif, x.2) =
      (matchPegPoolBody mid x).map (Option.map fun y => (y.1.withTif tif, y.2)) := by
  obtain ⟨o, s⟩ := x
  simp only [matchPegPoolBody, withTif_quantity, withTif_side, fill_withTif]
  by_cases hq : o.quantity = 0
  · rw [if_pos hq, if_pos hq]
    rfl
  rw [if_neg hq, if_neg hq]
  cases s.pool o.side.opposite with
  | nil => rfl
  | cons resting behind =>
    simp only
    -- The body goes on with the fill of the incoming order, and with that of the head of the pool.
    cases o.fill (min o.quantity resting.quantity) with
    | error e => rfl
    | ok a =>
      simp only [Except.map, bind, Except.bind, withTif_side, recordFill_withTif]
      cases resting.fill (min o.quantity resting.quantity) with
      | error e => rfl
      | ok r =>
        simp only
        split_ifs <;> rfl

/-- An iteration over the opposite levels does not look at the time in force. -/
theorem matchLitBody_withTif (side : Side) (tif : TimeInForce) (x : Order × MatchingEngine) :
    matchLitBody side (x.1.withTif tif, x.2) =
      (matchLitBody side x).map (Option.map fun y => (y.1.withTif tif, y.2)) := by
  obtain ⟨o, s⟩ := x
  simp only [matchLitBody, withTif_quantity, withTif_price, fill_withTif]
  by_cases hq : o.quantity = 0
  · rw [if_pos hq, if_pos hq]
    rfl
  rw [if_neg hq, if_neg hq]
  cases (s.book side.opposite).firstEntry with
  | none => rfl
  | some level =>
    obtain ⟨price, queue⟩ := level
    simp only
    by_cases hm : ¬ marketable side o.price price
    · rw [if_pos hm, if_pos hm]
      rfl
    rw [if_neg hm, if_neg hm]
    cases queue with
    | nil => rfl
    | cons resting behind =>
      simp only
      cases o.fill (min o.quantity resting.visibleQty) with
      | error e => rfl
      | ok a =>
        simp only [Except.map, bind, Except.bind, recordFill_withTif]
        cases resting.fill (min o.quantity resting.visibleQty) with
        | error e => rfl
        | ok r => rfl

/-- The peg step does not look at the time in force. -/
theorem pegStep_withTif {o o' : Order} {s s' : MatchingEngine} (tif : TimeInForce)
    (h : pegStep o s = .ok (o', s')) :
    pegStep (o.withTif tif) s = .ok (o'.withTif tif, s') := by
  by_cases hmid : s.ReachesMid o
  · rw [pegStep_of_reaches hmid] at h
    have hmid' : s.ReachesMid (o.withTif tif) := hmid
    have hwalk : matchPegPool (o.withTif tif) s.mid s = (matchPegPool o s.mid s).map fun y =>
        (y.1.withTif tif, y.2) :=
      whileLoop_map (fun y : Order × MatchingEngine => (y.1.withTif tif, y.2))
        (matchPegPoolBody_withTif s.mid tif)
        o.quantity (o, s)
    rw [pegStep_of_reaches hmid', hwalk, h]
    rfl
  · rw [pegStep_of_not_reaches hmid] at h
    obtain ⟨rfl, rfl⟩ := Prod.mk.inj (Except.ok.inj h)
    exact pegStep_of_not_reaches (s := s) (o := o.withTif tif) hmid

/-- The lit walk does not look at the time in force. -/
theorem matchLit_withTif {side : Side} {o o' : Order} {s s' : MatchingEngine} (tif : TimeInForce)
    (h : matchLit side o s = .ok (o', s')) :
    matchLit side (o.withTif tif) s = .ok (o'.withTif tif, s') := by
  have hwalk : matchLit side (o.withTif tif) s = (matchLit side o s).map fun y =>
      (y.1.withTif tif, y.2) :=
    whileLoop_map (fun y : Order × MatchingEngine => (y.1.withTif tif, y.2))
      (matchLitBody_withTif side tif)
      o.quantity (o, s)
  rw [hwalk, h]
  rfl

/-! ## What becomes of the remainder -/

/-- The quantity that the engine has reported as expired since an earlier state. -/
def expiredSince (t s : MatchingEngine) : ℕ := ((callbacksSince t s).map expiredQuantity).sum

/-- The quantity that the engine has reported as come to rest since an earlier state. -/
def acceptedSince (t s : MatchingEngine) : ℕ := ((callbacksSince t s).map acceptedQuantity).sum

/-- The engine after the cancel of an order whose admission has just brought it from `s` to `t`,
where the order came to rest. -/
def cancelRested (s t : MatchingEngine) (orderID : ℤ) : MatchingEngine :=
  if 0 < acceptedSince t s then (t.cancelOrder orderID).1 else t

/-- The fills of a match report nothing that expired and nothing that came to rest. -/
theorem ReportsFills.sum_since {o a : Order} {s u t : MatchingEngine} {f : Callback → ℕ}
    (h : ReportsFills o a s u) (hf : ∀ aggressor passive tradeId price m remaining,
    f (.onFill aggressor passive tradeId price m remaining) = 0)
    {ends : List Callback} (ht : t.executionListener = u.executionListener ++ ends) :
    ((callbacksSince t s).map f).sum = (ends.map f).sum := by
  obtain ⟨fills, hlistener, hfills, -⟩ := h
  have hzero : (fills.map f).sum = 0 := by
    apply List.sum_eq_zero_iff_forall_eq_nat.mpr
    intro x hx
    obtain ⟨c, hc, rfl⟩ := List.mem_map.mp hx
    obtain ⟨passive, tradeId, price, m, remaining, rfl⟩ := hfills c hc
    exact hf _ _ _ _ _ _
  rw [callbacksSince, ht, hlistener, List.append_assoc, List.drop_left, List.map_append,
    List.sum_append, hzero, Nat.zero_add]

/-- An order that ends without coming to rest leaves the queues, the registry and the trades
alone. -/
theorem dispose_same (s : MatchingEngine) (o : Order) :
    SameBooks s (s.dispose o) ∧ (s.dispose o).trades = s.trades := by
  refine ⟨.of_sides (book_dispose s o) (pool_dispose s o) ?_, ?_⟩
  · unfold dispose
    split_ifs <;> rfl
  · unfold dispose
    split_ifs <;> rfl

/-- The report of an order that ends without coming to rest. -/
theorem listener_dispose (s : MatchingEngine) (o : Order) :
    (s.dispose o).executionListener =
      s.executionListener ++ if 0 < o.quantity then [.onExpired o.orderID o.quantity] else [] := by
  unfold dispose
  split_ifs
  · rfl
  · exact (List.append_nil _).symm

/-- After a match, what is left of an order that does not rest expires. -/
theorem expiredSince_dispose {s u : MatchingEngine} {o a : Order} (hreports : ReportsFills o a s u)
    (b : Order) :
    expiredSince (u.dispose b) s = b.quantity := by
  rw [expiredSince, hreports.sum_since (fun _ _ _ _ _ _ => rfl) (listener_dispose u b)]
  split_ifs with hpos
  · rfl
  · show 0 = b.quantity
    omega

/-- The engine `i` has traded what `g` has, and holds what `g` holds after the cancel of the order
that it has admitted since `s`, where that came to rest; and as much has expired in `i` as has come
to rest in `g`. -/
structure EndsAsCancelled (s g i : MatchingEngine) (orderID : ℤ) : Prop where
  /-- The engine holds what it holds after the rested order is cancelled. -/
  same : SameBooks (cancelRested s g orderID) i
  /-- The trades are the same. -/
  trades : i.trades = (cancelRested s g orderID).trades
  /-- What expires is what would have rested. -/
  quantity : expiredSince i s = acceptedSince g s

/-- The remainder of an order expires, or comes to rest and is cancelled. -/
theorem expire_eq_rest_cancel {s u g : MatchingEngine} {o a : Order}
    (hreports : ReportsFills o a s u) (hrests : 0 < a.quantity →
      g.executionListener = u.executionListener ++ [.onAccepted a.orderID a.price a.quantity] ∧
      SameBooks u (g.cancelOrder a.orderID).1 ∧ (g.cancelOrder a.orderID).1.trades = u.trades)
    (hdone : a.quantity = 0 → g = u.dispose (a.withTif .gtc)) :
    EndsAsCancelled s g (u.dispose (a.withTif .ioc)) a.orderID := by
  obtain ⟨hsame, htrades⟩ := u.dispose_same (a.withTif .ioc)
  have hexpired : expiredSince (u.dispose (a.withTif .ioc)) s = a.quantity :=
    expiredSince_dispose hreports _
  rcases Nat.eq_zero_or_pos a.quantity with hzero | hpos
  · obtain rfl := hdone hzero
    obtain ⟨hsame', htrades'⟩ := u.dispose_same (a.withTif .gtc)
    have haccepted : acceptedSince (u.dispose (a.withTif .gtc)) s = 0 := by
      rw [acceptedSince, hreports.sum_since (fun _ _ _ _ _ _ => rfl)
        (listener_dispose u (a.withTif .gtc)), withTif_quantity, if_neg (by omega)]
      rfl
    have hstay : cancelRested s (u.dispose (a.withTif .gtc)) a.orderID =
        u.dispose (a.withTif .gtc) :=
      if_neg (by omega)
    refine ⟨?_, ?_, by omega⟩
    · rw [hstay]
      exact hsame'.symm.trans hsame
    · rw [hstay]
      exact htrades.trans htrades'.symm
  · obtain ⟨hlistener, hcancel, hcancelled⟩ := hrests hpos
    have haccepted : acceptedSince g s = a.quantity := by
      rw [acceptedSince, hreports.sum_since (fun _ _ _ _ _ _ => rfl) hlistener]
      rfl
    have hgone : cancelRested s g a.orderID = (g.cancelOrder a.orderID).1 := if_pos (by omega)
    refine ⟨?_, ?_, hexpired.trans haccepted.symm⟩
    · rw [hgone]
      exact hcancel.symm.trans hsame
    · rw [hgone]
      exact htrades.trans hcancelled.symm

/-- A match registers no id. -/
theorem Steps.match_free {o o' : Order} {s s' : MatchingEngine}
    (h : Steps (some o, s) (some o', s')) {orderID : ℤ} (hfree : s.openOrders orderID = none) :
    s'.openOrders orderID = none := by
  refine h.match_induction (P := fun _ u => u.openOrders orderID = none) hfree ?_
  intro a u b v hu hstep
  cases hstep with
  | hit _ _ _ _ _ _ _ _ _ _ _ _ hopen _ =>
    rw [hopen]
    exact Option.eq_none_iff_forall_ne_some.mpr fun ref href => by
      rw [(unlessDone_eq_some.mp href).1] at hu
      exact absurd hu (by simp)

/-- Another time in force than good-til-cancelled is one for orders without a hidden part. -/
theorem valid_withTif {o : Order} (hv : o.Valid) (hplain : o.ordType = .limit → o.peak = 0)
    (tif : TimeInForce) :
    (o.withTif tif).Valid := by
  have hpeak : o.peak = 0 := by
    cases htype : o.ordType with
    | limit => exact hplain htype
    | pegMid => exact (hv.peg_price htype).2
  exact ⟨hv.orderID_pos, hv.timeStamp_pos, hv.limit_price, hv.peg_price,
    fun hpos => absurd hpeak hpos.ne', hv.plain_visible, hv.iceberg_visible⟩

/-- An admission that fills no peg pool leaves it to the pool cross that a pool is empty. -/
theorem empty_pool_of_match {o o₁ o₂ : Order} {s s₁ s₂ : MatchingEngine}
    (hpeg : pegStep o s = .ok (o₁, s₁)) (hlit : matchLit o.side o₁ s₁ = .ok (o₂, s₂))
    (h : s.pegBids = [] ∨ s.pegAsks = []) :
    s₂.pegBids = [] ∨ s₂.pegAsks = [] := by
  obtain ⟨-, hown, hempty, -⟩ := pools_pegStep hpeg
  obtain ⟨-, hpool, -⟩ := keys_matchLit hlit
  have hkeep : ∀ x, s.pool x = [] → s₂.pool x = [] := by
    rw [forall_side o.side]
    constructor
    · intro hnil
      rw [hpool, hown, hnil]
    · intro hnil
      rw [hpool, hempty hnil]
  exact h.imp (hkeep .buy) (hkeep .sell)

/-- A limit order that leaves nothing to rest ends where its match ends. -/
theorem addOrder_limit_done {s s₁ s₂ t : MatchingEngine} (h : s.Reachable) {o o₁ o₂ : Order}
    {tif : TimeInForce} (hadd : s.addOrder (o.withTif tif) = .ok t) (htype : o.ordType = .limit)
    (hpass : tif = .fok → s.canFillCompletely (o.withTif tif) = true)
    (hpeg : pegStep o s = .ok (o₁, s₁)) (hlit : matchLit o.side o₁ s₁ = .ok (o₂, s₂))
    (hdone : ¬ (0 < o₂.quantity ∧ tif = .gtc)) :
    t = s₂.dispose (o₂.withTif tif) := by
  have hpeg' := pegStep_withTif tif hpeg
  have hlit' := matchLit_withTif tif hlit
  have hcross := addOrder_limit_end hadd htype hpass hpeg' hlit'
  rw [show s₂.disposeLit (o₂.withTif tif) = s₂.dispose (o₂.withTif tif) from if_neg hdone,
    crossPegPools_of_done h.queued h.settled hpeg' hlit'] at hcross
  exact (Except.ok.inj hcross).symm

/-- A peg that is immediate-or-cancel, and one that is good-til-cancelled. -/
theorem peg_ioc_gtc {s g i : MatchingEngine} (h : s.Reachable) {o : Order} (hv : o.Valid)
    (htype : o.ordType = .pegMid) (hfree : s.openOrders o.orderID = none)
    (hioc : s.addOrder (o.withTif .ioc) = .ok i) (hgtc : s.addOrder (o.withTif .gtc) = .ok g) :
    EndsAsCancelled s g i o.orderID := by
  have hq := h.queued
  obtain ⟨o₁, s₁, hpeg⟩ := hq.pegStep_total o
  have hfrom := pegStep_filledFrom hpeg
  have htype₁ := hfrom.ordType.trans htype
  have hsteps := pegStep_steps hq hpeg
  have hi : i = s₁.dispose (o₁.withTif .ioc) :=
    (addOrder_peg_end hioc htype nofun (pegStep_withTif .ioc hpeg)).trans (if_neg (by simp))
  have hg : g = s₁.disposePeg (o₁.withTif .gtc) :=
    addOrder_peg_end hgtc htype nofun (pegStep_withTif .gtc hpeg)
  rw [hi, ← hfrom.orderID]
  refine expire_eq_rest_cancel (pegStep_tradable htype hpeg).2 ?_ ?_
  · intro hpos
    have hv₁ : (o₁.withTif .gtc).Valid :=
      valid_withTif (hfrom.valid hv) (fun hlimit => absurd (htype₁.symm.trans hlimit) (by decide))
        .gtc
    have hfree₁ : s₁.openOrders o₁.orderID = none :=
      hsteps.match_free (by rw [hfrom.orderID]; exact hfree)
    obtain ⟨-, hsame, htrades⟩ := restPeg_cancel (hq.pegStep hpeg) (hsteps.identified h.identified)
      hv₁ hpos rfl htype₁
      hfree₁
    rw [show g = s₁.restPeg (o₁.withTif .gtc) from hg.trans (if_pos ⟨hpos, rfl⟩)]
    exact ⟨executionListener_restPeg _ _, hsame, htrades⟩
  · intro hzero
    rw [hg]
    exact if_neg fun hpos => hpos.1.ne' hzero

/-- A limit order that is immediate-or-cancel, and one that is good-til-cancelled. -/
theorem limit_ioc_gtc {s g i : MatchingEngine} (h : s.Reachable) {o : Order} (hv : o.Valid)
    (htype : o.ordType = .limit) (hplain : o.peak = 0) (hfree : s.openOrders o.orderID = none)
    (hioc : s.addOrder (o.withTif .ioc) = .ok i) (hgtc : s.addOrder (o.withTif .gtc) = .ok g)
    (hmid : ¬ (s.mid = Prices.na ∧ s.pegBids ≠ [] ∧ s.pegAsks ≠ [])) :
    EndsAsCancelled s g i o.orderID := by
  have hq := h.queued
  obtain ⟨o₁, s₁, hpeg⟩ := hq.pegStep_total o
  have hq₁ := hq.pegStep hpeg
  obtain ⟨o₂, s₂, hlit⟩ := hq₁.matchLit_total o.side o₁
  have hfrom₁ := pegStep_filledFrom hpeg
  have hfrom := hfrom₁.trans (matchLit_filledFrom hlit)
  have htype₂ := hfrom.ordType.trans htype
  have hsteps : Steps (some o, s) (some o₂, s₂) :=
    (pegStep_steps hq hpeg).trans (matchLit_steps hq₁ (by rw [hfrom₁.side]; exact hlit))
  rw [addOrder_limit_done h hioc htype nofun hpeg hlit (by simp), ← hfrom.orderID]
  refine expire_eq_rest_cancel (matchLit_tradable htype hpeg hlit).2 ?_ ?_
  · intro hpos
    have hempty : s.pegBids = [] ∨ s.pegAsks = [] := by
      by_cases hna : s.mid = Prices.na
      · by_contra hboth
        exact hmid ⟨hna, not_or.mp hboth⟩
      · rw [hq.mid_eq_na_iff, not_or] at hna
        exact h.settled hna.1 hna.2
    -- The order comes to rest, and there is nothing to cross.
    have hcross := addOrder_limit_end hgtc htype
      nofun (pegStep_withTif .gtc hpeg) (matchLit_withTif .gtc hlit)
    have hpools : ∀ x, (s₂.disposeLit (o₂.withTif .gtc)).pool x = s₂.pool x :=
      (disposeLit_frame s₂ (o₂.withTif .gtc)).2.1
    have hrests : s₂.disposeLit (o₂.withTif .gtc) =
        (s₂.addToBook (o₂.withTif .gtc)).onAccepted (o₂.withTif .gtc) :=
      if_pos ⟨hpos, rfl⟩
    rw [crossPegPools_of_empty ((empty_pool_of_match hpeg hlit hempty).imp ((hpools .buy).trans ·)
      ((hpools .sell).trans ·)), hrests] at hcross
    obtain rfl := Except.ok.inj hcross
    have hv₂ : (o₂.withTif .gtc).Valid :=
      valid_withTif (hfrom.valid hv) (fun _ => hfrom.peak.trans hplain) .gtc
    have hfree₂ : s₂.openOrders o₂.orderID = none :=
      hsteps.match_free (by rw [hfrom.orderID]; exact hfree)
    obtain ⟨-, hsame, htrades⟩ := addToBook_cancel (hq₁.matchLit hlit)
      (hsteps.identified h.identified) hv₂ hpos rfl
      htype₂ hfree₂
    refine ⟨?_, hsame, htrades⟩
    show (s₂.addToBook (o₂.withTif .gtc)).executionListener ++ _ = _
    rw [executionListener_addToBook]
    rfl
  · intro hzero
    exact addOrder_limit_done h hgtc htype nofun hpeg hlit fun hpos => hpos.1.ne' hzero

/-- An order that is filled in full does the same whatever its time in force. -/
theorem addOrder_filled {s : MatchingEngine} (h : s.Reachable) {o : Order}
    (hfill : o.quantity ≤ s.tradable o) :
    ∃ u, ∀ tif t, (tif = .fok → s.canFillCompletely (o.withTif tif) = true) →
      s.addOrder (o.withTif tif) = .ok t → SameBooks u t ∧ t.trades = u.trades := by
  have hq := h.queued
  obtain ⟨o₁, s₁, hpeg⟩ := hq.pegStep_total o
  cases htype : o.ordType with
  | pegMid =>
    have hquantity := (pegStep_tradable htype hpeg).1
    refine ⟨s₁, fun tif t hpass hadd => ?_⟩
    have hend : t = s₁.disposePeg (o₁.withTif tif) :=
      addOrder_peg_end hadd htype hpass (pegStep_withTif tif hpeg)
    rw [hend, show s₁.disposePeg (o₁.withTif tif) = s₁.dispose (o₁.withTif tif) from
      if_neg fun hpos => hpos.1.ne' (by rw [withTif_quantity]; omega)]
    exact s₁.dispose_same _
  | limit =>
    obtain ⟨o₂, s₂, hlit⟩ := (hq.pegStep hpeg).matchLit_total o.side o₁
    have hquantity := (matchLit_tradable htype hpeg hlit).1
    refine ⟨s₂, fun tif t hpass hadd => ?_⟩
    rw [addOrder_limit_done h hadd htype hpass hpeg hlit fun hpos => hpos.1.ne' (by omega)]
    exact s₂.dispose_same _

/-- Immediate-or-cancel is good-til-cancelled and a cancel. An order of a fresh id, a limit order
without a hidden part or a peg, trades the same and leaves the same queues and registry, whether it
is immediate-or-cancel, or it is good-til-cancelled and is cancelled when it has come to rest; and
as much expires as would have come to rest. The exception is an engine without a midpoint and with
pegs in both pools, which an order that comes to rest may cross. A fill-or-kill order that passes
the probe trades the same and leaves the same as a good-til-cancelled one. -/
theorem ioc_eq_gtc_cancel {s : MatchingEngine} (h : s.Reachable) {o : Order} (ho : o.Constructed)
    (hplain : o.ordType = .limit → o.peak = 0) (hfree : s.openOrders o.orderID = none) :
    ∃ i g f, s.addOrder (o.withTif .ioc) = .ok i ∧ s.addOrder (o.withTif .gtc) = .ok g ∧
      s.addOrder (o.withTif .fok) = .ok f ∧
      (¬ (s.mid = Prices.na ∧ s.pegBids ≠ [] ∧ s.pegAsks ≠ []) → EndsAsCancelled s g i o.orderID) ∧
      (s.canFillCompletely (o.withTif .fok) = true → SameBooks g f ∧ f.trades = g.trades) := by
  have hv := valid_withTif ho.valid.1 hplain
  obtain ⟨i, hioc⟩ := h.queued.addOrder_total (hv .ioc)
  obtain ⟨g, hgtc⟩ := h.queued.addOrder_total (hv .gtc)
  obtain ⟨f, hfok⟩ := h.queued.addOrder_total (hv .fok)
  refine ⟨i, g, f, hioc, hgtc, hfok, ?_, ?_⟩
  · intro hmid
    cases htype : o.ordType with
    | pegMid => exact peg_ioc_gtc h ho.valid.1 htype hfree hioc hgtc
    | limit => exact limit_ioc_gtc h ho.valid.1 htype (hplain htype) hfree hioc hgtc hmid
  · intro hpass
    have hfill : o.quantity ≤ s.tradable o := canFillCompletely_le hpass
    obtain ⟨u, hsame⟩ := addOrder_filled h hfill
    obtain ⟨hsame₁, htrades₁⟩ := hsame .gtc g nofun hgtc
    obtain ⟨hsame₂, htrades₂⟩ := hsame .fok f (fun _ => hpass) hfok
    exact ⟨hsame₁.symm.trans hsame₂, htrades₂.trans htrades₁.symm⟩

/-- A sell of more than `quotedCalls` holds within its limit. -/
theorem ioc_eq_gtc_cancel_quoted : ∃ i g,
    (after quotedCalls).addOrder (.built 9 9 .sell 50 10000 1 .ioc 0 .limit) = .ok i ∧
      (after quotedCalls).addOrder (.built 9 9 .sell 50 10000 1 .gtc 0 .limit) = .ok g ∧
      SameBooks (cancelRested (after quotedCalls) g 9) i := by
  obtain ⟨i, g, -, hioc, hgtc, -, hsame, -⟩ := ioc_eq_gtc_cancel (reachable_after quotedCalls)
    (o := .built 9 9 .sell 50 10000 1 .gtc 0 .limit)
    ⟨9, 9, some .sell, 50, 10000, 1, some .gtc, 0, some .limit, rfl⟩ (fun _ => rfl) (by decide)
  exact ⟨i, g, hioc, hgtc, (hsame (by decide)).same⟩

end MatchingEngine

end MatchingVenue
