import MatchingVenue.Engine.TimeInForce
import MatchingVenue.Engine.Priority
import MatchingVenue.Library.Bites
import MatchingVenue.Market.Midpoint

/-!
# Splitting an order

An incoming order takes from the pool and from the lit book bite by bite, each one from the head of
a queue: as much as the peg has, or as much as the resting order displays. A bite in two parts comes
to the same as the bite at once (`poolBites`, `litBites`), so that an immediate-or-cancel order does
what two do that follow each other and have its quantity together (`split_neutral_iff`). The one
difference is where the second one trades at a midpoint that the whole order does not reach. That
takes a sum of the two best prices beyond `long`, where the midpoint of the source is a negative
one.
-/

namespace MatchingVenue

/-- Of two values set at the first key, the second stays. -/
theorem SortedMap.setFirst_setFirst {κ α : Type*} {lt : κ → κ → Prop}
    (m : SortedMap lt α) (a b : α) :
    (m.setFirst a).setFirst b = m.setFirst b := by
  obtain ⟨entries, sorted⟩ := m
  cases entries <;> rfl

/-- What is set at the first key is gone after it is polled. -/
theorem SortedMap.pollFirst_setFirst {κ α : Type*} {lt : κ → κ → Prop}
    (m : SortedMap lt α) (a : α) :
    (m.setFirst a).pollFirst = m.pollFirst := by
  obtain ⟨entries, sorted⟩ := m
  cases entries <;> rfl

namespace MatchingEngine

/-! ## Bites -/

/-- The head of the best level gives as much as it displays, and is settled as after a fill. -/
def litBite (side : Side) (limit : ℤ) (n : ℕ) (s : MatchingEngine) :
    Option ((ℤ × ℤ) × ℕ × MatchingEngine) :=
  match (s.book side.opposite).entries with
  | (price, r :: behind) :: _ =>
    if 0 < min n r.visibleQty ∧ r.visibleQty ≤ r.quantity ∧ marketable side limit price then
      some ((r.orderID, price), min n r.visibleQty,
        s.settleLit side.opposite (r.filled (min n r.visibleQty)) behind)
    else none
  | _ => none

/-- The head of a pool gives as much as it has. -/
def poolBite (side : Side) (mid : ℤ) (n : ℕ) (s : MatchingEngine) :
    Option ((ℤ × ℤ) × ℕ × MatchingEngine) :=
  match s.pool side.opposite with
  | r :: behind =>
    if 0 < min n r.quantity then
      some ((r.orderID, mid), min n r.quantity,
        s.settleHead side.opposite (r.filled (min n r.quantity)) behind)
    else none
  | [] => none

/-- A bite of the lit walk: the first order of the best opposite level within the limit gives what
it shows, up to the need. -/
theorem litBite_eq_some {side : Side} {limit : ℤ} {n m : ℕ} {s t : MatchingEngine} {k : ℤ × ℤ} :
    litBite side limit n s = some (k, m, t) ↔ ∃ price r behind levels,
      (s.book side.opposite).entries = (price, r :: behind) :: levels ∧ r.visibleQty ≤ r.quantity ∧
      marketable side limit price = true ∧ m = min n r.visibleQty ∧ 0 < m ∧ k = (r.orderID, price) ∧
      t = s.settleLit side.opposite (r.filled m) behind := by
  unfold litBite
  constructor
  · intro h
    split at h
    · rename_i price r behind levels hentries
      split_ifs at h with hgives
      obtain ⟨rfl, rfl, rfl⟩ := by simpa using h
      exact ⟨price, r, behind, levels, hentries, hgives.2.1, hgives.2.2, rfl, hgives.1, rfl, rfl⟩
    · exact absurd h nofun
  · rintro ⟨price, r, behind, levels, hentries, hvisible, hm, rfl, hpos, rfl, rfl⟩
    simp only [hentries]
    rw [if_pos ⟨hpos, hvisible, hm⟩]

/-- A bite of a pool: the first order of the opposite pool gives what it has, up to the need. -/
theorem poolBite_eq_some {side : Side} {mid : ℤ} {n m : ℕ} {s t : MatchingEngine} {k : ℤ × ℤ} :
    poolBite side mid n s = some (k, m, t) ↔ ∃ r behind, s.pool side.opposite = r :: behind ∧
      m = min n r.quantity ∧ 0 < m ∧ k = (r.orderID, mid) ∧
      t = s.settleHead side.opposite (r.filled m) behind := by
  unfold poolBite
  constructor
  · intro h
    split at h
    · rename_i r behind hpool
      split_ifs at h with hgives
      obtain ⟨rfl, rfl, rfl⟩ := by simpa using h
      exact ⟨r, behind, hpool, rfl, hgives, rfl, rfl⟩
    · exact absurd h nofun
  · rintro ⟨r, behind, hpool, rfl, hpos, rfl, rfl⟩
    simp only [hpool]
    rw [if_pos hpos]

/-- The head of a level is settled once more, where it has stayed in front. -/
theorem settleLit_setFirst (s : MatchingEngine) (side : Side) (r : RestingOrder)
    (queue behind : List RestingOrder) :
    (s.setBook side ((s.book side).setFirst queue)).settleLit side r behind =
      s.settleLit side r behind := by
  unfold settleLit
  cases side with
  | buy =>
    simp only [setBook, book, unregister, retire]
    split_ifs <;> simp only [SortedMap.setFirst_setFirst, SortedMap.pollFirst_setFirst]
  | sell =>
    simp only [setBook, book, unregister, retire]
    split_ifs <;> simp only [SortedMap.setFirst_setFirst, SortedMap.pollFirst_setFirst]

/-- The head of a pool is settled once more, where it has stayed in front. -/
theorem settleHead_setPool (s : MatchingEngine) (side : Side) (r : RestingOrder)
    (pool behind : List RestingOrder) :
    (s.setPool side pool).settleHead side r behind = s.settleHead side r behind := by
  unfold settleHead
  cases side with
  | buy => simp only [setPool, unregister, retire]
  | sell => simp only [setPool, unregister, retire]

/-- The bites of the lit walk within a limit. -/
def litBites (side : Side) (limit : ℤ) : Bites (ℤ × ℤ) MatchingEngine where
  bite := litBite side limit
  bite_pos h := by
    obtain ⟨price, r, behind, levels, -, -, -, hm, hpos, -, -⟩ := litBite_eq_some.mp h
    omega
  bite_none {n s} hpos hnone n' := by
    rw [Option.eq_none_iff_forall_ne_some]
    rintro ⟨k, m, t⟩ h
    obtain ⟨price, r, behind, levels, hentries, hvisible, hm, rfl, hgives, rfl, rfl⟩ :=
      litBite_eq_some.mp h
    rw [litBite_eq_some.mpr ⟨price, r, behind, levels, hentries, hvisible, hm, rfl, by omega, rfl,
      rfl⟩] at hnone
    exact absurd hnone nofun
  bite_whole h hle := by
    obtain ⟨price, r, behind, levels, hentries, hvisible, hm, rfl, hpos, rfl, rfl⟩ :=
      litBite_eq_some.mp h
    exact litBite_eq_some.mpr ⟨price, r, behind, levels, hentries, hvisible, hm, by omega,
      hpos, rfl, rfl⟩
  bite_split {n n' s k m t} h hpos hlt := by
    obtain ⟨price, r, behind, levels, hentries, hvisible, hm, hmin, hgives, rfl, rfl⟩ :=
      litBite_eq_some.mp h
    -- The first part does not use up what the head displays, so that it stays in front.
    have hstays : s.settleLit side.opposite (r.filled n) behind =
        s.setBook side.opposite ((s.book side.opposite).setFirst (r.filled n :: behind)) := by
      unfold settleLit
      have hquantity : (r.filled n).quantity ≠ 0 := by
        rw [quantity_filled]
        omega
      have hvisible : (r.filled n).visibleQty ≠ 0 := by
        rw [RestingOrder.toOrder_filled, Order.filled_visibleQty]
        omega
      rw [if_neg hquantity, if_neg hvisible]
    refine ⟨_, litBite_eq_some.mpr ⟨price, r, behind, levels, hentries, hvisible, hm, by omega,
      hpos, rfl, rfl⟩, ?_⟩
    rw [hstays]
    refine litBite_eq_some.mpr ⟨price, r.filled n, behind, levels, ?_, ?_, hm, ?_,
      by omega, rfl, ?_⟩
    · rw [book_setBook, SortedMap.entries_setFirst hentries]
    · rw [RestingOrder.toOrder_filled, Order.filled_visibleQty, Order.filled_quantity]
      omega
    · rw [RestingOrder.toOrder_filled, Order.filled_visibleQty]
      omega
    · rw [settleLit_setFirst, filled_filled, Nat.add_sub_cancel' hlt.le]

/-- The bites of an order from the opposite pool at a midpoint. -/
def poolBites (side : Side) (mid : ℤ) : Bites (ℤ × ℤ) MatchingEngine where
  bite := poolBite side mid
  bite_pos h := by
    obtain ⟨r, behind, -, hm, hpos, -, -⟩ := poolBite_eq_some.mp h
    omega
  bite_none {n s} hpos hnone n' := by
    rw [Option.eq_none_iff_forall_ne_some]
    rintro ⟨k, m, t⟩ h
    obtain ⟨r, behind, hpool, rfl, hgives, rfl, rfl⟩ := poolBite_eq_some.mp h
    rw [poolBite_eq_some.mpr ⟨r, behind, hpool, rfl, by omega, rfl, rfl⟩] at hnone
    exact absurd hnone nofun
  bite_whole h hle := by
    obtain ⟨r, behind, hpool, rfl, hpos, rfl, rfl⟩ := poolBite_eq_some.mp h
    exact poolBite_eq_some.mpr ⟨r, behind, hpool, by omega, hpos, rfl, rfl⟩
  bite_split {n n' s k m t} h hpos hlt := by
    obtain ⟨r, behind, hpool, hmin, hgives, rfl, rfl⟩ := poolBite_eq_some.mp h
    have hstays : s.settleHead side.opposite (r.filled n) behind =
        s.setPool side.opposite (r.filled n :: behind) := by
      unfold settleHead
      have hquantity : (r.filled n).quantity ≠ 0 := by
        rw [quantity_filled]
        omega
      rw [if_neg hquantity]
    refine ⟨_, poolBite_eq_some.mpr ⟨r, behind, hpool, by omega, hpos, rfl, rfl⟩, ?_⟩
    rw [hstays]
    refine poolBite_eq_some.mpr ⟨r.filled n, behind, ?_, ?_, by omega, rfl, ?_⟩
    · rw [pool_setPool]
    · rw [quantity_filled]
      omega
    · rw [settleHead_setPool, filled_filled, Nat.add_sub_cancel' hlt.le]

/-! ## The walks are meals -/

/-- The execution that a callback reports: the passive order, the price and the quantity. -/
def execution : Callback → Option ((ℤ × ℤ) × ℕ)
  | .onFill _ passiveOrderId _ price filledQuantity _ =>
    some ((passiveOrderId, price), filledQuantity)
  | _ => none

/-- The executions that the engine has reported since an earlier state. -/
def executionsSince (t s : MatchingEngine) : List ((ℤ × ℤ) × ℕ) :=
  (callbacksSince t s).filterMap execution

/-- Engines that hold the same have the same books. -/
theorem SameBooks.book {u v : MatchingEngine} (h : SameBooks u v) (x : Side) :
    v.book x = u.book x := by
  cases x
  · exact h.bids
  · exact h.asks

/-- Engines that hold the same have the same pools. -/
theorem SameBooks.pool {u v : MatchingEngine} (h : SameBooks u v) (x : Side) :
    v.pool x = u.pool x := by
  cases x
  · exact h.pegBids
  · exact h.pegAsks

/-- A head is settled in the same way in engines that hold the same. -/
theorem SameBooks.settleLit {u v : MatchingEngine} (h : SameBooks u v) (side : Side)
    (r : RestingOrder) (behind : List RestingOrder) :
    SameBooks (u.settleLit side r behind) (v.settleLit side r behind) := by
  have hbook := h.book side
  refine .of_sides ((forall_side side).mpr ⟨?_, ?_⟩) (fun x => ?_) ?_
  · unfold MatchingEngine.settleLit
    split_ifs <;> simp [hbook]
  · rw [book_settleLit_of_ne _ _ _ _ (Side.opposite_ne _),
      book_settleLit_of_ne _ _ _ _ (Side.opposite_ne _), h.book]
  · rw [pool_settleLit, pool_settleLit, h.pool]
  · rw [openOrders_settleLit, openOrders_settleLit, h.openOrders]

/-- A fill at the head of a pool keeps that two engines hold the same. -/
theorem SameBooks.settleHead {u v : MatchingEngine} (h : SameBooks u v) (side : Side)
    (r : RestingOrder) (behind : List RestingOrder) :
    SameBooks (u.settleHead side r behind) (v.settleHead side r behind) := by
  refine .of_sides (fun x => ?_) ((forall_side side).mpr ⟨?_, ?_⟩) ?_
  · rw [book_settleHead, book_settleHead, h.book]
  · rw [pool_settleHead, pool_settleHead]
  · rw [pool_settleHead_of_ne _ _ _ _ (Side.opposite_ne _),
      pool_settleHead_of_ne _ _ _ _ (Side.opposite_ne _), h.pool]
  · rw [openOrders_settleHead, openOrders_settleHead, h.openOrders]

/-- Recording a fill leaves what an engine holds. -/
theorem sameBooks_recordFill (s : MatchingEngine) (o passive : Order) (price : ℤ) (m : ℕ) :
    SameBooks s (s.recordFill o passive price m) :=
  .of_sides (by simp) (by simp) (by simp)

/-- A walk has the meal of its bites: it ends in an engine that holds the same, with what is left of
the need, and it reports the bites. -/
def Feeds (B : Bites (ℤ × ℤ) MatchingEngine) (o o' : Order) (s s' : MatchingEngine) : Prop :=
  ∀ u, SameBooks u s → ∃ l u', Meal B o.quantity u l o'.quantity u' ∧ SameBooks u' s' ∧
    ∃ callbacks, s'.executionListener = s.executionListener ++ callbacks ∧
    callbacks.filterMap execution = l

/-- A loop whose iterations are bites has their meal. -/
theorem feeds_of_loop {B : Bites (ℤ × ℤ) MatchingEngine}
    {body : Order × MatchingEngine → Except Exn (Option (Order × MatchingEngine))}
    {I : Order × MatchingEngine → Prop} {fuel : ℕ} {o o' : Order} {s s' : MatchingEngine}
    (h : whileLoop .diverged body fuel (o, s) = .ok (o', s'))
    (hI : I (o, s)) (hstep : ∀ x y, I x → body x = .ok (some y) → I y)
    (hnone : ∀ x u, I x → body x = .ok none → SameBooks u x.2 → B.bite x.1.quantity u = none)
    (hsome : ∀ x y u, I x → body x = .ok (some y) → SameBooks u x.2 →
      ∃ k m v c, B.bite x.1.quantity u = some (k, m, v) ∧ y.1.quantity = x.1.quantity - m ∧
    SameBooks v y.2 ∧
        y.2.executionListener = x.2.executionListener ++ [c] ∧ execution c = some (k, m)) :
    Feeds B o o' s s' := by
  obtain ⟨hIend, hend⟩ := whileLoop_inv h I hI hstep
  have hrun := whileLoop_steps_inv h I hI hstep
  generalize hx : (o, s) = x at hrun
  obtain ⟨rfl, rfl⟩ : x.1 = o ∧ x.2 = s := by
    rw [← hx]
    exact ⟨rfl, rfl⟩
  clear h hx hI
  induction hrun using Relation.ReflTransGen.head_induction_on with
  | refl =>
    intro u hu
    exact ⟨[], u, .done (hnone _ u hIend hend hu), hu, [], by simp, rfl⟩
  | @head x y hfirst _ ih =>
    intro u hu
    obtain ⟨k, m, v, c, hbite, hquantity, hv, hlistener, hc⟩ := hsome x y u hfirst.1 hfirst.2 hu
    obtain ⟨l, u', hmeal, hu', callbacks, hlistener', hcallbacks⟩ := ih v hv
    rw [hquantity] at hmeal
    refine ⟨(k, m) :: l, u', .bite hbite hmeal, hu', c :: callbacks, ?_, ?_⟩
    · rw [hlistener', hlistener, List.append_assoc]
      rfl
    · rw [List.filterMap_cons, hc, hcallbacks]

/-- The lit walk is a meal. -/
theorem matchLit_feeds {o o' : Order} {s s' : MatchingEngine} (hq : s.Queued)
    (h : matchLit o.side o s = .ok (o', s')) : Feeds (litBites o.side o.price) o o' s s' := by
  refine feeds_of_loop h (I := fun x => x.2.Queued ∧ x.1.price = o.price) ⟨hq, rfl⟩ ?_ ?_ ?_
  · rintro ⟨a, s⟩ ⟨b, t⟩ ⟨hs, hprice⟩ hbody
    obtain ⟨_, _, _, _, m, -, -, -, -, -, rfl, -⟩ := matchLitBody_some hbody
    exact ⟨hs.matchLitBody hbody, hprice⟩
  · rintro ⟨a, s⟩ u ⟨hs, hprice⟩ hbody hu
    rw [Option.eq_none_iff_forall_ne_some]
    rintro ⟨k, m, t⟩ hbite
    obtain ⟨price, r, behind, levels, hentries, -, hm, hmin, hpos, -, -⟩ := litBite_eq_some.mp hbite
    rw [← hu.book] at hentries
    rcases matchLitBody_none hbody with hdone | hbeyond
    · simp only at hmin
      omega
    · have hfar := hbeyond (price, r :: behind) (by rw [hentries]; rfl)
      rw [hprice, hm] at hfar
      exact absurd hfar (by decide)
  · rintro ⟨a, s⟩ ⟨b, t⟩ u ⟨hs, hprice⟩ hbody hu
    obtain ⟨price, r, behind, levels, m, hentries, hm, hmin, hpos, -, rfl, rfl⟩ :=
      matchLitBody_some hbody
    have hlevel := hs.level o.side.opposite (price, r :: behind)
      (by rw [hentries]; exact List.mem_cons_self)
    have hvisible := (hlevel.2 r List.mem_cons_self).valid.visible_le
    rw [hu.book] at hentries
    rw [hprice] at hm
    refine ⟨(r.orderID, price), m, _,
      .onFill a.orderID r.orderID (toLong (s.tradeIDCounter + 1)) price m (a.filled m).quantity,
      litBite_eq_some.mpr ⟨price, r, behind, levels, hentries, hvisible, hm, hmin, hpos, rfl, rfl⟩,
      rfl, (hu.trans (sameBooks_recordFill s _ _ _ _)).settleLit _ _ _, ?_, rfl⟩
    rw [executionListener_settleLit, executionListener_recordFill]
    rfl

/-- The walk over a pool is a meal. -/
theorem matchPegPool_feeds {mid : ℤ} {o o' : Order} {s s' : MatchingEngine}
    (h : matchPegPool o mid s = .ok (o', s')) : Feeds (poolBites o.side mid) o o' s s' := by
  refine feeds_of_loop h (I := fun x => x.1.side = o.side) rfl ?_ ?_ ?_
  · rintro ⟨a, s⟩ ⟨b, t⟩ hside hbody
    obtain ⟨_, _, m, -, -, -, rfl, -⟩ := matchPegPoolBody_some hbody
    exact hside
  · rintro ⟨a, s⟩ u hside hbody hu
    rw [Option.eq_none_iff_forall_ne_some]
    rintro ⟨k, m, t⟩ hbite
    obtain ⟨r, behind, hpool, hmin, hpos, -, -⟩ := poolBite_eq_some.mp hbite
    rcases matchPegPoolBody_none hbody with hdone | hempty
    · simp only at hmin
      omega
    · rw [hside, hu.pool, hpool] at hempty
      exact absurd hempty nofun
  · rintro ⟨a, s⟩ ⟨b, t⟩ u hside hbody hu
    simp only at hside
    obtain ⟨r, behind, m, hpool, hmin, hpos, rfl, rfl⟩ := matchPegPoolBody_some hbody
    rw [hu.pool, hside] at hpool
    refine ⟨(r.orderID, mid), m, _,
      .onFill a.orderID r.orderID (toLong (s.tradeIDCounter + 1)) mid m (a.filled m).quantity,
      poolBite_eq_some.mpr ⟨r, behind, hpool, hmin, hpos, rfl, rfl⟩, rfl, ?_, ?_, rfl⟩
    · rw [hside]
      exact (hu.trans (sameBooks_recordFill s _ _ _ _)).settleHead _ _ _
    · rw [executionListener_settleHead, executionListener_recordFill]
      rfl

/-! ## An immediate-or-cancel order -/

/-- Whether an order reaches the midpoint can be decided. -/
instance (s : MatchingEngine) (o : Order) : Decidable (s.ReachesMid o) := by
  unfold ReachesMid
  infer_instance

/-- The bites of the peg step of an order. -/
def midBites (s : MatchingEngine) (o : Order) : Bites (ℤ × ℤ) MatchingEngine :=
  if s.ReachesMid o then poolBites o.side s.mid else .idle _ _

/-- The bites of an order after its peg step. -/
def restBites (o : Order) : Bites (ℤ × ℤ) MatchingEngine :=
  match o.ordType with
  | .limit => litBites o.side o.price
  | .pegMid => .idle _ _

/-- Nothing happens where there are no bites. -/
theorem feeds_idle (o : Order) (s : MatchingEngine) : Feeds (.idle _ _) o o s s :=
  fun u hu => ⟨[], u, .done rfl, hu, [], by simp, rfl⟩

/-- The peg step has the meal of its bites. -/
theorem pegStep_feeds {o o' : Order} {s s' : MatchingEngine} (h : pegStep o s = .ok (o', s')) :
    Feeds (s.midBites o) o o' s s' := by
  unfold midBites
  split_ifs with hmid
  · rw [pegStep_of_reaches hmid] at h
    exact matchPegPool_feeds h
  · rw [pegStep_of_not_reaches hmid] at h
    obtain ⟨rfl, rfl⟩ := Prod.mk.inj (Except.ok.inj h)
    exact feeds_idle o s

/-- An immediate-or-cancel order has two meals, one from the pool and one from the lit book, reports
their bites, and what is left of its need expires. -/
def Sent (s : MatchingEngine) (o : Order) (t : MatchingEngine) : Prop :=
  ∀ u, SameBooks u s → ∃ l r v l' e w, Meal (s.midBites o) o.quantity u l r v ∧
    Meal (restBites o) r v l' e w ∧
    SameBooks w t ∧ executionsSince t s = l ++ l' ∧ expiredSince t s = e

/-- The end of the order reports no execution. -/
theorem executionsSince_dispose {s u : MatchingEngine} {callbacks : List Callback}
    (h : u.executionListener = s.executionListener ++ callbacks) (o : Order) :
    executionsSince (u.dispose o) s = callbacks.filterMap execution := by
  rw [executionsSince, callbacksSince, listener_dispose, h, List.append_assoc, List.drop_left,
    List.filterMap_append]
  split_ifs
  · exact List.append_nil _
  · exact List.append_nil _

/-- Where the engine is settled, an immediate-or-cancel order has its two meals and no pool cross
follows. -/
theorem addOrder_sent {s t : MatchingEngine} (hq : s.Queued) (hs : s.Settled) {o : Order}
    (htif : o.tif = .ioc) (hadd : s.addOrder o = .ok t) : Sent s o t := by
  have hpass : o.tif = .fok → s.canFillCompletely o = true := fun hfok =>
    absurd (htif.symm.trans hfok) (by decide)
  obtain ⟨o₁, s₁, hpeg⟩ := hq.pegStep_total o
  have hq₁ := hq.pegStep hpeg
  have hfrom₁ := pegStep_filledFrom hpeg
  intro u hu
  obtain ⟨l, v, hmeal, hv, callbacks, hlistener, rfl⟩ := pegStep_feeds hpeg u hu
  cases htype : o.ordType with
  | pegMid =>
    have hend : t = s₁.dispose o₁ :=
      (addOrder_peg_end hadd htype hpass hpeg).trans (if_neg (by simp [hfrom₁.tif, htif]))
    rw [restBites, htype, hend]
    exact ⟨_, _, v, [], _, v, hmeal, .done rfl, hv.trans (s₁.dispose_same o₁).1,
      (executionsSince_dispose hlistener o₁).trans (List.append_nil _).symm,
      expiredSince_dispose (pegStep_tradable htype hpeg).2 o₁⟩
  | limit =>
    obtain ⟨o₂, s₂, hlit⟩ := hq₁.matchLit_total o.side o₁
    have hfrom₂ := matchLit_filledFrom hlit
    have hend : t = s₂.dispose o₂ := by
      have hcross := addOrder_limit_end hadd htype hpass hpeg hlit
      rw [show s₂.disposeLit o₂ = s₂.dispose o₂ from if_neg
        (by simp [hfrom₂.tif, hfrom₁.tif, htif]), crossPegPools_of_done hq hs hpeg hlit] at hcross
      exact (Except.ok.inj hcross).symm
    obtain ⟨l', w, hmeal', hw, callbacks', hlistener', rfl⟩ :=
      matchLit_feeds hq₁ (by rw [hfrom₁.side]; exact hlit) v hv
    rw [hfrom₁.side, hfrom₁.price] at hmeal'
    rw [restBites, htype, hend]
    have hboth : s₂.executionListener = s.executionListener ++ (callbacks ++ callbacks') := by
      rw [hlistener', hlistener, List.append_assoc]
    refine ⟨_, _, v, _, _, w, hmeal, hmeal', hw.trans (s₂.dispose_same o₂).1, ?_,
      expiredSince_dispose (matchLit_tradable htype hpeg hlit).2 o₂⟩
    rw [executionsSince_dispose hboth, List.filterMap_append]

/-! ## Two orders and one -/

/-- Two orders in a row have a meal each from a pool and then from the book. They come to what one
order comes to that has the needs of both, where the second order takes from the pool what the one
would take, or the first one has come to the book and the second finds nothing in the pool. -/
theorem meals_split {B B' C : Bites (ℤ × ℤ) MatchingEngine} {n₁ n₂ r₁ r₂ r e₁ e₂ e : ℕ}
    {s u₁ w₁ x y u z : MatchingEngine} {l₁ l₂ l m₁ m₂ m : List ((ℤ × ℤ) × ℕ)}
    (hpool₁ : Meal B n₁ s l₁ r₁ u₁) (hlit₁ : Meal C r₁ u₁ m₁ e₁ w₁) (hpool₂ : Meal B' n₂ w₁ l₂ r₂ x)
    (hlit₂ : Meal C r₂ x m₂ e₂ y) (hpool : Meal B (n₁ + n₂) s l r u) (hlit : Meal C r u m e z)
    (hsame : r₁ = 0 → B' = B) (hnone : 0 < r₁ → ∀ n, B'.bite n w₁ = none) :
    z = y ∧ e = e₁ + e₂ ∧ merged (l ++ m) = merged (l₁ ++ m₁ ++ (l₂ ++ m₂)) := by
  rcases Nat.eq_zero_or_pos r₁ with rfl | hpos
  · -- The first order ends in the pool, and the second goes on there.
    obtain ⟨rfl, rfl, rfl⟩ := hlit₁.zero
    rw [hsame rfl] at hpool₂
    obtain ⟨rfl, rfl, hmerged⟩ := hpool₁.add hpool₂ hpool
    rw [Nat.zero_add] at hlit
    obtain ⟨rfl, rfl, rfl⟩ := hlit₂.unique hlit
    refine ⟨rfl, (Nat.zero_add _).symm, ?_⟩
    rw [List.append_nil, ← List.append_assoc]
    exact merged_append hmerged rfl
  · -- The pool has nothing for either order behind the first one's meal.
    obtain ⟨rfl, rfl, rfl⟩ := hpool₂.of_none (hnone hpos _)
    obtain ⟨rfl, rfl, hmerged⟩ := hpool₁.add (.done (hpool₁.stuck hpos _)) hpool
    obtain ⟨rfl, rfl, hmerged'⟩ := hlit₁.add hlit₂ hlit
    refine ⟨rfl, rfl, ?_⟩
    rw [List.append_nil] at hmerged
    rw [List.nil_append, List.append_assoc]
    exact merged_append hmerged hmerged'

/-- The meal from the pool leaves the lit book alone. -/
theorem meal_midBites_book {s u v : MatchingEngine} {o : Order} {n r : ℕ} {l : List ((ℤ × ℤ) × ℕ)}
    (h : Meal (s.midBites o) n u l r v) (x : Side) : v.book x = u.book x := by
  refine h.inv (P := fun t => t.book x = u.book x) rfl ?_
  intro n t k m t' ht hbite
  unfold midBites at hbite
  split_ifs at hbite
  · obtain ⟨r, behind, -, -, -, -, rfl⟩ := poolBite_eq_some.mp hbite
    rw [book_settleHead, ht]
  · exact absurd hbite nofun

/-- The meal after the peg step leaves the pools alone. -/
theorem meal_restBites_pool {u v : MatchingEngine} {o : Order} {n r : ℕ} {l : List ((ℤ × ℤ) × ℕ)}
    (h : Meal (restBites o) n u l r v) (x : Side) : v.pool x = u.pool x := by
  refine h.inv (P := fun t => t.pool x = u.pool x) rfl ?_
  intro n t k m t' ht hbite
  unfold restBites at hbite
  cases htype : o.ordType with
  | limit =>
    rw [htype] at hbite
    obtain ⟨price, r, behind, levels, -, -, -, -, -, -, rfl⟩ := litBite_eq_some.mp hbite
    rw [pool_settleLit, ht]
  | pegMid =>
    rw [htype] at hbite
    exact absurd hbite nofun

/-- A pool loses what an order takes from it. -/
theorem meal_poolBites_quantity {side : Side} {mid : ℤ} {u v : MatchingEngine} {n r : ℕ}
    {l : List ((ℤ × ℤ) × ℕ)} (h : Meal (poolBites side mid) n u l r v) :
    quantityOf (v.pool side.opposite) + n = quantityOf (u.pool side.opposite) + r := by
  induction h with
  | done => rfl
  | @bite n n' m _ _ _ _ _ hbite _ ih =>
    obtain ⟨r, behind, hpool, hm, -, -, rfl⟩ := poolBite_eq_some.mp hbite
    have hhead := quantityOf_pegQueue (r := r) behind (show m ≤ r.quantity by omega)
    rw [pool_settleHead] at ih
    rw [hpool]
    omega

/-- Whether a pool has something to give goes by the pool alone. -/
theorem poolBite_none {side : Side} {mid mid' : ℤ} {u v : MatchingEngine} {n : ℕ}
    (hpool : v.pool side.opposite = u.pool side.opposite) (h : poolBite side mid n u = none) :
    poolBite side mid' n v = none := by
  rw [Option.eq_none_iff_forall_ne_some]
  rintro ⟨k, m, t⟩ hbite
  obtain ⟨r, behind, hhead, hm, hpos, -, -⟩ := poolBite_eq_some.mp hbite
  rw [hpool] at hhead
  rw [poolBite_eq_some.mpr ⟨r, behind, hhead, hm, hpos, rfl, rfl⟩] at h
  exact absurd h nofun

/-! ## The midpoint that the first order leaves -/

/-- The best of some levels that a quantity taken from those within a limit leaves. -/
def nextTop (side : Side) (limit : ℤ) : ℕ → List (ℤ × List RestingOrder) → Option ℤ
  | _, [] => none
  | n, (price, queue) :: levels =>
    if marketable side limit price ∧ quantityOf queue ≤ n then
      nextTop side limit (n - quantityOf queue) levels
    else some price

/-- The venue midpoint of two tops, as the engine computes it. -/
def midOf (bestBid bestAsk : ℤ) : ℤ :=
  if bestBid = Prices.na ∨ bestAsk = Prices.na then Prices.na
    else (toLong (bestBid + bestAsk)).tdiv 2

/-- The midpoint between the best price of an order's own side and the best opposite one that a
quantity taken within the limit of the order leaves. -/
def midAfter (s : MatchingEngine) (o : Order) (n : ℕ) : ℤ :=
  match o.side with
  | .buy => midOf s.getBestBid ((nextTop .buy o.price n s.asks.entries).getD Prices.na)
  | .sell => midOf ((nextTop .sell o.price n s.bids.entries).getD Prices.na) s.getBestAsk

/-- An iteration of the lit walk takes from the order what it takes from the best level. -/
theorem nextTop_matchLitBody {side : Side} {o o' : Order} {s s' : MatchingEngine}
    (h : matchLitBody side (o, s) = .ok (some (o', s'))) :
    nextTop side o'.price o'.quantity (s'.book side.opposite).entries =
      nextTop side o.price o.quantity (s.book side.opposite).entries := by
  obtain ⟨price, r, behind, levels, m, hentries, hm, hmin, hpos, hle, rfl, rfl⟩ :=
    matchLitBody_some h
  have hqueue := quantityOf_litQueue behind hle
  rw [entries_settleLit _ _ _ _ (by simpa using hentries), hentries]
  simp only [nextTop, hm, true_and, Order.filled_price, Order.filled_quantity]
  by_cases hempty : litQueue (r.filled m) behind = []
  · rw [hempty, quantityOf_nil] at hqueue
    rw [if_pos hempty, if_pos (by omega), ← hqueue, Nat.zero_add]
  · rw [if_neg hempty]
    simp only [nextTop, hm, true_and]
    by_cases hcovers : quantityOf (r :: behind) ≤ o.quantity
    · rw [if_pos (by omega), if_pos hcovers]
      congr 1
      omega
    · rw [if_neg (by omega), if_neg hcovers]

/-- The lit walk leaves the level that is next as the best one. -/
theorem nextTop_matchLit {o o' : Order} {s s' : MatchingEngine} (hq : s.Queued)
    (h : matchLit o.side o s = .ok (o', s')) :
    nextTop o.side o.price o.quantity (s.book o.side.opposite).entries =
      (s'.book o.side.opposite).firstKey := by
  obtain ⟨hnext, hend⟩ := whileLoop_inv h
    (fun x => nextTop o.side x.1.price x.1.quantity (x.2.book o.side.opposite).entries =
      nextTop o.side o.price o.quantity (s.book o.side.opposite).entries) rfl
    (by
      rintro ⟨a, u⟩ ⟨b, v⟩ hu hbody
      exact (nextTop_matchLitBody hbody).trans hu)
  have hq' := hq.matchLit h
  simp only at hnext
  rw [← hnext, SortedMap.firstKey]
  rcases hentries : (s'.book o.side.opposite).entries with - | ⟨⟨price, queue⟩, levels⟩
  · rfl
  rw [nextTop, if_neg]
  · rfl
  rintro ⟨hm, hle⟩
  rcases matchLitBody_none hend with hdone | hbeyond
  · -- No queue of a level is without quantity.
    have hlevel := hq'.level o.side.opposite (price, queue)
      (by rw [hentries]; exact List.mem_cons_self)
    obtain ⟨r, behind, rfl⟩ := List.exists_cons_of_ne_nil hlevel.1
    have hpos := (hlevel.2 r List.mem_cons_self).quantity_pos
    simp only [quantityOf_cons] at hle
    omega
  · have hfar := hbeyond (price, queue) (by rw [hentries]; rfl)
    rw [hm] at hfar
    exact absurd hfar (by decide)

/-- An immediate-or-cancel limit order that does not trade at the midpoint leaves the pools alone,
and the midpoint with the level that is next. -/
theorem addOrder_mid {s t : MatchingEngine} (h : s.Reachable) {o : Order}
    (htype : o.ordType = .limit) (htif : o.tif = .ioc) (hnot : ¬ s.ReachesMid o)
    (hadd : s.addOrder o = .ok t) :
    (∀ x, t.pool x = s.pool x) ∧ t.mid = s.midAfter o o.quantity := by
  have hq := h.queued
  have hpeg := pegStep_of_not_reaches hnot
  obtain ⟨o₂, s₂, hlit⟩ := hq.matchLit_total o.side o
  have hcross := addOrder_limit_end hadd htype
    (fun hfok => absurd (htif.symm.trans hfok) (by decide)) hpeg hlit
  rw [show s₂.disposeLit o₂ = s₂.dispose o₂ from if_neg
    (by simp [(matchLit_filledFrom hlit).tif, htif]),
    crossPegPools_of_done hq h.settled hpeg hlit] at hcross
  obtain rfl := Except.ok.inj hcross
  obtain ⟨hown, hpool, -⟩ := keys_matchLit hlit
  have hnext := nextTop_matchLit hq hlit
  refine ⟨fun x => (pool_dispose s₂ o₂ x).trans (hpool x), ?_⟩
  rw [mid_congr (book_dispose s₂ o₂)]
  show midOf s₂.getBestBid s₂.getBestAsk = _
  unfold midAfter
  cases hside : o.side with
  | buy =>
    rw [hside] at hnext hown
    have hbids : s₂.bids = s.bids := hown
    have hasks : nextTop .buy o.price o.quantity s.asks.entries = s₂.asks.firstKey := hnext
    simp only [hasks]
    unfold getBestBid getBestAsk
    rw [hbids]
  | sell =>
    rw [hside] at hnext hown
    have hasks : s₂.asks = s.asks := hown
    have hbids : nextTop .sell o.price o.quantity s.bids.entries = s₂.bids.firstKey := hnext
    simp only [hbids]
    unfold getBestBid getBestAsk
    rw [hasks]

/-! ## When splitting is neutral -/

/-- Two immediate-or-cancel orders that have the quantity of a third one together, and else are like
it. Their ids, participants and time stamps are their own. -/
structure Parts (o o₁ o₂ : Order) : Prop where
  tif : o.tif = .ioc ∧ o₁.tif = .ioc ∧ o₂.tif = .ioc
  side : o₁.side = o.side ∧ o₂.side = o.side
  price : o₁.price = o.price ∧ o₂.price = o.price
  ordType : o₁.ordType = o.ordType ∧ o₂.ordType = o.ordType
  quantity : o.quantity = o₁.quantity + o₂.quantity

/-- The two parts of an order, one after the other, leave what the order leaves, execute the same
once adjacent executions against one passive order are merged, and let the same quantity expire. -/
def SplitNeutral (s : MatchingEngine) (o o₁ o₂ : Order) : Prop :=
  ∃ t t₁ t₂, s.addOrder o = .ok t ∧ s.addOrder o₁ = .ok t₁ ∧ t₁.addOrder o₂ = .ok t₂ ∧
    SameBooks t t₂ ∧
    merged (executionsSince t s) = merged (executionsSince t₁ s ++ executionsSince t₂ t₁) ∧
    expiredSince t s = expiredSince t₁ s + expiredSince t₂ t₁

/-- A limit order does not trade at the midpoint, has pegs opposite to it, and would trade at the
midpoint once a quantity has been taken within its limit. -/
def NewlyReaches (s : MatchingEngine) (o : Order) (n : ℕ) : Prop :=
  o.ordType = .limit ∧ ¬ s.ReachesMid o ∧ s.pool o.side.opposite ≠ [] ∧ s.midAfter o n ≠ Prices.na ∧
    crossesMid o.side o.price (s.midAfter o n)

/-- Whether an order reaches the midpoint depends on its side, limit and type. -/
theorem reachesMid_congr {s t : MatchingEngine} {o a : Order} (hmid : t.mid = s.mid)
    (hside : a.side = o.side) (hprice : a.price = o.price) (htype : a.ordType = o.ordType) :
    t.ReachesMid a ↔ s.ReachesMid o := by
  unfold ReachesMid
  rw [hmid, hside, hprice, htype]

/-- The bites of a peg step depend on the midpoint and on the side, limit and type of the order. -/
theorem midBites_congr {s t : MatchingEngine} {o a : Order} (hmid : t.mid = s.mid)
    (hside : a.side = o.side) (hprice : a.price = o.price) (htype : a.ordType = o.ordType) :
    t.midBites a = s.midBites o := by
  unfold midBites
  rw [hside, hmid]
  exact if_congr (reachesMid_congr hmid hside hprice htype) rfl rfl

/-- The bites after a peg step depend on the side, limit and type of the order. -/
theorem restBites_congr {o a : Order} (hside : a.side = o.side) (hprice : a.price = o.price)
    (htype : a.ordType = o.ordType) : restBites a = restBites o := by
  unfold restBites
  rw [hside, hprice, htype]

/-- An order that reaches the midpoint bites from the opposite pool first. -/
theorem midBites_of_reaches {s : MatchingEngine} {o : Order} (h : s.ReachesMid o) :
    s.midBites o = poolBites o.side s.mid := if_pos h

/-- An order that does not reach the midpoint bites nothing from a pool. -/
theorem midBites_of_not_reaches {s : MatchingEngine} {o : Order} (h : ¬ s.ReachesMid o) :
    s.midBites o = .idle _ _ :=
  if_neg h

/-- The peg step of an order finds nothing in an empty pool. -/
theorem midBites_of_empty {s u : MatchingEngine} {o : Order}
    (h : u.pool o.side.opposite = []) (n : ℕ) :
    (s.midBites o).bite n u = none := by
  unfold midBites
  split_ifs
  · show poolBite o.side s.mid n u = none
    unfold poolBite
    rw [h]
  · rfl

/-- An immediate-or-cancel order that reaches the pool takes something from it, which no other meal
gives back. -/
theorem Sent.pool_lt {s t : MatchingEngine} {o : Order} (h : Sent s o t) (hq : s.Queued)
    (hpos : 0 < o.quantity) (hmid : s.ReachesMid o) (hpool : s.pool o.side.opposite ≠ []) :
    quantityOf (t.pool o.side.opposite) < quantityOf (s.pool o.side.opposite) := by
  obtain ⟨l, r, v, l', e, w, hmeal, hrest, hw, -, -⟩ := h s (.refl s)
  rw [midBites_of_reaches hmid] at hmeal
  rw [hw.pool, meal_restBites_pool hrest]
  have htotal := meal_poolBites_quantity hmeal
  obtain ⟨x, behind, hhead⟩ := List.exists_cons_of_ne_nil hpool
  have hx := (hq.pool o.side.opposite x (by rw [hhead]; exact List.mem_cons_self)).quantity_pos
  have hbite : poolBite o.side s.mid o.quantity s =
      some ((x.orderID, s.mid), min o.quantity x.quantity,
      s.settleHead o.side.opposite (x.filled (min o.quantity x.quantity)) behind) :=
    poolBite_eq_some.mpr ⟨x, behind, hhead, rfl, by omega, rfl, rfl⟩
  have hless : r < o.quantity := by
    cases hmeal with
    | done hnone =>
      rw [show (poolBites o.side s.mid).bite o.quantity s = _ from hbite] at hnone
      exact absurd hnone nofun
    | bite hbite' hrest' =>
      have hlength := hrest'.length_units
      have hgives := (poolBites o.side s.mid).bite_pos hbite'
      omega
  omega

/-- After the first part of an order that does not reach the midpoint, the second one does not reach
it either, unless it does so newly. -/
theorem not_reachesMid_after {s t : MatchingEngine} (h : s.Reachable) {o o₁ : Order}
    (hside : o₁.side = o.side) (hprice : o₁.price = o.price) (hordType : o₁.ordType = o.ordType)
    (htif : o₁.tif = .ioc) (hadd : s.addOrder o₁ = .ok t) (hmid : ¬ s.ReachesMid o)
    (hpool : s.pool o.side.opposite ≠ []) (hnot : ¬ s.NewlyReaches o o₁.quantity) :
    ¬ t.ReachesMid o₁ := by
  have hmid₁ : ¬ s.ReachesMid o₁ := by rwa [reachesMid_congr rfl hside hprice hordType]
  cases htype : o.ordType with
  | limit =>
    obtain ⟨-, hafter⟩ := addOrder_mid h (hordType.trans htype) htif hmid₁ hadd
    have hafter' : t.mid = s.midAfter o o₁.quantity := by
      rw [hafter]
      unfold midAfter
      rw [hside, hprice]
    rintro ⟨hna, hpeg | hcross⟩
    · rw [hordType, htype] at hpeg
      exact absurd hpeg nofun
    · rw [hafter', hside, hprice] at hcross
      exact hnot ⟨htype, hmid, hpool, hafter' ▸ hna, hcross⟩
  | pegMid =>
    -- A peg that finds no midpoint does nothing, and the midpoint stays away.
    obtain ⟨l, left, u, l', e, w, hfirst, hrest, hw, -, -⟩ :=
      addOrder_sent h.queued h.settled htif hadd s (.refl s)
    rw [midBites_of_not_reaches hmid₁] at hfirst
    rw [restBites, hordType, htype] at hrest
    obtain ⟨-, rfl, rfl⟩ := hfirst.of_none rfl
    obtain ⟨-, -, rfl⟩ := hrest.of_none rfl
    rwa [reachesMid_congr (mid_congr hw.book) rfl rfl rfl]

/-- Splitting is neutral where the parts do not reach a midpoint that the order does not reach. -/
theorem splitNeutral_of_not {s : MatchingEngine} (h : s.Reachable) {o o₁ o₂ : Order}
    (ho : o.Constructed) (ho₁ : o₁.Constructed) (ho₂ : o₂.Constructed) (hparts : Parts o o₁ o₂)
    (hnot : ¬ s.NewlyReaches o o₁.quantity) :
    SplitNeutral s o o₁ o₂ := by
  obtain ⟨⟨htif, htif₁, htif₂⟩, ⟨hside₁, hside₂⟩, ⟨hprice₁, hprice₂⟩, ⟨htype₁, htype₂⟩,
    hquantity⟩ := hparts
  obtain ⟨t, hadd⟩ := h.addOrder_total ho
  obtain ⟨t₁, hadd₁⟩ := h.addOrder_total ho₁
  have hr₁ := h.addOrder ho₁ hadd₁
  obtain ⟨t₂, hadd₂⟩ := hr₁.addOrder_total ho₂
  obtain ⟨l₁, r₁, u₁, m₁, e₁, w₁, hpool₁, hlit₁, hw₁, hexec₁, hexp₁⟩ :=
    addOrder_sent h.queued h.settled htif₁ hadd₁ s (.refl s)
  obtain ⟨l₂, r₂, x, m₂, e₂, y, hpool₂, hlit₂, hy, hexec₂, hexp₂⟩ :=
    addOrder_sent hr₁.queued hr₁.settled htif₂ hadd₂ w₁ hw₁
  obtain ⟨l, r, u, m, e, z, hpool, hlit, hz, hexec, hexp⟩ :=
    addOrder_sent h.queued h.settled htif hadd s (.refl s)
  rw [midBites_congr rfl hside₁ hprice₁ htype₁] at hpool₁
  rw [restBites_congr hside₁ hprice₁ htype₁] at hlit₁
  rw [restBites_congr hside₂ hprice₂ htype₂] at hlit₂
  rw [hquantity] at hpool
  have hsame : r₁ = 0 → t₁.midBites o₂ = s.midBites o := by
    rintro rfl
    obtain ⟨-, -, rfl⟩ := hlit₁.zero
    have hbook : ∀ side, t₁.book side = s.book side := fun side =>
      (hw₁.book side).trans (meal_midBites_book hpool₁ side)
    exact midBites_congr (mid_congr hbook) hside₂ hprice₂ htype₂
  have hnone : 0 < r₁ → ∀ n, (t₁.midBites o₂).bite n w₁ = none := by
    intro hpos n
    have hw₁pool : w₁.pool o.side.opposite = u₁.pool o.side.opposite := meal_restBites_pool hlit₁ _
    by_cases hmid : s.ReachesMid o
    · -- The first part has come to the book because the pool has nothing left.
      rw [midBites_of_reaches hmid] at hpool₁
      by_cases hmid₂ : t₁.ReachesMid o₂
      · rw [midBites_of_reaches hmid₂, hside₂]
        exact poolBite_none hw₁pool (hpool₁.stuck hpos n)
      · rw [midBites_of_not_reaches hmid₂]
        rfl
    · rw [midBites_of_not_reaches hmid] at hpool₁
      obtain ⟨-, rfl, rfl⟩ := hpool₁.of_none rfl
      by_cases hempty : u₁.pool o.side.opposite = []
      · exact midBites_of_empty (by rw [hside₂, hw₁pool, hempty]) n
      have hmid₁ := not_reachesMid_after h hside₁ hprice₁ htype₁ htif₁ hadd₁ hmid hempty hnot
      have hmid₂ : ¬ t₁.ReachesMid o₂ := by
        rwa [reachesMid_congr (o := o₁) rfl (hside₂.trans hside₁.symm) (hprice₂.trans hprice₁.symm)
          (htype₂.trans htype₁.symm)]
      rw [midBites_of_not_reaches hmid₂]
      rfl
  obtain ⟨rfl, rfl, hmerged⟩ := meals_split hpool₁ hlit₁ hpool₂ hlit₂ hpool hlit hsame hnone
  refine ⟨t, t₁, t₂, hadd, hadd₁, hadd₂, hz.symm.trans hy, ?_, ?_⟩
  · rw [hexec, hexec₁, hexec₂]
    exact hmerged
  · rw [hexp, hexp₁, hexp₂]

/-- Where the parts reach a midpoint that the order does not reach, the second one takes from a pool
that the order leaves alone. -/
theorem not_splitNeutral {s : MatchingEngine} (h : s.Reachable) {o o₁ o₂ : Order}
    (ho₁ : o₁.Constructed) (ho₂ : o₂.Constructed) (hparts : Parts o o₁ o₂)
    (hnew : s.NewlyReaches o o₁.quantity) :
    ¬ SplitNeutral s o o₁ o₂ := by
  rintro ⟨t, t₁, t₂, hadd, hadd₁, hadd₂, hsame, -, -⟩
  obtain ⟨htype, hmid, hpool, hna, hcross⟩ := hnew
  obtain ⟨⟨htif, htif₁, htif₂⟩, ⟨hside₁, hside₂⟩, ⟨hprice₁, hprice₂⟩, ⟨htype₁, htype₂⟩, -⟩ := hparts
  have hr₁ := h.addOrder ho₁ hadd₁
  have hmid₁ : ¬ s.ReachesMid o₁ := by rwa [reachesMid_congr rfl hside₁ hprice₁ htype₁]
  obtain ⟨hpools, -⟩ := addOrder_mid h htype htif hmid hadd
  obtain ⟨hpools₁, hafter⟩ := addOrder_mid h (htype₁.trans htype) htif₁ hmid₁ hadd₁
  have hreaches : t₁.ReachesMid o₂ := by
    have hafter' : t₁.mid = s.midAfter o o₁.quantity := by
      rw [hafter]
      unfold midAfter
      rw [hside₁, hprice₁]
    refine ⟨hafter' ▸ hna, .inr ?_⟩
    rw [hafter', hside₂, hprice₂]
    exact hcross
  have hless := (addOrder_sent hr₁.queued hr₁.settled htif₂ hadd₂).pool_lt hr₁.queued
    ho₂.valid.2 hreaches
    (by rw [hside₂, hpools₁]; exact hpool)
  rw [hsame.pool, hpools, hpools₁] at hless
  exact Nat.lt_irrefl _ hless

/-- It takes a sum of the two best prices beyond `long` to bring the second part to a midpoint that
the order does not reach: otherwise the midpoint lies between the best prices, and an order that
does not reach it takes nothing. -/
theorem NewlyReaches.not_topsFit {s : MatchingEngine} (h : s.Reachable) {o : Order} {n : ℕ}
    (hnew : s.NewlyReaches o n) : ¬ s.TopsFit := by
  obtain ⟨-, hmid, -, hna, hcross⟩ := hnew
  intro hfit
  have hq := h.queued
  unfold midAfter at hna hcross
  cases hside : o.side with
  | buy =>
    simp only [hside] at hna hcross
    rcases hasks : s.asks.entries with - | ⟨⟨best, queue⟩, levels⟩
    · rw [hasks] at hna
      exact hna (if_pos (.inr rfl))
    have hbids : s.bids.entries ≠ [] := by
      intro hnil
      refine hna (if_pos (.inl ?_))
      rw [getBestBid, SortedMap.firstKey, hnil]
      rfl
    have hasks' : s.asks.entries ≠ [] := by simp [hasks]
    obtain ⟨-, -, -, hlt⟩ := (h.trueMid_iff hbids hasks').mpr (hfit hbids hasks')
    rw [getBestAsk_eq hasks] at hlt
    -- The limit is below the midpoint, hence below the best ask.
    have hbelow : ¬ crossesMid .buy o.price s.mid = true := fun hcrosses =>
      hmid ⟨hq.mid_ne_na .buy hbids hasks', .inr (hside ▸ hcrosses)⟩
    have hfar : ¬ (marketable .buy o.price best = true ∧ quantityOf queue ≤ n) := by
      rintro ⟨hm, -⟩
      simp only [marketable, crossesMid, decide_eq_true_eq] at hm hbelow
      omega
    rw [hasks, nextTop, if_neg hfar, Option.getD_some, ← getBestAsk_eq hasks] at hcross
    exact hbelow hcross
  | sell =>
    simp only [hside] at hna hcross
    rcases hbids : s.bids.entries with - | ⟨⟨best, queue⟩, levels⟩
    · rw [hbids] at hna
      exact hna (if_pos (.inl rfl))
    have hasks : s.asks.entries ≠ [] := by
      intro hnil
      refine hna (if_pos (.inr ?_))
      rw [getBestAsk, SortedMap.firstKey, hnil]
      rfl
    have hbids' : s.bids.entries ≠ [] := by simp [hbids]
    obtain ⟨-, -, hlt, -⟩ := (h.trueMid_iff hbids' hasks).mpr (hfit hbids' hasks)
    rw [getBestBid_eq hbids] at hlt
    have habove : ¬ crossesMid .sell o.price s.mid = true := fun hcrosses =>
      hmid ⟨hq.mid_ne_na .buy hbids' hasks, .inr (hside ▸ hcrosses)⟩
    have hfar : ¬ (marketable .sell o.price best = true ∧ quantityOf queue ≤ n) := by
      rintro ⟨hm, -⟩
      simp only [marketable, crossesMid, decide_eq_true_eq] at hm habove
      omega
    rw [hbids, nextTop, if_neg hfar, Option.getD_some, ← getBestBid_eq hbids] at hcross
    exact habove hcross

/-- Splitting an immediate-or-cancel order is neutral exactly where it does not bring the second
part to a midpoint that the order does not reach. -/
theorem split_neutral_iff {s : MatchingEngine} (h : s.Reachable) {o o₁ o₂ : Order}
    (ho : o.Constructed) (ho₁ : o₁.Constructed) (ho₂ : o₂.Constructed) (hparts : Parts o o₁ o₂) :
    SplitNeutral s o o₁ o₂ ↔ ¬ s.NewlyReaches o o₁.quantity :=
  ⟨fun hneutral hnew => not_splitNeutral h ho₁ ho₂ hparts hnew hneutral,
    splitNeutral_of_not h ho ho₁ ho₂ hparts⟩

/-- A sell of 24 in two parts, with the boundary in a slice of the iceberg of `quotedCalls`. -/
theorem split_neutral_iff_quoted :
    SplitNeutral (after quotedCalls) (.built 5 5 .sell 24 10000 1 .ioc 0 .limit)
    (.built 6 6 .sell 9 10000 1 .ioc 0 .limit) (.built 7 7 .sell 15 10000 1 .ioc 0 .limit) :=
  (split_neutral_iff (reachable_after quotedCalls)
    ⟨5, 5, some .sell, 24, 10000, 1, some .ioc, 0, some .limit, rfl⟩
    ⟨6, 6, some .sell, 9, 10000, 1, some .ioc, 0, some .limit, rfl⟩
    ⟨7, 7, some .sell, 15, 10000, 1, some .ioc, 0, some .limit, rfl⟩
    ⟨⟨rfl, rfl, rfl⟩, ⟨rfl, rfl⟩, ⟨rfl, rfl⟩, ⟨rfl, rfl⟩, rfl⟩).mpr fun hnew => hnew.2.1 (by decide)

/-- Two bid levels and an ask so high that the sum of the best prices is beyond `long`, and a bid
peg. Without the better bid the sum is a `long`. -/
def wrappedCalls : List Call :=
  [.addOrder ⟨.built 1 1 .buy 10 900 1 .gtc 0 .limit, 1, 1, some .buy, 10, 900, 1, some .gtc, 0,
   some .limit, rfl⟩, .addOrder ⟨.built 2 2 .buy 20 800 1 .gtc 0 .limit, 2, 2, some .buy, 20, 800,
   1, some .gtc, 0, some .limit, rfl⟩,
   .addOrder ⟨.built 3 3 .sell 10 9223372036854775000 1 .gtc 0 .limit,
    3, 3, some .sell, 10, 9223372036854775000, 1, some .gtc, 0, some .limit, rfl⟩,
   .addOrder ⟨.built 4 4 .buy 10 Prices.na 1 .gtc 0 .pegMid,
    4, 4, some .buy, 10, Prices.na, 1, some .gtc, 0, some .pegMid, rfl⟩]

/-- A sell of 15 takes both bids, and in two parts of 10 and 5 the better bid and the peg. -/
theorem not_splitNeutral_wrapped :
    ¬ SplitNeutral (after wrappedCalls) (.built 5 5 .sell 15 800 1 .ioc 0 .limit)
    (.built 6 6 .sell 10 800 1 .ioc 0 .limit) (.built 7 7 .sell 5 800 1 .ioc 0 .limit) :=
  not_splitNeutral (reachable_after wrappedCalls)
    ⟨6, 6, some .sell, 10, 800, 1, some .ioc, 0, some .limit, rfl⟩
    ⟨7, 7, some .sell, 5, 800, 1, some .ioc, 0, some .limit, rfl⟩
    ⟨⟨rfl, rfl, rfl⟩, ⟨rfl, rfl⟩, ⟨rfl, rfl⟩, ⟨rfl, rfl⟩, rfl⟩
      ⟨rfl, by decide, by decide, by decide, by decide⟩

end MatchingEngine

end MatchingVenue
