import MatchingVenue.Ledger.Conservation

/-!
# The status of an order

An order that rests is open or partially filled, as its fills have it, and one that has left the
engine is filled, cancelled or expired (`Marked`). The account of the order says which
(`Ticket.status`), so the status tells the truth about how the order ended. There is one exception:
a fill-or-kill order that the probe refuses is reported as expired, but the branch does not mark it,
and it stays open. `statuses_truthful_iff` says that this is the only one.
-/

namespace MatchingVenue

/-- The status that the fills of an order leave it in. -/
def Order.fillStatus (original remaining : ℕ) : Status :=
  if remaining = 0 then .filled else if remaining = original then .open else .partiallyFilled

/-- What is left of an order after some fills, with the status of them. -/
structure Order.LeftOf (b o : Order) : Prop where
  orderID : o.orderID = b.orderID
  quantity : o.quantity ≤ b.quantity
  status : o.status = fillStatus b.quantity o.quantity

/-- The status of an order that has left the engine. -/
def Order.Ended (o : Order) : Prop :=
  if o.quantity = 0 then o.status = .filled else o.status = .cancelled ∨ o.status = .expired

namespace Order

/-- A constructed order is what is left of it. -/
theorem LeftOf.self {o : Order} (h : o.Constructed) : LeftOf o o := by
  have hpos := h.valid.2
  refine ⟨rfl, le_rfl, ?_⟩
  rw [fillStatus, if_neg hpos.ne', if_pos rfl]
  exact h.status

/-- A fill leaves a part of the order, with the status of it. -/
theorem LeftOf.filled {b o : Order} (h : LeftOf b o) {m : ℕ} (hpos : 0 < m) (hle : m ≤ o.quantity) :
    LeftOf b (o.filled m) := by
  have hquantity := h.quantity
  refine ⟨h.orderID, (Nat.sub_le _ _).trans hquantity, ?_⟩
  -- After a fill something of the order is executed, so it is not untouched.
  have hless : o.quantity - m ≠ b.quantity := by omega
  show (if o.quantity - m = 0 then Status.filled else .partiallyFilled) = _
  rw [filled_quantity, fillStatus, if_neg hless]

/-- A reload changes nothing of what is left of an order but its slice. -/
theorem LeftOf.refreshDisplay {b o : Order} (h : LeftOf b o) : LeftOf b o.refreshDisplay :=
  ⟨h.orderID, h.quantity, h.status⟩

/-- An order of which nothing is left has ended. -/
theorem LeftOf.ended {b o : Order} (h : LeftOf b o) (hzero : o.quantity = 0) : o.Ended := by
  rw [Ended, if_pos hzero, h.status, fillStatus, if_pos hzero]

/-- An order that expires has ended. -/
theorem ended_expire {o : Order} (hpos : 0 < o.quantity) : o.expire.Ended := by
  rw [Ended, expire_quantity, if_neg hpos.ne']
  exact .inr rfl

/-- An order that is cancelled has ended. -/
theorem ended_cancel {o : Order} (hpos : 0 < o.quantity) : o.cancel.Ended := by
  rw [Ended, cancel_quantity, if_neg hpos.ne']
  exact .inl rfl

end Order

/-- The status of the order of a ticket. -/
def Ticket.status (t : Ticket) : Status :=
  match t.stage with
  | .working | .resting => Order.fillStatus t.original t.remaining
  | .filled => .filled
  | .cancelled => .cancelled
  | .expired => .expired

/-- An order that is gone with something left and was not cancelled has expired. -/
theorem Ticket.place_gone {t : Ticket} {o : Order} (h : t.place = o.place .gone)
    (hleft : o.quantity ≠ 0) (hcancelled : o.status ≠ .cancelled) : t.stage = .expired := by
  unfold place Order.place at h
  rw [if_neg hleft] at h
  obtain ⟨hlocus, hquantity, hnot⟩ := Place.mk.inj h
  have hfilled : t.stage ≠ .filled := fun hstage =>
    hleft (hquantity.symm.trans (t.outstanding.mpr hstage))
  cases hstage : t.stage <;> simp_all

namespace MatchingEngine

open MatchingVenue.Order (LeftOf Ended)

/-- Every order that is admitted or rests stems from one that was admitted, and those that have left
the engine have ended. -/
structure Marked (orders : List Order) (x : Option Order × MatchingEngine) : Prop where
  /-- The incoming order is what is left of one that was admitted. -/
  incoming : ∀ o, x.1 = some o → ∃ b ∈ orders, LeftOf b o
  /-- So is every resting order. -/
  resting : ∀ r ∈ x.2.resting, ∃ b ∈ orders, LeftOf b r.toOrder
  /-- What has left the engine has ended. -/
  retired : ∀ o ∈ x.2.retired, o.Ended

/-- A fill-or-kill order that the probe refuses. -/
def Kills (s : MatchingEngine) (o : Order) : Prop := o.tif = .fok ∧ s.canFillCompletely o = false

/-- An order that the probe refuses is reported expired and has left the engine, as it came in. -/
theorem addOrder_of_kills {s : MatchingEngine} {o : Order} (h : s.Kills o) :
    s.addOrder o = .ok ((s.onExpired o).retire o) := by
  have hrefused : o.tif = .fok ∧ ¬ s.canFillCompletely o = true := ⟨h.1, by simp [h.2]⟩
  simp only [addOrder]
  rw [if_pos hrefused]
  rfl

/-- The marks against some orders hold against more. -/
theorem Marked.mono {orders orders' : List Order} {x : Option Order × MatchingEngine}
    (h : Marked orders x) (hsub : orders ⊆ orders') : Marked orders' x where
  incoming o ho := (h.incoming o ho).imp fun _ hb => ⟨hsub hb.1, hb.2⟩
  resting r hr := (h.resting r hr).imp fun _ hb => ⟨hsub hb.1, hb.2⟩
  retired := h.retired

/-! ## The steps of an admission -/

section Steps

variable {orders : List Order}

/-- What leaves with a fill is filled. -/
theorem leaving_ended {r : RestingOrder} (h : ∃ b ∈ orders, LeftOf b r.toOrder) :
    ∀ o ∈ leaving r, o.Ended := by
  obtain ⟨b, -, hleftOf⟩ := h
  intro o ho
  unfold leaving at ho
  split_ifs at ho with hzero
  · obtain rfl := List.mem_singleton.mp ho
    exact hleftOf.ended hzero
  · simp at ho

/-- A step keeps the marks, if a remainder that does not rest is marked as expired. -/
theorem Step.marked {x y : Option Order × MatchingEngine} (h : Step x y) (hx : Marked orders x)
    (hexpire : ∀ o, x.1 = some o → y.1 = none → 0 < o.quantity → o.tif ≠ .gtc →
      y.2.retired = x.2.retired ++ [o.expire]) : Marked orders y := by
  obtain ⟨hincoming, hresting, hretired⟩ := hx
  cases h with
  | @hit o s s' r r' others price m hrest hrest' hr' hpos hmo hmr hlogs =>
    obtain ⟨b, hb, hleftOf⟩ := hincoming o rfl
    obtain ⟨c, hc, hleftOfr⟩ := hresting r (hrest.mem_iff.mpr List.mem_cons_self)
    have hfilled : LeftOf c (r.filled m).toOrder := hleftOfr.filled hpos hmr
    refine ⟨?_, ?_, ?_⟩
    · intro a ha
      obtain rfl := Option.some.inj ha
      exact ⟨b, hb, hleftOf.filled hpos hmo⟩
    · intro a ha
      rcases List.mem_append.mp (hrest'.mem_iff.mp ha) with ha | ha
      · obtain ⟨-, rfl⟩ := mem_kept.mp ha
        rcases hr' with rfl | rfl
        · exact ⟨c, hc, hfilled⟩
        · exact ⟨c, hc, hfilled.refreshDisplay⟩
      · exact hresting a (hrest.mem_iff.mpr (List.mem_cons_of_mem _ ha))
    · rw [hlogs.retired]
      exact List.forall_mem_append.mpr ⟨hretired, leaving_ended ⟨c, hc, hfilled⟩⟩
  | @cross s s' bid ask others price m hrest hrest' hpos hmb hma hlogs =>
    obtain ⟨b, hb, hleftOfb⟩ := hresting bid (hrest.mem_iff.mpr List.mem_cons_self)
    obtain ⟨c, hc, hleftOfa⟩ :=
      hresting ask (hrest.mem_iff.mpr (List.mem_cons_of_mem _ List.mem_cons_self))
    have hbid : LeftOf b (bid.filled m).toOrder := hleftOfb.filled hpos hmb
    have hask : LeftOf c (ask.filled m).toOrder := hleftOfa.filled hpos hma
    refine ⟨by simp, ?_, ?_⟩
    · intro a ha
      rcases List.mem_append.mp (hrest'.mem_iff.mp ha) with ha | ha
      · obtain ⟨-, rfl⟩ := mem_kept.mp ha
        exact ⟨b, hb, hbid⟩
      · rcases List.mem_append.mp ha with ha | ha
        · obtain ⟨-, rfl⟩ := mem_kept.mp ha
          exact ⟨c, hc, hask⟩
        · exact hresting a (hrest.mem_iff.mpr (List.mem_cons_of_mem _ (List.mem_cons_of_mem _ ha)))
    · rw [hlogs.retired]
      have hleft := List.forall_mem_append.mpr ⟨leaving_ended ⟨b, hb, hbid⟩,
        leaving_ended ⟨c, hc, hask⟩⟩
      exact List.forall_mem_append.mpr ⟨hretired, hleft⟩
  | @rest o s s' r _ _ hrest _ hr hlogs =>
    obtain ⟨b, hb, hleftOf⟩ := hincoming o rfl
    refine ⟨by simp, ?_, ?_⟩
    · intro a ha
      rcases List.mem_cons.mp (hrest.mem_iff.mp ha) with rfl | ha
      · rcases hr with hr | hr <;> rw [hr]
        · exact ⟨b, hb, hleftOf⟩
        · exact ⟨b, hb, hleftOf.refreshDisplay⟩
      · exact hresting a ha
    · rw [hlogs.retired, List.append_nil]
      exact hretired
  | @expire o left s s' hpos htif hrest _ _ =>
    refine ⟨by simp, hrest ▸ hresting, ?_⟩
    rw [hexpire o rfl rfl hpos htif]
    exact List.forall_mem_append.mpr
      ⟨hretired, List.forall_mem_singleton.mpr (Order.ended_expire hpos)⟩
  | @finish o s s' hzero hrest hlogs =>
    obtain ⟨b, -, hleftOf⟩ := hincoming o rfl
    refine ⟨by simp, hrest ▸ hresting, ?_⟩
    rw [hlogs.retired]
    exact List.forall_mem_append.mpr ⟨hretired, List.forall_mem_singleton.mpr (hleftOf.ended hzero)⟩

/-- The steps of a match keep the marks. -/
theorem Steps.match_marked {o o' : Order} {s s' : MatchingEngine}
    (h : Steps (some o, s) (some o', s')) (hx : Marked orders (some o, s)) :
    Marked orders (some o', s') :=
  h.match_induction (P := fun a u => Marked orders (some a, u)) hx fun _ _ _ _ ha hstep =>
    hstep.marked ha (by simp)

/-- The steps of a pool cross keep the marks. -/
theorem Steps.cross_marked {s t : MatchingEngine} (h : Steps (none, s) (none, t))
    (hx : Marked orders (none, s)) :
    Marked orders (none, t) :=
  h.cross_induction (P := fun u => Marked orders (none, u)) hx fun _ _ hu hstep =>
    hstep.marked hu (by simp)

/-- An order that ends with something left of it expires. -/
theorem retired_dispose {s : MatchingEngine} {o : Order} (hpos : 0 < o.quantity) :
    (s.dispose o).retired = s.retired ++ [o.expire] := by
  rw [dispose, if_pos hpos]
  rfl

/-- The end of a limit order keeps the marks. -/
theorem disposeLit_marked {o : Order} {s : MatchingEngine} (hx : Marked orders (some o, s)) :
    Marked orders (none, s.disposeLit o) := by
  refine (disposeLit_step s o).marked hx fun a ha _ hpos htif => ?_
  obtain rfl := Option.some.inj ha
  show (s.disposeLit o).retired = _
  rw [disposeLit, if_neg fun hrest => htif hrest.2, retired_dispose hpos]

/-- The end of a peg keeps the marks. -/
theorem disposePeg_marked {o : Order} {s : MatchingEngine} (hx : Marked orders (some o, s)) :
    Marked orders (none, s.disposePeg o) := by
  refine (disposePeg_step s o).marked hx fun a ha _ hpos htif => ?_
  obtain rfl := Option.some.inj ha
  show (s.disposePeg o).retired = _
  rw [disposePeg, if_neg fun hrest => htif hrest.2, retired_dispose hpos]

/-- An admission that is not refused as fill-or-kill keeps the marks. -/
theorem addOrder_marked {s t : MatchingEngine} {o : Order} (hq : s.Queued) (hv : o.Valid)
    (hkill : ¬ s.Kills o) (h : s.addOrder o = .ok t) (hx : Marked orders (some o, s)) :
    Marked orders (none, t) := by
  rcases addOrder_cases h with ⟨hfok, hfail, -⟩ | ⟨-, o₁, s₁, hpeg, hrest⟩
  · exact absurd ⟨hfok, hfail⟩ hkill
  have hfrom := pegStep_filledFrom hpeg
  have hq₁ := hq.pegStep hpeg
  have hx₁ := (pegStep_steps hq hpeg).match_marked hx
  rcases hrest with ⟨-, rfl⟩ | ⟨htype, o₂, s₂, hlit, hcross⟩
  · exact disposePeg_marked hx₁
  · have hfrom₂ := hfrom.trans (matchLit_filledFrom hlit)
    have hq₂ := (hq₁.matchLit hlit).disposeLit (hfrom₂.valid hv) (hfrom₂.ordType.trans htype)
    rw [← hfrom.side] at hlit
    have hx₂ := (matchLit_steps hq₁ hlit).match_marked hx₁
    exact (crossPegPools_steps hq₂ hcross).cross_marked (disposeLit_marked hx₂)

/-- A cancel keeps the marks. -/
theorem cancelOrder_marked {s : MatchingEngine} (hr : s.Reachable) (orderID : ℤ)
    (hx : Marked orders (none, s)) :
    Marked orders (none, (s.cancelOrder orderID).1) := by
  rcases cancelOrder_spec hr.queued hr.identified orderID with
    ⟨-, hcancel⟩ | ⟨r, t, -, -, hperm, hcancel, hlogs, -, -⟩
  · rw [hcancel]
    exact hx
  · have hpos := (hr.queued.rests (hperm.mem_iff.mpr List.mem_cons_self)).quantity_pos
    rw [hcancel]
    refine ⟨by simp, fun x hmem => hx.resting x (hperm.mem_iff.mpr (List.mem_cons_of_mem _ hmem)),
      ?_⟩
    rw [hlogs.retired]
    exact List.forall_mem_append.mpr ⟨hx.retired,
      List.forall_mem_singleton.mpr (Order.ended_cancel hpos)⟩

end Steps

/-! ## Runs -/

/-- No order of a run is refused as fill-or-kill. -/
def Unkilled (calls : List Call) : Prop :=
  ∀ pre order, pre ++ [.addOrder order] <+: calls → ¬ (after pre).Kills order.1

/-- Where a run has refused no order as fill-or-kill, the run without its last call has not. -/
theorem Unkilled.init {calls : List Call} {c : Call} (h : Unkilled (calls ++ [c])) :
    Unkilled calls :=
  fun pre order hpre => h pre order (hpre.trans (List.prefix_append _ _))

/-- The marks after a run in which no order is refused as fill-or-kill. -/
theorem marked_after {calls : List Call} (h : Unkilled calls) :
    Marked (added calls) (none, after calls) := by
  induction calls using List.reverseRecOn with
  | nil =>
    have hresting : (after []).resting = [] := rfl
    have hretired : (after []).retired = [] := rfl
    exact ⟨by simp, by simp [hresting], by simp [hretired]⟩
  | append_singleton calls c ih =>
    have hr := reachable_after calls
    have hx := ih h.init
    cases c with
    | addOrder order =>
      refine addOrder_marked hr.queued order.2.valid.1 (h calls order List.prefix_rfl)
        (addOrder_after calls order) ?_
      rw [added_append]
      have hpre :=
        hx.mono (List.subset_append_left (added calls) (Call.added (.addOrder order)).toList)
      refine ⟨?_, hpre.resting, hpre.retired⟩
      intro o ho
      obtain rfl := Option.some.inj ho
      exact ⟨order.1, List.mem_append_right _ List.mem_cons_self, .self order.2⟩
    | cancelOrder orderID =>
      rw [← cancelOrder_after, added_cancelOrder]
      exact cancelOrder_marked hr orderID hx

/-- A cancel of an id has succeeded in a run. -/
def CancelledIn (calls : List Call) (X : ℤ) : Prop :=
  ∃ pre, pre ++ [.cancelOrder X] <+: calls ∧ ((after pre).cancelOrder X).2 = true

/-- The expiry of an id has been reported in a run. -/
def ExpiredIn (calls : List Call) (X : ℤ) : Prop :=
  ∃ n, .onExpired X n ∈ (after calls).executionListener

/-- An order of an id rests after a run. -/
def RestsAfter (calls : List Call) (X : ℤ) : Prop := ∃ r ∈ (after calls).resting, r.orderID = X

/-- The status of an order after a run says what has become of it. -/
structure Truthful (calls : List Call) (X : ℤ) (o : Order) : Prop where
  /-- An order is filled where nothing of it is left. -/
  filled : o.status = .filled ↔ o.quantity = 0
  /-- It is cancelled where a cancel took it out. -/
  cancelled : o.status = .cancelled ↔ CancelledIn calls X
  /-- It is expired where it was reported so. -/
  expired : o.status = .expired ↔ ExpiredIn calls X
  /-- It is partially filled where it rests and has traded. -/
  partiallyFilled : o.status = .partiallyFilled ↔ RestsAfter calls X ∧
    0 < tradedQuantity X (after calls).trades
  /-- It is open where it rests and has not traded. -/
  untouched : o.status = .open ↔ RestsAfter calls X ∧ tradedQuantity X (after calls).trades = 0

section Recorded

variable {calls : List Call} {X : ℤ} {t : Ticket}

/-- An order was cancelled where its account says so. -/
theorem Recorded.cancelledIn_iff (h : Recorded calls X (.admitted t)) :
    CancelledIn calls X ↔ t.stage = .cancelled := by
  constructor
  · rintro ⟨pre, hpre, hdone⟩
    have hr := reachable_after pre
    -- A cancel that succeeds finds the order at rest.
    rcases cancelOrder_spec hr.queued hr.identified X with
      ⟨-, hcancel⟩ | ⟨r, s, -, hid, hperm, -, -, -, -⟩
    · rw [hcancel] at hdone
      simp at hdone
    · have hmem := hperm.mem_iff.mpr List.mem_cons_self
      exact (Account.at_admitted.mp ((h.cancelled _).mp ⟨pre, hpre, hdone, r, hmem, hid, rfl⟩)).1
  · intro hstage
    obtain ⟨pre, hpre, hdone, -⟩ := (h.cancelled t.remaining).mpr ⟨t, rfl, hstage, rfl⟩
    exact ⟨pre, hpre, hdone⟩

/-- An order expired where its account says so. -/
theorem Recorded.expiredIn_iff (h : Recorded calls X (.admitted t)) :
    ExpiredIn calls X ↔ t.stage = .expired := by
  constructor
  · rintro ⟨n, hn⟩
    exact (Account.at_admitted.mp ((h.expired n).mp hn)).1
  · exact fun hstage => ⟨t.remaining, (h.expired _).mpr ⟨t, rfl, hstage, rfl⟩⟩

/-- An order rests where its account says so. -/
theorem Recorded.restsAfter_iff (h : Recorded calls X (.admitted t)) :
    RestsAfter calls X ↔ t.stage = .resting := by
  have hq := (reachable_after calls).queued
  constructor
  · rintro ⟨r, hr, hid⟩
    exact (Account.at_admitted.mp ((h.tracks.at_resting hq r.quantity).mpr ⟨r, hr, hid, rfl⟩)).1
  · intro hstage
    obtain ⟨r, hr, hid, -⟩ := (h.tracks.at_resting hq t.remaining).mp ⟨t, rfl, hstage, rfl⟩
    exact ⟨r, hr, hid⟩

/-- The status of the ticket is truthful. -/
theorem Recorded.truthful (h : Recorded calls X (.admitted t)) {o : Order}
    (hquantity : o.quantity = t.remaining) (hstatus : o.status = t.status) :
    Truthful calls X o := by
  have hexecuted : tradedQuantity X (after calls).trades = t.executed := h.tracks.executed.symm
  have hconserved := t.conserved
  have hzero := t.outstanding
  rw [Ticket.status] at hstatus
  cases hstage : t.stage with
  | working => exact absurd hstage h.tracks.not_working
  | resting =>
    have hleft : t.remaining ≠ 0 := fun hrem => by simp [hzero.mp hrem] at hstage
    simp only [hstage, Order.fillStatus, if_neg hleft] at hstatus
    -- An order that rests is open as long as nothing of it is executed.
    by_cases huntouched : t.remaining = t.original
    · have hnone : t.executed = 0 := by omega
      rw [if_pos huntouched] at hstatus
      constructor <;> simp [hstatus, hquantity, hleft, h.cancelledIn_iff, h.expiredIn_iff,
        h.restsAfter_iff, hstage, hexecuted, hnone]
    · have hsome : t.executed ≠ 0 := by omega
      rw [if_neg huntouched] at hstatus
      constructor <;> simp [hstatus, hquantity, hleft, h.cancelledIn_iff, h.expiredIn_iff,
        h.restsAfter_iff, hstage, hexecuted, hsome, Nat.pos_of_ne_zero hsome]
  | filled | cancelled | expired =>
    simp only [hstage] at hstatus
    constructor <;> simp [hstatus, hquantity, hzero, h.cancelledIn_iff, h.expiredIn_iff,
      h.restsAfter_iff, hstage]

/-- The order of an id that was admitted has the status of its ticket, where the orders are
marked. -/
theorem Recorded.status_eq (h : Recorded calls X (.admitted t))
    (hmarked : Marked (added calls) (none, after calls)) {o : Order}
    (ho : o ∈ (after calls).current X) :
    o.status = t.status := by
  have hq := (reachable_after calls).queued
  rw [current, List.mem_filter, List.mem_append, List.mem_map, decide_eq_true_eq] at ho
  obtain ⟨⟨r, hr, rfl⟩ | hretired, hid⟩ := ho
  · -- The order rests, and stems from the one that was admitted with its id.
    obtain ⟨hstage, hremaining⟩ := Account.at_admitted.mp
      ((h.tracks.at_resting hq r.quantity).mpr ⟨r, hr, hid, rfl⟩)
    obtain ⟨b, hb, hleftOf⟩ := hmarked.resting r hr
    obtain ⟨t', ht', horiginal⟩ := h.admitted b hb (hleftOf.orderID.symm.trans hid)
    obtain rfl := Account.admitted.inj ht'
    rw [hleftOf.status, Ticket.status, hstage, horiginal, hremaining]
  · have hended := hmarked.retired o hretired
    rw [Order.Ended] at hended
    by_cases hzero : o.quantity = 0
    · obtain ⟨n, hn⟩ := (h.tracks.at_filled hq).mpr ⟨o, hretired, hid, hzero⟩
      rw [if_pos hzero] at hended
      rw [hended, Ticket.status, (Account.at_admitted.mp hn).1]
    · rw [if_neg hzero] at hended
      rcases hended with hcancelled | hexpired
      · obtain ⟨n, hn⟩ := h.tracks.at_cancelled.mpr ⟨o, hretired, hid, hcancelled⟩
        rw [hcancelled, Ticket.status, (Account.at_admitted.mp hn).1]
      · obtain ⟨t', ht', hplace⟩ := h.tracks.exists_ticket
          (mem_settled.mpr (.inr ⟨o, hretired, hid, rfl⟩))
        obtain rfl := Account.admitted.inj ht'
        rw [hexpired, Ticket.status, Ticket.place_gone hplace hzero (by simp [hexpired])]

end Recorded

/-- In a run whose orders have distinct ids, the status of every order tells the truth after every
call exactly if no fill-or-kill order is refused by the probe when it is added. -/
theorem statuses_truthful_iff (calls : List Call)
    (hids : ((added calls).map fun o => o.orderID).Nodup) :
    (∀ pre, pre <+: calls → ∀ X ∈ added pre, ∃ o, (after pre).current X.orderID = [o] ∧
      Truthful pre X.orderID o) ↔
    ∀ pre order, pre ++ [.addOrder order] <+: calls → order.1.tif = .fok →
      (after pre).canFillCompletely order.1 = true := by
  have hdistinct : ∀ pre, pre <+: calls → ((added pre).map fun o => o.orderID).Nodup :=
      fun pre hpre =>
    hids.sublist ((hpre.sublist.filterMap _).map _)
  -- Every order that was added has one account, and is the one order of it.
  have hrecorded : ∀ pre, pre <+: calls → ∀ X ∈ added pre, ∃ t o,
      Recorded pre X.orderID (.admitted t) ∧
      (after pre).current X.orderID = [o] ∧ o.quantity = t.remaining := by
    intro pre hpre X hX
    obtain ⟨a, ha⟩ := exists_recorded pre (hdistinct pre hpre) X.orderID
    obtain ⟨t, rfl, -⟩ := ha.admitted X hX rfl
    obtain ⟨o, hcurrent, hquantity⟩ := List.map_eq_singleton_iff.mp ha.tracks.current
    exact ⟨t, o, ha, hcurrent, hquantity⟩
  constructor
  · intro htruthful pre order hpre hfok
    by_contra hfail
    -- The order is reported as expired, and it is open.
    have hadded : order.1 ∈ added (pre ++ [.addOrder order]) := by
      rw [added_append]
      exact List.mem_append_right _ List.mem_cons_self
    obtain ⟨o, hcurrent, htrue⟩ := htruthful _ hpre order.1 hadded
    have hkilled : after (pre ++ [.addOrder order]) =
        ((after pre).onExpired order.1).retire order.1 := by
      have hadd := addOrder_of_kills ⟨hfok, Bool.eq_false_iff.mpr hfail⟩
      exact Except.ok.inj ((addOrder_after pre order).symm.trans hadd)
    have hexpired : ExpiredIn (pre ++ [.addOrder order]) order.1.orderID := by
      refine ⟨order.1.quantity, ?_⟩
      rw [hkilled]
      exact List.mem_append_right _ List.mem_cons_self
    have hmem : order.1 ∈ (after (pre ++ [.addOrder order])).current order.1.orderID := by
      rw [current, hkilled, List.mem_filter, decide_eq_true_eq]
      exact ⟨List.mem_append_right _ (List.mem_append_right _ List.mem_cons_self), rfl⟩
    rw [hcurrent] at hmem
    obtain rfl := List.mem_singleton.mp hmem
    have hstatus := htrue.expired.mpr hexpired
    rw [order.2.status] at hstatus
    simp at hstatus
  · intro hfills pre hpre X hX
    obtain ⟨t, o, ha, hcurrent, hquantity⟩ := hrecorded pre hpre X hX
    have hunkilled : Unkilled pre := by
      rintro pre' order hpre' ⟨hfok, hfail⟩
      rw [hfills pre' order (hpre'.trans hpre) hfok] at hfail
      simp at hfail
    have hmem : o ∈ (after pre).current X.orderID := by
      rw [hcurrent]
      exact List.mem_singleton_self o
    exact ⟨o, hcurrent, ha.truthful hquantity (ha.status_eq (marked_after hunkilled) hmem)⟩

/-- The status of the buy peg of `quotedCalls`, of which a part was filled, is truthful. -/
theorem statuses_truthful_quoted :
    ∃ o, (after quotedCalls).current 3 = [o] ∧ Truthful quotedCalls 3 o := by
  have hno : ∀ o ∈ added quotedCalls, o.tif ≠ .fok := by decide
  refine (statuses_truthful_iff quotedCalls (by decide)).mpr ?_ quotedCalls List.prefix_rfl
    (.built 3 3 .buy 8 Prices.na 1 .gtc 0 .pegMid) (by decide)
  intro pre order hpre hfok
  have hmem : order.1 ∈ added quotedCalls :=
    List.mem_filterMap.mpr ⟨_, hpre.mem (List.mem_append_right _ List.mem_cons_self), rfl⟩
  exact absurd hfok (hno _ hmem)

/-- A fill-or-kill order on an empty book. -/
def killedCalls : List Call :=
  [.addOrder ⟨.built 1 1 .buy 10 10000 1 .fok 0 .limit,
    1, 1, some .buy, 10, 10000, 1, some .fok, 0, some .limit, rfl⟩]

/-- The order is reported as expired, and its status is open. -/
theorem not_truthful_killed : ((added killedCalls).map fun o => o.orderID).Nodup ∧
    .onExpired 1 10 ∈ (after killedCalls).executionListener ∧
    ¬ ∀ pre, pre <+: killedCalls → ∀ X ∈ added pre,
      ∃ o, (after pre).current X.orderID = [o] ∧ Truthful pre X.orderID o := by
  have hlistener : .onExpired 1 10 ∈ (after killedCalls).executionListener := by decide
  refine ⟨by decide, hlistener, fun h => ?_⟩
  obtain ⟨o, hcurrent, htrue⟩ := h killedCalls List.prefix_rfl
    (.built 1 1 .buy 10 10000 1 .fok 0 .limit) (by decide)
  have hopen : (after killedCalls).current 1 = [.built 1 1 .buy 10 10000 1 .fok 0 .limit] := by
    decide
  obtain rfl := List.singleton_inj.mp (hcurrent.symm.trans hopen)
  have hstatus := htrue.expired.mpr ⟨10, hlistener⟩
  revert hstatus
  decide

end MatchingEngine

end MatchingVenue
