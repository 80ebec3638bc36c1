import MatchingVenue.Engine.Registry
import MatchingVenue.Library.Account

/-!
# Accounts of the engine's orders

The callbacks of the engine are entries in the sense of `Account`. This module relates the account
of one order id `X` to the engine: `Tracks` says that the orders of that id which exist anywhere, in
the hands of `addOrder`, in a queue, or gone, are exactly the one that the account describes, and
that the trades that name `X` add up to what the account has executed.

Every step of an admission posts its callbacks to the account and keeps the relation
(`Step.tracks`), and so do admissions and cancels. The account of `X` only sees entries that name
`X`, so nothing has to be known about the other orders.
-/

namespace MatchingVenue

/-- The entry of a callback. -/
def Callback.entry : Callback → Entry ℤ
  | .onFill aggressorOrderId passiveOrderId _ _ filledQuantity remaining =>
    .executed aggressorOrderId passiveOrderId filledQuantity remaining
  | .onAccepted orderId _ remainingQuantity => .accepted orderId remainingQuantity
  | .onExpired orderId expiredQuantity => .expired orderId expiredQuantity

/-- Where an order is: in the hands of `addOrder`, in a queue, or neither. -/
inductive Locus where
  | incoming
  | queue
  | gone
  deriving DecidableEq, Repr

/-- Where an order is, with what remains of it and whether it was cancelled. -/
structure Place where
  locus : Locus
  quantity : ℕ
  cancelled : Bool
  deriving DecidableEq, Repr

/-- The place of an order that is in the given hands. An order of which nothing remains is gone, for
it takes no further part. -/
def Order.place (locus : Locus) (o : Order) : Place :=
  ⟨if o.quantity = 0 then .gone else locus, o.quantity, decide (o.status = .cancelled)⟩

/-- The place that a ticket describes. -/
def Ticket.place (t : Ticket) : Place where
  locus :=
    match t.stage with
    | .working => .incoming
    | .resting => .queue
    | .filled | .cancelled | .expired => .gone
  quantity := t.remaining
  cancelled := decide (t.stage = .cancelled)

/-- The places that an account describes: one for an admitted order, and none otherwise. -/
def Account.places : Account → List Place
  | .unknown | .refused => []
  | .admitted t => [t.place]

/-- What an account has executed. -/
def Account.executed : Account → ℕ
  | .unknown | .refused => 0
  | .admitted t => t.executed

/-- Whether an order is the one of an account. -/
theorem Account.places_cons {p : Place} {rest : List Place} {a : Account}
    (h : (p :: rest).Perm a.places) : ∃ t, a = .admitted t ∧ t.place = p ∧ rest = [] := by
  cases a with
  | unknown => simp [places] at h
  | refused => simp [places] at h
  | admitted t =>
    obtain ⟨hp, hrest⟩ := List.cons.inj (List.perm_singleton.mp h)
    exact ⟨t, rfl, hp.symm, hrest⟩

namespace Ticket

/-- An outstanding order in the hands of `addOrder` is being matched. -/
theorem place_incoming {t : Ticket} {o : Order} (h : t.place = o.place .incoming)
    (hpos : 0 < o.quantity) :
    t.stage = .working ∧ t.remaining = o.quantity ∧ o.status ≠ .cancelled := by
  unfold place Order.place at h
  rw [if_neg (by omega)] at h
  obtain ⟨hlocus, hquantity, hcancelled⟩ := Place.mk.inj h
  cases hstage : t.stage <;> simp_all

/-- An outstanding order in a queue waits. -/
theorem place_queue {t : Ticket} {o : Order} (h : t.place = o.place .queue)
    (hpos : 0 < o.quantity) :
    t.stage = .resting ∧ t.remaining = o.quantity ∧ o.status ≠ .cancelled := by
  unfold place Order.place at h
  rw [if_neg (by omega)] at h
  obtain ⟨hlocus, hquantity, hcancelled⟩ := Place.mk.inj h
  cases hstage : t.stage <;> simp_all

/-- An outstanding order that is not gone is matched or waits. -/
theorem place_open {t : Ticket} {o : Order} {locus : Locus} (hgone : locus ≠ .gone)
    (h : t.place = o.place locus) (hpos : 0 < o.quantity) :
    (t.stage = .working ∨ t.stage = .resting) ∧ t.remaining = o.quantity := by
  cases locus with
  | incoming =>
    obtain ⟨hstage, hquantity, -⟩ := place_incoming h hpos
    exact ⟨.inl hstage, hquantity⟩
  | queue =>
    obtain ⟨hstage, hquantity, -⟩ := place_queue h hpos
    exact ⟨.inr hstage, hquantity⟩
  | gone => exact absurd rfl hgone

/-- An execution of an order and of its ticket. -/
theorem place_execute {t : Ticket} {o : Order} {locus : Locus} (hgone : locus ≠ .gone) {m : ℕ}
    (h : t.place = o.place locus) (hpos : 0 < m) (hle : m ≤ o.quantity) (hm : m ≤ t.remaining) :
    (t.execute m hm).place = (o.filled m).place locus := by
  unfold place Order.place at h
  rw [if_neg (by omega)] at h
  obtain ⟨hlocus, hquantity, hcancelled⟩ := Place.mk.inj h
  by_cases hall : m = t.remaining
  · -- Both are filled: the order is gone and the ticket is at its end.
    have hzero : o.quantity - m = 0 := by omega
    simp [place, Order.place, execute, Order.filled, hall, hquantity]
  · -- Both keep their stage with as much less.
    have hleft : o.quantity - m ≠ 0 := by omega
    simp only [place, Order.place, execute, if_neg hall, Order.filled, if_neg hleft, Place.mk.injEq]
    refine ⟨hlocus, by omega, ?_⟩
    cases hstage : t.stage <;> simp_all

end Ticket

namespace MatchingEngine

/-- The places of the orders of one id among some orders. -/
def placesOf (X : ℤ) (locus : Locus) (orders : List Order) : List Place :=
  (orders.filter fun o => o.orderID = X).map (Order.place locus)

/-- The places of the orders of one id that rest or are gone. -/
def settled (X : ℤ) (s : MatchingEngine) : List Place :=
  placesOf X .queue (s.resting.map RestingOrder.toOrder) ++ placesOf X .gone s.retired

/-- The places of all orders of one id, with the one in the hands of `addOrder`. -/
def places (X : ℤ) (incoming : Option Order) (s : MatchingEngine) : List Place :=
  placesOf X .incoming incoming.toList ++ s.settled X

/-- The quantity of the trades that name an order as buyer or seller. -/
def tradedQuantity (X : ℤ) (trades : List Trade) : ℕ :=
  ((trades.filter fun t => t.buyOrderId = X ∨ t.sellOrderId = X).map Trade.quantity).sum

/-- The account of an order describes the engine. -/
structure Tracks (X : ℤ) (x : Option Order × MatchingEngine) (a : Account) : Prop where
  /-- The places of the orders of the id are those of the account. -/
  places : (places X x.1 x.2).Perm a.places
  /-- The executed quantity is that of the trades. -/
  executed : a.executed = tradedQuantity X x.2.trades

section Places

variable {X : ℤ} {locus : Locus}

@[simp]
theorem placesOf_nil : placesOf X locus [] = [] := rfl

/-- The places of two stretches of orders are those of both. -/
theorem placesOf_append (orders orders' : List Order) :
    placesOf X locus (orders ++ orders') = placesOf X locus orders ++ placesOf X locus orders' := by
  rw [placesOf, List.filter_append, List.map_append]
  rfl

/-- The places of some orders begin with that of the first, if it has the id. -/
theorem placesOf_cons (o : Order) (orders : List Order) :
    placesOf X locus (o :: orders) = placesOf X locus [o] ++ placesOf X locus orders :=
  placesOf_append [o] orders

/-- The places of some orders do not depend on their order. -/
theorem placesOf_perm (X : ℤ) (locus : Locus) {orders orders' : List Order}
    (h : orders.Perm orders') :
    (placesOf X locus orders).Perm (placesOf X locus orders') :=
  (h.filter _).map _

/-- An order has a place where it has the id. -/
theorem placesOf_singleton (o : Order) :
    placesOf X locus [o] = if o.orderID = X then [o.place locus] else [] := by
  unfold placesOf
  split_ifs with h <;> simp [h]

/-- Without an incoming order the places are those of the settled orders. -/
theorem places_none (s : MatchingEngine) : places X none s = s.settled X := rfl

/-- The place of the incoming order comes first. -/
theorem places_some (o : Order) (s : MatchingEngine) :
    places X (some o) s = placesOf X .incoming [o] ++ s.settled X := rfl

/-- An order of the id has its place. -/
theorem placesOf_self {o : Order} (h : o.orderID = X) : placesOf X locus [o] = [o.place locus] := by
  rw [placesOf_singleton, if_pos h]

/-- An order of another id has no place. -/
theorem placesOf_other {o : Order} (h : o.orderID ≠ X) : placesOf X locus [o] = [] := by
  rw [placesOf_singleton, if_neg h]

/-- Orders of one id have the same places where each has the same one. -/
theorem placesOf_congr {o o' : Order} (hid : o'.orderID = o.orderID)
    (hplace : o'.place locus = o.place locus) : placesOf X locus [o'] = placesOf X locus [o] := by
  rw [placesOf_singleton, placesOf_singleton, hid, hplace]

/-- A resting order after a fill: what is left of it in the queue, and it among those that left
where it is filled, are together the one order. -/
theorem placesOf_kept (r : RestingOrder) :
    placesOf X .queue ((kept r).map RestingOrder.toOrder) ++ placesOf X .gone (leaving r) =
      placesOf X .queue [r.toOrder] := by
  unfold kept leaving
  split_ifs with hq
  · -- A filled order has the same place whether the queue or the log of the dead holds it.
    rw [List.map_nil, placesOf_nil, List.nil_append, placesOf_singleton, placesOf_singleton]
    simp [Order.place, hq]
  · simp

/-- The displayed slice has no part in the place of an order. -/
theorem placesOf_kept_hit {r r' : RestingOrder} {m : ℕ}
    (h : r' = r.filled m ∨ r' = (r.filled m).refreshDisplay) :
    placesOf X .queue ((kept r').map RestingOrder.toOrder) =
      placesOf X .queue ((kept (r.filled m)).map RestingOrder.toOrder) := by
  rcases h with rfl | rfl
  · rfl
  · have hq : (r.filled m).refreshDisplay.quantity = (r.filled m).quantity := rfl
    unfold kept
    rw [hq]
    split_ifs
    · rfl
    · exact placesOf_congr rfl rfl

/-- The places of the resting orders and the gone ones, with the first resting order set apart. -/
theorem places_cons {r : RestingOrder} {orders others : List RestingOrder} {retired : List Order}
    (h : orders.Perm (r :: others)) :
    (placesOf X .queue (orders.map RestingOrder.toOrder) ++ placesOf X .gone retired).Perm
      (placesOf X .queue [r.toOrder] ++
        (placesOf X .queue (others.map RestingOrder.toOrder) ++ placesOf X .gone retired)) := by
  have hq := placesOf_perm X .queue (h.map RestingOrder.toOrder)
  rw [List.map_cons, placesOf_cons] at hq
  rw [← List.append_assoc]
  exact hq.append_right _

/-- The same after a fill of that order. It is in the queue or among the gone ones, but still
one. -/
theorem places_filled {r r' : RestingOrder} {m : ℕ} {orders others : List RestingOrder}
    {retired : List Order} (h : orders.Perm (kept r' ++ others))
    (hr' : r' = r.filled m ∨ r' = (r.filled m).refreshDisplay) :
    (placesOf X .queue (orders.map RestingOrder.toOrder) ++
        placesOf X .gone (retired ++ leaving (r.filled m))).Perm
      (placesOf X .queue [r.toOrder.filled m] ++
        (placesOf X .queue (others.map RestingOrder.toOrder) ++ placesOf X .gone retired)) := by
  have hq := placesOf_perm X .queue (h.map RestingOrder.toOrder)
  rw [List.map_append, placesOf_append, placesOf_kept_hit hr'] at hq
  rw [placesOf_append, ← RestingOrder.toOrder_filled, ← placesOf_kept]
  refine (hq.append_right _).trans ?_
  rw [List.perm_iff_count]
  intro p
  simp only [List.count_append]
  omega

end Places

/-! ## Posting a step -/

section Execution

variable {X : ℤ} {a : Account}

/-- An entry that the ticket of an admitted order takes is posted to its account. -/
theorem post_ticket {t t' : Ticket} {e : Entry ℤ} (he : e.Names X) (h : t.book X e = some t') :
    (Account.admitted t).post X e = some (.admitted t') := by
  rw [Account.post_of_names he, Account.book_admitted, h]
  rfl

/-- An execution on the account of its aggressor. The passive side is another order, for otherwise
two orders would have the id. -/
theorem post_aggressor {o r : Order} {locus : Locus} {rest : List Place} {m : ℕ}
    (hlocus : locus ≠ .gone) (hpos : 0 < m) (ho : m ≤ o.quantity) (hoX : o.orderID = X)
    (h : (placesOf X locus [o] ++ (placesOf X .queue [r] ++ rest)).Perm a.places) :
    ∃ a', a.post X (.executed o.orderID r.orderID m (o.quantity - m)) = some a' ∧
      (placesOf X locus [o.filled m] ++ (placesOf X .queue [r.filled m] ++ rest)).Perm a'.places ∧
      a'.executed = a.executed + m := by
  rw [placesOf_self hoX, List.singleton_append] at h
  obtain ⟨t, rfl, hplace, hrest⟩ := Account.places_cons h
  obtain ⟨hno, hrest⟩ := List.append_eq_nil_iff.mp hrest
  have hrX : r.orderID ≠ X := by
    intro hrX
    rw [placesOf_self hrX] at hno
    simp at hno
  obtain ⟨hstage, hquantity⟩ := Ticket.place_open hlocus hplace (by omega)
  have hmay : t.MayExecute X o.orderID r.orderID m (o.quantity - m) := by
    refine ⟨hpos, by omega, ?_⟩
    rw [if_pos hoX]
    exact ⟨hrX, by omega, hstage⟩
  have hm := hmay.2.1
  refine ⟨.admitted (t.execute m hm), post_ticket (.inl hoX) (Ticket.book_executed hmay), ?_, rfl⟩
  have hoX' : (o.filled m).orderID = X := hoX
  have hrX' : (r.filled m).orderID ≠ X := hrX
  rw [placesOf_self hoX', placesOf_other hrX', hrest, Account.places,
    Ticket.place_execute hlocus hplace hpos ho hm]
  exact .refl _

/-- An execution on the account of its passive side. -/
theorem post_passive {o r : Order} {locus : Locus} {rest : List Place} {m : ℕ} (hpos : 0 < m)
    (hr : m ≤ r.quantity) (hoX : o.orderID ≠ X) (hrX : r.orderID = X)
    (h : (placesOf X locus [o] ++ (placesOf X .queue [r] ++ rest)).Perm a.places) :
    ∃ a', a.post X (.executed o.orderID r.orderID m (o.quantity - m)) = some a' ∧
      (placesOf X locus [o.filled m] ++ (placesOf X .queue [r.filled m] ++ rest)).Perm a'.places ∧
      a'.executed = a.executed + m := by
  rw [placesOf_other hoX, List.nil_append, placesOf_self hrX, List.singleton_append] at h
  obtain ⟨t, rfl, hplace, hrest⟩ := Account.places_cons h
  obtain ⟨hstage, hquantity, -⟩ := Ticket.place_queue hplace (by omega)
  have hmay : t.MayExecute X o.orderID r.orderID m (o.quantity - m) := by
    refine ⟨hpos, by omega, ?_⟩
    rw [if_neg hoX]
    exact hstage
  have hm := hmay.2.1
  refine ⟨.admitted (t.execute m hm), post_ticket (.inr hrX) (Ticket.book_executed hmay), ?_, rfl⟩
  have hoX' : (o.filled m).orderID ≠ X := hoX
  have hrX' : (r.filled m).orderID = X := hrX
  rw [placesOf_other hoX', placesOf_self hrX', hrest, Account.places,
    Ticket.place_execute (by decide) hplace hpos hr hm]
  exact .refl _

/-- An execution of two orders, the first of them the aggressor, on the account of `X`: it is one of
the two, and its account executes, or it is none of them. -/
theorem post_executed {o r : Order} {locus : Locus} {rest : List Place} {m : ℕ}
    (hlocus : locus ≠ .gone) (hpos : 0 < m) (ho : m ≤ o.quantity) (hr : m ≤ r.quantity)
    (h : (placesOf X locus [o] ++ (placesOf X .queue [r] ++ rest)).Perm a.places) :
    ∃ a', a.post X (.executed o.orderID r.orderID m (o.quantity - m)) = some a' ∧
      (placesOf X locus [o.filled m] ++ (placesOf X .queue [r.filled m] ++ rest)).Perm a'.places ∧
      a'.executed = a.executed + if o.orderID = X ∨ r.orderID = X then m else 0 := by
  by_cases hoX : o.orderID = X
  · rw [if_pos (.inl hoX)]
    exact post_aggressor hlocus hpos ho hoX h
  by_cases hrX : r.orderID = X
  · rw [if_pos (.inr hrX)]
    exact post_passive hpos hr hoX hrX h
  have hno : ¬ (Entry.executed o.orderID r.orderID m (o.quantity - m)).Names X :=
    fun hnames => hnames.elim hoX hrX
  refine ⟨a, Account.post_of_not_names hno, ?_, ?_⟩
  · have hoX' : (o.filled m).orderID ≠ X := hoX
    have hrX' : (r.filled m).orderID ≠ X := hrX
    rw [placesOf_other hoX, placesOf_other hrX] at h
    rw [placesOf_other hoX', placesOf_other hrX']
    exact h
  · rw [if_neg (fun hor => hor.elim hoX hrX), Nat.add_zero]

/-- Either head of the pools may be the aggressor. -/
theorem crossRoles_cases (bid ask : RestingOrder) (m : ℕ) :
    crossRoles bid ask m = (bid.filled m, ask.filled m) ∨
      crossRoles bid ask m = (ask.filled m, bid.filled m) := by
  unfold crossRoles
  split_ifs
  · exact .inl rfl
  · exact .inr rfl

/-- An execution of the heads of the two peg pools, in either role. -/
theorem post_crossed {bid ask : RestingOrder} {rest : List Place} {m : ℕ} (hpos : 0 < m)
    (hmb : m ≤ bid.quantity) (hma : m ≤ ask.quantity)
    (h : (placesOf X .queue [bid.toOrder] ++ (placesOf X .queue [ask.toOrder] ++ rest)).Perm
    a.places) :
    ∃ a', a.post X (.executed (crossRoles bid ask m).1.orderID (crossRoles bid ask m).2.orderID m
        (crossRoles bid ask m).1.quantity) = some a' ∧
      (placesOf X .queue [bid.toOrder.filled m] ++
        (placesOf X .queue [ask.toOrder.filled m] ++ rest)).Perm
        a'.places ∧
      a'.executed = a.executed + if bid.orderID = X ∨ ask.orderID = X then m else 0 := by
  rcases crossRoles_cases bid ask m with hroles | hroles
  · rw [hroles]
    exact post_executed (by decide) hpos hmb hma h
  · rw [hroles]
    obtain ⟨a', hpost, hplaces, hexecuted⟩ :=
      post_executed (by decide) hpos hma hmb ((List.perm_append_comm_assoc _ _ _).trans h)
    refine ⟨a', hpost, (List.perm_append_comm_assoc _ _ _).trans hplaces, ?_⟩
    rw [hexecuted]
    simp only [or_comm]

/-- The rest of an order on the account of `X`. -/
theorem post_accepted {o r : Order} {rest : List Place} (hid : r.orderID = o.orderID)
    (hquantity : r.quantity = o.quantity) (hstatus : r.status = o.status) (hpos : 0 < o.quantity)
    (h : (placesOf X .incoming [o] ++ rest).Perm a.places) :
    ∃ a', a.post X (.accepted o.orderID o.quantity) = some a' ∧
      (placesOf X .queue [r] ++ rest).Perm a'.places ∧ a'.executed = a.executed := by
  by_cases hoX : o.orderID = X
  · rw [placesOf_self hoX, List.singleton_append] at h
    obtain ⟨t, rfl, hplace, hrest⟩ := Account.places_cons h
    obtain ⟨hstage, hremaining, hopen⟩ := Ticket.place_incoming hplace hpos
    have hbook := Ticket.book_accepted (X := X) o.orderID hstage
    rw [hremaining] at hbook
    refine ⟨_, post_ticket hoX hbook, ?_, rfl⟩
    -- The place moves from the hands of `addOrder` to the queue with nothing else changed.
    rw [placesOf_self (hid.trans hoX), hrest]
    simp [Account.places, Ticket.place, Ticket.moveTo, Order.place, hquantity, hstatus, hremaining,
      hopen, hpos.ne']
  · refine ⟨a, Account.post_of_not_names hoX, ?_, rfl⟩
    rw [placesOf_other hoX] at h
    rw [placesOf_other (by rw [hid]; exact hoX)]
    exact h

/-- The expiry of an order on the account of `X`. -/
theorem post_expired {o left : Order} {rest : List Place} (hleft : left = o ∨ left = o.expire)
    (hpos : 0 < o.quantity) (h : (placesOf X .incoming [o] ++ rest).Perm a.places) :
    ∃ a', a.post X (.expired o.orderID o.quantity) = some a' ∧
      (placesOf X .gone [left] ++ rest).Perm a'.places ∧ a'.executed = a.executed := by
  have hid : left.orderID = o.orderID := by rcases hleft with rfl | rfl <;> rfl
  have hquantity : left.quantity = o.quantity := by rcases hleft with rfl | rfl <;> rfl
  by_cases hoX : o.orderID = X
  · rw [placesOf_self hoX, List.singleton_append] at h
    obtain ⟨t, rfl, hplace, hrest⟩ := Account.places_cons h
    obtain ⟨hstage, hremaining, hopen⟩ := Ticket.place_incoming hplace hpos
    -- A failed fill-or-kill order expires without a change of status, any other with one.
    have hstatus : left.status ≠ .cancelled := by
      rcases hleft with rfl | rfl
      · exact hopen
      · simp [Order.expire]
    have hbook := Ticket.book_expired (X := X) o.orderID hstage
    rw [hremaining] at hbook
    refine ⟨_, post_ticket hoX hbook, ?_, rfl⟩
    rw [placesOf_self (hid.trans hoX), hrest]
    simp [Account.places, Ticket.place, Ticket.moveTo, Order.place, hquantity, hstatus, hremaining]
  · refine ⟨a, Account.post_of_not_names hoX, ?_, rfl⟩
    rw [placesOf_other hoX] at h
    rw [placesOf_other (by rw [hid]; exact hoX)]
    exact h

end Execution

/-- A trade counts where it names the order as buyer or seller. -/
theorem tradedQuantity_append (X : ℤ) (trades : List Trade) (t : Trade) :
    tradedQuantity X (trades ++ [t]) =
      tradedQuantity X trades + if t.buyOrderId = X ∨ t.sellOrderId = X then t.quantity else 0 := by
  unfold tradedQuantity
  rw [List.filter_append, List.map_append, List.sum_append]
  split_ifs with h <;> simp [h]

/-- The trade of a fill counts for the two orders that it is between. -/
theorem tradedQuantity_fill (X : ℤ) (s : MatchingEngine) (trades : List Trade)
    (o r : Order) (price : ℤ) (m : ℕ) : tradedQuantity X (trades ++ [s.fillTrade o r price m]) =
      tradedQuantity X trades + if o.orderID = X ∨ r.orderID = X then m else 0 := by
  rw [tradedQuantity_append]
  unfold fillTrade
  cases o.side
  · rfl
  · simp only [or_comm]

/-- From one account to another over the callbacks of an execution. -/
def Posts (X : ℤ) (s t : MatchingEngine) (a a' : Account) : Prop :=
  ∃ callbacks, t.executionListener = s.executionListener ++ callbacks ∧
    a.replay X (callbacks.map Callback.entry) = some a'

/-- Without a callback the account stays as it is. -/
theorem Posts.none {X : ℤ} {s t : MatchingEngine} {a : Account}
    (h : t.executionListener = s.executionListener ++ []) : Posts X s t a a :=
  ⟨[], h, rfl⟩

/-- A callback is posted to the account. -/
theorem Posts.one {X : ℤ} {s t : MatchingEngine} {a a' : Account} {callback : Callback}
    (h : t.executionListener = s.executionListener ++ [callback])
    (hpost : a.post X callback.entry = some a') : Posts X s t a a' := by
  refine ⟨[callback], h, ?_⟩
  rw [List.map_singleton, Account.replay_cons, hpost]
  rfl

/-- Postings are made one after the other. -/
theorem Posts.trans {X : ℤ} {s t u : MatchingEngine} {a b c : Account} (h₁ : Posts X s t a b)
    (h₂ : Posts X t u b c) : Posts X s u a c := by
  obtain ⟨callbacks, hlistener, hreplay⟩ := h₁
  obtain ⟨callbacks', hlistener', hreplay'⟩ := h₂
  refine ⟨callbacks ++ callbacks', by rw [hlistener', hlistener, List.append_assoc], ?_⟩
  rw [List.map_append, Account.replay_append, hreplay]
  exact hreplay'

/-- Each step posts its callbacks to the account of an order, and keeps it true. -/
theorem Step.tracks {x y : Option Order × MatchingEngine} (h : Step x y) {X : ℤ} {a : Account}
    (ha : Tracks X x a) : ∃ a', Posts X x.2 y.2 a a' ∧ Tracks X y a' := by
  obtain ⟨hplaces, hexecuted⟩ := ha
  cases h with
  | @hit o s s' r r' others price m hrest hrest' hr' hpos hmo hmr hlogs =>
    have hold : (places X (some o) s).Perm
        (placesOf X .incoming [o] ++ (placesOf X .queue [r.toOrder] ++
        (placesOf X .queue (others.map RestingOrder.toOrder) ++ placesOf X .gone s.retired))) :=
      (places_cons hrest).append_left _
    have hnew : (places X (some (o.filled m)) s').Perm (placesOf X .incoming [o.filled m] ++
        (placesOf X .queue [r.toOrder.filled m] ++
          (placesOf X .queue (others.map RestingOrder.toOrder) ++
              placesOf X .gone s.retired))) := by
      rw [places_some, settled, hlogs.retired]
      exact (places_filled hrest' hr').append_left _
    obtain ⟨a', hpost, hplaces', hexecuted'⟩ :=
      post_executed (by decide) hpos hmo hmr (hold.symm.trans hplaces)
    refine ⟨a', .one hlogs.executionListener hpost, hnew.trans hplaces', ?_⟩
    rw [hexecuted', hexecuted, hlogs.trades, tradedQuantity_fill]
  | @cross s s' bid ask others price m hrest hrest' hpos hmb hma hlogs =>
    have hold : (places X none s).Perm (placesOf X .queue [bid.toOrder] ++
        (placesOf X .queue [ask.toOrder] ++
          (placesOf X .queue (others.map RestingOrder.toOrder) ++
              placesOf X .gone s.retired))) := by
      exact (places_cons hrest).trans ((places_cons (.refl _)).append_left _)
    have hnew : (places X none s').Perm (placesOf X .queue [bid.toOrder.filled m] ++
        (placesOf X .queue [ask.toOrder.filled m] ++
          (placesOf X .queue (others.map RestingOrder.toOrder) ++
              placesOf X .gone s.retired))) := by
      have hretired : (s.retired ++ (leaving (bid.filled m) ++ leaving (ask.filled m))).Perm
          ((s.retired ++ leaving (ask.filled m)) ++ leaving (bid.filled m)) := by
        rw [List.append_assoc]
        exact List.perm_append_comm.append_left _
      rw [places_none, settled, hlogs.retired]
      refine ((placesOf_perm X .gone hretired).append_left _).trans ?_
      exact (places_filled hrest' (.inl rfl)).trans
        ((places_filled (.refl _) (.inl rfl)).append_left _)
    obtain ⟨a', hpost, hplaces', hexecuted'⟩ := post_crossed hpos hmb hma (hold.symm.trans hplaces)
    refine ⟨a', .one hlogs.executionListener hpost, hnew.trans hplaces', ?_⟩
    rw [hexecuted', hexecuted, hlogs.trades, tradedQuantity_append]
    rfl
  | @rest o s s' r hpos htif hrest _ hr hlogs =>
    have hnew : (places X none s').Perm (placesOf X .queue [r.toOrder] ++ s.settled X) := by
      rw [places_none, settled, settled, hlogs.retired, List.append_nil]
      exact places_cons hrest
    have hfields : r.orderID = o.orderID ∧ r.quantity = o.quantity ∧ r.status = o.status := by
      rcases hr with hr | hr <;> rw [hr] <;> exact ⟨rfl, rfl, rfl⟩
    obtain ⟨hid, hquantity, hstatus⟩ := hfields
    obtain ⟨a', hpost, hplaces', hexecuted'⟩ := post_accepted hid hquantity hstatus hpos hplaces
    refine ⟨a', .one hlogs.executionListener hpost, hnew.trans hplaces', ?_⟩
    rw [hexecuted', hexecuted, hlogs.trades, List.append_nil]
  | @expire o left s s' hpos _ hrest hleft hlogs =>
    have hnew : (places X none s').Perm (placesOf X .gone [left] ++ s.settled X) := by
      rw [places_none, settled, settled, hlogs.retired, hrest, placesOf_append, ← List.append_assoc]
      exact List.perm_append_comm
    obtain ⟨a', hpost, hplaces', hexecuted'⟩ := post_expired hleft hpos hplaces
    refine ⟨a', .one hlogs.executionListener hpost, hnew.trans hplaces', ?_⟩
    rw [hexecuted', hexecuted, hlogs.trades, List.append_nil]
  | @finish o s s' hq hrest hlogs =>
    have hgone : placesOf X .incoming [o] = placesOf X .gone [o] := by
      rw [placesOf_singleton, placesOf_singleton, Order.place, Order.place, if_pos hq, if_pos hq]
    have hnew : (places X none s').Perm (places X (some o) s) := by
      rw [places_none, places_some, hgone, settled, settled, hlogs.retired, hrest, placesOf_append,
        ← List.append_assoc]
      exact List.perm_append_comm
    refine ⟨a, .none hlogs.executionListener, hnew.trans hplaces, ?_⟩
    rw [hexecuted, hlogs.trades, List.append_nil]

/-- Steps keep that the account describes the engine. -/
theorem Steps.tracks {x y : Option Order × MatchingEngine} (h : Steps x y) {X : ℤ} {a : Account}
    (ha : Tracks X x a) : ∃ a', Posts X x.2 y.2 a a' ∧ Tracks X y a' := by
  induction h with
  | refl => exact ⟨a, .none (by simp), ha⟩
  | tail _ hstep ih =>
    obtain ⟨b, hpost, hb⟩ := ih
    obtain ⟨a', hpost', ha'⟩ := hstep.tracks hb
    exact ⟨a', hpost.trans hpost', ha'⟩

/-- A new engine has no order, so every account of it is unknown. -/
theorem tracks_empty (X : ℤ) : Tracks X (none, {}) .unknown := ⟨.refl _, rfl⟩

/-- The account of an id that was never used, as an order of that id is admitted. -/
theorem Tracks.incoming {X : ℤ} {s : MatchingEngine} (h : Tracks X (none, s) .unknown) {o : Order}
    (ho : o.Constructed) (hid : o.orderID = X) :
    Tracks X (some o, s) (.admitted (.opened o.quantity ho.valid.2)) := by
  have hpos := ho.valid.2
  have hsettled : s.settled X = [] := List.perm_nil.mp h.places
  refine ⟨?_, h.executed⟩
  rw [places_some, hsettled, placesOf_self hid]
  simp [Account.places, Ticket.place, Ticket.opened, Order.place, hpos.ne', ho.status]

/-- An order of another id in the hands of `addOrder` is not seen. -/
theorem Tracks.incoming_other {X : ℤ} {s : MatchingEngine} {a : Account} (h : Tracks X (none, s) a)
    {o : Order} (hid : o.orderID ≠ X) : Tracks X (some o, s) a := by
  refine ⟨?_, h.executed⟩
  rw [places_some, placesOf_other hid]
  exact h.places

/-- An admission posts the admission of the order and its callbacks. -/
theorem addOrder_tracks {s t : MatchingEngine} (hr : s.Reachable) {o : Order} (ho : o.Constructed)
    (hadd : s.addOrder o = .ok t) {X : ℤ} {a : Account} (ha : Tracks X (none, s) a)
    (hnew : o.orderID = X → a = .unknown) :
    ∃ callbacks a', t.executionListener = s.executionListener ++ callbacks ∧
      a.replay X (.admitted o.orderID o.quantity :: callbacks.map Callback.entry) = some a' ∧
      Tracks X (none, t) a' := by
  have hsteps := addOrder_steps hr.queued ho.valid.1 ho.valid.2 hadd
  -- The admission of an order of another id is not about `X`.
  by_cases hid : o.orderID = X
  · obtain rfl := hnew hid
    have hnames : (Entry.admitted o.orderID o.quantity).Names X := hid
    have hpost : Account.unknown.post X (.admitted o.orderID o.quantity) =
        some (.admitted (.opened o.quantity ho.valid.2)) := by
      rw [Account.post_of_names hnames, Account.book, dif_pos ho.valid.2]
    obtain ⟨a', ⟨callbacks, hlistener, hreplay⟩, ha'⟩ := hsteps.tracks (ha.incoming ho hid)
    refine ⟨callbacks, a', hlistener, ?_, ha'⟩
    rw [Account.replay_cons, hpost]
    exact hreplay
  · obtain ⟨a', ⟨callbacks, hlistener, hreplay⟩, ha'⟩ := hsteps.tracks (ha.incoming_other hid)
    have hnames : ¬ (Entry.admitted o.orderID o.quantity).Names X := hid
    refine ⟨callbacks, a', hlistener, ?_, ha'⟩
    rw [Account.replay_cons, Account.post_of_not_names hnames]
    exact hreplay

/-- A cancel posts its success, and nothing where it fails. -/
theorem cancelOrder_tracks {s : MatchingEngine} (hr : s.Reachable) (orderID : ℤ) {X : ℤ}
    {a : Account} (ha : Tracks X (none, s) a) :
    ∃ a', a.replay X (if (s.cancelOrder orderID).2 then [.cancelled orderID] else []) = some a' ∧
      Tracks X (none, (s.cancelOrder orderID).1) a' := by
  rcases cancelOrder_spec hr.queued hr.identified orderID with
    ⟨-, hcancel⟩ | ⟨r, t, -, rfl, hperm, hcancel, hlogs, -, -⟩
  · rw [hcancel]
    exact ⟨a, rfl, ha⟩
  rw [hcancel]
  have hpos := (hr.queued.rests (hperm.mem_iff.mpr List.mem_cons_self)).quantity_pos
  -- The order is taken out of the queue and joins the dead, and nothing else changes.
  have hold : (s.settled X).Perm (placesOf X .queue [r.toOrder] ++
      (placesOf X .queue (t.resting.map RestingOrder.toOrder) ++ placesOf X .gone s.retired)) :=
    places_cons hperm
  have hnew : (t.settled X).Perm (placesOf X .gone [r.toOrder.cancel] ++
      (placesOf X .queue (t.resting.map RestingOrder.toOrder) ++ placesOf X .gone s.retired)) := by
    rw [settled, hlogs.retired, placesOf_append, ← List.append_assoc]
    exact List.perm_append_comm
  have hexecuted : a.executed = tradedQuantity X t.trades := by
    rw [ha.executed, hlogs.trades, List.append_nil]
  have hplaces := hold.symm.trans ha.places
  by_cases hid : r.orderID = X
  · rw [placesOf_self hid, List.singleton_append] at hplaces
    obtain ⟨ticket, rfl, hplace, hrest⟩ := Account.places_cons hplaces
    obtain ⟨hstage, hremaining, -⟩ := Ticket.place_queue hplace hpos
    have hbook := Ticket.book_cancelled (X := X) r.orderID hstage
    have hnames : (Entry.cancelled r.orderID).Names X := hid
    refine ⟨.admitted (ticket.moveTo .cancelled (by decide) (by simp [hstage])), ?_, ?_, hexecuted⟩
    · rw [if_pos rfl, Account.replay_cons, post_ticket hnames hbook]
      rfl
    · have hid' : r.toOrder.cancel.orderID = X := hid
      refine hnew.trans ?_
      rw [placesOf_self hid', hrest]
      simp [Account.places, Ticket.place, Ticket.moveTo, Order.place, hremaining,
        Order.cancel, hpos.ne']
  · have hnames : ¬ (Entry.cancelled r.orderID).Names X := hid
    refine ⟨a, ?_, ?_, hexecuted⟩
    · rw [if_pos rfl, Account.replay_cons, Account.post_of_not_names hnames]
      rfl
    · have hid' : r.toOrder.cancel.orderID ≠ X := hid
      refine hnew.trans ?_
      rw [placesOf_other hid']
      rw [placesOf_other hid] at hplaces
      exact hplaces

/-! ## Reading an account off the engine -/

section Reading

variable {X : ℤ} {s : MatchingEngine} {a : Account}

/-- The places of some orders are those of the orders of the id. -/
theorem mem_placesOf {locus : Locus} {orders : List Order} {p : Place} :
    p ∈ placesOf X locus orders ↔ ∃ o ∈ orders, o.orderID = X ∧ o.place locus = p := by
  simp [placesOf, and_assoc]

/-- A settled order rests or has left the engine. -/
theorem mem_settled {p : Place} : p ∈ s.settled X ↔
    (∃ r ∈ s.resting, r.orderID = X ∧ r.toOrder.place .queue = p) ∨
      ∃ o ∈ s.retired, o.orderID = X ∧ o.place .gone = p := by
  rw [settled, List.mem_append, mem_placesOf, mem_placesOf]
  simp

/-- Between two calls the orders of an id are the one of its account, or none. -/
theorem Tracks.settled_eq (h : Tracks X (none, s) a) : s.settled X = a.places := by
  have hplaces := h.places
  rw [places_none] at hplaces
  cases a with
  | unknown => exact List.perm_nil.mp hplaces
  | refused => exact List.perm_nil.mp hplaces
  | admitted t => exact List.perm_singleton.mp hplaces

/-- The place that a ticket describes is that of an order which rests or is gone. -/
theorem Tracks.place_mem {t : Ticket} (h : Tracks X (none, s) (.admitted t)) :
    t.place ∈ s.settled X := by
  rw [h.settled_eq]
  exact List.mem_singleton_self _

/-- An order that rests or is gone has a ticket. -/
theorem Tracks.exists_ticket (h : Tracks X (none, s) a) {p : Place} (hp : p ∈ s.settled X) :
    ∃ t, a = .admitted t ∧ t.place = p := by
  rw [h.settled_eq] at hp
  cases a with
  | unknown => simp [Account.places] at hp
  | refused => simp [Account.places] at hp
  | admitted t => exact ⟨t, rfl, (List.mem_singleton.mp hp).symm⟩

/-- Between two calls nothing is in the hands of `addOrder`. -/
theorem Tracks.not_working {t : Ticket} (h : Tracks X (none, s) (.admitted t)) :
    t.stage ≠ .working := by
  intro hstage
  have hlocus : t.place.locus = .incoming := by
    unfold Ticket.place
    rw [hstage]
  rcases mem_settled.mp h.place_mem with ⟨r, -, -, hp⟩ | ⟨o, -, -, hp⟩
  · rw [← hp, Order.place] at hlocus
    split_ifs at hlocus
  · rw [← hp, Order.place] at hlocus
    split_ifs at hlocus

/-- An order waits exactly if one of its id rests. -/
theorem Tracks.at_resting (h : Tracks X (none, s) a) (hq : s.Queued) (n : ℕ) :
    a.At .resting n ↔ ∃ r ∈ s.resting, r.orderID = X ∧ r.quantity = n := by
  constructor
  · rintro ⟨t, rfl, hstage, rfl⟩
    rcases mem_settled.mp h.place_mem with ⟨r, hr, hid, hp⟩ | ⟨o, -, -, hp⟩
    · exact ⟨r, hr, hid, (Ticket.place_queue hp.symm (hq.rests hr).quantity_pos).2.1.symm⟩
    · -- A ticket at rest does not describe an order that is gone.
      have hlocus : t.place.locus = .queue := by
        unfold Ticket.place
        rw [hstage]
      rw [← hp, Order.place] at hlocus
      split_ifs at hlocus
  · rintro ⟨r, hr, hid, rfl⟩
    obtain ⟨t, rfl, hp⟩ := h.exists_ticket (mem_settled.mpr (.inl ⟨r, hr, hid, rfl⟩))
    obtain ⟨hstage, hremaining, -⟩ := Ticket.place_queue hp (hq.rests hr).quantity_pos
    exact ⟨t, rfl, hstage, hremaining⟩

/-- An order is filled exactly if one of its id is gone of which nothing remains. -/
theorem Tracks.at_filled (h : Tracks X (none, s) a) (hq : s.Queued) :
    (∃ n, a.At .filled n) ↔ ∃ o ∈ s.retired, o.orderID = X ∧ o.quantity = 0 := by
  constructor
  · rintro ⟨-, t, rfl, hstage, rfl⟩
    have hzero : t.place.quantity = 0 := t.outstanding.mpr hstage
    rcases mem_settled.mp h.place_mem with ⟨r, hr, -, hp⟩ | ⟨o, ho, hid, hp⟩
    · have hpos := (hq.rests hr).quantity_pos
      rw [← hp] at hzero
      exact absurd hzero hpos.ne'
    · rw [← hp] at hzero
      exact ⟨o, ho, hid, hzero⟩
  · rintro ⟨o, ho, hid, hzero⟩
    obtain ⟨t, rfl, hp⟩ := h.exists_ticket (mem_settled.mpr (.inr ⟨o, ho, hid, rfl⟩))
    have hquantity : t.remaining = o.quantity := congrArg Place.quantity hp
    exact ⟨_, t, rfl, t.outstanding.mp (hquantity.trans hzero), rfl⟩

/-- An order is cancelled exactly if one of its id is gone with that status. -/
theorem Tracks.at_cancelled (h : Tracks X (none, s) a) :
    (∃ n, a.At .cancelled n) ↔ ∃ o ∈ s.retired, o.orderID = X ∧ o.status = .cancelled := by
  constructor
  · rintro ⟨-, t, rfl, hstage, rfl⟩
    have hleft : t.remaining ≠ 0 := by
      rw [ne_eq, t.outstanding, hstage]
      decide
    have hplace : t.place = ⟨.gone, t.remaining, true⟩ := by
      unfold Ticket.place
      simp only [hstage, decide_true]
    rcases mem_settled.mp h.place_mem with ⟨r, -, -, hp⟩ | ⟨o, ho, hid, hp⟩
    · -- An order with something left that rests is not gone.
      obtain ⟨hlocus, hquantity, -⟩ := Place.mk.inj (hp.trans hplace)
      rw [hquantity, if_neg hleft] at hlocus
      simp at hlocus
    · obtain ⟨-, -, hcancelled⟩ := Place.mk.inj (hp.trans hplace)
      exact ⟨o, ho, hid, of_decide_eq_true hcancelled⟩
  · rintro ⟨o, ho, hid, hstatus⟩
    obtain ⟨t, rfl, hp⟩ := h.exists_ticket (mem_settled.mpr (.inr ⟨o, ho, hid, rfl⟩))
    have hcancelled : decide (t.stage = .cancelled) = decide (o.status = .cancelled) :=
      congrArg Place.cancelled hp
    exact ⟨_, t, rfl, (decide_eq_decide.mp hcancelled).mpr hstatus, rfl⟩

end Reading

end MatchingEngine

end MatchingVenue
