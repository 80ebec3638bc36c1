import MatchingVenue.Ledger.Tracking
import Mathlib.Data.List.Induction
import Mathlib.Algebra.BigOperators.Group.List.Basic

/-!
# Conservation of quantity

For runs whose orders have distinct ids, every order has one account (`Recorded`), and what was
ordered is what was traded and what is left (`quantity_conserved`). What is left is the amount that
rests, expired or was outstanding at the cancel, and nothing otherwise. Summed over the orders, as
much was bought as was sold, and each is the total of the trades (`tradedOn_eq`).
-/

namespace MatchingVenue

namespace MatchingEngine

/-- A call of the run has cancelled an order, which rested with `n` left just before. -/
def CancelsAmount (calls : List Call) (X : ℤ) (n : ℕ) : Prop :=
  ∃ pre, pre ++ [.cancelOrder X] <+: calls ∧ ((after pre).cancelOrder X).2 = true ∧
    ∃ r ∈ (after pre).resting, r.orderID = X ∧ r.quantity = n

/-- What a run has recorded about the orders of one id. -/
structure Recorded (calls : List Call) (X : ℤ) (a : Account) : Prop where
  /-- The account describes the engine. -/
  tracks : Tracks X (none, after calls) a
  /-- An order that was added is admitted with its quantity. -/
  admitted : ∀ o ∈ added calls, o.orderID = X → ∃ t, a = .admitted t ∧ t.original = o.quantity
  /-- An id of no order is unknown. -/
  unknown : (∀ o ∈ added calls, o.orderID ≠ X) → a = .unknown
  /-- An order expired where the listener was told so. -/
  expired : ∀ n, .onExpired X n ∈ (after calls).executionListener ↔ a.At .expired n
  /-- An order was cancelled where a cancel took it out. -/
  cancelled : ∀ n, CancelsAmount calls X n ↔ a.At .cancelled n

/-- The callbacks of an admission are about executions and the ends of orders. -/
theorem entry_cases (callback : Callback) (X : ℤ) :
    (∀ q, callback.entry ≠ .admitted X q) ∧ callback.entry ≠ .refused X ∧
      callback.entry ≠ .cancelled X := by
  cases callback <;> simp [Callback.entry]

/-- The entries say that an order expired where a callback does. -/
theorem expired_mem_map_entry {callbacks : List Callback} {X : ℤ} {n : ℕ} :
    .expired X n ∈ callbacks.map Callback.entry ↔ .onExpired X n ∈ callbacks := by
  constructor
  · intro h
    obtain ⟨callback, hmem, hentry⟩ := List.mem_map.mp h
    cases callback with
    | onExpired orderId q =>
      obtain ⟨rfl, rfl⟩ := Entry.expired.inj hentry
      exact hmem
    | _ => simp [Callback.entry] at hentry
  · exact fun h => List.mem_map.mpr ⟨_, h, rfl⟩

/-- A cancel reports nothing to the listener. -/
theorem executionListener_cancelOrder {s : MatchingEngine} (h : s.Reachable) (orderID : ℤ) :
    (s.cancelOrder orderID).1.executionListener = s.executionListener := by
  rcases cancelOrder_spec h.queued h.identified orderID with
    ⟨-, hcancel⟩ | ⟨r, t, -, -, -, hcancel, hlogs, -, -⟩
  · rw [hcancel]
  · rw [hcancel, hlogs.executionListener, List.append_nil]

/-- The cancels of a longer run. -/
theorem cancelsAmount_append {calls : List Call} {c : Call} {X : ℤ} {n : ℕ} :
    CancelsAmount (calls ++ [c]) X n ↔ CancelsAmount calls X n ∨
      c = .cancelOrder X ∧ ((after calls).cancelOrder X).2 = true ∧
        ∃ r ∈ (after calls).resting, r.orderID = X ∧ r.quantity = n := by
  constructor
  · rintro ⟨pre, hpre, hcancel⟩
    -- The cancel is the last call, or it was among the others.
    rcases List.prefix_concat_iff.mp hpre with heq | hpre
    · obtain ⟨rfl, hc⟩ := List.append_inj' heq rfl
      exact .inr ⟨(List.singleton_inj.mp hc).symm, hcancel⟩
    · exact .inl ⟨pre, hpre, hcancel⟩
  · rintro (⟨pre, hpre, hcancel⟩ | ⟨rfl, hcancel⟩)
    · exact ⟨pre, hpre.trans (List.prefix_append ..), hcancel⟩
    · exact ⟨calls, List.prefix_rfl, hcancel⟩

/-- An admission extends the record. -/
theorem Recorded.addOrder {calls : List Call} {X : ℤ} {a : Account} (h : Recorded calls X a)
    (order : { o : Order // o.Constructed })
    (hids : ((added (calls ++ [.addOrder order])).map fun o => o.orderID).Nodup) :
    ∃ a', Recorded (calls ++ [.addOrder order]) X a' := by
  have hadd := addOrder_after calls order
  rw [added_append, List.map_append, List.nodup_append] at hids
  obtain ⟨-, -, hids⟩ := hids
  -- The ids of the earlier orders differ from the new one.
  have hfresh : ∀ o ∈ added calls, o.orderID ≠ order.1.orderID := fun o ho =>
    hids _ (List.mem_map_of_mem ho) _ List.mem_cons_self
  obtain ⟨callbacks, a', hlistener, hreplay, ha'⟩ :=
    addOrder_tracks (reachable_after calls) order.2 hadd
    h.tracks (fun hid => h.unknown fun o ho => hid ▸ hfresh o ho)
  -- An admission reports no cancel.
  have hno : .cancelled X ∉ Entry.admitted order.1.orderID order.1.quantity ::
      callbacks.map Callback.entry := by
    rw [List.mem_cons, not_or]
    refine ⟨by simp, fun hmem => ?_⟩
    obtain ⟨callback, -, hentry⟩ := List.mem_map.mp hmem
    exact (entry_cases callback X).2.2 hentry
  refine ⟨a', ha', ?_, ?_, ?_, ?_⟩
  · intro o ho hid
    rw [added_append, List.mem_append] at ho
    rcases ho with ho | ho
    · -- An earlier order keeps its ticket; the new one gets it here.
      obtain ⟨t, rfl, horiginal⟩ := h.admitted o ho hid
      obtain ⟨t', rfl, horiginal'⟩ := Account.replay_admitted hreplay
      exact ⟨t', rfl, horiginal'.trans horiginal⟩
    · obtain rfl := List.mem_singleton.mp ho
      obtain rfl := h.unknown fun x hx => hid ▸ hfresh x hx
      have hnames : (Entry.admitted order.1.orderID order.1.quantity).Names X := hid
      rw [Account.replay_cons, Account.post_of_names hnames, Account.book,
        dif_pos order.2.valid.2] at hreplay
      exact Account.replay_admitted hreplay
  · intro hnone
    rw [added_append] at hnone
    obtain rfl := h.unknown fun o ho => hnone o (List.mem_append_left _ ho)
    refine (Account.replay_unknown hreplay ?_).2
    refine List.forall_mem_cons.mpr ⟨⟨?_, by simp⟩, ?_⟩
    · intro q heq
      exact hnone order.1 (List.mem_append_right _ List.mem_cons_self) (Entry.admitted.inj heq).1
    · intro e he
      obtain ⟨callback, -, rfl⟩ := List.mem_map.mp he
      exact ⟨(entry_cases callback X).1, (entry_cases callback X).2.1⟩
  · intro n
    rw [hlistener, List.mem_append, h.expired, Account.replay_expired_iff hreplay, List.mem_cons,
      expired_mem_map_entry]
    simp
  · intro n
    rw [cancelsAmount_append, h.cancelled, Account.replay_cancelled_iff hreplay hno]
    simp

/-- A cancel extends the record. -/
theorem Recorded.cancelOrder {calls : List Call} {X : ℤ} {a : Account} (h : Recorded calls X a)
    (orderID : ℤ) : ∃ a', Recorded (calls ++ [.cancelOrder orderID]) X a' := by
  have hr := reachable_after calls
  have hafter := cancelOrder_after calls orderID
  obtain ⟨a', hreplay, ha'⟩ := cancelOrder_tracks hr orderID h.tracks
  rw [hafter] at ha'
  refine ⟨a', ha', ?_, ?_, ?_, ?_⟩
  · intro o ho hid
    rw [added_cancelOrder] at ho
    obtain ⟨t, rfl, horiginal⟩ := h.admitted o ho hid
    obtain ⟨t', rfl, horiginal'⟩ := Account.replay_admitted hreplay
    exact ⟨t', rfl, horiginal'.trans horiginal⟩
  · intro hnone
    rw [added_cancelOrder] at hnone
    obtain rfl := h.unknown hnone
    refine (Account.replay_unknown hreplay ?_).2
    intro e he
    split_ifs at he
    · obtain rfl := List.mem_singleton.mp he
      simp
    · simp at he
  · intro n
    rw [← hafter, executionListener_cancelOrder hr, h.expired, Account.replay_expired_iff hreplay]
    refine (or_iff_left fun hmem => ?_).symm
    split_ifs at hmem
    · simp at hmem
    · simp at hmem
  · intro n
    rw [cancelsAmount_append, h.cancelled, ← h.tracks.at_resting hr.queued]
    -- A cancel that succeeds is posted to the account of its order; one that fails posts nothing.
    split_ifs at hreplay with hcancel
    · rw [Account.replay_cons] at hreplay
      obtain ⟨b, hb, hnil⟩ := Option.bind_eq_some_iff.mp hreplay
      obtain rfl := Option.some.inj hnil
      rw [Account.post_cancelled_iff hb]
      refine or_congr_right ⟨?_, ?_⟩
      · rintro ⟨hc, -, hrest⟩
        exact ⟨congrArg Entry.cancelled (Call.cancelOrder.inj hc), hrest⟩
      · rintro ⟨hc, hrest⟩
        obtain rfl := Entry.cancelled.inj hc
        exact ⟨rfl, hcancel, hrest⟩
    · obtain rfl := Option.some.inj hreplay
      apply or_iff_left
      rintro ⟨hc, hdone, -⟩
      exact hcancel (Call.cancelOrder.inj hc ▸ hdone)

/-- In a run whose orders have distinct ids, every id has an account. -/
theorem exists_recorded (calls : List Call) (hids : ((added calls).map fun o => o.orderID).Nodup)
    (X : ℤ) : ∃ a, Recorded calls X a := by
  induction calls using List.reverseRecOn with
  | nil =>
    refine ⟨.unknown, tracks_empty X, by simp [added], fun _ => rfl, ?_, ?_⟩
    · intro n
      have hnil : (after []).executionListener = [] := rfl
      simp [hnil, Account.At]
    · intro n
      simp [CancelsAmount, Account.At]
  | append_singleton calls c ih =>
    have hpre : ((added calls).map fun o => o.orderID).Nodup := by
      rw [added_append, List.map_append, List.nodup_append] at hids
      exact hids.1
    -- One call more extends the record.
    obtain ⟨a, ha⟩ := ih hpre
    cases c with
    | addOrder order => exact ha.addOrder order hids
    | cancelOrder orderID => exact ha.cancelOrder orderID

/-! ## Each order -/

/-- The orders of an id that rest in the engine or have left it, in their present state. -/
def current (s : MatchingEngine) (X : ℤ) : List Order :=
  (s.resting.map RestingOrder.toOrder ++ s.retired).filter fun o => o.orderID = X

/-- The quantities of the places of one id are those of its orders. -/
theorem settled_quantity (s : MatchingEngine) (X : ℤ) :
    (s.settled X).map Place.quantity = (s.current X).map Order.quantity := by
  unfold settled current placesOf
  rw [List.filter_append, List.map_append, List.map_append, List.map_map, List.map_map]
  rfl

/-- There is one order of an account that was admitted, with what remains on it. -/
theorem Tracks.current {s : MatchingEngine} {X : ℤ} {t : Ticket}
    (h : Tracks X (none, s) (.admitted t)) : (s.current X).map Order.quantity = [t.remaining] := by
  rw [← settled_quantity, h.settled_eq]
  rfl

/-- What is left of an order that neither rests nor expired nor was cancelled. -/
theorem Recorded.nothing_left {calls : List Call} {X : ℤ} {t : Ticket}
    (h : Recorded calls X (.admitted t)) (hrest : ∀ r ∈ (after calls).resting, r.orderID ≠ X)
    (hexpired : ∀ n, .onExpired X n ∉ (after calls).executionListener)
    (hcancelled : ∀ n, ¬ CancelsAmount calls X n) : t.remaining = 0 := by
  rw [t.outstanding]
  cases hstage : t.stage with
  | filled => rfl
  | working => exact absurd hstage h.tracks.not_working
  | resting =>
    obtain ⟨r, hr, hid, -⟩ :=
      (h.tracks.at_resting (reachable_after calls).queued t.remaining).mp ⟨t, rfl, hstage, rfl⟩
    exact absurd hid (hrest r hr)
  | expired => exact absurd ((h.expired t.remaining).mpr ⟨t, rfl, hstage, rfl⟩) (hexpired _)
  | cancelled => exact absurd ((h.cancelled t.remaining).mpr ⟨t, rfl, hstage, rfl⟩) (hcancelled _)

/-! ## All orders -/

/-- Every order and every side of a trade comes from an order that was admitted on that side. -/
structure Sourced (orders : List Order) (x : Option Order × MatchingEngine) : Prop where
  incoming : ∀ o, x.1 = some o → ∃ b ∈ orders, b.orderID = o.orderID ∧ b.side = o.side
  resting : ∀ r ∈ x.2.resting, ∃ b ∈ orders, b.orderID = r.orderID ∧ b.side = r.side
  bought : ∀ t ∈ x.2.trades, ∃ b ∈ orders, b.orderID = t.buyOrderId ∧ b.side = .buy
  sold : ∀ t ∈ x.2.trades, ∃ b ∈ orders, b.orderID = t.sellOrderId ∧ b.side = .sell

/-- Orders that come from some orders come from more. -/
theorem Sourced.mono {orders orders' : List Order} {x : Option Order × MatchingEngine}
    (h : Sourced orders x) (hsub : orders ⊆ orders') : Sourced orders' x where
  incoming o ho := (h.incoming o ho).imp fun _ hb => ⟨hsub hb.1, hb.2⟩
  resting r hr := (h.resting r hr).imp fun _ hb => ⟨hsub hb.1, hb.2⟩
  bought t ht := (h.bought t ht).imp fun _ hb => ⟨hsub hb.1, hb.2⟩
  sold t ht := (h.sold t ht).imp fun _ hb => ⟨hsub hb.1, hb.2⟩

/-- A fill keeps the id and the side of a resting order. -/
theorem hit_side {r r' : RestingOrder} {m : ℕ}
    (h : r' = r.filled m ∨ r' = (r.filled m).refreshDisplay) : r'.side = r.side := by
  rcases h with rfl | rfl <;> rfl

/-- The sides of the trade of a hit come from the two orders of the hit. -/
theorem fillTrade_sourced (s : MatchingEngine) {o r : Order} (price : ℤ) (m : ℕ)
    {orders : List Order} (hside : r.side = o.side.opposite)
    (ho : ∃ b ∈ orders, b.orderID = o.orderID ∧ b.side = o.side)
    (hr : ∃ b ∈ orders, b.orderID = r.orderID ∧ b.side = r.side) :
    (∃ b ∈ orders, b.orderID = (s.fillTrade o r price m).buyOrderId ∧ b.side = .buy) ∧
      ∃ b ∈ orders, b.orderID = (s.fillTrade o r price m).sellOrderId ∧ b.side = .sell := by
  unfold fillTrade
  cases hoside : o.side with
  | buy =>
    rw [hoside] at ho hside
    rw [hside] at hr
    exact ⟨ho, hr⟩
  | sell =>
    rw [hoside] at ho hside
    rw [hside] at hr
    exact ⟨hr, ho⟩

/-- What holds of the trades so far and of the next one. -/
theorem forall_mem_concat {P : Trade → Prop} {trades : List Trade} {trade : Trade}
    (h : ∀ t ∈ trades, P t) (htrade : P trade) : ∀ t ∈ trades ++ [trade], P t := by
  rw [List.forall_mem_append]
  exact ⟨h, List.forall_mem_singleton.mpr htrade⟩

/-- A step makes up no order and no side of a trade. -/
theorem Step.sourced {x y : Option Order × MatchingEngine} (h : Step x y) {orders : List Order}
    (hx : Sourced orders x) : Sourced orders y := by
  obtain ⟨hincoming, hresting, hbought, hsold⟩ := hx
  cases h with
  | @hit o s s' r r' others price m hrest hrest' hr' _ _ _ hlogs _ _ hside =>
    obtain ⟨-, hid, -⟩ := hit_fields hr'
    have hrside := hit_side hr'
    have ho := hincoming o rfl
    have hr := hresting r (hrest.mem_iff.mpr List.mem_cons_self)
    -- The two orders of a hit are on different sides, and one of them is the buyer.
    have htrade := fillTrade_sourced s price m hside ho hr
    refine ⟨?_, ?_, ?_, ?_⟩
    · intro a ha
      obtain rfl := Option.some.inj ha
      exact ho
    · intro x hx
      rcases List.mem_append.mp (hrest'.mem_iff.mp hx) with hx | hx
      · obtain ⟨-, rfl⟩ := mem_kept.mp hx
        rw [hid, hrside]
        exact hr
      · exact hresting x (hrest.mem_iff.mpr (List.mem_cons_of_mem _ hx))
    · rw [hlogs.trades]
      exact forall_mem_concat hbought htrade.1
    · rw [hlogs.trades]
      exact forall_mem_concat hsold htrade.2
  | @cross s s' bid ask others price m hrest hrest' _ _ _ hlogs _ _ hbside haside =>
    -- Both heads of a cross rest, the bid on the buy side and the ask on the sell side.
    have hb := hresting bid (hrest.mem_iff.mpr List.mem_cons_self)
    have ha := hresting ask (hrest.mem_iff.mpr (List.mem_cons_of_mem _ List.mem_cons_self))
    refine ⟨by simp, ?_, ?_, ?_⟩
    · intro x hx
      rcases List.mem_append.mp (hrest'.mem_iff.mp hx) with hx | hx
      · obtain ⟨-, rfl⟩ := mem_kept.mp hx
        exact hb
      · rcases List.mem_append.mp hx with hx | hx
        · obtain ⟨-, rfl⟩ := mem_kept.mp hx
          exact ha
        · exact hresting x
            (hrest.mem_iff.mpr (List.mem_cons_of_mem _ (List.mem_cons_of_mem _ hx)))
    · rw [hlogs.trades]
      exact forall_mem_concat hbought (hbside ▸ hb)
    · rw [hlogs.trades]
      exact forall_mem_concat hsold (haside ▸ ha)
  | @rest o s s' r _ _ hrest _ hr hlogs =>
    refine ⟨by simp, ?_, ?_, ?_⟩
    · intro x hx
      rcases List.mem_cons.mp (hrest.mem_iff.mp hx) with rfl | hx
      · have hfields : x.orderID = o.orderID ∧ x.side = o.side := by
          rcases hr with hr | hr <;> rw [hr] <;> exact ⟨rfl, rfl⟩
        rw [hfields.1, hfields.2]
        exact hincoming o rfl
      · exact hresting x hx
    · rw [hlogs.trades, List.append_nil]
      exact hbought
    · rw [hlogs.trades, List.append_nil]
      exact hsold
  | expire _ _ hrest _ hlogs =>
    refine ⟨by simp, by rw [hrest]; exact hresting, ?_, ?_⟩
    · rw [hlogs.trades, List.append_nil]
      exact hbought
    · rw [hlogs.trades, List.append_nil]
      exact hsold
  | finish _ hrest hlogs =>
    refine ⟨by simp, by rw [hrest]; exact hresting, ?_, ?_⟩
    · rw [hlogs.trades, List.append_nil]
      exact hbought
    · rw [hlogs.trades, List.append_nil]
      exact hsold

/-- Steps make up no order and no side of a trade. -/
theorem Steps.sourced {x y : Option Order × MatchingEngine} (h : Steps x y) {orders : List Order}
    (hx : Sourced orders x) : Sourced orders y :=
  steps_inv h (Sourced orders) hx fun _ _ hx hstep => hstep.sourced hx

/-- Whatever a run holds and has traded comes from the orders that it admitted. -/
theorem sourced_after (calls : List Call) : Sourced (added calls) (none, after calls) := by
  induction calls using List.reverseRecOn with
  | nil =>
    have hresting : (after []).resting = [] := rfl
    have htrades : (after []).trades = [] := rfl
    exact ⟨by simp, by simp [hresting], by simp [htrades], by simp [htrades]⟩
  | append_singleton calls c ih =>
    have hr := reachable_after calls
    cases c with
    | addOrder order =>
      have hsteps := addOrder_steps hr.queued order.2.valid.1 order.2.valid.2
        (addOrder_after calls order)
      apply hsteps.sourced
      -- What was there comes from the earlier orders, and the order in hand is the new one.
      have hpre :=
        ih.mono (List.subset_append_left (added calls) (Call.added (.addOrder order)).toList)
      rw [added_append]
      refine ⟨?_, hpre.resting, hpre.bought, hpre.sold⟩
      intro o ho
      obtain rfl := Option.some.inj ho
      exact ⟨order.1, List.mem_append_right _ List.mem_cons_self, rfl, rfl⟩
    | cancelOrder orderID =>
      rw [← cancelOrder_after, added_cancelOrder]
      rcases cancelOrder_spec hr.queued hr.identified orderID with
        ⟨-, hcancel⟩ | ⟨r, t, -, -, hperm, hcancel, hlogs, -, -⟩
      · rw [hcancel]
        exact ih
      · rw [hcancel]
        refine ⟨by simp, ?_, ?_, ?_⟩
        · exact fun x hx => ih.resting x (hperm.mem_iff.mpr (List.mem_cons_of_mem _ hx))
        · rw [hlogs.trades, List.append_nil]
          exact ih.bought
        · rw [hlogs.trades, List.append_nil]
          exact ih.sold

/-- Over distinct ids of which just one is a side of a trade, the trade counts once. -/
theorem sum_side {ids : List ℤ} (hnodup : ids.Nodup) {X Y : ℤ} (hX : X ∈ ids)
    (hY : Y ∉ ids) (q : ℕ) :
    (ids.map fun Z => if X = Z ∨ Y = Z then q else 0).sum = q := by
  induction ids with
  | nil => simp at hX
  | cons Z ids ih =>
    obtain ⟨hZ, hnodup⟩ := List.nodup_cons.mp hnodup
    rw [List.mem_cons, not_or] at hY
    rw [List.map_cons, List.sum_cons]
    rcases List.mem_cons.mp hX with rfl | hX
    · -- The id occurs once, so that the others count for nothing.
      have hzero : (ids.map fun Z => if X = Z ∨ Y = Z then q else 0).sum = 0 := by
        apply List.sum_eq_zero
        intro n hn
        obtain ⟨Z, hmem, rfl⟩ := List.mem_map.mp hn
        apply if_neg
        rintro (rfl | rfl)
        · exact hZ hmem
        · exact hY.2 hmem
      rw [hzero, if_pos (.inl rfl), Nat.add_zero]
    · have hne : X ≠ Z := fun heq => hZ (heq ▸ hX)
      rw [if_neg (fun hor => hor.elim hne hY.1), ih hnodup hX hY.2, Nat.zero_add]

/-- Over distinct ids of which each trade names just one, the traded quantities add up to the
trades. -/
theorem sum_tradedQuantity {ids : List ℤ} (hnodup : ids.Nodup) {trades : List Trade}
    (h : ∀ t ∈ trades, t.buyOrderId ∈ ids ∧ t.sellOrderId ∉ ids ∨
      t.sellOrderId ∈ ids ∧ t.buyOrderId ∉ ids) :
    (ids.map fun X => tradedQuantity X trades).sum = (trades.map Trade.quantity).sum := by
  induction trades using List.reverseRecOn with
  | nil => simp [tradedQuantity]
  | append_singleton trades t ih =>
    have hpre := ih fun x hx => h x (List.mem_append_left _ hx)
    have ht :
        (ids.map fun X => if t.buyOrderId = X ∨ t.sellOrderId = X then t.quantity else 0).sum =
          t.quantity := by
      rcases h t (List.mem_append_right _ List.mem_cons_self) with ⟨hin, hout⟩ | ⟨hin, hout⟩
      · exact sum_side hnodup hin hout _
      · have hside := sum_side hnodup hin hout t.quantity
        simp only [or_comm] at hside ⊢
        exact hside
    calc (ids.map fun X => tradedQuantity X (trades ++ [t])).sum
        = (ids.map fun X => tradedQuantity X trades +
            if t.buyOrderId = X ∨ t.sellOrderId = X then t.quantity else 0).sum := by
          simp only [tradedQuantity_append]
      _ = (trades.map Trade.quantity).sum + t.quantity := by rw [List.sum_map_add, hpre, ht]
      _ = ((trades ++ [t]).map Trade.quantity).sum := by simp

/-- The quantity that the orders of a side have traded. -/
def tradedOn (side : Side) (calls : List Call) : ℕ :=
  (((added calls).filter fun o => o.side = side).map fun o =>
    tradedQuantity o.orderID (after calls).trades).sum

/-- The orders of either side have traded the total of the trades. -/
theorem tradedOn_eq (calls : List Call) (hids : ((added calls).map fun o => o.orderID).Nodup)
    (side : Side) : tradedOn side calls = ((after calls).trades.map Trade.quantity).sum := by
  have hsource := sourced_after calls
  have hmem : ∀ X, X ∈ ((added calls).filter fun o => o.side = side).map (fun o => o.orderID) ↔
      ∃ b ∈ added calls, b.orderID = X ∧ b.side = side := by
    intro X
    simp only [List.mem_map, List.mem_filter, decide_eq_true_eq]
    exact ⟨fun ⟨b, ⟨hb, hs⟩, hid⟩ => ⟨b, hb, hid, hs⟩, fun ⟨b, hb, hid, hs⟩ => ⟨b, ⟨hb, hs⟩, hid⟩⟩
  -- No id is that of a buy and of a sell.
  have hone : ∀ b ∈ added calls, ∀ c ∈ added calls, b.orderID = c.orderID →
      b = c := fun b hb c hc hid =>
    List.inj_on_of_nodup_map hids hb hc hid
  rw [tradedOn, ← sum_tradedQuantity (hids.sublist ((List.filter_sublist).map _)) ?_, List.map_map]
  · rfl
  intro t ht
  obtain ⟨b, hb, hbid, hbside⟩ := hsource.bought t ht
  obtain ⟨c, hc, hcid, hcside⟩ := hsource.sold t ht
  rw [hmem, hmem]
  cases side with
  | buy =>
    refine .inl ⟨⟨b, hb, hbid, hbside⟩, ?_⟩
    rintro ⟨x, hx, hxid, hxside⟩
    obtain rfl := hone x hx c hc (hxid.trans hcid.symm)
    simp [hcside] at hxside
  | sell =>
    refine .inr ⟨⟨c, hc, hcid, hcside⟩, ?_⟩
    rintro ⟨x, hx, hxid, hxside⟩
    obtain rfl := hone x hx b hb (hxid.trans hbid.symm)
    simp [hbside] at hxside

/-- In a run whose orders have distinct ids, at every point and for every order that was added:
there is one order of its id, and what was ordered is what the trades that name it have executed and
what is left of it. What is left is the amount that rests, was reported as expired, or was
outstanding when a cancel succeeded, and nothing where it neither rests nor expired nor was
cancelled. And the buys have traded as much as the sells, the total of the trades. -/
theorem quantity_conserved (calls : List Call)
    (hids : ((added calls).map fun o => o.orderID).Nodup) :
    (∀ o ∈ added calls, ∃ q, ((after calls).current o.orderID).map Order.quantity = [q] ∧
      o.quantity = tradedQuantity o.orderID (after calls).trades + q ∧
      (∀ r ∈ (after calls).resting, r.orderID = o.orderID → r.quantity = q) ∧
      (∀ n, .onExpired o.orderID n ∈ (after calls).executionListener → n = q) ∧
      (∀ pre, pre ++ [.cancelOrder o.orderID] <+: calls →
        ((after pre).cancelOrder o.orderID).2 = true →
        ∃ r ∈ (after pre).resting, r.orderID = o.orderID ∧ r.quantity = q) ∧
      ((∀ r ∈ (after calls).resting, r.orderID ≠ o.orderID) →
        (∀ n, .onExpired o.orderID n ∉ (after calls).executionListener) →
        (∀ pre, pre ++ [.cancelOrder o.orderID] <+: calls →
          ((after pre).cancelOrder o.orderID).2 = false) → q = 0)) ∧
    tradedOn .buy calls = tradedOn .sell calls ∧
    tradedOn .buy calls = ((after calls).trades.map Trade.quantity).sum := by
  refine ⟨?_, (tradedOn_eq calls hids .buy).trans (tradedOn_eq calls hids .sell).symm,
    tradedOn_eq calls hids .buy⟩
  intro o ho
  obtain ⟨a, ha⟩ := exists_recorded calls hids o.orderID
  obtain ⟨t, rfl, horiginal⟩ := ha.admitted o ho rfl
  have hq := (reachable_after calls).queued
  -- An account has one stage and one remainder, so each way to observe the remainder shows it.
  have hleft : ∀ {stage n}, (Account.admitted t).At stage n → n = t.remaining := fun hat =>
    (Account.at_admitted.mp hat).2.symm
  -- A cancel that succeeds finds the order at rest.
  have hfound : ∀ pre, ((after pre).cancelOrder o.orderID).2 = true →
      ∃ r ∈ (after pre).resting, r.orderID = o.orderID := by
    intro pre hdone
    have hr := reachable_after pre
    rcases cancelOrder_spec hr.queued hr.identified o.orderID with
      ⟨-, hcancel⟩ | ⟨r, s, -, hid, hperm, -, -, -, -⟩
    · rw [hcancel] at hdone
      simp at hdone
    · exact ⟨r, hperm.mem_iff.mpr List.mem_cons_self, hid⟩
  refine ⟨t.remaining, ha.tracks.current, ?_, ?_, ?_, ?_, ?_⟩
  · calc o.quantity = t.original := horiginal.symm
      _ = t.executed + t.remaining := t.conserved
      _ = tradedQuantity o.orderID (after calls).trades + t.remaining := by
        rw [← ha.tracks.executed]
        rfl
  · exact fun r hr hid => hleft ((ha.tracks.at_resting hq r.quantity).mpr ⟨r, hr, hid, rfl⟩)
  · exact fun n hn => hleft ((ha.expired n).mp hn)
  · intro pre hpre hdone
    obtain ⟨r, hr, hid⟩ := hfound pre hdone
    exact ⟨r, hr, hid, hleft ((ha.cancelled r.quantity).mp ⟨pre, hpre, hdone, r, hr, hid, rfl⟩)⟩
  · intro hrest hexpired hcancelled
    apply ha.nothing_left hrest hexpired
    rintro n ⟨pre, hpre, hdone, -⟩
    rw [hcancelled pre hpre] at hdone
    simp at hdone

/-- The buy peg of `quotedCalls`: four of its eight were traded, and four rest. -/
theorem quantity_conserved_quoted : ∃ q,
    8 = tradedQuantity 3 (after quotedCalls).trades + q ∧
      (∀ r ∈ (after quotedCalls).resting, r.orderID = 3 → r.quantity = q) ∧
      tradedQuantity 3 (after quotedCalls).trades = 4 := by
  have h := (quantity_conserved quotedCalls (by decide)).1
    (.built 3 3 .buy 8 Prices.na 1 .gtc 0 .pegMid) (by decide)
  obtain ⟨q, -, hconserved, hrest, -⟩ := h
  exact ⟨q, hconserved, hrest, by decide⟩

end MatchingEngine

end MatchingVenue
