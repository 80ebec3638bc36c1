import MatchingVenue.Engine.Representation

/-!
# Runs of the engine

A run is a sequence of calls of `addOrder` and `cancelOrder` on a new engine. The orders of a run
are those that the `Order` constructor returns, so `Call` carries them with the proof. No run throws
(`run_total`), and what holds of the new engine and is kept by both entry points holds of every
state that a run reaches (`Reachable.induction`). The first such fact is the representation of the
book.
-/

namespace MatchingVenue

/-- A call of an entry point of the engine. -/
inductive Call where
  | addOrder (order : { o : Order // o.Constructed })
  | cancelOrder (orderID : ℤ)

/-- The order that a call admits. -/
def Call.added : Call → Option Order
  | .addOrder order => some order.1
  | .cancelOrder _ => none

namespace MatchingEngine

/-- The engine after a call. -/
def call (s : MatchingEngine) : Call → Except Exn MatchingEngine
  | .addOrder order => s.addOrder order.1
  | .cancelOrder orderID => .ok (s.cancelOrder orderID).1

/-- The engine after the calls of a run. -/
def run (calls : List Call) : Except Exn MatchingEngine := calls.foldlM call {}

/-- The orders that a run admits. -/
def added (calls : List Call) : List Order := calls.filterMap Call.added

/-- A last call adds its order, if it has one. -/
theorem added_append (calls : List Call) (c : Call) :
    added (calls ++ [c]) = added calls ++ c.added.toList := by
  rw [added, List.filterMap_append]
  cases c <;> rfl

@[simp]
theorem added_cancelOrder (calls : List Call) (orderID : ℤ) :
    added (calls ++ [.cancelOrder orderID]) = added calls := by
  rw [added_append]
  exact List.append_nil _

/-- The states that runs reach. -/
def Reachable (s : MatchingEngine) : Prop := ∃ calls, run calls = .ok s

/-- The empty engine is reachable. -/
theorem Reachable.empty : Reachable {} := ⟨[], rfl⟩

/-- A call takes a reachable state to a reachable state. -/
theorem Reachable.call {s t : MatchingEngine} (h : s.Reachable) {c : Call} (hc : s.call c = .ok t) :
    t.Reachable := by
  obtain ⟨calls, hrun⟩ := h
  refine ⟨calls ++ [c], foldlM_append_eq_ok.mpr ⟨s, hrun, ?_⟩⟩
  rw [List.foldlM_cons]
  exact bind_eq_ok.mpr ⟨t, hc, rfl⟩

/-- An admission of a constructed order leads to a reachable engine. -/
theorem Reachable.addOrder {s t : MatchingEngine} (h : s.Reachable) {o : Order}
    (ho : o.Constructed) (hadd : s.addOrder o = .ok t) : t.Reachable :=
  h.call (c := .addOrder ⟨o, ho⟩) hadd

/-- A cancel leads to a reachable engine. -/
theorem Reachable.cancelOrder {s : MatchingEngine} (h : s.Reachable) (orderID : ℤ) :
    (s.cancelOrder orderID).1.Reachable :=
  h.call (c := .cancelOrder orderID) rfl

/-- What the new engine satisfies and both entry points keep holds of every reachable state. -/
theorem Reachable.induction {P : MatchingEngine → Prop} (hempty : P {})
    (hadd : ∀ s t o, s.Reachable → P s → o.Constructed → s.addOrder o = .ok t → P t)
    (hcancel : ∀ s orderID, s.Reachable → P s → P (s.cancelOrder orderID).1)
    {s : MatchingEngine} (h : s.Reachable) : P s := by
  obtain ⟨calls, hrun⟩ := h
  -- By induction on the calls, with reachability carried along for the two steps to use.
  refine (foldlM_inv (fun x => x.Reachable ∧ P x) hrun ⟨.empty, hempty⟩ ?_).2
  rintro u c v ⟨hu, hPu⟩ hc
  refine ⟨hu.call hc, ?_⟩
  cases c with
  | addOrder order => exact hadd u v order.1 hu hPu order.2 hc
  | cancelOrder orderID =>
    obtain rfl := Except.ok.inj hc
    exact hcancel u orderID hu hPu

/-- The queues of a reachable state. -/
theorem Reachable.queued {s : MatchingEngine} (h : s.Reachable) : s.Queued :=
  h.induction queued_empty (fun _ _ _ _ hs ho hadd => hs.addOrder ho.valid.1 hadd)
    fun _ orderID _ hs => hs.cancelOrder orderID

/-- An admission to a reachable state returns. -/
theorem Reachable.addOrder_total {s : MatchingEngine} (h : s.Reachable) {o : Order}
    (ho : o.Constructed) : ∃ t, s.addOrder o = .ok t :=
  h.queued.addOrder_total ho.valid.1

/-- No run throws, and each of its loops ends. -/
theorem run_total (calls : List Call) : ∃ s, run calls = .ok s := by
  apply foldlM_total Queued queued_empty
  intro s c hs
  cases c with
  | addOrder order =>
    obtain ⟨t, ht⟩ := hs.addOrder_total order.2.valid.1
    exact ⟨t, ht, hs.addOrder order.2.valid.1 ht⟩
  | cancelOrder orderID => exact ⟨_, rfl, hs.cancelOrder orderID⟩

/-- The state that a run reaches. The second branch is never taken (`run_eq_after`). -/
def after (calls : List Call) : MatchingEngine :=
  match run calls with
  | .ok s => s
  | .error _ => {}

/-- A run of calls returns the engine after them. -/
theorem run_eq_after (calls : List Call) : run calls = .ok (after calls) := by
  obtain ⟨s, hs⟩ := run_total calls
  rw [after, hs]

/-- The engine after some calls is reachable. -/
theorem reachable_after (calls : List Call) : (after calls).Reachable := ⟨calls, run_eq_after calls⟩

/-- One more call takes a run on from the state that it reached. -/
theorem call_after (calls : List Call) (c : Call) :
    (after calls).call c = .ok (after (calls ++ [c])) := by
  obtain ⟨s, hs, hc⟩ := foldlM_append_eq_ok.mp (run_eq_after (calls ++ [c]))
  -- The run over all calls is the run over the first ones and the last call from there.
  obtain rfl := Except.ok.inj ((run_eq_after calls).symm.trans hs)
  rw [List.foldlM_cons] at hc
  obtain ⟨t, ht, hnil⟩ := bind_eq_ok.mp hc
  rw [ht, ← Except.ok.inj hnil]

/-- Adding an order returns the engine after the call. -/
theorem addOrder_after (calls : List Call) (order : { o : Order // o.Constructed }) :
    (after calls).addOrder order.1 = .ok (after (calls ++ [.addOrder order])) :=
  call_after calls (.addOrder order)

/-- A cancel leads to the engine after the call. -/
theorem cancelOrder_after (calls : List Call) (orderID : ℤ) :
    ((after calls).cancelOrder orderID).1 = after (calls ++ [.cancelOrder orderID]) :=
  Except.ok.inj (call_after calls (.cancelOrder orderID))

/-- The price of a level is positive and on the tick. -/
theorem Queued.level_price {s : MatchingEngine} (h : s.Queued) (side : Side)
    (level : ℤ × List RestingOrder) (hlevel : level ∈ (s.book side).entries) :
    0 < level.1 ∧ level.1 % 100 = 0 := by
  obtain ⟨hne, hrests⟩ := h.level side level hlevel
  obtain ⟨r, hr⟩ := List.exists_mem_of_ne_nil _ hne
  have hat := hrests r hr
  exact hat.price_eq ▸ hat.valid.limit_price hat.ordType_eq

/-- What the queues of a reachable state hold: at each level a non-empty queue of limit orders of
the side and price of the level, a positive multiple of 100; in each pool pegs of its side without a
price; and everywhere good-til-cancelled orders that have something left and show between one unit
and all of it, the whole of a plain order and at most the peak of an iceberg. -/
theorem representation_invariant {s : MatchingEngine} (h : s.Reachable) :
    (∀ side, ∀ level ∈ (s.book side).entries, level.2 ≠ [] ∧ 0 < level.1 ∧ level.1 % 100 = 0 ∧
      ∀ r ∈ level.2, r.side = side ∧ r.ordType = .limit ∧ r.price = level.1) ∧
    (∀ side, ∀ r ∈ s.pool side, r.side = side ∧ r.ordType = .pegMid ∧ r.price = Prices.na) ∧
    ∀ r ∈ s.resting, r.tif = .gtc ∧ 0 < r.quantity ∧ 1 ≤ r.visibleQty ∧ r.visibleQty ≤ r.quantity ∧
      (r.peak = 0 → r.visibleQty = r.quantity) ∧ (r.peak ≠ 0 → r.visibleQty ≤ r.peak) := by
  have hq := h.queued
  refine ⟨?_, ?_, ?_⟩
  · intro side level hlevel
    obtain ⟨hne, hrests⟩ := hq.level side level hlevel
    obtain ⟨hpos, htick⟩ := hq.level_price side level hlevel
    refine ⟨hne, hpos, htick, ?_⟩
    intro r hr
    -- The key of a level is the price of each order at it.
    have hat := hrests r hr
    exact ⟨hat.side_eq, hat.ordType_eq, hat.price_eq⟩
  · intro side r hr
    have hin := hq.pool side r hr
    exact ⟨hin.side_eq, hin.ordType_eq, (hin.valid.peg_price hin.ordType_eq).1⟩
  · intro r hr
    have hrests := hq.rests hr
    exact ⟨hrests.tif, hrests.quantity_pos, hrests.visible_pos, hrests.valid.visible_le,
      hrests.valid.plain_visible,
      fun hpeak => (hrests.valid.iceberg_visible (Nat.pos_of_ne_zero hpeak)).1⟩

/-- A run in which an iceberg bid and an ask come to rest, and then a peg on each side: the sell peg
fills half of the buy peg. -/
def quotedCalls : List Call :=
  [.addOrder ⟨.built 1 1 .buy 30 10000 1 .gtc 10 .limit,
    1, 1, some .buy, 30, 10000, 1, some .gtc, 10, some .limit, rfl⟩,
   .addOrder ⟨.built 2 2 .sell 20 10200 1 .gtc 0 .limit,
    2, 2, some .sell, 20, 10200, 1, some .gtc, 0, some .limit, rfl⟩,
   .addOrder ⟨.built 3 3 .buy 8 Prices.na 1 .gtc 0 .pegMid,
    3, 3, some .buy, 8, Prices.na, 1, some .gtc, 0, some .pegMid, rfl⟩,
   .addOrder ⟨.built 4 4 .sell 4 Prices.na 1 .gtc 0 .pegMid,
    4, 4, some .sell, 4, Prices.na, 1, some .gtc, 0, some .pegMid, rfl⟩]

/-- The iceberg bid of `quotedCalls` as it rests. -/
theorem representation_invariant_quoted :
    ∃ r ∈ (after quotedCalls).resting, r.peak = 10 ∧ 1 ≤ r.visibleQty ∧ r.visibleQty ≤ r.peak := by
  have h := representation_invariant (reachable_after quotedCalls)
  let r : RestingOrder := { Order.built 1 1 .buy 30 10000 1 .gtc 10 .limit with ref := 0 }
  have hr : r ∈ (after quotedCalls).resting := by decide
  obtain ⟨-, -, hvis, -, -, hpeak⟩ := h.2.2 r hr
  exact ⟨r, hr, rfl, hvis, hpeak (by decide)⟩

end MatchingEngine

end MatchingVenue
