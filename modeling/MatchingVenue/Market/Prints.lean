import MatchingVenue.Engine.Mirror
import MatchingVenue.Market.Protection

/-!
# The prices of the trades

A trade is at the price of a resting limit order or at the midpoint of two of them. Where no limit
price is beyond `2^62`, both are positive prices below the same bound (`trades_priced`), so that no
print is taken for the sentinel of a missing price.
-/

namespace MatchingVenue.MatchingEngine

variable {C : ℤ} {s t : MatchingEngine}

/-- A price between zero and a bound. -/
def Within (C price : ℤ) : Prop := 0 < price ∧ price < C

/-- A midpoint is between the limit prices that it is the mean of. -/
theorem Queued.mid_within (hq : s.Queued) (hbelow : s.Below C) (hC : C ≤ 2^62)
    (hmid : s.mid ≠ Prices.na) :
    Within C s.mid := by
  rcases hq.mid_cases hbelow hC with ⟨-, hna⟩
    | ⟨bid, ask, -, -, hbid, hbidC, -, hask, haskC, -, hmean⟩
  · exact absurd hna hmid
  · unfold Within
    omega

/-- A resting limit order has a price within the bound. -/
theorem Queued.price_within (hq : s.Queued) (hbelow : s.Below C) {r : RestingOrder}
    (hr : r ∈ s.resting) (htype : r.ordType = .limit) : Within C r.price := by
  obtain ⟨queue, hlevel, -⟩ := hq.mem_level hr htype
  exact ⟨(hq.level_price _ _ hlevel).1, hbelow r hr htype⟩

/-- An order comes to its end without a trade. -/
theorem Step.trades_end {o : Order} (h : Step (some o, s) (none, t)) : t.trades = s.trades := by
  cases h with
  | rest _ _ _ _ _ _ hlogs => exact hlogs.trades.trans (List.append_nil _)
  | expire _ _ _ _ hlogs => exact hlogs.trades.trans (List.append_nil _)
  | finish _ _ hlogs => exact hlogs.trades.trans (List.append_nil _)

/-- What was traded since an earlier state is priced, and so is what had been traded then. -/
theorem priced_append {prints : List Trade} (htrades : t.trades = s.trades ++ prints)
    (hs : ∀ trade ∈ s.trades, Within C trade.price)
    (hprints : ∀ trade ∈ prints, Within C trade.price) :
    ∀ trade ∈ t.trades, Within C trade.price := by
  rw [htrades]
  exact List.forall_mem_append.mpr ⟨hs, hprints⟩

section Admission

variable {orders : List Order} {o : Order}

/-- An admission trades within the bound on the limit prices. -/
theorem priced_addOrder (hq : s.Queued) (hstems : s.Stemmed orders)
    (hprices : ∀ o ∈ orders, o.ordType = .limit → o.price < C) (hC : C ≤ 2^62) (ho : o ∈ orders)
    (hv : o.Valid) (hadd : s.addOrder o = .ok t) (hs : ∀ trade ∈ s.trades, Within C trade.price) :
    ∀ trade ∈ t.trades, Within C trade.price := by
  have hincoming : ∀ a ∈ some o, Stems orders a := fun a ha => Option.mem_some.mp ha ▸ .of_mem ho
  have hbelow := hstems.below hprices
  rcases addOrder_cases hadd with ⟨-, -, rfl⟩ | ⟨-, o₁, s₁, hpeg, hrest⟩
  · exact hs
  -- The peg step trades at the midpoint that it finds.
  have hq₁ := hq.pegStep hpeg
  have hsteps₁ := pegStep_steps hq hpeg
  have hstems₁ := Steps.stemmed hsteps₁ ⟨hincoming, hstems⟩
  obtain ⟨pegs, htaking⟩ := pegStep_taking hq hpeg
  have hpegs : ∀ trade ∈ pegs, Within C trade.price := by
    intro trade htrade
    have hsince : trade ∈ s₁.tradesSince s := by
      rw [tradesSince_eq htaking.trades]
      exact htrade
    obtain ⟨hprice, hmid⟩ := pegStep_price hpeg trade hsince
    rw [hprice]
    exact hq.mid_within hbelow hC hmid
  have hs₁ := priced_append htaking.trades hs hpegs
  rcases hrest with ⟨-, rfl⟩ | ⟨htype, o₂, s₂, hlit, hcross⟩
  · rw [(disposePeg_step s₁ o₁).trades_end]
    exact hs₁
  -- The lit walk trades at limit prices of resting orders.
  have hfrom := pegStep_filledFrom hpeg
  rw [← hfrom.side] at hlit
  obtain ⟨lits, hwalk, -⟩ := matchLit_taking hq₁ hlit
  have hlits : ∀ trade ∈ lits, Within C trade.price := by
    intro trade htrade
    obtain ⟨r, hr, ⟨hlimit, hprice⟩, -⟩ := hwalk.own trade htrade
    rw [hprice]
    exact hq₁.price_within (hstems₁.2.below hprices) hr hlimit
  have hs₂ := priced_append hwalk.trades hs₁ hlits
  -- The pool cross trades at the midpoint behind the end of the order.
  have hfrom₂ := hfrom.trans (matchLit_filledFrom hlit)
  have hdispose := disposeLit_step s₂ o₂
  have hq₂ := (hq₁.matchLit hlit).disposeLit (hfrom₂.valid hv) (hfrom₂.ordType.trans htype)
  have hstems₂ := Steps.stemmed ((matchLit_steps hq₁ hlit).trans (.single hdispose)) hstems₁
  have hs₃ : ∀ trade ∈ (s₂.disposeLit o₂).trades, Within C trade.price := by
    rw [hdispose.trades_end]
    exact hs₂
  obtain ⟨prints, htrades, -⟩ := crossPegPools_pegs hcross
  refine priced_append htrades hs₃ fun trade htrade => ?_
  have hsince : trade ∈ t.tradesSince (s₂.disposeLit o₂) := by
    rw [tradesSince_eq htrades]
    exact htrade
  obtain ⟨hprice, hmid⟩ := crossPegPools_price hcross trade hsince
  rw [hprice]
  exact hq₂.mid_within (hstems₂.2.below hprices) hC hmid

end Admission

/-- More orders to stem from. -/
theorem Stemmed.mono {orders orders' : List Order} (h : s.Stemmed orders)
    (hsub : orders ⊆ orders') :
    s.Stemmed orders' := fun r hr => by
  obtain ⟨o, ho, hsame⟩ := h r hr
  exact ⟨o, hsub ho, hsame⟩

/-- The orders that were added before a call were added. -/
theorem added_subset (pre : List Call) (c : Call) : added pre ⊆ added (pre ++ [c]) := by
  rw [added, added, List.filterMap_append]
  exact List.subset_append_left _ _

/-- What fills and fresh slices keep of an order holds of all that rests after a run, where it holds
of its orders. -/
theorem keeps_after {P : Order → Prop} (hfill : ∀ o m, P o → P (o.filled m))
    (hrefresh : ∀ o, P o → P o.refreshDisplay) (calls : List Call)
    (horders : ∀ o ∈ added calls, P o) : ∀ r ∈ (after calls).resting, P r.toOrder := by
  induction calls using List.reverseRecOn with
  | nil => exact fun r hr => absurd hr List.not_mem_nil
  | append_singleton pre c ih =>
    have hr := reachable_after pre
    have hcall := call_after pre c
    have hpre := ih fun o ho => horders o (added_subset pre c ho)
    cases c with
    | addOrder o =>
      obtain ⟨hv, hpos⟩ := o.2.valid
      have ho : o.1 ∈ added (pre ++ [.addOrder o]) :=
        List.mem_filterMap.mpr ⟨.addOrder o, by simp, rfl⟩
      have hincoming : ∀ a ∈ some o.1, P a := fun a ha => Option.mem_some.mp ha ▸ horders _ ho
      exact (Steps.keeps hfill hrefresh (addOrder_steps hr.queued hv hpos hcall)
        ⟨hincoming, hpre⟩).2
    | cancelOrder orderID =>
      rw [← Except.ok.inj hcall]
      rcases cancelOrder_spec hr.queued hr.identified orderID
        with ⟨-, hnone⟩ | ⟨r, t, -, -, hperm, hsome, -⟩
      · rw [hnone]
        exact hpre
      · rw [hsome]
        exact fun x hx => hpre x (hperm.mem_iff.mpr (List.mem_cons_of_mem _ hx))

/-- What rests after a run has come in with it. -/
theorem stemmed_after (calls : List Call) : (after calls).Stemmed (added calls) :=
  keeps_after (fun _ _ h => h) (fun _ h => h) calls fun _ ho => .of_mem ho

/-- In a run whose limit prices are below a bound of at most `2^62`, every trade has a positive
price below it. -/
theorem trades_priced (calls : List Call) (hC : C ≤ 2^62)
    (hprices : ∀ o ∈ added calls, o.ordType = .limit → o.price < C) :
    ∀ trade ∈ (after calls).trades, Within C trade.price := by
  induction calls using List.reverseRecOn with
  | nil => exact fun trade ht => absurd ht List.not_mem_nil
  | append_singleton pre c ih =>
    have hs := ih fun o ho => hprices o (added_subset pre c ho)
    have hr := reachable_after pre
    have hcall := call_after pre c
    cases c with
    | addOrder o =>
      obtain ⟨hv, -⟩ := o.2.valid
      have ho : o.1 ∈ added (pre ++ [.addOrder o]) :=
        List.mem_filterMap.mpr ⟨.addOrder o, by simp, rfl⟩
      have hstems := (stemmed_after pre).mono (added_subset pre (.addOrder o))
      exact priced_addOrder hr.queued hstems hprices hC ho hv hcall hs
    | cancelOrder orderID =>
      rw [← Except.ok.inj hcall]
      rcases cancelOrder_spec hr.queued hr.identified orderID
        with ⟨-, hnone⟩ | ⟨r, t, -, -, -, hsome, hlogs, -⟩
      · rw [hnone]
        exact hs
      · rw [hsome, hlogs.trades, List.append_nil]
        exact hs

end MatchingVenue.MatchingEngine
