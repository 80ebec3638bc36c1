import MatchingVenue.Engine.Splitting
import MatchingVenue.Market.Protection
import Mathlib.Algebra.Order.BigOperators.Group.List

/-!
# Pegs improve a lit order

A limit order takes the pegs of the other side at the midpoint before it walks the lit book. The
midpoint is no worse for it than any price of the book, and what it takes there it need not take
from the far end of its walk. So it executes at least as much as in the same book without pegs, and
its first units cost it no more, or bring it no less, however many of them are compared
(`pegs_improve`).
-/

namespace MatchingVenue

/-- Units at a price that is no worse than some others may stand before those, and the last of the
others be left out. -/
theorem sum_take_le {a k : ℕ} {p : ℤ} {front more : List ℤ} (hp : ∀ x ∈ front ++ more, p ≤ x)
    (hk : k ≤ (front ++ more).length) (hfront : k - a ≤ front.length) :
    ((List.replicate a p ++ front).take k).sum ≤ ((front ++ more).take k).sum := by
  have hsplit : k = (k - a) + min k a := by omega
  have hrest : (((front ++ more).drop (k - a)).take (min k a)).length = min k a := by
    rw [List.length_take, List.length_drop]
    omega
  have hle := List.card_nsmul_le_sum (((front ++ more).drop (k - a)).take (min k a)) p
    fun x hx => hp x (List.mem_of_mem_drop (List.mem_of_mem_take hx))
  rw [hrest] at hle
  calc ((List.replicate a p ++ front).take k).sum
      = min k a • p + (front.take (k - a)).sum := by
        rw [List.take_append, List.take_replicate, List.length_replicate, List.sum_append,
          List.sum_replicate]
    _ ≤ (front.take (k - a)).sum + (((front ++ more).drop (k - a)).take (min k a)).sum := by omega
    _ = ((front ++ more).take k).sum := by
        conv_rhs => rw [hsplit, List.take_add, List.sum_append,
          List.take_append_of_le_length hfront]

/-- The same for either side. -/
theorem sum_take_noWorse {side : Side} {a k : ℕ} {p : ℤ} {front more : List ℤ}
    (hp : ∀ x ∈ front ++ more, NoWorse side p x) (hk : k ≤ (front ++ more).length)
    (hfront : k - a ≤ front.length) :
    NoWorse side ((List.replicate a p ++ front).take k).sum ((front ++ more).take k).sum := by
  cases side with
  | buy => exact sum_take_le hp hk hfront
  | sell =>
    -- What a sell receives is what a buy pays with the signs the other way.
    have hneg : ((List.replicate a (-p) ++ front.map Neg.neg).take k).sum ≤
        ((front.map Neg.neg ++ more.map Neg.neg).take k).sum := by
      apply sum_take_le
      · intro x hx
        rw [← List.map_append] at hx
        obtain ⟨y, hy, rfl⟩ := List.mem_map.mp hx
        exact neg_le_neg (hp y hy)
      · rwa [← List.map_append, List.length_map]
      · rwa [List.length_map]
    rw [← List.map_replicate, ← List.map_append, ← List.map_append, ← List.map_take,
      ← List.map_take, ← List.sum_neg, ← List.sum_neg] at hneg
    exact neg_le_neg_iff.mp hneg

namespace MatchingEngine

/-- The engine with both peg pools empty. -/
def withoutPegs (s : MatchingEngine) : MatchingEngine := { s with pegBids := [], pegAsks := [] }

/-- The price of each unit that some executions exchange, in order. -/
def unitPrices (executions : List ((ℤ × ℤ) × ℕ)) : List ℤ := (units executions).map Prod.snd

/-- For an order of a side, some unit prices are at least as good as others: there are at least as
many, and the first ones sum up to no worse, however many of them. -/
def AtLeastAsGood (side : Side) (prices others : List ℤ) : Prop :=
  others.length ≤ prices.length ∧ ∀ k ≤ others.length,
    NoWorse side (prices.take k).sum (others.take k).sum

/-- Units at a price that is no worse than the others, before the first of those. -/
theorem atLeastAsGood_of_front {side : Side} {a : ℕ} {p : ℤ} {front more : List ℤ}
    (hp : a ≠ 0 → ∀ x ∈ front ++ more, NoWorse side p x) (hmore : more.length ≤ a) :
    AtLeastAsGood side (List.replicate a p ++ front) (front ++ more) := by
  rcases Nat.eq_zero_or_pos a with rfl | hpos
  · obtain rfl := List.length_eq_zero_iff.mp (Nat.le_zero.mp hmore)
    rw [List.append_nil]
    exact ⟨le_rfl, fun k _ => .refl side _⟩
  refine ⟨by simp; omega, fun k hk => sum_take_noWorse (hp hpos.ne') hk ?_⟩
  rw [List.length_append] at hk
  omega

/-! ## The meals in the two engines -/

/-- A fill at the best level of one book is the same in two engines that have the book. -/
theorem book_settleLit_congr {u v : MatchingEngine} {side : Side} (h : v.book side = u.book side)
    (r : RestingOrder) (behind : List RestingOrder) :
    (v.settleLit side r behind).book side = (u.settleLit side r behind).book side := by
  unfold settleLit
  split_ifs <;> simp [h]

/-- What the lit book gives goes by its opposite side alone. -/
theorem meal_litBites_congr {side : Side} {limit : ℤ} {n r : ℕ} {u v : MatchingEngine}
    {l : List ((ℤ × ℤ) × ℕ)} (h : Meal (litBites side limit) n u l r v) {u' : MatchingEngine}
    (hbook : u'.book side.opposite = u.book side.opposite) :
    ∃ v', Meal (litBites side limit) n u' l r v' := by
  induction h generalizing u' with
  | done hnone =>
    refine ⟨u', .done (Option.eq_none_iff_forall_ne_some.mpr ?_)⟩
    rintro ⟨k, m, t⟩ hbite
    obtain ⟨price, r, behind, levels, hentries, hvisible, hm, hmin, hpos, -, -⟩ :=
      litBite_eq_some.mp hbite
    rw [hbook] at hentries
    rw [show (litBites side limit).bite _ _ = _ from
      litBite_eq_some.mpr ⟨price, r, behind, levels, hentries, hvisible, hm, hmin, hpos, rfl, rfl⟩]
        at hnone
    exact absurd hnone nofun
  | bite hbite _ ih =>
    obtain ⟨price, r, behind, levels, hentries, hvisible, hm, hmin, hpos, rfl, rfl⟩ :=
      litBite_eq_some.mp hbite
    obtain ⟨v', hmeal⟩ := ih (book_settleLit_congr hbook _ _)
    rw [← hbook] at hentries
    have hbite := litBite_eq_some.mpr ⟨price, r, behind, levels, hentries, hvisible, hm, hmin,
      hpos, rfl, rfl⟩
    exact ⟨v', .bite hbite hmeal⟩

/-- The lit book gives at the prices of its levels. -/
theorem meal_litBites_price {side : Side} {limit : ℤ} {n r : ℕ} {u v : MatchingEngine}
    {l : List ((ℤ × ℤ) × ℕ)} (h : Meal (litBites side limit) n u l r v) :
    ∀ x ∈ l, x.1.2 ∈ (u.book side.opposite).keys := by
  induction h with
  | done => exact fun x hx => absurd hx List.not_mem_nil
  | bite hbite _ ih =>
    obtain ⟨price, r, behind, levels, hentries, -, -, -, -, rfl, rfl⟩ := litBite_eq_some.mp hbite
    rw [List.forall_mem_cons]
    refine ⟨SortedMap.mem_keys.mpr ⟨_, by rw [hentries]; exact List.mem_cons_self⟩, fun x hx => ?_⟩
    have hkey := ih x hx
    rw [SortedMap.keys, entries_settleLit _ _ _ _ hentries] at hkey
    rw [SortedMap.keys, hentries]
    split_ifs at hkey
    · exact List.mem_cons_of_mem _ hkey
    · exact hkey

/-- A pool gives at the midpoint. -/
theorem meal_midBites_price {s u v : MatchingEngine} {o : Order} {n r : ℕ} {l : List ((ℤ × ℤ) × ℕ)}
    (h : Meal (s.midBites o) n u l r v) : ∀ x ∈ l, x.1.2 = s.mid := by
  induction h with
  | done => exact fun x hx => absurd hx List.not_mem_nil
  | bite hbite _ ih =>
    unfold midBites at hbite
    split_ifs at hbite
    · obtain ⟨r, behind, -, -, -, rfl, rfl⟩ := poolBite_eq_some.mp hbite
      exact List.forall_mem_cons.mpr ⟨rfl, ih⟩
    · exact absurd hbite nofun

/-! ## The comparison -/

/-- Where the sum of the best prices is a `long`, the midpoint is no worse for an order than any
level of the other side. -/
theorem mid_noWorse_of_fit {s : MatchingEngine} (h : s.Reachable)
    (hfit : s.getBestBid + s.getBestAsk ≤ longMax) (hmid : s.mid ≠ Prices.na) (side : Side) :
    ∀ key ∈ (s.book side.opposite).keys, NoWorse side s.mid key := by
  have hq := h.queued
  rw [ne_eq, hq.mid_eq_na_iff, not_or] at hmid
  obtain ⟨hbids, hasks⟩ := hmid
  obtain ⟨-, -, hbelow, habove⟩ := (h.trueMid_iff hbids hasks).mpr hfit
  intro key hkey
  cases side with
  | buy =>
    obtain ⟨⟨ask, queue⟩, levels, hlevels⟩ := List.exists_cons_of_ne_nil hasks
    rw [getBestAsk_eq hlevels] at habove
    exact le_trans habove.le (@noWorse_of_first s .buy _ _ _ hlevels key hkey)
  | sell =>
    obtain ⟨⟨bid, queue⟩, levels, hlevels⟩ := List.exists_cons_of_ne_nil hbids
    rw [getBestBid_eq hlevels] at hbelow
    exact le_trans (@noWorse_of_first s .sell _ _ _ hlevels key hkey) hbelow.le

/-- Without the pegs the books are the same. -/
theorem book_withoutPegs (s : MatchingEngine) (x : Side) : s.withoutPegs.book x = s.book x := by
  cases x <;> rfl

/-- Without the pegs the pools are empty. -/
theorem pool_withoutPegs (s : MatchingEngine) (x : Side) : s.withoutPegs.pool x = [] := by
  cases x <;> rfl

/-- Without the pegs a well-formed engine is well formed. -/
theorem Queued.withoutPegs {s : MatchingEngine} (h : s.Queued) : s.withoutPegs.Queued := by
  constructor
  · intro side
    rw [book_withoutPegs]
    exact h.level side
  · intro side r hr
    rw [pool_withoutPegs] at hr
    exact absurd hr List.not_mem_nil

/-- Where the sum of the best prices is below `2^63`, an immediate-or-cancel limit order executes at
least as much as it would in the same engine without pegs, and its first units cost it no more, or
bring it no less, than they would there, however many of them. -/
theorem pegs_improve {s : MatchingEngine} (h : s.Reachable)
    (hfit : s.getBestBid + s.getBestAsk < 2^63) {o : Order} (ho : o.Constructed)
    (htype : o.ordType = .limit) (htif : o.tif = .ioc) :
    ∃ t t₀, s.addOrder o = .ok t ∧ s.withoutPegs.addOrder o = .ok t₀ ∧
      AtLeastAsGood o.side (unitPrices (executionsSince t s))
      (unitPrices (executionsSince t₀ s.withoutPegs)) := by
  have hq := h.queued
  obtain ⟨t, hadd⟩ := h.addOrder_total ho
  obtain ⟨t₀, hadd₀⟩ := hq.withoutPegs.addOrder_total ho.valid.1
  refine ⟨t, t₀, hadd, hadd₀, ?_⟩
  obtain ⟨l, r, v, l', e, w, hpool, hlit, -, hexec, -⟩ :=
    addOrder_sent hq h.settled htif hadd s (.refl s)
  obtain ⟨l₀, r₀, v₀, l₀', e₀, w₀, hpool₀, hlit₀, -, hexec₀, -⟩ :=
    addOrder_sent hq.withoutPegs (fun _ _ => .inl rfl) htif hadd₀ s.withoutPegs (.refl _)
  rw [restBites, htype] at hlit hlit₀
  obtain ⟨rfl, rfl, rfl⟩ := hpool₀.of_none (midBites_of_empty (pool_withoutPegs s _) _)
  -- The walk with pegs is the first part of the walk without.
  have hbook : s.withoutPegs.book o.side.opposite = v.book o.side.opposite := by
    rw [book_withoutPegs, meal_midBites_book hpool]
  obtain ⟨v', hlit'⟩ := meal_litBites_congr hlit hbook
  have hlength := hpool.length_units
  obtain ⟨more, hunits, hmore⟩ := hlit'.units_le hlit₀ (by omega)
  have hfront : unitPrices l = List.replicate (o.quantity - r) s.mid := by
    refine List.eq_replicate_iff.mpr ⟨?_, fun x hx => ?_⟩
    · rw [unitPrices, List.length_map]
      omega
    · obtain ⟨key, hkey, rfl⟩ := List.mem_map.mp hx
      obtain ⟨y, hy, rfl⟩ := mem_of_mem_units hkey
      exact meal_midBites_price hpool y hy
  have hprices : unitPrices (executionsSince t s) = List.replicate (o.quantity - r) s.mid ++
      unitPrices l' := by
    rw [hexec, unitPrices, units_append, List.map_append]
    exact congrArg (· ++ unitPrices l') hfront
  have hothers : unitPrices (executionsSince t₀ s.withoutPegs) =
      unitPrices l' ++ more.map Prod.snd := by
    rw [hexec₀, List.nil_append, unitPrices, hunits, List.map_append]
    rfl
  rw [hprices, hothers]
  refine atLeastAsGood_of_front ?_ (by rwa [List.length_map])
  intro htaken x hx
  have hmid : s.mid ≠ Prices.na := by
    by_contra hna
    rw [midBites_of_not_reaches fun hreaches => hreaches.1 hna] at hpool
    obtain ⟨-, rfl, -⟩ := hpool.of_none rfl
    exact htaken (Nat.sub_self _)
  apply mid_noWorse_of_fit h (by unfold longMax; omega) hmid
  rw [← hothers, hexec₀, List.nil_append] at hx
  obtain ⟨key, hkey, rfl⟩ := List.mem_map.mp hx
  obtain ⟨y, hy, rfl⟩ := mem_of_mem_units hkey
  rw [← book_withoutPegs]
  exact meal_litBites_price hlit₀ y hy

/-- A sell of 20 takes the bid peg of `quotedCalls` first. -/
theorem pegs_improve_quoted : ∃ t t₀,
    (after quotedCalls).addOrder (.built 5 5 .sell 20 10000 1 .ioc 0 .limit) = .ok t ∧
      (after quotedCalls).withoutPegs.addOrder (.built 5 5 .sell 20 10000 1 .ioc 0 .limit) =
      .ok t₀ ∧
      AtLeastAsGood .sell (unitPrices (executionsSince t (after quotedCalls)))
        (unitPrices (executionsSince t₀ (after quotedCalls).withoutPegs)) :=
  pegs_improve (reachable_after quotedCalls) (by decide)
    ⟨5, 5, some .sell, 20, 10000, 1, some .ioc, 0, some .limit, rfl⟩ rfl rfl

end MatchingEngine

end MatchingVenue
