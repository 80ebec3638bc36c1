import MatchingVenue.Engine.Crossing
import MatchingVenue.Engine.Registry
import MatchingVenue.Engine.Collisions
import MatchingVenue.Library.Greedy

/-!
# Price-time priority

Orders come to rest in an order: the reference of a resting order is the number of orders that came
to rest before it, and so the place of its acknowledgement among those of the run
(`Reachable.accepted`). In the queue of a level the plain orders stand in that order (`Ranked`),
whatever icebergs do between them.

Where no iceberg rests, the book of a side is then one line, sorted by price and time, and the lit
walk takes from the front of it what it needs (`price_time_priority`).
-/

namespace MatchingVenue

/-- Whether a callback acknowledges an order that came to rest. -/
def Callback.isAcceptance : Callback → Bool
  | .onAccepted _ _ _ => true
  | _ => false

namespace MatchingEngine

/-! ## The time of an order -/

/-- The acknowledgements of the run, in their order. -/
def acceptances (s : MatchingEngine) : List Callback :=
  s.executionListener.filter Callback.isAcceptance

/-- Each reference was given to one acknowledged order, and a resting order is the one that was
acknowledged when its reference was given. -/
def Accepted (s : MatchingEngine) : Prop :=
  s.acceptances.length = s.nextRef ∧
    ∀ r ∈ s.resting, ∃ quantity, s.acceptances[r.ref]? =
    some (.onAccepted r.orderID r.price quantity)

/-- Callbacks that acknowledge nothing leave the acknowledgements as they are. -/
theorem acceptances_append {s s' : MatchingEngine} {callbacks : List Callback}
    (h : s'.executionListener = s.executionListener ++ callbacks) :
    s'.acceptances = s.acceptances ++ callbacks.filter Callback.isAcceptance := by
  rw [acceptances, h, List.filter_append]
  rfl

/-- A step keeps which acknowledgement each reference has. -/
theorem Step.accepted {x y : Option Order × MatchingEngine} (h : Step x y)
    (ha : x.2.Accepted) : y.2.Accepted := by
  -- Where nothing comes to rest, each order that rests afterwards is one that rested before.
  have hkeep : ∀ {s s' : MatchingEngine}, s.Accepted → s'.acceptances = s.acceptances →
      s'.nextRef = s.nextRef →
      (∀ r' ∈ s'.resting, ∃ r ∈ s.resting, r'.ref = r.ref ∧ r'.orderID = r.orderID ∧
        r'.price = r.price) →
      s'.Accepted := by
    rintro s s' ⟨hcount, hrests⟩ hsame href hfrom
    refine ⟨by rw [hsame, hcount, href], fun r' hr' => ?_⟩
    obtain ⟨r, hr, hr₁, hr₂, hr₃⟩ := hfrom r' hr'
    rw [hsame, hr₁, hr₂, hr₃]
    exact hrests r hr
  cases h with
  | hit r r' others price m hrest hrest' hr' _ _ _ hlogs _ href =>
    refine hkeep ha ?_ href fun x hx => ?_
    · rw [acceptances_append hlogs.executionListener]
      exact List.append_nil _
    · rcases List.mem_append.mp (hrest'.mem_iff.mp hx) with hx | hx
      · obtain ⟨-, rfl⟩ := mem_kept.mp hx
        refine ⟨r, hrest.mem_iff.mpr List.mem_cons_self, ?_⟩
        rcases hr' with rfl | rfl
        · exact ⟨rfl, rfl, rfl⟩
        · exact ⟨rfl, rfl, rfl⟩
      · exact ⟨x, hrest.mem_iff.mpr (List.mem_cons_of_mem _ hx), rfl, rfl, rfl⟩
  | cross bid ask others price m hrest hrest' _ _ _ hlogs _ href =>
    refine hkeep ha ?_ href fun x hx => ?_
    · rw [acceptances_append hlogs.executionListener]
      exact List.append_nil _
    · have hold : ∀ z ∈ bid :: ask :: others, z ∈ _ := fun z hz => hrest.mem_iff.mpr hz
      rcases List.mem_append.mp (hrest'.mem_iff.mp hx) with hx | hx
      · obtain ⟨-, rfl⟩ := mem_kept.mp hx
        exact ⟨bid, hold bid List.mem_cons_self, rfl, rfl, rfl⟩
      rcases List.mem_append.mp hx with hx | hx
      · obtain ⟨-, rfl⟩ := mem_kept.mp hx
        exact ⟨ask, hold ask (List.mem_cons_of_mem _ List.mem_cons_self), rfl, rfl, rfl⟩
      · exact ⟨x, hold x (List.mem_cons_of_mem _ (List.mem_cons_of_mem _ hx)), rfl, rfl, rfl⟩
  | @rest o s s' r _ _ hrest href hr hlogs _ hnext =>
    obtain ⟨hcount, hrests⟩ := ha
    have hsame : s'.acceptances = s.acceptances ++ [.onAccepted o.orderID o.price o.quantity] :=
      acceptances_append hlogs.executionListener
    refine ⟨?_, fun x hx => ?_⟩
    · simp only at hcount hnext ⊢
      rw [hsame, List.length_append, hcount, hnext]
      rfl
    · simp only at hcount hrests hsame ⊢
      rw [hsame]
      rcases List.mem_cons.mp (hrest.mem_iff.mp hx) with rfl | hx
      · have hid : x.orderID = o.orderID ∧ x.price = o.price := by
          rcases hr with hr | hr
          · rw [hr]
            exact ⟨rfl, rfl⟩
          · rw [hr]
            exact ⟨rfl, rfl⟩
        refine ⟨o.quantity, ?_⟩
        rw [href, ← hcount, List.getElem?_concat_length, hid.1, hid.2]
      · obtain ⟨quantity, hget⟩ := hrests x hx
        exact ⟨quantity, List.getElem?_append_left (List.getElem?_eq_some_iff.mp hget).1 ▸ hget⟩
  | expire _ _ hrest _ hlogs _ href =>
    refine hkeep ha ?_ href fun x hx => ⟨x, hrest ▸ hx, rfl, rfl, rfl⟩
    rw [acceptances_append hlogs.executionListener]
    exact List.append_nil _
  | finish _ hrest hlogs _ href =>
    refine hkeep ha ?_ href fun x hx => ⟨x, hrest ▸ hx, rfl, rfl, rfl⟩
    rw [acceptances_append hlogs.executionListener]
    exact List.append_nil _

/-- The references of a reachable state are places among the acknowledgements of the run. -/
theorem Reachable.accepted {s : MatchingEngine} (h : s.Reachable) : s.Accepted := by
  refine h.step_induction ⟨rfl, fun r hr => absurd hr (List.not_mem_nil)⟩
    (fun _ _ ha hstep => hstep.accepted ha) ?_
  intro s orderID hs ha
  rcases cancelOrder_spec hs.queued hs.identified orderID with ⟨-, hcancel⟩ |
    ⟨r, t, -, -, hperm, hcancel, hlogs, -, href⟩
  · rw [hcancel]
    exact ha
  · rw [hcancel]
    have hsame : t.acceptances = s.acceptances :=
      (acceptances_append hlogs.executionListener).trans (List.append_nil _)
    refine ⟨by rw [hsame, href]; exact ha.1, fun x hx => ?_⟩
    rw [hsame]
    exact ha.2 x (hperm.mem_iff.mpr (List.mem_cons_of_mem _ hx))

/-! ## The plain orders of a level -/

/-- Whether an order is no iceberg. -/
def plain (r : RestingOrder) : Bool := r.peak = 0

/-- An order is plain where it has no peak. -/
theorem plain_iff {r : RestingOrder} : plain r = true ↔ r.peak = 0 := decide_eq_true_iff

/-- The orders of a level are older than the next one, and the plain ones stand in the order of
their references. -/
def RankedLevel (nextRef : Ref) (queue : List RestingOrder) : Prop :=
  (∀ r ∈ queue, r.ref < nextRef) ∧ (queue.filter plain).Pairwise fun a b => a.ref < b.ref

/-- The plain orders of every level stand in the order of their references. -/
def Ranked (s : MatchingEngine) : Prop :=
  ∀ side, ∀ level ∈ (s.book side).entries, RankedLevel s.nextRef level.2

/-- A level stays ranked where newer references are given out. -/
theorem RankedLevel.mono {nextRef nextRef' : Ref} {queue : List RestingOrder}
    (h : RankedLevel nextRef queue) (hle : nextRef ≤ nextRef') : RankedLevel nextRef' queue :=
  ⟨fun r hr => Nat.lt_of_lt_of_le (h.1 r hr) hle, h.2⟩

/-- A part of a ranked queue is ranked. -/
theorem RankedLevel.sublist {nextRef : Ref} {queue queue' : List RestingOrder}
    (h : RankedLevel nextRef queue) (hsub : queue'.Sublist queue) : RankedLevel nextRef queue' :=
  ⟨fun r hr => h.1 r (hsub.subset hr), h.2.sublist (hsub.filter _)⟩

/-- A new order goes behind all others. -/
theorem RankedLevel.concat {nextRef : Ref} {queue : List RestingOrder}
    (h : RankedLevel nextRef queue) {r : RestingOrder} (href : r.ref = nextRef) :
    RankedLevel (nextRef + 1) (queue ++ [r]) := by
  refine ⟨fun x hx => ?_, ?_⟩
  · rcases List.mem_append.mp hx with hx | hx
    · exact Nat.lt_succ_of_lt (h.1 x hx)
    · rw [List.mem_singleton.mp hx, href]
      exact Nat.lt_succ_self _
  · rw [List.filter_append, List.pairwise_append]
    refine ⟨h.2, List.Pairwise.sublist (List.filter_sublist) (List.pairwise_singleton _ r),
      fun a ha b hb => ?_⟩
    have hb' : b = r := List.mem_singleton.mp (List.mem_of_mem_filter hb)
    rw [hb', href]
    exact h.1 a (List.mem_of_mem_filter ha)

/-- The queue after a hit: an order that goes to the back is an iceberg. -/
theorem RankedLevel.litQueue {nextRef : Ref} {r : RestingOrder} {behind : List RestingOrder}
    (h : RankedLevel nextRef (r :: behind)) (hv : r.Valid) (m : ℕ) :
    RankedLevel nextRef (litQueue (r.filled m) behind) := by
  have hbehind := h.sublist (List.sublist_cons_self r behind)
  have hhead : (r.filled m).ref < nextRef := h.1 r List.mem_cons_self
  unfold MatchingEngine.litQueue
  split_ifs with hq hvis
  · exact hbehind
  · refine ⟨fun x hx => ?_, ?_⟩
    · rcases List.mem_append.mp hx with hx | hx
      · exact hbehind.1 x hx
      · rw [List.mem_singleton.mp hx]
        exact hhead
    · -- A plain order would show what is left of it.
      have hpeak : ¬ plain (r.filled m).refreshDisplay = true := by
        intro hpeak
        have hplain := (hv.filled m).plain_visible (plain_iff.mp hpeak)
        simp only [RestingOrder.toOrder_filled] at hq hvis
        omega
      rw [List.filter_append, List.filter_cons_of_neg hpeak, List.filter_nil, List.append_nil]
      exact hbehind.2
  · refine ⟨List.forall_mem_cons.mpr ⟨hhead, hbehind.1⟩, ?_⟩
    have hsorted := h.2
    by_cases hpeak : plain r = true
    · have hfilled : plain (r.filled m) = true := hpeak
      rw [List.filter_cons_of_pos hpeak] at hsorted
      rw [List.filter_cons_of_pos hfilled]
      exact List.pairwise_cons.mpr (List.pairwise_cons.mp hsorted)
    · have hfilled : ¬ plain (r.filled m) = true := hpeak
      rw [List.filter_cons_of_neg hfilled]
      exact hbehind.2

/-- Whether the levels are ranked depends on the books and the next reference. -/
theorem Ranked.congr {s t : MatchingEngine} (h : s.Ranked) (hb : ∀ x, t.book x = s.book x)
    (href : t.nextRef = s.nextRef) : t.Ranked := by
  intro side level hlevel
  rw [href]
  exact h side level (hb side ▸ hlevel)

/-- A fill of the lit walk keeps the levels ranked. -/
theorem Ranked.matchLitBody {s s' : MatchingEngine} (h : s.Ranked) (hq : s.Queued) {side : Side}
    {o o' : Order} (hbody : matchLitBody side (o, s) = .ok (some (o', s'))) : s'.Ranked := by
  obtain ⟨p, r, behind, levels, m, hentries, -, -, -, -, -, rfl⟩ := matchLitBody_some hbody
  have hranked := h side.opposite
  have hqueue := hq.level side.opposite
  rw [hentries] at hranked hqueue
  obtain ⟨hfirst, hrest⟩ := List.forall_mem_cons.mp hranked
  have hv := ((hqueue _ List.mem_cons_self).2 r List.mem_cons_self).valid
  unfold Ranked
  rw [forall_side side.opposite, nextRef_settleLit, nextRef_recordFill,
    entries_settleLit _ _ _ _ (by simpa using hentries)]
  constructor
  · split_ifs
    · exact hrest
    · exact List.forall_mem_cons.mpr ⟨hfirst.litQueue hv m, hrest⟩
  · simpa using h side.opposite.opposite

/-- An order that comes to rest is newer than those at its level. -/
theorem Ranked.addToBook {s : MatchingEngine} (h : s.Ranked) (o : Order) :
    (s.addToBook o).Ranked := by
  have hlevel := h o.side
  have hmono : ∀ {levels : List (ℤ × List RestingOrder)},
      (∀ l ∈ levels, RankedLevel s.nextRef l.2) →
      ∀ l ∈ levels, RankedLevel (s.nextRef + 1) l.2 := fun hl l hmem =>
      (hl l hmem).mono (Nat.le_succ _)
  have hnil : RankedLevel s.nextRef [] := ⟨fun r hr => absurd hr List.not_mem_nil, .nil⟩
  unfold Ranked
  rw [forall_side o.side, nextRef_addToBook]
  constructor
  · rcases s.entries_addToBook o with ⟨pre, post, hold, -, hnew⟩ | ⟨pre, queue, post, hold, hnew⟩
    · rw [hold, List.forall_mem_append] at hlevel
      rw [hnew, List.forall_mem_append, List.forall_mem_cons]
      exact ⟨hmono hlevel.1, hnil.concat rfl, hmono hlevel.2⟩
    · rw [hold, List.forall_mem_append, List.forall_mem_cons] at hlevel
      rw [hnew, List.forall_mem_append, List.forall_mem_cons]
      exact ⟨hmono hlevel.1, hlevel.2.1.concat rfl, hmono hlevel.2.2⟩
  · rw [book_addToBook_of_ne _ _ (Side.opposite_ne _)]
    exact hmono (h o.side.opposite)

/-- A withdrawal keeps the levels ranked. -/
theorem Ranked.withdraw {s : MatchingEngine} (h : s.Ranked) (r : RestingOrder) :
    (s.withdraw r).Ranked := by
  unfold MatchingEngine.withdraw
  split
  · exact h.congr (by simp) (by simp)
  · split
    · exact h
    · rename_i queue hget
      have hmem := (SortedMap.get?_eq_some_iff _ _ _).mp hget
      obtain ⟨pre, post, hsplit, herase, hreplace⟩ := SortedMap.split_of_mem _ hmem
      have hlevel := h r.side
      rw [hsplit, List.forall_mem_append, List.forall_mem_cons] at hlevel
      obtain ⟨hpre, hqueue, hpost⟩ := hlevel
      simp only
      split_ifs with hempty
      · unfold Ranked
        rw [forall_side r.side, nextRef_setBook, book_setBook, herase, List.forall_mem_append]
        refine ⟨⟨hpre, hpost⟩, ?_⟩
        rw [book_setBook_of_ne _ _ _ (Side.opposite_ne _)]
        exact h r.side.opposite
      · unfold Ranked
        rw [forall_side r.side, nextRef_setBook, book_setBook, hreplace, List.forall_mem_append,
          List.forall_mem_cons]
        have hrest : RankedLevel s.nextRef (queue.eraseP fun o => o.ref = r.ref) :=
          hqueue.sublist List.eraseP_sublist
        refine ⟨⟨hpre, hrest, hpost⟩, ?_⟩
        rw [book_setBook_of_ne _ _ _ (Side.opposite_ne _)]
        exact h r.side.opposite

/-- The plain orders of each level of a reachable state stand in the order in which they came to
rest. -/
theorem Reachable.ranked {s : MatchingEngine} (h : s.Reachable) : s.Ranked := by
  refine h.induction (fun side => by cases side <;> simp [book]) ?_ ?_
  · intro s t o hs hr ho hadd
    refine hs.queued.addOrder_induction ho.valid.1 hadd hr ?_ ?_ ?_ ?_ ?_ ?_ ?_
    · intro mid a u b v _ hu hbody
      obtain ⟨hbook, -, -⟩ := pools_matchPegPoolBody hbody
      obtain ⟨_, _, _, -, -, -, -, rfl⟩ := matchPegPoolBody_some hbody
      exact hu.congr hbook (by simp)
    · exact fun side a u b v hq hu hbody => hu.matchLitBody hq hbody
    · intro mid u v _ hu hbody
      obtain ⟨_, _, _, _, _, -, -, -, -, rfl⟩ := crossPegPoolsBody_some hbody
      exact hu.congr (by simp) (by simp)
    · intro u a _ hu _ side level hlevel
      rw [book_restPeg] at hlevel
      rw [nextRef_restPeg]
      exact (hu side level hlevel).mono (Nat.le_succ _)
    · exact fun u a _ hu _ => (hu.addToBook a).congr (by simp) rfl
    · exact fun u a hu => hu.congr (by simp) rfl
    · exact fun u a hu => hu.congr (by simp) rfl
  · intro s orderID hs hr
    unfold MatchingEngine.cancelOrder
    split
    · exact hr
    · have hun : (s.unregister orderID).Ranked := hr.congr (by simp) rfl
      simp only
      split
      · exact hun
      · split_ifs
        · exact hun
        · have hret : ∀ o, ((s.unregister orderID).retire o).Ranked := fun o =>
            hun.congr (by simp) rfl
          exact (hret _).withdraw _

/-! ## The line of a side -/

/-- The order in which the orders of a side are due: the better price first, and the earlier order
at one price. -/
def Due (side : Side) (a b : RestingOrder) : Prop :=
  Better side a.price b.price ∨ a.price = b.price ∧ a.ref ≤ b.ref

/-- Whether one order is due before another can be decided. -/
instance (side : Side) : DecidableRel (Due side) := fun _ _ => by
  unfold Due
  infer_instance

/-- Of two orders of a side one is due first. -/
instance (side : Side) : Std.Total (Due side) where
  total a b := by
    rcases trichotomous_of (Better side) a.price b.price with hlt | heq | hgt
    · exact .inl (.inl hlt)
    · rcases Nat.le_total a.ref b.ref with hle | hge
      · exact .inl (.inr ⟨heq, hle⟩)
      · exact .inr (.inr ⟨heq.symm, hge⟩)
    · exact .inr (.inl hgt)

/-- Who is due before one is due before all that follow it. -/
instance (side : Side) : IsTrans RestingOrder (Due side) where
  trans a b c := by
    rintro (hab | ⟨hab, hab'⟩) (hbc | ⟨hbc, hbc'⟩)
    · exact .inl (trans_of (Better side) hab hbc)
    · exact .inl (hbc ▸ hab)
    · exact .inl (hab ▸ hbc)
    · exact .inr ⟨hab.trans hbc, hab'.trans hbc'⟩

/-- The resting orders that an incoming limit order may trade with in the lit book, in the order in
which they are due. -/
def contra (s : MatchingEngine) (o : Order) : List RestingOrder :=
  (s.resting.filter fun r =>
    r.side = o.side.opposite ∧ r.ordType = .limit ∧ marketable o.side o.price r.price).insertionSort
      (Due o.side.opposite)

/-- Without icebergs the book of a side is in the order in which its orders are due. -/
theorem Ranked.due {s : MatchingEngine} (h : s.Ranked) (hq : s.Queued) {side : Side}
    (hplain : ∀ r ∈ (s.book side).orders, r.peak = 0) :
    (s.book side).orders.Pairwise (Due side) := by
  rw [Book.orders, List.pairwise_flatMap]
  refine ⟨fun level hlevel => ?_, (s.book side).sorted.imp_of_mem ?_⟩
  · have hall : level.2.filter plain = level.2 :=
      List.filter_eq_self.mpr fun r hr =>
        plain_iff.mpr (hplain r (mem_orders.mpr ⟨level, hlevel, hr⟩))
    have hranked := (h side level hlevel).2
    rw [hall] at hranked
    have hprice := (hq.level side level hlevel).2
    refine hranked.imp_of_mem fun ha hb hlt => .inr ⟨?_, hlt.le⟩
    rw [(hprice _ ha).price_eq, (hprice _ hb).price_eq]
  · intro l m hl hm hlt a ha b hb
    rw [(hq.level side l hl).2 a ha |>.price_eq.symm, ((hq.level side m hm).2 b hb).price_eq.symm]
      at hlt
    exact .inl hlt

/-- A line in which nothing that passes stands behind something that does not is what passes and
then the rest. -/
theorem filter_append_of_pairwise {α : Type*} {p : α → Bool} {line : List α}
    (h : line.Pairwise fun a b => p b = true → p a = true) :
    line = line.filter p ++ line.filter fun a => !p a := by
  induction line with
  | nil => rfl
  | cons a line ih =>
    obtain ⟨hfirst, hrest⟩ := List.pairwise_cons.mp h
    by_cases ha : p a = true
    · rw [List.filter_cons_of_pos ha, List.filter_cons_of_neg (by simpa using ha),
        List.cons_append, ← ih hrest]
    · -- Nothing behind an order that does not pass does.
      have hnone : line.filter p = [] := List.filter_eq_nil_iff.mpr fun b hb hpass =>
        ha (hfirst b hb hpass)
      have hall : (line.filter fun a => !p a) = line :=
        List.filter_eq_self.mpr fun b hb => by
          have hb' : ¬ p b = true := fun hpass => ha (hfirst b hb hpass)
          simpa using hb'
      rw [List.filter_cons_of_neg ha, List.filter_cons_of_pos (by simpa using ha), hnone, hall,
        List.nil_append]

/-- Whether an incoming order may trade with a resting one of the other side, by the price. -/
def within (side : Side) (limit : ℤ) (r : RestingOrder) : Bool := marketable side limit r.price

/-- The orders within the limit stand before those beyond it. -/
theorem orders_split {s : MatchingEngine} {side : Side} (limit : ℤ)
    (hdue : (s.book side.opposite).orders.Pairwise (Due side.opposite)) :
    (s.book side.opposite).orders = (s.book side.opposite).orders.filter (within side limit) ++
      (s.book side.opposite).orders.filter fun r => !within side limit r := by
  refine filter_append_of_pairwise (hdue.imp fun hab hb => ?_)
  unfold within at hb ⊢
  rcases hab with hbetter | ⟨hprice, -⟩
  · by_contra hout
    have hbeyond := marketable_of_better hbetter (by simpa using hout)
    rw [hbeyond] at hb
    exact Bool.false_ne_true hb
  · rw [hprice]
    exact hb

/-- The orders that an incoming order may trade with are those of the other side within its
limit. -/
theorem contra_eq {s : MatchingEngine} (hq : s.Queued) {o : Order}
    (hdue : (s.book o.side.opposite).orders.Pairwise (Due o.side.opposite))
    (hi : Identified s.resting s.openOrders s.nextRef) :
    s.contra o = (s.book o.side.opposite).orders.filter (within o.side o.price) := by
  let mine (r : RestingOrder) : Bool :=
    decide (r.side = o.side.opposite ∧ r.ordType = .limit ∧ marketable o.side o.price r.price)
  have hlit : ∀ side, ∀ r ∈ (s.book side).orders, r.side = side ∧ r.ordType = .limit := by
    intro side r hr
    obtain ⟨level, hlevel, hr⟩ := mem_orders.mp hr
    have hat := (hq.level side level hlevel).2 r hr
    exact ⟨hat.side_eq, hat.ordType_eq⟩
  -- Nothing of the own side and of the pools is among them.
  have hpools : ∀ side, (s.pool side).filter mine = [] := by
    intro side
    refine List.filter_eq_nil_iff.mpr fun r hr hmine => ?_
    have hpeg := (hq.pool side r hr).ordType_eq
    rw [(of_decide_eq_true hmine).2.1] at hpeg
    exact absurd hpeg (by decide)
  have hown : (s.book o.side).orders.filter mine = [] := by
    refine List.filter_eq_nil_iff.mpr fun r hr hmine => ?_
    have hside := (hlit o.side r hr).1
    rw [(of_decide_eq_true hmine).1] at hside
    exact Side.opposite_ne _ hside
  have hother : (s.book o.side.opposite).orders.filter mine =
      (s.book o.side.opposite).orders.filter (within o.side o.price) := by
    refine List.filter_congr fun r hr => ?_
    obtain ⟨hside, htype⟩ := hlit _ r hr
    simp [mine, within, hside, htype]
  have hperm : (s.resting.filter mine).Perm
      ((s.book o.side.opposite).orders.filter (within o.side o.price)) := by
    have hall := (s.resting_perm o.side).filter mine
    rwa [List.filter_append, List.filter_append, List.filter_append, hown, hpools, hpools, hother,
      List.nil_append, List.append_nil, List.append_nil] at hall
  refine List.Perm.eq_of_pairwise ?_ (List.pairwise_insertionSort (Due o.side.opposite) _)
    (hdue.filter _) ((List.perm_insertionSort _ _).trans hperm)
  -- Orders that are due at the same time are one order.
  intro a b ha hb hab hba
  have hmem : ∀ r ∈ (s.book o.side.opposite).orders.filter (within o.side o.price),
      r ∈ s.resting := fun r hr =>
    mem_resting.mpr ⟨_, .inl (List.mem_of_mem_filter hr)⟩
  have ha' := hperm.mem_iff.mp ((List.mem_insertionSort _).mp ha)
  have href : a.ref = b.ref := by
    rcases hab with hab | ⟨heq, hab⟩
    · rcases hba with hba | ⟨heq, -⟩
      · exact absurd hba (asymm_of (Better o.side.opposite) hab)
      · exact absurd hab (heq ▸ irrefl_of (Better o.side.opposite) _)
    · rcases hba with hba | ⟨-, hba⟩
      · exact absurd hba (heq ▸ irrefl_of (Better o.side.opposite) _)
      · exact Nat.le_antisymm hab hba
  exact hi.eq_of_ref (hmem a ha') (hmem b hb) href

/-! ## The walk -/

/-- Two fills come to one. -/
theorem filled_filled (r : RestingOrder) (m k : ℕ) : (r.filled m).filled k = r.filled (m + k) := by
  simp only [RestingOrder.filled, Order.filled, Nat.sub_sub]
  congr 2
  omega

/-- A fill takes its quantity from a resting order. -/
theorem quantity_filled (r : RestingOrder) (m : ℕ) : (r.filled m).quantity = r.quantity - m := rfl

/-- Resting orders as lots: a lot has what is left of the order, and a fill cuts it. -/
def lots : Lots RestingOrder where
  size r := r.quantity
  cut := RestingOrder.filled
  size_cut := quantity_filled
  cut_cut := filled_filled

/-- The trade of an incoming order with a resting one: at the price of the resting one, and the
buyer is the one on the buy side. -/
structure Prints (o : Order) (trade : Trade) (lot : RestingOrder × ℕ) : Prop where
  price : trade.price = lot.1.price
  quantity : trade.quantity = lot.2
  ids : (trade.buyOrderId, trade.sellOrderId) =
    if o.side = .buy then (o.orderID, lot.1.orderID) else (lot.1.orderID, o.orderID)
  participants : (trade.buyParticipantId, trade.sellParticipantId) =
    if o.side = .buy then (o.participantID, lot.1.participantID)
      else (lot.1.participantID, o.participantID)

/-- What holds between the start of a lit walk and an iteration of it: `line` is what stands within
the limit now, and `done` what has been taken so far. -/
structure Walking (o : Order) (s : MatchingEngine) (beyond : List RestingOrder) (u : Order)
    (t : MatchingEngine) (line : List RestingOrder) (done : List (RestingOrder × ℕ))
    (prints : List Trade) : Prop where
  /-- The engine stays well formed. -/
  queued : t.Queued
  /-- Fills are all that happens to the order. -/
  from_order : FilledFrom o u
  /-- The line stands before the levels beyond the limit. -/
  orders : (t.book o.side.opposite).orders = line ++ beyond
  /-- No order of the line is an iceberg. -/
  plain : ∀ r ∈ line, r.peak = 0
  /-- The line is within the limit. -/
  within : ∀ r ∈ line, marketable o.side o.price r.price = true
  /-- The trades are appended to the old ones. -/
  trades : t.trades = s.trades ++ prints
  /-- There is one for each part that was taken. -/
  prints : List.Forall₂ (Prints o) prints done

/-- An iteration of the walk takes the first lot of the line, as far as it goes. -/
theorem Walking.step {o u v : Order} {s t t' : MatchingEngine} {beyond line : List RestingOrder}
    {done : List (RestingOrder × ℕ)} {prints : List Trade}
    (h : Walking o s beyond u t line done prints)
    (hbeyond : ∀ r ∈ beyond, marketable o.side o.price r.price = false)
    (hbody : matchLitBody o.side (u, t) = .ok (some (v, t'))) :
    ∃ r behind m trade, line = r :: behind ∧ m = min u.quantity r.quantity ∧ 0 < m ∧
      v.quantity = u.quantity - m ∧
      Walking o s beyond v t' (lots.rest (r.filled m) ++ behind) (done ++ [(r, m)])
      (prints ++ [trade]) := by
  have hq' := h.queued.matchLitBody hbody
  obtain ⟨p, r, behind, levels, m, hentries, hmarket, hm, hpos, hle, rfl, rfl⟩ :=
    matchLitBody_some hbody
  have hat := h.queued.level o.side.opposite
  rw [hentries] at hat
  have hr : RestingOrder.RestsAt o.side.opposite p r :=
    (hat _ List.mem_cons_self).2 r List.mem_cons_self
  have horders := h.orders
  rw [orders_of_entries hentries, List.flatMap_cons, List.cons_append] at horders
  -- The first order of the book is within the limit, and so it is the first of the line.
  rw [h.from_order.price, ← hr.price_eq] at hmarket
  obtain ⟨rest, rfl, htail⟩ : ∃ rest, line = r :: rest ∧
      behind ++ levels.flatMap Prod.snd = rest ++ beyond := by
    cases line with
    | nil =>
      have hout := hbeyond r (by rw [← List.nil_append beyond, ← horders]; exact List.mem_cons_self)
      rw [hmarket] at hout
      exact absurd hout (by decide)
    | cons x rest =>
      obtain ⟨rfl, htail⟩ := List.cons.inj horders
      exact ⟨rest, rfl, htail⟩
  have hplain := h.plain r List.mem_cons_self
  have hvis := hr.valid.plain_visible hplain
  rw [hvis] at hm
  have hqueue : litQueue (r.filled m) behind = lots.rest (r.filled m) ++ behind := by
    unfold litQueue Lots.rest
    by_cases hdone : (r.filled m).quantity = 0
    · rw [if_pos hdone]
      exact (if_pos hdone).symm ▸ rfl
    · have hshown : ¬ (r.filled m).visibleQty = 0 := by
        simp only [RestingOrder.toOrder_filled, Order.filled_quantity, Order.filled_visibleQty]
          at hdone ⊢
        omega
      rw [if_neg hdone, if_neg hshown]
      exact (if_neg hdone).symm ▸ rfl
  have hnew : (((t.recordFill (u.filled m) (r.filled m).toOrder p m).settleLit o.side.opposite
      (r.filled m) behind).book o.side.opposite).orders =
        lots.rest (r.filled m) ++ rest ++ beyond := by
    rw [orders_settleLit (by simpa using hentries), hqueue, List.append_assoc, htail,
      List.append_assoc]
  have hkept : ∀ x ∈ lots.rest (r.filled m) ++ rest, x = r.filled m ∨ x ∈ rest := by
    intro x hx
    rcases List.mem_append.mp hx with hx | hx
    · unfold Lots.rest at hx
      split_ifs at hx
      · exact absurd hx List.not_mem_nil
      · exact .inl (List.mem_singleton.mp hx)
    · exact .inr hx
  refine ⟨r, rest, m, t.fillTrade u r.toOrder p m, rfl, hm, hpos, rfl, hq', h.from_order.filled m,
    hnew, ?_, ?_, ?_, ?_⟩
  · intro x hx
    rcases hkept x hx with rfl | hx
    · exact hplain
    · exact h.plain x (List.mem_cons_of_mem _ hx)
  · intro x hx
    rcases hkept x hx with rfl | hx
    · exact hmarket
    · exact h.within x (List.mem_cons_of_mem _ hx)
  · rw [trades_settleLit, trades_recordFill, h.trades, List.append_assoc]
    rfl
  · have hprint : Prints o (t.fillTrade u r.toOrder p m) (r, m) := by
      rw [fillTrade, h.from_order.side, h.from_order.orderID, h.from_order.participantID]
      cases hside : o.side with
      | buy => exact ⟨hr.price_eq.symm, rfl, (if_pos hside).symm, (if_pos hside).symm⟩
      | sell =>
        have hsell : ¬ o.side = .buy := by
          rw [hside]
          decide
        exact ⟨hr.price_eq.symm, rfl, (if_neg hsell).symm, (if_neg hsell).symm⟩
    exact List.rel_append h.prints (.cons hprint .nil)

/-- The lit walk takes from the line of the orders within the limit what the order needs, and leaves
the rest of the line and what is beyond the limit. -/
theorem matchLit_takes {o o' : Order} {s s' : MatchingEngine} {line beyond : List RestingOrder}
    (hq : s.Queued) (hlit : matchLit o.side o s = .ok (o', s'))
    (horders : (s.book o.side.opposite).orders = line ++ beyond)
    (hplain : ∀ r ∈ line, r.peak = 0)
    (hwithin : ∀ r ∈ line, marketable o.side o.price r.price = true)
    (hbeyond : ∀ r ∈ beyond, marketable o.side o.price r.price = false) :
    ∃ prints, s'.trades = s.trades ++ prints ∧
      List.Forall₂ (Prints o) prints (lots.taken o.quantity line) ∧
      (s'.book o.side.opposite).orders = lots.left o.quantity line ++ beyond := by
  -- In each iteration what was taken and what is still to be taken are together what the order
  -- needs.
  have hinv := whileLoop_inv hlit
    (fun x => ∃ line' done prints, Walking o s beyond x.1 x.2 line' done prints ∧
      done ++ lots.taken x.1.quantity line' = lots.taken o.quantity line ∧
      lots.left x.1.quantity line' = lots.left o.quantity line)
    ⟨line, [], [], ⟨hq, .refl o, horders, hplain, hwithin, (List.append_nil _).symm, .nil⟩,
      rfl, rfl⟩ ?_
  · obtain ⟨⟨line', done, prints, hwalk, htaken, hleft⟩, hend⟩ := hinv
    -- At the end the order is done, or the line is.
    have hover : o'.quantity = 0 ∨ line' = [] := by
      rcases matchLitBody_none hend with hdone | hfirst
      · exact .inl hdone
      · refine .inr (List.eq_nil_iff_forall_not_mem.mpr fun r hr => ?_)
        have hmem : r ∈ (s'.book o.side.opposite).orders := hwalk.orders ▸ List.mem_append_left _ hr
        obtain ⟨level, hlevel, hrl⟩ := mem_orders.mp hmem
        have hprice := ((hwalk.queued.level _ level hlevel).2 r hrl).price_eq
        have hnone : marketable o.side o'.price level.1 = false := by
          obtain ⟨first, levels, hentries⟩ := List.exists_cons_of_ne_nil (List.ne_nil_of_mem hlevel)
          have hout := hfirst first (by rw [hentries]; rfl)
          rw [hentries] at hlevel
          rcases List.mem_cons.mp hlevel with rfl | hlevel
          · exact hout
          · exact marketable_of_better (SortedMap.lt_of_mem_rest hentries hlevel) hout
        rw [hwalk.from_order.price, ← hprice, hwalk.within r hr] at hnone
        exact absurd hnone (by decide)
    have hover' : lots.taken o'.quantity line' = [] ∧ lots.left o'.quantity line' = line' := by
      rcases hover with hdone | rfl
      · rw [hdone]
        exact ⟨Lots.taken_zero _, Lots.left_zero _⟩
      · exact ⟨rfl, rfl⟩
    refine ⟨prints, hwalk.trades, ?_, ?_⟩
    · rw [← htaken, hover'.1, List.append_nil]
      exact hwalk.prints
    · rw [← hleft, hover'.2]
      exact hwalk.orders
  · rintro ⟨u, t⟩ ⟨v, t'⟩ ⟨line', done, prints, hwalk, htaken, hleft⟩ hbody
    obtain ⟨r, behind, m, trade, rfl, hm, hpos, hquantity, hnext⟩ := hwalk.step hbeyond hbody
    have hsize : lots.size r = r.quantity := rfl
    refine ⟨_, _, _, hnext, ?_, ?_⟩
    · rw [← htaken, Lots.taken_bite (L := lots) hm hpos, hquantity, List.append_assoc]
      rfl
    · rw [← hleft, hquantity]
      exact Lots.left_bite (by omega) (by omega) hpos behind

/-- Where no iceberg rests, the lit walk of a limit order that is admitted takes from the orders of
the other side within its limit, by price and then by the time at which they came to rest, what the
peg step left of the order. Each trade is at the price of the resting order, and the orders that
were not reached keep their quantities and their places. The time of a resting order is its place
among the acknowledgements of the run. -/
theorem price_time_priority {s : MatchingEngine} (hs : s.Reachable)
    (hplain : ∀ r ∈ s.resting, r.peak = 0) {o : Order} (ho : o.Constructed)
    (htype : o.ordType = .limit) (hprobe : o.tif = .fok → s.canFillCompletely o = true) :
    (∀ r ∈ s.resting, ∃ quantity, s.acceptances[r.ref]? =
      some (.onAccepted r.orderID r.price quantity)) ∧
    ∃ t o₁ s₁ o₂ s₂ prints, s.addOrder o = .ok t ∧ pegStep o s = .ok (o₁, s₁) ∧
      matchLit o.side o₁ s₁ = .ok (o₂, s₂) ∧ (s₂.disposeLit o₂).crossPegPools = .ok t ∧
      s₂.trades = s₁.trades ++ prints ∧
      List.Forall₂ (Prints o) prints (lots.taken o₁.quantity (s.contra o)) ∧
      (t.book o.side.opposite).orders = lots.left o₁.quantity (s.contra o) ++
        (s.book o.side.opposite).orders.filter fun r => !within o.side o.price r := by
  have hq := hs.queued
  obtain ⟨t, hadd⟩ := hs.addOrder_total ho
  refine ⟨hs.accepted.2, t, ?_⟩
  rcases addOrder_limit_cases hadd htype with ⟨hfok, hfails, -⟩
    | ⟨o₁, s₁, o₂, s₂, hpeg, hlit, hcross⟩
  · rw [hprobe hfok] at hfails
    exact absurd hfails (by decide)
  have hfrom := pegStep_filledFrom hpeg
  obtain ⟨hbook, -⟩ := pools_pegStep hpeg
  -- The peg step leaves the lit book alone.
  have hdue : (s.book o.side.opposite).orders.Pairwise (Due o.side.opposite) :=
    hs.ranked.due hq fun r hr => hplain r (mem_resting.mpr ⟨_, .inl hr⟩)
  have hcontra := contra_eq hq hdue hs.identified
  have hsplit := orders_split o.price hdue
  rw [← hcontra, ← hbook, ← hfrom.side] at hsplit
  have hmem : ∀ r ∈ s.contra o, r ∈ (s.book o.side.opposite).orders ∧
      marketable o.side o.price r.price = true := by
    intro r hr
    rw [hcontra] at hr
    exact List.mem_filter.mp hr
  have hlit' := hlit
  rw [← hfrom.side] at hlit'
  obtain ⟨prints, htrades, hprints, horders⟩ := matchLit_takes (hq.pegStep hpeg) hlit' hsplit
    (fun r hr => hplain r (mem_resting.mpr ⟨_, .inl (hmem r hr).1⟩))
    (fun r hr => by rw [hfrom.side, hfrom.price]; exact (hmem r hr).2)
    (fun r hr => by
      have hout := (List.mem_filter.mp hr).2
      rw [hfrom.side] at hout ⊢
      rw [hfrom.price]
      simpa [within] using hout)
  refine ⟨o₁, s₁, o₂, s₂, prints, hadd, hpeg, hlit, hcross, htrades, ?_, ?_⟩
  · refine hprints.imp fun trade lot hprint => ⟨hprint.price, hprint.quantity, ?_, ?_⟩
    · rw [hprint.ids, hfrom.side, hfrom.orderID]
    · rw [hprint.participants, hfrom.side, hfrom.participantID]
  · -- What is left of the order rests on its own side, and the pool cross leaves the book alone.
    have hcrossed := (pools_crossPegPools hcross).1 o.side.opposite
    have hother : (s₂.disposeLit o₂).book o.side.opposite = s₂.book o.side.opposite := by
      have hside : o₂.side = o.side := (matchLit_filledFrom hlit).side.trans hfrom.side
      rw [← hside]
      exact (disposeLit_frame s₂ o₂).1
    rw [hfrom.side, hbook] at horders
    rw [hcrossed, hother, horders]

/-- The prices and quantities of the trades are those of the lots. -/
theorem prices_of_prints {o : Order} {prints : List Trade} {taken : List (RestingOrder × ℕ)}
    (h : List.Forall₂ (Prints o) prints taken) :
    prints.map (fun trade => (trade.price, trade.quantity)) = taken.map fun lot =>
      (lot.1.price, lot.2) := by
  induction h with
  | nil => rfl
  | cons hprint _ ih => rw [List.map_cons, List.map_cons, ih, hprint.price, hprint.quantity]

/-- A run that leaves four asks at three prices. -/
def queuedCalls : List Call :=
  [.addOrder ⟨.built 1 1 .sell 10 10100 1 .gtc 0 .limit,
    1, 1, some .sell, 10, 10100, 1, some .gtc, 0, some .limit, rfl⟩,
   .addOrder ⟨.built 2 2 .sell 5 10000 1 .gtc 0 .limit,
    2, 2, some .sell, 5, 10000, 1, some .gtc, 0, some .limit, rfl⟩,
   .addOrder ⟨.built 3 3 .sell 7 10100 1 .gtc 0 .limit,
    3, 3, some .sell, 7, 10100, 1, some .gtc, 0, some .limit, rfl⟩,
   .addOrder ⟨.built 4 4 .sell 9 10200 1 .gtc 0 .limit,
    4, 4, some .sell, 9, 10200, 1, some .gtc, 0, some .limit, rfl⟩]

/-- A buy of twenty takes the best level, then the older order of the next level and a part of the
younger one. -/
theorem price_time_priority_queued :
    ∃ t, ∃ prints : List Trade,
      (after queuedCalls).addOrder (.built 5 5 .buy 20 10100 1 .gtc 0 .limit) = .ok t ∧
      prints.map (fun trade => (trade.price, trade.quantity)) =
      [(10000, 5), (10100, 10), (10100, 5)] ∧
      t.asks.orders.map (fun r => (r.orderID, r.quantity)) = [(3, 2), (4, 9)] := by
  let o : Order := .built 5 5 .buy 20 10100 1 .gtc 0 .limit
  obtain ⟨-, t, o₁, s₁, o₂, s₂, prints, hadd, hpeg, -, -, -, hprints, horders⟩ :=
    price_time_priority (reachable_after queuedCalls) (by decide) (o := o)
      ⟨5, 5, some .buy, 20, 10100, 1, some .gtc, 0, some .limit, rfl⟩ rfl (by decide)
  have hmid : (after queuedCalls).mid = Prices.na := by decide
  have hnone : pegStep o (after queuedCalls) = .ok (o, after queuedCalls) := by
    simp only [pegStep, hmid]
    exact if_neg fun h => h.1 rfl
  obtain ⟨rfl, -⟩ := Prod.mk.inj (Except.ok.inj (hpeg.symm.trans hnone))
  refine ⟨t, prints, hadd, ?_, ?_⟩
  · rw [prices_of_prints hprints]
    decide
  · show (t.book o.side.opposite).orders.map _ = _
    rw [horders]
    decide

end MatchingEngine

end MatchingVenue
