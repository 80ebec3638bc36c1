import MatchingVenue.Engine.Registry
import MatchingVenue.Engine.FillOrKill
import MatchingVenue.Engine.MatchingEngineHandler
import Mathlib.Data.List.Induction

/-!
# Order ids that collide

Order ids are the clients' own and nothing checks that they differ. The registry is keyed by them
alone, so the law that it agrees with the queues (`RegistryAgrees`) depends on the ids.
`addOrder_lawful_iff` says on which admissions: all but those of an order that comes to rest while
another order of its id still rests, one that it may not trade with. `agrees_throughout_iff` is the
same for runs of the handler.
-/

namespace MatchingVenue.MatchingEngine

/-- Whether an incoming order may trade with a resting one: a peg of the other side where there is a
midpoint that the order reaches, or a limit order of the other side within its limit. -/
def MayTrade (s : MatchingEngine) (o : Order) (r : RestingOrder) : Prop :=
  r.side = o.side.opposite ∧
    match r.ordType with
    | .pegMid => s.mid ≠ Prices.na ∧ (o.ordType = .pegMid ∨ crossesMid o.side o.price s.mid = true)
    | .limit => o.ordType = .limit ∧ marketable o.side o.price r.price = true

/-- Whether an order may trade with a resting one does not depend on the fills that one has had. -/
theorem MayTrade.congr {s : MatchingEngine} {o : Order} {r x : RestingOrder}
    (h : FilledFrom r.toOrder x.toOrder) : s.MayTrade o x ↔ s.MayTrade o r := by
  unfold MayTrade
  rw [h.side, h.ordType, h.price]

/-! ## What the match leaves -/

/-- After a match, what rests is what rested or a part of it. -/
theorem Steps.descends {o o' : Order} {s s' : MatchingEngine} (h : Steps (some o, s) (some o', s'))
    {x : RestingOrder} (hx : x ∈ s'.resting) :
    ∃ r ∈ s.resting, FilledFrom r.toOrder x.toOrder := by
  refine h.match_induction (P := fun _ u => ∀ x ∈ u.resting, ∃ r ∈ s.resting,
    FilledFrom r.toOrder x.toOrder) (fun x hx => ⟨x, hx, .refl _⟩) ?_ x hx
  intro a u b v hu hstep y hy
  obtain ⟨r₁, hr₁, -, hfrom₁⟩ := hstep.descends hy
  obtain ⟨r, hr, hfrom⟩ := hu r₁ hr₁
  exact ⟨r, hr, hfrom.trans hfrom₁⟩

/-- A step of the match keeps the law. -/
theorem Step.lawful {o o' : Order} {s s' : MatchingEngine} (h : Step (some o, s) (some o', s'))
    (hi : Identified s.resting s.openOrders s.nextRef) (hl : Lawful s.resting s.openOrders) :
    Lawful s'.resting s'.openOrders := by
  cases h with
  | hit r r' others price m hrest hrest' hr' _ _ _ _ hopen _ =>
    obtain ⟨href, hid, hq⟩ := hit_fields hr'
    have hl' := (hl.perm hrest).fill (hi.perm hrest) r' href hid
    rw [unlessDone_congr (r := r.filled m) hid hq, ← hopen] at hl'
    exact hl'.perm hrest'.symm

/-- The steps of a match keep the law of the registry. -/
theorem Steps.lawful {o o' : Order} {s s' : MatchingEngine} (h : Steps (some o, s) (some o', s'))
    (hi : Identified s.resting s.openOrders s.nextRef) (hl : Lawful s.resting s.openOrders) :
    Lawful s'.resting s'.openOrders := by
  refine (h.match_induction (P := fun _ u => Identified u.resting u.openOrders u.nextRef ∧
    Lawful u.resting u.openOrders) ⟨hi, hl⟩ ?_).2
  rintro a u b v ⟨hi, hl⟩ hstep
  exact ⟨hstep.identified hi, hstep.lawful hi hl⟩

/-- A level beyond the limit is there after the lit walk. -/
theorem matchLit_beyond {side : Side} {o o' : Order} {s s' : MatchingEngine}
    (h : matchLit side o s = .ok (o', s')) {level : ℤ × List RestingOrder}
    (hlevel : level ∈ (s.book side.opposite).entries)
    (hbeyond : marketable side o.price level.1 = false) :
    level ∈ (s'.book side.opposite).entries := by
  refine (whileLoop_inv h (fun x => FilledFrom o x.1 ∧ level ∈ (x.2.book side.opposite).entries)
    ⟨.refl o, hlevel⟩ ?_).1.2
  rintro ⟨u, su⟩ ⟨v, sv⟩ ⟨hfrom, hmem⟩ hbody
  obtain ⟨p, r, behind, levels, m, hentries, hmarket, -, -, -, rfl, rfl⟩ := matchLitBody_some hbody
  refine ⟨hfrom.filled m, ?_⟩
  rw [hfrom.price] at hmarket
  simp only at hmem
  rw [hentries] at hmem
  -- The level that the walk fills is within the limit, so it is another one.
  rcases List.mem_cons.mp hmem with rfl | hmem
  · simp [hmarket] at hbeyond
  · rw [entries_settleLit _ _ _ _ (by simpa using hentries)]
    split_ifs
    · exact hmem
    · exact List.mem_cons_of_mem _ hmem

/-- The peg step leaves every order that the incoming one may not trade with. -/
theorem pegStep_survivor {o o' : Order} {s s' : MatchingEngine} (hq : s.Queued)
    (h : pegStep o s = .ok (o', s')) {r : RestingOrder} (hr : r ∈ s.resting)
    (hmay : ¬ s.MayTrade o r) : r ∈ s'.resting := by
  obtain ⟨hbook, hown, -, -⟩ := pools_pegStep h
  rw [mem_resting]
  -- The lit book is out of the peg step's reach, and so is the pool of the order's own side.
  cases htype : r.ordType with
  | limit =>
    obtain ⟨queue, hlevel, hr⟩ := hq.mem_level hr htype
    refine ⟨r.side, .inl (mem_orders.mpr ⟨(r.price, queue), ?_, hr⟩)⟩
    rw [hbook]
    exact hlevel
  | pegMid =>
    have hpool := hq.mem_pool hr htype
    by_cases hside : r.side = o.side
    · refine ⟨o.side, .inr ?_⟩
      rw [hown, ← hside]
      exact hpool
    · -- A peg of the other side which the order may not trade with: the peg step does nothing.
      have hopp := Side.eq_opposite_of_ne hside
      have hno : ¬ (s.mid ≠ Prices.na ∧ (o.ordType = .pegMid ∨
          crossesMid o.side o.price s.mid = true)) := by
        intro hcond
        unfold MayTrade at hmay
        rw [htype] at hmay
        exact hmay ⟨hopp, hcond⟩
      simp only [pegStep] at h
      rw [if_neg hno] at h
      obtain ⟨-, rfl⟩ := Prod.mk.inj (Except.ok.inj h)
      exact ⟨r.side, .inr hpool⟩

/-- The lit walk leaves every order that the incoming one may not trade with. -/
theorem matchLit_survivor {s₀ : MatchingEngine} {o o₁ o₂ : Order} {s₁ s₂ : MatchingEngine}
    (hq : s₁.Queued) (hlimit : o.ordType = .limit) (hprice : o₁.price = o.price)
    (h : matchLit o.side o₁ s₁ = .ok (o₂, s₂)) {r : RestingOrder} (hr : r ∈ s₁.resting)
    (hmay : ¬ s₀.MayTrade o r) : r ∈ s₂.resting := by
  obtain ⟨hown, hpool, -⟩ := keys_matchLit h
  rw [mem_resting]
  -- The lit walk reaches the levels of the other side only, and of those the ones within the limit.
  cases htype : r.ordType with
  | pegMid =>
    refine ⟨r.side, .inr ?_⟩
    rw [hpool]
    exact hq.mem_pool hr htype
  | limit =>
    obtain ⟨queue, hlevel, hr⟩ := hq.mem_level hr htype
    by_cases hside : r.side = o.side
    · refine ⟨o.side, .inl (mem_orders.mpr ⟨(r.price, queue), ?_, hr⟩)⟩
      rw [hown, ← hside]
      exact hlevel
    · have hopp := Side.eq_opposite_of_ne hside
      have hbeyond : marketable o.side o₁.price r.price = false := by
        unfold MayTrade at hmay
        rw [htype] at hmay
        rw [hprice, ← Bool.not_eq_true]
        exact fun hmarket => hmay ⟨hopp, hlimit, hmarket⟩
      rw [hopp] at hlevel
      exact ⟨o.side.opposite, .inl (mem_orders.mpr ⟨_, matchLit_beyond h hlevel hbeyond, hr⟩)⟩

/-- Where the peg step leaves something of a peg, no order is left that it may trade with. -/
theorem pegStep_exhausts {o o' : Order} {s s' : MatchingEngine} (hq : s'.Queued)
    (htype : o.ordType = .pegMid) (h : pegStep o s = .ok (o', s')) (hleft : 0 < o'.quantity)
    {x : RestingOrder} (hx : x ∈ s'.resting) : ¬ s.MayTrade o x := by
  rintro ⟨hside, hcond⟩
  cases hx' : x.ordType with
  | limit => simp [hx', htype] at hcond
  | pegMid =>
    rw [hx'] at hcond
    -- The loop over the pool ends with the order or with the pool, and the order has some left.
    obtain ⟨-, -, -, hend⟩ := pools_pegStep h
    have hempty := (hend hcond.1 htype).resolve_left (by omega)
    have hpool := hq.mem_pool hx hx'
    rw [hside, hempty] at hpool
    simp at hpool

/-- Where the peg step and the lit walk leave something of a limit order, no order is left that it
may trade with. -/
theorem matchLit_leaves_none {o o₁ o₂ : Order} {s s₁ s₂ : MatchingEngine} (hq : s₂.Queued)
    (hpeg : pegStep o s = .ok (o₁, s₁)) (hlit : matchLit o.side o₁ s₁ = .ok (o₂, s₂))
    (hleft : 0 < o₂.quantity) {x : RestingOrder} (hx : x ∈ s₂.resting) : ¬ s.MayTrade o x := by
  rintro ⟨hside, hcond⟩
  have hfrom₁ := pegStep_filledFrom hpeg
  have hfrom₂ := matchLit_filledFrom hlit
  cases hx' : x.ordType with
  | limit =>
    rw [hx'] at hcond
    obtain ⟨queue, hlevel, -⟩ := hq.mem_level hx hx'
    -- Every level left is beyond the limit, that of the order included.
    have hbeyond := (matchLit_exhausts hlit).resolve_left (by omega)
    rw [hside] at hlevel
    have := hbeyond x.price (SortedMap.mem_keys.mpr ⟨_, hlevel⟩)
    rw [hfrom₂.price, hfrom₁.price, hcond.2] at this
    simp at this
  | pegMid =>
    rw [hx'] at hcond
    have hpool := hq.mem_pool hx hx'
    -- The peg step has drained the pool, since the lit walk began with an order not filled.
    simp only [pegStep] at hpeg
    rw [if_pos hcond] at hpeg
    obtain ⟨-, -, -, hend⟩ := pools_matchPegPool hpeg
    have hquantity := hfrom₂.quantity
    have hempty := hend.resolve_left (by omega)
    rw [(keys_matchLit hlit).2.1, hside, hempty] at hpool
    simp at hpool

/-- What the match of an incoming order, the peg step and the lit walk, does to the order and the
engine. -/
structure Matched (s : MatchingEngine) (o o' : Order) (s' : MatchingEngine) : Prop where
  /-- The engine stays well formed. -/
  queued : s'.Queued
  /-- It is a run of steps. -/
  steps : Steps (some o, s) (some o', s')
  /-- Fills are all that happens to the order. -/
  filledFrom : FilledFrom o o'
  /-- The order takes all that it may trade with, as far as its quantity goes. -/
  quantity : o'.quantity = o.quantity - s.tradable o
  /-- The others stay as they are. -/
  survivor : ∀ r ∈ s.resting, ¬ s.MayTrade o r → r ∈ s'.resting
  /-- Where something of the order is left, there is nothing that it may trade with. -/
  exhausted : 0 < o'.quantity → ∀ x ∈ s'.resting, ¬ s.MayTrade o x

/-- An admission that is not refused as fill-or-kill is a match, the end of the order, and a pool
cross, which leaves the orders of the order's own type where they are. -/
theorem addOrder_matched {s t : MatchingEngine} (hq : s.Queued) {o : Order} (hv : o.Valid)
    (h : s.addOrder o = .ok t) :
    (o.tif = .fok ∧ t = (s.onExpired o).retire o) ∨
    ∃ o' s' u, Matched s o o' s' ∧ Step (some o', s') (none, u) ∧ Steps (none, u) (none, t) ∧
      ∀ r ∈ u.resting, r.ordType = o.ordType → r ∈ t.resting := by
  rcases addOrder_cases h with ⟨hfok, -, rfl⟩ | ⟨-, o₁, s₁, hpeg, hrest⟩
  · exact .inl ⟨hfok, rfl⟩
  right
  have hfrom₁ := pegStep_filledFrom hpeg
  have hq₁ := hq.pegStep hpeg
  -- A peg ends after the peg step. A limit order walks the lit book and the pools are crossed.
  rcases hrest with ⟨htype, rfl⟩ | ⟨htype, o₂, s₂, hlit, hcross⟩
  · refine ⟨o₁, s₁, s₁.disposePeg o₁, ⟨hq₁, pegStep_steps hq hpeg, hfrom₁, ?_, ?_, ?_⟩,
      disposePeg_step s₁ o₁, .refl, fun r hr _ => hr⟩
    · exact (pegStep_tradable htype hpeg).1
    · exact fun r hr hmay => pegStep_survivor hq hpeg hr hmay
    · exact fun hleft x hx => pegStep_exhausts hq₁ htype hpeg hleft hx
  · have hfrom₂ := hfrom₁.trans (matchLit_filledFrom hlit)
    have hq₂ := hq₁.matchLit hlit
    have hq₃ := hq₂.disposeLit (hfrom₂.valid hv) (hfrom₂.ordType.trans htype)
    have hlit_steps : Steps (some o₁, s₁) (some o₂, s₂) :=
      matchLit_steps hq₁ (by rw [hfrom₁.side]; exact hlit)
    refine ⟨o₂, s₂, s₂.disposeLit o₂, ⟨hq₂, (pegStep_steps hq hpeg).trans hlit_steps, hfrom₂,
      ?_, ?_, ?_⟩, disposeLit_step s₂ o₂, crossPegPools_steps hq₃ hcross, ?_⟩
    · exact (matchLit_tradable htype hpeg hlit).1
    · intro r hr hmay
      exact matchLit_survivor hq₁ htype hfrom₁.price hlit (pegStep_survivor hq hpeg hr hmay) hmay
    · exact fun hleft x hx => matchLit_leaves_none hq₂ hpeg hlit hleft hx
    · -- The pool cross does not touch the lit book.
      intro r hr hr'
      obtain ⟨queue, hlevel, hr⟩ := hq₃.mem_level hr (hr'.trans htype)
      rw [← (pools_crossPegPools hcross).1] at hlevel
      exact mem_resting.mpr ⟨r.side, .inl (mem_orders.mpr ⟨_, hlevel, hr⟩)⟩

/-! ## When the registry agrees -/

/-- An incoming order comes to rest while another order of its id rests, one that it may not trade
with. -/
def Collides (s : MatchingEngine) (o : Order) : Prop :=
  o.tif = .gtc ∧ s.tradable o < o.quantity ∧
    ∃ r ∈ s.resting, r.orderID = o.orderID ∧ ¬ s.MayTrade o r

/-- A fill of two pegs keeps the law. -/
theorem Step.cross_lawful {s s' : MatchingEngine} (h : Step (none, s) (none, s'))
    (hi : Identified s.resting s.openOrders s.nextRef) (hl : Lawful s.resting s.openOrders) :
    Lawful s'.resting s'.openOrders := by
  cases h with
  | cross bid ask others price m hrest hrest' _ _ _ _ hopen _ =>
    -- The fill of the bid, then that of the ask, each as the fill of the head of the list.
    have hib := (hi.perm hrest).fill (bid.filled m) rfl rfl
    have hb := (hl.perm hrest).fill (hi.perm hrest) (bid.filled m) rfl rfl
    have ha := (hb.perm List.perm_middle).fill (hib.perm List.perm_middle)
      (ask.filled m) rfl rfl
    rw [← hopen] at ha
    exact ha.perm (hrest'.trans (List.perm_append_comm_assoc _ _ _)).symm

/-- The steps of a pool cross keep the law of the registry. -/
theorem Steps.cross_lawful {s t : MatchingEngine} (h : Steps (none, s) (none, t))
    (hi : Identified s.resting s.openOrders s.nextRef) (hl : Lawful s.resting s.openOrders) :
    Lawful t.resting t.openOrders := by
  refine (h.cross_induction (P := fun u => Identified u.resting u.openOrders u.nextRef ∧
    Lawful u.resting u.openOrders) ⟨hi, hl⟩ ?_).2
  rintro u v ⟨hi, hl⟩ hstep
  exact ⟨hstep.identified hi, hstep.cross_lawful hi hl⟩

/-- As long as an id is registered, no order of that id leaves in a pool cross. -/
theorem Steps.cross_keeps {s t : MatchingEngine} (h : Steps (none, s) (none, t)) {r : RestingOrder}
    (hr : r ∈ s.resting) (hreg : t.openOrders r.orderID ≠ none) :
    ∃ x ∈ t.resting, x.ref = r.ref ∧ x.orderID = r.orderID := by
  refine h.cross_induction (P := fun u => u.openOrders r.orderID ≠ none →
    ∃ x ∈ u.resting, x.ref = r.ref ∧ x.orderID = r.orderID) (fun _ => ⟨r, hr, rfl, rfl⟩) ?_ hreg
  intro u v hu hstep hv
  cases hstep with
  | cross bid ask others price m hrest hrest' _ _ _ _ hopen _ =>
    obtain ⟨ref, hv⟩ := Option.ne_none_iff_exists'.mp hv
    rw [hopen] at hv
    -- Registered after the step: not removed for the ask, nor for the bid before it.
    obtain ⟨hv, hask⟩ := unlessDone_eq_some.mp hv
    obtain ⟨hv, hbid⟩ := unlessDone_eq_some.mp hv
    obtain ⟨x, hx, href, hid⟩ := hu (by simp [hv])
    -- A head of that id was not finished, for its id would have been removed.
    have hmem : x ∈ others ∨ (x = bid ∧ (bid.filled m).quantity ≠ 0) ∨
        (x = ask ∧ (ask.filled m).quantity ≠ 0) := by
      rcases List.mem_cons.mp (hrest.mem_iff.mp hx) with rfl | hx
      · exact .inr (.inl ⟨rfl, fun hq => hbid ⟨hq, hid.symm⟩⟩)
      · rcases List.mem_cons.mp hx with rfl | hx
        · exact .inr (.inr ⟨rfl, fun hq => hask ⟨hq, hid.symm⟩⟩)
        · exact .inl hx
    rcases hmem with hx | ⟨rfl, hq⟩ | ⟨rfl, hq⟩
    · exact ⟨x, hrest'.mem_iff.mpr (by simp [hx]), href, hid⟩
    · have hkept : x.filled m ∈ kept (x.filled m) := mem_kept.mpr ⟨hq, rfl⟩
      exact ⟨x.filled m, hrest'.mem_iff.mpr (List.mem_append_left _ hkept), href, hid⟩
    · have hkept : x.filled m ∈ kept (x.filled m) := mem_kept.mpr ⟨hq, rfl⟩
      exact ⟨x.filled m,
        hrest'.mem_iff.mpr (List.mem_append_right _ (List.mem_append_left _ hkept)),
        href, hid⟩

/-- Where two orders with one id rest before a pool cross and one of them after it, the law fails
after it. -/
theorem Steps.cross_not_lawful {s t : MatchingEngine} (h : Steps (none, s) (none, t))
    {x r : RestingOrder} (hx : x ∈ s.resting) (hr : r ∈ t.resting) (hid : x.orderID = r.orderID)
    (href : x.ref ≠ r.ref) : ¬ Lawful t.resting t.openOrders := by
  intro hlt
  have hreg := hlt r hr
  have hsome : t.openOrders x.orderID ≠ none := by
    rw [hid, hreg]
    simp
  -- The id is still registered, so the other order is still there as well, and the registry would
  -- have to hold both under the id.
  obtain ⟨y, hy, hyref, hyid⟩ := h.cross_keeps hx hsome
  have hregy := hlt y hy
  rw [hyid, hid, hreg] at hregy
  apply href
  calc x.ref = y.ref := hyref.symm
    _ = r.ref := (Option.some.inj hregy).symm

/-- An admission keeps the law exactly when it is not a collision. -/
theorem addOrder_lawful_iff {s t : MatchingEngine} (h : s.Reachable) {o : Order}
    (ho : o.Constructed) (hl : Lawful s.resting s.openOrders) (hadd : s.addOrder o = .ok t) :
    Lawful t.resting t.openOrders ↔ ¬ s.Collides o := by
  have hi := h.identified
  rcases addOrder_matched h.queued ho.valid.1 hadd
    with ⟨hfok, rfl⟩ | ⟨o', s', u, hm, hend, hcross, hown⟩
  · exact ⟨fun _ hc => absurd (hfok.symm.trans hc.1) (by decide), fun _ => hl⟩
  have hi' := hm.steps.identified hi
  have hl' := hm.steps.lawful hi hl
  have hiu := hend.identified hi'
  simp only at hi' hiu
  -- The law after the end of the order is the law after the pool cross.
  have hkeep : Lawful u.resting u.openOrders → Lawful t.resting t.openOrders :=
    fun hlu => hcross.cross_lawful hiu hlu
  -- What is left of the order expires, was all filled, or comes to rest.
  cases hend with
  | expire hq htif hrest _ _ hopen _ =>
    rw [hm.filledFrom.tif] at htif
    refine ⟨fun _ hc => htif hc.1, fun _ => hkeep ?_⟩
    rw [hrest, hopen]
    exact hl'
  | finish hq hrest _ hopen _ =>
    have hqty := hm.quantity
    refine ⟨fun _ hc => ?_, fun _ => hkeep ?_⟩
    · have := hc.2.1
      omega
    · rw [hrest, hopen]
      exact hl'
  | rest r hq htif hrest href hr _ hopen hnext =>
    have hqty := hm.quantity
    have hid : r.orderID = o.orderID := (rest_orderID hr).trans hm.filledFrom.orderID
    constructor
    · -- Both orders rest after the end of the incoming one, the newer under a fresh reference.
      rintro hlt ⟨-, -, x, hx, hxid, hmay⟩
      have hx' := hm.survivor x hx hmay
      have hxu : x ∈ u.resting := hrest.mem_iff.mpr (List.mem_cons_of_mem _ hx')
      have hru : r ∈ u.resting := hrest.mem_iff.mpr List.mem_cons_self
      have hordType : r.ordType = o.ordType := by
        rcases hr with hr | hr
        · rw [hr, hm.filledFrom.ordType]
        · rw [hr, Order.refreshDisplay_ordType, hm.filledFrom.ordType]
      have hne : x.ref ≠ r.ref := by
        rw [href]
        exact Nat.ne_of_lt (hi'.fresh x hx')
      exact hcross.cross_not_lawful hxu (hown r hru hordType) (hxid.trans hid.symm) hne hlt
    · -- Any other order of the id that rests then is one that the order may trade with, and the
      -- match leaves none of those.
      intro hno
      apply hkeep
      have hfree : ∀ x ∈ s'.resting, x.orderID ≠ r.orderID := by
        intro x hx hxid
        obtain ⟨x₀, hx₀, hfrom⟩ := hm.steps.descends hx
        refine hno ⟨hm.filledFrom.tif ▸ htif, by omega, x₀, hx₀, ?_, ?_⟩
        · rw [← hfrom.orderID, hxid, hid]
        · rw [← MayTrade.congr hfrom]
          exact hm.exhausted hq x hx
      have hlu := hl'.rest hfree
      rw [rest_orderID hr, ← hopen] at hlu
      exact hlu.perm hrest.symm

/-- The registry and the queues agree: every resting order is what the registry holds under its id,
what the registry holds is in one place of one queue, and a cancel of the id of a resting order
takes it out. -/
structure RegistryAgrees (s : MatchingEngine) : Prop where
  /-- The registry has every resting order under its id. -/
  registered : ∀ r ∈ s.resting, s.openOrders r.orderID = some r.ref
  /-- What the registry has is in one place of one queue. -/
  once : ∀ orderID ref, s.openOrders orderID = some ref →
    (s.resting.map fun r => r.ref).count ref = 1
  /-- A cancel of the id of a resting order takes out that order. -/
  cancellable : ∀ r ∈ s.resting, (s.cancelOrder r.orderID).2 = true ∧
    s.resting.Perm (r :: (s.cancelOrder r.orderID).1.resting)

/-- In a reachable state only the first part can fail. -/
theorem Reachable.registryAgrees_iff {s : MatchingEngine} (h : s.Reachable) :
    s.RegistryAgrees ↔ Lawful s.resting s.openOrders := by
  have hi := h.identified
  refine ⟨fun hagree => hagree.registered, fun hl => ⟨hl, ?_, ?_⟩⟩
  · intro orderID ref hreg
    obtain ⟨r, hr, rfl, -⟩ := hi.registered orderID ref hreg
    exact List.count_eq_one_of_mem hi.nodup (List.mem_map_of_mem hr)
  · intro r hr
    rcases cancelOrder_spec h.queued hi r.orderID with
      ⟨hnone, -⟩ | ⟨x, t, hsome, hid, hperm, hcancel, -, -, -⟩
    · rw [hl r hr] at hnone
      simp at hnone
    · obtain rfl := hl.eq_of_orderID hi (hperm.mem_iff.mpr List.mem_cons_self) hr hid
      rw [hcancel]
      exact ⟨rfl, hperm⟩

/-- A cancel keeps the law. -/
theorem cancelOrder_lawful {s : MatchingEngine} (h : s.Reachable) (orderID : ℤ)
    (hl : Lawful s.resting s.openOrders) :
    Lawful (s.cancelOrder orderID).1.resting (s.cancelOrder orderID).1.openOrders := by
  have hi := h.identified
  rcases cancelOrder_spec h.queued hi orderID with
    ⟨-, hcancel⟩ | ⟨r, t, -, rfl, hperm, hcancel, -, hopen, -⟩
  · rw [hcancel]
    exact hl
  · rw [hcancel, hopen]
    exact (hl.perm hperm).remove (hi.perm hperm)

end MatchingVenue.MatchingEngine

namespace MatchingVenue.MatchingEngineHandler

open MatchingEngine

/-- After every event of a run, the registry and the queues of the engine agree. -/
def AgreesThroughout (events : List OrderEvent) : Prop :=
  ∀ pre, pre <+: events → (after pre).engine.RegistryAgrees

/-- An event keeps the law exactly when it does not admit an order that collides. -/
theorem onEvent_lawful_iff {h h' : MatchingEngineHandler} (hr : h.engine.Reachable)
    {event : OrderEvent} (hl : Lawful h.engine.resting h.engine.openOrders)
    (hev : h.onEvent event = .ok h') :
    Lawful h'.engine.resting h'.engine.openOrders ↔
      (event.eventType = .newOrder → ∀ o, order event = .ok o → ¬ h.engine.Collides o) := by
  -- A cancel, a NEW that the constructor refuses, and a NEW that is admitted.
  rcases onEvent_cases hev with ⟨htype, hengine, -⟩ | ⟨-, ⟨e, he⟩, hengine, -⟩ |
    ⟨htype, o, ho, hadd, -⟩
  · rw [hengine, htype]
    exact ⟨fun _ hnew => by simp at hnew, fun _ => cancelOrder_lawful hr _ hl⟩
  · rw [hengine]
    exact ⟨fun _ _ o ho => by simp [he] at ho, fun _ => hl⟩
  · rw [addOrder_lawful_iff hr (order_constructed ho) hl hadd]
    refine ⟨fun hno _ o' ho' => ?_, fun hno => hno htype o ho⟩
    obtain rfl := Except.ok.inj (ho.symm.trans ho')
    exact hno

/-- The registry and the queues agree throughout a run exactly when no event of it admits an order
that collides. -/
theorem agrees_throughout_iff (events : List OrderEvent) :
    AgreesThroughout events ↔
      ∀ pre event, pre ++ [event] <+: events → event.eventType = .newOrder →
        ∀ o, order event = .ok o → ¬ (after pre).engine.Collides o := by
  have hagree := fun pre => (reachable_after pre).registryAgrees_iff
  constructor
  · intro h pre event hpre
    have hl := (hagree _).mp (h pre ((List.prefix_append pre [event]).trans hpre))
    have hl' := (hagree _).mp (h _ hpre)
    exact (onEvent_lawful_iff (reachable_after pre) hl (onEvent_after pre event)).mp hl'
  · intro h pre hpre
    apply (hagree pre).mpr
    -- By induction on the events so far, with the law as the invariant.
    induction pre using List.reverseRecOn with
    | nil =>
      have hnil : (after []).engine.resting = [] := rfl
      rw [hnil]
      exact fun r hr => absurd hr (List.not_mem_nil)
    | append_singleton pre event ih =>
      have hl := ih ((List.prefix_append pre [event]).trans hpre)
      exact (onEvent_lawful_iff (reachable_after pre) hl (onEvent_after pre event)).mpr
        (h pre event hpre)

/-- Two buys of different clients under one id. -/
def sameIdEvents : List OrderEvent :=
  [⟨.newOrder, 1, some .buy, some .limit, some .gtc, 10000, 10, 0, 1, -1⟩,
   ⟨.newOrder, 1, some .buy, some .limit, some .gtc, 20000, 10, 0, 2, -1⟩]

/-- The second of them takes the place of the first in the registry: after a cancel of the id the
first still rests, and no cancel finds it. -/
theorem not_agreesThroughout_sameId :
    ¬ AgreesThroughout sameIdEvents ∧
      (((after sameIdEvents).engine.cancelOrder 1).1.resting.map fun r => r.price) = [10000] ∧
      (((after sameIdEvents).engine.cancelOrder 1).1.cancelOrder 1).2 = false := by
  refine ⟨fun h => ?_, by decide, by decide⟩
  let first : RestingOrder := { Order.built 1 1 .buy 10 10000 1 .gtc 0 .limit with ref := 0 }
  have hreg := (h sameIdEvents List.prefix_rfl).registered first (by decide)
  revert hreg
  decide

end MatchingVenue.MatchingEngineHandler
