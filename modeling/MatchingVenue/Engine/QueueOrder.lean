import MatchingVenue.Engine.Cancellation
import MatchingVenue.Library.Precedence

/-!
# Who stands ahead at a level

A call changes who of two resting orders stands ahead in one way only: an iceberg whose displayed
slice is used up goes to the back of its level with a fresh one. `reloads` notes down the orders
that an admission sends there, in the order in which it does. Two orders at a level that are both
there after the call stand as before unless the one ahead was sent to the back and the other one not
after it (`Ordered`). Cancels and the peg pools keep every order, and an order that comes to rest is
the last one of its queue (`queue_priority`).
-/

namespace MatchingVenue.MatchingEngine

/-- The identities of the orders of a queue. -/
def refs (queue : List RestingOrder) : List Ref := queue.map fun r => r.ref

/-- The references of a queue are those of its orders. -/
theorem mem_refs {queue : List RestingOrder} {ref : Ref} :
    ref ∈ refs queue ↔ ∃ r ∈ queue, r.ref = ref :=
  List.mem_map

/-- The order that the next iteration of a lit walk sends to the back of its level: the head of the
best opposite level, where its fill uses up the displayed slice and leaves something of the
order. -/
def reloaded (side : Side) : Order × MatchingEngine → List Ref
  | (order, s) =>
    match (s.book side.opposite).firstEntry with
    | some (_, resting :: _) =>
      let resting := resting.filled (min order.quantity resting.visibleQty)
      if resting.quantity ≠ 0 ∧ resting.visibleQty = 0 then [resting.ref] else []
    | _ => []

/-- The orders that an admission sends to the back of their levels, in the order in which it
does. -/
def reloads (s : MatchingEngine) (order : Order) : List Ref :=
  if order.tif = .fok ∧ ¬ s.canFillCompletely order then []
  else match order.ordType, pegStep order s with
  | .limit, .ok (o, s) =>
    whileTrace (matchLitBody order.side) (reloaded order.side) o.quantity (o, s)
  | _, _ => []

/-- The lit walk reloads the first order of the best level where a fill uses up its slice and not
all of it. -/
theorem reloaded_eq {side : Side} {order : Order} {s : MatchingEngine} {price : ℤ}
    {r : RestingOrder} {behind : List RestingOrder} {levels : List (ℤ × List RestingOrder)} {m : ℕ}
    (hentries : (s.book side.opposite).entries = (price, r :: behind) :: levels)
    (hm : m = min order.quantity r.visibleQty) :
    reloaded side (order, s) =
      if (r.filled m).quantity ≠ 0 ∧ (r.filled m).visibleQty = 0 then [r.ref] else [] := by
  simp only [reloaded, SortedMap.firstEntry, hentries, List.head?_cons, ← hm]
  rfl

/-! ## Levels -/

/-- The queue of a level holds each order once. -/
theorem nodup_level {s : MatchingEngine} (hi : Identified s.resting s.openOrders s.nextRef)
    {side : Side} {level : ℤ × List RestingOrder} (hlevel : level ∈ (s.book side).entries) :
    (refs level.2).Nodup := by
  obtain ⟨pre, post, hsplit⟩ := List.append_of_mem hlevel
  have hperm := ((s.resting_perm side).map fun r => r.ref).nodup_iff.mp hi.nodup
  rw [orders_of_entries hsplit, List.flatMap_append, List.flatMap_cons, List.append_assoc,
    List.append_assoc, List.map_append] at hperm
  have hperm' := (List.nodup_append.mp hperm).2.1
  rw [List.map_append] at hperm'
  exact (List.nodup_append.mp hperm').1

/-- Of two orders at a level, `a` stands ahead exactly unless it fell behind `b` by the notes. -/
def Ordered (side : Side) (price : ℤ) (a b : Ref) (notes : List Ref) (s : MatchingEngine) : Prop :=
  ∀ queue, (price, queue) ∈ (s.book side).entries → a ∈ refs queue → b ∈ refs queue →
    (Ahead (refs queue) a b ↔ ¬ FellBehind notes a b)

/-- The order at a level depends on that side of the book. -/
theorem Ordered.congr {side : Side} {price : ℤ} {a b : Ref} {notes : List Ref}
    {s t : MatchingEngine} (h : Ordered side price a b notes s)
    (hbook : t.book side = s.book side) : Ordered side price a b notes t := by
  unfold Ordered
  rw [hbook]
  exact h

/-- Orders that leave change nothing for the two. -/
theorem Ordered.of_sublist {side : Side} {price : ℤ} {a b : Ref} {s t : MatchingEngine}
    (hi : Identified s.resting s.openOrders s.nextRef) (h : Ordered side price a b [] s)
    (hsub : ∀ level ∈ (t.book side).entries,
      ∃ queue, (level.1, queue) ∈ (s.book side).entries ∧ level.2.Sublist queue) :
    Ordered side price a b [] t := by
  intro queue hlevel ha hb
  obtain ⟨before, hbefore, hqueue⟩ := hsub _ hlevel
  have hrefs : (refs queue).Sublist (refs before) := hqueue.map _
  have hahead := (h before hbefore (hrefs.subset ha) (hrefs.subset hb)).mpr not_fellBehind_nil
  exact iff_of_true (hahead.of_sublist (nodup_level hi hbefore) hrefs ha hb) not_fellBehind_nil

/-- A note about an order that is neither of the two changes nothing. -/
theorem fellBehind_of_ne {a b x : Ref} {notes : List Ref} (hne : a ≠ b) (hxa : x ≠ a)
    (hxb : x ≠ b) :
    FellBehind (notes ++ [x]) a b ↔ FellBehind notes a b := by
  rw [fellBehind_concat hne]
  exact ⟨fun h => (h.resolve_left hxa).2, fun h => .inr ⟨hxb, h⟩⟩

/-- A note about the head of one level changes nothing at another level. -/
theorem Ordered.elsewhere {s : MatchingEngine} (hq : s.Queued)
    (hi : Identified s.resting s.openOrders s.nextRef) {side head : Side} {price p : ℤ}
    {r : RestingOrder} {behind queue : List RestingOrder} {a b : Ref}
    {notes : List Ref} (hne : a ≠ b) (h : Ordered side price a b notes s)
    (hfirst : (p, r :: behind) ∈ (s.book head).entries)
    (hlevel : (price, queue) ∈ (s.book side).entries) (hother : side ≠ head ∨ price ≠ p)
    (ha : a ∈ refs queue) (hb : b ∈ refs queue) {c : Prop} [Decidable c] :
    Ahead (refs queue) a b ↔ ¬ FellBehind (notes ++ if c then [r.ref] else []) a b := by
  have hat := (hq.level _ _ hfirst).2 r List.mem_cons_self
  have hr : r ∈ s.resting :=
    mem_resting.mpr ⟨_, .inl (mem_orders.mpr ⟨_, hfirst, List.mem_cons_self⟩)⟩
  have hnot : ∀ d ∈ refs queue, r.ref ≠ d := by
    intro d hd heq
    obtain ⟨x, hx, rfl⟩ := mem_refs.mp hd
    have hxat := (hq.level _ _ hlevel).2 x hx
    obtain rfl := hi.eq_of_ref hr (mem_resting.mpr ⟨_, .inl (mem_orders.mpr ⟨_, hlevel, hx⟩)⟩) heq
    exact hother.elim (fun h => h (hxat.side_eq.symm.trans hat.side_eq))
      fun h => h (hxat.price_eq.symm.trans hat.price_eq)
  split_ifs
  · rw [fellBehind_of_ne hne (hnot a ha) (hnot b hb)]
    exact h queue hlevel ha hb
  · rw [List.append_nil]
    exact h queue hlevel ha hb

/-- The queue of a level after a fill of its head, which leaves, goes to the back or stays. -/
theorem ahead_litQueue_iff {r : RestingOrder} {behind : List RestingOrder} {m : ℕ} {a b : Ref}
    {notes : List Ref} (hnodup : (r.ref :: refs behind).Nodup) (hne : a ≠ b)
    (hold : a ∈ r.ref :: refs behind → b ∈ r.ref :: refs behind →
      (Ahead (r.ref :: refs behind) a b ↔ ¬ FellBehind notes a b))
    (ha : a ∈ refs (litQueue (r.filled m) behind)) (hb : b ∈ refs (litQueue (r.filled m) behind)) :
    Ahead (refs (litQueue (r.filled m) behind)) a b ↔ ¬ FellBehind (notes ++
      if (r.filled m).quantity ≠ 0 ∧ (r.filled m).visibleQty = 0 then [r.ref] else []) a b := by
  have hhead := (List.nodup_cons.mp hnodup).1
  unfold litQueue at ha hb ⊢
  by_cases hdone : (r.filled m).quantity = 0
  · rw [if_pos hdone] at ha hb ⊢
    rw [if_neg (fun hand => hand.1 hdone), List.append_nil,
      ← hold (List.mem_cons_of_mem _ ha) (List.mem_cons_of_mem _ hb)]
    have hra : r.ref ≠ a := fun heq => hhead (by rw [heq]; exact ha)
    exact (ahead_tail_iff hra).symm
  rw [if_neg hdone] at ha hb ⊢
  by_cases hslice : (r.filled m).visibleQty = 0
  · have hturn : refs (behind ++ [(r.filled m).refreshDisplay]) = refs behind ++ [r.ref] :=
      List.map_append
    rw [if_pos hslice, hturn] at ha hb ⊢
    rw [if_pos ⟨hdone, hslice⟩]
    have hmem : ∀ {c : Ref}, c ∈ refs behind ++ [r.ref] → c ∈ r.ref :: refs behind := fun hc => by
      rw [List.mem_append, List.mem_singleton] at hc
      exact List.mem_cons.mpr hc.symm
    exact ahead_turn_iff hnodup (hmem ha) (hmem hb) hne (hold (hmem ha) (hmem hb))
  · rw [if_neg hslice] at ha hb ⊢
    rw [if_neg (fun hand => hslice hand.2), List.append_nil]
    exact hold ha hb

/-- An iteration of the lit walk. -/
theorem Ordered.matchLitBody {walk : Side} {o o' : Order} {s s' : MatchingEngine} (hq : s.Queued)
    (hi : Identified s.resting s.openOrders s.nextRef)
    (hbody : matchLitBody walk (o, s) = .ok (some (o', s'))) {side : Side} {price : ℤ} {a b : Ref}
    {notes : List Ref} (hne : a ≠ b) (h : Ordered side price a b notes s) :
    Ordered side price a b (notes ++ reloaded walk (o, s)) s' := by
  obtain ⟨p, r, behind, levels, m, hentries, -, hm, -, -, -, rfl⟩ := matchLitBody_some hbody
  rw [reloaded_eq hentries hm]
  have hfirst : (p, r :: behind) ∈ (s.book walk.opposite).entries := by simp [hentries]
  intro queue hlevel ha hb
  by_cases hside : side = walk.opposite
  swap
  · rw [book_settleLit_of_ne _ _ _ _ hside, book_recordFill] at hlevel
    exact h.elsewhere hq hi hne hfirst hlevel (.inl hside) ha hb
  subst hside
  rw [entries_settleLit _ _ _ _ (by simpa using hentries)] at hlevel
  have hcases : (price, queue) = (p, litQueue (r.filled m) behind) ∨ (price, queue) ∈ levels := by
    split_ifs at hlevel
    · exact .inr hlevel
    · exact List.mem_cons.mp hlevel
  rcases hcases with heq | hmem
  · -- The best level itself.
    obtain ⟨rfl, rfl⟩ := Prod.mk.inj heq
    exact ahead_litQueue_iff (nodup_level hi hfirst) hne (h _ hfirst) ha hb
  · have hbehind : (price, queue) ∈ (s.book walk.opposite).entries := by
      rw [hentries]
      exact List.mem_cons_of_mem _ hmem
    have hprice : price ≠ p := by
      rintro rfl
      exact irrefl price (SortedMap.lt_of_mem_rest hentries hmem)
    exact h.elsewhere hq hi hne hfirst hbehind (.inr hprice) ha hb

/-- What a lit walk leaves. The orders that it notes down are icebergs, those that rested before it
at any rate. -/
structure Walked (s : MatchingEngine) (side : Side) (price : ℤ) (a b : Ref) (notes : List Ref)
    (t : MatchingEngine) : Prop where
  queued : t.Queued
  identified : Identified t.resting t.openOrders t.nextRef
  inherits : Inherits s t
  ordered : Ordered side price a b notes t
  icebergs : ∀ ref ∈ notes, ref < s.nextRef → ∃ r ∈ s.resting, r.ref = ref ∧ 0 < r.peak

/-- A fill of the lit walk keeps what is known of it, with the order that it reloads noted down. -/
theorem Walked.matchLitBody {s u v : MatchingEngine} {side : Side} {price : ℤ} {a b : Ref}
    {notes : List Ref} (h : Walked s side price a b notes u) (hne : a ≠ b) {o o' : Order}
    (hbody : matchLitBody o.side (o, u) = .ok (some (o', v))) :
    Walked s side price a b (notes ++ reloaded o.side (o, u)) v := by
  have hstep := matchLitBody_step h.queued hbody
  refine ⟨h.queued.matchLitBody hbody, hstep.identified h.identified,
    h.inherits.trans hstep.inherits, h.ordered.matchLitBody h.queued h.identified hbody hne, ?_⟩
  obtain ⟨p, r, behind, levels, m, hentries, -, hm, -, -, -, -⟩ := matchLitBody_some hbody
  rw [reloaded_eq hentries hm, List.forall_mem_append]
  refine ⟨h.icebergs, ?_⟩
  split_ifs with hturn
  swap
  · simp
  rw [List.forall_mem_singleton]
  intro hlt
  have hfirst : (p, r :: behind) ∈ (u.book o.side.opposite).entries := by simp [hentries]
  have hr : r ∈ u.resting :=
    mem_resting.mpr ⟨_, .inl (mem_orders.mpr ⟨_, hfirst, List.mem_cons_self⟩)⟩
  -- A plain order would show what is left of it, so that its slice is not used up.
  have hpeak : r.peak ≠ 0 := by
    intro hzero
    have hplain := ((h.queued.rests hr).valid.filled m).plain_visible hzero
    simp only [RestingOrder.toOrder_filled] at hturn
    exact hturn.1 (hplain ▸ hturn.2)
  obtain ⟨r₀, hr₀, href, hfrom⟩ := (h.inherits.resting r hr).resolve_right (Nat.not_le.mpr hlt)
  rw [hfrom.peak] at hpeak
  exact ⟨r₀, hr₀, href, Nat.pos_of_ne_zero hpeak⟩

/-- What a whole lit walk leaves, with the orders that it reloads noted down. -/
theorem Walked.matchLit {s s' : MatchingEngine} {o o' : Order} (hq : s.Queued)
    (hi : Identified s.resting s.openOrders s.nextRef) (h : matchLit o.side o s = .ok (o', s'))
    {side : Side} {price : ℤ} {a b : Ref} (hne : a ≠ b) (hs : Ordered side price a b [] s) :
    Walked s side price a b
      (whileTrace (MatchingEngine.matchLitBody o.side) (reloaded o.side) o.quantity (o, s))
      s' := by
  suffices hrun : Walked s side price a b
      ([] ++ whileTrace (MatchingEngine.matchLitBody o.side) (reloaded o.side) o.quantity (o, s))
        s' ∧
        o'.side = o.side by
    rw [List.nil_append] at hrun
    exact hrun.1
  refine whileLoop_trace (I := fun notes x => Walked s side price a b notes x.2 ∧ x.1.side = o.side)
    h
    ⟨⟨hq, hi, .refl s, hs, by simp⟩, rfl⟩ ?_
  rintro notes ⟨u, su⟩ ⟨v, sv⟩ ⟨hu, hside⟩ hbody
  simp only at hu hside
  obtain ⟨_, _, _, _, m, -, -, -, -, -, hv, -⟩ := matchLitBody_some hbody
  rw [← hside] at hbody ⊢
  exact ⟨hu.matchLitBody hne hbody, by rw [hv]; rfl⟩

/-- An order that comes to rest goes behind both. -/
theorem Ordered.addToBook {s : MatchingEngine} {side : Side} {price : ℤ} {a b : Ref}
    {notes : List Ref} (h : Ordered side price a b notes s) (ha : a < s.nextRef)
    (hb : b < s.nextRef) (o : Order) :
    Ordered side price a b notes (s.addToBook o) := by
  by_cases hside : side = o.side
  swap
  · exact h.congr (book_addToBook_of_ne _ _ hside)
  subst hside
  have hnew : (s.nextObject o.refreshDisplay).ref = s.nextRef := rfl
  intro queue hlevel hamem hbmem
  rcases s.entries_addToBook o with ⟨pre, post, hold, -, hentries⟩
    | ⟨pre, before, post, hold, hentries⟩
  · rw [hentries] at hlevel
    rcases List.mem_append.mp hlevel with hlevel | hlevel
    · exact h queue (by rw [hold]; exact List.mem_append_left _ hlevel) hamem hbmem
    rcases List.mem_cons.mp hlevel with heq | hlevel
    · -- A level of its own holds neither of the two.
      obtain ⟨-, rfl⟩ := Prod.mk.inj heq
      obtain ⟨x, hx, hxref⟩ := mem_refs.mp hamem
      rw [List.mem_singleton.mp hx, hnew] at hxref
      exact absurd hxref (Nat.ne_of_gt ha)
    · exact h queue (by rw [hold]; exact List.mem_append_right _ hlevel) hamem hbmem
  · rw [hentries] at hlevel
    rcases List.mem_append.mp hlevel with hlevel | hlevel
    · exact h queue (by rw [hold]; exact List.mem_append_left _ hlevel) hamem hbmem
    rcases List.mem_cons.mp hlevel with heq | hlevel
    · obtain ⟨rfl, rfl⟩ := Prod.mk.inj heq
      have hrefs : refs (before ++ [s.nextObject o.refreshDisplay]) = refs before ++ [s.nextRef] :=
        List.map_append
      rw [hrefs] at hamem hbmem ⊢
      have hmem : ∀ {c : Ref}, c < s.nextRef → c ∈ refs before ++ [s.nextRef] →
          c ∈ refs before := by
        intro c hc hcmem
        rcases List.mem_append.mp hcmem with hcmem | hcmem
        · exact hcmem
        · rw [List.mem_singleton.mp hcmem] at hc
          exact absurd hc (Nat.lt_irrefl _)
      rw [ahead_concat_of_notMem (Nat.ne_of_lt hb)]
      exact h before (by rw [hold]; simp) (hmem ha hamem) (hmem hb hbmem)
    · refine h queue ?_ hamem hbmem
      rw [hold]
      exact List.mem_append_right _ (List.mem_cons_of_mem _ hlevel)

/-- An admission. -/
theorem addOrder_ordered {s t : MatchingEngine} (hq : s.Queued)
    (hi : Identified s.resting s.openOrders s.nextRef) {o : Order} (hadd : s.addOrder o = .ok t)
    {side : Side} {price : ℤ} {a b : Ref} (hne : a ≠ b) (ha : a < s.nextRef) (hb : b < s.nextRef)
    (hs : Ordered side price a b [] s) :
    Ordered side price a b (s.reloads o) t ∧
      ∀ ref ∈ s.reloads o, ref < s.nextRef → ∃ r ∈ s.resting, r.ref = ref ∧ 0 < r.peak := by
  unfold reloads
  rcases addOrder_cases hadd with ⟨hfok, hfail, rfl⟩ | ⟨hpass, o₁, s₁, hpeg, hrest⟩
  · rw [if_pos ⟨hfok, by simp [hfail]⟩]
    exact ⟨hs.congr (by simp), by simp⟩
  rw [if_neg (fun hand => hand.2 (hpass hand.1)), hpeg]
  have hbook := (pools_pegStep hpeg).1
  have hs₁ : Ordered side price a b [] s₁ := hs.congr (hbook side)
  have hinherits := (pegStep_steps hq hpeg).inherits
  rcases hrest with ⟨htype, rfl⟩ | ⟨htype, o₂, s₂, hlit, hcross⟩
  · simp only [htype]
    refine ⟨hs₁.congr ?_, by simp⟩
    unfold disposePeg
    split_ifs <;> simp
  · have hside := (pegStep_filledFrom hpeg).side
    simp only [htype]
    rw [← hside] at hlit ⊢
    have hwalked := Walked.matchLit (hq.pegStep hpeg) ((pegStep_steps hq hpeg).identified hi)
      hlit hne hs₁
    refine ⟨Ordered.congr (s := s₂.disposeLit o₂) ?_ ((pools_crossPegPools hcross).1 side), ?_⟩
    · have hle := hinherits.nextRef.trans hwalked.inherits.nextRef
      unfold disposeLit
      split_ifs
      · exact (hwalked.ordered.addToBook (Nat.lt_of_lt_of_le ha hle)
          (Nat.lt_of_lt_of_le hb hle) o₂).congr
          (by simp)
      · exact hwalked.ordered.congr (by simp)
    · -- What rested before the walk rested before the peg step.
      intro ref href hlt
      obtain ⟨r, hr, rfl, hpeak⟩ := hwalked.icebergs ref href
        (Nat.lt_of_lt_of_le hlt hinherits.nextRef)
      obtain ⟨r₀, hr₀, href₀, hfrom⟩ := (hinherits.resting r hr).resolve_right (Nat.not_le.mpr hlt)
      exact ⟨r₀, hr₀, href₀, hfrom.peak ▸ hpeak⟩

/-! ## Pools -/

/-- Each pool holds, in front, orders that it held before, in their order, and behind them newer
ones. -/
structure PoolsKept (s t : MatchingEngine) : Prop where
  /-- References are only given out. -/
  nextRef : s.nextRef ≤ t.nextRef
  /-- Behind the orders that were there are newer ones. -/
  pool : ∀ side, ∃ old new, refs (t.pool side) = old ++ new ∧ old.Sublist (refs (s.pool side)) ∧
    ∀ ref ∈ new, s.nextRef ≤ ref

/-- A pool keeps what it has. -/
theorem PoolsKept.refl (s : MatchingEngine) : PoolsKept s s :=
  ⟨le_rfl, fun side => ⟨refs (s.pool side), [], by simp, .refl _, by simp⟩⟩

/-- Orders that leave change nothing for the others. -/
theorem PoolsKept.sublist {s t u : MatchingEngine} (h : PoolsKept s t)
    (hsub : ∀ side, (refs (u.pool side)).Sublist (refs (t.pool side)))
    (href : u.nextRef = t.nextRef) :
    PoolsKept s u := by
  refine ⟨href ▸ h.nextRef, fun side => ?_⟩
  obtain ⟨old, new, heq, hold, hnew⟩ := h.pool side
  have hsub' := hsub side
  rw [heq] at hsub'
  obtain ⟨old', new', heq', hold', hnew'⟩ := List.sublist_append_iff.mp hsub'
  exact ⟨old', new', heq', hold'.trans hold, fun ref href => hnew ref (hnew'.subset href)⟩

/-- A fill at the head of a pool adds no reference and moves none. -/
theorem refs_pegQueue (r : RestingOrder) (behind : List RestingOrder) (m : ℕ) :
    (refs (pegQueue (r.filled m) behind)).Sublist (refs (r :: behind)) := by
  unfold pegQueue
  split_ifs
  · exact List.sublist_cons_self _ _
  · exact .refl _

/-- An admission. -/
theorem addOrder_poolsKept {s t : MatchingEngine} (hq : s.Queued) {o : Order} (hv : o.Valid)
    (hadd : s.addOrder o = .ok t) : PoolsKept s t := by
  refine hq.addOrder_induction hv hadd (.refl s) ?_ ?_ ?_ ?_ ?_ ?_ ?_
  · intro mid a u b v _ hu hbody
    obtain ⟨r, behind, m, hpool, -, -, -, rfl⟩ := matchPegPoolBody_some hbody
    refine hu.sublist ((forall_side a.side.opposite).mpr ⟨?_, ?_⟩) (by simp)
    · rw [pool_settleHead, hpool]
      exact refs_pegQueue r behind m
    · rw [pool_settleHead_of_ne _ _ _ _ (Side.opposite_ne _), pool_recordFill]
  · intro side a u b v _ hu hbody
    obtain ⟨_, _, _, _, _, -, -, -, -, -, -, rfl⟩ := matchLitBody_some hbody
    exact hu.sublist (fun x => by simp) (by simp)
  · intro mid u v _ hu hbody
    obtain ⟨bid, bids, ask, asks, m, hbids, hasks, -, -, rfl⟩ := crossPegPoolsBody_some hbody
    refine hu.sublist ((forall_side .sell).mpr ⟨?_, ?_⟩) (by simp)
    · rw [pool_settleHead, show u.pool .sell = ask :: asks from hasks]
      exact refs_pegQueue ask asks m
    · rw [pool_settleHead_of_ne _ _ _ _ (by decide), Side.opposite, pool_settleHead,
        show u.pool .buy = bid :: bids from hbids]
      exact refs_pegQueue bid bids m
  · -- A peg that comes to rest is newer than the others and goes behind them.
    intro u a _ hu _
    refine ⟨hu.nextRef.trans (by rw [nextRef_restPeg]; exact Nat.le_succ _), ?_⟩
    rw [forall_side a.side]
    constructor
    · obtain ⟨old, new, heq, hold, hnew⟩ := hu.pool a.side
      refine ⟨old, new ++ [u.nextRef], ?_, hold, ?_⟩
      · rw [pool_restPeg, ← List.append_assoc, ← heq]
        exact List.map_append
      · rw [List.forall_mem_append, List.forall_mem_singleton]
        exact ⟨hnew, hu.nextRef⟩
    · rw [pool_restPeg_of_ne _ _ (Side.opposite_ne _)]
      exact hu.pool a.side.opposite
  · intro u a _ hu _
    refine ⟨hu.nextRef.trans ?_, ?_⟩
    · show u.nextRef ≤ (u.addToBook a).nextRef
      rw [nextRef_addToBook]
      exact Nat.le_succ _
    · intro side
      rw [pool_onAccepted, pool_addToBook]
      exact hu.pool side
  · exact fun u a hu => hu.sublist (fun x => by simp) rfl
  · exact fun u a hu => hu.sublist (fun x => by simp) rfl

/-- Two pegs of a pool that are both still there stand as before. -/
theorem PoolsKept.ahead {s t : MatchingEngine} (h : PoolsKept s t)
    (hi : Identified s.resting s.openOrders s.nextRef) {side : Side} {a b : Ref}
    (hahead : Ahead (refs (s.pool side)) a b) (ha : a ∈ refs (t.pool side))
    (hb : b ∈ refs (t.pool side)) :
    Ahead (refs (t.pool side)) a b := by
  have hsub : (refs (s.pool side)).Sublist (s.resting.map fun r => r.ref) := by
    cases side
    · exact ((List.sublist_append_left _ _).trans (List.sublist_append_right _ _)).map _
    · exact ((List.sublist_append_right _ _).trans (List.sublist_append_right _ _)).map _
  obtain ⟨old, new, heq, hold, hnew⟩ := h.pool side
  have hmem : ∀ {c : Ref}, c ∈ refs (s.pool side) → c ∈ refs (t.pool side) → c ∈ old := by
    intro c hc hct
    obtain ⟨r, hr, rfl⟩ := mem_refs.mp hc
    have hlt := hi.fresh r (mem_resting.mpr ⟨side, .inr hr⟩)
    rw [heq] at hct
    exact (List.mem_append.mp hct).resolve_right fun hmem =>
      absurd (hnew _ hmem) (Nat.not_le.mpr hlt)
  rw [heq]
  exact (hahead.of_sublist (hi.nodup.sublist hsub) hold (hmem hahead.mem_left ha)
    (hmem hahead.mem_right hb)).trans (List.sublist_append_left _ _)

/-! ## Cancels -/

/-- Taking an order out leaves the others of its level and of its pool in their order. -/
theorem withdraw_sublist (s : MatchingEngine) (r : RestingOrder) :
    (∀ side, ∀ level ∈ ((s.withdraw r).book side).entries,
      ∃ queue, (level.1, queue) ∈ (s.book side).entries ∧ level.2.Sublist queue) ∧
    ∀ side, ((s.withdraw r).pool side).Sublist (s.pool side) := by
  have hsame : ∀ side, ∀ level ∈ (s.book side).entries,
      ∃ queue, (level.1, queue) ∈ (s.book side).entries ∧ level.2.Sublist queue :=
    fun side level hlevel => ⟨level.2, hlevel, .refl _⟩
  unfold withdraw
  split
  · refine ⟨by simpa using hsame, ?_⟩
    rw [forall_side r.side]
    exact ⟨by simpa using List.eraseP_sublist, by simp⟩
  split
  · exact ⟨hsame, fun _ => .refl _⟩
  rename_i queue hget
  have hlevel := (SortedMap.get?_eq_some_iff _ _ _).mp hget
  simp only
  split_ifs
  · refine ⟨?_, by simp⟩
    rw [forall_side r.side]
    refine ⟨fun level hmem => ?_, by simpa using hsame r.side.opposite⟩
    rw [book_setBook, SortedMap.entries_erase] at hmem
    exact hsame r.side level (List.mem_of_mem_filter hmem)
  · refine ⟨?_, by simp⟩
    rw [forall_side r.side]
    refine ⟨fun level hmem => ?_, by simpa using hsame r.side.opposite⟩
    rw [book_setBook, SortedMap.entries_replace] at hmem
    obtain ⟨⟨p, before⟩, hbefore, rfl⟩ := List.mem_map.mp hmem
    simp only
    split_ifs with hprice
    · exact ⟨queue, by rw [hprice]; exact hlevel, List.eraseP_sublist⟩
    · exact hsame r.side (p, before) hbefore

/-- A cancel moves no order in a queue. -/
theorem cancelOrder_sublist (s : MatchingEngine) (orderID : ℤ) :
    (∀ side, ∀ level ∈ ((s.cancelOrder orderID).1.book side).entries,
      ∃ queue, (level.1, queue) ∈ (s.book side).entries ∧ level.2.Sublist queue) ∧
    ∀ side, ((s.cancelOrder orderID).1.pool side).Sublist (s.pool side) := by
  have hsame : ∀ t : MatchingEngine, (∀ x, t.book x = s.book x) → (∀ x, t.pool x = s.pool x) →
      (∀ side, ∀ level ∈ (t.book side).entries,
        ∃ queue, (level.1, queue) ∈ (s.book side).entries ∧ level.2.Sublist queue) ∧
      ∀ side, (t.pool side).Sublist (s.pool side) := by
    intro t hbook hpool
    refine ⟨fun side level hlevel => ⟨level.2, hbook side ▸ hlevel, .refl _⟩, fun side => ?_⟩
    rw [hpool]
  unfold cancelOrder
  split
  · exact hsame s (fun _ => rfl) fun _ => rfl
  simp only
  split
  · exact hsame _ (by simp) (by simp)
  rename_i r _
  split_ifs
  · exact hsame _ (by simp) (by simp)
  · simpa using withdraw_sublist ((s.unregister orderID).retire r.toOrder.cancel) r

/-- What rests after a cancel rested before it. -/
theorem cancelOrder_inherits {s : MatchingEngine} (hq : s.Queued)
    (hi : Identified s.resting s.openOrders s.nextRef) (orderID : ℤ) :
    Inherits s (s.cancelOrder orderID).1 ∧ (s.cancelOrder orderID).1.resting ⊆ s.resting := by
  rcases cancelOrder_spec hq hi orderID with ⟨-, hcancel⟩ | ⟨r, t, -, -, hperm, hcancel, -, -, href⟩
  · rw [hcancel]
    exact ⟨.refl s, List.Subset.refl _⟩
  · have hsub : t.resting ⊆ s.resting := fun x hx => hperm.mem_iff.mpr (List.mem_cons_of_mem r hx)
    rw [hcancel]
    exact ⟨.of_subset href hsub, hsub⟩

/-! ## The newest order -/

/-- A resting order is the last one of its level or of its pool. -/
def IsLast (s : MatchingEngine) (r : RestingOrder) : Prop :=
  (r.ordType = .limit → ∃ ahead, (r.price, ahead ++ [r]) ∈ (s.book r.side).entries) ∧
    (r.ordType = .pegMid → ∃ ahead, s.pool r.side = ahead ++ [r])

/-- Only an order that comes to rest is a new object. -/
theorem Steps.match_nextRef {o o' : Order} {s s' : MatchingEngine}
    (h : Steps (some o, s) (some o', s')) :
    s'.nextRef = s.nextRef := by
  refine h.match_induction (P := fun _ u => u.nextRef = s.nextRef) rfl ?_
  intro a u b v hu hstep
  cases hstep with
  | hit _ _ _ _ _ _ _ _ _ _ _ _ _ href => exact href.trans hu

/-- The pool cross gives out no reference. -/
theorem Steps.cross_nextRef {s t : MatchingEngine} (h : Steps (none, s) (none, t)) :
    t.nextRef = s.nextRef := by
  refine h.cross_induction (P := fun u => u.nextRef = s.nextRef) rfl ?_
  intro u v hu hstep
  cases hstep with
  | cross _ _ _ _ _ _ _ _ _ _ _ _ href => exact href.trans hu

/-- A limit order that comes to rest is at the back of its level. -/
theorem last_addToBook (s : MatchingEngine) (o : Order) :
    ∃ ahead, (o.price, ahead ++ [s.nextObject o.refreshDisplay]) ∈
      ((s.addToBook o).book o.side).entries := by
  rcases s.entries_addToBook o with ⟨pre, post, -, -, hentries⟩ | ⟨pre, queue, post, -, hentries⟩
  · exact ⟨[], by simp [hentries]⟩
  · exact ⟨queue, by simp [hentries]⟩

/-- A new order of an admission is the last one of its queue. -/
theorem addOrder_isLast {s t : MatchingEngine} (hq : s.Queued)
    (hi : Identified s.resting s.openOrders s.nextRef) {o : Order} (hv : o.Valid)
    (hpos : 0 < o.quantity) (hadd : s.addOrder o = .ok t) {x : RestingOrder} (hx : x ∈ t.resting)
    (hnew : s.nextRef ≤ x.ref) : t.IsLast x := by
  have hit := (addOrder_steps hq hv hpos hadd).identified hi
  have hold : ∀ {u : MatchingEngine} {y : RestingOrder},
      Identified u.resting u.openOrders u.nextRef →
      u.nextRef = s.nextRef → y ∈ u.resting → y.ref ≠ x.ref := by
    intro u y hiu href hy heq
    have hlt := hiu.fresh y hy
    rw [href, heq] at hlt
    exact absurd hnew (Nat.not_le.mpr hlt)
  rcases addOrder_cases hadd with ⟨-, -, rfl⟩ | ⟨-, o₁, s₁, hpeg, hrest⟩
  · exact absurd rfl (hold hit rfl hx)
  have hpegSteps := pegStep_steps hq hpeg
  have hi₁ := hpegSteps.identified hi
  have href₁ := hpegSteps.match_nextRef
  have hq₁ := hq.pegStep hpeg
  have hfrom₁ := pegStep_filledFrom hpeg
  rcases hrest with ⟨htype, rfl⟩ | ⟨htype, o₂, s₂, hlit, hcross⟩
  · unfold disposePeg at hx ⊢
    split_ifs at hx ⊢ with hrests
    · rcases List.mem_cons.mp ((s₁.resting_restPeg o₁).mem_iff.mp hx) with rfl | hx
      · have htype' : (s₁.nextObject o₁).ordType = .pegMid := hfrom₁.ordType.trans htype
        exact ⟨fun hlimit => by simp [htype'] at hlimit, fun _ => ⟨_, pool_restPeg s₁ o₁⟩⟩
      · exact absurd rfl (hold hi₁ href₁ hx)
    · rw [resting_congr (s := s₁) (by simp) (by simp)] at hx
      exact absurd rfl (hold hi₁ href₁ hx)
  have hfrom₂ := hfrom₁.trans (matchLit_filledFrom hlit)
  have hlitSteps : Steps (some o₁, s₁) (some o₂, s₂) :=
    matchLit_steps hq₁ (by rw [hfrom₁.side]; exact hlit)
  have hi₂ := hlitSteps.identified hi₁
  have href₂ : s₂.nextRef = s.nextRef := hlitSteps.match_nextRef.trans href₁
  have hq₂ := (hq₁.matchLit hlit).disposeLit (hfrom₂.valid hv) (hfrom₂.ordType.trans htype)
  have hcrossSteps := crossPegPools_steps hq₂ hcross
  obtain ⟨r, hr, href, hfrom⟩ := (hcrossSteps.inherits.resting x hx).resolve_right
    (Nat.not_le.mpr (by rw [← hcrossSteps.cross_nextRef]; exact hit.fresh x hx))
  simp only at hr
  unfold disposeLit at hr hcross
  split_ifs at hr hcross with hrests
  swap
  · rw [resting_congr (s := s₂) (by simp) (by simp)] at hr
    exact absurd href (hold hi₂ href₂ hr)
  rw [resting_congr (s := s₂.addToBook o₂) (by simp) (by simp)] at hr
  rcases List.mem_cons.mp ((s₂.resting_addToBook o₂).mem_iff.mp hr) with rfl | hr
  swap
  · exact absurd href (hold hi₂ href₂ hr)
  -- The pool cross does not touch the level.
  obtain ⟨ahead, hlevel⟩ := s₂.last_addToBook o₂
  rw [← book_onAccepted, ← (pools_crossPegPools hcross).1] at hlevel
  obtain rfl := hit.eq_of_ref hx (mem_resting.mpr ⟨_, .inl (mem_orders.mpr ⟨_, hlevel, by simp⟩)⟩)
    href.symm
  have htype' : (s₂.nextObject o₂.refreshDisplay).ordType = .limit := hfrom₂.ordType.trans htype
  exact ⟨fun _ => ⟨ahead, hlevel⟩, fun hpegMid => by simp [htype'] at hpegMid⟩

/-! ## Calls -/

/-- How the orders that rest in `t` stand, as compared with `s`. At a level, an order stays ahead of
another one unless it is an iceberg that was sent to the back and the other one was not sent there
after it; in a pool, it stays ahead; and an order that was not there before is the last one of its
queue. -/
structure KeepsOrder (s t : MatchingEngine) (notes : List Ref) : Prop where
  /-- Of two orders of a level that still rest, the one behind overtakes the other only where that
  is an iceberg and was reloaded last. -/
  level : ∀ side, ∀ level ∈ (s.book side).entries, ∀ a ∈ level.2, ∀ b ∈ level.2,
    Ahead (refs level.2) a.ref b.ref → a.ref ∈ refs t.resting → b.ref ∈ refs t.resting →
    ∃ queue, (level.1, queue) ∈ (t.book side).entries ∧ a.ref ∈ refs queue ∧ b.ref ∈ refs queue ∧
      (Ahead (refs queue) a.ref b.ref ↔ ¬ FellBehind notes a.ref b.ref) ∧
      (FellBehind notes a.ref b.ref → 0 < a.peak)
  /-- Two pegs that still rest are in the order that they were in. -/
  pool : ∀ side, ∀ a ∈ s.pool side, ∀ b ∈ s.pool side, Ahead (refs (s.pool side)) a.ref b.ref →
    a.ref ∈ refs t.resting → b.ref ∈ refs t.resting → Ahead (refs (t.pool side)) a.ref b.ref
  /-- A new order is the last of its queue. -/
  newest : ∀ r ∈ t.resting, r.ref ∉ refs s.resting → t.IsLast r

section Places

variable {s t : MatchingEngine} (hq : s.Queued) (hi : Identified s.resting s.openOrders s.nextRef)
  (hqt : t.Queued) (h : Inherits s t)

include hi h

/-- An order that is still there is what is left of the one that was. -/
theorem still_there {a : RestingOrder} (ha : a ∈ s.resting) (hat : a.ref ∈ refs t.resting) :
    ∃ x ∈ t.resting, x.ref = a.ref ∧ FilledFrom a.toOrder x.toOrder := by
  obtain ⟨x, hx, href⟩ := mem_refs.mp hat
  rcases h.resting x hx with ⟨r, hr, hrref, hfrom⟩ | hnew
  · obtain rfl := hi.eq_of_ref hr ha (hrref.trans href)
    exact ⟨x, hx, href, hfrom⟩
  · have hlt := hi.fresh a ha
    rw [← href] at hlt
    exact absurd hnew (Nat.not_le.mpr hlt)

include hq hqt

/-- An order stays at its level. -/
theorem same_level {side : Side} {level : ℤ × List RestingOrder}
    (hlevel : level ∈ (s.book side).entries) {a : RestingOrder} (ha : a ∈ level.2)
    (hat : a.ref ∈ refs t.resting) :
    ∃ queue, (level.1, queue) ∈ (t.book side).entries ∧ a.ref ∈ refs queue := by
  have hrests := (hq.level side level hlevel).2 a ha
  obtain ⟨x, hx, href, hfrom⟩ :=
    still_there hi h (mem_resting.mpr ⟨side, .inl (mem_orders.mpr ⟨level, hlevel, ha⟩)⟩) hat
  obtain ⟨queue, hqueue, hxq⟩ := hqt.mem_level hx (hfrom.ordType.trans hrests.ordType_eq)
  rw [hfrom.price, hfrom.side, hrests.price_eq, hrests.side_eq] at hqueue
  exact ⟨queue, hqueue, mem_refs.mpr ⟨x, hxq, href⟩⟩

/-- A peg stays in its pool. -/
theorem same_pool {side : Side} {a : RestingOrder} (ha : a ∈ s.pool side)
    (hat : a.ref ∈ refs t.resting) :
    a.ref ∈ refs (t.pool side) := by
  have hrests := hq.pool side a ha
  obtain ⟨x, hx, href, hfrom⟩ := still_there hi h (mem_resting.mpr ⟨side, .inr ha⟩) hat
  have hxp := hqt.mem_pool hx (hfrom.ordType.trans hrests.ordType_eq)
  rw [hfrom.side, hrests.side_eq] at hxp
  exact mem_refs.mpr ⟨x, hxp, href⟩

end Places

/-- The order in the queues is kept where the phases of an operation keep it. -/
theorem KeepsOrder.of_phases {s t : MatchingEngine} {notes : List Ref} (hq : s.Queued)
    (hi : Identified s.resting s.openOrders s.nextRef) (hqt : t.Queued) (h : Inherits s t)
    (hordered : ∀ side price a b, a ≠ b → a < s.nextRef → b < s.nextRef →
    Ordered side price a b [] s →
      Ordered side price a b notes t ∧
        ∀ ref ∈ notes, ref < s.nextRef → ∃ r ∈ s.resting, r.ref = ref ∧ 0 < r.peak)
    (hpools : PoolsKept s t) (hnewest : ∀ r ∈ t.resting, s.nextRef ≤ r.ref → t.IsLast r) :
    KeepsOrder s t notes where
  level := by
    intro side level hlevel a ha b hb hahead hat hbt
    have hmem : ∀ {x : RestingOrder}, x ∈ level.2 → x ∈ s.resting := fun hx =>
      mem_resting.mpr ⟨side, .inl (mem_orders.mpr ⟨level, hlevel, hx⟩)⟩
    have hstart : Ordered side level.1 a.ref b.ref [] s := by
      intro queue hqueue _ _
      rw [(s.book side).entry_unique hqueue hlevel]
      exact iff_of_true hahead not_fellBehind_nil
    obtain ⟨hend, hicebergs⟩ := hordered side level.1 a.ref b.ref
      (hahead.ne (nodup_level hi hlevel))
      (hi.fresh a (hmem ha)) (hi.fresh b (hmem hb)) hstart
    obtain ⟨queue, hqueue, haq⟩ := same_level hq hi hqt h hlevel ha hat
    obtain ⟨queue', hqueue', hbq⟩ := same_level hq hi hqt h hlevel hb hbt
    obtain rfl := (t.book side).entry_unique hqueue hqueue'
    refine ⟨queue, hqueue, haq, hbq, hend queue hqueue haq hbq, fun hfell => ?_⟩
    obtain ⟨r, hr, href, hpeak⟩ := hicebergs a.ref hfell.mem (hi.fresh a (hmem ha))
    obtain rfl := hi.eq_of_ref hr (hmem ha) href
    exact hpeak
  pool := by
    intro side a ha b hb hahead hat hbt
    exact hpools.ahead hi hahead (same_pool hq hi hqt h ha hat) (same_pool hq hi hqt h hb hbt)
  newest := by
    intro r hr hnot
    refine hnewest r hr ((h.resting r hr).resolve_left ?_)
    rintro ⟨r₀, hr₀, href, -⟩
    exact hnot (mem_refs.mpr ⟨r₀, hr₀, href⟩)

/-- Queue priority is lost only by reloading: for every admission and every cancel, two orders at a
level that are both still there stand as before, unless the one ahead is an iceberg whose slice was
used up and reloaded and the other one was not reloaded after it. A pool keeps its order in any
case, and a newly resting order is the last one of its queue. -/
theorem queue_priority {s : MatchingEngine} (h : s.Reachable) :
    (∀ o t, o.Constructed → s.addOrder o = .ok t → KeepsOrder s t (s.reloads o)) ∧
      ∀ orderID, KeepsOrder s (s.cancelOrder orderID).1 [] := by
  have hq := h.queued
  have hi := h.identified
  constructor
  · intro o t ho hadd
    obtain ⟨hv, hpos⟩ := ho.valid
    have ht := h.addOrder ho hadd
    exact .of_phases hq hi ht.queued (addOrder_steps hq hv hpos hadd).inherits
      (fun side price a b hne ha hb hs => addOrder_ordered hq hi hadd hne ha hb hs)
      (addOrder_poolsKept hq hv hadd) fun r hr hnew => addOrder_isLast hq hi hv hpos hadd hr hnew
  · intro orderID
    obtain ⟨hinherits, hsub⟩ := cancelOrder_inherits hq hi orderID
    obtain ⟨hlevels, hpools⟩ := cancelOrder_sublist s orderID
    refine .of_phases hq hi (h.cancelOrder orderID).queued hinherits ?_ ?_ ?_
    · exact fun side price a b _ _ _ hs => ⟨hs.of_sublist hi (hlevels side), by simp⟩
    · refine (PoolsKept.refl s).sublist (fun side => (hpools side).map _) ?_
      rcases cancelOrder_spec hq hi orderID with ⟨-, hcancel⟩ | ⟨r, t, -, -, -, hcancel, -, -, href⟩
      · rw [hcancel]
      · rw [hcancel]
        exact href
    · exact fun r hr hnew => absurd hnew (Nat.not_le.mpr (hi.fresh r (hsub hr)))

/-- An iceberg bid and, behind it at the same level, a plain one. -/
def reloadCalls : List Call :=
  [.addOrder ⟨.built 1 1 .buy 40 10000 1 .gtc 10 .limit,
    1, 1, some .buy, 40, 10000, 1, some .gtc, 10, some .limit, rfl⟩,
   .addOrder ⟨.built 2 2 .buy 5 10000 1 .gtc 0 .limit,
    2, 2, some .buy, 5, 10000, 1, some .gtc, 0, some .limit, rfl⟩]

/-- A sell of the first slice of `reloadCalls` sends the iceberg behind the plain bid. -/
theorem queue_priority_reload : ∃ t queue,
    (after reloadCalls).addOrder (.built 3 3 .sell 10 10000 1 .ioc 0 .limit) = .ok t ∧
      (10000, queue) ∈ (t.book .buy).entries ∧ 0 ∈ refs queue ∧ 1 ∈ refs queue ∧
      ¬ Ahead (refs queue) 0 1 := by
  have hadd := addOrder_after reloadCalls ⟨.built 3 3 .sell 10 10000 1 .ioc 0 .limit,
    3, 3, some .sell, 10, 10000, 1, some .ioc, 0, some .limit, rfl⟩
  have hkeeps := (queue_priority (reachable_after reloadCalls)).1 _ _
    ⟨3, 3, some .sell, 10, 10000, 1, some .ioc, 0, some .limit, rfl⟩ hadd
  let a : RestingOrder := { Order.built 1 1 .buy 40 10000 1 .gtc 10 .limit with ref := 0 }
  let b : RestingOrder := { Order.built 2 2 .buy 5 10000 1 .gtc 0 .limit with ref := 1 }
  obtain ⟨queue, hqueue, ha, hb, hiff, -⟩ :=
    hkeeps.level .buy (10000, [a, b]) (by decide) a (by decide) b (by decide)
    (List.Sublist.refl _) (by decide) (by decide)
  have hreloads : (after reloadCalls).reloads (.built 3 3 .sell 10 10000 1 .ioc 0 .limit) =
      [0] := by decide
  exact ⟨_, queue, hadd, hqueue, ha, hb, fun hahead =>
    hiff.mp hahead ⟨[], [], hreloads, List.not_mem_nil⟩⟩

end MatchingVenue.MatchingEngine
