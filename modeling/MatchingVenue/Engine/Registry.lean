import MatchingVenue.Engine.Execution
import Mathlib.Data.List.Nodup

/-!
# The registry and the queues

`openOrders` finds a resting order by its id. Whatever ids the clients choose, what the registry
holds is an order that rests, under its own id (`Identified`), so that a cancel takes exactly that
order out of its queue (`cancelOrder_spec`). The converse, that every resting order is registered,
is `Lawful`. Each step of an admission keeps it but one: an order that comes to rest while another
of its id rests takes that order's place in the registry.
-/

namespace MatchingVenue

/-- The resting orders are distinct objects, older than the next one, and what the registry holds is
one of them, under its own id. -/
structure Identified (orders : List RestingOrder) (openOrders : ℤ → Option Ref) (nextRef : Ref) :
    Prop where
  /-- No two orders are one object. -/
  nodup : (orders.map fun r => r.ref).Nodup
  /-- References are given out in order. -/
  fresh : ∀ r ∈ orders, r.ref < nextRef
  /-- What is registered rests under its id. -/
  registered : ∀ orderID ref, openOrders orderID = some ref →
    ∃ r ∈ orders, r.ref = ref ∧ r.orderID = orderID

/-- Every resting order is what the registry holds under its id. -/
def Lawful (orders : List RestingOrder) (openOrders : ℤ → Option Ref) : Prop :=
  ∀ r ∈ orders, openOrders r.orderID = some r.ref

open MatchingEngine (kept unlessDone)

/-- An order is kept where something of it remains. -/
theorem mem_kept {r x : RestingOrder} : x ∈ kept r ↔ r.quantity ≠ 0 ∧ x = r := by
  unfold kept
  split_ifs with hq
  · simp [hq]
  · simp [hq]

/-- What the registry holds after a fill is what it held, and not the order that the fill
finished. -/
theorem unlessDone_eq_some {r : RestingOrder} {openOrders : ℤ → Option Ref} {orderID : ℤ}
    {ref : Ref} :
    unlessDone r openOrders orderID = some ref ↔
      openOrders orderID = some ref ∧ ¬ (r.quantity = 0 ∧ orderID = r.orderID) := by
  unfold unlessDone
  -- A finished order leaves the entry of its own id empty, and only that one.
  split_ifs with hq
  · by_cases hid : orderID = r.orderID
    · subst hid
      simp [hq]
    · simp [hid]
  · simp [hq]

namespace Identified

variable {orders others : List RestingOrder} {openOrders : ℤ → Option Ref} {nextRef : Ref}

/-- The objects are told apart whatever the order in which they are listed. -/
theorem perm {orders' : List RestingOrder} (h : Identified orders openOrders nextRef)
    (hperm : orders.Perm orders') : Identified orders' openOrders nextRef where
  nodup := (hperm.map _).nodup_iff.mp h.nodup
  fresh := fun r hr => h.fresh r (hperm.mem_iff.mpr hr)
  registered := fun orderID ref hreg => by
    obtain ⟨r, hr, href⟩ := h.registered orderID ref hreg
    exact ⟨r, hperm.mem_iff.mp hr, href⟩

/-- Two resting orders with one identity are one order. -/
theorem eq_of_ref (h : Identified orders openOrders nextRef) {r x : RestingOrder} (hr : r ∈ orders)
    (hx : x ∈ orders) (href : r.ref = x.ref) : r = x :=
  List.inj_on_of_nodup_map h.nodup hr hx href

/-- The search by identity finds the order of that identity. -/
theorem find? (h : Identified orders openOrders nextRef) {r : RestingOrder} (hr : r ∈ orders) :
    orders.find? (fun o => o.ref = r.ref) = some r := by
  cases hfind : orders.find? fun o => o.ref = r.ref with
  | none =>
    have := List.find?_eq_none.mp hfind r hr
    simp at this
  | some x =>
    have hxref : x.ref = r.ref := by simpa using List.find?_some hfind
    rw [h.eq_of_ref (List.mem_of_find?_eq_some hfind) hr hxref]

/-- A fill of a resting order leaves the others, and it where something of it is left. -/
theorem fill {r : RestingOrder} (h : Identified (r :: others) openOrders nextRef)
    (r' : RestingOrder) (href : r'.ref = r.ref) (hid : r'.orderID = r.orderID) :
    Identified (kept r' ++ others) (unlessDone r' openOrders) nextRef where
  nodup := by
    have hnodup := h.nodup
    rw [List.map_cons] at hnodup
    unfold kept
    split_ifs
    · exact hnodup.of_cons
    · simpa [href] using hnodup
  fresh := by
    have hfresh := List.forall_mem_cons.mp h.fresh
    intro x hx
    rcases List.mem_append.mp hx with hx | hx
    · rw [(mem_kept.mp hx).2, href]
      exact hfresh.1
    · exact hfresh.2 x hx
  registered := by
    intro orderID ref hreg
    obtain ⟨hreg, hkeep⟩ := unlessDone_eq_some.mp hreg
    obtain ⟨x, hx, hxref, hxid⟩ := h.registered orderID ref hreg
    rcases List.mem_cons.mp hx with rfl | hx
    · -- The filled order is still what the registry holds, so something of it is left.
      have hq : r'.quantity ≠ 0 := fun hq => hkeep ⟨hq, by rw [hid, hxid]⟩
      exact ⟨r', List.mem_append_left _ (mem_kept.mpr ⟨hq, rfl⟩), href.trans hxref, hid.trans hxid⟩
    · exact ⟨x, List.mem_append_right _ hx, hxref, hxid⟩

/-- A new object comes to rest under its id. -/
theorem rest {r : RestingOrder} (h : Identified orders openOrders nextRef)
    (href : r.ref = nextRef) :
    Identified (r :: orders) (Function.update openOrders r.orderID (some r.ref)) (nextRef + 1) where
  nodup := by
    rw [List.map_cons, List.nodup_cons]
    refine ⟨?_, h.nodup⟩
    intro hmem
    obtain ⟨x, hx, hxref⟩ := List.mem_map.mp hmem
    -- An older object with the new reference would be as new as the next one.
    have hlt := h.fresh x hx
    rw [hxref, href] at hlt
    exact Nat.lt_irrefl _ hlt
  fresh := by
    refine List.forall_mem_cons.mpr ⟨?_, fun x hx => Nat.lt_succ_of_lt (h.fresh x hx)⟩
    rw [href]
    exact Nat.lt_succ_self _
  registered := by
    intro orderID ref hreg
    -- The new entry is the new order's; the other entries are as they were.
    by_cases hid : orderID = r.orderID
    · subst hid
      rw [Function.update_self] at hreg
      exact ⟨r, List.mem_cons_self, Option.some.inj hreg, rfl⟩
    · rw [Function.update_of_ne hid] at hreg
      obtain ⟨x, hx, hxref, hxid⟩ := h.registered orderID ref hreg
      exact ⟨x, List.mem_cons_of_mem _ hx, hxref, hxid⟩

/-- An order leaves its queue and the registry. -/
theorem remove {r : RestingOrder} (h : Identified (r :: others) openOrders nextRef) :
    Identified others (Function.update openOrders r.orderID none) nextRef where
  nodup := by
    have hnodup := h.nodup
    rw [List.map_cons] at hnodup
    exact hnodup.of_cons
  fresh := (List.forall_mem_cons.mp h.fresh).2
  registered := by
    intro orderID ref hreg
    by_cases hid : orderID = r.orderID
    · subst hid
      simp at hreg
    · rw [Function.update_of_ne hid] at hreg
      obtain ⟨x, hx, hxref, hxid⟩ := h.registered orderID ref hreg
      rcases List.mem_cons.mp hx with rfl | hx
      · exact absurd hxid.symm hid
      · exact ⟨x, hx, hxref, hxid⟩

end Identified

namespace Lawful

variable {orders others : List RestingOrder} {openOrders : ℤ → Option Ref} {nextRef : Ref}

/-- The law of the registry does not depend on the order in which the orders are listed. -/
theorem perm {orders' : List RestingOrder} (h : Lawful orders openOrders)
    (hperm : orders.Perm orders') : Lawful orders' openOrders :=
  fun r hr => h r (hperm.mem_iff.mpr hr)

/-- Under the law, two resting orders with one id are one order. -/
theorem eq_of_orderID (h : Lawful orders openOrders) (hi : Identified orders openOrders nextRef)
    {r x : RestingOrder} (hr : r ∈ orders) (hx : x ∈ orders) (hid : r.orderID = x.orderID) :
    r = x := by
  have hreg := h r hr
  rw [hid, h x hx] at hreg
  exact hi.eq_of_ref hr hx (Option.some.inj hreg).symm

/-- Under the law, no other order has the id of the first one. -/
theorem ne_of_mem {r : RestingOrder} (h : Lawful (r :: others) openOrders)
    (hi : Identified (r :: others) openOrders nextRef) {x : RestingOrder} (hx : x ∈ others) :
    x.orderID ≠ r.orderID := by
  intro hid
  obtain rfl := h.eq_of_orderID hi (List.mem_cons_of_mem r hx) List.mem_cons_self hid
  have hnodup := hi.nodup
  rw [List.map_cons, List.nodup_cons] at hnodup
  exact hnodup.1 (List.mem_map_of_mem hx)

/-- A fill keeps the law: the order that it finishes leaves the registry, and no other has its
id. -/
theorem fill {r : RestingOrder} (h : Lawful (r :: others) openOrders)
    (hi : Identified (r :: others) openOrders nextRef) (r' : RestingOrder) (href : r'.ref = r.ref)
    (hid : r'.orderID = r.orderID) : Lawful (kept r' ++ others) (unlessDone r' openOrders) := by
  intro x hx
  apply unlessDone_eq_some.mpr
  -- What is left of the filled order keeps its entry. The entry of another order stays as well, for
  -- its id is not that of the finished one.
  rcases List.mem_append.mp hx with hx | hx
  · obtain ⟨hq, rfl⟩ := mem_kept.mp hx
    refine ⟨?_, fun hdone => hq hdone.1⟩
    rw [hid, href]
    exact h r List.mem_cons_self
  · refine ⟨h x (List.mem_cons_of_mem r hx), ?_⟩
    rintro ⟨-, hdone⟩
    exact h.ne_of_mem hi hx (hdone.trans hid)

/-- An order that comes to rest keeps the law where no order of its id rests. -/
theorem rest {r : RestingOrder} (h : Lawful orders openOrders)
    (hid : ∀ x ∈ orders, x.orderID ≠ r.orderID) :
    Lawful (r :: orders) (Function.update openOrders r.orderID (some r.ref)) := by
  refine List.forall_mem_cons.mpr ⟨Function.update_self .., fun x hx => ?_⟩
  rw [Function.update_of_ne (hid x hx)]
  exact h x hx

/-- An order that leaves its queue and the registry keeps the law. -/
theorem remove {r : RestingOrder} (h : Lawful (r :: others) openOrders)
    (hi : Identified (r :: others) openOrders nextRef) :
    Lawful others (Function.update openOrders r.orderID none) := by
  intro x hx
  rw [Function.update_of_ne (h.ne_of_mem hi hx)]
  exact h x (List.mem_cons_of_mem r hx)

end Lawful

namespace MatchingEngine

/-! ## The engine's registry -/

/-- What an admission's event does to a resting order that it fills: the object, the id and the
quantity are those of the fill, whether or not it shows a fresh slice. -/
theorem hit_fields {r r' : RestingOrder} {m : ℕ}
    (h : r' = r.filled m ∨ r' = (r.filled m).refreshDisplay) :
    r'.ref = r.ref ∧ r'.orderID = r.orderID ∧ r'.quantity = r.quantity - m := by
  rcases h with rfl | rfl
  · exact ⟨rfl, rfl, rfl⟩
  · exact ⟨rfl, rfl, rfl⟩

/-- An order rests under its id. -/
theorem rest_orderID {o : Order} {r : RestingOrder}
    (h : r.toOrder = o ∨ r.toOrder = o.refreshDisplay) :
    r.orderID = o.orderID := by
  rcases h with h | h
  · rw [h]
  · rw [h]
    rfl

/-- Whether an order leaves the registry depends on its id and on whether it is done. -/
theorem unlessDone_congr {r r' : RestingOrder} (hid : r'.orderID = r.orderID)
    (hq : r'.quantity = r.quantity) (openOrders : ℤ → Option Ref) :
    unlessDone r' openOrders = unlessDone r openOrders := by
  unfold unlessDone
  rw [hid, hq]

/-- A step keeps what the registry holds resting. -/
theorem Step.identified {x y : Option Order × MatchingEngine} (h : Step x y)
    (hi : Identified x.2.resting x.2.openOrders x.2.nextRef) :
    Identified y.2.resting y.2.openOrders y.2.nextRef := by
  cases h with
  | hit r r' others price m hrest hrest' hr' _ _ _ _ hopen href =>
    obtain ⟨hid₁, hid₂, hid₃⟩ := hit_fields hr'
    -- The registry goes by the quantity left, which a fresh slice does not change.
    have hi' := (hi.perm hrest).fill r' hid₁ hid₂
    rw [unlessDone_congr (r := r.filled m) hid₂ hid₃, ← hopen, ← href] at hi'
    exact hi'.perm hrest'.symm
  | cross bid ask others price m hrest hrest' _ _ _ _ hopen href =>
    -- The bid is filled as the head of the list, then the ask.
    have hb := (hi.perm hrest).fill (bid.filled m) rfl rfl
    have ha := (hb.perm List.perm_middle).fill (ask.filled m) rfl rfl
    rw [← hopen, ← href] at ha
    exact ha.perm (hrest'.trans (List.perm_append_comm_assoc _ _ _)).symm
  | rest r _ _ hrest href hr _ hopen hnext =>
    have hi' := hi.rest href
    rw [rest_orderID hr] at hi'
    simp only at hi' ⊢
    rw [hopen, hnext]
    exact hi'.perm hrest.symm
  | expire _ _ hrest _ _ hopen href =>
    simp only at hi ⊢
    rw [hrest, hopen, href]
    exact hi
  | finish _ hrest _ hopen href =>
    simp only at hi ⊢
    rw [hrest, hopen, href]
    exact hi

/-- Steps keep the objects apart. -/
theorem Steps.identified {x y : Option Order × MatchingEngine} (h : Steps x y)
    (hi : Identified x.2.resting x.2.openOrders x.2.nextRef) :
    Identified y.2.resting y.2.openOrders y.2.nextRef :=
  steps_inv h (fun x => Identified x.2.resting x.2.openOrders x.2.nextRef) hi fun _ _ hi hstep =>
    hstep.identified hi

/-- Every resting order of `t` is what is left of one that rested in `s`, or a newer object than all
of those. -/
structure Inherits (s t : MatchingEngine) : Prop where
  nextRef : s.nextRef ≤ t.nextRef
  resting : ∀ x ∈ t.resting,
    (∃ r ∈ s.resting, r.ref = x.ref ∧ FilledFrom r.toOrder x.toOrder) ∨ s.nextRef ≤ x.ref

/-- An engine inherits from itself. -/
theorem Inherits.refl (s : MatchingEngine) : Inherits s s :=
  ⟨le_rfl, fun x hx => .inl ⟨x, hx, rfl, .refl _⟩⟩

/-- What is inherited twice is inherited. -/
theorem Inherits.trans {s t u : MatchingEngine} (h : Inherits s t) (h' : Inherits t u) :
    Inherits s u := by
  refine ⟨h.nextRef.trans h'.nextRef, fun x hx => ?_⟩
  rcases h'.resting x hx with ⟨r, hr, href, hfrom⟩ | hnew
  · rcases h.resting r hr with ⟨r₀, hr₀, href₀, hfrom₀⟩ | hnew
    · exact .inl ⟨r₀, hr₀, href₀.trans href, hfrom₀.trans hfrom⟩
    · exact .inr (href ▸ hnew)
  · exact .inr (h.nextRef.trans hnew)

/-- What rests in `t` rests in `s`. -/
theorem Inherits.of_subset {s t : MatchingEngine} (href : t.nextRef = s.nextRef)
    (hsub : t.resting ⊆ s.resting) :
    Inherits s t :=
  ⟨href.symm.le, fun x hx => .inl ⟨x, hsub hx, rfl, .refl _⟩⟩

/-- After a step of the match, what rests is what rested or a part of it. -/
theorem Step.descends {o o' : Order} {s s' : MatchingEngine} (h : Step (some o, s) (some o', s'))
    {x : RestingOrder} (hx : x ∈ s'.resting) :
    ∃ r ∈ s.resting, r.ref = x.ref ∧ FilledFrom r.toOrder x.toOrder := by
  cases h with
  | hit r r' others price m hrest hrest' hr' =>
    -- Either the hit order itself, when something of it is left, or one of the others.
    rcases List.mem_append.mp (hrest'.mem_iff.mp hx) with hx | hx
    · obtain ⟨-, rfl⟩ := mem_kept.mp hx
      have hr : r ∈ s.resting := hrest.mem_iff.mpr List.mem_cons_self
      rcases hr' with rfl | rfl
      · exact ⟨r, hr, rfl, (FilledFrom.refl _).filled m⟩
      · exact ⟨r, hr, rfl, ((FilledFrom.refl _).filled m).refreshDisplay⟩
    · exact ⟨x, hrest.mem_iff.mpr (List.mem_cons_of_mem _ hx), rfl, .refl _⟩

/-- A step leads to an engine that inherits from the one before. -/
theorem Step.inherits {x y : Option Order × MatchingEngine} (h : Step x y) : Inherits x.2 y.2 := by
  have hother : ∀ {s : MatchingEngine} {z : RestingOrder}, z ∈ s.resting →
      (∃ r ∈ s.resting, r.ref = z.ref ∧ FilledFrom r.toOrder z.toOrder) ∨ s.nextRef ≤ z.ref :=
    fun hz => .inl ⟨_, hz, rfl, .refl _⟩
  have hstep := h
  cases h with
  | hit r r' others price m hrest hrest' hr' _ _ _ _ _ href =>
    exact ⟨href.symm.le, fun z hz => .inl (hstep.descends hz)⟩
  | @cross s s' bid ask others price m hrest hrest' _ _ _ _ _ href =>
    refine ⟨href.symm.le, fun z hz => ?_⟩
    have hcut : ∀ r ∈ bid :: ask :: others, z ∈ kept (r.filled m) →
        ∃ r ∈ s.resting, r.ref = z.ref ∧ FilledFrom r.toOrder z.toOrder := by
      intro r hr hz
      obtain ⟨-, rfl⟩ := mem_kept.mp hz
      exact ⟨r, hrest.mem_iff.mpr hr, rfl, (FilledFrom.refl _).filled m⟩
    rcases List.mem_append.mp (hrest'.mem_iff.mp hz) with hz | hz
    · exact .inl (hcut bid List.mem_cons_self hz)
    rcases List.mem_append.mp hz with hz | hz
    · exact .inl (hcut ask (List.mem_cons_of_mem _ List.mem_cons_self) hz)
    · exact hother (hrest.mem_iff.mpr (List.mem_cons_of_mem _ (List.mem_cons_of_mem _ hz)))
  | rest r _ _ hrest href _ _ _ hnext =>
    refine ⟨(Nat.le_succ _).trans hnext.symm.le, fun z hz => ?_⟩
    rcases List.mem_cons.mp (hrest.mem_iff.mp hz) with rfl | hz
    · exact .inr href.symm.le
    · exact hother hz
  | expire _ _ hrest _ _ _ href => exact .of_subset href fun _ hx => hrest ▸ hx
  | finish _ hrest _ _ href => exact .of_subset href fun _ hx => hrest ▸ hx

/-- Steps lead to an engine that inherits from the one before. -/
theorem Steps.inherits {x y : Option Order × MatchingEngine} (h : Steps x y) : Inherits x.2 y.2 :=
  steps_inv h (fun y => Inherits x.2 y.2) (.refl _) fun _ _ hu hstep => hu.trans hstep.inherits

/-- What fills and fresh slices keep of an order holds of the incoming order and of all that rest
after a step, where it held of them before. -/
theorem Step.keeps {P : Order → Prop} (hfill : ∀ o m, P o → P (o.filled m))
    (hrefresh : ∀ o, P o → P o.refreshDisplay) {x y : Option Order × MatchingEngine} (h : Step x y)
    (hx : (∀ o ∈ x.1, P o) ∧ ∀ r ∈ x.2.resting, P r.toOrder) :
    (∀ o ∈ y.1, P o) ∧ ∀ r ∈ y.2.resting, P r.toOrder := by
  obtain ⟨ho, hrests⟩ := hx
  have hnone : ∀ o ∈ (none : Option Order), P o := fun _ ho => absurd ho (by simp)
  cases h with
  | @hit o s s' r r' others price m hrest hrest' hr' _ _ _ _ _ _ =>
    refine ⟨fun a ha => ?_, fun x hx => ?_⟩
    · rw [← Option.mem_some.mp ha]
      exact hfill o m (ho o rfl)
    · rcases List.mem_append.mp (hrest'.mem_iff.mp hx) with hx | hx
      · obtain ⟨-, rfl⟩ := mem_kept.mp hx
        have hcut := hfill _ m (hrests r (hrest.mem_iff.mpr List.mem_cons_self))
        rcases hr' with rfl | rfl
        · exact hcut
        · exact hrefresh _ hcut
      · exact hrests x (hrest.mem_iff.mpr (List.mem_cons_of_mem _ hx))
  | cross bid ask others price m hrest hrest' _ _ _ _ _ _ =>
    have hold : ∀ z ∈ bid :: ask :: others, P z.toOrder := fun z hz =>
      hrests z (hrest.mem_iff.mpr hz)
    have hcut : ∀ z ∈ bid :: ask :: others, ∀ x ∈ kept (z.filled m), P x.toOrder := by
      intro z hz x hx
      obtain ⟨-, rfl⟩ := mem_kept.mp hx
      exact hfill _ m (hold z hz)
    refine ⟨hnone, fun x hx => ?_⟩
    rcases List.mem_append.mp (hrest'.mem_iff.mp hx) with hx | hx
    · exact hcut bid List.mem_cons_self x hx
    rcases List.mem_append.mp hx with hx | hx
    · exact hcut ask (List.mem_cons_of_mem _ List.mem_cons_self) x hx
    · exact hold x (List.mem_cons_of_mem _ (List.mem_cons_of_mem _ hx))
  | @rest o s s' r _ _ hrest _ hr _ _ _ =>
    refine ⟨hnone, fun x hx => ?_⟩
    rcases List.mem_cons.mp (hrest.mem_iff.mp hx) with rfl | hx
    · rcases hr with hr | hr
      · rw [hr]
        exact ho o rfl
      · rw [hr]
        exact hrefresh o (ho o rfl)
    · exact hrests x hx
  | expire _ _ hrest _ _ _ _ => exact ⟨hnone, fun x hx => hrests x (hrest ▸ hx)⟩
  | finish _ hrest _ _ _ => exact ⟨hnone, fun x hx => hrests x (hrest ▸ hx)⟩

/-- What fills and reloads keep of an order is kept of the incoming order and of all resting
ones. -/
theorem Steps.keeps {P : Order → Prop} (hfill : ∀ o m, P o → P (o.filled m))
    (hrefresh : ∀ o, P o → P o.refreshDisplay) {x y : Option Order × MatchingEngine} (h : Steps x y)
    (hx : (∀ o ∈ x.1, P o) ∧ ∀ r ∈ x.2.resting, P r.toOrder) :
    (∀ o ∈ y.1, P o) ∧ ∀ r ∈ y.2.resting, P r.toOrder :=
  steps_inv h (fun x => (∀ o ∈ x.1, P o) ∧ ∀ r ∈ x.2.resting, P r.toOrder) hx fun _ _ hx hstep =>
    hstep.keeps hfill hrefresh hx

/-- The search by identity takes out the order of that identity, and leaves the others in their
places. -/
theorem eraseP_split {orders l : List RestingOrder} {openOrders : ℤ → Option Ref} {nextRef : Ref}
    (hi : Identified orders openOrders nextRef) (hl : l ⊆ orders) {r : RestingOrder} (hr : r ∈ l) :
    ∃ ahead behind, l = ahead ++ r :: behind ∧
      l.eraseP (fun o => o.ref = r.ref) = ahead ++ behind := by
  obtain ⟨x, ahead, behind, -, hx, hsplit, herase⟩ :=
    List.exists_of_eraseP hr (p := fun o => o.ref = r.ref) (by simp)
  have hxmem : x ∈ orders := hl (by rw [hsplit]; simp)
  -- The search may stop at any order with the reference, but only one has it.
  obtain rfl := hi.eq_of_ref hxmem (hl hr) (by simpa using hx)
  exact ⟨ahead, behind, hsplit, herase⟩

/-- The level that a queue makes at a price: none where the queue is empty. -/
def levelOf (price : ℤ) (queue : List RestingOrder) : List (ℤ × List RestingOrder) :=
  if queue = [] then [] else [(price, queue)]

/-- A level has the orders of its queue, and none where it is gone. -/
theorem flatMap_levelOf (price : ℤ) (queue : List RestingOrder) :
    (levelOf price queue).flatMap Prod.snd = queue := by
  unfold levelOf
  split_ifs with hnil
  · exact hnil.symm
  · simp

/-- A limit order is taken out of the queue at its price. -/
theorem withdraw_of_get? {s : MatchingEngine} {r : RestingOrder} (htype : r.ordType = .limit)
    {queue : List RestingOrder} (hget : (s.book r.side).get? r.price = some queue) :
    s.withdraw r =
      if queue.eraseP (fun o => o.ref = r.ref) = [] then
      s.setBook r.side ((s.book r.side).erase r.price)
      else s.setBook r.side
        ((s.book r.side).replace r.price (queue.eraseP fun o => o.ref = r.ref)) := by
  unfold withdraw
  rw [htype]
  simp only [hget, List.isEmpty_iff]

/-- A limit order leaves its level, which goes where it was the last one. The other levels, and the
other orders at the level, stay where they are. -/
theorem withdraw_level {s : MatchingEngine} (hq : s.Queued) {openOrders : ℤ → Option Ref}
    (hi : Identified s.resting openOrders s.nextRef) {r : RestingOrder} (hr : r ∈ s.resting)
    (htype : r.ordType = .limit) :
    (∃ pre ahead behind post,
      (s.book r.side).entries = pre ++ (r.price, ahead ++ r :: behind) :: post ∧
      ((s.withdraw r).book r.side).entries = pre ++ levelOf r.price (ahead ++ behind) ++ post) ∧
      (s.withdraw r).book r.side.opposite = s.book r.side.opposite ∧
      ∀ x, (s.withdraw r).pool x = s.pool x := by
  obtain ⟨queue, hlevel, hqueue⟩ := hq.mem_level hr htype
  have hget := (SortedMap.get?_eq_some_iff _ _ _).mpr hlevel
  obtain ⟨pre, post, hsplit, herase, hreplace⟩ := SortedMap.split_of_mem _ hlevel
  have hsub : queue ⊆ s.resting := fun x hx =>
    mem_resting.mpr ⟨r.side, .inl (mem_orders.mpr ⟨_, hlevel, hx⟩)⟩
  obtain ⟨ahead, behind, rfl, hrest⟩ := eraseP_split hi hsub hqueue
  rw [withdraw_of_get? htype hget, hrest]
  unfold levelOf
  split_ifs with hempty
  · refine ⟨⟨pre, ahead, behind, post, hsplit, ?_⟩, by simp, by simp⟩
    rw [book_setBook, herase, if_pos hempty, List.append_nil]
  · refine ⟨⟨pre, ahead, behind, post, hsplit, ?_⟩, by simp, by simp⟩
    rw [book_setBook, hreplace, if_neg hempty, List.append_assoc]
    rfl

/-- The withdrawal of a limit order takes it out of its book, and leaves the other book and the
pools. -/
theorem withdraw_limit {s : MatchingEngine} (hq : s.Queued) {openOrders : ℤ → Option Ref}
    (hi : Identified s.resting openOrders s.nextRef) {r : RestingOrder} (hr : r ∈ s.resting)
    (htype : r.ordType = .limit) :
    (s.book r.side).orders.Perm (r :: ((s.withdraw r).book r.side).orders) ∧
      (s.withdraw r).book r.side.opposite = s.book r.side.opposite ∧
      ∀ x, (s.withdraw r).pool x = s.pool x := by
  obtain ⟨⟨pre, ahead, behind, post, hold, hnew⟩, hcontra, hpool⟩ := withdraw_level hq hi hr htype
  refine ⟨?_, hcontra, hpool⟩
  rw [orders_of_entries hold, orders_of_entries hnew]
  simp only [List.flatMap_append, List.flatMap_cons, flatMap_levelOf, List.append_assoc,
    List.cons_append]
  rw [← List.append_assoc, ← List.append_assoc _ ahead]
  exact List.perm_middle

/-- A peg leaves its pool, and the others stay where they are. -/
theorem withdraw_pool {s : MatchingEngine} (hq : s.Queued) {openOrders : ℤ → Option Ref}
    (hi : Identified s.resting openOrders s.nextRef) {r : RestingOrder} (hr : r ∈ s.resting)
    (htype : r.ordType = .pegMid) :
    (∃ ahead behind, s.pool r.side = ahead ++ r :: behind ∧
      (s.withdraw r).pool r.side = ahead ++ behind) ∧
      (s.withdraw r).pool r.side.opposite = s.pool r.side.opposite ∧
      ∀ x, (s.withdraw r).book x = s.book x := by
  have hsub : s.pool r.side ⊆ s.resting := fun x hx => mem_resting.mpr ⟨r.side, .inr hx⟩
  obtain ⟨ahead, behind, hsplit, hrest⟩ := eraseP_split hi hsub (hq.mem_pool hr htype)
  unfold withdraw
  rw [htype]
  refine ⟨⟨ahead, behind, hsplit, ?_⟩, by simp, by simp⟩
  rw [pool_setPool, hrest]

/-- The withdrawal of a peg takes it out of its pool, and leaves the other pool and the books. -/
theorem withdraw_pegMid {s : MatchingEngine} (hq : s.Queued) {openOrders : ℤ → Option Ref}
    (hi : Identified s.resting openOrders s.nextRef) {r : RestingOrder} (hr : r ∈ s.resting)
    (htype : r.ordType = .pegMid) :
    (s.pool r.side).Perm (r :: (s.withdraw r).pool r.side) ∧
      (s.withdraw r).pool r.side.opposite = s.pool r.side.opposite ∧
      ∀ x, (s.withdraw r).book x = s.book x := by
  obtain ⟨⟨ahead, behind, hold, hnew⟩, hcontra, hbook⟩ := withdraw_pool hq hi hr htype
  refine ⟨?_, hcontra, hbook⟩
  rw [hold, hnew]
  exact List.perm_middle

/-- Taking a resting order out of its queue leaves the others. -/
theorem withdraw_spec {s : MatchingEngine} (hq : s.Queued) {openOrders : ℤ → Option Ref}
    (hi : Identified s.resting openOrders s.nextRef) {r : RestingOrder} (hr : r ∈ s.resting) :
    s.resting.Perm (r :: (s.withdraw r).resting) := by
  cases htype : r.ordType with
  | limit =>
    obtain ⟨hown, hcontra, hpool⟩ := withdraw_limit hq hi hr htype
    refine (s.resting_perm r.side).trans ((hown.append_right _).trans (List.Perm.cons r ?_))
    rw [← hcontra, ← hpool, ← hpool]
    exact (resting_perm _ r.side).symm
  | pegMid =>
    obtain ⟨hown, hcontra, hbook⟩ := withdraw_pegMid hq hi hr htype
    refine (s.resting_perm_pools r.side).trans ((hown.append_right _).trans (List.Perm.cons r ?_))
    rw [← hcontra, ← hbook, ← hbook]
    exact (resting_perm_pools _ r.side).symm

/-- A cancel of an id that the registry has finds the order that rests under it. -/
theorem cancelOrder_eq {s : MatchingEngine} (hq : s.Queued)
    (hi : Identified s.resting s.openOrders s.nextRef) {orderID : ℤ} {r : RestingOrder}
    (hr : r ∈ s.resting) (hreg : s.openOrders orderID = some r.ref) :
    s.cancelOrder orderID =
      (((s.unregister orderID).retire r.toOrder.cancel).withdraw r, true) := by
  -- The registry is not part of what rests.
  have hun : (s.unregister orderID).resting = s.resting := resting_congr (by simp) (by simp)
  have hfind : (s.unregister orderID).resting.find? (fun o => o.ref = r.ref) = some r := by
    rw [hun]
    exact hi.find? hr
  have hpos := (hq.rests hr).quantity_pos
  unfold cancelOrder
  rw [hreg]
  simp only [hfind]
  rw [if_neg (by omega)]

/-- A cancel of an id that the registry does not have changes nothing; a cancel of one that it has
takes that order out of its queue and out of the registry, in the state in which it rested. -/
theorem cancelOrder_spec {s : MatchingEngine} (hq : s.Queued)
    (hi : Identified s.resting s.openOrders s.nextRef) (orderID : ℤ) :
    (s.openOrders orderID = none ∧ s.cancelOrder orderID = (s, false)) ∨
    ∃ r t, s.openOrders orderID = some r.ref ∧ r.orderID = orderID ∧
      s.resting.Perm (r :: t.resting) ∧ s.cancelOrder orderID = (t, true) ∧
      Logs s t [] [] [r.toOrder.cancel] ∧
      t.openOrders = Function.update s.openOrders orderID none ∧ t.nextRef = s.nextRef := by
  cases hreg : s.openOrders orderID with
  | none =>
    left
    unfold cancelOrder
    rw [hreg]
    exact ⟨rfl, rfl⟩
  | some ref =>
    right
    obtain ⟨r, hr, rfl, hid⟩ := hi.registered orderID ref hreg
    -- The registry and the log of the dead orders are not part of what rests.
    have hu : ((s.unregister orderID).retire r.toOrder.cancel).resting = s.resting :=
      resting_congr (by simp) (by simp)
    have hperm := withdraw_spec (s := (s.unregister orderID).retire r.toOrder.cancel)
      (hq.congr (by simp) (by simp)) (by rw [hu]; exact hi) (hu ▸ hr)
    rw [hu] at hperm
    refine ⟨r, ((s.unregister orderID).retire r.toOrder.cancel).withdraw r, rfl, hid, hperm,
      cancelOrder_eq hq hi hr hreg, ⟨?_, ?_, ?_⟩, ?_, ?_⟩
    · rw [trades_withdraw, List.append_nil]
      rfl
    · rw [executionListener_withdraw, List.append_nil]
      rfl
    · rw [retired_withdraw]
      rfl
    · rw [openOrders_withdraw]
      rfl
    · rw [nextRef_withdraw]
      rfl

/-- What the registry of a reachable state holds rests. -/
theorem Reachable.identified {s : MatchingEngine} (h : s.Reachable) :
    Identified s.resting s.openOrders s.nextRef := by
  refine Reachable.step_induction (P := fun s => Identified s.resting s.openOrders s.nextRef) ?_
    (fun _ _ hi hstep => hstep.identified hi) (fun s orderID hr hi => ?_) h
  · have hnil : ({} : MatchingEngine).resting = [] := rfl
    exact ⟨by simp [hnil], by simp [hnil], by simp⟩
  · rcases cancelOrder_spec hr.queued hi orderID with ⟨-, hnone⟩
      | ⟨r, t, -, rfl, hperm, hsome, -, hopen, href⟩
    · rw [hnone]
      exact hi
    · rw [hsome, hopen, href]
      exact (hi.perm hperm).remove

end MatchingEngine

end MatchingVenue
