import Mathlib.Data.List.Basic

/-!
# The account of one order

What a venue records about its orders is a sequence of entries: admissions, refusals, executions of
one order against another, and the ends of an order. `Account` is what the entries say about a
single order `X`, posted one by one; an entry that breaks the life cycle of an order is refused. A
`Ticket` carries the conservation of quantity as a field, so that every account has it.

The entries that name an order whose account replays without refusal have a definite shape
(`Ticket.replay_resting`, `Ticket.replay_working`). These two are stated for a list of records of
any type that is viewed as entries.
-/

namespace MatchingVenue

/-- How far an order has come. -/
inductive Stage where
  /-- It is being matched. -/
  | working
  /-- It waits in a queue. -/
  | resting
  | filled
  | cancelled
  | expired
  deriving DecidableEq, Repr

/-- An entry of the record of a venue whose orders have names in `ι`. -/
inductive Entry (ι : Type*) where
  | admitted (id : ι) (quantity : ℕ)
  | refused (id : ι)
  /-- One execution, with what remains of the aggressor after it. -/
  | executed (aggressor passive : ι) (quantity remaining : ℕ)
  | accepted (id : ι) (remaining : ℕ)
  | expired (id : ι) (remaining : ℕ)
  | cancelled (id : ι)

/-- Whether an entry is about an order. -/
def Entry.Names {ι : Type*} (X : ι) : Entry ι → Prop
  | .admitted id _ | .refused id | .accepted id _ | .expired id _ | .cancelled id => id = X
  | .executed aggressor passive _ _ => aggressor = X ∨ passive = X

/-- Whether an entry names an id can be decided. -/
instance {ι : Type*} [DecidableEq ι] (X : ι) : DecidablePred (Entry.Names X) := fun e => by
  cases e <;> unfold Entry.Names <;> infer_instance

/-- An admitted order: what it was for, what of it was executed, and what remains. -/
@[ext]
structure Ticket where
  stage : Stage
  original : ℕ
  executed : ℕ
  remaining : ℕ
  conserved : original = executed + remaining
  outstanding : remaining = 0 ↔ stage = .filled

/-- The account of one order. -/
inductive Account where
  | unknown
  | refused
  | admitted (t : Ticket)

namespace Ticket

variable {ι α : Type*}

/-- The ticket of an order that is admitted for `q`. -/
def opened (q : ℕ) (hq : 0 < q) : Ticket where
  stage := .working
  original := q
  executed := 0
  remaining := q
  conserved := (Nat.zero_add q).symm
  outstanding := ⟨fun h => absurd h (Nat.pos_iff_ne_zero.mp hq), fun h => by simp at h⟩

/-- The ticket after an execution of `m`, which fills the order when nothing remains. -/
def execute (t : Ticket) (m : ℕ) (hm : m ≤ t.remaining) : Ticket where
  stage := if m = t.remaining then .filled else t.stage
  original := t.original
  executed := t.executed + m
  remaining := t.remaining - m
  conserved := by
    have h := t.conserved
    omega
  outstanding := by
    split_ifs with h
    · simp [h]
    · rw [← t.outstanding]
      omega

/-- The ticket of an outstanding order at another stage than filled. -/
def moveTo (t : Ticket) (stage : Stage) (hstage : stage ≠ .filled)
    (ht : t.stage ≠ .filled) : Ticket :=
  { t with
    stage
    outstanding := ⟨fun h => absurd (t.outstanding.mp h) ht, fun h => absurd h hstage⟩ }

/-- Whether an order may take part in an execution: as the aggressor while it is matched or waits,
as the passive side while it waits, and never with itself. -/
def MayExecute [DecidableEq ι] (X : ι) (t : Ticket) (aggressor passive : ι)
    (m remaining : ℕ) : Prop :=
  0 < m ∧ m ≤ t.remaining ∧
    if aggressor = X then
      passive ≠ X ∧ remaining = t.remaining - m ∧ (t.stage = .working ∨ t.stage = .resting)
    else t.stage = .resting

/-- Only an order that is in the market can execute. -/
theorem MayExecute.stage [DecidableEq ι] {X : ι} {t : Ticket} {aggressor passive : ι}
    {m remaining : ℕ} (h : t.MayExecute X aggressor passive m remaining) :
    t.stage = .working ∨ t.stage = .resting := by
  obtain ⟨-, -, hstage⟩ := h
  split_ifs at hstage
  · exact hstage.2.2
  · exact .inr hstage

/-- Whether an order may execute a fill can be decided. -/
instance [DecidableEq ι] (X : ι) (t : Ticket) (aggressor passive : ι) (m remaining : ℕ) :
    Decidable (t.MayExecute X aggressor passive m remaining) := by
  unfold MayExecute
  infer_instance

/-- Posts an entry that names the order. -/
def book [DecidableEq ι] (X : ι) (t : Ticket) : Entry ι → Option Ticket
  | .executed aggressor passive m remaining =>
    if h : t.MayExecute X aggressor passive m remaining then some (t.execute m h.2.1) else none
  | .accepted _ remaining =>
    if h : t.stage = .working ∧ remaining = t.remaining then
      some (t.moveTo .resting (by decide) (by simp [h.1]))
    else none
  | .expired _ remaining =>
    if h : t.stage = .working ∧ remaining = t.remaining then
      some (t.moveTo .expired (by decide) (by simp [h.1]))
    else none
  | .cancelled _ =>
    if h : t.stage = .resting then some (t.moveTo .cancelled (by decide) (by simp [h])) else none
  | .admitted _ _ | .refused _ => none

section Book

variable [DecidableEq ι] {X : ι} {t : Ticket}

/-- A fill that the order may execute is booked as one. -/
theorem book_executed {aggressor passive : ι} {m remaining : ℕ}
    (h : t.MayExecute X aggressor passive m remaining) :
    t.book X (.executed aggressor passive m remaining) = some (t.execute m h.2.1) := by
  rw [book, dif_pos h]

/-- An acceptance of what remains of a working order moves it to the resting ones. -/
theorem book_accepted (id : ι) (h : t.stage = .working) :
    t.book X (.accepted id t.remaining) = some (t.moveTo .resting (by decide) (by simp [h])) := by
  rw [book, dif_pos ⟨h, rfl⟩]

/-- An expiry of what remains of a working order moves it to the expired ones. -/
theorem book_expired (id : ι) (h : t.stage = .working) :
    t.book X (.expired id t.remaining) = some (t.moveTo .expired (by decide) (by simp [h])) := by
  rw [book, dif_pos ⟨h, rfl⟩]

/-- A cancel of a resting order moves it to the cancelled ones. -/
theorem book_cancelled (id : ι) (h : t.stage = .resting) :
    t.book X (.cancelled id) = some (t.moveTo .cancelled (by decide) (by simp [h])) := by
  rw [book, dif_pos h]

/-- What posting an entry does to a ticket. -/
theorem book_cases {t' : Ticket} {e : Entry ι} (h : t.book X e = some t') :
    (∃ aggressor passive m remaining, ∃ hm : t.MayExecute X aggressor passive m remaining,
      e = .executed aggressor passive m remaining ∧ t' = t.execute m hm.2.1) ∨
    (∃ id, e = .accepted id t.remaining ∧ ∃ hw : t.stage = .working,
      t' = t.moveTo .resting (by decide) (by simp [hw])) ∨
    (∃ id, e = .expired id t.remaining ∧ ∃ hw : t.stage = .working,
      t' = t.moveTo .expired (by decide) (by simp [hw])) ∨
    ∃ id, e = .cancelled id ∧ ∃ hr : t.stage = .resting,
      t' = t.moveTo .cancelled (by decide) (by simp [hr]) := by
  cases e with
  | admitted id q => simp [book] at h
  | refused id => simp [book] at h
  | executed aggressor passive m remaining =>
    simp only [book] at h
    split_ifs at h with hm
    exact .inl ⟨aggressor, passive, m, remaining, hm, rfl, (Option.some.inj h).symm⟩
  | accepted id remaining =>
    simp only [book] at h
    split_ifs at h with hw
    obtain ⟨hw, rfl⟩ := hw
    exact .inr (.inl ⟨id, rfl, hw, (Option.some.inj h).symm⟩)
  | expired id remaining =>
    simp only [book] at h
    split_ifs at h with hw
    obtain ⟨hw, rfl⟩ := hw
    exact .inr (.inr (.inl ⟨id, rfl, hw, (Option.some.inj h).symm⟩))
  | cancelled id =>
    simp only [book] at h
    split_ifs at h with hr
    exact .inr (.inr (.inr ⟨id, rfl, hr, (Option.some.inj h).symm⟩))

end Book

end Ticket

namespace Account

variable {ι : Type*} [DecidableEq ι]

/-- Posts an entry that names the order. -/
def book (X : ι) : Account → Entry ι → Option Account
  | .unknown, .admitted _ q => if h : 0 < q then some (.admitted (.opened q h)) else none
  | .unknown, .refused _ => some .refused
  | .admitted t, e => (t.book X e).map .admitted
  | _, _ => none

/-- Posts an entry to the account of `X`. An entry about other orders leaves it as it is. -/
def post (X : ι) (a : Account) (e : Entry ι) : Option Account :=
  if e.Names X then a.book X e else some a

/-- Posts a sequence of entries. -/
def replay (X : ι) (a : Account) (entries : List (Entry ι)) : Option Account :=
  entries.foldlM (post X) a

/-- An account that is over: the order was refused, or it neither is matched nor waits. -/
def Closed : Account → Prop
  | .unknown => False
  | .refused => True
  | .admitted t => t.stage ≠ .working ∧ t.stage ≠ .resting

/-- The order was admitted, has come to a stage, and has a quantity left. -/
def At (stage : Stage) (n : ℕ) (a : Account) : Prop :=
  ∃ t, a = .admitted t ∧ t.stage = stage ∧ t.remaining = n

variable {X : ι} {a a' : Account}

@[simp]
theorem replay_nil : replay X a [] = some a := rfl

/-- The first entry is posted first. -/
theorem replay_cons (e : Entry ι) (entries : List (Entry ι)) :
    replay X a (e :: entries) = (post X a e).bind fun b => replay X b entries := by
  rw [replay, List.foldlM_cons]
  rfl

/-- Entries are replayed one part after the other. -/
theorem replay_append (entries entries' : List (Entry ι)) :
    replay X a (entries ++ entries') = (replay X a entries).bind fun b => replay X b entries' := by
  rw [replay, List.foldlM_append]
  rfl

/-- An entry that does not name the id leaves the account as it is. -/
theorem post_of_not_names {e : Entry ι} (h : ¬ e.Names X) : post X a e = some a := by
  rw [post, if_neg h]

/-- Entries that do not name the id leave the account as it is. -/
theorem replay_of_not_names {entries : List (Entry ι)} (h : ∀ e ∈ entries, ¬ e.Names X) :
    replay X a entries = some a := by
  induction entries with
  | nil => rfl
  | cons e entries ih =>
    obtain ⟨he, hentries⟩ := List.forall_mem_cons.mp h
    rw [replay_cons, post_of_not_names he]
    exact ih hentries

/-- An entry that names the id is booked. -/
theorem post_of_names {e : Entry ι} (h : e.Names X) : post X a e = a.book X e := by
  rw [post, if_pos h]

/-- What is booked to an admitted order is booked to its ticket. -/
theorem book_admitted {t : Ticket} {e : Entry ι} :
    book X (.admitted t) e = (t.book X e).map .admitted := by
  unfold book
  rfl

/-- What posting an entry does to an account. -/
theorem post_cases {e : Entry ι} (h : post X a e = some a') :
    (¬ e.Names X ∧ a' = a) ∨
    (a = .unknown ∧ ∃ q, ∃ hq : 0 < q, e = .admitted X q ∧ a' = .admitted (.opened q hq)) ∨
    (a = .unknown ∧ e = .refused X ∧ a' = .refused) ∨
    e.Names X ∧ ∃ t u, a = .admitted t ∧ t.book X e = some u ∧ a' = .admitted u := by
  by_cases he : e.Names X
  · right
    rw [post_of_names he] at h
    cases a with
    | refused => simp [book] at h
    | unknown =>
      -- Only an admission or a refusal starts an account.
      cases e with
      | admitted id q =>
        obtain rfl : id = X := he
        simp only [book] at h
        split_ifs at h with hq
        exact .inl ⟨rfl, q, hq, rfl, (Option.some.inj h).symm⟩
      | refused id =>
        obtain rfl : id = X := he
        exact .inr (.inl ⟨rfl, rfl, (Option.some.inj h).symm⟩)
      | _ => simp [book] at h
    | admitted t =>
      rw [book_admitted] at h
      obtain ⟨u, hu, rfl⟩ := Option.map_eq_some_iff.mp h
      exact .inr (.inr ⟨he, t, u, rfl, hu, rfl⟩)
  · rw [post_of_not_names he] at h
    exact .inl ⟨he, (Option.some.inj h).symm⟩

/-- An account that is over takes no entry that names its order. -/
theorem Closed.post (hc : a.Closed) {e : Entry ι} (h : a.post X e = some a') :
    ¬ e.Names X ∧ a' = a := by
  rcases post_cases h with hsame | ⟨rfl, -⟩ | ⟨rfl, -⟩ | ⟨-, t, u, rfl, hu, rfl⟩
  · exact hsame
  · exact hc.elim
  · exact hc.elim
  · -- Every entry that a ticket takes is about an order that is matched or waits.
    exfalso
    obtain ⟨hw, hr⟩ := hc
    rcases Ticket.book_cases hu with ⟨_, _, _, _, hm, -⟩ | ⟨_, -, hw', -⟩ | ⟨_, -, hw', -⟩ |
      ⟨_, -, hr', -⟩
    · exact hm.stage.elim hw hr
    · exact hw hw'
    · exact hw hw'
    · exact hr hr'

/-- A closed account takes no entry that names its id, so that nothing changes it. -/
theorem Closed.replay (hc : a.Closed) {entries : List (Entry ι)}
    (h : a.replay X entries = some a') : (∀ e ∈ entries, ¬ e.Names X) ∧ a' = a := by
  induction entries with
  | nil => exact ⟨by simp, (Option.some.inj h).symm⟩
  | cons e entries ih =>
    rw [replay_cons] at h
    obtain ⟨b, hb, hrest⟩ := Option.bind_eq_some_iff.mp h
    obtain ⟨he, rfl⟩ := hc.post hb
    obtain ⟨hentries, rfl⟩ := ih hrest
    exact ⟨List.forall_mem_cons.mpr ⟨he, hentries⟩, rfl⟩

/-- What nobody has admitted or refused stays unknown. -/
theorem replay_unknown {entries : List (Entry ι)} (h : replay X .unknown entries = some a)
    (hnew : ∀ e ∈ entries, (∀ q, e ≠ .admitted X q) ∧ e ≠ .refused X) :
    (∀ e ∈ entries, ¬ e.Names X) ∧ a = .unknown := by
  induction entries with
  | nil => exact ⟨by simp, (Option.some.inj h).symm⟩
  | cons e entries ih =>
    obtain ⟨⟨hnew₁, hnew₂⟩, hnew⟩ := List.forall_mem_cons.mp hnew
    rw [replay_cons] at h
    obtain ⟨b, hb, hrest⟩ := Option.bind_eq_some_iff.mp h
    rcases post_cases hb with ⟨he, rfl⟩ | ⟨-, q, -, he, -⟩ | ⟨-, he, -⟩ | ⟨-, t, u, ht, -⟩
    · obtain ⟨hentries, ha⟩ := ih hrest hnew
      exact ⟨List.forall_mem_cons.mpr ⟨he, hentries⟩, ha⟩
    · exact absurd he (hnew₁ q)
    · exact absurd he hnew₂
    · simp at ht

/-- A ticket stays a ticket of the same quantity. -/
theorem replay_admitted {t : Ticket} {entries : List (Entry ι)}
    (h : replay X (.admitted t) entries = some a) :
    ∃ t', a = .admitted t' ∧ t'.original = t.original := by
  induction entries generalizing t with
  | nil => exact ⟨t, (Option.some.inj h).symm, rfl⟩
  | cons e entries ih =>
    rw [replay_cons] at h
    obtain ⟨b, hb, hrest⟩ := Option.bind_eq_some_iff.mp h
    rcases post_cases hb with ⟨-, rfl⟩ | ⟨ht, -⟩ | ⟨ht, -⟩ | ⟨-, t₀, u, ht, hu, rfl⟩
    · exact ih hrest
    · simp at ht
    · simp at ht
    · obtain rfl := admitted.inj ht
      obtain ⟨t', ha, horiginal⟩ := ih hrest
      refine ⟨t', ha, horiginal.trans ?_⟩
      rcases Ticket.book_cases hu with ⟨_, _, _, _, _, _, rfl⟩ | ⟨_, _, _, rfl⟩ | ⟨_, _, _, rfl⟩ |
        ⟨_, _, _, rfl⟩ <;> rfl

/-- A ticket is at one stage with one quantity. -/
theorem at_admitted {t : Ticket} {stage : Stage} {n : ℕ} :
    (admitted t).At stage n ↔ t.stage = stage ∧ t.remaining = n := by
  constructor
  · rintro ⟨t', h, hstage, hn⟩
    obtain rfl := admitted.inj h
    exact ⟨hstage, hn⟩
  · rintro ⟨hstage, hn⟩
    exact ⟨t, rfl, hstage, hn⟩

/-- An order has expired exactly if its account says so, and then this was the last entry about
it. -/
theorem post_expired_iff {e : Entry ι} (h : post X a e = some a') (n : ℕ) :
    a'.At .expired n ↔ a.At .expired n ∨ e = .expired X n := by
  rcases post_cases h with ⟨he, rfl⟩ | ⟨rfl, q, hq, rfl, rfl⟩ | ⟨rfl, rfl, rfl⟩ |
    ⟨he, t, u, rfl, hu, rfl⟩
  · refine ⟨.inl, fun hor => hor.resolve_right ?_⟩
    rintro rfl
    exact he rfl
  · simp [At, Ticket.opened]
  · simp [At]
  · rw [at_admitted, at_admitted]
    rcases Ticket.book_cases hu with ⟨_, _, m, _, hm, rfl, rfl⟩ | ⟨id, rfl, hw, rfl⟩ |
      ⟨id, rfl, hw, rfl⟩ | ⟨id, rfl, hr, rfl⟩
    · have hstage := hm.stage
      simp only [Ticket.execute, reduceCtorEq, or_false]
      split_ifs <;> rcases hstage with hstage | hstage <;> simp [hstage]
    · simp [Ticket.moveTo, hw]
    · obtain rfl := he
      simp [Ticket.moveTo, hw]
    · simp [Ticket.moveTo, hr]

/-- The same for a cancelled order, which waited with the quantity that it keeps. -/
theorem post_cancelled_iff {e : Entry ι} (h : post X a e = some a') (n : ℕ) :
    a'.At .cancelled n ↔ a.At .cancelled n ∨ e = .cancelled X ∧ a.At .resting n := by
  rcases post_cases h with ⟨he, rfl⟩ | ⟨rfl, q, hq, rfl, rfl⟩ | ⟨rfl, rfl, rfl⟩ |
    ⟨he, t, u, rfl, hu, rfl⟩
  · refine ⟨.inl, fun hor => hor.resolve_right ?_⟩
    rintro ⟨rfl, -⟩
    exact he rfl
  · simp [At, Ticket.opened]
  · simp [At]
  · rw [at_admitted, at_admitted, at_admitted]
    rcases Ticket.book_cases hu with ⟨_, _, m, _, hm, rfl, rfl⟩ | ⟨id, rfl, hw, rfl⟩ |
      ⟨id, rfl, hw, rfl⟩ | ⟨id, rfl, hr, rfl⟩
    · have hstage := hm.stage
      simp only [Ticket.execute, reduceCtorEq, false_and, or_false]
      split_ifs <;> rcases hstage with hstage | hstage <;> simp [hstage]
    · simp [Ticket.moveTo, hw]
    · simp [Ticket.moveTo, hw]
    · obtain rfl := he
      simp [Ticket.moveTo, hr]

/-- An account has expired with a quantity after some entries exactly where it had before or one of
the entries says so. -/
theorem replay_expired_iff {entries : List (Entry ι)} (h : replay X a entries = some a') (n : ℕ) :
    a'.At .expired n ↔ a.At .expired n ∨ .expired X n ∈ entries := by
  induction entries generalizing a with
  | nil =>
    obtain rfl := Option.some.inj h
    simp
  | cons e entries ih =>
    rw [replay_cons] at h
    obtain ⟨b, hb, hrest⟩ := Option.bind_eq_some_iff.mp h
    rw [ih hrest, post_expired_iff hb, List.mem_cons, or_assoc, eq_comm]

/-- Only a cancel cancels. -/
theorem replay_cancelled_iff {entries : List (Entry ι)} (h : replay X a entries = some a')
    (hno : .cancelled X ∉ entries) (n : ℕ) : a'.At .cancelled n ↔ a.At .cancelled n := by
  induction entries generalizing a with
  | nil =>
    obtain rfl := Option.some.inj h
    exact .rfl
  | cons e entries ih =>
    rw [replay_cons] at h
    obtain ⟨b, hb, hrest⟩ := Option.bind_eq_some_iff.mp h
    rw [List.mem_cons, not_or] at hno
    rw [ih hrest hno.2, post_cancelled_iff hb]
    exact or_iff_left fun hcancel => hno.1 hcancel.1.symm

end Account

namespace Ticket

/-! ## The shape of a record -/

variable {ι α : Type*} [DecidableEq ι] {X : ι} {view : α → Entry ι}

/-- The records that name an order. -/
def about (view : α → Entry ι) (X : ι) (records : List α) : List α :=
  records.filter fun x => decide ((view x).Names X)

/-- Executions of an order one after the other, which take what remains of it from the first
quantity to the last. -/
inductive Fills (view : α → Entry ι) (X : ι) : ℕ → List α → ℕ → Prop where
  | nil (q : ℕ) : Fills view X q [] q
  | cons {x : α} {xs : List α} {aggressor passive : ι} {m remaining q q' : ℕ} :
    view x = .executed aggressor passive m remaining → (aggressor = X ∨ passive = X) → 0 < m →
    m ≤ q → (aggressor = X → remaining = q - m) → Fills view X (q - m) xs q' →
    Fills view X q (x :: xs) q'

/-- What may follow while an order waits: executions, and then at most a cancel of what remains. -/
def Rests (view : α → Entry ι) (X : ι) (q : ℕ) (records : List α) (t : Ticket) : Prop :=
  ∃ fills ends, records = fills ++ ends ∧ Fills view X q fills t.remaining ∧
    (ends = [] ∧ (t.stage = .resting ∨ t.stage = .filled) ∨
      ∃ x, ends = [x] ∧ view x = .cancelled X ∧ t.stage = .cancelled)

/-- What may follow while an order is matched: executions in which it is the aggressor, and then its
end or its rest. -/
def Works (view : α → Entry ι) (X : ι) (q : ℕ) (records : List α) (t : Ticket) : Prop :=
  ∃ fills ends left, records = fills ++ ends ∧ Fills view X q fills left ∧
    (∀ x ∈ fills, ∃ passive m remaining, view x = .executed X passive m remaining) ∧
    (ends = [] ∧ t.remaining = left ∧ (t.stage = .working ∨ t.stage = .filled) ∨
      (∃ x, ends = [x] ∧ view x = .expired X left ∧ t.remaining = left ∧ t.stage = .expired) ∨
      ∃ x later, ends = x :: later ∧ 0 < left ∧ view x = .accepted X left ∧
        Rests view X left later t)

omit [DecidableEq ι] in
/-- The fills of two stretches after each other are the fills of both together. -/
theorem Fills.append {q q' q'' : ℕ} {xs ys : List α} (hxs : Fills view X q xs q')
    (hys : Fills view X q' ys q'') : Fills view X q (xs ++ ys) q'' := by
  induction hxs with
  | nil q => exact hys
  | cons hx hnames hpos hle hleft _ ih => exact .cons hx hnames hpos hle hleft (ih hys)

omit [DecidableEq ι] in
/-- What follows while an order waits may be taken in two parts. -/
theorem Rests.append {q : ℕ} {xs ys : List α} {t t' : Ticket} (hxs : Rests view X q xs t)
    (hys : t.stage = .resting → Rests view X t.remaining ys t')
    (hover : t.stage ≠ .resting → ys = [] ∧ t' = t) : Rests view X q (xs ++ ys) t' := by
  obtain ⟨fills, ends, rfl, hfills, hends⟩ := hxs
  by_cases hstage : t.stage = .resting
  · -- The order still waits, so the first part is executions only.
    obtain rfl : ends = [] := by
      rcases hends with ⟨hnil, -⟩ | ⟨x, -, -, hcancelled⟩
      · exact hnil
      · simp [hstage] at hcancelled
    obtain ⟨fills', ends', rfl, hfills', hends'⟩ := hys hstage
    refine ⟨fills ++ fills', ends', ?_, hfills.append hfills', hends'⟩
    rw [List.append_nil, List.append_assoc]
  · obtain ⟨rfl, rfl⟩ := hover hstage
    exact ⟨fills, ends, List.append_nil _, hfills, hends⟩

@[simp]
theorem about_nil : about view X [] = [] := rfl

/-- A record that names the id is among those about it. -/
theorem about_cons_of_names {x : α} (h : (view x).Names X) (records : List α) :
    about view X (x :: records) = x :: about view X records := by
  rw [about, List.filter_cons_of_pos (by simpa using h), about]

/-- A record that does not name the id is not among those about it. -/
theorem about_cons_of_not_names {x : α} (h : ¬ (view x).Names X) (records : List α) :
    about view X (x :: records) = about view X records := by
  rw [about, List.filter_cons_of_neg (by simpa using h), about]

/-- Where no entry names the id, there is no record about it. -/
theorem about_eq_nil {records : List α} (h : ∀ e ∈ records.map view, ¬ e.Names X) :
    about view X records = [] := by
  refine List.filter_eq_nil_iff.mpr fun x hx => ?_
  simpa using h (view x) (List.mem_map_of_mem hx)

/-- No record of an account that is over names its order. -/
theorem about_of_closed {a a' : Account} (hc : a.Closed) {records : List α}
    (h : a.replay X (records.map view) = some a') : about view X records = [] ∧ a' = a := by
  obtain ⟨hno, ha⟩ := hc.replay h
  exact ⟨about_eq_nil hno, ha⟩

/-- A replay on a ticket, taken one record at a time. -/
theorem replay_cons_admitted {t : Ticket} {a : Account} {x : α} {records : List α}
    (h : (Account.admitted t).replay X ((x :: records).map view) = some a) :
    (¬ (view x).Names X ∧ (Account.admitted t).replay X (records.map view) = some a) ∨
    (view x).Names X ∧ ∃ t', t.book X (view x) = some t' ∧
      (Account.admitted t').replay X (records.map view) = some a := by
  rw [List.map_cons, Account.replay_cons] at h
  obtain ⟨b, hb, hrest⟩ := Option.bind_eq_some_iff.mp h
  rcases Account.post_cases hb with ⟨hx, rfl⟩ | ⟨ht, -⟩ | ⟨ht, -⟩ | ⟨hx, t₀, t', ht, ht', rfl⟩
  · exact .inl ⟨hx, hrest⟩
  · simp at ht
  · simp at ht
  · obtain rfl := Account.admitted.inj ht
    exact .inr ⟨hx, t', ht', hrest⟩

/-- The records about an order that waits: executions, and at most a cancel at the end. -/
theorem replay_resting {t : Ticket} (ht : t.stage = .resting) {records : List α} {a : Account}
    (hreplay : (Account.admitted t).replay X (records.map view) = some a) :
    ∃ t', a = .admitted t' ∧ t'.original = t.original ∧
      Rests view X t.remaining (about view X records) t' := by
  induction records generalizing t with
  | nil => exact ⟨t, (Option.some.inj hreplay).symm, rfl, [], [], rfl, .nil _, .inl ⟨rfl, .inl ht⟩⟩
  | cons x records ih =>
    rcases replay_cons_admitted hreplay with ⟨hx, h⟩ | ⟨hx, u, hu, h⟩
    · rw [about_cons_of_not_names hx]
      exact ih ht h
    rw [about_cons_of_names hx]
    -- By induction on the records. A ticket at rest takes an execution or a cancel.
    rcases book_cases hu with ⟨aggressor, passive, m, remaining, hm, he, rfl⟩ | ⟨id, he, hw, -⟩ |
      ⟨id, he, hw, -⟩ | ⟨id, he, hr, rfl⟩
    · obtain ⟨hpos, hle, hstage⟩ := hm
      have hnames : aggressor = X ∨ passive = X := by
        rw [he] at hx
        exact hx
      have hleft : aggressor = X → remaining = t.remaining - m := by
        intro hagg
        rw [if_pos hagg] at hstage
        exact hstage.2.1
      by_cases hall : m = t.remaining
      · -- The execution fills the order, and nothing follows.
        obtain ⟨hnil, rfl⟩ := about_of_closed (a := .admitted (t.execute m hle))
          (by simp [Account.Closed, execute, hall]) h
        refine ⟨_, rfl, rfl, [x], [], by rw [hnil]; rfl, ?_, .inl ⟨rfl, .inr ?_⟩⟩
        · exact .cons he hnames hpos hle hleft (.nil _)
        · simp [execute, hall]
      · obtain ⟨t', rfl, horiginal, fills, ends, hrecords, hfills, hends⟩ :=
          ih (t := t.execute m hle) (by simp [execute, hall, ht]) h
        refine ⟨t', rfl, horiginal, x :: fills, ends, by rw [hrecords]; rfl, ?_, hends⟩
        exact .cons he hnames hpos hle hleft hfills
    · simp [ht] at hw
    · simp [ht] at hw
    · obtain ⟨hnil, rfl⟩ := about_of_closed
        (a := .admitted (t.moveTo .cancelled (by decide) (by simp [ht])))
        (by simp [Account.Closed, moveTo]) h
      rw [he] at hx
      obtain rfl := hx
      exact ⟨_, rfl, rfl, [], [x], by rw [hnil]; rfl, .nil _, .inr ⟨x, rfl, he, rfl⟩⟩

/-- The record of a waiting order goes on with the records that follow, whatever they are. -/
theorem Rests.replay {q : ℕ} {xs : List α} {t : Ticket} (h : Rests view X q xs t)
    (ht : t.stage ≠ .working) {records : List α} {a : Account}
    (hreplay : (Account.admitted t).replay X (records.map view) = some a) :
    ∃ t', Rests view X q (xs ++ about view X records) t' := by
  by_cases hstage : t.stage = .resting
  · obtain ⟨t', -, -, hrests⟩ := replay_resting hstage hreplay
    exact ⟨t', h.append (fun _ => hrests) fun hne => absurd hstage hne⟩
  · have hclosed : (Account.admitted t).Closed := ⟨ht, hstage⟩
    obtain ⟨hnil, -⟩ := about_of_closed hclosed hreplay
    exact ⟨t, h.append (fun hresting => absurd hresting hstage) fun _ => ⟨hnil, rfl⟩⟩

/-- The records about an order that is matched: executions in which it is the aggressor, and its end
or its rest with what follows that. -/
theorem replay_working {t : Ticket} (ht : t.stage = .working) {records : List α} {a : Account}
    (hreplay : (Account.admitted t).replay X (records.map view) = some a) :
    ∃ t', a = .admitted t' ∧ t'.original = t.original ∧
      Works view X t.remaining (about view X records) t' := by
  induction records generalizing t with
  | nil =>
    refine ⟨t, (Option.some.inj hreplay).symm, rfl, [], [], t.remaining, rfl, .nil _, by simp, ?_⟩
    exact .inl ⟨rfl, rfl, .inl ht⟩
  | cons x records ih =>
    rcases replay_cons_admitted hreplay with ⟨hx, h⟩ | ⟨hx, u, hu, h⟩
    · rw [about_cons_of_not_names hx]
      exact ih ht h
    rw [about_cons_of_names hx]
    have hpos : 0 < t.remaining := by
      have hout := t.outstanding
      simp only [ht, reduceCtorEq, iff_false] at hout
      omega
    -- The same induction, with `replay_resting` where the order comes to rest.
    rcases book_cases hu with ⟨aggressor, passive, m, remaining, hm, he, rfl⟩ | ⟨id, he, hw, rfl⟩ |
      ⟨id, he, hw, rfl⟩ | ⟨id, he, hr, -⟩
    · obtain ⟨hm0, hle, hstage⟩ := hm
      -- An order that is matched does not wait, so it is the aggressor.
      have hagg : aggressor = X := by
        by_contra hagg
        rw [if_neg hagg, ht] at hstage
        simp at hstage
      subst hagg
      have hleft : remaining = t.remaining - m := by
        rw [if_pos rfl] at hstage
        exact hstage.2.1
      by_cases hall : m = t.remaining
      · -- Filled: nothing that names the order follows.
        obtain ⟨hnil, rfl⟩ := about_of_closed (a := .admitted (t.execute m hle))
          (by simp [Account.Closed, execute, hall]) h
        refine ⟨_, rfl, rfl, [x], [], t.remaining - m, by rw [hnil]; rfl, ?_, ?_, ?_⟩
        · exact .cons he (.inl rfl) hm0 hle (fun _ => hleft) (.nil _)
        · simpa using ⟨passive, m, remaining, he⟩
        · exact .inl ⟨rfl, rfl, .inr (by simp [execute, hall])⟩
      · obtain ⟨t', rfl, horiginal, fills, ends, left, hrecords, hfills, haggs, hends⟩ :=
          ih (t := t.execute m hle) (by simp [execute, hall, ht]) h
        refine ⟨t', rfl, horiginal, x :: fills, ends, left, by rw [hrecords]; rfl, ?_, ?_, hends⟩
        · exact .cons he (.inl rfl) hm0 hle (fun _ => hleft) hfills
        · exact List.forall_mem_cons.mpr ⟨⟨passive, m, remaining, he⟩, haggs⟩
    · rw [he] at hx
      obtain rfl := hx
      obtain ⟨t', rfl, horiginal, hrests⟩ := replay_resting rfl h
      refine ⟨t', rfl, horiginal, [], x :: about view id records, t.remaining, rfl, .nil _,
        by simp, ?_⟩
      exact .inr (.inr ⟨x, _, rfl, hpos, he, hrests⟩)
    · rw [he] at hx
      obtain rfl := hx
      obtain ⟨hnil, rfl⟩ := about_of_closed
        (a := .admitted (t.moveTo .expired (by decide) (by simp [hw])))
        (by simp [Account.Closed, moveTo]) h
      refine ⟨_, rfl, rfl, [], [x], t.remaining, by rw [hnil]; rfl, .nil _, by simp, ?_⟩
      exact .inr (.inl ⟨x, rfl, he, rfl, rfl⟩)
    · simp [ht] at hr

end Ticket

end MatchingVenue
