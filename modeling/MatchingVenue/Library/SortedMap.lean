import Mathlib.Order.Defs.Unbundled
import Mathlib.Data.List.Sort
import Mathlib.Tactic.Common

/-!
# Maps sorted by their keys

`SortedMap lt α` is a finite map from keys to values of `α` whose entries are kept in the order
`lt`, first entry first, as a red-black tree with a comparator keeps them. The order is a field of
the structure, so that a map out of order, or with a key twice, cannot be built.

The operations are those that a price book uses: read and drop the first entry, change the value at
a key, add to the value at a key that may be absent, and drop a key.
-/

namespace MatchingVenue

universe u v

/-- A map from keys to values, as the list of its entries in the strict order `lt` of the keys. -/
@[ext]
structure SortedMap {κ : Type u} (lt : κ → κ → Prop) (α : Type v) where
  /-- The entries, first key first. -/
  entries : List (κ × α)
  /-- Each key comes before every later one. -/
  sorted : entries.Pairwise fun a b => lt a.1 b.1

namespace SortedMap

variable {κ : Type u} {lt : κ → κ → Prop} {α : Type v}

/-- The map with no entries. -/
def empty : SortedMap lt α := ⟨[], .nil⟩

/-- The map without entries. -/
instance : EmptyCollection (SortedMap lt α) := ⟨empty⟩

/-- The map without entries is the default one. -/
instance : Inhabited (SortedMap lt α) := ⟨∅⟩

@[simp]
theorem entries_empty : (∅ : SortedMap lt α).entries = [] := rfl

/-- Whether the map has no entry. -/
def isEmpty (m : SortedMap lt α) : Bool := m.entries.isEmpty

@[simp]
theorem isEmpty_iff (m : SortedMap lt α) : m.isEmpty = true ↔ m.entries = [] :=
  List.isEmpty_iff

/-- The first entry, when there is one. -/
def firstEntry (m : SortedMap lt α) : Option (κ × α) := m.entries.head?

/-- The first key, when there is one. -/
def firstKey (m : SortedMap lt α) : Option κ := m.entries.head?.map Prod.fst

/-- The keys, in their order. -/
def keys (m : SortedMap lt α) : List κ := m.entries.map Prod.fst

@[simp]
theorem mem_keys {m : SortedMap lt α} {k : κ} : k ∈ m.keys ↔ ∃ a, (k, a) ∈ m.entries := by
  simp [keys]

/-- The map without its first entry. -/
def pollFirst (m : SortedMap lt α) : SortedMap lt α := ⟨m.entries.tail, m.sorted.tail⟩

@[simp]
theorem entries_pollFirst (m : SortedMap lt α) : m.pollFirst.entries = m.entries.tail := rfl

/-- The map with the value of each entry changed by `f`, which is given the entry's key. -/
def mapValues (f : κ → α → α) (m : SortedMap lt α) : SortedMap lt α :=
  ⟨m.entries.map fun e => (e.1, f e.1 e.2), List.pairwise_map.mpr m.sorted⟩

/-- The map with another value for its first entry. -/
def setFirst (a : α) : SortedMap lt α → SortedMap lt α
  | ⟨[], h⟩ => ⟨[], h⟩
  | ⟨(k, _) :: rest, h⟩ => ⟨(k, a) :: rest, by simpa using h⟩

/-- Setting the first value changes the first entry only. -/
theorem entries_setFirst {m : SortedMap lt α} {k : κ} {b : α} {rest : List (κ × α)}
    (h : m.entries = (k, b) :: rest) (a : α) : (m.setFirst a).entries = (k, a) :: rest := by
  obtain ⟨entries, sorted⟩ := m
  obtain rfl : entries = (k, b) :: rest := h
  rfl

/-- Each key after the first comes after it. -/
theorem lt_of_mem_rest {m : SortedMap lt α} {k : κ} {a : α} {rest : List (κ × α)}
    (h : m.entries = (k, a) :: rest) {e : κ × α} (he : e ∈ rest) : lt k e.1 := by
  have hs := m.sorted
  rw [h] at hs
  exact (List.pairwise_cons.mp hs).1 e he

/-- Two entries of one key are the same entry. -/
theorem entry_unique [Std.Irrefl lt] (m : SortedMap lt α) {k : κ} {a b : α}
    (ha : (k, a) ∈ m.entries) (hb : (k, b) ∈ m.entries) : a = b := by
  by_contra hne
  -- Any two entries are in order one way or the other, so that equal keys mean one entry.
  have h := List.Pairwise.forall_of_forall_of_flip (R := fun x y : κ × α => x.1 = y.1 → x = y)
    (fun _ _ _ => rfl)
    (m.sorted.imp fun hlt heq => absurd (heq ▸ hlt) (irrefl_of lt _))
    (m.sorted.imp fun hlt heq => absurd (heq ▸ hlt) (irrefl_of lt _)) ha hb rfl
  exact hne (Prod.mk.inj h).2

section Keys

variable [DecidableEq κ]

/-- The value at a key, when the map has it. -/
def get? (m : SortedMap lt α) (k : κ) : Option α :=
  (m.entries.find? fun e => e.1 = k).map Prod.snd

/-- The map without the entry of a key. -/
def erase (m : SortedMap lt α) (k : κ) : SortedMap lt α :=
  ⟨m.entries.filter fun e => e.1 ≠ k, m.sorted.filter _⟩

@[simp]
theorem entries_erase (m : SortedMap lt α) (k : κ) :
    (m.erase k).entries = m.entries.filter fun e => e.1 ≠ k := rfl

/-- The map with another value at a key that it has. -/
def replace (m : SortedMap lt α) (k : κ) (a : α) : SortedMap lt α :=
  m.mapValues fun k' b => if k' = k then a else b

@[simp]
theorem entries_replace (m : SortedMap lt α) (k : κ) (a : α) :
    (m.replace k a).entries = m.entries.map fun e => (e.1, if e.1 = k then a else e.2) := rfl

/-- A map finds a value under a key exactly where it has the entry. -/
theorem get?_eq_some_iff [Std.Irrefl lt] (m : SortedMap lt α) (k : κ) (a : α) :
    m.get? k = some a ↔ (k, a) ∈ m.entries := by
  unfold get?
  constructor
  · intro h
    obtain ⟨⟨k', b⟩, hfind, rfl⟩ := Option.map_eq_some_iff.mp h
    have hk : k' = k := by simpa using List.find?_some hfind
    exact hk ▸ List.mem_of_find?_eq_some hfind
  · intro h
    cases hfind : m.entries.find? fun e => e.1 = k with
    | none =>
      have := List.find?_eq_none.mp hfind _ h
      simp at this
    | some e =>
      obtain ⟨k', b⟩ := e
      have hk : k' = k := by simpa using List.find?_some hfind
      subst hk
      rw [Option.map_some, m.entry_unique (List.mem_of_find?_eq_some hfind) h]

/-- The entries with the value at `k` made from the value that was there, or from nothing where `k`
was absent, in which case it takes its place in the order. -/
def upsertEntries (lt : κ → κ → Prop) [DecidableRel lt] (k : κ) (f : Option α → α) :
    List (κ × α) → List (κ × α)
  | [] => [(k, f none)]
  | (k', a) :: rest =>
    if k' = k then (k, f (some a)) :: rest
    else if lt k k' then (k, f none) :: (k', a) :: rest
    else (k', a) :: upsertEntries lt k f rest

/-- An entry after an insertion is the one of the key, or was there before. -/
theorem mem_upsertEntries [DecidableRel lt] {k : κ} {f : Option α → α} {l : List (κ × α)}
    {e : κ × α} (h : e ∈ upsertEntries lt k f l) : e.1 = k ∨ e ∈ l := by
  induction l with
  | nil => simp [upsertEntries] at h; simp [h]
  | cons e' rest ih =>
    obtain ⟨k', a⟩ := e'
    unfold upsertEntries at h
    split_ifs at h with heq hlt
    · rcases List.mem_cons.mp h with rfl | h
      · exact .inl rfl
      · exact .inr (List.mem_cons_of_mem _ h)
    · rcases List.mem_cons.mp h with rfl | h
      · exact .inl rfl
      · exact .inr h
    · rcases List.mem_cons.mp h with rfl | h
      · exact .inr (List.mem_cons_self)
      · exact (ih h).imp_right (List.mem_cons_of_mem _)

/-- An insertion keeps the keys sorted. -/
theorem sorted_upsertEntries [DecidableRel lt] [IsStrictTotalOrder κ lt] {k : κ}
    {f : Option α → α} {l : List (κ × α)} (h : l.Pairwise fun a b => lt a.1 b.1) :
    (upsertEntries lt k f l).Pairwise fun a b => lt a.1 b.1 := by
  induction l with
  | nil => simp [upsertEntries]
  | cons e' rest ih =>
    obtain ⟨k', a⟩ := e'
    obtain ⟨hhead, hrest⟩ := List.pairwise_cons.mp h
    unfold upsertEntries
    split_ifs with heq hlt
    · subst heq
      exact List.pairwise_cons.mpr ⟨hhead, hrest⟩
    · refine List.pairwise_cons.mpr ⟨?_, h⟩
      intro e he
      rcases List.mem_cons.mp he with rfl | he
      · exact hlt
      · exact trans_of lt hlt (hhead e he)
    · refine List.pairwise_cons.mpr ⟨?_, ih hrest⟩
      intro e he
      -- What is behind the head is what was there, or the new key, which did not come before it.
      rcases mem_upsertEntries he with hk | he
      · rcases trichotomous_of lt k' k with hlt' | heq' | hgt
        · exact hk ▸ hlt'
        · exact absurd heq' heq
        · exact absurd hgt hlt
      · exact hhead e he

/-- The map with the value at `k` made from the value that was there, or from nothing. -/
def upsert [DecidableRel lt] [IsStrictTotalOrder κ lt] (m : SortedMap lt α) (k : κ)
    (f : Option α → α) : SortedMap lt α :=
  ⟨upsertEntries lt k f m.entries, sorted_upsertEntries m.sorted⟩

/-- Where an upsert changes the entries: at a new entry in its place in the order, or at the entry
of the key. -/
theorem upsertEntries_split [DecidableRel lt] [IsStrictTotalOrder κ lt] {k : κ} {f : Option α → α}
    {l : List (κ × α)} (h : l.Pairwise fun a b => lt a.1 b.1) :
    (∃ pre post, l = pre ++ post ∧ (∀ e ∈ l, e.1 ≠ k) ∧
        upsertEntries lt k f l = pre ++ (k, f none) :: post) ∨
      ∃ pre a post, l = pre ++ (k, a) :: post ∧
        upsertEntries lt k f l = pre ++ (k, f (some a)) :: post := by
  induction l with
  | nil => exact .inl ⟨[], [], rfl, by simp, rfl⟩
  | cons e rest ih =>
    obtain ⟨k', a⟩ := e
    obtain ⟨hhead, hrest⟩ := List.pairwise_cons.mp h
    unfold upsertEntries
    split_ifs with heq hlt
    · subst heq
      exact .inr ⟨[], a, rest, rfl, rfl⟩
    · refine .inl ⟨[], (k', a) :: rest, rfl, ?_, rfl⟩
      -- The key is before the head and so before all entries, none of which has it.
      intro e he
      rcases List.mem_cons.mp he with rfl | he
      · exact heq
      · exact (ne_of_irrefl (trans_of lt hlt (hhead e he))).symm
    · rcases ih hrest with ⟨pre, post, rfl, hne, heq'⟩ | ⟨pre, b, post, rfl, heq'⟩
      · refine .inl ⟨(k', a) :: pre, post, rfl, ?_, by rw [heq']; rfl⟩
        exact List.forall_mem_cons.mpr ⟨heq, hne⟩
      · exact .inr ⟨(k', a) :: pre, b, post, rfl, by rw [heq']; rfl⟩

/-- The value that an upsert leaves at its key. -/
theorem get?_upsert [DecidableRel lt] [IsStrictTotalOrder κ lt] (m : SortedMap lt α) (k : κ)
    (f : Option α → α) : (m.upsert k f).get? k = some (f (m.get? k)) := by
  apply (get?_eq_some_iff _ _ _).mpr
  show (k, f (m.get? k)) ∈ upsertEntries lt k f m.entries
  rcases upsertEntries_split (k := k) (f := f) m.sorted
    with ⟨pre, post, -, hne, hnew⟩ | ⟨pre, a, post, hold, hnew⟩
  · have hnone : m.get? k = none := by
      unfold get?
      rw [List.find?_eq_none.mpr (by simpa using fun _ _ he => hne _ he)]
      rfl
    rw [hnew, hnone]
    simp
  · have hsome : m.get? k = some a := (get?_eq_some_iff _ _ _).mpr (by simp [hold])
    rw [hnew, hsome]
    simp

/-- A key that an upsert brought in is erased again. -/
theorem erase_upsert [DecidableRel lt] [IsStrictTotalOrder κ lt] {m : SortedMap lt α} {k : κ}
    (h : m.get? k = none) (f : Option α → α) : (m.upsert k f).erase k = m := by
  apply SortedMap.ext
  show (upsertEntries lt k f m.entries).filter _ = m.entries
  rcases upsertEntries_split (k := k) (f := f) m.sorted
    with ⟨pre, post, hold, hne, hnew⟩ | ⟨pre, a, post, hold, -⟩
  · have hkeep : ∀ e ∈ pre ++ post, decide (e.1 ≠ k) = true := fun e he => by
      simpa using hne e (hold ▸ he)
    rw [hnew, hold, List.filter_append, List.filter_cons_of_neg (by simp), ← List.filter_append,
      List.filter_eq_self.mpr hkeep]
  · have hsome : m.get? k = some a := (get?_eq_some_iff _ _ _).mpr (by simp [hold])
    simp [h] at hsome

/-- The value that an upsert changed is put back. -/
theorem replace_upsert [DecidableRel lt] [IsStrictTotalOrder κ lt] {m : SortedMap lt α}
    {k : κ} {a : α} (h : m.get? k = some a) (f : Option α → α) :
    (m.upsert k f).replace k a = m := by
  have hmem := (get?_eq_some_iff _ _ _).mp h
  have hself : m.entries.map (fun e => (e.1, if e.1 = k then a else e.2)) = m.entries := by
    conv_rhs => rw [← List.map_id m.entries]
    apply List.map_congr_left
    intro e he
    split_ifs with hk
    · obtain ⟨k', b⟩ := e
      obtain rfl : k' = k := hk
      rw [m.entry_unique hmem he]
      rfl
    · rfl
  apply SortedMap.ext
  show (upsertEntries lt k f m.entries).map _ = m.entries
  rcases upsertEntries_split (k := k) (f := f) m.sorted
    with ⟨-, -, -, hne, -⟩ | ⟨pre, b, post, hold, hnew⟩
  · exact absurd rfl (hne _ hmem)
  · -- What the upsert changed is the entry of the key, which the replacement overwrites.
    rw [hold] at hself
    rw [hnew, hold, ← hself]
    simp

/-- The entries around the entry of a key, which are what an erasure leaves and what a replacement
keeps. -/
theorem split_of_mem [Std.Irrefl lt] (m : SortedMap lt α) {k : κ} {a : α}
    (h : (k, a) ∈ m.entries) :
    ∃ pre post, m.entries = pre ++ (k, a) :: post ∧ (m.erase k).entries = pre ++ post ∧
      ∀ b, (m.replace k b).entries = pre ++ (k, b) :: post := by
  obtain ⟨pre, post, hsplit⟩ := List.append_of_mem h
  have hs := m.sorted
  rw [hsplit] at hs
  obtain ⟨-, hpost, hcross⟩ := List.pairwise_append.mp hs
  -- The other keys are before or behind the key.
  have hpre : ∀ e ∈ pre, e.1 ≠ k := fun e he =>
    ne_of_irrefl (r := lt) (hcross e he (k, a) List.mem_cons_self)
  have hpost : ∀ e ∈ post, e.1 ≠ k := fun e he =>
    (ne_of_irrefl (r := lt) ((List.pairwise_cons.mp hpost).1 e he)).symm
  refine ⟨pre, post, hsplit, ?_, ?_⟩
  · rw [entries_erase, hsplit, List.filter_append, List.filter_cons_of_neg (by simp),
      List.filter_eq_self.mpr (by simpa using fun _ _ he => hpre _ he),
      List.filter_eq_self.mpr (by simpa using fun _ _ he => hpost _ he)]
  · intro b
    have hid : ∀ l : List (κ × α), (∀ e ∈ l, e.1 ≠ k) →
        l.map (fun e => (e.1, if e.1 = k then b else e.2)) = l := by
      intro l hl
      conv_rhs => rw [← List.map_id l]
      exact List.map_congr_left fun e he => by rw [if_neg (hl e he)]; rfl
    rw [entries_replace, hsplit, List.map_append, List.map_cons, hid pre hpre, hid post hpost,
      if_pos rfl]

end Keys

/-- Entries in the order of their keys are determined by what is among them. -/
theorem eq_of_mem_iff [IsStrictOrder κ lt] {entries entries' : List (κ × α)}
    (h : entries.Pairwise fun a b => lt a.1 b.1) (h' : entries'.Pairwise fun a b => lt a.1 b.1)
    (hmem : ∀ e, e ∈ entries ↔ e ∈ entries') : entries = entries' := by
  let before (a b : κ × α) : Prop := lt a.1 b.1
  have hirrefl : Std.Irrefl before := ⟨fun a => irrefl a.1⟩
  have hantisymm : Std.Antisymm before := ⟨fun a b hab hba => absurd hba (asymm hab)⟩
  exact List.Pairwise.eq_of_mem_iff (r := before) h h' hmem

end SortedMap

end MatchingVenue
