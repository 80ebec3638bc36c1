import MatchingVenue.Library.Measure
import Mathlib.Logic.Function.Basic

/-!
# Rings of slots with one producer

A ring of slots that one producer writes in place, over and over, while some consumers read them,
each at a pace of its own. A consumer looks how far the producer is, handles what there is up to
there one slot after the other, and then lets go of all of it at once. The producer claims a slot
only when every consumer has let go of what was in it.

A ring is known here by what its documentation promises. The promises about its sequences are the
fields of `Cursor` and `SlotRing` that are propositions, and those about its steps the premises of
these: a claim waits for room (`HasRoom`), a consumer that waits gets a sequence that is published
(`Turns.waitFor`), it makes its progress known at the end of a batch (`Turns.release`), and there is
no backlog when every consumer has made known that it is through (`Drained`).

`Carries` relates a ring to the log of all that was ever published: a consumer that handles a slot
reads the next entry of the log, whatever the other consumers do (`Carries.peek`). `exists_turn` and
`work` are for progress: a consumer that is behind can go on, and what it does lowers the work that
is left.
-/

namespace MatchingVenue

universe u v

/-- Where a consumer stands: it has let go of the sequences below `released`, has handled those
below `handled`, and may handle those below `available` before it looks again. -/
structure Cursor where
  released : ℕ
  handled : ℕ
  available : ℕ
  /-- A consumer makes known only what it has handled. -/
  released_le : released ≤ handled
  /-- It handles only what it was told to be available. -/
  handled_le : handled ≤ available

/-- Where a consumer starts. -/
def Cursor.start : Cursor := ⟨0, 0, 0, le_refl 0, le_refl 0⟩

/-- A ring: what is in its slots, the sequence that is claimed next, and where its consumers
stand. -/
structure SlotRing (κ : Type u) (α : Type v) (size : ℕ) where
  slots : Fin size → α
  next : ℕ
  cursors : κ → Cursor
  size_pos : 0 < size
  /-- No consumer is told that a sequence is available before it is published. -/
  available_le : ∀ k, (cursors k).available ≤ next
  /-- The producer never wraps past a sequence that some consumer has not let go of. -/
  next_le : ∀ k, next ≤ (cursors k).released + size

namespace SlotRing

variable {κ : Type u} {α : Type v} {size : ℕ}

/-- A ring that nothing was published to, with anything in its slots. -/
def fresh (κ : Type u) (size_pos : 0 < size) (slots : Fin size → α) : SlotRing κ α size where
  slots := slots
  next := 0
  cursors _ := .start
  size_pos := size_pos
  available_le _ := le_refl 0
  next_le _ := Nat.zero_le _

/-- The slot of a sequence. -/
def slot (r : SlotRing κ α size) (n : ℕ) : Fin size := ⟨n % size, Nat.mod_lt n r.size_pos⟩

/-! ## The producer -/

/-- What a claim waits for: every consumer has let go of what is in the slot that is claimed
next. -/
def HasRoom (r : SlotRing κ α size) : Prop := ∀ k, r.next < (r.cursors k).released + size

/-- Writes the slot that is claimed next in place, and publishes it. -/
def publish (r : SlotRing κ α size) (room : r.HasRoom) (write : α → α) : SlotRing κ α size where
  slots i := if i = r.slot r.next then write (r.slots i) else r.slots i
  next := r.next + 1
  cursors := r.cursors
  size_pos := r.size_pos
  available_le k := Nat.le_succ_of_le (r.available_le k)
  next_le k := room k

/-! ## The consumers -/

section Consumers

variable [DecidableEq κ]

/-- A consumer has moved on. -/
def move (r : SlotRing κ α size) (k : κ) (c : Cursor)
    (hreleased : (r.cursors k).released ≤ c.released) (havailable : c.available ≤ r.next) :
    SlotRing κ α size where
  slots := r.slots
  next := r.next
  cursors := Function.update r.cursors k c
  size_pos := r.size_pos
  available_le j := by
    rcases eq_or_ne j k with rfl | hne
    · rwa [Function.update_self]
    · rw [Function.update_of_ne hne]
      exact r.available_le j
  next_le j := by
    have hle := r.next_le j
    rcases eq_or_ne j k with rfl | hne
    · rw [Function.update_self]
      omega
    · rwa [Function.update_of_ne hne]

/-- A consumer that has looked how far it may go. -/
def waitFor (r : SlotRing κ α size) (k : κ) (n : ℕ) (hlt : (r.cursors k).available < n)
    (hle : n ≤ r.next) :
    SlotRing κ α size :=
  r.move k { r.cursors k with available := n, handled_le := (r.cursors k).handled_le.trans hlt.le }
    (le_refl _) hle

/-- What a consumer finds in the slot that it handles next. -/
def peek (r : SlotRing κ α size) (k : κ) : α := r.slots (r.slot (r.cursors k).handled)

/-- A consumer that has handled one more slot. -/
def handle (r : SlotRing κ α size) (k : κ) (hlt : (r.cursors k).handled < (r.cursors k).available) :
    SlotRing κ α size :=
  r.move k
    { r.cursors k with
      handled := (r.cursors k).handled + 1
      released_le := Nat.le_succ_of_le (r.cursors k).released_le
      handled_le := hlt }
    (le_refl _) (r.available_le k)

/-- A consumer that has let go of all that it has handled. -/
def release (r : SlotRing κ α size) (k : κ) : SlotRing κ α size :=
  r.move k { r.cursors k with released := (r.cursors k).handled, released_le := le_refl _ }
    (r.cursors k).released_le
    (r.available_le k)

/-- What a consumer does between two slots: where it has let go of all that was there it looks how
far it may go, and where it has handled that it lets go of it. -/
inductive Turns (k : κ) (r : SlotRing κ α size) : SlotRing κ α size → Prop where
  /-- It waits for slots, and gets some that were published. -/
  | waitFor {n : ℕ} (hrest : (r.cursors k).released = (r.cursors k).available)
    (hlt : (r.cursors k).available < n)
    (hle : n ≤ r.next) : Turns k r (r.waitFor k n hlt hle)
  /-- It releases the slots that it has handled. -/
  | release (hdone : (r.cursors k).handled = (r.cursors k).available)
    (hlt : (r.cursors k).released < (r.cursors k).handled) : Turns k r (r.release k)

variable {r r' : SlotRing κ α size} {k j : κ}

@[simp]
theorem cursors_move_self (r : SlotRing κ α size) (k : κ) (c : Cursor)
    (h : (r.cursors k).released ≤ c.released) (h' : c.available ≤ r.next) :
    (r.move k c h h').cursors k = c := Function.update_self ..

/-- The other cursors stay where they are when one moves. -/
theorem cursors_move_of_ne (hne : j ≠ k) (c : Cursor) (h : (r.cursors k).released ≤ c.released)
    (h' : c.available ≤ r.next) :
    (r.move k c h h').cursors j = r.cursors j := Function.update_of_ne hne ..

@[simp]
theorem handled_handle (hlt : (r.cursors k).handled < (r.cursors k).available) :
    ((r.handle k hlt).cursors k).handled = (r.cursors k).handled + 1 := by
  rw [handle, cursors_move_self]

/-- No consumer goes back when one of them goes on. -/
theorem handled_le_handle (hlt : (r.cursors k).handled < (r.cursors k).available) (j : κ) :
    (r.cursors j).handled ≤ ((r.handle k hlt).cursors j).handled := by
  rcases eq_or_ne j k with rfl | hne
  · rw [handled_handle]
    exact Nat.le_succ _
  · rw [handle, cursors_move_of_ne hne]

/-- The other cursors stay where they are when one handles a slot. -/
theorem cursors_handle_of_ne (hne : j ≠ k) (hlt : (r.cursors k).handled < (r.cursors k).available) :
    (r.handle k hlt).cursors j = r.cursors j := cursors_move_of_ne hne ..

/-- Between two slots nobody handles anything. -/
theorem Turns.handled (h : Turns k r r') (j : κ) :
    (r'.cursors j).handled = (r.cursors j).handled := by
  cases h with
  | waitFor hrest hlt hle =>
    rcases eq_or_ne j k with rfl | hne
    · rw [SlotRing.waitFor, cursors_move_self]
    · rw [SlotRing.waitFor, cursors_move_of_ne hne]
  | release hdone hlt =>
    rcases eq_or_ne j k with rfl | hne
    · rw [SlotRing.release, cursors_move_self]
    · rw [SlotRing.release, cursors_move_of_ne hne]

/-- A turn of a consumer publishes nothing. -/
theorem Turns.next (h : Turns k r r') : r'.next = r.next := by cases h <;> rfl

/-- A turn of a consumer writes no slot. -/
theorem Turns.slots (h : Turns k r r') : r'.slots = r.slots := by cases h <;> rfl

/-- The other consumers stand where they stood. -/
theorem Turns.cursors_of_ne (h : Turns k r r') (hne : j ≠ k) : r'.cursors j = r.cursors j := by
  cases h <;> exact cursors_move_of_ne hne ..

end Consumers

/-! ## The log of a ring -/

/-- Two sequences less than a revolution apart have different slots. -/
theorem slot_ne (r : SlotRing κ α size) {m n : ℕ} (hlt : m < n) (hle : n < m + size) :
    r.slot m ≠ r.slot n := by
  intro heq
  have hmod : n % size = m % size := (Fin.mk.inj heq).symm
  have hzero : (n - m) % size = 0 := Nat.sub_mod_eq_zero_of_mod_eq hmod
  rw [Nat.mod_eq_of_lt (by omega)] at hzero
  omega

/-- The log is all that was published, and the last of it, as much as there are slots, is in the
slots. -/
structure Carries (r : SlotRing κ α size) (log : List α) : Prop where
  /-- As much was published as is on the log. -/
  next : r.next = log.length
  /-- A slot holds the entry that was written to it last. -/
  slots : ∀ n x, log[n]? = some x → log.length ≤ n + size → r.slots (r.slot n) = x

section Carries

variable {r r' : SlotRing κ α size} {log : List α} {k : κ}

/-- A fresh ring has carried nothing. -/
theorem carries_fresh (size_pos : 0 < size) (slots : Fin size → α) :
    (fresh κ size_pos slots).Carries [] where
  next := rfl
  slots n x h := by simp at h

/-- What a ring has carried depends on its slots and on what was published only. -/
theorem Carries.congr (h : r.Carries log) (hnext : r'.next = r.next) (hslots : r'.slots = r.slots) :
    r'.Carries log where
  next := hnext.trans h.next
  slots n x hx hle := by
    rw [hslots]
    exact h.slots n x hx hle

/-- What is published is what the slot is made to hold. -/
theorem Carries.publish (h : r.Carries log) (room : r.HasRoom) (write : α → α) :
    (r.publish room write).Carries (log ++ [write (r.slots (r.slot r.next))]) where
  next := by
    rw [List.length_append, List.length_singleton, ← h.next]
    rfl
  slots n x hx hle := by
    rw [List.length_append, List.length_singleton] at hle
    show (if r.slot n = r.slot r.next then write (r.slots (r.slot n)) else r.slots (r.slot n)) = x
    rcases Nat.lt_trichotomy n log.length with hlt | rfl | hgt
    · -- What was there before is in another slot.
      have hne : r.slot n ≠ r.slot r.next := by
        rw [h.next]
        exact r.slot_ne hlt (by omega)
      rw [if_neg hne]
      rw [List.getElem?_append_left hlt] at hx
      exact h.slots n x hx (by omega)
    · rw [List.getElem?_concat_length] at hx
      rw [← h.next, if_pos rfl]
      exact Option.some.inj hx
    · have hnone : (log ++ [write (r.slots (r.slot r.next))])[n]? = none := by
        rw [List.getElem?_eq_none_iff, List.length_append, List.length_singleton]
        omega
      rw [hnone] at hx
      cases hx

variable [DecidableEq κ]

/-- A turn of a consumer leaves what the ring has carried. -/
theorem Carries.turns (h : r.Carries log) (hturns : Turns k r r') : r'.Carries log :=
  h.congr hturns.next hturns.slots

/-- Handling a slot leaves what the ring has carried. -/
theorem Carries.handle (h : r.Carries log) (hlt : (r.cursors k).handled < (r.cursors k).available) :
    (r.handle k hlt).Carries log :=
  h.congr rfl rfl

omit [DecidableEq κ] in
/-- No consumer has handled more than was published. -/
theorem Carries.handled_le (h : r.Carries log) (k : κ) : (r.cursors k).handled ≤ log.length := by
  have hhandled := (r.cursors k).handled_le
  have havailable := r.available_le k
  have hnext := h.next
  omega

omit [DecidableEq κ] in
/-- What a consumer has handled stays what it was when more is published. -/
theorem Carries.take_append (h : r.Carries log) (k : κ) (more : List α) :
    log.take (r.cursors k).handled = (log ++ more).take (r.cursors k).handled :=
  (List.take_append_of_le_length (h.handled_le k)).symm

omit [DecidableEq κ] in
/-- What a consumer finds is the next entry of the log. -/
theorem Carries.peek (h : r.Carries log) (hlt : (r.cursors k).handled < (r.cursors k).available) :
    log[(r.cursors k).handled]? = some (r.peek k) := by
  have havailable := r.available_le k
  have hroom := r.next_le k
  have hreleased := (r.cursors k).released_le
  have hnext := h.next
  have hbound : (r.cursors k).handled < log.length := by omega
  have hentry : log[(r.cursors k).handled]? = some log[(r.cursors k).handled] :=
    List.getElem?_eq_getElem hbound
  rw [hentry, SlotRing.peek, h.slots _ _ hentry (by omega)]

omit [DecidableEq κ] in
/-- So it has handled one more entry of the log then. -/
theorem Carries.take_succ (h : r.Carries log)
    (hlt : (r.cursors k).handled < (r.cursors k).available) :
    log.take ((r.cursors k).handled + 1) = log.take (r.cursors k).handled ++ [r.peek k] := by
  rw [List.take_add_one, h.peek hlt]
  rfl

end Carries

/-! ## Progress -/

/-- The work that a consumer has with what is published: to look, to handle and to let go. -/
def workOf (r : SlotRing κ α size) (k : κ) : ℕ :=
  (r.next - (r.cursors k).available) + (r.next - (r.cursors k).handled) +
    (r.next - (r.cursors k).released)

/-- The work of all consumers. -/
def work [Fintype κ] (r : SlotRing κ α size) : ℕ := ∑ k, r.workOf k

/-- There is no backlog: every consumer has let go of all that was published. -/
def Drained (r : SlotRing κ α size) : Prop := ∀ k, (r.cursors k).released = r.next

/-- A ring that every consumer has drained has room. -/
theorem Drained.hasRoom {r : SlotRing κ α size} (h : r.Drained) : r.HasRoom := fun k => by
  have hpos := r.size_pos
  rw [h k]
  omega

/-- A consumer that has let go of all has handled all. -/
theorem Drained.handled {r : SlotRing κ α size} (h : r.Drained) (k : κ) :
    (r.cursors k).handled = r.next := by
  have hreleased := (r.cursors k).released_le
  have hhandled := (r.cursors k).handled_le
  have havailable := r.available_le k
  have hdone := h k
  omega

section Progress

variable [DecidableEq κ] {r r' : SlotRing κ α size} {k : κ}

/-- A consumer that is behind has a slot to handle or turns to what comes next. -/
theorem exists_turn (h : (r.cursors k).released ≠ r.next) :
    (r.cursors k).handled < (r.cursors k).available ∨ ∃ r', Turns k r r' := by
  have hreleased := (r.cursors k).released_le
  have hhandled := (r.cursors k).handled_le
  have havailable := r.available_le k
  by_cases hdone : (r.cursors k).handled = (r.cursors k).available
  · right
    by_cases hrest : (r.cursors k).released = (r.cursors k).handled
    · exact ⟨_, .waitFor (n := r.next) (hrest.trans hdone) (by omega) (le_refl _)⟩
    · exact ⟨_, .release hdone (by omega)⟩
  · left
    omega

omit [DecidableEq κ] in
/-- A consumer alone changes its own work only. -/
theorem work_lt [Fintype κ] (hothers : ∀ j, j ≠ k → r'.cursors j = r.cursors j)
    (hnext : r'.next = r.next) (hself : r'.workOf k < r.workOf k) : r'.work < r.work := by
  refine sum_lt_of_one hself fun j hne => ?_
  rw [workOf, workOf, hothers j hne, hnext]

/-- A turn of a consumer is less work to do. -/
theorem Turns.work_lt [Fintype κ] (h : Turns k r r') : r'.work < r.work := by
  refine SlotRing.work_lt (fun j hne => h.cursors_of_ne hne) h.next ?_
  have havailable := r.available_le k
  have hhandled := (r.cursors k).handled_le
  cases h with
  | waitFor hrest hlt hle =>
    rw [workOf, workOf, SlotRing.waitFor, cursors_move_self]
    show r.next - _ + (r.next - _) + (r.next - _) < _
    simp only
    omega
  | release hdone hlt =>
    rw [workOf, workOf, SlotRing.release, cursors_move_self]
    show r.next - _ + (r.next - _) + (r.next - _) < _
    simp only
    omega

/-- Handling a slot is less work to do. -/
theorem work_handle_lt [Fintype κ] (hlt : (r.cursors k).handled < (r.cursors k).available) :
    (r.handle k hlt).work < r.work := by
  refine SlotRing.work_lt (fun j hne => cursors_handle_of_ne hne hlt) rfl ?_
  have havailable := r.available_le k
  rw [workOf, workOf, handle, cursors_move_self]
  show r.next - _ + (r.next - _) + (r.next - _) < _
  simp only
  omega

end Progress

end SlotRing

end MatchingVenue
