import MatchingVenue.Library.Growth
import MatchingVenue.Terminal.Reducer

/-!
# The rows of any server

What a terminal's rows keep whatever the server sends. No account and no run of the venue stands
behind the frames here: they may name any order, contradict each other and come at any time. An EXEC
frame may find two rows by its two ids, and moves each of them by what the row is at that moment
(`rowExec`), so it is enough to say what it can make of one row (`becomes_rowExec`). The rest is
that rows are added at the front and stay where they are.
-/

namespace MatchingVenue

namespace Terminal

/-- What may become of a row: nothing that was sent changes, a row at its end stays what it is, and
one that has been answered is not pending again. -/
structure Becomes (row row' : MyOrder) : Prop where
  clOrdId : row'.clOrdId = row.clOrdId
  side : row'.side = row.side
  pricePx : row'.pricePx = row.pricePx
  originalQty : row'.originalQty = row.originalQty
  ordType : row'.ordType = row.ordType
  tif : row'.tif = row.tif
  displayQty : row'.displayQty = row.displayQty
  sentAtNanos : row'.sentAtNanos = row.sentAtNanos
  ended : isTerminal row.status = true → row' = row
  answered : row.status ≠ .pending → row'.status ≠ .pending

/-- A row becomes itself. -/
instance : Std.Refl Becomes where
  refl _ := ⟨rfl, rfl, rfl, rfl, rfl, rfl, rfl, rfl, fun _ => rfl, id⟩

/-- What a row becomes later it becomes. -/
instance : IsTrans MyOrder Becomes where
  trans row row' row'' h h' := by
    refine ⟨h'.clOrdId.trans h.clOrdId, h'.side.trans h.side, h'.pricePx.trans h.pricePx,
      h'.originalQty.trans h.originalQty, h'.ordType.trans h.ordType, h'.tif.trans h.tif,
      h'.displayQty.trans h.displayQty, h'.sentAtNanos.trans h.sentAtNanos, fun hended => ?_,
      h'.answered ∘ h.answered⟩
    have hsame := h.ended hended
    rw [hsame] at h'
    exact h'.ended hended

/-- A row that is open may get any status but the pending one, and any quantity. -/
theorem Becomes.moved {row : MyOrder} (hopen : ¬ isTerminal row.status = true)
    {status : OrderStatus} (hstatus : status ≠ .pending) (remainingQty : ℤ) :
    Becomes row { row with status, remainingQty } :=
  ⟨rfl, rfl, rfl, rfl, rfl, rfl, rfl, rfl, fun hended => absurd hended hopen, fun _ => hstatus⟩

/-- A row becomes its next state. -/
theorem becomes_nextOrder (row : MyOrder) (frame : ExecFrame) :
    Becomes row (nextOrder row frame) := by
  unfold nextOrder
  by_cases hended : isTerminal row.status = true
  · rw [if_pos hended]
    exact Std.Refl.refl row
  rw [if_neg hended]
  cases frame.eventType with
  | orderAccepted =>
    refine .moved hended ?_ _
    split_ifs <;> decide
  | orderPartiallyFilled => exact .moved hended (by decide) _
  | orderFilled => exact .moved hended (by decide) _
  | orderCancelled => exact .moved hended (by decide) _
  | orderRejected => exact .moved hended (by decide) _
  | orderExpired => exact .moved hended (by decide) _

/-- A row becomes what a passive fill leaves of it. -/
theorem becomes_passiveFill (row : MyOrder) (filledQty : ℤ) :
    Becomes row (passiveFill row filledQty) := by
  unfold passiveFill
  by_cases hended : isTerminal row.status = true
  · rw [if_pos hended]
    exact Std.Refl.refl row
  · rw [if_neg hended]
    refine .moved hended ?_ _
    split_ifs <;> decide

/-- What an EXEC frame makes of a row, whatever is in the frame. -/
theorem becomes_rowExec (row : MyOrder) (frame : ExecFrame) : Becomes row (rowExec row frame) := by
  unfold rowExec
  split_ifs
  · exact becomes_nextOrder row frame
  · exact becomes_passiveFill row frame.filledQuantity
  · exact Std.Refl.refl row

/-- An action may change rows and add one at the front. -/
theorem grows_reducer (state : AppState) (action : Action)
    (h : (state.myOrders.map MyOrder.clOrdId).Nodup) :
    Grows Becomes state.myOrders (reducer state action).myOrders := by
  rcases myOrders_reducer state action h with ⟨frame, -, hrows⟩ | ⟨frame, sentAtNanos, -, -, hrows⟩
    | ⟨-, hrows⟩
  · rw [hrows]
    exact .of_map fun row _ => becomes_rowExec row frame
  · rw [hrows]
    exact .cons _ _
  · rw [hrows]
    exact .refl _

/-- The rows of a terminal are robust to any server: whatever the actions are and whatever more of
them come, the ids are distinct, each row stays in its place behind the rows that are added, and
only so much becomes of it. -/
theorem rows_robust (actions more : List Action) :
    ((reduce (actions ++ more)).myOrders.map MyOrder.clOrdId).Nodup ∧
      ((reduce actions).myOrders.map MyOrder.clOrdId) <:+
      ((reduce (actions ++ more)).myOrders.map MyOrder.clOrdId) ∧
      Grows Becomes (reduce actions).myOrders (reduce (actions ++ more)).myOrders := by
  have hgrows : Grows Becomes (reduce actions).myOrders (reduce (actions ++ more)).myOrders := by
    have hrun : reduce (actions ++ more) = more.foldl reducer (reduce actions) := List.foldl_append
    rw [hrun]
    exact Grows.foldl nodup_reducer grows_reducer (nodup_reduce actions) more
  exact ⟨nodup_reduce _, hgrows.suffix_map fun _ _ h => h.clOrdId, hgrows⟩

end Terminal

end MatchingVenue
