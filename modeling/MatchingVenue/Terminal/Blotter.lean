import MatchingVenue.Ledger.Standing
import MatchingVenue.Terminal.Rows
import Mathlib.Data.List.Infix

/-!
# The blotter agrees with the venue

A terminal sees the execution reports of the handler and what it has sent itself, and nothing else.
`Shows` relates a row of its blotter to the account of the row's order. Each report that the account
takes keeps the relation (`Shows.moved`), so the reports of a run do (`Shows.run`), and the account
describes the engine.

The reports that no account takes are the answers to failed cancels. Such a cancel comes after the
end of its order, whose row takes no report any more.
-/

namespace MatchingVenue

namespace Terminal

open MatchingEngineHandler

/-! ## One row and one report -/

section Row

variable {row : MyOrder} {frame : ExecFrame}

/-- A row that is done does not change. -/
theorem rowExec_of_terminal (h : isTerminal row.status = true) : rowExec row frame = row :=
  (becomes_rowExec row frame).ended h

/-- A report that does not name the id of a row does not change it. -/
theorem rowExec_of_not_involves (h : ¬ frame.toExecutionEvent.Involves row.clOrdId) :
    rowExec row frame = row := by
  unfold ExecutionEvent.Involves at h
  obtain ⟨hid, hfill⟩ := not_or.mp h
  rw [rowExec, if_neg fun heq => hid heq.symm, if_neg]
  -- A fill that names the row as its passive side involves it.
  rintro ⟨hisFill, -, hpassive⟩
  exact hfill ⟨hisFill, .inr hpassive.symm⟩

/-- A report under its own id takes a row to its next state. -/
theorem rowExec_own (h : frame.orderId = row.clOrdId) :
    rowExec row frame = nextOrder row frame := by
  rw [rowExec, if_pos h.symm]

/-- A fill in which the order of a row is passive fills the row. -/
theorem rowExec_passive (hfill : isFill frame = true) (hne : frame.orderId ≠ row.clOrdId)
    (hpassive : frame.passiveOrderId = row.clOrdId) (hpos : 0 < row.clOrdId) :
    rowExec row frame = passiveFill row frame.filledQuantity := by
  have hguard : isFill frame = true ∧ frame.passiveOrderId > 0 ∧
      row.clOrdId = frame.passiveOrderId :=
    ⟨hfill, hpassive ▸ hpos, hpassive.symm⟩
  rw [rowExec, if_neg fun heq => hne heq.symm, if_pos hguard]

@[simp]
theorem originalQty_rowExec : (rowExec row frame).originalQty = row.originalQty :=
  (becomes_rowExec row frame).originalQty

/-- A fill as the aggressor leaves a row with what the report says remains. -/
theorem nextOrder_onFill (hopen : isTerminal row.status = false)
    (aggressor passive tradeId price m remaining timestamp : ℤ) :
    nextOrder row ⟨onFill aggressor passive tradeId price m remaining, timestamp⟩ =
      { row with
        status := if remaining = 0 then .filled else .partiallyFilled
        remainingQty := remaining } := by
  simp only [nextOrder, hopen, onFill]
  by_cases hzero : remaining = 0 <;> simp [hzero]

/-- A fill as the passive order takes what was filled from the row. -/
theorem passiveFill_of_le (hopen : isTerminal row.status = false) {m : ℤ}
    (hm : m ≤ row.remainingQty) :
    passiveFill row m =
      { row with
        status := if row.remainingQty - m = 0 then .filled else .partiallyFilled
        remainingQty := row.remainingQty - m } := by
  -- The source clamps at zero, which the fill does not reach.
  have hmax : max 0 (row.remainingQty - m) = row.remainingQty - m := max_eq_right (by omega)
  simp [passiveFill, hopen, hmax]

end Row

/-! ## A row and an account -/

/-- The status of a row whose order was admitted. -/
def statusOf (t : MatchingVenue.Ticket) : OrderStatus :=
  match t.stage with
  | .working => if t.executed = 0 then .pending else .partiallyFilled
  | .resting => if t.executed = 0 then .open else .partiallyFilled
  | .filled => .filled
  | .cancelled => .cancelled
  | .expired => .expired

/-- A row shows what the account of its order says. -/
def Mirrors (row : MyOrder) : Account → Prop
  | .unknown => row.status = .pending ∧ row.remainingQty = row.originalQty
  | .refused => row.status = .rejected ∧ row.remainingQty = row.originalQty
  | .admitted t =>
    row.status = statusOf t ∧ row.originalQty = t.original ∧ row.remainingQty = t.remaining

/-- A row has the status that the account of its order tells, and counts what remains of an order
that waits. -/
def Follows (row : MyOrder) : Account → Prop
  | .unknown => row.status = .pending
  | .refused => row.status = .rejected
  | .admitted t => row.status = statusOf t ∧ (t.stage = .resting → row.remainingQty = t.remaining)

/-- A row has the quantities of the account of its order. -/
def Counts (row : MyOrder) : Account → Prop
  | .unknown | .refused => row.remainingQty = row.originalQty
  | .admitted t => row.originalQty = t.original ∧ row.remainingQty = t.remaining

/-- A row follows the account of its order, and has the quantities of it where it was sent with
those that the venue reads. -/
def Shows (sized : Prop) (row : MyOrder) (a : Account) : Prop :=
  Follows row a ∧ (sized → Counts row a)

/-- A row mirrors an account where it shows it, sizes included. -/
theorem mirrors_iff {row : MyOrder} {a : Account} : Mirrors row a ↔ Shows True row a := by
  unfold Shows
  cases a with
  | unknown | refused => simp [Mirrors, Follows, Counts]
  | admitted t =>
    simp only [Mirrors, Follows, Counts, forall_const]
    constructor
    · rintro ⟨hstatus, hsize⟩
      exact ⟨⟨hstatus, fun _ => hsize.2⟩, hsize⟩
    · rintro ⟨⟨hstatus, -⟩, hsize⟩
      exact ⟨hstatus, hsize⟩

/-- A new row shows an order that nothing is known of. -/
theorem shows_newRow (sized : Prop) (frame : NewOrderFrame) (sentAtNanos : Option ℤ) :
    Shows sized (newRow frame sentAtNanos) .unknown := ⟨rfl, fun _ => rfl⟩

/-- A row of an admitted order is open while the order works or rests. -/
theorem isTerminal_statusOf {t : MatchingVenue.Ticket} :
    isTerminal (statusOf t) = false ↔ t.stage = .working ∨ t.stage = .resting := by
  unfold statusOf
  cases t.stage with
  | working => by_cases h : t.executed = 0 <;> simp [h, isTerminal]
  | resting => by_cases h : t.executed = 0 <;> simp [h, isTerminal]
  | filled | cancelled | expired => simp [isTerminal]

/-- The row of an order that is matched or waits takes reports. -/
theorem Follows.open {row : MyOrder} {t : MatchingVenue.Ticket} (h : Follows row (.admitted t))
    (hstage : t.stage = .working ∨ t.stage = .resting) : isTerminal row.status = false := by
  rw [h.1]
  exact isTerminal_statusOf.mpr hstage

/-- The row of an order that is over is terminal. -/
theorem Follows.terminal {row : MyOrder} {a : Account} (h : Follows row a) (hc : a.Closed) :
    isTerminal row.status = true := by
  cases a with
  | unknown => exact absurd hc id
  | refused =>
    have hstatus : row.status = .rejected := h
    rw [hstatus]
    rfl
  | admitted t =>
    obtain ⟨hworking, hresting⟩ := hc
    rw [h.1, ← Bool.not_eq_false, isTerminal_statusOf, not_or]
    exact ⟨hworking, hresting⟩

/-- The row of an order that was admitted is not rejected. -/
theorem Follows.not_rejected {row : MyOrder} {t : MatchingVenue.Ticket}
    (h : Follows row (.admitted t)) :
    row.status ≠ .rejected := by
  rw [h.1]
  unfold statusOf
  cases t.stage <;> by_cases hzero : t.executed = 0 <;> simp [hzero]

/-- An order after an execution is filled or partially filled. -/
theorem statusOf_execute {t : MatchingVenue.Ticket} {m : ℕ} (hm : m ≤ t.remaining) (hpos : 0 < m)
    (hstage : t.stage = .working ∨ t.stage = .resting) :
    statusOf (t.execute m hm) = if ((t.remaining - m : ℕ) : ℤ) = 0 then .filled
      else .partiallyFilled := by
  by_cases hall : m = t.remaining
  · simp [statusOf, Ticket.execute, hall]
  · have hleft : ((t.remaining - m : ℕ) : ℤ) ≠ 0 := by omega
    have hexecuted : t.executed + m ≠ 0 := by omega
    rw [if_neg hleft]
    -- Something has been executed by now, which outweighs the stage.
    rcases hstage with hstage | hstage <;>
      simp only [statusOf, Ticket.execute, if_neg hall, hstage, if_neg hexecuted]

/-- A report moves the row as it moves the account. -/
theorem Shows.moved {sized : Prop} {row : MyOrder} {frame : ExecFrame} {a a' : Account}
    (h : Shows sized row a) (hmoved : Moved row.clOrdId a frame.toExecutionEvent a')
    (hpos : (∃ t, a = .admitted t) → 0 < row.clOrdId) : Shows sized (rowExec row frame) a' := by
  obtain ⟨report, timestamp⟩ := frame
  simp only at hmoved
  obtain ⟨hfollows, hsized⟩ := h
  cases hmoved with
  | other hno =>
    -- Not a report about the row.
    rw [rowExec_of_not_involves (by exact hno)]
    exact ⟨hfollows, hsized⟩
  | refused =>
    have hstatus : row.status = .pending := hfollows
    rw [rowExec_own rfl]
    simp only [nextOrder, hstatus, isTerminal, rejected]
    exact ⟨rfl, hsized⟩
  | @aggressor t passive tradeId price m hm hne hm0 hstage =>
    have hopen := hfollows.open hstage
    -- The row takes what remains from the report.
    rw [rowExec_own rfl, nextOrder_onFill hopen]
    exact ⟨⟨(statusOf_execute hm hm0 hstage).symm, fun _ => rfl⟩, fun hs => ⟨(hsized hs).1, rfl⟩⟩
  | @passive t aggressor tradeId price remaining m hm hne hm0 hstage =>
    have hopen := hfollows.open (.inr hstage)
    have hremaining : row.remainingQty = t.remaining := hfollows.2 hstage
    -- The row counts down on its own: the report has what remains of the aggressor only.
    have hfill : isFill ⟨onFill aggressor row.clOrdId tradeId price m remaining, timestamp⟩ =
        true :=
      isFill_onFill ..
    have hle : (m : ℤ) ≤ row.remainingQty := by omega
    have hleft : row.remainingQty - m = ((t.remaining - m : ℕ) : ℤ) := by omega
    rw [rowExec_passive hfill hne rfl (hpos ⟨t, rfl⟩)]
    simp only [onFill]
    rw [passiveFill_of_le hopen hle, hleft]
    exact ⟨⟨(statusOf_execute hm hm0 (.inr hstage)).symm, fun _ => rfl⟩,
      fun hs => ⟨(hsized hs).1, rfl⟩⟩
  | @accepted t price hw =>
    have hopen := hfollows.open (.inl hw)
    have hstatus : row.status = statusOf t := hfollows.1
    rw [rowExec_own rfl]
    simp only [nextOrder, hopen, onAccepted]
    -- A row that was filled in part stays so when the rest is accepted.
    refine ⟨⟨?_, fun _ => rfl⟩, fun hs => ⟨(hsized hs).1, rfl⟩⟩
    rw [hstatus]
    by_cases hzero : t.executed = 0 <;> simp [statusOf, Ticket.moveTo, hw, hzero]
  | @expired t hw =>
    have hopen := hfollows.open (.inl hw)
    rw [rowExec_own rfl]
    simp only [nextOrder, hopen, onExpired]
    exact ⟨⟨rfl, fun _ => rfl⟩, fun hs => ⟨(hsized hs).1, rfl⟩⟩
  | @cancelled t hr =>
    have hopen := hfollows.open (.inr hr)
    have hremaining : row.remainingQty = t.remaining := hfollows.2 hr
    rw [rowExec_own rfl]
    simp only [nextOrder, hopen, MatchingEngineHandler.cancelled]
    exact ⟨⟨rfl, fun _ => hremaining⟩, fun hs => ⟨(hsized hs).1, hremaining⟩⟩

/-! ## One row and a run -/

/-- Reports do not change the id of a row. -/
theorem clOrdId_foldl (frames : List ExecFrame) (row : MyOrder) :
    (frames.foldl rowExec row).clOrdId = row.clOrdId := by
  induction frames generalizing row with
  | nil => rfl
  | cons frame frames ih => rw [List.foldl_cons, ih, clOrdId_rowExec]

/-- Reports that do not involve the order of a row leave it alone. -/
theorem foldl_of_not_involves {row : MyOrder} {frames : List ExecFrame}
    (h : ∀ frame ∈ frames, ¬ frame.toExecutionEvent.Involves row.clOrdId) :
    frames.foldl rowExec row = row := by
  induction frames with
  | nil => rfl
  | cons frame frames ih =>
    obtain ⟨hframe, hframes⟩ := List.forall_mem_cons.mp h
    rw [List.foldl_cons, rowExec_of_not_involves hframe, ih hframes]

/-- No report moves a terminal row. -/
theorem foldl_of_terminal {row : MyOrder} (h : isTerminal row.status = true)
    (frames : List ExecFrame) :
    frames.foldl rowExec row = row := by
  induction frames with
  | nil => rfl
  | cons frame frames ih => rw [List.foldl_cons, rowExec_of_terminal h, ih]

/-- Reports do not change the quantity that a row began with. -/
theorem originalQty_foldl (frames : List ExecFrame) (row : MyOrder) :
    (frames.foldl rowExec row).originalQty = row.originalQty := by
  induction frames generalizing row with
  | nil => rfl
  | cons frame frames ih => rw [List.foldl_cons, ih, originalQty_rowExec]

/-- Reports that the account takes move the row as they move the account. -/
theorem Shows.replay {sized : Prop} {row : MyOrder} {frames : List ExecFrame} {a a' : Account}
    (h : Shows sized row a)
    (hpub : ∀ frame ∈ frames, Published frame.toExecutionEvent)
    (hreplay : a.replay row.clOrdId
      ((frames.map ExecFrame.toExecutionEvent).map ExecutionEvent.entry) = some a')
    (hpos : (∃ t, a = .admitted t) → 0 < row.clOrdId) :
    Shows sized (frames.foldl rowExec row) a' ∧
      (a'.executed : ℤ) = a.executed + filledOn row.clOrdId
      (frames.map ExecFrame.toExecutionEvent) := by
  induction frames generalizing row a with
  | nil =>
    obtain rfl := Option.some.inj hreplay
    exact ⟨h, (Int.add_zero _).symm⟩
  | cons frame frames ih =>
    obtain ⟨hpubFrame, hpubFrames⟩ := List.forall_mem_cons.mp hpub
    rw [List.map_cons, List.map_cons, Account.replay_cons] at hreplay
    obtain ⟨b, hb, hrest⟩ := Option.bind_eq_some_iff.mp hreplay
    -- By induction on the frames: each moves the row as it moves the account.
    have hmoved := hpubFrame.moved hb
    have hrow := h.moved hmoved hpos
    have hpos' : (∃ t, b = .admitted t) → 0 < (rowExec row frame).clOrdId := fun hb => by
      rw [clOrdId_rowExec]
      exact hpos (hmoved.admitted hb)
    obtain ⟨hshows, hexecuted⟩ := ih hrow hpubFrames (by rwa [clOrdId_rowExec]) hpos'
    refine ⟨hshows, ?_⟩
    rw [clOrdId_rowExec] at hexecuted
    have hsplit := filledOn_append row.clOrdId [frame.toExecutionEvent]
      (frames.map ExecFrame.toExecutionEvent)
    rw [List.singleton_append] at hsplit
    calc (a'.executed : ℤ) = b.executed +
          filledOn row.clOrdId (frames.map ExecFrame.toExecutionEvent) := hexecuted
      _ = a.executed + filledOn row.clOrdId [frame.toExecutionEvent] +
          filledOn row.clOrdId (frames.map ExecFrame.toExecutionEvent) := by rw [hmoved.filledOn]
      _ = a.executed + filledOn row.clOrdId ((frame :: frames).map ExecFrame.toExecutionEvent) := by
        rw [List.map_cons, hsplit, Int.add_assoc]

/-- The admission of the order of a row, and of other orders, keeps the row. -/
theorem Shows.admission {sized : Prop} {row : MyOrder} {event : OrderEvent} {a a' : Account}
    (h : Shows sized row a)
    (hreplay : a.replay row.clOrdId (MatchingEngineHandler.admission event) = some a')
    (hquantity : sized → event.eventType = .newOrder → event.orderId = row.clOrdId →
      toInt event.quantity = row.originalQty)
    (hpos : (∃ t, a = .admitted t) → 0 < row.clOrdId) :
    Shows sized row a' ∧ a'.executed = a.executed ∧
      ((∃ t, a' = .admitted t) → 0 < row.clOrdId) := by
  by_cases hown : event.eventType = .newOrder ∧ event.orderId = row.clOrdId
  · obtain ⟨htype, hid⟩ := hown
    unfold MatchingEngineHandler.admission at hreplay
    rw [htype] at hreplay
    cases ho : order event with
    | error e =>
      rw [ho] at hreplay
      obtain rfl := Option.some.inj hreplay
      exact ⟨h, rfl, hpos⟩
    | ok o =>
      have horder : o.orderID = row.clOrdId := (order_orderID ho).trans hid
      have hvalid := (order_constructed ho).valid
      have hnames : (Entry.admitted o.orderID o.quantity).Names row.clOrdId := horder
      simp only [ho, Account.replay_cons, Account.post_of_names hnames] at hreplay
      -- The row learns the size that the venue has; an admitted or refused id is not admitted
      -- again.
      cases a with
      | unknown =>
        rw [Account.book, dif_pos hvalid.2] at hreplay
        obtain rfl := Option.some.inj hreplay
        obtain ⟨hstatus, hremaining⟩ := h
        have hsize : sized → row.originalQty = o.quantity := by
          intro hs
          rw [(order_sizes ho).1, hquantity hs htype hid]
        refine ⟨⟨⟨hstatus, fun hresting => ?_⟩, fun hs =>
          ⟨hsize hs, (hremaining hs).trans (hsize hs)⟩⟩, rfl,
          fun _ => horder ▸ hvalid.1.orderID_pos⟩
        -- It is to be matched first.
        exact absurd hresting (by simp [Ticket.opened])
      | refused => simp [Account.book] at hreplay
      | admitted t => simp [Account.book, Ticket.book] at hreplay
  · have hother : event.eventType = .newOrder → event.orderId ≠ row.clOrdId := fun htype hid =>
      hown ⟨htype, hid⟩
    rw [Account.replay_of_not_names (admission_not_names hother)] at hreplay
    obtain rfl := Option.some.inj hreplay
    exact ⟨h, rfl, hpos⟩

/-- The reports of one event keep the relation between a row and the account of its order. -/
theorem Shows.event {sized : Prop} {pre : List OrderEvent} {event : OrderEvent} {row : MyOrder}
    {a : Account} (hrow : Shows sized row a) (ha : Standing pre row.clOrdId a)
    (hids : (newIds (pre ++ [event])).Nodup)
    (hcancel : event.eventType = .cancelOrder → event.originalOrderId = row.clOrdId →
      event.originalOrderId ∈ newIds pre)
    (hquantity : sized → event.eventType = .newOrder → event.orderId = row.clOrdId →
      toInt event.quantity = row.originalQty)
    {frames : List ExecFrame} (hframes : frames.map ExecFrame.toExecutionEvent =
      if FailedCancel pre event then [rejected event.originalOrderId] else reportsOf pre event) :
    ∃ a', Standing (pre ++ [event]) row.clOrdId a' ∧ Shows sized (frames.foldl rowExec row) a' ∧
      (a'.executed : ℤ) =
        a.executed + filledOn row.clOrdId (frames.map ExecFrame.toExecutionEvent) := by
  obtain ⟨a', hreplay, ha'⟩ := ha.step hids
  refine ⟨a', ha', ?_⟩
  by_cases hfailed : FailedCancel pre event
  · rw [if_pos hfailed] at hframes
    have hadmission : MatchingEngineHandler.admission event = [] := by
      rw [MatchingEngineHandler.admission, hfailed.1]
    rw [hadmission, reportsOf, if_pos hfailed] at hreplay
    obtain rfl := Option.some.inj hreplay
    obtain ⟨frame, rfl, hframe⟩ := List.map_eq_singleton_iff.mp hframes
    -- The answer finds the row at its end, if it is about the row at all.
    have hsame : rowExec row frame = row := by
      by_cases hown : event.originalOrderId = row.clOrdId
      · have hpre := (newIds_mono (List.prefix_append pre [event])).sublist.nodup hids
        rw [← hown] at ha
        have hclosed := ha.closed_of_failed hpre (hcancel hfailed.1 hown) hfailed
        exact rowExec_of_terminal (hrow.1.terminal hclosed)
      · apply rowExec_of_not_involves
        rw [hframe]
        simpa [ExecutionEvent.Involves, rejected, ExecutionEvent.isFill] using hown
    refine ⟨?_, ?_⟩
    · rw [List.foldl_cons, List.foldl_nil, hsame]
      exact hrow
    · rw [List.map_singleton, hframe, filledOn_of_not_fill rfl, Int.add_zero]
  · rw [if_neg hfailed] at hframes
    rw [Account.replay_append] at hreplay
    -- The account takes the admission first and then the reports, and the row sees the reports.
    obtain ⟨b, hb, hreports⟩ := Option.bind_eq_some_iff.mp hreplay
    obtain ⟨hrow, hadmitted, hpos⟩ := hrow.admission hb hquantity ha.pos
    have hpub : ∀ frame ∈ frames, Published frame.toExecutionEvent := by
      intro frame hmem
      have hreport : frame.toExecutionEvent ∈ reportsOf pre event := by
        rw [← hframes]
        exact List.mem_map_of_mem hmem
      exact reportsOf_published hreport
    rw [← hframes] at hreports
    rw [← hadmitted]
    exact hrow.replay hpub hreports hpos

/-- The reports of a part of a run move a row as they move the account of its order, where no cancel
in that part comes before the order that it names. -/
theorem Shows.run {sized : Prop} {pre post : List OrderEvent} (hids : (newIds (pre ++ post)).Nodup)
    {row : MyOrder} {a : Account} (ha : Standing pre row.clOrdId a) (hrow : Shows sized row a)
    (hcancels : ∀ mid event, mid ++ [event] <+: post → event.eventType = .cancelOrder →
      event.originalOrderId = row.clOrdId → event.originalOrderId ∈ newIds (pre ++ mid))
    (hquantity : sized → ∀ event ∈ post, event.eventType = .newOrder → event.orderId = row.clOrdId →
      toInt event.quantity = row.originalQty)
    {frames : List ExecFrame} (hframes : (after (pre ++ post)).outbound =
      (after pre).outbound ++ frames.map ExecFrame.toExecutionEvent) :
    ∃ a', Standing (pre ++ post) row.clOrdId a' ∧ Shows sized (frames.foldl rowExec row) a' ∧
      (a'.executed : ℤ) =
        a.executed + filledOn row.clOrdId (frames.map ExecFrame.toExecutionEvent) := by
  induction post using List.reverseRecOn generalizing frames with
  | nil =>
    rw [List.append_nil] at hframes ⊢
    have hnil : frames.map ExecFrame.toExecutionEvent = [] := List.self_eq_append_right.mp hframes
    obtain rfl := List.map_eq_nil_iff.mp hnil
    exact ⟨a, ha, hrow, (Int.add_zero _).symm⟩
  | append_singleton post event ih =>
    rw [← List.append_assoc] at hids hframes ⊢
    have hpost := (newIds_mono (List.prefix_append (pre ++ post) [event])).sublist.nodup hids
    -- The frames are those of the part before and those of the last event.
    obtain ⟨reports, hreports⟩ := outbound_suffix pre post
    rw [outbound_after, hreports, List.append_assoc] at hframes
    obtain ⟨before, last, rfl, hbefore, hlast⟩ :=
      List.map_eq_append_iff.mp (List.append_cancel_left hframes).symm
    obtain ⟨b, hb, hshows, hexecuted⟩ := ih hpost
      (fun mid event' hstart => hcancels mid event' (hstart.trans (List.prefix_append ..)))
      (fun hs e he => hquantity hs e (List.mem_append_left _ he)) (by rw [hreports, hbefore])
    have hid := clOrdId_foldl before row
    have hcancel : event.eventType = .cancelOrder →
        event.originalOrderId = (before.foldl rowExec row).clOrdId →
          event.originalOrderId ∈ newIds (pre ++ post) := by
      rw [hid]
      exact hcancels post event List.prefix_rfl
    have hsent : sized → event.eventType = .newOrder →
        event.orderId = (before.foldl rowExec row).clOrdId →
          toInt event.quantity = (before.foldl rowExec row).originalQty := by
      rw [hid, originalQty_foldl]
      exact fun hs => hquantity hs event (List.mem_append_right _ List.mem_cons_self)
    obtain ⟨a', ha', hshows', hexecuted'⟩ := hshows.event (hid ▸ hb) hids hcancel hsent hlast
    rw [hid] at ha' hexecuted'
    refine ⟨a', ha', ?_, ?_⟩
    · rw [List.foldl_append]
      exact hshows'
    · calc (a'.executed : ℤ) =
            b.executed + filledOn row.clOrdId (last.map ExecFrame.toExecutionEvent) := hexecuted'
        _ = a.executed + filledOn row.clOrdId (before.map ExecFrame.toExecutionEvent) +
              filledOn row.clOrdId (last.map ExecFrame.toExecutionEvent) := by rw [hexecuted]
        _ = a.executed + filledOn row.clOrdId
            ((before ++ last).map ExecFrame.toExecutionEvent) := by
          rw [List.map_append, filledOn_append, Int.add_assoc]

/-- A row that was pending before the run shows after it what the run has made of its order. -/
theorem mirrors_after {events : List OrderEvent} (hids : (newIds events).Nodup)
    (hcancels : ∀ pre event, pre ++ [event] <+: events → event.eventType = .cancelOrder →
      event.originalOrderId ∈ newIds pre)
    {row : MyOrder} (hpending : Shows True row .unknown)
    (hquantity : ∀ event ∈ events, event.eventType = .newOrder → event.orderId = row.clOrdId →
      toInt event.quantity = row.originalQty)
    {frames : List ExecFrame}
    (hframes : frames.map ExecFrame.toExecutionEvent = (after events).outbound) :
    ∃ a, Standing events row.clOrdId a ∧ Mirrors (frames.foldl rowExec row) a ∧
      (a.executed : ℤ) = filledOn row.clOrdId (after events).outbound := by
  have hnil : (after []).outbound = [] := rfl
  have hwhole : (after ([] ++ events)).outbound =
      (after []).outbound ++ frames.map ExecFrame.toExecutionEvent := by
    rw [hnil, hframes]
    rfl
  obtain ⟨a, ha, hshows, hexecuted⟩ := @Shows.run True [] events hids row .unknown
    (standing_nil _) hpending
    (fun mid event hstart htype _ => hcancels mid event hstart htype) (fun _ => hquantity)
      frames hwhole
  have hzero : Account.unknown.executed = 0 := rfl
  refine ⟨a, ha, mirrors_iff.mpr hshows, ?_⟩
  rw [hexecuted, hframes, hzero]
  exact Int.zero_add _

/-! ## The blotter -/

/-- The actions of one terminal at a venue that has processed some events: the ids of the new orders
are distinct, their quantities fit an `int`, and cancels name orders that came before. The terminal
sees the whole stream of reports, knows its own orders, and sends each before any report that
involves it. -/
structure Fed (events : List OrderEvent) (actions : List Action) : Prop where
  /-- New orders have distinct ids. -/
  distinct : (newIds events).Nodup
  /-- Quantities fit an `int`. -/
  fits : ∀ event ∈ events, event.eventType = .newOrder → FitsInt event.quantity
  /-- Every cancel that is processed names an order that was processed before. -/
  cancels : ∀ pre event, pre ++ [event] <+: events → event.eventType = .cancelOrder →
    event.originalOrderId ∈ newIds pre
  /-- The terminal has received the whole stream of reports. -/
  stream : (execs actions).map ExecFrame.toExecutionEvent = (after events).outbound
  /-- No report about an order comes before the order was sent, and its event has its quantity. -/
  sent : ∀ pre frame sentAtNanos, pre ++ [.sent (.new frame) sentAtNanos] <+: actions →
    (∀ exec ∈ execs pre, ¬ exec.toExecutionEvent.Involves frame.clOrdId) ∧
      ∀ event ∈ events, event.eventType = .newOrder → event.orderId = frame.clOrdId →
        event.quantity = frame.qty

/-- A row agrees with the venue: with what remains of its order, with the fills that name it, with
whether the order rests, and with how it ended. -/
structure Agrees (events : List OrderEvent) (row : MyOrder) : Prop where
  /-- What remains of a row is what remains of its order. -/
  remaining : row.status ≠ .rejected →
    ∃ o, (after events).engine.current row.clOrdId = [o] ∧ row.remainingQty = o.quantity
  /-- What was executed of a row is what the reports filled of it. -/
  fills : row.originalQty - row.remainingQty = filledOn row.clOrdId (after events).outbound
  /-- A row can be cancelled exactly where its order rests. -/
  cancellable : isCancellable row.status = true ↔
    ∃ r ∈ (after events).engine.resting, r.orderID = row.clOrdId
  /-- A row is filled exactly where its order is. -/
  filled : row.status = .filled ↔
    ∃ o ∈ (after events).engine.retired, o.orderID = row.clOrdId ∧ o.quantity = 0
  /-- A row is cancelled exactly where its order is. -/
  cancelled : row.status = .cancelled ↔
    ∃ o ∈ (after events).engine.retired, o.orderID = row.clOrdId ∧ o.status = .cancelled
  /-- A row is expired exactly where its order was reported so. -/
  expired : row.status = .expired ↔
    ∃ n : ℕ, .onExpired row.clOrdId n ∈ (after events).engine.executionListener
  /-- A row is rejected exactly where no event of its order could be taken. -/
  rejected : row.status = .rejected ↔
    ∀ event ∈ events, event.eventType = .newOrder → event.orderId = row.clOrdId →
      ∃ e, order event = .error e

/-- A row of a terminal is the row that was sent, moved by all reports. -/
theorem Fed.row {events : List OrderEvent} {actions : List Action} (h : Fed events actions)
    {row : MyOrder} (hrow : row ∈ (reduce actions).myOrders) :
    ∃ frame sentAtNanos, row = (execs actions).foldl rowExec (newRow frame sentAtNanos) ∧
      ∀ event ∈ events, event.eventType = .newOrder → event.orderId = frame.clOrdId →
        event.quantity = frame.qty := by
  obtain ⟨pre, frame, sentAtNanos, post, rfl, rfl⟩ := mem_reduce hrow
  have hstart : pre ++ [.sent (.new frame) sentAtNanos] <+:
      pre ++ .sent (.new frame) sentAtNanos :: post := ⟨post, by simp⟩
  obtain ⟨hbefore, hqty⟩ := h.sent pre frame sentAtNanos hstart
  refine ⟨frame, sentAtNanos, ?_, hqty⟩
  have hexecs : execs (pre ++ .sent (.new frame) sentAtNanos :: post) =
      execs pre ++ execs post := by
    rw [execs, List.filterMap_append, List.filterMap_cons_none rfl]
    rfl
  -- The reports before the order was sent are not about it.
  have hkeep : (execs pre).foldl rowExec (newRow frame sentAtNanos) = newRow frame sentAtNanos :=
    foldl_of_not_involves hbefore
  rw [hexecs, List.foldl_append, hkeep]

/-- The status of a row whose order ended says how, and that of any other row does not. -/
theorem Mirrors.ended {row : MyOrder} {a : Account} (h : Mirrors row a) :
    (row.status = .filled ↔ ∃ n, a.At .filled n) ∧
      (row.status = .cancelled ↔ ∃ n, a.At .cancelled n) ∧
        (row.status = .expired ↔ ∃ n, a.At .expired n) ∧
        (row.status = .rejected ↔ a = .refused) := by
  cases a with
  | unknown => simp [h.1, Account.At]
  | refused => simp [h.1, Account.At]
  | admitted t =>
    simp only [h.1, Account.at_admitted]
    unfold statusOf
    cases hstage : t.stage <;> by_cases hzero : t.executed = 0 <;> simp [hzero]

/-- Between two events a row may be cancelled exactly if its order waits. -/
theorem Mirrors.cancellable {row : MyOrder} {a : Account} (h : Mirrors row a)
    (hworking : ∀ t, a = .admitted t → t.stage ≠ .working) :
    isCancellable row.status = true ↔ ∃ n, a.At .resting n := by
  cases a with
  | unknown => simp [h.1, isCancellable, Account.At]
  | refused => simp [h.1, isCancellable, Account.At]
  | admitted t =>
    have hnot := hworking t rfl
    simp only [h.1, Account.at_admitted]
    unfold statusOf
    cases hstage : t.stage <;> by_cases hzero : t.executed = 0 <;>
      simp_all [isCancellable]

/-- What is gone from the quantity of a row is what the account has executed. -/
theorem Mirrors.executed {row : MyOrder} {a : Account} (h : Mirrors row a) :
    row.originalQty - row.remainingQty = a.executed := by
  cases a with
  | unknown =>
    have hzero : Account.unknown.executed = 0 := rfl
    rw [h.2, hzero, Int.sub_self]
    rfl
  | refused =>
    have hzero : Account.refused.executed = 0 := rfl
    rw [h.2, hzero, Int.sub_self]
    rfl
  | admitted t =>
    obtain ⟨-, horiginal, hremaining⟩ := h
    have hexecuted : (Account.admitted t).executed = t.executed := rfl
    have hconserved := t.conserved
    omega

/-- At a venue whose new orders have distinct ids, once all reports that were published have reached
a terminal, every row of its blotter that is not pending agrees with the venue. -/
theorem blotter_agrees {events : List OrderEvent} {actions : List Action} (h : Fed events actions)
    {row : MyOrder} (hrow : row ∈ (reduce actions).myOrders) (hpending : row.status ≠ .pending) :
    Agrees events row := by
  obtain ⟨frame, sentAtNanos, hfold, hqty⟩ := h.row hrow
  have hquantity : ∀ event ∈ events, event.eventType = .newOrder →
      event.orderId = (newRow frame sentAtNanos).clOrdId →
        toInt event.quantity = (newRow frame sentAtNanos).originalQty := by
    intro event hevent htype hid
    rw [toInt_eq_iff.mpr (h.fits event hevent htype)]
    exact hqty event hevent htype hid
  obtain ⟨a, ha, hmirrors, hexecuted⟩ :=
    mirrors_after h.distinct h.cancels (shows_newRow True frame sentAtNanos) hquantity h.stream
  have hid : row.clOrdId = (newRow frame sentAtNanos).clOrdId := by rw [hfold, clOrdId_foldl]
  rw [← hfold] at hmirrors
  rw [← hid] at ha hexecuted
  have hq := (reachable_after events).queued
  obtain ⟨hfilled, hcancelled, hexpired, hrejected⟩ := hmirrors.ended
  -- A row that is not pending has an account that is not unknown.
  have hknown : a ≠ .unknown := by
    rintro rfl
    exact hpending hmirrors.1
  refine ⟨fun hadmitted => ?_, ?_, ?_, ?_, ?_, ?_, ?_⟩
  · cases a with
    | unknown => exact absurd rfl hknown
    | refused => exact absurd (hrejected.mpr rfl) hadmitted
    | admitted t =>
      obtain ⟨o, ho, hremaining⟩ := List.map_eq_singleton_iff.mp ha.tracks.current
      exact ⟨o, ho, by rw [hremaining]; exact hmirrors.2.2⟩
  · rw [hmirrors.executed, hexecuted]
  · rw [hmirrors.cancellable fun t ht => (ht ▸ ha.tracks).not_working]
    simp only [ha.tracks.at_resting hq]
    exact ⟨fun ⟨_, r, hr, hid, _⟩ => ⟨r, hr, hid⟩, fun ⟨r, hr, hid⟩ => ⟨_, r, hr, hid, rfl⟩⟩
  · rw [hfilled, ha.tracks.at_filled hq]
  · rw [hcancelled, ha.tracks.at_cancelled]
  · rw [hexpired]
    exact exists_congr fun n => (ha.expired n).symm
  · rw [hrejected]
    -- Known and never admitted means refused.
    have hkind : a = .refused ↔ ¬ ∃ t, a = .admitted t := by
      cases a with
      | unknown => exact absurd rfl hknown
      | refused => simp
      | admitted t => simp
    rw [hkind, ha.admitted]
    constructor
    · intro hno event hevent htype hid
      cases ho : order event with
      | error e => exact ⟨e, rfl⟩
      | ok o => exact absurd ⟨event, hevent, htype, hid, o, ho⟩ hno
    · rintro hno ⟨event, hevent, htype, hid, o, ho⟩
      obtain ⟨e, he⟩ := hno event hevent htype hid
      simp [ho] at he

/-- A sell that rests, a buy of another client that fills four of it, a buy of the same client that
fills three more, and two cancels of the sell, of which the second comes too late. -/
def blotterEvents : List OrderEvent :=
  [⟨.newOrder, 1, some .sell, some .limit, some .gtc, 10000, 10, 0, 1, -1⟩,
   ⟨.newOrder, 2, some .buy, some .limit, some .gtc, 10000, 4, 0, 2, -1⟩,
   ⟨.newOrder, 3, some .buy, some .limit, some .ioc, 10000, 3, 0, 3, -1⟩,
   ⟨.cancelOrder, -1, none, none, none, -1, -1, -1, 4, 1⟩,
   ⟨.cancelOrder, -1, none, none, none, -1, -1, -1, 5, 1⟩]

/-- What the client of the sell sees. Its own buy is sent late. -/
def blotterActions : List Action :=
  [.sent (.new ⟨1, .sell, .limit, .gtc, 10000, 10, 0⟩) none,
   .frame (.exec ⟨onAccepted 1 10000 10, 1⟩),
   .frame (.book ⟨-1, 10000, [], [(10000, 10)], 1⟩),
   .frame (.exec ⟨onFill 2 1 1 10000 4 0, 2⟩),
   .sent (.new ⟨3, .buy, .limit, .ioc, 10000, 3, 0⟩) (some 2),
   .frame (.exec ⟨onFill 3 1 2 10000 3 0, 3⟩),
   .sent (.cancel 4 1) none,
   .frame (.exec ⟨cancelled 1, 4⟩),
   .frame (.exec ⟨rejected 1, 5⟩)]

/-- The blotter is fed the reports of `blotterEvents`. -/
theorem fed_blotterActions : Fed blotterEvents blotterActions where
  distinct := by decide
  fits := by decide
  cancels := by
    intro pre event h htype
    have hinits : ∀ p ∈ blotterEvents.inits, ∀ e ∈ p.getLast?, e.eventType = .cancelOrder →
        e.originalOrderId ∈ newIds p.dropLast := by decide
    simpa using hinits _ ((List.mem_inits _ _).mpr h) event (by simp) htype
  stream := by decide
  sent := by
    intro pre frame sentAtNanos h
    rcases pre
      with _ | ⟨_, _ | ⟨_, _ | ⟨_, _ | ⟨_, _ | ⟨_, _ | ⟨_, _ | ⟨_, _ | ⟨_, _ | ⟨_, pre⟩⟩⟩⟩⟩⟩⟩⟩⟩ <;>
      simp [blotterActions] at h
    · obtain ⟨rfl, rfl⟩ := h
      exact ⟨by simp [execs], by decide⟩
    · obtain ⟨rfl, rfl, rfl, rfl, rfl, rfl⟩ := h
      exact ⟨by decide, by decide⟩

/-- The sell was cancelled with three left. -/
theorem blotter_agrees_cancelled :
    Agrees blotterEvents ⟨1, .sell, 10000, 10, 3, .cancelled, .limit, .gtc, 0, none⟩ :=
  blotter_agrees fed_blotterActions (by decide) (by decide)

end Terminal

end MatchingVenue
