import MatchingVenue.Gateway.OrderGateway
import MatchingVenue.Library.Framing

/-!
# The frame decoder

The decoder finds the messages in the bytes of a connection. It looks for `8=`, reads the body
length behind it and takes that many bytes and the trailer. What is no message is skipped, and what
may become one is kept.

`verdict` says what `frameLength` decides, as a function of the bytes alone, and a decision does not
change with the bytes behind (`verdict_append`). So the decoder is a `Framer`, and the frames of a
connection do not depend on how its bytes are cut into chunks (`frames_of_chunks`).
-/

namespace MatchingVenue

open FixConstants

/-- The outcome of `frameLength`: the source's `NEED_MORE`, its `MALFORMED`, or the length of a
frame. -/
inductive Framing where
  | needMore
  | malformed
  | length (n : ℕ)
  deriving DecidableEq, Repr

/-- The bytes of a connection in the memory that holds them: `readable` of them, from an index on. A
buffer that has no array is read through a copy. -/
structure ByteBuf where
  array : List Byte
  index : ℕ
  readable : ℕ
  hasArray : Bool
  deriving DecidableEq

/-- The buffer with its first bytes read. -/
def ByteBuf.skipBytes (buf : ByteBuf) (n : ℕ) : ByteBuf :=
  { buf with index := buf.index + n, readable := buf.readable - n }

namespace FixFrameDecoder

/-- The character `8`. -/
def b8 : Byte := 56
/-- The character `9`. -/
def b9 : Byte := 57
/-- The character `1`. -/
def b1 : Byte := 49
/-- The character `0`. -/
def b0 : Byte := 48

/-- The length of `10=`, three digits and the field end. -/
def trailerLen : ℕ := 7

/-- The largest body length. -/
def maxFrame : ℕ := 4096

/-- The first place of a byte among `n` bytes from `i` on. -/
def indexOf (buf : List Byte) (target : Byte) : (n i : ℕ) → Except Exn (Option ℕ)
  | 0, _ => .ok none
  | n + 1, i => do
    if (← load buf i) = target then return some i
    indexOf buf target n (i + 1)

/-- The first place of `8=` where it starts at one of `n` bytes from `i` on. -/
def indexOfBeginString (buf : List Byte) : (n i : ℕ) → Except Exn (Option ℕ)
  | 0, _ => .ok none
  | n + 1, i => do
    if (← load buf i) = b8 then
      if (← load buf (i + 1)) = equals then return some i
    indexOfBeginString buf n (i + 1)

/-- The rest of `frameLength` from the digits of the body length on, which start at `i`. -/
def frameLengthFrom (buf : List Byte) (offset stop i : ℕ) : Except Exn Framing := do
  let some soh2 ← indexOf buf soh (stop - i) i | return .needMore
  if soh2 = i then return .malformed
  let n ← FixParser.parseLong buf i soh2
  if n ≤ 0 ∨ n > maxFrame then return .malformed
  let endExclusive := soh2 + 1 + n.toNat + trailerLen
  if endExclusive > stop then return .needMore
  let t := endExclusive - trailerLen
  if (← load buf t) ≠ b1 then return .malformed
  if (← load buf (t + 1)) ≠ b0 then return .malformed
  if (← load buf (t + 2)) ≠ equals then return .malformed
  if (← load buf (endExclusive - 1)) ≠ soh then return .malformed
  return .length (endExclusive - offset)

/-- The length of the frame that starts at `offset`, of which `available` bytes have arrived. -/
def frameLength (buf : List Byte) (offset available : ℕ) : Except Exn Framing := do
  let stop := offset + available
  if available < 2 then return .needMore
  if (← load buf offset) ≠ b8 then return .malformed
  if (← load buf (offset + 1)) ≠ equals then return .malformed
  let some soh1 ← indexOf buf soh (stop - (offset + 2)) (offset + 2) | return .needMore
  if soh1 + 3 > stop then return .needMore
  if (← load buf (soh1 + 1)) ≠ b9 then return .malformed
  if (← load buf (soh1 + 2)) ≠ equals then return .malformed
  frameLengthFrom buf offset stop (soh1 + 3)

/-- The rest of the loop of `frameAndEmit`, from `pos` on, after the frames of `out`. -/
def frameAndEmitFrom (data : List Byte) (base stop : ℕ) :
    (fuel pos : ℕ) → (out : List (List Byte)) → Except Exn (List (List Byte) × ℤ)
  | 0, _, _ => .error .diverged
  | fuel + 1, pos, out => do
    match ← indexOfBeginString data (stop - 1 - pos) pos with
    | none =>
      if stop = 0 then .error .indexOutOfBounds
      else
        -- The last byte may be the start of an `8=` whose other half is still to come.
        let keep : ℤ := if (← load data (stop - 1)) = b8 then 1 else 0
        return (out, stop - keep - base)
    | some start =>
      match ← frameLength data start (stop - start) with
      | .needMore => return (out, (start : ℤ) - base)
      | .malformed => frameAndEmitFrom data base stop fuel (start + 2) out
      | .length len =>
        frameAndEmitFrom data base stop fuel (start + len) (out ++ [(data.drop start).take len])

/-- The frames in the `avail` bytes from `base` on, and how many of these bytes are done with. -/
def frameAndEmit (data : List Byte) (base avail : ℕ) : Except Exn (List (List Byte) × ℤ) :=
  frameAndEmitFrom data base (base + avail) (avail + 1) base []

/-- Takes the frames off a buffer. A buffer without an array is copied over the start of the
decoder's scratch array, which grows and keeps what it had behind. -/
def decode (scratch : List Byte) (buf : ByteBuf) :
    Except Exn (List Byte × ByteBuf × List (List Byte)) := do
  let avail := buf.readable
  if avail < 2 then return (scratch, buf, [])
  let scratch :=
    if buf.hasArray then scratch
    else
      let grown := if scratch.length < avail then .replicate (max avail (scratch.length * 2)) 0
        else scratch
      (buf.array.drop buf.index).take avail ++ grown.drop avail
  let (out, consumed) ←
    if buf.hasArray then frameAndEmit buf.array buf.index avail else frameAndEmit scratch 0 avail
  if consumed > 0 then return (scratch, buf.skipBytes consumed.toNat, out)
  return (scratch, buf, out)

/-! ## What is decided of a start -/

open Wire

/-- The bytes before the first field end, and those after it. -/
def cut : List Byte → Option (List Byte × List Byte)
  | [] => none
  | b :: w => if b = soh then some ([], w) else (cut w).map fun parts => (b :: parts.1, parts.2)

/-- What is decided of the bytes behind `9=`, where `skipped` bytes stand before them. -/
def verdictOfLength (skipped : ℕ) (w : List Byte) : Framing :=
  match cut w with
  | none => .needMore
  | some (digits, body) =>
    if digits = [] then .malformed
    else if longOf digits ≤ 0 ∨ longOf digits > maxFrame then .malformed
    else
      let n := (longOf digits).toNat
      if body.length < n + trailerLen then .needMore
      else if body[n]? = some b1 ∧ body[n + 1]? = some b0 ∧ body[n + 2]? = some equals ∧
          body[n + 6]? = some soh then
        .length (skipped + digits.length + 1 + n + trailerLen)
      else .malformed

/-- What is decided of the bytes behind `8=`. -/
def verdictOfVersion (w : List Byte) : Framing :=
  match cut w with
  | none => .needMore
  | some (version, rest) =>
    match rest with
    | d :: e :: w =>
      if d = b9 ∧ e = equals then verdictOfLength (2 + version.length + 1 + 2) w else .malformed
    | _ => .needMore

/-- What is decided of some bytes. -/
def verdict : List Byte → Framing
  | b :: c :: w => if b = b8 ∧ c = equals then verdictOfVersion w else .malformed
  | _ => .needMore

/-- A cut is at the first field end. -/
theorem cut_eq_some {w a r : List Byte} : cut w = some (a, r) ↔ w = a ++ soh :: r ∧ soh ∉ a := by
  induction w generalizing a with
  | nil => simp [cut]
  | cons b w ih =>
    rw [cut]
    by_cases hb : b = soh
    · rw [if_pos hb]
      cases a with
      | nil => simp [hb]
      | cons d a =>
        simp only [Option.some.injEq, Prod.mk.injEq, List.cons_append, List.cons.injEq,
          List.mem_cons, not_or]
        constructor
        · rintro ⟨h, -⟩
          simp at h
        · rintro ⟨⟨rfl, -⟩, hne, -⟩
          exact absurd hb.symm hne
    · rw [if_neg hb, Option.map_eq_some_iff]
      constructor
      · rintro ⟨⟨a', r'⟩, hcut, heq⟩
        obtain ⟨rfl, rfl⟩ := Prod.mk.inj heq
        obtain ⟨rfl, hsoh⟩ := ih.mp hcut
        exact ⟨rfl, by simpa [hsoh] using Ne.symm hb⟩
      · rintro ⟨h, hsoh⟩
        cases a with
        | nil => exact absurd (List.cons.inj h).1 hb
        | cons d a =>
          obtain ⟨rfl, rfl⟩ := List.cons.inj h
          simp only [List.mem_cons, not_or] at hsoh
          exact ⟨(a, r), ih.mpr ⟨rfl, hsoh.2⟩, rfl⟩

/-- A field end that was found stays the first one. -/
theorem cut_append {w a r : List Byte} (h : cut w = some (a, r)) (x : List Byte) :
    cut (w ++ x) = some (a, r ++ x) := by
  obtain ⟨rfl, hsoh⟩ := cut_eq_some.mp h
  exact cut_eq_some.mpr ⟨by rw [List.append_assoc]; rfl, hsoh⟩

/-- Where the length of a message is decided, further bytes do not change the verdict. -/
theorem verdictOfLength_append {skipped : ℕ} {w : List Byte}
    (h : verdictOfLength skipped w ≠ .needMore) (x : List Byte) :
    verdictOfLength skipped (w ++ x) = verdictOfLength skipped w := by
  unfold verdictOfLength at h ⊢
  cases hcut : cut w with
  | none => simp [hcut] at h
  | some parts =>
    obtain ⟨digits, body⟩ := parts
    rw [hcut] at h
    simp only [cut_append hcut] at h ⊢
    by_cases hempty : digits = []
    · rw [if_pos hempty, if_pos hempty]
    by_cases hrange : longOf digits ≤ 0 ∨ longOf digits > maxFrame
    · rw [if_neg hempty, if_neg hempty, if_pos hrange, if_pos hrange]
    by_cases hshort : body.length < (longOf digits).toNat + trailerLen
    · rw [if_neg hempty, if_neg hrange, if_pos hshort] at h
      exact absurd rfl h
    -- The body and the trailer are there, and what is behind them is not looked at.
    have hlength : ¬ (body ++ x).length < (longOf digits).toNat + trailerLen := by
      rw [List.length_append]
      omega
    have hget : ∀ i < trailerLen, (body ++ x)[(longOf digits).toNat + i]? =
        body[(longOf digits).toNat + i]? := by
      intro i hi
      exact List.getElem?_append_left (by omega)
    have hget0 := hget 0 (by decide)
    rw [Nat.add_zero] at hget0
    rw [if_neg hempty, if_neg hempty, if_neg hrange, if_neg hrange, if_neg hshort,
      if_neg hlength, hget0, hget 1 (by decide), hget 2 (by decide), hget 6 (by decide)]

/-- Where the version of a message is decided, further bytes do not change the verdict. -/
theorem verdictOfVersion_append {w : List Byte} (h : verdictOfVersion w ≠ .needMore)
    (x : List Byte) :
    verdictOfVersion (w ++ x) = verdictOfVersion w := by
  unfold verdictOfVersion at h ⊢
  cases hcut : cut w with
  | none => simp [hcut] at h
  | some parts =>
    obtain ⟨version, rest⟩ := parts
    rw [hcut] at h
    rw [cut_append hcut]
    rcases rest with _ | ⟨d, _ | ⟨e, w⟩⟩
    · simp at h
    · simp at h
    · simp only [List.cons_append] at h ⊢
      split_ifs at h ⊢ with hlength
      · exact verdictOfLength_append h x
      · rfl

/-- What has been decided of some bytes does not change with the bytes behind. -/
theorem verdict_append {w : List Byte} (h : verdict w ≠ .needMore) (x : List Byte) :
    verdict (w ++ x) = verdict w := by
  rcases w with _ | ⟨b, _ | ⟨c, w⟩⟩
  · simp [verdict] at h
  · simp [verdict] at h
  · simp only [verdict, List.cons_append] at h ⊢
    split_ifs at h ⊢ with hstart
    · exact verdictOfVersion_append h x
    · rfl

/-- A frame is not empty, its bytes are there, and the last of them is a field end. -/
theorem verdict_length {w : List Byte} {n : ℕ} (h : verdict w = .length n) :
    0 < n ∧ n ≤ w.length ∧ w[n - 1]? = some soh := by
  rcases w with _ | ⟨b, _ | ⟨c, w⟩⟩
  · simp [verdict] at h
  · simp [verdict] at h
  · simp only [verdict] at h
    split_ifs at h with hstart
    unfold verdictOfVersion at h
    cases hcut : cut w with
    | none => simp [hcut] at h
    | some parts =>
      obtain ⟨version, rest⟩ := parts
      obtain ⟨rfl, -⟩ := cut_eq_some.mp hcut
      rw [hcut] at h
      rcases rest with _ | ⟨d, _ | ⟨e, w⟩⟩
      · simp at h
      · simp at h
      · simp only at h
        split_ifs at h with hlength
        unfold verdictOfLength at h
        cases hcut' : cut w with
        | none => simp [hcut'] at h
        | some parts =>
          obtain ⟨digits, body⟩ := parts
          obtain ⟨rfl, -⟩ := cut_eq_some.mp hcut'
          simp only [hcut'] at h
          split_ifs at h with hempty hrange hshort htrailer
          obtain rfl := Framing.length.inj h
          obtain ⟨-, -, -, hend⟩ := htrailer
          have hsplit : b :: c :: (version ++ soh :: d :: e :: (digits ++ soh :: body)) =
              (b :: c :: version ++ soh :: d :: e :: digits ++ [soh]) ++ body := by
            simp
          have hprefix : (b :: c :: version ++ soh :: d :: e :: digits ++ [soh]).length =
              2 + version.length + 1 + 2 + digits.length + 1 := by
            simp only [List.length_append, List.length_cons, List.length_nil]
            omega
          have hlast : 2 + version.length + 1 + 2 + digits.length + 1 + (longOf digits).toNat +
              trailerLen - 1 =
              2 + version.length + 1 + 2 + digits.length + 1 + ((longOf digits).toNat + 6) := by
            unfold trailerLen
            omega
          rw [hsplit, List.length_append, hprefix, hlast,
            List.getElem?_append_right (by omega), hprefix,
            Nat.add_sub_cancel_left]
          exact ⟨by omega, by omega, hend⟩

/-! ## The decoder reads what has arrived -/

section Reads

variable {buf : List Byte} {start stop : ℕ}

/-- A byte of a window is read. -/
theorem load_window (start i : ℕ) (hstop : stop ≤ buf.length) (h : start + i < stop) :
    ∃ b, load buf (start + i) = .ok b ∧ (window buf start stop)[i]? = some b := by
  have hlt : start + i < buf.length := by omega
  refine ⟨buf[start + i], ?_, ?_⟩
  · rw [load, List.getElem?_eq_getElem hlt]
  · rw [window, List.getElem?_take_of_lt (by omega), List.getElem?_drop,
      List.getElem?_eq_getElem hlt]

/-- A window that has two bytes is read at both. -/
theorem load_two (start : ℕ) (hstop : stop ≤ buf.length) (h : start + 2 ≤ stop) :
    ∃ b c, load buf start = .ok b ∧ load buf (start + 1) = .ok c ∧
      window buf start stop = b :: c :: window buf (start + 2) stop := by
  have hlt : start < buf.length := by omega
  have hlt' : start + 1 < buf.length := by omega
  have hlength : stop - start = stop - (start + 2) + 1 + 1 := by omega
  refine ⟨buf[start], buf[start + 1], ?_, ?_, ?_⟩
  · rw [load, List.getElem?_eq_getElem hlt]
  · rw [load, List.getElem?_eq_getElem hlt']
  · rw [window, List.drop_eq_getElem_cons hlt, List.drop_eq_getElem_cons hlt', hlength,
      List.take_succ_cons, List.take_succ_cons]
    rfl

/-- A window without its first bytes is a shorter window. -/
theorem drop_window (k : ℕ) : (window buf start stop).drop k = window buf (start + k) stop := by
  rw [window, window, List.drop_take, List.drop_drop, Nat.sub_sub]

/-- The last byte of a window. -/
theorem getLast_window (start : ℕ) (hstop : stop ≤ buf.length) (h : start < stop) {b : Byte}
    (hload : load buf (stop - 1) = .ok b) : (window buf start stop).getLast? = some b := by
  obtain ⟨c, hc, hget⟩ := load_window start (stop - 1 - start) hstop (by omega)
  rw [Nat.add_sub_cancel' (by omega), hload] at hc
  rw [List.getLast?_eq_getElem?, length_window _ hstop, Nat.sub_right_comm, hget, Except.ok.inj hc]

/-- The search for a field end finds the one where the window is cut. -/
theorem indexOf_eq (n : ℕ) {i : ℕ} (h : i + n ≤ buf.length) :
    indexOf buf soh n i =
      .ok ((cut (window buf i (i + n))).map fun parts => i + parts.1.length) := by
  induction n generalizing i with
  | zero =>
    rw [Nat.add_zero, window_self]
    rfl
  | succ n ih =>
    obtain ⟨b, hload, hwindow⟩ := window_succ h
    rw [indexOf, hload, hwindow, cut, ok_bind]
    by_cases hb : b = soh
    · rw [if_pos hb, if_pos hb]
      rfl
    · rw [if_neg hb, if_neg hb, ih (by omega), Option.map_map]
      refine congrArg Except.ok (congrArg (fun f => Option.map f _) (funext fun parts => ?_))
      simp only [Function.comp_apply, List.length_cons]
      omega

/-- The rest of a window behind the first field end. -/
theorem window_cut {version rest : List Byte} (hstop : stop ≤ buf.length)
    (h : cut (window buf start stop) = some (version, rest)) :
    start + version.length + 1 + rest.length = stop ∧
      window buf (start + version.length + 1) stop = rest ∧
      window buf start (start + version.length) = version := by
  obtain ⟨hwindow, -⟩ := cut_eq_some.mp h
  have hlength := congrArg List.length hwindow
  rw [length_window _ hstop, List.length_append, List.length_cons] at hlength
  exact ⟨by omega, window_after hwindow, window_left hstop hwindow⟩

/-- What `frameLength` does behind `9=`, which ends at `i`, is what there is to decide of the bytes
there. -/
theorem frameLengthFrom_eq {offset i : ℕ} (h : stop ≤ buf.length) (hi : i ≤ stop)
    (hoffset : offset ≤ i) :
    frameLengthFrom buf offset stop i = .ok (verdictOfLength (i - offset) (window buf i stop)) := by
  have hlength := @indexOf_eq buf (stop - i) i (by omega)
  rw [Nat.add_sub_cancel' hi] at hlength
  rw [frameLengthFrom, hlength, verdictOfLength]
  cases hcut : cut (window buf i stop) with
  | none => rfl
  | some parts =>
  obtain ⟨digits, body⟩ := parts
  obtain ⟨hend, hbody, hdigits⟩ := window_cut h hcut
  simp only [Option.map_some, ok_bind]
  by_cases hempty : digits = []
  · rw [if_pos (by rw [hempty]; rfl), if_pos hempty]
    rfl
  have hne : i + digits.length ≠ i := by
    have hpos := List.length_pos_iff.mpr hempty
    omega
  rw [if_neg hne, if_neg hempty, FixParser.parseLong, parseLong_eq (by omega), hdigits, ok_bind]
  by_cases hrange : longOf digits ≤ 0 ∨ longOf digits > maxFrame
  · rw [if_pos hrange, if_pos hrange]
    rfl
  rw [if_neg hrange, if_neg hrange]
  generalize (longOf digits).toNat = n
  generalize hsoh2 : i + digits.length = soh2 at hend hbody ⊢
  by_cases hshort : body.length < n + trailerLen
  · rw [if_pos (by omega), if_pos hshort]
    rfl
  rw [if_neg (by omega), if_neg hshort]
  -- The four bytes of the trailer that are looked at are among those that have arrived.
  have hread : ∀ j < trailerLen, ∃ b, load buf (soh2 + 1 + n + j) = .ok b ∧
      body[n + j]? = some b := by
    intro j hj
    obtain ⟨b, hload, hget⟩ := load_window (soh2 + 1) (n + j) h (by omega)
    rw [hbody] at hget
    rw [← Nat.add_assoc] at hload
    exact ⟨b, hload, hget⟩
  obtain ⟨t0, hload0, hget0⟩ := hread 0 (by decide)
  obtain ⟨t1, hload1, hget1⟩ := hread 1 (by decide)
  obtain ⟨t2, hload2, hget2⟩ := hread 2 (by decide)
  obtain ⟨t6, hload6, hget6⟩ := hread 6 (by decide)
  have hlast : load buf (soh2 + 1 + n + trailerLen - 1) = .ok t6 := hload6
  rw [Nat.add_zero] at hload0 hget0
  simp only [Nat.add_sub_cancel, hload0, hload1, hload2, hlast, ok_bind, hget0, hget1, hget2, hget6,
    Option.some.injEq]
  have hsum : soh2 + 1 + n + trailerLen - offset = i - offset + digits.length + 1 + n +
      trailerLen := by
    omega
  by_cases htrailer : t0 = b1 ∧ t1 = b0 ∧ t2 = equals ∧ t6 = soh
  · obtain ⟨h0, h1, h2, h6⟩ := id htrailer
    rw [if_pos htrailer, if_neg (not_not.mpr h0), if_neg (not_not.mpr h1), if_neg (not_not.mpr h2),
      if_neg (not_not.mpr h6), hsum]
    rfl
  · -- One of the four checks fails.
    rw [if_neg htrailer]
    split_ifs with h0 h1 h2 h6
    any_goals rfl
    exact absurd ⟨not_not.mp h0, not_not.mp h1, not_not.mp h2, not_not.mp h6⟩ htrailer

/-- What `frameLength` decides is what there is to decide of the bytes that have arrived. It reads
none but these. -/
theorem frameLength_eq {offset available : ℕ} (h : offset + available ≤ buf.length) :
    frameLength buf offset available = .ok (verdict (window buf offset (offset + available))) := by
  unfold frameLength
  generalize hstop : offset + available = stop at h ⊢
  by_cases hfew : available < 2
  · have hlength : (window buf offset stop).length < 2 := by
      rw [length_window _ h]
      omega
    rw [if_pos hfew]
    rcases hw : window buf offset stop with _ | ⟨b, _ | ⟨c, w⟩⟩
    · rfl
    · rfl
    · rw [hw, List.length_cons, List.length_cons] at hlength
      omega
  rw [if_neg hfew]
  obtain ⟨b, c, hb, hc, hwindow⟩ := load_two offset h (by omega)
  simp only [hb, hc, ok_bind, hwindow, verdict]
  by_cases hb8 : b = b8
  swap
  · rw [if_pos hb8, if_neg fun hand => hb8 hand.1]
    rfl
  by_cases hequals : c = equals
  swap
  · rw [if_neg (not_not.mpr hb8), if_pos hequals, if_neg fun hand => hequals hand.2]
    rfl
  rw [if_neg (not_not.mpr hb8), if_neg (not_not.mpr hequals), if_pos ⟨hb8, hequals⟩]
  -- The version ends at the first field end.
  have hversion := @indexOf_eq buf (stop - (offset + 2)) (offset + 2) (by omega)
  rw [Nat.add_sub_cancel' (by omega)] at hversion
  rw [hversion, verdictOfVersion]
  cases hcut : cut (window buf (offset + 2) stop) with
  | none => rfl
  | some parts =>
  obtain ⟨version, rest⟩ := parts
  obtain ⟨hend, hrest, -⟩ := window_cut h hcut
  simp only [Option.map_some, ok_bind]
  generalize hsoh1 : offset + 2 + version.length = soh1 at hend hrest ⊢
  rcases rest with _ | ⟨d, _ | ⟨e, rest⟩⟩
  · rw [List.length_nil] at hend
    rw [if_pos (by omega)]
    rfl
  · rw [List.length_singleton] at hend
    rw [if_pos (by omega)]
    rfl
  rw [List.length_cons, List.length_cons] at hend
  obtain ⟨d', e', hd, he, hw⟩ := load_two (soh1 + 1) h (by omega)
  rw [hrest] at hw
  obtain ⟨rfl, htail⟩ := List.cons.inj hw
  obtain ⟨rfl, hbody⟩ := List.cons.inj htail
  have he' : load buf (soh1 + 2) = .ok e := he
  have hbody' : rest = window buf (soh1 + 3) stop := hbody
  rw [if_neg (by omega)]
  simp only [hd, he', ok_bind]
  by_cases hb9 : d = b9
  swap
  · rw [if_pos hb9, if_neg fun hand => hb9 hand.1]
    rfl
  by_cases hequals' : e = equals
  swap
  · rw [if_neg (not_not.mpr hb9), if_pos hequals', if_neg fun hand => hequals' hand.2]
    rfl
  rw [if_neg (not_not.mpr hb9), if_neg (not_not.mpr hequals'), if_pos ⟨hb9, hequals'⟩]
  have hskipped : soh1 + 3 - offset = 2 + version.length + 1 + 2 := by omega
  rw [frameLengthFrom_eq h (by omega) (by omega), hskipped, hbody']

end Reads

/-! ## The decoder as a framer -/

/-- Whether `8=` stands at the front. -/
def Begins (w : List Byte) : Prop := [b8, equals] <+: w

/-- Whether a window begins a message can be decided. -/
instance : DecidablePred Begins := fun w => by
  unfold Begins
  infer_instance

/-- One step over some bytes: at an `8=` as the verdict is, and elsewhere over one byte, unless it
is the last one and may be the start of an `8=`. -/
def step (w : List Byte) : Option (ℕ × Option (List Byte)) :=
  if Begins w then
    match verdict w with
    | .needMore => none
    | .malformed => some (2, none)
    | .length n => some (n, some (w.take n))
  else if w = [] ∨ w = [b8] then none
  else some (1, none)

/-- Further bytes do not change whether a window begins a message, unless it is empty or only the
first byte of a start. -/
theorem begins_append {w : List Byte} (hnil : w ≠ []) (hb8 : w ≠ [b8]) (x : List Byte) :
    Begins (w ++ x) ↔ Begins w := by
  rcases w with _ | ⟨b, _ | ⟨c, w⟩⟩
  · exact absurd rfl hnil
  · have hne : b ≠ b8 := fun heq => hb8 (heq ▸ rfl)
    simp [Begins, List.cons_prefix_cons, hne.symm]
  · simp [Begins, List.cons_prefix_cons]

/-- A window that begins a message does so with further bytes. -/
theorem Begins.append {w : List Byte} (h : Begins w) (x : List Byte) : Begins (w ++ x) :=
  h.trans (List.prefix_append w x)

/-- The decoder as a framer. -/
def framer : Framer Byte (List Byte) where
  step := step
  takes := by
    intro w k frame h
    unfold step at h
    by_cases hbegins : Begins w
    · rw [if_pos hbegins] at h
      have htwo : 2 ≤ w.length := hbegins.length_le
      cases hverdict : verdict w with
      | needMore => simp [hverdict] at h
      | malformed =>
        simp only [hverdict, Option.some.injEq, Prod.mk.injEq] at h
        omega
      | length n =>
        simp only [hverdict, Option.some.injEq, Prod.mk.injEq] at h
        obtain ⟨rfl, -⟩ := h
        obtain ⟨hpos, hle, -⟩ := verdict_length hverdict
        exact ⟨hpos, hle⟩
    · rw [if_neg hbegins] at h
      split_ifs at h with hwait
      obtain ⟨hnil, -⟩ := not_or.mp hwait
      have hpos := List.length_pos_iff.mpr hnil
      simp only [Option.some.injEq, Prod.mk.injEq] at h
      omega
  stable := by
    intro w r h x
    unfold step at h ⊢
    by_cases hbegins : Begins w
    · rw [if_pos hbegins] at h
      rw [if_pos (hbegins.append x)]
      have hmore : verdict w ≠ .needMore := fun heq => by simp [heq] at h
      rw [verdict_append hmore]
      cases hverdict : verdict w with
      | needMore => exact absurd hverdict hmore
      | malformed =>
        rw [hverdict] at h
        exact h
      | length n =>
        rw [hverdict] at h
        simp only at h ⊢
        rw [List.take_append_of_le_length (verdict_length hverdict).2.1]
        exact h
    · rw [if_neg hbegins] at h
      split_ifs at h with hwait
      obtain ⟨hnil, hb8⟩ := not_or.mp hwait
      rw [if_neg fun hand => hbegins ((begins_append hnil hb8 x).mp hand), if_neg, h]
      -- More bytes make neither of the two lists that are waited with.
      rintro (hempty | hone)
      · exact hnil (List.append_eq_nil_iff.mp hempty).1
      · rcases List.append_eq_singleton_iff.mp hone with ⟨hempty, -⟩ | ⟨hw, -⟩
        · exact hnil hempty
        · exact hb8 hw

/-- A byte at which no message begins is skipped. -/
theorem step_skip {b : Byte} {w : List Byte} (hbegins : ¬ Begins (b :: w)) (hb8 : b :: w ≠ [b8]) :
    framer.step (b :: w) = some (1, none) := by
  show step (b :: w) = _
  rw [step, if_neg hbegins, if_neg (not_or.mpr ⟨List.cons_ne_nil b w, hb8⟩)]

/-- There is no frame in less than two bytes. What is kept of them is an `8`. -/
theorem frames_of_short {w : List Byte} (h : w.length < 2) :
    framer.frames w = [] ∧ framer.rest w = if w.getLast? = some b8 then [b8] else [] := by
  have hempty : framer.step [] = none := rfl
  rcases w with _ | ⟨b, _ | ⟨c, w⟩⟩
  · rw [Framer.frames_of_none hempty, Framer.rest_of_none hempty]
    exact ⟨rfl, rfl⟩
  · by_cases hb : b = b8
    · subst hb
      have hwait : framer.step [b8] = none := by decide
      rw [Framer.frames_of_none hwait, Framer.rest_of_none hwait]
      exact ⟨rfl, rfl⟩
    · have hskip := step_skip (b := b) (w := []) (fun hbegins => by simpa using hbegins.length_le)
        (by simpa using hb)
      rw [Framer.frames_of_some hskip, Framer.rest_of_some hskip, List.drop_one, List.tail_cons,
        Framer.frames_of_none hempty, Framer.rest_of_none hempty]
      simp [hb]
  · rw [List.length_cons, List.length_cons] at h
    omega

section Emits

variable {data : List Byte} {base stop : ℕ}

/-- The search for `8=` skips what the framer skips, and stops at the next `8=` or where none is
left. Then only an `8` at the very end is kept. -/
theorem indexOfBeginString_spec (n : ℕ) {i : ℕ} (hn : stop - 1 - i = n) (hi : i ≤ stop)
    (hstop : stop ≤ data.length) :
    (indexOfBeginString data n i = .ok none ∧ framer.frames (window data i stop) = [] ∧
      framer.rest (window data i stop) =
        if (window data i stop).getLast? = some b8 then [b8] else []) ∨
    ∃ start, indexOfBeginString data n i = .ok (some start) ∧ i ≤ start ∧ start + 2 ≤ stop ∧
      Begins (window data start stop) ∧
      framer.frames (window data i stop) = framer.frames (window data start stop) ∧
      framer.rest (window data i stop) = framer.rest (window data start stop) := by
  induction n generalizing i with
  | zero =>
    have hlength := length_window i hstop
    exact .inl ⟨rfl, frames_of_short (by omega)⟩
  | succ n ih =>
    obtain ⟨b, c, hb, hc, hwindow⟩ := load_two i hstop (by omega)
    have hnext : window data (i + 1) stop = c :: window data (i + 2) stop := by
      have hcons : window data i stop = [b] ++ c :: window data (i + 2) stop := hwindow
      exact window_advance hcons
    rw [indexOfBeginString, hb, ok_bind]
    by_cases hbegins : b = b8 ∧ c = equals
    · obtain ⟨rfl, rfl⟩ := hbegins
      refine .inr ⟨i, ?_, le_refl i, by omega, ?_, rfl, rfl⟩
      · rw [if_pos rfl, hc, ok_bind, if_pos rfl]
        rfl
      · rw [hwindow]
        exact ⟨_, rfl⟩
    · have hnot : ¬ Begins (b :: c :: window data (i + 2) stop) := by
        rintro ⟨w, hw⟩
        simp only [List.cons_append, List.cons.injEq] at hw
        exact hbegins ⟨hw.1.symm, hw.2.1.symm⟩
      have hskip := step_skip hnot (by simp)
      have hloop : (if b = b8 then do
            let c ← load data (i + 1)
            if c = equals then pure (some i) else indexOfBeginString data n (i + 1)
          else indexOfBeginString data n (i + 1)) = indexOfBeginString data n (i + 1) := by
        by_cases hb8 : b = b8
        · rw [if_pos hb8, hc, ok_bind, if_neg fun hequals => hbegins ⟨hb8, hequals⟩]
        · rw [if_neg hb8]
      rw [hwindow, Framer.frames_of_some hskip, Framer.rest_of_some hskip, List.drop_one,
        List.tail_cons, ← hnext]
      have hlast : (b :: window data (i + 1) stop).getLast? =
          (window data (i + 1) stop).getLast? := by
        rw [hnext, List.getLast?_cons_cons]
      rcases ih (i := i + 1) (by omega) (by omega) with ⟨hnone, hframes, hrest⟩ |
        ⟨start, hsome, hle, htwo, hstart, hframes, hrest⟩
      · refine .inl ⟨?_, hframes, ?_⟩
        · exact hloop.trans hnone
        · rw [hlast]
          exact hrest
      · exact .inr ⟨start, hloop.trans hsome, by omega, htwo, hstart, hframes, hrest⟩

/-- The loop of `frameAndEmit` emits the frames of the bytes from `pos` on, and keeps what they
leave. The last byte before `pos` is no `8`, or the loop would give it back at the end. -/
theorem frameAndEmitFrom_eq {fuel pos : ℕ} {out : List (List Byte)} (hstop : stop ≤ data.length)
    (hpos : pos ≤ stop) (hlt : 0 < stop) (hlast : pos = stop → load data (stop - 1) ≠ .ok b8)
    (hfuel : stop - pos < fuel) :
    frameAndEmitFrom data base stop fuel pos out =
      .ok (out ++ framer.frames (window data pos stop),
        (stop : ℤ) - (framer.rest (window data pos stop)).length - base) := by
  induction fuel generalizing pos out with
  | zero => omega
  | succ fuel ih =>
    rw [frameAndEmitFrom]
    have hlength := length_window pos hstop
    rcases indexOfBeginString_spec (stop - 1 - pos) rfl hpos hstop with ⟨hnone, hframes, hrest⟩ |
      ⟨start, hsome, hle, htwo, hbegins, hframes, hrest⟩
    · -- No message begins any more.
      obtain ⟨b, hload⟩ : ∃ b, load data (stop - 1) = .ok b :=
        ⟨data[stop - 1], by rw [load, List.getElem?_eq_getElem]⟩
      have hkeep : (if b = b8 then (1 : ℤ) else 0) =
          (framer.rest (window data pos stop)).length := by
        rw [hrest]
        by_cases hend : pos = stop
        · have hb : b ≠ b8 := fun heq => hlast hend (heq ▸ hload)
          subst hend
          simp [window_self, hb]
        · rw [getLast_window _ hstop (by omega) hload]
          by_cases hb : b = b8 <;> simp [hb]
      simp only [hnone, ok_bind, if_neg hlt.ne', hload, hkeep, hframes, List.append_nil]
      rfl
    · have hframe := @frameLength_eq data start (stop - start) (by omega)
      have hwindow := length_window start hstop
      rw [Nat.add_sub_cancel' (by omega)] at hframe
      simp only [hsome, hframe, ok_bind, hframes, hrest]
      cases hverdict : verdict (window data start stop) with
      | needMore =>
        have hwait : framer.step (window data start stop) = none := by
          show step _ = _
          rw [step, if_pos hbegins, hverdict]
        have hkept : (stop : ℤ) - (stop - start : ℕ) = start := by omega
        rw [Framer.frames_of_none hwait, Framer.rest_of_none hwait, hwindow, List.append_nil, hkept]
        rfl
      | malformed =>
        have hskip : framer.step (window data start stop) = some (2, none) := by
          show step _ = _
          rw [step, if_pos hbegins, hverdict]
        rw [Framer.frames_of_some hskip, Framer.rest_of_some hskip, drop_window]
        -- The skipped `8=` does not end with an `8`.
        refine ih (by omega) (fun hend hload => ?_) (by omega)
        have hlast' := getLast_window start hstop (by omega) hload
        obtain ⟨w, hw⟩ := hbegins
        have hnil : w = [] := by
          have htotal := congrArg List.length hw
          rw [List.length_append, hwindow] at htotal
          exact List.eq_nil_of_length_eq_zero (by simp at htotal; omega)
        rw [← hw, hnil] at hlast'
        revert hlast'
        decide
      | length len =>
        obtain ⟨hlenPos, hlenLe, hend⟩ := verdict_length hverdict
        have htake : framer.step (window data start stop) =
            some (len, some ((window data start stop).take len)) := by
          show step _ = _
          rw [step, if_pos hbegins, hverdict]
        have hcopy : (data.drop start).take len = (window data start stop).take len := by
          rw [window, List.take_take, min_eq_left (by omega)]
        rw [Framer.frames_of_some htake, Framer.rest_of_some htake, drop_window]
        simp only [hcopy]
        -- A frame does not end with an `8` either.
        have hlast' : start + len = stop → load data (stop - 1) ≠ .ok b8 := by
          intro hstart hload
          have hsoh := getLast_window start hstop (by omega) hload
          have hall : (window data start stop).length = len := by omega
          rw [List.getLast?_eq_getElem?, hall, hend] at hsoh
          revert hsoh
          decide
        rw [ih (by omega) hlast' (by omega), List.append_assoc]
        rfl

end Emits

/-- `frameAndEmit` emits the frames of the available bytes and is done with all but what these
leave. -/
theorem frameAndEmit_eq {data : List Byte} {base avail : ℕ} (h : base + avail ≤ data.length)
    (hpos : 0 < avail) :
    frameAndEmit data base avail = .ok (framer.frames (window data base (base + avail)),
      (avail : ℤ) - (framer.rest (window data base (base + avail))).length) := by
  have hloop := @frameAndEmitFrom_eq data base (base + avail) (avail + 1) base [] h (by omega)
    (by omega) (by omega) (by omega)
  have hconsumed : ((base + avail : ℕ) : ℤ) - (framer.rest (window data base (base + avail))).length
      - base = (avail : ℤ) - (framer.rest (window data base (base + avail))).length := by
    omega
  rw [frameAndEmit, hloop, hconsumed, List.nil_append]

end FixFrameDecoder

namespace ByteBuf

/-- The bytes that have not been read. -/
def unread (buf : ByteBuf) : List Byte := Wire.window buf.array buf.index (buf.index + buf.readable)

/-- The unread bytes are in the memory. -/
def Valid (buf : ByteBuf) : Prop := buf.index + buf.readable ≤ buf.array.length

/-- Whether a buffer lies in its memory can be decided. -/
instance : DecidablePred Valid := fun _ => by
  unfold Valid
  infer_instance

/-- A buffer has as many bytes to read as it says. -/
theorem length_unread {buf : ByteBuf} (h : buf.Valid) : buf.unread.length = buf.readable := by
  rw [unread, Wire.length_window _ h, Nat.add_sub_cancel_left]

/-- Reading the bytes before a suffix leaves the suffix. -/
theorem unread_skipBytes {buf : ByteBuf} (h : buf.Valid) {rest : List Byte}
    (hrest : rest <:+ buf.unread) :
    (buf.skipBytes (buf.readable - rest.length)).Valid ∧
      (buf.skipBytes (buf.readable - rest.length)).unread = rest := by
  have hle := hrest.length_le
  rw [length_unread h] at hle
  refine ⟨?_, ?_⟩
  · unfold Valid at h ⊢
    simp only [skipBytes]
    omega
  · have hdrop := List.suffix_iff_eq_drop.mp hrest
    have hend : buf.index + (buf.readable - rest.length) +
        (buf.readable - (buf.readable - rest.length)) =
        buf.index + buf.readable := by
      omega
    simp only [unread, skipBytes, hend]
    rw [← FixFrameDecoder.drop_window]
    rw [length_unread h] at hdrop
    exact hdrop.symm

end ByteBuf

namespace FixFrameDecoder

open Wire

/-- `decode` waits for two bytes, and then takes the frames of the unread bytes off the buffer. -/
theorem decode_spec (scratch : List Byte) {buf : ByteBuf} (h : buf.Valid) :
    ∃ scratch' buf', buf'.Valid ∧
      (buf.readable < 2 ∧ decode scratch buf = .ok (scratch', buf', []) ∧ buf'.unread = buf.unread ∨
        2 ≤ buf.readable ∧ decode scratch buf = .ok (scratch', buf', framer.frames buf.unread) ∧
          buf'.unread = framer.rest buf.unread) := by
  by_cases hfew : buf.readable < 2
  · exact ⟨scratch, buf, h, .inl ⟨hfew, by rw [decode, if_pos hfew]; rfl, rfl⟩⟩
  have hrest := framer.rest_suffix buf.unread
  obtain ⟨hvalid, hunread⟩ := ByteBuf.unread_skipBytes h hrest
  have hle := hrest.length_le
  rw [ByteBuf.length_unread h] at hle
  -- Reading nothing is reading the empty part before what is left.
  have hskip : ∀ (scratch : List Byte) (out : List (List Byte)),
      (if (buf.readable : ℤ) - (framer.rest buf.unread).length > 0 then
        (pure (scratch, buf.skipBytes ((buf.readable : ℤ) - (framer.rest buf.unread).length).toNat,
          out) :
          Except Exn _) else pure (scratch, buf, out)) =
        .ok (scratch, buf.skipBytes (buf.readable - (framer.rest buf.unread).length), out) := by
    intro scratch out
    have hnat : ((buf.readable : ℤ) - (framer.rest buf.unread).length).toNat =
        buf.readable - (framer.rest buf.unread).length := by
      omega
    split_ifs with hpos
    · rw [hnat]
      rfl
    · have hzero : buf.readable - (framer.rest buf.unread).length = 0 := by omega
      rw [hzero]
      rfl
  cases harray : buf.hasArray with
  | true =>
    refine ⟨scratch, _, hvalid, .inr ⟨by omega, ?_, hunread⟩⟩
    have hemit := frameAndEmit_eq h (by omega)
    rw [decode, if_neg hfew]
    simp only [harray, if_true, hemit, ok_bind]
    exact hskip _ _
  | false =>
    -- The copy in the scratch array is what has arrived, and what is behind it is not read.
    let grown := if scratch.length < buf.readable then
      .replicate (max buf.readable (scratch.length * 2)) 0
      else scratch
    let copy := (buf.array.drop buf.index).take buf.readable ++ grown.drop buf.readable
    have hunreadCopy : (buf.array.drop buf.index).take buf.readable = buf.unread := by
      rw [ByteBuf.unread, window, Nat.add_sub_cancel_left]
    have hcopied : window copy 0 (0 + buf.readable) = buf.unread := by
      have hlength := ByteBuf.length_unread h
      simp only [copy, hunreadCopy, window, Nat.zero_add, Nat.sub_zero, List.drop_zero]
      exact List.take_left' hlength
    have hroom : 0 + buf.readable ≤ copy.length := by
      have hlength := ByteBuf.length_unread h
      simp only [copy, hunreadCopy, List.length_append]
      omega
    have hemit := frameAndEmit_eq hroom (by omega)
    rw [hcopied] at hemit
    refine ⟨copy, _, hvalid, .inr ⟨by omega, ?_, hunread⟩⟩
    have hemit' : frameAndEmit ((buf.array.drop buf.index).take buf.readable ++
        (if scratch.length < buf.readable then
          List.replicate (max buf.readable (scratch.length * 2)) 0
          else scratch).drop buf.readable) 0 buf.readable = _ := hemit
    rw [decode, if_neg hfew]
    simp only [harray, Bool.false_eq_true, if_false, hemit', ok_bind]
    exact hskip _ _

/-- A connection whose bytes have come in chunks. For each call the unread bytes and the chunk stand
together in a buffer, and the memory for it may be any. -/
inductive Received : (chunks : List (List Byte)) → (scratch unread : List Byte) →
    (emitted : List (List Byte)) → Prop where
  | start : Received [] (.replicate 256 0) [] []
  | chunk {chunks : List (List Byte)} {scratch unread : List Byte} {emitted : List (List Byte)}
      (bytes : List Byte) {buf buf' : ByteBuf} {scratch' : List Byte} {out : List (List Byte)} :
      Received chunks scratch unread emitted → buf.Valid → buf.unread = unread ++ bytes →
      decode scratch buf = .ok (scratch', buf', out) →
      Received (chunks ++ [bytes]) scratch' buf'.unread (emitted ++ out)

/-- The decoder has emitted the frames of what it was given, and no frame is left in what it
keeps. -/
theorem Received.splits {chunks : List (List Byte)} {scratch unread : List Byte}
    {emitted : List (List Byte)} (h : Received chunks scratch unread emitted) :
    framer.Splits chunks.flatten emitted unread ∧ framer.frames unread = [] := by
  induction h with
  | start => exact ⟨Framer.Splits.nil, (frames_of_short (by decide)).1⟩
  | @chunk chunks scratch unread emitted bytes buf buf' scratch' out hprev hvalid hbuf hdecode ih =>
    obtain ⟨hsplits, -⟩ := ih
    have hstored := hsplits.store bytes
    rw [← hbuf] at hstored
    rw [List.flatten_append, List.flatten_singleton]
    obtain ⟨scratch₁, buf₁, -, ⟨hfew, hresult, hkept⟩ | ⟨-, hresult, hkept⟩⟩ :=
      decode_spec scratch hvalid
    · -- Less than two bytes are only kept.
      obtain ⟨rfl, hrest⟩ := Prod.mk.inj (Except.ok.inj (hresult.symm.trans hdecode))
      obtain ⟨rfl, rfl⟩ := Prod.mk.inj hrest
      have hshort : buf.unread.length < 2 := by
        rw [ByteBuf.length_unread hvalid]
        exact hfew
      rw [hkept, List.append_nil]
      exact ⟨hstored, (frames_of_short hshort).1⟩
    · obtain ⟨rfl, hrest⟩ := Prod.mk.inj (Except.ok.inj (hresult.symm.trans hdecode))
      obtain ⟨rfl, rfl⟩ := Prod.mk.inj hrest
      rw [hkept]
      exact ⟨hstored.drain, Framer.frames_of_none (framer.step_rest _)⟩

/-- Framing does not depend on how the bytes of a connection are cut into chunks. After any chunks
the decoder takes the next one without an error, and it has emitted what it emits of all the bytes
at once. Each time it is done with no less than none and no more than all of the available bytes,
and it reads none but these: it does the same on any memory that has them, also where nothing else
is there to be read. -/
theorem frames_of_chunks {chunks : List (List Byte)} {scratch unread : List Byte}
    {emitted : List (List Byte)} (h : Received chunks scratch unread emitted) :
    (∀ (bytes : List Byte) (buf : ByteBuf), buf.Valid → buf.unread = unread ++ bytes →
      ∃ scratch' buf' out, decode scratch buf = .ok (scratch', buf', out)) ∧
    (∀ whole : ByteBuf, whole.Valid → whole.unread = chunks.flatten → ∀ scratch₀,
      ∃ scratch' buf', decode scratch₀ whole = .ok (scratch', buf', emitted)) ∧
    ∀ (data : List Byte) (base avail : ℕ), base + avail ≤ data.length → 2 ≤ avail →
      ∃ (out : List (List Byte)) (consumed : ℤ), 0 ≤ consumed ∧ consumed ≤ avail ∧
        ∀ (memory : List Byte) (offset : ℕ), offset + avail ≤ memory.length →
          window memory offset (offset + avail) = window data base (base + avail) →
          frameAndEmit memory offset avail = .ok (out, consumed) := by
  refine ⟨fun bytes buf hvalid _ => ?_, fun whole hvalid hwhole scratch₀ => ?_,
    fun data base avail hdata htwo => ?_⟩
  · obtain ⟨scratch', buf', -, ⟨-, hresult, -⟩ | ⟨-, hresult, -⟩⟩ := decode_spec scratch hvalid
    · exact ⟨_, _, _, hresult⟩
    · exact ⟨_, _, _, hresult⟩
  · obtain ⟨hsplits, hnone⟩ := h.splits
    have hemitted := hsplits.frames_eq hnone
    rw [← hwhole] at hemitted
    obtain ⟨scratch', buf', -, ⟨hfew, hresult, -⟩ | ⟨-, hresult, -⟩⟩ := decode_spec scratch₀ hvalid
    · have hshort : whole.unread.length < 2 := by
        rw [ByteBuf.length_unread hvalid]
        exact hfew
      rw [hemitted, (frames_of_short hshort).1]
      exact ⟨_, _, hresult⟩
    · rw [hemitted]
      exact ⟨_, _, hresult⟩
  · have hle := (framer.rest_suffix (window data base (base + avail))).length_le
    rw [length_window _ hdata, Nat.add_sub_cancel_left] at hle
    refine ⟨framer.frames (window data base (base + avail)),
      (avail : ℤ) - (framer.rest (window data base (base + avail))).length, by omega, by omega, ?_⟩
    intro memory offset hmemory hsame
    rw [frameAndEmit_eq hmemory (by omega), hsame]

open OrderGateway (ofText)

/-- A cancel behind garbage. It is cut within its `8=` and within its body length, and arrives in
three chunks. -/
theorem frames_of_chunks_cut : ∃ scratch unread,
    Received [ofText "x8", ofText "=FIX.4.2|9=1", ofText "0|35=F|11=7|10=000|88"] scratch unread
      [ofText "8=FIX.4.2|9=10|35=F|11=7|10=000|"] ∧
    ∃ scratch' buf', decode [] ⟨ofText "x8=FIX.4.2|9=10|35=F|11=7|10=000|88", 0, 35, false⟩ =
      .ok (scratch', buf', [ofText "8=FIX.4.2|9=10|35=F|11=7|10=000|"]) := by
  let first : ByteBuf := ⟨ofText "x8", 0, 2, true⟩
  let second : ByteBuf := ⟨ofText "?8=FIX.4.2|9=1?", 1, 13, true⟩
  let third : ByteBuf := ⟨ofText "8=FIX.4.2|9=10|35=F|11=7|10=000|88?", 0, 34, true⟩
  have hfirst : decode (.replicate 256 0) first =
      .ok (.replicate 256 0, first.skipBytes 1, []) := by
    decide +kernel
  have hsecond : decode (.replicate 256 0) second = .ok (.replicate 256 0, second, []) := by
    decide +kernel
  have hthird : decode (.replicate 256 0) third =
      .ok (.replicate 256 0, third.skipBytes 33, [ofText "8=FIX.4.2|9=10|35=F|11=7|10=000|"]) := by
    decide +kernel
  have hrun :=
    ((Received.start.chunk (ofText "x8") (show first.Valid by decide +kernel) (by decide +kernel)
    hfirst).chunk (ofText "=FIX.4.2|9=1") (show second.Valid by decide +kernel) (by decide +kernel)
    hsecond).chunk (ofText "0|35=F|11=7|10=000|88") (show third.Valid by decide +kernel)
      (by decide +kernel)
    hthird
  exact ⟨_, _, hrun, (frames_of_chunks hrun).2.1 _ (by decide +kernel) (by decide +kernel) []⟩

end FixFrameDecoder

end MatchingVenue
