import MatchingVenue.Gateway.FixFrameDecoder

/-!
# Recovery of a stream

What stands between the messages of a stream does not keep the decoder from them. Bytes without an
`8=` are skipped one by one, and a broken start with its `8=`. So of messages with such separators
between them exactly the messages are emitted (`messages_recovered`).
-/

namespace MatchingVenue

namespace FixFrameDecoder

open FixConstants Wire

/-- Bytes that are one complete frame. -/
def IsMessage (message : List Byte) : Prop :=
  frameLength message 0 message.length = .ok (.length message.length)

/-- Bytes that contain no `8=`. -/
def Quiet (bytes : List Byte) : Prop := ¬ [b8, equals] <:+: bytes

/-- What may stand before a message: bytes that contain no `8=`, or a broken start, which is
malformed on its own and contains no `8=` behind its front. -/
def IsSeparator (separator : List Byte) : Prop :=
  Quiet separator ∨ frameLength separator 0 separator.length = .ok .malformed ∧ Quiet separator.tail

/-- Some messages, each behind a separator, and a last separator. -/
def stream (parts : List (List Byte × List Byte)) (last : List Byte) : List Byte :=
  (parts.flatMap fun part => part.1 ++ part.2) ++ last

/-! ## One part of a stream -/

section Part

variable {bytes separator message rest : List Byte}

/-- The length of a frame that is all of a buffer is the verdict on it. -/
theorem frameLength_whole (bytes : List Byte) :
    frameLength bytes 0 bytes.length = .ok (verdict bytes) := by
  have hwhole : window bytes 0 (0 + bytes.length) = bytes := by
    rw [window, Nat.zero_add, Nat.sub_zero, List.drop_zero, List.take_length]
  rw [frameLength_eq (Nat.le_of_eq (Nat.zero_add _)), hwhole]

/-- A message is a frame of its own length. -/
theorem IsMessage.verdict (h : IsMessage message) : verdict message = .length message.length :=
  Except.ok.inj ((frameLength_whole message).symm.trans h)

/-- A message begins with `8=`. -/
theorem begins_of_verdict {n : ℕ} (h : FixFrameDecoder.verdict message = .length n) :
    Begins message := by
  rcases message with _ | ⟨b, _ | ⟨c, w⟩⟩
  · simp [FixFrameDecoder.verdict] at h
  · simp [FixFrameDecoder.verdict] at h
  · simp only [FixFrameDecoder.verdict] at h
    split_ifs at h with hstart
    obtain ⟨rfl, rfl⟩ := hstart
    exact ⟨w, rfl⟩

/-- A message is emitted, and the rest of the stream follows it. -/
theorem frames_message (h : IsMessage message) (rest : List Byte) :
    framer.frames (message ++ rest) = message :: framer.frames rest := by
  have hverdict := h.verdict
  have hmore : FixFrameDecoder.verdict message ≠ .needMore := by
    rw [hverdict]
    simp
  have hbegins := begins_of_verdict hverdict
  have htake : framer.step (message ++ rest) = some (message.length, some message) := by
    show step (message ++ rest) = _
    rw [step, if_pos (hbegins.append rest), verdict_append hmore, hverdict]
    simp
  rw [Framer.frames_of_some htake, List.drop_left]
  rfl

/-- A `8` behind some bytes is no second half of an `8=`. -/
theorem not_begins_append {b : Byte} (hquiet : Quiet (b :: bytes))
    (hrest : ∀ c ∈ rest.head?, c = b8) :
    ¬ Begins (b :: (bytes ++ rest)) := by
  intro hbegins
  cases bytes with
  | nil =>
    cases rest with
    | nil => simpa using hbegins.length_le
    | cons c rest =>
      obtain rfl : c = b8 := hrest c rfl
      have hequals := (List.cons_prefix_cons.mp (List.cons_prefix_cons.mp hbegins).2).1
      revert hequals
      decide
  | cons c bytes =>
    obtain ⟨hb, hc⟩ := List.cons_prefix_cons.mp hbegins
    obtain ⟨hc, -⟩ := List.cons_prefix_cons.mp hc
    exact hquiet ⟨[], bytes, by rw [hb, hc]; rfl⟩

/-- Bytes without an `8=` are skipped, at the end of the stream and where a message follows. -/
theorem frames_quiet (hquiet : Quiet bytes) (hrest : ∀ c ∈ rest.head?, c = b8) :
    framer.frames (bytes ++ rest) = framer.frames rest := by
  induction bytes with
  | nil => rfl
  | cons b bytes ih =>
    have htail : Quiet bytes := fun hinside =>
      hquiet (hinside.trans (List.suffix_cons b bytes).isInfix)
    by_cases hwait : b :: (bytes ++ rest) = [b8]
    · -- A single `8` at the end is kept for what may come, and nothing is emitted.
      have hnil : rest = [] := (List.append_eq_nil_iff.mp (List.cons.inj hwait).2).2
      have hone : (b :: (bytes ++ rest)).length < 2 := by
        rw [hwait]
        decide
      have hnone : ([] : List Byte).length < 2 := by decide
      rw [List.cons_append, (frames_of_short hone).1, hnil, (frames_of_short hnone).1]
    · have hskip := step_skip (not_begins_append hquiet hrest) hwait
      rw [List.cons_append, Framer.frames_of_some hskip]
      exact ih htail

/-- A separator is skipped. -/
theorem frames_separator (h : IsSeparator separator) (hrest : ∀ c ∈ rest.head?, c = b8) :
    framer.frames (separator ++ rest) = framer.frames rest := by
  rcases h with hquiet | ⟨hbroken, htail⟩
  · exact frames_quiet hquiet hrest
  have hverdict : FixFrameDecoder.verdict separator = .malformed :=
    Except.ok.inj ((frameLength_whole separator).symm.trans hbroken)
  by_cases hbegins : Begins separator
  · -- The verdict stands with what follows, so the `8=` is skipped, and there is no other one.
    obtain ⟨behind, rfl⟩ := hbegins
    have hskip : framer.step ([b8, equals] ++ behind ++ rest) = some (2, none) := by
      have hmore : FixFrameDecoder.verdict ([b8, equals] ++ behind) ≠ .needMore := by
        rw [hverdict]
        simp
      have hfront : Begins ([b8, equals] ++ behind) := ⟨behind, rfl⟩
      show step ([b8, equals] ++ behind ++ rest) = _
      rw [step, if_pos (hfront.append rest), verdict_append hmore, hverdict]
    have hbehind : Quiet behind := fun hinside =>
      htail (hinside.trans (List.suffix_cons equals behind).isInfix)
    rw [Framer.frames_of_some hskip]
    exact frames_quiet hbehind hrest
  · -- What does not begin with an `8=` contains none.
    have hquiet : Quiet separator := by
      intro hinside
      cases separator with
      | nil => simp at hinside
      | cons b bytes =>
        rcases List.infix_cons_iff.mp hinside with hfront | hinside
        · exact hbegins hfront
        · exact htail hinside
    exact frames_quiet hquiet hrest

end Part

/-! ## The whole stream -/

variable {parts : List (List Byte × List Byte)} {last : List Byte}

/-- The frames of a stream are its messages. -/
theorem frames_stream (hparts : ∀ part ∈ parts, IsSeparator part.1 ∧ IsMessage part.2)
    (hlast : IsSeparator last) :
    framer.frames (stream parts last) = parts.map Prod.snd := by
  induction parts with
  | nil =>
    have hskipped := @frames_separator last [] hlast (by simp)
    rw [List.append_nil] at hskipped
    have hshort : ([] : List Byte).length < 2 := by decide
    rw [stream, List.flatMap_nil, List.nil_append, hskipped, (frames_of_short hshort).1]
    rfl
  | cons part parts ih =>
    obtain ⟨hpart, hparts⟩ := List.forall_mem_cons.mp hparts
    obtain ⟨hseparator, hmessage⟩ := hpart
    obtain ⟨w, hw⟩ := begins_of_verdict hmessage.verdict
    have hhead : ∀ c ∈ (part.2 ++ stream parts last).head?, c = b8 := by
      intro c hc
      rw [← hw] at hc
      exact (Option.some.inj hc).symm
    have hstream : stream (part :: parts) last = part.1 ++ (part.2 ++ stream parts last) := by
      rw [stream, stream, List.flatMap_cons, List.append_assoc, List.append_assoc]
    rw [hstream, frames_separator hseparator hhead, frames_message hmessage, ih hparts,
      List.map_cons]

/-- Of any messages with separators before, between and behind them, `frameAndEmit` emits the
messages in their order and nothing else, wherever the stream is in the memory. The decoder does not
call it for no bytes. -/
theorem messages_recovered (hparts : ∀ part ∈ parts, IsSeparator part.1 ∧ IsMessage part.2)
    (hlast : IsSeparator last) {data : List Byte} {base avail : ℕ}
    (hdata : base + avail ≤ data.length)
    (hstream : window data base (base + avail) = stream parts last) (hpos : 0 < avail) :
    ∃ consumed, frameAndEmit data base avail = .ok (parts.map Prod.snd, consumed) := by
  have hemit := frameAndEmit_eq hdata hpos
  rw [hstream, frames_stream hparts hlast] at hemit
  exact ⟨_, hemit⟩

open OrderGateway (ofText)

/-- A message behind an `8`, and one behind a broken start that ends with an `8`. -/
theorem messages_recovered_broken : ∃ consumed,
    frameAndEmit (ofText "x88=FIX.4.2|9=5|35=F|10=000|8=FIX.4.2|9=abc|88=FIX.4.2|9=5|35=D|10=000|!")
      0 72 = .ok ([ofText "8=FIX.4.2|9=5|35=F|10=000|", ofText "8=FIX.4.2|9=5|35=D|10=000|"],
        consumed) := by
  have hmessages : IsMessage (ofText "8=FIX.4.2|9=5|35=F|10=000|") ∧
      IsMessage (ofText "8=FIX.4.2|9=5|35=D|10=000|") := by
    unfold IsMessage
    decide +kernel
  have hfirst : IsSeparator (ofText "x8") := .inl (by unfold Quiet; decide +kernel)
  have hbroken : IsSeparator (ofText "8=FIX.4.2|9=abc|8") := .inr (by unfold Quiet; decide +kernel)
  have hlast : IsSeparator (ofText "!") := .inl (by unfold Quiet; decide +kernel)
  have hparts : ∀ part ∈ [(ofText "x8", ofText "8=FIX.4.2|9=5|35=F|10=000|"),
      (ofText "8=FIX.4.2|9=abc|8", ofText "8=FIX.4.2|9=5|35=D|10=000|")],
          IsSeparator part.1 ∧ IsMessage part.2 := by
    rw [List.forall_mem_cons, List.forall_mem_singleton]
    exact ⟨⟨hfirst, hmessages.1⟩, hbroken, hmessages.2⟩
  exact messages_recovered hparts hlast (by decide +kernel) (by decide +kernel) (by decide)

end FixFrameDecoder

end MatchingVenue
