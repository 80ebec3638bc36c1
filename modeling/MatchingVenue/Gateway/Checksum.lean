import MatchingVenue.Gateway.Scanning

/-!
# Corrupted messages

What the checksum of a message is good for. Two arrays that differ at one byte of a window cannot
both pass it (`checksum_detects`): a byte of the body moves the sum by less than 256, and a digit of
the trailer moves the number that the digits write (`number_inj`). The other bytes of the trailer,
the `10=` and the last field end, are in neither, and the checksum says nothing about them. That the
sum is an `int` and may wrap is no matter, for it keeps its low byte.
-/

namespace MatchingVenue

namespace Wire

/-- Two arrays differ at one index of a window, and at no other. -/
structure DifferAt (a b : List Byte) (offset length i : ℕ) : Prop where
  le : offset ≤ i
  lt : i < offset + length
  only : ∀ j, offset ≤ j → j < offset + length → (b[j]? = a[j]? ↔ j ≠ i)

/-- The indices of what stands in each trailer: the `10=`, and the field end behind the digits. -/
def InTrailer (offset length i : ℕ) : Prop :=
  (offset + length - 7 ≤ i ∧ i < offset + length - 4) ∨ i = offset + length - 1

/-- Whether an index is in the trailer can be decided. -/
instance (offset length i : ℕ) : Decidable (InTrailer offset length i) := by
  unfold InTrailer
  infer_instance

/-- A part of the window without the index is the same in both arrays. -/
theorem DifferAt.sameIn {a b : List Byte} {offset length i : ℕ} (h : DifferAt a b offset length i)
    (start stop : ℕ) (hstart : offset ≤ start) (hstop : stop ≤ offset + length)
    (hout : i < start ∨ stop ≤ i) :
    SameIn start stop a b := fun j hj hlt =>
  (h.only j (hstart.trans hj) (hlt.trans_le hstop)).mpr (by omega)

/-- Buffers that are the same in a window have the same bytes in it. -/
theorem SameIn.window_eq {start stop : ℕ} {buf buf' : List Byte} (h : SameIn start stop buf buf') :
    window buf' start stop = window buf start stop := by
  refine List.ext_getElem? fun k => ?_
  rw [window, window, List.getElem?_take, List.getElem?_take, List.getElem?_drop,
    List.getElem?_drop]
  split_ifs with hk
  · exact h _ (by omega) (by omega)
  · rfl

/-- A part of the window with the index is the same in both arrays up to one byte. -/
theorem DifferAt.split {a b : List Byte} {offset length i : ℕ} (h : DifferAt a b offset length i)
    (start stop : ℕ) (ha : stop ≤ a.length) (hb : stop ≤ b.length) (hstart : offset ≤ start)
    (hstop : stop ≤ offset + length) (hle : start ≤ i) (hlt : i < stop) :
    ∃ front x y back, x ≠ y ∧ window a start stop = front ++ x :: back ∧
      window b start stop = front ++ y :: back := by
  obtain ⟨x, hx, hwindowA⟩ := window_around hle hlt ha
  obtain ⟨y, hy, hwindowB⟩ := window_around hle hlt hb
  have hfront := (h.sameIn start i hstart h.lt.le (.inr (Nat.le_refl i))).window_eq
  have hback := (h.sameIn (i + 1) stop (by omega) hstop (.inl (Nat.lt_succ_self i))).window_eq
  refine ⟨_, x, y, _, ?_, hwindowA, by rw [hwindowB, hfront, hback]⟩
  rintro rfl
  have hsame : b[i]? = a[i]? := by rw [load_eq_ok.mp hx, load_eq_ok.mp hy]
  exact (h.only i h.le h.lt).mp hsame rfl

/-- A byte is told from its unsigned value. -/
theorem byte_inj {x y : Byte} (h : x.toInt % 256 = y.toInt % 256) : x = y := by
  have hx := x.le_toInt
  have hx' := x.toInt_lt
  have hy := y.le_toInt
  have hy' := y.toInt_lt
  exact Int8.toInt_inj.mp (by omega)

/-- Where one byte is exchanged, the low byte of the sum is another one. -/
theorem eq_of_sumOf {x y : Byte} {front back : List Byte}
    (h : sumOf (front ++ x :: back) % 256 = sumOf (front ++ y :: back) % 256) : x = y := by
  have hcons : ∀ z, sumOf (front ++ z :: back) = sumOf front + (z.toInt % 256 + sumOf back) := by
    intro z
    rw [sumOf_append]
    rfl
  rw [hcons, hcons] at h
  exact byte_inj (by omega)

/-- Two runs of as many digits are the same if they write the same number. -/
theorem number_inj {digits more : List Byte} (hlength : digits.length = more.length)
    (hdigits : ∀ b ∈ digits, IsDigit b) (hmore : ∀ b ∈ more, IsDigit b)
    (h : number digits = number more) :
    digits = more := by
  induction digits using List.reverseRecOn generalizing more with
  | nil => exact (List.length_eq_zero_iff.mp hlength.symm).symm
  | append_singleton digits b ih =>
    obtain rfl | ⟨more, c, rfl⟩ := List.eq_nil_or_concat' more
    · simp at hlength
    rw [number_append_one, number_append_one] at h
    obtain ⟨hdigits, hb⟩ := List.forall_mem_append.mp hdigits
    obtain ⟨hmore, hc⟩ := List.forall_mem_append.mp hmore
    obtain ⟨hlow, hhigh⟩ := hb b (List.mem_singleton_self b)
    obtain ⟨hlow', hhigh'⟩ := hc c (List.mem_singleton_self c)
    -- The last digit is the remainder by ten, and those before it are the quotient.
    have hlast : b = c := Int8.toInt_inj.mp (by omega)
    rw [hlast, ih (by simpa using hlength) hdigits hmore (by omega)]

/-- Two texts of as many digits that are read as one number are the same. -/
theorem longOf_inj {digits more : List Byte} (hlength : digits.length = more.length)
    (h0 : 0 ≤ longOf digits) (h : longOf digits = longOf more) : digits = more := by
  obtain ⟨hnumber, hdigits⟩ := longOf_of_nonneg h0
  obtain ⟨hnumber', hmore⟩ := longOf_of_nonneg (h ▸ h0)
  exact number_inj hlength hdigits hmore (by omega)

/-- The checksum detects every corruption of one byte: of two arrays that differ at one index of a
window, which is none of the trailer's own, it accepts one at most. -/
theorem checksum_detects {a b : List Byte} {offset length i : ℕ} (ha : offset + length ≤ a.length)
    (hb : offset + length ≤ b.length) (hdiffer : DifferAt a b offset length i)
    (hi : ¬ InTrailer offset length i) :
    ¬ (FixParser.validateChecksum a offset length = .ok true ∧
      FixParser.validateChecksum b offset length = .ok true) := by
  have haccepted : ∀ buf : List Byte, offset + length ≤ buf.length →
      FixParser.validateChecksum buf offset length = .ok true → 8 ≤ length ∧
        longOf (window buf (offset + length - 4) (offset + length - 1)) =
          sumOf (window buf offset (offset + length - 7)) % 256 := by
    intro buf hbuf hok
    rw [validateChecksum_window hbuf] at hok
    exact (checked_window hbuf).mp (of_decide_eq_true (Except.ok.inj hok))
  rintro ⟨hokA, hokB⟩
  obtain ⟨hlong, hsumA⟩ := haccepted a ha hokA
  obtain ⟨-, hsumB⟩ := haccepted b hb hokB
  have hlt := hdiffer.lt
  unfold InTrailer at hi
  by_cases hbody : i < offset + length - 7
  · -- In the body: the digits are the same, and the sum is not.
    have hdigits :=
      (hdiffer.sameIn (offset + length - 4) (offset + length - 1) (by omega) (by omega)
      (.inl (by omega))).window_eq
    obtain ⟨front, x, y, back, hne, hwindowA, hwindowB⟩ :=
      hdiffer.split offset (offset + length - 7) (by omega)
      (by omega) (Nat.le_refl _) (by omega) hdiffer.le hbody
    refine hne (@eq_of_sumOf x y front back ?_)
    calc sumOf (front ++ x :: back) % 256
        = longOf (window a (offset + length - 4) (offset + length - 1)) := by rw [hsumA, hwindowA]
      _ = longOf (window b (offset + length - 4) (offset + length - 1)) := by rw [hdigits]
      _ = sumOf (front ++ y :: back) % 256 := by rw [hsumB, hwindowB]
  · -- In the digits: the sum is the same, and the number is not.
    have hsummed := (hdiffer.sameIn offset (offset + length - 7) (Nat.le_refl _) (by omega)
      (.inr (by omega))).window_eq
    obtain ⟨front, x, y, back, hne, hwindowA, hwindowB⟩ :=
      hdiffer.split (offset + length - 4) (offset + length - 1)
      (by omega) (by omega) (by omega) (by omega) (by omega) (by omega)
    have hread : 0 ≤ longOf (front ++ x :: back) := by
      rw [← hwindowA, hsumA]
      omega
    have hnumbers : longOf (front ++ x :: back) = longOf (front ++ y :: back) := by
      calc longOf (front ++ x :: back)
          = sumOf (window a offset (offset + length - 7)) % 256 := by rw [← hwindowA, hsumA]
        _ = sumOf (window b offset (offset + length - 7)) % 256 := by rw [hsummed]
        _ = longOf (front ++ y :: back) := by rw [← hwindowB, hsumB]
    have hsame := longOf_inj (by simp) hread hnumbers
    exact hne (List.cons.inj (List.append_cancel_left hsame)).1

/-- A shortest message with its sum, and the same with another body. -/
theorem checksum_detects_body :
    FixParser.validateChecksum [65, 49, 48, 61, 48, 54, 53, 1] 0 8 = .ok true ∧
      FixParser.validateChecksum [66, 49, 48, 61, 48, 54, 53, 1] 0 8 ≠ .ok true :=
  ⟨rfl, fun hok => checksum_detects (a := [65, 49, 48, 61, 48, 54, 53, 1]) (i := 0)
    (by decide) (by decide)
    ⟨by decide, by decide, by decide⟩ (by decide) ⟨rfl, hok⟩⟩

end Wire

end MatchingVenue
