import MatchingVenue.Gateway.Wire

/-!
# Texts of the source

A string of the source is a list of 16 bit code units. `getBytes` encodes it in ASCII, where
whatever is not ASCII becomes a question mark, and `toText` and `zeroPadded` print a `long`. What is
printed reads as the number again where it is not negative (`longOf_toText`), and as no number where
it is.
-/

namespace MatchingVenue

open FixConstants Wire

/-- A string of the source. -/
abbrev Text := List UInt16

namespace Text

/-- A literal of the source, all ASCII. -/
def lit (s : String) : Text := s.toList.map fun c => UInt16.ofNat c.toNat

/-- The question mark. -/
def replacement : Byte := 63

/-- The string in ASCII. A surrogate pair is one character, and so is a surrogate on its own. -/
def getBytes : Text → List Byte
  | [] => []
  | [c] => [if c < 128 then Int8.ofNat c.toNat else replacement]
  | c :: d :: s =>
    if c < 128 then Int8.ofNat c.toNat :: getBytes (d :: s)
    else if 0xD800 ≤ c ∧ c < 0xDC00 ∧ 0xDC00 ≤ d ∧ d < 0xE000 then replacement :: getBytes s
    else replacement :: getBytes (d :: s)

/-- The decimal digits of a number. -/
def digits (n : ℕ) : Text := (Nat.toDigits 10 n).map fun c => UInt16.ofNat c.toNat

/-- The minus sign. -/
def minus : UInt16 := 45

/-- The digit zero. -/
def zero : UInt16 := 48

/-- `Long.toString`. -/
def toText (x : ℤ) : Text := if x < 0 then minus :: digits x.natAbs else digits x.natAbs

/-- Digits with zeros before them, up to a width. -/
def pad (width : ℕ) (s : Text) : Text := List.replicate (width - s.length) zero ++ s

/-- `String.format` with a conversion such as `%04d`: zeros after the sign, up to a width that
counts it. -/
def zeroPadded (width : ℕ) (x : ℤ) : Text :=
  if x < 0 then minus :: pad (width - 1) (digits x.natAbs) else pad width (digits x.natAbs)

/-! ## Bytes -/

/-- All code units of a text are ASCII. -/
def Ascii (s : Text) : Prop := ∀ c ∈ s, c < 128

/-- Whether a text is ASCII can be decided. -/
instance : DecidablePred Ascii := fun s => List.decidableBAll (fun c => c < 128) s

/-- The byte of an ASCII code unit. -/
def byte (c : UInt16) : Byte := Int8.ofNat c.toNat

/-- The bytes of a text begin with that of its first character, where that is ASCII. -/
theorem getBytes_cons {c : UInt16} (h : c < 128) (s : Text) :
    getBytes (c :: s) = byte c :: getBytes s := by
  cases s with
  | nil => simp [getBytes, h, byte]
  | cons d s => simp [getBytes, h, byte]

/-- A text is encoded up to an ASCII code unit, and then behind it. -/
theorem getBytes_append_cons {c : UInt16} (h : c < 128) (s t : Text) :
    getBytes (s ++ c :: t) = getBytes s ++ byte c :: getBytes t := by
  have hlow : ¬ (0xDC00 : UInt16) ≤ c := by
    rw [UInt16.le_iff_toNat_le]
    rw [UInt16.lt_iff_toNat_lt] at h
    simp at h ⊢
    omega
  induction s using getBytes.induct with
  | case1 => exact getBytes_cons h t
  | case2 d =>
    by_cases hd : d < 128 <;> simp [getBytes, hd, hlow, getBytes_cons h]
  | case3 d e s hd ih =>
    simp only [List.cons_append] at ih ⊢
    rw [getBytes_cons hd, getBytes_cons hd, ih, List.cons_append]
  | case4 d e s hd hpair ih =>
    simp only [List.cons_append]
    rw [getBytes, if_neg hd, if_pos hpair, ih, getBytes, if_neg hd, if_pos hpair, List.cons_append]
  | case5 d e s hd hpair ih =>
    simp only [List.cons_append] at ih ⊢
    rw [getBytes, if_neg hd, if_neg hpair, ih, getBytes, if_neg hd, if_neg hpair, List.cons_append]

/-- The bytes of an ASCII text are those of its characters. -/
theorem getBytes_ascii {s : Text} (h : Ascii s) : getBytes s = s.map byte := by
  induction s with
  | nil => rfl
  | cons c s ih =>
    rw [getBytes_cons (h c List.mem_cons_self), ih fun d hd => h d (List.mem_cons_of_mem _ hd),
      List.map_cons]

/-- An ASCII text before another one is encoded on its own. -/
theorem getBytes_append {s : Text} (h : Ascii s) (t : Text) :
    getBytes (s ++ t) = getBytes s ++ getBytes t := by
  induction s with
  | nil => rfl
  | cons c s ih =>
    rw [List.cons_append, getBytes_cons (h c List.mem_cons_self),
      getBytes_cons (h c List.mem_cons_self), ih fun d hd => h d (List.mem_cons_of_mem _ hd),
      List.cons_append]

/-! ## Decimals -/

/-- The code unit of a digit is its character. -/
theorem digit_spec {c : Char} (h : c.isDigit = true) :
    UInt16.ofNat c.toNat < 128 ∧ (byte (UInt16.ofNat c.toNat)).toInt = c.toNat ∧ 48 ≤ c.toNat ∧
      c.toNat ≤ 57 := by
  have hrange : 48 ≤ c.toNat ∧ c.toNat ≤ 57 := by
    simpa [Char.isDigit, UInt32.le_iff_toNat_le] using h
  have hall : ∀ n ≤ 57, UInt16.ofNat n < 128 ∧ (byte (UInt16.ofNat n)).toInt = n := by decide
  obtain ⟨hlt, hint⟩ := hall c.toNat hrange.2
  exact ⟨hlt, hint, hrange⟩

/-- Digits are ASCII. -/
theorem ascii_digits (n : ℕ) : Ascii (digits n) := by
  intro c hc
  obtain ⟨d, hd, rfl⟩ := List.mem_map.mp hc
  exact (digit_spec (Nat.isDigit_of_mem_toDigits (by decide) (by decide) hd)).1

/-- Every number has a digit. -/
theorem digits_ne_nil (n : ℕ) : digits n ≠ [] := by
  simp [digits]

/-- The digits of a number are digits, and write it. -/
theorem getBytes_digits (n : ℕ) :
    (∀ b ∈ getBytes (digits n), IsDigit b) ∧ number (getBytes (digits n)) = n := by
  rw [getBytes_ascii (ascii_digits n), digits, List.map_map]
  refine ⟨?_, ?_⟩
  · intro b hb
    obtain ⟨c, hc, rfl⟩ := List.mem_map.mp hb
    obtain ⟨-, hint, hle, hge⟩ :=
      digit_spec (Nat.isDigit_of_mem_toDigits (by decide) (by decide) hc)
    unfold IsDigit
    rw [Function.comp_apply, hint]
    omega
  · have hfold : ∀ (cs : List Char) (val : ℕ), (∀ c ∈ cs, c.isDigit = true) →
        numberFrom val (cs.map (byte ∘ fun c => UInt16.ofNat c.toNat)) =
        Nat.ofDigitChars 10 cs val := by
      intro cs
      induction cs with
      | nil => exact fun val _ => rfl
      | cons c cs ih =>
        intro val hcs
        obtain ⟨-, hint, hle, -⟩ := digit_spec (hcs c List.mem_cons_self)
        have hvalue : val * 10 + ((byte (UInt16.ofNat c.toNat)).toInt - 48).toNat =
            10 * val + (c.toNat - '0'.toNat) := by
          rw [hint]
          have hzero : '0'.toNat = 48 := rfl
          omega
        rw [Nat.ofDigitChars_cons, ← ih _ fun d hd => hcs d (List.mem_cons_of_mem _ hd), ← hvalue]
        rfl
    rw [number, hfold _ 0 fun c hc => Nat.isDigit_of_mem_toDigits (by decide) (by decide) hc,
      Nat.ofDigitChars_ten_toDigits]

/-- The bytes of padded digits are zeros and those of the digits. -/
theorem getBytes_pad (width n : ℕ) : getBytes (pad width (digits n)) =
    List.replicate (width - (digits n).length) (byte zero) ++ getBytes (digits n) := by
  have hzeros : Ascii (List.replicate (width - (digits n).length) zero) := by
    intro c hc
    rw [(List.mem_replicate.mp hc).2]
    decide
  rw [pad, getBytes_append hzeros, getBytes_ascii hzeros, List.map_replicate]

/-- Padded digits are digits. -/
theorem isDigit_pad (width n : ℕ) : ∀ b ∈ getBytes (pad width (digits n)), IsDigit b := by
  rw [getBytes_pad]
  intro b hb
  rcases List.mem_append.mp hb with hb | hb
  · rw [(List.mem_replicate.mp hb).2]
    decide
  · exact (getBytes_digits n).1 b hb

/-- Zeros before the digits of a number do not change it. -/
theorem longOf_pad (width n : ℕ) (h : (n : ℤ) ≤ longMax) :
    longOf (getBytes (pad width (digits n))) = n := by
  have hlead : ∀ k val, numberFrom 0 (List.replicate k (byte zero) ++ val) = number val := by
    intro k val
    induction k with
    | zero => rfl
    | succ k ih => exact ih
  have hnumber : number (getBytes (pad width (digits n))) = n := by
    rw [getBytes_pad, number, hlead, (getBytes_digits n).2]
  have hne : getBytes (pad width (digits n)) ≠ [] := by
    rw [getBytes_pad, getBytes_ascii (ascii_digits n)]
    simp [digits_ne_nil]
  have hall : ((getBytes (pad width (digits n))).all fun b => IsDigit b) = true :=
    List.all_eq_true.mpr fun b hb => decide_eq_true (isDigit_pad width n b hb)
  rw [longOf, hnumber, if_pos ⟨hne, hall, h⟩]

/-- A text padded to no width is the text. -/
theorem pad_zero (s : Text) : pad 0 s = s := by
  rw [pad, Nat.zero_sub, List.replicate_zero, List.nil_append]

/-- Digits are read as their number where that is a `long`. -/
theorem longOf_digits {n : ℕ} (h : (n : ℤ) ≤ longMax) : longOf (getBytes (digits n)) = n := by
  have hpad := longOf_pad 0 n h
  rwa [pad_zero] at hpad

/-- Padding leaves a text ASCII. -/
theorem ascii_pad {s : Text} (h : Ascii s) (width : ℕ) : Ascii (pad width s) := by
  intro c hc
  rcases List.mem_append.mp hc with hc | hc
  · rw [(List.mem_replicate.mp hc).2]
    decide
  · exact h c hc

/-- A padded text is as long as the width, or as the text where that is longer. -/
theorem length_pad (width : ℕ) (s : Text) : (pad width s).length = max width s.length := by
  rw [pad, List.length_append, List.length_replicate]
  omega

/-- A number below a power of ten has no more digits than its exponent. -/
theorem length_digits_le {n k : ℕ} (hk : 0 < k) (h : n < 10 ^ k) : (digits n).length ≤ k := by
  rw [digits, List.length_map]
  exact (Nat.length_toDigits_le_iff (by decide) hk).mpr h

/-- An ASCII text has as many bytes as characters. -/
theorem length_getBytes {s : Text} (h : Ascii s) : (getBytes s).length = s.length := by
  rw [getBytes_ascii h, List.length_map]

/-- A written number is ASCII. -/
theorem ascii_toText (x : ℤ) : Ascii (toText x) := by
  unfold toText
  split_ifs
  · exact List.forall_mem_cons.mpr ⟨by decide, ascii_digits _⟩
  · exact ascii_digits _

/-- A padded number is ASCII. -/
theorem ascii_zeroPadded (width : ℕ) (x : ℤ) : Ascii (zeroPadded width x) := by
  unfold zeroPadded
  split_ifs
  · exact List.forall_mem_cons.mpr ⟨by decide, ascii_pad (ascii_digits _) _⟩
  · exact ascii_pad (ascii_digits _) _

/-- Two ASCII texts after each other are ASCII. -/
theorem Ascii.append {s t : Text} (hs : Ascii s) (ht : Ascii t) : Ascii (s ++ t) :=
  List.forall_mem_append.mpr ⟨hs, ht⟩

/-- Two digits, as they are printed with a zero where one would do. -/
theorem pad_two {c : ℤ} (h0 : 0 ≤ c) (h : c < 100) :
    (if c < 10 then lit "0" ++ toText c else toText c) = pad 2 (digits c.natAbs) := by
  have htext : toText c = digits c.natAbs := if_neg (by omega)
  have hpos : 0 < (digits c.natAbs).length := List.length_pos_iff.mpr (digits_ne_nil _)
  have hone : (digits c.natAbs).length ≤ 1 ↔ c.natAbs < 10 ^ 1 := by
    rw [digits, List.length_map]
    exact Nat.length_toDigits_le_iff (by decide) (by decide)
  have htwo := length_digits_le (n := c.natAbs) (k := 2) (by decide) (by omega)
  rw [htext, pad]
  by_cases hc : c < 10
  · have hlength : 2 - (digits c.natAbs).length = 1 := by omega
    rw [if_pos hc, hlength]
    rfl
  · have hlength : 2 - (digits c.natAbs).length = 0 := by omega
    rw [if_neg hc, hlength, List.replicate_zero, List.nil_append]

/-- A byte of a number as it is printed: a digit or the sign. -/
def Printed (b : Byte) : Prop := IsDigit b ∨ b = byte minus

/-- Whether a byte is printed can be decided. -/
instance : DecidablePred Printed := fun _ => by
  unfold Printed
  infer_instance

/-- A written number is printed. -/
theorem printed_toText (x : ℤ) : ∀ b ∈ getBytes (toText x), Printed b := by
  unfold toText
  split_ifs
  · rw [getBytes_cons (by decide)]
    exact List.forall_mem_cons.mpr ⟨.inr rfl, fun b hb => .inl ((getBytes_digits _).1 b hb)⟩
  · exact fun b hb => .inl ((getBytes_digits _).1 b hb)

/-- A padded number is printed. -/
theorem printed_zeroPadded (width : ℕ) (x : ℤ) :
    ∀ b ∈ getBytes (zeroPadded width x), Printed b := by
  unfold zeroPadded
  split_ifs
  · rw [getBytes_cons (by decide)]
    exact List.forall_mem_cons.mpr ⟨.inr rfl, fun b hb => .inl (isDigit_pad _ _ b hb)⟩
  · exact fun b hb => .inl (isDigit_pad _ _ b hb)

/-- What has a sign is not read as a number. -/
theorem longOf_of_minus_mem {bytes : List Byte} (h : byte minus ∈ bytes) : longOf bytes = -1 := by
  rw [longOf, if_neg]
  rintro ⟨-, hall, -⟩
  have hdigit := of_decide_eq_true (List.all_eq_true.mp hall _ h)
  revert hdigit
  decide

/-- A `long` that is not negative is read as it is printed, and a negative one is not read. -/
theorem longOf_toText (x : Long) : longOf (getBytes (toText x)) = if 0 ≤ x.1 then x.1 else -1 := by
  obtain ⟨x, hlow, hhigh⟩ := x
  show longOf (getBytes (toText x)) = if 0 ≤ x then x else -1
  unfold toText
  by_cases hneg : x < 0
  · rw [if_pos hneg, getBytes_cons (by decide), longOf_of_minus_mem List.mem_cons_self,
      if_neg (Int.not_le.mpr hneg)]
  · have habs : (x.natAbs : ℤ) = x := by omega
    rw [if_neg hneg, longOf_digits (by omega), if_pos (Int.not_lt.mp hneg), habs]

end Text

end MatchingVenue
