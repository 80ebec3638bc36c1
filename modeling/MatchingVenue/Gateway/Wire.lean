import MatchingVenue.Gateway.FixParser
import Mathlib.Data.List.Find
import Mathlib.Data.Nat.Digits.Defs

/-!
# Messages on the wire

What a message says, as lists of bytes: the fields between the field ends, each with its tag before
the first `=`, and the number that a run of digits writes. The index loops of the parser are related
to it by the window that they have yet to read: `parseLong_eq` for numbers, and `scanFrom_fields`
for the fields that the scanner records.
-/

namespace MatchingVenue

open FixConstants

namespace Wire

/-- Whether a byte is an ASCII digit. -/
def IsDigit (b : Byte) : Prop := 48 ≤ b.toInt ∧ b.toInt ≤ 57

/-- Whether a byte is a digit can be decided. -/
instance : DecidablePred IsDigit := fun _ => by
  unfold IsDigit
  infer_instance

/-- The number that is written by some digits and more of them. -/
def numberFrom (val : ℕ) (digits : List Byte) : ℕ :=
  digits.foldl (fun val b => val * 10 + (b.toInt - 48).toNat) val

/-- The number that some digits write. -/
def number (digits : List Byte) : ℕ := numberFrom 0 digits

/-- The number that some bytes write as a `long`, with the sentinel `-1`. -/
def longOf (bytes : List Byte) : ℤ :=
  if bytes ≠ [] ∧ (bytes.all fun b => IsDigit b) ∧ (number bytes : ℤ) ≤ longMax then
    number bytes else -1

/-- A field as it is written. -/
structure Field where
  tag : List Byte
  value : List Byte
  deriving DecidableEq, Repr

/-- The field between two field ends. -/
def field (bytes : List Byte) : Field where
  tag := bytes.takeWhile fun b => b ≠ equals
  value := (bytes.dropWhile fun b => b ≠ equals).tail

/-- The fields of a message. -/
def fields (message : List Byte) : List Field := (message.splitOn soh).dropLast.map field

/-- The number that is written as the value of a field, if it is one. -/
def Field.number? (f : Field) : Option ℕ :=
  if f.value ≠ [] ∧ (f.value.all fun b => IsDigit b) then some (number f.value) else none

/-- Whether a field is written under a tag. -/
def Field.Writes (tag : ℤ) (f : Field) : Prop := (number f.tag : ℤ) = tag

/-- Whether a field writes a tag can be decided. -/
instance (tag : ℤ) : DecidablePred (Field.Writes tag) := fun _ => by
  unfold Field.Writes
  infer_instance

/-- The first field of a message that is written under a tag. -/
def written (tag : ℤ) (message : List Byte) : Option Field :=
  (fields message).find? fun f => f.Writes tag

/-- Whether the parser takes a field for one of a tag: the scanner casts the number to `int`. -/
def Field.Tagged (tag : ℤ) (f : Field) : Prop := toInt (number f.tag) = tag

/-- Whether a field has a tag for the scanner can be decided. -/
instance (tag : ℤ) : DecidablePred (Field.Tagged tag) := fun _ => by
  unfold Field.Tagged
  infer_instance

/-- The first field of a message that the parser takes for one of a tag. -/
def found (tag : ℤ) (message : List Byte) : Option Field :=
  (fields message).find? fun f => f.Tagged tag

/-- The field that the parser finds is the one that is written, where no tag is one only by the
cast. -/
theorem found_eq_written {tag : ℤ} {message : List Byte} (htag : FitsInt tag)
    (hplain : ∀ f ∈ fields message, f.Tagged tag → f.Writes tag) :
    found tag message = written tag message := by
  refine List.find?_congr fun f hf => decide_eq_decide.mpr ⟨hplain f hf, fun hwrites => ?_⟩
  unfold Field.Writes at hwrites
  rw [Field.Tagged, hwrites, toInt_eq_iff.mpr htag]

/-! ## Windows -/

/-- The bytes in `[start, stop)`. -/
def window (buf : List Byte) (start stop : ℕ) : List Byte := (buf.drop start).take (stop - start)

section Window

variable {buf xs rest : List Byte} {start stop : ℕ}

/-- A window has as many bytes as it is long. -/
theorem length_window (start : ℕ) (h : stop ≤ buf.length) :
    (window buf start stop).length = stop - start := by
  rw [window, List.length_take, List.length_drop]
  omega

/-- The rest of a window. -/
theorem window_advance (h : window buf start stop = xs ++ rest) :
    window buf (start + xs.length) stop = rest := by
  -- Dropping from the window is starting it later.
  have hdrop := congrArg (List.drop xs.length) h
  rw [List.drop_left, window, List.drop_take, List.drop_drop] at hdrop
  rw [window, ← hdrop]
  congr 1
  omega

/-- The rest of a window after a byte that ends something. -/
theorem window_after {b : Byte} (h : window buf start stop = xs ++ b :: rest) :
    window buf (start + xs.length + 1) stop = rest := by
  have hxs : window buf start stop = (xs ++ [b]) ++ rest := by rw [h, List.append_assoc]; rfl
  have hadvance := window_advance hxs
  rw [List.length_append, ← Nat.add_assoc] at hadvance
  exact hadvance

/-- The start of a window. -/
theorem window_left (hstop : stop ≤ buf.length) (h : window buf start stop = xs ++ rest) :
    window buf start (start + xs.length) = xs := by
  have htake := congrArg (List.take xs.length) h
  have hlength := congrArg List.length h
  rw [length_window _ hstop, List.length_append] at hlength
  rw [List.take_left, window, List.take_take, min_eq_left (by omega)] at htake
  rw [window, Nat.add_sub_cancel_left, htake]

/-- A window that is not empty starts with a byte that `load` reads. -/
theorem window_succ {n : ℕ} (h : start + (n + 1) ≤ buf.length) :
    ∃ b, load buf start = .ok b ∧
      window buf start (start + (n + 1)) = b :: window buf (start + 1) (start + 1 + n) := by
  have hlt : start < buf.length := by omega
  refine ⟨buf[start], ?_, ?_⟩
  · rw [load, List.getElem?_eq_getElem hlt]
  · rw [window, window, List.drop_eq_getElem_cons hlt, Nat.add_sub_cancel_left,
      Nat.add_sub_cancel_left, List.take_succ_cons]

/-- Two windows, the second where the first ends. -/
theorem window_append {i : ℕ} (hstart : start ≤ i) (hstop : i ≤ stop) :
    window buf start i ++ window buf i stop = window buf start stop := by
  have hwidth : stop - start = (i - start) + (stop - i) := by omega
  have hdrop : start + (i - start) = i := by omega
  rw [window, window, window, hwidth, List.take_add, List.drop_drop, hdrop]

/-- A window around a byte of it. -/
theorem window_around {i : ℕ} (hstart : start ≤ i) (hlt : i < stop) (hstop : stop ≤ buf.length) :
    ∃ b, load buf i = .ok b ∧ window buf start stop =
      window buf start i ++ b :: window buf (i + 1) stop := by
  obtain ⟨b, hload, hwindow⟩ := @window_succ buf i (stop - (i + 1)) (by omega)
  have hend : i + (stop - (i + 1) + 1) = stop := by omega
  have hend' : i + 1 + (stop - (i + 1)) = stop := by omega
  rw [hend, hend'] at hwindow
  exact ⟨b, hload, by rw [← window_append hstart hlt.le, hwindow]⟩

/-- A window of a window. -/
theorem window_window {i j : ℕ} (h : start + j ≤ stop) :
    window (window buf start stop) i j = window buf (start + i) (start + j) := by
  have hmin : min (j - i) (stop - start - i) = j - i := by omega
  rw [window, window, window, List.drop_take, List.take_take, List.drop_drop, hmin,
    Nat.add_sub_add_left]

/-- A window that ends where it starts is empty. -/
theorem window_self (buf : List Byte) (start : ℕ) : window buf start start = [] := by
  rw [window, Nat.sub_self, List.take_zero]

end Window

/-! ## Numbers -/

/-- Further digits make no number smaller. -/
theorem le_numberFrom (val : ℕ) (digits : List Byte) : val ≤ numberFrom val digits := by
  induction digits generalizing val with
  | nil => exact Nat.le_refl val
  | cons b digits ih =>
    have hstep := ih (val * 10 + (b.toInt - 48).toNat)
    rw [numberFrom, List.foldl_cons]
    rw [numberFrom] at hstep
    omega

/-- A last digit counts once, and each digit before it ten times what it did. -/
theorem number_append_one (digits : List Byte) (b : Byte) :
    number (digits ++ [b]) = number digits * 10 + (b.toInt - 48).toNat := by
  rw [number, numberFrom, List.foldl_append]
  rfl

/-- The guard of the loop lets through exactly the digits with which the number is a `long`, and up
to there nothing wraps. -/
theorem parseLongBody_eq (val : ℕ) (b : Byte) : parseLongBody val b =
    if IsDigit b ∧ ((val * 10 + (b.toInt - 48).toNat : ℕ) : ℤ) ≤ longMax then
      some ((val * 10 + (b.toInt - 48).toNat : ℕ) : ℤ) else none := by
  unfold parseLongBody
  by_cases hdigit : IsDigit b
  · have hdigit' := hdigit
    obtain ⟨hlow, hhigh⟩ := hdigit'
    have hcast : ((val * 10 + (b.toInt - 48).toNat : ℕ) : ℤ) = (val : ℤ) * 10 + (b.toInt - 48) := by
      omega
    have hroom : toLong (longMax - (b.toInt - 48)) = longMax - (b.toInt - 48) :=
      toLong_of_le (by unfold longMax; omega) (by omega)
    have hquot : (longMax - (b.toInt - 48)).tdiv 10 = (longMax - (b.toInt - 48)) / 10 :=
      Int.tdiv_eq_ediv_of_nonneg (by unfold longMax; omega)
    rw [if_neg (by omega), hroom, hquot]
    by_cases hfits : ((val * 10 + (b.toInt - 48).toNat : ℕ) : ℤ) ≤ longMax
    · have hten : toLong ((val : ℤ) * 10) = (val : ℤ) * 10 := toLong_of_le (by omega) (by omega)
      have hnext : toLong ((val : ℤ) * 10 + (b.toInt - 48)) = (val : ℤ) * 10 + (b.toInt - 48) :=
        toLong_of_le (by omega) (by omega)
      rw [if_neg (by omega), if_pos ⟨hdigit, hfits⟩, hten, hnext, hcast]
    · rw [if_pos (by omega), if_neg fun hand => hfits hand.2]
  · have hno : b.toInt - 48 < 0 ∨ b.toInt - 48 > 9 := by
      unfold IsDigit at hdigit
      omega
    rw [if_pos hno, if_neg fun hand => hdigit hand.1]

/-- The loop of `parseLong` on the bytes that it has yet to read. -/
theorem parseLongFrom_eq {buf : List Byte} {n i val : ℕ} (hbuf : i + n ≤ buf.length)
    (hval : (val : ℤ) ≤ longMax) :
    parseLongFrom buf n i val = .ok
      (if ((window buf i (i + n)).all fun b => IsDigit b) ∧
          (numberFrom val (window buf i (i + n)) : ℤ) ≤ longMax then
        numberFrom val (window buf i (i + n)) else -1) := by
  induction n generalizing i val with
  | zero =>
    rw [Nat.add_zero, window_self, if_pos ⟨rfl, hval⟩]
    rfl
  | succ n ih =>
    obtain ⟨b, hload, hwindow⟩ := window_succ hbuf
    rw [hwindow, parseLongFrom, hload, ok_bind, parseLongBody_eq]
    -- By induction on the bytes left: a digit goes on with the larger number, anything else ends
    -- it.
    by_cases hnext : IsDigit b ∧ ((val * 10 + (b.toInt - 48).toNat : ℕ) : ℤ) ≤ longMax
    · rw [if_pos hnext]
      refine (ih (by omega) hnext.2).trans
        (congrArg Except.ok (if_congr (and_congr_left fun _ => ?_) rfl rfl))
      rw [List.all_cons, decide_eq_true hnext.1, Bool.true_and]
    · rw [if_neg hnext, if_neg]
      · rfl
      rintro ⟨hall, hfits⟩
      refine hnext ⟨of_decide_eq_true (List.all_eq_true.mp hall b List.mem_cons_self), ?_⟩
      -- Were the number out of range by now, more digits would not bring it back.
      have hle := le_numberFrom (val * 10 + (b.toInt - 48).toNat) (window buf (i + 1) (i + 1 + n))
      rw [numberFrom, List.foldl_cons] at hfits
      rw [numberFrom] at hle
      omega

/-- A number is read as it is written. -/
theorem parseLong_eq {buf : List Byte} {start stop : ℕ} (h : stop ≤ buf.length) :
    parseLong buf start stop = .ok (longOf (window buf start stop)) := by
  unfold parseLong longOf
  by_cases hempty : start ≥ stop
  · have hnil : window buf start stop = [] := by
      rw [window, Nat.sub_eq_zero_of_le hempty, List.take_zero]
    rw [if_pos hempty, if_neg fun hand => hand.1 hnil]
  · have hne : window buf start stop ≠ [] := by
      rw [← List.length_pos_iff, length_window _ h]
      omega
    have hlong : ((0 : ℕ) : ℤ) ≤ longMax := by decide
    have hend : start + (stop - start) = stop := by omega
    have hloop := parseLongFrom_eq (hend.le.trans h) hlong
    rw [hend] at hloop
    rw [if_neg hempty]
    refine hloop.trans (congrArg Except.ok (if_congr ?_ rfl rfl))
    rw [and_iff_right hne]
    rfl

/-- The value of some digits, the last of them the one of the units. -/
def value (digits : List Byte) : ℕ :=
  Nat.ofDigits 10 (digits.reverse.map fun b => (b.toInt - 48).toNat)

/-- Digits write their value. -/
theorem number_eq_value (digits : List Byte) : number digits = value digits := by
  induction digits using List.reverseRecOn with
  | nil => rfl
  | append_singleton digits b ih =>
    have hlast : value (digits ++ [b]) = (b.toInt - 48).toNat + 10 * value digits := by
      rw [value, List.reverse_append, List.reverse_singleton, List.singleton_append, List.map_cons,
        Nat.ofDigits_cons]
      rfl
    calc number (digits ++ [b]) = number digits * 10 + (b.toInt - 48).toNat :=
      number_append_one digits b
      _ = (b.toInt - 48).toNat + 10 * value digits := by rw [ih, Nat.mul_comm, Nat.add_comm]
      _ = value (digits ++ [b]) := hlast.symm

/-- A pass of the loop of `parseLong`, from an index and a value to the next. -/
def Passes (buf : List Byte) (stop : ℕ) (x y : ℕ × ℤ) : Prop :=
  x.1 < stop ∧ y.1 = x.1 + 1 ∧ ∃ b, load buf x.1 = .ok b ∧ parseLongBody x.2 b = some y.2

/-- Every index and value that the loop comes to. -/
abbrev ParseRun (buf : List Byte) (stop : ℕ) := Relation.ReflTransGen (Passes buf stop)

/-- What a pass computes of a digit, before it is put in a `long`: the difference and the quotient
in the guard, and behind the guard the product and the sum. -/
def passResults (val digit : ℤ) : List ℤ :=
  [longMax - digit, (longMax - digit).tdiv 10] ++
    if val > (longMax - digit).tdiv 10 then [] else [val * 10, val * 10 + digit]

/-- A pass is one of the loop: what is left to do returns the same. -/
theorem Passes.parseLongFrom_eq {buf : List Byte} {stop : ℕ} {x y : ℕ × ℤ}
    (h : Passes buf stop x y) :
    parseLongFrom buf (stop - y.1) y.1 y.2 = parseLongFrom buf (stop - x.1) x.1 x.2 := by
  obtain ⟨hlt, hnext, b, hload, hbody⟩ := h
  have hleft : stop - x.1 = stop - (x.1 + 1) + 1 := by omega
  rw [hleft, parseLongFrom, hload, ok_bind, hbody, hnext]

/-- A pass goes on with the number that has been read so far, which is a `long`. -/
theorem Passes.number_eq {buf : List Byte} {start stop : ℕ} {x y : ℕ × ℤ}
    (hstop : stop ≤ buf.length) (h : Passes buf stop x y) (hstart : start ≤ x.1)
    (hx : x.2 = number (window buf start x.1)) :
    start ≤ y.1 ∧ y.2 = number (window buf start y.1) := by
  obtain ⟨hlt, hnext, b, hload, hbody⟩ := h
  rw [hx, parseLongBody_eq] at hbody
  split_ifs at hbody with hdigit
  obtain ⟨c, hload', haround⟩ := @window_around buf start (x.1 + 1) x.1 hstart
    (Nat.lt_succ_self _) (by omega)
  obtain rfl : b = c := Except.ok.inj (hload.symm.trans hload')
  rw [window_self] at haround
  have hy := (Option.some.inj hbody).symm
  refine ⟨by omega, ?_⟩
  rw [hy, hnext, haround, number_append_one]

/-- What a pass computes after a `long` is a `long`. -/
theorem passResults_fit {val digit : ℤ} (hval : 0 ≤ val) (hlow : 0 ≤ digit) (hhigh : digit ≤ 9) :
    ∀ x ∈ passResults val digit, -2^63 ≤ x ∧ x ≤ longMax := by
  intro x hx
  have hmax : longMax = 2^63 - 1 := rfl
  rw [passResults, Int.tdiv_eq_ediv_of_nonneg (by omega)] at hx
  rcases List.mem_append.mp hx with hx | hx
  · simp only [List.mem_cons, List.not_mem_nil, or_false] at hx
    rcases hx with rfl | rfl <;> omega
  · split_ifs at hx with hguard
    · exact absurd hx List.not_mem_nil
    · simp only [List.mem_cons, List.not_mem_nil, or_false] at hx
      rcases hx with rfl | rfl <;> omega

/-- Both ways to parse a number give the value of the digits in the window if that is a `long`, and
`-1` for any other window. At each index that the loop comes to, the value is that of the digits
before it, and nothing that is computed there of another digit is out of the range of a `long`. -/
theorem parseLong_exact {buf : List Byte} {start stop : ℕ} (h : stop ≤ buf.length) :
    (∀ parse ∈ [FixParser.parseLong, FixConstants.parseLong], parse buf start stop = .ok
      (if window buf start stop ≠ [] ∧ ((window buf start stop).all fun b => IsDigit b) ∧
          (value (window buf start stop) : ℤ) ≤ longMax then
          value (window buf start stop) else -1)) ∧
    (start < stop → ∀ i val, ParseRun buf stop (start, 0) (i, val) →
      parseLongFrom buf (stop - i) i val = parseLong buf start stop ∧
      val = value (window buf start i) ∧
        ∀ b, load buf i = .ok b → IsDigit b → ∀ x ∈ passResults val (b.toInt - 48),
        -2^63 ≤ x ∧ x ≤ longMax) := by
  refine ⟨?_, ?_⟩
  · have hvalue : parseLong buf start stop = .ok
        (if window buf start stop ≠ [] ∧ ((window buf start stop).all fun b => IsDigit b) ∧
          (value (window buf start stop) : ℤ) ≤ longMax then value (window buf start stop)
          else -1) := by
      rw [parseLong_eq h, longOf, number_eq_value]
    intro parse hparse
    simp only [List.mem_cons, List.not_mem_nil, or_false] at hparse
    rcases hparse with rfl | rfl <;> exact hvalue
  · intro hlt i val hrun
    have hbegin : parseLongFrom buf (stop - start) start 0 = parseLong buf start stop := by
      rw [parseLong, if_neg (Nat.not_le.mpr hlt)]
    -- By induction on the run: each pass leaves the result as it is, and the value that of the
    -- bytes read so far.
    obtain ⟨hleft, -, hval⟩ := steps_inv hrun
      (fun x => parseLongFrom buf (stop - x.1) x.1 x.2 = parseLong buf start stop ∧ start ≤ x.1 ∧
        x.2 = number (window buf start x.1))
      ⟨hbegin, Nat.le_refl start, by rw [window_self]; rfl⟩
      fun x y ⟨hleft, hstart, hx⟩ hpass =>
        ⟨hpass.parseLongFrom_eq.trans hleft, hpass.number_eq h hstart hx⟩
    have hread : val = number (window buf start i) := hval
    refine ⟨hleft, by rw [hread, number_eq_value], ?_⟩
    rintro b - ⟨hlow, hhigh⟩
    exact passResults_fit (hread ▸ Int.natCast_nonneg _) (by omega) (by omega)

/-- The largest `long`, with a zero in front. -/
def longMaxDigits : List Byte :=
  [48, 57, 50, 50, 51, 51, 55, 50, 48, 51, 54, 56, 53, 52, 55, 55, 53, 56, 48, 55]

/-- The greatest `long` is read, with a zero before it. -/
theorem parseLong_exact_longMax : FixParser.parseLong longMaxDigits 0 20 = .ok longMax ∧
    FixConstants.parseLong longMaxDigits 0 20 = .ok longMax := by
  obtain ⟨hparse, -⟩ := parseLong_exact (Nat.le_refl longMaxDigits.length)
  exact ⟨hparse _ (by simp), hparse _ (by simp)⟩

/-- A number that is not the sentinel is that of its digits. -/
theorem longOf_of_nonneg {bytes : List Byte} (h : 0 ≤ longOf bytes) :
    longOf bytes = number bytes ∧ ∀ b ∈ bytes, IsDigit b := by
  unfold longOf at h ⊢
  split_ifs at h ⊢ with hlong
  · exact ⟨rfl, by simpa using hlong.2.1⟩
  · omega

/-- The number of a field that is read as one. -/
theorem Field.number?_of_nonneg {f : Field} (h : 0 ≤ longOf f.value) :
    f.number? = some (number f.value) := by
  refine if_pos ⟨fun hempty => ?_, ?_⟩
  · rw [longOf, if_neg fun hlong => hlong.1 hempty] at h
    omega
  · simpa using (longOf_of_nonneg h).2

/-! ## Fields -/

/-- A tag without an `=` ends at the first one. -/
theorem field_eq {tag : List Byte} (hequals : equals ∉ tag) (value : List Byte) :
    field (tag ++ equals :: value) = ⟨tag, value⟩ := by
  have hall : ∀ b ∈ tag, decide (b ≠ equals) = true := fun b hb =>
    decide_eq_true fun heq => hequals (heq ▸ hb)
  rw [field, List.takeWhile_append_of_pos hall, List.dropWhile_append_of_pos hall,
    List.takeWhile_cons_of_neg (by simp), List.dropWhile_cons_of_neg (by simp), List.append_nil,
    List.tail_cons]

/-- The first field of a message that starts with one. -/
theorem fields_cons {tag value rest : List Byte} (htag : soh ∉ tag) (hequals : equals ∉ tag)
    (hvalue : soh ∉ value) :
    fields (tag ++ equals :: (value ++ soh :: rest)) = ⟨tag, value⟩ :: fields rest := by
  have hsoh : soh ∉ tag ++ equals :: value := by
    simp only [List.mem_append, List.mem_cons, not_or]
    exact ⟨htag, by decide, hvalue⟩
  -- The first field end is the one after the value.
  have hsplit := List.splitOn_append_cons_self_of_not_mem hsoh rest
  rw [List.append_assoc, List.cons_append] at hsplit
  rw [fields, hsplit, List.dropLast_cons_of_ne_nil (List.splitOn_ne_nil soh rest), List.map_cons,
    field_eq hequals]
  rfl

/-- The search for the `=` stops at the first `=` or field end, or where the bytes run out. -/
theorem seekEquals_spec {buf : List Byte} {n i e : ℕ} (hbuf : i + n ≤ buf.length)
    (h : FixParser.seekEquals buf n i = .ok (some e)) :
    ∃ tag rest, window buf i (i + n) = tag ++ rest ∧ e = i + tag.length ∧ soh ∉ tag ∧ equals ∉ tag ∧
      (rest = [] ∨ ∃ rest', rest = equals :: rest') := by
  induction n generalizing i with
  | zero =>
    obtain rfl : i = e := by simpa [FixParser.seekEquals] using h
    exact ⟨[], [], window_self buf i, rfl, by simp, by simp, .inl rfl⟩
  | succ n ih =>
    obtain ⟨b, hload, hwindow⟩ := window_succ hbuf
    rw [FixParser.seekEquals, hload] at h
    simp only [Bind.bind, Except.bind, pure, Except.pure] at h
    split_ifs at h with hequals hsoh
    · obtain rfl : i = e := by simpa using h
      exact ⟨[], _, hwindow, rfl, by simp, by simp, .inr ⟨_, by rw [hequals]⟩⟩
    · -- A field end before the `=` makes the source give up.
      simp at h
    · obtain ⟨tag, rest, hrest, rfl, hsohTag, hequalsTag, hend⟩ := ih (by omega) h
      refine ⟨b :: tag, rest, by rw [hwindow, hrest]; rfl, ?_, ?_, ?_, hend⟩
      · rw [List.length_cons]
        omega
      · rw [List.mem_cons, not_or]
        exact ⟨fun heq => hsoh heq.symm, hsohTag⟩
      · rw [List.mem_cons, not_or]
        exact ⟨fun heq => hequals heq.symm, hequalsTag⟩

/-- The search for the end of a value stops at the first field end, or where the bytes run out. -/
theorem seekSoh_spec {buf : List Byte} {n i e : ℕ} (hbuf : i + n ≤ buf.length)
    (h : FixParser.seekSoh buf n i = .ok e) :
    ∃ value rest, window buf i (i + n) = value ++ rest ∧ e = i + value.length ∧ soh ∉ value ∧
      (rest = [] ∨ ∃ rest', rest = soh :: rest') := by
  induction n generalizing i with
  | zero =>
    obtain rfl : i = e := by simpa [FixParser.seekSoh] using h
    exact ⟨[], [], window_self buf i, rfl, by simp, .inl rfl⟩
  | succ n ih =>
    obtain ⟨b, hload, hwindow⟩ := window_succ hbuf
    rw [FixParser.seekSoh, hload] at h
    simp only [Bind.bind, Except.bind, pure, Except.pure] at h
    split_ifs at h with hsoh
    · obtain rfl : i = e := by simpa using h
      exact ⟨[], _, hwindow, rfl, by simp, .inr ⟨_, by rw [hsoh]⟩⟩
    · obtain ⟨value, rest, hrest, rfl, hsohValue, hend⟩ := ih (by omega) h
      refine ⟨b :: value, rest, by rw [hwindow, hrest]; rfl, ?_, ?_, hend⟩
      · rw [List.length_cons]
        omega
      · rw [List.mem_cons, not_or]
        exact ⟨fun heq => hsoh heq.symm, hsohValue⟩

/-! ## What the scanner records -/

/-- The parser has a field of a buffer at an index of its arrays. -/
def Holds (p : FixParser) (buf : List Byte) (i : ℕ) (f : Field) : Prop :=
  load p.tags i = .ok (toInt (number f.tag)) ∧ ∃ valStart valEnd,
    load p.valStarts i = .ok valStart ∧ load p.valEnds i = .ok valEnd ∧ valEnd ≤ buf.length ∧
      window buf valStart valEnd = f.value

/-- The parser has the fields of a list from an index on. -/
def HoldsFrom (p : FixParser) (buf : List Byte) (i : ℕ) : List Field → Prop
  | [] => True
  | f :: fs => Holds p buf i f ∧ HoldsFrom p buf (i + 1) fs

/-- Whatever two parsers have below an index they have in common. -/
def AgreeBelow (count : ℕ) (p p' : FixParser) : Prop :=
  ∀ i < count, load p'.tags i = load p.tags i ∧ load p'.valStarts i = load p.valStarts i ∧
    load p'.valEnds i = load p.valEnds i

/-- Scanners that agree with one below a count agree with each other there. -/
theorem AgreeBelow.trans {count : ℕ} {p p' q : FixParser} (h : AgreeBelow count p p')
    (h' : AgreeBelow count p' q) :
    AgreeBelow count p q := by
  intro i hi
  obtain ⟨htags, hstarts, hends⟩ := h i hi
  obtain ⟨htags', hstarts', hends'⟩ := h' i hi
  exact ⟨htags'.trans htags, hstarts'.trans hstarts, hends'.trans hends⟩

/-- What was set at an index is there. -/
theorem load_set_self {α : Type} {n : ℕ} (xs : Vector α n) {i : ℕ} (h : i < n) (x : α) :
    load (xs.set i x) i = .ok x := by
  rw [load, Vector.getElem?_set_self]

/-- What was set at an index changes no other. -/
theorem load_set_ne {α : Type} {n : ℕ} (xs : Vector α n) {i j : ℕ} (h : i < n)
    (hne : i ≠ j) (x : α) :
    load (xs.set i x) j = load xs j := by
  rw [load, load, Vector.getElem?_set_ne h hne]

/-- Recording a field writes it at the index, and leaves the others. -/
theorem record_spec {p p' : FixParser} {count valStart valEnd : ℕ} {tag : ℤ}
    (h : p.record count tag valStart valEnd = .ok p') :
    load p'.tags count = .ok tag ∧ load p'.valStarts count = .ok valStart ∧
      load p'.valEnds count = .ok valEnd ∧ AgreeBelow count p p' := by
  unfold FixParser.record at h
  split_ifs at h with hcount
  obtain rfl := Except.ok.inj h
  refine ⟨load_set_self _ hcount _, load_set_self _ hcount _, load_set_self _ hcount _, ?_⟩
  intro i hi
  exact ⟨load_set_ne _ hcount hi.ne' _, load_set_ne _ hcount hi.ne' _,
    load_set_ne _ hcount hi.ne' _⟩

/-- One turn of the loop of the scanner that goes on. -/
theorem scanFrom_succ {buf : List Byte} {stop fuel pos count : ℕ} {p p' : FixParser} {n : ℕ}
    (hstop : stop ≤ buf.length) (hpos : pos < stop)
    (h : FixParser.scanFrom buf stop (fuel + 1) pos p count = .ok (p', some n)) :
    ∃ f rest next p₁, fields (window buf pos stop) = f :: fields rest ∧
      window buf next stop = rest ∧ next ≤ stop ∧ Holds p₁ buf count f ∧ AgreeBelow count p p₁ ∧
      FixParser.scanFrom buf stop fuel next p₁ (count + 1) = .ok (p', some n) := by
  rw [FixParser.scanFrom, if_pos hpos] at h
  -- What the loop returns where it gives up.
  have hnone : (pure (p, none) : Except Exn (FixParser × Option ℕ)) ≠ .ok (p', some n) := by
    simp [pure, Except.pure]
  obtain ⟨found, hfound, h⟩ := bind_eq_ok.mp h
  cases found with
  | none => exact absurd h hnone
  | some eq =>
  obtain ⟨tag, rest₁, htag, rfl, hsohTag, hequals, hend₁⟩ := seekEquals_spec (by omega) hfound
  rw [Nat.add_sub_cancel' hpos.le] at htag
  obtain ⟨heq, h⟩ := (ite_eq_ok_of_ne hnone).mp h
  have hlength := congrArg List.length htag
  rw [length_window _ hstop, List.length_append] at hlength
  -- The search stopped before the end, so it stopped at an `=`.
  obtain ⟨rest₁, rfl⟩ := hend₁.resolve_left fun hnil => by
    rw [hnil, List.length_nil] at hlength
    omega
  -- The value starts after it, and ends at the next field end.
  have hvalueStart : window buf (pos + tag.length + 1) stop = rest₁ := by
    exact window_after htag
  obtain ⟨e, hseek, h⟩ := bind_eq_ok.mp h
  rw [List.length_cons] at hlength
  obtain ⟨value, rest₂, hvalue, rfl, hsohValue, hend₂⟩ := seekSoh_spec (by omega) hseek
  rw [Nat.add_sub_cancel' (by omega), hvalueStart] at hvalue
  subst hvalue
  obtain ⟨hsoh, h⟩ := (ite_eq_ok_of_ne hnone).mp h
  rw [List.length_append] at hlength
  obtain ⟨rest₂, rfl⟩ := hend₂.resolve_left fun hnil => by
    rw [hnil, List.length_nil] at hlength
    omega
  -- The tag is a number, and there is room for the field.
  obtain ⟨tagNumber, hnumber, h⟩ := bind_eq_ok.mp h
  obtain ⟨hneg, h⟩ := (ite_eq_ok_of_ne hnone).mp h
  obtain ⟨-, h⟩ := (ite_eq_ok_of_ne hnone).mp h
  obtain ⟨p₁, hrecord, h⟩ := bind_eq_ok.mp h
  obtain ⟨htags, hstarts, hends, hagree⟩ := record_spec hrecord
  have hwritten : tagNumber = number tag := by
    rw [FixParser.parseLong, parseLong_eq (by omega), window_left hstop htag] at hnumber
    obtain rfl := Except.ok.inj hnumber
    exact (longOf_of_nonneg (by omega)).1
  rw [hwritten] at htags
  have hrest : window buf (pos + tag.length + 1 + value.length + 1) stop = rest₂ := by
    exact window_after hvalueStart
  rw [htag, fields_cons hsohTag hequals hsohValue]
  rw [List.length_cons] at hlength
  exact ⟨_, rest₂, _, p₁, rfl, hrest, by omega,
    ⟨htags, _, _, hstarts, hends, by omega, window_left hstop hvalueStart⟩, hagree, h⟩

/-- The parser has the fields of a list as long as it agrees with one that has them. -/
theorem HoldsFrom.agree {p p' : FixParser} {buf : List Byte} {i count : ℕ} {fs : List Field}
    (h : HoldsFrom p buf i fs) (hagree : AgreeBelow count p p') (hcount : i + fs.length ≤ count) :
    HoldsFrom p' buf i fs := by
  induction fs generalizing i with
  | nil => trivial
  | cons f fs ih =>
    obtain ⟨⟨htag, valStart, valEnd, hstart, hend, hvalue⟩, hfs⟩ := h
    rw [List.length_cons] at hcount
    obtain ⟨htags, hstarts, hends⟩ := hagree i (by omega)
    refine ⟨⟨htags.trans htag, valStart, valEnd, hstarts.trans hstart, hends.trans hend, hvalue⟩,
      ?_⟩
    exact ih hfs (by omega)

/-- The scanner records the fields of what it reads, after those that it had. -/
theorem scanFrom_fields {buf : List Byte} {stop fuel pos count : ℕ} {p p' : FixParser} {n : ℕ}
    (hstop : stop ≤ buf.length) (hpos : pos ≤ stop)
    (h : FixParser.scanFrom buf stop fuel pos p count = .ok (p', some n)) :
    n = count + (fields (window buf pos stop)).length ∧ AgreeBelow count p p' ∧
      HoldsFrom p' buf count (fields (window buf pos stop)) := by
  induction fuel generalizing pos p count with
  | zero => simp [FixParser.scanFrom] at h
  | succ fuel ih =>
    by_cases hlt : pos < stop
    · obtain ⟨f, rest, next, p₁, hfields, rfl, hnext, hholds, hagree, hrest⟩ :=
        scanFrom_succ hstop hlt h
      obtain ⟨rfl, hagree', hholds'⟩ := ih hnext hrest
      rw [hfields, List.length_cons]
      have hbelow : AgreeBelow count p₁ p' := fun i hi => hagree' i (Nat.lt_succ_of_lt hi)
      refine ⟨by omega, hagree.trans hbelow, ?_, hholds'⟩
      -- The fields behind do not overwrite this one.
      have hone : HoldsFrom p₁ buf count [f] := ⟨hholds, trivial⟩
      exact (hone.agree hagree' (Nat.le_refl _)).1
    · obtain rfl : pos = stop := by omega
      rw [FixParser.scanFrom, if_neg hlt] at h
      obtain ⟨rfl, hn⟩ := Prod.mk.inj (Except.ok.inj h)
      obtain rfl := Option.some.inj hn
      rw [window_self]
      exact ⟨rfl, fun i _ => ⟨rfl, rfl, rfl⟩, trivial⟩

/-- The search for a tag finds the first field of that tag. -/
theorem findTagFrom_spec {p : FixParser} {buf : List Byte} {fs : List Field} {i : ℕ}
    (hholds : HoldsFrom p buf i fs) (tag : ℤ) :
    (p.findTagFrom tag fs.length i = .ok none ∧ (fs.find? fun f => f.Tagged tag) = none) ∨
      ∃ j f, p.findTagFrom tag fs.length i = .ok (some j) ∧
      (fs.find? fun f => f.Tagged tag) = some f ∧
        Holds p buf j f := by
  induction fs generalizing i with
  | nil => exact .inl ⟨rfl, rfl⟩
  | cons f fs ih =>
    obtain ⟨hf, hfs⟩ := hholds
    rw [List.length_cons, FixParser.findTagFrom, hf.1]
    -- The scan order is the order of the message, so the first hit is its first field of the tag.
    by_cases htag : f.Tagged tag
    · have htag' : toInt (number f.tag) = tag := htag
      refine .inr ⟨i, f, ?_, List.find?_cons_of_pos (decide_eq_true htag), hf⟩
      rw [ok_bind, if_pos htag']
      rfl
    · have htag' : ¬ toInt (number f.tag) = tag := htag
      have hfind : ((f :: fs).find? fun f => f.Tagged tag) = fs.find? fun f => f.Tagged tag :=
        List.find?_cons_of_neg fun heq => htag (of_decide_eq_true heq)
      rw [hfind, ok_bind, if_neg htag']
      exact ih hfs

/-- The value of a recorded field that is read as a number. -/
theorem Holds.parseLong {p : FixParser} {buf : List Byte} {i : ℕ} {f : Field}
    (h : Holds p buf i f) :
    p.value (FixConstants.parseLong buf) i = .ok (longOf f.value) := by
  obtain ⟨-, valStart, valEnd, hstart, hend, hle, hvalue⟩ := h
  rw [FixParser.value, hstart, hend]
  simp only [Bind.bind, Except.bind]
  rw [parseLong_eq hle, hvalue]

end Wire

end MatchingVenue
