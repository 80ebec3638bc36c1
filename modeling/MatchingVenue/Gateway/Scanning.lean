import MatchingVenue.Gateway.Decoding
import MatchingVenue.Net.Text
import Mathlib.Data.List.TakeWhile

/-!
# Taking a message apart

A message that can be taken apart is some fields joined together (`scannable_iff`), and the scanner
records where they stand (`scanFrom_records`). A tag is recorded as an `int`, though it is read as a
`long`. So `tokenises_iff`: what is recorded are the fields that are written unless one of their
tags is no `int`.
-/

namespace MatchingVenue

open FixConstants Text

namespace Wire

/-! ## Fields joined together -/

/-- A field as it is to be written: its tag is a number that is a `long`, and no field end is in its
value. -/
structure Field.Proper (f : Field) : Prop where
  tag_ne : f.tag ≠ []
  tag_digits : ∀ b ∈ f.tag, IsDigit b
  tag_le : (number f.tag : ℤ) ≤ longMax
  value : soh ∉ f.value

/-- A field in bytes, with its field end. -/
def Field.bytes (f : Field) : List Byte := f.tag ++ equals :: (f.value ++ [soh])

/-- Some fields in bytes. -/
def joined (fs : List Field) : List Byte := fs.flatMap Field.bytes

/-- Joined fields begin with the bytes of the first. -/
theorem joined_cons (f : Field) (fs : List Field) :
    joined (f :: fs) = f.tag ++ equals :: (f.value ++ soh :: joined fs) := by
  simp [joined, Field.bytes]

/-- Some bytes are fields joined together, for which there is room. -/
structure Joins (room : ℕ) (fs : List Field) (bytes : List Byte) : Prop where
  /-- Each field has digits for its tag, and no field end in its value. -/
  proper : ∀ f ∈ fs, f.Proper
  /-- There is room for the fields. -/
  fits : fs.length ≤ room
  /-- The bytes are the fields, one after the other. -/
  bytes_eq : joined fs = bytes

section Joined

variable {f : Field} {fs : List Field} {room : ℕ} {bytes : List Byte}

/-- The tag of a proper field has no field end in it. -/
theorem Field.Proper.soh_notMem (h : f.Proper) : soh ∉ f.tag := fun hmem =>
  absurd (h.tag_digits _ hmem) (by decide)

/-- The tag of a proper field has no `=` in it. -/
theorem Field.Proper.equals_notMem (h : f.Proper) : equals ∉ f.tag := fun hmem =>
  absurd (h.tag_digits _ hmem) (by decide)

/-- The tag of a proper field is read as its number. -/
theorem Field.Proper.longOf_tag (h : f.Proper) : longOf f.tag = number f.tag :=
  if_pos ⟨h.tag_ne, List.all_eq_true.mpr fun b hb => decide_eq_true (h.tag_digits b hb), h.tag_le⟩

/-- A field whose tag reads as a number is proper. -/
theorem Field.proper_of_longOf (htag : 0 ≤ longOf f.tag) (hvalue : soh ∉ f.value) : f.Proper := by
  unfold longOf at htag
  split_ifs at htag with hlong
  · obtain ⟨hne, hall, hle⟩ := hlong
    exact ⟨hne, fun b hb => of_decide_eq_true (List.all_eq_true.mp hall b hb), hle, hvalue⟩
  · omega

/-- Proper fields that are joined are found again. -/
theorem fields_joined (h : ∀ f ∈ fs, f.Proper) : fields (joined fs) = fs := by
  induction fs with
  | nil => rfl
  | cons f fs ih =>
    have hf := h f List.mem_cons_self
    rw [joined_cons, fields_cons hf.soh_notMem hf.equals_notMem hf.value,
      ih fun g hg => h g (List.mem_cons_of_mem _ hg)]

/-- The fields that are joined together are those of the bytes. -/
theorem Joins.fields_eq (h : Joins room fs bytes) : fields bytes = fs := by
  rw [← h.bytes_eq, fields_joined h.proper]

/-- Fields that are joined with room for them are scanned. -/
theorem Joins.scannable (h : Joins room fs bytes) : Scannable room bytes := by
  obtain ⟨hproper, hfits, rfl⟩ := h
  induction fs generalizing room with
  | nil => exact scannable_nil
  | cons f fs ih =>
    have hf := hproper f List.mem_cons_self
    have hsegment : soh ∉ f.tag ++ equals :: f.value := by
      simp only [List.mem_append, List.mem_cons, not_or]
      exact ⟨hf.soh_notMem, by decide, hf.value⟩
    have hnumbered : Numbered (f.tag ++ equals :: f.value) := by
      rw [Numbered, field_eq hf.equals_notMem, hf.longOf_tag]
      exact ⟨by simp, Int.natCast_nonneg _⟩
    have hcons : joined (f :: fs) = (f.tag ++ equals :: f.value) ++ soh :: joined fs := by
      rw [joined_cons, List.append_assoc]
      rfl
    rw [List.length_cons] at hfits
    rw [hcons, scannable_cons hsegment]
    exact ⟨hnumbered, by omega, ih (fun g hg => hproper g (List.mem_cons_of_mem _ hg)) (by omega)⟩

/-- What can be taken apart is the fields of it joined together. -/
theorem Scannable.joins (h : Scannable room bytes) : Joins room (fields bytes) bytes := by
  -- By induction on the number of bytes, one field at a time.
  induction hn : bytes.length using Nat.strong_induction_on generalizing room bytes with
  | _ n ih =>
    by_cases hsoh : soh ∈ bytes
    swap
    · have hnil : bytes = [] := by
        by_contra hne
        exact not_scannable hne hsoh h
      subst hnil
      exact ⟨by simp [fields], Nat.zero_le _, rfl⟩
    obtain ⟨segment, rest, rfl, hsegment⟩ := List.eq_append_cons_of_mem hsoh
    obtain ⟨⟨hequals, hnumber⟩, hroom, hrest⟩ := (scannable_cons hsegment).mp h
    obtain ⟨tag, value, rfl, htag⟩ := List.eq_append_cons_of_mem hequals
    rw [field_eq htag] at hnumber
    simp only [List.mem_append, List.mem_cons, not_or] at hsegment
    obtain ⟨hsohTag, -, hsohValue⟩ := hsegment
    have hlength : rest.length < n := by
      rw [← hn, List.length_append, List.length_cons]
      omega
    obtain ⟨hproper, hfits, hbytes⟩ := ih rest.length hlength hrest rfl
    have hfields : fields ((tag ++ equals :: value) ++ soh :: rest) =
        ⟨tag, value⟩ :: fields rest := by
      rw [List.append_assoc, List.cons_append, fields_cons hsohTag htag hsohValue]
    rw [hfields]
    refine ⟨List.forall_mem_cons.mpr ⟨Field.proper_of_longOf hnumber hsohValue, hproper⟩, ?_, ?_⟩
    · rw [List.length_cons]
      omega
    · rw [joined_cons, hbytes, List.append_assoc]
      rfl

/-- The scanner takes bytes apart that are fields joined together. -/
theorem scannable_iff : Scannable room bytes ↔ ∃ fs, Joins room fs bytes :=
  ⟨fun h => ⟨_, h.joins⟩, fun ⟨_, h⟩ => h.scannable⟩

end Joined

/-! ## What is recorded -/

/-- The triples of some fields that stand at a position: the tag, and where the value starts and
ends. -/
def located : (pos : ℕ) → List Field → List (ℤ × ℕ × ℕ)
  | _, [] => []
  | pos, f :: fs =>
    (number f.tag, pos + f.tag.length + 1, pos + f.tag.length + 1 + f.value.length) ::
      located (pos + f.bytes.length) fs

/-- The parser has some triples in its arrays, from an index on. -/
def Records (p : FixParser) : (i : ℕ) → List (ℤ × ℕ × ℕ) → Prop
  | _, [] => True
  | i, (tag, valStart, valEnd) :: triples =>
    (load p.tags i = .ok tag ∧ load p.valStarts i = .ok valStart ∧ load p.valEnds i = .ok valEnd) ∧
      Records p (i + 1) triples

/-- A triple with its tag cast to `int`. -/
def narrowed (triple : ℤ × ℕ × ℕ) : ℤ × ℕ × ℕ := (toInt triple.1, triple.2)

section Records

variable {buf : List Byte} {fs : List Field} {p p' : FixParser}

/-- The scanner records where fields stand that are joined together, after those that it had. -/
theorem scanFrom_records {stop fuel pos count : ℕ} (p : FixParser) (hstop : stop ≤ buf.length)
    (hpos : pos ≤ stop) (hfuel : stop - pos < fuel)
    (hjoins : Joins (maxFields - count) fs (window buf pos stop)) :
    ∃ p', FixParser.scanFrom buf stop fuel pos p count = .ok (p', some (count + fs.length)) ∧
      AgreeBelow count p p' ∧ Records p' count ((located pos fs).map narrowed) := by
  induction fuel generalizing pos p count fs with
  | zero => omega
  | succ fuel ih =>
    obtain ⟨hproper, hfits, hbytes⟩ := hjoins
    cases fs with
    | nil =>
      have hlength := length_window pos hstop
      rw [← hbytes] at hlength
      have hend : ¬ pos < stop := by
        have hnil : (joined []).length = 0 := rfl
        omega
      rw [FixParser.scanFrom, if_neg hend]
      exact ⟨p, rfl, fun i _ => ⟨rfl, rfl, rfl⟩, trivial⟩
    | cons f fs =>
      have hf := hproper f List.mem_cons_self
      rw [List.length_cons] at hfits
      rw [joined_cons] at hbytes
      obtain ⟨hrest, hnext, hturn⟩ := @scanFrom_field buf f.tag f.value (joined fs) stop fuel pos
        count p hstop hpos
        hf.equals_notMem hf.soh_notMem hf.value hbytes.symm
      have hgoes : ¬ (longOf f.tag < 0 ∨ count = maxFields) := by
        rw [hf.longOf_tag]
        omega
      obtain ⟨p₁, hrecord⟩ := @record_ok p count (by omega) (toInt (longOf f.tag))
        (pos + f.tag.length + 1)
        (pos + f.tag.length + 1 + f.value.length)
      obtain ⟨htags, hstarts, hends, hagree⟩ := record_spec hrecord
      rw [hturn, if_neg hgoes, hrecord, ok_bind]
      -- The rest of the fields goes behind this one, and leaves it as it is.
      have hjoins : Joins (maxFields - (count + 1)) fs
          (window buf (pos + f.tag.length + 1 + f.value.length + 1) stop) :=
        ⟨fun g hg => hproper g (List.mem_cons_of_mem _ hg), by omega, hrest.symm⟩
      obtain ⟨p', hrun, hagree', hrecords⟩ := ih p₁ hnext (by omega) hjoins
      obtain ⟨htags', hstarts', hends'⟩ := hagree' count (Nat.lt_succ_self count)
      have hbelow : AgreeBelow count p₁ p' := fun i hi => hagree' i (Nat.lt_succ_of_lt hi)
      have hsize : pos + f.bytes.length = pos + f.tag.length + 1 + f.value.length + 1 := by
        simp only [Field.bytes, List.length_append, List.length_cons, List.length_nil]
        omega
      refine ⟨p', ?_, hagree.trans hbelow, ?_, ?_⟩
      · rw [hrun, List.length_cons]
        refine congrArg (fun n => Except.ok (p', some n)) ?_
        omega
      · rw [hf.longOf_tag] at htags
        exact ⟨htags'.trans htags, hstarts'.trans hstarts, hends'.trans hends⟩
      · rw [← hsize] at hrecords
        exact hrecords

/-- Triples that are recorded are those that were to be. -/
theorem Records.eq {i : ℕ} {triples more : List (ℤ × ℕ × ℕ)} (h : Records p i triples)
    (h' : Records p i more) (hlength : triples.length = more.length) : triples = more := by
  induction triples generalizing i more with
  | nil => exact (List.eq_nil_of_length_eq_zero hlength.symm).symm
  | cons triple triples ih =>
    cases more with
    | nil => simp at hlength
    | cons triple' more =>
      obtain ⟨⟨htag, hstart, hend⟩, htail⟩ := h
      obtain ⟨⟨htag', hstart', hend'⟩, htail'⟩ := h'
      rw [htag] at htag'
      rw [hstart] at hstart'
      rw [hend] at hend'
      rw [ih htail htail' (Nat.succ.inj hlength)]
      exact congrArg (· :: more) (Prod.ext (Except.ok.inj htag')
        (Prod.ext (Except.ok.inj hstart') (Except.ok.inj hend')))

/-- The tag that is recorded at an index. -/
theorem Records.tag_at {i j : ℕ} {triples : List (ℤ × ℕ × ℕ)} (h : Records p i triples)
    (hj : j < triples.length) :
    ∃ triple, triples[j]? = some triple ∧ load p.tags (i + j) = .ok triple.1 := by
  induction triples generalizing i j with
  | nil => simp at hj
  | cons triple triples ih =>
    obtain ⟨⟨htag, -, -⟩, htail⟩ := h
    cases j with
    | zero => exact ⟨triple, rfl, htag⟩
    | succ j =>
      obtain ⟨found, hfound, htag⟩ := ih htail (Nat.lt_of_succ_lt_succ hj)
      have hindex : i + (j + 1) = i + 1 + j := by omega
      rw [hindex]
      exact ⟨found, hfound, htag⟩

end Records

/-- A tag that is found is at the index where it is found. -/
theorem load_of_findTagFrom {p : FixParser} {tag : ℤ} {n i j : ℕ}
    (h : p.findTagFrom tag n i = .ok (some j)) :
    i ≤ j ∧ j < i + n ∧ load p.tags j = .ok tag := by
  induction n generalizing i with
  | zero => simp [FixParser.findTagFrom] at h
  | succ n ih =>
    rw [FixParser.findTagFrom] at h
    obtain ⟨found, hload, h⟩ := bind_eq_ok.mp h
    split_ifs at h with htag
    · obtain rfl : i = j := Option.some.inj (Except.ok.inj h)
      exact ⟨Nat.le_refl i, by omega, hload.trans (congrArg Except.ok htag)⟩
    · obtain ⟨hle, hlt, hload⟩ := ih h
      exact ⟨by omega, by omega, hload⟩

/-! ## What is read -/

/-- Two buffers have the same bytes in `[start, stop)`. -/
def SameIn (start stop : ℕ) (buf buf' : List Byte) : Prop :=
  ∀ i, start ≤ i → i < stop → buf'[i]? = buf[i]?

section SameIn

variable {buf buf' : List Byte} {start stop : ℕ}

/-- Buffers that are the same in a window have the same byte at an index of it. -/
theorem SameIn.load (h : SameIn start stop buf buf') {i : ℕ} (hi : start ≤ i) (hlt : i < stop) :
    load buf' i = load buf i := by
  rw [MatchingVenue.load, MatchingVenue.load, h i hi hlt]

/-- The search for `=` looks at its window only. -/
theorem seekEquals_congr (h : SameIn start stop buf buf') {n i : ℕ} (hi : start ≤ i)
    (hn : i + n ≤ stop) :
    FixParser.seekEquals buf' n i = FixParser.seekEquals buf n i := by
  induction n generalizing i with
  | zero => rfl
  | succ n ih =>
    rw [FixParser.seekEquals, FixParser.seekEquals, h.load hi (by omega), ih (by omega) (by omega)]

/-- The search for a field end looks at its window only. -/
theorem seekSoh_congr (h : SameIn start stop buf buf') {n i : ℕ} (hi : start ≤ i)
    (hn : i + n ≤ stop) :
    FixParser.seekSoh buf' n i = FixParser.seekSoh buf n i := by
  induction n generalizing i with
  | zero => rfl
  | succ n ih =>
    rw [FixParser.seekSoh, FixParser.seekSoh, h.load hi (by omega), ih (by omega) (by omega)]

/-- The loop of `parseLong` looks at its window only. -/
theorem parseLongFrom_congr (h : SameIn start stop buf buf') {n i : ℕ} (hi : start ≤ i)
    (hn : i + n ≤ stop) (val : ℤ) : parseLongFrom buf' n i val = parseLongFrom buf n i val := by
  induction n generalizing i val with
  | zero => rfl
  | succ n ih =>
    have hrest := fun val => ih (i := i + 1) (by omega) (by omega) val
    rw [parseLongFrom, parseLongFrom, h.load hi (by omega)]
    simp only [hrest]

/-- `parseLong` looks at its window only. -/
theorem parseLong_congr (h : SameIn start stop buf buf') {i j : ℕ} (hi : start ≤ i)
    (hj : j ≤ stop) :
    FixParser.parseLong buf' i j = FixParser.parseLong buf i j := by
  rw [FixParser.parseLong, FixParser.parseLong, FixConstants.parseLong, FixConstants.parseLong]
  split_ifs with hempty
  · rfl
  · exact parseLongFrom_congr h hi (by omega) 0

/-- The search for the `=` stops among the bytes that it is given, or behind them. -/
theorem seekEquals_bounds {n i e : ℕ} (h : FixParser.seekEquals buf n i = .ok (some e)) :
    i ≤ e ∧ e ≤ i + n := by
  induction n generalizing i with
  | zero =>
    obtain rfl : i = e := by simpa [FixParser.seekEquals] using h
    exact ⟨Nat.le_refl i, Nat.le_refl i⟩
  | succ n ih =>
    rw [FixParser.seekEquals] at h
    obtain ⟨b, -, h⟩ := bind_eq_ok.mp h
    split_ifs at h with hequals hsoh
    · obtain rfl : i = e := Option.some.inj (Except.ok.inj h)
      omega
    · simp [pure, Except.pure] at h
    · have hbounds := ih h
      omega

/-- So does the search for the field end. -/
theorem seekSoh_bounds {n i e : ℕ} (h : FixParser.seekSoh buf n i = .ok e) : i ≤ e ∧ e ≤ i + n := by
  induction n generalizing i with
  | zero =>
    obtain rfl : i = e := by simpa [FixParser.seekSoh] using h
    exact ⟨Nat.le_refl i, Nat.le_refl i⟩
  | succ n ih =>
    rw [FixParser.seekSoh] at h
    obtain ⟨b, -, h⟩ := bind_eq_ok.mp h
    split_ifs at h with hsoh
    · obtain rfl : i = e := Except.ok.inj h
      omega
    · have hbounds := ih h
      omega

/-- The scanner reads the bytes that it is given and no others. -/
theorem scanFrom_congr (h : SameIn start stop buf buf') {fuel pos count : ℕ} (p : FixParser)
    (hpos : start ≤ pos) :
    FixParser.scanFrom buf' stop fuel pos p count =
      FixParser.scanFrom buf stop fuel pos p count := by
  induction fuel generalizing pos p count with
  | zero => rfl
  | succ fuel ih =>
    rw [FixParser.scanFrom, FixParser.scanFrom]
    by_cases hlt : pos < stop
    swap
    · rw [if_neg hlt, if_neg hlt]
    rw [if_pos hlt, if_pos hlt, seekEquals_congr h hpos (by omega)]
    cases heq : FixParser.seekEquals buf (stop - pos) pos with
    | error e => rw [error_bind, error_bind]
    | ok found =>
    rw [ok_bind, ok_bind]
    cases found with
    | none => simp only
    | some e =>
    obtain ⟨hle, hend⟩ := seekEquals_bounds heq
    simp only
    by_cases hstop : e = stop
    · rw [if_pos hstop, if_pos hstop]
    rw [if_neg hstop, if_neg hstop, seekSoh_congr h (by omega) (by omega)]
    cases hsoh : FixParser.seekSoh buf (stop - (e + 1)) (e + 1) with
    | error e => rw [error_bind, error_bind]
    | ok valEnd =>
    have hbounds := seekSoh_bounds hsoh
    have hrest := fun p => @ih (valEnd + 1) (count + 1) p (by omega)
    simp only [ok_bind, parseLong_congr h hpos (show e ≤ stop by omega), hrest]

end SameIn

/-! ## Joining what is recorded -/

/-- Digits without the zeros before the first other one. -/
def unpadded (tag : List Byte) : List Byte :=
  if tag.dropWhile (fun b => b = byte zero) = [] then [byte zero]
    else tag.dropWhile fun b => b = byte zero

/-- A field without the zeros before its tag. -/
def Field.unpadded (f : Field) : Field := { f with tag := Wire.unpadded f.tag }

/-- Some triples in bytes: the tag in digits, and the value from where it stands. -/
def rejoined (buf : List Byte) (triples : List (ℤ × ℕ × ℕ)) : List Byte :=
  joined (triples.map fun t => ⟨getBytes (digits t.1.toNat), window buf t.2.1 t.2.2⟩)

/-- A digit is the number of it. -/
theorem getBytes_digits_digit {b : Byte} (h : IsDigit b) :
    getBytes (digits (b.toInt - 48).toNat) = [b] := by
  obtain ⟨hlow, hhigh⟩ := h
  obtain ⟨d, hd⟩ : ∃ d : ℕ, b.toInt = 48 + d := ⟨(b.toInt - 48).toNat, by omega⟩
  have hsub : (b.toInt - 48).toNat = d := by omega
  have hall : ∀ d < 10, getBytes (digits d) = [Int8.ofInt (48 + d)] := by decide
  rw [hsub, hall d (by omega), ← hd, Int8.ofInt_toInt]

/-- The digits of a number and one more are those of the longer number. -/
theorem getBytes_digits_concat {n : ℕ} (hn : 0 < n) {b : Byte} (hb : IsDigit b) :
    getBytes (digits (n * 10 + (b.toInt - 48).toNat)) = getBytes (digits n) ++ [b] := by
  have hlast := getBytes_digits_digit hb
  obtain ⟨hlow, hhigh⟩ := hb
  have hlong := Nat.toDigits_append_toDigits (b := 10) (n := n) (d := (b.toInt - 48).toNat)
    (by decide) hn (by omega)
  have hdigits : digits (n * 10 + (b.toInt - 48).toNat) =
      digits n ++ digits (b.toInt - 48).toNat := by
    rw [Nat.mul_comm, digits, ← hlong, List.map_append]
    rfl
  rw [hdigits, getBytes_append (ascii_digits n), hlast]

/-- Digits write zero only if all of them are zeros. -/
theorem number_pos_iff {tag : List Byte} (h : ∀ b ∈ tag, IsDigit b) :
    0 < number tag ↔ tag.dropWhile (fun b => b = byte zero) ≠ [] := by
  rw [ne_eq, List.dropWhile_eq_nil_iff]
  induction tag using List.reverseRecOn with
  | nil => simp [number, numberFrom]
  | append_singleton tag b ih =>
    obtain ⟨htag, hb⟩ := List.forall_mem_append.mp h
    have hdigit := hb b (List.mem_singleton_self b)
    have hzero : (b.toInt - 48).toNat = 0 ↔ b = byte zero := by
      constructor
      · intro heq
        obtain ⟨hlow, -⟩ := hdigit
        refine Int8.toInt_inj.mp ?_
        have hvalue : (byte zero).toInt = 48 := rfl
        omega
      · rintro rfl
        rfl
    have hcons : (∀ x ∈ tag ++ [b], decide (x = byte zero) = true) ↔
        (∀ x ∈ tag, decide (x = byte zero) = true) ∧ b = byte zero := by
      rw [List.forall_mem_append, List.forall_mem_singleton, decide_eq_true_eq]
    rw [number_append_one, hcons, not_and_or, ← ih htag, ← hzero]
    omega

/-- The digits of the number that a tag writes are those of the tag, but for zeros before them. -/
theorem getBytes_digits_number {tag : List Byte} (hne : tag ≠ []) (h : ∀ b ∈ tag, IsDigit b) :
    getBytes (digits (number tag)) = unpadded tag := by
  induction tag using List.reverseRecOn with
  | nil => exact absurd rfl hne
  | append_singleton tag b ih =>
    obtain ⟨htag, hb⟩ := List.forall_mem_append.mp h
    have hdigit := hb b (List.mem_singleton_self b)
    have hpos := number_pos_iff htag
    rw [number_append_one, unpadded, List.dropWhile_append]
    by_cases hnumber : 0 < number tag
    · -- The digits before the last one have one that stays.
      have hkept := hpos.mp hnumber
      have htagNe : tag ≠ [] := by
        rintro rfl
        exact absurd hnumber (by decide)
      have hempty : (tag.dropWhile fun b => b = byte zero).isEmpty = false := by
        rw [List.isEmpty_eq_false_iff]
        exact hkept
      rw [getBytes_digits_concat hnumber hdigit, ih htagNe htag, unpadded, if_neg hkept, hempty]
      simp
    · -- Otherwise only the last one does.
      have hzeros : number tag = 0 := by omega
      have hdropped : tag.dropWhile (fun b => b = byte zero) = [] := by
        by_contra hkept
        exact hnumber (hpos.mpr hkept)
      rw [hzeros, Nat.zero_mul, Nat.zero_add, getBytes_digits_digit hdigit, hdropped]
      by_cases hb : b = byte zero <;> simp [hb]

/-- What is recorded of fields that are joined together makes them up again, but for zeros before
the tags. -/
theorem rejoined_located {buf : List Byte} {fs : List Field} {pos stop : ℕ}
    (hstop : stop ≤ buf.length) (hproper : ∀ f ∈ fs, f.Proper)
    (hbytes : window buf pos stop = joined fs) :
    rejoined buf (located pos fs) = joined (fs.map Field.unpadded) := by
  induction fs generalizing pos with
  | nil => rfl
  | cons f fs ih =>
    have hf := hproper f List.mem_cons_self
    rw [joined_cons] at hbytes
    have hvalue := window_after hbytes
    have hrest := window_after hvalue
    have hsize : pos + f.bytes.length = pos + f.tag.length + 1 + f.value.length + 1 := by
      simp only [Field.bytes, List.length_append, List.length_cons, List.length_nil]
      omega
    rw [← hsize] at hrest
    have htail := ih (fun g hg => hproper g (List.mem_cons_of_mem _ hg)) hrest
    rw [rejoined] at htail ⊢
    rw [located, List.map_cons, List.map_cons, joined_cons, joined_cons, htail, Int.toNat_natCast,
      getBytes_digits_number hf.tag_ne hf.tag_digits, window_left hstop hvalue]
    rfl

/-! ## Where the scanner is exact -/

/-- The scanner takes the window of some bytes from an offset on apart exactly. -/
structure Tokenises (p : FixParser) (buf : List Byte) (offset length : ℕ) : Prop where
  /-- It returns, so that nothing is read outside of the buffer or written outside of the arrays. -/
  returns : ∃ p' scanned, p.scan buf offset length = .ok (p', scanned)
  /-- It counts the fields where the window is joined of fields that there is room for, and fails
  otherwise. -/
  counts : ∀ n, (∃ p', p.scan buf offset length = .ok (p', some n)) ↔
    ∃ fs, Joins maxFields fs (window buf offset (offset + length)) ∧ fs.length = n
  /-- It records where they are; what it finds under a tag is a field whose tag has that number. -/
  records : ∀ p' n, p.scan buf offset length = .ok (p', some n) →
    ∃ fs, Joins maxFields fs (window buf offset (offset + length)) ∧ fs.length = n ∧
      Records p' 0 (located offset fs) ∧
      rejoined buf (located offset fs) = joined (fs.map Field.unpadded) ∧
      ∀ tag i, p'.findTag tag n = .ok (some i) → ∃ f, fs[i]? = some f ∧ (number f.tag : ℤ) = tag
  /-- It looks at its window only. -/
  reads : ∀ buf', SameIn offset (offset + length) buf buf' →
    p.scan buf' offset length = p.scan buf offset length

/-- The triples of some fields are recorded as they are exactly if all tags are an `int`. -/
theorem map_narrowed_located_iff (pos : ℕ) (fs : List Field) :
    (located pos fs).map narrowed = located pos fs ↔ ∀ f ∈ fs, (number f.tag : ℤ) ≤ intMax := by
  induction fs generalizing pos with
  | nil => exact iff_of_true rfl (by simp)
  | cons f fs ih =>
    have hfits : toInt (number f.tag) = number f.tag ↔ (number f.tag : ℤ) ≤ intMax := by
      rw [toInt_eq_iff, FitsInt, intMax]
      omega
    rw [located, List.map_cons, List.cons.injEq, ih, List.forall_mem_cons, ← hfits]
    refine and_congr_left fun _ => ?_
    rw [narrowed, Prod.mk.injEq, and_iff_left rfl]

/-- As many fields are located as there are. -/
theorem length_located (pos : ℕ) (fs : List Field) : (located pos fs).length = fs.length := by
  induction fs generalizing pos with
  | nil => rfl
  | cons f fs ih => rw [located, List.length_cons, ih, List.length_cons]

/-- The tag of a field is where the field is. -/
theorem located_at {pos i : ℕ} {fs : List Field} {triple : ℤ × ℕ × ℕ}
    (h : (located pos fs)[i]? = some triple) :
    ∃ f, fs[i]? = some f ∧ (number f.tag : ℤ) = triple.1 := by
  induction fs generalizing pos i with
  | nil => simp [located] at h
  | cons f fs ih =>
    cases i with
    | zero =>
      obtain rfl := Option.some.inj h
      exact ⟨f, rfl, rfl⟩
    | succ i => exact ih h

section Tokenises

variable {p p' : FixParser} {buf : List Byte} {offset length : ℕ} {fs : List Field}

/-- The scan of a window reads nothing outside of it. -/
theorem scan_congr (p : FixParser) (buf : List Byte) (offset length : ℕ) :
    ∀ buf', SameIn offset (offset + length) buf buf' →
      p.scan buf' offset length = p.scan buf offset length :=
  fun _ hsame => scanFrom_congr hsame p (Nat.le_refl offset)

/-- A window that is no fields is rejected, and there is nothing to record. -/
theorem tokenises_of_rejects (hrejects : p.scan buf offset length = .ok (p', none))
    (hno : ¬ ∃ fs, Joins maxFields fs (window buf offset (offset + length))) :
    Tokenises p buf offset length := by
  refine ⟨⟨p', none, hrejects⟩, fun n => ?_, fun q n hq => ?_, scan_congr p buf offset length⟩
  · refine ⟨fun ⟨q, hq⟩ => ?_, fun ⟨fs, hfs, _⟩ => absurd ⟨fs, hfs⟩ hno⟩
    rw [hrejects] at hq
    simp at hq
  · rw [hrejects] at hq
    simp at hq

/-- A window whose fields are recorded as they are is taken apart exactly. -/
theorem tokenises_of_records (h : offset + length ≤ buf.length)
    (hfs : Joins maxFields fs (window buf offset (offset + length)))
    (hscan : p.scan buf offset length = .ok (p', some fs.length))
    (hrecords : Records p' 0 (located offset fs)) :
    Tokenises p buf offset length := by
  have hresult : ∀ q n, p.scan buf offset length = .ok (q, some n) → q = p' ∧ n = fs.length := by
    intro q n hq
    rw [hscan] at hq
    obtain ⟨hq, hn⟩ := Prod.mk.inj (Except.ok.inj hq)
    exact ⟨hq.symm, (Option.some.inj hn).symm⟩
  refine ⟨⟨p', _, hscan⟩, fun n => ?_, fun q n hq => ?_, scan_congr p buf offset length⟩
  · constructor
    · rintro ⟨q, hq⟩
      exact ⟨fs, hfs, (hresult q n hq).2.symm⟩
    · rintro ⟨gs, hgs, rfl⟩
      rw [hgs.fields_eq.symm.trans hfs.fields_eq]
      exact ⟨p', hscan⟩
  · obtain ⟨rfl, rfl⟩ := hresult q n hq
    refine ⟨fs, hfs, rfl, hrecords, rejoined_located h hfs.proper hfs.bytes_eq.symm, ?_⟩
    intro tag i hfound
    obtain ⟨-, hlt, hload⟩ := load_of_findTagFrom hfound
    rw [Nat.zero_add, ← length_located offset fs] at hlt
    obtain ⟨triple, htriple, hat⟩ := hrecords.tag_at hlt
    obtain ⟨f, hf, htag⟩ := located_at htriple
    rw [Nat.zero_add, hload] at hat
    exact ⟨f, hf, htag.trans (Except.ok.inj hat).symm⟩

end Tokenises

/-- For any state of the arrays, any bytes and any window of them: the scanner is exact unless it
takes a field with a tag that is no `int`. -/
theorem tokenises_iff {p : FixParser} {buf : List Byte} {offset length : ℕ}
    (h : offset + length ≤ buf.length) :
    Tokenises p buf offset length ↔ ∀ fs, Joins maxFields fs (window buf offset (offset + length)) →
      ∀ f ∈ fs, (number f.tag : ℤ) ≤ intMax := by
  have hpos : offset ≤ offset + length := Nat.le_add_right _ _
  have hfuel : offset + length - offset < length + 1 := by omega
  by_cases hjoins : ∃ fs, Joins maxFields fs (window buf offset (offset + length))
  swap
  · obtain ⟨p', hrun⟩ := scanFrom_eq p h hpos hfuel (Nat.zero_le maxFields)
    have hrejects : p.scan buf offset length = .ok (p', none) :=
      (hrun.resolve_left fun hand => hjoins (scannable_iff.mp hand.1)).2
    exact iff_of_true (tokenises_of_rejects hrejects hjoins) fun fs hfs => absurd ⟨fs, hfs⟩ hjoins
  obtain ⟨fs, hfs⟩ := hjoins
  obtain ⟨p', hrun, -, hrecords⟩ := @scanFrom_records buf fs _ _ _ 0 p h hpos hfuel hfs
  rw [Nat.zero_add] at hrun
  have hscan : p.scan buf offset length = .ok (p', some fs.length) := hrun
  have hunique : ∀ gs, Joins maxFields gs (window buf offset (offset + length)) →
      gs = fs := fun gs hgs =>
    hgs.fields_eq.symm.trans hfs.fields_eq
  constructor
  · -- What is recorded has been cast, so a tag that was not changed is an `int`.
    intro htokens gs hgs
    obtain ⟨fs', hfs', -, hexact, -⟩ := htokens.records p' fs.length hscan
    rw [hunique gs hgs]
    rw [hunique fs' hfs'] at hexact
    exact (map_narrowed_located_iff offset fs).mp (hrecords.eq hexact (List.length_map _))
  · intro hfits
    rw [(map_narrowed_located_iff offset fs).mpr (hfits fs hfs)] at hrecords
    exact tokenises_of_records h hfs hscan hrecords

/-- The fields of a cancel, behind the end of another message, are taken apart exactly. -/
theorem tokenises_cancel :
    Tokenises {} [48, 1, 51, 53, 61, 70, 1, 49, 49, 61, 57, 1, 52, 49, 61, 55, 50, 1] 2 16 := by
  refine (tokenises_iff (by decide)).mpr fun fs hfs f hf => ?_
  have hfields := hfs.fields_eq
  have hthree : fields (window [48, 1, 51, 53, 61, 70, 1, 49, 49, 61, 57, 1, 52, 49, 61, 55, 50, 1]
      2 (2 + 16)) = [⟨[51, 53], [70]⟩, ⟨[49, 49], [57]⟩, ⟨[52, 49], [55, 50]⟩] := by decide
  rw [← hfields, hthree] at hf
  have hsmall : ∀ g ∈ [(⟨[51, 53], [70]⟩ : Field), ⟨[49, 49], [57]⟩, ⟨[52, 49], [55, 50]⟩],
      (number g.tag : ℤ) ≤ intMax := by decide
  exact hsmall f hf

/-- A tag of `2^32 + 44` is recorded as that of the price. -/
theorem not_tokenises_narrowed :
    (∃ p', ({} : FixParser).scan [52, 50, 57, 52, 57, 54, 55, 51, 52, 48, 61, 53, 1] 0 13 =
      .ok (p', some 1) ∧
      p'.findTag FixConstants.price 1 = .ok (some 0)) ∧
      ¬ Tokenises {} [52, 50, 57, 52, 57, 54, 55, 51, 52, 48, 61, 53, 1] 0 13 := by
  have hscan : (({} : FixParser).scan [52, 50, 57, 52, 57, 54, 55, 51, 52, 48, 61, 53, 1] 0 13).bind
      (fun r => if r.2 = some 1 then r.1.findTag FixConstants.price 1 else .ok none) =
          .ok (some 0) := by
    decide +kernel
  obtain ⟨⟨p', scanned⟩, hrun, hfound⟩ := bind_eq_ok.mp hscan
  split_ifs at hfound with hone
  · obtain rfl : scanned = some 1 := hone
    refine ⟨⟨p', hrun, hfound⟩, fun h => ?_⟩
    -- The field that was found has another tag.
    obtain ⟨fs, hfs, -, -, -, hfinds⟩ := h.records p' 1 hrun
    obtain ⟨f, hf, htag⟩ := hfinds _ _ hfound
    have hfields : fields (window [52, 50, 57, 52, 57, 54, 55, 51, 52, 48, 61, 53, 1] 0 (0 + 13)) =
        [⟨[52, 50, 57, 52, 57, 54, 55, 51, 52, 48], [53]⟩] := by decide
    rw [← hfs.fields_eq, hfields] at hf
    obtain rfl := Option.some.inj hf
    revert htag
    decide
  · simp at hfound

end Wire

end MatchingVenue
