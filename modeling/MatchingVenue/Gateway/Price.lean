import MatchingVenue.Gateway.Decoding
import MatchingVenue.Library.Decimal

/-!
# Prices on the wire

What the parser reads as a price: a decimal of at most two places, in units (`priceOf_text`,
`exists_of_priceOf`). The digits before the point are read with a check of the range of `long`, and
scaled without one. So `readsExactly_iff`: the price is exact unless it is too large and wraps
around to a positive one.
-/

namespace MatchingVenue

open FixConstants

namespace Wire

/-- The byte of a digit. -/
def digitByte (d : Fin 10) : Byte := Int8.ofNat (48 + d.val)

/-- The byte of a digit is 48 more than the digit. -/
theorem toInt_digitByte : ∀ d : Fin 10, (digitByte d).toInt = 48 + d.val := by decide

/-- Digits have different bytes. -/
theorem digitByte_injective : Function.Injective digitByte := by
  intro d e h
  have hint := congrArg Int8.toInt h
  rw [toInt_digitByte, toInt_digitByte] at hint
  exact Fin.ext (by omega)

/-- No digit is the dot. -/
theorem digitByte_ne_dot : ∀ d : Fin 10, digitByte d ≠ FixParser.dot := by decide

/-- The byte of a digit is a digit. -/
theorem isDigit_digitByte : ∀ d : Fin 10, IsDigit (digitByte d) := by decide

/-- A byte that is a digit is that of one. -/
theorem exists_digitByte {b : Byte} (h : IsDigit b) : ∃ d, digitByte d = b := by
  obtain ⟨hlow, hhigh⟩ := h
  obtain ⟨n, hn⟩ : ∃ n : ℕ, b.toInt = 48 + n := ⟨(b.toInt - 48).toNat, by omega⟩
  refine ⟨⟨n, by omega⟩, Int8.toInt_inj.mp ?_⟩
  rw [toInt_digitByte, hn]

/-- Bytes that are digits are those of some. -/
theorem exists_digits {bytes : List Byte} (h : (bytes.all fun b => IsDigit b) = true) :
    ∃ digits : List (Fin 10), digits.map digitByte = bytes := by
  induction bytes with
  | nil => exact ⟨[], rfl⟩
  | cons b bytes ih =>
    rw [List.all_cons, Bool.and_eq_true] at h
    obtain ⟨d, rfl⟩ := exists_digitByte (of_decide_eq_true h.1)
    obtain ⟨digits, rfl⟩ := ih h.2
    exact ⟨d :: digits, rfl⟩

/-- Written digits are digits. -/
theorem all_digits (digits : List (Fin 10)) :
    ((digits.map digitByte).all fun b => IsDigit b) = true := by
  rw [List.all_map]
  exact List.all_eq_true.mpr fun d _ => decide_eq_true (isDigit_digitByte d)

/-- Written digits are read as their number. -/
theorem number_digits (digits : List (Fin 10)) : number (digits.map digitByte) = natOf digits := by
  rw [number, numberFrom, List.foldl_map, natOf]
  congr 1
  funext n d
  rw [toInt_digitByte]
  omega

/-- Some digits are read as the number that they write. -/
theorem longOf_map_digitByte {digits : List (Fin 10)} (hne : digits ≠ []) :
    longOf (digits.map digitByte) =
    if (natOf digits : ℤ) ≤ longMax then (natOf digits : ℤ) else -1 := by
  rw [longOf, number_digits]
  refine if_congr ?_ rfl rfl
  rw [and_iff_right (all_digits digits), ne_eq, List.map_eq_nil_iff, and_iff_right hne]

/-- What is read as a number is digits. -/
theorem exists_of_longOf {bytes : List Byte} (h : longOf bytes ≠ -1) :
    ∃ digits : List (Fin 10), digits.map digitByte = bytes ∧ digits ≠ [] := by
  unfold longOf at h
  split_ifs at h with hlong
  · obtain ⟨hne, hall, -⟩ := hlong
    obtain ⟨digits, rfl⟩ := exists_digits hall
    exact ⟨digits, rfl, by simpa using hne⟩
  · exact absurd rfl h

/-! ## What is read -/

/-- A price with a decimal point. -/
theorem priceOf_dot {dollars cents : List Byte} (h : FixParser.dot ∉ dollars) :
    priceOf (dollars ++ FixParser.dot :: cents) =
      if longOf dollars = -1 ∨ cents.length = 0 ∨ cents.length > FixParser.maxDecimals ∨
      longOf cents = -1 then -1
      else
        let units := toLong (toLong (longOf dollars * Prices.scale) +
          if cents.length = 1 then longOf cents * 1000 else longOf cents * 100)
        if units > 0 then units else -1 := by
  have hall : ∀ b ∈ dollars, decide (b ≠ FixParser.dot) = true := fun b hb =>
    decide_eq_true fun heq => h (heq ▸ hb)
  have htake : (dollars ++ FixParser.dot :: cents).takeWhile (fun b => b ≠ FixParser.dot) =
      dollars := by
    rw [List.takeWhile_append_of_pos hall, List.takeWhile_cons_of_neg (by simp), List.append_nil]
  have hdrop : ((dollars ++ FixParser.dot :: cents).dropWhile fun b => b ≠ FixParser.dot).tail =
      cents := by
    rw [List.dropWhile_append_of_pos hall, List.dropWhile_cons_of_neg (by simp), List.tail_cons]
  have hmem : FixParser.dot ∈ dollars ++ FixParser.dot :: cents := by simp
  simp only [priceOf, if_pos hmem, htake, hdrop]

/-- A price without one. -/
theorem priceOf_noDot {text : List Byte} (h : FixParser.dot ∉ text) :
    priceOf text =
      if longOf text = -1 then -1
      else
        let units := toLong (toLong (longOf text * Prices.scale) + 0)
        if units > 0 then units else -1 := by
  simp only [priceOf, if_neg h]

/-- There is no dot among digits. -/
theorem dot_notMem_digits (digits : List (Fin 10)) : FixParser.dot ∉ digits.map digitByte := by
  intro hmem
  obtain ⟨d, -, hd⟩ := List.mem_map.mp hmem
  exact digitByte_ne_dot d hd

/-- A price in bytes. -/
def priceBytes (d : Decimal FixParser.maxDecimals) : List Byte := d.text digitByte FixParser.dot

/-- A price is written in one way. -/
theorem priceBytes_injective : Function.Injective priceBytes :=
  Decimal.text_injective digitByte_injective digitByte_ne_dot

/-- The price that a decimal is read as, where the digits before the point are a `long`: its units,
if 64 bits of them are positive. -/
def unitsRead (d : Decimal FixParser.maxDecimals) : ℤ :=
  if toLong (d.scaled 4) > 0 then toLong (d.scaled 4) else -1

/-- An inner wrap-around is lost in the outer one. -/
theorem toLong_toLong_add (x y : ℤ) : toLong (toLong x + y) = toLong (x + y) := Int.bmod_add_bmod

/-- A decimal is read as its units, wrapped, where the digits before the point are a `long`. -/
theorem priceOf_text (d : Decimal FixParser.maxDecimals) :
    priceOf (priceBytes d) = if (natOf d.whole : ℤ) ≤ longMax then unitsRead d else -1 := by
  have hparts := d.scaled_eq_parts (k := 4) (by decide)
  have hwhole := longOf_map_digitByte d.whole_ne
  have hle := d.frac_le
  unfold FixParser.maxDecimals at hle
  unfold priceBytes Decimal.text unitsRead
  by_cases hfits : (natOf d.whole : ℤ) ≤ longMax
  swap
  · -- The digits before the point are not read, with or without more behind them.
    rw [if_neg hfits] at hwhole ⊢
    split_ifs with hfrac
    · rw [List.append_nil, priceOf_noDot (dot_notMem_digits _), if_pos hwhole]
    · rw [priceOf_dot (dot_notMem_digits _), if_pos (.inl hwhole)]
  rw [if_pos hfits] at hwhole ⊢
  have hread : (natOf d.whole : ℤ) ≠ -1 := by omega
  by_cases hfrac : d.frac = []
  · -- No point: the whole text is the integer part.
    have hunits : (d.scaled 4 : ℤ) = natOf d.whole * Prices.scale + 0 := by
      rw [hparts, hfrac]
      simp [natOf, Prices.scale]
    rw [if_pos hfrac, List.append_nil, priceOf_noDot (dot_notMem_digits _), hwhole, if_neg hread,
      toLong_toLong_add, ← hunits]
  · -- One digit behind the point, or two.
    have hcents := longOf_map_digitByte hfrac
    have hlt := natOf_lt d.frac
    have hpos := List.length_pos_iff.mpr hfrac
    have hlong : (natOf d.frac : ℤ) ≤ longMax := by
      have hpow : 10 ^ d.frac.length ≤ 10 ^ 2 := Nat.pow_le_pow_right (by decide) hle
      unfold longMax
      omega
    rw [if_pos hlong] at hcents
    have hpasses : ¬ ((natOf d.whole : ℤ) = -1 ∨ d.frac.length = 0 ∨
        d.frac.length > FixParser.maxDecimals ∨
        (natOf d.frac : ℤ) = -1) := by
      unfold FixParser.maxDecimals
      omega
    have hunits : (d.scaled 4 : ℤ) = natOf d.whole * Prices.scale +
        if d.frac.length = 1 then (natOf d.frac : ℤ) * 1000 else (natOf d.frac : ℤ) * 100 := by
      rw [hparts]
      by_cases hone : d.frac.length = 1
      · rw [if_pos hone, hone]
        simp [Prices.scale]
      · have htwo : d.frac.length = 2 := by omega
        rw [if_neg hone, htwo]
        simp [Prices.scale]
    rw [if_neg hfrac, priceOf_dot (dot_notMem_digits _), List.length_map, hwhole, hcents,
      if_neg hpasses, toLong_toLong_add, ← hunits]

/-- What is no decimal is not read. -/
theorem exists_of_priceOf {text : List Byte} (h : priceOf text ≠ -1) :
    ∃ d, priceBytes d = text := by
  by_cases hdot : FixParser.dot ∈ text
  · obtain ⟨dollars, cents, rfl, hdollars⟩ := List.eq_append_cons_of_mem hdot
    rw [priceOf_dot hdollars] at h
    have hpasses := fun hbad => h (if_pos hbad)
    simp only [imp_false, not_or] at hpasses
    obtain ⟨hwhole, hlength, hle, hfrac⟩ := hpasses
    obtain ⟨whole, rfl, hne⟩ := exists_of_longOf hwhole
    obtain ⟨frac, rfl, hfracNe⟩ := exists_of_longOf hfrac
    rw [List.length_map] at hle
    refine ⟨⟨whole, frac, hne, by omega⟩, ?_⟩
    rw [priceBytes, Decimal.text, if_neg hfracNe]
  · rw [priceOf_noDot hdot] at h
    obtain ⟨whole, rfl, hne⟩ := exists_of_longOf fun hbad => h (if_pos hbad)
    refine ⟨⟨whole, [], hne, by decide⟩, ?_⟩
    rw [priceBytes, Decimal.text, if_pos rfl, List.append_nil]

/-! ## Where the price is exact -/

/-- A text says so many units: it is a decimal that comes to them, and they are positive and a
`long`. -/
def Denotes (text : List Byte) (units : ℤ) : Prop :=
  0 < units ∧ units ≤ longMax ∧ ∃ d, priceBytes d = text ∧ (units : ℚ) = Prices.scale * d.value

/-- The parser reads a price in `[start, stop)` exactly where one is denoted. -/
structure ReadsExactly (buf : List Byte) (start stop : ℕ) : Prop where
  /-- A price is read exactly where the bytes denote it. -/
  exact : ∀ units > 0, FixParser.parsePrice buf start stop = .ok units ↔
    Denotes (window buf start stop) units
  /-- What denotes no price is rejected. -/
  rejects : (∀ units, ¬ Denotes (window buf start stop) units) →
    FixParser.parsePrice buf start stop = .ok (-1)
  /-- A price that is read is on the tick. -/
  onTick : ∀ units > 0, FixParser.parsePrice buf start stop = .ok units → 100 ∣ units

/-- A text is a decimal that is too large but wraps around to a positive `long`: the digits before
the point are a `long`, the units are none, and they leave `1` to `2^63 - 1` modulo `2^64`. -/
def Wraps (text : List Byte) : Prop :=
  ∃ d, priceBytes d = text ∧ (natOf d.whole : ℤ) ≤ longMax ∧ longMax < (d.scaled 4 : ℤ) ∧
    0 < (d.scaled 4 : ℤ) % 2^64 ∧ (d.scaled 4 : ℤ) % 2^64 ≤ longMax

/-- The bytes of a decimal denote its number of units, where that is positive and a `long`. -/
theorem denotes_priceBytes {d : Decimal FixParser.maxDecimals} {units : ℤ} :
    Denotes (priceBytes d) units ↔ 0 < units ∧ units ≤ longMax ∧ units = d.scaled 4 := by
  have hvalue := d.scaled_eq_value (k := 4) (by decide)
  have hscale : ((Prices.scale : ℤ) : ℚ) = 10 ^ 4 := by
    unfold Prices.scale
    norm_num
  have hunits : ∀ e : Decimal FixParser.maxDecimals, e = d →
      ((units : ℚ) = Prices.scale * e.value ↔ units = d.scaled 4) := by
    rintro e rfl
    rw [hscale, ← hvalue]
    exact_mod_cast Iff.rfl
  unfold Denotes
  constructor
  · rintro ⟨hpos, hle, e, he, hden⟩
    exact ⟨hpos, hle, (hunits e (priceBytes_injective he)).mp hden⟩
  · rintro ⟨hpos, hle, heq⟩
    exact ⟨hpos, hle, d, rfl, (hunits d rfl).mpr heq⟩

/-- In its 64 bits a number that is not negative is itself, or it is positive only where it wraps
around. -/
theorem toLong_pos_iff {n : ℤ} (h : 0 ≤ n) :
    0 < toLong n ↔ 0 < n ∧ n ≤ longMax ∨ longMax < n ∧ 0 < n % 2^64 ∧ n % 2^64 ≤ longMax := by
  unfold toLong longMax
  rw [Int.bmod_def]
  split_ifs <;> omega

/-- What is read is positive or the sentinel. -/
theorem priceOf_pos_or (text : List Byte) : priceOf text = -1 ∨ 0 < priceOf text := by
  by_cases hread : priceOf text = -1
  · exact .inl hread
  · obtain ⟨d, rfl⟩ := exists_of_priceOf hread
    rw [priceOf_text, unitsRead]
    split_ifs with hfits hpos
    · exact .inr hpos
    · exact .inl rfl
    · exact .inl rfl

/-- What is denoted is on the tick. -/
theorem Denotes.onTick {text : List Byte} {units : ℤ} (h : Denotes text units) : 100 ∣ units := by
  have hd := h
  obtain ⟨-, -, d, rfl, -⟩ := h
  obtain ⟨-, -, rfl⟩ := denotes_priceBytes.mp hd
  have hdvd : 10 ^ (4 - FixParser.maxDecimals) ∣ d.scaled 4 := d.dvd_scaled
  exact_mod_cast hdvd

/-- The positive prices that are read are those that are denoted, unless the text wraps around. -/
theorem priceOf_exact_iff (text : List Byte) :
    (∀ units > 0, priceOf text = units ↔ Denotes text units) ↔ ¬ Wraps text := by
  by_cases htext : ∃ d, priceBytes d = text
  swap
  · -- No decimal is read, and none is denoted.
    have hread : priceOf text = -1 := by
      by_contra hne
      exact htext (exists_of_priceOf hne)
    rw [hread]
    constructor
    · rintro - ⟨d, hd, -⟩
      exact htext ⟨d, hd⟩
    · rintro - units hpos
      refine ⟨fun heq => by omega, ?_⟩
      rintro ⟨-, -, d, hd, -⟩
      exact absurd ⟨d, hd⟩ htext
  obtain ⟨d, rfl⟩ := htext
  have hwraps : Wraps (priceBytes d) ↔ (natOf d.whole : ℤ) ≤ longMax ∧ longMax < (d.scaled 4 : ℤ) ∧
      0 < (d.scaled 4 : ℤ) % 2^64 ∧ (d.scaled 4 : ℤ) % 2^64 ≤ longMax := by
    constructor
    · rintro ⟨e, he, hwraps⟩
      rwa [priceBytes_injective he] at hwraps
    · exact fun hwraps => ⟨d, rfl, hwraps⟩
  have hparts := d.scaled_eq_parts (k := 4) (by decide)
  have hlong := @toLong_pos_iff (d.scaled 4) (Int.natCast_nonneg _)
  rw [priceOf_text, hwraps]
  simp only [denotes_priceBytes]
  by_cases hfits : (natOf d.whole : ℤ) ≤ longMax
  swap
  · -- Digits that are no `long` before the point make the units none.
    have hlarge : longMax < (d.scaled 4 : ℤ) := by omega
    rw [if_neg hfits]
    exact ⟨fun _ hand => hfits hand.1, fun _ units hpos => by omega⟩
  rw [if_pos hfits, unitsRead]
  by_cases hsmall : (d.scaled 4 : ℤ) ≤ longMax
  · rw [toLong_of_le (Int.natCast_nonneg _) hsmall]
    refine ⟨fun _ hand => by omega, fun _ units hpos => ?_⟩
    split_ifs <;> omega
  · by_cases hwrapped : 0 < toLong (d.scaled 4)
    · -- The price that is read is none that is denoted.
      rw [if_pos hwrapped]
      have hle := toLong_le (d.scaled 4)
      refine ⟨fun hexact => ?_, fun hno => ?_⟩
      · have hden := (hexact _ hwrapped).mp rfl
        omega
      · omega
    · rw [if_neg hwrapped]
      exact ⟨fun _ => by omega, fun _ units hpos => by omega⟩

/-- For any bytes and any range of them: the price is read exactly unless it wraps around. -/
theorem readsExactly_iff {buf : List Byte} {start stop : ℕ} (h : stop ≤ buf.length) :
    ReadsExactly buf start stop ↔ ¬ Wraps (window buf start stop) := by
  have hread : ∀ units, FixParser.parsePrice buf start stop = .ok units ↔
      priceOf (window buf start stop) = units := by
    intro units
    rw [parsePrice_eq h, Except.ok.injEq]
  rw [← priceOf_exact_iff]
  constructor
  · intro hexact units hpos
    rw [← hread]
    exact hexact.exact units hpos
  · intro hexact
    refine ⟨fun units hpos => (hread units).trans (hexact units hpos), fun hno => ?_,
      fun units hpos hunits => ?_⟩
    · rw [hread]
      exact (priceOf_pos_or _).resolve_right fun hpos => hno _ ((hexact _ hpos).mp rfl)
    · exact ((hexact units hpos).mp ((hread units).mp hunits)).onTick

/-- `150.25` is read exactly. -/
theorem readsExactly_cents : ReadsExactly [49, 53, 48, 46, 50, 53] 0 6 := by
  refine (readsExactly_iff (by decide)).mpr ?_
  rintro ⟨d, hd, -, hlarge, -⟩
  have htext : priceBytes ⟨[1, 5, 0], [2, 5], by decide, by decide⟩ =
      window [49, 53, 48, 46, 50, 53] 0 6 := by
    decide
  obtain rfl := priceBytes_injective (hd.trans htext.symm)
  revert hlarge
  decide

/-- `1844674407370956` dollars come to a bit more than `2^64` units, and are read as `84` cents. -/
theorem not_readsExactly_wrapped :
    FixParser.parsePrice [49, 56, 52, 52, 54, 55, 52, 52, 48, 55, 51, 55, 48, 57, 53, 54] 0 16 =
      .ok 8384 ∧
      ¬ ReadsExactly [49, 56, 52, 52, 54, 55, 52, 52, 48, 55, 51, 55, 48, 57, 53, 54] 0 16 := by
  have hread : FixParser.parsePrice [49, 56, 52, 52, 54, 55, 52, 52, 48, 55, 51, 55, 48, 57, 53, 54]
      0 16 = .ok 8384 := by
    decide +kernel
  refine ⟨hread, fun h => ?_⟩
  -- It is not even on the tick.
  have htick := h.onTick 8384 (by decide) hread
  omega

end Wire

end MatchingVenue
