import Mathlib.Algebra.Order.Field.Rat
import Mathlib.Data.List.DropRight
import Mathlib.Data.List.Induction
import Mathlib.Tactic.FieldSimp
import Mathlib.Tactic.Ring

/-!
# Decimals

A decimal as it is written: digits, and behind a point at most so many more. Its `value` is a
fraction, and `scaled` is the number of the units in it where a unit is a power of a tenth. `scaled`
puts zeros behind the digits, and `scaled_eq_parts` is the other way to get there, by the two parts.
`shortest` is the way back, from units to a decimal without more zeros at its end than are asked
for.
-/

namespace MatchingVenue

/-- The number that some digits write. -/
def natOf (digits : List (Fin 10)) : ℕ := digits.foldl (fun n d => n * 10 + d.val) 0

/-- A last digit counts once, and each digit before it ten times what it did. -/
theorem natOf_append_one (digits : List (Fin 10)) (d : Fin 10) :
    natOf (digits ++ [d]) = natOf digits * 10 + d := by
  simp [natOf]

/-- Reading digits from a number on shifts it by their count. -/
theorem foldl_natOf (n : ℕ) (digits : List (Fin 10)) :
    digits.foldl (fun n d => n * 10 + d.val) n = n * 10 ^ digits.length + natOf digits := by
  induction digits using List.reverseRecOn with
  | nil => simp [natOf]
  | append_singleton digits d ih =>
    rw [List.foldl_append, ih, natOf_append_one, List.length_append, List.length_singleton,
      pow_succ, List.foldl_cons, List.foldl_nil]
    ring

/-- The digits in front are shifted by the count of those behind. -/
theorem natOf_append (digits more : List (Fin 10)) :
    natOf (digits ++ more) = natOf digits * 10 ^ more.length + natOf more := by
  have hfold : natOf (digits ++ more) = more.foldl (fun n d => n * 10 + d.val) (natOf digits) := by
    simp [natOf]
  rw [hfold, foldl_natOf]

/-- Zeros read as zero. -/
theorem natOf_zeros (n : ℕ) : natOf (List.replicate n 0) = 0 := by
  induction n with
  | zero => rfl
  | succ n ih => rw [List.replicate_succ', natOf_append, ih]; rfl

/-- Some digits write less than the power of ten of their number. -/
theorem natOf_lt (digits : List (Fin 10)) : natOf digits < 10 ^ digits.length := by
  induction digits using List.reverseRecOn with
  | nil => simp [natOf]
  | append_singleton digits d ih =>
    have hd := d.2
    rw [natOf_append_one, List.length_append, List.length_singleton, pow_succ]
    omega

/-- A number that ends with a zero is told from its digits. -/
theorem ten_dvd_natOf {digits : List (Fin 10)} (h : 10 ∣ natOf digits) (hne : digits ≠ []) :
    digits.getLast? = some 0 := by
  obtain ⟨front, d, rfl⟩ := (List.eq_nil_or_concat' digits).resolve_left hne
  rw [natOf_append_one] at h
  have hd : d = 0 := Fin.ext (by have hlt := d.2; show d.val = 0; omega)
  rw [List.getLast?_concat, hd]

/-! ## Zeros at the end -/

/-- Digits without the zeros at their end, but at least so many. -/
def trimmed (least : ℕ) (digits : List (Fin 10)) : List (Fin 10) :=
  let kept := digits.rdropWhile fun d => d = 0
  kept ++ List.replicate (least - kept.length) 0

/-- With the zeros that are gone they are the digits. -/
theorem trimmed_append {least : ℕ} {digits : List (Fin 10)} (h : least ≤ digits.length) :
    least ≤ (trimmed least digits).length ∧ (trimmed least digits).length ≤ digits.length ∧
      trimmed least digits ++ List.replicate (digits.length - (trimmed least digits).length) 0 =
      digits := by
  have hzeros : digits.rtakeWhile (fun d => d = 0) =
      List.replicate (digits.rtakeWhile fun d => d = 0).length 0 :=
    List.eq_replicate_of_mem fun d hd => by simpa using List.mem_rtakeWhile_imp hd
  have hsplit : digits.rdropWhile (fun d => d = 0) ++ digits.rtakeWhile (fun d => d = 0) = digits :=
    List.rdropWhile_append_rtakeWhile
  have hlength := congrArg List.length hsplit
  rw [List.length_append] at hlength
  have hkept : (trimmed least digits).length = (digits.rdropWhile fun d => d = 0).length +
      (least - (digits.rdropWhile fun d => d = 0).length) := by
    rw [trimmed, List.length_append, List.length_replicate]
  have hcount : least - (digits.rdropWhile fun d => d = 0).length +
      (digits.length - (trimmed least digits).length) =
      (digits.rtakeWhile fun d => d = 0).length := by omega
  refine ⟨by omega, by omega, ?_⟩
  rw [trimmed, List.append_assoc, List.replicate_append_replicate, ← trimmed, hcount,
    ← hzeros, hsplit]

/-- Beyond those that there have to be the last is no zero. -/
theorem getLast?_trimmed {least : ℕ} {digits : List (Fin 10)}
    (h : least < (trimmed least digits).length) :
    (trimmed least digits).getLast? ≠ some 0 := by
  intro hlast
  have hlong : least < (digits.rdropWhile fun d => d = 0).length := by
    rw [trimmed, List.length_append, List.length_replicate] at h
    omega
  have hne : digits.rdropWhile (fun d => d = 0) ≠ [] := List.length_pos_iff.mp (by omega)
  rw [trimmed, Nat.sub_eq_zero_of_le hlong.le, List.replicate_zero, List.append_nil,
    List.getLast?_eq_some_getLast hne] at hlast
  exact List.rdropWhile_last_not _ _ hne (decide_eq_true (Option.some.inj hlast))

/-- The last `k` elements of a list that has as many are `k`. -/
theorem length_drop_sub {α : Type*} {l : List α} {k : ℕ} (h : k ≤ l.length) :
    (l.drop (l.length - k)).length = k := by
  rw [List.length_drop]
  omega

/-- A decimal with at most some places behind the point, and a digit at least before it. -/
@[ext]
structure Decimal (places : ℕ) where
  whole : List (Fin 10)
  frac : List (Fin 10)
  whole_ne : whole ≠ []
  frac_le : frac.length ≤ places

namespace Decimal

variable {places : ℕ} {α : Type*}

/-- The fraction that a decimal is. -/
def value (d : Decimal places) : ℚ := natOf (d.whole ++ d.frac) / 10 ^ d.frac.length

/-- The units in a decimal, where the unit is that of the `k`-th place. -/
def scaled (k : ℕ) (d : Decimal places) : ℕ :=
  natOf (d.whole ++ d.frac ++ List.replicate (k - d.frac.length) 0)

/-- A decimal in characters. The point is left out where nothing is behind it. -/
def text (char : Fin 10 → α) (point : α) (d : Decimal places) : List α :=
  d.whole.map char ++ if d.frac = [] then [] else point :: d.frac.map char

/-- A scaled decimal is all its digits, shifted by the places that it does not write. -/
theorem scaled_eq_mul (k : ℕ) (d : Decimal places) :
    d.scaled k = natOf (d.whole ++ d.frac) * 10 ^ (k - d.frac.length) := by
  rw [scaled, natOf_append, natOf_zeros, List.length_replicate, Nat.add_zero]

/-- The units are the value in units, if the unit is small enough. -/
theorem scaled_eq_value {k : ℕ} (d : Decimal places) (h : places ≤ k) :
    (d.scaled k : ℚ) = 10 ^ k * d.value := by
  have hk : k = d.frac.length + (k - d.frac.length) := by
    have hplaces := d.frac_le
    omega
  have hpow : (10 : ℚ) ^ k = 10 ^ d.frac.length * 10 ^ (k - d.frac.length) := by
    rw [← pow_add, ← hk]
  rw [scaled_eq_mul, value, hpow, Nat.cast_mul, Nat.cast_pow]
  field_simp
  norm_num

/-- The units of a decimal are those of its two parts. -/
theorem scaled_eq_parts {k : ℕ} (d : Decimal places) (h : places ≤ k) :
    d.scaled k = natOf d.whole * 10 ^ k + natOf d.frac * 10 ^ (k - d.frac.length) := by
  have hk : d.frac.length + (k - d.frac.length) = k := by
    have hplaces := d.frac_le
    omega
  rw [scaled_eq_mul, natOf_append, Nat.add_mul, Nat.mul_assoc, ← pow_add, hk]

/-- A decimal is a whole number of the units of its last place. -/
theorem dvd_scaled {k : ℕ} (d : Decimal places) : 10 ^ (k - places) ∣ d.scaled k := by
  have hle : k - places ≤ k - d.frac.length := by
    have hplaces := d.frac_le
    omega
  rw [scaled_eq_mul]
  exact Nat.dvd_trans (Nat.pow_dvd_pow 10 hle) (Nat.dvd_mul_left _ _)

/-- A decimal that may have more places. -/
def widen {more : ℕ} (h : places ≤ more) (d : Decimal places) : Decimal more :=
  ⟨d.whole, d.frac, d.whole_ne, d.frac_le.trans h⟩

/-- A decimal with at least so many places behind the point, and with no zero at its end beyond
them. -/
structure Trimmed (least : ℕ) (d : Decimal places) : Prop where
  least_le : least ≤ d.frac.length
  last_ne : least < d.frac.length → d.frac.getLast? ≠ some 0

/-- The decimal of some units, which are those of the `k`-th place, with at least so many digits
behind the point. -/
def shortest (least : ℕ) {k : ℕ} (digits : List (Fin 10)) (hk : k < digits.length)
    (hleast : least ≤ k) :
    Decimal k where
  whole := digits.take (digits.length - k)
  frac := trimmed least (digits.drop (digits.length - k))
  whole_ne := by
    rw [← List.length_pos_iff, List.length_take]
    omega
  frac_le := by
    have hdrop := length_drop_sub hk.le
    exact (trimmed_append (hleast.trans hdrop.ge)).2.1.trans hdrop.le

section Shortest

variable {least k : ℕ} {digits : List (Fin 10)} (hk : k < digits.length) (hleast : least ≤ k)

/-- It has that many units. -/
theorem scaled_shortest : (shortest least digits hk hleast).scaled k = natOf digits := by
  have hdrop := length_drop_sub hk.le
  obtain ⟨-, -, happend⟩ := trimmed_append (hleast.trans hdrop.ge)
  rw [hdrop] at happend
  let whole := digits.take (digits.length - k)
  let frac := digits.drop (digits.length - k)
  calc (shortest least digits hk hleast).scaled k
      = natOf (whole ++ trimmed least frac ++ List.replicate (k - (trimmed least frac).length) 0) :=
        rfl
    _ = natOf (whole ++ frac) := by rw [List.append_assoc, happend]
    _ = natOf digits := by rw [List.take_append_drop]

/-- The shortest form has no zero at its end that it may leave out. -/
theorem trimmed_shortest : (shortest least digits hk hleast).Trimmed least :=
  ⟨(trimmed_append (hleast.trans (length_drop_sub hk.le).ge)).1, getLast?_trimmed⟩

end Shortest

/-- A trimmed decimal has the units of a decimal of the fewer places only if it is one. -/
theorem Trimmed.dvd_scaled_iff {least k : ℕ} {d : Decimal k} (h : d.Trimmed least) :
    10 ^ (k - least) ∣ d.scaled k ↔ d.frac.length ≤ least := by
  constructor
  · intro hdvd
    by_contra hlong
    have hne : d.frac ≠ [] := List.length_pos_iff.mp (by omega)
    have hfrac := d.frac_le
    -- More zeros at the end than there are places without a digit.
    have hmore : 10 * 10 ^ (k - d.frac.length) ∣ natOf (d.whole ++ d.frac) * 10 ^
        (k - d.frac.length) := by
      rw [← scaled_eq_mul, ← pow_succ']
      exact (Nat.pow_dvd_pow 10 (by omega)).trans hdvd
    have hten : 10 ∣ natOf (d.whole ++ d.frac) :=
      Nat.dvd_of_mul_dvd_mul_right (Nat.pow_pos (by decide)) hmore
    have hzero := ten_dvd_natOf hten (by simp [hne])
    rw [List.getLast?_append_of_ne_nil _ hne] at hzero
    exact h.last_ne (by omega) hzero
  · intro hshort
    rw [scaled_eq_mul]
    exact (Nat.pow_dvd_pow 10 (by omega)).trans (Nat.dvd_mul_left _ _)

/-- Where a point or the end is behind some digits, they are told from it. -/
theorem map_append_inj {char : Fin 10 → α} {point : α} (hchar : Function.Injective char)
    (hpoint : ∀ i, char i ≠ point) {digits more : List (Fin 10)} {rest rest' : List α}
    (hrest : ∀ b ∈ rest.head?, b = point) (hrest' : ∀ b ∈ rest'.head?, b = point)
    (h : digits.map char ++ rest = more.map char ++ rest') : digits = more ∧ rest = rest' := by
  -- By induction on the first digits: as long as both sides have one, the two agree on it.
  induction digits generalizing more with
  | nil =>
    cases more with
    | nil => exact ⟨rfl, h⟩
    | cons i more =>
      have hhead : char i ∈ rest.head? := by
        have hcons : rest = char i :: (more.map char ++ rest') := h
        rw [hcons]
        rfl
      exact absurd (hrest _ hhead) (hpoint i)
  | cons i digits ih =>
    cases more with
    | nil =>
      have hhead : char i ∈ rest'.head? := by
        have hcons : char i :: (digits.map char ++ rest) = rest' := h
        rw [← hcons]
        rfl
      exact absurd (hrest' _ hhead) (hpoint i)
    | cons j more =>
      obtain ⟨hij, htail⟩ := List.cons.inj h
      obtain ⟨rfl, hrests⟩ := ih htail
      exact ⟨by rw [hchar hij], hrests⟩

/-- A text is that of one decimal at most. -/
theorem text_injective {char : Fin 10 → α} {point : α} (hchar : Function.Injective char)
    (hpoint : ∀ i, char i ≠ point) : Function.Injective (@text places α char point) := by
  have hhead : ∀ digits : List (Fin 10),
      ∀ b ∈ (if digits = [] then [] else point :: digits.map char).head?,
      b = point := by
    intro digits b hb
    split_ifs at hb
    · simp at hb
    · exact (Option.some.inj hb).symm
  intro d e h
  obtain ⟨hwhole, hfrac⟩ := map_append_inj hchar hpoint (hhead _) (hhead _) h
  refine Decimal.ext hwhole ?_
  split_ifs at hfrac with hd he he
  · rw [hd, he]
  · exact List.map_injective_iff.mpr hchar (List.cons.inj hfrac).2

end Decimal

end MatchingVenue
