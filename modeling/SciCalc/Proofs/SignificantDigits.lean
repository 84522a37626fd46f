import SciCalc.Proofs.DecimalDigits
import SciCalc.Proofs.ShownText
import SciCalc.Proofs.WholeValue

/-! # Rounding to significant digits

A number is rounded to twelve significant digits at the place that its own decimal exponent tells
(`IsRoundedTo`).  Rounding up to a power of ten gives the rounded number an exponent of one more,
and it is this exponent that decides between the two notations, and how many decimals a number in
positional notation is rounded to.

So a number that is rounded up to a power of ten is rounded a second time, to a decimal less.  Both
roundings agree (`RoundsTo.isNearest`): what is nearest to a multiple of ten is, in units of ten,
even nearer.

The text of a number denotes the rounded number exactly (`Shows`), and a whole number is written as
an integer (`display_exact`).
-/
namespace SciCalc.Decimal

/-! ## Numbers of significant digits -/

/-- The first digit of `q` stands for a multiple of `10 ^ k`. -/
def IsExponent (q : ℚ) (k : ℤ) : Prop :=
  10 ^ k ≤ q ∧ q < 10 ^ (k + 1)

/-- `r` is `q` rounded to `count` significant digits: to the nearest multiple of the power of ten of
the last of them, and of two equally near ones to the even multiple. -/
inductive IsRoundedTo (count : ℕ) (q : ℚ) : ℚ → Prop
  | intro {k : ℤ} {n : ℕ} (hk : IsExponent q k)
    (hn : IsNearest (fun n => n * 10 ^ (k + 1 - count)) q n) :
    IsRoundedTo count q (n * 10 ^ (k + 1 - count))

variable {q r : ℚ} {j k : ℤ} {n m num den count places : ℕ}

theorem ten_zpow_pos (k : ℤ) : (0 : ℚ) < 10 ^ k :=
  zpow_pos (by norm_num) k

theorem ten_zpow_mul (j k : ℤ) : (10 : ℚ) ^ j * 10 ^ k = 10 ^ (j + k) :=
  (zpow_add₀ (by norm_num) j k).symm

/-- The power of ten of the first of `count` digits, in units of the last one. -/
theorem ten_zpow_mul_scale (hcount : 0 < count) (k : ℤ) :
    (10 : ℚ) ^ k * 10 ^ ((count : ℤ) - 1 - k) = (10 ^ (count - 1) : ℕ) := by
  have hsum : k + ((count : ℤ) - 1 - k) = (count - 1 : ℕ) := by omega
  rw [ten_zpow_mul, hsum, zpow_natCast, Nat.cast_pow, Nat.cast_ofNat]

theorem ten_zpow_succ_mul_scale (count : ℕ) (k : ℤ) :
    (10 : ℚ) ^ (k + 1) * 10 ^ ((count : ℤ) - 1 - k) = (10 ^ count : ℕ) := by
  have hsum : k + 1 + ((count : ℤ) - 1 - k) = (count : ℕ) := by ring
  rw [ten_zpow_mul, hsum, zpow_natCast, Nat.cast_pow, Nat.cast_ofNat]

/-- The unit of the last of `count` digits is one such unit. -/
theorem scale_mul_unit (count : ℕ) (k : ℤ) :
    (10 : ℚ) ^ ((count : ℤ) - 1 - k) * 10 ^ (k + 1 - count) = 1 := by
  have hsum : (count : ℤ) - 1 - k + (k + 1 - count) = 0 := by ring
  rw [ten_zpow_mul, hsum, zpow_zero]

theorem pow_mul_unit (hcount : 0 < count) (k : ℤ) :
    ((10 ^ (count - 1) : ℕ) : ℚ) * 10 ^ (k + 1 - count) = 10 ^ k := by
  rw [← ten_zpow_mul_scale hcount k, mul_assoc, scale_mul_unit, mul_one]

theorem pow_succ_mul_unit (count : ℕ) (k : ℤ) :
    ((10 ^ count : ℕ) : ℚ) * 10 ^ (k + 1 - count) = 10 ^ (k + 1) := by
  rw [← ten_zpow_succ_mul_scale count k, mul_assoc, scale_mul_unit, mul_one]

theorem IsExponent.le (h : IsExponent q j) (h' : IsExponent q k) : j ≤ k := by
  have hlt : (10 : ℚ) ^ j < 10 ^ (k + 1) := h.1.trans_lt h'.2
  exact Int.lt_add_one_iff.mp ((zpow_lt_zpow_iff_right₀ (by norm_num)).mp hlt)

theorem IsExponent.unique (h : IsExponent q j) (h' : IsExponent q k) : j = k :=
  le_antisymm (h.le h') (h'.le h)

theorem IsRoundedTo.unique {r' : ℚ} (h : IsRoundedTo count q r) (h' : IsRoundedTo count q r') :
    r = r' := by
  cases h with
  | @intro k n hk hn =>
    cases h' with
    | @intro k' n' hk' hn' =>
      obtain rfl : k = k' := hk.unique hk'
      have hmono : StrictMono fun n : ℕ => (n : ℚ) * 10 ^ (k + 1 - count) := fun a b hab =>
        mul_lt_mul_of_pos_right (Nat.cast_lt.mpr hab) (ten_zpow_pos _)
      rw [hn.unique hmono hn']

/-- The decimal exponent is found by counting digits. -/
theorem isExponent_decimalExponent (hnum : 0 < num) (hden : 0 < den) :
    IsExponent ((num : ℚ) / den) (decimalExponent num den) := by
  have hden' : (0 : ℚ) < den := Nat.cast_pos.mpr hden
  rw [decimalExponent]
  split
  · rename_i hle
    obtain ⟨k, hlength, hlow, hhigh⟩ := exists_length_digits (Nat.div_pos hle hden).ne'
    have hexponent : ((digits (num / den)).length : ℤ) - 1 = (k : ℤ) := by omega
    rw [Nat.le_div_iff_mul_le hden] at hlow
    rw [Nat.div_lt_iff_lt_mul hden] at hhigh
    rw [hexponent, IsExponent, le_div_iff₀ hden', div_lt_iff₀ hden', zpow_add_one₀ (by norm_num),
      zpow_natCast, ← pow_succ]
    exact_mod_cast And.intro hlow hhigh
  · rename_i hlt
    have hquotient : 0 < (den - 1) / num := Nat.div_pos (by omega) hnum
    obtain ⟨k, hlength, hlow, hhigh⟩ := exists_length_digits hquotient.ne'
    rw [Nat.le_div_iff_mul_le hnum] at hlow
    rw [Nat.div_lt_iff_lt_mul hnum] at hhigh
    have hlow' : (num : ℚ) * 10 ^ k < den := by
      have hlt : num * 10 ^ k < den := by rw [Nat.mul_comm]; omega
      exact_mod_cast hlt
    have hhigh' : (den : ℚ) ≤ num * 10 ^ (k + 1) := by
      have hle : den ≤ num * 10 ^ (k + 1) := by rw [Nat.mul_comm]; omega
      exact_mod_cast hle
    have hnext : -((k + 1 : ℕ) : ℤ) + 1 = -(k : ℤ) := by push_cast; ring
    rw [hlength, IsExponent, hnext, zpow_neg, zpow_neg, zpow_natCast, zpow_natCast]
    constructor
    · rwa [inv_le_iff_one_le_mul₀ (by positivity), div_mul_eq_mul_div, one_le_div hden']
    · rwa [lt_inv_comm₀ (by positivity) (by positivity), inv_div, lt_div_iff₀ (by positivity),
        mul_comm]

/-! ## Rounding twice -/

/-- A multiple of ten that is nearest stays nearest in units of ten. -/
theorem isNearest_tenth (hm : 0 < m) (h : IsNearest Nat.cast q (10 * m : ℕ)) :
    IsNearest Nat.cast (q / 10) m := by
  -- The number is at most half a unit away, which is a twentieth of ten.
  have hdistance : 2 * |q / 10 - m| < 1 := by
    have hsplit : q - (10 * m : ℕ) = 10 * (q / 10 - m) := by push_cast; ring
    have hhalf := (h.half_unit (by omega)).1
    rw [hsplit, abs_mul, abs_of_pos (by norm_num)] at hhalf
    linarith
  exact isNearest_of_half_unit hdistance.le fun htie => absurd htie hdistance.ne

/-- `n` are the `count` digits that `q` is rounded to, and `k` is the exponent of the rounded
number.  It is also at the place of that exponent that `q` is rounded to `n`. -/
structure RoundsTo (count : ℕ) (q : ℚ) (n : ℕ) (k : ℤ) : Prop where
  low : 10 ^ (count - 1) ≤ n
  high : n < 10 ^ count
  isRounded : IsRoundedTo count q (n * 10 ^ (k + 1 - count))
  isNearest : IsNearest Nat.cast (q * 10 ^ (count - 1 - k)) n

theorem RoundsTo.isExponent (h : RoundsTo count q n k) (hcount : 0 < count) :
    IsExponent (n * 10 ^ (k + 1 - count)) k := by
  rw [IsExponent, ← pow_mul_unit hcount k, ← pow_succ_mul_unit count k]
  exact ⟨mul_le_mul_of_nonneg_right (Nat.cast_le.mpr h.low) (ten_zpow_pos _).le,
    mul_lt_mul_of_pos_right (Nat.cast_lt.mpr h.high) (ten_zpow_pos _)⟩

/-- The digits and the exponent are determined by the number. -/
theorem RoundsTo.unique {n' : ℕ} {k' : ℤ} (h : RoundsTo count q n k) (h' : RoundsTo count q n' k')
    (hcount : 0 < count) : n = n' ∧ k = k' := by
  have hvalue := h.isRounded.unique h'.isRounded
  have hexponent := h'.isExponent hcount
  rw [← hvalue] at hexponent
  obtain rfl : k = k' := (h.isExponent hcount).unique hexponent
  have hn : (n : ℚ) = n' := mul_right_cancel₀ (ten_zpow_pos _).ne' hvalue
  exact ⟨Nat.cast_injective hn, rfl⟩

section Nearest
variable (hk : IsExponent q k) (hnear : IsNearest Nat.cast (q * 10 ^ (count - 1 - k)) n)
include hk hnear

theorem isRoundedTo_of_isNearest : IsRoundedTo count q (n * 10 ^ (k + 1 - count)) := by
  have hgrid := hnear.mul (ten_zpow_pos (k + 1 - count))
  rw [mul_assoc, scale_mul_unit, mul_one] at hgrid
  exact .intro hk hgrid

theorem pow_le_of_isNearest (hcount : 0 < count) : 10 ^ (count - 1) ≤ n := by
  refine hnear.le_of_point_le Nat.strictMono_cast ?_
  rw [← ten_zpow_mul_scale hcount k]
  exact mul_le_mul_of_nonneg_right hk.1 (ten_zpow_pos _).le

theorem le_pow_of_isNearest : n ≤ 10 ^ count := by
  refine hnear.le_of_le_point Nat.strictMono_cast ?_
  rw [← ten_zpow_succ_mul_scale count k]
  exact mul_le_mul_of_nonneg_right hk.2.le (ten_zpow_pos _).le

/-- A number that is rounded up to a power of ten has the exponent of that power. -/
theorem roundsTo_of_carry (hcount : 0 < count) (hcarry : n = 10 ^ count) :
    RoundsTo count q (10 ^ (count - 1)) (k + 1) := by
  have hten : n = 10 * 10 ^ (count - 1) := by
    rw [hcarry, ← pow_succ', Nat.sub_add_cancel hcount]
  refine ⟨le_refl _, Nat.pow_lt_pow_right (by decide) (by omega), ?_, ?_⟩
  · have hnext : k + 1 + 1 - count = 1 + (k + 1 - count) := by ring
    have hsame : (n : ℚ) * 10 ^ (k + 1 - count) =
        ((10 ^ (count - 1) : ℕ) : ℚ) * 10 ^ (k + 1 + 1 - count) := by
      rw [hten, hnext, ← ten_zpow_mul]
      push_cast
      ring
    exact hsame ▸ isRoundedTo_of_isNearest hk hnear
  · have htenth := isNearest_tenth (Nat.pow_pos (by decide)) (hten ▸ hnear)
    have hplace : (count : ℤ) - 1 - k = count - 1 - (k + 1) + 1 := by ring
    rwa [hplace, ← ten_zpow_mul, zpow_one, ← mul_assoc, mul_div_cancel_right₀ _ (by norm_num)]
      at htenth

end Nearest

/-- **A quotient is rounded to significant digits.** -/
theorem roundsTo_roundToDigits (hnum : 0 < num) (hden : 0 < den) (hcount : 0 < count) :
    RoundsTo count ((num : ℚ) / den) (roundToDigits num den count).1
      (roundToDigits num den count).2 := by
  have hk := isExponent_decimalExponent hnum hden
  have hplace : -(decimalExponent num den - (count - 1 : ℕ)) =
      (count : ℤ) - 1 - decimalExponent num den := by
    omega
  have hnear := isNearest_divHalfEven
    (scaleByTen num den (count - 1 - decimalExponent num den)).1
    (scaleByTen_den_pos hden num (count - 1 - decimalExponent num den))
  rw [scaleByTen_toRat] at hnear
  rw [roundToDigits, onGrid, hplace]
  generalize decimalExponent num den = k at *
  generalize divHalfEven _ _ = n at *
  by_cases hcarry : n = tenTo count
  · rw [if_pos hcarry]
    exact roundsTo_of_carry hk hnear hcount hcarry
  · rw [if_neg hcarry]
    exact ⟨pow_le_of_isNearest hk hnear hcount, (le_pow_of_isNearest hk hnear).lt_of_ne hcarry,
      isRoundedTo_of_isNearest hk hnear, hnear⟩

/-! ## The text of a rounded number -/

/-- No zero at the end of the decimals of a mantissa, and no point at its end. -/
def Trimmed (mantissa : List Char) : Prop :=
  '.' ∈ mantissa → ∀ c ∈ mantissa.getLast?, c ≠ '0' ∧ c ≠ '.'

/-- The text shows `r` with at most `count` significant digits: positionally if the exponent of `r`
is neither below `-4` nor `count` or more, otherwise with an exponent that has a sign and at least
two digits. -/
inductive Shows (count : ℕ) (r : ℚ) : List Char → Prop
  | positional {k : ℤ} {text : List Char} (hk : IsExponent r k) (hlow : -4 ≤ k) (hhigh : k < count)
    (hmantissa : Mantissa text r) (htrimmed : Trimmed text) : Shows count r text
  | scientific {k : ℤ} {a : ℚ} {mantissa places : List Char} {sign : Char} (hk : IsExponent r k)
    (hfar : k < -4 ∨ count ≤ k) (hmantissa : Mantissa mantissa a) (htrimmed : Trimmed mantissa)
    (hsign : sign = '+' ∨ sign = '-') (hplaces : 2 ≤ places.length)
    (hexponent : Exponent ('e' :: sign :: places) k) (hr : r = a * 10 ^ k) :
    Shows count r (mantissa ++ 'e' :: sign :: places)

variable {text whole decimals : List Char}

theorem Shows.denotes (h : Shows count r text) : Denotes text r := by
  cases h with
  | positional _ _ _ hmantissa _ =>
    have hdenotes := Denotes.intro hmantissa .absent
    rwa [List.append_nil, zpow_zero, mul_one] at hdenotes
  | scientific _ _ hmantissa _ _ _ hexponent hr => exact hr ▸ .intro hmantissa hexponent

theorem getLast?_dropTrailingZeros (s : List Char) :
    ∀ c ∈ (dropTrailingZeros s).getLast?, c ≠ '0' := by
  intro c hc
  have hhead := List.head?_dropWhile_not (· == '0') s.reverse
  rw [dropTrailingZeros, List.getLast?_reverse] at hc
  rw [Option.mem_def.mp hc] at hhead
  simpa using hhead

/-- The zeros that are left out at the end of the decimals do not count. -/
theorem mantissa_joinDecimals (hwhole : IsDigits whole)
    (hdecimals : ∀ c ∈ decimals, c.isDigit = true) :
    Mantissa (joinDecimals whole decimals)
      (value (whole ++ decimals) / 10 ^ decimals.length) := by
  obtain ⟨zeros, hzeros⟩ := exists_dropTrailingZeros decimals
  have hkept : ∀ c ∈ dropTrailingZeros decimals, c.isDigit = true := fun c hc =>
    hdecimals c (hzeros ▸ List.mem_append_left _ hc)
  have hvalue : (value (whole ++ decimals) : ℚ) / 10 ^ decimals.length =
      value (whole ++ dropTrailingZeros decimals) / 10 ^ (dropTrailingZeros decimals).length := by
    conv_lhs => rw [hzeros]
    rw [← List.append_assoc, value_append_zeros, List.length_append, List.length_replicate, pow_add,
      Nat.cast_mul, cast_tenTo]
    exact mul_div_mul_right _ _ (by positivity)
  rw [hvalue, joinDecimals]
  cases hd : dropTrailingZeros decimals with
  | nil => simpa using Mantissa.digits hwhole
  | cons c rest => exact .point hwhole (hd ▸ hkept)

theorem trimmed_joinDecimals (hwhole : ∀ c ∈ whole, c.isDigit = true)
    (hdecimals : ∀ c ∈ decimals, c.isDigit = true) : Trimmed (joinDecimals whole decimals) := by
  obtain ⟨zeros, hzeros⟩ := exists_dropTrailingZeros decimals
  have hlast := getLast?_dropTrailingZeros decimals
  rw [joinDecimals]
  cases hd : dropTrailingZeros decimals with
  | nil =>
    intro hpoint
    exact absurd (hwhole _ hpoint) (by decide)
  | cons c rest =>
    rintro - d hend
    have hend : d ∈ (c :: rest).getLast? := by
      rwa [List.getLast?_append_of_ne_nil _ (List.cons_ne_nil _ _), List.getLast?_cons_cons] at hend
    have hdigit : d.isDigit = true :=
      hdecimals d (hzeros ▸ List.mem_append_left _ (hd ▸ List.mem_of_getLast? hend))
    refine ⟨hlast d (hd ▸ hend), ?_⟩
    rintro rfl
    cases hdigit

theorem exists_exponentText (k : ℤ) : ∃ sign places, exponentText k = sign :: places ∧
    (sign = '+' ∨ sign = '-') ∧ 2 ≤ places.length ∧ Exponent ('e' :: sign :: places) k := by
  have hplaces : IsDigits (digitsIn 2 k.natAbs) :=
    ⟨List.append_ne_nil_of_right_ne_nil _ (digits_ne_nil _), Shown.isDigit_digitsIn _ _⟩
  have hvalue := value_digitsIn 2 k.natAbs
  have hlength := le_length_digitsIn 2 k.natAbs
  rw [exponentText]
  generalize digitsIn 2 k.natAbs = places at *
  by_cases hk : k < 0
  · have hexponent : Exponent ('e' :: '-' :: places) _ := .minus (.inl rfl) hplaces
    have hsize : -(value places : ℤ) = k := by omega
    rw [hsize] at hexponent
    rw [if_pos hk]
    exact ⟨_, _, rfl, .inr rfl, hlength, hexponent⟩
  · have hexponent : Exponent ('e' :: '+' :: places) _ := .plus (.inl rfl) hplaces
    have hsize : (value places : ℤ) = k := by omega
    rw [hsize] at hexponent
    rw [if_neg hk]
    exact ⟨_, _, rfl, .inl rfl, hlength, hexponent⟩

/-- The digits of a number with a point in front of the last `places` of them. -/
theorem exists_decimals (n places : ℕ) : ∃ decimals,
    (if places = 0 then [] else digitsIn places (n % tenTo places)) = decimals ∧
    (∀ c ∈ decimals, c.isDigit = true) ∧ decimals.length = places ∧
    value (digits (n / tenTo places) ++ decimals) = n := by
  by_cases hplaces : places = 0
  · subst hplaces
    rw [if_pos rfl, tenTo_zero, Nat.div_one]
    exact ⟨[], rfl, List.forall_mem_nil _, rfl, by rw [List.append_nil, value_digits]⟩
  · have hlength : (digitsIn places (n % tenTo places)).length = places :=
      length_digitsIn (Nat.mod_lt n (tenTo_pos places)) hplaces
    rw [if_neg hplaces]
    refine ⟨_, rfl, Shown.isDigit_digitsIn _ _, hlength, ?_⟩
    rw [value_append, hlength, value_digits, value_digitsIn]
    exact Nat.div_add_mod' n _

/-- The number `n` with a point in front of the last `places` of its digits. -/
def withDecimals (n places : ℕ) : List Char :=
  joinDecimals (digits (n / tenTo places))
    (if places = 0 then [] else digitsIn places (n % tenTo places))

/-- The text of a number that is rounded to the `count` digits `n`, the first of which has the
exponent `k`. -/
def roundedText (count n : ℕ) (k : ℤ) : List Char :=
  if k < leastPositional ∨ (count : ℤ) ≤ k then withExponent n k
  else withDecimals n ((count : ℤ) - 1 - k).toNat

section Text
variable (h : RoundsTo count q n k) (hcount : 0 < count)
include h hcount

theorem withExponent_shows (hfar : k < -4 ∨ count ≤ k) :
    Shows count (n * 10 ^ (k + 1 - count)) (withExponent n k) := by
  have hlength : (digits n).length = count - 1 + 1 :=
    length_digits h.low ((Nat.sub_add_cancel hcount).symm ▸ h.high)
  have hvalue := value_digits n
  have hall := isDigit_digits n
  obtain ⟨c, rest, hdigits, hc⟩ := exists_digits n
  rw [hdigits] at hlength hvalue hall
  obtain ⟨-, hrest⟩ := List.forall_mem_cons.mp hall
  have hfirst : IsDigits [c] := ⟨List.cons_ne_nil _ _, List.forall_mem_singleton.mpr hc⟩
  have hmantissa := mantissa_joinDecimals hfirst hrest
  have hrest_length : (rest.length : ℤ) = count - 1 := by
    rw [List.length_cons] at hlength
    omega
  have hr : (n : ℚ) * 10 ^ (k + 1 - count) = value ([c] ++ rest) / 10 ^ rest.length * 10 ^ k := by
    have hexponent : k + 1 - count = k - (rest.length : ℕ) := by omega
    rw [List.singleton_append, hvalue, hexponent, zpow_sub₀ (by norm_num), zpow_natCast]
    ring
  obtain ⟨sign, places, htext, hsign, hplaces, hexponent⟩ := exists_exponentText k
  rw [withExponent, hdigits, htext]
  exact .scientific (h.isExponent hcount) hfar hmantissa (trimmed_joinDecimals hfirst.2 hrest) hsign
    hplaces hexponent hr

theorem withDecimals_shows (hlow : -4 ≤ k) (hhigh : k < count) :
    Shows count (n * 10 ^ (k + 1 - count)) (withDecimals n ((count : ℤ) - 1 - k).toNat) := by
  have hplaces : (((count : ℤ) - 1 - k).toNat : ℤ) = count - 1 - k :=
    Int.toNat_of_nonneg (by omega)
  generalize ((count : ℤ) - 1 - k).toNat = places at *
  obtain ⟨decimals, hdecimals, hall, hlength, hvalue⟩ := exists_decimals n places
  have hwhole : IsDigits (digits (n / tenTo places)) := ⟨digits_ne_nil _, isDigit_digits _⟩
  have hmantissa := mantissa_joinDecimals hwhole hall
  have hr : (n : ℚ) / 10 ^ places = n * 10 ^ (k + 1 - count) := by
    have hexponent : k + 1 - count = -(places : ℤ) := by omega
    rw [hexponent, zpow_neg, zpow_natCast, div_eq_mul_inv]
  rw [hvalue, hlength, hr] at hmantissa
  rw [withDecimals, hdecimals]
  exact .positional (h.isExponent hcount) hlow hhigh hmantissa (trimmed_joinDecimals hwhole.2 hall)

/-- The text of a rounded number shows it. -/
theorem roundedText_shows : Shows count (n * 10 ^ (k + 1 - count)) (roundedText count n k) := by
  rw [roundedText]
  by_cases hfar : k < leastPositional ∨ (count : ℤ) ≤ k
  · rw [if_pos hfar]
    exact withExponent_shows h hcount hfar
  · obtain ⟨hlow, hhigh⟩ := not_or.mp hfar
    rw [if_neg hfar]
    exact withDecimals_shows h hcount (not_lt.mp hlow) (not_le.mp hhigh)

end Text

/-- The second rounding, to decimals, finds the digits of the first one. -/
theorem fixed_eq (h : RoundsTo count ((num : ℚ) / den) n k) (hden : 0 < den) (hhigh : k < count) :
    fixed num den ((count : ℤ) - 1 - k).toNat = withDecimals n ((count : ℤ) - 1 - k).toNat := by
  have hplaces : (((count : ℤ) - 1 - k).toNat : ℤ) = count - 1 - k :=
    Int.toNat_of_nonneg (by omega)
  generalize ((count : ℤ) - 1 - k).toNat = places at *
  have hsame : divHalfEven (num * tenTo places) den = n := by
    have hnear := isNearest_divHalfEven (num * tenTo places) hden
    have hagain := h.isNearest
    rw [← hplaces, zpow_natCast, ← cast_tenTo, div_mul_eq_mul_div, ← Nat.cast_mul] at hagain
    exact hnear.unique Nat.strictMono_cast hagain
  rw [fixed, hsame]
  rfl

/-- **The digits that a number is rounded to decide its text.** -/
theorem general_eq (h : RoundsTo count ((num : ℚ) / den) n k) (hnum : 0 < num) (hden : 0 < den)
    (hcount : 0 < count) : general num den count = roundedText count n k := by
  obtain ⟨hn, hk⟩ := (roundsTo_roundToDigits hnum hden hcount).unique h hcount
  rw [general]
  dsimp only
  rw [hn, hk, roundedText]
  by_cases hfar : k < leastPositional ∨ (count : ℤ) ≤ k
  · rw [if_pos hfar, if_pos hfar]
  · rw [if_neg hfar, if_neg hfar]
    exact fixed_eq h hden (not_le.mp (not_or.mp hfar).2)

section Display
variable {s : Bool} {m : Magnitude} (hwhole : (Binary64.finite s m).toInt? = none)
include hwhole

theorem units_pos_of_toInt? : 0 < m.units := by
  refine Nat.pos_of_ne_zero fun hzero => ?_
  rw [Binary64.toInt?, hzero, Nat.zero_mod, if_pos rfl] at hwhole
  cases hwhole

/-- A number that is not whole is rounded to twelve digits. -/
theorem exists_roundsTo : ∃ n k, RoundsTo 12 m.toRat n k :=
  ⟨_, _, roundsTo_roundToDigits (units_pos_of_toInt? hwhole) unitsPerOne_pos (Nat.succ_pos 11)⟩

/-- Its text is that of the digits, with its sign. -/
theorem display_of_roundsTo (h : RoundsTo 12 m.toRat n k) :
    display (.finite s m) = (if s then ['-'] else []) ++ roundedText 12 n k := by
  have htext := general_eq h (units_pos_of_toInt? hwhole) unitsPerOne_pos (Nat.succ_pos 11)
  rw [display_eq, displayBy_of_none hwhole, ← htext]
  rfl

end Display

/-- **The text of a finite number.**  A whole number is written as an integer.  Any other number is
rounded to twelve significant digits, and the text denotes the rounded number. -/
theorem display_exact (s : Bool) (m : Magnitude) :
    (∃ n, (Value.real (.finite s m)).IsWhole n ∧
      display (.finite s m) = (toString n).toList) ∨
    ((¬ ∃ n, (Value.real (.finite s m)).IsWhole n) ∧ ∃ r text, IsRoundedTo 12 m.toRat r ∧
      Shows 12 r text ∧ display (.finite s m) = (if s then ['-'] else []) ++ text) := by
  cases hwhole : (Binary64.finite s m).toInt? with
  | some n =>
    refine .inl ⟨n, Value.isWhole_iff.mpr hwhole, ?_⟩
    rw [display_of_toInt? hwhole, integer_eq_toString]
  | none =>
    obtain ⟨n, k, h⟩ := exists_roundsTo hwhole
    exact .inr ⟨Value.toInt?_eq_none_iff.mp hwhole, _, _, h.isRounded,
      roundedText_shows h (Nat.succ_pos 11), display_of_roundsTo hwhole h⟩

/-! A number just below a power of ten is rounded up to it, with a decimal less or an exponent. -/

example : display (.ofRatio false 99999999999996 10000000000000) = "10".toList := by decide +kernel
example : display (.ofRatio false 9999999999996 10) = "1e+12".toList := by decide +kernel
example : display (.ofRatio true 9999999999996 100000000000000000) = "-0.0001".toList := by
  decide +kernel

end SciCalc.Decimal
