import SciCalc.Proofs.RoundingError
import SciCalc.Proofs.SignificantDigits
import SciCalc.Proofs.TokenText
import SciCalc.Proofs.TypedText
import SciCalc.Window

/-! # Results are evaluated again

A result that is a whole number, exact or in floating point, stands on the display with all its
digits.  Evaluated again, this text is the exact integer (`calculate_integer`): the lexer reads its
digits as one numeral, and a minus sign in front of a numeral is an operator that negates it
(`calculate_numeral`).  So the display stays as it is (`evaluate_evaluate`).

Any other result stands there rounded to twelve digits.  Evaluated again, its text has the value
nearest to the rounded number, or it is an integer.  The value need not be the one that was shown,
but its text is the same (`calculate_display`).
-/
namespace SciCalc

/-! ## Whole results -/

/-- A whole value is shown as the integer that it is. -/
theorem Value.IsWhole.display_eq {v : Value} {n : Int} (h : v.IsWhole n) :
    v.display = Decimal.integer n := by
  cases h with
  | int => rfl
  | real h => exact Decimal.display_of_toInt? (Binary64.toInt?_of_units h)

/-! ### Numerals -/

section Numerals
open Decimal
variable {text : List Char} {q : ℚ} {v : Value}

/-- The characters of numerals are allowed. -/
theorem isAllowed_of_denotes (h : Denotes text q) : ∀ c ∈ text, Input.isAllowed c = true := by
  have hmarks : numeralMarks.all Input.isAllowed = true := rfl
  refine fun c hc => (h.chars c hc).elim (fun hdigit => ?_) (List.all_eq_true.mp hmarks c)
  simp [Input.isAllowed, Char.isAlphanum, hdigit]

/-- A numeral, with or without a minus sign in front of it, is in the form that the lexer reads. -/
theorem normalize_numeral (s : Bool) (h : Denotes text q) :
    Input.normalize ((if s then ['-'] else []) ++ text) =
      .ok ((if s then ['-'] else []) ++ text) := by
  have hsign : ∀ c ∈ (if s then ['-'] else []),
      Input.isAllowed c = true ∧ Text.isBlank c = false := by
    cases s with
    | false => exact List.forall_mem_nil _
    | true => exact List.forall_mem_singleton.mpr ⟨rfl, rfl⟩
  have hall : ∀ c ∈ (if s then ['-'] else []) ++ text,
      Input.isAllowed c = true ∧ Text.isBlank c = false :=
    List.forall_mem_append.mpr ⟨hsign, fun c hc =>
      ⟨isAllowed_of_denotes h c hc, Lexer.not_blank_of_denotes h c hc⟩⟩
  exact Input.normalize_of_allowed
    (Text.trimmed_of_forall fun c hc => ne_true_of_eq_false (hall c hc).2)
    fun c hc => (hall c hc).1

/-- A numeral is one token. -/
theorem ofChars_of_denotes (h : Denotes text q) (hv : Lexer.numeralValue text = .ok v) :
    Token.ofChars text = .ok [.num v] := by
  have hlongest : Lexer.Longest text (.num v) [] :=
    Lexer.longest_before_blank (Lexer.lexeme_of_numeralValue h hv) nofun
  have hcut := Lexer.Cut.lexeme hlongest (.done [])
  rw [List.append_nil] at hcut
  exact Token.ofChars_eq_ok_iff.mpr hcut

/-- **A numeral has its value, and with a minus sign in front of it the negated one**, in either
mode. -/
theorem calculate_numeral (mode : AngleMode) (s : Bool) (h : Denotes text q)
    (hv : Lexer.numeralValue text = .ok v) :
    calculate mode (String.ofList ((if s then ['-'] else []) ++ text)) =
      .ok (some (if s then v.neg else v)) := by
  have htree : Expr.ofChars ((if s then ['-'] else []) ++ text) =
      .ok (if s then .neg (.num v) else .num v) := by
    have htokens := ofChars_of_denotes h hv
    cases s with
    | false =>
      show Expr.ofChars text = _
      rw [Expr.ofChars, htokens]
      rfl
    | true =>
      show Expr.ofChars ('-' :: text) = _
      rw [Expr.ofChars, Token.ofChars_mark (t := .op .sub) rfl, htokens]
      rfl
  have hne : ((if s then ['-'] else []) ++ text).isEmpty = false := by
    simp [h.ne_nil]
  rw [calculate, String.toList_ofList, normalize_numeral s h]
  generalize (if s then ['-'] else []) ++ text = shown at *
  show (if shown.isEmpty then _ else _) = _
  rw [hne]
  show (Expr.ofChars shown >>= _) = _
  rw [htree]
  cases s <;> rfl

/-- **The text of an integer has the integer as its value**, in either mode. -/
theorem calculate_integer (mode : AngleMode) (n : Int) :
    calculate mode (String.ofList (integer n)) = .ok (some (.int n)) := by
  have hdigits : IsDigits (digits n.natAbs) := ⟨digits_ne_nil _, isDigit_digits _⟩
  have hvalue := Lexer.numeralValue_of_isDigits hdigits
  rw [value_digits] at hvalue
  by_cases hneg : n < 0
  · have hcalculate := calculate_numeral mode true hdigits.denotes hvalue
    have hn : -(n.natAbs : Int) = n := by omega
    rw [integer, if_pos hneg]
    refine hcalculate.trans ?_
    exact congrArg (fun i => Except.ok (some (Value.int i))) hn
  · have hcalculate := calculate_numeral mode false hdigits.denotes hvalue
    have hn : (n.natAbs : Int) = n := by omega
    rw [integer, if_neg hneg]
    refine hcalculate.trans ?_
    exact congrArg (fun i => Except.ok (some (Value.int i))) hn

end Numerals

/-! ### Evaluating twice -/

namespace Calculator
variable {c : Calculator} {v : Value} {n : Int}

/-- **A whole result is evaluated to itself.**  If the display has a whole value, evaluating it
shows that integer; evaluating it once more leaves the display as it is, and adds the text on it to
the history with the exact integer as its value. -/
theorem evaluate_evaluate (h : c.session.calculate c.display = .ok (some v)) (hv : v.IsWhole n) :
    c.evaluate.display = String.ofList (Decimal.integer n) ∧
    Decimal.integer? c.evaluate.display.toList = some n ∧
    c.evaluate.evaluate.display = c.evaluate.display ∧
    c.evaluate.evaluate.session.history =
      c.evaluate.session.history ++ [⟨c.evaluate.display, .int n⟩] := by
  have hshown : c.evaluate.display = String.ofList (Decimal.integer n) := by
    rw [evaluate, Session.evaluate_of_value h, hv.display_eq]
  have hagain : c.evaluate.session.calculate c.evaluate.display = .ok (some (.int n)) := by
    rw [hshown]
    exact calculate_integer _ n
  refine ⟨hshown, ?_, ?_, ?_⟩
  · rw [hshown, String.toList_ofList, Decimal.integer?_integer]
  · rw [evaluate, Session.evaluate_of_value hagain, hshown]
    rfl
  · rw [evaluate, Session.evaluate_of_value hagain]
    rfl

/-- A large negative result in floating point is evaluated again as an exact integer, and the
negative zero as zero. -/
theorem evaluate_evaluate_of_reals :
    let large : Calculator := { display := "-0.5*2*10^22" }
    let zero : Calculator := { display := "-0.0" }
    (∃ v, large.session.calculate large.display = .ok (some v) ∧ v.IsWhole (-10 ^ 22) ∧
      large.evaluate.display = String.ofList (Decimal.integer (-10 ^ 22)) ∧
      large.evaluate.evaluate.session.history =
        large.evaluate.session.history ++ [⟨large.evaluate.display, .int (-10 ^ 22)⟩]) ∧
    ∃ v, zero.session.calculate zero.display = .ok (some v) ∧ v.IsWhole 0 ∧
      zero.evaluate.evaluate.display = zero.evaluate.display := by
  intro large zero
  have hlarge : large.session.calculate large.display =
      .ok (some (.real (.finite true ⟨4936209963552724370, by decide⟩))) := by decide +kernel
  have hzero : zero.session.calculate zero.display = .ok (some (.real (.finite true .zero))) := by
    decide +kernel
  have hlargeWhole : Value.IsWhole (.real (.finite true ⟨4936209963552724370, by decide⟩))
      (-10 ^ 22) := .real (by decide +kernel)
  have hzeroWhole : Value.IsWhole (.real (.finite true .zero)) 0 := .real (by decide +kernel)
  obtain ⟨hshown, -, -, hhistory⟩ := evaluate_evaluate hlarge hlargeWhole
  obtain ⟨-, -, hsame, -⟩ := evaluate_evaluate hzero hzeroWhole
  exact ⟨⟨_, hlarge, hlargeWhole, hshown, hhistory⟩, ⟨_, hzero, hzeroWhole, hsame⟩⟩

end Calculator

/-! ## Results with a fraction

The value that was shown is a number of the format itself.  The number nearest to the rounded one is
no farther from it, so it is rounded to the same digits (`RoundsTo.isNearest_again`).  What can
differ is the exponent: where the rounded number is a power of ten and the nearest number is below
it, the last digit stands for a unit ten times smaller.  There the nearest number is so near that it
is rounded up to the power again, for numbers with a full significand are rounded with a small
relative error (`RoundsTo.again`).
-/

namespace Decimal
open Binary64 (IsRounded)

variable {count n w : ℕ} {k : ℤ} {q r : ℚ} {s : Bool} {m nearest : Magnitude}

/-! ### The number nearest to a rounded number -/

/-- A distance in units of the last digit. -/
theorem abs_scaled_sub (q : ℚ) (n count : ℕ) (k : ℤ) :
    |q * 10 ^ ((count : ℤ) - 1 - k) - n| =
      |n * 10 ^ (k + 1 - count) - q| * 10 ^ ((count : ℤ) - 1 - k) := by
  have hunit := scale_mul_unit count k
  have hscale := ten_zpow_pos ((count : ℤ) - 1 - k)
  rw [abs_sub_comm, ← abs_of_pos hscale, ← abs_mul, abs_of_pos hscale, sub_mul, mul_assoc,
    mul_comm ((10 : ℚ) ^ (k + 1 - count)), hunit, mul_one]

theorem RoundsTo.pos (h : RoundsTo count q n k) : 0 < n :=
  (Nat.pow_pos (by decide)).trans_le h.low

/-- The number nearest to the rounded one is rounded to the same digits. -/
theorem RoundsTo.isNearest_again (h : RoundsTo count m.toRat n k)
    (hround : IsRounded s (n * 10 ^ (k + 1 - count)) (.finite s nearest)) :
    IsNearest Nat.cast (nearest.toRat * 10 ^ ((count : ℤ) - 1 - k)) n := by
  refine h.isNearest.of_closer h.pos ?_
  rw [abs_scaled_sub, abs_scaled_sub]
  exact mul_le_mul_of_nonneg_right (hround.isNearest.nearest m.rank) (ten_zpow_pos _).le

/-- There is no power of ten between the half of the least normal number and that number. -/
theorem leastNormal_le_zpow (h : leastNormal ≤ 2 * 10 ^ k) : leastNormal ≤ 10 ^ k := by
  have hpow : (0 : ℚ) < twoTo 1022 := Nat.cast_pos.mpr (twoTo_pos 1022)
  have hsmall : (2 : ℚ) * 10 ^ (-308 : ℤ) < leastNormal := by
    have hlt : 2 * twoTo 1022 < tenTo 308 := by decide +kernel
    have hlt' : (2 : ℚ) * twoTo 1022 < 10 ^ 308 := by
      rw [← cast_tenTo]
      exact_mod_cast hlt
    rw [leastNormal, lt_div_iff₀ hpow, zpow_neg, ← div_eq_mul_inv, div_mul_eq_mul_div]
    exact (div_lt_one (ten_zpow_pos 308)).mpr hlt'
  have hlarge : leastNormal ≤ (10 : ℚ) ^ (-307 : ℤ) := by
    have hle : tenTo 307 ≤ twoTo 1022 := by decide +kernel
    have hle' : (10 : ℚ) ^ 307 ≤ twoTo 1022 := by
      rw [← cast_tenTo]
      exact_mod_cast hle
    rw [leastNormal, zpow_neg, one_div]
    exact inv_anti₀ (ten_zpow_pos 307) hle'
  have hk : -308 < k := by
    by_contra hle
    have hmono : (10 : ℚ) ^ k ≤ 10 ^ (-308 : ℤ) :=
      zpow_le_zpow_right₀ (by norm_num) (not_lt.mp hle)
    linarith
  exact hlarge.trans (zpow_le_zpow_right₀ (by norm_num) (by omega))

/-- A number that is rounded to a power of ten is less than twice that power. -/
theorem RoundsTo.le_two_mul (h : RoundsTo count q n k) (hcount : 0 < count)
    (hn : n = 10 ^ (count - 1)) : q ≤ 2 * 10 ^ k := by
  have hclose := (abs_le.mp (h.isNearest.distance_le h.pos)).2
  have hone : (1 : ℚ) ≤ n := Nat.one_le_cast.mpr h.pos
  refine le_of_mul_le_mul_right ?_ (ten_zpow_pos ((count : ℤ) - 1 - k))
  rw [mul_assoc, ten_zpow_mul_scale hcount, ← hn]
  linarith

/-- A number is rounded to the digits that it is nearest to if it is not below the power of ten of
the first of them. -/
theorem RoundsTo.of_isNearest (h : RoundsTo count q n k)
    (hnear : IsNearest Nat.cast (r * 10 ^ ((count : ℤ) - 1 - k)) n) (hlow : 10 ^ k ≤ r) :
    RoundsTo count r n k := by
  have hscale := ten_zpow_pos ((count : ℤ) - 1 - k)
  have hhigh : r < 10 ^ (k + 1) := by
    have hclose := (abs_le.mp (hnear.distance_le h.pos)).2
    have hn : (n : ℚ) + 1 ≤ (10 ^ count : ℕ) := by exact_mod_cast h.high
    rw [← ten_zpow_succ_mul_scale count k] at hn
    exact lt_of_mul_lt_mul_right (by linarith) hscale.le
  have hk : IsExponent r k := ⟨hlow, hhigh⟩
  exact ⟨h.low, h.high, isRoundedTo_of_isNearest hk hnear, hnear⟩

/-- The digits that a number below that power is nearest to are those of the power itself. -/
theorem RoundsTo.eq_pow_of_lt (h : RoundsTo count q n k) (hcount : 0 < count)
    (hnear : IsNearest Nat.cast (r * 10 ^ ((count : ℤ) - 1 - k)) n) (hlt : r < 10 ^ k) :
    n = 10 ^ (count - 1) := by
  refine le_antisymm ?_ h.low
  have hclose := (abs_le.mp (hnear.distance_le h.pos)).1
  have hscaled := mul_lt_mul_of_pos_right hlt (ten_zpow_pos ((count : ℤ) - 1 - k))
  rw [ten_zpow_mul_scale hcount] at hscaled
  have hcast : (n : ℚ) < (10 ^ (count - 1) + 1 : ℕ) := by
    rw [Nat.cast_succ]
    linarith
  exact Nat.lt_succ_iff.mp (Nat.cast_lt.mp hcast)

/-- What is below a power of ten by no more than a rounding error is rounded up to it. -/
theorem roundsTo_of_just_below (hcount : 0 < count) (hdigits : count ≤ 15) (hlt : r < 10 ^ k)
    (herror : |r - 10 ^ k| ≤ 10 ^ k * roundingError) : RoundsTo count r (10 ^ (count - 1)) k := by
  have hk : IsExponent r (k - 1) := by
    have hprevious : (10 : ℚ) ^ k = 10 * 10 ^ (k - 1) := by
      rw [← zpow_one_add₀ (by norm_num), add_sub_cancel]
    have hhalf : (10 : ℚ) ^ k * roundingError ≤ 10 ^ k * (1 / 2) :=
      mul_le_mul_of_nonneg_left (by rw [roundingError]; norm_num) (ten_zpow_pos k).le
    have hpositive := ten_zpow_pos (k - 1)
    refine ⟨by linarith [(abs_le.mp herror).1], ?_⟩
    rwa [sub_add_cancel]
  -- In units that are ten times smaller, the power is `10 ^ count`.
  have hscale := ten_zpow_pos ((count : ℤ) - 1 - (k - 1))
  have hvalue : ((10 ^ count : ℕ) : ℚ) = 10 ^ k * 10 ^ ((count : ℤ) - 1 - (k - 1)) := by
    rw [← ten_zpow_succ_mul_scale count (k - 1), sub_add_cancel]
  have hdistance : |r * 10 ^ ((count : ℤ) - 1 - (k - 1)) - (10 ^ count : ℕ)| ≤
      (10 ^ count : ℕ) * roundingError := by
    rw [hvalue, ← sub_mul, abs_mul, abs_of_pos hscale, mul_right_comm]
    exact mul_le_mul_of_nonneg_right herror hscale.le
  have hsmall : (10 ^ count : ℕ) * roundingError < 1 / 2 := by
    have hle : ((10 ^ count : ℕ) : ℚ) ≤ (10 ^ 15 : ℕ) :=
      Nat.cast_le.mpr (Nat.pow_le_pow_right (by decide) hdigits)
    refine (mul_le_mul_of_nonneg_right hle roundingError_pos.le).trans_lt ?_
    rw [roundingError]
    norm_num
  have hcarry : IsNearest Nat.cast (r * 10 ^ ((count : ℤ) - 1 - (k - 1))) (10 ^ count) :=
    isNearest_of_half_unit (by linarith) fun htie => by linarith
  have hrounded := roundsTo_of_carry hk hcarry hcount rfl
  rwa [sub_add_cancel] at hrounded

/-- **Rounding twice, with the nearest number of the format in between.** -/
theorem RoundsTo.again (h : RoundsTo count m.toRat n k) (hcount : 0 < count) (hdigits : count ≤ 15)
    (hm : leastNormal ≤ m.toRat)
    (hround : IsRounded s (n * 10 ^ (k + 1 - count)) (.finite s nearest)) :
    RoundsTo count nearest.toRat n k := by
  have hnear := h.isNearest_again hround
  rcases le_or_gt (10 ^ k) nearest.toRat with hle | hlt
  · exact h.of_isNearest hnear hle
  · have hn := h.eq_pow_of_lt hcount hnear hlt
    have hpow := leastNormal_le_zpow (hm.trans (h.le_two_mul hcount hn))
    rw [hn, pow_mul_unit hcount] at hround
    rw [hn]
    exact roundsTo_of_just_below hcount hdigits hlt (hround.error_le hpow)

/-! ### Texts that look like integers -/

theorem dropTrailingZeros_eq_nil {t : List Char} (h : ∀ c ∈ t, c = '0') :
    dropTrailingZeros t = [] := by
  have hall : ∀ c ∈ t.reverse, (c == '0') = true := fun c hc => by
    rw [h c (List.mem_reverse.mp hc)]
    rfl
  rw [dropTrailingZeros, List.dropWhile_eq_nil_iff.mpr hall, List.reverse_nil]

/-- A whole number has no decimals. -/
theorem withDecimals_of_whole (w places : ℕ) :
    withDecimals (w * tenTo places) places = digits w := by
  have hzeros : ∀ c ∈ (if places = 0 then [] else digitsIn places 0), c = '0' := by
    split
    · exact List.forall_mem_nil _
    · exact List.forall_mem_append.mpr ⟨fun c hc => List.eq_of_mem_replicate hc,
        List.forall_mem_singleton.mpr rfl⟩
  rw [withDecimals, Nat.mul_div_cancel _ (tenTo_pos places), Nat.mul_mod_left, joinDecimals,
    dropTrailingZeros_eq_nil hzeros]

/-- Only a whole number is rounded to a whole one and equal to it. -/
theorem RoundsTo.eq_of_whole (h : RoundsTo count (w : ℚ) n k) (hk : k < count) :
    n = w * tenTo ((count : ℤ) - 1 - k).toNat := by
  have hplaces : (((count : ℤ) - 1 - k).toNat : ℤ) = count - 1 - k :=
    Int.toNat_of_nonneg (by omega)
  have hnear := h.isNearest
  rw [← hplaces, zpow_natCast, ← cast_tenTo, ← Nat.cast_mul] at hnear
  generalize w * tenTo ((count : ℤ) - 1 - k).toNat = i at *
  have hself : IsNearest Nat.cast (i : ℚ) i := isNearest_of_half_unit (by simp) (by simp)
  exact hnear.unique Nat.strictMono_cast hself

/-- A whole number of so many digits is written with digits only. -/
theorem RoundsTo.roundedText_of_whole (h : RoundsTo count (w : ℚ) n k) (hk : k < count) :
    roundedText count n k = digits w := by
  have hn := h.eq_of_whole hk
  have hnonneg : 0 ≤ k := by
    by_contra hneg
    have hw : 0 < w := Nat.pos_of_ne_zero fun hzero => by
      rw [hzero, Nat.zero_mul] at hn
      exact h.pos.ne' hn
    have hplaces : count ≤ ((count : ℤ) - 1 - k).toNat := by omega
    have hlarge : 10 ^ count ≤ n := by
      rw [hn]
      exact (tenTo_le_tenTo hplaces).trans (Nat.le_mul_of_pos_left _ hw)
    exact hlarge.not_gt h.high
  have hnear : ¬ (k < leastPositional ∨ (count : ℤ) ≤ k) := by
    rw [leastPositional]
    omega
  rw [roundedText, if_neg hnear, hn, withDecimals_of_whole]

/-- The text of a rounded number that has digits only is written as a whole number is. -/
theorem exists_digits_of_roundedText (h : IsDigits (roundedText count n k)) :
    ∃ w, roundedText count n k = digits w := by
  have hletter : ∀ {c : Char}, c.isDigit = false → c ∉ roundedText count n k :=
    fun hc hmem => absurd (h.2 _ hmem) (ne_true_of_eq_false hc)
  by_cases hfar : k < leastPositional ∨ (count : ℤ) ≤ k
  · obtain ⟨c, rest, hdigits, -⟩ := exists_digits n
    refine absurd ?_ (hletter (c := 'e') rfl)
    rw [roundedText, if_pos hfar, withExponent, hdigits]
    exact List.mem_append_right _ List.mem_cons_self
  · have hpoint := hletter (c := '.') rfl
    rw [roundedText, if_neg hfar, withDecimals, joinDecimals] at hpoint ⊢
    split at hpoint
    · exact ⟨_, rfl⟩
    · exact absurd (List.mem_append_right _ List.mem_cons_self) hpoint

/-- A number with an exponent of `count` or more is written with a plus sign. -/
theorem lt_of_roundedText (h : ¬ ['e', '+'] <:+: roundedText count n k) : k < count := by
  by_contra hge
  have hfar : k < leastPositional ∨ (count : ℤ) ≤ k := .inr (not_lt.mp hge)
  have hsign : ¬ k < 0 := by omega
  obtain ⟨c, rest, hdigits, -⟩ := exists_digits n
  refine h ⟨joinDecimals [c] rest, digitsIn 2 k.natAbs, ?_⟩
  rw [roundedText, if_pos hfar, withExponent, hdigits, exponentText, if_neg hsign]
  simp

end Decimal

/-! ### Evaluating again -/

section Again
open Decimal
open Binary64 (IsRounded)
variable {n w : ℕ} {k : ℤ} {q : ℚ} {s : Bool} {x : Binary64} {m : Magnitude}

theorem Binary64.toInt?_eq_none_of_ne (h : ∀ w : ℕ, m.toRat ≠ w) : (finite s m).toInt? = none := by
  rw [toInt?, if_neg]
  intro hmod
  exact h _ (Magnitude.toRat_of_whole (Nat.div_mul_cancel (Nat.dvd_of_mod_eq_zero hmod)).symm)

/-- A rounded number below `10 ^ 12` is read as a finite one. -/
theorem exists_finite_of_isRounded (h : RoundsTo 12 q n k) (hk : k < 12)
    (hround : IsRounded s (n * 10 ^ (k + 1 - (12 : ℕ))) x) : ∃ m, x = .finite s m := by
  obtain ⟨top, htop⟩ := Binary64.exists_units_whole (show 10 ^ 12 < 2 * binade by decide)
  have hbound : (n : ℚ) * 10 ^ (k + 1 - (12 : ℕ)) ≤ top.toRat := by
    have hpow : (10 : ℚ) ^ (k + 1) ≤ 10 ^ (12 : ℤ) :=
      zpow_le_zpow_right₀ (by norm_num) (by omega)
    rw [Magnitude.toRat_of_whole htop, Nat.cast_pow, Nat.cast_ofNat]
    exact (h.isExponent (by decide)).2.le.trans (by exact_mod_cast hpow)
  obtain ⟨m, hm, -⟩ := hround.exists_le hbound
  exact ⟨m, hm⟩

theorem display_signed_int (hw : 0 < w) (s : Bool) :
    (if s then (Value.int w).neg else .int w).display = (if s then ['-'] else []) ++ digits w := by
  cases s with
  | false =>
    show integer w = digits w
    rw [integer, if_neg (by omega), Int.natAbs_natCast]
  | true =>
    show integer (-w) = '-' :: digits w
    rw [integer, if_pos (by omega), Int.natAbs_neg, Int.natAbs_natCast]

/-- **A result with a fraction is evaluated to the same text.**  The text of a finite number that is
not whole and at least the least normal one has a value, in either mode, unless it is written with
`e+`; what is shown of the value is this text again. -/
theorem calculate_display (hm : leastNormal ≤ m.toRat)
    (hfraction : ¬ ∃ i, (Value.real (.finite s m)).IsWhole i)
    (hplus : ¬ ['e', '+'] <:+: display (.finite s m)) (mode : AngleMode) :
    ∃ v, calculate mode (String.ofList (display (.finite s m))) = .ok (some v) ∧
      v.display = display (.finite s m) := by
  have hnone : (Binary64.finite s m).toInt? = none := Value.toInt?_eq_none_iff.mpr hfraction
  obtain ⟨n, k, h⟩ := exists_roundsTo hnone
  rw [display_of_roundsTo hnone h] at hplus ⊢
  have hk : k < 12 :=
    lt_of_roundedText fun hpart => hplus (hpart.trans (List.suffix_append _ _).isInfix)
  have hdenotes := (roundedText_shows h (by decide)).denotes
  by_cases hdigits : IsDigits (roundedText 12 n k)
  · -- The text looks like an integer and is read as one.
    obtain ⟨w, hw⟩ := exists_digits_of_roundedText hdigits
    rw [hw] at hdenotes hdigits ⊢
    have hvalue := Lexer.numeralValue_of_isDigits hdigits
    have hrounded := hdenotes.unique hdigits.denotes
    rw [value_digits] at hvalue hrounded
    have hpos : 0 < w := by
      have hlow := (h.isExponent (by decide)).1
      rw [hrounded] at hlow
      exact Nat.cast_pos.mp ((ten_zpow_pos k).trans_le hlow)
    exact ⟨_, calculate_numeral mode s hdenotes hvalue, display_signed_int hpos s⟩
  · -- The text is read as the nearest number, which is no whole one.
    obtain ⟨x, hround, hvalue⟩ := Lexer.numeralValue_of_denotes hdenotes hdigits
    obtain ⟨nearest, rfl⟩ := exists_finite_of_isRounded h hk hround
    have hagain := h.again (by decide) (by decide) hm hround
    have hnone' : ∀ t, (Binary64.finite t nearest).toInt? = none := fun t =>
      Binary64.toInt?_eq_none_of_ne fun w hw => by
        rw [hw] at hagain
        exact hdigits (hagain.roundedText_of_whole hk ▸ ⟨digits_ne_nil w, isDigit_digits w⟩)
    refine ⟨_, calculate_numeral mode s hdenotes hvalue, ?_⟩
    cases s with
    | false => exact display_of_roundsTo (hnone' false) hagain
    | true => exact display_of_roundsTo (hnone' true) hagain

/-- The least normal number, negated; a number whose text looks like an integer; and a number that
is shown as the power of ten that the nearest number is below. -/
theorem calculate_display_of_powers :
    let least : Magnitude := ⟨0x10000000000000, by decide⟩
    let ten : Magnitude := ⟨4621819117588971464, by decide⟩
    let small : Magnitude := ⟨4502148214488346438, by decide⟩
    (display (.finite true least) = "-2.22507385851e-308".toList ∧
      ∃ v, calculate .degrees (String.ofList (display (.finite true least))) = .ok (some v) ∧
        v.display = display (.finite true least)) ∧
    (display (.finite false ten) = "10".toList ∧
      ∃ v, calculate .degrees (String.ofList (display (.finite false ten))) = .ok (some v) ∧
        v.display = display (.finite false ten)) ∧
    display (.finite false small) = "1e-07".toList ∧
      ∃ v, calculate .radians (String.ofList (display (.finite false small))) = .ok (some v) ∧
        v.display = display (.finite false small) := by
  intro least ten small
  have hleast : display (.finite true least) = "-2.22507385851e-308".toList := by decide +kernel
  have hten : display (.finite false ten) = "10".toList := by decide +kernel
  have hsmall : display (.finite false small) = "1e-07".toList := by decide +kernel
  have hnormal : binade ≤ least.rank ∧ binade ≤ ten.rank ∧ binade ≤ small.rank := by decide
  have hfraction : (Value.real (.finite true least)).toInt? = none ∧
      (Value.real (.finite false ten)).toInt? = none ∧
      (Value.real (.finite false small)).toInt? = none := by
    decide +kernel
  refine ⟨⟨hleast, ?_⟩, ⟨hten, ?_⟩, hsmall, ?_⟩
  · exact calculate_display (leastNormal_le_toRat_iff.mpr hnormal.1)
      (Value.toInt?_eq_none_iff.mp hfraction.1) (by rw [hleast]; decide) .degrees
  · exact calculate_display (leastNormal_le_toRat_iff.mpr hnormal.2.1)
      (Value.toInt?_eq_none_iff.mp hfraction.2.1) (by rw [hten]; decide) .degrees
  · exact calculate_display (leastNormal_le_toRat_iff.mpr hnormal.2.2)
      (Value.toInt?_eq_none_iff.mp hfraction.2.2) (by rw [hsmall]; decide) .radians

end Again
end SciCalc
