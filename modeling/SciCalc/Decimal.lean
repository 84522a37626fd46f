import SciCalc.Binary64

/-! # Numbers in decimal notation

Natural numbers are written digit by digit and read back.  A numeral is a whole number of digits
times a power of ten, and is read as the floating-point number nearest to it.  A floating-point
number is written in one of two ways: rounded to twelve significant digits, as results are shown,
or with the shortest digits that read back.

Main statements: `value_digits` and `integer?_integer`, what is written reads back, and
`isDigit_digits`.
-/
namespace SciCalc.Decimal

/-! ## Digits of natural numbers

Numbers here may have hundreds of thousands of digits, so a number is written by halving: its upper
and its lower half of `2 ^ k` places are written separately.  The digits produced are the usual
ones, the first of them non-zero unless the number is zero.
-/

/-- The character of a digit below ten. -/
def digitChar (d : Nat) : Char :=
  Char.ofNat (48 + d)

/-- The number a digit character stands for. -/
def digitValue (c : Char) : Nat :=
  c.toNat - 48

/-- The number that a run of digits denotes if it continues the digits of `n`. -/
def valueFrom (n : Nat) (digits : List Char) : Nat :=
  digits.foldl (fun n c => 10 * n + digitValue c) n

/-- The number that a run of digits denotes. -/
def value (digits : List Char) : Nat :=
  valueFrom 0 digits

/-- How many numbers have at most `2 ^ k` decimal places. -/
def placesBound (k : Nat) : Nat :=
  tenTo (twoTo k)

/-- The number `n`, below `placesBound k`, in exactly `2 ^ k` places, in front of `tail`. -/
def padded : Nat → Nat → List Char → List Char
  | 0, n, tail => digitChar n :: tail
  | k + 1, n, tail =>
    padded k (n / placesBound k) (padded k (n % placesBound k) tail)

/-- A `k` for which `2 ^ k` places are enough for `n`: there are no more decimal digits than
binary ones. -/
def doublings (n : Nat) : Nat :=
  (n.log2 + 1).log2 + 1

/-- The decimal digits of a natural number. -/
def digits (n : Nat) : List Char :=
  match (padded (doublings n) n []).dropWhile (· == '0') with
  | [] => ['0']
  | c :: rest => c :: rest

/-- The number `n` in at least `width` places, with zeros in front. -/
def digitsIn (width n : Nat) : List Char :=
  let written := digits n
  List.replicate (width - written.length) '0' ++ written

/-- An integer: its digits, after a minus sign if it is negative. -/
def integer (n : Int) : List Char :=
  if n < 0 then '-' :: digits n.natAbs else digits n.natAbs

/-- Reads a natural number: digits, at least one. -/
def natural? (s : List Char) : Option Nat :=
  if s.isEmpty || !s.all Char.isDigit then none else some (value s)

/-- Reads an integer: a natural number after an optional minus sign. -/
def integer? : List Char → Option Int
  | '-' :: rest => (natural? rest).map fun n => -(n : Int)
  | s => (natural? s).map fun n => (n : Int)

/-! ### What is written reads back -/

theorem digitValue_digitChar {d : Nat} (h : d < 10) : digitValue (digitChar d) = d := by
  have hall : ∀ d < 10, digitValue (digitChar d) = d := by decide
  exact hall d h

theorem isDigit_digitChar {d : Nat} (h : d < 10) : (digitChar d).isDigit = true := by
  have hall : ∀ d < 10, (digitChar d).isDigit = true := by decide
  exact hall d h

/-- Twice as many places hold the square of as many numbers. -/
theorem placesBound_succ (k : Nat) : placesBound (k + 1) = placesBound k * placesBound k := by
  rw [placesBound, twoTo_succ, Nat.mul_two, tenTo_add]
  rfl

theorem placesBound_pos (k : Nat) : 0 < placesBound k :=
  tenTo_pos _

theorem valueFrom_padded (k : Nat) {n : Nat} (start : Nat) (tail : List Char)
    (h : n < placesBound k) :
    valueFrom start (padded k n tail) = valueFrom (start * placesBound k + n) tail := by
  induction k generalizing n start tail with
  | zero =>
    have hten : placesBound 0 = 10 := rfl
    rw [hten] at h ⊢
    simp only [padded, valueFrom, List.foldl_cons]
    rw [digitValue_digitChar h, Nat.mul_comm]
  | succ k ih =>
    have hsq := placesBound_succ k
    have hdiv := Nat.div_add_mod n (placesBound k)
    rw [padded, ih _ _ (Nat.div_lt_of_lt_mul (hsq ▸ h)),
      ih _ _ (Nat.mod_lt n (placesBound_pos k)), hsq]
    congr 1
    rw [Nat.add_mul, Nat.add_assoc, Nat.mul_comm (n / _), hdiv, Nat.mul_assoc]

theorem lt_placesBound_doublings (n : Nat) : n < placesBound (doublings n) :=
  calc n < twoTo (n.log2 + 1) := lt_twoTo_log2 n
    _ ≤ tenTo (n.log2 + 1) := twoTo_le_tenTo _
    _ ≤ placesBound (doublings n) := tenTo_le_tenTo (Nat.le_of_lt (lt_twoTo_log2 _))

/-- Zeros in front do not count. -/
theorem value_dropWhile (s : List Char) : value (s.dropWhile (· == '0')) = value s := by
  induction s with
  | nil => rfl
  | cons c s ih =>
    by_cases h : c = '0'
    · subst h
      rw [List.dropWhile_cons_of_pos (by decide), ih]
      rfl
    · rw [List.dropWhile_cons_of_neg (by simpa using h)]

/-- Writing a number and reading it gives the number back. -/
theorem value_digits (n : Nat) : value (digits n) = n := by
  have hpadded : value (padded (doublings n) n []) = n := by
    have h := valueFrom_padded (doublings n) 0 [] (lt_placesBound_doublings n)
    rw [Nat.zero_mul, Nat.zero_add] at h
    exact h
  have h := (value_dropWhile (padded (doublings n) n [])).trans hpadded
  unfold digits
  split <;> rename_i hd
  · rw [hd] at h
    exact h
  · rw [← hd]
    exact h

theorem isDigit_padded (k : Nat) {n : Nat} {tail : List Char} (h : n < placesBound k)
    (ht : ∀ c ∈ tail, c.isDigit = true) : ∀ c ∈ padded k n tail, c.isDigit = true := by
  induction k generalizing n tail with
  | zero =>
    intro c hc
    rcases List.mem_cons.mp hc with rfl | hc
    · exact isDigit_digitChar h
    · exact ht c hc
  | succ k ih =>
    exact ih (Nat.div_lt_of_lt_mul (placesBound_succ k ▸ h))
      (ih (Nat.mod_lt n (placesBound_pos k)) ht)

/-- A number is written with digits only. -/
theorem isDigit_digits (n : Nat) : ∀ c ∈ digits n, c.isDigit = true := by
  have hnil : ∀ c ∈ ([] : List Char), c.isDigit = true := fun _ hc => absurd hc List.not_mem_nil
  have h := isDigit_padded (doublings n) (lt_placesBound_doublings n) hnil
  unfold digits
  split <;> rename_i hd
  · intro c hc
    rw [List.mem_singleton.mp hc]
    decide
  · intro c hc
    exact h c ((List.dropWhile_sublist _).mem (hd ▸ hc))

theorem digits_ne_nil (n : Nat) : digits n ≠ [] := by
  unfold digits
  split <;> exact List.cons_ne_nil _ _

theorem natural?_digits (n : Nat) : natural? (digits n) = some n := by
  have hempty : (digits n).isEmpty = false := List.isEmpty_eq_false_iff.mpr (digits_ne_nil n)
  have hall : (digits n).all Char.isDigit = true := List.all_eq_true.mpr (isDigit_digits n)
  rw [natural?, hempty, hall, value_digits]
  rfl

/-- Writing an integer and reading it gives the integer back. -/
theorem integer?_integer (n : Int) : integer? (integer n) = some n := by
  unfold integer
  split
  · have habs : -(n.natAbs : Int) = n := by omega
    rw [integer?, natural?_digits]
    exact congrArg some habs
  · have habs : (n.natAbs : Int) = n := by omega
    have hminus : ∀ rest, digits n.natAbs ≠ '-' :: rest := fun rest h =>
      absurd (isDigit_digits n.natAbs '-' (h ▸ List.mem_cons_self)) (by decide)
    rw [integer?, natural?_digits]
    · exact congrArg some habs
    · exact hminus

example : digits 0 = ['0'] ∧ digits 907 = ['9', '0', '7'] ∧ digits 10 = ['1', '0'] := by decide
example : integer (-12) = ['-', '1', '2'] ∧ integer? ['-', '1', '2'] = some (-12) := by decide
example : digitsIn 3 7 = ['0', '0', '7'] ∧ digitsIn 1 120 = ['1', '2', '0'] := by decide

/-! ## Numerals

A numeral is a whole number of decimal digits times a power of ten: `2.5e-3` is `25` times ten
to the power `-4`.  Read as a floating-point number it is the exact quotient rounded once.

Far beyond the range of the format the power of ten itself is not computed: a numeral over
`10 ^ 400` is infinite, and one with more than 400 zeros in front of its digits is zero.
-/

/-- The number `coefficient * 10 ^ exponent`. -/
structure Numeral where
  coefficient : Nat
  exponent : Int
deriving DecidableEq

/-- A quotient of naturals that equals `n * 10 ^ exponent`, for any `n` over any `d`. -/
def scaleByTen (n d : Nat) : Int → Nat × Nat
  | .ofNat e => (n * tenTo e, d)
  | .negSucc e => (n, d * tenTo (e + 1))

namespace Numeral

/-- The exponent beyond which a numeral other than zero is out of range on its own. -/
def farExponent : Nat := 400

/-- The floating-point number nearest to the numeral, with a sign. -/
def toBinary64 (negative : Bool) (d : Numeral) : Binary64 :=
  if d.coefficient = 0 then .zero negative
  else if (farExponent : Int) < d.exponent then .infinity negative
  else if d.exponent < -((farExponent + bitLength d.coefficient : Nat) : Int) then .zero negative
  else
    let ratio := scaleByTen d.coefficient 1 d.exponent
    .ofRatio negative ratio.1 ratio.2

/-- Splits off the leading digits. -/
def spanDigits (s : List Char) : List Char × List Char :=
  (s.takeWhile Char.isDigit, s.dropWhile Char.isDigit)

/-- Reads the digits of an exponent, at least one, after an optional sign. -/
def exponentDigits? : List Char → Option Int
  | '+' :: rest => (natural? rest).map fun n => (n : Int)
  | rest => integer? rest

/-- Reads what follows the mantissa: nothing, or a letter `e` of either case and an exponent. -/
def exponent? : List Char → Option Int
  | [] => some 0
  | c :: rest => if c = 'e' ∨ c = 'E' then exponentDigits? rest else none

/-- Reads an unsigned numeral: digits with at most one point among them, at least one digit, and
an optional exponent. -/
def read? (s : List Char) : Option Numeral :=
  let (whole, afterWhole) := spanDigits s
  let (fraction, afterFraction) :=
    match afterWhole with
    | '.' :: rest => spanDigits rest
    | rest => ([], rest)
  if whole.isEmpty && fraction.isEmpty then none
  else
    (exponent? afterFraction).map fun e =>
      ⟨value (whole ++ fraction), e - fraction.length⟩

example : read? ['2', '.', '5', 'E', '-', '3'] = some ⟨25, -4⟩ := by decide
example : read? ['5', '.'] = some ⟨5, 0⟩ ∧ read? ['.', '5'] = some ⟨5, -1⟩ := by decide
example : read? ['.'] = none ∧ read? ['1', 'e'] = none ∧ read? [] = none := by decide

end Numeral

/-! ## The decimal grid around a positive quotient

To write a positive number with `n` significant digits one needs its decimal exponent, the power
of ten of its leading digit, and its position on the grid of multiples of the last digit's power
of ten.  Both are exact here, for a quotient `num / den` of natural numbers.
-/

/-- The exponent of the leading digit of `num / den`, for positive `num` and `den`: the largest
`k` with `10 ^ k ≤ num / den`. -/
def decimalExponent (num den : Nat) : Int :=
  if den ≤ num then ((digits (num / den)).length : Int) - 1
  else -((digits ((den - 1) / num)).length : Int)

/-- The quotient `num / den` counted in steps of `10 ^ exponent`, as a quotient of naturals. -/
def onGrid (num den : Nat) (exponent : Int) : Nat × Nat :=
  scaleByTen num den (-exponent)

/-- The digits without the zeros at their end. -/
def dropTrailingZeros (s : List Char) : List Char :=
  (s.reverse.dropWhile (· == '0')).reverse

example : decimalExponent 1 1 = 0 ∧ decimalExponent 999 10 = 1 ∧ decimalExponent 1 10 = -1 ∧
    decimalExponent 1 11 = -2 := by decide
example : dropTrailingZeros ['1', '0', '5', '0', '0'] = ['1', '0', '5'] := by decide

/-! ## Display with a number of significant digits

The form in which results are shown.  A whole number is shown with all its digits and no point.
Any other number is rounded to twelve significant digits; it is shown positionally unless the
exponent of the *rounded* number is below `-4` or at least twelve, and zeros at the end of the
decimals are left out.  The exponent has a sign and at least two digits.
-/

/-- The number of significant digits that are shown. -/
def significantDigits : Nat := 12

/-- The least exponent that is shown positionally. -/
def leastPositional : Int := -4

/-- The value `num / den`, rounded to `count` significant digits: the digits as a number, and the
exponent of the first.  Rounding up to the next power of ten moves the exponent. -/
def roundToDigits (num den count : Nat) : Nat × Int :=
  let exponent := decimalExponent num den
  let scaled := onGrid num den (exponent - (count - 1 : Nat))
  let rounded := divHalfEven scaled.1 scaled.2
  if rounded = tenTo count then (tenTo (count - 1), exponent + 1) else (rounded, exponent)

/-- The whole part and the decimals, with the zeros at the end of the decimals left out, and the
point too if no decimals remain. -/
def joinDecimals (whole decimals : List Char) : List Char :=
  match dropTrailingZeros decimals with
  | [] => whole
  | c :: rest => whole ++ '.' :: c :: rest

/-- The value `num / den` rounded to a number of decimals. -/
def fixed (num den places : Nat) : List Char :=
  let rounded := divHalfEven (num * tenTo places) den
  joinDecimals (digits (rounded / tenTo places))
    (if places = 0 then [] else digitsIn places (rounded % tenTo places))

/-- An exponent with its sign and at least two digits. -/
def exponentText (exponent : Int) : List Char :=
  (if exponent < 0 then '-' else '+') :: digitsIn 2 exponent.natAbs

/-- Digits with a point behind the first, and an exponent. -/
def withExponent (coefficient : Nat) (exponent : Int) : List Char :=
  match digits coefficient with
  | [] => []
  | c :: rest => joinDecimals [c] rest ++ 'e' :: exponentText exponent

/-- A positive value `num / den` with `count` significant digits. -/
def general (num den count : Nat) : List Char :=
  let (coefficient, exponent) := roundToDigits num den count
  if exponent < leastPositional ∨ (count : Int) ≤ exponent then
    withExponent coefficient exponent
  else fixed num den ((count : Int) - 1 - exponent).toNat

/-- The text in which a floating-point number is shown. -/
def display : Binary64 → List Char
  | .nan => ['n', 'a', 'n']
  | .infinity s => if s then ['-', 'i', 'n', 'f'] else ['i', 'n', 'f']
  | .finite s m =>
    match (Binary64.finite s m).toInt? with
    | some n => integer n
    | none => (if s then ['-'] else []) ++ general m.units unitsPerOne significantDigits

example : display (.ofRatio false 1 3) =
    ['0', '.', '3', '3', '3', '3', '3', '3', '3', '3', '3', '3', '3', '3'] := by decide +kernel
example : display (.ofRatio true 5 2) = ['-', '2', '.', '5'] ∧ display (.zero true) = ['0'] := by
  decide +kernel
example : display (.ofRatio false 15 100000000) = ['1', '.', '5', 'e', '-', '0', '7'] := by
  decide +kernel

/-! ## The shortest digits that read back

A floating-point number is written with the fewest significant digits that, read as a numeral,
give the same number.  For each number of digits from one to seventeen only two numerals can do:
the two neighbours of the exact value on that decimal grid.  If both do, the nearer is taken,
and the larger of two equally near ones.
-/

/-- The numerals with `count` significant digits next to the magnitude `m`, the preferred one
first: the grid points below and above the exact value. -/
def neighbours (m : Magnitude) (count : Nat) : List Numeral :=
  let step := decimalExponent m.units unitsPerOne - (count - 1 : Nat)
  let scaled := onGrid m.units unitsPerOne step
  let lower := scaled.1 / scaled.2
  let below : Numeral := ⟨lower, step⟩
  let above : Numeral := ⟨lower + 1, step⟩
  if 2 * (scaled.1 % scaled.2) < scaled.2 then [below, above] else [above, below]

/-- Whether a numeral is read as the magnitude `m`. -/
def readsAs (m : Magnitude) (d : Numeral) : Bool :=
  d.toBinary64 false == .finite false m

/-- A numeral that equals the magnitude exactly: a unit has as many decimals as binary places. -/
def exactNumeral (m : Magnitude) : Numeral :=
  ⟨m.units * tenTo unitPlaces / unitsPerOne, -(unitPlaces : Int)⟩

/-- The greatest number of significant digits that is tried. -/
def maxDigits : Nat := 17

/-- The shortest numeral that reads as the magnitude `m`. -/
def shortest (m : Magnitude) : Numeral :=
  ((List.range maxDigits).findSome? fun k => (neighbours m (k + 1)).find? (readsAs m)).getD
    (exactNumeral m)

/-! ## Literals

The exact written form of a floating-point number: the shortest digits that read back, always
with a point or an exponent, so that a literal never looks like an integer.  Numbers from
`1e-4` up to, not including, `1e16` are written positionally, and so is zero; all others as a
mantissa and an exponent.
-/

/-- The decimal exponents that are written positionally: at least the first and below the
second. -/
def positionalRange : Int × Int := (-4, 16)

/-- Digits with a point in front of the last `places` of them, padded with zeros so that there is
a digit on either side of the point. -/
def withPoint (places : Nat) (s : List Char) : List Char :=
  let padded := List.replicate (places + 1 - s.length) '0' ++ s
  let whole := padded.length - places
  padded.take whole ++ '.' :: (if places = 0 then ['0'] else padded.drop whole)

/-- A mantissa with its point behind the first digit, and the exponent of that digit. -/
def scientific (s : List Char) (exponent : Int) : List Char :=
  let mantissa :=
    match s with
    | c :: d :: rest => c :: '.' :: d :: rest
    | rest => rest
  mantissa ++ 'e' :: integer exponent

/-- The written form of the positive number whose significant digits are `s`, the first of them
standing for that digit times ten to the power `exponent`. -/
def layout (s : List Char) (exponent : Int) : List Char :=
  if positionalRange.1 ≤ exponent ∧ exponent < positionalRange.2 then
    let places := ((s.length : Int) - 1 - exponent).toNat
    let zeros := (exponent + 1 - (s.length : Int)).toNat
    withPoint places (s ++ List.replicate zeros '0')
  else scientific s exponent

/-- The literal of a magnitude. -/
def magnitudeLiteral (m : Magnitude) : List Char :=
  if m.rank = 0 then ['0', '.', '0']
  else
    let numeral := shortest m
    let written := digits numeral.coefficient
    layout (dropTrailingZeros written) (numeral.exponent + written.length - 1)

/-- A minus sign or nothing. -/
def signText (negative : Bool) : List Char :=
  if negative then ['-'] else []

/-- The literal of a floating-point number. -/
def literal : Binary64 → List Char
  | .nan => ['N', 'a', 'N']
  | .infinity s => signText s ++ ['i', 'n', 'f']
  | .finite s m => signText s ++ magnitudeLiteral m

/-- Reads an unsigned number: a numeral, or the name of infinity or of not-a-number in any
case. -/
def unsigned? (negative : Bool) (s : List Char) : Option Binary64 :=
  let lower := s.map Char.toLower
  if lower = ['n', 'a', 'n'] then some .nan
  else if lower = ['i', 'n', 'f'] then some (.infinity negative)
  else (Numeral.read? s).map (Numeral.toBinary64 negative)

/-- Reads a floating-point number, with or without a sign. -/
def literal? : List Char → Option Binary64
  | '-' :: rest => unsigned? true rest
  | '+' :: rest => unsigned? false rest
  | rest => unsigned? false rest

example : literal (.ofRatio false 3 10) = ['0', '.', '3'] := by decide +kernel
example : literal (.ofRatio true 15 100000000) = ['-', '1', '.', '5', 'e', '-', '7'] := by
  decide +kernel
example : literal (.ofInt 120) = ['1', '2', '0', '.', '0'] ∧
    literal (.ofInt (tenTo 16)) = ['1', 'e', '1', '6'] := by decide +kernel

end SciCalc.Decimal
