import SciCalc.Value

/-! # Built-in constants and functions

The calculator knows two constants and fifteen functions, and no other name.  Names are
case-sensitive.  Each function takes one or two arguments, some of them either number.
-/
namespace SciCalc

/-- The constants. -/
inductive Constant where
  | pi
  | e
deriving DecidableEq

namespace Constant

def name : Constant → String
  | pi => "pi"
  | e => "e"

def value : Constant → Binary64
  | pi => Binary64.pi
  | e => Binary64.e

/-- The constant of a name. -/
def ofName? (s : String) : Option Constant :=
  [pi, e].find? fun c => c.name == s

theorem ofName?_name (c : Constant) : ofName? c.name = some c := by
  cases c <;> decide

theorem name_of_ofName? {s : String} {c : Constant} (h : ofName? s = some c) : c.name = s := by
  simpa using List.find?_some h

end Constant

/-- The functions. -/
inductive Builtin where
  | abs
  | round
  | pow
  | exp
  | sin
  | cos
  | tan
  | ln
  | log
  | log10
  | sqrt
  | root
  | fact
  | nPr
  | nCr
deriving DecidableEq

namespace Builtin

/-- All functions. -/
def all : List Builtin :=
  [abs, round, pow, exp, sin, cos, tan, ln, log, log10, sqrt, root, fact, nPr, nCr]

def name : Builtin → String
  | abs => "abs"
  | round => "round"
  | pow => "pow"
  | exp => "exp"
  | sin => "sin"
  | cos => "cos"
  | tan => "tan"
  | ln => "ln"
  | log => "log"
  | log10 => "log10"
  | sqrt => "sqrt"
  | root => "root"
  | fact => "fact"
  | nPr => "nPr"
  | nCr => "nCr"

/-- The function of a name. -/
def ofName? (s : String) : Option Builtin :=
  all.find? fun f => f.name == s

/-- The least and the greatest number of arguments. -/
def argumentRange : Builtin → Nat × Nat
  | round | log | root => (1, 2)
  | pow | nPr | nCr => (2, 2)
  | _ => (1, 1)

/-- Whether the function takes a number of arguments. -/
def accepts (f : Builtin) (count : Nat) : Bool :=
  f.argumentRange.1 ≤ count && count ≤ f.argumentRange.2

theorem ofName?_name (f : Builtin) : ofName? f.name = some f := by
  cases f <;> decide

theorem name_of_ofName? {s : String} {f : Builtin} (h : ofName? s = some f) : f.name = s := by
  simpa using List.find?_some h

/-! ## Factorials, permutations and combinations

Exact counts of arrangements.  The arguments are whole numbers, written as integers or as
floating-point numbers; then they have to be in the domain of the count, and then the number of
factors has to be bounded.  The first condition that fails decides the error.
-/

/-- The largest number of factors that is multiplied out. -/
def maxFactors : Nat := 5000

/-- The product of `count` successive numbers from `low` up; one if there are none. -/
def product (low : Nat) : (count : Nat) → Nat
  | 0 => 1
  | count + 1 => product low count * (low + count)

/-- The product of the numbers from `low` to `high`, both included; one if `high` is below `low`. -/
def rangeProduct (low high : Nat) : Nat :=
  product low (high + 1 - low)

/-- The number of ways to choose `k` of `n`, formed as the number of ways to choose 0, 1, 2, … of
`n - k`, `n - k + 1`, …: each is the one before times a factor over a divisor that divides it. -/
def chooseFrom (rest : Nat) : (k : Nat) → Nat
  | 0 => 1
  | k + 1 => chooseFrom rest k * (rest + (k + 1)) / (k + 1)

/-- An argument that has to be a whole number. -/
def wholeArgument (function : Counting) (v : Value) : Except CalcError Int :=
  match v.toInt? with
  | some n => .ok n
  | none => .error (.integerRequired function)

/-- Refuses too many factors. -/
def checkFactors (count : Nat) : Except CalcError Unit :=
  if maxFactors < count then .error (.invalidExpression .countTooLarge) else .ok ()

/-- The factorial. -/
def factorial (n : Value) : Except CalcError Value := do
  let n ← wholeArgument .factorial n
  if n < 0 then .error .domain
  else
    checkFactors n.toNat
    return .int (rangeProduct 1 n.toNat)

/-- The two arguments of a count of arrangements of `r` out of `n` things, with `r` at most
`n`. -/
def arrangement (function : Counting) (n r : Value) : Except CalcError (Nat × Nat) := do
  let n ← wholeArgument function n
  let r ← wholeArgument function r
  if n < 0 ∨ r < 0 ∨ n < r then .error .domain else .ok (n.toNat, r.toNat)

/-- The number of ordered choices. -/
def permutations (n r : Value) : Except CalcError Value := do
  let (n, r) ← arrangement .permutations n r
  checkFactors r
  return .int (rangeProduct (n - r + 1) n)

/-- The number of choices without order. -/
def combinations (n r : Value) : Except CalcError Value := do
  let (n, r) ← arrangement .combinations n r
  let k := min r (n - r)
  checkFactors k
  return .int (chooseFrom (n - k) k)

example : rangeProduct 4 6 = 120 ∧ rangeProduct 1 5 = 120 ∧ rangeProduct 6 5 = 1 := by decide
example : chooseFrom 3 2 = 10 := by decide

/-! ## Exponential, logarithms and roots

Functions that work on floating-point numbers: each turns its arguments into such numbers first,
and refuses those outside its domain.
-/

/-- Zero or below; not-a-number is neither. -/
def notPositive (x : Binary64) : Bool :=
  x.le (.zero false)

/-- The exponential; a finite argument whose exponential is out of range is refused. -/
def expValue (x : Value) : Except CalcError Value := do
  let v ← x.toReal
  let r := v.exp
  if r.isInfinite && v.isFinite then .error (.invalidExpression .exponentialOverflow)
  else .ok (.real r)

/-- The natural logarithm of a positive number. -/
def lnValue (x : Value) : Except CalcError Value := do
  let v ← x.toReal
  if notPositive v then .error .domain else .ok (.real v.ln)

/-- The logarithm to base ten of a positive number. -/
def log10Value (x : Value) : Except CalcError Value := do
  let v ← x.toReal
  if notPositive v then .error .domain else .ok (.real v.log10)

/-- The logarithm to a base, as a quotient of natural logarithms.  The base is positive and not
one. -/
def logValue (x base : Value) : Except CalcError Value := do
  let v ← x.toReal
  let b ← base.toReal
  if notPositive v || notPositive b || b == .one then .error .domain
  else .ok (.real (v.ln.div b.ln))

/-- The square root of a number that is not negative. -/
def sqrtValue (x : Value) : Except CalcError Value := do
  let v ← x.toReal
  if v.isNegative then .error .complexResult else .ok (.real v.sqrt)

/-! ### Roots of any index -/

/-- The least and the greatest whole number that an index may be: those of 64 bits. -/
def indexRange : Int × Int := (-0x8000000000000000, 0x7FFFFFFFFFFFFFFF)

/-- Whether a whole number may be an index. -/
def isIndex (n : Int) : Bool :=
  indexRange.1 ≤ n && n ≤ indexRange.2

/-- The index of a root: a number cut to a whole number of 64 bits. -/
def rootIndex (n : Value) : Except CalcError Int := do
  let v ← n.toReal
  match v.truncated? with
  | some i => if isIndex i then .ok i else .error (.invalidExpression .rootIndexOutOfRange)
  | none => .error (.invalidExpression .rootIndexOutOfRange)

/-- The root of a number with an index above zero.  A negative number has roots of odd index
only, each the negated root of its size. -/
def rootReal (v : Binary64) (index : Int) : Except CalcError Value :=
  let inverse := Binary64.one.div (.ofInt index)
  if v.isNegative then
    if index % 2 = 0 then .error .complexResult else .ok (.real (v.neg.pow inverse).neg)
  else .ok (.real (v.pow inverse))

/-- The root of a value; the index is at least one. -/
def rootValue (x n : Value) : Except CalcError Value := do
  let v ← x.toReal
  let index ← rootIndex n
  if index ≤ 0 then .error .invalidRoot else rootReal v index

/-! ## Rounding values

A value is rounded to a whole number, or to a number of decimal places; a negative number of
places rounds to tens, hundreds and so on.  Halves go to the even neighbour throughout.

An integer is rounded exactly.  A floating-point number is scaled by a power of ten, rounded to
a whole number and scaled back, each step in floating point.
-/

/-- The integer nearest to a value; there is none for infinities and not-a-number. -/
def roundWhole : Value → Except CalcError Value
  | .int n => .ok (.int n)
  | .real x =>
    match x.roundEven.toInt? with
    | some n => .ok (.int n)
    | none => .error (.invalidExpression .roundNotFinite)

/-- The least and the greatest number of places that are told apart, those of 32 bits; a number
beyond them counts as the last one. -/
def placesRange : Int × Int := (-0x80000000, 0x7FFFFFFF)

/-- A number of places brought into range. -/
def clampPlaces (n : Int) : Int :=
  max placesRange.1 (min n placesRange.2)

/-- The multiple of `10 ^ k` nearest to an integer.  A power of ten with more digits than the
integer has bits leaves nothing of it. -/
def roundToTens (n : Int) (k : Nat) : Int :=
  if bitLength n.natAbs < k then 0
  else
    let power := tenTo k
    Binary64.signed (n < 0) (divHalfEven n.natAbs power * power)

/-- The greatest exponent for which a power of ten is formed; it is out of range already. -/
def maxTenPow : Int := 400

/-- A finite floating-point number rounded to `k` places before the point.  Where the power of ten
is out of range, zero with the sign of the number remains. -/
def roundBeforePoint (negative : Bool) (x : Binary64) (k : Nat) : Binary64 :=
  let power := Binary64.tenPow k
  if power.isInfinite then .zero negative else ((x.div power).roundEven).mul power

/-- A finite floating-point number rounded to `k` decimals.  A number that is out of range once
it is scaled has no such decimals and stays as it is. -/
def roundAfterPoint (x : Binary64) (k : Nat) : Binary64 :=
  let power := Binary64.tenPow k
  let scaled := x.mul power
  if scaled.isFinite then scaled.roundEven.div power else x

/-- A floating-point number rounded to a number of places. -/
def roundReal (x : Binary64) (places : Int) : Binary64 :=
  match x with
  | .finite s m =>
    if places < 0 then roundBeforePoint s (.finite s m) (min (-places) maxTenPow).toNat
    else roundAfterPoint (.finite s m) (min places maxTenPow).toNat
  | x => x

/-- A value rounded to a number of places, which is given as an integer. -/
def roundPlaces (x places : Value) : Except CalcError Value :=
  match places with
  | .real _ => .error (.invalidExpression .roundPlacesNotInteger)
  | .int p =>
    let n := clampPlaces p
    match x with
    | .int m => .ok (.int (if 0 ≤ n then m else roundToTens m n.natAbs))
    | .real x => .ok (.real (roundReal x n))

/-! ## Applying a built-in function

The one place where a function meets its arguments.  A missing base is ten, a missing index of a
root is two, and a number of arguments that the function does not take is an invalid expression.
-/

/-- The value of a function at its arguments; the angle mode matters to sine, cosine and tangent
alone. -/
def apply (mode : AngleMode) (f : Builtin) (args : List Value) : Except CalcError Value :=
  match f, args with
  | abs, [x] => .ok x.abs
  | round, [x] => roundWhole x
  | round, [x, places] => roundPlaces x places
  | pow, [x, y] => x.pow y
  | exp, [x] => expValue x
  | sin, [x] => x.toReal.map fun v => .real (mode.sin v)
  | cos, [x] => x.toReal.map fun v => .real (mode.cos v)
  | tan, [x] => do return .real (← mode.tan (← x.toReal))
  | ln, [x] => lnValue x
  | log10, [x] => log10Value x
  | log, [x] => logValue x (.int 10)
  | log, [x, base] => logValue x base
  | sqrt, [x] => sqrtValue x
  | root, [x] => rootValue x (.int 2)
  | root, [x, index] => rootValue x index
  | fact, [n] => factorial n
  | nPr, [n, r] => permutations n r
  | nCr, [n, r] => combinations n r
  | f, args => .error (.invalidExpression (.argumentCount f.name args.length))

end Builtin
end SciCalc
