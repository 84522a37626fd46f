import SciCalc.Decimal
import SciCalc.Elementary

/-! # Values

A value is an exact integer of any size or a floating-point number.  An integer turns into a
floating-point number where it meets one, and is refused there if it is out of range.

Sums, differences, products, remainders and powers of integers are exact integers; a quotient is
always a floating-point number, and so is every result that a floating-point operand takes part
in.
-/
namespace SciCalc

/-- A number that the calculator computes with. -/
inductive Value where
  | int (n : Int)
  | real (x : Binary64)
deriving DecidableEq

namespace Value

/-- The value as a floating-point number; an integer beyond the finite ones is refused. -/
def toReal : Value → Except CalcError Binary64
  | real x => .ok x
  | int n =>
    let x := Binary64.ofLongInt n
    if x.isFinite then .ok x else .error (.invalidExpression .integerBeyondReals)

/-- The integer that the value is, if it is one. -/
def toInt? : Value → Option Int
  | int n => some n
  | real x => x.toInt?

/-- Whether the value is zero. -/
def isZero : Value → Bool
  | int n => n == 0
  | real x => x.isZero

/-- The value with the opposite sign. -/
def neg : Value → Value
  | int n => int (-n)
  | real x => real x.neg

/-- The value without its sign. -/
def abs : Value → Value
  | int n => int n.natAbs
  | real x => real x.abs

/-- The text in which a value is shown as a result. -/
def display : Value → List Char
  | int n => Decimal.integer n
  | real x => Decimal.display x

/-- The written form that tells the two kinds of value apart. -/
def literal : Value → List Char
  | int n => Decimal.integer n
  | real x => Decimal.literal x

@[simp] theorem toReal_real (x : Binary64) : (real x).toReal = .ok x := rfl

@[simp] theorem toInt?_int (n : Int) : (int n).toInt? = some n := rfl

end Value

/-! ## Arithmetic

A remainder has the sign of the divisor.  An exact power is refused when the number of bits of its
base times the exponent exceeds one million, so that no single operation takes long.
-/

/-- The binary operators. -/
inductive BinOp where
  | add
  | sub
  | mul
  | div
  | mod
  | pow
deriving DecidableEq

namespace Value

/-- Both operands as floating-point numbers, the left one first. -/
def toReals (a b : Value) : Except CalcError (Binary64 × Binary64) := do
  let x ← a.toReal
  let y ← b.toReal
  return (x, y)

/-- An operation that is exact on integers and otherwise works on floating-point numbers. -/
def lift (exact : Int → Int → Int) (rounded : Binary64 → Binary64 → Binary64) :
    Value → Value → Except CalcError Value
  | int m, int n => .ok (int (exact m n))
  | a, b => (toReals a b).map fun (x, y) => real (rounded x y)

/-- The sum. -/
def add : Value → Value → Except CalcError Value :=
  lift (· + ·) Binary64.add

/-- The difference. -/
def sub : Value → Value → Except CalcError Value :=
  lift (· - ·) Binary64.sub

/-- The product. -/
def mul : Value → Value → Except CalcError Value :=
  lift (· * ·) Binary64.mul

/-- The quotient, always a floating-point number. -/
def div (a b : Value) : Except CalcError Value :=
  if b.isZero then .error .divisionByZero
  else (toReals a b).map fun (x, y) => real (x.div y)

/-- The remainder of exact integers.  The division is cut towards zero, so its remainder has the
dividend's sign; a remainder whose sign is not the divisor's is moved by one divisor. -/
def intMod (x y : Int) : Int :=
  let r := x.tmod y
  if r ≠ 0 ∧ ¬ (r < 0 ↔ y < 0) then r + y else r

/-- The remainder, which is zero or has the divisor's sign. -/
def mod (a b : Value) : Except CalcError Value :=
  if b.isZero then .error .divisionByZero
  else lift intMod Binary64.floorMod a b

/-! ### Powers -/

/-- The largest product of base bits and exponent for which an exact power is computed. -/
def powerBits : Nat := 1000000

/-- The largest exponent of an exact power: 32 bits. -/
def maxExponent : Nat := 0xFFFFFFFF

/-- The largest number of 64 bits. -/
def maxWord : Nat := 0xFFFFFFFFFFFFFFFF

/-- A number that takes no more than 64 bits. -/
def word? (n : Nat) : Option Nat :=
  if n ≤ maxWord then some n else none

/-- The exponent times the bits of the base, computed in 64 bits; there is none if the exponent or
the product takes more. -/
def powerSize? (x : Int) (n : Nat) : Option Nat := do
  let exponent ← word? n
  word? (exponent * bitLength x.natAbs)

/-- Whether a power is refused for its size; a size of more than 64 bits is too large. -/
def powerTooLarge (x : Int) (n : Nat) : Bool :=
  match powerSize? x n with
  | some size => powerBits < size
  | none => true

/-- The exact power.  Bases of size at most one take any exponent; beyond, the exponent times the
bits of the base is bounded. -/
def intPow (x : Int) (n : Nat) : Except CalcError Value :=
  if n = 0 ∨ x = 1 then .ok (int 1)
  else if x = 0 then .ok (int 0)
  else if x = -1 then .ok (int (if n % 2 = 0 then 1 else -1))
  else if powerTooLarge x n then .error (.invalidExpression .powerTooLarge)
  else if maxExponent < n then .error (.invalidExpression .exponentTooLarge)
  else .ok (int (x.pow n))

/-- The power of floating-point numbers.  Zero has no negative powers, a negative base has only
whole powers, and finite operands whose power is out of range are refused. -/
def realPow (x y : Binary64) : Except CalcError Value :=
  if x.isZero && y.isNegative then .error .divisionByZero
  else if x.isNegative && y.isFinite && y.toInt?.isNone then .error .complexResult
  else
    let r := x.pow y
    if r.isInfinite && x.isFinite && y.isFinite then .error (.invalidExpression .powerOverflow)
    else .ok (real r)

/-- The power of values as floating-point numbers. -/
def powOfReals (a b : Value) : Except CalcError Value := do
  let (x, y) ← toReals a b
  realPow x y

/-- The power: exact for an integer to an integer that is not negative. -/
def pow : Value → Value → Except CalcError Value
  | int x, int (.ofNat n) => intPow x n
  | int x, int (.negSucc n) =>
    if x = 0 then .error .divisionByZero else powOfReals (int x) (int (.negSucc n))
  | a, b => powOfReals a b

end Value

/-- The operation of an operator. -/
def BinOp.apply : BinOp → Value → Value → Except CalcError Value
  | .add => Value.add
  | .sub => Value.sub
  | .mul => Value.mul
  | .div => Value.div
  | .mod => Value.mod
  | .pow => Value.pow

/-- The text of an operator. -/
def BinOp.symbol : BinOp → List Char
  | .add => ['+']
  | .sub => ['-']
  | .mul => ['*']
  | .div => ['/']
  | .mod => ['%']
  | .pow => ['*', '*']

end SciCalc
