import SciCalc.Binary64
import SciCalc.Error

/-! # Elementary functions

Exponential, logarithms, powers and the circular functions.  The finite cases are computed with
integers, in fixed point, and rounded once to a floating-point number; zeros, infinities and
not-a-number follow the IEEE 754 standard.  The circular functions also take their angles in
degrees.
-/
namespace SciCalc.Elementary

/-! ## Series in fixed point

A real number is held as a number of steps of `2 ^ -1280`, which is finer than the least
floating-point number by two hundred binary places.  Every finite floating-point number is exact in
this form.  A power series is summed from its last term to its first, each step rounding down, and
only the final value is rounded to a floating-point number.
-/

/-- The number of binary places of a fixed-point number. -/
def places : Nat := 1280

/-- One, as a fixed-point number. -/
def one : Int := twoTo places

/-- The product of two fixed-point numbers. -/
def times (x y : Int) : Int :=
  x * y / one

/-- The quotient of two fixed-point numbers. -/
def ratio (x y : Int) : Int :=
  x * one / y

/-- Sums a series in nested form, from the last term to the first: `step n rest` is the sum from
term `n` on, given the sum `rest` from term `n + 1` on. -/
def nested (step : Nat → Int → Int) : (terms : Nat) → (rest : Int) → Int
  | 0, rest => rest
  | n + 1, rest => nested step n (step n rest)

/-- A magnitude in fixed point. -/
def ofMagnitude (m : Magnitude) : Nat :=
  m.units * twoTo (places - unitPlaces)

/-- The floating-point number nearest to a fixed-point number times a power of two. -/
def toBinary64 (negative : Bool) (x : Nat) : (exponent : Int) → Binary64
  | .ofNat k => .ofRatio negative (x * twoTo k) (twoTo places)
  | .negSucc k => .ofRatio negative x (twoTo (places + k + 1))

/-- The floating-point number nearest to a fixed-point number. -/
def round (x : Int) : Binary64 :=
  toBinary64 (x < 0) x.natAbs 0

/-! ### Exponential and logarithm -/

/-- The number of terms of the exponential series; the factorial of it has more bits than a
fixed-point number has places. -/
def expTerms : Nat := 256

/-- The exponential of a fixed-point number between zero and one, by its power series. -/
def expSeries (x : Int) : Int :=
  nested (fun n rest => one + times x rest / (n + 1)) expTerms one

/-- The number of terms of the series of `artanh`; each is less than a ninth of the one before. -/
def artanhTerms : Nat := 420

/-- The inverse hyperbolic tangent of a fixed-point number of size at most a third. -/
def artanh (z : Int) : Int :=
  let square := times z z
  times z (nested (fun n rest => one / (2 * n + 1) + times square rest) artanhTerms 0)

/-- The natural logarithm of two. -/
def lnTwo : Int :=
  2 * artanh (one / 3)

/-- The natural logarithm of a positive number of units: that of its significand, which is at
least one and below two, and that of its power of two. -/
def lnUnits (units : Nat) : Int :=
  let exponent := units.log2
  let significand : Int := units * one / twoTo exponent
  2 * artanh (ratio (significand - one) (significand + one)) +
    ((exponent : Int) - unitPlaces) * lnTwo

/-- The natural logarithm of ten. -/
def lnTen : Int :=
  lnUnits (10 * unitsPerOne)

/-- Beyond this exponent an exponential is out of range: it is zero or infinite. -/
def farExponent : Int := 1100

/-- The exponential of a fixed-point number, with a sign put in front: a power of two times the
exponential of a number between zero and the logarithm of two. -/
def exp (negative : Bool) (x : Int) : Binary64 :=
  if farExponent * one ≤ x then .infinity negative
  else if x ≤ -(farExponent * one) then .zero negative
  else
    let twos := x / lnTwo
    toBinary64 negative (expSeries (x - twos * lnTwo)).toNat twos

/-! ### Angles in radians -/

/-- The number of binary places used to reduce an angle: an angle has up to 1024 places before
the point, and as many again have to be right behind it. -/
def anglePlaces : Nat := 2432

/-- The number of terms of the series of `arctanInverse`; for `q` from five on, each is less than a
twenty-fifth of the one before. -/
def arctanTerms : Nat := 560

/-- The arc tangent of `1 / q`, to `anglePlaces` places. -/
def arctanInverse (q : Int) : Int :=
  nested (fun n rest => twoTo anglePlaces / (2 * n + 1) - rest / (q * q)) arctanTerms 0 / q

/-- Half of π, to `anglePlaces` places: a quarter of π is four times the arc tangent of a fifth
less that of a 239th. -/
def halfPi : Int :=
  8 * arctanInverse 5 - 2 * arctanInverse 239

/-- The nearest multiple of half of π to an angle, and the fixed-point rest. -/
def reduce (negative : Bool) (m : Magnitude) : Int × Int :=
  let angle := Binary64.signed negative (m.units * twoTo (anglePlaces - unitPlaces))
  let quarter := (2 * angle + halfPi) / (2 * halfPi)
  (quarter, (angle - quarter * halfPi) / twoTo (anglePlaces - places))

/-- The number of terms of the series of sine and cosine. -/
def circularTerms : Nat := 128

/-- The sine of a fixed-point angle of size at most one. -/
def sinSeries (x : Int) : Int :=
  let square := times x x
  times x
    (nested (fun n rest => one - times square rest / ((2 * n + 2) * (2 * n + 3))) circularTerms one)

/-- The cosine of a fixed-point angle of size at most one. -/
def cosSeries (x : Int) : Int :=
  let square := times x x
  nested (fun n rest => one - times square rest / ((2 * n + 1) * (2 * n + 2))) circularTerms one

/-- Sine and cosine of an angle in radians, in fixed point: those of the rest after the nearest
quarter turn, exchanged and negated as that turn demands. -/
def sinCos (negative : Bool) (m : Magnitude) : Int × Int :=
  let (quarter, rest) := reduce negative m
  let s := sinSeries rest
  let c := cosSeries rest
  match (quarter % 4).toNat with
  | 0 => (s, c)
  | 1 => (c, -s)
  | 2 => (-s, -c)
  | _ => (-c, s)

end SciCalc.Elementary

/-! ## Functions of floating-point numbers

Every argument that is not special goes through fixed point and is rounded once.
-/
namespace SciCalc.Binary64

/-- The exponential. -/
def exp : Binary64 → Binary64
  | nan => nan
  | infinity s => if s then zero false else infinity false
  | finite s m => Elementary.exp false (signed s (Elementary.ofMagnitude m))

/-- The natural logarithm; minus infinity at zero and not-a-number below. -/
def ln : Binary64 → Binary64
  | nan => nan
  | infinity s => if s then nan else infinity false
  | finite s m =>
    if m.rank = 0 then infinity true
    else if s then nan
    else Elementary.round (Elementary.lnUnits m.units)

/-- The logarithm to base ten; minus infinity at zero and not-a-number below. -/
def log10 : Binary64 → Binary64
  | nan => nan
  | infinity s => if s then nan else infinity false
  | finite s m =>
    if m.rank = 0 then infinity true
    else if s then nan
    else Elementary.round (Elementary.ratio (Elementary.lnUnits m.units) Elementary.lnTen)

/-- The sine of an angle in radians. -/
def sin : Binary64 → Binary64
  | nan => nan
  | infinity _ => nan
  | finite s m =>
    if m.rank = 0 then finite s m else Elementary.round (Elementary.sinCos s m).1

/-- The cosine of an angle in radians. -/
def cos : Binary64 → Binary64
  | nan => nan
  | infinity _ => nan
  | finite s m => Elementary.round (Elementary.sinCos s m).2

/-- The tangent of an angle in radians. -/
def tan : Binary64 → Binary64
  | nan => nan
  | infinity _ => nan
  | finite s m =>
    if m.rank = 0 then finite s m
    else
      let (y, x) := Elementary.sinCos s m
      ofRatio ((y < 0) != (x < 0)) y.natAbs x.natAbs

/-! ### Powers -/

/-- Whether the number is an odd whole number. -/
def isOdd (x : Binary64) : Bool :=
  match x.toInt? with
  | some n => n % 2 == 1
  | none => false

/-- The power of a magnitude other than zero to a finite exponent, with a sign put in front. -/
def magnitudePow (negative : Bool) (m : Magnitude) (exponentNegative : Bool)
    (exponent : Magnitude) : Binary64 :=
  Elementary.exp negative
    (signed exponentNegative exponent.units * Elementary.lnUnits m.units / unitsPerOne)

/-- The power `x ^ y`.  It is one if `y` is zero or `x` is one, whatever the other is; a negative
base takes only whole exponents and gives a negative power for the odd ones. -/
def pow (x y : Binary64) : Binary64 :=
  if y.isZero || x == one then one
  else
    match x, y with
    | nan, _ => nan
    | _, nan => nan
    | x, infinity t =>
      if x.abs == one then one
      else if x.abs.lt one == t then infinity false
      else zero false
    | infinity s, y =>
      if y.isNegative then zero (s && y.isOdd) else infinity (s && y.isOdd)
    | finite s m, finite t n =>
      let odd := (finite t n).isOdd
      if m.rank = 0 then
        if t then infinity (s && odd) else zero (s && odd)
      else if s && ((finite t n).toInt?).isNone then nan
      else magnitudePow (s && odd) m t n

end SciCalc.Binary64

/-! ## Angles in degrees and in radians

Angles are given in degrees or in radians.  Degrees are turned into radians before a circular
function is taken.  The tangent is refused near the odd quarter turns, and nearness is judged on
the angle as it was given, before it is turned into radians.
-/
namespace SciCalc

/-- The unit of angles. -/
inductive AngleMode where
  | degrees
  | radians
deriving DecidableEq

namespace AngleMode

/-- Half a turn in radians over half a turn in degrees. -/
def radiansPerDegree : Binary64 :=
  Binary64.pi.div (.ofInt 180)

/-- An angle in radians. -/
def toRadians : AngleMode → Binary64 → Binary64
  | degrees, x => x.mul radiansPerDegree
  | radians, x => x

/-- The distance from an odd quarter turn below which the tangent is refused. -/
def tangentTolerance : Binary64 :=
  .ofRatio false 1 (tenTo 12)

/-- Whether the tangent of an angle is undefined: in degrees, near ninety modulo half a turn; in
radians, near half of π modulo π, on either side. -/
def tanUndefined : AngleMode → Binary64 → Bool
  | degrees, x =>
    (((x.floorMod (.ofInt 180)).sub (.ofInt 90)).abs).lt tangentTolerance
  | radians, x =>
    let rest := (x.sub (Binary64.pi.div (.ofInt 2))).floorMod Binary64.pi
    rest.lt tangentTolerance || (Binary64.pi.sub rest).lt tangentTolerance

/-- The sine of an angle. -/
def sin (mode : AngleMode) (x : Binary64) : Binary64 :=
  (mode.toRadians x).sin

/-- The cosine of an angle. -/
def cos (mode : AngleMode) (x : Binary64) : Binary64 :=
  (mode.toRadians x).cos

/-- The tangent of an angle, refused where it is undefined. -/
def tan (mode : AngleMode) (x : Binary64) : Except CalcError Binary64 :=
  if mode.tanUndefined x then .error .domain else .ok (mode.toRadians x).tan

end AngleMode
end SciCalc
