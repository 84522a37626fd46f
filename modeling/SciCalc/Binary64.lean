import SciCalc.Rounding

/-! # Binary floating-point numbers of 64 bits

A finite number of this format is a whole number of *units*, where a unit is `2 ^ -1074`, the
least positive number.  The non-negative finite numbers, in increasing order, are numbered by
their *rank* 0, 1, 2, …: the rank is what the 63 bits after the sign spell, so rounding up to
the next number is adding one to the rank.  A *binade*, the numbers between two powers of two, has
`2 ^ 52` ranks, and 2047 binades stand before infinity.

`Magnitude.units` tells the exact value of a rank, and `nearestRank` finds the rank nearest to an
exact quotient of units, of two equally near ones the even one.  Every operation of the format
is an exact operation on units followed by that one rounding.

Main statements: `Binary64.ofUnits_units`, a number of the format is its own rounding, and
`Binary64.ofLongInt_eq_ofInt`, integers of one word are rounded to the nearest number.
-/
namespace SciCalc

/-- The number of magnitudes between two successive powers of two. -/
def binade : Nat := 0x10000000000000

/-- The number of finite magnitudes. -/
def rankBound : Nat := 2047 * binade

/-- The number of binary places after the point that a unit has. -/
def unitPlaces : Nat := 1074

/-- How many units make one. -/
def unitsPerOne : Nat := twoTo unitPlaces

theorem unitsPerOne_pos : 0 < unitsPerOne := twoTo_pos unitPlaces

/-- A finite magnitude, given by its place among the magnitudes in increasing order. -/
structure Magnitude where
  rank : Nat
  rank_lt : rank < rankBound
deriving DecidableEq

namespace Magnitude

/-- The power of two that one step of the significand stands for, counted in units. -/
def shift (m : Magnitude) : Nat :=
  m.rank / binade - 1

/-- The whole number that, shifted, gives the magnitude; it is below two binades. -/
def significand (m : Magnitude) : Nat :=
  m.rank - m.shift * binade

/-- The magnitude as a number of units. -/
def units (m : Magnitude) : Nat :=
  m.significand * twoTo m.shift

/-- The magnitude zero. -/
def zero : Magnitude :=
  ⟨0, by decide⟩

@[simp] theorem units_zero : zero.units = 0 := rfl

/-- The significand fits in 53 bits. -/
theorem significand_lt (m : Magnitude) : m.significand < 2 * binade := by
  have := Nat.div_add_mod m.rank binade
  simp only [significand, shift, binade] at *
  omega

/-- A significand that is shifted is a full one: its leading bit is set. -/
theorem le_significand (m : Magnitude) (h : 0 < m.shift) : binade ≤ m.significand := by
  have := Nat.div_add_mod m.rank binade
  simp only [significand, shift, binade] at *
  omega

/-- The rank has the shift above the significand. -/
theorem rank_eq (m : Magnitude) : m.rank = m.significand + m.shift * binade := by
  have := Nat.div_add_mod m.rank binade
  simp only [significand, shift, binade] at *
  omega

end Magnitude

/-- A number of the format, apart from the payloads of its not-a-numbers. -/
inductive Binary64 where
  | nan
  | infinity (negative : Bool)
  | finite (negative : Bool) (magnitude : Magnitude)
deriving DecidableEq

/-- The rank of the magnitude nearest to `num / den` units; of two equally near ones, the even
rank.  A result of `rankBound` or more stands for infinity. -/
def nearestRank (num den : Nat) : Nat :=
  let shift := (num / den).log2 - 52
  divHalfEven num (den * twoTo shift) + shift * binade

/-- A number of units that is a magnitude is its own rounding. -/
theorem nearestRank_units (m : Magnitude) : nearestRank m.units 1 = m.rank := by
  have hlt := m.significand_lt
  have hbinade : binade = twoTo 52 := rfl
  have hdouble : 2 * binade = twoTo 53 := rfl
  have hshift : m.units.log2 - 52 = m.shift := by
    rcases Nat.eq_zero_or_pos m.shift with h | h
    · have hsmall : m.units < twoTo 53 := by
        rw [Magnitude.units, h, twoTo_zero, Nat.mul_one, ← hdouble]
        exact hlt
      rcases Nat.eq_zero_or_pos m.units with h0 | h0
      · rw [h0, h]
        rfl
      · have := (log2_lt_iff (Nat.pos_iff_ne_zero.mp h0)).mpr hsmall
        omega
    · have hpow := twoTo_pos m.shift
      have hle := m.le_significand h
      have hne : m.units ≠ 0 := Nat.mul_ne_zero (by simp only [binade] at hle; omega) (by omega)
      have hlo : twoTo (52 + m.shift) ≤ m.units := by
        rw [twoTo_add, ← hbinade]
        exact Nat.mul_le_mul_right _ hle
      have hhi : m.units < twoTo (53 + m.shift) := by
        rw [twoTo_add, ← hdouble]
        exact Nat.mul_lt_mul_of_pos_right hlt hpow
      have h₁ := (le_log2_iff hne).mpr hlo
      have h₂ := (log2_lt_iff hne).mpr hhi
      omega
  simp only [nearestRank, Nat.div_one, hshift, Nat.one_mul]
  rw [Magnitude.units, divHalfEven_mul _ (twoTo_pos _)]
  exact m.rank_eq.symm

namespace Binary64

/-- The number of a given sign and rank; the ranks from `rankBound` on give infinity. -/
def ofRank (negative : Bool) (rank : Nat) : Binary64 :=
  if h : rank < rankBound then finite negative ⟨rank, h⟩ else infinity negative

/-- The number nearest to `num / den` units, with the given sign. -/
def ofUnits (negative : Bool) (num den : Nat) : Binary64 :=
  ofRank negative (nearestRank num den)

@[simp] theorem ofRank_rank (s : Bool) (m : Magnitude) : ofRank s m.rank = finite s m := by
  simp [ofRank, m.rank_lt]

theorem ofRank_cases (s : Bool) (rank : Nat) :
    (∃ m, ofRank s rank = finite s m) ∨ ofRank s rank = infinity s := by
  by_cases h : rank < rankBound
  · exact .inl ⟨_, dif_pos h⟩
  · exact .inr (dif_neg h)

/-- A finite number is what its units round to. -/
theorem ofUnits_units (s : Bool) (m : Magnitude) : ofUnits s m.units 1 = finite s m := by
  rw [ofUnits, nearestRank_units, ofRank_rank]

/-- The number nearest to `num / den`, with the given sign. -/
def ofRatio (negative : Bool) (num den : Nat) : Binary64 :=
  ofUnits negative (num * unitsPerOne) den

/-- The number nearest to an integer. -/
def ofInt (n : Int) : Binary64 :=
  ofRatio (n < 0) n.natAbs 1

/-- The place of the sign among the bits, above 63 bits of rank. -/
def signBit : Nat := 0x8000000000000000

/-- The number that 64 bits encode: the sign, then the rank.  Past the rank of infinity there are
only not-a-numbers. -/
def ofBits (bits : Nat) : Binary64 :=
  let rank := bits % signBit
  if rank ≤ rankBound then ofRank (bits / signBit % 2 = 1) rank else nan

/-- Zero with a sign. -/
def zero (negative : Bool) : Binary64 :=
  finite negative Magnitude.zero

/-- One. -/
def one : Binary64 :=
  ofInt 1

/-! ## Reading a number -/

/-- A sign and a size as an integer. -/
def signed (negative : Bool) (n : Nat) : Int :=
  if negative then -n else n

theorem natAbs_signed (s : Bool) (n : Nat) : (signed s n).natAbs = n := by
  cases s <;> simp [signed]

theorem signed_mul (s : Bool) (a b : Nat) : signed s (a * b) = signed s a * b := by
  cases s with
  | false => exact Int.natCast_mul a b
  | true =>
    show -((a * b : Nat) : Int) = -(a : Int) * b
    rw [Int.natCast_mul, Int.neg_mul]

/-- Neither infinite nor not-a-number. -/
def isFinite : Binary64 → Bool
  | finite .. => true
  | _ => false

def isInfinite : Binary64 → Bool
  | infinity _ => true
  | _ => false

/-- Whether the number is zero, of either sign. -/
def isZero : Binary64 → Bool
  | finite _ m => m.rank == 0
  | _ => false

/-- The whole number that the number is, if it is one. -/
def toInt? : Binary64 → Option Int
  | finite s m =>
    if m.units % unitsPerOne = 0 then some (signed s (m.units / unitsPerOne)) else none
  | _ => none

/-- The number cut to a whole number towards zero, if it is finite. -/
def truncated? : Binary64 → Option Int
  | finite s m => some (signed s (m.units / unitsPerOne))
  | _ => none

/-- The place of the number in the order of the format: the rank with its sign, the same for both
zeros, and none for not-a-number. -/
def order? : Binary64 → Option Int
  | nan => none
  | infinity s => some (signed s rankBound)
  | finite s m => some (signed s m.rank)

/-- Strictly less; false as soon as not-a-number takes part. -/
def lt (x y : Binary64) : Bool :=
  match x.order?, y.order? with
  | some a, some b => a < b
  | _, _ => false

/-- Less or equal; false as soon as not-a-number takes part. -/
def le (x y : Binary64) : Bool :=
  match x.order?, y.order? with
  | some a, some b => a ≤ b
  | _, _ => false

/-- Strictly below zero. -/
def isNegative (x : Binary64) : Bool :=
  x.lt (zero false)

/-! ## Sign -/

/-- The number with the opposite sign; not-a-number has none. -/
def neg : Binary64 → Binary64
  | nan => nan
  | infinity s => infinity (!s)
  | finite s m => finite (!s) m

/-- The number without its sign. -/
def abs : Binary64 → Binary64
  | nan => nan
  | infinity _ => infinity false
  | finite _ m => finite false m

example : ofBits 0x3FF8000000000000 = ofRatio false 3 2 := by decide +kernel
example : (ofRatio true 5 2).toInt? = none ∧ (ofInt (-4)).toInt? = some (-4) := by decide +kernel

/-! ## Integers of any size

A long integer is turned into a floating-point number in two steps.  It is cut to its leading 64
bits, and if something was noticed behind them, the last of these bits is set: a sticky bit.  The
64 bits are then rounded, and the sticky bit tells a number above a halfway point from the point
itself.

An integer is a row of words of 64 bits, the highest of which may be shorter.  In every word below
it, only as many low bits are noticed as the highest word has.  An integer of one or two words
is therefore rounded to the nearest number; a longer one whose leading 64 bits end at a halfway
point may be rounded as if it were that point, though bits that go unnoticed put it above.
-/

/-- The number of bits of a word, and of the leading part of an integer that is rounded. -/
def wordBits : Nat := 64

/-- How many words an integer has below its highest. -/
def lowerWords (n : Nat) : Nat :=
  (bitLength n - 1) / wordBits

/-- How many bits the highest word of an integer has. -/
def topBits (n : Nat) : Nat :=
  (bitLength n - 1) % wordBits + 1

/-- Whether one of the `width` lowest bits of a word is set, for some of the `count` lowest words
of `n`. -/
def anyLowBit (width : Nat) : (count n : Nat) → Bool
  | 0, _ => false
  | count + 1, n => n % twoTo width != 0 || anyLowBit width count (n / twoTo wordBits)

/-- How many bits are cut off behind the leading ones. -/
def cutBits (n : Nat) : Nat :=
  bitLength n - wordBits

/-- The leading bits of an integer, the last of them set if something was noticed behind them. -/
def leadingBits (n : Nat) : Nat :=
  let kept := n / twoTo (cutBits n)
  if kept % 2 = 0 ∧ anyLowBit (topBits n) (lowerWords n) n then kept + 1 else kept

/-- With more bits than this behind the leading ones an integer is out of range, whatever they
are. -/
def farBits : Nat := 1024

/-- An integer of any size as a floating-point number: its leading bits, rounded. -/
def ofLongInt (n : Int) : Binary64 :=
  if farBits < cutBits n.natAbs then infinity (n < 0)
  else ofRatio (n < 0) (leadingBits n.natAbs * twoTo (cutBits n.natAbs)) 1

theorem leadingBits_of_le {n : Nat} (h : bitLength n ≤ wordBits) : leadingBits n = n := by
  have hcut : cutBits n = 0 := Nat.sub_eq_zero_of_le h
  have hwords : lowerWords n = 0 := by
    simp only [lowerWords, wordBits] at *
    omega
  simp only [leadingBits, hcut, hwords, anyLowBit, twoTo_zero, Nat.div_one, Bool.false_eq_true,
    and_false, if_false]

/-- An integer of one word is rounded to the nearest number. -/
theorem ofLongInt_eq_ofInt {n : Int} (h : bitLength n.natAbs ≤ wordBits) :
    ofLongInt n = ofInt n := by
  have hcut : cutBits n.natAbs = 0 := Nat.sub_eq_zero_of_le h
  rw [ofLongInt, leadingBits_of_le h, hcut, if_neg (by decide), twoTo_zero, Nat.mul_one, ofInt]

/-! Halfway points of five words: a bit above the noticed ones leaves the point as it is and it
goes to the even neighbour, a noticed one moves it up. -/

example : ofLongInt ((twoTo 53 + 1) * twoTo 205 + twoTo 40 : Nat) = ofInt (twoTo 258 : Nat) := by
  decide +kernel
example : ofLongInt ((twoTo 53 + 1) * twoTo 205 + twoTo 1 : Nat) =
    ofInt ((twoTo 53 + 2) * twoTo 205 : Nat) := by
  decide +kernel

/-! ## Arithmetic

Sum, product, quotient, remainder, square root and rounding to a whole number: each takes the
exact result in units and rounds it once.  The special cases around infinities, zeros and
not-a-number are those of the IEEE 754 standard.
-/

/-- The sum.  A sum that is exactly zero is negative only if both terms are. -/
def add : Binary64 → Binary64 → Binary64
  | nan, _ => nan
  | _, nan => nan
  | infinity s, infinity t => if s = t then infinity s else nan
  | infinity s, finite .. => infinity s
  | finite .., infinity t => infinity t
  | finite s a, finite t b =>
    let total := signed s a.units + signed t b.units
    ofUnits (total < 0 || (total == 0 && s && t)) total.natAbs 1

/-- The difference. -/
def sub (x y : Binary64) : Binary64 :=
  x.add y.neg

/-- The product. -/
def mul : Binary64 → Binary64 → Binary64
  | nan, _ => nan
  | _, nan => nan
  | infinity s, infinity t => infinity (s ^^ t)
  | infinity s, finite t b => if b.rank = 0 then nan else infinity (s ^^ t)
  | finite s a, infinity t => if a.rank = 0 then nan else infinity (s ^^ t)
  | finite s a, finite t b => ofUnits (s ^^ t) (a.units * b.units) unitsPerOne

/-- The quotient; over zero it is infinite, and not-a-number if zero is divided. -/
def div : Binary64 → Binary64 → Binary64
  | nan, _ => nan
  | _, nan => nan
  | infinity _, infinity _ => nan
  | infinity s, finite t _ => infinity (s ^^ t)
  | finite s _, infinity t => zero (s ^^ t)
  | finite s a, finite t b =>
    if b.rank = 0 then
      if a.rank = 0 then nan else infinity (s ^^ t)
    else ofUnits (s ^^ t) (a.units * unitsPerOne) b.units

/-- The remainder of the division cut towards zero; it is exact and has the dividend's sign. -/
def rem : Binary64 → Binary64 → Binary64
  | nan, _ => nan
  | _, nan => nan
  | infinity _, _ => nan
  | finite s a, infinity _ => finite s a
  | finite s a, finite _ b => if b.rank = 0 then nan else ofUnits s (a.units % b.units) 1

/-- The remainder of the division cut downwards: a remainder whose sign is not the divisor's is
moved by one divisor. -/
def floorMod (x y : Binary64) : Binary64 :=
  let r := x.rem y
  if !r.isZero && r.isNegative != y.isNegative then r.add y else r

/-- The nearest whole number, of two equally near ones the even one, with the sign kept. -/
def roundEven : Binary64 → Binary64
  | finite s m => ofRatio s (divHalfEven m.units unitsPerOne) 1
  | x => x

/-- The square root.  A root that is no whole number of units is told apart from its neighbours
by a half unit, which is finer than any rounding boundary of the format. -/
def sqrt : Binary64 → Binary64
  | nan => nan
  | infinity s => if s then nan else infinity false
  | finite s m =>
    if m.rank = 0 then finite s m
    else if s then nan
    else
      let square := m.units * unitsPerOne
      let root := square.sqrt
      ofUnits false (2 * root + if root * root = square then 0 else 1) 2

/-- Ten to the power `n` by repeated squaring, from the lowest binary digit of `n` up, rounding
after each product.  `places` is the number of binary digits still to be read. -/
def tenPowFrom : (places n : Nat) → (square product : Binary64) → Binary64
  | 0, _, _, product => product
  | places + 1, n, square, product =>
    tenPowFrom places (n / 2) (square.mul square)
      (if n % 2 = 1 then product.mul square else product)

/-- Ten to the power `n`, rounded product by product; infinite from 309 on. -/
def tenPow (n : Nat) : Binary64 :=
  tenPowFrom (n.log2 + 1) n (ofInt 10) one

/-! ### Two constants -/

/-- The number nearest to π. -/
def pi : Binary64 := ofBits 0x400921FB54442D18

/-- The number nearest to Euler's number e. -/
def e : Binary64 := ofBits 0x4005BF0A8B145769

example : (ofRatio false 1 10).add (ofRatio false 2 10) = ofBits 0x3FD3333333333334 := by
  decide +kernel
example : (ofInt 7).floorMod (ofInt (-3)) = ofInt (-2) := by decide +kernel
example : (ofInt 2).sqrt = ofBits 0x3FF6A09E667F3BCD := by decide +kernel
example : tenPow 309 = infinity false ∧ tenPow 2 = ofInt 100 := by decide +kernel

end Binary64
end SciCalc
