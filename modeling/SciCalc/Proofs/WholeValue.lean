import Mathlib
import SciCalc.Value

/-! # Whole values

A value is a whole number if it is an exact integer, or a floating-point number whose units make up
that many ones.  `Value.toInt?` finds this integer whenever there is one (`Value.isWhole_iff`).  So
infinities, not-a-number and numbers with a fraction are no whole numbers, and the negative zero is
zero.
-/
namespace SciCalc

/-- A value is a whole number: an exact integer, or a floating-point number that has as many
units. -/
inductive Value.IsWhole : Value → Int → Prop
  | int (n : Int) : IsWhole (.int n) n
  | real {s : Bool} {m : Magnitude} {n : Int} (h : Binary64.signed s m.units = n * unitsPerOne) :
    IsWhole (.real (.finite s m)) n

/-- The number that a magnitude is. -/
def Magnitude.toRat (m : Magnitude) : ℚ :=
  m.units / unitsPerOne

theorem Magnitude.toRat_nonneg (m : Magnitude) : 0 ≤ m.toRat :=
  div_nonneg (Nat.cast_nonneg _) (Nat.cast_nonneg _)

theorem Magnitude.toRat_pos_iff {m : Magnitude} : 0 < m.toRat ↔ 0 < m.units := by
  rw [Magnitude.toRat, div_pos_iff_of_pos_right (Nat.cast_pos.mpr unitsPerOne_pos), Nat.cast_pos]

/-- A value is a number: an exact integer, or a finite floating-point number. -/
inductive Value.IsNumber : Value → ℚ → Prop
  | int (n : Int) : IsNumber (.int n) n
  | real (s : Bool) (m : Magnitude) :
    IsNumber (.real (.finite s m)) (if s then -m.toRat else m.toRat)

namespace Binary64
variable {s : Bool} {m : Magnitude} {n : Int}

theorem toInt?_of_units (h : signed s m.units = n * unitsPerOne) :
    (finite s m).toInt? = some n := by
  have hpos : (unitsPerOne : Int) ≠ 0 := by exact_mod_cast unitsPerOne_pos.ne'
  have hsize : m.units = n.natAbs * unitsPerOne := by
    have habs := congrArg Int.natAbs h
    rwa [natAbs_signed, Int.natAbs_mul, Int.natAbs_natCast] at habs
  have hn : signed s n.natAbs = n := by
    rw [hsize, signed_mul] at h
    exact mul_right_cancel₀ hpos h
  rw [toInt?, hsize, if_pos (Nat.mul_mod_left _ _), Nat.mul_div_cancel _ unitsPerOne_pos, hn]

theorem units_of_toInt? (h : (finite s m).toInt? = some n) :
    signed s m.units = n * unitsPerOne := by
  rw [toInt?] at h
  split at h
  · rename_i hmod
    rw [← Option.some.inj h, ← signed_mul, Nat.div_mul_cancel (Nat.dvd_of_mod_eq_zero hmod)]
  · cases h

end Binary64

namespace Value
variable {v : Value} {n : Int}

theorem isWhole_iff : v.IsWhole n ↔ v.toInt? = some n := by
  constructor
  · intro h
    cases h with
    | int => rfl
    | real h => exact Binary64.toInt?_of_units h
  · intro h
    match v with
    | .int k =>
      cases h
      exact .int n
    | .real (.finite s m) => exact .real (Binary64.units_of_toInt? h)
    | .real .nan | .real (.infinity _) => cases h

theorem toInt?_eq_none_iff : v.toInt? = none ↔ ¬ ∃ n, v.IsWhole n := by
  simp only [isWhole_iff, Option.eq_none_iff_forall_ne_some, not_exists]

end Value
end SciCalc
