import SciCalc.Builtin
import SciCalc.Proofs.BitLength

/-! # Integers rounded to tens, hundreds and so on

To round an integer to a number of places before the point is to take the nearest multiple of a
power of ten, and of two equally near ones the one with the even quotient.  There is exactly one
such multiple (`IsNearestMultiple.unique`), and `Builtin.roundToTens` finds it
(`isNearestMultiple_roundToTens`).  In particular its shortcut is right: a power of ten whose
exponent is greater than the number of bits of the integer is more than twice as large as it.

The number of places is first brought into 32 bits.  Of integers with fewer than `2 ^ 31` bits
nothing is left there already, so no result depends on it (`round_integer_exact`).
-/
namespace SciCalc

/-- `r` is the multiple of `unit` nearest to `m`; of two equally near ones, the one with the even
quotient. -/
structure IsNearestMultiple (unit m r : Int) : Prop where
  dvd : unit ∣ r
  nearest : ∀ s, unit ∣ s → |m - r| ≤ |m - s|
  even_of_tie : ∀ s, unit ∣ s → s ≠ r → |m - s| = |m - r| → Even (r / unit)

namespace IsNearestMultiple
variable {unit m r r' : Int}

/-- Two multiples are at least one unit apart. -/
theorem le_distance (hr : unit ∣ r) (hs : unit ∣ r') (hne : r' ≠ r) : unit ≤ |r' - r| :=
  Int.le_of_dvd (abs_pos.mpr (sub_ne_zero.mpr hne)) ((dvd_abs _ _).mpr (dvd_sub hs hr))

/-- The nearest multiple is the one that is at most half a unit away. -/
theorem iff_half_unit (hunit : 0 < unit) : IsNearestMultiple unit m r ↔
    unit ∣ r ∧ 2 * |m - r| ≤ unit ∧ (2 * |m - r| = unit → Even (r / unit)) := by
  constructor
  · intro h
    -- The neighbour on the side of `m` is no nearer, and as near only if `m` is halfway.
    have hup : unit ∣ r + unit := dvd_add h.dvd (dvd_refl unit)
    have hdown : unit ∣ r - unit := dvd_sub h.dvd (dvd_refl unit)
    have hnearUp := h.nearest _ hup
    have hnearDown := h.nearest _ hdown
    have htieUp := h.even_of_tie _ hup (by omega)
    have htieDown := h.even_of_tie _ hdown (by omega)
    simp only [Int.abs_eq_natAbs] at *
    refine ⟨h.dvd, by omega, fun htie => ?_⟩
    rcases Int.le_total r m with hle | hle
    · exact htieUp (by omega)
    · exact htieDown (by omega)
  · rintro ⟨hdvd, hhalf, htie⟩
    refine ⟨hdvd, fun s hs => ?_, fun s hs hne heq => htie ?_⟩
    · rcases eq_or_ne s r with rfl | hne
      · exact le_refl _
      · have hapart := le_distance hdvd hs hne
        simp only [Int.abs_eq_natAbs] at *
        omega
    · have hapart := le_distance hdvd hs hne
      simp only [Int.abs_eq_natAbs] at *
      omega

theorem unique (hunit : 0 < unit) (h : IsNearestMultiple unit m r)
    (h' : IsNearestMultiple unit m r') : r' = r := by
  obtain ⟨⟨a, rfl⟩, hhalf, htie⟩ := (iff_half_unit hunit).mp h
  obtain ⟨⟨b, rfl⟩, hhalf', htie'⟩ := (iff_half_unit hunit).mp h'
  by_contra hne
  -- Two different ones are both halfway, but neighbours do not both have an even quotient.
  have hapart := le_distance (Dvd.intro a rfl) (Dvd.intro b rfl) hne
  rw [Int.mul_ediv_cancel_left _ hunit.ne'] at htie htie'
  have hone : unit * b - unit * a = unit ∨ unit * b - unit * a = -unit := by
    simp only [Int.abs_eq_natAbs] at *
    omega
  have ha : Even a := htie (by simp only [Int.abs_eq_natAbs] at *; omega)
  have hb : Even b := htie' (by simp only [Int.abs_eq_natAbs] at *; omega)
  have hdiff : b - a = 1 ∨ b - a = -1 := by
    rw [← mul_sub] at hone
    refine hone.imp (fun h => ?_) fun h => ?_
    · exact mul_left_cancel₀ hunit.ne' (h.trans (mul_one unit).symm)
    · exact mul_left_cancel₀ hunit.ne' (h.trans (mul_neg_one unit).symm)
  rw [Int.even_iff] at ha hb
  omega

theorem neg (hunit : 0 < unit) (h : IsNearestMultiple unit m r) :
    IsNearestMultiple unit (-m) (-r) := by
  obtain ⟨hdvd, hhalf, htie⟩ := (iff_half_unit hunit).mp h
  have hdistance : |-m - -r| = |m - r| := by rw [neg_sub_neg, abs_sub_comm]
  rw [iff_half_unit hunit, hdistance, Int.neg_ediv_of_dvd hdvd, even_neg]
  exact ⟨dvd_neg.mpr hdvd, hhalf, htie⟩

/-- Zero is nearest to what is less than half a unit. -/
theorem zero (h : 2 * |m| < unit) : IsNearestMultiple unit m 0 := by
  have hunit : 0 < unit := (mul_nonneg (by decide) (abs_nonneg m)).trans_lt h
  rw [iff_half_unit hunit, sub_zero]
  exact ⟨dvd_zero unit, h.le, fun htie => absurd htie h.ne⟩

end IsNearestMultiple

/-! ## Rounding to a power of ten -/

/-- A rounded quotient makes up the nearest multiple of the divisor. -/
theorem isNearestMultiple_divHalfEven (num : Nat) {den : Nat} (h : 0 < den) :
    IsNearestMultiple den num (divHalfEven num den * den : Nat) := by
  have hden : (0 : Int) < den := Int.natCast_pos.mpr h
  obtain ⟨hlow, hhigh⟩ := divHalfEven_near num h
  have heven := divHalfEven_even num h
  rw [IsNearestMultiple.iff_half_unit hden]
  generalize divHalfEven num den = q at *
  rw [Nat.cast_mul, Int.mul_ediv_cancel _ hden.ne', ← Nat.cast_mul, Int.abs_eq_natAbs]
  rw [Nat.mul_assoc] at hhigh heven
  rw [Nat.add_mul, Nat.mul_assoc] at hlow
  refine ⟨Int.natCast_dvd_natCast.mpr (Nat.dvd_mul_left den q), by omega, fun htie => ?_⟩
  exact_mod_cast Nat.even_iff.mpr (heven (by omega))

namespace Builtin

section Tens
variable (m : Int) {k : Nat}

theorem roundToTens_of_lt (h : bitLength m.natAbs < k) : roundToTens m k = 0 :=
  if_pos h

/-- An integer is less than half of any power of ten whose exponent is greater than its number of
bits. -/
theorem two_mul_abs_lt (h : bitLength m.natAbs < k) : 2 * |m| < 10 ^ k := by
  have hlt : 2 * m.natAbs < 10 ^ k :=
    calc 2 * m.natAbs < 2 * 2 ^ bitLength m.natAbs :=
          Nat.mul_lt_mul_of_pos_left (lt_two_pow_bitLength _) Nat.two_pos
      _ = 2 ^ (bitLength m.natAbs + 1) := by rw [pow_succ, Nat.mul_comm]
      _ ≤ 2 ^ k := Nat.pow_le_pow_right Nat.two_pos h
      _ ≤ 10 ^ k := Nat.pow_le_pow_left (by decide) k
  rw [Int.abs_eq_natAbs]
  exact_mod_cast hlt

/-- The shortcut for large powers of ten takes the nearest multiple too. -/
theorem isNearestMultiple_roundToTens (k : Nat) :
    IsNearestMultiple (10 ^ k) m (roundToTens m k) := by
  by_cases hshort : bitLength m.natAbs < k
  · rw [roundToTens_of_lt m hshort]
    exact .zero (two_mul_abs_lt m hshort)
  have hsize := isNearestMultiple_divHalfEven m.natAbs (tenTo_pos k)
  have hunit : ((tenTo k : Nat) : Int) = 10 ^ k := Nat.cast_pow 10 k
  have hpos : (0 : Int) < 10 ^ k := by positivity
  rw [hunit] at hsize
  rw [roundToTens, if_neg hshort]
  rcases Int.lt_or_le m 0 with hneg | hnonneg
  · have hm : -(m.natAbs : Int) = m := by omega
    have hnear := hsize.neg hpos
    rw [hm] at hnear
    rw [decide_eq_true hneg]
    exact hnear
  · have hm : (m.natAbs : Int) = m := by omega
    rw [hm] at hsize
    rw [decide_eq_false (Int.not_lt.mpr hnonneg)]
    exact hsize

theorem roundToTens_neg (k : Nat) : roundToTens (-m) k = -roundToTens m k :=
  have hpos : (0 : Int) < 10 ^ k := by positivity
  ((isNearestMultiple_roundToTens m k).neg hpos).unique hpos (isNearestMultiple_roundToTens (-m) k)

end Tens

/-! ## Any number of places -/

theorem clampPlaces_nonneg_iff {n : Int} : 0 ≤ clampPlaces n ↔ 0 ≤ n := by
  simp only [clampPlaces, placesRange]
  omega

theorem natAbs_clampPlaces {n : Int} (hn : n < 0) :
    (clampPlaces n).natAbs = min n.natAbs (2 ^ 31) := by
  simp only [clampPlaces, placesRange]
  omega

section Places
variable {m : Int} (hm : bitLength m.natAbs < 2 ^ 31) (n : Int)
include hm

/-- Bringing the number of places into 32 bits changes no result. -/
theorem roundPlaces_integer : roundPlaces (.int m) (.int n) =
    .ok (.int (if 0 ≤ n then m else roundToTens m n.natAbs)) := by
  have hround : roundPlaces (.int m) (.int n) =
    .ok (.int (if 0 ≤ clampPlaces n then m else roundToTens m (clampPlaces n).natAbs)) := rfl
  rw [hround]
  by_cases hnonneg : 0 ≤ n
  · rw [if_pos hnonneg, if_pos (clampPlaces_nonneg_iff.mpr hnonneg)]
  rw [if_neg hnonneg, if_neg (mt clampPlaces_nonneg_iff.mp hnonneg),
    natAbs_clampPlaces (Int.not_le.mp hnonneg)]
  rcases Nat.le_total n.natAbs (2 ^ 31) with hle | hle
  · rw [Nat.min_eq_left hle]
  · -- Nothing is left of `m` at either number of places.
    rw [Nat.min_eq_right hle, roundToTens_of_lt m hm, roundToTens_of_lt m (hm.trans_le hle)]

/-- **Rounding an integer to tens and beyond.**  An integer of fewer than `2 ^ 31` bits, rounded to
any number of places, is an integer: the integer itself if the number is not negative, and otherwise
the nearest multiple of the power of ten, of two equally near ones the one with the even quotient.
The integer with the opposite sign is rounded to the result with the opposite sign. -/
theorem round_integer_exact (mode : AngleMode) :
    ∃ r, round.apply mode [.int m, .int n] = .ok (.int r) ∧
      (0 ≤ n → r = m) ∧
      (n < 0 → ∀ s, IsNearestMultiple (10 ^ n.natAbs) m s ↔ s = r) ∧
      round.apply mode [.int (-m), .int n] = .ok (.int (-r)) := by
  have hneg : bitLength (-m).natAbs < 2 ^ 31 := by rwa [Int.natAbs_neg]
  refine ⟨_, roundPlaces_integer hm n, fun hn => if_pos hn, fun hn s => ?_, ?_⟩
  · have hpos : (0 : Int) < 10 ^ n.natAbs := by positivity
    have hnear := isNearestMultiple_roundToTens m n.natAbs
    rw [if_neg (Int.not_le.mpr hn)]
    constructor
    · intro hs
      exact hnear.unique hpos hs
    · rintro rfl
      exact hnear
  · refine (roundPlaces_integer hneg n).trans ?_
    split
    · rfl
    · rw [roundToTens_neg]

end Places

/-- `round(-1250, -2)` is halfway and goes to the even number of hundreds. -/
theorem round_integer_exact_of_tie :
    bitLength (-1250 : Int).natAbs < 2 ^ 31 ∧
    round.apply .degrees [.int (-1250), .int (-2)] = .ok (.int (-1200)) ∧
    (∀ s, IsNearestMultiple (10 ^ 2) (-1250) s ↔ s = -1200) ∧
    round.apply .degrees [.int 1250, .int (-2)] = .ok (.int 1200) := by
  have hbits : bitLength (-1250 : Int).natAbs < 2 ^ 31 := by decide
  have hround : round.apply .degrees [.int (-1250), .int (-2)] = .ok (.int (-1200)) := by rfl
  obtain ⟨r, hr, -, hnear, hneg⟩ := round_integer_exact hbits (-2) .degrees
  have hvalue : r = -1200 := by
    rw [hround] at hr
    cases hr
    rfl
  subst hvalue
  exact ⟨hbits, hround, hnear (by decide), hneg⟩

end Builtin
end SciCalc
