import SciCalc.Proofs.FiniteNumbers

/-! # The error of rounding

A number that is at least the least one with a full significand (`leastNormal`) is changed by
rounding by no more than a part in `2 ^ 53` (`Binary64.IsRounded.error_le`).
-/
namespace SciCalc

/-- The part of a number by which rounding changes it at most. -/
def roundingError : ℚ :=
  1 / 2 ^ 53

theorem roundingError_pos : 0 < roundingError := by
  rw [roundingError]
  positivity

theorem roundingError_lt_one : roundingError < 1 := by
  rw [roundingError]
  norm_num

theorem one_add_roundingError_mul : (1 + roundingError) * twoTo 53 = twoTo 53 + 1 := by
  rw [roundingError, twoTo]
  norm_num

/-- From `2 ^ 52` units on, half a step is no more than that part of the number. -/
theorem abs_unitsOfRank_nearestRank_sub_le {num den : ℕ} (hden : 0 < den)
    (h : binade * den ≤ num) :
    |(unitsOfRank (nearestRank num den) : ℚ) - num / den| ≤ num / den * roundingError := by
  have hleast : twoTo (52 + roundingShift num den) ≤ num / den := by
    by_cases hshift : roundingShift num den = 0
    · rw [hshift]
      exact (Nat.le_div_iff_mul_le hden).mpr h
    · exact twoTo_le_of_roundingShift hshift
  rw [unitsOfRank_nearestRank]
  have hden' : 0 < den * twoTo (roundingShift num den) := Nat.mul_pos hden (twoTo_pos _)
  obtain ⟨hlow, hhigh⟩ := divHalfEven_near num hden'
  generalize divHalfEven num (den * twoTo (roundingShift num den)) = n at *
  generalize roundingShift num den = shift at *
  have hdenQ : (0 : ℚ) < den := Nat.cast_pos.mpr hden
  have hstep : (2 : ℚ) ^ 52 * twoTo shift ≤ num / den := by
    rw [le_div_iff₀ hdenQ]
    have hle := (Nat.le_div_iff_mul_le hden).mp hleast
    rw [twoTo_add] at hle
    exact_mod_cast hle
  have hlow' : (2 : ℚ) * num ≤ (2 * n + 1) * (den * twoTo shift) := by exact_mod_cast hlow
  have hhigh' : (2 : ℚ) * n * (den * twoTo shift) ≤ 2 * num + den * twoTo shift := by
    exact_mod_cast hhigh
  have hquotient : (num : ℚ) / den * den = num := div_mul_cancel₀ _ hdenQ.ne'
  generalize (num : ℚ) / den = q at *
  have hhalf : |((n * twoTo shift : ℕ) : ℚ) - q| ≤ twoTo shift / 2 := by
    rw [Nat.cast_mul, abs_le]
    constructor <;> refine le_of_mul_le_mul_right ?_ hdenQ <;> linarith
  refine hhalf.trans ?_
  rw [roundingError]
  linarith

/-- The units of one are those of the second binade, shifted. -/
theorem unitsPerOne_eq : unitsPerOne = binade * twoTo 1022 := by
  have hbinade : binade = twoTo 52 := rfl
  have hplaces : unitPlaces = 52 + 1022 := rfl
  rw [unitsPerOne, hplaces, twoTo_add, hbinade]

/-- The least number with a full significand. -/
def leastNormal : ℚ :=
  1 / twoTo 1022

theorem leastNormal_pos : 0 < leastNormal :=
  one_div_pos.mpr (Nat.cast_pos.mpr (twoTo_pos 1022))

theorem leastNormal_le_one : leastNormal ≤ 1 :=
  div_le_one_of_le₀ (Nat.one_le_cast.mpr (twoTo_pos 1022)) (Nat.cast_nonneg _)

/-- The numbers from the least one on are those that are not in the first binade. -/
theorem leastNormal_le_toRat_iff {m : Magnitude} : leastNormal ≤ m.toRat ↔ binade ≤ m.rank := by
  have hone : (0 : ℚ) < unitsPerOne := Nat.cast_pos.mpr unitsPerOne_pos
  have hpow : (0 : ℚ) < twoTo 1022 := Nat.cast_pos.mpr (twoTo_pos 1022)
  have hleast : unitsOfRank (binade + 0 * binade) = binade * twoTo 0 :=
    unitsOfRank_add (fun _ => le_rfl) (Nat.le_mul_of_pos_left _ Nat.two_pos)
  rw [Nat.zero_mul, Nat.add_zero, twoTo_zero, Nat.mul_one] at hleast
  rw [← unitsOfRank_strictMono.le_iff_le, hleast, ← Magnitude.units_eq, leastNormal,
    Magnitude.toRat, div_le_div_iff₀ hpow hone, one_mul, unitsPerOne_eq, ← Nat.cast_mul,
    Nat.cast_le]
  exact Nat.mul_le_mul_right_iff (twoTo_pos 1022)

namespace Binary64
variable {s : Bool} {q : ℚ} {x : Binary64} {m : Magnitude}

/-- The rank of a correctly rounded number that is finite is the nearest one. -/
theorem IsRounded.isNearest (h : IsRounded s q (finite s m)) : IsNearest rankValue q m.rank := by
  obtain ⟨rank, hnear, hrank⟩ := h
  rw [ofRank] at hrank
  split at hrank
  · cases hrank
    exact hnear
  · cases hrank

theorem IsRounded.infinite_or_finite (h : IsRounded s q x) :
    x = infinity s ∨ ∃ m, x = finite s m := by
  obtain ⟨rank, -, rfl⟩ := h
  exact (ofRank_cases s rank).symm

/-- **A number that is not too small is rounded with a small relative error.** -/
theorem IsRounded.error_le (h : IsRounded s q (finite s m)) (hq : leastNormal ≤ q) :
    |m.toRat - q| ≤ q * roundingError := by
  have hone : (0 : ℚ) < unitsPerOne := Nat.cast_pos.mpr unitsPerOne_pos
  obtain ⟨num, hnum⟩ := Int.eq_ofNat_of_zero_le (Rat.num_nonneg.mpr (leastNormal_pos.le.trans hq))
  have hden : 0 < q.den := q.den_pos
  have hvalue : q = num / q.den := by
    have hfraction := Rat.num_div_den q
    rw [hnum, Int.cast_natCast] at hfraction
    exact hfraction.symm
  generalize q.den = den at *
  have hunits : ((num * unitsPerOne : ℕ) : ℚ) / den = q * unitsPerOne := by
    rw [hvalue, Nat.cast_mul, mul_div_right_comm]
  have hnear := (isNearest_nearestRank (num * unitsPerOne) hden).mul (inv_pos.mpr hone)
  rw [hunits, mul_inv_cancel_right₀ hone.ne'] at hnear
  have hrank := h.isNearest.unique rankValue_strictMono hnear
  have hlarge : binade * den ≤ num * unitsPerOne := by
    have hle : den ≤ num * twoTo 1022 := by
      rw [hvalue, leastNormal, div_le_div_iff₀ (Nat.cast_pos.mpr (twoTo_pos 1022))
        (Nat.cast_pos.mpr hden), one_mul] at hq
      exact_mod_cast hq
    rw [unitsPerOne_eq, Nat.mul_left_comm]
    exact Nat.mul_le_mul_left binade hle
  have herror := abs_unitsOfRank_nearestRank_sub_le hden hlarge
  rw [hunits, ← hrank, ← Magnitude.units_eq] at herror
  have hscale : |m.toRat - q| * unitsPerOne = |(m.units : ℚ) - q * unitsPerOne| := by
    rw [← m.toRat_mul_unitsPerOne, ← sub_mul, abs_mul, abs_of_pos hone]
  refine le_of_mul_le_mul_right ?_ hone
  rw [hscale, mul_right_comm]
  exact herror

end Binary64
end SciCalc
