import SciCalc.Proofs.CorrectRounding
import SciCalc.Proofs.WholeValue

/-! # Finite numbers

A number of units is a magnitude if a significand of 53 bits, shifted, makes it up
(`Magnitude.exists_units`).  So the remainder of two magnitudes is a magnitude again, and remainders
of finite numbers are not rounded (`Binary64.rem_finite`).  Nor are differences of whole numbers of
53 bits (`Binary64.toInt?_sub`).

Sums, products and quotients of finite numbers are correctly rounded.  What is correctly rounded
and no greater than a magnitude is finite, and no greater than that magnitude either
(`Binary64.IsRounded.exists_le`).
-/
namespace SciCalc

/-! ## Magnitudes -/

/-- A significand that is shifted is its own rounding. -/
theorem unitsOfRank_nearestRank_of_lt {n : ℕ} (hn : n < 2 * binade) (shift : ℕ) :
    unitsOfRank (nearestRank (n * twoTo shift) 1) = n * twoTo shift := by
  rcases Nat.eq_zero_or_pos n with rfl | hpos
  · rw [unitsOfRank_nearestRank, Nat.zero_mul, divHalfEven_zero, Nat.zero_mul]
  have hle : roundingShift (n * twoTo shift) 1 ≤ shift := by
    have hlt : n * twoTo shift < twoTo (53 + shift) := by
      rw [twoTo_add]
      exact Nat.mul_lt_mul_of_pos_right hn (twoTo_pos shift)
    have hlog := (log2_lt_iff (Nat.mul_pos hpos (twoTo_pos shift)).ne').mpr hlt
    rw [roundingShift, Nat.div_one]
    omega
  obtain ⟨more, hmore⟩ := Nat.exists_eq_add_of_le' hle
  have hsplit : n * twoTo shift = n * twoTo more * twoTo (roundingShift (n * twoTo shift) 1) := by
    rw [Nat.mul_assoc, ← twoTo_add, ← hmore]
  rw [unitsOfRank_nearestRank, Nat.one_mul]
  generalize roundingShift (n * twoTo shift) 1 = least at *
  rw [hsplit, divHalfEven_mul _ (twoTo_pos least)]

namespace Magnitude
variable {a b m : Magnitude}

theorem units_lt_iff : a.units < b.units ↔ a.rank < b.rank :=
  unitsOfRank_strictMono.lt_iff_lt

theorem units_le_iff : a.units ≤ b.units ↔ a.rank ≤ b.rank :=
  unitsOfRank_strictMono.le_iff_le

theorem units_pos_iff : 0 < m.units ↔ 0 < m.rank :=
  unitsOfRank_strictMono.lt_iff_lt (a := 0)

theorem toRat_le_iff : a.toRat ≤ b.toRat ↔ a.units ≤ b.units := by
  rw [toRat, toRat, div_le_div_iff_of_pos_right (Nat.cast_pos.mpr unitsPerOne_pos), Nat.cast_le]

theorem toRat_lt_iff : a.toRat < b.toRat ↔ a.units < b.units := by
  rw [toRat, toRat, div_lt_div_iff_of_pos_right (Nat.cast_pos.mpr unitsPerOne_pos), Nat.cast_lt]

theorem toRat_eq_div {num den : ℕ} (hden : 0 < den) (h : m.units * den = num * unitsPerOne) :
    m.toRat = num / den := by
  have hone : (unitsPerOne : ℚ) ≠ 0 := Nat.cast_ne_zero.mpr unitsPerOne_pos.ne'
  rw [toRat, div_eq_div_iff hone (Nat.cast_ne_zero.mpr hden.ne')]
  exact_mod_cast h

theorem toRat_mul_unitsPerOne (m : Magnitude) : m.toRat * unitsPerOne = m.units :=
  div_mul_cancel₀ _ (Nat.cast_ne_zero.mpr unitsPerOne_pos.ne')

theorem toRat_of_whole {n : ℕ} (h : m.units = n * unitsPerOne) : m.toRat = n := by
  rw [toRat_eq_div Nat.one_pos (by rw [h, Nat.mul_one]), Nat.cast_one, div_one]

/-- The greatest magnitude. -/
def greatest : Magnitude :=
  ⟨rankBound - 1, by decide⟩

theorem units_le_greatest (m : Magnitude) : m.units ≤ greatest.units :=
  units_le_iff.mpr (Nat.le_sub_one_of_lt m.rank_lt)

/-- A shifted significand that is no greater than a magnitude is a magnitude. -/
theorem exists_units {n shift : ℕ} (hn : n < 2 * binade) (hle : n * twoTo shift ≤ a.units) :
    ∃ m : Magnitude, m.units = n * twoTo shift := by
  have hunits := unitsOfRank_nearestRank_of_lt hn shift
  have hrank : nearestRank (n * twoTo shift) 1 ≤ a.rank := by
    rw [← unitsOfRank_strictMono.le_iff_le, hunits]
    exact hle
  exact ⟨⟨_, hrank.trans_lt a.rank_lt⟩, hunits⟩

/-- The remainder of two magnitudes is a magnitude: it is a multiple of the smaller one's step, and
it is less than the divisor and at most the dividend. -/
theorem exists_units_mod (hb : 0 < b.units) : ∃ m : Magnitude, m.units = a.units % b.units := by
  have hless : a.units % b.units ≤ b.units := (Nat.mod_lt _ hb).le
  have hmost : a.units % b.units ≤ a.units := Nat.mod_le _ _
  rcases Nat.le_total b.shift a.shift with hshift | hshift
  · obtain ⟨more, hmore⟩ := Nat.exists_eq_add_of_le' hshift
    have hrest : a.units % b.units =
        (a.significand * twoTo more % b.significand) * twoTo b.shift := by
      rw [units, units, hmore, twoTo_add, ← Nat.mul_assoc, Nat.mul_mod_mul_right]
    have hpos : 0 < b.significand := Nat.pos_of_mul_pos_right hb
    rw [hrest] at hless ⊢
    exact exists_units ((Nat.mod_lt _ hpos).trans b.significand_lt) hless
  · obtain ⟨more, hmore⟩ := Nat.exists_eq_add_of_le' hshift
    have hrest : a.units % b.units =
        (a.significand % (b.significand * twoTo more)) * twoTo a.shift := by
      rw [units, units, hmore, twoTo_add, ← Nat.mul_assoc, Nat.mul_mod_mul_right]
    rw [hrest] at hmost ⊢
    exact exists_units ((Nat.mod_le _ _).trans_lt a.significand_lt) hmost

end Magnitude

namespace Binary64
variable {s t : Bool} {a b m : Magnitude} {q : ℚ} {x y : Binary64}

theorem isNegative_finite_iff : (finite s m).isNegative = true ↔ s = true ∧ 0 < m.units := by
  rw [Magnitude.units_pos_iff]
  cases s <;> simp [isNegative, lt, order?, zero, signed, Magnitude.zero]

/-- The value of a finite number is its signed number of units over the units of one. -/
theorem toRat_signed (s : Bool) (m : Magnitude) :
    (if s then -m.toRat else m.toRat) = (signed s m.units : ℚ) / unitsPerOne := by
  cases s with
  | false => rfl
  | true =>
    have hcast : ((signed true m.units : ℤ) : ℚ) = -(m.units : ℚ) := by simp [signed]
    rw [hcast, neg_div]
    rfl

theorem ofUnits_of_units {n : ℕ} (h : m.units = n) (s : Bool) : ofUnits s n 1 = finite s m := by
  rw [← h, ofUnits_units]

/-! ## Correctly rounded results -/

/-- What is no greater than a magnitude is rounded to a magnitude that is no greater. -/
theorem IsRounded.exists_le (h : IsRounded s q x) (hle : q ≤ m.toRat) :
    ∃ r, x = finite s r ∧ r.units ≤ m.units := by
  obtain ⟨rank, hnear, rfl⟩ := h
  have hrank : rank ≤ m.rank := hnear.le_of_le_point rankValue_strictMono hle
  exact ⟨⟨rank, hrank.trans_lt m.rank_lt⟩, dif_pos _, Magnitude.units_le_iff.mpr hrank⟩

theorem isRounded_mul (s t : Bool) (a b : Magnitude) :
    IsRounded (s ^^ t) (a.toRat * b.toRat) ((finite s a).mul (finite t b)) := by
  have hround := isRounded_ofUnits (s ^^ t) (a.units * b.units) unitsPerOne_pos
  have hvalue : ((a.units * b.units : ℕ) : ℚ) / unitsPerOne / unitsPerOne = a.toRat * b.toRat := by
    rw [Magnitude.toRat, Magnitude.toRat, Nat.cast_mul, div_mul_div_comm, div_div]
  rwa [hvalue] at hround

theorem isRounded_div (s t : Bool) (a : Magnitude) (hb : 0 < b.units) :
    IsRounded (s ^^ t) (a.toRat / b.toRat) ((finite s a).div (finite t b)) := by
  have hone : (unitsPerOne : ℚ) ≠ 0 := Nat.cast_ne_zero.mpr unitsPerOne_pos.ne'
  have hround := isRounded_ofUnits (s ^^ t) (a.units * unitsPerOne) hb
  have hvalue : ((a.units * unitsPerOne : ℕ) : ℚ) / b.units / unitsPerOne = a.toRat / b.toRat := by
    rw [Magnitude.toRat, Magnitude.toRat, Nat.cast_mul, div_div_div_cancel_right₀ hone,
      mul_div_right_comm, mul_div_cancel_right₀ _ hone]
  have hdiv : (finite s a).div (finite t b) = ofUnits (s ^^ t) (a.units * unitsPerOne) b.units :=
    if_neg (Magnitude.units_pos_iff.mp hb).ne'
  rwa [hvalue, ← hdiv] at hround

/-! ## Results that are not rounded -/

theorem rem_finite (s t : Bool) (a : Magnitude) (hb : 0 < b.units) :
    ∃ m, (finite s a).rem (finite t b) = finite s m ∧ m.units = a.units % b.units := by
  obtain ⟨m, hm⟩ := Magnitude.exists_units_mod (a := a) hb
  have hrem : (finite s a).rem (finite t b) = ofUnits s (a.units % b.units) 1 :=
    if_neg (Magnitude.units_pos_iff.mp hb).ne'
  exact ⟨m, by rw [hrem, ofUnits_of_units hm], hm⟩

/-- Whole numbers below `2 ^ 53` are magnitudes. -/
theorem exists_units_whole {n : ℕ} (hn : n < 2 * binade) :
    ∃ m : Magnitude, m.units = n * unitsPerOne := by
  -- The greatest of them is bounded by a magnitude of a later binade.
  have hlarge : (2 * binade) * unitsPerOne ≤ (⟨2046 * binade, by decide⟩ : Magnitude).units := by
    decide +kernel
  have hone : unitsPerOne = twoTo unitPlaces := rfl
  have hle : n * unitsPerOne ≤ (2 * binade) * unitsPerOne := Nat.mul_le_mul_right _ hn.le
  rw [hone] at hle hlarge ⊢
  exact Magnitude.exists_units hn (hle.trans hlarge)

/-- An integer is its size with its sign; zero takes either sign. -/
theorem signed_natAbs {i : ℤ} (hsign : i ≠ 0 → (s ↔ i < 0)) : signed s i.natAbs = i := by
  cases s with
  | false =>
    show ((i.natAbs : ℕ) : ℤ) = i
    have hnonneg : ¬ (i ≠ 0 ∧ i < 0) := fun h => Bool.false_ne_true ((hsign h.1).mpr h.2)
    omega
  | true =>
    show -((i.natAbs : ℕ) : ℤ) = i
    have hnonpos : i ≠ 0 → i < 0 := fun h => (hsign h).mp rfl
    omega

/-- A number of ones is the whole number with that sign. -/
theorem toInt?_ofUnits_whole {i : ℤ} (hi : i.natAbs < 2 * binade) (hsign : i ≠ 0 → (s ↔ i < 0)) :
    (ofUnits s (i.natAbs * unitsPerOne) 1).toInt? = some i := by
  obtain ⟨m, hm⟩ := exists_units_whole hi
  rw [ofUnits_of_units hm]
  exact toInt?_of_units (by rw [hm, signed_mul, signed_natAbs hsign])

theorem exists_finite_of_toInt? {i : ℤ} (h : x.toInt? = some i) :
    ∃ s m, x = finite s m ∧ signed s m.units = i * unitsPerOne := by
  match x with
  | .nan | .infinity _ => cases h
  | .finite s m => exact ⟨s, m, rfl, units_of_toInt? h⟩

theorem signed_not (s : Bool) (n : ℕ) : signed (!s) n = -signed s n := by
  cases s <;> simp [signed]

theorem mul_unitsPerOne_neg_iff {i : ℤ} : i * unitsPerOne < 0 ↔ i < 0 := by
  have hone : 0 < (unitsPerOne : ℤ) := Int.natCast_pos.mpr unitsPerOne_pos
  exact ⟨fun h => neg_of_mul_neg_left h hone.le, fun h => mul_neg_of_neg_of_pos h hone⟩

/-- Differences of whole numbers below `2 ^ 53` are exact. -/
theorem toInt?_sub {i j : ℤ} (hx : x.toInt? = some i) (hy : y.toInt? = some j)
    (hsmall : (i - j).natAbs < 2 * binade) : (x.sub y).toInt? = some (i - j) := by
  obtain ⟨s, a, rfl, ha⟩ := exists_finite_of_toInt? hx
  obtain ⟨t, b, rfl, hb⟩ := exists_finite_of_toInt? hy
  have hone : 0 < (unitsPerOne : ℤ) := Int.natCast_pos.mpr unitsPerOne_pos
  have htotal : signed s a.units + signed (!t) b.units = (i - j) * unitsPerOne := by
    rw [signed_not, ha, hb, sub_mul, sub_eq_add_neg]
  have hsub : (finite s a).sub (finite t b) = ofUnits
      ((i - j) * unitsPerOne < 0 || ((i - j) * unitsPerOne == (0 : ℤ) && s && !t))
      ((i - j) * unitsPerOne : ℤ).natAbs 1 := by
    rw [← htotal]
    rfl
  rw [hsub, Int.natAbs_mul, Int.natAbs_natCast]
  refine toInt?_ofUnits_whole hsmall fun hne => ?_
  have hzero : (i - j) * unitsPerOne ≠ (0 : ℤ) := mul_ne_zero hne hone.ne'
  simp only [beq_eq_false_iff_ne.mpr hzero, Bool.false_and, Bool.or_false, decide_eq_true_eq,
    mul_unitsPerOne_neg_iff]

end Binary64
end SciCalc
