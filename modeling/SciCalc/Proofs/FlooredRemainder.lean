import SciCalc.Proofs.FiniteNumbers
import SciCalc.Proofs.FlooredDivision

/-! # The remainder of floating-point numbers

The remainder of two finite numbers is computed in two steps: an exact remainder with the dividend's
sign, and one divisor more where this is not the divisor's sign.  Of these only the sum is rounded,
so the remainder is the correctly rounded remainder of the division cut downwards
(`Binary64.floorMod_finite`, `Binary64.floorMod_exact`).

The exact remainder is smaller than the divisor.  Rounded, it may be the divisor itself: it is for
a tiny dividend of the other sign (`Binary64.floorMod_of_tiny`).
-/
namespace SciCalc
variable {s t : Bool} {a b m : Magnitude}

/-! ## Values with a sign -/

theorem floor_rest (m n : ℤ) {u : ℚ} (hu : u ≠ 0) :
    (m : ℚ) / u - n / u * ⌊(m : ℚ) / u / (n / u)⌋ = (m.fmod n : ℚ) / u := by
  rw [div_div_div_cancel_right₀ hu, ← fdiv_eq_floor, Int.fmod_def]
  push_cast
  ring

/-- Of one sign, a number with the lesser magnitude is smaller or the same. -/
theorem Magnitude.compare_of_le (hle : m.units ≤ b.units) (hb : 0 < b.units) (t : Bool) :
    let r := if t then -m.toRat else m.toRat
    let q := if t then -b.toRat else b.toRat
    (r = 0 ∨ (0 < r ↔ 0 < q)) ∧ (|r| < |q| ∨ r = q) := by
  have hpos : 0 < b.toRat := Magnitude.toRat_pos_iff.mpr hb
  have hnonneg := m.toRat_nonneg
  have hsize : m.toRat < b.toRat ∨ m.toRat = b.toRat := by
    rcases hle.lt_or_eq with hlt | heq
    · exact .inl (Magnitude.toRat_lt_iff.mpr hlt)
    · exact .inr (by rw [Magnitude.toRat, Magnitude.toRat, heq])
  have hzero : m.toRat = 0 ∨ 0 < m.toRat := hnonneg.eq_or_lt'
  cases t with
  | false =>
    refine ⟨hzero.imp_right fun h => iff_of_true h hpos, ?_⟩
    simpa only [Bool.false_eq_true, if_false, abs_of_nonneg hnonneg, abs_of_pos hpos] using hsize
  | true =>
    refine ⟨hzero.imp neg_eq_zero.mpr fun h => ?_, ?_⟩
    · exact iff_of_false (neg_neg_of_pos h).not_gt (neg_neg_of_pos hpos).not_gt
    · simpa only [if_true, abs_neg, abs_of_nonneg hnonneg, abs_of_pos hpos, neg_inj] using hsize

namespace Binary64

/-! ## Signed numbers of units -/

theorem tmod_signed (s t : Bool) (k n : ℕ) :
    (signed s k).tmod (signed t n) = signed s (k % n) := by
  have hcast : (k : ℤ).tmod n = (k % n : ℕ) := rfl
  cases s <;> cases t <;> simp [signed, Int.neg_tmod, Int.tmod_neg, hcast]

theorem signed_neg_iff {n : ℕ} (hn : 0 < n) : signed s n < 0 ↔ s = true := by
  cases s <;> simp [signed, hn]

theorem signed_eq_zero_iff {n : ℕ} : signed s n = 0 ↔ n = 0 := by
  cases s <;> simp [signed]

/-- Of opposite signs, the larger number has its sign. -/
theorem signed_add_signed {k n : ℕ} (hst : s ≠ t) (hle : k ≤ n) :
    signed s k + signed t n = signed t (n - k) := by
  cases s <;> cases t <;> simp [signed, hle] at hst ⊢ <;> omega

/-- A remainder is corrected if there is one and the signs differ. -/
theorem fmod_signed (s t : Bool) (k : ℕ) {n : ℕ} (hn : 0 < n) :
    (signed s k).fmod (signed t n) =
      if 0 < k % n ∧ s ≠ t then signed s (k % n) + signed t n else signed s (k % n) := by
  rw [fmod_eq_tmod_corrected, tmod_signed]
  refine if_congr ?_ rfl rfl
  rw [signed_neg_iff hn, Ne, signed_eq_zero_iff, Nat.pos_iff_ne_zero]
  refine and_congr_right fun hne => ?_
  rw [signed_neg_iff (Nat.pos_of_ne_zero hne), ← Bool.eq_iff_iff]

/-! ## The remainder, counted in units -/

theorem isNegative_of_pos (s : Bool) (h : 0 < m.units) : (finite s m).isNegative = s := by
  rw [Bool.eq_iff_iff, isNegative_finite_iff]
  exact and_iff_left h

theorem isZero_finite_iff : (finite s m).isZero = true ↔ m.units = 0 := by
  have hpos := Magnitude.units_pos_iff (m := m)
  simp only [isZero, beq_iff_eq]
  omega

theorem floorMod_of_rem (hb : 0 < b.units) (hrem : (finite s a).rem (finite t b) = finite s m) :
    (finite s a).floorMod (finite t b) =
      if 0 < m.units ∧ s ≠ t then (finite s m).add (finite t b) else finite s m := by
  simp only [floorMod, hrem, isNegative_of_pos t hb]
  refine if_congr ?_ rfl rfl
  rw [Bool.and_eq_true, Bool.not_eq_true', ← Bool.not_eq_true, isZero_finite_iff,
    Nat.pos_iff_ne_zero]
  refine and_congr_right fun hne => ?_
  rw [isNegative_of_pos s (Nat.pos_of_ne_zero hne), bne_iff_ne]

/-- **The remainder of finite numbers** is the rounded remainder of their units; a remainder of zero
has the dividend's sign. -/
theorem floorMod_finite (s t : Bool) (a : Magnitude) (hb : 0 < b.units) :
    let rest := (signed s a.units).fmod (signed t b.units)
    (finite s a).floorMod (finite t b) = ofUnits (if rest = 0 then s else t) rest.natAbs 1 := by
  intro rest
  obtain ⟨m, hrem, hm⟩ := rem_finite s t a hb
  have hrest : rest = if 0 < m.units ∧ s ≠ t then signed s m.units + signed t b.units
      else signed s m.units := by rw [hm, ← fmod_signed s t _ hb]
  have hlt : m.units < b.units := hm ▸ Nat.mod_lt _ hb
  rw [floorMod_of_rem hb hrem]
  clear_value rest
  by_cases hcorrect : 0 < m.units ∧ s ≠ t
  · -- The sum has the sign of the divisor, which is larger.
    rw [if_pos hcorrect] at hrest ⊢
    have hadd : (finite s m).add (finite t b) =
        ofUnits (rest < 0 || (rest == 0 && s && t)) rest.natAbs 1 := by
      rw [hrest]
      rfl
    have hsigned : rest = signed t (b.units - m.units) := by
      rw [hrest, signed_add_signed hcorrect.2 hlt.le]
    have hne : rest ≠ 0 := by
      rw [hsigned, Ne, signed_eq_zero_iff]
      exact (Nat.sub_pos_of_lt hlt).ne'
    have hsign : decide (rest < 0) = t := by
      rw [hsigned, Bool.eq_iff_iff, decide_eq_true_eq, signed_neg_iff (Nat.sub_pos_of_lt hlt)]
    rw [hadd, if_neg hne, hsign, beq_eq_false_iff_ne.mpr hne, Bool.false_and, Bool.false_and,
      Bool.or_false]
  · rw [if_neg hcorrect] at hrest ⊢
    have hsign : rest ≠ 0 → s = t := by
      intro hne
      by_contra hst
      rw [hrest, Ne, signed_eq_zero_iff] at hne
      exact hcorrect ⟨Nat.pos_of_ne_zero hne, hst⟩
    have hsize : rest.natAbs = m.units := by rw [hrest, natAbs_signed]
    rw [hsize, ofUnits_of_units rfl]
    split
    · rfl
    · rename_i hne
      rw [hsign hne]

/-- Remainders of whole numbers by whole numbers of at most 53 bits are exact. -/
theorem toInt?_floorMod {x y : Binary64} {i j : ℤ} (hx : x.toInt? = some i)
    (hy : y.toInt? = some j) (hj : j ≠ 0) (hsmall : j.natAbs ≤ 2 * binade) :
    (x.floorMod y).toInt? = some (i.fmod j) := by
  obtain ⟨s, a, rfl, ha⟩ := exists_finite_of_toInt? hx
  obtain ⟨t, b, rfl, hb⟩ := exists_finite_of_toInt? hy
  have hone : 0 < (unitsPerOne : ℤ) := Int.natCast_pos.mpr unitsPerOne_pos
  have hpos : 0 < b.units := by
    refine Nat.pos_of_ne_zero fun hzero => mul_ne_zero hj hone.ne' ?_
    rw [← hb, signed_eq_zero_iff, hzero]
  have hmod := floorMod_finite s t a hpos
  have hrest : (signed s a.units).fmod (signed t b.units) = i.fmod j * unitsPerOne := by
    rw [ha, hb, mul_comm i, mul_comm j, Int.mul_fmod_mul_of_pos _ _ hone, mul_comm]
  have hless := natAbs_fmod_lt i hj
  rw [hrest] at hmod
  rw [hmod, Int.natAbs_mul, Int.natAbs_natCast]
  refine toInt?_ofUnits_whole (hless.trans_le hsmall) fun hne => ?_
  -- A remainder other than zero has the divisor's sign.
  have hsame := sign_fmod i hj hne
  rw [if_neg (mul_ne_zero hne hone.ne'), ← Int.sign_eq_neg_one_iff_neg, hsame,
    Int.sign_eq_neg_one_iff_neg, ← signed_neg_iff hpos, hb, mul_unitsPerOne_neg_iff]

/-! ## The remainder as a number -/

/-- The rounded remainder is no larger than the divisor, and it has the divisor's sign if it is not
zero. -/
theorem exists_floorMod (s t : Bool) (a : Magnitude) (hb : 0 < b.units) :
    ∃ sign m, (finite s a).floorMod (finite t b) = finite sign m ∧
      m.units ≤ b.units ∧ (m.units = 0 ∨ sign = t) ∧
      IsRounded sign (((signed s a.units).fmod (signed t b.units)).natAbs / unitsPerOne)
        (finite sign m) := by
  have hmod := floorMod_finite s t a hb
  have hless := natAbs_fmod_lt (signed s a.units) (mt signed_eq_zero_iff.mp hb.ne' :
    signed t b.units ≠ 0)
  rw [natAbs_signed] at hless
  generalize (signed s a.units).fmod (signed t b.units) = rest at *
  have hround := isRounded_ofUnits (if rest = 0 then s else t) rest.natAbs Nat.one_pos
  rw [Nat.cast_one, div_one, ← hmod] at hround
  obtain ⟨m, hm, hle⟩ := hround.exists_le (m := b)
    (div_le_div_of_nonneg_right (Nat.cast_le.mpr hless.le) (Nat.cast_nonneg unitsPerOne))
  refine ⟨_, m, hm, hle, ?_, hm ▸ hround⟩
  by_cases hzero : rest = 0
  · left
    rw [hmod, hzero, Int.natAbs_zero, ofUnits_of_units Magnitude.units_zero] at hm
    rw [← (Binary64.finite.inj hm).2, Magnitude.units_zero]
  · exact .inr (if_neg hzero)

/-- **The remainder of floating-point numbers.**  The remainder of a finite number by one that is
not zero is finite.  It is zero or has the divisor's sign, and it is smaller than the divisor or the
divisor itself: it is the correctly rounded remainder of the division cut downwards. -/
theorem floorMod_exact {x y : Binary64} {p q : ℚ} (hx : (Value.real x).IsNumber p)
    (hy : (Value.real y).IsNumber q) (hq : q ≠ 0) :
    ∃ r, (Value.real (x.floorMod y)).IsNumber r ∧
      (r = 0 ∨ (0 < r ↔ 0 < q)) ∧ (|r| < |q| ∨ r = q) ∧
      ∃ sign, IsRounded sign |p - q * ⌊p / q⌋| (x.floorMod y) := by
  cases hx with | real s a
  cases hy with | real t b
  have hone : (0 : ℚ) < unitsPerOne := Nat.cast_pos.mpr unitsPerOne_pos
  have hb : 0 < b.units := by
    refine Nat.pos_of_ne_zero fun hzero => hq ?_
    rw [toRat_signed, signed_eq_zero_iff.mpr hzero, Int.cast_zero, zero_div]
  obtain ⟨sign, m, hmod, hle, hsame, hround⟩ := exists_floorMod s t a hb
  obtain ⟨hsign, hsize⟩ := Magnitude.compare_of_le hle hb t
  -- A remainder of zero may be counted as one of the divisor's sign.
  have hvalue : (if sign then -m.toRat else m.toRat) = if t then -m.toRat else m.toRat := by
    rcases hsame with hzero | rfl
    · rw [toRat_signed, toRat_signed, signed_eq_zero_iff.mpr hzero, signed_eq_zero_iff.mpr hzero]
    · rfl
  have hnumber : (Value.real (finite sign m)).IsNumber (if t then -m.toRat else m.toRat) :=
    hvalue ▸ .real sign m
  rw [hmod]
  refine ⟨_, hnumber, hsign, hsize, sign, ?_⟩
  rwa [toRat_signed s a, toRat_signed t b, floor_rest _ _ hone.ne', abs_div, abs_of_pos hone,
    ← Int.cast_abs, Int.abs_eq_natAbs, Int.cast_natCast]

/-- `-5.5 % 2` -/
theorem floorMod_exact_of_half :
    let x := finite true ⟨0x4016000000000000, by decide⟩
    let y := finite false ⟨0x4000000000000000, by decide⟩
    (Value.real x).IsNumber (-(11 / 2)) ∧ (Value.real y).IsNumber 2 ∧ (2 : ℚ) ≠ 0 ∧
      ∃ r, (Value.real (x.floorMod y)).IsNumber r ∧
        (r = 0 ∨ (0 < r ↔ (0 : ℚ) < 2)) ∧ (|r| < |2| ∨ r = 2) ∧
        ∃ sign, IsRounded sign |-(11 / 2) - 2 * ⌊-(11 / 2) / (2 : ℚ)⌋| (x.floorMod y) := by
  intro x y
  have hx : (Value.real x).IsNumber (-(11 / 2)) := by
    have hsize : (⟨0x4016000000000000, by decide⟩ : Magnitude).toRat = (11 : ℕ) / (2 : ℕ) :=
      Magnitude.toRat_eq_div Nat.two_pos (by decide +kernel)
    have hnumber := Value.IsNumber.real true ⟨0x4016000000000000, by decide⟩
    rw [if_pos rfl, hsize] at hnumber
    exact_mod_cast hnumber
  have hy : (Value.real y).IsNumber 2 := by
    have hsize : (⟨0x4000000000000000, by decide⟩ : Magnitude).toRat = (2 : ℕ) / (1 : ℕ) :=
      Magnitude.toRat_eq_div Nat.one_pos (by decide +kernel)
    have hnumber := Value.IsNumber.real false ⟨0x4000000000000000, by decide⟩
    rw [if_neg Bool.false_ne_true, hsize, Nat.cast_one, div_one] at hnumber
    exact_mod_cast hnumber
  exact ⟨hx, hy, two_ne_zero, floorMod_exact hx hy two_ne_zero⟩

/-- **The remainder may be the divisor.**  One less the least number is rounded to one. -/
theorem floorMod_of_tiny :
    ¬ ∀ (x y : Binary64) (p q r : ℚ), (Value.real x).IsNumber p → (Value.real y).IsNumber q →
      q ≠ 0 → (Value.real (x.floorMod y)).IsNumber r →
      (r = 0 ∨ (0 < r ↔ 0 < q)) ∧ |r| < |q| := by
  intro hclaim
  let least : Magnitude := ⟨1, by decide⟩
  let one : Magnitude := ⟨0x3FF0000000000000, by decide⟩
  have hmod : (finite true least).floorMod (finite false one) = finite false one := by
    decide +kernel
  have hpos : 0 < one.toRat := Magnitude.toRat_pos_iff.mpr (by decide +kernel)
  have hone : (Value.real (finite false one)).IsNumber one.toRat := .real false one
  have hless := (hclaim _ _ _ _ _ (.real true least) hone hpos.ne' (hmod ▸ hone)).2
  exact lt_irrefl _ hless

end Binary64
end SciCalc
