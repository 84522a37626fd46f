import SciCalc.Proofs.NearestMultiple
import SciCalc.Proofs.PowersOfTen

/-! # Rounding to places and the range of the numbers

A finite number is rounded to decimals by a multiplication, which is undone if it leaves the range,
and a division by at least one.  So the result is finite (`Builtin.roundAfterPoint_finite`).

Before the point it is the other way round: the quotient by a power of ten is rounded to a whole
number, and the product of the two may be out of range (`Builtin.round_of_greatest`).  It is not, if
half of the power of ten more than the number is still in range (`Builtin.round_real_finite`).  Far
below the greatest number the errors of the quotient and of the power do not matter.  Close to it a
whole number that takes the product out of range is one of the last multiples of the power, and
those are checked one by one (`Binary64.staysBelowMiddle_tenPow`).
-/
namespace SciCalc

namespace Magnitude
variable {m : Magnitude}

theorem abs_toRat (m : Magnitude) (s : Bool) : |if s then -m.toRat else m.toRat| = m.toRat := by
  cases s with
  | false => exact abs_of_nonneg m.toRat_nonneg
  | true => exact (abs_neg _).trans (abs_of_nonneg m.toRat_nonneg)

theorem toRat_add_half_le {k : ℕ} (h : 2 * m.units + tenTo k * unitsPerOne ≤ 2 * greatest.units) :
    m.toRat + 10 ^ k / 2 ≤ greatest.toRat := by
  have hone : (0 : ℚ) < unitsPerOne := Nat.cast_pos.mpr unitsPerOne_pos
  have hle : 2 * (m.units : ℚ) + tenTo k * unitsPerOne ≤ 2 * greatest.units := by exact_mod_cast h
  rw [← toRat_mul_unitsPerOne, ← toRat_mul_unitsPerOne] at hle
  rw [← Decimal.cast_tenTo]
  refine le_of_mul_le_mul_right ?_ hone
  linarith

/-- Below the greatest magnitude there is room for the error of one rounding. -/
theorem grown_le_greatest (h : m.units < greatest.units) :
    m.toRat * (1 + roundingError) ≤ greatest.toRat := by
  let last : Magnitude := ⟨rankBound - 2, by decide⟩
  have hrank : m.rank ≤ last.rank := Nat.le_sub_one_of_lt (units_lt_iff.mp h)
  have hlast : last.units * (twoTo 53 + 1) ≤ greatest.units * twoTo 53 := by decide +kernel
  have hunits : m.units * (twoTo 53 + 1) ≤ greatest.units * twoTo 53 :=
    (Nat.mul_le_mul_right _ (units_le_iff.mpr hrank)).trans hlast
  have hunits' : (m.units : ℚ) * (twoTo 53 + 1) ≤ greatest.units * twoTo 53 := by
    exact_mod_cast hunits
  have hpow : (0 : ℚ) < twoTo 53 := Nat.cast_pos.mpr (twoTo_pos 53)
  rw [toRat, toRat, div_mul_eq_mul_div]
  refine div_le_div_of_nonneg_right (le_of_mul_le_mul_right ?_ hpow) (Nat.cast_nonneg unitsPerOne)
  rwa [mul_assoc, one_add_roundingError_mul]

end Magnitude

namespace Binary64
variable {s : Bool} {a b d m p : Magnitude} {k : ℕ}

/-! ## Whole numbers -/

/-- Magnitudes from `2 ^ 52` on are whole numbers. -/
theorem unitsPerOne_dvd (h : binade * unitsPerOne ≤ m.units) : unitsPerOne ∣ m.units := by
  have hone : unitsPerOne = twoTo unitPlaces := rfl
  rw [hone] at h ⊢
  have hunits : unitsOfRank (binade + unitPlaces * binade) = binade * twoTo unitPlaces :=
    unitsOfRank_add (fun _ => le_rfl) (Nat.le_mul_of_pos_left _ Nat.two_pos)
  have hrank : binade + unitPlaces * binade ≤ m.rank := by
    rw [← unitsOfRank_strictMono.le_iff_le, hunits]
    exact h
  refine twoTo_dvd_unitsOfRank (.inl ?_)
  rwa [Nat.succ_mul, Nat.add_comm]

/-- The whole number that a magnitude is rounded to. -/
def nearestWhole (m : Magnitude) : ℕ :=
  divHalfEven m.units unitsPerOne

theorem nearestWhole_le {n : ℕ} (h : m.units ≤ n * unitsPerOne) : nearestWhole m ≤ n :=
  divHalfEven_le unitsPerOne_pos h

theorem nearestWhole_mul (h : binade * unitsPerOne ≤ m.units) :
    nearestWhole m * unitsPerOne = m.units := by
  obtain ⟨n, hn⟩ := unitsPerOne_dvd h
  rw [nearestWhole, hn, Nat.mul_comm unitsPerOne, divHalfEven_mul _ unitsPerOne_pos]

theorem nearestWhole_le_add_half (m : Magnitude) : (nearestWhole m : ℚ) ≤ m.toRat + 1 / 2 := by
  have hone : (0 : ℚ) < unitsPerOne := Nat.cast_pos.mpr unitsPerOne_pos
  have hnear := (divHalfEven_near m.units unitsPerOne_pos).2
  have hnear' : 2 * (nearestWhole m : ℚ) * unitsPerOne ≤ 2 * m.units + unitsPerOne := by
    exact_mod_cast hnear
  rw [← m.toRat_mul_unitsPerOne] at hnear'
  refine le_of_mul_le_mul_right ?_ hone
  linarith

/-- A finite number is rounded to a finite whole number. -/
theorem roundEven_finite (s : Bool) (m : Magnitude) :
    ∃ w, (finite s m).roundEven = finite s w ∧ w.toRat = nearestWhole m := by
  have hunits : ∃ w : Magnitude, w.units = nearestWhole m * unitsPerOne := by
    rcases Nat.lt_or_ge m.units (binade * unitsPerOne) with hsmall | hlarge
    · have hle : nearestWhole m ≤ binade := nearestWhole_le hsmall.le
      exact exists_units_whole (hle.trans_lt (by decide))
    · exact ⟨m, (nearestWhole_mul hlarge).symm⟩
  obtain ⟨w, hw⟩ := hunits
  exact ⟨w, ofUnits_of_units hw s, Magnitude.toRat_of_whole hw⟩

/-! ## Quotients and products in range -/

/-- A quotient by at least one is no greater than the dividend. -/
theorem exists_div (s : Bool) (a : Magnitude) (hb : 1 ≤ b.toRat) :
    ∃ d, (finite s a).div (finite false b) = finite s d ∧
      IsRounded s (a.toRat / b.toRat) (finite s d) := by
  have hround := isRounded_div s false a (Magnitude.toRat_pos_iff.mp (zero_lt_one.trans_le hb))
  rw [Bool.xor_false] at hround
  obtain ⟨d, hd, -⟩ := hround.exists_le (div_le_self a.toRat_nonneg hb)
  exact ⟨d, hd, hd ▸ hround⟩

theorem exists_mul (h : a.toRat * b.toRat ≤ Magnitude.greatest.toRat) :
    ∃ r, (finite s a).mul (finite false b) = finite s r := by
  have hround := isRounded_mul s false a b
  rw [Bool.xor_false] at hround
  obtain ⟨r, hr, -⟩ := hround.exists_le h
  exact ⟨r, hr⟩

/-! ## Multiples of a power of ten at the end of the range -/

/-- The first multiple of a magnitude that is out of range. -/
def firstBeyond (p : Magnitude) : ℕ :=
  (Magnitude.greatest.units / p.units + 1) * p.units

/-- A number that half of `10 ^ k` can be added to in range, with the error of its quotient, is
below the middle of the last multiple of `p` in range and the first one beyond. -/
def StaysBelowMiddle (k : ℕ) (p : Magnitude) : Prop :=
  2 * Magnitude.greatest.units * (twoTo 53 + 1) + p.units * twoTo 53 <
    2 * firstBeyond p * twoTo 53 + tenTo k * unitsPerOne * (twoTo 53 + 1)

instance (k : ℕ) (p : Magnitude) : Decidable (StaysBelowMiddle k p) :=
  inferInstanceAs (Decidable (_ < _))

theorem StaysBelowMiddle.lt (h : StaysBelowMiddle k p) :
    2 * (Magnitude.greatest.toRat * (1 + roundingError)) + p.toRat <
      2 * (firstBeyond p / unitsPerOne : ℚ) + 10 ^ k * (1 + roundingError) := by
  have hone : (0 : ℚ) < unitsPerOne := Nat.cast_pos.mpr unitsPerOne_pos
  have hpow : (0 : ℚ) < twoTo 53 := Nat.cast_pos.mpr (twoTo_pos 53)
  have hlt : 2 * (Magnitude.greatest.units : ℚ) * (twoTo 53 + 1) + p.units * twoTo 53 <
      2 * firstBeyond p * twoTo 53 + tenTo k * unitsPerOne * (twoTo 53 + 1) := by
    exact_mod_cast h
  refine lt_of_mul_lt_mul_right ?_ (mul_pos hone hpow).le
  calc (2 * (Magnitude.greatest.toRat * (1 + roundingError)) + p.toRat) * (unitsPerOne * twoTo 53)
      = 2 * (Magnitude.greatest.toRat * unitsPerOne) * ((1 + roundingError) * twoTo 53) +
          p.toRat * unitsPerOne * twoTo 53 := by ring
    _ = 2 * Magnitude.greatest.units * (twoTo 53 + 1) + p.units * twoTo 53 := by
        rw [one_add_roundingError_mul, Magnitude.toRat_mul_unitsPerOne,
          Magnitude.toRat_mul_unitsPerOne]
    _ < 2 * firstBeyond p * twoTo 53 + tenTo k * unitsPerOne * (twoTo 53 + 1) := hlt
    _ = 2 * (firstBeyond p / unitsPerOne * unitsPerOne : ℚ) * twoTo 53 +
          tenTo k * unitsPerOne * ((1 + roundingError) * twoTo 53) := by
        rw [one_add_roundingError_mul, div_mul_cancel₀ _ hone.ne']
    _ = (2 * (firstBeyond p / unitsPerOne : ℚ) + 10 ^ k * (1 + roundingError)) *
          (unitsPerOne * twoTo 53) := by
        rw [← Decimal.cast_tenTo]
        ring

/-- The magnitude of a finite number. -/
def magnitude? : Binary64 → Option Magnitude
  | finite _ m => some m
  | _ => none

theorem staysBelowMiddle_tenPow (hlow : 293 ≤ k) (hhigh : k ≤ 308)
    (hp : tenPow k = finite false p) : StaysBelowMiddle k p := by
  have hchecked : ∀ i < 16, ∀ p ∈ (tenPow (293 + i)).magnitude?, StaysBelowMiddle (293 + i) p := by
    decide +kernel
  obtain ⟨i, rfl⟩ := Nat.exists_eq_add_of_le hlow
  exact hchecked i (by omega) p (by rw [hp]; rfl)

/-! ## Scaling back -/

section
variable (hd : IsRounded s (m.toRat / p.toRat) (finite s d))
include hd

theorem nearestWhole_le_one (h : m.toRat / p.toRat ≤ 1) : nearestWhole d ≤ 1 := by
  obtain ⟨one, hone⟩ := exists_units_whole (by decide : 1 < 2 * binade)
  have hvalue : one.toRat = 1 := (Magnitude.toRat_of_whole hone).trans Nat.cast_one
  obtain ⟨r, hr, hle⟩ := hd.exists_le (hvalue ▸ h)
  cases hr
  exact nearestWhole_le (hone ▸ hle)

theorem quotient_mul_le (hp : 0 < p.toRat) (h : 1 ≤ m.toRat / p.toRat) :
    d.toRat * p.toRat ≤ m.toRat * (1 + roundingError) := by
  have herror := (abs_le.mp (hd.error_le (leastNormal_le_one.trans h))).2
  calc d.toRat * p.toRat ≤ m.toRat / p.toRat * (1 + roundingError) * p.toRat := by
        refine mul_le_mul_of_nonneg_right ?_ hp.le
        linarith
    _ = m.toRat * (1 + roundingError) := by
        rw [mul_right_comm, div_mul_cancel₀ _ hp.ne']

/-- Up to `10 ^ 292`, a product out of range would have a whole number from `2 ^ 52` on, which is
the quotient itself. -/
theorem nearestWhole_mul_le_of_near (hk : k ≤ 292) (hp : tenPow k = finite false p)
    (hquotient : 1 ≤ m.toRat / p.toRat) (hm : m.units < Magnitude.greatest.units) :
    nearestWhole d * p.toRat ≤ Magnitude.greatest.toRat := by
  have hone : (0 : ℚ) < unitsPerOne := Nat.cast_pos.mpr unitsPerOne_pos
  have hpos : 0 < p.toRat := zero_lt_one.trans_le (one_le_tenPow hp)
  rcases Nat.lt_or_ge d.units (binade * unitsPerOne) with hsmall | hlarge
  · have hwhole : (nearestWhole d : ℚ) ≤ binade := Nat.cast_le.mpr (nearestWhole_le hsmall.le)
    have hpower : p.toRat ≤ 2 * tenTo 292 := by
      refine (tenPow_le (by omega) hp).trans (mul_le_mul_of_nonneg_left ?_ zero_le_two)
      rw [← Decimal.cast_tenTo]
      exact Nat.cast_le.mpr (tenTo_le_tenTo hk)
    have hroom : binade * (2 * tenTo 292) * unitsPerOne ≤ Magnitude.greatest.units := by
      decide +kernel
    calc nearestWhole d * p.toRat ≤ binade * (2 * tenTo 292) :=
          mul_le_mul hwhole hpower hpos.le (Nat.cast_nonneg _)
      _ ≤ Magnitude.greatest.toRat := by
          rw [Magnitude.toRat, le_div_iff₀ hone]
          exact_mod_cast hroom
  · have hsame : (nearestWhole d : ℚ) = d.toRat := by
      rw [Magnitude.toRat, ← nearestWhole_mul hlarge, Nat.cast_mul,
        mul_div_cancel_right₀ _ hone.ne']
    rw [hsame]
    exact (quotient_mul_le hd hpos hquotient).trans (Magnitude.grown_le_greatest hm)

/-- Closer to the end of the range, a product out of range would be one of the first multiples
beyond. -/
theorem nearestWhole_mul_le_of_far (hlow : 293 ≤ k) (hhigh : k ≤ 308)
    (hp : tenPow k = finite false p) (hquotient : 1 ≤ m.toRat / p.toRat)
    (hroom : m.toRat + 10 ^ k / 2 ≤ Magnitude.greatest.toRat) :
    nearestWhole d * p.toRat ≤ Magnitude.greatest.toRat := by
  have hone : (0 : ℚ) < unitsPerOne := Nat.cast_pos.mpr unitsPerOne_pos
  have hpos : 0 < p.toRat := zero_lt_one.trans_le (one_le_tenPow hp)
  by_contra hout
  have hbeyond : (firstBeyond p / unitsPerOne : ℚ) ≤ nearestWhole d * p.toRat := by
    have hunits : Magnitude.greatest.units < nearestWhole d * p.units := by
      rw [not_le, Magnitude.toRat, Magnitude.toRat, ← mul_div_assoc,
        div_lt_div_iff_of_pos_right hone] at hout
      exact_mod_cast hout
    have hmultiple : firstBeyond p ≤ nearestWhole d * p.units :=
      Nat.mul_le_mul_right _ (Nat.div_lt_of_lt_mul (Nat.mul_comm _ _ ▸ hunits))
    rw [Magnitude.toRat, ← mul_div_assoc, div_le_div_iff_of_pos_right hone]
    exact_mod_cast hmultiple
  have hhalf : nearestWhole d * p.toRat ≤ d.toRat * p.toRat + p.toRat / 2 := by
    have hle := mul_le_mul_of_nonneg_right (nearestWhole_le_add_half d) hpos.le
    linarith
  have hgrown : 0 ≤ 1 + roundingError := by linarith [roundingError_pos]
  have hnumber := mul_le_mul_of_nonneg_right hroom hgrown
  have hmiddle := (staysBelowMiddle_tenPow hlow hhigh hp).lt
  linarith [quotient_mul_le hd hpos hquotient]

/-- **Scaled back, a rounded quotient is in range** if half of the power of ten is left. -/
theorem nearestWhole_mul_le (hk : k ≤ 308) (hp : tenPow k = finite false p)
    (hroom : m.toRat + 10 ^ k / 2 ≤ Magnitude.greatest.toRat) :
    nearestWhole d * p.toRat ≤ Magnitude.greatest.toRat := by
  rcases le_total (m.toRat / p.toRat) 1 with hsmall | hquotient
  · have hwhole : (nearestWhole d : ℚ) ≤ 1 := by exact_mod_cast nearestWhole_le_one hd hsmall
    calc nearestWhole d * p.toRat ≤ p.toRat := mul_le_of_le_one_left p.toRat_nonneg hwhole
      _ ≤ Magnitude.greatest.toRat := Magnitude.toRat_le_iff.mpr p.units_le_greatest
  rcases Nat.lt_or_ge 292 k with hfar | hnear
  · exact nearestWhole_mul_le_of_far hd hfar hk hp hquotient hroom
  · have hless : m.toRat < Magnitude.greatest.toRat := by
      have hhalf : (0 : ℚ) < 10 ^ k / 2 := by positivity
      linarith
    exact nearestWhole_mul_le_of_near hd hnear hp hquotient (Magnitude.toRat_lt_iff.mp hless)

end

end Binary64

/-! ## Results -/

namespace Builtin
open Binary64
variable {s : Bool} {m : Magnitude} {k : ℕ}

/-- Before the point, a number is rounded to a finite one if half of the power of ten more than it
is in range. -/
theorem roundBeforePoint_finite (s : Bool)
    (h : k ≤ 308 → m.toRat + 10 ^ k / 2 ≤ Magnitude.greatest.toRat) :
    ∃ r, roundBeforePoint s (finite s m) k = finite s r := by
  rcases tenPow_infinite_or_finite k with hinf | ⟨hk, p, hp⟩
  · exact ⟨Magnitude.zero, by rw [roundBeforePoint, hinf]; rfl⟩
  · obtain ⟨d, hdiv, hd⟩ := exists_div s m (one_le_tenPow hp)
    obtain ⟨w, hw, hwhole⟩ := roundEven_finite s d
    have hle := nearestWhole_mul_le hd hk hp (h hk)
    rw [← hwhole] at hle
    obtain ⟨r, hr⟩ := exists_mul (s := s) hle
    refine ⟨r, ?_⟩
    rw [roundBeforePoint, hp, hdiv, hw, hr]
    rfl

/-- A number is rounded to decimals by a finite one. -/
theorem roundAfterPoint_finite (s : Bool) (m : Magnitude) (k : ℕ) :
    ∃ r, roundAfterPoint (finite s m) k = finite s r := by
  rw [roundAfterPoint]
  rcases tenPow_infinite_or_finite k with hinf | ⟨-, p, hp⟩
  · have hscaled : ((finite s m).mul (infinity false)).isFinite = false := by
      rw [mul]
      split <;> rfl
    rw [hinf, hscaled]
    exact ⟨m, rfl⟩
  · rw [hp]
    rcases (isRounded_mul s false m p).infinite_or_finite with hinf | ⟨c, hc⟩
    · rw [hinf]
      exact ⟨m, rfl⟩
    · obtain ⟨w, hw, -⟩ := roundEven_finite s c
      obtain ⟨r, hr, -⟩ := exists_div s w (one_le_tenPow hp)
      rw [Bool.xor_false] at hc
      exact ⟨r, by rw [hc, hw, hr]; rfl⟩

/-- **Rounding finite numbers to places.**  A finite number that is rounded to any number of places
is a finite number, if the places are decimals or more than 308 places before the point.  It is one
for fewer places before the point too, if half of the power of ten more than its size is no greater
than the greatest number. -/
theorem round_real_finite {x : Binary64} {q : ℚ} (hx : (Value.real x).IsNumber q) {n : ℤ}
    (hroom : -308 ≤ n → n < 0 → |q| + 10 ^ n.natAbs / 2 ≤ Magnitude.greatest.toRat)
    (mode : AngleMode) :
    ∃ y, round.apply mode [.real x, .int n] = .ok (.real y) ∧ y.isFinite = true := by
  cases hx with | real s m
  rw [m.abs_toRat] at hroom
  refine ⟨roundReal (finite s m) (clampPlaces n), rfl, ?_⟩
  have hsign := clampPlaces_nonneg_iff (n := n)
  rw [roundReal]
  by_cases hn : n < 0
  · have hplaces : (min (-clampPlaces n) maxTenPow).toNat = min n.natAbs 400 := by
      have hclamp := natAbs_clampPlaces hn
      rw [maxTenPow]
      omega
    rw [if_pos (by omega), hplaces]
    obtain ⟨r, hr⟩ := roundBeforePoint_finite (k := min n.natAbs 400) (m := m) s fun hk => by
      have hfew : min n.natAbs 400 = n.natAbs := by omega
      rw [hfew]
      exact hroom (by omega) hn
    rw [hr]
    rfl
  · rw [if_neg (by omega)]
    obtain ⟨r, hr⟩ := roundAfterPoint_finite s m (min (clampPlaces n) maxTenPow).toNat
    rw [hr]
    rfl

/-- `-1.25 * 2 ^ 1023` to 308 places before the point is `-10 ^ 308`. -/
theorem round_real_finite_of_large :
    let m : Magnitude := ⟨0x7FE4000000000000, by decide⟩
    (Value.real (finite true m)).IsNumber (-m.toRat) ∧
      |-m.toRat| + 10 ^ (-308 : ℤ).natAbs / 2 ≤ Magnitude.greatest.toRat ∧
      ∃ y, round.apply .degrees [.real (finite true m), .int (-308)] = .ok (.real y) ∧
        y.isFinite = true := by
  intro m
  have hnumber : (Value.real (finite true m)).IsNumber (-m.toRat) := .real true m
  have hroom : |-m.toRat| + 10 ^ (-308 : ℤ).natAbs / 2 ≤ Magnitude.greatest.toRat := by
    have hsize : |-m.toRat| = m.toRat := m.abs_toRat true
    rw [hsize]
    exact Magnitude.toRat_add_half_le (by decide +kernel)
  exact ⟨hnumber, hroom, round_real_finite hnumber (fun _ _ => hroom) .degrees⟩

/-- **Rounding may leave the range.**  The greatest number is nearer to `2 * 10 ^ 308` than to
`10 ^ 308`. -/
theorem round_of_greatest :
    ¬ ∀ (x : Binary64) (q : ℚ) (n : ℤ) (mode : AngleMode), (Value.real x).IsNumber q →
      (∃ e, round.apply mode [.real x, .int n] = .error e) ∨
        ∃ y, round.apply mode [.real x, .int n] = .ok (.real y) ∧ y.isFinite = true := by
  intro hclaim
  have hround : round.apply .degrees [.real (finite false Magnitude.greatest), .int (-308)] =
      .ok (.real (infinity false)) := by
    decide +kernel
  rcases hclaim _ _ (-308) .degrees (.real false Magnitude.greatest) with ⟨e, he⟩ | ⟨y, hy, hfinite⟩
  · rw [hround] at he
    cases he
  · rw [hround] at hy
    cases hy
    cases hfinite

end Builtin
end SciCalc
