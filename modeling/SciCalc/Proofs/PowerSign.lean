import SciCalc.Proofs.IntegerPower
import SciCalc.Proofs.RootIndex

/-! # The sign of an integer power

A power of a negative integer is negative if the exponent is odd.  For an exponent that is not
negative the power is exact.  For a negative one base and exponent are converted first, and the sign
is that of the converted exponent's parity (`Value.powOfReals_eq_ok`).  Conversion keeps the parity
of an integer below `2 ^ 53` and makes every other one even (`odd_roundedWhole_iff`).

So the sign of a power that is not zero follows the parity of the exponent, but for the powers of
minus one to the odd exponents below `-2 ^ 53` (`Value.pow_neg_iff_odd`), which are positive
(`Value.pow_of_far_exponent`).  The powers of all other bases to such exponents are zero
(`Binary64.magnitudePow_of_far`).
-/
namespace SciCalc

/-- Of integers that are rounded, the odd ones below `2 ^ 53` alone stay odd. -/
theorem odd_roundedWhole_iff {n : ℕ} {z : ℤ}
    (hn : n = z.natAbs ∨ 2 ^ 64 ≤ n ∧ 2 ^ 64 ≤ z.natAbs) :
    Odd (roundedWhole n) ↔ Odd z ∧ z.natAbs < 2 ^ 53 := by
  rcases Nat.lt_or_ge n (2 ^ 53) with hsmall | hlarge
  · obtain rfl : n = z.natAbs := by omega
    rw [roundedWhole_of_lt hsmall, Int.natAbs_odd]
    exact (and_iff_left hsmall).symm
  · have heven := even_roundedWhole_of_le hlarge
    have hfar : ¬ z.natAbs < 2 ^ 53 := by omega
    exact iff_of_false (Nat.not_odd_iff_even.mpr heven) fun h => hfar h.2

/-- What an integer is converted to is whole, and odd for the odd integers below `2 ^ 53` alone. -/
theorem IsConverted.exists_toInt? {z : ℤ} {m : Magnitude} (h : IsConverted z m) (s : Bool) :
    ∃ i, (Binary64.finite s m).toInt? = some i ∧ (Odd i ↔ Odd z ∧ z.natAbs < 2 ^ 53) := by
  obtain ⟨n, hm, hn⟩ := h
  refine ⟨_, Binary64.toInt?_of_units (by rw [hm, Binary64.signed_mul]), ?_⟩
  rw [← Int.natAbs_odd, Binary64.natAbs_signed, odd_roundedWhole_iff hn]

/-! ## Small powers -/

namespace Elementary

theorem one_pos : 0 < one :=
  Int.natCast_pos.mpr (twoTo_pos places)

theorem nested_nonneg {step : ℕ → ℤ → ℤ} (hstep : ∀ n rest, 0 ≤ rest → 0 ≤ step n rest)
    (terms : ℕ) {rest : ℤ} (hrest : 0 ≤ rest) : 0 ≤ nested step terms rest := by
  induction terms generalizing rest with
  | zero => exact hrest
  | succ n ih => exact ih (hstep n rest hrest)

theorem times_nonneg {x y : ℤ} (hx : 0 ≤ x) (hy : 0 ≤ y) : 0 ≤ times x y :=
  Int.ediv_nonneg (mul_nonneg hx hy) one_pos.le

theorem artanh_nonneg {z : ℤ} (hz : 0 ≤ z) : 0 ≤ artanh z := by
  have hsquare := times_nonneg hz hz
  refine times_nonneg hz (nested_nonneg (fun n rest hrest => ?_) artanhTerms le_rfl)
  exact add_nonneg (Int.ediv_nonneg one_pos.le (by omega)) (times_nonneg hsquare hrest)

/-- From two on, logarithms are at least that of two. -/
theorem lnTwo_le_lnUnits {units : ℕ} (h : 2 * unitsPerOne ≤ units) : lnTwo ≤ lnUnits units := by
  have hne : units ≠ 0 := ((Nat.mul_pos Nat.two_pos unitsPerOne_pos).trans_le h).ne'
  have hlog : unitPlaces + 1 ≤ units.log2 := by
    have hpow : twoTo unitPlaces = unitsPerOne := rfl
    rw [le_log2_iff hne, twoTo_succ, hpow, Nat.mul_comm]
    exact h
  have hsignificand : one ≤ units * one / twoTo units.log2 := by
    have hle : (twoTo units.log2 : ℤ) ≤ units :=
      Int.ofNat_le.mpr ((le_log2_iff hne).mp (Nat.le_refl _))
    rw [Int.le_ediv_iff_mul_le (Int.natCast_pos.mpr (twoTo_pos _)), mul_comm]
    exact mul_le_mul_of_nonneg_right hle one_pos.le
  have hone := one_pos
  have hratio : 0 ≤ ratio (units * one / twoTo units.log2 - one)
      (units * one / twoTo units.log2 + one) :=
    Int.ediv_nonneg (mul_nonneg (by omega) one_pos.le) (by omega)
  have hfirst := artanh_nonneg hratio
  have hlnTwo : 0 ≤ lnTwo := by decide +kernel
  have hexponent : lnTwo ≤ ((units.log2 : ℤ) - unitPlaces) * lnTwo :=
    le_mul_of_one_le_left hlnTwo (by omega)
  rw [lnUnits]
  omega

theorem exp_cases (s : Bool) (x : ℤ) : (∃ m, exp s x = .finite s m) ∨ exp s x = .infinity s := by
  rw [exp]
  split
  · exact .inr rfl
  split
  · exact .inl ⟨_, rfl⟩
  dsimp only
  cases x / lnTwo <;> exact Binary64.ofRank_cases s _

end Elementary

namespace Binary64
variable {s t : Bool} {m k : Magnitude} {i : ℤ}

/-- **From two on, powers to exponents far below zero are zero.** -/
theorem magnitudePow_of_far (hm : 2 * unitsPerOne ≤ m.units) (hk : 2200 * unitsPerOne ≤ k.units) :
    magnitudePow s m true k = zero s := by
  have hln : Elementary.one ≤ 2 * Elementary.lnUnits m.units := by
    have htwo : Elementary.one ≤ 2 * Elementary.lnTwo := by decide +kernel
    linarith [Elementary.lnTwo_le_lnUnits hm]
  have hone := Elementary.one_pos
  have hfar : signed true k.units * Elementary.lnUnits m.units / unitsPerOne ≤
      -(Elementary.farExponent * Elementary.one) := by
    have hk' : (2200 : ℤ) * unitsPerOne ≤ k.units := by exact_mod_cast hk
    have hunits : (0 : ℤ) < unitsPerOne := Int.natCast_pos.mpr unitsPerOne_pos
    have hproduct : 2200 * unitsPerOne * Elementary.lnUnits m.units ≤
        k.units * Elementary.lnUnits m.units :=
      mul_le_mul_of_nonneg_right hk' (by omega)
    have hscaled := mul_le_mul_of_nonneg_left hln hunits.le
    refine Int.ediv_le_of_le_mul hunits ?_
    rw [signed, if_pos rfl, Elementary.farExponent]
    linarith
  have hnear : ¬ Elementary.farExponent * Elementary.one ≤
      signed true k.units * Elementary.lnUnits m.units / unitsPerOne := by
    rw [Elementary.farExponent] at *
    omega
  rw [magnitudePow, Elementary.exp, if_neg hnear, if_pos hfar]

/-! ## Powers in floating point -/

theorem isOdd_of_toInt? {x : Binary64} (h : x.toInt? = some i) : x.isOdd = true ↔ Odd i := by
  rw [isOdd, h, Int.odd_iff]
  exact beq_iff_eq

theorem negative_ne_one (m : Magnitude) : finite true m ≠ one := by
  intro h
  rcases ofRank_cases ((1 : ℤ) < 0) (nearestRank ((1 : ℤ).natAbs * unitsPerOne) 1) with
    ⟨r, hr⟩ | hr
  all_goals
    rw [one, ofInt, ofRatio, ofUnits, hr] at h
    cases h

/-- A whole power of a negative number has the sign of its exponent's parity. -/
theorem pow_of_negative (hm : 0 < m.units) (hk : 0 < k.units)
    (hi : (finite t k).toInt? = some i) :
    (finite true m).pow (finite t k) = magnitudePow (decide (Odd i)) m t k := by
  have hparity : (finite t k).isOdd = decide (Odd i) := by
    rw [Bool.eq_iff_iff, isOdd_of_toInt? hi, decide_eq_true_iff]
  have hone : (finite true m == one) = false := beq_eq_false_iff_ne.mpr (negative_ne_one m)
  have hzero : (finite t k).isZero = false :=
    beq_eq_false_iff_ne.mpr (Magnitude.units_pos_iff.mp hk).ne'
  rw [pow, hzero, hone]
  dsimp only
  rw [hi, hparity, if_neg (Magnitude.units_pos_iff.mp hm).ne']
  rfl

end Binary64

namespace Value
open Binary64 (magnitudePow)
variable {x n : ℤ} {v : Value}

/-- A power in floating point is not infinite if its operands are finite. -/
theorem realPow_eq_ok {a b : Binary64} (h : realPow a b = .ok v) :
    v = .real (a.pow b) ∧
      (a.isFinite = true → b.isFinite = true → (a.pow b).isInfinite = false) := by
  rw [realPow] at h
  split at h
  · cases h
  split at h
  · cases h
  dsimp only at h
  split at h
  · cases h
  · rename_i hfinite
    cases h
    refine ⟨rfl, fun ha hb => ?_⟩
    simpa [ha, hb] using hfinite

/-- **It is the converted exponent that decides** about the sign of a power with a negative one. -/
theorem powOfReals_eq_ok (hx : x < 0) (hn : n < 0) (h : powOfReals (int x) (int n) = .ok v) :
    ∃ m k, IsConverted x m ∧ IsConverted n k ∧
      v = .real (magnitudePow (decide (Odd n ∧ n.natAbs < 2 ^ 53)) m true k) ∧
      (magnitudePow (decide (Odd n ∧ n.natAbs < 2 ^ 53)) m true k).isInfinite = false := by
  obtain ⟨⟨a, b⟩, hreals, hpow⟩ := Outcome.exists_of_bind h
  obtain ⟨a', ha, hreals⟩ := Outcome.exists_of_bind hreals
  obtain ⟨b', hb, hreals⟩ := Outcome.exists_of_bind hreals
  cases hreals
  obtain ⟨m, rfl, hbase⟩ := exists_finite_of_toReal ha
  obtain ⟨k, rfl, hexponent⟩ := exists_finite_of_toReal hb
  obtain ⟨i, hi, hodd⟩ := hexponent.exists_toInt? true
  rw [decide_eq_true hx, decide_eq_true hn] at hpow
  obtain ⟨rfl, hfinite⟩ := realPow_eq_ok hpow
  have hsigned := Binary64.pow_of_negative (hbase.units_pos hx.ne) (hexponent.units_pos hn.ne) hi
  simp only [hodd] at hsigned
  rw [hsigned] at hfinite ⊢
  exact ⟨m, k, hbase, hexponent, rfl, hfinite rfl rfl⟩

/-- Below zero, the sign follows the parity of the exponents that are converted as they are. -/
theorem neg_iff_of_powOfReals (hx : x < 0) (hn : n < 0)
    (h : powOfReals (int x) (int n) = .ok v) (hv : v.isZero = false) :
    ∃ q, v.IsNumber q ∧ (q < 0 ↔ Odd n ∧ n.natAbs < 2 ^ 53) := by
  obtain ⟨m, k, -, -, rfl, hfinite⟩ := powOfReals_eq_ok hx hn h
  rw [magnitudePow] at *
  rcases Elementary.exp_cases (decide (Odd n ∧ n.natAbs < 2 ^ 53)) (Binary64.signed true k.units *
    Elementary.lnUnits m.units / unitsPerOne) with ⟨r, hr⟩ | hr
  · rw [hr] at hv ⊢
    refine ⟨_, .real _ r, ?_⟩
    have hpos : 0 < r.toRat := by
      rw [Magnitude.toRat_pos_iff, Magnitude.units_pos_iff]
      exact Nat.pos_of_ne_zero (beq_eq_false_iff_ne.mp hv)
    split <;> rename_i hsign
    · exact iff_of_true (neg_lt_zero.mpr hpos) (of_decide_eq_true hsign)
    · exact iff_of_false hpos.not_gt fun h => hsign (decide_eq_true h)
  · rw [hr] at hfinite
    cases hfinite

/-- Exponents that are rounded are so far below zero that the power of a base other than minus one
is zero. -/
theorem isZero_of_powOfReals (hx : x < -1) (hn : n < 0) (hfar : 2 ^ 53 ≤ n.natAbs)
    (h : powOfReals (int x) (int n) = .ok v) : v.isZero = true := by
  obtain ⟨m, k, hbase, hexponent, rfl, -⟩ := powOfReals_eq_ok (by omega) hn h
  have hone : twoTo 1 = 2 := rfl
  have htwo := hbase.twoTo_le (by decide) (hone.le.trans (by omega))
  rw [hone] at htwo
  have hlarge : 2200 * unitsPerOne ≤ k.units :=
    (Nat.mul_le_mul_right _ (by decide)).trans (hexponent.twoTo_le (k := 53) (by decide) hfar)
  rw [Binary64.magnitudePow_of_far htwo hlarge]
  rfl

/-- The exact power of a negative integer. -/
theorem neg_iff_of_intPow {k : ℕ} (hx : x < 0) (h : intPow x k = .ok v) :
    ∃ q, v.IsNumber q ∧ (q < 0 ↔ Odd k) := by
  rw [intPow_eq] at h
  split at h
  · cases h
    refine ⟨_, .int _, ?_⟩
    rw [Int.cast_lt_zero]
    rcases Nat.even_or_odd k with heven | hodd
    · exact iff_of_false (heven.pow_pos hx.ne).not_gt (Nat.not_odd_iff_even.mpr heven)
    · exact iff_of_true (hodd.pow_neg hx) hodd
  · cases h

/-- **The sign of a power of a negative integer follows the parity of the exponent.**  A power that
is computed and not zero is a number, and it is negative if the exponent is odd, whatever the size
of base and exponent is; for the powers of minus one, an odd exponent is to be above `-2 ^ 53`. -/
theorem pow_neg_iff_odd (hx : x < 0) (hn : x = -1 → Odd n → -2 ^ 53 < n)
    (h : pow (.int x) (.int n) = .ok v) (hv : v.isZero = false) :
    ∃ q, v.IsNumber q ∧ (q < 0 ↔ Odd n) := by
  cases n with
  | ofNat k =>
    obtain ⟨q, hq, hodd⟩ := neg_iff_of_intPow hx h
    exact ⟨q, hq, hodd.trans (Int.odd_coe_nat k).symm⟩
  | negSucc k =>
    have hbelow := Int.negSucc_lt_zero k
    have hreal : powOfReals (int x) (int (.negSucc k)) = .ok v := by
      rwa [pow, if_neg hx.ne] at h
    obtain ⟨q, hq, hodd⟩ := neg_iff_of_powOfReals hx hbelow hreal hv
    refine ⟨q, hq, hodd.trans (and_iff_left_of_imp fun hn' => ?_)⟩
    by_contra hfar
    rcases eq_or_ne x (-1) with hone | hone
    · have hbound := hn hone hn'
      omega
    · have hzero := isZero_of_powOfReals (by omega) hbelow (Nat.le_of_not_lt hfar) hreal
      rw [hzero] at hv
      cases hv

/-- The greatest odd exponent that is converted without rounding and an even one that is rounded,
both negated, and a power that is rounded. -/
theorem pow_neg_iff_odd_of_converted :
    let odd : ℤ := -(2 ^ 53 - 1)
    let even : ℤ := -(2 ^ 64 + 2)
    let seventh : Value := .real (.ofRatio true 1 343)
    (pow (.int (-1)) (.int odd) = .ok (.real (.ofInt (-1))) ∧
      ∃ q, (Value.real (.ofInt (-1))).IsNumber q ∧ (q < 0 ↔ Odd odd)) ∧
    (pow (.int (-1)) (.int even) = .ok (.real .one) ∧
      ∃ q, (Value.real .one).IsNumber q ∧ (q < 0 ↔ Odd even)) ∧
    (pow (.int (-7)) (.int (-3)) = .ok seventh ∧
      ∃ q, seventh.IsNumber q ∧ (q < 0 ↔ Odd (-3 : ℤ))) := by
  intro odd even seventh
  have hodd : pow (.int (-1)) (.int odd) = .ok (.real (.ofInt (-1))) := by decide +kernel
  have heven : pow (.int (-1)) (.int even) = .ok (.real .one) := by decide +kernel
  have hseventh : pow (.int (-7)) (.int (-3)) = .ok seventh := by decide +kernel
  exact ⟨⟨hodd, pow_neg_iff_odd (by decide) (by decide) hodd (by decide +kernel)⟩,
    ⟨heven, pow_neg_iff_odd (by decide) (by decide) heven (by decide +kernel)⟩,
    hseventh, pow_neg_iff_odd (by decide) (by decide) hseventh (by decide +kernel)⟩

/-- **The powers of minus one to odd exponents below `-2 ^ 53` are positive**, for the exponent is
rounded to an even number.  That to the first of them is one. -/
theorem pow_of_far_exponent :
    let n : ℤ := -9007199254740993
    pow (.int (-1)) (.int n) = .ok (.real .one) ∧ (Value.real .one).isZero = false ∧
      ¬ ∃ q, (Value.real .one).IsNumber q ∧ (q < 0 ↔ Odd n) := by
  intro n
  have hpow : pow (.int (-1)) (.int n) = .ok (.real .one) := by decide +kernel
  refine ⟨hpow, by decide +kernel, ?_⟩
  rintro ⟨q, hq, hneg⟩
  have hpositive : Binary64.one.isNegative = false := by decide +kernel
  have hodd : Odd n := by decide
  have hsign := (isNegative_iff hq (toReal_real _)).mpr (hneg.mpr hodd)
  rw [hpositive] at hsign
  cases hsign

end Value
end SciCalc
