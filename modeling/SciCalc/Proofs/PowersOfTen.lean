import SciCalc.Proofs.RoundingError

/-! # Powers of ten in floating point

A power of ten is a product of squares of squares of ten, and each product is rounded.  Rounding
changes a number of at least one by no more than a small part of it (`Binary64.IsRounded.error_le`).
A number that is made of `n` factors ten is rounded no more than `n` times on its way through the
loop (`Binary64.isTenPow_tenPowFrom`), so the power lies between those of a slightly smaller and a
slightly greater base (`Binary64.isTenPow_tenPow`).  In particular it is no less than one, and it is
infinite from 309 on (`Binary64.tenPow_of_far`).
-/
namespace SciCalc

/-- A few hundred roundings change a number by less than a factor two. -/
theorem errors_le {n : ℕ} (hn : n ≤ 309) :
    1 / 2 ≤ (1 - roundingError) ^ n ∧ (1 + roundingError) ^ n ≤ 2 := by
  have hkept : 1 / 2 ≤ (1 - roundingError) ^ n := by
    have hlow : -2 ≤ -roundingError := by linarith [roundingError_lt_one]
    have hbernoulli := one_add_mul_le_pow hlow n
    have hcount : (n : ℚ) ≤ 309 := by exact_mod_cast hn
    have hsmall : 309 * roundingError ≤ 1 / 2 := by
      rw [roundingError]
      norm_num
    have htotal := mul_le_mul_of_nonneg_right hcount roundingError_pos.le
    rw [← sub_eq_add_neg 1 roundingError] at hbernoulli
    linarith
  have hproduct : (1 + roundingError) ^ n * (1 - roundingError) ^ n ≤ 1 := by
    rw [← mul_pow]
    refine pow_le_one₀ ?_ ?_ <;> nlinarith [roundingError_pos, roundingError_lt_one]
  have hgrown : 0 ≤ (1 + roundingError) ^ n := by
    have := roundingError_pos
    positivity
  exact ⟨hkept, by nlinarith⟩

namespace Binary64
variable {s : Bool} {q : ℚ} {x y : Binary64} {m : Magnitude}

/-! ## Powers of ten -/

/-- `x` is ten to the power `n` up to the errors of `count` roundings, or it is infinite. -/
def IsTenPow (n count : ℕ) (x : Binary64) : Prop :=
  x = infinity false ∨ ∃ m, x = finite false m ∧
    10 ^ n * (1 - roundingError) ^ count ≤ m.toRat ∧ m.toRat ≤ 10 ^ n * (1 + roundingError) ^ count

variable {j k n count more places : ℕ} {square product : Binary64}

/-- A power is at least one if it was rounded no more often than it has factors. -/
theorem one_le_tenPow_mul (h : count ≤ n) : (1 : ℚ) ≤ 10 ^ n * (1 - roundingError) ^ count := by
  have hbase : 1 ≤ 10 * (1 - roundingError) := by
    rw [roundingError]
    norm_num
  have hpow : (10 : ℚ) ^ count ≤ 10 ^ n := pow_le_pow_right₀ (by norm_num) h
  have hkept : (0 : ℚ) ≤ (1 - roundingError) ^ count :=
    pow_nonneg (sub_nonneg.mpr roundingError_lt_one.le) count
  calc (1 : ℚ) ≤ (10 * (1 - roundingError)) ^ count := one_le_pow₀ hbase
    _ = 10 ^ count * (1 - roundingError) ^ count := mul_pow _ _ _
    _ ≤ 10 ^ n * (1 - roundingError) ^ count := mul_le_mul_of_nonneg_right hpow hkept

theorem tenPow_mul_mono (h : k ≤ n) :
    (10 : ℚ) ^ k * (1 - roundingError) ^ k ≤ 10 ^ n * (1 - roundingError) ^ n := by
  obtain ⟨more, rfl⟩ := Nat.exists_eq_add_of_le h
  have hkept := sub_nonneg.mpr roundingError_lt_one.le
  calc (10 : ℚ) ^ k * (1 - roundingError) ^ k
      ≤ 10 ^ k * (1 - roundingError) ^ k * (10 ^ more * (1 - roundingError) ^ more) :=
        le_mul_of_one_le_right (by positivity) (one_le_tenPow_mul more.le_refl)
    _ = 10 ^ (k + more) * (1 - roundingError) ^ (k + more) := by ring

theorem infinity_mul_finite (hm : 0 < m.toRat) :
    (infinity false).mul (finite s m) = infinity s ∧
      (finite s m).mul (infinity false) = infinity s := by
  have hrank : m.rank ≠ 0 :=
    (Magnitude.units_pos_iff.mp (Magnitude.toRat_pos_iff.mp hm)).ne'
  simp [mul, hrank]

/-- A product has one rounding more than its factors together. -/
theorem IsTenPow.mul (hx : IsTenPow j count x) (hy : IsTenPow k more y) (hcount : count ≤ j)
    (hmore : more ≤ k) : IsTenPow (j + k) (count + more + 1) (x.mul y) := by
  have hleft := one_le_tenPow_mul hcount
  have hright := one_le_tenPow_mul hmore
  rcases hx with rfl | ⟨a, rfl, hlow, hhigh⟩ <;> rcases hy with rfl | ⟨b, rfl, hlow', hhigh'⟩
  · exact .inl rfl
  · exact .inl (infinity_mul_finite (by linarith)).1
  · exact .inl (infinity_mul_finite (by linarith)).2
  · have hround := isRounded_mul false false a b
    have ha : 1 ≤ a.toRat := hleft.trans hlow
    have hb : 1 ≤ b.toRat := hright.trans hlow'
    have hproduct : 1 ≤ a.toRat * b.toRat := one_le_mul_of_one_le_of_one_le ha hb
    rcases hround.infinite_or_finite with hinf | ⟨r, hr⟩
    · exact .inl hinf
    · rw [hr] at hround
      obtain ⟨hbelow, habove⟩ := abs_le.mp (hround.error_le (leastNormal_le_one.trans hproduct))
      refine .inr ⟨r, hr, ?_, ?_⟩
      · have hkept := sub_nonneg.mpr roundingError_lt_one.le
        calc (10 : ℚ) ^ (j + k) * (1 - roundingError) ^ (count + more + 1)
            = 10 ^ j * (1 - roundingError) ^ count * (10 ^ k * (1 - roundingError) ^ more) *
                (1 - roundingError) := by ring
          _ ≤ a.toRat * b.toRat * (1 - roundingError) := by gcongr
          _ ≤ r.toRat := by linarith
      · have hgrown := roundingError_pos
        calc r.toRat ≤ a.toRat * b.toRat * (1 + roundingError) := by linarith
          _ ≤ 10 ^ j * (1 + roundingError) ^ count * (10 ^ k * (1 + roundingError) ^ more) *
                (1 + roundingError) := by gcongr
          _ = 10 ^ (j + k) * (1 + roundingError) ^ (count + more + 1) := by ring

/-- The loop that reads the binary digits of an exponent keeps this up: each product adds its
factors, and the square has had one rounding less than it has factors. -/
theorem isTenPow_tenPowFrom (hn : n < 2 ^ places) (hsquare : IsTenPow (k + 1) k square)
    (hproduct : IsTenPow j j product) :
    IsTenPow (j + n * (k + 1)) (j + n * (k + 1)) (tenPowFrom places n square product) := by
  induction places generalizing n j k square product with
  | zero =>
    obtain rfl : n = 0 := by omega
    simpa [tenPowFrom] using hproduct
  | succ places ih =>
    have hhalf : n / 2 < 2 ^ places := by omega
    have hdouble : IsTenPow (2 * k + 1 + 1) (2 * k + 1) (square.mul square) := by
      have hmul := hsquare.mul hsquare k.le_succ k.le_succ
      have htimes : k + 1 + (k + 1) = 2 * k + 1 + 1 := by ring
      have hrounded : k + k + 1 = 2 * k + 1 := by ring
      rwa [htimes, hrounded] at hmul
    rw [tenPowFrom]
    rcases Nat.mod_two_eq_zero_or_one n with heven | hodd
    · have htotal : j + n / 2 * (2 * k + 1 + 1) = j + n * (k + 1) := by
        have hsplit : n = 2 * (n / 2) := by omega
        nth_rewrite 2 [hsplit]
        ring
      rw [heven, if_neg (by decide), ← htotal]
      exact ih hhalf hdouble hproduct
    · have htotal : j + (k + 1) + n / 2 * (2 * k + 1 + 1) = j + n * (k + 1) := by
        have hsplit : n = 2 * (n / 2) + 1 := by omega
        nth_rewrite 2 [hsplit]
        ring
      rw [if_pos hodd, ← htotal]
      exact ih hhalf hdouble (hproduct.mul hsquare le_rfl k.le_succ)

/-- Whole numbers below `2 ^ 53` are not rounded. -/
theorem ofInt_natCast (hn : n < 2 * binade) : ∃ m, ofInt n = finite false m ∧ m.toRat = n := by
  obtain ⟨m, hm⟩ := exists_units_whole hn
  refine ⟨m, ?_, Magnitude.toRat_of_whole hm⟩
  rw [ofInt, ofRatio, Int.natAbs_natCast, ofUnits_of_units hm,
    decide_eq_false (Int.natCast_nonneg n).not_gt]

/-- **A power of ten is rounded once for each factor ten**, at most. -/
theorem isTenPow_tenPow (n : ℕ) : IsTenPow n n (tenPow n) := by
  have hten : IsTenPow 1 0 (ofInt 10) := by
    obtain ⟨m, hm, hvalue⟩ := ofInt_natCast (by decide : 10 < 2 * binade)
    exact .inr ⟨m, hm, by rw [hvalue]; norm_num, by rw [hvalue]; norm_num⟩
  have hone : IsTenPow 0 0 one := by
    obtain ⟨m, hm, hvalue⟩ := ofInt_natCast (by decide : 1 < 2 * binade)
    exact .inr ⟨m, hm, by rw [hvalue]; norm_num, by rw [hvalue]; norm_num⟩
  have hloop := isTenPow_tenPowFrom n.lt_log2_self hten hone
  rwa [Nat.zero_add, Nat.mul_one] at hloop

theorem one_le_tenPow (h : tenPow n = finite false m) : 1 ≤ m.toRat := by
  rcases isTenPow_tenPow n with hinf | ⟨r, hr, hlow, -⟩
  · rw [hinf] at h
    cases h
  · rw [hr] at h
    cases h
    exact (one_le_tenPow_mul n.le_refl).trans hlow

theorem tenPow_le (hn : n ≤ 309) (h : tenPow n = finite false m) : m.toRat ≤ 2 * 10 ^ n := by
  rcases isTenPow_tenPow n with hinf | ⟨r, hr, -, hhigh⟩
  · rw [hinf] at h
    cases h
  · rw [hr] at h
    cases h
    rw [mul_comm]
    exact hhigh.trans (mul_le_mul_of_nonneg_left (errors_le hn).2 (by positivity))

/-- **From 309 on, powers of ten are infinite**: the exact power is so far above the greatest
magnitude that the errors do not bring it back. -/
theorem tenPow_of_far (hn : 309 ≤ n) : tenPow n = infinity false := by
  rcases isTenPow_tenPow n with hinf | ⟨m, -, hlow, -⟩
  · exact hinf
  · exfalso
    have hmost : m.toRat ≤ Magnitude.greatest.toRat :=
      Magnitude.toRat_le_iff.mpr m.units_le_greatest
    have hunits : Magnitude.greatest.units * 2 < tenTo 309 * unitsPerOne := by decide +kernel
    have hunits' : (Magnitude.greatest.units * 2 : ℚ) < tenTo 309 * unitsPerOne := by
      exact_mod_cast hunits
    have hfar : Magnitude.greatest.toRat < tenTo 309 * (1 / 2) := by
      rwa [mul_one_div, Magnitude.toRat,
        div_lt_div_iff₀ (Nat.cast_pos.mpr unitsPerOne_pos) two_pos]
    have hkept : (tenTo 309 : ℚ) * (1 / 2) ≤ tenTo 309 * (1 - roundingError) ^ 309 :=
      mul_le_mul_of_nonneg_left (errors_le le_rfl).1 (Nat.cast_nonneg _)
    have hpower := tenPow_mul_mono hn
    rw [← Decimal.cast_tenTo] at hpower
    exact (hfar.trans_le (hkept.trans (hpower.trans (hlow.trans hmost)))).false

theorem tenPow_infinite_or_finite (n : ℕ) :
    tenPow n = infinity false ∨ n ≤ 308 ∧ ∃ m, tenPow n = finite false m := by
  rcases Nat.lt_or_ge 308 n with hfar | hnear
  · exact .inl (tenPow_of_far hfar)
  · rcases isTenPow_tenPow n with hinf | ⟨m, hm, -⟩
    · exact .inl hinf
    · exact .inr ⟨hnear, m, hm⟩

end Binary64
end SciCalc
