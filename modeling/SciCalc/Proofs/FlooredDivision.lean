import Mathlib
import SciCalc.Value

/-! # Division cut downwards

The remainder of a division cut downwards is smaller than the divisor and is zero or has the
divisor's sign (`natAbs_fmod_lt`, `sign_fmod`).  The calculator cuts the division of exact integers
towards zero, which leaves a remainder with the dividend's sign.  Where this is not the divisor's,
one divisor more makes it the remainder of the division cut downwards (`fmod_eq_tmod_corrected`).

So the remainder of exact integers is what the quotient cut downwards leaves over, and it does not
change when multiples of the divisor are added to the dividend (`Value.mod_integer_exact`).
-/
namespace SciCalc

/-- The division cut downwards is the rational quotient cut downwards. -/
theorem fdiv_eq_floor (x y : Int) : x.fdiv y = ⌊(x : ℚ) / y⌋ := by
  obtain ⟨n, rfl | rfl⟩ := y.eq_nat_or_neg
  · rw [Int.fdiv_eq_ediv_of_nonneg _ (Int.natCast_nonneg n), Int.cast_natCast,
      Rat.floor_intCast_div_natCast]
  · -- Both signs are changed, so that the divisor is a natural number again.
    rw [← Int.neg_fdiv_neg, neg_neg, Int.fdiv_eq_ediv_of_nonneg _ (Int.natCast_nonneg n),
      Int.cast_neg, Int.cast_natCast, div_neg, ← neg_div, ← Int.cast_neg,
      Rat.floor_intCast_div_natCast]

section Remainder
variable (m : Int) {n : Int}

/-- The size of a remainder and its sign, which is the divisor's. -/
theorem fmod_bounds (hn : n ≠ 0) :
    0 ≤ m.fmod n ∧ m.fmod n < n ∨ n < m.fmod n ∧ m.fmod n ≤ 0 := by
  rcases Int.lt_or_gt_of_ne hn with h | h
  · have hnonneg := Int.fmod_nonneg_of_pos (-m) (Int.neg_pos_of_neg h)
    have hlt := Int.fmod_lt_of_pos (-m) (Int.neg_pos_of_neg h)
    rw [Int.neg_fmod_neg] at hnonneg hlt
    omega
  · exact .inl ⟨Int.fmod_nonneg_of_pos m h, Int.fmod_lt_of_pos m h⟩

/-- A remainder is smaller than the divisor. -/
theorem natAbs_fmod_lt (hn : n ≠ 0) : (m.fmod n).natAbs < n.natAbs := by
  have hbounds := fmod_bounds m hn
  omega

/-- A remainder other than zero has the divisor's sign. -/
theorem sign_fmod (hn : n ≠ 0) (h : m.fmod n ≠ 0) : (m.fmod n).sign = n.sign := by
  rcases fmod_bounds m hn with ⟨hlow, hhigh⟩ | ⟨hlow, hhigh⟩
  · have hpos : 0 < m.fmod n := by omega
    rw [Int.sign_eq_one_of_pos hpos, Int.sign_eq_one_of_pos (hpos.trans hhigh)]
  · have hneg : m.fmod n < 0 := by omega
    rw [Int.sign_eq_neg_one_of_neg hneg, Int.sign_eq_neg_one_of_neg (hlow.trans hneg)]

/-- The division cut towards zero leaves a remainder that is corrected by one divisor if its sign is
not the divisor's. -/
theorem fmod_eq_tmod_corrected (n : Int) : m.fmod n =
    if m.tmod n ≠ 0 ∧ ¬ (m.tmod n < 0 ↔ n < 0) then m.tmod n + n else m.tmod n := by
  rw [Int.fmod_eq_tmod]
  by_cases hdvd : n ∣ m
  · have hzero : m.tmod n = 0 := Int.tmod_eq_zero_of_dvd hdvd
    simp [hdvd, hzero]
  · have hne : m.tmod n ≠ 0 := fun h => hdvd (Int.dvd_of_tmod_eq_zero h)
    have hsign : m.tmod n < 0 ↔ m < 0 := by
      rw [← Int.sign_eq_neg_one_iff_neg, Int.sign_tmod, if_neg hdvd, Int.sign_eq_neg_one_iff_neg]
    rw [if_neg hdvd]
    split_ifs <;> omega

end Remainder

namespace Value

/-- The corrected remainder is that of the division cut downwards. -/
theorem intMod_eq_fmod (a b : Int) : intMod a b = a.fmod b :=
  (fmod_eq_tmod_corrected a b).symm

theorem mod_integer (a : Int) {b : Int} (hb : b ≠ 0) :
    mod (.int a) (.int b) = .ok (.int (a.fmod b)) := by
  have hzero : ¬ (int b).isZero = true := by simpa [isZero] using hb
  rw [mod, if_neg hzero, lift, intMod_eq_fmod]

theorem mod_integer_zero (a : Int) : mod (.int a) (.int 0) = .error .divisionByZero := rfl

/-- **The remainder of exact integers.**  It is refused if the divisor is zero.  Otherwise it is
what the quotient cut downwards leaves over: smaller than the divisor, zero or of the divisor's
sign, and the same for all dividends that differ by multiples of the divisor. -/
theorem mod_integer_exact (a b : Int) :
    (mod (.int a) (.int b) = .error .divisionByZero ↔ b = 0) ∧
    (b ≠ 0 → ∃ r, mod (.int a) (.int b) = .ok (.int r) ∧
      r = a - b * ⌊(a : ℚ) / b⌋ ∧ (r = 0 ∨ r.sign = b.sign) ∧ |r| < |b|) ∧
    (∀ k, mod (.int (a + k * b)) (.int b) = mod (.int a) (.int b)) := by
  rcases eq_or_ne b 0 with rfl | hb
  · refine ⟨iff_of_true (mod_integer_zero a) rfl, fun hne => absurd rfl hne, fun k => ?_⟩
    rw [mod_integer_zero, mod_integer_zero]
  · rw [mod_integer a hb]
    refine ⟨⟨nofun, fun hzero => absurd hzero hb⟩, fun _ => ⟨_, rfl, ?_, ?_, ?_⟩, fun k => ?_⟩
    · rw [← fdiv_eq_floor, Int.fmod_def]
    · exact or_iff_not_imp_left.mpr (sign_fmod a hb)
    · rw [Int.abs_eq_natAbs, Int.abs_eq_natAbs]
      exact_mod_cast natAbs_fmod_lt a hb
    · rw [mod_integer _ hb, Int.add_mul_fmod_self_right]

example : mod (.int (-7)) (.int 3) = .ok (.int 2) ∧ mod (.int 7) (.int (-3)) = .ok (.int (-2)) := by
  decide

end Value
end SciCalc
