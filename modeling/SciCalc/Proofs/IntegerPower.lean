import SciCalc.Proofs.BitLength
import SciCalc.Value

/-! # Exact powers

`Value.intPow` treats the bases of size at most one apart, for these alone have powers of any
exponent.  A power of another base is computed if its size, the exponent times the bits of the base,
is at most a million, and refused if it is more (`intPow_eq`).  The size is computed in 64 bits.  If
it takes more, there is none and the power is refused, so the guard decides as it would with
unbounded numbers (`powerTooLarge_iff`).

The size is no less than the bits of the power, and less than twice as many.  So no power of more
than a million bits is computed, and no power of half a million bits or less is refused
(`pow_exact`).
-/
namespace SciCalc.Value
variable {x : Int} {n : Nat}

/-! ## The guard -/

theorem word?_eq_some_iff {m : Nat} : word? n = some m ↔ n ≤ maxWord ∧ m = n := by
  rw [word?]
  split <;> simp_all [eq_comm]

/-- A size that is computed is the exact one. -/
theorem powerSize?_eq_some_iff {size : Nat} : powerSize? x n = some size ↔
    n ≤ maxWord ∧ size ≤ maxWord ∧ size = n * bitLength x.natAbs := by
  rw [powerSize?, Option.bind_eq_bind, Option.bind_eq_some_iff]
  simp only [word?_eq_some_iff]
  constructor
  · rintro ⟨_, ⟨hn, rfl⟩, hsize, rfl⟩
    exact ⟨hn, hsize, rfl⟩
  · rintro ⟨hn, hsize, rfl⟩
    exact ⟨n, ⟨hn, rfl⟩, hsize, rfl⟩

/-- What takes more than 64 bits is beyond the bound. -/
theorem powerTooLarge_iff (hx : x ≠ 0) :
    powerTooLarge x n = true ↔ powerBits < n * bitLength x.natAbs := by
  rw [powerTooLarge]
  cases hsize : powerSize? x n with
  | some size =>
    obtain ⟨-, -, rfl⟩ := powerSize?_eq_some_iff.mp hsize
    exact decide_eq_true_iff
  | none =>
    have hexponent : n ≤ n * bitLength x.natAbs :=
      Nat.le_mul_of_pos_right n (bitLength_pos (Int.natAbs_ne_zero.mpr hx))
    have hlarge : maxWord < n * bitLength x.natAbs := by
      refine Nat.lt_of_not_le fun hle => ?_
      have hsome := powerSize?_eq_some_iff.mpr ⟨hexponent.trans hle, hle, rfl⟩
      rw [hsize] at hsome
      cases hsome
    have hbound : powerBits < maxWord := by decide
    exact iff_of_true rfl (hbound.trans hlarge)

theorem one_lt_abs_iff : 1 < |x| ↔ 2 ≤ x.natAbs := by
  rw [Int.abs_eq_natAbs]
  omega

/-- The exponent of a power that passes the guard takes no more than 32 bits, for the base has two
bits at least. -/
theorem le_maxExponent (hx : 1 < |x|) (h : n * bitLength x.natAbs ≤ powerBits) :
    n ≤ maxExponent := by
  have hbits : 2 ≤ bitLength x.natAbs := bitLength_mono (one_lt_abs_iff.mp hx)
  calc n ≤ n * bitLength x.natAbs := Nat.le_mul_of_pos_right n (by omega)
    _ ≤ powerBits := h
    _ ≤ maxExponent := by decide

/-! ## The power -/

/-- The powers of minus one follow the parity of the exponent. -/
theorem negOne_pow (n : Nat) : (-1 : Int) ^ n = if n % 2 = 0 then 1 else -1 := by
  split
  · rename_i h
    exact (Nat.even_iff.mpr h).neg_one_pow
  · rename_i h
    exact (Nat.odd_iff.mpr (Nat.mod_two_ne_zero.mp h)).neg_one_pow

/-- An exact power is the power, of a small base or of a bounded size; or it is refused. -/
theorem intPow_eq (x : Int) (n : Nat) : intPow x n =
    if n = 0 ∨ |x| ≤ 1 ∨ n * bitLength x.natAbs ≤ powerBits then .ok (int (x ^ n))
    else .error (.invalidExpression .powerTooLarge) := by
  by_cases hone : n = 0 ∨ x = 1
  · have hpow : x ^ n = 1 := by
      rcases hone with rfl | rfl
      · exact pow_zero x
      · exact one_pow n
    have hwithin : n = 0 ∨ |x| ≤ 1 := hone.imp_right fun hx => by rw [hx]; rfl
    rw [intPow, if_pos hone, if_pos (by tauto), hpow]
  by_cases hzero : x = 0
  · have hpow : x ^ n = 0 := by
      rw [hzero]
      exact zero_pow fun hn => hone (.inl hn)
    rw [intPow, if_neg hone, if_pos hzero, hpow,
      if_pos (.inr (.inl (by rw [hzero]; decide)))]
  by_cases hneg : x = -1
  · rw [intPow, if_neg hone, if_neg hzero, if_pos hneg, hneg, ← negOne_pow, if_pos (by simp)]
  have hbase : 1 < |x| := one_lt_abs_iff.mpr (by omega)
  have hlarge : ¬ |x| ≤ 1 := Int.not_le.mpr hbase
  rw [intPow, if_neg hone, if_neg hzero, if_neg hneg]
  by_cases hsize : n * bitLength x.natAbs ≤ powerBits
  · have hguard : ¬ powerTooLarge x n = true := by
      rw [powerTooLarge_iff hzero]
      exact Nat.not_lt.mpr hsize
    rw [if_neg hguard, if_neg (Nat.not_lt.mpr (le_maxExponent hbase hsize)),
      if_pos (.inr (.inr hsize))]
    rfl
  · rw [if_pos ((powerTooLarge_iff hzero).mpr (Nat.lt_of_not_le hsize)), if_neg (by tauto)]

/-- A power that is computed has no more than a million bits. -/
theorem bitLength_pow_le_powerBits
    (h : n = 0 ∨ |x| ≤ 1 ∨ n * bitLength x.natAbs ≤ powerBits) :
    bitLength (x ^ n).natAbs ≤ powerBits := by
  rw [Int.natAbs_pow]
  rcases Nat.eq_zero_or_pos n with rfl | hn
  · rw [pow_zero]
    decide
  rcases h with hzero | hone | hsize
  · exact absurd hzero hn.ne'
  · have hbase : x.natAbs ≤ 1 := by
      rw [Int.abs_eq_natAbs] at hone
      exact_mod_cast hone
    have hpow : x.natAbs ^ n ≤ 1 := pow_le_one₀ (Nat.zero_le _) hbase
    exact (bitLength_mono hpow).trans (by decide)
  · exact (bitLength_pow_le _ hn.ne').trans hsize

/-- A power of at most half a million bits is computed. -/
theorem within_of_bitLength_pow_le (h : 2 * bitLength (x ^ n).natAbs ≤ powerBits) :
    n = 0 ∨ |x| ≤ 1 ∨ n * bitLength x.natAbs ≤ powerBits := by
  by_cases hx : |x| ≤ 1
  · exact .inr (.inl hx)
  · have hlt := mul_bitLength_lt (one_lt_abs_iff.mp (Int.not_le.mp hx)) n
    rw [← Int.natAbs_pow] at hlt
    exact .inr (.inr (hlt.le.trans h))

/-- **Exact powers are right and bounded.**  A power of exponent zero, of a base of size at most one
or of a size of at most a million bits is computed exactly; any other is refused as too large.  What
is computed has at most a million bits, and what has at most half a million bits is computed.  No
exponent that passes the guard is beyond 32 bits, so the second refusal is never reached.  The guard
has a size whenever exponent and size are numbers of 64 bits, and then it is the exact one; it
decides as the exact size does. -/
theorem pow_exact (x : Int) (n : Nat) :
    (pow (.int x) (.int n) =
      if n = 0 ∨ |x| ≤ 1 ∨ n * bitLength x.natAbs ≤ 1000000 then .ok (.int (x ^ n))
      else .error (.invalidExpression .powerTooLarge)) ∧
    Fault.powerTooLarge.detail = "puissance entière trop grande" ∧
    (∀ v, pow (.int x) (.int n) = .ok v → ∃ y, v = .int y ∧ bitLength y.natAbs ≤ 1000000) ∧
    (bitLength (x ^ n).natAbs ≤ 500000 → pow (.int x) (.int n) = .ok (.int (x ^ n))) ∧
    (1 < |x| → powerTooLarge x n = false → n ≤ maxExponent) ∧
    (∀ size, powerSize? x n = some size ↔
      n < 2 ^ 64 ∧ size < 2 ^ 64 ∧ size = n * bitLength x.natAbs) ∧
    (1 < |x| → (powerTooLarge x n = true ↔ 1000000 < n * bitLength x.natAbs)) := by
  have hpow : pow (.int x) (.int n) = intPow x n := rfl
  have hguard : 1 < |x| → (powerTooLarge x n = true ↔ powerBits < n * bitLength x.natAbs) :=
    fun hx => powerTooLarge_iff (by rintro rfl; exact absurd hx (by decide))
  rw [hpow, intPow_eq]
  refine ⟨rfl, rfl, fun v hv => ?_, fun hbits => ?_, fun hx hsmall => ?_, fun size => ?_, hguard⟩
  · split at hv
    · rename_i hwithin
      cases hv
      exact ⟨_, rfl, bitLength_pow_le_powerBits hwithin⟩
    · cases hv
  · exact if_pos (within_of_bitLength_pow_le (Nat.mul_le_mul_left 2 hbits))
  · have hsize : ¬ powerBits < n * bitLength x.natAbs := by
      rw [← hguard hx, hsmall]
      exact Bool.false_ne_true
    exact le_maxExponent hx (Nat.le_of_not_lt hsize)
  · rw [powerSize?_eq_some_iff, maxWord]
    omega

end SciCalc.Value
