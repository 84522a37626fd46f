import Mathlib
import SciCalc.Decimal

/-! # Numbers of bits

How many bits the results of arithmetic have, in terms of the operands: a sum of positive numbers
and a product have no more than both operands together, and a power at most the exponent times the
bits of the base, and more than half of that if the base is two or more.  A number with `d` decimal
digits has at most `4 * d` bits, for a decimal digit is less than a hexadecimal one.
-/
namespace SciCalc

/-- At most `k` bits: below two to the power `k`. -/
theorem bitLength_le_iff {n k : Nat} : bitLength n ≤ k ↔ n < 2 ^ k := by
  by_cases hn : n = 0
  · subst n
    exact ⟨fun _ => Nat.two_pow_pos k, fun _ => Nat.zero_le k⟩
  · rw [bitLength_of_ne_zero hn, Nat.succ_le_iff]
    exact Nat.log2_lt hn

theorem lt_two_pow_bitLength (n : Nat) : n < 2 ^ bitLength n :=
  bitLength_le_iff.mp (Nat.le_refl _)

theorem bitLength_mono {m n : Nat} (h : m ≤ n) : bitLength m ≤ bitLength n :=
  bitLength_le_iff.mpr (h.trans_lt (lt_two_pow_bitLength n))

theorem bitLength_pos {n : Nat} (h : n ≠ 0) : 0 < bitLength n := by
  rw [bitLength_of_ne_zero h]
  exact Nat.succ_pos _

theorem bitLength_add_le (m n : Nat) : bitLength (m + n) ≤ bitLength m + bitLength n := by
  by_cases hm : m = 0
  · simp [hm]
  by_cases hn : n = 0
  · simp [hn]
  rw [bitLength_le_iff, pow_add]
  -- Both powers are two at least, so their product is no less than their sum.
  have hm2 : 2 ≤ 2 ^ bitLength m := Nat.le_self_pow (bitLength_pos hm).ne' 2
  have hn2 : 2 ≤ 2 ^ bitLength n := Nat.le_self_pow (bitLength_pos hn).ne' 2
  calc m + n < 2 ^ bitLength m + 2 ^ bitLength n :=
        Nat.add_lt_add (lt_two_pow_bitLength m) (lt_two_pow_bitLength n)
    _ ≤ 2 ^ bitLength m * 2 ^ bitLength n := Nat.add_le_mul hm2 hn2

theorem bitLength_mul_le (m n : Nat) : bitLength (m * n) ≤ bitLength m + bitLength n := by
  rw [bitLength_le_iff, pow_add]
  exact Nat.mul_lt_mul'' (lt_two_pow_bitLength m) (lt_two_pow_bitLength n)

theorem bitLength_pow_le (x : Nat) {n : Nat} (hn : n ≠ 0) :
    bitLength (x ^ n) ≤ n * bitLength x := by
  rw [bitLength_le_iff, Nat.mul_comm, pow_mul]
  exact Nat.pow_lt_pow_left (lt_two_pow_bitLength x) hn

/-- A power has at least the bits of the same power of the power of two below the base. -/
theorem mul_lt_bitLength_pow {x : Nat} (hx : x ≠ 0) (n : Nat) :
    n * (bitLength x - 1) < bitLength (x ^ n) := by
  have hbase : 2 ^ (bitLength x - 1) ≤ x := by
    rw [bitLength_of_ne_zero hx]
    exact Nat.log2_self_le hx
  have hpow : 2 ^ (n * (bitLength x - 1)) ≤ x ^ n := by
    rw [Nat.mul_comm, pow_mul]
    exact Nat.pow_le_pow_left hbase n
  exact Nat.lt_of_not_le fun hle => Nat.not_lt.mpr hpow (bitLength_le_iff.mp hle)

/-- From two bits of the base on, the exponent times the bits is less than twice the bits of the
power. -/
theorem mul_bitLength_lt {x : Nat} (hx : 2 ≤ x) (n : Nat) :
    n * bitLength x < 2 * bitLength (x ^ n) := by
  have hbits : 2 ≤ bitLength x := bitLength_mono hx
  calc n * bitLength x ≤ n * (2 * (bitLength x - 1)) := Nat.mul_le_mul_left n (by omega)
    _ = 2 * (n * (bitLength x - 1)) := Nat.mul_left_comm n 2 _
    _ < 2 * bitLength (x ^ n) :=
      Nat.mul_lt_mul_of_pos_left (mul_lt_bitLength_pow (by omega) n) Nat.two_pos

/-- Twice a number has one bit more. -/
theorem bitLength_two_mul_le (n : Nat) : bitLength (2 * n) ≤ bitLength n + 1 := by
  rw [bitLength_le_iff, pow_succ]
  have := lt_two_pow_bitLength n
  omega

/-! ## Decimal digits -/

namespace Decimal

/-- The code points of the digits. -/
theorem toNat_of_isDigit {c : Char} (h : c.isDigit = true) : 48 ≤ c.toNat ∧ c.toNat ≤ 57 := by
  simp only [Char.isDigit, Bool.and_eq_true, decide_eq_true_eq] at h
  exact h

theorem digitValue_lt {c : Char} (h : c.isDigit = true) : digitValue c < 10 := by
  obtain ⟨-, hhigh⟩ := toNat_of_isDigit h
  rw [digitValue]
  omega

theorem valueFrom_lt (s : List Char) (hs : ∀ c ∈ s, c.isDigit = true) (n : Nat) :
    valueFrom n s < (n + 1) * 10 ^ s.length := by
  induction s generalizing n with
  | nil =>
    rw [List.length_nil, pow_zero, Nat.mul_one]
    exact Nat.lt_succ_self n
  | cons c s ih =>
    obtain ⟨hc, hs⟩ := List.forall_mem_cons.mp hs
    have hdigit := digitValue_lt hc
    calc valueFrom n (c :: s) = valueFrom (10 * n + digitValue c) s := rfl
      _ < (10 * n + digitValue c + 1) * 10 ^ s.length := ih hs _
      _ ≤ (10 * (n + 1)) * 10 ^ s.length := Nat.mul_le_mul_right _ (by omega)
      _ = (n + 1) * 10 ^ (c :: s).length := by rw [List.length_cons, pow_succ]; ring

theorem lt_pow_length_digits (n : Nat) : n < 10 ^ (digits n).length := by
  have h := valueFrom_lt (digits n) (isDigit_digits n) 0
  rwa [← value, value_digits, Nat.zero_add, Nat.one_mul] at h

/-- A decimal digit is worth less than four bits. -/
theorem bitLength_le_digits (n : Nat) : bitLength n ≤ 4 * (digits n).length := by
  rw [bitLength_le_iff]
  calc n < 10 ^ (digits n).length := lt_pow_length_digits n
    _ ≤ 16 ^ (digits n).length := Nat.pow_le_pow_left (by decide) _
    _ = 2 ^ (4 * (digits n).length) := by rw [pow_mul]; norm_num

end Decimal
end SciCalc
