import SciCalc.Proofs.NumeralGrammar

/-! # The usual decimal digits

The digits that `Decimal.digits` writes by halving are the usual ones (`digits_eq_toDigits`), for a
run of digits without a zero in front is determined by its value.  A number has as many digits as
there are powers of ten up to it (`length_digits`).
-/
namespace SciCalc.Decimal
variable {c : Char} {s t : List Char} {n k width : ℕ}

/-! ## The value of a run of digits -/

theorem valueFrom_eq (n : ℕ) (s : List Char) : valueFrom n s = n * 10 ^ s.length + value s := by
  induction s generalizing n with
  | nil => rw [List.length_nil, pow_zero, Nat.mul_one]; rfl
  | cons c s ih =>
    have hfrom : valueFrom n (c :: s) = valueFrom (10 * n + digitValue c) s := rfl
    have hzero : value (c :: s) = valueFrom (10 * 0 + digitValue c) s := rfl
    rw [hfrom, hzero, ih, ih, List.length_cons, pow_succ]
    ring

theorem value_append (s t : List Char) : value (s ++ t) = value s * 10 ^ t.length + value t := by
  have happend : value (s ++ t) = valueFrom (value s) t := List.foldl_append
  rw [happend, valueFrom_eq]

theorem value_cons (c : Char) (s : List Char) :
    value (c :: s) = digitValue c * 10 ^ s.length + value s := by
  have hcons : value (c :: s) = valueFrom (10 * 0 + digitValue c) s := rfl
  rw [hcons, Nat.mul_zero, Nat.zero_add, valueFrom_eq]

/-- The usual character of a digit's value is the digit. -/
theorem digitChar_digitValue (hc : c.isDigit = true) : (digitValue c).digitChar = c := by
  obtain ⟨hlow, hhigh⟩ := toNat_of_isDigit hc
  have hall : ∀ d < 10, Nat.digitChar d = Char.ofNat (48 + d) := by decide
  have hcode : 48 + digitValue c = c.toNat := by rw [digitValue]; omega
  rw [hall _ (digitValue_lt hc), hcode, Char.ofNat_toNat]

theorem digitValue_pos (hc : c.isDigit = true) (hzero : c ≠ '0') : 0 < digitValue c := by
  refine Nat.pos_of_ne_zero fun h => hzero ?_
  rw [← digitChar_digitValue hc, h]
  rfl

/-- A run of digits without a zero in front is at least the power of ten of its first digit. -/
theorem pow_length_le_value (hc : c.isDigit = true) (hzero : c ≠ '0') (s : List Char) :
    10 ^ s.length ≤ value (c :: s) := by
  rw [value_cons]
  have hfirst := Nat.le_mul_of_pos_left (10 ^ s.length) (digitValue_pos hc hzero)
  omega

/-! ## The digits of a number -/

theorem toDigits_digitValue (hc : c.isDigit = true) : Nat.toDigits 10 (digitValue c) = [c] := by
  rw [Nat.toDigits_of_lt_base (digitValue_lt hc), digitChar_digitValue hc]

/-- Digits that continue those of a positive number are its usual digits, continued. -/
theorem toDigits_valueFrom (hn : 0 < n) (hs : ∀ c ∈ s, c.isDigit = true) :
    Nat.toDigits 10 (valueFrom n s) = Nat.toDigits 10 n ++ s := by
  induction s generalizing n with
  | nil => exact (List.append_nil _).symm
  | cons c s ih =>
    obtain ⟨hc, hs⟩ := List.forall_mem_cons.mp hs
    have hnext : valueFrom n (c :: s) = valueFrom (10 * n + digitValue c) s := rfl
    rw [hnext, ih (by omega) hs, ← Nat.toDigits_append_toDigits (by decide) hn (digitValue_lt hc),
      toDigits_digitValue hc, List.append_assoc, List.singleton_append]

/-- Only zero starts with a zero. -/
theorem exists_digits_of_ne_zero (hn : n ≠ 0) :
    ∃ c s, digits n = c :: s ∧ c.isDigit = true ∧ c ≠ '0' ∧ ∀ d ∈ s, d.isDigit = true := by
  have hall := isDigit_digits n
  have hvalue := value_digits n
  obtain ⟨c, s, hdigits, hc⟩ := exists_digits n
  rw [hdigits] at hall
  refine ⟨c, s, hdigits, hc, ?_, (List.forall_mem_cons.mp hall).2⟩
  unfold digits at hdigits hvalue
  split at hdigits
  · rename_i hdrop
    rw [hdrop] at hvalue
    exact absurd hvalue.symm hn
  · rename_i hdrop
    have hhead := List.head?_dropWhile_not (· == '0') (padded (doublings n) n [])
    rw [hdrop, hdigits] at hhead
    simpa using hhead

/-- **The digits of a number are the usual ones.** -/
theorem digits_eq_toDigits (n : ℕ) : digits n = Nat.toDigits 10 n := by
  rcases eq_or_ne n 0 with rfl | hn
  · rfl
  · obtain ⟨c, s, hdigits, hc, hzero, hs⟩ := exists_digits_of_ne_zero hn
    have hvalue : valueFrom (digitValue c) s = n := by
      rw [valueFrom_eq, ← value_cons, ← hdigits, value_digits]
    rw [hdigits, ← hvalue, toDigits_valueFrom (digitValue_pos hc hzero) hs, toDigits_digitValue hc,
      List.singleton_append]

/-- An integer is written as it usually is. -/
theorem integer_eq_toString (n : ℤ) : integer n = (toString n).toList := by
  rw [Int.toString_eq_repr, integer, digits_eq_toDigits]
  cases n with
  | ofNat m => exact Nat.toList_repr.symm
  | negSucc m =>
    rw [if_pos (Int.negSucc_lt_zero m), Int.repr, String.toList_append, Nat.toList_repr]
    rfl

/-! ## The number of digits -/

theorem pow_length_digits_le (hn : n ≠ 0) : 10 ^ ((digits n).length - 1) ≤ n := by
  obtain ⟨c, s, hdigits, hc, hzero, -⟩ := exists_digits_of_ne_zero hn
  have hle := pow_length_le_value hc hzero s
  rw [← hdigits, value_digits] at hle
  rwa [hdigits, List.length_cons, Nat.add_sub_cancel]

/-- A number below a power of ten has no more digits than the exponent, but one at least. -/
theorem length_digits_le (h : n < 10 ^ k) (hk : k ≠ 0) : (digits n).length ≤ k := by
  rcases eq_or_ne n 0 with rfl | hn
  · exact Nat.one_le_iff_ne_zero.mpr hk
  · have hlt : 10 ^ ((digits n).length - 1) < 10 ^ k := (pow_length_digits_le hn).trans_lt h
    have hlength := (Nat.pow_lt_pow_iff_right (by decide)).mp hlt
    omega

theorem length_digits (hlow : 10 ^ k ≤ n) (hhigh : n < 10 ^ (k + 1)) :
    (digits n).length = k + 1 := by
  have hle := length_digits_le hhigh (Nat.succ_ne_zero k)
  have hlt := (Nat.pow_lt_pow_iff_right (by decide)).mp (hlow.trans_lt (lt_pow_length_digits n))
  omega

/-- The powers of ten on both sides of a number. -/
theorem exists_length_digits (hn : n ≠ 0) :
    ∃ k, (digits n).length = k + 1 ∧ 10 ^ k ≤ n ∧ n < 10 ^ (k + 1) := by
  have hpos := List.length_pos_iff.mpr (digits_ne_nil n)
  have hlength : (digits n).length = (digits n).length - 1 + 1 := by omega
  exact ⟨_, hlength, pow_length_digits_le hn, hlength ▸ lt_pow_length_digits n⟩

theorem value_digitsIn (width n : ℕ) : value (digitsIn width n) = n := by
  rw [digitsIn, value_zeros_append, value_digits]

theorem le_length_digitsIn (width n : ℕ) : width ≤ (digitsIn width n).length := by
  rw [digitsIn, List.length_append, List.length_replicate]
  omega

theorem length_digitsIn (h : n < 10 ^ width) (hwidth : width ≠ 0) :
    (digitsIn width n).length = width := by
  have hle := length_digits_le h hwidth
  rw [digitsIn, List.length_append, List.length_replicate]
  omega

end SciCalc.Decimal
