/-! # Powers and rounded quotients

Everything in this library that rounds (a sum of two floating-point numbers, a decimal numeral that
is read, a result cut to twelve digits, an integer rounded to hundreds) rounds one exact quotient
of natural numbers, once.  This module holds that one step, and the powers of two and of ten with
which the quotients are formed.
-/
namespace SciCalc

/-! ## Powers of two and of ten

The two kinds of natural powers from which number formats are made, binary places and decimal
places, and the number of binary places that a number takes.
-/

/-- Two to the power `n`. -/
def twoTo (n : Nat) : Nat :=
  Nat.pow 2 n

/-- Ten to the power `n`. -/
def tenTo (n : Nat) : Nat :=
  Nat.pow 10 n

@[simp] theorem twoTo_zero : twoTo 0 = 1 := rfl

@[simp] theorem tenTo_zero : tenTo 0 = 1 := rfl

theorem twoTo_succ (n : Nat) : twoTo (n + 1) = twoTo n * 2 := rfl

theorem tenTo_succ (n : Nat) : tenTo (n + 1) = tenTo n * 10 := rfl

theorem twoTo_pos (n : Nat) : 0 < twoTo n :=
  Nat.pow_pos (by decide)

theorem tenTo_pos (n : Nat) : 0 < tenTo n :=
  Nat.pow_pos (by decide)

theorem twoTo_add (m n : Nat) : twoTo (m + n) = twoTo m * twoTo n :=
  Nat.pow_add 2 m n

theorem tenTo_add (m n : Nat) : tenTo (m + n) = tenTo m * tenTo n :=
  Nat.pow_add 10 m n

theorem tenTo_le_tenTo {m n : Nat} (h : m ≤ n) : tenTo m ≤ tenTo n :=
  Nat.pow_le_pow_right (by decide) h

theorem twoTo_le_tenTo (n : Nat) : twoTo n ≤ tenTo n :=
  Nat.pow_le_pow_left (by decide) n

/-- A number is below the power of two that its binary logarithm stands just below. -/
theorem lt_twoTo_log2 (n : Nat) : n < twoTo (n.log2 + 1) :=
  Nat.lt_log2_self

/-- The number of binary digits of a number; zero has none. -/
def bitLength (n : Nat) : Nat :=
  if n = 0 then 0 else n.log2 + 1

theorem bitLength_of_ne_zero {n : Nat} (h : n ≠ 0) : bitLength n = n.log2 + 1 :=
  if_neg h

theorem log2_lt_iff {n k : Nat} (h : n ≠ 0) : n.log2 < k ↔ n < twoTo k :=
  Nat.log2_lt h

theorem le_log2_iff {n k : Nat} (h : n ≠ 0) : k ≤ n.log2 ↔ twoTo k ≤ n :=
  Nat.le_log2 h

/-! ## The nearest whole number of a quotient

Of two equally near whole numbers the even one is taken.
-/

/-- The whole number nearest to `num / den`; of two equally near ones, the even one. -/
def divHalfEven (num den : Nat) : Nat :=
  let quotient := num / den
  let remainder := num % den
  if den < 2 * remainder ∨ (2 * remainder = den ∧ quotient % 2 = 1) then quotient + 1
  else quotient

/-- The nearest whole number is the quotient rounded down, or its successor. -/
theorem divHalfEven_eq_or (num den : Nat) :
    divHalfEven num den = num / den ∨ divHalfEven num den = num / den + 1 := by
  simp only [divHalfEven]
  split
  · exact Or.inr rfl
  · exact Or.inl rfl

/-- A quotient that leaves no remainder is its own rounding. -/
theorem divHalfEven_mul {den : Nat} (n : Nat) (h : 0 < den) :
    divHalfEven (n * den) den = n := by
  have : ¬ (0 = den) := by omega
  simp [divHalfEven, Nat.mul_div_cancel n h, this]

@[simp] theorem divHalfEven_one (n : Nat) : divHalfEven n 1 = n := by
  simpa using divHalfEven_mul n Nat.one_pos

@[simp] theorem divHalfEven_zero (den : Nat) : divHalfEven 0 den = 0 := by
  simp [divHalfEven]

/-- Twice the distance between a quotient and its rounding is at most one unit. -/
theorem divHalfEven_near (num : Nat) {den : Nat} (h : 0 < den) :
    2 * num ≤ (2 * divHalfEven num den + 1) * den ∧
      2 * divHalfEven num den * den ≤ 2 * num + den := by
  have hmod : num % den < den := Nat.mod_lt num h
  have hdiv : den * (num / den) + num % den = num := Nat.div_add_mod num den
  have hcomm : den * (num / den) = num / den * den := Nat.mul_comm _ _
  simp only [divHalfEven]
  split <;> rename_i hc
  · constructor
    · rw [Nat.mul_add, Nat.add_mul, Nat.add_mul, Nat.mul_assoc 2]; omega
    · rw [Nat.mul_add, Nat.add_mul, Nat.mul_assoc 2]; omega
  · constructor
    · rw [Nat.add_mul, Nat.mul_assoc 2]; omega
    · rw [Nat.mul_assoc 2]; omega

/-- A quotient that is half a unit from its rounding, on either side, goes to the even number. -/
theorem divHalfEven_even (num : Nat) {den : Nat} (h : 0 < den)
    (htie : 2 * divHalfEven num den * den = 2 * num + den ∨
      2 * divHalfEven num den * den + den = 2 * num) : divHalfEven num den % 2 = 0 := by
  have hmod : num % den < den := Nat.mod_lt num h
  have hdiv : den * (num / den) + num % den = num := Nat.div_add_mod num den
  have hcomm : den * (num / den) = num / den * den := Nat.mul_comm _ _
  revert htie
  simp only [divHalfEven, Nat.mul_assoc 2]
  split <;> rename_i hc
  · rw [Nat.add_mul]
    omega
  · omega

end SciCalc
