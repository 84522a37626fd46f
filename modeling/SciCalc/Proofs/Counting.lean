import SciCalc.Builtin
import SciCalc.Proofs.WholeValue

/-! # What the counting functions count

`Builtin.product` and `Builtin.chooseFrom` are loops.  The first multiplies successive numbers,
which makes factorials and the quotients of factorials; the second is a running binomial coefficient
whose divisions leave no remainder.

A count asks three questions of its arguments, in this order: whether they are whole numbers,
whether they are in the domain of the count, and whether the number of factors is bounded.  The
first one that is answered with no decides the error; otherwise the count is exact, however large
the numbers are (`fact_nPr_exact`, `nCr_exact`).
-/
namespace SciCalc.Builtin
open Nat Outcome

/-! ## The loops -/

theorem product_eq_ascFactorial (low count : Nat) : product low count = low.ascFactorial count := by
  induction count with
  | zero => rfl
  | succ count ih => rw [product, ih, ascFactorial_succ, Nat.mul_comm]

/-- The `r` numbers up to `n` are what the factorial of `n` has more than that of `n - r`. -/
theorem product_eq_div {n r : Nat} (h : r ≤ n) : product (n - r + 1) r = n ! / (n - r)! := by
  have hmul := factorial_mul_ascFactorial (n - r) r
  rw [Nat.sub_add_cancel h] at hmul
  rw [product_eq_ascFactorial, ← hmul, Nat.mul_div_cancel_left _ (factorial_pos _)]

theorem rangeProduct_one (n : Nat) : rangeProduct 1 n = n ! := by
  rw [rangeProduct, Nat.add_sub_cancel, product_eq_ascFactorial, one_ascFactorial]

theorem rangeProduct_eq_div {n r : Nat} (h : r ≤ n) :
    rangeProduct (n - r + 1) n = n ! / (n - r)! := by
  have hcount : n + 1 - (n - r + 1) = r := by omega
  rw [rangeProduct, hcount, product_eq_div h]

/-- The quotient of factorials is the falling product `a * (a - 1) * … * (a - b + 1)`. -/
theorem factorial_div_eq_prod {a b : Int} (hab : b ≤ a) :
    ((a.toNat ! / (a.toNat - b.toNat)! : Nat) : Int) = ∏ i ∈ Finset.range b.toNat, (a - i) := by
  have hle : b.toNat ≤ a.toNat := Int.toNat_le_toNat hab
  rw [← descFactorial_eq_div hle, descFactorial_eq_prod_range, Nat.cast_prod]
  refine Finset.prod_congr rfl fun i hi => ?_
  have hi : i < b.toNat := Finset.mem_range.mp hi
  omega

/-- The factor of a step of the loop makes up a binomial coefficient times the divisor. -/
theorem choose_mul_step (rest k : Nat) :
    (rest + k).choose k * (rest + (k + 1)) = (rest + (k + 1)).choose (k + 1) * (k + 1) := by
  rw [Nat.mul_comm]
  exact add_one_mul_choose_eq (rest + k) k

theorem chooseFrom_eq_choose (rest k : Nat) : chooseFrom rest k = (rest + k).choose k := by
  induction k with
  | zero => simp [chooseFrom]
  | succ k ih => rw [chooseFrom, ih, choose_mul_step, Nat.mul_div_cancel _ k.succ_pos]

/-- Every division of the loop is exact: the quotient times the divisor is what was divided. -/
theorem chooseFrom_succ_mul (rest k : Nat) :
    chooseFrom rest (k + 1) * (k + 1) = chooseFrom rest k * (rest + (k + 1)) := by
  rw [chooseFrom_eq_choose, chooseFrom_eq_choose, choose_mul_step]

/-- Choosing from the shorter side. -/
theorem chooseFrom_min {n r : Nat} (h : r ≤ n) :
    chooseFrom (n - min r (n - r)) (min r (n - r)) = n.choose r := by
  have hle : min r (n - r) ≤ n := (Nat.min_le_left _ _).trans h
  rw [chooseFrom_eq_choose, Nat.sub_add_cancel hle]
  rcases Nat.le_total r (n - r) with hr | hr
  · rw [Nat.min_eq_left hr]
  · rw [Nat.min_eq_right hr, choose_symm h]

/-! ## Whole arguments -/

section Whole
variable {n r : Value} {a b : Int}

theorem wholeArgument_of_toInt? (function : Counting) (h : n.toInt? = some a) :
    wholeArgument function n = .ok a := by
  rw [wholeArgument, h]

/-- The number of factors is checked before anything is multiplied. -/
theorem checkFactors_bind (count : Nat) (v : Value) :
    (checkFactors count >>= fun _ => .ok v) =
      if maxFactors < count then .error (.invalidExpression .countTooLarge) else .ok v := by
  rw [checkFactors]
  split <;> rfl

theorem factorial_of_toInt? (h : n.toInt? = some a) : factorial n =
    if a < 0 then .error .domain
    else if maxFactors < a.toNat then .error (.invalidExpression .countTooLarge)
    else .ok (.int (a.toNat ! : Nat)) := by
  rw [factorial, wholeArgument_of_toInt? _ h, ← rangeProduct_one, ← checkFactors_bind]
  rfl

theorem arrangement_of_toInt? (function : Counting) (ha : n.toInt? = some a)
    (hb : r.toInt? = some b) : arrangement function n r =
    if a < 0 ∨ b < 0 ∨ a < b then .error .domain else .ok (a.toNat, b.toNat) := by
  rw [arrangement, wholeArgument_of_toInt? _ ha, wholeArgument_of_toInt? _ hb]
  rfl

theorem permutations_of_toInt? (ha : n.toInt? = some a) (hb : r.toInt? = some b) :
    permutations n r =
    if a < 0 ∨ b < 0 ∨ a < b then .error .domain
    else if maxFactors < b.toNat then .error (.invalidExpression .countTooLarge)
    else .ok (.int (a.toNat ! / (a.toNat - b.toNat)! : Nat)) := by
  rw [permutations, arrangement_of_toInt? _ ha hb]
  by_cases hdomain : a < 0 ∨ b < 0 ∨ a < b
  · rw [if_pos hdomain, if_pos hdomain]
    rfl
  · rw [if_neg hdomain, if_neg hdomain, ← rangeProduct_eq_div (by omega), ← checkFactors_bind]
    rfl

theorem combinations_of_toInt? (ha : n.toInt? = some a) (hb : r.toInt? = some b) :
    combinations n r =
    if a < 0 ∨ b < 0 ∨ a < b then .error .domain
    else if maxFactors < min b.toNat (a.toNat - b.toNat) then
      .error (.invalidExpression .countTooLarge)
    else .ok (.int (a.toNat.choose b.toNat)) := by
  rw [combinations, arrangement_of_toInt? _ ha hb]
  by_cases hdomain : a < 0 ∨ b < 0 ∨ a < b
  · rw [if_pos hdomain, if_pos hdomain]
    rfl
  · rw [if_neg hdomain, if_neg hdomain, ← chooseFrom_min (by omega), ← checkFactors_bind]
    rfl

end Whole

/-! ## Any arguments -/

section Exact
variable {n r : Value}

theorem wholeArgument_of_not_isWhole (function : Counting) (h : ¬ ∃ a, n.IsWhole a) :
    wholeArgument function n = .error (.integerRequired function) := by
  rw [wholeArgument, Value.toInt?_eq_none_iff.mpr h]

/-- The first argument is looked at first, but both are refused with the same error. -/
theorem arrangement_of_not_isWhole (function : Counting)
    (h : (¬ ∃ a, n.IsWhole a) ∨ ¬ ∃ b, r.IsWhole b) :
    arrangement function n r = .error (.integerRequired function) := by
  cases ha : n.toInt? with
  | none =>
    rw [arrangement, wholeArgument_of_not_isWhole _ (Value.toInt?_eq_none_iff.mp ha)]
    rfl
  | some a =>
    have hr : ¬ ∃ b, r.IsWhole b :=
      h.resolve_left (not_not_intro ⟨a, Value.isWhole_iff.mpr ha⟩)
    rw [arrangement, wholeArgument_of_toInt? _ ha, wholeArgument_of_not_isWhole _ hr]
    rfl

variable (mode : AngleMode) (n r)

/-- **Factorials and permutations.**  An argument that is no whole number is refused; then one
outside the domain, and then more than five thousand factors.  Otherwise the factorial is `n!`, and
the number of permutations is the product of the `r` numbers from `n` downwards. -/
theorem fact_nPr_exact :
    ((¬ ∃ a, n.IsWhole a) → fact.apply mode [n] = .error (.integerRequired .factorial)) ∧
    (∀ a, n.IsWhole a → fact.apply mode [n] =
      if a < 0 then .error .domain
      else if 5000 < a then .error (.invalidExpression .countTooLarge)
      else .ok (.int (a.toNat ! : Nat))) ∧
    ((¬ ∃ a, n.IsWhole a) ∨ (¬ ∃ b, r.IsWhole b) →
      nPr.apply mode [n, r] = .error (.integerRequired .permutations)) ∧
    (∀ a b, n.IsWhole a → r.IsWhole b → nPr.apply mode [n, r] =
      if a < 0 ∨ b < 0 ∨ a < b then .error .domain
      else if 5000 < b then .error (.invalidExpression .countTooLarge)
      else .ok (.int (∏ i ∈ Finset.range b.toNat, (a - i)))) ∧
    ∀ a, 0 ≤ a → n.IsWhole a → r.IsWhole 0 → nPr.apply mode [n, r] = .ok (.int 1) := by
  have hnPr : ∀ a b, n.IsWhole a → r.IsWhole b → nPr.apply mode [n, r] =
      if a < 0 ∨ b < 0 ∨ a < b then .error .domain
      else if 5000 < b then .error (.invalidExpression .countTooLarge)
      else .ok (.int (∏ i ∈ Finset.range b.toNat, (a - i))) := by
    intro a b ha hb
    show permutations n r = _
    rw [permutations_of_toInt? (Value.isWhole_iff.mp ha) (Value.isWhole_iff.mp hb)]
    by_cases hdomain : a < 0 ∨ b < 0 ∨ a < b
    · rw [if_pos hdomain, if_pos hdomain]
    · have hcount : maxFactors < b.toNat ↔ 5000 < b := Int.lt_toNat
      rw [if_neg hdomain, if_neg hdomain, factorial_div_eq_prod (by omega)]
      simp only [hcount]
  refine ⟨fun hn => ?_, fun a ha => ?_, fun h => ?_, hnPr, fun a ha hn hr => ?_⟩
  · show factorial n = _
    rw [factorial, wholeArgument_of_not_isWhole _ hn]
    rfl
  · have hcount : maxFactors < a.toNat ↔ 5000 < a := Int.lt_toNat
    show factorial n = _
    rw [factorial_of_toInt? (Value.isWhole_iff.mp ha)]
    simp only [hcount]
  · show permutations n r = _
    rw [permutations, arrangement_of_not_isWhole _ h]
    rfl
  · rw [hnPr a 0 hn hr, if_neg (by omega), if_neg (by omega)]
    rfl

/-- Whole floating-point numbers are counted as the integers that they are, here `1e22` and five; a
half is refused. -/
theorem fact_nPr_exact_of_reals :
    let large : Value := .real (.ofInt (10 ^ 22))
    let five : Value := .real (.ofInt 5)
    let half : Value := .real (.ofRatio false 1 2)
    large.IsWhole (10 ^ 22) ∧ five.IsWhole 5 ∧ (¬ ∃ a, half.IsWhole a) ∧
      fact.apply .degrees [five] = .ok (.int 120) ∧
      nPr.apply .degrees [large, .int 2] = .ok (.int (10 ^ 22 * (10 ^ 22 - 1))) ∧
      nPr.apply .degrees [five, half] = .error (.integerRequired .permutations) := by
  intro large five half
  have hlarge : large.IsWhole (10 ^ 22) := Value.isWhole_iff.mpr (by decide +kernel)
  have hfive : five.IsWhole 5 := Value.isWhole_iff.mpr (by decide +kernel)
  have hhalf : ¬ ∃ a, half.IsWhole a := Value.toInt?_eq_none_iff.mp (by decide +kernel)
  obtain ⟨-, hfact, -⟩ := fact_nPr_exact five half .degrees
  obtain ⟨-, -, -, hnPr, -⟩ := fact_nPr_exact large (.int 2) .degrees
  obtain ⟨-, -, hrefused, -⟩ := fact_nPr_exact five half .degrees
  refine ⟨hlarge, hfive, hhalf, hfact 5 hfive, ?_, hrefused (.inr hhalf)⟩
  rw [hnPr _ 2 hlarge (.int 2), if_neg (by decide), if_neg (by decide)]
  rfl

/-- **Combinations.**  An argument that is no whole number is refused; then `r` outside the range
from 0 to `n`, and then more than five thousand factors when the shorter side is chosen from.
Otherwise the number of combinations is the binomial coefficient.  None of the divisions on the way
to it leaves a remainder: each quotient times its divisor is what was divided. -/
theorem nCr_exact :
    ((¬ ∃ a, n.IsWhole a) ∨ (¬ ∃ b, r.IsWhole b) →
      nCr.apply mode [n, r] = .error (.integerRequired .combinations)) ∧
    (∀ a b, n.IsWhole a → r.IsWhole b → nCr.apply mode [n, r] =
      if a < 0 ∨ b < 0 ∨ a < b then .error .domain
      else if 5000 < min b (a - b) then .error (.invalidExpression .countTooLarge)
      else .ok (.int (a.toNat.choose b.toNat))) ∧
    ∀ rest i, chooseFrom rest (i + 1) * (i + 1) = chooseFrom rest i * (rest + (i + 1)) := by
  refine ⟨fun h => ?_, fun a b ha hb => ?_, chooseFrom_succ_mul⟩
  · show combinations n r = _
    rw [combinations, arrangement_of_not_isWhole _ h]
    rfl
  · show combinations n r = _
    rw [combinations_of_toInt? (Value.isWhole_iff.mp ha) (Value.isWhole_iff.mp hb)]
    by_cases hdomain : a < 0 ∨ b < 0 ∨ a < b
    · rw [if_pos hdomain, if_pos hdomain]
    · have hcount : maxFactors < min b.toNat (a.toNat - b.toNat) ↔ 5000 < min b (a - b) := by
        rw [maxFactors]
        omega
      rw [if_neg hdomain, if_neg hdomain]
      simp only [hcount]

/-- Three of `1e22`, counted by what is left out. -/
theorem nCr_exact_of_large :
    let n : Value := .real (.ofInt (10 ^ 22))
    let r : Value := .int (10 ^ 22 - 3)
    n.IsWhole (10 ^ 22) ∧ r.IsWhole (10 ^ 22 - 3) ∧
      nCr.apply .degrees [n, r] = .ok (.int ((10 ^ 22).choose 3)) := by
  intro n r
  have hn : n.IsWhole (10 ^ 22) := Value.isWhole_iff.mpr (by decide +kernel)
  have hr : r.IsWhole (10 ^ 22 - 3) := .int _
  obtain ⟨-, hcount, -⟩ := nCr_exact n r .degrees
  refine ⟨hn, hr, ?_⟩
  have hsymm : (10 ^ 22).choose (10 ^ 22 - 3) = (10 ^ 22).choose 3 := choose_symm (by decide)
  rw [hcount _ _ hn hr, if_neg (by decide), if_neg (by decide), ← hsymm]
  rfl

end Exact

end SciCalc.Builtin
