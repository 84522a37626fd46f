import SciCalc.Builtin
import SciCalc.Proofs.FiniteNumbers

/-! # The index of a root

The index of a root is an exact integer when it is given and a number of 64 bits when it is used.
On the way it is a floating-point number, so an integer of more than 53 bits is rounded to a
multiple of a power of two (`roundedWhole`).

Rounding keeps the sign of an index and leaves an even index even, and an index of at most 53 bits
stays as it is (`Builtin.root_exact`): there are no roots if the index is not positive, and none of
a negative number if it is even.  An index that is rounded to more than 64 bits is refused, whatever
its sign.
-/
namespace SciCalc

/-! ## Whole numbers, rounded -/

/-- The step from one floating-point number to the next around a whole number; one if all whole
numbers of its size are of the format. -/
def wholeStep (n : ℕ) : ℕ :=
  twoTo (n.log2 - 52)

/-- The whole number that a whole number is rounded to. -/
def roundedWhole (n : ℕ) : ℕ :=
  divHalfEven n (wholeStep n) * wholeStep n

variable {n k : ℕ}

theorem wholeStep_pos (n : ℕ) : 0 < wholeStep n :=
  twoTo_pos _

/-- Whole numbers of at most 53 bits stay as they are. -/
theorem roundedWhole_of_lt (h : n < 2 ^ 53) : roundedWhole n = n := by
  have hstep : wholeStep n = 1 := by
    rcases eq_or_ne n 0 with rfl | hn
    · rfl
    · have hlog : n.log2 < 53 := (log2_lt_iff hn).mpr h
      have hzero : n.log2 - 52 = 0 := by omega
      rw [wholeStep, hzero, twoTo_zero]
  rw [roundedWhole, hstep, divHalfEven_one, Nat.mul_one]

/-- From `2 ^ 53` on, whole numbers are rounded to even ones. -/
theorem even_roundedWhole_of_le (h : 2 ^ 53 ≤ n) : Even (roundedWhole n) := by
  have hlog : 53 ≤ n.log2 := (le_log2_iff (by omega)).mpr h
  have hstep : Even (wholeStep n) := (even_two.pow_of_ne_zero (by omega) : Even (2 ^ _))
  exact hstep.mul_left _

theorem even_roundedWhole (h : Even n) : Even (roundedWhole n) := by
  rcases Nat.lt_or_ge n (2 ^ 53) with hsmall | hlarge
  · rwa [roundedWhole_of_lt hsmall]
  · exact even_roundedWhole_of_le hlarge

/-- The step divides every power of two that the number reaches. -/
theorem exists_wholeStep_mul (h : n.log2 ≤ k) : ∃ c, twoTo k = c * wholeStep n :=
  ⟨twoTo (k - (n.log2 - 52)), by rw [wholeStep, ← twoTo_add]; congr 1; omega⟩

theorem roundedWhole_le_twoTo (hn : n ≠ 0) (h : n ≤ twoTo k) : roundedWhole n ≤ twoTo k := by
  have hlog : n.log2 ≤ k := by
    have hle : twoTo n.log2 ≤ twoTo k := ((le_log2_iff hn).mp (Nat.le_refl _)).trans h
    exact (Nat.pow_le_pow_iff_right (by decide)).mp hle
  obtain ⟨c, hc⟩ := exists_wholeStep_mul hlog
  rw [hc] at h ⊢
  exact Nat.mul_le_mul_right _ (divHalfEven_le (wholeStep_pos n) h)

theorem twoTo_le_roundedWhole (h : twoTo k ≤ n) : twoTo k ≤ roundedWhole n := by
  have hn : n ≠ 0 := (Nat.lt_of_lt_of_le (twoTo_pos k) h).ne'
  have hle : twoTo n.log2 ≤ n := (le_log2_iff hn).mp (Nat.le_refl _)
  obtain ⟨c, hc⟩ := exists_wholeStep_mul (Nat.le_refl n.log2)
  have hlog : twoTo k ≤ twoTo n.log2 := Nat.pow_le_pow_right Nat.two_pos ((le_log2_iff hn).mpr h)
  refine hlog.trans ?_
  rw [hc] at hle ⊢
  exact Nat.mul_le_mul_right _ (le_divHalfEven (wholeStep_pos n) hle)

theorem roundedWhole_pos (h : 0 < n) : 0 < roundedWhole n :=
  twoTo_le_roundedWhole (k := 0) h

/-- Between two powers of two the step is the same. -/
theorem roundedWhole_eq (hlow : twoTo k ≤ n) (hhigh : n < twoTo (k + 1)) :
    roundedWhole n = divHalfEven n (twoTo (k - 52)) * twoTo (k - 52) := by
  have hn : n ≠ 0 := (Nat.lt_of_lt_of_le (twoTo_pos k) hlow).ne'
  have hle : k ≤ n.log2 := (le_log2_iff hn).mpr hlow
  have hlt : n.log2 < k + 1 := (log2_lt_iff hn).mpr hhigh
  have hlog : n.log2 = k := by omega
  rw [roundedWhole, wholeStep, hlog]

/-- Below `2 ^ 63` the step is 1024; halfway to the power, it is the even one that is taken. -/
theorem roundedWhole_lt_iff : roundedWhole n < 2 ^ 63 ↔ n < 2 ^ 63 - 2 ^ 9 := by
  rcases Nat.lt_or_ge n (2 ^ 62) with hlow | hlow
  · rcases eq_or_ne n 0 with rfl | hn
    · decide
    · have hle : roundedWhole n ≤ 2 ^ 62 := roundedWhole_le_twoTo hn hlow.le
      omega
  rcases Nat.lt_or_ge n (2 ^ 63) with hhigh | hhigh
  · have hstep : twoTo (62 - 52) = 1024 := rfl
    have hnear := divHalfEven_near n (by decide : 0 < 1024)
    have heven := divHalfEven_even n (by decide : 0 < 1024)
    rw [roundedWhole_eq hlow hhigh, hstep]
    omega
  · have hge : 2 ^ 63 ≤ roundedWhole n := twoTo_le_roundedWhole hhigh
    omega

/-- Above `2 ^ 63` the step is 2048; halfway from the power, the power is taken. -/
theorem roundedWhole_le_iff : roundedWhole n ≤ 2 ^ 63 ↔ n ≤ 2 ^ 63 + 2 ^ 10 := by
  rcases Nat.lt_or_ge n (2 ^ 63) with hlow | hlow
  · rcases eq_or_ne n 0 with rfl | hn
    · decide
    · have hle : roundedWhole n ≤ 2 ^ 63 := roundedWhole_le_twoTo hn hlow.le
      omega
  rcases Nat.lt_or_ge n (2 ^ 64) with hhigh | hhigh
  · have hstep : twoTo (63 - 52) = 2048 := rfl
    have hnear := divHalfEven_near n (by decide : 0 < 2048)
    have heven := divHalfEven_even n (by decide : 0 < 2048)
    rw [roundedWhole_eq hlow hhigh, hstep]
    omega
  · have hge : 2 ^ 64 ≤ roundedWhole n := twoTo_le_roundedWhole hhigh
    omega

/-! ## Integers as floating-point numbers -/

theorem log2_mul_twoTo (hn : n ≠ 0) (k : ℕ) : (n * twoTo k).log2 = n.log2 + k := by
  obtain ⟨hlow, hhigh⟩ := (Nat.log2_eq_iff hn).mp rfl
  refine (Nat.log2_eq_iff (Nat.mul_ne_zero hn (twoTo_pos k).ne')).mpr ⟨?_, ?_⟩
  · rw [pow_add]
    exact Nat.mul_le_mul_right _ hlow
  · rw [Nat.add_right_comm, pow_add]
    exact Nat.mul_lt_mul_of_pos_right hhigh (twoTo_pos k)

/-- Rounding a whole number to the format is rounding it to a multiple of its step. -/
theorem unitsOfRank_nearestRank_whole (n : ℕ) :
    unitsOfRank (nearestRank (n * unitsPerOne) 1) = roundedWhole n * unitsPerOne := by
  have hone : unitsPerOne = twoTo unitPlaces := rfl
  have hplaces : 53 ≤ unitPlaces := by decide
  rcases eq_or_ne n 0 with rfl | hn
  · rw [unitsOfRank_nearestRank, Nat.zero_mul, divHalfEven_zero, Nat.zero_mul,
      roundedWhole_of_lt (by decide), Nat.zero_mul]
  rw [unitsOfRank_nearestRank, roundingShift, Nat.div_one, Nat.one_mul, hone, log2_mul_twoTo hn]
  rcases Nat.lt_or_ge n (2 ^ 53) with hsmall | hlarge
  · -- One is a multiple of the step.
    have hlog : n.log2 < 53 := (log2_lt_iff hn).mpr hsmall
    have hsplit : unitPlaces = (52 - n.log2) + (n.log2 + unitPlaces - 52) := by omega
    have hunits : n * twoTo unitPlaces =
        n * twoTo (52 - n.log2) * twoTo (n.log2 + unitPlaces - 52) := by
      rw [Nat.mul_assoc, ← twoTo_add, ← hsplit]
    rw [roundedWhole_of_lt hsmall, hunits, divHalfEven_mul _ (twoTo_pos _)]
  · have hlog : 53 ≤ n.log2 := (le_log2_iff hn).mpr hlarge
    have hsplit : n.log2 + unitPlaces - 52 = unitPlaces + (n.log2 - 52) := by omega
    rw [hsplit, twoTo_add, Nat.mul_comm n, divHalfEven_mul_left (twoTo_pos _), roundedWhole,
      wholeStep]
    ring

namespace Binary64
variable {s : Bool} {m : Magnitude}

/-- A whole number that is converted to the format is rounded. -/
theorem exists_units_of_isFinite (h : (ofRatio s n 1).isFinite = true) :
    ∃ m, ofRatio s n 1 = finite s m ∧ m.units = roundedWhole n * unitsPerOne := by
  by_cases hrank : nearestRank (n * unitsPerOne) 1 < rankBound
  · refine ⟨⟨_, hrank⟩, dif_pos hrank, ?_⟩
    rw [Magnitude.units_eq, unitsOfRank_nearestRank_whole]
  · rw [ofRatio, ofUnits, ofRank, dif_neg hrank] at h
    cases h

/-- Where bits are cut off, the leading ones are 64. -/
theorem twoTo_le_leadingBits {a : ℕ} (h : wordBits < bitLength a) :
    twoTo 63 * twoTo (cutBits a) ≤ a ∧ twoTo 63 ≤ leadingBits a := by
  have ha : a ≠ 0 := by
    rintro rfl
    exact absurd h (by decide)
  have hcut : 63 + cutBits a = a.log2 := by
    rw [bitLength_of_ne_zero ha, wordBits] at h
    rw [cutBits, bitLength_of_ne_zero ha, wordBits]
    omega
  have hle : twoTo 63 * twoTo (cutBits a) ≤ a := by
    rw [← twoTo_add, hcut]
    exact (le_log2_iff ha).mp (Nat.le_refl _)
  have hkept : twoTo 63 ≤ a / twoTo (cutBits a) := (Nat.le_div_iff_mul_le (twoTo_pos _)).mpr hle
  refine ⟨hle, ?_⟩
  rw [leadingBits]
  split <;> omega

/-- An integer of more than 64 bits is converted as another one of more than 64 bits. -/
theorem exists_ofLongInt {z : ℤ} (h : (ofLongInt z).isFinite = true) :
    ∃ n, ofLongInt z = ofRatio (z < 0) n 1 ∧
      (n = z.natAbs ∨ 2 ^ 64 ≤ n ∧ 2 ^ 64 ≤ z.natAbs) := by
  rcases Nat.lt_or_ge wordBits (bitLength z.natAbs) with hlarge | hsmall
  · have hguard : ¬ farBits < cutBits z.natAbs := by
      intro hfar
      rw [ofLongInt, if_pos hfar] at h
      cases h
    obtain ⟨hle, hleading⟩ := twoTo_le_leadingBits hlarge
    have hcut : 1 ≤ cutBits z.natAbs := Nat.sub_pos_of_lt hlarge
    have hpow : twoTo 64 ≤ twoTo 63 * twoTo (cutBits z.natAbs) :=
      twoTo_add 63 1 ▸ Nat.mul_le_mul_left _ (Nat.pow_le_pow_right Nat.two_pos hcut)
    refine ⟨leadingBits z.natAbs * twoTo (cutBits z.natAbs), ?_, .inr ⟨?_, hpow.trans hle⟩⟩
    · rw [ofLongInt, if_neg hguard]
    · exact hpow.trans (Nat.mul_le_mul_right _ hleading)
  · exact ⟨z.natAbs, ofLongInt_eq_ofInt hsmall, .inl rfl⟩

end Binary64

/-- The magnitude is one that the integer is converted to: its size is rounded, but for that of an
integer of more than 64 bits, which may be cut before. -/
def IsConverted (z : ℤ) (m : Magnitude) : Prop :=
  ∃ n, m.units = roundedWhole n * unitsPerOne ∧ (n = z.natAbs ∨ 2 ^ 64 ≤ n ∧ 2 ^ 64 ≤ z.natAbs)

/-- Conversion keeps an integer on its side of a power of two. -/
theorem IsConverted.twoTo_le {z : ℤ} {m : Magnitude} {k : ℕ} (h : IsConverted z m) (hk : k ≤ 64)
    (hz : twoTo k ≤ z.natAbs) : twoTo k * unitsPerOne ≤ m.units := by
  obtain ⟨n, hm, hn⟩ := h
  have hle : twoTo k ≤ n := by
    rcases hn with rfl | ⟨hlarge, -⟩
    · exact hz
    · exact (Nat.pow_le_pow_right Nat.two_pos hk).trans hlarge
  rw [hm]
  exact Nat.mul_le_mul_right _ (twoTo_le_roundedWhole hle)

theorem IsConverted.units_pos {z : ℤ} {m : Magnitude} (h : IsConverted z m) (hz : z ≠ 0) :
    0 < m.units := by
  have hunits := h.twoTo_le (Nat.zero_le _) (Int.natAbs_pos.mpr hz)
  have hpos : 0 < twoTo 0 * unitsPerOne := Nat.mul_pos (twoTo_pos 0) unitsPerOne_pos
  exact hpos.trans_le hunits

namespace Value
variable {x : Value} {q : ℚ} {v : Binary64} {z : ℤ}

/-- A converted integer keeps its sign. -/
theorem exists_finite_of_toReal (h : (int z).toReal = .ok v) :
    ∃ m, v = .finite (z < 0) m ∧ IsConverted z m := by
  rw [toReal] at h
  split at h
  · rename_i hfinite
    cases h
    obtain ⟨n, hratio, hn⟩ := Binary64.exists_ofLongInt hfinite
    obtain ⟨m, hm, hunits⟩ := Binary64.exists_units_of_isFinite (hratio ▸ hfinite)
    exact ⟨m, hratio.trans hm, n, hunits, hn⟩
  · cases h

/-- A number is converted to a negative one if it is below zero. -/
theorem isNegative_iff (hx : x.IsNumber q) (hv : x.toReal = .ok v) :
    v.isNegative = true ↔ q < 0 := by
  cases hx with
  | int z =>
    obtain ⟨m, rfl, hm⟩ := exists_finite_of_toReal hv
    rw [Binary64.isNegative_finite_iff, decide_eq_true_eq, Int.cast_lt_zero]
    exact ⟨And.left, fun hz => ⟨hz, hm.units_pos hz.ne⟩⟩
  | real s m =>
    cases hv
    rw [Binary64.isNegative_finite_iff]
    cases s with
    | true => simp [Magnitude.toRat_pos_iff]
    | false => simp [m.toRat_nonneg]

end Value

/-! ## The roots of an integer index -/

namespace Builtin
variable {x : Value} {q : ℚ} {v w : Binary64} {z : ℤ}

/-- The integers that are numbers of 64 bits once they are rounded. -/
def RoundsToIndex (z : ℤ) : Prop :=
  -(2 ^ 63 + 2 ^ 10) ≤ z ∧ z < 2 ^ 63 - 2 ^ 9

instance : DecidablePred RoundsToIndex :=
  fun z => inferInstanceAs (Decidable (-(2 ^ 63 + 2 ^ 10) ≤ z ∧ z < 2 ^ 63 - 2 ^ 9))

/-- An integer is refused as an index if its rounded size takes more than 64 bits. -/
theorem isIndex_signed_iff {n : ℕ} (hn : n = z.natAbs ∨ 2 ^ 64 ≤ n ∧ 2 ^ 64 ≤ z.natAbs) :
    isIndex (Binary64.signed (z < 0) (roundedWhole n)) = true ↔ RoundsToIndex z := by
  have hlt := roundedWhole_lt_iff (n := n)
  have hle := roundedWhole_le_iff (n := n)
  simp only [isIndex, indexRange, RoundsToIndex, Binary64.signed, Bool.and_eq_true,
    decide_eq_true_eq]
  split <;> omega

theorem rootIndex_eq {n : Value} {i : ℤ} (h : n.toReal = .ok w) (hi : w.truncated? = some i) :
    rootIndex n =
      if isIndex i then .ok i else .error (.invalidExpression .rootIndexOutOfRange) := by
  simp only [rootIndex, h, hi, bind, Except.bind]

/-- The index that an integer makes is as positive and as even as the integer. -/
theorem rootIndex_of_toReal (h : (Value.int z).toReal = .ok w) :
    (¬ RoundsToIndex z ∧
      rootIndex (.int z) = .error (.invalidExpression .rootIndexOutOfRange)) ∨
    (RoundsToIndex z ∧ ∃ i, rootIndex (.int z) = .ok i ∧
      (0 < i ↔ 0 < z) ∧ (Even z → Even i) ∧ (z.natAbs < 2 ^ 53 → i = z)) := by
  obtain ⟨m, rfl, n, hunits, hn⟩ := Value.exists_finite_of_toReal h
  have hcut : (Binary64.finite (z < 0) m).truncated? =
      some (Binary64.signed (z < 0) (roundedWhole n)) := by
    rw [Binary64.truncated?, hunits, Nat.mul_div_cancel _ unitsPerOne_pos]
  have hindex := isIndex_signed_iff hn
  rw [rootIndex_eq h hcut]
  by_cases hrange : RoundsToIndex z
  · obtain rfl : n = z.natAbs := by
      rw [RoundsToIndex] at hrange
      omega
    refine .inr ⟨hrange, _, if_pos (hindex.mpr hrange), ?_, ?_, ?_⟩
    · have hpos : 0 < z.natAbs → 0 < roundedWhole z.natAbs := roundedWhole_pos
      have hzero : roundedWhole 0 = 0 := roundedWhole_of_lt (by decide)
      simp only [Binary64.signed, decide_eq_true_eq]
      rcases Int.lt_trichotomy z 0 with hz | rfl | hz
      · rw [if_pos hz]
        omega
      · simp [hzero]
      · rw [if_neg (by omega)]
        omega
    · intro heven
      have hsize : Even (roundedWhole z.natAbs) := even_roundedWhole (Int.natAbs_even.mpr heven)
      rw [← Int.natAbs_even, Binary64.natAbs_signed]
      exact hsize
    · intro hsmall
      rw [roundedWhole_of_lt hsmall]
      simp only [Binary64.signed, decide_eq_true_eq]
      split <;> omega
  · exact .inl ⟨hrange, if_neg (mt hindex.mp hrange)⟩

/-- The only roots that are refused for being complex are the even ones of negative numbers. -/
theorem rootReal_cases (v : Binary64) (i : ℤ) :
    (v.isNegative = true ∧ Even i ∧ rootReal v i = .error .complexResult) ∨
    (¬ (v.isNegative = true ∧ Even i) ∧ ∃ y, rootReal v i = .ok (.real y)) := by
  simp only [rootReal, ← Int.even_iff]
  by_cases hv : v.isNegative = true
  · by_cases hi : Even i
    · exact .inl ⟨hv, hi, by rw [if_pos hv, if_pos hi]⟩
    · exact .inr ⟨fun h => hi h.2, _, by rw [if_pos hv, if_neg hi]⟩
  · exact .inr ⟨fun h => hv h.1, _, if_neg hv⟩

theorem rootValue_eq {n : Value} {i : ℤ} (hv : x.toReal = .ok v) (hi : rootIndex n = .ok i) :
    rootValue x n = if i ≤ 0 then .error .invalidRoot else rootReal v i := by
  simp only [rootValue, hv, hi, bind, Except.bind]

/-- **The roots of an integer index**, told apart by the index and the sign of the number.

A negative number is refused its root of an index of more than 53 bits if the index is even after
it has been rounded; of an odd index that large, nothing is said here. -/
theorem root_exact (hx : x.IsNumber q) (hv : x.toReal = .ok v)
    (hw : (Value.int z).toReal = .ok w) (mode : AngleMode) :
    let result := root.apply mode [x, .int z]
    (result = .error (.invalidExpression .rootIndexOutOfRange) ↔ ¬ RoundsToIndex z) ∧
    (result = .error .invalidRoot ↔ z ≤ 0 ∧ RoundsToIndex z) ∧
    (0 < z → RoundsToIndex z → q < 0 → Even z → result = .error .complexResult) ∧
    (0 < z → RoundsToIndex z → q < 0 → Odd z → z < 2 ^ 53 → ∃ y, result = .ok (.real y)) ∧
    (0 < z → RoundsToIndex z → 0 ≤ q → ∃ y, result = .ok (.real y)) := by
  intro result
  have hsign := Value.isNegative_iff hx hv
  rcases rootIndex_of_toReal hw with ⟨hrange, hindex⟩ | ⟨hrange, i, hindex, hpos, heven, hsmall⟩
  · have hresult : result = .error (.invalidExpression .rootIndexOutOfRange) := by
      show rootValue x (.int z) = _
      simp only [rootValue, hv, hindex, bind, Except.bind]
    simp [hresult, hrange]
  have hresult : result = if i ≤ 0 then .error .invalidRoot else rootReal v i :=
    rootValue_eq hv hindex
  by_cases hz : 0 < z
  · rw [if_neg (by omega)] at hresult
    clear_value result
    rcases rootReal_cases v i with ⟨hneg, hi, hcomplex⟩ | ⟨hreal, y, hy⟩
    · have hq : q < 0 := hsign.mp hneg
      have hlarge : Odd z → ¬ z < 2 ^ 53 := by
        intro hodd hlt
        rw [hsmall (by omega)] at hi
        exact Int.not_even_iff_odd.mpr hodd hi
      rw [hcomplex] at hresult
      grind
    · have hnot : q < 0 → ¬ Even z := fun hq hz => hreal ⟨hsign.mpr hq, heven hz⟩
      rw [hy] at hresult
      grind
  · rw [if_pos (by omega)] at hresult
    simp [hresult, hrange, hz, Int.not_lt.mp hz]

/-- The greatest odd index that is not rounded. -/
theorem root_exact_of_large :
    let x := Value.int (-8)
    let z : ℤ := 2 ^ 53 - 1
    (∃ v, x.toReal = .ok v) ∧ (∃ w, (Value.int z).toReal = .ok w) ∧
      ∃ y, root.apply .degrees [x, .int z] = .ok (.real y) := by
  intro x z
  have hv : x.toReal = .ok (.ofInt (-8)) := by decide +kernel
  have hw : (Value.int z).toReal = .ok (.ofInt z) := by decide +kernel
  have hreal := (root_exact (.int (-8)) hv hw .degrees).2.2.2.1
  exact ⟨⟨_, hv⟩, ⟨_, hw⟩,
    hreal (by decide) (by decide) (by norm_num) (by decide) (by decide)⟩

/-- An index below every number of 64 bits is not positive, but it is refused for its size; so is
one above them, though it is positive. -/
theorem root_of_far_index :
    let x := Value.int 8
    let low : ℤ := -10 ^ 19
    let high : ℤ := 10 ^ 19
    (∃ v, x.toReal = .ok v) ∧ (∃ w, (Value.int low).toReal = .ok w) ∧
      (∃ w, (Value.int high).toReal = .ok w) ∧
      ¬ (root.apply .degrees [x, .int low] = .error .invalidRoot ↔ low ≤ 0) ∧
      ¬ ∃ y, root.apply .degrees [x, .int high] = .ok (.real y) := by
  intro x low high
  have hx : x.toReal = .ok (.ofInt 8) := by decide +kernel
  have hlow : (Value.int low).toReal = .ok (.ofInt low) := by decide +kernel
  have hhigh : (Value.int high).toReal = .ok (.ofInt high) := by decide +kernel
  have hfar : ∀ z ∈ [low, high], root.apply .degrees [x, .int z] =
      .error (.invalidExpression .rootIndexOutOfRange) := by
    decide +kernel
  refine ⟨⟨_, hx⟩, ⟨_, hlow⟩, ⟨_, hhigh⟩, ?_, ?_⟩
  · rw [hfar low (by simp)]
    exact fun h => nomatch h.mpr (by decide)
  · rw [hfar high (by simp)]
    rintro ⟨y, hy⟩
    cases hy

end Builtin

end SciCalc
