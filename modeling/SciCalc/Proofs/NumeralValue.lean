import SciCalc.Proofs.BitLength

/-! # A numeral is read for its value

`Decimal.Numeral.toBinary64` looks at the coefficient and at the exponent of a numeral on the way:
it answers far out of range at once.  These answers are the ones that the one rounding of the exact
quotient gives (`toBinary64_eq_ofRatio`), so numerals of the same rational value are read alike
(`toBinary64_of_toRat`).  In particular the shortest numeral of a magnitude reads as that magnitude,
also where no numeral of seventeen digits would do and the exact one is taken (`readsAs_shortest`).
-/
namespace SciCalc

/-! ## Rounding a quotient -/

theorem divHalfEven_mul_left {k : Nat} (hk : 0 < k) (num den : Nat) :
    divHalfEven (k * num) (k * den) = divHalfEven num den := by
  have hlt : k * den < 2 * (k * (num % den)) ↔ den < 2 * (num % den) := by
    rw [Nat.mul_left_comm]
    exact Nat.mul_lt_mul_left hk
  have heq : 2 * (k * (num % den)) = k * den ↔ 2 * (num % den) = den := by
    rw [Nat.mul_left_comm]
    exact Nat.mul_right_inj hk.ne'
  simp only [divHalfEven, Nat.mul_div_mul_left _ _ hk, Nat.mul_mod_mul_left, hlt, heq]

theorem nearestRank_mul_left {k : Nat} (hk : 0 < k) (num den : Nat) :
    nearestRank (k * num) (k * den) = nearestRank num den := by
  simp only [nearestRank, Nat.mul_div_mul_left _ _ hk, Nat.mul_assoc, divHalfEven_mul_left hk]

/-- Equal quotients have the same nearest rank. -/
theorem nearestRank_congr {a b c d : Nat} (hb : 0 < b) (hd : 0 < d) (h : a * d = c * b) :
    nearestRank a b = nearestRank c d :=
  calc nearestRank a b = nearestRank (d * a) (d * b) := (nearestRank_mul_left hd a b).symm
    _ = nearestRank (b * c) (b * d) := by
      rw [Nat.mul_comm d a, h, Nat.mul_comm c b, Nat.mul_comm d b]
    _ = nearestRank c d := nearestRank_mul_left hb c d

/-- A quotient beyond a power of two is ranked beyond the binades below that power. -/
theorem le_nearestRank {num den k : Nat} (h : twoTo (52 + k) ≤ num / den) :
    (k + 1) * binade ≤ nearestRank num den := by
  have hne : num / den ≠ 0 := (Nat.lt_of_lt_of_le (twoTo_pos _) h).ne'
  have hlog : 52 + k ≤ (num / den).log2 := (le_log2_iff hne).mpr h
  obtain ⟨shift, hshift⟩ := Nat.exists_eq_add_of_le (Nat.le_of_add_right_le hlog)
  have hquotient : binade ≤ num / (den * twoTo shift) := by
    rw [← Nat.div_div_eq_div_mul, Nat.le_div_iff_mul_le (twoTo_pos shift)]
    have hbinade : binade * twoTo shift = twoTo (52 + shift) := (twoTo_add 52 shift).symm
    rw [hbinade, ← hshift]
    exact (le_log2_iff hne).mp (Nat.le_refl _)
  have hround : num / (den * twoTo shift) ≤ divHalfEven num (den * twoTo shift) := by
    rcases divHalfEven_eq_or num (den * twoTo shift) with he | he
    · exact he.ge
    · exact he ▸ Nat.le_succ _
  have hmore : k * binade ≤ shift * binade := Nat.mul_le_mul_right _ (by omega)
  have hrank : nearestRank num den = divHalfEven num (den * twoTo shift) + shift * binade := by
    simp only [nearestRank, hshift, Nat.add_sub_cancel_left]
  rw [hrank, Nat.succ_mul]
  omega

/-- Less than half a unit is ranked zero. -/
theorem nearestRank_eq_zero {num den : Nat} (h : 2 * num < den) : nearestRank num den = 0 := by
  have hlt : num < den := by omega
  have hround : divHalfEven num den = 0 := by
    have hup : ¬ (den < 2 * num ∨ 2 * num = den ∧ 0 % 2 = 1) := by omega
    simp only [divHalfEven, Nat.div_eq_of_lt hlt, Nat.mod_eq_of_lt hlt, if_neg hup]
  have hlog : Nat.log2 0 - 52 = 0 := rfl
  simp only [nearestRank, Nat.div_eq_of_lt hlt, hlog, twoTo_zero, Nat.mul_one, hround, Nat.zero_mul]

namespace Binary64

/-- Equal quotients round to the same number. -/
theorem ofRatio_congr (s : Bool) {a b c d : Nat} (hb : 0 < b) (hd : 0 < d) (h : a * d = c * b) :
    ofRatio s a b = ofRatio s c d := by
  have hunits : a * unitsPerOne * d = c * unitsPerOne * b := by
    rw [Nat.mul_right_comm, h, Nat.mul_right_comm]
  rw [ofRatio, ofRatio, ofUnits, ofUnits, nearestRank_congr hb hd hunits]

theorem ofRatio_units (s : Bool) (m : Magnitude) : ofRatio s m.units unitsPerOne = finite s m := by
  rw [ofRatio, ofUnits, nearestRank_congr unitsPerOne_pos Nat.one_pos (Nat.mul_one _),
    ← ofUnits, ofUnits_units]

theorem ofRatio_eq_infinity (s : Bool) {n : Nat} (h : twoTo 1024 ≤ n) :
    ofRatio s n 1 = infinity s := by
  have hunits : twoTo (52 + 2046) ≤ n * unitsPerOne / 1 := by
    have hplaces : 52 + 2046 = 1024 + unitPlaces := rfl
    have hone : unitsPerOne = twoTo unitPlaces := rfl
    rw [Nat.div_one, hplaces, twoTo_add, ← hone]
    exact Nat.mul_le_mul_right unitsPerOne h
  exact dif_neg (Nat.not_lt.mpr (le_nearestRank hunits))

theorem ofRatio_eq_zero (s : Bool) {num den : Nat} (h : 2 * (num * unitsPerOne) < den) :
    ofRatio s num den = zero s := by
  rw [ofRatio, ofUnits, nearestRank_eq_zero h]
  rfl

end Binary64

/-! ## The value of a numeral -/

namespace Decimal
open Binary64 (ofRatio)

/-- A power of ten is beyond any power of two with an exponent up to three times its own. -/
theorem twoTo_le_tenTo_of_le {m n : Nat} (h : m ≤ 3 * n) : twoTo m ≤ tenTo n := by
  have hcube : twoTo (3 * n) = 8 ^ n := Nat.pow_mul 2 3 n
  calc twoTo m ≤ twoTo (3 * n) := Nat.pow_le_pow_right Nat.two_pos h
    _ = 8 ^ n := hcube
    _ ≤ tenTo n := Nat.pow_le_pow_left (by decide) n

theorem scaleByTen_den_pos {d : Nat} (hd : 0 < d) (n : Nat) (e : Int) :
    0 < (scaleByTen n d e).2 := by
  cases e with
  | ofNat e => exact hd
  | negSucc e => exact Nat.mul_pos hd (tenTo_pos _)

theorem cast_tenTo (n : Nat) : (tenTo n : ℚ) = 10 ^ n :=
  Nat.cast_pow 10 n

theorem scaleByTen_toRat (n d : Nat) (e : Int) :
    ((scaleByTen n d e).1 : ℚ) / (scaleByTen n d e).2 = n / d * 10 ^ e := by
  cases e with
  | ofNat e =>
    rw [scaleByTen, Int.ofNat_eq_natCast, zpow_natCast, Nat.cast_mul, cast_tenTo,
      mul_div_right_comm]
  | negSucc e =>
    rw [scaleByTen, zpow_negSucc, Nat.cast_mul, cast_tenTo, ← div_div, div_eq_mul_inv]

namespace Numeral

/-- The number that a numeral stands for. -/
def toRat (d : Numeral) : ℚ :=
  d.coefficient * 10 ^ d.exponent

/-- A power of ten beyond the far exponent is out of range. -/
theorem ofRatio_of_far (s : Bool) {c e : Nat} (hc : c ≠ 0) (he : farExponent < e) :
    ofRatio s (c * tenTo e) 1 = .infinity s := by
  refine Binary64.ofRatio_eq_infinity s ?_
  have hbits : 1024 ≤ 3 * e := by
    rw [farExponent] at he
    omega
  exact (twoTo_le_tenTo_of_le hbits).trans (Nat.le_mul_of_pos_left _ (Nat.pos_of_ne_zero hc))

/-- What has too many zeros in front of its digits is less than half a unit. -/
theorem ofRatio_of_tiny (s : Bool) {c e : Nat} (he : farExponent + bitLength c < e) :
    ofRatio s c (tenTo e) = .zero s := by
  refine Binary64.ofRatio_eq_zero s ?_
  have hbits : bitLength c + unitPlaces + 1 ≤ 3 * e := by
    rw [farExponent] at he
    rw [unitPlaces]
    omega
  have hc : c < twoTo (bitLength c) := lt_two_pow_bitLength c
  calc 2 * (c * unitsPerOne) < 2 * (twoTo (bitLength c) * unitsPerOne) :=
        Nat.mul_lt_mul_of_pos_left (Nat.mul_lt_mul_of_pos_right hc unitsPerOne_pos) Nat.two_pos
    _ = twoTo (bitLength c + unitPlaces + 1) := by
        rw [twoTo_succ, twoTo_add, Nat.mul_comm 2]
        rfl
    _ ≤ tenTo e := twoTo_le_tenTo_of_le hbits

/-- The answers that are given at once are those of the rounding. -/
theorem toBinary64_eq_ofRatio (s : Bool) (d : Numeral) :
    d.toBinary64 s = ofRatio s (scaleByTen d.coefficient 1 d.exponent).1
      (scaleByTen d.coefficient 1 d.exponent).2 := by
  obtain ⟨c, e⟩ := d
  by_cases hc : c = 0
  · subst hc
    have hpos := scaleByTen_den_pos Nat.one_pos 0 e
    have hnum : (scaleByTen 0 1 e).1 = 0 := by
      cases e with
      | ofNat e => exact Nat.zero_mul _
      | negSucc e => rfl
    rw [toBinary64, if_pos rfl, hnum, Binary64.ofRatio_eq_zero s]
    rwa [Nat.zero_mul]
  rw [toBinary64, if_neg hc]
  dsimp only
  cases e with
  | ofNat e =>
    have hguard : (farExponent : Int) < Int.ofNat e ↔ farExponent < e := Int.ofNat_lt
    by_cases hfar : farExponent < e
    · rw [if_pos (hguard.mpr hfar)]
      exact (ofRatio_of_far s hc hfar).symm
    · have hnonneg : ¬ Int.ofNat e < -((farExponent + bitLength c : Nat) : Int) := by
        rw [Int.ofNat_eq_natCast]
        omega
      rw [if_neg (mt hguard.mp hfar), if_neg hnonneg]
  | negSucc e =>
    rw [if_neg (by omega)]
    by_cases htiny : farExponent + bitLength c < e + 1
    · rw [if_pos (by omega), scaleByTen, Nat.one_mul, ofRatio_of_tiny s htiny]
    · rw [if_neg (by omega)]

/-- A numeral that is a quotient of naturals is read as the number nearest to this quotient. -/
theorem toBinary64_of_toRat (s : Bool) {d : Numeral} {a b : Nat} (hb : 0 < b)
    (h : d.toRat = a / b) : d.toBinary64 s = ofRatio s a b := by
  have hpos := scaleByTen_den_pos Nat.one_pos d.coefficient d.exponent
  have hvalue := scaleByTen_toRat d.coefficient 1 d.exponent
  rw [Nat.cast_one, div_one, ← toRat, h, div_eq_div_iff (by positivity) (by positivity)] at hvalue
  rw [toBinary64_eq_ofRatio]
  exact Binary64.ofRatio_congr s hpos hb (by exact_mod_cast hvalue)

/-- **The value alone decides** what a numeral is read as. -/
theorem toBinary64_congr (s : Bool) {d d' : Numeral} (h : d.toRat = d'.toRat) :
    d.toBinary64 s = d'.toBinary64 s := by
  have hpos := scaleByTen_den_pos Nat.one_pos d'.coefficient d'.exponent
  have hvalue := scaleByTen_toRat d'.coefficient 1 d'.exponent
  rw [Nat.cast_one, div_one, ← toRat, ← h] at hvalue
  rw [toBinary64_of_toRat s hpos hvalue.symm, toBinary64_eq_ofRatio]

end Numeral

/-! ## The numeral of a magnitude -/

/-- As many decimals as binary places are enough. -/
theorem toRat_of_binaryPlaces (n places : Nat) :
    Numeral.toRat ⟨n * tenTo places / twoTo places, -(places : Int)⟩ = (n : ℚ) / twoTo places := by
  have hfives : n * tenTo places / twoTo places = n * 5 ^ places := by
    have htens : tenTo places = 5 ^ places * twoTo places := Nat.mul_pow 5 2 places
    rw [htens, ← Nat.mul_assoc, Nat.mul_div_cancel _ (twoTo_pos places)]
  have htwos : (twoTo places : ℚ) = 2 ^ places := Nat.cast_pow 2 places
  have hten : (10 : ℚ) ^ places = 5 ^ places * 2 ^ places := by rw [← mul_pow]; norm_num
  rw [Numeral.toRat, hfives, htwos, zpow_neg, zpow_natCast, hten]
  push_cast
  field_simp

/-- A numeral that is found reads as the magnitude, and the exact one does anyway. -/
theorem readsAs_shortest (m : Magnitude) : readsAs m (shortest m) = true := by
  rw [shortest]
  cases hfound : (List.range maxDigits).findSome? fun k =>
      (neighbours m (k + 1)).find? (readsAs m) with
  | some d =>
    obtain ⟨k, -, hk⟩ := List.exists_of_findSome?_eq_some hfound
    exact List.find?_some hk
  | none =>
    have hvalue : (exactNumeral m).toRat = (m.units : ℚ) / unitsPerOne :=
      toRat_of_binaryPlaces m.units unitPlaces
    rw [Option.getD_none, readsAs, Numeral.toBinary64_of_toRat false unitsPerOne_pos hvalue,
      Binary64.ofRatio_units, beq_self_eq_true]

/-- The shortest numeral of a magnitude reads as the magnitude. -/
theorem toBinary64_shortest (m : Magnitude) : (shortest m).toBinary64 false = .finite false m :=
  eq_of_beq (readsAs_shortest m)

end Decimal
end SciCalc
