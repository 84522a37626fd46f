import SciCalc.Proofs.NumeralValue

/-! # Correct rounding

A scale is an increasing row of points: the whole numbers, the multiples of a power of ten, or the
numbers of a floating-point format.  To round a number to a scale is to take the point nearest to
it, and of two equally near ones the one with the even index (`IsNearest`).  There is only one such
point (`IsNearest.unique`).

The magnitudes of the format in increasing order are such a scale, and it goes on beyond the
greatest of them with binade after binade of the same kind (`unitsOfRank`).  A quotient is rounded
to its nearest point on this scale (`isNearest_nearestRank`); what is nearest beyond the finite
magnitudes is infinite.  This is what it means for a number to be correctly rounded
(`Binary64.IsRounded`), and every numeral is read as the correctly rounded number
(`Decimal.Numeral.isRounded_toBinary64`).
-/
namespace SciCalc

/-! ## The nearest point of a scale

On the scale of whole numbers, and with it on the multiples of any step, `divHalfEven` finds the
nearest point (`isNearest_divHalfEven`, `IsNearest.mul`).
-/

/-- Of all points, the one with index `i` is nearest to `q`; of two equally near ones, it is the one
with the even index. -/
structure IsNearest (point : ℕ → ℚ) (q : ℚ) (i : ℕ) : Prop where
  nearest : ∀ j, |q - point i| ≤ |q - point j|
  even_of_tie : ∀ j, j ≠ i → |q - point j| = |q - point i| → Even i

/-- The lower of two numbers is the nearer one on the lower side of their middle. -/
theorem distance_le_iff {a b : ℚ} (h : a < b) (q : ℚ) :
    |q - a| ≤ |q - b| ↔ 2 * q ≤ a + b := by
  have hdiff : (q - b) ^ 2 - (q - a) ^ 2 = (b - a) * (a + b - 2 * q) := by ring
  rw [← sq_le_sq, ← sub_nonneg, hdiff, mul_nonneg_iff_of_pos_left (sub_pos.mpr h), sub_nonneg]

/-- The upper of two numbers is the nearer one on the upper side of their middle. -/
theorem distance_ge_iff {a b : ℚ} (h : a < b) (q : ℚ) :
    |q - b| ≤ |q - a| ↔ a + b ≤ 2 * q := by
  have hdiff : (q - a) ^ 2 - (q - b) ^ 2 = (b - a) * (2 * q - (a + b)) := by ring
  rw [← sq_le_sq, ← sub_nonneg, hdiff, mul_nonneg_iff_of_pos_left (sub_pos.mpr h), sub_nonneg]

namespace IsNearest
variable {point : ℕ → ℚ} {q step : ℚ} {i j : ℕ}

/-- Two points with an index between theirs are not both nearest. -/
theorem le_succ (hpoint : StrictMono point) (h : IsNearest point q i) (h' : IsNearest point q j) :
    j ≤ i + 1 := by
  by_contra hgap
  have hbelow : point i < point (i + 1) := hpoint (Nat.lt_succ_self i)
  have habove : point (i + 1) < point j := hpoint (by omega)
  have hup := (distance_ge_iff (hbelow.trans habove) q).mp (h'.nearest i)
  have hdown := (distance_le_iff hbelow q).mp (h.nearest (i + 1))
  linarith

theorem not_succ (h : IsNearest point q i) (h' : IsNearest point q (i + 1)) : False := by
  -- Both are equally near, but neighbours do not both have an even index.
  have htie : |q - point (i + 1)| = |q - point i| := le_antisymm (h'.nearest i) (h.nearest (i + 1))
  have hi : Even i := h.even_of_tie (i + 1) (Nat.succ_ne_self i) htie
  have hnext : Even (i + 1) := h'.even_of_tie i (Nat.succ_ne_self i).symm htie.symm
  rw [Nat.even_iff] at hi hnext
  omega

/-- **A number is rounded in one way only.** -/
theorem unique (hpoint : StrictMono point) (h : IsNearest point q i) (h' : IsNearest point q j) :
    i = j := by
  have hi := h.le_succ hpoint h'
  have hj := h'.le_succ hpoint h
  rcases Nat.lt_trichotomy i j with hlt | heq | hlt
  · obtain rfl : j = i + 1 := by omega
    exact (h.not_succ h').elim
  · exact heq
  · obtain rfl : i = j + 1 := by omega
    exact (h'.not_succ h).elim

/-- No point up to the number is above the nearest one. -/
theorem le_of_point_le (hpoint : StrictMono point) (h : IsNearest point q i) (hj : point j ≤ q) :
    j ≤ i := by
  by_contra hlt
  have hbelow : point i < point j := hpoint (Nat.lt_of_not_le hlt)
  have hnear := (distance_le_iff hbelow q).mp (h.nearest j)
  linarith

/-- No point from the number on is below the nearest one. -/
theorem le_of_le_point (hpoint : StrictMono point) (h : IsNearest point q i) (hj : q ≤ point j) :
    i ≤ j := by
  by_contra hlt
  have habove : point j < point i := hpoint (Nat.lt_of_not_le hlt)
  have hnear := (distance_ge_iff habove q).mp (h.nearest j)
  linarith

/-- What is nearest stays nearest in other units. -/
theorem mul (hstep : 0 < step) (h : IsNearest point q i) :
    IsNearest (fun n => point n * step) (q * step) i := by
  have hdistance : ∀ n, |q * step - point n * step| = |q - point n| * step := by
    intro n
    rw [← sub_mul, abs_mul, abs_of_pos hstep]
  constructor
  · intro j
    rw [hdistance, hdistance]
    exact mul_le_mul_of_nonneg_right (h.nearest j) hstep.le
  · intro j hj htie
    rw [hdistance, hdistance] at htie
    exact h.even_of_tie j hj (mul_right_cancel₀ hstep.ne' htie)

end IsNearest

/-- A whole number at most half a unit away is nearest, if it is even or less far away. -/
theorem isNearest_of_half_unit {q : ℚ} {n : ℕ} (hnear : 2 * |q - n| ≤ 1)
    (heven : 2 * |q - n| = 1 → Even n) : IsNearest Nat.cast q n := by
  have hapart : ∀ j : ℕ, j ≠ n → 1 ≤ |q - n| + |q - j| := by
    intro j hj
    have hone : (1 : ℚ) ≤ |(j : ℚ) - n| := by
      have hne : (j : ℤ) - n ≠ 0 := by omega
      exact_mod_cast Int.one_le_abs hne
    have htriangle : |(j : ℚ) - n| ≤ |q - n| + |q - j| := by
      have hsplit : (j : ℚ) - n = (q - n) - (q - j) := by ring
      rw [hsplit]
      exact abs_sub _ _
    linarith
  constructor
  · intro j
    rcases eq_or_ne j n with rfl | hj
    · exact le_refl _
    · linarith [hapart j hj]
  · intro j hj htie
    exact heven (le_antisymm hnear (by linarith [hapart j hj]))

/-- A positive whole number that is nearest is at most half a unit away, and even if it is as much
as that. -/
theorem IsNearest.half_unit {q : ℚ} {n : ℕ} (hn : 0 < n) (h : IsNearest Nat.cast q n) :
    2 * |q - n| ≤ 1 ∧ (2 * |q - n| = 1 → Even n) := by
  have hbelow : ((n - 1 : ℕ) : ℚ) < n := Nat.cast_lt.mpr (by omega)
  have habove : (n : ℚ) < (n + 1 : ℕ) := Nat.cast_lt.mpr (by omega)
  have hlow := (distance_ge_iff hbelow q).mp (h.nearest _)
  have hhigh := (distance_le_iff habove q).mp (h.nearest _)
  rw [Nat.cast_pred hn] at hlow
  rw [Nat.cast_succ] at hhigh
  constructor
  · have hclose : |q - n| ≤ 1 / 2 := abs_le.mpr ⟨by linarith, by linarith⟩
    linarith
  · intro htie
    have hhalf : |q - n| = 1 / 2 := by linarith
    rcases (abs_eq one_half_pos.le).mp hhalf with hup | hdown
    · refine h.even_of_tie (n + 1) (Nat.succ_ne_self n) ?_
      have hother : q - (n + 1 : ℕ) = -(1 / 2) := by push_cast; linarith
      rw [hother, abs_neg, hup]
    · refine h.even_of_tie (n - 1) (by omega) ?_
      have hother : q - (n - 1 : ℕ) = 1 / 2 := by rw [Nat.cast_pred hn]; linarith
      rw [hother, hdown, abs_neg]

theorem IsNearest.distance_le {q : ℚ} {n : ℕ} (hn : 0 < n) (h : IsNearest Nat.cast q n) :
    |q - n| ≤ 1 / 2 := by
  linarith [(h.half_unit hn).1]

/-- What is no farther away from a positive whole number than a number that is rounded to it is
rounded to it too. -/
theorem IsNearest.of_closer {q q' : ℚ} {n : ℕ} (hn : 0 < n) (h : IsNearest Nat.cast q n)
    (hcloser : |q' - n| ≤ |q - n|) : IsNearest Nat.cast q' n := by
  obtain ⟨hhalf, heven⟩ := h.half_unit hn
  refine isNearest_of_half_unit (by linarith) fun htie => heven ?_
  exact le_antisymm hhalf (by linarith)

/-- **The rounded quotient is the nearest whole number.** -/
theorem isNearest_divHalfEven (num : ℕ) {den : ℕ} (h : 0 < den) :
    IsNearest Nat.cast ((num : ℚ) / den) (divHalfEven num den) := by
  obtain ⟨hlow, hhigh⟩ := divHalfEven_near num h
  have heven := divHalfEven_even num h
  generalize divHalfEven num den = n at *
  have hden : (0 : ℚ) < den := Nat.cast_pos.mpr h
  have hlow' : (2 * num : ℚ) ≤ (2 * n + 1) * den := by exact_mod_cast hlow
  have hhigh' : (2 * n * den : ℚ) ≤ 2 * num + den := by exact_mod_cast hhigh
  have hdistance : 2 * |(num : ℚ) / den - n| * den = |(2 * num - 2 * n * den : ℚ)| := by
    have hsplit : (2 * num - 2 * n * den : ℚ) = 2 * (num / den - n) * den := by
      field_simp
    rw [hsplit, abs_mul, abs_mul, abs_of_pos hden, abs_two]
  apply isNearest_of_half_unit
  · have hle : |(2 * num - 2 * n * den : ℚ)| ≤ 1 * den := abs_le.mpr ⟨by linarith, by linarith⟩
    exact le_of_mul_le_mul_right (hdistance ▸ hle) hden
  · intro htie
    rw [htie, one_mul] at hdistance
    rw [Nat.even_iff]
    refine heven ?_
    rcases (abs_eq hden.le).mp hdistance.symm with heq | heq
    · right
      have hsum : (2 * n * den + den : ℚ) = 2 * num := by linarith
      exact_mod_cast hsum
    · left
      have hsum : (2 * n * den : ℚ) = 2 * num + den := by linarith
      exact_mod_cast hsum

theorem le_divHalfEven {num den c : ℕ} (hden : 0 < den) (h : c * den ≤ num) :
    c ≤ divHalfEven num den := by
  refine (isNearest_divHalfEven num hden).le_of_point_le Nat.strictMono_cast ?_
  rw [le_div_iff₀ (Nat.cast_pos.mpr hden)]
  exact_mod_cast h

theorem divHalfEven_le {num den c : ℕ} (hden : 0 < den) (h : num ≤ c * den) :
    divHalfEven num den ≤ c := by
  refine (isNearest_divHalfEven num hden).le_of_le_point Nat.strictMono_cast ?_
  rw [div_le_iff₀ (Nat.cast_pos.mpr hden)]
  exact_mod_cast h

/-! ## The numbers of the format -/

/-! ### The scale of the ranks -/

/-- The units of a rank, counted on beyond the finite magnitudes. -/
def unitsOfRank (rank : ℕ) : ℕ :=
  let shift := rank / binade - 1
  (rank - shift * binade) * twoTo shift

theorem Magnitude.units_eq (m : Magnitude) : m.units = unitsOfRank m.rank := rfl

theorem binade_pos : 0 < binade := by decide

/-- A whole significand, shifted, is a rank of its own; one that is twice the least belongs to the
next shift. -/
theorem unitsOfRank_add {n shift : ℕ} (hlow : shift ≠ 0 → binade ≤ n) (hhigh : n ≤ 2 * binade) :
    unitsOfRank (n + shift * binade) = n * twoTo shift := by
  rcases hhigh.lt_or_eq with hlt | rfl
  · have hshift : (n + shift * binade) / binade - 1 = shift := by
      rw [Nat.add_mul_div_right _ _ binade_pos]
      rcases Nat.eq_zero_or_pos shift with rfl | hpos
      · have hsmall : n / binade < 2 := Nat.div_lt_of_lt_mul (Nat.mul_comm 2 _ ▸ hlt)
        omega
      · have hone : n / binade = 1 :=
          Nat.div_eq_of_lt_le (by simpa using hlow hpos.ne') (by simpa using hlt)
        omega
    rw [unitsOfRank, hshift, Nat.add_sub_cancel]
  · have hrank : 2 * binade + shift * binade = (shift + 2) * binade := by ring
    have hrest : (shift + 2) * binade - (shift + 1) * binade = binade := by
      rw [← Nat.sub_mul, Nat.add_sub_add_left, Nat.one_mul]
    rw [unitsOfRank, hrank, Nat.mul_div_cancel _ binade_pos]
    show ((shift + 2) * binade - (shift + 1) * binade) * twoTo (shift + 1) = _
    rw [hrest, twoTo_succ]
    ring

/-- Every rank is a significand with a shift. -/
theorem exists_shift (rank : ℕ) : ∃ n shift, rank = n + shift * binade ∧
    (shift ≠ 0 → binade ≤ n) ∧ n < 2 * binade ∧ shift = rank / binade - 1 := by
  have hdiv := Nat.div_add_mod rank binade
  have hmod := Nat.mod_lt rank binade_pos
  refine ⟨rank - (rank / binade - 1) * binade, rank / binade - 1, ?_, ?_, ?_, rfl⟩
  all_goals
    simp only [binade] at *
    omega

theorem unitsOfRank_strictMono : StrictMono unitsOfRank := by
  refine strictMono_nat_of_lt_succ fun rank => ?_
  obtain ⟨n, shift, rfl, hlow, hhigh, -⟩ := exists_shift rank
  have hnext : n + shift * binade + 1 = (n + 1) + shift * binade := by ring
  rw [hnext, unitsOfRank_add hlow hhigh.le,
    unitsOfRank_add (fun h => (hlow h).trans (Nat.le_succ n)) hhigh]
  exact Nat.mul_lt_mul_of_pos_right (Nat.lt_succ_self n) (twoTo_pos shift)

/-- From the ranks of a shift on, all units are multiples of that power of two. -/
theorem twoTo_dvd_unitsOfRank {rank shift : ℕ} (h : (shift + 1) * binade ≤ rank ∨ shift = 0) :
    twoTo shift ∣ unitsOfRank rank := by
  rcases h with h | rfl
  · have hle : shift ≤ rank / binade - 1 :=
      Nat.le_sub_one_of_lt ((Nat.le_div_iff_mul_le binade_pos).mpr h)
    exact Dvd.dvd.mul_left (Nat.pow_dvd_pow 2 hle) _
  · exact one_dvd _

/-! ### Rounding to a rank -/

/-- The shift of the binade that a quotient is rounded in. -/
def roundingShift (num den : ℕ) : ℕ :=
  (num / den).log2 - 52

theorem nearestRank_eq (num den : ℕ) : nearestRank num den =
    divHalfEven num (den * twoTo (roundingShift num den)) + roundingShift num den * binade := rfl

variable {num den : ℕ}

/-- A quotient with a shift is at least the least number of the binade. -/
theorem twoTo_le_of_roundingShift (h : roundingShift num den ≠ 0) :
    twoTo (52 + roundingShift num den) ≤ num / den := by
  have hlog : 52 + roundingShift num den = (num / den).log2 := by
    rw [roundingShift] at *
    omega
  have hne : num / den ≠ 0 := by
    intro hzero
    rw [hzero] at hlog
    have hnone : Nat.log2 0 = 0 := rfl
    omega
  exact hlog ▸ (le_log2_iff hne).mp (Nat.le_refl _)

theorem binade_le_divHalfEven (h : roundingShift num den ≠ 0) :
    binade ≤ divHalfEven num (den * twoTo (roundingShift num den)) := by
  have hrank := le_nearestRank (twoTo_le_of_roundingShift h)
  rw [nearestRank_eq, Nat.succ_mul] at hrank
  omega

theorem divHalfEven_le_two_mul_binade :
    divHalfEven num (den * twoTo (roundingShift num den)) ≤ 2 * binade := by
  have hquotient : num / (den * twoTo (roundingShift num den)) < 2 * binade := by
    have hpow : num / den < twoTo (53 + roundingShift num den) := by
      refine (lt_twoTo_log2 _).trans_le (Nat.pow_le_pow_right Nat.two_pos ?_)
      rw [roundingShift]
      omega
    have hdouble : 2 * binade = twoTo 53 := rfl
    rw [← Nat.div_div_eq_div_mul, hdouble]
    exact Nat.div_lt_of_lt_mul (by rwa [Nat.mul_comm, ← twoTo_add])
  rcases divHalfEven_eq_or num (den * twoTo (roundingShift num den)) with he | he <;> omega

/-- The rounded number is a whole number of steps of its binade. -/
theorem unitsOfRank_nearestRank (num den : ℕ) : unitsOfRank (nearestRank num den) =
    divHalfEven num (den * twoTo (roundingShift num den)) * twoTo (roundingShift num den) :=
  unitsOfRank_add binade_le_divHalfEven divHalfEven_le_two_mul_binade

/-- **Rounding finds the nearest rank.** -/
theorem isNearest_nearestRank (num : ℕ) (hden : 0 < den) :
    IsNearest (fun rank => unitsOfRank rank) ((num : ℚ) / den) (nearestRank num den) := by
  have hunits := unitsOfRank_nearestRank num den
  have hrank := nearestRank_eq num den
  have hleast : roundingShift num den ≠ 0 → twoTo (52 + roundingShift num den) ≤ num / den :=
    twoTo_le_of_roundingShift
  have hstep : (0 : ℚ) < twoTo (roundingShift num den) := Nat.cast_pos.mpr (twoTo_pos _)
  -- On the multiples of the step, the rounded quotient is the nearest one.
  have hden' : 0 < den * twoTo (roundingShift num den) := Nat.mul_pos hden (twoTo_pos _)
  have hgrid := (isNearest_divHalfEven num hden').mul hstep
  have hquotient : (num : ℚ) / (den * twoTo (roundingShift num den) : ℕ) *
      twoTo (roundingShift num den) = num / den := by
    rw [Nat.cast_mul]
    field_simp
  rw [hquotient] at hgrid
  generalize divHalfEven num (den * twoTo (roundingShift num den)) = n at *
  generalize roundingShift num den = shift at *
  have hat : (unitsOfRank (nearestRank num den) : ℚ) = n * twoTo shift := by
    rw [hunits, Nat.cast_mul]
  -- The other ranks are multiples of the step too, or farther away than the least of the binade.
  have hother : ∀ rank, (∃ j : ℕ, (unitsOfRank rank : ℚ) = j * twoTo shift) ∨
      |(num : ℚ) / den - n * twoTo shift| < |(num : ℚ) / den - unitsOfRank rank| := by
    intro rank
    by_cases hlow : (shift + 1) * binade ≤ rank ∨ shift = 0
    · obtain ⟨j, hj⟩ := twoTo_dvd_unitsOfRank hlow
      exact .inl ⟨j, by rw [hj, Nat.cast_mul, mul_comm]⟩
    · right
      obtain ⟨hlt, hshift⟩ := not_or.mp hlow
      have hbelow : unitsOfRank rank < binade * twoTo shift := by
        have hmono := unitsOfRank_strictMono (Nat.lt_of_not_le hlt)
        have hleast : (shift + 1) * binade = binade + shift * binade := by ring
        rwa [hleast, unitsOfRank_add (fun _ => Nat.le_refl _)
          (Nat.le_mul_of_pos_left _ Nat.two_pos)] at hmono
      have hquotient : (binade * twoTo shift : ℕ) * (den : ℚ) ≤ num := by
        have hle : binade * twoTo shift * den ≤ num :=
          (Nat.le_div_iff_mul_le hden).mp (twoTo_add 52 shift ▸ hleast hshift)
        exact_mod_cast hle
      have hq : ((binade * twoTo shift : ℕ) : ℚ) ≤ num / den :=
        (le_div_iff₀ (Nat.cast_pos.mpr hden)).mpr hquotient
      have hbelow' : (unitsOfRank rank : ℚ) < (binade * twoTo shift : ℕ) := by exact_mod_cast hbelow
      have hnear := hgrid.nearest binade
      rw [← Nat.cast_mul binade, abs_of_nonneg (sub_nonneg.mpr hq)] at hnear
      refine hnear.trans_lt ?_
      rw [abs_of_pos (by linarith)]
      linarith
  constructor
  · intro rank
    rw [hat]
    rcases hother rank with ⟨j, hj⟩ | hfar
    · exact hj ▸ hgrid.nearest j
    · exact hfar.le
  · intro rank hne htie
    rw [hat] at htie
    rcases hother rank with ⟨j, hj⟩ | hfar
    · have hjn : j ≠ n := by
        rintro rfl
        have hsame : unitsOfRank rank = unitsOfRank (nearestRank num den) := by
          exact_mod_cast hj.trans hat.symm
        exact hne (unitsOfRank_strictMono.injective hsame)
      have heven : Even n := hgrid.even_of_tie j hjn (hj ▸ htie)
      have hbinade : Even binade := ⟨0x8000000000000, rfl⟩
      rw [hrank]
      exact heven.add (hbinade.mul_left shift)
    · exact absurd htie hfar.ne'

/-! ### Correctly rounded numbers -/

namespace Binary64

/-- The value of a rank. -/
def rankValue (rank : ℕ) : ℚ :=
  unitsOfRank rank / unitsPerOne

theorem rankValue_strictMono : StrictMono rankValue := by
  intro a b h
  have hone : (0 : ℚ) < unitsPerOne := Nat.cast_pos.mpr unitsPerOne_pos
  exact div_lt_div_of_pos_right (Nat.cast_lt.mpr (unitsOfRank_strictMono h)) hone

/-- `x` is the correctly rounded number of size `q` with a given sign: the nearest one, of two
equally near ones that of even rank, and infinite if the nearest one is beyond the finite
numbers. -/
def IsRounded (negative : Bool) (q : ℚ) (x : Binary64) : Prop :=
  ∃ rank, IsNearest rankValue q rank ∧ x = ofRank negative rank

variable {s : Bool} {q : ℚ} {x y : Binary64}

theorem IsRounded.unique (hx : IsRounded s q x) (hy : IsRounded s q y) : x = y := by
  obtain ⟨i, hi, rfl⟩ := hx
  obtain ⟨j, hj, rfl⟩ := hy
  rw [hi.unique rankValue_strictMono hj]

/-- **The number nearest to a quotient of units is correctly rounded.** -/
theorem isRounded_ofUnits (s : Bool) (num : ℕ) {den : ℕ} (h : 0 < den) :
    IsRounded s ((num : ℚ) / den / unitsPerOne) (ofUnits s num den) := by
  have hone : (0 : ℚ) < unitsPerOne := Nat.cast_pos.mpr unitsPerOne_pos
  have hnear := (isNearest_nearestRank num h).mul (inv_pos.mpr hone)
  exact ⟨_, hnear, rfl⟩

/-- The number nearest to a quotient is correctly rounded. -/
theorem isRounded_ofRatio (s : Bool) (num : ℕ) {den : ℕ} (h : 0 < den) :
    IsRounded s ((num : ℚ) / den) (ofRatio s num den) := by
  have hone : (unitsPerOne : ℚ) ≠ 0 := Nat.cast_ne_zero.mpr unitsPerOne_pos.ne'
  have hround := isRounded_ofUnits s (num * unitsPerOne) h
  rwa [Nat.cast_mul, div_right_comm, mul_div_cancel_right₀ _ hone] at hround

end Binary64

/-- **A numeral is read as the correctly rounded number.** -/
theorem Decimal.Numeral.isRounded_toBinary64 (s : Bool) (d : Numeral) :
    Binary64.IsRounded s d.toRat (d.toBinary64 s) := by
  have hpos := scaleByTen_den_pos Nat.one_pos d.coefficient d.exponent
  have hvalue := scaleByTen_toRat d.coefficient 1 d.exponent
  rw [Nat.cast_one, div_one, ← toRat] at hvalue
  rw [toBinary64_eq_ofRatio, ← hvalue]
  exact Binary64.isRounded_ofRatio s _ hpos

end SciCalc
