import SciCalc.Proofs.FlooredRemainder
import SciCalc.Proofs.RootIndex

/-! # Where the tangent is undefined

In degrees the tangent is undefined at the odd multiples of ninety.  It is refused where the angle
as a floating-point number is within a tolerance of one of them, and for a whole number of degrees
this is so at these multiples only (`AngleMode.tanUndefined_degrees_iff`).

An exact integer is a floating-point number first.  The odd multiples of ninety are even numbers
that four does not divide.  Below `2 ^ 54` they are kept and no other integer is rounded to one;
from there on every integer is rounded to a multiple of four (`fmod_signed_roundedWhole_iff`).  So
the tangent of an integer is refused at the odd multiples of ninety below `2 ^ 54`
(`Builtin.tan_degrees_exact`), and beyond at none of them (`Builtin.tan_of_far_angle`).
-/
namespace SciCalc

/-! ## Whole angles -/

namespace Binary64
variable {x : Binary64} {i : ℤ}

theorem toInt?_abs (h : x.toInt? = some i) : ∃ m, x.abs = finite false m ∧
    m.units = i.natAbs * unitsPerOne := by
  obtain ⟨s, m, rfl, hm⟩ := exists_finite_of_toInt? h
  refine ⟨m, rfl, ?_⟩
  rw [← natAbs_signed s m.units, hm, Int.natAbs_mul, Int.natAbs_natCast]

/-- Of whole numbers, zero alone is below a tolerance of at most one. -/
theorem abs_lt_iff_of_toInt? {least : Magnitude} (hpos : 0 < least.units)
    (hle : least.units ≤ unitsPerOne) (h : x.toInt? = some i) :
    x.abs.lt (finite false least) = true ↔ i = 0 := by
  obtain ⟨m, hm, hunits⟩ := toInt?_abs h
  have hlt : (finite false m).lt (finite false least) = true ↔ m.units < least.units := by
    simp [lt, order?, signed, Magnitude.units_lt_iff]
  rw [hm, hlt, hunits]
  constructor
  · intro hless
    by_contra hne
    have hone : unitsPerOne ≤ i.natAbs * unitsPerOne :=
      Nat.le_mul_of_pos_left _ (Int.natAbs_pos.mpr hne)
    omega
  · rintro rfl
    rwa [Int.natAbs_zero, Nat.zero_mul]

end Binary64

/-- **Of whole numbers of degrees**, the tangent is undefined at the odd multiples of ninety. -/
theorem AngleMode.tanUndefined_degrees_iff {x : Binary64} {i : ℤ} (h : x.toInt? = some i) :
    degrees.tanUndefined x = true ↔ i.fmod 180 = 90 := by
  have hhalf : (Binary64.ofInt 180).toInt? = some 180 := by decide +kernel
  have hquarter : (Binary64.ofInt 90).toInt? = some 90 := by decide +kernel
  obtain ⟨least, htolerance, hpos, hle⟩ : ∃ least : Magnitude,
      tangentTolerance = .finite false least ∧ 0 < least.units ∧ least.units ≤ unitsPerOne := by
    refine ⟨⟨0x3D719799812DEA11, by decide⟩, ?_, ?_, ?_⟩ <;> decide +kernel
  have hrest := Binary64.toInt?_floorMod h hhalf (by decide) (by decide)
  have hbounds := fmod_bounds i (by decide : (180 : ℤ) ≠ 0)
  have hdistance := Binary64.toInt?_sub hrest hquarter (by rw [binade]; omega)
  rw [tanUndefined, htolerance, Binary64.abs_lt_iff_of_toInt? hpos hle hdistance, Int.sub_eq_zero]

/-! ## Integers as angles -/

section
variable {n : ℕ} {z : ℤ}

/-- From `2 ^ 54` on, whole numbers are rounded to multiples of four. -/
theorem four_dvd_roundedWhole (h : 2 ^ 54 ≤ n) : 4 ∣ roundedWhole n := by
  have hlog : 54 ≤ n.log2 := (le_log2_iff (by omega)).mpr h
  have hstep : 4 ∣ wholeStep n := Nat.pow_dvd_pow 2 (show 2 ≤ n.log2 - 52 by omega)
  exact hstep.mul_left _

/-- From `2 ^ 53` to `2 ^ 54`, even numbers are kept and odd ones are rounded to multiples of
four. -/
theorem roundedWhole_between (hlow : 2 ^ 53 ≤ n) (hhigh : n < 2 ^ 54) :
    roundedWhole n = n ∨ n % 2 = 1 ∧ 4 ∣ roundedWhole n := by
  have hstep : twoTo (53 - 52) = 2 := rfl
  have hnear := divHalfEven_near n Nat.two_pos
  have heven := divHalfEven_even n Nat.two_pos
  rw [roundedWhole_eq hlow hhigh, hstep]
  omega

/-- The odd multiples of ninety that integers are rounded to. -/
theorem fmod_signed_roundedWhole_iff (hn : n = z.natAbs ∨ 2 ^ 64 ≤ n ∧ 2 ^ 64 ≤ z.natAbs) :
    (Binary64.signed (z < 0) (roundedWhole n)).fmod 180 = 90 ↔
      z.fmod 180 = 90 ∧ |z| < 2 ^ 54 := by
  have hkept : n = z.natAbs → roundedWhole n = n →
      Binary64.signed (z < 0) (roundedWhole n) = z := by
    intro hsize hrounded
    rw [hrounded, hsize]
    exact Binary64.signed_natAbs fun _ => decide_eq_true_iff
  have hfour : 4 ∣ roundedWhole n →
      Binary64.signed (z < 0) (roundedWhole n) % 180 ≠ 90 := by
    rintro ⟨k, hk⟩
    rw [hk, Binary64.signed]
    split <;> omega
  rw [Int.fmod_eq_emod_of_nonneg _ (by decide), Int.fmod_eq_emod_of_nonneg _ (by decide),
    Int.abs_eq_natAbs]
  rcases Nat.lt_or_ge n (2 ^ 53) with hsmall | hlarge
  · rw [hkept (by omega) (roundedWhole_of_lt hsmall)]
    omega
  rcases Nat.lt_or_ge n (2 ^ 54) with hmiddle | hfar
  · rcases roundedWhole_between hlarge hmiddle with hsame | ⟨hodd, hdvd⟩
    · rw [hkept (by omega) hsame]
      omega
    · have hnever := hfour hdvd
      omega
  · have hnever := hfour (four_dvd_roundedWhole hfar)
    omega

end

namespace Builtin

theorem apply_tan {x : Value} {v : Binary64} (hv : x.toReal = .ok v) (mode : AngleMode) :
    tan.apply mode [x] = (mode.tan v).map Value.real := by
  rw [apply, hv]
  rfl

/-- **The tangent of an integer number of degrees** is refused at the odd multiples of ninety below
`2 ^ 54`.  Everywhere else it is a floating-point number. -/
theorem tan_degrees_exact {z : ℤ} {v : Binary64} (hv : (Value.int z).toReal = .ok v) :
    let result := tan.apply .degrees [.int z]
    (result = .error .domain ↔ z.fmod 180 = 90 ∧ |z| < 2 ^ 54) ∧
    (¬ (z.fmod 180 = 90 ∧ |z| < 2 ^ 54) → ∃ y, result = .ok (.real y)) := by
  intro result
  obtain ⟨m, hfinite, n, hunits, hn⟩ := Value.exists_finite_of_toReal hv
  have hwhole : v.toInt? = some (Binary64.signed (z < 0) (roundedWhole n)) := by
    rw [hfinite]
    exact Binary64.toInt?_of_units (by rw [hunits, Binary64.signed_mul])
  have hundefined : AngleMode.degrees.tanUndefined v = true ↔ z.fmod 180 = 90 ∧ |z| < 2 ^ 54 :=
    (AngleMode.tanUndefined_degrees_iff hwhole).trans (fmod_signed_roundedWhole_iff hn)
  have hresult : result = (AngleMode.degrees.tan v).map Value.real := apply_tan hv .degrees
  rw [hresult, AngleMode.tan, ← hundefined]
  by_cases hu : AngleMode.degrees.tanUndefined v = true
  · rw [if_pos hu]
    exact ⟨iff_of_true rfl hu, fun h => absurd hu h⟩
  · rw [if_neg hu]
    exact ⟨iff_of_false nofun hu, fun _ => ⟨_, rfl⟩⟩

/-- The greatest odd multiple of ninety below `2 ^ 54`, negated, and the next integer. -/
theorem tan_degrees_exact_of_large :
    let z : ℤ := -18014398509481830
    (∃ v, (Value.int z).toReal = .ok v) ∧ (∃ v, (Value.int (z + 1)).toReal = .ok v) ∧
      tan.apply .degrees [.int z] = .error .domain ∧
      ∃ y, tan.apply .degrees [.int (z + 1)] = .ok (.real y) := by
  intro z
  have hz : (Value.int z).toReal = .ok (.ofInt z) := by decide +kernel
  have hnext : (Value.int (z + 1)).toReal = .ok (.ofInt (z + 1)) := by decide +kernel
  exact ⟨⟨_, hz⟩, ⟨_, hnext⟩, (tan_degrees_exact hz).1.mpr (by decide),
    (tan_degrees_exact hnext).2 (by decide)⟩

/-- **Far from zero the tangent is not refused.**  The first odd multiple of ninety above `2 ^ 54`
is an angle of two degrees less once it is converted. -/
theorem tan_of_far_angle :
    let z : ℤ := 18014398509482010
    (∃ v, (Value.int z).toReal = .ok v) ∧
      ¬ (tan.apply .degrees [.int z] = .error .domain ↔ z.fmod 180 = 90) := by
  intro z
  have hz : (Value.int z).toReal = .ok (.ofInt (z - 2)) := by decide +kernel
  have hdefined : AngleMode.degrees.tanUndefined (.ofInt (z - 2)) = false := by decide +kernel
  have hvalue : tan.apply .degrees [.int z] =
      .ok (.real (AngleMode.degrees.toRadians (.ofInt (z - 2))).tan) := by
    rw [apply_tan hz, AngleMode.tan, hdefined]
    rfl
  refine ⟨⟨_, hz⟩, fun hclaim => ?_⟩
  have hrefused := hclaim.mpr (by decide)
  rw [hvalue] at hrefused
  cases hrefused

end Builtin
end SciCalc
