import SciCalc.Proofs.Counting
import SciCalc.Proofs.FlooredDivision
import SciCalc.Proofs.IntegerPower
import SciCalc.Proofs.Operations

/-! # How large an integer result can be

An integer that a tree evaluates to is bounded by what is written in the tree: a million bits for
each node, and four bits for each decimal digit of an integer literal.  Every operation keeps the
bound.  Sums and products have no more bits than their operands together.  Powers and factorials are
refused beyond a million bits or some thousand factors.

Permutations and combinations are bounded by the number of their factors, not by their size.  They
keep the bound as long as they count arrangements of at most `Builtin.maxFactors` things
(`bitLength_eval_le`).  Five thousand factors of six hundred bits do not (`bitLength_eval_exceeds`).
-/
namespace SciCalc
open Nat Outcome

/-- The bits of an integer; other values have none. -/
def Value.bits : Value → Nat
  | int n => bitLength n.natAbs
  | real _ => 0

/-- The decimal digits of an integer literal; other nodes have none. -/
def Expr.literalDigits : Expr → Nat
  | num (.int n) => (Decimal.digits n.natAbs).length
  | _ => 0

/-- An operation that counts arrangements counts those of at most `limit` things. -/
def Operation.CountsWithin (limit : Nat) : Operation → Prop
  | call .nPr [n, _] | call .nCr [n, _] => ∀ k, n.toInt? = some k → k ≤ limit
  | _ => True

/-! ## Results of a bounded size -/

/-- A result that is an integer has at most `bound` bits. -/
def AtMost (bound : Nat) (result : Except CalcError Value) : Prop :=
  ∀ v, result = .ok v → v.bits ≤ bound

namespace AtMost
variable {bound bound' : Nat} {result : Except CalcError Value}

theorem ok {v : Value} (h : v.bits ≤ bound) : AtMost bound (.ok v) := by
  rintro _ ⟨⟩
  exact h

theorem real (x : Binary64) : AtMost bound (.ok (.real x)) :=
  ok (Nat.zero_le bound)

theorem error (e : CalcError) : AtMost bound (.error e) := by
  rintro _ ⟨⟩

theorem mono (h : AtMost bound result) (hle : bound ≤ bound') : AtMost bound' result :=
  fun v hv => (h v hv).trans hle

theorem bind {α : Type} {first : Except CalcError α} {next : α → Except CalcError Value}
    (h : ∀ a, first = .ok a → AtMost bound (next a)) : AtMost bound (first >>= next) := by
  intro v hv
  obtain ⟨a, ha, hv⟩ := exists_of_bind hv
  exact h a ha v hv

/-- A result behind a check. -/
theorem guarded {condition : Prop} [Decidable condition] {e : CalcError}
    (h : ¬ condition → AtMost bound result) :
    AtMost bound (if condition then .error e else result) := by
  split
  · exact error e
  · rename_i hcondition
    exact h hcondition

theorem map_real {α : Type} (first : Except CalcError α) (f : α → Binary64) :
    AtMost bound (first.map fun a => .real (f a)) := by
  cases first with
  | ok a => exact real (f a)
  | error e => exact error e

end AtMost

/-! ## Operators -/

namespace Value

theorem lift_atMost {exact : Int → Int → Int} {rounded : Binary64 → Binary64 → Binary64}
    {bound : Nat → Nat → Nat}
    (h : ∀ m n, bitLength (exact m n).natAbs ≤ bound (bitLength m.natAbs) (bitLength n.natAbs))
    (x y : Value) : AtMost (bound x.bits y.bits) (lift exact rounded x y) := by
  match x, y with
  | int m, int n => exact .ok (h m n)
  | int m, .real b => exact .map_real _ _
  | .real a, y => exact .map_real _ _

theorem bitLength_add_natAbs_le (m n : Int) :
    bitLength (m + n).natAbs ≤ bitLength m.natAbs + bitLength n.natAbs :=
  (bitLength_mono (Int.natAbs_add_le m n)).trans (bitLength_add_le _ _)

theorem add_atMost (x y : Value) : AtMost (x.bits + y.bits) (add x y) :=
  lift_atMost bitLength_add_natAbs_le x y

theorem sub_atMost (x y : Value) : AtMost (x.bits + y.bits) (sub x y) := by
  refine lift_atMost (fun m n => ?_) x y
  have h := bitLength_add_natAbs_le m (-n)
  rwa [Int.natAbs_neg] at h

theorem mul_atMost (x y : Value) : AtMost (x.bits + y.bits) (mul x y) := by
  refine lift_atMost (fun m n => ?_) x y
  rw [Int.natAbs_mul]
  exact bitLength_mul_le _ _

theorem div_atMost (x y : Value) (bound : Nat) : AtMost bound (div x y) := by
  rw [div]
  exact .guarded fun _ => .map_real _ _

theorem mod_atMost (x y : Value) : AtMost (x.bits + y.bits) (mod x y) := by
  rw [mod]
  refine .guarded fun hy => ?_
  cases x with
  | real a => exact .map_real _ _
  | int m =>
    cases y with
    | real b => exact .map_real _ _
    | int n =>
      have hn : n ≠ 0 := by simpa [isZero] using hy
      have hle := bitLength_mono (Nat.le_of_lt (natAbs_fmod_lt m hn))
      rw [lift, intMod_eq_fmod]
      exact .ok (hle.trans (Nat.le_add_left _ _))

theorem realPow_atMost (x y : Binary64) (bound : Nat) : AtMost bound (realPow x y) := by
  rw [realPow]
  exact .guarded fun _ => .guarded fun _ => .guarded fun _ => .real _

theorem powOfReals_atMost (x y : Value) (bound : Nat) : AtMost bound (powOfReals x y) := by
  rw [powOfReals]
  exact .bind fun p _ => realPow_atMost _ _ bound

theorem intPow_atMost (x : Int) (n : Nat) : AtMost powerBits (intPow x n) := by
  rw [intPow_eq]
  split
  · rename_i hwithin
    exact .ok (bitLength_pow_le_powerBits hwithin)
  · exact .error _

theorem pow_atMost (x y : Value) : AtMost powerBits (pow x y) := by
  unfold pow
  split
  · exact intPow_atMost _ _
  · exact .guarded fun _ => powOfReals_atMost _ _ _
  · exact powOfReals_atMost _ _ _

end Value

/-- An operator makes no more bits than its operands have together, and a power at most a million.
-/
theorem BinOp.apply_atMost (o : BinOp) (x y : Value) :
    AtMost (max (x.bits + y.bits) Value.powerBits) (o.apply x y) := by
  cases o with
  | add => exact (Value.add_atMost x y).mono (Nat.le_max_left _ _)
  | sub => exact (Value.sub_atMost x y).mono (Nat.le_max_left _ _)
  | mul => exact (Value.mul_atMost x y).mono (Nat.le_max_left _ _)
  | div => exact Value.div_atMost x y _
  | mod => exact (Value.mod_atMost x y).mono (Nat.le_max_left _ _)
  | pow => exact (Value.pow_atMost x y).mono (Nat.le_max_right _ _)

/-! ## Functions -/

namespace Builtin

/-- The whole numbers among the floating-point numbers have few bits. -/
theorem bitLength_of_toInt? {x : Binary64} {n : Int} (h : x.toInt? = some n) :
    bitLength n.natAbs ≤ Value.powerBits := by
  match x with
  | .nan | .infinity _ => cases h
  | .finite s m =>
    rw [Binary64.toInt?] at h
    split at h
    · cases h
      rw [Binary64.natAbs_signed]
      have hshift : m.shift ≤ 2045 := by
        have hrank : m.rank < binade * 2047 := Nat.mul_comm 2047 binade ▸ m.rank_lt
        have := Nat.div_lt_of_lt_mul hrank
        rw [Magnitude.shift]
        omega
      have hbits : bitLength (m.units / unitsPerOne) ≤ 53 + m.shift := by
        rw [bitLength_le_iff, pow_add]
        calc m.units / unitsPerOne ≤ m.units := Nat.div_le_self _ _
          _ < 2 * binade * 2 ^ m.shift :=
            Nat.mul_lt_mul_of_pos_right m.significand_lt (Nat.two_pow_pos _)
          _ = 2 ^ 53 * 2 ^ m.shift := rfl
      rw [Value.powerBits]
      omega
    · cases h

theorem roundWhole_atMost (x : Value) : AtMost (x.bits + Value.powerBits) (roundWhole x) := by
  match x with
  | .int n => exact .ok (Nat.le_add_right _ _)
  | .real x =>
    rw [roundWhole]
    split
    · rename_i n hn
      exact .ok ((bitLength_of_toInt? hn).trans (Nat.le_add_left _ _))
    · exact .error _

/-- The nearest multiple of a power of ten is at most twice as large: from half the power on it is
the power itself or more. -/
theorem natAbs_roundToTens_le (n : Int) (k : Nat) : (roundToTens n k).natAbs ≤ 2 * n.natAbs := by
  rw [roundToTens]
  split
  · exact Nat.zero_le _
  · rw [Binary64.natAbs_signed]
    obtain ⟨-, hnear⟩ := divHalfEven_near n.natAbs (tenTo_pos k)
    by_cases hzero : divHalfEven n.natAbs (tenTo k) = 0
    · rw [hzero, Nat.zero_mul]
      exact Nat.zero_le _
    · have hone : tenTo k ≤ divHalfEven n.natAbs (tenTo k) * tenTo k :=
        Nat.le_mul_of_pos_left _ (Nat.pos_of_ne_zero hzero)
      rw [Nat.mul_assoc] at hnear
      omega

theorem roundPlaces_atMost (x places : Value) :
    AtMost (x.bits + Value.powerBits) (roundPlaces x places) := by
  match places, x with
  | .real _, _ => exact .error _
  | .int p, .real x => exact .real _
  | .int p, .int n =>
    refine .ok ?_
    split
    · exact Nat.le_add_right _ _
    · have h := bitLength_mono (natAbs_roundToTens_le n (clampPlaces p).natAbs)
      calc bitLength (roundToTens n (clampPlaces p).natAbs).natAbs
          ≤ bitLength n.natAbs + 1 := h.trans (bitLength_two_mul_le _)
        _ ≤ bitLength n.natAbs + Value.powerBits := Nat.add_le_add_left (by decide) _

theorem bitLength_factorial_le {n : Nat} (h : n ≤ maxFactors) :
    bitLength (n !) ≤ Value.powerBits := by
  rw [bitLength_le_iff]
  have hbase : n ≤ 2 ^ 13 := h.trans (by decide)
  have hexponent : 13 * n < Value.powerBits :=
    (Nat.mul_le_mul_left 13 h).trans_lt (by decide)
  calc n ! ≤ n ^ n := factorial_le_pow n
    _ ≤ (2 ^ 13) ^ n := Nat.pow_le_pow_left hbase n
    _ = 2 ^ (13 * n) := (pow_mul 2 13 n).symm
    _ < 2 ^ Value.powerBits := Nat.pow_lt_pow_right (by decide) hexponent

theorem factorial_atMost (n : Value) : AtMost Value.powerBits (factorial n) := by
  cases h : n.toInt? with
  | none =>
    rw [factorial, wholeArgument, h]
    exact .error _
  | some a =>
    rw [factorial_of_toInt? h]
    exact .guarded fun _ => .guarded fun hcount =>
      .ok (bitLength_factorial_le (Nat.le_of_not_lt hcount))

/-- Permutations of `b` among numbers that are beyond two to the power `k` have more than `k * b`
bits. -/
theorem lt_bitLength_permutations {a b k : Nat} (h : 2 ^ k + b ≤ a) :
    k * b < bitLength (a ! / (a - b)!) := by
  refine Nat.lt_of_not_le fun hle => ?_
  have hlow : 2 ^ k ≤ a - b + 1 := by omega
  have hle := bitLength_le_iff.mp hle
  rw [← product_eq_div (Nat.le_of_add_left_le h), product_eq_ascFactorial, pow_mul] at hle
  have hpow : (2 ^ k) ^ b ≤ (a - b + 1).ascFactorial b :=
    (Nat.pow_le_pow_left hlow b).trans (pow_succ_le_ascFactorial _ _)
  exact Nat.not_lt.mpr hpow hle

/-- Arrangements are counted of whole numbers only. -/
theorem arrangement_bind_atMost (function : Counting) {n r : Value} {bound : Nat}
    {next : Nat × Nat → Except CalcError Value}
    (h : ∀ a b, n.toInt? = some a → r.toInt? = some b →
      AtMost bound (arrangement function n r >>= next)) :
    AtMost bound (arrangement function n r >>= next) := by
  by_cases hwhole : (∃ a, n.IsWhole a) ∧ ∃ b, r.IsWhole b
  · obtain ⟨⟨a, ha⟩, b, hb⟩ := hwhole
    exact h a b (Value.isWhole_iff.mp ha) (Value.isWhole_iff.mp hb)
  · rw [arrangement_of_not_isWhole function (not_and_or.mp hwhole)]
    exact .error _

section Counting
variable {n : Value} (r : Value) (hn : ∀ k, n.toInt? = some k → k ≤ maxFactors)
include hn

theorem permutations_atMost : AtMost Value.powerBits (permutations n r) := by
  refine arrangement_bind_atMost .permutations fun a b ha hb => ?_
  show AtMost _ (permutations n r)
  have hle : a.toNat ≤ maxFactors := Int.toNat_le.mpr (hn a ha)
  have hdiv := bitLength_mono (Nat.div_le_self (a.toNat !) ((a.toNat - b.toNat)!))
  rw [permutations_of_toInt? ha hb]
  exact .guarded fun _ => .guarded fun _ => .ok (hdiv.trans (bitLength_factorial_le hle))

theorem combinations_atMost : AtMost Value.powerBits (combinations n r) := by
  refine arrangement_bind_atMost .combinations fun a b ha hb => ?_
  show AtMost _ (combinations n r)
  have hle : a.toNat ≤ maxFactors := Int.toNat_le.mpr (hn a ha)
  have hbits : bitLength (a.toNat.choose b.toNat) ≤ Value.powerBits := by
    rw [bitLength_le_iff]
    calc a.toNat.choose b.toNat ≤ 2 ^ a.toNat := choose_le_two_pow _ _
      _ < 2 ^ Value.powerBits := Nat.pow_lt_pow_right (by decide) (hle.trans_lt (by decide))
  rw [combinations_of_toInt? ha hb]
  exact .guarded fun _ => .guarded fun _ => .ok hbits

end Counting

/-! The other functions make floating-point numbers, and no integer of any size. -/

section Real
variable (bound : Nat) (x y : Value)

theorem expValue_atMost : AtMost bound (expValue x) :=
  .bind fun _ _ => .guarded fun _ => .real _

theorem tan_atMost (mode : AngleMode) :
    AtMost bound (do return .real (← mode.tan (← x.toReal))) :=
  .bind fun _ _ => .bind fun t _ => .real t

theorem lnValue_atMost : AtMost bound (lnValue x) :=
  .bind fun _ _ => .guarded fun _ => .real _

theorem log10Value_atMost : AtMost bound (log10Value x) :=
  .bind fun _ _ => .guarded fun _ => .real _

theorem logValue_atMost : AtMost bound (logValue x y) :=
  .bind fun _ _ => .bind fun _ _ => .guarded fun _ => .real _

theorem sqrtValue_atMost : AtMost bound (sqrtValue x) :=
  .bind fun _ _ => .guarded fun _ => .real _

theorem rootReal_atMost (v : Binary64) (index : Int) : AtMost bound (rootReal v index) := by
  rw [rootReal]
  split
  · exact .guarded fun _ => .real _
  · exact .real _

theorem rootValue_atMost : AtMost bound (rootValue x y) :=
  .bind fun v _ => .bind fun index _ => .guarded fun _ => rootReal_atMost bound v index

end Real

/-- A function makes no more than a million bits in addition to those of its arguments, if
arrangements are counted of few things only. -/
theorem apply_atMost {f : Builtin} {args : List Value}
    (hcount : (Operation.call f args).CountsWithin maxFactors) (mode : AngleMode) :
    AtMost ((args.map Value.bits).sum + Value.powerBits) (f.apply mode args) := by
  have hpower : Value.powerBits ≤ (args.map Value.bits).sum + Value.powerBits :=
    Nat.le_add_left _ _
  unfold apply
  split
  case h_1 x =>
    refine .ok ?_
    have habs : x.abs.bits = x.bits := by cases x <;> rfl
    rw [habs, List.map_singleton, List.sum_singleton]
    exact Nat.le_add_right _ _
  case h_2 x => simpa using roundWhole_atMost x
  case h_3 x places =>
    refine (roundPlaces_atMost x places).mono (Nat.add_le_add_right ?_ _)
    simp
  case h_4 x y => exact (Value.pow_atMost x y).mono hpower
  case h_5 => exact expValue_atMost _ _
  case h_6 | h_7 => exact .map_real _ _
  case h_8 => exact tan_atMost _ _ mode
  case h_9 => exact lnValue_atMost _ _
  case h_10 => exact log10Value_atMost _ _
  case h_11 | h_12 => exact logValue_atMost _ _ _
  case h_13 => exact sqrtValue_atMost _ _
  case h_14 | h_15 => exact rootValue_atMost _ _ _
  case h_16 n => exact (factorial_atMost n).mono hpower
  case h_17 n r => exact (permutations_atMost r hcount).mono hpower
  case h_18 n r => exact (combinations_atMost r hcount).mono hpower
  case h_19 => exact .error _

end Builtin

/-! ## Trees -/

namespace Expr

/-- The bits that nodes allow for: a million each, and four for each digit. -/
def allowance (nodes : List Expr) : Nat :=
  Value.powerBits * nodes.length + 4 * (nodes.map literalDigits).sum

theorem allowance_append (nodes more : List Expr) :
    allowance (nodes ++ more) = allowance nodes + allowance more := by
  simp only [allowance, List.length_append, List.map_append, List.sum_append]
  ring

/-- A node that is no integer literal allows for a million bits. -/
theorem allowance_cons {node : Expr} (h : node.literalDigits = 0) (nodes : List Expr) :
    allowance (node :: nodes) = allowance nodes + Value.powerBits := by
  simp only [allowance, List.length_cons, List.map_cons, List.sum_cons, h]
  ring

theorem powerBits_le_allowance (tree : Expr) : Value.powerBits ≤ allowance tree.subtrees :=
  (Nat.le_mul_of_pos_right _ tree.length_subtrees_pos).trans (Nat.le_add_right _ _)

/-- A second operand allows for the bits that the operator makes in addition to the first. -/
theorem apply_atMost_allowance (o : BinOp) {x y : Value} {bound : Nat} (hx : x.bits ≤ bound)
    {b : Expr} (hy : y.bits ≤ allowance b.subtrees) :
    AtMost (bound + allowance b.subtrees) (o.apply x y) := by
  refine (o.apply_atMost x y).mono (Nat.max_le.mpr ⟨Nat.add_le_add hx hy, ?_⟩)
  exact b.powerBits_le_allowance.trans (Nat.le_add_left _ _)

variable (mode : AngleMode)

mutual

theorem eval_atMost (tree : Expr)
    (h : ∀ op ∈ tree.operations mode, op.CountsWithin Builtin.maxFactors) :
    AtMost (allowance tree.subtrees) (tree.eval mode) := by
  match tree with
  | num (.int n) =>
    refine .ok ((Decimal.bitLength_le_digits n.natAbs).trans ?_)
    simp [allowance, subtrees, literalDigits]
  | num (.real x) => exact .real x
  | const c => exact .real c.value
  | neg x =>
    rw [operations] at h
    intro v hv
    obtain ⟨w, hw, rfl⟩ := exists_of_map hv
    have hbits : w.neg.bits = w.bits := by
      cases w
      · simp [Value.neg, Value.bits]
      · rfl
    rw [subtrees, allowance_cons rfl, hbits]
    exact (eval_atMost x h w hw).trans (Nat.le_add_right _ _)
  | binary o a b =>
    rw [operations, List.forall_mem_append] at h
    obtain ⟨ha, h⟩ := h
    refine .bind fun x hx => ?_
    rw [hx, onValue_ok, List.forall_mem_append] at h
    refine .bind fun y hy => ?_
    have hxbits := eval_atMost a ha x hx
    have hybits := eval_atMost b h.1 y hy
    refine (apply_atMost_allowance o hxbits hybits).mono ?_
    rw [subtrees, allowance_cons rfl, allowance_append]
    exact Nat.le_add_right _ _
  | chain first links =>
    rw [operations, List.forall_mem_append] at h
    obtain ⟨hfirst, h⟩ := h
    refine .bind fun x hx => ?_
    rw [hx, onValue_ok] at h
    have hxbits := eval_atMost first hfirst x hx
    refine (evalLinks_atMost links hxbits h).mono ?_
    rw [subtrees, allowance_cons rfl, allowance_append]
    exact Nat.le_add_right _ _
  | call f args =>
    rw [operations, List.forall_mem_append] at h
    obtain ⟨hargs, h⟩ := h
    refine .bind fun values hvalues => ?_
    rw [hvalues, onValue_ok, List.forall_mem_singleton] at h
    have hsum := sum_bits_evalArgs_le args hargs hvalues
    rw [subtrees, allowance_cons rfl]
    exact (Builtin.apply_atMost h mode).mono (Nat.add_le_add_right hsum _)

/-- The rest of a chain, behind a value that is bounded already. -/
theorem evalLinks_atMost (links : List (BinOp × Expr)) {x : Value} {bound : Nat}
    (hx : x.bits ≤ bound)
    (h : ∀ op ∈ linkOperations mode x links, op.CountsWithin Builtin.maxFactors) :
    AtMost (bound + allowance (linkSubtrees links)) (evalLinks mode x links) := by
  match links with
  | [] => exact .ok (hx.trans (Nat.le_add_right _ _))
  | (o, b) :: rest =>
    rw [linkOperations, List.forall_mem_append] at h
    obtain ⟨hb, h⟩ := h
    refine .bind fun y hy => ?_
    rw [hy, onValue_ok, List.forall_mem_cons] at h
    refine .bind fun z hz => ?_
    rw [hz, onValue_ok] at h
    have hzbits := apply_atMost_allowance o hx (eval_atMost b hb y hy) z hz
    have hrest := evalLinks_atMost rest hzbits h.2
    rwa [Nat.add_assoc, ← allowance_append] at hrest

theorem sum_bits_evalArgs_le (args : List Expr)
    (h : ∀ op ∈ argOperations mode args, op.CountsWithin Builtin.maxFactors)
    {values : List Value} (hvalues : evalArgs mode args = .ok values) :
    (values.map Value.bits).sum ≤ allowance (argSubtrees args) := by
  match args with
  | [] =>
    cases hvalues
    exact Nat.zero_le _
  | a :: rest =>
    rw [argOperations, List.forall_mem_append] at h
    obtain ⟨ha, h⟩ := h
    obtain ⟨x, hx, hvalues⟩ := exists_of_bind hvalues
    obtain ⟨xs, hxs, hvalues⟩ := exists_of_bind hvalues
    cases hvalues
    rw [hx, onValue_ok] at h
    have hxbits := eval_atMost a ha x hx
    have hrest := sum_bits_evalArgs_le rest h hxs
    rw [argSubtrees, allowance_append, List.map_cons, List.sum_cons]
    exact Nat.add_le_add hxbits hrest

end

/-- **The size of an integer result.**  An integer that a tree evaluates to has at most a million
bits for each node of the tree and four for each digit of an integer literal, provided that no
permutations and no combinations of more than five thousand things are counted. -/
theorem bitLength_eval_le {tree : Expr} {mode : AngleMode} {n : Int}
    (h : tree.eval mode = .ok (.int n))
    (hcount : ∀ op ∈ tree.operations mode, op.CountsWithin 5000) :
    bitLength n.natAbs ≤
      1000000 * tree.subtrees.length + 4 * (tree.subtrees.map literalDigits).sum :=
  tree.eval_atMost mode hcount (.int n) h

/-- `nPr(5000, 3) * 2 ** 100` -/
theorem bitLength_eval_le_of_permutations :
    let tree := chain (call .nPr [.num (.int 5000), .num (.int 3)])
      [(.mul, binary .pow (.num (.int 2)) (.num (.int 100)))]
    let n := 124925010000 * 2 ^ 100
    tree.eval .degrees = .ok (.int n) ∧
      (∀ op ∈ tree.operations .degrees, op.CountsWithin 5000) ∧
      bitLength n.natAbs ≤ 1000000 * 7 + 4 * 9 := by
  intro tree n
  have heval : tree.eval .degrees = .ok (.int n) := rfl
  have hcount : ∀ op ∈ tree.operations .degrees, op.CountsWithin 5000 := by
    have hoperations : tree.operations .degrees =
        [.call .nPr [.int 5000, .int 3], .binary .pow (.int 2) (.int 100),
          .binary .mul (.int 124925010000) (.int (2 ^ 100))] := rfl
    rw [hoperations]
    refine List.forall_mem_cons.mpr ⟨?_, List.forall_mem_cons.mpr ⟨trivial, ?_⟩⟩
    · rintro k ⟨⟩
      exact Int.le_refl 5000
    · exact List.forall_mem_singleton.mpr trivial
  exact ⟨heval, hcount, bitLength_eval_le heval hcount⟩

/-- **The size of an integer result has no such bound.**  Five thousand factors of six hundred bits
are multiplied in `nPr(1e182, 5000)`, a tree of three nodes. -/
theorem bitLength_eval_exceeds : ¬ ∀ (tokens : List Token) (tree : Expr) (mode : AngleMode)
    (n : Int), Expr.ofTokens tokens = .ok tree → tree.eval mode = .ok (.int n) →
    bitLength n.natAbs ≤
      1000000 * tree.subtrees.length + 4 * (tree.subtrees.map literalDigits).sum := by
  intro hbound
  obtain ⟨things, a, ha, hlarge⟩ :
      ∃ (x : Binary64) (a : Int), x.toInt? = some a ∧ 2 ^ 604 + 5000 ≤ a.toNat := by
    refine ⟨Decimal.Numeral.toBinary64 false ⟨1, 182⟩, _, Option.eq_some_of_isSome ?_, ?_⟩
    · decide +kernel
    · decide +kernel
  have hmany : 5000 ≤ a.toNat := Nat.le_of_add_left_le hlarge
  have hbits : 604 * 5000 < bitLength (a.toNat ! / (a.toNat - 5000)!) :=
    Builtin.lt_bitLength_permutations hlarge
  -- the power itself is not to reach `omega`
  clear hlarge
  let tree : Expr := call .nPr [num (.real things), num (.int 5000)]
  have htree : Expr.ofTokens [.name "nPr", .lparen, .num (.real things), .comma, .num (.int 5000),
      .rparen] = .ok tree := rfl
  have heval : tree.eval .degrees = .ok (.int (a.toNat ! / (a.toNat - 5000)! : Nat)) := by
    have hvalue : (Value.real things).toInt? = some a := ha
    have hdomain : ¬ (a < 0 ∨ (5000 : Int) < 0 ∨ a < 5000) := by omega
    have hcount : ¬ Builtin.maxFactors < (5000 : Int).toNat := by decide
    have hcall := Builtin.permutations_of_toInt? hvalue (Value.toInt?_int 5000)
    rw [if_neg hdomain, if_neg hcount] at hcall
    exact hcall
  have hle := hbound _ tree .degrees _ htree heval
  have hallowance : 1000000 * tree.subtrees.length + 4 * (tree.subtrees.map literalDigits).sum =
      3000016 := rfl
  rw [hallowance, Int.natAbs_natCast] at hle
  omega

end Expr
end SciCalc
