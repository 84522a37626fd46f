import SciCalc.Proofs.Counting
import SciCalc.Proofs.FlooredDivision
import SciCalc.Proofs.IntegerPower
import SciCalc.Proofs.Operations
import SciCalc.Proofs.ValueStack

/-! # Exact evaluation

A tree of integers under operations on integers has a meaning in mathematics: an integer, or none
where a remainder is taken modulo zero or a count of arrangements is not defined (`Expr.integer?`).
Evaluation computes that integer, however large the numbers on the way are; it never turns to
floating point.  It may still refuse a tree: because the tree has no meaning, or because a power or
a count would be too large (`eval_exact`).

The induction relates each step of the evaluation to the same step of the meaning (`Agrees`).  What
has to be known of a power is that its exponent is not negative.  That is asked of the exponents
that are evaluated, and of no others.
-/
namespace SciCalc
open Nat

/-! ## The meaning over the integers -/

/-- The integer that an operator makes of two integers. -/
def BinOp.integer? : BinOp → Int → Int → Option Int
  | .add, x, y => some (x + y)
  | .sub, x, y => some (x - y)
  | .mul, x, y => some (x * y)
  | .div, _, _ => none
  | .mod, x, y => if y = 0 then none else some (x - y * ⌊(x : ℚ) / y⌋)
  | .pow, x, y => if y < 0 then none else some (x ^ y.toNat)

/-- The integer that a function makes of integers. -/
def Builtin.integer? : Builtin → List Int → Option Int
  | .abs, [x] => some |x|
  | .round, [x] => some x
  | .pow, [x, y] => BinOp.pow.integer? x y
  | .fact, [n] => if n < 0 then none else some (n.toNat ! : Nat)
  | .nPr, [n, r] =>
    if n < 0 ∨ r < 0 ∨ n < r then none else some (n.toNat ! / (n.toNat - r.toNat)! : Nat)
  | .nCr, [n, r] => if n < 0 ∨ r < 0 ∨ n < r then none else some (n.toNat.choose r.toNat)
  | _, _ => none

/-- The functions that make integers of integers, with any number of arguments but for the
rounding. -/
def Builtin.isExact (f : Builtin) (count : Nat) : Bool :=
  f ∈ [.abs, .pow, .fact, .nPr, .nCr] || f = .round && count = 1

namespace Expr

mutual

/-- The integer that a tree means. -/
def integer? : Expr → Option Int
  | num (.int n) => some n
  | num (.real _) | const _ => none
  | neg x => x.integer?.map (-·)
  | binary o a b => do
    let x ← a.integer?
    let y ← b.integer?
    o.integer? x y
  | chain first links => do
    let x ← first.integer?
    integerLinks? x links
  | call f args => do
    let xs ← integerArgs? args
    f.integer? xs

/-- The integer that a chain means, given the meaning of what stands in front of its links. -/
def integerLinks? (x : Int) : List (BinOp × Expr) → Option Int
  | [] => some x
  | (o, b) :: rest => do
    let y ← b.integer?
    let z ← o.integer? x y
    integerLinks? z rest

/-- The integers that arguments mean. -/
def integerArgs? : List Expr → Option (List Int)
  | [] => some []
  | a :: rest => do
    let x ← a.integer?
    let xs ← integerArgs? rest
    return x :: xs

end

/-- A leaf is an integer, and any other node an operation on integers. -/
def isExactNode : Expr → Bool
  | num (.int _) | neg _ => true
  | num (.real _) | const _ => false
  | binary o _ _ => o ≠ .div
  | chain _ links => links.all fun link => link.1 ≠ .div
  | call f args => f.isExact args.length

/-- All nodes are such. -/
def Exact (tree : Expr) : Prop :=
  ∀ node ∈ tree.subtrees, node.isExactNode

end Expr

/-! ## Steps that agree -/

/-- The bounds that an operation on integers can exceed, and a number of arguments that the function
does not take. -/
def ExactLimit : Fault → Prop
  | .powerTooLarge | .exponentTooLarge | .countTooLarge | .argumentCount _ _ => True
  | _ => False

/-- A result agrees with a meaning: it is that meaning, or there is none, or a bound is exceeded. -/
inductive Agrees {α β : Type} (embed : β → α) : Option β → Except CalcError α → Prop
  | value (b : β) : Agrees embed (some b) (.ok (embed b))
  | divisionByZero : Agrees embed none (.error .divisionByZero)
  | domain : Agrees embed none (.error .domain)
  | limit (meaning : Option β) {fault : Fault} (h : ExactLimit fault) :
    Agrees embed meaning (.error (.invalidExpression fault))

namespace Agrees
variable {α β γ δ : Type} {embed : β → α} {embed' : δ → γ} {meaning : Option β}
  {result : Except CalcError α}

theorem bind {g : β → Option δ} {f : α → Except CalcError γ} (h : Agrees embed meaning result)
    (hf : ∀ b, result = .ok (embed b) → Agrees embed' (g b) (f (embed b))) :
    Agrees embed' (meaning >>= g) (result >>= f) := by
  cases h with
  | value b => exact hf b rfl
  | divisionByZero => exact .divisionByZero
  | domain => exact .domain
  | limit meaning h => exact .limit _ h

theorem map {g : β → δ} {f : α → γ} (h : Agrees embed meaning result)
    (hf : ∀ b, f (embed b) = embed' (g b)) : Agrees embed' (meaning.map g) (result.map f) := by
  cases h with
  | value b =>
    rw [Option.map_some, Except.map, hf]
    exact .value (g b)
  | divisionByZero => exact .divisionByZero
  | domain => exact .domain
  | limit meaning h => exact .limit _ h

end Agrees

/-! ## One operation -/

theorem mod_agrees (x y : Int) :
    Agrees Value.int (BinOp.mod.integer? x y) (Value.mod (.int x) (.int y)) := by
  by_cases hy : y = 0
  · subst hy
    rw [BinOp.integer?, if_pos rfl, Value.mod_integer_zero]
    exact .divisionByZero
  · rw [BinOp.integer?, if_neg hy, Value.mod_integer x hy, ← fdiv_eq_floor, ← Int.fmod_def]
    exact .value (x.fmod y)

theorem pow_agrees (x : Int) {y : Int} (hy : 0 ≤ y) :
    Agrees Value.int (BinOp.pow.integer? x y) (Value.pow (.int x) (.int y)) := by
  obtain ⟨n, rfl⟩ := Int.eq_ofNat_of_zero_le hy
  have hpow : Value.pow (.int x) (.int n) = Value.intPow x n := rfl
  rw [BinOp.integer?, if_neg (Int.not_lt.mpr hy), Int.toNat_natCast, hpow, Value.intPow_eq]
  split
  · exact .value (x ^ n)
  · exact .limit _ trivial

theorem BinOp.apply_agrees {o : BinOp} (ho : o ≠ .div) (x : Int) {y : Int}
    (hy : o = .pow → 0 ≤ y) :
    Agrees Value.int (o.integer? x y) (o.apply (.int x) (.int y)) := by
  cases o with
  | add => exact .value (x + y)
  | sub => exact .value (x - y)
  | mul => exact .value (x * y)
  | div => exact absurd rfl ho
  | mod => exact mod_agrees x y
  | pow => exact pow_agrees x (hy rfl)

namespace Builtin

/-- A count has a meaning in the domain of the function, and is refused if there are too many
factors. -/
theorem count_agrees (outside tooMany : Prop) [Decidable outside] [Decidable tooMany]
    (count : Int) :
    Agrees Value.int (if outside then none else some count)
      (if outside then .error .domain
        else if tooMany then .error (.invalidExpression .countTooLarge) else .ok (.int count)) := by
  by_cases hdomain : outside
  · rw [if_pos hdomain, if_pos hdomain]
    exact .domain
  rw [if_neg hdomain, if_neg hdomain]
  split
  · exact .limit _ trivial
  · exact .value count

theorem factorial_agrees (n : Int) :
    Agrees Value.int (Builtin.fact.integer? [n]) (factorial (.int n)) := by
  rw [factorial_of_toInt? (Value.toInt?_int n)]
  exact count_agrees _ _ _

theorem permutations_agrees (n r : Int) :
    Agrees Value.int (Builtin.nPr.integer? [n, r]) (permutations (.int n) (.int r)) := by
  rw [permutations_of_toInt? (Value.toInt?_int n) (Value.toInt?_int r)]
  exact count_agrees _ _ _

theorem combinations_agrees (n r : Int) :
    Agrees Value.int (Builtin.nCr.integer? [n, r]) (combinations (.int n) (.int r)) := by
  rw [combinations_of_toInt? (Value.toInt?_int n) (Value.toInt?_int r)]
  exact count_agrees _ _ _

/-- A number of arguments that the function does not take has no meaning and no value. -/
theorem apply_agrees {f : Builtin} {xs : List Int} (hf : f.isExact xs.length)
    (mode : AngleMode) (hy : ∀ x y, f = .pow → xs = [x, y] → 0 ≤ y) :
    Agrees Value.int (f.integer? xs) (f.apply mode (xs.map .int)) := by
  cases f with
  | abs =>
    match xs with
    | [] | _ :: _ :: _ => exact .limit _ trivial
    | [x] =>
      have habs : Value.abs (.int x) = .int |x| :=
        congrArg Value.int (Int.abs_eq_natAbs x).symm
      show Agrees Value.int (some |x|) (.ok (Value.abs (.int x)))
      rw [habs]
      exact .value |x|
  | round =>
    match xs, hf with
    | [x], _ => exact .value x
  | pow =>
    match xs with
    | [] | [_] | _ :: _ :: _ :: _ => exact .limit _ trivial
    | [x, y] => exact pow_agrees x (hy x y rfl rfl)
  | fact =>
    match xs with
    | [] | _ :: _ :: _ => exact .limit _ trivial
    | [n] => exact factorial_agrees n
  | nPr =>
    match xs with
    | [] | [_] | _ :: _ :: _ :: _ => exact .limit _ trivial
    | [n, r] => exact permutations_agrees n r
  | nCr =>
    match xs with
    | [] | [_] | _ :: _ :: _ :: _ => exact .limit _ trivial
    | [n, r] => exact combinations_agrees n r
  | exp | sin | cos | tan | ln | log | log10 | sqrt | root => cases hf

end Builtin

/-! ## The whole tree -/

/-- The operations have no negative exponent. -/
def NonnegExponents (operations : List Operation) : Prop :=
  ∀ n, .int n ∈ operations.filterMap Operation.exponent? → 0 ≤ n

theorem nonnegExponents_append {before after : List Operation} :
    NonnegExponents (before ++ after) ↔ NonnegExponents before ∧ NonnegExponents after := by
  simp [NonnegExponents, List.filterMap_append, or_imp, forall_and]

theorem nonnegExponents_binary {o : BinOp} {x y : Int} {after : List Operation}
    (h : NonnegExponents (.binary o (.int x) (.int y) :: after)) :
    (o = .pow → 0 ≤ y) ∧ NonnegExponents after := by
  rw [← List.singleton_append, nonnegExponents_append] at h
  obtain ⟨hfirst, hafter⟩ := h
  refine ⟨?_, hafter⟩
  rintro rfl
  exact hfirst y (List.mem_singleton.mpr rfl)

theorem nonnegExponents_call {f : Builtin} {xs : List Int}
    (h : NonnegExponents [.call f (xs.map .int)]) :
    ∀ x y, f = .pow → xs = [x, y] → 0 ≤ y := by
  rintro x y rfl rfl
  exact h y (List.mem_singleton.mpr rfl)

namespace Expr
variable (mode : AngleMode)

mutual

theorem eval_agrees (tree : Expr) (h : tree.Exact)
    (hexp : NonnegExponents (tree.operations mode)) :
    Agrees Value.int tree.integer? (tree.eval mode) := by
  match tree with
  | num (.int n) => exact .value n
  | num (.real x) => cases h _ (mem_subtrees_self _)
  | const c => cases h _ (mem_subtrees_self _)
  | neg x =>
    rw [Exact, subtrees, List.forall_mem_cons] at h
    exact (eval_agrees x h.2 hexp).map fun n => rfl
  | binary o a b =>
    rw [Exact, subtrees, List.forall_mem_cons, List.forall_mem_append] at h
    obtain ⟨ho, ha, hb⟩ := h
    rw [operations, nonnegExponents_append] at hexp
    obtain ⟨hexpA, hexp⟩ := hexp
    refine (eval_agrees a ha hexpA).bind fun x hx => ?_
    rw [hx, onValue_ok, nonnegExponents_append] at hexp
    obtain ⟨hexpB, hexp⟩ := hexp
    refine (eval_agrees b hb hexpB).bind fun y hy => ?_
    rw [hy, onValue_ok] at hexp
    exact BinOp.apply_agrees (of_decide_eq_true ho) x (nonnegExponents_binary hexp).1
  | chain first links =>
    rw [Exact, subtrees, List.forall_mem_cons, List.forall_mem_append] at h
    obtain ⟨hops, hfirst, hlinks⟩ := h
    rw [isExactNode, List.all_eq_true] at hops
    rw [operations, nonnegExponents_append] at hexp
    obtain ⟨hexpFirst, hexp⟩ := hexp
    refine (eval_agrees first hfirst hexpFirst).bind fun x hx => ?_
    rw [hx, onValue_ok] at hexp
    exact evalLinks_agrees x links (fun l hl => of_decide_eq_true (hops l hl)) hlinks hexp
  | call f args =>
    rw [Exact, subtrees, List.forall_mem_cons] at h
    obtain ⟨hf, hargs⟩ := h
    rw [operations, nonnegExponents_append] at hexp
    obtain ⟨hexpArgs, hexp⟩ := hexp
    refine (evalArgs_agrees args hargs hexpArgs).bind fun xs hxs => ?_
    rw [hxs, onValue_ok] at hexp
    have hlength := length_of_evalArgs hxs
    rw [List.length_map] at hlength
    exact Builtin.apply_agrees (hlength ▸ hf) mode (nonnegExponents_call hexp)

/-- The rest of a chain, behind the value `x`. -/
theorem evalLinks_agrees (x : Int) (links : List (BinOp × Expr))
    (hops : ∀ link ∈ links, link.1 ≠ .div) (h : ∀ node ∈ linkSubtrees links, node.isExactNode)
    (hexp : NonnegExponents (linkOperations mode (.int x) links)) :
    Agrees Value.int (integerLinks? x links) (evalLinks mode (.int x) links) := by
  match links with
  | [] => exact .value x
  | (o, b) :: rest =>
    obtain ⟨ho, hops⟩ := List.forall_mem_cons.mp hops
    rw [linkSubtrees, List.forall_mem_append] at h
    obtain ⟨hb, hrest⟩ := h
    rw [linkOperations, nonnegExponents_append] at hexp
    obtain ⟨hexpB, hexp⟩ := hexp
    refine (eval_agrees b hb hexpB).bind fun y hy => ?_
    rw [hy, onValue_ok] at hexp
    obtain ⟨hpow, hexp⟩ := nonnegExponents_binary hexp
    refine (BinOp.apply_agrees ho x hpow).bind fun z hz => ?_
    rw [hz, onValue_ok] at hexp
    exact evalLinks_agrees z rest hops hrest hexp

theorem evalArgs_agrees (args : List Expr) (h : ∀ node ∈ argSubtrees args, node.isExactNode)
    (hexp : NonnegExponents (argOperations mode args)) :
    Agrees (List.map Value.int) (integerArgs? args) (evalArgs mode args) := by
  match args with
  | [] => exact .value []
  | a :: rest =>
    rw [argSubtrees, List.forall_mem_append] at h
    obtain ⟨ha, hrest⟩ := h
    rw [argOperations, nonnegExponents_append] at hexp
    obtain ⟨hexpA, hexp⟩ := hexp
    refine (eval_agrees a ha hexpA).bind fun x hx => ?_
    rw [hx, onValue_ok] at hexp
    refine (evalArgs_agrees rest hrest hexp).bind fun xs _ => ?_
    exact .value (x :: xs)

end

/-- **Exact evaluation.**  In either angle mode, a tree of integers under operations on integers,
with no negative exponent among those that are evaluated, has as its value the integer that it
means. Otherwise it has no meaning, a division by zero or an argument outside the domain of a
function being the reason, or a bound is exceeded.  No number is rounded on the way. -/
theorem eval_exact {tree : Expr} (h : tree.Exact) (mode : AngleMode)
    (hexp : ∀ n, .int n ∈ tree.exponents mode → 0 ≤ n) :
    (∃ n, tree.eval mode = .ok (.int n) ∧ tree.integer? = some n) ∨
    ((tree.eval mode = .error .divisionByZero ∨ tree.eval mode = .error .domain) ∧
      tree.integer? = none) ∨
    ∃ fault, ExactLimit fault ∧ tree.eval mode = .error (.invalidExpression fault) := by
  have hagrees := tree.eval_agrees mode h hexp
  generalize tree.eval mode = result at hagrees
  generalize tree.integer? = meaning at hagrees
  cases hagrees with
  | value n => exact .inl ⟨n, rfl, rfl⟩
  | divisionByZero => exact .inr (.inl ⟨.inl rfl, rfl⟩)
  | domain => exact .inr (.inl ⟨.inr rfl, rfl⟩)
  | limit meaning hfault => exact .inr (.inr ⟨_, hfault, rfl⟩)

/-- `(-3) ** 101 % nCr(60, 30) - fact(25)`: all three are beyond the integers that floating-point
numbers tell apart. -/
theorem eval_exact_of_large :
    let tree := chain (binary .pow (neg (.num (.int 3))) (.num (.int 101)))
      [(.mod, call .nCr [.num (.int 60), .num (.int 30)]), (.sub, call .fact [.num (.int 25)])]
    tree.Exact ∧ tree.exponents .degrees = [.int 101] ∧
      tree.eval .degrees = .ok (.int (-15511210024954419783736083)) ∧
      tree.integer? = some (-15511210024954419783736083) := by
  intro tree
  have hexact : tree.Exact := List.all_eq_true.mp rfl
  have hexponents : tree.exponents .degrees = [.int 101] := by decide +kernel
  have heval : tree.eval .degrees = .ok (.int (-15511210024954419783736083)) := by rfl
  refine ⟨hexact, hexponents, heval, ?_⟩
  have hexp : ∀ n, .int n ∈ tree.exponents .degrees → 0 ≤ n := by
    simp [hexponents]
  rcases eval_exact hexact .degrees hexp with ⟨n, hn, hmeaning⟩ | ⟨hn | hn, -⟩ | ⟨fault, -, hn⟩
  · rw [heval] at hn
    cases hn
    exact hmeaning
  · simp [heval] at hn
  · simp [heval] at hn
  · simp [heval] at hn

end Expr
end SciCalc
