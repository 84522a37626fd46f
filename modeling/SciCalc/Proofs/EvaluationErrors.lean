import SciCalc.Proofs.EvaluationDepth
import SciCalc.Proofs.ValueStack

/-! # What can go wrong in an evaluation

A function is applied to a number of arguments that it takes, or it fails for that number and for
nothing else: the table of the numbers of arguments and the cases of `Builtin.apply` agree
(`Builtin.accepts_iff`).  In a tree that is built, every call has as many arguments as its function
takes, and so has every call that is carried out, for the arguments of a call have one value each
(`Expr.WellBuilt.hasArity`).

An error of an evaluation is that of an operation on values (`Expr.eval_failsIn`).  So it is about
the values that operations meet and never about the tree (`Expr.WellBuilt.eval_fails`).
-/
namespace SciCalc
open Outcome

/-! ## Errors that values cause -/

/-- A fault of numbers that are out of bounds, and not of a text or of a tree. -/
def Fault.IsNumeric : Fault → Prop
  | integerBeyondReals | powerOverflow | powerTooLarge | exponentTooLarge | exponentialOverflow
  | roundNotFinite | roundPlacesNotInteger | rootIndexOutOfRange | countTooLarge => True
  | _ => False

/-- An error that the operands of an operation cause. -/
def CalcError.IsNumeric : CalcError → Prop
  | invalidCharacters => False
  | invalidExpression fault => fault.IsNumeric
  | divisionByZero | domain | complexResult | invalidRoot | integerRequired _ => True

/-- A result that fails, if it does, for the operands. -/
def FailsNumerically {α : Type} (result : Except CalcError α) : Prop :=
  ∀ e, result = .error e → e.IsNumeric

namespace FailsNumerically
variable {α β : Type} {result : Except CalcError α}

theorem ok (a : α) : FailsNumerically (.ok a) := nofun

theorem error {e : CalcError} (h : e.IsNumeric) : FailsNumerically (.error e : Except _ α) := by
  rintro _ ⟨⟩
  exact h

theorem bind {next : α → Except CalcError β} (h : FailsNumerically result)
    (hnext : ∀ a, FailsNumerically (next a)) : FailsNumerically (result >>= next) := by
  cases result with
  | ok a => exact hnext a
  | error e => exact error (h e rfl)

theorem map {f : α → β} (h : FailsNumerically result) : FailsNumerically (result.map f) := by
  cases result with
  | ok a => exact ok (f a)
  | error e => exact error (h e rfl)

/-- A result behind a check. -/
theorem guarded {condition : Prop} [Decidable condition] {e : CalcError} (he : e.IsNumeric)
    (h : FailsNumerically result) : FailsNumerically (if condition then .error e else result) := by
  split
  · exact error he
  · exact h

end FailsNumerically

/-! ## Operators -/

namespace Value
open FailsNumerically

theorem toReal_fails (x : Value) : FailsNumerically x.toReal := by
  cases x with
  | real v => exact .ok v
  | int n =>
    rw [toReal]
    split
    · exact .ok _
    · exact .error trivial

theorem toReals_fails (x y : Value) : FailsNumerically (toReals x y) :=
  .bind x.toReal_fails fun _ => .bind y.toReal_fails fun _ => .ok _

theorem lift_fails (exact : Int → Int → Int) (rounded : Binary64 → Binary64 → Binary64)
    (x y : Value) : FailsNumerically (lift exact rounded x y) := by
  match x, y with
  | int m, int n => exact .ok _
  | int m, .real b => exact .map (toReals_fails _ _)
  | .real a, y => exact .map (toReals_fails _ _)

theorem intPow_fails (x : Int) (n : Nat) : FailsNumerically (intPow x n) := by
  rw [intPow]
  split
  · exact .ok _
  split
  · exact .ok _
  split
  · exact .ok _
  · exact .guarded trivial (.guarded trivial (.ok _))

theorem realPow_fails (a b : Binary64) : FailsNumerically (realPow a b) :=
  .guarded trivial (.guarded trivial (.guarded trivial (.ok _)))

theorem powOfReals_fails (x y : Value) : FailsNumerically (powOfReals x y) :=
  .bind (toReals_fails x y) fun _ => realPow_fails _ _

theorem pow_fails (x y : Value) : FailsNumerically (pow x y) := by
  unfold pow
  split
  · exact intPow_fails _ _
  · exact .guarded trivial (powOfReals_fails _ _)
  · exact powOfReals_fails _ _

end Value

theorem BinOp.apply_fails (o : BinOp) (x y : Value) : FailsNumerically (o.apply x y) := by
  cases o with
  | add => exact Value.lift_fails _ _ x y
  | sub => exact Value.lift_fails _ _ x y
  | mul => exact Value.lift_fails _ _ x y
  | div => exact .guarded trivial (.map (Value.toReals_fails x y))
  | mod => exact .guarded trivial (Value.lift_fails _ _ x y)
  | pow => exact Value.pow_fails x y

/-! ## Functions -/

namespace Builtin
open FailsNumerically
variable {f : Builtin} {mode : AngleMode}

theorem wholeArgument_fails (function : Counting) (v : Value) :
    FailsNumerically (wholeArgument function v) := by
  rw [wholeArgument]
  split
  · exact .ok _
  · exact .error trivial

theorem arrangement_fails (function : Counting) (n r : Value) :
    FailsNumerically (arrangement function n r) :=
  .bind (wholeArgument_fails _ n) fun _ => .bind (wholeArgument_fails _ r) fun _ =>
    .guarded trivial (.ok _)

theorem checkFactors_fails (count : Nat) : FailsNumerically (checkFactors count) :=
  .guarded trivial (.ok ())

theorem rootIndex_fails (n : Value) : FailsNumerically (rootIndex n) := by
  refine .bind n.toReal_fails fun v => ?_
  split
  · split
    · exact .ok _
    · exact .error trivial
  · exact .error trivial

theorem rootValue_fails (x n : Value) : FailsNumerically (rootValue x n) := by
  refine .bind x.toReal_fails fun v => .bind (rootIndex_fails n) fun index => .guarded trivial ?_
  rw [rootReal]
  split
  · exact .guarded trivial (.ok _)
  · exact .ok _

theorem logValue_fails (x base : Value) : FailsNumerically (logValue x base) :=
  .bind x.toReal_fails fun _ => .bind base.toReal_fails fun _ => .guarded trivial (.ok _)

theorem roundWhole_fails (x : Value) : FailsNumerically (roundWhole x) := by
  cases x with
  | int n => exact .ok _
  | real v =>
    rw [roundWhole]
    split
    · exact .ok _
    · exact .error trivial

theorem roundPlaces_fails (x places : Value) : FailsNumerically (roundPlaces x places) := by
  cases places with
  | real p => exact .error trivial
  | int p => cases x <;> exact .ok _

/-- One argument, to a function that takes one. -/
theorem apply_one_fails (h : f.accepts 1 = true) (x : Value) :
    FailsNumerically (f.apply mode [x]) := by
  have hreal := x.toReal_fails
  cases f with
  | pow | nPr | nCr => cases h
  | abs => exact .ok _
  | round => exact roundWhole_fails x
  | exp => exact .bind hreal fun _ => .guarded trivial (.ok _)
  | sin | cos => exact .map hreal
  | tan => exact .bind hreal fun _ => .bind (.guarded trivial (.ok _)) fun _ => .ok _
  | ln | log10 => exact .bind hreal fun _ => .guarded trivial (.ok _)
  | log => exact logValue_fails x _
  | sqrt => exact .bind hreal fun _ => .guarded trivial (.ok _)
  | root => exact rootValue_fails x _
  | fact =>
    exact .bind (wholeArgument_fails _ x) fun _ =>
      .guarded trivial (.bind (checkFactors_fails _) fun _ => .ok _)

/-- Two arguments, to a function that takes two. -/
theorem apply_two_fails (h : f.accepts 2 = true) (x y : Value) :
    FailsNumerically (f.apply mode [x, y]) := by
  cases f with
  | abs | exp | sin | cos | tan | ln | log10 | sqrt | fact => cases h
  | round => exact roundPlaces_fails x y
  | pow => exact Value.pow_fails x y
  | log => exact logValue_fails x y
  | root => exact rootValue_fails x y
  | nPr | nCr =>
    exact .bind (arrangement_fails _ x y) fun _ => .bind (checkFactors_fails _) fun _ => .ok _

theorem eq_one_or_two_of_accepts {n : Nat} (h : f.accepts n = true) : n = 1 ∨ n = 2 := by
  have hrange : 1 ≤ f.argumentRange.1 ∧ f.argumentRange.2 ≤ 2 := by cases f <;> decide
  simp only [accepts, Bool.and_eq_true, decide_eq_true_eq] at h
  omega

/-- With a number of arguments that it takes, a function fails for the arguments only. -/
theorem apply_fails {args : List Value} (h : f.accepts args.length = true) :
    FailsNumerically (f.apply mode args) := by
  match args, eq_one_or_two_of_accepts h with
  | [x], _ => exact apply_one_fails h x
  | [x, y], _ => exact apply_two_fails h x y

/-- With any other number it fails for that number. -/
theorem apply_of_not_accepts {args : List Value} (h : f.accepts args.length = false)
    (mode : AngleMode) :
    f.apply mode args = .error (.invalidExpression (.argumentCount f.name args.length)) := by
  match args with
  | [] => cases f <;> rfl
  | [x] => cases f <;> first | rfl | cases h
  | [x, y] => cases f <;> first | rfl | cases h
  | x :: y :: z :: rest => cases f <;> rfl

/-- **The numbers of arguments in the table are those that functions are applied to.** -/
theorem accepts_iff (f : Builtin) (mode : AngleMode) (args : List Value) :
    f.accepts args.length = true ↔ ∀ name count,
      f.apply mode args ≠ .error (.invalidExpression (.argumentCount name count)) := by
  constructor
  · intro h name count hfail
    exact apply_fails h _ hfail
  · intro h
    cases haccepts : f.accepts args.length with
    | true => rfl
    | false => exact absurd (apply_of_not_accepts haccepts mode) (h _ _)

end Builtin

/-! ## The operations of an evaluation -/

namespace Operation

/-- The result of an operation on values. -/
def result (mode : AngleMode) : Operation → Except CalcError Value
  | binary o x y => o.apply x y
  | call f args => f.apply mode args

/-- A function is applied to a number of arguments that it takes. -/
def HasArity : Operation → Prop
  | binary .. => True
  | call f args => f.accepts args.length = true

theorem result_fails {op : Operation} (h : op.HasArity) (mode : AngleMode) :
    FailsNumerically (op.result mode) := by
  cases op with
  | binary o x y => exact o.apply_fails x y
  | call f args => exact Builtin.apply_fails h

end Operation

namespace Expr
variable {mode : AngleMode} {p : Value → Prop}

theorem forall_mem_onValue {α : Type} {result : Except CalcError α} {next : α → List Operation}
    {P : Operation → Prop} :
    (∀ op ∈ onValue result next, P op) ↔ ∀ a, result = .ok a → ∀ op ∈ next a, P op := by
  cases result with
  | ok a => simp [onValue]
  | error e => simp [onValue]

mutual

/-- What is called in a well-built tree is called with a number of arguments that it takes. -/
theorem WellBuilt.hasArity (tree : Expr) (h : tree.WellBuilt p) :
    ∀ op ∈ tree.operations mode, op.HasArity := by
  match tree with
  | num v => exact List.forall_mem_nil _
  | const c => exact List.forall_mem_nil _
  | neg x => exact WellBuilt.hasArity x (wellBuilt_neg.mp h)
  | binary o a b =>
    obtain ⟨-, ha, hb⟩ := wellBuilt_binary.mp h
    refine List.forall_mem_append.mpr
      ⟨WellBuilt.hasArity a ha, forall_mem_onValue.mpr fun x _ => ?_⟩
    refine List.forall_mem_append.mpr
      ⟨WellBuilt.hasArity b hb, forall_mem_onValue.mpr fun y _ => ?_⟩
    exact List.forall_mem_singleton.mpr trivial
  | chain first links =>
    obtain ⟨-, hfirst, hlinks⟩ := wellBuilt_chain.mp h
    refine List.forall_mem_append.mpr
      ⟨WellBuilt.hasArity first hfirst, forall_mem_onValue.mpr fun x _ => ?_⟩
    exact hasArity_links links hlinks x
  | call f args =>
    obtain ⟨haccepts, hargs⟩ := wellBuilt_call.mp h
    refine List.forall_mem_append.mpr
      ⟨hasArity_args args hargs, forall_mem_onValue.mpr fun values hvalues => ?_⟩
    -- The arguments have one value each.
    have hcount : f.accepts values.length = true := by rw [length_of_evalArgs hvalues, haccepts]
    exact List.forall_mem_singleton.mpr hcount

theorem hasArity_links (links : List (BinOp × Expr)) (h : ∀ link ∈ links, WellBuilt p link.2)
    (x : Value) : ∀ op ∈ linkOperations mode x links, op.HasArity := by
  match links with
  | [] => exact List.forall_mem_nil _
  | (o, b) :: rest =>
    obtain ⟨hb, hrest⟩ := List.forall_mem_cons.mp h
    refine List.forall_mem_append.mpr
      ⟨WellBuilt.hasArity b hb, forall_mem_onValue.mpr fun y _ => ?_⟩
    refine List.forall_mem_cons.mpr ⟨trivial, forall_mem_onValue.mpr fun z _ => ?_⟩
    exact hasArity_links rest hrest z

theorem hasArity_args (args : List Expr) (h : ∀ a ∈ args, a.WellBuilt p) :
    ∀ op ∈ argOperations mode args, op.HasArity := by
  match args with
  | [] => exact List.forall_mem_nil _
  | a :: rest =>
    obtain ⟨ha, hrest⟩ := List.forall_mem_cons.mp h
    exact List.forall_mem_append.mpr
      ⟨WellBuilt.hasArity a ha, forall_mem_onValue.mpr fun _ _ => hasArity_args rest hrest⟩

end

/-- An error, if the result is one, is that of one of the operations. -/
def FailsIn {α : Type} (mode : AngleMode) (ops : List Operation) (result : Except CalcError α) :
    Prop :=
  ∀ e, result = .error e → ∃ op ∈ ops, op.result mode = .error e

namespace FailsIn
variable {α β : Type} {ops more : List Operation} {result : Except CalcError α}

theorem ok (a : α) : FailsIn mode ops (.ok a) := nofun

theorem operation (op : Operation) : FailsIn mode [op] (op.result mode) :=
  fun _ he => ⟨op, List.mem_singleton_self op, he⟩

theorem of_subset (h : FailsIn mode ops result) (hsub : ops ⊆ more) : FailsIn mode more result := by
  intro e he
  obtain ⟨op, hop, hresult⟩ := h e he
  exact ⟨op, hsub hop, hresult⟩

theorem map {f : α → β} (h : FailsIn mode ops result) : FailsIn mode ops (result.map f) := by
  cases result with
  | ok a => exact ok (f a)
  | error e =>
    rintro _ ⟨⟩
    exact h e rfl

/-- The operations of a step stand in front of those of the next one. -/
theorem bind {f : α → Except CalcError β} {next : α → List Operation}
    (h : FailsIn mode ops result) (hnext : ∀ a, FailsIn mode (next a) (f a)) :
    FailsIn mode (ops ++ onValue result next) (result >>= f) := by
  cases result with
  | ok a => exact (hnext a).of_subset (List.subset_append_right ..)
  | error e =>
    rintro _ ⟨⟩
    exact h.of_subset (List.subset_append_left ..) e rfl

end FailsIn

mutual

/-- **An error of an evaluation is the error of an operation that it carries out.** -/
theorem eval_failsIn (tree : Expr) : FailsIn mode (tree.operations mode) (tree.eval mode) := by
  match tree with
  | num v => exact .ok v
  | const c => exact .ok _
  | neg x => exact (eval_failsIn x).map
  | binary o a b =>
    exact (eval_failsIn a).bind fun x => (eval_failsIn b).bind fun y => .operation (.binary o x y)
  | chain first links => exact (eval_failsIn first).bind fun x => evalLinks_failsIn x links
  | call f args => exact (evalArgs_failsIn args).bind fun values => .operation (.call f values)

theorem evalLinks_failsIn (x : Value) (links : List (BinOp × Expr)) :
    FailsIn mode (linkOperations mode x links) (evalLinks mode x links) := by
  match links with
  | [] => exact .ok x
  | (o, b) :: rest =>
    exact (eval_failsIn b).bind fun y =>
      (FailsIn.operation (.binary o x y)).bind fun z => evalLinks_failsIn z rest

theorem evalArgs_failsIn (args : List Expr) :
    FailsIn mode (argOperations mode args) (evalArgs mode args) := by
  match args with
  | [] => exact .ok []
  | a :: rest =>
    exact (eval_failsIn a).bind fun x => (evalArgs_failsIn rest).map

end

/-- Evaluating a well-built tree fails, if it does, for the values that operations meet. -/
theorem WellBuilt.eval_fails {tree : Expr} (h : tree.WellBuilt p) :
    FailsNumerically (tree.eval mode) := by
  intro e he
  obtain ⟨op, hop, hresult⟩ := eval_failsIn tree e he
  exact op.result_fails (h.hasArity tree op hop) mode e hresult

/-- **What holds of every tree that is built.**  Whatever the tokens are, a tree that is built of
them is a thousand levels high at most and every node of it is as it should be: a binary operation
is a power, a chain has links, none of them a power, and does not begin with a chain, and a call has
a number of arguments that its function takes.

So, in either mode, a thousand levels of evaluation are enough for it, and no function meets a
number of arguments that it does not take. -/
theorem evaluation_of_ofPostfix {tokens : List Token} {tree : Expr}
    (h : ofPostfix tokens = .ok tree) :
    tree.height ≤ 1000 ∧ tree.WellBuilt (.num · ∈ tokens) ∧ ∀ mode,
      tree.evalWithin mode 1000 = found (tree.eval mode) ∧
      (∀ f args, .call f args ∈ tree.operations mode → f.accepts args.length = true ∧
        ∀ name count,
          f.apply mode args ≠ .error (.invalidExpression (.argumentCount name count))) ∧
      ∀ name count, tree.eval mode ≠ .error (.invalidExpression (.argumentCount name count)) := by
  obtain ⟨hbuilt, hlow⟩ := wellBuilt_of_ofPostfix h
  refine ⟨hlow, hbuilt, fun mode => ⟨evalWithin_of_height_le hlow, fun f args hcall => ?_, ?_⟩⟩
  · have haccepts : f.accepts args.length = true := hbuilt.hasArity tree _ hcall
    exact ⟨haccepts, (Builtin.accepts_iff f mode args).mp haccepts⟩
  · intro name count hfail
    exact hbuilt.eval_fails _ hfail

/-- `(-2 ** pi + 1) * log(8, 2)`. -/
theorem evaluation_of_ofPostfix_of_chain :
    let tokens : List Token := [.num (.int 2), .name "pi", .op .pow, .neg, .num (.int 1), .op .add,
      .num (.int 8), .num (.int 2), .call "log" 2, .op .mul]
    let tree := chain (neg (binary .pow (num (.int 2)) (const .pi)))
      [(.add, num (.int 1)), (.mul, call .log [num (.int 8), num (.int 2)])]
    ofPostfix tokens = .ok tree ∧ tree.height = 4 ∧
      tree.evalWithin .degrees 1000 = found (tree.eval .degrees) := by
  intro tokens tree
  have htree : ofPostfix tokens = .ok tree := rfl
  exact ⟨htree, rfl, ((evaluation_of_ofPostfix htree).2.2 .degrees).1⟩

end Expr
end SciCalc
