import SciCalc.Expr

/-! # The value of a postfix form without a tree

A postfix form can be evaluated as it stands, with a stack of values: an operand is put on the
stack, and an operation replaces its operands on top by its result.  `Expr.ofPostfix` does not
work like that.  It builds a tree first, and flattens what groups to the left into chains while it
builds.  Both have the same value, and among several errors they report the same one
(`evalPostfix_ofPostfix`).

The stack of trees and the stack of values are related by `stackValues`: a token does to the values
of the trees what it does to the trees.  The one step where they could come apart is an operator
that prolongs a chain, and `eval_join` says that it does not matter whether the operator prolongs
a chain or stands on top of one.
-/
namespace SciCalc.Expr
open Outcome

/-- Reads one token with a stack of values. -/
def pushValue (mode : AngleMode) (stack : List Value) (token : Token) :
    Except CalcError (List Value) :=
  match token with
  | .num v => .ok (v :: stack)
  | .name s =>
    match Constant.ofName? s with
    | some c => .ok (.real c.value :: stack)
    | none => fail (.unknownName s)
  | .neg =>
    match stack with
    | x :: rest => .ok (x.neg :: rest)
    | [] => fail .negationWithoutOperand
  | .op o =>
    match stack with
    | right :: left :: rest => (o.apply left right).map (· :: rest)
    | _ => fail .malformed
  | .call name count =>
    match Builtin.ofName? name with
    | none => fail (.unknownFunction name)
    | some f =>
      if stack.length < count then fail .missingArguments
      else (f.apply mode (stack.take count).reverse).map (· :: stack.drop count)
  | .comma | .lparen | .rparen => fail .delimiterInPostfix

/-- The value of a postfix form; the first error ends the reading. -/
def evalPostfix (mode : AngleMode) (tokens : List Token) : Except CalcError Value := do
  match ← tokens.foldlM (pushValue mode) [] with
  | [v] => .ok v
  | _ => fail .malformed

/-- The values of the trees on a stack.  The lowest tree was complete first, and its error
counts. -/
def stackValues (mode : AngleMode) : List Node → Except CalcError (List Value)
  | [] => .ok []
  | node :: rest => do
    let values ← stackValues mode rest
    let v ← node.expr.eval mode
    return v :: values

variable (mode : AngleMode)

/-! ## Chains and arguments -/

theorem evalLinks_append (x : Value) (links more : List (BinOp × Expr)) :
    evalLinks mode x (links ++ more) = (do evalLinks mode (← evalLinks mode x links) more) := by
  induction links generalizing x with
  | nil => rfl
  | cons link links ih =>
    obtain ⟨o, b⟩ := link
    simp [evalLinks, ih]

theorem evalArgs_append (args more : List Expr) :
    evalArgs mode (args ++ more) =
      (do return (← evalArgs mode args) ++ (← evalArgs mode more)) := by
  induction args with
  | nil => simp [evalArgs, ok_eq_pure]
  | cons a args ih => simp [evalArgs, ih]

/-- An operator takes the values of its two operands, whether it prolongs a chain or begins one. -/
theorem eval_join (o : BinOp) (left right : Node) :
    (join o left right).expr.eval mode = (do
      let x ← left.expr.eval mode
      let y ← right.expr.eval mode
      o.apply x y) := by
  unfold join
  split
  · simp [eval]
  · rename_i h
    rw [h]
    simp [eval, evalLinks_append, evalLinks, ok_eq_pure]
  · simp [eval, evalLinks, ok_eq_pure]

theorem stackValues_append (top rest : List Node) :
    stackValues mode (top ++ rest) = (do
      let below ← stackValues mode rest
      let above ← evalArgs mode (top.reverse.map Node.expr)
      return above.reverse ++ below) := by
  induction top with
  | nil => simp [evalArgs, ok_eq_pure]
  | cons node top ih => simp [stackValues, ih, evalArgs_append, evalArgs, ok_eq_pure]

variable {mode}

theorem length_of_evalArgs {args : List Expr} {values : List Value}
    (h : evalArgs mode args = .ok values) : values.length = args.length := by
  induction args generalizing values with
  | nil =>
    cases h
    rfl
  | cons a args ih =>
    obtain ⟨x, -, h⟩ := exists_of_bind h
    obtain ⟨xs, hxs, h⟩ := exists_of_bind h
    cases h
    exact congrArg (· + 1) (ih hxs)

/-! ## One token -/

theorem pushValue_call (mode : AngleMode) {name : String} {f : Builtin}
    (hf : Builtin.ofName? name = some f) (args below : List Value) :
    pushValue mode (args.reverse ++ below) (.call name args.length) =
      (f.apply mode args).map (· :: below) := by
  have hlen : ¬ (args.reverse ++ below).length < args.length := by simp
  simp only [pushValue, hf, if_neg hlen]
  simp

theorem pushValue_of_callNode {name : String} {count : Nat} {stack rest : List Node} {node : Node}
    (h : callNode name count stack = .ok (node, rest)) :
    (do pushValue mode (← stackValues mode stack) (.call name count)) =
      stackValues mode (node :: rest) := by
  rw [callNode] at h
  split at h
  · cases h
  rename_i f hf
  split at h
  · cases h
  split at h
  · cases h
  rename_i hlen
  cases h
  have hsplit := stackValues_append mode (stack.take count) (stack.drop count)
  rw [List.take_append_drop] at hsplit
  simp only [hsplit, stackValues, eval, bind_assoc, pure_bind]
  refine bind_congr fun below => ?_
  -- An error of an argument is reported before the function is looked at.
  cases hargs : evalArgs mode ((stack.take count).reverse.map Node.expr) with
  | error e => rfl
  | ok args =>
    have hcount : args.length = count := by
      rw [length_of_evalArgs hargs]
      simp [Nat.min_eq_left (Nat.le_of_not_lt hlen)]
    have hcall := pushValue_call mode hf args below
    rw [hcount] at hcall
    exact hcall

/-- A token that makes a tree out of trees makes its value out of their values. -/
theorem pushValue_of_nodeOf {token : Token} {stack rest : List Node} {node : Node}
    (h : nodeOf token stack = .ok (node, rest)) :
    (do pushValue mode (← stackValues mode stack) token) = stackValues mode (node :: rest) := by
  cases token with
  | num v =>
    cases h
    rfl
  | name s =>
    rw [nodeOf] at h
    split at h
    · rename_i c hc
      cases h
      simp [stackValues, pushValue, eval, ok_eq_pure, hc]
    · cases h
  | neg =>
    rcases stack with _ | ⟨x, stack⟩
    · cases h
    · cases h
      simp only [stackValues, pushValue, eval, bind_assoc, pure_bind]
      refine bind_congr fun below => ?_
      cases x.expr.eval mode <;> rfl
  | op o =>
    rcases stack with _ | ⟨right, _ | ⟨left, stack⟩⟩
    · cases h
    · cases h
    · cases h
      simp only [stackValues, pushValue, eval_join, bind_assoc, pure_bind]
      rfl
  | call name count => exact pushValue_of_callNode h
  | comma | lparen | rparen => cases h

theorem exists_of_push {token : Token} {stack stack' : List Node}
    (h : push stack token = .ok stack') :
    ∃ node rest, nodeOf token stack = .ok (node, rest) ∧ stack' = node :: rest := by
  obtain ⟨⟨node, rest⟩, hnode, h⟩ := exists_of_bind h
  simp only at h
  split at h
  · cases h
  · cases h
    exact ⟨node, rest, hnode, rfl⟩

/-! ## A whole postfix form -/

/-- What is read with trees can be read with their values. -/
theorem foldlM_pushValue (mode : AngleMode) {tokens : List Token} {stack stack' : List Node}
    (h : tokens.foldlM push stack = .ok stack') :
    (do tokens.foldlM (pushValue mode) (← stackValues mode stack)) = stackValues mode stack' := by
  induction tokens generalizing stack with
  | nil =>
    cases h
    simp
  | cons token tokens ih =>
    rw [List.foldlM_cons] at h
    obtain ⟨next, hpush, h⟩ := exists_of_bind h
    obtain ⟨node, rest, hnode, rfl⟩ := exists_of_push hpush
    simp only [List.foldlM_cons, ← bind_assoc]
    rw [pushValue_of_nodeOf hnode]
    exact ih h

/-- **The tree means what its postfix form means.**  In either angle mode both have the same value
or the same error, and an operator takes the values of its operands wherever it stands in the
tree. -/
theorem evalPostfix_ofPostfix {tokens : List Token} {tree : Expr}
    (h : ofPostfix tokens = .ok tree) (mode : AngleMode) :
    evalPostfix mode tokens = tree.eval mode ∧
    ∀ (o : BinOp) (left right : Node), (join o left right).expr.eval mode = (do
      let x ← left.expr.eval mode
      let y ← right.expr.eval mode
      o.apply x y) := by
  refine ⟨?_, eval_join mode⟩
  obtain ⟨stack, hfold, h⟩ := exists_of_bind h
  match stack, h with
  | [node], h =>
    cases h
    -- The empty stack of trees has the empty stack of values.
    have hrun := foldlM_pushValue mode hfold
    rw [stackValues, ok_eq_pure, pure_bind] at hrun
    rw [evalPostfix, hrun]
    simp only [stackValues, ok_eq_pure, pure_bind, bind_assoc, bind_pure]

/-- `(1 + 2 / 0) - 3 % 0`, where the difference prolongs the sum of the group, has the error of the
division. -/
theorem evalPostfix_ofPostfix_of_group :
    let tokens : List Token := [.num (.int 1), .num (.int 2), .num (.int 0), .op .div, .op .add,
      .num (.int 3), .num (.int 0), .op .mod, .op .sub]
    let tree := chain (.num (.int 1)) [(.add, chain (.num (.int 2)) [(.div, .num (.int 0))]),
      (.sub, chain (.num (.int 3)) [(.mod, .num (.int 0))])]
    ofPostfix tokens = .ok tree ∧ tree.eval .degrees = .error .divisionByZero ∧
      evalPostfix .degrees tokens = tree.eval .degrees :=
  ⟨rfl, rfl, (evalPostfix_ofPostfix rfl .degrees).1⟩

end SciCalc.Expr
