import SciCalc.Builtin
import SciCalc.Postfix

/-! # Expression trees

A tree has values and constants at its leaves.  Operators that group to the left are kept flat: a
chain is a first operand and a list of operators with their right operands, so that a sum of a
thousand terms is one node and not a thousand levels.  Names are resolved: a tree can call
nothing but the built-in functions.
-/
namespace SciCalc

/-- An expression tree. -/
inductive Expr where
  | num (v : Value)
  | const (c : Constant)
  | neg (operand : Expr)
  | binary (o : BinOp) (left right : Expr)
  /-- The first operand, and then operators and operands applied from left to right. -/
  | chain (first : Expr) (links : List (BinOp × Expr))
  | call (f : Builtin) (args : List Expr)

namespace Expr

mutual

/-- The written form, with a pair of parentheses around every operation. -/
def render : Expr → List Char
  | num v => v.literal
  | const c => c.name.toList
  | neg x => '(' :: '-' :: x.render ++ [')']
  | binary o a b => '(' :: a.render ++ o.symbol ++ b.render ++ [')']
  | chain first links =>
    List.replicate links.length '(' ++ first.render ++ renderLinks links
  | call f args => f.name.toList ++ '(' :: renderArgs args ++ [')']

/-- The links of a chain, each closing one parenthesis. -/
def renderLinks : List (BinOp × Expr) → List Char
  | [] => []
  | (o, b) :: rest => o.symbol ++ b.render ++ ')' :: renderLinks rest

/-- Arguments with a comma between any two. -/
def renderArgs : List Expr → List Char
  | [] => []
  | [a] => a.render
  | a :: b :: rest => a.render ++ ',' :: renderArgs (b :: rest)

end

/-! ## The value of a tree

Operands are evaluated from left to right, each before the operation that takes it, and the first
error is the result.  A chain is evaluated link by link: an operation is done before the operand
of the next link is looked at.
-/

mutual

/-- The value of a tree. -/
def eval (mode : AngleMode) : Expr → Except CalcError Value
  | num v => .ok v
  | const c => .ok (.real c.value)
  | neg x => (x.eval mode).map Value.neg
  | binary o a b => do
    let x ← a.eval mode
    let y ← b.eval mode
    o.apply x y
  | chain first links => do
    let x ← first.eval mode
    evalLinks mode x links
  | call f args => do
    let values ← evalArgs mode args
    f.apply mode values

/-- The value of a chain, given the value of what stands in front of its links. -/
def evalLinks (mode : AngleMode) (x : Value) : List (BinOp × Expr) → Except CalcError Value
  | [] => .ok x
  | (o, b) :: rest => do
    let y ← b.eval mode
    let z ← o.apply x y
    evalLinks mode z rest

/-- The values of arguments. -/
def evalArgs (mode : AngleMode) : List Expr → Except CalcError (List Value)
  | [] => .ok []
  | a :: rest => do
    let x ← a.eval mode
    let values ← evalArgs mode rest
    return x :: values

end

/-! ## From postfix form to a tree

The tokens of a postfix form are read with a stack of trees: each operator and each call takes
its operands from the stack and puts its own tree there, and at the end exactly one tree is left.
Names are resolved here, the number of arguments of each call is checked, and a tree may not be
more than a thousand levels high.
-/

/-- The greatest height of a tree. -/
def maxHeight : Nat := 1000

/-- A tree on the stack, with its height. -/
structure Node where
  expr : Expr
  height : Nat

/-- A fault of the shape of a tree. -/
def fail {α : Type} (fault : Fault) : Except CalcError α :=
  .error (.invalidExpression fault)

/-- The tree of an operator between two operands.  A power is a node of its own; any other
operator continues the chain on its left, or begins one. -/
def join (o : BinOp) (left right : Node) : Node :=
  match o, left.expr with
  | .pow, a => ⟨binary .pow a right.expr, max left.height right.height + 1⟩
  | o, chain first links =>
    ⟨chain first (links ++ [(o, right.expr)]), max left.height (right.height + 1)⟩
  | o, a => ⟨chain a [(o, right.expr)], max left.height right.height + 1⟩

/-- The height of the highest of several nodes. -/
def maxNodeHeight (nodes : List Node) : Nat :=
  nodes.foldr (fun n h => max n.height h) 0

/-- The call of a function whose name and number of arguments are given; the arguments are on top
of the stack, the last one first. -/
def callNode (name : String) (count : Nat) (stack : List Node) :
    Except CalcError (Node × List Node) :=
  match Builtin.ofName? name with
  | none => fail (.unknownFunction name)
  | some f =>
    if !f.accepts count then fail (.argumentCount name count)
    else if stack.length < count then fail .missingArguments
    else
      let args := (stack.take count).reverse
      .ok (⟨call f (args.map Node.expr), maxNodeHeight args + 1⟩, stack.drop count)

/-- The node that a token makes, and the stack without the operands that it takes. -/
def nodeOf (token : Token) (stack : List Node) : Except CalcError (Node × List Node) :=
  match token with
  | .num v => .ok (⟨num v, 1⟩, stack)
  | .name s =>
    match Constant.ofName? s with
    | some c => .ok (⟨const c, 1⟩, stack)
    | none => fail (.unknownName s)
  | .neg =>
    match stack with
    | x :: rest => .ok (⟨neg x.expr, x.height + 1⟩, rest)
    | [] => fail .negationWithoutOperand
  | .op o =>
    match stack with
    | right :: left :: rest => .ok (join o left right, rest)
    | _ => fail .malformed
  | .call name count => callNode name count stack
  | .comma | .lparen | .rparen => fail .delimiterInPostfix

/-- Reads one token. -/
def push (stack : List Node) (token : Token) : Except CalcError (List Node) := do
  let (node, rest) ← nodeOf token stack
  if maxHeight < node.height then fail .tooDeep else .ok (node :: rest)

/-- The tree of a postfix form. -/
def ofPostfix (tokens : List Token) : Except CalcError Expr := do
  match ← tokens.foldlM push [] with
  | [node] => .ok node.expr
  | _ => fail .malformed

/-! ## From text to a tree

The tree of an expression: its tokens, their postfix form, the tree of that form.  The first of
the three steps that fails decides the error.
-/

/-- The tree of the tokens of an expression. -/
def ofTokens (tokens : List Token) : Except CalcError Expr := do
  ofPostfix (← Postfix.ofTokens tokens)

/-- The tree of the text of an expression. -/
def ofChars (s : List Char) : Except CalcError Expr := do
  ofTokens (← Token.ofChars s)

end Expr
end SciCalc
