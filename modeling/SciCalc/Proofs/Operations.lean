import SciCalc.Expr

/-! # Nodes and operations of a tree

Two lists that conditions on a tree and on its evaluation are stated with: the trees that hang on
its nodes, and the operations on values that evaluating it carries out.
-/
namespace SciCalc.Expr

/-! ## The nodes of a tree

`Expr.subtrees` lists the trees that hang on the nodes of a tree, the tree itself first.  A
condition on all nodes is a condition on the members of this list, and a sum over all nodes is a sum
over it.
-/

mutual

/-- The trees that hang on the nodes of a tree. -/
def subtrees : Expr → List Expr
  | num v => [num v]
  | const c => [const c]
  | neg x => neg x :: x.subtrees
  | binary o a b => binary o a b :: (a.subtrees ++ b.subtrees)
  | chain first links => chain first links :: (first.subtrees ++ linkSubtrees links)
  | call f args => call f args :: argSubtrees args

/-- The nodes of the operands of links. -/
def linkSubtrees : List (BinOp × Expr) → List Expr
  | [] => []
  | (_, b) :: rest => b.subtrees ++ linkSubtrees rest

/-- The nodes of arguments. -/
def argSubtrees : List Expr → List Expr
  | [] => []
  | a :: rest => a.subtrees ++ argSubtrees rest

end

theorem linkSubtrees_append (links more : List (BinOp × Expr)) :
    linkSubtrees (links ++ more) = linkSubtrees links ++ linkSubtrees more := by
  induction links with
  | nil => rfl
  | cons link rest ih => rw [List.cons_append, linkSubtrees, ih, linkSubtrees, List.append_assoc]

theorem mem_argSubtrees {node : Expr} {args : List Expr} :
    node ∈ argSubtrees args ↔ ∃ a ∈ args, node ∈ a.subtrees := by
  induction args with
  | nil => simp [argSubtrees]
  | cons a rest ih => simp [argSubtrees, ih]

theorem mem_subtrees_self (tree : Expr) : tree ∈ tree.subtrees := by
  cases tree <;> exact List.mem_cons_self

theorem length_subtrees_pos (tree : Expr) : 0 < tree.subtrees.length :=
  List.length_pos_of_mem tree.mem_subtrees_self

end SciCalc.Expr

/-! ## The operations that are carried out

Evaluating a tree applies operators and functions to values, one after the other, until the tree has
its value or an operation fails.  `Expr.operations` lists them in that order, each with its
operands, the failing one included.  What is written in a tree but not reached because of an error
is not in the list.  So a condition on what is *evaluated* is a condition on the members of this
list.
-/
namespace SciCalc

/-- An operation on values. -/
inductive Operation where
  | binary (o : BinOp) (x y : Value)
  | call (f : Builtin) (args : List Value)
deriving DecidableEq

namespace Expr

/-- The operations that come after a result; there are none after an error. -/
def onValue {α : Type} (result : Except CalcError α) (next : α → List Operation) :
    List Operation :=
  match result with
  | .ok a => next a
  | .error _ => []

@[simp] theorem onValue_ok {α : Type} (a : α) (next : α → List Operation) :
    onValue (.ok a) next = next a := rfl

mutual

/-- The operations that evaluating a tree carries out. -/
def operations (mode : AngleMode) : Expr → List Operation
  | num _ | const _ => []
  | neg x => x.operations mode
  | binary o a b =>
    a.operations mode ++ onValue (a.eval mode) fun x =>
      b.operations mode ++ onValue (b.eval mode) fun y => [.binary o x y]
  | chain first links =>
    first.operations mode ++ onValue (first.eval mode) fun x => linkOperations mode x links
  | call f args =>
    argOperations mode args ++ onValue (evalArgs mode args) fun values => [.call f values]

/-- The operations of a chain, given the value of what stands in front of its links. -/
def linkOperations (mode : AngleMode) (x : Value) : List (BinOp × Expr) → List Operation
  | [] => []
  | (o, b) :: rest =>
    b.operations mode ++ onValue (b.eval mode) fun y =>
      .binary o x y :: onValue (o.apply x y) fun z => linkOperations mode z rest

/-- The operations of arguments. -/
def argOperations (mode : AngleMode) : List Expr → List Operation
  | [] => []
  | a :: rest => a.operations mode ++ onValue (a.eval mode) fun _ => argOperations mode rest

end

end Expr

namespace Operation

/-- The exponent, if the operation is a power. -/
def exponent? : Operation → Option Value
  | binary .pow _ y => some y
  | call .pow [_, y] => some y
  | _ => none

end Operation

/-- The exponents that are evaluated. -/
def Expr.exponents (mode : AngleMode) (tree : Expr) : List Value :=
  (tree.operations mode).filterMap Operation.exponent?

end SciCalc
