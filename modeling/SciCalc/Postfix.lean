import SciCalc.Token

/-! # Postfix form

The tokens of an expression, reordered so that every operator and every call stands behind its
operands, and parentheses and commas are gone.  The power binds tighter than a sign, a sign
tighter than `* / %`, and those tighter than `+ -`; powers group to the right, all other
operators to the left.  A plus sign leaves nothing, a minus sign becomes a negation.

Tokens are read once.  Operators whose right operand is not complete yet wait on a stack,
together with the parentheses that are still open.  The reading stands at one of three positions:
behind a complete value, behind an opening parenthesis, or before an operand.
-/
namespace SciCalc.Postfix

/-- What waits on the stack: an operator without its right operand, or an open parenthesis, which
either groups or holds the arguments of a call and counts the commas between them. -/
inductive Pending where
  | neg
  | op (o : BinOp)
  | group
  | call (name : String) (commas : Nat)
deriving DecidableEq

/-- Where the reading stands. -/
inductive Position where
  | operand
  | opened
  | value
deriving DecidableEq

/-- How tightly an operator binds. -/
def precedence : BinOp → Nat
  | .add | .sub => 1
  | .mul | .div | .mod => 2
  | .pow => 4

namespace Pending

/-- How tightly a waiting operator binds; a parenthesis does not bind at all. -/
def binding : Pending → Nat
  | op o => precedence o
  | neg => 3
  | group | call .. => 0

/-- The token of a waiting operator; a parenthesis has none. -/
def token? : Pending → Option Token
  | neg => some .neg
  | op o => some (.op o)
  | group | call .. => none

/-- Whether an operator waits, and not a parenthesis. -/
def isOperator (p : Pending) : Bool :=
  p.token?.isSome

end Pending

/-- The tokens of waiting operators. -/
def emitted (waiting : List Pending) : List Token :=
  waiting.filterMap Pending.token?

/-- Whether a waiting operator takes its operands before a new operator takes its own: it binds
tighter, or as tightly and the new one groups to the left. -/
def goesBefore (o : BinOp) (p : Pending) : Bool :=
  p.isOperator && (if o = .pow then precedence o < p.binding else precedence o ≤ p.binding)

/-- The waiting operators above the innermost open parenthesis. -/
def inner (stack : List Pending) : List Pending :=
  stack.takeWhile Pending.isOperator

/-- The stack from the innermost open parenthesis on. -/
def outer (stack : List Pending) : List Pending :=
  stack.dropWhile Pending.isOperator

/-- A fault of the order of the tokens. -/
def fail (fault : Fault) : Except CalcError (List Token) :=
  .error (.invalidExpression fault)

/-- The postfix form of the tokens that remain, from a position and with a stack of what
waits. -/
def convert : (position : Position) → (stack : List Pending) → List Token →
    Except CalcError (List Token)
  | .value, stack, [] =>
    if (outer stack).isEmpty then .ok (emitted stack) else fail .unclosed
  | _, _, [] => fail .incomplete
  | position, stack, .num v :: rest =>
    if position = .value then fail .adjacentValues
    else (convert .value stack rest).map (.num v :: ·)
  | position, stack, .name f :: .lparen :: rest =>
    if position = .value then fail .adjacentValues
    else convert .opened (.call f 0 :: stack) rest
  | position, stack, .name s :: rest =>
    if position = .value then fail .adjacentValues
    else (convert .value stack rest).map (.name s :: ·)
  | position, stack, .lparen :: rest =>
    if position = .value then fail .adjacentValues
    else convert .opened (.group :: stack) rest
  | position, stack, .comma :: rest =>
    if position ≠ .value then fail .commaWithoutArgument
    else
      match outer stack with
      | .call f commas :: below =>
        (convert .operand (.call f (commas + 1) :: below) rest).map (emitted (inner stack) ++ ·)
      | _ => fail .commaOutsideCall
  | position, stack, .rparen :: rest =>
    match outer stack with
    | [] => fail .unmatchedClosing
    | .call f commas :: below =>
      if position = .operand then fail .unexpectedClosing
      else
        let count := if position = .opened then 0 else commas + 1
        (convert .value below rest).map (emitted (inner stack) ++ .call f count :: ·)
    | _ :: below =>
      if position ≠ .value then fail .unexpectedClosing
      else (convert .value below rest).map (emitted (inner stack) ++ ·)
  | position, stack, .op o :: rest =>
    if position = .value then
      (convert .operand (.op o :: stack.dropWhile (goesBefore o)) rest).map
        (emitted (stack.takeWhile (goesBefore o)) ++ ·)
    else if o = .add then convert .operand stack rest
    else if o = .sub then convert .operand (.neg :: stack) rest
    else fail .missingLeftOperand
  | _, _, .neg :: _ => fail .internalToken
  | _, _, .call .. :: _ => fail .internalToken

/-- The postfix form of the tokens of an expression. -/
def ofTokens (tokens : List Token) : Except CalcError (List Token) :=
  convert .operand [] tokens

-- The sign of `-2 ^ 2` is taken last.
example : ofTokens [.op .sub, .num (.int 2), .op .pow, .num (.int 2)] =
    .ok [.num (.int 2), .num (.int 2), .op .pow, .neg] := by cbv

end SciCalc.Postfix
