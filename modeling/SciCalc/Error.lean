/-! # Errors of a calculation

A calculation fails for one of seven kinds of reason, and each kind has one fixed message for the
screen.  An invalid expression also knows its precise fault; the text of the fault is meant for
records, not for the screen.
-/
namespace SciCalc

/-- The functions that count arrangements and take whole numbers only. -/
inductive Counting where
  | factorial
  | permutations
  | combinations
deriving DecidableEq

/-- The message for an argument that is no whole number. -/
def Counting.message : Counting → String
  | factorial => "Factorial needs integer"
  | permutations => "nPr needs integers"
  | combinations => "nCr needs integers"

/-- What is wrong with an invalid expression. -/
inductive Fault where
  -- reading the text
  | unexpectedCharacter (c : Char)
  | unreadableReal (text : String)
  | unreadableInteger (text : String)
  -- the order of the tokens
  | adjacentValues
  | commaWithoutArgument
  | commaOutsideCall
  | unmatchedClosing
  | unexpectedClosing
  | missingLeftOperand
  | internalToken
  | incomplete
  | unclosed
  -- the names and the shape of the tree
  | unknownName (name : String)
  | unknownFunction (name : String)
  | argumentCount (name : String) (count : Nat)
  | negationWithoutOperand
  | malformed
  | missingArguments
  | delimiterInPostfix
  | tooDeep
  -- numbers out of bounds
  | integerBeyondReals
  | powerOverflow
  | powerTooLarge
  | exponentTooLarge
  | exponentialOverflow
  | roundNotFinite
  | roundPlacesNotInteger
  | rootIndexOutOfRange
  | countTooLarge
deriving DecidableEq

namespace Fault

/-- The text of a fault. -/
def detail : Fault → String
  | unexpectedCharacter c => "caractère inattendu: '" ++ String.singleton c ++ "'"
  | unreadableReal text => "réel invalide: " ++ text
  | unreadableInteger text => "entier invalide: " ++ text
  | adjacentValues => "valeurs juxtaposées"
  | commaWithoutArgument => "virgule sans argument"
  | commaOutsideCall => "virgule hors d’un appel"
  | unmatchedClosing => "')' sans '('"
  | unexpectedClosing => "')' inattendue"
  | missingLeftOperand => "opérateur sans opérande gauche"
  | internalToken => "jeton interne en entrée"
  | incomplete => "expression incomplète"
  | unclosed => "parenthèses non fermées"
  | unknownName name => "nom inconnu: " ++ name
  | unknownFunction name => "fonction inconnue: " ++ name
  | argumentCount name count => name ++ ": " ++ toString count ++ " argument(s)"
  | negationWithoutOperand => "moins sans opérande"
  | malformed => "expression invalide"
  | missingArguments => "arguments manquants"
  | delimiterInPostfix => "parenthèse inattendue en RPN"
  | tooDeep => "expression trop profonde"
  | integerBeyondReals => "entier trop grand pour un réel"
  | powerOverflow => "dépassement de capacité (puissance)"
  | powerTooLarge => "puissance entière trop grande"
  | exponentTooLarge => "exposant trop grand"
  | exponentialOverflow => "exp: dépassement de capacité"
  | roundNotFinite => "round: valeur non finie"
  | roundPlacesNotInteger => "round: nombre de décimales non entier"
  | rootIndexOutOfRange => "root: indice non représentable"
  | countTooLarge => "combinatoire: argument trop grand"

end Fault

/-- Why a calculation has no value. -/
inductive CalcError where
  | invalidCharacters
  | divisionByZero
  | domain
  | complexResult
  | invalidRoot
  | integerRequired (function : Counting)
  | invalidExpression (fault : Fault)
deriving DecidableEq

namespace CalcError

/-- The message for the screen; it does not tell the fault of an invalid expression. -/
def message : CalcError → String
  | invalidCharacters => "Error: Invalid Characters"
  | divisionByZero => "Error: Division by Zero"
  | domain => "Domain Error"
  | complexResult => "Complex Result"
  | invalidRoot => "Invalid Root"
  | integerRequired function => function.message
  | invalidExpression _ => "Error: Invalid Expression"

end CalcError
end SciCalc

/-! ## Results of steps that can fail

What a chain of steps with a result says about each step.
-/
namespace SciCalc.Outcome
variable {ε α β : Type}

theorem ok_eq_pure (a : α) : (Except.ok a : Except ε α) = pure a := rfl

theorem exists_of_bind {x : Except ε α} {f : α → Except ε β} {b : β} (h : x >>= f = .ok b) :
    ∃ a, x = .ok a ∧ f a = .ok b := by
  cases x with
  | error e => cases h
  | ok a => exact ⟨a, rfl, h⟩

theorem exists_of_map {x : Except ε α} {f : α → β} {b : β} (h : x.map f = .ok b) :
    ∃ a, x = .ok a ∧ f a = b := by
  cases x with
  | error e => cases h
  | ok a => exact ⟨a, rfl, Except.ok.inj h⟩

/-- Steps that agree on the result of the step in front of them come to the same. -/
theorem bind_congr_ok {x : Except ε α} {f g : α → Except ε β} (h : ∀ a, x = .ok a → f a = g a) :
    x >>= f = x >>= g := by
  cases x with
  | error e => rfl
  | ok a => exact h a rfl

end SciCalc.Outcome
