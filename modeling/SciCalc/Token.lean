import SciCalc.Value

/-! # From typed text to tokens

What is typed is first brought into the form that the lexer reads, and is then read as a list of
tokens.
-/
namespace SciCalc.Text

/-! ## White space

The characters that count as blank are those with the Unicode property `White_Space`:
twenty-five code points in ten runs.  The lexer skips them, the input filter lets them
through, and an expression is stripped of them at both ends before it is read.
-/

/-- The runs of code points with the property `White_Space`, first and last of each. -/
def blankRuns : List (Nat × Nat) :=
  [(0x09, 0x0D), (0x20, 0x20), (0x85, 0x85), (0xA0, 0xA0), (0x1680, 0x1680),
   (0x2000, 0x200A), (0x2028, 0x2029), (0x202F, 0x202F), (0x205F, 0x205F), (0x3000, 0x3000)]

/-- Whether a character is white space. -/
def isBlank (c : Char) : Bool :=
  blankRuns.any fun run => run.1 ≤ c.toNat && c.toNat ≤ run.2

/-- The text without its leading white space. -/
def trimLeft (s : List Char) : List Char :=
  s.dropWhile isBlank

/-- The text without white space at either end. -/
def trim (s : List Char) : List Char :=
  (trimLeft (trimLeft s).reverse).reverse

end SciCalc.Text

/-! ## Typed text

What is typed is brought into the form that the lexer reads: white space at both ends is dropped,
the multiplication and division signs of the keyboard become `*` and `/`, and a caret becomes the
power operator.  After that only letters, digits, the underscore, the marks of the language and
white space are allowed.
-/
namespace SciCalc.Input

/-- The spelling of a typed character. -/
def spelling : Char → List Char
  | '×' => ['*']
  | '÷' => ['/']
  | '^' => ['*', '*']
  | c => [c]

/-- The marks of the language. -/
def marks : List Char :=
  ['+', '-', '*', '/', '%', '.', '(', ')', ',']

/-- Whether a character may stand in an expression. -/
def isAllowed (c : Char) : Bool :=
  c.isAlphanum || c == '_' || marks.contains c || Text.isBlank c

/-- The expression that a typed text stands for; it is empty for a blank text. -/
def normalize (typed : List Char) : Except CalcError (List Char) :=
  let s := (Text.trim typed).flatMap spelling
  if s.all isAllowed then .ok s else .error .invalidCharacters

end SciCalc.Input

/-! ## Tokens

An expression is read as a list of tokens.  The same tokens, reordered, make up its postfix form,
which has two more: negation, and the call of a function with a number of arguments.
-/
namespace SciCalc

/-- A token of an expression or of its postfix form. -/
inductive Token where
  | num (v : Value)
  | name (text : String)
  | op (o : BinOp)
  | comma
  | lparen
  | rparen
  /-- Negation, in postfix form only. -/
  | neg
  /-- The call of a named function, in postfix form only. -/
  | call (name : String) (count : Nat)
deriving DecidableEq

namespace Token

/-- The written form of a token. -/
def text : Token → List Char
  | num v => v.literal
  | name s => s.toList
  | op o => o.symbol
  | comma => [',']
  | lparen => ['(']
  | rparen => [')']
  | neg => ['n', 'e', 'g']
  | call f count => f.toList ++ '/' :: Decimal.digits count

/-- The written form of a list of tokens, with a space between any two. -/
def render : List Token → List Char
  | [] => []
  | [t] => t.text
  | t :: rest => t.text ++ ' ' :: render rest

end Token

/-! ## Reading tokens

A text is cut from left to right into white space and lexemes, each as long as possible: the
marks `( ) , + - / % * **`, names, and numerals.  The first character that starts none of them is
an error.

A numeral has digits on at least one side of its point, and its exponent belongs to it only if
digits follow the letter: `2e` is a numeral and a name.  A numeral of digits alone is an exact
integer, any other a floating-point number.
-/

/-- A letter or an underscore, which may start a name. -/
def startsName (c : Char) : Bool :=
  c.isAlpha || c == '_'

/-- A letter, a digit or an underscore, which may continue a name. -/
def continuesName (c : Char) : Bool :=
  c.isAlphanum || c == '_'

namespace Lexer

open Decimal.Numeral (spanDigits)

/-- Splits off the point at the front and the digits behind it. -/
def spanFraction : List Char → List Char × List Char
  | '.' :: rest => ('.' :: (spanDigits rest).1, (spanDigits rest).2)
  | rest => ([], rest)

/-- Splits off a sign. -/
def spanSign : List Char → List Char × List Char
  | '+' :: rest => (['+'], rest)
  | '-' :: rest => (['-'], rest)
  | rest => ([], rest)

/-- Splits off an exponent: a letter `e` of either case, a sign or none, and at least one digit. -/
def spanExponent : List Char → List Char × List Char
  | [] => ([], [])
  | c :: rest =>
    let (sign, afterSign) := spanSign rest
    let (exponent, afterDigits) := spanDigits afterSign
    if (c = 'e' ∨ c = 'E') ∧ exponent ≠ [] then (c :: sign ++ exponent, afterDigits)
    else ([], c :: rest)

/-- Splits off the longest numeral. -/
def spanNumeral (s : List Char) : List Char × List Char :=
  let (whole, afterWhole) := spanDigits s
  let (fraction, afterFraction) := spanFraction afterWhole
  let (exponent, rest) := spanExponent afterFraction
  (whole ++ fraction ++ exponent, rest)

/-- The value of a numeral. -/
def numeralValue (s : List Char) : Except CalcError Value :=
  if s.all Char.isDigit then
    match Decimal.natural? s with
    | some n => .ok (.int n)
    | none => .error (.invalidExpression (.unreadableInteger (String.ofList s)))
  else
    match Decimal.Numeral.read? s with
    | some d => .ok (.real (d.toBinary64 false))
    | none => .error (.invalidExpression (.unreadableReal (String.ofList s)))

/-- The token of a mark that is a single character and starts no longer one. -/
def mark? : Char → Option Token
  | '(' => some .lparen
  | ')' => some .rparen
  | ',' => some .comma
  | '+' => some (.op .add)
  | '-' => some (.op .sub)
  | '/' => some (.op .div)
  | '%' => some (.op .mod)
  | _ => none

/-- Whether a numeral starts with `c`, given what follows it. -/
def startsNumeral (c : Char) (rest : List Char) : Bool :=
  c.isDigit ||
    (c == '.' &&
      match rest with
      | d :: _ => d.isDigit
      | [] => false)

/-- What stands at the front of a text: white space, or a lexeme with its token. -/
inductive Piece where
  | blank
  | token (t : Token)

/-- Cuts the first piece off the text `c :: rest`; gives the piece and what follows it. -/
def piece (c : Char) (rest : List Char) : Except CalcError (Piece × List Char) :=
  if Text.isBlank c then .ok (.blank, rest)
  else
    match mark? c with
    | some t => .ok (.token t, rest)
    | none =>
      if c = '*' then
        match rest with
        | '*' :: rest => .ok (.token (.op .pow), rest)
        | rest => .ok (.token (.op .mul), rest)
      else if startsName c then
        .ok (.token (.name (String.ofList (c :: rest.takeWhile continuesName))),
          rest.dropWhile continuesName)
      else if startsNumeral c rest then
        let (numeral, after) := spanNumeral (c :: rest)
        (numeralValue numeral).map fun v => (.token (.num v), after)
      else .error (.invalidExpression (.unexpectedCharacter c))

/-! ### Every piece shortens the text -/

theorem length_dropWhile_le (p : Char → Bool) (s : List Char) :
    (s.dropWhile p).length ≤ s.length :=
  (List.dropWhile_suffix p).length_le

theorem length_spanFraction_le (s : List Char) : (spanFraction s).2.length ≤ s.length := by
  unfold spanFraction
  split
  · exact Nat.le_trans (length_dropWhile_le _ _) (Nat.le_succ _)
  · exact Nat.le_refl _

theorem length_spanSign_le (s : List Char) : (spanSign s).2.length ≤ s.length := by
  unfold spanSign
  split <;> simp

theorem length_spanExponent_le (s : List Char) : (spanExponent s).2.length ≤ s.length := by
  unfold spanExponent
  split
  · simp
  · rename_i c rest
    dsimp only
    split
    · have h₁ := length_spanSign_le rest
      have h₂ := length_dropWhile_le Char.isDigit (spanSign rest).2
      simp only [spanDigits, List.length_cons]
      omega
    · simp

/-- A numeral that starts a text is not empty. -/
theorem length_spanNumeral_lt {c : Char} {rest : List Char} (h : startsNumeral c rest = true) :
    (spanNumeral (c :: rest)).2.length < (c :: rest).length := by
  have hexp := length_spanExponent_le
    (spanFraction ((c :: rest).dropWhile Char.isDigit)).2
  have hfrac := length_spanFraction_le ((c :: rest).dropWhile Char.isDigit)
  simp only [spanNumeral, spanDigits]
  by_cases hc : c.isDigit = true
  · have hdrop := length_dropWhile_le Char.isDigit rest
    rw [List.dropWhile_cons_of_pos hc] at hexp hfrac ⊢
    simp only [List.length_cons]
    omega
  · have hdot : c = '.' := by
      simp only [startsNumeral, hc, Bool.false_or, Bool.and_eq_true, beq_iff_eq] at h
      exact h.1
    subst hdot
    rw [List.dropWhile_cons_of_neg hc] at hexp ⊢
    have hdrop := length_dropWhile_le Char.isDigit rest
    simp only [spanFraction, spanDigits, List.length_cons] at hexp ⊢
    omega

theorem length_piece_lt {c : Char} {rest after : List Char} {p : Piece}
    (h : piece c rest = .ok (p, after)) : after.length < (c :: rest).length := by
  have hname := length_dropWhile_le continuesName rest
  unfold piece at h
  split at h
  · cases h; simp
  · split at h
    · cases h; simp
    · split at h
      · split at h <;> cases h <;> simp only [List.length_cons] <;> omega
      · split at h
        · cases h
          simp only [List.length_cons]
          omega
        · split at h
          · rename_i hstart
            have hlt := length_spanNumeral_lt hstart
            revert h
            cases hv : numeralValue (spanNumeral (c :: rest)).1 with
            | error e => simp [hv, Except.map]
            | ok v =>
              simp only [hv, Except.map, Except.ok.injEq, Prod.mk.injEq]
              rintro ⟨-, rfl⟩
              exact hlt
          · cases h

end Lexer

/-- The tokens of a text. -/
def Token.ofChars : List Char → Except CalcError (List Token)
  | [] => .ok []
  | c :: rest =>
    match _h : Lexer.piece c rest with
    | .error e => .error e
    | .ok (.blank, after) => Token.ofChars after
    | .ok (.token t, after) => (Token.ofChars after).map (t :: ·)
termination_by s => s.length
decreasing_by all_goals exact Lexer.length_piece_lt _h

end SciCalc
