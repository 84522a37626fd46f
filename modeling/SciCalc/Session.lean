import SciCalc.Expr

/-! # Sessions

A session is what the calculator remembers between two expressions: the angle mode, and the
history of the expressions that had a value.  Evaluating an expression gives the text for the
screen, the value or the message of the error; only a value enters the history.  The angle mode is
chosen by its name.
-/
namespace SciCalc

/-! ## Names of the angle modes -/

/-- The refusal of a text that names no unit of angles; it holds the text as it was given. -/
structure ModeError where
  refused : String
deriving DecidableEq

/-- The message of the refusal. -/
def ModeError.message (_ : ModeError) : String :=
  "Angle mode must be 'DEG' or 'RAD'"

namespace AngleMode

/-- The unit's name. -/
def name : AngleMode → String
  | degrees => "DEG"
  | radians => "RAD"

/-- The other unit. -/
def toggle : AngleMode → AngleMode
  | degrees => radians
  | radians => degrees

/-- Reads the name of a unit, in any case and between any white space.  Only letters of ASCII change
their case.  Outside ASCII there are characters whose upper-case form has such letters, as `ß` has
`SS` and `ı` has `I`, but no such form is made of letters of the names. -/
def ofText (s : String) : Except ModeError AngleMode :=
  let upper := (Text.trim s.toList).map Char.toUpper
  if upper = degrees.name.toList then .ok degrees
  else if upper = radians.name.toList then .ok radians
  else .error ⟨s⟩

@[simp] theorem toggle_toggle (mode : AngleMode) : mode.toggle.toggle = mode := by
  cases mode <;> rfl

theorem ofText_name (mode : AngleMode) : ofText mode.name = .ok mode := by
  cases mode <;> rfl

end AngleMode

/-! ## What is remembered -/

/-- An expression as it was typed, and its value. -/
structure Entry where
  expression : String
  value : Value
deriving DecidableEq

/-- The state between two expressions; the history has the oldest entry first. -/
structure Session where
  mode : AngleMode := .degrees
  history : List Entry := []
deriving DecidableEq

/-- The value of a typed text in an angle mode; a blank text has none. -/
def calculate (mode : AngleMode) (typed : String) : Except CalcError (Option Value) := do
  let s ← Input.normalize typed.toList
  if s.isEmpty then return none
  let tree ← Expr.ofChars s
  let v ← tree.eval mode
  return some v

namespace Session

/-- The value of a typed text in the session's mode. -/
def calculate (session : Session) (typed : String) : Except CalcError (Option Value) :=
  SciCalc.calculate session.mode typed

/-- The session with one more entry in its history. -/
def record (session : Session) (entry : Entry) : Session :=
  { session with history := session.history ++ [entry] }

/-- Evaluates a typed text: the text for the screen, and the session after it. -/
def evaluate (session : Session) (typed : String) : String × Session :=
  match session.calculate typed with
  | .ok none => ("", session)
  | .ok (some v) => (String.ofList v.display, session.record ⟨typed, v⟩)
  | .error e => (e.message, session)

theorem evaluate_of_blank {session : Session} {typed : String}
    (h : session.calculate typed = .ok none) : session.evaluate typed = ("", session) := by
  simp only [evaluate, h]

theorem evaluate_of_value {session : Session} {typed : String} {v : Value}
    (h : session.calculate typed = .ok (some v)) :
    session.evaluate typed = (String.ofList v.display, session.record ⟨typed, v⟩) := by
  simp only [evaluate, h]

theorem evaluate_of_error {session : Session} {typed : String} {e : CalcError}
    (h : session.calculate typed = .error e) :
    session.evaluate typed = (e.message, session) := by
  simp only [evaluate, h]

/-- Evaluating an expression does not change the angle mode. -/
theorem mode_evaluate (session : Session) (typed : String) :
    (session.evaluate typed).2.mode = session.mode := by
  unfold evaluate
  split <;> rfl

/-- Changes the angle mode to the one that a text names. -/
def setMode (session : Session) (text : String) : Except ModeError Session :=
  (AngleMode.ofText text).map fun mode => { session with mode }

theorem setMode_name (session : Session) (mode : AngleMode) :
    session.setMode mode.name = .ok { session with mode } := by
  rw [setMode, AngleMode.ofText_name]
  rfl

/-- The session with an empty history. -/
def clearHistory (session : Session) : Session :=
  { session with history := [] }

end Session
end SciCalc
