import SciCalc.Session

/-! # The calculator and its window

A keypad and a text field are all there is to type an expression with.  The calculator holds the
text on its display and the session; the window around it holds the place of the keyboard.
-/
namespace SciCalc

/-! ## The keypad

Nine rows of keys below the display.  Three keys act on the display; every other key inserts a
text: its label, and an opening parenthesis behind it if the label names a function.
-/

/-- What pressing a key does. -/
inductive KeyAction where
  | clear
  | eraseLast
  | evaluate
  | insert (text : String)
deriving DecidableEq

namespace Keypad

/-- The labels of the keys, row by row; the last row has one key less. -/
def rows : List (List String) :=
  [["C", "⌫", "(", ")"],
   ["sin", "cos", "tan", "^"],
   ["ln", "log", "sqrt", "root"],
   ["fact", "nPr", "nCr", "exp"],
   ["pi", "e", "%", "/"],
   ["7", "8", "9", "*"],
   ["4", "5", "6", "-"],
   ["1", "2", "3", "+"],
   ["0", ".", "="]]

/-- The labels of all keys. -/
def labels : List String :=
  rows.flatten

/-- The labels that name functions. -/
def functions : List String :=
  ["sin", "cos", "tan", "ln", "log", "sqrt", "root", "fact", "nPr", "nCr", "exp"]

/-- What the key of a label does. -/
def action (label : String) : KeyAction :=
  if label = "C" then .clear
  else if label = "⌫" then .eraseLast
  else if label = "=" then .evaluate
  else if functions.contains label then .insert (label ++ "(")
  else .insert label

end Keypad

/-! ## The calculator behind its window

The display holds one text, which keys extend and shorten at its end.  Evaluating replaces it with
the result or with the message of the error.  Erasing takes away what one key inserted: a name
with its parenthesis, or `pi`, goes as a whole, and any other character on its own.
-/

/-- The texts that are erased as a whole, in the order in which they are tried. -/
def erasedWhole : List String :=
  ["log10(", "sqrt(", "root(", "fact(", "sin(", "cos(", "tan(", "log(", "nPr(", "nCr(", "exp(",
   "ln(", "pi"]

/-- A text without its last key: without the first of `erasedWhole` that it ends with, or else
without its last character. -/
def eraseLastKey (s : List Char) : List Char :=
  match erasedWhole.find? fun t => t.toList.isSuffixOf s with
  | some t => s.take (s.length - t.toList.length)
  | none => s.dropLast

/-- What the window shows and remembers. -/
structure Calculator where
  /-- The text on the display. -/
  display : String := ""
  session : Session := {}
  /-- Whether the display asks for the keyboard. -/
  wantsFocus : Bool := true
  historyOpen : Bool := false
deriving DecidableEq

namespace Calculator

/-- Puts a text at the end of the display. -/
def insert (c : Calculator) (text : String) : Calculator :=
  { c with display := c.display ++ text, wantsFocus := true }

/-- Takes the last key's text off the display. -/
def eraseLast (c : Calculator) : Calculator :=
  { c with display := String.ofList (eraseLastKey c.display.toList), wantsFocus := true }

/-- Empties the display. -/
def clear (c : Calculator) : Calculator :=
  { c with display := "", wantsFocus := true }

/-- Evaluates the display and shows the outcome on it. -/
def evaluate (c : Calculator) : Calculator :=
  let (shown, session) := c.session.evaluate c.display
  { c with display := shown, session, wantsFocus := true }

/-- Asks the session for the other angle mode, by its name.  A refusal would leave the session as it
is. -/
def toggleMode (c : Calculator) : Calculator :=
  let session :=
    match c.session.setMode c.session.mode.toggle.name with
    | .ok session => session
    | .error _ => c.session
  { c with session, wantsFocus := true }

/-- The other mode is never refused. -/
theorem session_toggleMode (c : Calculator) :
    c.toggleMode.session = { c.session with mode := c.session.mode.toggle } := by
  rw [toggleMode, Session.setMode_name]

/-- The label of the mode button. -/
def modeLabel (c : Calculator) : String :=
  "Mode: " ++ c.session.mode.name

/-- Empties the history. -/
def clearHistory (c : Calculator) : Calculator :=
  { c with session := c.session.clearHistory, wantsFocus := true }

/-- Opens the history panel, or closes it. -/
def toggleHistory (c : Calculator) : Calculator :=
  { c with historyOpen := !c.historyOpen }

/-- Does what a key of the keypad does. -/
def perform (c : Calculator) : KeyAction → Calculator
  | .clear => c.clear
  | .eraseLast => c.eraseLast
  | .evaluate => c.evaluate
  | .insert text => c.insert text

end Calculator

/-! ## The window

Below the display stand the mode button, the keypad, and a panel with the history that a header
opens and closes.  The display can have the keyboard; then typing inserts at its cursor and Enter
evaluates it.  Clicking anything takes the keyboard away, and every button gives it back.

A window is described at rest, after everything that a click or a key sets off has been done.
-/

/-- The calculator with the keyboard's place: whether the display has it, and where its cursor
stands, counted in characters. -/
structure Window where
  calculator : Calculator := {}
  focused : Bool := false
  cursor : Nat := 0
deriving DecidableEq

/-- What a user does. -/
inductive UserEvent where
  /-- Click what is labelled with a text. -/
  | press (label : String)
  /-- Click the mode button. -/
  | mode
  /-- Click the header of the history. -/
  | header
  /-- Click the button that erases the history. -/
  | erase
  | type (text : String)
  | enter
  | escape
deriving DecidableEq

namespace Window

/-- The label of the button that erases the history. -/
def eraseLabel : String := "Effacer l’historique"

/-- What the panel says when there is no history. -/
def emptyHistory : String := "vide"

/-- The header of the history, with the number of entries. -/
def header (w : Window) : String :=
  "Historique (" ++ toString w.calculator.session.history.length ++ ")"

/-- An entry of the history in one line: the expression without white space around it, and its
value. -/
def line (entry : Entry) : String :=
  String.ofList (Text.trim entry.expression.toList ++ ' ' :: '=' :: ' ' :: entry.value.display)

/-- The text of the open panel: a line for each entry, the newest first. -/
def panelBody (w : Window) : String :=
  match w.calculator.session.history with
  | [] => emptyHistory
  | entries => String.intercalate "\n" (entries.reverse.map line)

/-- What the panel shows: nothing while it is closed. -/
def panel (w : Window) : List String :=
  if w.calculator.historyOpen then [w.panelBody, eraseLabel] else []

/-- The texts of the buttons below the display, row by row. -/
def rows (w : Window) : List (List String) :=
  [w.calculator.modeLabel] :: Keypad.rows ++ [[w.header]]

/-! ### Events -/

/-- The window at rest: the display gets the keyboard if it asked for it, and the cursor stands
within the text. -/
def settle (w : Window) : Window :=
  { calculator := { w.calculator with wantsFocus := false }
    focused := w.focused || w.calculator.wantsFocus
    cursor := min w.cursor w.calculator.display.length }

/-- Clicks something: the display loses the keyboard, and then the click has its effect. -/
def click (w : Window) (effect : Calculator → Calculator) : Window :=
  { w with calculator := effect w.calculator, focused := false }

/-- Clicks what is labelled with a text, if anything is. -/
def press (w : Window) (label : String) : Window :=
  if Keypad.labels.contains label then w.click (·.perform (Keypad.action label))
  else if label = w.calculator.modeLabel then w.click Calculator.toggleMode
  else if label = w.header then w.click Calculator.toggleHistory
  else if w.calculator.historyOpen && label = eraseLabel then w.click Calculator.clearHistory
  else if w.calculator.historyOpen && label = w.panelBody then w.click id
  else w

/-- Types a text into the display, if it has the keyboard. -/
def typeText (w : Window) (text : String) : Window :=
  if w.focused then
    let s := w.calculator.display.toList
    let shown := s.take w.cursor ++ text.toList ++ s.drop w.cursor
    { w with
      calculator := { w.calculator with display := String.ofList shown }
      cursor := w.cursor + text.length }
  else w

/-- What an event does, before the window comes to rest. -/
def react (w : Window) : UserEvent → Window
  | .press label => w.press label
  | .mode => w.click Calculator.toggleMode
  | .header => w.click Calculator.toggleHistory
  | .erase => if w.calculator.historyOpen then w.click Calculator.clearHistory else w
  | .type text => w.typeText text
  | .enter => if w.focused then { w with calculator := w.calculator.evaluate } else w
  | .escape => { w with calculator := w.calculator.clear }

/-- The window after an event. -/
def step (w : Window) (event : UserEvent) : Window :=
  (w.react event).settle

/-- The window when it opens. -/
def fresh : Window :=
  settle {}

end Window
end SciCalc
