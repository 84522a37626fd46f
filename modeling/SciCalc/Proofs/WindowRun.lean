import SciCalc.Proofs.SessionRun
import SciCalc.Window

/-! # Runs of a window

What a window shows after any events in any order (`run_shows`).  The events are told apart by what
they do in the window in which they happen, so a run is looked at as a list of scenes: each event
with the window before it.

An evaluation succeeds if the expression on the display has a value; it is asked for by the key `=`,
and by Enter when the display has the keyboard.  An erasing has an effect only while the panel is
open.  The header, the panel and the history of the session tell the same: the entries of the
evaluations that succeeded since the last erasing that had an effect.
-/
namespace SciCalc

theorem Keypad.action_eq_evaluate_iff {label : String} :
    action label = .evaluate ↔ label = "=" := by
  unfold action
  split_ifs <;> simp_all

/-! ## Evaluating the display -/

namespace Calculator
variable (c : Calculator)

/-- The entry of the expression on the display, if it has a value. -/
def outcome? : Option Entry :=
  Session.entryOf c.session.mode (.evaluate c.display)

theorem history_evaluate :
    c.evaluate.session.history = c.session.history ++ c.outcome?.toList :=
  c.session.history_after (.evaluate c.display)

theorem mode_evaluate : c.evaluate.session.mode = c.session.mode :=
  c.session.mode_evaluate c.display

theorem outcome?_eq_some_iff {e : Entry} : c.outcome? = some e ↔
    e.expression = c.display ∧ c.session.calculate c.display = .ok (some e.value) := by
  rw [outcome?, Session.entryOf, Session.calculate]
  obtain ⟨expression, value⟩ := e
  cases calculate c.session.mode c.display with
  | error e => simp
  | ok v => cases v <;> simp [eq_comm]

/-- What is evaluated with success stands on the display as its value. -/
theorem display_evaluate {e : Entry} (h : c.outcome? = some e) :
    c.evaluate.display = String.ofList e.value.display := by
  rw [evaluate, Session.evaluate_of_value (c.outcome?_eq_some_iff.mp h).2]

/-- Of the keys, only the one that evaluates touches the session. -/
theorem session_perform {action : KeyAction} (h : action ≠ .evaluate) :
    (c.perform action).session = c.session := by
  cases action with
  | evaluate => exact absurd rfl h
  | clear | eraseLast | insert text => rfl

theorem historyOpen_perform (action : KeyAction) :
    (c.perform action).historyOpen = c.historyOpen := by
  cases action <;> rfl

end Calculator

/-- What is pressed is a key of the keypad. -/
def UserEvent.OnKeypad : UserEvent → Prop
  | .press label => label ∈ Keypad.labels
  | _ => True

namespace Window

/-! ## Scenes -/

/-- The window after events, one after the other. -/
def run (w : Window) (events : List UserEvent) : Window :=
  events.foldl step w

/-- Each event, with the window in which it happens. -/
def scenes (w : Window) : List UserEvent → List (Window × UserEvent)
  | [] => []
  | event :: rest => (w, event) :: (w.step event).scenes rest

/-- Whether an event evaluates the display: the key `=`, and Enter when the display has the
keyboard. -/
def evaluates : Window × UserEvent → Bool
  | (_, .press label) => label == "="
  | (w, .enter) => w.focused
  | _ => false

/-- The entry of an event that evaluates the display with success. -/
def success? (scene : Window × UserEvent) : Option Entry :=
  if evaluates scene then scene.1.calculator.outcome? else none

/-- Whether an event erases the history: the button is there while the panel is open. -/
def erases (scene : Window × UserEvent) : Bool :=
  scene.2 = .erase && scene.1.calculator.historyOpen

/-- The entries of the evaluations that succeeded since the last erasing. -/
def successes (w : Window) (events : List UserEvent) : List Entry :=
  ((w.scenes events).rtakeWhile fun scene => !erases scene).filterMap success?

section Concat
variable (w : Window) (events : List UserEvent) (event : UserEvent)

theorem run_concat : w.run (events ++ [event]) = (w.run events).step event := by
  rw [run, List.foldl_append]
  rfl

theorem scenes_concat :
    w.scenes (events ++ [event]) = w.scenes events ++ [(w.run events, event)] := by
  induction events generalizing w with
  | nil => rfl
  | cons first rest ih => exact congrArg ((w, first) :: ·) (ih (w.step first))

theorem successes_concat : w.successes (events ++ [event]) =
    if erases (w.run events, event) then []
    else w.successes events ++ (success? (w.run events, event)).toList := by
  rw [successes, scenes_concat, List.rtakeWhile_concat]
  by_cases herase : erases (w.run events, event)
  · simp [herase]
  · cases hentry : success? (w.run events, event) <;> simp [herase, hentry, successes]

end Concat

/-! ## A window at rest -/

/-- The display has the keyboard if it asked for it, and the cursor stands within the text. -/
structure AtRest (w : Window) : Prop where
  served : w.calculator.wantsFocus = false
  inside : w.cursor ≤ w.calculator.display.length

variable {w : Window} {event : UserEvent}

theorem atRest_settle (w : Window) : w.settle.AtRest :=
  ⟨rfl, Nat.min_le_right _ _⟩

theorem AtRest.settle (h : w.AtRest) : w.settle = w := by
  obtain ⟨⟨display, session, wants, historyOpen⟩, focused, cursor⟩ := w
  obtain ⟨rfl, hcursor⟩ := h
  simp only [Window.settle, Bool.or_false, Nat.min_eq_left hcursor]

/-- Without the keyboard, neither typing nor Enter does anything. -/
theorem AtRest.step_of_unfocused (h : w.AtRest) (hfocus : w.focused = false) :
    (∀ text, w.step (.type text) = w) ∧ w.step .enter = w := by
  have hoff : ¬ w.focused = true := Bool.not_eq_true _ ▸ hfocus
  constructor
  · intro text
    rw [step, react, typeText, if_neg hoff, h.settle]
  · rw [step, react, if_neg hoff, h.settle]

theorem atRest_run (events : List UserEvent) : (fresh.run events).AtRest := by
  induction events using List.reverseRecOn with
  | nil => exact atRest_settle _
  | append_singleton events event ih =>
    rw [run_concat]
    exact atRest_settle _

/-! ## One event -/

theorem press_of_key {label : String} (h : label ∈ Keypad.labels) :
    w.press label = w.click (·.perform (Keypad.action label)) :=
  if_pos (List.contains_iff_mem.mpr h)

theorem step_of_evaluates (h : evaluates (w, event) = true) :
    (w.step event).calculator = { w.calculator.evaluate with wantsFocus := false } := by
  cases event with
  | press label =>
    have hlabel : label = "=" := eq_of_beq h
    subst hlabel
    rfl
  | enter =>
    have hfocus : w.focused = true := h
    rw [step, react, if_pos hfocus, settle]
  | mode | header | erase | type text | escape => cases h

theorem erases_of_evaluates (h : evaluates (w, event) = true) : erases (w, event) = false := by
  cases event with
  | erase => cases h
  | _ => rfl

/-- What an event does to the session. -/
theorem session_step (h : event.OnKeypad) : (w.step event).calculator.session =
    if evaluates (w, event) then w.calculator.evaluate.session
    else if event = .mode then
      { w.calculator.session with mode := w.calculator.session.mode.toggle }
    else if erases (w, event) then w.calculator.session.clearHistory
    else w.calculator.session := by
  by_cases heval : evaluates (w, event) = true
  · rw [if_pos heval, step_of_evaluates heval]
  rw [if_neg heval]
  cases event with
  | press label =>
    have hkey : Keypad.action label ≠ .evaluate := by
      simpa [Keypad.action_eq_evaluate_iff, evaluates] using heval
    rw [step, react, press_of_key h]
    exact w.calculator.session_perform hkey
  | erase =>
    by_cases hopen : w.calculator.historyOpen = true
    · simp [step, react, erases, hopen, click, settle, Calculator.clearHistory]
    · simp [step, react, erases, hopen, settle]
  | enter =>
    have hfocus : ¬ w.focused = true := heval
    simp [step, react, erases, hfocus, settle]
  | type text =>
    rw [step, react, typeText]
    split <;> rfl
  | mode =>
    rw [if_pos rfl]
    exact w.calculator.session_toggleMode
  | header | escape => rfl

theorem history_step (h : event.OnKeypad) :
    (w.step event).calculator.session.history =
      if erases (w, event) then []
      else w.calculator.session.history ++ (success? (w, event)).toList := by
  rw [session_step h, success?]
  by_cases heval : evaluates (w, event) = true
  · simp [heval, erases_of_evaluates heval, Calculator.history_evaluate]
  · by_cases hmode : event = .mode
    · subst hmode
      simp [evaluates, erases]
    · by_cases herase : erases (w, event) = true <;>
        simp [heval, hmode, herase, Session.clearHistory]

theorem mode_step (h : event.OnKeypad) :
    (w.step event).calculator.session.mode =
      if event = .mode then w.calculator.session.mode.toggle else w.calculator.session.mode := by
  rw [session_step h]
  by_cases heval : evaluates (w, event) = true
  · have hmode : event ≠ .mode := by
      rintro rfl
      cases heval
    rw [if_pos heval, if_neg hmode, Calculator.mode_evaluate]
  · rw [if_neg heval]
    split
    · rfl
    · split <;> rfl

theorem historyOpen_step (h : event.OnKeypad) :
    (w.step event).calculator.historyOpen =
      if event = .header then !w.calculator.historyOpen else w.calculator.historyOpen := by
  cases event with
  | press label =>
    rw [step, react, press_of_key h]
    exact w.calculator.historyOpen_perform _
  | erase | enter =>
    rw [step, react]
    split <;> rfl
  | type text =>
    rw [step, react, typeText]
    split <;> rfl
  | mode | header | escape => rfl

/-! ## Runs -/

variable {events : List UserEvent}

theorem history_run (h : ∀ event ∈ events, event.OnKeypad) :
    (fresh.run events).calculator.session.history = fresh.successes events := by
  induction events using List.reverseRecOn with
  | nil => rfl
  | append_singleton events event ih =>
    obtain ⟨hevents, hevent⟩ := List.forall_mem_append.mp h
    rw [run_concat, history_step (hevent event List.mem_cons_self), ih hevents, successes_concat]

/-- A part of the window that one event switches and all others leave is switched after an odd
number of it. -/
theorem switch_run {α : Type} (part : Window → α) {flip : α → α} {switch : UserEvent}
    (hflip : Function.Involutive flip)
    (hstep : ∀ (w : Window) (event : UserEvent), event.OnKeypad →
      part (w.step event) = if event = switch then flip (part w) else part w)
    (h : ∀ event ∈ events, event.OnKeypad) :
    part (fresh.run events) =
      if Odd (events.count switch) then flip (part fresh) else part fresh := by
  induction events using List.reverseRecOn with
  | nil => rfl
  | append_singleton events event ih =>
    obtain ⟨hevents, hevent⟩ := List.forall_mem_append.mp h
    rw [run_concat, hstep _ _ (hevent event List.mem_cons_self), ih hevents, List.count_append,
      List.count_singleton]
    by_cases hswitch : event = switch
    · by_cases hodd : Odd (events.count switch) <;>
        simp [hswitch, hodd, Nat.odd_add_one, hflip (part fresh)]
    · simp [hswitch]

theorem mode_run (h : ∀ event ∈ events, event.OnKeypad) :
    (fresh.run events).calculator.session.mode =
      if Odd (events.count .mode) then .radians else .degrees :=
  switch_run (·.calculator.session.mode) AngleMode.toggle_toggle (fun _ _ => mode_step) h

theorem historyOpen_run (h : ∀ event ∈ events, event.OnKeypad) :
    (fresh.run events).calculator.historyOpen =
      if Odd (events.count .header) then true else false :=
  switch_run (·.calculator.historyOpen) Bool.involutive_not (fun _ _ => historyOpen_step) h

/-! ## What is shown -/

theorem line_eq (e : Entry) : line e =
    String.ofList (Text.trim e.expression.toList) ++ " = " ++ String.ofList e.value.display := by
  simp [line, ← String.toList_inj]

theorem panel_run (h : ∀ event ∈ events, event.OnKeypad) :
    (fresh.run events).panel =
      if Odd (events.count .header) then
        [if fresh.successes events = [] then emptyHistory
          else String.intercalate "\n" ((fresh.successes events).reverse.map line), eraseLabel]
      else [] := by
  have hbody : (fresh.run events).panelBody =
      if fresh.successes events = [] then emptyHistory
      else String.intercalate "\n" ((fresh.successes events).reverse.map line) := by
    rw [panelBody, history_run h]
    cases fresh.successes events <;> simp
  rw [panel, historyOpen_run h, hbody]
  by_cases hodd : Odd (events.count .header) <;> simp [hodd]

theorem modeLabel_run (h : ∀ event ∈ events, event.OnKeypad) :
    (fresh.run events).calculator.modeLabel =
      if Odd (events.count .mode) then "Mode: RAD" else "Mode: DEG" := by
  rw [Calculator.modeLabel, mode_run h]
  split <;> rfl

theorem successes_of_success? {e : Entry} (h : success? (fresh.run events, event) = some e) :
    fresh.successes (events ++ [event]) = fresh.successes events ++ [e] := by
  have heval := (Option.ite_none_right_eq_some.mp h).1
  simp [successes_concat, erases_of_evaluates heval, h]

/-- After a success the display is the right side of the line of its entry. -/
theorem display_step_of_success? {e : Entry} (h : success? (w, event) = some e) :
    (w.step event).calculator.display = String.ofList e.value.display := by
  rw [success?, Option.ite_none_right_eq_some] at h
  rw [step_of_evaluates h.1]
  exact w.calculator.display_evaluate h.2

/-- **The window shows what the session holds.**  After any events, the history has the entries of
the evaluations that succeeded since the last erasing that had an effect.  The header has their
number, and the panel a line for each of them, the newest first, or says that there is none.  The
panel is open after an odd number of clicks on the header, and the mode is that of radians after an
odd number of clicks on the mode button.

The next event keeps to this as well: a success puts its value on the display and its entry behind
the others; erasing leaves the display, the mode and the panel as they are; Escape empties the
display and leaves the session as it is; typing and Enter do nothing without the keyboard. -/
theorem run_shows (events : List UserEvent) (h : ∀ event ∈ events, event.OnKeypad) :
    let w := fresh.run events
    let entries := fresh.successes events
    w.calculator.session.history = entries ∧
    w.header = "Historique (" ++ toString entries.length ++ ")" ∧
    w.panel = (if Odd (events.count .header) then
      [if entries = [] then "vide" else String.intercalate "\n" (entries.reverse.map fun e =>
        String.ofList (Text.trim e.expression.toList) ++ " = " ++ String.ofList e.value.display),
        "Effacer l’historique"]
      else []) ∧
    w.calculator.modeLabel =
      (if Odd (events.count .mode) then "Mode: RAD" else "Mode: DEG") ∧
    (∀ event e, success? (w, event) = some e →
      fresh.successes (events ++ [event]) = entries ++ [e] ∧
      e.expression = w.calculator.display ∧
      (w.step event).calculator.display = String.ofList e.value.display) ∧
    ((w.step .erase).calculator.display = w.calculator.display ∧
      (w.step .erase).calculator.session.mode = w.calculator.session.mode ∧
      (w.step .erase).calculator.historyOpen = w.calculator.historyOpen) ∧
    ((w.step .escape).calculator.display = "" ∧
      (w.step .escape).calculator.session = w.calculator.session) ∧
    (w.focused = false → (∀ text, w.step (.type text) = w) ∧ w.step .enter = w) := by
  intro w entries
  have hpanel := panel_run h
  rw [List.map_congr_left fun e _ => line_eq e] at hpanel
  refine ⟨history_run h, ?_, hpanel, modeLabel_run h, fun event e he => ?_, ?_, ⟨rfl, rfl⟩,
    (atRest_run events).step_of_unfocused⟩
  · rw [header, history_run h]
  · have hentry := (Option.ite_none_right_eq_some.mp he).2
    exact ⟨successes_of_success? he, (w.calculator.outcome?_eq_some_iff.mp hentry).1,
      display_step_of_success? he⟩
  · rw [step, react]
    split <;> exact ⟨rfl, rfl, rfl⟩

/-- Two evaluations, the second of the first one's result, with the panel open and the mode
changed. -/
theorem run_shows_two_lines :
    let events : List UserEvent := [.type " 2^3 ", .enter, .mode, .press "-", .press "1",
      .press "=", .header]
    (∀ event ∈ events, event.OnKeypad) ∧
      (fresh.run events).header = "Historique (2)" ∧
      (fresh.run events).panel = ["8-1 = 7\n2^3 = 8", "Effacer l’historique"] ∧
      (fresh.run events).calculator.modeLabel = "Mode: RAD" := by
  intro events
  have hkeys : ∀ event ∈ events, event.OnKeypad := by
    simp [events, UserEvent.OnKeypad, Keypad.labels, Keypad.rows]
  have hentries : fresh.successes events = [⟨" 2^3 ", .int 8⟩, ⟨"8-1", .int 7⟩] := by decide +kernel
  obtain ⟨-, hheader, hpanel, hmode, -⟩ := run_shows events hkeys
  rw [hentries] at hheader hpanel
  exact ⟨hkeys, hheader, hpanel, hmode⟩

end Window
end SciCalc
