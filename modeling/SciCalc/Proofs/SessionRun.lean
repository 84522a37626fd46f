import Mathlib
import SciCalc.Proofs.Blank
import SciCalc.Session

/-! # Runs of a session

What a session holds after any requests in any order (`run_exact`).  The history and the mode are
told from the requests alone, without running them one by one:

* the mode is the one of the last request that names a mode;
* every place in the list of requests has at most one entry (`entryAt`): an evaluation that has a
  value in the mode that the requests before it leave, and that no clearing follows.  The history
  is the list of these entries, from the first place to the last.
-/
namespace SciCalc

/-! ## The names of the modes -/

theorem toUpper_eq_iff {c d : Char} (hd : d.isUpper) : c.toUpper = d ↔ c = d ∨ c = d.toLower := by
  have hd' : 'A'.val ≤ d.val ∧ d.val ≤ 'Z'.val := by simpa [Char.isUpper] using hd
  rw [Char.ext_iff, Char.ext_iff, Char.ext_iff, Char.toUpper, Char.toLower, dif_pos hd']
  split <;> grind

theorem map_toUpper_eq_iff {s word : List Char} (hword : ∀ d ∈ word, d.isUpper) :
    s.map Char.toUpper = word ↔ List.Forall₂ (fun c d => c = d ∨ c = d.toLower) s word := by
  induction word generalizing s with
  | nil => simp
  | cons d word ih =>
    obtain ⟨hd, hword⟩ := List.forall_mem_cons.mp hword
    cases s with
    | nil => simp
    | cons c s => simp [toUpper_eq_iff hd, ih hword]

namespace AngleMode
variable {text : String} {mode : AngleMode}

theorem isUpper_name (mode : AngleMode) : ∀ d ∈ mode.name.toList, d.isUpper :=
  List.all_eq_true.mp (by cases mode <;> decide)

/-- A text names a mode: between white space it is the name of the mode, each letter in either
case. -/
def Names (text : String) (mode : AngleMode) : Prop :=
  ∃ left core right, text.toList = left ++ core ++ right ∧ Text.Blank left ∧ Text.Blank right ∧
    List.Forall₂ (fun c d => c = d ∨ c = d.toLower) core mode.name.toList

/-- What the letters of a name have in either case, every character has that becomes one of them. -/
theorem of_toUpper_mem_name {p : Char → Bool} {c : Char}
    (hp : mode.name.toList.all fun d => p d && p d.toLower)
    (hc : c.toUpper ∈ mode.name.toList) : p c := by
  obtain ⟨hbig, hsmall⟩ := Bool.and_eq_true_iff.mp (List.all_eq_true.mp hp _ hc)
  rcases (toUpper_eq_iff (mode.isUpper_name _ hc)).mp rfl with h | h
  · rwa [h]
  · rwa [h]

theorem trimmed_of_map_toUpper {core : List Char}
    (h : core.map Char.toUpper = mode.name.toList) : Text.Trimmed core := by
  refine Text.trimmed_of_forall fun c hc => ?_
  have hup : c.toUpper ∈ mode.name.toList := h ▸ List.mem_map_of_mem hc
  have hblank : !Text.isBlank c :=
    of_toUpper_mem_name (p := fun c => !Text.isBlank c) (by cases mode <;> decide) hup
  simpa using hblank

theorem names_iff : Names text mode ↔
    (Text.trim text.toList).map Char.toUpper = mode.name.toList := by
  constructor
  · rintro ⟨left, core, right, htext, hl, hr, hcore⟩
    have hup := (map_toUpper_eq_iff mode.isUpper_name).mpr hcore
    rw [htext, Text.trim_append hl hr (trimmed_of_map_toUpper hup), hup]
  · intro h
    obtain ⟨-, left, right, hl, hr, htext⟩ := Text.trim_eq_iff.mp (Eq.refl (Text.trim text.toList))
    exact ⟨left, _, right, htext, hl, hr, (map_toUpper_eq_iff mode.isUpper_name).mp h⟩

/-- The names are the same if the case is changed by a table that gives characters outside ASCII an
upper-case form too, of one or more characters, as long as no such form is made of letters of the
name. -/
theorem names_iff_flatMap {upper : Char → List Char}
    (hascii : ∀ c, c.toNat < 128 → upper c = [c.toUpper])
    (hother : ∀ c, 128 ≤ c.toNat → ∃ d ∈ upper c, d ∉ mode.name.toList) :
    Names text mode ↔ (Text.trim text.toList).flatMap upper = mode.name.toList := by
  rw [names_iff]
  generalize Text.trim text.toList = s
  by_cases hall : ∀ c ∈ s, c.toNat < 128
  · have hsame : s.flatMap upper = s.map Char.toUpper := by
      rw [List.map_eq_flatMap]
      exact List.flatMap_congr fun c hc => hascii c (hall c hc)
    rw [hsame]
  · -- However its case is changed, a character outside ASCII gives one that the name does not have.
    push Not at hall
    obtain ⟨c, hc, hfar⟩ := hall
    refine iff_of_false (fun h => ?_) (fun h => ?_)
    · have hup : c.toUpper ∈ mode.name.toList := h ▸ List.mem_map_of_mem hc
      have hnear : decide (c.toNat < 128) :=
        of_toUpper_mem_name (p := fun c => c.toNat < 128) (by cases mode <;> decide) hup
      exact (of_decide_eq_true hnear).not_ge hfar
    · obtain ⟨d, hd, hname⟩ := hother c hfar
      exact hname (h ▸ List.mem_flatMap.mpr ⟨c, hc, hd⟩)

/-- A mode is read from its names, and from nothing else. -/
theorem ofText_eq_ok_iff : ofText text = .ok mode ↔ Names text mode := by
  rw [names_iff, ofText]
  generalize (Text.trim text.toList).map Char.toUpper = upper
  have hne : degrees.name.toList ≠ radians.name.toList := by decide
  split
  · subst upper
    cases mode <;> simp [hne]
  · split
    · subst upper
      cases mode <;> simp [hne.symm]
    · cases mode <;> simp_all

/-- Any other text is refused as it was given. -/
theorem ofText_eq_error_iff {e : ModeError} :
    ofText text = .error e ↔ (¬ ∃ mode, Names text mode) ∧ e = ⟨text⟩ := by
  have herror : ∀ e', ofText text = .error e' → e' = ⟨text⟩ := by
    intro e' h
    rw [ofText] at h
    split at h
    · cases h
    · split at h
      · cases h
      · exact (Except.error.inj h).symm
  simp only [← ofText_eq_ok_iff]
  cases h : ofText text with
  | ok mode => simp
  | error e' => simp [herror e' h, eq_comm]

end AngleMode

/-! ## Requests -/

namespace Session

/-- What is asked of a session. -/
inductive Request where
  | evaluate (typed : String)
  /-- The value alone; nothing is remembered. -/
  | calculate (typed : String)
  | setMode (text : String)
  | clearHistory
deriving DecidableEq

/-- The session after a request.  A refused mode leaves it as it is. -/
def after (session : Session) : Request → Session
  | .evaluate typed => (session.evaluate typed).2
  | .calculate _ => session
  | .setMode text =>
    match session.setMode text with
    | .ok session' => session'
    | .error _ => session
  | .clearHistory => session.clearHistory

/-- The session after requests, one after the other. -/
def run (session : Session) (requests : List Request) : Session :=
  requests.foldl after session

theorem run_concat (session : Session) (requests : List Request) (request : Request) :
    session.run (requests ++ [request]) = (session.run requests).after request := by
  rw [run, List.foldl_append]
  rfl

/-- The mode that a request asks for, if it is accepted. -/
def chosenMode : Request → Option AngleMode
  | .setMode text => (AngleMode.ofText text).toOption
  | _ => none

/-- The last mode that was accepted, or else the one at the start. -/
def modeAfter (start : AngleMode) (requests : List Request) : AngleMode :=
  (requests.filterMap chosenMode).getLast?.getD start

/-- The entry of a request in an angle mode. -/
def entryOf (mode : AngleMode) : Request → Option Entry
  | .evaluate typed =>
    match SciCalc.calculate mode typed with
    | .ok (some v) => some ⟨typed, v⟩
    | _ => none
  | _ => none

/-- The entry that a place in a list of requests has in the history at the end. -/
def entryAt (start : AngleMode) (requests : List Request) (i : Nat) : Option Entry :=
  if .clearHistory ∈ requests.drop i then none
  else requests[i]?.bind (entryOf (modeAfter start (requests.take i)))

/-- The entries of all places, in order. -/
def entries (start : AngleMode) (requests : List Request) : List Entry :=
  (List.range requests.length).filterMap (entryAt start requests)

/-! ## One request -/

section Step
variable (session : Session) (request : Request)

theorem setMode_eq_ok_iff {text : String} {session' : Session} :
    session.setMode text = .ok session' ↔
      ∃ mode, AngleMode.Names text mode ∧ session' = { session with mode } := by
  simp only [← AngleMode.ofText_eq_ok_iff, setMode]
  cases AngleMode.ofText text with
  | ok mode => simp [Except.map, eq_comm]
  | error e => simp [Except.map]

theorem setMode_eq_error_iff {text : String} {e : ModeError} :
    session.setMode text = .error e ↔ (¬ ∃ mode, AngleMode.Names text mode) ∧ e = ⟨text⟩ := by
  rw [← AngleMode.ofText_eq_error_iff, setMode]
  cases AngleMode.ofText text <;> simp [Except.map]

theorem mode_after : (session.after request).mode = (chosenMode request).getD session.mode := by
  cases request with
  | evaluate typed => exact session.mode_evaluate typed
  | calculate typed | clearHistory => rfl
  | setMode text =>
    rw [after, setMode, chosenMode]
    cases AngleMode.ofText text <;> rfl

/-- A request adds the entry that it has, and only clearing takes entries away. -/
theorem history_after : (session.after request).history =
    if request = .clearHistory then []
    else session.history ++ (entryOf session.mode request).toList := by
  cases request with
  | evaluate typed =>
    rw [after, evaluate, entryOf, if_neg (by simp), calculate]
    split
    · rename_i h
      simp [h]
    · rename_i h
      simp [h, record]
    · rename_i h
      simp [h]
  | calculate typed => simp [after, entryOf]
  | setMode text =>
    rw [after, setMode, if_neg (by simp)]
    cases AngleMode.ofText text <;> simp [Except.map, entryOf]
  | clearHistory => rfl

/-- A blank text has no value and no error. -/
theorem evaluate_of_forall_blank {typed : String} (h : Text.Blank typed.toList) :
    session.evaluate typed = ("", session) := by
  refine evaluate_of_blank ?_
  rw [calculate, SciCalc.calculate, Input.normalize, Text.trim_of_blank h]
  rfl

end Step

/-! ## The places of requests -/

section Places
variable (start : AngleMode) (requests : List Request) (request : Request)

theorem modeAfter_concat :
    modeAfter start (requests ++ [request]) =
      (chosenMode request).getD (modeAfter start requests) := by
  rw [modeAfter, List.filterMap_append]
  cases h : chosenMode request <;> simp [h, modeAfter]

/-- One more request takes every entry away or none. -/
theorem entryAt_concat {i : Nat} (hi : i < requests.length) :
    entryAt start (requests ++ [request]) i =
      if request = .clearHistory then none else entryAt start requests i := by
  rw [entryAt, entryAt, List.drop_append_of_le_length (Nat.le_of_lt hi),
    List.take_append_of_le_length (Nat.le_of_lt hi), List.getElem?_append_left hi]
  by_cases hclear : request = .clearHistory
  · simp [hclear]
  · simp [hclear, Ne.symm hclear]

theorem entryAt_last :
    entryAt start (requests ++ [request]) requests.length =
      if request = .clearHistory then none else entryOf (modeAfter start requests) request := by
  rw [entryAt, List.drop_left, List.take_left]
  simp [eq_comm]

theorem entries_concat :
    entries start (requests ++ [request]) =
      if request = .clearHistory then []
      else entries start requests ++ (entryOf (modeAfter start requests) request).toList := by
  have hplaces : (List.range requests.length).filterMap (entryAt start (requests ++ [request])) =
      if request = .clearHistory then [] else entries start requests := by
    have hcongr := List.filterMap_congr fun i hi =>
      entryAt_concat start requests request (List.mem_range.mp hi)
    rw [hcongr]
    split
    · simp
    · rfl
  have hlast : [requests.length].filterMap (entryAt start (requests ++ [request])) =
      if request = .clearHistory then []
      else (entryOf (modeAfter start requests) request).toList := by
    rw [List.filterMap_cons, List.filterMap_nil, entryAt_last]
    by_cases hclear : request = .clearHistory
    · simp [hclear]
    · cases entryOf (modeAfter start requests) request <;> simp [hclear]
  rw [entries, List.length_append, List.length_singleton, List.range_succ, List.filterMap_append,
    hplaces, hlast]
  split <;> rfl

end Places

/-! ## Runs -/

theorem mode_run (start : AngleMode) (requests : List Request) :
    (run { mode := start } requests).mode = modeAfter start requests := by
  induction requests using List.reverseRecOn with
  | nil => rfl
  | append_singleton requests request ih =>
    rw [run_concat, mode_after, ih, modeAfter_concat]

theorem history_run (start : AngleMode) (requests : List Request) :
    (run { mode := start } requests).history = entries start requests := by
  induction requests using List.reverseRecOn with
  | nil => rfl
  | append_singleton requests request ih =>
    rw [run_concat, history_after, mode_run, ih, entries_concat]

/-- Without clearing, a history only grows at its end. -/
theorem history_isPrefix_run (session : Session) (requests : List Request)
    (h : .clearHistory ∉ requests) : session.history <+: (session.run requests).history := by
  induction requests using List.reverseRecOn with
  | nil => exact List.prefix_refl _
  | append_singleton requests request ih =>
    obtain ⟨hrequests, hrequest⟩ := not_or.mp (mt List.mem_append.mpr h)
    have hkeep : request ≠ .clearHistory := fun hr => hrequest (List.mem_singleton.mpr hr.symm)
    rw [run_concat, history_after, if_neg hkeep]
    exact (ih hrequests).trans (List.prefix_append _ _)

/-- **What a session holds.**  After any requests, the history has the entries of the places that
have one, in order, and the mode is the last one accepted.  Nothing else leaves a trace: a blank
text, an error, a value that is only asked for, and a refused mode leave the session as it is.  What
is in the history stays there until it is cleared.  A mode is accepted exactly when the text names
it; the refusal holds the text. -/
theorem run_exact (start : AngleMode) (requests : List Request) :
    (run { mode := start } requests).history = entries start requests ∧
    (run { mode := start } requests).mode = modeAfter start requests ∧
    ∀ session : Session,
      (∀ typed, Text.Blank typed.toList → session.evaluate typed = ("", session)) ∧
      (∀ typed e, session.calculate typed = .error e →
        session.evaluate typed = (e.message, session)) ∧
      (∀ typed, session.after (.calculate typed) = session) ∧
      (∀ text session', session.setMode text = .ok session' ↔
        ∃ mode, AngleMode.Names text mode ∧ session' = { session with mode }) ∧
      (∀ text e, session.setMode text = .error e ↔
        (¬ ∃ mode, AngleMode.Names text mode) ∧ e = ⟨text⟩) ∧
      (∀ text e, session.setMode text = .error e → session.after (.setMode text) = session) ∧
      ∀ more, .clearHistory ∉ more → session.history <+: (session.run more).history := by
  refine ⟨history_run start requests, mode_run start requests, fun session => ?_⟩
  refine ⟨fun typed => session.evaluate_of_forall_blank, fun typed e => evaluate_of_error,
    fun typed => rfl, fun text session' => session.setMode_eq_ok_iff,
    fun text e => session.setMode_eq_error_iff, fun text e h => ?_,
    fun more => session.history_isPrefix_run more⟩
  rw [after, h]

/-- A blank text, an error and a refused mode change nothing. -/
example : run {} [.setMode " rAd", .evaluate " ", .evaluate "$", .setMode "gon"] =
    ⟨.radians, []⟩ := by
  rfl

end Session
end SciCalc
