import SciCalc.Proofs.ForeignNames
import SciCalc.Proofs.ShownText
import SciCalc.Proofs.TokenText
import SciCalc.Proofs.TypedText
import SciCalc.Window

/-! # Messages that stay on the display

The message of an error stands where the next expression is typed.  A text with a message in it has
no value, whatever stands around the message (`calculate_of_hasMessage`): it is refused before
anything is evaluated.

Three messages have a colon, which may not be typed.  In each of the others stands a word with
white space behind it, and this word is the ending of no known name (`Shown.colon_or_word`).
Digits, letters and lexemes that run into the word from the left change nothing about that: the
lexeme that takes the last letter of the word is a name, and the word is its ending
(`Lexer.Cut.exists_name`).  So the tokens have a foreign name.
-/
namespace SciCalc
open Outcome

/-! ## Words in a text -/

namespace Lexer
variable {c : Char} {s text front taken left rest : List Char} {t : Token} {ts : List Token}

theorem continuesName_of_isAlpha (h : c.isAlpha = true) : continuesName c = true := by
  simp [continuesName, Char.isAlphanum, h]

/-- A lexeme that ends in a letter is a name, and can go on. -/
theorem Lexeme.name_of_last (h : Lexeme text t) (hc : c ∈ text.getLast?) (hletter : c.isAlpha) :
    t = .name (String.ofList text) ∧ ∀ more, (∀ d ∈ more, continuesName d = true) →
      Lexeme (text ++ more) (.name (String.ofList (text ++ more))) := by
  obtain ⟨first, tail, rfl, hmark | ⟨hfirst, htail, rfl⟩ | ⟨-, ⟨q, hq⟩, -⟩⟩ := h.cases_head
  · have hall : ∀ mark ∈ marks, mark.1.getLast?.all fun c => !c.isAlpha := by decide
    have hno := (Option.all_eq_true _ _).mp (hall _ hmark) c hc
    simp [hletter] at hno
  · refine ⟨rfl, fun more hmore => .name hfirst ?_⟩
    exact List.forall_mem_append.mpr ⟨htail, hmore⟩
  · rcases hq.last c hc with hdigit | rfl
    · have hlow := (Token.toNat_of_startsName (Token.startsName_of_isAlpha hletter)).1
      have hhigh := (Decimal.toNat_of_isDigit hdigit).2
      omega
    · cases hletter

/-- The longest lexeme that takes the first letters of a word is a name and takes all of them. -/
theorem Longest.name_of_letters (h : Longest (front ++ taken) t (left ++ rest)) (hne : taken ≠ [])
    (hletters : ∀ c ∈ taken ++ left, c.isAlpha) :
    left = [] ∧ t = .name (String.ofList (front ++ taken)) := by
  obtain ⟨htaken, hleft⟩ := List.forall_mem_append.mp hletters
  have hlast : taken.getLast hne ∈ (front ++ taken).getLast? := by
    rw [List.getLast?_append_of_ne_nil _ hne, List.getLast?_eq_getLast_of_ne_nil hne]
    rfl
  obtain ⟨ht, hmore⟩ := h.lexeme.name_of_last hlast (htaken _ (List.getLast_mem hne))
  have hlonger := hmore left fun d hd => continuesName_of_isAlpha (hleft d hd)
  have hle := h.length_le _ _ hlonger
    (List.append_assoc .. ▸ List.prefix_append (front ++ taken ++ left) rest)
  rw [List.length_append] at hle
  exact ⟨List.eq_nil_of_length_eq_zero (by omega), ht⟩

/-- **A word in front of white space is the ending of a name**, whatever stands in front of it. -/
theorem Cut.exists_name {word : List Char} (hne : word ≠ []) (hletters : ∀ c ∈ word, c.isAlpha)
    (hrest : ∀ c ∈ rest.head?, Text.isBlank c) (h : Cut s ts [])
    (hs : s = front ++ (word ++ rest)) :
    ∃ before name after, ts = before ++ .name name :: after ∧ word <:+ name.toList := by
  generalize hend : ([] : List Char) = last at h
  induction h generalizing front with
  | done =>
    subst hend
    simp [hne] at hs
  | @blank c s _ _ hc h ih =>
    cases front with
    | nil =>
      obtain ⟨d, word, rfl⟩ := List.exists_cons_of_ne_nil hne
      obtain ⟨rfl, -⟩ : c = d ∧ _ := by simpa using hs
      have hstart := Token.startsName_of_isAlpha (hletters c List.mem_cons_self)
      exact absurd hc (ne_true_of_eq_false (not_blank_of_startsName hstart))
    | cons d front => exact ih (List.cons.inj hs).2 hend
  | @lexeme text s _ t ts ht h ih =>
    have hlater : ∀ front, s = front ++ (word ++ rest) →
        ∃ before name after, t :: ts = before ++ .name name :: after ∧ word <:+ name.toList := by
      intro front hs
      obtain ⟨before, name, after, rfl, hname⟩ := ih hs hend
      exact ⟨t :: before, name, after, rfl, hname⟩
    rcases List.append_eq_append_iff.mp hs with ⟨more, rfl, hbehind⟩ | ⟨taken, rfl, hbehind⟩
    · exact hlater more hbehind
    by_cases htaken : taken = []
    · subst htaken
      exact hlater [] hbehind.symm
    -- The lexeme has letters of the word in it, and it has no white space.
    obtain ⟨left, rfl, rfl⟩ : ∃ left, word = taken ++ left ∧ s = left ++ rest := by
      rcases List.append_eq_append_iff.mp hbehind with ⟨more, rfl, hmore⟩ | ⟨left, hword, hs⟩
      · cases more with
        | nil => exact ⟨[], by simp, hmore.symm⟩
        | cons c more =>
          have hblank := hrest c (by rw [hmore]; rfl)
          have hvisible := ht.lexeme.not_blank_of_mem c (by simp)
          exact absurd hblank (ne_true_of_eq_false hvisible)
      · exact ⟨left, hword, hs⟩
    obtain ⟨rfl, rfl⟩ := ht.name_of_letters htaken hletters
    exact ⟨[], _, _, rfl, by simp⟩

end Lexer

/-! ## Messages in a text -/

namespace Shown

/-- Words of the messages without a colon. -/
def foreignWords : List String :=
  ["Domain", "Complex", "Invalid", "needs"]

theorem isAlpha_foreignWords :
    ∀ word ∈ foreignWords, word.toList ≠ [] ∧ word.toList.all Char.isAlpha := by
  decide

/-- The words are the endings of no names that a calculation knows. -/
theorem not_knownBefore_of_word {word name : String} (hword : word ∈ foreignWords)
    (hend : word.toList <:+ name.toList) (after : List Token) :
    ¬ Grammar.KnownBefore name after := by
  have hfunctions : ∀ f : Builtin, ∀ word ∈ foreignWords, ¬ word.toList <:+ f.name.toList := by
    intro f
    cases f <;> decide
  have hconstants : ∀ c : Constant, ∀ word ∈ foreignWords, ¬ word.toList <:+ c.name.toList := by
    intro c
    cases c <;> decide
  unfold Grammar.KnownBefore
  split
  · rintro ⟨f, rfl⟩
    exact hfunctions f word hword hend
  · rintro ⟨c, rfl⟩
    exact hconstants c word hword hend

/-- What makes a message no expression: a colon, or a word behind which stands white space. -/
theorem colon_or_word : ∀ text ∈ messages, ':' ∈ text.toList ∨
    text.toList.all Input.isAllowed ∧
      ∃ word ∈ foreignWords, word.toList ++ [' '] <:+: text.toList := by
  decide +kernel

theorem trimmed_of_mem_messages {text : String} (h : text ∈ messages) :
    text.toList ≠ [] ∧ Text.Trimmed text.toList := by
  have hall : ∀ text ∈ messages, text.toList ≠ [] ∧
      (text.toList.head?.all fun c => !Text.isBlank c) ∧
      text.toList.getLast?.all fun c => !Text.isBlank c := by
    decide +kernel
  obtain ⟨hne, hhead, hlast⟩ := hall text h
  rw [Option.all_eq_true] at hhead hlast
  exact ⟨hne, fun c hc => by simpa using hhead c hc, fun c hc => by simpa using hlast c hc⟩

end Shown

/-- The text has the message of an error in it. -/
def HasMessage (typed : String) : Prop :=
  ∃ e : CalcError, e.message.toList <:+: typed.toList

variable {typed : String}

theorem hasMessage_around (e : CalcError) (before after : String) :
    HasMessage (before ++ e.message ++ after) := by
  refine ⟨e, ?_⟩
  rw [String.toList_append, String.toList_append]
  exact List.infix_append _ _ _

theorem HasMessage.around (h : HasMessage typed) (before after : String) :
    HasMessage (before ++ typed ++ after) := by
  obtain ⟨e, he⟩ := h
  refine ⟨e, he.trans ?_⟩
  rw [String.toList_append, String.toList_append]
  exact List.infix_append _ _ _

/-- What passes the filter with a message in it has one of the words in it. -/
theorem HasMessage.exists_word (h : HasMessage typed) {s : List Char}
    (hs : Input.normalize typed.toList = .ok s) :
    ∃ word ∈ Shown.foreignWords, word.toList ++ [' '] <:+: s := by
  obtain ⟨e, hinfix⟩ := h
  have hmem : e.message ∈ Shown.messages := Shown.mem_messages_iff.mpr ⟨e, rfl⟩
  obtain ⟨htypable, rfl⟩ := Input.normalize_eq_ok_iff.mp hs
  obtain ⟨hne, htrimmed⟩ := Shown.trimmed_of_mem_messages hmem
  have hkept := Text.infix_trim hne htrimmed hinfix
  rcases Shown.colon_or_word _ hmem with hcolon | ⟨hallowed, word, hword, hpart⟩
  · have hrefused : ¬ Input.isAllowed ':' := by decide
    have hcolon := Input.typable_iff.mp (htypable ':' (hkept.subset hcolon))
    exact absurd (hcolon ':' List.mem_cons_self) hrefused
  · refine ⟨word, hword, hpart.trans ?_⟩
    obtain ⟨front, back, htrim⟩ := hkept
    rw [← htrim, List.flatMap_append, List.flatMap_append,
      Input.flatMap_spelling_of_allowed (List.all_eq_true.mp hallowed)]
    exact List.infix_append _ _ _

/-- A text with one of the words in it is no expression. -/
theorem ofChars_of_word {word : String} {s : List Char} (hword : word ∈ Shown.foreignWords)
    (h : word.toList ++ [' '] <:+: s) :
    ∃ fault, Expr.ofChars s = .error (.invalidExpression fault) := by
  rcases Token.exists_cut s with ⟨ts, hcut⟩ | ⟨ts, c, rest, hcut, hstuck⟩
  · obtain ⟨front, back, rfl⟩ := h
    obtain ⟨hne, hletters⟩ := Shown.isAlpha_foreignWords word hword
    have hsplit : front ++ (word.toList ++ [' ']) ++ back =
        front ++ (word.toList ++ ' ' :: back) := by simp
    obtain ⟨before, name, after, rfl, hname⟩ := hcut.exists_name hne (List.all_eq_true.mp hletters)
      (by rintro c ⟨⟩; rfl) hsplit
    have hforeign : Grammar.Foreign (before ++ .name name :: after) :=
      ⟨before, name, after, rfl, Shown.not_knownBefore_of_word hword hname after⟩
    obtain ⟨fault, hfault⟩ := Grammar.ofTokens_of_foreign hforeign
    exact ⟨fault, by rw [Expr.ofChars, Token.ofChars_eq_ok_iff.mpr hcut]; exact hfault⟩
  · refine ⟨.unexpectedCharacter c, ?_⟩
    rw [Expr.ofChars, Token.ofChars_eq_error_iff.mpr ⟨ts, c, rest, hcut, hstuck, rfl⟩]
    rfl

/-- A text with a message in it is refused before anything is evaluated. -/
theorem calculate_of_hasMessage (h : HasMessage typed) (mode : AngleMode) :
    calculate mode typed = .error .invalidCharacters ∨
      ∃ fault, calculate mode typed = .error (.invalidExpression fault) := by
  cases hs : Input.normalize typed.toList with
  | error e =>
    obtain rfl := Input.eq_invalidCharacters_of_normalize hs
    exact .inl (by rw [calculate, hs]; rfl)
  | ok s =>
    obtain ⟨word, hword, hpart⟩ := h.exists_word hs
    obtain ⟨fault, hfault⟩ := ofChars_of_word hword hpart
    have hne : s.isEmpty = false := by
      obtain ⟨front, back, rfl⟩ := hpart
      simp
    refine .inr ⟨fault, ?_⟩
    rw [calculate, hs, ok_eq_pure, pure_bind, hne, hfault]
    rfl

/-- Evaluating a text with a message in it shows a message and leaves the session as it is. -/
theorem Session.evaluate_of_hasMessage (h : HasMessage typed) (session : Session) :
    ∃ e, session.calculate typed = .error e ∧ session.evaluate typed = (e.message, session) := by
  rcases calculate_of_hasMessage h session.mode with herror | ⟨fault, herror⟩
  · exact ⟨_, herror, Session.evaluate_of_error herror⟩
  · exact ⟨_, herror, Session.evaluate_of_error herror⟩

/-! ## Keys behind a message -/

namespace Calculator
variable {c : Calculator}

/-- The keys that take no character off the display keep a message on it, and the session. -/
theorem hasMessage_perform {action : KeyAction} (hclear : action ≠ .clear)
    (herase : action ≠ .eraseLast) (h : HasMessage c.display) :
    HasMessage (c.perform action).display ∧ (c.perform action).session = c.session := by
  cases action with
  | clear => exact absurd rfl hclear
  | eraseLast => exact absurd rfl herase
  | insert text => exact ⟨by simpa [perform, insert] using h.around "" text, rfl⟩
  | evaluate =>
    obtain ⟨e, -, heval⟩ := c.session.evaluate_of_hasMessage h
    rw [perform, evaluate, heval]
    exact ⟨⟨e, List.infix_refl _⟩, rfl⟩

theorem hasMessage_foldl {actions : List KeyAction} (hclear : .clear ∉ actions)
    (herase : .eraseLast ∉ actions) (h : HasMessage c.display) :
    HasMessage (actions.foldl perform c).display ∧
      (actions.foldl perform c).session = c.session := by
  induction actions generalizing c with
  | nil => exact ⟨h, rfl⟩
  | cons action actions ih =>
    rw [List.mem_cons, not_or] at hclear herase
    obtain ⟨hnext, hsession⟩ := hasMessage_perform (Ne.symm hclear.1) (Ne.symm herase.1) h
    obtain ⟨hlast, hsame⟩ := ih hclear.2 herase.2 hnext
    exact ⟨hlast, hsame.trans hsession⟩

end Calculator

/-- **A message never becomes part of a calculation that succeeds.**  Evaluating a message with any
text before and behind it shows a message, in every session, and leaves the session as it is.  So
after an evaluation that failed, whatever is put before and behind its message, and whatever keys
are pressed then except the two that take characters off the display, there is an error again, and
the session is still that of before. -/
theorem evaluate_around_message :
    (∀ (session : Session) (e : CalcError) (before after : String), ∃ e',
      session.calculate (before ++ e.message ++ after) = .error e' ∧
        session.evaluate (before ++ e.message ++ after) = (e'.message, session)) ∧
    ∀ (c : Calculator) (e : CalcError), c.session.calculate c.display = .error e →
      ∀ (before after : String) (actions : List KeyAction),
        .clear ∉ actions → .eraseLast ∉ actions →
        let shown := { c.evaluate with display := before ++ c.evaluate.display ++ after }
        let last := actions.foldl Calculator.perform shown
        ∃ e', last.session.calculate last.display = .error e' ∧
          last.session.evaluate last.display = (e'.message, c.session) := by
  refine ⟨fun session e before after =>
    session.evaluate_of_hasMessage (hasMessage_around e before after), ?_⟩
  intro c e herror before after actions hclear herase shown last
  have heval : c.evaluate = { c with display := e.message, wantsFocus := true } := by
    rw [Calculator.evaluate, Session.evaluate_of_error herror]
  have hshown : HasMessage shown.display := by
    simpa only [shown, heval] using hasMessage_around e before after
  have hsame : shown.session = c.session := by simp only [shown, heval]
  obtain ⟨hmessage, hsession⟩ := Calculator.hasMessage_foldl hclear herase hshown
  obtain ⟨e', hcalc, hresult⟩ := last.session.evaluate_of_hasMessage hmessage
  refine ⟨e', hcalc, hresult.trans ?_⟩
  rw [hsession, hsame]

/-- Behind `Factorial needs integer`, with `2e` in front of it, more keys are pressed. -/
theorem evaluate_around_message_of_factorial :
    let c : Calculator := { display := "fact(2.5)", session := { history := [⟨"2", .int 2⟩] } }
    c.session.calculate c.display = .error (.integerRequired .factorial) ∧
      let shown := { c.evaluate with display := "2e" ++ c.evaluate.display ++ ")" }
      let last := [KeyAction.insert "*", .insert "0", .evaluate, .insert "+"].foldl
        Calculator.perform shown
      ∃ e' : CalcError, last.session.evaluate last.display = (e'.message, c.session) := by
  intro c
  have herror : c.session.calculate c.display = .error (.integerRequired .factorial) := by
    decide +kernel
  refine ⟨herror, ?_⟩
  obtain ⟨e', -, h⟩ := evaluate_around_message.2 c _ herror "2e" ")"
    [.insert "*", .insert "0", .evaluate, .insert "+"] (by decide) (by decide)
  exact ⟨e', h⟩

end SciCalc
