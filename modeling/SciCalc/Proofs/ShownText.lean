import SciCalc.Proofs.LiteralText
import SciCalc.Session

/-! # Texts on the screen

What evaluating puts on the screen tells what came of it (`evaluate_shown`): nothing for a blank
text, one of nine messages for an error, and for a value a text of the language

`nan | inf | -inf | -?D+(.D+)?(e[+-]DD+)?`

where `D` is a decimal digit.  No two of the three overlap: a message has a space in it, and the
text of a value has none.
-/
namespace SciCalc

/-! ## What is shown of a number -/

namespace Decimal
variable {whole? : Binary64 → Option Int} {x : Binary64} {s : Bool} {m : Magnitude} {n : Int}

/-- The text of a number, with the test for whole numbers as a parameter: spelled out, the test
would be worked out on the units of the number wherever a case is told from another. -/
def displayBy (whole? : Binary64 → Option Int) : Binary64 → List Char
  | .nan => ['n', 'a', 'n']
  | .infinity s => if s then ['-', 'i', 'n', 'f'] else ['i', 'n', 'f']
  | .finite s m =>
    match whole? (.finite s m) with
    | some n => integer n
    | none => (if s then ['-'] else []) ++ general m.units unitsPerOne significantDigits

theorem display_eq (x : Binary64) : display x = displayBy Binary64.toInt? x := rfl

theorem displayBy_of_some (h : whole? (.finite s m) = some n) :
    displayBy whole? (.finite s m) = integer n := by
  rw [displayBy, h]

theorem displayBy_of_none (h : whole? (.finite s m) = none) :
    displayBy whole? (.finite s m) =
      (if s then ['-'] else []) ++ general m.units unitsPerOne significantDigits := by
  rw [displayBy, h]

/-- A whole number is shown as the integer that it is. -/
theorem display_of_toInt? (h : x.toInt? = some n) : display x = integer n := by
  cases x with
  | nan | infinity s => cases h
  | finite s m => exact (display_eq _).trans (displayBy_of_some h)

theorem display_finite (s : Bool) (m : Magnitude) :
    (∃ n, display (.finite s m) = integer n) ∨ display (.finite s m) =
      (if s then ['-'] else []) ++ general m.units unitsPerOne significantDigits := by
  rw [display_eq]
  cases h : (Binary64.finite s m).toInt? with
  | some n => exact .inl ⟨n, displayBy_of_some h⟩
  | none => exact .inr (displayBy_of_none h)

end Decimal

namespace Shown
open Computability

/-! ## The language of values -/

/-- The one text `s`. -/
def word (s : String) : Language Char :=
  {s.toList}

/-- A decimal digit. -/
def digit : Language Char :=
  {s | ∃ c, s = [c] ∧ c.isDigit = true}

/-- A run of digits, at least one. -/
def digits : Language Char :=
  digit * digit∗

/-- A text of a language, or nothing. -/
def optional (l : Language Char) : Language Char :=
  1 + l

/-- The decimals behind a point. -/
def fraction : Language Char :=
  word "." * digits

/-- An exponent with its sign and at least two digits. -/
def exponent : Language Char :=
  word "e" * (word "+" + word "-") * (digit * digits)

/-- A number without a sign. -/
def unsigned : Language Char :=
  digits * optional fraction * optional exponent

/-- A number. -/
def number : Language Char :=
  optional (word "-") * unsigned

/-- The texts of values. -/
def value : Language Char :=
  word "nan" + word "inf" + word "-inf" + number

variable {s : List Char} {l m : Language Char}

theorem mem_word (s : String) : s.toList ∈ word s :=
  Set.mem_singleton _

theorem mem_digit {c : Char} (h : c.isDigit = true) : [c] ∈ digit :=
  ⟨c, rfl, h⟩

theorem nil_mem_optional : [] ∈ optional l :=
  .inl rfl

theorem mem_optional (h : s ∈ l) : s ∈ optional l :=
  .inr h

theorem mem_digits_iff : s ∈ digits ↔ s ≠ [] ∧ ∀ c ∈ s, c.isDigit = true := by
  constructor
  · intro h
    obtain ⟨_, ⟨c, rfl, hc⟩, rest, hrest, rfl⟩ := Language.mem_mul.mp h
    obtain ⟨pieces, rfl, hpieces⟩ := Language.mem_kstar.mp hrest
    refine ⟨List.cons_ne_nil _ _, List.forall_mem_cons.mpr ⟨hc, fun d hd => ?_⟩⟩
    obtain ⟨piece, hpiece, hd⟩ := List.mem_flatten.mp hd
    obtain ⟨d', rfl, hd'⟩ := hpieces piece hpiece
    rwa [List.mem_singleton.mp hd]
  · rintro ⟨hne, hdigits⟩
    obtain ⟨c, rest, rfl⟩ := List.exists_cons_of_ne_nil hne
    obtain ⟨hc, hrest⟩ := List.forall_mem_cons.mp hdigits
    have hpieces : (rest.map fun d => [d]).flatten = rest := by
      rw [← List.flatMap_def, List.flatMap_singleton']
    refine Language.append_mem_mul (mem_digit hc) (Language.mem_kstar.mpr ⟨_, hpieces.symm, ?_⟩)
    exact List.forall_mem_map.mpr fun d hd => mem_digit (hrest d hd)

/-! ## Numbers are written in the language -/

open Decimal

theorem digits_mem (n : Nat) : Decimal.digits n ∈ digits :=
  mem_digits_iff.mpr ⟨digits_ne_nil n, isDigit_digits n⟩

theorem isDigit_digitsIn (width n : Nat) : ∀ c ∈ digitsIn width n, c.isDigit = true :=
  List.forall_mem_append.mpr ⟨isDigit_zeros _, isDigit_digits n⟩

theorem digitsIn_two_mem (n : Nat) : digitsIn 2 n ∈ digit * digits := by
  have hlength : 2 ≤ (digitsIn 2 n).length := by
    simp only [digitsIn, List.length_append, List.length_replicate]
    omega
  have hdigits := isDigit_digitsIn 2 n
  generalize digitsIn 2 n = s at hlength hdigits
  match s, hlength with
  | c :: d :: rest, _ =>
    obtain ⟨hc, hrest⟩ := List.forall_mem_cons.mp hdigits
    exact Language.append_mem_mul (mem_digit hc)
      (mem_digits_iff.mpr ⟨List.cons_ne_nil d rest, hrest⟩)

theorem exponentText_mem (e : Int) : 'e' :: exponentText e ∈ exponent := by
  have hplaces := digitsIn_two_mem e.natAbs
  have hplus : "+".toList ∈ word "+" + word "-" := .inl (mem_word "+")
  have hminus : "-".toList ∈ word "+" + word "-" := .inr (mem_word "-")
  rw [exponentText]
  split
  · exact Language.append_mem_mul (Language.append_mem_mul (mem_word "e") hminus) hplaces
  · exact Language.append_mem_mul (Language.append_mem_mul (mem_word "e") hplus) hplaces

/-- Decimals without the zeros at their end are a point and digits, or nothing. -/
theorem exists_joinDecimals (whole : List Char) {decimals : List Char}
    (h : ∀ c ∈ decimals, c.isDigit = true) :
    ∃ rest ∈ optional fraction, joinDecimals whole decimals = whole ++ rest := by
  obtain ⟨k, hk⟩ := exists_dropTrailingZeros decimals
  have hkept : ∀ c ∈ dropTrailingZeros decimals, c.isDigit = true := fun c hc =>
    h c (hk ▸ List.mem_append_left _ hc)
  rw [joinDecimals]
  cases hd : dropTrailingZeros decimals with
  | nil => exact ⟨[], nil_mem_optional, (List.append_nil _).symm⟩
  | cons c rest =>
    have hrun : c :: rest ∈ digits := mem_digits_iff.mpr ⟨List.cons_ne_nil _ _, hd ▸ hkept⟩
    exact ⟨'.' :: c :: rest, mem_optional (Language.append_mem_mul (mem_word ".") hrun), rfl⟩

theorem fixed_mem (num den places : Nat) : fixed num den places ∈ unsigned := by
  have hdecimals : ∀ c ∈ (if places = 0 then []
      else digitsIn places (divHalfEven (num * tenTo places) den % tenTo places)),
      c.isDigit = true := by
    split
    · exact List.forall_mem_nil _
    · exact isDigit_digitsIn _ _
  obtain ⟨fraction, hfraction, htext⟩ := exists_joinDecimals
    (Decimal.digits (divHalfEven (num * tenTo places) den / tenTo places)) hdecimals
  rw [fixed, htext, ← List.append_nil (_ ++ fraction)]
  exact Language.append_mem_mul (Language.append_mem_mul (digits_mem _) hfraction) nil_mem_optional

theorem withExponent_mem (coefficient : Nat) (e : Int) :
    withExponent coefficient e ∈ unsigned := by
  obtain ⟨c, rest, hcoefficient, hc⟩ := exists_digits coefficient
  have hrest : ∀ d ∈ rest, d.isDigit = true := fun d hd =>
    isDigit_digits coefficient d (hcoefficient ▸ List.mem_cons_of_mem c hd)
  obtain ⟨fraction, hfraction, htext⟩ := exists_joinDecimals [c] hrest
  have hfirst : [c] ∈ digits :=
    mem_digits_iff.mpr ⟨List.cons_ne_nil _ _, List.forall_mem_singleton.mpr hc⟩
  rw [withExponent, hcoefficient]
  dsimp only
  rw [htext]
  exact Language.append_mem_mul (Language.append_mem_mul hfirst hfraction)
    (mem_optional (exponentText_mem e))

theorem general_mem (num den count : Nat) : general num den count ∈ unsigned := by
  rw [general]
  dsimp only
  split
  · exact withExponent_mem _ _
  · exact fixed_mem _ _ _

theorem integer_mem (n : Int) : integer n ∈ number := by
  have hdigits : Decimal.digits n.natAbs ∈ unsigned := by
    rw [← List.append_nil (Decimal.digits _), ← List.append_nil (_ ++ [])]
    exact Language.append_mem_mul (Language.append_mem_mul (digits_mem _) nil_mem_optional)
      nil_mem_optional
  rw [integer]
  split
  · exact Language.append_mem_mul (mem_optional (mem_word "-")) hdigits
  · exact Language.append_mem_mul nil_mem_optional hdigits

/-- What is shown of a value is in the language of values. -/
theorem display_mem (v : Value) : v.display ∈ value := by
  cases v with
  | int n => exact .inr (integer_mem n)
  | real x =>
    cases x with
    | nan => exact .inl (.inl (.inl (mem_word "nan")))
    | infinity s =>
      cases s with
      | false => exact .inl (.inl (.inr (mem_word "inf")))
      | true => exact .inl (.inr (mem_word "-inf"))
    | finite s m =>
      refine .inr ?_
      rw [Value.display]
      rcases display_finite s m with ⟨n, hn⟩ | hgeneral
      · exact hn ▸ integer_mem n
      · rw [hgeneral]
        cases s with
        | false => exact Language.append_mem_mul nil_mem_optional (general_mem _ _ _)
        | true => exact Language.append_mem_mul (mem_optional (mem_word "-")) (general_mem _ _ _)

/-! ## Messages are none of the language -/

/-- The messages of all errors. -/
def messages : List String :=
  ["Error: Invalid Characters", "Error: Division by Zero", "Domain Error", "Complex Result",
    "Invalid Root", "Factorial needs integer", "nPr needs integers", "nCr needs integers",
    "Error: Invalid Expression"]

/-- Every error has one of the messages, and every message is that of an error. -/
theorem mem_messages_iff {text : String} :
    text ∈ messages ↔ ∃ e : CalcError, e.message = text := by
  constructor
  · have hall : ∀ text ∈ messages, ∃ e ∈ [CalcError.invalidCharacters, .divisionByZero, .domain,
        .complexResult, .invalidRoot, .integerRequired .factorial, .integerRequired .permutations,
        .integerRequired .combinations, .invalidExpression .malformed], e.message = text := by
      decide
    intro h
    obtain ⟨e, -, he⟩ := hall text h
    exact ⟨e, he⟩
  · rintro ⟨e, rfl⟩
    cases e with
    | integerRequired function => cases function <;> decide
    | _ => simp [CalcError.message, messages]

/-- Texts without a space. -/
def spaceless : Language Char :=
  {s | ' ' ∉ s}

theorem add_le_spaceless (hl : l ≤ spaceless) (hm : m ≤ spaceless) : l + m ≤ spaceless :=
  Set.union_subset hl hm

theorem mul_le_spaceless (hl : l ≤ spaceless) (hm : m ≤ spaceless) : l * m ≤ spaceless := by
  intro s hs
  obtain ⟨a, ha, b, hb, rfl⟩ := Language.mem_mul.mp hs
  exact fun h => (List.mem_append.mp h).elim (hl ha) (hm hb)

theorem optional_le_spaceless (hl : l ≤ spaceless) : optional l ≤ spaceless := by
  refine add_le_spaceless ?_ hl
  rintro _ rfl
  exact List.not_mem_nil

theorem word_le_spaceless {s : String} (h : ' ' ∉ s.toList) : word s ≤ spaceless := by
  rintro _ rfl
  exact h

theorem digits_le_spaceless : digits ≤ spaceless := by
  intro s hs hspace
  exact absurd ((mem_digits_iff.mp hs).2 ' ' hspace) (by decide)

theorem digit_le_digits : digit ≤ digits := by
  rintro _ ⟨c, rfl, hc⟩
  exact mem_digits_iff.mpr ⟨List.cons_ne_nil _ _, List.forall_mem_singleton.mpr hc⟩

theorem number_le_spaceless : number ≤ spaceless := by
  have hsign : word "+" + word "-" ≤ spaceless :=
    add_le_spaceless (word_le_spaceless (by decide)) (word_le_spaceless (by decide))
  have hfraction : fraction ≤ spaceless :=
    mul_le_spaceless (word_le_spaceless (by decide)) digits_le_spaceless
  have hexponent : exponent ≤ spaceless :=
    mul_le_spaceless (mul_le_spaceless (word_le_spaceless (by decide)) hsign)
      (mul_le_spaceless (digit_le_digits.trans digits_le_spaceless) digits_le_spaceless)
  exact mul_le_spaceless (optional_le_spaceless (word_le_spaceless (by decide)))
    (mul_le_spaceless (mul_le_spaceless digits_le_spaceless (optional_le_spaceless hfraction))
      (optional_le_spaceless hexponent))

theorem value_le_spaceless : value ≤ spaceless :=
  add_le_spaceless (add_le_spaceless (add_le_spaceless (word_le_spaceless (by decide))
    (word_le_spaceless (by decide))) (word_le_spaceless (by decide))) number_le_spaceless

/-- A message has a space in it. -/
theorem not_mem_value_of_mem_messages {text : String} (h : text ∈ messages) :
    text.toList ∉ value := by
  have hall : ∀ text ∈ messages, ' ' ∈ text.toList := by decide
  exact fun hvalue => value_le_spaceless hvalue (hall text h)

theorem nil_not_mem_number : [] ∉ number := by
  intro h
  obtain ⟨sign, -, rest, hrest, happend⟩ := Language.mem_mul.mp h
  obtain ⟨front, hfront, e, -, hrest⟩ := Language.mem_mul.mp hrest
  obtain ⟨whole, hwhole, decimals, -, hfront⟩ := Language.mem_mul.mp hfront
  obtain rfl : whole = [] := by simp_all
  exact (mem_digits_iff.mp hwhole).1 rfl

/-- The text of a value is not empty. -/
theorem nil_not_mem_value : [] ∉ value := by
  have hword : ∀ s ∈ ["nan", "inf", "-inf"], [] ∉ word s := by
    intro s hs hmem
    have hall : ∀ s ∈ ["nan", "inf", "-inf"], [] ≠ s.toList := by decide
    exact hall s hs hmem
  rintro (((h | h) | h) | h)
  · exact hword "nan" (by simp) h
  · exact hword "inf" (by simp) h
  · exact hword "-inf" (by simp) h
  · exact nil_not_mem_number h

end Shown

/-! ## What evaluating shows -/

namespace Session
open Shown
variable (session : Session) (typed : String)

/-- **The screen tells what came of it.**  Nothing is shown for a text without a value, one of the
messages for an error, and a text of the language of values for a value; no text is of two of these
kinds.  So the history grows, by one entry, just when something is shown that is no message. -/
theorem evaluate_shown :
    ((session.evaluate typed).1 = "" ↔ session.calculate typed = .ok none) ∧
    ((session.evaluate typed).1 ∈ messages ↔ ∃ e, session.calculate typed = .error e) ∧
    ((session.evaluate typed).1.toList ∈ value ↔
      ∃ v, session.calculate typed = .ok (some v)) ∧
    ("" ∉ messages ∧ [] ∉ value ∧ ∀ text ∈ messages, text.toList ∉ value) ∧
    (session.evaluate typed).2.history.length = session.history.length +
      if (session.evaluate typed).1 ≠ "" ∧ (session.evaluate typed).1 ∉ messages then 1 else 0 := by
  have hempty : "" ∉ messages := by decide
  have hdisjoint : "" ∉ messages ∧ [] ∉ value ∧ ∀ text ∈ messages, text.toList ∉ value :=
    ⟨hempty, nil_not_mem_value, fun _ => not_mem_value_of_mem_messages⟩
  cases h : session.calculate typed with
  | error e =>
    have hshown : e.message ∈ messages := mem_messages_iff.mpr ⟨e, rfl⟩
    have hne : e.message ≠ "" := fun he => hempty (he ▸ hshown)
    have hno : e.message.toList ∉ value := not_mem_value_of_mem_messages hshown
    rw [evaluate_of_error h]
    refine ⟨?_, ?_, ?_, hdisjoint, ?_⟩ <;> simp [hshown, hne, hno]
  | ok result =>
    cases result with
    | none =>
      rw [evaluate_of_blank h]
      refine ⟨?_, ?_, ?_, hdisjoint, ?_⟩ <;> simp [hempty, nil_not_mem_value]
    | some v =>
      have hshown : v.display ∈ value := display_mem v
      have hne : String.ofList v.display ≠ "" := by
        intro he
        have hnil : v.display = [] := String.ofList_eq_empty_iff.mp he
        exact nil_not_mem_value (hnil ▸ hshown)
      have hno : String.ofList v.display ∉ messages := fun hmem =>
        not_mem_value_of_mem_messages hmem (by rwa [String.toList_ofList])
      rw [evaluate_of_value h]
      refine ⟨?_, ?_, ?_, hdisjoint, ?_⟩ <;> simp [hshown, hne, hno, record]

end Session
end SciCalc
