import SciCalc.Proofs.Lexemes
import SciCalc.Proofs.NumeralGrammar

/-! # The lexical grammar

A lexeme is a mark, a name or a numeral, and has one token (`Lexer.Lexeme`): a numeral of digits
alone is the integer that it denotes, and any other is the correctly rounded floating-point number.
A text is cut by taking white space or the longest lexeme off its front, again and again
(`Lexer.Cut`).

The tokens of a text are those that it is cut into, and the error, where there is one, names the
character at which the cut is stuck (`Token.ofChars_exact`).
-/
namespace SciCalc
namespace Lexer
open Decimal

/-! ## Lexemes -/

/-- The marks and their tokens. -/
def marks : List (List Char × Token) :=
  [(['('], .lparen), ([')'], .rparen), ([','], .comma), (['+'], .op .add), (['-'], .op .sub),
    (['/'], .op .div), (['%'], .op .mod), (['*', '*'], .op .pow), (['*'], .op .mul)]

/-- The lexemes and their tokens. -/
inductive Lexeme : List Char → Token → Prop
  | mark {text : List Char} {t : Token} (h : (text, t) ∈ marks) : Lexeme text t
  | name {c : Char} {more : List Char} (hc : startsName c = true)
    (hmore : ∀ d ∈ more, continuesName d = true) :
    Lexeme (c :: more) (.name (String.ofList (c :: more)))
  | integer {text : List Char} (h : IsDigits text) : Lexeme text (.num (.int (value text)))
  | real {text : List Char} {q : ℚ} {x : Binary64} (h : Denotes text q) (hreal : ¬ IsDigits text)
    (hx : Binary64.IsRounded false q x) : Lexeme text (.num (.real x))

/-- A lexeme such that none at the front of the same text is longer. -/
structure Longest (text : List Char) (t : Token) (rest : List Char) : Prop where
  lexeme : Lexeme text t
  length_le : ∀ text' t', Lexeme text' t' → text' <+: text ++ rest → text'.length ≤ text.length

/-- No lexeme and no white space starts the text. -/
def Stuck (s : List Char) : Prop :=
  (∀ c ∈ s.head?, Text.isBlank c = false) ∧ ∀ text t, Lexeme text t → ¬ text <+: s

/-- The text at the left, cut from left to right into white space and longest lexemes, gives the
tokens and leaves the text at the right. -/
inductive Cut : List Char → List Token → List Char → Prop
  | done (rest : List Char) : Cut rest [] rest
  | blank {c : Char} {s rest : List Char} {ts : List Token} (hc : Text.isBlank c = true)
    (h : Cut s ts rest) : Cut (c :: s) ts rest
  | lexeme {text s rest : List Char} {t : Token} {ts : List Token} (ht : Longest text t s)
    (h : Cut s ts rest) : Cut (text ++ s) (t :: ts) rest

variable {c : Char} {s s' text text' more rest after : List Char} {t t' : Token} {q : ℚ} {v : Value}

/-! ## The tokens of numerals -/

theorem startsNumeral_of_denotes (h : Denotes (c :: more) q) : startsNumeral c more = true := by
  generalize htext : c :: more = text at h
  obtain ⟨hmantissa, -⟩ := h
  cases hmantissa with
  | digits h | point h =>
    obtain ⟨d, rest, rfl, hd⟩ := h.exists_cons
    obtain ⟨rfl, -⟩ : c = d ∧ _ := by simpa using htext
    simp [startsNumeral, hd]
  | bare h =>
    obtain ⟨d, rest, rfl, hd⟩ := h.exists_cons
    obtain ⟨rfl, rfl⟩ : c = '.' ∧ more = _ := by simpa using htext
    simp [startsNumeral, hd]

theorem numeralValue_of_isDigits (h : IsDigits s) : numeralValue s = .ok (.int (value s)) := by
  have hall : s.all Char.isDigit = true := List.all_eq_true.mpr h.2
  rw [numeralValue, hall, natural?_of_isDigits h]
  rfl

/-- A numeral that is no run of digits has the correctly rounded number as its value. -/
theorem numeralValue_of_denotes (h : Denotes s q) (hreal : ¬ IsDigits s) :
    ∃ x, Binary64.IsRounded false q x ∧ numeralValue s = .ok (.real x) := by
  obtain ⟨d, hd, rfl⟩ := h.read?
  have hall : s.all Char.isDigit = false := by
    by_contra hall
    exact hreal ⟨h.ne_nil, List.all_eq_true.mp (eq_true_of_ne_false hall)⟩
  refine ⟨_, d.isRounded_toBinary64 false, ?_⟩
  rw [numeralValue, hall, hd]
  rfl

/-- A numeral is a lexeme, and the lexer finds its value. -/
theorem exists_lexeme_of_denotes (h : Denotes s q) :
    ∃ v, numeralValue s = .ok v ∧ Lexeme s (.num v) := by
  by_cases hdigits : IsDigits s
  · exact ⟨_, numeralValue_of_isDigits hdigits, .integer hdigits⟩
  · obtain ⟨x, hx, hvalue⟩ := numeralValue_of_denotes h hdigits
    exact ⟨_, hvalue, .real h hdigits hx⟩

/-! ## What a lexeme starts with -/

/-- A lexeme is told by its first character: it is a mark, a name or a numeral. -/
theorem Lexeme.cases_head (h : Lexeme s t) : ∃ c more, s = c :: more ∧
    ((s, t) ∈ marks ∨
      (startsName c = true ∧ (∀ d ∈ more, continuesName d = true) ∧
        t = .name (String.ofList s)) ∨
      (startsNumeral c more = true ∧ (∃ q, Denotes s q) ∧
        ∃ v, t = .num v ∧ numeralValue s = .ok v)) := by
  cases h with
  | mark h =>
    have hne : ∀ mark ∈ marks, mark.1 ≠ [] := by decide
    obtain ⟨c, more, rfl⟩ := List.exists_cons_of_ne_nil (hne _ h)
    exact ⟨c, more, rfl, .inl h⟩
  | @name c more hc hmore => exact ⟨c, more, rfl, .inr (.inl ⟨hc, hmore, rfl⟩)⟩
  | integer h =>
    obtain ⟨c, more, rfl⟩ := List.exists_cons_of_ne_nil h.1
    exact ⟨c, more, rfl, .inr (.inr ⟨startsNumeral_of_denotes h.denotes, ⟨_, h.denotes⟩, _, rfl,
      numeralValue_of_isDigits h⟩)⟩
  | real h hreal hx =>
    obtain ⟨c, more, rfl⟩ := List.exists_cons_of_ne_nil h.ne_nil
    obtain ⟨y, hy, hvalue⟩ := numeralValue_of_denotes h hreal
    obtain rfl := hx.unique hy
    exact ⟨c, more, rfl, .inr (.inr ⟨startsNumeral_of_denotes h, ⟨_, h⟩, _, rfl, hvalue⟩)⟩

theorem startsNumeral_cases (h : startsNumeral c more = true) : c.isDigit = true ∨ c = '.' := by
  simp only [startsNumeral, Bool.or_eq_true, Bool.and_eq_true, beq_iff_eq] at h
  exact h.imp_right And.left

/-- A mark starts with none of what names, numerals and white space start with. -/
theorem not_start_of_mem_marks (h : (c :: more, t) ∈ marks) :
    Text.isBlank c = false ∧ startsName c = false ∧ ∀ rest, startsNumeral c rest = false := by
  have hall : ∀ mark ∈ marks, mark.1.all
      fun c => !Text.isBlank c && !startsName c && !c.isDigit && c != '.' := by
    decide
  have hc := List.all_eq_true.mp (hall _ h) c List.mem_cons_self
  simp only [Bool.and_eq_true, Bool.not_eq_true', bne_iff_ne] at hc
  obtain ⟨⟨⟨hblank, hname⟩, hdigit⟩, hpoint⟩ := hc
  refine ⟨hblank, hname, fun rest => ?_⟩
  by_contra hnumeral
  rcases startsNumeral_cases (eq_true_of_ne_false hnumeral) with h | h
  · exact absurd h (ne_true_of_eq_false hdigit)
  · exact hpoint h

theorem not_startsNumeral_of_startsName (h : startsName c = true) :
    startsNumeral c rest = false := by
  have hlow := (Token.toNat_of_startsName h).1
  by_contra hnumeral
  rcases startsNumeral_cases (eq_true_of_ne_false hnumeral) with hdigit | rfl
  · have hhigh := (toNat_of_isDigit hdigit).2
    omega
  · cases h

/-- What starts like a name is a name. -/
theorem Lexeme.of_startsName (h : Lexeme (c :: more) t) (hc : startsName c = true) :
    (∀ d ∈ more, continuesName d = true) ∧ t = .name (String.ofList (c :: more)) := by
  obtain ⟨_, _, ⟨⟩, hmark | ⟨-, hname⟩ | ⟨hnumeral, -⟩⟩ := h.cases_head
  · have hno := (not_start_of_mem_marks hmark).2.1
    exact absurd hc (ne_true_of_eq_false hno)
  · exact hname
  · exact absurd hnumeral (ne_true_of_eq_false (not_startsNumeral_of_startsName hc))

/-- What starts like a numeral is one. -/
theorem Lexeme.of_startsNumeral (h : Lexeme (c :: more) t) (hc : startsNumeral c rest = true) :
    (∃ q, Denotes (c :: more) q) ∧ ∃ v, t = .num v ∧ numeralValue (c :: more) = .ok v := by
  obtain ⟨_, _, ⟨⟩, hmark | ⟨hname, -⟩ | ⟨-, hnumeral⟩⟩ := h.cases_head
  · exact absurd hc (ne_true_of_eq_false ((not_start_of_mem_marks hmark).2.2 rest))
  · exact absurd hc (ne_true_of_eq_false (not_startsNumeral_of_startsName hname))
  · exact hnumeral

/-- What starts like neither is a mark. -/
theorem Lexeme.mem_marks (h : Lexeme (c :: more) t) (hname : startsName c = false)
    (hnumeral : startsNumeral c more = false) : (c :: more, t) ∈ marks := by
  obtain ⟨_, _, ⟨⟩, hmark | ⟨hc, -⟩ | ⟨hc, -⟩⟩ := h.cases_head
  · exact hmark
  · exact absurd hc (ne_true_of_eq_false hname)
  · exact absurd hc (ne_true_of_eq_false hnumeral)

theorem not_blank_of_isDigit (h : c.isDigit = true) : Text.isBlank c = false := by
  obtain ⟨hlow, hhigh⟩ := toNat_of_isDigit h
  exact Token.isBlank_eq_false (by omega) (by omega)

theorem not_blank_of_startsName (h : startsName c = true) : Text.isBlank c = false := by
  obtain ⟨hlow, hhigh⟩ := Token.toNat_of_startsName h
  exact Token.isBlank_eq_false (by omega) hhigh

/-- No lexeme starts with white space. -/
theorem Lexeme.not_blank (h : Lexeme (c :: more) t) : Text.isBlank c = false := by
  obtain ⟨_, _, ⟨⟩, hmark | ⟨hname, -⟩ | ⟨hnumeral, -⟩⟩ := h.cases_head
  · exact (not_start_of_mem_marks hmark).1
  · exact not_blank_of_startsName hname
  · rcases startsNumeral_cases hnumeral with hdigit | rfl
    · exact not_blank_of_isDigit hdigit
    · rfl

/-- **A lexeme has one token.** -/
theorem Lexeme.unique (h : Lexeme s t) (h' : Lexeme s t') : t = t' := by
  obtain ⟨c, more, rfl, -⟩ := h.cases_head
  cases hname : startsName c with
  | true => exact (h.of_startsName hname).2.trans (h'.of_startsName hname).2.symm
  | false =>
    cases hnumeral : startsNumeral c more with
    | true =>
      obtain ⟨-, v, rfl, hv⟩ := h.of_startsNumeral hnumeral
      obtain ⟨-, v', rfl, hv'⟩ := h'.of_startsNumeral hnumeral
      rw [hv] at hv'
      cases hv'
      rfl
    | false =>
      have hall : ∀ mark ∈ marks, ∀ mark' ∈ marks, mark.1 = mark'.1 → mark.2 = mark'.2 := by
        decide
      exact hall _ (h.mem_marks hname hnumeral) _ (h'.mem_marks hname hnumeral) rfl

/-! ## The longest lexeme -/

theorem Longest.unique (h : Longest text t rest) (h' : Longest text' t' after)
    (heq : text ++ rest = text' ++ after) : text = text' ∧ t = t' ∧ rest = after := by
  have hle := h.length_le text' t' h'.lexeme (heq ▸ List.prefix_append text' after)
  have hge := h'.length_le text t h.lexeme (heq ▸ List.prefix_append text rest)
  obtain ⟨rfl, rfl⟩ := List.append_inj heq (Nat.le_antisymm hge hle)
  exact ⟨rfl, h.lexeme.unique h'.lexeme, rfl⟩

/-- A lexeme is the longest if it is so among those with the same first character. -/
theorem longest_of_cons (h : Lexeme (c :: more) t)
    (hle : ∀ more' t', Lexeme (c :: more') t' → more' <+: more ++ rest →
      more'.length ≤ more.length) : Longest (c :: more) t rest := by
  refine ⟨h, fun text' t' h' hfront => ?_⟩
  obtain ⟨d, more', rfl, -⟩ := h'.cases_head
  rw [List.cons_append] at hfront
  obtain ⟨rfl, hmore⟩ := List.cons_prefix_cons.mp hfront
  exact Nat.succ_le_succ (hle more' t' h' hmore)

/-- What lexemes start with a mark is decided by the table. -/
theorem Lexeme.mem_marks_of_mark (h : Lexeme (c :: more) t) (hc : (c :: s, t') ∈ marks) :
    (c :: more, t) ∈ marks :=
  have hstart := not_start_of_mem_marks hc
  h.mem_marks hstart.2.1 (hstart.2.2 more)

theorem mem_marks_of_mark? (h : mark? c = some t) : ([c], t) ∈ marks := by
  unfold mark? at h
  split at h <;> cases h <;> decide

theorem longest_mark (h : mark? c = some t) (rest : List Char) : Longest [c] t rest := by
  have hmark := mem_marks_of_mark? h
  refine longest_of_cons (.mark hmark) fun more' t' h' _ => ?_
  have hall : ∀ mark ∈ marks, mark.1.head? ≠ some '*' → mark.1.length ≤ 1 := by decide
  have hstar : (c :: more').head? ≠ some '*' := by
    rintro ⟨⟩
    cases h
  have hlength := hall _ (h'.mem_marks_of_mark hmark) hstar
  simpa using hlength

theorem longest_pow (rest : List Char) : Longest ['*', '*'] (.op .pow) rest := by
  have hmark : (['*', '*'], .op .pow) ∈ marks := by decide
  refine longest_of_cons (.mark hmark) fun more' t' h' _ => ?_
  have hall : ∀ mark ∈ marks, mark.1.length ≤ 2 := by decide
  have hlength := hall _ (h'.mem_marks_of_mark hmark)
  simpa using hlength

theorem longest_mul (h : ∀ c ∈ rest.head?, c ≠ '*') : Longest ['*'] (.op .mul) rest := by
  have hmark : (['*'], .op .mul) ∈ marks := by decide
  refine longest_of_cons (.mark hmark) fun more' t' h' hfront => ?_
  have hall : ∀ mark ∈ marks, mark.1.head? = some '*' →
      mark.1 = ['*'] ∨ mark.1 = ['*', '*'] := by
    decide
  rcases hall _ (h'.mem_marks_of_mark hmark) rfl with heq | heq
  · obtain rfl : more' = [] := by simpa using heq
    exact Nat.le_refl _
  · obtain rfl : more' = ['*'] := by simpa using heq
    obtain ⟨tail, hrest⟩ := hfront
    obtain rfl : '*' :: tail = rest := hrest
    exact absurd rfl (h '*' rfl)

theorem longest_name (hc : startsName c = true) (rest : List Char) :
    Longest (c :: rest.takeWhile continuesName)
      (.name (String.ofList (c :: rest.takeWhile continuesName)))
      (rest.dropWhile continuesName) := by
  have htaken : ∀ d ∈ rest.takeWhile continuesName, continuesName d = true :=
    fun d hd => List.mem_takeWhile_imp hd
  refine longest_of_cons (.name hc htaken) fun more' t' h' hfront => ?_
  obtain ⟨hmore, -⟩ := h'.of_startsName hc
  rw [List.takeWhile_append_dropWhile] at hfront
  obtain ⟨tail, rfl⟩ := hfront
  rw [List.takeWhile_append_of_pos hmore, List.length_append]
  exact Nat.le_add_right _ _

theorem longest_numeral (hc : startsNumeral c rest = true) :
    ∃ v, numeralValue (spanNumeral (c :: rest)).1 = .ok v ∧
      Longest (spanNumeral (c :: rest)).1 (.num v) (spanNumeral (c :: rest)).2 := by
  obtain ⟨q, hq⟩ := exists_denotes_spanNumeral hc
  obtain ⟨v, hvalue, hlexeme⟩ := exists_lexeme_of_denotes hq
  refine ⟨v, hvalue, hlexeme, fun text' t' h' hfront => ?_⟩
  rw [spanNumeral_append_eq] at hfront
  obtain ⟨tail, htail⟩ := hfront
  obtain ⟨d, more', rfl, -⟩ := h'.cases_head
  obtain ⟨rfl, -⟩ : d = c ∧ _ := by simpa using htail
  obtain ⟨⟨r, hr⟩, -⟩ := h'.of_startsNumeral hc
  rw [← htail]
  exact length_le_spanNumeral hr tail

/-! ## Pieces -/

theorem startsNumeral_of_prefix (h : startsNumeral c more = true) (hfront : more <+: rest) :
    startsNumeral c rest = true := by
  obtain ⟨tail, rfl⟩ := hfront
  cases more with
  | nil =>
    have hdigit : c.isDigit = true := by simpa [startsNumeral] using h
    simp [startsNumeral, hdigit]
  | cons d more => exact h

/-- A character that starts no mark, no name and no numeral starts no lexeme. -/
theorem stuck_of_none (hblank : Text.isBlank c = false) (hmark : mark? c = none) (hstar : c ≠ '*')
    (hname : startsName c = false) (hnumeral : startsNumeral c rest = false) :
    Stuck (c :: rest) := by
  refine ⟨by simpa using hblank, fun text t h hfront => ?_⟩
  obtain ⟨d, more, rfl, -⟩ := h.cases_head
  obtain ⟨rfl, hmore⟩ := List.cons_prefix_cons.mp hfront
  have hno : startsNumeral d more = false := by
    by_contra hyes
    have hrest := startsNumeral_of_prefix (eq_true_of_ne_false hyes) hmore
    exact absurd hrest (ne_true_of_eq_false hnumeral)
  have hall : ∀ mark ∈ marks, mark.1.head? = some '*' ∨ (mark.1.head?.bind mark?).isSome := by
    decide
  rcases hall _ (h.mem_marks hname hno) with heq | hsome
  · exact hstar (Option.some.inj heq)
  · have hnone : ((d :: more).head?.bind mark?) = none := hmark
    rw [hnone] at hsome
    cases hsome

/-- What is to be cut off the front of a text: white space or the longest lexeme, and nothing if
there is neither. -/
def CutsOff (c : Char) (rest : List Char) : Except CalcError (Piece × List Char) → Prop
  | .ok (.blank, after) => Text.isBlank c = true ∧ after = rest
  | .ok (.token t, after) => ∃ text, c :: rest = text ++ after ∧ Longest text t after
  | .error e => Stuck (c :: rest) ∧ e = .invalidExpression (.unexpectedCharacter c)

/-- **The first piece** of a text is what is to be cut off. -/
theorem cutsOff_piece (c : Char) (rest : List Char) : CutsOff c rest (piece c rest) := by
  unfold piece
  split
  · rename_i hblank
    exact ⟨hblank, rfl⟩
  rename_i hblank
  cases hmark : mark? c with
  | some t => exact ⟨[c], rfl, longest_mark hmark rest⟩
  | none =>
    dsimp only
    split
    · rename_i hstar
      subst hstar
      split
      · rename_i rest
        exact ⟨['*', '*'], rfl, longest_pow rest⟩
      · rename_i hone
        refine ⟨['*'], rfl, longest_mul fun d hd => ?_⟩
        rintro rfl
        obtain ⟨more, hmore⟩ := List.head?_eq_some_iff.mp hd
        exact hone more hmore
    rename_i hstar
    split
    · rename_i hname
      refine ⟨_, ?_, longest_name hname rest⟩
      rw [List.cons_append, List.takeWhile_append_dropWhile]
    rename_i hname
    split
    · rename_i hnumeral
      obtain ⟨v, hvalue, hlongest⟩ := longest_numeral hnumeral
      rw [hvalue]
      exact ⟨_, (spanNumeral_append_eq _).symm, hlongest⟩
    · rename_i hnumeral
      exact ⟨stuck_of_none (eq_false_of_ne_true hblank) hmark hstar (eq_false_of_ne_true hname)
        (eq_false_of_ne_true hnumeral), rfl⟩

theorem piece_of_blank (h : Text.isBlank c = true) (rest : List Char) :
    piece c rest = .ok (.blank, rest) :=
  if_pos h

/-- The longest lexeme at the front is the piece that is cut off. -/
theorem piece_of_longest (h : Longest text t after) (htext : text ++ after = c :: rest) :
    piece c rest = .ok (.token t, after) := by
  obtain ⟨d, more, rfl, -⟩ := h.lexeme.cases_head
  obtain ⟨rfl, rfl⟩ : d = c ∧ more ++ after = rest := by simpa using htext
  have hoff := cutsOff_piece d (more ++ after)
  have hblank := h.lexeme.not_blank
  revert hoff
  cases piece d (more ++ after) with
  | error e =>
    rintro ⟨hstuck, -⟩
    exact absurd (List.prefix_append (d :: more) after) (hstuck.2 _ _ h.lexeme)
  | ok p =>
    obtain ⟨_ | t', after'⟩ := p
    · rintro ⟨hyes, -⟩
      exact absurd hyes (ne_true_of_eq_false hblank)
    · rintro ⟨text', htext', h'⟩
      obtain ⟨-, rfl, rfl⟩ := h.unique h' htext'
      rfl

end Lexer

/-! ## The tokens of a text -/

namespace Token
open Lexer
variable {s rest : List Char} {ts : List Token} {e : CalcError} {c : Char}

theorem ofChars_of_blank (h : Text.isBlank c = true) (rest : List Char) :
    ofChars (c :: rest) = ofChars rest := by
  have hpiece := piece_of_blank h rest
  rw [ofChars]
  split <;> rename_i heq <;> rw [hpiece] at heq <;> cases heq
  rfl

theorem ofChars_of_stuck (h : Stuck (c :: rest)) :
    ofChars (c :: rest) = .error (.invalidExpression (.unexpectedCharacter c)) := by
  have hoff := cutsOff_piece c rest
  rw [ofChars]
  split <;> rename_i heq <;> rw [heq] at hoff
  · exact congrArg _ hoff.2
  · exact absurd hoff.1 (ne_true_of_eq_false (h.1 c rfl))
  · obtain ⟨text, htext, hlongest⟩ := hoff
    exact absurd ⟨_, htext.symm⟩ (h.2 _ _ hlongest.lexeme)

/-- What a text is cut into are its tokens, and those of what is left come behind them. -/
theorem ofChars_of_cut (h : Cut s ts rest) : ofChars s = (ofChars rest).map (ts ++ ·) := by
  induction h with
  | done rest => cases ofChars rest <;> rfl
  | blank hc _ ih => rw [ofChars_of_blank hc, ih]
  | @lexeme text s rest t ts ht _ ih =>
    obtain ⟨c, more, rfl, -⟩ := ht.lexeme.cases_head
    have hpiece : piece c (more ++ s) = .ok (.token t, s) := piece_of_longest ht rfl
    rw [List.cons_append, ofChars_of_piece hpiece, ih]
    cases ofChars rest <;> rfl

/-- **Every text is cut to its end, or up to a character where the cut is stuck.** -/
theorem exists_cut (s : List Char) : (∃ ts, Cut s ts []) ∨
    ∃ ts c rest, Cut s ts (c :: rest) ∧ Stuck (c :: rest) := by
  fun_induction ofChars s with
  | case1 => exact .inl ⟨[], .done []⟩
  | case2 c rest e hpiece =>
    have hoff := cutsOff_piece c rest
    rw [hpiece] at hoff
    exact .inr ⟨[], c, rest, .done _, hoff.1⟩
  | case3 c rest after hpiece ih =>
    have hoff := cutsOff_piece c rest
    rw [hpiece] at hoff
    obtain ⟨hc, rfl⟩ := hoff
    rcases ih with ⟨ts, hcut⟩ | ⟨ts, d, more, hcut, hstuck⟩
    · exact .inl ⟨ts, .blank hc hcut⟩
    · exact .inr ⟨ts, d, more, .blank hc hcut, hstuck⟩
  | case4 c rest t after hpiece ih =>
    have hoff := cutsOff_piece c rest
    rw [hpiece] at hoff
    obtain ⟨text, htext, ht⟩ := hoff
    rw [htext]
    rcases ih with ⟨ts, hcut⟩ | ⟨ts, d, more, hcut, hstuck⟩
    · exact .inl ⟨t :: ts, .lexeme ht hcut⟩
    · exact .inr ⟨t :: ts, d, more, .lexeme ht hcut, hstuck⟩

/-- The tokens of a text are what it is cut into. -/
theorem ofChars_eq_ok_iff : ofChars s = .ok ts ↔ Cut s ts [] := by
  have hnil : ofChars [] = .ok [] := by rw [ofChars]
  constructor
  · intro h
    rcases exists_cut s with ⟨ts', hcut⟩ | ⟨ts', c, rest, hcut, hstuck⟩
    · have hread := ofChars_of_cut hcut
      rw [h, hnil] at hread
      obtain rfl : ts = ts' := by simpa [Except.map] using hread
      exact hcut
    · have hread := ofChars_of_cut hcut
      rw [h, ofChars_of_stuck hstuck] at hread
      cases hread
  · intro hcut
    rw [ofChars_of_cut hcut, hnil]
    exact congrArg _ (List.append_nil ts)

/-- An error names the character at which the cut is stuck. -/
theorem ofChars_eq_error_iff : ofChars s = .error e ↔ ∃ ts c rest, Cut s ts (c :: rest) ∧
    Stuck (c :: rest) ∧ e = .invalidExpression (.unexpectedCharacter c) := by
  constructor
  · intro h
    rcases exists_cut s with ⟨ts, hcut⟩ | ⟨ts, c, rest, hcut, hstuck⟩
    · rw [ofChars_eq_ok_iff.mpr hcut] at h
      cases h
    · have hread := ofChars_of_cut hcut
      rw [h, ofChars_of_stuck hstuck] at hread
      exact ⟨ts, c, rest, hcut, hstuck, Except.error.inj hread⟩
  · rintro ⟨ts, c, rest, hcut, hstuck, rfl⟩
    rw [ofChars_of_cut hcut, ofChars_of_stuck hstuck]
    rfl

/-- **A text is cut into its longest lexemes.**  Its tokens are `ts` just if it can be cut into `ts`
to its end.  Otherwise the cut is stuck at a character, and the error names this character; in
particular no numeral is ever unreadable. -/
theorem ofChars_exact (s : List Char) :
    (∀ ts, ofChars s = .ok ts ↔ Cut s ts []) ∧
    (∀ e, ofChars s = .error e ↔ ∃ ts c rest, Cut s ts (c :: rest) ∧ Stuck (c :: rest) ∧
      e = .invalidExpression (.unexpectedCharacter c)) ∧
    ((∃ ts, Cut s ts []) ∨ ∃ ts c rest, Cut s ts (c :: rest) ∧ Stuck (c :: rest)) ∧
    ∀ text, ofChars s ≠ .error (.invalidExpression (.unreadableReal text)) ∧
      ofChars s ≠ .error (.invalidExpression (.unreadableInteger text)) := by
  refine ⟨fun ts => ofChars_eq_ok_iff, fun e => ofChars_eq_error_iff, exists_cut s, fun text => ?_⟩
  constructor
  all_goals
    intro h
    obtain ⟨ts, c, rest, -, -, he⟩ := ofChars_eq_error_iff.mp h
    cases he

end Token
end SciCalc
