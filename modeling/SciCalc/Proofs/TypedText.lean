import SciCalc.Proofs.Blank
import SciCalc.Proofs.LexicalGrammar

/-! # Text as it is typed

Two parts of the calculator judge characters: the filter of what is typed, one character at a time,
and the lexer, one lexeme at a time.  They know the same characters.  What passes the filter is in
the form in which it would pass again (`Input.normalize_of_allowed`), and the lexer stops in it at
no other character than a point without a digit behind it (`Lexer.point_of_stuck`).
-/
namespace SciCalc
namespace Input
variable {c d : Char} {s t typed : List Char}

/-! ## Characters -/

/-- The characters that may be typed: letters and digits of ASCII, the underscore, the marks of the
language, the signs of the keyboard that stand for marks, and white space. -/
def Typable (c : Char) : Prop :=
  Text.isBlank c ∨ ('a' ≤ c ∧ c ≤ 'z') ∨ ('A' ≤ c ∧ c ≤ 'Z') ∨ ('0' ≤ c ∧ c ≤ '9') ∨
    c ∈ ['_', '+', '-', '*', '/', '%', '.', '(', ')', ',', '×', '÷', '^']

theorem isAlphanum_iff :
    c.isAlphanum ↔ ('a' ≤ c ∧ c ≤ 'z') ∨ ('A' ≤ c ∧ c ≤ 'Z') ∨ ('0' ≤ c ∧ c ≤ '9') := by
  simp only [Char.isAlphanum, Char.isAlpha, Char.isUpper, Char.isLower, Char.isDigit, Char.le_def,
    Bool.or_eq_true, Bool.and_eq_true, decide_eq_true_eq, ge_iff_le, or_assoc]
  exact or_left_comm

theorem isAllowed_iff :
    isAllowed c ↔ Text.isBlank c ∨ c.isAlphanum ∨ c = '_' ∨ c ∈ marks := by
  simp only [isAllowed, Bool.or_eq_true, beq_iff_eq, List.contains_iff_mem]
  tauto

/-- Three signs stand for stars and strokes, and any other character for itself. -/
theorem spelling_cases (c : Char) :
    (c ∈ ['×', '÷', '^'] ∧ ∀ d ∈ spelling c, d ∈ ['*', '/']) ∨
      c ∉ ['×', '÷', '^'] ∧ spelling c = [c] := by
  unfold spelling
  split
  · exact .inl (by simp)
  · exact .inl (by simp)
  · exact .inl (by simp)
  · exact .inr (by simp_all)

/-- What a character stands for is blank if the character is. -/
theorem isBlank_of_mem_spelling (h : d ∈ spelling c) : Text.isBlank d = Text.isBlank c := by
  rcases spelling_cases c with ⟨hsign, hmarks⟩ | ⟨-, hself⟩
  · have hsigns : ∀ c ∈ ['×', '÷', '^'], Text.isBlank c = false := by
      simp [Text.isBlank, Text.blankRuns]
    have hvisible : ∀ d ∈ ['*', '/'], Text.isBlank d = false := by
      simp [Text.isBlank, Text.blankRuns]
    rw [hsigns c hsign, hvisible d (hmarks d h)]
  · rw [hself] at h
    rw [List.mem_singleton.mp h]

theorem typable_iff_isAllowed : Typable c ↔ isAllowed c ∨ c ∈ ['×', '÷', '^'] := by
  have hlist : c ∈ ['_', '+', '-', '*', '/', '%', '.', '(', ')', ',', '×', '÷', '^'] ↔
      c = '_' ∨ c ∈ marks ∨ c ∈ ['×', '÷', '^'] := by
    rw [← List.mem_append, ← List.mem_cons]
    rfl
  simp only [Typable, hlist, isAllowed_iff, isAlphanum_iff, or_assoc]

/-- The filter lets through what a character stands for just if the character may be typed. -/
theorem typable_iff : Typable c ↔ ∀ d ∈ spelling c, isAllowed d := by
  rw [typable_iff_isAllowed]
  rcases spelling_cases c with ⟨hsign, hmarks⟩ | ⟨hother, hself⟩
  · have hsub : ['*', '/'] ⊆ marks := by simp [marks]
    exact iff_of_true (.inr hsign) fun d hd =>
      isAllowed_iff.mpr (.inr (.inr (.inr (hsub (hmarks d hd)))))
  · rw [hself, List.forall_mem_singleton, or_iff_left hother]

/-- A character that is let through stands for itself. -/
theorem spelling_of_isAllowed (h : isAllowed c) : spelling c = [c] := by
  refine (spelling_cases c).elim (fun ⟨hsign, _⟩ => ?_) And.right
  have hforeign : ∀ c ∈ ['×', '÷', '^'], isAllowed c = false := by
    simp [isAllowed, marks, Text.isBlank, Text.blankRuns, Char.isAlphanum, Char.isAlpha,
      Char.isUpper, Char.isLower, Char.isDigit]
  exact absurd h (ne_true_of_eq_false (hforeign c hsign))

theorem flatMap_spelling_of_allowed (h : ∀ c ∈ s, isAllowed c) : s.flatMap spelling = s := by
  rw [List.flatMap_congr fun c hc => spelling_of_isAllowed (h c hc), List.flatMap_singleton']

/-! ## The filter -/

/-- The signs leave no white space at the ends. -/
theorem trimmed_flatMap_spelling (h : Text.Trimmed s) : Text.Trimmed (s.flatMap spelling) := by
  have hne : ∀ c, spelling c ≠ [] := by
    intro c
    unfold spelling
    split <;> exact List.cons_ne_nil _ _
  constructor
  · intro d hd
    cases s with
    | nil => cases hd
    | cons c s =>
      rw [List.flatMap_cons, List.head?_append_of_ne_nil _ (hne c)] at hd
      rw [isBlank_of_mem_spelling (List.mem_of_mem_head? hd)]
      exact h.head c rfl
  · intro d hd
    cases s using List.reverseRecOn with
    | nil => cases hd
    | append_singleton s c =>
      rw [List.flatMap_append, List.flatMap_singleton,
        List.getLast?_append_of_ne_nil _ (hne c)] at hd
      rw [isBlank_of_mem_spelling (List.mem_of_getLast? hd)]
      exact h.last c List.getLast?_concat

theorem normalize_eq_ok_iff : normalize typed = .ok t ↔
    (∀ c ∈ Text.trim typed, Typable c) ∧ t = (Text.trim typed).flatMap spelling := by
  have hall : ((Text.trim typed).flatMap spelling).all isAllowed ↔
      ∀ c ∈ Text.trim typed, Typable c := by
    simp only [List.all_eq_true, List.mem_flatMap, typable_iff]
    exact ⟨fun h c hc d hd => h d ⟨c, hc, hd⟩, fun h d ⟨c, hc, hd⟩ => h c hc d hd⟩
  rw [← hall, normalize]
  split
  · rename_i hpass
    exact ⟨fun h => ⟨hpass, (Except.ok.inj h).symm⟩, fun h => congrArg _ h.2.symm⟩
  · rename_i hstop
    exact ⟨nofun, fun h => absurd h.1 hstop⟩

theorem eq_invalidCharacters_of_normalize {e : CalcError} (h : normalize typed = .error e) :
    e = .invalidCharacters := by
  rw [normalize] at h
  split at h <;> cases h
  rfl

/-- A text of characters that are let through, with no white space at its ends, stays as it is. -/
theorem normalize_of_allowed (htrimmed : Text.Trimmed t) (h : ∀ c ∈ t, isAllowed c) :
    normalize t = .ok t := by
  have htrim : Text.trim t = t := Text.trim_eq_iff.mpr ⟨htrimmed, [], [], nofun, nofun, by simp⟩
  rw [normalize, htrim, flatMap_spelling_of_allowed h, if_pos (List.all_eq_true.mpr h)]

/-- What the filter gives has the form in which it would pass again. -/
theorem form_of_normalize (h : normalize typed = .ok t) :
    Text.Trimmed t ∧ ∀ c ∈ t, isAllowed c := by
  obtain ⟨htypable, rfl⟩ := normalize_eq_ok_iff.mp h
  have htrimmed := (Text.trim_eq_iff.mp (Eq.refl (Text.trim typed))).1
  refine ⟨trimmed_flatMap_spelling htrimmed, fun d hd => ?_⟩
  obtain ⟨c, hc, hd⟩ := List.mem_flatMap.mp hd
  exact typable_iff.mp (htypable c hc) d hd

end Input

/-! ## The lexer -/

namespace Lexer
variable {c : Char} {s rest : List Char} {ts : List Token}

/-- What is left of a text stands at its end. -/
theorem Cut.isSuffix (h : Cut s ts rest) : rest <:+ s := by
  induction h with
  | done rest => exact List.suffix_refl rest
  | blank _ _ ih => exact ih.trans (List.suffix_cons _ _)
  | lexeme _ _ ih => exact ih.trans (List.suffix_append _ _)

/-- Where the lexer is stuck, no numeral starts. -/
theorem Stuck.not_startsNumeral (h : Stuck (c :: rest)) : startsNumeral c rest = false := by
  by_contra hnumeral
  obtain ⟨v, -, hlongest⟩ := longest_numeral (eq_true_of_ne_false hnumeral)
  refine h.2 _ _ hlongest.lexeme ⟨(spanNumeral (c :: rest)).2, ?_⟩
  exact spanNumeral_append_eq _

/-- **At a character that the filter lets through, the lexer is stuck only if it is a point**, and
no digit follows it. -/
theorem point_of_stuck (hc : Input.isAllowed c) (h : Stuck (c :: rest)) :
    c = '.' ∧ ∀ d ∈ rest.head?, d.isDigit = false := by
  have hnumeral := h.not_startsNumeral
  have hfree : ∀ t, ¬ Lexeme [c] t := fun t hlexeme => h.2 _ t hlexeme ⟨rest, rfl⟩
  have hpoint : c = '.' := by
    rcases Input.isAllowed_iff.mp hc with hblank | halnum | rfl | hmark
    · exact absurd hblank (ne_true_of_eq_false (h.1 c rfl))
    · rcases Bool.or_eq_true_iff.mp halnum with hletter | hdigit
      · have hname := Token.startsName_of_isAlpha hletter
        exact absurd (.name hname (List.forall_mem_nil _)) (hfree _)
      · simp [startsNumeral, hdigit] at hnumeral
    · exact absurd (.name rfl (List.forall_mem_nil _)) (hfree _)
    · have hmarks : ∀ c ∈ Input.marks, c ≠ '.' → ∃ t, ([c], t) ∈ marks := by
        simp [Input.marks, marks]
      by_contra hother
      obtain ⟨t, ht⟩ := hmarks c hmark hother
      exact hfree t (.mark ht)
  subst hpoint
  refine ⟨rfl, fun d hd => ?_⟩
  obtain ⟨more, rfl⟩ := List.head?_eq_some_iff.mp hd
  simpa [startsNumeral] using hnumeral

/-- A text that is not empty, without white space in front, is not cut into nothing. -/
theorem Cut.ne_nil (h : Cut s ts []) (hs : s ≠ []) (hfirst : ∀ c ∈ s.head?, ¬ Text.isBlank c) :
    ts ≠ [] := by
  cases h with
  | done => exact absurd rfl hs
  | blank hc h => exact absurd hc (hfirst _ rfl)
  | lexeme ht h => exact List.cons_ne_nil _ _

end Lexer

/-- **The filter and the lexer know the same characters.**  A text passes the filter just if all its
characters may be typed, apart from white space at its ends.  What the filter gives has none at its
ends, and passes again unchanged.  If it is not empty, the lexer finds a token in it at least, or it
is stuck at a point that belongs to no numeral, and at nothing else. -/
theorem Input.normalize_exact (typed : List Char) :
    ((∃ t, normalize typed = .ok t) ↔ ∀ c ∈ Text.trim typed, Typable c) ∧
    ∀ t, normalize typed = .ok t → Text.Trimmed t ∧ normalize t = .ok t ∧
      (t ≠ [] →
        (∃ ts, ts ≠ [] ∧ Token.ofChars t = .ok ts) ∨
        ∃ ts rest fault, Lexer.Cut t ts ('.' :: rest) ∧ (∀ d ∈ rest.head?, d.isDigit = false) ∧
          Token.ofChars t = .error (.invalidExpression fault) ∧
          fault.detail = "caractère inattendu: '.'") := by
  refine ⟨?_, fun t ht => ?_⟩
  · simp only [normalize_eq_ok_iff]
    exact ⟨fun ⟨t, h, _⟩ => h, fun h => ⟨_, h, rfl⟩⟩
  · obtain ⟨htrimmed, hallowed⟩ := form_of_normalize ht
    refine ⟨htrimmed, normalize_of_allowed htrimmed hallowed, fun hne => ?_⟩
    rcases Token.exists_cut t with ⟨ts, hcut⟩ | ⟨ts, c, rest, hcut, hstuck⟩
    · exact .inl ⟨ts, hcut.ne_nil hne htrimmed.head, Token.ofChars_eq_ok_iff.mpr hcut⟩
    · have hc : c ∈ t := hcut.isSuffix.subset List.mem_cons_self
      obtain ⟨rfl, hdigit⟩ := Lexer.point_of_stuck (hallowed c hc) hstuck
      have herror := Token.ofChars_eq_error_iff.mpr ⟨ts, '.', rest, hcut, hstuck, rfl⟩
      exact .inr ⟨ts, rest, _, hcut, hdigit, herror, rfl⟩

/-- The sign and the caret of `6×x.^` become marks, and the lexer is stuck at the point. -/
theorem Input.normalize_exact_of_point :
    normalize " 6×x.^".toList = .ok "6*x.**".toList ∧
      normalize "6*x.**".toList = .ok "6*x.**".toList ∧
      ∃ fault, Token.ofChars "6*x.**".toList = .error (.invalidExpression fault) ∧
        fault.detail = "caractère inattendu: '.'" := by
  have ht : normalize " 6×x.^".toList = .ok "6*x.**".toList := by rfl
  obtain ⟨-, hagain, hread⟩ := (normalize_exact _).2 _ ht
  refine ⟨ht, hagain, ?_⟩
  rcases hread (by decide) with ⟨ts, -, hts⟩ | ⟨-, -, fault, -, -, herror, hdetail⟩
  · have hstuck : Token.ofChars "6*x.**".toList =
        .error (.invalidExpression (.unexpectedCharacter '.')) := by decide +kernel
    rw [hstuck] at hts
    cases hts
  · exact ⟨fault, herror, hdetail⟩

end SciCalc
