import SciCalc.Proofs.CorrectRounding
import SciCalc.Proofs.LiteralText

/-! # The grammar of numerals

A numeral is `(D+(.D*)? | .D+)([eE][+-]?D+)?`, where `D` is a decimal digit: a mantissa, and an
exponent or none.  It denotes an exact rational number, that of its mantissa times ten to the power
of its exponent (`Decimal.Denotes`).

Reading a numeral finds the number that it denotes (`Decimal.Denotes.read?`), and so a numeral
denotes one number only.  The numeral that is split off a text is the longest one at its front
(`Lexer.length_le_spanNumeral`).
-/
namespace SciCalc
namespace Decimal

/-! ## Numerals and what they denote -/

/-- A run of digits, at least one. -/
def IsDigits (s : List Char) : Prop :=
  s ≠ [] ∧ ∀ c ∈ s, c.isDigit = true

/-- A mantissa `D+(.D*)? | .D+` and the number that it denotes. -/
inductive Mantissa : List Char → ℚ → Prop
  | digits {whole : List Char} (h : IsDigits whole) : Mantissa whole (value whole)
  | point {whole fraction : List Char} (h : IsDigits whole)
    (h' : ∀ c ∈ fraction, c.isDigit = true) :
    Mantissa (whole ++ '.' :: fraction) (value (whole ++ fraction) / 10 ^ fraction.length)
  | bare {fraction : List Char} (h : IsDigits fraction) :
    Mantissa ('.' :: fraction) (value fraction / 10 ^ fraction.length)

/-- An exponent `([eE][+-]?D+)?` and the integer that it denotes. -/
inductive Exponent : List Char → ℤ → Prop
  | absent : Exponent [] 0
  | unsigned {letter : Char} {s : List Char} (hletter : letter = 'e' ∨ letter = 'E')
    (h : IsDigits s) : Exponent (letter :: s) (value s)
  | plus {letter : Char} {s : List Char} (hletter : letter = 'e' ∨ letter = 'E')
    (h : IsDigits s) : Exponent (letter :: '+' :: s) (value s)
  | minus {letter : Char} {s : List Char} (hletter : letter = 'e' ∨ letter = 'E')
    (h : IsDigits s) : Exponent (letter :: '-' :: s) (-value s)

/-- The text is a numeral and denotes the number. -/
inductive Denotes : List Char → ℚ → Prop
  | intro {mantissa exponent : List Char} {a : ℚ} {k : ℤ} (hmantissa : Mantissa mantissa a)
    (hexponent : Exponent exponent k) : Denotes (mantissa ++ exponent) (a * 10 ^ k)

variable {s rest mantissa exponent : List Char} {a q r : ℚ} {k : ℤ}

theorem IsDigits.exists_cons (h : IsDigits s) : ∃ c more, s = c :: more ∧ c.isDigit = true := by
  obtain ⟨c, more, rfl⟩ := List.exists_cons_of_ne_nil h.1
  exact ⟨c, more, rfl, h.2 c List.mem_cons_self⟩

theorem IsDigits.denotes (h : IsDigits s) : Denotes s (value s) := by
  simpa using Denotes.intro (.digits h) .absent

/-- A mantissa is a run of digits, or two runs with a point between them, one of which may be
empty. -/
theorem Mantissa.cases_point (h : Mantissa mantissa a) :
    (IsDigits mantissa ∧ a = value mantissa) ∨ ∃ whole fraction,
      mantissa = whole ++ '.' :: fraction ∧ (∀ c ∈ whole, c.isDigit = true) ∧
      (∀ c ∈ fraction, c.isDigit = true) ∧ (whole ≠ [] ∨ fraction ≠ []) ∧
      a = value (whole ++ fraction) / 10 ^ fraction.length := by
  cases h with
  | digits h => exact .inl ⟨h, rfl⟩
  | point h h' => exact .inr ⟨_, _, rfl, h.2, h', .inl h.1, rfl⟩
  | bare h => exact .inr ⟨[], _, rfl, List.forall_mem_nil _, h.2, .inr h.1, rfl⟩

theorem Mantissa.ne_nil (h : Mantissa mantissa a) : mantissa ≠ [] := by
  cases h with
  | digits h => exact h.1
  | point | bare => simp

theorem Denotes.ne_nil (h : Denotes s q) : s ≠ [] := by
  obtain ⟨hmantissa, -⟩ := h
  simp [hmantissa.ne_nil]

theorem IsDigits.last_append (h : IsDigits s) (before : List Char) :
    ∀ c ∈ (before ++ s).getLast?, c.isDigit = true := by
  intro c hc
  rw [List.getLast?_append_of_ne_nil _ h.1] at hc
  exact h.2 c (List.mem_of_getLast? hc)

/-- A numeral ends in a digit or in its point. -/
theorem Denotes.last (h : Denotes s q) : ∀ c ∈ s.getLast?, c.isDigit = true ∨ c = '.' := by
  obtain ⟨hmantissa, hexponent⟩ := h
  cases hexponent with
  | absent =>
    rw [List.append_nil]
    rcases hmantissa.cases_point with ⟨h, -⟩ | ⟨whole, fraction, rfl, -, hfraction, -⟩
    · exact fun c hc => .inl (h.last_append [] c hc)
    · intro c hc
      rw [List.getLast?_append_of_ne_nil _ (List.cons_ne_nil _ _)] at hc
      exact (List.mem_cons.mp (List.mem_of_getLast? hc)).symm.imp_left (hfraction c)
  | unsigned _ h =>
    rw [List.append_cons]
    exact fun c hc => .inl (h.last_append _ c hc)
  | plus _ h | minus _ h =>
    rw [List.append_cons, List.append_cons]
    exact fun c hc => .inl (h.last_append _ c hc)

theorem Mantissa.chars (h : Mantissa mantissa a) : ∀ c ∈ mantissa, c.isDigit = true ∨ c = '.' := by
  rcases h.cases_point with ⟨hwhole, -⟩ | ⟨whole, fraction, rfl, hwhole, hfraction, -, -⟩
  · exact fun c hc => .inl (hwhole.2 c hc)
  · refine List.forall_mem_append.mpr ⟨fun c hc => .inl (hwhole c hc), ?_⟩
    exact List.forall_mem_cons.mpr ⟨.inr rfl, fun c hc => .inl (hfraction c hc)⟩

theorem Exponent.chars (h : Exponent exponent k) :
    ∀ c ∈ exponent, c.isDigit = true ∨ c ∈ ['e', 'E', '+', '-'] := by
  have hletter : ∀ {c : Char}, c = 'e' ∨ c = 'E' → c ∈ ['e', 'E', '+', '-'] := by
    rintro c (rfl | rfl) <;> decide
  cases h with
  | absent => exact List.forall_mem_nil _
  | unsigned he h =>
    exact List.forall_mem_cons.mpr ⟨.inr (hletter he), fun c hc => .inl (h.2 c hc)⟩
  | plus he h | minus he h =>
    refine List.forall_mem_cons.mpr ⟨.inr (hletter he), ?_⟩
    exact List.forall_mem_cons.mpr ⟨.inr (by decide), fun c hc => .inl (h.2 c hc)⟩

/-- The marks and letters that a numeral is written with, besides digits. -/
def numeralMarks : List Char :=
  ['.', 'e', 'E', '+', '-']

theorem Denotes.chars (h : Denotes s q) : ∀ c ∈ s, c.isDigit = true ∨ c ∈ numeralMarks := by
  obtain ⟨hmantissa, hexponent⟩ := h
  refine List.forall_mem_append.mpr ⟨fun c hc => ?_, fun c hc => ?_⟩
  · exact (hmantissa.chars c hc).imp_right fun hpoint : c = '.' => hpoint ▸ List.mem_cons_self
  · exact (hexponent.chars c hc).imp_right (List.mem_cons_of_mem _)

/-- An exponent that is there starts with a letter. -/
theorem Exponent.head (h : Exponent exponent k) :
    exponent = [] ∨ ∃ letter more, exponent = letter :: more ∧ (letter = 'e' ∨ letter = 'E') := by
  cases h with
  | absent => exact .inl rfl
  | unsigned hletter | plus hletter | minus hletter => exact .inr ⟨_, _, rfl, hletter⟩

/-- No exponent can go on with the digits or with the point in front of it. -/
theorem Exponent.head_append (h : Exponent exponent k) (hne : exponent ≠ []) (rest : List Char) :
    ∀ c ∈ (exponent ++ rest).head?, c.isDigit = false ∧ c ≠ '.' := by
  obtain rfl | ⟨letter, more, rfl, hletter⟩ := h.head
  · exact absurd rfl hne
  · rintro c ⟨⟩
    rcases hletter with rfl | rfl <;> decide

/-! ## Reading -/

theorem natural?_of_isDigits (h : IsDigits s) : natural? s = some (value s) := by
  have hempty : s.isEmpty = false := List.isEmpty_eq_false_iff.mpr h.1
  have hall : s.all Char.isDigit = true := List.all_eq_true.mpr h.2
  rw [natural?, hempty, hall]
  rfl

/-- Digits start with no sign. -/
theorem IsDigits.ne_sign (h : IsDigits s) :
    (∀ rest, s ≠ '+' :: rest) ∧ ∀ rest, s ≠ '-' :: rest := by
  obtain ⟨c, more, rfl, hc⟩ := h.exists_cons
  constructor <;> rintro rest ⟨⟩ <;> cases hc

theorem Exponent.exponent? (h : Exponent exponent k) : Numeral.exponent? exponent = some k := by
  cases h with
  | absent => rfl
  | unsigned hletter h =>
    obtain ⟨hplus, hminus⟩ := h.ne_sign
    rw [Numeral.exponent?, if_pos hletter, Numeral.exponentDigits?.eq_2 _ hplus,
      integer?.eq_2 _ hminus, natural?_of_isDigits h]
    rfl
  | plus hletter h =>
    rw [Numeral.exponent?, if_pos hletter, Numeral.exponentDigits?, natural?_of_isDigits h]
    rfl
  | @minus _ digits hletter h =>
    have hplus : ∀ rest, '-' :: digits ≠ '+' :: rest := by rintro rest ⟨⟩
    rw [Numeral.exponent?, if_pos hletter, Numeral.exponentDigits?.eq_2 _ hplus, integer?,
      natural?_of_isDigits h]
    rfl

/-- What stands behind the digits of a whole mantissa is no fraction. -/
theorem Exponent.not_point (h : Exponent exponent k) :
    ∀ c ∈ exponent.head?, c.isDigit = false ∧ c ≠ '.' := by
  by_cases hne : exponent = []
  · rw [hne]
    rintro c ⟨⟩
  · have hhead := h.head_append hne []
    rwa [List.append_nil] at hhead

/-- **A numeral is read as the number that it denotes.** -/
theorem Denotes.read? (h : Denotes s q) : ∃ d, Numeral.read? s = some d ∧ d.toRat = q := by
  obtain ⟨hmantissa, hexponent⟩ := h
  rename_i mantissa exponent a k
  have hhead := hexponent.not_point
  rcases hmantissa.cases_point with ⟨hwhole, rfl⟩ |
    ⟨whole, fraction, rfl, hwhole, hfraction, hne, rfl⟩
  · have hspan := spanDigits_append hwhole.2 fun c hc => (hhead c hc).1
    have hempty : mantissa.isEmpty = false := List.isEmpty_eq_false_iff.mpr hwhole.1
    refine ⟨⟨value mantissa, k⟩, ?_, rfl⟩
    rw [Numeral.read?, hspan]
    dsimp only
    split
    · exact absurd rfl (hhead '.' rfl).2
    · rw [hempty, hexponent.exponent?]
      simp
  · have hpoint : ∀ c ∈ ('.' :: (fraction ++ exponent)).head?, c.isDigit = false := by
      rintro c ⟨⟩
      rfl
    have hspan := spanDigits_append hwhole hpoint
    have hspan' := spanDigits_append hfraction fun c hc => (hhead c hc).1
    have hempty : (whole.isEmpty && fraction.isEmpty) = false := by
      simpa [imp_iff_not_or] using hne
    refine ⟨⟨value (whole ++ fraction), k - fraction.length⟩, ?_, ?_⟩
    · rw [List.append_assoc, List.cons_append, Numeral.read?, hspan]
      simp only [hspan', hempty, hexponent.exponent?]
      rfl
    · rw [Numeral.toRat]
      dsimp only
      rw [zpow_sub₀ (by norm_num), zpow_natCast, div_mul_eq_mul_div, mul_div_assoc]

/-- A numeral denotes one number. -/
theorem Denotes.unique (h : Denotes s q) (h' : Denotes s r) : q = r := by
  obtain ⟨d, hd, rfl⟩ := h.read?
  obtain ⟨d', hd', rfl⟩ := h'.read?
  rw [hd] at hd'
  cases hd'
  rfl

end Decimal

/-! ## Splitting a numeral off -/

namespace Lexer
open Decimal
open Decimal.Numeral (spanDigits)

variable {s rest exponent : List Char} {k : ℤ} {q : ℚ} {c : Char}

/-- Digits at the front are split off, with the digits that go on with them. -/
theorem spanDigits_of_forall (hs : ∀ c ∈ s, c.isDigit = true) (rest : List Char) :
    spanDigits (s ++ rest) = (s ++ (spanDigits rest).1, (spanDigits rest).2) := by
  rw [spanDigits, List.takeWhile_append_of_pos hs, List.dropWhile_append_of_pos hs]
  rfl

theorem spanDigits_of_head (h : ∀ c ∈ rest.head?, c.isDigit = false) :
    spanDigits rest = ([], rest) :=
  spanDigits_append (List.forall_mem_nil _) h

theorem spanFraction_of_head (h : ∀ c ∈ rest.head?, c ≠ '.') : spanFraction rest = ([], rest) := by
  unfold spanFraction
  split
  · exact absurd rfl (h '.' rfl)
  · rfl

/-- A sign, or none in front of digits, is split off. -/
theorem spanSign_of_isDigits (h : IsDigits s) (rest : List Char) :
    spanSign (s ++ rest) = ([], s ++ rest) := by
  obtain ⟨c, more, rfl, hc⟩ := h.exists_cons
  unfold spanSign
  split <;> rename_i heq
  · cases heq; cases hc
  · cases heq; cases hc
  · rfl

/-- An exponent at the front is split off, with the digits that go on with it. -/
theorem length_le_spanExponent (h : Exponent exponent k) (rest : List Char) :
    exponent.length ≤ (spanExponent (exponent ++ rest)).1.length := by
  -- The digits behind the letter and the sign are found, so the letter belongs to an exponent.
  have hfound : ∀ {letter : Char} (sign : List Char) {digits : List Char},
      letter = 'e' ∨ letter = 'E' → IsDigits digits →
      spanSign (sign ++ (digits ++ rest)) = (sign, digits ++ rest) →
      (letter :: (sign ++ digits)).length ≤
        (spanExponent (letter :: (sign ++ (digits ++ rest)))).1.length := by
    intro letter sign digits hletter hdigits hsign
    have hne : digits ++ (spanDigits rest).1 ≠ [] := by simp [hdigits.1]
    rw [spanExponent, hsign]
    dsimp only
    rw [spanDigits_of_forall hdigits.2]
    dsimp only
    rw [if_pos ⟨hletter, hne⟩]
    simp only [List.length_cons, List.length_append]
    omega
  cases h with
  | absent => exact Nat.zero_le _
  | unsigned hletter h => exact hfound [] hletter h (spanSign_of_isDigits h rest)
  | plus hletter h => exact hfound ['+'] hletter h rfl
  | minus hletter h => exact hfound ['-'] hletter h rfl

/-- **No numeral at the front of a text is longer than the one that is split off.** -/
theorem length_le_spanNumeral (h : Denotes s q) (rest : List Char) :
    s.length ≤ (spanNumeral (s ++ rest)).1.length := by
  obtain ⟨hmantissa, hexponent⟩ := h
  rename_i mantissa exponent a k
  have hlonger := length_le_spanExponent hexponent rest
  rw [List.append_assoc, List.length_append, spanNumeral]
  rcases hmantissa.cases_point with ⟨hwhole, -⟩ | ⟨whole, fraction, rfl, hwhole, hfraction, -, -⟩
  · rw [spanDigits_of_forall hwhole.2]
    dsimp only
    by_cases hne : exponent = []
    · simp only [hne, List.length_append, List.length_nil]
      omega
    · have hhead := hexponent.head_append hne rest
      rw [spanDigits_of_head fun c hc => (hhead c hc).1]
      dsimp only
      rw [spanFraction_of_head fun c hc => (hhead c hc).2]
      simp only [List.length_append]
      omega
  · have hpoint : ∀ c ∈ ('.' :: (fraction ++ (exponent ++ rest))).head?, c.isDigit = false := by
      rintro c ⟨⟩
      rfl
    rw [List.append_assoc, List.cons_append, spanDigits_append hwhole hpoint]
    dsimp only
    rw [spanFraction, spanDigits_of_forall hfraction]
    dsimp only
    by_cases hne : exponent = []
    · simp only [hne, List.length_append, List.length_cons, List.length_nil]
      omega
    · rw [spanDigits_of_head fun c hc => (hexponent.head_append hne rest c hc).1]
      simp only [List.length_append, List.length_cons]
      omega

/-! ## What is split off is a numeral -/

theorem isDigit_spanDigits (s : List Char) : ∀ c ∈ (spanDigits s).1, c.isDigit = true :=
  fun _ hc => List.mem_takeWhile_imp hc

theorem spanDigits_append_eq (s : List Char) : (spanDigits s).1 ++ (spanDigits s).2 = s :=
  List.takeWhile_append_dropWhile

theorem exists_spanFraction (s : List Char) :
    ((spanFraction s).1 = [] ∨ ∃ fraction, (spanFraction s).1 = '.' :: fraction ∧
      ∀ c ∈ fraction, c.isDigit = true) ∧ (spanFraction s).1 ++ (spanFraction s).2 = s := by
  unfold spanFraction
  split
  · rename_i rest
    refine ⟨.inr ⟨_, rfl, isDigit_spanDigits rest⟩, ?_⟩
    rw [List.cons_append, spanDigits_append_eq]
  · exact ⟨.inl rfl, rfl⟩

theorem exists_spanSign (s : List Char) : ((spanSign s).1 = [] ∨ (spanSign s).1 = ['+'] ∨
    (spanSign s).1 = ['-']) ∧ (spanSign s).1 ++ (spanSign s).2 = s := by
  unfold spanSign
  split <;> simp

theorem exists_spanExponent (s : List Char) :
    (∃ k, Exponent (spanExponent s).1 k) ∧ (spanExponent s).1 ++ (spanExponent s).2 = s := by
  cases s with
  | nil => exact ⟨⟨0, .absent⟩, rfl⟩
  | cons c rest =>
    obtain ⟨hsign, happend⟩ := exists_spanSign rest
    have hdigits := isDigit_spanDigits (spanSign rest).2
    have happend' := spanDigits_append_eq (spanSign rest).2
    rw [spanExponent]
    dsimp only
    split
    · rename_i hexponent
      obtain ⟨hletter, hne⟩ := hexponent
      constructor
      · rcases hsign with hsign | hsign | hsign <;> rw [hsign]
        · exact ⟨_, .unsigned hletter ⟨hne, hdigits⟩⟩
        · exact ⟨_, .plus hletter ⟨hne, hdigits⟩⟩
        · exact ⟨_, .minus hletter ⟨hne, hdigits⟩⟩
      · rw [List.cons_append, List.cons_append, List.append_assoc, happend', happend]
    · exact ⟨⟨0, .absent⟩, rfl⟩

theorem spanNumeral_append_eq (s : List Char) : (spanNumeral s).1 ++ (spanNumeral s).2 = s := by
  rw [spanNumeral]
  dsimp only
  rw [List.append_assoc, (exists_spanExponent _).2, List.append_assoc, (exists_spanFraction _).2,
    spanDigits_append_eq]

/-- A numeral that does not start with a digit starts with a point and a digit. -/
theorem point_of_startsNumeral (h : startsNumeral c rest = true)
    (hwhole : (spanDigits (c :: rest)).1 = []) :
    c = '.' ∧ ∃ d more, rest = d :: more ∧ d.isDigit = true := by
  have hc : ¬ c.isDigit = true := by
    intro hc
    rw [spanDigits, List.takeWhile_cons_of_pos hc] at hwhole
    cases hwhole
  simp only [startsNumeral, hc, Bool.false_or, Bool.and_eq_true, beq_iff_eq] at h
  obtain ⟨hpoint, hrest⟩ := h
  cases rest with
  | nil => cases hrest
  | cons d more => exact ⟨hpoint, d, more, rfl, hrest⟩

/-- **What is split off where a numeral starts is a numeral.** -/
theorem exists_denotes_spanNumeral (h : startsNumeral c rest = true) :
    ∃ q, Denotes (spanNumeral (c :: rest)).1 q := by
  have hdigits := isDigit_spanDigits (c :: rest)
  obtain ⟨hfraction, -⟩ := exists_spanFraction (spanDigits (c :: rest)).2
  obtain ⟨⟨k, hexponent⟩, -⟩ :=
    exists_spanExponent (spanFraction (spanDigits (c :: rest)).2).2
  suffices hmantissa : ∃ a, Mantissa ((spanDigits (c :: rest)).1 ++
      (spanFraction (spanDigits (c :: rest)).2).1) a by
    obtain ⟨a, ha⟩ := hmantissa
    exact ⟨_, .intro ha hexponent⟩
  by_cases hwhole : (spanDigits (c :: rest)).1 = []
  · obtain ⟨rfl, d, more, rfl, hd⟩ := point_of_startsNumeral h hwhole
    have hspan : spanDigits ('.' :: d :: more) = ([], '.' :: d :: more) := rfl
    have hdigits : IsDigits (spanDigits (d :: more)).1 := by
      refine ⟨?_, isDigit_spanDigits _⟩
      rw [spanDigits, List.takeWhile_cons_of_pos hd]
      exact List.cons_ne_nil _ _
    rw [hspan]
    exact ⟨_, .bare hdigits⟩
  · rcases hfraction with hnone | ⟨fraction, hpoint, hfraction⟩
    · rw [hnone, List.append_nil]
      exact ⟨_, .digits ⟨hwhole, hdigits⟩⟩
    · rw [hpoint]
      exact ⟨_, .point ⟨hwhole, hdigits⟩ hfraction⟩

end Lexer
end SciCalc
