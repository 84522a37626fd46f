import SciCalc.Proofs.NumeralValue
import SciCalc.Token

/-! # The text of a numeral

A numeral has up to three parts (`Decimal.NumeralParts`): digits, decimals behind a point, and an
exponent behind a letter.  Its text is read as its parts, whatever stands behind it, as long as that
cannot go on with a numeral (`Ends`).

The literal of a magnitude always has one of the latter two parts, so that it is no integer.
`exists_magnitudeLiteral` finds the parts of the literal of any magnitude, and with them what the
literal is read as: the magnitude itself.
-/
namespace SciCalc

/-- What has a property is split off up to the first character without it. -/
theorem takeWhile_dropWhile_append {α : Type} {p : α → Bool} {s rest : List α}
    (hs : ∀ c ∈ s, p c = true) (hrest : ∀ c ∈ rest.head?, p c = false) :
    (s ++ rest).takeWhile p = s ∧ (s ++ rest).dropWhile p = rest := by
  have hnone : rest.takeWhile p = [] ∧ rest.dropWhile p = rest := by
    cases rest with
    | nil => exact ⟨rfl, rfl⟩
    | cons c r => simp [hrest c rfl]
  rw [List.takeWhile_append_of_pos hs, List.dropWhile_append_of_pos hs, hnone.1, hnone.2,
    List.append_nil]
  exact ⟨rfl, rfl⟩

/-- A text that goes on with no name and no numeral. -/
def Ends (rest : List Char) : Prop :=
  ∀ c ∈ rest.head?, continuesName c = false ∧ c ≠ '.'

theorem ends_nil : Ends [] := by
  simp [Ends]

theorem ends_cons {c : Char} (rest : List Char) (hc : continuesName c = false) (hdot : c ≠ '.') :
    Ends (c :: rest) := by
  simpa [Ends] using ⟨hc, hdot⟩

theorem Ends.not_isDigit {rest : List Char} (h : Ends rest) :
    ∀ c ∈ rest.head?, c.isDigit = false := by
  intro c hc
  have hname := (h c hc).1
  simp only [continuesName, Char.isAlphanum, Bool.or_eq_false_iff] at hname
  exact hname.1.2

theorem Ends.not_exponent {rest : List Char} (h : Ends rest) :
    ∀ c ∈ rest.head?, ¬ (c = 'e' ∨ c = 'E') := by
  rintro c hc (rfl | rfl) <;> exact absurd (h _ hc).1 (by decide)

namespace Decimal

/-! ## Digits and zeros -/

theorem value_append_zeros (s : List Char) (k : Nat) :
    value (s ++ List.replicate k '0') = value s * tenTo k := by
  induction k with
  | zero => simp
  | succ k ih =>
    have hzero : digitValue '0' = 0 := rfl
    rw [List.replicate_succ', ← List.append_assoc, value, valueFrom, List.foldl_append,
      List.foldl_cons, List.foldl_nil, ← valueFrom, ← value, ih, hzero, tenTo_succ]
    ring

theorem value_zeros_append (k : Nat) (s : List Char) :
    value (List.replicate k '0' ++ s) = value s := by
  induction k with
  | zero => rfl
  | succ k ih => exact ih

theorem isDigit_zeros (k : Nat) : ∀ c ∈ List.replicate k '0', c.isDigit = true := by
  intro c hc
  rw [List.eq_of_mem_replicate hc]
  rfl

/-- What is left out at the end of a text is zeros. -/
theorem exists_dropTrailingZeros (s : List Char) :
    ∃ k, s = dropTrailingZeros s ++ List.replicate k '0' := by
  have hsplit : s.reverse = s.reverse.takeWhile (· == '0') ++ s.reverse.dropWhile (· == '0') :=
    List.takeWhile_append_dropWhile.symm
  have hzeros : s.reverse.takeWhile (· == '0') =
      List.replicate (s.reverse.takeWhile (· == '0')).length '0' :=
    List.eq_replicate_of_mem fun c hc => by simpa using List.mem_takeWhile_imp hc
  refine ⟨(s.reverse.takeWhile (· == '0')).length, ?_⟩
  rw [dropTrailingZeros, ← List.reverse_replicate, ← hzeros, ← List.reverse_append, ← hsplit,
    List.reverse_reverse]

/-! ## The parts of a numeral -/

/-- The parts of a numeral. -/
structure NumeralParts where
  whole : List Char
  decimals : List Char
  exponent : Option Int
  whole_ne_nil : whole ≠ []
  isDigit_whole : ∀ c ∈ whole, c.isDigit = true
  isDigit_decimals : ∀ c ∈ decimals, c.isDigit = true

namespace NumeralParts
variable (n : NumeralParts) {rest : List Char}

/-- The point and the decimals, if there are any. -/
def fractionText : List Char :=
  if n.decimals = [] then [] else '.' :: n.decimals

/-- The letter and the exponent, if there is one. -/
def exponentText : List Char :=
  match n.exponent with
  | none => []
  | some e => 'e' :: integer e

/-- The written form of the parts. -/
def text : List Char :=
  n.whole ++ n.fractionText ++ n.exponentText

/-- The numeral that the parts make up. -/
def numeral : Numeral :=
  ⟨value (n.whole ++ n.decimals), n.exponent.getD 0 - n.decimals.length⟩

/-- What tells a floating-point number from an integer: a point or an exponent. -/
def Marked : Prop :=
  n.decimals ≠ [] ∨ n.exponent ≠ none

/-- The one part of an integer. -/
def ofNat (k : Nat) : NumeralParts where
  whole := digits k
  decimals := []
  exponent := none
  whole_ne_nil := digits_ne_nil k
  isDigit_whole := isDigit_digits k
  isDigit_decimals := List.forall_mem_nil _

theorem exists_text : ∃ c more, n.text = c :: more ∧ c.isDigit = true := by
  obtain ⟨c, more, hwhole⟩ := List.exists_cons_of_ne_nil n.whole_ne_nil
  refine ⟨c, more ++ (n.fractionText ++ n.exponentText), ?_,
    n.isDigit_whole c (hwhole ▸ List.mem_cons_self)⟩
  rw [text, hwhole, List.append_assoc, List.cons_append]

@[simp] theorem text_ofNat (k : Nat) : (ofNat k).text = digits k := by
  simp [text, fractionText, exponentText, ofNat]

end NumeralParts

/-! ## Reading the parts -/

theorem spanDigits_append {s rest : List Char} (hs : ∀ c ∈ s, c.isDigit = true)
    (hrest : ∀ c ∈ rest.head?, c.isDigit = false) :
    Numeral.spanDigits (s ++ rest) = (s, rest) :=
  Prod.ext_iff.mpr (takeWhile_dropWhile_append hs hrest)

/-- The sign of an integer that is written, and its digits. -/
theorem exists_integer (e : Int) :
    ∃ sign, integer e = sign ++ digits e.natAbs ∧ (sign = [] ∨ sign = ['-']) := by
  by_cases h : e < 0
  · exact ⟨['-'], if_pos h, .inr rfl⟩
  · exact ⟨[], if_neg h, .inl rfl⟩

theorem exists_digits (n : Nat) : ∃ c rest, digits n = c :: rest ∧ c.isDigit = true := by
  cases h : digits n with
  | nil => exact absurd h (digits_ne_nil n)
  | cons c rest => exact ⟨c, rest, rfl, isDigit_digits n c (h ▸ List.mem_cons_self)⟩

namespace NumeralParts
open Lexer (spanFraction spanSign spanExponent spanNumeral)

variable (n : NumeralParts) {rest : List Char}

theorem spanSign_integer (e : Int) (rest : List Char) :
    ∃ sign, integer e = sign ++ digits e.natAbs ∧
      spanSign (integer e ++ rest) = (sign, digits e.natAbs ++ rest) := by
  obtain ⟨sign, he, rfl | rfl⟩ := exists_integer e
  · obtain ⟨c, more, hc, hdigit⟩ := exists_digits e.natAbs
    refine ⟨[], he, ?_⟩
    have hplus : c ≠ '+' := by rintro rfl; cases hdigit
    have hminus : c ≠ '-' := by rintro rfl; cases hdigit
    rw [he, List.nil_append, hc, List.cons_append, spanSign]
    · exact fun r h => hplus (List.cons.inj h).1
    · exact fun r h => hminus (List.cons.inj h).1
  · exact ⟨['-'], he, by rw [he]; rfl⟩

/-- An exponent is cut off. -/
theorem spanExponent_exponentText (h : Ends rest) :
    spanExponent (n.exponentText ++ rest) = (n.exponentText, rest) := by
  cases he : n.exponent with
  | none =>
    rw [exponentText, he]
    cases rest with
    | nil => rfl
    | cons c r =>
      rw [List.nil_append, spanExponent]
      exact if_neg fun hc => h.not_exponent c rfl hc.1
  | some e =>
    obtain ⟨sign, hinteger, hsign⟩ := spanSign_integer e rest
    have hdigits := spanDigits_append (isDigit_digits e.natAbs) h.not_isDigit
    rw [exponentText, he]
    dsimp only
    rw [List.cons_append, spanExponent]
    simp only [hsign, hdigits]
    rw [if_pos ⟨.inl trivial, digits_ne_nil _⟩, hinteger, List.cons_append]

/-- The point and the decimals are cut off. -/
theorem spanFraction_fractionText
    (h : ∀ c ∈ rest.head?, c.isDigit = false ∧ c ≠ '.') :
    spanFraction (n.fractionText ++ rest) = (n.fractionText, rest) := by
  by_cases hd : n.decimals = []
  · rw [fractionText, if_pos hd]
    cases rest with
    | nil => rfl
    | cons c r =>
      rw [List.nil_append, spanFraction]
      exact fun more hc => (h c rfl).2 (List.cons.inj hc).1
  · rw [fractionText, if_neg hd, List.cons_append, spanFraction,
      spanDigits_append n.isDigit_decimals fun c hc => (h c hc).1]

theorem head_exponentText (h : Ends rest) :
    ∀ c ∈ (n.exponentText ++ rest).head?, c.isDigit = false ∧ c ≠ '.' := by
  cases he : n.exponent with
  | none =>
    rw [exponentText, he]
    exact fun c hc => ⟨h.not_isDigit c hc, (h c hc).2⟩
  | some e =>
    rw [exponentText, he]
    rintro c ⟨⟩
    decide

theorem head_fractionText (h : ∀ c ∈ rest.head?, c.isDigit = false ∧ c ≠ '.') :
    ∀ c ∈ (n.fractionText ++ rest).head?, c.isDigit = false := by
  rw [fractionText]
  split
  · exact fun c hc => (h c hc).1
  · rintro c ⟨⟩
    decide

/-- **A numeral ends where its parts end.** -/
theorem spanNumeral_text (h : Ends rest) : spanNumeral (n.text ++ rest) = (n.text, rest) := by
  have hexponent := n.head_exponentText h
  have hwhole := spanDigits_append n.isDigit_whole (n.head_fractionText hexponent)
  rw [text, List.append_assoc, List.append_assoc, spanNumeral, hwhole]
  dsimp only
  rw [spanFraction_fractionText n hexponent]
  dsimp only
  rw [spanExponent_exponentText n h, List.append_assoc]

theorem exponent?_exponentText : Numeral.exponent? n.exponentText = some (n.exponent.getD 0) := by
  cases he : n.exponent with
  | none =>
    rw [exponentText, he]
    rfl
  | some e =>
    have hplus : ∀ rest, integer e ≠ '+' :: rest := by
      obtain ⟨sign, hinteger, rfl | rfl⟩ := exists_integer e
      · obtain ⟨c, more, hc, hdigit⟩ := exists_digits e.natAbs
        rw [hinteger, List.nil_append, hc]
        rintro rest ⟨⟩
        cases hdigit
      · rw [hinteger]
        rintro rest ⟨⟩
    rw [exponentText, he]
    dsimp only
    rw [Numeral.exponent?, if_pos (.inl rfl), Numeral.exponentDigits?, integer?_integer]
    · rfl
    · exact hplus

/-- The parts are read as the numeral that they make up. -/
theorem read?_text : Numeral.read? n.text = some n.numeral := by
  have hexponent := n.head_exponentText ends_nil
  have hwhole := spanDigits_append n.isDigit_whole (n.head_fractionText hexponent)
  have hempty : n.whole.isEmpty = false := List.isEmpty_eq_false_iff.mpr n.whole_ne_nil
  rw [List.append_nil] at hwhole hexponent
  rw [Numeral.read?, text, List.append_assoc, hwhole]
  dsimp only
  -- Without decimals there is no point either, and the exponent comes at once.
  by_cases hd : n.decimals = []
  · have hnone : n.fractionText = [] := if_pos hd
    rw [hnone, List.nil_append]
    split
    · rename_i rest heq
      rw [heq] at hexponent
      exact absurd rfl (hexponent '.' rfl).2
    · rw [hempty, exponent?_exponentText, numeral, hd]
      rfl
  · have hpoint : n.fractionText = '.' :: n.decimals := if_neg hd
    have hdecimals := spanDigits_append n.isDigit_decimals fun c hc => (hexponent c hc).1
    rw [hpoint, List.cons_append]
    simp only [hdecimals, hempty, exponent?_exponentText]
    rfl

theorem Marked.all_isDigit_text (h : n.Marked) : n.text.all Char.isDigit = false := by
  rw [List.all_eq_false]
  rcases h with hd | he
  · refine ⟨'.', ?_, by decide⟩
    rw [text, fractionText, if_neg hd]
    simp
  · obtain ⟨e, he⟩ := Option.ne_none_iff_exists'.mp he
    refine ⟨'e', ?_, by decide⟩
    rw [text, exponentText, he]
    simp

/-- With a point or an exponent, a numeral is a floating-point number. -/
theorem Marked.numeralValue_text (h : n.Marked) :
    Lexer.numeralValue n.text = .ok (.real (n.numeral.toBinary64 false)) := by
  rw [Lexer.numeralValue, h.all_isDigit_text, read?_text]
  rfl

/-- Digits alone are an integer. -/
theorem numeralValue_ofNat (k : Nat) : Lexer.numeralValue (ofNat k).text = .ok (.int k) := by
  have hall : (digits k).all Char.isDigit = true := List.all_eq_true.mpr (isDigit_digits k)
  rw [text_ofNat, Lexer.numeralValue, hall, natural?_digits]
  rfl

end NumeralParts

/-! ## The parts of a literal -/

/-- Digits with a point among them. -/
theorem exists_withPoint (places : Nat) {s : List Char} (hs : ∀ c ∈ s, c.isDigit = true) :
    ∃ n : NumeralParts, n.Marked ∧ n.text = withPoint places s ∧
      n.numeral.toRat = value s * 10 ^ (-places : Int) := by
  let padded := List.replicate (places + 1 - s.length) '0' ++ s
  have hvalue : value padded = value s := value_zeros_append _ s
  have hlen : places < padded.length := by
    simp only [padded, List.length_append, List.length_replicate]
    omega
  have hdigits : ∀ c ∈ padded, c.isDigit = true :=
    List.forall_mem_append.mpr ⟨isDigit_zeros _, hs⟩
  let whole := padded.take (padded.length - places)
  have hwhole : whole ≠ [] := by
    refine List.ne_nil_of_length_pos ?_
    simp only [whole, List.length_take]
    omega
  have hdigits' : ∀ c ∈ whole, c.isDigit = true := fun c hc => hdigits c (List.mem_of_mem_take hc)
  by_cases hplaces : places = 0
  · subst hplaces
    have htake : whole = padded := List.take_length
    refine ⟨⟨whole, ['0'], none, hwhole, hdigits', isDigit_zeros 1⟩,
      .inl (List.cons_ne_nil _ _), ?_, ?_⟩
    · exact List.append_nil _
    · have hzero : value (padded ++ ['0']) = value padded * tenTo 1 := value_append_zeros padded 1
      rw [NumeralParts.numeral, Numeral.toRat]
      dsimp only
      rw [htake, hzero, hvalue, Nat.cast_mul, cast_tenTo]
      simp
  · let decimals := padded.drop (padded.length - places)
    have hcount : decimals.length = places := by
      simp only [decimals, List.length_drop]
      omega
    have hne : decimals ≠ [] := List.ne_nil_of_length_pos (by omega)
    have hdecimals : ∀ c ∈ decimals, c.isDigit = true := fun c hc =>
      hdigits c (List.mem_of_mem_drop hc)
    refine ⟨⟨whole, decimals, none, hwhole, hdigits', hdecimals⟩, .inl hne, ?_, ?_⟩
    · rw [NumeralParts.text, NumeralParts.fractionText, if_neg hne, withPoint, if_neg hplaces]
      exact List.append_nil _
    · rw [NumeralParts.numeral, Numeral.toRat]
      dsimp only
      rw [List.take_append_drop, hvalue, hcount]
      simp

theorem exists_scientific {s : List Char} (hs : s ≠ []) (hdigits : ∀ c ∈ s, c.isDigit = true)
    (exponent : Int) :
    ∃ n : NumeralParts, n.Marked ∧ n.text = scientific s exponent ∧
      n.numeral.toRat = value s * 10 ^ (exponent + 1 - s.length) := by
  match s, hs with
  | [c], _ =>
    refine ⟨⟨[c], [], some exponent, List.cons_ne_nil _ _, hdigits, List.forall_mem_nil _⟩,
      .inr (by simp), rfl, ?_⟩
    simp [NumeralParts.numeral, Numeral.toRat]
  | c :: d :: rest, _ =>
    obtain ⟨hc, hrest⟩ := List.forall_mem_cons.mp hdigits
    refine ⟨⟨[c], d :: rest, some exponent, List.cons_ne_nil _ _, List.forall_mem_singleton.mpr hc,
      hrest⟩, .inr (by simp), rfl, ?_⟩
    have hexponent : exponent - (d :: rest).length = exponent + 1 - (c :: d :: rest).length := by
      simp only [List.length_cons]
      omega
    rw [NumeralParts.numeral, Numeral.toRat]
    dsimp only [Option.getD_some]
    rw [hexponent]
    rfl

theorem exists_layout {s : List Char} (hs : s ≠ []) (hdigits : ∀ c ∈ s, c.isDigit = true)
    (exponent : Int) :
    ∃ n : NumeralParts, n.Marked ∧ n.text = layout s exponent ∧
      n.numeral.toRat = value s * 10 ^ (exponent + 1 - s.length) := by
  rw [layout]
  split
  · let zeros := (exponent + 1 - (s.length : Int)).toNat
    let places := ((s.length : Int) - 1 - exponent).toNat
    have hzeros : ∀ c ∈ s ++ List.replicate zeros '0', c.isDigit = true :=
      List.forall_mem_append.mpr ⟨hdigits, isDigit_zeros _⟩
    obtain ⟨n, hmarked, htext, hvalue⟩ := exists_withPoint places hzeros
    refine ⟨n, hmarked, htext, ?_⟩
    have hexponent : exponent + 1 - (s.length : Int) = zeros + -places := by omega
    rw [hvalue, value_append_zeros, Nat.cast_mul, cast_tenTo, hexponent,
      zpow_add₀ (by norm_num), zpow_natCast, mul_assoc]
  · exact exists_scientific hs hdigits exponent

/-- **A literal reads back.**  The literal of a magnitude has parts, and they read as the magnitude.
-/
theorem exists_magnitudeLiteral (m : Magnitude) :
    ∃ n : NumeralParts, n.Marked ∧ n.text = magnitudeLiteral m ∧
      n.numeral.toBinary64 false = .finite false m := by
  rw [magnitudeLiteral]
  split
  · rename_i hrank
    have hzero : m = Magnitude.zero := by
      obtain ⟨rank, hlt⟩ := m
      subst hrank
      rfl
    refine ⟨⟨['0'], ['0'], none, List.cons_ne_nil _ _, isDigit_zeros 1, isDigit_zeros 1⟩,
      .inl (List.cons_ne_nil _ _), rfl, ?_⟩
    rw [hzero]
    rfl
  · rename_i hrank
    have hreads := toBinary64_shortest m
    dsimp only
    generalize shortest m = d at hreads
    have hne : d.coefficient ≠ 0 := by
      intro hc
      rw [Numeral.toBinary64, if_pos hc] at hreads
      cases hreads
      exact hrank rfl
    obtain ⟨k, hk⟩ := exists_dropTrailingZeros (digits d.coefficient)
    generalize dropTrailingZeros (digits d.coefficient) = s at hk
    have hdigits : ∀ c ∈ s, c.isDigit = true := fun c hc =>
      isDigit_digits d.coefficient c (hk ▸ List.mem_append_left _ hc)
    have hvalue : d.coefficient = value s * tenTo k := by
      rw [← value_append_zeros, ← hk, value_digits]
    have hs : s ≠ [] := by
      rintro rfl
      exact hne (hvalue.trans (Nat.zero_mul _))
    obtain ⟨n, hmarked, htext, hn⟩ :=
      exists_layout hs hdigits (d.exponent + (digits d.coefficient).length - 1)
    refine ⟨n, hmarked, htext, (Numeral.toBinary64_congr false ?_).trans hreads⟩
    have hexponent : d.exponent + ((digits d.coefficient).length : Int) - 1 + 1 - s.length =
        k + d.exponent := by
      rw [hk, List.length_append, List.length_replicate]
      omega
    rw [hn, hexponent, Numeral.toRat, hvalue, Nat.cast_mul, cast_tenTo, zpow_add₀ (by norm_num),
      zpow_natCast, mul_assoc]

end Decimal
end SciCalc
