import SciCalc.Proofs.LexicalGrammar

/-! # Tokens are read back

A list of tokens is written with a space between any two.  No lexeme has white space in it, so each
written token is the longest lexeme where it stands (`Lexer.longest_before_blank`), and the text is
cut into the tokens that were written.

The lexer makes no other tokens than those whose written form is a lexeme, except for numerals that
are beyond the finite numbers (`Token.lexeme_text`).
-/
namespace SciCalc

/-! ## The text of a literal is a numeral -/

namespace Decimal.NumeralParts
variable (n : NumeralParts)

/-- The fraction and the exponent of the parts are those of a numeral. -/
theorem mantissa : Mantissa (n.whole ++ n.fractionText)
    (value (n.whole ++ n.decimals) / 10 ^ n.decimals.length) := by
  have hwhole : IsDigits n.whole := ⟨n.whole_ne_nil, n.isDigit_whole⟩
  rw [fractionText]
  split
  · rename_i hnone
    simpa [hnone] using Mantissa.digits hwhole
  · exact .point hwhole n.isDigit_decimals

theorem exponent_exponentText : Exponent n.exponentText (n.exponent.getD 0) := by
  rw [exponentText]
  cases n.exponent with
  | none => exact .absent
  | some e =>
    have hdigits : IsDigits (digits e.natAbs) := ⟨digits_ne_nil _, isDigit_digits _⟩
    have hvalue := value_digits e.natAbs
    dsimp only [Option.getD_some]
    by_cases hneg : e < 0
    · have h : Exponent ('e' :: '-' :: digits e.natAbs) _ := .minus (.inl rfl) hdigits
      have he : -(value (digits e.natAbs) : ℤ) = e := by omega
      rw [he] at h
      rwa [integer, if_pos hneg]
    · have h : Exponent ('e' :: digits e.natAbs) _ := .unsigned (.inl rfl) hdigits
      have he : (value (digits e.natAbs) : ℤ) = e := by omega
      rw [he] at h
      rwa [integer, if_neg hneg]

/-- The written form of the parts denotes the numeral that they make up. -/
theorem denotes_text : Denotes n.text n.numeral.toRat := by
  have h := Denotes.intro n.mantissa n.exponent_exponentText
  have hvalue : (value (n.whole ++ n.decimals) : ℚ) / 10 ^ n.decimals.length *
      10 ^ n.exponent.getD 0 = n.numeral.toRat := by
    rw [Numeral.toRat, numeral]
    dsimp only
    rw [zpow_sub₀ (by norm_num), zpow_natCast, div_mul_eq_mul_div, mul_div_assoc]
  rwa [hvalue] at h

end Decimal.NumeralParts

namespace Lexer
open Decimal
variable {s text rest : List Char} {t : Token} {v : Value} {q : ℚ} {c : Char}

theorem lexeme_of_numeralValue (h : Denotes s q) (hv : numeralValue s = .ok v) :
    Lexeme s (.num v) := by
  obtain ⟨w, hw, hlexeme⟩ := exists_lexeme_of_denotes h
  rw [hv] at hw
  cases hw
  exact hlexeme

/-! ## No white space in a lexeme -/

theorem not_blank_of_continuesName (h : continuesName c = true) : Text.isBlank c = false := by
  simp only [continuesName, Char.isAlphanum, Bool.or_eq_true, beq_iff_eq] at h
  rcases h with (hletter | hdigit) | rfl
  · exact not_blank_of_startsName (Token.startsName_of_isAlpha hletter)
  · exact not_blank_of_isDigit hdigit
  · rfl

theorem not_blank_of_denotes (h : Denotes s q) : ∀ c ∈ s, Text.isBlank c = false := by
  have hmarks : numeralMarks.any Text.isBlank = false := rfl
  exact fun c hc => (h.chars c hc).elim not_blank_of_isDigit fun hmark =>
    eq_false_of_ne_true (List.any_eq_false.mp hmarks c hmark)

/-- No lexeme has white space in it. -/
theorem Lexeme.not_blank_of_mem (h : Lexeme s t) : ∀ c ∈ s, Text.isBlank c = false := by
  cases h with
  | mark h =>
    have hall : ∀ mark ∈ marks, mark.1.all fun c => !Text.isBlank c := by decide
    simpa using hall _ h
  | name hc hmore =>
    exact List.forall_mem_cons.mpr
      ⟨not_blank_of_startsName hc, fun d hd => not_blank_of_continuesName (hmore d hd)⟩
  | integer h => exact not_blank_of_denotes h.denotes
  | real h => exact not_blank_of_denotes h

/-- **A lexeme in front of white space is the longest.** -/
theorem longest_before_blank (h : Lexeme text t)
    (hrest : ∀ c ∈ rest.head?, Text.isBlank c = true) : Longest text t rest := by
  refine ⟨h, fun text' t' h' hfront => ?_⟩
  by_contra hlonger
  -- A longer one would have the white space behind `text` in it.
  obtain ⟨tail, rfl⟩ := List.prefix_of_prefix_length_le (List.prefix_append text rest) hfront
    (Nat.le_of_not_le hlonger)
  obtain ⟨more, rfl⟩ := (List.prefix_append_right_inj text).mp hfront
  cases tail with
  | nil => simp at hlonger
  | cons c tail =>
    have hblank := hrest c rfl
    have hvisible := h'.not_blank_of_mem c (by simp)
    exact absurd hblank (ne_true_of_eq_false hvisible)

end Lexer

/-! ## Writing and reading -/

namespace Token
open Lexer Decimal
variable {s : List Char} {t : Token} {ts : List Token}

/-- A finite number without a minus sign is written as a lexeme. -/
theorem lexeme_literal {v : Value} (hv : v.Unsigned) : Lexeme v.literal (.num v) := by
  obtain ⟨n, htext, hvalue⟩ := Value.exists_literal hv
  rw [← htext]
  exact lexeme_of_numeralValue n.denotes_text hvalue

/-- The token of a lexeme is written as a lexeme, unless it is infinite. -/
theorem lexeme_text {text : List Char} (h : Lexeme text t)
    (hfinite : t ≠ .num (.real (.infinity false))) : Lexeme t.text t := by
  cases h with
  | mark h =>
    have hall : ∀ mark ∈ marks, mark.2.text = mark.1 := by decide
    have htext := hall _ h
    dsimp only at htext
    rw [htext]
    exact .mark h
  | name hc hmore =>
    rw [Token.text, String.toList_ofList]
    exact .name hc hmore
  | @integer text h =>
    have hunsigned : (Value.int (value text)).Unsigned := Int.natCast_nonneg _
    exact lexeme_literal hunsigned
  | real h _ hx =>
    obtain ⟨rank, -, rfl⟩ := hx
    rcases Binary64.ofRank_cases false rank with ⟨m, hm⟩ | hinfinite
    · have hunsigned : (Value.real (.ofRank false rank)).Unsigned := ⟨m, hm⟩
      exact lexeme_literal hunsigned
    · exact absurd (by rw [hinfinite]) hfinite

theorem exists_lexeme_of_cut {rest : List Char} (h : Cut s ts rest) :
    ∀ t ∈ ts, ∃ text, Lexeme text t := by
  induction h with
  | done => exact List.forall_mem_nil _
  | blank _ _ ih => exact ih
  | lexeme ht _ ih => exact List.forall_mem_cons.mpr ⟨⟨_, ht.lexeme⟩, ih⟩

/-- Written lexemes are cut into the tokens that were written. -/
theorem cut_render (h : ∀ t ∈ ts, Lexeme t.text t) : Cut (render ts) ts [] := by
  induction ts with
  | nil => exact .done []
  | cons t rest ih =>
    obtain ⟨ht, hrest⟩ := List.forall_mem_cons.mp h
    cases rest with
    | nil =>
      have hlongest : Longest t.text t [] := longest_before_blank ht nofun
      have hcut := Cut.lexeme hlongest (.done [])
      rwa [List.append_nil] at hcut
    | cons u rest =>
      exact .lexeme (longest_before_blank ht (by rintro c ⟨⟩; rfl)) (.blank rfl (ih hrest))

/-- **Tokens that are written and read again stay the same.** -/
theorem ofChars_render_self (h : ofChars s = .ok ts)
    (hfinite : ∀ x, .num (.real x) ∈ ts → x.isInfinite = false) :
    ofChars (render ts) = .ok ts := by
  have hlexemes := exists_lexeme_of_cut (ofChars_eq_ok_iff.mp h)
  refine ofChars_eq_ok_iff.mpr (cut_render fun t ht => ?_)
  obtain ⟨text, htext⟩ := hlexemes t ht
  refine lexeme_text htext ?_
  rintro rfl
  cases hfinite _ ht

/-- A name right behind a number, stars apart and together, and real numbers, one of which is
written with an exponent and no point. -/
theorem ofChars_render_self_of_stars :
    let tokens : List Token := [.num (.int 2), .name "e", .op .add, .name "x5", .op .mul, .op .mul,
      .op .pow, .op .mul, .num (.real (.ofRatio false 1 2)), .num (.real (.ofInt (10 ^ 16)))]
    ofChars "2e+x5* * ***.5 1e16".toList = .ok tokens ∧
      render tokens = "2 e + x5 * * ** * 0.5 1e16".toList ∧
      ofChars (render tokens) = .ok tokens := by
  intro tokens
  have h : ofChars "2e+x5* * ***.5 1e16".toList = .ok tokens := by decide +kernel
  have hall : (tokens.all fun
      | .num (.real x) => !x.isInfinite
      | _ => true) = true := by decide +kernel
  have hfinite : ∀ x, .num (.real x) ∈ tokens → x.isInfinite = false := fun x hx => by
    simpa using List.all_eq_true.mp hall _ hx
  exact ⟨h, by decide +kernel, ofChars_render_self h hfinite⟩

end Token
end SciCalc
