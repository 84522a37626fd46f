import SciCalc.Builtin
import SciCalc.Proofs.LiteralText

/-! # Reading one lexeme

What the tokens of a text are when a lexeme stands at its front: the token of the lexeme, and then
the tokens of the rest.  For a mark this is so whatever follows, for a star unless another star
does, and for a name or a numeral if what follows cannot go on with it (`Ends`).

The literals that are read back as they are written are those of the numbers without a minus sign
(`Value.Unsigned`): a sign in front of a number is an operator.
-/
namespace SciCalc

/-- A finite number without a minus sign. -/
def Value.Unsigned : Value → Prop
  | .int n => 0 ≤ n
  | .real x => ∃ m, x = .finite false m

/-- A text that is one name. -/
def IsName (s : String) : Prop :=
  ∃ c more, s.toList = c :: more ∧ startsName c = true ∧ ∀ d ∈ more, continuesName d = true

theorem Constant.isName (c : Constant) : IsName c.name := by
  cases c <;> exact ⟨_, _, rfl, rfl, List.all_eq_true.mp rfl⟩

theorem Builtin.isName (f : Builtin) : IsName f.name := by
  cases f <;> exact ⟨_, _, rfl, rfl, List.all_eq_true.mp rfl⟩

namespace Token
open Lexer
variable {c : Char} {rest after : List Char} {t : Token}

theorem ofChars_of_piece (h : piece c rest = .ok (.token t, after)) :
    ofChars (c :: rest) = (ofChars after).map (t :: ·) := by
  rw [ofChars]
  split <;> rename_i heq <;> rw [h] at heq <;> cases heq
  rfl

/-! ## Marks -/

theorem ofChars_mark (h : mark? c = some t) (rest : List Char) :
    ofChars (c :: rest) = (ofChars rest).map (t :: ·) := by
  have hblank : Text.isBlank c = false := by
    unfold mark? at h
    split at h <;> first | rfl | cases h
  refine ofChars_of_piece ?_
  unfold piece
  rw [hblank, h]
  rfl

/-- Two stars are one operator. -/
theorem ofChars_pow (rest : List Char) :
    ofChars ('*' :: '*' :: rest) = (ofChars rest).map (.op .pow :: ·) :=
  ofChars_of_piece rfl

theorem ofChars_mul (h : ∀ c ∈ rest.head?, c ≠ '*') :
    ofChars ('*' :: rest) = (ofChars rest).map (.op .mul :: ·) := by
  refine ofChars_of_piece ?_
  have hblank : Text.isBlank '*' = false := rfl
  have hmark : mark? '*' = none := rfl
  unfold piece
  rw [hblank, if_neg Bool.false_ne_true, hmark]
  dsimp only
  rw [if_pos rfl]
  split
  · exact absurd rfl (h '*' rfl)
  · rfl

theorem ofChars_op (o : BinOp) (h : ∀ c ∈ rest.head?, c ≠ '*') :
    ofChars (o.symbol ++ rest) = (ofChars rest).map (.op o :: ·) := by
  cases o with
  | mul => exact ofChars_mul h
  | pow => exact ofChars_pow rest
  | add | sub | div | mod => exact ofChars_mark rfl rest

/-! ## Names and numerals -/

/-- White space is none of the visible characters of ASCII. -/
theorem isBlank_eq_false (h : 33 ≤ c.toNat) (h' : c.toNat < 128) : Text.isBlank c = false := by
  simp only [Text.isBlank, Text.blankRuns, List.any_cons, List.any_nil, Bool.or_false,
    Bool.or_eq_false_iff, Bool.and_eq_false_iff, decide_eq_false_iff_not]
  omega

theorem startsName_of_isAlpha (h : c.isAlpha = true) : startsName c = true := by
  rw [startsName, h, Bool.true_or]

theorem toNat_of_startsName (h : startsName c = true) : 65 ≤ c.toNat ∧ c.toNat < 128 := by
  simp only [startsName, Char.isAlpha, Char.isUpper, Char.isLower, Bool.or_eq_true,
    Bool.and_eq_true, decide_eq_true_eq, beq_iff_eq] at h
  rcases h with (h | h) | rfl
  · have hlow : 65 ≤ c.toNat := h.1
    have hhigh : c.toNat ≤ 90 := h.2
    omega
  · have hlow : 97 ≤ c.toNat := h.1
    have hhigh : c.toNat ≤ 122 := h.2
    omega
  · decide

/-- What starts a name or a numeral is no mark and no star. -/
theorem not_mark (h : startsName c = true ∨ c.isDigit = true) : mark? c = none ∧ c ≠ '*' := by
  constructor
  · unfold mark?
    split <;> first | rfl | exact absurd h (by decide)
  · rintro rfl
    exact absurd h (by decide)

theorem ofChars_name {s : String} (hs : IsName s) (hrest : Ends rest) :
    ofChars (s.toList ++ rest) = (ofChars rest).map (.name s :: ·) := by
  obtain ⟨c, more, hchars, hc, hmore⟩ := hs
  obtain ⟨hlow, hhigh⟩ := toNat_of_startsName hc
  have hblank : Text.isBlank c = false := isBlank_eq_false (by omega) hhigh
  obtain ⟨hmark, hstar⟩ := not_mark (.inl hc)
  obtain ⟨htake, hdrop⟩ := takeWhile_dropWhile_append hmore fun d hd => (hrest d hd).1
  have hname : String.ofList (c :: more) = s := by rw [← hchars, String.ofList_toList]
  rw [hchars, List.cons_append]
  refine ofChars_of_piece ?_
  unfold piece
  rw [hblank, if_neg Bool.false_ne_true, hmark]
  dsimp only
  rw [if_neg hstar, if_pos hc, htake, hdrop, hname]

/-- A digit starts a numeral. -/
theorem piece_of_isDigit (hc : c.isDigit = true) : piece c rest =
    (numeralValue (spanNumeral (c :: rest)).1).map fun v =>
      (.token (.num v), (spanNumeral (c :: rest)).2) := by
  obtain ⟨hlow, hhigh⟩ := Decimal.toNat_of_isDigit hc
  have hblank : Text.isBlank c = false := isBlank_eq_false (by omega) (by omega)
  obtain ⟨hmark, hstar⟩ := not_mark (.inr hc)
  have hname : ¬ startsName c = true := by
    intro hname
    have hletter := (toNat_of_startsName hname).1
    omega
  have hstart : startsNumeral c rest = true := by
    unfold startsNumeral
    rw [hc]
    rfl
  unfold piece
  rw [hblank, if_neg Bool.false_ne_true, hmark]
  dsimp only
  rw [if_neg hstar, if_neg hname, if_pos hstart]

theorem ofChars_numeral (n : Decimal.NumeralParts) {v : Value} (hv : numeralValue n.text = .ok v)
    (hrest : Ends rest) : ofChars (n.text ++ rest) = (ofChars rest).map (.num v :: ·) := by
  obtain ⟨c, more, htext, hc⟩ := n.exists_text
  have hspan := n.spanNumeral_text hrest
  rw [htext] at hspan hv ⊢
  rw [List.cons_append] at hspan ⊢
  refine ofChars_of_piece ?_
  rw [piece_of_isDigit hc, hspan, hv]
  rfl

end Token

/-- **A literal is a numeral that is read as its value.** -/
theorem Value.exists_literal {v : Value} (hv : v.Unsigned) :
    ∃ n : Decimal.NumeralParts, n.text = v.literal ∧ Lexer.numeralValue n.text = .ok v := by
  cases v with
  | int n =>
    obtain ⟨k, rfl⟩ := Int.eq_ofNat_of_zero_le hv
    have hnonneg : ¬ (k : Int) < 0 := by omega
    refine ⟨.ofNat k, ?_, Decimal.NumeralParts.numeralValue_ofNat k⟩
    rw [Decimal.NumeralParts.text_ofNat, literal, Decimal.integer, if_neg hnonneg,
      Int.natAbs_natCast]
  | real x =>
    obtain ⟨m, rfl⟩ := hv
    obtain ⟨n, hmarked, htext, hn⟩ := Decimal.exists_magnitudeLiteral m
    exact ⟨n, htext, by rw [hmarked.numeralValue_text, hn]⟩

/-! ## The numbers that are read -/

theorem Decimal.Numeral.toBinary64_cases (s : Bool) (d : Numeral) :
    (∃ m, d.toBinary64 s = .finite s m) ∨ d.toBinary64 s = .infinity s := by
  rw [toBinary64_eq_ofRatio]
  exact Binary64.ofRank_cases s _

/-- A numeral has no minus sign; one beyond the finite numbers is infinite. -/
theorem Lexer.unsigned_of_numeralValue {s : List Char} {v : Value} (h : numeralValue s = .ok v) :
    v.Unsigned ∨ v = .real (.infinity false) := by
  unfold numeralValue at h
  split at h
  · split at h
    · cases h
      exact .inl (Int.natCast_nonneg _)
    · cases h
  · split at h
    · rename_i d _
      cases h
      rcases d.toBinary64_cases false with ⟨m, hm⟩ | hinf
      · exact .inl ⟨m, hm⟩
      · exact .inr (congrArg _ hinf)
    · cases h

theorem Lexer.numeral_of_piece {c : Char} {rest after : List Char} {v : Value}
    (h : piece c rest = .ok (.token (.num v), after)) : ∃ s, numeralValue s = .ok v := by
  unfold piece at h
  split at h
  · cases h
  · split at h
    · rename_i t ht
      cases h
      unfold mark? at ht
      split at ht <;> cases ht
    · split at h
      · split at h <;> cases h
      · split at h
        · cases h
        · split at h
          · obtain ⟨w, hw, heq⟩ := Outcome.exists_of_map h
            cases heq
            exact ⟨_, hw⟩
          · cases h

/-- **No number that is read has a minus sign.** -/
theorem Token.unsigned_of_ofChars {s : List Char} {tokens : List Token} {v : Value}
    (h : ofChars s = .ok tokens) (hv : .num v ∈ tokens) :
    v.Unsigned ∨ v = .real (.infinity false) := by
  fun_induction ofChars s generalizing tokens with
  | case1 =>
    cases h
    cases hv
  | case2 => cases h
  | case3 c rest after hpiece ih => exact ih h hv
  | case4 c rest t after hpiece ih =>
    obtain ⟨more, hmore, rfl⟩ := Outcome.exists_of_map h
    rcases List.mem_cons.mp hv with rfl | hv
    · obtain ⟨text, htext⟩ := Lexer.numeral_of_piece hpiece
      exact Lexer.unsigned_of_numeralValue htext
    · exact ih hmore hv

end SciCalc
