import Mathlib
import SciCalc.Proofs.TreeBuilding
import SciCalc.Session

/-! # Foreign names

A calculation knows fifteen functions and two constants.  Any other name, and any of these where it
does not belong, is *foreign*: the name of a function that no opening parenthesis follows, or the
name of a constant that one does.  An expression with a foreign name is an invalid expression,
wherever the name stands and whatever else is wrong (`calculate_of_foreign`).

The reason is in the order of the steps.  Tokens without a postfix form are refused as an invalid
expression (`failsInvalid_convert`).  Tokens that have one are a sentence, whose names are all
looked up before anything is evaluated.
-/
namespace SciCalc.Grammar
open Outcome

/-! ## Names where they stand -/

/-- The names that an opening parenthesis follows directly. -/
def calledNames : List Token → List String
  | .name f :: .lparen :: rest => f :: calledNames rest
  | _ :: rest => calledNames rest
  | [] => []

/-- A name is known in front of the tokens that follow it: before an opening parenthesis as a
function, and elsewhere as a constant. -/
def KnownBefore (s : String) (after : List Token) : Prop :=
  if after.head? = some .lparen then ∃ f : Builtin, f.name = s else ∃ c : Constant, c.name = s

/-- There is a name that is not known where it stands. -/
def Foreign (tokens : List Token) : Prop :=
  ∃ before s after, tokens = before ++ .name s :: after ∧ ¬ KnownBefore s after

theorem bareNames_subset_cons (token : Token) (rest : List Token) :
    bareNames rest ⊆ bareNames (token :: rest) := by
  intro s hs
  unfold bareNames
  split
  · rename_i rest heq
    cases heq
    exact hs
  · rename_i heq
    cases heq
    exact List.mem_cons_of_mem _ hs
  · rename_i heq
    cases heq
    exact hs
  · rename_i heq
    cases heq

theorem calledNames_subset_cons (token : Token) (rest : List Token) :
    calledNames rest ⊆ calledNames (token :: rest) := by
  intro s hs
  unfold calledNames
  split
  · rename_i rest heq
    cases heq
    exact List.mem_cons_of_mem _ hs
  · rename_i heq
    cases heq
    exact hs
  · rename_i heq
    cases heq

theorem mem_bareNames {s : String} {after : List Token} (h : after.head? ≠ some .lparen)
    (before : List Token) : s ∈ bareNames (before ++ .name s :: after) := by
  induction before with
  | nil =>
    rw [List.nil_append, bareNames]
    · exact List.mem_cons_self
    · rintro rest rfl
      exact h rfl
  | cons token before ih => exact bareNames_subset_cons token _ ih

theorem mem_calledNames {s : String} {after : List Token} (h : after.head? = some .lparen)
    (before : List Token) : s ∈ calledNames (before ++ .name s :: after) := by
  induction before with
  | nil =>
    obtain ⟨rest, rfl⟩ := List.head?_eq_some_iff.mp h
    exact List.mem_cons_self
  | cons token before ih => exact calledNames_subset_cons token _ ih

namespace Derivation
variable {l : Level}

theorem calledNames_tokens (t : Derivation l) : ∀ {rest : List Token}, Stops .atom rest →
    calledNames (t.tokens ++ rest) = t.calls.map Prod.fst ++ calledNames rest := by
  induction t with
  | num v => intro rest _; rfl
  | emptyCall f => intro rest _; rfl
  | name s =>
    intro rest hs
    rw [tokens, List.cons_append, List.nil_append, calledNames]
    · rfl
    · rintro f r heq rfl
      exact not_stops_lparen _ _ hs
  | group e ih =>
    intro rest _
    simpa [tokens, calls, calledNames] using ih (stops_rparen .atom rest)
  | call f a ih =>
    intro rest _
    simpa [tokens, calls, calledNames] using ih (stops_rparen .atom rest)
  | ofAtom a ih => exact ih
  | ofPower p ih => exact ih
  | first x ih => exact ih
  | plus u ih => exact ih
  | minus u ih => exact ih
  | pow a u iha ihu =>
    intro rest hs
    simp only [tokens, calls, List.append_assoc, List.cons_append, List.map_append]
    rw [iha (stops_pow _), ← ihu hs]
    rfl
  | next xs s h x ihxs ihx =>
    intro rest hs
    simp only [tokens, calls, List.append_assoc, List.cons_append, List.map_append]
    rw [ihxs (Series.separator_stops h _).atom, ← ihx hs]
    rcases Series.separator_cases h with ⟨-, rfl⟩ | ⟨-, o, rfl, -, -⟩ <;> rfl

/-- The called names of a sentence are those that a parenthesis follows. -/
theorem calledNames_eq_calls (t : Derivation l) : calledNames t.tokens = t.calls.map Prod.fst := by
  simpa [calledNames] using t.calledNames_tokens (stops_nil .atom)

/-- What is asked of a sentence rules foreign names out. -/
theorem Acceptable.not_foreign {t : Derivation l} (h : t.Acceptable) : ¬ Foreign t.tokens := by
  rintro ⟨before, s, after, htokens, hforeign⟩
  refine hforeign ?_
  by_cases hcall : after.head? = some .lparen
  · have hs : s ∈ t.calls.map Prod.fst := by
      rw [← t.calledNames_eq_calls, htokens]
      exact mem_calledNames hcall before
    obtain ⟨c, hc, rfl⟩ := List.mem_map.mp hs
    obtain ⟨f, hf, -⟩ := h.calls c hc
    rw [KnownBefore, if_pos hcall]
    exact ⟨f, hf⟩
  · have hs : s ∈ t.names := by
      rw [← t.bareNames_eq_names, htokens]
      exact mem_bareNames hcall before
    obtain ⟨c, hc⟩ := ofName?_constant_iff.mpr (h.names s hs)
    rw [KnownBefore, if_neg hcall]
    exact ⟨c, Constant.name_of_ofName? hc⟩

end Derivation

/-! ## Invalid expressions -/

/-- If a step of reading fails, the expression is invalid. -/
def FailsInvalid {α : Type} (result : Except CalcError α) : Prop :=
  ∀ e, result = .error e → ∃ fault, e = .invalidExpression fault

theorem failsInvalid_ok {α : Type} (a : α) : FailsInvalid (.ok a) := by
  rintro e ⟨⟩

theorem failsInvalid_fail (fault : Fault) : FailsInvalid (Postfix.fail fault) := by
  rintro e ⟨⟩
  exact ⟨fault, rfl⟩

theorem FailsInvalid.map {α β : Type} {result : Except CalcError α} (h : FailsInvalid result)
    (f : α → β) : FailsInvalid (result.map f) := by
  cases result with
  | ok a => exact failsInvalid_ok (f a)
  | error e =>
    rintro _ ⟨⟩
    exact h e rfl

/-- Tokens without a postfix form are an invalid expression. -/
theorem failsInvalid_convert (position : Postfix.Position) (stack : List Postfix.Pending)
    (tokens : List Token) : FailsInvalid (Postfix.convert position stack tokens) := by
  fun_induction Postfix.convert position stack tokens with
  | case1 => exact failsInvalid_ok _
  -- Something is out already, and the rest is read after it.
  | case5 | case9 | case13 | case17 | case19 | case20 =>
    rename_i ih
    exact ih.map _
  | case7 | case11 | case21 | case22 =>
    rename_i ih
    exact ih
  | _ => exact failsInvalid_fail _

/-- Tokens with a foreign name have no tree. -/
theorem ofTokens_of_foreign {tokens : List Token} (h : Foreign tokens) :
    ∃ fault, Expr.ofTokens tokens = .error (.invalidExpression fault) := by
  rw [Expr.ofTokens]
  cases hpost : Postfix.ofTokens tokens with
  | error e =>
    obtain ⟨fault, rfl⟩ := failsInvalid_convert .operand [] tokens e hpost
    exact ⟨fault, rfl⟩
  | ok out =>
    obtain ⟨t, rfl, rfl⟩ := ofTokens_eq_ok_iff.mp hpost
    rcases settles_ofPostfix t with ⟨hok, -⟩ | ⟨-, fault, hfault, -⟩
    · exact absurd h hok.not_foreign
    · exact ⟨fault, hfault⟩

/-- **A foreign name makes the expression invalid.**  Whatever is typed and wherever the name stands
in it, there is no value and no other error, in every session; the session stays as it is. -/
theorem calculate_of_foreign {typed : String} {s : List Char} {tokens : List Token}
    (hs : Input.normalize typed.toList = .ok s) (ht : Token.ofChars s = .ok tokens)
    (h : Foreign tokens) (session : Session) :
    (∃ fault, session.calculate typed = .error (.invalidExpression fault)) ∧
      session.evaluate typed = ("Error: Invalid Expression", session) := by
  obtain ⟨fault, hfault⟩ := ofTokens_of_foreign h
  have hne : s ≠ [] := by
    -- No text has no tokens, and so no name.
    rintro rfl
    obtain ⟨before, name, after, rfl, -⟩ := h
    simp [Token.ofChars] at ht
  have hcalc : session.calculate typed = .error (.invalidExpression fault) := by
    have htree : Expr.ofChars s = .error (.invalidExpression fault) := by
      rw [Expr.ofChars, ht]
      exact hfault
    simp only [Session.calculate, calculate, hs, htree, ok_eq_pure, pure_bind,
      List.isEmpty_iff, if_neg hne]
    rfl
  exact ⟨⟨fault, hcalc⟩, Session.evaluate_of_error hcalc⟩

/-- `1/0 + abs(sqrt * 2)`: a function without arguments, behind a division by zero. -/
theorem calculate_of_foreign_function :
    let tokens : List Token := [.num (.int 1), .op .div, .num (.int 0), .op .add, .name "abs",
      .lparen, .name "sqrt", .op .mul, .num (.int 2), .rparen]
    Input.normalize " 1/0 + abs(sqrt × 2)".toList = .ok "1/0 + abs(sqrt * 2)".toList ∧
      Token.ofChars "1/0 + abs(sqrt * 2)".toList = .ok tokens ∧ Foreign tokens ∧
      Session.evaluate {} " 1/0 + abs(sqrt × 2)" = ("Error: Invalid Expression", {}) := by
  intro tokens
  have hs : Input.normalize " 1/0 + abs(sqrt × 2)".toList = .ok "1/0 + abs(sqrt * 2)".toList := by
    rfl
  have ht : Token.ofChars "1/0 + abs(sqrt * 2)".toList = .ok tokens := by cbv
  have hforeign : Foreign tokens := by
    refine ⟨tokens.take 6, "sqrt", tokens.drop 7, rfl, ?_⟩
    rintro ⟨c, hc⟩
    cases c <;> exact absurd hc (by decide)
  exact ⟨hs, ht, hforeign, (calculate_of_foreign hs ht hforeign {}).2⟩

end SciCalc.Grammar
