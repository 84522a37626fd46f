import Mathlib
import SciCalc.Proofs.TreeShape
import SciCalc.Proofs.ValueStack
import SciCalc.Session

/-! # What the angle mode matters to

The angle mode is handed to every step of an evaluation, but three functions alone look at it: sine,
cosine and tangent.  A tree without a call of these has one value or one error in both modes
(`Expr.eval_congr_mode`).

A tree calls only functions that its tokens name (`Expr.named_of_call`).  So the outcome of a text
without the three names is the same in every session (`mode_matters_to_circular`).
-/
namespace SciCalc
open Outcome

namespace Builtin

/-- The functions that take an angle. -/
def circular : List Builtin :=
  [sin, cos, tan]

theorem apply_congr_mode {f : Builtin} (hf : f ∉ circular) (mode mode' : AngleMode)
    (args : List Value) : f.apply mode args = f.apply mode' args := by
  unfold apply
  split <;> first | rfl | exact absurd (by decide) hf

end Builtin

namespace Expr

/-! ## Trees without angles -/

/-- Among the nodes is no call of a function that takes an angle. -/
def Angleless (nodes : List Expr) : Prop :=
  ∀ f ∈ Builtin.circular, ∀ args, call f args ∉ nodes

theorem angleless_append {nodes more : List Expr} :
    Angleless (nodes ++ more) ↔ Angleless nodes ∧ Angleless more := by
  simp [Angleless, not_or, forall_and]

theorem Angleless.tail {node : Expr} {nodes : List Expr} (h : Angleless (node :: nodes)) :
    Angleless nodes :=
  fun f hf args hcall => h f hf args (List.mem_cons_of_mem node hcall)

variable (mode mode' : AngleMode)

mutual

theorem eval_congr_mode (tree : Expr) (h : Angleless tree.subtrees) :
    tree.eval mode = tree.eval mode' := by
  match tree with
  | num v | const c => rfl
  | neg x => rw [eval, eval, eval_congr_mode x h.tail]
  | binary o a b =>
    obtain ⟨ha, hb⟩ := angleless_append.mp h.tail
    rw [eval, eval, eval_congr_mode a ha, eval_congr_mode b hb]
  | chain first links =>
    obtain ⟨hfirst, hlinks⟩ := angleless_append.mp h.tail
    rw [eval, eval, eval_congr_mode first hfirst]
    exact bind_congr fun x => evalLinks_congr_mode x links hlinks
  | call f args =>
    have hf : f ∉ Builtin.circular := fun hf => h f hf args List.mem_cons_self
    rw [eval, eval, evalArgs_congr_mode args h.tail]
    exact bind_congr fun values => Builtin.apply_congr_mode hf mode mode' values

/-- The rest of a chain, behind the value `x`. -/
theorem evalLinks_congr_mode (x : Value) (links : List (BinOp × Expr))
    (h : Angleless (linkSubtrees links)) :
    evalLinks mode x links = evalLinks mode' x links := by
  match links with
  | [] => rfl
  | (o, b) :: rest =>
    obtain ⟨hb, hrest⟩ := angleless_append.mp h
    rw [evalLinks, evalLinks, eval_congr_mode b hb]
    exact bind_congr fun y => bind_congr fun z => evalLinks_congr_mode z rest hrest

theorem evalArgs_congr_mode (args : List Expr) (h : Angleless (argSubtrees args)) :
    evalArgs mode args = evalArgs mode' args := by
  match args with
  | [] => rfl
  | a :: rest =>
    obtain ⟨ha, hrest⟩ := angleless_append.mp h
    rw [evalArgs, evalArgs, eval_congr_mode a ha, evalArgs_congr_mode rest hrest]

end

/-! ## Calls come from names -/

section Calls
variable {f : Builtin} {args : List Expr}

/-- An operator makes no call. -/
theorem call_of_join {o : BinOp} {left right : Node}
    (h : call f args ∈ (join o left right).expr.subtrees) :
    call f args ∈ left.expr.subtrees ∨ call f args ∈ right.expr.subtrees := by
  by_cases ho : o = .pow
  · subst ho
    simpa [join, subtrees] using h
  cases hleft : left.expr with
  | chain first links =>
    rw [join_of_chain ho hleft] at h
    simpa [subtrees, linkSubtrees_append, linkSubtrees, or_assoc] using h
  | num | const | neg | binary | call =>
    rw [join_of_not_chain ho (by rw [hleft]; rfl)] at h
    simpa [hleft, subtrees, linkSubtrees, or_assoc] using h

theorem call_of_callNode {name : String} {count : Nat} {stack rest : List Node} {node : Node}
    (h : callNode name count stack = .ok (node, rest)) :
    rest ⊆ stack ∧ ∀ f args, call f args ∈ node.expr.subtrees →
      f.name = name ∨ ∃ below ∈ stack, call f args ∈ below.expr.subtrees := by
  unfold callNode at h
  split at h
  · cases h
  rename_i g hg
  split at h
  · cases h
  split at h
  · cases h
  cases h
  refine ⟨List.drop_subset .., fun f args hcall => ?_⟩
  rcases List.mem_cons.mp hcall with heq | hcall
  · cases heq
    exact .inl (Builtin.name_of_ofName? hg)
  · obtain ⟨a, ha, hcall⟩ := mem_argSubtrees.mp hcall
    obtain ⟨below, hbelow, rfl⟩ := List.mem_map.mp ha
    exact .inr ⟨below, List.mem_of_mem_take (List.mem_reverse.mp hbelow), hcall⟩

/-- What a token makes calls the function that the token calls, and what the trees on the stack
call. -/
theorem call_of_nodeOf {token : Token} {stack rest : List Node} {node : Node}
    (h : nodeOf token stack = .ok (node, rest)) :
    rest ⊆ stack ∧ ∀ f args, call f args ∈ node.expr.subtrees →
      (∃ count, token = .call f.name count) ∨
        ∃ below ∈ stack, call f args ∈ below.expr.subtrees := by
  cases token with
  | num v =>
    cases h
    exact ⟨List.Subset.refl _, fun f args hcall => by simp [subtrees] at hcall⟩
  | name s =>
    rw [nodeOf] at h
    split at h
    · cases h
      exact ⟨List.Subset.refl _, fun f args hcall => by simp [subtrees] at hcall⟩
    · cases h
  | neg =>
    cases stack with
    | nil => cases h
    | cons x below =>
      cases h
      refine ⟨List.subset_cons_self .., fun f args hcall => .inr ⟨x, List.mem_cons_self, ?_⟩⟩
      simpa [subtrees] using hcall
  | op o =>
    rcases stack with _ | ⟨right, _ | ⟨left, below⟩⟩
    · cases h
    · cases h
    · cases h
      refine ⟨List.subset_cons_of_subset _ (List.subset_cons_self ..), fun f args hcall => .inr ?_⟩
      rcases call_of_join hcall with hleft | hright
      · exact ⟨left, List.mem_cons_of_mem _ List.mem_cons_self, hleft⟩
      · exact ⟨right, List.mem_cons_self, hright⟩
  | call name count =>
    obtain ⟨hrest, hcalls⟩ := call_of_callNode h
    refine ⟨hrest, fun f args hcall => (hcalls f args hcall).imp_left ?_⟩
    rintro rfl
    exact ⟨count, rfl⟩
  | comma | lparen | rparen => cases h

/-- The trees that a run leaves call what its tokens call, and what the trees before it call. -/
theorem call_of_foldlM {tokens : List Token} {stack stack' : List Node}
    (h : tokens.foldlM push stack = .ok stack') {node : Node} (hnode : node ∈ stack')
    (hcall : call f args ∈ node.expr.subtrees) :
    (∃ count, .call f.name count ∈ tokens) ∨
      ∃ below ∈ stack, call f args ∈ below.expr.subtrees := by
  induction tokens generalizing stack with
  | nil =>
    cases h
    exact .inr ⟨node, hnode, hcall⟩
  | cons token tokens ih =>
    rw [List.foldlM_cons] at h
    obtain ⟨next, hpush, h⟩ := exists_of_bind h
    obtain ⟨made, rest, hmade, rfl⟩ := exists_of_push hpush
    obtain ⟨hrest, hcalls⟩ := call_of_nodeOf hmade
    rcases ih h with ⟨count, hmem⟩ | ⟨below, hbelow, hcall⟩
    · exact .inl ⟨count, List.mem_cons_of_mem _ hmem⟩
    rcases List.mem_cons.mp hbelow with rfl | hbelow
    · refine (hcalls f args hcall).imp_left ?_
      rintro ⟨count, rfl⟩
      exact ⟨count, List.mem_cons_self⟩
    · exact .inr ⟨below, hrest hbelow, hcall⟩

/-- **A tree calls only functions that its tokens name.** -/
theorem named_of_call {tokens : List Token} {tree : Expr} (h : ofTokens tokens = .ok tree)
    (hcall : call f args ∈ tree.subtrees) : .name f.name ∈ tokens := by
  obtain ⟨out, hout, htree⟩ := exists_of_bind h
  obtain ⟨d, rfl, rfl⟩ := Grammar.ofTokens_eq_ok_iff.mp hout
  obtain ⟨stack, hstack, htree⟩ := exists_of_bind htree
  match stack, htree with
  | [node], htree =>
    cases htree
    rcases call_of_foldlM hstack List.mem_cons_self hcall with ⟨count, hmem⟩ | ⟨below, hbelow, -⟩
    · exact d.origin_mem_tokens _ hmem
    · cases hbelow

end Calls
end Expr

/-! ## Sessions in different modes -/

/-- A text whose tokens name no function that takes an angle has the same outcome in both modes. -/
theorem calculate_congr_mode {typed : String}
    (h : ∀ s tokens, Input.normalize typed.toList = .ok s → Token.ofChars s = .ok tokens →
      ∀ f ∈ Builtin.circular, .name f.name ∉ tokens) (mode mode' : AngleMode) :
    calculate mode typed = calculate mode' typed := by
  refine bind_congr_ok fun s hs => ?_
  by_cases hempty : s.isEmpty
  · simp only [hempty, if_true]
  simp only [hempty]
  refine bind_congr_ok fun tree htree => ?_
  obtain ⟨tokens, htokens, htree⟩ := exists_of_bind htree
  have hangleless : Expr.Angleless tree.subtrees := fun f hf args hcall =>
    h s tokens hs htokens f hf (Expr.named_of_call htree hcall)
  rw [tree.eval_congr_mode mode mode' hangleless]

/-- **The angle mode matters to sine, cosine and tangent alone.**  A tree without a call of these
has the same value or the same error in both modes.  A text whose tokens, if it has any, name none
of them has the same outcome in any two sessions, whatever their modes and histories, and the same
text is shown. -/
theorem mode_matters_to_circular :
    (∀ tree : Expr, (∀ f ∈ [Builtin.sin, .cos, .tan], ∀ args, .call f args ∉ tree.subtrees) →
      tree.eval .degrees = tree.eval .radians) ∧
    ∀ (a b : Session) (typed : String),
      (∀ s tokens, Input.normalize typed.toList = .ok s → Token.ofChars s = .ok tokens →
        ∀ name ∈ ["sin", "cos", "tan"], .name name ∉ tokens) →
      a.calculate typed = b.calculate typed ∧ (a.evaluate typed).1 = (b.evaluate typed).1 := by
  refine ⟨fun tree h => tree.eval_congr_mode .degrees .radians h, fun a b typed h => ?_⟩
  have hnames : ∀ f ∈ Builtin.circular, f.name ∈ ["sin", "cos", "tan"] := by decide
  have houtcome : a.calculate typed = b.calculate typed :=
    calculate_congr_mode (fun s tokens hs ht f hf => h s tokens hs ht f.name (hnames f hf)) _ _
  refine ⟨houtcome, ?_⟩
  rw [Session.evaluate, Session.evaluate, houtcome]
  split <;> rfl

/-- The tree of `log(8, 2)/0` has one error, and the text `log(8, 2)÷pi` one value. -/
theorem mode_matters_to_circular_of_logarithm :
    let tree : Expr := .chain (.call .log [.num (.int 8), .num (.int 2)]) [(.div, .num (.int 0))]
    let session : Session := { mode := .radians, history := [⟨"1", .int 1⟩] }
    tree.eval .degrees = tree.eval .radians ∧
      (Session.evaluate {} "log(8, 2)÷pi").1 = (session.evaluate "log(8, 2)÷pi").1 := by
  intro tree session
  refine ⟨mode_matters_to_circular.1 tree ?_, (mode_matters_to_circular.2 {} session _ ?_).2⟩
  · simp [tree, Expr.subtrees, Expr.linkSubtrees, Expr.argSubtrees]
  · intro s tokens hs htokens
    have htyped : Input.normalize "log(8, 2)÷pi".toList = .ok "log(8, 2)/pi".toList := by rfl
    have hcut : Token.ofChars "log(8, 2)/pi".toList = .ok [.name "log", .lparen, .num (.int 8),
        .comma, .num (.int 2), .rparen, .op .div, .name "pi"] := by decide +kernel
    obtain rfl := Except.ok.inj (htyped.symm.trans hs)
    obtain rfl := Except.ok.inj (hcut.symm.trans htokens)
    decide

end SciCalc
