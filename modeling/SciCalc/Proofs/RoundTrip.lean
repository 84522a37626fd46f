import SciCalc.Proofs.Lexemes
import SciCalc.Proofs.TreeShape

/-! # What is written is read back

The written form of a tree has a pair of parentheses around every operation.  Its tokens are a
sentence of the grammar, and reading them puts the tree together again, link by link where the tree
has a chain (`exists_reads`).  `Reads` says of a text, of trees and of a derivation what all steps
between them have to do, so that each way of writing is one lemma: a number, a constant, a sign, an
operation, an argument and a call.

Literals with a minus sign do not read back, for the sign is read as an operator
(`Expr.ofTokens_ofChars_render_of_negative`).  The lexer makes none, so what is read from a text and
written is read back (`Expr.ofChars_render`).
-/
namespace SciCalc.Grammar
open SciCalc.Expr Outcome

/-! ## Phrases in parentheses -/

namespace Derivation

/-- An atom as an operand. -/
def operand (a : Derivation .atom) : Derivation .signed :=
  .ofPower (.ofAtom a)

/-- An operand as a sum. -/
def sum (u : Derivation .signed) : Derivation (.series .sum) :=
  @first .sum (@first .product u)

/-- A sign in parentheses, in front of an atom. -/
def negation (a : Derivation .atom) : Derivation .atom :=
  .group (sum (.minus a.operand))

/-- An operation in parentheses, on two atoms. -/
def operation (a : Derivation .atom) (o : BinOp) (b : Derivation .atom) : Derivation .atom :=
  let overSum (s : Token) (h : s ∈ Series.separators .sum) : Derivation .atom :=
    .group (.next (sum a.operand) s h (@first .product b.operand))
  let overProduct (s : Token) (h : s ∈ Series.separators .product) : Derivation .atom :=
    .group (@first .sum (.next (@first .product a.operand) s h b.operand))
  match o with
  | .add => overSum (.op .add) (by simp [Series.separators])
  | .sub => overSum (.op .sub) (by simp [Series.separators])
  | .mul => overProduct (.op .mul) (by simp [Series.separators])
  | .div => overProduct (.op .div) (by simp [Series.separators])
  | .mod => overProduct (.op .mod) (by simp [Series.separators])
  | .pow => .group (sum (.ofPower (.pow a b.operand)))

variable (a b : Derivation .atom) (o : BinOp)

theorem tokens_negation : a.negation.tokens = .lparen :: .op .sub :: a.tokens ++ [.rparen] := rfl

theorem postorder_negation : a.negation.postorder = a.postorder ++ [.neg] := rfl

theorem tokens_operation :
    (a.operation o b).tokens = .lparen :: (a.tokens ++ .op o :: b.tokens) ++ [.rparen] := by
  cases o <;> rfl

theorem postorder_operation :
    (a.operation o b).postorder = a.postorder ++ b.postorder ++ [.op o] := by
  cases o <;> rfl

end Derivation

/-! ## Reading -/

/-- A tree on the stack. -/
def entry (tree : Expr) : Node :=
  ⟨tree, tree.height⟩

theorem entry_expr {node : Node} (h : node.expr.height = node.height) : entry node.expr = node := by
  rw [entry, h]

/-- The text is read as the derivation, and the postfix traversal of that puts the trees on the
stack. -/
structure Reads {l : Level} (text : List Char) (trees : List Expr) (d : Derivation l) : Prop where
  begins : ∃ c more, text = c :: more ∧ c ≠ '*'
  ofChars : ∀ rest, Ends rest →
    Token.ofChars (text ++ rest) = (Token.ofChars rest).map (d.tokens ++ ·)
  builds : ∀ stack, d.postorder.foldlM push stack = .ok ((trees.map entry).reverse ++ stack)
  count : d.commas + 1 = trees.length

namespace Reads
variable {l l' : Level} {text s t : List Char} {tree x : Expr} {trees : List Expr}

theorem head_append {d : Derivation l} (h : Reads text trees d) (rest : List Char) :
    ∀ c ∈ (text ++ rest).head?, c ≠ '*' := by
  obtain ⟨c, more, rfl, hc⟩ := h.begins
  rintro _ ⟨⟩
  exact hc

theorem congr {d : Derivation l} {d' : Derivation l'} (h : Reads text trees d)
    (htokens : d'.tokens = d.tokens) (hpostorder : d'.postorder = d.postorder)
    (hcommas : d'.commas = d.commas) : Reads text trees d' where
  begins := h.begins
  ofChars := htokens ▸ h.ofChars
  builds := hpostorder ▸ h.builds
  count := hcommas ▸ h.count

/-! ## Leaves and signs -/

theorem num {v : Value} (hv : v.Unsigned) : Reads v.literal [.num v] (.num v) where
  begins := by
    obtain ⟨n, htext, -⟩ := Value.exists_literal hv
    obtain ⟨c, more, hc, hdigit⟩ := n.exists_text
    refine ⟨c, more, htext ▸ hc, ?_⟩
    rintro rfl
    cases hdigit
  ofChars rest hrest := by
    obtain ⟨n, htext, hread⟩ := Value.exists_literal hv
    rw [← htext]
    exact Token.ofChars_numeral n hread hrest
  builds stack := rfl
  count := rfl

theorem const (c : Constant) : Reads c.name.toList [.const c] (.name c.name) where
  begins := by
    obtain ⟨first, more, hname, hfirst, -⟩ := c.isName
    exact ⟨first, more, hname, (Token.not_mark (.inl hfirst)).2⟩
  ofChars rest hrest := Token.ofChars_name c.isName hrest
  builds stack := by
    rw [Derivation.postorder, foldlM_one, push, nodeOf, Constant.ofName?_name]
    rfl
  count := rfl

theorem neg {a : Derivation .atom} (h : Reads text [x] a)
    (hheight : (Expr.neg x).height ≤ maxHeight) : Reads ('(' :: '-' :: text ++ [')']) [.neg x]
      a.negation where
  begins := ⟨'(', _, rfl, by decide⟩
  ofChars rest hrest := by
    have htext := h.ofChars (')' :: rest) (ends_cons rest rfl (by decide))
    rw [Token.ofChars_mark (t := .rparen) rfl] at htext
    simp only [List.cons_append, List.append_assoc, List.nil_append]
    rw [Token.ofChars_mark (t := .lparen) rfl, Token.ofChars_mark (t := .op .sub) rfl, htext]
    rw [a.tokens_negation]
    cases Token.ofChars rest <;> simp [Except.map]
  builds stack := by
    have hpush : push (entry x :: stack) .neg = .ok (entry (.neg x) :: stack) :=
      if_neg (Nat.not_lt.mpr hheight)
    rw [a.postorder_negation, List.foldlM_append, h.builds]
    exact (foldlM_one _ _).trans hpush
  count := rfl

/-! ## Operations -/

/-- An operation is read if its operands are and its own tree is not too high. -/
theorem join {a b : Derivation .atom} (o : BinOp) {y : Expr} (ha : Reads s [x] a)
    (hb : Reads t [y] b) (htree : (join o (entry x) (entry y)).expr = tree)
    (hheight : tree.height ≤ maxHeight) :
    Reads ('(' :: s ++ o.symbol ++ t ++ [')']) [tree] (a.operation o b) where
  begins := ⟨'(', _, rfl, by decide⟩
  ofChars rest hrest := by
    have hsymbol : Ends (o.symbol ++ (t ++ ')' :: rest)) := by
      cases o <;> exact ends_cons _ rfl (by decide)
    have hright := hb.ofChars (')' :: rest) (ends_cons rest rfl (by decide))
    have hleft := ha.ofChars _ hsymbol
    rw [Token.ofChars_op o (hb.head_append _), hright,
      Token.ofChars_mark (t := .rparen) rfl] at hleft
    simp only [List.cons_append, List.append_assoc, List.nil_append]
    rw [Token.ofChars_mark (t := .lparen) rfl, hleft, Derivation.tokens_operation]
    cases Token.ofChars rest <;> simp [Except.map]
  builds stack := by
    have hentry : SciCalc.Expr.join o (entry x) (entry y) = entry tree :=
      htree ▸ (entry_expr (height_join rfl rfl)).symm
    have hpush : push (entry y :: entry x :: stack) (.op o) = .ok (entry tree :: stack) := by
      rw [push, nodeOf, hentry]
      exact if_neg (Nat.not_lt.mpr hheight)
    rw [Derivation.postorder_operation, List.foldlM_append, List.foldlM_append, ha.builds]
    show (b.postorder.foldlM push (entry x :: stack) >>= _) = _
    rw [hb.builds]
    exact (foldlM_one _ _).trans hpush
  count := congrArg (· + 1) (Derivation.commas_eq_zero _ (by decide))

/-! ## Calls -/

theorem firstArgument {a : Derivation .atom} (h : Reads text [x] a) :
    Reads text [x] (@Derivation.first .args (.sum a.operand)) :=
  h.congr rfl rfl (Derivation.commas_eq_zero a (by decide)).symm

/-- A comma and one more argument. -/
theorem nextArgument {xs : Derivation (.series .args)} {a : Derivation .atom}
    (hxs : Reads s trees xs) (h : Reads t [x] a) :
    Reads (s ++ ',' :: t) (trees ++ [x])
      (.next xs .comma (by simp [Series.separators]) (.sum a.operand)) where
  begins := by
    obtain ⟨c, more, rfl, hc⟩ := hxs.begins
    exact ⟨c, _, rfl, hc⟩
  ofChars rest hrest := by
    have hleft := hxs.ofChars (',' :: (t ++ rest)) (ends_cons _ rfl (by decide))
    rw [Token.ofChars_mark (t := .comma) rfl, h.ofChars rest hrest] at hleft
    rw [List.append_assoc, List.cons_append, hleft]
    cases Token.ofChars rest <;>
      simp [Except.map, Derivation.tokens, Derivation.sum, Derivation.operand]
  builds stack := by
    show (xs.postorder ++ a.postorder ++ []).foldlM push stack = _
    rw [List.append_nil, List.foldlM_append, hxs.builds]
    show a.postorder.foldlM push _ = _
    rw [h.builds]
    simp
  count := by
    show xs.commas + 1 + 1 = _
    rw [hxs.count, List.length_append]
    rfl

/-- A call takes as many trees from the stack as it has arguments. -/
theorem callNode_entries (f : Builtin) (haccepts : f.accepts trees.length = true)
    (stack : List Node) :
    callNode f.name trees.length ((trees.map entry).reverse ++ stack) =
      .ok (entry (.call f trees), stack) := by
  have hlen : (trees.map entry).reverse.length = trees.length := by simp
  have hexprs : (trees.map entry).map Node.expr = trees := by simp [entry, Function.comp_def]
  have hheight : maxNodeHeight (trees.map entry) = argHeight trees := by
    have hsound : ∀ node ∈ trees.map entry, node.expr.height = node.height :=
      List.forall_mem_map.mpr fun _ _ => rfl
    rw [← argHeight_map_expr hsound, hexprs]
  have henough : ¬ ((trees.map entry).reverse ++ stack).length < trees.length := by
    rw [List.length_append, hlen]
    omega
  rw [callNode, Builtin.ofName?_name]
  simp only [haccepts, if_neg henough, List.take_left' hlen, List.drop_left' hlen,
    List.reverse_reverse, hexprs, hheight]
  rfl

theorem call {xs : Derivation (.series .args)} {f : Builtin} (h : Reads text trees xs)
    (haccepts : f.accepts trees.length = true) (hheight : (Expr.call f trees).height ≤ maxHeight) :
    Reads (f.name.toList ++ '(' :: text ++ [')']) [.call f trees] (.call f.name xs) where
  begins := by
    obtain ⟨c, more, hname, hc, -⟩ := f.isName
    exact ⟨c, more ++ '(' :: text ++ [')'], by rw [hname]; simp, (Token.not_mark (.inl hc)).2⟩
  ofChars rest hrest := by
    have htext := h.ofChars (')' :: rest) (ends_cons rest rfl (by decide))
    rw [Token.ofChars_mark (t := .rparen) rfl] at htext
    simp only [List.cons_append, List.append_assoc, List.nil_append]
    rw [Token.ofChars_name f.isName (ends_cons _ rfl (by decide)),
      Token.ofChars_mark (t := .lparen) rfl, htext]
    cases Token.ofChars rest <;> simp [Except.map, Derivation.tokens]
  builds stack := by
    have hcount : xs.itemCount = trees.length := by rw [Derivation.itemCount_args, h.count]
    have hnode : nodeOf (.call f.name trees.length) ((trees.map entry).reverse ++ stack) =
        .ok (entry (.call f trees), stack) := callNode_entries f haccepts stack
    have hpush : push ((trees.map entry).reverse ++ stack) (.call f.name trees.length) =
        .ok (entry (.call f trees) :: stack) := by
      rw [push, hnode]
      exact if_neg (Nat.not_lt.mpr hheight)
    rw [Derivation.postorder, List.foldlM_append, h.builds, hcount]
    exact (foldlM_one _ _).trans hpush
  count := rfl

/-! ## Whole trees -/

/-- The first link closes the innermost of the parentheses in front of a chain. -/
theorem open_renderLinks (text : List Char) (o : BinOp) (b : Expr) (rest : List (BinOp × Expr)) :
    List.replicate ((o, b) :: rest).length '(' ++ text ++ renderLinks ((o, b) :: rest) =
      List.replicate rest.length '(' ++ ('(' :: text ++ o.symbol ++ b.render ++ [')']) ++
        renderLinks rest := by
  simp [renderLinks, List.replicate_succ']

/-- Links go on with a chain, one after the other. -/
theorem links {first : Expr} (links : List (BinOp × Expr)) : ∀ {done : List (BinOp × Expr)}
    {text : List Char} {d : Derivation .atom}, Reads text [.chain first done] d →
    (∀ link ∈ links, link.1 ≠ .pow) →
    (∀ link ∈ links, ∃ e : Derivation .atom, Reads link.2.render [link.2] e) →
    (Expr.chain first (done ++ links)).height ≤ maxHeight →
    ∃ d' : Derivation .atom, Reads (List.replicate links.length '(' ++ text ++ renderLinks links)
      [.chain first (done ++ links)] d' := by
  induction links with
  | nil =>
    intro done text d h _ _ _
    rw [renderLinks, List.append_nil, List.append_nil]
    exact ⟨d, h⟩
  | cons link rest ih =>
    -- The link goes into the chain, and with the innermost parentheses into the text in front.
    intro done text d h hpow hoperands hheight
    obtain ⟨o, b⟩ := link
    obtain ⟨ho, hpow⟩ := List.forall_mem_cons.mp hpow
    obtain ⟨⟨e, hb⟩, hoperands⟩ := List.forall_mem_cons.mp hoperands
    have hchain : done ++ (o, b) :: rest = (done ++ [(o, b)]) ++ rest := by simp
    rw [hchain] at hheight ⊢
    have htree : (SciCalc.Expr.join o (entry (.chain first done)) (entry b)).expr =
        .chain first (done ++ [(o, b)]) := congrArg Node.expr (join_of_chain ho rfl)
    have hlow : (Expr.chain first (done ++ [(o, b)])).height ≤ maxHeight := by
      rw [height, linkHeight_append] at hheight
      rw [height]
      omega
    rw [open_renderLinks]
    exact ih (h.join o hb htree hlow) hpow hoperands hheight

theorem renderArgs_cons (a : Expr) (rest : List Expr) :
    renderArgs (a :: rest) = a.render ++ rest.flatMap fun b => ',' :: b.render := by
  induction rest generalizing a with
  | nil => simp [renderArgs]
  | cons b rest ih => rw [renderArgs, ih, List.flatMap_cons, List.cons_append]

/-- Arguments go on with those in front of them, one after the other. -/
theorem arguments (rest : List Expr) : ∀ {trees : List Expr} {text : List Char}
    {xs : Derivation (.series .args)}, Reads text trees xs →
    (∀ a ∈ rest, ∃ d : Derivation .atom, Reads a.render [a] d) →
    ∃ xs' : Derivation (.series .args),
      Reads (text ++ rest.flatMap fun b => ',' :: b.render) (trees ++ rest) xs' := by
  induction rest with
  | nil =>
    intro trees text xs h _
    rw [List.flatMap_nil, List.append_nil, List.append_nil]
    exact ⟨xs, h⟩
  | cons a rest ih =>
    intro trees text xs h hrest
    obtain ⟨⟨d, ha⟩, hrest⟩ := List.forall_mem_cons.mp hrest
    obtain ⟨xs', h'⟩ := ih (h.nextArgument ha) hrest
    refine ⟨xs', ?_⟩
    rw [List.append_assoc, List.append_assoc] at h'
    exact h'

end Reads

theorem length_pos_of_accepts {f : Builtin} {n : Nat} (h : f.accepts n = true) : 0 < n := by
  cases n with
  | zero => cases f <;> cases h
  | succ n => exact Nat.succ_pos n

mutual

/-- The written form of a tree is read as the tree. -/
theorem exists_reads (tree : Expr) (hbuilt : tree.WellBuilt Value.Unsigned)
    (hheight : tree.height ≤ maxHeight) : ∃ d : Derivation .atom, Reads tree.render [tree] d := by
  match tree with
  | .num v => exact ⟨_, .num (wellBuilt_num.mp hbuilt)⟩
  | .const c => exact ⟨_, .const c⟩
  | .neg x =>
    obtain ⟨d, h⟩ := exists_reads x (wellBuilt_neg.mp hbuilt) (Nat.le_of_succ_le hheight)
    exact ⟨_, h.neg hheight⟩
  | .binary o a b =>
    obtain ⟨rfl, ha, hb⟩ := wellBuilt_binary.mp hbuilt
    have hlow : max a.height b.height ≤ maxHeight := Nat.le_of_succ_le hheight
    obtain ⟨d, hd⟩ := exists_reads a ha ((Nat.le_max_left _ _).trans hlow)
    obtain ⟨e, he⟩ := exists_reads b hb ((Nat.le_max_right _ _).trans hlow)
    exact ⟨_, hd.join .pow he rfl hheight⟩
  | .chain first links =>
    obtain ⟨⟨hfirst, hlinks, hpow⟩, hbuilt, hoperands⟩ := wellBuilt_chain.mp hbuilt
    have hlow : max first.height (linkHeight links) ≤ maxHeight := Nat.le_of_succ_le hheight
    obtain ⟨d, hd⟩ := exists_reads first hbuilt ((Nat.le_max_left _ _).trans hlow)
    have hread := exists_reads_links links hoperands ((Nat.le_max_right _ _).trans hlow)
    match links with
    | (o, b) :: rest =>
      -- The first link makes the chain, for what stands in front is none; the others go on with it.
      obtain ⟨ho, hpow⟩ := List.forall_mem_cons.mp hpow
      obtain ⟨⟨e, hb⟩, hrest⟩ := List.forall_mem_cons.mp hread
      have htree : (join o (entry first) (entry b)).expr = .chain first [(o, b)] :=
        congrArg Node.expr (join_of_not_chain ho hfirst)
      have hlow : (Expr.chain first [(o, b)]).height ≤ maxHeight := by
        rw [height, linkHeight] at hheight
        rw [height, linkHeight, linkHeight]
        omega
      rw [render, Reads.open_renderLinks]
      exact Reads.links rest (hd.join o hb htree hlow) hpow hrest hheight
  | .call f args =>
    obtain ⟨haccepts, hargs⟩ := wellBuilt_call.mp hbuilt
    have hread := exists_reads_args args hargs (Nat.le_of_succ_le hheight)
    match args with
    | [] => exact absurd (length_pos_of_accepts haccepts) (Nat.lt_irrefl 0)
    | a :: rest =>
      obtain ⟨⟨d, ha⟩, hrest⟩ := List.forall_mem_cons.mp hread
      obtain ⟨xs, hxs⟩ := Reads.arguments rest ha.firstArgument hrest
      rw [← Reads.renderArgs_cons] at hxs
      exact ⟨_, hxs.call haccepts hheight⟩

theorem exists_reads_links (links : List (BinOp × Expr))
    (hbuilt : ∀ link ∈ links, link.2.WellBuilt Value.Unsigned)
    (hheight : linkHeight links ≤ maxHeight) :
    ∀ link ∈ links, ∃ d : Derivation .atom, Reads link.2.render [link.2] d := by
  match links with
  | [] => exact List.forall_mem_nil _
  | (o, b) :: rest =>
    obtain ⟨hb, hrest⟩ := List.forall_mem_cons.mp hbuilt
    obtain ⟨hlow, hlow'⟩ := Nat.max_le.mp hheight
    exact List.forall_mem_cons.mpr ⟨exists_reads b hb hlow, exists_reads_links rest hrest hlow'⟩

theorem exists_reads_args (args : List Expr) (hbuilt : ∀ a ∈ args, a.WellBuilt Value.Unsigned)
    (hheight : argHeight args ≤ maxHeight) :
    ∀ a ∈ args, ∃ d : Derivation .atom, Reads a.render [a] d := by
  match args with
  | [] => exact List.forall_mem_nil _
  | a :: rest =>
    obtain ⟨ha, hrest⟩ := List.forall_mem_cons.mp hbuilt
    obtain ⟨hlow, hlow'⟩ := Nat.max_le.mp hheight
    exact List.forall_mem_cons.mpr ⟨exists_reads a ha hlow, exists_reads_args rest hrest hlow'⟩

end

/-! ## The tokens of a tree -/

/-- The postfix form has no other numbers than the tokens. -/
theorem mem_tokens_of_mem_postorder {l : Level} (d : Derivation l) {v : Value}
    (h : .num v ∈ d.postorder) : .num v ∈ d.tokens :=
  d.origin_mem_tokens _ h

end SciCalc.Grammar

namespace SciCalc.Expr
open Grammar Outcome

/-- A tree that could have been built, without signs in its literals, is read back. -/
theorem WellBuilt.exists_tokens {tree : Expr} (hbuilt : tree.WellBuilt Value.Unsigned)
    (hheight : tree.height ≤ maxHeight) :
    ∃ back, Token.ofChars tree.render = .ok back ∧ ofTokens back = .ok tree := by
  obtain ⟨d, h⟩ := exists_reads tree hbuilt hheight
  refine ⟨d.tokens, ?_, ?_⟩
  · have hchars := h.ofChars [] ends_nil
    rw [List.append_nil, Token.ofChars] at hchars
    rw [hchars]
    exact congrArg _ (List.append_nil _)
  · have hback : Postfix.ofTokens d.tokens = .ok d.postorder :=
      Grammar.ofTokens_tokens (.sum d.operand)
    rw [ofTokens, hback]
    show d.postorder.foldlM push [] >>= _ = _
    rw [h.builds]
    rfl

/-- **What is written is read back.**  If tokens whose numbers are finite and have no minus sign
have a tree, then the written form of the tree has tokens, and their tree is the same one. -/
theorem ofTokens_ofChars_render {tokens : List Token} {tree : Expr}
    (h : ofTokens tokens = .ok tree) (hunsigned : ∀ v, .num v ∈ tokens → v.Unsigned) :
    ∃ back, Token.ofChars tree.render = .ok back ∧ ofTokens back = .ok tree := by
  obtain ⟨out, hout, htree⟩ := exists_of_bind h
  obtain ⟨d, rfl, rfl⟩ := ofTokens_eq_ok_iff.mp hout
  obtain ⟨hbuilt, hheight⟩ := wellBuilt_of_ofPostfix htree
  have hliterals : tree.WellBuilt Value.Unsigned := hbuilt.mono fun v hv =>
    hunsigned v (mem_tokens_of_mem_postorder d hv)
  exact hliterals.exists_tokens hheight

/-- `(1 + 2.5 + pi) ** -log(8, 2)` -/
theorem ofTokens_ofChars_render_of_chain :
    let x := Binary64.ofRatio false 5 2
    let tokens : List Token := [.lparen, .num (.int 1), .op .add, .num (.real x), .op .add,
      .name "pi", .rparen, .op .pow, .op .sub, .name "log", .lparen, .num (.int 8), .comma,
      .num (.int 2), .rparen]
    let tree := binary .pow
      (chain (num (.int 1)) [(.add, num (.real x)), (.add, const .pi)])
      (neg (call .log [num (.int 8), num (.int 2)]))
    ofTokens tokens = .ok tree ∧ (∀ v, .num v ∈ tokens → v.Unsigned) ∧
      ∃ back, Token.ofChars tree.render = .ok back ∧ ofTokens back = .ok tree := by
  intro x tokens tree
  have htree : ofTokens tokens = .ok tree := rfl
  have hx : ∃ m, x = .finite false m := ⟨⟨0x4004000000000000, by decide⟩, by decide +kernel⟩
  have hunsigned : ∀ v, .num v ∈ tokens → v.Unsigned := by
    intro v hv
    have hcases : v = .int 1 ∨ v = .real x ∨ v = .int 8 ∨ v = .int 2 := by simpa [tokens] using hv
    rcases hcases with rfl | rfl | rfl | rfl
    · exact Int.zero_le_ofNat 1
    · exact hx
    · exact Int.zero_le_ofNat 8
    · exact Int.zero_le_ofNat 2
  exact ⟨htree, hunsigned, ofTokens_ofChars_render htree hunsigned⟩

/-- **A minus sign is an operator.**  The tree of the one token `-5` is written `-5`, and that is
read as the negation of five. -/
theorem ofTokens_ofChars_render_of_negative : ¬ ∀ (tokens : List Token) (tree : Expr),
    ofTokens tokens = .ok tree → (∀ x, .num (.real x) ∈ tokens → x.isFinite) →
    ∃ back, Token.ofChars tree.render = .ok back ∧ ofTokens back = .ok tree := by
  intro hall
  have hfinite : ∀ x, .num (.real x) ∈ [Token.num (.int (-5))] → x.isFinite := by
    intro x hx
    cases List.mem_singleton.mp hx
  obtain ⟨back, hback, htree⟩ := hall [.num (.int (-5))] (num (.int (-5))) rfl hfinite
  have hfive : Token.ofChars ['5'] = .ok [.num (.int 5)] := by
    have h := (Reads.num (v := .int 5) (Int.zero_le_ofNat 5)).ofChars [] ends_nil
    rw [List.append_nil, Token.ofChars] at h
    exact h
  have hread : Token.ofChars (num (.int (-5))).render = .ok [.op .sub, .num (.int 5)] := by
    have hmark := Token.ofChars_mark (c := '-') (t := .op .sub) rfl ['5']
    rw [hfive] at hmark
    exact hmark
  rw [hread] at hback
  cases hback
  cases htree

/-- Reading what was read and written changes nothing more, unless a number was beyond the finite
ones. -/
theorem ofChars_render {s : List Char} {tree : Expr} (h : ofChars s = .ok tree)
    (hfinite : num (.real (.infinity false)) ∉ tree.subtrees) : ofChars tree.render = .ok tree := by
  obtain ⟨tokens, htokens, htree⟩ := exists_of_bind h
  obtain ⟨out, hout, htree⟩ := exists_of_bind htree
  obtain ⟨d, rfl, rfl⟩ := ofTokens_eq_ok_iff.mp hout
  obtain ⟨hbuilt, hheight⟩ := wellBuilt_of_ofPostfix htree
  have hliterals : tree.WellBuilt Value.Unsigned := by
    intro node hnode
    have hfits := hbuilt node hnode
    cases node with
    | num v =>
      have hv := mem_tokens_of_mem_postorder d hfits
      refine (Token.unsigned_of_ofChars htokens hv).resolve_right ?_
      rintro rfl
      exact hfinite hnode
    | const | neg | binary | chain | call => exact hfits
  obtain ⟨back, hback, htree'⟩ := hliterals.exists_tokens hheight
  rw [ofChars, hback]
  exact htree'

end SciCalc.Expr
