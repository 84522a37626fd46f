import SciCalc.Proofs.Operations
import SciCalc.Proofs.TreeBuilding

/-! # The shape of the trees that are built

Whatever tokens are read as a postfix form, the trees that come of them have a shape that their type
does not tell: a binary operation is a power, a chain has links, none of them a power, and does not
begin with a chain, and a call has a number of arguments that its function takes (`Expr.Fits`).  The
height that the stack carries with a tree is the height of the tree (`Expr.height`), and it is a
thousand at most.

The invariant is about one entry of the stack (`Expr.Node.Sound`).  It also follows a property of
the literals, which come from the tokens and from nowhere else.
-/
namespace SciCalc.Expr
open Grammar (isChain)
open Outcome

variable {p : Value → Prop}

/-! ## Height and shape -/

mutual

/-- The height of a tree: a leaf is one level, any other node one level above its highest child. -/
def height : Expr → Nat
  | num _ | const _ => 1
  | neg x => x.height + 1
  | binary _ a b => max a.height b.height + 1
  | chain first links => max first.height (linkHeight links) + 1
  | call _ args => argHeight args + 1

/-- The height of the highest operand of links. -/
def linkHeight : List (BinOp × Expr) → Nat
  | [] => 0
  | (_, b) :: rest => max b.height (linkHeight rest)

/-- The height of the highest argument. -/
def argHeight : List Expr → Nat
  | [] => 0
  | a :: rest => max a.height (argHeight rest)

end

/-- What holds at the root of a tree that is built, if the literals have the property `p`. -/
def Fits (p : Value → Prop) : Expr → Prop
  | num v => p v
  | const _ | neg _ => True
  | binary o _ _ => o = .pow
  | chain first links => isChain first = false ∧ links ≠ [] ∧ ∀ link ∈ links, link.1 ≠ .pow
  | call f args => f.accepts args.length = true

/-- Every node of a tree is as it is built. -/
def WellBuilt (p : Value → Prop) (tree : Expr) : Prop :=
  ∀ node ∈ tree.subtrees, node.Fits p

theorem forall_mem_linkSubtrees {P : Expr → Prop} {links : List (BinOp × Expr)} :
    (∀ node ∈ linkSubtrees links, P node) ↔ ∀ link ∈ links, ∀ node ∈ link.2.subtrees, P node := by
  induction links with
  | nil => simp [linkSubtrees]
  | cons link rest ih => rw [linkSubtrees, List.forall_mem_append, ih, List.forall_mem_cons]

theorem forall_mem_argSubtrees {P : Expr → Prop} {args : List Expr} :
    (∀ node ∈ argSubtrees args, P node) ↔ ∀ a ∈ args, ∀ node ∈ a.subtrees, P node := by
  induction args with
  | nil => simp [argSubtrees]
  | cons a rest ih => rw [argSubtrees, List.forall_mem_append, ih, List.forall_mem_cons]

theorem wellBuilt_num {v : Value} : WellBuilt p (num v) ↔ p v :=
  List.forall_mem_singleton

theorem wellBuilt_const (c : Constant) : WellBuilt p (const c) :=
  List.forall_mem_singleton.mpr trivial

theorem wellBuilt_neg {x : Expr} : WellBuilt p (neg x) ↔ WellBuilt p x :=
  List.forall_mem_cons.trans (and_iff_right trivial)

theorem wellBuilt_binary {o : BinOp} {a b : Expr} :
    WellBuilt p (binary o a b) ↔ o = .pow ∧ WellBuilt p a ∧ WellBuilt p b :=
  List.forall_mem_cons.trans (and_congr_right fun _ => List.forall_mem_append)

theorem wellBuilt_chain {first : Expr} {links : List (BinOp × Expr)} :
    WellBuilt p (chain first links) ↔ (chain first links).Fits p ∧ WellBuilt p first ∧
      ∀ link ∈ links, WellBuilt p link.2 :=
  List.forall_mem_cons.trans (and_congr_right fun _ =>
    List.forall_mem_append.trans (and_congr_right fun _ => forall_mem_linkSubtrees))

theorem wellBuilt_call {f : Builtin} {args : List Expr} :
    WellBuilt p (call f args) ↔ f.accepts args.length = true ∧ ∀ a ∈ args, WellBuilt p a :=
  List.forall_mem_cons.trans (and_congr_right fun _ => forall_mem_argSubtrees)

theorem WellBuilt.mono {q : Value → Prop} {tree : Expr} (h : WellBuilt p tree)
    (hpq : ∀ v, p v → q v) : WellBuilt q tree := by
  intro node hnode
  have hfits := h node hnode
  cases node with
  | num v => exact hpq v hfits
  | const | neg | binary | chain | call => exact hfits

theorem linkHeight_append (links more : List (BinOp × Expr)) :
    linkHeight (links ++ more) = max (linkHeight links) (linkHeight more) := by
  induction links with
  | nil => simp [linkHeight]
  | cons link rest ih => rw [List.cons_append, linkHeight, ih, linkHeight, Nat.max_assoc]

/-! ## One token -/

/-- An entry of the stack carries the height of its tree, which is as trees are built. -/
structure Node.Sound (p : Value → Prop) (node : Node) : Prop where
  height_eq : node.expr.height = node.height
  wellBuilt : node.expr.WellBuilt p

section Join
variable {o : BinOp} {left right : Node}

/-- Behind a chain, an operator makes one more link. -/
theorem join_of_chain (ho : o ≠ .pow) {first : Expr} {links : List (BinOp × Expr)}
    (hleft : left.expr = chain first links) : join o left right =
      ⟨chain first (links ++ [(o, right.expr)]), max left.height (right.height + 1)⟩ := by
  cases o with
  | pow => exact absurd rfl ho
  | add | sub | mul | div | mod => simp only [join, hleft]

/-- Behind any other tree, an operator begins a chain. -/
theorem join_of_not_chain (ho : o ≠ .pow) (hleft : isChain left.expr = false) :
    join o left right =
      ⟨chain left.expr [(o, right.expr)], max left.height right.height + 1⟩ := by
  unfold join
  split
  · exact absurd rfl ho
  · rename_i first links hchain
    rw [hchain] at hleft
    cases hleft
  · rfl

theorem height_join (hl : left.expr.height = left.height) (hr : right.expr.height = right.height) :
    (join o left right).expr.height = (join o left right).height := by
  by_cases ho : o = .pow
  · subst ho
    show max left.expr.height right.expr.height + 1 = max left.height right.height + 1
    rw [hl, hr]
  cases hleft : left.expr with
  | chain first links =>
    rw [hleft, height] at hl
    rw [join_of_chain ho hleft, height, linkHeight_append, linkHeight, linkHeight, hr]
    show _ = max left.height (right.height + 1)
    omega
  | num | const | neg | binary | call =>
    rw [join_of_not_chain ho (by rw [hleft]; rfl), height, linkHeight, linkHeight, hl, hr,
      Nat.max_zero]

theorem wellBuilt_join (hl : left.expr.WellBuilt p) (hr : right.expr.WellBuilt p) :
    (join o left right).expr.WellBuilt p := by
  by_cases ho : o = .pow
  · subst ho
    exact wellBuilt_binary.mpr ⟨rfl, hl, hr⟩
  have hlink : ∀ link ∈ [(o, right.expr)], link.1 ≠ .pow := List.forall_mem_singleton.mpr ho
  have hoperand : ∀ link ∈ [(o, right.expr)], link.2.WellBuilt p := List.forall_mem_singleton.mpr hr
  cases hleft : left.expr with
  | chain first links =>
    rw [hleft] at hl
    obtain ⟨⟨hfirst, -, hpow⟩, hbuilt, hlinks⟩ := wellBuilt_chain.mp hl
    rw [join_of_chain ho hleft]
    exact wellBuilt_chain.mpr ⟨⟨hfirst, by simp, List.forall_mem_append.mpr ⟨hpow, hlink⟩⟩, hbuilt,
      List.forall_mem_append.mpr ⟨hlinks, hoperand⟩⟩
  | num | const | neg | binary | call =>
    have hchain : isChain left.expr = false := by rw [hleft]; rfl
    rw [join_of_not_chain ho hchain]
    exact wellBuilt_chain.mpr ⟨⟨hchain, by simp, hlink⟩, hl, hoperand⟩

end Join

theorem argHeight_map_expr {nodes : List Node}
    (h : ∀ node ∈ nodes, node.expr.height = node.height) :
    argHeight (nodes.map Node.expr) = maxNodeHeight nodes := by
  induction nodes with
  | nil => rfl
  | cons node rest ih =>
    obtain ⟨hnode, hrest⟩ := List.forall_mem_cons.mp h
    rw [List.map_cons, argHeight, hnode, ih hrest]
    rfl

theorem sound_callNode {name : String} {count : Nat} {stack rest : List Node} {node : Node}
    (hstack : ∀ node ∈ stack, node.Sound p) (h : callNode name count stack = .ok (node, rest)) :
    node.Sound p ∧ rest ⊆ stack := by
  unfold callNode at h
  split at h
  · cases h
  · rename_i f hf
    split at h
    · cases h
    · rename_i haccepts
      split at h
      · cases h
      · rename_i hlen
        cases h
        have hargs : ∀ node ∈ (stack.take count).reverse, node.Sound p := fun node hnode =>
          hstack node (List.mem_of_mem_take (List.mem_reverse.mp hnode))
        refine ⟨⟨?_, ?_⟩, List.drop_subset ..⟩
        · rw [height, argHeight_map_expr fun node hnode => (hargs node hnode).height_eq]
        · refine wellBuilt_call.mpr ⟨?_, List.forall_mem_map.mpr fun a ha => (hargs a ha).wellBuilt⟩
          have hcount : ((stack.take count).reverse.map Node.expr).length = count := by
            rw [List.length_map, List.length_reverse, List.length_take]
            omega
          rw [hcount]
          simpa using haccepts

/-- The node that a token makes is sound if those on the stack are, and no other node is new. -/
theorem sound_nodeOf {token : Token} {stack rest : List Node} {node : Node}
    (htoken : ∀ v, token = .num v → p v) (hstack : ∀ node ∈ stack, node.Sound p)
    (h : nodeOf token stack = .ok (node, rest)) : node.Sound p ∧ rest ⊆ stack := by
  cases token with
  | num v =>
    cases h
    exact ⟨⟨rfl, wellBuilt_num.mpr (htoken v rfl)⟩, List.Subset.refl _⟩
  | name s =>
    rw [nodeOf] at h
    split at h
    · rename_i c hc
      cases h
      exact ⟨⟨rfl, wellBuilt_const c⟩, List.Subset.refl _⟩
    · cases h
  | neg =>
    cases stack with
    | nil => cases h
    | cons x below =>
      cases h
      have hx := hstack x List.mem_cons_self
      exact ⟨⟨congrArg (· + 1) hx.height_eq, wellBuilt_neg.mpr hx.wellBuilt⟩,
        List.subset_cons_self ..⟩
  | op o =>
    rcases stack with _ | ⟨right, _ | ⟨left, below⟩⟩
    · cases h
    · cases h
    · cases h
      obtain ⟨hright, hrest⟩ := List.forall_mem_cons.mp hstack
      have hleft := hrest left List.mem_cons_self
      exact ⟨⟨height_join hleft.height_eq hright.height_eq,
          wellBuilt_join hleft.wellBuilt hright.wellBuilt⟩,
        List.subset_cons_of_subset _ (List.subset_cons_self ..)⟩
  | call name count => exact sound_callNode hstack h
  | comma | lparen | rparen => cases h

/-- **One token keeps the stack sound and low.** -/
theorem sound_push {token : Token} {stack stack' : List Node}
    (htoken : ∀ v, token = .num v → p v)
    (hstack : ∀ node ∈ stack, node.Sound p ∧ node.height ≤ maxHeight)
    (h : push stack token = .ok stack') :
    ∀ node ∈ stack', node.Sound p ∧ node.height ≤ maxHeight := by
  obtain ⟨⟨node, rest⟩, hnode, hpush⟩ := exists_of_bind h
  obtain ⟨hsound, hrest⟩ := sound_nodeOf htoken (fun n hn => (hstack n hn).1) hnode
  dsimp only at hpush
  split at hpush
  · cases hpush
  · rename_i hlow
    cases hpush
    exact List.forall_mem_cons.mpr
      ⟨⟨hsound, Nat.le_of_not_lt hlow⟩, fun n hn => hstack n (hrest hn)⟩

/-! ## All tokens -/

/-- A run keeps the stack sound and low. -/
theorem sound_foldlM {tokens : List Token} {stack stack' : List Node}
    (htokens : ∀ v, .num v ∈ tokens → p v)
    (hstack : ∀ node ∈ stack, node.Sound p ∧ node.height ≤ maxHeight)
    (h : tokens.foldlM push stack = .ok stack') :
    ∀ node ∈ stack', node.Sound p ∧ node.height ≤ maxHeight := by
  induction tokens generalizing stack with
  | nil =>
    cases h
    exact hstack
  | cons token rest ih =>
    rw [List.foldlM_cons] at h
    obtain ⟨next, hnext, hrest⟩ := exists_of_bind h
    refine ih (fun v hv => htokens v (List.mem_cons_of_mem _ hv)) ?_ hrest
    exact sound_push (fun v hv => htokens v (hv ▸ List.mem_cons_self)) hstack hnext

/-- **The shape of what is built.**  Whatever the tokens are, a tree that is built of them is well
built and a thousand levels high at most, and its literals are among the tokens. -/
theorem wellBuilt_of_ofPostfix {tokens : List Token} {tree : Expr}
    (h : ofPostfix tokens = .ok tree) :
    tree.WellBuilt (.num · ∈ tokens) ∧ tree.height ≤ maxHeight := by
  obtain ⟨stack, hstack, htree⟩ := exists_of_bind h
  have hsound :=
    sound_foldlM (p := (.num · ∈ tokens)) (fun _ hv => hv) (List.forall_mem_nil _) hstack
  match stack, htree, hsound with
  | [node], htree, hsound =>
    cases htree
    obtain ⟨hnode, hlow⟩ := hsound node List.mem_cons_self
    exact ⟨hnode.wellBuilt, hnode.height_eq ▸ hlow⟩

end SciCalc.Expr
