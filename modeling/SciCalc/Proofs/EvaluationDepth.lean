import SciCalc.Proofs.TreeShape

/-! # How deep an evaluation goes

Evaluating a tree evaluates its operands first, each of which evaluates its own.  The operands of a
chain or of a call are gone through in a loop: they are all one level below their node, however many
they are.  `Expr.evalStep` is what one level does, with the evaluation of the operands as a
parameter, and `Expr.evalWithin` is evaluation with no more than a given number of levels, which has
no result where they are not enough.

As many levels are enough as the tree is high (`Expr.evalWithin_of_height_le`).
-/
namespace SciCalc.Expr

/-- A computation that fails, has a value, or has no result because there are no levels left. -/
abbrev Bounded (α : Type) := ExceptT CalcError Option α

variable {α β : Type}

/-- A result that was found. -/
def found (result : Except CalcError α) : Bounded α :=
  ExceptT.mk (some result)

theorem found_bind (x : Except CalcError α) (f : α → Except CalcError β) :
    found (x >>= f) = found x >>= fun a => found (f a) := by
  cases x <;> rfl

theorem found_map (x : Except CalcError α) (f : α → β) : found (x.map f) = f <$> found x := by
  cases x <;> rfl

/-- The trees right below the root. -/
def operands : Expr → List Expr
  | num _ | const _ => []
  | neg x => [x]
  | binary _ a b => [a, b]
  | chain first links => first :: links.map Prod.snd
  | call _ args => args

/-- One level of an evaluation: the value of a tree, with a function that evaluates its operands. -/
def evalStep (mode : AngleMode) (operand : Expr → Bounded Value) : Expr → Bounded Value
  | num v => pure v
  | const c => pure (.real c.value)
  | neg x => Value.neg <$> operand x
  | binary o a b => do
    let x ← operand a
    let y ← operand b
    found (o.apply x y)
  | chain first links => do
    let x ← operand first
    links.foldlM (fun x link => do found (link.1.apply x (← operand link.2))) x
  | call f args => do found (f.apply mode (← args.mapM operand))

/-- The value of a tree, found with at most `depth` levels of evaluations inside one another. -/
def evalWithin (mode : AngleMode) : (depth : Nat) → Expr → Bounded Value
  | 0, _ => ExceptT.mk none
  | depth + 1, tree => tree.evalStep mode (evalWithin mode depth)

variable {mode : AngleMode} {operand : Expr → Bounded Value} {tree : Expr}

/-! ## One level -/

/-- A chain is gone through in a loop over its links. -/
theorem foldlM_links {links : List (BinOp × Expr)}
    (h : ∀ link ∈ links, operand link.2 = found (link.2.eval mode)) (x : Value) :
    links.foldlM (fun x link => do found (link.1.apply x (← operand link.2))) x =
      found (evalLinks mode x links) := by
  induction links generalizing x with
  | nil => rfl
  | cons link rest ih =>
    obtain ⟨hlink, hrest⟩ := List.forall_mem_cons.mp h
    rw [List.foldlM_cons, hlink, evalLinks, found_bind, bind_assoc]
    refine bind_congr fun y => ?_
    rw [found_bind]
    exact bind_congr (ih hrest)

theorem mapM_args {args : List Expr} (h : ∀ a ∈ args, operand a = found (a.eval mode)) :
    args.mapM operand = found (evalArgs mode args) := by
  induction args with
  | nil => rfl
  | cons a rest ih =>
    obtain ⟨ha, hrest⟩ := List.forall_mem_cons.mp h
    rw [List.mapM_cons, ha, ih hrest, evalArgs, found_bind]
    refine bind_congr fun x => ?_
    rw [found_bind]
    rfl

/-- Where the operands have their values, the tree has its value. -/
theorem evalStep_eq (h : ∀ x ∈ tree.operands, operand x = found (x.eval mode)) :
    tree.evalStep mode operand = found (tree.eval mode) := by
  cases tree with
  | num v => rfl
  | const c => rfl
  | neg x =>
    rw [evalStep, h x List.mem_cons_self, eval, found_map]
  | binary o a b =>
    obtain ⟨ha, hb⟩ := List.forall_mem_cons.mp h
    rw [evalStep, ha, hb b List.mem_cons_self, eval, found_bind]
    refine bind_congr fun x => ?_
    rw [found_bind]
  | chain first links =>
    obtain ⟨hfirst, hlinks⟩ := List.forall_mem_cons.mp h
    rw [evalStep, hfirst, eval, found_bind]
    exact bind_congr fun x => foldlM_links (List.forall_mem_map.mp hlinks) x
  | call f args =>
    have hargs : ∀ a ∈ args, operand a = found (a.eval mode) := h
    rw [evalStep, mapM_args hargs, eval, found_bind]

/-! ## All levels -/

theorem linkHeight_eq (links : List (BinOp × Expr)) :
    linkHeight links = argHeight (links.map Prod.snd) := by
  induction links with
  | nil => rfl
  | cons link rest ih => rw [linkHeight, ih, List.map_cons, argHeight]

theorem height_le_argHeight {args : List Expr} {a : Expr} (h : a ∈ args) :
    a.height ≤ argHeight args := by
  induction args with
  | nil => cases h
  | cons first rest ih =>
    rw [argHeight]
    rcases List.mem_cons.mp h with rfl | h
    · exact Nat.le_max_left _ _
    · exact Nat.le_trans (ih h) (Nat.le_max_right _ _)

/-- The height of a tree is one more than that of its highest operand. -/
theorem height_eq_operands (tree : Expr) : tree.height = argHeight tree.operands + 1 := by
  cases tree with
  | num | const | call => rfl
  | neg x => exact congrArg (· + 1) (Nat.max_zero _).symm
  | binary o a b => rw [height, operands, argHeight, argHeight, argHeight, Nat.max_zero]
  | chain first links => rw [height, operands, argHeight, linkHeight_eq]

/-- **As many levels are enough as a tree is high.** -/
theorem evalWithin_of_height_le {depth : Nat} (h : tree.height ≤ depth) :
    tree.evalWithin mode depth = found (tree.eval mode) := by
  rw [height_eq_operands] at h
  induction depth generalizing tree with
  | zero => cases h
  | succ depth ih =>
    refine evalStep_eq fun x hx => ih ?_
    rw [← height_eq_operands]
    exact Nat.le_trans (height_le_argHeight hx) (Nat.le_of_succ_le_succ h)

end SciCalc.Expr
