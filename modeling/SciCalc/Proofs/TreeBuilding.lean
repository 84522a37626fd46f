import SciCalc.Proofs.Acceptable

/-! # Building the tree of a sentence

A sentence has a postfix form; what can still go wrong is that `Expr.ofPostfix` refuses it.  It does
so for a name, for the arguments of a call, or for the height, and for nothing else
(`ofPostfix_exact`): every operator and every call finds its operands on the stack.

Reading the postfix traversal of a phrase puts one tree on the stack, or one tree for each of
several arguments, over whatever lies there already (`Built`).  The trees are as high as the phrase
(`Derivation.height`), and the tree of an operation is a chain, so that the counter of the heights
takes its branches where the height of the phrase does.
-/
namespace SciCalc.Grammar
open Outcome SciCalc.Expr

/-! ## Steps with one way to fail -/

/-- The faults of names, of arguments and of the height. -/
def Refusal : Fault → Prop
  | .unknownName _ | .unknownFunction _ | .argumentCount _ _ | .tooDeep => True
  | _ => False

/-- A step has a result when the condition holds, and then a good one; otherwise it is refused. -/
def Settles {α : Type} (condition : Prop) (result : Except CalcError α) (good : α → Prop) : Prop :=
  (condition ∧ ∃ a, result = .ok a ∧ good a) ∨
    ¬ condition ∧ ∃ fault, result = .error (.invalidExpression fault) ∧ Refusal fault

namespace Settles
variable {α β : Type} {P Q : Prop} {r : Except CalcError α} {f : α → Except CalcError β}
  {G G' : α → Prop} {H : β → Prop}

theorem bind (h : Settles P r G) (hf : P → ∀ a, G a → Settles Q (f a) H) :
    Settles (P ∧ Q) (r >>= f) H := by
  rcases h with ⟨hP, a, rfl, ha⟩ | ⟨hP, fault, rfl, hfault⟩
  · rcases hf hP a ha with ⟨hQ, b, hb, hgood⟩ | ⟨hQ, fault, hb, hfault⟩
    · exact .inl ⟨⟨hP, hQ⟩, b, hb, hgood⟩
    · exact .inr ⟨fun h => hQ h.2, fault, hb, hfault⟩
  · exact .inr ⟨fun h => hP h.1, fault, rfl, hfault⟩

theorem congr (h : Settles P r G) (hPQ : P ↔ Q) (hG : ∀ a, G a → G' a) : Settles Q r G' := by
  rcases h with ⟨hP, a, ha, hgood⟩ | ⟨hP, hfault⟩
  · exact .inl ⟨hPQ.mp hP, a, ha, hG a hgood⟩
  · exact .inr ⟨fun h => hP (hPQ.mpr h), hfault⟩

end Settles

/-! ## One token -/

/-- A token that makes a node is refused when the node is too high. -/
theorem settles_push {token : Token} {stack rest : List Node} {node : Node}
    (h : nodeOf token stack = .ok (node, rest)) :
    Settles (node.height ≤ 1000) (push stack token) (· = node :: rest) := by
  rw [push, h]
  by_cases hheight : node.height ≤ 1000
  · exact .inl ⟨hheight, node :: rest, if_neg (Nat.not_lt.mpr hheight), rfl⟩
  · exact .inr ⟨hheight, .tooDeep, if_pos (Nat.lt_of_not_le hheight), trivial⟩

theorem foldlM_one (token : Token) (stack : List Node) :
    [token].foldlM push stack = push stack token := by
  cases h : push stack token <;> simp [h]

theorem ofName?_constant_iff {s : String} :
    (∃ c, Constant.ofName? s = some c) ↔ s = "pi" ∨ s = "e" := by
  constructor
  · rintro ⟨c, hc⟩
    rw [← Constant.name_of_ofName? hc]
    cases c
    · exact .inl rfl
    · exact .inr rfl
  · rintro (rfl | rfl)
    · exact ⟨.pi, Constant.ofName?_name .pi⟩
    · exact ⟨.e, Constant.ofName?_name .e⟩

theorem settles_name (s : String) (stack : List Node) :
    Settles (s = "pi" ∨ s = "e") (push stack (.name s))
      (fun result => ∃ c, result = ⟨.const c, 1⟩ :: stack) := by
  rw [← ofName?_constant_iff]
  cases hs : Constant.ofName? s with
  | some c =>
    have hnode : nodeOf (.name s) stack = .ok (⟨.const c, 1⟩, stack) := by rw [nodeOf, hs]
    refine (settles_push hnode).congr ⟨fun _ => ⟨c, rfl⟩, fun _ => Nat.le_of_ble_eq_true rfl⟩ ?_
    rintro _ rfl
    exact ⟨c, rfl⟩
  | none =>
    refine .inr ⟨by simp, .unknownName s, ?_, trivial⟩
    rw [push, nodeOf, hs]
    rfl

theorem maxNodeHeight_append (nodes more : List Node) :
    maxNodeHeight (nodes ++ more) = max (maxNodeHeight nodes) (maxNodeHeight more) := by
  induction nodes with
  | nil => simp [maxNodeHeight]
  | cons node nodes ih =>
    simp only [maxNodeHeight, List.cons_append, List.foldr_cons] at ih ⊢
    rw [ih, Nat.max_assoc]

theorem maxNodeHeight_singleton (node : Node) : maxNodeHeight [node] = node.height := by
  simp [maxNodeHeight]

theorem maxNodeHeight_reverse (nodes : List Node) :
    maxNodeHeight nodes.reverse = maxNodeHeight nodes := by
  induction nodes with
  | nil => rfl
  | cons node nodes ih =>
    rw [List.reverse_cons, maxNodeHeight_append, ih, Nat.max_comm, ← maxNodeHeight_append,
      List.singleton_append]

/-- A call whose arguments are on the stack. -/
theorem settles_call (name : String) (args below : List Node) :
    Settles (Callable name args.length ∧ maxNodeHeight args + 1 ≤ 1000)
      (push (args ++ below) (.call name args.length))
      (fun result => ∃ f,
        result = ⟨.call f (args.reverse.map Node.expr), maxNodeHeight args + 1⟩ :: below) := by
  cases hf : Builtin.ofName? name with
  | none =>
    refine .inr ⟨?_, .unknownFunction name, ?_, trivial⟩
    · rintro ⟨⟨f, rfl, -⟩, -⟩
      rw [Builtin.ofName?_name] at hf
      cases hf
    · rw [push, nodeOf, callNode, hf]
      rfl
  | some f =>
    have hname := Builtin.name_of_ofName? hf
    by_cases haccepts : f.accepts args.length
    · have hrange : f.argumentRange.1 ≤ args.length ∧ args.length ≤ f.argumentRange.2 := by
        simpa [Builtin.accepts] using haccepts
      have hnode : nodeOf (.call name args.length) (args ++ below) =
          .ok (⟨.call f (args.reverse.map Node.expr), maxNodeHeight args + 1⟩, below) := by
        have hlen : ¬ (args ++ below).length < args.length := by simp
        rw [nodeOf, callNode, hf]
        simp only [haccepts, if_neg hlen, List.take_left, List.drop_left, maxNodeHeight_reverse]
        rfl
      refine (settles_push hnode).congr ⟨fun h => ⟨⟨f, hname, hrange⟩, h⟩, fun h => h.2⟩ ?_
      rintro _ rfl
      exact ⟨f, rfl⟩
    · refine .inr ⟨?_, .argumentCount name args.length, ?_, trivial⟩
      · rintro ⟨⟨g, rfl, hrange⟩, -⟩
        obtain rfl : g = f := by simpa [Builtin.ofName?_name] using hf
        exact haccepts (by simpa [Builtin.accepts] using hrange)
      · rw [push, nodeOf, callNode, hf]
        simp only [haccepts]
        rfl

/-! ## One phrase -/

/-- Whether a tree is that of an operation with two operands other than a power. -/
def isChain : Expr → Bool
  | .chain _ _ => true
  | _ => false

/-- What reading a phrase leaves on the stack: its trees, as high as the phrase; a single tree is a
chain when the phrase is an operation. -/
def Built {l : Level} (t : Derivation l) (stack result : List Node) : Prop :=
  ∃ nodes, result = nodes ++ stack ∧ nodes.length = t.commas + 1 ∧
    maxNodeHeight nodes = t.height ∧ ∀ node, nodes = [node] → t.isOperation = isChain node.expr

namespace Derivation
variable {l l' : Level} {k : Series}

theorem built_of_node {t : Derivation l} (ht : t.commas = 0) {node : Node} {stack : List Node}
    (hheight : node.height = t.height) (hop : t.isOperation = isChain node.expr) :
    Built t stack (node :: stack) := by
  refine ⟨[node], rfl, by rw [ht]; rfl, ?_, ?_⟩
  · rw [maxNodeHeight_singleton, hheight]
  · rintro _ ⟨⟩
    exact hop

/-- What is not arguments leaves one tree. -/
theorem exists_node_of_built {t : Derivation l} {stack result : List Node}
    (h : Built t stack result) (hl : l ≠ .series .args) :
    ∃ node, result = node :: stack ∧ node.height = t.height ∧
      t.isOperation = isChain node.expr := by
  obtain ⟨nodes, rfl, hlen, hheight, hop⟩ := h
  rw [t.commas_eq_zero hl] at hlen
  obtain ⟨node, rfl⟩ := List.length_eq_one_iff.mp hlen
  exact ⟨node, rfl, by rw [← hheight, maxNodeHeight_singleton], hop node rfl⟩

/-- An operator other than a power makes a chain; the level is new when its left operand is
none. -/
theorem join_of_ne_pow {o : BinOp} (ho : o ≠ .pow) (left right : Node) :
    isChain (join o left right).expr ∧ (join o left right).height =
      if isChain left.expr then max left.height (right.height + 1)
      else max left.height right.height + 1 := by
  unfold join
  split
  · exact absurd rfl ho
  · rename_i hleft
    rw [hleft]
    exact ⟨rfl, rfl⟩
  · rename_i hleft
    refine ⟨rfl, (if_neg fun h => ?_).symm⟩
    cases he : left.expr with
    | chain head links => exact hleft head links he
    | num | const | neg | binary | call =>
      rw [he] at h
      cases h

/-- The two parts of a phrase, one after the other. -/
theorem settles_operands {l₁ l₂ : Level} {a : Derivation l₁} {b : Derivation l₂}
    (ha : ∀ stack, Settles a.Acceptable (a.postorder.foldlM push stack) (Built a stack))
    (hb : ∀ stack, Settles b.Acceptable (b.postorder.foldlM push stack) (Built b stack))
    (stack : List Node) :
    Settles (a.Acceptable ∧ b.Acceptable) ((a.postorder ++ b.postorder).foldlM push stack)
      (fun result => ∃ middle, Built a stack middle ∧ Built b middle result) := by
  rw [List.foldlM_append]
  refine (ha stack).bind fun _ middle hmiddle => ?_
  exact (hb middle).congr Iff.rfl fun result hresult => ⟨middle, hmiddle, hresult⟩

theorem settles_pow {a : Derivation .atom} {u : Derivation .signed}
    {stack middle result : List Node} (ha : Built a stack middle) (hu : Built u middle result) :
    Settles ((pow a u).height ≤ 1000) (push result (.op .pow)) (Built (pow a u) stack) := by
  obtain ⟨left, rfl, hleft, -⟩ := exists_node_of_built ha (by decide)
  obtain ⟨right, rfl, hright, -⟩ := exists_node_of_built hu (by decide)
  have hnode : nodeOf (.op .pow) (right :: left :: stack) = .ok (join .pow left right, stack) := rfl
  have hheight : (join .pow left right).height = (pow a u).height := by
    rw [height, ← hleft, ← hright]
    rfl
  rw [← hheight]
  refine (settles_push hnode).congr Iff.rfl ?_
  rintro _ rfl
  exact built_of_node rfl hheight rfl

/-- Behind the items and one more item, a comma leaves both where they are, and an operator joins
them. -/
theorem settles_next (xs : Derivation (.series k)) {s : Token} (h : s ∈ k.separators)
    (x : Derivation k.item) {stack middle result : List Node} (hxs : Built xs stack middle)
    (hx : Built x middle result) (hheight : max xs.height x.height ≤ 1000) :
    Settles ((xs.next s h x).height ≤ 1000) ((mark s).foldlM push result)
      (Built (xs.next s h x) stack) := by
  obtain ⟨right, rfl, hright, -⟩ := exists_node_of_built hx k.item_ne_args
  rcases Series.separator_cases h with ⟨rfl, rfl⟩ | ⟨hk, o, rfl, hpow, -⟩
  · obtain ⟨nodes, rfl, hlen, hnodes, -⟩ := hxs
    refine .inl ⟨hheight, right :: (nodes ++ stack), rfl, right :: nodes, rfl, ?_, ?_, ?_⟩
    · rw [List.length_cons, hlen]
      rfl
    · rw [← List.singleton_append, maxNodeHeight_append, maxNodeHeight_singleton, hright, hnodes,
        Nat.max_comm]
      rfl
    · rintro _ ⟨⟩
      cases hlen
  · have hl : Level.series k ≠ .series .args := fun hl => hk (Level.series.inj hl)
    obtain ⟨left, rfl, hleft, hchain⟩ := exists_node_of_built hxs hl
    obtain ⟨hjoin, hlevel⟩ := join_of_ne_pow hpow left right
    have hnode : nodeOf (.op o) (right :: left :: stack) = .ok (join o left right, stack) := rfl
    have hheight : (join o left right).height = (xs.next (.op o) h x).height := by
      have hop : Token.op o ≠ .comma := by simp
      rw [hlevel, height, if_neg hop, ← hleft, ← hright, hchain]
    have hmark : mark (.op o) = [.op o] := rfl
    rw [← hheight, hmark, foldlM_one]
    refine (settles_push hnode).congr Iff.rfl ?_
    rintro _ rfl
    exact built_of_node (commas_eq_zero _ hl) hheight hjoin.symm

/-- A phrase that stands for another one: parentheses, plus signs and the levels of the grammar
leave no trace. -/
theorem settles_same (t : Derivation l) (u : Derivation l') (hl : l' ≠ .series .args)
    (hcommas : t.commas = 0) (hpostorder : t.postorder = u.postorder) (hnames : t.names = u.names)
    (hcalls : t.calls = u.calls) (hheight : t.height = u.height)
    (hop : t.isOperation = u.isOperation) {stack : List Node}
    (h : Settles u.Acceptable (u.postorder.foldlM push stack) (Built u stack)) :
    Settles t.Acceptable (t.postorder.foldlM push stack) (Built t stack) := by
  rw [hpostorder]
  refine h.congr ?_ ?_
  · rw [acceptable_of_eq t u hnames hcalls (Nat.le_of_eq hheight.symm), hheight]
    exact ⟨fun h => ⟨h, h.height⟩, fun h => h.1⟩
  · intro result hresult
    obtain ⟨node, rfl, hnode, hchain⟩ := exists_node_of_built hresult hl
    exact built_of_node hcommas (hnode.trans hheight.symm) (hop.trans hchain)

/-- **Reading a phrase.**  Over any stack, the postfix traversal of a phrase is read when the phrase
is acceptable, and its trees are left; otherwise it is refused. -/
theorem settles_postorder (t : Derivation l) : ∀ stack : List Node,
    Settles t.Acceptable (t.postorder.foldlM push stack) (Built t stack) := by
  induction t with
  | num v =>
    intro stack
    have hok : (num v).Acceptable :=
      ⟨List.forall_mem_nil _, List.forall_mem_nil _, Nat.le_of_ble_eq_true rfl⟩
    have hnode : nodeOf (.num v) stack = .ok (⟨.num v, 1⟩, stack) := rfl
    rw [postorder, foldlM_one]
    refine (settles_push hnode).congr ⟨fun _ => hok, fun h => h.height⟩ ?_
    rintro _ rfl
    exact built_of_node rfl rfl rfl
  | name s =>
    intro stack
    have hok : (s = "pi" ∨ s = "e") ↔ (name s).Acceptable :=
      ⟨fun hs => ⟨List.forall_mem_singleton.mpr hs, List.forall_mem_nil _,
          Nat.le_of_ble_eq_true rfl⟩,
        fun h => h.names s (List.mem_singleton.mpr rfl)⟩
    rw [postorder, foldlM_one]
    refine (settles_name s stack).congr hok ?_
    rintro _ ⟨c, rfl⟩
    exact built_of_node rfl rfl rfl
  | emptyCall f =>
    intro stack
    have hok : (Callable f 0 ∧ 0 + 1 ≤ 1000) ↔ (emptyCall f).Acceptable :=
      ⟨fun h => ⟨List.forall_mem_nil _, List.forall_mem_singleton.mpr h.1, h.2⟩,
        fun h => ⟨h.calls (f, 0) (List.mem_singleton.mpr rfl), h.height⟩⟩
    rw [postorder, foldlM_one]
    refine (settles_call f [] stack).congr hok ?_
    rintro _ ⟨b, rfl⟩
    exact built_of_node rfl rfl rfl
  | call f a ih =>
    intro stack
    -- There are as many trees on the stack as the call takes.
    rw [postorder, List.foldlM_append]
    refine ((ih stack).bind (Q := Callable f a.itemCount ∧ a.height + 1 ≤ 1000)
      (H := Built (call f a) stack) ?_).congr ?_ fun _ h => h
    · rintro - _ ⟨nodes, rfl, hlen, hheight, -⟩
      rw [foldlM_one, ← hheight, itemCount_args, ← hlen]
      refine (settles_call f nodes stack).congr Iff.rfl ?_
      rintro _ ⟨b, rfl⟩
      exact built_of_node rfl (congrArg (· + 1) hheight) rfl
    · constructor
      · rintro ⟨⟨names, calls, -⟩, hcall, height⟩
        exact ⟨names, List.forall_mem_cons.mpr ⟨hcall, calls⟩, height⟩
      · rintro ⟨names, calls, height⟩
        obtain ⟨hcall, calls⟩ := List.forall_mem_cons.mp calls
        exact ⟨⟨names, calls, Nat.le_of_succ_le height⟩, hcall, height⟩
  | minus u ih =>
    intro stack
    rw [postorder, List.foldlM_append]
    refine ((ih stack).bind (Q := (minus u).height ≤ 1000) (H := Built (minus u) stack) ?_).congr
      (acceptable_of_eq (minus u) u rfl rfl (Nat.le_succ u.height)).symm fun _ h => h
    intro _ result hresult
    obtain ⟨node, rfl, hheight, -⟩ := exists_node_of_built hresult (by decide)
    have hnode : nodeOf .neg (node :: stack) = .ok (⟨.neg node.expr, node.height + 1⟩, stack) := rfl
    rw [foldlM_one, height, ← hheight]
    refine (settles_push hnode).congr Iff.rfl ?_
    rintro _ rfl
    exact built_of_node rfl (congrArg (· + 1) hheight) rfl
  | pow a u iha ihu =>
    intro stack
    rw [postorder, List.foldlM_append, acceptable_append (pow a u) a u rfl rfl
      (Nat.le_succ_of_le (Nat.le_max_left ..)) (Nat.le_succ_of_le (Nat.le_max_right ..))]
    refine (settles_operands iha ihu stack).bind ?_
    rintro - result ⟨middle, ha, hu⟩
    rw [foldlM_one]
    exact settles_pow ha hu
  | next xs s h x ihxs ihx =>
    intro stack
    obtain ⟨hleft, hright⟩ := height_le_next xs h x
    rw [postorder, List.foldlM_append,
      acceptable_append (xs.next s h x) xs x rfl rfl hleft hright]
    refine (settles_operands ihxs ihx stack).bind ?_
    rintro ⟨oks, ok⟩ result ⟨middle, hxs, hx⟩
    -- A comma reads nothing and checks nothing; then the bound on the parts is the bound on both.
    exact settles_next xs h x hxs hx (Nat.max_le.mpr ⟨oks.height, ok.height⟩)
  | group e ih =>
    exact fun stack => settles_same (group e) e (by decide) rfl rfl rfl rfl rfl rfl (ih stack)
  | ofAtom a ih =>
    exact fun stack => settles_same (ofAtom a) a (by decide) rfl rfl rfl rfl rfl rfl (ih stack)
  | ofPower p ih =>
    exact fun stack => settles_same (ofPower p) p (by decide) rfl rfl rfl rfl rfl rfl (ih stack)
  | plus u ih =>
    exact fun stack => settles_same (plus u) u (by decide) rfl rfl rfl rfl rfl rfl (ih stack)
  | @first k x ih =>
    exact fun stack => settles_same (first x) x k.item_ne_args rfl rfl rfl rfl rfl rfl (ih stack)

end Derivation

/-! ## A whole sentence -/

/-- The postfix form of a sentence has a tree when the sentence is acceptable. -/
theorem settles_ofPostfix (t : Derivation (.series .sum)) :
    Settles t.Acceptable (ofPostfix t.postorder) fun _ => True := by
  have hone : Settles (t.Acceptable ∧ True) (ofPostfix t.postorder) fun _ => True := by
    refine (t.settles_postorder []).bind fun _ result hresult => ?_
    obtain ⟨node, rfl, -⟩ := Derivation.exists_node_of_built hresult (by decide)
    exact .inl ⟨trivial, node.expr, rfl, trivial⟩
  exact hone.congr (and_iff_left trivial) fun _ h => h

/-- **A sentence is refused for its names, its calls or its height only.**  When tokens have a
postfix form they have one derivation, and the postfix form has a tree exactly when the names that
no parenthesis follows are constants, the functions that are called take that many arguments, and
the derivation is at most a thousand levels high.  No operator and no call misses an operand, and
none is left over.  A run of operators adds one level to its items. -/
theorem ofPostfix_exact {tokens out : List Token} (h : Postfix.ofTokens tokens = .ok out) :
    ∃ t : Derivation (.series .sum),
      (∀ t' : Derivation (.series .sum), t'.tokens = tokens ↔ t' = t) ∧
      ((∃ tree, ofPostfix out = .ok tree) ↔
        (∀ s ∈ bareNames tokens, s = "pi" ∨ s = "e") ∧
        (∀ c ∈ t.calls, Callable c.1 c.2) ∧ t.height ≤ 1000) ∧
      (∀ fault ∈ [.negationWithoutOperand, .malformed, .missingArguments, .delimiterInPostfix],
        ofPostfix out ≠ .error (.invalidExpression fault)) ∧
      ∀ (k : Series) (xs : Derivation (.series k)) (n : Nat), k ≠ .args →
        (∀ x ∈ xs.items, x.height ≤ n) → xs.height ≤ n + 1 := by
  obtain ⟨t, rfl, rfl⟩ := ofTokens_eq_ok_iff.mp h
  refine ⟨t, fun t' => ⟨Derivation.tokens_injective, fun h => h ▸ rfl⟩, ?_, ?_,
    fun k xs n hk hn => (xs.height_of_items hk hn).1⟩
  · rw [t.bareNames_eq_names]
    rcases settles_ofPostfix t with
      ⟨⟨names, calls, height⟩, tree, htree, -⟩ | ⟨hnot, fault, hfault, -⟩
    · exact ⟨fun _ => ⟨names, calls, height⟩, fun _ => ⟨tree, htree⟩⟩
    · rw [hfault]
      refine ⟨?_, fun ⟨names, calls, height⟩ => absurd ⟨names, calls, height⟩ hnot⟩
      rintro ⟨tree, ⟨⟩⟩
  · intro fault hmem heq
    rcases settles_ofPostfix t with ⟨-, tree, htree, -⟩ | ⟨-, fault', hfault, hrefusal⟩
    · rw [htree] at heq
      cases heq
    · rw [hfault] at heq
      cases heq
      simp only [List.mem_cons, List.not_mem_nil, or_false] at hmem
      rcases hmem with rfl | rfl | rfl | rfl <;> exact hrefusal

/-- `sin(pi) - (1 + 2) - log(8, 2)` -/
theorem ofPostfix_exact_of_calls :
    let tokens : List Token := [.name "sin", .lparen, .name "pi", .rparen, .op .sub, .lparen,
      .num (.int 1), .op .add, .num (.int 2), .rparen, .op .sub, .name "log", .lparen,
      .num (.int 8), .comma, .num (.int 2), .rparen]
    let out : List Token := [.name "pi", .call "sin" 1, .num (.int 1), .num (.int 2), .op .add,
      .op .sub, .num (.int 8), .num (.int 2), .call "log" 2, .op .sub]
    Postfix.ofTokens tokens = .ok out ∧ (∃ tree, ofPostfix out = .ok tree) ∧
      ∃ t : Derivation (.series .sum), t.tokens = tokens ∧
        (∀ c ∈ t.calls, Callable c.1 c.2) ∧ t.height ≤ 1000 := by
  intro tokens out
  have hout : Postfix.ofTokens tokens = .ok out := rfl
  have hbuilt : ∃ tree, ofPostfix out = .ok tree := ⟨_, rfl⟩
  obtain ⟨t, ht, htree, -⟩ := ofPostfix_exact hout
  obtain ⟨-, calls, height⟩ := htree.mp hbuilt
  exact ⟨hout, hbuilt, t, (ht t).mpr rfl, calls, height⟩

end SciCalc.Grammar
