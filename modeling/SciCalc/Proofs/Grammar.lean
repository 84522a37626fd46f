import SciCalc.Postfix

/-! # The grammar of expressions

What the calculator accepts, written down without a stack:

* `E → T | E (+|-) T` and `T → U | T (*|/|%) U`, both grouping to the left;
* `U → P | + U | - U`;
* `P → A | A ** U`, grouping to the right;
* `A → number | name | ( E ) | name ( ) | name ( E (, E)* )`.

The three rules that group to the left — sums, products and the arguments of a call — are one rule
with three instances, a `Series`.  A `Derivation` is a derivation tree.  It has the tokens that it
derives (`tokens`) and a postfix traversal (`postorder`).  The grammar is unambiguous: tokens have
at most one derivation (`Derivation.tokens_injective`), and more is true, a derivation is
determined by any tokens that it begins, up to where it stops.
-/
namespace SciCalc.Grammar

/-- What is written as items with separators between them. -/
inductive Series where
  /-- The arguments of a call. -/
  | args
  | sum
  | product
deriving DecidableEq

/-- The nonterminals of the grammar. -/
inductive Level where
  | series (k : Series)
  /-- An operand of a product: a power behind any signs. -/
  | signed
  | power
  | atom
deriving DecidableEq

namespace Series

/-- The level of the items of a series. -/
def item : Series → Level
  | args => .series sum
  | sum => .series product
  | product => .signed

/-- What may stand between two items of a series. -/
def separators : Series → List Token
  | args => [.comma]
  | sum => [.op .add, .op .sub]
  | product => [.op .mul, .op .div, .op .mod]

theorem item_ne_args (k : Series) : k.item ≠ .series .args := by
  cases k <;> simp [item]

theorem comma_not_separator {k : Series} (hk : k ≠ args) : .comma ∉ k.separators := by
  cases k with
  | args => exact absurd rfl hk
  | sum | product => simp [separators]

end Series

/-- The derivation trees of a level. -/
inductive Derivation : Level → Type where
  | num (v : Value) : Derivation .atom
  | name (s : String) : Derivation .atom
  | group (e : Derivation (.series .sum)) : Derivation .atom
  | emptyCall (f : String) : Derivation .atom
  | call (f : String) (a : Derivation (.series .args)) : Derivation .atom
  | ofAtom (a : Derivation .atom) : Derivation .power
  | pow (a : Derivation .atom) (u : Derivation .signed) : Derivation .power
  | ofPower (p : Derivation .power) : Derivation .signed
  | plus (u : Derivation .signed) : Derivation .signed
  | minus (u : Derivation .signed) : Derivation .signed
  | first {k : Series} (x : Derivation k.item) : Derivation (.series k)
  | next {k : Series} (xs : Derivation (.series k)) (s : Token) (h : s ∈ k.separators)
      (x : Derivation k.item) : Derivation (.series k)

namespace Derivation
variable {l : Level} {k : Series}

/-- The tokens that a tree derives, from left to right. -/
def tokens {l : Level} : Derivation l → List Token
  | num v => [.num v]
  | name s => [.name s]
  | group e => .lparen :: e.tokens ++ [.rparen]
  | emptyCall f => [.name f, .lparen, .rparen]
  | call f a => .name f :: .lparen :: a.tokens ++ [.rparen]
  | ofAtom a => a.tokens
  | pow a u => a.tokens ++ .op .pow :: u.tokens
  | ofPower p => p.tokens
  | plus u => .op .add :: u.tokens
  | minus u => .op .sub :: u.tokens
  | first x => x.tokens
  | next xs s _ x => xs.tokens ++ s :: x.tokens

/-- The commas between the items of a series; only arguments have any. -/
def commas {l : Level} : Derivation l → Nat
  | next xs s _ _ => xs.commas + if s = .comma then 1 else 0
  | _ => 0

/-- The number of items of a series; for arguments, their number. -/
def itemCount {l : Level} : Derivation l → Nat
  | first _ => 1
  | next xs _ _ _ => xs.itemCount + 1
  | _ => 0

/-- What a separator leaves behind the two sides that it separates: a comma leaves nothing. -/
def mark (s : Token) : List Token :=
  if s = .comma then [] else [s]

/-- The postfix traversal: operands, and then what is done with them. -/
def postorder {l : Level} : Derivation l → List Token
  | num v => [.num v]
  | name s => [.name s]
  | group e => e.postorder
  | emptyCall f => [.call f 0]
  | call f a => a.postorder ++ [.call f a.itemCount]
  | ofAtom a => a.postorder
  | pow a u => a.postorder ++ u.postorder ++ [.op .pow]
  | ofPower p => p.postorder
  | plus u => u.postorder
  | minus u => u.postorder ++ [.neg]
  | first x => x.postorder
  | next xs s _ x => xs.postorder ++ x.postorder ++ mark s

/-- There is one argument more than there are commas. -/
theorem itemCount_args (a : Derivation (.series .args)) : a.itemCount = a.commas + 1 := by
  match a with
  | .first x => rfl
  | .next xs s h x =>
    obtain rfl : s = .comma := List.mem_singleton.mp h
    rw [itemCount, xs.itemCount_args, commas, if_pos rfl]

theorem commas_eq_zero (t : Derivation l) (hl : l ≠ .series .args) : t.commas = 0 := by
  induction t with
  | next xs s h x ih =>
    have hs : s ≠ .comma := by
      rintro rfl
      exact Series.comma_not_separator (fun hk => hl (congrArg _ hk)) h
    rw [commas, ih hl, if_neg hs]
  | _ => rfl

/-- The token that a token of the postfix traversal stands for: a call stands for the name of its
function, and a negation for a minus sign. -/
def origin : Token → Token
  | .call f _ => .name f
  | .neg => .op .sub
  | token => token

theorem origin_separator {k : Series} {s : Token} (h : s ∈ k.separators) : origin s = s := by
  cases k <;> simp only [Series.separators, List.mem_cons, List.not_mem_nil, or_false] at h
  · rw [h]; rfl
  · rcases h with rfl | rfl <;> rfl
  · rcases h with rfl | rfl | rfl <;> rfl

/-- Whatever stands in the postfix traversal stands for one of the tokens. -/
theorem origin_mem_tokens (t : Derivation l) : ∀ token ∈ t.postorder, origin token ∈ t.tokens := by
  induction t with
  | num | name | emptyCall => simp [postorder, tokens, origin]
  | ofAtom a ih | ofPower a ih | first a ih => exact ih
  | group a ih =>
    exact fun token h => List.mem_cons_of_mem _ (List.mem_append_left _ (ih token h))
  | plus u ih => exact fun token h => List.mem_cons_of_mem _ (ih token h)
  | call f a ih =>
    refine List.forall_mem_append.mpr ⟨fun token h => ?_, ?_⟩
    · exact List.mem_cons_of_mem _ (List.mem_cons_of_mem _ (List.mem_append_left _ (ih token h)))
    · exact List.forall_mem_singleton.mpr List.mem_cons_self
  | minus u ih =>
    refine List.forall_mem_append.mpr ⟨fun token h => List.mem_cons_of_mem _ (ih token h), ?_⟩
    exact List.forall_mem_singleton.mpr List.mem_cons_self
  | pow a u iha ihu =>
    simp only [postorder, List.forall_mem_append, List.forall_mem_singleton]
    refine ⟨⟨fun token h => List.mem_append_left _ (iha token h), fun token h => ?_⟩, ?_⟩
    · exact List.mem_append_right _ (List.mem_cons_of_mem _ (ihu token h))
    · exact List.mem_append_right _ List.mem_cons_self
  | next xs s hs x ihxs ihx =>
    simp only [postorder, List.forall_mem_append]
    refine ⟨⟨fun token h => List.mem_append_left _ (ihxs token h), fun token h => ?_⟩, ?_⟩
    · exact List.mem_append_right _ (List.mem_cons_of_mem _ (ihx token h))
    · intro token h
      have hsep : token = s := by
        rw [mark] at h
        split at h
        · cases h
        · exact List.mem_singleton.mp h
      rw [hsep, origin_separator hs]
      exact List.mem_append_right _ List.mem_cons_self

end Derivation

/-! ## What may follow a phrase

The tokens that go on with a phrase, so that it does not end before them.  A parenthesis behind an
atom is among them at every level: it would make a name a call. -/

/-- The tokens that go on with a phrase of a level. -/
def Level.continuations : Level → List Token
  | .atom => [.lparen]
  | .power | .signed => [.lparen, .op .pow]
  | .series .product => [.lparen, .op .pow, .op .mul, .op .div, .op .mod]
  | .series .sum => [.lparen, .op .pow, .op .mul, .op .div, .op .mod, .op .add, .op .sub]
  | .series .args => [.lparen, .op .pow, .op .mul, .op .div, .op .mod, .op .add, .op .sub, .comma]

/-- A phrase of the level stops before these tokens. -/
def Stops (l : Level) (rest : List Token) : Prop :=
  ∀ s ∈ rest.head?, s ∉ l.continuations

theorem stops_nil (l : Level) : Stops l [] := by
  simp [Stops]

theorem stops_cons {l : Level} {s : Token} {rest : List Token} :
    Stops l (s :: rest) ↔ s ∉ l.continuations := by
  simp [Stops]

theorem stops_rparen (l : Level) (rest : List Token) : Stops l (.rparen :: rest) := by
  rw [stops_cons]
  match l with
  | .atom | .power | .signed | .series .args | .series .sum | .series .product =>
    simp [Level.continuations]

theorem stops_pow (rest : List Token) : Stops .atom (.op .pow :: rest) := by
  simp [stops_cons, Level.continuations]

theorem not_stops_pow (rest : List Token) : ¬ Stops .power (.op .pow :: rest) := by
  simp [stops_cons, Level.continuations]

theorem lparen_continues (l : Level) : .lparen ∈ l.continuations := by
  match l with
  | .atom | .power | .signed | .series .args | .series .sum | .series .product =>
    simp [Level.continuations]

theorem not_stops_lparen (l : Level) (rest : List Token) : ¬ Stops l (.lparen :: rest) :=
  fun h => stops_cons.mp h (lparen_continues l)

theorem Stops.atom {l : Level} {rest : List Token} (h : Stops l rest) : Stops .atom rest := by
  intro s hs hc
  rw [List.mem_singleton.mp hc] at hs
  exact h .lparen hs (lparen_continues l)

namespace Series
variable {k : Series} {s : Token} {rest : List Token}

theorem separator_continues (h : s ∈ k.separators) : s ∈ (Level.series k).continuations := by
  cases k <;> simp only [separators, List.mem_cons, List.not_mem_nil, or_false] at h
  · simp [h, Level.continuations]
  · rcases h with rfl | rfl <;> simp [Level.continuations]
  · rcases h with rfl | rfl | rfl <;> simp [Level.continuations]

/-- An item ends before a separator. -/
theorem separator_stops (h : s ∈ k.separators) (rest : List Token) :
    Stops k.item (s :: rest) := by
  rw [stops_cons]
  cases k <;> simp only [separators, List.mem_cons, List.not_mem_nil, or_false] at h
  · simp [h, item, Level.continuations]
  · rcases h with rfl | rfl <;> simp [item, Level.continuations]
  · rcases h with rfl | rfl | rfl <;> simp [item, Level.continuations]

theorem continuations_item_subset (k : Series) :
    k.item.continuations ⊆ (Level.series k).continuations := by
  cases k <;> simp [item, Level.continuations]

end Series

theorem Stops.item {k : Series} {rest : List Token} (h : Stops (.series k) rest) :
    Stops k.item rest :=
  fun s hs hc => h s hs (k.continuations_item_subset hc)

/-- The level of the phrases that a phrase is read off by: the items of a series, and any other
phrase itself. -/
def Level.inner : Level → Level
  | .series k => k.item
  | l => l

theorem Stops.inner {l : Level} {rest : List Token} (h : Stops l rest) : Stops l.inner rest := by
  cases l with
  | series k => exact h.item
  | signed | power | atom => exact h

theorem Stops.not_separator {k : Series} {s : Token} {rest : List Token}
    (h : Stops (.series k) (s :: rest)) : s ∉ k.separators :=
  fun hs => h s rfl (Series.separator_continues hs)

/-! ## How a phrase begins -/

namespace Derivation
variable {l : Level} {k : Series}

/-- A token that a phrase of the level can begin with. -/
def Begins (l : Level) : Token → Prop
  | .num _ | .name _ | .lparen => True
  | .op o => (o = .add ∨ o = .sub) ∧ l ≠ .atom ∧ l ≠ .power
  | _ => False

theorem Begins.mono {l l' : Level} {s : Token} (h : Begins l s)
    (ha : l' = .atom → l = .atom) (hp : l' = .power → l = .atom ∨ l = .power) : Begins l' s := by
  match s, h with
  | .num _, _ | .name _, _ | .lparen, _ => trivial
  | .op o, ⟨ho, hna, hnp⟩ =>
    exact ⟨ho, fun h => hna (ha h), fun h => (hp h).elim hna hnp⟩

theorem exists_begins (t : Derivation l) : ∃ s rest, t.tokens = s :: rest ∧ Begins l s := by
  induction t with
  | num | name | group | emptyCall | call => exact ⟨_, _, rfl, trivial⟩
  | plus | minus => exact ⟨_, _, rfl, by simp [Begins]⟩
  | ofAtom a ih =>
    obtain ⟨s, rest, h, hs⟩ := ih
    exact ⟨s, rest, h, hs.mono (by simp) (by simp)⟩
  | ofPower p ih =>
    obtain ⟨s, rest, h, hs⟩ := ih
    exact ⟨s, rest, h, hs.mono (by simp) (by simp)⟩
  | first x ih =>
    obtain ⟨s, rest, h, hs⟩ := ih
    exact ⟨s, rest, h, hs.mono (by simp) (by simp)⟩
  | pow a u ih =>
    obtain ⟨s, rest, h, hs⟩ := ih
    exact ⟨s, rest ++ .op .pow :: u.tokens, by rw [tokens, h]; rfl,
      hs.mono (by simp) (by simp)⟩
  | next xs sep hsep x ih =>
    obtain ⟨s, rest, h, hs⟩ := ih
    exact ⟨s, rest ++ sep :: x.tokens, by rw [tokens, h]; rfl, hs⟩

theorem tokens_ne_rparen (t : Derivation l) (rest rest' : List Token) :
    t.tokens ++ rest ≠ .rparen :: rest' := by
  obtain ⟨s, r, h, hs⟩ := t.exists_begins
  rw [h, List.cons_append]
  rintro ⟨⟩
  exact hs

theorem tokens_ne_op (p : Derivation .power) (o : BinOp) (rest rest' : List Token) :
    p.tokens ++ rest ≠ .op o :: rest' := by
  obtain ⟨s, r, h, hs⟩ := p.exists_begins
  rw [h, List.cons_append]
  rintro ⟨⟩
  exact hs.2.2 rfl

/-! ## A phrase is determined by its tokens

Two phrases of one level that begin the same tokens are equal, if both stop where they end.  For a
series this cannot be proved from the left as it stands: the phrase in front of the last separator
does not stop there.  So series are compared that stop for their items only; then one of them goes
on where the other one ends (`Comparable`). -/

/-- `ys` is `xs` with more items, whose tokens are `read`. -/
inductive Prolongs {k : Series} :
    Derivation (.series k) → Derivation (.series k) → List Token → Prop
  | refl (xs : Derivation (.series k)) : Prolongs xs xs []
  | next {xs ys : Derivation (.series k)} {s : Token} (h : s ∈ k.separators)
      {x : Derivation k.item} {read : List Token} (more : Prolongs (xs.next s h x) ys read) :
      Prolongs xs ys (s :: x.tokens ++ read)

namespace Prolongs
variable {xs ys : Derivation (.series k)} {read rest rest' : List Token}

theorem one (xs : Derivation (.series k)) {s : Token} (h : s ∈ k.separators)
    (x : Derivation k.item) : Prolongs xs (xs.next s h x) (s :: x.tokens) := by
  simpa using Prolongs.next h (.refl (xs.next s h x))

theorem append (p : Prolongs xs ys read) {s : Token} (h : s ∈ k.separators)
    (x : Derivation k.item) : Prolongs xs (ys.next s h x) (read ++ s :: x.tokens) := by
  induction p with
  | refl xs => exact one xs h x
  | next h' more ih => simpa using Prolongs.next h' ih

theorem stops (p : Prolongs xs ys read) (h : Stops k.item rest) :
    Stops k.item (read ++ rest) := by
  cases p with
  | refl => exact h
  | next hs more => exact Series.separator_stops hs _

/-- A series that stops is not prolonged. -/
theorem eq_of_stops (p : Prolongs xs ys read) (h : Stops (.series k) (read ++ rest)) :
    xs = ys ∧ read = [] := by
  cases p with
  | refl => exact ⟨rfl, rfl⟩
  | next hs more => exact absurd hs h.not_separator

end Prolongs

/-- Two phrases are equal, or they are series and one prolongs the other by what is left behind
the other. -/
inductive Comparable : {l : Level} → Derivation l → Derivation l → List Token → List Token → Prop
  | same {l : Level} (t : Derivation l) (rest : List Token) : Comparable t t rest rest
  | longer {k : Series} {xs ys : Derivation (.series k)} {read rest : List Token}
      (p : Prolongs xs ys read) : Comparable xs ys (read ++ rest) rest
  | shorter {k : Series} {xs ys : Derivation (.series k)} {read rest : List Token}
      (p : Prolongs ys xs read) : Comparable xs ys rest (read ++ rest)

theorem Comparable.eq_of_stops {t t' : Derivation l} {rest rest' : List Token}
    (c : Comparable t t' rest rest') (h : Stops l rest) (h' : Stops l rest') :
    t = t' ∧ rest = rest' := by
  cases c with
  | same => exact ⟨rfl, rfl⟩
  | longer p =>
    obtain ⟨rfl, rfl⟩ := p.eq_of_stops h
    exact ⟨rfl, rfl⟩
  | shorter p =>
    obtain ⟨rfl, rfl⟩ := p.eq_of_stops h'
    exact ⟨rfl, rfl⟩

/-- Whatever phrase of its level begins the same tokens can be compared with `t`. -/
def Determined (t : Derivation l) : Prop :=
  ∀ ⦃t' : Derivation l⦄ ⦃rest rest' : List Token⦄, t.tokens ++ rest = t'.tokens ++ rest' →
    Stops l.inner rest → Stops l.inner rest' → Comparable t t' rest rest'

theorem Determined.eq_of_stops {t t' : Derivation l} {rest rest' : List Token}
    (d : Determined t) (h : t.tokens ++ rest = t'.tokens ++ rest') (hs : Stops l rest)
    (hs' : Stops l rest') : t = t' ∧ rest = rest' :=
  (d h hs.inner hs'.inner).eq_of_stops hs hs'

/-- A series prolongs its first item. -/
theorem Determined.prolongs_first {x : Derivation k.item} (d : Determined x)
    {rest rest' : List Token} (ys : Derivation (.series k))
    (h : x.tokens ++ rest = ys.tokens ++ rest') (hs : Stops k.item rest)
    (hs' : Stops k.item rest') : ∃ read, Prolongs (first x) ys read ∧ rest = read ++ rest' := by
  match ys with
  | .first y =>
    obtain ⟨rfl, rfl⟩ := d.eq_of_stops h hs hs'
    exact ⟨[], .refl _, rfl⟩
  | .next ys s hsep y =>
    simp only [tokens, List.append_assoc, List.cons_append] at h
    obtain ⟨read, p, hr⟩ := d.prolongs_first ys h hs (Series.separator_stops hsep _)
    exact ⟨read ++ s :: y.tokens, p.append hsep y, by simpa using hr⟩

/-- One more item behind a series that is determined. -/
theorem Determined.next {xs : Derivation (.series k)} (dxs : Determined xs) {s : Token}
    (hsep : s ∈ k.separators) {x : Derivation k.item} (dx : Determined x) :
    Determined (xs.next s hsep x) := by
  intro ys rest rest' h hs hs'
  simp only [tokens, List.append_assoc, List.cons_append] at h
  have c := dxs h (Series.separator_stops hsep _) hs'
  generalize hall : s :: (x.tokens ++ rest) = all at c
  rw [← List.cons_append] at hall
  cases c with
  | same => exact hall ▸ .shorter (.one xs hsep x)
  | shorter p =>
    rw [← hall, ← List.append_assoc]
    exact .shorter (p.append hsep x)
  | longer p =>
    -- `ys` goes on behind `xs`, so its next item begins where `x` begins.
    cases p with
    | refl =>
      rw [List.nil_append] at hall
      exact hall ▸ .shorter (.one xs hsep x)
    | next hsep' more =>
      simp only [List.cons_append, List.append_assoc, List.cons.injEq] at hall
      obtain ⟨rfl, hx⟩ := hall
      obtain ⟨rfl, rfl⟩ := dx.eq_of_stops hx hs (more.stops hs')
      exact .longer more

/-- Every phrase is compared with the phrases of its level by how these begin. -/
theorem determined (t : Derivation l) : Determined t := by
  induction t with
  | num v =>
    intro t' rest rest' h hs hs'
    cases t' with
    | num v' =>
      obtain ⟨rfl, rfl⟩ : v = v' ∧ rest = rest' := by simpa [tokens] using h
      exact .same _ _
    | name | group | emptyCall | call => simp [tokens] at h
  | name f =>
    intro t' rest rest' h hs hs'
    cases t' with
    | num | group => simp [tokens] at h
    | name g =>
      obtain ⟨rfl, rfl⟩ : f = g ∧ rest = rest' := by simpa [tokens] using h
      exact .same _ _
    | emptyCall | call =>
      simp only [tokens, List.cons_append, List.nil_append, List.cons.injEq] at h
      exact absurd (h.2 ▸ hs) (not_stops_lparen _ _)
  | group e ih =>
    intro t' rest rest' h hs hs'
    cases t' with
    | num | name | emptyCall | call => simp [tokens] at h
    | group e' =>
      simp only [tokens, List.cons_append, List.append_assoc, List.cons.injEq] at h
      obtain ⟨rfl, hr⟩ := ih.eq_of_stops h.2 (stops_rparen _ _) (stops_rparen _ _)
      obtain rfl : rest = rest' := by simpa using hr
      exact .same _ _
  | emptyCall f =>
    intro t' rest rest' h hs hs'
    cases t' with
    | num | group => simp [tokens] at h
    | name =>
      simp only [tokens, List.cons_append, List.nil_append, List.cons.injEq] at h
      exact absurd (h.2 ▸ hs') (not_stops_lparen _ _)
    | emptyCall g =>
      obtain ⟨rfl, rfl⟩ : f = g ∧ rest = rest' := by simpa [tokens] using h
      exact .same _ _
    | call g a =>
      simp only [tokens, List.cons_append, List.append_assoc, List.cons.injEq] at h
      exact absurd h.2.2.symm (a.tokens_ne_rparen _ _)
  | call f a ih =>
    intro t' rest rest' h hs hs'
    cases t' with
    | num | group => simp [tokens] at h
    | name =>
      simp only [tokens, List.cons_append, List.nil_append, List.cons.injEq] at h
      exact absurd (h.2 ▸ hs') (not_stops_lparen _ _)
    | emptyCall g =>
      simp only [tokens, List.cons_append, List.append_assoc, List.cons.injEq] at h
      exact absurd h.2.2 (a.tokens_ne_rparen _ _)
    | call g b =>
      simp only [tokens, List.cons_append, List.append_assoc, List.cons.injEq,
        Token.name.injEq] at h
      obtain ⟨rfl, -, h⟩ := h
      obtain ⟨rfl, hr⟩ := ih.eq_of_stops h (stops_rparen _ _) (stops_rparen _ _)
      obtain rfl : rest = rest' := by simpa using hr
      exact .same _ _
  | ofAtom a ih =>
    intro t' rest rest' h hs hs'
    cases t' with
    | ofAtom a' =>
      obtain ⟨rfl, rfl⟩ := ih.eq_of_stops h hs.atom hs'.atom
      exact .same _ _
    | pow a' u' =>
      -- An atom alone does not stop before the operator.
      simp only [tokens, List.append_assoc, List.cons_append] at h
      obtain ⟨-, rfl⟩ := ih.eq_of_stops h hs.atom (stops_pow _)
      exact absurd hs (not_stops_pow _)
  | pow a u iha ihu =>
    intro t' rest rest' h hs hs'
    cases t' with
    | ofAtom a' =>
      simp only [tokens, List.append_assoc, List.cons_append] at h
      obtain ⟨-, rfl⟩ := iha.eq_of_stops h (stops_pow _) hs'.atom
      exact absurd hs' (not_stops_pow _)
    | pow a' u' =>
      simp only [tokens, List.append_assoc, List.cons_append] at h
      obtain ⟨rfl, hu⟩ := iha.eq_of_stops h (stops_pow _) (stops_pow _)
      obtain ⟨rfl, rfl⟩ := ihu.eq_of_stops (List.cons.inj hu).2 hs hs'
      exact .same _ _
  | ofPower p ih =>
    intro t' rest rest' h hs hs'
    cases t' with
    | ofPower p' =>
      obtain ⟨rfl, rfl⟩ := ih.eq_of_stops h hs hs'
      exact .same _ _
    | plus | minus => exact absurd h (p.tokens_ne_op _ _ _)
  | plus u ih =>
    intro t' rest rest' h hs hs'
    cases t' with
    | ofPower p' => exact absurd h.symm (p'.tokens_ne_op _ _ _)
    | minus => simp [tokens] at h
    | plus u' =>
      obtain ⟨rfl, rfl⟩ := ih.eq_of_stops (List.cons.inj h).2 hs hs'
      exact .same _ _
  | minus u ih =>
    intro t' rest rest' h hs hs'
    cases t' with
    | ofPower p' => exact absurd h.symm (p'.tokens_ne_op _ _ _)
    | plus => simp [tokens] at h
    | minus u' =>
      obtain ⟨rfl, rfl⟩ := ih.eq_of_stops (List.cons.inj h).2 hs hs'
      exact .same _ _
  | first x ih =>
    intro ys rest rest' h hs hs'
    obtain ⟨read, p, rfl⟩ := ih.prolongs_first ys h hs hs'
    exact .longer p
  | next xs s hsep x ihxs ihx => exact ihxs.next hsep ihx

/-- **The grammar is unambiguous.**  Tokens have at most one derivation at a level. -/
theorem tokens_injective {t t' : Derivation l} (h : t.tokens = t'.tokens) : t = t' :=
  (t.determined.eq_of_stops (congrArg (· ++ []) h) (stops_nil l) (stops_nil l)).1

end Derivation
end SciCalc.Grammar
