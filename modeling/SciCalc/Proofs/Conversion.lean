import SciCalc.Proofs.Grammar

/-! # The conversion reads the grammar

`Postfix.convert` has one stack and three positions; the grammar has neither.  They meet in what a
phrase leaves on the stack while it is read: the operators on its right edge wait until something
behind them lets them go (`pending`), and the rest of its postfix traversal is out (`early`).

* `convert_tokens`: reading the tokens of a phrase puts `pending` on the stack and `early` out,
  whatever follows.  So every phrase is accepted, with its postfix traversal.
* `finds`: whatever is accepted begins with a phrase, as long as one can be read.  So nothing else
  is accepted.
-/
namespace SciCalc.Grammar
open Outcome Postfix

/-- What a separator puts on the stack when it is read. -/
def waiting : Token → List Pending
  | .op o => [.op o]
  | _ => []

namespace Series
variable {k : Series} {s : Token}

/-- How tightly the operators of a series bind; commas do not. -/
def precedence : Series → Nat
  | args => 0
  | sum => 1
  | product => 2

theorem separator_cases (h : s ∈ k.separators) :
    (k = args ∧ s = .comma) ∨
      k ≠ args ∧ ∃ o, s = .op o ∧ o ≠ .pow ∧ Postfix.precedence o = k.precedence := by
  cases k <;> simp only [separators, List.mem_cons, List.not_mem_nil, or_false] at h
  · exact .inl ⟨rfl, h⟩
  · rcases h with rfl | rfl <;> exact .inr ⟨by decide, _, rfl, by decide, rfl⟩
  · rcases h with rfl | rfl | rfl <;> exact .inr ⟨by decide, _, rfl, by decide, rfl⟩

end Series

/-- The least precedence of the operators that wait at the right edge of a phrase. -/
def Level.precedence : Level → Nat
  | .series k => k.precedence
  | .signed | .power | .atom => 3

namespace Derivation
variable {l : Level} {k : Series}

/-- The operators of the right edge, which wait when the last token is read. -/
def pending {l : Level} : Derivation l → List Pending
  | num _ | name _ | group _ | emptyCall _ | call _ _ | ofAtom _ => []
  | pow _ u => u.pending ++ [.op .pow]
  | ofPower p => p.pending
  | plus u => u.pending
  | minus u => u.pending ++ [.neg]
  | first x => x.pending
  | next _ s _ x => x.pending ++ waiting s

/-- What is out when the last token is read: the postfix traversal but for the operators that
wait. -/
def early {l : Level} : Derivation l → List Token
  | num v => [.num v]
  | name s => [.name s]
  | group e => e.postorder
  | emptyCall f => [.call f 0]
  | call f a => a.postorder ++ [.call f a.itemCount]
  | ofAtom a => a.postorder
  | pow a u => a.postorder ++ u.early
  | ofPower p => p.early
  | plus u => u.early
  | minus u => u.early
  | first x => x.early
  | next xs _ _ x => xs.postorder ++ x.early

theorem emitted_append (ps qs : List Pending) : emitted (ps ++ qs) = emitted ps ++ emitted qs :=
  List.filterMap_append

theorem emitted_waiting {s : Token} (h : s ∈ k.separators) : emitted (waiting s) = mark s := by
  rcases Series.separator_cases h with ⟨-, rfl⟩ | ⟨-, o, rfl, -, -⟩ <;> rfl

theorem early_append_pending (t : Derivation l) : t.early ++ emitted t.pending = t.postorder := by
  induction t with
  | num | name | group | emptyCall | call | ofAtom =>
    simp [early, pending, emitted, postorder]
  | pow a u _ ih =>
    rw [early, pending, postorder, emitted_append, ← ih]
    simp [emitted, Pending.token?]
  | minus u ih =>
    rw [early, pending, postorder, emitted_append, ← ih]
    simp [emitted, Pending.token?]
  | ofPower p ih => exact ih
  | plus u ih => exact ih
  | first x ih => exact ih
  | next xs s h x _ ih =>
    rw [early, pending, postorder, emitted_append, ← ih, emitted_waiting h]
    simp

theorem early_atom (a : Derivation .atom) : a.early = a.postorder := by
  cases a <;> rfl

theorem pending_atom (a : Derivation .atom) : a.pending = [] := by
  cases a <;> rfl

/-- At the right edge of a phrase wait operators only, and none that binds looser than the
phrase. -/
theorem binding_pending (t : Derivation l) :
    ∀ p ∈ t.pending, p.isOperator ∧ l.precedence ≤ p.binding := by
  induction t with
  | num | name | group | emptyCall | call | ofAtom => simp [pending]
  | pow a u _ ih =>
    intro p hp
    rcases List.mem_append.mp hp with hp | hp
    · exact ih p hp
    · rw [List.mem_singleton.mp hp]
      decide
  | minus u ih =>
    intro p hp
    rcases List.mem_append.mp hp with hp | hp
    · exact ih p hp
    · rw [List.mem_singleton.mp hp]
      decide
  | ofPower p ih => exact ih
  | plus u ih => exact ih
  | @first k x ih =>
    intro p hp
    obtain ⟨ho, hb⟩ := ih p hp
    exact ⟨ho, Nat.le_trans (by cases k <;> decide) hb⟩
  | @next k xs s h x _ ih =>
    intro p hp
    rcases List.mem_append.mp hp with hp | hp
    · obtain ⟨ho, hb⟩ := ih p hp
      exact ⟨ho, Nat.le_trans (by cases k <;> decide) hb⟩
    · rcases Series.separator_cases h with ⟨-, rfl⟩ | ⟨-, o, rfl, -, ho⟩
      · cases hp
      · rw [List.mem_singleton.mp hp]
        exact ⟨rfl, Nat.le_of_eq ho.symm⟩

/-! ## The stack below a phrase -/

/-- The stack allows a phrase of the level: arguments stand in a call, and no operator waits that
an operator of the phrase would let go. -/
def Ready : Level → List Pending → Prop
  | .series .args, stack => ∃ f n below, stack = .call f n :: below
  | .series k, stack => ∀ p ∈ stack.head?, p.binding < k.precedence
  | .signed, _ | .power, _ | .atom, _ => True

/-- The stack with more commas counted in the call on its top. -/
def addCommas (n : Nat) : List Pending → List Pending
  | .call f m :: below => .call f (m + n) :: below
  | stack => stack

@[simp] theorem addCommas_zero (stack : List Pending) : addCommas 0 stack = stack := by
  rcases stack with _ | ⟨_ | _ | _ | _, _⟩ <;> rfl

theorem addCommas_addCommas (m n : Nat) (stack : List Pending) :
    addCommas n (addCommas m stack) = addCommas (m + n) stack := by
  rcases stack with _ | ⟨_ | _ | _ | _, _⟩ <;> simp [addCommas, Nat.add_assoc]

theorem Ready.addCommas {stack : List Pending} (hr : Ready l stack) (t : Derivation l) :
    Ready l (addCommas t.commas stack) := by
  by_cases hl : l = .series .args
  · subst hl
    obtain ⟨f, n, below, rfl⟩ := hr
    exact ⟨f, _, below, rfl⟩
  · rwa [t.commas_eq_zero hl, addCommas_zero]

/-- Behind an open parenthesis a sum may stand. -/
theorem ready_sum {p : Pending} (hp : p.binding = 0) (below : List Pending) :
    Ready (.series .sum) (p :: below) := by
  rintro q ⟨⟩
  exact Nat.lt_of_le_of_lt (Nat.le_of_eq hp) Nat.one_pos

theorem Ready.first {stack : List Pending} (hr : Ready (.series k) stack) :
    Ready k.item stack := by
  cases k with
  | args =>
    obtain ⟨f, n, below, rfl⟩ := hr
    exact ready_sum rfl below
  | sum => exact fun p hp => Nat.lt_of_lt_of_le (hr p hp) (by decide)
  | product => trivial

theorem Ready.next {stack : List Pending} (hr : Ready (.series k) stack) {s : Token}
    (h : s ∈ k.separators) :
    Ready k.item (waiting s ++ Derivation.addCommas (if s = .comma then 1 else 0) stack) := by
  rcases Series.separator_cases h with ⟨rfl, rfl⟩ | ⟨hk, o, rfl, -, ho⟩
  · obtain ⟨f, n, below, rfl⟩ := hr
    exact ready_sum rfl below
  · cases k with
    | args => exact absurd rfl hk
    | sum =>
      rintro p ⟨⟩
      exact Nat.lt_of_le_of_lt (Nat.le_of_eq ho) (by decide)
    | product => trivial

/-! ## Reading a phrase -/

theorem takeWhile_pending (t : Derivation l) {lets : Pending → Bool}
    (ht : ∀ p ∈ t.pending, lets p) (below : List Pending) (hb : ∀ p ∈ below.head?, ¬ lets p) :
    (t.pending ++ below).takeWhile lets = t.pending ∧
      (t.pending ++ below).dropWhile lets = below := by
  have hbelow : below.takeWhile lets = [] ∧ below.dropWhile lets = below := by
    cases below with
    | nil => exact ⟨rfl, rfl⟩
    | cons p ps => simp [hb p rfl]
  rw [List.takeWhile_append_of_pos ht, List.dropWhile_append_of_pos ht, hbelow.1, hbelow.2]
  exact ⟨List.append_nil _, rfl⟩

/-- What waits above an open parenthesis. -/
theorem inner_pending (t : Derivation l) {p : Pending} (hp : ¬ p.isOperator)
    (below : List Pending) :
    inner (t.pending ++ p :: below) = t.pending ∧
      outer (t.pending ++ p :: below) = p :: below := by
  have hb : ∀ q ∈ (p :: below).head?, ¬ q.isOperator := by
    rintro q ⟨⟩
    exact hp
  exact t.takeWhile_pending (fun q hq => (t.binding_pending q hq).1) _ hb

/-- What waits when no parenthesis is open. -/
theorem inner_pending_nil (t : Derivation l) :
    inner t.pending = t.pending ∧ outer t.pending = [] := by
  have hsplit := t.takeWhile_pending (fun q hq => (t.binding_pending q hq).1) [] nofun
  rwa [List.append_nil] at hsplit

theorem map_append_map (a b : List Token) (r : Except CalcError (List Token)) :
    (r.map (b ++ ·)).map (a ++ ·) = r.map (a ++ b ++ ·) := by
  cases r <;> simp [Except.map]

/-- A separator lets go what waits at the right edge of the items in front of it, and nothing
below. -/
theorem convert_separator (xs : Derivation (.series k)) {s : Token} (h : s ∈ k.separators)
    {stack : List Pending} (hr : Ready (.series k) stack) (rest : List Token) :
    convert .value (xs.pending ++ stack) (s :: rest) =
      (convert .operand (waiting s ++ addCommas (if s = .comma then 1 else 0) stack) rest).map
        (emitted xs.pending ++ ·) := by
  rcases Series.separator_cases h with ⟨rfl, rfl⟩ | ⟨hk, o, rfl, hpow, ho⟩
  · obtain ⟨f, n, below, rfl⟩ := hr
    obtain ⟨hi, hout⟩ := xs.inner_pending (p := .call f n) Bool.false_ne_true below
    rw [convert, hout, hi]
    rfl
  · have hw : ∀ p ∈ xs.pending, goesBefore o p := by
      intro p hp
      obtain ⟨hop, hb⟩ := xs.binding_pending p hp
      rw [goesBefore, hop, if_neg hpow, ho]
      exact decide_eq_true hb
    have hb : ∀ p ∈ stack.head?, ¬ goesBefore o p := by
      intro p hp
      have hlt : p.binding < k.precedence := by
        cases k with
        | args => exact absurd rfl hk
        | sum | product => exact hr p hp
      simp [goesBefore, hpow, ho, Nat.not_le.mpr hlt]
    obtain ⟨htake, hdrop⟩ := xs.takeWhile_pending hw stack hb
    rw [convert, if_pos rfl, htake, hdrop, if_neg (by simp), addCommas_zero]
    rfl

/-- No operator that waits goes before a power. -/
theorem goesBefore_pow (p : Pending) : goesBefore .pow p = false := by
  match p with
  | .neg | .group | .call .. => rfl
  | .op o => cases o <;> rfl

theorem convert_pow (stack : List Pending) (rest : List Token) :
    convert .value stack (.op .pow :: rest) = convert .operand (.op .pow :: stack) rest := by
  have htake : stack.takeWhile (goesBefore .pow) = [] := by
    cases stack <;> simp [goesBefore_pow]
  have hdrop : stack.dropWhile (goesBefore .pow) = stack := by
    cases stack <;> simp [goesBefore_pow]
  rw [convert, if_pos rfl, htake, hdrop]
  cases convert .operand (.op .pow :: stack) rest <;> rfl

/-- A closing parenthesis lets go what waits inside. -/
theorem convert_rparen_group (t : Derivation l) (below : List Pending) (rest : List Token) :
    convert .value (t.pending ++ .group :: below) (.rparen :: rest) =
      (convert .value below rest).map (emitted t.pending ++ ·) := by
  obtain ⟨hi, hout⟩ := t.inner_pending (p := .group) Bool.false_ne_true below
  rw [convert, hout, hi]
  rfl

theorem convert_rparen_call (t : Derivation l) (f : String) (n : Nat) (below : List Pending)
    (rest : List Token) :
    convert .value (t.pending ++ .call f n :: below) (.rparen :: rest) =
      (convert .value below rest).map (emitted t.pending ++ .call f (n + 1) :: ·) := by
  obtain ⟨hi, hout⟩ := t.inner_pending (p := .call f n) Bool.false_ne_true below
  rw [convert, hout, hi]
  rfl

/-- **Reading a phrase.**  From any position that asks for an operand, the tokens of a phrase leave
the operators of its right edge on the stack, and the rest of its postfix traversal is out. -/
theorem convert_tokens (t : Derivation l) : ∀ {position : Position} {stack : List Pending}
    {rest : List Token}, position ≠ .value → Ready l stack → Stops .atom rest →
    convert position stack (t.tokens ++ rest) =
      (convert .value (t.pending ++ addCommas t.commas stack) rest).map (t.early ++ ·) := by
  induction t with
  | num v =>
    intro position stack rest hp hr hs
    simp [tokens, pending, early, commas, convert, hp]
  | name s =>
    intro position stack rest hp hr hs
    simp only [tokens, pending, early, commas, addCommas_zero, List.cons_append, List.nil_append]
    rw [convert, if_neg hp]
    rintro r rfl
    exact not_stops_lparen _ _ hs
  | group e ih =>
    intro position stack rest hp hr hs
    have he := @ih .opened (.group :: stack) (.rparen :: rest)
      (by decide) (ready_sum rfl stack) (stops_rparen _ _)
    simp only [tokens, List.cons_append, List.append_assoc, List.nil_append]
    rw [convert, if_neg hp, he, e.commas_eq_zero (by decide), addCommas_zero,
      convert_rparen_group, map_append_map, early_append_pending]
    simp [pending, early, commas]
  | emptyCall f =>
    intro position stack rest hp hr hs
    have hout : outer (.call f 0 :: stack) = .call f 0 :: stack := rfl
    have hi : inner (.call f 0 :: stack) = [] := rfl
    simp only [tokens, List.cons_append, List.nil_append]
    rw [convert, if_neg hp, convert, hout, hi]
    simp [pending, early, commas, emitted]
  | call f a ih =>
    intro position stack rest hp hr hs
    -- The commas are counted in the call on the stack, not in the phrase.
    have ha := @ih .opened (.call f 0 :: stack) (.rparen :: rest)
      (by decide) ⟨f, 0, stack, rfl⟩ (stops_rparen _ _)
    simp only [tokens, List.cons_append, List.append_assoc, List.nil_append]
    rw [convert, if_neg hp, ha, addCommas, convert_rparen_call]
    simp only [pending, early, commas, addCommas_zero, Nat.zero_add, itemCount_args,
      ← a.early_append_pending, List.nil_append]
    cases convert .value stack rest <;> simp [Except.map]
  | ofAtom a ih =>
    intro position stack rest hp hr hs
    rw [tokens, ih hp trivial hs, early_atom, pending_atom, a.commas_eq_zero (by decide)]
    rfl
  | pow a u iha ihu =>
    intro position stack rest hp hr hs
    simp only [tokens, List.cons_append, List.append_assoc]
    rw [iha hp trivial (stops_pow _), pending_atom, a.commas_eq_zero (by decide), addCommas_zero,
      List.nil_append, convert_pow, ihu (by decide) trivial hs, u.commas_eq_zero (by decide),
      map_append_map, early_atom]
    simp [pending, early, commas]
  | ofPower p ih =>
    intro position stack rest hp hr hs
    rw [tokens, ih hp trivial hs, p.commas_eq_zero (by decide)]
    rfl
  | plus u ih =>
    intro position stack rest hp hr hs
    rw [tokens, List.cons_append, convert, if_neg hp, if_pos rfl, ih (by decide) trivial hs,
      u.commas_eq_zero (by decide)]
    rfl
  | minus u ih =>
    intro position stack rest hp hr hs
    rw [tokens, List.cons_append, convert, if_neg hp, if_neg (by decide), if_pos rfl,
      ih (by decide) trivial hs, u.commas_eq_zero (by decide)]
    simp [pending, early, commas]
  | @first k x ih =>
    intro position stack rest hp hr hs
    rw [tokens, ih hp hr.first hs, x.commas_eq_zero k.item_ne_args]
    rfl
  | @next k xs s h x ihxs ihx =>
    intro position stack rest hp hr hs
    -- The separator lets go the right edge of `xs`, so that the traversal of `xs` is complete.
    have hr' := hr.addCommas xs
    simp only [tokens, List.cons_append, List.append_assoc]
    rw [ihxs hp hr (Series.separator_stops h _).atom, convert_separator xs h hr',
      ihx (by decide) (hr'.next h) hs, x.commas_eq_zero k.item_ne_args, addCommas_zero,
      map_append_map, map_append_map, addCommas_addCommas, early_append_pending]
    simp [pending, early, commas]

end Derivation

/-! ## What is accepted begins with a phrase -/

/-- Behind a value no parenthesis is opened. -/
theorem stops_atom_of_ok {stack : List Pending} {rest out : List Token}
    (h : convert .value stack rest = .ok out) : Stops .atom rest := by
  cases rest with
  | nil => exact stops_nil _
  | cons s rest =>
    rw [stops_cons]
    intro hs
    rw [List.mem_singleton.mp hs, convert] at h
    cases h

/-- Behind a parenthesis that is not closed at once an operand is read as anywhere else. -/
theorem convert_opened {stack : List Pending} {tokens : List Token}
    (h : ∀ rest, tokens ≠ .rparen :: rest) :
    convert .opened stack tokens = convert .operand stack tokens := by
  match tokens with
  | [] => rfl
  | .num v :: rest | .lparen :: rest | .comma :: rest | .neg :: rest | .call f n :: rest
  | .op o :: rest | [.name s] => simp [convert]
  | .name s :: t :: rest => cases t <;> simp [convert]
  | .rparen :: rest => exact absurd rfl (h rest)

/-- Behind a complete sum stands its end, a comma or a closing parenthesis. -/
theorem after_sum {stack : List Pending} {rest out : List Token}
    (h : convert .value stack rest = .ok out) (hs : Stops (.series .sum) rest) :
    rest = [] ∨ (∃ rest', rest = .comma :: rest') ∨ ∃ rest', rest = .rparen :: rest' := by
  match rest, h with
  | [], _ => exact .inl rfl
  | .comma :: rest', _ => exact .inr (.inl ⟨rest', rfl⟩)
  | .rparen :: rest', _ => exact .inr (.inr ⟨rest', rfl⟩)
  | .lparen :: _, _ => exact absurd hs (not_stops_lparen _ _)
  | .op o :: _, _ => exact absurd (stops_cons.mp hs) (by cases o <;> simp [Level.continuations])
  | .num v :: _, h | .neg :: _, h | .call _ _ :: _, h | [.name _], h => simp [convert, fail] at h
  | .name _ :: t :: _, h => cases t <;> simp [convert, fail] at h

/-- Behind a sum in parentheses they are closed. -/
theorem Derivation.group_closes (e : Derivation (.series .sum)) {below : List Pending}
    {rest out : List Token} (h : convert .value (e.pending ++ .group :: below) rest = .ok out)
    (hs : Stops (.series .sum) rest) :
    ∃ rest' out', rest = .rparen :: rest' ∧ convert .value below rest' = .ok out' := by
  obtain ⟨-, hout⟩ := e.inner_pending (p := .group) Bool.false_ne_true below
  rcases after_sum h hs with rfl | ⟨rest', rfl⟩ | ⟨rest', rfl⟩
  · rw [convert, hout] at h
    cases h
  · rw [convert, hout] at h
    cases h
  · rw [e.convert_rparen_group] at h
    obtain ⟨out', h', -⟩ := exists_of_map h
    exact ⟨rest', out', rfl, h'⟩

/-- Behind the arguments of a call its parenthesis is closed. -/
theorem Derivation.call_closes (a : Derivation (.series .args)) {f : String} {n : Nat}
    {below : List Pending} {rest out : List Token}
    (h : convert .value (a.pending ++ .call f n :: below) rest = .ok out)
    (hs : Stops (.series .args) rest) :
    ∃ rest' out', rest = .rparen :: rest' ∧ convert .value below rest' = .ok out' := by
  obtain ⟨-, hout⟩ := a.inner_pending (p := .call f n) Bool.false_ne_true below
  rcases after_sum h hs.item with rfl | ⟨rest', rfl⟩ | ⟨rest', rfl⟩
  · rw [convert, hout] at h
    cases h
  · exact absurd (stops_cons.mp hs) (by simp [Level.continuations])
  · rw [a.convert_rparen_call] at h
    obtain ⟨out', h', -⟩ := exists_of_map h
    exact ⟨rest', out', rfl, h'⟩

/-- Where an operand is asked for, accepted tokens up to a length begin with a phrase of the
level. -/
def Finds (l : Level) (n : Nat) : Prop :=
  ∀ ⦃stack : List Pending⦄ ⦃tokens out : List Token⦄, tokens.length ≤ n →
    Derivation.Ready l stack → convert .operand stack tokens = .ok out →
    ∃ (t : Derivation l) (rest : List Token), tokens = t.tokens ++ rest ∧ Stops l rest

theorem Stops.series {k : Series} {rest : List Token} (h : Stops k.item rest)
    (hsep : ∀ s ∈ rest.head?, s ∉ k.separators) : Stops (.series k) rest := by
  intro s hs hc
  have hi := h s hs
  have hk := hsep s hs
  cases k <;> simp_all [Series.item, Series.separators, Level.continuations]

/-- After the first item, items are found as long as there are separators. -/
theorem Finds.more {k : Series} {n : Nat} (hn : Finds k.item n) {stack : List Pending}
    (hr : Derivation.Ready (.series k) stack) (xs : Derivation (.series k))
    {rest out : List Token} (hlen : rest.length ≤ n) (hs : Stops k.item rest)
    (h : convert .operand stack (xs.tokens ++ rest) = .ok out) :
    ∃ (ys : Derivation (.series k)) (rest' : List Token),
      xs.tokens ++ rest = ys.tokens ++ rest' ∧ Stops (.series k) rest' := by
  -- Every round reads a separator, so what remains gets shorter.
  induction hm : rest.length using Nat.strongRecOn generalizing xs rest with
  | ind m ih =>
    cases rest with
    | nil => exact ⟨xs, [], rfl, stops_nil _⟩
    | cons s rest =>
      by_cases hsep : s ∈ k.separators
      · have hr' := hr.addCommas xs
        have hread := h
        rw [xs.convert_tokens (by decide) hr hs.atom, xs.convert_separator hsep hr'] at hread
        obtain ⟨out₁, h₁, -⟩ := exists_of_map hread
        obtain ⟨out₂, h₂, -⟩ := exists_of_map h₁
        rw [List.length_cons] at hlen hm
        obtain ⟨x, rest', rfl, hx⟩ := hn (Nat.le_of_succ_le hlen) (hr'.next hsep) h₂
        rw [List.length_append] at hlen hm
        have hassoc : xs.tokens ++ s :: (x.tokens ++ rest') =
            (xs.next s hsep x).tokens ++ rest' := by
          simp [Derivation.tokens]
        rw [hassoc] at h ⊢
        exact ih rest'.length (by omega) (xs.next s hsep x) (by omega) hx h rfl
      · exact ⟨xs, s :: rest, rfl, hs.series (by rintro t ⟨⟩; exact hsep)⟩

theorem Finds.ofItem {k : Series} {n : Nat} (hn : Finds k.item n) : Finds (.series k) n := by
  intro stack tokens out hlen hr h
  obtain ⟨x, rest, rfl, hs⟩ := hn hlen hr.first h
  have hlen' : rest.length ≤ n := by
    rw [List.length_append] at hlen
    omega
  exact hn.more hr (.first x) hlen' hs h

theorem Finds.series {n : Nat} (hn : Finds .signed n) : ∀ k, Finds (.series k) n
  | .product => .ofItem hn
  | .sum => .ofItem (k := .sum) (.ofItem (k := .product) hn)
  | .args => .ofItem (k := .args) (.ofItem (k := .sum) (.ofItem (k := .product) hn))

/-- Behind an atom, the power and its exponent are found. -/
theorem Finds.after_atom {n : Nat} (hn : Finds .signed n) (a : Derivation .atom)
    {stack : List Pending} {rest out : List Token} (hlen : rest.length ≤ n + 1)
    (h : convert .value stack rest = .ok out) :
    ∃ (u : Derivation .signed) (rest' : List Token),
      a.tokens ++ rest = u.tokens ++ rest' ∧ Stops .signed rest' := by
  by_cases hpow : ∃ rest', rest = .op .pow :: rest'
  · obtain ⟨rest', rfl⟩ := hpow
    rw [Derivation.convert_pow] at h
    obtain ⟨u, rest'', rfl, hu⟩ := hn (Nat.le_of_succ_le_succ hlen) trivial h
    exact ⟨.ofPower (.pow a u), rest'', by simp [Derivation.tokens], hu⟩
  · refine ⟨.ofPower (.ofAtom a), rest, rfl, fun s hs hc => ?_⟩
    rcases List.mem_cons.mp hc with rfl | hc
    · exact stops_atom_of_ok h _ hs (by simp [Level.continuations])
    · obtain rfl := List.mem_singleton.mp hc
      obtain ⟨rest', rfl⟩ := List.head?_eq_some_iff.mp hs
      exact hpow ⟨rest', rfl⟩

theorem Finds.call {n : Nat} (hn : Finds .signed n) (f : String) {stack : List Pending}
    {rest out : List Token} (hlen : rest.length ≤ n)
    (h : convert .opened (.call f 0 :: stack) rest = .ok out) :
    ∃ (u : Derivation .signed) (rest' : List Token),
      .name f :: .lparen :: rest = u.tokens ++ rest' ∧ Stops .signed rest' := by
  by_cases hclose : ∃ rest', rest = .rparen :: rest'
  · obtain ⟨rest', rfl⟩ := hclose
    have hread := h
    rw [convert] at hread
    obtain ⟨out', h', -⟩ := exists_of_map hread
    exact hn.after_atom (.emptyCall f) (Nat.le_of_succ_le (Nat.le_succ_of_le hlen)) h'
  · rw [convert_opened (fun rest' hrest => hclose ⟨rest', hrest⟩)] at h
    have hr : Derivation.Ready (.series .args) (.call f 0 :: stack) := ⟨f, 0, stack, rfl⟩
    obtain ⟨a, rest', rfl, ha⟩ := hn.series .args hlen hr h
    rw [a.convert_tokens (by decide) hr ha.atom] at h
    obtain ⟨out₁, h₁, -⟩ := exists_of_map h
    obtain ⟨rest'', out₂, rfl, h₂⟩ := a.call_closes h₁ ha
    rw [List.length_append, List.length_cons] at hlen
    obtain ⟨u, left, hu, hs⟩ := hn.after_atom (.call f a) (by omega) h₂
    exact ⟨u, left, by simpa [Derivation.tokens] using hu, hs⟩

theorem Finds.group {n : Nat} (hn : Finds .signed n) {stack : List Pending}
    {rest out : List Token} (hlen : rest.length ≤ n)
    (h : convert .opened (.group :: stack) rest = .ok out) :
    ∃ (u : Derivation .signed) (rest' : List Token),
      .lparen :: rest = u.tokens ++ rest' ∧ Stops .signed rest' := by
  by_cases hclose : ∃ rest', rest = .rparen :: rest'
  · obtain ⟨rest', rfl⟩ := hclose
    rw [convert] at h
    cases h
  · rw [convert_opened (fun rest' hrest => hclose ⟨rest', hrest⟩)] at h
    have hr := Derivation.ready_sum (p := .group) rfl stack
    obtain ⟨e, rest', rfl, he⟩ := hn.series .sum hlen hr h
    rw [e.convert_tokens (by decide) hr he.atom, e.commas_eq_zero (by decide)] at h
    obtain ⟨out₁, h₁, -⟩ := exists_of_map h
    obtain ⟨rest'', out₂, rfl, h₂⟩ := e.group_closes h₁ he
    rw [List.length_append, List.length_cons] at hlen
    obtain ⟨u, left, hu, hs⟩ := hn.after_atom (.group e) (by omega) h₂
    exact ⟨u, left, by simpa [Derivation.tokens] using hu, hs⟩

theorem Finds.name {n : Nat} (hn : Finds .signed n) (s : String) {stack : List Pending}
    {rest out : List Token} (hlen : rest.length ≤ n)
    (h : convert .operand stack (.name s :: rest) = .ok out) :
    ∃ (u : Derivation .signed) (rest' : List Token),
      .name s :: rest = u.tokens ++ rest' ∧ Stops .signed rest' := by
  by_cases hcall : ∃ rest', rest = .lparen :: rest'
  · obtain ⟨rest', rfl⟩ := hcall
    rw [convert, if_neg (by decide)] at h
    exact hn.call s (Nat.le_of_succ_le hlen) h
  · rw [convert, if_neg (by decide)] at h
    · obtain ⟨out', h', -⟩ := exists_of_map h
      exact hn.after_atom (.name s) (Nat.le_succ_of_le hlen) h'
    · exact fun rest' hrest => hcall ⟨rest', hrest⟩

theorem Finds.sign {n : Nat} (hn : Finds .signed n) (o : BinOp) {stack : List Pending}
    {rest out : List Token} (hlen : rest.length ≤ n)
    (h : convert .operand stack (.op o :: rest) = .ok out) :
    ∃ (u : Derivation .signed) (rest' : List Token),
      .op o :: rest = u.tokens ++ rest' ∧ Stops .signed rest' := by
  rw [convert, if_neg (by decide)] at h
  split at h
  · subst o
    obtain ⟨u, rest', rfl, hs⟩ := hn hlen trivial h
    exact ⟨.plus u, rest', rfl, hs⟩
  · split at h
    · subst o
      obtain ⟨u, rest', rfl, hs⟩ := hn hlen trivial h
      exact ⟨.minus u, rest', rfl, hs⟩
    · cases h

theorem Finds.succ {n : Nat} (hn : Finds .signed n) : Finds .signed (n + 1) := by
  intro stack tokens out hlen _ h
  match tokens, h with
  | [], h | .comma :: _, h | .neg :: _, h | .call _ _ :: _, h => simp [convert, fail] at h
  | .rparen :: _, h =>
    rw [convert] at h
    split at h <;> simp [fail] at h
  | .num v :: rest, h =>
    rw [convert, if_neg (by decide)] at h
    obtain ⟨out', h', -⟩ := exists_of_map h
    exact hn.after_atom (.num v) (Nat.le_of_succ_le hlen) h'
  | .lparen :: rest, h =>
    rw [convert, if_neg (by decide)] at h
    exact hn.group (Nat.le_of_succ_le_succ hlen) h
  | .name s :: rest, h => exact hn.name s (Nat.le_of_succ_le_succ hlen) h
  | .op o :: rest, h => exact hn.sign o (Nat.le_of_succ_le_succ hlen) h

/-- **Whatever is accepted begins with a phrase.** -/
theorem finds : ∀ n, Finds .signed n
  | 0 => fun stack tokens out hlen _ h => by
    rw [List.length_eq_zero_iff.mp (Nat.le_zero.mp hlen)] at h
    cases h
  | n + 1 => (finds n).succ

/-! ## The conversion and the grammar -/

theorem ready_nil : Derivation.Ready (.series .sum) [] := by
  rintro p ⟨⟩

/-- Every sentence is accepted, with its postfix traversal. -/
theorem ofTokens_tokens (t : Derivation (.series .sum)) :
    Postfix.ofTokens t.tokens = .ok t.postorder := by
  have h := t.convert_tokens (by decide : Position.operand ≠ .value) ready_nil (stops_nil _)
  obtain ⟨hi, hout⟩ := t.inner_pending_nil
  rw [List.append_nil, t.commas_eq_zero (by decide), Derivation.addCommas_zero, List.append_nil,
    convert, hout] at h
  rw [Postfix.ofTokens, h, ← t.early_append_pending]
  rfl

/-- Whatever is accepted is a sentence. -/
theorem exists_derivation {tokens out : List Token} (h : Postfix.ofTokens tokens = .ok out) :
    ∃ t : Derivation (.series .sum), t.tokens = tokens := by
  obtain ⟨t, rest, rfl, hs⟩ := (finds tokens.length).series .sum (Nat.le_refl _) ready_nil h
  obtain ⟨-, hout⟩ := t.inner_pending_nil
  rw [Postfix.ofTokens, t.convert_tokens (by decide) ready_nil hs.atom,
    t.commas_eq_zero (by decide), Derivation.addCommas_zero, List.append_nil] at h
  obtain ⟨out', h', -⟩ := exists_of_map h
  rcases after_sum h' hs with rfl | ⟨rest', rfl⟩ | ⟨rest', rfl⟩
  · exact ⟨t, (List.append_nil _).symm⟩
  · rw [convert, hout] at h'
    cases h'
  · rw [convert, hout] at h'
    cases h'

theorem ofTokens_eq_ok_iff {tokens out : List Token} :
    Postfix.ofTokens tokens = .ok out ↔
      ∃ t : Derivation (.series .sum), t.tokens = tokens ∧ t.postorder = out := by
  constructor
  · intro h
    obtain ⟨t, rfl⟩ := exists_derivation h
    exact ⟨t, rfl, Except.ok.inj ((ofTokens_tokens t).symm.trans h)⟩
  · rintro ⟨t, rfl, rfl⟩
    exact ofTokens_tokens t

/-- A token of postfix form only. -/
def Internal : Token → Prop
  | .neg | .call .. => True
  | _ => False

theorem Derivation.not_internal {l : Level} (t : Derivation l) :
    ∀ s ∈ t.tokens, ¬ Internal s := by
  induction t with
  | num | name | emptyCall => simp [tokens, Internal]
  | group e ih | call f e ih | plus e ih | minus e ih =>
    simpa [tokens, Internal, or_imp, forall_and] using ih
  | ofAtom a ih => exact ih
  | ofPower p ih => exact ih
  | first x ih => exact ih
  | pow a u iha ihu =>
    simp only [tokens, List.forall_mem_append, List.forall_mem_cons]
    exact ⟨iha, id, ihu⟩
  | next xs s h x ihxs ihx =>
    simp only [tokens, List.forall_mem_append, List.forall_mem_cons]
    refine ⟨ihxs, ?_, ihx⟩
    rcases Series.separator_cases h with ⟨-, rfl⟩ | ⟨-, o, rfl, -, -⟩ <;> exact id

/-- **The conversion accepts exactly the sentences of the grammar.**  Tokens are accepted when
they have a derivation, and what comes out is its postfix traversal; they have no other derivation;
and tokens of postfix form are refused wherever they stand. -/
theorem conversion_exact (tokens : List Token) :
    (∀ out, Postfix.ofTokens tokens = .ok out ↔
      ∃ t : Derivation (.series .sum), t.tokens = tokens ∧ t.postorder = out) ∧
    (∀ t t' : Derivation (.series .sum), t.tokens = tokens → t'.tokens = tokens → t = t') ∧
    ((∃ s ∈ tokens, Internal s) → ∃ e, Postfix.ofTokens tokens = .error e) := by
  refine ⟨fun out => ofTokens_eq_ok_iff, fun t t' h h' => ?_, fun ⟨s, hs, hint⟩ => ?_⟩
  · exact Derivation.tokens_injective (h.trans h'.symm)
  · cases h : Postfix.ofTokens tokens with
    | error e => exact ⟨e, rfl⟩
    | ok out =>
      obtain ⟨t, rfl⟩ := exists_derivation h
      exact absurd hint (t.not_internal s hs)

/-- `-f(2, 3) ** -+e` -/
example :
    Postfix.ofTokens [.op .sub, .name "f", .lparen, .num (.int 2), .comma, .num (.int 3), .rparen,
        .op .pow, .op .sub, .op .add, .name "e"] =
      .ok [.num (.int 2), .num (.int 3), .call "f" 2, .name "e", .neg, .op .pow, .neg] := by
  rfl

end SciCalc.Grammar
