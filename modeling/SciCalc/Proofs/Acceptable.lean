import SciCalc.Expr
import SciCalc.Proofs.Conversion

/-! # What is asked of a sentence

A sentence of the grammar has a tree if its names are known, its calls have as many arguments as
the functions take, and it is not too high.  Here these are properties of the derivation, which
knows nothing of the stack that builds the tree.

**The height** counts the operations on top of each other.  A run of operators that groups to the
left is one level, however long it is and whether or not its beginning stands in parentheses
(`Derivation.height_of_items`); parentheses and plus signs are none.
-/
namespace SciCalc.Grammar

/-- A function of the name takes the number of arguments. -/
def Callable (name : String) (count : Nat) : Prop :=
  ∃ f : Builtin, f.name = name ∧ f.argumentRange.1 ≤ count ∧ count ≤ f.argumentRange.2

/-- The names that no opening parenthesis follows directly. -/
def bareNames : List Token → List String
  | .name _ :: .lparen :: rest => bareNames rest
  | .name s :: rest => s :: bareNames rest
  | _ :: rest => bareNames rest
  | [] => []

namespace Derivation
variable {l l' : Level} {k : Series}

/-- The names that stand for constants. -/
def names {l : Level} : Derivation l → List String
  | num _ | emptyCall _ => []
  | name s => [s]
  | group e => e.names
  | call _ a => a.names
  | ofAtom a => a.names
  | pow a u => a.names ++ u.names
  | ofPower p => p.names
  | plus u => u.names
  | minus u => u.names
  | first x => x.names
  | next xs _ _ x => xs.names ++ x.names

/-- The calls, each with the number of its arguments. -/
def calls {l : Level} : Derivation l → List (String × Nat)
  | num _ | name _ => []
  | emptyCall f => [(f, 0)]
  | group e => e.calls
  | call f a => (f, a.itemCount) :: a.calls
  | ofAtom a => a.calls
  | pow a u => a.calls ++ u.calls
  | ofPower p => p.calls
  | plus u => u.calls
  | minus u => u.calls
  | first x => x.calls
  | next xs _ _ x => xs.calls ++ x.calls

/-- Whether a phrase is an operation with two operands other than a power, in parentheses or
not. -/
def isOperation {l : Level} : Derivation l → Bool
  | group e => e.isOperation
  | ofAtom a => a.isOperation
  | ofPower p => p.isOperation
  | plus u => u.isOperation
  | first x => x.isOperation
  | next _ s _ _ => decide (s ≠ .comma)
  | num _ | name _ | emptyCall _ | call _ _ | pow _ _ | minus _ => false

/-- The height of the operations that a phrase is made of; arguments are as high as the highest of
them. -/
def height {l : Level} : Derivation l → Nat
  | num _ | name _ | emptyCall _ => 1
  | group e => e.height
  | call _ a => a.height + 1
  | ofAtom a => a.height
  | pow a u => max a.height u.height + 1
  | ofPower p => p.height
  | plus u => u.height
  | minus u => u.height + 1
  | first x => x.height
  | next xs s _ x =>
    if s = .comma then max xs.height x.height
    else if xs.isOperation then max xs.height (x.height + 1)
    else max xs.height x.height + 1

/-- The items of a series, from left to right. -/
def items : Derivation (.series k) → List (Derivation k.item)
  | first x => [x]
  | next xs _ _ x => xs.items ++ [x]

theorem height_le_next (xs : Derivation (.series k)) {s : Token} (h : s ∈ k.separators)
    (x : Derivation k.item) :
    xs.height ≤ (xs.next s h x).height ∧ x.height ≤ (xs.next s h x).height := by
  rw [height]
  split
  · omega
  · split <;> omega

/-- A run of operators has one level above its items.  What is not an operation yet, the first item
alone, has none. -/
theorem height_of_items (hk : k ≠ .args) {n : Nat} (xs : Derivation (.series k))
    (hn : ∀ x ∈ xs.items, x.height ≤ n) :
    xs.height ≤ n + 1 ∧ (xs.isOperation = false → xs.height ≤ n) := by
  match xs with
  | .first x =>
    have hx : x.height ≤ n := hn x (by simp [items])
    exact ⟨Nat.le_succ_of_le hx, fun _ => hx⟩
  | .next xs s h x =>
    have hs : s ≠ .comma := by
      rintro rfl
      exact Series.comma_not_separator hk h
    have hx : x.height ≤ n := hn x (by simp [items])
    obtain ⟨hrun, hitem⟩ := xs.height_of_items hk fun y hy => hn y (by simp [items, hy])
    refine ⟨?_, fun hop => absurd hop (by simp [isOperation, hs])⟩
    rw [height, if_neg hs]
    split
    · omega
    · have := hitem (by simp_all)
      omega

/-! ## The names -/

theorem bareNames_tokens (t : Derivation l) : ∀ {rest : List Token}, Stops .atom rest →
    bareNames (t.tokens ++ rest) = t.names ++ bareNames rest := by
  induction t with
  | num v => intro rest _; rfl
  | emptyCall f => intro rest _; rfl
  | name s =>
    intro rest hs
    rw [tokens, List.cons_append, List.nil_append, bareNames]
    · rfl
    · rintro r rfl
      exact not_stops_lparen _ _ hs
  | group e ih =>
    intro rest _
    simpa [tokens, names, bareNames] using ih (stops_rparen .atom rest)
  | call f a ih =>
    intro rest _
    simpa [tokens, names, bareNames] using ih (stops_rparen .atom rest)
  | ofAtom a ih => exact ih
  | ofPower p ih => exact ih
  | first x ih => exact ih
  | plus u ih => exact ih
  | minus u ih => exact ih
  | pow a u iha ihu =>
    intro rest hs
    simp only [tokens, names, List.append_assoc, List.cons_append]
    rw [iha (stops_pow _), ← ihu hs]
    rfl
  | next xs s h x ihxs ihx =>
    intro rest hs
    simp only [tokens, names, List.append_assoc, List.cons_append]
    rw [ihxs (Series.separator_stops h _).atom, ← ihx hs]
    rcases Series.separator_cases h with ⟨-, rfl⟩ | ⟨-, o, rfl, -, -⟩ <;> rfl

/-- The names of a sentence are those that no parenthesis follows. -/
theorem bareNames_eq_names (t : Derivation l) : bareNames t.tokens = t.names := by
  simpa [bareNames] using t.bareNames_tokens (stops_nil .atom)

/-! ## All that is asked -/

/-- What is asked of a phrase. -/
structure Acceptable (t : Derivation l) : Prop where
  names : ∀ s ∈ t.names, s = "pi" ∨ s = "e"
  calls : ∀ c ∈ t.calls, Callable c.1 c.2
  height : t.height ≤ 1000

/-- Of a phrase with two parts it is asked of the parts, and that it is not too high itself. -/
theorem acceptable_append {l₁ l₂ : Level} (t : Derivation l) (a : Derivation l₁)
    (b : Derivation l₂) (hn : t.names = a.names ++ b.names) (hc : t.calls = a.calls ++ b.calls)
    (ha : a.height ≤ t.height) (hb : b.height ≤ t.height) :
    t.Acceptable ↔ (a.Acceptable ∧ b.Acceptable) ∧ t.height ≤ 1000 := by
  constructor
  · rintro ⟨names, calls, height⟩
    rw [hn, List.forall_mem_append] at names
    rw [hc, List.forall_mem_append] at calls
    exact ⟨⟨⟨names.1, calls.1, Nat.le_trans ha height⟩,
      ⟨names.2, calls.2, Nat.le_trans hb height⟩⟩, height⟩
  · rintro ⟨⟨⟨namesA, callsA, -⟩, ⟨namesB, callsB, -⟩⟩, height⟩
    refine ⟨?_, ?_, height⟩
    · rw [hn, List.forall_mem_append]
      exact ⟨namesA, namesB⟩
    · rw [hc, List.forall_mem_append]
      exact ⟨callsA, callsB⟩

theorem acceptable_of_eq (t : Derivation l) (a : Derivation l')
    (hn : t.names = a.names) (hc : t.calls = a.calls) (ha : a.height ≤ t.height) :
    t.Acceptable ↔ a.Acceptable ∧ t.height ≤ 1000 := by
  constructor
  · rintro ⟨names, calls, height⟩
    exact ⟨⟨hn ▸ names, hc ▸ calls, Nat.le_trans ha height⟩, height⟩
  · rintro ⟨⟨names, calls, -⟩, height⟩
    exact ⟨hn ▸ names, hc ▸ calls, height⟩

end Derivation
end SciCalc.Grammar
