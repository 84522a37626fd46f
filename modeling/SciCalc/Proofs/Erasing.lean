import SciCalc.Proofs.WindowRun

/-! # Erasing keys

The key `⌫` sees the text on the display, not the keys that made it.  Yet it takes away the text of
one key, and of the last one: on a display that only keys have written, the texts of the keys that
are not yet erased always stand one behind the other (`display_presses`).  On a display with any
text at all, it still takes away what a key has just inserted, except for an opening parenthesis
behind a name, and it never takes away more than one key can insert (`eraseLast_any_display`).

A text ends with one text at most that is erased as a whole (`eq_of_isSuffix`).  A single character
is erased alone if what stands in front of it ends with no such text without its last character, the
*stem*.  No text that keys have written ends with a stem: the names come with their parenthesis, and
the digits of `log10` would have to follow a name without one.
-/
namespace SciCalc

/-! ## Texts that are erased as a whole -/

section EraseLastKey
variable {s : List Char} {p q t : String} {c : Char}

theorem eq_of_isSuffix (hp : p ∈ erasedWhole) (hq : q ∈ erasedWhole) (hps : p.toList <:+ s)
    (hqs : q.toList <:+ s) : p = q := by
  have hfree : ∀ p ∈ erasedWhole, ∀ q ∈ erasedWhole, p.toList <:+ q.toList → p = q := by decide
  rcases List.suffix_or_suffix_of_suffix hps hqs with h | h
  · exact hfree p hp q hq h
  · exact (hfree q hq p hp h).symm

/-- Where none of the texts is at the end, the last character is erased. -/
theorem eraseLastKey_of_forall (h : ∀ t ∈ erasedWhole, ¬ t.toList <:+ s) :
    eraseLastKey s = s.dropLast := by
  have hnone : (erasedWhole.find? fun t => t.toList.isSuffixOf s) = none :=
    List.find?_eq_none.mpr fun t ht hfound => h t ht (List.isSuffixOf_iff_suffix.mp hfound)
  rw [eraseLastKey, hnone]

/-- A text that is erased as a whole goes as a whole, whatever stands in front of it. -/
theorem eraseLastKey_append (s : List Char) (ht : t ∈ erasedWhole) :
    eraseLastKey (s ++ t.toList) = s := by
  have hfound : (erasedWhole.find? fun p => p.toList.isSuffixOf (s ++ t.toList)) = some t := by
    cases h : erasedWhole.find? fun p => p.toList.isSuffixOf (s ++ t.toList) with
    | none =>
      have hnone := List.find?_eq_none.mp h t ht
      exact absurd (List.isSuffixOf_iff_suffix.mpr (List.suffix_append s t.toList)) hnone
    | some p =>
      have hp : p.toList <:+ s ++ t.toList := by simpa using List.find?_some h
      rw [eq_of_isSuffix (List.mem_of_find?_eq_some h) ht hp (List.suffix_append s t.toList)]
  rw [eraseLastKey, hfound]
  simp

/-- A character is erased alone if it completes none of the texts. -/
theorem eraseLastKey_concat_of_last
    (h : ∀ t ∈ erasedWhole, t.toList.getLast? = some c → ¬ t.toList.dropLast <:+ s) :
    eraseLastKey (s ++ [c]) = s := by
  have hnone : ∀ t ∈ erasedWhole, ¬ t.toList <:+ s ++ [c] := by
    intro t ht hsuffix
    have hne : ∀ t ∈ erasedWhole, t.toList ≠ [] := by decide
    rcases List.suffix_concat_iff.mp hsuffix with hnil | ⟨r, hr, hrs⟩
    · exact hne t ht hnil
    · refine h t ht (by rw [hr, List.getLast?_concat]) ?_
      rwa [hr, List.dropLast_concat]
  rw [eraseLastKey_of_forall hnone, List.dropLast_concat]

/-- The texts that are erased as a whole, without their last character; and `log10` without its
last digit, so that a stem without a digit at its end is a stem. -/
def stems : List (List Char) :=
  "log1".toList :: erasedWhole.map fun t => t.toList.dropLast

/-- No stem is at the end. -/
def Stemless (s : List Char) : Prop :=
  ∀ r ∈ stems, ¬ r <:+ s

/-- Behind no stem, a character is erased alone. -/
theorem Stemless.eraseLastKey_concat (hs : Stemless s) : eraseLastKey (s ++ [c]) = s :=
  eraseLastKey_concat_of_last fun _ ht _ =>
    hs _ (List.mem_cons_of_mem _ (List.mem_map_of_mem ht))

end EraseLastKey

/-! ## Texts that keys write -/

namespace Keypad

/-- The keys that insert a text: all but three. -/
def insertionKeys : List String :=
  labels.filter fun label => label ∉ ["C", "⌫", "="]

/-- The text that a key inserts. -/
def inserted (label : String) : String :=
  match action label with
  | .insert text => text
  | _ => ""

theorem action_of_mem_insertionKeys {label : String} (h : label ∈ insertionKeys) :
    label ∈ labels ∧ action label = .insert (inserted label) := by
  have hall : ∀ label ∈ insertionKeys,
      label ∈ labels ∧ action label = .insert (inserted label) := by decide
  exact hall label h

/-- A key that inserts a text is none of the three. -/
theorem mem_insertionKeys_of_action {label text : String} (h : label ∈ labels)
    (haction : action label = .insert text) : label ∈ insertionKeys := by
  refine List.mem_filter.mpr ⟨h, decide_eq_true fun hother => ?_⟩
  have hothers : ∀ label ∈ ["C", "⌫", "="], ∀ text, action label ≠ .insert text := by
    simp [action]
  exact hothers label hother text haction

end Keypad

section KeyTexts
open Keypad
variable {s : List Char} {label : String}

theorem stemless_nil : Stemless [] := by
  have hne : ∀ r ∈ stems, r ≠ [] := by decide
  exact fun r hr h => hne r hr (List.suffix_nil.mp h)

/-- A key completes no stem: what it would complete is a stem itself. -/
theorem Stemless.append_inserted (hs : Stemless s) (h : label ∈ insertionKeys) :
    Stemless (s ++ (inserted label).toList) := by
  have hclosed : ∀ label ∈ insertionKeys, ∀ r ∈ stems, ¬ r <:+ (inserted label).toList ∧
      ((inserted label).toList <:+ r →
        r.take (r.length - (inserted label).toList.length) ∈ stems) := by
    decide
  intro r hr hsuffix
  obtain ⟨hinside, hcut⟩ := hclosed label h r hr
  rcases List.suffix_or_suffix_of_suffix hsuffix (List.suffix_append s _) with h' | h'
  · exact hinside h'
  · have hstem := hcut h'
    obtain ⟨front, rfl⟩ := h'
    rw [List.length_append, Nat.add_sub_cancel, List.take_left] at hstem
    exact hs front hstem (List.suffix_append_self_iff.mp hsuffix)

/-- Behind no stem, erasing takes away what one key has inserted. -/
theorem Stemless.eraseLastKey_append_inserted (hs : Stemless s) (h : label ∈ insertionKeys) :
    eraseLastKey (s ++ (inserted label).toList) = s := by
  have hkinds : ∀ label ∈ insertionKeys,
      inserted label ∈ erasedWhole ∨ (inserted label).toList.length = 1 := by decide
  rcases hkinds label h with hwhole | hone
  · exact eraseLastKey_append s hwhole
  · obtain ⟨c, hc⟩ := List.length_eq_one_iff.mp hone
    rw [hc, hs.eraseLastKey_concat]

/-- The texts of keys, one behind the other. -/
def written (keys : List String) : String :=
  String.join (keys.map inserted)

theorem toList_written_concat (keys : List String) (label : String) :
    (written (keys ++ [label])).toList = (written keys).toList ++ (inserted label).toList := by
  simp [written]

theorem stemless_written {keys : List String} (h : ∀ label ∈ keys, label ∈ insertionKeys) :
    Stemless (written keys).toList := by
  induction keys using List.reverseRecOn with
  | nil => exact stemless_nil
  | append_singleton keys label ih =>
    obtain ⟨hkeys, hlabel⟩ := List.forall_mem_append.mp h
    rw [toList_written_concat]
    exact (ih hkeys).append_inserted (hlabel label List.mem_cons_self)

/-- Erasing what keys have written takes away the last key, if there is one. -/
theorem eraseLastKey_written {keys : List String} (h : ∀ label ∈ keys, label ∈ insertionKeys) :
    eraseLastKey (written keys).toList = (written keys.dropLast).toList := by
  cases keys using List.reverseRecOn with
  | nil => rfl
  | append_singleton keys label =>
    obtain ⟨hkeys, hlabel⟩ := List.forall_mem_append.mp h
    rw [toList_written_concat, List.dropLast_concat,
      (stemless_written hkeys).eraseLastKey_append_inserted (hlabel label List.mem_cons_self)]

end KeyTexts

/-! ## Keys that are not yet erased -/

/-- The keys that are left of those pressed: `⌫` takes the last one away, if there is one, and any
other key is added. -/
def keysLeft (presses : List String) : List String :=
  presses.foldl (fun kept label => if label = "⌫" then kept.dropLast else kept ++ [label]) []

theorem keysLeft_concat (presses : List String) (label : String) :
    keysLeft (presses ++ [label]) =
      if label = "⌫" then (keysLeft presses).dropLast else keysLeft presses ++ [label] := by
  rw [keysLeft, List.foldl_append]
  rfl

theorem mem_insertionKeys_of_mem_keysLeft {presses : List String}
    (h : ∀ label ∈ presses, label = "⌫" ∨ label ∈ Keypad.insertionKeys) :
    ∀ label ∈ keysLeft presses, label ∈ Keypad.insertionKeys := by
  induction presses using List.reverseRecOn with
  | nil => exact List.forall_mem_nil _
  | append_singleton presses last ih =>
    obtain ⟨hpresses, hlast⟩ := List.forall_mem_append.mp h
    rw [keysLeft_concat]
    split
    · exact fun label hlabel => ih hpresses label (List.mem_of_mem_dropLast hlabel)
    · rename_i herase
      refine List.forall_mem_append.mpr ⟨ih hpresses, List.forall_mem_singleton.mpr ?_⟩
      exact (hlast last List.mem_cons_self).resolve_left herase

namespace Window
open Keypad

theorem display_press_insertion (w : Window) {label : String} (h : label ∈ insertionKeys) :
    (w.step (.press label)).calculator.display = w.calculator.display ++ inserted label := by
  obtain ⟨hkey, haction⟩ := action_of_mem_insertionKeys h
  rw [step, react, press_of_key hkey, haction]
  rfl

theorem display_press_erase (w : Window) :
    (w.step (.press "⌫")).calculator.display =
      String.ofList (eraseLastKey w.calculator.display.toList) :=
  rfl

/-- **The eraser undoes key by key.**  On a display that was empty, whatever keys are pressed,
except those that clear or evaluate, the texts of the keys that are left stand one behind the
other. -/
theorem display_presses {w : Window} (hempty : w.calculator.display = "") {presses : List String}
    (h : ∀ label ∈ presses, label ∈ labels ∧ label ≠ "C" ∧ label ≠ "=") :
    (w.run (presses.map .press)).calculator.display = written (keysLeft presses) := by
  have hkinds : ∀ label ∈ presses, label = "⌫" ∨ label ∈ insertionKeys := by
    intro label hlabel
    obtain ⟨hkey, hclear, hequals⟩ := h label hlabel
    by_cases herase : label = "⌫"
    · exact .inl herase
    · exact .inr (List.mem_filter.mpr ⟨hkey, by simp [hclear, hequals, herase]⟩)
  clear h
  induction presses using List.reverseRecOn with
  | nil => exact hempty
  | append_singleton presses label ih =>
    obtain ⟨hpresses, hlabel⟩ := List.forall_mem_append.mp hkinds
    rw [List.map_append, List.map_singleton, run_concat, keysLeft_concat]
    rcases hlabel label List.mem_cons_self with rfl | hkey
    · rw [if_pos rfl, display_press_erase, ih hpresses,
        eraseLastKey_written (mem_insertionKeys_of_mem_keysLeft hpresses), String.ofList_toList]
    · have herase : label ≠ "⌫" := by
        rintro rfl
        exact absurd hkey (by decide)
      rw [if_neg herase, display_press_insertion _ hkey, ih hpresses, ← String.toList_inj,
        toList_written_concat, String.toList_append]

/-- Digits behind a logarithm, a parenthesis behind them, and the eraser once too often. -/
theorem display_presses_of_log :
    let presses := ["log", "1", "0", "(", "pi", "⌫", "⌫", "⌫", "⌫", "(", "⌫", "⌫", "⌫", "e"]
    fresh.calculator.display = "" ∧
      (∀ label ∈ presses, label ∈ labels ∧ label ≠ "C" ∧ label ≠ "=") ∧
      (fresh.run (presses.map .press)).calculator.display = "e" := by
  intro presses
  have hempty : fresh.calculator.display = "" := rfl
  have hkeys : ∀ label ∈ presses, label ∈ labels ∧ label ≠ "C" ∧ label ≠ "=" := by decide
  refine ⟨hempty, hkeys, (display_presses hempty hkeys).trans ?_⟩
  decide

end Window

/-! ## Any text on the display -/

/-- The names that are erased together with the parenthesis behind them. -/
def erasedNames : List String :=
  ["log10", "sqrt", "root", "fact", "sin", "cos", "tan", "log", "nPr", "nCr", "exp", "ln"]

section AnyText
open Keypad
variable {s : List Char} {c : Char} {name text : String}

/-- Behind whatever text, erasing takes away what a key has inserted, unless that is an opening
parenthesis. -/
theorem eraseLastKey_append_key {label : String} (h : label ∈ insertionKeys)
    (hopening : inserted label ≠ "(") : eraseLastKey (s ++ (inserted label).toList) = s := by
  have hkinds : ∀ label ∈ insertionKeys, inserted label ≠ "(" → inserted label ∈ erasedWhole ∨
      (inserted label).toList.length = 1 ∧
        ∀ t ∈ erasedWhole, t.toList.getLast? ≠ (inserted label).toList.getLast? := by
    decide
  rcases hkinds label h hopening with hwhole | ⟨hone, hlast⟩
  · exact eraseLastKey_append s hwhole
  · obtain ⟨c, hc⟩ := List.length_eq_one_iff.mp hone
    rw [hc] at hlast ⊢
    exact eraseLastKey_concat_of_last fun t ht hc => absurd hc (hlast t ht)

/-- A name goes with the parenthesis behind it. -/
theorem eraseLastKey_append_name (hname : name ∈ erasedNames) :
    eraseLastKey (s ++ name.toList ++ ['(']) = s := by
  have hwhole : ∀ name ∈ erasedNames, name ++ "(" ∈ erasedWhole := by decide
  have herased := eraseLastKey_append s (hwhole name hname)
  rwa [String.toList_append, ← List.append_assoc] at herased

/-- An opening parenthesis is erased alone just if no name stands in front of it. -/
theorem eraseLastKey_append_opening :
    eraseLastKey (s ++ ['(']) = s ↔ ∀ name ∈ erasedNames, ¬ name.toList <:+ s := by
  constructor
  · rintro hsame name hname ⟨front, rfl⟩
    rw [eraseLastKey_append_name hname] at hsame
    have hne : ∀ name ∈ erasedNames, name.toList ≠ [] := by decide
    exact hne name hname (List.self_eq_append_right.mp hsame)
  · intro hnames
    have hopened : ∀ t ∈ erasedWhole, t.toList.getLast? = some '(' →
        ∃ name ∈ erasedNames, t.toList.dropLast = name.toList := by
      decide
    refine eraseLastKey_concat_of_last fun t ht hlast hsuffix => ?_
    obtain ⟨name, hmem, hname⟩ := hopened t ht hlast
    exact hnames name hmem (hname ▸ hsuffix)

/-- What is erased is one text of those that go as a whole, or else one character. -/
theorem eraseLastKey_cases (hs : s ≠ []) :
    (∃ t ∈ erasedWhole, s = eraseLastKey s ++ t.toList) ∨
      (∀ t ∈ erasedWhole, ¬ t.toList <:+ s) ∧ ∃ c, s = eraseLastKey s ++ [c] := by
  by_cases h : ∃ t ∈ erasedWhole, t.toList <:+ s
  · obtain ⟨t, ht, front, rfl⟩ := h
    exact .inl ⟨t, ht, by rw [eraseLastKey_append front ht]⟩
  · push Not at h
    refine .inr ⟨h, s.getLast hs, ?_⟩
    rw [eraseLastKey_of_forall h, List.dropLast_append_getLast]

theorem length_eraseLastKey_lt (hs : s ≠ []) : (eraseLastKey s).length < s.length := by
  have hne : ∀ t ∈ erasedWhole, t.toList ≠ [] := by decide
  rcases eraseLastKey_cases hs with ⟨t, ht, h⟩ | ⟨-, c, h⟩
  · have hlength := congrArg List.length h
    have hpos := List.length_pos_of_ne_nil (hne t ht)
    rw [List.length_append] at hlength
    omega
  · have hlength := congrArg List.length h
    rw [List.length_append, List.length_singleton] at hlength
    omega

end AnyText

namespace Calculator
variable (c : Calculator)

theorem toList_display_eraseLast :
    c.eraseLast.display.toList = eraseLastKey c.display.toList :=
  String.toList_ofList

theorem display_eraseLast_insert (text : String) :
    (c.insert text).eraseLast.display =
      String.ofList (eraseLastKey (c.display.toList ++ text.toList)) := by
  rw [← String.toList_append]
  rfl

/-- Erasing as often as the display has characters empties it. -/
theorem display_iterate_eraseLast {n : Nat} (h : c.display.length ≤ n) :
    (eraseLast^[n] c).display = "" := by
  induction n generalizing c with
  | zero => exact String.length_eq_zero_iff.mp (Nat.le_zero.mp h)
  | succ n ih =>
    rw [Function.iterate_succ_apply]
    refine ih _ ?_
    rw [← String.length_toList, toList_display_eraseLast]
    rw [← String.length_toList] at h
    by_cases hempty : c.display.toList = []
    · rw [hempty]
      exact Nat.zero_le n
    · have hlt := length_eraseLastKey_lt hempty
      omega

/-- **Erasing on any display.**  Whatever the display shows, erasing takes away what a key has just
inserted, an opening parenthesis excepted: this is taken away alone just if no name that has a key
stands in front of it, and goes together with the name otherwise.  Erasing always leaves a part of
the display from its beginning, less one of the texts that are erased as a whole, of which one at
most is at the end, or less one character if none is.  So repeated erasing empties the display. -/
theorem eraseLast_any_display :
    (∀ label ∈ Keypad.labels, ∀ text, Keypad.action label = .insert text → text ≠ "(" →
      (c.insert text).eraseLast.display = c.display) ∧
    ((c.insert "(").eraseLast.display = c.display ↔
      ∀ name ∈ erasedNames, ¬ name.toList <:+ c.display.toList) ∧
    (∀ name ∈ erasedNames, ∀ front, c.display = front ++ name →
      (c.insert "(").eraseLast.display = front) ∧
    (c.display ≠ "" → ∃ gone, c.display = c.eraseLast.display ++ gone ∧
      (gone ∈ erasedWhole ∨
        gone.length = 1 ∧ ∀ t ∈ erasedWhole, ¬ t.toList <:+ c.display.toList)) ∧
    (∀ t ∈ erasedWhole, ∀ t' ∈ erasedWhole, t.toList <:+ c.display.toList →
      t'.toList <:+ c.display.toList → t = t') ∧
    (eraseLast^[c.display.length] c).display = "" := by
  refine ⟨fun label hlabel text haction hopening => ?_, ?_, fun name hname front hfront => ?_,
    fun hne => ?_, fun t ht t' ht' => eq_of_isSuffix ht ht', c.display_iterate_eraseLast le_rfl⟩
  · have hkey : label ∈ Keypad.insertionKeys := Keypad.mem_insertionKeys_of_action hlabel haction
    obtain rfl : Keypad.inserted label = text := by rw [Keypad.inserted, haction]
    rw [display_eraseLast_insert, eraseLastKey_append_key hkey hopening, String.ofList_toList]
  · rw [display_eraseLast_insert, ← String.toList_inj, String.toList_ofList]
    exact eraseLastKey_append_opening
  · rw [display_eraseLast_insert, hfront, String.toList_append]
    exact (congrArg String.ofList (eraseLastKey_append_name hname)).trans String.ofList_toList
  · have hchars : c.display.toList ≠ [] := fun h => hne (String.toList_eq_nil_iff.mp h)
    rcases eraseLastKey_cases hchars with ⟨t, ht, h⟩ | ⟨hnone, d, h⟩
    · refine ⟨t, ?_, .inl ht⟩
      rw [← String.toList_inj, String.toList_append, toList_display_eraseLast]
      exact h
    · refine ⟨String.singleton d, ?_, .inr ⟨String.length_singleton, hnone⟩⟩
      rw [← String.toList_inj, String.toList_append, toList_display_eraseLast,
        String.toList_singleton]
      exact h

end Calculator
end SciCalc
