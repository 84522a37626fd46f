import SciCalc.Token

/-! # Trimmed text

`Text.trim` drops white space from the front, and from the back by reversing the text.  What it
gives is told by a decomposition: the text is the trimmed text between two runs of white space,
and the trimmed text has no white space at its ends (`trim_eq_iff`).
-/
namespace SciCalc.Text
variable {s core left right : List Char}

/-- All characters are white space. -/
def Blank (s : List Char) : Prop :=
  ∀ c ∈ s, isBlank c

/-- There is no white space at either end. -/
structure Trimmed (s : List Char) : Prop where
  head : ∀ c ∈ s.head?, ¬ isBlank c
  last : ∀ c ∈ s.getLast?, ¬ isBlank c

theorem trimmed_of_forall (h : ∀ c ∈ s, ¬ isBlank c) : Trimmed s :=
  ⟨fun c hc => h c (List.mem_of_mem_head? hc), fun c hc => h c (List.mem_of_getLast? hc)⟩

theorem trimLeft_append (hl : Blank left) (s : List Char) :
    trimLeft (left ++ s) = trimLeft s :=
  List.dropWhile_append_of_pos hl

theorem trimLeft_of_head (h : ∀ c ∈ s.head?, ¬ isBlank c) : trimLeft s = s := by
  cases s with
  | nil => rfl
  | cons c s => exact List.dropWhile_cons_of_neg (h c rfl)

theorem head_trimLeft (s : List Char) : ∀ c ∈ (trimLeft s).head?, ¬ isBlank c := by
  intro c hc
  have := List.head?_dropWhile_not isBlank s
  rw [trimLeft, Option.mem_def] at hc
  rw [hc] at this
  simpa using this

theorem exists_trimLeft (s : List Char) : ∃ left, Blank left ∧ s = left ++ trimLeft s :=
  ⟨s.takeWhile isBlank, fun _ hc => List.all_eq_true.mp List.all_takeWhile _ hc,
    List.takeWhile_append_dropWhile.symm⟩

theorem blank_reverse (hs : Blank s) : Blank s.reverse :=
  fun c hc => hs c (List.mem_reverse.mp hc)

theorem trim_append (hl : Blank left) (hr : Blank right) (hc : Trimmed core) :
    trim (left ++ core ++ right) = core := by
  rw [trim, List.append_assoc, trimLeft_append hl]
  cases core with
  | nil =>
    have hright := trimLeft_append hr []
    rw [List.append_nil] at hright
    rw [List.nil_append, hright]
    rfl
  | cons c core =>
    have hfront : trimLeft (c :: core ++ right) = c :: core ++ right :=
      trimLeft_of_head fun d hd => hc.head d hd
    have hback : trimLeft (c :: core).reverse = (c :: core).reverse :=
      trimLeft_of_head fun d hd => hc.last d (List.head?_reverse ▸ hd)
    rw [hfront, List.reverse_append, trimLeft_append (blank_reverse hr), hback,
      List.reverse_reverse]

/-- **Trimming.**  A text trims to what stands between two runs of white space, if that has no
white space at its ends. -/
theorem trim_eq_iff : trim s = core ↔
    Trimmed core ∧ ∃ left right, Blank left ∧ Blank right ∧ s = left ++ core ++ right := by
  constructor
  · rintro rfl
    obtain ⟨left, hl, hs⟩ := exists_trimLeft s
    obtain ⟨right, hr, hs'⟩ := exists_trimLeft (trimLeft s).reverse
    have hback : trimLeft s = trim s ++ right.reverse := by
      rw [trim, ← List.reverse_append, ← hs', List.reverse_reverse]
    refine ⟨⟨fun c hc => ?_, fun c hc => ?_⟩, left, right.reverse, hl, blank_reverse hr, ?_⟩
    · refine head_trimLeft s c ?_
      rw [hback, List.head?_append, Option.mem_def.mp hc]
      rfl
    · rw [trim, List.getLast?_reverse] at hc
      exact head_trimLeft _ c hc
    · rw [List.append_assoc, ← hback, ← hs]
  · rintro ⟨hcore, left, right, hl, hr, rfl⟩
    exact trim_append hl hr hcore

theorem trim_of_blank (h : Blank s) : trim s = [] :=
  trim_eq_iff.mpr ⟨trimmed_of_forall nofun, s, [], h, nofun, by simp⟩

theorem infix_trimLeft (hne : core ≠ []) (hhead : ∀ c ∈ core.head?, ¬ isBlank c)
    (h : core <:+: s) : core <:+: trimLeft s := by
  obtain ⟨before, after, rfl⟩ := h
  obtain ⟨c, more, rfl⟩ := List.exists_cons_of_ne_nil hne
  have hstart : (c :: more ++ after).dropWhile isBlank = c :: more ++ after :=
    trimLeft_of_head fun d hd => hhead d hd
  have hinfix : c :: more <:+: c :: more ++ after := (List.prefix_append _ _).isInfix
  rw [trimLeft, List.append_assoc, List.dropWhile_append, hstart]
  split
  · exact hinfix
  · exact hinfix.trans (List.suffix_append _ _).isInfix

/-- Trimming leaves a part of the text as it is that has no white space at its ends. -/
theorem infix_trim (hne : core ≠ []) (hcore : Trimmed core) (h : core <:+: s) :
    core <:+: trim s := by
  rw [← List.reverse_infix, trim, List.reverse_reverse]
  refine infix_trimLeft (List.reverse_ne_nil_iff.mpr hne) (fun c hc => ?_)
    (List.reverse_infix.mpr (infix_trimLeft hne hcore.head h))
  rw [List.head?_reverse] at hc
  exact hcore.last c hc

end SciCalc.Text
