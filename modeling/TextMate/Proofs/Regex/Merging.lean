import TextMate.Proofs.Pattern.Survey
import TextMate.Proofs.Regex.Spans

/-!
# What a merged alternation admits

If a survey of the alternatives finds a polarity, the alternation is written as one bracket expression. What
the bracket admits depends on the polarity, `bracket_of_survey`:

* a positive bracket admits a character if *one* of the alternatives accepts it,
* a negated bracket admits a character if *all* the classes among the leaves accept it.

An alternation accepts what one of its alternatives accepts, so merging keeps the meaning of positive classes
and narrows that of negated ones: a union of complements becomes the complement of a union.
`overlappingComplements` is an alternation that loses a character in this way.
-/

namespace TextMate

open Regex

namespace Regex

/-! ## Brackets -/

/-- The derivation of a text that is one bracket expression. -/
def Alternation.bracket (polarity : Polarity) (first : Item) (rest : List Item) : Alternation :=
  .single (.cons (.bracket polarity first rest) none .nil)

theorem Atom.eq_bracket_of_shape {a : Atom} {polarity : Polarity} {items : List ClassItem}
    (h : a.shape = .bracket polarity items) :
    ∃ first rest, a = .bracket polarity first rest ∧ (first :: rest).map Item.item = items := by
  cases a with
  | bracket polarity first rest =>
    cases h
    exact ⟨first, rest, rfl, rfl⟩
  | group kind body => cases kind <;> cases h
  | char | any | lineStart | lineEnd => cases h

theorem admits_negated_append (items items' : List ClassItem) (c : Char) :
    Admits .negated (items ++ items') c ↔ Admits .negated items c ∧ Admits .negated items' c := by
  simp only [Admits, Polarity.Holds, List.mem_append]
  grind

end Regex

namespace Pattern

variable {α : Type}

/-! ## Single characters -/

/-- The pattern matches the character, taken as a whole text. -/
def Accepts (p : Pattern α) (c : Char) : Prop :=
  p.Matches [c] 0 1

theorem one_singleton (q : Char → Prop) (c : Char) : Span.one [c] q 0 1 ↔ q c := by
  simp [Span.one]

theorem accepts_set (polarity : Polarity) (members : String) (c : Char) :
    (.set polarity members : Pattern α).Accepts c ↔ polarity.Holds (c ∈ members.toList) :=
  one_singleton _ c

theorem accepts_range (polarity : Polarity) (first last c : Char) :
    (.range polarity first last : Pattern α).Accepts c ↔ polarity.Holds (first ≤ c ∧ c ≤ last) :=
  one_singleton _ c

theorem accepts_alt (ps : List (Pattern α)) (c : Char) :
    (Pattern.alt ps).Accepts c ↔ ∃ p ∈ ps, p.Accepts c := by
  rw [Accepts, Matches]
  exact matchesAny_iff [c] ps 0 1

/-- A leaf that is a class accepts what its items admit. -/
theorem accepts_leaf {p : Pattern α} {polarity : Polarity} {items : List ClassItem}
    (h : classItems? polarity p = some items) (c : Char) : p.Accepts c ↔ Admits polarity items c := by
  obtain ⟨members, rfl, rfl⟩ | ⟨first, last, rfl, rfl⟩ := classItems?_cases h
  · rw [accepts_set, admits_ofString]
  · rw [accepts_range, admits_ofRange]

/-! ## Merged classes -/

/-- Some alternative accepts what a positive merged class admits. -/
theorem admits_positive_iff {ps : List (Pattern α)} {items : List ClassItem}
    (h : mergedClass? ps = some ⟨.positive, items⟩) (c : Char) :
    Admits .positive items c ↔ ∃ p ∈ ps, p.Accepts c := by
  have hmatches := matchesAny_of_mergedClass? [c] ps ⟨.positive, items⟩ h rfl
  rw [← accepts_alt, Accepts, Matches, hmatches, one_singleton]

/-- All leaves accept what the items of negated leaves together admit. -/
theorem admits_negated_iff {leaves : List (Pattern α)} {items : List ClassItem}
    (h : itemsOf? .negated leaves = some items) (c : Char) :
    Admits .negated items c ↔ ∀ leaf ∈ leaves, leaf.Accepts c := by
  induction leaves generalizing items with
  | nil =>
    cases h
    simp [Admits, Polarity.Holds]
  | cons leaf leaves ih =>
    obtain ⟨a, b, ha, hb, rfl⟩ := itemsOf?_cons_eq_some.mp h
    rw [admits_negated_append, ih hb, List.forall_mem_cons, accepts_leaf ha]

/-- A merged alternation is written as a bracket expression and nothing else. -/
theorem parse_of_mergedClass? {ps : List (Pattern α)} (hwf : (Pattern.alt ps).WellFormed) {c : CharClass}
    (hc : mergedClass? ps = some c) :
    ∃ first rest, parse (Pattern.alt ps).regex = some (.bracket c.polarity first rest) ∧
      (first :: rest).map Item.item = c.items := by
  obtain ⟨a, htext, hshape⟩ := exists_bracket c (items_of_mergedClass? ps hwf.2 c hc)
  obtain ⟨first, rest, rfl, hitems⟩ := Atom.eq_bracket_of_shape hshape
  refine ⟨first, rest, ?_, hitems⟩
  rw [parse_eq_some_iff, toList_regex, Alternation.bracket, Alternation.text, text_atom, htext]
  simp [text, hc]

/-- An alternation with a polarity is written as one bracket expression of that polarity. A positive bracket
admits a character if one of the alternatives accepts it, and a negated one if all the leaves do. -/
theorem bracket_of_survey (ps : List (Pattern α)) (polarity : Polarity) (h : Constructible (.alt ps))
    (hsurvey : survey ps = some polarity) :
    ∃ first rest, parse (Pattern.alt ps).regex = some (.bracket polarity first rest) ∧
      ∀ c, Admits polarity ((first :: rest).map Item.item) c ↔
        match polarity with
        | .positive => ∃ p ∈ ps, p.Accepts c
        | .negated => ∀ leaf ∈ leavesAll ps, leaf.Accepts c := by
  have hwf := h.wellFormed
  rw [survey_eq, Option.map_eq_some_iff] at hsurvey
  obtain ⟨⟨polarity, items⟩, hmerged, rfl⟩ := hsurvey
  obtain ⟨first, rest, hparse, hitems⟩ := parse_of_mergedClass? hwf hmerged
  refine ⟨first, rest, hparse, ?_⟩
  intro c
  rw [hitems]
  cases polarity with
  | positive => exact admits_positive_iff hmerged c
  | negated =>
    have hne : ps ≠ [] := by
      rintro rfl
      cases hmerged
    exact admits_negated_iff ((mergedClass?_eq_some_iff ps hwf.2 hne _).mp hmerged) c

/-- The characters of a word, some of them named twice. -/
def wordCharacter : List (Pattern Unit) :=
  [.alt [.range .positive 'a' 'z', .set .positive "_-"], .range .positive 'x' 'z']

/-- Anything but an `a`, or anything but an `a` and a `b`. -/
def overlappingComplements : List (Pattern Unit) :=
  [.set .negated "a", .set .negated "ab"]

theorem wellFormed_overlappingComplements : (Pattern.alt overlappingComplements).WellFormed := by
  simp [overlappingComplements, WellFormed, WellFormedAll]

theorem bracket_of_survey_both_polarities :
    (Constructible (.alt wordCharacter) ∧ survey wordCharacter = some .positive ∧
      ∃ first rest, parse (Pattern.alt wordCharacter).regex = some (.bracket .positive first rest) ∧
        ∀ c, Admits .positive ((first :: rest).map Item.item) c ↔ ∃ p ∈ wordCharacter, p.Accepts c) ∧
    (Constructible (.alt overlappingComplements) ∧ survey overlappingComplements = some .negated ∧
      ∃ first rest,
        parse (Pattern.alt overlappingComplements).regex = some (.bracket .negated first rest) ∧
        ∀ c, Admits .negated ((first :: rest).map Item.item) c ↔
          ∀ leaf ∈ leavesAll overlappingComplements, leaf.Accepts c) := by
  have hword : Constructible (.alt wordCharacter) :=
    constructible _ (by simp [wordCharacter, WellFormed, WellFormedAll])
  have hcomplements := constructible _ wellFormed_overlappingComplements
  exact ⟨⟨hword, rfl, bracket_of_survey wordCharacter .positive hword rfl⟩,
    ⟨hcomplements, rfl, bracket_of_survey overlappingComplements .negated hcomplements rfl⟩⟩

/-- The first alternative accepts a `b`, and the bracket `[^aab]` does not admit it. -/
theorem bracket_narrows_overlappingComplements :
    Constructible (.alt overlappingComplements) ∧ survey overlappingComplements = some .negated ∧
    (Pattern.alt overlappingComplements).regex = "[^aab]" ∧
    ¬ ∃ first rest,
      parse (Pattern.alt overlappingComplements).regex = some (.bracket .negated first rest) ∧
      ∀ c, Admits .negated ((first :: rest).map Item.item) c ↔
        ∃ p ∈ overlappingComplements, p.Accepts c := by
  have hwf := wellFormed_overlappingComplements
  have hmerged : mergedClass? overlappingComplements = some ⟨.negated, [.char 'a', .char 'a', .char 'b']⟩ :=
    rfl
  refine ⟨constructible _ hwf, rfl, by decide +kernel, ?_⟩
  rintro ⟨first, rest, hparse, hadmits⟩
  obtain ⟨first', rest', hparse', hitems⟩ := parse_of_mergedClass? hwf hmerged
  rw [hparse] at hparse'
  cases hparse'
  have hb := (hadmits 'b').mpr ⟨.set .negated "a", List.mem_cons_self, by simp [accepts_set, Polarity.Holds]⟩
  rw [hitems] at hb
  exact hb ⟨.char 'b', by simp, rfl⟩

end Pattern

end TextMate
