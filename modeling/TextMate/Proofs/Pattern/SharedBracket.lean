import TextMate.Proofs.Pattern.Leaves
import TextMate.Proofs.Pattern.Survey
import TextMate.Proofs.Pattern.Text

/-!
# Which alternatives share a bracket

A survey threads a polarity through alternations inside alternations and stops at the first disagreement.
What it finds can be said of the leaves alone, `survey_eq_some_iff`: the alternatives share a bracket of some
polarity if there is an alternative, nothing empty is opened on the way to the leaves, and each leaf is a set
or a range of that polarity. The bracket then holds what the leaves have to say, from left to right,
`foldl_classItem_of_mergedClass?`. `survey_exact` puts the two together.

Nothing here asks for well-formed patterns: `unbuiltClasses` are alternatives that no constructor builds.
-/

namespace TextMate.Pattern

open Regex

variable {σ α : Type}

/-- A set or a range of the given polarity. -/
def IsClass (polarity : Polarity) : Pattern α → Prop
  | .set polarity' _ | .range polarity' _ _ => polarity' = polarity
  | _ => False

/-- The members of a set, or the bounds of a range with a dash between them, escaped. -/
def memberText : Pattern α → List Char
  | .set _ members => members.toList.flatMap (escapedChar classSpecials)
  | .range _ first last => escapedChar classSpecials first ++ '-' :: escapedChar classSpecials last
  | _ => []

/-- The alternatives fit into one bracket of the given polarity. -/
structure SharesBracket (polarity : Polarity) (ps : List (Pattern α)) : Prop where
  ne_nil : ps ≠ []
  nested_ne_nil : ∀ p ∈ ps, ∀ qs, p.Opens qs → qs ≠ []
  isClass_leaves : ∀ leaf ∈ leavesAll ps, leaf.IsClass polarity

/-! ## Leaves and their items -/

theorem exists_classItems?_iff {polarity : Polarity} {p : Pattern α} :
    (∃ items, classItems? polarity p = some items) ↔ p.IsClass polarity := by
  cases p <;> simp [classItems?, IsClass]

theorem exists_itemsOf?_iff {polarity : Polarity} {leaves : List (Pattern α)} :
    (∃ items, itemsOf? polarity leaves = some items) ↔ ∀ leaf ∈ leaves, leaf.IsClass polarity := by
  induction leaves with
  | nil => simp [itemsOf?]
  | cons leaf leaves ih =>
    rw [List.forall_mem_cons, ← exists_classItems?_iff, ← ih]
    simp only [itemsOf?_cons_eq_some]
    constructor
    · rintro ⟨_, a, b, ha, hb, rfl⟩
      exact ⟨⟨a, ha⟩, ⟨b, hb⟩⟩
    · rintro ⟨⟨a, ha⟩, ⟨b, hb⟩⟩
      exact ⟨a ++ b, a, b, ha, hb, rfl⟩

/-- The items of a class are written as its members are. -/
theorem flatMap_itemText_of_classItems? {polarity : Polarity} {p : Pattern α} {items : List ClassItem}
    (h : classItems? polarity p = some items) : items.flatMap itemText = p.memberText := by
  obtain ⟨members, rfl, rfl⟩ | ⟨first, last, rfl, rfl⟩ := classItems?_cases h
  · rw [List.flatMap_map]
    rfl
  · simp [itemText, memberText]

theorem flatMap_itemText_of_itemsOf? {polarity : Polarity} {leaves : List (Pattern α)}
    {items : List ClassItem} (h : itemsOf? polarity leaves = some items) :
    items.flatMap itemText = leaves.flatMap memberText := by
  induction leaves generalizing items with
  | nil =>
    cases h
    rfl
  | cons leaf leaves ih =>
    obtain ⟨a, b, ha, hb, rfl⟩ := itemsOf?_cons_eq_some.mp h
    rw [List.flatMap_append, List.flatMap_cons, flatMap_itemText_of_classItems? ha, ih hb]

/-! ## What a survey finds, by the leaves -/

theorem ne_nil_of_mergedClass? {ps : List (Pattern α)} {c : CharClass} (h : mergedClass? ps = some c) :
    ps ≠ [] := by
  rintro rfl
  cases h

theorem survey_eq_some_iff {ps : List (Pattern α)} {polarity : Polarity} :
    survey ps = some polarity ↔ SharesBracket polarity ps := by
  rw [survey_eq, Option.map_eq_some_iff]
  constructor
  · rintro ⟨c, hc, rfl⟩
    have hne := ne_nil_of_mergedClass? hc
    obtain ⟨hfilled, hitems⟩ := (mergedClass?_eq_some_iff_filled ps hne c).mp hc
    exact ⟨hne, hfilled, exists_itemsOf?_iff.mp ⟨c.items, hitems⟩⟩
  · rintro ⟨hne, hfilled, hleaves⟩
    obtain ⟨items, hitems⟩ := exists_itemsOf?_iff.mpr hleaves
    exact ⟨⟨polarity, items⟩, (mergedClass?_eq_some_iff_filled ps hne _).mpr ⟨hfilled, hitems⟩, rfl⟩

theorem survey_eq_none_iff {ps : List (Pattern α)} :
    survey ps = none ↔ ∀ polarity, ¬ SharesBracket polarity ps := by
  simp only [← survey_eq_some_iff]
  exact Option.eq_none_iff_forall_ne_some

/-! ## What a bracket holds, by the leaves -/

section

variable [Sink σ]

/-- The items of a merged class are written as the leaves are. -/
theorem foldl_classItem_of_mergedClass? {ps : List (Pattern α)} {c : CharClass}
    (h : mergedClass? ps = some c) (out : Output σ α) :
    c.items.foldl Output.classItem out = out.add ((leavesAll ps).flatMap memberText) [] := by
  have hitems := (mergedClass?_eq_some_iff_filled ps (ne_nil_of_mergedClass? h) c).mp h
  rw [Output.foldl_eq_add Output.classItem_eq_add, flatMap_itemText_of_itemsOf? hitems.2]

/-- Of any alternatives whatever, a survey finds a polarity if and only if they share a bracket of that
polarity, and it is the polarity of the class that is written. If it finds one, then the second pass does not
fail and writes what the leaves have to say and nothing else, and so does writing the alternation, between
brackets. -/
theorem survey_exact (ps : List (Pattern α)) (out : Output σ α) :
    (∀ polarity, survey ps = some polarity ↔ SharesBracket polarity ps) ∧
    (survey ps = none ↔ ¬ SharesBracket .positive ps ∧ ¬ SharesBracket .negated ps) ∧
    survey ps = (mergedClass? ps).map (·.polarity) ∧
    ∀ polarity, survey ps = some polarity →
      emitClassMembers ps out = .ok (out.add ((leavesAll ps).flatMap memberText) []) ∧
      (Pattern.alt ps).writeRegex out =
        ((openClass out polarity).add ((leavesAll ps).flatMap memberText) []).push ']' := by
  refine ⟨fun polarity => survey_eq_some_iff, ?_, survey_eq ps, ?_⟩
  · rw [survey_eq_none_iff]
    constructor
    · intro h
      exact ⟨h .positive, h .negated⟩
    · rintro ⟨hpositive, hnegated⟩ polarity
      cases polarity with
      | positive => exact hpositive
      | negated => exact hnegated
  · intro polarity hsurvey
    rw [survey_eq, Option.map_eq_some_iff] at hsurvey
    obtain ⟨c, hc, rfl⟩ := hsurvey
    refine ⟨?_, ?_⟩
    · rw [emitClassMembers_of_mergedClass? ps c hc, foldl_classItem_of_mergedClass? hc]
    · rw [writeRegex, hc]
      simp only [charClass_eq, foldl_classItem_of_mergedClass? hc]

end

/-- An alternation with one alternative, a range that runs backwards and a set without members are among
these. -/
def unbuiltClasses : List (Pattern Unit) :=
  [.alt [.range .positive 'a' 'z', .alt [.set .positive "^-"]], .range .positive '_' ']',
    .set .positive ""]

/-- Deep inside stands an alternation without alternatives. -/
def hollowClasses : List (Pattern Unit) :=
  [.set .negated "a", .alt [.range .negated '0' '9', .alt [.alt []]]]

theorem survey_exact_unbuilt_hollow :
    (survey unbuiltClasses = some .positive ∧ SharesBracket .positive unbuiltClasses ∧
      emitClassMembers unbuiltClasses (⟨"", #[]⟩ : Output String Unit) = .ok ⟨"a-z\\^\\-_-\\]", #[]⟩) ∧
    (survey hollowClasses = none ∧ ¬ SharesBracket .positive hollowClasses ∧
      ¬ SharesBracket .negated hollowClasses) := by
  obtain ⟨hfound, -, -, hwritten⟩ := survey_exact unbuiltClasses (⟨"", #[]⟩ : Output String Unit)
  obtain ⟨-, hnone, -, -⟩ := survey_exact hollowClasses (⟨"", #[]⟩ : Output String Unit)
  have hsurvey : survey unbuiltClasses = some .positive := rfl
  refine ⟨⟨hsurvey, (hfound .positive).mp hsurvey, ?_⟩, rfl, hnone.mp rfl⟩
  rw [(hwritten .positive hsurvey).1]
  rfl

end TextMate.Pattern
