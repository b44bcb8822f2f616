import Mathlib.Data.List.Nodup
import TextMate.Proofs.Document.References

/-!
# The places of a document

A place says how to get from the whole document to a rule: through the keys and positions of the document
(`valueAt?`), and through the lists and captures of the grammar (`ruleAt?`). Both ways lead to the same
rules, `valueAt?_tree`: a rule with a name stands in a list as a reference, and every other rule is written
out. Outside captured text two places never have the body of one rule without a name, `place_unique`.

Together with what is known of references this is the referential integrity of a document,
`references_resolve`.
-/

namespace TextMate.Document

open Json

/-! ## Places -/

/-- The fields of a body that hold the rules for captured text. -/
inductive CapturesField where
  | whole
  | opening
  | closing
  deriving DecidableEq

namespace CapturesField

def key : CapturesField → String
  | .whole => "captures"
  | .opening => "beginCaptures"
  | .closing => "endCaptures"

/-- The rules under the numbers of the field. -/
def rules : CapturesField → Trigger Rule → List Rule
  | .whole, .matching p => p.captures
  | .opening, .between p _ => p.captures
  | .closing, .between _ p => p.captures
  | _, _ => []

end CapturesField

/-- The trigger of a body; a reference has none. -/
def triggerOf : Rule → Trigger Rule
  | .reference _ _ => .always
  | .body _ _ trigger _ => trigger

/-- Where a rule stands in a document. -/
inductive Place where
  /-- In the list at the top level. -/
  | topLevel (i : Nat)
  /-- Under a name of the repository. -/
  | entry (i : Nat)
  /-- In the list of inner rules of the body at another place. -/
  | inner (outer : Place) (i : Nat)
  /-- Under a number of a captures field of the body at another place. -/
  | capture (outer : Place) (field : CapturesField) (i : Nat)
  deriving DecidableEq

namespace Place

/-- Whether the place is an element of a list of rules. -/
def isElement : Place → Bool
  | .topLevel _ | .inner _ _ => true
  | .entry _ | .capture _ _ _ => false

/-- Whether the place is inside captured text. -/
def inCapture : Place → Bool
  | .topLevel _ | .entry _ => false
  | .inner outer _ => outer.inCapture
  | .capture _ _ _ => true

end Place

/-- What a document has at a place. -/
def valueAt? (document : Value) : Place → Option Value
  | .topLevel i => document.elementAt? "patterns" i
  | .entry i => document.fieldAt? "repository" i
  | .inner outer i => (valueAt? document outer).bind (·.elementAt? "patterns" i)
  | .capture outer field i => (valueAt? document outer).bind (·.fieldAt? field.key i)

/-- Whether a rule at a place is written out there: an element that has a name is not. -/
def isWrittenOut (g : Grammar) (place : Place) (rule : Rule) : Bool :=
  !(place.isElement && (g.repository.nameOf? rule).isSome)

/-- Which rule a grammar has at a place. There is nothing inside a rule that is not written out. -/
def ruleAt? (g : Grammar) : Place → Option Rule
  | .topLevel i => g.topLevel[i]?
  | .entry i => (g.repository.entries.toList.map (·.rule))[i]?
  | .inner outer i => (ruleAt? g outer).bind fun rule =>
    if isWrittenOut g outer rule then rule.inner[i]? else none
  | .capture outer field i => (ruleAt? g outer).bind fun rule =>
    if isWrittenOut g outer rule then (field.rules (triggerOf rule))[i]? else none

/-! ## Document and grammar agree at every place -/

section

variable {treeOf elementOf : Rule → Value} {scope : Option String} {trigger : Trigger Rule}
  {inner : List Rule}

theorem lookup_patternFields (k key capturesKey : String) (pattern : Pattern Rule) (vs : List Value) :
    (patternFields key capturesKey pattern vs).lookup k =
      if k = key then some (.string pattern.regex)
      else if k = capturesKey ∧ vs.isEmpty = false then some (.object (numberedFields 1 vs))
      else none := by
  by_cases hkey : k = key
  · simp [patternFields, hkey]
  · have hbeq : (k == key) = false := beq_false_of_ne hkey
    cases vs with
    | nil => simp [patternFields, capturesField, List.lookup_cons, hkey, hbeq]
    | cons v vs =>
      by_cases hcaptures : k = capturesKey
      · subst hcaptures
        simp [patternFields, capturesField, List.lookup_cons, hkey, hbeq]
      · have hbeq' : (k == capturesKey) = false := beq_false_of_ne hcaptures
        simp [patternFields, capturesField, List.lookup_cons, hkey, hbeq, hcaptures, hbeq']

/-- The inner rules of a body, by their position. -/
theorem elementAt?_bodyFields (i : Nat) :
    (Value.object (bodyFields treeOf elementOf scope trigger inner)).elementAt? "patterns" i =
      inner[i]?.map elementOf := by
  have hscope : (scopeField scope).lookup "patterns" = none := by
    cases scope <;> simp [scopeField, List.lookup_cons]
  have htrigger : (triggerFieldsOf treeOf trigger).lookup "patterns" = none := by
    cases trigger <;> simp [triggerFieldsOf, List.lookup_append, lookup_patternFields]
  simp only [Value.elementAt?, Value.field?, Value.fields, bodyFields, List.lookup_append, hscope,
    htrigger, Option.none_or]
  cases inner with
  | nil => simp [innerField]
  | cons rule rules =>
    rw [← List.getElem?_map]
    simp [innerField, Value.elements]

/-- The rules for captured text of a body, by their position. -/
theorem fieldAt?_bodyFields (field : CapturesField) (i : Nat) :
    (Value.object (bodyFields treeOf elementOf scope trigger inner)).fieldAt? field.key i =
      (field.rules trigger)[i]?.map treeOf := by
  have hscope : (scopeField scope).lookup field.key = none := by
    cases scope <;> cases field <;> simp [scopeField, List.lookup_cons, CapturesField.key]
  have hinner : (innerField (inner.map elementOf)).lookup field.key = none := by
    cases inner <;> cases field <;> simp [innerField, List.lookup_cons, CapturesField.key]
  have htrigger : (triggerFieldsOf treeOf trigger).lookup field.key =
      if (field.rules trigger).isEmpty = false then
        some (.object (numberedFields 1 ((field.rules trigger).map treeOf)))
      else none := by
    cases trigger <;> cases field <;>
      simp [triggerFieldsOf, List.lookup_append, lookup_patternFields, CapturesField.key,
        CapturesField.rules]
  simp only [Value.fieldAt?, Value.field?, Value.fields, bodyFields, List.lookup_append, hscope,
    htrigger, hinner, Option.none_or, Option.or_none]
  split
  · rw [← List.getElem?_map, Option.bind_some, map_snd_numberedFields]
  · next hempty =>
    have hnil : field.rules trigger = [] := by simpa using hempty
    simp [hnil]

end

/-- A reference has no other field. -/
theorem field?_referenceTree (name : String) {key : String} (h : key ≠ "include") :
    (referenceTree name).field? key = none := by
  have hbeq : (key == "include") = false := beq_false_of_ne h
  simp [referenceTree, Value.field?, Value.fields, List.lookup_cons, hbeq]

theorem CapturesField.key_ne_include (field : CapturesField) : field.key ≠ "include" := by
  cases field <;> decide

section

variable (g : Grammar)

theorem elementAt?_bodyTree (rule : Rule) (i : Nat) :
    (bodyTree g.repository.nameOf? rule).elementAt? "patterns" i =
      rule.inner[i]?.map (elementTree g.repository.nameOf?) := by
  cases rule with
  | reference id name =>
    rw [bodyTree, Value.elementAt?, field?_referenceTree name (by decide)]
    rfl
  | body id scope trigger inner => rw [bodyTree_body, elementAt?_bodyFields, Rule.inner]

theorem fieldAt?_bodyTree (rule : Rule) (field : CapturesField) (i : Nat) :
    (bodyTree g.repository.nameOf? rule).fieldAt? field.key i =
      (field.rules (triggerOf rule))[i]?.map (bodyTree g.repository.nameOf?) := by
  cases rule with
  | reference id name =>
    rw [bodyTree, Value.fieldAt?, field?_referenceTree name field.key_ne_include]
    cases field <;> rfl
  | body id scope trigger inner => rw [bodyTree_body, fieldAt?_bodyFields, triggerOf]

/-- What the document has for a rule at a place. -/
def treeAt (place : Place) (rule : Rule) : Value :=
  if place.isElement then elementTree g.repository.nameOf? rule
  else bodyTree g.repository.nameOf? rule

variable {g} {place : Place} {rule : Rule}

theorem nameOf?_of_isWrittenOut (helement : place.isElement = true)
    (h : isWrittenOut g place rule = true) : g.repository.nameOf? rule = none := by
  simpa [isWrittenOut, helement] using h

theorem treeAt_of_isWrittenOut (h : isWrittenOut g place rule = true) :
    treeAt g place rule = bodyTree g.repository.nameOf? rule := by
  rw [treeAt]
  split
  · next helement => rw [elementTree, nameOf?_of_isWrittenOut helement h]
  · rfl

theorem treeAt_of_not_isWrittenOut (h : isWrittenOut g place rule = false) :
    ∃ name, treeAt g place rule = referenceTree name := by
  have hboth : place.isElement = true ∧ (g.repository.nameOf? rule).isSome = true := by
    simpa [isWrittenOut] using h
  obtain ⟨name, hname⟩ := Option.isSome_iff_exists.mp hboth.2
  exact ⟨name, by rw [treeAt, if_pos hboth.1, elementTree, hname]⟩

theorem elementAt?_treeAt (i : Nat) :
    (treeAt g place rule).elementAt? "patterns" i =
      (if isWrittenOut g place rule then rule.inner[i]? else none).map
        (elementTree g.repository.nameOf?) := by
  cases h : isWrittenOut g place rule with
  | true =>
    rw [treeAt_of_isWrittenOut h, elementAt?_bodyTree]
    rfl
  | false =>
    obtain ⟨name, hname⟩ := treeAt_of_not_isWrittenOut h
    rw [hname, Value.elementAt?, field?_referenceTree name (by decide)]
    rfl

theorem fieldAt?_treeAt (field : CapturesField) (i : Nat) :
    (treeAt g place rule).fieldAt? field.key i =
      (if isWrittenOut g place rule then (field.rules (triggerOf rule))[i]? else none).map
        (bodyTree g.repository.nameOf?) := by
  cases h : isWrittenOut g place rule with
  | true =>
    rw [treeAt_of_isWrittenOut h, fieldAt?_bodyTree]
    rfl
  | false =>
    obtain ⟨name, hname⟩ := treeAt_of_not_isWrittenOut h
    rw [hname, Value.fieldAt?, field?_referenceTree name field.key_ne_include]
    rfl

end

/-- At every place, the document has the tree of the rule that the grammar has there. -/
theorem valueAt?_tree (g : Grammar) (place : Place) :
    valueAt? (documentTree g.repository.nameOf? g) place = (ruleAt? g place).map (treeAt g place) := by
  induction place with
  | topLevel i =>
    have hpatterns : (documentTree g.repository.nameOf? g).field? "patterns" =
        some (.array (elementTrees g.repository.nameOf? g.topLevel)) := rfl
    rw [valueAt?, Value.elementAt?, hpatterns, elementTrees_eq_map, ruleAt?]
    exact List.getElem?_map
  | entry i =>
    have hrepository : (documentTree g.repository.nameOf? g).field? "repository" =
        some (.object (entryFields g.repository.nameOf? g.repository.entries.toList)) := rfl
    rw [valueAt?, Value.fieldAt?, hrepository, ruleAt?, ← List.getElem?_map, List.map_map]
    rw [Option.bind_some, Value.fields, entryFields, List.map_map]
    rfl
  | inner outer i ih =>
    rw [valueAt?, ruleAt?, ih]
    cases ruleAt? g outer with
    | none => rfl
    | some rule => exact elementAt?_treeAt i
  | capture outer field i ih =>
    rw [valueAt?, ruleAt?, ih]
    cases ruleAt? g outer with
    | none => rfl
    | some rule => exact fieldAt?_treeAt field i

/-! ## One body, one place -/

section

variable (registered : Rule → Bool)

mutual

/-- The bodies of rules without a name in the lists inside the rule at a place, captured text left
aside, each with its own place. -/
def placesUnder (place : Place) : Rule → List (Place × RuleId)
  | .reference _ _ => []
  | .body _ _ _ inner => placesIn (.inner place) 0 inner

/-- The bodies of rules without a name in a list of rules and in the lists inside it. -/
def placesIn (placeAt : Nat → Place) (i : Nat) : List Rule → List (Place × RuleId)
  | [] => []
  | rule :: rules =>
    (if registered rule || rule.isReference then []
      else (placeAt i, rule.id) :: placesUnder (placeAt i) rule) ++ placesIn placeAt (i + 1) rules

end

/-- The bodies of rules without a name in the lists inside entries. -/
def entryPlaces (i : Nat) : List Entry → List (Place × RuleId)
  | [] => []
  | entry :: entries => placesUnder registered (.entry i) entry.rule ++ entryPlaces (i + 1) entries

mutual

theorem map_snd_placesUnder : (place : Place) → (rule : Rule) →
    (placesUnder registered place rule).map (·.2) = placedUnder registered rule
  | _, .reference _ _ => rfl
  | place, .body _ _ _ inner => map_snd_placesIn (.inner place) 0 inner

theorem map_snd_placesIn : (placeAt : Nat → Place) → (i : Nat) → (rules : List Rule) →
    (placesIn registered placeAt i rules).map (·.2) = placedIn registered rules
  | _, _, [] => rfl
  | placeAt, i, rule :: rules => by
    have hunder := map_snd_placesUnder (placeAt i) rule
    have hrules := map_snd_placesIn placeAt (i + 1) rules
    rw [placesIn, placedIn, List.map_append, hrules]
    split
    · rfl
    · rw [List.map_cons, hunder]

end

theorem placesUnder_eq (place : Place) (rule : Rule) :
    placesUnder registered place rule = placesIn registered (.inner place) 0 rule.inner := by
  cases rule with
  | reference id name => rw [placesUnder, Rule.inner, placesIn]
  | body id scope trigger inner => rw [placesUnder, Rule.inner]

theorem map_snd_entryPlaces (i : Nat) (entries : List Entry) :
    (entryPlaces registered i entries).map (·.2) =
      entries.flatMap fun entry => placedUnder registered entry.rule := by
  induction entries generalizing i with
  | nil => rfl
  | cons entry entries ih =>
    rw [entryPlaces, List.map_append, map_snd_placesUnder, ih, List.flatMap_cons]

variable {registered}

/-- An element without a name is among the places of its list, and so is everything inside it. -/
theorem placesUnder_subset_placesIn (placeAt : Nat → Place) (i : Nat) {k : Nat} {rules : List Rule}
    {rule : Rule} (hrule : rules[k]? = some rule)
    (hplaced : (registered rule || rule.isReference) = false) :
    (placeAt (i + k), rule.id) :: placesUnder registered (placeAt (i + k)) rule ⊆
      placesIn registered placeAt i rules := by
  induction rules generalizing i k with
  | nil => simp at hrule
  | cons head rules ih =>
    rw [placesIn]
    cases k with
    | zero =>
      rw [List.getElem?_cons_zero, Option.some.injEq] at hrule
      subst hrule
      rw [hplaced, if_neg Bool.false_ne_true]
      exact List.subset_append_left _ _
    | succ k =>
      rw [List.getElem?_cons_succ] at hrule
      have hlater := ih (i + 1) hrule
      rw [show i + 1 + k = i + (k + 1) by omega] at hlater
      exact List.subset_append_of_subset_right _ hlater

theorem placesUnder_subset_entryPlaces (registered : Rule → Bool) (i : Nat) {k : Nat}
    {entries : List Entry} {entry : Entry} (hentry : entries[k]? = some entry) :
    placesUnder registered (.entry (i + k)) entry.rule ⊆ entryPlaces registered i entries := by
  induction entries generalizing i k with
  | nil => simp at hentry
  | cons head entries ih =>
    rw [entryPlaces]
    cases k with
    | zero =>
      rw [List.getElem?_cons_zero, Option.some.injEq] at hentry
      subst hentry
      exact List.subset_append_left _ _
    | succ k =>
      rw [List.getElem?_cons_succ] at hentry
      have hlater := ih (i + 1) hentry
      rw [show i + 1 + k = i + (k + 1) by omega] at hlater
      exact List.subset_append_of_subset_right _ hlater

end

/-- The bodies of rules without a name in the lists of a document, each with its place. -/
def places (g : Grammar) : List (Place × RuleId) :=
  let registered := isRegistered g.repository.entries.toList
  placesIn registered .topLevel 0 g.topLevel ++ entryPlaces registered 0 g.repository.entries.toList

theorem map_snd_places (g : Grammar) : (places g).map (·.2) = placements g := by
  rw [places, placements, List.map_append, map_snd_placesIn, map_snd_entryPlaces]

section

variable {g : Grammar} (hg : g.repository.Reachable)

include hg

/-- What holds of an element of a list whose places are among those of the document. -/
theorem mem_places_of_element {placeAt : Nat → Place} {i : Nat} {rules : List Rule} {rule : Rule}
    (hlist : placesIn (isRegistered g.repository.entries.toList) placeAt 0 rules ⊆ places g)
    (hrule : rules[i]? = some rule) (hnone : g.repository.nameOf? rule = none)
    (hbody : rule.isReference = false) :
    (placeAt i, rule.id) ::
      placesUnder (isRegistered g.repository.entries.toList) (placeAt i) rule ⊆ places g := by
  have hplaced : (isRegistered g.repository.entries.toList rule || rule.isReference) = false := by
    rw [isRegistered_of_nameOf?_none hg hnone, hbody, Bool.or_self]
  have hsubset := placesUnder_subset_placesIn placeAt 0 hrule hplaced
  rw [Nat.zero_add] at hsubset
  exact List.Subset.trans hsubset hlist

/-- Outside captured text, everything inside a rule that is written out is among the places. -/
theorem placesUnder_subset_places {place : Place} {rule : Rule} (hrule : ruleAt? g place = some rule)
    (houtside : place.inCapture = false) (hwritten : isWrittenOut g place rule = true) :
    placesUnder (isRegistered g.repository.entries.toList) place rule ⊆ places g := by
  -- a reference has nothing inside, and any other element stands in its list
  have helement : ∀ {placeAt : Nat → Place} {i : Nat} {rules : List Rule} {rule : Rule},
      placesIn (isRegistered g.repository.entries.toList) placeAt 0 rules ⊆ places g →
      rules[i]? = some rule → g.repository.nameOf? rule = none →
      placesUnder (isRegistered g.repository.entries.toList) (placeAt i) rule ⊆ places g := by
    intro placeAt i rules rule hlist hrule hnone
    cases rule with
    | reference id name => exact List.nil_subset _
    | body id scope trigger inner =>
      have hboth := mem_places_of_element hg hlist hrule hnone rfl
      exact List.Subset.trans (List.subset_cons_self _ _) hboth
  induction place generalizing rule with
  | topLevel i =>
    exact helement (List.subset_append_left _ _) hrule (nameOf?_of_isWrittenOut rfl hwritten)
  | entry i =>
    rw [ruleAt?, List.getElem?_map, Option.map_eq_some_iff] at hrule
    obtain ⟨entry, hentry, rfl⟩ := hrule
    have hsubset := placesUnder_subset_entryPlaces (isRegistered g.repository.entries.toList) 0 hentry
    rw [Nat.zero_add] at hsubset
    exact List.subset_append_of_subset_right _ hsubset
  | inner outer i ih =>
    rw [ruleAt?, Option.bind_eq_some_iff] at hrule
    obtain ⟨outerRule, houter, hinner⟩ := hrule
    obtain ⟨houterWritten, hinner⟩ := Option.ite_none_right_eq_some.mp hinner
    have hlist := ih houter houtside houterWritten
    rw [placesUnder_eq] at hlist
    exact helement hlist hinner (nameOf?_of_isWrittenOut rfl hwritten)
  | capture outer field i => cases houtside

/-- Outside captured text, a body without a name is among the places. -/
theorem mem_places {place : Place} {rule : Rule} (hrule : ruleAt? g place = some rule)
    (houtside : place.inCapture = false) (hnone : g.repository.nameOf? rule = none)
    (hbody : rule.isReference = false) : (place, rule.id) ∈ places g := by
  cases place with
  | topLevel i =>
    exact mem_places_of_element hg (List.subset_append_left _ _) hrule hnone hbody List.mem_cons_self
  | entry i =>
    -- the rule of an entry has a name
    rw [ruleAt?, List.getElem?_map, Option.map_eq_some_iff] at hrule
    obtain ⟨entry, hentry, rfl⟩ := hrule
    have hmem := Array.mem_toList_iff.mp (List.mem_of_getElem? hentry)
    have hname := (hg.coherent.nameOf?_eq_some_iff entry.rule entry.name).mpr
      ⟨entry, hmem, rfl, rfl⟩
    rw [hnone] at hname
    cases hname
  | inner outer i =>
    rw [ruleAt?, Option.bind_eq_some_iff] at hrule
    obtain ⟨outerRule, houter, hinner⟩ := hrule
    obtain ⟨hwritten, hinner⟩ := Option.ite_none_right_eq_some.mp hinner
    have hlist := placesUnder_subset_places hg houter houtside hwritten
    rw [placesUnder_eq] at hlist
    exact mem_places_of_element hg hlist hinner hnone hbody List.mem_cons_self
  | capture outer field i => cases houtside

/-- If no body is placed twice, outside captured text a rule without a name has one place at most. -/
theorem place_unique (hnodup : (placements g).Nodup) {place place' : Place} {rule rule' : Rule}
    (hrule : ruleAt? g place = some rule) (hrule' : ruleAt? g place' = some rule')
    (houtside : place.inCapture = false) (houtside' : place'.inCapture = false)
    (hid : rule.id = rule'.id) (hnone : g.repository.nameOf? rule = none)
    (hbody : rule.isReference = false) (hbody' : rule'.isReference = false) : place = place' := by
  have hnone' : g.repository.nameOf? rule' = none := by
    rw [Repository.nameOf?] at hnone ⊢
    rwa [← hid]
  have hmem := mem_places hg hrule houtside hnone hbody
  have hmem' := mem_places hg hrule' houtside' hnone' hbody'
  rw [← map_snd_places] at hnodup
  have hpair := List.inj_on_of_nodup_map hnodup hmem hmem' hid
  exact congrArg Prod.fst hpair

end

/-! ## Referential integrity -/

/-- What holds of the references of a document of a grammar, and of the fields of its repository. -/
structure Resolves (g : Grammar) (document : Value) (repository : List (String × Value)) : Prop where
  field_eq : document.field? "repository" = some (.object repository)
  /-- The repository has a field for each entry, in the order of the entries. -/
  names_eq : repository.map (·.1) = g.repository.entries.toList.map (·.name)
  names_nodup : (repository.map (·.1)).Nodup
  /-- No field of the repository is a reference. -/
  not_reference : ∀ field ∈ repository, ∀ name, field.2 ≠ referenceTree name
  /-- Wherever an object has a text under `include`, it has nothing else, and the text refers to a field
  of the repository. -/
  refers : ∀ items text, document.Holds (.object items) → ("include", .string text) ∈ items →
    items = [("include", .string text)] ∧ ∃ name ∈ repository.map (·.1), text = "#" ++ name
  /-- The document has something at a place exactly if the grammar does. -/
  places : ∀ place, valueAt? document place = none ↔ ruleAt? g place = none
  /-- An element with a name is a reference. -/
  named_element : ∀ place rule name, ruleAt? g place = some rule → place.isElement = true →
    g.repository.nameOf? rule = some name → valueAt? document place = some (referenceTree name)
  /-- Every other rule is written out. -/
  written_out : ∀ place rule, ruleAt? g place = some rule →
    (place.isElement = true → g.repository.nameOf? rule = none) →
    valueAt? document place = some (bodyTree g.repository.nameOf? rule)
  /-- Outside captured text, the body of a rule without a name has one place at most. -/
  once : ∀ place place' rule rule', ruleAt? g place = some rule → ruleAt? g place' = some rule' →
    place.inCapture = false → place'.inCapture = false → rule.id = rule'.id →
    g.repository.nameOf? rule = none → rule.isReference = false → rule'.isReference = false →
    place = place'

/-- The references of a document resolve: whatever a grammar is, a JSON parser finds in its document a
repository with the names of the entries, every reference leads to one of them, no rule with a name is
written out in a list, and outside captured text no rule without a name is written out twice. -/
theorem references_resolve (g : Grammar) (hg : g.repository.Reachable) (d : Document)
    (h : g.compile = .ok d) :
    ∃ document repository, parse d.text = some document ∧ Resolves g document repository := by
  have hclear := (clear_occurrences_iff g).mp ((exists_compile_iff_clear hg).mp ⟨d, h⟩)
  have hreferred : ∀ id name, Expanded g (.reference id name) → name ∈ entryNames g := by
    intro id name hexpanded
    exact mem_entryNames.mpr (hclear.2 id name hexpanded)
  have hfields : (entryFields g.repository.nameOf? g.repository.entries.toList).map (·.1) =
      entryNames g := by
    rw [entryFields, List.map_map]
    rfl
  have hplace := valueAt?_tree g
  refine ⟨_, entryFields g.repository.nameOf? g.repository.entries.toList, parse_text hg h,
    { field_eq := rfl, names_eq := hfields, names_nodup := ?_, not_reference := ?_, refers := ?_,
      places := ?_, named_element := ?_, written_out := ?_, once := ?_ }⟩
  · rw [hfields]
    exact hg.coherent.indexed.names.nodup
  · intro field hfield name
    obtain ⟨entry, hentry, rfl⟩ := List.mem_map.mp hfield
    have hbody := hg.coherent.not_reference entry (Array.mem_toList_iff.mp hentry)
    exact bodyTree_ne_referenceTree hbody name
  · intro items text hholds hmem
    rw [hfields]
    exact everywhere_refers_tree hg hreferred _ hholds items text rfl hmem
  · intro place
    rw [hplace, Option.map_eq_none_iff]
  · intro place rule name hrule helement hname
    rw [hplace, hrule, Option.map_some, treeAt, if_pos helement, elementTree, hname]
  · intro place rule hrule hwritten
    have hout : isWrittenOut g place rule = true := by
      cases helement : place.isElement with
      | true => simp [isWrittenOut, hwritten helement]
      | false => simp [isWrittenOut, helement]
    rw [hplace, hrule, Option.map_some, treeAt_of_isWrittenOut hout]
  · intro place place' rule rule' hrule hrule' houtside houtside' hid hnone hbody hbody'
    exact place_unique hg hclear.1 hrule hrule' houtside houtside' hid hnone hbody hbody'

theorem references_resolve_quotedGrammar :
    ∃ d, quotedGrammar.compile = .ok d ∧
      ∃ document repository, parse d.text = some document ∧
        Resolves quotedGrammar document repository := by
  have hok : quotedGrammar.compile.isOk := by decide +kernel
  cases hd : quotedGrammar.compile with
  | error failure =>
    rw [hd] at hok
    cases hok
  | ok d => exact ⟨d, rfl, references_resolve quotedGrammar reachable_quotedGrammar d hd⟩

end TextMate.Document
