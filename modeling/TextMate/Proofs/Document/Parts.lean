import Mathlib.Data.List.Nodup
import TextMate.Proofs.Document.Placement

/-!
# The parts of a rule

The parts of a rule are its inner rules and the rules for its captured text. They are smaller than the
rule, so what passes from the parts of a rule to the rule holds of every rule, `induction_on_parts`: one
case, where recursion through patterns and lists would need five. The trees, the steps and the placements of
a rule are put in the same form, each as a function of those of its parts.

The rules that occur in a grammar are those at its top level and in its repository, and their parts. In a
`Consistent` grammar the identity of a rule that occurs determines the rule.
-/

namespace TextMate.Document

open Json

/-! ## Parts are smaller -/

mutual

theorem sizeOf_lt_of_mem_captures : (p : Pattern Rule) → ∀ rule ∈ p.captures, sizeOf rule < sizeOf p
  | .capture body label => by
    intro rule hrule
    rw [Pattern.capture.sizeOf_spec]
    rcases List.mem_cons.mp hrule with rfl | hrule
    · omega
    · have hbody := sizeOf_lt_of_mem_captures body rule hrule
      omega
  | .alt ps => by
    intro rule hrule
    have hps := sizeOf_lt_of_mem_capturesAll ps rule hrule
    rw [Pattern.alt.sizeOf_spec]
    omega
  | .seq ps => by
    intro rule hrule
    have hps := sizeOf_lt_of_mem_capturesAll ps rule hrule
    rw [Pattern.seq.sizeOf_spec]
    omega
  | .rep body min max => by
    intro rule hrule
    have hbody := sizeOf_lt_of_mem_captures body rule hrule
    rw [Pattern.rep.sizeOf_spec]
    omega
  | .look side polarity body => by
    intro rule hrule
    have hbody := sizeOf_lt_of_mem_captures body rule hrule
    rw [Pattern.look.sizeOf_spec]
    omega
  | .set _ _ => by simp [Pattern.captures]
  | .range _ _ _ => by simp [Pattern.captures]
  | .any => by simp [Pattern.captures]
  | .literal _ => by simp [Pattern.captures]
  | .lineStart => by simp [Pattern.captures]
  | .lineEnd => by simp [Pattern.captures]

theorem sizeOf_lt_of_mem_capturesAll : (ps : List (Pattern Rule)) →
    ∀ rule ∈ Pattern.capturesAll ps, sizeOf rule < sizeOf ps
  | [] => by simp [Pattern.capturesAll]
  | p :: ps => by
    intro rule hrule
    rw [List.cons.sizeOf_spec]
    rcases List.mem_append.mp hrule with hrule | hrule
    · have hp := sizeOf_lt_of_mem_captures p rule hrule
      omega
    · have hps := sizeOf_lt_of_mem_capturesAll ps rule hrule
      omega

end

theorem sizeOf_lt_of_mem_inner {part rule : Rule} (h : part ∈ rule.inner) :
    sizeOf part < sizeOf rule := by
  cases rule with
  | reference id name => cases h
  | body id scope trigger inner =>
    have hinner : sizeOf part < sizeOf inner := List.sizeOf_lt_of_mem h
    rw [Rule.body.sizeOf_spec]
    omega

theorem sizeOf_lt_of_mem_captureRules {part rule : Rule} (h : part ∈ captureRules rule) :
    sizeOf part < sizeOf rule := by
  cases rule with
  | reference id name => cases h
  | body id scope trigger inner =>
    obtain ⟨p, hp, hpart⟩ := List.mem_flatMap.mp h
    have hlabel := sizeOf_lt_of_mem_captures p part hpart
    have hpattern : sizeOf p < sizeOf trigger := by
      cases trigger with
      | always => cases hp
      | matching condition =>
        rw [triggerPatterns, List.mem_singleton] at hp
        subst hp
        rw [Trigger.matching.sizeOf_spec]
        omega
      | between opening closing =>
        rw [triggerPatterns, List.mem_pair] at hp
        rw [Trigger.between.sizeOf_spec]
        rcases hp with rfl | rfl <;> omega
    rw [Rule.body.sizeOf_spec]
    omega

/-- What passes from the parts of a rule to the rule holds of every rule. -/
theorem induction_on_parts {motive : Rule → Prop}
    (step : ∀ rule, (∀ part ∈ rule.inner, motive part) → (∀ part ∈ captureRules rule, motive part) →
      motive rule) (rule : Rule) : motive rule := by
  apply step
  · intro part hpart
    have hsize := sizeOf_lt_of_mem_inner hpart
    exact induction_on_parts step part
  · intro part hpart
    have hsize := sizeOf_lt_of_mem_captureRules hpart
    exact induction_on_parts step part
termination_by sizeOf rule

/-! ## Trees from the trees of the parts -/

/-- The fields for the patterns of a trigger, given the trees of rules. -/
def triggerFieldsOf (treeOf : Rule → Value) : Trigger Rule → List (String × Value)
  | .always => []
  | .matching condition =>
    patternFields "match" "captures" condition (condition.captures.map treeOf)
  | .between opening closing =>
    patternFields "begin" "beginCaptures" opening (opening.captures.map treeOf) ++
      patternFields "end" "endCaptures" closing (closing.captures.map treeOf)

section

variable (nameOf? : Rule → Option String)

/-- The element for a rule in a list of rules: a reference if it has a name, and its body otherwise. -/
def elementTree (rule : Rule) : Value :=
  match nameOf? rule with
  | some name => referenceTree name
  | none => bodyTree nameOf? rule

theorem elementTrees_eq_map (rules : List Rule) :
    elementTrees nameOf? rules = rules.map (elementTree nameOf?) := by
  induction rules with
  | nil => rfl
  | cons rule rules ih =>
    rw [elementTrees, ih]
    rfl

theorem triggerFields_eq (trigger : Trigger Rule) :
    triggerFields nameOf? trigger = triggerFieldsOf (bodyTree nameOf?) trigger := by
  cases trigger with
  | always => rfl
  | matching condition => rw [triggerFields, triggerFieldsOf, captureTrees_eq_map]
  | between opening closing =>
    rw [triggerFields, triggerFieldsOf, captureTrees_eq_map, captureTrees_eq_map]

/-- The fields of a body, given the trees of its captured rules and of its inner rules. -/
def bodyFields (treeOf elementOf : Rule → Value) (scope : Option String) (trigger : Trigger Rule)
    (inner : List Rule) : List (String × Value) :=
  scopeField scope ++ (triggerFieldsOf treeOf trigger ++ innerField (inner.map elementOf))

theorem bodyTree_body (id : RuleId) (scope : Option String) (trigger : Trigger Rule)
    (inner : List Rule) :
    bodyTree nameOf? (.body id scope trigger inner) =
      .object (bodyFields (bodyTree nameOf?) (elementTree nameOf?) scope trigger inner) := by
  rw [bodyTree, triggerFields_eq, elementTrees_eq_map, bodyFields]

/-- The fields of a body depend on the trees of its parts only. -/
theorem bodyFields_congr {treeOf treeOf' elementOf elementOf' : Rule → Value} (id : RuleId)
    {scope : Option String} {trigger : Trigger Rule} {inner : List Rule}
    (hcapture : ∀ part ∈ captureRules (.body id scope trigger inner), treeOf part = treeOf' part)
    (hinner : ∀ part ∈ inner, elementOf part = elementOf' part) :
    bodyFields treeOf elementOf scope trigger inner =
      bodyFields treeOf' elementOf' scope trigger inner := by
  have hmap : ∀ p ∈ triggerPatterns trigger, p.captures.map treeOf = p.captures.map treeOf' := by
    intro p hp
    apply List.map_congr_left
    intro part hpart
    exact hcapture part (List.mem_flatMap.mpr ⟨p, hp, hpart⟩)
  have htrigger : triggerFieldsOf treeOf trigger = triggerFieldsOf treeOf' trigger := by
    cases trigger with
    | always => rfl
    | matching condition =>
      rw [triggerFieldsOf, triggerFieldsOf, hmap condition (by simp [triggerPatterns])]
    | between opening closing =>
      rw [triggerFieldsOf, triggerFieldsOf, hmap opening (by simp [triggerPatterns]),
        hmap closing (by simp [triggerPatterns])]
  rw [bodyFields, bodyFields, htrigger, List.map_congr_left hinner]

/-- Whatever a rule is, it is written as an object. -/
theorem exists_bodyTree_eq_object (rule : Rule) : ∃ fields, bodyTree nameOf? rule = .object fields := by
  cases rule with
  | reference id name => exact ⟨_, rfl⟩
  | body id scope trigger inner => exact ⟨_, bodyTree_body nameOf? id scope trigger inner⟩

end

/-! ## Steps from the steps of the parts -/

/-- The steps of the fields for the patterns of a trigger, given the steps of rules. -/
def triggerStepsOf (stepsOf : Rule → List Step) : Trigger Rule → List Step
  | .always => []
  | .matching condition =>
    patternSteps "match" "captures" condition (condition.captures.map stepsOf)
  | .between opening closing =>
    patternSteps "begin" "beginCaptures" opening (opening.captures.map stepsOf) ++
      patternSteps "end" "endCaptures" closing (closing.captures.map stepsOf)

section

variable (repository : Repository)

/-- The steps of a rule in a list of rules: those of a reference if it has a name, and of its body
otherwise. -/
def elementSteps (inCapture : Bool) (rule : Rule) : List Step :=
  match repository.nameOf? rule with
  | some name => referenceSteps name
  | none => inlineSteps inCapture rule ++ bodySteps repository inCapture rule

theorem rulesSteps_eq_flatMap (inCapture : Bool) (rules : List Rule) :
    rulesSteps repository inCapture rules = rules.flatMap (elementSteps repository inCapture) := by
  induction rules with
  | nil => rfl
  | cons rule rules ih =>
    rw [rulesSteps, ih]
    rfl

mutual

theorem captureSteps_eq_map : (p : Pattern Rule) →
    captureSteps repository p = p.captures.map (bodySteps repository true)
  | .capture body rule => by
    rw [captureSteps, Pattern.captures, List.map_cons, captureSteps_eq_map body]
  | .alt ps => captureStepsAll_eq_map ps
  | .seq ps => captureStepsAll_eq_map ps
  | .rep body _ _ => captureSteps_eq_map body
  | .look _ _ body => captureSteps_eq_map body
  | .set _ _ => rfl
  | .range _ _ _ => rfl
  | .any => rfl
  | .literal _ => rfl
  | .lineStart => rfl
  | .lineEnd => rfl

theorem captureStepsAll_eq_map : (ps : List (Pattern Rule)) →
    captureStepsAll repository ps = (Pattern.capturesAll ps).map (bodySteps repository true)
  | [] => rfl
  | p :: ps => by
    rw [captureStepsAll, Pattern.capturesAll, List.map_append, captureSteps_eq_map p,
      captureStepsAll_eq_map ps]

end

theorem triggerSteps_eq (trigger : Trigger Rule) :
    triggerSteps repository trigger = triggerStepsOf (bodySteps repository true) trigger := by
  cases trigger with
  | always => rfl
  | matching condition => rw [triggerSteps, triggerStepsOf, captureSteps_eq_map]
  | between opening closing =>
    rw [triggerSteps, triggerStepsOf, captureSteps_eq_map, captureSteps_eq_map]

theorem bodySteps_body (inCapture : Bool) (id : RuleId) (scope : Option String) (trigger : Trigger Rule)
    (inner : List Rule) :
    bodySteps repository inCapture (.body id scope trigger inner) =
      .call .beginObject :: (scopeSteps scope ++
        (triggerStepsOf (bodySteps repository true) trigger ++
          (innerSteps inner (inner.flatMap (elementSteps repository inCapture)) ++ [.call .endObject]))) := by
  rw [bodySteps, triggerSteps_eq, rulesSteps_eq_flatMap]

end

/-! ## Placements from the placements of the parts -/

section

variable (registered : Rule → Bool)

theorem placedUnder_eq (rule : Rule) : placedUnder registered rule = placedIn registered rule.inner := by
  cases rule with
  | reference id name => rw [placedUnder, Rule.inner, placedIn]
  | body id scope trigger inner => rw [placedUnder, Rule.inner]

theorem placedIn_eq_flatMap (rules : List Rule) :
    placedIn registered rules = rules.flatMap fun rule =>
      if registered rule || rule.isReference then [] else rule.id :: placedUnder registered rule := by
  induction rules with
  | nil => rfl
  | cons rule rules ih => rw [placedIn, ih, List.flatMap_cons]

end

/-! ## The rules of a grammar -/

/-- The rules that occur in a grammar, in whatever place. -/
inductive Occurs (g : Grammar) : Rule → Prop
  | topLevel {rule} : rule ∈ g.topLevel → Occurs g rule
  | entry {entry} : entry ∈ g.repository.entries → Occurs g entry.rule
  | inner {outer rule} : Occurs g outer → rule ∈ outer.inner → Occurs g rule
  | capture {outer rule} : Occurs g outer → rule ∈ captureRules outer → Occurs g rule

/-- Rules that occur in the grammar and have one identity are one rule. -/
def Consistent (g : Grammar) : Prop :=
  ∀ rule rule', Occurs g rule → Occurs g rule' → rule.id = rule'.id → rule = rule'

theorem Expanded.occurs {g : Grammar} {rule : Rule} (h : Expanded g rule) : Occurs g rule := by
  induction h with
  | topLevel hrule _ => exact .topLevel hrule
  | entry hentry => exact .entry hentry
  | inner _ hrule _ ih => exact ih.inner hrule
  | capture _ hrule ih => exact ih.capture hrule

/-- A list of rules with different identities that is closed under parts and holds the rules of the top
level and of the entries makes a grammar consistent. -/
theorem consistent_of_closed {g : Grammar} (rules : List Rule) (hids : (rules.map Rule.id).Nodup)
    (htop : ∀ rule ∈ g.topLevel, rule ∈ rules)
    (hentries : ∀ entry ∈ g.repository.entries, entry.rule ∈ rules)
    (hinner : ∀ rule ∈ rules, ∀ part ∈ rule.inner, part ∈ rules)
    (hcapture : ∀ rule ∈ rules, ∀ part ∈ captureRules rule, part ∈ rules) : Consistent g := by
  have hmem : ∀ rule, Occurs g rule → rule ∈ rules := by
    intro rule h
    induction h with
    | topLevel hrule => exact htop _ hrule
    | entry hentry => exact hentries _ hentry
    | inner _ hrule ih => exact hinner _ ih _ hrule
    | capture _ hrule ih => exact hcapture _ ih _ hrule
  intro rule rule' h h' hid
  exact List.inj_on_of_nodup_map hids (hmem rule h) (hmem rule' h') hid

/-- No part of a rule, however deep, is the rule itself. -/
theorem Consistent.id_ne {g : Grammar} (h : Consistent g) {part rule : Rule} (hpart : Occurs g part)
    (hrule : Occurs g rule) (hsize : sizeOf part < sizeOf rule) : part.id ≠ rule.id := by
  intro hid
  have heq := h part rule hpart hrule hid
  rw [heq] at hsize
  exact absurd hsize (Nat.lt_irrefl _)

end TextMate.Document
