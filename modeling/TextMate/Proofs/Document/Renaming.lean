import TextMate.Proofs.Document.Parts
import TextMate.Proofs.Repository.Mapping

/-!
# Other identities

`Grammar.rename f` puts `f id` in the place of every identity `id` of a grammar: at the top level, in the
repository, in lists of inner rules and in the rules for captured text. Nothing else of a rule changes, so
its patterns keep their texts and its description stays the same.

If `f` takes no rule of the grammar for a registered rule that it is not, `Apart`, then each rule keeps its
name, and the document of the new grammar takes the same steps, with the new identities in them:

    steps_rename : steps (g.rename f) = (steps g).map (Step.rename f)
-/

namespace TextMate

variable {f : RuleId → RuleId}

namespace Rule

/-! ## Rules -/

section

variable (f : RuleId → RuleId)

mutual

/-- The rule with other identities, its own and those of all the rules inside it. -/
def rename : Rule → Rule
  | .reference id name => .reference (f id) name
  | .body id scope trigger inner => .body (f id) scope (renameTrigger trigger) (renameList inner)

def renameList : List Rule → List Rule
  | [] => []
  | rule :: rules => rename rule :: renameList rules

def renameTrigger : Trigger Rule → Trigger Rule
  | .always => .always
  | .matching condition => .matching (renamePattern condition)
  | .between opening closing => .between (renamePattern opening) (renamePattern closing)

def renamePattern : Pattern Rule → Pattern Rule
  | .set polarity members => .set polarity members
  | .range polarity first last => .range polarity first last
  | .any => .any
  | .literal text => .literal text
  | .lineStart => .lineStart
  | .lineEnd => .lineEnd
  | .alt ps => .alt (renamePatterns ps)
  | .seq ps => .seq (renamePatterns ps)
  | .rep p min max => .rep (renamePattern p) min max
  | .look side polarity p => .look side polarity (renamePattern p)
  | .capture p rule => .capture (renamePattern p) (rename rule)

def renamePatterns : List (Pattern Rule) → List (Pattern Rule)
  | [] => []
  | p :: ps => renamePattern p :: renamePatterns ps

end

end

@[simp] theorem id_rename (rule : Rule) : (rule.rename f).id = f rule.id := by
  cases rule <;> simp [rename, id]

@[simp] theorem isReference_rename (rule : Rule) : (rule.rename f).isReference = rule.isReference := by
  cases rule <;> simp [rename, isReference]

theorem renameList_eq_map (rules : List Rule) : renameList f rules = rules.map (rename f) := by
  induction rules with
  | nil => rfl
  | cons rule rules ih => rw [renameList, ih, List.map_cons]

/-- A description knows nothing of identities. -/
theorem describe_rename (rule : Rule) : (rule.rename f).describe = rule.describe := by
  cases rule with
  | reference id name => rfl
  | body id scope trigger inner => cases trigger <;> rfl

/-! ## Patterns -/

mutual

theorem captures_renamePattern : (p : Pattern Rule) →
    (renamePattern f p).captures = p.captures.map (rename f)
  | .capture p rule => by
    rw [renamePattern, Pattern.captures, Pattern.captures, captures_renamePattern p, List.map_cons]
  | .alt ps => capturesAll_renamePatterns ps
  | .seq ps => capturesAll_renamePatterns ps
  | .rep p _ _ => captures_renamePattern p
  | .look _ _ p => captures_renamePattern p
  | .set _ _ => rfl
  | .range _ _ _ => rfl
  | .any => rfl
  | .literal _ => rfl
  | .lineStart => rfl
  | .lineEnd => rfl

theorem capturesAll_renamePatterns : (ps : List (Pattern Rule)) →
    Pattern.capturesAll (renamePatterns f ps) = (Pattern.capturesAll ps).map (rename f)
  | [] => rfl
  | p :: ps => by
    rw [renamePatterns, Pattern.capturesAll, Pattern.capturesAll, captures_renamePattern p,
      capturesAll_renamePatterns ps, List.map_append]

end

mutual

/-- Whether a pattern is a class does not depend on the labels of its captures. -/
theorem charClass?_renamePattern : (p : Pattern Rule) → (renamePattern f p).charClass? = p.charClass?
  | .alt ps => mergedClass?_renamePatterns ps
  | .set _ _ => rfl
  | .range _ _ _ => rfl
  | .any => rfl
  | .literal _ => rfl
  | .lineStart => rfl
  | .lineEnd => rfl
  | .seq _ => rfl
  | .rep _ _ _ => rfl
  | .look _ _ _ => rfl
  | .capture _ _ => rfl

theorem mergedClass?_renamePatterns : (ps : List (Pattern Rule)) →
    Pattern.mergedClass? (renamePatterns f ps) = Pattern.mergedClass? ps
  | [] => rfl
  | [p] => charClass?_renamePattern p
  | p :: q :: ps => by
    have hrest := mergedClass?_renamePatterns (q :: ps)
    rw [renamePatterns] at hrest
    rw [renamePatterns, renamePatterns, Pattern.mergedClass?, Pattern.mergedClass?,
      charClass?_renamePattern p, hrest]

end

theorem isSeq_renamePattern (p : Pattern Rule) : (renamePattern f p).isSeq = p.isSeq := by
  cases p <;> rfl

theorem isOpenAlt_renamePattern (p : Pattern Rule) : (renamePattern f p).isOpenAlt = p.isOpenAlt := by
  cases p with
  | alt ps => rw [renamePattern, Pattern.isOpenAlt, Pattern.isOpenAlt, mergedClass?_renamePatterns]
  | set | range | any | literal | lineStart | lineEnd | seq | rep | look | capture => rfl

theorem isLooseOperand_renamePattern (p : Pattern Rule) :
    (renamePattern f p).isLooseOperand = p.isLooseOperand := by
  have hseq := isSeq_renamePattern (f := f) p
  have halt := isOpenAlt_renamePattern (f := f) p
  cases p with
  | alt ps => exact congrArg₂ or hseq halt
  | set | range | any | literal | lineStart | lineEnd | seq | rep | look | capture => rfl

mutual

theorem text_renamePattern : (p : Pattern Rule) → (renamePattern f p).text = p.text
  | .alt ps => by
    rw [renamePattern, Pattern.text, Pattern.text, mergedClass?_renamePatterns,
      alternativesText_renamePatterns ps]
  | .seq ps => membersText_renamePatterns ps
  | .rep p min max => by
    rw [renamePattern, Pattern.text, Pattern.text, isLooseOperand_renamePattern, text_renamePattern p]
  | .look side polarity p => by
    rw [renamePattern, Pattern.text, Pattern.text, text_renamePattern p]
  | .capture p rule => by
    rw [renamePattern, Pattern.text, Pattern.text, text_renamePattern p]
  | .set _ _ => rfl
  | .range _ _ _ => rfl
  | .any => rfl
  | .literal _ => rfl
  | .lineStart => rfl
  | .lineEnd => rfl

theorem alternativesText_renamePatterns : (ps : List (Pattern Rule)) →
    Pattern.alternativesText (renamePatterns f ps) = Pattern.alternativesText ps
  | [] => rfl
  | [p] => by
    rw [renamePatterns, renamePatterns, Pattern.alternativesText, Pattern.alternativesText,
      isSeq_renamePattern, text_renamePattern p]
  | p :: q :: ps => by
    have hrest := alternativesText_renamePatterns (q :: ps)
    rw [renamePatterns] at hrest
    rw [renamePatterns, renamePatterns, Pattern.alternativesText, Pattern.alternativesText,
      isSeq_renamePattern, text_renamePattern p, hrest]

theorem membersText_renamePatterns : (ps : List (Pattern Rule)) →
    Pattern.membersText (renamePatterns f ps) = Pattern.membersText ps
  | [] => rfl
  | p :: ps => by
    rw [renamePatterns, Pattern.membersText, Pattern.membersText, isOpenAlt_renamePattern,
      text_renamePattern p, membersText_renamePatterns ps]

end

/-- The labels of captures leave no trace in the text of a pattern. -/
theorem regex_renamePattern (p : Pattern Rule) : (renamePattern f p).regex = p.regex := by
  apply String.toList_injective
  rw [Pattern.toList_regex, Pattern.toList_regex, text_renamePattern]

end Rule

/-! ## Grammars -/

/-- The grammar with other identities. -/
def Grammar.rename (f : RuleId → RuleId) (g : Grammar) : Grammar :=
  { g with topLevel := g.topLevel.map (Rule.rename f), repository := g.repository.mapRules (Rule.rename f) }

namespace Document

open Repository

variable {g : Grammar}

/-- No rule of the grammar gets the identity of a registered rule, unless it is that rule. -/
def Apart (f : RuleId → RuleId) (g : Grammar) : Prop :=
  ∀ entry ∈ g.repository.entries, ∀ rule, Occurs g rule → f entry.rule.id = f rule.id →
    entry.rule.id = rule.id

/-- Registered rules stay apart, so registration builds the new repository as well. -/
theorem Apart.reachable_rename (hf : Apart f g) (hg : g.repository.Reachable) :
    (g.rename f).repository.Reachable := by
  apply hg.mapRules
  refine ⟨?_, ?_⟩
  · intro entry hentry
    rw [Rule.isReference_rename]
    exact hg.coherent.not_reference entry hentry
  · intro entry hentry entry' hentry' hid
    rw [Rule.id_rename, Rule.id_rename] at hid
    exact hf entry hentry entry'.rule (.entry hentry') hid

theorem Apart.contains_rename (hf : Apart f g) (hg : g.repository.Reachable) (name : String) :
    (g.rename f).repository.contains name = g.repository.contains name :=
  contains_mapRules hg (hf.reachable_rename hg) name

/-- Each rule keeps its name. -/
theorem Apart.nameOf?_rename (hf : Apart f g) (hg : g.repository.Reachable) {rule : Rule}
    (hrule : Occurs g rule) :
    (g.rename f).repository.nameOf? (rule.rename f) = g.repository.nameOf? rule := by
  apply nameOf?_mapRules hg (hf.reachable_rename hg)
  intro entry hentry
  rw [Rule.id_rename, Rule.id_rename]
  exact ⟨hf entry hentry rule hrule, congrArg f⟩

/-! ## Steps -/

/-- The step with other identities. -/
def Step.rename (f : RuleId → RuleId) : Step → Step
  | .call c => .call c
  | .regex pattern => .regex (Rule.renamePattern f pattern)
  | .inline rule => .inline (rule.rename f)
  | .resolve rule name => .resolve (rule.rename f) name
  | .note event => .note event

@[simp] theorem Step.calls_rename (step : Step) : (step.rename f).calls = step.calls := by
  cases step with
  | regex pattern => rw [rename, calls, calls, Rule.regex_renamePattern]
  | call | inline | resolve | note => rfl

@[simp] theorem Step.notes_rename (step : Step) : (step.rename f).notes = step.notes := by
  cases step <;> rfl

theorem callsOf_rename (steps : List Step) : callsOf (steps.map (Step.rename f)) = callsOf steps := by
  simp [callsOf, List.flatMap_map]

theorem notes_rename (steps : List Step) :
    (steps.map (Step.rename f)).flatMap Step.notes = steps.flatMap Step.notes := by
  simp [List.flatMap_map]

theorem numberedSteps_rename (number : Nat) (values : List (List Step)) :
    numberedSteps number (values.map (List.map (Step.rename f))) =
      (numberedSteps number values).map (Step.rename f) := by
  induction values generalizing number with
  | nil => rfl
  | cons value values ih => simp [numberedSteps, ih, Step.rename]

theorem patternSteps_rename (key capturesKey : String) (pattern : Pattern Rule)
    (captures : List (List Step)) :
    patternSteps key capturesKey (Rule.renamePattern f pattern)
        (captures.map (List.map (Step.rename f))) =
      (patternSteps key capturesKey pattern captures).map (Step.rename f) := by
  have hnumbered := numberedSteps_rename (f := f) 1 captures
  cases captures with
  | nil => rfl
  | cons capture captures =>
    rw [List.map_cons] at hnumbered
    simp [patternSteps, capturesSteps, hnumbered, Step.rename]

/-- The steps for a trigger change with those for the rules of its captured text. -/
theorem triggerStepsOf_rename {stepsOf stepsOf' : Rule → List Step} {trigger : Trigger Rule}
    (h : ∀ p ∈ triggerPatterns trigger, ∀ rule ∈ p.captures,
      stepsOf' (rule.rename f) = (stepsOf rule).map (Step.rename f)) :
    triggerStepsOf stepsOf' (Rule.renameTrigger f trigger) =
      (triggerStepsOf stepsOf trigger).map (Step.rename f) := by
  have hpattern : ∀ p ∈ triggerPatterns trigger, ∀ key capturesKey,
      patternSteps key capturesKey (Rule.renamePattern f p)
          ((Rule.renamePattern f p).captures.map stepsOf') =
        (patternSteps key capturesKey p (p.captures.map stepsOf)).map (Step.rename f) := by
    intro p hp key capturesKey
    have hsteps : p.captures.map (stepsOf' ∘ Rule.rename f) =
        p.captures.map (List.map (Step.rename f) ∘ stepsOf) := List.map_congr_left (h p hp)
    rw [← patternSteps_rename, Rule.captures_renamePattern, List.map_map, List.map_map, hsteps]
  cases trigger with
  | always => rfl
  | matching condition => exact hpattern condition (by simp [triggerPatterns]) _ _
  | between opening closing =>
    rw [Rule.renameTrigger, triggerStepsOf, triggerStepsOf, List.map_append,
      hpattern opening (by simp [triggerPatterns]), hpattern closing (by simp [triggerPatterns])]

theorem scopeSteps_rename (scope : Option String) :
    (scopeSteps scope).map (Step.rename f) = scopeSteps scope := by
  cases scope <;> rfl

theorem inlineSteps_rename (inCapture : Bool) (rule : Rule) :
    inlineSteps inCapture (rule.rename f) = (inlineSteps inCapture rule).map (Step.rename f) := by
  rw [inlineSteps, inlineSteps, Rule.isReference_rename]
  split <;> rfl

theorem innerSteps_rename (inner : List Rule) (elements : List Step) :
    innerSteps (inner.map (Rule.rename f)) (elements.map (Step.rename f)) =
      (innerSteps inner elements).map (Step.rename f) := by
  cases inner with
  | nil => rfl
  | cons rule rules => simp [innerSteps, Step.rename]

section

variable (hf : Apart f g) (hg : g.repository.Reachable)

include hf hg

theorem elementSteps_rename {inCapture : Bool} {rule : Rule} (hrule : Occurs g rule)
    (hbody : bodySteps (g.rename f).repository inCapture (rule.rename f) =
      (bodySteps g.repository inCapture rule).map (Step.rename f)) :
    elementSteps (g.rename f).repository inCapture (rule.rename f) =
      (elementSteps g.repository inCapture rule).map (Step.rename f) := by
  rw [elementSteps, elementSteps, hf.nameOf?_rename hg hrule]
  cases g.repository.nameOf? rule with
  | some name => rfl
  | none => simp only [hbody, inlineSteps_rename, List.map_append]

theorem bodySteps_rename (inCapture : Bool) (rule : Rule) (hrule : Occurs g rule) :
    bodySteps (g.rename f).repository inCapture (rule.rename f) =
      (bodySteps g.repository inCapture rule).map (Step.rename f) := by
  -- parts of rules that occur occur
  induction rule using induction_on_parts generalizing inCapture with
  | step rule ihinner ihcapture =>
    cases rule with
    | reference id name => rfl
    | body id scope trigger inner =>
      have htrigger : triggerStepsOf (bodySteps (g.rename f).repository true)
          (Rule.renameTrigger f trigger) =
          (triggerStepsOf (bodySteps g.repository true) trigger).map (Step.rename f) := by
        apply triggerStepsOf_rename
        intro p hp part hpart
        have hmem : part ∈ captureRules (.body id scope trigger inner) :=
          List.mem_flatMap.mpr ⟨p, hp, hpart⟩
        exact ihcapture part hmem true (hrule.capture hmem)
      have helements : (inner.map (Rule.rename f)).flatMap
          (elementSteps (g.rename f).repository inCapture) =
          (inner.flatMap (elementSteps g.repository inCapture)).map (Step.rename f) := by
        rw [List.flatMap_map, List.map_flatMap]
        apply List.flatMap_congr
        intro part hpart
        have hoccurs : Occurs g part := hrule.inner hpart
        exact elementSteps_rename hf hg hoccurs (ihinner part hpart inCapture hoccurs)
      rw [Rule.rename, bodySteps_body, bodySteps_body, Rule.renameList_eq_map, htrigger, helements,
        innerSteps_rename]
      simp [scopeSteps_rename, Step.rename]

theorem rulesSteps_rename (inCapture : Bool) {rules : List Rule} (hrules : ∀ rule ∈ rules, Occurs g rule) :
    rulesSteps (g.rename f).repository inCapture (rules.map (Rule.rename f)) =
      (rulesSteps g.repository inCapture rules).map (Step.rename f) := by
  rw [rulesSteps_eq_flatMap, rulesSteps_eq_flatMap, List.flatMap_map, List.map_flatMap]
  apply List.flatMap_congr
  intro rule hrule
  exact elementSteps_rename hf hg (hrules rule hrule) (bodySteps_rename hf hg _ rule (hrules rule hrule))

theorem entriesSteps_rename (entries : List Entry) (hentries : ∀ entry ∈ entries, Occurs g entry.rule) :
    entriesSteps (g.rename f).repository (entries.map (mapEntry (Rule.rename f))) =
      (entriesSteps g.repository entries).map (Step.rename f) := by
  induction entries with
  | nil => rfl
  | cons entry entries ih =>
    obtain ⟨hentry, hrest⟩ := List.forall_mem_cons.mp hentries
    rw [List.map_cons, entriesSteps, entriesSteps, ih hrest, mapEntry,
      bodySteps_rename hf hg _ _ hentry]
    simp [Step.rename]

/-- The document of the grammar with other identities takes the same steps. -/
theorem steps_rename : steps (g.rename f) = (steps g).map (Step.rename f) := by
  have htop := rulesSteps_rename hf hg false fun rule hrule => Occurs.topLevel hrule
  have hentries := entriesSteps_rename hf hg g.repository.entries.toList
    fun entry hentry => Occurs.entry (Array.mem_toList_iff.mp hentry)
  rw [← entries_mapRules] at hentries
  simp only [steps, List.map_cons, List.map_append, List.map_nil, ← htop, ← hentries]
  rfl

end

end Document

end TextMate
