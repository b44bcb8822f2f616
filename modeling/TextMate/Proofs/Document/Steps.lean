import TextMate.Document.Compile
import TextMate.Proofs.Json.Writing
import TextMate.Proofs.Pattern.Text

/-!
# The steps of a document as a list

The walk over a grammar is generic in the monad of its action. Here its steps are listed, by the same
recursion and without a monad, and the walk is shown to carry them out in order:

    forStepsM_eq_forM : forStepsM act g = forM (steps g) act

Compiling a grammar is then a run over a list, `compile_eq_run`, and what holds of every run can be proved
by induction on the list. A run does two things that know nothing of each other: it makes calls on the
writer, and it checks that every rule can be placed. `run_eq_check` takes them apart.
-/

namespace TextMate.Document

/-! ## The list of steps -/

/-- The steps of a reference to a repository entry. -/
def referenceSteps (name : String) : List Step :=
  [.note (.including name), .call .beginObject, .call (.key "include"), .call (.string ["#", name]),
    .call .endObject]

/-- The steps of numbered fields, given those of their values. -/
def numberedSteps : (number : Nat) → (values : List (List Step)) → List Step
  | _, [] => []
  | number, value :: values =>
    .call (.key (toString number)) :: (value ++ numberedSteps (number + 1) values)

/-- The steps of a field that is an object, unless it would be empty. -/
def capturesSteps (key : String) (captures : List (List Step)) : List Step :=
  if captures.isEmpty then []
  else
    .call (.key key) :: .call .beginObject :: (numberedSteps 1 captures ++ [.call .endObject])

/-- The steps of a field for a pattern and of a field for its captures. -/
def patternSteps (key capturesKey : String) (pattern : Pattern Rule) (captures : List (List Step)) :
    List Step :=
  .call (.key key) :: .regex pattern :: capturesSteps capturesKey captures

/-- The steps of the field for a scope. -/
def scopeSteps : Option String → List Step
  | some scope => [.call (.field "name" scope)]
  | none => []

/-- The steps of the field for inner rules, given those of its elements. -/
def innerSteps (inner : List Rule) (elements : List Step) : List Step :=
  if inner.isEmpty then []
  else .call (.key "patterns") :: .call .beginArray :: (elements ++ [.call .endArray])

/-- The step before the body of a rule without a name. -/
def inlineSteps (inCapture : Bool) (rule : Rule) : List Step :=
  if inCapture || rule.isReference then [] else [.inline rule]

section

variable (repository : Repository)

mutual

/-- The steps of the full text of a rule. -/
def bodySteps (inCapture : Bool) : Rule → List Step
  | .reference id name => .resolve (.reference id name) name :: referenceSteps name
  | .body _ scope trigger inner =>
    .call .beginObject :: (scopeSteps scope ++ (triggerSteps trigger ++
      (innerSteps inner (rulesSteps inCapture inner) ++ [.call .endObject])))

/-- The steps of the elements of a list of rules. -/
def rulesSteps (inCapture : Bool) : List Rule → List Step
  | [] => []
  | rule :: rules =>
    (match repository.nameOf? rule with
      | some name => referenceSteps name
      | none => inlineSteps inCapture rule ++ bodySteps inCapture rule) ++ rulesSteps inCapture rules

/-- The steps of the fields for the patterns of a trigger. -/
def triggerSteps : Trigger Rule → List Step
  | .always => []
  | .matching condition => patternSteps "match" "captures" condition (captureSteps condition)
  | .between opening closing =>
    patternSteps "begin" "beginCaptures" opening (captureSteps opening) ++
      patternSteps "end" "endCaptures" closing (captureSteps closing)

/-- For each capture of a pattern the steps of its rule. -/
def captureSteps : Pattern Rule → List (List Step)
  | .capture body rule => bodySteps true rule :: captureSteps body
  | .alt ps | .seq ps => captureStepsAll ps
  | .rep body _ _ | .look _ _ body => captureSteps body
  | .set _ _ | .range _ _ _ | .any | .literal _ | .lineStart | .lineEnd => []

/-- For each capture of several patterns the steps of its rule. -/
def captureStepsAll : List (Pattern Rule) → List (List Step)
  | [] => []
  | p :: ps => captureSteps p ++ captureStepsAll ps

end

/-- The steps of the fields for the entries of a repository. -/
def entriesSteps : List Entry → List Step
  | [] => []
  | entry :: entries =>
    .note (.defining entry.name) :: .call (.key entry.name) ::
      (bodySteps repository false entry.rule ++ entriesSteps entries)

end

/-- The steps of the document of a grammar. -/
def steps (g : Grammar) : List Step :=
  .call .beginObject ::
    ([.call (.field "name" g.name), .call (.field "scopeName" g.scopeName)] ++
      ((.call (.key "patterns") :: .call .beginArray ::
          (rulesSteps g.repository false g.topLevel ++ [.call .endArray])) ++
        ((.call (.key "repository") :: .call .beginObject ::
            (entriesSteps g.repository g.repository.entries.toList ++ [.call .endObject])) ++
          [.call .endObject])))

/-! ## The walk carries out the steps -/

section

variable {m : Type → Type} [Monad m] [LawfulMonad m] (repository : Repository) (act : Step → m Unit)

theorem forReferenceM_eq_forM (name : String) :
    forReferenceM act name = forM (referenceSteps name) act := by
  simp [forReferenceM, referenceSteps]

theorem forNumberedM_eq_forM (number : Nat) (values : List (List Step)) :
    forNumberedM act number (values.map (forM · act)) = forM (numberedSteps number values) act := by
  induction values generalizing number with
  | nil => simp [forNumberedM, numberedSteps]
  | cons value values ih => simp [forNumberedM, numberedSteps, ih]

theorem forPatternM_eq_forM (key capturesKey : String) (pattern : Pattern Rule)
    (captures : List (List Step)) :
    forPatternM act key capturesKey pattern (captures.map (forM · act)) =
      forM (patternSteps key capturesKey pattern captures) act := by
  cases captures with
  | nil => simp [forPatternM, patternSteps, capturesSteps]
  | cons capture captures =>
    have hnumbered := forNumberedM_eq_forM act 1 (capture :: captures)
    rw [List.map_cons] at hnumbered
    simp [forPatternM, patternSteps, capturesSteps, hnumbered]

set_option linter.unusedSectionVars false in
mutual

theorem forBodyM_eq_forM : (inCapture : Bool) → (rule : Rule) →
    forBodyM repository act inCapture rule = forM (bodySteps repository inCapture rule) act
  | inCapture, .reference id name => by
    simp [forBodyM, bodySteps, forReferenceM_eq_forM]
  | inCapture, .body id scope trigger inner => by
    have htrigger := forTriggerM_eq_forM trigger
    have hinner := forRulesM_eq_forM inCapture inner
    cases scope <;> cases inner <;>
      simp_all [forBodyM, bodySteps, scopeSteps, innerSteps]

theorem forRulesM_eq_forM : (inCapture : Bool) → (rules : List Rule) →
    forRulesM repository act inCapture rules = forM (rulesSteps repository inCapture rules) act
  | inCapture, [] => by simp [forRulesM, rulesSteps]
  | inCapture, rule :: rules => by
    have hbody := forBodyM_eq_forM inCapture rule
    have hrules := forRulesM_eq_forM inCapture rules
    rw [forRulesM, rulesSteps, hbody, hrules]
    cases repository.nameOf? rule with
    | some name => simp [forReferenceM_eq_forM]
    | none =>
      cases h : inCapture || rule.isReference with
      | true => simp [inlineSteps, h]
      | false => simp [inlineSteps, h]

theorem forTriggerM_eq_forM : (trigger : Trigger Rule) →
    forTriggerM repository act trigger = forM (triggerSteps repository trigger) act
  | .always => by simp [forTriggerM, triggerSteps]
  | .matching condition => by
    rw [forTriggerM, triggerSteps, capturesM_eq_map condition, forPatternM_eq_forM]
  | .between opening closing => by
    rw [forTriggerM, triggerSteps, capturesM_eq_map opening, capturesM_eq_map closing,
      forPatternM_eq_forM, forPatternM_eq_forM, List.forM_append]

theorem capturesM_eq_map : (p : Pattern Rule) →
    capturesM repository act p = (captureSteps repository p).map (forM · act)
  | .capture body rule => by
    simp [capturesM, captureSteps, forBodyM_eq_forM true rule, capturesM_eq_map body]
  | .alt ps => capturesAllM_eq_map ps
  | .seq ps => capturesAllM_eq_map ps
  | .rep body _ _ => capturesM_eq_map body
  | .look _ _ body => capturesM_eq_map body
  | .set _ _ => rfl
  | .range _ _ _ => rfl
  | .any => rfl
  | .literal _ => rfl
  | .lineStart => rfl
  | .lineEnd => rfl

theorem capturesAllM_eq_map : (ps : List (Pattern Rule)) →
    capturesAllM repository act ps = (captureStepsAll repository ps).map (forM · act)
  | [] => rfl
  | p :: ps => by
    simp [capturesAllM, captureStepsAll, capturesM_eq_map p, capturesAllM_eq_map ps]

end

theorem forEntriesM_eq_forM (entries : List Entry) :
    forEntriesM repository act entries = forM (entriesSteps repository entries) act := by
  induction entries with
  | nil => simp [forEntriesM, entriesSteps]
  | cons entry entries ih => simp [forEntriesM, entriesSteps, forBodyM_eq_forM, ih]

/-- The walk over a grammar carries out its steps in order. -/
theorem forStepsM_eq_forM (g : Grammar) : forStepsM act g = forM (steps g) act := by
  simp [forStepsM, steps, forRulesM_eq_forM, forEntriesM_eq_forM]

end

/-! ## Runs -/

/-- Carry out steps until one of them fails. -/
def Progress.run (repository : Repository) : List Step → Progress → Except Failure Progress
  | [], progress => .ok progress
  | step :: steps, progress =>
    match progress.perform repository step with
    | .ok ((), next) => run repository steps next
    | .error failure => .error failure

theorem forM_perform_eq_run (repository : Repository) (steps : List Step) (progress : Progress) :
    (forM steps (Progress.perform repository) : StateT Progress (Except Failure) Unit) progress =
      (progress.run repository steps).map ((), ·) := by
  induction steps generalizing progress with
  | nil => rfl
  | cons step steps ih =>
    rw [List.forM_cons, Progress.run]
    change (progress.perform repository step >>= fun next =>
      (forM steps (Progress.perform repository) : StateT Progress (Except Failure) Unit) next.2) = _
    cases progress.perform repository step with
    | error failure => rfl
    | ok next => exact ih next.2

/-- The state in which compilation starts. -/
def Progress.start (g : Grammar) : Progress :=
  { journal := #[.started g.name g.topLevel.length g.repository.size] }

/-- Compiling a grammar is carrying out its steps and taking the text. -/
theorem compile_eq_run (g : Grammar) :
    g.compile = (Progress.start g).run g.repository (steps g) >>= fun progress =>
      match progress.writer.finish with
      | .ok text => .ok ⟨text, progress.journal.push (.finished g.name text.utf8ByteSize)⟩
      | .error cause => .error ⟨.misuse cause, progress.journal⟩ := by
  have hwalk :=
    forStepsM_eq_forM (m := StateT Progress (Except Failure)) (Progress.perform g.repository) g
  have hrun := forM_perform_eq_run g.repository (steps g) (Progress.start g)
  rw [Grammar.compile, hwalk]
  rw [Progress.start] at hrun ⊢
  rw [hrun]
  cases Progress.run g.repository (steps g) _ <;> rfl

/-! ## Calls and checks -/

namespace Step

/-- What a step asks of the writer. -/
def calls : Step → List Json.Call
  | .call c => [c]
  | .regex pattern => [.string [pattern.regex]]
  | .inline _ | .resolve _ _ | .note _ => []

/-- The rule that a step cannot place, given the rules whose bodies stand in lists already. -/
def blocked? (repository : Repository) (inlined : List RuleId) : Step → Option Rule
  | .inline rule => if inlined.contains rule.id then some rule else none
  | .resolve rule name => if repository.contains name then none else some rule
  | .call _ | .regex _ | .note _ => none

/-- The rule whose body a step places in a list. -/
def inlines : Step → List RuleId
  | .inline rule => [rule.id]
  | .call _ | .regex _ | .resolve _ _ | .note _ => []

/-- What a step puts in the journal. -/
def notes : Step → List Event
  | .note event => [event]
  | .call _ | .regex _ | .inline _ | .resolve _ _ => []

end Step

/-- The checks of some steps, without the writer: the rules placed so far and the journal, or the failure
at the first rule that cannot be placed. -/
def check (repository : Repository) :
    List Step → List RuleId → Array Event → Except Failure (List RuleId × Array Event)
  | [], inlined, journal => .ok (inlined, journal)
  | step :: steps, inlined, journal =>
    match step.blocked? repository inlined with
    | some rule => .error ⟨.unnamed rule.describe, journal⟩
    | none => check repository steps (step.inlines ++ inlined) (journal ++ step.notes.toArray)

/-- The text of a pattern is streamed into the document as one string. -/
theorem close_writeRegex (w : Json.Writer) (pattern : Pattern Rule) :
    (pattern.writeRegex (⟨w.beginString, #[]⟩ : Regex.Output _ Rule)).sink.close =
      w.string [pattern.regex] := by
  rw [Pattern.writeRegex_eq_add, Json.Writer.string, List.foldl_cons, List.foldl_nil,
    LawfulSink.append_eq_foldl, Pattern.toList_regex]
  rfl

/-- Everything that one step does: it checks that its rule can be placed, makes its calls, remembers the
rule and writes to the journal. -/
theorem perform_eq (repository : Repository) (step : Step) (w : Json.Writer)
    (inlined : List RuleId) (journal : Array Event) :
    Progress.perform repository step ⟨w, inlined, journal⟩ =
      match step.blocked? repository inlined with
      | some rule => .error ⟨.unnamed rule.describe, journal⟩
      | none =>
        match w.performAll step.calls with
        | .ok w => .ok ((), ⟨w, step.inlines ++ inlined, journal ++ step.notes.toArray⟩)
        | .error cause => .error ⟨.misuse cause, journal⟩ := by
  cases step with
  | call call =>
    simp only [Progress.perform, Step.blocked?, Step.calls]
    cases h : w.perform call with
    | ok next => simp [Json.Writer.performAll_cons h, Step.inlines, Step.notes]
    | error cause => simp [Json.Writer.performAll, h]
  | regex pattern =>
    simp [Progress.perform, Step.blocked?, Step.calls, close_writeRegex, Json.Writer.performAll,
      Json.Writer.perform, Step.inlines, Step.notes]
  | inline rule =>
    simp only [Progress.perform, Step.blocked?, Step.calls, Json.Writer.performAll_nil]
    split <;> simp [Step.inlines, Step.notes]
  | resolve rule name =>
    simp only [Progress.perform, Step.blocked?, Step.calls, Json.Writer.performAll_nil]
    split <;> simp [Step.inlines, Step.notes]
  | note event =>
    simp [Progress.perform, Step.blocked?, Step.calls, Step.inlines, Step.notes]

/-- If the writer accepts all the calls, a run succeeds or fails as its checks do. -/
theorem run_eq_check (repository : Repository) {steps : List Step} {w w' : Json.Writer}
    (h : w.performAll (steps.flatMap Step.calls) = .ok w') (inlined : List RuleId)
    (journal : Array Event) :
    Progress.run repository steps ⟨w, inlined, journal⟩ =
      (check repository steps inlined journal).map fun (inlined, journal) =>
        ⟨w', inlined, journal⟩ := by
  induction steps generalizing w inlined journal with
  | nil =>
    cases h
    rfl
  | cons step steps ih =>
    rw [Progress.run, perform_eq, check]
    cases step.blocked? repository inlined with
    | some rule => rfl
    | none =>
      rw [List.flatMap_cons] at h
      cases hstep : w.performAll step.calls with
      | error cause =>
        rw [Json.Writer.performAll] at h hstep
        rw [List.foldlM_append, hstep] at h
        cases h
      | ok next =>
        rw [Json.Writer.performAll_append hstep] at h
        exact ih h _ _

end TextMate.Document
