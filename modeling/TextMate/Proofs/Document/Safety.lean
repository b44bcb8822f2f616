import TextMate.Pattern.Checked
import TextMate.Proofs.Document.Tree
import TextMate.Proofs.Pattern.Survey
import TextMate.Proofs.Repository.Runs

/-!
# Nothing goes wrong on the way

Besides a rule that cannot be placed, three things could go wrong while a document is written. The writer
could be used against its rules, a bracket could be opened for an alternation that is not a class, and a
place in an index of the repository could lie behind its last entry.

`compileGuarded` compiles a grammar with the first two kept apart from failures, as faults: it surveys
alternations and emits patterns with `Pattern.emitRegex`, and it ends at the first misuse of the writer.
`compile_never_faults` says that it never ends so, whatever the patterns of the grammar are, and that every
place in an index is the place of an entry.
-/

namespace TextMate.Document

open Regex

/-! ## Faults -/

/-- What could go wrong although every rule can be placed. -/
inductive Fault where
  /-- The writer was used against its rules. -/
  | misuse (cause : Json.Misuse)
  /-- The pattern was to be a member of a bracket, and is not a class. -/
  | notClass (pattern : Pattern Rule)

/-- Carry out one step. A fault is not a failure. -/
def Progress.performGuarded (repository : Repository) (step : Step) (progress : Progress) :
    Except Fault (Except Failure (Unit × Progress)) :=
  match step with
  | .call call =>
    match progress.writer.perform call with
    | .ok writer => .ok (.ok ((), { progress with writer }))
    | .error cause => .error (.misuse cause)
  | .regex pattern =>
    match pattern.emitRegex (⟨progress.writer.beginString, #[]⟩ : Output _ Rule) with
    | .ok out => .ok (.ok ((), { progress with writer := out.sink.close }))
    | .error member => .error (.notClass member)
  | .inline _ | .resolve _ _ | .note _ => .ok (progress.perform repository step)

/-- Compile a grammar, with faults kept apart from failures. -/
def compileGuarded (g : Grammar) : Except Fault (Except Failure Document) := do
  let act : Step → StateT Progress (ExceptT Failure (Except Fault)) Unit :=
    Progress.performGuarded g.repository
  match ← forStepsM act g (Progress.start g) with
  | .error failure => return .error failure
  | .ok ((), progress) =>
    match progress.writer.finish with
    | .ok text => return .ok ⟨text, progress.journal.push (.finished g.name text.utf8ByteSize)⟩
    | .error cause => throw (.misuse cause)

/-! ## Guarded and unguarded runs -/

/-- A misuse of the writer is a fault. -/
def faultOfMisuse {α : Type} : Except Failure α → Except Fault (Except Failure α)
  | .ok result => .ok (.ok result)
  | .error ⟨.unnamed rule, journal⟩ => .ok (.error ⟨.unnamed rule, journal⟩)
  | .error ⟨.misuse cause, _⟩ => .error (.misuse cause)

theorem performGuarded_eq (repository : Repository) (step : Step) (progress : Progress) :
    progress.performGuarded repository step = faultOfMisuse (progress.perform repository step) := by
  cases step with
  | call call =>
    rw [Progress.performGuarded, Progress.perform]
    cases progress.writer.perform call <;> rfl
  | regex pattern =>
    -- emission does not fail
    rw [Progress.performGuarded, Pattern.emitRegex_eq_ok]
    rfl
  | inline rule =>
    simp only [Progress.performGuarded, Progress.perform]
    split <;> rfl
  | resolve rule name =>
    simp only [Progress.performGuarded, Progress.perform]
    split <;> rfl
  | note event => rfl

theorem forM_performGuarded_eq (repository : Repository) (steps : List Step) (progress : Progress) :
    (forM steps (Progress.performGuarded repository) :
      StateT Progress (ExceptT Failure (Except Fault)) Unit) progress =
      faultOfMisuse ((progress.run repository steps).map ((), ·)) := by
  induction steps generalizing progress with
  | nil => rfl
  | cons step steps ih =>
    rw [List.forM_cons, Progress.run]
    change (progress.performGuarded repository step >>= fun outcome =>
      ExceptT.bindCont (fun next => (forM steps (Progress.performGuarded repository) :
        StateT Progress (ExceptT Failure (Except Fault)) Unit) next.2) outcome) = _
    rw [performGuarded_eq]
    cases progress.perform repository step with
    | ok next => exact ih next.2
    | error failure =>
      obtain ⟨error, journal⟩ := failure
      cases error <;> rfl

/-- The guarded compilation is the compilation, with the misuse of the writer as a fault. -/
theorem compileGuarded_eq (g : Grammar) : compileGuarded g = faultOfMisuse g.compile := by
  have hwalk := forStepsM_eq_forM (m := StateT Progress (ExceptT Failure (Except Fault)))
    (Progress.performGuarded g.repository) g
  have hrun := forM_performGuarded_eq g.repository (steps g) (Progress.start g)
  rw [compileGuarded, compile_eq_run, hwalk, hrun]
  cases (Progress.start g).run g.repository (steps g) with
  | error failure =>
    obtain ⟨error, journal⟩ := failure
    cases error <;> rfl
  | ok progress =>
    simp only [Except.map, faultOfMisuse, bind, Except.bind]
    cases progress.writer.finish <;> rfl

/-! ## Failures -/

/-- Checks fail for one reason only: a rule without a name. -/
theorem exists_unnamed_of_check {repository : Repository} {steps : List Step} {inlined : List RuleId}
    {journal : Array Event} {failure : Failure}
    (h : check repository steps inlined journal = .error failure) :
    ∃ rule, failure.error = .unnamed rule := by
  induction steps generalizing inlined journal with
  | nil => cases h
  | cons step steps ih =>
    rw [check] at h
    split at h
    · cases h
      exact ⟨_, rfl⟩
    · exact ih h

/-- The only reason why a grammar has no document is a rule without a name. -/
theorem exists_unnamed_of_compile {g : Grammar} {failure : Failure} (h : g.compile = .error failure) :
    ∃ rule, failure.error = .unnamed rule :=
  exists_unnamed_of_check (check_of_compile_error h)

/-- Compiling a grammar gives a document or fails for a rule without a name, and never ends with a fault,
whether its patterns are well formed or not. Every place in an index is the place of an entry. And the
emission of a pattern, alone or as a unit, never ends with a fault either. -/
theorem compile_never_faults (g : Grammar) (hg : g.repository.Reachable) :
    compileGuarded g = .ok g.compile ∧
    ((∃ d, g.compile = .ok d) ∨ ∃ rule journal, g.compile = .error ⟨.unnamed rule, journal⟩) ∧
    (∀ (id : RuleId) i, g.repository.ruleIndex[id]? = some i → i < g.repository.entries.size) ∧
    (∀ (name : String) i, g.repository.nameIndex[name]? = some i → i < g.repository.entries.size) ∧
    ∀ (σ : Type) [Sink σ] (p : Pattern Rule) (out : Output σ Rule),
      p.emitRegex out = .ok (p.writeRegex out) ∧ p.emitUnit out = .ok (p.writeUnit out) := by
  have houtcome :
      (∃ d, g.compile = .ok d) ∨ ∃ rule journal, g.compile = .error ⟨.unnamed rule, journal⟩ := by
    cases h : g.compile with
    | ok d => exact Or.inl ⟨d, rfl⟩
    | error failure =>
      obtain ⟨error, journal⟩ := failure
      obtain ⟨rule, hrule⟩ := exists_unnamed_of_compile h
      cases hrule
      exact Or.inr ⟨rule, journal, rfl⟩
  refine ⟨?_, houtcome, ?_, ?_, ?_⟩
  · rw [compileGuarded_eq]
    rcases houtcome with ⟨d, h⟩ | ⟨rule, journal, h⟩ <;> rw [h] <;> rfl
  · intro id i hi
    exact hg.indexed.rules.lt_size hi
  · intro name i hi
    exact hg.indexed.names.lt_size hi
  · intro σ _ p out
    exact ⟨Pattern.emitRegex_eq_ok p out, Pattern.emitUnit_eq_ok p out⟩

/-- A pattern that no checked constructor builds: an empty set, a range that runs backwards, alternations
with one member and with none, and a repetition whose bounds are the wrong way round. -/
def roughPattern : Pattern Rule :=
  .seq [
    .alt [.set .positive "", .alt [.range .positive 'z' 'a'], .set .positive "aa"],
    .alt [.set .negated "b", .alt []],
    .rep (.alt [.literal "c"]) 3 (some 2)]

/-- A grammar with such a pattern. -/
def roughGrammar : Grammar where
  name := "Rough"
  scopeName := "source.rough"
  topLevel := [.body 1 none (.matching roughPattern) []]

theorem compile_never_faults_roughGrammar :
    ¬ roughPattern.WellFormed ∧ roughGrammar.repository.Reachable ∧
    compileGuarded roughGrammar = .ok roughGrammar.compile ∧
    ∀ out : Output String Rule, roughPattern.emitRegex out = .ok (roughPattern.writeRegex out) ∧
      roughPattern.emitUnit out = .ok (roughPattern.writeUnit out) := by
  obtain ⟨hcompile, -, -, -, hemit⟩ := compile_never_faults roughGrammar .empty
  refine ⟨?_, .empty, hcompile, hemit String roughPattern⟩
  simp [roughPattern, Pattern.WellFormed, Pattern.WellFormedAll]

end TextMate.Document
