import TextMate.Document.Step

/-!
# Compiling a grammar

`Grammar.compile` carries out the steps of a grammar's document on a JSON writer, with the text of each
pattern streamed into the document. It fails at the first rule that cannot be placed: one whose body
already stands in another list of rules, which needs a name to be shared, or a reference to a name that
the repository does not have.

The journal of what happened so far is part of the result, whether there is a document or not.
-/

namespace TextMate

namespace Document

/-- Why there is no document. -/
inductive Error where
  /-- The rule so described is needed in several places, or refers to an entry, and the repository has
  no name for it. -/
  | unnamed (rule : String)
  /-- The writer was used against its rules. -/
  | misuse (cause : Json.Misuse)
  deriving DecidableEq, Repr

/-- The wording of an error. -/
def Error.message : Error → String
  | .unnamed rule =>
    s!"{rule} is shared or self-referencing but has no repository name"
  | .misuse cause => cause.message

/-- An error, and what happened before it. -/
structure Failure where
  error : Error
  journal : Array Event
  deriving DecidableEq, Repr

/-- A document in the making. -/
structure Progress where
  writer : Json.Writer := {}
  /-- The rules whose bodies stand in lists of rules. -/
  inlined : List RuleId := []
  journal : Array Event := #[]

/-- Carry out one step. -/
def Progress.perform (repository : Repository) (step : Step) (progress : Progress) :
    Except Failure (Unit × Progress) :=
  let ⟨writer, inlined, journal⟩ := progress
  match step with
  | .call call =>
    match writer.perform call with
    | .ok writer => .ok ((), ⟨writer, inlined, journal⟩)
    | .error cause => .error ⟨.misuse cause, journal⟩
  | .regex pattern =>
    let out := pattern.writeRegex (⟨writer.beginString, #[]⟩ : Regex.Output _ Rule)
    .ok ((), ⟨out.sink.close, inlined, journal⟩)
  | .inline rule =>
    if inlined.contains rule.id then
      .error ⟨.unnamed rule.describe, journal⟩
    else
      .ok ((), ⟨writer, rule.id :: inlined, journal⟩)
  | .resolve rule name =>
    if repository.contains name then
      .ok ((), ⟨writer, inlined, journal⟩)
    else
      .error ⟨.unnamed rule.describe, journal⟩
  | .note event => .ok ((), ⟨writer, inlined, journal.push event⟩)

end Document

/-- A compiled grammar. -/
structure Document where
  /-- The JSON text. -/
  text : String
  /-- What happened on the way. -/
  journal : Array Document.Event
  deriving DecidableEq, Repr

open Document in
/-- The document of a grammar. -/
def Grammar.compile (g : Grammar) : Except Failure Document := do
  let started := Event.started g.name g.topLevel.length g.repository.size
  let act : Step → StateT Progress (Except Failure) Unit := Progress.perform g.repository
  let ⟨(), writer, _, journal⟩ ← forStepsM act g { journal := #[started] }
  match writer.finish with
  | .ok text => .ok ⟨text, journal.push (.finished g.name text.utf8ByteSize)⟩
  | .error cause => .error ⟨.misuse cause, journal⟩

end TextMate
