import TextMate.Document.Event
import TextMate.Grammar
import TextMate.Json.Writer

/-!
# The steps of a document

The document of a grammar is a JSON object with the fields `name`, `scopeName`, `patterns` and
`repository`. This module walks over a grammar in the order of its document and hands out one `Step`
after the other; what a step does is left open. The walk is generic in the monad of that action, so an
action that fails ends the walk at once.

A rule in a list of rules becomes a reference if it has a name in the repository, and otherwise its whole
body stands in its place. The rules for captured text are always written out.
-/

namespace TextMate.Document

/-- One step in writing a document. -/
inductive Step where
  /-- A call on the writer. -/
  | call (call : Json.Call)
  /-- The next value is the text of a pattern. -/
  | regex (pattern : Pattern Rule)
  /-- The body of a rule without a name follows here, in a list of rules outside any capture. -/
  | inline (rule : Rule)
  /-- A reference to the entry called `name` follows. -/
  | resolve (rule : Rule) (name : String)
  /-- An event for the journal. -/
  | note (event : Event)

variable {m : Type → Type} [Monad m] (repository : Repository) (act : Step → m Unit)

/-- The steps of a reference to a repository entry. -/
def forReferenceM (name : String) : m Unit := do
  act (.note (.including name))
  act (.call .beginObject)
  act (.call (.key "include"))
  act (.call (.string ["#", name]))
  act (.call .endObject)

/-- The steps of numbered fields, given those of their values. -/
def forNumberedM : (number : Nat) → (values : List (m Unit)) → m Unit
  | _, [] => pure ()
  | number, value :: values => do
    act (.call (.key (toString number)))
    value
    forNumberedM (number + 1) values

/-- The steps of a field for a pattern and, if the pattern has captures, of a field for them, given the
steps of their rules. -/
def forPatternM (key capturesKey : String) (pattern : Pattern Rule) (captures : List (m Unit)) :
    m Unit := do
  act (.call (.key key))
  act (.regex pattern)
  unless captures.isEmpty do
    act (.call (.key capturesKey))
    act (.call .beginObject)
    forNumberedM act 1 captures
    act (.call .endObject)

mutual

/-- The steps of the full text of a rule. -/
def forBodyM (inCapture : Bool) : Rule → m Unit
  | .reference id name => do
    act (.resolve (.reference id name) name)
    forReferenceM act name
  | .body _ scope trigger inner => do
    act (.call .beginObject)
    if let some scope := scope then
      act (.call (.field "name" scope))
    forTriggerM trigger
    unless inner.isEmpty do
      act (.call (.key "patterns"))
      act (.call .beginArray)
      forRulesM inCapture inner
      act (.call .endArray)
    act (.call .endObject)

/-- The steps of the elements of a list of rules. -/
def forRulesM (inCapture : Bool) : List Rule → m Unit
  | [] => pure ()
  | rule :: rules => do
    match repository.nameOf? rule with
    | some name => forReferenceM act name
    | none =>
      unless inCapture || rule.isReference do
        act (.inline rule)
      forBodyM inCapture rule
    forRulesM inCapture rules

/-- The steps of the fields for the patterns of a trigger. -/
def forTriggerM : Trigger Rule → m Unit
  | .always => pure ()
  | .matching condition => forPatternM act "match" "captures" condition (capturesM condition)
  | .between opening closing => do
    forPatternM act "begin" "beginCaptures" opening (capturesM opening)
    forPatternM act "end" "endCaptures" closing (capturesM closing)

/-- For each capture of a pattern, in the order of the opening parentheses, the steps of its rule. -/
def capturesM : Pattern Rule → List (m Unit)
  | .capture body rule => forBodyM true rule :: capturesM body
  | .alt ps | .seq ps => capturesAllM ps
  | .rep body _ _ | .look _ _ body => capturesM body
  | .set _ _ | .range _ _ _ | .any | .literal _ | .lineStart | .lineEnd => []

/-- The steps of the rules of the captures of several patterns. -/
def capturesAllM : List (Pattern Rule) → List (m Unit)
  | [] => []
  | p :: ps => capturesM p ++ capturesAllM ps

end

/-- The steps of the fields for the entries of a repository. -/
def forEntriesM : List Entry → m Unit
  | [] => pure ()
  | entry :: entries => do
    act (.note (.defining entry.name))
    act (.call (.key entry.name))
    forBodyM repository act false entry.rule
    forEntriesM entries

/-- The steps of the document of a grammar. -/
def forStepsM (g : Grammar) : m Unit := do
  act (.call .beginObject)
  act (.call (.field "name" g.name))
  act (.call (.field "scopeName" g.scopeName))
  act (.call (.key "patterns"))
  act (.call .beginArray)
  forRulesM g.repository act false g.topLevel
  act (.call .endArray)
  act (.call (.key "repository"))
  act (.call .beginObject)
  forEntriesM g.repository act g.repository.entries.toList
  act (.call .endObject)
  act (.call .endObject)

end TextMate.Document
