import TextMate.Proofs.Document.Identity
import TextMate.Proofs.Document.References

/-!
# The journal of a document

The journal mirrors the document. Between its first and its last event stands what a reader of the parsed
document meets, in this order: the references of the top level, and then each entry of the repository,
followed by the references in its body (`reading`).

A grammar without a document has a journal as well. `marks` puts the events and the occurrences that may
offend in one list, in the order of the document. The journal of a failure holds the events that stand
before the first offence there.
-/

namespace TextMate.Json.Value

/-! ## The references in a value -/

/-- The name that the fields of an object refer to, if they are those of a reference and nothing else. -/
def referredName? : List (String × Value) → Option String
  | [("include", .string text)] =>
    match text.toList with
    | '#' :: name => some (String.ofList name)
    | _ => none
  | _ => none

mutual

/-- The names that a value refers to, in the order of its text. -/
def includes : Value → List String
  | .object fields =>
    match referredName? fields with
    | some name => [name]
    | none => includesFields fields
  | .array vs => includesElements vs
  | .null | .bool _ | .number _ | .string _ => []

/-- The names that the elements of an array refer to. -/
def includesElements : List Value → List String
  | [] => []
  | v :: vs => includes v ++ includesElements vs

/-- The names that the fields of an object refer to. -/
def includesFields : List (String × Value) → List String
  | [] => []
  | (_, v) :: fields => includes v ++ includesFields fields

end

end TextMate.Json.Value

namespace TextMate.Document

open Json

section

variable {treeOf elementOf : Rule → Value}

end

/-! ## Reading a document -/

namespace Event

end Event

section

variable (nameOf? : Rule → Option String) (g : Grammar)

end

/-! ## Events and occurrences in one list -/

/-- What happens at a place of the document: an event for the journal, or something that may offend. -/
inductive Mark where
  | event (event : Event)
  | occurrence (occurrence : Occurrence)

namespace Mark

def occurrence? : Mark → Option Occurrence
  | .event _ => none
  | .occurrence o => some o

end Mark

section

variable (nameOf? : Rule → Option String)

/-- The marks of the body of a rule. A reference may offend before it is an event. Otherwise captured text
comes before inner rules; there a rule with a name is the event of a reference, and the body of any other
rule may offend before it begins. -/
def bodyMarks (inCapture : Bool) (rule : Rule) : List Mark :=
  (match rule with
    | .reference id name =>
      [.occurrence (.referred (.reference id name) name), .event (.including name)]
    | .body _ _ _ _ => []) ++
  ((captureRules rule).attach.flatMap fun ⟨part, _⟩ => bodyMarks true part) ++
  (rule.inner.attach.flatMap fun ⟨part, _⟩ =>
    match nameOf? part with
    | some name => [.event (.including name)]
    | none => (placedOccurrence inCapture part).map .occurrence ++ bodyMarks inCapture part)
termination_by sizeOf rule
decreasing_by
  · exact sizeOf_lt_of_mem_captureRules ‹_›
  · exact sizeOf_lt_of_mem_inner ‹_›

/-- The marks of a rule in a list of rules. -/
def elementMarks (inCapture : Bool) (rule : Rule) : List Mark :=
  match nameOf? rule with
  | some name => [.event (.including name)]
  | none => (placedOccurrence inCapture rule).map .occurrence ++ bodyMarks nameOf? inCapture rule

end

/-- The marks of a grammar, in the order of its document, given the names of the registered rules. -/
def documentMarks (nameOf? : Rule → Option String) (g : Grammar) : List Mark :=
  g.topLevel.flatMap (elementMarks nameOf? false) ++
    g.repository.entries.toList.flatMap fun entry =>
      .event (.defining entry.name) :: bodyMarks nameOf? false entry.rule

/-- The marks of a grammar, in the order of its document. -/
def marks (g : Grammar) : List Mark :=
  documentMarks (Repository.registeredName? g.repository.entries.toList) g

/-! ## The events are what a reader meets -/

section

variable (nameOf? : Rule → Option String)

end

/-! ## The steps hold the marks -/

section

variable (stepsOf : Rule → List Step)

end

section

variable (repository : Repository)

end

section

variable {g : Grammar} (hg : g.repository.Reachable)

include hg

end

/-! ## The journal -/

section

variable {g : Grammar} (hg : g.repository.Reachable)

include hg

end

end TextMate.Document
