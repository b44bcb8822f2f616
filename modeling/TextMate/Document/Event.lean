import TextMate.Journal

/-!
# What happens while a document is written
-/

namespace TextMate.Document

/-- Something worth a record while a grammar is compiled. -/
inductive Event where
  /-- Work begins on a grammar with so many top-level rules and repository entries. -/
  | started (grammar : String) (topLevel entries : Nat)
  /-- The body of a repository entry comes next. -/
  | defining (name : String)
  /-- A reference to a repository entry comes next. -/
  | including (name : String)
  /-- The document is complete and has so many bytes. -/
  | finished (grammar : String) (bytes : Nat)
  deriving DecidableEq, Repr

namespace Event

/-- Single entries are traced; a compilation as a whole matters more. -/
def severity : Event → Severity
  | .started _ _ _ | .finished _ _ => .debug
  | .defining _ | .including _ => .trace

/-- The wording of an event. -/
def message : Event → String
  | .started grammar topLevel entries =>
    s!"compiling grammar '{grammar}' with {topLevel} top-level rules and {entries} repository entries"
  | .defining name => s!"defining repository entry '{name}'"
  | .including name => s!"including repository entry '{name}'"
  | .finished grammar bytes => s!"compiled grammar '{grammar}' into {bytes} bytes"

/-- The record of an event. -/
def record (e : Event) : Record :=
  ⟨e.severity, "scopegen_core::writer", e.message⟩

end Event

end TextMate.Document
