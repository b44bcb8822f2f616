import TextMate.Repository

/-!
# Grammars

A grammar has a name, the scope of a whole source text, the rules that apply at its top level, and a
repository of named rules.
-/

namespace TextMate

/-- A TextMate grammar. -/
structure Grammar where
  /-- The name of the language. -/
  name : String
  /-- The scope of a whole source text, such as `source.lm`. -/
  scopeName : String
  /-- The rules tried on a source text, earlier ones first. -/
  topLevel : List Rule := []
  /-- The rules that have names. -/
  repository : Repository := {}
  deriving Inhabited

namespace Grammar

/-- Add rules at the end of the top level. -/
def extend (g : Grammar) (rules : List Rule) : Grammar :=
  { g with topLevel := g.topLevel ++ rules }

/-- Add one rule at the end of the top level. -/
def push (g : Grammar) (rule : Rule) : Grammar :=
  g.extend [rule]

/-- Register a rule under a name in the repository. -/
def register (g : Grammar) (name : String) (rule : Rule) : Except Rule.Error Grammar := do
  let repository ← g.repository.register name rule
  return { g with repository }

/-- Register a rule under a generated name in the repository. -/
def registerFresh (g : Grammar) (rule : Rule) : Grammar × Except Rule.Error String :=
  let (repository, outcome) := g.repository.registerFresh rule
  ({ g with repository }, outcome)

end Grammar

end TextMate
