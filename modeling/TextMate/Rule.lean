import TextMate.Pattern.Regex

/-!
# Rules

A rule says how a stretch of text is highlighted. Most rules have a *body*: an optional scope, a trigger
that says where the rule applies, and inner rules for the text inside. The others are *references*, which
stand for the repository entry of a name.

Rules have an identity, and two rules are the same only if it is the same: a rule placed in two spots is
shared, while two rules that merely look alike are not. Whoever makes a rule chooses its identity; the
monad `Fresh` hands out new ones.
-/

namespace TextMate

/-- The identity of a rule. -/
abbrev RuleId := Nat

/-- Where a rule applies. -/
inductive Trigger (ρ : Type) where
  /-- Everywhere: the rule only groups its inner rules. -/
  | always
  /-- On each match of the condition. -/
  | matching (condition : Pattern ρ)
  /-- From a match of one pattern to the next match of another. -/
  | between (opening closing : Pattern ρ)

/-- A rule of a grammar. The captures of its patterns are labelled by the rules for the captured text. -/
inductive Rule where
  /-- Stands for the repository entry called `name`. -/
  | reference (id : RuleId) (name : String)
  /-- Gives text a scope, where `trigger` says, and applies the inner rules inside it. -/
  | body (id : RuleId) (scope : Option String) (trigger : Trigger Rule) (inner : List Rule)

/-! ### New identities -/

/-- Computations that use new identities. The state is the next one to use. -/
abbrev Fresh := StateM RuleId

/-- An identity that has not been used. -/
def fresh : Fresh RuleId :=
  modifyGet fun next => (next, next + 1)

namespace Rule

/-! ### What can be wrong -/

/-- What is refused when rules are built or registered. -/
inductive Error where
  /-- The rule has a scope already. -/
  | scopeAlreadySet
  /-- The rule has inner rules already. -/
  | innerAlreadySet
  /-- A scope without characters. -/
  | emptyScope
  /-- A repository name without characters. -/
  | emptyName
  /-- A scope, inner rules or an entry of its own for a reference. -/
  | referenceHasNoBody (name : String)
  /-- A name that another entry of the repository has. -/
  | duplicateName (name : String)
  /-- A rule that the repository holds under another name. -/
  | alreadyRegistered (name : String)
  /-- The counter behind generated names has reached its end. -/
  | namesExhausted
  deriving DecidableEq, Repr

/-- The wording of an error. -/
def Error.message : Error → String
  | .scopeAlreadySet => "rule already has a scope"
  | .innerAlreadySet => "rule already has inner rules"
  | .emptyScope => "scope is empty"
  | .emptyName => "repository name is empty"
  | .referenceHasNoBody name => s!"include reference '{name}' cannot have a scope or inner rules"
  | .duplicateName name => s!"duplicate repository name '{name}'"
  | .alreadyRegistered name => s!"rule is already registered as '{name}'"
  | .namesExhausted => "no generated name is left"

/-! ### Parts -/

/-- The identity of a rule. -/
def id : Rule → RuleId
  | .reference id _ => id
  | .body id _ _ _ => id

/-- Rules are compared by identity alone. -/
instance : BEq Rule := ⟨fun a b => a.id == b.id⟩

instance : Inhabited Rule := ⟨.reference 0 ""⟩

/-- Whether the rule stands for a repository entry. -/
def isReference : Rule → Bool
  | .reference _ _ => true
  | .body _ _ _ _ => false

/-- The scope, if the rule has a body with a scope. -/
def scope? : Rule → Option String
  | .reference _ _ => none
  | .body _ scope _ _ => scope

/-- The inner rules; a reference has none. -/
def inner : Rule → List Rule
  | .reference _ _ => []
  | .body _ _ _ inner => inner

/-- Whether two rules are both references, or have equal scopes and the same inner rules. -/
def sameContent : Rule → Rule → Bool
  | .reference _ _, .reference _ _ => true
  | .body _ scope _ inner, .body _ scope' _ inner' => scope == scope' && inner == inner'
  | _, _ => false

/-- A short description, for messages. -/
def describe : Rule → String
  | .reference _ name => s!"include of '{name}'"
  | .body _ scope trigger _ =>
    let kind := match trigger with
      | .always => "unconditional rule"
      | .matching _ => "match rule"
      | .between _ _ => "begin/end rule"
    match scope with
    | some scope => s!"{kind} scoped '{scope}'"
    | none => s!"unscoped {kind}"

/-! ### Building -/

/-- A reference to the repository entry called `name`, which may not be empty. -/
def referTo (id : RuleId) (name : String) : Except Error Rule :=
  if name.isEmpty then .error .emptyName else .ok (.reference id name)

/-- A copy of the rule with a scope, under a new identity. The rule must have a body without a scope. -/
def withScope (rule : Rule) (id : RuleId) (scope : String) : Except Error Rule :=
  if scope.isEmpty then
    .error .emptyScope
  else
    match rule with
    | .reference _ name => .error (.referenceHasNoBody name)
    | .body _ (some _) _ _ => .error .scopeAlreadySet
    | .body _ none trigger inner => .ok (.body id (some scope) trigger inner)

/-- A copy of the rule with inner rules, under a new identity. The rule must have a body without inner
rules. -/
def withInner (rule : Rule) (id : RuleId) (inner : List Rule) : Except Error Rule :=
  match rule with
  | .reference _ name => .error (.referenceHasNoBody name)
  | .body _ _ _ (_ :: _) => .error .innerAlreadySet
  | .body _ scope trigger [] => .ok (.body id scope trigger inner)

end Rule

end TextMate
