import Std.Data.TreeMap
import TextMate.Numeral
import TextMate.Rule

/-!
# The repository

A repository gives names to rules that a grammar uses in several places. Entries keep the order in which
they were registered. Two indices lead from a name and from the identity of a rule to the place of an
entry, so that each name and each rule has at most one.

A rule may also be registered under a *generated* name: a counter, written as a numeral in base 64, is
advanced to the first numeral that no entry has for a name.
-/

namespace TextMate

/-! ### Entries and indices -/

/-- A rule and the name it is registered under. -/
structure Entry where
  name : String
  rule : Rule
  deriving BEq, Inhabited

/-- Named rules, in the order of registration. -/
structure Repository where
  entries : Array Entry := #[]
  /-- The place of the entry of a rule, by the identity of the rule. -/
  ruleIndex : Std.TreeMap RuleId Nat := ∅
  /-- The place of the entry of a name. -/
  nameIndex : Std.TreeMap String Nat := ∅
  /-- The counter behind generated names. -/
  nextName : Nat := 0
  deriving Inhabited

namespace Repository

/-- The number of entries. -/
def size (r : Repository) : Nat :=
  r.entries.size

/-- The name a rule is registered under. -/
def nameOf? (r : Repository) (rule : Rule) : Option String := do
  let place ← r.ruleIndex[rule.id]?
  let entry ← r.entries[place]?
  return entry.name

/-- The rule registered under a name. -/
def get? (r : Repository) (name : String) : Option Rule := do
  let place ← r.nameIndex[name]?
  let entry ← r.entries[place]?
  return entry.rule

/-- Whether some rule is registered under the name. -/
def contains (r : Repository) (name : String) : Bool :=
  r.nameIndex.contains name

/-- Repositories are compared by their entries. -/
instance : BEq Repository := ⟨fun a b => a.entries == b.entries⟩

/-! ### Registration -/

/-- Add an entry at the end. -/
def insert (r : Repository) (name : String) (rule : Rule) : Repository :=
  let place := r.size
  { r with
    entries := r.entries.push ⟨name, rule⟩
    ruleIndex := r.ruleIndex.insert rule.id place
    nameIndex := r.nameIndex.insert name place }

/-- Why a rule cannot be registered under a name: the name is empty or taken, the rule is registered
already, or the rule is a reference, which has no entry of its own. -/
def refusal? (r : Repository) (name : String) (rule : Rule) : Option Rule.Error :=
  if name.isEmpty then
    some .emptyName
  else if r.contains name then
    some (.duplicateName name)
  else
    match r.nameOf? rule with
    | some existing => some (.alreadyRegistered existing)
    | none => if rule.isReference then some (.referenceHasNoBody name) else none

/-- Register a rule under a name. -/
def register (r : Repository) (name : String) (rule : Rule) : Except Rule.Error Repository :=
  match r.refusal? name rule with
  | some e => .error e
  | none => .ok (r.insert name rule)

/-- The counter stays below this bound, the sixty-fourth power of two. -/
def counterBound : Nat :=
  18446744073709551616

/-- The first value from `counter` on whose name is free, among at most `draws` values. -/
def firstFree (r : Repository) : (draws counter : Nat) → Option Nat
  | 0, _ => none
  | draws + 1, counter =>
    if counter + 1 < counterBound then
      if r.contains (Numeral.render counter) then r.firstFree draws (counter + 1) else some counter
    else
      none

/-- Register a rule under the next free generated name. The counter moves past that name even if the
rule is refused. One more draw than there are entries always finds a free name, since different values
have different names. -/
def registerFresh (r : Repository) (rule : Rule) : Repository × Except Rule.Error String :=
  match r.firstFree (r.size + 1) r.nextName with
  | none => (r, .error .namesExhausted)
  | some n =>
    let name := Numeral.render n
    let advanced := { r with nextName := n + 1 }
    match advanced.refusal? name rule with
    | some e => (advanced, .error e)
    | none => (advanced.insert name rule, .ok name)

end Repository

end TextMate
