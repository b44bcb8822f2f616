import TextMate.Pattern.Basic

/-!
# Well-formed patterns and the constructors that build them

A pattern is *well formed* when every set in it is non-empty and free of repetitions, every range runs
upwards, every alternation and every sequence has at least two members, and no repetition has its
maximum below its minimum. The constructors of this module refuse arguments that would break this, with
an `Error` that says what is wrong.
-/

namespace TextMate

namespace Pattern

variable {α : Type}

/-! ### What can be wrong -/

/-- What a constructor refuses. -/
inductive Error where
  /-- A set without members. -/
  | emptySet
  /-- The set has `member` at the index `first` and again at the index `second`. -/
  | duplicateMember (member : Char) (first second : Nat)
  /-- The first bound of a range is not below its last. -/
  | misorderedRange (first last : Char)
  /-- An alternation of fewer than two patterns. -/
  | tooFewAlternatives (count : Nat)
  /-- A sequence of fewer than two patterns. -/
  | tooFewMembers (count : Nat)
  /-- The maximum of a repetition is below its minimum. -/
  | misorderedRepeat (min max : Nat)
  deriving DecidableEq, Repr

/-- The wording of an error. -/
def Error.message : Error → String
  | .emptySet => "character set is empty"
  | .duplicateMember member first second =>
    s!"character '{member}' repeats in set at indices {first} and {second}"
  | .misorderedRange first last =>
    s!"range '{first}'-'{last}' must have its first bound below its last"
  | .tooFewAlternatives count => s!"alternation needs at least 2 alternatives, got {count}"
  | .tooFewMembers count => s!"sequence needs at least 2 members, got {count}"
  | .misorderedRepeat min max => s!"repeat upper bound {max} is less than the lower bound {min}"

/-- The first character of `rest` that stands in `seen` or earlier in `rest`, with the index of its
first occurrence and its own, both counted from the start of `seen`. -/
def findRepeat (seen : List Char) : (rest : List Char) → Option (Char × Nat × Nat)
  | [] => none
  | c :: rest =>
    match seen.idxOf? c with
    | some first => some (c, first, seen.length)
    | none => findRepeat (seen ++ [c]) rest

/-- Accepts a set of characters that is non-empty and names no character twice. -/
def checkSet (members : String) : Except Error Unit :=
  if members.isEmpty then
    .error .emptySet
  else
    match findRepeat [] members.toList with
    | some (member, first, second) => .error (.duplicateMember member first second)
    | none => .ok ()

/-- Accepts bounds that run upwards. -/
def checkRange (first last : Char) : Except Error Unit :=
  if first < last then .ok () else .error (.misorderedRange first last)

/-! ### Well-formed trees -/

mutual

/-- Every set, range, alternation, sequence and repetition in the pattern keeps its rule. -/
def WellFormed : Pattern α → Prop
  | .set _ members => members.toList ≠ [] ∧ members.toList.Nodup
  | .range _ first last => first < last
  | .any | .literal _ | .lineStart | .lineEnd => True
  | .alt ps => 2 ≤ ps.length ∧ WellFormedAll ps
  | .seq ps => 2 ≤ ps.length ∧ WellFormedAll ps
  | .rep body min max => (∀ bound ∈ max, min ≤ bound) ∧ WellFormed body
  | .look _ _ body => WellFormed body
  | .capture body _ => WellFormed body

/-- Every pattern of the list is well formed. -/
def WellFormedAll : List (Pattern α) → Prop
  | [] => True
  | p :: ps => WellFormed p ∧ WellFormedAll ps

end

/-! ### Single characters -/

/-- One of the given characters. -/
def oneOf (members : String) : Except Error (Pattern α) := do
  checkSet members
  return .set .positive members

/-- One character, none of the given ones. -/
def noneOf (members : String) : Except Error (Pattern α) := do
  checkSet members
  return .set .negated members

/-- Exactly the given character. -/
def char (c : Char) : Pattern α :=
  .set .positive (String.singleton c)

/-- One character between the bounds. -/
def inRange (first last : Char) : Except Error (Pattern α) := do
  checkRange first last
  return .range .positive first last

/-- One character outside the bounds. -/
def outsideRange (first last : Char) : Except Error (Pattern α) := do
  checkRange first last
  return .range .negated first last

/-! ### Combinations -/

/-- Any one of at least two patterns. -/
def anyOf (alternatives : List (Pattern α)) : Except Error (Pattern α) :=
  if alternatives.length < 2 then
    .error (.tooFewAlternatives alternatives.length)
  else
    .ok (.alt alternatives)

/-- At least two patterns, one after the other. -/
def sequence (members : List (Pattern α)) : Except Error (Pattern α) :=
  if members.length < 2 then
    .error (.tooFewMembers members.length)
  else
    .ok (.seq members)

/-! ### Repetition -/

/-- At least `min` and at most `max` times. -/
def repeated (body : Pattern α) (min max : Nat) : Except Error (Pattern α) :=
  if max < min then .error (.misorderedRepeat min max) else .ok (.rep body min (some max))

/-- At least `min` times. -/
def atLeast (body : Pattern α) (min : Nat) : Pattern α :=
  .rep body min none

/-- Exactly `times` times. -/
def exactly (body : Pattern α) (times : Nat) : Pattern α :=
  .rep body times (some times)

/-- At most once. -/
def optional (body : Pattern α) : Pattern α :=
  .rep body 0 (some 1)

/-- Any number of times. -/
def zeroOrMore (body : Pattern α) : Pattern α :=
  body.atLeast 0

/-- At least once. -/
def oneOrMore (body : Pattern α) : Pattern α :=
  body.atLeast 1

/-! ### Looking around -/

/-- Where `body` matches next. -/
def before (body : Pattern α) : Pattern α :=
  .look .ahead .positive body

/-- Where `body` does not match next. -/
def notBefore (body : Pattern α) : Pattern α :=
  .look .ahead .negated body

/-- Where `body` has just matched. -/
def after (body : Pattern α) : Pattern α :=
  .look .behind .positive body

/-- Where `body` has not just matched. -/
def notAfter (body : Pattern α) : Pattern α :=
  .look .behind .negated body

end Pattern

end TextMate
