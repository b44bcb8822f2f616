/-!
# Patterns

A pattern is a regular expression as a tree. Captures carry a label of any type `α`: what a capture
group stands for is the business of whoever builds the pattern, and nothing here looks at it.

The tree itself promises nothing: an empty set, a range that runs backwards or an alternation with a
single member are all trees. Which trees are well formed, and the constructors that build only those,
are in `TextMate.Pattern.Checked`.
-/

namespace TextMate

/-- Whether membership, or a match, is wanted or ruled out. -/
inductive Polarity where
  | positive
  | negated
  deriving DecidableEq, Repr

/-- Which side of the current position a look-around inspects. -/
inductive Side where
  | ahead
  | behind
  deriving DecidableEq, Repr

/-- A regular expression whose captures are labelled by `α`. -/
inductive Pattern (α : Type) where
  /-- One character that is, or is not, among `members`. -/
  | set (polarity : Polarity) (members : String)
  /-- One character that lies, or does not lie, between two bounds, both included. -/
  | range (polarity : Polarity) (first last : Char)
  /-- Any one character. -/
  | any
  /-- The characters of `text` in turn. -/
  | literal (text : String)
  /-- The start of a line. -/
  | lineStart
  /-- The end of a line. -/
  | lineEnd
  /-- Any one of the alternatives, earlier ones first. -/
  | alt (alternatives : List (Pattern α))
  /-- The members one after the other. -/
  | seq (members : List (Pattern α))
  /-- At least `min` times `body`, and at most `max` times if there is a maximum. -/
  | rep (body : Pattern α) (min : Nat) (max : Option Nat)
  /-- A test on what follows or precedes the current position, which it leaves unchanged. -/
  | look (side : Side) (polarity : Polarity) (body : Pattern α)
  /-- A numbered group, labelled. -/
  | capture (body : Pattern α) (label : α)

namespace Pattern

variable {α β : Type}

instance : Inhabited (Pattern α) := ⟨.any⟩

/-! ### Labels -/

mutual

/-- The labels of the captures, in the order of their opening parentheses. -/
def captures : Pattern α → List α
  | .capture body label => label :: captures body
  | .alt ps | .seq ps => capturesAll ps
  | .rep body _ _ | .look _ _ body => captures body
  | .set _ _ | .range _ _ _ | .any | .literal _ | .lineStart | .lineEnd => []

/-- The labels of the captures of several patterns, written one after the other. -/
def capturesAll : List (Pattern α) → List α
  | [] => []
  | p :: ps => captures p ++ capturesAll ps

end

mutual

/-- Replace every label by the result of an action on it, in the order of the opening parentheses. -/
def mapLabelsM {m : Type → Type} [Monad m] (f : α → m β) : Pattern α → m (Pattern β)
  | .set polarity members => pure (.set polarity members)
  | .range polarity first last => pure (.range polarity first last)
  | .any => pure .any
  | .literal text => pure (.literal text)
  | .lineStart => pure .lineStart
  | .lineEnd => pure .lineEnd
  | .alt ps => do return .alt (← mapLabelsAllM f ps)
  | .seq ps => do return .seq (← mapLabelsAllM f ps)
  | .rep body min max => do return .rep (← mapLabelsM f body) min max
  | .look side polarity body => do return .look side polarity (← mapLabelsM f body)
  | .capture body label => do
    let label ← f label
    return .capture (← mapLabelsM f body) label

/-- Replace the labels of several patterns, from the first pattern to the last. -/
def mapLabelsAllM {m : Type → Type} [Monad m] (f : α → m β) :
    List (Pattern α) → m (List (Pattern β))
  | [] => pure []
  | p :: ps => do
    let p ← mapLabelsM f p
    return p :: (← mapLabelsAllM f ps)

end

/-! ### Equality -/

mutual

/-- Equality of trees, given an equality of labels. -/
def beq [BEq α] : Pattern α → Pattern α → Bool
  | .set pol ms, .set pol' ms' => pol == pol' && ms == ms'
  | .range pol a b, .range pol' a' b' => pol == pol' && a == a' && b == b'
  | .any, .any => true
  | .literal text, .literal text' => text == text'
  | .lineStart, .lineStart => true
  | .lineEnd, .lineEnd => true
  | .alt ps, .alt qs => beqAll ps qs
  | .seq ps, .seq qs => beqAll ps qs
  | .rep p min max, .rep q min' max' => beq p q && min == min' && max == max'
  | .look side pol p, .look side' pol' q => side == side' && pol == pol' && beq p q
  | .capture p label, .capture q label' => beq p q && label == label'
  | _, _ => false

/-- Equality of lists of trees, member by member. -/
def beqAll [BEq α] : List (Pattern α) → List (Pattern α) → Bool
  | [], [] => true
  | p :: ps, q :: qs => beq p q && beqAll ps qs
  | _, _ => false

end

instance [BEq α] : BEq (Pattern α) := ⟨beq⟩

end Pattern

end TextMate
