import TextMate.Pattern.Basic

/-!
# Character classes

A bracket expression such as `[a-z_]` or `[^"]` is a polarity and a list of items. A set and a range are
classes, and so is an alternation all of whose members are classes of one polarity: its class holds the
items of its members, from left to right. `Pattern.charClass?` finds the class of a pattern, if it has
one.
-/

namespace TextMate

/-- What stands between the brackets: a character, or a range of characters. -/
inductive ClassItem where
  | char (c : Char)
  | range (first last : Char)
  deriving DecidableEq, Repr

/-- A bracket expression. -/
structure CharClass where
  /-- A negated class holds the characters that no item names. -/
  polarity : Polarity
  items : List ClassItem
  deriving DecidableEq, Repr

namespace CharClass

/-- The class of the given characters. -/
def ofString (polarity : Polarity) (members : String) : CharClass :=
  ⟨polarity, members.toList.map .char⟩

/-- The class of the characters between two bounds. -/
def ofRange (polarity : Polarity) (first last : Char) : CharClass :=
  ⟨polarity, [.range first last]⟩

/-- Two classes of one polarity merge into the class of all their items. -/
def merge? (a b : CharClass) : Option CharClass :=
  if a.polarity = b.polarity then some ⟨a.polarity, a.items ++ b.items⟩ else none

end CharClass

namespace Pattern

variable {α : Type}

mutual

/-- The class that says the same as the pattern in one bracket expression. -/
def charClass? : Pattern α → Option CharClass
  | .set polarity members => some (.ofString polarity members)
  | .range polarity first last => some (.ofRange polarity first last)
  | .alt ps => mergedClass? ps
  | .any | .literal _ | .lineStart | .lineEnd | .seq _ | .rep _ _ _ | .look _ _ _ | .capture _ _ =>
    none

/-- The class of all the items, if there is a pattern and all of them are classes of one polarity. -/
def mergedClass? : List (Pattern α) → Option CharClass
  | [] => none
  | [p] => charClass? p
  | p :: q :: ps => do
    let c ← charClass? p
    c.merge? (← mergedClass? (q :: ps))

end

end Pattern

end TextMate
