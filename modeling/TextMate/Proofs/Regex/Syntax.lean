import TextMate.Pattern.CharClass

/-!
# The syntax of regular expressions

A derivation in the grammar of regular expressions is a tree, and `text` is what it derives:

    alternation ::= branch | branch '|' alternation
    branch      ::= nothing | atom quantifier? branch
    atom        ::= character | '.' | '^' | '$' | bracket | group

Characters, numerals and brackets carry the proof that they are well formed, so every tree is a derivation:
a metacharacter cannot stand unescaped, a quantifier cannot follow a quantifier, and a bracket expression
cannot be empty. Nothing here knows how a pattern is written.
-/

namespace TextMate.Regex

/-! ## Characters -/

/-- The characters with a meaning of their own outside brackets. -/
def isMeta (c : Char) : Bool :=
  "\\^$[]()\x7b\x7d.+*?|".toList.contains c

/-- The characters with a meaning of their own inside brackets. -/
def isClassMeta (c : Char) : Bool :=
  "\\^[]-".toList.contains c

/-- The characters that a backslash may precede. -/
def isPunctuation (c : Char) : Bool :=
  "!\"#$%&'()*+,-./:;<=>?@[\\]^_\x60\x7b|\x7d~".toList.contains c

/-- A character as it is written where the `special` characters have a meaning of their own. -/
inductive Spelling (special : Char → Bool) where
  | plain (c : Char) (h : special c = false)
  | escaped (c : Char) (h : isPunctuation c)

namespace Spelling

variable {special : Char → Bool}

/-- The character that is meant. -/
def char : Spelling special → Char
  | .plain c _ => c
  | .escaped c _ => c

def text : Spelling special → List Char
  | .plain c _ => [c]
  | .escaped c _ => ['\\', c]

end Spelling

/-! ## Bracket expressions -/

/-- An item of a bracket expression. -/
inductive Item where
  | single (c : Spelling isClassMeta)
  | range (first last : Spelling isClassMeta)

namespace Item

def text : Item → List Char
  | .single c => c.text
  | .range first last => first.text ++ '-' :: last.text

/-- The item without its escapes. -/
def item : Item → ClassItem
  | .single c => .char c.char
  | .range first last => .range first.char last.char

end Item

def caretText : Polarity → List Char
  | .positive => []
  | .negated => ['^']

/-! ## Quantifiers -/

/-- A number as it is written. -/
structure Numeral where
  digits : List Char
  ne_nil : digits ≠ []
  isDigit : ∀ c ∈ digits, c.isDigit

def Numeral.value (n : Numeral) : Nat :=
  Nat.ofDigitChars 10 n.digits 0

inductive Quantifier where
  | optional
  | star
  | plus
  | between (min max : Numeral)
  | atLeast (min : Numeral)

namespace Quantifier

def text : Quantifier → List Char
  | .optional => ['?']
  | .star => ['*']
  | .plus => ['+']
  | .between min max => '\x7b' :: (min.digits ++ ',' :: (max.digits ++ ['\x7d']))
  | .atLeast min => '\x7b' :: (min.digits ++ [',', '\x7d'])

/-- The least and the greatest number of repetitions. -/
def bounds : Quantifier → Nat × Option Nat
  | .optional => (0, some 1)
  | .star => (0, none)
  | .plus => (1, none)
  | .between min max => (min.value, some max.value)
  | .atLeast min => (min.value, none)

end Quantifier

def quantifierText? : Option Quantifier → List Char
  | some q => q.text
  | none => []

/-! ## Expressions -/

/-- What a pair of parentheses does. -/
inductive GroupKind where
  | plain
  | capture
  | look (side : Side) (polarity : Polarity)
  deriving DecidableEq

/-- What stands between the parenthesis and the body. -/
def GroupKind.text : GroupKind → List Char
  | .plain => ['?', ':']
  | .capture => []
  | .look .ahead .positive => ['?', '=']
  | .look .ahead .negated => ['?', '!']
  | .look .behind .positive => ['?', '<', '=']
  | .look .behind .negated => ['?', '<', '!']

mutual

inductive Alternation where
  | single (branch : Branch)
  | more (branch : Branch) (rest : Alternation)

inductive Branch where
  | nil
  | cons (atom : Atom) (quantifier : Option Quantifier) (rest : Branch)

inductive Atom where
  | char (c : Spelling isMeta)
  | any
  | lineStart
  | lineEnd
  | bracket (polarity : Polarity) (first : Item) (rest : List Item)
  | group (kind : GroupKind) (body : Alternation)

end

mutual

/-- The text that a tree derives. -/
def Alternation.text : Alternation → List Char
  | .single branch => branch.text
  | .more branch rest => branch.text ++ '|' :: rest.text

def Branch.text : Branch → List Char
  | .nil => []
  | .cons atom quantifier rest => atom.text ++ (quantifierText? quantifier ++ rest.text)

def Atom.text : Atom → List Char
  | .char c => c.text
  | .any => ['.']
  | .lineStart => ['^']
  | .lineEnd => ['$']
  | .bracket polarity first rest =>
    '[' :: (caretText polarity ++ (first.text ++ (rest.flatMap Item.text ++ [']'])))
  | .group kind body => '(' :: (kind.text ++ (body.text ++ [')']))

end

/-! ## One after the other -/

def Branch.append : Branch → Branch → Branch
  | .nil, other => other
  | .cons atom quantifier rest, other => .cons atom quantifier (rest.append other)

def Alternation.append : Alternation → Alternation → Alternation
  | .single branch, other => .more branch other
  | .more branch rest, other => .more branch (rest.append other)

theorem Branch.text_append : (b other : Branch) → (b.append other).text = b.text ++ other.text
  | .nil, other => rfl
  | .cons atom quantifier rest, other => by
    simp [Branch.append, Branch.text, Branch.text_append rest other]

theorem Alternation.text_append : (t other : Alternation) →
    (t.append other).text = t.text ++ '|' :: other.text
  | .single branch, other => rfl
  | .more branch rest, other => by
    simp [Alternation.append, Alternation.text, Alternation.text_append rest other]

end TextMate.Regex
