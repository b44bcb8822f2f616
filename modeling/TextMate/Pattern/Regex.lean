import TextMate.Pattern.CharClass
import TextMate.Sink

/-!
# Regular-expression text

`Pattern.writeRegex` writes a pattern as regular-expression text into any sink, and records the labels
of the captures as their parentheses open; `Pattern.writeUnit` does the same, with a group around the
text where it would otherwise run into its surroundings. The rules are:

* Outside brackets, every character of `Regex.literalSpecials` is escaped; inside, every character of
  `Regex.classSpecials`.
* An alternation that is a character class is written as one bracket expression.
* A sequence inside a sequence is written in place, and so is an alternation inside an alternation. A
  sequence inside an alternation stands in a group, and so does an alternation inside a sequence unless
  it is a class.
* What a quantifier applies to stands in a group unless it is a single character, a bracket expression,
  an anchor, a look-around or a capture.
-/

namespace TextMate

namespace Regex

/-- The characters that are escaped outside brackets. -/
def literalSpecials : List Char :=
  "\\^$[]()\x7b\x7d.+*?!|".toList

/-- The characters that are escaped inside brackets. -/
def classSpecials : List Char :=
  "\\^[]-".toList

/-- What has been written: text, and the labels of the captures opened so far. -/
structure Output (σ α : Type) where
  sink : σ
  captures : Array α := #[]

namespace Output

variable {σ α : Type} [Sink σ]

/-- Write one character as it is. -/
def push (out : Output σ α) (c : Char) : Output σ α :=
  { out with sink := Sink.push out.sink c }

/-- Write a text as it is. -/
def append (out : Output σ α) (text : String) : Output σ α :=
  { out with sink := Sink.append out.sink text }

/-- Record the label of a capture. -/
def label (out : Output σ α) (label : α) : Output σ α :=
  { out with captures := out.captures.push label }

/-- Write a character, after a backslash if it is one of the `specials`. -/
def escaped (specials : List Char) (out : Output σ α) (c : Char) : Output σ α :=
  if specials.contains c then (out.push '\\').push c else out.push c

/-- Write characters that stand for themselves. -/
def literal (out : Output σ α) (cs : List Char) : Output σ α :=
  cs.foldl (escaped literalSpecials) out

/-- Write an item of a bracket expression. -/
def classItem (out : Output σ α) : ClassItem → Output σ α
  | .char c => out.escaped classSpecials c
  | .range first last => ((out.escaped classSpecials first).push '-').escaped classSpecials last

/-- Write a bracket expression. -/
def charClass (out : Output σ α) (c : CharClass) : Output σ α :=
  let opened := match c.polarity with
    | .positive => out.push '['
    | .negated => out.append "[^"
  (c.items.foldl classItem opened).push ']'

/-- Write a quantifier, in its short form if it has one. -/
def quantifier (out : Output σ α) : (min : Nat) → (max : Option Nat) → Output σ α
  | 0, some 1 => out.push '?'
  | 0, none => out.push '*'
  | 1, none => out.push '+'
  | min, some max => out.append ("\x7b" ++ toString min ++ "," ++ toString max ++ "\x7d")
  | min, none => out.append ("\x7b" ++ toString min ++ ",\x7d")

/-- Write the opening of a look-around. -/
def look (out : Output σ α) (side : Side) (polarity : Polarity) : Output σ α :=
  let out := out.append "(?"
  let out := match side with
    | .ahead => out
    | .behind => out.push '<'
  match polarity with
  | .positive => out.push '='
  | .negated => out.push '!'

/-- Write with `write`, inside a group that captures nothing if `needed`. -/
def grouped (needed : Bool) (write : Output σ α → Output σ α) (out : Output σ α) : Output σ α :=
  if needed then (write (out.append "(?:")).push ')' else write out

end Output

end Regex

namespace Pattern

open Regex

variable {σ α : Type}

/-! ### Where a group is needed -/

/-- An alternation that no bracket expression can stand for. -/
def isOpenAlt : Pattern α → Bool
  | .alt ps => (mergedClass? ps).isNone
  | _ => false

/-- A sequence. -/
def isSeq : Pattern α → Bool
  | .seq _ => true
  | _ => false

/-- Text written next to the pattern's would become part of it. -/
def isLoose (p : Pattern α) : Bool :=
  p.isSeq || p.isOpenAlt

/-- A quantifier after the pattern's text would not apply to all of it. -/
def isLooseOperand : Pattern α → Bool
  | .literal text => text.length != 1
  | .rep _ _ _ => true
  | p => p.isLoose

/-! ### Writing -/

section

variable [Sink σ]

mutual

/-- Write the pattern as a regular expression. -/
def writeRegex : Pattern α → Output σ α → Output σ α
  | .set polarity members, out =>
    match polarity, members.toList with
    | .positive, [c] => out.literal [c]
    | _, _ => out.charClass (.ofString polarity members)
  | .range polarity first last, out => out.charClass (.ofRange polarity first last)
  | .any, out => out.push '.'
  | .literal text, out => out.literal text.toList
  | .lineStart, out => out.push '^'
  | .lineEnd, out => out.push '$'
  | .alt ps, out =>
    match mergedClass? ps with
    | some c => out.charClass c
    | none => writeAlternatives ps out
  | .seq ps, out => writeMembers ps out
  | .rep body min max, out =>
    (Output.grouped body.isLooseOperand (writeRegex body) out).quantifier min max
  | .look side polarity body, out => (writeRegex body (out.look side polarity)).push ')'
  | .capture body label, out => (writeRegex body ((out.label label).push '(')).push ')'

/-- Write alternatives with a bar between each two. -/
def writeAlternatives : List (Pattern α) → Output σ α → Output σ α
  | [], out => out
  | [p], out => Output.grouped p.isSeq (writeRegex p) out
  | p :: q :: ps, out =>
    writeAlternatives (q :: ps) ((Output.grouped p.isSeq (writeRegex p) out).push '|')

/-- Write the members of a sequence one after the other. -/
def writeMembers : List (Pattern α) → Output σ α → Output σ α
  | [], out => out
  | p :: ps, out => writeMembers ps (Output.grouped p.isOpenAlt (writeRegex p) out)

end

/-- Write the pattern so that text on either side stays apart from it. -/
def writeUnit (p : Pattern α) (out : Output σ α) : Output σ α :=
  Output.grouped p.isLoose (writeRegex p) out

end

/-- The regular expression of a pattern. -/
def regex (p : Pattern α) : String :=
  (p.writeRegex (⟨"", #[]⟩ : Output String α)).sink

end Pattern

end TextMate
