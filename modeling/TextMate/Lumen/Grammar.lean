import TextMate.Grammar
import TextMate.Lumen.Lexeme

/-!
# The grammar of Lumen

Two rules have names: the markup of documentation, which both kinds of comments use, and the block
comment, which contains itself.
-/

namespace TextMate.Lumen

/-! ### Kinds of rules -/

/-- A rule that only gives a scope. -/
def scopeRule (scope : String) : Fresh Rule := do
  return .body (← fresh) (some scope) .always []

/-- A rule on each match of a pattern, with a rule for each of its captures. -/
def matchRule (scope : Option String) (condition : Pattern String) : Fresh Rule := do
  let condition ← condition.mapLabelsM scopeRule
  return .body (← fresh) scope (.matching condition) []

/-- A rule from one pattern to another, with inner rules for the text between. -/
def blockRule (scope : String) (opening closing : Pattern Rule) (inner : List Rule) : Fresh Rule := do
  return .body (← fresh) (some scope) (.between opening closing) inner

/-! ### Comments -/

/-- Text between two marks inside a comment. -/
def marked (opening closing : String) : Fresh Rule :=
  blockRule "keyword.other" (.literal opening) (.literal closing) []

/-- The markup of documentation. -/
def documentation : Fresh Rule := do
  let inner := [← marked "`" "`", ← marked "[" "]", ← marked "<" ">"]
  return .body (← fresh) none .always inner

/-- A block comment, in which further ones may stand. -/
def blockComment (documentation : Rule) : Fresh Rule := do
  let itself := Rule.reference (← fresh) "block_comment"
  blockRule "comment.block.documentation" (.literal "#\x7b") (.literal "\x7d#") [documentation, itself]

/-- A comment up to the end of its line. -/
def lineComment (documentation : Rule) : Fresh Rule :=
  blockRule "comment.line" (.literal "#") .lineEnd [documentation]

/-! ### Strings -/

/-- A string or a character between two quotes of a kind, with its escapes. -/
def quoted (scope : String) (delimiter : Char) : Fresh Rule := do
  let escape ← matchRule (some "constant.character.escape") (quoteEscape delimiter)
  let invalid ← matchRule (some "invalid.illegal") (.literal "\\")
  blockRule scope (.char delimiter) (.char delimiter) [escape, invalid]

/-- A string in backquotes, of which two in a row stand for one. -/
def rawString : Fresh Rule := do
  let escape ← matchRule (some "constant.character.escape") (.literal "``")
  blockRule "string.quoted.other" (.literal "`") rawStringEnd [escape]

/-! ### The whole grammar -/

/-- The grammar of Lumen, with new rules throughout. -/
def grammar : Fresh (Except Rule.Error Grammar) := do
  let documentation ← documentation
  let blockComment ← blockComment documentation
  let topLevel :=
    [blockComment,
     ← lineComment documentation,
     ← matchRule (some "constant.numeric") number,
     ← matchRule (some "keyword.operator") operator,
     ← matchRule (some "punctuation.separator") (.literal ","),
     ← matchRule (some "punctuation.definition") (.set .positive "()\x7b\x7d[]"),
     ← matchRule (some "punctuation.accessor") accessor,
     ← quoted "string.quoted.double" '\x22',
     ← rawString,
     ← quoted "constant.character" '\x27',
     ← matchRule (some "meta.variable-definition") definition,
     ← matchRule (some "meta.type") typeLiteral,
     ← matchRule (some "meta.call") call,
     ← matchRule (some "variable.other.constant.property") property,
     ← matchRule (some "variable.other.constant") identifier,
     ← matchRule none keyword]
  let bare : Grammar := { name := "Lumen", scopeName := "source.lm", topLevel }
  return do
    let named ← bare.register "documentation" documentation
    named.register "block_comment" blockComment

end TextMate.Lumen
