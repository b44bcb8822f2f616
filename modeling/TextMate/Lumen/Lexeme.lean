import TextMate.Pattern.Checked

/-!
# The lexemes of Lumen

Lumen is a small language with `#` line comments, block comments that nest, numbers in several radices
with separators between their digits, strings, characters, and identifiers. This module has the patterns
of its lexemes. Captures are labelled by the scope of the captured text.
-/

namespace TextMate.Lumen

open Pattern

variable {α : Type}

/-! ### Words -/

/-- The keywords, each after its scope. -/
def keywords : List (String × String) :=
  [("keyword.other", "import"),
   ("keyword.other", "entrypoint"),
   ("keyword.control", "if"),
   ("keyword.control", "else"),
   ("keyword.control", "for"),
   ("keyword.control", "while"),
   ("keyword.control", "do"),
   ("keyword.control", "switch"),
   ("keyword.control", "case"),
   ("keyword.control", "default"),
   ("keyword.control", "fallthrough"),
   ("keyword.control", "break"),
   ("keyword.control", "continue"),
   ("keyword.control", "return"),
   ("storage.type", "var"),
   ("storage.type", "func"),
   ("storage.type", "interface"),
   ("storage.type", "struct"),
   ("storage.type", "enum"),
   ("storage.type", "union"),
   ("storage.modifier", "opaque"),
   ("storage.modifier", "discard"),
   ("storage.modifier", "noreturn"),
   ("storage.modifier", "mutable"),
   ("storage.modifier", "shared"),
   ("storage.modifier", "volatile"),
   ("storage.modifier", "alignas"),
   ("storage.modifier", "threadlocal")]

/-- A lower-case letter. -/
def lower : Pattern α :=
  .range .positive 'a' 'z'

/-- An upper-case letter. -/
def upper : Pattern α :=
  .range .positive 'A' 'Z'

/-- A decimal digit. -/
def decimal : Pattern α :=
  .range .positive '0' '9'

/-- A letter or a digit. -/
def wordChar : Pattern α :=
  .alt [lower, upper, decimal]

/-- A word with no letter or digit right before or after it. -/
def standalone (word : Pattern α) : Pattern α :=
  .seq [notAfter wordChar, word, notBefore wordChar]

/-- Any keyword. -/
def anyKeyword : Pattern α :=
  .alt (keywords.map fun (_, word) => .literal word)

/-- A keyword that stands alone, captured with its scope. -/
def keyword : Pattern String :=
  standalone (.alt (keywords.map fun (scope, word) => .capture (.literal word) scope))

/-- A letter and further letters and digits that do not end in a keyword, or a keyword with an underscore
at its end. -/
def identifier : Pattern α :=
  standalone (.alt
    [.seq [anyKeyword, .literal "_"],
     .seq [.alt [lower, upper], zeroOrMore wordChar, notAfter anyKeyword]])

/-! ### Numbers -/

/-- A non-empty run of digits, with at most one apostrophe between each two. -/
def digitRun (digit : Pattern α) : Pattern α :=
  .seq [digit, zeroOrMore (.seq [optional (.set .positive "'"), digit])]

/-- Digits, perhaps with a fraction, perhaps with a decimal exponent after the given letter. -/
def magnitude (digit exponent : Pattern α) : Pattern α :=
  .seq
    [digitRun digit,
     optional (.seq [.literal ".", digitRun digit]),
     optional (.seq [exponent, optional (.set .positive "+-"), digitRun decimal])]

/-- A number whose radix is given by a zero and a letter before it. -/
def numberInRadix (indicator digit exponent : Pattern α) : Pattern α :=
  standalone (.seq [.literal "0", indicator, magnitude digit exponent])

/-- A number in any notation. -/
def number : Pattern α :=
  .alt
    [standalone (magnitude decimal (.set .positive "eE")),
     numberInRadix (.set .positive "dD") decimal (.set .positive "eE"),
     numberInRadix (.set .positive "xX")
       (.alt [.range .positive 'a' 'f', .range .positive 'A' 'F', decimal]) (.set .positive "pP"),
     numberInRadix (.set .positive "oO") (.range .positive '0' '7') (.set .positive "pP"),
     numberInRadix (.set .positive "bB") (.range .positive '0' '1') (.set .positive "pP")]

/-! ### Punctuation -/

/-- An operator, perhaps with an equals sign at its end. -/
def operator : Pattern α :=
  .alt
    [.seq [.set .positive "^*/+-&|!<>=", optional (.literal "=")],
     .set .positive "?:"]

/-- What leads from a value to a part of it. -/
def accessor : Pattern α :=
  .alt [.literal ".", .literal "::"]

/-! ### Strings -/

/-- An escape inside quotes: a code of up to eight digits, the quote itself, or a backslash. -/
def quoteEscape (delimiter : Char) : Pattern α :=
  .alt
    [.seq
      [.literal "\\",
       .rep (.alt [decimal, .range .positive 'a' 'f', .range .positive 'A' 'F']) 1 (some 8)],
     .literal (String.ofList ['\\', delimiter]),
     .literal "\\\\"]

/-- The end of a raw string: a backquote that no other follows. -/
def rawStringEnd : Pattern α :=
  .seq [.literal "`", notBefore (.literal "`")]

/-! ### Phrases -/

/-- The members with optional spaces between each two. -/
def spaced (members : List (Pattern α)) : Pattern α :=
  .seq (members.intersperse (zeroOrMore (.literal " ")))

/-- A type, or `var`, and the name of the variable that it defines. -/
def definition : Pattern String :=
  spaced
    [.capture (.alt [.literal "var", identifier]) "entity.name.type",
     .capture identifier "variable.other.definition"]

/-- The name of a type, before the brace that opens a literal of it. -/
def typeLiteral : Pattern String :=
  spaced [.capture identifier "entity.name.type", before (.literal "\x7b")]

/-- The name of a function, before the parenthesis that opens its arguments. -/
def call : Pattern String :=
  spaced [.capture identifier "entity.name.function", before (.literal "(")]

/-- The name of a part, after its accessor. -/
def property : Pattern α :=
  spaced [after accessor, identifier]

end TextMate.Lumen
