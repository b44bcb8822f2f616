import TextMate.Document.Compile
import TextMate.Pattern.Checked

/-!
# Errors of the library

One type for all that can go wrong, with a wording that says in which of three activities it did.
-/

namespace TextMate

/-- Whatever can go wrong. -/
inductive Error where
  /-- A pattern was built from unfit parts. -/
  | invalidPattern (error : Pattern.Error)
  /-- A rule was built from unfit parts, or could not be registered. -/
  | invalidRule (error : Rule.Error)
  /-- A grammar has no document. -/
  | compile (error : Document.Error)
  deriving DecidableEq, Repr

/-- The wording of an error. -/
def Error.message : Error → String
  | .invalidPattern error => "invalid pattern: " ++ error.message
  | .invalidRule error => "invalid rule: " ++ error.message
  | .compile error => "compilation error: " ++ error.message

end TextMate
