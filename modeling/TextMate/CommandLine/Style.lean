/-!
# Colours of a terminal
-/

namespace TextMate.CommandLine

/-- How a stretch of text looks on a terminal. -/
inductive Style where
  | bold
  | green
  | greenBold
  | redBold
  | yellow
  | cyan
  deriving DecidableEq, Repr

namespace Style

/-- The codes of a style. -/
def codes : Style → String
  | .bold => "1"
  | .green => "32"
  | .greenBold => "1;32"
  | .redBold => "1;31"
  | .yellow => "33"
  | .cyan => "36"

/-- The sequence that starts a style. -/
def start (style : Style) : String :=
  "\x1b[" ++ style.codes ++ "m"

/-- The sequence that ends every style. -/
def reset : String :=
  "\x1b[0m"

/-- Text in a style, if colours are on. Where the text itself ends every style, the style starts again. -/
def paint (style : Style) (colors : Bool) (text : String) : String :=
  if colors then style.start ++ text.replace reset (reset ++ style.start) ++ reset else text

end Style

end TextMate.CommandLine
