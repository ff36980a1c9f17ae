/-!
# Styled text

Texts in colour, bold or underlined, for terminals that know the escape sequences. A styled text is
closed by a reset; without styling it is the text alone.
-/

namespace ReleaseCut

/-- How a piece of text looks. -/
inductive Style where
  | red
  | green
  | yellow
  | cyan
  | bold
  | underlined
  deriving DecidableEq, Repr

namespace Style

/-- The number that selects a style. -/
def code : Style → String
  | .red => "31"
  | .green => "32"
  | .yellow => "33"
  | .cyan => "36"
  | .bold => "1"
  | .underlined => "4"

/-- The sequence that selects a graphic rendition by its number. -/
def select (code : String) : String :=
  "\x1b[" ++ code ++ "m"

/-- A text in a style, if styling is on. -/
def apply (style : Style) (styled : Bool) (text : String) : String :=
  if styled then select style.code ++ text ++ select "0" else text

end Style

end ReleaseCut
