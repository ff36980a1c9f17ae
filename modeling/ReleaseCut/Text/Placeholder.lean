/-!
# The version placeholder

Configured texts name the version by the placeholder `{version}`. A text falls into the pieces
between its placeholders; a template is a text with exactly one.

* `pieces` cuts at every placeholder, from left to right.
* `substitute` writes a value in place of every placeholder.
* `Template.ofText?` accepts exactly the texts of two pieces; `Template.fill` writes the value
  between them and `Template.extract?` reads it back.
-/

namespace ReleaseCut.Text

/-- The text that stands for the version. -/
def placeholder : List Char :=
  ['\x7b', 'v', 'e', 'r', 's', 'i', 'o', 'n', '\x7d']

/-- Puts a character in front of the first piece. -/
def extendFirst (c : Char) : List (List Char) → List (List Char)
  | [] => [[c]]
  | p :: ps => (c :: p) :: ps

/-- The pieces of a text whose first `skip` characters belong to a placeholder already cut. -/
def piecesFrom : (skip : Nat) → List Char → List (List Char)
  | _, [] => [[]]
  | skip + 1, _ :: s => piecesFrom skip s
  | 0, c :: s =>
    if placeholder.isPrefixOf (c :: s) then [] :: piecesFrom (placeholder.length - 1) s
    else extendFirst c (piecesFrom 0 s)

/-- The pieces of a text between its placeholders, one more than there are placeholders. -/
def pieces (s : List Char) : List (List Char) :=
  piecesFrom 0 s

/-- Writes `value` in place of every placeholder of `text`. -/
def substitute (value text : String) : String :=
  String.ofList (value.toList.intercalate (pieces text.toList))

/-- Whether a text holds the placeholder. -/
def hasPlaceholder (text : String) : Bool :=
  1 < (pieces text.toList).length

/-- What is left of `s` after its leading part `p`. -/
def afterLeading? (p s : List Char) : Option (List Char) :=
  if p.isPrefixOf s then some (s.drop p.length) else none

/-- What is left of `s` before its trailing part `q`. -/
def beforeTrailing? (q s : List Char) : Option (List Char) :=
  if q.isSuffixOf s then some (s.take (s.length - q.length)) else none

/-- A text with exactly one placeholder, as what stands before and after it. -/
structure Template where
  /-- The text before the placeholder. -/
  before : String
  /-- The text after the placeholder. -/
  after : String
  deriving DecidableEq, Repr

namespace Template

/-- The template of a text, if it holds the placeholder exactly once. -/
def ofText? (text : String) : Option Template :=
  match pieces text.toList with
  | [b, a] => some ⟨String.ofList b, String.ofList a⟩
  | _ => none

/-- The text with `value` in place of the placeholder. -/
def fill (t : Template) (value : String) : String :=
  t.before ++ value ++ t.after

/-- What stands between the two parts, in a text that starts with the one and goes on to end with
the other. The parts do not overlap. -/
def extract? (t : Template) (text : String) : Option String := do
  let rest ← afterLeading? t.before.toList text.toList
  let value ← beforeTrailing? t.after.toList rest
  return String.ofList value

end Template

end ReleaseCut.Text
