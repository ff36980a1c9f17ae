/-!
# Identifiers of a version

A pre-release or build part of a version is a list of identifiers between dots. An identifier is a
non-empty text of ASCII letters, digits and hyphens.

* `Identifier.ofList?` accepts exactly these texts, so each has one written form.
* `Identifier.compare` is the order of precedence: a numeric identifier comes before any other, two
  numeric ones go by value and then by length, two others by their characters.
-/

namespace ReleaseCut

/-- The characters of an identifier. -/
def isIdentifierChar (c : Char) : Bool :=
  c.isAlphanum || c == '-'

/-- A non-empty text of ASCII letters, digits and hyphens. -/
structure Identifier where
  /-- The characters, in order. -/
  toList : List Char
  /-- There is at least one character. -/
  ne_nil : toList ≠ []
  /-- Every character is a letter, a digit or a hyphen. -/
  chars : toList.all isIdentifierChar = true
  deriving DecidableEq

namespace Identifier

/-- Reads an identifier. -/
def ofList? (s : List Char) : Option Identifier :=
  if h : s ≠ [] ∧ s.all isIdentifierChar = true then some ⟨s, h.1, h.2⟩ else none

@[simp] theorem ofList?_toList (i : Identifier) : ofList? i.toList = some i := by
  simp [ofList?, i.ne_nil, i.chars]

/-- Whether the identifier holds digits only. -/
def isNumeric (i : Identifier) : Bool :=
  i.toList.all Char.isDigit

/-- Whether a numeric identifier is written without needless zeros in front. -/
def isPlain (i : Identifier) : Bool :=
  !(i.isNumeric && i.toList.head? == some '0' && 1 < i.toList.length)

/-- The value of a numeric identifier. -/
def value (i : Identifier) : Nat :=
  Nat.ofDigitChars 10 i.toList 0

/-- The order of two identifiers: numeric ones first, by value and then by length, so that
`1 < 01 < 001 < 2`; the others by their characters. -/
protected def compare (i j : Identifier) : Ordering :=
  match i.isNumeric, j.isNumeric with
  | true, true =>
    (Ord.compare i.value j.value).then (Ord.compare i.toList.length j.toList.length)
  | true, false => .lt
  | false, true => .gt
  | false, false => Ord.compare i.toList j.toList

instance : Ord Identifier := ⟨Identifier.compare⟩

end Identifier

end ReleaseCut
