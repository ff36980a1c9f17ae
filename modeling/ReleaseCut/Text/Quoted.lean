import ReleaseCut.Text.Shown

/-!
# Quoted names

Names in messages stand between double quotes, so that blanks and control characters in them can be
seen.

* `quoted` writes a name: a double quote and a backslash get a backslash in front, the usual control
  characters their letter, any other character without a shape of its own its code point in
  hexadecimal.
* `quotedList` writes a list of names between brackets.
-/

namespace ReleaseCut.Text

/-- A character as it stands in a quoted name. -/
def quotedChar (c : Char) : List Char :=
  match c with
  | '"' => ['\\', '"']
  | '\\' => ['\\', '\\']
  | '\n' => ['\\', 'n']
  | '\r' => ['\\', 'r']
  | '\t' => ['\\', 't']
  | '\x00' => ['\\', '0']
  | c =>
    if isShown c then [c]
    else ['\\', 'u', '\x7b'] ++ Nat.toDigits 16 c.toNat ++ ['\x7d']

/-- A name between double quotes. -/
def quoted (name : String) : String :=
  String.ofList ('"' :: name.toList.flatMap quotedChar ++ ['"'])

/-- A list of names, each quoted, between brackets. -/
def quotedList (names : List String) : String :=
  "[" ++ ", ".intercalate (names.map quoted) ++ "]"

end ReleaseCut.Text
