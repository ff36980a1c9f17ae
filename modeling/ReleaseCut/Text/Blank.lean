/-!
# Blank characters

The characters of the Unicode property `White_Space`, and cutting them off the ends of a text.

* `isBlank` decides the property; it holds of 25 characters, the blank ones of ASCII among them.
* `trimLeft`, `trimRight` and `trim` remove the longest run of blanks at an end.
-/

namespace ReleaseCut.Text

/-- The Unicode property `White_Space`. The zero-width space U+200B and the byte order mark U+FEFF
do not have it. -/
def isBlank (c : Char) : Bool :=
  let n := c.toNat
  (0x09 ≤ n && n ≤ 0x0D) || n == 0x20 || n == 0x85 || n == 0xA0 || n == 0x1680 ||
    (0x2000 ≤ n && n ≤ 0x200A) || n == 0x2028 || n == 0x2029 || n == 0x202F || n == 0x205F ||
    n == 0x3000

/-- Removes the longest run of blanks at the start. -/
def trimLeft (s : List Char) : List Char :=
  s.dropWhile isBlank

/-- Removes the longest run of blanks at the end. -/
def trimRight (s : List Char) : List Char :=
  (trimLeft s.reverse).reverse

/-- Removes the blanks at both ends. -/
def trim (s : List Char) : List Char :=
  trimRight (trimLeft s)

@[simp] theorem trimLeft_nil : trimLeft [] = [] := rfl

@[simp] theorem trimRight_nil : trimRight [] = [] := rfl

end ReleaseCut.Text
