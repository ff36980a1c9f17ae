import ReleaseCut.Bytes
import ReleaseCut.Text.Split

/-!
# Names of references

Names of branches and tags are bytes, most of them texts.

* `RefName.bytes` is the sequence of bytes by which names are sorted.
* `tagName?` decides which texts may name a tag, and what the tag is called.
-/

namespace ReleaseCut

/-- The name of a branch or a tag. -/
inductive RefName where
  /-- A name that is a text. -/
  | text (name : String)
  /-- A name whose bytes are no text. -/
  | raw (bytes : ByteArray)
  deriving DecidableEq

namespace RefName

/-- The name of a sequence of bytes. -/
def ofBytes (bytes : ByteArray) : RefName :=
  match String.fromUTF8? bytes with
  | some name => .text name
  | none => .raw bytes

/-- The bytes of a name. -/
def bytes : RefName → ByteArray
  | .text name => name.toUTF8
  | .raw bytes => bytes

/-- The name, if it is a text. -/
def text? : RefName → Option String
  | .text name => some name
  | .raw _ => none

/-- The name as a text, where every byte that is not ASCII in a name that is no text becomes the
replacement character. -/
def shown : RefName → String
  | .text name => name
  | .raw bytes =>
    String.ofList (bytes.toList.map fun b => if b < 128 then Char.ofNat b.toNat else '\ufffd')

/-- The order of names by their bytes. -/
def mayPrecede (a b : RefName) : Bool :=
  (compare (a.bytes.toList.map UInt8.toNat) (b.bytes.toList.map UInt8.toNat)).isLE

end RefName

/-- The characters that no name of a reference holds. -/
def isForbiddenInRef (c : Char) : Bool :=
  c ≤ ' ' || c == '\x7f' || "~^:?*[\\".toList.contains c

/-- Whether two characters follow each other somewhere in a text. -/
def holdsPair (a b : Char) : List Char → Bool
  | c :: d :: s => (c == a && d == b) || holdsPair a b (d :: s)
  | _ => false

/-- Whether a part of a name may stand between slashes: it does not start with a dot or end in
`.lock`, and holds neither two dots in a row, nor `@` before an opening brace, nor a forbidden
character. -/
def isRefPart (part : List Char) : Bool :=
  part.head? != some '.' && !part.any isForbiddenInRef &&
    !holdsPair '.' '.' part && !holdsPair '@' '\x7b' part && !".lock".toList.isSuffixOf part

/-- The name of the tag that a text asks for, if it may name one: all its parts between slashes may
stand there, and it does not end in a dot or a slash. Slashes in a row count as one, and slashes at
the start do not count. -/
def tagName? (text : String) : Option String :=
  let parts := (Text.splitOn '/' text.toList).filter (!·.isEmpty)
  match text.toList.getLast? with
  | none | some '.' | some '/' => none
  | some _ =>
    if parts.all isRefPart then some (String.ofList (['/'].intercalate parts)) else none

end ReleaseCut
