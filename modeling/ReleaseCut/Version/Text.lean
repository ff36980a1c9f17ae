import ReleaseCut.Text.Split
import ReleaseCut.Version.Basic

/-!
# The written form of a version

`1.2.3-rc.1+build.5`: three decimal components, a pre-release part after a hyphen, build metadata
after a plus sign.

* `Version.toList` writes a version.
* `Version.ofList?` reads it back and accepts nothing else: no sign, no needless zero, no empty
  identifier, no component of 2^64 or more.
-/

namespace ReleaseCut

namespace Version

/-- The decimal digits of a component. -/
def component (n : UInt64) : List Char :=
  Nat.toDigits 10 n.toNat

/-- Identifiers between dots. -/
def dotted (is : List Identifier) : List Char :=
  ['.'].intercalate (is.map Identifier.toList)

/-- A part behind its mark, or nothing for an empty part. -/
def marked (mark : Char) (is : List Identifier) : List Char :=
  if is.isEmpty then [] else mark :: dotted is

/-- The written form of a version. -/
def toList (v : Version) : List Char :=
  component v.major ++ '.' :: component v.minor ++ '.' :: component v.patch ++
    marked '-' v.pre ++ marked '+' v.build

/-- The written form of a version. -/
def text (v : Version) : String :=
  String.ofList v.toList

instance : ToString Version := ⟨text⟩

/-- Reads a component: digits without needless zeros, of a value below 2^64. -/
def component? (s : List Char) : Option UInt64 :=
  if s ≠ [] ∧ s.all Char.isDigit = true ∧ (s.head? = some '0' → s.length = 1) then
    let n := Nat.ofDigitChars 10 s 0
    if n < UInt64.size then some (UInt64.ofNat n) else none
  else none

/-- Reads identifiers between dots. -/
def identifiers? (s : List Char) : Option (List Identifier) :=
  (Text.splitOn '.' s).mapM Identifier.ofList?

/-- Reads a part that may be absent. -/
def part? : Option (List Char) → Option (List Identifier)
  | none => some []
  | some s => identifiers? s

/-- Reads a version. Neither a plus sign nor a hyphen occurs before the part that it marks, so the
first of each is the mark. -/
def ofList? (s : List Char) : Option Version := do
  let (main, build) := Text.cutAt '+' s
  let (core, pre) := Text.cutAt '-' main
  match Text.splitOn '.' core with
  | [a, b, c] =>
    let major ← component? a
    let minor ← component? b
    let patch ← component? c
    let pre ← part? pre
    let build ← part? build
    if h : pre.all Identifier.isPlain = true then
      some { major, minor, patch, pre, build, pre_plain := h }
    else none
  | _ => none

/-- Reads a version. -/
def ofText? (s : String) : Option Version :=
  ofList? s.toList

end Version

end ReleaseCut
