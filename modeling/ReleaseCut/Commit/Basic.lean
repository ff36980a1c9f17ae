import ReleaseCut.Commit.Kind

/-!
# Commits

A commit message is read by its first line alone, the header: a token, one blank, a subject.

* `Commit.parse` splits the header. A header that starts with a blank, or has none, is all token.
* `Commit.kind?` classifies the commit by its token.
-/

namespace ReleaseCut

/-- A commit as the release notes see it. -/
structure Commit where
  /-- The first line of the message without trailing blanks. -/
  header : String
  /-- The part of the header before its first blank. -/
  token : String
  /-- The part of the header after its first blank. -/
  subject : String
  /-- The part of the product that the commit belongs to; messages carry none. -/
  scope : Option String
  /-- The hash of the commit. -/
  hash : String
  deriving DecidableEq, Repr

namespace Commit

/-- The first line of a message, without trailing blanks. A carriage return at its end is such a
blank. -/
def headerOf (message : List Char) : List Char :=
  Text.trimRight (message.takeWhile (· != '\n'))

/-- The token and the subject of a header. -/
def splitHeader (header : List Char) : List Char × List Char :=
  match header.takeWhile (!Text.isBlank ·), header.dropWhile (!Text.isBlank ·) with
  | c :: token, _ :: subject => (c :: token, subject)
  | _, _ => (header, [])

/-- Reads a commit message. -/
def parse (message hash : String) : Commit :=
  let header := headerOf message.toList
  let (token, subject) := splitHeader header
  { header := String.ofList header
    token := String.ofList token
    subject := String.ofList subject
    scope := none
    hash }

/-- The kind of a commit, if its token is known. -/
def kind? (c : Commit) : Option Kind :=
  Kind.ofToken? c.token

/-- The number of characters of a short hash. -/
def shortHashLength : Nat := 7

/-- The start of the hash. -/
def shortHash (c : Commit) : String :=
  String.ofList (c.hash.toList.take shortHashLength)

end Commit

end ReleaseCut
