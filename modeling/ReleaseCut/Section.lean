import ReleaseCut.Text.Blank

/-!
# Sections of the release notes

The headings under which changes are listed.

* `Section.ofText?` reads a heading in any case of ASCII letters and with blanks around it.
* `Section.rank` is the place of a section in a configured order; the sections left out share the
  place after all others.
-/

namespace ReleaseCut

/-- A heading of the release notes. -/
inductive Section where
  | breakingChanges
  | features
  | bugFixes
  | documentation
  | maintenance
  | other
  deriving DecidableEq, Repr

namespace Section

/-- All sections in their standard order. -/
def all : List Section :=
  [.breakingChanges, .features, .bugFixes, .documentation, .maintenance, .other]

/-- The heading of a section. -/
def title : Section → String
  | .breakingChanges => "Breaking Changes"
  | .features => "Features"
  | .bugFixes => "Bug Fixes"
  | .documentation => "Documentation"
  | .maintenance => "Maintenance"
  | .other => "Other"

/-- The place of a section in the standard order. -/
def index : Section → Nat
  | .breakingChanges => 0
  | .features => 1
  | .bugFixes => 2
  | .documentation => 3
  | .maintenance => 4
  | .other => 5

/-- Whether a text is a title up to the case of ASCII letters and blanks around it. -/
def matchesTitle (text : String) (s : Section) : Bool :=
  (Text.trim text.toList).map Char.toLower == s.title.toList.map Char.toLower

/-- The section that a text names. -/
def ofText? (text : String) : Option Section :=
  all.find? (matchesTitle text)

/-- The place of a section in an order: its first position, or the length of the order if it is
not listed. -/
def rank (s : Section) (order : List Section) : Nat :=
  order.findIdx (· == s)

end Section

end ReleaseCut
