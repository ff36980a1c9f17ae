import ReleaseCut.Commit.Tally
import ReleaseCut.Date

/-!
# Release notes

Release notes list the classified commits under the headings of their sections.

* `Notes.groupsOf` makes one group for every section that occurs. Groups follow the configured order
  of sections, those left out of it come last in the standard order.
* Within a group the entries go by scope, subject and short hash, where an absent scope counts as
  the empty one. Entries equal in all three keep the order of their commits.
-/

namespace ReleaseCut

namespace Notes

/-- One line of the release notes. -/
structure Entry where
  /-- The heading that the entry belongs under. -/
  heading : Section
  /-- The part of the product. -/
  scope : Option String
  /-- What was changed. -/
  subject : String
  /-- The short hash of the commit, empty if it is not known. -/
  shortHash : String
  deriving DecidableEq, Repr

namespace Entry

/-- The entry of a commit, if its kind is known. -/
def ofCommit? (c : Commit) : Option Entry :=
  c.kind?.map fun k =>
    { heading := k.heading, scope := c.scope, subject := c.subject, shortHash := c.shortHash }

/-- The scope, where an absent one counts as empty. -/
def scopeText (e : Entry) : String :=
  e.scope.getD ""

/-- The order of entries under one heading: by scope, then subject, then short hash, each compared
character by character. -/
protected def compare (a b : Entry) : Ordering :=
  (Ord.compare a.scopeText b.scopeText).then <|
  (Ord.compare a.subject b.subject).then <|
  Ord.compare a.shortHash b.shortHash

/-- Whether one entry may stand before another. -/
def mayPrecede (a b : Entry) : Bool :=
  (a.compare b).isLE

end Entry

/-- The entries under one heading. -/
structure Group where
  /-- The heading. -/
  heading : Section
  /-- The entries, in order. -/
  entries : List Entry
  deriving DecidableEq, Repr

/-- Whether one section may stand before another, in a configured order. -/
def sectionMayPrecede (order : List Section) (s t : Section) : Bool :=
  s.rank order < t.rank order || (s.rank order == t.rank order && s.index ≤ t.index)

/-- All sections, in a configured order. -/
def arrange (order : List Section) : List Section :=
  Section.all.mergeSort (sectionMayPrecede order)

/-- The group of one section, if any entry belongs to it. -/
def group? (entries : List Entry) (s : Section) : Option Group :=
  match entries.filter (·.heading == s) with
  | [] => none
  | es => some ⟨s, es.mergeSort Entry.mayPrecede⟩

/-- The release notes of a list of commits. -/
def groupsOf (commits : List Commit) (order : List Section) : List Group :=
  (arrange order).filterMap (group? (commits.filterMap Entry.ofCommit?))

end Notes

/-- Release notes for one version. -/
structure Notes where
  /-- The version they describe. -/
  version : Version
  /-- The day of the release. -/
  date : Date
  /-- The changes under their headings. -/
  groups : List Notes.Group
  deriving DecidableEq

namespace Notes

/-- Whether the notes list no change. -/
def isEmpty (n : Notes) : Bool :=
  n.groups.isEmpty

/-- The number of changes listed. -/
def entryCount (n : Notes) : Nat :=
  (n.groups.flatMap (·.entries)).length

end Notes

end ReleaseCut
