import ReleaseCut.Notes.Basic

/-!
# Release notes in Markdown

* `Notes.render` writes a heading of the second level with version and date, then for every group a
  heading of the third level, a blank line and one item for each entry.
* An item shows scope and short hash only where they are not empty.
-/

namespace ReleaseCut

namespace Notes

/-- The item of an entry, without the end of the line. -/
def Entry.line (e : Entry) : String :=
  let scope := if e.scopeText.isEmpty then "" else "**" ++ e.scopeText ++ ":** "
  let hash := if e.shortHash.isEmpty then "" else " (" ++ e.shortHash ++ ")"
  "* " ++ scope ++ e.subject ++ hash

/-- The Markdown of a group. -/
def Group.render (g : Group) : String :=
  "\n### " ++ g.heading.title ++ "\n\n" ++ String.join (g.entries.map (·.line ++ "\n"))

/-- The heading line of the notes. -/
def titleLine (n : Notes) : String :=
  "## " ++ n.version.text ++ " (" ++ n.date.text ++ ")"

/-- The Markdown of the notes. -/
def render (n : Notes) : String :=
  n.titleLine ++ "\n" ++ String.join (n.groups.map Group.render)

end Notes

end ReleaseCut
