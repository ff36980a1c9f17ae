import ReleaseCut.Text.Placeholder
import ReleaseCut.Version.Text

/-!
# Tag formats

How a tag names a version: a text with the version in one place, such as `v{version}`.

* `TagFormat.write` and `TagFormat.read?` go from versions to tags and back. A tag is recognised by
  the format when it reads as a version.
-/

namespace ReleaseCut

/-- The form of release tags. -/
structure TagFormat where
  /-- The text around the version. -/
  template : Text.Template
  deriving DecidableEq, Repr

namespace TagFormat

/-- The format of a pattern, which has to hold the placeholder exactly once. -/
def ofPattern? (pattern : String) : Option TagFormat :=
  (Text.Template.ofText? pattern).map TagFormat.mk

/-- The tag of a version. -/
def write (f : TagFormat) (v : Version) : String :=
  f.template.fill v.text

/-- The version that a tag names. -/
def read? (f : TagFormat) (tag : String) : Option Version := do
  let text ← f.template.extract? tag
  Version.ofText? text

end TagFormat

end ReleaseCut
