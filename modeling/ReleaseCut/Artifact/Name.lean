import ReleaseCut.Error
import ReleaseCut.Text.Placeholder

/-!
# Artifact names

The name under which an artifact is published: a text with the version in one place.

* `ArtifactName.instantiate` is the name for a version, `ArtifactName.releasedVersion?` reads the
  version back from the name of an earlier release.
* `ArtifactName.publishGlob` describes the names with any text in place of the version. Its tokens
  are the characters around the placeholder with a run of characters between them.
-/

namespace ReleaseCut

/-- The form of published names. -/
structure ArtifactName where
  /-- The text around the version. -/
  template : Text.Template
  /-- The pattern of all names of this form. -/
  publishGlob : Glob
  deriving DecidableEq, Repr

/-- Reads a file pattern of the configuration. -/
def Glob.ofConfig (pattern : String) : Except ConfigError Glob :=
  match Glob.parse pattern with
  | .ok g => .ok g
  | .error fault => .error (.badGlob pattern fault)

namespace ArtifactName

/-- The pattern that describes the names of a form: its text with a star in place of the version. -/
def globPattern (t : Text.Template) : String :=
  String.ofList (Glob.escape t.before.toList ++ '*' :: Glob.escape t.after.toList)

/-- Reads a pattern, which has to hold the placeholder exactly once and no star. -/
def ofPattern (pattern : String) : Except ConfigError ArtifactName :=
  match Text.Template.ofText? pattern with
  | none => .error (.badName pattern .placeholder)
  | some t =>
    if t.before.toList.contains '*' || t.after.toList.contains '*' then
      .error (.badName pattern .wildcard)
    else do
      let g ← Glob.ofConfig (globPattern t)
      return { template := t, publishGlob := g }

/-- The name for a version. -/
def instantiate (n : ArtifactName) (v : Version) : String :=
  n.template.fill v.text

/-- The version of a file that an earlier release left behind. -/
def releasedVersion? (n : ArtifactName) (file : String) : Option Version := do
  let text ← n.template.extract? file
  Version.ofText? text

end ArtifactName

end ReleaseCut
