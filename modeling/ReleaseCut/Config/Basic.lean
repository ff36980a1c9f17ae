import ReleaseCut.Artifact.Staging
import ReleaseCut.Section
import ReleaseCut.TagFormat

/-!
# Configuration

What a project can configure about its releases, and the defaults.

* `Config.validate` checks what types cannot say. The first fault in its order is reported.
* `Config.releaseMessageFor` writes the version in place of every placeholder of the message.
-/

namespace ReleaseCut

/-- Where the build leaves its output and how the artifact is published. -/
structure ArtifactConfig where
  /-- The directory of the build output. -/
  outputDir : Path
  /-- The extension of artifacts, with or without its dot. -/
  extension : String
  /-- The names that are never published. -/
  excludePattern : String
  /-- The published name. -/
  namePattern : String
  /-- What the artifact is called in messages. -/
  label : String
  deriving DecidableEq, Repr

/-- A text with the placeholder between two others. -/
def aroundPlaceholder (before after : String) : String :=
  before ++ String.ofList Text.placeholder ++ after

/-- The artifact that is published unless configured otherwise. -/
def ArtifactConfig.standard : ArtifactConfig where
  outputDir := ⟨"target"⟩
  extension := ".jar"
  excludePattern := "original-*.jar"
  namePattern := aroundPlaceholder "windtrader-java-" ".jar"
  label := "windtrader-java shaded jar"

/-- The configuration of a project. -/
structure Config where
  /-- The branches from which releases are made. -/
  branches : List String
  /-- The form of release tags. -/
  tagPattern : String
  /-- The message of the release commit. -/
  releaseMessage : String
  /-- The changelog. -/
  changelogFile : Path
  /-- The order of sections in release notes. -/
  sectionOrder : List Section
  /-- The artifact. -/
  artifact : ArtifactConfig
  deriving DecidableEq, Repr

namespace Config

/-- The configuration of a project that configures nothing. -/
def standard : Config where
  branches := ["main"]
  tagPattern := aroundPlaceholder "v" ""
  releaseMessage := aroundPlaceholder "🔖 Release v" "\n\n[skip ci]"
  changelogFile := ⟨"CHANGELOG.md"⟩
  sectionOrder := Section.all
  artifact := .standard

/-- The tag format. -/
def tagFormat (c : Config) : Except ReleaseError TagFormat :=
  match TagFormat.ofPattern? c.tagPattern with
  | some f => .ok f
  | none => .error (.tag (.invalidFormat c.tagPattern))

/-- The rules for staging the artifact below a directory. -/
def staging (c : Config) (root : Path) : Except ReleaseError Staging :=
  let a := c.artifact
  (Staging.ofPatterns (root.join a.outputDir) a.extension a.excludePattern a.namePattern).mapError
    .config

/-- The message of the commit that releases a version. -/
def releaseMessageFor (c : Config) (v : Version) : String :=
  Text.substitute v.text c.releaseMessage

/-- Checks a configuration. -/
def validate (c : Config) : Except ReleaseError Unit := do
  if c.branches.isEmpty then throw (.config .noBranch)
  let _ ← c.tagFormat
  if !Text.hasPlaceholder c.releaseMessage then throw (.config .noPlaceholder)
  if c.artifact.extension.toList.all (· == '.') then throw (.config .noExtension)
  let _ ← (Glob.ofConfig c.artifact.excludePattern).mapError .config
  let _ ← (ArtifactName.ofPattern c.artifact.namePattern).mapError .config

end Config

end ReleaseCut
