import ReleaseCut.Config.Basic

/-!
# Configuration documents

A configuration as a table. Keys that are left out keep their defaults, unknown keys are ignored,
and a value of the wrong type is a fault.

* `Config.ofValue` reads a document, `Config.toValue` writes one with all keys.
-/

namespace ReleaseCut

/-- Reads the name of a section. -/
def Section.ofValue (v : Value) : Except DocumentFault Section := do
  let text ← v.asText
  match Section.ofText? text with
  | some s => .ok s
  | none => .error (.unknownSection text)

namespace ArtifactConfig

/-- The keys of an artifact, in order. -/
def keys : List String :=
  ["output_dir", "extension", "exclude_pattern", "name_pattern", "label"]

/-- Sets the value of one key. -/
def set (c : ArtifactConfig) : String × Value → Except DocumentFault ArtifactConfig
  | ("output_dir", v) => return { c with outputDir := ⟨← v.asText⟩ }
  | ("extension", v) => return { c with extension := ← v.asText }
  | ("exclude_pattern", v) => return { c with excludePattern := ← v.asText }
  | ("name_pattern", v) => return { c with namePattern := ← v.asText }
  | ("label", v) => return { c with label := ← v.asText }
  | _ => return c

/-- Reads an artifact. -/
def ofValue (v : Value) : Except DocumentFault ArtifactConfig := do
  (← v.asRecord keys).foldlM set standard

/-- The table of an artifact. -/
def toValue (c : ArtifactConfig) : Value :=
  .table [
    ("output_dir", .text c.outputDir.text),
    ("extension", .text c.extension),
    ("exclude_pattern", .text c.excludePattern),
    ("name_pattern", .text c.namePattern),
    ("label", .text c.label)]

end ArtifactConfig

namespace Config

/-- The keys of a configuration, in order. -/
def keys : List String :=
  ["branches", "tag_format", "release_message", "changelog_file", "section_order", "artifact"]

/-- Sets the value of one key. -/
def set (c : Config) : String × Value → Except DocumentFault Config
  | ("branches", v) => return { c with branches := ← (← v.asList).mapM Value.asText }
  | ("tag_format", v) => return { c with tagPattern := ← v.asText }
  | ("release_message", v) => return { c with releaseMessage := ← v.asText }
  | ("changelog_file", v) => return { c with changelogFile := ⟨← v.asText⟩ }
  | ("section_order", v) => return { c with sectionOrder := ← (← v.asList).mapM Section.ofValue }
  | ("artifact", v) => return { c with artifact := ← ArtifactConfig.ofValue v }
  | _ => return c

/-- Reads a configuration. -/
def ofValue (v : Value) : Except DocumentFault Config := do
  (← v.asRecord keys).foldlM set standard

/-- The table of a configuration. -/
def toValue (c : Config) : Value :=
  .table [
    ("branches", .list (c.branches.map .text)),
    ("tag_format", .text c.tagPattern),
    ("release_message", .text c.releaseMessage),
    ("changelog_file", .text c.changelogFile.text),
    ("section_order", .list (c.sectionOrder.map (.text ·.title))),
    ("artifact", c.artifact.toValue)]

end Config

end ReleaseCut
