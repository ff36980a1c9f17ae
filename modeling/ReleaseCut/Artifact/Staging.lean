import ReleaseCut.Artifact.Name
import ReleaseCut.FileTree.System

/-!
# Staging an artifact

The build leaves its output in a directory. Staging picks one file of it and leaves it as the only
file of the directory whose name has the published form.

* `Staging.candidates` are the files that may be picked, best first: fresh output before files that
  an earlier release left behind, and each of these in the order of names.
* `Staging.stage` copies the first candidate to a temporary file, removes all files of the published
  form and moves the copy to the name for the version; so the bytes are safe before anything is
  removed. It ends by checking that the artifact is all that would be published.

The operating system may refuse any step of this.
-/

namespace ReleaseCut

/-- Where artifacts are built and how they are published. -/
structure Staging where
  /-- The directory of the build output. -/
  outputDir : Path
  /-- The end of the names that may be picked, with its dot. -/
  extension : String
  /-- The names that may not be picked. -/
  exclude : Glob
  /-- The form of published names. -/
  name : ArtifactName
  deriving DecidableEq, Repr

/-- A published artifact. -/
structure Asset where
  /-- Where it stands. -/
  path : Path
  /-- The version it is published for. -/
  version : Version
  deriving DecidableEq

namespace Staging

variable [OperatingSystem]

/-- An extension with its dot. -/
def dotted (extension : String) : String :=
  if extension.toList.head? == some '.' then extension else "." ++ extension

/-- Reads the patterns of a configuration. -/
def ofPatterns (outputDir : Path) (extension exclude name : String) :
    Except ConfigError Staging := do
  let exclude ← Glob.ofConfig exclude
  let name ← ArtifactName.ofPattern name
  return { outputDir, extension := dotted extension, exclude, name }

/-- Whether a file may be picked. -/
def isCandidate (s : Staging) : String × Entry → Bool
  | (name, e) =>
    e.isFile && s.extension.toList.isSuffixOf name.toList && !s.exclude.describes name

/-- Whether a name is that of an earlier release. -/
def isReleased (s : Staging) (name : String) : Bool :=
  (s.name.releasedVersion? name).isSome

/-- The names of the files that may be picked out of a listing, best first. -/
def select (s : Staging) (listing : List (String × Entry)) : List String :=
  let names := (listing.filter s.isCandidate).map Prod.fst
  names.filter (!s.isReleased ·) ++ names.filter s.isReleased

/-- The path of a name in the output directory. -/
def pathOf (s : Staging) (name : String) : Path :=
  s.outputDir.join ⟨name⟩

/-- The entries of the output directory. -/
def scan (s : Staging) (d : Disk) : Except ReleaseError (List (String × Entry)) :=
  match OperatingSystem.list d s.outputDir with
  | .ok es => .ok es
  | .error e => .error (.noArtifactFound s.outputDir (.unreadable e))

/-- The files that may be picked, best first. -/
def candidates (s : Staging) (d : Disk) : Except ReleaseError (List Path) := do
  let es ← s.scan d
  return (s.select es).map s.pathOf

/-- The names of a listing that would be published. -/
def published (s : Staging) (listing : List (String × Entry)) : List String :=
  (listing.map Prod.fst).filter s.name.publishGlob.describes

/-- The names of the files in a listing that would be published. -/
def stale (s : Staging) (listing : List (String × Entry)) : List String :=
  s.published (listing.filter (·.2.isFile))

/-- Removes files of the output directory one by one, up to the first that cannot be removed. -/
def removeAll (s : Staging) (d : Disk) : List String → Except ReleaseError Unit × Disk
  | [] => (.ok (), d)
  | name :: rest =>
    match OperatingSystem.removeFile d (s.pathOf name) with
    | .ok d => removeAll s d rest
    | .error e => (.error (.artifactIo .remove (s.pathOf name) e), d)

/-- Copies a file of the output directory to a temporary file beside it, which is taken away again
if the copy fails. -/
def copyToTemp (s : Staging) (d : Disk) (name : String) :
    Except ReleaseError Location × Disk :=
  match OperatingSystem.createTemp d s.outputDir ".release-asset-" ".tmp" with
  | .error e => (.error (.artifactIo .stage s.outputDir e), d)
  | .ok (temp, d') =>
    match OperatingSystem.readBytes d' (s.pathOf name) with
    | .error e => (.error (.artifactIo .copy (s.pathOf name) e), d'.discard temp)
    | .ok bytes => (.ok temp, d'.setContent temp bytes)

/-- Checks that the name for a version is the only one that would be published. -/
def verify (s : Staging) (d : Disk) (target : Path) : Except ReleaseError Unit :=
  match OperatingSystem.list d s.outputDir with
  | .error e => .error (.artifactIo .list s.outputDir e)
  | .ok es =>
    let found := s.published es
    if found = [target.fileName?.getD ""] then .ok ()
    else .error (.artifactPostcondition s.outputDir s.name.publishGlob.pattern found)

/-- Puts a staged copy in place of everything that would be published. Whatever fails, the temporary
file is gone afterwards. -/
def publish (s : Staging) (d : Disk) (temp : Location) (old : List String) (v : Version) :
    Except ReleaseError Asset × Disk :=
  let target := s.pathOf (s.name.instantiate v)
  match s.removeAll d old with
  | (.error e, d) => (.error e, d.discard temp)
  | (.ok (), d) =>
    match OperatingSystem.rename d temp target with
    | .error e => (.error (.artifactIo .rename target e), d.discard temp)
    | .ok d =>
      match s.verify d target with
      | .error e => (.error e, d)
      | .ok () => (.ok ⟨target, v⟩, d)

/-- Stages the artifact for a version. The disk is that after the attempt, successful or not. -/
def stage (s : Staging) (d : Disk) (v : Version) : Except ReleaseError Asset × Disk :=
  match s.scan d with
  | .error e => (.error e, d)
  | .ok es =>
    match s.select es with
    | [] => (.error (.noArtifactFound s.outputDir (.entries es)), d)
    | chosen :: _ =>
      match s.copyToTemp d chosen with
      | (.error e, d) => (.error e, d)
      | (.ok temp, d) => s.publish d temp (s.stale es) v

end Staging

end ReleaseCut
