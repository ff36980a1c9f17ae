import ReleaseCut.Artifact.Listing
import ReleaseCut.Bump
import ReleaseCut.Document
import ReleaseCut.Glob
import ReleaseCut.Repository.Fault
import ReleaseCut.Text.Blank
import ReleaseCut.Text.Quoted

/-!
# Errors

Everything that can end a release early. A `ReleaseError` says what went wrong; `message` words it
and `source?` is the wording of the failure underneath, where there is one.

Most errors belong to an `Area`, which opens the message.
-/

namespace ReleaseCut

/-- The part of the work in which an error arises. -/
inductive Area where
  | git
  | config
  | version
  | tag
  | branch
  | changelog
  deriving DecidableEq, Repr

/-- The opening words of the errors of an area. -/
def Area.heading : Area → String
  | .git => "Git operation failed"
  | .config => "Configuration error"
  | .version => "Version parsing error"
  | .tag => "Tag error"
  | .branch => "Branch error"
  | .changelog => "Changelog error"

/-- The message of an error of an area. -/
def Area.report (a : Area) (detail : String) : String :=
  a.heading ++ ": " ++ detail

/-! ### Causes -/

/-- Why a pattern is no name for an artifact. -/
inductive NameFlaw where
  /-- The placeholder does not occur exactly once. -/
  | placeholder
  /-- A star occurs. -/
  | wildcard
  deriving DecidableEq, Repr

/-- The wording of a placeholder missing or repeated. -/
def onePlaceholder : String :=
  "should have exactly one \x7bversion\x7d placeholder"

/-- The wording of a flaw. -/
def NameFlaw.message : NameFlaw → String
  | .placeholder => onePlaceholder
  | .wildcard => "wildcards are not allowed"

/-- Why a configuration cannot be used. -/
inductive ConfigError where
  /-- No release branch is configured. -/
  | noBranch
  /-- The release message does not name the version. -/
  | noPlaceholder
  /-- The extension of artifacts is empty. -/
  | noExtension
  /-- A file pattern is malformed. -/
  | badGlob (pattern : String) (fault : Glob.Fault)
  /-- An artifact name is malformed. -/
  | badName (pattern : String) (flaw : NameFlaw)
  /-- The file cannot be read. -/
  | unreadable (path : Path) (cause : IoError)
  /-- The file holds no configuration. -/
  | unparsable (path : Path) (fault : DocumentFault)
  deriving DecidableEq, Repr

/-- The wording of a configuration error. That of an unknown section ends with its last character
that is not blank. -/
def ConfigError.message : ConfigError → String
  | .noBranch => "At least one release branch is required"
  | .noPlaceholder => "release_message must contain a \x7bversion\x7d placeholder"
  | .noExtension => "artifact.extension must not be empty"
  | .badGlob pattern fault => "Invalid file pattern '" ++ pattern ++ "': " ++ fault.message
  | .badName pattern flaw => "Invalid artifact name '" ++ pattern ++ "': " ++ flaw.message
  | .unreadable path cause => "Cannot read " ++ path.text ++ ": " ++ cause.message
  | .unparsable path .malformed => "Cannot parse " ++ path.text
  | .unparsable path (.unknownSection text) =>
    "Cannot parse " ++ path.text ++ ": " ++
      String.ofList (Text.trimRight (unknownSectionMessage text).toList)

/-- Why a tag cannot be used. -/
inductive TagError where
  /-- The pattern is no tag format. -/
  | invalidFormat (pattern : String)
  /-- The tag is not there. -/
  | unknown (name : String)
  /-- The tag is there already. -/
  | taken (name : String)
  /-- The tag cannot be looked up. -/
  | notFound (name : String) (fault : GitFault)
  /-- The tag does not lead to a commit. -/
  | notPeeled (name : String) (fault : GitFault)
  /-- The tag cannot be created. -/
  | notCreated (name : String) (fault : GitFault)
  deriving DecidableEq, Repr

/-- The wording of a tag error. -/
def TagError.message : TagError → String
  | .invalidFormat pattern => "Invalid tag format '" ++ pattern ++ "': " ++ onePlaceholder
  | .unknown name => "Tag not found: " ++ name
  | .taken name => "Tag already exists: " ++ name
  | .notFound name fault => "Cannot find tag '" ++ name ++ "': " ++ fault.message
  | .notPeeled name fault => "Cannot peel tag '" ++ name ++ "': " ++ fault.message
  | .notCreated name fault => "Cannot create tag '" ++ name ++ "': " ++ fault.message

/-- Why the branch is not known. -/
inductive BranchError where
  /-- No branch is checked out. -/
  | detached
  /-- The name of the branch is not a text. -/
  | invalidText
  deriving DecidableEq, Repr

/-- The wording of a branch error. -/
def BranchError.message : BranchError → String
  | .detached => "HEAD is detached; pass --branch to name the release branch"
  | .invalidText => "Branch name is not valid UTF-8"

/-- Why the changelog could not be written. -/
inductive ChangelogError where
  /-- The old changelog cannot be read. -/
  | unreadable (path : Path) (cause : IoError)
  /-- No file can be made beside it. -/
  | noTemp (dir : Path) (cause : IoError)
  /-- The new changelog cannot take its place. -/
  | notReplaced (path : Path) (cause : IoError)
  deriving DecidableEq, Repr

/-- The wording of a changelog error. -/
def ChangelogError.message : ChangelogError → String
  | .unreadable path cause => "Failed to read " ++ path.text ++ ": " ++ cause.message
  | .noTemp dir cause => "Failed to create temp file in " ++ dir.text ++ ": " ++ cause.message
  | .notReplaced path cause => "Failed to replace " ++ path.text ++ ": " ++ cause.message

/-- The steps of staging an artifact that touch files. -/
inductive StagingStep where
  | stage
  | copy
  | remove
  | rename
  | list
  deriving DecidableEq, Repr

/-- The name of a step. -/
def StagingStep.name : StagingStep → String
  | .stage => "stage"
  | .copy => "copy"
  | .remove => "remove"
  | .rename => "rename"
  | .list => "list"

/-! ### Errors -/

/-- What ends a release early. -/
inductive ReleaseError where
  /-- The repository fails. -/
  | git (fault : GitFault)
  /-- The configuration cannot be used. -/
  | config (error : ConfigError)
  /-- The version cannot be raised. -/
  | version (error : Overflow)
  /-- A tag cannot be used. -/
  | tag (error : TagError)
  /-- The branch is not known. -/
  | branch (error : BranchError)
  /-- Nothing in the output directory can be published. -/
  | noArtifactFound (dir : Path) (listing : Listing)
  /-- A step of staging the artifact fails. -/
  | artifactIo (step : StagingStep) (path : Path) (cause : IoError)
  /-- After staging, other files than the artifact would be published. -/
  | artifactPostcondition (dir : Path) (glob : String) (found : List String)
  /-- The changelog cannot be written. -/
  | changelog (error : ChangelogError)
  deriving DecidableEq

/-- The message that nothing can be published. -/
def noArtifactMessage (dir : Path) (listing : String) : String :=
  "No built artifact found in " ++ dir.text ++ ". Did the build step run?\n" ++ listing

/-- The message of a failed step. -/
def artifactIoMessage (step : String) (path : Path) (cause : String) : String :=
  "Artifact " ++ step ++ " failed for " ++ path.text ++ ": " ++ cause

/-- The message that the files to publish are not the artifact alone. -/
def postconditionMessage (dir : Path) (glob : String) (found : List String) : String :=
  "Artifact postcondition violated in " ++ dir.text ++ ": expected exactly one file matching '" ++
    glob ++ "', found " ++ Text.quotedList found

namespace ReleaseError

/-- The message of an error. -/
def message : ReleaseError → String
  | git fault => Area.git.report fault.message
  | config error => Area.config.report error.message
  | version error => Area.version.report error.message
  | tag error => Area.tag.report error.message
  | branch error => Area.branch.report error.message
  | noArtifactFound dir listing => noArtifactMessage dir listing.text
  | artifactIo step path cause => artifactIoMessage step.name path cause.message
  | artifactPostcondition dir glob found => postconditionMessage dir glob found
  | changelog error => Area.changelog.report error.message

/-- The message of the failure underneath. -/
def source? : ReleaseError → Option String
  | git fault => some fault.message
  | artifactIo _ _ cause => some cause.message
  | _ => none

/-- The messages from the error down to the last failure underneath. -/
def chain (e : ReleaseError) : List String :=
  e.message :: e.source?.toList

end ReleaseError

end ReleaseCut
