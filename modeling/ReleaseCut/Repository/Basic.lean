import ReleaseCut.Commit.Basic
import ReleaseCut.Error
import ReleaseCut.TagFormat

/-!
# Repositories

All that a release asks of a repository, as a class: the branch checked out, the latest release, the
commits since then, and a new tag.
-/

namespace ReleaseCut

/-- A commit as a repository knows it. -/
structure CommitInfo where
  /-- The hash of the commit. -/
  hash : String
  /-- The whole message. -/
  message : String
  deriving DecidableEq, Repr

/-- Reads the message of a commit. -/
def CommitInfo.toCommit (c : CommitInfo) : Commit :=
  Commit.parse c.message c.hash

/-- A tag that names a version. -/
structure ReleaseTag where
  /-- The name of the tag. -/
  name : String
  /-- The version it names. -/
  version : Version
  deriving DecidableEq

/-- The tag of the greater version; the second one if they are equal. -/
def ReleaseTag.later (a b : ReleaseTag) : ReleaseTag :=
  if compare a.version b.version = .gt then a else b

/-- The version that a tag of a format names, with the name. -/
def ReleaseTag.read? (f : TagFormat) (name : String) : Option ReleaseTag :=
  (f.read? name).map (⟨name, ·⟩)

/-- A repository from which releases are made. -/
class Repository (ρ : Type) where
  /-- The branch checked out. -/
  currentBranch : ρ → Except ReleaseError String
  /-- The tag of the greatest version that a format recognises. -/
  latestTag : ρ → TagFormat → Except ReleaseError (Option ReleaseTag)
  /-- The commits since a tag, or all of them, oldest first. -/
  commitsSince : ρ → Option String → Except ReleaseError (List CommitInfo)
  /-- The repository with a new tag on the commit checked out. -/
  createTag : ρ → String → Except ReleaseError ρ

end ReleaseCut
