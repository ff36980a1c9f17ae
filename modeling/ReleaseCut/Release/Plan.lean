import ReleaseCut.Config.Basic
import ReleaseCut.Notes.Markdown
import ReleaseCut.Release.Notice
import ReleaseCut.Repository.Basic

/-!
# Release plans

All that is decided about a release before anything is written.

* `Decision.ofCommits` decides from the commits since the previous release alone. It plans a release
  exactly if some commit is classified and the version can be raised.
* `Decision.make` asks a repository for these commits. On a branch without releases nothing is asked
  of the repository but, at most, the branch.
-/

namespace ReleaseCut

/-- A release as planned. -/
structure Plan where
  /-- The branch that is released. -/
  branch : String
  /-- The release before. -/
  previous : Option ReleaseTag
  /-- The commits since then, oldest first. -/
  commits : List Commit
  /-- How far the version moves. -/
  bump : Bump
  /-- The version to release. -/
  version : Version
  /-- The name of its tag. -/
  tag : String
  /-- The release notes. -/
  notes : Notes
  /-- The message of the release commit. -/
  releaseMessage : String
  /-- The warnings met. -/
  warnings : List Warning
  deriving DecidableEq

/-- Whether and what to release. -/
inductive Decision where
  /-- No release is made. -/
  | skip (reason : SkipReason) (warnings : List Warning)
  /-- A release is made. -/
  | release (plan : Plan)
  deriving DecidableEq

namespace Decision

/-- The warning that there is no release before. -/
def originWarnings (c : Config) (previous : Option ReleaseTag) : List Warning :=
  if previous.isNone then [.firstRelease c.tagPattern] else []

/-- The warning that there is nothing after the release before. -/
def idleWarnings (previous : Option ReleaseTag) : List Warning :=
  previous.toList.map (.noNewCommits ·.name)

/-- The warning that commits are left out. -/
def ignoredWarnings (commits : List Commit) : List Warning :=
  let ignored := Commit.unclassified commits
  if ignored = 0 then [] else [.unclassified ignored commits.length]

/-- The decision for a list of commits that follow the previous release. -/
def ofCommits (c : Config) (f : TagFormat) (branch : String) (previous : Option ReleaseTag)
    (commits : List Commit) (date : Date) : Except ReleaseError Decision := do
  let origin := originWarnings c previous
  if commits.isEmpty then return skip .noCommits (origin ++ idleWarnings previous)
  let warnings := origin ++ ignoredWarnings commits
  let bump := Commit.largestBump commits
  match ← (bump.next? (previous.map (·.version))).mapError .version with
  | none => return skip .noBump warnings
  | some version =>
    return release {
      branch, previous, commits, bump, version, warnings
      tag := f.write version
      notes := { version, date, groups := Notes.groupsOf commits c.sectionOrder }
      releaseMessage := c.releaseMessageFor version }

/-- The decision for a repository. The branch is the one given, else the one checked out. -/
def make {ρ : Type} [Repository ρ] (r : ρ) (c : Config) (branch : Option String) (date : Date) :
    Except ReleaseError Decision := do
  let branch ← match branch with
    | some name => pure name
    | none => Repository.currentBranch r
  if !c.branches.contains branch then return skip (.notReleaseBranch branch) []
  let f ← c.tagFormat
  let previous ← Repository.latestTag r f
  let infos ← Repository.commitsSince r (previous.map (·.name))
  ofCommits c f branch previous (infos.map (·.toCommit)) date

end Decision

end ReleaseCut
