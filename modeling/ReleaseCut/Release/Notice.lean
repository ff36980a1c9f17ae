/-!
# Notices

What a run tells its user besides the result: conditions that are worth a warning but stop nothing,
and the reasons for making no release, none of which is an error.
-/

namespace ReleaseCut

/-- A condition met on the way that stops nothing. -/
inductive Warning where
  /-- Nothing was committed since the latest release. -/
  | noNewCommits (latestTag : String)
  /-- The tokens of some commits are not known, and these are left out. -/
  | unclassified (ignored total : Nat)
  /-- No tag is that of an earlier release. -/
  | firstRelease (tagPattern : String)
  deriving DecidableEq, Repr

/-- The wording of a warning. -/
def Warning.message : Warning → String
  | .noNewCommits latestTag => "No new commits since tag '" ++ latestTag ++ "'"
  | .unclassified ignored total =>
    "Ignored " ++ toString ignored ++ " of " ++ toString total ++
      (if total = 1 then " commit" else " commits") ++ " without a recognised gitmoji"
  | .firstRelease tagPattern =>
    "No earlier release tag matches '" ++ tagPattern ++ "'; treating this as the first release"

/-- Why no release is made. -/
inductive SkipReason where
  /-- No releases are made from the branch. -/
  | notReleaseBranch (branch : String)
  /-- Nothing was committed. -/
  | noCommits
  /-- No commit asks for a new version. -/
  | noBump
  deriving DecidableEq, Repr

/-- The wording of a reason. -/
def SkipReason.message : SkipReason → String
  | .notReleaseBranch branch => "Branch '" ++ branch ++ "' is not configured for releases"
  | .noCommits => "No commits since the last release"
  | .noBump => "No commit since the last release warrants a new version"

end ReleaseCut
