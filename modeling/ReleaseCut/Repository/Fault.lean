import ReleaseCut.FileTree.Disk

/-!
# What can go wrong in a repository

Failures of looking up references and of opening a repository, with the class and the code under
which they are reported.
-/

namespace ReleaseCut

/-- A failure of a repository. -/
inductive GitFault where
  /-- The branch checked out has no commit yet. -/
  | unborn (branch : String)
  /-- No repository holds the path. -/
  | noRepository (path : String)
  /-- The path does not lead anywhere. -/
  | noPath (path : String) (cause : IoError)
  /-- No tag has the name. -/
  | unknownTag (name : String)
  /-- The text is no name for a tag. -/
  | invalidTag (name : String)
  /-- A new tag may not start with a hyphen. -/
  | leadingHyphen (name : String)
  /-- The tag exists already. -/
  | tagExists
  /-- A name holds a zero byte. -/
  | nulByte
  /-- The tag leads to an object that is no commit. -/
  | notCommit (object : String)
  deriving DecidableEq, Repr

/-- The wording of a failure. -/
def GitFault.message : GitFault → String
  | .unborn branch =>
    "reference 'refs/heads/" ++ branch ++ "' not found; class=Reference (4); code=UnbornBranch (-9)"
  | .noRepository path =>
    "could not find repository at '" ++ path ++ "'; class=Repository (6); code=NotFound (-3)"
  | .noPath path cause =>
    "failed to resolve path '" ++ path ++ "': " ++ cause.reason ++ "; class=Os (2)" ++
      (if cause = .tooManyLinks then "" else "; code=NotFound (-3)")
  | .unknownTag name =>
    "reference 'refs/tags/" ++ name ++ "' not found; class=Reference (4); code=NotFound (-3)"
  | .invalidTag name =>
    "the given reference name 'refs/tags/" ++ name ++
      "' is not valid; class=Reference (4); code=InvalidSpec (-12)"
  | .leadingHyphen name => "'" ++ name ++ "' is not a valid tag name; class=Tag (13)"
  | .nulByte => "data contained a nul byte that could not be represented as a string"
  | .tagExists => "tag already exists; class=Tag (13); code=Exists (-4)"
  | .notCommit object =>
    "the git_object of id '" ++ object ++ "' can not be successfully peeled into a commit " ++
      "(git_object_t=1).; class=Object (11); code=InvalidSpec (-12)"

end ReleaseCut
