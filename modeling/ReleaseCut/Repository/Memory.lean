import ReleaseCut.Repository.Basic

/-!
# Repositories in memory

A linear history, held as a list of commits, with tags on some of them. Tags that a release creates
are kept apart.

* `MemoryRepository.commit`, `tagHead` and `checkout` build a history.
* Of several tags of one name the first counts; of several of the greatest version the last.
-/

namespace ReleaseCut

/-- A linear history. -/
structure MemoryRepository where
  /-- The branch checked out. -/
  branch : String
  /-- The commits, oldest first. -/
  commits : List CommitInfo
  /-- The tags with the positions of their commits, oldest first. -/
  tags : List (String × Nat)
  /-- The tags that releases created, oldest first. -/
  created : List String
  deriving DecidableEq, Repr

namespace MemoryRepository

/-- A repository without commits. -/
def empty : MemoryRepository where
  branch := "main"
  commits := []
  tags := []
  created := []

/-- Adds a commit. -/
def commit (r : MemoryRepository) (c : CommitInfo) : MemoryRepository :=
  { r with commits := r.commits ++ [c] }

/-- Puts a tag on the newest commit. Without commits it stands where the first one will be. -/
def tagHead (r : MemoryRepository) (name : String) : MemoryRepository :=
  { r with tags := r.tags ++ [(name, r.commits.length - 1)] }

/-- Switches to a branch. -/
def checkout (r : MemoryRepository) (branch : String) : MemoryRepository :=
  { r with branch }

/-- The tags that a format recognises. -/
def releases (r : MemoryRepository) (f : TagFormat) : List ReleaseTag :=
  r.tags.filterMap fun (name, _) => ReleaseTag.read? f name

/-- The tag of the greatest version, the last one of several. -/
def latestTag (r : MemoryRepository) (f : TagFormat) : Option ReleaseTag :=
  match r.releases f with
  | [] => none
  | t :: ts => some (ts.foldl ReleaseTag.later t)

/-- The commits after that of a tag. -/
def commitsSince (r : MemoryRepository) : Option String → Except ReleaseError (List CommitInfo)
  | none => .ok r.commits
  | some name =>
    match r.tags.find? (·.1 == name) with
    | some (_, i) => .ok (r.commits.drop (i + 1))
    | none => .error (.tag (.unknown name))

/-- Whether a tag of the name exists. -/
def hasTag (r : MemoryRepository) (name : String) : Bool :=
  r.created.contains name || r.tags.any (·.1 == name)

/-- Creates a tag. -/
def createTag (r : MemoryRepository) (name : String) : Except ReleaseError MemoryRepository :=
  if r.hasTag name then .error (.tag (.taken name))
  else .ok { r with created := r.created ++ [name] }

instance : Repository MemoryRepository where
  currentBranch r := .ok r.branch
  latestTag r f := .ok (r.latestTag f)
  commitsSince := commitsSince
  createTag := createTag

end MemoryRepository

end ReleaseCut
