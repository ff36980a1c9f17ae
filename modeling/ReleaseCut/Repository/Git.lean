import ReleaseCut.Repository.Basic
import ReleaseCut.Repository.History
import ReleaseCut.Repository.RefName

/-!
# Git repositories

A history with branches, tags and the branch checked out.

* The latest release is the greatest version among the tags that can be reached from the commit
  checked out; other tags play no part, unless one that the format recognises leads to no commit.
* `GitRepository.commitsSince` walks the history from the commit checked out to the tag, as the
  library does that is asked for it.
* `GitRepository.createTag` puts a tag on the commit checked out.
-/

namespace ReleaseCut

/-- What a tag names. -/
inductive TagTarget where
  /-- A commit, by its number. -/
  | commit (i : Nat)
  /-- Another object, by its hash. -/
  | object (hash : String)
  deriving DecidableEq, Repr

/-- Whether a target is one of the first `n` commits or no commit at all. -/
def TagTarget.isWithin (n : Nat) : TagTarget → Bool
  | .commit i => i < n
  | .object _ => true

theorem TagTarget.isWithin_of_le {m n : Nat} (hle : m ≤ n) :
    ∀ {t : TagTarget}, t.isWithin m = true → t.isWithin n = true
  | .commit _, h => decide_eq_true (Nat.lt_of_lt_of_le (of_decide_eq_true h) hle)
  | .object _, _ => rfl

/-- What is checked out. -/
inductive Head where
  /-- A branch, which may have no commit yet. -/
  | branch (name : RefName)
  /-- A commit, by its number. -/
  | detached (i : Nat)
  deriving DecidableEq

/-- Whether what is checked out is one of the first `n` commits or a branch. -/
def Head.isWithin (n : Nat) : Head → Bool
  | .branch _ => true
  | .detached i => i < n

theorem Head.isWithin_of_le {m n : Nat} (hle : m ≤ n) :
    ∀ {t : Head}, t.isWithin m = true → t.isWithin n = true
  | .branch _, _ => rfl
  | .detached _, h => decide_eq_true (Nat.lt_of_lt_of_le (of_decide_eq_true h) hle)

/-- A history with names for some of its commits. All names lead to commits of the history. -/
structure GitRepository where
  /-- The commits. -/
  history : History
  /-- The branches with the numbers of their commits. -/
  branches : List (RefName × Nat)
  /-- The tags. -/
  tags : List (RefName × TagTarget)
  /-- What is checked out. -/
  head : Head
  /-- Branches lead to commits of the history. -/
  branches_within : ∀ b ∈ branches, b.2 < history.size
  /-- Tags that lead to commits lead to commits of the history. -/
  tags_within : ∀ t ∈ tags, t.2.isWithin history.size = true
  /-- No two tags have the same name. -/
  tags_distinct : (tags.map Prod.fst).Nodup
  /-- A commit checked out is a commit of the history. -/
  head_within : head.isWithin history.size = true

namespace GitRepository

/-- A repository without commits, on a branch. -/
def empty (branch : RefName) : GitRepository where
  history := .empty
  branches := []
  tags := []
  head := .branch branch
  branches_within := by simp
  tags_within := by simp
  tags_distinct := List.nodup_nil
  head_within := rfl

/-- The commit of a branch. -/
def branch? (r : GitRepository) (name : RefName) : Option Nat :=
  (r.branches.find? (·.1 == name)).map Prod.snd

/-- The commit checked out. -/
def headCommit (r : GitRepository) : Except ReleaseError Nat :=
  match r.head with
  | .detached i => .ok i
  | .branch name =>
    match r.branch? name with
    | some i => .ok i
    | none => .error (.git (.unborn name.shown))

/-- The commit checked out is a commit of the history. -/
theorem headCommit_lt {r : GitRepository} {i : Nat} (h : r.headCommit = .ok i) :
    i < r.history.size := by
  have hw := r.head_within
  rw [headCommit] at h
  split at h
  · next hh => rw [hh] at hw; cases h; simpa [Head.isWithin] using hw
  · split at h
    · next hb =>
      cases h
      obtain ⟨b, hf, rfl⟩ := Option.map_eq_some_iff.1 hb
      exact r.branches_within b (List.mem_of_find?_eq_some hf)
    · cases h

/-- The branch checked out. -/
def currentBranch (r : GitRepository) : Except ReleaseError String := do
  let _ ← r.headCommit
  match r.head with
  | .detached _ => .error (.branch .detached)
  | .branch (.text name) => .ok name
  | .branch (.raw _) => .error (.branch .invalidText)

/-- What a tag names. -/
def tag? (r : GitRepository) (name : String) : Option TagTarget :=
  (r.tags.find? (·.1 == .text name)).map Prod.snd

/-- The name of the tag that a text asks for. -/
def resolveTagName (text : String) : Except GitFault String :=
  if text.toList.contains '\x00' then .error .nulByte
  else match tagName? text with
    | some name => .ok name
    | none => .error (.invalidTag text)

/-- What a tag names, or why it cannot be found. -/
def findTag (r : GitRepository) (text : String) : Except GitFault TagTarget := do
  let name ← resolveTagName text
  match r.tag? name with
  | some target => .ok target
  | none => .error (.unknownTag name)

/-- The commit of a tag. -/
def tagCommit (r : GitRepository) (name : String) : Except ReleaseError Nat :=
  match r.findTag name with
  | .error fault => .error (.tag (.notFound name fault))
  | .ok (.commit i) => .ok i
  | .ok (.object hash) => .error (.tag (.notPeeled name (.notCommit hash)))

/-- The names of the tags that are texts, in the order of their bytes. -/
def tagNames (r : GitRepository) : List String :=
  ((r.tags.map Prod.fst).mergeSort RefName.mayPrecede).filterMap RefName.text?

/-- Takes a tag into account: if a format recognises it and it can be reached, it replaces a tag of
a smaller version. -/
def considerTag (r : GitRepository) (f : TagFormat) (reachable : List Nat)
    (latest : Option ReleaseTag) (name : String) : Except ReleaseError (Option ReleaseTag) :=
  match ReleaseTag.read? f name with
  | none => .ok latest
  | some t => do
    let i ← r.tagCommit name
    if !reachable.contains i then return latest
    else match latest with
      | none => return some t
      | some l => return some (if compare t.version l.version = .gt then t else l)

/-- The tag of the greatest version that can be reached from the commit checked out. -/
def latestTag (r : GitRepository) (f : TagFormat) : Except ReleaseError (Option ReleaseTag) := do
  let head ← r.headCommit
  r.tagNames.foldlM (r.considerTag f (r.history.reachable head)) none

/-- What is known of the commits of the given numbers. -/
def infos (r : GitRepository) (is : List Nat) : List CommitInfo :=
  is.filterMap fun i => (r.history.commits[i]?).map fun c => ⟨c.hash, c.text⟩

/-- The commits reached from the one checked out and not from a tag, oldest first. -/
def commitsSince [History.Walker] (r : GitRepository) (tag : Option String) :
    Except ReleaseError (List CommitInfo) := do
  let head ← r.headCommit
  let base ← tag.mapM r.tagCommit
  return r.infos (History.Walker.walk r.history head base)

/-- The name of the tag that a text asks to be created. -/
def newTagName (r : GitRepository) (text : String) : Except GitFault String := do
  if text.toList.contains '\x00' then throw .nulByte
  if text.toList.head? == some '-' then throw (.leadingHyphen text)
  let name ← resolveTagName (String.ofList (text.toList.dropWhile (· == '/')))
  if (r.tag? name).isSome then throw .tagExists
  return name

/-- Points a tag at its target, if that exists. -/
def setTag (r : GitRepository) (name : RefName) (target : TagTarget) : GitRepository :=
  if h : target.isWithin r.history.size = true then
    { r with
      tags := r.tags.filter (·.1 != name) ++ [(name, target)]
      tags_within := by
        intro t ht
        rcases List.mem_append.1 ht with ht | ht
        · exact r.tags_within t (List.mem_filter.1 ht).1
        · obtain rfl := List.mem_singleton.1 ht; exact h
      tags_distinct := by
        rw [List.map_append, List.nodup_append]
        refine ⟨r.tags_distinct.sublist (List.filter_sublist.map _), by simp, ?_⟩
        simp only [List.mem_map, List.mem_filter, bne_iff_ne, List.map_cons, List.map_nil,
          List.mem_singleton]
        rintro _ ⟨t, ⟨-, hne⟩, rfl⟩ _ rfl
        exact hne }
  else r

/-- Puts a tag on the commit checked out. -/
def createTag (r : GitRepository) (text : String) : Except ReleaseError GitRepository := do
  let head ← r.headCommit
  match r.newTagName text with
  | .error fault => .error (.tag (.notCreated text fault))
  | .ok name => .ok (r.setTag (.text name) (.commit head))

instance [History.Walker] : Repository GitRepository where
  currentBranch := currentBranch
  latestTag := latestTag
  commitsSince := commitsSince
  createTag := createTag

/-! ### Building a repository -/

/-- Points a branch at a commit, if that exists. -/
def setBranch (r : GitRepository) (name : RefName) (i : Nat) : GitRepository :=
  if h : i < r.history.size then
    { r with
      branches := (name, i) :: r.branches.filter (·.1 != name)
      branches_within := by
        intro b hb
        rcases List.mem_cons.1 hb with rfl | hb
        · exact h
        · exact r.branches_within b (List.mem_filter.1 hb).1 }
  else r

/-- Switches to a branch. -/
def checkout (r : GitRepository) (name : RefName) : GitRepository :=
  { r with head := .branch name, head_within := rfl }

/-- Switches to a commit, if it exists. -/
def detach (r : GitRepository) (i : Nat) : GitRepository :=
  if h : i < r.history.size then
    { r with head := .detached i, head_within := by simpa [Head.isWithin] using h }
  else r

/-- Adds a commit that no name leads to. -/
def addCommit (r : GitRepository) (hash : String) (message : ByteArray) (parents : List Nat) :
    GitRepository :=
  have hle : r.history.size ≤ (r.history.add hash message parents).size := by
    simp [History.size, History.add]
  { r with
    history := r.history.add hash message parents
    branches_within := fun b hb => Nat.lt_of_lt_of_le (r.branches_within b hb) hle
    tags_within := fun t ht => TagTarget.isWithin_of_le hle (r.tags_within t ht)
    head_within := Head.isWithin_of_le hle r.head_within }

/-- Moves what is checked out to a commit. -/
def moveHead (r : GitRepository) (i : Nat) : GitRepository :=
  match r.head with
  | .branch name => r.setBranch name i
  | .detached _ => r.detach i

/-- Adds a commit whose parents are the commit checked out, if there is one, and the given others,
and checks it out. -/
def commit (r : GitRepository) (hash : String) (message : ByteArray) (others : List Nat) :
    GitRepository :=
  (r.addCommit hash message (r.headCommit.toOption.toList ++ others)).moveHead r.history.size

end GitRepository

end ReleaseCut
