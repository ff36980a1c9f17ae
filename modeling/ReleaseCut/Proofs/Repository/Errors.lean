import ReleaseCut.Proofs.Except
import ReleaseCut.Repository.Git
import ReleaseCut.Repository.Memory

/-!
# Errors of repositories

A repository fails with errors of its own (`ReleaseError.IsOfRepository`): a fault of the store, a
branch that is not known, or a tag that is missing, taken or not to be used. It never finds fault
with the tag format it is asked about. That both implementations keep to this is
`LawfulRepository`.
-/

namespace ReleaseCut

/-- The errors of a repository: no tag error among them is about a tag format. -/
inductive ReleaseError.IsOfRepository : ReleaseError → Prop
  /-- The store fails. -/
  | git (fault : GitFault) : IsOfRepository (.git fault)
  /-- The branch is not known. -/
  | branch (error : BranchError) : IsOfRepository (.branch error)
  /-- A tag cannot be used. -/
  | tag (error : TagError) (h : ∀ pattern, error ≠ .invalidFormat pattern) :
      IsOfRepository (.tag error)

open ReleaseError (IsOfRepository)

/-- A repository that fails with errors of its own only. -/
class LawfulRepository (ρ : Type) [Repository ρ] : Prop where
  currentBranch {r : ρ} {e : ReleaseError} (h : Repository.currentBranch r = .error e) :
    IsOfRepository e
  latestTag {r : ρ} {f : TagFormat} {e : ReleaseError} (h : Repository.latestTag r f = .error e) :
    IsOfRepository e
  commitsSince {r : ρ} {tag : Option String} {e : ReleaseError}
    (h : Repository.commitsSince r tag = .error e) : IsOfRepository e
  createTag {r : ρ} {name : String} {e : ReleaseError}
    (h : Repository.createTag r name = .error e) : IsOfRepository e

namespace GitRepository

variable {r : GitRepository} {f : TagFormat} {name : String} {e : ReleaseError}

private theorem isOfRepository_of_headCommit (h : r.headCommit = .error e) :
    IsOfRepository e := by
  rw [headCommit] at h
  split at h
  · cases h
  · split at h <;> cases h
    exact .git _

private theorem isOfRepository_of_tagCommit (h : r.tagCommit name = .error e) :
    IsOfRepository e := by
  rw [tagCommit] at h
  split at h <;> cases h
  · exact .tag _ nofun
  · exact .tag _ nofun

private theorem isOfRepository_of_considerTag {reachable : List Nat} {latest : Option ReleaseTag}
    (h : r.considerTag f reachable latest name = .error e) : IsOfRepository e := by
  rw [considerTag] at h
  split at h
  · cases h
  · rcases Except.bind_eq_error_iff.1 h with h | ⟨i, -, h⟩
    · exact isOfRepository_of_tagCommit h
    · split at h
      · cases h
      · split at h <;> cases h

instance : LawfulRepository GitRepository where
  currentBranch {r e} h := by
    rcases Except.bind_eq_error_iff.1 h with h | ⟨_, -, h⟩
    · exact isOfRepository_of_headCommit h
    · split at h <;> cases h
      · exact .branch _
      · exact .branch _
  latestTag {r f e} h := by
    rcases Except.bind_eq_error_iff.1 h with h | ⟨_, -, h⟩
    · exact isOfRepository_of_headCommit h
    · obtain ⟨_, _, -, h⟩ := Except.exists_of_foldlM_eq_error h
      exact isOfRepository_of_considerTag h
  commitsSince {r tag e} h := by
    rcases Except.bind_eq_error_iff.1 h with h | ⟨_, -, h⟩
    · exact isOfRepository_of_headCommit h
    · rcases Except.bind_eq_error_iff.1 h with h | ⟨_, -, h⟩
      · cases tag with
        | none => cases h
        | some name =>
          rw [Option.mapM_some] at h
          cases hcommit : r.tagCommit name with
          | error e' =>
            rw [hcommit] at h
            cases h
            exact isOfRepository_of_tagCommit hcommit
          | ok i =>
            rw [hcommit] at h
            cases h
      · cases h
  createTag {r name e} h := by
    rcases Except.bind_eq_error_iff.1 h with h | ⟨_, -, h⟩
    · exact isOfRepository_of_headCommit h
    · split at h <;> cases h
      exact .tag _ nofun

end GitRepository

namespace MemoryRepository

instance : LawfulRepository MemoryRepository where
  currentBranch := nofun
  latestTag := nofun
  commitsSince {r tag e} h := by
    cases tag with
    | none => cases h
    | some name =>
      change r.commitsSince _ = _ at h
      rw [commitsSince] at h
      split at h <;> cases h
      exact .tag _ nofun
  createTag {r name e} h := by
    change r.createTag _ = _ at h
    rw [createTag] at h
    split at h <;> cases h
    exact .tag _ nofun

end MemoryRepository

end ReleaseCut
