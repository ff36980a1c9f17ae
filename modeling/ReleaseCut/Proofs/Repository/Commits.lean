import ReleaseCut.Proofs.History.Walk
import ReleaseCut.Proofs.Repository.Tags

/-!
# Commits of a repository

* A new commit that is checked out is the commit of the repository's head, and names keep leading
  where they led (`headCommit_commitOn`, `tags_commitOn`).
* What is known of the commits of a repository does not change when another is added
  (`infos_commitOn`).
* The commits since a tag are those that the library lists between the tag and the head
  (`commitsSince_spec`). `History.IsWalked` is what it is known to list, and the standard walk does
  so (`History.isWalked_standard`).
-/

namespace ReleaseCut

/-- The library walks a history as it documents: it lists each commit once that is reached from the
one and hides the other and all its ancestors. It may fail to where commits are dated before their
parents, since it does not walk on to all ancestors of a hidden commit then. -/
structure History.IsWalked [Walker] (h : History) : Prop where
  /-- The commits are those reached from the one and not from the other. -/
  mem_iff {head : Nat} {base : Option Nat} (hhead : head < h.size) (j : Nat) :
    j ∈ Walker.walk h head base ↔ h.Reaches head j ∧ ∀ b ∈ base, ¬ h.Reaches b j
  /-- None is listed twice. -/
  nodup {head : Nat} {base : Option Nat} (hhead : head < h.size) :
    (Walker.walk h head base).Nodup

/-- The standard walk is one. -/
theorem History.isWalked_standard (h : History) : h.IsWalked where
  mem_iff hhead _ :=
    mem_walk.trans (and_iff_right_of_imp fun hj => Nat.lt_of_le_of_lt hj.1.le hhead)
  nodup _ := h.nodup_walk _ _

namespace GitRepository

variable {r : GitRepository} {hash : String} {message : ByteArray} {parents : List Nat}

/-! ### A new commit -/

/-- Adds a commit with the given parents and checks it out. -/
def commitOn (r : GitRepository) (hash : String) (message : ByteArray) (parents : List Nat) :
    GitRepository :=
  (r.addCommit hash message parents).moveHead r.history.size

@[simp] theorem history_commitOn :
    (r.commitOn hash message parents).history = r.history.add hash message parents := by
  rw [commitOn, moveHead]
  split
  · rw [setBranch]
    split <;> rfl
  · rw [detach]
    split <;> rfl

@[simp] theorem tags_commitOn : (r.commitOn hash message parents).tags = r.tags := by
  rw [commitOn, moveHead]
  split
  · rw [setBranch]
    split <;> rfl
  · rw [detach]
    split <;> rfl

@[simp] theorem releases_commitOn (f : TagFormat) :
    (r.commitOn hash message parents).releases f = r.releases f := by
  rw [releases, tags_commitOn, releases]

/-- The new commit is checked out. -/
theorem headCommit_commitOn :
    (r.commitOn hash message parents).headCommit = .ok r.history.size := by
  have hlt : r.history.size < (r.addCommit hash message parents).history.size :=
    Nat.lt_of_lt_of_eq (Nat.lt_succ_self _) History.size_add.symm
  rw [commitOn, moveHead]
  split
  · next name hname => simp [headCommit, setBranch, hlt, hname, branch?]
  · simp [headCommit, detach, hlt]

/-- What is known of earlier commits stays as it is. -/
theorem infos_commitOn {is : List Nat} (h : ∀ i ∈ is, i < r.history.size) :
    (r.commitOn hash message parents).infos is = r.infos is := by
  rw [infos, infos]
  refine List.filterMap_congr fun i hi => ?_
  rw [history_commitOn, History.getElem?_commits_add (h i hi)]

/-! ### Commits since a tag -/

/-- The commits listed are those that the walk takes. -/
theorem commitsSince_spec [History.Walker] {tag : Option String} {cs : List CommitInfo}
    (h : r.commitsSince tag = .ok cs) :
    ∃ head base, r.headCommit = .ok head ∧ tag.mapM r.tagCommit = .ok base ∧
      cs = r.infos (History.Walker.walk r.history head base) := by
  obtain ⟨head, hhead, h⟩ := Except.bind_eq_ok_iff.1 h
  obtain ⟨base, hbase, h⟩ := Except.bind_eq_ok_iff.1 h
  exact ⟨head, base, hhead, hbase, (Except.pure_eq_ok_iff.1 h).symm⟩

end GitRepository

end ReleaseCut
