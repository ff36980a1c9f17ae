import ReleaseCut.Proofs.Repository.Memory

/-!
# The history of a repository in memory

A repository in memory is built up by operations that add a commit or tag the newest one. What it
answers is told by the operations alone (`MemoryRepository.commitsSince_replay`): all commits that
were added, in their order, or those that were added after the first tag of a name.

A tag on nothing is the exception. Tags are kept as positions of commits, and without commits a tag
gets the position that the first one will have. From then on that commit counts as tagged, and it is
left out although it was added after the tag.
-/

namespace ReleaseCut

namespace MemoryRepository

/-- A change to a history. -/
inductive Operation where
  /-- A commit is added. -/
  | commit (c : CommitInfo)
  /-- The newest commit is tagged. -/
  | tagHead (name : String)
  deriving DecidableEq

/-- The repository after one operation. -/
def apply (r : MemoryRepository) : Operation → MemoryRepository
  | .commit c => r.commit c
  | .tagHead name => r.tagHead name

/-- The repository that some operations build up. -/
def replay (ops : List Operation) : MemoryRepository :=
  ops.foldl apply empty

/-- The commits that some operations add. -/
def added (ops : List Operation) : List CommitInfo :=
  ops.filterMap fun
    | .commit c => some c
    | .tagHead _ => none

variable {r : MemoryRepository} {ops : List Operation} {op : Operation} {name : String}

/-! ### One operation -/

theorem commits_apply (r : MemoryRepository) (op : Operation) :
    (r.apply op).commits = r.commits ++ added [op] := by
  cases op with
  | commit c => rfl
  | tagHead name => exact (List.append_nil _).symm

/-- Tags come behind the earlier ones, and have the names that operations gave them. -/
theorem exists_tags_apply (r : MemoryRepository) (op : Operation) :
    ∃ later, (r.apply op).tags = r.tags ++ later ∧ ∀ t ∈ later, op = .tagHead t.1 := by
  cases op with
  | commit c => exact ⟨[], (List.append_nil _).symm, nofun⟩
  | tagHead name => exact ⟨[(name, r.commits.length - 1)], rfl, by simp⟩

/-! ### All operations -/

theorem added_cons (op : Operation) (ops : List Operation) :
    added (op :: ops) = added [op] ++ added ops := by
  rw [← List.singleton_append, added, List.filterMap_append]
  rfl

theorem commits_foldl_apply (r : MemoryRepository) (ops : List Operation) :
    (ops.foldl apply r).commits = r.commits ++ added ops := by
  induction ops generalizing r with
  | nil => exact (List.append_nil _).symm
  | cons op ops ih =>
    rw [List.foldl_cons, ih, commits_apply, added_cons op ops, List.append_assoc]

theorem exists_tags_foldl_apply (r : MemoryRepository) (ops : List Operation) :
    ∃ later, (ops.foldl apply r).tags = r.tags ++ later ∧ ∀ t ∈ later, .tagHead t.1 ∈ ops := by
  induction ops generalizing r with
  | nil => exact ⟨[], (List.append_nil _).symm, nofun⟩
  | cons op ops ih =>
    obtain ⟨first, htags, hfirst⟩ := exists_tags_apply r op
    obtain ⟨later, htags', hlater⟩ := ih (r.apply op)
    refine ⟨first ++ later, by rw [List.foldl_cons, htags', htags, List.append_assoc], ?_⟩
    intro t ht
    rcases List.mem_append.1 ht with ht | ht
    · exact hfirst t ht ▸ List.mem_cons_self
    · exact List.mem_cons_of_mem _ (hlater t ht)

theorem commits_replay (ops : List Operation) : (replay ops).commits = added ops :=
  commits_foldl_apply empty ops

/-- A tag that was never set is not found. -/
theorem find?_tags_replay (h : .tagHead name ∉ ops) :
    (replay ops).tags.find? (·.1 == name) = none := by
  obtain ⟨later, htags, hlater⟩ := exists_tags_foldl_apply empty ops
  rw [find?_tags_eq_none_iff, replay, htags]
  rintro hname
  obtain ⟨t, ht, rfl⟩ := List.mem_map.1 hname
  exact h (hlater t ht)

/-- The tag found under a name is the first one that got it, at the commit that was newest then. -/
theorem find?_tags_replay_append {before : List Operation} (h : .tagHead name ∉ before)
    (after : List Operation) :
    (replay (before ++ .tagHead name :: after)).tags.find? (·.1 == name) =
      some (name, (added before).length - 1) := by
  have hnone := find?_tags_replay h
  obtain ⟨later, htags, -⟩ := exists_tags_foldl_apply ((replay before).tagHead name) after
  have hreplay : replay (before ++ .tagHead name :: after) =
      after.foldl apply ((replay before).tagHead name) := by
    rw [replay, List.foldl_append]
    rfl
  rw [hreplay, htags, tagHead, commits_replay]
  simp [List.find?_append, hnone]

/-- **The history is told by the operations.** The commits since a tag are those added after it was
first set, without the first of them if there were no commits to be tagged. -/
theorem commitsSince_replay (ops : List Operation) :
    (replay ops).commitsSince none = .ok (added ops) ∧
    (∀ name, .tagHead name ∉ ops →
      (replay ops).commitsSince (some name) = .error (.tag (.unknown name))) ∧
    ∀ before name after, ops = before ++ .tagHead name :: after → .tagHead name ∉ before →
      (replay ops).commitsSince (some name) =
        .ok (if added before = [] then (added after).tail else added after) := by
  refine ⟨congrArg Except.ok (commits_replay ops), fun name hname => ?_, ?_⟩
  · rw [commitsSince, find?_tags_replay hname]
  · rintro before name after rfl hname
    have hadded : added (before ++ .tagHead name :: after) = added before ++ added after := by
      rw [added, List.filterMap_append]
      rfl
    rw [commitsSince, find?_tags_replay_append hname, commits_replay, hadded]
    refine congrArg Except.ok ?_
    cases hbefore : added before with
    | nil => exact List.drop_one
    | cons c cs =>
      rw [if_neg (List.cons_ne_nil c cs)]
      exact List.drop_left' rfl

/-- Commits since a name that is set twice, since one that is never set, and since a tag on
nothing. -/
theorem commitsSince_replay_retagged :
    (replay [.commit ⟨"c1", "✨ x"⟩, .tagHead "v1", .commit ⟨"c2", "🐛 y"⟩, .tagHead "v1",
      .commit ⟨"c3", "wip"⟩]).commitsSince (some "v1") =
      .ok [⟨"c2", "🐛 y"⟩, ⟨"c3", "wip"⟩] ∧
    (replay [.commit ⟨"c1", "✨ x"⟩, .tagHead "v1"]).commitsSince (some "v2") =
      .error (.tag (.unknown "v2")) ∧
    (replay [.tagHead "v1", .commit ⟨"c1", "✨ x"⟩, .commit ⟨"c2", "🐛 y"⟩]).commitsSince
      (some "v1") = .ok [⟨"c2", "🐛 y"⟩] := by
  obtain ⟨-, -, htwice⟩ := commitsSince_replay [.commit ⟨"c1", "✨ x"⟩, .tagHead "v1",
    .commit ⟨"c2", "🐛 y"⟩, .tagHead "v1", .commit ⟨"c3", "wip"⟩]
  obtain ⟨-, hnever, -⟩ := commitsSince_replay [.commit ⟨"c1", "✨ x"⟩, .tagHead "v1"]
  obtain ⟨-, -, hnothing⟩ := commitsSince_replay
    [.tagHead "v1", .commit ⟨"c1", "✨ x"⟩, .commit ⟨"c2", "🐛 y"⟩]
  exact ⟨htwice [.commit ⟨"c1", "✨ x"⟩] "v1" _ rfl (by simp), hnever "v2" (by simp),
    hnothing [] "v1" _ rfl (by simp)⟩

/-- A commit that was added after a tag on nothing is not listed. -/
theorem commitsSince_replay_tag_on_nothing :
    (replay ([] ++ .tagHead "v1" :: [.commit ⟨"c1", "✨ x"⟩])).commitsSince (some "v1") ≠
      .ok (added [.commit ⟨"c1", "✨ x"⟩]) := by
  simp [commitsSince, replay, apply, tagHead, commit, added, empty]

end MemoryRepository

end ReleaseCut
