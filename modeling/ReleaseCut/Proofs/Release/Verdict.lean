import ReleaseCut.Proofs.Notes.Groups
import ReleaseCut.Proofs.Release.Decision
import ReleaseCut.Repository.Memory

/-!
# The verdict

`Decision.IsRight` says when each verdict is right for the commits since the latest release, and
`Plan.Fits` what a plan then says of them. The verdict of `Decision.ofCommits` is right
(`isRight_ofCommits`): its parts look at the commits one by one, but all of them go by the kinds of
the classified commits, so that no release has empty notes and no classified commit is skipped.

A branch without releases is told from the branch alone (`Decision.make_decides`).
-/

namespace ReleaseCut

/-- What the plan for some commits since a release says of them. -/
structure Plan.Fits (p : Plan) (c : Config) (previous : Option ReleaseTag)
    (commits : List Commit) : Prop where
  /-- It is a plan for that release and these commits. -/
  origin : p.previous = previous ∧ p.commits = commits
  /-- The bump is the largest one that is asked for. -/
  bump : IsGreatest (Commit.bumps commits) p.bump
  /-- The bump is not the empty one. -/
  bump_ne_none : p.bump ≠ .none
  /-- Some change is listed. -/
  notes : p.notes.isEmpty = false
  /-- Every commit is listed or ignored. -/
  count : p.notes.entryCount + Commit.unclassified commits = commits.length
  /-- There is a warning of a first release, and then one of ignored commits. -/
  warnings : p.warnings =
    (if previous = none then [.firstRelease c.tagPattern] else []) ++
    if 0 < Commit.unclassified commits then
      [.unclassified (Commit.unclassified commits) commits.length] else []

namespace Decision

variable {c : Config} {f : TagFormat} {previous : Option ReleaseTag} {commits : List Commit}

/-- A result is right for the commits since a release. -/
structure IsRight (c : Config) (previous : Option ReleaseTag) (commits : List Commit)
    (result : Except ReleaseError Decision) : Prop where
  /-- There is nothing to release if there are no commits. -/
  noCommits : (∃ ws, result = .ok (.skip .noCommits ws)) ↔ commits = []
  /-- Otherwise no version is asked for if no commit is classified. -/
  noBump : (∃ ws, result = .ok (.skip .noBump ws)) ↔ commits ≠ [] ∧ Commit.kinds commits = []
  /-- Otherwise the previous version cannot be raised if the component is spent that the largest
  bump selects. -/
  overflow : (∃ o, result = .error (.version o)) ↔
    ∃ b, IsGreatest (Commit.bumps commits) b ∧ ∃ t ∈ previous, b.IsSpent t.version
  /-- Otherwise there is a release. -/
  release : (∃ p, result = .ok (.release p)) ↔
    ∃ b, IsGreatest (Commit.bumps commits) b ∧ ∀ t ∈ previous, ¬ b.IsSpent t.version
  /-- A plan says of the commits what it should. -/
  plan : ∀ p, result = .ok (.release p) → p.Fits c previous commits

/-- The release of some commits is planned as it should be. -/
private theorem fits_of_ofCommits {branch : String} {date : Date} {p : Plan}
    (h : ofCommits c f branch previous commits date = .ok (.release p)) :
    p.Fits c previous commits := by
  obtain ⟨v, hnext, rfl⟩ := ofCommits_eq_release_iff.1 h
  have hbump : Commit.largestBump commits ≠ .none := (Bump.exists_next?_iff.1 ⟨v, hnext⟩).1
  have hkinds : Commit.kinds commits ≠ [] := mt Commit.largestBump_eq_none_iff.2 hbump
  refine ⟨⟨rfl, rfl⟩, Commit.isGreatest_largestBump hkinds, hbump, ?_, ?_, ?_⟩
  · rw [Notes.isEmpty, List.isEmpty_eq_false_iff]
    exact mt Notes.groupsOf_eq_nil_iff.1 hkinds
  · rw [Notes.entryCount_groupsOf rfl, Nat.add_comm, Commit.unclassified_add_length_kinds]
  · cases previous <;> simp [planOf, originWarnings, ignoredWarnings, Nat.pos_iff_ne_zero]

/-- **The verdict is right**, whatever the commits are and whichever release came before. -/
theorem isRight_ofCommits (c : Config) (f : TagFormat) (branch : String)
    (previous : Option ReleaseTag) (commits : List Commit) (date : Date) :
    IsRight c previous commits (ofCommits c f branch previous commits date) where
  noCommits := by simp [ofCommits_eq_noCommits_iff]
  noBump := by simp [ofCommits_eq_noBump_iff, Commit.largestBump_eq_none_iff]
  overflow := by
    simp only [ofCommits_eq_error_iff, Commit.isGreatest_bumps_iff]
    constructor
    · rintro ⟨o, t, ht, hspent, -⟩
      refine ⟨_, ⟨fun hkinds => ?_, rfl⟩, t, ht, hspent⟩
      -- without classified commits the bump is the empty one, which raises nothing
      rw [Commit.largestBump_eq_none_iff.2 hkinds] at hspent
      exact Bump.not_isSpent_none _ hspent
    · rintro ⟨_, ⟨-, rfl⟩, t, ht, hspent⟩
      exact ⟨_, t, ht, hspent, rfl⟩
  release := by
    have hnext : (∃ p, ofCommits c f branch previous commits date = .ok (.release p)) ↔
        ∃ v, (Commit.largestBump commits).next? (previous.map (·.version)) = .ok (some v) := by
      simp only [ofCommits_eq_release_iff]
      exact ⟨fun ⟨_, v, hv, _⟩ => ⟨v, hv⟩, fun ⟨v, hv⟩ => ⟨_, v, hv, rfl⟩⟩
    rw [hnext, Bump.exists_next?_iff, Ne, Commit.largestBump_eq_none_iff]
    simp [Commit.isGreatest_bumps_iff, and_assoc]
  plan _ := fits_of_ofCommits

/-- **The decision is the right one.** It is that the branch has no releases exactly if the branch
is not configured, whatever else the repository would answer. On the other branches it is right for
the commits since the latest release. -/
theorem make_decides {ρ : Type} [Repository ρ] (r : ρ) (asked : Option String) (date : Date)
    (hf : c.tagFormat = .ok f) :
    (∀ branch ws, make r c asked date = .ok (.skip (.notReleaseBranch branch) ws) ↔
      branchFor r asked = .ok branch ∧ branch ∉ c.branches ∧ ws = []) ∧
    ∀ branch previous infos, Answers r asked f branch previous infos → branch ∈ c.branches →
      IsRight c previous (infos.map (·.toCommit)) (make r c asked date) := by
  constructor
  · intro branch ws
    constructor
    · intro h
      obtain ⟨branch', hbranch, ⟨hmem, h⟩ | ⟨-, _, _, _, -, -, -, h⟩⟩ := make_eq_ok_iff.1 h
      · cases h
        exact ⟨hbranch, hmem, rfl⟩
      · exact absurd h ofCommits_ne_notReleaseBranch
    · rintro ⟨hbranch, hmem, rfl⟩
      exact make_eq_notReleaseBranch hbranch hmem
  · intro branch previous infos h hmem
    rw [h.make_eq hf hmem]
    exact isRight_ofCommits c f branch previous _ date

/-- A project with a feature and a commit of no kind. -/
def draftMemory : MemoryRepository :=
  (MemoryRepository.empty.commit ⟨"c1", "✨ x"⟩).commit ⟨"c2", "wip"⟩

/-- The feature is released, with warnings of a first release and of the other commit. From another
branch there is no release. -/
theorem make_decides_draft : ∃ date p,
    make draftMemory Config.standard none date = .ok (.release p) ∧
    p.bump = .minor ∧ p.notes.isEmpty = false ∧ p.notes.entryCount + 1 = 2 ∧
    p.warnings = [.firstRelease Config.standard.tagPattern, .unclassified 1 2] ∧
    make draftMemory Config.standard (some "dev") date =
      .ok (.skip (.notReleaseBranch "dev") []) := by
  have date : Date := ⟨2024, 1, 1, by decide, by decide, by decide, by decide⟩
  have hf := Config.tagFormat_standard
  have hmain := Config.main_mem_standard
  have hanswers : Answers draftMemory none ⟨⟨"v", ""⟩⟩ "main" none draftMemory.commits :=
    ⟨rfl, rfl, rfl⟩
  have hkinds : Commit.kinds (draftMemory.commits.map (·.toCommit)) = [.feature] := by
    decide +kernel
  have hignored : Commit.unclassified (draftMemory.commits.map (·.toCommit)) = 1 := by
    decide +kernel
  have hlength : draftMemory.commits.length = 2 := rfl
  have hright := (make_decides draftMemory none date hf).2 "main" none _ hanswers hmain
  have hbumps : IsGreatest (Commit.bumps (draftMemory.commits.map (·.toCommit))) .minor := by
    simp [Commit.bumps, hkinds, Kind.bump]
  obtain ⟨p, hp⟩ := hright.release.2 ⟨.minor, hbumps, by simp⟩
  have hfits := hright.plan p hp
  have hdev := ((make_decides draftMemory (some "dev") date hf).1 "dev" []).2
    ⟨rfl, by decide, rfl⟩
  refine ⟨date, p, hp, hfits.bump.unique hbumps, hfits.notes, ?_, ?_, hdev⟩
  · simpa [hignored, hlength] using hfits.count
  · simpa [hignored, hlength] using hfits.warnings

end Decision

end ReleaseCut
