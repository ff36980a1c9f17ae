import ReleaseCut.Proofs.Notes.Groups
import ReleaseCut.Proofs.Release.Decision
import ReleaseCut.Repository.Git
import ReleaseCut.Repository.Memory

/-!
# What a release depends on

Of the commits since the latest release only the changes count: the kind, the subject and the short
hash of each classified commit (`Commit.changes`). Their order does not count either. So
repositories with the same changes since the same release, of whatever sort, make the same release
(`Decision.make_of_perm_changes`).

The bump is the largest one, whatever the order, and the notes are sorted by all that tells the
entries of a section apart, since a message carries no scope.
-/

namespace ReleaseCut

namespace Commit

/-- What a classified commit counts for. -/
def change? (c : Commit) : Option (Kind × String × String) :=
  c.kind?.map (·, c.subject, c.shortHash)

/-- The changes that a list of commits makes. -/
def changes (cs : List Commit) : List (Kind × String × String) :=
  cs.filterMap change?

theorem kinds_eq_map_changes (cs : List Commit) : kinds cs = (changes cs).map Prod.fst := by
  rw [kinds, changes, List.map_filterMap]
  refine List.filterMap_congr fun c _ => ?_
  cases h : c.kind? <;> simp [change?, h]

end Commit

namespace Notes

/-- The entry of a change. -/
def Entry.ofChange (change : Kind × String × String) : Entry where
  heading := change.1.heading
  scope := none
  subject := change.2.1
  shortHash := change.2.2

/-- Commits read from messages are listed by their changes, since they have no scope. -/
theorem entriesOf_toCommit (infos : List CommitInfo) :
    entriesOf (infos.map (·.toCommit)) =
      (Commit.changes (infos.map (·.toCommit))).map Entry.ofChange := by
  rw [entriesOf, Commit.changes, List.map_filterMap]
  refine List.filterMap_congr fun c hc => ?_
  obtain ⟨info, -, rfl⟩ := List.mem_map.1 hc
  simp only [Entry.ofCommit?, Commit.change?, Option.map_map]
  rfl

/-- The notes on commits read from messages depend on the changes alone. -/
theorem groupsOf_eq_of_perm_changes {xs ys : List CommitInfo} {order : List Section}
    (h : (Commit.changes (xs.map (·.toCommit))).Perm (Commit.changes (ys.map (·.toCommit)))) :
    groupsOf (xs.map (·.toCommit)) order = groupsOf (ys.map (·.toCommit)) order := by
  refine groupsOf_eq_of_perm ?_ ?_
  · rw [entriesOf_toCommit, entriesOf_toCommit]
    exact h.map _
  · -- entries without a scope that rank equal in a section are equal
    rw [entriesOf_toCommit]
    intro a ha b hb hheading hcompare
    obtain ⟨_, -, rfl⟩ := List.mem_map.1 ha
    obtain ⟨_, -, rfl⟩ := List.mem_map.1 hb
    exact Entry.eq_of_compare_eq hcompare hheading rfl

end Notes

/-- Two plans make the same release: they differ at most in the commits that they go back to, and so
in the warning of ignored commits. -/
structure Plan.SameRelease (p q : Plan) : Prop where
  /-- All else is equal. -/
  same : q = { p with commits := q.commits, warnings := q.warnings }
  /-- So are the other warnings. -/
  warnings : ∃ ws, p.warnings = ws ++ Decision.ignoredWarnings p.commits ∧
    q.warnings = ws ++ Decision.ignoredWarnings q.commits

namespace Decision

variable {c : Config} {f : TagFormat} {branch : String} {previous : Option ReleaseTag} {date : Date}
  {xs ys : List CommitInfo}

/-- Two results are the same failure to raise the version, or the same release. -/
def Agree (x y : Except ReleaseError Decision) : Prop :=
  (∃ o, x = .error (.version o) ∧ y = .error (.version o)) ∨
  ∃ p q, x = .ok (.release p) ∧ y = .ok (.release q) ∧ p.SameRelease q

/-- Lists of commits with the same changes, and with some change, lead to the same release. -/
private theorem agree_ofCommits (hne : Commit.changes (xs.map (·.toCommit)) ≠ [])
    (h : (Commit.changes (xs.map (·.toCommit))).Perm (Commit.changes (ys.map (·.toCommit)))) :
    Agree (ofCommits c f branch previous (xs.map (·.toCommit)) date)
      (ofCommits c f branch previous (ys.map (·.toCommit)) date) := by
  have hbump : Commit.largestBump (ys.map (·.toCommit)) =
      Commit.largestBump (xs.map (·.toCommit)) := by
    refine Commit.largestBump_eq_of_perm ?_
    rw [Commit.kinds_eq_map_changes, Commit.kinds_eq_map_changes]
    exact (h.map _).symm
  cases hnext : (Commit.largestBump (xs.map (·.toCommit))).next? (previous.map (·.version)) with
  | error o =>
    exact .inl ⟨o, ofCommits_eq_iff.2 (.overflow hnext),
      ofCommits_eq_iff.2 (.overflow (hbump ▸ hnext))⟩
  | ok next =>
    cases next with
    | none =>
      -- a change asks for a version
      have hkinds := Commit.largestBump_eq_none_iff.1 (Bump.next?_eq_none_iff.1 hnext)
      rw [Commit.kinds_eq_map_changes, List.map_eq_nil_iff] at hkinds
      exact absurd hkinds hne
    | some v =>
      refine .inr ⟨_, _, ofCommits_eq_iff.2 (.release hnext),
        ofCommits_eq_iff.2 (.release (hbump ▸ hnext)), ?_, _, rfl, rfl⟩
      rw [planOf, planOf, hbump, Notes.groupsOf_eq_of_perm_changes h]

/-- **Only the changes count.** Two repositories are asked about the same branch, with the same
latest release, and hold the same changes since then, in whatever order and with whatever other
commits between them. If there is some change, then the version cannot be raised on either, or both
make the same release. From a branch without releases neither makes any. -/
theorem make_of_perm_changes {ρ σ : Type} [Repository ρ] [Repository σ] {r : ρ} {s : σ}
    {asked : Option String} (date : Date) (hf : c.tagFormat = .ok f)
    (hr : Answers r asked f branch previous xs) (hs : Answers s asked f branch previous ys)
    (hne : Commit.changes (xs.map (·.toCommit)) ≠ [])
    (h : (Commit.changes (xs.map (·.toCommit))).Perm (Commit.changes (ys.map (·.toCommit)))) :
    (branch ∈ c.branches → Agree (make r c asked date) (make s c asked date)) ∧
    (branch ∉ c.branches → make r c asked date = .ok (.skip (.notReleaseBranch branch) []) ∧
      make s c asked date = .ok (.skip (.notReleaseBranch branch) [])) := by
  refine ⟨fun hmem => ?_, fun hmem => ⟨?_, ?_⟩⟩
  · rw [hr.make_eq hf hmem, hs.make_eq hf hmem]
    exact agree_ofCommits hne h
  · exact make_eq_notReleaseBranch hr.branch hmem
  · exact make_eq_notReleaseBranch hs.branch hmem

/-! ### The same changes in another order -/

/-- A project with a feature and a correction. -/
def featureMemory : MemoryRepository :=
  (MemoryRepository.empty.commit ⟨"c1", "✨ x"⟩).commit ⟨"c2", "🐛 y"⟩

/-- Another one with the correction first, and a commit of no kind between the two. -/
def correctionRepository : GitRepository :=
  (((GitRepository.empty (.text "main")).commit "c2" "🐛 y".toUTF8 []).commit "c3" "wip".toUTF8
    []).commit "c1" "✨ x".toUTF8 []

private theorem answers_correction : Answers correctionRepository none ⟨⟨"v", ""⟩⟩ "main" none
    [⟨"c2", "🐛 y"⟩, ⟨"c3", "wip"⟩, ⟨"c1", "✨ x"⟩] where
  branch := rfl
  latest := by
    have hhead : correctionRepository.headCommit = .ok 2 := rfl
    have hnames : correctionRepository.tagNames = [] := by
      have htags : correctionRepository.tags = [] := rfl
      simp [GitRepository.tagNames, htags]
    change correctionRepository.latestTag _ = _
    rw [GitRepository.latestTag, hhead, hnames]
    rfl
  commits := by decide +kernel

/-- Both projects make the same release, with different warnings. -/
theorem make_of_perm_changes_feature : ∃ date p q,
    make featureMemory Config.standard none date = .ok (.release p) ∧
    make correctionRepository Config.standard none date = .ok (.release q) ∧
    p.SameRelease q ∧ p.warnings ≠ q.warnings := by
  have date : Date := ⟨2024, 1, 1, by decide, by decide, by decide, by decide⟩
  have hf := Config.tagFormat_standard
  have hmain := Config.main_mem_standard
  have hfeature : Answers featureMemory none ⟨⟨"v", ""⟩⟩ "main" none featureMemory.commits :=
    ⟨rfl, rfl, rfl⟩
  have hagree := (make_of_perm_changes date hf hfeature answers_correction
    (by decide +kernel) (by decide +kernel)).1 hmain
  rcases hagree with ⟨o, herror, -⟩ | ⟨p, q, hp, hq, hsame⟩
  · -- a first release has the initial version
    rw [hfeature.make_eq hf hmain, ofCommits_eq_error_iff] at herror
    obtain ⟨_, ⟨⟩, -⟩ := herror
  · refine ⟨date, p, q, hp, hq, hsame, ?_⟩
    rw [hfeature.make_eq hf hmain] at hp
    rw [answers_correction.make_eq hf hmain] at hq
    obtain ⟨_, -, rfl⟩ := ofCommits_eq_release_iff.1 hp
    obtain ⟨_, -, rfl⟩ := ofCommits_eq_release_iff.1 hq
    simp only [planOf]
    decide +kernel

/-- From a branch without releases there is no release, whatever the changes. -/
theorem not_agree_of_other_branch : ∃ date,
    Answers (featureMemory.checkout "dev") none ⟨⟨"v", ""⟩⟩ "dev" none featureMemory.commits ∧
    Commit.changes (featureMemory.commits.map (·.toCommit)) ≠ [] ∧
    ¬ Agree (make (featureMemory.checkout "dev") Config.standard none date)
      (make (featureMemory.checkout "dev") Config.standard none date) := by
  have date : Date := ⟨2024, 1, 1, by decide, by decide, by decide, by decide⟩
  have hdev : Answers (featureMemory.checkout "dev") none ⟨⟨"v", ""⟩⟩ "dev" none
      featureMemory.commits := ⟨rfl, rfl, rfl⟩
  refine ⟨date, hdev, by decide +kernel, ?_⟩
  rw [make_eq_notReleaseBranch hdev.branch (by decide)]
  rintro (⟨_, h, -⟩ | ⟨_, _, h, -⟩) <;> cases h

end Decision

end ReleaseCut
