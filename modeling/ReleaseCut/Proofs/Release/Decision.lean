import ReleaseCut.Proofs.Except
import ReleaseCut.Proofs.Version.Order
import ReleaseCut.Release.Plan

/-!
# What is decided

* A decision goes by what the repository answers (`Decision.Answers`): on a branch with releases it
  is that for the commits since the latest release (`Answers.make_eq`), on any other it is known
  from the branch (`make_eq_notReleaseBranch`). `make_eq_ok_iff` takes a decision apart, and
  `make_congr` compares two repositories.
* `Decision.Decides` lists the ways in which a list of commits is decided. It is what `ofCommits`
  does (`ofCommits_eq_iff`), and when each verdict is given is read off it.
* `Decision.Planned` says how the parts of a plan hang together; every release that is decided is
  planned so (`planned_of_make`).
-/

namespace ReleaseCut

/-- In the standard configuration tags have the version after a letter. -/
theorem Config.tagFormat_standard : Config.standard.tagFormat = .ok ⟨⟨"v", ""⟩⟩ := by
  decide +kernel

/-- In the standard configuration the main branch has releases. -/
theorem Config.main_mem_standard : "main" ∈ Config.standard.branches :=
  List.mem_singleton_self _

variable {ρ : Type} [Repository ρ]

namespace Decision

variable {c : Config} {date : Date} {p : Plan} {branch : String}

/-! ### Repositories -/

/-- The branch that is asked for, else the one checked out. -/
def branchFor (r : ρ) : Option String → Except ReleaseError String
  | some name => .ok name
  | none => Repository.currentBranch r

/-- What a decision goes by: the branch that a repository is asked about, its latest release and the
commits since then. -/
structure Answers (r : ρ) (asked : Option String) (f : TagFormat) (branch : String)
    (previous : Option ReleaseTag) (infos : List CommitInfo) : Prop where
  /-- The branch. -/
  branch : branchFor r asked = .ok branch
  /-- The latest release. -/
  latest : Repository.latestTag r f = .ok previous
  /-- The commits since the latest release, or all of them. -/
  commits : Repository.commitsSince r (previous.map (·.name)) = .ok infos

/-- The decision for a repository on a given branch. -/
def onBranch (r : ρ) (c : Config) (date : Date) (branch : String) :
    Except ReleaseError Decision :=
  if !c.branches.contains branch then return skip (.notReleaseBranch branch) []
  else do
    let f ← c.tagFormat
    let previous ← Repository.latestTag r f
    let infos ← Repository.commitsSince r (previous.map (·.name))
    ofCommits c f branch previous (infos.map (·.toCommit)) date

/-- A decision asks for the branch first. -/
theorem make_eq (r : ρ) (c : Config) (asked : Option String) (date : Date) :
    make r c asked date = branchFor r asked >>= onBranch r c date := by
  cases asked <;> rfl

/-- On a branch with releases the decision is that for the commits since the latest release. -/
theorem Answers.make_eq {r : ρ} {asked : Option String} {f : TagFormat}
    {previous : Option ReleaseTag} {infos : List CommitInfo}
    (h : Answers r asked f branch previous infos) (hf : c.tagFormat = .ok f)
    (hmem : branch ∈ c.branches) :
    make r c asked date = ofCommits c f branch previous (infos.map (·.toCommit)) date := by
  simp [Decision.make_eq, h.branch, onBranch, hmem, hf, h.latest, h.commits, bind, Except.bind]

/-- On any other branch nothing else is asked of the repository. -/
theorem make_eq_notReleaseBranch {r : ρ} {asked : Option String}
    (hbranch : branchFor r asked = .ok branch) (hmem : branch ∉ c.branches) :
    make r c asked date = .ok (.skip (.notReleaseBranch branch) []) := by
  simp [Decision.make_eq, hbranch, onBranch, hmem, bind, Except.bind, pure, Except.pure]

/-- Repositories that answer alike about the configured format are decided alike. -/
theorem make_congr_of_format {σ : Type} [Repository σ] {r : ρ} {s : σ} {asked : Option String}
    (hbranch : branchFor r asked = branchFor s asked)
    (hlatest : ∀ f, c.tagFormat = .ok f → Repository.latestTag r f = Repository.latestTag s f)
    (hcommits : ∀ f previous, c.tagFormat = .ok f → Repository.latestTag r f = .ok previous →
      Repository.commitsSince r (previous.map (·.name)) =
        Repository.commitsSince s (previous.map (·.name))) :
    make r c asked date = make s c asked date := by
  rw [make_eq, make_eq, hbranch]
  refine bind_congr fun branch => ?_
  rw [onBranch, onBranch]
  split
  · rfl
  · cases hf : c.tagFormat with
    | error e => rfl
    | ok f =>
      simp only [bind, Except.bind]
      rw [← hlatest f hf]
      cases hprevious : Repository.latestTag r f with
      | error e => rfl
      | ok previous => simp only [hcommits f previous hf hprevious]

/-- Repositories that answer alike are decided alike. -/
theorem make_congr {σ : Type} [Repository σ] {r : ρ} {s : σ} {asked : Option String}
    (hbranch : branchFor r asked = branchFor s asked)
    (hlatest : ∀ f, Repository.latestTag r f = Repository.latestTag s f)
    (hcommits : ∀ f previous, Repository.latestTag r f = .ok previous →
      Repository.commitsSince r (previous.map (·.name)) =
        Repository.commitsSince s (previous.map (·.name))) :
    make r c asked date = make s c asked date :=
  make_congr_of_format hbranch (fun f _ => hlatest f) fun f previous _ => hcommits f previous

/-- A decision is made for the commits since the latest release, or for a branch without releases.
-/
theorem make_eq_ok_iff {r : ρ} {asked : Option String} {decision : Decision} :
    make r c asked date = .ok decision ↔ ∃ branch, branchFor r asked = .ok branch ∧
      (branch ∉ c.branches ∧ decision = .skip (.notReleaseBranch branch) [] ∨
      branch ∈ c.branches ∧ ∃ f previous infos, c.tagFormat = .ok f ∧
        Repository.latestTag r f = .ok previous ∧
        Repository.commitsSince r (previous.map (·.name)) = .ok infos ∧
        ofCommits c f branch previous (infos.map (·.toCommit)) date = .ok decision) := by
  rw [make_eq, Except.bind_eq_ok_iff]
  refine exists_congr fun branch => and_congr_right fun _ => ?_
  rw [onBranch]
  by_cases hmem : branch ∈ c.branches
  · simp [hmem, Except.bind_eq_ok_iff]
  · simp [hmem, pure, Except.pure, eq_comm]

/-! ### Lists of commits -/

section Commits

variable {f : TagFormat} {previous : Option ReleaseTag} {commits : List Commit}

/-- The plan for some commits that lead to a version. -/
def planOf (c : Config) (f : TagFormat) (branch : String) (previous : Option ReleaseTag)
    (commits : List Commit) (date : Date) (v : Version) : Plan where
  branch := branch
  previous := previous
  commits := commits
  bump := Commit.largestBump commits
  version := v
  tag := f.write v
  notes := { version := v, date, groups := Notes.groupsOf commits c.sectionOrder }
  releaseMessage := c.releaseMessageFor v
  warnings := originWarnings c previous ++ ignoredWarnings commits

/-- The ways in which a list of commits is decided. -/
inductive Decides (c : Config) (f : TagFormat) (branch : String) (previous : Option ReleaseTag)
    (commits : List Commit) (date : Date) : Except ReleaseError Decision → Prop
  /-- There are no commits. -/
  | noCommits (hnil : commits = []) : Decides c f branch previous commits date
      (.ok (.skip .noCommits (originWarnings c previous ++ idleWarnings previous)))
  /-- No version is asked for. -/
  | noBump (hne : commits ≠ [])
      (hnext : (Commit.largestBump commits).next? (previous.map (·.version)) = .ok none) :
      Decides c f branch previous commits date
        (.ok (.skip .noBump (originWarnings c previous ++ ignoredWarnings commits)))
  /-- The version cannot be raised. -/
  | overflow {o : Overflow}
      (hnext : (Commit.largestBump commits).next? (previous.map (·.version)) = .error o) :
      Decides c f branch previous commits date (.error (.version o))
  /-- The version is raised. -/
  | release {v : Version}
      (hnext : (Commit.largestBump commits).next? (previous.map (·.version)) = .ok (some v)) :
      Decides c f branch previous commits date
        (.ok (.release (planOf c f branch previous commits date v)))

/-- A list of commits is decided in one of these ways, and each of them is a decision. -/
theorem ofCommits_eq_iff {result : Except ReleaseError Decision} :
    ofCommits c f branch previous commits date = result ↔
      Decides c f branch previous commits date result := by
  have hnone : (Commit.largestBump []).next? (previous.map (·.version)) = .ok none := by
    cases previous <;> rfl
  constructor
  · rintro rfl
    cases commits with
    | nil => exact .noCommits rfl
    | cons commit commits =>
      simp only [ofCommits, List.isEmpty_cons, Bool.false_eq_true, if_false]
      cases hnext : (Commit.largestBump (commit :: commits)).next? (previous.map (·.version)) with
      | error o => exact .overflow hnext
      | ok next =>
        cases next with
        | none => exact .noBump (List.cons_ne_nil _ _) hnext
        | some v => exact .release hnext
  · intro h
    cases commits with
    | nil =>
      cases h with
      | noCommits _ => rfl
      | noBump hne _ => exact absurd rfl hne
      | overflow hnext => cases hnone.symm.trans hnext
      | release hnext => cases hnone.symm.trans hnext
    | cons commit commits =>
      simp only [ofCommits, List.isEmpty_cons, Bool.false_eq_true, if_false]
      cases h with
      | noCommits hnil => cases hnil
      | noBump _ hnext => rw [hnext]; rfl
      | overflow hnext => rw [hnext]; rfl
      | release hnext => rw [hnext]; rfl

/-- A release is decided for a list of commits exactly if the version is raised. -/
theorem ofCommits_eq_release_iff :
    ofCommits c f branch previous commits date = .ok (.release p) ↔
      ∃ v, (Commit.largestBump commits).next? (previous.map (·.version)) = .ok (some v) ∧
        p = planOf c f branch previous commits date v := by
  rw [ofCommits_eq_iff]
  constructor
  · rintro ⟨⟩
    exact ⟨_, ‹_›, rfl⟩
  · rintro ⟨v, hnext, rfl⟩
    exact .release hnext

/-- A release is planned where the commits ask for a version. -/
theorem Answers.make_eq_release {ρ : Type} [Repository ρ] {r : ρ} {asked : Option String}
    {infos : List CommitInfo} {v : Version} (h : Answers r asked f branch previous infos)
    (hf : c.tagFormat = .ok f) (hmem : branch ∈ c.branches)
    (hnext : (Commit.largestBump (infos.map (·.toCommit))).next? (previous.map (·.version)) =
      .ok (some v)) :
    make r c asked date =
      .ok (.release (planOf c f branch previous (infos.map (·.toCommit)) date v)) := by
  rw [h.make_eq hf hmem]
  exact ofCommits_eq_release_iff.2 ⟨v, hnext, rfl⟩

/-- That there are no commits is found exactly of an empty list. -/
theorem ofCommits_eq_noCommits_iff {warnings : List Warning} :
    ofCommits c f branch previous commits date = .ok (.skip .noCommits warnings) ↔
      commits = [] ∧ warnings = originWarnings c previous ++ idleWarnings previous := by
  rw [ofCommits_eq_iff]
  constructor
  · rintro ⟨⟩
    exact ⟨‹_›, rfl⟩
  · rintro ⟨hnil, rfl⟩
    exact .noCommits hnil

/-- That no version is asked for is found of commits without a bump. -/
theorem ofCommits_eq_noBump_iff {warnings : List Warning} :
    ofCommits c f branch previous commits date = .ok (.skip .noBump warnings) ↔
      commits ≠ [] ∧ Commit.largestBump commits = .none ∧
        warnings = originWarnings c previous ++ ignoredWarnings commits := by
  rw [ofCommits_eq_iff, ← @Bump.next?_eq_none_iff _ (previous.map (·.version))]
  constructor
  · rintro ⟨⟩
    exact ⟨‹_›, ‹_›, rfl⟩
  · rintro ⟨hne, hnext, rfl⟩
    exact .noBump hne hnext

/-- A decision fails only where the version before is spent. -/
theorem ofCommits_eq_error_iff {e : ReleaseError} :
    ofCommits c f branch previous commits date = .error e ↔
      ∃ t ∈ previous, (Commit.largestBump commits).IsSpent t.version ∧
        e = .version ⟨t.version⟩ := by
  rw [ofCommits_eq_iff]
  constructor
  · rintro ⟨⟩
    obtain ⟨v, hv, hspent, rfl⟩ := Bump.next?_eq_error_iff.1 ‹_›
    obtain ⟨t, ht, rfl⟩ := Option.map_eq_some_iff.1 hv
    exact ⟨t, ht, hspent, rfl⟩
  · rintro ⟨t, ht, hspent, rfl⟩
    exact .overflow (Bump.next?_eq_error_iff.2 ⟨_, Option.mem_map_of_mem _ ht, hspent, rfl⟩)

/-- For a list of commits, the branch is not put in doubt. -/
theorem ofCommits_ne_notReleaseBranch {other : String} {warnings : List Warning} :
    ofCommits c f branch previous commits date ≠
      .ok (.skip (.notReleaseBranch other) warnings) := by
  rw [Ne, ofCommits_eq_iff]
  rintro ⟨⟩

end Commits

/-! ### Plans -/

/-- How the parts of a plan for a repository hang together. -/
structure Planned (r : ρ) (c : Config) (f : TagFormat) (date : Date) (p : Plan) : Prop where
  /-- The format is the configured one. -/
  format : c.tagFormat = .ok f
  /-- The release before is the latest one. -/
  latest : Repository.latestTag r f = .ok p.previous
  /-- The commits are those since then. -/
  commits : ∃ infos, Repository.commitsSince r (p.previous.map (·.name)) = .ok infos ∧
    p.commits = infos.map (·.toCommit)
  /-- The version is raised as far as the commits ask for. -/
  version : (Commit.largestBump p.commits).next? (p.previous.map (·.version)) = .ok (some p.version)
  /-- The tag names the version. -/
  tag : p.tag = f.write p.version
  /-- The notes list the commits under version and date. -/
  notes : p.notes =
    { version := p.version, date, groups := Notes.groupsOf p.commits c.sectionOrder }

/-- Every release that is decided for a repository is planned. -/
theorem planned_of_make {r : ρ} {asked : Option String}
    (h : make r c asked date = .ok (.release p)) : ∃ f, Planned r c f date p := by
  obtain ⟨branch, -, ⟨-, h⟩ | ⟨-, f, previous, infos, hf, hprevious, hinfos, h⟩⟩ :=
    make_eq_ok_iff.1 h
  · cases h
  · obtain ⟨v, hversion, rfl⟩ := ofCommits_eq_release_iff.1 h
    exact ⟨f, hf, hprevious, ⟨infos, hinfos, rfl⟩, hversion, rfl, rfl⟩

end Decision

end ReleaseCut
