import ReleaseCut.Proofs.Changelog.Headings
import ReleaseCut.Proofs.Release.Coverage

/-!
# The changelog and the tags tell the same story

Over the life of a project the changelog and the tags list the same releases, in the same order
(`Run.changelog_lists_releases`).

`Story` says what the files tell: the changelog has the text of all notes so far. A release stages
its artifact, which the path of the changelog does not look at, and then puts its notes in front of
the others (`Story.released`).
-/

namespace ReleaseCut

/-- The heading of a release in the changelog. -/
def Tagging.heading (t : Tagging) : String :=
  "## " ++ t.plan.version.text ++ " (" ++ t.date.text ++ ")"

/-! ### What the files tell -/

/-- What the files tell of the releases so far. -/
structure Story (c : Config) (root : Path) (d : Disk) (ts : List Tagging) : Prop where
  /-- The changelog lies apart from the output. -/
  layout : Layout c root d
  /-- The changelog has the notes of all releases, the newest first. -/
  told : Changelog.Holds d (root.join c.changelogFile)
    (Changelog.textOf (ts.reverse.map (·.plan.notes)))
  /-- No entry of the notes takes more than its line. -/
  plain : ∀ t ∈ ts, t.plan.notes.IsPlain
  /-- The notes have version and date of their release. -/
  titled : ∀ t ∈ ts, t.plan.notes.titleLine = t.heading

namespace Story

variable [History.Walker] {c : Config} {root : Path} {w w' : Workspace GitRepository}
  {ts : List Tagging} {q : Request} {release : Release} {f : TagFormat}

/-- The notes of a plan are plain if no hash holds a newline. -/
private theorem isPlain_of_planned {r : GitRepository} {date : Date} {p : Plan}
    (hp : Decision.Planned r c f date p)
    (hhash : ∀ commit ∈ r.history.commits, '\n' ∉ commit.hash.toList) : p.notes.IsPlain := by
  obtain ⟨infos, hinfos, hcommits⟩ := hp.commits
  obtain ⟨head, base, -, -, rfl⟩ := GitRepository.commitsSince_spec hinfos
  -- the notes are made of commits of the history
  have hgroups : p.notes.groups = Notes.groupsOf ((r.infos
      (History.Walker.walk r.history head base)).map CommitInfo.toCommit) c.sectionOrder := by
    rw [hp.notes, hcommits]
  refine Notes.isPlain_of_groupsOf hgroups fun info hinfo => ?_
  obtain ⟨i, -, hi⟩ := List.mem_filterMap.1 hinfo
  obtain ⟨commit, hcommit, rfl⟩ := Option.map_eq_some_iff.1 hi
  exact hhash commit (List.mem_of_getElem? hcommit)

/-- One more release is told of. -/
theorem released (S : Story c root w.disk ts) (hroot : q.root = root) (hdry : q.dryRun = false)
    (h : w.cut c q = (.ok (.released release), w'))
    (hp : Decision.Planned w.repository c f q.date release.plan)
    (hhash : ∀ commit ∈ w.repository.history.commits, '\n' ∉ commit.hash.toList) :
    Story c root w'.disk (ts ++ [⟨w.repository, release.plan, q.date⟩]) := by
  subst hroot
  obtain ⟨-, s, asset, d, hs, hstage, hwrite, -⟩ := (Workspace.cut_eq_released_iff hdry).1 h
  -- first the artifact, then the changelog
  obtain ⟨L, hheld⟩ := S.layout.stage hs hstage S.told
  obtain ⟨L', hheld'⟩ := L.write hheld hwrite
  refine ⟨L', ?_, ?_, ?_⟩
  · rw [Changelog.updated_textOf] at hheld'
    simpa using hheld'
  · simpa [or_imp, forall_and] using ⟨S.plain, isPlain_of_planned hp hhash⟩
  · have htitle : release.plan.notes.titleLine =
        Tagging.heading ⟨w.repository, release.plan, q.date⟩ := by
      rw [hp.notes]
      rfl
    simpa [or_imp, forall_and] using ⟨S.titled, htitle⟩

end Story

namespace Run

section Walked

variable [History.Walker] {c : Config} {root : Path} {w₀ w : Workspace GitRepository}
  {log : List Call}

/-- What the files tell after a run in which no call failed. -/
theorem story (hlayout : Layout c root w₀.disk)
    (habsent : Changelog.Holds w₀.disk (root.join c.changelogFile) none)
    (run : Run c (WritesOutput c root) w₀ log w) (hcalls : ∀ call ∈ log, call.Succeeds root)
    (hhash : ∀ commit ∈ w.repository.history.commits, '\n' ∉ commit.hash.toList) :
    Story c root w.disk (taggings log) := by
  induction run with
  | start => exact ⟨hlayout, habsent, by simp [taggings], by simp [taggings]⟩
  | commit hash message parents _ _ ih =>
    refine ih hcalls fun commit hcommit => hhash commit ?_
    rw [GitRepository.history_commitOn]
    exact List.mem_append_left _ hcommit
  | files disk hchange _ ih =>
    have S := ih hcalls hhash
    exact ⟨hchange.1, hchange.2 _ S.told, S.plain, S.titled⟩
  | @call log w q _ ih =>
    have hcall := hcalls _ (List.mem_append_right _ (List.mem_singleton_self _))
    rw [w.history_cut c q] at hhash
    have S := ih (fun call h => hcalls call (List.mem_append_left _ h)) hhash
    obtain ⟨outcome, hresult⟩ := hcall.ok
    change (w.cut c q).1 = .ok outcome at hresult
    cases outcome with
    | skipped reason warnings =>
      have hlog : taggings (log ++ [⟨w, q, (w.cut c q).1⟩]) = taggings log := by
        simp [taggings, Call.tagging?, hresult]
      rw [hlog, Workspace.cut_skipped hresult]
      exact S
    | released release =>
      have hlog : taggings (log ++ [⟨w, q, (w.cut c q).1⟩]) =
          taggings log ++ [⟨w.repository, release.plan, q.date⟩] := by
        simp [taggings, Call.tagging?, hresult, hcall.tagged rfl hresult]
      have hcut : w.cut c q = (.ok (.released release), (w.cut c q).2) := Prod.ext hresult rfl
      obtain ⟨f, hp⟩ :=
        Decision.planned_of_make ((Workspace.cut_eq_released_iff hcall.full).1 hcut).1
      rw [hlog]
      exact S.released hcall.root hcall.full hcut hp hhash

/-- **The changelog and the tags tell the same story.** In the life of a project that starts without
releases and without a changelog, where no call fails and the changelog lies apart from the output:

* every release is tagged,
* the headings of the changelog are those of the releases, the newest first,
* versions go up from the initial one,
* and the releases of the repository are those tagged, each at the commit that was checked out. This
  depends on the repository calling tags as the format writes them. Otherwise it recognises none of
  its tags, and there is at most one release. -/
theorem changelog_lists_releases
    (hnil : ∀ f, c.tagFormat = .ok f → w₀.repository.releases f = [])
    (hlayout : Layout c root w₀.disk)
    (habsent : Changelog.Holds w₀.disk (root.join c.changelogFile) none)
    (run : Run c (WritesOutput c root) w₀ log w) (hcalls : ∀ call ∈ log, call.Succeeds root)
    (hhash : ∀ commit ∈ w.repository.history.commits, '\n' ∉ commit.hash.toList) :
    (∀ call ∈ log, ∀ release, call.result = .ok (.released release) → release.tagged = true) ∧
    (∃ old, Changelog.readOld w.disk (root.join c.changelogFile) = .ok old ∧
      Changelog.headings (old.getD "") = ((taggings log).map Tagging.heading).reverse) ∧
    (taggings log).Pairwise (fun t u => t.plan.version.Precedes u.plan.version) ∧
    (∀ t ∈ (taggings log).head?, t.plan.version = .initial) ∧
    ∀ f, c.tagFormat = .ok f →
      (IsTight (f.write .initial) → ∀ entry, entry ∈ w.repository.releases f ↔
        ∃ t ∈ taggings log, t.StandsAs f entry) ∧
      (¬ IsTight (f.write .initial) →
        w.repository.releases f = [] ∧ (taggings log).length ≤ 1) := by
  have S := run.story hlayout habsent hcalls hhash
  refine ⟨fun call hcall release hresult => ?_, ⟨_, S.told.readOld, ?_⟩, ?_⟩
  · exact (hcalls call hcall).tagged (run.result_eq call hcall) hresult
  · rw [Changelog.headings_textOf (by simpa using S.plain), List.map_map, List.map_reverse]
    exact congrArg List.reverse (List.map_congr_left S.titled)
  · cases hf : c.tagFormat with
    | error e => simp [run.taggings_eq_nil (by simp [hf])]
    | ok f =>
      have L := run.ledger hf (hnil f hf)
      refine ⟨L.increasing, L.first, ?_⟩
      rintro _ ⟨⟩
      refine ⟨L.kept, fun hloose => ?_⟩
      obtain ⟨hreleases, htaggings⟩ := L.lost hloose
      refine ⟨hreleases, ?_⟩
      rcases htaggings with hempty | ⟨hone, -⟩
      · simp [hempty]
      · exact Nat.le_of_eq hone

end Walked

/-- What the first call of `exists_run_merged` tags. -/
def firstTagging : Tagging where
  before := appWorkspace.repository
  plan := firstPlan "v{version}" ⟨⟨"v", ""⟩⟩ appRequest.date
  date := appRequest.date

/-- What the next call after the merge tags. -/
def nextTagging : Tagging where
  before := mergedRepository
  plan := nextPlan
  date := (nextRequest false).date

private theorem firstTagging_standsAs_iff {entry : ReleaseTag × TagTarget} :
    firstTagging.StandsAs ⟨⟨"v", ""⟩⟩ entry ↔ entry = (⟨"v1.0.0", .initial⟩, .commit 0) := by
  have hhead : firstTagging.before.headCommit = .ok 0 := rfl
  have hversion : firstTagging.plan.version = .initial := rfl
  have hwrite : (TagFormat.mk ⟨"v", ""⟩).write .initial = "v1.0.0" := by decide +kernel
  simp [Tagging.StandsAs, hhead, hversion, hwrite, Prod.ext_iff]

private theorem nextTagging_standsAs_iff {entry : ReleaseTag × TagTarget} :
    nextTagging.StandsAs ⟨⟨"v", ""⟩⟩ entry ↔
      entry = (⟨"v1.0.1", .release 1 0 1⟩, .commit 2) := by
  have hhead : nextTagging.before.headCommit = .ok 2 := rfl
  have hversion : nextTagging.plan.version = .release 1 0 1 := rfl
  have hwrite : (TagFormat.mk ⟨"v", ""⟩).write (.release 1 0 1) = "v1.0.1" := by decide +kernel
  simp [Tagging.StandsAs, hhead, hversion, hwrite, Prod.ext_iff]

/-- A life with two releases. A call in between finds nothing to do. -/
private theorem exists_run_next : ∃ log w first second,
    Run (appConfig "v{version}") (WritesOutput (appConfig "v{version}") ⟨"/"⟩) appWorkspace log w ∧
    log.map (·.result) = [.ok (.released first),
      .ok (.skipped .noCommits [.noNewCommits "v1.0.0"]), .ok (.released second)] ∧
    taggings log = [firstTagging, nextTagging] ∧ (∀ call ∈ log, call.Succeeds ⟨"/"⟩) ∧
    ∀ commit ∈ w.repository.history.commits, '\n' ∉ commit.hash.toList := by
  obtain ⟨asset, text, run⟩ := exists_run_merged
  obtain ⟨asset', text', run⟩ := run.exists_release_app (q := nextRequest false) make_next
    rfl rfl createTag_next
  refine ⟨_, _, _, _, run, rfl, rfl, fun call hcall => ?_, ?_⟩
  · simp only [List.cons_append, List.nil_append, List.mem_cons, List.not_mem_nil,
      or_false] at hcall
    rcases hcall with rfl | rfl | rfl <;> exact ⟨rfl, rfl, rfl, _, rfl⟩
  · change ∀ commit ∈ nextRepository.history.commits, _
    decide +kernel

/-- The newer one of two releases is listed first, and both are known to the repository. A call in
between that finds nothing to do leaves no trace. -/
theorem changelog_lists_two_releases : ∃ log w old first second,
    Run (appConfig "v{version}") (WritesOutput (appConfig "v{version}") ⟨"/"⟩) appWorkspace log w ∧
    log.map (·.result) = [.ok (.released first),
      .ok (.skipped .noCommits [.noNewCommits "v1.0.0"]), .ok (.released second)] ∧
    Changelog.readOld w.disk ⟨"/CHANGELOG.md"⟩ = .ok old ∧
    Changelog.headings (old.getD "") = ["## 1.0.1 (2024-02-01)", "## 1.0.0 (2024-01-01)"] ∧
    firstTagging.plan.version.Precedes nextTagging.plan.version ∧
    ∀ entry, entry ∈ w.repository.releases ⟨⟨"v", ""⟩⟩ ↔
      entry = (⟨"v1.0.0", .initial⟩, .commit 0) ∨
        entry = (⟨"v1.0.1", .release 1 0 1⟩, .commit 2) := by
  have hf : (appConfig "v{version}").tagFormat = .ok ⟨⟨"v", ""⟩⟩ := by decide +kernel
  obtain ⟨log, w, first, second, run, hresults, hlog, hcalls, hhash⟩ := exists_run_next
  obtain ⟨-, ⟨old, hread, hheadings⟩, hincreasing, -, htags⟩ :=
    changelog_lists_releases (fun _ _ => rfl) (layout_project none)
      (changelog_app ▸ holds_project none) run hcalls hhash
  have htags := (htags _ hf).1 (by decide +kernel)
  rw [hlog] at hheadings hincreasing htags
  refine ⟨log, w, old, first, second, run, hresults, changelog_app ▸ hread, ?_, ?_, fun entry => ?_⟩
  · rw [hheadings]
    decide +kernel
  · exact List.rel_of_pairwise_cons hincreasing (List.mem_cons_self ..)
  · rw [htags entry]
    simp [firstTagging_standsAs_iff, nextTagging_standsAs_iff]

/-- A tag with two slashes in a row is called otherwise, so the release that it was made for is lost
to the repository. -/
theorem release_lost_of_loose_tag :
    (∀ f, (appConfig "a//{version}").tagFormat = .ok f → appWorkspace.repository.releases f = []) ∧
    Layout (appConfig "a//{version}") ⟨"/"⟩ appWorkspace.disk ∧
    Changelog.Holds appWorkspace.disk
      (Path.join ⟨"/"⟩ (appConfig "a//{version}").changelogFile) none ∧
    ∃ log w,
      Run (appConfig "a//{version}") (WritesOutput (appConfig "a//{version}") ⟨"/"⟩)
        appWorkspace log w ∧
      (∀ call ∈ log, call.Succeeds ⟨"/"⟩) ∧
      (∀ commit ∈ w.repository.history.commits, '\n' ∉ commit.hash.toList) ∧
      (∃ call ∈ log, ∃ release, call.result = .ok (.released release)) ∧
      ∀ f, (appConfig "a//{version}").tagFormat = .ok f → w.repository.releases f = [] := by
  have hf : (appConfig "a//{version}").tagFormat = .ok ⟨⟨"a//", ""⟩⟩ := by decide +kernel
  obtain ⟨r, hcreate⟩ : ∃ r, appWorkspace.repository.createTag
      ((TagFormat.mk ⟨"a//", ""⟩).write .initial) = .ok r := ⟨_, rfl⟩
  obtain ⟨asset, text, run⟩ := exists_run_app hf hcreate
  obtain ⟨_, _, -, -, -, -, hhistory, -⟩ := GitRepository.createTag_spec hcreate
  have hnil : ∀ f, appWorkspace.repository.releases f = [] := fun f => rfl
  refine ⟨fun f _ => hnil f, layout_project none, changelog_app ▸ holds_project none, _, _, run,
    ?_, ?_, ⟨_, List.mem_singleton_self _, _, rfl⟩, fun f hf' => ?_⟩
  · intro call hcall
    obtain rfl := List.mem_singleton.1 hcall
    exact ⟨rfl, rfl, rfl, _, rfl⟩
  · rw [hhistory]
    decide +kernel
  · cases hf.symm.trans hf'
    exact ((run.ledger hf (hnil _)).lost (by decide +kernel)).1

end Run

end ReleaseCut
