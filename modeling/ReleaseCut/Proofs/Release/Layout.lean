import ReleaseCut.Proofs.Artifact.Publish
import ReleaseCut.Proofs.Changelog.Write
import ReleaseCut.Proofs.Release.Run

/-!
# The files of a project

`Layout c root d` says that the changelog lies apart from the output: its path looks at nothing that
staging may take away. A release keeps this. It stages the artifact without touching the changelog
(`Layout.stage`), and then adds a section to the changelog (`Layout.write`).

A small project shows both. Whatever its changelog is, a release that is due is made
(`Run.exists_release_app`). Its life starts with a first release (`exists_run_app`), after which there
is nothing to do until a branch is merged (`exists_run_merged`) and the next release is due
(`make_next`).
-/

namespace ReleaseCut

/-- How the files of a project lie: the path of the changelog looks at nothing in the directory of
the output that has a name of the published form. -/
structure Layout (c : Config) (root : Path) (d : Disk) : Prop where
  /-- The disk is sound. -/
  sound : d.IsSound
  /-- The changelog lies apart. -/
  apart : ∀ s out, c.staging root = .ok s → d.locateDirectory s.outputDir = .ok out →
    ∀ n, s.name.publishGlob.describes n = true →
      ¬ d.LooksAt (root.join c.changelogFile) (n :: out)

/-- Another program writes files, but not the changelog. -/
def WritesOutput (c : Config) (root : Path) (d d' : Disk) : Prop :=
  Layout c root d' ∧ ∀ old, Changelog.Holds d (root.join c.changelogFile) old →
    Changelog.Holds d' (root.join c.changelogFile) old

namespace Layout

variable {c : Config} {root : Path} {d d' : Disk} {s : Staging} {v : Version} {asset : Asset}
  {old : Option String} {release : String} {name : String} {parent : Location} {content : ByteArray}

/-- A stored file leaves the layout as it is. -/
private theorem stored (L : Layout c root d) (h : d.Stored (name :: parent) content d')
    (hname : IsEntryName name) (hparent : d.tree.get? parent = some .directory) :
    Layout c root d' where
  sound := h.isSound L.sound hname hparent
  apart := by
    intro s out hs hdir n hn hlooks
    have hbefore := Disk.locateDirectory_of_keeps hdir h.keeps_back h.cwd.symm
    have hlooked := hlooks.of_keeps h.keeps_back h.cwd
    exact L.apart s out hs hbefore n hn hlooked

/-- To stage the artifact is not to touch the changelog. -/
theorem stage (L : Layout c root d) (hs : c.staging root = .ok s)
    (h : s.stage d v = (.ok asset, d'))
    (hold : Changelog.Holds d (root.join c.changelogFile) old) :
    Layout c root d' ∧ Changelog.Holds d' (root.join c.changelogFile) old := by
  obtain ⟨out, content, hdir, hname, hstored, hsame⟩ :=
    Staging.stored_of_stage (Except.mapError_eq_ok_iff.1 hs) L.sound.proper h
  have hout := (Disk.locateDirectory_eq_ok_iff.1 hdir).2.1
  refine ⟨L.stored hstored hname hout, ?_⟩
  refine hold.congr L.sound hstored.cwd hstored.keeps_back hstored.directory_iff
    fun loc hlooks => hsame loc ?_
  rintro n hn rfl
  exact L.apart s out hs hdir n hn hlooks

/-- To write the changelog is to add a section to it. -/
theorem write (L : Layout c root d)
    (hold : Changelog.Holds d (root.join c.changelogFile) old)
    (h : Changelog.write d (root.join c.changelogFile) release = (.ok (), d')) :
    Layout c root d' ∧
      Changelog.Holds d' (root.join c.changelogFile) (some (Changelog.updated old release)) := by
  obtain ⟨parent, name, hentry, -, hstored, hnew⟩ := Changelog.write_spec hold h
  obtain ⟨hname, hparent⟩ := Disk.isEntryName_of_locateEntry hentry
  exact ⟨L.stored hstored hname hparent, hnew⟩

end Layout

/-! ### A small project -/

/-- A configuration for the artifacts of `Staging.appStaging`. -/
def appConfig (tagPattern : String) : Config :=
  { Config.standard with
    tagPattern
    artifact := ⟨⟨"target"⟩, "jar", "", "app-{version}.jar", ""⟩ }

/-- A project after a build, with an older artifact and maybe a changelog. -/
def projectDisk (changelog : Option String) : Disk where
  tree :=
    { entries := [(["target"], .directory), (["x.jar", "target"], .file ⟨#[1]⟩),
        (["app-1.0.0.jar", "target"], .file ⟨#[2]⟩)] ++
        (changelog.map fun text => (["CHANGELOG.md"], .file text.toUTF8)).toList
      distinct := by cases changelog <;> simp }
  cwd := []

/-- A project with one commit, which adds a feature, and another one on a branch beside it, which is
not checked out and fixes something. There is no changelog. -/
def appWorkspace : Workspace GitRepository where
  repository := ((GitRepository.empty (.text "main")).commitOn "c1" "✨ x".toUTF8 []).addCommit
    "c2" "🐛 y".toUTF8 [0]
  disk := projectDisk none

/-- A call for a whole release below the top directory. -/
def appRequest : Request where
  root := ⟨"/"⟩
  branch := none
  dryRun := false
  noTag := false
  date := ⟨2024, 1, 1, by decide, by decide, by decide, by decide⟩

section App

variable {pattern : String} {f : TagFormat}

theorem changelog_app :
    Path.join ⟨"/"⟩ (appConfig pattern).changelogFile = ⟨"/CHANGELOG.md"⟩ := by
  change Path.join ⟨"/"⟩ ⟨"CHANGELOG.md"⟩ = _
  decide +kernel

theorem staging_app :
    (appConfig pattern).staging ⟨"/"⟩ = .ok (Staging.appStaging ⟨"/target"⟩) := by
  change (appConfig "").staging ⟨"/"⟩ = _
  decide +kernel

section Files

variable (changelog : Option String)

/-- What stands in the project. -/
private theorem get?_project {loc : Location} {e : Entry} (hloc : loc ≠ [])
    (h : (projectDisk changelog).tree.get? loc = some e) :
    loc = ["target"] ∧ e = .directory ∨ loc = ["x.jar", "target"] ∧ e = .file ⟨#[1]⟩ ∨
      loc = ["app-1.0.0.jar", "target"] ∧ e = .file ⟨#[2]⟩ ∨
      loc = ["CHANGELOG.md"] ∧ ∃ text ∈ changelog, e = .file text.toUTF8 := by
  rw [FileTree.get?_eq_some_iff hloc] at h
  cases changelog <;> simpa [projectDisk] using h

private theorem locateDirectory_project :
    (projectDisk changelog).locateDirectory ⟨"/target"⟩ = .ok ["target"] := by
  cases changelog <;> rfl

private theorem isSound_project : (projectDisk changelog).IsSound where
  proper := by
    intro loc e hget name hname
    rcases get?_project changelog (List.ne_nil_of_mem hname) hget with
      ⟨rfl, -⟩ | ⟨rfl, -⟩ | ⟨rfl, -⟩ | ⟨rfl, -⟩ <;>
    · revert name
      decide
  rooted := by
    intro name parent e hget
    rcases get?_project changelog (by simp) hget with h | h | h | h <;>
    · obtain ⟨rfl, rfl⟩ := List.cons.inj h.1
      cases changelog <;> rfl
  cwd := rfl

/-- A path with one step looks only there, since there are no links. -/
private theorem eq_of_looks_project {loc : Location} {step : String}
    (h : Looks (projectDisk changelog).tree loc [] [step]) (hdot : step ≠ ".")
    (hup : step ≠ "..") : loc = [step] := by
  cases h with
  | now _ _ _ hloc => exact hloc.symm
  | dot => exact absurd rfl hdot
  | up => exact absurd rfl hup
  | enter _ _ _ _ _ hrest => cases hrest
  | follow _ _ _ hget =>
    rcases get?_project changelog (by simp) hget with
      ⟨-, ⟨⟩⟩ | ⟨-, ⟨⟩⟩ | ⟨-, ⟨⟩⟩ | ⟨-, _, -, ⟨⟩⟩

/-- The changelog lies apart from the output. -/
theorem layout_project : Layout (appConfig pattern) ⟨"/"⟩ (projectDisk changelog) where
  sound := isSound_project changelog
  apart := by
    intro s out hs hdir n _ hlooks
    cases staging_app.symm.trans hs
    cases (locateDirectory_project changelog).symm.trans hdir
    rw [changelog_app] at hlooks
    have hsteps : Looks (projectDisk changelog).tree [n, "target"] [] ["CHANGELOG.md"] := hlooks
    have hplace := eq_of_looks_project changelog hsteps (by decide) (by decide)
    simp at hplace

theorem holds_project :
    Changelog.Holds (projectDisk changelog) ⟨"/CHANGELOG.md"⟩ changelog := by
  cases changelog with
  | none =>
    have hlocate : (projectDisk none).locate ⟨"/CHANGELOG.md"⟩ = .error .notFound := rfl
    refine Changelog.holds_of_readOld ?_ (by decide) (by simp [hlocate])
    simp [Changelog.readOld_eq_none_iff, hlocate]
  | some text =>
    have hlocate : (projectDisk (some text)).locate ⟨"/CHANGELOG.md"⟩ = .ok ["CHANGELOG.md"] := rfl
    have hread : (projectDisk (some text)).readText ⟨"/CHANGELOG.md"⟩ = .ok text :=
      Changelog.readText_of_file hlocate rfl
    exact Changelog.holds_of_readOld (Changelog.readOld_eq_some_iff.2 hread) (by decide)
      (by simp [hlocate])

/-- An artifact can be staged for any version. -/
private theorem exists_stage_project (v : Version) : ∃ asset d,
    (Staging.appStaging ⟨"/target"⟩).stage (projectDisk changelog) v = (.ok asset, d) := by
  have hs := Staging.ofPatterns_appStaging ⟨"/target"⟩
  have hdir := locateDirectory_project changelog
  refine (Staging.exists_stage_iff hs (isSound_project changelog).proper hdir v).2
    ⟨?_, by decide, ?_, ?_⟩
  · exact (Staging.exists_candidates_iff hdir).2
      ⟨"x.jar", .file ⟨#[1]⟩, by cases changelog <;> rfl, by decide +kernel⟩
  · intro n e hget _
    rcases get?_project changelog (by simp) hget with
      ⟨h, -⟩ | ⟨-, rfl⟩ | ⟨-, rfl⟩ | ⟨-, _, -, rfl⟩
    · cases h
    · exact .inl rfl
    · exact .inl rfl
    · exact .inl rfl
  · intro hlooks
    have hsteps : Looks (projectDisk changelog).tree _ [] ["target"] := hlooks
    have hplace := eq_of_looks_project changelog hsteps (by decide) (by decide)
    simp at hplace

/-- The steps of a release can be taken, and add its notes to the changelog. -/
theorem exists_steps_project (v : Version) (notes : String) : ∃ asset d d',
    (Staging.appStaging ⟨"/target"⟩).stage (projectDisk changelog) v = (.ok asset, d) ∧
    Changelog.write d ⟨"/CHANGELOG.md"⟩ notes = (.ok (), d') ∧
    Changelog.Holds d' ⟨"/CHANGELOG.md"⟩ (some (Changelog.updated changelog notes)) := by
  have L : Layout (appConfig "") ⟨"/"⟩ (projectDisk changelog) := layout_project changelog
  obtain ⟨asset, d, hstage⟩ := exists_stage_project changelog v
  -- the changelog is still there after staging, and so is its place
  obtain ⟨L', hheld⟩ := L.stage staging_app hstage (changelog_app ▸ holds_project changelog)
  have hentry : d.locateEntry ⟨"/CHANGELOG.md"⟩ = .ok ([], "CHANGELOG.md") := rfl
  rw [changelog_app] at hheld
  obtain ⟨d', hwrite⟩ := Changelog.exists_write hheld.readOld hentry (by decide) notes
  obtain ⟨-, -, -, -, -, hheld'⟩ := Changelog.write_spec hheld hwrite
  exact ⟨asset, d, d', hstage, hwrite, hheld'⟩

end Files

variable {r r' : GitRepository} {q : Request} {p : Plan} {log : List Call}

/-- A release that is due is made. -/
private theorem exists_cut_project (changelog : Option String)
    (hmake : Decision.make r (appConfig pattern) q.branch q.date = .ok (.release p))
    (hroot : q.root = ⟨"/"⟩) (hdry : q.dryRun = false)
    (hcreate : if q.noTag then r' = r else r.createTag p.tag = .ok r') :
    ∃ asset d, Workspace.cut ⟨r, projectDisk changelog⟩ (appConfig pattern) q =
        (.ok (.released ⟨p, some asset, some ⟨"/CHANGELOG.md"⟩, !q.noTag⟩), ⟨r', d⟩) ∧
      Changelog.Holds d ⟨"/CHANGELOG.md"⟩
        (some (Changelog.updated changelog p.notes.render)) := by
  obtain ⟨asset, d, d', hstage, hwrite, hheld⟩ :=
    exists_steps_project changelog p.version p.notes.render
  refine ⟨asset, d', (Workspace.cut_eq_released_iff hdry).2 ?_, hheld⟩
  rw [hroot, changelog_app]
  exact ⟨hmake, _, asset, d, staging_app, hstage, hwrite, rfl, hcreate⟩

/-- In the life of the project a release is made, and the project is built again. -/
theorem Run.exists_release_app {changelog : Option String}
    (run : Run (appConfig pattern) (WritesOutput (appConfig pattern) ⟨"/"⟩) appWorkspace log
      ⟨r, projectDisk changelog⟩)
    (hmake : Decision.make r (appConfig pattern) q.branch q.date = .ok (.release p))
    (hroot : q.root = ⟨"/"⟩) (hdry : q.dryRun = false)
    (hcreate : if q.noTag then r' = r else r.createTag p.tag = .ok r') :
    ∃ asset text, Run (appConfig pattern) (WritesOutput (appConfig pattern) ⟨"/"⟩) appWorkspace
      (log ++ [⟨⟨r, projectDisk changelog⟩, q,
        .ok (.released ⟨p, some asset, some ⟨"/CHANGELOG.md"⟩, !q.noTag⟩)⟩])
      ⟨r', projectDisk (some text)⟩ := by
  obtain ⟨asset, d, hcut, hheld⟩ := exists_cut_project changelog hmake hroot hdry hcreate
  refine ⟨asset, _, .files (projectDisk (some (Changelog.updated changelog p.notes.render)))
    ⟨layout_project _, fun old hold => ?_⟩ (run.call_eq hcut)⟩
  -- the changelog has one text only
  rw [changelog_app] at hold ⊢
  obtain rfl := Except.ok.inj (hold.readOld.symm.trans hheld.readOld)
  exact holds_project _

/-! ### Releases -/

/-- The plan of a first release. -/
def firstPlan (pattern : String) (f : TagFormat) (date : Date) : Plan :=
  Decision.planOf (appConfig pattern) f "main" none
    ([⟨"c1", "✨ x"⟩].map CommitInfo.toCommit) date .initial

/-- A first release is due. -/
private theorem make_first (hf : (appConfig pattern).tagFormat = .ok f) (date : Date) :
    Decision.make appWorkspace.repository (appConfig pattern) none date =
      .ok (.release (firstPlan pattern f date)) := by
  have hmain : "main" ∈ (appConfig pattern).branches := List.mem_singleton_self _
  have hhead : appWorkspace.repository.headCommit = .ok 0 := rfl
  have htags : appWorkspace.repository.tags = [] := rfl
  have hlatest : Repository.latestTag appWorkspace.repository f = .ok none := by
    change appWorkspace.repository.latestTag f = .ok none
    rw [GitRepository.latestTag, GitRepository.tagNames, htags, hhead]
    simp [bind, Except.bind, pure, Except.pure]
  have h : Decision.Answers appWorkspace.repository none f "main" none [⟨"c1", "✨ x"⟩] :=
    ⟨rfl, hlatest, rfl⟩
  exact h.make_eq_release hf hmain rfl

/-- The first release of the project is tagged. -/
theorem exists_tagsRelease_app (hf : (appConfig pattern).tagFormat = .ok f)
    (hcreate : appWorkspace.repository.createTag (f.write .initial) = .ok r) :
    ∃ release, appWorkspace.TagsRelease (appConfig pattern) appRequest release ∧
      release.plan.tag = f.write .initial := by
  obtain ⟨asset, d, hcut, -⟩ := exists_cut_project none (q := appRequest) (make_first hf _)
    rfl rfl hcreate
  exact ⟨_, Workspace.tagsRelease_iff.2 ⟨congrArg Prod.fst hcut, rfl⟩, rfl⟩

/-- A life of the project is the call for its first release, after which it is built again. -/
theorem exists_run_app (hf : (appConfig pattern).tagFormat = .ok f)
    (hcreate : appWorkspace.repository.createTag (f.write .initial) = .ok r) :
    ∃ asset text, Run (appConfig pattern) (WritesOutput (appConfig pattern) ⟨"/"⟩) appWorkspace
      [⟨appWorkspace, appRequest, .ok (.released ⟨firstPlan pattern f appRequest.date, some asset,
        some ⟨"/CHANGELOG.md"⟩, true⟩)⟩]
      ⟨r, projectDisk (some text)⟩ :=
  Run.exists_release_app (q := appRequest) .start (make_first hf _) rfl rfl hcreate

end App

/-! ### Two releases -/

/-- The repository after the first release. -/
def taggedRepository : GitRepository :=
  appWorkspace.repository.setTag (.text "v1.0.0") (.commit 0)

/-- The same once the branch beside it was merged. -/
def mergedRepository : GitRepository :=
  taggedRepository.commitOn "c3" "merge".toUTF8 [0, 1]

/-- The same after the next release. -/
def nextRepository : GitRepository :=
  mergedRepository.setTag (.text "v1.0.1") (.commit 2)

/-- A call for the next release, a month later. -/
def nextRequest (noTag : Bool) : Request where
  root := ⟨"/"⟩
  branch := none
  dryRun := false
  noTag
  date := ⟨2024, 2, 1, by decide, by decide, by decide, by decide⟩

/-- The plan of the next release. -/
def nextPlan : Plan :=
  Decision.planOf (appConfig "v{version}") ⟨⟨"v", ""⟩⟩ "main" (some ⟨"v1.0.0", .initial⟩)
    ([⟨"c2", "🐛 y"⟩, ⟨"c3", "merge"⟩].map CommitInfo.toCommit) (nextRequest false).date
    (.release 1 0 1)

private theorem tagFormat_app : (appConfig "v{version}").tagFormat = .ok ⟨⟨"v", ""⟩⟩ := by
  decide +kernel

/-- The next release is due. -/
theorem make_next : Decision.make mergedRepository (appConfig "v{version}") none
    (nextRequest false).date = .ok (.release nextPlan) := by
  have h : Decision.Answers mergedRepository none ⟨⟨"v", ""⟩⟩ "main" (some ⟨"v1.0.0", .initial⟩)
      [⟨"c2", "🐛 y"⟩, ⟨"c3", "merge"⟩] := ⟨rfl, by decide +kernel, by decide +kernel⟩
  exact h.make_eq_release tagFormat_app (List.mem_singleton_self _) (by decide +kernel)

theorem createTag_next : mergedRepository.createTag nextPlan.tag = .ok nextRepository :=
  rfl

/-- The project is released, a second call finds nothing to do, and the branch beside it is merged.
-/
theorem exists_run_merged : ∃ asset text,
    Run (appConfig "v{version}") (WritesOutput (appConfig "v{version}") ⟨"/"⟩) appWorkspace
      [⟨appWorkspace, appRequest, .ok (.released ⟨firstPlan "v{version}" ⟨⟨"v", ""⟩⟩
          appRequest.date, some asset, some ⟨"/CHANGELOG.md"⟩, true⟩)⟩,
        ⟨⟨taggedRepository, projectDisk (some text)⟩, appRequest,
          .ok (.skipped .noCommits [.noNewCommits "v1.0.0"])⟩]
      ⟨mergedRepository, projectDisk (some text)⟩ := by
  obtain ⟨asset, text, run⟩ := exists_run_app (r := taggedRepository) tagFormat_app rfl
  have hmake : Decision.make taggedRepository (appConfig "v{version}") appRequest.branch
      appRequest.date = .ok (.skip .noCommits [.noNewCommits "v1.0.0"]) := by decide +kernel
  have run' := run.call_eq (Workspace.cut_eq_skipped_iff.2 ⟨hmake, rfl⟩)
  refine ⟨asset, text, run'.commit "c3" "merge".toUTF8 [0, 1] fun head hhead => ?_⟩
  obtain rfl : 0 = head := Except.ok.inj hhead
  exact List.mem_cons_self ..

end ReleaseCut
