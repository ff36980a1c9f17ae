import Mathlib.Data.Set.Insert
import ReleaseCut.CommandLine.Program
import ReleaseCut.Proofs.Release.Layout
import ReleaseCut.Proofs.Repository.Errors
import ReleaseCut.Proofs.Repository.Memory

/-!
# What a run leaves behind

A tag is the last thing that a run creates, and all that it changes in a repository
(`Workspace.cut_tags_last`). So a failure leaves the repository alone, and a tag is there only for a
release whose artifact was staged and whose notes were written.

`Workspace.TagsLast` says so for any repository, given the set of its tags and which of them stands
for a name that was asked for; `Workspace.tagsLast` proves it from what creating a tag does.
`Changelog.Tells` says how the notes are then found in the changelog.
-/

namespace ReleaseCut

/-- After a change of the disk, the changelog that a path names has some notes. They are read under
this path, unless it led through its own last name, behind too many links. -/
def Changelog.Tells (d d' : Disk) (p : Path) (notes : String) : Prop :=
  ∃ parent name text, d.locateEntry p = .ok (parent, name) ∧
    d'.tree.get? (name :: parent) = some (.file text.toUTF8) ∧ notes.toList <:+: text.toList ∧
    (d'.readText p = .ok text ∨
      d.LeadsThrough p (name :: parent) ∧ d.locate p = .error .tooManyLinks)

/-- Notes that were written are told. -/
theorem Changelog.tells_of_write {d d' : Disk} {p : Path} {notes : String}
    (h : write d p notes = (.ok (), d')) : Tells d d' p notes := by
  obtain ⟨old, parent, name, hold, hentry, hslash, hplaced⟩ := placed_of_write h
  refine ⟨parent, name, updated old notes, hentry, hplaced.stored.file, isInfix_updated old notes,
    ?_⟩
  by_cases hway : d.LeadsThrough p (name :: parent)
  · exact .inr ⟨hway, tooManyLinks_of_leadsThrough hold hentry hslash hway⟩
  · exact .inl (readText_of_stored hentry hslash hway hplaced.stored rfl)

namespace Workspace

variable {ρ τ : Type} [Repository ρ] {tags : ρ → Set τ} {stands : ρ → String → τ → Prop}
  {w : Workspace ρ} {c : Config} {q : Request}

/-- What a run has done when it tags a release. -/
structure Completes (tags : ρ → Set τ) (stands : ρ → String → τ → Prop) (w : Workspace ρ)
    (c : Config) (q : Request) (release : Release) : Prop where
  /-- One tag is new, which stands for the one planned. -/
  added : ∃ t, stands w.repository release.plan.tag t ∧ t ∉ tags w.repository ∧
    tags (w.cut c q).2.repository = insert t (tags w.repository)
  /-- The artifact was staged, and then the notes were written. -/
  staged : ∃ s asset d, c.staging q.root = .ok s ∧
    s.stage w.disk release.plan.version = (.ok asset, d) ∧ release.asset = some asset ∧
    Changelog.Tells d (w.cut c q).2.disk (q.root.join c.changelogFile) release.plan.notes.render

/-- A tag is the last thing that a run creates. -/
structure TagsLast (tags : ρ → Set τ) (stands : ρ → String → τ → Prop) (w : Workspace ρ)
    (c : Config) (q : Request) : Prop where
  /-- A run that fails leaves the repository as it is. -/
  failed : ∀ e, (w.cut c q).1 = .error e → (w.cut c q).2.repository = w.repository
  /-- A run that skips or only plans leaves the files as they are. -/
  idle : (∃ reason warnings, (w.cut c q).1 = .ok (.skipped reason warnings)) ∨ q.dryRun = true →
    (w.cut c q).2.disk = w.disk
  /-- So does a run that fails before there is an artifact to be staged. -/
  early : (∃ e, Decision.make w.repository c q.branch q.date = .error e) ∨
    (∃ e, c.staging q.root = .error e) ∨
    (∃ dir listing, (w.cut c q).1 = .error (.noArtifactFound dir listing)) →
    (w.cut c q).2.disk = w.disk
  /-- The tags change exactly for a release that is tagged. -/
  changed_iff : tags (w.cut c q).2.repository ≠ tags w.repository ↔
    ∃ release, (w.cut c q).1 = .ok (.released release) ∧ release.tagged = true
  /-- A release is tagged exactly by a run that releases in full. -/
  tagged_iff : (∃ release, (w.cut c q).1 = .ok (.released release) ∧ release.tagged = true) ↔
    q.dryRun = false ∧ q.noTag = false ∧ ∃ release, (w.cut c q).1 = .ok (.released release)
  /-- When a release is tagged, all else is done. -/
  completed : ∀ release, (w.cut c q).1 = .ok (.released release) → release.tagged = true →
    w.Completes tags stands c q release

/-- A run that fails leaves the repository as it is. -/
private theorem repository_of_error {e : ReleaseError} (h : (w.cut c q).1 = .error e) :
    (w.cut c q).2.repository = w.repository := by
  rcases w.cut_cases c q with ⟨hsame, -⟩ | ⟨release, hrelease⟩
  · exact hsame
  · cases h.symm.trans hrelease.result

/-- A run that cannot decide or read its patterns leaves the files as they are. -/
private theorem disk_of_unprepared
    (h : (∃ e, Decision.make w.repository c q.branch q.date = .error e) ∨
      ∃ e, c.staging q.root = .error e) : (w.cut c q).2.disk = w.disk := by
  rcases h with ⟨e, hmake⟩ | ⟨e, hstaging⟩
  · simp [cut, hmake]
  · have hstage : ∀ p, w.stageAsset c q.root p = (.error e, w) := by
      intro p
      simp [stageAsset, hstaging]
    cases hmake : Decision.make w.repository c q.branch q.date with
    | error e' => simp [cut, hmake]
    | ok decision =>
      cases decision with
      | skip reason warnings => simp [cut, hmake]
      | release p =>
        cases hdry : q.dryRun <;> simp [cut, hmake, hdry, carryOut, hstage]

/-- A run that finds no artifact leaves the files as they are. -/
private theorem disk_of_notFound {dir : Path} {listing : Listing}
    (hfault : ∀ tag, Repository.createTag w.repository tag ≠ .error (.noArtifactFound dir listing))
    (h : (w.cut c q).1 = .error (.noArtifactFound dir listing)) :
    (w.cut c q).2.disk = w.disk := by
  have hcut : w.cut c q = (.error (.noArtifactFound dir listing), (w.cut c q).2) := Prod.ext h rfl
  rcases cut_eq_error hcut with ⟨-, hsame⟩ | ⟨p, -, hstage | ⟨cause, hcause⟩ | htag⟩
  · rw [hsame]
  · rw [stageAsset] at hstage
    split at hstage
    · exact congrArg Workspace.disk (Prod.ext_iff.1 hstage).2.symm
    · next s hs =>
      obtain ⟨hresult, hdisk⟩ := Prod.ext_iff.1 hstage
      have hdisk : (s.stage w.disk p.version).2 = (w.cut c q).2.disk :=
        congrArg Workspace.disk hdisk
      rw [← hdisk]
      exact Staging.eq_of_stage_eq_noArtifactFound (Prod.ext hresult rfl)
  · cases hcause
  · exact absurd htag (hfault p.tag)

/-- Where creating a tag adds it and does nothing else, a run tags last. -/
theorem tagsLast
    (hnew : ∀ tag r, Repository.createTag w.repository tag = .ok r → ∃ t,
      stands w.repository tag t ∧ t ∉ tags w.repository ∧ tags r = insert t (tags w.repository))
    (hfault : ∀ tag dir listing,
      Repository.createTag w.repository tag ≠ .error (.noArtifactFound dir listing)) :
    w.TagsLast tags stands c q where
  failed _ h := repository_of_error h
  idle := by
    rintro (⟨reason, warnings, hskip⟩ | hdry)
    · rw [cut_skipped hskip]
    · rw [(cut_dryRun hdry).1]
  early := by
    rintro (hmake | hstaging | ⟨dir, listing, h⟩)
    · exact disk_of_unprepared (.inl hmake)
    · exact disk_of_unprepared (.inr hstaging)
    · exact disk_of_notFound (hfault · dir listing) h
  changed_iff := by
    simp only [← tagsRelease_iff]
    constructor
    · intro hchanged
      rcases w.cut_cases c q with ⟨hsame, -⟩ | hrelease
      · exact absurd (congrArg tags hsame) hchanged
      · exact hrelease
    · rintro ⟨release, h⟩ hsame
      obtain ⟨t, -, hfresh, htags⟩ := hnew _ _ h.created
      rw [htags] at hsame
      exact hfresh (hsame ▸ Set.mem_insert t _)
  tagged_iff := by
    constructor
    · rintro ⟨release, hresult, htagged⟩
      have h := tagsRelease_iff.2 ⟨hresult, htagged⟩
      exact ⟨h.dryRun, h.steps.2.1, release, hresult⟩
    · rintro ⟨hdry, hno, release, hresult⟩
      obtain ⟨-, _, _, _, -, -, -, hrelease, -⟩ :=
        (cut_eq_released_iff hdry).1 (Prod.ext hresult rfl)
      refine ⟨release, hresult, ?_⟩
      rw [hrelease]
      simpa using hno
  completed release hresult htagged := by
    have h := tagsRelease_iff.2 ⟨hresult, htagged⟩
    obtain ⟨-, -, s, asset, d, hs, hstage, hasset, hwrite⟩ := h.steps
    exact ⟨hnew _ _ h.created, s, asset, d, hs, hstage, hasset, Changelog.tells_of_write hwrite⟩

end Workspace

/-! ### Two kinds of repositories -/

/-- The tags of a repository, as a set. -/
def GitRepository.tagSet (r : GitRepository) : Set (RefName × TagTarget) :=
  {t | t ∈ r.tags}

/-- A tag is what a name asks for: it stands on the commit checked out, and has the name itself
where that is tight. -/
def GitRepository.StandsFor (r : GitRepository) (asked : String) (t : RefName × TagTarget) : Prop :=
  ∃ head name, r.headCommit = .ok head ∧ r.newTagName asked = .ok name ∧
    (IsTight asked → name = asked) ∧ t = (.text name, .commit head)

/-- The names of all tags of a repository in memory. -/
def MemoryRepository.tagSet (r : MemoryRepository) : Set String :=
  {name | name ∈ r.tags.map Prod.fst ++ r.created}

namespace GitRepository

variable {r r' : GitRepository} {asked : String}

theorem tagSet_createTag (h : r.createTag asked = .ok r') :
    ∃ t, r.StandsFor asked t ∧ t ∉ r.tagSet ∧ r'.tagSet = insert t r.tagSet := by
  obtain ⟨head, name, hhead, hasked, hfree, htags, -, -⟩ := createTag_spec h
  refine ⟨(.text name, .commit head), ⟨head, name, hhead, newTagName_eq_ok_iff.2 ⟨hasked, hfree⟩,
    (askedName_spec hasked).2, rfl⟩, tag?_eq_none_iff.1 hfree _, ?_⟩
  ext t
  simp [tagSet, htags, or_comm]

theorem createTag_ne_noArtifactFound {dir : Path} {listing : Listing} :
    r.createTag asked ≠ .error (.noArtifactFound dir listing) := by
  intro h
  change Repository.createTag r asked = _ at h
  cases LawfulRepository.createTag h

end GitRepository

namespace MemoryRepository

variable {r r' : MemoryRepository} {name : String}

theorem tagSet_createTag (h : r.createTag name = .ok r') :
    name ∉ r.tagSet ∧ r'.tagSet = insert name r.tagSet := by
  obtain ⟨hfresh, rfl⟩ := createTag_eq_ok_iff.1 h
  refine ⟨hfresh, ?_⟩
  ext t
  simp [tagSet, or_comm, or_assoc]

end MemoryRepository

namespace Program

variable {s : Surroundings} {o : Options} {k : Checkout}

/-- The repository opened is the one that is there. -/
private theorem checkout_of_openRepository (h : openRepository s o = .ok k) :
    s.checkout = some k := by
  have hfound := Except.mapError_eq_ok_iff.1 (Except.mapError_eq_ok_iff.1 h)
  unfold Checkout.discover at hfound
  split at hfound
  · cases hfound
  · next hthere =>
    split at hfound
    · cases hfound
      exact hthere
    · cases hfound
  · cases hfound

/-- To ask for the notes alone changes nothing. -/
private theorem runWith_notesOnly (s : Surroundings) (hnotes : o.notesOnly = true) :
    (runWith s o).disk = s.disk ∧ (runWith s o).repository = s.checkout.map (·.repository) := by
  rw [runWith]
  split
  · exact ⟨rfl, rfl⟩
  · split
    · exact ⟨rfl, rfl⟩
    · next k hopen =>
      rw [release, if_pos hnotes, checkout_of_openRepository hopen]
      exact ⟨rfl, rfl⟩

end Program

namespace Workspace

/-- **Tagging comes last.** A run changes the tags only where it releases in full, after its
artifact was staged and its notes were written. It then adds the tag planned, on the commit checked
out. To ask for the notes alone changes nothing. -/
theorem cut_tags_last (c : Config) (q : Request) :
    (∀ w : Workspace GitRepository,
      w.TagsLast GitRepository.tagSet GitRepository.StandsFor c q) ∧
    (∀ w : Workspace MemoryRepository,
      w.TagsLast MemoryRepository.tagSet (fun _ asked t => t = asked) c q) ∧
    ∀ s arguments o, Options.parse arguments = .ok o → o.notesOnly = true →
      (Program.run s arguments).disk = s.disk ∧
        (Program.run s arguments).repository = s.checkout.map (·.repository) := by
  refine ⟨fun w => ?_, fun w => ?_, fun s arguments o hparse hnotes => ?_⟩
  · exact tagsLast (fun _ _ => GitRepository.tagSet_createTag)
      fun _ _ _ => GitRepository.createTag_ne_noArtifactFound
  · refine tagsLast (fun tag r hcreate => ?_) fun tag dir listing herror => ?_
    · exact ⟨tag, rfl, MemoryRepository.tagSet_createTag hcreate⟩
    · cases (MemoryRepository.mem_of_createTag_eq_error herror).2
  · rw [Program.run, hparse]
    exact Program.runWith_notesOnly s hnotes

private theorem tagSet_app : appWorkspace.repository.tagSet = ∅ := by
  have htags : appWorkspace.repository.tags = [] := rfl
  simp [GitRepository.tagSet, htags]

/-- The project where the branch beside it has the tag of a first release. -/
def refusedWorkspace : Workspace GitRepository where
  repository := appWorkspace.repository.setTag (.text "v1.0.0") (.commit 1)
  disk := projectDisk none

/-- A first release is due all the same. Its notes are written, and then its tag is refused. -/
private theorem exists_cut_refused : ∃ notes,
    (refusedWorkspace.cut (appConfig "v{version}") appRequest).1 =
      .error (.tag (.notCreated "v1.0.0" .tagExists)) ∧
    Changelog.readOld (refusedWorkspace.cut (appConfig "v{version}") appRequest).2.disk
      ⟨"/CHANGELOG.md"⟩ = .ok (some (Changelog.updated none notes)) := by
  have hf : (appConfig "v{version}").tagFormat = .ok ⟨⟨"v", ""⟩⟩ := by decide +kernel
  have hanswers : Decision.Answers refusedWorkspace.repository none ⟨⟨"v", ""⟩⟩ "main" none
      [⟨"c1", "✨ x"⟩] := ⟨rfl, by decide +kernel, by decide +kernel⟩
  let p := firstPlan "v{version}" ⟨⟨"v", ""⟩⟩ appRequest.date
  have hmake : Decision.make refusedWorkspace.repository (appConfig "v{version}")
      appRequest.branch appRequest.date = .ok (.release p) :=
    hanswers.make_eq_release hf (List.mem_singleton_self _) rfl
  have hcreate : Repository.createTag refusedWorkspace.repository p.tag =
      .error (.tag (.notCreated "v1.0.0" .tagExists)) := by
    have htext : p.tag = "v1.0.0" := by decide +kernel
    have hname : refusedWorkspace.repository.newTagName "v1.0.0" = .error .tagExists := by
      decide +kernel
    have hhead : refusedWorkspace.repository.headCommit = .ok 0 := rfl
    change refusedWorkspace.repository.createTag p.tag = _
    rw [htext, GitRepository.createTag, hhead]
    simp [hname, bind, Except.bind]
  obtain ⟨asset, d, d', hstage, hwrite, hheld⟩ :=
    exists_steps_project none p.version p.notes.render
  have hcut := Workspace.cut_eq_refused (w := refusedWorkspace) hmake rfl rfl staging_app hstage
    (changelog_app ▸ hwrite) hcreate
  rw [hcut]
  exact ⟨_, rfl, hheld.readOld⟩

/-- The first release has the only tag. Its artifact is staged before its notes are told. Where its
tag is refused, its notes are told, and no tag is added. The notes alone change nothing. -/
theorem cut_tags_first_release : ∃ release,
    (appWorkspace.cut (appConfig "v{version}") appRequest).1 = .ok (.released release) ∧
    (appWorkspace.cut (appConfig "v{version}") appRequest).2.repository.tagSet =
      {(.text "v1.0.0", .commit 0)} ∧
    (∃ s asset d, (appConfig "v{version}").staging ⟨"/"⟩ = .ok s ∧
      s.stage appWorkspace.disk release.plan.version = (.ok asset, d) ∧
      release.asset = some asset ∧
      Changelog.Tells d (appWorkspace.cut (appConfig "v{version}") appRequest).2.disk
        ⟨"/CHANGELOG.md"⟩ release.plan.notes.render) ∧
    (refusedWorkspace.cut (appConfig "v{version}") appRequest).1 =
      .error (.tag (.notCreated "v1.0.0" .tagExists)) ∧
    (∃ notes, Changelog.readOld (refusedWorkspace.cut (appConfig "v{version}") appRequest).2.disk
      ⟨"/CHANGELOG.md"⟩ = .ok (some (Changelog.updated none notes))) ∧
    (refusedWorkspace.cut (appConfig "v{version}") appRequest).2.repository.tagSet =
      {(.text "v1.0.0", .commit 1)} ∧
    (Program.run ⟨appWorkspace.disk, none, some ⟨appWorkspace.repository, [], false⟩,
      appRequest.date⟩ ["--notes-only"]).disk = appWorkspace.disk := by
  have hf : (appConfig "v{version}").tagFormat = .ok ⟨⟨"v", ""⟩⟩ := by decide +kernel
  obtain ⟨release, h, htag⟩ := exists_tagsRelease_app hf rfl
  have htext : (TagFormat.mk ⟨"v", ""⟩).write .initial = "v1.0.0" := by decide +kernel
  obtain ⟨hgit, -, hnotes⟩ := cut_tags_last (appConfig "v{version}") appRequest
  have hcompletes := (hgit appWorkspace).completed release h.result h.tagged
  obtain ⟨t, ⟨head, name, hhead, -, hname, rfl⟩, -, htags⟩ := hcompletes.added
  have hstaged := hcompletes.staged
  rw [show appRequest.root = ⟨"/"⟩ from rfl, changelog_app] at hstaged
  have hparse : Options.parse ["--notes-only"] = .ok ⟨none, none, none, false, false, true, 0⟩ := by
    decide +kernel
  obtain ⟨notes, hfailed, htold⟩ := exists_cut_refused
  refine ⟨release, h.result, ?_, hstaged, hfailed, ⟨notes, htold⟩, ?_,
    (hnotes _ _ _ hparse rfl).1⟩
  · have htight : IsTight release.plan.tag := by
      rw [htag, htext]
      decide
    obtain rfl : 0 = head := Except.ok.inj hhead
    rw [htags, tagSet_app, hname htight, htag, htext]
    exact insert_empty_eq _
  · rw [(hgit refusedWorkspace).failed _ hfailed]
    have htags : refusedWorkspace.repository.tags = [(.text "v1.0.0", .commit 1)] := rfl
    simp [GitRepository.tagSet, htags]

/-- A tag with two slashes in a row is called otherwise, so no tag has the name planned. -/
theorem tag_added_under_other_name : ∃ release,
    (appWorkspace.cut (appConfig "a//{version}") appRequest).1 = .ok (.released release) ∧
    release.tagged = true ∧ ∀ target, (.text release.plan.tag, target) ∉
      (appWorkspace.cut (appConfig "a//{version}") appRequest).2.repository.tagSet := by
  have hf : (appConfig "a//{version}").tagFormat = .ok ⟨⟨"a//", ""⟩⟩ := by decide +kernel
  obtain ⟨release, h, htag⟩ := exists_tagsRelease_app hf rfl
  refine ⟨release, h.result, h.tagged, fun target hmem => ?_⟩
  obtain ⟨t, ⟨head, name, -, hname, -, rfl⟩, -, htags⟩ :=
    GitRepository.tagSet_createTag h.created
  -- the tag is the new one, whose name is tight
  rw [htags, tagSet_app] at hmem
  obtain ⟨hsame, -⟩ : release.plan.tag = name ∧ target = _ := by simpa using hmem
  have htight := (GitRepository.askedName_spec (GitRepository.newTagName_eq_ok_iff.1 hname).1).1
  have hloose : ¬ IsTight ((TagFormat.mk ⟨"a//", ""⟩).write .initial) := by decide +kernel
  exact hloose (htag ▸ hsame ▸ htight)

end Workspace

end ReleaseCut
