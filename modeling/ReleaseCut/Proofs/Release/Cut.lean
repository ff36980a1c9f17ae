import ReleaseCut.Proofs.Changelog.Write
import ReleaseCut.Proofs.Release.Decision
import ReleaseCut.Release.Cut

/-!
# What a run does

* `Workspace.Goes` lists the ways in which a run goes, with `CarriesOut` for its steps. It is what
  `cut` does (`cut_eq_iff`), and all else about runs is read off it.
* `Workspace.TagsRelease` says that a run made a release with its tag, which then took all steps
  (`TagsRelease.steps`). Every other run leaves the repository alone (`cut_cases`).
* A run that does not only plan makes a release exactly if one is due and all steps succeed
  (`cut_eq_released_iff`), and fails where one of them does (`cut_eq_error`). A run that skips or
  only plans changes nothing (`cut_skipped`, `cut_dryRun`).
-/

namespace ReleaseCut

variable {ρ : Type} [Repository ρ]

/-! ### Runs -/

namespace Workspace

variable {w w' : Workspace ρ} {c : Config} {q : Request} {p : Plan}

/-- The ways in which a plan is carried out, step by step. -/
inductive CarriesOut (w : Workspace ρ) (c : Config) (q : Request) (p : Plan) :
    Except ReleaseError Release × Workspace ρ → Prop
  /-- The artifact cannot be staged. -/
  | unstaged {e : ReleaseError} {w' : Workspace ρ}
      (hstage : w.stageAsset c q.root p = (.error e, w')) : CarriesOut w c q p (.error e, w')
  /-- The notes cannot be written. -/
  | unwritten {asset : Asset} {e : ReleaseError} {w₁ w' : Workspace ρ}
      (hstage : w.stageAsset c q.root p = (.ok asset, w₁))
      (hwrite : w₁.writeNotes (q.root.join c.changelogFile) p = (.error e, w')) :
      CarriesOut w c q p (.error e, w')
  /-- No tag is asked for. -/
  | untagged {asset : Asset} {w₁ w' : Workspace ρ}
      (hstage : w.stageAsset c q.root p = (.ok asset, w₁))
      (hwrite : w₁.writeNotes (q.root.join c.changelogFile) p = (.ok (), w'))
      (hno : q.noTag = true) :
      CarriesOut w c q p (.ok ⟨p, some asset, some (q.root.join c.changelogFile), false⟩, w')
  /-- The tag cannot be created. -/
  | refused {asset : Asset} {e : ReleaseError} {w₁ w₂ w' : Workspace ρ}
      (hstage : w.stageAsset c q.root p = (.ok asset, w₁))
      (hwrite : w₁.writeNotes (q.root.join c.changelogFile) p = (.ok (), w₂))
      (hno : q.noTag = false) (htag : w₂.tagRelease p = (.error e, w')) :
      CarriesOut w c q p (.error e, w')
  /-- All steps succeed. -/
  | tagged {asset : Asset} {w₁ w₂ w' : Workspace ρ}
      (hstage : w.stageAsset c q.root p = (.ok asset, w₁))
      (hwrite : w₁.writeNotes (q.root.join c.changelogFile) p = (.ok (), w₂))
      (hno : q.noTag = false) (htag : w₂.tagRelease p = (.ok (), w')) :
      CarriesOut w c q p (.ok ⟨p, some asset, some (q.root.join c.changelogFile), true⟩, w')

private theorem carryOut_eq_iff {result : Except ReleaseError Release × Workspace ρ} :
    w.carryOut c q p = result ↔ w.CarriesOut c q p result := by
  constructor
  · rintro rfl
    rw [carryOut]
    split
    · next hstage => exact .unstaged hstage
    · next hstage =>
      split
      · next hwrite => exact .unwritten hstage hwrite
      · next hwrite =>
        dsimp only
        split
        · next hno =>
          rw [hno]
          exact .untagged hstage hwrite hno
        · next hno =>
          have hno := eq_false_of_ne_true hno
          rw [hno]
          split
          · next htag => exact .refused hstage hwrite hno htag
          · next htag => exact .tagged hstage hwrite hno htag
  · intro h
    cases h <;> simp [carryOut, *]

/-- The ways in which a run goes. -/
inductive Goes (w : Workspace ρ) (c : Config) (q : Request) :
    Except ReleaseError Outcome × Workspace ρ → Prop
  /-- Nothing is decided. -/
  | undecided {e : ReleaseError}
      (hmake : Decision.make w.repository c q.branch q.date = .error e) : Goes w c q (.error e, w)
  /-- No release is warranted. -/
  | skipped {reason : SkipReason} {warnings : List Warning}
      (hmake : Decision.make w.repository c q.branch q.date = .ok (.skip reason warnings)) :
      Goes w c q (.ok (.skipped reason warnings), w)
  /-- The release is only planned. -/
  | planned {p : Plan} (hmake : Decision.make w.repository c q.branch q.date = .ok (.release p))
      (hdry : q.dryRun = true) : Goes w c q (.ok (.released ⟨p, none, none, false⟩), w)
  /-- The plan cannot be carried out. -/
  | failed {p : Plan} {e : ReleaseError} {w' : Workspace ρ}
      (hmake : Decision.make w.repository c q.branch q.date = .ok (.release p))
      (hdry : q.dryRun = false) (hcarry : w.CarriesOut c q p (.error e, w')) :
      Goes w c q (.error e, w')
  /-- The release is made. -/
  | released {p : Plan} {release : Release} {w' : Workspace ρ}
      (hmake : Decision.make w.repository c q.branch q.date = .ok (.release p))
      (hdry : q.dryRun = false) (hcarry : w.CarriesOut c q p (.ok release, w')) :
      Goes w c q (.ok (.released release), w')

/-- A run goes one of these ways, and each of them is a run. -/
theorem cut_eq_iff {result : Except ReleaseError Outcome × Workspace ρ} :
    w.cut c q = result ↔ w.Goes c q result := by
  constructor
  · rintro rfl
    rw [cut]
    split
    · next hmake => exact .undecided hmake
    · next hmake => exact .skipped hmake
    · next p hmake =>
      split
      · next hdry => exact .planned hmake hdry
      · next hdry =>
        have hdry := eq_false_of_ne_true hdry
        cases hcarry : w.carryOut c q p with
        | mk result w' =>
          cases result with
          | error e => exact .failed hmake hdry (carryOut_eq_iff.1 hcarry)
          | ok release => exact .released hmake hdry (carryOut_eq_iff.1 hcarry)
  · intro h
    cases h with
    | undecided hmake => simp [cut, hmake]
    | skipped hmake => simp [cut, hmake]
    | planned hmake hdry => simp [cut, hmake, hdry]
    | failed hmake hdry hcarry =>
      simp [cut, hmake, hdry, carryOut_eq_iff.2 hcarry, Except.map]
    | released hmake hdry hcarry =>
      simp [cut, hmake, hdry, carryOut_eq_iff.2 hcarry, Except.map]

theorem goes (w : Workspace ρ) (c : Config) (q : Request) : w.Goes c q (w.cut c q) :=
  cut_eq_iff.1 rfl

/-! ### The repository -/

/-- A run made a release with its tag. -/
structure TagsRelease (w : Workspace ρ) (c : Config) (q : Request) (release : Release) : Prop where
  /-- The release is what the run gave. -/
  result : (w.cut c q).1 = .ok (.released release)
  /-- The tag was created. -/
  tagged : release.tagged = true
  /-- The plan was made for the repository as it was. -/
  planned : ∃ f, Decision.Planned w.repository c f q.date release.plan
  /-- The tag is all that changed in the repository. -/
  created : Repository.createTag w.repository release.plan.tag = .ok (w.cut c q).2.repository

omit [Repository ρ] in
private theorem repository_of_stageAsset {root : Path} {result : Except ReleaseError Asset}
    (h : w.stageAsset c root p = (result, w')) : w'.repository = w.repository := by
  rw [stageAsset] at h
  split at h <;> cases h <;> rfl

omit [Repository ρ] in
private theorem repository_of_writeNotes {changelog : Path} {result : Except ReleaseError Unit}
    (h : w.writeNotes changelog p = (result, w')) : w'.repository = w.repository := by
  cases h
  rfl

private theorem tagRelease_eq_ok_iff : w.tagRelease p = (.ok (), w') ↔
    Repository.createTag w.repository p.tag = .ok w'.repository ∧ w'.disk = w.disk := by
  obtain ⟨r, d⟩ := w'
  rw [tagRelease]
  cases Repository.createTag w.repository p.tag with
  | error e => simp
  | ok r' => simp [eq_comm]

private theorem tagRelease_eq_error_iff {e : ReleaseError} : w.tagRelease p = (.error e, w') ↔
    Repository.createTag w.repository p.tag = .error e ∧ w' = w := by
  rw [tagRelease]
  cases Repository.createTag w.repository p.tag with
  | error e => simp [eq_comm]
  | ok r' => simp

/-- Carrying out a plan leaves the repository alone, except for the tag it creates at the end. -/
private theorem CarriesOut.repository {result : Except ReleaseError Release}
    (h : w.CarriesOut c q p (result, w')) :
    (w'.repository = w.repository ∧ ∀ release, result = .ok release → release.tagged = false) ∨
    ∃ release, result = .ok release ∧ release.plan = p ∧ release.tagged = true ∧
      Repository.createTag w.repository p.tag = .ok w'.repository := by
  cases h with
  | unstaged hstage => exact .inl ⟨repository_of_stageAsset hstage, by simp⟩
  | unwritten hstage hwrite =>
    exact .inl ⟨(repository_of_writeNotes hwrite).trans (repository_of_stageAsset hstage), by simp⟩
  | untagged hstage hwrite _ =>
    refine .inl ⟨(repository_of_writeNotes hwrite).trans (repository_of_stageAsset hstage), ?_⟩
    rintro _ ⟨⟩
    rfl
  | refused hstage hwrite _ htag =>
    obtain ⟨-, rfl⟩ := tagRelease_eq_error_iff.1 htag
    exact .inl ⟨(repository_of_writeNotes hwrite).trans (repository_of_stageAsset hstage), by simp⟩
  | tagged hstage hwrite _ htag =>
    obtain ⟨hcreate, -⟩ := tagRelease_eq_ok_iff.1 htag
    rw [repository_of_writeNotes hwrite, repository_of_stageAsset hstage] at hcreate
    exact .inr ⟨_, rfl, rfl, rfl, hcreate⟩

/-- A run creates the tag of its release or leaves the repository alone. -/
theorem cut_cases (w : Workspace ρ) (c : Config) (q : Request) :
    ((w.cut c q).2.repository = w.repository ∧
      ∀ release, (w.cut c q).1 = .ok (.released release) → release.tagged = false) ∨
    ∃ release, w.TagsRelease c q release := by
  have hgoes := w.goes c q
  generalize hcut : w.cut c q = outcome at hgoes ⊢
  cases hgoes with
  | undecided _ => exact .inl ⟨rfl, by simp⟩
  | skipped _ => exact .inl ⟨rfl, by simp⟩
  | planned _ _ =>
    refine .inl ⟨rfl, ?_⟩
    rintro _ ⟨⟩
    rfl
  | failed _ _ hcarry =>
    rcases hcarry.repository with ⟨hsame, -⟩ | ⟨_, ⟨⟩, -⟩
    exact .inl ⟨hsame, by simp⟩
  | released hmake _ hcarry =>
    rcases hcarry.repository with ⟨hsame, huntagged⟩ | ⟨_, ⟨⟩, rfl, htagged, hcreated⟩
    · refine .inl ⟨hsame, ?_⟩
      rintro _ ⟨⟩
      exact huntagged _ rfl
    · exact .inr ⟨_, by rw [hcut], htagged, Decision.planned_of_make hmake, by rwa [hcut]⟩

/-- A release that is called tagged is. -/
theorem tagsRelease_iff {release : Release} : w.TagsRelease c q release ↔
    (w.cut c q).1 = .ok (.released release) ∧ release.tagged = true := by
  constructor
  · exact fun h => ⟨h.result, h.tagged⟩
  · rintro ⟨hresult, htagged⟩
    rcases w.cut_cases c q with ⟨-, huntagged⟩ | ⟨release', h⟩
    · rw [huntagged release hresult] at htagged
      cases htagged
    · cases h.result.symm.trans hresult
      exact h

/-! ### Files -/

omit [Repository ρ] in
private theorem stageAsset_eq_ok_iff {root : Path} {asset : Asset} :
    w.stageAsset c root p = (.ok asset, w') ↔ ∃ s, c.staging root = .ok s ∧
      s.stage w.disk p.version = (.ok asset, w'.disk) ∧ w'.repository = w.repository := by
  obtain ⟨r, d⟩ := w'
  rw [stageAsset]
  cases c.staging root with
  | error e => simp
  | ok s => simp [Prod.ext_iff, eq_comm, and_comm, and_assoc]

omit [Repository ρ] in
private theorem writeNotes_eq_ok_iff {changelog : Path} : w.writeNotes changelog p = (.ok (), w') ↔
    Changelog.write w.disk changelog p.notes.render = (.ok (), w'.disk) ∧
      w'.repository = w.repository := by
  obtain ⟨r, d⟩ := w'
  simp [writeNotes, Prod.ext_iff, eq_comm, and_comm, and_assoc]

/-- A plan is carried out if each of its steps succeeds. -/
private theorem carriesOut_ok_iff {release : Release} : w.CarriesOut c q p (.ok release, w') ↔
    ∃ s asset d, c.staging q.root = .ok s ∧ s.stage w.disk p.version = (.ok asset, d) ∧
      Changelog.write d (q.root.join c.changelogFile) p.notes.render = (.ok (), w'.disk) ∧
      release = ⟨p, some asset, some (q.root.join c.changelogFile), !q.noTag⟩ ∧
      if q.noTag then w'.repository = w.repository
      else Repository.createTag w.repository p.tag = .ok w'.repository := by
  constructor
  · rintro (_ | _ | @⟨asset, w₁, _, hstage, hwrite, hno⟩ | _ |
      @⟨asset, w₁, w₂, _, hstage, hwrite, hno, htag⟩)
    all_goals
      obtain ⟨s, hs, hstage, hkept₁⟩ := stageAsset_eq_ok_iff.1 hstage
      obtain ⟨hwrite, hkept₂⟩ := writeNotes_eq_ok_iff.1 hwrite
      rw [← hkept₁, ← hkept₂]
    · exact ⟨s, asset, w₁.disk, hs, hstage, hwrite, by simp [hno]⟩
    · obtain ⟨hcreate, hdisk⟩ := tagRelease_eq_ok_iff.1 htag
      exact ⟨s, asset, w₁.disk, hs, hstage, by rwa [hdisk], by simp [hno, hcreate]⟩
  · obtain ⟨r, d'⟩ := w'
    rintro ⟨s, asset, d, hs, hstage, hwrite, rfl, hcreate⟩
    -- the workspace after each step
    have hstaged : w.stageAsset c q.root p = (.ok asset, ⟨w.repository, d⟩) :=
      stageAsset_eq_ok_iff.2 ⟨s, hs, hstage, rfl⟩
    have hwritten : writeNotes ⟨w.repository, d⟩ (q.root.join c.changelogFile) p =
        (.ok (), ⟨w.repository, d'⟩) := writeNotes_eq_ok_iff.2 ⟨hwrite, rfl⟩
    cases hno : q.noTag with
    | true =>
      rw [hno, if_pos rfl] at hcreate
      cases hcreate
      exact .untagged hstaged hwritten hno
    | false =>
      rw [hno, if_neg Bool.false_ne_true] at hcreate
      exact .tagged hstaged hwritten hno (tagRelease_eq_ok_iff.2 ⟨hcreate, rfl⟩)

/-- A run makes a release, and not only plans it, exactly if one is due and all its steps succeed.
-/
theorem cut_eq_released_iff {release : Release} (hdry : q.dryRun = false) :
    w.cut c q = (.ok (.released release), w') ↔
      Decision.make w.repository c q.branch q.date = .ok (.release release.plan) ∧
      ∃ s asset d, c.staging q.root = .ok s ∧ s.stage w.disk release.plan.version = (.ok asset, d) ∧
        Changelog.write d (q.root.join c.changelogFile) release.plan.notes.render =
          (.ok (), w'.disk) ∧
        release = ⟨release.plan, some asset, some (q.root.join c.changelogFile), !q.noTag⟩ ∧
        if q.noTag then w'.repository = w.repository
        else Repository.createTag w.repository release.plan.tag = .ok w'.repository := by
  rw [← carriesOut_ok_iff, cut_eq_iff]
  constructor
  · intro h
    cases h with
    | planned _ hplan => cases hdry.symm.trans hplan
    | released hmake _ hcarry =>
      obtain ⟨_, _, _, -, -, -, hrelease, -⟩ := carriesOut_ok_iff.1 hcarry
      -- what is carried out is the plan that was made
      obtain rfl := congrArg Release.plan hrelease
      exact ⟨hmake, hcarry⟩
  · exact fun ⟨hmake, hcarry⟩ => .released hmake hdry hcarry

/-- A run whose tag is refused fails after the other steps. -/
theorem cut_eq_refused {s : Staging} {asset : Asset} {d d' : Disk} {e : ReleaseError}
    (hmake : Decision.make w.repository c q.branch q.date = .ok (.release p))
    (hdry : q.dryRun = false) (hno : q.noTag = false) (hs : c.staging q.root = .ok s)
    (hstage : s.stage w.disk p.version = (.ok asset, d))
    (hwrite : Changelog.write d (q.root.join c.changelogFile) p.notes.render = (.ok (), d'))
    (hcreate : Repository.createTag w.repository p.tag = .error e) :
    w.cut c q = (.error e, ⟨w.repository, d'⟩) := by
  have hstaged : w.stageAsset c q.root p = (.ok asset, ⟨w.repository, d⟩) :=
    stageAsset_eq_ok_iff.2 ⟨s, hs, hstage, rfl⟩
  have hwritten : writeNotes ⟨w.repository, d⟩ (q.root.join c.changelogFile) p =
      (.ok (), ⟨w.repository, d'⟩) := writeNotes_eq_ok_iff.2 ⟨hwrite, rfl⟩
  have hrefused : tagRelease ⟨w.repository, d'⟩ p = (.error e, ⟨w.repository, d'⟩) :=
    tagRelease_eq_error_iff.2 ⟨hcreate, rfl⟩
  exact cut_eq_iff.2 (.failed hmake hdry (.refused hstaged hwritten hno hrefused))

/-- A run fails where its decision or one of its steps does. -/
theorem cut_eq_error {e : ReleaseError} (h : w.cut c q = (.error e, w')) :
    Decision.make w.repository c q.branch q.date = .error e ∧ w' = w ∨
    ∃ p, Decision.make w.repository c q.branch q.date = .ok (.release p) ∧
      (w.stageAsset c q.root p = (.error e, w') ∨ (∃ cause, e = .changelog cause) ∨
        Repository.createTag w.repository p.tag = .error e) := by
  cases cut_eq_iff.1 h with
  | undecided hmake => exact .inl ⟨hmake, rfl⟩
  | failed hmake _ hcarry =>
    refine .inr ⟨_, hmake, ?_⟩
    cases hcarry with
    | unstaged hstage => exact .inl hstage
    | unwritten _ hwrite =>
      have hresult := congrArg Prod.fst hwrite
      exact .inr (.inl (Changelog.write_eq_error (Prod.ext hresult rfl)).1)
    | refused hstage hwrite _ htag =>
      obtain ⟨hcreate, -⟩ := tagRelease_eq_error_iff.1 htag
      rw [repository_of_writeNotes hwrite, repository_of_stageAsset hstage] at hcreate
      exact .inr (.inr hcreate)

/-- A run that only plans changes nothing and tags nothing. -/
theorem cut_dryRun (hdry : q.dryRun = true) : (w.cut c q).2 = w ∧
    ∀ release, (w.cut c q).1 = .ok (.released release) → release.tagged = false := by
  have hgoes := w.goes c q
  generalize w.cut c q = outcome at hgoes ⊢
  cases hgoes with
  | undecided _ => simp
  | skipped _ => simp
  | planned _ _ =>
    refine ⟨rfl, ?_⟩
    rintro _ ⟨⟩
    rfl
  | failed _ hfull _ => cases hdry.symm.trans hfull
  | released _ hfull _ => cases hdry.symm.trans hfull

namespace TagsRelease

variable {release : Release} (h : w.TagsRelease c q release)

include h

theorem dryRun : q.dryRun = false := by
  cases hdry : q.dryRun with
  | false => rfl
  | true =>
    have huntagged := (cut_dryRun hdry).2 release h.result
    rw [h.tagged] at huntagged
    cases huntagged

/-- The steps by which a release was tagged. -/
theorem steps : Decision.make w.repository c q.branch q.date = .ok (.release release.plan) ∧
    q.noTag = false ∧ ∃ s asset d, c.staging q.root = .ok s ∧
      s.stage w.disk release.plan.version = (.ok asset, d) ∧ release.asset = some asset ∧
      Changelog.write d (q.root.join c.changelogFile) release.plan.notes.render =
        (.ok (), (w.cut c q).2.disk) := by
  obtain ⟨hmake, s, asset, d, hs, hstage, hwrite, hrelease, -⟩ :=
    (cut_eq_released_iff h.dryRun).1 (Prod.ext h.result rfl)
  have htagged := h.tagged
  rw [hrelease] at htagged
  exact ⟨hmake, by simpa using htagged, s, asset, d, hs, hstage,
    congrArg Release.asset hrelease, hwrite⟩

end TagsRelease

/-- A run skips exactly if this was decided. -/
theorem cut_eq_skipped_iff {reason : SkipReason} {warnings : List Warning} :
    w.cut c q = (.ok (.skipped reason warnings), w') ↔
      Decision.make w.repository c q.branch q.date = .ok (.skip reason warnings) ∧ w' = w := by
  rw [cut_eq_iff]
  constructor
  · rintro ⟨⟩
    exact ⟨‹_›, rfl⟩
  · rintro ⟨hmake, rfl⟩
    exact .skipped hmake

/-- A run that skips changes nothing. -/
theorem cut_skipped {reason : SkipReason} {warnings : List Warning}
    (h : (w.cut c q).1 = .ok (.skipped reason warnings)) : (w.cut c q).2 = w :=
  (cut_eq_skipped_iff.1 (Prod.ext h rfl)).2

end Workspace

end ReleaseCut
