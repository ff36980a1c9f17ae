import ReleaseCut.Proofs.Release.Layout
import ReleaseCut.Proofs.Release.Succession
import ReleaseCut.Proofs.Repository.CommitsSince

/-!
# A second run

Right after a release was tagged there is nothing to release (`Workspace.cut_again`). The new tag is
the latest one, since a plan goes beyond all releases that can be reached, and no commit is reached
from the head that is not reached from the tag there.

This takes a tag that the repository calls as it was written. Under another name it is not the tag
of any version, and a second run does not find it (`Workspace.cut_again_of_loose_tag`).
-/

namespace ReleaseCut

namespace GitRepository

variable {r r' : GitRepository} {c : Config} {asked : Option String} {date : Date} {p : Plan}

/-- After the tag of a plan nothing is planned. -/
theorem make_createTag (hmake : Decision.make r c asked date = .ok (.release p))
    (htight : IsTight p.tag) (h : r.createTag p.tag = .ok r') (date' : Date) :
    Decision.make r' c asked date' = .ok (.skip .noCommits [.noNewCommits p.tag]) := by
  obtain ⟨f, hp⟩ := Decision.planned_of_make hmake
  obtain ⟨branch, hbranch, ⟨-, hskip⟩ | ⟨hmem, -⟩⟩ := Decision.make_eq_ok_iff.1 hmake
  · cases hskip
  · have hbranch' : Decision.branchFor r' asked = .ok branch := by
      cases asked with
      | some name => exact hbranch
      | none => exact (currentBranch_createTag h).trans hbranch
    obtain ⟨head, hhead, hfollows⟩ := follows_of_planned hp
    have hlatest : Repository.latestTag r' f = .ok (some ⟨p.tag, p.version⟩) :=
      latestTag_createTag h htight hfollows.read hp.latest hhead hfollows.newer
    obtain ⟨head', -, hhead', -, -, -, -, hhead''⟩ := createTag_spec h
    obtain rfl : head' = head := Except.ok.inj (hhead'.symm.trans hhead)
    have hcommits : Repository.commitsSince r' (some p.tag) = .ok [] :=
      commitsSince_head hhead'' (tagCommit_self_createTag hhead h)
    exact Decision.make_eq_ok_iff.2
      ⟨branch, hbranch', .inr ⟨hmem, f, _, [], hp.format, hlatest, hcommits,
        Decision.ofCommits_eq_noCommits_iff.2 ⟨rfl, rfl⟩⟩⟩

end GitRepository

namespace Workspace

/-- **A second run has nothing to do.** After a release that was tagged, a run for the same branch
skips, since there are no commits after the tag, and changes nothing. This depends on the repository
calling the tag as it is written. -/
theorem cut_again {w : Workspace GitRepository} {c : Config} {q q' : Request} {release : Release}
    (hresult : (w.cut c q).1 = .ok (.released release)) (htagged : release.tagged = true)
    (htight : IsTight release.plan.tag) (hbranch : q'.branch = q.branch) :
    (w.cut c q).2.cut c q' =
      (.ok (.skipped .noCommits [.noNewCommits release.plan.tag]), (w.cut c q).2) := by
  have h := tagsRelease_iff.2 ⟨hresult, htagged⟩
  have hmake := GitRepository.make_createTag h.steps.1 htight h.created q'.date
  rw [← hbranch] at hmake
  exact cut_eq_skipped_iff.2 ⟨hmake, rfl⟩

/-- After the first release of a project there is nothing to do. -/
theorem cut_again_after_first_release :
    (appWorkspace.cut (appConfig "v{version}") appRequest).2.cut (appConfig "v{version}")
        appRequest =
      (.ok (.skipped .noCommits [.noNewCommits "v1.0.0"]),
        (appWorkspace.cut (appConfig "v{version}") appRequest).2) := by
  have hf : (appConfig "v{version}").tagFormat = .ok ⟨⟨"v", ""⟩⟩ := by decide +kernel
  obtain ⟨release, h, htag⟩ := exists_tagsRelease_app hf rfl
  have htext : (TagFormat.mk ⟨"v", ""⟩).write .initial = "v1.0.0" := by decide +kernel
  rw [htext] at htag
  have htight : IsTight release.plan.tag := by
    rw [htag]
    decide
  rw [← htag]
  exact cut_again h.result h.tagged htight rfl

/-- A tag with two slashes in a row is called otherwise, so that a second run does not find it. -/
theorem cut_again_of_loose_tag : ∃ release,
    (appWorkspace.cut (appConfig "a//{version}") appRequest).1 = .ok (.released release) ∧
    release.tagged = true ∧
    ((appWorkspace.cut (appConfig "a//{version}") appRequest).2.cut (appConfig "a//{version}")
      appRequest).1 ≠ .ok (.skipped .noCommits [.noNewCommits release.plan.tag]) := by
  have hf : (appConfig "a//{version}").tagFormat = .ok ⟨⟨"a//", ""⟩⟩ := by decide +kernel
  obtain ⟨release, h, htag⟩ := exists_tagsRelease_app hf rfl
  refine ⟨release, h.result, h.tagged, fun hskip => ?_⟩
  have hcreated := h.created
  rw [htag] at hcreated
  -- no tag is recognised after the run
  have hloose : ¬ IsTight ((TagFormat.mk ⟨"a//", ""⟩).write .initial) := by decide +kernel
  obtain ⟨_, -, hreleases⟩ := GitRepository.releases_createTag hcreated
  rw [if_neg hloose, List.append_nil] at hreleases
  obtain ⟨hmake, -⟩ := cut_eq_skipped_iff.1 (Prod.ext hskip rfl)
  obtain ⟨branch, -, ⟨-, hother⟩ | ⟨-, f, previous, infos, hformat, hlatest, -, hdecision⟩⟩ :=
    Decision.make_eq_ok_iff.1 hmake
  · cases hother
  · cases hf.symm.trans hformat
    obtain rfl := GitRepository.latestTag_eq_none hlatest (hreleases.trans rfl)
    -- so there would be the warning of a first release
    cases (Decision.ofCommits_eq_noCommits_iff.1 hdecision).2

end Workspace

end ReleaseCut
