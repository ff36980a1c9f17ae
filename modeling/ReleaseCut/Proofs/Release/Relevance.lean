import ReleaseCut.Proofs.Release.Decision
import ReleaseCut.Proofs.Repository.CommitsSince
import ReleaseCut.Proofs.Repository.LatestTag
import ReleaseCut.Proofs.Repository.TagOrder

/-!
# Tags that have no say

A tag has no say in a release if the format does not recognise it, or if its commit cannot be
reached from the one checked out (`GitRepository.HasNoSay`). Adding it changes no decision and no
error (`Decision.make_of_adds`), however high its version is and wherever it is listed.

The search for the latest release passes over such a tag, and treats the others as before and in the
same order. What it finds is one of those, so the walk starts from the same commit.
-/

namespace ReleaseCut

namespace GitRepository

variable {r r' : GitRepository} {f : TagFormat} {name : RefName} {target : TagTarget} {head : Nat}
  {reachable : List Nat} {latest : Option ReleaseTag} {text : String}

/-- The format does not recognise a tag, or the tag stands on a commit that cannot be reached from
the one checked out. -/
def HasNoSay (r : GitRepository) (f : TagFormat) (name : RefName) (target : TagTarget) : Prop :=
  (∀ text, name = .text text → f.read? text = none) ∨
  ∃ i, target = .commit i ∧ ∀ head, r.headCommit = .ok head → ¬ r.history.Reaches head i

/-- A tag that was there is considered as before. -/
private theorem considerTag_eq (h : r.Adds name target r') (hwell : r'.IsWellNamed)
    (hmem : text ∈ r.tagNames) :
    r'.considerTag f reachable latest text = r.considerTag f reachable latest text := by
  rw [considerTag, considerTag]
  split
  · rfl
  · rw [h.tagCommit_eq hwell hmem]

/-- A tag that has no say is passed over. -/
private theorem considerTag_of_hasNoSay (h : r.Adds (.text text) target r')
    (hwell : r'.IsWellNamed) (hsay : r.HasNoSay f (.text text) target)
    (hhead : r.headCommit = .ok head) :
    r'.considerTag f (r.history.reachable head) latest text = .ok latest := by
  rcases hsay with hread | ⟨i, rfl, hunreached⟩
  · rw [considerTag, ReleaseTag.read?, hread text rfl]
    rfl
  · have htag : (RefName.text text, .commit i) ∈ r'.tags := h.mem_tags_iff.2 (.inl rfl)
    have hcommit : r'.tagCommit text = .ok i :=
      tagCommit_eq_ok_iff.2 ⟨text, hwell text (mem_tagNames.2 ⟨_, htag⟩), tag?_eq_some_iff.2 htag⟩
    have hlist : i ∉ r.history.reachable head :=
      fun hi => hunreached head hhead (History.mem_reachable.1 hi).2
    rw [considerTag]
    split
    · rfl
    · simp [hcommit, hlist, bind, Except.bind, pure, Except.pure]

/-- Of some names, a tag that has no say can be left out. -/
private theorem foldlM_considerTag_eq (h : r.Adds name target r') (hwell : r'.IsWellNamed)
    (hsay : r.HasNoSay f name target) (hhead : r.headCommit = .ok head) {names : List String}
    (hnames : ∀ text ∈ names, RefName.text text ≠ name → text ∈ r.tagNames)
    (latest : Option ReleaseTag) :
    names.foldlM (r'.considerTag f (r.history.reachable head)) latest =
      (names.filter (RefName.text · != name)).foldlM
        (r.considerTag f (r.history.reachable head)) latest := by
  induction names generalizing latest with
  | nil => rfl
  | cons text names ih =>
    rw [List.forall_mem_cons] at hnames
    by_cases hname : RefName.text text = name
    · subst hname
      rw [List.foldlM_cons, considerTag_of_hasNoSay h hwell hsay hhead,
        List.filter_cons_of_neg (by simp)]
      exact ih hnames.2 latest
    · rw [List.foldlM_cons, considerTag_eq h hwell (hnames.1 hname),
        List.filter_cons_of_pos (by simpa using hname), List.foldlM_cons]
      exact bind_congr (ih hnames.2)

/-- The latest release is the same, and so is the error if there is one. -/
theorem Adds.latestTag_eq (h : r.Adds name target r') (hwell : r'.IsWellNamed)
    (hsay : r.HasNoSay f name target) : r'.latestTag f = r.latestTag f := by
  rw [latestTag, latestTag, h.headCommit_eq, h.history]
  cases hhead : r.headCommit with
  | error e => rfl
  | ok head =>
    have hnames : ∀ text ∈ r'.tagNames, RefName.text text ≠ name → text ∈ r.tagNames := by
      intro text hmem hne
      rw [h.tagNames_eq]
      exact List.mem_filter.2 ⟨hmem, by simpa using hne⟩
    simp only [bind, Except.bind]
    rw [foldlM_considerTag_eq h hwell hsay hhead hnames, ← h.tagNames_eq]

/-- The commits since a tag that was there are the same. -/
theorem Adds.commitsSince_eq (h : r.Adds name target r') (hwell : r'.IsWellNamed)
    {tag : Option String} (hmem : ∀ text ∈ tag, text ∈ r.tagNames) :
    r'.commitsSince tag = r.commitsSince tag := by
  have hbase : tag.mapM r'.tagCommit = tag.mapM r.tagCommit := by
    cases tag with
    | none => rfl
    | some text =>
      rw [Option.mapM_some, Option.mapM_some, h.tagCommit_eq hwell (hmem text rfl)]
  have hinfos : r'.infos = r.infos := by
    funext is
    rw [infos, infos, h.history]
  rw [commitsSince, commitsSince, h.headCommit_eq, hbase, h.history, hinfos]

end GitRepository

namespace Decision

open GitRepository in
/-- **A tag without a say changes nothing.** If a repository has one more tag than another one, and
the configured format does not recognise it or its commit cannot be reached, then both are decided
alike, with the same plan, skip or error. -/
theorem make_of_adds {r r' : GitRepository} {name : RefName} {target : TagTarget} {c : Config}
    (h : r.Adds name target r') (hwell : r'.IsWellNamed)
    (hsay : ∀ f, c.tagFormat = .ok f → r.HasNoSay f name target) (asked : Option String)
    (date : Date) : make r' c asked date = make r c asked date := by
  refine (make_congr_of_format ?_ (fun f hf => ?_) fun f previous hf hprevious => ?_).symm
  · cases asked with
    | some branch => rfl
    | none => exact h.currentBranch_eq.symm
  · exact (h.latestTag_eq hwell (hsay f hf)).symm
  · -- the previous release is one of the tags that were there
    obtain ⟨head, -, hreachable, -⟩ := latestTag_spec hprevious
    refine (h.commitsSince_eq hwell fun text htext => ?_).symm
    obtain ⟨t, ht, rfl⟩ := Option.map_eq_some_iff.1 htext
    exact (hreachable t ht).mem_tagNames

/-- A project with a correction after its first release, and a commit beside it. -/
def forkedRepository : GitRepository :=
  let start := (GitRepository.empty (.text "main")).commit "c0" "✨ start".toUTF8 []
  ((start.setTag (.text "v1.0.0") (.commit 0)).commit "c1" "🐛 main".toUTF8 []).addCommit
    "c2" "💥 side".toUTF8 [0]

/-- The same project with a release of the commit beside it. -/
def sideReleased : GitRepository :=
  forkedRepository.setTag (.text "v9.0.0") (.commit 2)

private theorem tags_forkedRepository :
    forkedRepository.tags = [(.text "v1.0.0", .commit 0)] := rfl

private theorem answers_forkedRepository : Answers forkedRepository none ⟨⟨"v", ""⟩⟩ "main"
    (some ⟨"v1.0.0", .release 1 0 0⟩) [⟨"c1", "🐛 main"⟩] where
  branch := rfl
  latest := by
    have hnames : forkedRepository.tagNames = ["v1.0.0"] := by
      simp [GitRepository.tagNames, tags_forkedRepository, RefName.text?]
    have hhead : forkedRepository.headCommit = .ok 1 := rfl
    have hconsider : forkedRepository.considerTag ⟨⟨"v", ""⟩⟩
        (forkedRepository.history.reachable 1) none "v1.0.0" =
          .ok (some ⟨"v1.0.0", .release 1 0 0⟩) := by
      decide +kernel
    change forkedRepository.latestTag _ = _
    rw [GitRepository.latestTag, hnames, hhead, Except.bind_eq_ok_iff]
    exact ⟨1, rfl, by simp [hconsider]⟩
  commits := by decide +kernel

/-- The release of the commit beside has a higher version and cannot be reached. The correction is
released as before. -/
theorem make_of_side_release : ∃ date p,
    make forkedRepository Config.standard none date = .ok (.release p) ∧
    p.version = .release 1 0 1 ∧
    make sideReleased Config.standard none date = .ok (.release p) := by
  have date : Date := ⟨2024, 1, 1, by decide, by decide, by decide, by decide⟩
  have hadds : forkedRepository.Adds (.text "v9.0.0") (.commit 2) sideReleased :=
    GitRepository.adds_setTag rfl (by simp [tags_forkedRepository])
  have hwell : sideReleased.IsWellNamed := by
    intro text htext
    obtain ⟨target, hmem⟩ := GitRepository.mem_tagNames.1 htext
    have htags : text = "v9.0.0" ∧ target = .commit 2 ∨ text = "v1.0.0" ∧ target = .commit 0 := by
      simpa [hadds.mem_tags_iff, tags_forkedRepository] using hmem
    rcases htags with ⟨rfl, -⟩ | ⟨rfl, -⟩ <;> decide +kernel
  have hsay : ∀ f, Config.standard.tagFormat = .ok f →
      forkedRepository.HasNoSay f (.text "v9.0.0") (.commit 2) := by
    intro f _
    refine .inr ⟨2, rfl, fun head hhead hreaches => ?_⟩
    -- the commit beside is younger than the one checked out
    obtain rfl : 1 = head := Except.ok.inj hhead
    exact absurd hreaches.le (by decide)
  have hnext : (Commit.largestBump [CommitInfo.toCommit ⟨"c1", "🐛 main"⟩]).next?
      (some (.release 1 0 0)) = .ok (some (.release 1 0 1)) := by
    decide +kernel
  obtain ⟨p, hmake, hversion⟩ : ∃ p, make forkedRepository Config.standard none date =
      .ok (.release p) ∧ p.version = .release 1 0 1 := by
    rw [answers_forkedRepository.make_eq Config.tagFormat_standard Config.main_mem_standard]
    exact ⟨_, ofCommits_eq_release_iff.2 ⟨_, hnext, rfl⟩, rfl⟩
  exact ⟨date, p, hmake, hversion, by rw [make_of_adds hadds hwell hsay, hmake]⟩

end Decision

end ReleaseCut
