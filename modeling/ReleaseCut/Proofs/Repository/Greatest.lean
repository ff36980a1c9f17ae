import ReleaseCut.Proofs.Repository.LatestTag
import ReleaseCut.Proofs.Repository.Memory
import ReleaseCut.Proofs.Repository.TagOrder

/-!
# The latest release is the greatest one

Both sorts of repository look for the latest release by going through tags: in memory the last one
of the greatest version is kept, in git the first one. They look at the same thing, since no two
releases have the same version (`ReleaseTag.IsSoleLatest`), and neither depends on the order of the
tags (`latestTag_isSoleLatest`).
-/

namespace ReleaseCut

/-- What the latest of some releases is: none exactly if there are none, and otherwise the one of
them whose version no other one exceeds. -/
structure ReleaseTag.IsSoleLatest (among : ReleaseTag → Prop) (latest : Option ReleaseTag) :
    Prop where
  /-- There is no latest release exactly if there is no release. -/
  eq_none_iff : latest = none ↔ ∀ t, ¬among t
  /-- A release is the latest one exactly if it is one of them and none has a greater version. -/
  eq_some_iff : ∀ t, latest = some t ↔
    among t ∧ ∀ u, among u → (compare u.version t.version).isLE

theorem ReleaseTag.IsSoleLatest.unique {among : ReleaseTag → Prop}
    {latest latest' : Option ReleaseTag} (h : IsSoleLatest among latest)
    (h' : IsSoleLatest among latest') : latest = latest' := by
  cases latest with
  | none => exact (h'.eq_none_iff.2 (h.eq_none_iff.1 rfl)).symm
  | some t => exact ((h'.eq_some_iff t).2 ((h.eq_some_iff t).1 rfl)).symm

theorem ReleaseTag.IsLatest.isSoleLatest {f : TagFormat} {among : ReleaseTag → Prop}
    {latest : Option ReleaseTag} (h : IsLatest among latest)
    (hread : ∀ t, among t → f.read? t.name = some t.version) : IsSoleLatest among latest where
  eq_none_iff := by
    refine ⟨?_, fun hnone => Option.eq_none_iff_forall_not_mem.2 fun t ht => hnone t (h.mem t ht)⟩
    rintro rfl t ht
    obtain ⟨_, ⟨⟩, -⟩ := h.greatest t ht
  eq_some_iff t := by
    constructor
    · rintro rfl
      refine ⟨h.mem t rfl, fun u hu => ?_⟩
      obtain ⟨_, ⟨⟩, hle⟩ := h.greatest u hu
      exact hle
    · rintro ⟨ht, hgreatest⟩
      refine h.unique ⟨?_, fun u hu => ⟨t, rfl, hgreatest u hu⟩⟩ hread
      rintro _ ⟨⟩
      exact ht

/-! ### Repositories in memory -/

namespace MemoryRepository

theorem isLatest_latestTag (m : MemoryRepository) (f : TagFormat) :
    ReleaseTag.IsLatest (· ∈ m.releases f) (m.latestTag f) :=
  ⟨fun _ => mem_releases_of_latestTag, fun _ => latestTag_spec⟩

/-- The order of the tags does not matter. -/
theorem latestTag_eq_of_perm {m m' : MemoryRepository}
    (h : (m'.tags.map Prod.fst).Perm (m.tags.map Prod.fst)) (f : TagFormat) :
    m'.latestTag f = m.latestTag f := by
  have hreleases : (· ∈ m'.releases f) = (· ∈ m.releases f) := by
    funext t
    rw [mem_releases, mem_releases, h.mem_iff]
  have hlatest := m'.isLatest_latestTag f
  rw [hreleases] at hlatest
  exact hlatest.unique (m.isLatest_latestTag f) fun t ht => (mem_releases.1 ht).2

end MemoryRepository

/-! ### Git repositories -/

namespace GitRepository

variable {r r' : GitRepository} {f : TagFormat} {head : Nat} {t : ReleaseTag}

/-- All tags that a format recognises lead to commits, those that they name. -/
def LeadsToCommits (r : GitRepository) (f : TagFormat) : Prop :=
  ∀ p ∈ r.releases f, ∃ i, p.2 = .commit i ∧ r.tagCommit p.1.name = .ok i

/-- A release whose tag names a given commit or an ancestor of it. -/
def HasReleased (r : GitRepository) (f : TagFormat) (head : Nat) (t : ReleaseTag) : Prop :=
  ∃ i, (t, .commit i) ∈ r.releases f ∧ r.history.Reaches head i

theorem isReachable_iff_hasReleased (hhead : r.headCommit = .ok head) (h : r.LeadsToCommits f) :
    r.IsReachable f head t ↔ r.HasReleased f head t := by
  rw [isReachable_iff hhead, HasReleased]
  constructor
  · rintro ⟨hname, hread, i, hi, hreaches⟩
    obtain ⟨target, hmem⟩ := mem_tagNames.1 hname
    have hrelease : (t, target) ∈ r.releases f := mem_releases.2 ⟨hmem, hread⟩
    obtain ⟨j, rfl, hj⟩ := h _ hrelease
    obtain rfl : i = j := Except.ok.inj (hi.symm.trans hj)
    exact ⟨i, hrelease, hreaches⟩
  · rintro ⟨i, hrelease, hreaches⟩
    obtain ⟨hmem, hread⟩ := mem_releases.1 hrelease
    obtain ⟨j, hj, hcommit⟩ := h _ hrelease
    cases hj
    exact ⟨mem_tagNames.2 ⟨_, hmem⟩, hread, i, hcommit, hreaches⟩

/-- Names of tags in any order come to the one latest release that can be reached. -/
theorem foldlM_considerTag_isSoleLatest (hhead : r.headCommit = .ok head) (h : r.LeadsToCommits f)
    {names : List String} (hperm : names.Perm r.tagNames) :
    ∃ latest, names.foldlM (r.considerTag f (r.history.reachable head)) none = .ok latest ∧
      ReleaseTag.IsSoleLatest (r.HasReleased f head) latest := by
  have hcommits : ∀ name ∈ names, ∀ v, f.read? name = some v → ∃ i, r.tagCommit name = .ok i := by
    intro name hname v hread
    obtain ⟨target, hmem⟩ := mem_tagNames.1 (hperm.mem_iff.1 hname)
    obtain ⟨i, -, hi⟩ := h (⟨name, v⟩, target) (mem_releases.2 ⟨hmem, hread⟩)
    exact ⟨i, hi⟩
  obtain ⟨latest, hlatest⟩ := exists_foldlM_considerTag hcommits none
  have hsame : r.IsReachable f head = r.HasReleased f head := by
    funext t
    exact propext (isReachable_iff_hasReleased hhead h)
  refine ⟨latest, hlatest, ?_⟩
  rw [← hsame]
  exact (isLatest_of_foldlM (fun _ => hperm.mem_iff) hlatest).isSoleLatest fun t ht => ht.read

/-- The order in which tags were added does not matter, be the answer a release or an error. -/
theorem latestTag_eq_of_perm (hhistory : r'.history = r.history)
    (hhead : r'.headCommit = r.headCommit) (htags : r'.tags.Perm r.tags) (f : TagFormat) :
    r'.latestTag f = r.latestTag f := by
  have hconsider : ∀ reachable, r'.considerTag f reachable = r.considerTag f reachable := by
    intro reachable
    funext latest name
    simp only [considerTag, tagCommit_eq_of_perm htags]
  simp only [latestTag, hhead, hhistory, tagNames_eq_of_perm htags, hconsider]

end GitRepository

/-- **The latest release is the greatest one**, whatever the order of the tags: in memory of all
releases, in git of those whose tags lead to the commit checked out or its ancestors. -/
theorem latestTag_isSoleLatest (f : TagFormat) :
    (∀ m : MemoryRepository, ReleaseTag.IsSoleLatest (· ∈ m.releases f) (m.latestTag f) ∧
      ∀ m' : MemoryRepository, (m'.tags.map Prod.fst).Perm (m.tags.map Prod.fst) →
        m'.latestTag f = m.latestTag f) ∧
    ∀ (r : GitRepository) (head : Nat), r.headCommit = .ok head → r.LeadsToCommits f →
      ∃ latest, r.latestTag f = .ok latest ∧
        ReleaseTag.IsSoleLatest (r.HasReleased f head) latest ∧
        (∀ names : List String, names.Perm r.tagNames →
          names.foldlM (r.considerTag f (r.history.reachable head)) none = .ok latest) ∧
        ∀ r' : GitRepository, r'.history = r.history → r'.headCommit = r.headCommit →
          r'.tags.Perm r.tags → r'.latestTag f = .ok latest := by
  refine ⟨fun m => ⟨?_, fun m' hperm => MemoryRepository.latestTag_eq_of_perm hperm f⟩,
    fun r head hhead hcommits => ?_⟩
  · exact (m.isLatest_latestTag f).isSoleLatest fun t ht => (MemoryRepository.mem_releases.1 ht).2
  · obtain ⟨latest, hfold, hsole⟩ :=
      GitRepository.foldlM_considerTag_isSoleLatest hhead hcommits (.refl r.tagNames)
    have hlatest : r.latestTag f = .ok latest := Except.bind_eq_ok_iff.2 ⟨head, hhead, hfold⟩
    refine ⟨latest, hlatest, hsole, fun names hperm => ?_, fun r' hhistory hhead' htags => ?_⟩
    · obtain ⟨latest', hfold', hsole'⟩ :=
        GitRepository.foldlM_considerTag_isSoleLatest hhead hcommits hperm
      rw [hfold', hsole'.unique hsole]
    · rw [GitRepository.latestTag_eq_of_perm hhistory hhead' htags, hlatest]

/-- A project with two releases, and a third one of a commit beside them. -/
def branchedRepository : GitRepository :=
  let start := (GitRepository.empty (.text "main")).commit "c0" "✨ start".toUTF8 []
  let branched := (start.commit "c1" "🐛 main".toUTF8 []).addCommit "c2" "💥 side".toUTF8 [0]
  ((branched.setTag (.text "v1.10.0") (.commit 1)).setTag (.text "v1.9.0") (.commit 0)).setTag
    (.text "v2.0.0") (.commit 2)

/-- A project in memory with the same tags and one that names no version. -/
def branchedMemory : MemoryRepository :=
  (((MemoryRepository.empty.tagHead "v1.10.0").tagHead "v2.0.0").tagHead "nightly").tagHead "v1.9.0"

/-- Versions go by their numbers, and what git cannot reach does not count. -/
theorem latestTag_branched :
    branchedMemory.latestTag ⟨⟨"v", ""⟩⟩ = some ⟨"v2.0.0", .release 2 0 0⟩ ∧
    branchedRepository.headCommit = .ok 1 ∧ branchedRepository.LeadsToCommits ⟨⟨"v", ""⟩⟩ ∧
    branchedRepository.latestTag ⟨⟨"v", ""⟩⟩ = .ok (some ⟨"v1.10.0", .release 1 10 0⟩) := by
  have hreleases : branchedRepository.releases ⟨⟨"v", ""⟩⟩ =
      [(⟨"v1.10.0", .release 1 10 0⟩, .commit 1), (⟨"v1.9.0", .release 1 9 0⟩, .commit 0),
        (⟨"v2.0.0", .release 2 0 0⟩, .commit 2)] := by
    decide +kernel
  have hcommits : branchedRepository.LeadsToCommits ⟨⟨"v", ""⟩⟩ := by
    intro p hp
    rw [hreleases] at hp
    simp only [List.mem_cons, List.not_mem_nil, or_false] at hp
    rcases hp with rfl | rfl | rfl
    · exact ⟨1, rfl, by decide +kernel⟩
    · exact ⟨0, rfl, by decide +kernel⟩
    · exact ⟨2, rfl, by decide +kernel⟩
  obtain ⟨hmemory, hgit⟩ := latestTag_isSoleLatest ⟨⟨"v", ""⟩⟩
  obtain ⟨latest, hlatest, hsole, -⟩ := hgit branchedRepository 1 rfl hcommits
  refine ⟨((hmemory branchedMemory).1.eq_some_iff _).2 (by decide +kernel), rfl, hcommits, ?_⟩
  rw [hlatest, (hsole.eq_some_iff ⟨"v1.10.0", .release 1 10 0⟩).2]
  refine ⟨⟨1, by simp [hreleases], .refl⟩, ?_⟩
  rintro u ⟨i, hu, hreaches⟩
  rw [hreleases] at hu
  simp only [List.mem_cons, List.not_mem_nil, or_false, Prod.mk.injEq, TagTarget.commit.injEq] at hu
  rcases hu with ⟨rfl, -⟩ | ⟨rfl, -⟩ | ⟨-, rfl⟩
  · decide
  · decide
  · -- the commit beside is younger than the one checked out
    exact absurd hreaches.le (by decide)

end ReleaseCut
