import ReleaseCut.Proofs.Release.Cut
import ReleaseCut.Proofs.Repository.LatestTag
import ReleaseCut.Proofs.Repository.Memory

/-!
# Releases move forward

A planned release is newer than every release that a repository knows (`Decision.planned_newest`).

The latest release is the greatest one in the total order of versions, which is finer than
precedence; a bump then goes beyond it in precedence. So its tag is none of those that are there.
-/

namespace ReleaseCut

/-- The release of a plan comes after some others: it is a proper release of higher precedence, and
its tag names it and none of the others. -/
structure Plan.Follows (p : Plan) (f : TagFormat) (others : ReleaseTag → Prop) : Prop where
  /-- The other versions are of lower precedence. -/
  newer : ∀ t, others t → t.version.Precedes p.version
  /-- There is no pre-release part and no build metadata. -/
  isRelease : p.version.isRelease = true
  /-- The tag is read back. -/
  read : f.read? p.tag = some p.version
  /-- The tag is not that of another one. -/
  fresh : ∀ t, others t → t.name ≠ p.tag

theorem Plan.Follows.imp {p : Plan} {f : TagFormat} {others others' : ReleaseTag → Prop}
    (h : p.Follows f others) (himp : ∀ t, others' t → others t) : p.Follows f others' :=
  ⟨fun t ht => h.newer t (himp t ht), h.isRelease, h.read, fun t ht => h.fresh t (himp t ht)⟩

namespace Decision

variable {ρ : Type} [Repository ρ] {r : ρ} {c : Config} {f : TagFormat} {asked : Option String}
  {date : Date} {p : Plan}

/-- A plan goes beyond the latest release, and so beyond all that this is not behind. -/
theorem Planned.precedes (hp : Planned r c f date p) {v : Version}
    (hv : ∃ l ∈ p.previous, (compare v l.version).isLE) : v.Precedes p.version := by
  obtain ⟨l, hl, hle⟩ := hv
  have hversion := hp.version
  rw [Option.mem_def.1 hl] at hversion
  exact .of_compare_isLE hle (Bump.precedes_of_applyTo? hversion)

/-- A plan follows all releases that the latest one is not behind. -/
theorem Planned.follows (hp : Planned r c f date p) {others : ReleaseTag → Prop}
    (hread : ∀ t, others t → f.read? t.name = some t.version)
    (hle : ∀ t, others t → ∃ l ∈ p.previous, (compare t.version l.version).isLE) :
    p.Follows f others := by
  have htag : f.read? p.tag = some p.version := by
    rw [hp.tag, TagFormat.read?_write]
  refine ⟨fun t ht => hp.precedes (hle t ht), Bump.isRelease_of_next? hp.version, htag, ?_⟩
  intro t ht hname
  -- a tag of that name would name the planned version, which is not newer than itself
  have hversion : t.version = p.version :=
    Option.some.inj ((hread t ht).symm.trans (hname ▸ htag))
  exact p.version.not_precedes_self (hversion ▸ hp.precedes (hle t ht))

end Decision

/-- In a repository, a plan follows all releases that can be reached. -/
theorem GitRepository.follows_of_planned {r : GitRepository} {c : Config} {f : TagFormat}
    {date : Date} {p : Plan} (hp : Decision.Planned r c f date p) :
    ∃ head, r.headCommit = .ok head ∧ p.Follows f (r.IsReachable f head) := by
  have hlatest : r.latestTag f = .ok p.previous := hp.latest
  obtain ⟨head, hhead, -, hgreatest⟩ := GitRepository.latestTag_spec hlatest
  exact ⟨head, hhead, hp.follows (fun t ht => ht.read) hgreatest⟩

/-- In memory, a plan follows all releases. -/
theorem MemoryRepository.follows_of_planned {r : MemoryRepository} {c : Config} {f : TagFormat}
    {date : Date} {p : Plan} (hp : Decision.Planned r c f date p) :
    p.Follows f fun t => t.name ∈ r.tags.map Prod.fst ∧ f.read? t.name = some t.version := by
  have hlatest : r.latestTag f = p.previous := Except.ok.inj hp.latest
  refine hp.follows (fun t ht => ht.2) fun t ht => ?_
  rw [← hlatest]
  exact latestTag_spec (mem_releases.2 ht)

namespace Decision

/-- **A planned release is newer than all before.** It has a higher precedence than every release
that can be reached from the commit checked out, and than all releases of a repository in memory,
which then refuses the tag only if a release created it before. -/
theorem planned_newest (c : Config) (asked : Option String) (date : Date) (p : Plan) :
    (∀ r : GitRepository, make r c asked date = .ok (.release p) →
      ∃ f head, c.tagFormat = .ok f ∧ r.headCommit = .ok head ∧
        p.Follows f fun t => t.name ∈ r.tagNames ∧ f.read? t.name = some t.version ∧
          ∃ i, r.tagCommit t.name = .ok i ∧ r.history.Reaches head i) ∧
    ∀ r : MemoryRepository, make r c asked date = .ok (.release p) →
      ∃ f, c.tagFormat = .ok f ∧
        (p.Follows f fun t => t.name ∈ r.tags.map Prod.fst ∧ f.read? t.name = some t.version) ∧
        ∀ e, r.createTag p.tag = .error e → p.tag ∈ r.created := by
  constructor
  · intro r h
    obtain ⟨f, hp⟩ := planned_of_make h
    obtain ⟨head, hhead, hfollows⟩ := GitRepository.follows_of_planned hp
    refine ⟨f, head, hp.format, hhead, hfollows.imp fun t ht => ?_⟩
    exact (GitRepository.isReachable_iff hhead).2 ht
  · intro r h
    obtain ⟨f, hp⟩ := planned_of_make h
    have hfollows := MemoryRepository.follows_of_planned hp
    refine ⟨f, hp.format, hfollows, fun e he => ?_⟩
    rcases List.mem_append.1 (MemoryRepository.mem_of_createTag_eq_error he).1 with htag | htag
    · exact absurd rfl (hfollows.fresh ⟨p.tag, p.version⟩ ⟨htag, hfollows.read⟩)
    · exact htag

/-! ### After a candidate -/

/-- A candidate for the first version. -/
def candidate : ReleaseTag where
  name := "v1.0.0-rc.1+b"
  version := {
    major := 1
    minor := 0
    patch := 0
    pre := [⟨['r', 'c'], by decide, by decide⟩, ⟨['1'], by decide, by decide⟩]
    build := [⟨['b'], by decide, by decide⟩] }

/-- A project with a candidate and a correction after it. -/
def candidateRepository : GitRepository :=
  (((GitRepository.empty (.text "main")).commit "c1" "📝 x".toUTF8 []).setTag
    (.text candidate.name) (.commit 0)).commit "c2" "🐛 y".toUTF8 []

/-- The same project in memory. -/
def candidateMemory : MemoryRepository :=
  ((MemoryRepository.empty.commit ⟨"c1", "📝 x"⟩).tagHead candidate.name).commit ⟨"c2", "🐛 y"⟩

private theorem read_candidate :
    (TagFormat.mk ⟨"v", ""⟩).read? candidate.name = some candidate.version := by
  decide +kernel

private theorem mem_tagNames_candidate : candidate.name ∈ candidateRepository.tagNames := by
  have htags : candidateRepository.tags = [(.text candidate.name, .commit 0)] := rfl
  exact GitRepository.mem_tagNames.2 ⟨.commit 0, by simp [htags]⟩

private theorem latestTag_candidate :
    candidateRepository.latestTag ⟨⟨"v", ""⟩⟩ = .ok (some candidate) := by
  have htags : candidateRepository.tags = [(.text candidate.name, .commit 0)] := rfl
  have hnames : candidateRepository.tagNames = [candidate.name] := by
    simp [GitRepository.tagNames, htags, RefName.text?]
  have hhead : candidateRepository.headCommit = .ok 1 := rfl
  have hconsider : candidateRepository.considerTag ⟨⟨"v", ""⟩⟩
      (candidateRepository.history.reachable 1) none candidate.name = .ok (some candidate) := by
    decide +kernel
  rw [GitRepository.latestTag, hnames, hhead, Except.bind_eq_ok_iff]
  refine ⟨1, rfl, ?_⟩
  simp [hconsider]

/-- The correction is due. -/
theorem exists_plan_candidate {ρ : Type} [Repository ρ] {r : ρ}
    (hbranch : Repository.currentBranch r = .ok "main")
    (hlatest : Repository.latestTag r ⟨⟨"v", ""⟩⟩ = .ok (some candidate))
    (hcommits : Repository.commitsSince r (some candidate.name) = .ok [⟨"c2", "🐛 y"⟩])
    (date : Date) :
    ∃ p, make r Config.standard none date = .ok (.release p) := by
  have hnext : (Commit.largestBump [CommitInfo.toCommit ⟨"c2", "🐛 y"⟩]).next?
      (some candidate.version) = .ok (some (.release 1 0 1)) := by
    decide +kernel
  have hanswers : Answers r none ⟨⟨"v", ""⟩⟩ "main" (some candidate) [⟨"c2", "🐛 y"⟩] :=
    ⟨hbranch, hlatest, hcommits⟩
  exact ⟨_, hanswers.make_eq_release Config.tagFormat_standard Config.main_mem_standard hnext⟩

/-- The correction is released under a version beyond that of the candidate. -/
theorem planned_newest_after_candidate :
    ∃ date p q, make candidateRepository Config.standard none date = .ok (.release p) ∧
      make candidateMemory Config.standard none date = .ok (.release q) ∧
      candidate.version.Precedes p.version ∧ p.tag ≠ candidate.name ∧
      candidate.version.Precedes q.version ∧ q.tag ≠ candidate.name := by
  have date : Date := ⟨2024, 1, 1, by decide, by decide, by decide, by decide⟩
  have hf : Config.standard.tagFormat = .ok ⟨⟨"v", ""⟩⟩ := by decide +kernel
  have hmemory : candidateMemory.latestTag ⟨⟨"v", ""⟩⟩ = some candidate := by decide +kernel
  obtain ⟨p, hp⟩ := exists_plan_candidate (r := candidateRepository) rfl latestTag_candidate
    (by decide +kernel) date
  obtain ⟨q, hq⟩ := exists_plan_candidate (r := candidateMemory) rfl (congrArg _ hmemory) rfl date
  obtain ⟨f, head, hformat, hhead, hfollows⟩ := (planned_newest _ none date p).1 _ hp
  obtain ⟨g, hformat', hfollows', -⟩ := (planned_newest _ none date q).2 _ hq
  cases hf.symm.trans hformat
  cases hf.symm.trans hformat'
  obtain rfl : 1 = head := Except.ok.inj hhead
  have hreachable : candidateRepository.IsReachable ⟨⟨"v", ""⟩⟩ 1 candidate :=
    ⟨mem_tagNames_candidate, read_candidate, 0, by decide +kernel, by decide +kernel⟩
  have hknown := (GitRepository.isReachable_iff hhead).1 hreachable
  have hknown' : candidate.name ∈ candidateMemory.tags.map Prod.fst ∧ _ :=
    And.intro (List.mem_singleton_self _) read_candidate
  exact ⟨date, p, q, hp, hq, hfollows.newer _ hknown, (hfollows.fresh _ hknown).symm,
    hfollows'.newer _ hknown', (hfollows'.fresh _ hknown').symm⟩

end Decision

end ReleaseCut
