import ReleaseCut.Proofs.Repository.CommitsSince
import ReleaseCut.Proofs.Repository.LatestTag
import ReleaseCut.Proofs.Repository.Memory

/-!
# What is seen of a new tag

A tag created on the commit checked out is seen by the queries until a commit is added
(`createTag_seen`).

* No commits are listed since the tag. This holds under the text that asked for the tag, however the
  repository calls it.
* The latest release is at least the version of the tag. This takes a tag that the repository calls
  as it was written. It also takes a repository where a latest release could be asked for before,
  since a tag that the format recognises and that leads to no commit fails every search.

A repository in memory sees none of this. It answers from the tags that were put on its commits, and
keeps the names that a release creates apart from these. So its answers are as if no tag had been
created, however many were.
-/

namespace ReleaseCut

namespace GitRepository

variable {r r' r'' : GitRepository} {f : TagFormat} {latest : Option ReleaseTag} {name : String}
  {v : Version}

/-- No commits are listed since a new tag until one is added. -/
private theorem commitsSince_of_createTag (h : r.createTag name = .ok r') (hkeeps : r'.Keeps r'') :
    r''.commitsSince (some name) = .ok [] := by
  obtain ⟨head, _, hhead, -, -, -, -, hhead'⟩ := createTag_spec h
  exact commitsSince_head (hkeeps.headCommit.trans hhead')
    (hkeeps.tagCommit (tagCommit_self_createTag hhead h))

/-- Where the latest release is found it is at least that of a new tag, until a commit is added. -/
private theorem isLE_latestTag_of_createTag (h : r.createTag name = .ok r') (htight : IsTight name)
    (hread : f.read? name = some v) (hkeeps : r'.Keeps r'')
    (hlatest : r''.latestTag f = .ok latest) :
    ∃ l ∈ latest, (compare v l.version).isLE := by
  obtain ⟨head, _, hhead, -, -, -, -, hhead'⟩ := createTag_spec h
  obtain ⟨head', hhead'', -, hgreatest⟩ := latestTag_spec hlatest
  obtain rfl : head = head' :=
    Except.ok.inj ((hkeeps.headCommit.trans hhead').symm.trans hhead'')
  exact hgreatest _ (hkeeps.isReachable (isReachable_self_createTag htight hread hhead h))

end GitRepository

namespace MemoryRepository

variable {r r' : MemoryRepository} {names : List String} {name : String}

/-- Tags that are created are recorded, under names that were free, and nothing else changes. -/
theorem created_of_foldlM_createTag (h : names.foldlM createTag r = .ok r') :
    r' = { r with created := r.created ++ names } ∧ ∀ name ∈ names, name ∉ r.tags.map Prod.fst := by
  induction names generalizing r with
  | nil =>
    obtain rfl : r = r' := Except.ok.inj h
    simp
  | cons name names ih =>
    obtain ⟨r₁, hfirst, hrest⟩ := Except.bind_eq_ok_iff.1 h
    obtain ⟨hfree, rfl⟩ := createTag_eq_ok_iff.1 hfirst
    obtain ⟨rfl, hothers⟩ := ih hrest
    refine ⟨by simp, fun n hn => ?_⟩
    rcases List.mem_cons.1 hn with rfl | hn
    · exact fun hmem => hfree (List.mem_append_left _ hmem)
    · exact hothers n hn

/-- The tags that are created are not asked for the latest release. -/
theorem latestTag_of_foldlM_createTag (h : names.foldlM createTag r = .ok r') (f : TagFormat) :
    r'.latestTag f = r.latestTag f := by
  rw [(created_of_foldlM_createTag h).1]
  rfl

/-- Nor are they found when commits are asked for. -/
theorem commitsSince_of_foldlM_createTag (h : names.foldlM createTag r = .ok r')
    (since : Option String) : r'.commitsSince since = r.commitsSince since := by
  rw [(created_of_foldlM_createTag h).1]
  cases since <;> rfl

/-- A name that was created is unknown all the same. -/
theorem commitsSince_of_mem_foldlM_createTag (h : names.foldlM createTag r = .ok r')
    (hname : name ∈ names) : r'.commitsSince (some name) = .error (.tag (.unknown name)) := by
  have hfree := (created_of_foldlM_createTag h).2 name hname
  rw [commitsSince_of_foldlM_createTag h, commitsSince, find?_tags_eq_none_iff.2 hfree]

/-- But it is taken. -/
theorem createTag_of_mem_foldlM_createTag (h : names.foldlM createTag r = .ok r')
    (hname : name ∈ names) : r'.createTag name = .error (.tag (.taken name)) := by
  have htaken : name ∈ r.created ++ names := List.mem_append_right _ hname
  rw [(created_of_foldlM_createTag h).1, createTag, hasTag, List.contains_iff_mem.2 htaken]
  rfl

end MemoryRepository

/-- **What is seen of new tags.** Until a commit is added no commits are listed since a new tag, and
the latest release is at least its version. A repository in memory does not see the tags that are
created in it: it answers as it did before, and does not know their names, which are taken. -/
theorem createTag_seen (name : String) :
    (∀ r r' : GitRepository, r.createTag name = .ok r' →
      (∀ r'', r'.Keeps r'' → r''.commitsSince (some name) = .ok []) ∧
      ∀ f v latest, f.read? name = some v → IsTight name → r.latestTag f = .ok latest →
        (∃ l, r'.latestTag f = .ok (some l) ∧ (compare v l.version).isLE) ∧
        ∀ r'' latest'', r'.Keeps r'' → r''.latestTag f = .ok latest'' →
          ∃ l ∈ latest'', (compare v l.version).isLE) ∧
    ∀ (r r' : MemoryRepository) (names : List String), name ∈ names →
      names.foldlM MemoryRepository.createTag r = .ok r' →
      (∀ f, r'.latestTag f = r.latestTag f) ∧
      (∀ since, r'.commitsSince since = r.commitsSince since) ∧
      r'.commitsSince (some name) = .error (.tag (.unknown name)) ∧
      r'.createTag name = .error (.tag (.taken name)) := by
  refine ⟨fun r r' h => ⟨fun r'' => GitRepository.commitsSince_of_createTag h, ?_⟩,
    fun r r' names hname h => ?_⟩
  · intro f v latest hread htight hlatest
    have hseen {r'' : GitRepository} {latest'' : Option ReleaseTag} (hkeeps : r'.Keeps r'')
        (hlatest'' : r''.latestTag f = .ok latest'') :
        ∃ l ∈ latest'', (compare v l.version).isLE :=
      GitRepository.isLE_latestTag_of_createTag h htight hread hkeeps hlatest''
    obtain ⟨head, _, hhead, -⟩ := GitRepository.createTag_spec h
    obtain ⟨latest', hlatest'⟩ :=
      GitRepository.exists_latestTag_createTag htight hhead h hlatest
    obtain ⟨l, rfl, hle⟩ := hseen (.refl r') hlatest'
    exact ⟨⟨l, hlatest', hle⟩, fun _ _ => hseen⟩
  · exact ⟨MemoryRepository.latestTag_of_foldlM_createTag h,
      MemoryRepository.commitsSince_of_foldlM_createTag h,
      MemoryRepository.commitsSince_of_mem_foldlM_createTag h hname,
      MemoryRepository.createTag_of_mem_foldlM_createTag h hname⟩

/-- A project of one commit. -/
def startedRepository : GitRepository :=
  (GitRepository.empty (.text "main")).commit "c0" "✨ start".toUTF8 []

private theorem createTag_started {name called : String}
    (hname : startedRepository.newTagName name = .ok called) :
    startedRepository.createTag name =
      .ok (startedRepository.setTag (.text called) (.commit 0)) := by
  have hhead : startedRepository.headCommit = .ok 0 := rfl
  rw [GitRepository.createTag, hhead, Except.bind_eq_ok_iff]
  exact ⟨0, rfl, by rw [hname]⟩

/-- The same in memory. -/
def startedMemory : MemoryRepository :=
  MemoryRepository.empty.commit ⟨"c0", "✨ start"⟩

/-- After a first release and some more tags there are no commits since the release. In memory the
latest release is still an older one then, and that of the new tags is unknown. -/
theorem createTag_seen_first :
    (∃ r' r'', startedRepository.createTag "v1.0.0" = .ok r' ∧
      ["nightly", "edge"].foldlM GitRepository.createTag r' = .ok r'' ∧
      (∃ l, r'.latestTag ⟨⟨"v", ""⟩⟩ = .ok (some l) ∧ (compare Version.initial l.version).isLE) ∧
      r''.commitsSince (some "v1.0.0") = .ok []) ∧
    ∃ r', ["v1.0.0", "nightly"].foldlM MemoryRepository.createTag (startedMemory.tagHead "v0.9.0") =
        .ok r' ∧
      r'.latestTag ⟨⟨"v", ""⟩⟩ = some ⟨"v0.9.0", .release 0 9 0⟩ ∧
      r'.commitsSince (some "v1.0.0") = .error (.tag (.unknown "v1.0.0")) ∧
      r'.createTag "v1.0.0" = .error (.tag (.taken "v1.0.0")) := by
  obtain ⟨hgit, hmemory⟩ := createTag_seen "v1.0.0"
  constructor
  · have hname : startedRepository.newTagName "v1.0.0" = .ok "v1.0.0" := by decide +kernel
    have h := createTag_started hname
    obtain ⟨r'', h''⟩ : ∃ r'', ["nightly", "edge"].foldlM GitRepository.createTag
        (startedRepository.setTag (.text "v1.0.0") (.commit 0)) = .ok r'' := ⟨_, rfl⟩
    have hhead : startedRepository.headCommit = .ok 0 := rfl
    have hbefore : startedRepository.latestTag ⟨⟨"v", ""⟩⟩ = .ok none :=
      GitRepository.latestTag_of_releases_eq_nil hhead rfl
    obtain ⟨hcommits, hlatest⟩ := hgit _ _ h
    exact ⟨_, r'', h, h'', (hlatest _ .initial none (by decide +kernel) (by decide) hbefore).1,
      hcommits r'' (GitRepository.keeps_of_foldlM_createTag h'')⟩
  · obtain ⟨hlatest, -, hcreated⟩ := hmemory (startedMemory.tagHead "v0.9.0") _
      ["v1.0.0", "nightly"] (List.mem_cons_self ..) rfl
    have hbefore : (startedMemory.tagHead "v0.9.0").latestTag ⟨⟨"v", ""⟩⟩ =
        some ⟨"v0.9.0", .release 0 9 0⟩ := by decide +kernel
    exact ⟨_, rfl, (hlatest _).trans hbefore, hcreated⟩

/-- What is not seen of a new tag: all of it in memory, the version of a tag that is called
otherwise, and any version beside a tag that leads to no commit. -/
theorem createTag_not_seen :
    (∃ r', startedMemory.createTag "v1.0.0" = .ok r' ∧
      r'.latestTag ⟨⟨"v", ""⟩⟩ = none ∧
      r'.commitsSince (some "v1.0.0") = .error (.tag (.unknown "v1.0.0"))) ∧
    (∃ r', startedRepository.createTag "a//1.0.0" = .ok r' ∧
      (TagFormat.mk ⟨"a//", ""⟩).read? "a//1.0.0" = some .initial ∧
      r'.latestTag ⟨⟨"a//", ""⟩⟩ = .ok none) ∧
    ∃ r', (startedRepository.setTag (.text "v0.9.0") (.object "0a")).createTag "v1.0.0" = .ok r' ∧
      ∀ latest, r'.latestTag ⟨⟨"v", ""⟩⟩ ≠ .ok latest := by
  refine ⟨⟨_, rfl, rfl, rfl⟩, ?_, ?_⟩
  · have hname : startedRepository.newTagName "a//1.0.0" = .ok "a/1.0.0" := by decide +kernel
    have h := createTag_started hname
    have hhead := (GitRepository.keeps_createTag h).headCommit
    exact ⟨_, h, by decide +kernel,
      GitRepository.latestTag_of_releases_eq_nil hhead (by decide +kernel)⟩
  · obtain ⟨r', h⟩ : ∃ r', (startedRepository.setTag (.text "v0.9.0") (.object "0a")).createTag
        "v1.0.0" = .ok r' := ⟨_, rfl⟩
    refine ⟨r', h, fun latest hlatest => ?_⟩
    -- the other tag is recognised and leads to no commit
    have htag : (.text "v0.9.0", .object "0a") ∈ r'.tags :=
      (GitRepository.keeps_createTag h).tags _ (by decide +kernel)
    obtain ⟨i, hi⟩ := GitRepository.exists_tagCommit_of_latestTag hlatest
      (t := ⟨"v0.9.0", .release 0 9 0⟩) (GitRepository.mem_releases.2 ⟨htag, by decide +kernel⟩)
    obtain ⟨resolved, hname, hcommit⟩ := GitRepository.tagCommit_eq_ok_iff.1 hi
    have hown : GitRepository.resolveTagName "v0.9.0" = .ok "v0.9.0" := by decide +kernel
    obtain rfl : "v0.9.0" = resolved := Except.ok.inj (hown.symm.trans hname)
    rw [GitRepository.tag?_eq_some_iff.2 htag] at hcommit
    cases hcommit

end ReleaseCut
