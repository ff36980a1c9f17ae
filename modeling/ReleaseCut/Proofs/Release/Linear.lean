import Mathlib.Data.List.TakeWhile
import ReleaseCut.Proofs.Release.Succession
import ReleaseCut.Proofs.Repository.CommitsSince
import ReleaseCut.Proofs.Repository.Greatest
import ReleaseCut.Proofs.Text.ByteOrder

/-!
# Linear projects

A repository in memory and a git repository with the same linear history and the same tags
(`MemoryRepository.Mirrors`) are decided alike (`Decision.make_mirrored`). They answer alike:

* the latest release is determined by what releases there are (`ReleaseTag.IsLatest.unique`);
* in a linear history every tag can be reached, and the walk to a tag leaves just the commits after
  it (`History.IsLinear.walk_eq`).
-/

namespace ReleaseCut

/-! ### Repositories in memory and git repositories -/

/-- The text of a message is read back, unless it starts with a newline or holds a NUL. -/
theorem HistoryCommit.text_eq {c : HistoryCommit} {message : String}
    (hmessage : c.message = message.toUTF8) (hstart : message.toList.head? ≠ some '\n')
    (hnul : '\x00' ∉ message.toList) : c.text = message := by
  have hutf8 : String.fromUTF8? message.toUTF8 = some message := dif_pos message.isValidUTF8
  have hbytes : message.toUTF8.data.toList.takeWhile (· ≠ 0) = message.toUTF8.data.toList := by
    refine List.takeWhile_eq_self_iff.2 fun b hb => decide_eq_true ?_
    rintro rfl
    exact Text.zero_notMem_toUTF8 hnul hb
  have hkept : message.toList.dropWhile (· == '\n') = message.toList := by
    cases hchars : message.toList with
    | nil => rfl
    | cons char chars =>
      have hchar : char ≠ '\n' := by simpa [hchars] using hstart
      simp [hchar]
  rw [text, hmessage, hbytes, Array.toArray_toList, hutf8]
  simp only [hkept, String.ofList_toList]

/-- Commits of the same hashes and messages are known as the same. -/
private theorem eq_of_map_eq {cs : List HistoryCommit} {infos : List CommitInfo}
    (h : cs.map (fun c => (c.hash, c.message)) = infos.map fun c => (c.hash, c.message.toUTF8))
    (hmessages : ∀ c ∈ infos, c.message.toList.head? ≠ some '\n' ∧ '\x00' ∉ c.message.toList) :
    cs.map (fun c => ⟨c.hash, c.text⟩) = infos := by
  induction infos generalizing cs with
  | nil => simpa using h
  | cons info infos ih =>
    cases cs with
    | nil => cases h
    | cons c cs =>
      rw [List.forall_mem_cons] at hmessages
      rw [List.map_cons, List.map_cons, List.cons.injEq, Prod.mk.injEq] at h
      rw [List.map_cons, ih h.2 hmessages.2, h.1.1, c.text_eq h.1.2 hmessages.1.1 hmessages.1.2]

/-- A repository in memory and a git repository hold the same project. -/
structure MemoryRepository.Mirrors (m : MemoryRepository) (r : GitRepository) : Prop where
  /-- There are commits. -/
  nonempty : m.commits ≠ []
  /-- The history is linear. -/
  linear : r.history.IsLinear
  /-- The commits have the same hashes and messages. -/
  commits : r.history.commits.map (fun c => (c.hash, c.message)) =
    m.commits.map fun c => (c.hash, c.message.toUTF8)
  /-- No message starts with a newline, and none holds a NUL. -/
  messages : ∀ c ∈ m.commits, c.message.toList.head? ≠ some '\n' ∧ '\x00' ∉ c.message.toList
  /-- The same branch is checked out. -/
  head : r.head = .branch (.text m.branch)
  /-- The branch stands at the newest commit. -/
  newest : r.branch? (.text m.branch) = some (m.commits.length - 1)
  /-- The same tags stand on the same commits. -/
  tags : r.tags.Perm (m.tags.map fun t => (.text t.1, .commit t.2))
  /-- The names of the tags are valid. -/
  valid : ∀ t ∈ m.tags, GitRepository.resolveTagName t.1 = .ok t.1

namespace MemoryRepository.Mirrors

variable {m : MemoryRepository} {r : GitRepository} (h : m.Mirrors r)

include h

theorem size_eq : r.history.size = m.commits.length := by
  simpa [History.size] using congrArg List.length h.commits

theorem headCommit_eq : r.headCommit = .ok (m.commits.length - 1) := by
  rw [GitRepository.headCommit, h.head]
  simp [h.newest]

/-- The same branch is checked out. -/
theorem currentBranch_eq : r.currentBranch = .ok m.branch := by
  rw [GitRepository.currentBranch, h.headCommit_eq, h.head]
  rfl

/-! ### Tags -/

theorem nodup_tags : (m.tags.map Prod.fst).Nodup := by
  have hnames : (m.tags.map fun t => RefName.text t.1).Nodup := by
    simpa [Function.comp_def] using (h.tags.map Prod.fst).nodup_iff.1 r.tags_distinct
  refine List.Nodup.of_map RefName.text ?_
  simpa [Function.comp_def] using hnames

theorem mem_tags_iff {name : String} {target : TagTarget} :
    (.text name, target) ∈ r.tags ↔ ∃ i, (name, i) ∈ m.tags ∧ target = .commit i := by
  rw [h.tags.mem_iff, List.mem_map]
  constructor
  · rintro ⟨t, ht, heq⟩
    cases heq
    exact ⟨t.2, ht, rfl⟩
  · rintro ⟨i, hi, rfl⟩
    exact ⟨_, hi, rfl⟩

/-- A tag leads to the same commit. -/
theorem tagCommit_of_mem {name : String} {i : Nat} (hmem : (name, i) ∈ m.tags) :
    r.tagCommit name = .ok i :=
  GitRepository.tagCommit_eq_ok_iff.2 ⟨name, h.valid _ hmem,
    GitRepository.tag?_eq_some_iff.2 (h.mem_tags_iff.2 ⟨i, hmem, rfl⟩)⟩

/-- Tags stand on commits. -/
theorem lt_of_mem_tags {name : String} {i : Nat} (hmem : (name, i) ∈ m.tags) :
    i < m.commits.length := by
  have hwithin := r.tags_within _ (h.mem_tags_iff.2 ⟨i, hmem, rfl⟩)
  simpa [TagTarget.isWithin, h.size_eq] using hwithin

theorem mem_tagNames_iff {name : String} : name ∈ r.tagNames ↔ ∃ i, (name, i) ∈ m.tags := by
  rw [GitRepository.mem_tagNames]
  simp only [h.mem_tags_iff]
  exact ⟨fun ⟨_, i, hi, _⟩ => ⟨i, hi⟩, fun ⟨i, hi⟩ => ⟨_, i, hi, rfl⟩⟩

/-- All releases can be reached. -/
theorem isReachable_iff {f : TagFormat} {t : ReleaseTag} :
    r.IsReachable f (m.commits.length - 1) t ↔ t ∈ m.releases f := by
  rw [GitRepository.isReachable_iff h.headCommit_eq, mem_releases, h.mem_tagNames_iff]
  have hnames : t.name ∈ m.tags.map Prod.fst ↔ ∃ i, (t.name, i) ∈ m.tags := by simp
  rw [hnames]
  constructor
  · exact fun ⟨hmem, hread, _⟩ => ⟨hmem, hread⟩
  · rintro ⟨⟨i, hi⟩, hread⟩
    have hlt := h.lt_of_mem_tags hi
    have hhead := GitRepository.headCommit_lt h.headCommit_eq
    refine ⟨⟨i, hi⟩, hread, i, h.tagCommit_of_mem hi, ?_⟩
    rw [h.linear.reaches_iff hhead]
    omega

/-- The latest release is the same. -/
theorem latestTag_eq (f : TagFormat) : r.latestTag f = .ok (m.latestTag f) := by
  have hcommits : ∀ name ∈ r.tagNames, ∀ v, f.read? name = some v →
      ∃ i, r.tagCommit name = .ok i := by
    intro name hname v _
    obtain ⟨i, hi⟩ := h.mem_tagNames_iff.1 hname
    exact ⟨i, h.tagCommit_of_mem hi⟩
  obtain ⟨latest, hlatest⟩ := GitRepository.exists_latestTag h.headCommit_eq hcommits
  obtain ⟨head, hhead, hmem, hgreatest⟩ := GitRepository.latestTag_spec hlatest
  obtain rfl := Except.ok.inj (hhead.symm.trans h.headCommit_eq)
  have hgit : ReleaseTag.IsLatest (· ∈ m.releases f) latest :=
    ⟨fun t ht => h.isReachable_iff.1 (hmem t ht),
      fun u hu => hgreatest u (h.isReachable_iff.2 hu)⟩
  rw [hlatest, hgit.unique (m.isLatest_latestTag f) fun t ht => (mem_releases.1 ht).2]

/-! ### Commits -/

/-- The same is known of every commit. -/
theorem info?_eq (i : Nat) : r.info? i = m.commits[i]? := by
  rw [GitRepository.info?, ← List.getElem?_map, eq_of_map_eq h.commits h.messages]

/-- From some commit on, the same commits are known. -/
theorem infos_range' (k : Nat) :
    r.infos (List.range' k (m.commits.length - k)) = m.commits.drop k := by
  refine List.map_injective_iff.2 (Option.some_injective _) ?_
  rw [← GitRepository.map_info?]
  · refine List.ext_getElem (by simp) fun j _ _ => ?_
    simp [h.info?_eq]
  · intro i hi
    rw [List.mem_range'_1] at hi
    rw [h.size_eq]
    omega

/-- The commits since a tag are the same, if it is there. -/
theorem commitsSince_eq {tag : Option String} (htag : ∀ name ∈ tag, ∃ i, (name, i) ∈ m.tags) :
    r.commitsSince tag = m.commitsSince tag := by
  have hhead := GitRepository.headCommit_lt h.headCommit_eq
  have hlength : m.commits.length - 1 + 1 = m.commits.length :=
    Nat.sub_add_cancel (List.length_pos_iff.2 h.nonempty)
  cases tag with
  | none =>
    have hbase : (none : Option String).mapM r.tagCommit = .ok none := rfl
    rw [GitRepository.commitsSince_of_base h.headCommit_eq hbase,
      h.linear.walk_eq hhead (by simp), hlength]
    exact congrArg Except.ok (h.infos_range' 0)
  | some name =>
    obtain ⟨i, hi⟩ := htag name rfl
    have hbase := GitRepository.mapM_tagCommit (h.tagCommit_of_mem hi)
    have hwithin : ∀ b ∈ some i, b < r.history.size := by
      rintro _ ⟨⟩
      exact h.size_eq ▸ h.lt_of_mem_tags hi
    rw [GitRepository.commitsSince_of_base h.headCommit_eq hbase, h.linear.walk_eq hhead hwithin,
      hlength, commitsSince_of_mem h.nodup_tags hi]
    exact congrArg Except.ok (h.infos_range' (i + 1))

end MemoryRepository.Mirrors

namespace Decision

/-- **The same project is decided alike**, be it held in memory or by git: whatever the
configuration, branch and date are, the decision or the error is the same. -/
theorem make_mirrored {m : MemoryRepository} {r : GitRepository} (h : m.Mirrors r) (c : Config)
    (asked : Option String) (date : Date) : make r c asked date = make m c asked date := by
  refine make_congr ?_ h.latestTag_eq fun f previous hprevious => ?_
  · cases asked with
    | none => exact h.currentBranch_eq
    | some name => rfl
  · have hlatest : m.latestTag f = previous :=
      Except.ok.inj ((h.latestTag_eq f).symm.trans hprevious)
    refine h.commitsSince_eq fun name hname => ?_
    obtain ⟨t, ht, rfl⟩ := Option.map_eq_some_iff.1 hname
    have hmem := MemoryRepository.mem_releases.1
      (MemoryRepository.mem_releases_of_latestTag (hlatest ▸ ht))
    simpa using hmem.1

private theorem mirrors_candidate : candidateMemory.Mirrors candidateRepository where
  nonempty := List.cons_ne_nil _ _
  linear := by
    have hsize : candidateRepository.history.size = 2 := rfl
    intro i hi
    obtain rfl : i = 0 := by omega
    rfl
  commits := rfl
  messages := by decide +kernel
  head := rfl
  newest := rfl
  tags := .refl _
  valid := by
    intro t ht
    obtain rfl := List.mem_singleton.1 ht
    decide +kernel

/-- The correction after a candidate is released alike. -/
theorem make_mirrored_candidate : candidateMemory.Mirrors candidateRepository ∧ ∃ date p,
    make candidateRepository Config.standard none date = .ok (.release p) ∧
    make candidateMemory Config.standard none date = .ok (.release p) := by
  have date : Date := ⟨2024, 1, 1, by decide, by decide, by decide, by decide⟩
  have hmemory : candidateMemory.latestTag ⟨⟨"v", ""⟩⟩ = some candidate := by decide +kernel
  obtain ⟨p, hp⟩ := exists_plan_candidate (r := candidateMemory) rfl (congrArg _ hmemory) rfl date
  refine ⟨mirrors_candidate, date, p, ?_, hp⟩
  rw [make_mirrored mirrors_candidate, hp]

end Decision

end ReleaseCut
