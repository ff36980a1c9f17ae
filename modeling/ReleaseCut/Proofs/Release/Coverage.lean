import ReleaseCut.Proofs.Release.Layout
import ReleaseCut.Proofs.Release.Ledger

/-!
# Every commit is released once

`Run.releases_commits_once`: over the life of a project that starts without releases, the commits of
the tagged releases are all those that the last of them could reach, and none of them comes twice.

A commit is known by its number, since two commits may agree in all that a plan lists of them.
`Coverage` gives the numbers behind the plans. With every new tag the commits between the last
tagged commit and the one checked out are added: `Ledger.previous` says that the plan starts at that
commit, and the library that walks the history lists what one reaches and the other does not. This
is all that is asked of the library (`History.IsWalked`).
-/

namespace ReleaseCut

namespace GitRepository

/-- The commits of the given numbers, as plans list them. -/
def readCommits (r : GitRepository) (is : List Nat) : List Commit :=
  (r.infos is).map CommitInfo.toCommit

theorem readCommits_commitOn {r : GitRepository} {hash : String} {message : ByteArray}
    {parents is : List Nat} (h : ∀ i ∈ is, i < r.history.size) :
    (r.commitOn hash message parents).readCommits is = r.readCommits is := by
  rw [readCommits, readCommits, infos_commitOn h]

theorem readCommits_flatten (r : GitRepository) (parts : List (List Nat)) :
    r.readCommits parts.flatten = (parts.map r.readCommits).flatten := by
  induction parts with
  | nil => rfl
  | cons is parts ih =>
    rw [List.flatten_cons, List.map_cons, List.flatten_cons, ← ih]
    simp [readCommits, infos]

/-- Where no two commits have the same hash, different numbers give different hashes. -/
theorem nodup_hash_readCommits {r : GitRepository} {is : List Nat}
    (hdistinct : (r.history.commits.map (·.hash)).Nodup) (his : is.Nodup) :
    ((r.readCommits is).map (·.hash)).Nodup := by
  -- the hashes listed are picked out of all hashes by number
  have hhash : (r.readCommits is).map (·.hash) =
      is.filterMap fun i => (r.history.commits.map (·.hash))[i]? := by
    simp only [readCommits, infos, List.map_filterMap, Option.map_map, List.getElem?_map]
    rfl
  rw [hhash]
  refine his.filterMap fun i j s hi hj => ?_
  obtain ⟨hlt, hi⟩ := List.getElem?_eq_some_iff.1 hi
  obtain ⟨_, hj⟩ := List.getElem?_eq_some_iff.1 hj
  exact (hdistinct.getElem_inj_iff).1 (hi.trans hj.symm)

end GitRepository

/-- The numbers of the commits that were released, release by release. -/
structure Coverage (r : GitRepository) (ts : List Tagging) (parts : List (List Nat)) : Prop where
  /-- The plans list the commits of these numbers. -/
  listed : ts.map (·.plan.commits) = parts.map r.readCommits
  /-- No number comes twice, in one release or in two. -/
  nodup : parts.flatten.Nodup
  /-- The numbers are those of commits. -/
  within : ∀ is ∈ parts, ∀ j ∈ is, j < r.history.size
  /-- All commits that the last release could reach are released. -/
  covers : ∀ t ∈ ts.getLast?, ∃ head, t.before.headCommit = .ok head ∧ head < r.history.size ∧
    ∀ j, j ∈ parts.flatten ↔ r.history.Reaches head j

namespace Coverage

variable {r r' : GitRepository} {ts : List Tagging} {parts : List (List Nat)} {f : TagFormat}
  {c : Config} {date : Date} {p : Plan}

theorem start (r : GitRepository) : Coverage r [] [] where
  listed := rfl
  nodup := List.nodup_nil
  within := by simp
  covers := by simp

/-- A new commit is not released yet. -/
theorem commit (C : Coverage r ts parts) {hash : String} {message : ByteArray}
    {parents : List Nat} : Coverage (r.commitOn hash message parents) ts parts where
  listed := by
    rw [C.listed]
    exact List.map_congr_left fun is his =>
      (GitRepository.readCommits_commitOn (C.within is his)).symm
  nodup := C.nodup
  within := by
    intro is his j hj
    rw [GitRepository.history_commitOn, History.size_add]
    exact Nat.lt_succ_of_lt (C.within is his j hj)
  covers := by
    intro t ht
    obtain ⟨head, hhead, hlt, hmem⟩ := C.covers t ht
    rw [GitRepository.history_commitOn, History.size_add]
    exact ⟨head, hhead, Nat.lt_succ_of_lt hlt, fun j =>
      (hmem j).trans (History.reaches_add_iff hlt).symm⟩

variable [History.Walker]

/-- A plan starts at the commit tagged last, from which all that is released is reached. -/
private theorem exists_base (C : Coverage r ts parts) (L : Ledger f r ts)
    (hp : Decision.Planned r c f date p) (htag : r.createTag p.tag = .ok r') :
    ∃ head base, r.headCommit = .ok head ∧
      p.commits = r.readCommits (History.Walker.walk r.history head base) ∧
      (∀ b ∈ base, r.history.Reaches head b) ∧
      ∀ j, j ∈ parts.flatten ↔ ∃ b ∈ base, r.history.Reaches b j := by
  obtain ⟨infos, hinfos, hcommits⟩ := hp.commits
  obtain ⟨head, base, hhead, hbase, rfl⟩ := GitRepository.commitsSince_spec hinfos
  refine ⟨head, base, hhead, hcommits, ?_⟩
  rcases L.previous hp htag with ⟨rfl, hprevious, -⟩ |
    ⟨init, t, i, rfl, -, hprevious, hcommit, hi, -⟩
  · obtain rfl : none = base := by simpa [hprevious, pure, Except.pure] using hbase
    obtain rfl : parts = [] := by simpa using C.listed.symm
    simp
  · obtain rfl : some i = base := by
      rw [hprevious, Option.map_some, Option.mapM_some, hcommit] at hbase
      exact Except.ok.inj hbase
    -- the base is the commit tagged last
    obtain ⟨j, hj, -, hmem⟩ := C.covers t (by simp)
    obtain rfl : j = i := Except.ok.inj (hj.symm.trans hi)
    obtain ⟨k, head', hk, hhead', hreach⟩ := L.reached t (by simp)
    obtain rfl : k = j := Except.ok.inj (hk.symm.trans hj)
    obtain rfl : head' = head := Except.ok.inj (hhead'.symm.trans hhead)
    exact ⟨by simpa using hreach, by simpa using hmem⟩

/-- One more release is tagged. -/
theorem tag (C : Coverage r ts parts) (L : Ledger f r ts) (hwalk : r.history.IsWalked)
    (hp : Decision.Planned r c f date p) (htag : r.createTag p.tag = .ok r') :
    ∃ is, Coverage r' (ts ++ [⟨r, p, date⟩]) (parts ++ [is]) := by
  obtain ⟨head, base, hhead, hcommits, hbase, hmem⟩ := C.exists_base L hp htag
  obtain ⟨_, _, -, -, -, -, hhistory, -⟩ := GitRepository.createTag_spec htag
  have hlt := GitRepository.headCommit_lt hhead
  have hread : ∀ is, r'.readCommits is = r.readCommits is := by
    simp [GitRepository.readCommits, GitRepository.infos, hhistory]
  refine ⟨History.Walker.walk r.history head base, ?_, ?_, ?_, ?_⟩
  · simp [C.listed, hcommits, hread]
  · rw [List.flatten_append, List.flatten_singleton, List.nodup_append]
    refine ⟨C.nodup, hwalk.nodup hlt, ?_⟩
    rintro j hj _ hnew rfl
    -- a commit released before is reached from the base, so the walk leaves it out
    obtain ⟨b, hb, hreach⟩ := (hmem j).1 hj
    exact ((hwalk.mem_iff hlt j).1 hnew).2 b hb hreach
  · rw [hhistory]
    intro is his j hj
    rcases List.mem_append.1 his with his | his
    · exact C.within is his j hj
    · rw [List.mem_singleton.1 his, hwalk.mem_iff hlt] at hj
      exact Nat.lt_of_le_of_lt hj.1.le hlt
  · intro t ht
    obtain rfl : _ = t := by simpa using ht
    rw [hhistory]
    refine ⟨head, hhead, hlt, fun j => ?_⟩
    rw [List.flatten_append, List.flatten_singleton, List.mem_append, hmem, hwalk.mem_iff hlt]
    constructor
    · rintro (⟨b, hb, hreach⟩ | ⟨hreach, -⟩)
      · exact (hbase b hb).trans hreach
      · exact hreach
    · intro hreach
      -- what the last tagged commit reaches is released, the rest is new
      by_cases hold : ∃ b ∈ base, r.history.Reaches b j
      · exact .inl hold
      · exact .inr ⟨hreach, fun b hb hbj => hold ⟨b, hb, hbj⟩⟩

end Coverage

namespace Run

section Walked

variable [History.Walker] {c : Config} {changes : Disk → Disk → Prop}
  {w₀ w : Workspace GitRepository} {log : List Call}

/-- Every life of a project without releases at first has a coverage. -/
theorem exists_coverage {f : TagFormat} (hf : c.tagFormat = .ok f)
    (hnil : w₀.repository.releases f = []) (run : Run c changes w₀ log w)
    (hwalk : ∀ call ∈ log, call.before.repository.history.IsWalked) :
    ∃ parts, Coverage w.repository (taggings log) parts := by
  induction run with
  | start => exact ⟨[], .start _⟩
  | commit hash message parents hhead _ ih =>
    obtain ⟨parts, C⟩ := ih hwalk
    exact ⟨parts, C.commit⟩
  | files disk hchange _ ih => exact ih hwalk
  | @call log w q run ih =>
    obtain ⟨parts, C⟩ := ih fun call hcall => hwalk call (List.mem_append_left _ hcall)
    rcases w.taggings_call c q log with ⟨hsame, hlog⟩ | ⟨release, h, hlog⟩
    · rw [hsame, hlog]
      exact ⟨parts, C⟩
    · rw [hlog]
      obtain ⟨g, hp⟩ := h.planned
      obtain rfl : g = f := Except.ok.inj (hp.format.symm.trans hf)
      have hlast := hwalk _ (List.mem_append_right _ (List.mem_singleton_self _))
      obtain ⟨is, C'⟩ := C.tag (run.ledger hf hnil) hlast hp h.created
      exact ⟨_, C'⟩

/-- Without a tag format nothing is tagged. -/
theorem taggings_eq_nil (hf : ∀ f, c.tagFormat ≠ .ok f) (run : Run c changes w₀ log w) :
    taggings log = [] := by
  induction run with
  | start => rfl
  | commit _ _ _ _ _ ih => exact ih
  | files _ _ _ ih => exact ih
  | @call log w q _ ih =>
    rcases w.taggings_call c q log with ⟨-, hlog⟩ | ⟨release, h, -⟩
    · rw [hlog, ih]
    · obtain ⟨f, hp⟩ := h.planned
      exact absurd hp.format (hf f)

/-- **Every commit is released once.** In the life of a project that starts without releases, the
commits of the tagged releases are those that the last of them could reach, each in one release and
once. So where no two commits have the same hash, no hash is listed twice. This depends on the
library walking the history, whenever a release is called for, as it documents. -/
theorem releases_commits_once (hnil : ∀ f, c.tagFormat = .ok f → w₀.repository.releases f = [])
    (run : Run c changes w₀ log w)
    (hwalk : ∀ call ∈ log, call.before.repository.history.IsWalked) :
    ∃ parts : List (List Nat),
      (taggings log).map (·.plan.commits) = parts.map w.repository.readCommits ∧
      parts.flatten.Nodup ∧
      (∀ t ∈ (taggings log).getLast?, ∃ head, t.before.headCommit = .ok head ∧
        ∀ j, j ∈ parts.flatten ↔ w.repository.history.Reaches head j) ∧
      ((w.repository.history.commits.map (·.hash)).Nodup →
        (((taggings log).flatMap (·.plan.commits)).map (·.hash)).Nodup) := by
  have hcoverage : ∃ parts, Coverage w.repository (taggings log) parts := by
    cases hf : c.tagFormat with
    | error e =>
      rw [run.taggings_eq_nil (by simp [hf])]
      exact ⟨[], .start _⟩
    | ok f => exact run.exists_coverage hf (hnil f hf) hwalk
  obtain ⟨parts, C⟩ := hcoverage
  refine ⟨parts, C.listed, C.nodup, fun t ht => ?_, fun hdistinct => ?_⟩
  · obtain ⟨head, hhead, -, hmem⟩ := C.covers t ht
    exact ⟨head, hhead, hmem⟩
  · have hall : (taggings log).flatMap (·.plan.commits) =
        w.repository.readCommits parts.flatten := by
      rw [List.flatMap_def, C.listed, GitRepository.readCommits_flatten]
    rw [hall]
    exact GitRepository.nodup_hash_readCommits hdistinct C.nodup

end Walked

/-- Two tagged releases share out the commits of two branches. A call in between that finds nothing
to do takes none of them, and neither does one that is not to tag. -/
theorem releases_share_commits : ∃ log w first untagged second,
    Run (appConfig "v{version}") (WritesOutput (appConfig "v{version}") ⟨"/"⟩) appWorkspace log w ∧
    log.map (·.result) = [.ok (.released first),
      .ok (.skipped .noCommits [.noNewCommits "v1.0.0"]), .ok (.released untagged),
      .ok (.released second)] ∧
    untagged.tagged = false ∧
    (taggings log).map (·.plan) = [first.plan, second.plan] ∧
    first.plan.commits.map (·.hash) = ["c1"] ∧ second.plan.commits.map (·.hash) = ["c2", "c3"] ∧
    ∃ parts : List (List Nat), parts.flatten.Perm [0, 1, 2] ∧
      [first.plan.commits, second.plan.commits] = parts.map w.repository.readCommits := by
  obtain ⟨asset, text, run⟩ := exists_run_merged
  obtain ⟨asset', text', run⟩ := run.exists_release_app (q := nextRequest true) make_next
    rfl rfl rfl
  obtain ⟨asset'', text'', run⟩ := run.exists_release_app (q := nextRequest false) make_next
    rfl rfl createTag_next
  obtain ⟨parts, hcommits, hnodup, hmem, -⟩ :=
    releases_commits_once (fun _ _ => rfl) run fun _ _ => History.isWalked_standard _
  refine ⟨_, _, _, _, _, run, rfl, rfl, rfl, rfl, rfl, parts, ?_, hcommits⟩
  obtain ⟨head, hhead, hreach⟩ := hmem _ rfl
  obtain rfl : 2 = head := Except.ok.inj hhead
  -- the merge reaches all commits
  refine (List.perm_ext_iff_of_nodup hnodup (by decide)).2 fun j => ?_
  have hall : [0, 1, 2].Perm (mergedRepository.history.reachable 2) := by decide +kernel
  rw [hall.mem_iff, History.mem_reachable]
  exact (hreach j).trans (and_iff_right_of_imp fun h => Nat.lt_succ_of_le h.le).symm

end Run

end ReleaseCut
