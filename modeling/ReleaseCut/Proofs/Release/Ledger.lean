import ReleaseCut.Proofs.Release.Run
import ReleaseCut.Proofs.Repository.LatestTag

/-!
# Tags and releases agree

`Ledger f r taggings` relates a repository to the releases that were tagged in it. It is empty at
first (`Ledger.start`), commits keep it (`Ledger.commit`), and it grows by one with every tag
(`Ledger.tag`); so it holds after every run (`Run.ledger`).

What carries it is that the tag last created is the latest one for the next plan
(`Ledger.previous`). That depends on the repository calling tags as the format writes them. Where it
does not, since the format is not tight, no tag is ever recognised. Then the next release would have
the first version again, whose tag exists, so there is at most one.
-/

namespace ReleaseCut

/-- An entry among the releases of a repository that stands for what was tagged. -/
def Tagging.StandsAs (f : TagFormat) (t : Tagging) (entry : ReleaseTag × TagTarget) : Prop :=
  entry.1 = ⟨f.write t.plan.version, t.plan.version⟩ ∧
    ∃ head, t.before.headCommit = .ok head ∧ entry.2 = .commit head

/-- How a repository and the releases tagged in it hang together. -/
structure Ledger (f : TagFormat) (r : GitRepository) (ts : List Tagging) : Prop where
  /-- The commits tagged are reached from the one checked out. -/
  reached : ∀ t ∈ ts, ∃ i head, t.before.headCommit = .ok i ∧ r.headCommit = .ok head ∧
    r.history.Reaches head i
  /-- Versions go up. -/
  increasing : ts.Pairwise fun t u => t.plan.version.Precedes u.plan.version
  /-- The first version is the initial one. -/
  first : ∀ t ∈ ts.head?, t.plan.version = .initial
  /-- If tags are called as the format writes them, they are the releases of the repository. -/
  kept : IsTight (f.write .initial) →
    ∀ entry, entry ∈ r.releases f ↔ ∃ t ∈ ts, t.StandsAs f entry
  /-- If not, the repository has no releases, and there is no second release. -/
  lost : ¬ IsTight (f.write .initial) → r.releases f = [] ∧
    (ts = [] ∨ ts.length = 1 ∧
      ∀ name, GitRepository.askedName (f.write .initial) = .ok name → r.tag? name ≠ none)

namespace Ledger

variable {f : TagFormat} {r r' : GitRepository} {ts : List Tagging} {c : Config} {date : Date}
  {p : Plan}

/-- Without releases there is nothing to agree on. -/
theorem start (h : r.releases f = []) : Ledger f r [] where
  reached := by simp
  increasing := .nil
  first := by simp
  kept := by simp [h]
  lost := by simp [h]

/-- A commit on top of the one checked out changes nothing. -/
theorem commit (L : Ledger f r ts) {hash : String} {message : ByteArray} {parents : List Nat}
    (hhead : ∀ head, r.headCommit = .ok head → head ∈ parents) :
    Ledger f (r.commitOn hash message parents) ts where
  reached := by
    intro t ht
    obtain ⟨i, head, hi, hr, hreach⟩ := L.reached t ht
    refine ⟨i, r.history.size, hi, GitRepository.headCommit_commitOn, ?_⟩
    rw [GitRepository.history_commitOn]
    exact History.reaches_add_size (GitRepository.headCommit_lt hr) (hhead head hr) hreach
  increasing := L.increasing
  first := L.first
  kept := by simpa using L.kept
  lost := by
    simpa [GitRepository.tag?] using L.lost

/-- Where tags are called as the format writes them, the tag created last is the latest one. -/
private theorem latest_of_append {init : List Tagging} {t : Tagging} {latest : Option ReleaseTag}
    (L : Ledger f r (init ++ [t])) (htight : IsTight (f.write .initial))
    (h : r.latestTag f = .ok latest) :
    ∃ i, latest = some ⟨f.write t.plan.version, t.plan.version⟩ ∧
      r.tagCommit (f.write t.plan.version) = .ok i ∧ t.before.headCommit = .ok i := by
  obtain ⟨i, head, hi, hhead, hreach⟩ := L.reached t (by simp)
  -- the tag created last can be reached
  have hmem : (⟨f.write t.plan.version, t.plan.version⟩, .commit i) ∈ r.releases f :=
    (L.kept htight _).2 ⟨t, by simp, rfl, i, hi, rfl⟩
  have htag := (GitRepository.mem_releases.1 hmem).1
  obtain ⟨j, hj⟩ := GitRepository.exists_tagCommit_of_latestTag h hmem
  obtain rfl := GitRepository.eq_of_tagCommit (TagFormat.isTight_write htight) htag hj
  obtain ⟨head', hhead', hreachable, hgreatest⟩ := GitRepository.latestTag_spec h
  obtain rfl : head' = head := Except.ok.inj (hhead'.symm.trans hhead)
  have hlast : r.IsReachable f head' ⟨f.write t.plan.version, t.plan.version⟩ := by
    refine ⟨GitRepository.mem_tagNames.2 ⟨_, htag⟩, TagFormat.read?_write .., j, hj, ?_⟩
    exact History.mem_reachable.2
      ⟨Nat.lt_of_le_of_lt hreach.le (GitRepository.headCommit_lt hhead), hreach⟩
  refine ⟨j, ?_, hj, hi⟩
  -- so the latest one is not smaller, while every tag created before is
  obtain ⟨l, hl, hle⟩ := hgreatest _ hlast
  obtain ⟨target, hlmem⟩ := (hreachable l hl).mem_releases
  obtain ⟨u, hu, hul, -⟩ := (L.kept htight _).1 hlmem
  change l = _ at hul
  rcases List.mem_append.1 hu with hu | hu
  · have hprecedes := (List.pairwise_append.1 L.increasing).2.2 u hu t (by simp)
    rw [hul] at hle
    exact absurd (.of_compare_isLE hle hprecedes) t.plan.version.not_precedes_self
  · rw [List.mem_singleton.1 hu] at hul
    exact hl.trans (congrArg some hul)

variable [History.Walker]

/-- The release before the next one is the one tagged last; a first release has none before it. -/
theorem previous (L : Ledger f r ts) (hp : Decision.Planned r c f date p)
    (htag : r.createTag p.tag = .ok r') :
    (ts = [] ∧ p.previous = none ∧ p.version = .initial) ∨
    ∃ init t i, ts = init ++ [t] ∧ IsTight (f.write .initial) ∧
      p.previous = some ⟨f.write t.plan.version, t.plan.version⟩ ∧
      r.tagCommit (f.write t.plan.version) = .ok i ∧ t.before.headCommit = .ok i ∧
      t.plan.version.Precedes p.version := by
  have hlatest : r.latestTag f = .ok p.previous := hp.latest
  -- without releases a first one is planned
  have hinitial : r.releases f = [] → p.previous = none ∧ p.version = .initial := by
    intro hnil
    have hnone := GitRepository.latestTag_eq_none hlatest hnil
    have hversion := hp.version
    rw [hnone] at hversion
    exact ⟨hnone, Bump.eq_initial_of_next? hversion⟩
  by_cases htight : IsTight (f.write .initial)
  · rcases List.eq_nil_or_concat' ts with rfl | ⟨init, t, rfl⟩
    · refine .inl ⟨rfl, hinitial ?_⟩
      rw [List.eq_nil_iff_forall_not_mem]
      intro entry hentry
      obtain ⟨t, ht, -⟩ := (L.kept htight entry).1 hentry
      cases ht
    · obtain ⟨i, hprevious, hcommit, hi⟩ := L.latest_of_append htight hlatest
      refine .inr ⟨init, t, i, rfl, htight, hprevious, hcommit, hi, ?_⟩
      have hversion := hp.version
      rw [hprevious] at hversion
      exact Bump.precedes_of_applyTo? hversion
  · obtain ⟨hnil, rfl | ⟨-, htaken⟩⟩ := L.lost htight
    · exact .inl ⟨rfl, hinitial hnil⟩
    · -- the tag of the first version exists already
      obtain ⟨head, name, -, hasked, hfree, -⟩ := GitRepository.createTag_spec htag
      rw [hp.tag, (hinitial hnil).2] at hasked
      exact absurd hfree (htaken name hasked)

/-- One more release is tagged. -/
theorem tag (L : Ledger f r ts) (hp : Decision.Planned r c f date p)
    (htag : r.createTag p.tag = .ok r') : Ledger f r' (ts ++ [⟨r, p, date⟩]) := by
  have hprevious := L.previous hp htag
  obtain ⟨head, name, hhead, hasked, hfree, htags, hhistory, hhead'⟩ :=
    GitRepository.createTag_spec htag
  rw [hp.tag] at htag
  obtain ⟨head₂, hhead₂, hreleases⟩ := GitRepository.releases_createTag htag
  obtain rfl : head₂ = head := Except.ok.inj (hhead₂.symm.trans hhead)
  refine ⟨?_, ?_, ?_, ?_, ?_⟩
  · intro t ht
    rw [hhistory]
    rcases List.mem_append.1 ht with ht | ht
    · obtain ⟨i, head', hi, hr, hreach⟩ := L.reached t ht
      obtain rfl : head' = head₂ := Except.ok.inj (hr.symm.trans hhead)
      exact ⟨i, head', hi, hhead', hreach⟩
    · obtain rfl := List.mem_singleton.1 ht
      exact ⟨head₂, head₂, hhead, hhead', .refl⟩
  · refine List.pairwise_append.2 ⟨L.increasing, List.pairwise_singleton _ _, ?_⟩
    intro u hu _ ht
    obtain rfl := List.mem_singleton.1 ht
    rcases hprevious with ⟨rfl, -⟩ | ⟨init, t, i, rfl, -, -, -, -, hlt⟩
    · cases hu
    · rcases List.mem_append.1 hu with hu | hu
      · have hbefore := (List.pairwise_append.1 L.increasing).2.2 u hu t (by simp)
        exact hbefore.trans hlt
      · exact List.mem_singleton.1 hu ▸ hlt
  · rcases hprevious with ⟨rfl, -, hinitial⟩ | ⟨init, t, i, rfl, -⟩
    · simpa using hinitial
    · have hfirst := L.first
      cases init with
      | nil => simpa using hfirst
      | cons u init => simpa using hfirst
  · intro htight entry
    rw [hreleases, if_pos (TagFormat.isTight_write htight), List.mem_append, L.kept htight]
    simp only [List.mem_append, List.mem_singleton, or_and_right, exists_or, exists_eq_left]
    refine or_congr_right ⟨?_, ?_⟩
    · rintro rfl
      exact ⟨rfl, head₂, hhead, rfl⟩
    · rintro ⟨hentry, i, hi, htarget⟩
      obtain rfl : i = head₂ := Except.ok.inj (hi.symm.trans hhead)
      exact Prod.ext hentry htarget
  · intro hloose
    obtain ⟨hnil, -⟩ := L.lost hloose
    rcases hprevious with ⟨rfl, -, hinitial⟩ | ⟨_, _, _, _, htight, -⟩
    · rw [hreleases, if_neg fun h => hloose (TagFormat.isTight_write h), hnil]
      refine ⟨rfl, .inr ⟨rfl, fun name' hname' => ?_⟩⟩
      rw [hp.tag, hinitial, hname'] at hasked
      obtain rfl := Except.ok.inj hasked
      have hmem : (.text name', .commit head₂) ∈ r'.tags := by simp [htags]
      simp [GitRepository.tag?_eq_some_iff.2 hmem]
    · exact absurd htight hloose

end Ledger

/-- The releases of a repository without any at first are those that were tagged. -/
theorem Run.ledger [History.Walker] {f : TagFormat} {c : Config} {changes : Disk → Disk → Prop}
    {w₀ w : Workspace GitRepository} {log : List Call} (hf : c.tagFormat = .ok f)
    (hnil : w₀.repository.releases f = []) (run : Run c changes w₀ log w) :
    Ledger f w.repository (taggings log) := by
  induction run with
  | start => exact .start hnil
  | commit hash message parents hhead _ ih => exact ih.commit hhead
  | files disk hchange _ ih => exact ih
  | @call log w q _ ih =>
    rcases w.taggings_call c q log with ⟨hsame, hlog⟩ | ⟨release, h, hlog⟩
    · rw [hsame, hlog]
      exact ih
    · rw [hlog]
      obtain ⟨g, hp⟩ := h.planned
      obtain rfl : g = f := Except.ok.inj (hp.format.symm.trans hf)
      exact ih.tag hp h.created

end ReleaseCut
