import ReleaseCut.Proofs.History.Reachability
import ReleaseCut.Proofs.Repository.Tags
import ReleaseCut.Proofs.Version.Order

/-!
# The latest release

`GitRepository.latestTag` goes through the names of tags one by one and keeps the release of the
greatest version among those that can be reached from the commit checked out.

* `latestTag_spec`: what it gives is such a release, and no other one has a greater version; it
  gives none only where there is none. Any other order of the names would do
  (`isLatest_of_foldlM`).
* `ReleaseTag.IsLatest.unique`: there is one such release only, since versions that compare equal
  are equal and a format writes a version in one way.
* `exists_latestTag`: it gives something where all tags that the format recognises lead to commits.
* `latestTag_createTag`: a new tag becomes the latest one.
-/

namespace ReleaseCut

/-! ### The latest release -/

/-- A release is the latest of some releases. -/
structure ReleaseTag.IsLatest (among : ReleaseTag → Prop) (latest : Option ReleaseTag) : Prop where
  /-- It is one of them. -/
  mem : ∀ t ∈ latest, among t
  /-- None of them has a greater version; without a latest one there is none. -/
  greatest : ∀ u, among u → ∃ t ∈ latest, (compare u.version t.version).isLE

/-- There is only one latest release, if a format reads the versions. -/
theorem ReleaseTag.IsLatest.unique {f : TagFormat} {among : ReleaseTag → Prop}
    {latest latest' : Option ReleaseTag} (h : IsLatest among latest) (h' : IsLatest among latest')
    (hread : ∀ t, among t → f.read? t.name = some t.version) : latest = latest' := by
  cases latest with
  | none =>
    refine (Option.eq_none_iff_forall_not_mem.2 fun t ht => ?_).symm
    obtain ⟨_, ⟨⟩, -⟩ := h.greatest t (h'.mem t ht)
  | some t =>
    obtain ⟨t', ht', hle⟩ := h'.greatest t (h.mem t rfl)
    obtain ⟨_, ⟨⟩, hge⟩ := h.greatest t' (h'.mem t' ht')
    -- neither is behind the other, and a version is written under one name only
    have hversion : t.version = t'.version :=
      Std.LawfulEqOrd.eq_of_compare (Std.OrientedCmp.isLE_antisymm hle hge)
    have hname : t.name = t'.name := by
      rw [← TagFormat.write_of_read? (hread t (h.mem t rfl)),
        ← TagFormat.write_of_read? (hread t' (h'.mem t' ht')), hversion]
    cases t
    cases t'
    cases hversion
    cases hname
    exact ht'.symm

/-! ### Git repositories -/

namespace GitRepository

variable {r : GitRepository} {f : TagFormat} {head : Nat} {t : ReleaseTag}

/-- A release whose commit can be reached from a given one. -/
structure IsReachable (r : GitRepository) (f : TagFormat) (head : Nat) (t : ReleaseTag) : Prop where
  /-- A tag has the name. -/
  mem_tagNames : t.name ∈ r.tagNames
  /-- The format reads the version from the name. -/
  read : f.read? t.name = some t.version
  /-- The tag leads to a commit that can be reached. -/
  reached : ∃ i, r.tagCommit t.name = .ok i ∧ i ∈ r.history.reachable head

/-- A release that can be reached is a release of the repository. -/
theorem IsReachable.mem_releases (h : r.IsReachable f head t) :
    ∃ target, (t, target) ∈ r.releases f := by
  obtain ⟨target, hmem⟩ := GitRepository.mem_tagNames.1 h.mem_tagNames
  exact ⟨target, GitRepository.mem_releases.2 ⟨hmem, h.read⟩⟩

theorem isReachable_iff (hhead : r.headCommit = .ok head) : r.IsReachable f head t ↔
    t.name ∈ r.tagNames ∧ f.read? t.name = some t.version ∧
      ∃ i, r.tagCommit t.name = .ok i ∧ r.history.Reaches head i := by
  have hreached : ∀ i, i ∈ r.history.reachable head ↔ r.history.Reaches head i := by
    intro i
    rw [History.mem_reachable, and_iff_right_iff_imp]
    exact fun h => Nat.lt_of_le_of_lt h.le (headCommit_lt hhead)
  simp only [← hreached]
  exact ⟨fun h => ⟨h.mem_tagNames, h.read, h.reached⟩, fun h => ⟨h.1, h.2.1, h.2.2⟩⟩

/-- A release that could be reached can be reached in a later state. -/
theorem Keeps.isReachable {r' : GitRepository} (h : r.Keeps r') (ht : r.IsReachable f head t) :
    r'.IsReachable f head t where
  mem_tagNames := by
    obtain ⟨target, hmem⟩ := GitRepository.mem_tagNames.1 ht.mem_tagNames
    exact GitRepository.mem_tagNames.2 ⟨target, h.tags _ hmem⟩
  read := ht.read
  reached := by
    obtain ⟨i, hi, hreached⟩ := ht.reached
    exact ⟨i, h.tagCommit hi, h.history ▸ hreached⟩

/-- What a list of names comes to, where `latest` was kept from the names before. -/
private structure Kept (r : GitRepository) (f : TagFormat) (head : Nat) (names : List String)
    (latest result : Option ReleaseTag) : Prop where
  /-- The result was kept before or is a release of one of the names. -/
  mem : ∀ t ∈ result, t ∈ latest ∨
    t.name ∈ names ∧ f.read? t.name = some t.version ∧
      ∃ i, r.tagCommit t.name = .ok i ∧ i ∈ r.history.reachable head
  /-- What was kept before is not greater. -/
  latest_le : ∀ l ∈ latest, ∃ t ∈ result, (compare l.version t.version).isLE
  /-- No release of the names is greater. -/
  le : ∀ u : ReleaseTag, u.name ∈ names → f.read? u.name = some u.version →
    (∃ i, r.tagCommit u.name = .ok i ∧ i ∈ r.history.reachable head) →
    ∃ t ∈ result, (compare u.version t.version).isLE

/-- A single name. -/
private theorem kept_of_considerTag {name : String} {latest result : Option ReleaseTag}
    (h : r.considerTag f (r.history.reachable head) latest name = .ok result) :
    Kept r f head [name] latest result := by
  rw [considerTag] at h
  split at h
  · next hread =>
    cases h
    refine ⟨fun t ht => .inl ht, fun l hl => ⟨l, hl, by simp⟩, fun u hu hur _ => ?_⟩
    rw [List.mem_singleton.1 hu] at hur
    simp [ReleaseTag.read?, hur] at hread
  · next t hread =>
    obtain ⟨htread, rfl⟩ := ReleaseTag.read?_eq_some_iff.1 hread
    rw [Except.bind_eq_ok_iff] at h
    obtain ⟨i, hcommit, h⟩ := h
    -- the only release of the name is `t`
    have honly : ∀ u : ReleaseTag, u.name ∈ [t.name] → f.read? u.name = some u.version →
        u.version = t.version := by
      intro u hu hur
      rw [List.mem_singleton.1 hu, htread] at hur
      exact (Option.some.inj hur).symm
    split at h
    · next hunreached =>
      cases h
      refine ⟨fun t ht => .inl ht, fun l hl => ⟨l, hl, by simp⟩, fun u hu _ hreach => ?_⟩
      obtain ⟨j, hj, hmem⟩ := hreach
      rw [List.mem_singleton.1 hu, hcommit] at hj
      cases hj
      simp [hmem] at hunreached
    · next hreached =>
      have hreach : ∃ i, r.tagCommit t.name = .ok i ∧ i ∈ r.history.reachable head :=
        ⟨i, hcommit, by simpa using hreached⟩
      split at h
      · cases h
        refine ⟨?_, by simp, fun u hu hur _ => ⟨t, rfl, by simp [honly u hu hur]⟩⟩
        rintro _ ⟨⟩
        exact .inr ⟨List.mem_singleton_self _, htread, hreach⟩
      · next l =>
        cases h
        split
        · next hgt =>
          refine ⟨?_, ?_, fun u hu hur _ => ⟨t, rfl, by simp [honly u hu hur]⟩⟩
          · rintro _ ⟨⟩
            exact .inr ⟨List.mem_singleton_self _, htread, hreach⟩
          · rintro _ ⟨⟩
            refine ⟨t, rfl, ?_⟩
            have hswap : compare l.version t.version = (compare t.version l.version).swap :=
              Std.OrientedCmp.eq_swap
            rw [hswap, hgt]
            rfl
        · next hle =>
          refine ⟨fun t ht => .inl ht, fun l hl => ⟨l, hl, by simp⟩, fun u hu hur _ => ?_⟩
          refine ⟨l, rfl, ?_⟩
          rw [honly u hu hur]
          cases hcmp : compare t.version l.version <;> simp_all

/-- The names together. -/
private theorem kept_of_foldlM {names : List String} {latest result : Option ReleaseTag}
    (h : names.foldlM (r.considerTag f (r.history.reachable head)) latest = .ok result) :
    Kept r f head names latest result := by
  induction names generalizing latest with
  | nil =>
    obtain rfl : latest = result := by simpa [pure, Except.pure] using h
    exact ⟨fun t ht => .inl ht, fun l hl => ⟨l, hl, by simp⟩, by simp⟩
  | cons name names ih =>
    rw [List.foldlM_cons] at h
    obtain ⟨middle, hstep, h⟩ := Except.bind_eq_ok_iff.1 h
    have hfirst := kept_of_considerTag hstep
    have hrest := ih h
    refine ⟨?_, ?_, ?_⟩
    · intro t ht
      rcases hrest.mem t ht with ht | ⟨hmem, hprops⟩
      · rcases hfirst.mem t ht with ht | ⟨hmem, hprops⟩
        · exact .inl ht
        · exact .inr ⟨List.mem_cons.2 (.inl (List.mem_singleton.1 hmem)), hprops⟩
      · exact .inr ⟨List.mem_cons_of_mem _ hmem, hprops⟩
    · intro l hl
      obtain ⟨m, hm, hlm⟩ := hfirst.latest_le l hl
      obtain ⟨t, ht, hmt⟩ := hrest.latest_le m hm
      exact ⟨t, ht, Std.TransCmp.isLE_trans hlm hmt⟩
    · intro u hu hread hreach
      rcases List.mem_cons.1 hu with hu | hu
      · obtain ⟨m, hm, hum⟩ := hfirst.le u (List.mem_singleton.2 hu) hread hreach
        obtain ⟨t, ht, hmt⟩ := hrest.latest_le m hm
        exact ⟨t, ht, Std.TransCmp.isLE_trans hum hmt⟩
      · exact hrest.le u hu hread hreach

/-- A name that the format recognises leads to a commit, or there is no result. -/
private theorem exists_tagCommit_of_foldlM {names : List String}
    {latest result : Option ReleaseTag} {name : String} {v : Version}
    (h : names.foldlM (r.considerTag f (r.history.reachable head)) latest = .ok result)
    (hmem : name ∈ names) (hread : f.read? name = some v) : ∃ i, r.tagCommit name = .ok i := by
  induction names generalizing latest with
  | nil => cases hmem
  | cons n names ih =>
    rw [List.foldlM_cons] at h
    obtain ⟨middle, hstep, h⟩ := Except.bind_eq_ok_iff.1 h
    rcases List.mem_cons.1 hmem with rfl | hmem
    · simp only [considerTag, ReleaseTag.read?, hread, Option.map_some] at hstep
      obtain ⟨i, hi, -⟩ := Except.bind_eq_ok_iff.1 hstep
      exact ⟨i, hi⟩
    · exact ih h hmem

/-- Where there is a latest release or none, all tags that the format recognises lead to commits. -/
theorem exists_tagCommit_of_latestTag {latest : Option ReleaseTag} {target : TagTarget}
    (h : r.latestTag f = .ok latest) (hmem : (t, target) ∈ r.releases f) :
    ∃ i, r.tagCommit t.name = .ok i := by
  obtain ⟨htag, hread⟩ := mem_releases.1 hmem
  obtain ⟨head, -, h⟩ := Except.bind_eq_ok_iff.1 h
  exact exists_tagCommit_of_foldlM h (mem_tagNames.2 ⟨target, htag⟩) hread

/-- Names that all lead to commits come to something. -/
theorem exists_foldlM_considerTag {reachable : List Nat} {names : List String}
    (hcommits : ∀ name ∈ names, ∀ v, f.read? name = some v → ∃ i, r.tagCommit name = .ok i)
    (latest : Option ReleaseTag) :
    ∃ result, names.foldlM (r.considerTag f reachable) latest = .ok result := by
  induction names generalizing latest with
  | nil => exact ⟨latest, rfl⟩
  | cons name names ih =>
    rw [List.forall_mem_cons] at hcommits
    obtain ⟨middle, hmiddle⟩ : ∃ middle, r.considerTag f reachable latest name = .ok middle := by
      rw [considerTag]
      split
      · exact ⟨latest, rfl⟩
      · next t hread =>
        obtain ⟨i, hi⟩ := hcommits.1 _ (ReleaseTag.read?_eq_some_iff.1 hread).1
        rw [hi]
        dsimp only [bind, Except.bind]
        split
        · exact ⟨latest, rfl⟩
        · split <;> exact ⟨_, rfl⟩
    obtain ⟨result, hresult⟩ := ih hcommits.2 middle
    exact ⟨result, by rw [List.foldlM_cons, hmiddle]; exact hresult⟩

/-- Where all tags that the format recognises lead to commits, there is a latest release or none. -/
theorem exists_latestTag (hhead : r.headCommit = .ok head)
    (hcommits : ∀ name ∈ r.tagNames, ∀ v, f.read? name = some v → ∃ i, r.tagCommit name = .ok i) :
    ∃ latest, r.latestTag f = .ok latest := by
  obtain ⟨latest, h⟩ := exists_foldlM_considerTag hcommits none
  exact ⟨latest, Except.bind_eq_ok_iff.2 ⟨head, hhead, h⟩⟩

/-- Whatever the order of the names, they come to the latest release that can be reached. -/
theorem isLatest_of_foldlM {names : List String} {latest : Option ReleaseTag}
    (hnames : ∀ name, name ∈ names ↔ name ∈ r.tagNames)
    (h : names.foldlM (r.considerTag f (r.history.reachable head)) none = .ok latest) :
    ReleaseTag.IsLatest (r.IsReachable f head) latest where
  mem t ht := by
    rcases (kept_of_foldlM h).mem t ht with hnone | ⟨hmem, hread, hreach⟩
    · cases hnone
    · exact ⟨(hnames _).1 hmem, hread, hreach⟩
  greatest u hu := (kept_of_foldlM h).le u ((hnames _).2 hu.mem_tagNames) hu.read hu.reached

/-- The latest release is one that can be reached, and none of those is greater. -/
theorem latestTag_spec {latest : Option ReleaseTag} (h : r.latestTag f = .ok latest) :
    ∃ head, r.headCommit = .ok head ∧ (∀ t ∈ latest, r.IsReachable f head t) ∧
      ∀ u, r.IsReachable f head u → ∃ t ∈ latest, (compare u.version t.version).isLE := by
  obtain ⟨head, hhead, h⟩ := Except.bind_eq_ok_iff.1 h
  have hlatest := isLatest_of_foldlM (fun _ => Iff.rfl) h
  exact ⟨head, hhead, hlatest.mem, hlatest.greatest⟩

/-- Without releases there is no latest one. -/
theorem latestTag_eq_none {latest : Option ReleaseTag} (h : r.latestTag f = .ok latest)
    (hnil : r.releases f = []) : latest = none := by
  obtain ⟨head, -, hreachable, -⟩ := latestTag_spec h
  refine Option.eq_none_iff_forall_not_mem.2 fun t ht => ?_
  obtain ⟨target, hmem⟩ := (hreachable t ht).mem_releases
  simp [hnil] at hmem

theorem latestTag_of_releases_eq_nil (hhead : r.headCommit = .ok head)
    (hnil : r.releases f = []) : r.latestTag f = .ok none := by
  have hnone : ∀ name ∈ r.tagNames, ∀ v, f.read? name = some v → ∃ i, r.tagCommit name = .ok i := by
    intro name hmem v hread
    obtain ⟨target, htag⟩ := mem_tagNames.1 hmem
    have hrelease : (⟨name, v⟩, target) ∈ r.releases f := mem_releases.2 ⟨htag, hread⟩
    simp [hnil] at hrelease
  obtain ⟨latest, hlatest⟩ := exists_latestTag hhead hnone
  rw [hlatest, latestTag_eq_none hlatest hnil]

/-! ### A new tag -/

section NewTag

variable {r' : GitRepository} {latest : Option ReleaseTag} {tag : String} {v : Version}

/-- Names that led to commits still lead there. -/
private theorem exists_tagCommit_createTag (h : r.createTag tag = .ok r')
    (hlatest : r.latestTag f = .ok latest) {name : String} {u : Version}
    (hmem : name ∈ r.tagNames) (hread : f.read? name = some u) :
    ∃ i, r.tagCommit name = .ok i ∧ r'.tagCommit name = .ok i := by
  obtain ⟨target, htarget⟩ := mem_tagNames.1 hmem
  obtain ⟨i, hi⟩ := exists_tagCommit_of_latestTag hlatest
    (mem_releases (t := ⟨name, u⟩) |>.2 ⟨htarget, hread⟩)
  exact ⟨i, hi, tagCommit_createTag h hi⟩

/-- With a new tag there is a latest release, as there was before. -/
theorem exists_latestTag_createTag (htight : IsTight tag) (hhead : r.headCommit = .ok head)
    (h : r.createTag tag = .ok r') (hlatest : r.latestTag f = .ok latest) :
    ∃ latest', r'.latestTag f = .ok latest' := by
  obtain ⟨head', _, -, -, -, -, -, hhead'⟩ := createTag_spec h
  refine exists_latestTag hhead' fun name hmem u hread => ?_
  rcases (mem_tagNames_createTag htight h).1 hmem with hmem | rfl
  · obtain ⟨i, -, hi⟩ := exists_tagCommit_createTag h hlatest hmem hread
    exact ⟨i, hi⟩
  · exact ⟨head, tagCommit_self_createTag hhead h⟩

/-- The release of the new tag can be reached. -/
theorem isReachable_self_createTag (htight : IsTight tag) (hread : f.read? tag = some v)
    (hhead : r.headCommit = .ok head) (h : r.createTag tag = .ok r') :
    r'.IsReachable f head ⟨tag, v⟩ := by
  have hhead' : r'.headCommit = .ok head := (keeps_createTag h).headCommit.trans hhead
  exact (isReachable_iff hhead').2 ⟨(mem_tagNames_createTag htight h).2 (.inr rfl), hread, head,
    tagCommit_self_createTag hhead h, .refl⟩

/-- Besides the releases of before, that of the new tag can be reached. -/
private theorem isReachable_createTag (htight : IsTight tag) (hread : f.read? tag = some v)
    (hhead : r.headCommit = .ok head) (h : r.createTag tag = .ok r')
    (hlatest : r.latestTag f = .ok latest) :
    r'.IsReachable f head t ↔ r.IsReachable f head t ∨ t = ⟨tag, v⟩ := by
  constructor
  · have hkeeps := keeps_createTag h
    rw [isReachable_iff hhead, isReachable_iff (hkeeps.headCommit.trans hhead),
      mem_tagNames_createTag htight h, hkeeps.history]
    rintro ⟨hmem | hname, ht, i, hi, hreaches⟩
    · obtain ⟨j, hj, hj'⟩ := exists_tagCommit_createTag h hlatest hmem ht
      obtain rfl : i = j := Except.ok.inj (hi.symm.trans hj')
      exact .inl ⟨hmem, ht, i, hj, hreaches⟩
    · obtain ⟨name, u⟩ := t
      obtain rfl : name = tag := hname
      obtain rfl : u = v := Option.some.inj (ht.symm.trans hread)
      exact .inr rfl
  · rintro (ht | rfl)
    · exact (keeps_createTag h).isReachable ht
    · exact isReachable_self_createTag htight hread hhead h

/-- **A new tag becomes the latest one**, if it is newer than the releases that could be reached. -/
theorem latestTag_createTag (h : r.createTag tag = .ok r') (htight : IsTight tag)
    (hread : f.read? tag = some v) (hlatest : r.latestTag f = .ok latest)
    (hhead : r.headCommit = .ok head)
    (hnewer : ∀ t, r.IsReachable f head t → t.version.Precedes v) :
    r'.latestTag f = .ok (some ⟨tag, v⟩) := by
  obtain ⟨latest', hlatest'⟩ := exists_latestTag_createTag htight hhead h hlatest
  obtain ⟨head₁, hhead₁, hreachable, hgreatest⟩ := latestTag_spec hlatest'
  obtain ⟨head₂, _, hhead₂, -, -, -, -, hhead₂'⟩ := createTag_spec h
  obtain rfl : head₂ = head := Except.ok.inj (hhead₂.symm.trans hhead)
  obtain rfl : head₁ = head₂ := Except.ok.inj (hhead₁.symm.trans hhead₂')
  have hnow : ∀ t, r'.IsReachable f head₁ t ↔ r.IsReachable f head₁ t ∨ t = ⟨tag, v⟩ :=
    fun t => isReachable_createTag htight hread hhead h hlatest
  obtain ⟨l, hl, hle⟩ := hgreatest ⟨tag, v⟩ ((hnow _).2 (.inr rfl))
  rw [hlatest', Option.mem_def.1 hl]
  rcases (hnow l).1 (hreachable l hl) with hold | rfl
  · -- an old release that can be reached is not that new
    exact absurd (.of_compare_isLE hle (hnewer l hold)) v.not_precedes_self
  · rfl

end NewTag

end GitRepository

end ReleaseCut
