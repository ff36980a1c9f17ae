import Mathlib.Data.List.Nodup
import ReleaseCut.Proofs.Repository.TagName

/-!
# Tags of a repository

`GitRepository.releases` lists the tags that a format recognises, with what they name.

* A new tag is the last tag, stands on the commit checked out and changes nothing else
  (`createTag_spec`). If the format recognises it, it is called by the text that asked for it, and
  one more release is listed; if not, the releases stay as they are (`releases_createTag`).
* `GitRepository.tagCommit` finds the commit of a release that has a tight name
  (`eq_of_tagCommit`). It finds a new tag where that was put, and the others where they were
  (`tagCommit_self_createTag`, `tagCommit_createTag`). So it is in every later state that keeps the
  commits and the tags (`Keeps`).
-/

namespace ReleaseCut

theorem ReleaseTag.read?_eq_some_iff {f : TagFormat} {name : String} {t : ReleaseTag} :
    ReleaseTag.read? f name = some t ↔ f.read? name = some t.version ∧ t.name = name := by
  rw [ReleaseTag.read?, Option.map_eq_some_iff]
  constructor
  · rintro ⟨v, hv, rfl⟩
    exact ⟨hv, rfl⟩
  · rintro ⟨hv, rfl⟩
    exact ⟨t.version, hv, rfl⟩

/-- Where no two entries have the same key, the one found under a key is the one that has it. -/
theorem find?_key_eq_some_iff {α β : Type} [BEq α] [LawfulBEq α] {entries : List (α × β)}
    (hnodup : (entries.map Prod.fst).Nodup) {key : α} {value : β} :
    entries.find? (·.1 == key) = some (key, value) ↔ (key, value) ∈ entries := by
  refine ⟨List.mem_of_find?_eq_some, fun hmem => ?_⟩
  cases hfind : entries.find? (·.1 == key) with
  | none => exact absurd (List.find?_eq_none.1 hfind _ hmem) (by simp)
  | some entry =>
    have hkey : entry.1 = key := by simpa using List.find?_some hfind
    exact congrArg some
      (List.inj_on_of_nodup_map hnodup (List.mem_of_find?_eq_some hfind) hmem hkey)

namespace GitRepository

variable {r r' : GitRepository} {f : TagFormat} {text name : String} {v : Version}
  {t : ReleaseTag} {target : TagTarget} {i j head : Nat}

/-! ### Looking up tags -/

/-- A name leads to the one tag of that name. -/
theorem tag?_eq_some_iff : r.tag? name = some target ↔ (.text name, target) ∈ r.tags := by
  rw [← find?_key_eq_some_iff r.tags_distinct, tag?, Option.map_eq_some_iff]
  constructor
  · rintro ⟨⟨key, _⟩, hfind, rfl⟩
    obtain rfl : key = .text name := by simpa using List.find?_some hfind
    exact hfind
  · exact fun hfind => ⟨_, hfind, rfl⟩

theorem tag?_eq_none_iff : r.tag? name = none ↔ ∀ target, (.text name, target) ∉ r.tags := by
  simp only [Option.eq_none_iff_forall_ne_some, Ne, tag?_eq_some_iff]

theorem mem_tagNames : name ∈ r.tagNames ↔ ∃ target, (.text name, target) ∈ r.tags := by
  simp only [tagNames, List.mem_filterMap, List.mem_mergeSort, List.mem_map]
  constructor
  · rintro ⟨n, ⟨⟨n', target⟩, hmem, rfl⟩, hn⟩
    cases n' with
    | text n' => exact ⟨target, Option.some.inj hn ▸ hmem⟩
    | raw bytes => cases hn
  · rintro ⟨target, hmem⟩
    exact ⟨.text name, ⟨_, hmem, rfl⟩, rfl⟩

theorem tagCommit_eq_ok_iff : r.tagCommit name = .ok i ↔
    ∃ resolved, resolveTagName name = .ok resolved ∧ r.tag? resolved = some (.commit i) := by
  rw [tagCommit, findTag]
  cases resolveTagName name with
  | error fault => simp [bind, Except.bind]
  | ok resolved =>
    cases htag : r.tag? resolved with
    | none => simp [bind, Except.bind, htag]
    | some target => cases target <;> simp [bind, Except.bind, htag]

/-- The commit found under a tight name is that of the tag. -/
theorem eq_of_tagCommit (htight : IsTight name) (hmem : (.text name, .commit i) ∈ r.tags)
    (h : r.tagCommit name = .ok j) : j = i := by
  obtain ⟨resolved, hname, htag⟩ := tagCommit_eq_ok_iff.1 h
  rw [eq_of_tagName? htight (tagName?_of_resolveTagName hname), tag?_eq_some_iff.2 hmem] at htag
  simpa [eq_comm] using htag

/-! ### Releases -/

/-- The release that a tag names. -/
def release? (f : TagFormat) : RefName × TagTarget → Option (ReleaseTag × TagTarget)
  | (name, target) => (name.text?.bind (ReleaseTag.read? f)).map (·, target)

/-- The tags that a format recognises, oldest first, with what they name. -/
def releases (r : GitRepository) (f : TagFormat) : List (ReleaseTag × TagTarget) :=
  r.tags.filterMap (release? f)

theorem mem_releases : (t, target) ∈ r.releases f ↔
    (.text t.name, target) ∈ r.tags ∧ f.read? t.name = some t.version := by
  rw [releases, List.mem_filterMap]
  constructor
  · rintro ⟨⟨name, target'⟩, hmem, h⟩
    obtain ⟨t', ht, heq⟩ := Option.map_eq_some_iff.1 h
    cases heq
    obtain ⟨text, htext, hread⟩ := Option.bind_eq_some_iff.1 ht
    obtain ⟨hread, rfl⟩ := ReleaseTag.read?_eq_some_iff.1 hread
    cases name with
    | text name => cases htext; exact ⟨hmem, hread⟩
    | raw bytes => cases htext
  · rintro ⟨hmem, hread⟩
    refine ⟨_, hmem, ?_⟩
    simp [release?, RefName.text?, ReleaseTag.read?_eq_some_iff.2 ⟨hread, rfl⟩]

/-! ### New tags -/

/-- A tag of a new name comes last. -/
theorem tags_setTag {name : RefName} (hwithin : target.isWithin r.history.size = true)
    (hnew : ∀ target, (name, target) ∉ r.tags) :
    (r.setTag name target).tags = r.tags ++ [(name, target)] := by
  -- no tag of the name is there to be replaced
  have hkept : r.tags.filter (·.1 != name) = r.tags := by
    refine List.filter_eq_self.2 fun t ht => ?_
    rw [bne_iff_ne]
    intro h
    exact hnew t.2 (h ▸ ht)
  simp only [setTag, hwithin, dite_true, hkept]

theorem setTag_frame (r : GitRepository) (name : RefName) (target : TagTarget) :
    (r.setTag name target).history = r.history ∧ (r.setTag name target).branches = r.branches ∧
      (r.setTag name target).head = r.head := by
  rw [setTag]
  split <;> exact ⟨rfl, rfl, rfl⟩

/-- A new tag is the last one and stands on the commit checked out. Nothing else changes. -/
theorem createTag_spec (h : r.createTag text = .ok r') :
    ∃ head name, r.headCommit = .ok head ∧ askedName text = .ok name ∧ r.tag? name = none ∧
      r'.tags = r.tags ++ [(.text name, .commit head)] ∧ r'.history = r.history ∧
      r'.headCommit = .ok head := by
  obtain ⟨head, hhead, h⟩ := Except.bind_eq_ok_iff.1 h
  split at h
  · cases h
  · next name hname =>
    cases h
    obtain ⟨hasked, hfree⟩ := newTagName_eq_ok_iff.1 hname
    obtain ⟨hhistory, hbranches, hhd⟩ := r.setTag_frame (.text name) (.commit head)
    refine ⟨head, name, hhead, hasked, hfree, ?_, hhistory, ?_⟩
    · exact tags_setTag (decide_eq_true (headCommit_lt hhead)) (tag?_eq_none_iff.1 hfree)
    · rw [← hhead, headCommit, headCommit, hhd]
      simp only [branch?, hbranches]

/-- A later state of a repository, where no commit was added since, the same one is checked out and
all tags stand where they stood. -/
structure Keeps (r r' : GitRepository) : Prop where
  /-- The commits are the same. -/
  history : r'.history = r.history
  /-- The commit checked out is the same. -/
  headCommit : r'.headCommit = r.headCommit
  /-- The tags are still there. -/
  tags : ∀ t ∈ r.tags, t ∈ r'.tags

theorem Keeps.refl (r : GitRepository) : r.Keeps r :=
  ⟨rfl, rfl, fun _ ht => ht⟩

theorem Keeps.trans {r'' : GitRepository} (h : r.Keeps r') (h' : r'.Keeps r'') : r.Keeps r'' where
  history := h'.history.trans h.history
  headCommit := h'.headCommit.trans h.headCommit
  tags t ht := h'.tags t (h.tags t ht)

/-- Tags still lead to their commits. -/
theorem Keeps.tagCommit (h : r.Keeps r') (hcommit : r.tagCommit name = .ok i) :
    r'.tagCommit name = .ok i := by
  obtain ⟨resolved, hname, htag⟩ := tagCommit_eq_ok_iff.1 hcommit
  exact tagCommit_eq_ok_iff.2
    ⟨resolved, hname, tag?_eq_some_iff.2 (h.tags _ (tag?_eq_some_iff.1 htag))⟩

theorem keeps_createTag (h : r.createTag text = .ok r') : r.Keeps r' := by
  obtain ⟨head, _, hhead, -, -, htags, hhistory, hhead'⟩ := createTag_spec h
  refine ⟨hhistory, hhead'.trans hhead.symm, fun t ht => ?_⟩
  rw [htags]
  exact List.mem_append_left _ ht

/-- However many tags are created, the state is kept. -/
theorem keeps_of_foldlM_createTag {names : List String}
    (h : names.foldlM createTag r = .ok r') : r.Keeps r' := by
  induction names generalizing r with
  | nil =>
    obtain rfl : r = r' := Except.ok.inj h
    exact .refl r
  | cons name names ih =>
    obtain ⟨r₁, hfirst, hrest⟩ := Except.bind_eq_ok_iff.1 h
    exact (keeps_createTag hfirst).trans (ih hrest)

/-- A new tag does not change the branch checked out. -/
theorem currentBranch_createTag (h : r.createTag text = .ok r') :
    r'.currentBranch = r.currentBranch := by
  obtain ⟨head, _, hhead, -, -, -, -, hhead'⟩ := createTag_spec h
  have hsame : r'.head = r.head := by
    obtain ⟨_, -, h⟩ := Except.bind_eq_ok_iff.1 h
    split at h
    · cases h
    · cases h
      exact (r.setTag_frame _ _).2.2
  rw [currentBranch, currentBranch, hhead, hhead', hsame]

/-- A new tag adds its name, if that is tight. -/
theorem mem_tagNames_createTag (htight : IsTight text) (h : r.createTag text = .ok r') :
    name ∈ r'.tagNames ↔ name ∈ r.tagNames ∨ name = text := by
  obtain ⟨head, asked, -, hasked, -, htags, -, -⟩ := createTag_spec h
  obtain rfl := (askedName_spec hasked).2 htight
  simp only [mem_tagNames, htags, List.mem_append, List.mem_singleton, Prod.mk.injEq,
    RefName.text.injEq, exists_or, exists_and_left, exists_eq, and_true]

/-- Tags found before are found after a new one was created. -/
theorem tagCommit_createTag (h : r.createTag text = .ok r') (hcommit : r.tagCommit name = .ok i) :
    r'.tagCommit name = .ok i :=
  (keeps_createTag h).tagCommit hcommit

/-- A new tag is found under the text that asked for it, however it is called. -/
theorem tagCommit_self_createTag (hhead : r.headCommit = .ok head)
    (h : r.createTag text = .ok r') : r'.tagCommit text = .ok head := by
  obtain ⟨head', name, hhead', hasked, -, htags, -, -⟩ := createTag_spec h
  obtain rfl : head' = head := Except.ok.inj (hhead'.symm.trans hhead)
  refine tagCommit_eq_ok_iff.2
    ⟨name, resolveTagName_of_askedName hasked, tag?_eq_some_iff.2 ?_⟩
  simp [htags]

/-- With a tag of a format one more release is listed, unless the tag is called otherwise and the
format does not recognise it. -/
theorem releases_createTag (h : r.createTag (f.write v) = .ok r') :
    ∃ head, r.headCommit = .ok head ∧ r'.releases f = r.releases f ++
      if IsTight (f.write v) then [(⟨f.write v, v⟩, .commit head)] else [] := by
  obtain ⟨head, name, hhead, hname, -, htags, -, -⟩ := createTag_spec h
  refine ⟨head, hhead, ?_⟩
  rw [releases, htags, List.filterMap_append, releases]
  congr 1
  split
  · next htight =>
    obtain rfl := (askedName_spec hname).2 htight
    simp [release?, RefName.text?, ReleaseTag.read?]
  · next hloose =>
    -- a tag that is called otherwise is not recognised
    have hnone : f.read? name = none := by
      refine Option.eq_none_iff_forall_ne_some.2 fun u hu => hloose ?_
      exact TagFormat.eq_of_recognised hname hu ▸ (askedName_spec hname).1
    simp [release?, RefName.text?, ReleaseTag.read?, hnone]

end GitRepository

end ReleaseCut
