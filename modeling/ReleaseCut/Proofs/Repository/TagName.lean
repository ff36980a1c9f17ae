import ReleaseCut.Proofs.Except
import ReleaseCut.Proofs.TagFormat
import ReleaseCut.Repository.Git

/-!
# How a tag is called

A repository may call a new tag otherwise than the text that asked for it: slashes in front are
dropped, and slashes in a row become one. A text is `IsTight` if no slash stands at its ends or next
to another.

* Every tag is called by a tight name, and a tight text is its own name (`isTight_of_tagName?`,
  `eq_of_tagName?`). Whatever the text was, its name is found again (`resolveTagName_self`).
* Whether the tags of a format are tight does not depend on the version (`TagFormat.isTight_write`):
  the text of a version is not empty and holds no slash.
* So a new tag that the format recognises is called by the text that asked for it
  (`TagFormat.eq_of_recognised`).
-/

namespace ReleaseCut

/-- Whether no slash stands at the ends of a text or next to another. -/
def IsTight (text : String) : Prop :=
  [] ∉ Text.splitOn '/' text.toList

instance (text : String) : Decidable (IsTight text) :=
  inferInstanceAs (Decidable (¬ _))

/-! ### Names and texts -/

section TagName

variable {text name : String}

/-- The parts of a text between slashes, without the empty ones. -/
def refParts (text : String) : List (List Char) :=
  (Text.splitOn '/' text.toList).filter (!·.isEmpty)

theorem tagName?_eq_some_iff : tagName? text = some name ↔
    (∃ c, text.toList.getLast? = some c ∧ c ≠ '.' ∧ c ≠ '/') ∧
      (refParts text).all isRefPart = true ∧
      name = String.ofList (['/'].intercalate (refParts text)) := by
  rw [tagName?, ← refParts]
  split
  · next hlast => simp [hlast]
  · next hlast => simp [hlast]
  · next hlast => simp [hlast]
  · next c hdot hslash hlast =>
    have hc : ∃ c, text.toList.getLast? = some c ∧ c ≠ '.' ∧ c ≠ '/' :=
      ⟨c, hlast, fun h => hdot (h ▸ rfl), fun h => hslash (h ▸ rfl)⟩
    split
    · next hparts =>
      rw [and_iff_right hc, and_iff_right hparts, Option.some.injEq, eq_comm]
    · next hparts => simp [hparts]

/-- A text that does not end in a slash ends in a part. -/
private theorem exists_refParts_eq_concat {c : Char} (hlast : text.toList.getLast? = some c)
    (hc : c ≠ '/') : ∃ parts p, refParts text = parts ++ [p ++ [c]] := by
  obtain ⟨s, hs⟩ := List.getLast?_eq_some_iff.1 hlast
  obtain ⟨parts, p, hsplit⟩ := Text.exists_splitOn_eq_concat hc s
  refine ⟨parts.filter (!·.isEmpty), p, ?_⟩
  rw [refParts, hs, hsplit, List.filter_append, List.filter_cons_of_pos (by simp), List.filter_nil]

/-- Parts put together are split again, if there are any. -/
private theorem splitOn_refParts (hne : refParts text ≠ []) :
    Text.splitOn '/' (['/'].intercalate (refParts text)) = refParts text :=
  Text.splitOn_intercalate hne fun _ hp => Text.notMem_of_mem_splitOn (List.mem_filter.1 hp).1

/-- Every tag is called by a tight name. -/
theorem isTight_of_tagName? (h : tagName? text = some name) : IsTight name := by
  obtain ⟨⟨c, hlast, -, hslash⟩, -, rfl⟩ := tagName?_eq_some_iff.1 h
  obtain ⟨parts, p, hparts⟩ := exists_refParts_eq_concat hlast hslash
  rw [IsTight, String.toList_ofList, splitOn_refParts (by simp [hparts]), refParts]
  simp

/-- A tight text is its own name. -/
theorem eq_of_tagName? (htight : IsTight text) (h : tagName? text = some name) : name = text := by
  -- there are no empty parts to be dropped
  have hparts : refParts text = Text.splitOn '/' text.toList := by
    refine List.filter_eq_self.2 fun p hp => ?_
    cases p with
    | nil => exact absurd hp htight
    | cons => rfl
  obtain ⟨-, -, rfl⟩ := tagName?_eq_some_iff.1 h
  rw [hparts, Text.intercalate_splitOn, String.ofList_toList]

/-- What a tag is called by is its own name. -/
theorem tagName?_self (h : tagName? text = some name) : tagName? name = some name := by
  obtain ⟨⟨c, hlast, hdot, hslash⟩, hall, rfl⟩ := tagName?_eq_some_iff.1 h
  obtain ⟨parts, p, hparts⟩ := exists_refParts_eq_concat hlast hslash
  have hsame : refParts (String.ofList (['/'].intercalate (refParts text))) = refParts text := by
    rw [refParts, String.toList_ofList, splitOn_refParts (by simp [hparts]), refParts,
      List.filter_filter]
    simp
  rw [tagName?_eq_some_iff, hsame]
  refine ⟨⟨c, ?_, hdot, hslash⟩, hall, rfl⟩
  rw [String.toList_ofList, hparts, Text.getLast?_intercalate_concat]

/-- No name holds a character that is forbidden. -/
theorem notMem_of_tagName? {c : Char} (h : tagName? text = some name)
    (hc : isForbiddenInRef c = true) : c ∉ text.toList := by
  intro hmem
  have hne : c ≠ '/' := by
    rintro rfl
    exact absurd hc (by decide)
  obtain ⟨p, hp, hcp⟩ := Text.exists_mem_splitOn hmem hne
  have hpart : p ∈ refParts text := List.mem_filter.2 ⟨hp, by cases p <;> simp_all⟩
  have hisPart := List.all_eq_true.1 (tagName?_eq_some_iff.1 h).2.1 p hpart
  have hany : p.any isForbiddenInRef = true := List.any_eq_true.2 ⟨c, hcp, hc⟩
  simp [isRefPart, hany] at hisPart

/-- Slashes at the start make no difference. -/
theorem tagName?_dropWhile_slash (s : List Char) :
    tagName? (String.ofList (s.dropWhile (· == '/'))) = tagName? (String.ofList s) := by
  induction s with
  | nil => rfl
  | cons c s ih =>
    by_cases hc : c = '/'
    · subst hc
      rw [List.dropWhile_cons_of_pos (by decide), ih]
      cases s with
      | nil => rfl
      | cons d s => simp [tagName?, Text.splitOn]
    · rw [List.dropWhile_cons_of_neg (by simpa using hc)]

/-- A tight text starts with no slash. -/
theorem IsTight.dropWhile_slash (htight : IsTight text) :
    text.toList.dropWhile (· == '/') = text.toList := by
  rw [IsTight] at htight
  cases hs : text.toList with
  | nil => rfl
  | cons c s =>
    have hc : c ≠ '/' := by
      rintro rfl
      simp [hs, Text.splitOn] at htight
    simp [hc]

end TagName

namespace GitRepository

variable {r : GitRepository} {text name : String}

theorem tagName?_of_resolveTagName (h : resolveTagName text = .ok name) :
    tagName? text = some name := by
  rw [resolveTagName] at h
  split at h
  · cases h
  · split at h
    · next hname => cases h; exact hname
    · cases h

/-- What a tag is called by is found. -/
theorem resolveTagName_self (h : resolveTagName text = .ok name) :
    resolveTagName name = .ok name := by
  have hname := tagName?_self (tagName?_of_resolveTagName h)
  have hnul : name.toList.contains '\x00' = false := by
    simpa using notMem_of_tagName? hname (c := '\x00') (by decide)
  rw [resolveTagName, hnul, hname]
  rfl

/-- The name of the tag that a text asks to be created, whether or not the tag exists. -/
def askedName (text : String) : Except GitFault String :=
  if text.toList.contains '\x00' then .error .nulByte
  else if text.toList.head? == some '-' then .error (.leadingHyphen text)
  else resolveTagName (String.ofList (text.toList.dropWhile (· == '/')))

/-- A new tag has the name that is asked for, which no tag has yet. -/
theorem newTagName_eq_ok_iff :
    r.newTagName text = .ok name ↔ askedName text = .ok name ∧ r.tag? name = none := by
  have heq : r.newTagName text = askedName text >>= fun name =>
      if (r.tag? name).isSome then .error .tagExists else .ok name := by
    rw [newTagName, askedName]
    split
    · rfl
    · split <;> rfl
  rw [heq, Except.bind_eq_ok_iff]
  constructor
  · rintro ⟨name', hname, h⟩
    split at h
    · cases h
    · next hfree => cases h; exact ⟨hname, by simpa using hfree⟩
  · rintro ⟨hname, hfree⟩
    exact ⟨name, hname, by simp [hfree]⟩

/-- What is asked for has a tight name, and a tight text is its own name. -/
theorem askedName_spec (h : askedName text = .ok name) :
    IsTight name ∧ (IsTight text → name = text) := by
  rw [askedName] at h
  split at h
  · cases h
  · split at h
    · cases h
    · have hname := tagName?_of_resolveTagName h
      refine ⟨isTight_of_tagName? hname, fun htight => ?_⟩
      rw [htight.dropWhile_slash, String.ofList_toList] at hname
      exact eq_of_tagName? htight hname

/-- A name is found under the text that asked for it. -/
theorem resolveTagName_of_askedName (h : askedName text = .ok name) :
    resolveTagName text = .ok name := by
  rw [askedName] at h
  split at h
  · cases h
  · next hnul =>
    split at h
    · cases h
    · have hname := tagName?_of_resolveTagName h
      rw [tagName?_dropWhile_slash, String.ofList_toList] at hname
      rw [resolveTagName, if_neg hnul, hname]

end GitRepository

/-! ### Tags of a format -/

namespace TagFormat

variable {f : TagFormat} {v w : Version} {name : String}

/-- If the tag of one version is tight, then so are all tags of the format. -/
theorem isTight_write (h : IsTight (f.write v)) : IsTight (f.write w) := by
  have hslash : ∀ u : Version, '/' ∉ u.toList := by
    intro u hu
    have htext := Version.isTextChar_of_mem_toList hu
    exact absurd htext (by decide)
  have hne : ∀ u : Version, u.toList ≠ [] := by
    intro u
    simp [Version.toList]
  simp only [IsTight, write, Text.Template.fill, String.toList_append, Version.text,
    String.toList_ofList, List.append_assoc] at h ⊢
  rwa [(Text.nil_mem_splitOn_append_iff (hslash w) (hslash v) (hne w) (hne v)).1]

/-- A new tag that the format recognises is called by the text that asked for it. -/
theorem eq_of_recognised {u : Version} (h : GitRepository.askedName (f.write v) = .ok name)
    (hread : f.read? name = some u) : name = f.write v := by
  obtain ⟨htight, hkept⟩ := GitRepository.askedName_spec h
  rw [← write_of_read? hread] at htight
  exact hkept (isTight_write htight)

end TagFormat

end ReleaseCut
