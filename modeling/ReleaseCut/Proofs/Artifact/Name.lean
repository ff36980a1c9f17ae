import ReleaseCut.Artifact.Staging
import ReleaseCut.Proofs.Except
import ReleaseCut.Proofs.FileTree.Path
import ReleaseCut.Proofs.Glob.Escape
import ReleaseCut.Proofs.TagFormat

/-!
# Published names

A pattern makes up an artifact name exactly if it holds the placeholder once and no star
(`ArtifactName.exists_ofPattern_iff`). The publish glob then describes the names that start and end
like it (`ArtifactName.describes_iff`), the name for every version among them
(`describes_instantiate`), and a version is read from the name for it alone
(`releasedVersion?_eq_some_iff`). These three readings of a pattern agree (`ofPattern_agrees`) also
where what stands around the placeholder is special in globs.

If the pattern holds no slash, the name for a version is that of an entry of a directory
(`isEntryName_instantiate`). If it holds one, no entry has a name that the glob describes
(`not_describes_of_slash`).
-/

namespace ReleaseCut

namespace ArtifactName

variable {pattern n : String} {name : ArtifactName} {v : Version}

/-- What an artifact name is made of. -/
private theorem parts_of_ofPattern (h : ofPattern pattern = .ok name) :
    Text.Template.ofText? pattern = some name.template ∧
      name.publishGlob.tokens = name.template.before.toList.map Glob.charToken ++
        .run :: name.template.after.toList.map Glob.charToken := by
  rw [ofPattern] at h
  split at h
  · cases h
  · next t ht =>
    split at h
    · cases h
    · obtain ⟨g, hg, h⟩ := Except.bind_eq_ok_iff.1 h
      cases h
      rw [Glob.ofConfig, globPattern, Glob.parse_around_star] at hg
      obtain rfl := Except.ok.inj hg
      exact ⟨ht, rfl⟩

/-- The glob describes the names that start and end as the pattern does. -/
theorem describes_iff (h : ofPattern pattern = .ok name) : name.publishGlob.describes n = true ↔
    ∃ middle, n.toList = name.template.before.toList ++ middle ++ name.template.after.toList :=
  Glob.describes_around_star (parts_of_ofPattern h).2

theorem toList_instantiate : (name.instantiate v).toList =
    name.template.before.toList ++ v.toList ++ name.template.after.toList := by
  simp [instantiate, Text.Template.fill, Version.text]

/-- The name for a version is described. -/
theorem describes_instantiate (h : ofPattern pattern = .ok name) (v : Version) :
    name.publishGlob.describes (name.instantiate v) = true :=
  (describes_iff h).2 ⟨v.toList, toList_instantiate⟩

/-- A version is read from the name for it, and from no other one: names are read as tags are. -/
theorem releasedVersion?_eq_some_iff : name.releasedVersion? n = some v ↔ name.instantiate v = n :=
  TagFormat.read?_eq_some_iff (f := ⟨name.template⟩)

/-- A pattern is refused for a placeholder missing or repeated, and then for a star. No flaw is ever
found in the glob. -/
theorem ofPattern_eq_error_iff {e : ConfigError} : ofPattern pattern = .error e ↔
    Text.occurrences Text.placeholder pattern.toList ≠ 1 ∧ e = .badName pattern .placeholder ∨
    Text.occurrences Text.placeholder pattern.toList = 1 ∧ '*' ∈ pattern.toList ∧
      e = .badName pattern .wildcard := by
  rw [Ne, ← Text.Template.exists_ofText?_iff, ofPattern]
  cases ht : Text.Template.ofText? pattern with
  | none => simp [eq_comm]
  | some t =>
    have hglob : ∃ g, Glob.ofConfig (globPattern t) = .ok g := by
      rw [Glob.ofConfig, globPattern, Glob.parse_around_star]
      exact ⟨_, rfl⟩
    have hstar : (t.before.toList.contains '*' || t.after.toList.contains '*') = true ↔
        '*' ∈ pattern.toList := by
      have hplaceholder : '*' ∉ Text.placeholder := by decide
      simp [Text.Template.eq_of_ofText? ht, hplaceholder]
    obtain ⟨g, hg⟩ := hglob
    dsimp only
    by_cases h : '*' ∈ pattern.toList
    · rw [if_pos (hstar.2 h), Except.error.injEq]
      simp [h, eq_comm]
    · rw [if_neg (mt hstar.1 h), hg]
      simp [h]

theorem exists_ofPattern_iff : (∃ name, ofPattern pattern = .ok name) ↔
    Text.occurrences Text.placeholder pattern.toList = 1 ∧ '*' ∉ pattern.toList := by
  rw [Except.exists_eq_ok_iff]
  constructor
  · intro h
    have hone : Text.occurrences Text.placeholder pattern.toList = 1 := by_contra fun hne =>
      h _ (ofPattern_eq_error_iff.2 (.inl ⟨hne, rfl⟩))
    exact ⟨hone, fun hstar => h _ (ofPattern_eq_error_iff.2 (.inr ⟨hone, hstar, rfl⟩))⟩
  · rintro ⟨hone, hstar⟩ e he
    rcases ofPattern_eq_error_iff.1 he with ⟨hne, -⟩ | ⟨-, hmem, -⟩
    · exact hne hone
    · exact hstar hmem

/-- The name for a version, the glob and the version read from a name agree on what stands around
the version. -/
structure IsAround (name : ArtifactName) (before after : String) : Prop where
  /-- The name for a version is the version in between. -/
  instantiate_eq : ∀ v, name.instantiate v = before ++ v.text ++ after
  /-- The glob describes the names with any text in between. -/
  describes_iff : ∀ n, name.publishGlob.describes n = true ↔ ∃ middle, n = before ++ middle ++ after
  /-- So it describes the name for every version. -/
  describes_instantiate : ∀ v, name.publishGlob.describes (name.instantiate v) = true
  /-- From this name the version is read back. -/
  releasedVersion?_instantiate : ∀ v, name.releasedVersion? (name.instantiate v) = some v
  /-- It is read from no other name. -/
  eq_instantiate : ∀ n v, name.releasedVersion? n = some v → n = name.instantiate v

private theorem isAround_of_ofPattern {before after : String} (h : ofPattern pattern = .ok name)
    (hpattern : pattern.toList = before.toList ++ Text.placeholder ++ after.toList) :
    name.IsAround before after := by
  have htemplate := Text.Template.eq_of_append (parts_of_ofPattern h).1 hpattern
  constructor
  case instantiate_eq =>
    intro v
    rw [instantiate, htemplate]
    rfl
  case describes_iff =>
    intro n
    rw [describes_iff h, htemplate]
    constructor
    · rintro ⟨middle, hmiddle⟩
      exact ⟨String.ofList middle, String.toList_inj.1 (by simpa using hmiddle)⟩
    · rintro ⟨middle, rfl⟩
      exact ⟨middle.toList, by simp⟩
  case describes_instantiate => exact describes_instantiate h
  case releasedVersion?_instantiate => exact fun v => releasedVersion?_eq_some_iff.2 rfl
  case eq_instantiate => exact fun n v hn => (releasedVersion?_eq_some_iff.1 hn).symm

/-- **The readings of an artifact name agree**, whatever stands around the version. A pattern is a
name exactly if it holds the placeholder once and no star. -/
theorem ofPattern_agrees (pattern : String) :
    ((∃ name, ofPattern pattern = .ok name) ↔
      Text.occurrences Text.placeholder pattern.toList = 1 ∧ '*' ∉ pattern.toList) ∧
    ∀ name before after, ofPattern pattern = .ok name →
      pattern.toList = before.toList ++ Text.placeholder ++ after.toList →
      name.IsAround before after :=
  ⟨exists_ofPattern_iff, fun _ _ _ => isAround_of_ofPattern⟩

/-- A name of characters that are special in patterns, and of a start that the end overlaps. -/
theorem ofPattern_agrees_brackets : ∃ name, ofPattern "[!a]-\x7bversion\x7d-[!a]?" = .ok name ∧
    "[!a]-\x7bversion\x7d-[!a]?".toList =
      "[!a]-".toList ++ Text.placeholder ++ "-[!a]?".toList ∧
    name.publishGlob.describes "[!a]-/.1-[!a]?" = true ∧
    name.publishGlob.describes "[!a]-[!a]?" = false ∧
    name.releasedVersion? "[!a]-1.0.0-[!a]?" = some (.release 1 0 0) := by
  have hpattern : "[!a]-\x7bversion\x7d-[!a]?".toList =
      "[!a]-".toList ++ Text.placeholder ++ "-[!a]?".toList := by decide
  obtain ⟨hexists, hagrees⟩ := ofPattern_agrees "[!a]-\x7bversion\x7d-[!a]?"
  obtain ⟨name, hname⟩ := hexists.2 (by decide)
  have h := hagrees name "[!a]-" "-[!a]?" hname hpattern
  refine ⟨name, hname, hpattern, (h.describes_iff _).2 ⟨"/.1", by decide⟩, ?_, ?_⟩
  · rw [Bool.eq_false_iff, Ne, h.describes_iff]
    rintro ⟨middle, hmiddle⟩
    -- the end overlaps the start
    have hlength := congrArg (·.toList.length) hmiddle
    have hstart : "[!a]-".toList.length = 5 := by decide
    have hend : "-[!a]?".toList.length = 6 := by decide
    have hboth : "[!a]-[!a]?".toList.length = 10 := by decide
    simp only [String.toList_append, List.length_append, hstart, hend, hboth] at hlength
    omega
  · have hversion : name.instantiate (.release 1 0 0) = "[!a]-1.0.0-[!a]?" := by
      rw [h.instantiate_eq]
      decide
    rw [← hversion]
    exact h.releasedVersion?_instantiate _

private theorem slash_mem_iff (h : ofPattern pattern = .ok name) : '/' ∈ pattern.toList ↔
    '/' ∈ name.template.before.toList ∨ '/' ∈ name.template.after.toList := by
  have hplaceholder : '/' ∉ Text.placeholder := by decide
  simp [Text.Template.eq_of_ofText? (parts_of_ofPattern h).1, hplaceholder]

/-- A pattern without a slash gives names of entries. -/
theorem isEntryName_instantiate (h : ofPattern pattern = .ok name) (hslash : '/' ∉ pattern.toList)
    (v : Version) : IsEntryName (name.instantiate v) := by
  rw [slash_mem_iff h, not_or] at hslash
  -- a version has a digit and two dots at least, so the name is longer than the dot names
  have hlength : 3 ≤ (name.instantiate v).toList.length := by
    have hdigits : ∀ n, 0 < (Version.component n).length := fun n => Nat.length_toDigits_pos
    have := hdigits v.major
    rw [toList_instantiate, Version.toList]
    simp only [List.length_append, List.length_cons]
    omega
  refine ⟨?_, ?_, ?_, ?_⟩
  · rintro hempty
    simp [hempty] at hlength
  · rw [toList_instantiate]
    simp only [List.mem_append, not_or]
    exact ⟨⟨hslash.1, fun hv => absurd (Version.isTextChar_of_mem_toList hv) (by decide)⟩, hslash.2⟩
  · rintro hdot
    simp [hdot] at hlength
  · rintro hdots
    simp [hdots] at hlength

/-- A pattern with a slash describes no name of an entry. -/
theorem not_describes_of_slash (h : ofPattern pattern = .ok name) (hslash : '/' ∈ pattern.toList)
    (hn : '/' ∉ n.toList) : name.publishGlob.describes n = false := by
  rw [← Bool.not_eq_true, describes_iff h]
  rintro ⟨middle, hmiddle⟩
  rw [hmiddle] at hn
  rcases (slash_mem_iff h).1 hslash with hmem | hmem <;> simp [hmem] at hn

end ArtifactName

end ReleaseCut
