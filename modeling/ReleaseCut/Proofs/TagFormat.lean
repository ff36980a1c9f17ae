import ReleaseCut.Proofs.Text.Occurrence
import ReleaseCut.Proofs.Version.Text
import ReleaseCut.TagFormat

/-!
# Tags and versions correspond

A format reads a version from a tag exactly if the tag is that of the version (`read?_eq_some_iff`),
so different versions have different tags (`write_injective`), and different tags name different
versions. This holds of every pattern that can be a format at all (`ofPattern?_corresponds`), also
where what stands around the version looks like a part of it.
-/

namespace ReleaseCut

namespace TagFormat

variable {f : TagFormat} {v w : Version} {tag : String}

/-- The tag of a version is read back. -/
@[simp] theorem read?_write (f : TagFormat) (v : Version) : f.read? (f.write v) = some v := by
  simp [read?, write]

/-- Only tags of versions are read. -/
theorem write_of_read? (h : f.read? tag = some v) : f.write v = tag := by
  obtain ⟨text, htext, hv⟩ := Option.bind_eq_some_iff.1 h
  rw [write, Version.text_of_ofText? hv, Text.Template.fill_of_extract? htext]

theorem read?_eq_some_iff : f.read? tag = some v ↔ f.write v = tag :=
  ⟨write_of_read?, fun h => h ▸ read?_write f v⟩

/-- Different versions have different tags. -/
theorem write_injective (f : TagFormat) : Function.Injective f.write := by
  intro v w h
  simpa using congrArg f.read? h

/-- A format is what stands around the placeholder of its pattern. -/
theorem write_of_ofPattern? {pattern before after : String} (h : ofPattern? pattern = some f)
    (hpattern : pattern.toList = before.toList ++ Text.placeholder ++ after.toList) (v : Version) :
    f.write v = before ++ v.text ++ after := by
  obtain ⟨t, ht, rfl⟩ := Option.map_eq_some_iff.1 h
  rw [write, Text.Template.eq_of_append ht hpattern]
  rfl

theorem exists_ofPattern?_iff {pattern : String} : (∃ f, ofPattern? pattern = some f) ↔
    Text.occurrences Text.placeholder pattern.toList = 1 := by
  rw [← Text.Template.exists_ofText?_iff]
  simp [ofPattern?]

/-- **Tags and versions correspond one to one**, whatever the pattern is. A pattern is a format
exactly if it holds the placeholder once. -/
theorem ofPattern?_corresponds (pattern : String) :
    ((∃ f, ofPattern? pattern = some f) ↔
      Text.occurrences Text.placeholder pattern.toList = 1) ∧
    ∀ f, ofPattern? pattern = some f →
      (∀ before after : String,
        pattern.toList = before.toList ++ Text.placeholder ++ after.toList →
        ∀ v, f.write v = before ++ v.text ++ after) ∧
      (∀ v, f.read? (f.write v) = some v) ∧
      (∀ tag v, f.read? tag = some v → f.write v = tag) ∧
      (∀ v w, f.write v = f.write w → v = w) ∧
      ∀ tag tag' v, f.read? tag = some v → f.read? tag' = some v → tag = tag' := by
  refine ⟨exists_ofPattern?_iff, fun f hf => ⟨fun before after => write_of_ofPattern? hf,
    read?_write f, fun tag v => write_of_read?, fun v w h => write_injective f h,
    fun tag tag' v h h' => ?_⟩⟩
  rw [← write_of_read? h, ← write_of_read? h']

/-- The pattern of the version that follows `1.` and is followed by `+x`, which could be read as
parts of the version. -/
theorem ofPattern?_corresponds_lookalike :
    ofPattern? "1.\x7bversion\x7d+x" = some ⟨⟨"1.", "+x"⟩⟩ ∧
    TagFormat.read? ⟨⟨"1.", "+x"⟩⟩ "1.1.0.0+x" = some (.release 1 0 0) ∧
    ∀ tag, TagFormat.read? ⟨⟨"1.", "+x"⟩⟩ tag = some (.release 1 0 0) → tag = "1.1.0.0+x" := by
  have hf : ofPattern? "1.\x7bversion\x7d+x" = some ⟨⟨"1.", "+x"⟩⟩ := by decide
  obtain ⟨-, hread, hwrite, -, -⟩ := (ofPattern?_corresponds _).2 _ hf
  have htag : TagFormat.write ⟨⟨"1.", "+x"⟩⟩ (.release 1 0 0) = "1.1.0.0+x" := by decide
  refine ⟨hf, ?_, fun tag h => ?_⟩
  · rw [← htag]
    exact hread _
  · rw [← hwrite tag _ h, htag]

end TagFormat

end ReleaseCut
