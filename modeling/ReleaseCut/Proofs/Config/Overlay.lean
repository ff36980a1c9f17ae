import ReleaseCut.Config.Document
import ReleaseCut.Proofs.Except
import ReleaseCut.Proofs.Section

/-!
# Partial configurations

A document may leave out keys of a configuration. `Config.Writes` says what the documents are that
write out some keys of a configuration: they have the entries under these keys and no others that
are known, in any order and with any spellings of the titles. Such a document is read as the
configuration that has these keys in common with the one it was written from, and is standard
otherwise (`Config.ofValue_of_writes`).

A text in the order of sections that spells no title spoils the document, whatever else it holds
(`Config.exists_ofValue_eq_error`).
-/

namespace ReleaseCut

/-! ### Records -/

/-- Entries written out of those of a whole record: the ones under the kept keys, in any order and
among entries under keys that are not known. -/
def IsExcerpt (keys kept : List String) (full part : List (String × Value)) : Prop :=
  ∃ unknown, (∀ e ∈ unknown, e.1 ∉ keys) ∧ part.Perm (full.filter (·.1 ∈ kept) ++ unknown)

section Records

variable {keys kept : List String} {full part : List (String × Value)}

/-- Of the known keys, those that are kept are written. -/
theorem IsExcerpt.mem_keys_iff (h : IsExcerpt keys kept full part)
    (hfull : full.map Prod.fst = keys) {key : String} (hkey : key ∈ keys) :
    key ∈ part.map Prod.fst ↔ key ∈ kept := by
  obtain ⟨unknown, hunknown, hperm⟩ := h
  have hother : ∀ v, (key, v) ∉ unknown := fun v hmem => hunknown _ hmem hkey
  obtain ⟨⟨_, v⟩, hmem, rfl⟩ := List.mem_map.1 (hfull ▸ hkey)
  rw [(hperm.map _).mem_iff]
  simp only [List.mem_map, List.mem_append, List.mem_filter, decide_eq_true_eq, Prod.exists,
    exists_and_right, exists_eq_right, hother, or_false, exists_and_right]
  exact and_iff_right ⟨v, hmem⟩

/-- What is written comes from the record or is not known. -/
theorem IsExcerpt.mem_or (h : IsExcerpt keys kept full part) {e : String × Value} (he : e ∈ part) :
    e ∈ full ∨ e.1 ∉ keys := by
  obtain ⟨unknown, hunknown, hperm⟩ := h
  rcases List.mem_append.1 (hperm.mem_iff.1 he) with he | he
  · exact .inl (List.mem_filter.1 he).1
  · exact .inr (hunknown e he)

variable {α : Type} {set : α → String × Value → Except DocumentFault α} {fill : List String → α → α}

/-- Entries are set one by one. -/
theorem foldlM_set (hnil : ∀ x, fill [] x = x)
    (hcons : ∀ key ks x, fill ks (fill [key] x) = fill (key :: ks) x)
    (hset : ∀ e ∈ part, ∀ x, set x e = .ok (fill [e.1] x)) (x : α) :
    part.foldlM set x = .ok (fill (part.map Prod.fst) x) := by
  induction part generalizing x with
  | nil => exact congrArg Except.ok (hnil x).symm
  | cons e part ih =>
    rw [List.forall_mem_cons] at hset
    rw [List.foldlM_cons, Except.bind_eq_ok_iff]
    exact ⟨_, hset.1 x, by rw [ih hset.2, hcons, List.map_cons]⟩

/-- Setting the entries of an excerpt sets the kept keys. -/
theorem foldlM_set_of_isExcerpt (hnil : ∀ x, fill [] x = x)
    (hcons : ∀ key ks x, fill ks (fill [key] x) = fill (key :: ks) x)
    (hcongr : ∀ ks ks' x, (∀ key ∈ keys, key ∈ ks ↔ key ∈ ks') → fill ks x = fill ks' x)
    (hfull : full.map Prod.fst = keys) (hknown : ∀ e ∈ full, ∀ x, set x e = .ok (fill [e.1] x))
    (hunknown : ∀ e, e.1 ∉ keys → ∀ x, set x e = .ok x) (h : IsExcerpt keys kept full part)
    (x : α) : part.foldlM set x = .ok (fill kept x) := by
  have hset : ∀ e ∈ part, ∀ x, set x e = .ok (fill [e.1] x) := by
    intro e he x
    rcases h.mem_or he with hmem | hkey
    · exact hknown e hmem x
    · rw [hunknown e hkey, ← hcongr [] [e.1] x fun key hmem => ?_, hnil]
      exact iff_of_false (by simp) fun heq => hkey (List.mem_singleton.1 heq ▸ hmem)
  rw [foldlM_set hnil hcons hset, hcongr _ kept x fun key hkey => h.mem_keys_iff hfull hkey]

end Records

/-! ### Artifacts -/

namespace ArtifactConfig

/-- The artifact with some keys of another one. -/
def overlay (c : ArtifactConfig) (kept : List String) (base : ArtifactConfig) : ArtifactConfig where
  outputDir := if "output_dir" ∈ kept then c.outputDir else base.outputDir
  extension := if "extension" ∈ kept then c.extension else base.extension
  excludePattern := if "exclude_pattern" ∈ kept then c.excludePattern else base.excludePattern
  namePattern := if "name_pattern" ∈ kept then c.namePattern else base.namePattern
  label := if "label" ∈ kept then c.label else base.label

/-- A table writes out some keys of an artifact. -/
inductive Writes (c : ArtifactConfig) (kept : List String) : Value → Prop
  /-- The entries are an excerpt of all entries. -/
  | table {full part : List (String × Value)} (hfull : c.toValue = .table full)
      (hpart : IsExcerpt keys kept full part) : Writes c kept (.table part)

variable {c x : ArtifactConfig} {kept ks ks' : List String} {v : Value}

theorem overlay_overlay (key : String) :
    c.overlay ks (c.overlay [key] x) = c.overlay (key :: ks) x := by
  simp only [overlay, List.mem_cons, mk.injEq, List.not_mem_nil, or_false]
  grind

theorem overlay_congr (h : ∀ key ∈ keys, key ∈ ks ↔ key ∈ ks') :
    c.overlay ks x = c.overlay ks' x := by
  simp only [keys, List.forall_mem_cons] at h
  simp [overlay, h]

theorem overlay_of_forall_mem (h : ∀ key ∈ keys, key ∈ kept) : c.overlay kept x = c := by
  simp only [keys, List.forall_mem_cons] at h
  simp [overlay, h]

theorem set_of_notMem {e : String × Value} (h : e.1 ∉ keys) (x : ArtifactConfig) :
    x.set e = .ok x := by
  unfold set
  split
  case h_6 => rfl
  all_goals simp [keys] at h

theorem ofValue_of_writes (h : c.Writes kept v) : ofValue v = .ok (c.overlay kept standard) := by
  obtain ⟨hfull, hpart⟩ := h
  cases hfull
  refine foldlM_set_of_isExcerpt (fun x => by simp [overlay]) (fun key ks x => overlay_overlay key)
    (fun ks ks' x => overlay_congr) rfl ?_ (fun e => set_of_notMem) hpart standard
  simp only [List.forall_mem_cons]
  exact ⟨fun x => rfl, fun x => rfl, fun x => rfl, fun x => rfl, fun x => rfl, nofun⟩

/-- The whole table is written. -/
theorem writes_toValue (c : ArtifactConfig) : c.Writes keys c.toValue :=
  .table rfl ⟨[], nofun, by simp [keys]⟩

end ArtifactConfig

/-! ### Configurations -/

theorem Value.mapM_asText (texts : List String) : (texts.map .text).mapM asText = .ok texts :=
  Except.mapM_eq_ok_of_forall₂
    (List.forall₂_map_left_iff.2 (List.forall₂_same.2 fun _ _ => rfl))

theorem Section.ofValue_text {s : Section} {text : String} (h : s.IsSpelling text) :
    Section.ofValue (.text text) = .ok s := by
  rw [ofValue, Value.asText]
  simp only [ofText?_eq_some_iff.2 h, bind, Except.bind]

/-- Spellings of titles are read as the sections that they spell. -/
theorem Section.mapM_ofValue {order : List Section} {titles : List String}
    (h : List.Forall₂ IsSpelling order titles) : (titles.map .text).mapM ofValue = .ok order :=
  Except.mapM_eq_ok_of_forall₂
    (List.forall₂_map_left_iff.2 (h.imp fun _ _ => ofValue_text).flip)

namespace Config

/-- The configuration with some keys of another one. -/
def overlay (c : Config) (kept : List String) (base : Config) : Config where
  branches := if "branches" ∈ kept then c.branches else base.branches
  tagPattern := if "tag_format" ∈ kept then c.tagPattern else base.tagPattern
  releaseMessage := if "release_message" ∈ kept then c.releaseMessage else base.releaseMessage
  changelogFile := if "changelog_file" ∈ kept then c.changelogFile else base.changelogFile
  sectionOrder := if "section_order" ∈ kept then c.sectionOrder else base.sectionOrder
  artifact := if "artifact" ∈ kept then c.artifact else base.artifact

/-- What has some keys in common with a configuration, also of the artifact, and is standard
otherwise. -/
def keeping (c : Config) (kept keptOfArtifact : List String) : Config :=
  { c with artifact := c.artifact.overlay keptOfArtifact .standard }.overlay kept standard

/-- An entry with other spellings of the titles and another table of the artifact. -/
def rewrite (titles : List String) (artifact : Value) : String × Value → String × Value
  | ("section_order", _) => ("section_order", .list (titles.map .text))
  | ("artifact", _) => ("artifact", artifact)
  | e => e

/-- A table writes out some keys of a configuration, with any spellings of the titles. -/
inductive Writes (c : Config) (kept keptOfArtifact : List String) : Value → Prop
  /-- The entries are an excerpt of all entries, and the table of the artifact is one as well. -/
  | table {full part : List (String × Value)} {titles : List String} {artifact : Value}
      (hfull : c.toValue = .table full)
      (htitles : List.Forall₂ Section.IsSpelling c.sectionOrder titles)
      (hartifact : c.artifact.Writes keptOfArtifact artifact)
      (hpart : IsExcerpt keys kept (full.map (rewrite titles artifact)) part) :
      Writes c kept keptOfArtifact (.table part)

variable {c x : Config} {kept keptOfArtifact ks ks' titles : List String} {v artifact : Value}

theorem overlay_overlay (key : String) :
    c.overlay ks (c.overlay [key] x) = c.overlay (key :: ks) x := by
  simp only [overlay, List.mem_cons, mk.injEq, List.not_mem_nil, or_false]
  grind

theorem overlay_congr (h : ∀ key ∈ keys, key ∈ ks ↔ key ∈ ks') :
    c.overlay ks x = c.overlay ks' x := by
  simp only [keys, List.forall_mem_cons] at h
  simp [overlay, h]

theorem overlay_of_forall_mem (h : ∀ key ∈ keys, key ∈ kept) : c.overlay kept x = c := by
  simp only [keys, List.forall_mem_cons] at h
  simp [overlay, h]

theorem keeping_of_forall_mem (h : ∀ key ∈ keys, key ∈ kept)
    (hartifact : ∀ key ∈ ArtifactConfig.keys, key ∈ keptOfArtifact) :
    c.keeping kept keptOfArtifact = c := by
  rw [keeping, overlay_of_forall_mem h, ArtifactConfig.overlay_of_forall_mem hartifact]

theorem set_of_notMem {e : String × Value} (h : e.1 ∉ keys) (x : Config) : x.set e = .ok x := by
  unfold set
  split
  case h_7 => rfl
  all_goals simp [keys] at h

/-- What a document writes out of a configuration is read, and is standard otherwise. -/
theorem ofValue_of_writes (h : c.Writes kept keptOfArtifact v) :
    ofValue v = .ok (c.keeping kept keptOfArtifact) := by
  obtain ⟨hfull, htitles, hartifact, hpart⟩ := h
  cases hfull
  refine foldlM_set_of_isExcerpt (fun x => by simp [overlay]) (fun key ks x => overlay_overlay key)
    (fun ks ks' x => overlay_congr) rfl ?_ (fun e => set_of_notMem) hpart standard
  have hbranches := Value.mapM_asText c.branches
  have hsections := Section.mapM_ofValue htitles
  have hvalue := ArtifactConfig.ofValue_of_writes hartifact
  simp only [List.map_cons, List.map_nil, List.forall_mem_cons]
  refine ⟨fun x => ?_, fun x => rfl, fun x => rfl, fun x => rfl, fun x => ?_, fun x => ?_, nofun⟩
  · exact Except.bind_eq_ok_iff.2 ⟨_, rfl, Except.bind_eq_ok_iff.2 ⟨_, hbranches, rfl⟩⟩
  · exact Except.bind_eq_ok_iff.2 ⟨_, rfl, Except.bind_eq_ok_iff.2 ⟨_, hsections, rfl⟩⟩
  · exact Except.bind_eq_ok_iff.2 ⟨_, hvalue, rfl⟩

/-- The whole document is written. -/
theorem writes_toValue (c : Config) : c.Writes keys ArtifactConfig.keys c.toValue := by
  have htitles : List.Forall₂ Section.IsSpelling c.sectionOrder (c.sectionOrder.map (·.title)) :=
    List.forall₂_map_right_iff.2 (List.forall₂_same.2 fun s _ => s.isSpelling_title)
  refine .table rfl htitles (ArtifactConfig.writes_toValue c.artifact) ⟨[], nofun, ?_⟩
  simp [keys, rewrite, List.map_map, Function.comp_def]

/-! ### Texts that spell no title -/

/-- A text that spells no title spoils the order of sections, and so the configuration. -/
theorem exists_ofValue_eq_error {entries : List (String × Value)} {items : List Value}
    {text : String} (hv : v.asRecord keys = .ok entries)
    (horder : ("section_order", .list items) ∈ entries) (htext : .text text ∈ items)
    (hbad : ∀ s : Section, ¬ s.IsSpelling text) : ∃ fault, ofValue v = .error fault := by
  have hitem : Section.ofValue (.text text) = .error (.unknownSection text) := by
    rw [Section.ofValue, Value.asText]
    simp only [Section.ofText?_eq_none_iff.2 hbad, bind, Except.bind]
  obtain ⟨fault, hitems⟩ := Except.exists_mapM_eq_error htext hitem
  have hset : ∀ x : Config, x.set ("section_order", .list items) = .error fault := fun x =>
    Except.bind_eq_error_iff.2 (.inr ⟨items, rfl, Except.bind_eq_error_iff.2 (.inl hitems)⟩)
  obtain ⟨fault', hentries⟩ := Except.exists_foldlM_eq_error horder hset standard
  exact ⟨fault', Except.bind_eq_error_iff.2 (.inr ⟨entries, hv, hentries⟩)⟩

/-- **Partial configurations are laid over the standard one.** What is written out of a
configuration is read with the keys that were kept, and with standard values for all others; with
all keys kept nothing changes. A text in the order of sections that spells no title spoils the
configuration, whatever else it holds. -/
theorem ofValue_overlays (c : Config) (kept keptOfArtifact : List String) :
    (∀ v, c.Writes kept keptOfArtifact v → ofValue v = .ok (c.keeping kept keptOfArtifact)) ∧
    ((∀ key ∈ keys, key ∈ kept) → (∀ key ∈ ArtifactConfig.keys, key ∈ keptOfArtifact) →
      c.keeping kept keptOfArtifact = c) ∧
    ofValue c.toValue = .ok c ∧
    ∀ v entries items text, v.asRecord keys = .ok entries →
      ("section_order", .list items) ∈ entries → .text text ∈ items →
      (∀ s : Section, ¬ s.IsSpelling text) → ∃ fault, ofValue v = .error fault := by
  refine ⟨fun v => ofValue_of_writes, keeping_of_forall_mem, ?_,
    fun v entries items text => exists_ofValue_eq_error⟩
  rw [ofValue_of_writes c.writes_toValue, keeping_of_forall_mem (fun _ => id) fun _ => id]

/-- A configuration of which the titles and the label of the artifact are to be kept. -/
def labelled : Config :=
  { standard with
    branches := ["main", "next"]
    sectionOrder := [.bugFixes, .features]
    artifact := { ArtifactConfig.standard with label := "tool", extension := "zip" } }

/-- The titles and the label in a document, with a key of its own in each table. -/
def labelledDocument : Value :=
  .table [
    ("project", .text "tool"),
    ("artifact", .table [("label", .text "tool"), ("signed", .boolean true)]),
    ("section_order", .list [.text "\u2003bug FIXES", .text "features\n"])]

/-- The titles and the label are read, and all else is standard. No section has the title of the
second document. -/
theorem ofValue_labelledDocument :
    labelled.Writes ["section_order", "artifact"] ["label"] labelledDocument ∧
    ofValue labelledDocument = .ok { standard with
      sectionOrder := [.bugFixes, .features]
      artifact := { ArtifactConfig.standard with label := "tool" } } ∧
    labelled.keeping keys ArtifactConfig.keys = labelled ∧
    ∃ fault, ofValue (.table [("section_order", .list [.text "Features", .text "Chores"])]) =
      .error fault := by
  obtain ⟨hread, -, -, hbad⟩ := ofValue_overlays labelled ["section_order", "artifact"] ["label"]
  obtain ⟨-, hall, -, -⟩ := ofValue_overlays labelled keys ArtifactConfig.keys
  have hwrites : labelled.Writes ["section_order", "artifact"] ["label"] labelledDocument := by
    have hfixes : Section.bugFixes.IsSpelling "\u2003bug FIXES" :=
      Section.ofText?_eq_some_iff.1 (by decide +kernel)
    have hfeatures : Section.features.IsSpelling "features\n" :=
      Section.ofText?_eq_some_iff.1 (by decide +kernel)
    refine .table rfl (.cons hfixes (.cons hfeatures .nil)) (.table rfl
      ⟨[("signed", .boolean true)], by simp [ArtifactConfig.keys], .refl _⟩)
      ⟨[("project", .text "tool")], by simp [keys], ?_⟩
    -- the document has its entries in the opposite order
    exact List.reverse_perm [("section_order", _), ("artifact", _), ("project", _)]
  exact ⟨hwrites, hread _ hwrites, hall (fun _ => id) fun _ => id,
    hbad _ _ _ "Chores" rfl (List.mem_singleton_self _) (by simp)
      (Section.ofText?_eq_none_iff.1 (by decide +kernel))⟩

end Config

end ReleaseCut
