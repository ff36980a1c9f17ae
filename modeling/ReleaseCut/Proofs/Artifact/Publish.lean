import ReleaseCut.Proofs.Artifact.Staging

/-!
# When an artifact is published

* `Staging.stage_ok_iff`: staging succeeds exactly if there is something to pick, the pattern of the
  published name holds no slash, nothing but files stands under names of the published form, except
  for a link under the very name, and no path to the output directory leads through that name. The
  bytes picked then stand under the name, alone of all that would be published, and nothing else
  changes.
* `Staging.stage_error_clean`: a failure to find, move or verify the artifact leaves no second file
  that would be published, and no copy.
-/

namespace ReleaseCut

namespace Staging

variable {outputDir : Path} {extension exclude pattern : String} {s : Staging} {d d' : Disk}
  {out place : Location} {content : ByteArray} {n : String} {v : Version}

/-! ### Reading the patterns -/

theorem ofPattern_of_ofPatterns (h : ofPatterns outputDir extension exclude pattern = .ok s) :
    ArtifactName.ofPattern pattern = .ok s.name := by
  obtain ⟨_, -, h⟩ := Except.bind_eq_ok_iff.1 h
  obtain ⟨name, hname, h⟩ := Except.bind_eq_ok_iff.1 h
  cases h
  exact hname

theorem candidates_eq (hdir : d.locateDirectory s.outputDir = .ok out) :
    s.candidates d = .ok ((s.select (d.tree.children out)).map s.pathOf) := by
  rw [candidates, scan, OperatingSystem.list_standard, Disk.list, hdir]
  rfl

/-- The first candidate is a file of the output directory. -/
theorem select_of_candidates {first : Path} {rest : List Path}
    (h : s.candidates d = .ok (first :: rest)) : ∃ out chosen others,
      d.locateDirectory s.outputDir = .ok out ∧
      s.select (d.tree.children out) = chosen :: others ∧ s.pathOf chosen = first := by
  rcases hdir : d.locateDirectory s.outputDir with e | out
  · simp [candidates, scan, Disk.list, hdir, Except.map, bind, Except.bind] at h
  · rw [candidates_eq hdir, Except.ok.injEq, List.map_eq_cons_iff] at h
    obtain ⟨chosen, others, hselect, hfirst, -⟩ := h
    exact ⟨out, chosen, others, rfl, hselect, hfirst⟩

/-- The artifact has its place in the output directory if its name is that of an entry. -/
theorem eq_place_of_isEntryName (hdir : d.locateDirectory s.outputDir = .ok out)
    (hinst : IsEntryName (s.name.instantiate v)) {parent : Location} {name : String}
    (hentry : d.locateEntry (s.pathOf (s.name.instantiate v)) = .ok (parent, name)) :
    name :: parent = s.name.instantiate v :: out := by
  rw [pathOf, Disk.locateEntry_join hdir hinst, Except.ok.injEq, Prod.mk.injEq] at hentry
  rw [← hentry.1, ← hentry.2]

/-- Where something can be picked, the copy is refused its place or takes it. -/
theorem stage_of_candidates (hproper : d.tree.IsProper) {first : Path} {rest : List Path}
    (h : s.candidates d = .ok (first :: rest)) (v : Version) : ∃ out chosen bytes,
      d.locateDirectory s.outputDir = .ok out ∧ d.readBytes first = .ok bytes ∧
      d.tree.get? (chosen :: out) = some (.file bytes) ∧
      ((∃ cause, (s.stage d v).1 =
            .error (.artifactIo .rename (s.pathOf (s.name.instantiate v)) cause) ∧
          Cleared s d out (s.stage d v).2 ∧ (IsEntryName (s.name.instantiate v) →
            d.tree.get? (s.name.instantiate v :: out) = some .directory)) ∨
        ∃ place, Replaced s d out place bytes (s.stage d v).2 ∧
          (IsEntryName (s.name.instantiate v) → place = s.name.instantiate v :: out)) := by
  obtain ⟨out, chosen, others, hdir, hselect, rfl⟩ := select_of_candidates h
  rcases stage_cases hproper s v with ⟨_, _, -, hnone⟩ |
    ⟨out', chosen', rest', bytes, hdir', hselect', hfile, hends⟩
  · rw [hnone out hdir] at hselect
    cases hselect
  · obtain rfl := Except.ok.inj (hdir.symm.trans hdir')
    obtain ⟨rfl, rfl⟩ := List.cons.inj (hselect.symm.trans hselect')
    have hread := Disk.readBytes_join hdir (hproper _ _ hfile chosen (List.mem_cons_self ..)) hfile
    refine ⟨out, chosen, bytes, hdir, hread, hfile, ?_⟩
    rcases hends with ⟨cause, d', hstage, hcleared, hdirectory⟩ |
      ⟨parent, name, d', hentry, hreplaced, hstage⟩
    · rw [hstage]
      exact .inl ⟨cause, rfl, hcleared, hdirectory⟩
    · have hdisk : (s.stage d v).2 = d' := by
        rw [hstage]
        split <;> rfl
      refine .inr ⟨name :: parent, hdisk ▸ hreplaced, fun hinst => ?_⟩
      exact eq_place_of_isEntryName hdir hinst hentry

/-- Something can be picked exactly where a file of the directory may be. -/
theorem exists_candidates_iff (hdir : d.locateDirectory s.outputDir = .ok out) :
    (∃ first rest, s.candidates d = .ok (first :: rest)) ↔
      ∃ n e, d.tree.get? (n :: out) = some e ∧ s.isCandidate (n, e) = true := by
  rw [candidates_eq hdir]
  constructor
  · rintro ⟨first, rest, h⟩
    cases hselect : s.select (d.tree.children out) with
    | nil => simp [hselect] at h
    | cons n ns =>
      obtain ⟨e, hmem, he⟩ := mem_select.1 (hselect ▸ List.mem_cons_self ..)
      exact ⟨n, e, FileTree.mem_children.1 hmem, he⟩
  · rintro ⟨n, e, hget, he⟩
    obtain ⟨m, ms, hselect⟩ := List.exists_cons_of_ne_nil <|
      List.ne_nil_of_mem (mem_select.2 ⟨e, FileTree.mem_children.2 hget, he⟩)
    exact ⟨s.pathOf m, ms.map s.pathOf, by rw [hselect]; rfl⟩

/-- The only fresh file that may be picked comes first. -/
theorem exists_select_cons {e : Entry} (hget : d.tree.get? (n :: out) = some e)
    (hcandidate : s.isCandidate (n, e) = true) (hfresh : s.isReleased n = false)
    (honly : ∀ m e', d.tree.get? (m :: out) = some e' → s.isCandidate (m, e') = true →
      s.isReleased m = false → m = n) :
    ∃ rest, s.select (d.tree.children out) = n :: rest := by
  have hmem : ∀ m, m ∈ ((d.tree.children out).filter s.isCandidate).map Prod.fst ↔
      ∃ e', d.tree.get? (m :: out) = some e' ∧ s.isCandidate (m, e') = true := by
    intro m
    simp [FileTree.mem_children]
  have hfirst : n ∈ (((d.tree.children out).filter s.isCandidate).map Prod.fst).filter
      (!s.isReleased ·) := List.mem_filter.2 ⟨(hmem n).2 ⟨e, hget, hcandidate⟩, by simp [hfresh]⟩
  obtain ⟨m, rest, hcons⟩ := List.exists_cons_of_ne_nil (List.ne_nil_of_mem hfirst)
  -- whatever comes first is fresh
  obtain ⟨hm, hm'⟩ := List.mem_filter.1 (hcons ▸ List.mem_cons_self ..)
  obtain ⟨e', hget', hcandidate'⟩ := (hmem m).1 hm
  obtain rfl := honly m e' hget' hcandidate' (by simpa using hm')
  exact ⟨_, by rw [select, hcons, List.cons_append]⟩

/-! ### Verifying -/

theorem mem_published {t : FileTree} : n ∈ s.published (t.children out) ↔
    s.name.publishGlob.describes n = true ∧ ∃ e, t.get? (n :: out) = some e := by
  simp only [published, List.mem_filter, List.mem_map, Prod.exists, exists_and_right,
    exists_eq_right, FileTree.mem_children]
  exact and_comm

/-- A single name is published. -/
theorem published_eq_singleton_iff {t : FileTree} :
    s.published (t.children out) = [n] ↔ n ∈ s.published (t.children out) ∧
      ∀ m ∈ s.published (t.children out), m = n := by
  have hnodup : (s.published (t.children out)).Nodup := (t.nodup_children out).filter _
  constructor
  · intro h
    simp [h]
  · rintro ⟨hmem, hall⟩
    exact List.perm_singleton.1 <| (List.perm_ext_iff_of_nodup hnodup (List.nodup_singleton n)).2
      fun m => by rw [List.mem_singleton]; exact ⟨hall m, fun h => h ▸ hmem⟩

theorem verify_eq_ok_iff {target : Path} : s.verify d target = .ok () ↔
    ∃ out, d.locateDirectory s.outputDir = .ok out ∧
      s.published (d.tree.children out) = [target.fileName?.getD ""] := by
  rw [verify, OperatingSystem.list_standard, Disk.list]
  cases d.locateDirectory s.outputDir with
  | error e => simp [Except.map]
  | ok out => simp [Except.map]

/-- The check fails where the directory cannot be listed, or for what is found there. -/
theorem verify_eq_error {target : Path} {error : ReleaseError}
    (h : s.verify d target = .error error) :
    (∃ path cause, error = .artifactIo .list path cause) ∨
    ∃ out, d.locateDirectory s.outputDir = .ok out ∧
      ∃ dir glob found, error = .artifactPostcondition dir glob found := by
  rw [verify, OperatingSystem.list_standard, Disk.list] at h
  cases hdir : d.locateDirectory s.outputDir with
  | error e =>
    rw [hdir] at h
    cases h
    exact .inl ⟨_, _, rfl⟩
  | ok out =>
    rw [hdir] at h
    simp only [Except.map] at h
    split at h
    · cases h
    · cases h
      exact .inr ⟨out, rfl, _, _, _, rfl⟩

/-- The output directory is found again unless the artifact is in the way. -/
theorem Replaced.locateDirectory_iff (h : Replaced s d out place content d')
    (hdir : d.locateDirectory s.outputDir = .ok out) {out' : Location} :
    d'.locateDirectory s.outputDir = .ok out' ↔
      ¬ d.LooksAt s.outputDir place ∧ out' = out := by
  by_cases hlooks : d.LooksAt s.outputDir place
  · simp [hlooks, Disk.locateDirectory_ne_ok_of_looksAt h.cwd h.artifact h.keeps hdir hlooks]
  · rw [Disk.locateDirectory_of_not_looksAt h.cwd h.artifact h.notDirectory h.keeps hdir hlooks]
    simp [hlooks, eq_comm]

/-- Among the names of the published form, only files give way to the artifact. -/
theorem Replaced.verify_iff (h : Replaced s d out (n :: out) content d')
    (hdir : d.locateDirectory s.outputDir = .ok out) (hname : IsEntryName n)
    (hdescribes : s.name.publishGlob.describes n = true) :
    s.verify d' (s.pathOf n) = .ok () ↔ ¬ d.LooksAt s.outputDir (n :: out) ∧
      ∀ m e, m ≠ n → d.tree.get? (m :: out) = some e → s.name.publishGlob.describes m = true →
        e.isFile = true := by
  have hown : n ∈ s.published (d'.tree.children out) := mem_published.2 ⟨hdescribes, _, h.artifact⟩
  have hothers : (∀ m ∈ s.published (d'.tree.children out), m = n) ↔
      ∀ m e, m ≠ n → d.tree.get? (m :: out) = some e → s.name.publishGlob.describes m = true →
        e.isFile = true := by
    simp only [mem_published]
    constructor
    · intro hall m e hne hget hm
      -- what is no file would still be there
      refine Decidable.byContradiction fun hfile => hne (hall m ⟨hm, e, ?_⟩)
      refine h.keeps _ _ (by simpa using hne) hget ?_
      rintro c rfl
      exact hfile rfl
    · rintro hfiles m ⟨hm, e, hget⟩
      refine Decidable.byContradiction fun hne => ?_
      obtain ⟨hget, hstale⟩ := h.get?_back (by simpa using hne) hget
      obtain ⟨c, rfl⟩ := Entry.exists_of_isFile (hfiles m e hne hget hm)
      exact hstale ⟨m, c, rfl, hm, hget⟩
  rw [verify_eq_ok_iff, pathOf, Path.fileName?_join hname, Option.getD_some]
  simp only [h.locateDirectory_iff hdir, and_assoc, exists_and_left, exists_eq_left,
    published_eq_singleton_iff, hown, true_and, hothers]

/-- Where the pattern holds a slash, no file of the output directory is found to be published. -/
theorem Replaced.not_describes (hname : ArtifactName.ofPattern pattern = .ok s.name)
    (hslash : '/' ∈ pattern.toList) (hproper : d.tree.IsProper) {target : Path} {parent : Location}
    {name : String} (hentry : d.locateEntry target = .ok (parent, name))
    (h : Replaced s d out (name :: parent) content d') {dir : Location} {e : Entry}
    (hget : d'.tree.get? (n :: dir) = some e) : s.name.publishGlob.describes n = false := by
  refine ArtifactName.not_describes_of_slash hname hslash ?_
  by_cases hplace : n :: dir = name :: parent
  · rw [(List.cons.inj hplace).1]
    exact (Disk.isEntryName_of_locateEntry hentry).1.slash
  · exact (hproper _ _ (h.get?_back hplace hget).1 n (List.mem_cons_self ..)).slash

/-! ### Success -/

/-- The disk after an artifact was published. -/
structure Published (s : Staging) (d : Disk) (out : Location) (v : Version) (content : ByteArray)
    (d' : Disk) : Prop where
  /-- The working directory stays. -/
  cwd : d'.cwd = d.cwd
  /-- The artifact has the name for the version. -/
  artifact : d'.tree.get? (s.name.instantiate v :: out) = some (.file content)
  /-- No other name of the published form is left in the directory. -/
  others : ∀ n, n ≠ s.name.instantiate v → s.name.publishGlob.describes n = true →
    d'.tree.get? (n :: out) = none
  /-- All else stays, in the directory and outside. -/
  same : ∀ loc, (∀ n, s.name.publishGlob.describes n = true → loc ≠ n :: out) →
    d'.tree.get? loc = d.tree.get? loc

/-- The copy in its place is all that would be published, if nothing but files had to give way. -/
theorem Replaced.published (h : Replaced s d out (s.name.instantiate v :: out) content d')
    (hdescribes : s.name.publishGlob.describes (s.name.instantiate v) = true)
    (hfiles : ∀ n e, n ≠ s.name.instantiate v → d.tree.get? (n :: out) = some e →
      s.name.publishGlob.describes n = true → e.isFile = true) :
    Published s d out v content d' where
  cwd := h.cwd
  artifact := h.artifact
  others := by
    intro n hne hn
    refine Option.eq_none_iff_forall_ne_some.2 fun e hget => ?_
    obtain ⟨hget, hstale⟩ := h.get?_back (by simpa using hne) hget
    obtain ⟨c, rfl⟩ := Entry.exists_of_isFile (hfiles n e hne hget hn)
    exact hstale ⟨n, c, rfl, hn, hget⟩
  same := by
    intro loc hloc
    refine h.same loc (hloc _ hdescribes) ?_
    rintro ⟨n, _, rfl, hn, -⟩
    exact hloc n hn rfl

/-- What may stand in the output directory under names of the published form: files, and a link
under the name for the version. -/
def GivesWay (s : Staging) (d : Disk) (out : Location) (v : Version) : Prop :=
  ∀ n e, d.tree.get? (n :: out) = some e → s.name.publishGlob.describes n = true →
    e.isFile = true ∨ n = s.name.instantiate v ∧ ∃ target, e = .link target

/-- The name for the version gives way unless a directory has it. -/
private theorem givesWay_iff
    (hnotDir : d.tree.get? (s.name.instantiate v :: out) ≠ some .directory) :
    s.GivesWay d out v ↔ ∀ n e, n ≠ s.name.instantiate v → d.tree.get? (n :: out) = some e →
      s.name.publishGlob.describes n = true → e.isFile = true := by
  constructor
  · intro h n e hne hget hn
    exact (h n e hget hn).resolve_right fun hlink => hne hlink.1
  · intro h n e hget hn
    by_cases hne : n = s.name.instantiate v
    · subst hne
      cases e with
      | file c => exact .inl rfl
      | directory => exact absurd hget hnotDir
      | link target => exact .inr ⟨rfl, target, rfl⟩
    · exact .inl (h n e hne hget hn)

/-- A copy that could be moved is the artifact if all else gives way and the path to the directory
does not lead through it. -/
private theorem verify_moved (hs : ofPatterns outputDir extension exclude pattern = .ok s)
    (hproper : d.tree.IsProper) (hdir : d.locateDirectory s.outputDir = .ok out) {parent : Location}
    {name : String} (hentry : d.locateEntry (s.pathOf (s.name.instantiate v)) = .ok (parent, name))
    (h : Replaced s d out (name :: parent) content d') :
    (s.verify d' (s.pathOf (s.name.instantiate v)) = .ok () ↔
      '/' ∉ pattern.toList ∧ s.GivesWay d out v ∧
        ¬ d.LooksAt s.outputDir (s.name.instantiate v :: out)) ∧
    (s.verify d' (s.pathOf (s.name.instantiate v)) = .ok () → Published s d out v content d') := by
  have hname := ofPattern_of_ofPatterns hs
  by_cases hslash : '/' ∈ pattern.toList
  -- no entry has a name that the glob describes, so the check finds nothing
  · have hfail : s.verify d' (s.pathOf (s.name.instantiate v)) ≠ .ok () := by
      intro hverify
      obtain ⟨out', -, hfound⟩ := verify_eq_ok_iff.1 hverify
      obtain ⟨hdescribes, e, hget⟩ := mem_published.1 (hfound ▸ List.mem_singleton_self _)
      rw [h.not_describes hname hslash hproper hentry hget] at hdescribes
      cases hdescribes
    simp [hslash, hfail]
  · have hinst := ArtifactName.isEntryName_instantiate hname hslash v
    have hdescribes := ArtifactName.describes_instantiate hname v
    -- the copy stands in the output directory under the name for the version
    obtain ⟨rfl, rfl⟩ := List.cons.inj (eq_place_of_isEntryName hdir hinst hentry)
    have hverify := h.verify_iff hdir hinst hdescribes
    rw [hverify, givesWay_iff h.notDirectory]
    refine ⟨?_, fun hok => h.published hdescribes hok.2⟩
    simp only [hslash, not_false_eq_true, true_and]
    exact and_comm

/-- What is published has been picked, moved and verified. -/
private theorem stage_eq_ok (hproper : d.tree.IsProper)
    (hdir : d.locateDirectory s.outputDir = .ok out) {asset : Asset}
    (h : s.stage d v = (.ok asset, d')) :
    asset = ⟨s.pathOf (s.name.instantiate v), v⟩ ∧ ∃ chosen rest content parent name,
      s.select (d.tree.children out) = chosen :: rest ∧
      d.tree.get? (chosen :: out) = some (.file content) ∧
      d.locateEntry (s.pathOf (s.name.instantiate v)) = .ok (parent, name) ∧
      Replaced s d out (name :: parent) content d' ∧
      s.verify d' (s.pathOf (s.name.instantiate v)) = .ok () := by
  rcases stage_cases hproper s v with ⟨dir, listing, hstage, -⟩ |
    ⟨out', chosen, rest, content, hdir', hselect, hfile, hends⟩
  · cases hstage.symm.trans h
  · obtain rfl : out' = out := Except.ok.inj (hdir'.symm.trans hdir)
    rcases hends with ⟨cause, d₁, hstage, -⟩ | ⟨parent, name, d₁, hentry, hreplaced, hstage⟩
    · cases hstage.symm.trans h
    · cases hverify : s.verify d₁ (s.pathOf (s.name.instantiate v)) with
      | error e =>
        rw [hverify] at hstage
        cases hstage.symm.trans h
      | ok u =>
        rw [hverify] at hstage
        cases hstage.symm.trans h
        exact ⟨rfl, chosen, rest, content, parent, name, hselect, hfile, hentry, hreplaced, hverify⟩

/-- After an artifact was published, the output directory is found again. -/
theorem locateDirectory_of_stage (hproper : d.tree.IsProper)
    (hdir : d.locateDirectory s.outputDir = .ok out) {asset : Asset}
    (h : s.stage d v = (.ok asset, d')) : d'.locateDirectory s.outputDir = .ok out := by
  obtain ⟨-, _, _, _, _, _, -, -, -, hreplaced, hverify⟩ := stage_eq_ok hproper hdir h
  obtain ⟨out', hdir', -⟩ := verify_eq_ok_iff.1 hverify
  obtain ⟨-, rfl⟩ := (hreplaced.locateDirectory_iff hdir).1 hdir'
  exact hdir'

/-- An artifact is published exactly where something can be picked and all else gives way. -/
theorem exists_stage_iff (hs : ofPatterns outputDir extension exclude pattern = .ok s)
    (hproper : d.tree.IsProper) (hdir : d.locateDirectory s.outputDir = .ok out) (v : Version) :
    (∃ asset d', s.stage d v = (.ok asset, d')) ↔
      (∃ first rest, s.candidates d = .ok (first :: rest)) ∧ '/' ∉ pattern.toList ∧
        s.GivesWay d out v ∧ ¬ d.LooksAt s.outputDir (s.name.instantiate v :: out) := by
  have hcandidates := candidates_eq hdir
  constructor
  · rintro ⟨asset, d', h⟩
    obtain ⟨-, chosen, rest, content, parent, name, hselect, -, hentry, hreplaced, hverify⟩ :=
      stage_eq_ok hproper hdir h
    have hconditions := (verify_moved hs hproper hdir hentry hreplaced).1.1 hverify
    rw [hselect] at hcandidates
    exact ⟨⟨_, _, hcandidates⟩, hconditions⟩
  · rintro ⟨⟨first, rest, hfirst⟩, hslash, hway, hlooks⟩
    rcases stage_cases hproper s v with ⟨dir, listing, hstage, hnone⟩ |
      ⟨out', chosen, rest, content, hdir', -, -, hends⟩
    · rw [hnone out hdir] at hcandidates
      cases hcandidates.symm.trans hfirst
    · obtain rfl : out' = out := Except.ok.inj (hdir'.symm.trans hdir)
      rcases hends with ⟨cause, d₁, -, -, hdirectory⟩ |
        ⟨parent, name, d₁, hentry, hreplaced, hstage⟩
      · -- a directory would have the name for the version
        have hname := ofPattern_of_ofPatterns hs
        have hget := hdirectory (ArtifactName.isEntryName_instantiate hname hslash v)
        rcases hway _ _ hget (ArtifactName.describes_instantiate hname v) with hfile | ⟨-, _, hlink⟩
        · cases hfile
        · cases hlink
      · have hverify : s.verify d₁ (s.pathOf (s.name.instantiate v)) = .ok () :=
          (verify_moved hs hproper hdir hentry hreplaced).1.2 ⟨hslash, hway, hlooks⟩
        rw [hverify] at hstage
        exact ⟨_, _, hstage⟩

/-- What is published holds the bytes of the file that is picked. -/
theorem select_of_stage (hs : ofPatterns outputDir extension exclude pattern = .ok s)
    (hproper : d.tree.IsProper) (hdir : d.locateDirectory s.outputDir = .ok out) {asset : Asset}
    (h : s.stage d v = (.ok asset, d')) :
    asset = ⟨s.pathOf (s.name.instantiate v), v⟩ ∧ ∃ chosen rest bytes,
      s.select (d.tree.children out) = chosen :: rest ∧
      d.tree.get? (chosen :: out) = some (.file bytes) ∧ Published s d out v bytes d' := by
  obtain ⟨hasset, chosen, rest, bytes, parent, name, hselect, hfile, hentry, hreplaced,
    hverify⟩ := stage_eq_ok hproper hdir h
  have hpublished := (verify_moved hs hproper hdir hentry hreplaced).2 hverify
  exact ⟨hasset, chosen, rest, bytes, hselect, hfile, hpublished⟩

/-- What is published holds the bytes of the first candidate. -/
theorem published_of_stage (hs : ofPatterns outputDir extension exclude pattern = .ok s)
    (hproper : d.tree.IsProper) (hdir : d.locateDirectory s.outputDir = .ok out) {asset : Asset}
    (h : s.stage d v = (.ok asset, d')) :
    asset = ⟨s.pathOf (s.name.instantiate v), v⟩ ∧ ∃ first rest bytes,
      s.candidates d = .ok (first :: rest) ∧ d.readBytes first = .ok bytes ∧
      Published s d out v bytes d' := by
  obtain ⟨hasset, chosen, rest, bytes, hselect, hfile, hpublished⟩ :=
    select_of_stage hs hproper hdir h
  have hcandidates := candidates_eq hdir
  rw [hselect] at hcandidates
  have hread := Disk.readBytes_join hdir (hproper _ _ hfile chosen (List.mem_cons_self ..)) hfile
  exact ⟨hasset, _, _, bytes, hcandidates, hread, hpublished⟩

/-- To publish an artifact is to store it: no directory and no link is made, and other files are
gone only under names of the published form. -/
theorem stored_of_stage (hs : ofPatterns outputDir extension exclude pattern = .ok s)
    (hproper : d.tree.IsProper) {asset : Asset} (h : s.stage d v = (.ok asset, d')) :
    ∃ out content, d.locateDirectory s.outputDir = .ok out ∧ IsEntryName (s.name.instantiate v) ∧
      d.Stored (s.name.instantiate v :: out) content d' ∧
      ∀ loc, (∀ n, s.name.publishGlob.describes n = true → loc ≠ n :: out) →
        d'.tree.get? loc = d.tree.get? loc := by
  rcases stage_cases hproper s v with ⟨dir, listing, hstage, -⟩ | ⟨out, -, -, -, hdir, -⟩
  · cases hstage.symm.trans h
  · obtain ⟨-, hslash, hway, -⟩ := (exists_stage_iff hs hproper hdir v).1 ⟨asset, d', h⟩
    obtain ⟨-, -, -, content, -, -, hpublished⟩ := published_of_stage hs hproper hdir h
    have hname := ofPattern_of_ofPatterns hs
    have hdescribes := ArtifactName.describes_instantiate hname v
    refine ⟨out, content, hdir, ArtifactName.isEntryName_instantiate hname hslash v,
      ⟨hpublished.cwd, ?_, hpublished.artifact, fun loc hne => ?_⟩, hpublished.same⟩
    · intro hget
      rcases hway _ _ hget hdescribes with hfile | ⟨-, _, hlink⟩
      · cases hfile
      · cases hlink
    · by_cases hloc : ∃ n, s.name.publishGlob.describes n = true ∧ loc = n :: out
      · obtain ⟨n, hn, rfl⟩ := hloc
        have hne : n ≠ s.name.instantiate v := fun heq => hne (heq ▸ rfl)
        have hgone := hpublished.others n hne hn
        cases hget : d.tree.get? (n :: out) with
        | none => exact .inl hgone
        | some e =>
          have hfile := (hway n e hget hn).resolve_right fun hlink => hne hlink.1
          obtain ⟨c, rfl⟩ := Entry.exists_of_isFile hfile
          exact .inr ⟨hgone, c, rfl⟩
      · exact .inl (hpublished.same loc fun n hn heq => hloc ⟨n, hn, heq⟩)

/-- **When an artifact is published, and what then changes.** The artifact holds the bytes of the
first candidate, and it is all that changes but for the stale files. -/
theorem stage_ok_iff (hs : ofPatterns outputDir extension exclude pattern = .ok s)
    (hproper : d.tree.IsProper) (hdir : d.locateDirectory s.outputDir = .ok out) (v : Version) :
    ((∃ asset d', s.stage d v = (.ok asset, d')) ↔
      (∃ first rest, s.candidates d = .ok (first :: rest)) ∧ '/' ∉ pattern.toList ∧
        s.GivesWay d out v ∧ ¬ d.LooksAt s.outputDir (s.name.instantiate v :: out)) ∧
    ∀ asset d', s.stage d v = (.ok asset, d') →
      asset = ⟨s.pathOf (s.name.instantiate v), v⟩ ∧
      ∃ first rest bytes, s.candidates d = .ok (first :: rest) ∧ d.readBytes first = .ok bytes ∧
        Published s d out v bytes d' :=
  ⟨exists_stage_iff hs hproper hdir v, fun _ _ => published_of_stage hs hproper hdir⟩

/-- Artifacts that are called after the version, out of any archives in a directory. -/
def appStaging (outputDir : Path) : Staging where
  outputDir
  extension := ".jar"
  exclude := ⟨"", []⟩
  name :=
    { template := ⟨"app-", ".jar"⟩
      publishGlob := ⟨"app-*.jar",
        "app-".toList.map .literal ++ .run :: ".jar".toList.map .literal⟩ }

theorem ofPatterns_appStaging (outputDir : Path) :
    ofPatterns outputDir "jar" "" "app-{version}.jar" = .ok (appStaging outputDir) := by
  have hexclude : Glob.ofConfig "" = .ok ⟨"", []⟩ := by decide +kernel
  have hname : ArtifactName.ofPattern "app-{version}.jar" = .ok (appStaging ⟨""⟩).name := by
    decide +kernel
  rw [ofPatterns, hexclude, hname]
  rfl

/-- A directory with an archive, where something has the name of the first version. -/
def appDisk (e : Entry) : Disk where
  tree := ⟨[(["target"], .directory), (["x.jar", "target"], .file ⟨#[1]⟩),
    (["app-1.0.0.jar", "target"], e)], by simp⟩
  cwd := []

/-- What has the name of the first version gives way unless it is a directory. -/
theorem givesWay_appDisk {outputDir : Path} {e : Entry} (he : e ≠ .directory) :
    (appStaging outputDir).GivesWay (appDisk e) ["target"] .initial := by
  intro n e' hget hn
  rw [FileTree.get?_eq_some_iff (by simp)] at hget
  have hmem : n = "x.jar" ∧ e' = .file ⟨#[1]⟩ ∨ n = "app-1.0.0.jar" ∧ e' = e := by
    simpa [appDisk] using hget
  rcases hmem with ⟨rfl, rfl⟩ | ⟨rfl, rfl⟩
  · exact .inl rfl
  · cases e' with
    | file c => exact .inl rfl
    | directory => exact absurd rfl he
    | link target => exact .inr ⟨rfl, target, rfl⟩

/-- The archive comes first, since the other name is that of a release. -/
theorem exists_select_appDisk (outputDir : Path) (e : Entry) :
    ∃ rest, (appStaging outputDir).select ((appDisk e).tree.children ["target"]) =
      "x.jar" :: rest := by
  refine exists_select_cons (e := .file ⟨#[1]⟩) rfl ?_ ?_ fun m e' hget _ hfresh => ?_
  · change (appStaging ⟨"target"⟩).isCandidate ("x.jar", .file ⟨#[1]⟩) = true
    decide
  · change (appStaging ⟨"target"⟩).isReleased "x.jar" = false
    decide +kernel
  · have hreleased : (appStaging outputDir).isReleased "app-1.0.0.jar" = true := by
      change (appStaging ⟨"target"⟩).isReleased "app-1.0.0.jar" = true
      decide +kernel
    rw [FileTree.get?_eq_some_iff (by simp)] at hget
    have hmem : m = "x.jar" ∧ e' = .file ⟨#[1]⟩ ∨ m = "app-1.0.0.jar" ∧ e' = e := by
      simpa [appDisk] using hget
    rcases hmem with ⟨rfl, -⟩ | ⟨rfl, -⟩
    · rfl
    · cases hreleased.symm.trans hfresh

theorem exists_candidates_appDisk {outputDir : Path} {e : Entry}
    (hdir : (appDisk e).locateDirectory outputDir = .ok ["target"]) :
    ∃ rest, (appStaging outputDir).candidates (appDisk e) =
      .ok ((appStaging outputDir).pathOf "x.jar" :: rest) := by
  obtain ⟨rest, hselect⟩ := exists_select_appDisk outputDir e
  refine ⟨rest.map (appStaging outputDir).pathOf, ?_⟩
  rw [candidates_eq hdir, hselect, List.map_cons]

/-- An older file is not on the way to the directory. -/
theorem not_looksAt_appDisk {outputDir : Path} {c : ByteArray}
    (hdir : (appDisk (.file c)).locateDirectory outputDir = .ok ["target"]) :
    ¬ (appDisk (.file c)).LooksAt outputDir ["app-1.0.0.jar", "target"] :=
  Disk.not_looksAt_of_file hdir rfl

/-- The artifact takes the place of an older file, with the bytes of the archive. -/
theorem stage_replaces_file : ∃ d',
    (appStaging ⟨"target"⟩).stage (appDisk (.file ⟨#[2]⟩)) .initial =
      (.ok ⟨⟨"target/app-1.0.0.jar"⟩, .initial⟩, d') ∧
    Published (appStaging ⟨"target"⟩) (appDisk (.file ⟨#[2]⟩)) ["target"] .initial ⟨#[1]⟩ d' := by
  have hdir : (appDisk (.file ⟨#[2]⟩)).locateDirectory ⟨"target"⟩ = .ok ["target"] := by
    decide +kernel
  have hs : ofPatterns ⟨"target"⟩ "jar" "" "app-{version}.jar" = .ok (appStaging ⟨"target"⟩) := by
    decide +kernel
  have hproper : (appDisk (.file ⟨#[2]⟩)).tree.IsProper := by decide
  have h := stage_ok_iff hs hproper hdir .initial
  obtain ⟨rest, hcandidates⟩ := exists_candidates_appDisk hdir
  obtain ⟨asset, d', hstage⟩ := h.1.2 ⟨⟨_, rest, hcandidates⟩, by decide,
    givesWay_appDisk (by simp), not_looksAt_appDisk hdir⟩
  obtain ⟨rfl, first, _, bytes, hcandidates', hread, hpublished⟩ := h.2 asset d' hstage
  -- the bytes are those of the archive, which comes first
  obtain ⟨rfl, -⟩ := List.cons.inj (Except.ok.inj (hcandidates.symm.trans hcandidates'))
  have hbytes : (appDisk (.file ⟨#[2]⟩)).readBytes ((appStaging ⟨"target"⟩).pathOf "x.jar") =
      .ok ⟨#[1]⟩ := by decide +kernel
  obtain rfl := Except.ok.inj (hbytes.symm.trans hread)
  exact ⟨d', hstage, hpublished⟩

/-- The artifact takes the place of a link. Where the path to the directory follows that link, the
artifact is not found any more. -/
theorem stage_replaces_own_link :
    ofPatterns ⟨"target/app-1.0.0.jar"⟩ "jar" "" "app-{version}.jar" =
      .ok (appStaging ⟨"target/app-1.0.0.jar"⟩) ∧
    (appDisk (.link ⟨"."⟩)).tree.IsProper ∧
    (appDisk (.link ⟨"."⟩)).locateDirectory ⟨"target/app-1.0.0.jar"⟩ = .ok ["target"] ∧
    (∃ first rest, (appStaging ⟨"target/app-1.0.0.jar"⟩).candidates (appDisk (.link ⟨"."⟩)) =
      .ok (first :: rest)) ∧
    '/' ∉ "app-{version}.jar".toList ∧
    (appStaging ⟨"target/app-1.0.0.jar"⟩).GivesWay (appDisk (.link ⟨"."⟩)) ["target"] .initial ∧
    ¬ ∃ asset d', (appStaging ⟨"target/app-1.0.0.jar"⟩).stage (appDisk (.link ⟨"."⟩)) .initial =
      (.ok asset, d') := by
  have hs : ofPatterns ⟨"target/app-1.0.0.jar"⟩ "jar" "" "app-{version}.jar" =
      .ok (appStaging ⟨"target/app-1.0.0.jar"⟩) := by decide +kernel
  have hproper : (appDisk (.link ⟨"."⟩)).tree.IsProper := by decide
  have hdir : (appDisk (.link ⟨"."⟩)).locateDirectory ⟨"target/app-1.0.0.jar"⟩ =
      .ok ["target"] := by decide +kernel
  refine ⟨hs, hproper, hdir, ⟨_, exists_candidates_appDisk hdir⟩, by decide,
    givesWay_appDisk (by simp), ?_⟩
  rw [exists_stage_iff hs hproper hdir]
  rintro ⟨-, -, -, hlooks⟩
  -- the link leads back to its directory, where the last step names it again
  have hend : Looks (appDisk (.link ⟨"."⟩)).tree ["app-1.0.0.jar", "target"] ["target"]
      ["app-1.0.0.jar"] := .now rfl (by decide) (by decide) rfl
  exact hlooks (hend.enter rfl (by decide) (by decide) rfl (by simp))

/-! ### Failure -/

/-- No stale file is left where the stale files were cleared. -/
theorem Cleared.not_describes (h : Cleared s d out d')
    (hget : d'.tree.get? (n :: out) = some (.file content)) :
    s.name.publishGlob.describes n = false := by
  rw [← Bool.not_eq_true]
  intro hn
  obtain ⟨hget, hstale⟩ := h.get?_back hget
  exact hstale ⟨n, content, rfl, hn, hget⟩

/-- Where the copy was moved, it is the only file of the directory that would be published, if any
is. -/
private theorem Replaced.eq_artifact (hs : ofPatterns outputDir extension exclude pattern = .ok s)
    (hproper : d.tree.IsProper) (hdir : d.locateDirectory s.outputDir = .ok out) {parent : Location}
    {name : String} (hentry : d.locateEntry (s.pathOf (s.name.instantiate v)) = .ok (parent, name))
    (h : Replaced s d out (name :: parent) content d') {c : ByteArray}
    (hget : d'.tree.get? (n :: out) = some (.file c))
    (hn : s.name.publishGlob.describes n = true) : n = s.name.instantiate v ∧ c = content := by
  have hname := ofPattern_of_ofPatterns hs
  by_cases hslash : '/' ∈ pattern.toList
  · rw [h.not_describes hname hslash hproper hentry hget] at hn
    cases hn
  · have hinst := ArtifactName.isEntryName_instantiate hname hslash v
    obtain ⟨rfl, rfl⟩ := List.cons.inj (eq_place_of_isEntryName hdir hinst hentry)
    by_cases hplace : n = s.name.instantiate v
    · subst hplace
      rw [h.artifact] at hget
      cases hget
      exact ⟨rfl, rfl⟩
    · obtain ⟨hget, hstale⟩ := h.get?_back (by simpa using hplace) hget
      exact absurd ⟨n, c, rfl, hn, hget⟩ hstale

/-- **A failure leaves no second file that would be published.** Where nothing can be picked,
nothing changes. Where the copy cannot be moved, it is gone and so are all stale files. Where the
check at the end fails, the copy stands at the place of the artifact, and no other file of the
directory would be published. -/
theorem stage_error_clean (hs : ofPatterns outputDir extension exclude pattern = .ok s)
    (hproper : d.tree.IsProper) {error : ReleaseError} (h : s.stage d v = (.error error, d')) :
    (∀ dir listing, error = .noArtifactFound dir listing → d' = d) ∧
    (∀ path cause, error = .artifactIo .rename path cause →
      ∃ out, d.locateDirectory s.outputDir = .ok out ∧ d'.locateDirectory s.outputDir = .ok out ∧
        (∀ n content, d'.tree.get? (n :: out) = some (.file content) →
          s.name.publishGlob.describes n = false) ∧
        ∀ loc, d.tree.get? loc = none → d'.tree.get? loc = none) ∧
    ∀ dir glob found, error = .artifactPostcondition dir glob found →
      ∃ out first rest bytes, d.locateDirectory s.outputDir = .ok out ∧
        d'.locateDirectory s.outputDir = .ok out ∧ s.candidates d = .ok (first :: rest) ∧
        d.readBytes first = .ok bytes ∧
        (∀ n content, d'.tree.get? (n :: out) = some (.file content) →
          s.name.publishGlob.describes n = true → n = s.name.instantiate v ∧ content = bytes) ∧
        ∀ loc, d.tree.get? loc = none → d'.tree.get? loc ≠ none →
          ∃ parent name, d.locateEntry (s.pathOf (s.name.instantiate v)) = .ok (parent, name) ∧
            loc = name :: parent := by
  rcases stage_cases hproper s v with ⟨dir, listing, hstage, hnone⟩ |
    ⟨out, chosen, rest, bytes, hdir, hselect, hfile, hends⟩
  · cases hstage.symm.trans h
    simp
  · have hcandidates := candidates_eq hdir
    rw [hselect] at hcandidates
    have hread := Disk.readBytes_join hdir (hproper _ _ hfile chosen (List.mem_cons_self ..)) hfile
    rcases hends with ⟨cause, d₁, hstage, hcleared, -⟩ |
      ⟨parent, name, d₁, hentry, hreplaced, hstage⟩
    · cases hstage.symm.trans h
      refine ⟨by simp, fun _ _ _ => ⟨out, hdir, ?_, fun n c => hcleared.not_describes, ?_⟩, by simp⟩
      · exact Disk.locateDirectory_of_keeps hdir hcleared.keeps hcleared.cwd
      · intro loc hnone
        rw [hcleared.same loc, hnone]
        rintro ⟨_, _, -, -, hget⟩
        rw [hnone] at hget
        cases hget
    · cases hverify : s.verify d₁ (s.pathOf (s.name.instantiate v)) with
      | ok u =>
        rw [hverify] at hstage
        cases hstage.symm.trans h
      | error e =>
        rw [hverify] at hstage
        cases hstage.symm.trans h
        rcases verify_eq_error hverify with ⟨path, cause, rfl⟩ | ⟨out', hdir', hpost⟩
        · simp
        · obtain ⟨-, rfl⟩ := (hreplaced.locateDirectory_iff hdir).1 hdir'
          refine ⟨?_, ?_, fun _ _ _ _ =>
            ⟨out', _, _, bytes, hdir, hdir', hcandidates, hread, ?_, ?_⟩⟩
          · rintro dir listing rfl
            simp at hpost
          · rintro path cause rfl
            simp at hpost
          · exact fun n c => hreplaced.eq_artifact hs hproper hdir hentry
          · exact fun loc hnone hsome => ⟨parent, name, hentry, hreplaced.eq_place hnone hsome⟩

/-- A directory whose only archive has a name of the published form, where a directory has the name
of the first version. -/
def blockedDisk : Disk where
  tree := ⟨[(["target"], .directory), (["app-1.0-SNAPSHOT.jar", "target"], .file ⟨#[1]⟩),
    (["app-1.0.0.jar", "target"], .directory)], by simp⟩
  cwd := []

theorem locateDirectory_blockedDisk : blockedDisk.locateDirectory ⟨"target"⟩ = .ok ["target"] := by
  decide +kernel

/-- The archive can be picked. -/
theorem exists_candidates_blockedDisk :
    ∃ first rest, (appStaging ⟨"target"⟩).candidates blockedDisk = .ok (first :: rest) :=
  (exists_candidates_iff locateDirectory_blockedDisk).2
    ⟨"app-1.0-SNAPSHOT.jar", .file ⟨#[1]⟩, rfl, by decide +kernel⟩

/-- The archive has the published form, and it is gone when the copy of it finds no place. -/
theorem stage_at_directory : ∃ cause d',
    blockedDisk.tree.get? ["app-1.0-SNAPSHOT.jar", "target"] = some (.file ⟨#[1]⟩) ∧
    (appStaging ⟨"target"⟩).stage blockedDisk .initial =
      (.error (.artifactIo .rename ⟨"target/app-1.0.0.jar"⟩ cause), d') ∧
    ∀ content, d'.tree.get? ["app-1.0-SNAPSHOT.jar", "target"] ≠ some (.file content) := by
  have hs := ofPatterns_appStaging ⟨"target"⟩
  have hproper : blockedDisk.tree.IsProper := by decide
  have hdir := locateDirectory_blockedDisk
  obtain ⟨first, rest, hfirst⟩ := exists_candidates_blockedDisk
  obtain ⟨_, _, _, hout, -, -, ⟨cause, herror, -⟩ | ⟨place, hreplaced, hplace⟩⟩ :=
    stage_of_candidates hproper hfirst .initial
  · have hstage : (appStaging ⟨"target"⟩).stage blockedDisk .initial =
        (.error (.artifactIo .rename ⟨"target/app-1.0.0.jar"⟩ cause),
          ((appStaging ⟨"target"⟩).stage blockedDisk .initial).2) := Prod.ext herror rfl
    obtain ⟨-, hclean, -⟩ := stage_error_clean hs hproper hstage
    obtain ⟨_, hout', -, hfiles, -⟩ := hclean _ _ rfl
    cases hdir.symm.trans hout'
    refine ⟨cause, _, rfl, hstage, fun content hget => ?_⟩
    -- no file that is left has the published form
    have hspared := hfiles _ _ hget
    revert hspared
    decide
  · cases hdir.symm.trans hout
    have hown := hplace (by decide +kernel)
    subst hown
    exact absurd rfl hreplaced.notDirectory

end Staging

end ReleaseCut
