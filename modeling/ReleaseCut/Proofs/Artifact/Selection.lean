import ReleaseCut.Proofs.Artifact.Publish
import ReleaseCut.Proofs.Text.ByteOrder

/-!
# Which file is picked

`Staging.IsRanking` says which names may be picked out of a directory and in what order: those of
the files with the extension that are not excluded, fresh build output before what an earlier
release left behind, and each of these by the bytes of the names. There is only one such ranking
(`IsRanking.unique`), and the selection is it (`exists_ranking`). So it does not matter in which
order a directory is listed.

`Staging.candidates_ranked` adds what staging makes of it: the first file is copied and the copy
published (`Staging.Copies`), and no artifact is found exactly where there is no first file.
-/

namespace ReleaseCut

namespace Staging

variable {outputDir : Path} {extension exclude pattern : String} {s : Staging} {d d' : Disk}
  {t : FileTree} {out : Location} {n : String} {v : Version} {fresh old fresh' old' : List String}

/-! ### The ranking -/

/-- A file of a directory that may be picked. -/
structure IsEligible (s : Staging) (t : FileTree) (dir : Location) (n : String) : Prop where
  /-- It is a file, neither a directory nor a link. -/
  file : ∃ content, t.get? (n :: dir) = some (.file content)
  /-- Its name ends in the extension. -/
  extension : s.extension.toList <:+ n.toList
  /-- Its name is not excluded. -/
  kept : s.exclude.describes n = false

theorem isEligible_iff :
    s.IsEligible t out n ↔ ∃ e, t.get? (n :: out) = some e ∧ s.isCandidate (n, e) = true := by
  simp only [isCandidate, Bool.and_eq_true, List.isSuffixOf_iff_suffix, Bool.not_eq_true']
  constructor
  · rintro ⟨⟨content, hget⟩, hextension, hkept⟩
    exact ⟨_, hget, ⟨rfl, hextension⟩, hkept⟩
  · rintro ⟨e, hget, ⟨hfile, hextension⟩, hkept⟩
    obtain ⟨content, rfl⟩ := Entry.exists_of_isFile hfile
    exact ⟨⟨content, hget⟩, hextension, hkept⟩

/-- The files of a directory that may be picked, best first. -/
structure IsRanking (s : Staging) (t : FileTree) (dir : Location) (fresh old : List String) :
    Prop where
  /-- First come those that are not named after a release. -/
  mem_fresh : ∀ n, n ∈ fresh ↔ s.IsEligible t dir n ∧ s.name.releasedVersion? n = none
  /-- Then those that are. -/
  mem_old : ∀ n, n ∈ old ↔ s.IsEligible t dir n ∧ ∃ v, s.name.releasedVersion? n = some v
  /-- The former go by the bytes of their names. -/
  ascending_fresh : fresh.Pairwise fun a b => compare (Text.bytes a) (Text.bytes b) = .lt
  /-- So do the latter. -/
  ascending_old : old.Pairwise fun a b => compare (Text.bytes a) (Text.bytes b) = .lt

namespace IsRanking

/-- Names in the order of their bytes are given by which they are. -/
private theorem eq_of_ascending {ns ns' : List String}
    (h : ns.Pairwise fun a b => compare (Text.bytes a) (Text.bytes b) = .lt)
    (h' : ns'.Pairwise fun a b => compare (Text.bytes a) (Text.bytes b) = .lt)
    (hmem : ∀ n, n ∈ ns ↔ n ∈ ns') : ns = ns' := by
  simp only [Text.compare_bytes_eq_lt_iff] at h h'
  exact h.eq_of_mem_iff h' hmem

/-- There is only one ranking. -/
theorem unique (h : s.IsRanking t out fresh old) (h' : s.IsRanking t out fresh' old') :
    fresh = fresh' ∧ old = old' :=
  ⟨eq_of_ascending h.ascending_fresh h'.ascending_fresh fun n => by
      rw [h.mem_fresh, h'.mem_fresh],
    eq_of_ascending h.ascending_old h'.ascending_old fun n => by rw [h.mem_old, h'.mem_old]⟩

/-- Names of releases are not among the others. -/
theorem nodup (h : s.IsRanking t out fresh old) : (fresh ++ old).Nodup := by
  have hne : ∀ {a b : String}, compare (Text.bytes a) (Text.bytes b) = .lt → a ≠ b := by
    rintro a _ hlt rfl
    exact lt_irrefl a (Text.compare_bytes_eq_lt_iff.1 hlt)
  refine List.nodup_append.2 ⟨h.ascending_fresh.imp hne, h.ascending_old.imp hne, ?_⟩
  rintro a ha _ hb rfl
  obtain ⟨-, v, hv⟩ := (h.mem_old a).1 hb
  rw [((h.mem_fresh a).1 ha).2] at hv
  cases hv

theorem mem_iff (h : s.IsRanking t out fresh old) : n ∈ fresh ++ old ↔ s.IsEligible t out n := by
  rw [List.mem_append, h.mem_fresh, h.mem_old, ← and_or_left, ← Option.isSome_iff_exists,
    ← Option.isNone_iff_eq_none]
  cases s.name.releasedVersion? n <;> simp

/-- Names in this order make the ranking if they are those of the files that may be picked. -/
theorem of_mem_iff (hmem : ∀ n, n ∈ fresh ++ old ↔ s.IsEligible t out n)
    (hfresh : ∀ n ∈ fresh, s.name.releasedVersion? n = none)
    (hold : ∀ n ∈ old, (s.name.releasedVersion? n).isSome)
    (hascending : ∀ ns ∈ [fresh, old],
      ns.Pairwise fun a b => compare (Text.bytes a) (Text.bytes b) = .lt) :
    s.IsRanking t out fresh old where
  mem_fresh n := by
    rw [← hmem, List.mem_append]
    refine ⟨fun hn => ⟨.inl hn, hfresh n hn⟩, fun ⟨hn, hnone⟩ => hn.resolve_right fun hn => ?_⟩
    have hsome := hold n hn
    rw [hnone] at hsome
    cases hsome
  mem_old n := by
    rw [← hmem, List.mem_append, ← Option.isSome_iff_exists]
    refine ⟨fun hn => ⟨.inr hn, hold n hn⟩, fun ⟨hn, hsome⟩ => hn.resolve_left fun hn => ?_⟩
    rw [hfresh n hn] at hsome
    cases hsome
  ascending_fresh := hascending fresh (by simp)
  ascending_old := hascending old (by simp)

end IsRanking

/-- What is selected out of a directory is ranked. -/
theorem exists_ranking (s : Staging) (t : FileTree) (out : Location) :
    ∃ fresh old, s.select (t.children out) = fresh ++ old ∧ s.IsRanking t out fresh old := by
  have hmem : ∀ n, n ∈ ((t.children out).filter s.isCandidate).map Prod.fst ↔
      s.IsEligible t out n := by
    intro n
    simp [isEligible_iff, FileTree.mem_children]
  have hascending : (((t.children out).filter s.isCandidate).map Prod.fst).Pairwise fun a b =>
      compare (Text.bytes a) (Text.bytes b) = .lt := by
    simp only [Text.compare_bytes_eq_lt_iff]
    exact List.pairwise_map.2 ((t.pairwise_children out).filter _)
  refine ⟨_, _, rfl, ?_, ?_, hascending.filter _, hascending.filter _⟩
  · intro n
    rw [List.mem_filter, hmem, isReleased, Bool.not_eq_true', Option.isSome_eq_false_iff,
      Option.isNone_iff_eq_none]
  · intro n
    rw [List.mem_filter, hmem, isReleased, Option.isSome_iff_exists]

/-- The order in which directories are listed does not show. -/
theorem candidates_eq_of_perm (hcwd : d'.cwd = d.cwd) (h : d'.tree.entries.Perm d.tree.entries) :
    s.candidates d' = s.candidates d := by
  rw [candidates, candidates, scan, scan, OperatingSystem.list_standard,
    Disk.list_congr hcwd (FileTree.get?_eq_of_perm h)]

/-- No path is listed twice. -/
private theorem nodup_map_pathOf (hproper : d.tree.IsProper)
    (h : s.IsRanking d.tree out fresh old) : ((fresh ++ old).map s.pathOf).Nodup := by
  refine h.nodup.map_on fun a ha b hb hab => ?_
  -- a path ends in its name
  have hname : ∀ n ∈ fresh ++ old, (s.pathOf n).fileName? = some n := by
    intro n hn
    obtain ⟨⟨content, hget⟩, -, -⟩ := h.mem_iff.1 hn
    exact Path.fileName?_join (hproper _ _ hget n (List.mem_cons_self ..))
  exact Option.some.inj ((hname a ha).symm.trans (hab ▸ hname b hb))

/-! ### What is made of it -/

/-- Staging makes a copy with some bytes, publishes it, and writes nothing else. -/
structure Copies (s : Staging) (d : Disk) (v : Version) (bytes : ByteArray) : Prop where
  /-- The copy is made beside all that was there, and then it is published. -/
  copy : ∃ out temp d₁, d.locateDirectory s.outputDir = .ok out ∧ d.Added temp bytes d₁ ∧
    s.stage d v = s.publish d₁ temp (s.stale (d.tree.children out)) v
  /-- It is moved to the place that the path of the artifact leads to, if there is one. -/
  moved : ∀ place, s.IsPlace d v place →
    (s.stage d v).2.tree.get? place = some (.file bytes)
  /-- However this ends, any other file was there before. -/
  only : ∀ loc content, (s.stage d v).2.tree.get? loc = some (.file content) →
    d.tree.get? loc = some (.file content) ∨ content = bytes
  /-- The artifact has the bytes. -/
  artifact : ∀ asset, (s.stage d v).1 = .ok asset →
    (s.stage d v).2.readBytes asset.path = .ok bytes

/-- The first candidate is what is copied. -/
theorem copies_first (hs : ofPatterns outputDir extension exclude pattern = .ok s)
    (hproper : d.tree.IsProper) {first : Path} {rest : List Path}
    (h : s.candidates d = .ok (first :: rest)) (v : Version) :
    ∃ bytes, d.readBytes first = .ok bytes ∧ s.Copies d v bytes := by
  obtain ⟨out, chosen, others, hdir, hselect, rfl⟩ := select_of_candidates h
  obtain ⟨bytes, hfile⟩ := exists_file_of_mem_select (hselect ▸ List.mem_cons_self ..)
  have hread := Disk.readBytes_join hdir (hproper _ _ hfile chosen (List.mem_cons_self ..)) hfile
  have hends := stage_of_select hproper hdir hselect hfile v
  refine ⟨bytes, hread, ?_, ?_, ?_, ?_⟩
  case refine_1 =>
    obtain ⟨temp, d₁, hadded, hstage⟩ := exists_copy hproper hdir hselect hfile v
    exact ⟨out, temp, d₁, hdir, hadded, hstage⟩
  case refine_2 =>
    intro place hplace
    rcases hends with ⟨hnone, -⟩ | ⟨place', hplace', hreplaced⟩
    · exact absurd hplace (hnone place)
    · exact hplace.unique hplace' ▸ hreplaced.artifact
  case refine_3 =>
    intro loc content hget
    rcases hends with ⟨-, hcleared⟩ | ⟨place, -, hreplaced⟩
    · exact .inl (hcleared.get?_back hget).1
    · by_cases hplace : loc = place
      · rw [hplace, hreplaced.artifact] at hget
        exact .inr (Entry.file.inj (Option.some.inj hget)).symm
      · exact .inl (hreplaced.get?_back hplace hget).1
  case refine_4 =>
    intro asset hasset
    have hstage : s.stage d v = (.ok asset, (s.stage d v).2) := Prod.ext hasset rfl
    obtain ⟨-, hslash, -⟩ := (exists_stage_iff hs hproper hdir v).1 ⟨_, _, hstage⟩
    obtain ⟨rfl, first', rest', bytes', hcandidates, hread', hpublished⟩ :=
      published_of_stage hs hproper hdir hstage
    obtain ⟨rfl, -⟩ := List.cons.inj (Except.ok.inj (h.symm.trans hcandidates))
    obtain rfl := Except.ok.inj (hread.symm.trans hread')
    exact Disk.readBytes_join (locateDirectory_of_stage hproper hdir hstage)
      (ArtifactName.isEntryName_instantiate (ofPattern_of_ofPatterns hs) hslash v)
      hpublished.artifact

/-- **Which file is picked, and what staging makes of it.** In whatever order a directory is listed,
the candidates are the files that may be picked, each of them once, best first. The first one is
copied and published, and no artifact is found exactly where there is no first one. -/
theorem candidates_ranked (hs : ofPatterns outputDir extension exclude pattern = .ok s)
    (hproper : d.tree.IsProper) (v : Version) :
    (s.extension = dotted extension ∧ Glob.ofConfig exclude = .ok s.exclude) ∧
    (∀ out, d.locateDirectory s.outputDir = .ok out → ∃ fresh old,
      s.candidates d = .ok ((fresh ++ old).map s.pathOf) ∧
        ((fresh ++ old).map s.pathOf).Nodup ∧ s.IsRanking d.tree out fresh old) ∧
    (∀ d' : Disk, d'.cwd = d.cwd → d'.tree.entries.Perm d.tree.entries →
      s.candidates d' = s.candidates d) ∧
    (∀ first rest, s.candidates d = .ok (first :: rest) →
      ∃ bytes, d.readBytes first = .ok bytes ∧ s.Copies d v bytes) ∧
    ((∃ dir listing, (s.stage d v).1 = .error (.noArtifactFound dir listing)) ↔
      s.candidates d = .ok [] ∨ ∃ e, d.list s.outputDir = .error e) := by
  refine ⟨?_, fun out hdir => ?_, fun d' hcwd => candidates_eq_of_perm hcwd,
    fun first rest h => copies_first hs hproper h v, stage_eq_noArtifactFound_iff⟩
  · obtain ⟨exclude', hexclude, hs⟩ := Except.bind_eq_ok_iff.1 hs
    obtain ⟨name, -, hs⟩ := Except.bind_eq_ok_iff.1 hs
    cases hs
    exact ⟨rfl, hexclude⟩
  · obtain ⟨fresh, old, hselect, hranking⟩ := s.exists_ranking d.tree out
    refine ⟨fresh, old, ?_, nodup_map_pathOf hproper hranking, hranking⟩
    rw [candidates_eq hdir, hselect]

/-- A directory after a build, with archives of earlier releases and what is no file. -/
def builtDisk : Disk where
  tree := ⟨[(["target"], .directory), (["app-1.0.0.jar", "target"], .file ⟨#[1]⟩),
    (["app-1.1-SNAPSHOT.jar", "target"], .file ⟨#[2]⟩), (["classes.jar", "target"], .directory),
    (["app-0.9.0.jar", "target"], .file ⟨#[3]⟩),
    (["app-1.0-SNAPSHOT.jar", "target"], .file ⟨#[4]⟩),
    (["latest.jar", "target"], .link ⟨"app-1.0.0.jar"⟩)], by simp⟩
  cwd := []

/-- What stands in the directory. -/
theorem get?_builtDisk {e : Entry} (h : builtDisk.tree.get? [n, "target"] = some e) :
    (n ∈ ["app-1.0-SNAPSHOT.jar", "app-1.1-SNAPSHOT.jar", "app-0.9.0.jar", "app-1.0.0.jar"] ∧
      e.isFile = true) ∨ n ∈ ["classes.jar", "latest.jar"] ∧ e.isFile = false := by
  rw [FileTree.get?_eq_some_iff (by simp)] at h
  have hmem : n = "app-1.0.0.jar" ∧ e = .file ⟨#[1]⟩ ∨
      n = "app-1.1-SNAPSHOT.jar" ∧ e = .file ⟨#[2]⟩ ∨ n = "classes.jar" ∧ e = .directory ∨
      n = "app-0.9.0.jar" ∧ e = .file ⟨#[3]⟩ ∨ n = "app-1.0-SNAPSHOT.jar" ∧ e = .file ⟨#[4]⟩ ∨
      n = "latest.jar" ∧ e = .link ⟨"app-1.0.0.jar"⟩ := by simpa [builtDisk] using h
  rcases hmem with h | h | h | h | h | h <;> obtain ⟨rfl, rfl⟩ := h <;> simp [Entry.isFile]

/-- A version has three numbers. So what is named after two is fresh. -/
private theorem isRanking_builtDisk :
    (appStaging ⟨"target"⟩).IsRanking builtDisk.tree ["target"]
      ["app-1.0-SNAPSHOT.jar", "app-1.1-SNAPSHOT.jar"] ["app-0.9.0.jar", "app-1.0.0.jar"] := by
  refine .of_mem_iff (fun n => ⟨fun hn => ?_, ?_⟩) (by decide +kernel) (by decide +kernel)
    (by decide +kernel)
  · have heligible : ∀ n ∈ ["app-1.0-SNAPSHOT.jar", "app-1.1-SNAPSHOT.jar", "app-0.9.0.jar",
        "app-1.0.0.jar"], (appStaging ⟨"target"⟩).IsEligible builtDisk.tree ["target"] n := by
      simp only [List.forall_mem_cons]
      exact ⟨⟨⟨_, rfl⟩, by decide, by decide⟩, ⟨⟨_, rfl⟩, by decide, by decide⟩,
        ⟨⟨_, rfl⟩, by decide, by decide⟩, ⟨⟨_, rfl⟩, by decide, by decide⟩, by simp⟩
    exact heligible n hn
  · rintro ⟨⟨content, hget⟩, -, -⟩
    rcases get?_builtDisk hget with ⟨hn, -⟩ | ⟨-, hfile⟩
    · exact hn
    · cases hfile

/-- Fresh output comes before earlier releases, and its first file is what is published. -/
theorem candidates_ranked_built :
    (appStaging ⟨"target"⟩).candidates builtDisk =
      .ok [⟨"target/app-1.0-SNAPSHOT.jar"⟩, ⟨"target/app-1.1-SNAPSHOT.jar"⟩,
        ⟨"target/app-0.9.0.jar"⟩, ⟨"target/app-1.0.0.jar"⟩] ∧
    ((appStaging ⟨"target"⟩).stage builtDisk .initial).2.tree.get? ["app-1.0.0.jar", "target"] =
      some (.file ⟨#[4]⟩) := by
  have hs := ofPatterns_appStaging ⟨"target"⟩
  have hdir : builtDisk.locateDirectory ⟨"target"⟩ = .ok ["target"] := by decide +kernel
  obtain ⟨-, hranked, -, hcopies, -⟩ := candidates_ranked hs (d := builtDisk) (by decide) .initial
  obtain ⟨fresh, old, hcandidates, -, hranking⟩ := hranked ["target"] hdir
  obtain ⟨rfl, rfl⟩ := hranking.unique isRanking_builtDisk
  have hpaths : (appStaging ⟨"target"⟩).candidates builtDisk =
      .ok [⟨"target/app-1.0-SNAPSHOT.jar"⟩, ⟨"target/app-1.1-SNAPSHOT.jar"⟩,
        ⟨"target/app-0.9.0.jar"⟩, ⟨"target/app-1.0.0.jar"⟩] := by
    rw [hcandidates]
    decide +kernel
  obtain ⟨bytes, hread, hcopied⟩ := hcopies _ _ hpaths
  have hbytes : builtDisk.readBytes ⟨"target/app-1.0-SNAPSHOT.jar"⟩ = .ok ⟨#[4]⟩ := by
    decide +kernel
  obtain rfl := Except.ok.inj (hbytes.symm.trans hread)
  exact ⟨hpaths, hcopied.moved _
    { entry := ⟨["target"], "app-1.0.0.jar", by decide +kernel, rfl⟩
      slash := by decide +kernel
      notDirectory := by decide }⟩

end Staging

end ReleaseCut
