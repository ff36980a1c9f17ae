import ReleaseCut.Proofs.Artifact.Publish
import ReleaseCut.Proofs.Config.Load

/-!
# What staging touches

Staging is meant to touch nothing but the files and links of the output directory
(`Disk.ConfinedTo`). The files that it removes have bare names there, but the artifact is moved to a
path: the name for the version, as seen from that directory. A pattern with a slash passes
validation and may lead that path elsewhere (`Staging.Escapes`).

`Staging.stage_confined_iff`: the artifact outside of the directory is all that can be touched
besides. It is left there by a run that fails, and no pattern without a slash brings it there.
-/

namespace ReleaseCut

/-- Nothing changes but files and links of one directory. -/
structure Disk.ConfinedTo (d : Disk) (dir : Path) (d' : Disk) : Prop where
  /-- The working directory stays. -/
  cwd : d'.cwd = d.cwd
  /-- What does not stand in the directory itself stays as it is. -/
  outside : ∀ loc, d.locateDirectory dir ≠ .ok loc.tail → d'.tree.get? loc = d.tree.get? loc
  /-- No directory comes or goes. -/
  directories : ∀ loc, d'.tree.get? loc = some .directory ↔ d.tree.get? loc = some .directory

namespace Staging

variable {s : Staging} {d d' : Disk} {out place loc : Location} {bytes : ByteArray} {v : Version}
  {outputDir : Path} {extension exclude pattern : String}

/-- The artifact is to be moved to a place outside of the output directory. -/
structure Escapes (s : Staging) (d : Disk) (v : Version) (place : Location) (bytes : ByteArray) :
    Prop where
  /-- The bytes are those of the first candidate. -/
  picked : ∃ first rest, s.candidates d = .ok (first :: rest) ∧ d.readBytes first = .ok bytes
  /-- The path of the artifact leads to the place. -/
  isPlace : s.IsPlace d v place
  /-- The place is not one in the output directory. -/
  outside : d.locateDirectory s.outputDir ≠ .ok place.tail

/-! ### The disk after staging -/

/-- Nothing is picked and nothing changes, or what is picked is moved to its place if it has one. -/
theorem disk_of_stage (hproper : d.tree.IsProper) (s : Staging) (v : Version) :
    ((∀ first rest, s.candidates d ≠ .ok (first :: rest)) ∧ (s.stage d v).2 = d) ∨
    ∃ out first rest bytes, d.locateDirectory s.outputDir = .ok out ∧
      s.candidates d = .ok (first :: rest) ∧ d.readBytes first = .ok bytes ∧
      ((∀ place, ¬ s.IsPlace d v place) ∧ Cleared s d out (s.stage d v).2 ∨
        ∃ place, s.IsPlace d v place ∧ Replaced s d out place bytes (s.stage d v).2) := by
  rcases stage_cases hproper s v with ⟨dir, listing, hstage, hnone⟩ |
    ⟨out, chosen, rest, bytes, hdir, hselect, hfile, -⟩
  · refine .inl ⟨fun first rest h => ?_, by rw [hstage]⟩
    obtain ⟨out, _, _, hdir, hselect, -⟩ := select_of_candidates h
    rw [hnone out hdir] at hselect
    cases hselect
  · have hcandidates := candidates_eq hdir
    rw [hselect] at hcandidates
    have hread := Disk.readBytes_join hdir (hproper _ _ hfile chosen (List.mem_cons_self ..)) hfile
    exact .inr ⟨out, _, _, bytes, hdir, hcandidates, hread,
      stage_of_select hproper hdir hselect hfile v⟩

/-- Where the stale files were cleared, nothing else changed. -/
theorem Cleared.confinedTo (h : Cleared s d out d')
    (hdir : d.locateDirectory s.outputDir = .ok out) : d.ConfinedTo s.outputDir d' where
  cwd := h.cwd
  outside loc hloc := by
    refine h.same loc ?_
    rintro ⟨n, _, rfl, -, -⟩
    exact hloc hdir
  directories loc :=
    ⟨fun hget => (h.get?_back hget).1, fun hget => h.keeps loc _ hget (by simp)⟩

/-- Where the copy took its place, nothing changed but the place and files of the directory. -/
theorem Replaced.outside (h : Replaced s d out place bytes d')
    (hdir : d.locateDirectory s.outputDir = .ok out) (hne : loc ≠ place)
    (hloc : d.locateDirectory s.outputDir ≠ .ok loc.tail) :
    d'.tree.get? loc = d.tree.get? loc := by
  refine h.same loc hne ?_
  rintro ⟨n, _, rfl, -, -⟩
  exact hloc hdir

/-- The copy takes the place of no directory. -/
theorem Replaced.directories (h : Replaced s d out place bytes d') (loc : Location) :
    d'.tree.get? loc = some .directory ↔ d.tree.get? loc = some .directory := by
  by_cases hloc : loc = place
  · subst hloc
    simp [h.artifact, h.notDirectory]
  · exact ⟨fun hget => (h.get?_back hloc hget).1, fun hget => h.keeps loc _ hloc hget (by simp)⟩

/-- An artifact that is to be moved outside stands there afterwards. -/
theorem Escapes.get? (h : s.Escapes d v place bytes) (hproper : d.tree.IsProper) :
    (s.stage d v).2.tree.get? place = some (.file bytes) := by
  obtain ⟨first, rest, hfirst, hread⟩ := h.picked
  rcases disk_of_stage hproper s v with ⟨hnone, -⟩ |
    ⟨out, first', rest', bytes', -, hfirst', hread', ⟨hnowhere, -⟩ | ⟨place', hplace, hreplaced⟩⟩
  · exact absurd hfirst (hnone first rest)
  · exact absurd h.isPlace (hnowhere place)
  · cases hfirst.symm.trans hfirst'
    cases hread.symm.trans hread'
    exact h.isPlace.unique hplace ▸ hreplaced.artifact

/-- Staging is confined unless the copy takes its place. -/
theorem confinedTo_or_replaced (hproper : d.tree.IsProper) (s : Staging) (v : Version) :
    d.ConfinedTo s.outputDir (s.stage d v).2 ∨
    ∃ out first rest place bytes, d.locateDirectory s.outputDir = .ok out ∧
      s.candidates d = .ok (first :: rest) ∧ d.readBytes first = .ok bytes ∧
      s.IsPlace d v place ∧ Replaced s d out place bytes (s.stage d v).2 := by
  rcases disk_of_stage hproper s v with ⟨-, hsame⟩ |
    ⟨out, first, rest, bytes, hdir, hfirst, hread, ⟨-, hcleared⟩ | ⟨place, hplace, hreplaced⟩⟩
  · rw [hsame]
    exact .inl ⟨rfl, fun _ _ => rfl, fun _ => .rfl⟩
  · exact .inl (hcleared.confinedTo hdir)
  · exact .inr ⟨out, first, rest, place, bytes, hdir, hfirst, hread, hplace, hreplaced⟩

/-- All else outside of the directory stays as it is. -/
theorem get?_of_not_escapes (hproper : d.tree.IsProper)
    (hloc : d.locateDirectory s.outputDir ≠ .ok loc.tail)
    (hplace : ∀ bytes, ¬ s.Escapes d v loc bytes) :
    (s.stage d v).2.tree.get? loc = d.tree.get? loc := by
  rcases confinedTo_or_replaced hproper s v with hconfined |
    ⟨out, first, rest, place, bytes, hdir, hfirst, hread, hisPlace, hreplaced⟩
  · exact hconfined.outside loc hloc
  · refine hreplaced.outside hdir ?_ hloc
    rintro rfl
    exact hplace bytes ⟨⟨first, rest, hfirst, hread⟩, hisPlace, hloc⟩

/-- No directory comes or goes. -/
theorem directories_of_stage (hproper : d.tree.IsProper) (s : Staging) (v : Version)
    (loc : Location) : (s.stage d v).2.tree.get? loc = some .directory ↔
      d.tree.get? loc = some .directory := by
  rcases confinedTo_or_replaced hproper s v with hconfined | ⟨_, _, _, _, _, -, -, -, -, hreplaced⟩
  · exact hconfined.directories loc
  · exact hreplaced.directories loc

theorem cwd_of_stage (hproper : d.tree.IsProper) (s : Staging) (v : Version) :
    (s.stage d v).2.cwd = d.cwd := by
  rcases confinedTo_or_replaced hproper s v with hconfined | ⟨_, _, _, _, _, -, -, -, -, hreplaced⟩
  · exact hconfined.cwd
  · exact hreplaced.cwd

/-! ### The artifact outside -/

/-- Only a pattern with a slash leads the artifact outside. -/
theorem Escapes.slash_mem (h : s.Escapes d v place bytes)
    (hs : ofPatterns outputDir extension exclude pattern = .ok s) : '/' ∈ pattern.toList := by
  refine by_contra fun hslash => ?_
  obtain ⟨first, rest, hfirst, -⟩ := h.picked
  obtain ⟨out, _, _, hdir, -, -⟩ := select_of_candidates hfirst
  obtain ⟨parent, name, hentry, rfl⟩ := h.isPlace.entry
  have hinst := ArtifactName.isEntryName_instantiate (ofPattern_of_ofPatterns hs) hslash v
  -- the artifact would have its place in the directory
  rw [eq_place_of_isEntryName hdir hinst hentry] at h
  exact h.outside hdir

/-- A run that leads the artifact outside fails. -/
theorem Escapes.exists_error (h : s.Escapes d v place bytes)
    (hs : ofPatterns outputDir extension exclude pattern = .ok s) (hproper : d.tree.IsProper) :
    ∃ e, (s.stage d v).1 = .error e := by
  obtain ⟨first, rest, hfirst, -⟩ := h.picked
  obtain ⟨out, _, _, hdir, -, -⟩ := select_of_candidates hfirst
  cases hresult : (s.stage d v).1 with
  | error e => exact ⟨e, rfl⟩
  | ok asset =>
    have hslash := ((exists_stage_iff hs hproper hdir v).1 ⟨asset, _, Prod.ext hresult rfl⟩).2.1
    exact absurd (h.slash_mem hs) hslash

/-- Staging is confined exactly if what it leaves outside stood there before. -/
theorem confinedTo_iff (hproper : d.tree.IsProper) (s : Staging) (v : Version) :
    d.ConfinedTo s.outputDir (s.stage d v).2 ↔
      ∀ place bytes, s.Escapes d v place bytes → d.tree.get? place = some (.file bytes) := by
  constructor
  · intro h place bytes hescapes
    rw [← h.outside place hescapes.outside, hescapes.get? hproper]
  · intro h
    refine ⟨cwd_of_stage hproper s v, fun loc hloc => ?_, directories_of_stage hproper s v⟩
    by_cases hplace : ∃ bytes, s.Escapes d v loc bytes
    · obtain ⟨bytes, hescapes⟩ := hplace
      rw [hescapes.get? hproper, h loc bytes hescapes]
    · exact get?_of_not_escapes hproper hloc (not_exists.1 hplace)

/-- **What staging touches.** With a valid configuration, files and links of the output directory
are all that changes, unless the artifact is led outside. Then it is left there, the run fails, and
nothing else is touched; and the pattern of the name holds a slash. -/
theorem stage_confined_iff {c : Config} (hvalid : c.validate = .ok ()) (hproper : d.tree.IsProper)
    (root : Path) (v : Version) : ∃ s, c.staging root = .ok s ∧
    ('/' ∉ c.artifact.namePattern.toList → d.ConfinedTo s.outputDir (s.stage d v).2) ∧
    (d.ConfinedTo s.outputDir (s.stage d v).2 ↔
      ∀ place bytes, s.Escapes d v place bytes → d.tree.get? place = some (.file bytes)) ∧
    (∀ place bytes, s.Escapes d v place bytes → '/' ∈ c.artifact.namePattern.toList ∧
      (s.stage d v).2.tree.get? place = some (.file bytes) ∧
      ∃ e, (s.stage d v).1 = .error e) ∧
    (∀ loc, d.locateDirectory s.outputDir ≠ .ok loc.tail →
      (∀ bytes, ¬ s.Escapes d v loc bytes) →
      (s.stage d v).2.tree.get? loc = d.tree.get? loc) ∧
    ∀ loc, (s.stage d v).2.tree.get? loc = some .directory ↔
      d.tree.get? loc = some .directory := by
  obtain ⟨s, hstaging⟩ := (Config.validate_eq_ok_iff.1 hvalid).exists_staging root
  have hs := Except.mapError_eq_ok_iff.1 hstaging
  have hconfined := confinedTo_iff hproper s v
  refine ⟨s, hstaging, fun hslash => ?_, hconfined, fun place bytes h => ?_,
    fun loc => get?_of_not_escapes hproper, directories_of_stage hproper s v⟩
  · exact hconfined.2 fun place bytes h => absurd (h.slash_mem hs) hslash
  · exact ⟨h.slash_mem hs, h.get? hproper, h.exists_error hs hproper⟩

/-- A project that publishes archives under names of a pattern. -/
def publishing (pattern : String) : Config :=
  { Config.standard with
    artifact := { ArtifactConfig.standard with excludePattern := "", namePattern := pattern } }

/-- Beside a directory of the artifact's name, staging stays in the output directory. -/
theorem stage_confined_beside_directory : (publishing "app-{version}.jar").validate = .ok () ∧
    (appDisk .directory).tree.IsProper ∧
    ∃ s, (publishing "app-{version}.jar").staging ⟨""⟩ = .ok s ∧
      (appDisk .directory).ConfinedTo s.outputDir (s.stage (appDisk .directory) .initial).2 := by
  have hvalid : (publishing "app-{version}.jar").validate = .ok () := by decide +kernel
  have hproper : (appDisk .directory).tree.IsProper := by decide
  obtain ⟨s, hs, hconfined, -⟩ := stage_confined_iff hvalid hproper ⟨""⟩ .initial
  exact ⟨hvalid, hproper, s, hs, hconfined (by decide)⟩

/-- Artifacts that are called after the version, to be moved out of their directory. -/
def outwardStaging : Staging :=
  { appStaging ⟨"target"⟩ with
    name :=
      { template := ⟨"../app-", ".jar"⟩
        publishGlob := ⟨"../app-*.jar",
          "../app-".toList.map .literal ++ .run :: ".jar".toList.map .literal⟩ } }

/-- A pattern that leads up is valid, and puts the artifact beside the output directory. -/
theorem stage_leaves_directory : (publishing "../app-{version}.jar").validate = .ok () ∧
    (appDisk (.file ⟨#[2]⟩)).tree.IsProper ∧
    (publishing "../app-{version}.jar").staging ⟨""⟩ = .ok outwardStaging ∧
    (appDisk (.file ⟨#[2]⟩)).tree.get? ["app-1.0.0.jar"] = none ∧
    (outwardStaging.stage (appDisk (.file ⟨#[2]⟩)) .initial).2.tree.get? ["app-1.0.0.jar"] ≠ none ∧
    ¬ (appDisk (.file ⟨#[2]⟩)).ConfinedTo outwardStaging.outputDir
      (outwardStaging.stage (appDisk (.file ⟨#[2]⟩)) .initial).2 := by
  have hproper : (appDisk (.file ⟨#[2]⟩)).tree.IsProper := by decide
  have hdir : (appDisk (.file ⟨#[2]⟩)).locateDirectory outwardStaging.outputDir =
      .ok ["target"] := by
    decide +kernel
  obtain ⟨first, rest, hfirst⟩ := (exists_candidates_iff hdir).2
    ⟨"x.jar", .file ⟨#[1]⟩, rfl, by decide +kernel⟩
  obtain ⟨_, _, bytes, -, hread, -, -⟩ := stage_of_candidates hproper hfirst .initial
  have hescapes :
      outwardStaging.Escapes (appDisk (.file ⟨#[2]⟩)) .initial ["app-1.0.0.jar"] bytes :=
    { picked := ⟨first, rest, hfirst, hread⟩
      isPlace :=
        { entry := ⟨[], "app-1.0.0.jar", by decide +kernel, rfl⟩
          slash := by decide +kernel
          notDirectory := by decide }
      outside := by simp [hdir] }
  refine ⟨by decide +kernel, hproper, by decide +kernel, rfl, ?_, fun hconfined => ?_⟩
  · simp [hescapes.get? hproper]
  · cases (confinedTo_iff hproper _ _).1 hconfined _ _ hescapes

end Staging

end ReleaseCut
