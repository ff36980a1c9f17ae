import Mathlib.Control.Monad.Basic
import ReleaseCut.Config.Load
import ReleaseCut.Proofs.Except

/-!
# Loading a configuration

* `Config.Chooses` says which file a configuration is loaded from, if from any: the one that is
  asked for, else the one in the working directory, else that of the user.
* `Config.Loads` lists the ways in which a choice is loaded. Only the chosen file is read, and
  whatever is wrong with it is an error: no other file and no default takes its place.
* `Config.loadWith_eq_iff`: a configuration is loaded in one of these ways, and each of them loads
  it. How the text is read makes no difference.
* A configuration that is loaded is valid (`Config.IsValid`), also where nothing is configured.
-/

namespace ReleaseCut.Config

/-! ### Valid configurations -/

/-- What has to hold of a configuration beyond its types. -/
structure IsValid (c : Config) : Prop where
  /-- There is a branch with releases. -/
  branches : c.branches ≠ []
  /-- The tags have a format. -/
  tagFormat : ∃ f, c.tagFormat = .ok f
  /-- The release message names the version. -/
  message : Text.hasPlaceholder c.releaseMessage = true
  /-- The extension is more than dots. -/
  extension : ∃ ch ∈ c.artifact.extension.toList, ch ≠ '.'
  /-- The names that are never published have a pattern. -/
  exclude : ∃ g, Glob.ofConfig c.artifact.excludePattern = .ok g
  /-- The published name has a form. -/
  name : ∃ n, ArtifactName.ofPattern c.artifact.namePattern = .ok n

variable {c : Config}

/-- The checks one after the other. -/
private theorem validate_eq (c : Config) : c.validate =
    if c.branches.isEmpty then .error (.config .noBranch)
    else c.tagFormat >>= fun _ =>
      if !Text.hasPlaceholder c.releaseMessage then .error (.config .noPlaceholder)
      else if c.artifact.extension.toList.all (· == '.') then .error (.config .noExtension)
      else (Glob.ofConfig c.artifact.excludePattern).mapError .config >>= fun _ =>
        (ArtifactName.ofPattern c.artifact.namePattern).mapError .config >>= fun _ => .ok () := by
  rw [validate]
  split
  · rfl
  · refine bind_congr fun f => ?_
    split
    · rfl
    · split <;> rfl

/-- The configurations that pass the checks are the valid ones. -/
theorem validate_eq_ok_iff : c.validate = .ok () ↔ c.IsValid := by
  rw [validate_eq]
  constructor
  · intro h
    split at h
    · cases h
    · next hbranches =>
      obtain ⟨f, hf, h⟩ := Except.bind_eq_ok_iff.1 h
      split at h
      · cases h
      · next hmessage =>
        split at h
        · cases h
        · next hextension =>
          obtain ⟨g, hg, h⟩ := Except.bind_eq_ok_iff.1 h
          obtain ⟨n, hn, -⟩ := Except.bind_eq_ok_iff.1 h
          exact ⟨by simpa using hbranches, ⟨f, hf⟩, by simpa using hmessage,
            by simpa using hextension, ⟨g, Except.mapError_eq_ok_iff.1 hg⟩,
            ⟨n, Except.mapError_eq_ok_iff.1 hn⟩⟩
  · rintro ⟨hbranches, ⟨f, hf⟩, hmessage, hextension, ⟨g, hg⟩, ⟨n, hn⟩⟩
    rw [if_neg (by simpa using hbranches), hf, Except.bind_eq_ok_iff]
    refine ⟨f, rfl, ?_⟩
    rw [if_neg (by simpa using hmessage), if_neg (by simpa using hextension), hg, hn]
    rfl

/-- The standard configuration passes its own checks. -/
theorem isValid_standard : standard.IsValid :=
  validate_eq_ok_iff.1 (by decide +kernel)

/-- The artifact of a valid configuration can be staged from any directory. -/
theorem IsValid.exists_staging (h : c.IsValid) (root : Path) : ∃ s, c.staging root = .ok s := by
  obtain ⟨g, hg⟩ := h.exclude
  obtain ⟨n, hn⟩ := h.name
  exact ⟨_, by rw [staging, Staging.ofPatterns, hg, hn]; rfl⟩

/-! ### Choosing a file -/

/-- The configuration file of the working directory. -/
def here : Path :=
  Path.join ⟨"."⟩ ⟨localFile⟩

/-- The configuration file in the directory of a user. -/
def ofUser (dir : Path) : Path :=
  dir.join ⟨userFile⟩

/-- The file that a configuration is loaded from, if from any. -/
inductive Chooses (d : Disk) (userDir : Option Path) :
    (explicit source : Option Path) → Prop
  /-- A file is asked for. -/
  | asked {p : Path} : Chooses d userDir (some p) (some p)
  /-- The working directory has one. -/
  | here (hhere : d.isThere here = true) : Chooses d userDir none (some here)
  /-- The user has one. -/
  | user {dir : Path} (hhere : d.isThere Config.here = false) (hdir : userDir = some dir)
      (huser : d.isThere (ofUser dir) = true) : Chooses d userDir none (some (ofUser dir))
  /-- There is none. -/
  | nowhere (hhere : d.isThere Config.here = false)
      (huser : ∀ dir ∈ userDir, d.isThere (ofUser dir) = false) : Chooses d userDir none none

variable {d d' : Disk} {userDir userDir' explicit source : Option Path}

private theorem source?_none : source? d userDir none =
    if d.isThere here then some here else (userDir.map ofUser).filter d.isThere := rfl

theorem source?_eq_iff :
    source? d userDir explicit = source ↔ Chooses d userDir explicit source := by
  constructor
  · rintro rfl
    cases explicit with
    | some p => exact .asked
    | none =>
      rw [source?_none]
      split
      · next hhere => exact .here hhere
      · next hhere =>
        have hhere : d.isThere here = false := eq_false_of_ne_true hhere
        cases userDir with
        | none => exact .nowhere hhere nofun
        | some dir =>
          cases huser : d.isThere (ofUser dir) with
          | true =>
            rw [Option.map_some, Option.filter_some_pos huser]
            exact .user hhere rfl huser
          | false =>
            rw [Option.map_some, Option.filter_some_neg (by simpa using huser)]
            exact .nowhere hhere (by simpa using huser)
  · intro h
    cases h with
    | asked => rfl
    | here hhere => rw [source?_none, if_pos hhere]
    | user hhere hdir huser => simp [source?_none, hhere, hdir, huser]
    | nowhere hhere huser =>
      cases userDir with
      | none => simp [source?_none, hhere]
      | some dir => simp [source?_none, hhere, huser dir rfl]

/-! ### Loading it -/

variable {read : String → Except DocumentFault Config} {result : Except ReleaseError Config}

/-- The ways in which a configuration is loaded from a file or without one. -/
inductive Loads (read : String → Except DocumentFault Config) (d : Disk) :
    (source : Option Path) → Except ReleaseError Config → Prop
  /-- Without a file the standard configuration holds. -/
  | standard : Loads read d none (.ok .standard)
  /-- The file cannot be read as a text. -/
  | unreadable {p : Path} {e : IoError} (htext : d.readText p = .error e) :
      Loads read d (some p) (.error (.config (.unreadable p e)))
  /-- The text is no configuration. -/
  | malformed {p : Path} {text : String} {fault : DocumentFault} (htext : d.readText p = .ok text)
      (hread : read text = .error fault) :
      Loads read d (some p) (.error (.config (.unparsable p fault)))
  /-- The configuration is not valid. -/
  | invalid {p : Path} {text : String} {c : Config} {e : ReleaseError}
      (htext : d.readText p = .ok text) (hread : read text = .ok c)
      (hinvalid : c.validate = .error e) : Loads read d (some p) (.error e)
  /-- The configuration is valid. -/
  | valid {p : Path} {text : String} {c : Config} (htext : d.readText p = .ok text)
      (hread : read text = .ok c) (hvalid : c.IsValid) : Loads read d (some p) (.ok c)

/-- A configuration that was read, after its checks. -/
private def checked (c : Config) : Except ReleaseError Config :=
  c.validate >>= fun _ => .ok c

private theorem checked_of_isValid (h : c.IsValid) : checked c = .ok c := by
  rw [checked, validate_eq_ok_iff.2 h]
  rfl

private theorem checked_of_error {e : ReleaseError} (h : c.validate = .error e) :
    checked c = .error e := by
  rw [checked, h]
  rfl

/-- Loads a configuration from a chosen file or without one. -/
private def loadFrom (read : String → Except DocumentFault Config) (d : Disk) :
    Option Path → Except ReleaseError Config
  | none => checked standard
  | some p => (readWith read d p).mapError .config >>= checked

private theorem loadWith_eq :
    loadWith read d userDir explicit = loadFrom read d (source? d userDir explicit) := by
  rw [loadWith]
  cases source? d userDir explicit <;> rfl

private theorem loads_loadFrom (read : String → Except DocumentFault Config) (d : Disk)
    (source : Option Path) : Loads read d source (loadFrom read d source) := by
  cases source with
  | none =>
    rw [loadFrom, checked_of_isValid isValid_standard]
    exact .standard
  | some p =>
    rw [loadFrom, readWith]
    cases htext : d.readText p with
    | error e => exact .unreadable htext
    | ok text =>
      dsimp only
      cases hread : read text with
      | error fault => exact .malformed htext hread
      | ok c =>
        change Loads read d (some p) (checked c)
        cases hvalid : c.validate with
        | error e => exact checked_of_error hvalid ▸ .invalid htext hread hvalid
        | ok _ =>
          have hvalid := validate_eq_ok_iff.1 hvalid
          exact checked_of_isValid hvalid ▸ .valid htext hread hvalid

/-- A choice is loaded in one way only. -/
private theorem Loads.eq (h : Loads read d source result) : loadFrom read d source = result := by
  cases h with
  | standard => exact checked_of_isValid isValid_standard
  | unreadable htext => simp only [loadFrom, readWith, htext]; rfl
  | malformed htext hread => simp only [loadFrom, readWith, htext, hread]; rfl
  | invalid htext hread hinvalid =>
    simp only [loadFrom, readWith, htext, hread]
    exact checked_of_error hinvalid
  | valid htext hread hvalid =>
    simp only [loadFrom, readWith, htext, hread]
    exact checked_of_isValid hvalid

/-- A configuration is loaded in one of these ways, and each of them loads it. -/
theorem loadWith_eq_iff : loadWith read d userDir explicit = result ↔
    ∃ source, Chooses d userDir explicit source ∧ Loads read d source result := by
  simp only [← source?_eq_iff, exists_eq_left', loadWith_eq]
  exact ⟨fun h => h ▸ loads_loadFrom read d _, Loads.eq⟩

/-- What is loaded is valid. -/
theorem isValid_of_loadWith (h : loadWith read d userDir explicit = .ok c) : c.IsValid := by
  obtain ⟨source, -, hloads⟩ := loadWith_eq_iff.1 h
  cases hloads with
  | standard => exact isValid_standard
  | valid _ _ hvalid => exact hvalid

/-- Of all files only the chosen one is read. -/
theorem loadWith_congr (h : Chooses d userDir explicit source)
    (h' : Chooses d' userDir' explicit source)
    (htext : ∀ p ∈ source, d'.readText p = d.readText p) :
    loadWith read d' userDir' explicit = loadWith read d userDir explicit := by
  rw [loadWith_eq, loadWith_eq, source?_eq_iff.2 h, source?_eq_iff.2 h']
  cases source with
  | none => rfl
  | some p => rw [loadFrom, loadFrom, readWith, readWith, htext p rfl]

end ReleaseCut.Config
