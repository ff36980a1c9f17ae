import ReleaseCut.Proofs.Artifact.Staging
import ReleaseCut.Proofs.Config.Load
import ReleaseCut.Proofs.Release.Cut
import ReleaseCut.Proofs.Repository.Errors
import ReleaseCut.Proofs.Text.Substitute

/-!
# Valid configurations can be run

Validation builds the tag format, the file pattern and the artifact name once and drops them; a run
builds them again. So nothing that a run does with a valid configuration finds fault with it
(`Config.IsValid.isRunnable`), whatever the repository, the files and the request are. Its release
messages name the version and hold no placeholder (`Config.IsValid.releaseMessage`).
-/

namespace ReleaseCut

/-- An error that finds fault with the configuration or with its tag format. -/
inductive ReleaseError.BlamesConfig : ReleaseError → Prop
  /-- The configuration cannot be used. -/
  | config (error : ConfigError) : BlamesConfig (.config error)
  /-- The pattern is no tag format. -/
  | tagFormat (pattern : String) : BlamesConfig (.tag (.invalidFormat pattern))

open ReleaseError (IsOfRepository)

/-- A repository does not find fault with the configuration. -/
theorem ReleaseError.IsOfRepository.not_blamesConfig {e : ReleaseError} (h : IsOfRepository e) :
    ¬ e.BlamesConfig := by
  rintro (_ | pattern)
  · cases h
  · cases h with
    | tag _ hformat => exact hformat pattern rfl

/-- Staging does not find fault with the configuration. -/
theorem Staging.not_blamesConfig_of_stage {s : Staging} {d d' : Disk} {v : Version}
    {e : ReleaseError} (h : s.stage d v = (.error e, d')) : ¬ e.BlamesConfig := by
  rcases stage_eq_error h with ⟨_, _, rfl, -⟩ | hstep
  · rintro ⟨⟩
  · cases hstep <;> rintro ⟨⟩

namespace Config

/-- Neither a decision nor a run finds fault with the configuration. -/
structure IsRunnable (ρ : Type) [Repository ρ] (c : Config) : Prop where
  /-- A decision that fails does not blame the configuration. -/
  make : ∀ (r : ρ) (asked : Option String) (date : Date) (e : ReleaseError),
    Decision.make r c asked date = .error e → ¬ e.BlamesConfig
  /-- A run that fails does not blame the configuration. -/
  cut : ∀ (w : Workspace ρ) (q : Request) (e : ReleaseError),
    (w.cut c q).1 = .error e → ¬ e.BlamesConfig

variable {c : Config}

section Runs

variable {ρ : Type} [Repository ρ] [LawfulRepository ρ] {e : ReleaseError}

private theorem IsValid.not_blamesConfig_of_make (h : c.IsValid) {r : ρ} {asked : Option String}
    {date : Date} (he : Decision.make r c asked date = .error e) : ¬ e.BlamesConfig := by
  obtain ⟨f, hf⟩ := h.tagFormat
  rw [Decision.make_eq] at he
  rcases Except.bind_eq_error_iff.1 he with he | ⟨branch, -, he⟩
  · cases asked with
    | none => exact (LawfulRepository.currentBranch he).not_blamesConfig
    | some name => cases he
  · rw [Decision.onBranch, hf] at he
    split at he
    · cases he
    · rcases Except.bind_eq_error_iff.1 he with he | ⟨_, -, he⟩
      · cases he
      · rcases Except.bind_eq_error_iff.1 he with he | ⟨previous, -, he⟩
        · exact (LawfulRepository.latestTag he).not_blamesConfig
        · rcases Except.bind_eq_error_iff.1 he with he | ⟨infos, -, he⟩
          · exact (LawfulRepository.commitsSince he).not_blamesConfig
          · obtain ⟨_, -, -, rfl⟩ := Decision.ofCommits_eq_error_iff.1 he
            rintro ⟨⟩

private theorem IsValid.not_blamesConfig_of_cut (h : c.IsValid) {w : Workspace ρ} {q : Request}
    (he : (w.cut c q).1 = .error e) : ¬ e.BlamesConfig := by
  rcases Workspace.cut_eq_error (Prod.ext he rfl) with
    ⟨hmake, -⟩ | ⟨p, -, hstage | ⟨_, rfl⟩ | htag⟩
  · exact h.not_blamesConfig_of_make hmake
  · obtain ⟨s, hs⟩ := h.exists_staging q.root
    rw [Workspace.stageAsset, hs] at hstage
    have hresult : (s.stage w.disk p.version).1 = .error e := congrArg Prod.fst hstage
    exact Staging.not_blamesConfig_of_stage (Prod.ext hresult rfl)
  · rintro ⟨⟩
  · exact (LawfulRepository.createTag htag).not_blamesConfig

/-- A valid configuration can be run on every repository. -/
theorem IsValid.isRunnable (h : c.IsValid) : c.IsRunnable ρ where
  make _ _ _ _ := h.not_blamesConfig_of_make
  cut _ _ _ := h.not_blamesConfig_of_cut

end Runs

/-- The release messages of a valid configuration name the version, and hold no placeholder. -/
theorem IsValid.releaseMessage (h : c.IsValid) (v : Version) :
    v.text.toList <:+: (c.releaseMessageFor v).toList ∧
      ¬ Text.placeholder <:+: (c.releaseMessageFor v).toList := by
  obtain ⟨ch, s, hv, hdigit⟩ := v.exists_toList_eq_cons
  have hopen : '\x7b' ∉ v.toList := by
    intro hmem
    have htext := Version.isTextChar_of_mem_toList hmem
    exact absurd htext (by decide)
  have hfirst : ch ∉ Text.placeholder := by
    intro hmem
    have hnone : Text.placeholder.all (!·.isDigit) = true := rfl
    have hother := List.all_eq_true.1 hnone ch hmem
    simp [hdigit] at hother
  have hvalue : v.text.toList = ch :: s := by rw [Version.text, String.toList_ofList, hv]
  rw [hv, List.mem_cons, not_or] at hopen
  exact ⟨Text.isInfix_substitute h.message, Text.not_isInfix_substitute hvalue hfirst hopen.2⟩

/-- The parts of a placeholder around another one do not become one. -/
example : releaseMessageFor { standard with
    releaseMessage := aroundPlaceholder "\x7bver" "sion\x7d" } .initial =
      "\x7bver1.0.0sion\x7d" := by
  decide +kernel

/-! ### Loaded configurations -/

variable {read : String → Except DocumentFault Config} {d : Disk} {userDir explicit : Option Path}

/-- **A loaded configuration can be run.** It comes from the file that is asked for, else from that
of the working directory, else from that of the user, else it is the standard one. Only the chosen
file is read, and whatever is wrong with it is an error. No decision and no run blames what was
loaded, and its release messages name the version with no placeholder left. -/
theorem isRunnable_of_loadWith (read : String → Except DocumentFault Config) (d : Disk)
    (userDir explicit : Option Path) :
    (∀ result, loadWith read d userDir explicit = result ↔
      ∃ source, Chooses d userDir explicit source ∧ Loads read d source result) ∧
    (∀ d' userDir' source, Chooses d userDir explicit source → Chooses d' userDir' explicit source →
      (∀ p ∈ source, d'.readText p = d.readText p) →
      loadWith read d' userDir' explicit = loadWith read d userDir explicit) ∧
    ∀ c, loadWith read d userDir explicit = .ok c →
      c.IsRunnable GitRepository ∧ c.IsRunnable MemoryRepository ∧
      ∀ v : Version, v.text.toList <:+: (c.releaseMessageFor v).toList ∧
        ¬ Text.placeholder <:+: (c.releaseMessageFor v).toList := by
  refine ⟨fun _ => loadWith_eq_iff, fun _ _ _ => loadWith_congr, fun c h => ?_⟩
  have hvalid := isValid_of_loadWith h
  exact ⟨hvalid.isRunnable, hvalid.isRunnable, hvalid.releaseMessage⟩

/-- A working directory with a configuration file that sets the patterns and the message. -/
def projectFileDisk : Disk where
  tree := FileTree.empty.put ["release.toml"] (.file <| String.toUTF8 <|
    "tag_format = \"rel-{version}\"\nrelease_message = \"\x7bver{version}sion\x7d\"\n" ++
      "[artifact]\nname_pattern = \"app-{version}.jar\"\nexclude_pattern = \"*-[!a]?.jar\"\n")
  cwd := []

/-- What the file configures. -/
def projectFileConfig : Config :=
  { standard with
    tagPattern := "rel-{version}"
    releaseMessage := aroundPlaceholder "\x7bver" "sion\x7d"
    artifact := { ArtifactConfig.standard with
      namePattern := "app-{version}.jar"
      excludePattern := "*-[!a]?.jar" } }

/-- The configuration of a project is loaded, whoever the user is, and can be run. Its message names
the version between the parts of a placeholder, which do not become one. -/
theorem isRunnable_of_project_file : Chooses projectFileDisk none none (some here) ∧
    loadWith ofToml projectFileDisk none none = .ok projectFileConfig ∧
    loadWith ofToml projectFileDisk (some ⟨"home"⟩) none = .ok projectFileConfig ∧
    projectFileConfig.IsRunnable GitRepository ∧ projectFileConfig.IsRunnable MemoryRepository ∧
    projectFileConfig.releaseMessageFor .initial = "\x7bver1.0.0sion\x7d" ∧
    ¬ Text.placeholder <:+: (projectFileConfig.releaseMessageFor .initial).toList := by
  have hload : loadWith ofToml projectFileDisk none none = .ok projectFileConfig := by
    decide +kernel
  have hhere : projectFileDisk.isThere here = true := by decide +kernel
  obtain ⟨-, hread, hloaded⟩ := isRunnable_of_loadWith ofToml projectFileDisk none none
  obtain ⟨hgit, hmemory, hmessage⟩ := hloaded projectFileConfig hload
  have huser : loadWith ofToml projectFileDisk (some ⟨"home"⟩) none = .ok projectFileConfig := by
    rw [hread projectFileDisk (some ⟨"home"⟩) (some here) (.here hhere) (.here hhere)
      fun _ _ => rfl, hload]
  exact ⟨.here hhere, hload, huser, hgit, hmemory, by decide +kernel, (hmessage .initial).2⟩

end Config

end ReleaseCut
