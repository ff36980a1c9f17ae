import ReleaseCut.Config.Document
import ReleaseCut.Toml.Reader

/-!
# Loading the configuration

The configuration is a TOML file: the one that is asked for, else the one in the working directory,
else the one of the user. Without any the standard configuration holds.

* `Config.source?` chooses the file. Only that file is read, and whatever is wrong with it is an
  error.
* `Config.load` reads and checks it.
-/

namespace ReleaseCut.Config

/-- The name of the configuration file in a working directory. -/
def localFile : String := "release.toml"

/-- The name of the configuration file in the directory of a user. -/
def userFile : String := "gitmoji-release.toml"

/-- Reads the text of a configuration. -/
def ofToml (text : String) : Except DocumentFault Config :=
  Toml.readDocument text >>= ofValue

/-- The file that holds the configuration. -/
def source? (d : Disk) (userDir explicit : Option Path) : Option Path :=
  match explicit with
  | some p => some p
  | none =>
    let here := Path.join ⟨"."⟩ ⟨localFile⟩
    if d.isThere here then some here
    else (userDir.map (·.join ⟨userFile⟩)).filter d.isThere

/-- Reads a configuration file with a given reader of its text. -/
def readWith (read : String → Except DocumentFault Config) (d : Disk) (p : Path) :
    Except ConfigError Config :=
  match d.readText p with
  | .error e => .error (.unreadable p e)
  | .ok text => (read text).mapError (.unparsable p)

/-- Loads the configuration with a given reader of its text. -/
def loadWith (read : String → Except DocumentFault Config) (d : Disk)
    (userDir explicit : Option Path) : Except ReleaseError Config := do
  let c ← match source? d userDir explicit with
    | some p => (readWith read d p).mapError .config
    | none => pure standard
  c.validate
  return c

/-- Loads the configuration. -/
def load (d : Disk) (userDir explicit : Option Path) : Except ReleaseError Config :=
  loadWith ofToml d userDir explicit

end ReleaseCut.Config
