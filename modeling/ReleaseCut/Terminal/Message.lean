import ReleaseCut.Release.Plan
import ReleaseCut.Terminal.Style

/-!
# Messages

What is shown to the user. `Message.stream` tells where a message goes and `Message.render` how it
reads; nothing is printed here.
-/

namespace ReleaseCut

/-- Where a message goes. -/
inductive Stream where
  | output
  | errors
  deriving DecidableEq, Repr

/-- A message to the user. -/
inductive Message where
  /-- What ended the run. -/
  | failure (text : String)
  /-- A step done. -/
  | success (text : String)
  /-- A remark. -/
  | status (text : String)
  /-- A warning. -/
  | warning (w : Warning)
  /-- Why no release is made. -/
  | noRelease (reason : SkipReason)
  /-- The artifact that was staged, by what it is called. -/
  | staged (path : Path) (label : String)
  /-- The commits that a decision is based on. -/
  | analysis (commits : List Commit) (branch : String)
  /-- The change of version that a plan proposes. -/
  | proposal (p : Plan)
  /-- Bump and version of a plan. -/
  | outcome (p : Plan)
  /-- The release notes. -/
  | notes (text : String)
  /-- The name and the version of the program. -/
  | programVersion
  /-- How the program is used. -/
  | usage

namespace Message

/-- The name of the program and its version. -/
def program : String :=
  "gitmoji-release 0.1.0"

/-- The options of the program. -/
def usageText : String :=
  String.intercalate "\n" [
    "Cut a release from gitmoji commits: version bump, release notes and the artifact to publish",
    "",
    "Usage: gitmoji-release [OPTIONS]",
    "",
    "Options:",
    "  -c, --config <CONFIG>  Custom configuration file path",
    "      --repo <REPO>      Path inside the repository to release [default: .]",
    "  -b, --branch <BRANCH>  Release branch name, for detached checkouts",
    "      --dry-run          Preview the release without staging, writing or tagging",
    "      --no-tag           Stage the artifact and changelog but do not create the tag",
    "      --notes-only       Print the bump and release notes, then exit",
    "  -v, --verbose...       Increase log verbosity",
    "  -h, --help             Print help",
    "  -V, --version          Print version"]

/-- Where a message goes. -/
def stream : Message → Stream
  | failure _ | warning _ => .errors
  | _ => .output

/-- The number of commits whose headers are shown. -/
def shownCommits : Nat := 10

/-- The number of characters of a header that are shown. -/
def shownHeader : Nat := 60

/-- The line of a text behind a mark. -/
def marked (style : Style) (styled : Bool) (mark text : String) : String :=
  style.apply styled mark ++ " " ++ text ++ "\n"

/-- The line of a step done. -/
def successLine (styled : Bool) (text : String) : String :=
  marked .green styled "✓" text

/-- The line of a remark. -/
def statusLine (styled : Bool) (text : String) : String :=
  marked .yellow styled "→" text

/-- The lines of the first commits, numbered from one. -/
def commitLines (commits : List Commit) : List String :=
  (commits.take shownCommits).mapIdx fun i c =>
    "  " ++ toString (i + 1) ++ ". " ++ String.ofList (c.header.toList.take shownHeader) ++ "\n"

/-- The line for the commits that are not shown. -/
def moreLine (commits : List Commit) : String :=
  if commits.length ≤ shownCommits then ""
  else "  ... and " ++ toString (commits.length - shownCommits) ++ " more commits\n"

/-- The lines of the tally. -/
def tallyLines (commits : List Commit) : List String :=
  (Commit.tally commits).map fun (k, n) => "  " ++ k.token ++ " × " ++ toString n ++ "\n"

/-- The lines of an analysis. -/
def analysisText (styled : Bool) (commits : List Commit) (branch : String) : String :=
  "\n" ++ Style.bold.apply styled ("Analyzing commits on branch '" ++ branch ++ "'") ++ "\n" ++
    Style.underlined.apply styled (toString commits.length ++ " commits since last release:") ++
    "\n" ++ String.join (commitLines commits) ++ moreLine commits ++
    String.join (tallyLines commits)

/-- The lines of a proposal. -/
def proposalText (styled : Bool) (p : Plan) : String :=
  let tag := Style.green.apply styled p.tag
  match p.previous with
  | some previous =>
    "\n" ++ Style.bold.apply styled "Proposed Release:" ++ "\n" ++
      "  From: " ++ Style.red.apply styled previous.name ++ "\n" ++
      "  To:   " ++ tag ++ " (" ++ p.bump.name ++ ")\n"
  | none =>
    "\n" ++ Style.bold.apply styled "Initial Release:" ++ "\n" ++ "  New tag: " ++ tag ++ "\n"

/-- The text of a message. -/
def render (styled : Bool) : Message → String
  | failure text => marked .red styled "ERROR:" text
  | success text => successLine styled text
  | status text => statusLine styled text
  | warning w => marked .yellow styled "⚠ WARNING:" w.message
  | noRelease reason => statusLine styled ("No release: " ++ reason.message)
  | staged path label =>
    successLine styled ("Staged " ++ label ++ " as " ++ Style.cyan.apply styled path.text)
  | analysis commits branch => analysisText styled commits branch
  | proposal p => proposalText styled p
  | outcome p => p.bump.name ++ " " ++ p.version.text ++ "\n"
  | notes text => "\n" ++ String.ofList (Text.trimRight text.toList) ++ "\n"
  | programVersion => program ++ "\n"
  | usage => usageText ++ "\n"

end Message

end ReleaseCut
