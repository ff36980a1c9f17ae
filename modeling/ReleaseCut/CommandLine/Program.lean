import ReleaseCut.CommandLine.Options
import ReleaseCut.Config.Load
import ReleaseCut.Release.Cut
import ReleaseCut.Repository.Checkout
import ReleaseCut.Terminal.Message

/-!
# The program

One run of the command line as a function: `Program.run` gives the messages in order, the exit code
and what became of files and repository.

* The configuration is loaded first, then the repository is opened; the first failure ends the run.
* A failure is shown with what the program was doing and with the failures underneath.
-/

namespace ReleaseCut

/-- What a run of the program finds. -/
structure Surroundings where
  /-- The files, seen from the working directory. -/
  disk : Disk
  /-- The directory of the user's configuration. -/
  userDir : Option Path
  /-- The repository, if there is one. -/
  checkout : Option Checkout
  /-- The day. -/
  today : Date

/-- What a run of the program leaves. -/
structure Report where
  /-- The exit code. -/
  exitCode : UInt32
  /-- The messages, in order. -/
  messages : List Message
  /-- The files afterwards. -/
  disk : Disk
  /-- The repository afterwards. -/
  repository : Option GitRepository

/-- A failure with what the program was doing. -/
structure Failure where
  /-- What the program was doing, where that is told. -/
  context : Option String
  /-- What went wrong. -/
  error : ReleaseError

/-- The wording of a failure: context, error and the failures underneath. -/
def Failure.message (f : Failure) : String :=
  String.intercalate ": " (f.context.toList ++ f.error.chain)

namespace Program

/-- The exit code of a run that does not fail. -/
def succeeded : UInt32 := 0

/-- The exit code of a failure. -/
def failed : UInt32 := 1

/-- The exit code of a mistake on the command line. -/
def misused : UInt32 := 2

/-- Puts an error into a context. -/
def within {α : Type} (context : String) (result : Except ReleaseError α) : Except Failure α :=
  result.mapError (⟨some context, ·⟩)

/-- Leaves an error without context. -/
def plainly {α : Type} (result : Except ReleaseError α) : Except Failure α :=
  result.mapError (⟨none, ·⟩)

/-- Loads the configuration. -/
def loadConfig (s : Surroundings) (o : Options) : Except Failure Config :=
  within "Error loading config" (Config.load s.disk s.userDir o.config)

/-- The path from which the repository is looked for. -/
def repositoryPath (o : Options) : Path :=
  o.repo.getD ⟨"."⟩

/-- Opens the repository. -/
def openRepository (s : Surroundings) (o : Options) : Except Failure Checkout :=
  within "Not a git repository" <|
    (Checkout.discover s.checkout s.disk (repositoryPath o)).mapError .git

/-- The messages of a decision when only the notes are asked for. -/
def notesMessages : Decision → List Message
  | .skip reason _ => [.noRelease reason]
  | .release p => [.outcome p, .notes p.notes.render]

/-- A text on one line: ends of lines are written as an escape. -/
def onOneLine (text : String) : String :=
  String.ofList (text.toList.flatMap fun c => if c = '\n' then ['\\', 'n'] else [c])

/-- The messages of a release that was carried out. -/
def doneMessages (c : Config) (r : Release) : List Message :=
  (r.asset.toList.map fun a => .staged a.path c.artifact.label) ++
  (r.changelog.toList.map fun p => .success ("Updated " ++ p.text)) ++
  (if r.tagged then [.success ("Created tag: " ++ r.plan.tag)] else []) ++
  [.status ("Release commit message: " ++ onOneLine r.plan.releaseMessage)]

/-- The messages of an outcome. -/
def outcomeMessages (c : Config) (dryRun : Bool) : Outcome → List Message
  | .skipped reason warnings => warnings.map .warning ++ [.noRelease reason]
  | .released r =>
    r.plan.warnings.map .warning ++
      [.analysis r.plan.commits r.plan.branch, .proposal r.plan, .notes r.plan.notes.render] ++
      if dryRun then
        [.status "Dry run: no artifact staged, changelog untouched, no tag created"]
      else doneMessages c r

/-- Makes the release that is due in an open repository, or only tells about it. -/
def release (s : Surroundings) (o : Options) (c : Config) (k : Checkout) :
    Except Failure (List Message) × Workspace GitRepository :=
  let w : Workspace GitRepository := { repository := k.repository, disk := s.disk }
  if o.notesOnly then
    (plainly ((Decision.make k.repository c o.branch s.today).map notesMessages), w)
  else
    let request : Request :=
      { root := k.workdir?.getD (repositoryPath o)
        branch := o.branch
        dryRun := o.dryRun
        noTag := o.noTag
        date := s.today }
    let (result, w) := w.cut c request
    (plainly (result.map (outcomeMessages c o.dryRun)), w)

/-- The report of a run that leaves everything as it was. -/
def untouched (s : Surroundings) (exitCode : UInt32) (message : Message) : Report where
  exitCode := exitCode
  messages := [message]
  disk := s.disk
  repository := s.checkout.map (·.repository)

/-- Runs the program with options. -/
def runWith (s : Surroundings) (o : Options) : Report :=
  match loadConfig s o with
  | .error f => untouched s failed (.failure f.message)
  | .ok c =>
    match openRepository s o with
    | .error f => untouched s failed (.failure f.message)
    | .ok k =>
      let (result, w) := release s o c k
      let (exitCode, messages) := match result with
        | .ok messages => (succeeded, messages)
        | .error f => (failed, [.failure f.message])
      { exitCode, messages, disk := w.disk, repository := some w.repository }

/-- Runs the program with the arguments of its command line. -/
def run (s : Surroundings) (arguments : List String) : Report :=
  match Options.parse arguments with
  | .ok o => runWith s o
  | .error .help => untouched s succeeded .usage
  | .error .version => untouched s succeeded .programVersion
  | .error (.misuse m) => untouched s misused (.failure m.message)

end Program

end ReleaseCut
