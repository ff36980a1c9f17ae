import ReleaseCut.FileTree.Path

/-!
# Options

The command line as a list of arguments.

* An argument is a long option, a cluster of short ones or `--`, after which nothing may follow.
  There are no other arguments. The value of an option stands behind an equals sign, directly behind
  a short option or in the next argument, which then may not start with a hyphen unless it is one.
* `Options.parse` reads the arguments from left to right and stops at the first mistake, or where
  help or the version of the program is asked for.
-/

namespace ReleaseCut

/-- The options that take no value. -/
inductive Switch where
  | dryRun
  | noTag
  | notesOnly
  | verbose
  | help
  | version
  deriving DecidableEq, Repr

/-- The options that take a value. -/
inductive Setting where
  | config
  | repo
  | branch
  deriving DecidableEq, Repr

/-- An option. -/
inductive CommandOption where
  | switch (s : Switch)
  | setting (s : Setting)
  deriving DecidableEq, Repr

/-- The option of a long name. -/
def CommandOption.ofLong? : String → Option CommandOption
  | "config" => some (.setting .config)
  | "repo" => some (.setting .repo)
  | "branch" => some (.setting .branch)
  | "dry-run" => some (.switch .dryRun)
  | "no-tag" => some (.switch .noTag)
  | "notes-only" => some (.switch .notesOnly)
  | "verbose" => some (.switch .verbose)
  | "help" => some (.switch .help)
  | "version" => some (.switch .version)
  | _ => none

/-- The option of a short name. -/
def CommandOption.ofShort? : Char → Option CommandOption
  | 'c' => some (.setting .config)
  | 'b' => some (.setting .branch)
  | 'v' => some (.switch .verbose)
  | 'h' => some (.switch .help)
  | 'V' => some (.switch .version)
  | _ => none

/-- What a command line asks for. -/
structure Options where
  /-- The configuration file. -/
  config : Option Path
  /-- A path inside the repository. -/
  repo : Option Path
  /-- The branch to release in place of the one checked out. -/
  branch : Option String
  /-- Whether to plan only. -/
  dryRun : Bool
  /-- Whether to leave the tag to someone else. -/
  noTag : Bool
  /-- Whether to print the release notes only. -/
  notesOnly : Bool
  /-- How often more output was asked for. -/
  verbosity : Nat
  deriving DecidableEq, Repr

/-- A mistake on the command line. -/
inductive Misuse where
  /-- An argument is none of the program's. -/
  | unexpected (argument : String)
  /-- An option that takes no value has one. -/
  | needless (value : String)
  /-- An option is given twice. -/
  | repeated
  /-- The value of an option is missing. -/
  | missingValue
  deriving DecidableEq, Repr

/-- The wording of a mistake. -/
def Misuse.message : Misuse → String
  | .unexpected argument => "unexpected argument '" ++ argument ++ "'"
  | .needless value => "unexpected value '" ++ value ++ "'"
  | .repeated => "an option cannot be used multiple times"
  | .missingValue => "a value is required"

/-- Why reading the command line stops early. -/
inductive Interruption where
  /-- Help is asked for. -/
  | help
  /-- The version of the program is asked for. -/
  | version
  /-- There is a mistake. -/
  | misuse (m : Misuse)
  deriving DecidableEq, Repr

namespace Options

/-- The options of an empty command line. -/
def none : Options where
  config := .none
  repo := .none
  branch := .none
  dryRun := false
  noTag := false
  notesOnly := false
  verbosity := 0

/-- The path that a value names; it may not be empty. -/
def pathOf (value : String) : Except Interruption Path :=
  if value.isEmpty then .error (.misuse .missingValue) else .ok ⟨value⟩

/-- Sets an option that was not given before. -/
def once {α : Type} (given : Bool) (set : α) : Except Interruption α :=
  if given then .error (.misuse .repeated) else .ok set

/-- Turns on a switch. -/
def turnOn (o : Options) : Switch → Except Interruption Options
  | .dryRun => once o.dryRun { o with dryRun := true }
  | .noTag => once o.noTag { o with noTag := true }
  | .notesOnly => once o.notesOnly { o with notesOnly := true }
  | .verbose => .ok { o with verbosity := o.verbosity + 1 }
  | .help => .error .help
  | .version => .error .version

/-- Gives a setting its value. -/
def set (o : Options) (value : String) : Setting → Except Interruption Options
  | .config => do once o.config.isSome { o with config := some (← pathOf value) }
  | .repo => do once o.repo.isSome { o with repo := some (← pathOf value) }
  | .branch => once o.branch.isSome { o with branch := some value }

/-- Reads an argument behind its two hyphens. If its value is missing, the setting is returned. -/
def readLong (o : Options) (argument : List Char) :
    Except Interruption (Options × Option Setting) :=
  let (name, value) := Text.cutAt '=' argument
  match CommandOption.ofLong? (String.ofList name), value with
  | .none, _ => .error (.misuse (.unexpected ("--" ++ String.ofList argument)))
  | some (.switch s), .none => (o.turnOn s).map (·, .none)
  | some (.switch _), some value => .error (.misuse (.needless (String.ofList value)))
  | some (.setting s), some value => (o.set (String.ofList value) s).map (·, .none)
  | some (.setting s), .none => .ok (o, some s)

/-- The value that is attached to a short option; an equals sign in front is not part of it. -/
def attached : List Char → String
  | '=' :: value => String.ofList value
  | value => String.ofList value

/-- Reads an argument behind its hyphen. If its value is missing, the setting is returned. -/
def readShort (o : Options) : List Char → Except Interruption (Options × Option Setting)
  | [] => .ok (o, .none)
  | c :: rest =>
    match CommandOption.ofShort? c with
    | .none => .error (.misuse (.unexpected ("-" ++ String.ofList (c :: rest))))
    | some (.switch s) => do readShort (← o.turnOn s) rest
    | some (.setting s) =>
      if rest.isEmpty then .ok (o, some s) else (o.set (attached rest) s).map (·, .none)

/-- Whether an argument can be the value of the option before it. -/
def isValue (argument : String) : Bool :=
  argument.toList.head? != some '-' || argument == "-"

/-- Reads an argument that is not `--`. If its value is missing, the setting is returned. -/
def readArgument (o : Options) (argument : String) :
    Except Interruption (Options × Option Setting) :=
  match argument.toList with
  | '-' :: '-' :: long => o.readLong long
  | '-' :: c :: short => o.readShort (c :: short)
  | _ => .error (.misuse (.unexpected argument))

/-- Reads the arguments. -/
def parseFrom (o : Options) : List String → Except Interruption Options
  | [] => .ok o
  | argument :: rest =>
    if argument = "--" then
      match rest with
      | [] => .ok o
      | extra :: _ => .error (.misuse (.unexpected extra))
    else
      match o.readArgument argument, rest with
      | .error e, _ => .error e
      | .ok (o, .none), rest => parseFrom o rest
      | .ok (_, some _), [] => .error (.misuse .missingValue)
      | .ok (o, some s), value :: rest =>
        if isValue value then
          match o.set value s with
          | .error e => .error e
          | .ok o => parseFrom o rest
        else .error (.misuse .missingValue)
termination_by arguments => arguments.length

/-- Reads a command line. -/
def parse (arguments : List String) : Except Interruption Options :=
  parseFrom none arguments

end Options

end ReleaseCut
