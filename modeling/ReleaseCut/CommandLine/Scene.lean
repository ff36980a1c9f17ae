import ReleaseCut.CommandLine.Program

/-!
# Scenes

A scene describes in TOML what a run of the program finds: the day, the working directory, the files
in it and a linear history with its tags.

```toml
today = 2024-05-01
directory = "/project"
branch = "main"
commits = [{ hash = "1f0c", message = "✨ add widget" }]
tags = [{ name = "v1.0.0", commit = 0 }]

[files]
"target/app.jar" = "bytes"
```

`Surroundings.ofText` reads one. Keys that are left out stand for nothing; without a branch there is
no repository.
-/

namespace ReleaseCut

namespace Surroundings

/-- The value under a key. -/
def valueAt? (entries : List (String × Value)) (key : String) : Option Value :=
  (entries.find? (·.1 == key)).map Prod.snd

/-- The entries of a table. -/
def entriesOf : Value → Except DocumentFault (List (String × Value))
  | .table es => .ok es
  | _ => .error .malformed

/-- A number that counts something. -/
def countOf : Value → Except DocumentFault Nat
  | .number written => (written.toNat?).elim (.error .malformed) .ok
  | _ => .error .malformed

/-- The value under a key that must be there. -/
def required (entries : List (String × Value)) (key : String) : Except DocumentFault Value :=
  (valueAt? entries key).elim (.error .malformed) .ok

/-- The values of the list under a key that may be left out. -/
def listAt (entries : List (String × Value)) (key : String) : Except DocumentFault (List Value) :=
  (valueAt? entries key).elim (.ok []) Value.asList

/-- A day. -/
def dayOf : Value → Except DocumentFault Date
  | .dateTime written =>
    let parts := (Text.splitOn '-' written.toList).map fun part => (String.ofList part).toNat?
    match parts with
    | [some year, some month, some day] =>
      (Date.ofYmd? year month day).elim (.error .malformed) .ok
    | _ => .error .malformed
  | _ => .error .malformed

/-- Adds a commit to a repository. -/
def addCommit (r : GitRepository) (v : Value) : Except DocumentFault GitRepository := do
  let es ← entriesOf v
  let hash ← (← required es "hash").asText
  let message ← (← required es "message").asText
  return r.commit hash message.toUTF8 []

/-- Adds a tag to a repository. -/
def addTag (r : GitRepository) (v : Value) : Except DocumentFault GitRepository := do
  let es ← entriesOf v
  let name ← (← required es "name").asText
  let i ← countOf (← required es "commit")
  return r.setTag (.text name) (.commit i)

/-- Adds a file to a disk. -/
def addFile (d : Disk) (file : String × Value) : Except DocumentFault Disk := do
  let content ← file.2.asText
  match d.write ⟨file.1⟩ content.toUTF8 with
  | .ok d => .ok d
  | .error _ => .error .malformed

/-- The repository of a scene. -/
def repositoryOf (es : List (String × Value)) : Except DocumentFault (Option GitRepository) :=
  (valueAt? es "branch").mapM fun v => do
    let branch ← v.asText
    let r ← (← listAt es "commits").foldlM addCommit (.empty (.text branch))
    (← listAt es "tags").foldlM addTag r

/-- The disk of a scene. -/
def diskOf (es : List (String × Value)) : Except DocumentFault Disk := do
  let dir ← (valueAt? es "directory").elim (.ok "/") Value.asText
  let empty : Disk := { tree := .empty, cwd := (Path.mk dir).names.reverse }
  let made ← match empty.makeDirectories ⟨dir⟩ with
    | .ok d => .ok d
    | .error _ => .error .malformed
  (← (valueAt? es "files").elim (.ok []) entriesOf).foldlM addFile made

/-- Reads the value of a scene. -/
def ofValue (v : Value) : Except DocumentFault Surroundings := do
  let es ← entriesOf v
  let today ← dayOf (← required es "today")
  let disk ← diskOf es
  let repository ← repositoryOf es
  return {
    disk, today
    userDir := none
    checkout := repository.map fun r => { repository := r, place := disk.cwd, bare := false } }

/-- Reads the text of a scene. -/
def ofText (text : String) : Except DocumentFault Surroundings :=
  Toml.readDocument text >>= ofValue

end Surroundings

end ReleaseCut
