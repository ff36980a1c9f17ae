import ReleaseCut.Error

/-!
# Changelogs

A changelog is a text with a preamble and one section for every release, newest first. A section
starts at a line that opens with `## `.

* `Changelog.splitReleases` cuts a text at its first such line.
* `Changelog.insert` puts a section there, with a blank line between it and a preamble.
* `Changelog.write` does so in a file: the new text goes to a temporary file that then takes the
  place of the old one, so the file is replaced as a whole or not at all.
-/

namespace ReleaseCut

namespace Changelog

/-- What a line has to open with to start a section. -/
def sectionMark : List Char := ['#', '#', ' ']

/-- The text of a changelog without sections. -/
def header : String := "# Changelog\n\n"

/-- The preamble and the releases of a changelog. `atLineStart` tells whether the text starts a
line. -/
def splitFrom (atLineStart : Bool) : List Char → List Char × List Char
  | [] => ([], [])
  | c :: s =>
    if atLineStart && sectionMark.isPrefixOf (c :: s) then ([], c :: s)
    else let (preamble, releases) := splitFrom (c == '\n') s; (c :: preamble, releases)

/-- The preamble and the releases of a changelog. -/
def splitReleases (s : List Char) : List Char × List Char :=
  splitFrom true s

/-- The newlines that are missing for a preamble to end in a blank line. -/
def padding (preamble : List Char) : List Char :=
  if preamble.isEmpty || ['\n', '\n'].isSuffixOf preamble then []
  else if ['\n'].isSuffixOf preamble then ['\n']
  else ['\n', '\n']

/-- Puts a section in front of the releases of a changelog. -/
def insert (old release : String) : String :=
  let (preamble, releases) := splitReleases old.toList
  let rest := if releases.isEmpty then [] else '\n' :: releases
  String.ofList (preamble ++ padding preamble ++ release.toList ++ rest)

/-- The text of a changelog after a section was added to it. -/
def updated (old : Option String) (release : String) : String :=
  match old with
  | some old => insert old release
  | none => header ++ release

/-- The directory of a path, where the empty one is the working directory. -/
def directoryOf (p : Path) : Path :=
  match p.parent? with
  | some dir => if dir.text.isEmpty then ⟨"."⟩ else dir
  | none => ⟨"."⟩

/-- The text of the changelog at a path, if there is one. -/
def readOld (d : Disk) (p : Path) : Except ChangelogError (Option String) :=
  if d.isThere p then
    match d.readText p with
    | .ok text => .ok (some text)
    | .error e => .error (.unreadable p e)
  else .ok none

/-- Adds a section to the changelog at a path, which is made if it is not there. The disk is that
after the attempt, successful or not. -/
def write (d : Disk) (p : Path) (release : String) : Except ReleaseError Unit × Disk :=
  match readOld d p with
  | .error e => (.error (.changelog e), d)
  | .ok old =>
    match d.createTemp (directoryOf p) ".tmp" "" with
    | .error e => (.error (.changelog (.noTemp (directoryOf p) e)), d)
    | .ok (temp, d) =>
      let d := d.setContent temp (updated old release).toUTF8
      match d.rename temp p with
      | .error e => (.error (.changelog (.notReplaced p e)), d.discard temp)
      | .ok d => (.ok (), d)

end Changelog

end ReleaseCut
