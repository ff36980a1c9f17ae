import ReleaseCut.Text.Split

/-!
# Paths

A path is kept as it was written; its steps are the texts between slashes.

* `Path.join` appends a path to a directory. An absolute path stands for itself.
* `Path.parent?` and `Path.fileName?` look at the last step, where empty steps and single dots after
  the first step do not count.
* `Path.names` are the steps as written; `Path.steps` adds a dot for a slash at the end.
-/

namespace ReleaseCut

/-- A path as written. -/
structure Path where
  /-- The written form. -/
  text : String
  deriving DecidableEq, Repr

namespace Path

/-- Whether the path starts at the top. -/
def isAbsolute (p : Path) : Bool :=
  p.text.toList.head? == some '/'

/-- Whether a path ends in a slash. -/
def endsInSlash (p : Path) : Bool :=
  p.text.toList.getLast? == some '/'

/-- The path `p` seen from the directory `dir`. One slash separates the two. -/
def join (dir p : Path) : Path :=
  if p.isAbsolute then p
  else if dir.text.isEmpty || dir.endsInSlash then ⟨dir.text ++ p.text⟩
  else ⟨dir.text ++ "/" ++ p.text⟩

/-- The steps of a path as written, without the empty ones. -/
def names (p : Path) : List String :=
  ((Text.splitOn '/' p.text.toList).filter (!·.isEmpty)).map String.ofList

/-- The steps of a path. A slash at the end asks for a directory, as a dot does. -/
def steps (p : Path) : List String :=
  if p.endsInSlash then p.names ++ ["."] else p.names

/-- Removes the slashes and single dots at the end of a text, given in reverse, that do not count as
its last step. -/
def dropEmptySteps : List Char → List Char
  | ['/'] => ['/']
  | '/' :: s => dropEmptySteps s
  | '.' :: '/' :: s => dropEmptySteps ('/' :: s)
  | s => s

/-- The last step that counts and what stands before it, both in reverse. -/
def lastStep (p : Path) : List Char × List Char :=
  let s := dropEmptySteps p.text.toList.reverse
  (s.takeWhile (· != '/'), s.dropWhile (· != '/'))

/-- The path without its last step; none where there is no step to leave. -/
def parent? (p : Path) : Option Path :=
  match p.lastStep with
  | ([], _) => none
  | (_, before) => some ⟨String.ofList (dropEmptySteps before).reverse⟩

/-- The name that the path ends in; none if it ends in a step upwards or has no step. -/
def fileName? (p : Path) : Option String :=
  match p.lastStep.1.reverse with
  | [] | ['.'] | ['.', '.'] => none
  | name => some (String.ofList name)

end Path

end ReleaseCut
