import ReleaseCut.FileTree.Basic

/-!
# Disks

A disk is a file tree seen from a working directory. Paths are walked step by step, through symbolic
links, as a file system does; what goes wrong on the way is an `IoError`.

* `Disk.walk` follows the steps of a path. Every step asks for a directory to stand in, and at most
  `Disk.maxLinks` links are followed.
* Reading: `isThere`, `readBytes`, `readText` and `list`.
* Changing: `createTemp`, `setContent`, `rename`, `remove`, `write` and `makeDirectories` give the
  disk after the change, and fail without any.
-/

namespace ReleaseCut

/-- Why an operation on a file failed. -/
inductive IoError where
  /-- Nothing stands there. -/
  | notFound
  /-- A step of the path needs a directory. -/
  | notDirectory
  /-- A directory stands where a file is needed. -/
  | isDirectory
  /-- The path ends in a step that names no entry. -/
  | busy
  /-- Too many symbolic links on the way. -/
  | tooManyLinks
  /-- The bytes of the file are not a text. -/
  | invalidText
  /-- The operating system refused for a reason of its own, which it names and numbers. -/
  | other (reason : String) (code : Nat)
  deriving DecidableEq, Repr

/-- What went wrong, in words. -/
def IoError.reason : IoError → String
  | .notFound => "No such file or directory"
  | .notDirectory => "Not a directory"
  | .isDirectory => "Is a directory"
  | .busy => "Device or resource busy"
  | .tooManyLinks => "Too many levels of symbolic links"
  | .invalidText => "stream did not contain valid UTF-8"
  | .other reason _ => reason

/-- The number of a failure of the file system. -/
def IoError.code? : IoError → Option Nat
  | .notFound => some 2
  | .notDirectory => some 20
  | .isDirectory => some 21
  | .busy => some 16
  | .tooManyLinks => some 40
  | .invalidText => none
  | .other _ code => some code

/-- The wording of a failure. -/
def IoError.message (e : IoError) : String :=
  match e.code? with
  | some code => e.reason ++ " (os error " ++ toString code ++ ")"
  | none => e.reason

/-- A file tree and the directory from which relative paths start. -/
structure Disk where
  /-- What stands where. -/
  tree : FileTree
  /-- The working directory. -/
  cwd : Location

namespace Disk

/-- The number of symbolic links that one path may lead through. -/
def maxLinks : Nat := 40

/-- The location where a path starts. -/
def start (d : Disk) (p : Path) : Location :=
  if p.isAbsolute then [] else d.cwd

/-- Walks the steps of a path from the directory `here`. A link is followed unless it is the last
step and `follow` is off: `atLink` goes on from the directory where its target starts, with the
steps of the target in front of those that are left. -/
def walkWith (t : FileTree) (follow : Bool)
    (atLink : Location → List String → Except IoError Location) (here : Location) :
    List String → Except IoError Location
  | [] => .ok here
  | step :: rest =>
    if t.get? here ≠ some .directory then .error .notDirectory
    else if step = "." then walkWith t follow atLink here rest
    else if step = ".." then walkWith t follow atLink here.tail rest
    else
      match t.get? (step :: here) with
      | none => .error .notFound
      | some (.link target) =>
        if follow || !rest.isEmpty then
          atLink (if target.isAbsolute then [] else here) (target.steps ++ rest)
        else .ok (step :: here)
      | some _ => walkWith t follow atLink (step :: here) rest

/-- Walks the steps of a path from a directory, through at most `links` links. -/
def walk (t : FileTree) (follow : Bool) :
    (links : Nat) → (here : Location) → List String → Except IoError Location
  | 0 => walkWith t follow fun _ _ => .error .tooManyLinks
  | links + 1 => walkWith t follow (walk t follow links)

/-- The location that a path leads to, where the last link is followed. -/
def locate (d : Disk) (p : Path) : Except IoError Location :=
  if p.text.isEmpty then .error .notFound
  else walk d.tree true maxLinks (d.start p) p.steps

/-- The location that a path leads to, if a directory stands there. -/
def locateDirectory (d : Disk) (p : Path) : Except IoError Location := do
  let loc ← d.locate p
  if d.tree.get? loc = some .directory then .ok loc else .error .notDirectory

/-- The directory and the name that a path ends in, whether or not anything has that name. -/
def locateEntry (d : Disk) (p : Path) : Except IoError (Location × String) :=
  match p.names.reverse with
  | [] => .error (if p.text.isEmpty then .notFound else .busy)
  | name :: init => do
    let parent ← walk d.tree true maxLinks (d.start p) init.reverse
    if d.tree.get? parent ≠ some .directory then .error .notDirectory
    else if name = "." ∨ name = ".." then .error .busy
    else .ok (parent, name)

/-! ### Reading -/

/-- Whether a path leads to anything. -/
def isThere (d : Disk) (p : Path) : Bool :=
  (d.locate p).isOk

/-- The bytes of a file. -/
def readBytes (d : Disk) (p : Path) : Except IoError ByteArray := do
  let loc ← d.locate p
  match d.tree.get? loc with
  | some (.file bytes) => .ok bytes
  | some .directory => .error .isDirectory
  | _ => .error .notFound

/-- The text of a file. -/
def readText (d : Disk) (p : Path) : Except IoError String := do
  let bytes ← d.readBytes p
  match String.fromUTF8? bytes with
  | some text => .ok text
  | none => .error .invalidText

/-- The entries of a directory, in the order of names. -/
def list (d : Disk) (p : Path) : Except IoError (List (String × Entry)) :=
  (d.locateDirectory p).map d.tree.children

/-! ### Changing -/

/-- Creates an empty file under a fresh name in a directory. -/
def createTemp (d : Disk) (dir : Path) (start finish : String) :
    Except IoError (Location × Disk) := do
  let parent ← d.locateDirectory dir
  let loc := d.tree.freshName start finish :: parent
  return (loc, { d with tree := d.tree.put loc (.file .empty) })

/-- Gives a file new bytes. -/
def setContent (d : Disk) (loc : Location) (bytes : ByteArray) : Disk :=
  { d with tree := d.tree.put loc (.file bytes) }

/-- Takes away what stands at a location. -/
def discard (d : Disk) (loc : Location) : Disk :=
  { d with tree := d.tree.erase loc }

/-- Moves a file to a path, in place of any file or link there. A path that ends in a slash or leads
to a directory is refused. -/
def rename (d : Disk) (source : Location) (p : Path) : Except IoError Disk := do
  let (parent, name) ← d.locateEntry p
  if p.endsInSlash then .error .notDirectory
  else match d.tree.get? (name :: parent), d.tree.get? source with
    | some .directory, _ => .error .isDirectory
    | _, some e => .ok { d with tree := (d.tree.erase source).put (name :: parent) e }
    | _, none => .error .notFound

/-- Removes a file or a link. -/
def removeFile (d : Disk) (p : Path) : Except IoError Disk := do
  let (parent, name) ← d.locateEntry p
  if p.endsInSlash then .error .notDirectory
  else match d.tree.get? (name :: parent) with
    | some .directory => .error .isDirectory
    | some _ => .ok (d.discard (name :: parent))
    | none => .error .notFound

/-- Removes a file, a link or a directory with all it holds. -/
def remove (d : Disk) (p : Path) : Except IoError Disk := do
  let (parent, name) ← d.locateEntry p
  .ok { d with tree := d.tree.eraseBelow (name :: parent) }

/-- Makes the directories that the steps of a path need. -/
def makeDirectoriesFrom (t : FileTree) (here : Location) (done : List String) :
    List String → Except IoError FileTree
  | [] => .ok t
  | step :: rest =>
    let steps := done ++ [step]
    match walk t true maxLinks here steps with
    | .ok _ => makeDirectoriesFrom t here steps rest
    | .error .notFound =>
      match walk t true maxLinks here done with
      | .ok parent => makeDirectoriesFrom (t.put (step :: parent) .directory) here steps rest
      | .error e => .error e
    | .error e => .error e

/-- Makes a directory and all directories above it that are missing. -/
def makeDirectories (d : Disk) (p : Path) : Except IoError Disk := do
  let tree ← makeDirectoriesFrom d.tree (d.start p) [] p.names
  return { d with tree }

/-- Puts an entry at a path, after making the directories above it. -/
def place (d : Disk) (p : Path) (e : Entry) : Except IoError Disk := do
  let d ← match p.parent? with
    | some parent => d.makeDirectories parent
    | none => pure d
  let (parent, name) ← d.locateEntry p
  return { d with tree := d.tree.put (name :: parent) e }

/-- Writes a file, through a link if one stands at the path, after making the directories above
it. -/
def write (d : Disk) (p : Path) (bytes : ByteArray) : Except IoError Disk :=
  match d.locate p with
  | .ok loc =>
    if d.tree.get? loc = some .directory then .error .isDirectory
    else .ok (d.setContent loc bytes)
  | .error _ => d.place p (.file bytes)

end Disk

end ReleaseCut
