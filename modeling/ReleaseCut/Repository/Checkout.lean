import ReleaseCut.Repository.Git

/-!
# Checkouts

A repository in a directory of a disk. It is found from every path that leads to this directory or
below it.
-/

namespace ReleaseCut

/-- A repository where it stands. -/
structure Checkout where
  /-- The repository. -/
  repository : GitRepository
  /-- The directory that holds it. -/
  place : Location
  /-- Whether the directory holds no files of the repository. -/
  bare : Bool

namespace Checkout

/-- The absolute path of a directory, with a slash at its end. -/
def directoryPath (loc : Location) : Path :=
  ⟨String.join ("/" :: loc.reverse.map (· ++ "/"))⟩

/-- The directory of the files of the repository. -/
def workdir? (c : Checkout) : Option Path :=
  if c.bare then none else some (directoryPath c.place)

/-- Looks for a repository from a path upwards. -/
def discover (c : Option Checkout) (d : Disk) (p : Path) : Except GitFault Checkout :=
  match d.locate p, c with
  | .error e, _ => .error (.noPath p.text e)
  | .ok loc, some c => if c.place.isSuffixOf loc then .ok c else .error (.noRepository p.text)
  | .ok _, none => .error (.noRepository p.text)

end Checkout

end ReleaseCut
