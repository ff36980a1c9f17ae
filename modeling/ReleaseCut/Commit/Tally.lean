import ReleaseCut.Commit.Basic

/-!
# Tallies of commits

What a list of commits amounts to.

* `Commit.largestBump` is the largest bump among the classified commits.
* `Commit.tally` counts the commits of each kind, in the order of the kinds and without zeros.
* `Commit.unclassified` counts the commits of no kind.
-/

namespace ReleaseCut

namespace Commit

/-- The bump of a single commit; an unclassified one asks for none. -/
def bump (c : Commit) : Bump :=
  (c.kind?.map Kind.bump).getD .none

/-- The largest bump of a list of commits. -/
def largestBump (commits : List Commit) : Bump :=
  commits.foldr (fun c b => max c.bump b) .none

/-- The number of commits of each kind that occurs. -/
def tally (commits : List Commit) : List (Kind × Nat) :=
  Kind.all.filterMap fun k =>
    let n := commits.countP (·.kind? == some k)
    if n = 0 then none else some (k, n)

/-- The number of commits whose token is not known. -/
def unclassified (commits : List Commit) : Nat :=
  commits.countP (·.kind?.isNone)

end Commit

end ReleaseCut
