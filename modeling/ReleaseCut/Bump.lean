import ReleaseCut.Version.Text

/-!
# Bumps

How far a release moves the version.

* Bumps are ordered `none < patch < minor < major`, and `max` takes the larger of two.
* `Bump.applyTo?` moves a version: it raises one component by one, resets those below it and drops
  the pre-release part and build metadata. It fails exactly when the component is the largest there
  is.
* `Bump.next?` starts at `Version.initial` where nothing has been released.
-/

namespace ReleaseCut

/-- The component of the version that a release raises, if any. -/
inductive Bump where
  | none
  | patch
  | minor
  | major
  deriving DecidableEq, Repr

namespace Bump

/-- The position in the order of bumps. -/
def rank : Bump → Nat
  | .none => 0
  | .patch => 1
  | .minor => 2
  | .major => 3

instance : LE Bump := ⟨fun a b => a.rank ≤ b.rank⟩

instance : LT Bump := ⟨fun a b => a.rank < b.rank⟩

instance (a b : Bump) : Decidable (a ≤ b) := inferInstanceAs (Decidable (a.rank ≤ b.rank))

instance (a b : Bump) : Decidable (a < b) := inferInstanceAs (Decidable (a.rank < b.rank))

instance : Max Bump := ⟨fun a b => if a ≤ b then b else a⟩

/-- The name of a bump. -/
def name : Bump → String
  | .none => "none"
  | .patch => "patch"
  | .minor => "minor"
  | .major => "major"

/-- The bump of a name. -/
def ofName? : String → Option Bump
  | "none" => some .none
  | "patch" => some .patch
  | "minor" => some .minor
  | "major" => some .major
  | _ => Option.none

/-- Whether the bump asks for a release. -/
def isRelease (b : Bump) : Bool :=
  b != .none

end Bump

/-- The version of a first release. -/
def Version.initial : Version :=
  Version.release 1 0 0

/-- The version has the largest value in the component to be raised. -/
structure Overflow where
  /-- The version that cannot be raised. -/
  version : Version
  deriving DecidableEq

/-- The message of an overflow. -/
def Overflow.message (o : Overflow) : String :=
  "Cannot bump " ++ o.version.text ++ ": component overflows"

namespace Bump

/-- The next value of a component. -/
def raise (v : Version) (component : UInt64) : Except Overflow UInt64 :=
  if component.toNat + 1 < UInt64.size then .ok (component + 1) else .error ⟨v⟩

/-- The version after a bump; nothing for the empty bump. -/
def applyTo? (b : Bump) (v : Version) : Except Overflow (Option Version) :=
  match b with
  | .none => .ok .none
  | .patch => (raise v v.patch).map fun n => some (.release v.major v.minor n)
  | .minor => (raise v v.minor).map fun n => some (.release v.major n 0)
  | .major => (raise v v.major).map fun n => some (.release n 0 0)

/-- The version to release next, given the previous one if there is any. -/
def next? (b : Bump) : Option Version → Except Overflow (Option Version)
  | .none => .ok (if b.isRelease then some .initial else .none)
  | some v => b.applyTo? v

end Bump

end ReleaseCut
