import ReleaseCut.Version.Identifier

/-!
# Versions

A semantic version: three components, a pre-release part and build metadata.

* `Version.precedence` compares components and pre-release parts; a release comes after all its
  pre-releases.
* `Version.compare` refines it by the build metadata to an order in which only equal versions
  compare equal.
-/

namespace ReleaseCut

/-- A semantic version. Each has exactly one written form. -/
structure Version where
  /-- Counts incompatible changes. -/
  major : UInt64
  /-- Counts additions. -/
  minor : UInt64
  /-- Counts corrections. -/
  patch : UInt64
  /-- The pre-release part, empty for a release. -/
  pre : List Identifier
  /-- The build metadata. -/
  build : List Identifier
  /-- Numeric identifiers of the pre-release part carry no needless zeros. -/
  pre_plain : pre.all Identifier.isPlain = true := by rfl
  deriving DecidableEq

namespace Version

/-- The release with the given components. -/
def release (major minor patch : UInt64) : Version :=
  { major, minor, patch, pre := [], build := [] }

/-- Whether the version has neither a pre-release part nor build metadata. -/
def isRelease (v : Version) : Bool :=
  v.pre.isEmpty && v.build.isEmpty

/-- The order of pre-release parts: none comes last, the others go identifier by identifier, a
shorter list before its extensions. -/
def comparePre : List Identifier → List Identifier → Ordering
  | [], [] => .eq
  | [], _ :: _ => .gt
  | _ :: _, [] => .lt
  | p, q => Ord.compare p q

/-- Semantic precedence: components first, then the pre-release part. Build metadata plays no
part. -/
def precedence (v w : Version) : Ordering :=
  (Ord.compare v.major.toNat w.major.toNat).then <|
  (Ord.compare v.minor.toNat w.minor.toNat).then <|
  (Ord.compare v.patch.toNat w.patch.toNat).then <|
  comparePre v.pre w.pre

/-- The total order of versions: precedence, then build metadata, where none comes first. -/
protected def compare (v w : Version) : Ordering :=
  (v.precedence w).then (Ord.compare v.build w.build)

instance : Ord Version := ⟨Version.compare⟩

/-- `v` has lower precedence than `w`. -/
def Precedes (v w : Version) : Prop :=
  v.precedence w = .lt

instance (v w : Version) : Decidable (v.Precedes w) :=
  inferInstanceAs (Decidable (_ = _))

end Version

end ReleaseCut
