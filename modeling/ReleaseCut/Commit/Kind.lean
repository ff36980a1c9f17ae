import ReleaseCut.Bump
import ReleaseCut.Section

/-!
# Kinds of commits

The emoji that start a commit message, and what each means for a release.

* `Kind.ofToken?` reads an emoji; the gear is accepted with and without its variation selector.
* `Kind.bump` and `Kind.heading` are the rules: how far a commit moves the version and under which
  heading it is listed.
-/

namespace ReleaseCut

/-- What a commit changes. -/
inductive Kind where
  | breaking
  | feature
  | fix
  | docs
  | config
  | maintenance
  deriving DecidableEq, Repr

namespace Kind

/-- All kinds, in the order in which they are counted. -/
def all : List Kind :=
  [.breaking, .feature, .fix, .docs, .config, .maintenance]

/-- The emoji of a kind in its usual spelling. -/
def token : Kind → String
  | .breaking => "💥"
  | .feature => "✨"
  | .fix => "🐛"
  | .docs => "📝"
  | .config => "🔧"
  | .maintenance => "\u2699\ufe0f"

/-- The gear without a variation selector. -/
def plainGear : String :=
  "\u2699"

/-- The kind of an emoji. -/
def ofToken? (token : String) : Option Kind :=
  if token = plainGear then some .maintenance else all.find? (·.token == token)

/-- How far a commit of this kind moves the version. -/
def bump : Kind → Bump
  | .breaking => .major
  | .feature => .minor
  | .fix | .docs | .config | .maintenance => .patch

/-- The heading under which a commit of this kind is listed. -/
def heading : Kind → Section
  | .breaking => .breakingChanges
  | .feature => .features
  | .fix => .bugFixes
  | .docs => .documentation
  | .config | .maintenance => .maintenance

end Kind

end ReleaseCut
