import ReleaseCut.Error
import ReleaseCut.Proofs.Except
import ReleaseCut.Proofs.Version.Order

/-!
# Chains of bumps

Bumps are applied one after another, where one that asks for no version or fails leaves the current
version as it is. `Bump.steps` tells what becomes of each. Every step leads forward, as far as its
bump says, or fails because the component to be raised is spent (`Bump.Step.IsForward`). So no
version of a chain is as early as one before it (`Bump.steps_forward`), though a component that is
spent can be reset by a larger bump and be raised again.
-/

namespace ReleaseCut

namespace Bump

/-- What becomes of a bump. -/
structure Step where
  /-- The version that is current before it. -/
  before : Version
  /-- The bump. -/
  bump : Bump
  /-- What it leads to. -/
  result : Except ReleaseError (Option Version)

namespace Step

/-- The version that the bump leads to, if any. -/
def reached? (s : Step) : Option Version :=
  match s.result with
  | .ok next => next
  | .error _ => .none

/-- The version that is current after it. -/
def after (s : Step) : Version :=
  s.reached?.getD s.before

theorem reached?_eq_some_iff {s : Step} {w : Version} :
    s.reached? = some w ↔ s.result = .ok (some w) := by
  rw [reached?]
  split
  · next next hnext => rw [hnext, Except.ok.injEq]
  · next e herror => simp [herror]

/-- The bump is applied to the version that is current. -/
def IsApplied (s : Step) : Prop :=
  s.result = (s.bump.applyTo? s.before).mapError .version

/-- The bump leads forward, or fails. -/
structure IsForward (s : Step) : Prop where
  /-- Only the empty bump asks for no version. -/
  none_iff : s.result = .ok .none ↔ s.bump = .none
  /-- It fails exactly if the component to be raised has the largest value there is. -/
  error_iff : ∀ e, s.result = .error e ↔ s.bump.IsSpent s.before ∧ e = .version ⟨s.before⟩
  /-- Otherwise it leads to the release with the raised components. -/
  raised_iff : ∀ w, s.result = .ok (some w) ↔ s.bump ≠ .none ∧ ¬ s.bump.IsSpent s.before ∧
    w.isRelease = true ∧ w.numbers = s.bump.raised s.before
  /-- The version comes after the current one. -/
  precedes : ∀ w, s.result = .ok (some w) → s.before.Precedes w
  /-- It comes before the versions that larger bumps lead to. -/
  precedes_larger : ∀ b w x, s.bump < b → s.result = .ok (some w) →
    b.applyTo? s.before = .ok (some x) → w.Precedes x

theorem IsApplied.result_eq_ok_iff {s : Step} (h : s.IsApplied) {next : Option Version} :
    s.result = .ok next ↔ s.bump.applyTo? s.before = .ok next := by
  rw [h, Except.mapError_eq_ok_iff]

theorem IsApplied.isForward {s : Step} (h : s.IsApplied) : s.IsForward where
  none_iff := by
    rw [h.result_eq_ok_iff]
    exact @next?_eq_none_iff s.bump (some s.before)
  error_iff e := by
    rw [h, Except.mapError_eq_error_iff]
    constructor
    · rintro ⟨o, ho, rfl⟩
      obtain ⟨hspent, rfl⟩ := applyTo?_eq_error_iff.1 ho
      exact ⟨hspent, rfl⟩
    · rintro ⟨hspent, rfl⟩
      exact ⟨_, applyTo?_eq_error_iff.2 ⟨hspent, rfl⟩, rfl⟩
  raised_iff w := by rw [h.result_eq_ok_iff, applyTo?_eq_some_iff]
  precedes w hw := precedes_of_applyTo? (h.result_eq_ok_iff.1 hw)
  precedes_larger b w x hb hw hx := precedes_of_lt hb (h.result_eq_ok_iff.1 hw) hx

end Step

/-- What becomes of each bump of a chain that starts at the current version. -/
def steps (current : Version) : List Bump → List Step
  | [] => []
  | b :: bs =>
    let s : Step := ⟨current, b, (b.applyTo? current).mapError .version⟩
    s :: steps s.after bs

theorem isApplied_of_mem_steps {current : Version} {bumps : List Bump} {s : Step}
    (h : s ∈ steps current bumps) : s.IsApplied := by
  induction bumps generalizing current with
  | nil => cases h
  | cons b bs ih =>
    rcases List.mem_cons.1 h with rfl | h
    · rfl
    · exact ih h

/-- Each version of a chain comes after all before it. -/
theorem pairwise_precedes_steps (start : Version) (bumps : List Bump) :
    (start :: (steps start bumps).filterMap Step.reached?).Pairwise Version.Precedes := by
  induction bumps generalizing start with
  | nil => exact List.pairwise_singleton _ _
  | cons b bs ih =>
    rw [steps, List.filterMap_cons]
    split
    · next hreached =>
      -- the version stays current
      rw [Step.after, hreached]
      exact ih start
    · next w hreached =>
      rw [Step.after, hreached]
      have hw : start.Precedes w := by
        have hstep : Step.IsApplied ⟨start, b, (b.applyTo? start).mapError .version⟩ := rfl
        exact hstep.isForward.precedes w (Step.reached?_eq_some_iff.1 hreached)
      have hrest := ih w
      refine List.pairwise_cons.2 ⟨fun x hx => ?_, hrest⟩
      rcases List.mem_cons.1 hx with rfl | hx
      · exact hw
      · exact hw.trans (List.rel_of_pairwise_cons hrest hx)

/-- **Bumps lead forward and never wrap around**, whatever version they start at and however many
of them fail. -/
theorem steps_forward (start : Version) (bumps : List Bump) :
    (steps start bumps).map Step.bump = bumps ∧
    (∀ s ∈ steps start bumps, s.IsForward) ∧
    (start :: (steps start bumps).filterMap Step.reached?).Pairwise Version.Precedes := by
  refine ⟨?_, fun s hs => (isApplied_of_mem_steps hs).isForward,
    pairwise_precedes_steps start bumps⟩
  induction bumps generalizing start with
  | nil => rfl
  | cons b bs ih => rw [steps, List.map_cons, ih]

/-- A pre-release whose last component is spent. -/
def spentCandidate : Version where
  major := 1
  minor := 2
  patch := 18446744073709551615
  pre := [⟨['b', 'e', 't', 'a'], by decide, by decide⟩]
  build := []

/-- The last component cannot be raised until the one before it is. -/
theorem steps_forward_spentCandidate :
    (⟨.release 1 3 0, .patch, .ok (some (.release 1 3 1))⟩ : Step) ∈
      steps spentCandidate [.patch, .minor, .patch] ∧
    (Version.release 1 3 0).Precedes (.release 1 3 1) ∧
    (⟨spentCandidate, .patch, .error (.version ⟨spentCandidate⟩)⟩ : Step) ∈
      steps spentCandidate [.patch, .minor, .patch] ∧
    Bump.patch.IsSpent spentCandidate := by
  have hfirst : (⟨spentCandidate, .patch, .error (.version ⟨spentCandidate⟩)⟩ : Step) ∈
      steps spentCandidate [.patch, .minor, .patch] := .head _
  have hlast : (⟨.release 1 3 0, .patch, .ok (some (.release 1 3 1))⟩ : Step) ∈
      steps spentCandidate [.patch, .minor, .patch] := .tail _ (.tail _ (.head _))
  obtain ⟨-, hforward, -⟩ := steps_forward spentCandidate [.patch, .minor, .patch]
  exact ⟨hlast, (hforward _ hlast).precedes _ rfl, hfirst,
    (((hforward _ hfirst).error_iff _).1 rfl).1⟩

end Bump

end ReleaseCut
