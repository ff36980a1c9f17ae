import Mathlib.Algebra.BigOperators.Group.List.Lemmas
import Mathlib.Algebra.GroupWithZero.Nat
import ReleaseCut.Proofs.Notes.Groups

/-!
# The tally, the bump and the groups

A list of commits is looked at in three ways: the tally counts its kinds, the largest bump decides
about the release, and the groups list its changes. `Notes.views_agree` says that these never
contradict each other. Two kinds share a section, so a group may have the commits of both, and it
has as many entries as its kinds have commits (`Notes.listed_groupsOf`).
-/

namespace ReleaseCut

namespace Notes

variable {cs : List Commit} {order : List Section} {s : Section}

/-- The number of entries that are listed under a section, which is zero where it has no group. -/
def listed (groups : List Group) (s : Section) : Nat :=
  ((groups.find? (·.heading == s)).map (·.entries.length)).getD 0

/-- The number of commits that a tally counts for a section. -/
def counted (counts : List (Kind × Nat)) (s : Section) : Nat :=
  ((counts.filter (·.1.heading == s)).map Prod.snd).sum

/-- All entries of a section are listed under it. -/
theorem listed_eq (cs : List Commit) (order : List Section) (s : Section) :
    listed (groupsOf cs order) s = (underHeading (entriesOf cs) s).length := by
  rw [listed]
  cases hfind : (groupsOf cs order).find? (·.heading == s) with
  | none =>
    -- a section with entries would have a group
    have hnil : underHeading (entriesOf cs) s = [] := by
      refine Decidable.byContradiction fun hne => ?_
      have hmem : ⟨s, (underHeading (entriesOf cs) s).mergeSort Entry.mayPrecede⟩ ∈
          groupsOf cs order := mem_groupsOf.2 ⟨hne, rfl⟩
      simpa using List.find?_eq_none.1 hfind _ hmem
    rw [hnil]
    rfl
  | some g =>
    have hmem := mem_groupsOf.1 (List.mem_of_find?_eq_some hfind)
    obtain rfl : g.heading = s := by simpa using List.find?_some hfind
    rw [Option.map_some, Option.getD_some, hmem.2, List.length_mergeSort]

/-- A section has the entries of the commits whose kinds belong to it. -/
theorem length_underHeading (cs : List Commit) (s : Section) :
    (underHeading (entriesOf cs) s).length = (Commit.kinds cs).countP (·.heading == s) := by
  rw [underHeading, ← List.countP_eq_length_filter, entriesOf, Commit.kinds, List.countP_filterMap,
    List.countP_filterMap]
  refine List.countP_congr fun c _ => ?_
  cases hkind : c.kind? <;> simp [Entry.ofCommit?, hkind]

/-- The tally counts for a section the commits whose kinds belong to it. -/
theorem counted_tally (cs : List Commit) (s : Section) :
    counted (Commit.tally cs) s = (Commit.kinds cs).countP (·.heading == s) := by
  have hkinds : (Kind.all.filter (· ∈ Commit.kinds cs)).Perm (Commit.kinds cs).dedup := by
    refine (List.perm_ext_iff_of_nodup (List.Nodup.filter _ (by decide)) (List.nodup_dedup _)).2
      fun k => ?_
    have hall : k ∈ Kind.all := by cases k <;> decide
    simp [hall]
  have hsum := ((hkinds.filter (·.heading == s)).map (Commit.kinds cs).count).sum_eq
  rw [← List.sum_map_count_dedup_filter_eq_countP, ← hsum, counted, Commit.tally_eq,
    List.filter_map, List.map_map]
  rfl

/-- As many entries are listed under a section as the tally counts for it. -/
theorem listed_groupsOf (cs : List Commit) (order : List Section) (s : Section) :
    listed (groupsOf cs order) s = counted (Commit.tally cs) s := by
  rw [listed_eq, length_underHeading, counted_tally]

/-- **The three views of a list of commits agree.** -/
theorem views_agree (cs : List Commit) (order : List Section) :
    Commit.IsTally cs (Commit.tally cs) ∧
    (∀ s, listed (groupsOf cs order) s = counted (Commit.tally cs) s) ∧
    IsGreatest (insert .none {b | ∃ p ∈ Commit.tally cs, p.1.bump = b}) (Commit.largestBump cs) ∧
    (Commit.largestBump cs = .none ↔ Commit.tally cs = []) ∧
    (Commit.tally cs = [] ↔ groupsOf cs order = []) ∧
    ∀ ds, Commit.largestBump (cs ++ ds) = max (Commit.largestBump cs) (Commit.largestBump ds) := by
  refine ⟨Commit.isTally_tally cs, listed_groupsOf cs order, Commit.isGreatest_tally cs, ?_, ?_,
    Commit.largestBump_append cs⟩
  · rw [Commit.largestBump_eq_none_iff, Commit.tally_eq_nil_iff]
  · rw [Commit.tally_eq_nil_iff, groupsOf_eq_nil_iff]

end Notes

end ReleaseCut
