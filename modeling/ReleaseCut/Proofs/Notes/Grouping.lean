import ReleaseCut.Proofs.Notes.Groups
import ReleaseCut.Proofs.Text.ByteOrder

/-!
# What the groups of release notes are

`Notes.IsGrouping` says which lists of groups are right for some entries and a configured order of
the sections, in terms of what a reader of the notes sees: every entry stands under its heading as
often as it was given, headings go by their first position in the order, and entries by the bytes of
what they show. The groups of any commits are such, for any order (`Notes.isGrouping_groupsOf`), be
sections repeated in it or left out.
-/

namespace ReleaseCut

/-! ### The order of sections -/

namespace Section

/-- In a configured order a section comes before another one: its first position is smaller, where
the length of the order is that of sections left out, or both are left out and it comes first in the
standard order. -/
def ComesBefore (order : List Section) (s t : Section) : Prop :=
  order.idxOf s < order.idxOf t ∨ order.idxOf s = order.idxOf t ∧ s.index < t.index

theorem index_injective : Function.Injective index := by
  intro s t
  cases s <;> cases t <;> simp [index]

end Section

namespace Notes

variable {order : List Section} {s t : Section}

theorem sectionMayPrecede_iff : sectionMayPrecede order s t = true ↔
    order.idxOf s < order.idxOf t ∨ order.idxOf s = order.idxOf t ∧ s.index ≤ t.index := by
  simp only [sectionMayPrecede, Bool.or_eq_true, Bool.and_eq_true, decide_eq_true_eq, beq_iff_eq]
  exact Iff.rfl

theorem sectionMayPrecede_trans (order : List Section) (s t u : Section)
    (hst : sectionMayPrecede order s t = true) (htu : sectionMayPrecede order t u = true) :
    sectionMayPrecede order s u = true := by
  rw [sectionMayPrecede_iff] at *
  omega

theorem sectionMayPrecede_total (order : List Section) (s t : Section) :
    (sectionMayPrecede order s t || sectionMayPrecede order t s) = true := by
  rw [Bool.or_eq_true, sectionMayPrecede_iff, sectionMayPrecede_iff]
  omega

/-- The sections are arranged one before the other. -/
theorem pairwise_arrange (order : List Section) :
    (arrange order).Pairwise (Section.ComesBefore order) := by
  have hsorted : (arrange order).Pairwise (sectionMayPrecede order · · = true) :=
    List.pairwise_mergeSort (sectionMayPrecede_trans order) (sectionMayPrecede_total order) _
  refine (hsorted.and (nodup_arrange order)).imp fun {s t} ⟨hle, hne⟩ => ?_
  have hindex : s.index ≠ t.index := fun h => hne (Section.index_injective h)
  rw [sectionMayPrecede_iff] at hle
  rw [Section.ComesBefore]
  omega

/-! ### The order of entries -/

/-- What entries are sorted by: the bytes of scope, subject and short hash. -/
def Entry.sortKey (e : Entry) : List (List Nat) :=
  [Text.bytes e.scopeText, Text.bytes e.subject, Text.bytes e.shortHash]

theorem Entry.compare_eq_compare_sortKey (a b : Entry) :
    a.compare b = compare a.sortKey b.sortKey := by
  simp [Entry.compare, sortKey, Text.compare_eq_compare_bytes, List.compare_cons_cons]

/-! ### Groups -/

/-- A list of groups is right for some entries and an order of the sections. -/
structure IsGrouping (entries : List Entry) (order : List Section) (groups : List Group) :
    Prop where
  /-- Every entry is listed as often as it was given, and no other one is. -/
  perm : (groups.flatMap (·.entries)).Perm entries
  /-- No group is empty. -/
  ne_nil : ∀ g ∈ groups, g.entries ≠ []
  /-- Every entry stands under its own heading. -/
  heading : ∀ g ∈ groups, ∀ e ∈ g.entries, e.heading = g.heading
  /-- No two groups have the same heading. -/
  nodup : (groups.map (·.heading)).Nodup
  /-- The headings come one before the other. -/
  ascending : (groups.map (·.heading)).Pairwise (Section.ComesBefore order)
  /-- The entries of a group go by the bytes of what they show. -/
  sorted : ∀ g ∈ groups, g.entries.Pairwise fun d e => (compare d.sortKey e.sortKey).isLE

/-- The headings are the arranged sections, without those that have no entries. -/
theorem map_heading_groupsOf (cs : List Commit) (order : List Section) :
    (groupsOf cs order).map (·.heading) =
      (arrange order).filter (underHeading (entriesOf cs) · ≠ []) := by
  have hheading : ∀ s, (group? (entriesOf cs) s).map (·.heading) =
      Option.guard (underHeading (entriesOf cs) · ≠ []) s := by
    intro s
    rw [group?_eq, Option.guard]
    split <;> simp_all
  rw [groupsOf, ← entriesOf, List.map_filterMap]
  simp only [hheading, List.filterMap_eq_filter]

/-- **The groups of any commits are right**, whatever the order of the sections. -/
theorem isGrouping_groupsOf (cs : List Commit) (order : List Section) :
    IsGrouping (entriesOf cs) order (groupsOf cs order) where
  perm := perm_entries cs order
  ne_nil g hg hnil := by
    obtain ⟨hne, hentries⟩ := mem_groupsOf.1 hg
    have hlength := congrArg List.length hentries
    rw [hnil, List.length_mergeSort] at hlength
    exact hne (List.eq_nil_of_length_eq_zero hlength.symm)
  heading g hg e he := ((mem_entries_iff hg).1 he).2
  nodup := by
    rw [map_heading_groupsOf]
    exact (nodup_arrange order).filter _
  ascending := by
    rw [map_heading_groupsOf]
    exact (pairwise_arrange order).filter _
  sorted g hg := by
    rw [(mem_groupsOf.1 hg).2]
    refine (Entry.pairwise_mergeSort _).imp fun {d e} hde => ?_
    rwa [Entry.mayPrecede, Entry.compare_eq_compare_sortKey] at hde

end Notes

end ReleaseCut
