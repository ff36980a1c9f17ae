import Mathlib.Data.List.Nodup
import Mathlib.Data.List.Perm.Basic
import ReleaseCut.Notes.Basic
import ReleaseCut.Proofs.Commit.Tally

/-!
# The groups of release notes

* Every entry stands in one group: the entries of all groups together are those of the commits
  (`perm_entries`), so nothing is lost and nothing is listed twice. There are groups wherever there
  are classified commits (`groupsOf_eq_nil_iff`).
* The groups are determined by the sorted entries of each section, and determine them
  (`groupsOf_eq_iff`). They do not depend on the order of the entries, as long as only equal entries
  rank equal (`groupsOf_eq_of_perm`). Entries of commits without a scope are such.
-/

namespace ReleaseCut

namespace Notes

/-- The entries of the commits that are classified. -/
def entriesOf (cs : List Commit) : List Entry :=
  cs.filterMap Entry.ofCommit?

theorem length_entriesOf (cs : List Commit) : (entriesOf cs).length = (Commit.kinds cs).length := by
  rw [entriesOf, Commit.kinds, List.length_filterMap_eq_countP, List.length_filterMap_eq_countP]
  simp [Entry.ofCommit?]

/-! ### The order of entries -/

namespace Entry

variable {a b : Entry}

private theorem compare_eq_lex : Entry.compare =
    compareLex (compareOn scopeText) (compareLex (compareOn subject) (compareOn shortHash)) := rfl

instance : Std.TransCmp Entry.compare := by
  rw [compare_eq_lex]
  infer_instance

/-- Entries rank equal if scope, subject and short hash are equal. -/
theorem compare_eq_iff : a.compare b = .eq ↔
    a.scopeText = b.scopeText ∧ a.subject = b.subject ∧ a.shortHash = b.shortHash := by
  simp [Entry.compare]

/-- Entries of one section that rank equal are equal, unless one has no scope and the other one has
the empty scope. -/
theorem eq_of_compare_eq (hrank : a.compare b = .eq) (hheading : a.heading = b.heading)
    (hscope : a.scope.isSome = b.scope.isSome) : a = b := by
  obtain ⟨htext, hsubject, hhash⟩ := compare_eq_iff.1 hrank
  obtain ⟨heading, scope, subject, hash⟩ := a
  obtain ⟨heading', scope', subject', hash'⟩ := b
  cases scope <;> cases scope' <;> simp_all [scopeText]

theorem mayPrecede_trans {c : Entry} (hab : a.mayPrecede b = true) (hbc : b.mayPrecede c = true) :
    a.mayPrecede c = true := by
  rw [mayPrecede] at hab hbc ⊢
  exact Std.TransCmp.isLE_trans hab hbc

theorem mayPrecede_total (a b : Entry) : (a.mayPrecede b || b.mayPrecede a) = true := by
  have hswap : b.compare a = (a.compare b).swap := Std.OrientedCmp.eq_swap
  rw [mayPrecede, mayPrecede, hswap]
  cases a.compare b <;> rfl

theorem compare_eq_of_mayPrecede (hab : a.mayPrecede b = true) (hba : b.mayPrecede a = true) :
    a.compare b = .eq :=
  Std.OrientedCmp.isLE_antisymm hab hba

/-- Sorting puts no entry before one that it may not precede. -/
theorem pairwise_mergeSort (es : List Entry) :
    (es.mergeSort mayPrecede).Pairwise (·.mayPrecede · = true) := by
  refine List.pairwise_mergeSort (fun a b c hab hbc => ?_) mayPrecede_total es
  exact mayPrecede_trans hab hbc

/-- Sorted entries do not depend on the order of the input, if only equal ones rank equal. -/
theorem mergeSort_eq_of_perm {xs ys : List Entry} (hperm : xs.Perm ys)
    (hkey : ∀ a ∈ xs, ∀ b ∈ xs, a.compare b = .eq → a = b) :
    xs.mergeSort mayPrecede = ys.mergeSort mayPrecede := by
  have hboth : (xs.mergeSort mayPrecede).Perm (ys.mergeSort mayPrecede) :=
    (List.mergeSort_perm xs _).trans (hperm.trans (List.mergeSort_perm ys _).symm)
  refine hboth.eq_of_pairwise (fun a b ha hb hab hba => ?_) (pairwise_mergeSort xs)
    (pairwise_mergeSort ys)
  exact hkey a (List.mem_mergeSort.1 ha) b (hperm.mem_iff.2 (List.mem_mergeSort.1 hb))
    (compare_eq_of_mayPrecede hab hba)

end Entry

/-! ### The order of groups -/

theorem perm_arrange (order : List Section) : (arrange order).Perm Section.all :=
  List.mergeSort_perm _ _

theorem nodup_arrange (order : List Section) : (arrange order).Nodup :=
  (perm_arrange order).nodup_iff.2 (by decide)

/-- Every section has its place. -/
theorem mem_arrange (order : List Section) (s : Section) : s ∈ arrange order := by
  rw [(perm_arrange order).mem_iff]
  cases s <;> decide

/-! ### Entries and groups -/

/-- The entries of one section. -/
def underHeading (entries : List Entry) (s : Section) : List Entry :=
  entries.filter (·.heading == s)

/-- A section has a group if it has entries; there they stand in order. -/
theorem group?_eq (entries : List Entry) (s : Section) : group? entries s =
    if underHeading entries s = [] then none
    else some ⟨s, (underHeading entries s).mergeSort Entry.mayPrecede⟩ := by
  rw [group?, underHeading]
  split
  · next hnil => rw [if_pos hnil]
  · next hne => rw [if_neg hne]

/-- A group holds all entries of its section, in order. -/
theorem mem_groupsOf {cs : List Commit} {order : List Section} {g : Group} :
    g ∈ groupsOf cs order ↔ underHeading (entriesOf cs) g.heading ≠ [] ∧
      g.entries = (underHeading (entriesOf cs) g.heading).mergeSort Entry.mayPrecede := by
  rw [groupsOf, ← entriesOf, List.mem_filterMap]
  simp only [group?_eq, Option.ite_none_left_eq_some, Option.some.injEq]
  constructor
  · rintro ⟨s, -, hne, rfl⟩
    exact ⟨hne, rfl⟩
  · rintro ⟨hne, hentries⟩
    exact ⟨g.heading, mem_arrange order _, hne, by rw [← hentries]⟩

/-- A group lists the entries of its section and no others. -/
theorem mem_entries_iff {cs : List Commit} {order : List Section} {g : Group} {e : Entry}
    (hg : g ∈ groupsOf cs order) : e ∈ g.entries ↔ e ∈ entriesOf cs ∧ e.heading = g.heading := by
  rw [(mem_groupsOf.1 hg).2, List.mem_mergeSort, underHeading, List.mem_filter, beq_iff_eq]

private theorem perm_entries_group? (entries : List Entry) (s : Section) :
    ((group? entries s).toList.flatMap (·.entries)).Perm (underHeading entries s) := by
  rw [group?_eq]
  split
  · next hnil => simp [hnil]
  · simpa using List.mergeSort_perm _ _

/-- The entries of some sections, one section after the other. -/
private theorem perm_flatMap_underHeading (entries : List Entry) {sections : List Section}
    (hnodup : sections.Nodup) :
    (sections.flatMap (underHeading entries)).Perm (entries.filter (·.heading ∈ sections)) := by
  induction sections with
  | nil => simp
  | cons s ss ih =>
    obtain ⟨hs, hss⟩ := List.nodup_cons.1 hnodup
    have hfirst : (entries.filter (·.heading ∈ s :: ss)).filter (·.heading == s) =
        underHeading entries s := by
      rw [List.filter_filter]
      refine List.filter_congr fun e _ => ?_
      by_cases he : e.heading = s <;> simp [he]
    have hrest : (entries.filter (·.heading ∈ s :: ss)).filter (!·.heading == s) =
        entries.filter (·.heading ∈ ss) := by
      rw [List.filter_filter]
      refine List.filter_congr fun e _ => ?_
      by_cases he : e.heading = s <;> simp [he, hs]
    have hsplit := List.filter_append_perm (·.heading == s) (entries.filter (·.heading ∈ s :: ss))
    rw [hfirst, hrest] at hsplit
    exact ((ih hss).append_left _).trans hsplit

/-- **No entry is lost or listed twice.** The entries of all groups are those of the commits. -/
theorem perm_entries (cs : List Commit) (order : List Section) :
    ((groupsOf cs order).flatMap (·.entries)).Perm (entriesOf cs) := by
  have hall : (entriesOf cs).filter (·.heading ∈ arrange order) = entriesOf cs :=
    List.filter_eq_self.2 fun e _ => by simp [mem_arrange]
  have hgroups : (groupsOf cs order).flatMap (·.entries) = (arrange order).flatMap fun s =>
      (group? (entriesOf cs) s).toList.flatMap (·.entries) := by
    rw [groupsOf, List.filterMap_eq_flatMap_toList, List.flatMap_assoc]
    rfl
  have hsections := perm_flatMap_underHeading (entriesOf cs) (nodup_arrange order)
  rw [hall] at hsections
  rw [hgroups]
  exact (List.Perm.flatMap_left _ fun s _ => perm_entries_group? _ s).trans hsections

/-- As many entries are listed as there are classified commits. -/
theorem entryCount_groupsOf {n : Notes} {cs : List Commit} {order : List Section}
    (h : n.groups = groupsOf cs order) : n.entryCount = (Commit.kinds cs).length := by
  rw [entryCount, h, (perm_entries cs order).length_eq, length_entriesOf]

/-- There are groups wherever there are classified commits. -/
theorem groupsOf_eq_nil_iff {cs : List Commit} {order : List Section} :
    groupsOf cs order = [] ↔ Commit.kinds cs = [] := by
  have hentries : entriesOf cs = [] ↔ Commit.kinds cs = [] := by
    rw [← List.length_eq_zero_iff, length_entriesOf, List.length_eq_zero_iff]
  rw [← hentries]
  constructor
  · intro hnil
    exact List.nil_perm.1 (by simpa [hnil] using perm_entries cs order)
  · intro hnil
    refine List.filterMap_eq_nil_iff.2 fun s _ => ?_
    rw [← entriesOf, hnil]
    rfl

/-- The groups are the same for two lists of commits exactly if the sorted entries are, section by
section. -/
theorem groupsOf_eq_iff {xs ys : List Commit} {order : List Section} :
    groupsOf xs order = groupsOf ys order ↔ ∀ s,
      (underHeading (entriesOf xs) s).mergeSort Entry.mayPrecede =
        (underHeading (entriesOf ys) s).mergeSort Entry.mayPrecede := by
  constructor
  · intro h s
    -- the group of a section that has entries is one of the other list too
    have hentries : ∀ {us vs : List Commit}, groupsOf us order = groupsOf vs order →
        underHeading (entriesOf us) s ≠ [] →
        (underHeading (entriesOf us) s).mergeSort Entry.mayPrecede =
          (underHeading (entriesOf vs) s).mergeSort Entry.mayPrecede := by
      intro us vs h hne
      have hmem : ⟨s, (underHeading (entriesOf us) s).mergeSort Entry.mayPrecede⟩ ∈
          groupsOf us order := mem_groupsOf.2 ⟨hne, rfl⟩
      rw [h] at hmem
      exact (mem_groupsOf.1 hmem).2
    by_cases hxs : underHeading (entriesOf xs) s = []
    · by_cases hys : underHeading (entriesOf ys) s = []
      · rw [hxs, hys]
      · exact (hentries h.symm hys).symm
    · exact hentries h hxs
  · intro h
    refine List.filterMap_congr fun s _ => ?_
    have hlength := congrArg List.length (h s)
    rw [List.length_mergeSort, List.length_mergeSort] at hlength
    have hnil : underHeading (entriesOf xs) s = [] ↔ underHeading (entriesOf ys) s = [] := by
      rw [← List.length_eq_zero_iff, hlength, List.length_eq_zero_iff]
    change group? (entriesOf xs) s = group? (entriesOf ys) s
    simp only [group?_eq, h s, hnil]

/-- **The groups do not depend on the order of the entries**, as long as only equal entries of a
section rank equal. -/
theorem groupsOf_eq_of_perm {xs ys : List Commit} {order : List Section}
    (hperm : (entriesOf xs).Perm (entriesOf ys))
    (hkey : ∀ a ∈ entriesOf xs, ∀ b ∈ entriesOf xs, a.heading = b.heading →
      a.compare b = .eq → a = b) :
    groupsOf xs order = groupsOf ys order := by
  refine groupsOf_eq_iff.2 fun s => ?_
  have hmem : ∀ e ∈ underHeading (entriesOf xs) s, e ∈ entriesOf xs ∧ e.heading = s :=
    fun e he => by simpa using List.mem_filter.1 he
  exact Entry.mergeSort_eq_of_perm (hperm.filter _) fun a ha b hb hab =>
    hkey a (hmem a ha).1 b (hmem b hb).1 ((hmem a ha).2.trans (hmem b hb).2.symm) hab

end Notes

end ReleaseCut
