import ReleaseCut.Proofs.Changelog.Successive

/-!
# The outline of release notes

Lines of a changelog are told apart by how they open: `## ` opens a section, `### ` the heading of a
group and `* ` an item. `Notes.IsOutline` says that the lines of a text, told apart so, are the
title, the headings and the items of some notes and nothing else.

The Markdown of the notes on any commits has this outline, whatever the messages hold
(`Notes.outline_of_messages`): a subject ends where its line does, and the line that shows it opens
with a star. So in a changelog the next section goes right above the notes inserted last.
-/

namespace ReleaseCut

namespace Notes

/-- Whether a line opens the heading of a group. -/
def opensGroup (line : List Char) : Bool :=
  "### ".toList.isPrefixOf line

/-- Whether a line opens an item. -/
def opensItem (line : List Char) : Bool :=
  "* ".toList.isPrefixOf line

/-- The line of the heading of a group. -/
def Group.headingLine (g : Group) : List Char :=
  ("### " ++ g.heading.title).toList

/-- The lines of the items of a group. -/
def Group.itemLines (g : Group) : List (List Char) :=
  g.entries.map (·.line.toList)

/-- Lines have the outline of some notes, as far as the opening of a line tells. -/
structure IsOutline (n : Notes) (lines : List (List Char)) : Prop where
  /-- The title comes first, and no other line opens a section. -/
  title : ∃ rest, lines = n.titleLine.toList :: rest ∧
    Changelog.opensSection n.titleLine.toList = true ∧
    ∀ line ∈ rest, Changelog.opensSection line = false
  /-- The headings are those of the groups. -/
  headings : lines.filter opensGroup = n.groups.map Group.headingLine
  /-- There is one item for each entry. -/
  items : lines.filter opensItem = n.groups.flatMap Group.itemLines
  /-- The items of a group stand between its heading and the next one. -/
  order : lines.filter (fun line => opensGroup line || opensItem line) =
    n.groups.flatMap fun g => g.headingLine :: g.itemLines
  /-- All other lines are empty. -/
  empty : ∀ line ∈ lines, line = [] ∨ Changelog.opensSection line = true ∨
    opensGroup line = true ∨ opensItem line = true

/-! ### How lines open -/

theorem opens_titleLine (n : Notes) :
    opensGroup n.titleLine.toList = false ∧ opensItem n.titleLine.toList = false := by
  simp [titleLine, opensGroup, opensItem, List.isPrefixOf]

theorem opens_headingLine (g : Group) : Changelog.opensSection g.headingLine = false ∧
    opensGroup g.headingLine = true ∧ opensItem g.headingLine = false := by
  simp [Group.headingLine, Changelog.opensSection, Changelog.sectionMark, opensGroup, opensItem,
    List.isPrefixOf]

theorem opens_itemLines {g : Group} {line : List Char} (h : line ∈ g.itemLines) :
    Changelog.opensSection line = false ∧ opensGroup line = false ∧ opensItem line = true := by
  obtain ⟨e, -, rfl⟩ := List.mem_map.1 h
  simp [Entry.line, Changelog.opensSection, Changelog.sectionMark, opensGroup, opensItem,
    List.isPrefixOf]

/-- A line below the title is empty, a heading or an item. -/
theorem mem_below_title {n : Notes} {line : List Char}
    (h : line ∈ n.groups.flatMap Group.lines ++ [[]]) :
    line = [] ∨ ∃ g ∈ n.groups, line = g.headingLine ∨ line ∈ g.itemLines := by
  rcases List.mem_append.1 h with h | h
  · obtain ⟨g, hg, hline⟩ := List.mem_flatMap.1 h
    simp only [Group.lines, List.mem_cons] at hline
    rcases hline with rfl | rfl | rfl | hline
    · exact .inl rfl
    · exact .inr ⟨g, hg, .inl rfl⟩
    · exact .inl rfl
    · exact .inr ⟨g, hg, .inr hline⟩
  · exact .inl (List.mem_singleton.1 h)

/-- Lines that are neither empty nor the title are sought group by group. -/
theorem filter_lines_append {n : Notes} {q : List Char → Bool} (hempty : q [] = false)
    (htitle : q n.titleLine.toList = false) : (n.lines ++ [[]]).filter q =
      n.groups.flatMap fun g => (g.headingLine :: g.itemLines).filter q := by
  have hgroup : ∀ g : Group, g.lines.filter q = (g.headingLine :: g.itemLines).filter q := by
    intro g
    change ([] :: g.headingLine :: [] :: g.itemLines).filter q = _
    simp [List.filter_cons, hempty]
  simp only [lines, List.filter_append, List.filter_cons, htitle, hempty, List.filter_nil,
    List.filter_flatMap, hgroup, List.append_nil, Bool.false_eq_true, if_false]

/-- The lines of release notes have their outline. -/
theorem isOutline_lines (n : Notes) : n.IsOutline (n.lines ++ [[]]) where
  title := by
    refine ⟨_, rfl, n.opensSection_titleLine, fun line hline => ?_⟩
    rcases mem_below_title hline with rfl | ⟨g, -, rfl | hitem⟩
    · rfl
    · exact (opens_headingLine g).1
    · exact (opens_itemLines hitem).1
  headings := by
    have hgroup : ∀ g : Group, (g.headingLine :: g.itemLines).filter opensGroup =
        [g.headingLine] := by
      intro g
      rw [List.filter_cons_of_pos (opens_headingLine g).2.1, List.filter_eq_nil_iff.2]
      exact fun line hline => by simp [(opens_itemLines hline).2.1]
    rw [filter_lines_append rfl n.opens_titleLine.1]
    simp only [hgroup]
    exact List.flatMap_pure_eq_map ..
  items := by
    have hgroup : ∀ g : Group, (g.headingLine :: g.itemLines).filter opensItem =
        g.itemLines := by
      intro g
      rw [List.filter_cons_of_neg (by simp [(opens_headingLine g).2.2]), List.filter_eq_self]
      exact fun line hline => (opens_itemLines hline).2.2
    rw [filter_lines_append rfl n.opens_titleLine.2]
    simp only [hgroup]
  order := by
    have hgroup : ∀ g : Group, (g.headingLine :: g.itemLines).filter
        (fun line => opensGroup line || opensItem line) = g.headingLine :: g.itemLines := by
      intro g
      rw [List.filter_eq_self, List.forall_mem_cons]
      exact ⟨by simp [(opens_headingLine g).2.1],
        fun line hline => by simp [(opens_itemLines hline).2.2]⟩
    rw [filter_lines_append rfl (by simp [n.opens_titleLine])]
    simp only [hgroup]
  empty := by
    intro line hline
    rcases List.mem_cons.1 hline with rfl | hline
    · exact .inr (.inl n.opensSection_titleLine)
    · rcases mem_below_title hline with rfl | ⟨g, -, rfl | hitem⟩
      · exact .inl rfl
      · exact .inr (.inr (.inl (opens_headingLine g).2.1))
      · exact .inr (.inr (.inr (opens_itemLines hitem).2.2))

/-! ### Notes on commits -/

/-- **No message forges a line.** The Markdown of notes on any commits whose hashes keep to one line
has the outline of the notes. So wherever it is inserted into a changelog, there the next section
will be inserted. -/
theorem outline_of_messages {n : Notes} {infos : List CommitInfo} {order : List Section}
    (hgroups : n.groups = groupsOf (infos.map CommitInfo.toCommit) order)
    (hhash : ∀ info ∈ infos, '\n' ∉ info.hash.toList) :
    n.IsOutline (Text.splitOn '\n' n.render.toList) ∧
    ∀ old, ∃ above below, Changelog.Frame old above below ∧
      (Changelog.updated old n.render).toList = above ++ n.render.toList ++ below ∧
      Changelog.splitReleases (Changelog.updated old n.render).toList =
        (above, n.render.toList ++ below) := by
  constructor
  · have hplain := isPlain_of_groupsOf hgroups hhash
    rw [toList_render, Text.splitOn_ofLines fun line => newline_notMem_lines hplain]
    exact n.isOutline_lines
  · intro old
    obtain ⟨above, below, hframe⟩ := Changelog.exists_frame old
    have htext := hframe.toList_updated n.render
    have hmark : Changelog.sectionMark <+: n.render.toList ++ below :=
      (Changelog.sectionMark_prefix_render n).trans (List.prefix_append ..)
    refine ⟨above, below, hframe, htext, Changelog.splitReleases_eq_iff.2 ?_⟩
    rw [htext, List.append_assoc]
    exact hframe.isPreamble.cutAtRelease hmark

/-- Commits whose messages look like lines of a changelog. -/
def forgingInfos : List CommitInfo :=
  [⟨"c1", "✨ ## 9.9.9 (2024-01-01)\r### Fake"⟩, ⟨"c2", "🐛 y\n## 0.0.1\n* z"⟩]

/-- The notes on these commits. -/
def forgedNotes : Notes where
  version := .initial
  date := ⟨2023, 12, 31, by decide, by decide, by decide, by decide⟩
  groups := groupsOf (forgingInfos.map CommitInfo.toCommit) Section.all

private theorem groups_forgedNotes : forgedNotes.groups =
    [⟨.features, [⟨.features, none, "## 9.9.9 (2024-01-01)\r### Fake", "c1"⟩]⟩,
      ⟨.bugFixes, [⟨.bugFixes, none, "y", "c2"⟩]⟩] := by
  have harrange : arrange Section.all = Section.all :=
    List.mergeSort_of_pairwise (by decide)
  have hentries : (forgingInfos.map CommitInfo.toCommit).filterMap Entry.ofCommit? =
      [⟨.features, none, "## 9.9.9 (2024-01-01)\r### Fake", "c1"⟩,
        ⟨.bugFixes, none, "y", "c2"⟩] := by
    decide +kernel
  rw [forgedNotes, groupsOf, harrange, hentries]
  simp [Section.all, group?]

/-- Such messages give two items below the headings of their groups, and no other line. -/
theorem outline_of_forged_messages : (∀ info ∈ forgingInfos, '\n' ∉ info.hash.toList) ∧
    (Text.splitOn '\n' forgedNotes.render.toList).filter opensGroup =
      ["### Features".toList, "### Bug Fixes".toList] ∧
    (Text.splitOn '\n' forgedNotes.render.toList).filter opensItem =
      ["* ## 9.9.9 (2024-01-01)\r### Fake (c1)".toList, "* y (c2)".toList] ∧
    Changelog.splitReleases (Changelog.updated none forgedNotes.render).toList =
      ("# Changelog\n\n".toList, forgedNotes.render.toList) := by
  have hhash : ∀ info ∈ forgingInfos, '\n' ∉ info.hash.toList := by decide
  obtain ⟨houtline, hinsert⟩ := outline_of_messages (n := forgedNotes) rfl hhash
  obtain ⟨_, _, ⟨⟩, -, hsplit⟩ := hinsert none
  refine ⟨hhash, ?_, ?_, by simpa using hsplit⟩
  · rw [houtline.headings, groups_forgedNotes]
    decide
  · rw [houtline.items, groups_forgedNotes]
    decide

end Notes

end ReleaseCut
