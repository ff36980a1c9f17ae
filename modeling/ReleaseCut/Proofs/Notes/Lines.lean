import ReleaseCut.Changelog
import ReleaseCut.Notes.Markdown
import ReleaseCut.Proofs.Commit.Header
import ReleaseCut.Proofs.Notes.Groups
import ReleaseCut.Proofs.Text.Split
import ReleaseCut.Proofs.Version.Text
import ReleaseCut.Repository.Basic

/-!
# Release notes line by line

The Markdown of release notes is a text of lines (`Notes.toList_render`), of which the first alone
opens a section of a changelog (`Notes.filter_lines`).

No line holds a newline of its own, if no hash does (`Notes.isPlain_of_groupsOf`): a message is read
up to its first newline, so no subject can forge a line.
-/

namespace ReleaseCut

/-- Whether a line opens a section of a changelog. -/
def Changelog.opensSection (line : List Char) : Bool :=
  sectionMark.isPrefixOf line

/-! ### Texts without newlines -/

/-- The text of a version is a part of one line. -/
theorem Version.newline_notMem_text (v : Version) : '\n' ∉ v.text.toList := by
  rw [Version.text, String.toList_ofList]
  exact fun h => absurd (Version.isTextChar_of_mem_toList h) (by decide)

namespace Date

private theorem newline_notMem_padded (width n : Nat) : '\n' ∉ padded width n := by
  simp only [padded, List.mem_append, List.mem_replicate, not_or]
  refine ⟨by simp, fun h => ?_⟩
  exact absurd (Nat.isDigit_of_mem_toDigits (by decide) (by decide) h) (by decide)

/-- The text of a date is a part of one line. -/
theorem newline_notMem_text (d : Date) : '\n' ∉ d.text.toList := by
  have hyear : '\n' ∉ yearText d.year := by
    rw [yearText]
    split
    · exact newline_notMem_padded 4 _
    · split <;> simp [newline_notMem_padded]
  simp [text, hyear, newline_notMem_padded]

end Date

namespace Notes

/-! ### Lines of Markdown -/

/-- The lines of a group. -/
def Group.lines (g : Group) : List (List Char) :=
  [] :: ("### " ++ g.heading.title).toList :: [] :: g.entries.map (·.line.toList)

/-- The lines of release notes. -/
def lines (n : Notes) : List (List Char) :=
  n.titleLine.toList :: n.groups.flatMap Group.lines

/-- Whether no entry takes more than its line. -/
def IsPlain (n : Notes) : Prop :=
  ∀ g ∈ n.groups, ∀ e ∈ g.entries, '\n' ∉ e.line.toList

private theorem Group.toList_render (g : Group) : g.render.toList = Text.ofLines g.lines := by
  have hentries : (g.entries.map (·.line ++ "\n")).flatMap String.toList =
      Text.ofLines (g.entries.map (·.line.toList)) := by
    simp [Text.ofLines, List.flatMap_map]
  simp [render, lines, hentries]

/-- Release notes are their lines. -/
theorem toList_render (n : Notes) : n.render.toList = Text.ofLines n.lines := by
  have hgroups : (n.groups.map Group.render).flatMap String.toList =
      Text.ofLines (n.groups.flatMap Group.lines) := by
    induction n.groups with
    | nil => rfl
    | cons g gs ih => simp [Group.toList_render, ih]
  simp [render, lines, hgroups]

theorem newline_notMem_titleLine (n : Notes) : '\n' ∉ n.titleLine.toList := by
  simp [titleLine, Version.newline_notMem_text, Date.newline_notMem_text]

theorem newline_notMem_lines {n : Notes} (h : n.IsPlain) {line : List Char}
    (hline : line ∈ n.lines) : '\n' ∉ line := by
  rcases List.mem_cons.1 hline with rfl | hline
  · exact n.newline_notMem_titleLine
  · obtain ⟨g, hg, hline⟩ := List.mem_flatMap.1 hline
    simp only [Group.lines, List.mem_cons, List.mem_map] at hline
    rcases hline with rfl | rfl | rfl | ⟨e, he, rfl⟩
    · exact List.not_mem_nil
    · cases g.heading <;> decide
    · exact List.not_mem_nil
    · exact h g hg e he

/-- The first line opens a section of a changelog. -/
theorem opensSection_titleLine (n : Notes) : Changelog.opensSection n.titleLine.toList = true := by
  simp [titleLine, Changelog.opensSection, Changelog.sectionMark]

/-- The other lines open none. -/
theorem filter_lines (n : Notes) :
    n.lines.filter Changelog.opensSection = [n.titleLine.toList] := by
  have hgroups : (n.groups.flatMap Group.lines).filter Changelog.opensSection = [] := by
    rw [List.filter_eq_nil_iff]
    intro line hline
    obtain ⟨g, -, hline⟩ := List.mem_flatMap.1 hline
    simp only [Group.lines, List.mem_cons, List.mem_map] at hline
    rcases hline with rfl | rfl | rfl | ⟨e, -, rfl⟩
    · decide
    · simp [Changelog.opensSection, Changelog.sectionMark]
    · decide
    · simp [Entry.line, Changelog.opensSection, Changelog.sectionMark]
  rw [lines, List.filter_cons_of_pos n.opensSection_titleLine, hgroups]

/-! ### Entries of commits -/

/-- An entry whose parts hold no newline takes one line. -/
theorem Entry.newline_notMem_line {e : Entry} (hscope : '\n' ∉ e.scopeText.toList)
    (hsubject : '\n' ∉ e.subject.toList) (hhash : '\n' ∉ e.shortHash.toList) :
    '\n' ∉ e.line.toList := by
  have hscoped : '\n' ∉
      (if e.scopeText.isEmpty then "" else "**" ++ e.scopeText ++ ":** ").toList := by
    split <;> simp [hscope]
  have hhashed : '\n' ∉
      (if e.shortHash.isEmpty then "" else " (" ++ e.shortHash ++ ")").toList := by
    split <;> simp [hhash]
  simp only [line, String.toList_append, List.mem_append, not_or]
  exact ⟨⟨⟨by decide, hscoped⟩, hsubject⟩, hhashed⟩

/-- Where no hash holds a newline, no entry does. -/
theorem isPlain_of_groupsOf {n : Notes} {infos : List CommitInfo} {order : List Section}
    (hgroups : n.groups = groupsOf (infos.map CommitInfo.toCommit) order)
    (hhash : ∀ info ∈ infos, '\n' ∉ info.hash.toList) : n.IsPlain := by
  intro g hg e he
  rw [hgroups] at hg
  obtain ⟨c, hc, hentry⟩ := List.mem_filterMap.1 ((mem_entries_iff hg).1 he).1
  obtain ⟨info, hinfo, rfl⟩ := List.mem_map.1 hc
  obtain ⟨k, -, rfl⟩ := Option.map_eq_some_iff.1 hentry
  have hsubject := Commit.newline_notMem_subject info.message info.hash
  have hshort : '\n' ∉ info.toCommit.shortHash.toList := by
    rw [Commit.shortHash, String.toList_ofList]
    exact fun h => hhash info hinfo (List.mem_of_mem_take h)
  -- messages give no scope
  have hscope : '\n' ∉ (info.toCommit.scope.getD "").toList := List.not_mem_nil
  exact Entry.newline_notMem_line hscope hsubject hshort

end Notes

end ReleaseCut
