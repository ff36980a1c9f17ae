import ReleaseCut.Proofs.Changelog.Insert

/-!
# Headings of a changelog

The text of a changelog to which the notes of some releases were added is `Changelog.textOf`: one
more release puts its notes in front of the others (`updated_textOf`).

So its headings, the lines that open a section, are the titles of the releases, newest first
(`headings_textOf`).
-/

namespace ReleaseCut.Changelog

variable {line s : List Char} {lines : List (List Char)} {n : Notes} {ns : List Notes}

/-- The lines of a changelog that open a section, from top to bottom. -/
def headings (text : String) : List String :=
  ((Text.splitOn '\n' text.toList).filter opensSection).map String.ofList

/-! ### The text after some releases -/

/-- The lines above all sections. -/
private def preamble : List (List Char) :=
  ["# Changelog".toList, []]

/-- The lines of the sections, with an empty one between two of them. -/
private def sections (ns : List Notes) : List (List Char) :=
  [[]].intercalate (ns.map Notes.lines)

/-- The text of a changelog with the notes of some releases, where the newest comes first. There is
none without a release. -/
def textOf : List Notes → Option String
  | [] => none
  | n :: ns => some (String.ofList (Text.ofLines (preamble ++ sections (n :: ns))))

private theorem sections_cons (h : ns ≠ []) :
    sections (n :: ns) = n.lines ++ [] :: sections ns := by
  rw [sections, List.map_cons, List.intercalate_cons_of_ne_nil (by simpa using h)]
  simp [sections]

private theorem newline_notMem_sections (h : ∀ n ∈ ns, n.IsPlain) :
    ∀ line ∈ sections ns, '\n' ∉ line := by
  induction ns with
  | nil => simp [sections]
  | cons n ns ih =>
    rw [List.forall_mem_cons] at h
    by_cases hns : ns = []
    · subst hns
      simpa [sections] using fun line hline => Notes.newline_notMem_lines h.1 hline
    · rw [sections_cons hns]
      intro line hline
      rcases List.mem_append.1 hline with hline | hline
      · exact Notes.newline_notMem_lines h.1 hline
      · rcases List.mem_cons.1 hline with rfl | hline
        · exact List.not_mem_nil
        · exact ih h.2 line hline

private theorem newline_notMem_preamble_sections (h : ∀ n ∈ ns, n.IsPlain) :
    ∀ line ∈ preamble ++ sections ns, '\n' ∉ line := by
  intro line hline
  rcases List.mem_append.1 hline with hline | hline
  · simp only [preamble, List.mem_cons, List.not_mem_nil, or_false] at hline
    rcases hline with rfl | rfl <;> decide
  · exact newline_notMem_sections h line hline

/-- The sections start with the title of the newest one. -/
private theorem sections_eq (n : Notes) (ns : List Notes) :
    ∃ rest, sections (n :: ns) = n.titleLine.toList :: rest := by
  by_cases hns : ns = []
  · subst hns
    exact ⟨_, by simp [sections, Notes.lines]; rfl⟩
  · exact ⟨_, by rw [sections_cons hns, Notes.lines, List.cons_append]⟩

private theorem toList_header : header.toList = Text.ofLines preamble := by
  decide

private theorem isPreamble_preamble : IsPreamble (Text.ofLines preamble) where
  above := by decide
  blank := .inr ⟨"# Changelog".toList, rfl⟩

/-- The sections open with the title of the newest one. -/
private theorem sectionMark_prefix_sections (n : Notes) (ns : List Notes) :
    sectionMark <+: Text.ofLines (sections (n :: ns)) := by
  obtain ⟨rest, hsections⟩ := sections_eq n ns
  rw [hsections]
  exact sectionMark_prefix_ofLines n.opensSection_titleLine rest

/-- **One more release.** Its notes come in front of the others. -/
theorem updated_textOf (n : Notes) (ns : List Notes) :
    some (updated (textOf ns) n.render) = textOf (n :: ns) := by
  cases ns with
  | nil =>
    have htext : (header ++ n.render).toList = Text.ofLines (preamble ++ sections [n]) := by
      simp [toList_header, Notes.toList_render, sections]
    rw [textOf, textOf, updated, ← htext, String.ofList_toList]
  | cons m ns =>
    have hinsert : (insert (String.ofList (Text.ofLines (preamble ++ sections (m :: ns))))
        n.render).toList = Text.ofLines (preamble ++ sections (n :: m :: ns)) := by
      rw [isPreamble_preamble.toList_insert (sectionMark_prefix_sections m ns) (by simp),
        sections_cons (List.cons_ne_nil m ns), Notes.toList_render]
      simp
    rw [textOf, textOf, updated, ← hinsert, String.ofList_toList]

/-- The titles are all the lines of the sections that open one. -/
private theorem filter_sections (ns : List Notes) :
    (sections ns).filter opensSection = ns.map (·.titleLine.toList) := by
  have hempty : opensSection [] = false := rfl
  induction ns with
  | nil => rfl
  | cons n ns ih =>
    by_cases hns : ns = []
    · subst hns
      simp [sections, Notes.filter_lines]
    · rw [sections_cons hns, List.filter_append, Notes.filter_lines,
        List.filter_cons_of_neg (by simp [hempty]), ih]
      rfl

/-- The headings are the titles of the releases. -/
theorem headings_textOf (h : ∀ m ∈ ns, m.IsPlain) :
    headings ((textOf ns).getD "") = ns.map Notes.titleLine := by
  cases ns with
  | nil => rfl
  | cons n ns =>
    have hpreamble : preamble.filter opensSection = [] := by decide
    have hlast : [[]].filter opensSection = [] := by decide
    rw [textOf, Option.getD_some, headings, String.toList_ofList,
      Text.splitOn_ofLines (newline_notMem_preamble_sections h), List.filter_append,
      List.filter_append, filter_sections]
    simp [hpreamble, hlast]

end ReleaseCut.Changelog
