import ReleaseCut.FileTree.Path
import ReleaseCut.Proofs.Text.Split

/-!
# Paths into a directory

An entry of a directory has a name that is not empty, holds no slash and is not one of the two dot
names. The path of such a name in a directory has the steps of the directory and the name as its
last step (`names_join`), and ends in the name (`fileName?_join`). The other way round, the parent
of a path has the names in front of the last one, but for dots that lead nowhere (`exists_parent?`).
-/

namespace ReleaseCut

/-- Whether a text may be the name of an entry of a directory. -/
structure IsEntryName (name : String) : Prop where
  /-- There is a character. -/
  ne_empty : name ≠ ""
  /-- A slash would separate two names. -/
  slash : '/' ∉ name.toList
  /-- A dot is the directory itself. -/
  ne_dot : name ≠ "."
  /-- Two dots are the directory above. -/
  ne_dots : name ≠ ".."

instance (name : String) : Decidable (IsEntryName name) :=
  decidable_of_iff (name ≠ "" ∧ '/' ∉ name.toList ∧ name ≠ "." ∧ name ≠ "..")
    ⟨fun ⟨h₁, h₂, h₃, h₄⟩ => ⟨h₁, h₂, h₃, h₄⟩, fun ⟨h₁, h₂, h₃, h₄⟩ => ⟨h₁, h₂, h₃, h₄⟩⟩

namespace Path

variable {dir : Path} {name : String}

/-- A name starts with no slash. -/
theorem isAbsolute_of_isEntryName (h : IsEntryName name) : isAbsolute ⟨name⟩ = false := by
  have hslash := h.slash
  rw [isAbsolute, beq_eq_false_iff_ne]
  intro hhead
  exact hslash (List.mem_of_head? hhead)

/-- The path of a name starts with that of the directory, up to the slash behind it. -/
private theorem toList_join (dir : Path) (h : IsEntryName name) :
    ((dir.join ⟨name⟩).text.toList = name.toList ∧ dir.text = "") ∨
    (∃ before, (dir.join ⟨name⟩).text.toList = before ++ '/' :: name.toList ∧
      (dir.text.toList = before ++ ['/'] ∨ dir.text.toList = before ∧ before ≠ [])) := by
  rw [join, isAbsolute_of_isEntryName h]
  by_cases hempty : dir.text = ""
  · exact .inl ⟨by simp [hempty], hempty⟩
  · by_cases hslash : dir.endsInSlash = true
    · have hlast : dir.text.toList.getLast? = some '/' := by simpa [endsInSlash] using hslash
      obtain ⟨before, hbefore⟩ := List.getLast?_eq_some_iff.1 hlast
      exact .inr ⟨before, by simp [hslash, hbefore], .inl hbefore⟩
    · exact .inr ⟨dir.text.toList, by simp [hempty, hslash], .inr ⟨rfl, by simpa using hempty⟩⟩

/-- The names of a path from its characters. -/
private theorem names_eq (p : Path) :
    p.names = ((Text.splitOn '/' p.text.toList).filter (!·.isEmpty)).map String.ofList := rfl

/-- No name of a path holds a slash. -/
theorem slash_notMem_of_mem_names {p : Path} (h : name ∈ p.names) : '/' ∉ name.toList := by
  rw [names_eq, List.mem_map] at h
  obtain ⟨part, hpart, rfl⟩ := h
  rw [String.toList_ofList]
  exact Text.notMem_of_mem_splitOn (List.mem_filter.1 hpart).1

/-- No name of a path is empty. -/
theorem ne_empty_of_mem_names {p : Path} (h : name ∈ p.names) : name ≠ "" := by
  rw [names_eq, List.mem_map] at h
  obtain ⟨part, hpart, rfl⟩ := h
  rintro hempty
  have hnil : part = [] := by simpa using congrArg String.toList hempty
  simp [hnil] at hpart

/-- A path with names is not empty. -/
theorem text_ne_of_names_ne_nil {p : Path} (h : p.names ≠ []) : p.text ≠ "" := by
  intro htext
  refine h ?_
  rw [names_eq, htext]
  rfl

/-- The name is the last one of its path. -/
theorem names_join (h : IsEntryName name) : (dir.join ⟨name⟩).names = dir.names ++ [name] := by
  have hname : (Text.splitOn '/' name.toList).filter (!·.isEmpty) = [name.toList] := by
    have hne : name.toList ≠ [] := by simpa using h.ne_empty
    rw [Text.splitOn_of_notMem h.slash]
    simpa using hne
  rcases toList_join dir h with ⟨hjoin, hdir⟩ | ⟨before, hjoin, hdir | ⟨hdir, -⟩⟩
  · rw [names_eq, names_eq, hjoin, hdir, hname]
    simp [Text.splitOn]
  · rw [names_eq, names_eq, hjoin, hdir, Text.splitOn_append_mark, Text.splitOn_append_mark,
      List.filter_append, hname]
    simp [Text.splitOn]
  · rw [names_eq, names_eq, hjoin, hdir, Text.splitOn_append_mark, List.filter_append, hname]
    simp

/-- A path of a name does not end in a slash. -/
theorem endsInSlash_join (h : IsEntryName name) : (dir.join ⟨name⟩).endsInSlash = false := by
  have hne : name.toList ≠ [] := by simpa using h.ne_empty
  -- the path ends as the name does
  have hlast : (dir.join ⟨name⟩).text.toList.getLast? = name.toList.getLast? := by
    rcases toList_join dir h with ⟨hjoin, -⟩ | ⟨before, hjoin, -⟩
    · rw [hjoin]
    · rw [hjoin, List.getLast?_append, List.getLast?_cons]
      simp [List.getLast?_eq_some_getLast hne]
  rw [endsInSlash, hlast, beq_eq_false_iff_ne]
  intro hslash
  exact h.slash (List.mem_of_getLast? hslash)

theorem steps_join (h : IsEntryName name) : (dir.join ⟨name⟩).steps = dir.names ++ [name] := by
  rw [steps, endsInSlash_join h, if_neg Bool.false_ne_true, names_join h]

/-- The path of a name starts where that of the directory does. -/
theorem isAbsolute_join (h : IsEntryName name) :
    (dir.join ⟨name⟩).isAbsolute = dir.isAbsolute := by
  rcases toList_join dir h with ⟨hjoin, hdir⟩ | ⟨before, hjoin, hdir | ⟨hdir, hne⟩⟩
  · have hname := isAbsolute_of_isEntryName h
    rw [isAbsolute] at hname ⊢
    rw [hjoin, hname, isAbsolute, hdir]
    rfl
  · rw [isAbsolute, isAbsolute, hjoin, hdir]
    cases before <;> rfl
  · rw [isAbsolute, isAbsolute, hjoin, hdir]
    cases before with
    | nil => exact absurd rfl hne
    | cons => rfl

theorem text_join_ne (h : IsEntryName name) : (dir.join ⟨name⟩).text ≠ "" := by
  intro hempty
  have hnames : (dir.join ⟨name⟩).names = dir.names ++ [name] := names_join h
  simp [names, hempty, Text.splitOn] at hnames

/-- A name is a step that counts. -/
private theorem dropEmptySteps_append (h : IsEntryName name) (rest : List Char) :
    dropEmptySteps (name.toList.reverse ++ rest) = name.toList.reverse ++ rest := by
  have hslash : '/' ∉ name.toList.reverse := by simpa using h.slash
  have hne : name.toList.reverse ≠ [] := by simpa using h.ne_empty
  have hdot : name.toList.reverse ≠ ['.'] := fun hdot => h.ne_dot <| by
    rw [← String.toList_inj, ← List.reverse_reverse name.toList, hdot]
    rfl
  obtain ⟨c, cs, hc⟩ := List.exists_cons_of_ne_nil hne
  rw [hc] at hslash hdot ⊢
  rw [List.cons_append, dropEmptySteps.eq_def]
  split
  · next heq => simp_all
  · next heq => simp_all
  · next s heq =>
    -- a dot before a slash would be the whole name
    rw [List.cons.injEq] at heq
    cases cs with
    | nil => exact absurd (by rw [heq.1]) hdot
    | cons d cs => simp_all
  · rfl

/-- The last step of a path that ends in a name. -/
private theorem lastStep_eq (h : IsEntryName name) {p : Path} {before : List Char}
    (htext : p.text.toList = before.reverse ++ name.toList)
    (hbefore : before = [] ∨ ∃ rest, before = '/' :: rest) :
    p.lastStep = (name.toList.reverse, before) := by
  have hslash : ∀ c ∈ name.toList.reverse, (c != '/') = true := by
    intro c hc
    rw [bne_iff_ne]
    rintro rfl
    exact h.slash (List.mem_reverse.1 hc)
  -- read from the end, the name goes up to the slash in front of it
  have htake : (name.toList.reverse ++ before).takeWhile (· != '/') = name.toList.reverse := by
    rw [List.takeWhile_append_of_pos hslash]
    rcases hbefore with rfl | ⟨rest, rfl⟩ <;> simp
  have hdrop : (name.toList.reverse ++ before).dropWhile (· != '/') = before := by
    rw [List.dropWhile_append_of_pos hslash]
    rcases hbefore with rfl | ⟨rest, rfl⟩ <;> simp
  have hreverse : p.text.toList.reverse = name.toList.reverse ++ before := by
    rw [htext, List.reverse_append, List.reverse_reverse]
  rw [lastStep, hreverse, dropEmptySteps_append h, htake, hdrop]

/-- The path of a name ends in the name. -/
theorem fileName?_join (h : IsEntryName name) : (dir.join ⟨name⟩).fileName? = some name := by
  obtain ⟨before, htext, hbefore⟩ : ∃ before,
      (dir.join ⟨name⟩).text.toList = before.reverse ++ name.toList ∧
        (before = [] ∨ ∃ rest, before = '/' :: rest) := by
    rcases toList_join dir h with ⟨hjoin, -⟩ | ⟨before, hjoin, -⟩
    · exact ⟨[], by simp [hjoin], .inl rfl⟩
    · exact ⟨'/' :: before.reverse, by simp [hjoin], .inr ⟨_, rfl⟩⟩
  rw [fileName?, lastStep_eq h htext hbefore, List.reverse_reverse]
  split
  · next heq => exact absurd (by simpa using heq) h.ne_empty
  · next heq => exact absurd (String.toList_inj.1 heq) h.ne_dot
  · next heq => exact absurd (String.toList_inj.1 heq) h.ne_dots
  · rw [String.ofList_toList]

/-! ### Parents -/

/-- The names of a path whose characters are given in reverse. -/
private def namesOf (s : List Char) : List String :=
  ((Text.splitOn '/' s.reverse).filter (!·.isEmpty)).map String.ofList

private theorem namesOf_append_slash (a b : List Char) :
    namesOf (a ++ '/' :: b) = namesOf b ++ namesOf a := by
  simp [namesOf, Text.splitOn_append_mark]

private theorem namesOf_slash (s : List Char) : namesOf ('/' :: s) = namesOf s :=
  (namesOf_append_slash [] s).trans (List.append_nil _)

private theorem namesOf_of_notMem {s : List Char} (hne : s ≠ []) (hslash : '/' ∉ s) :
    namesOf s = [String.ofList s.reverse] := by
  rw [namesOf, Text.splitOn_of_notMem (by simpa using hslash)]
  simp [hne]

/-- Steps that do not count are single dots. -/
private theorem namesOf_dropEmptySteps (s : List Char) :
    ∃ n, namesOf s = namesOf (dropEmptySteps s) ++ List.replicate n "." := by
  induction s using dropEmptySteps.induct with
  | case1 => exact ⟨0, by simp [dropEmptySteps]⟩
  | case2 s hne ih =>
    obtain ⟨n, hn⟩ := ih
    exact ⟨n, by rw [dropEmptySteps.eq_2 s hne, namesOf_slash, hn]⟩
  | case3 s ih =>
    obtain ⟨n, hn⟩ := ih
    have hdot : namesOf ('.' :: '/' :: s) = namesOf ('/' :: s) ++ ["."] := by
      rw [namesOf_slash]
      exact namesOf_append_slash ['.'] s
    refine ⟨n + 1, ?_⟩
    rw [dropEmptySteps, hdot, hn, List.append_assoc, List.replicate_succ']
  | case4 s hone hslash hdot => exact ⟨0, by simp [dropEmptySteps.eq_4 s hone hslash hdot]⟩

/-- Without these steps a text still starts as before. -/
private theorem getLast?_dropEmptySteps (s : List Char) :
    (dropEmptySteps s).getLast? = s.getLast? := by
  induction s using dropEmptySteps.induct with
  | case1 => rfl
  | case2 s hne ih =>
    obtain ⟨c, cs, rfl⟩ := List.exists_cons_of_ne_nil hne
    rw [dropEmptySteps.eq_2 _ hne, ih, List.getLast?_cons_cons]
  | case3 s ih => rw [dropEmptySteps, ih, List.getLast?_cons_cons]
  | case4 s hone hslash hdot => rw [dropEmptySteps.eq_4 s hone hslash hdot]

section Parent

variable {p : Path} {init : List String} (hnames : p.names = init ++ [name])
  (hname : IsEntryName name) (hslash : p.endsInSlash = false)

include hnames hslash

/-- What stands in front of the last name ends in a slash, if there is anything. -/
private theorem exists_before : ∃ before, p.text.toList = before.reverse ++ name.toList ∧
    (before = [] ∨ ∃ rest, before = '/' :: rest) ∧ init = namesOf before := by
  have hnamesOf : namesOf p.text.toList.reverse = init ++ [name] := by
    rw [namesOf, List.reverse_reverse, ← names_eq, hnames]
  -- in reverse, the last name comes first, up to a slash or the end
  obtain ⟨last, before, htext, hbefore, hlast⟩ : ∃ last before,
      p.text.toList.reverse = last ++ before ∧ (before = [] ∨ ∃ rest, before = '/' :: rest) ∧
        '/' ∉ last := by
    by_cases hmem : '/' ∈ p.text.toList.reverse
    · obtain ⟨last, rest, htext, hlast⟩ := List.eq_append_cons_of_mem hmem
      exact ⟨last, _, htext, .inr ⟨rest, rfl⟩, hlast⟩
    · exact ⟨_, [], (List.append_nil _).symm, .inl rfl, hmem⟩
  have hne : last ≠ [] := by
    rintro rfl
    rw [List.nil_append] at htext
    rcases hbefore with rfl | ⟨rest, rfl⟩
    · rw [htext] at hnamesOf
      simp [namesOf, Text.splitOn] at hnamesOf
    · rw [endsInSlash, ← List.head?_reverse, htext] at hslash
      simp at hslash
  have hsplit : namesOf (last ++ before) = namesOf before ++ [String.ofList last.reverse] := by
    rcases hbefore with rfl | ⟨rest, rfl⟩
    · rw [List.append_nil, namesOf_of_notMem hne hlast]
      rfl
    · rw [namesOf_append_slash, namesOf_slash, namesOf_of_notMem hne hlast]
  rw [htext, hsplit] at hnamesOf
  obtain ⟨rfl, hname⟩ := List.append_inj' hnamesOf rfl
  obtain rfl : String.ofList last.reverse = name := by simpa using hname
  refine ⟨before, ?_, hbefore, rfl⟩
  rw [String.toList_ofList, ← List.reverse_append, ← htext, List.reverse_reverse]

include hname

/-- The parent of a path has the other names, but for dots that do not count. It is empty only if
there are none. -/
theorem exists_parent? : ∃ dir n, p.parent? = some dir ∧
    init = dir.names ++ List.replicate n "." ∧
    (dir.text = "" → init = [] ∧ p.isAbsolute = false) ∧
    (dir.text ≠ "" → dir.isAbsolute = p.isAbsolute) := by
  obtain ⟨before, htext, hbefore, rfl⟩ := exists_before hnames hslash
  have hne : name.toList.reverse ≠ [] := by simpa using hname.ne_empty
  have hlast := lastStep_eq hname htext hbefore
  obtain ⟨n, hn⟩ := namesOf_dropEmptySteps before
  have hgetLast := getLast?_dropEmptySteps before
  refine ⟨⟨String.ofList (dropEmptySteps before).reverse⟩, n, ?_, ?_, ?_, ?_⟩
  · rw [parent?, hlast]
    split
    · next heq => exact absurd (Prod.ext_iff.1 heq).1 hne
    · next heq =>
      cases heq
      rfl
  · rw [hn, names_eq, String.toList_ofList, namesOf]
  · intro hempty
    have hnil : dropEmptySteps before = [] := by simpa using hempty
    rw [hnil] at hgetLast
    obtain rfl : before = [] := List.getLast?_eq_none_iff.1 hgetLast.symm
    refine ⟨rfl, ?_⟩
    have habsolute := isAbsolute_of_isEntryName hname
    rw [isAbsolute] at habsolute ⊢
    rw [htext]
    exact habsolute
  · intro htext'
    have hbefore' : before.reverse ≠ [] := by
      rintro hnil
      rw [List.reverse_eq_nil_iff.1 hnil] at htext'
      exact htext' rfl
    -- both texts start with what the part in front of the name starts with
    obtain ⟨c, cs, hc⟩ := List.exists_cons_of_ne_nil hbefore'
    rw [isAbsolute, isAbsolute, String.toList_ofList, List.head?_reverse, hgetLast, htext,
      ← List.head?_reverse, hc]
    rfl

end Parent

end Path

end ReleaseCut
