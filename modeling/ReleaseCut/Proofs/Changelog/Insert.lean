import Mathlib.Order.Bounds.Basic
import ReleaseCut.Proofs.Notes.Lines

/-!
# Where a section is inserted

A changelog is cut before its first line that opens a section. `CutAtRelease s pre rel` says so of a
text and its two parts, and `splitReleases` finds them (`splitReleases_eq_iff`).

`padding` is what the preamble needs to be empty or to end in a blank line (`EndsBlank`), and no
more than that (`exists_padding`). Once it is there, no further section adds to it
(`IsPreamble.toList_insert`).
-/

namespace ReleaseCut.Changelog

variable {s pre rel line : List Char} {atLineStart : Bool} {old release : String} {k : Nat}

/-- The end of a line does not matter to how it opens. -/
theorem opensSection_append (line s : List Char) :
    opensSection (line ++ '\n' :: s) = opensSection line := by
  rcases line with _ | ⟨a, _ | ⟨b, _ | ⟨c, line⟩⟩⟩ <;>
    simp [opensSection, sectionMark, List.isPrefixOf]

/-- A text opens as its first line does. -/
theorem sectionMark_prefix_ofLines (h : opensSection line = true) (lines : List (List Char)) :
    sectionMark <+: Text.ofLines (line :: lines) := by
  have hopens := (opensSection_append line (Text.ofLines lines)).trans h
  rw [Text.ofLines_cons]
  exact List.isPrefixOf_iff_prefix.1 hopens

/-! ### Cutting -/

/-- The lines of a text, without the first one unless the text starts a line. -/
private def wholeLines (atLineStart : Bool) (s : List Char) : List (List Char) :=
  if atLineStart then Text.splitOn '\n' s else (Text.splitOn '\n' s).tail

/-- How a text is cut that may go on inside a line. -/
private structure CutFrom (atLineStart : Bool) (s pre rel : List Char) : Prop where
  /-- The parts make up the text. -/
  text : s = pre ++ rel
  /-- No line of the first part opens a section. -/
  above : ∀ line ∈ wholeLines atLineStart pre, opensSection line = false
  /-- The second part starts with such a line, or there is none. -/
  below : rel = [] ∨ sectionMark <+: rel ∧ (pre = [] ∧ atLineStart = true ∨ ['\n'] <:+ pre)

/-- A text is cut before its first line that opens a section, or at its end. -/
structure CutAtRelease (s pre rel : List Char) : Prop where
  /-- The parts make up the text. -/
  text : s = pre ++ rel
  /-- No line of the preamble opens a section. -/
  above : ∀ line ∈ Text.splitOn '\n' pre, opensSection line = false
  /-- The releases start with such a line, or there are none. -/
  below : rel = [] ∨ sectionMark <+: rel ∧ (pre = [] ∨ ['\n'] <:+ pre)

private theorem cutFrom_true_iff : CutFrom true s pre rel ↔ CutAtRelease s pre rel := by
  constructor
  · rintro ⟨htext, habove, hbelow⟩
    exact ⟨htext, habove, by simpa using hbelow⟩
  · rintro ⟨htext, habove, hbelow⟩
    exact ⟨htext, habove, by simpa using hbelow⟩

/-- How a text opens is how its first line does, if a text that is put after it starts a line. -/
private theorem opensSection_head {lines : List (List Char)}
    (hsplit : Text.splitOn '\n' pre = line :: lines) (hend : rel = [] ∨ ['\n'] <:+ pre) :
    opensSection line = opensSection (pre ++ rel) := by
  have hline : '\n' ∉ line := Text.notMem_of_mem_splitOn (hsplit ▸ List.mem_cons_self ..)
  rcases Text.eq_head_splitOn hsplit with rfl | ⟨rest, rfl⟩
  · rcases hend with rfl | hend
    · rw [List.append_nil]
    · exact absurd (hend.subset (List.mem_singleton_self _)) hline
  · rw [List.append_assoc, List.cons_append, opensSection_append]

/-- A character in front starts a line of its own or goes on with the first one. -/
private theorem forall_wholeLines_cons_iff {c : Char} (hend : rel = [] ∨ ['\n'] <:+ c :: pre) :
    (∀ line ∈ wholeLines atLineStart (c :: pre), opensSection line = false) ↔
      (atLineStart = true → opensSection (c :: pre ++ rel) = false) ∧
        ∀ line ∈ wholeLines (c == '\n') pre, opensSection line = false := by
  by_cases hc : c = '\n'
  · subst hc
    have hopens : opensSection ('\n' :: (pre ++ rel)) = false := rfl
    have hempty : opensSection [] = false := rfl
    cases atLineStart <;> simp [wholeLines, Text.splitOn, hopens, hempty]
  · obtain ⟨line, lines, hsplit⟩ := List.exists_cons_of_ne_nil (Text.splitOn_ne_nil '\n' pre)
    have hsplit' : Text.splitOn '\n' (c :: pre) = (c :: line) :: lines := by
      rw [Text.splitOn_cons_of_ne hc, hsplit, List.modifyHead_cons]
    have hc : (c == '\n') = false := beq_eq_false_iff_ne.2 hc
    rw [← opensSection_head hsplit' hend]
    cases atLineStart <;> simp [wholeLines, hsplit, hsplit', hc]

/-- A character in front of the preamble starts a line of its own, or goes on with the first one. -/
private theorem cutFrom_cons_iff {c : Char} : CutFrom atLineStart (c :: s) (c :: pre) rel ↔
    (atLineStart = true → opensSection (c :: s) = false) ∧ CutFrom (c == '\n') s pre rel := by
  have hend : ['\n'] <:+ c :: pre ↔ pre = [] ∧ (c == '\n') = true ∨ ['\n'] <:+ pre := by
    rw [List.suffix_cons_iff]
    refine or_congr_left ⟨?_, ?_⟩
    · rintro ⟨⟩
      exact ⟨rfl, rfl⟩
    · rintro ⟨rfl, hc⟩
      rw [eq_of_beq hc]
  constructor
  · rintro ⟨htext, habove, hbelow⟩
    have hbelow : rel = [] ∨ sectionMark <+: rel ∧ ['\n'] <:+ c :: pre := by simpa using hbelow
    obtain rfl : s = pre ++ rel := (List.cons.inj htext).2
    rw [forall_wholeLines_cons_iff (hbelow.imp_right And.right)] at habove
    rw [hend] at hbelow
    exact ⟨habove.1, rfl, habove.2, hbelow⟩
  · rintro ⟨hopens, rfl, habove, hbelow⟩
    rw [← hend] at hbelow
    refine ⟨rfl, ?_, by simpa using hbelow⟩
    rw [forall_wholeLines_cons_iff (hbelow.imp_right And.right)]
    exact ⟨hopens, habove⟩

private theorem splitFrom_eq_iff :
    splitFrom atLineStart s = (pre, rel) ↔ CutFrom atLineStart s pre rel := by
  induction s generalizing atLineStart pre with
  | nil =>
    constructor
    · rintro ⟨⟩
      refine ⟨rfl, ?_, .inl rfl⟩
      cases atLineStart <;> simp [wholeLines, Text.splitOn, opensSection, sectionMark]
    · rintro ⟨htext, -, -⟩
      obtain ⟨rfl, rfl⟩ := List.append_eq_nil_iff.1 htext.symm
      rfl
  | cons c s ih =>
    rw [splitFrom]
    split
    · next hopens =>
      obtain ⟨hstart, hmark⟩ := Bool.and_eq_true_iff.1 hopens
      constructor
      · rintro ⟨⟩
        refine ⟨rfl, ?_, .inr ⟨List.isPrefixOf_iff_prefix.1 hmark, .inl ⟨rfl, hstart⟩⟩⟩
        simp [wholeLines, Text.splitOn, opensSection, sectionMark, hstart]
      · intro h
        cases pre with
        | nil => rw [h.text, List.nil_append]
        | cons d pre =>
          obtain rfl : c = d := (List.cons.inj h.text).1
          have hnone := (cutFrom_cons_iff.1 h).1 hstart
          rw [opensSection, hmark] at hnone
          cases hnone
    · next hopens =>
      have hnone : atLineStart = true → opensSection (c :: s) = false := by
        rintro rfl
        rwa [Bool.true_and, Bool.not_eq_true] at hopens
      constructor
      · intro h
        cases h
        exact cutFrom_cons_iff.2 ⟨hnone, ih.1 rfl⟩
      · intro h
        cases pre with
        | nil =>
          obtain rfl : c :: s = rel := h.text
          obtain ⟨hmark, ⟨-, hstart⟩ | hend⟩ := h.below.resolve_left (List.cons_ne_nil c s)
          · have hmark := List.isPrefixOf_iff_prefix.2 hmark
            rw [← opensSection, hnone hstart] at hmark
            cases hmark
          · cases List.suffix_nil.1 hend
        | cons d pre =>
          obtain rfl : c = d := (List.cons.inj h.text).1
          rw [ih.2 (cutFrom_cons_iff.1 h).2]

/-- **Where a section goes.** The releases of a changelog start at its first line that opens a
section. -/
theorem splitReleases_eq_iff : splitReleases s = (pre, rel) ↔ CutAtRelease s pre rel :=
  splitFrom_eq_iff.trans cutFrom_true_iff

/-! ### Blank lines -/

/-- A text is empty or ends in a blank line. -/
def EndsBlank (s : List Char) : Prop :=
  s = [] ∨ ['\n', '\n'] <:+ s

private theorem endsBlank_iff :
    EndsBlank pre ↔ (pre.isEmpty || ['\n', '\n'].isSuffixOf pre) = true := by
  simp [EndsBlank]

theorem padding_of_endsBlank (h : EndsBlank pre) : padding pre = [] :=
  if_pos (endsBlank_iff.1 h)

/-- The padding is as many newlines as are missing. -/
theorem exists_padding (pre : List Char) : ∃ k, padding pre = List.replicate k '\n' ∧
    IsLeast {k | EndsBlank (pre ++ List.replicate k '\n')} k := by
  by_cases hblank : EndsBlank pre
  · refine ⟨0, padding_of_endsBlank hblank, ?_, fun _ _ => Nat.zero_le _⟩
    rwa [Set.mem_ofPred_eq, List.replicate_zero, List.append_nil]
  · have hpadding : padding pre = if ['\n'].isSuffixOf pre then ['\n'] else ['\n', '\n'] :=
      if_neg (endsBlank_iff.not.1 hblank)
    have hzero : ∀ k, EndsBlank (pre ++ List.replicate k '\n') → k ≠ 0 := by
      rintro _ hk rfl
      exact hblank (by simpa using hk)
    by_cases hend : ['\n'] <:+ pre
    · refine ⟨1, by simp [hpadding, hend], ?_, fun k hk => ?_⟩
      · obtain ⟨line, rfl⟩ := hend
        exact .inr ⟨line, by simp⟩
      · exact Nat.one_le_iff_ne_zero.2 (hzero k hk)
    · refine ⟨2, by simp [hpadding, hend], .inr ⟨pre, rfl⟩, fun k hk => ?_⟩
      -- a single newline ends the last line and leaves none blank
      match k with
      | 0 => exact absurd rfl (hzero 0 hk)
      | 1 =>
        obtain hnil | ⟨line, hline⟩ := hk
        · simp at hnil
        · have hpre : line ++ ['\n'] = pre := List.append_cancel_right (by simpa using hline)
          exact absurd ⟨line, hpre⟩ hend
      | k + 2 => omega

/-! ### Inserting -/

/-- The text after a section was inserted. -/
theorem toList_insert (h : CutAtRelease old.toList pre rel) : (insert old release).toList =
    pre ++ padding pre ++ release.toList ++ if rel = [] then [] else '\n' :: rel := by
  rw [insert, splitReleases_eq_iff.2 h]
  cases rel <;> simp

/-- A preamble to which nothing is added any more: no line opens a section, and the end is blank. -/
structure IsPreamble (pre : List Char) : Prop where
  /-- No line opens a section. -/
  above : ∀ line ∈ Text.splitOn '\n' pre, opensSection line = false
  /-- It is empty or ends in a blank line. -/
  blank : EndsBlank pre

/-- What stands above the releases is a preamble as soon as it is padded. -/
theorem CutAtRelease.isPreamble (h : CutAtRelease s pre rel)
    (hblank : EndsBlank (pre ++ List.replicate k '\n')) :
    IsPreamble (pre ++ List.replicate k '\n') := by
  refine ⟨?_, hblank⟩
  clear hblank
  induction k with
  | zero => simpa using h.above
  | succ k ih =>
    -- one more newline adds an empty line
    rw [List.replicate_succ', ← List.append_assoc, Text.splitOn_append_mark, List.forall_mem_append]
    exact ⟨ih, by decide⟩

/-- A section that follows a preamble is the first one. -/
theorem IsPreamble.cutAtRelease (h : IsPreamble pre) (hmark : sectionMark <+: rel) :
    CutAtRelease (pre ++ rel) pre rel := by
  refine ⟨rfl, h.above, .inr ⟨hmark, h.blank.imp_right fun hend => ?_⟩⟩
  exact List.IsSuffix.trans ⟨['\n'], rfl⟩ hend

/-- **Preambles stay.** A further section comes between a preamble and the sections there. -/
theorem IsPreamble.toList_insert (h : IsPreamble pre) (hmark : sectionMark <+: rel)
    (htext : old.toList = pre ++ rel) :
    (insert old release).toList = pre ++ release.toList ++ '\n' :: rel := by
  have hne : rel ≠ [] := by
    rintro rfl
    cases List.prefix_nil.1 hmark
  rw [Changelog.toList_insert (htext ▸ h.cutAtRelease hmark), padding_of_endsBlank h.blank,
    if_neg hne, List.append_nil]

end ReleaseCut.Changelog
