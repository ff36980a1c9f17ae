import Mathlib.Data.List.DropRight
import ReleaseCut.Text.Blank

/-!
# Trimmed texts

A text without the blanks at its end is the one part of it that does not end with a blank and is
followed by blanks alone (`trimRight_eq_iff`). Trimmed at both ends it is what stands between blanks
(`exists_trim`), and any part that stands between blanks and has none at its ends is that one
(`trim_eq_of_not_isBlank`).
-/

namespace ReleaseCut.Text

variable {s r blanks : List Char}

theorem trimRight_eq_rdropWhile (s : List Char) : trimRight s = s.rdropWhile isBlank :=
  rfl

/-- A text that does not end with a blank is trimmed already. -/
theorem trimRight_eq_self_iff :
    trimRight s = s ↔ ∀ hne : s ≠ [], isBlank (s.getLast hne) = false := by
  simp [trimRight_eq_rdropWhile]

/-- Blanks at the end play no part. -/
theorem trimRight_append_blanks (h : ∀ b ∈ blanks, isBlank b = true) :
    trimRight (s ++ blanks) = trimRight s := by
  rw [trimRight, trimLeft, List.reverse_append, List.dropWhile_append_of_pos (by simpa using h)]
  rfl

theorem trimRight_eq_iff : trimRight s = r ↔
    (∃ blanks, s = r ++ blanks ∧ ∀ b ∈ blanks, isBlank b = true) ∧
      ∀ hne : r ≠ [], isBlank (r.getLast hne) = false := by
  constructor
  · rintro rfl
    refine ⟨⟨s.rtakeWhile isBlank, List.rdropWhile_append_rtakeWhile.symm,
      fun b => List.mem_rtakeWhile_imp⟩, fun hne => ?_⟩
    exact Bool.eq_false_iff.2 (List.rdropWhile_last_not isBlank s hne)
  · rintro ⟨⟨blanks, rfl, hblanks⟩, hlast⟩
    rw [trimRight_append_blanks hblanks, trimRight_eq_self_iff.2 hlast]

/-- A text falls into blanks, the trimmed text, and blanks again. -/
theorem exists_trim (s : List Char) : ∃ front back, s = front ++ trim s ++ back ∧
    (∀ b ∈ front, isBlank b = true) ∧ ∀ b ∈ back, isBlank b = true := by
  obtain ⟨⟨back, hback, hblanks⟩, -⟩ := trimRight_eq_iff.1 (rfl : trimRight (trimLeft s) = trim s)
  refine ⟨s.takeWhile isBlank, back, ?_, fun b => List.mem_takeWhile_imp, hblanks⟩
  rw [List.append_assoc, trim, ← hback, trimLeft, List.takeWhile_append_dropWhile]

/-- What stands between blanks and has none at its ends is the trimmed text. -/
theorem trim_eq_of_not_isBlank {front back : List Char} (hfront : ∀ b ∈ front, isBlank b = true)
    (hback : ∀ b ∈ back, isBlank b = true) (hne : r ≠ []) (hfirst : isBlank (r.head hne) = false)
    (hlast : isBlank (r.getLast hne) = false) : trim (front ++ r ++ back) = r := by
  have hstart : trimLeft (r ++ back) = r ++ back := by
    obtain ⟨c, r, rfl⟩ := List.exists_cons_of_ne_nil hne
    exact List.dropWhile_cons_of_neg (by simpa using hfirst)
  have hleft : trimLeft (front ++ r ++ back) = r ++ back := by
    rw [trimLeft, List.append_assoc, List.dropWhile_append_of_pos hfront]
    exact hstart
  rw [trim, hleft, trimRight_append_blanks hback, trimRight_eq_self_iff.2 fun _ => hlast]

end ReleaseCut.Text
