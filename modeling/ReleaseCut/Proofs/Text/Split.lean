import ReleaseCut.Text.Split

/-!
# Splitting at a character

The parts of a text hold no occurrence of the character (`notMem_of_mem_splitOn`), and parts without
it are what their concatenation splits into (`splitOn_intercalate`). Cutting at the first occurrence
gives back what was put together around it (`cutAt_append_cons`).

A text of lines is split at its newlines into the lines and what follows the last of them
(`splitOn_ofLines`).
-/

namespace ReleaseCut.Text

variable {mark : Char} {s a b : List Char}

theorem splitOn_eq (mark : Char) (s : List Char) : splitOn mark s = s.splitOn mark := by
  induction s with
  | nil => simp [splitOn]
  | cons c s ih =>
    rw [splitOn, List.splitOn_cons_eq_if_modifyHead, ih]
    split
    · next h => simp [h]
    · next h =>
      obtain ⟨p, ps, hs⟩ := List.exists_cons_of_ne_nil (List.splitOn_ne_nil mark s)
      simp [hs, h]

/-- No part holds the character. -/
theorem notMem_of_mem_splitOn {p : List Char} (hp : p ∈ splitOn mark s) : mark ∉ p := by
  induction s generalizing p with
  | nil => simp_all [splitOn]
  | cons c s ih =>
    rw [splitOn] at hp
    split at hp
    · rcases List.mem_cons.1 hp with rfl | hp
      · exact List.not_mem_nil
      · exact ih hp
    · next hc =>
      split at hp
      · next hs => exact absurd hs (splitOn_ne_nil mark s)
      · next q qs hs =>
        rw [hs] at ih
        rcases List.mem_cons.1 hp with rfl | hp
        · simpa [Ne.symm hc] using ih (List.mem_cons_self ..)
        · exact ih (List.mem_cons_of_mem _ hp)

theorem splitOn_cons_of_ne {c : Char} (h : c ≠ mark) :
    splitOn mark (c :: s) = (splitOn mark s).modifyHead (c :: ·) := by
  rw [splitOn_eq, splitOn_eq, List.splitOn_cons_eq_if_modifyHead]
  simp [h]

/-- Every other character is found in a part. -/
theorem exists_mem_splitOn {c : Char} (hc : c ∈ s) (hne : c ≠ mark) :
    ∃ p ∈ splitOn mark s, c ∈ p := by
  induction s with
  | nil => cases hc
  | cons d s ih =>
    obtain ⟨q, qs, hs⟩ := List.exists_cons_of_ne_nil (splitOn_ne_nil mark s)
    rcases List.mem_cons.1 hc with rfl | hc
    · exact ⟨c :: q, by simp [splitOn_cons_of_ne hne, hs], List.mem_cons_self ..⟩
    · obtain ⟨p, hp, hcp⟩ := ih hc
      by_cases hd : d = mark
      · exact ⟨p, by simp [splitOn, hd, hp], hcp⟩
      · rw [hs] at hp
        rcases List.mem_cons.1 hp with rfl | hp
        · exact ⟨d :: p, by simp [splitOn_cons_of_ne hd, hs], List.mem_cons_of_mem _ hcp⟩
        · exact ⟨p, by simp [splitOn_cons_of_ne hd, hs, hp], hcp⟩

/-- A text without the character is its only part. -/
theorem splitOn_of_notMem (h : mark ∉ s) : splitOn mark s = [s] := by
  have hparts : ([mark].intercalate [s]).splitOn mark = [s] :=
    List.splitOn_intercalate mark (by simpa using h) (by simp)
  rw [splitOn_eq]
  simpa using hparts

/-- The parts are put together again and split again. -/
theorem splitOn_intercalate {parts : List (List Char)} (hne : parts ≠ [])
    (h : ∀ p ∈ parts, mark ∉ p) : splitOn mark ([mark].intercalate parts) = parts := by
  rw [splitOn_eq, List.splitOn_intercalate mark h hne]

/-- A text is split at each occurrence of the character. -/
theorem splitOn_append_mark (a b : List Char) :
    splitOn mark (a ++ mark :: b) = splitOn mark a ++ splitOn mark b := by
  induction a with
  | nil => simp [splitOn]
  | cons c a ih =>
    by_cases hc : c = mark
    · simp [splitOn, hc, ih]
    · obtain ⟨p, ps, ha⟩ := List.exists_cons_of_ne_nil (splitOn_ne_nil mark a)
      rw [List.cons_append, splitOn_cons_of_ne hc, splitOn_cons_of_ne hc, ih, ha]
      simp

/-- A text goes on after its first part, if at all, with the character. -/
theorem eq_head_splitOn {p : List Char} {ps : List (List Char)} (h : splitOn mark s = p :: ps) :
    s = p ∨ ∃ rest, s = p ++ mark :: rest := by
  have hs := intercalate_splitOn mark s
  rw [h] at hs
  cases ps with
  | nil => exact .inl (by simpa using hs.symm)
  | cons q qs =>
    rw [List.intercalate_cons_of_ne_nil (List.cons_ne_nil q qs)] at hs
    exact .inr ⟨_, by simpa using hs.symm⟩

theorem splitOn_append_cons (h : mark ∉ a) :
    splitOn mark (a ++ mark :: b) = a :: splitOn mark b := by
  rw [splitOn_append_mark, splitOn_of_notMem h, List.singleton_append]

/-- A text without the character goes in front of the first part. -/
theorem splitOn_append_of_notMem (h : mark ∉ a) :
    splitOn mark (a ++ b) = (splitOn mark b).modifyHead (a ++ ·) := by
  induction a with
  | nil =>
    obtain ⟨p, ps, hb⟩ := List.exists_cons_of_ne_nil (splitOn_ne_nil mark b)
    simp [hb]
  | cons c a ih =>
    simp only [List.mem_cons, not_or] at h
    rw [List.cons_append, splitOn_cons_of_ne (Ne.symm h.1), ih h.2, List.modifyHead_modifyHead]
    rfl

/-- Whether there is an empty part does not depend on a text inside without the character, as long
as it is not empty. The same holds of the parts after the first. -/
theorem nil_mem_splitOn_append_iff {u v : List Char} (hu : mark ∉ u) (hv : mark ∉ v)
    (hune : u ≠ []) (hvne : v ≠ []) :
    ([] ∈ splitOn mark (a ++ (u ++ b)) ↔ [] ∈ splitOn mark (a ++ (v ++ b))) ∧
      ([] ∈ (splitOn mark (a ++ (u ++ b))).tail ↔ [] ∈ (splitOn mark (a ++ (v ++ b))).tail) := by
  induction a with
  | nil =>
    obtain ⟨p, ps, hb⟩ := List.exists_cons_of_ne_nil (splitOn_ne_nil mark b)
    simp [splitOn_append_of_notMem hu, splitOn_append_of_notMem hv, hb, hune, hvne]
  | cons c a ih =>
    by_cases hc : c = mark
    · simp [splitOn, hc, ih.1]
    · obtain ⟨p, ps, hp⟩ := List.exists_cons_of_ne_nil (splitOn_ne_nil mark (a ++ (u ++ b)))
      obtain ⟨q, qs, hq⟩ := List.exists_cons_of_ne_nil (splitOn_ne_nil mark (a ++ (v ++ b)))
      have htail := ih.2
      rw [hp, hq] at htail
      simpa [splitOn_cons_of_ne hc, hp, hq] using htail

/-- The last part ends as the text does. -/
theorem exists_splitOn_eq_concat {c : Char} (hc : c ≠ mark) (s : List Char) :
    ∃ parts p, splitOn mark (s ++ [c]) = parts ++ [p ++ [c]] := by
  induction s with
  | nil => exact ⟨[], [], by simp [splitOn, hc]⟩
  | cons d s ih =>
    obtain ⟨parts, p, hs⟩ := ih
    by_cases hd : d = mark
    · exact ⟨[] :: parts, p, by simp [splitOn, hd, hs]⟩
    · rw [List.cons_append, splitOn_cons_of_ne hd, hs]
      cases parts with
      | nil => exact ⟨[], d :: p, rfl⟩
      | cons q qs => exact ⟨(d :: q) :: qs, p, rfl⟩

theorem getLast?_intercalate_concat (mark c : Char) (parts : List (List Char)) (p : List Char) :
    ([mark].intercalate (parts ++ [p ++ [c]])).getLast? = some c := by
  induction parts with
  | nil => simp
  | cons q qs ih =>
    rw [List.cons_append, List.intercalate_cons_of_ne_nil (by simp), List.getLast?_append, ih,
      Option.some_or]

/-- A text is cut around the first occurrence of the character. -/
theorem cutAt_append_cons (h : mark ∉ a) : cutAt mark (a ++ mark :: b) = (a, some b) := by
  induction a with
  | nil => simp [cutAt]
  | cons c a ih =>
    simp only [List.mem_cons, not_or] at h
    rw [List.cons_append, cutAt, if_neg (Ne.symm h.1), ih h.2]

theorem cutAt_of_notMem (h : mark ∉ s) : cutAt mark s = (s, none) := by
  induction s with
  | nil => rfl
  | cons c s ih =>
    simp only [List.mem_cons, not_or] at h
    rw [cutAt, if_neg (Ne.symm h.1), ih h.2]

/-- What stands before and after a character makes up the text. -/
theorem eq_of_cutAt (s : List Char) :
    s = (cutAt mark s).1 ++ ((cutAt mark s).2.map (mark :: ·)).getD [] := by
  induction s with
  | nil => rfl
  | cons c s ih =>
    rw [cutAt]
    split
    · next h => simp [h]
    · simpa using ih

/-! ### Lines -/

/-- The text of the given lines, each with a newline at its end. -/
def ofLines (lines : List (List Char)) : List Char :=
  lines.flatMap (· ++ ['\n'])

@[simp] theorem ofLines_nil : ofLines [] = [] := rfl

@[simp] theorem ofLines_cons (line : List Char) (lines : List (List Char)) :
    ofLines (line :: lines) = line ++ '\n' :: ofLines lines := by
  simp [ofLines]

@[simp] theorem ofLines_append (lines lines' : List (List Char)) :
    ofLines (lines ++ lines') = ofLines lines ++ ofLines lines' :=
  List.flatMap_append

/-- Nothing follows the last line. -/
theorem splitOn_ofLines {lines : List (List Char)} (h : ∀ line ∈ lines, '\n' ∉ line) :
    splitOn '\n' (ofLines lines) = lines ++ [[]] := by
  induction lines with
  | nil => rfl
  | cons line lines ih =>
    rw [List.forall_mem_cons] at h
    rw [ofLines_cons, splitOn_append_cons h.1, ih h.2, List.cons_append]

end ReleaseCut.Text
