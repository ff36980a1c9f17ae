import Mathlib.Data.List.Infix
import ReleaseCut.Proofs.Text.Template

/-!
# Counting placeholders

`occurrences` counts the places at which a word starts in a text. A placeholder cannot overlap
another one, since it holds its first character nowhere else; so cutting from left to right finds
them all, and a text has one piece more than placeholders (`length_pieces`). The texts with exactly
one are those of templates (`Template.exists_ofText?_iff`).
-/

namespace ReleaseCut.Text

/-- The number of places of a text at which a word starts. -/
def occurrences (w s : List Char) : Nat :=
  s.tails.countP (w.isPrefixOf ·)

theorem occurrences_cons (w : List Char) (c : Char) (s : List Char) :
    occurrences w (c :: s) = occurrences w s + if w.isPrefixOf (c :: s) then 1 else 0 := by
  rw [occurrences, List.tails_cons, List.countP_cons, occurrences]

/-- A word starts nowhere where its first character does not occur. -/
theorem occurrences_append_of_notMem {c : Char} {w a : List Char} (h : c ∉ a) (b : List Char) :
    occurrences (c :: w) (a ++ b) = occurrences (c :: w) b := by
  induction a with
  | nil => rfl
  | cons d a ih =>
    rw [List.mem_cons, not_or] at h
    rw [List.cons_append, occurrences_cons, ih h.2, List.isPrefixOf_cons_cons]
    simp [h.1]

/-- A word occurs where it is put. -/
theorem occurrences_pos (w a b : List Char) : 0 < occurrences w (a ++ w ++ b) := by
  rw [occurrences, List.countP_pos_iff]
  refine ⟨w ++ b, ?_, by simp⟩
  rw [List.mem_tails, List.append_assoc]
  exact List.suffix_append a (w ++ b)

/-- A word that occurs once stands at one place. -/
theorem eq_of_occurrences_eq_one {w a b a' b' : List Char}
    (hone : occurrences w (a ++ w ++ b) = 1) (h : a ++ w ++ b = a' ++ w ++ b') :
    a = a' ∧ b = b' := by
  -- it cannot start a text and occur once more
  have hagain : ∀ {c : Char} {u s : List Char}, occurrences w (c :: (u ++ w ++ s)) = 1 →
      ¬ w <+: c :: (u ++ w ++ s) := by
    intro c u s hcount hprefix
    have hpos := occurrences_pos w u s
    rw [occurrences_cons, if_pos (List.isPrefixOf_iff_prefix.2 hprefix)] at hcount
    omega
  induction a generalizing a' with
  | nil =>
    cases a' with
    | nil => exact ⟨rfl, List.append_cancel_left h⟩
    | cons c u =>
      simp only [List.nil_append, List.cons_append] at h hone
      exact absurd ⟨b, h⟩ (hagain (h ▸ hone))
  | cons c a ih =>
    cases a' with
    | nil =>
      simp only [List.nil_append, List.cons_append] at h hone
      exact absurd ⟨b', h.symm⟩ (hagain hone)
    | cons d u =>
      simp only [List.cons_append, List.cons.injEq] at h hone
      obtain ⟨rfl, h⟩ := h
      have hpos := occurrences_pos w a b
      rw [occurrences_cons] at hone
      obtain ⟨rfl, rfl⟩ := ih (by omega) h
      exact ⟨rfl, rfl⟩

private theorem length_extendFirst {c : Char} {ps : List (List Char)} (h : ps ≠ []) :
    (extendFirst c ps).length = ps.length := by
  cases ps with
  | nil => exact absurd rfl h
  | cons p ps => rfl

theorem length_piecesFrom (skip : Nat) (s : List Char) :
    (piecesFrom skip s).length = occurrences placeholder (s.drop skip) + 1 := by
  induction s generalizing skip with
  | nil => simp [piecesFrom, occurrences, placeholder]
  | cons c s ih =>
    cases skip with
    | succ skip => simpa [piecesFrom] using ih skip
    | zero =>
      rw [piecesFrom, List.drop_zero, occurrences_cons]
      split
      · next hprefix =>
        obtain ⟨rest, hrest⟩ := List.isPrefixOf_iff_prefix.1 hprefix
        -- none starts in the rest of the one that is found
        have hs : s = placeholder.tail ++ rest := (List.cons.inj hrest).2.symm
        have hnone : occurrences placeholder s = occurrences placeholder rest := by
          rw [hs]
          exact occurrences_append_of_notMem (by decide) rest
        rw [List.length_cons, ih, hnone, hs, List.drop_left' (by rfl)]
      · rw [length_extendFirst (piecesFrom_ne_nil 0 s), ih, List.drop_zero, Nat.add_zero]

/-- A text has one piece more than placeholders. -/
theorem length_pieces (s : List Char) : (pieces s).length = occurrences placeholder s + 1 :=
  length_piecesFrom 0 s

/-- Templates are the texts with exactly one placeholder. -/
theorem Template.exists_ofText?_iff {text : String} :
    (∃ t, ofText? text = some t) ↔ occurrences placeholder text.toList = 1 := by
  have hlength := length_pieces text.toList
  rw [ofText?]
  constructor
  · rintro ⟨t, ht⟩
    split at ht
    · next b a hpieces =>
      rw [hpieces] at hlength
      exact (Nat.succ.inj hlength).symm
    · cases ht
  · intro hone
    rw [hone] at hlength
    obtain ⟨b, a, hpieces⟩ := List.length_eq_two.1 hlength
    rw [hpieces]
    exact ⟨_, rfl⟩

/-- The template of a text is what stands around its one placeholder. -/
theorem Template.ofText?_eq_some_iff {text : String} {t : Template} : ofText? text = some t ↔
    occurrences placeholder text.toList = 1 ∧
      text.toList = t.before.toList ++ placeholder ++ t.after.toList := by
  constructor
  · intro h
    exact ⟨exists_ofText?_iff.1 ⟨t, h⟩, eq_of_ofText? h⟩
  · rintro ⟨hone, ht⟩
    obtain ⟨u, hu⟩ := exists_ofText?_iff.2 hone
    have hparts := (eq_of_ofText? hu).symm.trans ht
    obtain ⟨hbefore, hafter⟩ := eq_of_occurrences_eq_one (eq_of_ofText? hu ▸ hone) hparts
    rw [hu]
    cases u
    cases t
    simp_all [String.toList_inj]

theorem Template.eq_of_append {text before after : String} {t : Template}
    (h : ofText? text = some t)
    (htext : text.toList = before.toList ++ placeholder ++ after.toList) : t = ⟨before, after⟩ := by
  have hone := (ofText?_eq_some_iff.1 h).1
  have hmk : ofText? text = some ⟨before, after⟩ := ofText?_eq_some_iff.2 ⟨hone, htext⟩
  exact Option.some.inj (h.symm.trans hmk)

end ReleaseCut.Text
