import ReleaseCut.Proofs.Text.Template

/-!
# Substituting for the placeholder

A text with a value in place of every placeholder holds the value, if it held a placeholder
(`isInfix_substitute`). It holds no placeholder any more (`not_isInfix_substitute`), also where what
stood around a placeholder comes next to each other: the value keeps it apart by a character that is
not one of the placeholder's, and no placeholder starts inside the value.
-/

namespace ReleaseCut.Text

section Infix

variable {α : Type} {w a b : List α} {x : α}

/-- What stands around a foreign element holds a word on one of its sides. -/
theorem isInfix_append_cons_iff (hx : x ∉ w) : w <:+: a ++ x :: b ↔ w <:+: a ∨ w <:+: b := by
  have hnil : ∀ u, u <+: x :: b → x ∉ u → u = [] := by
    intro u hu hxu
    rcases List.prefix_cons_iff.1 hu with rfl | ⟨t, rfl, -⟩
    · rfl
    · exact absurd (List.mem_cons_self ..) hxu
  constructor
  · intro h
    rcases List.infix_append_iff.1 h with h | h | ⟨l, u, rfl, hl, hu⟩
    · exact .inl h
    · rcases List.infix_cons_iff.1 h with h | h
      · rw [hnil w h hx]
        exact .inl List.nil_infix
      · exact .inr h
    · -- the word ends before the foreign element
      rw [hnil u hu fun hxu => hx (List.mem_append_right _ hxu), List.append_nil]
      exact .inl hl.isInfix
  · rintro (h | h)
    · exact h.trans (List.prefix_append _ _).isInfix
    · exact h.trans ((List.suffix_cons x b).trans (List.suffix_append a _)).isInfix

/-- No word starts where its first element does not occur. -/
theorem isInfix_of_isInfix_append (hx : x ∉ a) (h : x :: w <:+: a ++ b) : x :: w <:+: b := by
  induction a with
  | nil => exact h
  | cons y a ih =>
    rw [List.mem_cons, not_or] at hx
    rcases List.infix_cons_iff.1 h with h | h
    · exact absurd (List.cons_prefix_cons.1 h).1 hx.1
    · exact ih hx.2 h

/-- Values put between parts that do not hold a word keep the word out. -/
theorem not_isInfix_intercalate {y : α} {value : List α} {parts : List (List α)} (hy : y ∉ x :: w)
    (hx : x ∉ value) (hparts : ∀ p ∈ parts, ¬ x :: w <:+: p) :
    ¬ x :: w <:+: (y :: value).intercalate parts := by
  induction parts with
  | nil => simp
  | cons p parts ih =>
    rw [List.forall_mem_cons] at hparts
    cases parts with
    | nil => simpa using hparts.1
    | cons q parts =>
      rw [List.intercalate_cons_cons, List.append_assoc, List.cons_append,
        isInfix_append_cons_iff hy, not_or]
      exact ⟨hparts.1, fun h => ih hparts.2 (isInfix_of_isInfix_append hx h)⟩

end Infix

/-! ### Pieces -/

/-- What is cut at the placeholders holds none. -/
theorem not_isInfix_of_mem_piecesFrom {skip : Nat} {s p : List Char} (hp : p ∈ piecesFrom skip s) :
    ¬ placeholder <:+: p := by
  induction s generalizing skip p with
  | nil =>
    obtain rfl : p = [] := by simpa [piecesFrom] using hp
    decide
  | cons c s ih =>
    cases skip with
    | succ skip => exact ih hp
    | zero =>
      rw [piecesFrom] at hp
      split at hp
      · rcases List.mem_cons.1 hp with rfl | hp
        · decide
        · exact ih hp
      · next hstart =>
        obtain ⟨q, qs, hpieces⟩ := List.exists_cons_of_ne_nil (piecesFrom_ne_nil 0 s)
        have hrest : ∀ p ∈ q :: qs, ¬ placeholder <:+: p := fun p hp => ih (hpieces ▸ hp)
        rw [hpieces] at hp
        rcases List.mem_cons.1 hp with rfl | hp
        · -- the first piece is how the text starts
          have hq : q <+: s := by
            have hs := intercalate_piecesFrom 0 s
            rw [hpieces, List.drop_zero] at hs
            cases qs with
            | nil => simp [← hs]
            | cons q' qs =>
              rw [List.intercalate_cons_cons, List.append_assoc] at hs
              exact ⟨_, hs⟩
          rw [List.infix_cons_iff, not_or]
          refine ⟨fun h => hstart ?_, hrest q (List.mem_cons_self ..)⟩
          exact List.isPrefixOf_iff_prefix.2 (h.trans (List.cons_prefix_cons.2 ⟨rfl, hq⟩))
        · exact hrest p (List.mem_cons_of_mem _ hp)

/-! ### Substitution -/

variable {value text : String}

/-- A value that is substituted is there. -/
theorem isInfix_substitute (h : hasPlaceholder text = true) :
    value.toList <:+: (substitute value text).toList := by
  rw [hasPlaceholder, decide_eq_true_iff] at h
  rw [substitute, String.toList_ofList]
  match pieces text.toList, h with
  | p :: q :: ps, _ =>
    rw [List.intercalate_cons_cons]
    exact ⟨p, _, rfl⟩

/-- No placeholder is left, if the value starts with a character that no placeholder has and does
not hold the one that a placeholder starts with. -/
theorem not_isInfix_substitute {c : Char} {s : List Char} (hvalue : value.toList = c :: s)
    (hc : c ∉ placeholder) (hopen : '\x7b' ∉ s) :
    ¬ placeholder <:+: (substitute value text).toList := by
  rw [substitute, String.toList_ofList, hvalue]
  exact not_isInfix_intercalate hc hopen fun p hp => not_isInfix_of_mem_piecesFrom hp

end ReleaseCut.Text
