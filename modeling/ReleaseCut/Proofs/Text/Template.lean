import ReleaseCut.Text.Placeholder

/-!
# Filling and reading templates

`Template.fill` and `Template.extract?` undo each other: reading a filled template gives the value
(`extract?_fill`), and a text that is read is the template filled with what was read
(`fill_of_extract?`).

The text of a template is put together from its two parts and the placeholder (`eq_of_ofText?`).
-/

namespace ReleaseCut.Text

/-! ### Pieces -/

private theorem extendFirst_ne_nil (c : Char) (ps : List (List Char)) : extendFirst c ps ≠ [] := by
  cases ps <;> simp [extendFirst]

theorem piecesFrom_ne_nil (skip : Nat) (s : List Char) : piecesFrom skip s ≠ [] := by
  induction s generalizing skip with
  | nil => simp [piecesFrom]
  | cons c s ih =>
    cases skip with
    | succ skip => simpa [piecesFrom] using ih skip
    | zero =>
      rw [piecesFrom]
      split
      · simp
      · exact extendFirst_ne_nil c _

/-- The pieces with the placeholder in between are what was not skipped. -/
theorem intercalate_piecesFrom (skip : Nat) (s : List Char) :
    placeholder.intercalate (piecesFrom skip s) = s.drop skip := by
  induction s generalizing skip with
  | nil => simp [piecesFrom]
  | cons c s ih =>
    cases skip with
    | succ skip => simpa [piecesFrom] using ih skip
    | zero =>
      rw [piecesFrom]
      split
      · next hprefix =>
        obtain ⟨rest, hrest⟩ := List.isPrefixOf_iff_prefix.1 hprefix
        obtain ⟨p, ps, hps⟩ :=
          List.exists_cons_of_ne_nil (piecesFrom_ne_nil (placeholder.length - 1) s)
        have hih := ih (placeholder.length - 1)
        rw [hps] at hih ⊢
        -- the rest of the placeholder is skipped
        have hs : s = placeholder.tail ++ rest := (List.cons.inj hrest).2.symm
        rw [List.intercalate_cons_cons, hih, hs, List.drop_left' (by rfl), ← hs]
        exact hrest
      · have hih := ih 0
        obtain ⟨p, ps, hps⟩ := List.exists_cons_of_ne_nil (piecesFrom_ne_nil 0 s)
        rw [hps] at hih ⊢
        rw [extendFirst]
        cases ps with
        | nil => simpa using hih
        | cons q ps =>
          rw [List.intercalate_cons_cons] at hih ⊢
          simpa using hih

/-- Nothing is lost by cutting at the placeholders. -/
theorem intercalate_pieces (s : List Char) : placeholder.intercalate (pieces s) = s :=
  intercalate_piecesFrom 0 s

/-! ### Templates -/

namespace Template

variable {t : Template} {value text : String}

/-- A template has the text that it was read from. -/
theorem eq_of_ofText? (h : ofText? text = some t) :
    text.toList = t.before.toList ++ placeholder ++ t.after.toList := by
  rw [ofText?] at h
  split at h
  · next b a hpieces =>
    obtain rfl := Option.some.inj h
    rw [← intercalate_pieces text.toList, hpieces, List.intercalate_cons_cons]
    simp
  · cases h

/-- A filled template is read back. -/
@[simp] theorem extract?_fill (t : Template) (value : String) :
    t.extract? (t.fill value) = some value := by
  have hprefix : t.before.toList.isPrefixOf (t.fill value).toList = true := by
    simp [fill, List.append_assoc]
  have hrest : (t.fill value).toList.drop t.before.toList.length =
      value.toList ++ t.after.toList := by
    simp [fill, List.append_assoc]
  simp [extract?, afterLeading?, beforeTrailing?, hprefix, hrest]

/-- Only filled templates are read. -/
theorem fill_of_extract? (h : t.extract? text = some value) : t.fill value = text := by
  simp only [extract?, afterLeading?, beforeTrailing?] at h
  split at h
  · next hprefix =>
    obtain ⟨rest, hrest⟩ := List.isPrefixOf_iff_prefix.1 hprefix
    rw [← hrest, List.drop_left] at h
    simp only [Option.bind_eq_bind, Option.bind_some] at h
    split at h
    · next hsuffix =>
      obtain ⟨inner, hinner⟩ := List.isSuffixOf_iff_suffix.1 hsuffix
      rw [← hinner] at h hrest
      have hvalue : inner = value.toList := by
        have hofList : String.ofList inner = value := by simpa using h
        rw [← hofList, String.toList_ofList]
      apply String.toList_inj.1
      rw [fill, String.toList_append, String.toList_append, ← hrest, ← hvalue,
        List.append_assoc]
    · simp at h
  · simp at h

end Template

end ReleaseCut.Text
